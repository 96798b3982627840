import Mathlib.Data.List.Perm.Basic

/-!
# `heapq`

Python's binary heaps on lists, with the comparisons of CPython, so that ties fall as they fall
there. An item moves by swaps, where the source keeps it aside until its place is found. Nothing is
assumed of `lt`, the `__lt__` of the items: a heap holds the same items whatever it says.
-/

namespace Heapq

variable {α : Type} (lt : α → α → Bool)

/-- `heap[i] < heap[j]`. -/
def lessAt (heap : List α) (i j : Nat) : Bool :=
  match heap[i]?, heap[j]? with
  | some a, some b => lt a b
  | _, _ => false

/-- `_siftdown`: the item at `pos` moves towards `startpos` while it is less than its parent. It
takes at most `pos` steps. -/
def siftdown (startpos : Nat) : Nat → Nat → List α → List α
  | 0, _, heap => heap
  | fuel + 1, pos, heap =>
      let parentpos := (pos - 1) / 2
      if startpos < pos ∧ lessAt lt heap pos parentpos then
        siftdown startpos fuel parentpos (heap.swap pos parentpos)
      else heap

/-- The loop of `_siftup`: the lesser child of `pos` moves up, down to a leaf. -/
def bubble : Nat → Nat → List α → Nat × List α
  | 0, pos, heap => (pos, heap)
  | fuel + 1, pos, heap =>
      let childpos := 2 * pos + 1
      if childpos < heap.length then
        let childpos :=
          if childpos + 1 < heap.length ∧ ¬ lessAt lt heap childpos (childpos + 1) then childpos + 1
          else childpos
        bubble fuel childpos (heap.swap pos childpos)
      else (pos, heap)

/-- `_siftup`. -/
def siftup (pos : Nat) (heap : List α) : List α :=
  let (leaf, heap) := bubble lt heap.length pos heap
  siftdown lt pos leaf leaf heap

def heapify (x : List α) : List α :=
  (List.range (x.length / 2)).foldr (fun i x => siftup lt i x) x

def heappush (heap : List α) (item : α) : List α :=
  siftdown lt 0 heap.length heap.length (heap ++ [item])

/-- `heappop`; `none` is its `IndexError`. -/
def heappop : List α → Option (α × List α)
  | [] => none
  | returnitem :: heap =>
      match heap.getLast? with
      | none => some (returnitem, [])
      | some lastelt => some (returnitem, siftup lt 0 (lastelt :: heap.dropLast))

variable {lt}

theorem siftdown_perm {startpos : Nat} : ∀ (fuel pos : Nat) (heap : List α),
    (siftdown lt startpos fuel pos heap).Perm heap
  | 0, _, heap => List.Perm.refl heap
  | fuel + 1, pos, heap => by
      simp only [siftdown]
      split
      · exact (siftdown_perm fuel _ _).trans (List.swap_perm _ _ _)
      · exact List.Perm.refl heap

theorem bubble_perm : ∀ (fuel pos : Nat) (heap : List α), (bubble lt fuel pos heap).2.Perm heap
  | 0, _, heap => List.Perm.refl heap
  | fuel + 1, pos, heap => by
      simp only [bubble]
      split
      · exact (bubble_perm fuel _ _).trans (List.swap_perm _ _ _)
      · exact List.Perm.refl heap

theorem siftup_perm (pos : Nat) (heap : List α) : (siftup lt pos heap).Perm heap :=
  (siftdown_perm _ _ _).trans (bubble_perm _ _ _)

variable (lt) in
theorem heapify_perm (x : List α) : (heapify lt x).Perm x := by
  rw [heapify]
  induction List.range (x.length / 2) with
  | nil => exact List.Perm.refl x
  | cons i is ih => exact (siftup_perm i _).trans ih

variable (lt) in
theorem heappush_perm (heap : List α) (item : α) : (heappush lt heap item).Perm (item :: heap) :=
  (siftdown_perm _ _ _).trans (List.perm_append_singleton item heap)

theorem heappop_eq_none {heap : List α} : heappop lt heap = none ↔ heap = [] := by
  cases heap with
  | nil => simp [heappop]
  | cons returnitem heap =>
      simp only [heappop]
      cases heap.getLast? <;> simp

/-- A pop takes one item out. -/
theorem heappop_perm {heap heap' : List α} {item : α} (h : heappop lt heap = some (item, heap')) :
    heap.Perm (item :: heap') := by
  cases heap with
  | nil => simp [heappop] at h
  | cons returnitem heap =>
      simp only [heappop] at h
      rcases hlast : heap.getLast? with _ | lastelt
      · simp only [hlast, Option.some.injEq, Prod.mk.injEq] at h
        rcases h with ⟨rfl, rfl⟩
        rw [List.getLast?_eq_none_iff.mp hlast]
      · simp only [hlast, Option.some.injEq, Prod.mk.injEq] at h
        rcases h with ⟨rfl, rfl⟩
        have hheap : heap = heap.dropLast ++ [lastelt] :=
          (List.dropLast_append_getLast? lastelt hlast).symm
        apply List.Perm.cons
        calc heap.Perm (heap.dropLast ++ [lastelt]) := List.Perm.of_eq hheap
          _ |>.Perm (lastelt :: heap.dropLast) := List.perm_append_singleton _ _
          _ |>.Perm _ := (siftup_perm 0 _).symm

end Heapq
