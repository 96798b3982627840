import Mathlib.Data.List.Nodup
import Mathlib.Logic.Function.Basic
import Mathlib.Algebra.BigOperators.Group.Finset.Sigma
import Mathlib.Algebra.BigOperators.Group.List.Basic

/-!
# Assigning to places and adding to rows

Assignments to the places of a memory are made one after the other. A place whose assignments all
give it one value holds that value afterwards, whatever the memory held before.

`scatterAdd` adds each term to its row. A table of keys is worked off key by key: for each
key that is kept, the places that hold it give one term each. Every place of a row then
counts once, with its own key.
-/

/-! ### Assignments -/

namespace Assign

variable {ι β : Type} [DecidableEq ι]

/-- What a memory that held `junk` holds after the assignments. -/
def written (junk : ι → β) (out : List (ι × β)) : ι → β :=
  out.foldl (fun mem s => Function.update mem s.1 s.2) junk

theorem written_append (junk : ι → β) (out out' : List (ι × β)) :
    written junk (out ++ out') = written (written junk out) out' :=
  List.foldl_append ..

/-- A place that holds its value keeps it. -/
theorem written_keep {out : List (ι × β)} {i : ι} {v : β} (h : ∀ s ∈ out, s.1 = i → s.2 = v) :
    ∀ {junk : ι → β}, junk i = v → written junk out i = v := by
  induction out with
  | nil => exact id
  | cons s out ih =>
      intro junk hjunk
      apply ih fun s' hs' => h s' (List.mem_cons_of_mem s hs')
      change Function.update junk s.1 s.2 i = v
      by_cases hs : s.1 = i
      · rw [hs, Function.update_self]
        exact h s List.mem_cons_self hs
      · rwa [Function.update_of_ne (Ne.symm hs)]

theorem written_eq {out : List (ι × β)} {i : ι} {v : β} (h : ∀ s ∈ out, s.1 = i → s.2 = v)
    (hi : i ∈ out.map Prod.fst) (junk : ι → β) : written junk out i = v := by
  obtain ⟨s, hs, rfl⟩ := List.mem_map.mp hi
  obtain ⟨before, after, rfl⟩ := List.append_of_mem hs
  rw [written_append]
  apply written_keep fun s' hs' => h s' (List.mem_append_right _ (List.mem_cons_of_mem s hs'))
  change Function.update (written junk before) s.1 s.2 s.1 = v
  rw [Function.update_self]
  exact h s hs rfl

theorem written_cons (junk : ι → β) (s : ι × β) (out : List (ι × β)) :
    written junk (s :: out) = written (Function.update junk s.1 s.2) out := rfl

/-- What a place holds afterwards depends on what it held before, and on no other place. -/
theorem written_congr {out : List (ι × β)} {i : ι} : ∀ {junk junk' : ι → β}, junk i = junk' i →
    written junk out i = written junk' out i := by
  induction out with
  | nil => exact id
  | cons s out ih =>
      intro junk junk' h
      rw [written_cons, written_cons]
      apply ih
      simp only [Function.update_apply, h]

/-- A part of each value is written with the values. -/
theorem written_map {γ : Type} (f : β → γ) (out : List (ι × β)) (junk : ι → β) (i : ι) :
    f (written junk out i) = written (fun i => f (junk i)) (out.map fun s => (s.1, f s.2)) i := by
  induction out generalizing junk with
  | nil => rfl
  | cons s out ih =>
      rw [List.map_cons, written_cons, written_cons, ih]
      apply written_congr
      simp only [Function.update_apply, apply_ite f]

end Assign

/-! ### Adding terms up by rows -/

namespace ScatterAdd

variable {V : Type} [AddCommMonoid V]

/-- `out[i] += y` for each `(i, y)`. -/
def scatterAdd (terms : List (Nat × V)) : Nat → V :=
  terms.foldl (fun out t => Function.update out t.1 (out t.1 + t.2)) fun _ => 0

theorem foldl_scatter (terms : List (Nat × V)) (out : Nat → V) (i : Nat) :
    terms.foldl (fun out t => Function.update out t.1 (out t.1 + t.2)) out i =
      out i + (terms.map fun t => if t.1 = i then t.2 else 0).sum := by
  induction terms generalizing out with
  | nil => simp
  | cons t terms ih =>
      rw [List.foldl_cons, ih, List.map_cons, List.sum_cons, ← add_assoc]
      congr 1
      by_cases ht : t.1 = i
      · subst ht
        rw [Function.update_self, if_pos rfl]
      · rw [Function.update_of_ne (Ne.symm ht), if_neg ht, add_zero]

theorem scatterAdd_eq_sum (terms : List (Nat × V)) (i : Nat) :
    scatterAdd terms i = (terms.map fun t => if t.1 = i then t.2 else 0).sum := by
  rw [scatterAdd, foldl_scatter, zero_add]

/-! ### Sums over lists -/

theorem sum_flatMap {α β : Type} (l : List α) (g : α → List β) (h : β → V) :
    ((l.flatMap g).map h).sum = (l.map fun a => ((g a).map h).sum).sum := by
  induction l with
  | nil => rfl
  | cons a l ih => rw [List.flatMap_cons, List.map_append, List.sum_append, ih, List.map_cons,
      List.sum_cons]

theorem sum_filter {α : Type} (l : List α) (p : α → Prop) [DecidablePred p] (h : α → V) :
    ((l.filter p).map h).sum = (l.map fun a => if p a then h a else 0).sum := by
  induction l with
  | nil => rfl
  | cons a l ih =>
      rw [List.filter_cons, List.map_cons, List.sum_cons, ← ih]
      by_cases ha : p a
      · rw [if_pos (decide_eq_true ha), if_pos ha, List.map_cons, List.sum_cons]
      · rw [if_neg (by simpa using ha), if_neg ha, zero_add]

theorem sum_range (n : Nat) (f : Nat → V) :
    ((List.range n).map f).sum = ∑ i ∈ Finset.range n, f i := by
  induction n with
  | zero => rfl
  | succ n ih => rw [List.range_succ, List.map_append, List.sum_append, ih, Finset.sum_range_succ,
      List.map_singleton, List.sum_singleton]

/-! ### Key by key -/

/-- The places `(column, row)`, column by column. -/
def places (rows cols : Nat) : List (Nat × Nat) :=
  (List.range cols).flatMap fun j => (List.range rows).map fun i => (j, i)

theorem mem_places {rows cols : Nat} {p : Nat × Nat} :
    p ∈ places rows cols ↔ p.1 < cols ∧ p.2 < rows := by
  rw [places, List.mem_flatMap]
  constructor
  · rintro ⟨j, hj, hp⟩
    obtain ⟨i, hi, rfl⟩ := List.mem_map.mp hp
    exact ⟨List.mem_range.mp hj, List.mem_range.mp hi⟩
  · rintro ⟨hj, hi⟩
    exact ⟨p.1, List.mem_range.mpr hj, List.mem_map.mpr ⟨p.2, List.mem_range.mpr hi, rfl⟩⟩

/-- For each kept key the terms of the places that hold it. -/
def keyMajor (keys rows cols : Nat) (key : Nat → Nat → Nat) (keep : Nat → Prop)
    [DecidablePred keep] (term : Nat → Nat → Nat → V) : List (Nat × V) :=
  (List.range keys).flatMap fun e =>
    if keep e then
      ((places rows cols).filter fun p => key p.2 p.1 = e).map fun p => (p.2, term e p.1 p.2)
    else []

theorem sum_places {rows cols : Nat} {key : Nat → Nat → Nat} {i : Nat} (hi : i < rows) (e : Nat)
    (term : Nat → Nat → V) :
    ((((places rows cols).filter fun p => key p.2 p.1 = e).map fun p =>
        (p.2, term p.1 p.2)).map fun t => if t.1 = i then t.2 else 0).sum =
      ∑ j ∈ Finset.range cols, if key i j = e then term j i else 0 := by
  rw [List.map_map, sum_filter, places, sum_flatMap, sum_range]
  apply Finset.sum_congr rfl
  intro j _
  rw [List.map_map, sum_range, Finset.sum_eq_single i]
  · simp
  · intro i' _ hne
    simp [hne]
  · intro hnot
    exact absurd (Finset.mem_range.mpr hi) hnot

/-- Each place of a row counts once, with its own key. -/
theorem scatterAdd_keyMajor {keys rows cols : Nat} {key : Nat → Nat → Nat} {keep : Nat → Prop}
    [DecidablePred keep] {term : Nat → Nat → Nat → V} {i : Nat} (hi : i < rows)
    (hkey : ∀ j < cols, key i j < keys) :
    scatterAdd (keyMajor keys rows cols key keep term) i =
      ∑ j ∈ Finset.range cols, if keep (key i j) then term (key i j) j i else 0 := by
  have hone : ∀ e, (((if keep e then
      ((places rows cols).filter fun p => key p.2 p.1 = e).map fun p => (p.2, term e p.1 p.2)
      else []).map fun t => if t.1 = i then t.2 else 0).sum : V) =
      ∑ j ∈ Finset.range cols, if key i j = e then (if keep e then term e j i else 0) else 0 := by
    intro e
    by_cases he : keep e
    · simp only [if_pos he]
      exact sum_places hi e fun j i => term e j i
    · simp [if_neg he]
  rw [scatterAdd_eq_sum, keyMajor, sum_flatMap, sum_range]
  simp only [hone]
  rw [Finset.sum_comm]
  apply Finset.sum_congr rfl
  intro j hj
  rw [Finset.sum_eq_single (key i j)]
  · rw [if_pos rfl]
  · intro e _ hne
    rw [if_neg (Ne.symm hne)]
  · intro hnot
    exact absurd (Finset.mem_range.mpr (hkey j (Finset.mem_range.mp hj))) hnot

end ScatterAdd
