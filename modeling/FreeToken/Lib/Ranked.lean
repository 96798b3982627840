import Mathlib.Algebra.Order.Field.Basic
import Mathlib.Algebra.BigOperators.Group.List.Basic
import Mathlib.Algebra.Order.BigOperators.Group.List
import Mathlib.Data.List.Nodup

/-!
# Lists in descending order

In a list that descends in `f`, a set that contains with an item all items of no smaller
`f` is an initial segment; its length is the number of its items.
-/

namespace Ranked

variable {α K : Type}

section Segments

variable [LinearOrder K]

/-- With an item, all items of no smaller value. -/
def UpSet (o : List α) (f : α → K) (p : α → Prop) : Prop :=
  ∀ u ∈ o, ∀ v ∈ o, p v → f v ≤ f u → p u

theorem UpSet.tail {o : List α} {f : α → K} {p : α → Prop} {a : α} (h : UpSet (a :: o) f p) :
    UpSet o f p := fun u hu v hv =>
  h u (List.mem_cons_of_mem a hu) v (List.mem_cons_of_mem a hv)

theorem getElem_iff_lt_countP {o : List α} {f : α → K} (hs : o.Pairwise fun u v => f v ≤ f u)
    {p : α → Prop} [DecidablePred p] (hup : UpSet o f p) {j : Nat} (hj : j < o.length) :
    p o[j] ↔ j < o.countP fun a => decide (p a) := by
  induction o generalizing j with
  | nil => cases hj
  | cons a o ih =>
      obtain ⟨hhead, htail⟩ := List.pairwise_cons.mp hs
      by_cases ha : p a
      · have hcount : (a :: o).countP (fun a => decide (p a)) =
            o.countP (fun a => decide (p a)) + 1 := List.countP_cons_of_pos (decide_eq_true ha)
        rw [hcount]
        cases j with
        | zero => exact iff_of_true ha (Nat.succ_pos _)
        | succ j =>
            rw [List.getElem_cons_succ, ih htail hup.tail (Nat.lt_of_succ_lt_succ hj)]
            exact Nat.succ_lt_succ_iff.symm
      · have hnone : ∀ v ∈ o, ¬ p v := fun v hv hpv =>
          ha (hup a List.mem_cons_self v (List.mem_cons_of_mem a hv) hpv (hhead v hv))
        have hzero : (a :: o).countP (fun a => decide (p a)) = 0 := by
          rw [List.countP_eq_zero]
          intro v hv
          rcases List.mem_cons.mp hv with rfl | hv
          · simpa using ha
          · simpa using hnone v hv
        rw [hzero]
        refine iff_of_false ?_ (Nat.not_lt_zero j)
        rcases List.mem_cons.mp (List.getElem_mem hj) with heq | hmem
        · rw [heq]
          exact ha
        · exact hnone _ hmem

end Segments

/-! ### Sums of initial segments -/

theorem sum_take_le [AddCommMonoid K] [PartialOrder K] [IsOrderedAddMonoid K] {l : List K}
    (hl : ∀ x ∈ l, 0 ≤ x) {i j : Nat} (hij : i ≤ j) : (l.take i).sum ≤ (l.take j).sum := by
  have hsplit : l.take j = l.take i ++ (l.take j).drop i := by
    have htake : (l.take j).take i = l.take i := by
      rw [List.take_take, Nat.min_eq_left hij]
    rw [← htake]
    exact (List.take_append_drop i (l.take j)).symm
  rw [hsplit, List.sum_append]
  apply le_add_of_nonneg_right
  apply List.sum_nonneg
  intro x hx
  exact hl x (List.mem_of_mem_take (List.mem_of_mem_drop hx))

/-! ### Looking up a key -/

/-- Among distinct keys, a key is found with the value that stands at its place. -/
theorem lookup_zip_getElem [DecidableEq α] {β : Type} {o : List α} (h : o.Nodup) {ks : List β}
    {j : Nat} (hj : j < o.length) (hk : j < ks.length) :
    (o.zip ks).lookup o[j] = some ks[j] := by
  induction o generalizing j ks with
  | nil => cases hj
  | cons a o ih =>
      obtain ⟨hnot, hnodup⟩ := List.nodup_cons.mp h
      cases ks with
      | nil => cases hk
      | cons k ks =>
          cases j with
          | zero => simp
          | succ j =>
              have hj' : j < o.length := Nat.lt_of_succ_lt_succ hj
              have hne : o[j] ≠ a := fun heq => hnot (heq ▸ List.getElem_mem _)
              have hbeq : (o[j] == a) = false := beq_false_of_ne hne
              rw [List.zip_cons_cons, List.getElem_cons_succ, List.getElem_cons_succ,
                List.lookup_cons, hbeq]
              exact ih hnodup hj' (Nat.lt_of_succ_lt_succ hk)

end Ranked
