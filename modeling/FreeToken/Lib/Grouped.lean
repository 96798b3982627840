import FreeToken.Lib.Ranked
import Mathlib.Data.List.Basic

/-!
# Grouping by key

The places of a list of keys are sorted by key, and a binary search for a key and for the next one
cuts the sorted places. The cut holds the places of the key and no others, so that the cuts of all
keys together hold every place once.
-/

namespace Grouped

/-! ### Initial segments -/

section Segments

variable {α : Type} {p : α → Bool} {l : List α}

theorem countP_eq_zero_of_head {a : α} (h : (a :: l).Pairwise fun a b => p b = true → p a = true)
    (ha : ¬ p a = true) : l.countP p = 0 := by
  rw [List.countP_eq_zero]
  intro b hb hpb
  exact ha ((List.pairwise_cons.mp h).1 b hb hpb)

theorem take_countP (h : l.Pairwise fun a b => p b = true → p a = true) :
    l.take (l.countP p) = l.filter p := by
  induction l with
  | nil => rfl
  | cons a l ih =>
      by_cases ha : p a = true
      · rw [List.countP_cons_of_pos ha, List.take_succ_cons, List.filter_cons_of_pos ha, ih h.of_cons]
      · have hzero := countP_eq_zero_of_head h ha
        rw [List.countP_cons_of_neg ha, hzero, List.filter_cons_of_neg ha, List.take_zero]
        exact (List.filter_eq_nil_iff.mpr (List.countP_eq_zero.mp hzero)).symm

theorem drop_countP (h : l.Pairwise fun a b => p b = true → p a = true) :
    l.drop (l.countP p) = l.filter fun a => !p a := by
  induction l with
  | nil => rfl
  | cons a l ih =>
      by_cases ha : p a = true
      · rw [List.countP_cons_of_pos ha, List.drop_succ_cons, List.filter_cons_of_neg (by simp [ha]),
          ih h.of_cons]
      · have hzero := countP_eq_zero_of_head h ha
        rw [List.countP_cons_of_neg ha, hzero, List.drop_zero, eq_comm, List.filter_eq_self]
        intro b hb
        rcases List.mem_cons.mp hb with rfl | hb
        · simpa using ha
        · simpa using List.countP_eq_zero.mp hzero b hb

end Segments

/-! ### Rows -/

theorem row_col {cols j : Nat} (i : Nat) (hj : j < cols) :
    (i * cols + j) / cols = i ∧ (i * cols + j) % cols = j := by
  have hcols : 0 < cols := Nat.zero_lt_of_lt hj
  rw [Nat.mul_comm, Nat.mul_add_div hcols, Nat.mul_add_mod, Nat.div_eq_of_lt hj, Nat.mod_eq_of_lt hj]
  exact ⟨rfl, rfl⟩

theorem place_lt {rows cols i j : Nat} (hi : i < rows) (hj : j < cols) : i * cols + j < rows * cols := by
  have hle := Nat.mul_le_mul_right cols (Nat.succ_le_of_lt hi)
  rw [Nat.succ_mul] at hle
  omega

/-- The items of a table, row by row. -/
theorem flatMap_rows {β : Type} (rows cols : Nat) (g : Nat → Nat → β) :
    ((List.range rows).flatMap fun i => (List.range cols).map (g i)) =
      (List.range (rows * cols)).map fun p => g (p / cols) (p % cols) := by
  induction rows with
  | zero => simp
  | succ rows ih =>
      rw [List.range_succ, List.flatMap_append, ih, Nat.succ_mul, List.range_add, List.map_append]
      congr 1
      rw [List.flatMap_singleton, List.map_map]
      refine List.map_congr_left fun j hj => ?_
      obtain ⟨hdiv, hmod⟩ := row_col rows (List.mem_range.mp hj)
      rw [Function.comp_apply, hdiv, hmod]

/-! ### Binary search -/

/-- The first place, from `lo` to `hi`, that holds `v` or more. -/
def lowerBound (l : List Nat) (v lo hi : Nat) : Nat :=
  if lo < hi then
    let mid := lo + (hi - lo) / 2
    if l.getD mid 0 < v then lowerBound l v (mid + 1) hi else lowerBound l v lo mid
  else lo
termination_by hi - lo

/-- `torch.searchsorted`. -/
def searchsorted (l : List Nat) (v : Nat) : Nat := lowerBound l v 0 l.length

section Search

variable {l : List Nat} {v : Nat}

theorem getD_lt_iff (hs : l.Pairwise (· ≤ ·)) {i : Nat} (hi : i < l.length) :
    l.getD i 0 < v ↔ i < l.countP fun x => decide (x < v) := by
  rw [List.getD_eq_getElem?_getD, List.getElem?_eq_getElem hi, Option.getD_some]
  apply Ranked.getElem_iff_lt_countP (f := OrderDual.toDual) (p := fun x => x < v)
  · exact hs
  · exact fun u _ w _ hw hle => Nat.lt_of_le_of_lt hle hw

theorem lowerBound_eq (hs : l.Pairwise (· ≤ ·)) (lo hi : Nat)
    (hlo : lo ≤ l.countP fun x => decide (x < v)) (hhi : (l.countP fun x => decide (x < v)) ≤ hi)
    (hlen : hi ≤ l.length) : lowerBound l v lo hi = l.countP fun x => decide (x < v) := by
  induction lo, hi using lowerBound.induct l v with
  | case1 lo hi hlt mid hmid ih =>
      rw [lowerBound, if_pos hlt, if_pos hmid]
      exact ih ((getD_lt_iff hs (by omega)).mp hmid) hhi hlen
  | case2 lo hi hlt mid hmid ih =>
      rw [lowerBound, if_pos hlt, if_neg hmid]
      have hle := Nat.not_lt.mp (mt (getD_lt_iff hs (by omega)).mpr hmid)
      exact ih hlo hle (by omega)
  | case3 lo hi hlt =>
      rw [lowerBound, if_neg hlt]
      omega

theorem searchsorted_eq (hs : l.Pairwise (· ≤ ·)) :
    searchsorted l v = l.countP fun x => decide (x < v) :=
  lowerBound_eq hs 0 l.length (Nat.zero_le _) List.countP_le_length (Nat.le_refl _)

end Search

/-! ### Sorted places -/

/-- `torch.argsort(stable=True)`. -/
def argsort (keys : List Nat) : List Nat :=
  (List.range keys.length).mergeSort fun i j => keys.getD i 0 ≤ keys.getD j 0

section Runs

variable (keys : List Nat)

theorem argsort_perm : (argsort keys).Perm (List.range keys.length) := List.mergeSort_perm _ _

theorem mem_argsort {i : Nat} : i ∈ argsort keys ↔ i < keys.length :=
  (argsort_perm keys).mem_iff.trans List.mem_range

theorem nodup_argsort : (argsort keys).Nodup := (argsort_perm keys).nodup_iff.mpr List.nodup_range

theorem argsort_sorted :
    (argsort keys).Pairwise fun i j => keys.getD i 0 ≤ keys.getD j 0 := by
  have htrans : ∀ i j l : Nat, decide (keys.getD i 0 ≤ keys.getD j 0) = true →
      decide (keys.getD j 0 ≤ keys.getD l 0) = true → decide (keys.getD i 0 ≤ keys.getD l 0) = true := by
    simp only [decide_eq_true_eq]
    exact fun i j l => Nat.le_trans
  have htotal : ∀ i j : Nat, (decide (keys.getD i 0 ≤ keys.getD j 0) ||
      decide (keys.getD j 0 ≤ keys.getD i 0)) = true := by
    simp only [Bool.or_eq_true, decide_eq_true_eq]
    exact fun i j => Nat.le_total _ _
  have hsorted := List.pairwise_mergeSort htrans htotal (List.range keys.length)
  exact hsorted.imp of_decide_eq_true

/-- The cut of key `e`. -/
theorem cut_eq_filter (e : Nat) :
    let sorted := (argsort keys).map fun i => keys.getD i 0
    ((argsort keys).take (searchsorted sorted (e + 1))).drop (searchsorted sorted e) =
      (argsort keys).filter fun i => keys.getD i 0 = e := by
  intro sorted
  have hs : sorted.Pairwise (· ≤ ·) := List.pairwise_map.mpr (argsort_sorted keys)
  have hbelow : ∀ v, (argsort keys).Pairwise fun i j =>
      decide (keys.getD j 0 < v) = true → decide (keys.getD i 0 < v) = true := by
    intro v
    refine (argsort_sorted keys).imp fun hle hlt => ?_
    exact decide_eq_true (Nat.lt_of_le_of_lt hle (of_decide_eq_true hlt))
  have hcount : ∀ v, searchsorted sorted v =
      (argsort keys).countP fun i => decide (keys.getD i 0 < v) := by
    intro v
    rw [searchsorted_eq hs, List.countP_map]
    rfl
  have hcut : ((argsort keys).filter fun i => decide (keys.getD i 0 < e + 1)).countP
      (fun i => decide (keys.getD i 0 < e)) =
        (argsort keys).countP fun i => decide (keys.getD i 0 < e) := by
    rw [List.countP_filter]
    refine List.countP_congr fun i _ => ?_
    simp only [Bool.and_eq_true, decide_eq_true_eq]
    omega
  rw [hcount, hcount, take_countP (hbelow (e + 1)), ← hcut,
    drop_countP ((hbelow e).filter _), List.filter_filter]
  refine List.filter_congr fun i _ => ?_
  rw [Bool.eq_iff_iff]
  simp only [Bool.and_eq_true, Bool.not_eq_true', decide_eq_true_eq, decide_eq_false_iff_not]
  omega

/-- The cuts of all keys hold every place once. -/
theorem count_cuts {numKeys i : Nat} (hi : i < keys.length) (hkey : keys.getD i 0 < numKeys) :
    ((List.range numKeys).flatMap fun e =>
      (argsort keys).filter fun i => keys.getD i 0 = e).count i = 1 := by
  apply List.count_eq_one_of_mem
  · rw [List.nodup_flatMap]
    refine ⟨fun e _ => (nodup_argsort keys).filter _, ?_⟩
    apply List.nodup_range.pairwise_of_forall_ne
    intro e _ e' _ hne
    refine List.disjoint_left.mpr ?_
    intro j hj hj'
    apply hne
    rw [← of_decide_eq_true (List.mem_filter.mp hj).2, of_decide_eq_true (List.mem_filter.mp hj').2]
  · refine List.mem_flatMap.mpr ⟨_, List.mem_range.mpr hkey, List.mem_filter.mpr ⟨?_, ?_⟩⟩
    · exact (mem_argsort keys).mpr hi
    · exact decide_eq_true rfl

end Runs

end Grouped
