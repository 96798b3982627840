import Mathlib.Data.Finset.Max
import Mathlib.Order.WithBot

/-!
# The largest values

The places of the `k` largest of `n` values, however ties are broken. Without ties a place is
among them when fewer than `k` places have a larger value. With some places masked, this is so of
the places that are left: `k` of them are picked, or all when there are fewer.
-/

/-- `torch.topk`: the places of the `k` largest of `n` values. -/
structure TopK (K : Type) [LinearOrder K] where
  pick (n : Nat) (f : Nat → K) (k : Nat) : List Nat
  length_pick {n : Nat} {f : Nat → K} {k : Nat} : k ≤ n → (pick n f k).length = k
  nodup_pick {n : Nat} {f : Nat → K} {k : Nat} : k ≤ n → (pick n f k).Nodup
  lt_of_mem {n : Nat} {f : Nat → K} {k : Nat} : k ≤ n → ∀ i ∈ pick n f k, i < n
  le_of_mem {n : Nat} {f : Nat → K} {k : Nat} :
    k ≤ n → ∀ i ∈ pick n f k, ∀ j < n, j ∉ pick n f k → f j ≤ f i

namespace TopK

variable {K : Type} [LinearOrder K]

/-! ### The best of a set -/

/-- The items of a set that fewer than `k` of it exceed. -/
def best {ι : Type} (S : Finset ι) (f : ι → K) (k : Nat) : Finset ι :=
  S.filter fun i => (S.filter fun j => f i < f j).card < k

section Best

variable {ι : Type} {S : Finset ι} {f : ι → K} {k : Nat} {i : ι}

theorem mem_best : i ∈ best S f k ↔ i ∈ S ∧ (S.filter fun j => f i < f j).card < k :=
  Finset.mem_filter

theorem best_subset (S : Finset ι) (f : ι → K) (k : Nat) : best S f k ⊆ S := Finset.filter_subset _ _

theorem best_eq_self (h : S.card ≤ k) : best S f k = S := by
  refine Finset.filter_true_of_mem fun i hi => ?_
  refine Nat.lt_of_lt_of_le (Finset.card_lt_card ?_) h
  exact Finset.filter_ssubset.mpr ⟨i, hi, lt_irrefl _⟩

/-- No more than all can be asked for. -/
theorem best_min {n : Nat} (h : S.card ≤ n) : best S f (min k n) = best S f k := by
  refine Finset.filter_congr fun i hi => ?_
  have hlt : (S.filter fun j => f i < f j).card < S.card :=
    Finset.card_lt_card (Finset.filter_ssubset.mpr ⟨i, hi, lt_irrefl _⟩)
  rw [Nat.lt_min]
  exact and_iff_left (Nat.lt_of_lt_of_le hlt h)

theorem best_congr {g : ι → K} (h : ∀ i ∈ S, f i = g i) : best S f k = best S g k := by
  refine Finset.filter_congr fun i hi => ?_
  rw [Finset.filter_congr fun j hj => by rw [h i hi, h j hj]]

end Best

/-! ### What is picked -/

section Pick

variable (T : TopK K) {n k : Nat} {f : Nat → K}

theorem card_toFinset_pick (hk : k ≤ n) : (T.pick n f k).toFinset.card = k := by
  rw [List.toFinset_card_of_nodup (T.nodup_pick hk), T.length_pick hk]

/-- A place whose value no other place has. -/
theorem mem_pick_iff (hk : k ≤ n) {i : Nat} (hi : i < n) (hne : ∀ j < n, f j = f i → j = i) :
    i ∈ T.pick n f k ↔ ((Finset.range n).filter fun j => f i < f j).card < k := by
  constructor
  · intro hmem
    have hsub : (Finset.range n).filter (fun j => f i < f j) ⊂ (T.pick n f k).toFinset := by
      rw [Finset.ssubset_iff_of_subset]
      · exact ⟨i, List.mem_toFinset.mpr hmem, fun h => lt_irrefl _ (Finset.mem_filter.mp h).2⟩
      · intro j hj
        obtain ⟨hjn, hlt⟩ := Finset.mem_filter.mp hj
        by_contra hnot
        exact not_le_of_gt hlt (T.le_of_mem hk i hmem j (Finset.mem_range.mp hjn)
          fun h => hnot (List.mem_toFinset.mpr h))
    have hcard := Finset.card_lt_card hsub
    rwa [T.card_toFinset_pick hk] at hcard
  · intro hcard
    by_contra hnot
    have hsub : (T.pick n f k).toFinset ⊆ (Finset.range n).filter fun j => f i < f j := by
      intro j hj
      have hmem := List.mem_toFinset.mp hj
      have hjn := T.lt_of_mem hk j hmem
      refine Finset.mem_filter.mpr ⟨Finset.mem_range.mpr hjn, ?_⟩
      refine lt_of_le_of_ne (T.le_of_mem hk j hmem i hi hnot) fun heq => hnot ?_
      rwa [← hne j hjn heq.symm]
    have hle := Finset.card_le_card hsub
    rw [T.card_toFinset_pick hk] at hle
    exact Nat.not_lt.mpr hle hcard

end Pick

/-! ### Masked values -/

/-- `masked_fill(~keep, -inf)`. -/
def masked (keep : Nat → Bool) (f : Nat → K) (i : Nat) : WithBot K := if keep i then f i else ⊥

/-- The places that are kept. -/
def kept (n : Nat) (keep : Nat → Bool) : Finset Nat := (Finset.range n).filter fun i => keep i = true

section Masked

variable (T : TopK (WithBot K)) {n k : Nat} {keep : Nat → Bool} {f : Nat → K}

omit [LinearOrder K] in
theorem masked_of_keep {i : Nat} (h : keep i = true) : masked keep f i = f i := if_pos h

omit [LinearOrder K] in
theorem masked_eq_bot {i : Nat} : masked keep f i = ⊥ ↔ keep i = false := by
  by_cases h : keep i = true
  · simp [masked, h]
  · simp [masked, h]

theorem card_kept_le : (kept n keep).card ≤ n := by
  rw [kept, ← Finset.card_range n]
  exact (Finset.card_filter_le _ _).trans (by rw [Finset.card_range])

theorem mem_kept {i : Nat} : i ∈ kept n keep ↔ i < n ∧ keep i = true := by
  rw [kept, Finset.mem_filter, Finset.mem_range]

/-- The places that are kept and picked are the best of those that are kept. -/
theorem mem_pick_masked (hk : k ≤ n) (hinj : Set.InjOn f (kept n keep)) {i : Nat} (hi : i < n)
    (hkeep : keep i = true) :
    i ∈ T.pick n (masked keep f) k ↔ i ∈ best (kept n keep) f k := by
  have hmem : i ∈ kept n keep := mem_kept.mpr ⟨hi, hkeep⟩
  have hlarger : ((Finset.range n).filter fun j => masked keep f i < masked keep f j) =
      (kept n keep).filter fun j => f i < f j := by
    ext j
    rw [Finset.mem_filter, Finset.mem_filter, mem_kept, Finset.mem_range, masked_of_keep hkeep]
    by_cases hj : keep j = true
    · simp [masked_of_keep hj, hj]
    · simp [masked, hj]
  rw [T.mem_pick_iff hk hi, hlarger, mem_best]
  · exact (and_iff_right hmem).symm
  · intro j hj heq
    rw [masked_of_keep hkeep] at heq
    by_cases hj' : keep j = true
    · rw [masked_of_keep hj', WithBot.coe_inj] at heq
      exact hinj (mem_kept.mpr ⟨hj, hj'⟩) hmem heq
    · simp [masked, hj'] at heq

/-- What is picked of the places that are kept, whether or not values are equal. -/
theorem le_of_mem_pick_masked (hk : k ≤ n) {i j : Nat} (hi : i ∈ T.pick n (masked keep f) k)
    (hikeep : keep i = true) (hj : j ∈ kept n keep) (hnot : j ∉ T.pick n (masked keep f) k) :
    f j ≤ f i := by
  obtain ⟨hjn, hjkeep⟩ := mem_kept.mp hj
  have hle := T.le_of_mem hk i hi j hjn hnot
  rwa [masked_of_keep hikeep, masked_of_keep hjkeep, WithBot.coe_le_coe] at hle

/-- Masked places are picked only once all others are. -/
theorem card_kept_pick (hk : k ≤ n) :
    ((kept n keep).filter fun i => i ∈ T.pick n (masked keep f) k).card = min k (kept n keep).card := by
  have hsub : ((kept n keep).filter fun i => i ∈ T.pick n (masked keep f) k) ⊆
      (T.pick n (masked keep f) k).toFinset := fun i hi =>
    List.mem_toFinset.mpr (Finset.mem_filter.mp hi).2
  have hcard := T.card_toFinset_pick (f := masked keep f) hk
  by_cases hall : ∀ i ∈ kept n keep, i ∈ T.pick n (masked keep f) k
  · rw [Finset.filter_true_of_mem hall, Nat.min_eq_right]
    rw [← hcard, ← Finset.filter_true_of_mem hall]
    exact Finset.card_le_card hsub
  · -- a kept place is left out, so no masked one is picked
    push Not at hall
    obtain ⟨j, hj, hnot⟩ := hall
    obtain ⟨hjn, hjkeep⟩ := mem_kept.mp hj
    have heq : ((kept n keep).filter fun i => i ∈ T.pick n (masked keep f) k) =
        (T.pick n (masked keep f) k).toFinset := by
      refine Finset.Subset.antisymm hsub fun i hi => ?_
      have hpick := List.mem_toFinset.mp hi
      have hle := T.le_of_mem hk i hpick j hjn hnot
      refine Finset.mem_filter.mpr ⟨mem_kept.mpr ⟨T.lt_of_mem hk i hpick, ?_⟩, hpick⟩
      by_contra hmasked
      rw [masked_of_keep hjkeep, masked_eq_bot.mpr (Bool.not_eq_true _ ▸ hmasked)] at hle
      exact WithBot.not_coe_le_bot _ hle
    have hle : k ≤ (kept n keep).card := by
      rw [← hcard, ← heq]
      exact Finset.card_filter_le _ _
    rw [heq, hcard, Nat.min_eq_left hle]

end Masked

/-! ### A sort that gives them -/

/-- The first `k` places of a descending sort. -/
def ofSort (K : Type) [LinearOrder K] : TopK K :=
  let order := fun (n : Nat) (f : Nat → K) => (List.range n).mergeSort fun i j => f j ≤ f i
  have hperm : ∀ n f, (order n f).Perm (List.range n) := fun n f => List.mergeSort_perm _ _
  have hsorted : ∀ n f, (order n f).Pairwise fun i j => f j ≤ f i := fun n f =>
    (List.pairwise_mergeSort (fun _ _ _ h h' => by simp at h h' ⊢; exact le_trans h' h)
      (fun i j => by simpa using le_total (f j) (f i)) _).imp of_decide_eq_true
  { pick := fun n f k => (order n f).take k
    length_pick := by
      intro n f k hk
      rw [List.length_take, (hperm n f).length_eq, List.length_range, Nat.min_eq_left hk]
    nodup_pick := fun {n f k} _ =>
      ((hperm n f).nodup_iff.mpr List.nodup_range).sublist (List.take_sublist _ _)
    lt_of_mem := fun {n f k} _ i hi =>
      List.mem_range.mp ((hperm n f).mem_iff.mp (List.mem_of_mem_take hi))
    le_of_mem := by
      intro n f k _ i hi j hj hnot
      have hmem : j ∈ order n f := (hperm n f).mem_iff.mpr (List.mem_range.mpr hj)
      have hsplit := hsorted n f
      rw [← List.take_append_drop k (order n f)] at hsplit hmem
      exact (List.pairwise_append.mp hsplit).2.2 i hi j ((List.mem_append.mp hmem).resolve_left hnot) }

end TopK
