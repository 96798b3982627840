import FreeToken.Engine.SampleSpec
import Mathlib.Analysis.Complex.Exponential
import Mathlib.Tactic.LinearCombination

/-!
# A row of the batch and its own truncation

Both are the exponentials of the logits on an upper set of the tokens, each at its own
temperature: they are one distribution when the sets are of one length and the temperatures
give the same proportions.
-/

namespace FreeToken

open Ranked

namespace Sampler

variable {K : Type} [Field K] [LinearOrder K] [IsStrictOrderedRing K]
  {sortIdx : Nat → (Nat → K) → List Nat} {vocab : Nat} {f : Nat → K} {p : K}

/-! ### The masses of the logits -/

section Scaled

variable {exp : K → K} {row : SampleRow K} {c : K}

theorem sum_exp_pos (hexp : ExpLaws exp) (hvocab : 0 < vocab) (l : Nat → K) :
    0 < ∑ v ∈ Finset.range vocab, exp (l v) := by
  apply Finset.sum_pos
  · intro v hv
    exact hexp.pos (l v)
  · exact Finset.nonempty_range_iff.mpr hvocab.ne'

theorem scaled_pos (hexp : ExpLaws exp) (hvocab : 0 < vocab) (row : SampleRow K) (c : K)
    (v : Nat) : 0 < scaled exp vocab row c v :=
  div_pos (hexp.pos _) (sum_exp_pos hexp hvocab _)

theorem scaled_le_iff (row : SampleRow K) (hexp : ExpLaws exp) (hvocab : 0 < vocab) {u v : Nat} :
    scaled exp vocab row c v ≤ scaled exp vocab row c u ↔ row.logits v / c ≤ row.logits u / c := by
  rw [scaled, normalise, normalise, div_le_div_iff_of_pos_right (sum_exp_pos hexp hvocab _)]
  exact hexp.strictMono.le_iff_le

/-- Two temperatures give two tokens the same proportion when the tokens are of one logit, or
the temperatures are one. -/
theorem exp_ratio_iff (hexp : ExpLaws exp) {x y c t : K} (hc : c ≠ 0) (ht : t ≠ 0) :
    exp (x / c) * exp (y / t) = exp (y / c) * exp (x / t) ↔ x = y ∨ c = t := by
  rw [← hexp.add, ← hexp.add, hexp.strictMono.injective.eq_iff, div_add_div _ _ hc ht,
    div_add_div _ _ hc ht, div_left_inj' (mul_ne_zero hc ht)]
  constructor
  · intro heq
    have hprod : (x - y) * (c - t) = 0 := by linear_combination -heq
    rcases mul_eq_zero.mp hprod with hxy | hct
    · exact Or.inl (sub_eq_zero.mp hxy)
    · exact Or.inr (sub_eq_zero.mp hct)
  · rintro (rfl | rfl)
    · rfl
    · ring

end Scaled

/-! ### The top-k filter -/

/-- The token is not below the threshold. -/
def InTopK (sortIdx : Nat → (Nat → K) → List Nat) (vocab : Nat) (k : Int) (g : Nat → K)
    (v : Nat) : Prop :=
  0 < k ∧ k < vocab → g ((sortIdx vocab g).getD (k.toNat - 1) 0) ≤ g v

instance (sortIdx : Nat → (Nat → K) → List Nat) (vocab : Nat) (k : Int) (g : Nat → K) :
    DecidablePred (InTopK sortIdx vocab k g) := fun v =>
  inferInstanceAs (Decidable (0 < k ∧ k < vocab →
    g ((sortIdx vocab g).getD (k.toNat - 1) 0) ≤ g v))

variable {g : Nat → K} {k : Int}

omit [IsStrictOrderedRing K] in
theorem filterTopK_cutTo (hg : ∀ v < vocab, 0 < g v) :
    CutTo vocab g (InTopK sortIdx vocab k g) (filterTopK sortIdx vocab k g) where
  pos := hg
  upTo := fun _ _ _ _ hin hle hk => le_trans (hin hk) hle
  kept := by
    intro v hin
    rw [filterTopK]
    split
    · next hk => exact if_neg (not_lt_of_ge (hin hk))
    · rfl
  cut := by
    intro v hout
    have hk : 0 < k ∧ k < vocab := by
      by_contra hno
      exact hout fun hk => absurd hk hno
    rw [filterTopK, if_pos hk, if_pos]
    by_contra hge
    exact hout fun _ => le_of_not_gt hge

omit [Field K] [IsStrictOrderedRing K] in
/-- A most likely token is among the top k. -/
theorem inTopK_of_top (hsort : Sorts sortIdx) {v : Nat} (hv : v < vocab)
    (htop : ∀ u < vocab, g u ≤ g v) : InTopK sortIdx vocab k g v := by
  intro _
  apply htop
  rw [List.getD_eq_getElem?_getD]
  cases hget : (sortIdx vocab g)[k.toNat - 1]? with
  | none => exact Nat.lt_of_le_of_lt (Nat.zero_le v) hv
  | some u =>
      exact List.mem_range.mp ((hsort.perm vocab g).mem_iff.mp (List.mem_of_getElem? hget))

/-! ### The nucleus -/

/-- The mass of the tokens that are more likely. -/
def above (vocab : Nat) (f : Nat → K) (v : Nat) : K :=
  ∑ u ∈ Finset.range vocab, if f v < f u then f u else 0

omit [IsStrictOrderedRing K] in
theorem nucleus_ne_zero_iff {v : Nat} : nucleus vocab p f v ≠ 0 ↔ above vocab f v < p ∧ f v ≠ 0 := by
  rw [nucleus, above]
  split
  · next hlt => exact (and_iff_right hlt).symm
  · next hge => exact iff_of_false (fun hne => hne rfl) fun hboth => hge hboth.1

theorem above_le_of_le (hf : ∀ v < vocab, 0 ≤ f v) {u v : Nat} (hle : f v ≤ f u) :
    above vocab f u ≤ above vocab f v := by
  apply Finset.sum_le_sum
  intro w hw
  have hw := hf w (Finset.mem_range.mp hw)
  split
  · next hlt => rw [if_pos (lt_of_le_of_lt hle hlt)]
  · split
    · exact hw
    · exact le_refl 0

/-- A token with some mass is never behind all of it. -/
theorem above_lt_sum (hf : ∀ v < vocab, 0 ≤ f v) {v : Nat} (hv : v < vocab) (hne : f v ≠ 0) :
    above vocab f v < ∑ u ∈ Finset.range vocab, f u := by
  apply Finset.sum_lt_sum
  · intro u hu
    have hu := hf u (Finset.mem_range.mp hu)
    split
    · exact le_refl _
    · exact hu
  · refine ⟨v, Finset.mem_range.mpr hv, ?_⟩
    rw [if_neg (lt_irrefl _)]
    exact lt_of_le_of_ne (hf v hv) hne.symm

theorem nucleus_upTo (hf : ∀ v < vocab, 0 ≤ f v) :
    UpTo vocab f fun v => nucleus vocab p f v ≠ 0 := by
  intro u _ v hv hin hle
  obtain ⟨hlt, hne⟩ := nucleus_ne_zero_iff.mp hin
  have hpos : 0 < f v := lt_of_le_of_ne (hf v (List.mem_range.mp hv)) (Ne.symm hne)
  exact nucleus_ne_zero_iff.mpr
    ⟨lt_of_le_of_lt (above_le_of_le hf hle) hlt, (lt_of_lt_of_le hpos hle).ne'⟩

omit [IsStrictOrderedRing K] in
theorem nucleus_of_top (hp : 0 < p) {v : Nat} (hne : f v ≠ 0) (htop : ∀ u < vocab, f u ≤ f v) :
    nucleus vocab p f v ≠ 0 := by
  refine nucleus_ne_zero_iff.mpr ⟨?_, hne⟩
  have hzero : above vocab f v = 0 := by
    apply Finset.sum_eq_zero
    intro u hu
    exact if_neg (not_lt_of_ge (htop u (Finset.mem_range.mp hu)))
  rw [hzero]
  exact hp

/-- An upper set whose mass reaches `p` contains the nucleus. -/
theorem nucleus_least {s : Nat → Prop} [DecidablePred s] (hf : ∀ v < vocab, 0 ≤ f v)
    (hs : UpTo vocab f s) (hreach : p ≤ ∑ v ∈ Finset.range vocab, restrict s f v) {v : Nat}
    (hv : v < vocab) (hin : nucleus vocab p f v ≠ 0) : s v := by
  by_contra hout
  have hbelow : ∑ u ∈ Finset.range vocab, restrict s f u ≤ above vocab f v := by
    apply Finset.sum_le_sum
    intro u hu
    rw [restrict]
    split
    · next hsu =>
        have hlt : f v < f u := by
          by_contra hge
          exact hout (hs v (List.mem_range.mpr hv) u (List.mem_range.mpr (Finset.mem_range.mp hu))
            hsu (le_of_not_gt hge))
        rw [if_pos hlt]
    · split
      · exact hf u (Finset.mem_range.mp hu)
      · exact le_refl 0
  exact absurd (nucleus_ne_zero_iff.mp hin).1 (not_lt_of_ge (le_trans hreach hbelow))

/-- The nucleus reaches `p` where the whole does. -/
theorem nucleus_reaches (hf : ∀ v < vocab, 0 ≤ f v) (hp : p ≤ ∑ v ∈ Finset.range vocab, f v) :
    p ≤ ∑ v ∈ Finset.range vocab, nucleus vocab p f v := by
  by_contra hlt
  have hlt := lt_of_not_ge hlt
  -- some token with mass is left out; take the most likely one
  have hout : ((Finset.range vocab).filter fun v => nucleus vocab p f v = 0 ∧ f v ≠ 0).Nonempty := by
    by_contra hnone
    have hall : ∀ v ∈ Finset.range vocab, nucleus vocab p f v = f v := by
      intro v hv
      by_cases hzero : nucleus vocab p f v = 0
      · by_contra hne
        refine hnone ⟨v, Finset.mem_filter.mpr ⟨hv, hzero, fun hfv => hne ?_⟩⟩
        rw [hzero, hfv]
      · rw [nucleus, if_pos]
        exact (nucleus_ne_zero_iff.mp hzero).1
    rw [Finset.sum_congr rfl hall] at hlt
    exact absurd hp (not_le_of_gt hlt)
  obtain ⟨v, hv, hmax⟩ := Finset.exists_max_image _ f hout
  obtain ⟨hv, hzero, hne⟩ := Finset.mem_filter.mp hv
  refine absurd hzero (nucleus_ne_zero_iff.mpr ⟨?_, hne⟩)
  refine lt_of_le_of_lt (Finset.sum_le_sum fun u hu => ?_) hlt
  have hu' := hf u (Finset.mem_range.mp hu)
  split
  · next hvu =>
      have hin : nucleus vocab p f u ≠ 0 := by
        intro hzero
        have hpos := lt_of_le_of_lt (hf v (Finset.mem_range.mp hv)) hvu
        exact absurd (hmax u (Finset.mem_filter.mpr ⟨hu, hzero, hpos.ne'⟩)) (not_le_of_gt hvu)
      rw [nucleus, if_pos]
      exact (nucleus_ne_zero_iff.mp hin).1
  · rw [nucleus]
    split
    · exact hu'
    · exact le_refl 0

/-! ### Both as restricted exponentials -/

omit [IsStrictOrderedRing K] in
/-- What is left of masses `e / z` is, once normalised, the restriction of `e`. -/
theorem normalise_eq_restrict {e f : Nat → K} {z : K} (hz : z ≠ 0) (s : Nat → Prop)
    [DecidablePred s] (hs : ∀ v < vocab, f v ≠ 0 ↔ s v)
    (hf : ∀ v < vocab, f v ≠ 0 → f v = e v / z) {v : Nat} (hv : v < vocab) :
    normalise vocab f v = normalise vocab (restrict s e) v := by
  rw [← normalise_div hz (restrict s e)]
  refine normalise_congr ?_ hv
  intro u hu
  rw [restrict]
  split
  · next hsu => exact hf u hu ((hs u hu).mpr hsu)
  · next hsu =>
      rw [zero_div]
      by_contra hne
      exact hsu ((hs u hu).mp hne)

omit [IsStrictOrderedRing K] in
theorem filterTopP_eq (sortIdx : Nat → (Nat → K) → List Nat) {v : Nat}
    (hne : filterTopP sortIdx vocab p f v ≠ 0) : filterTopP sortIdx vocab p f v = f v := by
  rw [filterTopP] at hne ⊢
  split
  · next hp =>
      rw [if_pos hp] at hne
      dsimp only at hne ⊢
      split
      · rfl
      · next hout => exact absurd (if_neg hout) hne
  · rfl

omit [IsStrictOrderedRing K] in
theorem CutTo.eq_of_ne_zero {t : Nat → Prop} (h : CutTo vocab g t f) {v : Nat} (hne : f v ≠ 0) :
    f v = g v := by
  by_cases ht : t v
  · exact h.kept v ht
  · exact absurd (h.cut v ht) hne

section Row

variable {exp : K → K} {row : SampleRow K}

/-- The token is kept in the row's own truncation. -/
def Own (sortIdx : Nat → (Nat → K) → List Nat) (exp : K → K) (vocab : Nat) (row : SampleRow K)
    (v : Nat) : Prop :=
  ownTruncation sortIdx exp vocab row v ≠ 0

instance (sortIdx : Nat → (Nat → K) → List Nat) (exp : K → K) (vocab : Nat) (row : SampleRow K) :
    DecidablePred (Own sortIdx exp vocab row) := fun v =>
  inferInstanceAs (Decidable (ownTruncation sortIdx exp vocab row v ≠ 0))

/-- The tokens in `s` are of one logit. -/
def Level (vocab : Nat) (row : SampleRow K) (s : Nat → Prop) : Prop :=
  ∀ u < vocab, ∀ v < vocab, s u → s v → row.logits u = row.logits v

/-- The batch's masses of the row, before the top-p filter. -/
def batchMasses (sortIdx : Nat → (Nat → K) → List Nat) (exp : K → K) (b : SampleBatch K)
    (row : SampleRow K) : Nat → K :=
  filterTopK sortIdx b.vocab (kMin b.rows)
    (scaled exp b.vocab row (max row.temperature minTemperature))

/-- The row's own masses, before the nucleus is taken. -/
def ownMasses (sortIdx : Nat → (Nat → K) → List Nat) (exp : K → K) (vocab : Nat)
    (row : SampleRow K) : Nat → K :=
  normalise vocab (filterTopK sortIdx vocab row.topK (scaled exp vocab row row.temperature))

theorem minTemperature_pos : (0 : K) < minTemperature := by
  rw [minTemperature]
  positivity

omit [Field K] [IsStrictOrderedRing K] in
theorem exists_top (hvocab : 0 < vocab) (l : Nat → K) : ∃ v < vocab, ∀ u < vocab, l u ≤ l v := by
  obtain ⟨v, hv, hmax⟩ := Finset.exists_max_image (Finset.range vocab) l
    (Finset.nonempty_range_iff.mpr hvocab.ne')
  exact ⟨v, Finset.mem_range.mp hv, fun u hu => hmax u (Finset.mem_range.mpr hu)⟩

section Own

variable (hexp : ExpLaws exp) (hvocab : 0 < vocab)
include hexp hvocab

theorem ownCut (sortIdx : Nat → (Nat → K) → List Nat) (row : SampleRow K) :
    CutTo vocab (scaled exp vocab row row.temperature)
      (InTopK sortIdx vocab row.topK (scaled exp vocab row row.temperature))
      (filterTopK sortIdx vocab row.topK (scaled exp vocab row row.temperature)) :=
  filterTopK_cutTo fun v _ => scaled_pos hexp hvocab row row.temperature v

theorem ownMasses_nonneg : ∀ v < vocab, 0 ≤ ownMasses sortIdx exp vocab row v := by
  intro v hv
  apply div_nonneg ((ownCut hexp hvocab sortIdx row).nonneg hv)
  apply Finset.sum_nonneg
  intro u hu
  exact (ownCut hexp hvocab sortIdx row).nonneg (Finset.mem_range.mp hu)

theorem own_iff (ht : row.temperature ≠ 0) {v : Nat} (hv : v < vocab) :
    Own sortIdx exp vocab row v ↔
      nucleus vocab row.topP (ownMasses sortIdx exp vocab row) v ≠ 0 := by
  have hnonneg : ∀ v < vocab, 0 ≤ nucleus vocab row.topP (ownMasses sortIdx exp vocab row) v := by
    intro v hv
    rw [nucleus]
    split
    · exact ownMasses_nonneg hexp hvocab v hv
    · exact le_refl 0
  rw [Own, ownTruncation, if_neg ht]
  exact normalise_ne_zero_iff hnonneg hv

theorem ownMasses_sum_pos (row : SampleRow K) (hsort : Sorts sortIdx) :
    0 < ∑ v ∈ Finset.range vocab,
      filterTopK sortIdx vocab row.topK (scaled exp vocab row row.temperature) v := by
  obtain ⟨v, hv, htop⟩ := exists_top hvocab (scaled exp vocab row row.temperature)
  apply Finset.sum_pos'
  · intro u hu
    exact (ownCut hexp hvocab sortIdx row).nonneg (Finset.mem_range.mp hu)
  · refine ⟨v, Finset.mem_range.mpr hv, ?_⟩
    rw [(ownCut hexp hvocab sortIdx row).kept v (inTopK_of_top hsort hv htop)]
    exact scaled_pos hexp hvocab row row.temperature v

theorem own_upTo (hsort : Sorts sortIdx) (ht : row.temperature ≠ 0) :
    UpTo vocab (scaled exp vocab row row.temperature) (Own sortIdx exp vocab row) := by
  intro u hu v hv hown hle
  have hu' := List.mem_range.mp hu
  have hv' := List.mem_range.mp hv
  have hcut := ownCut hexp hvocab sortIdx row
  rw [own_iff hexp hvocab ht hv'] at hown
  have hin : InTopK sortIdx vocab row.topK (scaled exp vocab row row.temperature) v := by
    apply (hcut.ne_zero_iff hv').mp
    intro hzero
    exact (nucleus_ne_zero_iff.mp hown).2 (by rw [ownMasses, normalise, hzero, zero_div])
  refine (own_iff hexp hvocab ht hu').mpr
    (nucleus_upTo (ownMasses_nonneg hexp hvocab) u hu v hv hown ?_)
  rw [ownMasses, normalise, normalise,
    div_le_div_iff_of_pos_right (ownMasses_sum_pos hexp hvocab row hsort), hcut.kept v hin,
    hcut.kept u (hcut.upTo u hu v hv hin hle)]
  exact hle

/-- Without a top-p the row keeps what its top-k keeps. -/
theorem own_iff_inTopK (hsort : Sorts sortIdx) (ht : row.temperature ≠ 0) (hp : row.topP = 1)
    {v : Nat} (hv : v < vocab) : Own sortIdx exp vocab row v ↔
      InTopK sortIdx vocab row.topK (scaled exp vocab row row.temperature) v := by
  have hsum := ownMasses_sum_pos hexp hvocab row hsort
  have hone : ∑ u ∈ Finset.range vocab, ownMasses sortIdx exp vocab row u = 1 := by
    simp only [ownMasses, normalise]
    rw [← Finset.sum_div, div_self hsum.ne']
  have hmass : ownMasses sortIdx exp vocab row v ≠ 0 ↔
      filterTopK sortIdx vocab row.topK (scaled exp vocab row row.temperature) v ≠ 0 := by
    simp only [ownMasses, normalise, ne_eq, div_eq_zero_iff, hsum.ne', or_false]
  rw [own_iff hexp hvocab ht hv, nucleus_ne_zero_iff, hp,
    and_iff_right_of_imp fun hne => hone ▸ above_lt_sum (ownMasses_nonneg hexp hvocab) hv hne, hmass]
  exact (ownCut hexp hvocab sortIdx row).ne_zero_iff hv

theorem own_of_top (hsort : Sorts sortIdx) (ht : row.temperature ≠ 0) (hp : 0 < row.topP) {v : Nat}
    (hv : v < vocab) (htop : ∀ u < vocab, scaled exp vocab row row.temperature u ≤
      scaled exp vocab row row.temperature v) : Own sortIdx exp vocab row v := by
  have hcut := ownCut hexp hvocab sortIdx row
  have hsum := ownMasses_sum_pos hexp hvocab row hsort
  have hin := hcut.kept v (inTopK_of_top hsort hv htop)
  refine (own_iff hexp hvocab ht hv).mpr (nucleus_of_top hp ?_ ?_)
  · rw [ownMasses, normalise, hin]
    exact (div_pos (scaled_pos hexp hvocab row row.temperature v) hsum).ne'
  · intro u hu
    rw [ownMasses, normalise, normalise, div_le_div_iff_of_pos_right hsum, hin]
    by_cases hu' : InTopK sortIdx vocab row.topK (scaled exp vocab row row.temperature) u
    · rw [hcut.kept u hu']
      exact htop u hu
    · rw [hcut.cut u hu']
      exact (scaled_pos hexp hvocab row row.temperature v).le

theorem own_eq (hsort : Sorts sortIdx) (ht : row.temperature ≠ 0) {v : Nat} (hv : v < vocab) :
    ownTruncation sortIdx exp vocab row v =
      normalise vocab (restrict (Own sortIdx exp vocab row)
        fun u => exp (row.logits u / row.temperature)) v := by
  have hexps := sum_exp_pos hexp hvocab fun u => row.logits u / row.temperature
  have hsum := ownMasses_sum_pos hexp hvocab row hsort
  rw [ownTruncation, if_neg ht]
  refine normalise_eq_restrict (mul_pos hexps hsum).ne' _
    (fun u hu => (own_iff hexp hvocab ht hu).symm) ?_ hv
  intro u hu hne
  have hown : ownMasses sortIdx exp vocab row u ≠ 0 := (nucleus_ne_zero_iff.mp hne).2
  have hfilter : filterTopK sortIdx vocab row.topK (scaled exp vocab row row.temperature) u ≠ 0 := by
    intro hzero
    exact hown (by rw [ownMasses, normalise, hzero, zero_div])
  calc nucleus vocab row.topP (ownMasses sortIdx exp vocab row) u
      = ownMasses sortIdx exp vocab row u := by
        rw [nucleus, if_pos]
        exact (nucleus_ne_zero_iff.mp hne).1
    _ = scaled exp vocab row row.temperature u / ∑ w ∈ Finset.range vocab,
          filterTopK sortIdx vocab row.topK (scaled exp vocab row row.temperature) w := by
        rw [ownMasses, normalise, (ownCut hexp hvocab sortIdx row).eq_of_ne_zero hfilter]
    _ = _ := div_div _ _ _

end Own

/-! ### The batch's cut -/

theorem batchCut (sortIdx : Nat → (Nat → K) → List Nat) (row : SampleRow K) {b : SampleBatch K}
    (hexp : ExpLaws exp) (hvocab : 0 < b.vocab) :
    CutTo b.vocab (scaled exp b.vocab row (max row.temperature minTemperature))
      (InTopK sortIdx b.vocab (kMin b.rows)
        (scaled exp b.vocab row (max row.temperature minTemperature)))
      (batchMasses sortIdx exp b row) :=
  filterTopK_cutTo fun v _ => scaled_pos hexp hvocab row _ v

/-- What the batch leaves of the row is a row of restricted exponentials too. -/
theorem rowDistribution_eq {b : SampleBatch K} (hexp : ExpLaws exp) (hvocab : 0 < b.vocab)
    (ht : row.temperature ≠ 0) {v : Nat} (hv : v < b.vocab) :
    rowDistribution sortIdx exp b row v =
      normalise b.vocab (restrict
        (fun u => filterTopP sortIdx b.vocab (pMin b.rows) (batchMasses sortIdx exp b row) u ≠ 0)
        fun u => exp (row.logits u / max row.temperature minTemperature)) v := by
  have hexps := sum_exp_pos hexp hvocab fun u => row.logits u / max row.temperature minTemperature
  rw [rowDistribution, if_neg ht]
  refine normalise_eq_restrict hexps.ne' _ (fun _ _ => Iff.rfl) ?_ hv
  intro u hu hne
  have hkept := filterTopP_eq sortIdx hne
  rw [hkept] at hne ⊢
  exact (batchCut sortIdx row hexp hvocab).eq_of_ne_zero hne

omit [Field K] [IsStrictOrderedRing K] in
theorem first_top (hsort : Sorts sortIdx) {g : Nat → K} (u : Nat) (hu : u < vocab) :
    g u ≤ g ((sortIdx vocab g).getD 0 0) := by
  obtain ⟨j, hj, rfl⟩ := exists_getElem_sortIdx hsort g hu
  have hzero : 0 < (sortIdx vocab g).length := Nat.lt_of_le_of_lt (Nat.zero_le j) hj
  rw [← List.getElem_eq_getD (h := hzero) 0]
  rcases Nat.eq_zero_or_pos j with rfl | hpos
  · exact le_refl _
  · exact List.pairwise_iff_getElem.mp (hsort.sorted vocab g) 0 j hzero hj hpos

/-- The batch leaves a token with the largest logit. -/
theorem exists_top_left (row : SampleRow K) {b : SampleBatch K} (hexp : ExpLaws exp)
    (hsort : Sorts sortIdx) (hvocab : 0 < b.vocab) : ∃ v < b.vocab,
      filterTopP sortIdx b.vocab (pMin b.rows) (batchMasses sortIdx exp b row) v ≠ 0 ∧
        ∀ u < b.vocab, row.logits u ≤ row.logits v := by
  have hcut := batchCut sortIdx row hexp hvocab
  have htemp : 0 < max row.temperature minTemperature :=
    lt_of_lt_of_le minTemperature_pos (le_max_right _ _)
  obtain ⟨v, hv, htop⟩ := exists_top hvocab row.logits
  have hin := inTopK_of_top (k := kMin b.rows) hsort hv fun u hu =>
    (scaled_le_iff row hexp hvocab).mpr
      (div_le_div_of_nonneg_right (htop u hu) htemp.le)
  have hzero : 0 < (sortIdx b.vocab (batchMasses sortIdx exp b row)).length := by
    rw [length_sortIdx hsort]
    exact hvocab
  have hsome : 0 < support b.vocab (batchMasses sortIdx exp b row) := by
    apply List.countP_pos_iff.mpr
    exact ⟨v, List.mem_range.mpr hv, decide_eq_true ((hcut.ne_zero_iff hv).mpr hin)⟩
  have hfirst := getElem_sortIdx_lt hsort hzero
  refine ⟨_, hfirst, (hcut.left_iff hsort hzero).mpr ⟨hsome, fun _ _ => Or.inl rfl⟩, ?_⟩
  -- the first token of the order is not below `v`
  have htopFirst := (hcut.top_iff hsort hzero).mpr hsome
  have hle : batchMasses sortIdx exp b row v ≤ batchMasses sortIdx exp b row
      (sortIdx b.vocab (batchMasses sortIdx exp b row))[0] := by
    rw [List.getElem_eq_getD 0]
    exact first_top hsort v hv
  rw [hcut.kept v hin, hcut.kept _ htopFirst, scaled_le_iff row hexp hvocab,
    div_le_div_iff_of_pos_right htemp] at hle
  exact fun u hu => le_trans (htop u hu) hle

/-- Where the row gets its own truncation: it is greedy, or the shared filters cut after as many
tokens as its own, and its temperature is the one it is scaled by, or scales nothing. -/
def OwnCut (sortIdx : Nat → (Nat → K) → List Nat) (exp : K → K) (b : SampleBatch K)
    (row : SampleRow K) : Prop :=
  row.temperature = 0 ∨
    CutsAt sortIdx b.vocab (pMin b.rows) (batchMasses sortIdx exp b row)
        (tokens b.vocab (Own sortIdx exp b.vocab row)) ∧
      (minTemperature ≤ row.temperature ∨ Level b.vocab row (Own sortIdx exp b.vocab row)) ∧
      (0 < row.temperature ∨ Level b.vocab row fun _ => True)

/-- Where no row has a top-p, a row with the smallest top-k gets its own. -/
theorem ownCut_of_least {b : SampleBatch K} (hexp : ExpLaws exp) (hsort : Sorts sortIdx)
    (hvocab : 0 < b.vocab) (ht : minTemperature ≤ row.temperature) (hk : kMin b.rows = row.topK)
    (hp : row.topP = 1) (hall : pMin b.rows = 1) : OwnCut sortIdx exp b row := by
  have htpos : 0 < row.temperature := lt_of_lt_of_le minTemperature_pos ht
  have hkeeps : ∀ j, KeepsAt (pMin b.rows) ((sortIdx b.vocab (batchMasses sortIdx exp b row)).map
      (batchMasses sortIdx exp b row)) j := by
    intro j
    rw [KeepsAt, hall]
    simp
  have hcount : tokens b.vocab (Own sortIdx exp b.vocab row) =
      support b.vocab (batchMasses sortIdx exp b row) := by
    rw [(batchCut sortIdx row hexp hvocab).support_eq]
    apply List.countP_congr
    intro v hv
    rw [decide_eq_true_eq, decide_eq_true_eq,
      own_iff_inTopK hexp hvocab hsort htpos.ne' hp (List.mem_range.mp hv), hk, max_eq_left ht]
  exact .inr ⟨⟨hcount.le, hkeeps _, .inl hcount⟩, .inl ht, .inl htpos⟩

/-- The row's own tokens stand first in the batch's order. -/
theorem own_upTo_batch {b : SampleBatch K} (hexp : ExpLaws exp) (hsort : Sorts sortIdx)
    (hvocab : 0 < b.vocab) (ht : row.temperature ≠ 0)
    (hsign : 0 < row.temperature ∨ Level b.vocab row fun _ => True) :
    UpTo b.vocab (scaled exp b.vocab row (max row.temperature minTemperature))
      (Own sortIdx exp b.vocab row) := by
  have htemp : 0 < max row.temperature minTemperature :=
    lt_of_lt_of_le minTemperature_pos (le_max_right _ _)
  intro u hu v hv hown hle
  refine own_upTo hexp hvocab hsort ht u hu v hv hown ?_
  rw [scaled_le_iff row hexp hvocab, div_le_div_iff_of_pos_right htemp] at hle
  rw [scaled_le_iff row hexp hvocab]
  rcases hsign with hpos | hlevel
  · exact div_le_div_of_nonneg_right hle hpos.le
  · rw [hlevel u (List.mem_range.mp hu) v (List.mem_range.mp hv) trivial trivial]

/-- The temperatures give the same proportions. -/
theorem proportional_iff {b : SampleBatch K} (hexp : ExpLaws exp) (ht : row.temperature ≠ 0) :
    (∀ u < b.vocab, ∀ v < b.vocab, Own sortIdx exp b.vocab row u →
      Own sortIdx exp b.vocab row v →
        exp (row.logits u / max row.temperature minTemperature) *
            exp (row.logits v / row.temperature) =
          exp (row.logits v / max row.temperature minTemperature) *
            exp (row.logits u / row.temperature)) ↔
      (minTemperature ≤ row.temperature ∨ Level b.vocab row (Own sortIdx exp b.vocab row)) := by
  have htemp : max row.temperature minTemperature ≠ 0 :=
    (lt_of_lt_of_le minTemperature_pos (le_max_right _ _)).ne'
  constructor
  · intro hprop
    by_cases hle : minTemperature ≤ row.temperature
    · exact Or.inl hle
    · refine Or.inr fun u hu v hv hown hown' => ?_
      refine ((exp_ratio_iff hexp htemp ht).mp (hprop u hu v hv hown hown')).resolve_right ?_
      intro heq
      exact hle (max_eq_left_iff.mp heq)
  · intro hcase u hu v hv hown hown'
    apply (exp_ratio_iff hexp htemp ht).mpr
    rcases hcase with hle | hlevel
    · exact Or.inr (max_eq_left hle)
    · exact Or.inl (hlevel u hu v hv hown hown')

/-- Below zero the order of the tokens is turned around: the tokens that the batch leaves are the
row's own only when all logits are one. -/
theorem level_of_neg {b : SampleBatch K} (hexp : ExpLaws exp) (hsort : Sorts sortIdx)
    (hp : 0 < row.topP) (hvocab : 0 < b.vocab) (hneg : row.temperature < 0)
    (hsame : ∀ v < b.vocab, filterTopP sortIdx b.vocab (pMin b.rows)
      (batchMasses sortIdx exp b row) v ≠ 0 ↔ Own sortIdx exp b.vocab row v)
    (hlevel : Level b.vocab row (Own sortIdx exp b.vocab row)) :
    Level b.vocab row fun _ => True := by
  obtain ⟨x, hx, hleft, hmax⟩ := exists_top_left row hexp hsort hvocab
  obtain ⟨w, hw, htop⟩ := exists_top hvocab (scaled exp b.vocab row row.temperature)
  have hown := own_of_top hexp hvocab hsort hneg.ne hp hw htop
  have hmin : ∀ u < b.vocab, row.logits w ≤ row.logits u := by
    intro u hu
    have hle := (scaled_le_iff row hexp hvocab).mp (htop u hu)
    exact (div_le_div_right_of_neg hneg).mp hle
  have heq : row.logits x = row.logits w := hlevel x hx w hw ((hsame x hx).mp hleft) hown
  have hall : ∀ u < b.vocab, row.logits u = row.logits w := fun u hu =>
    le_antisymm (heq ▸ hmax u hu) (hmin u hu)
  intro u hu v hv _ _
  rw [hall u hu, hall v hv]

theorem rowDistribution_own_iff {b : SampleBatch K} (hexp : ExpLaws exp) (hsort : Sorts sortIdx)
    (hp : 0 < row.topP) :
    (∀ v < b.vocab, rowDistribution sortIdx exp b row v =
      ownTruncation sortIdx exp b.vocab row v) ↔ OwnCut sortIdx exp b row := by
  by_cases ht : row.temperature = 0
  · refine iff_of_true ?_ (Or.inl ht)
    intro v _
    rw [rowDistribution, ownTruncation, if_pos ht, if_pos ht]
  rcases Nat.eq_zero_or_pos b.vocab with hzero | hvocab
  · refine iff_of_true (fun v hv => absurd (hzero ▸ hv) (Nat.not_lt_zero v)) (Or.inr ⟨?_, ?_, ?_⟩)
    · rw [CutsAt, tokens, support, hzero]
      exact ⟨Nat.le_refl 0, fun _ _ => Or.inl rfl, Or.inl rfl⟩
    · exact Or.inr fun v hv => absurd (hzero ▸ hv) (Nat.not_lt_zero v)
    · exact Or.inr fun v hv => absurd (hzero ▸ hv) (Nat.not_lt_zero v)
  have hsplit : (∀ v < b.vocab, rowDistribution sortIdx exp b row v =
      ownTruncation sortIdx exp b.vocab row v) ↔
      (∀ v < b.vocab, filterTopP sortIdx b.vocab (pMin b.rows) (batchMasses sortIdx exp b row) v ≠ 0 ↔
        Own sortIdx exp b.vocab row v) ∧
      (minTemperature ≤ row.temperature ∨ Level b.vocab row (Own sortIdx exp b.vocab row)) := by
    rw [← proportional_iff hexp ht, ← normalise_restrict_eq_iff (fun v _ => hexp.pos _)
      fun v _ => hexp.pos _]
    apply forall₂_congr
    intro v hv
    rw [rowDistribution_eq hexp hvocab ht hv, own_eq hexp hvocab hsort ht hv]
  obtain ⟨w, hw, htop⟩ := exists_top hvocab (scaled exp b.vocab row row.temperature)
  have hsome : ∃ v < b.vocab, Own sortIdx exp b.vocab row v :=
    ⟨w, hw, own_of_top hexp hvocab hsort ht hp hw htop⟩
  have hcut := batchCut sortIdx row hexp hvocab
  rw [hsplit]
  constructor
  · rintro ⟨hsame, hlevel⟩
    have hsign : 0 < row.temperature ∨ Level b.vocab row fun _ => True := by
      rcases lt_or_gt_of_ne ht with hneg | hpos
      · refine Or.inr (level_of_neg hexp hsort hp hvocab hneg hsame (hlevel.resolve_left ?_))
        intro hle
        exact absurd (lt_of_lt_of_le minTemperature_pos hle) (not_lt_of_ge hneg.le)
      · exact Or.inl hpos
    exact Or.inr ⟨(hcut.filterTopP_iff hsort (own_upTo_batch hexp hsort hvocab ht hsign) hsome).mp
      hsame, hlevel, hsign⟩
  · intro hown
    obtain ⟨hcuts, hlevel, hsign⟩ := hown.resolve_left ht
    exact ⟨(hcut.filterTopP_iff hsort (own_upTo_batch hexp hsort hvocab ht hsign) hsome).mpr hcuts,
      hlevel⟩

/-- Two batches draw a row from one distribution, its own truncation. -/
theorem sample_own_iff (hexp : ExpLaws exp) (hsort : Sorts sortIdx) {vocab : Nat}
    {rows rows' : List (SampleRow K)} {i j : Nat} (hi : rows[i]? = some row)
    (hj : rows'[j]? = some row) (hp : 0 < row.topP) :
    (∀ d d', (sample sortIdx exp ⟨vocab, rows⟩)[i]? = some d →
      (sample sortIdx exp ⟨vocab, rows'⟩)[j]? = some d' →
        ∀ v < vocab, d v = d' v ∧ d v = ownTruncation sortIdx exp vocab row v) ↔
      OwnCut sortIdx exp ⟨vocab, rows⟩ row ∧ OwnCut sortIdx exp ⟨vocab, rows'⟩ row := by
  have hd : (sample sortIdx exp ⟨vocab, rows⟩)[i]? =
      some (rowDistribution sortIdx exp ⟨vocab, rows⟩ row) := by
    rw [sample, List.getElem?_map, hi, Option.map_some]
  have hd' : (sample sortIdx exp ⟨vocab, rows'⟩)[j]? =
      some (rowDistribution sortIdx exp ⟨vocab, rows'⟩ row) := by
    rw [sample, List.getElem?_map, hj, Option.map_some]
  rw [← rowDistribution_own_iff hexp hsort hp, ← rowDistribution_own_iff hexp hsort hp]
  constructor
  · intro hsame
    have hboth := hsame _ _ hd hd'
    exact ⟨fun v hv => (hboth v hv).2, fun v hv => ((hboth v hv).1).symm.trans (hboth v hv).2⟩
  · rintro ⟨hown, hown'⟩ d d' hget hget' v hv
    cases hd.symm.trans hget
    cases hd'.symm.trans hget'
    exact ⟨(hown v hv).trans (hown' v hv).symm, hown v hv⟩

end Row

/-! ### The real exponential -/

/-- A sort that keeps ties in the order of the tokens. -/
def sortDown (vocab : Nat) (f : Nat → K) : List Nat :=
  (List.range vocab).mergeSort fun u v => decide (f v ≤ f u)

omit [Field K] [IsStrictOrderedRing K] in
theorem sortDown_sorts : Sorts (sortDown : Nat → (Nat → K) → List Nat) where
  perm := fun vocab f => List.mergeSort_perm (List.range vocab) _
  sorted := by
    intro vocab f
    have htrans : ∀ a b c : Nat, decide (f b ≤ f a) = true → decide (f c ≤ f b) = true →
        decide (f c ≤ f a) = true := by
      intro a b c hab hbc
      exact decide_eq_true (le_trans (of_decide_eq_true hbc) (of_decide_eq_true hab))
    have htotal : ∀ a b : Nat, (decide (f b ≤ f a) || decide (f a ≤ f b)) = true := by
      intro a b
      rcases le_total (f b) (f a) with hle | hle
      · rw [decide_eq_true hle, Bool.true_or]
      · rw [decide_eq_true hle, Bool.or_true]
    exact (List.pairwise_mergeSort htrans htotal (List.range vocab)).imp fun h =>
      of_decide_eq_true h

theorem realExpLaws : ExpLaws Real.exp where
  pos := Real.exp_pos
  add := Real.exp_add
  strictMono := Real.exp_strictMono

/-- A row that takes the most likely token only. -/
noncomputable def topRow : SampleRow ℝ where
  logits := fun v => if v = 0 then 1 else 0
  temperature := 1
  topK := 1
  topP := 1

/-- The same row without its top-k. -/
noncomputable def openRow : SampleRow ℝ := { topRow with topK := 0 }

/-- Beside a row without a top-k, a row's own top-k is not applied. -/
theorem topRow_shared : ¬ ∀ d d' : Nat → ℝ,
    (sample sortDown Real.exp ⟨2, [openRow, topRow]⟩)[1]? = some d →
      (sample sortDown Real.exp ⟨2, [topRow]⟩)[0]? = some d' →
        ∀ v < 2, d v = d' v ∧ d v = ownTruncation sortDown Real.exp 2 topRow v := by
  intro hall
  have hboth := hall _ _ rfl rfl 1 Nat.one_lt_two
  have htemp : topRow.temperature ≠ 0 := by norm_num [topRow]
  have hpos := scaled_pos realExpLaws Nat.two_pos topRow (max topRow.temperature minTemperature)
  -- alone the row keeps its first token only
  have halone : rowDistribution sortDown Real.exp ⟨2, [topRow]⟩ topRow 1 = 0 := by
    have hk : kMin [topRow] = 1 := by simp [kMin, stochastic, topRow]
    have hout : ¬ InTopK sortDown 2 1
        (scaled Real.exp 2 topRow (max topRow.temperature minTemperature)) 1 := by
      intro hin
      have hle := le_trans (first_top sortDown_sorts 0 Nat.two_pos) (hin ⟨by decide, by decide⟩)
      rw [scaled_le_iff topRow realExpLaws Nat.two_pos] at hle
      norm_num [topRow, minTemperature] at hle
    have hcut : CutTo 2 (scaled Real.exp 2 topRow (max topRow.temperature minTemperature))
        (InTopK sortDown 2 1 (scaled Real.exp 2 topRow (max topRow.temperature minTemperature)))
        (filterTopK sortDown 2 1
          (scaled Real.exp 2 topRow (max topRow.temperature minTemperature))) :=
      filterTopK_cutTo fun v _ => hpos v
    rw [rowDistribution, if_neg htemp, normalise, div_eq_zero_iff]
    left
    by_contra hne
    rw [hk, filterTopP_eq sortDown (hk ▸ hne)] at hne
    exact hne (hcut.cut 1 hout)
  have hshared : rowDistribution sortDown Real.exp ⟨2, [openRow, topRow]⟩ topRow 1 ≠ 0 := by
    have hk : kMin [openRow, topRow] = 0 := by simp [kMin, stochastic, openRow, topRow]
    have hp : pMin [openRow, topRow] = 1 := by simp [pMin, stochastic, openRow, topRow]
    rw [rowDistribution, if_neg htemp]
    simp only [hk, hp, filterTopK, filterTopP, lt_irrefl, false_and, and_false, if_false]
    exact (div_pos (hpos 1) (Finset.sum_pos (fun v _ => hpos v) ⟨0, by simp⟩)).ne'
  exact hshared (hboth.1.trans halone)

/-- A row of other logits that takes both tokens. -/
noncomputable def bothRow : SampleRow ℝ := { topRow with logits := fun v => v, topK := 2 }

/-- Beside it the row's own top-k is the smallest. -/
theorem topRow_own : ∃ d d' : Nat → ℝ,
    (sample sortDown Real.exp ⟨2, [bothRow, topRow]⟩)[1]? = some d ∧
      (sample sortDown Real.exp ⟨2, [topRow]⟩)[0]? = some d' ∧
        ∀ v < 2, d v = d' v ∧ d v = ownTruncation sortDown Real.exp 2 topRow v := by
  have ht : minTemperature ≤ topRow.temperature := by norm_num [topRow, minTemperature]
  have hbeside : OwnCut sortDown Real.exp ⟨2, [bothRow, topRow]⟩ topRow :=
    ownCut_of_least realExpLaws sortDown_sorts Nat.two_pos ht
      (by simp [kMin, stochastic, bothRow, topRow]) rfl
      (by simp [pMin, stochastic, bothRow, topRow])
  have halone : OwnCut sortDown Real.exp ⟨2, [topRow]⟩ topRow :=
    ownCut_of_least realExpLaws sortDown_sorts Nat.two_pos ht
      (by simp [kMin, stochastic, topRow]) rfl (by simp [pMin, stochastic, topRow])
  have hown := (sample_own_iff (i := 1) (j := 0) realExpLaws sortDown_sorts rfl rfl
    (by norm_num [topRow])).mpr ⟨hbeside, halone⟩
  exact ⟨_, _, rfl, rfl, hown _ _ rfl rfl⟩

end Sampler

end FreeToken
