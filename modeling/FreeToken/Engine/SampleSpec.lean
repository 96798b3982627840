import FreeToken.Engine.Sample
import FreeToken.Lib.Ranked
import Mathlib.Algebra.BigOperators.Field
import Mathlib.Algebra.BigOperators.Ring.Finset
import Mathlib.Algebra.Order.BigOperators.Group.Finset
import Mathlib.Tactic.FieldSimp
import Mathlib.Tactic.Linarith
import Mathlib.Tactic.Ring

/-!
# What a row of the batch is drawn from

The filters of the batch leave, of the tokens in descending order, an initial segment, and so
does a row's own truncation. The row gets its own truncation when the two are of the same
length.
-/

namespace FreeToken

open Ranked

namespace Sampler

variable {K : Type} [Field K] [LinearOrder K] [IsStrictOrderedRing K]
  {sortIdx : Nat → (Nat → K) → List Nat} {vocab : Nat} {f : Nat → K} {p : K}

/-! ### The positions that the top-p filter keeps -/

omit [LinearOrder K] [IsStrictOrderedRing K] in
theorem length_prefixMasses (l : List K) : (prefixMasses l).length = l.length := by
  have hroll : (roll l).length = l.length := by
    cases l with
    | nil => rfl
    | cons x xs => simp [roll, List.getLast?_cons]
  have hcumsum : (cumsum (roll l)).length = l.length := by
    rw [cumsum, List.length_map, List.length_range, hroll]
  rw [prefixMasses]
  split
  · rename_i hnil
    rw [hnil] at hcumsum
    exact hcumsum
  · rename_i y rest hcons
    rw [hcons] at hcumsum
    exact hcumsum

omit [LinearOrder K] [IsStrictOrderedRing K] in
theorem take_roll {l : List K} {j : Nat} (hj : j < l.length) :
    (roll l).take (j + 1) = l.getLast?.getD 0 :: l.take j := by
  cases l with
  | nil => cases hj
  | cons x xs =>
      have htake : (x :: xs).dropLast.take j = (x :: xs).take j := by
        rw [List.dropLast_eq_take, List.take_take, Nat.min_eq_left]
        rw [List.length_cons] at hj ⊢
        omega
      rw [roll, List.getLast?_cons]
      dsimp only
      rw [List.take_succ_cons, htake]
      rfl

omit [LinearOrder K] [IsStrictOrderedRing K] in
/-- The smallest entry is counted in front of the others. -/
theorem getElem_prefixMasses {l : List K} {j : Nat} (hj : j < (prefixMasses l).length) :
    (prefixMasses l)[j] = if j = 0 then 0 else l.getLast?.getD 0 + (l.take j).sum := by
  have hcumsum : ∀ i (hi : i < (cumsum (roll l)).length), (cumsum (roll l))[i] =
      ((roll l).take (i + 1)).sum := by
    intro i hi
    simp [cumsum]
  have hjl : j < l.length := length_prefixMasses l ▸ hj
  cases hc : cumsum (roll l) with
  | nil =>
      have hnil : prefixMasses l = [] := by rw [prefixMasses, hc]
      rw [hnil] at hj
      exact absurd hj (Nat.not_lt_zero j)
  | cons y rest =>
      have hcons : prefixMasses l = 0 :: rest := by rw [prefixMasses, hc]
      cases j with
      | zero =>
          rw [if_pos rfl]
          simp [hcons]
      | succ j =>
          have hrest : j < rest.length := by
            rw [hcons, List.length_cons] at hj
            exact Nat.lt_of_succ_lt_succ hj
          have hentry := hcumsum (j + 1) (by rw [hc]; exact Nat.succ_lt_succ hrest)
          simp only [hc, List.getElem_cons_succ] at hentry
          rw [if_neg (Nat.succ_ne_zero j)]
          simp only [hcons, List.getElem_cons_succ]
          rw [hentry, take_roll hjl, List.sum_cons]

/-- The position stays: it is the first, or the masses before it, and the least one, do not
exceed `p`. -/
def KeepsAt (p : K) (l : List K) (j : Nat) : Prop :=
  0 < p → p < 1 → j = 0 ∨ l.getLast?.getD 0 + (l.take j).sum ≤ p

theorem KeepsAt.mono {l : List K} (hl : ∀ x ∈ l, 0 ≤ x) {i j : Nat} (hij : i ≤ j)
    (h : KeepsAt p l j) : KeepsAt p l i := by
  intro hpos hlt
  rcases h hpos hlt with hj | hle
  · subst hj
    exact Or.inl (Nat.le_zero.mp hij)
  · exact Or.inr (le_trans (add_le_add_right (sum_take_le hl hij) _) hle)

omit [IsStrictOrderedRing K] in
theorem filterTopP_getElem (hsort : Sorts sortIdx) {j : Nat}
    (hj : j < (sortIdx vocab f).length) :
    (KeepsAt p ((sortIdx vocab f).map f) j →
        filterTopP sortIdx vocab p f (sortIdx vocab f)[j] = f (sortIdx vocab f)[j]) ∧
      (¬ KeepsAt p ((sortIdx vocab f).map f) j →
        filterTopP sortIdx vocab p f (sortIdx vocab f)[j] = 0) := by
  by_cases hp : 0 < p ∧ p < 1
  · have hnodup : (sortIdx vocab f).Nodup :=
      (hsort.perm vocab f).nodup_iff.mpr List.nodup_range
    have hmap : j < ((sortIdx vocab f).map f).length := by
      rw [List.length_map]
      exact hj
    have hlook : ((sortIdx vocab f).zip ((prefixMasses ((sortIdx vocab f).map f)).map
        fun x => decide (¬ p < x))).lookup (sortIdx vocab f)[j] =
        some (decide (¬ p < if j = 0 then 0 else
          ((sortIdx vocab f).map f).getLast?.getD 0 + (((sortIdx vocab f).map f).take j).sum)) := by
      rw [lookup_zip_getElem hnodup hj (by rw [List.length_map, length_prefixMasses]; exact hmap),
        List.getElem_map, getElem_prefixMasses]
    have hiff : KeepsAt p ((sortIdx vocab f).map f) j ↔ ¬ p < if j = 0 then 0 else
        ((sortIdx vocab f).map f).getLast?.getD 0 + (((sortIdx vocab f).map f).take j).sum := by
      by_cases hzero : j = 0
      · rw [if_pos hzero]
        exact iff_of_true (fun _ _ => Or.inl hzero) (not_lt_of_gt hp.1)
      · rw [if_neg hzero, not_lt]
        constructor
        · intro hkeeps
          exact (hkeeps hp.1 hp.2).resolve_left hzero
        · intro hle _ _
          exact Or.inr hle
    rw [filterTopP, if_pos hp, hlook]
    constructor
    · intro hkeeps
      rw [decide_eq_true (hiff.mp hkeeps), if_pos rfl]
    · intro hnot
      rw [decide_eq_false fun hlt => hnot (hiff.mpr hlt), if_neg (by simp)]
  · rw [filterTopP, if_neg hp]
    refine ⟨fun _ => rfl, fun hnot => absurd ?_ hnot⟩
    intro hpos hlt
    exact absurd ⟨hpos, hlt⟩ hp

/-! ### The length of a segment -/

/-- The number of tokens with some mass. -/
def support (vocab : Nat) (f : Nat → K) : Nat := (List.range vocab).countP fun v => decide (f v ≠ 0)

/-- With a token, all tokens of no smaller mass. -/
def UpTo (vocab : Nat) (f : Nat → K) (s : Nat → Prop) : Prop := UpSet (List.range vocab) f s

omit [Field K] [IsStrictOrderedRing K] in
theorem length_sortIdx (hsort : Sorts sortIdx) : (sortIdx vocab f).length = vocab := by
  rw [(hsort.perm vocab f).length_eq, List.length_range]

omit [Field K] [IsStrictOrderedRing K] in
theorem getElem_sortIdx_lt (hsort : Sorts sortIdx) {j : Nat}
    (hj : j < (sortIdx vocab f).length) : (sortIdx vocab f)[j] < vocab :=
  List.mem_range.mp ((hsort.perm vocab f).mem_iff.mp (List.getElem_mem hj))

omit [Field K] [IsStrictOrderedRing K] in
theorem exists_getElem_sortIdx (hsort : Sorts sortIdx) (f : Nat → K) {v : Nat} (hv : v < vocab) :
    ∃ j, ∃ hj : j < (sortIdx vocab f).length, (sortIdx vocab f)[j] = v :=
  List.mem_iff_getElem.mp ((hsort.perm vocab f).mem_iff.mpr (List.mem_range.mpr hv))

omit [Field K] [IsStrictOrderedRing K] in
theorem UpTo.iff_lt {s : Nat → Prop} [DecidablePred s] (hsort : Sorts sortIdx)
    (h : UpTo vocab f s) {j : Nat} (hj : j < (sortIdx vocab f).length) :
    s (sortIdx vocab f)[j] ↔ j < (List.range vocab).countP fun v => decide (s v) := by
  have hperm := hsort.perm vocab f
  have hup : UpSet (sortIdx vocab f) f s := fun u hu v hv =>
    h u (hperm.mem_iff.mp hu) v (hperm.mem_iff.mp hv)
  rw [getElem_iff_lt_countP (hsort.sorted vocab f) hup hj, hperm.countP_eq]

/-- The filters cut after the first `m` tokens: the last of them stays, and the next one has no
mass or goes. -/
def CutsAt (sortIdx : Nat → (Nat → K) → List Nat) (vocab : Nat) (p : K) (f : Nat → K) (m : Nat) :
    Prop :=
  m ≤ support vocab f ∧ KeepsAt p ((sortIdx vocab f).map f) (m - 1) ∧
    (m = support vocab f ∨ ¬ KeepsAt p ((sortIdx vocab f).map f) m)

/-- Positive masses `g` that were cut to the tokens in `t`. -/
structure CutTo (vocab : Nat) (g : Nat → K) (t : Nat → Prop) (f : Nat → K) : Prop where
  pos : ∀ v < vocab, 0 < g v
  upTo : UpTo vocab g t
  kept : ∀ v, t v → f v = g v
  cut : ∀ v, ¬ t v → f v = 0

/-- The number of tokens in the set. -/
def tokens (vocab : Nat) (s : Nat → Prop) [DecidablePred s] : Nat :=
  (List.range vocab).countP fun v => decide (s v)

theorem tokens_le (vocab : Nat) (s : Nat → Prop) [DecidablePred s] : tokens vocab s ≤ vocab := by
  have hle := List.countP_le_length (p := fun v => decide (s v)) (l := List.range vocab)
  rw [List.length_range] at hle
  exact hle

section Cut

variable {g : Nat → K} {t s : Nat → Prop} [DecidablePred t] [DecidablePred s]

omit [IsStrictOrderedRing K] [DecidablePred t] in
theorem CutTo.ne_zero_iff (h : CutTo vocab g t f) {v : Nat} (hv : v < vocab) : f v ≠ 0 ↔ t v := by
  by_cases ht : t v
  · rw [h.kept v ht]
    exact iff_of_true (h.pos v hv).ne' ht
  · rw [h.cut v ht]
    exact iff_of_false (fun hne => hne rfl) ht

omit [IsStrictOrderedRing K] [DecidablePred t] in
theorem CutTo.nonneg (h : CutTo vocab g t f) {v : Nat} (hv : v < vocab) : 0 ≤ f v := by
  by_cases ht : t v
  · rw [h.kept v ht]
    exact (h.pos v hv).le
  · rw [h.cut v ht]

omit [IsStrictOrderedRing K] [DecidablePred t] [DecidablePred s] in
/-- A set of tokens with some mass that is closed upwards in `g` is so in `f`. -/
theorem CutTo.upTo_of_sub (h : CutTo vocab g t f) (hs : UpTo vocab g s)
    (hsub : ∀ v < vocab, s v → t v) : UpTo vocab f s := by
  intro u hu v hv hsv hle
  have hv' := List.mem_range.mp hv
  have hfv : f v = g v := h.kept v (hsub v hv' hsv)
  have htu : t u := by
    by_contra hno
    rw [h.cut u hno, hfv] at hle
    exact absurd (h.pos v hv') (not_lt_of_ge hle)
  rw [hfv, h.kept u htu] at hle
  exact hs u hu v hv hsv hle

omit [IsStrictOrderedRing K] in
theorem CutTo.support_eq (h : CutTo vocab g t f) : support vocab f = tokens vocab t := by
  apply List.countP_congr
  intro v hv
  rw [decide_eq_true_eq, decide_eq_true_eq]
  exact h.ne_zero_iff (List.mem_range.mp hv)

omit [IsStrictOrderedRing K] in
theorem CutTo.top_iff (hsort : Sorts sortIdx) (h : CutTo vocab g t f) {j : Nat}
    (hj : j < (sortIdx vocab f).length) :
    t (sortIdx vocab f)[j] ↔ j < support vocab f := by
  rw [h.support_eq]
  exact (h.upTo_of_sub h.upTo fun _ _ ht => ht).iff_lt hsort hj

omit [IsStrictOrderedRing K] in
/-- The tokens that the filter leaves, by position. -/
theorem CutTo.left_iff (hsort : Sorts sortIdx) (h : CutTo vocab g t f) {j : Nat}
    (hj : j < (sortIdx vocab f).length) :
    filterTopP sortIdx vocab p f (sortIdx vocab f)[j] ≠ 0 ↔
      j < support vocab f ∧ KeepsAt p ((sortIdx vocab f).map f) j := by
  have hfilter := filterTopP_getElem (p := p) (f := f) hsort hj
  by_cases hkeeps : KeepsAt p ((sortIdx vocab f).map f) j
  · rw [hfilter.1 hkeeps, h.ne_zero_iff (getElem_sortIdx_lt hsort hj), h.top_iff hsort hj]
    exact (and_iff_left hkeeps).symm
  · rw [hfilter.2 hkeeps]
    exact iff_of_false (fun hne => hne rfl) fun hboth => hkeeps hboth.2

omit [Field K] [IsStrictOrderedRing K] in
/-- Of two upper sets, the one with fewer tokens is inside the other. -/
theorem UpTo.sub_of_le (hsort : Sorts sortIdx) (hs : UpTo vocab g s) (ht : UpTo vocab g t)
    (hle : tokens vocab s ≤ tokens vocab t) : ∀ v < vocab, s v → t v := by
  intro v hv hsv
  obtain ⟨j, hj, rfl⟩ := exists_getElem_sortIdx hsort g hv
  exact (ht.iff_lt hsort hj).mpr (lt_of_lt_of_le ((hs.iff_lt hsort hj).mp hsv) hle)

omit [IsStrictOrderedRing K] in
/-- The filter leaves no token that has no mass. -/
theorem CutTo.tokens_le (hsort : Sorts sortIdx) (h : CutTo vocab g t f) (hs : UpTo vocab g s)
    (hleft : ∀ v < vocab, filterTopP sortIdx vocab p f v ≠ 0 ↔ s v) :
    tokens vocab s ≤ support vocab f := by
  rw [h.support_eq]
  by_contra hlt
  have hlt := lt_of_not_ge hlt
  have hj : tokens vocab t < (sortIdx vocab g).length := by
    rw [length_sortIdx hsort]
    exact lt_of_lt_of_le hlt (Sampler.tokens_le vocab s)
  have hv := getElem_sortIdx_lt hsort hj
  have hnot : ¬ t (sortIdx vocab g)[tokens vocab t] := fun ht =>
    Nat.lt_irrefl _ ((h.upTo.iff_lt hsort hj).mp ht)
  have hin : filterTopP sortIdx vocab p f (sortIdx vocab g)[tokens vocab t] ≠ 0 :=
    (hleft _ hv).mpr ((hs.iff_lt hsort hj).mpr hlt)
  obtain ⟨i, hi, heq⟩ := exists_getElem_sortIdx hsort f hv
  rw [← heq] at hin hnot
  exact hnot ((h.top_iff hsort hi).mpr ((h.left_iff hsort hi).mp hin).1)

/-- What the filter leaves is a given upper set exactly when it cuts after as many tokens. -/
theorem CutTo.filterTopP_iff (hsort : Sorts sortIdx) (h : CutTo vocab g t f)
    (hs : UpTo vocab g s) (hsome : ∃ v < vocab, s v) :
    (∀ v < vocab, filterTopP sortIdx vocab p f v ≠ 0 ↔ s v) ↔
      CutsAt sortIdx vocab p f (tokens vocab s) := by
  have hnonneg : ∀ x ∈ (sortIdx vocab f).map f, 0 ≤ x := by
    intro x hx
    obtain ⟨v, hv, rfl⟩ := List.mem_map.mp hx
    exact h.nonneg (List.mem_range.mp ((hsort.perm vocab f).mem_iff.mp hv))
  have hpos : 0 < tokens vocab s := by
    obtain ⟨v, hv, hsv⟩ := hsome
    exact List.countP_pos_iff.mpr ⟨v, List.mem_range.mpr hv, decide_eq_true hsv⟩
  have hvocab : ∀ j < support vocab f, j < (sortIdx vocab f).length := by
    intro j hj
    rw [length_sortIdx hsort]
    rw [h.support_eq] at hj
    exact lt_of_lt_of_le hj (Sampler.tokens_le vocab t)
  -- with no more tokens than have some mass, the set is a segment of the filtered order too
  have hplace : tokens vocab s ≤ support vocab f → ∀ j (hj : j < (sortIdx vocab f).length),
      s (sortIdx vocab f)[j] ↔ j < tokens vocab s := by
    intro hle j hj
    rw [h.support_eq] at hle
    exact (h.upTo_of_sub hs (hs.sub_of_le hsort h.upTo hle)).iff_lt hsort hj
  constructor
  · intro hleft
    have hle := h.tokens_le hsort hs hleft
    have hat : ∀ j < support vocab f, KeepsAt p ((sortIdx vocab f).map f) j →
        j < tokens vocab s := by
      intro j hj hkeeps
      exact (hplace hle j (hvocab j hj)).mp ((hleft _ (getElem_sortIdx_lt hsort (hvocab j hj))).mp
        ((h.left_iff hsort (hvocab j hj)).mpr ⟨hj, hkeeps⟩))
    refine ⟨hle, ?_, ?_⟩
    · have hlast : tokens vocab s - 1 < support vocab f :=
        lt_of_lt_of_le (Nat.sub_lt hpos Nat.one_pos) hle
      have hin := (hplace hle _ (hvocab _ hlast)).mpr (Nat.sub_lt hpos Nat.one_pos)
      exact ((h.left_iff hsort (hvocab _ hlast)).mp
        ((hleft _ (getElem_sortIdx_lt hsort (hvocab _ hlast))).mpr hin)).2
    · rcases Nat.eq_or_lt_of_le hle with heq | hlt
      · exact Or.inl heq
      · exact Or.inr fun hkeeps => Nat.lt_irrefl _ (hat _ hlt hkeeps)
  · rintro ⟨hle, hlast, hnext⟩ v hv
    obtain ⟨j, hj, rfl⟩ := exists_getElem_sortIdx hsort f hv
    rw [h.left_iff hsort hj, hplace hle j hj]
    constructor
    · rintro ⟨hsupport, hkeeps⟩
      by_contra hge
      have hge := Nat.le_of_not_lt hge
      rcases hnext with heq | hnot
      · exact Nat.not_lt_of_le hge (heq ▸ hsupport)
      · exact hnot (hkeeps.mono hnonneg hge)
    · intro hlt
      exact ⟨lt_of_lt_of_le hlt hle, hlast.mono hnonneg (Nat.le_sub_one_of_lt hlt)⟩

end Cut

/-! ### Masses in proportion -/

/-- The masses of the tokens in `s`. -/
def restrict (s : Nat → Prop) [DecidablePred s] (f : Nat → K) : Nat → K := fun v =>
  if s v then f v else 0

theorem normalise_ne_zero_iff (hf : ∀ v < vocab, 0 ≤ f v) {v : Nat} (hv : v < vocab) :
    normalise vocab f v ≠ 0 ↔ f v ≠ 0 := by
  constructor
  · intro hne hzero
    exact hne (by rw [normalise, hzero, zero_div])
  · intro hne
    have hsum : 0 < ∑ u ∈ Finset.range vocab, f u := by
      apply Finset.sum_pos'
      · intro u hu
        exact hf u (Finset.mem_range.mp hu)
      · exact ⟨v, Finset.mem_range.mpr hv, lt_of_le_of_ne (hf v hv) (Ne.symm hne)⟩
    exact div_ne_zero hne hsum.ne'

omit [LinearOrder K] [IsStrictOrderedRing K] in
theorem normalise_congr {g : Nat → K} (h : ∀ v < vocab, f v = g v) {v : Nat} (hv : v < vocab) :
    normalise vocab f v = normalise vocab g v := by
  have hsum : ∑ u ∈ Finset.range vocab, f u = ∑ u ∈ Finset.range vocab, g u :=
    Finset.sum_congr rfl fun u hu => h u (Finset.mem_range.mp hu)
  rw [normalise, normalise, h v hv, hsum]

omit [LinearOrder K] [IsStrictOrderedRing K] in
/-- Masses are normalised up to a factor. -/
theorem normalise_div {z : K} (hz : z ≠ 0) (f : Nat → K) (v : Nat) :
    normalise vocab (fun u => f u / z) v = normalise vocab f v := by
  rw [normalise, normalise, ← Finset.sum_div, div_div_div_cancel_right₀ hz]

section Proportional

variable {g : Nat → K} {s t : Nat → Prop} [DecidablePred s] [DecidablePred t]

omit [IsStrictOrderedRing K] in
theorem restrict_ne_zero_iff {v : Nat} (hf : 0 < f v) : restrict s f v ≠ 0 ↔ s v := by
  rw [restrict]
  split
  · next hs => exact iff_of_true hf.ne' hs
  · next hs => exact iff_of_false (fun hne => hne rfl) hs

omit [IsStrictOrderedRing K] in
theorem restrict_nonneg (hf : ∀ v < vocab, 0 < f v) : ∀ v < vocab, 0 ≤ restrict s f v := by
  intro v hv
  rw [restrict]
  split
  · exact (hf v hv).le
  · exact le_refl 0

theorem sum_restrict_pos (hf : ∀ v < vocab, 0 < f v) (hsome : ∃ v < vocab, s v) :
    0 < ∑ v ∈ Finset.range vocab, restrict s f v := by
  obtain ⟨w, hw, hsw⟩ := hsome
  apply Finset.sum_pos'
  · intro v hv
    exact restrict_nonneg hf v (Finset.mem_range.mp hv)
  · refine ⟨w, Finset.mem_range.mpr hw, ?_⟩
    rw [restrict, if_pos hsw]
    exact hf w hw

/-- Two restricted masses become one distribution when they live on the same tokens and are in
proportion there. -/
theorem normalise_restrict_eq_iff (hf : ∀ v < vocab, 0 < f v) (hg : ∀ v < vocab, 0 < g v) :
    (∀ v < vocab, normalise vocab (restrict s f) v = normalise vocab (restrict t g) v) ↔
      (∀ v < vocab, s v ↔ t v) ∧
        ∀ u < vocab, ∀ v < vocab, t u → t v → f u * g v = f v * g u := by
  have hsupport : ∀ v < vocab, (normalise vocab (restrict s f) v ≠ 0 ↔ s v) ∧
      (normalise vocab (restrict t g) v ≠ 0 ↔ t v) := by
    intro v hv
    rw [normalise_ne_zero_iff (restrict_nonneg hf) hv, normalise_ne_zero_iff (restrict_nonneg hg) hv]
    exact ⟨restrict_ne_zero_iff (hf v hv), restrict_ne_zero_iff (hg v hv)⟩
  constructor
  · intro heq
    have hsame : ∀ v < vocab, s v ↔ t v := by
      intro v hv
      rw [← (hsupport v hv).1, ← (hsupport v hv).2, heq v hv]
    refine ⟨hsame, ?_⟩
    intro u hu v hv htu htv
    have hleft := sum_restrict_pos hf ⟨u, hu, (hsame u hu).mpr htu⟩
    have hright := sum_restrict_pos hg ⟨u, hu, htu⟩
    have hcross : ∀ w < vocab, t w → f w * ∑ x ∈ Finset.range vocab, restrict t g x =
        g w * ∑ x ∈ Finset.range vocab, restrict s f x := by
      intro w hw htw
      have hw' := heq w hw
      rw [normalise, normalise, div_eq_div_iff hleft.ne' hright.ne', restrict, restrict,
        if_pos ((hsame w hw).mpr htw), if_pos htw] at hw'
      exact hw'
    apply mul_right_cancel₀ hright.ne'
    calc f u * g v * ∑ x ∈ Finset.range vocab, restrict t g x
        = g v * (f u * ∑ x ∈ Finset.range vocab, restrict t g x) := by ring
      _ = g v * (g u * ∑ x ∈ Finset.range vocab, restrict s f x) := by rw [hcross u hu htu]
      _ = g u * (g v * ∑ x ∈ Finset.range vocab, restrict s f x) := by ring
      _ = g u * (f v * ∑ x ∈ Finset.range vocab, restrict t g x) := by rw [hcross v hv htv]
      _ = f v * g u * ∑ x ∈ Finset.range vocab, restrict t g x := by ring
  · rintro ⟨hsame, hratio⟩ v hv
    by_cases htv : t v
    · have hleft := sum_restrict_pos hf ⟨v, hv, (hsame v hv).mpr htv⟩
      have hright := sum_restrict_pos hg ⟨v, hv, htv⟩
      rw [normalise, normalise, div_eq_div_iff hleft.ne' hright.ne', Finset.mul_sum, Finset.mul_sum]
      apply Finset.sum_congr rfl
      intro x hx
      have hx := Finset.mem_range.mp hx
      simp only [restrict, if_pos ((hsame v hv).mpr htv), if_pos htv, hsame x hx]
      by_cases htx : t x
      · rw [if_pos htx, if_pos htx, hratio v hv x hx htv htx]
        exact mul_comm _ _
      · rw [if_neg htx, if_neg htx, mul_zero, mul_zero]
    · rw [normalise, normalise, restrict, restrict, if_neg htv,
        if_neg fun hsv => htv ((hsame v hv).mp hsv), zero_div, zero_div]

end Proportional

end Sampler

end FreeToken
