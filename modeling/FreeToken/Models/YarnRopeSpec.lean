import FreeToken.Models.YarnRope
import FreeToken.Layers.RopeScalingSpec
import Mathlib.Algebra.Order.Floor.Ring
import Mathlib.Algebra.Order.Archimedean.Real.Basic

/-!
# Where the YaRN models agree

gpt_oss and mellum multiply a pair by the same factors. deepseek_v2_lite does exactly where its
two differences do not matter: the attention factor is one, and the ramp over the maximum
positions is the one over the original positions.
-/

namespace FreeToken

namespace YarnParams

variable (p : YarnParams ℝ)

/-- The three models multiply each pair by the same cosine and sine at each position, or all
raise the same. -/
def Agree : Prop :=
  ∀ pos i, i < p.rotaryDim / 2 →
    p.gptOssFactors .real Real.log Real.pi pos i = p.mellumFactors .real Real.log Real.pi pos i ∧
    p.gptOssFactors .real Real.log Real.pi pos i =
      p.deepseekV2LiteFactors .real Real.log Real.pi pos i

/-! ### The ramp -/

/-- The dimension at which a pair turns as many times within the context. -/
noncomputable def rotationsDim (contextLength : Nat) (numRotations : ℝ) : ℝ :=
  p.rotaryDim * Real.log (contextLength / (numRotations * (2 : Nat) * Real.pi)) /
    ((2 : Nat) * Real.log p.base)

/-- The ramp over a context length, at a pair. -/
noncomputable def rampAt (contextLength i : Nat) : ℝ :=
  let low := p.rotationsDim contextLength p.fastRotations
  let high := p.rotationsDim contextLength p.slowRotations
  linearRampFactor (max (if p.truncate then (⌊low⌋ : ℝ) else low) 0)
    (min (if p.truncate then (⌈high⌉ : ℝ) else high) (p.rotaryDim - 1)) i

/-- The original and the maximum positions make the same ramp. -/
def SameRamp : Prop :=
  ∀ i < p.rotaryDim / 2,
    p.rampAt p.originalMaxPositionEmbeddings i = p.rampAt p.maxPositionEmbeddings i

variable {p}

theorem ramp_bounds (lo hi : ℝ) (i : Nat) :
    0 ≤ linearRampFactor lo hi i ∧ linearRampFactor lo hi i ≤ 1 := by
  constructor
  · exact le_min (le_max_right _ _) zero_le_one
  · exact min_le_right _ _

theorem truthy_eq_some {x : Option ℝ} {a : ℝ} : truthy x = some a ↔ x = some a ∧ a ≠ 0 := by
  simp [truthy, Option.filter_eq_some_iff]

theorem fastRotations_ne : p.fastRotations ≠ 0 := by
  rcases h : truthy p.betaFast with _ | a
  · simp [fastRotations, h]
  · simpa [fastRotations, h] using (truthy_eq_some.mp h).2

theorem slowRotations_ne : p.slowRotations ≠ 0 := by
  rcases h : truthy p.betaSlow with _ | a
  · simp [slowRotations, h]
  · simpa [slowRotations, h] using (truthy_eq_some.mp h).2

theorem log_base_pos (p : YarnParams ℝ) : 0 < Real.log p.base := Real.log_pos p.base_gt

theorem divOr_ok {a b : ℝ} (hb : b ≠ 0) : divOr a b = .ok (a / b) := if_neg hb

theorem logOr_ok {x : ℝ} (hx : 0 < x) : logOr Real.log x = .ok (Real.log x) :=
  if_neg (not_le.mpr hx)

/-- A positive number of rotations has a dimension. -/
theorem findCorrectionDim_pos {contextLength : Nat} (hcontext : 0 < contextLength)
    {numRotations : ℝ} (hpos : 0 < numRotations) :
    p.findCorrectionDim Real.log Real.pi contextLength numRotations =
      .ok (p.rotationsDim contextLength numRotations) := by
  have hbase := log_base_pos p
  have hturns : 0 < numRotations * 2 * Real.pi := by positivity
  have hratio : 0 < (contextLength : ℝ) / (numRotations * 2 * Real.pi) :=
    div_pos (Nat.cast_pos.mpr hcontext) hturns
  have hbelow : 2 * Real.log p.base ≠ 0 := by positivity
  simp only [findCorrectionDim, Nat.cast_ofNat, divOr_ok hturns.ne', logOr_ok hratio,
    logOr_ok (lt_trans one_pos p.base_gt), divOr_ok hbelow, bind, Except.bind, rotationsDim]

/-- A negative one is outside the logarithm's domain. -/
theorem findCorrectionDim_neg (p : YarnParams ℝ) (contextLength : Nat) {numRotations : ℝ}
    (hneg : numRotations < 0) :
    p.findCorrectionDim Real.log Real.pi contextLength numRotations = .error .valueError := by
  have hturns : numRotations * 2 * Real.pi < 0 :=
    mul_neg_of_neg_of_pos (by linarith) Real.pi_pos
  have hratio : (contextLength : ℝ) / (numRotations * 2 * Real.pi) ≤ 0 :=
    div_nonpos_of_nonneg_of_nonpos (Nat.cast_nonneg _) hturns.le
  have hlog : logOr Real.log ((contextLength : ℝ) / (numRotations * 2 * Real.pi)) =
      .error .valueError := if_pos hratio
  simp only [findCorrectionDim, Nat.cast_ofNat, divOr_ok hturns.ne, hlog, bind, Except.bind]

theorem correctionRange_neg (h : p.fastRotations < 0 ∨ p.slowRotations < 0) {contextLength : Nat}
    (hcontext : 0 < contextLength) :
    p.correctionRange Real.log Real.pi contextLength = .error .valueError := by
  have hne : p.fastRotations ≠ 0 := fastRotations_ne
  rcases lt_or_gt_of_ne hne with hfast | hfast
  · simp only [correctionRange, findCorrectionDim_neg p contextLength hfast, bind, Except.bind]
  · have hslow := h.resolve_left (not_lt.mpr hfast.le)
    simp only [correctionRange, findCorrectionDim_pos hcontext hfast,
      findCorrectionDim_neg p contextLength hslow, bind, Except.bind]

/-! ### The parameters -/

section

variable {e : RopeRaised} {A : ℝ} {contextLength : Nat}

theorem yarnParameters_error (h : p.scaling Real.log = .error e) :
    p.yarnParameters .real Real.log Real.pi contextLength = .error e := by
  simp only [yarnParameters, h, bind, Except.bind]

theorem yarnParameters_neg (hA : p.scaling Real.log = .ok A)
    (h : p.fastRotations < 0 ∨ p.slowRotations < 0) (hcontext : 0 < contextLength) :
    p.yarnParameters .real Real.log Real.pi contextLength = .error .valueError := by
  simp only [yarnParameters, hA, correctionRange_neg h hcontext, bind, Except.bind]

theorem yarnParameters_ok (hA : p.scaling Real.log = .ok A) (hfast : 0 < p.fastRotations)
    (hslow : 0 < p.slowRotations) (hcontext : 0 < contextLength) :
    p.yarnParameters .real Real.log Real.pi contextLength =
      .ok (fun i => p.blend .real (p.rampAt contextLength i) i, A) := by
  simp only [yarnParameters, hA, correctionRange, findCorrectionDim_pos hcontext hfast,
    findCorrectionDim_pos hcontext hslow, bind, Except.bind, pure, Except.pure, rampAt]

end

/-! ### The blend -/

theorem blend_eq (p : YarnParams ℝ) (ramp : ℝ) (i : Nat) : p.blend .real ramp i =
    Trig.real.invPow p.base i p.rotaryDim * (1 - ramp * (1 - 1 / p.factor)) := by
  have hpos := invPow_pos (lt_trans one_pos p.base_gt) i p.rotaryDim
  have hfactor : 0 < p.factor := lt_trans one_pos p.factor_gt
  simp only [blend]
  field_simp
  ring

theorem interpolated_pos (p : YarnParams ℝ) : 0 < 1 - 1 / p.factor := by
  have hlt : 1 / p.factor < 1 := (div_lt_one (lt_trans one_pos p.factor_gt)).mpr p.factor_gt
  linarith

/-- A frequency is positive and at most one. -/
theorem blend_bounds (p : YarnParams ℝ) {ramp : ℝ} (hramp : 0 ≤ ramp ∧ ramp ≤ 1) (i : Nat) :
    0 < p.blend .real ramp i ∧ p.blend .real ramp i ≤ 1 := by
  have hpos := invPow_pos (lt_trans one_pos p.base_gt) i p.rotaryDim
  have hone : Trig.real.invPow p.base i p.rotaryDim ≤ 1 := by
    have hanti := invPow_antitone p.base_gt.le (Nat.zero_le i) p.rotaryDim
    simpa [Trig.real] using hanti
  have hinter := interpolated_pos p
  have hfactor : 0 < 1 / p.factor := one_div_pos.mpr (lt_trans one_pos p.factor_gt)
  have hshare : 0 ≤ ramp * (1 - 1 / p.factor) ∧ ramp * (1 - 1 / p.factor) < 1 := by
    refine ⟨mul_nonneg hramp.1 hinter.le, ?_⟩
    calc ramp * (1 - 1 / p.factor) ≤ 1 * (1 - 1 / p.factor) :=
          mul_le_mul_of_nonneg_right hramp.2 hinter.le
      _ < 1 := by linarith
  rw [blend_eq]
  constructor
  · exact mul_pos hpos (by linarith)
  · exact mul_le_one₀ hone (by linarith) (by linarith)

theorem blend_inj (p : YarnParams ℝ) {ramp ramp' : ℝ} {i : Nat}
    (h : p.blend .real ramp i = p.blend .real ramp' i) : ramp = ramp' := by
  have hpos := invPow_pos (lt_trans one_pos p.base_gt) i p.rotaryDim
  rw [blend_eq, blend_eq] at h
  have hshare := mul_left_cancel₀ hpos.ne' h
  exact mul_right_cancel₀ (interpolated_pos p).ne' (by linarith)

/-! ### The attention factor -/

/-- The attention factor is given as one, or is the quotient of two equal numbers. -/
def FactorOne (p : YarnParams ℝ) : Prop :=
  p.attentionFactor = some 1 ∨
    (p.attentionFactor = none ∧ ∃ m, m ≠ 0 ∧ p.mscale = some m ∧ p.mscaleAllDim = some m)

/-- The attention factor is a quotient by zero. -/
def FactorUndefined (p : YarnParams ℝ) : Prop :=
  p.attentionFactor = none ∧ ∃ m m', m ≠ 0 ∧ m' ≠ 0 ∧ p.mscale = some m ∧
    p.mscaleAllDim = some m' ∧ 1 / 10 * m' * Real.log p.factor + 1 = 0

theorem getMscale_eq (p : YarnParams ℝ) (m : ℝ) :
    getMscale Real.log p.factor m = 1 / 10 * m * Real.log p.factor + 1 := by
  simp [getMscale, not_le.mpr p.factor_gt]

theorem scaling_default (hnone : p.attentionFactor = none)
    (h : truthy p.mscale = none ∨ truthy p.mscaleAllDim = none) :
    p.scaling Real.log = .ok (1 / 10 * 1 * Real.log p.factor + 1) := by
  rw [← getMscale_eq]
  rcases hmscale : truthy p.mscale with _ | m
  · simp only [scaling, hnone, hmscale]
  · have hall := h.resolve_left (by simp [hmscale])
    simp only [scaling, hnone, hmscale, hall]

theorem scaling_quotient (hnone : p.attentionFactor = none) {m m' : ℝ}
    (hmscale : truthy p.mscale = some m) (hall : truthy p.mscaleAllDim = some m') :
    p.scaling Real.log = divOr (1 / 10 * m * Real.log p.factor + 1)
      (1 / 10 * m' * Real.log p.factor + 1) := by
  rw [← getMscale_eq, ← getMscale_eq]
  simp only [scaling, hnone, hmscale, hall]

/-- The attention factor is undefined, or it is one exactly where the parameters say so. -/
theorem scaling_cases (p : YarnParams ℝ) :
    (p.FactorUndefined ∧ p.scaling Real.log = .error .zeroDivisionError) ∨
    (¬ p.FactorUndefined ∧ ∃ A, p.scaling Real.log = .ok A ∧ (A = 1 ↔ p.FactorOne)) := by
  have hlog : Real.log p.factor ≠ 0 := (Real.log_pos p.factor_gt).ne'
  rcases hgiven : p.attentionFactor with _ | a
  · by_cases hdefault : truthy p.mscale = none ∨ truthy p.mscaleAllDim = none
    · have hnot : ∀ m m', p.mscale = some m → m ≠ 0 → p.mscaleAllDim = some m' → m' ≠ 0 →
          False := by
        intro m m' hmscale hm hall hm'
        rcases hdefault with hnone | hnone
        · rw [truthy_eq_some.mpr ⟨hmscale, hm⟩] at hnone
          cases hnone
        · rw [truthy_eq_some.mpr ⟨hall, hm'⟩] at hnone
          cases hnone
      refine Or.inr ⟨?_, _, scaling_default hgiven hdefault, ?_⟩
      · rintro ⟨-, m, m', hm, hm', hmscale, hall, -⟩
        exact hnot m m' hmscale hm hall hm'
      · constructor
        · intro hone
          exact absurd (by linarith) hlog
        · rintro (hone | ⟨-, m, hm, hmscale, hall⟩)
          · rw [hgiven] at hone
            cases hone
          · exact (hnot m m hmscale hm hall hm).elim
    · rcases not_or.mp hdefault with ⟨hmscale, hall⟩
      rcases Option.ne_none_iff_exists'.mp hmscale with ⟨m, hm⟩
      rcases Option.ne_none_iff_exists'.mp hall with ⟨m', hm'⟩
      have hquotient := scaling_quotient hgiven hm hm'
      by_cases hzero : 1 / 10 * m' * Real.log p.factor + 1 = 0
      · refine Or.inl ⟨⟨hgiven, m, m', (truthy_eq_some.mp hm).2, (truthy_eq_some.mp hm').2,
          (truthy_eq_some.mp hm).1, (truthy_eq_some.mp hm').1, hzero⟩, ?_⟩
        rw [hquotient, divOr, if_pos hzero]
      · refine Or.inr ⟨?_, _, hquotient.trans (divOr_ok hzero), ?_⟩
        · rintro ⟨-, _, m'', -, -, -, hsome, hundefined⟩
          rw [(truthy_eq_some.mp hm').1] at hsome
          rcases Option.some.inj hsome with rfl
          exact hzero hundefined
        · rw [div_eq_one_iff_eq hzero]
          constructor
          · intro heq
            have hsame : m = m' := mul_right_cancel₀ hlog (by linarith)
            refine Or.inr ⟨hgiven, m, (truthy_eq_some.mp hm).2, (truthy_eq_some.mp hm).1, ?_⟩
            rw [hsame]
            exact (truthy_eq_some.mp hm').1
          · rintro (hone | ⟨-, k, -, hk, hk'⟩)
            · rw [hgiven] at hone
              cases hone
            · rw [(truthy_eq_some.mp hm).1] at hk
              rw [(truthy_eq_some.mp hm').1] at hk'
              rw [Option.some.inj hk, Option.some.inj hk']
  · refine Or.inr ⟨?_, a, by simp only [scaling, hgiven], ?_⟩
    · rintro ⟨hnone, -⟩
      rw [hgiven] at hnone
      cases hnone
    · simp [FactorOne, hgiven]

/-! ### Agreement -/

theorem agree_of_eq (h : p.yarnParameters .real Real.log Real.pi p.originalMaxPositionEmbeddings =
      p.yarnParameters .real Real.log Real.pi p.maxPositionEmbeddings) {e : RopeRaised}
    (herror : p.yarnParameters .real Real.log Real.pi p.originalMaxPositionEmbeddings = .error e) :
    p.Agree := by
  rw [herror] at h
  intro pos i _
  simp only [gptOssFactors, gptOssParameters, mellumFactors, mellumParameters,
    deepseekV2LiteFactors, deepseekV2LiteParameters, herror, ← h, bind, Except.bind, and_self]

/-- Frequencies between zero and one are told apart at position one. -/
theorem eq_of_cos_eq {f g : ℝ} (hf : 0 < f ∧ f ≤ 1) (hg : 0 < g ∧ g ≤ 1)
    (h : Real.cos f = Real.cos g) : f = g := by
  have hpi : (1 : ℝ) ≤ Real.pi := by linarith [Real.two_le_pi]
  exact Real.injOn_cos ⟨hf.1.le, hf.2.trans hpi⟩ ⟨hg.1.le, hg.2.trans hpi⟩ h

section

variable {A : ℝ} (hA : p.scaling Real.log = .ok A) (hfast : 0 < p.fastRotations)
  (hslow : 0 < p.slowRotations) (pos i : Nat)

include hA hfast hslow

theorem gptOssFactors_ok : p.gptOssFactors .real Real.log Real.pi pos i =
    .ok (Real.cos (pos * p.blend .real (p.rampAt p.originalMaxPositionEmbeddings i) i) * A,
      Real.sin (pos * p.blend .real (p.rampAt p.originalMaxPositionEmbeddings i) i) * A) := by
  simp only [gptOssFactors, gptOssParameters, yarnParameters_ok hA hfast hslow p.original_pos,
    bind, Except.bind, pure, Except.pure]
  rfl

theorem deepseekV2LiteFactors_ok : p.deepseekV2LiteFactors .real Real.log Real.pi pos i =
    .ok (Real.cos (pos * p.blend .real (p.rampAt p.maxPositionEmbeddings i) i * A),
      Real.sin (pos * p.blend .real (p.rampAt p.maxPositionEmbeddings i) i * A)) := by
  simp only [deepseekV2LiteFactors, deepseekV2LiteParameters,
    yarnParameters_ok hA hfast hslow p.maxPosition_pos, bind, Except.bind, pure, Except.pure]
  rfl

end

/-- With an attention factor and both correction dimensions the models agree exactly when the
factor is one and the ramps are the same. -/
theorem agree_iff_of_ok {A : ℝ} (hA : p.scaling Real.log = .ok A) (hfast : 0 < p.fastRotations)
    (hslow : 0 < p.slowRotations) : p.Agree ↔ A = 1 ∧ p.SameRamp := by
  constructor
  · intro hagree
    have hpairs : 0 < p.rotaryDim / 2 := by
      have hpos := p.rotaryDim_pos
      have heven := p.rotaryDim_even
      omega
    -- at position 0 only the scale is seen
    have hone : A = 1 := by
      have h := (hagree 0 0 hpairs).2
      rw [gptOssFactors_ok hA hfast hslow, deepseekV2LiteFactors_ok hA hfast hslow] at h
      simpa using congrArg Prod.fst (Except.ok.inj h)
    refine ⟨hone, fun i hi => ?_⟩
    have h := (hagree 1 i hi).2
    rw [gptOssFactors_ok hA hfast hslow, deepseekV2LiteFactors_ok hA hfast hslow, hone] at h
    have hcos := congrArg Prod.fst (Except.ok.inj h)
    simp only [Nat.cast_one, one_mul, mul_one] at hcos
    exact p.blend_inj (eq_of_cos_eq (p.blend_bounds (ramp_bounds _ _ i) i)
      (p.blend_bounds (ramp_bounds _ _ i) i) hcos)
  · rintro ⟨rfl, hramp⟩ pos i hi
    refine ⟨rfl, ?_⟩
    rw [gptOssFactors_ok hA hfast hslow, deepseekV2LiteFactors_ok hA hfast hslow, hramp i hi,
      mul_one, mul_one, mul_one]

/-- The three models agree exactly where all raise, or the attention factor is one and the
original and the maximum positions make the same ramp. -/
theorem agree_iff (p : YarnParams ℝ) : p.Agree ↔
    (p.FactorUndefined ∨ p.fastRotations < 0 ∨ p.slowRotations < 0) ∨
      p.FactorOne ∧ p.SameRamp := by
  rcases p.scaling_cases with ⟨hundefined, herror⟩ | ⟨hdefined, A, hA, hone⟩
  · simp only [hundefined, true_or, iff_true]
    have hall : ∀ contextLength, p.yarnParameters .real Real.log Real.pi contextLength =
        .error .zeroDivisionError := fun _ => yarnParameters_error herror
    exact agree_of_eq ((hall _).trans (hall _).symm) (hall _)
  · by_cases hneg : p.fastRotations < 0 ∨ p.slowRotations < 0
    · simp only [hneg, or_true, true_or, iff_true]
      have horiginal := yarnParameters_neg hA hneg p.original_pos
      exact agree_of_eq (horiginal.trans (yarnParameters_neg hA hneg p.maxPosition_pos).symm)
        horiginal
    · have hfast : 0 < p.fastRotations :=
        lt_of_le_of_ne (not_lt.mp fun h => hneg (Or.inl h)) (Ne.symm fastRotations_ne)
      have hslow : 0 < p.slowRotations :=
        lt_of_le_of_ne (not_lt.mp fun h => hneg (Or.inr h)) (Ne.symm slowRotations_ne)
      rw [agree_iff_of_ok hA hfast hslow, hone]
      simp only [hdefined, hneg, or_self, false_or]

/-- The parameters of a checkpoint with four times its original positions. -/
noncomputable def fourfold : YarnParams ℝ where
  rotaryDim := 64
  base := (10000 : Nat)
  factor := (4 : Nat)
  originalMaxPositionEmbeddings := 4096
  maxPositionEmbeddings := 16384
  rotaryDim_pos := wholeHead.rotaryDim_pos
  rotaryDim_even := wholeHead.rotaryDim_even
  base_gt := by norm_num
  factor_gt := by norm_num
  original_pos := by decide
  maxPosition_pos := by decide

/-- At position 0 gpt_oss scales the first pair by its attention factor, deepseek_v2_lite does
not. -/
theorem fourfold_disagrees :
    (∃ A : ℝ, 1 < A ∧
      fourfold.gptOssFactors .real Real.log Real.pi 0 0 = .ok (A, 0) ∧
      fourfold.deepseekV2LiteFactors .real Real.log Real.pi 0 0 = .ok (1, 0)) ∧
    ¬ fourfold.Agree := by
  have hA : fourfold.scaling Real.log = .ok (1 / 10 * 1 * Real.log 4 + 1) :=
    scaling_default rfl (Or.inl rfl)
  have hfast : fourfold.fastRotations = 32 := by simp [fastRotations, truthy, fourfold]
  have hslow : fourfold.slowRotations = 1 := by simp [slowRotations, truthy, fourfold]
  have hlog : 0 < Real.log 4 := Real.log_pos (by norm_num)
  have hgpt := gptOssFactors_ok hA (by rw [hfast]; norm_num) (by rw [hslow]; norm_num) 0 0
  have hdeepseek :=
    deepseekV2LiteFactors_ok hA (by rw [hfast]; norm_num) (by rw [hslow]; norm_num) 0 0
  simp only [Nat.cast_zero, zero_mul, Real.cos_zero, Real.sin_zero, one_mul] at hgpt hdeepseek
  refine ⟨⟨_, by linarith, hgpt, hdeepseek⟩, fun hagree => ?_⟩
  have h := (hagree 0 0 (by decide)).2
  rw [hgpt, hdeepseek] at h
  have hone := congrArg Prod.fst (Except.ok.inj h)
  dsimp only at hone
  linarith

end YarnParams

end FreeToken
