import FreeToken.Layers.RopeScaling
import FreeToken.Layers.RotarySpec
import Mathlib.Analysis.SpecialFunctions.Log.Basic

/-!
# Context extension must not speed a pair up

Both post-processes multiply where they are to divide: a frequency they touch at all exceeds the
base frequency. So the frequencies stay between the base frequency and its `factor`-th part only
where the post-process leaves every pair alone.
-/

namespace FreeToken

/-! ### The base frequencies -/

section

variable {base : ℝ} {rotaryDim : Nat}

theorem invPow_pos (hbase : 0 < base) (d n : Nat) : 0 < Trig.real.invPow base d n :=
  one_div_pos.mpr (Real.rpow_pos_of_pos hbase _)

theorem invPow_antitone (hbase : 1 ≤ base) {d d' : Nat} (hle : d ≤ d') (n : Nat) :
    Trig.real.invPow base d' n ≤ Trig.real.invPow base d n := by
  refine one_div_le_one_div_of_le (Real.rpow_pos_of_pos (by linarith) _) ?_
  refine Real.rpow_le_rpow_of_exponent_le hbase ?_
  gcongr

/-- With a base below one the second pair is faster than the first. -/
theorem invPow_lt (hbase : 0 < base) (hone : base < 1) {n : Nat} (hn : 0 < n) :
    Trig.real.invPow base 0 n < Trig.real.invPow base 1 n := by
  have hexp : (0 : ℝ) < (2 * (1 : Nat) : ℝ) / n := by positivity
  have hpow := Real.rpow_lt_one hbase.le hone hexp
  have hpos := Real.rpow_pos_of_pos hbase ((2 * (1 : Nat) : ℝ) / n)
  calc Trig.real.invPow base 0 n = 1 := by simp [Trig.real]
    _ < Trig.real.invPow base 1 n := (one_lt_div hpos).mpr hpow

theorem invPow_antitone_iff (hbase : 0 < base) (hpos : 0 < rotaryDim)
    (heven : rotaryDim % 2 = 0) :
    (∀ d d', d ≤ d' → d' < rotaryDim / 2 →
      Trig.real.invPow base d' rotaryDim ≤ Trig.real.invPow base d rotaryDim) ↔
    1 ≤ base ∨ rotaryDim = 2 := by
  constructor
  · intro hanti
    by_contra hnot
    rcases not_or.mp hnot with ⟨hone, htwo⟩
    have hle := hanti 0 1 (Nat.zero_le 1) (by omega)
    exact absurd (invPow_lt hbase (not_le.mp hone) hpos) (not_lt.mpr hle)
  · rintro (hone | rfl) d d' hle hlt
    · exact invPow_antitone hone hle _
    · rcases (show d = d' by omega) with rfl
      exact le_refl _

end

/-! ### Slowing down -/

namespace ScaledRope

/-- Each frequency lies between its base frequency and the `factor`-th part of it, and no pair is
faster than one before it. -/
def SlowsDown (rope : ScaledRope ℝ) (factor : ℝ) : Prop :=
  ∃ f : Nat → ℝ, (∀ d < rope.layer.half, rope.invFreq d = some (f d)) ∧
    (∀ d < rope.layer.half,
      rope.layer.invFreq .real d / factor ≤ f d ∧ f d ≤ rope.layer.invFreq .real d) ∧
    ∀ d d', d ≤ d' → d' < rope.layer.half → f d' ≤ f d

variable {rope : ScaledRope ℝ} {factor : ℝ}

/-- A pair that is sped up, or whose frequency is not finite. -/
theorem not_slowsDown {d : Nat} (hd : d < rope.layer.half)
    (h : ∀ v, rope.invFreq d = some v → rope.layer.invFreq .real d < v) :
    ¬ rope.SlowsDown factor := by
  rintro ⟨f, hf, hbounds, -⟩
  exact absurd (hbounds d hd).2 (not_le.mpr (h (f d) (hf d hd)))

/-- Where every pair is left alone, only the order of the base frequencies matters. -/
theorem slowsDown_iff_of_same (hplain : rope.layer.proportional = false)
    (hbase : 0 < rope.layer.base) (hfactor : 1 < factor)
    (hsame : ∀ d < rope.layer.half, rope.invFreq d = some (rope.layer.invFreq .real d)) :
    rope.SlowsDown factor ↔ 1 ≤ rope.layer.base ∨ rope.layer.rotaryDim = 2 := by
  have hfreq : ∀ d, rope.layer.invFreq .real d =
      Trig.real.invPow rope.layer.base d rope.layer.rotaryDim := fun d => by
    simp [RotaryEmbedding.invFreq, hplain]
  rw [← invPow_antitone_iff hbase rope.layer.rotaryDim_pos rope.layer.rotaryDim_even]
  constructor
  · rintro ⟨f, hf, -, hanti⟩ d d' hle hlt
    have h := hanti d d' hle hlt
    rwa [← Option.some.inj ((hsame d' hlt).symm.trans (hf d' hlt)),
      ← Option.some.inj ((hsame d (lt_of_le_of_lt hle hlt)).symm.trans
        (hf d (lt_of_le_of_lt hle hlt))), hfreq, hfreq] at h
  · intro hanti
    refine ⟨_, hsame, fun d hd => ⟨?_, le_refl _⟩, fun d d' hle hlt => ?_⟩
    · have hpos := invPow_pos hbase d rope.layer.rotaryDim
      rw [hfreq]
      exact div_le_self hpos.le hfactor.le
    · rw [hfreq, hfreq]
      exact hanti d d' hle hlt

/-- A post-process leaves all pairs alone under a condition, and speeds one up without it. -/
theorem slowsDown_iff_of {P : Prop} (hplain : rope.layer.proportional = false)
    (hbase : 0 < rope.layer.base) (hfactor : 1 < factor)
    (hsame : P → ∀ d < rope.layer.half, rope.invFreq d = some (rope.layer.invFreq .real d))
    (hfast : ¬ P → ∃ d < rope.layer.half,
      ∀ v, rope.invFreq d = some v → rope.layer.invFreq .real d < v) :
    rope.SlowsDown factor ↔ (1 ≤ rope.layer.base ∨ rope.layer.rotaryDim = 2) ∧ P := by
  by_cases hP : P
  · simpa [hP] using slowsDown_iff_of_same hplain hbase hfactor (hsame hP)
  · rcases hfast hP with ⟨d, hd, hv⟩
    simpa [hP] using not_slowsDown hd hv

end ScaledRope

namespace RopeScaling

variable {config : RopeScaling ℝ}

/-! ### What the post-processes leave alone -/

/-- The wavelength of a frequency is neither above the low band nor below the high one. -/
def InBand (config : RopeScaling ℝ) (f : ℝ) : Prop :=
  ∃ oldCtx, config.originalMaxPositionEmbeddings = some oldCtx ∧
    oldCtx / config.highFreqFactor.getD 4 ≤ 1 / f ∧ 1 / f ≤ oldCtx / config.lowFreqFactor.getD 1

/-- The dimension at which a pair turns `beta` times within the original context. -/
noncomputable def rampDim (config : RopeScaling ℝ) (origCtx : ℝ) (rotaryDim : Nat) (beta : ℝ) : ℝ :=
  rotaryDim * Real.log (origCtx / beta) / Real.log (config.base.getD (10000 : Nat))

/-- The two ends of the ramp, in the given order or the other way round. -/
def RampReversed (config : RopeScaling ℝ) (rotaryDim : Nat) : Prop :=
  ∃ origCtx, config.originalMaxPositionEmbeddings = some origCtx ∧
    min (config.rampDim origCtx rotaryDim (config.betaSlow.getD 1)) (rotaryDim - 1) <
      max (config.rampDim origCtx rotaryDim (config.betaFast.getD 32)) 0

/-- No pair is in the band, or there is no ramp. -/
def LeavesAlone (config : RopeScaling ℝ) (base : ℝ) (rotaryDim : Nat) : Prop :=
  (config.ropeType = .llama3 → config.highFreqFactor.getD 4 ≤ config.lowFreqFactor.getD 1 ∨
    ∀ d < rotaryDim / 2, ¬ config.InBand (Trig.real.invPow base d rotaryDim)) ∧
  (config.ropeType = .yarn → config.betaFast.getD 32 = config.betaSlow.getD 1 ∨
    config.RampReversed rotaryDim)

theorem getOr_eq_ok {x : Option ℝ} {a : ℝ} : getOr x = .ok a ↔ x = some a := by
  cases x <;> simp [getOr]

theorem divOr_eq_ok {a b c : ℝ} : divOr a b = .ok c ↔ b ≠ 0 ∧ a / b = c := by
  by_cases hb : b = 0 <;> simp [divOr, hb]

theorem logOr_eq_ok {x y : ℝ} : logOr Real.log x = .ok y ↔ 0 < x ∧ Real.log x = y := by
  by_cases hx : x ≤ 0
  · simp [logOr, hx]
  · simp [logOr, hx, not_le.mp hx]

theorem correctionDim_eq_ok {origCtx base dim x y : ℝ}
    (h : correctionDim Real.log origCtx base dim x = .ok y) :
    y = dim * Real.log (origCtx / x) / Real.log base := by
  simp only [correctionDim, bind_eq_ok, divOr_eq_ok, logOr_eq_ok] at h
  rcases h with ⟨_, ⟨-, rfl⟩, _, ⟨-, rfl⟩, _, ⟨-, rfl⟩, -, rfl⟩
  rfl

/-- `_llama3_post_process` multiplies exactly the frequencies in the band. -/
theorem llama3_eq_ok {f g : Nat → ℝ} (h : config.llama3PostProcess f = .ok g)
    (hfactor : 1 < config.scalingFactor) :
    (config.highFreqFactor.getD 4 ≤ config.lowFreqFactor.getD 1 ∧ g = f) ∨
    (¬ config.highFreqFactor.getD 4 ≤ config.lowFreqFactor.getD 1 ∧
      ∀ d, (config.InBand (f d) → g d = f d * config.scalingFactor) ∧
        (¬ config.InBand (f d) → g d = f d)) := by
  simp only [llama3PostProcess, bind_eq_ok, getOr_eq_ok, not_le.mpr hfactor, false_or,
    Nat.cast_ofNat] at h
  rcases h with ⟨oldCtx, hold, h⟩
  by_cases hband : config.highFreqFactor.getD 4 ≤ config.lowFreqFactor.getD 1
  · simp only [hband, if_true] at h
    exact Or.inl ⟨hband, (Except.ok.inj h).symm⟩
  · simp only [hband, if_false, bind_eq_ok, divOr_eq_ok] at h
    rcases h with ⟨_, ⟨-, rfl⟩, _, ⟨-, rfl⟩, h⟩
    refine Or.inr ⟨hband, fun d => ?_⟩
    have hg : ∀ d, g d = _ := fun d => congrFun (Except.ok.inj h).symm d
    rw [hg]
    simp only [InBand, hold, Option.some.injEq, exists_eq_left']
    constructor
    · rintro ⟨hhigh, hlow⟩
      rw [if_neg (not_lt.mpr hlow), if_neg (not_lt.mpr hhigh)]
    · intro hout
      split_ifs with hlow hhigh
      · rfl
      · rfl
      · exact absurd ⟨not_lt.mp hhigh, not_lt.mp hlow⟩ hout

/-- Before the ramp's end a frequency is multiplied by more than one. -/
theorem lt_ramp {low high factor f : ℝ} (hlow : 0 ≤ low) (hle : low ≤ high)
    (hne : high - low ≠ 0) (hfactor : 1 < factor) (hf : 0 < f) :
    f < f * (1 + high / (high - low) * (factor - 1)) := by
  have hwidth : 0 < high - low := lt_of_le_of_ne (sub_nonneg.mpr hle) hne.symm
  have hhigh : 0 < high := by linarith
  have hextra : 0 < high / (high - low) * (factor - 1) :=
    mul_pos (div_pos hhigh hwidth) (by linarith)
  exact lt_mul_of_one_lt_right hf (by linarith)

/-- `_yarn_post_process` leaves the frequencies alone where there is no ramp, and speeds up the
first pair where there is one. -/
theorem yarn_eq_ok {n : Nat} {f : Nat → ℝ} {g : Nat → Option ℝ}
    (h : config.yarnPostProcess Real.log n f = .ok g) (hfactor : 1 < config.scalingFactor) :
    ((config.betaFast.getD 32 = config.betaSlow.getD 1 ∨ config.RampReversed (n * 2)) ∧
      ∀ d, g d = some (f d)) ∨
    (¬ (config.betaFast.getD 32 = config.betaSlow.getD 1 ∨ config.RampReversed (n * 2)) ∧
      (0 < f 0 → ∀ v, g 0 = some v → f 0 < v)) := by
  simp only [yarnPostProcess, bind_eq_ok, getOr_eq_ok, not_le.mpr hfactor, false_or,
    Nat.cast_ofNat] at h
  rcases h with ⟨origCtx, horig, h⟩
  have hreversed : config.RampReversed (n * 2) ↔
      min (config.rampDim origCtx (n * 2) (config.betaSlow.getD 1)) (((n * 2 : Nat) : ℝ) - 1) <
        max (config.rampDim origCtx (n * 2) (config.betaFast.getD 32)) 0 := by
    simp [RampReversed, horig]
  by_cases hbeta : config.betaFast.getD 32 = config.betaSlow.getD 1
  · simp only [hbeta, if_true] at h
    exact Or.inl ⟨Or.inl hbeta, fun d => congrFun (Except.ok.inj h).symm d⟩
  · simp only [hbeta, if_false, bind_eq_ok] at h
    rcases h with ⟨fast, hfast, slow, hslow, h⟩
    rw [correctionDim_eq_ok hfast, correctionDim_eq_ok hslow] at h
    simp only [rampDim, Nat.cast_ofNat] at hreversed
    by_cases hramp : config.RampReversed (n * 2)
    · rw [if_neg (not_le.mpr (hreversed.mp hramp))] at h
      exact Or.inl ⟨Or.inr hramp, fun d => congrFun (Except.ok.inj h).symm d⟩
    · have hle := not_lt.mp fun hlt => hramp (hreversed.mpr hlt)
      rw [if_pos hle] at h
      refine Or.inr ⟨not_or.mpr ⟨hbeta, hramp⟩, fun hpos v hv => ?_⟩
      have hg : g 0 = _ := congrFun (Except.ok.inj h).symm 0
      rw [hg] at hv
      split_ifs at hv with hzero
      · rcases Option.some.inj hv with rfl
        simpa using lt_ramp (le_max_right _ _) hle hzero hfactor hpos

end RopeScaling

/-! ### Slowing down -/

theorem new_eq_ok {headSize rotaryDim maxPosition : Nat} {base attentionFactor : ℝ}
    {proportional isNeox : Bool} {layer : RotaryEmbedding ℝ}
    (h : RotaryEmbedding.new headSize rotaryDim maxPosition base proportional attentionFactor
      isNeox = .ok layer) :
    layer.rotaryDim = rotaryDim ∧ layer.base = base ∧ layer.proportional = proportional := by
  simp only [RotaryEmbedding.new] at h
  split_ifs at h
  rcases Except.ok.inj h with rfl
  exact ⟨rfl, rfl, rfl⟩

/-- What `get_rope` accepts of `llama3` and `yarn` slows every pair down exactly when the
post-process leaves all pairs alone, and the base frequencies do not increase themselves. -/
theorem slowsDown_iff {headDim rotaryDim maxPosition : Nat} {base : ℝ} {config : RopeScaling ℝ}
    {isNeox : Bool} {rope : ScaledRope ℝ}
    (htype : config.ropeType = .llama3 ∨ config.ropeType = .yarn)
    (haccepts : getRope .real Real.log headDim rotaryDim maxPosition base (some config) isNeox =
      .ok rope) (hbase : 0 < base) (hfactor : 1 < config.scalingFactor) :
    rope.SlowsDown config.scalingFactor ↔
      (1 ≤ base ∨ rotaryDim = 2) ∧ config.LeavesAlone base rotaryDim := by
  rcases htype with htype | htype
  · simp only [getRope, htype, bind_eq_ok] at haccepts
    rcases haccepts with ⟨layer, hlayer, f, hpost, hrope⟩
    rcases Except.ok.inj hrope with rfl
    rcases new_eq_ok hlayer with ⟨rfl, rfl, hplain⟩
    have hfreq : ∀ d, layer.invFreq .real d = Trig.real.invPow layer.base d layer.rotaryDim :=
      fun d => by simp [RotaryEmbedding.invFreq, hplain]
    have halone : config.LeavesAlone layer.base layer.rotaryDim ↔
        config.highFreqFactor.getD 4 ≤ config.lowFreqFactor.getD 1 ∨
          ∀ d < layer.half, ¬ config.InBand (layer.invFreq .real d) := by
      simp [RopeScaling.LeavesAlone, htype, hfreq, RotaryEmbedding.half]
    rw [halone]
    rcases RopeScaling.llama3_eq_ok hpost hfactor with ⟨hband, rfl⟩ | ⟨hband, hpairs⟩
    · exact ScaledRope.slowsDown_iff_of hplain hbase hfactor (fun _ _ _ => rfl)
        fun hnot => absurd (Or.inl hband) hnot
    · refine ScaledRope.slowsDown_iff_of hplain hbase hfactor (fun hnone d hd => ?_) fun hnot => ?_
      · exact congrArg some ((hpairs d).2 ((hnone.resolve_left hband) d hd))
      · rcases not_forall.mp (not_or.mp hnot).2 with ⟨d, hd⟩
        rcases not_forall.mp hd with ⟨hlt, hin⟩
        refine ⟨d, hlt, fun v hv => ?_⟩
        rw [← Option.some.inj hv, (hpairs d).1 (not_not.mp hin)]
        exact lt_mul_of_one_lt_right (hfreq d ▸ invPow_pos hbase d _) hfactor
  · simp only [getRope, htype, bind_eq_ok] at haccepts
    rcases haccepts with ⟨attentionFactor, -, layer, hlayer, f, hpost, hrope⟩
    rcases Except.ok.inj hrope with rfl
    rcases new_eq_ok hlayer with ⟨rfl, rfl, hplain⟩
    have hhalf := layer.half_add_half
    have hrotary := layer.rotaryDim_pos
    have hfreqs : layer.numFreqs = layer.half := by simp [RotaryEmbedding.numFreqs, hplain]
    have hdim : layer.half * 2 = layer.rotaryDim := by omega
    have hpos : 0 < layer.half := by omega
    have halone : config.LeavesAlone layer.base layer.rotaryDim ↔
        config.betaFast.getD 32 = config.betaSlow.getD 1 ∨
          config.RampReversed layer.rotaryDim := by
      simp [RopeScaling.LeavesAlone, htype]
    rw [halone]
    rw [hfreqs] at hpost
    rcases RopeScaling.yarn_eq_ok hpost hfactor with ⟨hnoRamp, hsame⟩ | ⟨hramp, hfast⟩
    · rw [hdim] at hnoRamp
      exact ScaledRope.slowsDown_iff_of hplain hbase hfactor (fun _ d _ => hsame d)
        fun hnot => absurd hnoRamp hnot
    · rw [hdim] at hramp
      refine ScaledRope.slowsDown_iff_of hplain hbase hfactor (fun h => absurd h hramp)
        fun _ => ⟨0, hpos, hfast ?_⟩
      simpa [RotaryEmbedding.invFreq, hplain] using invPow_pos hbase 0 layer.rotaryDim

/-- `llama3` with the factor 8 and its default bands, for a context of 256 positions. -/
noncomputable def shortContext : RopeScaling ℝ where
  ropeType := .llama3
  originalMaxPositionEmbeddings := some 256
  factor := some 8

/-- The same for a context of 65536 positions. -/
noncomputable def longContext : RopeScaling ℝ :=
  { shortContext with originalMaxPositionEmbeddings := some 65536 }

/-- All of a head of 64 dimensions, in pairs of the two halves. -/
noncomputable def wholeHead : RotaryEmbedding ℝ where
  headSize := 64
  rotaryDim := 64
  maxPositionEmbeddings := 1
  base := (10000 : Nat)
  attentionFactor := 1
  rotaryDim_pos := RotaryEmbedding.interleaved.rotaryDim_pos
  rotaryDim_le := RotaryEmbedding.interleaved.rotaryDim_le
  rotaryDim_even := RotaryEmbedding.interleaved.rotaryDim_even
  headSize_valid := RotaryEmbedding.interleaved.headSize_valid

theorem new_wholeHead : RotaryEmbedding.new 64 64 1 10000 false 1 true = .ok wholeHead := by
  simp [RotaryEmbedding.new, wholeHead]

theorem scalingFactor_shortContext : shortContext.scalingFactor = 8 := by
  simp [RopeScaling.scalingFactor, shortContext, Option.filter]

theorem scalingFactor_longContext : longContext.scalingFactor = 8 := scalingFactor_shortContext

theorem getRope_wholeHead {config : RopeScaling ℝ} (htype : config.ropeType = .llama3)
    {f : Nat → ℝ} (hpost : config.llama3PostProcess (wholeHead.invFreq .real) = .ok f) :
    getRope .real Real.log 64 64 1 10000 (some config) true =
      .ok { layer := wholeHead, invFreq := fun d => some (f d) } := by
  simp only [getRope, htype, new_wholeHead, hpost, bind, Except.bind, pure, Except.pure]

/-- No wavelength reaches the base of the frequencies. -/
theorem wavelength_lt {d : Nat} (hd : d < 32) : 1 / wholeHead.invFreq .real d < 16384 := by
  have hd : (d : ℝ) ≤ 32 := by exact_mod_cast hd.le
  have hexp : (2 * d : ℝ) / (64 : Nat) ≤ 1 := by
    rw [Nat.cast_ofNat, div_le_one (by norm_num)]
    linarith
  have hpow : (10000 : ℝ) ^ ((2 * d : ℝ) / (64 : Nat)) ≤ 10000 ^ (1 : ℝ) :=
    Real.rpow_le_rpow_of_exponent_le (by norm_num) hexp
  rw [Real.rpow_one] at hpow
  have hwave : 1 / wholeHead.invFreq .real d = (10000 : ℝ) ^ ((2 * d : ℝ) / (64 : Nat)) := by
    simp [RotaryEmbedding.invFreq, wholeHead, Trig.real]
  rw [hwave]
  linarith

/-- So none is in the band, which begins at a quarter of the context. -/
theorem not_inBand_longContext {d : Nat} (hd : d < 32) :
    ¬ longContext.InBand (wholeHead.invFreq .real d) := by
  rintro ⟨oldCtx, hold, hhigh, -⟩
  obtain rfl : 65536 = oldCtx := Option.some.inj hold
  have hquarter : (65536 : ℝ) / longContext.highFreqFactor.getD 4 = 16384 := by
    norm_num [longContext, shortContext]
  rw [hquarter] at hhigh
  exact absurd (wavelength_lt hd) (not_lt.mpr hhigh)

theorem longContext_slowsDown : ∃ rope : ScaledRope ℝ,
    getRope .real Real.log 64 64 1 10000 (some longContext) true = .ok rope ∧
      rope.SlowsDown longContext.scalingFactor := by
  have hband : ¬ (4 : ℝ) ≤ 1 := by norm_num
  have hfactor : ¬ (8 : ℝ) ≤ 1 := by norm_num
  obtain ⟨f, hpost⟩ : ∃ f, longContext.llama3PostProcess (wholeHead.invFreq .real) = .ok f := by
    rw [RopeScaling.llama3PostProcess, scalingFactor_longContext]
    simp [getOr, divOr, longContext, shortContext, hband, hfactor, bind, Except.bind, pure,
      Except.pure]
  have hrope := @getRope_wholeHead longContext rfl _ hpost
  refine ⟨_, hrope, (slowsDown_iff (Or.inl rfl) hrope (by norm_num)
    (by rw [scalingFactor_longContext]; norm_num)).mpr ⟨Or.inl (by norm_num), fun _ => Or.inr ?_,
      fun htype => absurd htype (by decide)⟩⟩
  intro d hd
  have hfreq : wholeHead.invFreq .real d = Trig.real.invPow 10000 d 64 := by
    simp [RotaryEmbedding.invFreq, wholeHead]
  rw [← hfreq]
  exact not_inBand_longContext hd

/-- The pair of wavelength 100 is in the band, and turns eight times as fast. -/
theorem shortContext_speeds_up : ∃ rope : ScaledRope ℝ,
    getRope .real Real.log 64 64 1 10000 (some shortContext) true = .ok rope ∧
      rope.layer.invFreq .real 16 = 1 / 100 ∧ rope.invFreq 16 = some (8 / 100) ∧
      ¬ rope.SlowsDown 8 := by
  have hfreq : wholeHead.invFreq .real 16 = 1 / 100 := by
    have hpow : (10000 : ℝ) ^ ((2 * (16 : Nat) : ℝ) / (64 : Nat)) = 100 := by
      have hhalf : ((2 * (16 : Nat) : ℝ) / (64 : Nat)) = 1 / 2 := by norm_num
      rw [hhalf, ← Real.sqrt_eq_rpow, show (10000 : ℝ) = 100 ^ 2 by norm_num]
      exact Real.sqrt_sq (by norm_num)
    simp only [RotaryEmbedding.invFreq, wholeHead, Trig.real]
    simpa using hpow
  have hpost : shortContext.llama3PostProcess (wholeHead.invFreq .real) =
      .ok fun d => if 256 < 1 / wholeHead.invFreq .real d then wholeHead.invFreq .real d
        else if 1 / wholeHead.invFreq .real d < 64 then wholeHead.invFreq .real d
        else wholeHead.invFreq .real d * 8 := by
    have hband : ¬ (4 : ℝ) ≤ 1 := by norm_num
    have hfactor : ¬ (8 : ℝ) ≤ 1 := by norm_num
    have hquarter : (256 : ℝ) / 4 = 64 := by norm_num
    rw [RopeScaling.llama3PostProcess, scalingFactor_shortContext]
    simp [getOr, divOr, shortContext, hband, hfactor, hquarter, bind, Except.bind, pure,
      Except.pure]
  have hfast : (if 256 < 1 / wholeHead.invFreq .real 16 then wholeHead.invFreq .real 16
      else if 1 / wholeHead.invFreq .real 16 < 64 then wholeHead.invFreq .real 16
      else wholeHead.invFreq .real 16 * 8) = 8 / 100 := by
    rw [hfreq]
    norm_num
  refine ⟨_, getRope_wholeHead rfl hpost, hfreq, congrArg some hfast, ?_⟩
  refine ScaledRope.not_slowsDown (show 16 < wholeHead.half by decide) fun v hv => ?_
  rcases Option.some.inj hv with rfl
  rw [hfast, hfreq]
  norm_num

end FreeToken
