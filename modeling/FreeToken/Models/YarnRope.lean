import FreeToken.Layers.RopeScaling
import Mathlib.Algebra.Order.Floor.Ring

/-!
# YaRN in gpt_oss, mellum and deepseek_v2_lite

Each of the three models computes the frequencies and the attention factor of YaRN by itself,
and multiplies its pairs by a scaled cosine and sine. `deepseek_v2_lite` measures the correction
range by another context length than the other two, and scales the angle.
-/

namespace FreeToken

/-- What a configuration gives for YaRN. A key that it lacks is `none`. -/
structure YarnParams (K : Type) [Field K] [LinearOrder K] where
  rotaryDim : Nat
  base : K
  factor : K
  originalMaxPositionEmbeddings : Nat
  maxPositionEmbeddings : Nat
  betaFast : Option K := none
  betaSlow : Option K := none
  truncate : Bool := true
  attentionFactor : Option K := none
  mscale : Option K := none
  mscaleAllDim : Option K := none
  rotaryDim_pos : 0 < rotaryDim
  rotaryDim_even : rotaryDim % 2 = 0
  base_gt : 1 < base
  factor_gt : 1 < factor
  original_pos : 0 < originalMaxPositionEmbeddings
  maxPosition_pos : 0 < maxPositionEmbeddings

namespace YarnParams

variable {K : Type} [Field K] [LinearOrder K] (trig : Trig K) (log : K → K) (pi : K)
  (p : YarnParams K)

/-- `x or ...`: a zero counts as missing. -/
def truthy (x : Option K) : Option K := x.filter (· ≠ 0)

/-- `rope_scaling.get("beta_fast") or 32`. -/
def fastRotations : K := (truthy p.betaFast).getD (32 : Nat)

/-- `rope_scaling.get("beta_slow") or 1`. -/
def slowRotations : K := (truthy p.betaSlow).getD 1

/-- `get_mscale`. -/
def getMscale (scale m : K) : K :=
  if scale ≤ 1 then 1 else 1 / (10 : Nat) * m * log scale + 1

/-- `attention_factor`. -/
def scaling : Except RopeRaised K :=
  match p.attentionFactor with
  | some attentionFactor => .ok attentionFactor
  | none =>
      match truthy p.mscale, truthy p.mscaleAllDim with
      | some mscale, some mscaleAllDim =>
          divOr (getMscale log p.factor mscale) (getMscale log p.factor mscaleAllDim)
      | _, _ => .ok (getMscale log p.factor 1)

/-- `find_correction_dim`, for a context length. -/
def findCorrectionDim (contextLength : Nat) (numRotations : K) : Except RopeRaised K := do
  let ratio ← divOr (contextLength : K) (numRotations * (2 : Nat) * pi)
  let above ← logOr log ratio
  let below ← logOr log p.base
  divOr (p.rotaryDim * above) ((2 : Nat) * below)

/-- `linear_ramp_factor`. -/
def linearRampFactor (lo hi : K) (i : Nat) : K :=
  let hi := if lo = hi then hi + 1 / (1000 : Nat) else hi
  min (max ((i - lo) / (hi - lo)) 0) 1

variable [FloorRing K]

/-- The ends of the ramp. -/
def correctionRange (contextLength : Nat) : Except RopeRaised (K × K) := do
  let low ← p.findCorrectionDim log pi contextLength p.fastRotations
  let high ← p.findCorrectionDim log pi contextLength p.slowRotations
  let low : K := if p.truncate then ⌊low⌋ else low
  let high : K := if p.truncate then ⌈high⌉ else high
  return (max low 0, min high ((p.rotaryDim : K) - 1))

/-- The blend of the two frequencies of a pair. -/
def blend (ramp : K) (i : Nat) : K :=
  let posFreq := 1 / trig.invPow p.base i p.rotaryDim
  let extrapolation := 1 / posFreq
  let interpolation := 1 / (p.factor * posFreq)
  let extrapFactor := 1 - ramp
  interpolation * (1 - extrapFactor) + extrapolation * extrapFactor

/-- The YaRN parameters for a context length: `inv_freq` and the attention factor. -/
def yarnParameters (contextLength : Nat) : Except RopeRaised ((Nat → K) × K) := do
  let attentionFactor ← p.scaling log
  let (low, high) ← p.correctionRange log pi contextLength
  return (fun i => p.blend trig (linearRampFactor low high i) i, attentionFactor)

/-! ### The models -/

/-- `_yarn_inv_freq_and_scaling` of gpt_oss. -/
def gptOssParameters : Except RopeRaised ((Nat → K) × K) :=
  p.yarnParameters trig log pi p.originalMaxPositionEmbeddings

/-- `_yarn_inv_freq_and_scaling` of mellum. -/
def mellumParameters : Except RopeRaised ((Nat → K) × K) :=
  p.yarnParameters trig log pi p.originalMaxPositionEmbeddings

/-- `yarn_rope_params` of deepseek_v2_lite. Its `original_max_position_embeddings` is not used. -/
def deepseekV2LiteParameters : Except RopeRaised ((Nat → K) × K) :=
  p.yarnParameters trig log pi p.maxPositionEmbeddings

/-- What gpt_oss multiplies a pair by: the cosine and the sine, scaled. -/
def gptOssFactors (pos i : Nat) : Except RopeRaised (K × K) := do
  let (invFreq, attentionScaling) ← p.gptOssParameters trig log pi
  let angle := pos * invFreq i
  return (trig.cos angle * attentionScaling, trig.sin angle * attentionScaling)

/-- What mellum multiplies a pair by. -/
def mellumFactors (pos i : Nat) : Except RopeRaised (K × K) := do
  let (invFreq, attentionScaling) ← p.mellumParameters trig log pi
  let angle := pos * invFreq i
  return (trig.cos angle * attentionScaling, trig.sin angle * attentionScaling)

/-- What deepseek_v2_lite multiplies a pair by: the angle itself is scaled. -/
def deepseekV2LiteFactors (pos i : Nat) : Except RopeRaised (K × K) := do
  let (invFreq, attentionFactor) ← p.deepseekV2LiteParameters trig log pi
  let angle := pos * invFreq i * attentionFactor
  return (trig.cos angle, trig.sin angle)

end YarnParams

end FreeToken
