import FreeToken.Layers.Rotary
import FreeToken.Lib.Except
import Mathlib.Algebra.Order.Field.Basic

/-!
# Context extension of rotary embeddings

`_get_rope` of `layers/rotary.py` with the post-processes of `llama3` and `yarn`, in exact
arithmetic. The logarithm is a parameter. A key that a configuration lacks is `none`.
-/

namespace FreeToken

inductive RopeType where
  | default
  | proportional
  | llama3
  | yarn
  | unknown
deriving DecidableEq, Repr

/-- `rope_scaling`. -/
structure RopeScaling (K : Type) where
  ropeType : RopeType
  originalMaxPositionEmbeddings : Option K := none
  factor : Option K := none
  scaleFactor : Option K := none
  lowFreqFactor : Option K := none
  highFreqFactor : Option K := none
  base : Option K := none
  betaFast : Option K := none
  betaSlow : Option K := none
  mscale : Option K := none

/-- What `_get_rope` builds: the layer, and its frequencies after the post-process, `none` where
one is not finite. -/
structure ScaledRope (K : Type) where
  layer : RotaryEmbedding K
  invFreq : Nat → Option K

section

variable {K : Type} [Field K] [LinearOrder K]

/-- Python's `/`. -/
def divOr (a b : K) : Except RopeRaised K :=
  if b = 0 then .error .zeroDivisionError else .ok (a / b)

/-- `math.log`. -/
def logOr (log : K → K) (x : K) : Except RopeRaised K :=
  if x ≤ 0 then .error .valueError else .ok (log x)

def getOr (x : Option K) : Except RopeRaised K :=
  match x with
  | none => .error .keyError
  | some a => .ok a

namespace RopeScaling

variable (config : RopeScaling K)

/-- `config.get("factor") or config.get("scale_factor") or 1.0`. -/
def scalingFactor : K :=
  let truthy := fun x : Option K => x.filter (· ≠ 0)
  (truthy config.factor).getD ((truthy config.scaleFactor).getD 1)

/-! ### The post-processes -/

/-- `_llama3_post_process`. -/
def llama3PostProcess (invFreq : Nat → K) : Except RopeRaised (Nat → K) := do
  let oldCtx ← getOr config.originalMaxPositionEmbeddings
  let factor := config.scalingFactor
  let low := config.lowFreqFactor.getD 1
  let high := config.highFreqFactor.getD (4 : Nat)
  if factor ≤ 1 ∨ high ≤ low then return invFreq
  else
    let lowWavelength ← divOr oldCtx low
    let highWavelength ← divOr oldCtx high
    return fun d =>
      let f := invFreq d
      if lowWavelength < 1 / f then f
      else if 1 / f < highWavelength then f
      else f * factor

/-- `correction_dim`. -/
def correctionDim (log : K → K) (origCtx base dim x : K) : Except RopeRaised K := do
  let ratio ← divOr origCtx x
  let above ← logOr log ratio
  let below ← logOr log base
  divOr (dim * above) below

/-- `_yarn_post_process`, of `n` frequencies. -/
def yarnPostProcess (log : K → K) (n : Nat) (invFreq : Nat → K) :
    Except RopeRaised (Nat → Option K) := do
  let origCtx ← getOr config.originalMaxPositionEmbeddings
  let factor := config.scalingFactor
  let base := config.base.getD (10000 : Nat)
  let betaFast := config.betaFast.getD (32 : Nat)
  let betaSlow := config.betaSlow.getD 1
  if factor ≤ 1 ∨ betaFast = betaSlow then return fun d => some (invFreq d)
  else
    let dim : K := (n * 2 : Nat)
    let fast ← correctionDim log origCtx base dim betaFast
    let low := max fast 0
    let slow ← correctionDim log origCtx base dim betaSlow
    let high := min slow (dim - 1)
    if low ≤ high then
      return fun d =>
        let idx := d * (dim / n)
        -- a tensor over zero is infinite or not a number
        if high - low = 0 then none
        else
          let smooth := (high - idx) / (high - low)
          some (invFreq d * (1 + smooth * (factor - 1)))
    else return fun d => some (invFreq d)

/-- The attention factor of `yarn`. -/
def yarnAttentionFactor (log : K → K) : Except RopeRaised K := do
  let betaFast := config.betaFast.getD (32 : Nat)
  let betaSlow := config.betaSlow.getD 1
  let mscale ←
    match config.mscale with
    | some mscale => pure mscale
    | none =>
        if betaFast = betaSlow then
          -- `math.log(beta_fast / 32.0) * (beta_fast / (beta_fast - beta_slow))` raises
          if betaFast / (32 : Nat) ≤ 0 then .error .valueError else .error .zeroDivisionError
        else pure 1
  let above ← logOr log (config.factor.getD 1 + 1)
  return 1 / (10 : Nat) * mscale * above + 1

end RopeScaling

/-- `RotaryEmbedding(...)`, up to the post-process. -/
def RotaryEmbedding.new (headSize rotaryDim maxPositionEmbeddings : Nat) (base : K)
    (proportional : Bool) (attentionFactor : K) (isNeox : Bool) :
    Except RopeRaised (RotaryEmbedding K) :=
  if h : (0 < rotaryDim ∧ rotaryDim ≤ headSize) ∧ rotaryDim % 2 = 0 ∧
      headSize ∈ [64, 128, 256, 512] then
    .ok
      { headSize := headSize
        rotaryDim := rotaryDim
        maxPositionEmbeddings := maxPositionEmbeddings
        base := base
        proportional := proportional
        attentionFactor := attentionFactor
        isNeox := isNeox
        rotaryDim_pos := h.1.1
        rotaryDim_le := h.1.2
        rotaryDim_even := h.2.1
        headSize_valid := h.2.2 }
  else .error .assertionError

/-- `_get_rope`. -/
def getRope (trig : Trig K) (log : K → K) (headDim rotaryDim maxPosition : Nat) (base : K)
    (ropeScaling : Option (RopeScaling K)) (isNeox : Bool) :
    Except RopeRaised (ScaledRope K) :=
  match ropeScaling with
  | none => do
      let layer ← RotaryEmbedding.new headDim rotaryDim maxPosition base false 1 isNeox
      return { layer := layer, invFreq := fun d => some (layer.invFreq trig d) }
  | some config =>
      match config.ropeType with
      | .default => do
          let layer ← RotaryEmbedding.new headDim rotaryDim maxPosition base false 1 isNeox
          return { layer := layer, invFreq := fun d => some (layer.invFreq trig d) }
      | .proportional => do
          let layer ← RotaryEmbedding.new headDim rotaryDim maxPosition base true 1 isNeox
          return { layer := layer, invFreq := fun d => some (layer.invFreq trig d) }
      | .llama3 => do
          let layer ← RotaryEmbedding.new headDim rotaryDim maxPosition base false 1 isNeox
          let invFreq ← config.llama3PostProcess (layer.invFreq trig)
          return { layer := layer, invFreq := fun d => some (invFreq d) }
      | .yarn => do
          let attentionFactor ← config.yarnAttentionFactor log
          let layer ← RotaryEmbedding.new headDim rotaryDim maxPosition base false attentionFactor
            isNeox
          let invFreq ← config.yarnPostProcess log layer.numFreqs (layer.invFreq trig)
          return { layer := layer, invFreq := invFreq }
      | .unknown => .error .valueError

end

end FreeToken
