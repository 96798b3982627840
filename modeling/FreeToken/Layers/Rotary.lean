import Mathlib.Algebra.Ring.Defs
import Mathlib.Tactic.Common

/-!
# Rotary embeddings

`RotaryEmbedding` of `layers/rotary.py`, in exact arithmetic: the frequencies, the cache of
cosines and sines, and the rotation of the heads of a query and a key. The trigonometric
functions are parameters. A tensor is a function of its indices, and its shape is kept apart.
-/

namespace FreeToken

/-- The functions that a layer is computed with. -/
structure Trig (K : Type) where
  cos : K → K
  sin : K → K
  /-- `1.0 / base ** (2 * d / n)`, of `base`, `d` and `n`. -/
  invPow : K → Nat → Nat → K

/-- The arguments of `RotaryEmbedding`, as its assertions let them through. -/
structure RotaryEmbedding (K : Type) where
  headSize : Nat
  rotaryDim : Nat
  maxPositionEmbeddings : Nat
  base : K
  proportional : Bool := false
  attentionFactor : K
  isNeox : Bool := true
  rotaryDim_pos : 0 < rotaryDim
  rotaryDim_le : rotaryDim ≤ headSize
  rotaryDim_even : rotaryDim % 2 = 0
  headSize_valid : headSize ∈ [64, 128, 256, 512]

inductive RopeRaised where
  | assertionError
  | indexError
  | keyError
  | runtimeError
  | valueError
  | zeroDivisionError
deriving DecidableEq, Repr

namespace RotaryEmbedding

variable {K : Type} (layer : RotaryEmbedding K)

def half : Nat := layer.rotaryDim / 2

/-- `inv_freq.shape[0]`. -/
def numFreqs : Nat := if layer.proportional then layer.headSize / 2 else layer.half

section

variable [CommRing K] (trig : Trig K)

/-- `inv_freq`. The proportional one spans the head, with zeros behind the rotary part. -/
def invFreq (d : Nat) : K :=
  if layer.proportional then
    if layer.rotaryDim < layer.headSize ∧ layer.half ≤ d then 0
    else trig.invPow layer.base d layer.headSize
  else trig.invPow layer.base d layer.rotaryDim

/-- A row of `_cos_sin_cache`: the cosines, and the sines behind them. -/
def cosSinCache (pos j : Nat) : K :=
  if j < layer.numFreqs then trig.cos (pos * layer.invFreq trig j) * layer.attentionFactor
  else trig.sin (pos * layer.invFreq trig (j - layer.numFreqs)) * layer.attentionFactor

/-! ### The rotation -/

/-- The width of the product of two rows, where they broadcast. -/
def broadcast (a b : Nat) : Option Nat :=
  if a = b then some a
  else if a = 1 then some b
  else if b = 1 then some a
  else none

/-- The shapes that `_rotate` goes through. -/
def rotateShapes : Except RopeRaised Unit :=
  let width := if layer.isNeox then layer.half else layer.headSize / 2
  match broadcast width layer.half with
  | none => .error .runtimeError
  | some width =>
      if layer.isNeox then .ok ()
      -- `reshape(*x.shape[:-1], half, 2)`, and back to the shape of the head
      else if 2 * width ≠ layer.half * 2 then .error .runtimeError
      else if layer.half * 2 ≠ layer.headSize then .error .runtimeError
      else .ok ()

/-- `_rotate`, of a head. -/
def rotate (cos sin x : Nat → K) (k : Nat) : K :=
  let half := layer.half
  let x0 := fun d => if layer.isNeox then x d else x (2 * d)
  let x1 := fun d => if layer.isNeox then x (half + d) else x (2 * d + 1)
  let out0 := fun d => x0 d * cos d - x1 d * sin d
  let out1 := fun d => x1 d * cos d + x0 d * sin d
  let cat := fun j => if j < half then out0 j else out1 (j - half)
  if layer.isNeox then if k < layer.rotaryDim then cat k else x k
  else cat (2 * (k % half) + k / half)

/-- `_apply`, of the query or of the key: by token and head. -/
def apply (positions : List Nat) (x : Nat → Nat → Nat → K) :
    Except RopeRaised (Nat → Nat → Nat → K) :=
  if positions.length = 0 then .ok x
  else if ∃ pos ∈ positions, layer.maxPositionEmbeddings ≤ pos then .error .indexError
  else
    match layer.rotateShapes with
    | .error raised => .error raised
    | .ok _ => .ok fun t h =>
        let row := layer.cosSinCache trig (positions.getD t 0)
        layer.rotate row (fun d => row (layer.half + d)) (x t h)

/-- `forward`. -/
def forward (positions : List Nat) (query key : Nat → Nat → Nat → K) :
    Except RopeRaised ((Nat → Nat → Nat → K) × (Nat → Nat → Nat → K)) := do
  let query ← layer.apply trig positions query
  let key ← layer.apply trig positions key
  return (query, key)

end

end RotaryEmbedding

end FreeToken
