import FreeToken.Lib.Scatter
import FreeToken.Lib.Grouped
import FreeToken.Lib.TopK
import FreeToken.Moe.HybridExperts
import Mathlib.Algebra.Field.Defs

/-!
# Fused MoE

`fused_moe` of `kernel/triton`, in exact arithmetic. The pairs of a token and one of its slots are
sorted by expert and cut into one run for each expert; each run is assigned to the buffer of
contributions, which is allocated with whatever is in the memory. What torch computes of a single
number is a parameter, and so is `torch.topk`, with what it does to ties.
-/

namespace FreeToken

open Assign Grouped

/-- What `fused_moe` raises. -/
inductive FusedMoeError where
  | valueError
  | runtimeError
deriving DecidableEq, Repr

/-- The functions of torch. -/
structure MoeOps (K : Type) [LinearOrder K] where
  exp : K → K
  silu : K → K
  gelu : K → K
  topk : TopK K

/-- `w1` is `[E, 2I, H]` and `w2` is `[E, H, I]`. -/
structure MoeBanks (K : Type) where
  numExperts : Nat
  intermediate : Nat
  hidden : Nat
  w1 : Nat → Nat → Nat → K
  w2 : Nat → Nat → Nat → K

variable {K : Type} [Field K] [LinearOrder K]

/-- An expert on a row: the gate is the first half of its `w1`, and the up projection the second. -/
def MoeBanks.expert (b : MoeBanks K) (f : K → K) (e : Nat) (x : Nat → K) : Nat → K :=
  let m : MoeModel K := { silu := f, hidden := b.hidden, intermediate := b.intermediate }
  m.swiglu (m.weightsOf (b.w1 e) (b.w2 e)) x

/-- `top_w.reshape(-1)`. -/
def Routing.flatWeights (r : Routing K) : List K :=
  (List.range r.tokens).flatMap fun i => (List.range r.topK).map fun j => r.w i j

namespace MoeOps

variable (ops : MoeOps K)

/-- `_act`. -/
def act (activation : String) : Except FusedMoeError (K → K) :=
  if activation ∈ ["silu", "swiglu", "swish"] then .ok ops.silu
  else if activation = "gelu" then .ok ops.gelu
  else if activation = "relu" then .ok fun x => max x 0
  else .error .valueError

/-- `F.softmax` of a row. -/
def softmax (n : Nat) (logits : Nat → K) : Nat → K := fun e =>
  ops.exp (logits e) / ∑ u ∈ Finset.range n, ops.exp (logits u)

/-- The router. -/
def route (numExperts tokens topk : Nat) (renormalize : Bool) (gating : Nat → Nat → K) : Routing K :=
  let gateLog := fun t => ops.softmax numExperts (gating t)
  let topIdx := fun t s => (ops.topk.pick numExperts (gateLog t) topk).getD s 0
  { tokens := tokens
    topK := topk
    idx := topIdx
    w := fun t s =>
      if renormalize then
        gateLog t (topIdx t s) / ∑ s' ∈ Finset.range topk, gateLog t (topIdx t s')
      else gateLog t (topIdx t s) }

variable (b : MoeBanks K) (x : Nat → Nat → K)

/-- The assignments of expert `e`, whose pairs are `pairIds`. -/
def expertWrites (f : K → K) (r : Routing K) (onInput : Bool) (e : Nat) (pairIds : List Nat) :
    List (Nat × (Nat → K)) :=
  pairIds.map fun pair =>
    let weight := r.flatWeights.getD pair 0
    let row := pair / r.topK
    let contrib := b.expert f e fun h => if onInput then x row h * weight else x row h
    (row * r.topK + pair % r.topK, fun o => if onInput then contrib o else contrib o * weight)

/-- The loop over the experts; one that no token goes to is skipped. -/
def moeWrites (r : Routing K) (activation : String) (onInput : Bool) :
    Except FusedMoeError (List (Nat × (Nat → K))) := do
  let flatTok := r.flatIds
  let order := argsort flatTok
  let expSorted := order.map fun pair => flatTok.getD pair 0
  let runs ← (List.range b.numExperts).mapM fun e => do
    let start := searchsorted expSorted e
    let stop := searchsorted expSorted (e + 1)
    if stop = start then return []
    else
      let f ← ops.act activation
      return expertWrites b x f r onInput e ((order.take stop).drop start)
  return runs.flatten

/-- `fused_moe`. -/
def fusedMoe (tokens gatingRows : Nat) (gating : Nat → Nat → K) (topk : Nat) (renormalize : Bool)
    (activation : String) (onInput : Bool) (junk : Nat → Nat → K) :
    Except FusedMoeError (Nat → Nat → K) :=
  if gatingRows ≠ tokens then .error .valueError
  else if b.numExperts < topk then .error .runtimeError
  else do
    let r := ops.route b.numExperts tokens topk renormalize gating
    let writes ← ops.moeWrites b x r activation onInput
    let contribs := written junk writes
    return fun t o => ∑ s ∈ Finset.range topk, contribs (t * topk + s) o

end MoeOps

end FreeToken
