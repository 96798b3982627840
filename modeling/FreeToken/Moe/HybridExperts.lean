import FreeToken.Lib.ReadNumbers
import FreeToken.Lib.Scatter
import FreeToken.Moe.OffloadCache
import Mathlib.Data.Rat.Floor

/-!
# Offloaded and hybrid experts

`_forward_offload` and `_forward_hybrid` of `models/qwen3_5_moe`, with the CPU half of
`kernel/cpu_moe.py` and `moe_forward_core_bf16`, in exact arithmetic and for the dense banks
`gate_up` and `down`. The packed formats are given the fetch fraction `1`. `silu` is any
function. The fetch fraction and what is made of it are floats.
-/

namespace FreeToken

open ScatterAdd

variable {K : Type} [CommRing K]

/-- The projections of an expert. -/
structure ExpertWeights (K : Type) where
  gate : Nat → Nat → K
  up : Nat → Nat → K
  down : Nat → Nat → K

/-- What the layer reads from the model. -/
structure MoeModel (K : Type) where
  silu : K → K
  hidden : Nat
  intermediate : Nat
  isCpuLayer : Bool := false
  fetchFraction : Float.Model := .ofNat 0
  /-- The loader's is `min(1.0, ...)` or `0.0`. -/
  fetchFraction_isNaN : fetchFraction.isNaN = false := by rfl
  maxFetch : Int := -1

/-- The router output: `top_idx` and `top_w`, of `tokens` rows and `topK` columns. -/
structure Routing (K : Type) where
  tokens : Nat
  topK : Nat
  idx : Nat → Nat → Nat
  w : Nat → Nat → K

/-- `top_idx.reshape(-1)`. -/
def Routing.flatIds (r : Routing K) : List Nat :=
  (List.range r.tokens).flatMap fun i => (List.range r.topK).map fun j => r.idx i j

namespace MoeModel

variable (m : MoeModel K)

/-- `down(silu(gate(x)) * up(x))`. -/
def swiglu (weights : ExpertWeights K) (x : Nat → K) : Nat → K := fun o =>
  ∑ i ∈ Finset.range m.intermediate,
    m.silu (∑ h ∈ Finset.range m.hidden, x h * weights.gate i h) *
      (∑ h ∈ Finset.range m.hidden, x h * weights.up i h) * weights.down o i

/-- The rows of a `gate_up` and a `down` bank. -/
def weightsOf (gateUp down : Nat → Nat → K) : ExpertWeights K where
  gate := gateUp
  up := fun i => gateUp (m.intermediate + i)
  down := down

/-- `SlotWeightAccessor`, of a slot. -/
def slotWeights (c : OffloadMoeCache (Nat → Nat → K)) : Except Raised (Nat → ExpertWeights K) :=
  match c.banks with
  | [gateUp, down] => .ok fun s => m.weightsOf (gateUp.cache s) (down.cache s)
  | _ => .error .valueError

/-- The rows of `bank_sources["gate_up"]` and `bank_sources["down"]`, of an expert. -/
def hostWeights (c : OffloadMoeCache (Nat → Nat → K)) (layer : Nat) :
    Except Raised (Nat → ExpertWeights K) :=
  match c.banks.find? fun b => b.name = "gate_up", c.banks.find? fun b => b.name = "down" with
  | some gateUp, some down => .ok fun e => m.weightsOf (gateUp.host layer e) (down.host layer e)
  | _, _ => .error .keyError

/-! ### The offload half -/

/-- `0 <= slot < S`. -/
def slotOf (c : OffloadMoeCache (Nat → Nat → K)) (layer expert : Nat) : Option Nat :=
  (c.slotForId (c.flatId layer expert)).filter fun s => s < c.cacheSize

/-- `groups`: column, slot and row. -/
def groups (c : OffloadMoeCache (Nat → Nat → K)) (layer : Nat) (r : Routing K)
    (exclude : List Nat) : List (Nat × Nat × Nat) :=
  (List.range c.numExperts).flatMap fun e =>
    if e ∈ exclude then []
    else
      match slotOf c layer e with
      | none => []
      | some s => ((places r.tokens r.topK).filter fun p => r.idx p.2 p.1 = e).map fun p =>
          (p.1, s, p.2)

/-- `_forward_offload_core`: the output and the cache. -/
def forwardOffloadCore (c : OffloadMoeCache (Nat → Nat → K)) (layer : Nat) (isPrefill : Bool)
    (flat : Nat → Nat → K) (r : Routing K) (exclude : List Nat) :
    Except Raised ((Nat → Nat → K) × OffloadMoeCache (Nat → Nat → K)) := do
  let c ← if isPrefill then c.materializeLayer layer
    else c.ensureExperts layer (r.flatIds.filter (· ∉ exclude))
  let c ← c.copyMissing
  let weights ← m.slotWeights c
  return (scatterAdd ((groups c layer r exclude).map fun g =>
    (g.2.2, fun o => r.w g.2.2 g.1 * m.swiglu (weights g.2.1) (flat g.2.2) o)), c)

/-- `_forward_offload`. -/
def forwardOffload (c : OffloadMoeCache (Nat → Nat → K)) (layer : Nat) (isPrefill : Bool)
    (flat : Nat → Nat → K) (r : Routing K) :
    Except Raised ((Nat → Nat → K) × OffloadMoeCache (Nat → Nat → K)) :=
  m.forwardOffloadCore c layer isPrefill flat r []

/-! ### The CPU half -/

/-- `moe_forward_core` of a mask, with the weights it is given. -/
def cpuForward (numExperts : Nat) (weights : Nat → ExpertWeights K) (flat : Nat → Nat → K)
    (r : Routing K) (mask : Nat → Bool) : Nat → Nat → K :=
  scatterAdd (keyMajor numExperts r.tokens r.topK r.idx (fun e => mask e = true) fun e j t o =>
    r.w t j * m.swiglu (weights e) (flat t) o)

/-- `round`: to the nearest integer, halves to the even one. -/
def roundHalfEven (q : Rat) : Int :=
  let below := q.floor
  let rest := q - below
  if rest < 1 / 2 then below
  else if 1 / 2 < rest then below + 1
  else if below % 2 = 0 then below
  else below + 1

/-- `n_fetch`. The product of a number of experts and a fraction is finite. -/
def nFetch (n : Nat) : Int :=
  let byFraction := roundHalfEven ((PyFloat.toRat? (.ofNat n * m.fetchFraction)).getD 0)
  let maxFetch := if m.maxFetch = 0 then -1 else m.maxFetch
  let capped := if 0 ≤ maxFetch ∧ maxFetch < byFraction then maxFetch else byFraction
  max 1 (min ((n : Int) - 1) capped)

/-- `cpu_experts`. -/
def cpuExperts (r : Routing K) : List Nat :=
  let seen := OffloadMoeCache.firstSeen r.flatIds
  (seen.insertionSort (· ≤ ·)).take (seen.length - m.nFetch seen.length).toNat

/-- `_forward_hybrid`. `submit` is given no router weights, so they are all `1`. -/
def forwardHybrid (c : OffloadMoeCache (Nat → Nat → K)) (layer : Nat) (isPrefill : Bool)
    (flat : Nat → Nat → K) (r : Routing K) :
    Except Raised ((Nat → Nat → K) × OffloadMoeCache (Nat → Nat → K)) := do
  if m.isCpuLayer then
    let weights ← m.hostWeights c layer
    return (m.cpuForward c.numExperts weights flat r fun _ => true, c)
  else if m.fetchFraction ≤ .ofNat 0 then m.forwardOffload c layer isPrefill flat r
  else if .ofNat 1 ≤ m.fetchFraction then m.forwardOffload c layer isPrefill flat r
  else
    let weights ← m.hostWeights c layer
    let cpuOut := m.cpuForward c.numExperts weights flat { r with w := fun _ _ => 1 }
      fun e => e ∈ m.cpuExperts r
    let (out, c) ← m.forwardOffloadCore c layer isPrefill flat r (m.cpuExperts r)
    return (fun i o => out i o + cpuOut i o, c)

end MoeModel

end FreeToken
