import FreeToken.Models.ShortConv
import Mathlib.Algebra.Field.Defs

/-!
# The gated delta net

`_GatedDeltaNet` of `models/qwen3_5_moe`, with a slot of the linear-state pool, in exact
arithmetic and with any functions as activations. A call is on one or more tokens of a request;
it raises when the ring is not of the shape of what is copied into it.
-/

namespace FreeToken

/-- The functions that are applied to single numbers. -/
structure Activations (K : Type) where
  silu : K → K
  sigmoid : K → K
  softplus : K → K
  exp : K → K
  rsqrt : K → K

/-- The shape of a layer, with value heads for each key head and a ring that can be made. -/
structure DeltaNetShape where
  hidden : Nat
  numKHeads : Nat
  numVHeads : Nat
  headKDim : Nat
  headVDim : Nat
  convKernel : Nat
  numKHeads_dvd : numKHeads ∣ numVHeads
  numVHeads_pos : 0 < numVHeads
  convKernel_pos : 0 < convKernel

namespace DeltaNetShape

variable (sh : DeltaNetShape)

def keyDim : Nat := sh.headKDim * sh.numKHeads

def valueDim : Nat := sh.headVDim * sh.numVHeads

def convDim : Nat := sh.keyDim * 2 + sh.valueDim

def groupRatio : Nat := if sh.numKHeads ≠ 0 then sh.numVHeads / sh.numKHeads else 1

end DeltaNetShape

/-- `_GatedDeltaNet`, with its parameters. -/
structure GatedDeltaNet (K : Type) (sh : DeltaNetShape) where
  act : Activations K
  eps : K
  l2Eps : K
  /-- `1.0 / (KD**0.5)` -/
  scale : K
  inProjQkv : Linear K sh.hidden sh.convDim
  inProjZ : Linear K sh.hidden sh.valueDim
  inProjB : Linear K sh.hidden sh.numVHeads
  inProjA : Linear K sh.hidden sh.numVHeads
  outProj : Linear K sh.valueDim sh.hidden
  convWeight : Fin sh.convDim → Fin sh.convKernel → K
  dtBias : Nat → K
  aLog : Nat → K
  normWeight : Nat → K

/-- `_LinearStateSlot`. -/
structure LinearStateSlot (K : Type) (sh : DeltaNetShape) where
  state : Nat → Nat → Nat → K
  convState : Ring K sh.convDim sh.convKernel

/-- What the delta rule reads of a token, by value head. -/
structure DeltaToken (K : Type) where
  q : Nat → Nat → K
  k : Nat → Nat → K
  v : Nat → Nat → K
  g : Nat → K
  beta : Nat → K

/-- `xs[-n:]`, which is all of `xs` for `n = 0`. -/
def fromLast {α : Type} (n : Nat) (xs : List α) : List α :=
  if n = 0 then xs else SlidingWindow.lastN n xs

/-- `ring.copy_(src)`: one column is broadcast, any other wrong number of them raises. -/
def copyRing {K : Type} {width kernelSize : Nat} (src : List (Column K width)) :
    Option (Ring K width kernelSize) :=
  if h : src.length = kernelSize - 1 then some ⟨src, h⟩
  else
    match src with
    | [column] => some ⟨List.replicate (kernelSize - 1) column, List.length_replicate⟩
    | _ => none

/-- The number at an index of a column. -/
def Column.at {K : Type} [Zero K] {n : Nat} (x : Column K n) (i : Nat) : K :=
  if h : i < n then x ⟨i, h⟩ else 0

namespace GatedDeltaNet

variable {K : Type} [Field K] {sh : DeltaNetShape} (net : GatedDeltaNet K sh)

/-- `_conv`: the activated outputs and the ring. -/
def conv (mixed : List (Column K sh.convDim)) (ring : Ring K sh.convDim sh.convKernel) :
    Option (List (Column K sh.convDim) × Ring K sh.convDim sh.convKernel) :=
  let seq := ring.1 ++ mixed
  let out := (fromLast mixed.length (conv1d net.convWeight none seq)).map fun column c =>
    net.act.silu (column c)
  if 0 < mixed.length then
    (copyRing (fromLast (sh.convKernel - 1) seq)).map fun ring => (out, ring)
  else some (out, ring)

/-- `_l2norm`, over `n` numbers. -/
def l2norm (n : Nat) (x : Nat → K) : Nat → K := fun d =>
  x d * net.act.rsqrt ((∑ i ∈ Finset.range n, x i * x i) + net.l2Eps)

/-- `repeat(1, group_ratio, 1)`. -/
def tiled (sh : DeltaNetShape) (x : Nat → Nat → K) : Nat → Nat → K :=
  if 1 < sh.groupRatio then fun h => x (h % sh.numKHeads) else x

/-- The split of the convolved token `c`, with the decay and `beta` of the token `x`. -/
def deltaToken (x : Column K sh.hidden) (c : Column K sh.convDim) : DeltaToken K where
  q := tiled sh fun h d => c.at (h * sh.headKDim + d)
  k := tiled sh fun h d => c.at (sh.keyDim + (h * sh.headKDim + d))
  v := fun h d => c.at (sh.keyDim + sh.keyDim + (h * sh.headVDim + d))
  g := fun h => -net.act.exp (net.aLog h) *
    net.act.softplus ((net.inProjA.apply x).at h + net.dtBias h)
  beta := fun h => net.act.sigmoid ((net.inProjB.apply x).at h)

/-- One pass of the loop of `_delta_rule`: the output, and the state. -/
def deltaStep (t : DeltaToken K) (s : Nat → Nat → Nat → K) :
    (Nat → Nat → K) × (Nat → Nat → Nat → K) :=
  let q := fun h d => net.l2norm sh.headKDim (t.q h) d * net.scale
  let k := fun h => net.l2norm sh.headKDim (t.k h)
  let s := fun h i d => s h i d * net.act.exp (t.g h)
  let kvMem := fun h d => ∑ i ∈ Finset.range sh.headKDim, s h i d * k h i
  let delta := fun h d => (t.v h d - kvMem h d) * t.beta h
  let s := fun h i d => s h i d + k h i * delta h d
  (fun h d => ∑ i ∈ Finset.range sh.headKDim, s h i d * q h i, s)

/-- `_RMSNormGated`, of a value head. -/
def norm (core gate : Nat → K) : Nat → K := fun d =>
  let variance := (∑ i ∈ Finset.range sh.headVDim, core i * core i) / sh.headVDim
  net.normWeight d * (core d * net.act.rsqrt (variance + net.eps)) * net.act.silu (gate d)

/-- The gated norm and `out_proj`. -/
def output (x : Column K sh.hidden) (core : Nat → Nat → K) : Column K sh.hidden :=
  let z := net.inProjZ.apply x
  net.outProj.apply fun i =>
    net.norm (core (i / sh.headVDim)) (fun d => z.at (i / sh.headVDim * sh.headVDim + d))
      (i % sh.headVDim)

/-- `forward`, on the slot of the request. -/
def forward (xs : List (Column K sh.hidden)) (slot : LinearStateSlot K sh) :
    Option (List (Column K sh.hidden) × LinearStateSlot K sh) := do
  let (convolved, ring) ← net.conv (xs.map net.inProjQkv.apply) slot.convState
  let (core, state) := Sweep.loop net.deltaStep (List.zipWith net.deltaToken xs convolved) slot.state
  return (List.zipWith net.output xs core, { state := state, convState := ring })

/-- Calls one after the other on a slot, with their outputs joined. -/
def calls : List (List (Column K sh.hidden)) → LinearStateSlot K sh →
    Option (List (Column K sh.hidden) × LinearStateSlot K sh)
  | [], slot => some ([], slot)
  | xs :: chunks, slot => do
      let (out, slot) ← net.forward xs slot
      let (outs, slot) ← calls chunks slot
      return (out ++ outs, slot)

end GatedDeltaNet

end FreeToken
