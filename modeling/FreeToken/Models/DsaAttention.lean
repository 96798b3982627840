import FreeToken.Lib.TopK
import FreeToken.Engine.Step

/-!
# Sparse attention by an indexer

The attention layers of `models/deepseek_v4` and `models/glm_moe_dsa` as far as what a query attends
to: an indexer scores the keys of the request for each query, and the query attends to the best of
them. The scores are any function, and `torch.topk` a parameter, with what it does to ties. In
`glm_moe_dsa` the layers hand the picks on, and a shared layer has no indexer of its own.
-/

namespace FreeToken

open TopK

variable {H K : Type} [LinearOrder K]

inductive DsaError where
  | indexError
  | runtimeError
  | valueError (message : String)
deriving DecidableEq, Repr

/-- `req_written_len`, of either model. -/
def reqWrittenLen (batch : Batch) (tableIdx : Nat) : Except DsaError Int :=
  match (batch.reqs.find? fun req => req.tableIdx = tableIdx).or batch.reqs.head? with
  | none => .error .indexError
  | some req =>
      .ok (match batch.phase with
        | .decode => req.deviceLen
        | .prefill => req.cachedLen + req.extendLen)

/-- `torch.arange(written)`, by its length. -/
def readPos (written : Int) : Except DsaError Nat :=
  if written < 0 then .error .runtimeError else .ok written.toNat

/-- `topk_idx`: the picks of each query among the keys, those after it masked. -/
def dsaTopk (T : TopK (WithBot K)) (indexTopk written : Nat) (indexScores : Nat → Nat → K)
    (positions : List Nat) : List (List Nat) :=
  positions.zipIdx.map fun (position, t) =>
    T.pick written (masked (fun j => j ≤ position) (indexScores t)) (min indexTopk written)

/-- `index_mask.scatter_(1, topk_idx, True)`, on a mask that is false. -/
def scatterMask (written : Nat) (topkIdx : List (List Nat)) : Except DsaError (List (List Bool)) :=
  if ∀ picks ∈ topkIdx, ∀ j ∈ picks, j < written then
    .ok (topkIdx.map fun picks => (List.range written).map fun j => decide (j ∈ picks))
  else .error .runtimeError

/-- The keys that `allowed` leaves to each query. -/
def allowed (written : Nat) (positions : List Nat) (indexMask : Option (List (List Bool))) :
    List (Finset Nat) :=
  positions.zipIdx.map fun (position, t) =>
    (Finset.range written).filter fun j =>
      (decide (j ≤ position) && indexMask.all fun mask => (mask.getD t []).getD j false) = true

/-! ### `deepseek_v4` -/

/-- `_DeepseekV4MLA.forward`: what the queries of a request's slice attend to. `index_topk` is 0 where
the config has none. -/
def deepseekV4Attends (T : TopK (WithBot K)) (indexTopk : Nat) (indexScores : Nat → Nat → K)
    (batch : Batch) (s : Slice) : Except DsaError (List (Finset Nat)) := do
  let written ← readPos (← reqWrittenLen batch s.tableIdx)
  if indexTopk = 0 then return allowed written s.positions none
  else
    let topkIdx := dsaTopk T indexTopk written indexScores s.positions
    let indexMask ← scatterMask written topkIdx
    return allowed written s.positions (some indexMask)

/-! ### `glm_moe_dsa` -/

/-- A decoder layer over a request's slice, `H` its hidden states. -/
structure DsaLayer (H K : Type) where
  layerId : Nat
  /-- `indexer_types[layer_id] == "shared"`. -/
  skipTopk : Bool
  /-- `index_scores`, of a query of the slice and the key at a position. -/
  indexScores : H → Nat → Nat → K
  /-- The hidden states after the layer, by what its queries attend to. -/
  output : H → List (Finset Nat) → H

/-- The error of a shared layer that no full one precedes. -/
def noPrevTopk (layerId : Nat) : DsaError :=
  .valueError ("Layer " ++ toString layerId ++ " is a DSA \"shared\" indexer layer but received no " ++
    "prev_topk_indices from a previous \"full\" layer -- indexer_types is malformed.")

/-- `_GlmMoeDsaMLA.forward`: what the queries attend to, and the picks for the next layer. -/
def DsaLayer.forward (T : TopK (WithBot K)) (indexTopk : Nat) (batch : Batch) (s : Slice)
    (layer : DsaLayer H K) (hidden : H) (prevTopkIndices : Option (List (List Nat))) :
    Except DsaError (List (Finset Nat) × Option (List (List Nat))) := do
  let written ← readPos (← reqWrittenLen batch s.tableIdx)
  if indexTopk = 0 then return (allowed written s.positions none, prevTopkIndices)
  else
    let topkIndices ←
      if layer.skipTopk then
        match prevTopkIndices with
        | some topkIndices => .ok topkIndices
        | none => .error (noPrevTopk layer.layerId)
      else .ok (dsaTopk T indexTopk written (layer.indexScores hidden) s.positions)
    let indexMask ← scatterMask written topkIndices
    return (allowed written s.positions (some indexMask), some topkIndices)

/-- The loop over the layers: with what hidden states each was run, and what its queries attended to. -/
def glmMoeDsaLayers (T : TopK (WithBot K)) (indexTopk : Nat) (batch : Batch) (s : Slice) :
    List (DsaLayer H K) → H → Option (List (List Nat)) →
      Except DsaError (List (H × List (Finset Nat)))
  | [], _, _ => .ok []
  | layer :: layers, hidden, topkIndices => do
      let (attended, topkIndices) ← layer.forward T indexTopk batch s hidden topkIndices
      let reports ← glmMoeDsaLayers T indexTopk batch s layers (layer.output hidden attended) topkIndices
      return (hidden, attended) :: reports

/-- `GlmMoeDsaForCausalLM.forward`, for one request of the batch. -/
def glmMoeDsaForward (T : TopK (WithBot K)) (indexTopk : Nat) (batch : Batch) (s : Slice)
    (layers : List (DsaLayer H K)) (hidden : H) : Except DsaError (List (H × List (Finset Nat))) :=
  glmMoeDsaLayers T indexTopk batch s layers hidden none

end FreeToken
