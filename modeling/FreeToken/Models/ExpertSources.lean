import FreeToken.Models.QuantExperts

/-!
# Expert banks of a bf16 checkpoint

`stream_moe_expert_sources`. A layer's bank arrives packed or one matrix at a time; matrices are
buffered by layer and projection, and a layer whose three buffers are full is fused into both of its
banks.
-/

namespace FreeToken.Experts

variable {α β : Type}

/-- `banks` and `per_expert` have an entry where the lists of the code have one that is not empty. -/
structure SourceState (α : Type) where
  banks : Dict (Nat × Bank) (Tensor α)
  rowShape : Dict Bank (List Nat)
  seen : List (Bank × Nat)
  perExpert : Dict (Nat × Proj) (Dict Nat (Tensor α))

namespace SourceState

def empty : SourceState α := ⟨Dict.empty, Dict.empty, [], Dict.empty⟩

/-- `per_expert[bucket][layer]`. -/
def rows (st : SourceState α) (layer : Nat) (p : Proj) : Dict Nat (Tensor α) :=
  (st.perExpert.get? (layer, p)).getD Dict.empty

end SourceState

/-- `row_shape.setdefault(bank_name, shape)`, which has to be `shape`. -/
def checkRowShape (st : SourceState α) (bank : Bank) (shape : List Nat) :
    Except ExpertError (SourceState α) :=
  let expected := (st.rowShape.get? bank).getD shape
  if shape ≠ expected then .error (.inconsistentShape bank shape expected)
  else .ok { st with rowShape := st.rowShape.set bank expected }

/-- `bank.tensor.copy_(tensor)` into the layer's bank, a new one of the tensor's shape at first. -/
def copyIntoBank (old : Option (Tensor α)) (tensor : Tensor α) : Except ExpertError (Tensor α) :=
  match old with
  | none => .ok tensor
  | some old =>
      match Tensor.broadcastTo old.shape tensor with
      | some t => .ok t
      | none => .error .torch

/-- `_copy_expert_layer_into_bank`. -/
def copyExpertLayerIntoBank (config : MoeConfig) (st : SourceState α) (bank : Bank)
    (tensor : Tensor α) (layer : Int) : Except ExpertError (SourceState α) :=
  checkLayer config layer >>= fun l =>
    match tensor.shape with
    | [] => .error .torch
    | count :: shape =>
        if count ≠ config.numExperts then .error (.expertCount bank count)
        else
          checkRowShape st bank shape >>= fun st =>
            copyIntoBank (st.banks.get? (l, bank)) tensor >>= fun t =>
              .ok { st with banks := st.banks.set (l, bank) t, seen := (bank, l) :: st.seen }

/-- `_buffer_expert_row`, after which the layer is seen. -/
def bufferExpertRow (config : MoeConfig) (st : SourceState α) (p : Proj) (tensor : Tensor α)
    (layer expert : Int) : Except ExpertError (Nat × SourceState α) :=
  checkLayer config layer >>= fun l =>
    checkExpert config layer expert >>= fun e =>
      checkRowShape st p.bank tensor.shape >>= fun st =>
        if ((st.rows l p).get? e).isSome then .error (.duplicateRow l e p)
        else .ok (l, { st with
          perExpert := st.perExpert.set (l, p) ((st.rows l p).set e tensor)
          seen := (p.bank, l) :: st.seen })

/-- `_stack_expert_rows([rows[e] for e in range(num_experts)])`. -/
def stackRows (config : MoeConfig) (layer : Nat) (rows : Nat → Option (Tensor α)) :
    Except ExpertError (Tensor α) :=
  ((List.range config.numExperts).mapM fun e =>
    match rows e with
    | some t => .ok t
    | none => .error (.missingComponents layer e)) >>= stackExpertRows

/-- The two banks of a layer, from its matrices. -/
def fuseLayer (config : MoeConfig) (layer : Nat) (rows : Proj → Nat → Option (Tensor α)) :
    Except ExpertError (Tensor α × Tensor α) := do
  let gateBank ← stackRows config layer (rows .gateProj)
  let upBank ← stackRows config layer (rows .upProj)
  let downBank ← stackRows config layer (rows .downProj)
  let gateUp ← torchCat 1 gateBank upBank
  pure (gateUp, downBank)

/-- `_maybe_finalize_layer`. -/
def maybeFinalizeLayer (config : MoeConfig) (st : SourceState α) (layer : Nat) :
    Except ExpertError (SourceState α) :=
  if (st.banks.get? (layer, .gateUp)).isSome ∧ (st.banks.get? (layer, .down)).isSome then .ok st
  else if (st.rows layer .gateProj).entries.length < config.numExperts ∨
      (st.rows layer .upProj).entries.length < config.numExperts ∨
      (st.rows layer .downProj).entries.length < config.numExperts then .ok st
  else
    fuseLayer config layer (fun p => (st.rows layer p).get?) >>= fun (gateUp, down) =>
      .ok { st with
        banks := (st.banks.set (layer, .gateUp) gateUp).set (layer, .down) down
        perExpert := ((st.perExpert.set (layer, .gateProj) Dict.empty).set (layer, .upProj)
          Dict.empty).set (layer, .downProj) Dict.empty }

/-- One tensor of the stream. -/
def addSource (config : MoeConfig) (st : SourceState α) (item : String × Tensor α) :
    Except ExpertError (SourceState α) :=
  expertSourceInfo item.1 >>= fun
    | none => .error (.unexpectedKey item.1)
    | some (.packed layer bank) => copyExpertLayerIntoBank config st bank item.2 layer
    | some (.row layer p expert) =>
        bufferExpertRow config st p item.2 layer expert >>= fun (l, st) =>
          maybeFinalizeLayer config st l

/-- `expected_layers`. -/
def MoeConfig.moeLayers (config : MoeConfig) : List Nat :=
  (List.range config.numLayers).drop config.firstKDenseReplace

/-- The layers of one bank that were seen. -/
def SourceState.seenLayers (st : SourceState α) (bank : Bank) : List Nat :=
  (st.seen.filter fun s => s.1 = bank).map Prod.snd

/-- `missing`: the banks that were not seen in just the expected layers. -/
def missingLayers (config : MoeConfig) (st : SourceState α) : List (Bank × List Nat) :=
  [Bank.gateUp, Bank.down].filterMap fun bank =>
    let seen := st.seenLayers bank
    if seen ⊆ config.moeLayers ∧ config.moeLayers ⊆ seen then none
    else some (bank, config.moeLayers.filter (· ∉ seen))

/-- `banks[bank_name][layer].tensor`. -/
def bankAt (st : SourceState α) (bank : Bank) (layer : Nat) : Except ExpertError (Tensor α) :=
  match st.banks.get? (layer, bank) with
  | some t => .ok t
  | none => .error .noBank

/-- The banks of the layers from `first_dense` on. -/
def sourceBanks (config : MoeConfig) (st : SourceState α) (bank : Bank) :
    Except ExpertError (List (Tensor α)) :=
  config.moeLayers.mapM (bankAt st bank)

/-- What is returned at the end of the stream. -/
def returnSources (config : MoeConfig) (st : SourceState α) :
    Except ExpertError (List (Tensor α) × List (Tensor α)) :=
  if missingLayers config st ≠ [] then .error (.missingLayers (missingLayers config st))
  else
    (List.range config.numLayers).foldlM (maybeFinalizeLayer config) st >>= fun st => do
      let gateUp ← sourceBanks config st .gateUp
      let down ← sourceBanks config st .down
      pure (gateUp, down)

/-- The banks from tensors that have the banks' dtype. -/
def assembleSources (config : MoeConfig) (tensors : List (String × Tensor α)) :
    Except ExpertError (List (Tensor α) × List (Tensor α)) :=
  tensors.foldlM (addSource config) SourceState.empty >>= returnSources config

/-- `stream_moe_expert_sources`; `cast` is what `to(dtype=dtype)` does to an element. -/
def streamMoeExpertSources (config : MoeConfig) (cast : α → β) (tensors : List (String × Tensor α)) :
    Except ExpertError (List (Tensor β) × List (Tensor β)) :=
  assembleSources config (tensors.map fun item => (item.1, item.2.map cast))

end FreeToken.Experts
