import FreeToken.Lib.Assembly
import FreeToken.Lib.Except
import FreeToken.Lib.Tensor
import FreeToken.Models.ExpertKeys

/-!
# Banks of quantized experts

The streamers of `models/weight.py` for GPTQ, block-FP8, INT8 and MXFP4 checkpoints. Each buffers
the tensors of a bank until all of them have come and then builds it. A tensor is its shape and its
elements; of an element only `int(t.item())` is read.
-/

namespace FreeToken.Experts

/-- One tensor of one expert. -/
structure ExpertSlot (κ : Type) where
  expert : Nat
  proj : Proj
  component : κ
deriving DecidableEq

variable {α κ β σ : Type}

/-! ### Building a bank -/

/-- `torch.cat([a, b], dim=d)`. -/
def torchCat (d : Nat) (a b : Tensor α) : Except ExpertError (Tensor α) :=
  match Tensor.cat d [a, b] with
  | some t => .ok t
  | none => .error .torch

/-- `_stack_expert_rows`. -/
def stackExpertRows : List (Tensor α) → Except ExpertError (Tensor α)
  | [] => .error .noRows
  | first :: rest =>
      if first.dim ≠ 2 then .error (.notMatrix first.dim)
      else if rest.any fun r => r.dim ≠ 2 || r.shape ≠ first.shape then .error .rowShapes
      else
        match Tensor.cat 0 ((first :: rest).map Tensor.unsqueeze) with
        | some t => .ok t
        | none => .error .torch

section Slots

variable (slots : ExpertSlot κ → Option (Tensor α)) (layer : Nat)

/-- `by_expert[e][proj][component]`. -/
def component (e : Nat) (p : Proj) (c : κ) : Except ExpertError (Tensor α) :=
  match slots ⟨e, p, c⟩ with
  | some t => .ok t
  | none => .error (.missingComponents layer e)

/-- One expert's tensor: gate and up are fused along `d`, down stays as it is. -/
def fused (d : Nat) (bank : Bank) (e : Nat) (c : κ) : Except ExpertError (Tensor α) :=
  match bank with
  | .gateUp => do
      let gate ← component slots layer e .gateProj c
      let up ← component slots layer e .upProj c
      torchCat d gate up
  | .down => component slots layer e .downProj c

end Slots

structure GptqExpertBank (α : Type) where
  qweight : Tensor α
  qzeros : Tensor α
  scales : Tensor α
  gIdx : Tensor α

/-- The group index of one expert, which gate and up share. -/
def gptqGroupIndex [DecidableEq α] (slots : ExpertSlot GptqComponent → Option (Tensor α))
    (layer : Nat) (bank : Bank) (e : Nat) : Except ExpertError (Tensor α) :=
  match bank with
  | .gateUp => do
      let gate ← component slots layer e .gateProj .gIdx
      let up ← component slots layer e .upProj .gIdx
      if gate.equal up then pure gate else throw (.gIdxMismatch layer e)
  | .down => component slots layer e .downProj .gIdx

/-- One of the `per_expert_rows`. -/
def gptqRow [DecidableEq α] (slots : ExpertSlot GptqComponent → Option (Tensor α)) (layer : Nat)
    (bank : Bank) (e : Nat) : Except ExpertError (GptqExpertBank α) := do
  let gIdx ← gptqGroupIndex slots layer bank e
  let qweight ← fused slots layer 1 bank e .qweight
  let qzeros ← fused slots layer 1 bank e .qzeros
  let scales ← fused slots layer 1 bank e .scales
  pure ⟨qweight, qzeros, scales, gIdx⟩

/-- `_finalize_gptq_bank`. -/
def finalizeGptqBank [DecidableEq α] (numExperts layer : Nat) (bank : Bank)
    (slots : ExpertSlot GptqComponent → Option (Tensor α)) :
    Except ExpertError (GptqExpertBank α) := do
  let rows ← (List.range numExperts).mapM (gptqRow slots layer bank)
  match rows with
  | [] => throw .noRows
  | first :: rest =>
      match (rest.zipIdx 1).find? fun row => !row.1.gIdx.equal first.gIdx with
      | some (_, e) => throw (.gIdxDiffers layer e)
      | none =>
          let qweight ← stackExpertRows (rows.map (·.qweight))
          let qzeros ← stackExpertRows (rows.map (·.qzeros))
          let scales ← stackExpertRows (rows.map (·.scales))
          pure ⟨qweight, qzeros, scales, first.gIdx⟩

structure Fp8BlockExpertBank (α : Type) where
  weight : Tensor α
  weightScaleInv : Tensor α

/-- Blocks of rows of gate and up stay whole where gate has a multiple of `block` rows. -/
def checkFp8Rows (slots : ExpertSlot Fp8Component → Option (Tensor α)) (block layer : Nat)
    (bank : Bank) (e : Nat) : Except ExpertError Unit :=
  match bank with
  | .gateUp => do
      let gate ← component slots layer e .gateProj .weight
      let _ ← component slots layer e .upProj .weight
      match gate.shape with
      | [] => throw .torch
      | n :: _ =>
          if block = 0 then throw .torch
          else if n % block ≠ 0 then throw (.notMultiple layer e n block)
          else pure ()
  | .down => pure ()

def fp8Row (slots : ExpertSlot Fp8Component → Option (Tensor α)) (block layer : Nat) (bank : Bank)
    (e : Nat) : Except ExpertError (Fp8BlockExpertBank α) := do
  checkFp8Rows slots block layer bank e
  let weight ← fused slots layer 0 bank e .weight
  let weightScaleInv ← fused slots layer 0 bank e .weightScaleInv
  pure ⟨weight, weightScaleInv⟩

/-- `_finalize_fp8_bank`. -/
def finalizeFp8Bank (block numExperts layer : Nat) (bank : Bank)
    (slots : ExpertSlot Fp8Component → Option (Tensor α)) :
    Except ExpertError (Fp8BlockExpertBank α) := do
  let rows ← (List.range numExperts).mapM (fp8Row slots block layer bank)
  let weight ← stackExpertRows (rows.map (·.weight))
  let weightScaleInv ← stackExpertRows (rows.map (·.weightScaleInv))
  pure ⟨weight, weightScaleInv⟩

structure Int8ExpertBank (α : Type) where
  weightPacked : Tensor α
  weightScale : Tensor α
  k : Int

/-- `_int8_logical_k`. -/
def int8LogicalK (item : α → Int) (weightShape : Tensor α) : Except ExpertError Int :=
  match weightShape.shape with
  | n :: rest =>
      if 1 < n ∧ rest.all (· = 1) then .ok (item (weightShape.get (1 :: rest.map fun _ => 0)))
      else .error .torch
  | [] => .error .torch

/-- The in-features of one expert, which gate and up share. -/
def int8K (item : α → Int) (slots : ExpertSlot Int8Component → Option (Tensor α)) (layer : Nat)
    (bank : Bank) (e : Nat) : Except ExpertError Int :=
  match bank with
  | .gateUp => do
      let gate ← component slots layer e .gateProj .weightShape
      let up ← component slots layer e .upProj .weightShape
      let kGate ← int8LogicalK item gate
      let kUp ← int8LogicalK item up
      if kGate = kUp then pure kGate else throw (.kMismatch layer e kGate kUp)
  | .down => do
      let down ← component slots layer e .downProj .weightShape
      int8LogicalK item down

/-- The experts from `e` on, with the `k0` of those before. -/
def int8Rows (item : α → Int) (slots : ExpertSlot Int8Component → Option (Tensor α)) (layer : Nat)
    (bank : Bank) : List Nat → Option Int → Except ExpertError (List (Int8ExpertBank α))
  | [], _ => pure []
  | e :: es, k0 => do
      let k ← int8K item slots layer bank e
      let weightPacked ← fused slots layer 0 bank e .weightPacked
      let weightScale ← fused slots layer 0 bank e .weightScale
      if k ≠ k0.getD k then throw (.kDiffers layer e k (k0.getD k))
      let rows ← int8Rows item slots layer bank es (some (k0.getD k))
      pure (⟨weightPacked, weightScale, k⟩ :: rows)

/-- `_finalize_int8_bank`. -/
def finalizeInt8Bank (item : α → Int) (numExperts layer : Nat) (bank : Bank)
    (slots : ExpertSlot Int8Component → Option (Tensor α)) :
    Except ExpertError (Int8ExpertBank α) := do
  let rows ← int8Rows item slots layer bank (List.range numExperts) none
  let weightPacked ← stackExpertRows (rows.map (·.weightPacked))
  let weightScale ← stackExpertRows (rows.map (·.weightScale))
  match rows with
  | [] => throw .noRows
  | first :: _ => pure ⟨weightPacked, weightScale, first.k⟩

structure MxfpExpertBank (α : Type) where
  blocks : Tensor α
  scales : Tensor α

/-- What the MXFP4 streamer does with a bank's two tensors. -/
def finalizeMxfp4Bank (numExperts layer : Nat) (bank : Bank)
    (slots : Mxfp4Component → Option (Tensor α)) : Except ExpertError (MxfpExpertBank α) :=
  match slots .blocks, slots .scales with
  | some blocks, some scales =>
      match blocks.shape with
      | [] => .error .torch
      | count :: _ =>
          if count ≠ numExperts then .error (.experts layer bank count)
          else if blocks.shape.dropLast ≠ scales.shape then
            .error (.shapeMismatch layer bank blocks.shape.dropLast scales.shape)
          else .ok ⟨blocks, scales⟩
  | _, _ => .error (.missingComponents layer 0)

/-! ### The streamers -/

/-- The banks that a streamer has to return. -/
def MoeConfig.banks (config : MoeConfig) : List (Nat × Bank) :=
  (List.range config.numLayers).flatMap fun layer => [(layer, .gateUp), (layer, .down)]

/-- A format that ships every component of every expert in a tensor of its own. -/
structure ExpertFormat (κ α β : Type) where
  parse : String → Parsed (ExpertKey κ)
  components : List κ
  mem_components : ∀ c, c ∈ components
  components_ne_nil : components ≠ []
  finalize : Nat → Nat → Bank → (ExpertSlot κ → Option (Tensor α)) → Except ExpertError β

/-- The bank and the slot of a tensor. -/
def ExpertFormat.place (F : ExpertFormat κ α β) (config : MoeConfig) (name : String) :
    Except ExpertError ((Nat × Bank) × ExpertSlot κ) := do
  let key ← parsed F.parse name
  let layer ← checkLayer config key.layer
  let expert ← checkExpert config key.layer key.expert
  pure ((layer, key.proj.bank), ⟨expert, key.proj, key.component⟩)

/-- The slots that `_gptq_bank_is_complete` and its siblings look for. -/
def ExpertFormat.required (F : ExpertFormat κ α β) (config : MoeConfig) (bank : Bank) :
    List (ExpertSlot κ) :=
  (List.range config.numExperts).flatMap fun e =>
    bank.projs.flatMap fun p => F.components.map fun c => ⟨e, p, c⟩

theorem ExpertFormat.mem_required {F : ExpertFormat κ α β} {config : MoeConfig} {bank : Bank}
    {slot : ExpertSlot κ} :
    slot ∈ F.required config bank ↔ slot.expert < config.numExperts ∧ slot.proj ∈ bank.projs := by
  obtain ⟨e, p, c⟩ := slot
  simp only [required, List.mem_flatMap, List.mem_range, List.mem_map, ExpertSlot.mk.injEq]
  constructor
  · rintro ⟨e', he, p', hp, c', -, rfl, rfl, rfl⟩
    exact ⟨he, hp⟩
  · rintro ⟨he, hp⟩
    exact ⟨e, he, p, hp, c, F.mem_components c, rfl, rfl, rfl⟩

theorem ExpertFormat.place_eq_ok {F : ExpertFormat κ α β} {config : MoeConfig} {name : String}
    {group : Nat × Bank} {slot : ExpertSlot κ} (h : F.place config name = .ok (group, slot)) :
    group.1 < config.numLayers ∧ slot.expert < config.numExperts ∧ slot.proj.bank = group.2 := by
  rw [place, bind_eq_ok] at h
  obtain ⟨key, -, h⟩ := h
  obtain ⟨layer, hlayer, h⟩ := bind_eq_ok.mp h
  obtain ⟨expert, hexpert, h⟩ := bind_eq_ok.mp h
  cases h
  exact ⟨(checkLayer_eq_ok.mp hlayer).2, (checkExpert_eq_ok.mp hexpert).2, rfl⟩

def ExpertFormat.assembly (F : ExpertFormat κ α β) (config : MoeConfig) :
    Assembly String (Nat × Bank) (ExpertSlot κ) (Tensor α) ExpertError β where
  place := F.place config
  required group := F.required config group.2
  finish group := F.finalize config.numExperts group.1 group.2
  late name group := .alreadyFinalized group.1 group.2 name
  repeated name group _ := .duplicate name group.1 group.2
  place_required := by
    intro name group slot h
    obtain ⟨-, he, hbank⟩ := F.place_eq_ok h
    rw [F.mem_required, ← hbank]
    exact ⟨he, slot.proj.mem_projs⟩
  required_ne_nil := by
    intro group
    obtain ⟨c, -⟩ := List.exists_mem_of_ne_nil _ F.components_ne_nil
    obtain ⟨p, hp⟩ : ∃ p, p ∈ group.2.projs := by
      cases group.2
      · exact ⟨.gateProj, List.mem_cons_self⟩
      · exact ⟨.downProj, List.mem_cons_self⟩
    apply List.ne_nil_of_mem (a := ⟨0, p, c⟩)
    rw [F.mem_required]
    exact ⟨config.numExperts_pos, hp⟩

/-- The place of a tensor in an MXFP4 checkpoint, whose slots are the two components. -/
def placeMxfp4 (config : MoeConfig) (name : String) :
    Except ExpertError ((Nat × Bank) × Mxfp4Component) := do
  let key ← parsed parseMxfp4ExpertKey name
  let layer ← checkLayer config key.1
  pure ((layer, key.2.1), key.2.2)

def mxfp4Assembly (config : MoeConfig) :
    Assembly String (Nat × Bank) Mxfp4Component (Tensor α) ExpertError (MxfpExpertBank α) where
  place := placeMxfp4 config
  required _ := [.blocks, .scales]
  finish group := finalizeMxfp4Bank config.numExperts group.1 group.2
  late name group := .alreadyFinalized group.1 group.2 name
  repeated name group _ := .duplicate name group.1 group.2
  place_required := by
    intro name group slot _
    cases slot <;> decide
  required_ne_nil _ := by decide

def gptqFormat [DecidableEq α] : ExpertFormat GptqComponent α (GptqExpertBank α) where
  parse := parseGptqExpertKey
  components := [.qweight, .qzeros, .scales, .gIdx]
  mem_components c := by cases c <;> decide
  components_ne_nil := by decide
  finalize := finalizeGptqBank

def fp8Format (block : Nat) : ExpertFormat Fp8Component α (Fp8BlockExpertBank α) where
  parse := parseFp8ExpertKey
  components := [.weight, .weightScaleInv]
  mem_components c := by cases c <;> decide
  components_ne_nil := by decide
  finalize := finalizeFp8Bank block

def int8Format (item : α → Int) : ExpertFormat Int8Component α (Int8ExpertBank α) where
  parse := parseInt8ExpertKey
  components := [.weightPacked, .weightScale, .weightShape]
  mem_components c := by cases c <;> decide
  components_ne_nil := by decide
  finalize := finalizeInt8Bank item

/-- `finalized[(layer, bank_name)]`. -/
def finalizedBank (st : Assembly.State (Nat × Bank) σ (Tensor α) β) (layer : Nat) (bank : Bank) :
    Except ExpertError β :=
  match st.finalized.get? (layer, bank) with
  | some b => .ok b
  | none => .error (.missing [(layer, bank)])

/-- The gate_up banks and the down banks of all layers, in the order of the layers. -/
def returnBanks (config : MoeConfig) (st : Assembly.State (Nat × Bank) σ (Tensor α) β) :
    Except ExpertError (List β × List β) :=
  let missing := config.banks.filter fun group => (st.finalized.get? group).isNone
  if missing ≠ [] then .error (.missing missing)
  else do
    let gateUp ← (List.range config.numLayers).mapM fun layer => finalizedBank st layer .gateUp
    let down ← (List.range config.numLayers).mapM fun layer => finalizedBank st layer .down
    pure (gateUp, down)

def streamBanks [DecidableEq σ]
    (A : Assembly String (Nat × Bank) σ (Tensor α) ExpertError β) (config : MoeConfig)
    (tensors : List (String × Tensor α)) : Except ExpertError (List β × List β) :=
  A.run tensors >>= returnBanks config

/-- `stream_moe_expert_sources_gptq`. -/
def streamMoeExpertSourcesGptq [DecidableEq α] (config : MoeConfig) :
    List (String × Tensor α) → Except ExpertError (List (GptqExpertBank α) × List (GptqExpertBank α)) :=
  streamBanks (gptqFormat.assembly config) config

/-- `_FP8_DEFAULT_BLOCK`. -/
def fp8DefaultBlock : Nat := 128

/-- `stream_moe_expert_sources_fp8`. -/
def streamMoeExpertSourcesFp8 (block : Nat) (config : MoeConfig) :
    List (String × Tensor α) →
      Except ExpertError (List (Fp8BlockExpertBank α) × List (Fp8BlockExpertBank α)) :=
  streamBanks ((fp8Format block).assembly config) config

/-- `stream_moe_expert_sources_int8`. -/
def streamMoeExpertSourcesInt8 (item : α → Int) (config : MoeConfig) :
    List (String × Tensor α) → Except ExpertError (List (Int8ExpertBank α) × List (Int8ExpertBank α)) :=
  streamBanks ((int8Format item).assembly config) config

/-- `stream_moe_expert_sources_mxfp4`. -/
def streamMoeExpertSourcesMxfp4 (config : MoeConfig) :
    List (String × Tensor α) → Except ExpertError (List (MxfpExpertBank α) × List (MxfpExpertBank α)) :=
  streamBanks (mxfp4Assembly config) config

end FreeToken.Experts
