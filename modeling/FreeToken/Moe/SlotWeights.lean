import FreeToken.Kernel.Dequantize
import FreeToken.Models.QuantExperts
import FreeToken.Moe.OffloadCache

/-!
# The weights of a slot

What `_attach_offload_cache` hands the cache for the quantized formats, and the matrices that
`SlotWeightAccessor` makes of a slot. Beside them, what the tensors of one expert dequantize to by
themselves.
-/

namespace FreeToken.Experts

variable {α φ ρ : Type}

/-! ### The pools -/

/-- What `copy_` leaves of an expert's row in a slot, which has the shape of the first layer's rows;
0 where it raises. -/
def pooledRow [Zero (Tensor α)] (banks : List (Tensor α)) (layer e : Nat) : Tensor α :=
  match banks.head?, banks[layer]? with
  | some first, some bank => ((bank.select e).broadcastTo first.shape.tail).getD 0
  | _, _ => 0

section Sources

variable [Zero (Tensor α)]

def gptqSources (gateUp down : List (GptqExpertBank α)) : List (String × (Nat → Nat → Tensor α)) :=
  [("qweight_gate_up", pooledRow (gateUp.map (·.qweight))),
    ("qzeros_gate_up", pooledRow (gateUp.map (·.qzeros))),
    ("scales_gate_up", pooledRow (gateUp.map (·.scales))),
    ("qweight_down", pooledRow (down.map (·.qweight))),
    ("qzeros_down", pooledRow (down.map (·.qzeros))),
    ("scales_down", pooledRow (down.map (·.scales)))]

def fp8Sources (gateUp down : List (Fp8BlockExpertBank α)) :
    List (String × (Nat → Nat → Tensor α)) :=
  [("weight_gate_up", pooledRow (gateUp.map (·.weight))),
    ("scale_gate_up", pooledRow (gateUp.map (·.weightScaleInv))),
    ("weight_down", pooledRow (down.map (·.weight))),
    ("scale_down", pooledRow (down.map (·.weightScaleInv)))]

def mxfp4Sources (gateUp down : List (MxfpExpertBank α)) : List (String × (Nat → Nat → Tensor α)) :=
  [("blocks_gate_up", pooledRow (gateUp.map (·.blocks))),
    ("scales_gate_up", pooledRow (gateUp.map (·.scales))),
    ("blocks_down", pooledRow (down.map (·.blocks))),
    ("scales_down", pooledRow (down.map (·.scales)))]

def int8Sources (gateUp down : List (Int8ExpertBank α)) : List (String × (Nat → Nat → Tensor α)) :=
  [("weight_packed_gate_up", pooledRow (gateUp.map (·.weightPacked))),
    ("weight_scale_gate_up", pooledRow (gateUp.map (·.weightScale))),
    ("weight_packed_down", pooledRow (down.map (·.weightPacked))),
    ("weight_scale_down", pooledRow (down.map (·.weightScale)))]

end Sources

/-- The in-features that the banks of all layers share. -/
def sharedK : List (Int8ExpertBank α) → Except ExpertError Int
  | [] => .error .noRows
  | bank :: rest =>
      match rest.find? fun other => other.k ≠ bank.k with
      | none => .ok bank.k
      | some other => .error (.kDiffers 0 0 other.k bank.k)

/-! ### The accessor -/

/-- The formats, with what the accessor takes from the cache for them. -/
inductive QuantFormat where
  | gptqInt4 (groupSize : Int)
  | fp8Block (block : Nat)
  | mxfp4
  | int8Channel (kGateUp kDown : Int)

/-- `SlotWeightAccessor`. -/
structure SlotWeightAccessor (α : Type) where
  banks : List (FreeToken.Bank (Tensor α))
  format : QuantFormat
  intermediate : Nat

namespace SlotWeightAccessor

variable (a : SlotWeightAccessor α)

/-- `self._banks[name][s_i]`. -/
def slotRow (name : String) (s : Nat) : Except DequantError (Tensor α) :=
  match a.banks.find? fun b => b.name = name with
  | some b => .ok (b.cache s)
  | none => .error .keyError

/-- The gate and up rows of the fused matrix, and the down matrix. -/
def split (gateUp down : Tensor ρ) : Tensor ρ × Tensor ρ × Tensor ρ :=
  (gateUp.rows 0 a.intermediate, gateUp.rows a.intermediate (2 * a.intermediate), down)

/-- `get`. -/
def get (E : Elements α φ ρ) (s : Nat) : Except DequantError (Tensor ρ × Tensor ρ × Tensor ρ) :=
  match a.format with
  | .gptqInt4 groupSize => do
      let gateUp ← dequantizeGptqInt4SequentialGroups E (← a.slotRow "qweight_gate_up" s)
        (← a.slotRow "qzeros_gate_up" s) (← a.slotRow "scales_gate_up" s) groupSize
      let down ← dequantizeGptqInt4SequentialGroups E (← a.slotRow "qweight_down" s)
        (← a.slotRow "qzeros_down" s) (← a.slotRow "scales_down" s) groupSize
      pure (a.split gateUp.transpose down.transpose)
  | .fp8Block block => do
      let gateUp ← dequantizeBlockFp8 E block (← a.slotRow "weight_gate_up" s)
        (← a.slotRow "scale_gate_up" s)
      let down ← dequantizeBlockFp8 E block (← a.slotRow "weight_down" s) (← a.slotRow "scale_down" s)
      pure (a.split gateUp down)
  | .mxfp4 => do
      let gateUp ← dequantizeMxfp4Blocks E (← a.slotRow "blocks_gate_up" s)
        (← a.slotRow "scales_gate_up" s)
      let down ← dequantizeMxfp4Blocks E (← a.slotRow "blocks_down" s) (← a.slotRow "scales_down" s)
      pure (a.split gateUp down)
  | .int8Channel kGateUp kDown => do
      let gateUp ← dequantizeInt8Packed E kGateUp (← a.slotRow "weight_packed_gate_up" s)
        (← a.slotRow "weight_scale_gate_up" s)
      let down ← dequantizeInt8Packed E kDown (← a.slotRow "weight_packed_down" s)
        (← a.slotRow "weight_scale_down" s)
      pure (a.split gateUp down)

end SlotWeightAccessor

/-! ### One expert by itself -/

section Own

variable (E : Elements α φ ρ) (config : MoeConfig) (tensors : List (String × Tensor α)) (layer e : Nat)

/-- What the tensors of a projection dequantize to, as the matrix of a linear layer. -/
def ownGptq [DecidableEq α] (p : Proj) : Except DequantError (Tensor ρ) :=
  let slots := (gptqFormat.assembly config).lookup tensors (layer, p.bank)
  match slots ⟨e, p, .qweight⟩, slots ⟨e, p, .qzeros⟩, slots ⟨e, p, .scales⟩, slots ⟨e, p, .gIdx⟩ with
  | some qweight, some qzeros, some scales, some gIdx =>
      (dequantizeGptqInt4 E qweight qzeros scales (gIdx.map E.item)).map Tensor.transpose
  | _, _, _, _ => .error .keyError

def ownFp8 (block : Nat) (p : Proj) : Except DequantError (Tensor ρ) :=
  let slots := ((fp8Format block).assembly config).lookup tensors (layer, p.bank)
  match slots ⟨e, p, .weight⟩, slots ⟨e, p, .weightScaleInv⟩ with
  | some weight, some weightScaleInv => dequantizeBlockFp8 E block weight weightScaleInv
  | _, _ => .error .keyError

def ownInt8 (p : Proj) : Except DequantError (Tensor ρ) :=
  let slots := ((int8Format E.item).assembly config).lookup tensors (layer, p.bank)
  match slots ⟨e, p, .weightPacked⟩, slots ⟨e, p, .weightScale⟩, slots ⟨e, p, .weightShape⟩ with
  | some weightPacked, some weightScale, some weightShape =>
      match int8LogicalK E.item weightShape with
      | .ok k => dequantizeInt8Packed E k weightPacked weightScale
      | .error _ => .error .valueError
  | _, _, _ => .error .keyError

/-- The checkpoint has the experts of a layer in one tensor, and in it the gate rows of an expert
and then its up rows. -/
def ownMxfp4 (intermediate : Nat) (p : Proj) : Except DequantError (Tensor ρ) :=
  let slots := (mxfp4Assembly config).lookup tensors (layer, p.bank)
  match slots .blocks, slots .scales with
  | some blocks, some scales =>
      let part := fun t : Tensor α => match p with
        | .gateProj => (t.select e).rows 0 intermediate
        | .upProj => (t.select e).rows intermediate (2 * intermediate)
        | .downProj => t.select e
      dequantizeMxfp4Blocks E (part blocks) (part scales)
  | _, _ => .error .keyError

end Own

end FreeToken.Experts
