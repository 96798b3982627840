import FreeToken.Lib.Generator
import FreeToken.Lib.ReadNumbers
import FreeToken.Models.ExpertKeys
import FreeToken.Models.GGUF.Dequant
import FreeToken.Models.GGUF.Format
import FreeToken.Moe.OffloadCache
import Mathlib.Data.List.Sort

/-!
# The experts of a GGUF file

`iter_weights` and `iter_moe_expert_raw_banks` of `models/gguf/__init__.py`, the streamer of
`models/weight.py` that makes raw banks, and what `SlotWeightAccessor` makes of a slot that was
filled from them. The functions start from the file that `load_gguf` has read; `GGML_QUANT_SIZES`
is a parameter.
-/

namespace FreeToken.GGUF

open Experts (MoeConfig)

inductive ExpertBank where
  | gate
  | up
  | down
deriving DecidableEq

/-- What is raised while the weights are read. -/
inductive WeightError where
  | dequant (e : DequantError)
  /-- `{ggmlType} is not a valid GGMLQuantizationType` -/
  | quantType (ggmlType : Nat)
  /-- `{name}: expected the expert axis (last ne-order dim) to be {expected}, got {got}` -/
  | expertAxis (name : String) (expected : Int) (got : Nat)
  /-- `gguf_expert_row_bytes: {nElements} elements is not a multiple of block size {blockSize} for
  ggml_type {ggmlType}` -/
  | partialBlock (nElements blockSize ggmlType : Nat)
  /-- `{name}: read {got} bytes, expected {expected} (truncated file?)` -/
  | truncated (name : String) (got expected : Nat)
  /-- `shape[-1]` of no dimensions, or an `unsqueeze` too far. -/
  | indexError
  /-- An offset that `seek` refuses. -/
  | seek (offset : Int)
  /-- What `torch.cat` raises. -/
  | cat
  /-- A count that is a float, a string or a list, or an architecture that is not a string; what
  Python makes of it is not modelled. -/
  | metadata
  /-- `Unexpected MoE expert layer {layer}; expected [0, {numLayers})` -/
  | unexpectedLayer (layer numLayers : Nat)
  /-- `layer {layer} {bank}: {got} experts, expected {expected}` -/
  | expertCount (layer : Nat) (bank : ExpertBank) (got expected : Nat)
  /-- `Missing/incomplete GGUF MoE expert bank(s) for layer(s): {layers}` -/
  | missing (layers : List Nat)
  | keyError
  /-- `OffloadMoeCache.gguf_hidden_size / gguf_moe_intermediate_size are not set -- …` -/
  | sizesUnset
deriving DecidableEq

/-! ### Metadata -/

/-- `if value`. -/
def PyValue.truthy : PyValue → Bool
  | .int n => n ≠ 0
  | .bool b => b
  | .float32 bits => bits % 2 ^ 31 ≠ 0
  | .float64 bits => bits % 2 ^ 63 ≠ 0
  | .str s => s ≠ ""
  | .list elements => !elements.isEmpty

/-- `int(value)`. -/
def PyValue.count : PyValue → Except WeightError Int
  | .int n => .ok n
  | .bool b => .ok (if b then 1 else 0)
  | .float32 _ => .error .metadata
  | .float64 _ => .error .metadata
  | .str _ => .error .metadata
  | .list _ => .error .metadata

/-- `metadata.get("general.architecture")`, as it is written into the keys. -/
def architecture (metadata : Dict String PyValue) : Except WeightError String :=
  match metadata.get? "general.architecture" with
  | none => .ok "None"
  | some (.str s) => .ok s
  | some _ => .error .metadata

/-- `_arch_get`, for a count that is not 0. -/
def archCount (metadata : Dict String PyValue) (arch suffix : String) :
    Except WeightError (Option Int) :=
  match metadata.get? (arch ++ "." ++ suffix) with
  | none => .ok none
  | some value => if value.truthy then value.count.map some else .ok none

/-- `_gguf_real_num_layers`. -/
def ggufRealNumLayers (metadata : Dict String PyValue) (arch : String) (blockCount : Int) :
    Except WeightError Int :=
  (archCount metadata arch "nextn_predict_layers").map fun nextn =>
    match nextn with
    | none => blockCount
    | some n => max 0 (blockCount - n)

/-- `real_num_layers`. -/
def realNumLayers (metadata : Dict String PyValue) (arch : String) :
    Except WeightError (Option Int) :=
  archCount metadata arch "block_count" >>= fun blockCount =>
    match blockCount with
    | none => .ok none
    | some n => (ggufRealNumLayers metadata arch n).map some

/-! ### Names -/

/-- The digits at the start, and what follows them. -/
def spanDigits (cs : List Char) : List Char × List Char :=
  (cs.takeWhile fun c => (digitValue c).isSome, cs.dropWhile fun c => (digitValue c).isSome)

/-- What `(.+)$` matches; `$` allows for a newline at the end. -/
def tailMatch (cs : List Char) : Option String :=
  let body := if cs.getLast? = some '\n' then cs.dropLast else cs
  if body = [] ∨ '\n' ∈ body then none else some (String.ofList body)

/-- `_LAYER_RE.match(name)`: the layer and the suffix. An index of more digits than `int` reads is
read all the same. -/
def matchLayer (name : String) : Option (Nat × String) :=
  match name.toList with
  | 'b' :: 'l' :: 'k' :: '.' :: cs =>
      match spanDigits cs with
      | ([], _) => none
      | (ds, '.' :: rest) =>
          (tailMatch rest).map fun suffix =>
            (ds.foldl (fun n d => 10 * n + (digitValue d).getD 0) 0, suffix)
      | _ => none
  | _ => none

example : (matchLayer "blk.12.ffn_up_exps.weight", matchLayer "blk..a", matchLayer "output.weight") =
    (some (12, "ffn_up_exps.weight"), none, none) := by decide +kernel

abbrev Suffixes := Dict String GGUFTensorInfo

/-- `by_layer`: the tensors of a layer that are kept, layers from `real_num_layers` on left out. -/
def byLayer (real : Option Int) (keep : String → Bool) (tensors : Dict String GGUFTensorInfo) :
    Dict Nat Suffixes :=
  tensors.entries.foldl
    (fun layers entry =>
      match matchLayer entry.1 with
      | none => layers
      | some (layer, suffix) =>
          if real.any (fun n => n ≤ (layer : Int)) || !keep suffix then layers
          else layers.set layer (((layers.get? layer).getD .empty).set suffix entry.2))
    .empty

/-- `top_level`. -/
def topLevel (tensors : Dict String GGUFTensorInfo) : Dict String GGUFTensorInfo :=
  tensors.entries.foldl
    (fun top entry => if (matchLayer entry.1).isNone then top.set entry.1 entry.2 else top) .empty

/-- `sorted(by_layer)`. -/
def sortedLayers (layers : Dict Nat Suffixes) : List Nat :=
  (layers.entries.map Prod.fst).insertionSort (· ≤ ·)

/-! ### Bytes -/

/-- An entry of `GGML_QUANT_SIZES`. -/
structure QuantSize where
  blockSize : Nat
  typeSize : Nat
  blockSize_pos : 0 < blockSize

/-- `GGMLQuantizationType` and `GGML_QUANT_SIZES`. -/
abbrev QuantSizes := Nat → Option QuantSize

/-- `_gguf_block_size_and_type_size`. -/
def blockAndTypeSize (sizes : QuantSizes) (ggmlType : Nat) : Except WeightError QuantSize :=
  match sizes ggmlType with
  | none => .error (.quantType ggmlType)
  | some size => .ok size

def ggufExpertRowBytes (sizes : QuantSizes) (ggmlType nElements : Nat) : Except WeightError Nat :=
  blockAndTypeSize sizes ggmlType >>= fun size =>
    if nElements % size.blockSize ≠ 0 then
      .error (.partialBlock nElements size.blockSize ggmlType)
    else .ok (nElements / size.blockSize * size.typeSize)

def GGUFTensorInfo.nElements (info : GGUFTensorInfo) : Nat := Tensor.numel info.shape

/-- `fh.seek(offset)` and `fh.read(n)`. -/
def readAt (file : List UInt8) (offset : Int) (n : Nat) : Except WeightError (List UInt8) :=
  if offset < 0 ∨ 2 ^ 63 ≤ offset then .error (.seek offset)
  else .ok ((file.drop offset.toNat).take n)

/-! ### The eager weights -/

/-- `_TOP_LEVEL_MAP`. -/
def topLevelMap : List (String × String) :=
  [("token_embd.weight", "model.embed_tokens.weight"), ("output_norm.weight", "model.norm.weight"),
    ("output.weight", "lm_head.weight")]

/-- `_DENSE_SUFFIX_MAP`. -/
def denseSuffixMap : List (String × String) :=
  [("attn_norm.weight", "input_layernorm.weight"), ("attn_q.weight", "self_attn.q_proj.weight"),
    ("attn_q_norm.weight", "self_attn.q_norm.weight"), ("attn_k.weight", "self_attn.k_proj.weight"),
    ("attn_k_norm.weight", "self_attn.k_norm.weight"), ("attn_v.weight", "self_attn.v_proj.weight"),
    ("attn_output.weight", "self_attn.o_proj.weight"),
    ("ffn_norm.weight", "post_attention_layernorm.weight"),
    ("ffn_gate_inp.weight", "mlp.gate.weight"), ("ffn_gate.weight", "mlp.gate_proj.weight"),
    ("ffn_up.weight", "mlp.up_proj.weight"), ("ffn_down.weight", "mlp.down_proj.weight")]

/-- `_QWEN35_MOE_SUFFIX_MAP`. -/
def qwen35MoeSuffixMap : List (String × String) :=
  [("attn_norm.weight", "input_layernorm.weight"),
    ("post_attention_norm.weight", "post_attention_layernorm.weight"),
    ("ffn_gate_inp.weight", "mlp.gate.weight"), ("attn_q.weight", "self_attn.q_proj.weight"),
    ("attn_q_norm.weight", "self_attn.q_norm.weight"), ("attn_k.weight", "self_attn.k_proj.weight"),
    ("attn_k_norm.weight", "self_attn.k_norm.weight"), ("attn_v.weight", "self_attn.v_proj.weight"),
    ("attn_output.weight", "self_attn.o_proj.weight"),
    ("attn_qkv.weight", "linear_attn.in_proj_qkv.weight"),
    ("attn_gate.weight", "linear_attn.in_proj_z.weight"),
    ("ssm_alpha.weight", "linear_attn.in_proj_a.weight"),
    ("ssm_beta.weight", "linear_attn.in_proj_b.weight"),
    ("ssm_conv1d.weight", "linear_attn.conv1d.weight"), ("ssm_dt.bias", "linear_attn.dt_bias"),
    ("ssm_a", "linear_attn.A_log"), ("ssm_norm.weight", "linear_attn.norm.weight"),
    ("ssm_out.weight", "linear_attn.out_proj.weight"),
    ("ffn_gate_inp_shexp.weight", "mlp.shared_expert_gate.weight"),
    ("ffn_gate_shexp.weight", "mlp.shared_expert.gate_proj.weight"),
    ("ffn_up_shexp.weight", "mlp.shared_expert.up_proj.weight"),
    ("ffn_down_shexp.weight", "mlp.shared_expert.down_proj.weight")]

/-- `_QWEN35_MOE_ARCHITECTURES`. -/
def qwen35MoeArchitectures : List String := ["qwen35moe", "qwen35", "qwen3next"]

/-- `_ZERO_INIT_RMS_NORM_SUFFIXES`. -/
def zeroInitRmsNormSuffixes : List String :=
  ["attn_norm.weight", "post_attention_norm.weight", "attn_q_norm.weight", "attn_k_norm.weight"]

/-- `GGUF_ARCH_TO_SUFFIX_MAP.get(arch, _DENSE_SUFFIX_MAP)`. -/
def suffixMap (arch : String) : List (String × String) :=
  if arch ∈ qwen35MoeArchitectures then qwen35MoeSuffixMap else denseSuffixMap

section Eager

variable {φ ρ : Type} (F : Floats φ ρ) (sizes : QuantSizes) (file : List UInt8)

/-- `_QWEN35_MOE_VALUE_TRANSFORM` and its counterpart for the top level. -/
def valueTransform (arch suffix : String) (t : Tensor ρ) : Tensor ρ :=
  if arch ∉ qwen35MoeArchitectures then t
  else if suffix = "ssm_a" then t.map fun x => F.log (F.neg x)
  else if suffix ∈ zeroInitRmsNormSuffixes ∨ suffix = "output_norm.weight" then t.map F.subOne
  else t

/-- `_QWEN35_MOE_RESHAPE`. -/
def reshape (arch suffix : String) (t : Tensor ρ) : Except WeightError (Tensor ρ) :=
  if arch ∉ qwen35MoeArchitectures then .ok t
  else if suffix = "ssm_conv1d.weight" then
    if t.dim = 0 then .error .indexError
    else .ok ⟨t.shape.take 1 ++ 1 :: t.shape.drop 1, fun idx => t.get (idx.eraseIdx 1)⟩
  else if suffix = "ffn_gate_inp_shexp.weight" then .ok t.unsqueeze
  else .ok t

/-- `_read_and_dequant`; `_gguf_to_pytorch_shape` reverses the shape. -/
def readAndDequant (info : GGUFTensorInfo) : Except WeightError (Tensor ρ) :=
  blockAndTypeSize sizes info.ggmlType >>= fun size =>
    readAt file info.offset (info.nElements / size.blockSize * size.typeSize) >>= fun raw =>
      (dequantize F info.ggmlType raw info.shape.reverse .bfloat16).mapError .dequant

def layerName (layer : Nat) (suffix : String) : String :=
  "model.layers." ++ toString layer ++ "." ++ suffix

/-- The tensors outside the layers. -/
def topLevelWeights (arch : String) (top : Dict String GGUFTensorInfo) :
    List (Except WeightError (String × Tensor ρ)) :=
  topLevelMap.filterMap fun entry =>
    (top.get? entry.1).map fun info =>
      (readAndDequant F sizes file info).map fun t => (entry.2, valueTransform F arch entry.1 t)

/-- The tensors of a layer other than its routed experts. -/
def denseWeights (arch : String) (layer : Nat) (suffixes : Suffixes) :
    List (Except WeightError (String × Tensor ρ)) :=
  (suffixMap arch).filterMap fun entry =>
    (suffixes.get? entry.1).map fun info =>
      readAndDequant F sizes file info >>= fun t =>
        (reshape arch entry.1 (valueTransform F arch entry.1 t)).map fun t =>
          (layerName layer entry.2, t)

/-- `torch.cat([gate, up], dim=1)`. -/
def catGateUp (gate up : GGUFTensorInfo) : Except WeightError (Tensor ρ) :=
  readAndDequant F sizes file gate >>= fun g =>
    readAndDequant F sizes file up >>= fun u =>
      match Tensor.cat 1 [g, u] with
      | none => .error .cat
      | some t => .ok t

/-- The routed experts of a layer. -/
def expertWeights (layer : Nat) (suffixes : Suffixes) :
    List (Except WeightError (String × Tensor ρ)) :=
  (match suffixes.get? "ffn_gate_exps.weight", suffixes.get? "ffn_up_exps.weight" with
    | some gate, some up =>
        [(catGateUp F sizes file gate up).map fun t => (layerName layer "mlp.experts.gate_up_proj", t)]
    | _, _ => []) ++
  match suffixes.get? "ffn_down_exps.weight" with
  | some down =>
      [(readAndDequant F sizes file down).map fun t => (layerName layer "mlp.experts.down_proj", t)]
  | none => []

def iterWeights (gguf : GGUFFile) (includeMoeExperts includeNonMoe : Bool) :
    List (Except WeightError (String × Tensor ρ)) :=
  match architecture gguf.metadata >>= fun arch =>
    (realNumLayers gguf.metadata arch).map fun real => (arch, real) with
  | .error e => [.error e]
  | .ok (arch, real) =>
      let layers := byLayer real (fun _ => true) gguf.tensors
      (if includeNonMoe then topLevelWeights F sizes file arch (topLevel gguf.tensors) else []) ++
        (sortedLayers layers).flatMap fun layer =>
          let suffixes := (layers.get? layer).getD .empty
          (if includeNonMoe then denseWeights F sizes file arch layer suffixes else []) ++
            if includeMoeExperts then expertWeights F sizes file layer suffixes else []

end Eager

/-! ### Raw banks -/

/-- A `uint8` tensor of two dimensions. -/
structure ByteRows where
  width : Nat
  rows : List (List UInt8)
  length_row : ∀ row ∈ rows, row.length = width

/-- `np.frombuffer(raw).reshape(n, width)`. -/
def ByteRows.ofFlat (n width : Nat) (raw : List UInt8) (h : raw.length = width * n) : ByteRows where
  width := width
  rows := (List.range n).map fun e => Blocks.block width e raw
  length_row := by
    intro row hrow
    obtain ⟨e, he, rfl⟩ := List.mem_map.mp hrow
    apply Blocks.length_block
    rw [h, Nat.mul_comm]
    exact Nat.mul_le_mul_left width (List.mem_range.mp he)

/-- `wanted`. -/
def wanted : List (String × ExpertBank) :=
  [("ffn_gate_exps.weight", .gate), ("ffn_up_exps.weight", .up), ("ffn_down_exps.weight", .down)]

/-- The bytes of one packed tensor, a row for each expert. -/
def rawBank (sizes : QuantSizes) (file : List UInt8) (numExperts : Int) (info : GGUFTensorInfo) :
    Except WeightError ByteRows :=
  match info.shape.getLast? with
  | none => .error .indexError
  | some last =>
      if (last : Int) ≠ numExperts then .error (.expertAxis info.name numExperts last)
      else
        ggufExpertRowBytes sizes info.ggmlType (info.nElements / last) >>= fun rowBytes =>
          readAt file info.offset (rowBytes * last) >>= fun raw =>
            if h : raw.length = rowBytes * last then .ok (.ofFlat last rowBytes raw h)
            else .error (.truncated info.name raw.length (rowBytes * last))

/-- What `iter_moe_expert_raw_banks` yields. -/
structure RawBank where
  layer : Nat
  bank : ExpertBank
  raw : ByteRows
  ggmlType : Nat

def layerRawBanks (sizes : QuantSizes) (file : List UInt8) (numExperts : Int) (layer : Nat)
    (suffixes : Suffixes) : List (Except WeightError RawBank) :=
  wanted.filterMap fun entry =>
    (suffixes.get? entry.1).map fun info =>
      (rawBank sizes file numExperts info).map fun raw => ⟨layer, entry.2, raw, info.ggmlType⟩

def iterMoeExpertRawBanks (sizes : QuantSizes) (file : List UInt8) (gguf : GGUFFile) :
    List (Except WeightError RawBank) :=
  match architecture gguf.metadata >>= fun arch =>
    archCount gguf.metadata arch "expert_count" >>= fun numExperts =>
      match numExperts with
      | none => .ok none
      | some n => (realNumLayers gguf.metadata arch).map fun real => some (n, real) with
  | .error e => [.error e]
  | .ok none => []
  | .ok (some (numExperts, real)) =>
      let layers := byLayer real (fun suffix => suffix ∈ wanted.map Prod.fst) gguf.tensors
      (sortedLayers layers).flatMap fun layer =>
        layerRawBanks sizes file numExperts layer ((layers.get? layer).getD .empty)

structure GgufKQuantGateUpBank where
  rawGate : ByteRows
  ggmlTypeGate : Nat
  rawUp : ByteRows
  ggmlTypeUp : Nat

structure GgufKQuantDownBank where
  raw : ByteRows
  ggmlType : Nat

/-- `torch.cat([r, zeros], dim=1)`. -/
def ByteRows.pad (r : ByteRows) (n : Nat) : ByteRows where
  width := r.width + n
  rows := r.rows.map fun row => row ++ List.replicate n 0
  length_row := by
    intro row hrow
    obtain ⟨row, hmem, rfl⟩ := List.mem_map.mp hrow
    rw [List.length_append, List.length_replicate, r.length_row row hmem]

/-- `_pad_expert_rows_to_max`. -/
def padExpertRowsToMax (rows : List ByteRows) : List ByteRows :=
  let maxBytes := (rows.map ByteRows.width).foldl max 0
  if rows.all fun r => r.width = maxBytes then rows
  else rows.map fun r => if r.width = maxBytes then r else r.pad (maxBytes - r.width)

abbrev LayerBanks := Dict ExpertBank (ByteRows × Nat)

/-- One round of the loop over the raw banks. -/
def addRawBank (config : MoeConfig) (banks : Dict Nat LayerBanks) (b : RawBank) :
    Except WeightError (Dict Nat LayerBanks) :=
  if config.numLayers ≤ b.layer then .error (.unexpectedLayer b.layer config.numLayers)
  else if b.raw.rows.length ≠ config.numExperts then
    .error (.expertCount b.layer b.bank b.raw.rows.length config.numExperts)
  else .ok (banks.set b.layer
    (((banks.get? b.layer).getD .empty).set b.bank (b.raw, b.ggmlType)))

/-- `set(by_layer.get(layer, {})) == {"gate", "up", "down"}`. -/
def isComplete (banks : Dict Nat LayerBanks) (layer : Nat) : Bool :=
  let present := (banks.get? layer).getD .empty
  (present.get? .gate).isSome && (present.get? .up).isSome && (present.get? .down).isSome

/-- `by_layer[layer][bank]`. -/
def bankAt (banks : Dict Nat LayerBanks) (bank : ExpertBank) (layer : Nat) :
    Except WeightError (ByteRows × Nat) :=
  match (banks.get? layer).bind fun present => present.get? bank with
  | none => .error .keyError
  | some b => .ok b

/-- The banks of one kind, padded, with their types. -/
def paddedBanks (numLayers : Nat) (banks : Dict Nat LayerBanks) (bank : ExpertBank) :
    Except WeightError (List (ByteRows × Nat)) :=
  ((List.range numLayers).mapM (bankAt banks bank)).map fun entries =>
    (padExpertRowsToMax (entries.map Prod.fst)).zip (entries.map Prod.snd)

/-- `stream_moe_expert_sources_gguf_kquant`. -/
def streamMoeExpertSourcesGgufKquant (sizes : QuantSizes) (file : List UInt8) (gguf : GGUFFile)
    (config : MoeConfig) :
    Except WeightError (List GgufKQuantGateUpBank × List GgufKQuantDownBank) :=
  consume (addRawBank config) .empty (iterMoeExpertRawBanks sizes file gguf) >>= fun banks =>
    let missing := (List.range config.numLayers).filter fun layer => !isComplete banks layer
    if missing ≠ [] then .error (.missing missing)
    else
      paddedBanks config.numLayers banks .gate >>= fun gates =>
        paddedBanks config.numLayers banks .up >>= fun ups =>
          paddedBanks config.numLayers banks .down >>= fun downs =>
            .ok (gates.zipWith (fun g u => ⟨g.1, g.2, u.1, u.2⟩) ups,
              downs.map fun d => ⟨d.1, d.2⟩)

/-! ### Slots -/

/-- A row of a bank. What a slot holds before it is filled is left open. -/
structure ByteRow where
  bytes : List UInt8

instance : Zero ByteRow := ⟨⟨[]⟩⟩

/-- Row `e` of layer `l`. -/
def hostRow (raws : List ByteRows) (l e : Nat) : ByteRow :=
  ⟨((raws[l]?).bind fun raw => raw.rows[e]?).getD []⟩

/-- What `_attach_offload_cache` hands to `set_bank_sources`. -/
def bankSources (gateUp : List GgufKQuantGateUpBank) (down : List GgufKQuantDownBank) :
    List (String × (Nat → Nat → ByteRow)) :=
  [("raw_gate", hostRow (gateUp.map (·.rawGate))), ("raw_up", hostRow (gateUp.map (·.rawUp))),
    ("raw_down", hostRow (down.map (·.raw)))]

/-- `SlotWeightAccessor` of a layer. -/
structure SlotWeightAccessor where
  banks : List (Bank ByteRow)
  dtype : Dtype
  ggmlTypeGate : Nat
  ggmlTypeUp : Nat
  ggmlTypeDown : Nat
  hiddenSize : Nat
  moeIntermediateSize : Nat

/-- The constructor; the types of the layer are the cache's extra metadata, and a size that is not
set is `0`. -/
def SlotWeightAccessor.new (c : OffloadMoeCache ByteRow) (gateUp : List GgufKQuantGateUpBank)
    (down : List GgufKQuantDownBank) (hiddenSize moeIntermediateSize : Nat) (dtype : Dtype)
    (layer : Nat) : Except WeightError SlotWeightAccessor :=
  match gateUp[layer]?, down[layer]? with
  | some gu, some dn =>
      if hiddenSize = 0 ∨ moeIntermediateSize = 0 then .error .sizesUnset
      else .ok ⟨c.banks, dtype, gu.ggmlTypeGate, gu.ggmlTypeUp, dn.ggmlType, hiddenSize,
        moeIntermediateSize⟩
  | _, _ => .error .indexError

namespace SlotWeightAccessor

variable {φ ρ : Type} (F : Floats φ ρ) (sizes : QuantSizes)

/-- `b[name][s_i]`. -/
def slotRow (a : SlotWeightAccessor) (name : String) (s : Nat) : Except WeightError (List UInt8) :=
  match a.banks.find? fun b => b.name = name with
  | none => .error .keyError
  | some b => .ok (b.cache s).bytes

/-- `_dequant_row`. -/
def dequantRow (rawRow : List UInt8) (ggmlType rows cols : Nat) (dtype : Dtype) :
    Except WeightError (Tensor ρ) :=
  ggufExpertRowBytes sizes ggmlType (rows * cols) >>= fun rowBytes =>
    (dequantize F ggmlType (rawRow.take rowBytes) [rows, cols] dtype).mapError .dequant

/-- `get`, for `gguf_kquant`. -/
def get (a : SlotWeightAccessor) (s : Nat) : Except WeightError (Tensor ρ × Tensor ρ × Tensor ρ) :=
  a.slotRow "raw_gate" s >>= fun gate =>
    dequantRow F sizes gate a.ggmlTypeGate a.moeIntermediateSize a.hiddenSize a.dtype >>= fun gateW =>
      a.slotRow "raw_up" s >>= fun up =>
        dequantRow F sizes up a.ggmlTypeUp a.moeIntermediateSize a.hiddenSize a.dtype >>= fun upW =>
          a.slotRow "raw_down" s >>= fun down =>
            (dequantRow F sizes down a.ggmlTypeDown a.hiddenSize a.moeIntermediateSize
              a.dtype).map fun downW => (gateW, upW, downW)

end SlotWeightAccessor

end FreeToken.GGUF
