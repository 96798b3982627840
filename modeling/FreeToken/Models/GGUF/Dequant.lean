import FreeToken.Lib.Blocks
import FreeToken.Lib.Tensor

/-!
# The GGML block formats of `models/gguf/dequant.py`

The float32 arithmetic is a parameter. A kernel decodes each block by itself, as the rows of the
`numpy` arrays do.
-/

namespace FreeToken.GGUF

/-- `torch` dtypes to which a model's weights are cast. -/
inductive Dtype where
  | bfloat16
  | float16
  | float32
deriving DecidableEq

/-- The float32 numbers `φ` and the numbers `ρ` of the tensors. -/
structure Floats (φ ρ : Type) where
  /-- The bytes of `<f4`. -/
  ofSingle : Nat → Nat → Nat → Nat → φ
  /-- The bytes of `<f2`, widened. -/
  ofHalf : Nat → Nat → φ
  ofInt : Int → φ
  mul : φ → φ → φ
  sub : φ → φ → φ
  /-- `.to(dtype)`. -/
  cast : Dtype → φ → ρ
  neg : ρ → ρ
  log : ρ → ρ
  /-- `t - 1.0`. -/
  subOne : ρ → ρ

/-- `DequantError`, and what `numpy` raises. -/
inductive DequantError where
  /-- `{name}: raw byte length ({length}) is not a multiple of its block size in bytes ({size})` -/
  | notMultiple (name : String) (length size : Nat)
  /-- `buffer size must be a multiple of element size` -/
  | bufferSize
  /-- `dequantize: unsupported ggml_type {ggmlType} ({name})` -/
  | unsupported (ggmlType : Nat) (name : String)
  /-- `{name}: dequantized {size} values, but shape {shape} needs at least {needed}` -/
  | tooFew (name : String) (size : Nat) (shape : List Nat) (needed : Nat)
deriving DecidableEq

/-- `GGML_TYPE_NAMES`. -/
def ggmlTypeNames : List (Nat × String) :=
  [(0, "F32"), (1, "F16"), (2, "Q4_0"), (3, "Q4_1"), (6, "Q5_0"), (7, "Q5_1"), (8, "Q8_0"),
    (9, "Q8_1"), (10, "Q2_K"), (11, "Q3_K"), (12, "Q4_K"), (13, "Q5_K"), (14, "Q6_K"), (15, "Q8_K"),
    (16, "IQ2_XXS"), (17, "IQ2_XS"), (18, "IQ3_XXS"), (19, "IQ1_S"), (20, "IQ4_NL"), (21, "IQ3_S"),
    (22, "IQ2_S"), (23, "IQ4_XS"), (24, "I8"), (25, "I16"), (26, "I32"), (27, "I64"), (28, "F64"),
    (29, "IQ1_M"), (30, "BF16"), (31, "Q4_0_4_4"), (32, "Q4_0_4_8"), (33, "Q4_0_8_8"),
    (34, "TQ1_0"), (35, "TQ2_0")]

/-- `GGML_TYPE_NAMES.get(ggml_type, f"UNKNOWN_{ggml_type}")`. -/
def ggmlTypeName (ggmlType : Nat) : String :=
  ((ggmlTypeNames.find? fun entry => entry.1 = ggmlType).map Prod.snd).getD
    ("UNKNOWN_" ++ toString ggmlType)

/-- One of `_DEQUANTIZERS`: what a block is, and the values of one. -/
structure Kernel (φ : Type) where
  typeName : String
  blockSize : Nat
  typeSize : Nat
  blockSize_pos : 0 < blockSize
  typeSize_pos : 0 < typeSize
  /-- What is raised for bytes that are not whole blocks. -/
  refusal : Nat → DequantError
  values : List UInt8 → List φ
  length_values : ∀ block, (values block).length = blockSize

namespace Kernel

variable {φ ρ : Type} (F : Floats φ ρ)

/-- `block[i]`. -/
def byte (block : List UInt8) (i : Nat) : Nat := (block.getD i 0).toNat

/-- `view(np.int8)`. -/
def int8 (b : Nat) : Int := if b < 128 then b else (b : Int) - 256

def half (block : List UInt8) (i : Nat) : φ := F.ofHalf (byte block i) (byte block (i + 1))

/-- `_dequantize_f32`. -/
def f32 : Kernel φ where
  typeName := "F32"
  blockSize := 1
  typeSize := 4
  blockSize_pos := Nat.one_pos
  typeSize_pos := Nat.succ_pos 3
  refusal := fun _ => .bufferSize
  values := fun block =>
    [F.ofSingle (byte block 0) (byte block 1) (byte block 2) (byte block 3)]
  length_values := fun _ => rfl

/-- `_dequantize_f16`. -/
def f16 : Kernel φ where
  typeName := "F16"
  blockSize := 1
  typeSize := 2
  blockSize_pos := Nat.one_pos
  typeSize_pos := Nat.succ_pos 1
  refusal := fun _ => .bufferSize
  values := fun block => [half F block 0]
  length_values := fun _ => rfl

/-- `_dequantize_bf16`: the upper half of a float32. -/
def bf16 : Kernel φ where
  typeName := "BF16"
  blockSize := 1
  typeSize := 2
  blockSize_pos := Nat.one_pos
  typeSize_pos := Nat.succ_pos 1
  refusal := fun _ => .bufferSize
  values := fun block => [F.ofSingle 0 0 (byte block 0) (byte block 1)]
  length_values := fun _ => rfl

/-- `_dequantize_q4_0`. -/
def q4_0 : Kernel φ where
  typeName := "Q4_0"
  blockSize := 32
  typeSize := 18
  blockSize_pos := Nat.succ_pos 31
  typeSize_pos := Nat.succ_pos 17
  refusal := fun length => .notMultiple "Q4_0" length 18
  values := fun block =>
    let d := half F block 0
    let qs := fun i => byte block (2 + i)
    let lo := (List.range 16).map fun i => ((qs i &&& 0x0F : Nat) : Int) - 8
    let hi := (List.range 16).map fun i => (((qs i >>> 4) &&& 0x0F : Nat) : Int) - 8
    (lo ++ hi).map fun q => F.mul d (F.ofInt q)
  length_values := by intro block; simp

/-- `_dequantize_q8_0`. -/
def q8_0 : Kernel φ where
  typeName := "Q8_0"
  blockSize := 32
  typeSize := 34
  blockSize_pos := Nat.succ_pos 31
  typeSize_pos := Nat.succ_pos 33
  refusal := fun length => .notMultiple "Q8_0" length 34
  values := fun block =>
    let d := half F block 0
    (List.range 32).map fun i => F.mul d (F.ofInt (int8 (byte block (2 + i))))
  length_values := by intro block; simp

/-- The scale of sub-block `j` in the table of `_unpack_q4_k_scale_min`. -/
def subScale (scales : Nat → Nat) (j : Nat) : Nat :=
  if j < 4 then scales j &&& 0x3F
  else (scales (j + 4) &&& 0x0F) ||| ((scales (j - 4) >>> 6) <<< 4)

/-- Its minimum. -/
def subMin (scales : Nat → Nat) (j : Nat) : Nat :=
  if j < 4 then scales (j + 4) &&& 0x3F
  else (scales (j + 4) >>> 4) ||| ((scales j >>> 6) <<< 4)

/-- The 4 bits of value `v` of sub-block `j`: two sub-blocks share 32 bytes. -/
def nibble (qs : Nat → Nat) (j v : Nat) : Nat :=
  if j % 2 = 0 then qs (32 * (j / 2) + v) &&& 0x0F else (qs (32 * (j / 2) + v) >>> 4) &&& 0x0F

/-- `d * sc[j] * q - dmin * m[j]` for the 8 sub-blocks of 32 values. -/
def subBlocks (d dmin : φ) (scales : Nat → Nat) (q : Nat → Nat → Nat) : List φ :=
  (List.range 8).flatMap fun j => (List.range 32).map fun v =>
    F.sub (F.mul (F.mul d (F.ofInt (subScale scales j))) (F.ofInt (q j v)))
      (F.mul dmin (F.ofInt (subMin scales j)))

theorem length_subBlocks (d dmin : φ) (scales : Nat → Nat) (q : Nat → Nat → Nat) :
    (subBlocks F d dmin scales q).length = 256 := by
  simp [subBlocks, List.length_flatMap]

/-- `_dequantize_q4_k`. -/
def q4_K : Kernel φ where
  typeName := "Q4_K"
  blockSize := 256
  typeSize := 144
  blockSize_pos := Nat.succ_pos 255
  typeSize_pos := Nat.succ_pos 143
  refusal := fun length => .notMultiple "Q4_K" length 144
  values := fun block =>
    subBlocks F (half F block 0) (half F block 2) (fun i => byte block (4 + i))
      (nibble fun i => byte block (16 + i))
  length_values := fun _ => length_subBlocks F _ _ _ _

/-- `_dequantize_q5_k`: bit `j` of byte `v` of the plane is the fifth bit. -/
def q5_K : Kernel φ where
  typeName := "Q5_K"
  blockSize := 256
  typeSize := 176
  blockSize_pos := Nat.succ_pos 255
  typeSize_pos := Nat.succ_pos 175
  refusal := fun length => .notMultiple "Q5_K" length 176
  values := fun block =>
    subBlocks F (half F block 0) (half F block 2) (fun i => byte block (4 + i)) fun j v =>
      nibble (fun i => byte block (48 + i)) j v ||| (((byte block (16 + v) >>> j) &&& 0x01) <<< 4)
  length_values := fun _ => length_subBlocks F _ _ _ _

/-- `_dequantize_q6_k`: value `t` has its low bits in `ql` and its high bits in `qh`. -/
def q6_K : Kernel φ where
  typeName := "Q6_K"
  blockSize := 256
  typeSize := 210
  blockSize_pos := Nat.succ_pos 255
  typeSize_pos := Nat.succ_pos 209
  refusal := fun length => .notMultiple "Q6_K" length 210
  values := fun block =>
    let d := half F block 208
    let ql := fun t => (byte block (64 * (t / 128) + t % 64) >>> (4 * (t % 128 / 64))) &&& 0x0F
    let qh := fun t => (byte block (128 + 32 * (t / 128) + t % 32) >>> (2 * (t % 128 / 32))) &&& 0x03
    (List.range 256).map fun t =>
      F.mul (F.mul d (F.ofInt (int8 (byte block (192 + t / 16)))))
        (F.ofInt (((ql t ||| (qh t <<< 4) : Nat) : Int) - 32))
  length_values := by intro block; simp

/-- `fn(raw_bytes)`. -/
def run (kernel : Kernel φ) (rawBytes : List UInt8) : Except DequantError (List φ) :=
  if rawBytes.length % kernel.typeSize ≠ 0 then .error (kernel.refusal rawBytes.length)
  else .ok (Blocks.decode kernel.typeSize kernel.values (rawBytes.length / kernel.typeSize) rawBytes)

end Kernel

variable {φ ρ : Type} (F : Floats φ ρ)

/-- `_DEQUANTIZERS`. -/
def dequantizers : List (Kernel φ) :=
  [.f32 F, .f16 F, .q4_0 F, .q8_0 F, .q4_K F, .q5_K F, .q6_K F, .bf16 F]

/-- `_DEQUANTIZERS.get(type_name)`. -/
def kernelOf (ggmlType : Nat) : Option (Kernel φ) :=
  (dequantizers F).find? fun kernel => kernel.typeName = ggmlTypeName ggmlType

def dequantize (ggmlType : Nat) (rawBytes : List UInt8) (shape : List Nat) (outDtype : Dtype) :
    Except DequantError (Tensor ρ) :=
  match kernelOf F ggmlType with
  | none => .error (.unsupported ggmlType (ggmlTypeName ggmlType))
  | some kernel =>
      (kernel.run rawBytes).bind fun flat =>
        if flat.length < Tensor.numel shape then
          .error (.tooFew kernel.typeName flat.length shape (Tensor.numel shape))
        else
          .ok ((Tensor.ofFlat shape (F.ofInt 0) (flat.take (Tensor.numel shape))).map (F.cast outDtype))

end FreeToken.GGUF
