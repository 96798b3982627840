import FreeToken.Lib.Except
import FreeToken.Models.GGUF.Dequant

/-!
# What a dequantized tensor holds

Each value of a tensor is the cast of a float32 that depends on its own block only, so the part of
a tensor that a stretch of whole blocks makes up is the tensor of that stretch.
-/

namespace FreeToken.GGUF

variable {φ ρ : Type} (F : Floats φ ρ)

/-- The float32 values of the whole blocks in the bytes. -/
def Kernel.decoded (kernel : Kernel φ) (raw : List UInt8) : List φ :=
  Blocks.decode kernel.typeSize kernel.values (raw.length / kernel.typeSize) raw

theorem Kernel.length_decoded (kernel : Kernel φ) (raw : List UInt8) :
    (kernel.decoded raw).length = raw.length / kernel.typeSize * kernel.blockSize :=
  Blocks.length_decode kernel.length_values _ _

theorem Kernel.run_eq_ok {kernel : Kernel φ} {raw : List UInt8} {flat : List φ} :
    kernel.run raw = .ok flat ↔ raw.length % kernel.typeSize = 0 ∧ flat = kernel.decoded raw := by
  rw [Kernel.run]
  split
  · next h => simp [h]
  · next h =>
      rw [Except.ok.injEq, Kernel.decoded]
      exact ⟨fun heq => ⟨not_not.mp h, heq.symm⟩, fun heq => heq.2.symm⟩

/-- The tensor of the values, as `out_dtype` has them. -/
structure Dequantized (kernel : Kernel φ) (raw : List UInt8) (dtype : Dtype) (shape : List Nat)
    (t : Tensor ρ) : Prop where
  shape_eq : t.shape = shape
  get_eq : ∀ idx, List.Forall₂ (· < ·) idx shape →
    t.get idx = F.cast dtype ((kernel.decoded raw).getD (Tensor.ravel shape idx) (F.ofInt 0))

variable {F} {ggmlType : Nat} {raw : List UInt8} {shape : List Nat} {dtype : Dtype} {t : Tensor ρ}

theorem dequantize_none (h : kernelOf F ggmlType = none) :
    dequantize F ggmlType raw shape dtype =
      .error (.unsupported ggmlType (ggmlTypeName ggmlType)) := by
  rw [dequantize, h]

theorem exists_kernel_of_dequantize (h : dequantize F ggmlType raw shape dtype = .ok t) :
    ∃ kernel, kernelOf F ggmlType = some kernel := by
  cases hkernel : kernelOf F ggmlType with
  | none =>
      rw [dequantize_none hkernel] at h
      cases h
  | some kernel => exact ⟨kernel, rfl⟩

/-- Whole blocks that make up the shape are dequantized. -/
theorem exists_dequantize {kernel : Kernel φ} (hkernel : kernelOf F ggmlType = some kernel) {n : Nat}
    (hraw : raw.length = n * kernel.typeSize) (hshape : Tensor.numel shape = n * kernel.blockSize)
    (dtype : Dtype) :
    ∃ t : Tensor ρ, dequantize F ggmlType raw shape dtype = .ok t ∧
      Dequantized F kernel raw dtype shape t := by
  have hblocks : raw.length / kernel.typeSize = n := by
    rw [hraw]
    exact Nat.mul_div_cancel n kernel.typeSize_pos
  have hrun : kernel.run raw = .ok (kernel.decoded raw) := by
    apply Kernel.run_eq_ok.mpr
    refine ⟨?_, rfl⟩
    rw [hraw]
    exact Nat.mul_mod_left n kernel.typeSize
  have hlen : ¬ (kernel.decoded raw).length < Tensor.numel shape := by
    rw [kernel.length_decoded, hblocks, hshape]
    exact Nat.lt_irrefl _
  refine ⟨(Tensor.ofFlat shape (F.ofInt 0)
    ((kernel.decoded raw).take (Tensor.numel shape))).map (F.cast dtype), ?_, rfl, ?_⟩
  · rw [dequantize, hkernel]
    change (kernel.run raw).bind _ = _
    rw [hrun]
    exact if_neg hlen
  · intro idx hidx
    exact congrArg (F.cast dtype) (Tensor.ofFlat_take hidx _ _)

/-- The values of a stretch of whole blocks. -/
theorem Kernel.decoded_slice (kernel : Kernel φ) {n s r i : Nat}
    (hraw : raw.length = n * kernel.typeSize) (hn : s + r ≤ n) (hi : i < r * kernel.blockSize)
    (fill : φ) :
    (kernel.decoded ((raw.drop (s * kernel.typeSize)).take (r * kernel.typeSize))).getD i fill =
      (kernel.decoded raw).getD (s * kernel.blockSize + i) fill := by
  have hlen : ((raw.drop (s * kernel.typeSize)).take (r * kernel.typeSize)).length =
      r * kernel.typeSize := by
    rw [List.length_take, List.length_drop, hraw, ← Nat.sub_mul]
    apply Nat.min_eq_left
    apply Nat.mul_le_mul_right
    exact Nat.le_sub_of_add_le' hn
  rw [Kernel.decoded, hlen, Nat.mul_div_cancel r kernel.typeSize_pos, Kernel.decoded, hraw,
    Nat.mul_div_cancel n kernel.typeSize_pos, List.getD_eq_getElem?_getD,
    Blocks.decode_slice kernel.length_values hn hi, List.getD_eq_getElem?_getD]

end FreeToken.GGUF
