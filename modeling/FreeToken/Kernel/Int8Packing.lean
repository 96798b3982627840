import FreeToken.Core
import FreeToken.Kernel.Dequantize

/-!
# Packed INT8

`unpack_int8_from_int32` of `kernel/triton/int8_packed_linear` and the packing that its module
documents. An int32 word holds four bytes, the lowest first, each a signed value moved up by 128.
-/

namespace FreeToken

/-! ### Unpacking -/

/-- `(weight_packed >> (8 * i)) & 0xFF`. -/
def wordByte (w : BitVec 32) (i : Nat) : BitVec 32 := w.sshiftRight (8 * i) &&& 0xFF#32

/-- `unpack_int8_from_int32`. -/
def unpackInt8FromInt32 (weightPacked : Tensor (BitVec 32)) (k : Int) :
    Except DequantError (Tensor (BitVec 8)) :=
  match weightPacked.shape with
  | [n, packedCols] =>
      .ok ⟨[n, sliceStop (packedCols * 4) k], fun idx =>
        (wordByte (weightPacked.get [idx.getD 0 0, idx.getD 1 0 / 4]) (idx.getD 1 0 % 4) -
          128#32).setWidth 8⟩
  | _ => .error .valueError

/-! ### Packing -/

/-- `int8_value + 128`. -/
def storedByte (v : BitVec 8) : BitVec 8 := BitVec.ofInt 8 (v.toInt + 128)

/-- A word of four bytes, the first one lowest. -/
def packWord (byte : Nat → BitVec 8) : BitVec 32 :=
  BitVec.ofNat 32 ((byte 0).toNat + (byte 1).toNat * 2 ^ 8 + (byte 2).toNat * 2 ^ 16 +
    (byte 3).toNat * 2 ^ 24)

/-- `pack_to_int32`, of a matrix: the last word of a row is filled up with `pad`. -/
def packToInt32 (pad : BitVec 8) (n k : Nat) (get : List Nat → BitVec 8) : Tensor (BitVec 32) :=
  ⟨[n, (k + 3) / 4], fun idx => packWord fun i =>
    let column := idx.getD 1 0 * 4 + i
    if column < k then storedByte (get [idx.getD 0 0, column]) else pad⟩

/-! ### The round trip -/

/-- Masked to a byte, the shift may be arithmetic or not. -/
theorem wordByte_eq (w : BitVec 32) {i : Nat} (hi : i < 4) :
    wordByte w i = w >>> (8 * i) &&& 0xFF#32 := by
  have hmask : (0xFF#32 : BitVec 32) = (BitVec.allOnes 8).setWidth 32 := rfl
  rw [wordByte, hmask]
  ext j hj
  simp only [BitVec.getElem_and, BitVec.getElem_sshiftRight, BitVec.getElem_ushiftRight,
    BitVec.getElem_setWidth, BitVec.getLsbD_allOnes]
  by_cases hbyte : j < 8
  · have hlt : 8 * i + j < 32 := by omega
    simp [hlt, BitVec.getLsbD_eq_getElem]
  · simp [hbyte]

theorem toNat_wordByte (w : BitVec 32) {i : Nat} (hi : i < 4) :
    (wordByte w i).toNat = w.toNat / 2 ^ (8 * i) % 2 ^ 8 := by
  rw [wordByte_eq w hi, BitVec.toNat_and, BitVec.toNat_ushiftRight, Nat.shiftRight_eq_div_pow]
  exact Nat.and_two_pow_sub_one_eq_mod _ 8

theorem wordByte_packWord (byte : Nat → BitVec 8) {i : Nat} (hi : i < 4) :
    wordByte (packWord byte) i = (byte i).setWidth 32 := by
  have h0 := (byte 0).isLt
  have h1 := (byte 1).isLt
  have h2 := (byte 2).isLt
  have h3 := (byte 3).isLt
  have hi : i = 0 ∨ i = 1 ∨ i = 2 ∨ i = 3 := by omega
  apply BitVec.eq_of_toNat_eq
  rw [toNat_wordByte _ (by omega), packWord, BitVec.toNat_ofNat, BitVec.toNat_setWidth]
  rcases hi with rfl | rfl | rfl | rfl <;> omega

/-- Moved down by 128, a stored byte is the value it was stored for. -/
theorem storedByte_sub : ∀ v : BitVec 8, ((storedByte v).setWidth 32 - 128#32).setWidth 8 = v := by
  decide

/-- What `dequantize_int8_packed` reads a byte as is the unpacked value. -/
theorem toInt_unpacked (w : BitVec 32) {i : Nat} (hi : i < 4) :
    ((wordByte w i - 128#32).setWidth 8).toInt = unpackInt8 w i := by
  have hlt : (wordByte w i).toNat < 2 ^ 8 := by
    rw [toNat_wordByte w hi]
    exact Nat.mod_lt _ (Nat.two_pow_pos 8)
  have hbyte : ∀ b : BitVec 8, ((b.setWidth 32 - 128#32).setWidth 8).toInt = (b.toNat : Int) - 128 := by
    decide
  have heq : (BitVec.ofNat 8 (wordByte w i).toNat).setWidth 32 = wordByte w i := by
    apply BitVec.eq_of_toNat_eq
    rw [BitVec.toNat_setWidth, BitVec.toNat_ofNat, Nat.mod_eq_of_lt hlt]
    exact Nat.mod_eq_of_lt (wordByte w i).isLt
  have hvalue := hbyte (BitVec.ofNat 8 (wordByte w i).toNat)
  rw [heq, BitVec.toNat_ofNat, Nat.mod_eq_of_lt hlt] at hvalue
  exact hvalue

/-- A packed matrix unpacks to itself, whole words or not. -/
theorem unpack_packToInt32 (pad : BitVec 8) (n k : Nat) (get : List Nat → BitVec 8) :
    ∃ t, unpackInt8FromInt32 (packToInt32 pad n k get) k = .ok t ∧
      t.Same ⟨[n, k], get⟩ := by
  have hcols : sliceStop ((k + 3) / 4 * 4) k = k := by
    rw [sliceStop_natCast]
    omega
  refine ⟨_, rfl, ?_⟩
  apply Tensor.same_of_matrix (m := n) (n := k)
  · rw [hcols]
  · rfl
  · intro i j _ hj
    have hlane : j / 4 * 4 + j % 4 = j := Nat.div_add_mod' j 4
    simp only [packToInt32, List.getD_cons_zero, List.getD_cons_succ]
    rw [wordByte_packWord _ (Nat.mod_lt j (Nat.succ_pos 3)), hlane, if_pos hj, storedByte_sub]

end FreeToken
