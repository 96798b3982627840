import Mathlib.Algebra.Ring.Basic
import Mathlib.Data.Int.Cast.Basic
import Mathlib.Tactic.IntervalCases
import FreeToken.Lib.Packed
import FreeToken.Models.GGUF.DequantSpec

/-!
# The K-quant super-blocks of ggml

A super-block is written as ggml writes it: what it holds, and where the bits of each part go. In
exact arithmetic the kernels of the three formats read every value back from its own code and
sub-block.
-/

namespace FreeToken.GGUF

/-- The bytes that ggml writes one after the other. -/
def bytesOf (n : Nat) (f : Nat → Nat) : List UInt8 := (List.range n).map fun i => UInt8.ofNat (f i)

/-- `block_q4_K` and `block_q5_K`: the two bytes each of `d` and `dmin`, the 6-bit scales and
minimums of 8 sub-blocks, and 256 codes. -/
structure MinBlock (bits : Nat) where
  d : UInt8 × UInt8
  dmin : UInt8 × UInt8
  scale : Nat → Fin 64
  min : Nat → Fin 64
  code : Nat → Fin (2 ^ bits)

/-- `block_q6_K`: no minimums, but a signed scale for each 16 codes. -/
structure SignedBlock where
  d : UInt8 × UInt8
  scale : Nat → UInt8
  code : Nat → Fin 64

namespace MinBlock

variable {bits : Nat} (block : MinBlock bits)

/-- The 12 bytes `scales`. Sub-blocks 4 to 7 have their two upper bits in the first eight. -/
def scaleByte (i : Nat) : Nat :=
  if i < 4 then (block.scale i).1 ||| ((block.scale (i + 4)).1 >>> 4) <<< 6
  else if i < 8 then (block.min (i - 4)).1 ||| ((block.min i).1 >>> 4) <<< 6
  else (block.scale (i - 4)).1 % 2 ^ 4 ||| ((block.min (i - 4)).1 % 2 ^ 4) <<< 4

/-- The 128 bytes `qs`: 32 bytes for each 64 codes. -/
def lowByte (i : Nat) : Nat :=
  (block.code (64 * (i / 32) + i % 32)).1 % 2 ^ 4 |||
    ((block.code (64 * (i / 32) + i % 32 + 32)).1 % 2 ^ 4) <<< 4

/-- The 32 bytes `qh`: bit `j` is the fifth bit in sub-block `j`. -/
def highByte (v : Nat) : Nat := Nat.ofBits fun j : Fin 8 => (block.code (32 * j.1 + v)).1.testBit 4

def header : List UInt8 :=
  [block.d.1, block.d.2, block.dmin.1, block.dmin.2] ++ bytesOf 12 block.scaleByte

end MinBlock

/-- `quantize_row_q4_K`. -/
def layoutQ4K (block : MinBlock 4) : List UInt8 := block.header ++ bytesOf 128 block.lowByte

/-- `quantize_row_q5_K`. -/
def layoutQ5K (block : MinBlock 5) : List UInt8 :=
  block.header ++ bytesOf 32 block.highByte ++ bytesOf 128 block.lowByte

namespace SignedBlock

variable (block : SignedBlock)

/-- The 128 bytes `ql`: 64 bytes for each 128 codes, the lower 64 of them in the low bits. -/
def lowByte (i : Nat) : Nat :=
  (block.code (128 * (i / 64) + i % 64)).1 % 2 ^ 4 |||
    ((block.code (128 * (i / 64) + i % 64 + 64)).1 % 2 ^ 4) <<< 4

/-- The 64 bytes `qh`: four codes that are 32 apart share a byte. -/
def highByte (i : Nat) : Nat :=
  let high := fun k => (block.code (128 * (i / 32) + i % 32 + 32 * k)).1 >>> 4
  high 0 ||| high 1 <<< 2 ||| high 2 <<< 4 ||| high 3 <<< 6

end SignedBlock

/-- `quantize_row_q6_K`. -/
def layoutQ6K (block : SignedBlock) : List UInt8 :=
  bytesOf 128 block.lowByte ++ bytesOf 64 block.highByte ++ (List.range 16).map block.scale ++
    [block.d.1, block.d.2]

section Exact

variable {R ρ : Type} [Ring R] (F : Floats R ρ)

/-- Exact arithmetic in the place of float32's. -/
def Floats.exact : Floats R ρ :=
  { F with ofInt := fun n => (n : R), mul := fun x y => x * y, sub := fun x y => x - y }

/-- `d * scale * code - dmin * min`. -/
def MinBlock.value {bits : Nat} (block : MinBlock bits) (i : Nat) : R :=
  F.ofHalf block.d.1.toNat block.d.2.toNat * ((block.scale (i / 32)).1 : R) * ((block.code i).1 : R) -
    F.ofHalf block.dmin.1.toNat block.dmin.2.toNat * ((block.min (i / 32)).1 : R)

/-- `d * scale * (code - 32)`. -/
def SignedBlock.value (block : SignedBlock) (i : Nat) : R :=
  F.ofHalf block.d.1.toNat block.d.2.toNat *
      ((Kernel.int8 (block.scale (i / 16)).toNat : Int) : R) * (((block.code i).1 : R) - (32 : Nat))

end Exact

/-- Whatever blocks are laid out one after the other, a kernel reads each value of each back. -/
def Kernel.Inverts {φ σ : Type} (kernel : Kernel φ) (layout : σ → List UInt8) (value : σ → Nat → φ) :
    Prop :=
  ∀ blocks : List σ, ∃ values, kernel.run (blocks.flatMap layout) = .ok values ∧
    values.length = 256 * blocks.length ∧
    ∀ b block, blocks[b]? = some block → ∀ i < 256, values[256 * b + i]? = some (value block i)

/-! ### Bytes of a layout -/

@[simp] theorem length_bytesOf (n : Nat) (f : Nat → Nat) : (bytesOf n f).length = n := by
  simp [bytesOf]

namespace Kernel

theorem byte_append_left {a l : List UInt8} {i : Nat} (h : i < a.length) :
    byte (a ++ l) i = byte a i := by
  rw [byte, byte, List.getD_append _ _ _ _ h]

theorem byte_append_right (a l : List UInt8) (i : Nat) : byte (a ++ l) (a.length + i) = byte l i := by
  rw [byte, byte, List.getD_append_right _ _ _ _ (Nat.le_add_right _ _), Nat.add_sub_cancel_left]

theorem byte_bytesOf {n i : Nat} {f : Nat → Nat} (hi : i < n) (hf : f i < 2 ^ 8) :
    byte (bytesOf n f) i = f i := by
  rw [byte, bytesOf, List.getD_eq_getElem?_getD, List.getElem?_map, List.getElem?_range hi]
  exact Nat.mod_eq_of_lt hf

/-- Equal values in every block are equal values in all. -/
theorem inverts_of_values {φ σ : Type} {kernel : Kernel φ} {layout : σ → List UInt8}
    {value : σ → Nat → φ} (hsize : kernel.blockSize = 256)
    (hlength : ∀ block, (layout block).length = kernel.typeSize)
    (hvalue : ∀ block, ∀ i < 256, (kernel.values (layout block))[i]? = some (value block i)) :
    kernel.Inverts layout value := by
  intro blocks
  have hall : (blocks.flatMap layout).length = blocks.length * kernel.typeSize :=
    Blocks.length_flatMap hlength blocks
  have hcount : (blocks.flatMap layout).length / kernel.typeSize = blocks.length := by
    rw [hall]
    exact Nat.mul_div_cancel _ kernel.typeSize_pos
  refine ⟨kernel.decoded (blocks.flatMap layout), ?_, ?_, ?_⟩
  · apply run_eq_ok.mpr
    refine ⟨?_, rfl⟩
    rw [hall]
    exact Nat.mul_mod_left _ _
  · rw [length_decoded, hcount, hsize, Nat.mul_comm]
  · intro b block hblock i hi
    have hb : b < blocks.length := (List.getElem?_eq_some_iff.mp hblock).1
    rw [decoded, hcount, Nat.mul_comm, ← hsize,
      Blocks.decode_getElem? kernel.length_values hb (hsize ▸ hi),
      Blocks.block_flatMap hlength hblock]
    exact hvalue block i hi

end Kernel

namespace MinBlock

variable {bits : Nat} (block : MinBlock bits)

@[simp] theorem length_header : block.header.length = 16 := by
  simp [header]

theorem scaleByte_lt (i : Nat) : block.scaleByte i < 2 ^ 8 := by
  have hhigh : ∀ s : Fin 64, s.1 >>> 4 < 2 ^ 2 := by decide
  have hlow : ∀ s : Nat, s % 2 ^ 4 < 2 ^ 4 := fun s => Nat.mod_lt s (Nat.two_pow_pos 4)
  rw [scaleByte]
  split_ifs
  · exact BitFields.or_shiftLeft_lt (k := 6) (n := 2) (block.scale i).2 (hhigh _)
  · exact BitFields.or_shiftLeft_lt (k := 6) (n := 2) (block.min (i - 4)).2 (hhigh _)
  · exact BitFields.or_shiftLeft_lt (hlow _) (hlow _)

theorem lowByte_lt (i : Nat) : block.lowByte i < 2 ^ 8 :=
  BitFields.or_shiftLeft_lt (Nat.mod_lt _ (Nat.two_pow_pos 4)) (Nat.mod_lt _ (Nat.two_pow_pos 4))

theorem highByte_lt (v : Nat) : block.highByte v < 2 ^ 8 := Nat.ofBits_lt_two_pow _

theorem subScale_scaleByte {j : Nat} (hj : j < 8) :
    Kernel.subScale block.scaleByte j = block.scale j := by
  rw [Kernel.subScale]
  split
  · next hlow =>
      rw [scaleByte, if_pos hlow]
      rw [show (0x3F : Nat) = 2 ^ 6 - 1 from rfl, Nat.and_two_pow_sub_one_eq_mod]
      exact BitFields.mod_or_shiftLeft (block.scale j).2 _
  · next hhigh =>
      have hj4 : j - 4 < 4 := by omega
      have hback : j - 4 + 4 = j := by omega
      rw [scaleByte, if_neg (by omega), if_neg (by omega), Nat.add_sub_cancel, scaleByte,
        if_pos hj4, hback]
      rw [show (0x0F : Nat) = 2 ^ 4 - 1 from rfl, Nat.and_two_pow_sub_one_eq_mod,
        BitFields.mod_or_shiftLeft (Nat.mod_lt _ (Nat.two_pow_pos 4)),
        BitFields.or_shiftLeft_shiftRight (block.scale (j - 4)).2]
      exact BitFields.mod_or_shiftRight _ 4

theorem subMin_scaleByte {j : Nat} (hj : j < 8) :
    Kernel.subMin block.scaleByte j = block.min j := by
  rw [Kernel.subMin]
  split
  · next hlow =>
      rw [scaleByte, if_neg (by omega), if_pos (by omega), Nat.add_sub_cancel]
      rw [show (0x3F : Nat) = 2 ^ 6 - 1 from rfl, Nat.and_two_pow_sub_one_eq_mod]
      exact BitFields.mod_or_shiftLeft (block.min j).2 _
  · next hhigh =>
      rw [scaleByte, if_neg (by omega), if_neg (by omega), Nat.add_sub_cancel, scaleByte,
        if_neg hhigh, if_pos hj]
      rw [BitFields.or_shiftLeft_shiftRight (Nat.mod_lt _ (Nat.two_pow_pos 4)),
        BitFields.or_shiftLeft_shiftRight (block.min (j - 4)).2]
      exact BitFields.mod_or_shiftRight _ 4

/-- The low bits of a code, from the 32 bytes of its pair of sub-blocks. -/
theorem nibble_lowByte {j v : Nat} (hv : v < 32) :
    Kernel.nibble block.lowByte j v = (block.code (32 * j + v)).1 % 2 ^ 4 := by
  have hgroup : (32 * (j / 2) + v) / 32 = j / 2 := by omega
  have hplace : (32 * (j / 2) + v) % 32 = v := by omega
  rw [Kernel.nibble, lowByte, hgroup, hplace, show (0x0F : Nat) = 2 ^ 4 - 1 from rfl]
  split
  · next heven =>
      have hindex : 64 * (j / 2) + v = 32 * j + v := by omega
      rw [Nat.and_two_pow_sub_one_eq_mod,
        BitFields.mod_or_shiftLeft (Nat.mod_lt _ (Nat.two_pow_pos 4)), hindex]
  · next hodd =>
      have hindex : 64 * (j / 2) + v + 32 = 32 * j + v := by omega
      rw [BitFields.or_shiftLeft_shiftRight (Nat.mod_lt _ (Nat.two_pow_pos 4)),
        Nat.and_two_pow_sub_one_eq_mod, Nat.mod_mod, hindex]

end MinBlock

/-! ### The kernels on a layout -/

namespace Kernel

theorem subScale_congr {f g : Nat → Nat} (h : ∀ i < 12, f i = g i) {j : Nat} (hj : j < 8) :
    subScale f j = subScale g j := by
  rw [subScale, subScale, h j (by omega), h (j + 4) (by omega), h (j - 4) (by omega)]

theorem subMin_congr {f g : Nat → Nat} (h : ∀ i < 12, f i = g i) {j : Nat} (hj : j < 8) :
    subMin f j = subMin g j := by
  rw [subMin, subMin, h j (by omega), h (j + 4) (by omega)]

theorem nibble_congr {f g : Nat → Nat} (h : ∀ i < 128, f i = g i) {j v : Nat} (hj : j < 8)
    (hv : v < 32) : nibble f j v = nibble g j v := by
  rw [nibble, nibble, h (32 * (j / 2) + v) (by omega)]

theorem subBlocks_getElem? {φ ρ : Type} (F : Floats φ ρ) (d dmin : φ) (scales : Nat → Nat)
    (q : Nat → Nat → Nat) {i : Nat} (hi : i < 256) :
    (subBlocks F d dmin scales q)[i]? = some
      (F.sub (F.mul (F.mul d (F.ofInt (subScale scales (i / 32)))) (F.ofInt (q (i / 32) (i % 32))))
        (F.mul dmin (F.ofInt (subMin scales (i / 32))))) :=
  Blocks.flatMap_range_getElem? (g := fun j v =>
    F.sub (F.mul (F.mul d (F.ofInt (subScale scales j))) (F.ofInt (q j v)))
      (F.mul dmin (F.ofInt (subMin scales j)))) hi

end Kernel

namespace MinBlock

variable {bits : Nat} (block : MinBlock bits)

theorem byte_header {i : Nat} (hi : i < 12) (l : List UInt8) :
    Kernel.byte (block.header ++ l) (4 + i) = block.scaleByte i := by
  rw [Kernel.byte_append_left (by rw [length_header]; omega), header]
  have hright := Kernel.byte_append_right [block.d.1, block.d.2, block.dmin.1, block.dmin.2]
    (bytesOf 12 block.scaleByte) i
  exact hright.trans (Kernel.byte_bytesOf hi (block.scaleByte_lt i))

theorem half_header {φ ρ : Type} (F : Floats φ ρ) (l : List UInt8) :
    Kernel.half F (block.header ++ l) 0 = F.ofHalf block.d.1.toNat block.d.2.toNat ∧
      Kernel.half F (block.header ++ l) 2 = F.ofHalf block.dmin.1.toNat block.dmin.2.toNat :=
  ⟨rfl, rfl⟩

variable {R ρ : Type} [Ring R] (F : Floats R ρ)

/-- The value of a kernel that reads the scales of the header, and the right codes. -/
theorem subBlocks_header {q : Nat → Nat → Nat} (l : List UInt8)
    (hq : ∀ j < 8, ∀ v < 32, q j v = (block.code (32 * j + v)).1) {i : Nat} (hi : i < 256) :
    (Kernel.subBlocks F.exact (Kernel.half F.exact (block.header ++ l) 0)
      (Kernel.half F.exact (block.header ++ l) 2)
      (fun i => Kernel.byte (block.header ++ l) (4 + i)) q)[i]? = some (block.value F i) := by
  have hj : i / 32 < 8 := by omega
  have hbytes : ∀ k < 12, Kernel.byte (block.header ++ l) (4 + k) = block.scaleByte k :=
    fun k hk => block.byte_header hk l
  rw [Kernel.subBlocks_getElem? _ _ _ _ _ hi, Kernel.subScale_congr hbytes hj,
    Kernel.subMin_congr hbytes hj, block.subScale_scaleByte hj, block.subMin_scaleByte hj,
    hq _ hj _ (Nat.mod_lt i (Nat.succ_pos 31)), Nat.div_add_mod, (block.half_header _ l).1,
    (block.half_header _ l).2]
  simp only [Floats.exact, value, Int.cast_natCast]

end MinBlock

namespace SignedBlock

variable (block : SignedBlock)

theorem lowByte_lt (i : Nat) : block.lowByte i < 2 ^ 8 :=
  BitFields.or_shiftLeft_lt (Nat.mod_lt _ (Nat.two_pow_pos 4)) (Nat.mod_lt _ (Nat.two_pow_pos 4))

/-- The four fields of a byte of `qh`. -/
theorem fields_highByte : ∀ a b c d : Fin 4,
    a.1 ||| b.1 <<< 2 ||| c.1 <<< 4 ||| d.1 <<< 6 < 2 ^ 8 ∧
      ((a.1 ||| b.1 <<< 2 ||| c.1 <<< 4 ||| d.1 <<< 6) >>> 0) &&& 0x03 = a.1 ∧
      ((a.1 ||| b.1 <<< 2 ||| c.1 <<< 4 ||| d.1 <<< 6) >>> 2) &&& 0x03 = b.1 ∧
      ((a.1 ||| b.1 <<< 2 ||| c.1 <<< 4 ||| d.1 <<< 6) >>> 4) &&& 0x03 = c.1 ∧
      ((a.1 ||| b.1 <<< 2 ||| c.1 <<< 4 ||| d.1 <<< 6) >>> 6) &&& 0x03 = d.1 := by
  decide +kernel

theorem shiftRight_code_lt (i : Nat) : (block.code i).1 >>> 4 < 4 := by
  rw [Nat.shiftRight_eq_div_pow]
  exact Nat.div_lt_of_lt_mul (block.code i).2

theorem highByte_lt (i : Nat) : block.highByte i < 2 ^ 8 :=
  (fields_highByte ⟨_, block.shiftRight_code_lt _⟩ ⟨_, block.shiftRight_code_lt _⟩
    ⟨_, block.shiftRight_code_lt _⟩ ⟨_, block.shiftRight_code_lt _⟩).1

theorem shiftRight_highByte (i : Nat) {k : Nat} (hk : k < 4) :
    (block.highByte i >>> (2 * k)) &&& 0x03 =
      (block.code (128 * (i / 32) + i % 32 + 32 * k)).1 >>> 4 := by
  obtain ⟨-, h0, h1, h2, h3⟩ := fields_highByte
    ⟨_, block.shiftRight_code_lt (128 * (i / 32) + i % 32 + 32 * 0)⟩
    ⟨_, block.shiftRight_code_lt (128 * (i / 32) + i % 32 + 32 * 1)⟩
    ⟨_, block.shiftRight_code_lt (128 * (i / 32) + i % 32 + 32 * 2)⟩
    ⟨_, block.shiftRight_code_lt (128 * (i / 32) + i % 32 + 32 * 3)⟩
  interval_cases k
  · exact h0
  · exact h1
  · exact h2
  · exact h3

theorem byte_low {k : Nat} (hk : k < 128) :
    Kernel.byte (layoutQ6K block) k = block.lowByte k := by
  rw [layoutQ6K, Kernel.byte_append_left (by simp; omega), Kernel.byte_append_left (by simp; omega),
    Kernel.byte_append_left (by simpa)]
  exact Kernel.byte_bytesOf hk (block.lowByte_lt k)

theorem byte_high {k : Nat} (hk : k < 64) :
    Kernel.byte (layoutQ6K block) (128 + k) = block.highByte k := by
  have hright := Kernel.byte_append_right (bytesOf 128 block.lowByte) (bytesOf 64 block.highByte) k
  rw [length_bytesOf] at hright
  rw [layoutQ6K, Kernel.byte_append_left (by simp; omega), Kernel.byte_append_left (by simp; omega),
    hright]
  exact Kernel.byte_bytesOf hk (block.highByte_lt k)

theorem byte_scale {k : Nat} (hk : k < 16) :
    Kernel.byte (layoutQ6K block) (192 + k) = (block.scale k).toNat := by
  have hright := Kernel.byte_append_right (bytesOf 128 block.lowByte ++ bytesOf 64 block.highByte)
    ((List.range 16).map block.scale) k
  rw [List.length_append, length_bytesOf, length_bytesOf] at hright
  rw [layoutQ6K, Kernel.byte_append_left (by simp; omega), hright, Kernel.byte,
    List.getD_eq_getElem?_getD, List.getElem?_map, List.getElem?_range hk]
  rfl

theorem half_layout {φ ρ : Type} (F : Floats φ ρ) :
    Kernel.half F (layoutQ6K block) 208 = F.ofHalf block.d.1.toNat block.d.2.toNat := by
  have hlength : (bytesOf 128 block.lowByte ++ bytesOf 64 block.highByte ++
      (List.range 16).map block.scale).length = 208 := by
    simp
  have hright := Kernel.byte_append_right (bytesOf 128 block.lowByte ++ bytesOf 64 block.highByte ++
    (List.range 16).map block.scale) [block.d.1, block.d.2]
  rw [hlength] at hright
  exact congrArg₂ F.ofHalf (hright 0) (hright 1)

/-- The low bits of code `t`, which the upper 64 codes of a half have in the upper bits. -/
theorem lowBits_layout {t : Nat} (ht : t < 256) :
    (Kernel.byte (layoutQ6K block) (64 * (t / 128) + t % 64) >>> (4 * (t % 128 / 64))) &&& 0x0F =
      (block.code t).1 % 2 ^ 4 := by
  have hhalf : (64 * (t / 128) + t % 64) / 64 = t / 128 := by omega
  have hplace : (64 * (t / 128) + t % 64) % 64 = t % 64 := by omega
  rw [block.byte_low (by omega), lowByte, hhalf, hplace, show (0x0F : Nat) = 2 ^ 4 - 1 from rfl,
    Nat.and_two_pow_sub_one_eq_mod]
  obtain hlower | hupper : t % 128 / 64 = 0 ∨ t % 128 / 64 = 1 := by omega
  · have hindex : 128 * (t / 128) + t % 64 = t := by omega
    rw [hlower, Nat.mul_zero, Nat.shiftRight_zero,
      BitFields.mod_or_shiftLeft (Nat.mod_lt _ (Nat.two_pow_pos 4)), hindex]
  · have hindex : 128 * (t / 128) + t % 64 + 64 = t := by omega
    rw [hupper, Nat.mul_one, BitFields.or_shiftLeft_shiftRight (Nat.mod_lt _ (Nat.two_pow_pos 4)),
      Nat.mod_mod, hindex]

theorem highBits_layout {t : Nat} (ht : t < 256) :
    (Kernel.byte (layoutQ6K block) (128 + 32 * (t / 128) + t % 32) >>> (2 * (t % 128 / 32))) &&&
      0x03 = (block.code t).1 >>> 4 := by
  have hhalf : (32 * (t / 128) + t % 32) / 32 = t / 128 := by omega
  have hplace : (32 * (t / 128) + t % 32) % 32 = t % 32 := by omega
  have hindex : 128 * (t / 128) + t % 32 + 32 * (t % 128 / 32) = t := by omega
  rw [Nat.add_assoc, block.byte_high (by omega), block.shiftRight_highByte _ (by omega), hhalf,
    hplace, hindex]

end SignedBlock

section Exact

variable {R ρ : Type} [Ring R] (F : Floats R ρ)

theorem q4_K_inverts : (Kernel.q4_K F.exact).Inverts layoutQ4K (MinBlock.value F) := by
  apply Kernel.inverts_of_values rfl
  · intro block
    simp [layoutQ4K, Kernel.q4_K]
  · intro block i hi
    apply block.subBlocks_header F _ _ hi
    intro j hj v hv
    have hbytes : ∀ k < 128, Kernel.byte (layoutQ4K block) (16 + k) = block.lowByte k := by
      intro k hk
      have hright := Kernel.byte_append_right block.header (bytesOf 128 block.lowByte) k
      rw [block.length_header] at hright
      exact hright.trans (Kernel.byte_bytesOf hk (block.lowByte_lt k))
    refine (Kernel.nibble_congr hbytes hj hv).trans ?_
    rw [block.nibble_lowByte hv]
    exact Nat.mod_eq_of_lt (block.code (32 * j + v)).2

theorem q5_K_inverts : (Kernel.q5_K F.exact).Inverts layoutQ5K (MinBlock.value F) := by
  apply Kernel.inverts_of_values rfl
  · intro block
    simp [layoutQ5K, Kernel.q5_K]
  · intro block i hi
    have hlayout : layoutQ5K block =
        block.header ++ (bytesOf 32 block.highByte ++ bytesOf 128 block.lowByte) :=
      List.append_assoc _ _ _
    have hlow : ∀ k < 128, Kernel.byte (layoutQ5K block) (48 + k) = block.lowByte k := by
      intro k hk
      have hright := Kernel.byte_append_right (block.header ++ bytesOf 32 block.highByte)
        (bytesOf 128 block.lowByte) k
      rw [List.length_append, block.length_header, length_bytesOf] at hright
      exact hright.trans (Kernel.byte_bytesOf hk (block.lowByte_lt k))
    have hhigh : ∀ v < 32, Kernel.byte (layoutQ5K block) (16 + v) = block.highByte v := by
      intro v hv
      have hright := Kernel.byte_append_right block.header
        (bytesOf 32 block.highByte ++ bytesOf 128 block.lowByte) v
      rw [block.length_header] at hright
      rw [hlayout, hright, Kernel.byte_append_left (by rwa [length_bytesOf])]
      exact Kernel.byte_bytesOf hv (block.highByte_lt v)
    have hq : ∀ j < 8, ∀ v < 32,
        (Kernel.nibble (fun k => Kernel.byte (layoutQ5K block) (48 + k)) j v |||
          ((Kernel.byte (layoutQ5K block) (16 + v) >>> j) &&& 0x01) <<< 4) =
            (block.code (32 * j + v)).1 := by
      intro j hj v hv
      have hbit : (block.code (32 * j + v)).1 >>> 4 =
          ((block.code (32 * j + v)).1.testBit 4).toNat := by
        generalize block.code (32 * j + v) = c
        revert c
        decide
      rw [Kernel.nibble_congr hlow hj hv, block.nibble_lowByte hv, hhigh v hv, MinBlock.highByte]
      refine (congrArg (fun b => _ ||| b <<< 4) (BitFields.ofBits_shiftRight _ ⟨j, hj⟩)).trans ?_
      rw [← hbit]
      exact BitFields.mod_or_shiftRight _ 4
    rw [hlayout] at hq ⊢
    exact block.subBlocks_header F _ hq hi

theorem q6_K_inverts : (Kernel.q6_K F.exact).Inverts layoutQ6K (SignedBlock.value F) := by
  apply Kernel.inverts_of_values rfl
  · intro block
    simp [layoutQ6K, Kernel.q6_K]
  · intro block t ht
    have hlow := block.lowBits_layout ht
    have hhigh := block.highBits_layout ht
    have hcode : (block.code t).1 % 2 ^ 4 ||| ((block.code t).1 >>> 4) <<< 4 = (block.code t).1 :=
      BitFields.mod_or_shiftRight _ 4
    have hscale : Kernel.byte (layoutQ6K block) (192 + t / 16) = (block.scale (t / 16)).toNat :=
      block.byte_scale (by omega)
    rw [Kernel.q6_K]
    simp only [List.getElem?_map, List.getElem?_range ht, Option.map_some, hlow, hhigh, hcode, hscale,
      block.half_layout]
    simp [Floats.exact, SignedBlock.value]

/-- The three decoders give back what was laid out. -/
theorem kQuants_invert :
    (Kernel.q4_K F.exact).Inverts layoutQ4K (MinBlock.value F) ∧
      (Kernel.q5_K F.exact).Inverts layoutQ5K (MinBlock.value F) ∧
      (Kernel.q6_K F.exact).Inverts layoutQ6K (SignedBlock.value F) :=
  ⟨q4_K_inverts F, q5_K_inverts F, q6_K_inverts F⟩

end Exact

end FreeToken.GGUF
