import FreeToken.Kernel.FusedLinear
import Mathlib.Tactic.Ring

/-!
# Fused against dequantized

Where its kernel compiles, a fused linear of block-FP8, INT8 or MXFP4 weights loads only from
inside its tensors or under a mask, stores every element of the output once, and returns the
product with the dequantized matrix.
-/

namespace FreeToken

open Assign TileKernel

variable {α K : Type} [Field K] {S : Stored α K} {blockM blockN m n k : Nat}
  {bias : Option (Nat → K)} {junk : Nat × Nat → K} {x : Tensor K}

/-- The launch stores every element of the product once, and the result is the product with the
bias. -/
structure FusedProduct (m n : Nat) (product : Nat → Nat → K) (bias : Option (Nat → K))
    (launched : Except LaunchError (List ((Nat × Nat) × K)))
    (result : Except FusedError (Tensor K)) : Prop where
  launched_ok : ∃ out, launched = .ok out ∧ Computes m n product out
  result_ok : ∃ t, result = .ok t ∧ t.shape = [m, n] ∧
    ∀ i < m, ∀ j < n, t.get [i, j] = product i j + bias.elim 0 fun b => b j

theorem fusedProduct_of_launched {product : Nat → Nat → K}
    {launched : Except LaunchError (List ((Nat × Nat) × K))}
    (h : ∃ out, launched = .ok out ∧ Computes m n product out) :
    FusedProduct m n product bias launched (fusedResult m n bias junk launched) := by
  refine ⟨h, ?_⟩
  obtain ⟨out, rfl, hout⟩ := h
  refine ⟨_, rfl, rfl, ?_⟩
  intro i hi j hj
  have hwritten : written junk out (i, j) = product i j := hout.written junk hi hj
  cases bias with
  | none =>
      rw [Option.elim_none, add_zero]
      exact hwritten
  | some b => exact congrArg (· + b j) hwritten

/-! ### Loads -/

theorem inRange_pair {β : Type} {t : Tensor β} {rows cols : Nat} (ht : t.shape = [rows, cols])
    (i j : Nat) : t.InRange [i, j] ↔ i < rows ∧ j < cols := by
  simp [Tensor.InRange, ht]

theorem loadAt_ok {ι β : Type} {t : Tensor α} {lanes : List ι} {mask : ι → Bool}
    {idx : ι → List Nat} {read : α → β} {other : β}
    (h : ∀ i ∈ lanes, mask i = true → t.InRange (idx i)) :
    loadAt t lanes mask idx read other =
      .ok fun i => if mask i then read (t.get (idx i)) else other :=
  load_ok fun i hi hmask => decide_eq_true (h i hi hmask)

theorem loadX_ok (hx : x.shape = [m, k]) {inner step : Nat} {pid : Nat × Nat} {maskK : Nat → Bool}
    (h : ∀ i < inner, maskK (step * inner + i) = true → step * inner + i < k) :
    loadX blockM x m inner pid step maskK = .ok fun l =>
      if pid.1 * blockM + l.1 < m && maskK (step * inner + l.2) then
        x.get [pid.1 * blockM + l.1, step * inner + l.2] else 0 := by
  refine loadAt_ok fun l hl hmask => ?_
  obtain ⟨hm, hk⟩ := Bool.and_eq_true_iff.mp hmask
  exact (inRange_pair hx _ _).mpr ⟨of_decide_eq_true hm, h _ (mem_tile.mp hl).2 hk⟩

/-- Where a group is whole words, a lane of it has a word of the group, and a place in the word. -/
theorem group_words {word groupSize : Nat} (h : word ∣ groupSize) (g i : Nat) :
    (g * groupSize + i) / word = g * (groupSize / word) + i / word ∧
      (g * groupSize + i) % word = i % word := by
  obtain ⟨q, rfl⟩ := h
  rcases Nat.eq_zero_or_pos word with rfl | hword
  · simp
  · have hmul : g * (word * q) = word * (g * q) := Nat.mul_left_comm g word q
    rw [hmul, Nat.mul_add_div hword, Nat.mul_add_mod, Nat.mul_div_cancel_left _ hword]
    exact ⟨rfl, rfl⟩

/-- What Triton asks of the tiles: powers of two that are not too large, and enough for a dot. -/
structure TilesFit (blockM blockN inner : Nat) : Prop where
  blockM_pow : powerOfTwo blockM
  blockN_pow : powerOfTwo blockN
  inner_pow : powerOfTwo inner
  acc_le : blockM * blockN ≤ maxNumel
  x_le : blockM * inner ≤ maxNumel
  w_le : blockN * inner ≤ maxNumel
  floor : 8 ≤ inner

theorem compiles_iff {inner : Nat} {lengths : List Nat} :
    compiles blockM blockN inner lengths = true ↔
      TilesFit blockM blockN inner ∧ ∀ n ∈ lengths, powerOfTwo n = true := by
  simp only [compiles, Bool.and_eq_true, List.all_cons, List.all_nil, List.all_eq_true,
    decide_eq_true_eq, and_true]
  constructor
  · rintro ⟨⟨⟨hM, hN, hinner, hlengths⟩, hacc, hx, hw⟩, hfloor⟩
    exact ⟨⟨hM, hN, hinner, hacc, hx, hw, hfloor⟩, hlengths⟩
  · rintro ⟨h, hlengths⟩
    exact ⟨⟨⟨h.blockM_pow, h.blockN_pow, h.inner_pow, hlengths⟩, h.acc_le, h.x_le, h.w_le⟩, h.floor⟩

/-! ### Block-FP8 -/

section Fp8

variable {weight weightScaleInv : Tensor α} {block : Nat} {w : Tensor K}

/-- The product of `x` and the transposed matrix. -/
def product (x w : Tensor K) (k : Nat) (i j : Nat) : K :=
  ∑ l ∈ Finset.range k, x.get [i, l] * w.get [j, l]

/-- What the wrapper of block-FP8 checks. -/
structure Fp8Accepts (x : Tensor K) (weight weightScaleInv : Tensor α) (block blockN m n k : Nat) :
    Prop where
  x_shape : x.shape = [m, k]
  weight_shape : weight.shape = [n, k]
  scale_shape : weightScaleInv.shape = [cdiv n block, cdiv k block]
  block_pos : 0 < block
  dvd : blockN ∣ block

theorem fp8Kernel_computes (h : Fp8Accepts x weight weightScaleInv block blockN m n k)
    (hM : 0 < blockM) (hw : dequantizeBlockFp8 S.elements block weight weightScaleInv = .ok w)
    (hcompiles : compiles blockM blockN block [] = true) :
    ∃ out, fusedFp8Kernel S blockM blockN x weight weightScaleInv m n k block = .ok out ∧
      Computes m n (product x w k) out := by
  have hN : 0 < blockN := Nat.pos_of_dvd_of_pos h.dvd h.block_pos
  rw [fusedFp8Kernel, hcompiles]
  refine launch_accumulate hM hN
    (x := fun pid kb r i => if pid.1 * blockM + r < m && kb * block + i < k then
      x.get [pid.1 * blockM + r, kb * block + i] else 0)
    (w := fun pid kb i c => (if pid.2 * blockN + c < n && kb * block + i < k then
      S.float (weight.get [pid.2 * blockN + c, kb * block + i]) else 0) *
        S.float (weightScaleInv.get [pid.2 * blockN / block, kb])) ?_ ?_
  · intro pid hpid kb hkb
    have hrow : pid.2 * blockN / block < cdiv n block :=
      lt_cdiv_mul h.block_pos (mul_lt_of_lt_cdiv (mem_tile.mp hpid).2)
    have hload : loadAt weight (tile block blockN)
        (fun l => pid.2 * blockN + l.2 < n && kb * block + l.1 < k)
        (fun l => [pid.2 * blockN + l.2, kb * block + l.1]) S.float 0 = .ok _ :=
      loadAt_ok fun l _ hmask => (inRange_pair h.weight_shape _ _).mpr
        ((Bool.and_eq_true_iff.mp hmask).imp of_decide_eq_true of_decide_eq_true)
    have hscale : loadAt weightScaleInv [()] (fun _ => true)
        (fun _ => [pid.2 * blockN / block, kb]) S.float 0 = .ok _ :=
      loadAt_ok fun _ _ _ => (inRange_pair h.scale_shape _ _).mpr ⟨hrow, hkb⟩
    have hx : loadX blockM x m block pid kb (fun j => j < k) = .ok _ :=
      loadX_ok h.x_shape fun _ _ hmask => of_decide_eq_true hmask
    simp only [fp8Tiles, hload, hscale, hx, bind, Except.bind, if_true]
    rfl
  · intro pid r c hr hc hm hn
    obtain ⟨-, n', k', hweight, -, rfl⟩ := dequantizeBlockFp8_eq_ok.mp hw
    apply sum_tiles h.block_pos
    intro kb _ i hi
    by_cases hk : kb * block + i < k
    · simp only [hm, hn, hk, decide_true, Bool.and_self, if_true]
      change _ = _ * (S.float (weight.get [pid.2 * blockN + c, kb * block + i]) *
        S.float (weightScaleInv.get [(pid.2 * blockN + c) / block, (kb * block + i) / block]))
      rw [tile_div_block h.dvd hc, lane_div hi]
    · simp [hk]

end Fp8

/-! ### INT8 -/

section Int8

variable {weightPacked weightScale : Tensor α} {packedCols numGroups groupSize : Nat} {w : Tensor K}

/-- What the wrapper of INT8 and its dequantizer check: whole groups, of whole words. -/
structure Int8Accepts (x : Tensor K) (weightPacked weightScale : Tensor α)
    (m n k packedCols numGroups groupSize : Nat) : Prop where
  x_shape : x.shape = [m, k]
  packed_shape : weightPacked.shape = [n, packedCols]
  scale_shape : weightScale.shape = [n, numGroups]
  numGroups_pos : 0 < numGroups
  groups : k = numGroups * groupSize
  words : 4 ∣ groupSize
  floor : 8 ≤ groupSize
  columns : k ≤ packedCols * 4

theorem int8Kernel_computes
    (h : Int8Accepts x weightPacked weightScale m n k packedCols numGroups groupSize)
    (hM : 0 < blockM) (hN : 0 < blockN)
    (hw : dequantizeInt8Packed S.elements k weightPacked weightScale = .ok w)
    (hcompiles : compiles blockM blockN groupSize [groupSize / 4, 4] = true) :
    ∃ out, fusedInt8Kernel S blockM blockN x weightPacked weightScale m n k groupSize = .ok out ∧
      Computes m n (product x w k) out := by
  have hgs : 0 < groupSize := Nat.lt_of_lt_of_le (by decide) h.floor
  have hsteps : cdiv k groupSize = numGroups := by
    rw [h.groups, Nat.mul_comm, cdiv_mul hgs]
  rw [fusedInt8Kernel, hcompiles]
  refine launch_accumulate hM hN
    (x := fun pid g r i => if pid.1 * blockM + r < m && g * groupSize + i < k then
      x.get [pid.1 * blockM + r, g * groupSize + i] else 0)
    (w := fun pid g i c =>
      ((((if pid.2 * blockN + c < n then S.int32 (weightPacked.get
        [pid.2 * blockN + c, g * (groupSize / 4) + i / 4]) else 0).sshiftRight (8 * (i % 4)) &&&
          0xFF#32).toNat : K) - 128) *
        (if pid.2 * blockN + c < n then S.float (weightScale.get [pid.2 * blockN + c, g]) else 0))
    ?_ ?_
  · intro pid _ g hg
    have hword : ∀ c < groupSize / 4, g * (groupSize / 4) + c < packedCols := by
      intro c hc
      have hlane := lane_lt (Dvd.intro_left _ h.groups.symm) hg (show c * 4 < groupSize by omega)
      have hpacked := (Nat.div_lt_iff_lt_mul (by decide)).mpr (Nat.lt_of_lt_of_le hlane h.columns)
      rwa [(group_words h.words g _).1, Nat.mul_div_cancel _ (by decide)] at hpacked
    have hload : loadAt weightPacked (tile blockN (groupSize / 4)) (fun l => pid.2 * blockN + l.1 < n)
        (fun l => [pid.2 * blockN + l.1, g * (groupSize / 4) + l.2]) S.int32 0 = .ok _ :=
      loadAt_ok fun l hl hmask => (inRange_pair h.packed_shape _ _).mpr
        ⟨of_decide_eq_true hmask, hword _ (mem_tile.mp hl).2⟩
    have hscale : loadAt weightScale (List.range blockN) (fun c => pid.2 * blockN + c < n)
        (fun c => [pid.2 * blockN + c, g]) S.float 0 = .ok _ :=
      loadAt_ok fun _ _ hmask => (inRange_pair h.scale_shape _ _).mpr
        ⟨of_decide_eq_true hmask, hsteps ▸ hg⟩
    have hx : loadX blockM x m groupSize pid g (fun j => j < k) = .ok _ :=
      loadX_ok h.x_shape fun _ _ hmask => of_decide_eq_true hmask
    simp only [int8Tiles, hload, hscale, hx, bind, Except.bind, decide_eq_true_eq]
    rfl
  · intro pid r c hr hc hm hn
    obtain ⟨n', packedCols', numGroups', hs, rfl⟩ := dequantizeInt8Packed_eq_ok.mp hw
    cases h.scale_shape.symm.trans hs.scale_shape
    have hsize : (k : Int).toNat / numGroups = groupSize := by
      rw [Int.toNat_natCast, h.groups, Nat.mul_div_cancel_left _ h.numGroups_pos]
    apply sum_tiles hgs
    intro g _ i hi
    obtain ⟨hdiv, hmod⟩ := group_words h.words g i
    by_cases hk : g * groupSize + i < k
    · simp only [hm, hn, hk, decide_true, Bool.and_self, if_true]
      change _ = _ * (((unpackInt8 (S.int32 (weightPacked.get
        [pid.2 * blockN + c, (g * groupSize + i) / 4])) ((g * groupSize + i) % 4) : Int) : K) *
          S.float (weightScale.get [pid.2 * blockN + c, (g * groupSize + i) / ((k : Int).toNat / numGroups)]))
      rw [hsize, lane_div hi, hdiv, hmod, unpackInt8]
      push_cast
      rfl
    · simp [hk]

end Int8

/-! ### MXFP4 -/

section Mxfp4

variable {weightBlocks weightScales : Tensor α} {nBlocks : Nat} {w : Tensor K}

/-- The selects of the kernel are the table of the dequantizer. -/
theorem mxfp4Lut_eq (code : BitVec 8) : code.toNat < 16 →
    mxfp4Lut.getD code.toNat (false, 0) = (decide (8 ≤ code.toNat), mxfp4MagnitudeLut (code &&& 7#8)) := by
  revert code
  decide +kernel

theorem mxfp4Number_eq (code : BitVec 8) (h : code.toNat < 16) :
    mxfp4Number S.elements code = mxfp4Lane code := by
  simp only [mxfp4Number, mxfp4Lut_eq code h, mxfp4Lane, Stored.elements, decide_eq_true_eq]
  split <;> simp

/-- Element `i` of a byte: the mask of the high code is not needed. -/
theorem mxfp4_code (i : Nat) (byte : BitVec 8) :
    (if i % 2 = 0 then byte &&& 0xF#8 else (byte >>> 4) &&& 0xF#8) =
      (if i % 2 = 0 then byte &&& 0x0F#8 else byte >>> 4) ∧
    (if i % 2 = 0 then byte &&& 0x0F#8 else byte >>> 4).toNat < 16 := by
  have hbyte : ∀ byte : BitVec 8, (byte &&& 0x0F#8).toNat < 16 ∧ (byte >>> 4).toNat < 16 ∧
      (byte >>> 4) &&& 0xF#8 = byte >>> 4 := by
    decide +kernel
  obtain ⟨hlo, hhi, hmask⟩ := hbyte byte
  rw [hmask]
  refine ⟨rfl, ?_⟩
  split
  · exact hlo
  · exact hhi

/-- What the wrapper of MXFP4 checks. -/
structure Mxfp4Accepts (x : Tensor K) (weightBlocks weightScales : Tensor α) (m n k nBlocks : Nat) :
    Prop where
  x_shape : x.shape = [m, k]
  blocks_shape : weightBlocks.shape = [n, nBlocks, 16]
  scales_shape : weightScales.shape = [n, nBlocks]
  columns : nBlocks * 32 = k

theorem mxfp4Kernel_computes (h : Mxfp4Accepts x weightBlocks weightScales m n k nBlocks)
    (hM : 0 < blockM) (hN : 0 < blockN)
    (hw : dequantizeMxfp4Blocks S.elements weightBlocks weightScales = .ok w)
    (hcompiles : compiles blockM blockN 32 [16] = true) :
    ∃ out, fusedMxfp4Kernel S blockM blockN x weightBlocks weightScales m n k = .ok out ∧
      Computes m n (product x w k) out := by
  have hsteps : cdiv k 32 = nBlocks := by
    rw [← h.columns, Nat.mul_comm, cdiv_mul (by decide)]
  rw [fusedMxfp4Kernel, hcompiles]
  refine launch_accumulate hM hN
    (x := fun pid kb r i => if pid.1 * blockM + r < m && kb * 32 + i < k then
      x.get [pid.1 * blockM + r, kb * 32 + i] else 0)
    (w := fun pid kb i c =>
      let byte := if pid.2 * blockN + c < n then
        S.uint8 (weightBlocks.get [pid.2 * blockN + c, kb, i / 2]) else 0
      let exponent := if pid.2 * blockN + c < n then
        S.uint8 (weightScales.get [pid.2 * blockN + c, kb]) else 0
      mxfp4Lane (if i % 2 = 0 then byte &&& 0xF#8 else (byte >>> 4) &&& 0xF#8) *
        S.exp2 ((exponent.toNat : K) - 127)) ?_ ?_
  · intro pid _ kb hkb
    have hbytes : ∀ r < n, ∀ b < 16, weightBlocks.InRange [r, kb, b] := by
      intro r hr b hb
      rw [Tensor.InRange, h.blocks_shape]
      exact .cons hr (.cons (hsteps ▸ hkb) (.cons hb .nil))
    have hload : loadAt weightBlocks (tile blockN 16) (fun l => pid.2 * blockN + l.1 < n)
        (fun l => [pid.2 * blockN + l.1, kb, l.2]) S.uint8 0 = .ok _ :=
      loadAt_ok fun _ hl hmask => hbytes _ (of_decide_eq_true hmask) _ (mem_tile.mp hl).2
    have hscale : loadAt weightScales (List.range blockN) (fun c => pid.2 * blockN + c < n)
        (fun c => [pid.2 * blockN + c, kb]) S.uint8 0 = .ok _ :=
      loadAt_ok fun _ _ hmask => (inRange_pair h.scales_shape _ _).mpr
        ⟨of_decide_eq_true hmask, hsteps ▸ hkb⟩
    have hx : loadX blockM x m 32 pid kb (fun j => j < k) = .ok _ :=
      loadX_ok h.x_shape fun _ _ hmask => of_decide_eq_true hmask
    simp only [mxfp4Tiles, hload, hscale, hx, bind, Except.bind, decide_eq_true_eq]
    refine congrArg Except.ok (Prod.ext rfl ?_)
    funext i c
    rcases Nat.mod_two_eq_zero_or_one i with hi | hi <;> simp [hi]
  · intro pid r c hr hc hm hn
    obtain ⟨rest, nBlocks', -, hs, rfl⟩ := dequantizeMxfp4Blocks_eq_ok.mp hw
    apply sum_tiles (by decide)
    intro kb _ i hi
    by_cases hk : kb * 32 + i < k
    · simp only [hm, hn, hk, decide_true, Bool.and_self, if_true]
      refine congrArg (_ * ·) ?_
      change _ = mxfp4Value S.elements weightBlocks weightScales [pid.2 * blockN + c] (kb * 32 + i)
      have hdiv : (kb * 32 + i) / 32 = kb := by omega
      have hbyte : (kb * 32 + i) % 32 / 2 = i / 2 := by omega
      have hparity : (kb * 32 + i) % 2 = i % 2 := by omega
      simp only [mxfp4Value, hdiv, hbyte, hparity]
      change _ = mxfp4Number S.elements (if i % 2 = 0 then
          S.uint8 (weightBlocks.get [pid.2 * blockN + c, kb, i / 2]) &&& 0x0F#8
        else S.uint8 (weightBlocks.get [pid.2 * blockN + c, kb, i / 2]) >>> 4) *
        S.exp2 ((((S.uint8 (weightScales.get [pid.2 * blockN + c, kb])).toNat : Int) : K) -
          ((127 : Int) : K))
      obtain ⟨hmask, hcode⟩ := mxfp4_code i (S.uint8 (weightBlocks.get [pid.2 * blockN + c, kb, i / 2]))
      rw [mxfp4Number_eq _ hcode, hmask]
      push_cast
      rfl
    · simp [hk]

end Mxfp4

/-! ### The wrappers -/

/-- The weights of a fused linear. -/
inductive FusedWeights (α : Type) where
  | fp8 (block : Nat) (weight weightScaleInv : Tensor α)
  | int8 (k : Int) (weightPacked weightScale : Tensor α)
  | mxfp4 (weightBlocks weightScales : Tensor α)

namespace FusedWeights

variable (W : FusedWeights α)

/-- The matrix that the dequantizer of the format gives. -/
def dequantize (S : Stored α K) : Except DequantError (Tensor K) :=
  match W with
  | fp8 block weight weightScaleInv => dequantizeBlockFp8 S.elements block weight weightScaleInv
  | int8 k weightPacked weightScale => dequantizeInt8Packed S.elements k weightPacked weightScale
  | mxfp4 weightBlocks weightScales => dequantizeMxfp4Blocks S.elements weightBlocks weightScales

/-- The fused linear of the format. -/
def linear (S : Stored α K) (blockM blockN : Nat) (bias : Option (Nat → K)) (junk : Nat × Nat → K)
    (x : Tensor K) : Except FusedError (Tensor K) :=
  match W with
  | fp8 block weight weightScaleInv =>
      fusedFp8Linear S blockM blockN block bias junk x weight weightScaleInv
  | int8 k weightPacked weightScale =>
      fusedInt8Linear S blockM blockN k bias junk x weightPacked weightScale
  | mxfp4 weightBlocks weightScales =>
      fusedMxfp4Linear S blockM blockN bias junk x weightBlocks weightScales

/-- The columns of a step: a block or a group. -/
def inner (k : Nat) : Nat :=
  match W with
  | fp8 block _ _ => block
  | int8 _ _ weightScale => k / weightScale.size 1
  | mxfp4 _ _ => 32

/-- The kernel of the format. -/
def kernel (S : Stored α K) (blockM blockN : Nat) (x : Tensor K) (m n k : Nat) :
    Except LaunchError (List ((Nat × Nat) × K)) :=
  match W with
  | fp8 block weight weightScaleInv =>
      fusedFp8Kernel S blockM blockN x weight weightScaleInv m n k block
  | int8 _ weightPacked weightScale =>
      fusedInt8Kernel S blockM blockN x weightPacked weightScale m n k (k / weightScale.size 1)
  | mxfp4 weightBlocks weightScales =>
      fusedMxfp4Kernel S blockM blockN x weightBlocks weightScales m n k

end FusedWeights

/-- The checks of a wrapper pass: what is left to fail is the launch. -/
def Checked (result : Except FusedError (Tensor K)) : Prop :=
  result ≠ .error .valueError ∧ result ≠ .error .zeroDivision

theorem fusedFp8Linear_checked {weight weightScaleInv : Tensor α} {block : Nat}
    (h : Checked (fusedFp8Linear S blockM blockN block bias junk x weight weightScaleInv)) :
    ∃ m n k, Fp8Accepts x weight weightScaleInv block blockN m n k ∧
      fusedFp8Linear S blockM blockN block bias junk x weight weightScaleInv =
        fusedResult m n bias junk
          (fusedFp8Kernel S blockM blockN x weight weightScaleInv m n k block) := by
  generalize hr : fusedFp8Linear S blockM blockN block bias junk x weight weightScaleInv = r at h ⊢
  obtain ⟨hvalue, hzero⟩ := h
  rw [fusedFp8Linear] at hr
  split at hr
  · exact absurd hr.symm hzero
  split at hr
  · exact absurd hr.symm hvalue
  next hdvd =>
    split at hr
    · next m k n k2 hx hweight =>
        split_ifs at hr with hk hblock hscale hM
        · exact absurd hr.symm hvalue
        · exact absurd hr.symm hzero
        · exact absurd hr.symm hvalue
        · exact absurd hr.symm hzero
        · cases not_not.mp hk
          exact ⟨m, n, k, ⟨hx, hweight, not_not.mp hscale, Nat.pos_of_ne_zero hblock,
            Nat.dvd_of_mod_eq_zero (not_not.mp hdvd)⟩, hr.symm⟩
    · exact absurd hr.symm hvalue

theorem fusedInt8Linear_checked {weightPacked weightScale : Tensor α} {k : Int} {w : Tensor K}
    (h : Checked (fusedInt8Linear S blockM blockN k bias junk x weightPacked weightScale))
    (hw : dequantizeInt8Packed S.elements k weightPacked weightScale = .ok w) :
    ∃ m n kx packedCols : Nat, k = kx ∧ Int8Accepts x weightPacked weightScale m n kx packedCols
        (weightScale.size 1) (kx / weightScale.size 1) ∧
      fusedInt8Linear S blockM blockN k bias junk x weightPacked weightScale =
        fusedResult m n bias junk (fusedInt8Kernel S blockM blockN x weightPacked weightScale m n kx
          (kx / weightScale.size 1)) := by
  generalize hr : fusedInt8Linear S blockM blockN k bias junk x weightPacked weightScale = r at h ⊢
  obtain ⟨hvalue, hzero⟩ := h
  rw [fusedInt8Linear] at hr
  split at hr
  · next m kx n packedCols rows numGroups hx hpacked hscale =>
      have hsize : weightScale.size 1 = numGroups := by
        rw [Tensor.size, hscale]
        rfl
      split_ifs at hr with hk hrows hgroups hmod hwords hfloor hblocks
      · exact absurd hr.symm hvalue
      · exact absurd hr.symm hvalue
      · exact absurd hr.symm hzero
      · exact absurd hr.symm hvalue
      · exact absurd hr.symm hvalue
      · exact absurd hr.symm hvalue
      · exact absurd hr.symm hzero
      · cases not_not.mp hrows
        cases not_not.mp hk
        refine ⟨m, n, kx, packedCols, rfl, ?_, hsize ▸ hr.symm⟩
        rw [hsize]
        have hpos : 0 < numGroups := Nat.pos_of_ne_zero hgroups
        have hcols : kx ≤ packedCols * 4 := by
          obtain ⟨n', packedCols', numGroups', hs, -⟩ := dequantizeInt8Packed_eq_ok.mp hw
          cases hpacked.symm.trans hs.packed_shape
          rcases hs.columns with hle | ⟨-, hone⟩
          · exact hle
          · -- a group of one column is below the floor
            have hle := Nat.div_le_self kx numGroups
            omega
        exact ⟨hx, hpacked, hscale, hpos,
          (Nat.mul_div_cancel' (Nat.dvd_of_mod_eq_zero (not_not.mp hmod))).symm,
          Nat.dvd_of_mod_eq_zero (not_not.mp hwords), Nat.not_lt.mp hfloor, hcols⟩
  · exact absurd hr.symm hvalue

theorem fusedMxfp4Linear_checked {weightBlocks weightScales : Tensor α}
    (h : Checked (fusedMxfp4Linear S blockM blockN bias junk x weightBlocks weightScales)) :
    ∃ m n k nBlocks, Mxfp4Accepts x weightBlocks weightScales m n k nBlocks ∧
      fusedMxfp4Linear S blockM blockN bias junk x weightBlocks weightScales =
        fusedResult m n bias junk
          (fusedMxfp4Kernel S blockM blockN x weightBlocks weightScales m n k) := by
  generalize hr : fusedMxfp4Linear S blockM blockN bias junk x weightBlocks weightScales = r at h ⊢
  obtain ⟨hvalue, hzero⟩ := h
  rw [fusedMxfp4Linear] at hr
  split at hr
  · next m k n nBlocks bytes hx hblocks =>
      split_ifs at hr with hbytes hk hscales hpos
      · exact absurd hr.symm hvalue
      · exact absurd hr.symm hvalue
      · exact absurd hr.symm hvalue
      · exact absurd hr.symm hzero
      · cases not_not.mp hbytes
        exact ⟨m, n, k, nBlocks, ⟨hx, hblocks, not_not.mp hscales, not_not.mp hk⟩, hr.symm⟩
  · exact absurd hr.symm hvalue

/-- What is accepted is launched with the shapes of `x` and of the dequantized matrix, and comes
through just when the tiles fit. -/
theorem FusedWeights.accepted (W : FusedWeights α) {w : Tensor K}
    (hchecked : Checked (W.linear S blockM blockN bias junk x)) (hw : W.dequantize S = .ok w) :
    W.linear S blockM blockN bias junk x = fusedResult (x.size 0) (w.size 0) bias junk
        (W.kernel S blockM blockN x (x.size 0) (w.size 0) (x.size 1)) ∧
      (TilesFit blockM blockN (W.inner (x.size 1)) →
        ∃ out, W.kernel S blockM blockN x (x.size 0) (w.size 0) (x.size 1) = .ok out ∧
          Computes (x.size 0) (w.size 0) (product x w (x.size 1)) out) ∧
      ∀ out, W.kernel S blockM blockN x (x.size 0) (w.size 0) (x.size 1) = .ok out →
        TilesFit blockM blockN (W.inner (x.size 1)) := by
  have hsizes : ∀ {m k : Nat}, x.shape = [m, k] → x.size 0 = m ∧ x.size 1 = k := by
    intro m k hx
    rw [Tensor.size, Tensor.size, hx]
    exact ⟨rfl, rfl⟩
  cases W with
  | fp8 block weight weightScaleInv =>
      obtain ⟨m, n, k, h, hlinear⟩ := fusedFp8Linear_checked hchecked
      obtain ⟨hm, hk⟩ := hsizes h.x_shape
      obtain ⟨-, n', k', hweight, -, hw'⟩ := dequantizeBlockFp8_eq_ok.mp hw
      cases h.weight_shape.symm.trans hweight
      have hn : w.size 0 = n := by rw [hw']; rfl
      rw [hm, hn, hk]
      refine ⟨hlinear, fun hfit => ?_, fun out hout => ?_⟩
      · exact fp8Kernel_computes h (powerOfTwo_pos hfit.blockM_pow) hw
          (compiles_iff.mpr ⟨hfit, List.forall_mem_nil _⟩)
      · exact (compiles_iff.mp (launch_compiles hout)).1
  | int8 kGiven weightPacked weightScale =>
      obtain ⟨m, n, k, packedCols, rfl, h, hlinear⟩ := fusedInt8Linear_checked hchecked hw
      obtain ⟨hm, hk⟩ := hsizes h.x_shape
      obtain ⟨n', packedCols', numGroups', hs, hw'⟩ := dequantizeInt8Packed_eq_ok.mp hw
      cases h.packed_shape.symm.trans hs.packed_shape
      have hn : w.size 0 = n := by rw [hw']; rfl
      rw [hm, hn, hk]
      refine ⟨hlinear, fun hfit => ?_, fun out hout => ?_⟩
      · refine int8Kernel_computes h (powerOfTwo_pos hfit.blockM_pow)
          (powerOfTwo_pos hfit.blockN_pow) hw (compiles_iff.mpr ⟨hfit, ?_⟩)
        have hwords : powerOfTwo (k / weightScale.size 1 / 4) = true :=
          powerOfTwo_div (e := 2) hfit.inner_pow rfl (Nat.le_trans (by decide) hfit.floor)
        simpa using ⟨hwords, powerOfTwo_iff.mpr ⟨2, rfl⟩⟩
      · exact (compiles_iff.mp (launch_compiles hout)).1
  | mxfp4 weightBlocks weightScales =>
      obtain ⟨m, n, k, nBlocks, h, hlinear⟩ := fusedMxfp4Linear_checked hchecked
      obtain ⟨hm, hk⟩ := hsizes h.x_shape
      have hn : w.size 0 = n := by
        rw [Tensor.size, dequantizeMxfp4Blocks_shape h.scales_shape hw]
        rfl
      rw [hm, hn, hk]
      refine ⟨hlinear, fun hfit => ?_, fun out hout => ?_⟩
      · refine mxfp4Kernel_computes h (powerOfTwo_pos hfit.blockM_pow)
          (powerOfTwo_pos hfit.blockN_pow) hw (compiles_iff.mpr ⟨hfit, ?_⟩)
        simpa using powerOfTwo_iff.mpr ⟨4, rfl⟩
      · exact (compiles_iff.mp (launch_compiles hout)).1

/-- The fused linears multiply with the dequantized matrix just when their tiles fit. -/
theorem fusedLinear_iff (W : FusedWeights α) (S : Stored α K) (blockM blockN : Nat)
    (bias : Option (Nat → K)) (junk : Nat × Nat → K) (x w : Tensor K)
    (hchecked : Checked (W.linear S blockM blockN bias junk x)) (hw : W.dequantize S = .ok w) :
    FusedProduct (x.size 0) (w.size 0) (product x w (x.size 1)) bias
        (W.kernel S blockM blockN x (x.size 0) (w.size 0) (x.size 1))
        (W.linear S blockM blockN bias junk x) ↔
      TilesFit blockM blockN (W.inner (x.size 1)) := by
  obtain ⟨hlinear, hcomputes, hfit⟩ := W.accepted hchecked hw
  constructor
  · intro h
    obtain ⟨out, hout, -⟩ := h.launched_ok
    exact hfit out hout
  · intro h
    rw [hlinear]
    exact fusedProduct_of_launched (hcomputes h)

/-- Integers as stored elements; `exp2` is that of whole exponents. -/
def intStored : Stored ℤ ℚ where
  int32 := BitVec.ofInt 32
  uint8 := BitVec.ofInt 8
  item := id
  float := fun z => z
  exp2 := fun q => 2 ^ q.floor

/-- INT8 weights with one row and one group of `k` columns. -/
def perChannel (k : Nat) : FusedWeights ℤ := .int8 k ⟨[1, k / 4], fun _ => 1⟩ ⟨[1, 1], fun _ => 2⟩

theorem checked_fusedResult {launched : Except LaunchError (List ((Nat × Nat) × K))} :
    Checked (fusedResult m n bias junk launched) := by
  cases launched <;> exact ⟨nofun, nofun⟩

theorem perChannel_dequantize (k : Nat) (hk : k % 4 = 0) :
    ∃ w, (perChannel k).dequantize intStored = .ok w ∧ w.size 0 = 1 := by
  have hs : Int8Shapes k (⟨[1, k / 4], fun _ => 1⟩ : Tensor ℤ) (⟨[1, 1], fun _ => 2⟩ : Tensor ℤ) 1
      (k / 4) 1 := by
    refine ⟨rfl, rfl, Nat.one_pos, one_dvd _, Int.natCast_nonneg k, .inl ?_⟩
    rw [Int.toNat_natCast]
    omega
  exact ⟨_, dequantizeInt8Packed_eq_ok.mpr ⟨1, k / 4, 1, hs, rfl⟩, rfl⟩

theorem perChannel_linear (k : Nat) (hk : k % 4 = 0) (hfloor : 8 ≤ k) :
    Checked ((perChannel k).linear intStored 8 16 none (fun _ => 0) ⟨[1, k], fun _ => 1⟩) := by
  have hlinear : (perChannel k).linear intStored 8 16 none (fun _ => 0) ⟨[1, k], fun _ => 1⟩ =
      fusedResult 1 1 none (fun _ => 0) (fusedInt8Kernel intStored 8 16 ⟨[1, k], fun _ => 1⟩
        ⟨[1, k / 4], fun _ => 1⟩ ⟨[1, 1], fun _ => 2⟩ 1 1 k (k / 1)) := by
    simp [perChannel, FusedWeights.linear, fusedInt8Linear, Nat.mod_one, hk, Nat.not_lt.mpr hfloor]
  rw [hlinear]
  exact checked_fusedResult

/-- The fused linear of 32 columns in one group. -/
theorem channelOf32_fused : ∃ w, FusedProduct 1 1 (product ⟨[1, 32], fun _ => 1⟩ w 32) none
    ((perChannel 32).kernel intStored 8 16 ⟨[1, 32], fun _ => 1⟩ 1 1 32)
    ((perChannel 32).linear intStored 8 16 none (fun _ => 0) ⟨[1, 32], fun _ => 1⟩) := by
  obtain ⟨w, hw, hn⟩ := perChannel_dequantize 32 rfl
  refine ⟨w, ?_⟩
  have hlinear := fusedLinear_iff (perChannel 32) intStored 8 16 none (fun _ => 0)
    ⟨[1, 32], fun _ => 1⟩ w (perChannel_linear 32 rfl (by decide)) hw
  rw [hn] at hlinear
  exact hlinear.mpr ⟨by decide, by decide, by decide, by decide, by decide, by decide, by decide⟩

/-- 768 columns in one group are accepted, but their kernel does not compile. -/
theorem channelOf768_not_fused :
    Checked ((perChannel 768).linear intStored 8 16 none (fun _ => 0) ⟨[1, 768], fun _ => 1⟩) ∧
    ∃ w, (perChannel 768).dequantize intStored = .ok w ∧
      ¬ FusedProduct 1 1 (product ⟨[1, 768], fun _ => 1⟩ w 768) none
        ((perChannel 768).kernel intStored 8 16 ⟨[1, 768], fun _ => 1⟩ 1 1 768)
        ((perChannel 768).linear intStored 8 16 none (fun _ => 0) ⟨[1, 768], fun _ => 1⟩) := by
  obtain ⟨w, hw, -⟩ := perChannel_dequantize 768 rfl
  refine ⟨perChannel_linear 768 rfl (by decide), w, hw, ?_⟩
  intro h
  obtain ⟨out, hout, -⟩ := h.launched_ok
  rw [perChannel, FusedWeights.kernel, fusedInt8Kernel] at hout
  have hfit := (compiles_iff.mp (launch_compiles hout)).1
  exact absurd hfit.inner_pow (by decide)

end FreeToken
