import FreeToken.Kernel.Dequantize
import FreeToken.Lib.Packed
import Mathlib.Data.Int.Log
import Mathlib.Data.Finset.Lattice.Fold
import Mathlib.Data.List.MinMax
import Mathlib.Data.Rat.Floor
import Mathlib.Tactic.NormNum
import Mathlib.Tactic.Linarith
import Mathlib.Tactic.Ring
import Mathlib.Tactic.FieldSimp

/-!
# Quantizing to MXFP4

`quantize_mxfp4_blocks` of `kernel/triton/mxfp4_linear`, in exact arithmetic. The scale of a block is
the least power of two that brings its largest magnitude down to 6, and every element takes the
nearest code. A block that some codes and a scale stand for keeps its values: the largest of them
leaves room for a finer scale only when all of them are numbers of the table on it too.
-/

namespace FreeToken

/-- Bytes as they are stored, and exact arithmetic for them. The exponents are integers. -/
def exactElements : Elements (BitVec 8) ℚ ℚ where
  int32 b := b.setWidth 32
  uint8 b := b
  item b := b.toInt
  float b := b.toNat
  ofInt i := i
  half neg n := if neg then -(n / (2 : Nat)) else n / (2 : Nat)
  mul a b := a * b
  sub a b := a - b
  exp2 a := 2 ^ ⌊a⌋
  cast a := a

/-! ### The quantizer -/

/-- The number of code `c`. -/
def mxfp4Entry (c : Nat) : ℚ :=
  exactElements.half (mxfp4Lut.getD c (false, 0)).1 (mxfp4Lut.getD c (false, 0)).2

/-- `abs().amax(dim=-1)`, of a block. -/
def blockAmax (v : Nat → ℚ) : ℚ :=
  (Finset.range 32).sup' ⟨0, Finset.mem_range.mpr (Nat.succ_pos 31)⟩ fun j => |v j|

/-- The exponent of a block, biased and clamped: `ceil(log2(amax / 6)) + 127`. The least power of two
that is not below a number is `Int.clog` of it. -/
def exponentByte (v : Nat → ℚ) : BitVec 8 :=
  let amax := max (blockAmax v) (1 / 10 ^ 12)
  BitVec.ofNat 8 (max 0 (min 254 (Int.clog 2 (amax / 6) + 127))).toNat

/-- `torch.exp2(exponent_byte - 127)`. -/
def blockScale (exponent : BitVec 8) : ℚ := 2 ^ ((exponent.toNat : Int) - 127)

/-- `(scaled - lut).abs().argmin()`: the first of the nearest codes. -/
def nearestCode (scaled : ℚ) : BitVec 8 :=
  BitVec.ofNat 8 (((List.range 16).argmin fun c => |scaled - mxfp4Entry c|).getD 0)

/-- Element `j` of the block at `idx`. -/
def blockValue (weight : Tensor ℚ) (idx : List Nat) (j : Nat) : ℚ :=
  weight.get (idx.dropLast ++ [idx.getLastD 0 * 32 + j])

/-- The code of element `j` of the block at `idx`. -/
def blockCode (weight : Tensor ℚ) (idx : List Nat) (j : Nat) : BitVec 8 :=
  nearestCode (blockValue weight idx j / blockScale (exponentByte (blockValue weight idx)))

/-- `blocks_u8`: two codes a byte, the first one low. -/
def packedBlocks (weight : Tensor ℚ) (blocks : List Nat) : Tensor (BitVec 8) :=
  ⟨blocks ++ [16], fun idx =>
    let lo := blockCode weight idx.dropLast (2 * idx.getLastD 0)
    let hi := blockCode weight idx.dropLast (2 * idx.getLastD 0 + 1)
    lo ||| hi <<< 4⟩

/-- `exponent_byte`. -/
def exponentBytes (weight : Tensor ℚ) (blocks : List Nat) : Tensor (BitVec 8) :=
  ⟨blocks, fun idx => exponentByte (blockValue weight idx)⟩

/-- `quantize_mxfp4_blocks`: the blocks, and their scales. -/
def quantizeMxfp4Blocks (weight : Tensor ℚ) :
    Except DequantError (Tensor (BitVec 8) × Tensor (BitVec 8)) :=
  match weight.shape.getLast? with
  | none => .error .indexError
  | some k =>
      if k % 32 ≠ 0 then .error .valueError
      else
        let blocks := weight.shape.dropLast ++ [k / 32]
        .ok (packedBlocks weight blocks, exponentBytes weight blocks)

/-! ### The nearest code -/

theorem nearestCode_lt (x : ℚ) : (nearestCode x).toNat < 16 := by
  have hlt : ((List.range 16).argmin fun c => |x - mxfp4Entry c|).getD 0 < 16 := by
    cases hmin : (List.range 16).argmin fun c => |x - mxfp4Entry c| with
    | none => exact Nat.succ_pos 15
    | some c => exact List.mem_range.mp (List.argmin_mem hmin)
  rw [nearestCode, BitVec.toNat_ofNat, Nat.mod_eq_of_lt (Nat.lt_trans hlt (by decide))]
  exact hlt

/-- A number of the table gets a code of its own. -/
theorem entry_nearestCode {x : ℚ} (h : ∃ c < 16, mxfp4Entry c = x) :
    mxfp4Entry (nearestCode x).toNat = x := by
  obtain ⟨c, hc, rfl⟩ := h
  cases hmin : (List.range 16).argmin fun c' => |mxfp4Entry c - mxfp4Entry c'| with
  | none => exact absurd (List.argmin_eq_none.mp hmin) (by simp)
  | some c' =>
      have hlt : c' < 16 := List.mem_range.mp (List.argmin_mem hmin)
      have hle := List.le_of_mem_argmin (List.mem_range.mpr hc) hmin
      rw [sub_self, abs_zero] at hle
      have heq := abs_eq_zero.mp (le_antisymm hle (abs_nonneg _))
      have hcode : (nearestCode (mxfp4Entry c)).toNat = c' := by
        rw [nearestCode, hmin, Option.getD_some, BitVec.toNat_ofNat,
          Nat.mod_eq_of_lt (Nat.lt_trans hlt (by decide))]
      rw [hcode]
      exact (sub_eq_zero.mp heq).symm

/-! ### The scale of a block -/

theorem abs_le_blockAmax (v : Nat → ℚ) {j : Nat} (hj : j < 32) : |v j| ≤ blockAmax v :=
  Finset.le_sup' (fun j => |v j|) (Finset.mem_range.mpr hj)

theorem exists_blockAmax (v : Nat → ℚ) : ∃ j < 32, blockAmax v = |v j| := by
  obtain ⟨j, hj, heq⟩ :=
    Finset.exists_mem_eq_sup' ⟨0, Finset.mem_range.mpr (Nat.succ_pos 31)⟩ fun j => |v j|
  exact ⟨j, Finset.mem_range.mp hj, heq⟩

/-- The magnitudes of the table, in halves. -/
def mxfp4Magnitudes : List Nat := [0, 1, 2, 3, 4, 6, 8, 12]

theorem abs_half (neg : Bool) (n : Nat) : |exactElements.half neg n| = (n : ℚ) / (2 : Nat) := by
  have hpos : (0 : ℚ) ≤ n / (2 : Nat) := by positivity
  cases neg with
  | false => exact abs_of_nonneg hpos
  | true => exact (abs_neg _).trans (abs_of_nonneg hpos)

/-- The numbers of the table are its magnitudes and their negatives. -/
theorem exists_entry_iff {x : ℚ} :
    (∃ c < 16, mxfp4Entry c = x) ↔ ∃ m ∈ mxfp4Magnitudes, |x| = (m : ℚ) / (2 : Nat) := by
  have hmagnitude : ∀ c < 16, (mxfp4Lut.getD c (false, 0)).2 ∈ mxfp4Magnitudes := by decide
  have hcode : ∀ m ∈ mxfp4Magnitudes, ∀ neg : Bool, ∃ c < 16, mxfp4Lut.getD c (false, 0) = (neg, m) := by
    decide
  constructor
  · rintro ⟨c, hc, rfl⟩
    exact ⟨_, hmagnitude c hc, abs_half _ _⟩
  · rintro ⟨m, hm, habs⟩
    have hpos : (0 : ℚ) ≤ m / (2 : Nat) := by positivity
    rcases eq_or_eq_neg_of_abs_eq habs with rfl | rfl
    · obtain ⟨c, hc, heq⟩ := hcode m hm false
      exact ⟨c, hc, by rw [mxfp4Entry, heq]; rfl⟩
    · obtain ⟨c, hc, heq⟩ := hcode m hm true
      exact ⟨c, hc, by rw [mxfp4Entry, heq]; rfl⟩

/-- On the finest scale that keeps `M` in the table, so is every smaller magnitude. -/
theorem magnitude_room : ∀ M ∈ mxfp4Magnitudes, M ≠ 0 → ∃ k < 4, M * 2 ^ k ≤ 12 ∧ 12 < M * 2 ^ (k + 1) ∧
    ∀ m ∈ mxfp4Magnitudes, m ≤ M → m * 2 ^ k ∈ mxfp4Magnitudes := by
  decide

theorem clog_two_eq {r : ℚ} {e : Int} (hlt : 2 ^ (e - 1) < r) (hle : r ≤ 2 ^ e) : Int.clog 2 r = e := by
  have hpos : 0 < r := lt_trans (zpow_pos two_pos _) hlt
  have hge := (Int.zpow_lt_iff_lt_clog (b := 2) Nat.one_lt_two hpos).mp (by exact_mod_cast hlt)
  have hle' := (Int.le_zpow_iff_clog_le (b := 2) Nat.one_lt_two hpos).mp (by exact_mod_cast hle)
  omega

/-- The scale that is picked for a largest magnitude of `M` halves, on the scale `2 ^ s`. -/
theorem blockScale_exponentByte {v : Nat → ℚ} {s : Int} {M k : Nat} (hs : s ≤ 127)
    (hamax : blockAmax v = (M : ℚ) / (2 : Nat) * 2 ^ s) (hsmall : 1 / 10 ^ 12 ≤ blockAmax v)
    (hle : M * 2 ^ k ≤ 12) (hlt : 12 < M * 2 ^ (k + 1)) :
    blockScale (exponentByte v) = 2 ^ (s - k) := by
  have hs0 : (0 : ℚ) < 2 ^ s := zpow_pos two_pos s
  have hk0 : (0 : ℚ) < 2 ^ k := pow_pos two_pos k
  have hpow : (2 : ℚ) ^ (s - k) = 2 ^ s / 2 ^ k := by
    rw [zpow_sub₀ two_ne_zero, zpow_natCast]
  have hle' : (M : ℚ) * 2 ^ k ≤ 12 := by exact_mod_cast hle
  have hlt' : (12 : ℚ) < M * 2 ^ k * 2 := by
    rw [pow_succ, ← mul_assoc] at hlt
    exact_mod_cast hlt
  have hup : blockAmax v / 6 ≤ 2 ^ (s - k) := by
    rw [hamax, hpow, le_div_iff₀ hk0]
    push_cast
    nlinarith
  have hdown : 2 ^ (s - k - 1) < blockAmax v / 6 := by
    rw [zpow_sub_one₀ two_ne_zero, hpow, hamax, div_mul_eq_mul_div, div_lt_iff₀ hk0]
    push_cast
    nlinarith
  have hclog : Int.clog 2 (blockAmax v / 6) = s - k := clog_two_eq hdown hup
  -- the least magnitude keeps the exponent away from the clamp
  have hrange : -127 ≤ s - k := by
    by_contra hnot
    have hmono : (2 : ℚ) ^ (s - k) ≤ 2 ^ (-127 : Int) := zpow_le_zpow_right₀ one_le_two (by omega)
    have htiny : (2 : ℚ) ^ (-127 : Int) < 1 / 10 ^ 12 / 6 := by norm_num
    have hge : (1 : ℚ) / 10 ^ 12 / 6 ≤ blockAmax v / 6 :=
      div_le_div_of_nonneg_right hsmall (by norm_num)
    exact absurd (hge.trans (hup.trans hmono)) (not_le_of_gt htiny)
  have hbyte : (exponentByte v).toNat = (s - k + 127).toNat := by
    rw [exponentByte]
    simp only [max_eq_left hsmall, hclog, BitVec.toNat_ofNat]
    omega
  have hexponent : ((s - k + 127).toNat : Int) - 127 = s - k := by omega
  rw [blockScale, hbyte, hexponent]

/-- A block of numbers of the table on some scale has numbers of the table on the scale that is
picked for it. -/
theorem block_entries {v : Nat → ℚ} {s : Int} (hs : s ≤ 127)
    (hv : ∀ j < 32, ∃ m ∈ mxfp4Magnitudes, |v j| = (m : ℚ) / (2 : Nat) * 2 ^ s)
    (hamax : blockAmax v = 0 ∨ 1 / 10 ^ 12 ≤ blockAmax v) {j : Nat} (hj : j < 32) :
    ∃ c < 16, mxfp4Entry c = v j / blockScale (exponentByte v) := by
  rw [exists_entry_iff]
  have hs0 : (0 : ℚ) < 2 ^ s := zpow_pos two_pos s
  obtain ⟨j0, hj0, hmax⟩ := exists_blockAmax v
  obtain ⟨M, hM, hMeq⟩ := hv j0 hj0
  obtain ⟨m, hm, hmeq⟩ := hv j hj
  have hle := abs_le_blockAmax v hj
  by_cases hzero : M = 0
  · refine ⟨0, by decide, ?_⟩
    have hnone : |v j| ≤ 0 := by
      rw [hzero] at hMeq
      simpa [hmax, hMeq] using hle
    rw [abs_nonpos_iff.mp hnone]
    simp
  · have hsmall : 1 / 10 ^ 12 ≤ blockAmax v := by
      refine hamax.resolve_left fun h0 => hzero ?_
      rw [hmax, hMeq] at h0
      simpa [hs0.ne'] using h0
    obtain ⟨k, -, hup, hdown, hroom⟩ := magnitude_room M hM hzero
    have hmM : m ≤ M := by
      rw [hmax, hMeq, hmeq] at hle
      have hdiv := le_of_mul_le_mul_right hle hs0
      have hcast : (m : ℚ) ≤ M := (div_le_div_iff_of_pos_right (by norm_num)).mp hdiv
      exact_mod_cast hcast
    refine ⟨m * 2 ^ k, hroom m hm hmM, ?_⟩
    rw [blockScale_exponentByte hs (hmax.trans hMeq) hsmall hup hdown, abs_div, hmeq,
      abs_of_pos (zpow_pos two_pos _), zpow_sub₀ two_ne_zero, zpow_natCast]
    push_cast
    field_simp

/-! ### The round trip -/

/-- The two codes of a byte. -/
theorem byte_codes {lo hi : BitVec 8} (hlo : lo.toNat < 16) (hhi : hi.toNat < 16) :
    (lo ||| hi <<< 4) &&& 0x0F#8 = lo ∧ (lo ||| hi <<< 4) >>> 4 = hi := by
  have hshift : (hi <<< 4).toNat = hi.toNat <<< 4 := by
    rw [BitVec.toNat_shiftLeft, Nat.shiftLeft_eq]
    exact Nat.mod_eq_of_lt (by omega)
  constructor
  · apply BitVec.eq_of_toNat_eq
    rw [BitVec.toNat_and, BitVec.toNat_or, hshift]
    exact (Nat.and_two_pow_sub_one_eq_mod _ 4).trans (BitFields.mod_or_shiftLeft hlo _)
  · apply BitVec.eq_of_toNat_eq
    rw [BitVec.toNat_ushiftRight, BitVec.toNat_or, hshift]
    exact BitFields.or_shiftLeft_shiftRight hlo _

/-- What an element dequantizes to, exactly. -/
theorem mxfp4Value_exact (blocks scales : Tensor (BitVec 8)) (idx : List Nat) (j : Nat) :
    mxfp4Value exactElements blocks scales idx j =
      (mxfp4Entry (if j % 2 = 0 then blocks.get (idx ++ [j / 32, j % 32 / 2]) &&& 0x0F#8
        else blocks.get (idx ++ [j / 32, j % 32 / 2]) >>> 4).toNat) *
          blockScale (scales.get (idx ++ [j / 32])) := by
  have hfloor : ⌊(((scales.get (idx ++ [j / 32])).toNat : Int) : ℚ) - ((127 : Int) : ℚ)⌋ =
      ((scales.get (idx ++ [j / 32])).toNat : Int) - 127 := by
    rw [← Int.cast_sub, Int.floor_intCast]
  rw [blockScale, ← hfloor]
  rfl

theorem element_lt (byte : BitVec 8) (j : Nat) :
    (if j % 2 = 0 then byte &&& 0x0F#8 else byte >>> 4).toNat < 16 := by
  have hbyte : ∀ byte : BitVec 8, (byte &&& 0x0F#8).toNat < 16 ∧ (byte >>> 4).toNat < 16 := by
    decide +kernel
  split
  · exact (hbyte byte).1
  · exact (hbyte byte).2

/-- The blocks of a matrix that some codes and scales stand for keep their values. -/
theorem blockCode_exact {weight : Tensor ℚ} {idx : List Nat} {scale : BitVec 8}
    (hscale : scale.toNat ≤ 254)
    (hblock : ∀ j < 32, ∃ c < 16, blockValue weight idx j = mxfp4Entry c * blockScale scale)
    (hamax : blockAmax (blockValue weight idx) = 0 ∨ 1 / 10 ^ 12 ≤ blockAmax (blockValue weight idx))
    {j : Nat} (hj : j < 32) :
    mxfp4Entry (blockCode weight idx j).toNat * blockScale (exponentByte (blockValue weight idx)) =
      blockValue weight idx j := by
  have hpos : ∀ b : BitVec 8, 0 < blockScale b := fun b => zpow_pos two_pos _
  have hv : ∀ j < 32, ∃ m ∈ mxfp4Magnitudes,
      |blockValue weight idx j| = (m : ℚ) / (2 : Nat) * 2 ^ ((scale.toNat : Int) - 127) := by
    intro j hj
    obtain ⟨c, hc, heq⟩ := hblock j hj
    obtain ⟨m, hm, hmeq⟩ := exists_entry_iff.mp ⟨c, hc, rfl⟩
    refine ⟨m, hm, ?_⟩
    rw [heq, abs_mul, hmeq, abs_of_pos (hpos scale), blockScale]
  have hentry := block_entries (by omega) hv hamax hj
  rw [blockCode, entry_nearestCode hentry]
  exact div_mul_cancel₀ _ (hpos _).ne'

theorem quantizeMxfp4Blocks_ok {weight : Tensor ℚ} {rest : List Nat} {nBlocks : Nat}
    (h : weight.shape = rest ++ [nBlocks * 32]) :
    quantizeMxfp4Blocks weight =
      .ok (packedBlocks weight (rest ++ [nBlocks]), exponentBytes weight (rest ++ [nBlocks])) := by
  rw [quantizeMxfp4Blocks, h, List.getLast?_concat, List.dropLast_concat]
  simp

/-- Quantized and dequantized again, an element is the number of its code on the scale of its block. -/
theorem requantized_value (weight : Tensor ℚ) (blocks : List Nat) (pre : List Nat) (j : Nat) :
    mxfp4Value exactElements (packedBlocks weight blocks) (exponentBytes weight blocks) pre j =
      mxfp4Entry (blockCode weight (pre ++ [j / 32]) (j % 32)).toNat *
        blockScale (exponentByte (blockValue weight (pre ++ [j / 32]))) := by
  have hidx : pre ++ [j / 32, j % 32 / 2] = pre ++ [j / 32] ++ [j % 32 / 2] := by simp
  obtain ⟨hlo, hhi⟩ := byte_codes (nearestCode_lt (blockValue weight (pre ++ [j / 32]) (2 * (j % 32 / 2)) /
      blockScale (exponentByte (blockValue weight (pre ++ [j / 32])))))
    (nearestCode_lt (blockValue weight (pre ++ [j / 32]) (2 * (j % 32 / 2) + 1) /
      blockScale (exponentByte (blockValue weight (pre ++ [j / 32])))))
  rw [mxfp4Value_exact]
  congr 3
  simp only [packedBlocks, hidx, List.dropLast_concat, List.getLastD_concat]
  split
  · next heven =>
      have hj : 2 * (j % 32 / 2) = j % 32 := by omega
      exact hlo.trans (by rw [hj, blockCode])
  · next hodd =>
      have hj : 2 * (j % 32 / 2) + 1 = j % 32 := by omega
      exact hhi.trans (by rw [hj, blockCode])

/-- Quantizing what some codes and scales dequantize to, and dequantizing it again. -/
theorem quantize_dequantized {blocks scales : Tensor (BitVec 8)} {w : Tensor ℚ}
    (hw : dequantizeMxfp4Blocks exactElements blocks scales = .ok w)
    (hscales : ∀ idx, scales.InRange idx → (scales.get idx).toNat ≤ 254)
    (hblocks : ∀ idx, scales.InRange idx →
      blockAmax (blockValue w idx) = 0 ∨ 1 / 10 ^ 12 ≤ blockAmax (blockValue w idx)) :
    ∃ q, quantizeMxfp4Blocks w = .ok q ∧
      ∃ w', dequantizeMxfp4Blocks exactElements q.1 q.2 = .ok w' ∧ w'.Same w := by
  obtain ⟨rest, nBlocks, hb, hs, heq⟩ := dequantizeMxfp4Blocks_eq_ok.mp hw
  have hshape : w.shape = rest ++ [nBlocks * 32] := by rw [heq]
  refine ⟨_, quantizeMxfp4Blocks_ok hshape, _, dequantizeMxfp4Blocks_eq_ok.mpr
    ⟨rest, nBlocks, rfl, rfl, rfl⟩, hshape.symm, ?_⟩
  intro idx hidx
  obtain ⟨pre, j, rfl, hpre, hj⟩ := (Tensor.inRange_last rfl).mp hidx
  have hin : scales.InRange (pre ++ [j / 32]) :=
    (Tensor.inRange_last hs).mpr ⟨pre, _, rfl, hpre, Nat.div_lt_of_lt_mul (by omega)⟩
  have hvalue : ∀ l, blockValue w (pre ++ [j / 32]) l =
      mxfp4Value exactElements blocks scales pre (j / 32 * 32 + l) := by
    intro l
    rw [blockValue, List.dropLast_concat, List.getLastD_concat, heq]
    exact mxfp4Value_concat (E := exactElements) blocks scales pre _
  have hblock : ∀ l < 32, ∃ c < 16, blockValue w (pre ++ [j / 32]) l =
      mxfp4Entry c * blockScale (scales.get (pre ++ [j / 32])) := by
    intro l hl
    have hdiv : (j / 32 * 32 + l) / 32 = j / 32 := by omega
    have hentry := mxfp4Value_exact blocks scales pre (j / 32 * 32 + l)
    rw [hdiv] at hentry
    exact ⟨_, element_lt _ _, (hvalue l).trans hentry⟩
  have hsplit : j / 32 * 32 + j % 32 = j := Nat.div_add_mod' j 32
  have hexact := blockCode_exact (hscales _ hin) hblock (hblocks _ hin) (Nat.mod_lt j (by omega))
  refine (mxfp4Value_concat (E := exactElements) _ _ pre j).trans ?_
  rw [requantized_value, hexact, hvalue, hsplit, heq]
  exact (mxfp4Value_concat (E := exactElements) blocks scales pre j).symm

/-- A block of the numbers 0.5 and 1. -/
def halvesAndOnes : Tensor (BitVec 8) × Tensor (BitVec 8) :=
  (⟨[1, 1, 16], fun _ => 0x21⟩, ⟨[1, 1], fun _ => 127⟩)

/-- It is quantized on a finer scale, and dequantizes to the same numbers. -/
theorem halvesAndOnes_requantized : ∃ w q w',
    dequantizeMxfp4Blocks exactElements halvesAndOnes.1 halvesAndOnes.2 = .ok w ∧
    quantizeMxfp4Blocks w = .ok q ∧ q.2.get [0, 0] = 125 ∧
    dequantizeMxfp4Blocks exactElements q.1 q.2 = .ok w' ∧ w'.Same w := by
  have hw : dequantizeMxfp4Blocks exactElements halvesAndOnes.1 halvesAndOnes.2 =
      .ok ⟨[1, 32], fun idx => mxfp4Value exactElements halvesAndOnes.1 halvesAndOnes.2 idx.dropLast
        (idx.getLastD 0)⟩ := rfl
  have hone : ∀ idx, halvesAndOnes.2.InRange idx → |blockValue (⟨[1, 32], fun idx =>
      mxfp4Value exactElements halvesAndOnes.1 halvesAndOnes.2 idx.dropLast (idx.getLastD 0)⟩ : Tensor ℚ)
        idx 1| = 1 := by
    intro idx hidx
    obtain ⟨i, b, rfl, hi, hb⟩ := (Tensor.inRange_matrix (t := halvesAndOnes.2) rfl).mp hidx
    obtain rfl := Nat.lt_one_iff.mp hi
    obtain rfl := Nat.lt_one_iff.mp hb
    decide +kernel
  obtain ⟨q, hq, w', hw', hsame⟩ := quantize_dequantized hw (fun _ _ => (by decide : 127 ≤ 254))
    fun idx hidx => .inr
      (le_trans (by norm_num) ((hone idx hidx).symm.le.trans (abs_le_blockAmax _ (by decide))))
  have hscale : q.2.get [0, 0] = 125 := by
    cases hq
    decide +kernel
  exact ⟨_, q, w', hw, hq, hscale, hw', hsame⟩

end FreeToken
