import FreeToken.Lib.Matrices

/-!
# Dequantizing packed weights

`dequantize_gptq_int4`, `dequantize_block_fp8`, `dequantize_int8_packed` and
`dequantize_mxfp4_blocks` of `kernel/triton`, element by element. Tensors have the dtypes of their
format. The arithmetic of float32 is a parameter, so what is shown of it is shown of every rounding.
-/

namespace FreeToken

/-- What a stored element is read as, and the arithmetic that makes weights of the output dtype. -/
structure Elements (α φ ρ : Type) where
  int32 : α → BitVec 32
  uint8 : α → BitVec 8
  item : α → Int
  float : α → φ
  ofInt : Int → φ
  /-- `n` halves, negated or not. -/
  half : Bool → Nat → φ
  mul : φ → φ → φ
  sub : φ → φ → φ
  exp2 : φ → φ
  cast : φ → ρ

/-- The exceptions of dequantizing. -/
inductive DequantError where
  | valueError
  | indexError
  | keyError
  | runtimeError
  | zeroDivision
deriving DecidableEq, Repr

variable {α φ ρ : Type} (E : Elements α φ ρ)

/-! ### GPTQ -/

/-- Value `i` of a word of four-bit values. -/
def nibble (w : BitVec 32) (i : Nat) : Nat := (w.sshiftRight (4 * i) &&& 15#32).toNat

/-- The place of index `i` in a dimension of `n`; a negative one counts from the end. -/
def wrapIndex (n : Nat) (i : Int) : Option Nat :=
  if 0 ≤ i ∧ i < n then some i.toNat
  else if -n ≤ i ∧ i < 0 then some (i + n).toNat
  else none

/-- Element `[i, j]`; its group is found in the scales and in the zeros. -/
def gptqValue (qweight qzeros scales : Tensor α) (gIdx : Tensor Int) (i j : Nat) : ρ :=
  let group := (wrapIndex (scales.size 0) (gIdx.get [i])).getD 0
  let zeroGroup := (wrapIndex (qzeros.size 0) (gIdx.get [i])).getD 0
  let weight := nibble (E.int32 (qweight.get [i / 8, j])) (i % 8)
  let zeroPoint := nibble (E.int32 (qzeros.get [zeroGroup, j / 8])) (j % 8) + 1
  E.cast (E.mul (E.float (scales.get [group, j])) (E.sub (E.ofInt weight) (E.ofInt zeroPoint)))

/-- `dequantize_gptq_int4`, of matrices and a vector. -/
def dequantizeGptqInt4 (qweight qzeros scales : Tensor α) (gIdx : Tensor Int) :
    Except DequantError (Tensor ρ) :=
  match qweight.shape, qzeros.shape, scales.shape, gIdx.shape with
  | [kPacked, n], [zeroGroups, nPacked], [groups, m], [k] =>
      if m ≠ n ∨ nPacked * 8 ≠ n then .error .valueError
      else if k ≠ kPacked * 8 then .error .valueError
      else if ∀ i < k, (wrapIndex groups (gIdx.get [i])).isSome ∧
          (wrapIndex zeroGroups (gIdx.get [i])).isSome then
        .ok ⟨[k, n], fun idx => gptqValue E qweight qzeros scales gIdx (idx.getD 0 0) (idx.getD 1 0)⟩
      else .error .indexError
  | _, _, _, _ => .error .valueError

/-- `torch.arange(k) // group_size`. -/
def sequentialGroups (k : Nat) (groupSize : Int) : Tensor Int :=
  ⟨[k], fun idx => (idx.getD 0 0 : Int).fdiv groupSize⟩

/-- `dequantize_gptq_int4_sequential_groups`. -/
def dequantizeGptqInt4SequentialGroups (qweight qzeros scales : Tensor α) (groupSize : Int) :
    Except DequantError (Tensor ρ) :=
  if groupSize = 0 then .error .zeroDivision
  else dequantizeGptqInt4 E qweight qzeros scales (sequentialGroups (qweight.size 0 * 8) groupSize)

/-! ### Block-FP8 -/

/-- Element `[i, j]`, scaled by its block. -/
def fp8Value (block : Nat) (weight weightScaleInv : Tensor α) (i j : Nat) : ρ :=
  E.cast (E.mul (E.float (weight.get [i, j])) (E.float (weightScaleInv.get [i / block, j / block])))

/-- `dequantize_block_fp8`. The padding to whole blocks is cut off again. -/
def dequantizeBlockFp8 (block : Nat) (weight weightScaleInv : Tensor α) :
    Except DequantError (Tensor ρ) :=
  match weight.shape with
  | [n, k] =>
      if block = 0 then .error .zeroDivision
      else if weightScaleInv.shape ≠ [(n + block - 1) / block, (k + block - 1) / block] then
        .error .valueError
      else .ok ⟨[n, k], fun idx => fp8Value E block weight weightScaleInv (idx.getD 0 0) (idx.getD 1 0)⟩
  | _ => .error .valueError

/-! ### INT8 -/

/-- Value `i` of a word of four bytes. -/
def unpackInt8 (w : BitVec 32) (i : Nat) : Int := ((w.sshiftRight (8 * i) &&& 0xFF#32).toNat : Int) - 128

/-- Element `[i, j]`, scaled by the group of column `j`. -/
def int8Value (groupSize : Nat) (weightPacked weightScale : Tensor α) (i j : Nat) : ρ :=
  E.cast (E.mul (E.ofInt (unpackInt8 (E.int32 (weightPacked.get [i, j / 4])) (j % 4)))
    (E.float (weightScale.get [i, j / groupSize])))

/-- `dequantize_int8_packed`, of matrices. The packed columns have to give `k` columns, or none of
one. -/
def dequantizeInt8Packed (k : Int) (weightPacked weightScale : Tensor α) :
    Except DequantError (Tensor ρ) :=
  match weightPacked.shape, weightScale.shape with
  | [n, packedCols], [rows, numGroups] =>
      if rows ≠ n then .error .valueError
      else if numGroups = 0 then .error .zeroDivision
      else if k % numGroups ≠ 0 then .error .valueError
      else if k < 0 then .error .runtimeError
      else if k.toNat ≤ packedCols * 4 ∨ (packedCols = 0 ∧ k = 1) then
        .ok ⟨[n, min k.toNat (packedCols * 4)], fun idx =>
          int8Value E (k.toNat / numGroups) weightPacked weightScale (idx.getD 0 0) (idx.getD 1 0)⟩
      else .error .runtimeError
  | _, _ => .error .valueError

/-! ### MXFP4 -/

/-- `_LUT`, in halves. -/
def mxfp4Lut : List (Bool × Nat) :=
  [(false, 0), (false, 1), (false, 2), (false, 3), (false, 4), (false, 6), (false, 8), (false, 12),
    (true, 0), (true, 1), (true, 2), (true, 3), (true, 4), (true, 6), (true, 8), (true, 12)]

/-- The number of a four-bit code. -/
def mxfp4Number (code : BitVec 8) : φ :=
  let entry := mxfp4Lut.getD code.toNat (false, 0)
  E.half entry.1 entry.2

/-- Element `j` of the row at `idx`. -/
def mxfp4Value (blocks scales : Tensor α) (idx : List Nat) (j : Nat) : ρ :=
  let byte := E.uint8 (blocks.get (idx ++ [j / 32, j % 32 / 2]))
  let code := if j % 2 = 0 then byte &&& 0x0F#8 else byte >>> 4
  let scale := E.exp2 (E.sub (E.ofInt (E.uint8 (scales.get (idx ++ [j / 32]))).toNat) (E.ofInt 127))
  E.cast (E.mul (mxfp4Number E code) scale)

/-- `dequantize_mxfp4_blocks`. -/
def dequantizeMxfp4Blocks (blocks scales : Tensor α) : Except DequantError (Tensor ρ) :=
  if blocks.shape.getLast? ≠ some 16 then .error .valueError
  else if blocks.shape.dropLast ≠ scales.shape then .error .valueError
  else match scales.shape.getLast? with
    | none => .error .indexError
    | some nBlocks => .ok ⟨scales.shape.dropLast ++ [nBlocks * 32],
        fun idx => mxfp4Value E blocks scales idx.dropLast (idx.getLastD 0)⟩

/-! ### Dequantizing a joint -/

variable {E}

theorem wrapIndex_lt {n : Nat} {i : Int} {g : Nat} (h : wrapIndex n i = some g) : g < n := by
  rw [wrapIndex] at h
  split at h
  · cases h
    omega
  · split at h
    · cases h
      omega
    · cases h

section Gptq

variable {qweight qzeros scales gateQweight gateQzeros gateScales upQweight upQzeros upScales : Tensor α}
  {gIdx gIdx' : Tensor Int} {kPacked nPacked zeroGroups groups : Nat}

/-- Tensors that dequantize. -/
structure GptqShapes (qweight qzeros scales : Tensor α) (gIdx : Tensor Int)
    (kPacked nPacked zeroGroups groups : Nat) : Prop where
  qweight_shape : qweight.shape = [kPacked, nPacked * 8]
  qzeros_shape : qzeros.shape = [zeroGroups, nPacked]
  scales_shape : scales.shape = [groups, nPacked * 8]
  gIdx_shape : gIdx.shape = [kPacked * 8]
  inRange : ∀ i < kPacked * 8, (wrapIndex groups (gIdx.get [i])).isSome ∧
    (wrapIndex zeroGroups (gIdx.get [i])).isSome

theorem dequantizeGptqInt4_eq_ok {w : Tensor ρ} :
    dequantizeGptqInt4 E qweight qzeros scales gIdx = .ok w ↔
      ∃ kPacked nPacked zeroGroups groups,
        GptqShapes qweight qzeros scales gIdx kPacked nPacked zeroGroups groups ∧
          w = ⟨[kPacked * 8, nPacked * 8], fun idx =>
            gptqValue E qweight qzeros scales gIdx (idx.getD 0 0) (idx.getD 1 0)⟩ := by
  constructor
  · intro h
    rw [dequantizeGptqInt4] at h
    split at h
    · next kPacked n zeroGroups nPacked groups m k hqweight hqzeros hscales hgIdx =>
        split at h
        · cases h
        · next hcols =>
            obtain ⟨rfl, rfl⟩ := (not_or.mp hcols).imp not_not.mp not_not.mp
            split at h
            · cases h
            · next hk =>
                cases not_not.mp hk
                split at h
                · next hrange =>
                    cases h
                    exact ⟨kPacked, nPacked, zeroGroups, groups,
                      ⟨hqweight, hqzeros, hscales, hgIdx, hrange⟩, rfl⟩
                · cases h
    · cases h
  · rintro ⟨kPacked, nPacked, zeroGroups, groups, hshapes, rfl⟩
    rw [dequantizeGptqInt4, hshapes.qweight_shape, hshapes.qzeros_shape, hshapes.scales_shape,
      hshapes.gIdx_shape]
    simp only [ne_eq, not_true_eq_false, or_self, if_false]
    rw [if_pos hshapes.inRange]

theorem dequantizeGptqInt4_shape {w : Tensor ρ}
    (h : dequantizeGptqInt4 E qweight qzeros scales gIdx = .ok w) : w.shape = [w.size 0, w.size 1] := by
  obtain ⟨_, _, _, _, -, rfl⟩ := dequantizeGptqInt4_eq_ok.1 h
  rfl

/-- The groups of an element of tensors that dequantize. -/
theorem GptqShapes.groups_lt (h : GptqShapes qweight qzeros scales gIdx kPacked nPacked zeroGroups groups)
    {i : Nat} (hi : i < kPacked * 8) :
    (wrapIndex groups (gIdx.get [i])).getD 0 < groups ∧
      (wrapIndex zeroGroups (gIdx.get [i])).getD 0 < zeroGroups := by
  obtain ⟨hgroup, hzero⟩ := h.inRange i hi
  obtain ⟨g, hg⟩ := Option.isSome_iff_exists.mp hgroup
  obtain ⟨z, hz⟩ := Option.isSome_iff_exists.mp hzero
  rw [hg, hz]
  exact ⟨wrapIndex_lt hg, wrapIndex_lt hz⟩

/-- Tensors that are the same dequantize to the same. -/
theorem dequantizeGptqInt4_congr {qweight' qzeros' scales' : Tensor α} {w : Tensor ρ}
    (hqweight : qweight.Same qweight') (hqzeros : qzeros.Same qzeros') (hscales : scales.Same scales')
    (hgIdx : gIdx.Same gIdx') (h : dequantizeGptqInt4 E qweight qzeros scales gIdx = .ok w) :
    ∃ w', dequantizeGptqInt4 E qweight' qzeros' scales' gIdx' = .ok w' ∧ w.Same w' := by
  obtain ⟨kPacked, nPacked, zeroGroups, groups, hs, rfl⟩ := dequantizeGptqInt4_eq_ok.1 h
  have hs' : GptqShapes qweight' qzeros' scales' gIdx' kPacked nPacked zeroGroups groups := by
    refine ⟨hqweight.1.symm.trans hs.qweight_shape, hqzeros.1.symm.trans hs.qzeros_shape,
      hscales.1.symm.trans hs.scales_shape, hgIdx.1.symm.trans hs.gIdx_shape, ?_⟩
    intro i hi
    rw [← hgIdx.get_vector hs.gIdx_shape hi]
    exact hs.inRange i hi
  refine ⟨_, dequantizeGptqInt4_eq_ok.2 ⟨kPacked, nPacked, zeroGroups, groups, hs', rfl⟩, ?_⟩
  apply Tensor.same_of_matrix rfl rfl
  intro i j hi hj
  obtain ⟨hgroup, hzero⟩ := hs.groups_lt hi
  change gptqValue E qweight qzeros scales gIdx i j = gptqValue E qweight' qzeros' scales' gIdx' i j
  simp only [gptqValue, Tensor.size, hs.qzeros_shape, hs.scales_shape, hs'.qzeros_shape, hs'.scales_shape,
    List.getD_cons_zero, ← hgIdx.get_vector hs.gIdx_shape hi]
  rw [hqweight.get_matrix hs.qweight_shape (Nat.div_lt_of_lt_mul (Nat.mul_comm 8 _ ▸ hi)) hj,
    hqzeros.get_matrix hs.qzeros_shape hzero (Nat.div_lt_of_lt_mul (Nat.mul_comm 8 _ ▸ hj)),
    hscales.get_matrix hs.scales_shape hgroup hj]

/-- Words, zeros and scales that are joined along the output columns dequantize to the joint. -/
theorem dequantizeGptqInt4_joins {gate up : Tensor ρ}
    (hqweight : Tensor.Joins 1 gateQweight upQweight qweight)
    (hqzeros : Tensor.Joins 1 gateQzeros upQzeros qzeros)
    (hscales : Tensor.Joins 1 gateScales upScales scales)
    (hgate : dequantizeGptqInt4 E gateQweight gateQzeros gateScales gIdx = .ok gate)
    (hup : dequantizeGptqInt4 E upQweight upQzeros upScales gIdx = .ok up) :
    ∃ w, dequantizeGptqInt4 E qweight qzeros scales gIdx = .ok w ∧ Tensor.Joins 1 gate up w := by
  obtain ⟨kPacked, nGate, zeroGroups, groups, hg, rfl⟩ := dequantizeGptqInt4_eq_ok.1 hgate
  obtain ⟨kPacked', nUp, zeroGroups', groups', hu, rfl⟩ := dequantizeGptqInt4_eq_ok.1 hup
  obtain ⟨rfl, hqwShape, hqwGate, hqwUp⟩ :=
    (Tensor.joins_columns_iff hg.qweight_shape hu.qweight_shape).mp hqweight
  obtain ⟨rfl, hqzShape, hqzGate, hqzUp⟩ :=
    (Tensor.joins_columns_iff hg.qzeros_shape hu.qzeros_shape).mp hqzeros
  obtain ⟨rfl, hscShape, hscGate, hscUp⟩ :=
    (Tensor.joins_columns_iff hg.scales_shape hu.scales_shape).mp hscales
  have hs : GptqShapes qweight qzeros scales gIdx kPacked (nGate + nUp) zeroGroups groups :=
    ⟨by rw [hqwShape, Nat.add_mul], hqzShape, by rw [hscShape, Nat.add_mul], hg.gIdx_shape, hg.inRange⟩
  refine ⟨_, dequantizeGptqInt4_eq_ok.2 ⟨kPacked, nGate + nUp, zeroGroups, groups, hs, rfl⟩, ?_⟩
  apply (Tensor.joins_columns_iff rfl rfl).mpr
  refine ⟨rfl, by rw [Nat.add_mul], ?_, ?_⟩
  · intro i j hi hj
    obtain ⟨hgroup, hzero⟩ := hg.groups_lt hi
    change gptqValue E qweight qzeros scales gIdx i j =
      gptqValue E gateQweight gateQzeros gateScales gIdx i j
    simp only [gptqValue, Tensor.size, hs.qzeros_shape, hs.scales_shape, hg.qzeros_shape,
      hg.scales_shape, List.getD_cons_zero]
    rw [hqwGate _ _ (Nat.div_lt_of_lt_mul (Nat.mul_comm 8 _ ▸ hi)) hj,
      hqzGate _ _ hzero (Nat.div_lt_of_lt_mul (Nat.mul_comm 8 _ ▸ hj)), hscGate _ _ hgroup hj]
  · intro i j hi hj
    obtain ⟨hgroup, hzero⟩ := hg.groups_lt hi
    change gptqValue E qweight qzeros scales gIdx i (nGate * 8 + j) =
      gptqValue E upQweight upQzeros upScales gIdx i j
    -- The columns of the gate are whole words of zeros, so those of the up keep their nibbles.
    have hdiv : (nGate * 8 + j) / 8 = nGate + j / 8 := by
      rw [Nat.mul_comm, Nat.mul_add_div (by decide)]
    have hmod : (nGate * 8 + j) % 8 = j % 8 := by
      rw [Nat.mul_comm, Nat.mul_add_mod]
    simp only [gptqValue, Tensor.size, hs.qzeros_shape, hs.scales_shape, hu.qzeros_shape,
      hu.scales_shape, List.getD_cons_zero, hdiv, hmod]
    rw [hqwUp _ _ (Nat.div_lt_of_lt_mul (Nat.mul_comm 8 _ ▸ hi)) hj,
      hqzUp _ _ hzero (Nat.div_lt_of_lt_mul (Nat.mul_comm 8 _ ▸ hj)), hscUp _ _ hgroup hj]

end Gptq

section Fp8

variable {block : Nat} {weight weightScaleInv gateWeight gateScale upWeight upScale : Tensor α}

/-- The blocks that cover `n`, the last one not always whole. -/
def numBlocks (block n : Nat) : Nat := (n + block - 1) / block

theorem div_lt_numBlocks {i n : Nat} (hblock : 0 < block) (h : i < n) : i / block < numBlocks block n := by
  rw [numBlocks, Nat.lt_iff_add_one_le, ← Nat.add_div_right i hblock]
  apply Nat.div_le_div_right
  omega

/-- Whole blocks, and what comes after them. -/
theorem numBlocks_mul_add (hblock : 0 < block) (q n : Nat) :
    numBlocks block (block * q + n) = q + numBlocks block n := by
  rw [numBlocks, numBlocks, Nat.add_assoc, Nat.add_sub_assoc (Nat.le_add_left_of_le hblock),
    Nat.mul_add_div hblock]

theorem dequantizeBlockFp8_eq_ok {w : Tensor ρ} :
    dequantizeBlockFp8 E block weight weightScaleInv = .ok w ↔ 0 < block ∧ ∃ n k,
      weight.shape = [n, k] ∧ weightScaleInv.shape = [numBlocks block n, numBlocks block k] ∧
        w = ⟨[n, k], fun idx => fp8Value E block weight weightScaleInv (idx.getD 0 0) (idx.getD 1 0)⟩ := by
  constructor
  · intro h
    rw [dequantizeBlockFp8] at h
    split at h
    · next n k hweight =>
        split at h
        · cases h
        · next hblock =>
            split at h
            · cases h
            · next hscale =>
                cases h
                exact ⟨Nat.pos_of_ne_zero hblock, n, k, hweight, not_not.mp hscale, rfl⟩
    · cases h
  · rintro ⟨hblock, n, k, hweight, hscale, rfl⟩
    rw [dequantizeBlockFp8, hweight]
    simp only [hscale, numBlocks, Nat.ne_of_gt hblock, ne_eq, not_true_eq_false, if_false]

theorem dequantizeBlockFp8_shape {w : Tensor ρ}
    (h : dequantizeBlockFp8 E block weight weightScaleInv = .ok w) : w.shape = [w.size 0, w.size 1] := by
  obtain ⟨-, _, _, -, -, rfl⟩ := dequantizeBlockFp8_eq_ok.1 h
  rfl

theorem dequantizeBlockFp8_congr {weight' weightScaleInv' : Tensor α} {w : Tensor ρ}
    (hweight : weight.Same weight') (hscale : weightScaleInv.Same weightScaleInv')
    (h : dequantizeBlockFp8 E block weight weightScaleInv = .ok w) :
    ∃ w', dequantizeBlockFp8 E block weight' weightScaleInv' = .ok w' ∧ w.Same w' := by
  obtain ⟨hblock, n, k, hw, hs, rfl⟩ := dequantizeBlockFp8_eq_ok.1 h
  refine ⟨_, dequantizeBlockFp8_eq_ok.2
    ⟨hblock, n, k, hweight.1.symm.trans hw, hscale.1.symm.trans hs, rfl⟩, ?_⟩
  apply Tensor.same_of_matrix rfl rfl
  intro i j hi hj
  change fp8Value E block weight weightScaleInv i j = fp8Value E block weight' weightScaleInv' i j
  rw [fp8Value, fp8Value, hweight.get_matrix hw hi hj,
    hscale.get_matrix hs (div_lt_numBlocks hblock hi) (div_lt_numBlocks hblock hj)]

/-- Below whole blocks of gate rows, the grid of the up is what it was. -/
theorem dequantizeBlockFp8_joins {gate up : Tensor ρ} {q : Nat}
    (hweight : Tensor.Joins 0 gateWeight upWeight weight)
    (hscale : Tensor.Joins 0 gateScale upScale weightScaleInv)
    (hrows : gateWeight.shape.head? = some (block * q))
    (hgate : dequantizeBlockFp8 E block gateWeight gateScale = .ok gate)
    (hup : dequantizeBlockFp8 E block upWeight upScale = .ok up) :
    ∃ w, dequantizeBlockFp8 E block weight weightScaleInv = .ok w ∧ Tensor.Joins 0 gate up w := by
  obtain ⟨hblock, n, k, hgw, hgs, rfl⟩ := dequantizeBlockFp8_eq_ok.1 hgate
  obtain ⟨-, n', k', huw, hus, rfl⟩ := dequantizeBlockFp8_eq_ok.1 hup
  rw [hgw] at hrows
  cases hrows
  have hq : numBlocks block (block * q) = q := by
    rw [← Nat.add_zero (block * q), numBlocks_mul_add hblock, numBlocks, Nat.zero_add,
      Nat.div_eq_of_lt (Nat.sub_one_lt_of_lt hblock), Nat.add_zero]
  rw [hq] at hgs
  obtain ⟨rfl, hwShape, hwGate, hwUp⟩ := (Tensor.joins_rows_iff hgw huw).mp hweight
  obtain ⟨-, hsShape, hsGate, hsUp⟩ := (Tensor.joins_rows_iff hgs hus).mp hscale
  rw [← numBlocks_mul_add hblock] at hsShape
  refine ⟨_, dequantizeBlockFp8_eq_ok.2 ⟨hblock, _, k, hwShape, hsShape, rfl⟩, ?_⟩
  apply (Tensor.joins_rows_iff rfl rfl).mpr
  refine ⟨rfl, rfl, ?_, ?_⟩
  · intro i j hi hj
    change fp8Value E block weight weightScaleInv i j = fp8Value E block gateWeight gateScale i j
    rw [fp8Value, fp8Value, hwGate i j hi hj,
      hsGate _ _ (Nat.div_lt_of_lt_mul hi) (div_lt_numBlocks hblock hj)]
  · intro i j hi hj
    change fp8Value E block weight weightScaleInv (block * q + i) j = fp8Value E block upWeight upScale i j
    rw [fp8Value, fp8Value, hwUp i j hi hj, Nat.mul_add_div hblock,
      hsUp _ _ (div_lt_numBlocks hblock hi) (div_lt_numBlocks hblock hj)]

end Fp8

section Int8

variable {k : Int} {weightPacked weightScale gatePacked gateScale upPacked upScale : Tensor α}

/-- Tensors that dequantize to `n` rows of `min k (packedCols * 4)` columns. -/
structure Int8Shapes (k : Int) (weightPacked weightScale : Tensor α) (n packedCols numGroups : Nat) :
    Prop where
  packed_shape : weightPacked.shape = [n, packedCols]
  scale_shape : weightScale.shape = [n, numGroups]
  numGroups_pos : 0 < numGroups
  dvd : numGroups ∣ k.toNat
  nonneg : 0 ≤ k
  columns : k.toNat ≤ packedCols * 4 ∨ (packedCols = 0 ∧ k = 1)

theorem dequantizeInt8Packed_eq_ok {w : Tensor ρ} :
    dequantizeInt8Packed E k weightPacked weightScale = .ok w ↔ ∃ n packedCols numGroups,
      Int8Shapes k weightPacked weightScale n packedCols numGroups ∧
        w = ⟨[n, min k.toNat (packedCols * 4)], fun idx =>
          int8Value E (k.toNat / numGroups) weightPacked weightScale (idx.getD 0 0) (idx.getD 1 0)⟩ := by
  have hdvd : ∀ {numGroups : Nat}, 0 ≤ k → (k % numGroups = 0 ↔ numGroups ∣ k.toNat) := by
    intro numGroups hk
    rw [← Int.dvd_iff_emod_eq_zero, ← Int.natCast_dvd_natCast, Int.toNat_of_nonneg hk]
  constructor
  · intro h
    rw [dequantizeInt8Packed] at h
    split at h
    · next n packedCols rows numGroups hpacked hscale =>
        split_ifs at h with hrows hgroups hmod hneg hcols
        cases h
        have hk := Int.not_lt.mp hneg
        refine ⟨n, packedCols, numGroups, ⟨hpacked, ?_, Nat.pos_of_ne_zero hgroups, ?_, hk, hcols⟩, rfl⟩
        · rw [hscale, not_not.mp hrows]
        · exact (hdvd hk).mp (not_not.mp hmod)
    · cases h
  · rintro ⟨n, packedCols, numGroups, hs, rfl⟩
    rw [dequantizeInt8Packed, hs.packed_shape, hs.scale_shape]
    simp only [ne_eq, not_true_eq_false, if_false, Nat.ne_of_gt hs.numGroups_pos,
      (hdvd hs.nonneg).mpr hs.dvd, Int.not_lt.mpr hs.nonneg, if_pos hs.columns]

theorem dequantizeInt8Packed_shape {w : Tensor ρ}
    (h : dequantizeInt8Packed E k weightPacked weightScale = .ok w) :
    w.shape = [w.size 0, w.size 1] := by
  obtain ⟨_, _, _, -, rfl⟩ := dequantizeInt8Packed_eq_ok.1 h
  rfl

/-- The word and the group of a column. -/
theorem Int8Shapes.columns_lt {n packedCols numGroups : Nat}
    (h : Int8Shapes k weightPacked weightScale n packedCols numGroups) {j : Nat}
    (hj : j < min k.toNat (packedCols * 4)) :
    j / 4 < packedCols ∧ j / (k.toNat / numGroups) < numGroups := by
  obtain ⟨hk, hcols⟩ := Nat.lt_min.mp hj
  constructor
  · exact Nat.div_lt_of_lt_mul (Nat.mul_comm 4 _ ▸ hcols)
  · apply Nat.div_lt_of_lt_mul
    rwa [Nat.div_mul_cancel h.dvd]

theorem dequantizeInt8Packed_congr {weightPacked' weightScale' : Tensor α} {w : Tensor ρ}
    (hpacked : weightPacked.Same weightPacked') (hscale : weightScale.Same weightScale')
    (h : dequantizeInt8Packed E k weightPacked weightScale = .ok w) :
    ∃ w', dequantizeInt8Packed E k weightPacked' weightScale' = .ok w' ∧ w.Same w' := by
  obtain ⟨n, packedCols, numGroups, hs, rfl⟩ := dequantizeInt8Packed_eq_ok.1 h
  have hs' : Int8Shapes k weightPacked' weightScale' n packedCols numGroups :=
    ⟨hpacked.1.symm.trans hs.packed_shape, hscale.1.symm.trans hs.scale_shape, hs.numGroups_pos,
      hs.dvd, hs.nonneg, hs.columns⟩
  refine ⟨_, dequantizeInt8Packed_eq_ok.2 ⟨n, packedCols, numGroups, hs', rfl⟩, ?_⟩
  apply Tensor.same_of_matrix rfl rfl
  intro i j hi hj
  obtain ⟨hword, hgroup⟩ := hs.columns_lt hj
  change int8Value E _ weightPacked weightScale i j = int8Value E _ weightPacked' weightScale' i j
  rw [int8Value, int8Value, hpacked.get_matrix hs.packed_shape hi hword,
    hscale.get_matrix hs.scale_shape hi hgroup]

/-- Packing and groups run along the columns, so rows can be joined. -/
theorem dequantizeInt8Packed_joins {gate up : Tensor ρ}
    (hpacked : Tensor.Joins 0 gatePacked upPacked weightPacked)
    (hscale : Tensor.Joins 0 gateScale upScale weightScale)
    (hgate : dequantizeInt8Packed E k gatePacked gateScale = .ok gate)
    (hup : dequantizeInt8Packed E k upPacked upScale = .ok up) :
    ∃ w, dequantizeInt8Packed E k weightPacked weightScale = .ok w ∧ Tensor.Joins 0 gate up w := by
  obtain ⟨n, packedCols, numGroups, hg, rfl⟩ := dequantizeInt8Packed_eq_ok.1 hgate
  obtain ⟨n', packedCols', numGroups', hu, rfl⟩ := dequantizeInt8Packed_eq_ok.1 hup
  obtain ⟨rfl, hpShape, hpGate, hpUp⟩ :=
    (Tensor.joins_rows_iff hg.packed_shape hu.packed_shape).mp hpacked
  obtain ⟨rfl, hsShape, hsGate, hsUp⟩ :=
    (Tensor.joins_rows_iff hg.scale_shape hu.scale_shape).mp hscale
  have hs : Int8Shapes k weightPacked weightScale (n + n') packedCols numGroups :=
    ⟨hpShape, hsShape, hg.numGroups_pos, hg.dvd, hg.nonneg, hg.columns⟩
  refine ⟨_, dequantizeInt8Packed_eq_ok.2 ⟨n + n', packedCols, numGroups, hs, rfl⟩, ?_⟩
  apply (Tensor.joins_rows_iff rfl rfl).mpr
  refine ⟨rfl, rfl, ?_, ?_⟩
  · intro i j hi hj
    obtain ⟨hword, hgroup⟩ := hs.columns_lt hj
    change int8Value E _ weightPacked weightScale i j = int8Value E _ gatePacked gateScale i j
    rw [int8Value, int8Value, hpGate i _ hi hword, hsGate i _ hi hgroup]
  · intro i j hi hj
    obtain ⟨hword, hgroup⟩ := hs.columns_lt hj
    change int8Value E _ weightPacked weightScale (n + i) j = int8Value E _ upPacked upScale i j
    rw [int8Value, int8Value, hpUp i _ hi hword, hsUp i _ hi hgroup]

end Int8

section Mxfp4

variable {blocks scales : Tensor α}

theorem dequantizeMxfp4Blocks_eq_ok {w : Tensor ρ} :
    dequantizeMxfp4Blocks E blocks scales = .ok w ↔ ∃ rest nBlocks,
      blocks.shape = rest ++ [nBlocks] ++ [16] ∧ scales.shape = rest ++ [nBlocks] ∧
        w = ⟨rest ++ [nBlocks * 32], fun idx =>
          mxfp4Value E blocks scales idx.dropLast (idx.getLastD 0)⟩ := by
  rw [dequantizeMxfp4Blocks]
  constructor
  · intro h
    split_ifs at h with hpack hshape
    split at h
    · cases h
    · next nBlocks hlast =>
        cases h
        obtain ⟨rest, hrest⟩ := List.getLast?_eq_some_iff.mp hlast
        refine ⟨rest, nBlocks, ?_, hrest, ?_⟩
        · rw [← hrest, ← not_not.mp hshape, List.dropLast_append_getLast? _ (not_not.mp hpack)]
        · rw [hrest, List.dropLast_concat]
  · rintro ⟨rest, nBlocks, hblocks, hscales, rfl⟩
    rw [hblocks, hscales]
    simp

/-- Element `j` of the row at `pre`. -/
theorem mxfp4Value_concat (blocks scales : Tensor α) (pre : List Nat) (j : Nat) :
    mxfp4Value E blocks scales (pre ++ [j]).dropLast ((pre ++ [j]).getLastD 0) =
      mxfp4Value E blocks scales pre j := by
  rw [List.dropLast_concat, List.getLastD_concat]

theorem dequantizeMxfp4Blocks_congr {blocks' scales' : Tensor α} {w : Tensor ρ}
    (hblocks : blocks.Same blocks') (hscales : scales.Same scales')
    (h : dequantizeMxfp4Blocks E blocks scales = .ok w) :
    ∃ w', dequantizeMxfp4Blocks E blocks' scales' = .ok w' ∧ w.Same w' := by
  obtain ⟨rest, nBlocks, hb, hs, rfl⟩ := dequantizeMxfp4Blocks_eq_ok.1 h
  refine ⟨_, dequantizeMxfp4Blocks_eq_ok.2
    ⟨rest, nBlocks, hblocks.1.symm.trans hb, hscales.1.symm.trans hs, rfl⟩, rfl, ?_⟩
  intro idx hidx
  obtain ⟨pre, j, rfl, hpre, hj⟩ := (Tensor.inRange_last rfl).mp hidx
  have hblock : j / 32 < nBlocks := Nat.div_lt_of_lt_mul (Nat.mul_comm 32 _ ▸ hj)
  have hscale : scales.InRange (pre ++ [j / 32]) :=
    (Tensor.inRange_last hs).mpr ⟨pre, _, rfl, hpre, hblock⟩
  have hbyte : blocks.InRange (pre ++ [j / 32, j % 32 / 2]) := by
    apply (Tensor.inRange_last hb).mpr
    refine ⟨pre ++ [j / 32], j % 32 / 2, (List.append_cons pre _ _), ?_, by omega⟩
    exact List.rel_append hpre (.cons hblock .nil)
  change mxfp4Value E blocks scales _ _ = mxfp4Value E blocks' scales' _ _
  rw [mxfp4Value_concat, mxfp4Value_concat, mxfp4Value, mxfp4Value, hblocks.2 _ hbyte,
    hscales.2 _ hscale]

theorem dequantizeMxfp4Blocks_shape {n nBlocks : Nat} (hscales : scales.shape = [n, nBlocks])
    {w : Tensor ρ} (h : dequantizeMxfp4Blocks E blocks scales = .ok w) :
    w.shape = [n, nBlocks * 32] := by
  obtain ⟨rest, nBlocks', -, hs, rfl⟩ := dequantizeMxfp4Blocks_eq_ok.1 h
  have happend : [n] ++ [nBlocks] = rest ++ [nBlocks'] := hscales.symm.trans hs
  obtain ⟨rfl, hlast⟩ := List.append_inj' happend rfl
  cases hlast
  rfl

/-- Rows of blocks dequantize to rows. -/
theorem dequantizeMxfp4Blocks_rows {n nBlocks : Nat} (hblocks : blocks.shape = [n, nBlocks, 16])
    (hscales : scales.shape = [n, nBlocks]) {w : Tensor ρ}
    (h : dequantizeMxfp4Blocks E blocks scales = .ok w) (start stop : Nat) :
    ∃ w', dequantizeMxfp4Blocks E (blocks.rows start stop) (scales.rows start stop) = .ok w' ∧
      w'.Same (w.rows start stop) := by
  have hrows : ∀ {t : Tensor α} {rest : List Nat}, t.shape = n :: rest →
      (t.rows start stop).shape = (min stop n - start) :: rest := by
    intro t rest ht
    rw [Tensor.rows, Tensor.size, ht]
    rfl
  obtain ⟨rest, nBlocks', -, hs, rfl⟩ := dequantizeMxfp4Blocks_eq_ok.1 h
  have happend : [n] ++ [nBlocks] = rest ++ [nBlocks'] := hscales.symm.trans hs
  obtain ⟨rfl, hlast⟩ := List.append_inj' happend rfl
  cases hlast
  refine ⟨_, dequantizeMxfp4Blocks_eq_ok.2
    ⟨[min stop n - start], nBlocks, hrows hblocks, hrows hscales, rfl⟩, ?_⟩
  apply Tensor.same_of_matrix rfl
  · exact Tensor.rows_shape rfl
  · exact fun i j _ _ => rfl

end Mxfp4

end FreeToken
