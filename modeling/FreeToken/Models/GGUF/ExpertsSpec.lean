import FreeToken.Models.GGUF.DequantSpec
import FreeToken.Models.GGUF.Experts
import Mathlib.Tactic.Ring

/-!
# One packed tensor, read eagerly and kept raw

The tensors of a layer are the same for both ways, and so are the bytes of a tensor. Its row for an
expert is a stretch of whole blocks, from which the matrix of that expert is dequantized with or
without the bytes that a wider bank adds to it.
-/

namespace FreeToken.GGUF

/-! ### The tensors of a layer -/

def tensorAt (layers : Dict Nat Suffixes) (layer : Nat) (suffix : String) : Option GGUFTensorInfo :=
  ((layers.get? layer).getD .empty).get? suffix

theorem tensorAt_set (layers : Dict Nat Suffixes) (l l' : Nat) (s s' : String)
    (info : GGUFTensorInfo) :
    tensorAt (layers.set l (((layers.get? l).getD .empty).set s info)) l' s' =
      if l = l' ∧ s = s' then some info else tensorAt layers l' s' := by
  rw [tensorAt, Dict.get?_set]
  by_cases hl : l = l'
  · subst hl
    rw [if_pos rfl, Option.getD_some, Dict.get?_set]
    by_cases hs : s = s'
    · rw [if_pos hs, if_pos ⟨rfl, hs⟩]
    · rw [if_neg hs, if_neg fun h => hs h.2]
      rfl
  · rw [if_neg hl, if_neg fun h => hl h.1]
    rfl

/-- One round of the loop that fills `by_layer`. -/
def addTensor (real : Option Int) (keep : String → Bool) (layers : Dict Nat Suffixes)
    (entry : String × GGUFTensorInfo) : Dict Nat Suffixes :=
  match matchLayer entry.1 with
  | none => layers
  | some (layer, suffix) =>
      if real.any (fun n => n ≤ (layer : Int)) || !keep suffix then layers
      else layers.set layer (((layers.get? layer).getD .empty).set suffix entry.2)

theorem byLayer_eq (real : Option Int) (keep : String → Bool)
    (tensors : Dict String GGUFTensorInfo) :
    byLayer real keep tensors = tensors.entries.foldl (addTensor real keep) .empty := rfl

/-- A tensor that is kept either way goes in either way. -/
theorem tensorAt_addTensor (real : Option Int) {keep : String → Bool} {d d' : Dict Nat Suffixes}
    {layer : Nat} {suffix : String} (hkeep : keep suffix = true)
    (h : tensorAt d layer suffix = tensorAt d' layer suffix) (entry : String × GGUFTensorInfo) :
    tensorAt (addTensor real keep d entry) layer suffix =
      tensorAt (addTensor real (fun _ => true) d' entry) layer suffix := by
  rw [addTensor, addTensor]
  cases matchLayer entry.1 with
  | none => exact h
  | some named =>
      obtain ⟨l, s⟩ := named
      by_cases hreal : real.any (fun n => n ≤ (l : Int)) = true
      · simp only [hreal, Bool.true_or, if_true]
        exact h
      · by_cases hs : keep s = true
        · simp only [hreal, hs, Bool.not_true, Bool.or_false, Bool.false_eq_true, if_false,
            tensorAt_set, h]
        · have hne : ¬ (l = layer ∧ s = suffix) := fun heq => hs (heq.2 ▸ hkeep)
          simp only [hreal, hs, Bool.not_true, Bool.not_false, Bool.or_true, Bool.or_false,
            Bool.false_eq_true, if_true, if_false, tensorAt_set, if_neg hne, h]

/-- Leaving other suffixes out does not change what is there under a suffix. -/
theorem tensorAt_byLayer (real : Option Int) {keep : String → Bool}
    (tensors : Dict String GGUFTensorInfo) (layer : Nat) {suffix : String}
    (hkeep : keep suffix = true) :
    tensorAt (byLayer real keep tensors) layer suffix =
      tensorAt (byLayer real (fun _ => true) tensors) layer suffix := by
  rw [byLayer_eq, byLayer_eq]
  have hfold : ∀ (entries : List (String × GGUFTensorInfo)) (d d' : Dict Nat Suffixes),
      tensorAt d layer suffix = tensorAt d' layer suffix →
      tensorAt (entries.foldl (addTensor real keep) d) layer suffix =
        tensorAt (entries.foldl (addTensor real fun _ => true) d') layer suffix := by
    intro entries
    induction entries with
    | nil => exact fun d d' h => h
    | cons entry entries ih =>
        intro d d' h
        apply ih
        exact tensorAt_addTensor real hkeep h entry
  exact hfold _ _ _ rfl

theorem mem_sortedLayers {layers : Dict Nat Suffixes} {layer : Nat} :
    layer ∈ sortedLayers layers ↔ (layers.get? layer).isSome := by
  rw [sortedLayers, List.mem_insertionSort, Dict.get?_isSome]

theorem mem_sortedLayers_of_tensorAt {layers : Dict Nat Suffixes} {layer : Nat} {suffix : String}
    {info : GGUFTensorInfo} (h : tensorAt layers layer suffix = some info) :
    layer ∈ sortedLayers layers := by
  rw [mem_sortedLayers]
  rw [tensorAt] at h
  cases hlayer : layers.get? layer with
  | none =>
      rw [hlayer] at h
      cases h
  | some _ => rfl

/-! ### Raw rows -/

section Raw

variable {sizes : QuantSizes} {file : List UInt8} {info : GGUFTensorInfo} {raws : ByteRows}

theorem ggufExpertRowBytes_eq_ok {ggmlType nElements n : Nat} :
    ggufExpertRowBytes sizes ggmlType nElements = .ok n ↔
      ∃ size, sizes ggmlType = some size ∧ nElements % size.blockSize = 0 ∧
        n = nElements / size.blockSize * size.typeSize := by
  rw [ggufExpertRowBytes, bind_eq_ok, blockAndTypeSize]
  cases sizes ggmlType with
  | none => simp
  | some size =>
      simp only [Except.ok.injEq, exists_eq_left', Option.some.injEq]
      split
      · next h => simp [h]
      · next h =>
          rw [Except.ok.injEq]
          exact ⟨fun heq => ⟨not_not.mp h, heq.symm⟩, fun heq => heq.2.symm⟩

/-- The rows that a tensor of `n` experts has, and where their bytes are. -/
structure RawBankOf (sizes : QuantSizes) (file : List UInt8) (n : Nat) (info : GGUFTensorInfo)
    (rowBytes : Nat) (raw : List UInt8) (raws : ByteRows) : Prop where
  last_eq : info.shape.getLast? = some n
  rowBytes_eq : ggufExpertRowBytes sizes info.ggmlType (info.nElements / n) = .ok rowBytes
  read_eq : readAt file info.offset (rowBytes * n) = .ok raw
  length_eq : raw.length = rowBytes * n
  raws_eq : raws = ByteRows.ofFlat n rowBytes raw length_eq

theorem rawBank_eq_ok {numExperts : Int} :
    rawBank sizes file numExperts info = .ok raws ↔
      ∃ (n : Nat) (rowBytes : Nat) (raw : List UInt8), (n : Int) = numExperts ∧
        RawBankOf sizes file n info rowBytes raw raws := by
  rw [rawBank]
  constructor
  · intro h
    cases hlast : info.shape.getLast? with
    | none =>
        rw [hlast] at h
        cases h
    | some n =>
        rw [hlast] at h
        change (if _ then _ else _) = _ at h
        split at h
        · cases h
        · next hn =>
            obtain ⟨rowBytes, hbytes, h⟩ := bind_eq_ok.mp h
            obtain ⟨raw, hread, h⟩ := bind_eq_ok.mp h
            split at h
            · next hlen =>
                cases h
                exact ⟨n, rowBytes, raw, not_not.mp hn, hlast, hbytes, hread, hlen, rfl⟩
            · cases h
  · rintro ⟨n, rowBytes, raw, hn, h⟩
    rw [h.last_eq]
    change (if _ then _ else _) = _
    rw [if_neg (not_not.mpr hn)]
    apply bind_eq_ok.mpr
    refine ⟨rowBytes, h.rowBytes_eq, bind_eq_ok.mpr ⟨raw, h.read_eq, ?_⟩⟩
    rw [dif_pos h.length_eq]
    exact congrArg Except.ok h.raws_eq.symm

/-- Row `e` is the stretch of bytes from `e * rowBytes` on. -/
theorem ByteRows.ofFlat_row {n width : Nat} {raw : List UInt8} (h : raw.length = width * n) {e : Nat}
    (he : e < n) :
    (ByteRows.ofFlat n width raw h).rows[e]? = some ((raw.drop (e * width)).take width) := by
  rw [ByteRows.ofFlat, List.getElem?_map, List.getElem?_range he]
  rfl

theorem ByteRows.length_ofFlat {n width : Nat} {raw : List UInt8} (h : raw.length = width * n) :
    (ByteRows.ofFlat n width raw h).rows.length = n := by
  rw [ByteRows.ofFlat, List.length_map, List.length_range]

end Raw

/-! ### Matrices -/

variable {φ ρ : Type} (F : Floats φ ρ) {sizes : QuantSizes} {file : List UInt8}

/-- The sizes that the kernels go by are those of `GGML_QUANT_SIZES`. -/
def SizesAgree (sizes : QuantSizes) : Prop :=
  ∀ ggmlType kernel, kernelOf F ggmlType = some kernel →
    ∃ size, sizes ggmlType = some size ∧ size.blockSize = kernel.blockSize ∧
      size.typeSize = kernel.typeSize

/-- The matrix holds, in its own dtype, the float32 values that the rows hold in `bfloat16`. -/
structure SameMatrix (dtype : Dtype) (rows cols : Nat) (m : Tensor ρ) (eager : Nat → Nat → ρ) :
    Prop where
  shape_eq : m.shape = [rows, cols]
  value : ∀ i < rows, ∀ j < cols, ∃ v, m.get [i, j] = F.cast dtype v ∧
    eager i j = F.cast .bfloat16 v

variable {F}

/-- In `bfloat16` the matrices are equal. -/
theorem SameMatrix.eq {rows cols : Nat} {m : Tensor ρ} {eager : Nat → Nat → ρ}
    (h : SameMatrix F .bfloat16 rows cols m eager) {i j : Nat} (hi : i < rows) (hj : j < cols) :
    m.get [i, j] = eager i j := by
  obtain ⟨v, hm, he⟩ := h.value i hi j hj
  rw [hm, he]

/-- Other rows with the same values. -/
theorem SameMatrix.congr {dtype : Dtype} {rows cols : Nat} {m : Tensor ρ} {eager eager' : Nat → Nat → ρ}
    (h : SameMatrix F dtype rows cols m eager)
    (heq : ∀ i < rows, ∀ j < cols, eager' i j = eager i j) : SameMatrix F dtype rows cols m eager' where
  shape_eq := h.shape_eq
  value := by
    intro i hi j hj
    rw [heq i hi j hj]
    exact h.value i hi j hj

theorem numel_matrix (rows cols : Nat) : Tensor.numel [rows, cols] = rows * cols := by simp

theorem ravel_matrix (rows cols i j : Nat) : Tensor.ravel [rows, cols] [i, j] = i * cols + j := by
  simp [Tensor.ravel]

theorem ravel_expert (n rows cols e i j : Nat) :
    Tensor.ravel [n, rows, cols] [e, i, j] = e * (rows * cols) + (i * cols + j) := by
  simp [Tensor.ravel]

theorem mapError_ok {ε ε' α : Type} {x : Except ε α} {f : ε → ε'} {a : α} :
    x.mapError f = .ok a ↔ x = .ok a := by
  cases x <;> simp [Except.mapError]

/-- One packed tensor both ways: the eager one has the matrix of each expert, and the row of that
expert is dequantized to it, whatever bytes follow. -/
structure BothWays (F : Floats φ ρ) (sizes : QuantSizes) (file : List UInt8) (n rows cols : Nat)
    (info : GGUFTensorInfo) (raws : ByteRows) (t : Tensor ρ) : Prop where
  eager_eq : readAndDequant F sizes file info = .ok t
  shape_eq : t.shape = [n, rows, cols]
  lazy : ∀ e < n, ∃ row, raws.rows[e]? = some row ∧ ∀ dtype more, ∃ m,
    SlotWeightAccessor.dequantRow F sizes (row ++ more) info.ggmlType rows cols dtype = .ok m ∧
      SameMatrix F dtype rows cols m fun i j => t.get [e, i, j]

theorem RawBankOf.bothWays {n rows cols rowBytes : Nat} {info : GGUFTensorInfo} {raw : List UInt8}
    {raws : ByteRows} (h : RawBankOf sizes file n info rowBytes raw raws)
    (hsizes : SizesAgree F sizes) (hn : 0 < n) (hshape : info.shape = [cols, rows, n])
    {kernel : Kernel φ} (hkernel : kernelOf F info.ggmlType = some kernel) :
    ∃ t, BothWays F sizes file n rows cols info raws t := by
  have hcount : info.nElements = n * (rows * cols) := by
    rw [GGUFTensorInfo.nElements, hshape]
    simp only [Tensor.numel_cons, Tensor.numel_nil]
    ring
  have hexpert : info.nElements / n = rows * cols := by
    rw [hcount]
    exact Nat.mul_div_cancel_left _ hn
  obtain ⟨size, hsize, hwhole, hbytes⟩ := ggufExpertRowBytes_eq_ok.mp h.rowBytes_eq
  obtain ⟨size', hsize', hblock, htype⟩ := hsizes _ _ hkernel
  cases hsize.symm.trans hsize'
  rw [hexpert, hblock] at hwhole
  rw [hexpert, hblock, htype] at hbytes
  -- `r` blocks make up the row of an expert.
  obtain ⟨r, hr⟩ : ∃ r, rows * cols = r * kernel.blockSize :=
    ⟨_, (Nat.div_mul_cancel (Nat.dvd_of_mod_eq_zero hwhole)).symm⟩
  rw [hr, Nat.mul_div_cancel r kernel.blockSize_pos] at hbytes
  have hlen : raw.length = n * r * kernel.typeSize := by
    rw [h.length_eq, hbytes]
    ring
  have hall : info.nElements / size.blockSize * size.typeSize = rowBytes * n := by
    rw [hcount, hr, hblock, htype, hbytes, ← Nat.mul_assoc,
      Nat.mul_div_cancel (n * r) kernel.blockSize_pos]
    ring
  have hnumel : Tensor.numel [n, rows, cols] = n * r * kernel.blockSize := by
    rw [Tensor.numel_cons, numel_matrix, hr, Nat.mul_assoc]
  obtain ⟨t, ht, hvalues⟩ := exists_dequantize (ρ := ρ) hkernel hlen hnumel .bfloat16
  refine ⟨t, ?_, hvalues.shape_eq, ?_⟩
  · apply bind_eq_ok.mpr
    refine ⟨size, by rw [blockAndTypeSize, hsize], bind_eq_ok.mpr ⟨raw, ?_, ?_⟩⟩
    · rw [hall]
      exact h.read_eq
    · rw [hshape]
      exact mapError_ok.mpr ht
  intro e he
  refine ⟨_, by rw [h.raws_eq]; exact ByteRows.ofFlat_row h.length_eq he, ?_⟩
  intro dtype more
  have hrow : (raw.drop (e * rowBytes)).take rowBytes =
      (raw.drop (e * r * kernel.typeSize)).take (r * kernel.typeSize) := by
    rw [hbytes, Nat.mul_assoc]
  have hfits : e * r + r ≤ n * r := by
    rw [← Nat.succ_mul]
    exact Nat.mul_le_mul_right r he
  have hrowLen : ((raw.drop (e * rowBytes)).take rowBytes).length = r * kernel.typeSize := by
    rw [← hbytes]
    apply Blocks.length_block
    rw [h.length_eq, Nat.mul_comm rowBytes]
    exact Nat.mul_le_mul_right rowBytes he
  obtain ⟨m, hm, hmatrix⟩ := exists_dequantize (ρ := ρ) hkernel hrowLen
    ((numel_matrix rows cols).trans hr) dtype
  refine ⟨m, ?_, hmatrix.shape_eq, ?_⟩
  · apply bind_eq_ok.mpr
    refine ⟨rowBytes, ?_, mapError_ok.mpr ?_⟩
    · rw [← hexpert]
      exact h.rowBytes_eq
    · rw [List.take_left' (hrowLen.trans hbytes.symm)]
      exact hm
  · intro i hi j hj
    have hlt : i * cols + j < r * kernel.blockSize := by
      rw [← hr]
      calc i * cols + j < i * cols + cols := Nat.add_lt_add_left hj _
        _ = (i + 1) * cols := by rw [Nat.add_mul, Nat.one_mul]
        _ ≤ rows * cols := Nat.mul_le_mul_right cols hi
    refine ⟨_, hmatrix.get_eq [i, j] (.cons hi (.cons hj .nil)), ?_⟩
    rw [hvalues.get_eq [e, i, j] (.cons he (.cons hi (.cons hj .nil))), ravel_expert, ravel_matrix,
      hrow, kernel.decoded_slice hlen hfits hlt, hr, Nat.mul_assoc]

/-- A type without a kernel is refused both ways. -/
theorem dequantRow_eq_ok {row : List UInt8} {ggmlType rows cols : Nat} {dtype : Dtype} {m : Tensor ρ}
    (h : SlotWeightAccessor.dequantRow F sizes row ggmlType rows cols dtype = .ok m) :
    ∃ kernel, kernelOf F ggmlType = some kernel := by
  obtain ⟨n, -, h⟩ := bind_eq_ok.mp h
  exact exists_kernel_of_dequantize (mapError_ok.mp h)

theorem readAndDequant_eq_ok {info : GGUFTensorInfo} {t : Tensor ρ}
    (h : readAndDequant F sizes file info = .ok t) :
    ∃ kernel, kernelOf F info.ggmlType = some kernel := by
  obtain ⟨size, -, h⟩ := bind_eq_ok.mp h
  obtain ⟨raw, -, h⟩ := bind_eq_ok.mp h
  exact exists_kernel_of_dequantize (mapError_ok.mp h)

end FreeToken.GGUF
