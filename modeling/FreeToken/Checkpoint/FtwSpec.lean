import FreeToken.Checkpoint.Ftw

/-!
# When an FTW archive comes back as it was written

`write` lays the tensors out as the parts of one blob. It stops at a tensor whose bytes `view` does
not give out, and `read` stops at an empty blob; nothing else goes wrong.
-/

namespace FreeToken.Ftw

open Packed (padTo)

theorem DType.itemsize_dvd (d : DType) : d.itemsize ∣ alignment := by
  cases d <;> decide

theorem dtypeFromStr_toStr (d : DType) : dtypeFromStr (dtypeToStr d) = some d := by
  cases d <;> rfl

/-! ### Views -/

namespace Tensor

/-- The bytes of `t` can be had as a tensor of bytes. -/
def Viewable (t : Tensor) : Prop :=
  t.dtype.itemsize = 1 ∨ t.contiguous.strides.getLast? = some 1

instance decidableViewable (t : Tensor) : Decidable t.Viewable :=
  inferInstanceAs (Decidable (_ ∨ _))

theorem contiguous_fields (t : Tensor) :
    t.contiguous.dtype = t.dtype ∧ t.contiguous.shape = t.shape ∧ t.contiguous.bytes = t.bytes := by
  rw [contiguous]
  split
  · exact ⟨rfl, rfl, rfl⟩
  · exact ⟨rfl, rfl, rfl⟩

theorem length_rowMajor (shape : List Nat) : (rowMajor shape).length = shape.length := by
  induction shape with
  | nil => rfl
  | cons size sizes ih => rw [rowMajor, List.length_cons, ih, List.length_cons]

theorem WellFormed.strides_contiguous {t : Tensor} (h : t.WellFormed) :
    t.contiguous.strides.length = t.shape.length := by
  rw [contiguous]
  split
  · exact h.strides_length
  · exact length_rowMajor t.shape

/-- `view(torch.uint8)` gives the bytes of a viewable tensor, and nothing of another. -/
theorem viewBytes_iff {t : Tensor} (h : t.WellFormed) :
    (t.Viewable → ∃ raw, t.contiguous.viewDtype .uint8 = some raw ∧ raw.bytes = t.bytes) ∧
      (¬ t.Viewable → t.contiguous.viewDtype .uint8 = none) := by
  obtain ⟨hdtype, hshape, hbytes⟩ := t.contiguous_fields
  by_cases hone : t.dtype.itemsize = 1
  · have hview : t.contiguous.viewDtype .uint8 = some { t.contiguous with dtype := .uint8 } := by
      rw [viewDtype, hdtype]
      exact if_pos hone
    exact ⟨fun _ => ⟨_, hview, hbytes⟩, fun hnot => absurd (Or.inl hone) hnot⟩
  · have hne : t.contiguous.dtype.itemsize ≠ DType.uint8.itemsize := by
      rw [hdtype]
      exact hone
    have hlt : DType.uint8.itemsize < t.contiguous.dtype.itemsize := by
      rw [hdtype]
      revert hone
      cases t.dtype <;> decide
    constructor
    · rintro (hitem | hlast)
      · exact absurd hitem hone
      · obtain ⟨size, hsize⟩ : ∃ size, t.contiguous.shape.getLast? = some size := by
          have hstrides := h.strides_contiguous
          rw [← hshape] at hstrides
          cases hs : t.contiguous.shape.getLast? with
          | some size => exact ⟨size, rfl⟩
          | none =>
              rw [List.getLast?_eq_none_iff] at hs
              rw [hs, List.length_nil, List.length_eq_zero_iff] at hstrides
              rw [hstrides] at hlast
              cases hlast
        rw [viewDtype, if_neg hne, hsize, hlast]
        dsimp only
        rw [if_neg (by decide), if_pos hlt]
        exact ⟨_, rfl, hbytes⟩
    · intro hnot
      have hlast : t.contiguous.strides.getLast? ≠ some 1 := fun heq => hnot (Or.inr heq)
      rw [viewDtype, if_neg hne]
      split
      · next size stride _ hstride =>
          have hstride1 : stride ≠ 1 := by
            rintro rfl
            exact hlast hstride
          rw [if_pos hstride1]
      · rfl

/-- A vector of bytes viewed with elements of more bytes. -/
theorem viewDtype_vector {d : DType} {n so : Nat} {bytes : List UInt8} (hone : d.itemsize ≠ 1)
    (hn : n % d.itemsize = 0) (hso : so % d.itemsize = 0) :
    (⟨.uint8, [n], [1], so, bytes⟩ : Tensor).viewDtype d
      = some ⟨d, [n / d.itemsize], [1], so / d.itemsize, bytes⟩ := by
  have hnot : ¬ d.itemsize < DType.uint8.itemsize := by
    cases d <;> decide
  have hratio : d.itemsize / DType.uint8.itemsize = d.itemsize := Nat.div_one _
  rw [viewDtype, if_neg (fun heq => hone heq.symm)]
  simp only [List.getLast?_singleton, ne_eq, not_true_eq_false, if_false, if_neg hnot, hratio,
    List.dropLast_singleton, List.map_nil, List.nil_append]
  rw [if_pos ⟨hn, hso, fun s hs => by cases hs⟩]

/-- The slice of a tensor that was put at an aligned offset, viewed with its own dtype and shape. -/
theorem view_slice {weights : List UInt8} {t : Tensor} {offset : Nat} (h : t.WellFormed)
    (hdvd : alignment ∣ offset) (hle : offset + t.bytes.length ≤ weights.length)
    (hslice : (weights.drop offset).take t.bytes.length = t.bytes) :
    ∃ flat back, ((frombuffer weights).slice offset (offset + t.bytes.length)).viewDtype t.dtype
        = some flat ∧ flat.viewShape t.shape = some back ∧
      back.dtype = t.dtype ∧ back.shape = t.shape ∧ back.bytes = t.bytes := by
  have hraw : (frombuffer weights).slice offset (offset + t.bytes.length)
      = ⟨.uint8, [t.bytes.length], [1], offset, t.bytes⟩ := by
    rw [slice, frombuffer]
    dsimp only
    rw [Nat.add_sub_cancel_left, hslice, Nat.min_eq_left (Nat.le_trans (Nat.le_add_right _ _) hle),
      Nat.zero_add]
  have hpos : 0 < t.dtype.itemsize := by cases t.dtype <;> decide
  have hcount : t.bytes.length = t.numel * t.dtype.itemsize := h.bytes_length
  have hflat : ∀ so, ∃ back,
      (⟨t.dtype, [t.numel], [1], so, t.bytes⟩ : Tensor).viewShape t.shape = some back ∧
        back.dtype = t.dtype ∧ back.shape = t.shape ∧ back.bytes = t.bytes := by
    intro so
    refine ⟨_, if_pos ⟨?_, ?_⟩, rfl, rfl, rfl⟩
    · simp [isContiguous, contiguousFrom]
    · simp [numel]
  rw [hraw]
  by_cases hone : t.dtype.itemsize = 1
  · rw [hone, Nat.mul_one] at hcount
    obtain ⟨back, hback⟩ := hflat offset
    refine ⟨⟨t.dtype, [t.numel], [1], offset, t.bytes⟩, back, ?_, hback⟩
    rw [← hcount]
    exact if_pos hone.symm
  · obtain ⟨back, hback⟩ := hflat (offset / t.dtype.itemsize)
    refine ⟨⟨t.dtype, [t.numel], [1], offset / t.dtype.itemsize, t.bytes⟩, back, ?_, hback⟩
    have hsize : t.bytes.length / t.dtype.itemsize = t.numel := by
      rw [hcount, Nat.mul_div_cancel _ hpos]
    have hmod : t.bytes.length % t.dtype.itemsize = 0 := by
      rw [hcount, Nat.mul_mod_left]
    have hoffset : offset % t.dtype.itemsize = 0 :=
      Nat.mod_eq_zero_of_dvd (dvd_trans t.dtype.itemsize_dvd hdvd)
    rw [viewDtype_vector hone hmod hoffset, hsize]

end Tensor

/-! ### Writing -/

/-- The entry of a tensor that was put at `offset`. -/
def NamedTensor.entry (t : NamedTensor) (offset : Nat) : String × Meta :=
  (t.name, ⟨dtypeToStr t.tensor.dtype, t.tensor.shape, offset, t.tensor.bytes.length⟩)

/-- The archive holds these tensors at these offsets. -/
structure Stored (s : Archive) (placed : List (NamedTensor × Nat)) : Prop where
  offset_eq : s.offset = s.weights.length
  holds : Packed.Holds alignment 0 s.weights (placed.map fun p => (p.2, p.1.tensor.bytes))
  entries_eq : s.index.entries = placed.map fun p => p.1.entry p.2

theorem stored_empty : Stored {} [] := ⟨rfl, Packed.Holds.nil, rfl⟩

theorem Stored.writeTensor {s : Archive} {placed : List (NamedTensor × Nat)} (h : Stored s placed)
    {t : NamedTensor} (hview : t.tensor.Viewable) (hnew : t.name ∉ placed.map fun p => p.1.name) :
    ∃ s' offset, writeTensor s t = .ok s' ∧ Stored s' (placed ++ [(t, offset)]) := by
  obtain ⟨raw, hraw, hbytes⟩ := (Tensor.viewBytes_iff t.wellFormed).1 hview
  refine ⟨_, s.offset + padTo alignment s.weights.length, by rw [Ftw.writeTensor, hraw], ?_⟩
  have hkey : t.name ∉ s.index.entries.map Prod.fst := by
    rw [h.entries_eq, List.map_map]
    exact hnew
  refine ⟨?_, ?_, ?_⟩
  · dsimp only
    rw [List.length_append, List.length_append, List.length_replicate, h.offset_eq]
  · have hsnoc := h.holds.snoc t.tensor.bytes
    rw [Packed.addPart] at hsnoc
    rw [List.map_append, hbytes, h.offset_eq]
    exact hsnoc
  · dsimp only
    rw [Dict.entries_set, Dict.dictSet_of_not_mem hkey, h.entries_eq, List.map_append, hbytes,
      h.offset_eq]
    rfl

/-- The loop of `write` over viewable tensors. -/
theorem Stored.writeFrom {ts : List NamedTensor} : ∀ {s : Archive}
    {placed : List (NamedTensor × Nat)}, Stored s placed → (∀ t ∈ ts, t.tensor.Viewable) →
      (placed.map (fun p => p.1.name) ++ ts.map NamedTensor.name).Nodup →
      ∃ s' new, writeFrom s ts = .ok s' ∧ Stored s' (placed ++ new) ∧ new.map Prod.fst = ts := by
  induction ts with
  | nil => exact fun {s placed} h _ _ => ⟨s, [], rfl, by rwa [List.append_nil], rfl⟩
  | cons t ts ih =>
      intro s placed h hview hnodup
      have hnew : t.name ∉ placed.map fun p => p.1.name := by
        intro hin
        exact (List.nodup_append.mp hnodup).2.2 _ hin _ List.mem_cons_self rfl
      obtain ⟨s', offset, hwrite, hstored⟩ := h.writeTensor (hview t List.mem_cons_self) hnew
      have hnodup' : ((placed ++ [(t, offset)]).map (fun p => p.1.name)
          ++ ts.map NamedTensor.name).Nodup := by
        rw [List.map_append, List.append_assoc]
        exact hnodup
      obtain ⟨s'', new, hrest, hstored', hnames⟩ :=
        ih hstored (fun u hu => hview u (List.mem_cons_of_mem t hu)) hnodup'
      refine ⟨s'', (t, offset) :: new, ?_, ?_, ?_⟩
      · rw [Ftw.writeFrom, hwrite]
        exact hrest
      · rw [List.append_assoc] at hstored'
        exact hstored'
      · rw [List.map_cons, hnames]

/-- `write` comes to its end only over viewable tensors. -/
theorem viewable_of_writeFrom {ts : List NamedTensor} : ∀ {s s' : Archive},
    writeFrom s ts = .ok s' → ∀ t ∈ ts, t.tensor.Viewable := by
  induction ts with
  | nil => exact fun _ t ht => by cases ht
  | cons t ts ih =>
      intro s s' hwrite u hu
      rw [writeFrom] at hwrite
      cases hone : writeTensor s t with
      | error e =>
          rw [hone] at hwrite
          cases hwrite
      | ok s1 =>
          rw [hone] at hwrite
          rcases List.mem_cons.mp hu with rfl | hu
          · by_contra hnot
            rw [writeTensor, (Tensor.viewBytes_iff u.wellFormed).2 hnot] at hone
            cases hone
          · exact ih hwrite u hu

/-! ### Reading -/

/-- What has to come back of a tensor. -/
def NamedTensor.content (t : NamedTensor) : String × DType × List Nat × List UInt8 :=
  (t.name, t.tensor.dtype, t.tensor.shape, t.tensor.bytes)

def content (back : String × Tensor) : String × DType × List Nat × List UInt8 :=
  (back.1, back.2.dtype, back.2.shape, back.2.bytes)

theorem readTensor_entry {weights : List UInt8} {t : NamedTensor} {offset : Nat}
    (hdvd : alignment ∣ offset) (hle : offset + t.tensor.bytes.length ≤ weights.length)
    (hslice : (weights.drop offset).take t.tensor.bytes.length = t.tensor.bytes) :
    ∃ back, readTensor (Tensor.frombuffer weights) (t.entry offset) = .ok back ∧
      content back = t.content := by
  obtain ⟨flat, back, hflat, hback, hdtype, hshape, hbytes⟩ :=
    Tensor.view_slice t.wellFormed hdvd hle hslice
  refine ⟨(t.name, back), ?_, by rw [content, NamedTensor.content, hdtype, hshape, hbytes]⟩
  simp only [readTensor, NamedTensor.entry, dtypeFromStr_toStr, hflat, hback]

theorem readAll_placed {weights : List UInt8} {placed : List (NamedTensor × Nat)}
    (h : ∀ p ∈ placed, alignment ∣ p.2 ∧ p.2 + p.1.tensor.bytes.length ≤ weights.length ∧
      (weights.drop p.2).take p.1.tensor.bytes.length = p.1.tensor.bytes) :
    ∃ back, readAll (Tensor.frombuffer weights) (placed.map fun p => p.1.entry p.2) = .ok back ∧
      back.map content = placed.map fun p => p.1.content := by
  induction placed with
  | nil => exact ⟨[], rfl, rfl⟩
  | cons p placed ih =>
      obtain ⟨hdvd, hle, hslice⟩ := h p List.mem_cons_self
      obtain ⟨first, hfirst, hcontent⟩ := readTensor_entry hdvd hle hslice
      obtain ⟨rest, hrest, hcontents⟩ := ih fun q hq => h q (List.mem_cons_of_mem p hq)
      refine ⟨first :: rest, ?_, by rw [List.map_cons, hcontent, hcontents, List.map_cons]⟩
      rw [List.map_cons, readAll, hfirst, hrest]

/-! ### The round trip -/

/-- The tensors come back, and their ranges are aligned, inside the file and apart. -/
structure RoundTrips (ts : List NamedTensor) (archive : Archive) : Prop where
  back : ∃ back, read archive = .ok back ∧ back.map content = ts.map NamedTensor.content
  aligned : ∀ e ∈ archive.index.entries, alignment ∣ e.2.offset
  inside : ∀ e ∈ archive.index.entries, e.2.offset + e.2.nbytes ≤ archive.weights.length
  apart : archive.index.entries.Pairwise fun e f => e.2.offset + e.2.nbytes ≤ f.2.offset

/-- A written archive that is not empty is read back. -/
theorem Stored.roundTrips {s : Archive} {placed : List (NamedTensor × Nat)} (h : Stored s placed)
    (hne : s.weights ≠ []) : RoundTrips (placed.map Prod.fst) s := by
  have hpart : ∀ p ∈ placed, alignment ∣ p.2 ∧ p.2 + p.1.tensor.bytes.length ≤ s.weights.length ∧
      (s.weights.drop p.2).take p.1.tensor.bytes.length = p.1.tensor.bytes := fun p hp =>
    h.holds.part (by decide) (List.mem_map_of_mem hp)
  refine ⟨?_, fun e he => ?_, fun e he => ?_, ?_⟩
  · obtain ⟨back, hread, hcontent⟩ := readAll_placed hpart
    refine ⟨back, ?_, by rw [hcontent, List.map_map]; rfl⟩
    rw [read, if_neg hne, h.entries_eq]
    exact hread
  · rw [h.entries_eq] at he
    obtain ⟨p, hp, rfl⟩ := List.mem_map.mp he
    exact (hpart p hp).1
  · rw [h.entries_eq] at he
    obtain ⟨p, hp, rfl⟩ := List.mem_map.mp he
    exact (hpart p hp).2.1
  · rw [h.entries_eq, List.pairwise_map]
    have hpairs := h.holds.pairwise (by decide)
    rw [List.pairwise_map] at hpairs
    exact hpairs

/-- Some tensor has an element, and the bytes of each can be viewed: its elements are bytes
themselves, or it has a last dimension and that has stride 1 when the tensor is contiguous. -/
def Readable (ts : List NamedTensor) : Prop :=
  (∃ t ∈ ts, t.tensor.numel ≠ 0) ∧ ∀ t ∈ ts, t.tensor.Viewable

theorem NamedTensor.bytes_eq_nil_iff (t : NamedTensor) :
    t.tensor.bytes = [] ↔ t.tensor.numel = 0 := by
  have hpos : 0 < t.tensor.dtype.itemsize := by cases t.tensor.dtype <;> decide
  rw [← List.length_eq_zero_iff, t.wellFormed.bytes_length, Nat.mul_eq_zero]
  exact or_iff_left (Nat.ne_of_gt hpos)

/-- Tensors with distinct names come back as they were written exactly when they are readable. -/
theorem ftw_roundTrips_iff {ts : List NamedTensor} (hnames : (ts.map NamedTensor.name).Nodup) :
    (∃ archive, write ts = .ok archive ∧ RoundTrips ts archive) ↔ Readable ts := by
  have hwritten : (∀ t ∈ ts, t.tensor.Viewable) → ∃ s placed, write ts = .ok s ∧
      Stored s placed ∧ placed.map Prod.fst = ts := by
    intro hview
    obtain ⟨s, placed, hwrite, hstored, hfst⟩ := stored_empty.writeFrom hview hnames
    exact ⟨s, placed, hwrite, hstored, hfst⟩
  have hempty : ∀ {s placed}, Stored s placed → placed.map Prod.fst = ts →
      (s.weights = [] ↔ ∀ t ∈ ts, t.tensor.numel = 0) := by
    intro s placed hstored hfst
    rw [hstored.holds.eq_nil_iff, ← hfst]
    simp only [List.forall_mem_map, NamedTensor.bytes_eq_nil_iff]
  constructor
  · rintro ⟨archive, hwrite, hround⟩
    have hview := viewable_of_writeFrom hwrite
    refine ⟨?_, hview⟩
    obtain ⟨s, placed, hwrite', hstored, hfst⟩ := hwritten hview
    rw [hwrite, Except.ok.injEq] at hwrite'
    subst hwrite'
    by_contra hnone
    have hnil : archive.weights = [] := (hempty hstored hfst).mpr fun t ht => by
      by_contra hne
      exact hnone ⟨t, ht, hne⟩
    obtain ⟨back, hread, -⟩ := hround.back
    rw [read, if_pos hnil] at hread
    cases hread
  · rintro ⟨⟨t, ht, hne⟩, hview⟩
    obtain ⟨s, placed, hwrite, hstored, hfst⟩ := hwritten hview
    refine ⟨s, hwrite, ?_⟩
    rw [← hfst]
    exact hstored.roundTrips fun hnil => hne ((hempty hstored hfst).mp hnil t ht)

/-- An int8 vector of three elements and an int64 of shape 1 × 2. -/
def twoTensors : List NamedTensor :=
  [{ name := "a", tensor := ⟨.int8, [3], [1], 0, [1, 2, 3]⟩, wellFormed := ⟨rfl, rfl⟩ },
    { name := "b"
      tensor := ⟨.int64, [1, 2], [2, 1], 0, [1, 0, 0, 0, 0, 0, 0, 0, 2, 0, 0, 0, 0, 0, 0, 0]⟩
      wellFormed := ⟨rfl, rfl⟩ }]

theorem twoTensors_roundTrip : ∃ archive, write twoTensors = .ok archive ∧
    RoundTrips twoTensors archive :=
  (ftw_roundTrips_iff (by decide)).mpr ⟨⟨_, List.mem_cons_self, by decide⟩, by decide⟩

/-- The number 1.0 as a tensor without dimensions. -/
def scalarTensor : NamedTensor where
  name := "scale"
  tensor := ⟨.float32, [], [], 0, [0, 0, 0x80, 0x3f]⟩
  wellFormed := ⟨rfl, rfl⟩

/-- `write` raises on a float without dimensions. -/
theorem scalar_not_written : write [scalarTensor] = .error .view ∧
    ¬ ∃ archive, write [scalarTensor] = .ok archive ∧ RoundTrips [scalarTensor] archive := by
  refine ⟨rfl, ?_⟩
  rintro ⟨archive, hwrite, -⟩
  cases hwrite

end FreeToken.Ftw
