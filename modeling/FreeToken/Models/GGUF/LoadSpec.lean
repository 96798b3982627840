import FreeToken.Models.GGUF.Format
import Mathlib.Order.Bounds.Basic
import Mathlib.Tactic.Push

/-!
# `load_gguf` reads back what the format encodes

Each production of the format is read exactly, whatever follows it, so that the end of the header
is where `f.tell()` says. Only the arrays around a value are limited, by the interpreter's recursion
limit: a value inside too many of them ends the reader, whatever stands before and behind it.
-/

namespace FreeToken.GGUF

open Reader (Reads Fails)

theorem reads_exact (bytes : List UInt8) : Reads (readExact bytes.length) bytes bytes :=
  Reads.take _ bytes

theorem reads_nat (fmt : Fmt) {n : Nat} (h : n < 256 ^ fmt.size) :
    Reads (readNat fmt) (leBytes fmt.size n) n := by
  have hexact := reads_exact (leBytes fmt.size n)
  rw [length_leBytes] at hexact
  have hmap := hexact.map ofLeBytes
  rw [ofLeBytes_leBytes_of_lt h] at hmap
  exact hmap

theorem reads_u32 {n : Nat} (h : n < 2 ^ 32) : Reads (readNat .I) (leBytes 4 n) n :=
  reads_nat .I h

theorem reads_u64 {n : Nat} (h : n < 2 ^ 64) : Reads (readNat .Q) (leBytes 8 n) n :=
  reads_nat .Q h

theorem reads_decode (s : String) :
    Reads (readExact s.utf8ByteSize >>= decodeUtf8) s.toUTF8.data.toList s := by
  have hexact := reads_exact s.toUTF8.data.toList
  have hlen : s.toUTF8.data.toList.length = s.utf8ByteSize := by
    rw [Array.length_toList]
    rfl
  rw [hlen] at hexact
  have hvalid : String.fromUTF8? ⟨s.toUTF8.data.toList.toArray⟩ = some s := by
    rw [Array.toArray_toList, String.fromUTF8?]
    exact dif_pos s.isValidUTF8
  have hdecode : decodeUtf8 s.toUTF8.data.toList = pure s := by
    rw [decodeUtf8, hvalid]
  have hbind := hexact.bind (f := decodeUtf8) (by rw [hdecode]; exact Reads.pure s)
  rwa [List.append_nil] at hbind

theorem reads_string {s : String} (h : s.utf8ByteSize < 2 ^ 64) :
    Reads readGgufString (writeString s) s := (reads_u64 h).bind (reads_decode s)

/-! ### Values -/

theorem reads_struct {fmt : Fmt} {bytes : List UInt8} (h : bytes.length = fmt.size) :
    Reads (readStruct fmt) bytes (fmt.unpack bytes) := by
  have hexact := reads_exact bytes
  rw [h] at hexact
  exact hexact.map fmt.unpack

/-- The format of a scalar's type. -/
def Scalar.fmt : Scalar → Fmt
  | .uint8 _ => .B
  | .int8 _ => .b
  | .uint16 _ => .H
  | .int16 _ => .h
  | .uint32 _ => .I
  | .int32 _ => .i
  | .float32 _ => .f
  | .bool _ => .B
  | .uint64 _ => .Q
  | .int64 _ => .q
  | .float64 _ => .d

theorem scalarFmt_type (s : Scalar) : scalarFmt s.type.code = some s.fmt := by
  cases s <;> rfl

theorem Scalar.length_write (s : Scalar) : s.write.length = s.fmt.size := by
  cases s <;> exact length_leBytes _ _

/-- Every scalar is unpacked as what it stands for. -/
theorem Scalar.unpack_write (s : Scalar) :
    (if s.type.code = ValueType.bool.code then (s.fmt.unpack s.write).toBool
      else s.fmt.unpack s.write) = s.value := by
  have hsigned : ∀ {w : Nat} {i : Int}, -(256 ^ w : Nat) ≤ 2 * i → 2 * i < (256 ^ w : Nat) →
      ofLeBytesSigned (leBytesSigned w i) = i := fun hlow hhigh =>
    ofLeBytesSigned_leBytes hlow hhigh
  cases s with
  | uint8 v => exact congrArg (fun n : Nat => PyValue.int n) (ofLeBytes_leBytes_of_lt v.toNat_lt)
  | uint16 v => exact congrArg (fun n : Nat => PyValue.int n) (ofLeBytes_leBytes_of_lt v.toNat_lt)
  | uint32 v => exact congrArg (fun n : Nat => PyValue.int n) (ofLeBytes_leBytes_of_lt v.toNat_lt)
  | uint64 v => exact congrArg (fun n : Nat => PyValue.int n) (ofLeBytes_leBytes_of_lt v.toNat_lt)
  | float32 v => exact congrArg PyValue.float32 (ofLeBytes_leBytes_of_lt v.toNat_lt)
  | float64 v => exact congrArg PyValue.float64 (ofLeBytes_leBytes_of_lt v.toNat_lt)
  | int8 v =>
      have hlow := v.le_toInt
      have hhigh := v.toInt_lt
      exact congrArg PyValue.int (hsigned (by norm_num; omega) (by norm_num; omega))
  | int16 v =>
      have hlow := v.le_toInt
      have hhigh := v.toInt_lt
      exact congrArg PyValue.int (hsigned (by norm_num; omega) (by norm_num; omega))
  | int32 v =>
      have hlow := v.le_toInt
      have hhigh := v.toInt_lt
      exact congrArg PyValue.int (hsigned (by norm_num; omega) (by norm_num; omega))
  | int64 v =>
      have hlow := v.le_toInt
      have hhigh := v.toInt_lt
      exact congrArg PyValue.int (hsigned (by norm_num; omega) (by norm_num; omega))
  | bool b => cases b <;> rfl

theorem reads_scalar (s : Scalar) : Reads (readScalar s.type.code) s.write s.value := by
  have hread := (reads_struct s.length_write).map fun value =>
    if s.type.code = ValueType.bool.code then value.toBool else value
  rw [Scalar.unpack_write] at hread
  rw [readScalar, scalarFmt_type]
  exact hread

theorem writeAll_eq (vs : List Value) : writeAll vs = vs.flatMap Value.write := by
  induction vs with
  | nil => rfl
  | cons v vs ih => rw [writeAll, ih, List.flatMap_cons]

theorem valueAll_eq (vs : List Value) : valueAll vs = vs.map Value.value := by
  induction vs with
  | nil => rfl
  | cons v vs ih => rw [valueAll, ih, List.map_cons]

theorem ValueType.code_lt (t : ValueType) : t.code < 2 ^ 32 := by
  cases t <;> decide

/-! ### The room for a value -/

mutual

/-- The machine has room for the value inside so many arrays, and for all that is in it. -/
def Value.hasRoom (m : Machine) : Nat → Value → Bool
  | inside, .scalar s => inside < m.levels && m.room inside s.type.code
  | inside, .string _ => inside < m.levels && m.room inside ValueType.string.code
  | inside, .array _ elements =>
      (inside < m.levels && m.room inside ValueType.array.code) &&
        allHaveRoom m (inside + 1) elements

def allHaveRoom (m : Machine) : Nat → List Value → Bool
  | _, [] => true
  | inside, v :: vs => v.hasRoom m inside && allHaveRoom m inside vs

end

theorem allHaveRoom_eq_true {m : Machine} {inside : Nat} {vs : List Value} :
    allHaveRoom m inside vs = true ↔ ∀ v ∈ vs, v.hasRoom m inside = true := by
  induction vs with
  | nil => simp [allHaveRoom]
  | cons v vs ih => simp [allHaveRoom, ih]

/-- What the reader asks first. -/
theorem Value.hasRoom_enter {m : Machine} {v : Value} {inside : Nat}
    (h : v.hasRoom m inside = true) :
    inside < m.levels ∧ m.room inside v.type.code = true := by
  cases v with
  | scalar s => simpa [Value.hasRoom, Value.type] using h
  | string s => simpa [Value.hasRoom, Value.type] using h
  | array elementType elements =>
      simp only [Value.hasRoom, Bool.and_eq_true, decide_eq_true_eq] at h
      exact h.1

section Levels

variable {m : Machine} {left : Nat}

theorem readGgufValueOn_enter {valueType : Nat}
    (h : m.room (m.levels - (left + 1)) valueType = true) :
    readGgufValueOn m (left + 1) valueType =
      if valueType = ValueType.string.code then readGgufString >>= fun s => pure (.str s)
      else if valueType = ValueType.array.code then
        readNat .I >>= fun elementType => readNat .Q >>= fun length =>
          Reader.many (readGgufValueOn m left elementType) length >>= fun elements =>
            pure (.list elements)
      else readScalar valueType := by
  rw [readGgufValueOn, if_pos h]

/-- A value that the machine has room for is read back. -/
theorem reads_value {v : Value} (h : v.Fits) : ∀ {left : Nat}, left ≤ m.levels →
    v.hasRoom m (m.levels - left) = true →
      Reads (readGgufValueOn m left v.type.code) v.write v.value := by
  induction h with
  | scalar s =>
      intro left hleft hroom
      obtain ⟨hlt, henter⟩ := Value.hasRoom_enter hroom
      obtain ⟨left, rfl⟩ := Nat.exists_eq_succ_of_ne_zero (n := left) (by omega)
      rw [readGgufValueOn_enter henter]
      have hscalar := reads_scalar s
      cases s <;> exact hscalar
  | string s hlen =>
      intro left hleft hroom
      obtain ⟨hlt, henter⟩ := Value.hasRoom_enter hroom
      obtain ⟨left, rfl⟩ := Nat.exists_eq_succ_of_ne_zero (n := left) (by omega)
      rw [readGgufValueOn_enter henter]
      exact (reads_string hlen).map PyValue.str
  | array elementType elements hlen htype _ ih =>
      intro left hleft hroom
      obtain ⟨hlt, henter⟩ := Value.hasRoom_enter hroom
      obtain ⟨left, rfl⟩ := Nat.exists_eq_succ_of_ne_zero (n := left) (by omega)
      have hinside : m.levels - (left + 1) + 1 = m.levels - left := by omega
      simp only [Value.hasRoom, Bool.and_eq_true, hinside] at hroom
      have hall := allHaveRoom_eq_true.mp hroom.2
      have helements : Reads (Reader.many (readGgufValueOn m left elementType.code) elements.length)
          (elements.flatMap Value.write) (elements.map Value.value) := by
        apply Reads.many
        intro v hv
        have hread := @ih v hv left (by omega) (hall v hv)
        rwa [htype v hv] at hread
      rw [readGgufValueOn_enter henter, Value.write, writeAll_eq, Value.value, valueAll_eq]
      apply (reads_u32 elementType.code_lt).bind
      apply (reads_u64 hlen).bind
      exact helements.map PyValue.list

/-- A value that it has no room for ends the reader. -/
theorem fails_value {v : Value} (h : v.Fits) : ∀ {left : Nat}, left ≤ m.levels →
    v.hasRoom m (m.levels - left) = false →
      Fails (readGgufValueOn m left v.type.code) v.write .depth := by
  induction h with
  | scalar s =>
      intro left hleft hroom
      cases left with
      | zero => exact Reader.fails_fail _ _
      | succ left =>
          have hlt : m.levels - (left + 1) < m.levels := by omega
          simp only [Value.hasRoom, hlt, decide_true, Bool.true_and] at hroom
          rw [Value.type, readGgufValueOn, hroom]
          exact Reader.fails_fail _ _
  | string s hlen =>
      intro left hleft hroom
      cases left with
      | zero => exact Reader.fails_fail _ _
      | succ left =>
          have hlt : m.levels - (left + 1) < m.levels := by omega
          simp only [Value.hasRoom, hlt, decide_true, Bool.true_and] at hroom
          rw [Value.type, readGgufValueOn, hroom]
          exact Reader.fails_fail _ _
  | array elementType elements hlen htype hfits ih =>
      intro left hleft hroom
      cases left with
      | zero => exact Reader.fails_fail _ _
      | succ left =>
          have hlt : m.levels - (left + 1) < m.levels := by omega
          have hinside : m.levels - (left + 1) + 1 = m.levels - left := by omega
          simp only [Value.hasRoom, hlt, decide_true, Bool.true_and, hinside] at hroom
          cases henter : m.room (m.levels - (left + 1)) ValueType.array.code with
          | false =>
              rw [Value.type, readGgufValueOn, henter]
              exact Reader.fails_fail _ _
          | true =>
              rw [henter, Bool.true_and] at hroom
              have hread : ∀ v ∈ elements,
                  Reads (readGgufValueOn m left elementType.code) v.write v.value ∨
                    Fails (readGgufValueOn m left elementType.code) v.write .depth := by
                intro v hv
                rw [← htype v hv]
                cases hv' : v.hasRoom m (m.levels - left) with
                | true => exact .inl (reads_value (hfits v hv) (by omega) hv')
                | false => exact .inr (ih v hv (by omega) hv')
              have hbad : ∃ v ∈ elements,
                  Fails (readGgufValueOn m left elementType.code) v.write .depth := by
                have hsome : ¬ ∀ v ∈ elements, v.hasRoom m (m.levels - left) = true := fun hall =>
                  Bool.false_ne_true (hroom.symm.trans (allHaveRoom_eq_true.mpr hall))
                push Not at hsome
                obtain ⟨v, hv, hno⟩ := hsome
                refine ⟨v, hv, ?_⟩
                rw [← htype v hv]
                exact ih v hv (by omega) (Bool.eq_false_of_not_eq_true hno)
              rw [Value.type, readGgufValueOn_enter henter, Value.write, writeAll_eq]
              apply (reads_u32 elementType.code_lt).bind_fails
              apply (reads_u64 hlen).bind_fails
              exact (Fails.many hread hbad).then

end Levels

/-! ### The header -/

section Header

variable {m : Machine}

/-- The machine has room for every value of the header. -/
def Header.HasRoom (m : Machine) (h : Header) : Prop :=
  ∀ kv ∈ h.metadata, kv.value.hasRoom m 0 = true

instance (m : Machine) (h : Header) : Decidable (h.HasRoom m) :=
  inferInstanceAs (Decidable (∀ kv ∈ h.metadata, _))

theorem reads_pair (kv : MetadataKV) (hroom : kv.value.hasRoom m 0 = true) :
    Reads (readPairOn m) kv.write kv.pair := by
  have hvalue := reads_value kv.value_fits (Nat.le_refl m.levels) (by rwa [Nat.sub_self])
  apply (reads_string kv.key_lt).bind
  apply (reads_u32 kv.value.type.code_lt).bind
  exact hvalue.map fun value => (kv.key, value)

theorem fails_pair (kv : MetadataKV) (hroom : kv.value.hasRoom m 0 = false) :
    Fails (readPairOn m) kv.write .depth := by
  have hvalue := fails_value kv.value_fits (Nat.le_refl m.levels) (by rwa [Nat.sub_self])
  apply (reads_string kv.key_lt).bind_fails
  apply (reads_u32 kv.value.type.code_lt).bind_fails
  exact hvalue.then

theorem reads_tensor (t : TensorDesc) : Reads readTensor t.write t.raw := by
  apply (reads_string t.name_lt).bind
  apply (reads_u32 t.dims_lt).bind
  have hdims : Reads (Reader.many (readNat .Q) t.dims.length)
      (t.dims.flatMap fun d => leBytes 8 d.toNat) (t.dims.map UInt64.toNat) :=
    Reads.many fun d _ => reads_u64 d.toNat_lt
  apply hdims.bind
  apply (reads_u32 t.ggmlType.toNat_lt).bind
  exact (reads_u64 t.offset.toNat_lt).map fun relOffset =>
    (⟨t.name, t.dims.map UInt64.toNat, t.ggmlType.toNat, relOffset⟩ : RawTensor)

/-- The metadata as `load_gguf` has it. -/
def Header.dict (h : Header) : Dict String PyValue := Dict.ofPairs (h.metadata.map MetadataKV.pair)

theorem Header.version_lt (h : Header) : h.version < 2 ^ 32 := by
  rcases h.version_eq with hv | hv <;> rw [hv] <;> decide

theorem Header.countFmt_eq (h : Header) : countFmt h.version = .Q := by
  rcases h.version_eq with hv | hv <;> rw [hv] <;> rfl

theorem reads_sections (h : Header) (path : String) (hroom : h.HasRoom m) :
    Reads (readSectionsOn m path) h.serialize
      ⟨h.version, h.dict, h.tensors.map TensorDesc.raw⟩ := by
  apply (reads_exact ggufMagic).bind
  rw [if_pos rfl]
  apply (reads_u32 h.version_lt).bind
  rw [h.countFmt_eq]
  apply (reads_u64 h.tensors_lt).bind
  apply (reads_u64 h.metadata_lt).bind
  refine Reads.bind (Reads.many fun kv hkv => reads_pair kv (hroom kv hkv)) ?_
  exact (Reads.many fun t _ => reads_tensor t).map fun rawTensors =>
    (⟨h.version, h.dict, rawTensors⟩ : Sections)

theorem fails_sections (h : Header) (path : String) (hroom : ¬ h.HasRoom m) :
    Fails (readSectionsOn m path) h.serialize .depth := by
  rw [Header.HasRoom] at hroom
  push Not at hroom
  obtain ⟨kv, hkv, hno⟩ := hroom
  have hread : ∀ kv ∈ h.metadata, Reads (readPairOn m) kv.write kv.pair ∨
      Fails (readPairOn m) kv.write .depth := by
    intro kv _
    cases hroom : kv.value.hasRoom m 0 with
    | true => exact .inl (reads_pair kv hroom)
    | false => exact .inr (fails_pair kv hroom)
  have hbad := fails_pair kv (Bool.eq_false_of_not_eq_true hno)
  apply (reads_exact ggufMagic).bind_fails
  rw [if_pos rfl]
  apply (reads_u32 h.version_lt).bind_fails
  rw [h.countFmt_eq]
  apply (reads_u64 h.tensors_lt).bind_fails
  apply (reads_u64 h.metadata_lt).bind_fails
  exact (Fails.many hread ⟨kv, hkv, hbad⟩).bind _

end Header

/-- `general.alignment` of the header, or the default, where it is a number. -/
def Header.alignment (h : Header) : Option PyNumber := (alignmentValue h.dict).number?

/-- The number is above 0. -/
def PyNumber.Positive : PyNumber → Prop
  | .int n => 0 < n
  | .float x => .ofNat 0 < x

instance : (n : PyNumber) → Decidable n.Positive
  | .int n => inferInstanceAs (Decidable (0 < n))
  | .float x => inferInstanceAs (Decidable (.ofNat 0 < x))

theorem isZero_of_lt {x : Float.Model} (h : .ofNat 0 < x) : PyFloat.isZero x = false := by
  have hzero : (Float.Model.ofNat 0).unpack = .zero .positive := rfl
  have hlt : (Float.Model.ofNat 0).unpack.compare x.unpack = some .lt := by
    simpa [LT.lt, Float.Model.lt, Float.Model.UnpackedFloat.lt] using h
  change (x.unpack.compare (Float.Model.ofNat 0).unpack == some .eq) = false
  rw [hzero] at hlt ⊢
  cases hx : x.unpack with
  | infinity s => cases s <;> rfl
  | notANumber => rfl
  | zero s =>
      rw [hx] at hlt
      cases hlt
  | finite s m e hm => cases s <;> rfl

theorem PyNumber.Positive.isZero {alignment : PyNumber} (h : alignment.Positive) :
    alignment.isZero = false := by
  cases alignment with
  | int n => exact decide_eq_false h.ne'
  | float x => exact isZero_of_lt h

/-- A tensor info with the offset that `load_gguf` gives it. -/
def TensorDesc.info (tensorDataStart : PyNumber) (t : TensorDesc) : TensorInfo :=
  ⟨t.name, t.dims.map UInt64.toNat, t.ggmlType.toNat, tensorDataStart.addNat t.offset.toNat⟩

theorem loadGgufOn_eq (m : Machine) (h : Header) (path : String) (data : List UInt8)
    {alignment : PyNumber} (hroom : h.HasRoom m) (halign : h.alignment = some alignment)
    (hpos : alignment.Positive) :
    loadGgufOn m path (h.serialize ++ data) = .ok {
      path := path
      version := h.version
      metadata := h.dict
      tensors := Dict.ofPairs
        (h.tensors.map fun t => (t.name, t.info (dataStart h.serialize.length alignment)))
      tensorDataStart := dataStart h.serialize.length alignment } := by
  have hread := reads_sections h path hroom data
  have hend : (h.serialize ++ data).length - data.length = h.serialize.length := by
    rw [List.length_append, Nat.add_sub_cancel]
  rw [Header.alignment] at halign
  simp only [loadGgufOn, hread, halign, hpos.isZero, Bool.false_eq_true, if_false, hend,
    Sections.tensorsAt, List.map_map]
  rfl

/-- For a whole number the data starts at its least multiple that is not before the end of the
header. -/
theorem dataStart_isLeast (headerEnd : Nat) {n : Int} (hpos : 0 < n) :
    IsLeast {start | n ∣ start ∧ (headerEnd : Int) ≤ start}
      (((headerEnd : Int) + n - 1).fdiv n * n) := by
  rw [Int.fdiv_eq_ediv_of_nonneg _ (le_of_lt hpos)]
  generalize (headerEnd : Int) = headerEnd
  have hdiv := Int.mul_ediv_add_emod (headerEnd + n - 1) n
  have hmod := Int.emod_lt_of_pos (headerEnd + n - 1) hpos
  have hnonneg := Int.emod_nonneg (headerEnd + n - 1) (ne_of_gt hpos)
  rw [mul_comm n] at hdiv
  refine ⟨⟨Dvd.intro_left _ rfl, by omega⟩, ?_⟩
  rintro start ⟨⟨k, rfl⟩, hle⟩
  rw [mul_comm n k]
  apply Int.mul_le_mul_of_nonneg_right _ (le_of_lt hpos)
  apply Int.le_of_lt_add_one
  apply Int.ediv_lt_of_lt_mul hpos
  rw [add_mul, mul_comm k, one_mul]
  omega

/-- What `load_gguf` makes of a header. -/
structure Decoded (h : Header) (alignment : PyNumber) (file : ParsedFile) : Prop where
  version_eq : file.version = h.version
  /-- The value of a key is that of its last pair. -/
  metadata_get : ∀ key, file.metadata.get? key
    = dictGet key (h.metadata.map MetadataKV.pair).reverse
  metadata_eq : (h.metadata.map MetadataKV.key).Nodup →
    file.metadata.entries = h.metadata.map MetadataKV.pair
  /-- The end of the header, rounded up to a whole alignment. -/
  start_isLeast : ∀ n, alignment = .int n → ∃ start, file.tensorDataStart = .int start ∧
    IsLeast {start | n ∣ start ∧ (h.serialize.length : Int) ≤ start} start
  /-- The floats' arithmetic of a float alignment. -/
  start_float : ∀ x, alignment = .float x → file.tensorDataStart = .float
    (PyFloat.floorDiv (.ofNat h.serialize.length + x - .ofNat 1) x * x)
  /-- The info of a name is its last one. -/
  tensors_get : ∀ name, file.tensors.get? name
    = dictGet name (h.tensors.map fun t => (t.name, t.info file.tensorDataStart)).reverse
  tensors_eq : (h.tensors.map TensorDesc.name).Nodup →
    file.tensors.entries = h.tensors.map fun t => (t.name, t.info file.tensorDataStart)

/-- `load_gguf` of a header with any data behind it returns the metadata and the tensor infos of
the header, if there is room for its values; else the nesting ends it. -/
theorem loadGguf_decodes (m : Machine) (h : Header) (path : String) (data : List UInt8)
    {alignment : PyNumber} (halign : h.alignment = some alignment) (hpos : alignment.Positive) :
    (h.HasRoom m → ∃ file, loadGgufOn m path (h.serialize ++ data) = .ok file ∧
      Decoded h alignment file) ∧
    (¬ h.HasRoom m → loadGgufOn m path (h.serialize ++ data) = .error .depth) := by
  constructor
  · intro hroom
    refine ⟨_, loadGgufOn_eq m h path data hroom halign hpos, ?_⟩
    exact {
      version_eq := rfl
      metadata_get := fun key => Dict.get?_ofPairs _ key
      metadata_eq := by
        intro hnodup
        apply Dict.entries_ofPairs
        rw [List.map_map]
        exact hnodup
      start_isLeast := by
        rintro n rfl
        exact ⟨_, rfl, dataStart_isLeast _ hpos⟩
      start_float := by
        rintro x rfl
        rfl
      tensors_get := fun name => Dict.get?_ofPairs _ name
      tensors_eq := by
        intro hnodup
        apply Dict.entries_ofPairs
        rw [List.map_map]
        exact hnodup }
  · intro hroom
    rw [loadGgufOn, fails_sections h path hroom data]

/-- Two keys, an array of arrays and a tensor. -/
def smallHeader : Header where
  version := 3
  metadata := [
    { key := "general.alignment", value := .scalar (.uint32 16), key_lt := by decide
      value_fits := .scalar _ },
    { key := "a"
      value := .array .array [.array .int8 [.scalar (.int8 (-5))], .array .string []]
      key_lt := by decide
      value_fits := .array _ _ (by decide) (by simp [Value.type]) (by
        intro v hv
        rcases List.mem_cons.mp hv with rfl | hv
        · exact .array _ _ (by decide) (by simp [Value.type, Scalar.type])
            (by simp [Value.Fits.scalar])
        · rw [List.mem_singleton.mp hv]
          exact .array _ _ (by decide) (by simp) (by simp)) }]
  tensors := [
    { name := "t", dims := [2, 0], ggmlType := 8, offset := 48, name_lt := by decide
      dims_lt := by decide }]
  version_eq := Or.inr rfl
  metadata_lt := by decide
  tensors_lt := by decide

theorem smallHeader_decoded :
    ((smallHeader.HasRoom roomyMachine →
        ∃ file, loadGgufOn roomyMachine "m.gguf" (smallHeader.serialize ++ [1, 2, 3]) = .ok file ∧
          Decoded smallHeader (.int 16) file) ∧
      (¬ smallHeader.HasRoom roomyMachine →
        loadGgufOn roomyMachine "m.gguf" (smallHeader.serialize ++ [1, 2, 3]) = .error .depth)) ∧
      smallHeader.HasRoom roomyMachine :=
  ⟨loadGguf_decodes roomyMachine smallHeader "m.gguf" [1, 2, 3] rfl (by decide), by decide⟩

/-- A header with these pairs and no tensors. -/
def metadataOnly (metadata : List MetadataKV) (hlen : metadata.length < 2 ^ 64) : Header where
  version := 2
  metadata := metadata
  tensors := []
  version_eq := Or.inl rfl
  metadata_lt := hlen
  tensors_lt := by decide

/-- One key with two values. -/
def repeatedKey : Header :=
  metadataOnly [
    { key := "a", value := .scalar (.uint8 1), key_lt := by decide, value_fits := .scalar _ },
    { key := "a", value := .scalar (.uint8 2), key_lt := by decide, value_fits := .scalar _ }]
    (by decide)

/-- An alignment of 0.5. -/
def halfAlignment : Header :=
  metadataOnly [
    { key := "general.alignment", value := .scalar (.float32 0x3f000000), key_lt := by decide
      value_fits := .scalar _ }] (by decide)

/-- So many arrays inside each other. -/
def nested : Nat → Value
  | 0 => .array .array []
  | n + 1 => .array .array [nested n]

theorem nested_type (n : Nat) : (nested n).type = .array := by cases n <;> rfl

theorem nested_fits (n : Nat) : (nested n).Fits := by
  induction n with
  | zero => exact .array _ _ (by decide) (by simp) (by simp)
  | succ n ih => exact .array _ _ (by simp) (by simp [nested_type]) (by simpa using ih)

theorem hasRoom_nested {m : Machine} {n : Nat} : ∀ {inside : Nat},
    (nested n).hasRoom m inside = true → inside + n < m.levels := by
  induction n with
  | zero => exact fun h => (Value.hasRoom_enter h).1
  | succ n ih =>
      intro inside h
      simp only [nested, Value.hasRoom, allHaveRoom, Bool.and_true, Bool.and_eq_true] at h
      have := ih h.2
      omega

def nestedHeader (n : Nat) : Header :=
  metadataOnly [{ key := "a", value := nested n, key_lt := by decide, value_fits := nested_fits n }]
    (by simp)

/-- **Not every header is read as it is written.** Of two pairs with one key the first is lost;
    an alignment of 0.5 puts the data before the header's end, at 56.5; and every machine has a
    header whose nesting ends the reader. -/
theorem repeatedKey_lost :
    (∃ file, loadGgufOn roomyMachine "m.gguf" repeatedKey.serialize = .ok file ∧
      file.metadata.entries = [("a", .int 2)]) ∧
    (∃ file start, loadGgufOn roomyMachine "m.gguf" halfAlignment.serialize = .ok file ∧
      file.tensorDataStart = .float start ∧ PyFloat.toRat? start = some (113 / 2) ∧
      halfAlignment.serialize.length = 57) ∧
    ∀ m : Machine, loadGgufOn m "m.gguf" (nestedHeader m.levels).serialize = .error .depth := by
  refine ⟨?_, ?_, ?_⟩
  · have hload := loadGgufOn_eq roomyMachine repeatedKey "m.gguf" [] (by decide) rfl (by decide)
    rw [List.append_nil] at hload
    exact ⟨_, hload, rfl⟩
  · have hload := loadGgufOn_eq roomyMachine halfAlignment "m.gguf" [] (by decide) rfl
      (by decide +kernel)
    rw [List.append_nil] at hload
    exact ⟨_, _, hload, rfl, by decide +kernel, by decide +kernel⟩
  · intro m
    have hroom : ¬ (nestedHeader m.levels).HasRoom m := by
      intro hroom
      have hlt := hasRoom_nested (hroom _ List.mem_cons_self)
      omega
    have hfails := fails_sections (nestedHeader m.levels) "m.gguf" hroom []
    rw [List.append_nil] at hfails
    rw [loadGgufOn, hfails]

end FreeToken.GGUF
