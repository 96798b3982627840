import FreeToken.Models.GGUF.Hostile

/-!
# Where `load_gguf` raises what is no `GGUFFormatError`

Each reader succeeds exactly on the phrases of its production, and ends in a foreign error
exactly on the lists that break it. So `load_gguf` is total in the sense of its docstring
exactly on the files that are not hostile.
-/

namespace FreeToken.GGUF

open Reader (Parses Breaks Phrases)

variable {m : Machine}

/-- An error that is no `GGUFFormatError`. -/
def Machine.Foreign (m : Machine) (e : LoadError) : Prop := m.isFormatError e = false

theorem parses_exact (n : Nat) :
    Parses (readExact n) fun phrase bytes => phrase.length = n ∧ phrase = bytes :=
  Parses.take _ n

theorem breaks_exact (n : Nat) :
    Breaks m.Foreign (readExact n) fun xs => xs.length < n ∧ m.memory < n := by
  apply (Reader.breaks_take _ n).congr
  intro xs
  simp [Machine.Foreign, Machine.isFormatError]

/-- The file's end inside a field of fixed width is a `GGUFFormatError`. -/
theorem breaks_field {n : Nat} (hn : n ≤ 8) : Breaks m.Foreign (readExact n) fun _ => False := by
  apply (breaks_exact n).congr
  intro xs
  have hmem := m.memory_ge
  constructor
  · rintro ⟨-, hlt⟩
    omega
  · rintro ⟨⟩

theorem Fmt.size_le (fmt : Fmt) : fmt.size ≤ 8 := by cases fmt <;> decide

theorem parses_nat (fmt : Fmt) : Parses (readNat fmt) (FieldPhrase fmt) := by
  apply ((parses_exact fmt.size).map ofLeBytes).congr
  intro phrase n
  constructor
  · rintro ⟨bytes, ⟨hlen, rfl⟩, rfl⟩
    exact ⟨hlen, rfl⟩
  · rintro ⟨hlen, rfl⟩
    exact ⟨phrase, ⟨hlen, rfl⟩, rfl⟩

theorem breaks_nat (fmt : Fmt) : Breaks m.Foreign (readNat fmt) fun _ => False :=
  (breaks_field fmt.size_le).map ofLeBytes

/-! ### Strings -/

theorem fromUTF8?_eq_some {bytes : List UInt8} {s : String} :
    String.fromUTF8? ⟨bytes.toArray⟩ = some s ↔ bytes = s.toUTF8.data.toList := by
  rw [String.fromUTF8?]
  constructor
  · intro h
    split at h
    · cases h
      rfl
    · cases h
  · rintro rfl
    rw [Array.toArray_toList]
    exact dif_pos s.isValidUTF8

theorem parses_decode (bytes : List UInt8) :
    Parses (decodeUtf8 bytes) fun phrase s => phrase = [] ∧ bytes = s.toUTF8.data.toList := by
  cases hs : String.fromUTF8? ⟨bytes.toArray⟩ with
  | none =>
      rw [decodeUtf8, hs]
      apply (Parses.fail _).congr
      intro phrase s
      refine ⟨False.elim, fun h => ?_⟩
      rw [fromUTF8?_eq_some.2 h.2] at hs
      cases hs
  | some s =>
      rw [decodeUtf8, hs]
      apply (Parses.pure s).congr
      intro phrase t
      rw [← fromUTF8?_eq_some, hs, Option.some.injEq]

theorem breaks_decode (bytes : List UInt8) :
    Breaks m.Foreign (decodeUtf8 bytes) fun _ => ∀ s : String, s.toUTF8.data.toList ≠ bytes := by
  cases hs : String.fromUTF8? ⟨bytes.toArray⟩ with
  | none =>
      rw [decodeUtf8, hs]
      apply (Reader.breaks_fail _).congr
      intro xs
      refine ⟨fun _ s h => ?_, fun _ => rfl⟩
      rw [fromUTF8?_eq_some.2 h.symm] at hs
      cases hs
  | some s =>
      rw [decodeUtf8, hs]
      apply (Reader.breaks_pure s).congr
      exact fun xs => ⟨False.elim, fun h => h s (fromUTF8?_eq_some.1 hs).symm⟩

theorem parses_string : Parses readGgufString StringPhrase := by
  apply ((parses_nat .Q).bind fun n => (parses_exact n).bind parses_decode).congr
  intro phrase s
  constructor
  · rintro ⟨n, field, rest, rfl, hfield, body, u, v, rfl, ⟨rfl, rfl⟩, rfl, hbody⟩
    exact ⟨field, u, by rw [List.append_nil], hfield, hbody⟩
  · rintro ⟨field, body, rfl, hfield, hbody⟩
    exact ⟨body.length, field, body, rfl, hfield, body, body, [], (List.append_nil _).symm,
      ⟨rfl, rfl⟩, rfl, hbody⟩

theorem breaks_string : Breaks m.Foreign readGgufString (StringBreak m) := by
  apply ((breaks_nat .Q).after (parses_nat .Q) fun n =>
    (breaks_exact n).bind (parses_exact n) breaks_decode).congr
  intro xs
  constructor
  · rintro ⟨n, field, mid, rfl, hfield, ⟨hlen, hmem⟩ | ⟨body, u, rest, rfl, ⟨rfl, rfl⟩, hbody⟩⟩
    · exact ⟨field, mid, n, rfl, hfield, .inr ⟨hlen, hmem⟩⟩
    · refine ⟨field, u ++ rest, u.length, rfl, hfield, .inl ⟨?_, ?_⟩⟩
      · rw [List.length_append]
        exact Nat.le_add_right _ _
      · rwa [List.take_left]
  · rintro ⟨field, mid, n, rfl, hfield, ⟨hlen, hbody⟩ | hlong⟩
    · refine ⟨n, field, mid, rfl, hfield, .inr ⟨mid.take n, mid.take n, mid.drop n,
        (List.take_append_drop n mid).symm, ⟨?_, rfl⟩, hbody⟩⟩
      rw [List.length_take]
      exact Nat.min_eq_left hlen
    · exact ⟨n, field, mid, rfl, hfield, .inl hlong⟩

/-! ### Values -/

theorem parses_scalar (valueType : Nat) :
    Parses (readScalar valueType) (ScalarPhrase valueType) := by
  cases hfmt : scalarFmt valueType with
  | none =>
      rw [readScalar, hfmt]
      apply (Parses.fail _).congr
      rintro phrase value
      refine ⟨False.elim, ?_⟩
      rintro ⟨fmt, hsome, -⟩
      rw [hfmt] at hsome
      cases hsome
  | some fmt =>
      rw [readScalar, hfmt]
      apply (((parses_exact fmt.size).map fmt.unpack).map _).congr
      rintro phrase value
      constructor
      · rintro ⟨_, ⟨bytes, ⟨hlen, rfl⟩, rfl⟩, hvalue⟩
        exact ⟨fmt, hfmt, hlen, hvalue⟩
      · rintro ⟨fmt', hsome, hlen, hvalue⟩
        rw [hfmt, Option.some.injEq] at hsome
        subst hsome
        exact ⟨_, ⟨phrase, ⟨hlen, rfl⟩, rfl⟩, hvalue⟩

theorem breaks_scalar (valueType : Nat) :
    Breaks m.Foreign (readScalar valueType) fun _ => False := by
  cases hfmt : scalarFmt valueType with
  | none =>
      rw [readScalar, hfmt]
      apply (Reader.breaks_fail _).congr
      exact fun xs => ⟨fun h => Bool.noConfusion h, False.elim⟩
  | some fmt =>
      rw [readScalar, hfmt]
      exact ((breaks_field fmt.size_le).map fmt.unpack).map _

theorem parses_arrayHead {γ : Type} {f : Nat → Nat → R γ} {S : Nat → Nat → List UInt8 → γ → Prop}
    (hf : ∀ elementType length, Parses (f elementType length) (S elementType length)) :
    Parses (readNat .I >>= fun elementType => readNat .Q >>= fun length => f elementType length)
      fun phrase c => ∃ head body elementType length, phrase = head ++ body ∧
        ArrayHead head elementType length ∧ S elementType length body c := by
  apply ((parses_nat .I).bind fun elementType => (parses_nat .Q).bind (hf elementType)).congr
  intro phrase c
  constructor
  · rintro ⟨elementType, u, rest, rfl, hu, length, v, body, rfl, hv, hbody⟩
    exact ⟨u ++ v, body, elementType, length, (List.append_assoc _ _ _).symm,
      ⟨u, v, rfl, hu, hv⟩, hbody⟩
  · rintro ⟨_, body, elementType, length, rfl, ⟨u, v, rfl, hu, hv⟩, hbody⟩
    exact ⟨elementType, u, v ++ body, List.append_assoc _ _ _, hu, length, v, body, rfl, hv,
      hbody⟩

/-- **A value** is read exactly where a phrase of its type stands that the machine has room
    for. -/
theorem parses_value (left valueType : Nat) :
    Parses (readGgufValueOn m left valueType) (ValuePhrase m left valueType) := by
  induction left generalizing valueType with
  | zero =>
      apply (Parses.fail _).congr
      exact fun phrase value => Iff.rfl
  | succ left ih =>
      rw [readGgufValueOn]
      by_cases hroom : m.room (m.levels - (left + 1)) valueType = true
      · rw [if_pos hroom]
        by_cases hstring : valueType = ValueType.string.code
        · rw [if_pos hstring]
          apply (parses_string.map PyValue.str).congr
          intro phrase value
          rw [ValuePhrase, if_pos hstring]
          exact (and_iff_right hroom).symm
        rw [if_neg hstring]
        by_cases harray : valueType = ValueType.array.code
        · rw [if_pos harray]
          apply (parses_arrayHead fun elementType length =>
            ((ih elementType).many length).map PyValue.list).congr
          intro phrase value
          rw [ValuePhrase, if_neg hstring, if_pos harray, and_iff_right hroom]
          constructor
          · rintro ⟨head, body, elementType, _, rfl, hhead, elements, ⟨rfl, hall⟩, hvalue⟩
            exact ⟨head, body, elementType, elements, rfl, hhead, hall, hvalue⟩
          · rintro ⟨head, body, elementType, elements, rfl, hhead, hall, hvalue⟩
            exact ⟨head, body, elementType, _, rfl, hhead, elements, ⟨rfl, hall⟩, hvalue⟩
        · rw [if_neg harray]
          apply (parses_scalar valueType).congr
          intro phrase value
          rw [ValuePhrase, if_neg hstring, if_neg harray]
          exact (and_iff_right hroom).symm
      · rw [if_neg hroom]
        apply (Parses.fail _).congr
        intro phrase value
        refine ⟨False.elim, fun h => ?_⟩
        rw [ValuePhrase] at h
        exact hroom h.1

theorem breaks_value (left valueType : Nat) :
    Breaks m.Foreign (readGgufValueOn m left valueType) (ValueBreak m left valueType) := by
  induction left generalizing valueType with
  | zero =>
      apply (Reader.breaks_fail _).congr
      exact fun xs => ⟨fun _ => trivial, fun _ => rfl⟩
  | succ left ih =>
      rw [readGgufValueOn]
      by_cases hroom : m.room (m.levels - (left + 1)) valueType = true
      · have hno : m.room (m.levels - (left + 1)) valueType ≠ false := by
          rw [hroom]
          exact Bool.noConfusion
        rw [if_pos hroom]
        by_cases hstring : valueType = ValueType.string.code
        · rw [if_pos hstring]
          apply (breaks_string.map PyValue.str).congr
          intro xs
          rw [ValueBreak, if_pos hstring]
          exact (or_iff_right hno).symm
        rw [if_neg hstring]
        by_cases harray : valueType = ValueType.array.code
        · rw [if_pos harray]
          apply ((breaks_nat .I).after (parses_nat .I) fun elementType =>
            (breaks_nat .Q).after (parses_nat .Q) fun length =>
              ((ih elementType).many (parses_value left elementType) length).map _).congr
          intro xs
          rw [ValueBreak, if_neg hstring, if_pos harray, or_iff_right hno]
          constructor
          · rintro ⟨elementType, u, _, rfl, hu, length, v, _, rfl, hv, elements, body, mid, rfl,
              hlen, hall, hbreak⟩
            exact ⟨u ++ v, body, mid, elementType, length, elements,
              (List.append_assoc _ _ _).symm, ⟨u, v, rfl, hu, hv⟩, hlen, hall, hbreak⟩
          · rintro ⟨_, body, mid, elementType, length, elements, rfl, ⟨u, v, rfl, hu, hv⟩, hlen,
              hall, hbreak⟩
            exact ⟨elementType, u, _, List.append_assoc _ _ _, hu, length, v, _, rfl, hv,
              elements, body, mid, rfl, hlen, hall, hbreak⟩
        · rw [if_neg harray]
          apply (breaks_scalar valueType).congr
          intro xs
          rw [ValueBreak, if_neg hstring, if_neg harray, or_iff_right hno]
      · rw [if_neg hroom]
        apply (Reader.breaks_fail _).congr
        intro xs
        rw [ValueBreak]
        exact ⟨fun _ => .inl (Bool.not_eq_true _ ▸ hroom), fun _ => rfl⟩

/-! ### The sections -/

theorem parses_pair : Parses (readPairOn m) (PairPhrase m) := by
  apply (parses_string.bind fun key => (parses_nat .I).bind fun valueType =>
    (parses_value m.levels valueType).map fun value => (key, value)).congr
  rintro phrase ⟨key, value⟩
  constructor
  · rintro ⟨_, u, _, rfl, hu, valueType, v, w, rfl, hv, _, hw, hpair⟩
    cases hpair
    exact ⟨u, v, w, valueType, rfl, hu, hv, hw⟩
  · rintro ⟨u, v, w, valueType, rfl, hu, hv, hw⟩
    exact ⟨key, u, _, rfl, hu, valueType, v, w, rfl, hv, value, hw, rfl⟩

theorem breaks_pair : Breaks m.Foreign (readPairOn m) (PairBreak m) := by
  apply (breaks_string.bind parses_string fun key => (breaks_nat .I).after (parses_nat .I)
    fun valueType => (breaks_value m.levels valueType).map _).congr
  intro xs
  apply or_congr Iff.rfl
  constructor
  · rintro ⟨key, u, _, rfl, hu, valueType, v, mid, rfl, hv, hbreak⟩
    exact ⟨u, v, mid, key, valueType, rfl, hu, hv, hbreak⟩
  · rintro ⟨u, v, mid, key, valueType, rfl, hu, hv, hbreak⟩
    exact ⟨key, u, _, rfl, hu, valueType, v, mid, rfl, hv, hbreak⟩

theorem parses_tensor : Parses readTensor TensorPhrase := by
  apply (parses_string.bind fun name => (parses_nat .I).bind fun nDims =>
    ((parses_nat .Q).many nDims).bind fun shape => (parses_nat .I).bind fun ggmlType =>
      (parses_nat .Q).map fun relOffset => RawTensor.mk name shape ggmlType relOffset).congr
  intro phrase t
  constructor
  · rintro ⟨_, name, _, rfl, hname, _, nDims, _, rfl, hdims, _, dims, _, rfl, ⟨rfl, hshape⟩,
      _, type, off, rfl, htype, _, hoff, rfl⟩
    exact ⟨name, nDims, dims, type, off, rfl, hname, hdims, hshape, htype, hoff⟩
  · rintro ⟨name, nDims, dims, type, off, rfl, hname, hdims, hshape, htype, hoff⟩
    exact ⟨t.name, name, _, rfl, hname, _, nDims, _, rfl, hdims, t.shape, dims, _, rfl,
      ⟨rfl, hshape⟩, t.ggmlType, type, off, rfl, htype, t.relOffset, hoff, rfl⟩

theorem breaks_tensor : Breaks m.Foreign readTensor (StringBreak m) := by
  have hdims : ∀ nDims, Breaks m.Foreign (Reader.many (readNat .Q) nDims) fun _ => False := by
    intro nDims
    apply ((breaks_nat .Q).many (parses_nat .Q) nDims).congr
    intro xs
    constructor
    · rintro ⟨_, _, _, _, _, _, ⟨⟩⟩
    · rintro ⟨⟩
  apply (breaks_string.bind parses_string fun name => (breaks_nat .I).after (parses_nat .I)
    fun nDims => (hdims nDims).after ((parses_nat .Q).many nDims) fun shape =>
      (breaks_nat .I).after (parses_nat .I) fun ggmlType => (breaks_nat .Q).map _).congr
  intro xs
  constructor
  · rintro (hbreak | ⟨_, _, _, -, -, _, _, _, -, -, _, _, _, -, -, _, _, _, -, -, ⟨⟩⟩)
    exact hbreak
  · exact .inl

/-- The counted part of `readSectionsOn`. -/
def readBody (m : Machine) (version tensorCount kvCount : Nat) : R Sections :=
  Reader.many (readPairOn m) kvCount >>= fun pairs =>
    Reader.many readTensor tensorCount >>= fun rawTensors =>
      pure ⟨version, Dict.ofPairs pairs, rawTensors⟩

theorem parses_head {γ : Type} {path : String} {f : Nat → Nat → Nat → R γ}
    {S : Nat → Nat → Nat → List UInt8 → γ → Prop}
    (hf : ∀ version tensorCount kvCount,
      Parses (f version tensorCount kvCount) (S version tensorCount kvCount)) :
    Parses (readExact 4 >>= fun magic =>
        if magic = ggufMagic then
          readNat .I >>= fun version => readNat (countFmt version) >>= fun tensorCount =>
            readNat (countFmt version) >>= fun kvCount => f version tensorCount kvCount
        else Reader.fail (.badMagic magic path))
      fun phrase c => ∃ head body version tensorCount kvCount, phrase = head ++ body ∧
        HeadPhrase head version tensorCount kvCount ∧ S version tensorCount kvCount body c := by
  have hrest := (parses_nat .I).bind fun version => (parses_nat (countFmt version)).bind
    fun tensorCount => (parses_nat (countFmt version)).bind fun kvCount =>
      hf version tensorCount kvCount
  intro xs c rest
  rw [Reader.bind_eq_ok]
  constructor
  · rintro ⟨magic, mid, hmagic, hmid⟩
    obtain ⟨_, rfl, hlen, rfl⟩ := (parses_exact 4 _ _ _).mp hmagic
    split at hmid
    · next heq =>
        subst heq
        obtain ⟨_, rfl, version, u, _, rfl, hu, tensorCount, v, _, rfl, hv, kvCount, w, body, rfl,
          hw, hbody⟩ := (hrest _ _ _).mp hmid
        exact ⟨ggufMagic ++ (u ++ (v ++ w)) ++ body, by simp only [List.append_assoc],
          ggufMagic ++ (u ++ (v ++ w)), body, version, tensorCount, kvCount, rfl,
          ⟨u, v, w, rfl, hu, hv, hw⟩, hbody⟩
    · cases hmid
  · rintro ⟨_, rfl, _, body, version, tensorCount, kvCount, rfl, ⟨u, v, w, rfl, hu, hv, hw⟩,
      hbody⟩
    refine ⟨ggufMagic, u ++ (v ++ (w ++ (body ++ rest))), ?_, ?_⟩
    · apply (parses_exact 4 _ _ _).mpr
      exact ⟨ggufMagic, by simp only [List.append_assoc], rfl, rfl⟩
    · rw [if_pos rfl]
      apply (hrest _ _ _).mpr
      exact ⟨u ++ (v ++ (w ++ body)), by simp only [List.append_assoc], version, u, _, rfl, hu,
        tensorCount, v, _, rfl, hv, kvCount, w, body, rfl, hw, hbody⟩

theorem breaks_head {γ : Type} {path : String} {f : Nat → Nat → Nat → R γ}
    {C : Nat → Nat → Nat → List UInt8 → Prop}
    (hf : ∀ version tensorCount kvCount,
      Breaks m.Foreign (f version tensorCount kvCount) (C version tensorCount kvCount)) :
    Breaks m.Foreign (readExact 4 >>= fun magic =>
        if magic = ggufMagic then
          readNat .I >>= fun version => readNat (countFmt version) >>= fun tensorCount =>
            readNat (countFmt version) >>= fun kvCount => f version tensorCount kvCount
        else Reader.fail (.badMagic magic path))
      fun xs => ∃ head mid version tensorCount kvCount, xs = head ++ mid ∧
        HeadPhrase head version tensorCount kvCount ∧ C version tensorCount kvCount mid := by
  have hrest := (breaks_nat (m := m) .I).after (parses_nat .I) fun version =>
    (breaks_nat (countFmt version)).after (parses_nat (countFmt version)) fun tensorCount =>
      (breaks_nat (countFmt version)).after (parses_nat (countFmt version)) fun kvCount =>
        hf version tensorCount kvCount
  have hmagic : ∀ magic, Breaks m.Foreign
      (if magic = ggufMagic then
          readNat .I >>= fun version => readNat (countFmt version) >>= fun tensorCount =>
            readNat (countFmt version) >>= fun kvCount => f version tensorCount kvCount
        else Reader.fail (.badMagic magic path) : R γ)
      fun mid => magic = ggufMagic ∧ ∃ version u rest, mid = u ++ rest ∧
        FieldPhrase .I u version ∧ ∃ tensorCount v rest', rest = v ++ rest' ∧
          FieldPhrase (countFmt version) v tensorCount ∧ ∃ kvCount w rest'', rest' = w ++ rest'' ∧
            FieldPhrase (countFmt version) w kvCount ∧ C version tensorCount kvCount rest'' := by
    intro magic
    by_cases heq : magic = ggufMagic
    · rw [if_pos heq]
      exact hrest.congr fun xs => (and_iff_right heq).symm
    · rw [if_neg heq]
      apply (Reader.breaks_fail _).congr
      exact fun xs => ⟨fun h => Bool.noConfusion h, fun h => absurd h.1 heq⟩
  apply ((breaks_field (by decide)).after (parses_exact 4) hmagic).congr
  intro xs
  constructor
  · rintro ⟨_, _, _, rfl, ⟨hlen, rfl⟩, rfl, version, u, _, rfl, hu, tensorCount, v, _, rfl, hv,
      kvCount, w, mid, rfl, hw, hC⟩
    exact ⟨ggufMagic ++ (u ++ (v ++ w)), mid, version, tensorCount, kvCount,
      by simp only [List.append_assoc], ⟨u, v, w, rfl, hu, hv, hw⟩, hC⟩
  · rintro ⟨_, mid, version, tensorCount, kvCount, rfl, ⟨u, v, w, rfl, hu, hv, hw⟩, hC⟩
    exact ⟨ggufMagic, ggufMagic, u ++ (v ++ (w ++ mid)), by simp only [List.append_assoc],
      ⟨rfl, rfl⟩, rfl, version, u, _, rfl, hu, tensorCount, v, _, rfl, hv, kvCount, w, mid, rfl,
      hw, hC⟩

theorem parses_sections (path : String) :
    Parses (readSectionsOn m path) (SectionsPhrase m) := by
  have hbody : ∀ version tensorCount kvCount, Parses (readBody m version tensorCount kvCount)
      _ := fun version tensorCount kvCount => (parses_pair.many kvCount).bind fun pairs =>
        (parses_tensor.many tensorCount).map fun rawTensors =>
          Sections.mk version (Dict.ofPairs pairs) rawTensors
  apply (parses_head hbody).congr
  intro phrase sections
  constructor
  · rintro ⟨head, _, version, _, _, rfl, hhead, pairs, kv, infos, rfl, ⟨rfl, hkv⟩, tensors,
      ⟨rfl, hinfos⟩, rfl⟩
    exact ⟨head, kv, infos, pairs, rfl, hhead, hkv, hinfos, rfl⟩
  · rintro ⟨head, kv, infos, pairs, rfl, hhead, hkv, hinfos, hmeta⟩
    refine ⟨head, _, _, _, _, rfl, hhead, pairs, kv, infos, rfl, ⟨rfl, hkv⟩,
      sections.rawTensors, ⟨rfl, hinfos⟩, ?_⟩
    rw [hmeta]

theorem breaks_sections (path : String) :
    Breaks m.Foreign (readSectionsOn m path) (SectionsBreak m) := by
  have hbody : ∀ version tensorCount kvCount, Breaks m.Foreign
      (readBody m version tensorCount kvCount) _ := fun version tensorCount kvCount =>
    (breaks_pair.many parses_pair kvCount).bind (parses_pair.many kvCount) fun pairs =>
      (breaks_tensor.many parses_tensor tensorCount).map fun rawTensors =>
        Sections.mk version (Dict.ofPairs pairs) rawTensors
  apply (breaks_head hbody).congr
  intro xs
  constructor
  · rintro ⟨head, mid, version, tensorCount, kvCount, rfl, hhead, hbreak⟩
    refine ⟨head, mid, version, tensorCount, kvCount, rfl, hhead, hbreak.imp ?_ ?_⟩
    · rintro ⟨pairs, u, rest, rfl, hlen, hall, hbreak⟩
      exact ⟨pairs, u, rest, rfl, hlen, hall, hbreak⟩
    · rintro ⟨pairs, kv, _, rfl, ⟨hlen, hkv⟩, tensors, u, rest, rfl, hlt, hall, hbreak⟩
      exact ⟨pairs, kv, tensors, u, rest, rfl, hlen, hkv, hlt, hall, hbreak⟩
  · rintro ⟨head, mid, version, tensorCount, kvCount, rfl, hhead, hbreak⟩
    refine ⟨head, mid, version, tensorCount, kvCount, rfl, hhead, hbreak.imp ?_ ?_⟩
    · rintro ⟨pairs, u, rest, rfl, hlen, hall, hbreak⟩
      exact ⟨pairs, u, rest, rfl, hlen, hall, hbreak⟩
    · rintro ⟨pairs, kv, tensors, u, rest, rfl, hlen, hkv, hlt, hall, hbreak⟩
      exact ⟨pairs, kv, _, rfl, ⟨hlen, hkv⟩, tensors, u, rest, rfl, hlt, hall, hbreak⟩

/-! ### The whole reader -/

/-- `load_gguf` returns tensors that all start inside the file, or raises `GGUFFormatError`. -/
def Total (m : Machine) (path : String) (file : List UInt8) : Prop :=
  match loadGgufOn m path file with
  | .error e => m.isFormatError e = true
  | .ok f => ∀ name t, f.tensors.get? name = some t → t.offset.StartsIn file.length

/-- The kinds of files on which the reader does something else. -/
inductive Hostile (m : Machine) (file : List UInt8) : Prop
  /-- A string in the pairs or the tensor infos is not UTF-8 or too long for `read`, or arrays
  are nested too deep. -/
  | broken (h : SectionsBreak m file)
  /-- The alignment is a string or a list. -/
  | notNumber (phrase rest : List UInt8) (sections : Sections) (hfile : file = phrase ++ rest)
      (hsections : SectionsPhrase m phrase sections)
      (hnumber : (alignmentValue sections.metadata).number? = none)
  /-- The alignment is 0. -/
  | zero (phrase rest : List UInt8) (sections : Sections) (hfile : file = phrase ++ rest)
      (hsections : SectionsPhrase m phrase sections) (alignment : PyNumber)
      (hnumber : (alignmentValue sections.metadata).number? = some alignment)
      (hzero : alignment.isZero = true)
  /-- The last info of some name puts its tensor outside the file. -/
  | outside (phrase rest : List UInt8) (sections : Sections) (hfile : file = phrase ++ rest)
      (hsections : SectionsPhrase m phrase sections) (alignment : PyNumber)
      (hnumber : (alignmentValue sections.metadata).number? = some alignment)
      (hzero : alignment.isZero = false) (before : List RawTensor) (t : RawTensor)
      (after : List RawTensor) (htensors : sections.rawTensors = before ++ t :: after)
      (hlast : ∀ t' ∈ after, t'.name ≠ t.name)
      (hout : ¬ ((dataStart phrase.length alignment).addNat t.relOffset).StartsIn file.length)

theorem readSectionsOn_eq {phrase rest : List UInt8} {sections : Sections}
    (h : SectionsPhrase m phrase sections) (path : String) :
    readSectionsOn m path (phrase ++ rest) = .ok (sections, rest) :=
  (parses_sections path _ _ _).mpr ⟨phrase, rfl, h⟩

/-- A file has one division into sections and rest. -/
theorem sectionsPhrase_unique {phrase phrase' rest rest' : List UInt8}
    {sections sections' : Sections} (h : SectionsPhrase m phrase sections)
    (h' : SectionsPhrase m phrase' sections') (heq : phrase ++ rest = phrase' ++ rest') :
    phrase = phrase' ∧ sections = sections' := by
  have hread : readSectionsOn m "" (phrase ++ rest) = .ok (sections, rest) :=
    readSectionsOn_eq h ""
  rw [heq, readSectionsOn_eq h', Except.ok.injEq, Prod.mk.injEq] at hread
  obtain ⟨rfl, rfl⟩ := hread
  exact ⟨List.append_cancel_right heq, rfl⟩

theorem get?_tensorsAt {sections : Sections} {start : PyNumber} {name : String}
    {info : TensorInfo} : (sections.tensorsAt start).get? name = some info ↔
      ∃ before t after, sections.rawTensors = before ++ t :: after ∧
        (∀ t' ∈ after, t'.name ≠ t.name) ∧ t.name = name ∧ t.resolveAt start = info := by
  rw [Sections.tensorsAt, Dict.get?_ofPairs_eq_some_iff]
  constructor
  · rintro ⟨before, after, heq, hlast⟩
    obtain ⟨before, rest, htensors, rfl, hrest⟩ := List.map_eq_append_iff.mp heq
    obtain ⟨t, after, rfl, ht, rfl⟩ := List.map_eq_cons_iff.mp hrest
    cases ht
    refine ⟨before, t, after, htensors, fun t' ht' => ?_, rfl, rfl⟩
    exact hlast _ (List.mem_map_of_mem ht')
  · rintro ⟨before, t, after, htensors, hlast, rfl, rfl⟩
    refine ⟨before.map _, after.map _, by rw [htensors, List.map_append, List.map_cons], ?_⟩
    intro p hp
    obtain ⟨t', ht', rfl⟩ := List.mem_map.mp hp
    exact hlast t' ht'

/-- What makes a file of well-formed sections hostile. -/
theorem hostile_iff {phrase rest : List UInt8} {sections : Sections}
    (hsections : SectionsPhrase m phrase sections) (hbroken : ¬ SectionsBreak m (phrase ++ rest)) :
    Hostile m (phrase ++ rest) ↔ (alignmentValue sections.metadata).number? = none ∨
      ∃ alignment, (alignmentValue sections.metadata).number? = some alignment ∧
        (alignment.isZero = true ∨ alignment.isZero = false ∧
          ∃ before t after, sections.rawTensors = before ++ t :: after ∧
            (∀ t' ∈ after, t'.name ≠ t.name) ∧
            ¬ ((dataStart phrase.length alignment).addNat t.relOffset).StartsIn
              (phrase ++ rest).length) := by
  constructor
  · intro h
    cases h with
    | broken h => exact absurd h hbroken
    | notNumber phrase' rest' sections' hfile hsections' hnumber =>
        obtain ⟨rfl, rfl⟩ := sectionsPhrase_unique hsections hsections' hfile
        exact .inl hnumber
    | zero phrase' rest' sections' hfile hsections' alignment hnumber hzero =>
        obtain ⟨rfl, rfl⟩ := sectionsPhrase_unique hsections hsections' hfile
        exact .inr ⟨alignment, hnumber, .inl hzero⟩
    | outside phrase' rest' sections' hfile hsections' alignment hnumber hzero before t after
        htensors hlast hout =>
        obtain ⟨rfl, rfl⟩ := sectionsPhrase_unique hsections hsections' hfile
        exact .inr ⟨alignment, hnumber, .inr ⟨hzero, before, t, after, htensors, hlast, hout⟩⟩
  · rintro (hnumber | ⟨alignment, hnumber, hzero | ⟨hzero, before, t, after, htensors, hlast,
      hout⟩⟩)
    · exact .notNumber phrase rest sections rfl hsections hnumber
    · exact .zero phrase rest sections rfl hsections alignment hnumber hzero
    · exact .outside phrase rest sections rfl hsections alignment hnumber hzero before t after
        htensors hlast hout

/-- **`load_gguf` is total exactly on the files that are not hostile.** -/
theorem loadGguf_total_iff (m : Machine) (path : String) (file : List UInt8) :
    Total m path file ↔ ¬ Hostile m file := by
  cases hread : readSectionsOn m path file with
  | error e =>
      have hno : ∀ phrase rest sections, file = phrase ++ rest →
          ¬ SectionsPhrase m phrase sections := by
        rintro phrase rest sections rfl hsections
        rw [readSectionsOn_eq hsections] at hread
        cases hread
      simp only [Total, loadGgufOn, hread]
      constructor
      · intro hformat hhostile
        cases hhostile with
        | broken h =>
            obtain ⟨e', herr, hforeign⟩ := (breaks_sections path file).mpr h
            rw [hread, Except.error.injEq] at herr
            rw [herr, hforeign] at hformat
            cases hformat
        | notNumber phrase rest sections hfile hsections => exact hno _ _ _ hfile hsections
        | zero phrase rest sections hfile hsections => exact hno _ _ _ hfile hsections
        | outside phrase rest sections hfile hsections => exact hno _ _ _ hfile hsections
      · intro hgood
        by_contra hforeign
        apply hgood
        apply Hostile.broken
        exact (breaks_sections path file).mp ⟨e, hread, Bool.eq_false_of_not_eq_true hforeign⟩
  | ok r =>
      obtain ⟨sections, rest⟩ := r
      obtain ⟨phrase, rfl, hsections⟩ := (parses_sections path _ _ _).mp hread
      have hend : (phrase ++ rest).length - rest.length = phrase.length := by
        rw [List.length_append, Nat.add_sub_cancel]
      have hbroken : ¬ SectionsBreak m (phrase ++ rest) := by
        intro h
        obtain ⟨e, herr, -⟩ := (breaks_sections path _).mpr h
        rw [hread] at herr
        cases herr
      rw [hostile_iff hsections hbroken]
      simp only [Total, loadGgufOn, hread, hend]
      cases hnumber : (alignmentValue sections.metadata).number? with
      | none => simp [Machine.isFormatError]
      | some alignment =>
          cases hzero : alignment.isZero with
          | true => simp [Machine.isFormatError, hzero]
          | false =>
              simp only [hzero, Bool.false_eq_true, if_false, Option.some.injEq, exists_eq_left',
                reduceCtorEq, false_or, true_and]
              constructor
              · rintro hall ⟨before, t, after, htensors, hlast, hout⟩
                apply hout
                exact hall t.name _ (get?_tensorsAt.2
                  ⟨before, t, after, htensors, hlast, rfl, rfl⟩)
              · intro hgood name info hinfo
                obtain ⟨before, t, after, htensors, hlast, rfl, rfl⟩ := get?_tensorsAt.1 hinfo
                by_contra hout
                exact hgood ⟨before, t, after, htensors, hlast, hout⟩

/-- A header without tensors whose `general.alignment` is 0. -/
def zeroAlignment : List UInt8 :=
  ggufMagic ++ leBytes 4 3 ++ leBytes 8 0 ++ leBytes 8 1 ++ writeString "general.alignment" ++
    leBytes 4 ValueType.uint32.code ++ leBytes 4 0

theorem zeroAlignment_raises : ¬ ∀ (m : Machine) (path : String) (file : List UInt8),
    Total m path file := by
  intro h
  have hraise : (match loadGgufOn roomyMachine "m.gguf" zeroAlignment with
      | .error e => decide (e = .zeroDivision)
      | .ok _ => false) = true := by
    decide +kernel
  have htotal := h roomyMachine "m.gguf" zeroAlignment
  rw [Total] at htotal
  split at hraise
  · next e herr =>
      rw [herr] at htotal
      rw [of_decide_eq_true hraise] at htotal
      cases htotal
  · cases hraise

end FreeToken.GGUF
