import FreeToken.Models.GGUF.Format
import FreeToken.Lib.Grammar

/-!
# Files on which `load_gguf` raises what is no `GGUFFormatError`

The phrases of a file, and the places where a file breaks them with another error than the reader's
own.
-/

namespace FreeToken.GGUF

/-- The error is a `GGUFFormatError`. -/
def Machine.isFormatError (m : Machine) : LoadError → Bool
  | .eof wanted _ => wanted ≤ m.memory
  | .badMagic _ _ => true
  | .unknownValueType _ => true
  | .unicodeDecode => false
  | .zeroDivision => false
  | .typeError => false
  | .depth => false

/-- A range that begins at the offset begins in a file of so many bytes. -/
def PyNumber.StartsIn (size : Nat) : PyNumber → Prop
  | .int offset => 0 ≤ offset ∧ offset < size
  | .float x => ∃ offset ∈ PyFloat.toRat? x, 0 ≤ offset ∧ offset < size

/-! ### The phrases of a file -/

/-- The bytes of a field of that format. -/
def FieldPhrase (fmt : Fmt) (phrase : List UInt8) (n : Nat) : Prop :=
  phrase.length = fmt.size ∧ ofLeBytes phrase = n

/-- A length, and as many bytes that are the UTF-8 of the string. -/
def StringPhrase (phrase : List UInt8) (s : String) : Prop :=
  ∃ field body, phrase = field ++ body ∧ FieldPhrase .Q field body.length ∧
    body = s.toUTF8.data.toList

/-- A length whose bytes are not UTF-8, or which the file does not have and `read` cannot
allocate. -/
def StringBreak (m : Machine) (xs : List UInt8) : Prop :=
  ∃ field mid n, xs = field ++ mid ∧ FieldPhrase .Q field n ∧
    (n ≤ mid.length ∧ (∀ s : String, s.toUTF8.data.toList ≠ mid.take n) ∨
      mid.length < n ∧ m.memory < n)

def ScalarPhrase (valueType : Nat) (phrase : List UInt8) (value : PyValue) : Prop :=
  ∃ fmt, scalarFmt valueType = some fmt ∧ phrase.length = fmt.size ∧
    (if valueType = ValueType.bool.code then (fmt.unpack phrase).toBool
      else fmt.unpack phrase) = value

/-- The element type and the count, before the elements of an array. -/
def ArrayHead (phrase : List UInt8) (elementType length : Nat) : Prop :=
  ∃ u v, phrase = u ++ v ∧ FieldPhrase .I u elementType ∧ FieldPhrase .Q v length

/-- A value that the machine has room for. -/
def ValuePhrase (m : Machine) : Nat → Nat → List UInt8 → PyValue → Prop
  | 0, _, _, _ => False
  | left + 1, valueType, phrase, value =>
      m.room (m.levels - (left + 1)) valueType = true ∧
        if valueType = ValueType.string.code then ∃ s, StringPhrase phrase s ∧ .str s = value
        else if valueType = ValueType.array.code then
          ∃ head body elementType elements, phrase = head ++ body ∧
            ArrayHead head elementType elements.length ∧
            Reader.Phrases (ValuePhrase m left elementType) body elements ∧
            .list elements = value
        else ScalarPhrase valueType phrase value

/-- A value with a string that breaks, or with more arrays around a part than there is room
for, where all before that part is well formed. -/
def ValueBreak (m : Machine) : Nat → Nat → List UInt8 → Prop
  | 0, _, _ => True
  | left + 1, valueType, xs =>
      m.room (m.levels - (left + 1)) valueType = false ∨
        if valueType = ValueType.string.code then StringBreak m xs
        else if valueType = ValueType.array.code then
          ∃ head u mid elementType length elements, xs = head ++ (u ++ mid) ∧
            ArrayHead head elementType length ∧ elements.length < length ∧
            Reader.Phrases (ValuePhrase m left elementType) u elements ∧
            ValueBreak m left elementType mid
        else False

def PairPhrase (m : Machine) (phrase : List UInt8) (pair : String × PyValue) : Prop :=
  ∃ u v w valueType, phrase = u ++ (v ++ w) ∧ StringPhrase u pair.1 ∧
    FieldPhrase .I v valueType ∧ ValuePhrase m m.levels valueType w pair.2

def PairBreak (m : Machine) (xs : List UInt8) : Prop :=
  StringBreak m xs ∨ ∃ u v mid key valueType, xs = u ++ (v ++ mid) ∧ StringPhrase u key ∧
    FieldPhrase .I v valueType ∧ ValueBreak m m.levels valueType mid

def TensorPhrase (phrase : List UInt8) (t : RawTensor) : Prop :=
  ∃ name nDims dims ggmlType relOffset,
    phrase = name ++ (nDims ++ (dims ++ (ggmlType ++ relOffset))) ∧
    StringPhrase name t.name ∧ FieldPhrase .I nDims t.shape.length ∧
    Reader.Phrases (FieldPhrase .Q) dims t.shape ∧ FieldPhrase .I ggmlType t.ggmlType ∧
    FieldPhrase .Q relOffset t.relOffset

/-- The magic, the version and the counts. -/
def HeadPhrase (phrase : List UInt8) (version tensorCount kvCount : Nat) : Prop :=
  ∃ u v w, phrase = ggufMagic ++ (u ++ (v ++ w)) ∧ FieldPhrase .I u version ∧
    FieldPhrase (countFmt version) v tensorCount ∧ FieldPhrase (countFmt version) w kvCount

/-- What is read before `f.tell()`. -/
def SectionsPhrase (m : Machine) (phrase : List UInt8) (sections : Sections) : Prop :=
  ∃ head kv infos pairs, phrase = head ++ (kv ++ infos) ∧
    HeadPhrase head sections.version sections.rawTensors.length pairs.length ∧
    Reader.Phrases (PairPhrase m) kv pairs ∧
    Reader.Phrases TensorPhrase infos sections.rawTensors ∧
    Dict.ofPairs pairs = sections.metadata

/-- A pair or a tensor info breaks, where all before it is well formed. -/
def SectionsBreak (m : Machine) (xs : List UInt8) : Prop :=
  ∃ head mid version tensorCount kvCount, xs = head ++ mid ∧
    HeadPhrase head version tensorCount kvCount ∧
    ((∃ pairs u rest, mid = u ++ rest ∧ pairs.length < kvCount ∧
        Reader.Phrases (PairPhrase m) u pairs ∧ PairBreak m rest) ∨
      ∃ pairs kv tensors u rest, mid = kv ++ (u ++ rest) ∧ pairs.length = kvCount ∧
        Reader.Phrases (PairPhrase m) kv pairs ∧ tensors.length < tensorCount ∧
        Reader.Phrases TensorPhrase u tensors ∧ StringBreak m rest)

end FreeToken.GGUF
