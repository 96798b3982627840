import FreeToken.Lib.Dict
import FreeToken.Lib.ReadNumbers
import FreeToken.Lib.Reader

/-!
# The GGUF reader of `models/gguf/reader.py`

A file is its list of bytes. `struct` formats are little-endian throughout. A Python float is
given by the bits that it was read from. What `load_gguf` raises depends on the interpreter in two
places: `read` allocates as many bytes as a length field asks for, and each array around a value is
a further call of `_read_gguf_value`. Both limits are parameters. An alignment may be a float, and
then the offsets are floats too.
-/

namespace FreeToken.GGUF

/-- `GGUFValueType`. -/
inductive ValueType where
  | uint8
  | int8
  | uint16
  | int16
  | uint32
  | int32
  | float32
  | bool
  | string
  | array
  | uint64
  | int64
  | float64
deriving DecidableEq

def ValueType.code : ValueType → Nat
  | .uint8 => 0
  | .int8 => 1
  | .uint16 => 2
  | .int16 => 3
  | .uint32 => 4
  | .int32 => 5
  | .float32 => 6
  | .bool => 7
  | .string => 8
  | .array => 9
  | .uint64 => 10
  | .int64 => 11
  | .float64 => 12

/-- The `struct` format characters. -/
inductive Fmt where
  | B
  | b
  | H
  | h
  | I
  | i
  | f
  | Q
  | q
  | d

/-- `struct.calcsize`. -/
def Fmt.size : Fmt → Nat
  | .B => 1
  | .b => 1
  | .H => 2
  | .h => 2
  | .I => 4
  | .i => 4
  | .f => 4
  | .Q => 8
  | .q => 8
  | .d => 8

/-- `_SCALAR_FMT`. -/
def scalarFmts : List (ValueType × Fmt) :=
  [(.uint8, .B), (.int8, .b), (.uint16, .H), (.int16, .h), (.uint32, .I), (.int32, .i),
    (.float32, .f), (.bool, .B), (.uint64, .Q), (.int64, .q), (.float64, .d)]

def scalarFmt (valueType : Nat) : Option Fmt :=
  (scalarFmts.find? fun entry => entry.1.code = valueType).map Prod.snd

/-- A metadata value as Python has it. -/
inductive PyValue where
  | int (n : Int)
  | bool (b : Bool)
  /-- The float with these binary32 bits; widening it does not change it. -/
  | float32 (bits : Nat)
  | float64 (bits : Nat)
  | str (s : String)
  | list (elements : List PyValue)

/-- What `load_gguf` raises. -/
inductive LoadError where
  /-- `unexpected EOF: wanted {wanted} bytes, got {got}`. No file is as long as a length from
  `2 ** 63` on, for which `read` raises another error. -/
  | eof (wanted got : Nat)
  /-- `not a GGUF file (bad magic {magic}): {path}` -/
  | badMagic (magic : List UInt8) (path : String)
  /-- `unknown GGUF value type {valueType}` -/
  | unknownValueType (valueType : Nat)
  | unicodeDecode
  /-- An alignment of 0. -/
  | zeroDivision
  /-- An alignment that is a string or a list. -/
  | typeError
  /-- `RecursionError`: more arrays around a value than there is room for. -/
  | depth
deriving DecidableEq

abbrev R (α : Type) := Reader LoadError UInt8 α

def readExact (n : Nat) : R (List UInt8) := Reader.take (LoadError.eof n) n

/-- `struct.unpack` of one value. -/
def Fmt.unpack (fmt : Fmt) (bytes : List UInt8) : PyValue :=
  match fmt with
  | .B => .int (ofLeBytes bytes)
  | .b => .int (ofLeBytesSigned bytes)
  | .H => .int (ofLeBytes bytes)
  | .h => .int (ofLeBytesSigned bytes)
  | .I => .int (ofLeBytes bytes)
  | .i => .int (ofLeBytesSigned bytes)
  | .f => .float32 (ofLeBytes bytes)
  | .Q => .int (ofLeBytes bytes)
  | .q => .int (ofLeBytesSigned bytes)
  | .d => .float64 (ofLeBytes bytes)

def readStruct (fmt : Fmt) : R PyValue :=
  readExact fmt.size >>= fun bytes => pure (fmt.unpack bytes)

/-- `_read_struct` for the unsigned formats of counts, lengths and types. -/
def readNat (fmt : Fmt) : R Nat := readExact fmt.size >>= fun bytes => pure (ofLeBytes bytes)

/-- `bytes.decode("utf-8")`. -/
def decodeUtf8 (bytes : List UInt8) : R String :=
  match String.fromUTF8? ⟨bytes.toArray⟩ with
  | some s => pure s
  | none => Reader.fail .unicodeDecode

def readGgufString : R String := readNat .Q >>= fun n => readExact n >>= decodeUtf8

/-- `bool(value)`. -/
def PyValue.toBool : PyValue → PyValue
  | .int n => .bool (n ≠ 0)
  | value => value

def readScalar (valueType : Nat) : R PyValue :=
  match scalarFmt valueType with
  | none => Reader.fail (.unknownValueType valueType)
  | some fmt =>
      readStruct fmt >>= fun value =>
        pure (if valueType = ValueType.bool.code then value.toBool else value)

/-- The interpreter that runs `load_gguf`. -/
structure Machine where
  /-- `read` of a longer length raises `MemoryError`, or `OverflowError` from `2 ** 63` on. What
  the file has is taken to fit. -/
  memory : Nat
  memory_ge : 8 ≤ memory
  memory_lt : memory < 2 ^ 63
  /-- No value is read inside this many arrays: `RecursionError`. -/
  levels : Nat
  /-- Whether a value of a type is read inside so many arrays. -/
  room : Nat → Nat → Bool

/-- A machine of 2 ** 40 bytes and 300 levels. -/
def roomyMachine : Machine := ⟨2 ^ 40, by decide, by decide, 300, fun _ _ => true⟩

/-- `_read_gguf_value` with room for `left` further levels. -/
def readGgufValueOn (m : Machine) : Nat → Nat → R PyValue
  | 0, _ => Reader.fail .depth
  | left + 1, valueType =>
      if m.room (m.levels - (left + 1)) valueType then
        if valueType = ValueType.string.code then readGgufString >>= fun s => pure (.str s)
        else if valueType = ValueType.array.code then
          readNat .I >>= fun elementType => readNat .Q >>= fun length =>
            Reader.many (readGgufValueOn m left elementType) length >>= fun elements =>
              pure (.list elements)
        else readScalar valueType
      else Reader.fail .depth

def readPairOn (m : Machine) : R (String × PyValue) :=
  readGgufString >>= fun key => readNat .I >>= fun valueType =>
    readGgufValueOn m m.levels valueType >>= fun value => pure (key, value)

/-- `(name, shape, ggml_type, rel_offset)`. -/
structure RawTensor where
  name : String
  shape : List Nat
  ggmlType : Nat
  relOffset : Nat

def readTensor : R RawTensor :=
  readGgufString >>= fun name => readNat .I >>= fun nDims =>
    Reader.many (readNat .Q) nDims >>= fun shape => readNat .I >>= fun ggmlType =>
      readNat .Q >>= fun relOffset => pure ⟨name, shape, ggmlType, relOffset⟩

/-- What is read before `f.tell()`. -/
structure Sections where
  version : Nat
  metadata : Dict String PyValue
  rawTensors : List RawTensor

def ggufMagic : List UInt8 := [0x47, 0x47, 0x55, 0x46]

def countFmt (version : Nat) : Fmt := if version = 1 then .I else .Q

def readSectionsOn (m : Machine) (path : String) : R Sections :=
  readExact 4 >>= fun magic =>
    if magic = ggufMagic then
      readNat .I >>= fun version =>
        readNat (countFmt version) >>= fun tensorCount =>
          readNat (countFmt version) >>= fun kvCount =>
            Reader.many (readPairOn m) kvCount >>= fun pairs =>
              Reader.many readTensor tensorCount >>= fun rawTensors =>
                pure ⟨version, Dict.ofPairs pairs, rawTensors⟩
    else Reader.fail (.badMagic magic path)

/-- `GGUFTensorInfo` of a file whose alignment is no float. -/
structure GGUFTensorInfo where
  name : String
  shape : List Nat
  ggmlType : Nat
  offset : Int

/-- `GGUFFile`, likewise. -/
structure GGUFFile where
  path : String
  version : Nat
  metadata : Dict String PyValue
  tensors : Dict String GGUFTensorInfo
  tensorDataStart : Int

/-- An int or a float. -/
inductive PyNumber where
  | int (n : Int)
  | float (x : Float.Model)

/-- A value that arithmetic takes. -/
def PyValue.number? : PyValue → Option PyNumber
  | .int n => some (.int n)
  | .bool b => some (.int (if b then 1 else 0))
  | .float32 bits => some (.float (PyFloat.ofBits32 (UInt32.ofNat bits)))
  | .float64 bits => some (.float (.ofBits (UInt64.ofNat bits)))
  | .str _ => none
  | .list _ => none

def PyNumber.isZero : PyNumber → Bool
  | .int n => n = 0
  | .float x => PyFloat.isZero x

/-- `((header_end + alignment - 1) // alignment) * alignment`, for an alignment that is not 0. -/
def dataStart (headerEnd : Nat) : PyNumber → PyNumber
  | .int alignment => .int ((headerEnd + alignment - 1).fdiv alignment * alignment)
  | .float alignment =>
      .float (PyFloat.floorDiv (.ofNat headerEnd + alignment - .ofNat 1) alignment * alignment)

/-- `tensor_data_start + rel_offset`. -/
def PyNumber.addNat : PyNumber → Nat → PyNumber
  | .int start, relOffset => .int (start + relOffset)
  | .float start, relOffset => .float (start + .ofNat relOffset)

/-- `GGUFTensorInfo` with an offset of either kind. -/
structure TensorInfo where
  name : String
  shape : List Nat
  ggmlType : Nat
  offset : PyNumber

/-- `GGUFFile` with offsets of either kind. -/
structure ParsedFile where
  path : String
  version : Nat
  metadata : Dict String PyValue
  tensors : Dict String TensorInfo
  tensorDataStart : PyNumber

def RawTensor.resolveAt (tensorDataStart : PyNumber) (t : RawTensor) : TensorInfo :=
  ⟨t.name, t.shape, t.ggmlType, tensorDataStart.addNat t.relOffset⟩

/-- `metadata.get("general.alignment", _DEFAULT_ALIGNMENT)`. -/
def alignmentValue (metadata : Dict String PyValue) : PyValue :=
  (metadata.get? "general.alignment").getD (.int 32)

/-- The tensors by name. -/
def Sections.tensorsAt (sections : Sections) (tensorDataStart : PyNumber) :
    Dict String TensorInfo :=
  Dict.ofPairs (sections.rawTensors.map fun t => (t.name, t.resolveAt tensorDataStart))

/-- `load_gguf` on a file with these bytes. -/
def loadGgufOn (m : Machine) (ggufPath : String) (file : List UInt8) :
    Except LoadError ParsedFile :=
  match readSectionsOn m ggufPath file with
  | .error e => .error e
  | .ok (sections, rest) =>
      match (alignmentValue sections.metadata).number? with
      | none => .error .typeError
      | some alignment =>
          if alignment.isZero then .error .zeroDivision
          else
            let tensorDataStart := dataStart (file.length - rest.length) alignment
            .ok {
              path := ggufPath
              version := sections.version
              metadata := sections.metadata
              tensors := sections.tensorsAt tensorDataStart
              tensorDataStart := tensorDataStart }

/-! ### What the format encodes -/

/-- A scalar in the file. -/
inductive Scalar where
  | uint8 (v : UInt8)
  | int8 (v : Int8)
  | uint16 (v : UInt16)
  | int16 (v : Int16)
  | uint32 (v : UInt32)
  | int32 (v : Int32)
  | float32 (bits : UInt32)
  | bool (b : Bool)
  | uint64 (v : UInt64)
  | int64 (v : Int64)
  | float64 (bits : UInt64)

def Scalar.type : Scalar → ValueType
  | .uint8 _ => .uint8
  | .int8 _ => .int8
  | .uint16 _ => .uint16
  | .int16 _ => .int16
  | .uint32 _ => .uint32
  | .int32 _ => .int32
  | .float32 _ => .float32
  | .bool _ => .bool
  | .uint64 _ => .uint64
  | .int64 _ => .int64
  | .float64 _ => .float64

/-- A signed number in two's complement. -/
def leBytesSigned (w : Nat) (i : Int) : List UInt8 := leBytes w (i % (256 ^ w : Nat)).toNat

def Scalar.write : Scalar → List UInt8
  | .uint8 v => leBytes 1 v.toNat
  | .int8 v => leBytesSigned 1 v.toInt
  | .uint16 v => leBytes 2 v.toNat
  | .int16 v => leBytesSigned 2 v.toInt
  | .uint32 v => leBytes 4 v.toNat
  | .int32 v => leBytesSigned 4 v.toInt
  | .float32 bits => leBytes 4 bits.toNat
  | .bool b => leBytes 1 b.toNat
  | .uint64 v => leBytes 8 v.toNat
  | .int64 v => leBytesSigned 8 v.toInt
  | .float64 bits => leBytes 8 bits.toNat

def Scalar.value : Scalar → PyValue
  | .uint8 v => .int v.toNat
  | .int8 v => .int v.toInt
  | .uint16 v => .int v.toNat
  | .int16 v => .int v.toInt
  | .uint32 v => .int v.toNat
  | .int32 v => .int v.toInt
  | .float32 bits => .float32 bits.toNat
  | .bool b => .bool b
  | .uint64 v => .int v.toNat
  | .int64 v => .int v.toInt
  | .float64 bits => .float64 bits.toNat

/-- A metadata value in the file; an array has one type for all its elements. -/
inductive Value where
  | scalar (s : Scalar)
  | string (s : String)
  | array (elementType : ValueType) (elements : List Value)

def Value.type : Value → ValueType
  | .scalar s => s.type
  | .string _ => .string
  | .array _ _ => .array

def writeString (s : String) : List UInt8 := leBytes 8 s.utf8ByteSize ++ s.toUTF8.data.toList

mutual

def Value.write : Value → List UInt8
  | .scalar s => s.write
  | .string s => writeString s
  | .array elementType elements =>
      leBytes 4 elementType.code ++ (leBytes 8 elements.length ++ writeAll elements)

def writeAll : List Value → List UInt8
  | [] => []
  | v :: vs => v.write ++ writeAll vs

end

mutual

/-- The value that the file's value stands for. -/
def Value.value : Value → PyValue
  | .scalar s => s.value
  | .string s => .str s
  | .array _ elements => .list (valueAll elements)

def valueAll : List Value → List PyValue
  | [] => []
  | v :: vs => v.value :: valueAll vs

end

/-- The value fits into its fields. -/
inductive Value.Fits : Value → Prop where
  | scalar (s : Scalar) : Fits (.scalar s)
  | string (s : String) (hlen : s.utf8ByteSize < 2 ^ 64) : Fits (.string s)
  | array (elementType : ValueType) (elements : List Value) (hlen : elements.length < 2 ^ 64)
      (htype : ∀ v ∈ elements, v.type = elementType) (hfits : ∀ v ∈ elements, Fits v) :
      Fits (.array elementType elements)

/-- A tensor info in the file; `offset` counts from the start of the tensor data. -/
structure TensorDesc where
  name : String
  dims : List UInt64
  ggmlType : UInt32
  offset : UInt64
  name_lt : name.utf8ByteSize < 2 ^ 64
  dims_lt : dims.length < 2 ^ 32

def TensorDesc.write (t : TensorDesc) : List UInt8 :=
  writeString t.name ++ (leBytes 4 t.dims.length ++
    (t.dims.flatMap (fun d => leBytes 8 d.toNat) ++
      (leBytes 4 t.ggmlType.toNat ++ leBytes 8 t.offset.toNat)))

def TensorDesc.raw (t : TensorDesc) : RawTensor :=
  ⟨t.name, t.dims.map UInt64.toNat, t.ggmlType.toNat, t.offset.toNat⟩

/-- A pair of the metadata in the file. -/
structure MetadataKV where
  key : String
  value : Value
  key_lt : key.utf8ByteSize < 2 ^ 64
  value_fits : value.Fits

def MetadataKV.write (kv : MetadataKV) : List UInt8 :=
  writeString kv.key ++ (leBytes 4 kv.value.type.code ++ kv.value.write)

def MetadataKV.pair (kv : MetadataKV) : String × PyValue := (kv.key, kv.value.value)

/-- A GGUF header of version 2 or 3. -/
structure Header where
  version : Nat
  metadata : List MetadataKV
  tensors : List TensorDesc
  version_eq : version = 2 ∨ version = 3
  metadata_lt : metadata.length < 2 ^ 64
  tensors_lt : tensors.length < 2 ^ 64

def Header.serialize (h : Header) : List UInt8 :=
  ggufMagic ++ (leBytes 4 h.version ++ (leBytes 8 h.tensors.length ++
    (leBytes 8 h.metadata.length ++
      (h.metadata.flatMap MetadataKV.write ++ h.tensors.flatMap TensorDesc.write))))

end FreeToken.GGUF
