import FreeToken.Lib.Dict
import FreeToken.Lib.Packed

/-!
# The FTW archive of `checkpoint/ftw.py`

A tensor has its elements' bytes row by row, and the strides that `view(dtype)` looks at. The JSON
index is the dict that was dumped. Of `mmap` it is used that an empty file cannot be mapped.
-/

namespace FreeToken.Ftw

/-- The dtypes of at most eight bytes. -/
inductive DType where
  | bool
  | uint8
  | int8
  | float8_e4m3fn
  | float8_e5m2
  | int16
  | uint16
  | float16
  | bfloat16
  | int32
  | uint32
  | float32
  | int64
  | uint64
  | float64
  | complex64
deriving DecidableEq

def DType.itemsize : DType → Nat
  | .bool => 1
  | .uint8 => 1
  | .int8 => 1
  | .float8_e4m3fn => 1
  | .float8_e5m2 => 1
  | .int16 => 2
  | .uint16 => 2
  | .float16 => 2
  | .bfloat16 => 2
  | .int32 => 4
  | .uint32 => 4
  | .float32 => 4
  | .int64 => 8
  | .uint64 => 8
  | .float64 => 8
  | .complex64 => 8

/-- `_dtype_to_str`. -/
def dtypeToStr : DType → String
  | .bool => "bool"
  | .uint8 => "uint8"
  | .int8 => "int8"
  | .float8_e4m3fn => "float8_e4m3fn"
  | .float8_e5m2 => "float8_e5m2"
  | .int16 => "int16"
  | .uint16 => "uint16"
  | .float16 => "float16"
  | .bfloat16 => "bfloat16"
  | .int32 => "int32"
  | .uint32 => "uint32"
  | .float32 => "float32"
  | .int64 => "int64"
  | .uint64 => "uint64"
  | .float64 => "float64"
  | .complex64 => "complex64"

def dtypes : List DType :=
  [.bool, .uint8, .int8, .float8_e4m3fn, .float8_e5m2, .int16, .uint16, .float16, .bfloat16,
    .int32, .uint32, .float32, .int64, .uint64, .float64, .complex64]

/-- `_dtype_from_str`. -/
def dtypeFromStr (name : String) : Option DType := dtypes.find? fun d => dtypeToStr d = name

structure Tensor where
  dtype : DType
  shape : List Nat
  strides : List Nat
  /-- In elements, as `storage_offset()`. -/
  storageOffset : Nat
  bytes : List UInt8

namespace Tensor

def numel (t : Tensor) : Nat := t.shape.prod

/-- As many strides as dimensions, and as many bytes as the elements have. -/
structure WellFormed (t : Tensor) : Prop where
  strides_length : t.strides.length = t.shape.length
  bytes_length : t.bytes.length = t.numel * t.dtype.itemsize

/-- Sizes and strides from the last dimension on; a dimension of size 1 may have any stride. -/
def contiguousFrom : List (Nat × Nat) → Nat → Bool
  | [], _ => true
  | (size, stride) :: rest, expected =>
      if size = 1 then contiguousFrom rest expected
      else stride = expected && contiguousFrom rest (expected * size)

/-- `is_contiguous()`. -/
def isContiguous (t : Tensor) : Bool :=
  t.numel = 0 || contiguousFrom (t.shape.zip t.strides).reverse 1

/-- The strides of a newly made tensor. -/
def rowMajor : List Nat → List Nat
  | [] => []
  | _ :: sizes => (sizes.map (max 1)).prod :: rowMajor sizes

/-- `contiguous()`. -/
def contiguous (t : Tensor) : Tensor :=
  if t.isContiguous then t else { t with strides := rowMajor t.shape, storageOffset := 0 }

/-- `view(dtype)`: between elements of different sizes the last dimension is scaled, which has to
exist and to have stride 1. -/
def viewDtype (t : Tensor) (d : DType) : Option Tensor :=
  if t.dtype.itemsize = d.itemsize then some { t with dtype := d }
  else
    match t.shape.getLast?, t.strides.getLast? with
    | some size, some stride =>
        if stride ≠ 1 then none
        else if d.itemsize < t.dtype.itemsize then
          let ratio := t.dtype.itemsize / d.itemsize
          some {
            dtype := d
            shape := t.shape.dropLast ++ [size * ratio]
            strides := t.strides.dropLast.map (fun s => s * ratio) ++ [1]
            storageOffset := t.storageOffset * ratio
            bytes := t.bytes }
        else
          let ratio := d.itemsize / t.dtype.itemsize
          if size % ratio = 0 ∧ t.storageOffset % ratio = 0 ∧
              ∀ s ∈ t.strides.dropLast, s % ratio = 0 then
            some {
              dtype := d
              shape := t.shape.dropLast ++ [size / ratio]
              strides := t.strides.dropLast.map (fun s => s / ratio) ++ [1]
              storageOffset := t.storageOffset / ratio
              bytes := t.bytes }
          else none
    | _, _ => none

/-- `view(shape)` of a contiguous tensor. -/
def viewShape (t : Tensor) (shape : List Nat) : Option Tensor :=
  if t.isContiguous ∧ shape.prod = t.numel then
    some { t with shape := shape, strides := rowMajor shape }
  else none

/-- `torch.frombuffer(mm, dtype=torch.uint8)`. -/
def frombuffer (buffer : List UInt8) : Tensor := ⟨.uint8, [buffer.length], [1], 0, buffer⟩

/-- `t[start:stop]` of a tensor of bytes. -/
def slice (t : Tensor) (start stop : Nat) : Tensor :=
  let bytes := (t.bytes.drop start).take (stop - start)
  ⟨.uint8, [bytes.length], [1], t.storageOffset + min start t.bytes.length, bytes⟩

end Tensor

/-- A tensor under its name. -/
structure NamedTensor where
  name : String
  tensor : Tensor
  wellFormed : tensor.WellFormed

/-- An entry of the index. -/
structure Meta where
  dtype : String
  shape : List Nat
  offset : Nat
  nbytes : Nat

inductive FtwError where
  /-- `view` raises `RuntimeError`. -/
  | view
  /-- `cannot mmap an empty file` -/
  | emptyMap
  /-- `unknown FTW tensor dtype {name}` -/
  | unknownDtype (name : String)

/-- What `write` has written so far. -/
structure Archive where
  index : Dict String Meta := Dict.empty
  weights : List UInt8 := []
  offset : Nat := 0

def alignment : Nat := 8

/-- One round of the loop of `write`. -/
def writeTensor (s : Archive) (t : NamedTensor) : Except FtwError Archive :=
  let pad := ((-(s.offset : Int)) % alignment).toNat
  let weights := s.weights ++ List.replicate pad 0
  let offset := s.offset + pad
  match t.tensor.contiguous.viewDtype .uint8 with
  | none => .error .view
  | some raw =>
      .ok {
        weights := weights ++ raw.bytes
        index := s.index.set t.name
          ⟨dtypeToStr t.tensor.dtype, t.tensor.shape, offset, raw.bytes.length⟩
        offset := offset + raw.bytes.length }

def writeFrom (s : Archive) : List NamedTensor → Except FtwError Archive
  | [] => .ok s
  | t :: ts =>
      match writeTensor s t with
      | .error e => .error e
      | .ok s' => writeFrom s' ts

/-- `FtwArchive.write`. -/
def write (ts : List NamedTensor) : Except FtwError Archive := writeFrom {} ts

/-- One tensor of `read`. -/
def readTensor (whole : Tensor) (entry : String × Meta) : Except FtwError (String × Tensor) :=
  match dtypeFromStr entry.2.dtype with
  | none => .error (.unknownDtype entry.2.dtype)
  | some dtype =>
      match (whole.slice entry.2.offset (entry.2.offset + entry.2.nbytes)).viewDtype dtype with
      | none => .error .view
      | some flat =>
          match flat.viewShape entry.2.shape with
          | none => .error .view
          | some tensor => .ok (entry.1, tensor)

def readAll (whole : Tensor) : List (String × Meta) → Except FtwError (List (String × Tensor))
  | [] => .ok []
  | entry :: entries =>
      match readTensor whole entry with
      | .error e => .error e
      | .ok tensor =>
          match readAll whole entries with
          | .error e => .error e
          | .ok tensors => .ok (tensor :: tensors)

/-- `FtwArchive.read`, the whole of it. -/
def read (archive : Archive) : Except FtwError (List (String × Tensor)) :=
  if archive.weights = [] then .error .emptyMap
  else readAll (Tensor.frombuffer archive.weights) archive.index.entries

end FreeToken.Ftw
