import FreeToken.Kernel.Dequantize
import FreeToken.Lib.TileKernel
import Mathlib.Algebra.Field.Defs

/-!
# Fused linears

`fused_gptq_linear`, `fused_fp8_linear`, `fused_int8_linear` and `fused_mxfp4_linear` of
`kernel/triton`, in exact arithmetic, each with its kernel: what a program loads in a step of its
loop over the inner dimension, and the launch. A load from outside its tensor is an error, and so
is a kernel that does not compile: `tl.arange` takes powers of two only, a tile has at most
`TRITON_MAX_TENSOR_NUMEL` elements, and the inner dimension of `tl.dot` is eight or more. The output
is allocated with whatever is in the memory.
-/

namespace FreeToken

open Assign TileKernel

/-- What a fused linear raises. -/
inductive FusedError where
  | valueError
  | zeroDivision
  | launch (e : LaunchError)
deriving DecidableEq, Repr

/-- What a stored element is read as. -/
structure Stored (α K : Type) where
  int32 : α → BitVec 32
  uint8 : α → BitVec 8
  item : α → Int
  float : α → K
  exp2 : K → K

variable {α K : Type} [Field K]

/-- Exact arithmetic on what is stored. -/
def Stored.elements (S : Stored α K) : Elements α K K where
  int32 := S.int32
  uint8 := S.uint8
  item := S.item
  float := S.float
  ofInt := fun z => z
  half := fun negative n => if negative then -(n / (2 : Nat)) else n / (2 : Nat)
  mul := (· * ·)
  sub := (· - ·)
  exp2 := S.exp2
  cast := id

instance (t : Tensor α) (idx : List Nat) : Decidable (t.InRange idx) :=
  inferInstanceAs (Decidable (List.Forall₂ _ _ _))

/-- A load of lanes from a tensor. -/
def loadAt {ι β : Type} (t : Tensor α) (lanes : List ι) (mask : ι → Bool) (idx : ι → List Nat)
    (read : α → β) (other : β) : Except LaunchError (ι → β) :=
  load lanes mask (fun i => t.InRange (idx i)) (fun i => read (t.get (idx i))) other

/-- `TRITON_MAX_TENSOR_NUMEL`. -/
def maxNumel : Nat := 1048576

/-- A kernel compiles with these tiles of `tl.dot`, and these other lengths of `tl.arange`. Of the
least sizes that `tl.dot` takes only the one that the wrappers name is asked for, and nothing of
what a device has room for. -/
def compiles (blockM blockN inner : Nat) (lengths : List Nat) : Bool :=
  (blockM :: blockN :: inner :: lengths).all powerOfTwo &&
    [blockM * blockN, blockM * inner, blockN * inner].all (· ≤ maxNumel) && 8 ≤ inner

/-- The tensor of a launch, with the bias. -/
def fusedResult (m n : Nat) (bias : Option (Nat → K)) (junk : Nat × Nat → K)
    (launched : Except LaunchError (List ((Nat × Nat) × K))) : Except FusedError (Tensor K) :=
  match launched with
  | .error e => .error (.launch e)
  | .ok out => .ok ⟨[m, n], fun idx =>
      let value := written junk out (idx.getD 0 0, idx.getD 1 0)
      bias.elim value fun b => value + b (idx.getD 1 0)⟩

variable (S : Stored α K) (blockM blockN : Nat)

/-- The tile of `x` in a step of `inner` columns. -/
def loadX (x : Tensor K) (m inner : Nat) (pid : Nat × Nat) (step : Nat) (maskK : Nat → Bool) :
    Except LaunchError (Nat × Nat → K) :=
  loadAt x (tile blockM inner) (fun l => pid.1 * blockM + l.1 < m && maskK (step * inner + l.2))
    (fun l => [pid.1 * blockM + l.1, step * inner + l.2]) id 0

/-! ### GPTQ -/

/-- A step of `_fused_gptq_matmul_kernel`. -/
def gptqTiles (x : Tensor K) (qweight qzeros scales : Tensor α) (m n groupSize : Nat)
    (pid : Nat × Nat) (g : Nat) : Except LaunchError ((Nat → Nat → K) × (Nat → Nat → K)) := do
  let offsN := fun c => pid.2 * blockN + c
  let packed ← loadAt qweight (tile (groupSize / 8) blockN) (fun l => offsN l.2 < n)
    (fun l => [g * (groupSize / 8) + l.1, offsN l.2]) S.int32 0
  let qzWord ← loadAt qzeros (List.range blockN) (fun c => offsN c < n)
    (fun c => [g, offsN c / 8]) S.int32 0
  let scale ← loadAt scales (List.range blockN) (fun c => offsN c < n)
    (fun c => [g, offsN c]) S.float 0
  let xTile ← loadX blockM x m groupSize pid g fun _ => true
  let zero := fun c => (nibble (qzWord c) (offsN c % 8) : K) + 1
  return (fun r i => xTile (r, i),
    fun i c => ((nibble (packed (i / 8, c)) (i % 8) : K) - zero c) * scale c)

/-- `_fused_gptq_matmul_kernel[grid]`. -/
def fusedGptqKernel (x : Tensor K) (qweight qzeros scales : Tensor α) (m n k groupSize : Nat) :
    Except LaunchError (List ((Nat × Nat) × K)) :=
  launch (compiles blockM blockN groupSize [groupSize / 8, 8]) m n blockM blockN
    fun pid => accumulate (cdiv k groupSize) groupSize
      (gptqTiles S blockM blockN x qweight qzeros scales m n groupSize pid)

/-- `fused_gptq_linear`. -/
def fusedGptqLinear (groupSize : Int) (bias : Option (Nat → K)) (junk : Nat × Nat → K)
    (x : Tensor K) (qweight qzeros scales : Tensor α) : Except FusedError (Tensor K) :=
  if groupSize % 8 ≠ 0 then .error .valueError
  else
    match x.shape, qweight.shape, qzeros.shape, scales.shape with
    | [m, k], [kPacked, n], [_, nPacked], [_, cols] =>
        if kPacked * 8 ≠ k then .error .valueError
        else if cols ≠ n ∨ nPacked * 8 ≠ n then .error .valueError
        else if groupSize = 0 ∨ blockM = 0 ∨ blockN = 0 then .error .zeroDivision
        else fusedResult m n bias junk
          (fusedGptqKernel S blockM blockN x qweight qzeros scales m n k groupSize.toNat)
    | _, _, _, _ => .error .valueError

/-! ### Block-FP8 -/

/-- A step of `_fused_fp8_matmul_kernel`. -/
def fp8Tiles (x : Tensor K) (weight weightScaleInv : Tensor α) (m n k block : Nat)
    (pid : Nat × Nat) (kb : Nat) : Except LaunchError ((Nat → Nat → K) × (Nat → Nat → K)) := do
  let offsN := fun c => pid.2 * blockN + c
  let offsK := fun i => kb * block + i
  let wTile ← loadAt weight (tile block blockN) (fun l => offsN l.2 < n && offsK l.1 < k)
    (fun l => [offsN l.2, offsK l.1]) S.float 0
  let scale ← loadAt weightScaleInv [()] (fun _ => true)
    (fun _ => [pid.2 * blockN / block, kb]) S.float 0
  let xTile ← loadX blockM x m block pid kb fun j => j < k
  return (fun r i => xTile (r, i), fun i c => wTile (i, c) * scale ())

/-- `_fused_fp8_matmul_kernel[grid]`. -/
def fusedFp8Kernel (x : Tensor K) (weight weightScaleInv : Tensor α) (m n k block : Nat) :
    Except LaunchError (List ((Nat × Nat) × K)) :=
  launch (compiles blockM blockN block []) m n blockM blockN fun pid =>
    accumulate (cdiv k block) block
      (fp8Tiles S blockM blockN x weight weightScaleInv m n k block pid)

/-- `fused_fp8_linear`. -/
def fusedFp8Linear (block : Nat) (bias : Option (Nat → K)) (junk : Nat × Nat → K)
    (x : Tensor K) (weight weightScaleInv : Tensor α) : Except FusedError (Tensor K) :=
  if blockN = 0 then .error .zeroDivision
  else if block % blockN ≠ 0 then .error .valueError
  else
    match x.shape, weight.shape with
    | [m, k], [n, k2] =>
        if k ≠ k2 then .error .valueError
        else if block = 0 then .error .zeroDivision
        else if weightScaleInv.shape ≠ [cdiv n block, cdiv k block] then .error .valueError
        else if blockM = 0 then .error .zeroDivision
        else fusedResult m n bias junk
          (fusedFp8Kernel S blockM blockN x weight weightScaleInv m n k block)
    | _, _ => .error .valueError

/-! ### INT8 -/

/-- A step of `_fused_int8_matmul_kernel`. -/
def int8Tiles (x : Tensor K) (weightPacked weightScale : Tensor α) (m n k groupSize : Nat)
    (pid : Nat × Nat) (g : Nat) : Except LaunchError ((Nat → Nat → K) × (Nat → Nat → K)) := do
  let offsN := fun c => pid.2 * blockN + c
  let packed ← loadAt weightPacked (tile blockN (groupSize / 4)) (fun l => offsN l.1 < n)
    (fun l => [offsN l.1, g * (groupSize / 4) + l.2]) S.int32 0
  let scale ← loadAt weightScale (List.range blockN) (fun c => offsN c < n)
    (fun c => [offsN c, g]) S.float 0
  let xTile ← loadX blockM x m groupSize pid g fun j => j < k
  let bits := fun i c => ((packed (c, i / 4)).sshiftRight (8 * (i % 4)) &&& 0xFF#32).toNat
  return (fun r i => xTile (r, i), fun i c => ((bits i c : K) - 128) * scale c)

/-- `_fused_int8_matmul_kernel[grid]`. -/
def fusedInt8Kernel (x : Tensor K) (weightPacked weightScale : Tensor α) (m n k groupSize : Nat) :
    Except LaunchError (List ((Nat × Nat) × K)) :=
  launch (compiles blockM blockN groupSize [groupSize / 4, 4]) m n blockM blockN
    fun pid => accumulate (cdiv k groupSize) groupSize
      (int8Tiles S blockM blockN x weightPacked weightScale m n k groupSize pid)

/-- `fused_int8_linear`. -/
def fusedInt8Linear (k : Int) (bias : Option (Nat → K)) (junk : Nat × Nat → K)
    (x : Tensor K) (weightPacked weightScale : Tensor α) : Except FusedError (Tensor K) :=
  match x.shape, weightPacked.shape, weightScale.shape with
  | [m, kx], [n, _], [rows, numGroups] =>
      if (kx : Int) ≠ k then .error .valueError
      else if rows ≠ n then .error .valueError
      else if numGroups = 0 then .error .zeroDivision
      else if kx % numGroups ≠ 0 then .error .valueError
      else if kx / numGroups % 4 ≠ 0 then .error .valueError
      else if kx / numGroups < 8 then .error .valueError
      else if blockM = 0 ∨ blockN = 0 then .error .zeroDivision
      else fusedResult m n bias junk
        (fusedInt8Kernel S blockM blockN x weightPacked weightScale m n kx (kx / numGroups))
  | _, _, _ => .error .valueError

/-! ### MXFP4 -/

/-- `_mxfp4_magnitude_lut`, in halves. -/
def mxfp4MagnitudeLut (code3 : BitVec 8) : Nat :=
  let v := if code3 = 0 then 0 else 1
  let v := if code3 = 2 then 2 else v
  let v := if code3 = 3 then 3 else v
  let v := if code3 = 4 then 4 else v
  let v := if code3 = 5 then 6 else v
  let v := if code3 = 6 then 8 else v
  if code3 = 7 then 12 else v

/-- A code, with its sign. -/
def mxfp4Lane (code : BitVec 8) : K :=
  (if 8 ≤ code.toNat then -1 else 1) * (mxfp4MagnitudeLut (code &&& 7#8) / (2 : Nat))

/-- A step of `_fused_mxfp4_matmul_kernel`. -/
def mxfp4Tiles (x : Tensor K) (weightBlocks weightScales : Tensor α) (m n k : Nat)
    (pid : Nat × Nat) (kb : Nat) : Except LaunchError ((Nat → Nat → K) × (Nat → Nat → K)) := do
  let offsN := fun c => pid.2 * blockN + c
  let raw ← loadAt weightBlocks (tile blockN 16) (fun l => offsN l.1 < n)
    (fun l => [offsN l.1, kb, l.2]) S.uint8 0
  let sRaw ← loadAt weightScales (List.range blockN) (fun c => offsN c < n)
    (fun c => [offsN c, kb]) S.uint8 0
  let xTile ← loadX blockM x m 32 pid kb fun j => j < k
  let scale := fun c => S.exp2 (((sRaw c).toNat : K) - 127)
  let lo := fun c b => mxfp4Lane (raw (c, b) &&& 0xF#8) * scale c
  let hi := fun c b => mxfp4Lane ((raw (c, b) >>> 4) &&& 0xF#8) * scale c
  -- `tl.interleave`
  return (fun r i => xTile (r, i), fun i c => if i % 2 = 0 then lo c (i / 2) else hi c (i / 2))

/-- `_fused_mxfp4_matmul_kernel[grid]`. -/
def fusedMxfp4Kernel (x : Tensor K) (weightBlocks weightScales : Tensor α) (m n k : Nat) :
    Except LaunchError (List ((Nat × Nat) × K)) :=
  launch (compiles blockM blockN 32 [16]) m n blockM blockN fun pid =>
    accumulate (cdiv k 32) 32 (mxfp4Tiles S blockM blockN x weightBlocks weightScales m n k pid)

/-- `fused_mxfp4_linear`. -/
def fusedMxfp4Linear (bias : Option (Nat → K)) (junk : Nat × Nat → K) (x : Tensor K)
    (weightBlocks weightScales : Tensor α) : Except FusedError (Tensor K) :=
  match x.shape, weightBlocks.shape with
  | [m, k], [n, nBlocks, bytes] =>
      if bytes ≠ 16 then .error .valueError
      else if nBlocks * 32 ≠ k then .error .valueError
      else if weightScales.shape ≠ [n, nBlocks] then .error .valueError
      else if blockM = 0 ∨ blockN = 0 then .error .zeroDivision
      else fusedResult m n bias junk
        (fusedMxfp4Kernel S blockM blockN x weightBlocks weightScales m n k)
  | _, _ => .error .valueError

end FreeToken
