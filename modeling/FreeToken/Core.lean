import Mathlib.Algebra.Ring.Int.Defs
import Mathlib.Algebra.Ring.Nat
import Mathlib.Data.List.Sort
import Mathlib.Data.Rat.Defs

/-!
# Requests, batches and Python slicing

The dataclasses of `core.py` and `scheduler/prefill.py` that the scheduler and
the engine pass around. A Python object that is compared by identity
(`Req` is declared `eq=False`) carries its identity as the field `oid`.
Integers that the source lets go negative (`cached_len` of an empty prompt,
`output_len`) stay `Int`; token ids and pool slots are `Nat`.
-/

namespace FreeToken

abbrev Token := Nat
abbrev Slot := Nat

/-! ### Python arithmetic and slicing -/

/-- `align_down` of `utils/misc.py` (floor division, so negative numbers go down). -/
def alignDown (a b : Int) : Int := a / b * b

/-- `align_down` on lengths, where nothing is negative. -/
def alignDownNat (a b : Nat) : Nat := a / b * b

theorem alignDown_natCast (a b : Nat) : alignDown a b = (alignDownNat a b : Nat) := by
  simp [alignDown, alignDownNat]

theorem alignDownNat_le (a b : Nat) : alignDownNat a b ≤ a := Nat.div_mul_le_self a b

theorem dvd_alignDownNat (a b : Nat) : b ∣ alignDownNat a b := Nat.dvd_mul_left b (a / b)

theorem alignDownNat_of_dvd {a b : Nat} (h : b ∣ a) : alignDownNat a b = a :=
  Nat.div_mul_cancel h

theorem alignDownNat_mono {a c : Nat} (b : Nat) (h : a ≤ c) :
    alignDownNat a b ≤ alignDownNat c b :=
  Nat.mul_le_mul_right b (Nat.div_le_div_right h)

theorem le_alignDownNat {a b q : Nat} (hq : b ∣ q) (h : q ≤ a) : q ≤ alignDownNat a b := by
  rw [← alignDownNat_of_dvd hq]
  exact alignDownNat_mono b h

/-- `-(-a // b)`, the ceiling the engine uses to count pages. -/
def ceilDiv (a b : Int) : Nat := (-(-a / b)).toNat

theorem ceilDiv_bounds (a : Nat) {b : Nat} (hb : 0 < b) :
    a ≤ ceilDiv a b * b ∧ ceilDiv a b * b < a + b := by
  have hb' : (0 : Int) < b := by omega
  have h1 := Int.mul_ediv_add_emod (-(a : Int)) b
  have h2 := Int.emod_nonneg (-(a : Int)) hb'.ne'
  have h3 := Int.emod_lt_of_pos (-(a : Int)) hb'
  have hneg : -(a : Int) / b ≤ 0 := by
    by_contra hpos
    have h4 : (b : Int) * 1 ≤ b * (-(a : Int) / b) := Int.mul_le_mul_of_nonneg_left (by omega) hb'.le
    omega
  have hcast : ((ceilDiv a b * b : Nat) : Int) = -(b * (-(a : Int) / b)) := by
    rw [ceilDiv, Int.natCast_mul, Int.toNat_of_nonneg (by omega), Int.neg_mul, Int.mul_comm]
  omega

/-- Whole pages are counted exactly. -/
theorem ceilDiv_mul_eq_iff (a : Nat) {b : Nat} (hb : 0 < b) : ceilDiv a b * b = a ↔ b ∣ a := by
  constructor
  · intro h
    exact ⟨ceilDiv a b, by rw [Nat.mul_comm]; exact h.symm⟩
  · rintro ⟨q, rfl⟩
    obtain ⟨h1, h2⟩ := ceilDiv_bounds (b * q) hb
    have h3 : b * q ≤ b * ceilDiv (b * q : Nat) b := by
      rw [Nat.mul_comm b (ceilDiv _ _)]
      exact h1
    have h4 : b * ceilDiv (b * q : Nat) b < b * (q + 1) := by
      rw [Nat.mul_comm b (ceilDiv _ _), Nat.mul_add, Nat.mul_one]
      exact h2
    have h5 := Nat.le_of_mul_le_mul_left h3 hb
    have h6 := Nat.lt_of_mul_lt_mul_left h4
    have h7 : ceilDiv (b * q : Nat) b = q := by omega
    rw [h7, Nat.mul_comm]

/-- The end index that `xs[:k]` means for a sequence of length `n`. -/
def sliceStop (n : Nat) (k : Int) : Nat :=
  if k < 0 then (n + k).toNat else min n k.toNat

/-- `xs[:k]`. -/
def sliceTo {α : Type} (xs : List α) (k : Int) : List α := xs.take (sliceStop xs.length k)

theorem sliceTo_natCast {α : Type} (xs : List α) (k : Nat) : sliceTo xs (k : Int) = xs.take k := by
  have h : ¬ ((k : Int) < 0) := by omega
  simp [sliceTo, sliceStop, h, List.take_eq_take_iff, Nat.min_comm]

theorem sliceStop_natCast (n k : Nat) : sliceStop n (k : Int) = min n k := by
  have h : ¬ ((k : Int) < 0) := by omega
  simp [sliceStop, h]

/-- Free lists are kept sorted (`list.sort`). -/
def sortSlots (xs : List Nat) : List Nat := xs.insertionSort (· ≤ ·)

theorem sortSlots_perm (xs : List Nat) : (sortSlots xs).Perm xs := List.perm_insertionSort _ xs

/-! ### Sampling parameters, requests, batches -/

/-- `SamplingParams`; `temperature == 0` is the sampler's greedy path. -/
structure SamplingParams where
  temperature : Rat := 0
  ignoreEos : Bool := false
  maxTokens : Int
deriving DecidableEq, Repr

/-- `RadixCacheHandle(cached_len, node)`; `none` is the tree's root node. -/
structure RadixCacheHandle where
  cachedLen : Nat
  node : Option Nat
deriving DecidableEq, Repr

/-- `Req`, and `ChunkedReq` when `chunked` is set. `oid` is the object's identity. -/
structure Req where
  oid : Nat
  chunked : Bool
  inputIds : List Token
  tableIdx : Nat
  cachedLen : Int
  outputLen : Int
  uid : Int
  samplingParams : SamplingParams
  cacheHandle : Option RadixCacheHandle
  linearSlotIdx : Option Slot
  mambaPingPong : Option (Slot × Slot)
  mambaRestoreSrc : Option Slot
  deviceLen : Nat
  maxDeviceLen : Nat
  aborted : Bool := false
  toolcallAnchorLen : Option Nat := none
  mambaNextTrackIdx : Nat := 0
  mambaLastTrackSeqlen : Option Nat := none
deriving DecidableEq, Repr

namespace Req

def remainLen (r : Req) : Int := r.maxDeviceLen - r.deviceLen

def extendLen (r : Req) : Int := r.deviceLen - r.cachedLen

/-- `can_decode`; a `ChunkedReq` overrides it with `False`. -/
def canDecode (r : Req) : Bool := !r.chunked && decide (0 < r.remainLen) && !r.aborted

end Req

/-- The phase of a batch; the scheduler never mixes the two. -/
inductive Phase where
  | prefill
  | decode
deriving DecidableEq, Repr

structure Batch where
  reqs : List Req
  phase : Phase
deriving DecidableEq, Repr

/-- `PendingReq`: a queued prompt, with its `ChunkedReq` once it has been split. -/
structure PendingReq where
  uid : Int
  inputIds : List Token
  samplingParams : SamplingParams
  chunkedReq : Option Req := none
  cachedLen : Int := 0
  tableIdx : Nat := 0
  cacheHandle : Option RadixCacheHandle := none
  linearSlotIdx : Option Slot := none
  mambaPingPong : Option (Slot × Slot) := none
  mambaRestoreSrc : Option Slot := none
deriving DecidableEq, Repr

namespace PendingReq

def inputLen (p : PendingReq) : Nat := p.inputIds.length

def outputLen (p : PendingReq) : Int := p.samplingParams.maxTokens

/-- The page-table row of a queued entry: its chunk's once it has been split. -/
def row (p : PendingReq) : Nat :=
  match p.chunkedReq with
  | some chunk => chunk.tableIdx
  | none => p.tableIdx

end PendingReq

/-- What `Engine` calls can raise, with the numbers their messages show. -/
inductive EngineError where
  | linearStateExhausted (need available : Nat)
  | requestCapReached (maxRunningReq : Nat)
  | alreadyAllocated (reqId : Nat)
  | kvPoolFull (need numPages pageSize available : Nat)
  | pageTableShape
  | indexError
  | emptyForward
  | assertion
deriving DecidableEq, Repr

/-- The text of the exception, where the repository itself raises it. -/
def EngineError.message : EngineError → Option String
  | .linearStateExhausted need available =>
      some s!"LinearStatePool exhausted: need {need}, have {available}"
  | .requestCapReached maxRunningReq =>
      some s!"request cap reached (max_running_req={maxRunningReq}); cannot admit a new request"
  | .alreadyAllocated reqId => some s!"request {reqId} already allocated; free it first"
  | .kvPoolFull need numPages pageSize available =>
      some s!"KV pool full: cannot allocate {need} slots ({numPages} pages x {pageSize}); only {available} free"
  | .pageTableShape | .indexError | .emptyForward | .assertion => none

end FreeToken
