import FreeToken.Core

/-!
# Chunked-prefill admission

`scheduler/prefill.py`: the `PrefillAdder` that fills one prefill batch within
the token budget, and the `PrefillManager` that keeps the pending queue. Every
`Req` the adder builds is a new object, so the adder is handed the identity the
next object will get.
-/

namespace FreeToken

/-! ### `PrefillAdder` -/

structure PrefillAdder where
  tokenBudget : Int
  stepBudget : Int
  reservedSize : Int
  maxRunningReq : Nat
  cacheBudget : Nat
  runningCount : Nat
deriving DecidableEq, Repr

/-- `Req.__init__` and `__post_init__`, as `_add_one_req` calls them. -/
def PendingReq.newReq (p : PendingReq) (oid : Nat) (chunked : Bool) (inputIds : List Token)
    (tableIdx : Nat) (cachedLen : Int) (cacheHandle : Option RadixCacheHandle) : Req where
  oid := oid
  chunked := chunked
  inputIds := inputIds
  tableIdx := tableIdx
  cachedLen := cachedLen
  outputLen := p.outputLen
  uid := p.uid
  samplingParams := p.samplingParams
  cacheHandle := cacheHandle
  linearSlotIdx := p.linearSlotIdx
  mambaPingPong := p.mambaPingPong
  mambaRestoreSrc := p.mambaRestoreSrc
  deviceLen := inputIds.length
  maxDeviceLen := inputIds.length + p.outputLen.toNat

namespace PrefillAdder

/-- `_try_allocate_one`: the running cap, then the pool budget. -/
def tryAllocateOne (a : PrefillAdder) (req : PendingReq) : Option Int × PrefillAdder :=
  if a.runningCount ≥ a.maxRunningReq then (none, a)
  else
    let extendLen : Int := req.inputLen - req.cachedLen
    let estimatedLen := extendLen + req.outputLen
    if a.reservedSize + estimatedLen > a.cacheBudget then (none, a)
    else
      (some req.cachedLen,
        { a with
          reservedSize := a.reservedSize + (extendLen + req.outputLen)
          runningCount := a.runningCount + 1 })

/-- `_undo_allocation`. -/
def undoAllocation (a : PrefillAdder) (req : PendingReq) : PrefillAdder :=
  { a with
    reservedSize := a.reservedSize - ((req.inputLen - req.cachedLen) + req.outputLen)
    runningCount := a.runningCount - 1 }

/-- The number of tokens `_add_one_req` extends by: a budget-sized slice for a
chunked prompt, all or nothing otherwise. -/
def chunkSize (a : PrefillAdder) (remainLen : Int) (chunked : Bool) : Option Int :=
  if chunked then
    if min a.tokenBudget remainLen ≤ 0 then none else some (min a.tokenBudget remainLen)
  else if remainLen > a.tokenBudget then none
  else some remainLen

/-- `_add_one_req`. -/
def addOneReq (a : PrefillAdder) (oid : Nat) (pendingReq : PendingReq) (tableIdx : Nat)
    (cachedLen : Int) (cacheHandle : Option RadixCacheHandle) (chunked : Bool) :
    Option Req × PrefillAdder :=
  let remainLen : Int := pendingReq.inputLen - cachedLen
  match a.chunkSize remainLen chunked with
  | none => (none, a)
  | some chunkSize =>
      let isChunked := decide (chunkSize < remainLen)
      let inputIds := sliceTo pendingReq.inputIds (cachedLen + chunkSize)
      (some (pendingReq.newReq oid isChunked inputIds tableIdx cachedLen cacheHandle),
        { a with tokenBudget := a.tokenBudget - chunkSize })

/-- `try_add_one`: a continuation resumes its chunk at `device_len`; a fresh
prompt passes the pool gates first and may be chunked only as the first of the
step. -/
def tryAddOne (a : PrefillAdder) (oid : Nat) (pendingReq : PendingReq) :
    Option Req × PrefillAdder :=
  if a.tokenBudget ≤ 0 then (none, a)
  else
    match pendingReq.chunkedReq with
    | some chunk =>
        a.addOneReq oid pendingReq chunk.tableIdx chunk.deviceLen chunk.cacheHandle true
    | none =>
        match a.tryAllocateOne pendingReq with
        | (none, a) => (none, a)
        | (some resource, a) =>
            let firstInStep := decide (a.tokenBudget = a.stepBudget)
            match a.addOneReq oid pendingReq pendingReq.tableIdx resource
                pendingReq.cacheHandle firstInStep with
            | (none, a) => (none, a.undoAllocation pendingReq)
            | (some req, a) => (some req, a)

end PrefillAdder

/-! ### `PrefillManager` -/

structure PrefillManager where
  maxRunningReq : Nat
  cacheBudget : Nat
  pageSize : Nat
  pendingList : List PendingReq := []
  /-- The identity of the next `Req` object. -/
  nextOid : Nat := 0
deriving DecidableEq, Repr

/-- What one pass over the queue produced: the batch, the entries that stay at
the front with a chunk, and the entries that were not admitted. -/
structure Admission where
  reqs : List Req := []
  chunkedList : List PendingReq := []
  unadmitted : List PendingReq := []
  nextOid : Nat
deriving DecidableEq, Repr

/-- The loop of `schedule_next_batch` over the queue. A continuation that gets
no budget ends the pass; a fresh prompt that does not fit is skipped. -/
def admitLoop (a : PrefillAdder) (oid : Nat) : List PendingReq → Admission
  | [] => { nextOid := oid }
  | p :: ps =>
      match a.tryAddOne oid p with
      | (some req, a) =>
          let tail := admitLoop a (oid + 1) ps
          if req.chunked then
            { tail with
              reqs := req :: tail.reqs
              chunkedList := { p with chunkedReq := some req } :: tail.chunkedList }
          else { tail with reqs := req :: tail.reqs }
      | (none, a) =>
          if p.chunkedReq.isSome then { unadmitted := p :: ps, nextOid := oid }
          else
            let tail := admitLoop a oid ps
            { tail with unadmitted := p :: tail.unadmitted }

namespace PrefillManager

def addOneReq (m : PrefillManager) (pendingReq : PendingReq) : PrefillManager :=
  { m with pendingList := m.pendingList ++ [pendingReq] }

/-- `schedule_next_batch`; the decode manager enters through its in-flight
token count and the size of its running set. -/
def scheduleNextBatch (m : PrefillManager) (inflightTokens : Int) (runningCount : Nat)
    (prefillBudget : Nat) : Option (Batch × PrefillManager) :=
  if m.pendingList.isEmpty then none
  else
    let adder : PrefillAdder :=
      { tokenBudget := prefillBudget
        stepBudget := prefillBudget
        reservedSize := inflightTokens
        maxRunningReq := m.maxRunningReq
        cacheBudget := m.cacheBudget
        runningCount := runningCount }
    let admission := admitLoop adder m.nextOid m.pendingList
    if admission.reqs.isEmpty then none
    else
      some ({ reqs := admission.reqs, phase := .prefill },
        { m with
          pendingList := admission.chunkedList ++ admission.unadmitted
          nextOid := admission.nextOid })

end PrefillManager

end FreeToken
