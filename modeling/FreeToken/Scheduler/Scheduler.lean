import FreeToken.Scheduler.Prefill

/-!
# The scheduler

`scheduler/decode.py` and `scheduler/scheduler.py`: page-table rows, the pending
queue and the running set. `schedule` picks a prefill batch if one can be built and
a decode batch otherwise; `complete` is handed the batch back after it ran.
-/

namespace FreeToken

/-! ### Decode batching -/

/-- The ordered set of running requests. It is keyed by object identity, so a request that comes
back from a step replaces the entry with the same `oid` in place and a new one is appended. -/
structure DecodeManager where
  pageSize : Nat
  runningReqs : List Req := []
deriving DecidableEq, Repr

/-- `merged[req] = None` on the ordered dict. -/
def mergeReq (running : List Req) (req : Req) : List Req :=
  if running.any (fun r => r.oid == req.oid) then
    running.map fun r => if r.oid = req.oid then req else r
  else running ++ [req]

namespace DecodeManager

def filterReqs (m : DecodeManager) (reqs : List Req) : DecodeManager :=
  { m with runningReqs := (reqs.foldl mergeReq m.runningReqs).filter Req.canDecode }

/-- `abort_req`: the first running request with this uid. -/
def abortReq (m : DecodeManager) (uid : Int) : Option Req × DecodeManager :=
  match m.runningReqs.find? (fun r => r.uid = uid) with
  | none => (none, m)
  | some req => (some req, { m with runningReqs := m.runningReqs.filter (fun r => r.oid ≠ req.oid) })

def inflightTokens (m : DecodeManager) : Int :=
  (m.runningReqs.map Req.remainLen).sum + (m.pageSize - 1 : Int) * m.runningReqs.length

/-- `schedule_next_batch`: every running request, in uid order (`sorted` is stable). -/
def scheduleNextBatch (m : DecodeManager) : Option Batch :=
  if m.runningReqs.isEmpty then none
  else some { reqs := m.runningReqs.insertionSort (fun a b => a.uid ≤ b.uid), phase := .decode }

end DecodeManager

/-! ### Rows and batches -/

structure Scheduler where
  maxRunningReq : Nat
  maxExtendTokens : Nat
  maxPages : Nat
  cacheBudget : Nat
  nextUid : Int := 0
  freeSlots : List Nat
  prefillManager : PrefillManager
  decodeManager : DecodeManager
deriving DecidableEq, Repr

namespace Scheduler

def init (maxRunningReq maxExtendTokens pageSize maxPages cacheBudget : Nat) : Scheduler where
  maxRunningReq := maxRunningReq
  maxExtendTokens := maxExtendTokens
  maxPages := maxPages
  cacheBudget := cacheBudget
  freeSlots := List.range maxRunningReq
  prefillManager :=
    { maxRunningReq := maxRunningReq, cacheBudget := cacheBudget, pageSize := pageSize }
  decodeManager := { pageSize := pageSize }

/-- The pending queue and the running set, under the names of the managers' fields. -/
def pendingList (s : Scheduler) : List PendingReq := s.prefillManager.pendingList

def runningReqs (s : Scheduler) : List Req := s.decodeManager.runningReqs

/-- `add`: pops the lowest free row. -/
def add (s : Scheduler) (pending : PendingReq) : Except EngineError (PendingReq × Scheduler) :=
  match s.freeSlots with
  | [] => .error (.requestCapReached s.maxRunningReq)
  | tableIdx :: freeSlots =>
      let pending := { pending with tableIdx := tableIdx }
      .ok (pending,
        { s with
          freeSlots := freeSlots
          prefillManager := s.prefillManager.addOneReq pending
          nextUid := max s.nextUid (pending.uid + 1) })

/-- `abort`: a queued entry first (its row is on its chunk once it was split),
then a running request. -/
def abort (s : Scheduler) (uid : Int) : Bool × Scheduler :=
  match s.pendingList.findIdx? (fun pr => pr.uid = uid) with
  | some i =>
      let freed := s.pendingList[i]?.toList.map PendingReq.row
      (true,
        { s with
          prefillManager := { s.prefillManager with pendingList := s.pendingList.eraseIdx i }
          freeSlots := sortSlots (s.freeSlots ++ freed) })
  | none =>
      match s.decodeManager.abortReq uid with
      | (some req, decodeManager) =>
          (true,
            { s with
              decodeManager := decodeManager
              freeSlots := sortSlots (s.freeSlots ++ [req.tableIdx]) })
      | (none, _) => (false, s)

/-- `schedule`: prefill first, else decode. -/
def schedule (s : Scheduler) : Option (Batch × Scheduler) :=
  match s.prefillManager.scheduleNextBatch s.decodeManager.inflightTokens
      s.runningReqs.length s.maxExtendTokens with
  | some (batch, prefillManager) => some (batch, { s with prefillManager := prefillManager })
  | none => s.decodeManager.scheduleNextBatch.map fun batch => (batch, s)

/-- The rows `complete` frees: of requests that left the running set, then of
aborted requests of the batch that the before/after difference missed. -/
def freedRows (before after batchReqs : List Req) : List Nat :=
  let freed := (before.filter fun r => !after.any (fun r' => r'.oid == r.oid)).map Req.tableIdx
  batchReqs.foldl
    (fun freed req =>
      if req.aborted && !freed.contains req.tableIdx then freed ++ [req.tableIdx] else freed)
    freed

/-- `complete`, called with the batch as the step left it. -/
def complete (s : Scheduler) (batchReqs : List Req) : Scheduler :=
  let decodeManager := s.decodeManager.filterReqs batchReqs
  let freed := freedRows s.runningReqs decodeManager.runningReqs batchReqs
  { s with
    decodeManager := decodeManager
    freeSlots := if freed.isEmpty then s.freeSlots else sortSlots (s.freeSlots ++ freed) }

end Scheduler

end FreeToken
