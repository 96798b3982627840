import FreeToken.Engine.State

/-!
# `Engine.abort_request`

The handle is unlocked, the linear-state slots are freed, and the scheduler
drops the request; the rows it frees give their KV slots back.
-/

namespace FreeToken

namespace Engine

/-- `_find_cache_handle`: the pending queue first, then the decode set. -/
def findCacheHandle (e : Engine) (uid : Int) : Option RadixCacheHandle :=
  match e.scheduler.pendingList.find? fun p => p.uid = uid with
  | some p =>
      match p.chunkedReq with
      | some chunk => chunk.cacheHandle
      | none => p.cacheHandle
  | none => (e.scheduler.runningReqs.find? fun r => r.uid = uid).bind Req.cacheHandle

/-- The live and ping-pong slots of the request with this uid. -/
def findLinearSlots (e : Engine) (uid : Int) : Option Slot × Option (Slot × Slot) :=
  match e.scheduler.pendingList.find? fun p => p.uid = uid with
  | some p => (p.linearSlotIdx, p.mambaPingPong)
  | none =>
      match e.scheduler.runningReqs.find? fun r => r.uid = uid with
      | some r => (r.linearSlotIdx, r.mambaPingPong)
      | none => (none, none)

/-- The slots `abort_request` frees: an abort preserves nothing. -/
def slotsToFree (live : Option Slot) (pingPong : Option (Slot × Slot)) : List Slot :=
  match live with
  | none => []
  | some s =>
      match pingPong with
      | none => [s]
      | some (track0, track1) => [s, track0, track1]

def unlockHandle (e : Engine) (handle : Option RadixCacheHandle) : Option Engine :=
  match e.cacheManager, handle with
  | some c, some h => (c.unlock h).map fun c => { e with cacheManager := some c }
  | _, _ => some e

def freeLinear (e : Engine) (slots : List Slot) : Engine :=
  { e with linearStatePool := e.linearStatePool.map fun pool => pool.free slots }

/-- `_full_ids.pop` and `_admitted_cached_len.pop` of the freed rows. -/
def forgetRows (e : Engine) (before : List Nat) : Engine :=
  let freed := e.scheduler.freeSlots.filter fun row => row ∉ before
  { e with
    fullIds := fun row => if row ∈ freed then none else e.fullIds row
    admittedCachedLen := fun row => if row ∈ freed then none else e.admittedCachedLen row }

/-- `abort_request`; it raises only where `unlock` asserts. -/
def abortRequest (e : Engine) (uid : Int) : Except EngineError (Bool × Engine) :=
  match e.unlockHandle (e.findCacheHandle uid) with
  | none => .error .assertion
  | some e =>
      let (live, pingPong) := e.findLinearSlots uid
      let e := e.freeLinear (slotsToFree live pingPong)
      let before := e.scheduler.freeSlots
      let (ok, scheduler) := e.scheduler.abort uid
      let e := { e with scheduler := scheduler }
      if ok then .ok (true, (e.freeRows before).forgetRows before) else .ok (false, e)

end Engine

end FreeToken
