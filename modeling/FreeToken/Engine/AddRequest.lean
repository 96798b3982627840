import FreeToken.Engine.State

/-!
# `Engine.add_request`

Match and lock, linear-state slots, scheduler admission, KV allocation: each
stage may raise, and the engine is then left as the stages before it made it.
So a call is a result together with the engine afterwards, whatever the result.
-/

namespace FreeToken

/-- The fields of the caller's `Req` that `add_request` reads. -/
structure AddArgs where
  uid : Int
  inputIds : List Token
  samplingParams : SamplingParams
deriving DecidableEq, Repr

namespace Engine

/-- What the prefix-cache block of `add_request` hands on. -/
structure PromptMatch where
  cachedLen : Int
  cacheHandle : Option RadixCacheHandle
  matchedIndices : List Slot
  engine : Engine

/-- Match the prompt, leave its last token uncached, lock the matched span. -/
def matchPrompt (e : Engine) (inputIds : List Token) : PromptMatch :=
  match e.cacheManager with
  | none => { cachedLen := 0, cacheHandle := none, matchedIndices := [], engine := e }
  | some c =>
      let (m, c) := c.matchPrefix inputIds
      let c := c.lock m.handle
      { cachedLen := alignDown (min m.cachedLen (inputIds.length - 1)) e.config.pageSize
        cacheHandle := some m.handle
        matchedIndices := c.getMatchedIndices m.handle
        engine := { e with cacheManager := some c } }

/-- The live slot and the two track slots, on a hybrid engine. -/
def allocLinear (e : Engine) : Except EngineError (Option (Slot × Slot × Slot) × Engine) :=
  match e.linearStatePool with
  | none => .ok (none, e)
  | some pool =>
      match pool.alloc3 with
      | .error err => .error err
      | .ok (slots, pool) => .ok (some slots, { e with linearStatePool := some pool })

/-- The anchor snapshot for exactly the cached prefix, if one is recorded. -/
def restoreSrc (e : Engine) (inputIds : List Token) (cachedLen : Int) : Option Slot :=
  if e.linearStatePool.isSome ∧ cachedLen ≠ 0 then
    dictGet (sliceTo inputIds cachedLen) e.mambaAnchorSnapshots
  else none

/-- `make_pending_req`. -/
def makePendingReq (args : AddArgs) (m : PromptMatch) (slots : Option (Slot × Slot × Slot))
    (src : Option Slot) : PendingReq where
  uid := args.uid
  inputIds := args.inputIds
  samplingParams := args.samplingParams
  cachedLen := m.cachedLen
  cacheHandle := m.cacheHandle
  linearSlotIdx := slots.map fun s => s.1
  mambaPingPong := slots.map fun s => s.2
  mambaRestoreSrc := src

/-- `kv_cache.allocate`, with one retry after evicting from the tree. -/
def allocateOrEvict (e : Engine) (tableIdx numPages : Nat) :
    Except EngineError (List Slot) × Engine :=
  match e.kvCache.allocate tableIdx numPages with
  | .ok (slots, kv) => (.ok slots, { e with kvCache := kv })
  | .error err =>
      match e.cacheManager with
      | none => (.error err, e)
      | some c =>
          let toEvict := min ((numPages * e.config.pageSize : Nat) : Int) c.evictableSize
          if toEvict ≤ 0 then (.error err, e)
          else
            match c.evict toEvict.toNat with
            | none => (.error .assertion, e)
            | some (evicted, c) =>
                let kv := e.kvCache.releaseSlots evicted
                match kv.allocate tableIdx numPages with
                | .error err => (.error err, { e with cacheManager := some c, kvCache := kv })
                | .ok (slots, kv) =>
                    (.ok slots, { e with cacheManager := some c, kvCache := kv })

/-- The pages `_allocate_slot` asks for. -/
def pagesFor (e : Engine) (cachedLen : Int) : Nat :=
  ceilDiv (e.config.maxSeqLen - cachedLen) e.config.pageSize

/-- `_allocate_slot`. -/
def allocateSlot (e : Engine) (tableIdx : Nat) (cachedLen : Int) (matchedIndices : List Slot) :
    Except EngineError Unit × Engine :=
  let stop := sliceStop e.config.maxSeqLen cachedLen
  let matched := if cachedLen = 0 then [] else sliceTo matchedIndices cachedLen
  match e.assignRow tableIdx 0 stop matched with
  | none => (.error .pageTableShape, e)
  | some e =>
      match e.allocateOrEvict tableIdx (e.pagesFor cachedLen) with
      | (.error err, e) => (.error err, e)
      | (.ok slots, e) =>
          let remaining : Int := e.config.maxSeqLen - cachedLen
          match e.assignRow tableIdx stop e.config.maxSeqLen (slots.take remaining.toNat) with
          | none => (.error .pageTableShape, e)
          | some e => (.ok (), e)

/-- `add_request`; the entry it queues stands for the request it returns. -/
def addRequest (e : Engine) (args : AddArgs) : Except EngineError PendingReq × Engine :=
  let m := e.matchPrompt args.inputIds
  match m.engine.allocLinear with
  | .error err => (.error err, m.engine)
  | .ok (slots, e) =>
      let pending := makePendingReq args m slots (e.restoreSrc args.inputIds m.cachedLen)
      match e.scheduler.add pending with
      | .error err => (.error err, e)
      | .ok (pending, scheduler) =>
          let e :=
            { e with
              scheduler := scheduler
              admittedCachedLen :=
                if e.cacheManager.isSome then
                  Function.update e.admittedCachedLen pending.tableIdx (some m.cachedLen)
                else e.admittedCachedLen }
          match e.allocateSlot pending.tableIdx m.cachedLen m.matchedIndices with
          | (.error err, e) => (.error err, e)
          | (.ok (), e) => (.ok pending, e)

end Engine

end FreeToken
