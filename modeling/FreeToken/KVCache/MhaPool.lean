import FreeToken.Core

/-!
# `MHAKVCache`

`kvcache/mha_pool.py`: the free list over the pool's slots and the per-request
allocations. Slot 0 is reserved. Free lists are kept sorted by the source.
-/

namespace FreeToken

structure MHAKVCache where
  pageSize : Nat
  numPages : Nat
  freeSlots : List Slot
  /-- `_alloc`: request id to its slots, in order. -/
  alloc : Nat → Option (List Slot)

namespace MHAKVCache

def numSlots (kv : MHAKVCache) : Nat := kv.numPages * kv.pageSize

/-- The slots a pool may hand out: all but slot 0. -/
def usable (numSlots : Nat) : List Slot := (List.range numSlots).drop 1

def init (pageSize numPages : Nat) : MHAKVCache where
  pageSize := pageSize
  numPages := numPages
  freeSlots := usable (numPages * pageSize)
  alloc := fun _ => none

/-- `allocate`: the first `num_pages * page_size` free slots. -/
def allocate (kv : MHAKVCache) (reqId numPages : Nat) :
    Except EngineError (List Slot × MHAKVCache) :=
  let need := numPages * kv.pageSize
  if (kv.alloc reqId).isSome then .error (.alreadyAllocated reqId)
  else if need > kv.freeSlots.length then
    .error (.kvPoolFull need numPages kv.pageSize kv.freeSlots.length)
  else
    .ok (kv.freeSlots.take need,
      { kv with
        freeSlots := kv.freeSlots.drop need
        alloc := Function.update kv.alloc reqId (some (kv.freeSlots.take need)) })

/-- `free_slots`: raw slots back to the free list. -/
def releaseSlots (kv : MHAKVCache) (slots : List Slot) : MHAKVCache :=
  if slots.isEmpty then kv
  else { kv with freeSlots := sortSlots (kv.freeSlots ++ slots) }

/-- `free`: a request's own slots back to the free list. -/
def free (kv : MHAKVCache) (reqId : Nat) : MHAKVCache :=
  match kv.alloc reqId with
  | none => kv
  | some slots =>
      { kv with
        freeSlots := sortSlots (kv.freeSlots ++ slots)
        alloc := Function.update kv.alloc reqId none }

/-- `detach`: forget the allocation, the slots stay with their new owner. -/
def detach (kv : MHAKVCache) (reqId : Nat) : MHAKVCache :=
  { kv with alloc := Function.update kv.alloc reqId none }

end MHAKVCache

end FreeToken
