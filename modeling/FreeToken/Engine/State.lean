import FreeToken.Scheduler.Scheduler
import FreeToken.KVCache.RadixCache
import FreeToken.KVCache.MhaPool
import FreeToken.KVCache.LinearStatePool
import FreeToken.Lib.Dict

/-!
# The engine's state

What `Engine.__init__` builds and the calls of `engine.py` change: the KV pool
and its page table, the prefix cache, the linear-state pool with the anchor
snapshots, and the scheduler. The tensors behind the pools are not part of this
state; the modules about K/V and recurrent state put them next to it.
-/

namespace FreeToken

/-- The configuration as `Engine.__init__` has resolved it: `maxSeqLen` is the
served context, `numPages` the pool size before the slack page. -/
structure EngineConfig where
  maxRunningReq : Nat
  pageSize : Nat
  maxSeqLen : Nat
  numPages : Nat
  maxExtendTokens : Nat
  enablePrefixCache : Bool
  /-- The model has `linear_attn` layers. -/
  hybrid : Bool := false
  /-- `-1` when the checkpoint declares none. -/
  eosTokenId : Int := -1
  toolcallAnchorId : Option Token := none
  maxRunningReq_pos : 0 < maxRunningReq := by decide
  pageSize_pos : 0 < pageSize := by decide
  maxSeqLen_pos : 0 < maxSeqLen := by decide
  maxExtendTokens_pos : 0 < maxExtendTokens := by decide
deriving DecidableEq, Repr

structure Engine where
  config : EngineConfig
  kvCache : MHAKVCache
  pageTable : Nat → Nat → Slot
  /-- `CacheManager` is a thin wrapper over the radix cache. -/
  cacheManager : Option RadixPrefixCache
  fullIds : Nat → Option (List Token)
  admittedCachedLen : Nat → Option Int
  linearStatePool : Option LinearStatePool
  /-- `_mamba_anchor_snapshots`, a dict. -/
  mambaAnchorSnapshots : List (List Token × Slot)
  scheduler : Scheduler
  poolNumPages : Nat
  poolBudget : Nat

namespace Engine

/-- `_build_hybrid_linear_pool`: three slots a request and the padding slot. -/
def buildHybridLinearPool (config : EngineConfig) : Option LinearStatePool :=
  if config.hybrid then some (LinearStatePool.init (3 * config.maxRunningReq + 1)) else none

def init (config : EngineConfig) : Engine where
  config := config
  kvCache := MHAKVCache.init config.pageSize (config.numPages + 1)
  pageTable := fun _ _ => 0
  cacheManager := if config.enablePrefixCache then some { pageSize := config.pageSize } else none
  fullIds := fun _ => none
  admittedCachedLen := fun _ => none
  linearStatePool := if config.enablePrefixCache then buildHybridLinearPool config else none
  mambaAnchorSnapshots := []
  scheduler := Scheduler.init config.maxRunningReq config.maxExtendTokens config.pageSize
    (config.numPages + 1) ((config.numPages + 1) * config.pageSize)
  poolNumPages := config.numPages + 1
  poolBudget := (config.numPages + 1) * config.pageSize

/-- `page_table[row, a:b]` for a row of `max_seq_len` entries. -/
def rowSlice (e : Engine) (row a b : Nat) : List Slot :=
  (List.range' a (min b e.config.maxSeqLen - a)).map (e.pageTable row)

/-- `page_table[row, a:b] = values`; the shapes must agree. -/
def assignRow (e : Engine) (row : Nat) (a b : Nat) (values : List Slot) : Option Engine :=
  if b - a = values.length then
    some { e with
      pageTable := Function.update e.pageTable row fun j =>
        if a ≤ j then (values[j - a]?).getD (e.pageTable row j) else e.pageTable row j }
  else none

/-- `_free_slot` of every row in `set(after) - before`. -/
def freeRows (e : Engine) (before : List Nat) : Engine :=
  { e with
    kvCache := (e.scheduler.freeSlots.filter fun row => row ∉ before).foldl MHAKVCache.free e.kvCache }

end Engine

end FreeToken
