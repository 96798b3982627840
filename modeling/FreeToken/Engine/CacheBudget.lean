import Mathlib.Data.Rat.Floor
import Mathlib.Algebra.Order.Field.Rat

/-!
# The VRAM split of `cache_budget.py`

Sizes and counts are Python ints; the memory ratio and the MoE fraction are exact rationals. The
pages a plan returns are those `Engine.__init__` adds its slack page to before it builds the pool.
-/

namespace FreeToken

/-- `int(x)`. -/
def pyInt (x : ℚ) : Int := if 0 ≤ x then ⌊x⌋ else ⌈x⌉

/-- What `_bytes_per_kv_token` and the KV pool read of the model. -/
structure KvShape where
  numLayers : Int
  numKvHeads : Int
  headDim : Int
  dtypeBytes : Int
deriving DecidableEq

/-- What `_bytes_per_expert_slot` reads. -/
structure ExpertShape where
  moeIntermediateSize : Int
  hiddenSize : Int
  dtypeBytes : Int
deriving DecidableEq

/-- The `ValueError`s, with the numbers in their texts. -/
inductive BudgetError where
  /-- `memory_ratio must be in (0, 1]` -/
  | memoryRatio (ratio : ℚ)
  /-- `total_vram_bytes must be positive` -/
  | totalVram (total : Int)
  /-- `kv_reserve_tokens must be positive` -/
  | kvReserve (tokens : Int)
  /-- `plan_cache_budget is for MoE models` -/
  | notMoe
  /-- `moe_fraction must be in (0, 1] when set` -/
  | moeFraction (fraction : ℚ)
  /-- `bytes_per_slot_override must be positive` -/
  | bytesPerSlot (bytes : Int)
  /-- `plan_cache_budget needs positive moe_intermediate_size / hidden_size / dtype_bytes` -/
  | expertShape
  /-- `plan_cache_budget needs positive num_layers / num_kv_heads / head_dim / dtype_bytes` -/
  | kvShape
  /-- `VRAM budget cannot cover the MoE cache floor and the KV reserve together` -/
  | cannotCover (budget kvFloorBytes minSlots minMoeBytes : Int)
  /-- `requested_num_pages must be positive` -/
  | requestedPages (pages : Int)
  /-- `reserved_pages must be non-negative` -/
  | reservedPages (pages : Int)
  /-- `VRAM budget cannot fit even one KV page alongside the pinned MoE cache` -/
  | noPage (budget moeCacheSize moeBytes reservedPages : Int)
deriving DecidableEq

/-- `_bytes_per_expert_slot`. -/
def bytesPerExpertSlot (shape : ExpertShape) : Except BudgetError Int :=
  if shape.moeIntermediateSize ≤ 0 ∨ shape.hiddenSize ≤ 0 ∨ shape.dtypeBytes ≤ 0 then
    .error .expertShape
  else
    let gateUp := 2 * shape.moeIntermediateSize * shape.hiddenSize
    let down := shape.hiddenSize * shape.moeIntermediateSize
    .ok ((gateUp + down) * shape.dtypeBytes)

/-- `_bytes_per_kv_token`. -/
def bytesPerKvToken (shape : KvShape) : Except BudgetError Int :=
  if shape.numLayers ≤ 0 ∨ shape.numKvHeads ≤ 0 ∨ shape.headDim ≤ 0 ∨ shape.dtypeBytes ≤ 0 then
    .error .kvShape
  else .ok (2 * shape.numLayers * shape.numKvHeads * shape.headDim * shape.dtypeBytes)

/-- The bytes of a slot: the override, or the bf16 formula. -/
def bytesPerSlot (override : Option Int) (shape : ExpertShape) : Except BudgetError Int :=
  match override with
  | some bytes => if bytes ≤ 0 then .error (.bytesPerSlot bytes) else .ok bytes
  | none => bytesPerExpertSlot shape

/-- The arguments of `plan_cache_budget`; `num_moe_layers` is only checked. -/
structure PlanArgs where
  totalVramBytes : Int
  memoryRatio : ℚ
  kvReserveTokens : Int
  numExperts : Int
  expert : ExpertShape
  numMoeLayers : Int
  kv : KvShape
  minMoeCacheSize : Option Int := none
  moeFraction : Option ℚ := none
  bytesPerSlotOverride : Option Int := none

structure CacheBudget where
  budgetBytes : Int
  moeCacheBytes : Int
  kvBytes : Int
  moeCacheSize : Int
  kvNumPages : Int
  kvIsFloored : Bool
deriving DecidableEq

def PlanArgs.minSlots (a : PlanArgs) : Int := a.minMoeCacheSize.getD a.numExperts

def PlanArgs.budget (a : PlanArgs) : Int := pyInt (a.totalVramBytes * a.memoryRatio)

/-- The split, when the floors fit into the budget. -/
def PlanArgs.split (a : PlanArgs) (bytesPerSlot bytesPerKvToken : Int) : CacheBudget :=
  let kvFloorBytes := a.kvReserveTokens * bytesPerKvToken
  let moeAvailable :=
    match a.moeFraction with
    | none => a.budget - kvFloorBytes
    | some fraction => min (a.budget - kvFloorBytes) (pyInt (a.budget * fraction))
  let moeCacheSize := max a.minSlots (moeAvailable.fdiv bytesPerSlot)
  let moeBytes := moeCacheSize * bytesPerSlot
  let kvBytes := a.budget - moeBytes
  let kvNumPages := max a.kvReserveTokens (kvBytes.fdiv bytesPerKvToken)
  ⟨a.budget, moeBytes, kvBytes, moeCacheSize, kvNumPages, kvNumPages = a.kvReserveTokens⟩

/-- `plan_cache_budget`. -/
def planCacheBudget (a : PlanArgs) : Except BudgetError CacheBudget :=
  if a.memoryRatio ≤ 0 ∨ 1 < a.memoryRatio then .error (.memoryRatio a.memoryRatio)
  else if a.totalVramBytes ≤ 0 then .error (.totalVram a.totalVramBytes)
  else if a.kvReserveTokens ≤ 0 then .error (.kvReserve a.kvReserveTokens)
  else if a.numExperts ≤ 0 ∨ a.numMoeLayers ≤ 0 then .error .notMoe
  else
    match a.moeFraction.filter (fun fraction => fraction ≤ 0 ∨ 1 < fraction) with
    | some fraction => .error (.moeFraction fraction)
    | none =>
        match bytesPerSlot a.bytesPerSlotOverride a.expert with
        | .error e => .error e
        | .ok bytesPerSlot =>
            match bytesPerKvToken a.kv with
            | .error e => .error e
            | .ok bytesPerKvToken =>
                let kvFloorBytes := a.kvReserveTokens * bytesPerKvToken
                let minMoeBytes := a.minSlots * bytesPerSlot
                if a.budget < kvFloorBytes + minMoeBytes then
                  .error (.cannotCover a.budget kvFloorBytes a.minSlots minMoeBytes)
                else .ok (a.split bytesPerSlot bytesPerKvToken)

/-- The arguments of `check_pinned_kv_fit`. -/
structure PinnedArgs where
  totalVramBytes : Option Int
  memoryRatio : ℚ
  moeCacheSize : Int
  kv : KvShape
  requestedNumPages : Int
  expert : ExpertShape
  bytesPerSlotOverride : Option Int := none
  reservedPages : Int := 0

/-- What the reason for a cap tells. -/
structure CapReason where
  requestedNumPages : Int
  fitPages : Int
  budget : Int
  moeCacheSize : Int
  moeBytes : Int
  reservedPages : Int
deriving DecidableEq

/-- The bytes of the pinned MoE cache; a dense model has none. -/
def PinnedArgs.moeBytes (a : PinnedArgs) : Except BudgetError Int :=
  if 0 < a.moeCacheSize then
    match bytesPerSlot a.bytesPerSlotOverride a.expert with
    | .error e => .error e
    | .ok bytesPerSlot => .ok (a.moeCacheSize * bytesPerSlot)
  else .ok 0

/-- `check_pinned_kv_fit`. -/
def checkPinnedKvFit (a : PinnedArgs) : Except BudgetError (Int × Option CapReason) :=
  match a.totalVramBytes with
  | none => .ok (a.requestedNumPages, none)
  | some total =>
      if a.memoryRatio ≤ 0 ∨ 1 < a.memoryRatio then .error (.memoryRatio a.memoryRatio)
      else if a.requestedNumPages ≤ 0 then .error (.requestedPages a.requestedNumPages)
      else if a.reservedPages < 0 then .error (.reservedPages a.reservedPages)
      else
        let budget := pyInt (total * a.memoryRatio)
        match a.moeBytes with
        | .error e => .error e
        | .ok moeBytes =>
            match bytesPerKvToken a.kv with
            | .error e => .error e
            | .ok bytesPerKvToken =>
                let fitPages := (max 0 (budget - moeBytes)).fdiv bytesPerKvToken
                let fitPagesForCaller := fitPages - a.reservedPages
                if fitPagesForCaller ≤ 0 then
                  .error (.noPage budget a.moeCacheSize moeBytes a.reservedPages)
                else if a.requestedNumPages ≤ fitPagesForCaller then
                  .ok (a.requestedNumPages, none)
                else
                  .ok (fitPagesForCaller, some ⟨a.requestedNumPages, fitPagesForCaller, budget,
                    a.moeCacheSize, moeBytes, a.reservedPages⟩)

/-! ### The engine -/

/-- The MoE cache size that `Engine._check_pinned_kv_fit` reckons with, which is the loader's. -/
def pinnedMoeCacheSize (plannedCacheSize : Option Int) (numExperts numMoeLayers : Int) : Int :=
  match plannedCacheSize.filter (fun size => size ≠ 0 ∧ numExperts ≠ 0 ∧ numExperts ≤ size) with
  | some size => size
  | none =>
      if numExperts ≠ 0 ∧ numMoeLayers ≠ 0 then numExperts + max 2 numMoeLayers else 0

/-- What the engine passes on to `check_pinned_kv_fit`. -/
structure PinnedConfig where
  totalVramBytes : Int
  memoryRatio : ℚ
  plannedCacheSize : Option Int
  numExperts : Int
  numMoeLayers : Int
  kv : KvShape
  expert : ExpertShape
  requestedNumPages : Int

/-- `Engine._check_pinned_kv_fit` on a live device, with the slack page reserved. -/
def PinnedConfig.args (c : PinnedConfig) : PinnedArgs where
  totalVramBytes := some c.totalVramBytes
  memoryRatio := c.memoryRatio
  moeCacheSize := pinnedMoeCacheSize c.plannedCacheSize c.numExperts c.numMoeLayers
  kv := c.kv
  requestedNumPages := c.requestedNumPages
  expert := c.expert
  reservedPages := 1

/-- `num_pages += 1`, in both modes. -/
def enginePages (numPages : Int) : Int := numPages + 1

/-- The bytes of `k_buffer` and `v_buffer`. -/
def kvPoolBytes (shape : KvShape) (numPages pageSize : Int) : Int :=
  let numSlots := numPages * pageSize
  2 * (shape.numLayers * numSlots * shape.numKvHeads * shape.headDim * shape.dtypeBytes)

/-- The slots that `MHAKVCache` hands out: all but slot 0. -/
def kvCapacity (numPages pageSize : Int) : Int := numPages * pageSize - 1

end FreeToken
