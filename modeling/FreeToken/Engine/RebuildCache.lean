import FreeToken.Moe.OffloadCache
import FreeToken.Engine.RowStates
import FreeToken.Engine.Sizing

/-!
# `Engine.rebuild_cache`

A new plan resizes the MoE slot cache and replaces the KV pool by an empty one. The
prefix tree and the served context length are left as they are, and the page count that
the plan is compared with has the slack page in it. So the rebuilt engine is consistent
only when the tree is empty and the new pool has room for a row, and the plan in force
rebuilds the pool as well.
-/

namespace FreeToken

/-- What `_plan_cache_budget` returns. -/
structure CachePlan where
  moeCacheSize : Option Nat
  kvNumPages : Option Nat
deriving DecidableEq, Repr

/-- `if new and new != current`. -/
def replacing (new : Option Nat) (current : Nat) : Option Nat :=
  new.filter fun n => n ≠ 0 ∧ n ≠ current

theorem replacing_eq_some {new : Option Nat} {current n : Nat} :
    replacing new current = some n ↔ new = some n ∧ n ≠ 0 ∧ n ≠ current := by
  rw [replacing, Option.filter_eq_some_iff, decide_eq_true_iff]

/-- The new size of the MoE slot cache. -/
def OffloadMoeCache.resize {ρ : Type} [Zero ρ] (cache : OffloadMoeCache ρ) (new : Option Nat) :
    Except Raised (OffloadMoeCache ρ) :=
  match replacing new cache.cacheSize with
  | none => .ok cache
  | some size => cache.rebuild size

/-- The engine with what its pools hold: the K/V of each slot, over all layers, and the MoE
slot cache, when the experts are on the host. -/
structure Pools (κ ρ : Type) where
  engine : Engine
  buffers : Slot → κ
  moeCache : Option (OffloadMoeCache ρ)

namespace Engine

/-- `_rebuild_kv_pool`: a new, empty pool and page table, and the limits they set. -/
def rebuildKvPool (e : Engine) (numPages : Nat) : Engine :=
  let numPages := numPages + 1
  let budget := numPages * e.config.pageSize
  { e with
    kvCache := MHAKVCache.init e.config.pageSize numPages
    pageTable := fun _ _ => 0
    poolNumPages := numPages
    poolBudget := budget
    scheduler :=
      { e.scheduler with
        maxPages := numPages
        cacheBudget := budget
        prefillManager := { e.scheduler.prefillManager with cacheBudget := budget } } }

/-- A call, or a rebuild of the pool. -/
def elastic (e : Engine) : Call ⊕ Nat → Option Engine
  | .inl c => e.call c
  | .inr numPages => some (e.rebuildKvPool numPages)

end Engine

namespace Pools

variable {κ ρ : Type}

/-- The pool of the engine with its buffers. -/
def resizeKv [Zero κ] (s : Pools κ ρ) (new : Option Nat) : Pools κ ρ :=
  match replacing new s.engine.poolNumPages with
  | none => s
  | some n => { s with engine := s.engine.rebuildKvPool n, buffers := fun _ => 0 }

/-- `rebuild_cache` on a device whose memory is known, with the plan it computes. -/
def rebuildCache [Zero κ] [Zero ρ] (s : Pools κ ρ) (plan : CachePlan) :
    Except Raised Unit × Pools κ ρ :=
  match s.moeCache with
  | none => (.ok (), s)
  | some cache =>
      match cache.resize plan.moeCacheSize with
      | .error err => (.error err, s)
      | .ok cache => (.ok (), { s with moeCache := some cache }.resizeKv plan.kvNumPages)

/-! ### What is claimed -/

/-- The plan has the sizes that the pools were built with. -/
def InForce (s : Pools κ ρ) (plan : CachePlan) : Prop :=
  (∀ size ∈ plan.moeCacheSize, ∀ cache ∈ s.moeCache, size = cache.cacheSize) ∧
    ∀ n ∈ plan.kvNumPages, n + 1 = s.engine.poolNumPages

/-- Free and stored slots are all slots, the stored ones hold the K/V of their prefixes, and
every request that fits the served context is admitted. -/
structure Consistent (kvOf : List Token → κ) (s : Pools κ ρ) : Prop where
  slots : (s.engine.kvCache.freeSlots ++ s.engine.tree.slots).Perm
    (MHAKVCache.usable s.engine.kvCache.numSlots)
  holds : ∀ x ∈ s.engine.tree.entries, s.buffers x.2 = kvOf x.1
  admits : ∀ args : AddArgs, args.inputIds ≠ [] →
    args.inputIds.length + args.samplingParams.maxTokens ≤ s.engine.config.maxSeqLen →
    s.engine.Returns (.addRequest args)

/-- The plan in force changes nothing, and after any other one the pools are consistent. -/
def RebuiltRight [Zero κ] [Zero ρ] (kvOf : List Token → κ) (s : Pools κ ρ) (plan : CachePlan) :
    Prop :=
  (s.InForce plan → (s.rebuildCache plan).2 = s) ∧
    (¬ s.InForce plan → Consistent kvOf (s.rebuildCache plan).2)

/-! ### The state before -/

/-- The pages of the pool that replaces the old one, if one does. -/
def newPages [Zero ρ] (s : Pools κ ρ) (plan : CachePlan) : Option Nat :=
  match s.moeCache with
  | none => none
  | some cache =>
      match cache.resize plan.moeCacheSize with
      | .error _ => none
      | .ok _ => replacing plan.kvNumPages s.engine.poolNumPages

/-- No slot of the pool was ever handed out. -/
structure Unused [Zero κ] (s : Pools κ ρ) : Prop where
  freeSlots_eq : s.engine.kvCache.freeSlots = MHAKVCache.usable s.engine.kvCache.numSlots
  pageTable_eq : ∀ row col, s.engine.pageTable row col = 0
  buffers_eq : ∀ slot, s.buffers slot = 0

/-- The new pool has room for a row, and nothing refers to the old one. -/
structure Replaceable (e : Engine) (n : Nat) : Prop where
  tree : e.tree.slots = []
  row : e.config.maxSeqLen ≤ n * e.config.pageSize
  linear : ¬ e.LinearShort

/-- A pool that is not replaced was consistent; one that is replaced for the plan in force
was never used, and for any other plan it is replaceable. -/
def KeepsRight [Zero κ] [Zero ρ] (kvOf : List Token → κ) (s : Pools κ ρ) (plan : CachePlan) :
    Prop :=
  match s.newPages plan with
  | none => s.InForce plan ∨ Consistent kvOf s
  | some n => (s.InForce plan → s.Unused) ∧ (¬ s.InForce plan → Replaceable s.engine n)

end Pools

namespace Engine

variable {e e' : Engine} {t : Transcript} {orphans : List RadixCacheHandle}

/-! ### Reachable engines -/

/-- Rebuilding the pool leaves the books alone. -/
theorem Books.rebuilt (hb : Books e t orphans) (n : Nat) :
    Books (e.rebuildKvPool n) t orphans where
  sched := ⟨hb.sched.rows_perm, hb.sched.pending_ok, hb.sched.running_ok, hb.sched.oids_nodup,
    hb.sched.oids_lt⟩
  maxRunningReq_eq := hb.maxRunningReq_eq
  maxExtendTokens_eq := hb.maxExtendTokens_eq
  recorded := ⟨hb.recorded.length_eq, hb.recorded.last_eq, hb.recorded.fullIds_eq⟩
  cacheOk := hb.cacheOk
  isSome_eq := hb.isSome_eq
  handle_isSome := hb.handle_isSome
  pageSize_eq := rfl
  alloc_none := fun _ _ => rfl
  stored_le := hb.stored_le

/-- The sizes of the pool, wherever they are kept. -/
structure PoolSizes (e : Engine) : Prop where
  numPages_eq : e.kvCache.numPages = e.poolNumPages
  poolBudget_eq : e.poolBudget = e.poolNumPages * e.config.pageSize
  maxPages_eq : e.scheduler.maxPages = e.poolNumPages
  cacheBudget_eq : e.scheduler.cacheBudget = e.poolBudget
  prefill_eq : e.scheduler.prefillManager.cacheBudget = e.poolBudget

theorem PoolSizes.congr (h : PoolSizes e) (hsame : SameSizes e e') : PoolSizes e' where
  numPages_eq := by rw [hsame.numPages_eq, hsame.poolNumPages_eq, h.numPages_eq]
  poolBudget_eq := by
    rw [hsame.poolBudget_eq, hsame.poolNumPages_eq, hsame.config_eq, h.poolBudget_eq]
  maxPages_eq := by rw [hsame.limits.maxPages_eq, hsame.poolNumPages_eq, h.maxPages_eq]
  cacheBudget_eq := by rw [hsame.limits.cacheBudget_eq, hsame.poolBudget_eq, h.cacheBudget_eq]
  prefill_eq := by rw [hsame.limits.prefill_eq.2, hsame.poolBudget_eq, h.prefill_eq]

/-- A pool of the same sizes, and as it was built. -/
theorem PoolSizes.rebuilt_eq (h : PoolSizes e) {n : Nat} (hn : n + 1 = e.poolNumPages)
    (hkv : MHAKVCache.init e.config.pageSize (n + 1) = e.kvCache)
    (htable : (fun _ _ => 0) = e.pageTable) : e.rebuildKvPool n = e := by
  obtain ⟨-, hbudget, hmax, hcache, hprefill⟩ := h
  obtain ⟨config, kvCache, pageTable, cache, fullIds, admitted, linear, anchors, scheduler, pages,
    budget⟩ := e
  obtain ⟨running, extend, maxPages, cacheBudget, nextUid, rows, prefill, decode⟩ := scheduler
  dsimp only at hn hkv htable hbudget hmax hcache hprefill
  subst hn hkv htable hbudget hmax hcache
  simp only [rebuildKvPool, ← hprefill]

theorem sizes_of_elastic {config : EngineConfig} {events : List (Call ⊕ Nat)}
    (h : Run.exec elastic (init config) events = some e) :
    PoolSizes e ∧ ∃ t orphans, Books e t orphans := by
  refine Run.invariant_of_all (fun e => PoolSizes e ∧ ∃ t orphans, Books e t orphans) ?_
    ⟨⟨rfl, rfl, rfl, rfl, rfl⟩, fun _ => [], [], books_init config _⟩ h
  rintro e (c | n) e' ⟨hsizes, t, orphans, hb⟩ hnext
  · have hcall : e.call c = some e' := hnext
    exact ⟨hsizes.congr (hb.sizes_call hcall), hb.call hcall⟩
  · obtain rfl := Option.some.inj hnext
    exact ⟨⟨rfl, rfl, rfl, rfl, rfl⟩, t, orphans, hb.rebuilt n⟩

/-! ### Admission -/

/-- An empty tree serves nothing and has nothing to evict. -/
theorem Books.tree_nil (hb : Books e t orphans) (htree : e.tree.slots = []) {ids : List Token}
    (hids : ids ≠ []) : e.cachedPrefix ids = 0 ∧ e.evictableBeside ids = 0 := by
  have hm : PromptMatched e (e.scheduler.handles ++ orphans) ids (e.matchPrompt ids) :=
    matchPrompt_spec hb.cacheOk ids
  have hnil : e.tree.entries = [] := List.map_eq_nil_iff.mp htree
  constructor
  · have hpos := hb.cachedLen_pos_iff ids
    rw [cachedLen_matchPrompt] at hpos
    have hnot : ¬ e.ServesPage ids := by
      rintro ⟨-, hmem⟩
      rw [hnil] at hmem
      cases hmem
    have hle := not_lt.mp fun h => hnot (hpos.mp h)
    rw [← cachedLen_matchPrompt] at hle ⊢
    cases hcm : e.cacheManager with
    | none => exact (hm.off hcm).1
    | some c =>
        obtain ⟨k, hk, -⟩ := hm.cachedLen_nonneg hids
        omega
  · rw [← hm.evictable_eq]
    have hentries := hm.entries_eq.trans hnil
    cases hcm : (e.matchPrompt ids).engine.cacheManager with
    | none =>
        rw [tree, hcm]
        rfl
    | some c =>
        have hvalid := (hm.cacheOk c hcm).1.valid
        rw [tree, hcm] at hentries ⊢
        have hcounts : c.tree.refCounts = [] := by
          rw [← List.map_eq_nil_iff (f := Prod.fst), Forest.map_fst_refCounts hvalid, hentries]
          rfl
        rw [Forest.evictable_eq_countP hvalid, hcounts]
        rfl

/-- With an empty tree and no live request, what fits the served context is admitted exactly
when a row fits the pool. -/
theorem Books.admits_iff (hb : Books e t orphans) (hidle : e.scheduler.seats = [])
    (htree : e.tree.slots = []) {args : AddArgs} (hids : args.inputIds ≠ []) :
    e.Returns (.addRequest args) ↔ ¬ e.LinearShort ∧
      ceilDiv e.config.maxSeqLen e.config.pageSize * e.config.pageSize ≤
        e.kvCache.freeSlots.length := by
  obtain ⟨hwalk, hevict⟩ := hb.tree_nil htree hids
  have hrows : e.scheduler.freeSlots ≠ [] := by
    intro hnil
    have hperm := hb.sched.rows_perm.length_eq
    rw [hnil, hidle, hb.maxRunningReq_eq] at hperm
    have hpos := e.config.maxRunningReq_pos
    simp only [List.map_nil, List.append_nil, List.length_nil, List.length_range] at hperm
    omega
  have hpages : e.pagesFor (e.cachedPrefix args.inputIds) =
      ceilDiv e.config.maxSeqLen e.config.pageSize := by
    rw [hwalk, pagesFor, Int.sub_zero]
  rw [hb.returns_iff]
  constructor
  · intro hadm
    refine ⟨?_, ?_⟩
    · rintro ⟨pool, hpool, hshort⟩
      exact absurd (hadm.linear pool hpool) (Nat.not_le.mpr hshort)
    · have hle := hadm.pages
      rw [hpages, hevict] at hle
      omega
  · rintro ⟨hlinear, hle⟩
    refine ⟨fun pool hpool => ?_, hrows, Or.inl hids, ?_⟩
    · exact Nat.not_lt.mp fun hshort => hlinear ⟨pool, hpool, hshort⟩
    · rw [hpages, hevict]
      omega

end Engine

namespace Pools

open Engine

variable {κ ρ : Type} {s : Pools κ ρ} {plan : CachePlan}

theorem Consistent.congr {kvOf : List Token → κ} {s' : Pools κ ρ} (he : s'.engine = s.engine)
    (hbuffers : s'.buffers = s.buffers) : Consistent kvOf s' ↔ Consistent kvOf s := by
  constructor
  · rintro ⟨hslots, hholds, hadmits⟩
    rw [he] at hslots hholds hadmits
    exact ⟨hslots, hbuffers ▸ hholds, hadmits⟩
  · rintro ⟨hslots, hholds, hadmits⟩
    rw [← he] at hslots hholds hadmits
    exact ⟨hslots, hbuffers ▸ hholds, hadmits⟩

/-- The plan in force leaves the MoE slot cache alone. -/
theorem resize_of_inForce [Zero ρ] {cache : OffloadMoeCache ρ} (h : s.InForce plan)
    (hmoe : s.moeCache = some cache) : cache.resize plan.moeCacheSize = .ok cache := by
  have hnone : replacing plan.moeCacheSize cache.cacheSize = none := by
    rw [replacing, Option.filter_eq_none_iff]
    intro size hsize
    have heq : size = cache.cacheSize := h.1 size hsize cache hmoe
    simp [heq]
  rw [OffloadMoeCache.resize, hnone]

/-- Without new pages the engine and the buffers stay, and so does all under the plan in
force. -/
theorem rebuildCache_kept [Zero κ] [Zero ρ] (h : s.newPages plan = none) :
    (s.rebuildCache plan).2.engine = s.engine ∧ (s.rebuildCache plan).2.buffers = s.buffers ∧
      (s.InForce plan → (s.rebuildCache plan).2 = s) := by
  obtain ⟨e, buffers, moe⟩ := s
  cases moe with
  | none => exact ⟨rfl, rfl, fun _ => rfl⟩
  | some cache =>
      cases hresize : cache.resize plan.moeCacheSize with
      | error err =>
          simp only [rebuildCache, hresize, implies_true, and_self]
      | ok cache' =>
          simp only [newPages, hresize] at h
          simp only [rebuildCache, hresize, resizeKv, h, true_and]
          intro hforce
          rw [resize_of_inForce hforce rfl] at hresize
          rw [← Except.ok.inj hresize]

/-- With new pages the pool is a new one. -/
theorem rebuildCache_replaced [Zero κ] [Zero ρ] {n : Nat} (h : s.newPages plan = some n) :
    ∃ cache cache', s.moeCache = some cache ∧ cache.resize plan.moeCacheSize = .ok cache' ∧
      plan.kvNumPages = some n ∧ (s.rebuildCache plan).2 =
        { engine := s.engine.rebuildKvPool n, buffers := fun _ => 0, moeCache := some cache' } := by
  obtain ⟨e, buffers, moe⟩ := s
  cases moe with
  | none => cases h
  | some cache =>
      cases hresize : cache.resize plan.moeCacheSize with
      | error err => simp [newPages, hresize] at h
      | ok cache' =>
          simp only [newPages, hresize] at h
          refine ⟨cache, cache', rfl, hresize, (replacing_eq_some.mp h).1, ?_⟩
          simp only [rebuildCache, hresize, resizeKv, h]

/-- Rebuilding a pool for its own pages leaves it as it was if it was never used. -/
theorem rebuilt_eq_iff [Zero κ] {cache : OffloadMoeCache ρ} {n : Nat} {t : Transcript}
    {orphans : List RadixCacheHandle} (hb : Books s.engine t orphans) (hsizes : PoolSizes s.engine)
    (hidle : s.engine.scheduler.seats = []) (hmoe : s.moeCache = some cache)
    (hn : n + 1 = s.engine.poolNumPages) :
    ({ engine := s.engine.rebuildKvPool n, buffers := fun _ => 0, moeCache := some cache } :
      Pools κ ρ) = s ↔ s.Unused := by
  have hps := hb.pageSize_eq
  have hpages := hsizes.numPages_eq
  constructor
  · intro heq
    have hengine := congrArg Pools.engine heq
    have hkv : MHAKVCache.init s.engine.config.pageSize (n + 1) = s.engine.kvCache :=
      congrArg Engine.kvCache hengine
    constructor
    · rw [← hkv]
      rfl
    · intro row col
      exact (congrFun₂ (congrArg Engine.pageTable hengine) row col).symm
    · intro slot
      exact (congrFun (congrArg Pools.buffers heq) slot).symm
  · rintro ⟨hfree, htable, hbuffers⟩
    have halloc : s.engine.kvCache.alloc = fun _ => none := by
      funext row
      exact hb.alloc_none row (by rw [hidle]; exact List.not_mem_nil)
    have hkv : MHAKVCache.init s.engine.config.pageSize (n + 1) = s.engine.kvCache := by
      rw [MHAKVCache.numSlots] at hfree
      rw [MHAKVCache.init, hn, ← hps, ← hpages, ← hfree, ← halloc]
    have htable : (fun _ _ => 0) = s.engine.pageTable := by
      funext row col
      exact (htable row col).symm
    have hbuffers : (fun _ => 0) = s.buffers := by
      funext slot
      exact (hbuffers slot).symm
    rw [hsizes.rebuilt_eq hn hkv htable, hbuffers, ← hmoe]

/-- A new pool is consistent exactly when the old one was replaceable. -/
theorem rebuilt_consistent_iff [Zero κ] {kvOf : List Token → κ}
    {moe : Option (OffloadMoeCache ρ)} {n : Nat} {e : Engine} {t : Transcript}
    {orphans : List RadixCacheHandle} (hb : Books e t orphans) (hidle : e.scheduler.seats = []) :
    Consistent kvOf { engine := e.rebuildKvPool n, buffers := fun _ => 0, moeCache := moe } ↔
      Replaceable e n := by
  have hb' := hb.rebuilt n
  have htree : (e.rebuildKvPool n).tree = e.tree := rfl
  have hfree : (e.rebuildKvPool n).kvCache.freeSlots =
      MHAKVCache.usable (e.rebuildKvPool n).kvCache.numSlots := rfl
  have hlen : (e.rebuildKvPool n).kvCache.freeSlots.length = (n + 1) * e.config.pageSize - 1 := by
    rw [hfree, MHAKVCache.usable, List.length_drop, List.length_range]
    rfl
  have hps := e.config.pageSize_pos
  obtain ⟨hlo, hhi⟩ := ceilDiv_bounds e.config.maxSeqLen hps
  -- a row of whole pages fits beside slot 0 exactly when the row fits the planned pages
  have hrow : ceilDiv e.config.maxSeqLen e.config.pageSize * e.config.pageSize ≤
      (n + 1) * e.config.pageSize - 1 ↔ e.config.maxSeqLen ≤ n * e.config.pageSize := by
    have hpages : 0 < (n + 1) * e.config.pageSize := Nat.mul_pos n.succ_pos hps
    rw [Nat.le_sub_one_iff_lt hpages, Nat.mul_lt_mul_right hps, Nat.lt_succ_iff]
    constructor
    · intro hle
      exact hlo.trans (Nat.mul_le_mul_right _ hle)
    · intro hle
      have hlt := hhi.trans_le (Nat.add_le_add_right hle _)
      rw [← Nat.succ_mul] at hlt
      exact Nat.lt_succ_iff.mp (Nat.lt_of_mul_lt_mul_right hlt)
  constructor
  · rintro ⟨hslots, -, hadmits⟩
    have hnil : e.tree.slots = [] := by
      have hlen := hslots.length_eq
      rw [List.length_append] at hlen
      dsimp only at hlen
      rw [hfree] at hlen
      exact List.eq_nil_of_length_eq_zero (by rw [← htree]; omega)
    have hone := hadmits
      { uid := 0, inputIds := [0], samplingParams := { maxTokens := 0 } } (List.cons_ne_nil _ _)
      (by
        have hpos := e.config.maxSeqLen_pos
        show (1 : Int) + 0 ≤ e.config.maxSeqLen
        omega)
    obtain ⟨hlinear, hle⟩ := (hb'.admits_iff hidle hnil (List.cons_ne_nil _ _)).mp hone
    rw [hlen] at hle
    exact ⟨hnil, hrow.mp hle, hlinear⟩
  · rintro ⟨hnil, hfits, hlinear⟩
    constructor
    · dsimp only
      rw [htree, hnil, List.append_nil, hfree]
    · intro x hx
      have hentries : e.tree.entries = [] := List.map_eq_nil_iff.mp hnil
      rw [show (e.rebuildKvPool n).tree.entries = e.tree.entries from rfl, hentries] at hx
      cases hx
    · intro args hids _
      refine (hb'.admits_iff hidle hnil hids).mpr ⟨hlinear, ?_⟩
      rw [hlen]
      exact hrow.mpr hfits

/-- In every reachable engine without live requests, for every plan: `rebuild_cache` changes
nothing under the plan in force and leaves consistent pools under any other exactly when it
replaces no pool that is in use, and the new one has room for a row. -/
theorem rebuilt_right_iff [Zero κ] [Zero ρ] {config : EngineConfig}
    {events : List (Call ⊕ Nat)} {e : Engine}
    (h : Run.exec elastic (init config) events = some e) (hidle : e.scheduler.seats = [])
    (kvOf : List Token → κ) (buffers : Slot → κ) (moe : Option (OffloadMoeCache ρ))
    (plan : CachePlan) :
    RebuiltRight kvOf { engine := e, buffers := buffers, moeCache := moe } plan ↔
      KeepsRight kvOf { engine := e, buffers := buffers, moeCache := moe } plan := by
  obtain ⟨hsizes, t, orphans, hb⟩ := sizes_of_elastic h
  generalize hs : ({ engine := e, buffers := buffers, moeCache := moe } : Pools κ ρ) = s
  have he : s.engine = e := by rw [← hs]
  rw [KeepsRight]
  cases hnew : s.newPages plan with
  | none =>
      -- the pool stays, and so does what can be said of it
      obtain ⟨hengine, hbuffers, hsame⟩ := rebuildCache_kept hnew
      have hiff : Consistent kvOf (s.rebuildCache plan).2 ↔ Consistent kvOf s :=
        Consistent.congr hengine hbuffers
      rw [RebuiltRight, hiff]
      by_cases hforce : s.InForce plan
      · exact iff_of_true ⟨hsame, fun hnot => absurd hforce hnot⟩ (Or.inl hforce)
      · simp only [hforce, false_implies, true_and, not_false_eq_true, forall_const, false_or]
  | some n =>
      obtain ⟨cache, cache', hmoe, hresize, hpages, heq⟩ := rebuildCache_replaced hnew
      subst he
      rw [RebuiltRight, heq]
      refine and_congr (forall_congr' fun hforce => ?_) (forall_congr' fun _ => ?_)
      · have hcache : cache' = cache := by
          rw [resize_of_inForce hforce hmoe] at hresize
          exact (Except.ok.inj hresize).symm
        rw [hcache]
        exact rebuilt_eq_iff hb hsizes hidle hmoe (hforce.2 n hpages)
      · exact rebuilt_consistent_iff hb hidle

/-- One layer with one expert, which has two slots. The K/V of a prefix is its length, and
slot `n` holds that of `n` tokens. -/
def holding (e : Engine) : Pools Nat Nat where
  engine := e
  buffers := fun slot => slot
  moeCache := some { numLayers := 1, numExperts := 1, cacheSize := 2, numExperts_le := by decide }

/-- The prompt is answered and the engine is idle. -/
def answered (config : EngineConfig) : Option Engine :=
  Run.exec elastic (init config) [.inl (.addRequest (asking [7, 8])), .inl (.step fun _ => 5)]

/-- The tree keeps the three slots of the answered prompt. The plan the engine was built with,
of four pages, gives it a new pool all the same, and with a plan of eight pages the slots of
the tree are free as well. Rebuilt for two pages, a fresh engine refuses three tokens. -/
theorem rebuild_forgets_tree : (∃ e, answered singleRow = some e ∧ e.scheduler.seats = [] ∧
      e.kvCache.freeSlots = [4] ∧ e.tree.entries = [([7], 1), ([7, 8], 2), ([7, 8, 5], 3)] ∧
      ¬ RebuiltRight List.length (holding e) ⟨none, some 4⟩ ∧
      ¬ RebuiltRight List.length (holding e) ⟨none, some 8⟩) ∧
    ¬ RebuiltRight List.length (holding (init singleRow)) ⟨none, some 2⟩ := by
  refine ⟨⟨_, rfl, by decide, by decide, by decide, fun h => ?_, fun h => ?_⟩, fun h => ?_⟩
  · have hsame := h.1 ⟨fun _ hsize => (by cases hsize), fun n hn => (by cases hn; rfl)⟩
    exact absurd (congrArg (fun s : Pools Nat Nat => s.engine.kvCache.freeSlots) hsame) (by decide)
  · have hslots := (h.2 fun hforce => absurd (hforce.2 8 rfl) (by decide)).slots
    exact absurd hslots.length_eq (by decide)
  · have hadmits := (h.2 fun hforce => absurd (hforce.2 2 rfl) (by decide)).admits
    exact absurd (hadmits (asking [7, 8, 9]) (by decide) (by decide)) (by decide)

/-- Without the prefix cache nothing refers to the old pool. -/
theorem rebuild_grows : ∃ e, answered { singleRow with enablePrefixCache := false } = some e ∧
    e.scheduler.seats = [] ∧ RebuiltRight List.length (holding e) ⟨none, some 8⟩ := by
  have hrun : answered { singleRow with enablePrefixCache := false } = some _ := rfl
  have hidle : ∀ e, answered { singleRow with enablePrefixCache := false } = some e →
      e.scheduler.seats = [] := fun e he => by
    obtain rfl := Option.some.inj (he.symm.trans hrun)
    decide
  refine ⟨_, hrun, hidle _ hrun, (rebuilt_right_iff hrun (hidle _ hrun) _ _ _ _).mpr ?_⟩
  exact ⟨fun hforce => absurd (hforce.2 8 rfl) (by decide), fun _ =>
    ⟨by decide, by decide, by decide⟩⟩

end Pools

end FreeToken
