import FreeToken.KVCache.RadixLocks
import FreeToken.Engine.Ownership

/-!
# All or nothing in `add_request`

A call that returns grants the request everything it needs; one that raises should
leave nothing behind. The stages of the call take a lock, linear-state slots, a row
and KV slots one after the other, and none is given back when a later stage raises.
So a refusal is clean exactly when it comes before the first of them took anything.
-/

namespace FreeToken

namespace Engine

variable {e e' : Engine} {t : Transcript} {orphans : List RadixCacheHandle}

/-! ### The two outcomes -/

/-- The request is queued, and its row, slots and lock are its own. -/
structure Granted (e : Engine) (args : AddArgs) (p : PendingReq) (e' : Engine) : Prop where
  queued : e'.scheduler.pendingList = e.scheduler.pendingList ++ [p]
  entry : p.uid = args.uid ∧ p.inputIds = args.inputIds ∧ p.samplingParams = args.samplingParams
  row : e.scheduler.freeSlots = p.tableIdx :: e'.scheduler.freeSlots
  slots : ∃ slots, e'.kvCache.alloc = Function.update e.kvCache.alloc p.tableIdx (some slots) ∧
    (e.kvCache.freeSlots ++ e.tree.slots).Perm (slots ++ (e'.kvCache.freeSlots ++ e'.tree.slots)) ∧
    e'.rowSlice p.tableIdx p.cachedLen.toNat e.config.maxSeqLen =
      slots.take (e.config.maxSeqLen - p.cachedLen.toNat)
  /-- The tree counts the locks it counted before, and the request's own. -/
  locked : p.cacheHandle.isSome = e.cacheManager.isSome ∧
    ∃ hs, e.CacheOk hs ∧ e'.CacheOk (p.cacheHandle.toList ++ hs)
  linear : LinearTaken e (p.linearSlotIdx.bind fun live =>
    p.mambaPingPong.map fun tracks => (live, tracks)) e'

/-- Nothing a refused request could have taken has changed. -/
structure Untouched (e e' : Engine) : Prop where
  pendingList_eq : e'.scheduler.pendingList = e.scheduler.pendingList
  freeRows_eq : e'.scheduler.freeSlots = e.scheduler.freeSlots
  refCounts_eq : e'.tree.refCounts = e.tree.refCounts
  sizes_eq : e'.cacheManager.map (fun c => (c.evictableSize, c.protectedSize)) =
    e.cacheManager.map fun c => (c.evictableSize, c.protectedSize)
  kvFree_eq : e'.kvCache.freeSlots = e.kvCache.freeSlots
  linearFree_eq : e'.linearStatePool.map LinearStatePool.freeSlots =
    e.linearStatePool.map LinearStatePool.freeSlots
  fullIds_eq : e'.fullIds = e.fullIds
  admittedCachedLen_eq : e'.admittedCachedLen = e.admittedCachedLen

/-- All or nothing. -/
def Atomic (e : Engine) (args : AddArgs) : Prop :=
  match e.addRequest args with
  | (.ok p, e') => Granted e args p e'
  | (.error _, e') => Untouched e e'

/-! ### The state before the call -/

/-- The part of the prompt the tree would serve: whole pages, the last token left out. -/
def cachedPrefix (e : Engine) (ids : List Token) : Int :=
  match e.cacheManager with
  | none => 0
  | some c => alignDown (min ((c.matchPrefix ids).1.cachedLen : Int) (ids.length - 1)) e.config.pageSize

/-- The stored tokens that can still be evicted once the prompt's match is locked. -/
def evictableBeside (e : Engine) (ids : List Token) : Int :=
  match e.cacheManager with
  | none => 0
  | some c => ((c.matchPrefix ids).2.lock (c.matchPrefix ids).1.handle).evictableSize

/-- Three linear-state slots, a row, a prompt the engine can place, and pages for
what is not cached. -/
structure Admissible (e : Engine) (args : AddArgs) : Prop where
  linear : ∀ pool, e.linearStatePool = some pool → 3 ≤ pool.freeSlots.length
  row : e.scheduler.freeSlots ≠ []
  prompt : args.inputIds ≠ [] ∨ e.cacheManager = none
  pages : ((e.pagesFor (e.cachedPrefix args.inputIds) * e.config.pageSize : Nat) : Int) ≤
    e.kvCache.freeSlots.length + e.evictableBeside args.inputIds

/-- No whole page of the prompt is stored. -/
def Unstored (e : Engine) (ids : List Token) : Prop :=
  ∀ x ∈ e.tree.entries, x.1 <+: ids → ¬ e.config.pageSize ∣ x.1.length

/-- The first stage that takes anything refuses, and the match before it found nothing
to lock. -/
def TurnedAway (e : Engine) (args : AddArgs) : Prop :=
  e.Unstored args.inputIds ∧
    ((∃ pool, e.linearStatePool = some pool ∧ pool.freeSlots.length < 3) ∨
      (e.linearStatePool = none ∧ e.scheduler.freeSlots = []))

theorem cachedLen_matchPrompt (e : Engine) (ids : List Token) :
    (e.matchPrompt ids).cachedLen = e.cachedPrefix ids := by
  unfold matchPrompt cachedPrefix
  cases e.cacheManager <;> rfl

namespace PromptMatched

variable {hs : List RadixCacheHandle} {ids : List Token} {m : PromptMatch}

theorem evictable_eq (h : PromptMatched e hs ids (e.matchPrompt ids)) :
    ((e.matchPrompt ids).engine.tree.evictable : Int) = e.evictableBeside ids := by
  have hok := h.cacheOk
  unfold evictableBeside
  cases hcm : e.cacheManager with
  | none =>
      have heq := (h.off hcm).2.2.2
      rw [heq, tree, hcm]
      rfl
  | some c =>
      have hcm' : (e.matchPrompt ids).engine.cacheManager =
          some ((c.matchPrefix ids).2.lock (c.matchPrefix ids).1.handle) := by
        unfold matchPrompt
        rw [hcm]
      rw [tree, hcm']
      exact (hok _ hcm').1.evictable_eq.symm

/-- The match locks a node exactly when a whole page of the prompt is stored. -/
theorem unstored_iff (hc : e.CacheOk hs) (ids : List Token) :
    e.Unstored ids ↔ ∀ x, (e.matchPrompt ids).cacheHandle = some x → x.node = none := by
  unfold Unstored matchPrompt tree
  cases hcm : e.cacheManager with
  | none => simp [Forest.entries]
  | some c =>
      obtain ⟨hw, hps⟩ := hc c hcm
      have hspec := RadixPrefixCache.matchPrefix_spec hw ids
      simp only [Option.some.injEq, forall_eq']
      constructor
      · intro hun
        by_contra hnode
        obtain ⟨u, hu⟩ := Option.ne_none_iff_exists'.mp hnode
        obtain ⟨-, hpos⟩ := hspec.node_mem u hu
        obtain ⟨slots, hspan, hlen⟩ := hspec.span_eq
        have hlast : (c.matchPrefix ids).1.cachedLen - 1 < slots.length := by omega
        simp only [RadixPrefixCache.handleSpan, hu] at hspan
        have hentry := Forest.mem_entries_of_span hspec.wellFormed.valid hspan
          (List.getElem?_eq_getElem hlast)
        rw [Nat.sub_add_cancel hpos, List.take_take, Nat.min_self, hspec.keeps.entries_eq] at hentry
        refine hun _ hentry (List.take_prefix _ _) ?_
        rw [List.length_take, Nat.min_eq_left hspec.cachedLen_le, ← hps]
        exact hspec.dvd_cachedLen
      · intro hnode x hx hpre hdvd
        have hle := hspec.longest x.1 x.2 hx hpre (hps ▸ hdvd)
        rw [(hspec.root hnode).1] at hle
        exact Forest.ne_nil_of_mem_entries hx (List.length_eq_zero_iff.mp (Nat.le_zero.mp hle))

/-- A match that stops at the root leaves no trace, and any other one leaves its lock. -/
theorem counts_iff (h : PromptMatched e hs ids (e.matchPrompt ids)) (hc : e.CacheOk hs) :
    ((e.matchPrompt ids).engine.tree.refCounts = e.tree.refCounts ∧
      (e.matchPrompt ids).engine.cacheManager.map (fun c => (c.evictableSize, c.protectedSize)) =
        e.cacheManager.map fun c => (c.evictableSize, c.protectedSize)) ↔ e.Unstored ids := by
  rw [unstored_iff hc]
  cases hcm : e.cacheManager with
  | none =>
      obtain ⟨-, hhandle, -, heq⟩ := h.off hcm
      rw [heq, hhandle, hcm]
      simp
  | some c =>
      have hsome : e.cacheManager.isSome := by rw [hcm]; rfl
      obtain ⟨x, n, hx, -, -, -, -, -, -, hroot⟩ := h.on hsome
      obtain ⟨c', hc'⟩ := Option.isSome_iff_exists.mp (h.isSome_eq.trans hsome)
      simp only [hx, Option.some.injEq, forall_eq', tree, hcm, hc', Option.map_some]
      constructor
      · rintro ⟨hcounts, -⟩
        by_contra hnode
        have hlocked := (h.cacheOk c' hc').1
        rw [hx] at hlocked
        exact RadixPrefixCache.WellFormed.refCounts_ne (hc c hcm).1 hlocked hnode hcounts
      · intro hnode
        obtain ⟨htree, hev, hprot⟩ := (hroot hnode).2 c c' hcm hc'
        rw [htree, hev, hprot]
        exact ⟨rfl, rfl⟩

end PromptMatched

/-! ### Refusals before the queue -/

theorem LinearTaken.free_iff {slots : Option (Slot × Slot × Slot)} (h : LinearTaken e slots e') :
    e'.linearStatePool.map LinearStatePool.freeSlots =
      e.linearStatePool.map LinearStatePool.freeSlots ↔ e.linearStatePool = none := by
  rcases h with ⟨h1, h2, -⟩ | ⟨pool, pool', live, track0, track1, h1, h2, -, hfree, -⟩
  · simp [h1, h2]
  · rw [h1, h2, Option.map_some, Option.map_some, hfree]
    simp

theorem LinearTaken.three_le {slots : Option (Slot × Slot × Slot)} (h : LinearTaken e slots e')
    {pool : LinearStatePool} (hpool : e.linearStatePool = some pool) : 3 ≤ pool.freeSlots.length := by
  rcases h with ⟨h1, -⟩ | ⟨pool1, pool', live, track0, track1, h1, -, -, hfree, -⟩
  · rw [hpool] at h1
    cases h1
  · rw [hpool] at h1
    obtain rfl := Option.some.inj h1
    rw [hfree, List.length_append]
    exact Nat.le_add_left 3 _

/-- A call refused before the request was queued leaves nothing behind exactly when the
first stage refused it and the match locked nothing. -/
theorem NotQueued.untouched_iff (hb : Books e t orphans) {args : AddArgs}
    (h : NotQueued e (e.matchPrompt args.inputIds) e') : Untouched e e' ↔ TurnedAway e args := by
  have hm := hb.promptMatched args
  have hcounts := hm.counts_iff hb.cacheOk
  have hframe := hm.frame
  cases h with
  | exhausted hpool hshort =>
      constructor
      · intro hu
        exact ⟨hcounts.mp ⟨hu.refCounts_eq, hu.sizes_eq⟩, Or.inl ⟨_, hpool, hshort⟩⟩
      · rintro ⟨hun, -⟩
        obtain ⟨hrc, hsizes⟩ := hcounts.mpr hun
        constructor
        case refCounts_eq => exact hrc
        case sizes_eq => exact hsizes
        all_goals rw [hframe]
  | noRow lp htaken hrows =>
      have hfree := htaken.free_iff
      constructor
      · intro hu
        exact ⟨hcounts.mp ⟨hu.refCounts_eq, hu.sizes_eq⟩, Or.inr ⟨hfree.mp hu.linearFree_eq, hrows⟩⟩
      · rintro ⟨hun, hlinear⟩
        obtain ⟨hrc, hsizes⟩ := hcounts.mpr hun
        have hnone : e.linearStatePool = none := by
          rcases hlinear with ⟨pool, hpool, hshort⟩ | ⟨hnone, -⟩
          · exact absurd (htaken.three_le hpool) (Nat.not_le.mpr hshort)
          · exact hnone
        constructor
        case refCounts_eq => exact hrc
        case sizes_eq => exact hsizes
        case linearFree_eq => exact hfree.mpr hnone
        all_goals
          dsimp only
          rw [hframe]

/-! ### The queued request -/

namespace Queued

variable {args : AddArgs} {p : PendingReq} {e3 : Engine}

/-- A queued request gets its slots exactly when the call was admissible. -/
theorem allocates_iff (hb : Books e t orphans) (h : Queued e args (e.matchPrompt args.inputIds) p e3) :
    (∃ e', e3.allocateSlot p.tableIdx (e.matchPrompt args.inputIds).cachedLen
      (e.matchPrompt args.inputIds).matchedIndices = (.ok (), e')) ↔ Admissible e args := by
  have hm := hb.promptMatched args
  have hev : (e3.tree.evictable : Int) = e.evictableBeside args.inputIds := by
    rw [← hm.evictable_eq, tree_congr (e := (e.matchPrompt args.inputIds).engine) (by rw [h.frame])]
  have hkv : e3.kvCache = e.kvCache := by rw [h.frame]
  have hconfig : e3.config = e.config := by rw [h.frame]
  rcases h.allocate_cases hb hm with
    ⟨hnil, hsome, hno⟩ | ⟨k, hprompt, hk, -, -, -, -, hpages⟩
  · constructor
    · rintro ⟨e', halloc⟩
      exact absurd halloc (hno e')
    · intro hadm
      rcases hadm.prompt with hne | hoff
      · exact absurd hnil hne
      · rw [hoff] at hsome
        cases hsome
  · have hneed : e3.pagesFor k = e.pagesFor (e.cachedPrefix args.inputIds) := by
      rw [← cachedLen_matchPrompt, hk, pagesFor, pagesFor, hconfig]
    rw [hneed, hconfig, hkv] at hpages
    rcases hpages with ⟨hle, e', halloc, -⟩ | ⟨hlt, err, e', halloc, -⟩
    · refine ⟨fun _ => ?_, fun _ => ⟨e', halloc⟩⟩
      constructor
      · intro pool hpool
        exact h.linear.three_le hpool
      · rw [(h.queuedIn hb hm).freeSlots_eq]
        exact List.cons_ne_nil _ _
      · exact hprompt
      · omega
    · constructor
      · rintro ⟨e1, hok⟩
        rw [halloc] at hok
        cases (Prod.mk.inj hok).1
      · intro hadm
        have := hadm.pages
        omega

/-- A queued request that then raises is left in the queue. -/
theorem not_untouched (hb : Books e t orphans)
    (h : Queued e args (e.matchPrompt args.inputIds) p e3) {res : Except EngineError Unit}
    (halloc : e3.allocateSlot p.tableIdx (e.matchPrompt args.inputIds).cachedLen
      (e.matchPrompt args.inputIds).matchedIndices = (res, e')) : ¬ Untouched e e' := by
  intro hu
  have hm := hb.promptMatched args
  have heq := hu.pendingList_eq
  rw [(hb.slotTouched hm h halloc).frame, (h.queuedIn hb hm).pendingList_eq] at heq
  simp at heq

theorem not_turnedAway (hb : Books e t orphans)
    (h : Queued e args (e.matchPrompt args.inputIds) p e3) : ¬ TurnedAway e args := by
  rintro ⟨-, ⟨pool, hpool, hshort⟩ | ⟨-, hrows⟩⟩
  · exact absurd (h.linear.three_le hpool) (Nat.not_le.mpr hshort)
  · rw [(h.queuedIn hb (hb.promptMatched args)).freeSlots_eq] at hrows
    cases hrows

end Queued

/-- `add_request` returns for what it can grant. -/
theorem Books.returns_iff (hb : Books e t orphans) (args : AddArgs) :
    e.Returns (.addRequest args) ↔ Admissible e args := by
  rcases addRequest_cases args (hb.promptMatched args) with
    ⟨err, e', heq, hnot⟩ | ⟨p, e3, hq, hres⟩
  · rw [Returns, heq]
    refine iff_of_false (fun ⟨p, hp⟩ => by cases hp) fun hadm => ?_
    cases hnot with
    | exhausted hpool hshort => exact absurd (hadm.linear _ hpool) (Nat.not_le.mpr hshort)
    | noRow lp htaken hrows => exact hadm.row hrows
  · rw [← hq.allocates_iff hb]
    rcases hres with ⟨err, e', heq, halloc⟩ | ⟨e', heq, halloc⟩
    · rw [Returns, heq, halloc]
      exact iff_of_false (fun ⟨p, hp⟩ => by cases hp) fun ⟨e1, he1⟩ => by cases he1
    · rw [Returns, heq, halloc]
      exact iff_of_true ⟨p, rfl⟩ ⟨e', rfl⟩

/-- What a call that returned granted. -/
theorem Returned.granted (hb : Books e t orphans) {args : AddArgs} {m : PromptMatch}
    {p : PendingReq} {e3 : Engine} {k : Nat} (h : Returned e orphans args m p e3 e' k) :
    Granted e args p e' := by
  have hin := h.queuedIn hb
  have hkv : e3.kvCache = e.kvCache := by rw [h.queued.frame]
  have hconfig : e3.config = e.config := by rw [h.queued.frame]
  have hcache : e3.cacheManager = m.engine.cacheManager := by rw [h.queued.frame]
  have htree : e3.tree.slots = e.tree.slots := by
    rw [tree_congr hcache, Forest.slots, h.matched.entries_eq, Forest.slots]
  have hcached : p.cachedLen.toNat = k := by
    rw [h.queued.cachedLen_eq, h.cachedLen_eq]
    exact Int.toNat_natCast k
  obtain ⟨slots, halloc, -, hperm, hslice⟩ := h.allocated.owned
  rw [hkv] at halloc hperm
  rw [htree] at hperm
  rw [hconfig] at hslice
  constructor
  case queued => exact hin.pendingList_eq
  case entry => exact ⟨h.queued.uid_eq, h.queued.inputIds_eq, h.queued.samplingParams_eq⟩
  case row => exact hin.freeSlots_eq
  case slots => exact ⟨slots, halloc, hperm, by rw [hcached]; exact hslice⟩
  case locked =>
    refine ⟨?_, _, hb.cacheOk, by rw [h.queued.cacheHandle_eq]; exact h.allocated.cacheOk⟩
    rw [h.queued.cacheHandle_eq]
    cases hcm : e.cacheManager with
    | none =>
        rw [(h.matched.off hcm).2.1]
        rfl
    | some c =>
        obtain ⟨x, n, hx, -⟩ := h.matched.on (by rw [hcm]; rfl)
        rw [hx]
        rfl
  case linear =>
    have hpool : e'.linearStatePool = e3.linearStatePool := by rw [h.allocated.frame]
    rw [LinearTaken, hpool]
    exact h.queued.linear

/-! ### The call -/

/-- In every reachable engine, `add_request` is all or nothing exactly when it grants the
request, or turns it away before anything was taken. -/
theorem addRequest_atomic_iff {config : EngineConfig} {calls : List Call}
    (h : runs config calls = some e) (args : AddArgs) :
    Atomic e args ↔ Admissible e args ∨ TurnedAway e args := by
  obtain ⟨t, orphans, hb⟩ := books_of_runs h
  have hm := hb.promptMatched args
  rcases addRequest_cases args hm with ⟨err, e', heq, hnot⟩ | ⟨p, e3, hq, hres⟩
  · -- raised before the request was queued
    rw [Atomic, heq]
    refine (hnot.untouched_iff hb).trans ⟨Or.inr, fun hor => hor.resolve_left fun hadm => ?_⟩
    cases hnot with
    | exhausted hpool hshort => exact absurd (hadm.linear _ hpool) (Nat.not_le.mpr hshort)
    | noRow lp htaken hrows => exact hadm.row hrows
  have hiff := hq.allocates_iff hb
  rcases hres with ⟨err, e', heq, halloc⟩ | ⟨e', heq, halloc⟩
  · -- raised with the request in the queue
    rw [Atomic, heq]
    refine iff_of_false (hq.not_untouched hb halloc) ?_
    rintro (hadm | haway)
    · obtain ⟨e1, hok⟩ := hiff.mpr hadm
      rw [halloc] at hok
      cases (Prod.mk.inj hok).1
    · exact hq.not_turnedAway hb haway
  · rw [Atomic, heq]
    obtain ⟨e1, k, hreturned⟩ := hb.returned heq
    exact iff_of_true (hreturned.granted hb) (Or.inl (hiff.mp ⟨e', halloc⟩))

/-- A prompt of these tokens, one token to sample. -/
def asking (ids : List Token) : AddArgs :=
  { uid := 0, inputIds := ids, samplingParams := { maxTokens := 1 } }

/-- The prompt is answered, and a longer one is waiting in the only row. -/
def rowTaken : List Call :=
  [.addRequest (asking [7, 8]), .step fun _ => 5, .addRequest (asking [7, 8, 9])]

/-- The request cap refuses a prompt whose prefix is stored, and its lock stays. -/
theorem refusal_keeps_lock : ∃ e, runs singleRow rowTaken = some e ∧
    (e.addRequest (asking [7, 8, 9])).1 = .error (.requestCapReached 1) ∧
    ¬ Atomic e (asking [7, 8, 9]) :=
  ⟨_, rfl, rfl, fun h : Untouched _ _ => absurd h.refCounts_eq (by decide)⟩

/-- The longer prompt itself was granted its row. -/
theorem hit_is_granted : ∃ e, runs singleRow (rowTaken.take 2) = some e ∧
    Atomic e (asking [7, 8, 9]) :=
  have hrun : runs singleRow (rowTaken.take 2) = some _ := rfl
  ⟨_, hrun, (addRequest_atomic_iff hrun _).mpr (Or.inl
    ⟨fun _ h => (by cases h), by decide, by decide, by decide⟩)⟩

end Engine

end FreeToken
