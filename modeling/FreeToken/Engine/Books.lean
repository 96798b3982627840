import FreeToken.Engine.AddSpec
import FreeToken.Engine.Lives

/-!
# The invariant of every run

`Books` holds after any calls, also after calls of `add_request` that raised: the
scheduler's lists fit the rows, the prefix cache counts exactly the handles of the
live requests and of the calls that raised after locking one, and rows without a
request have no slots.
-/

namespace FreeToken

/-- The handles of the live requests. -/
def Scheduler.handles (s : Scheduler) : List RadixCacheHandle := s.seats.filterMap Seat.handle

theorem filterMap_handle_cons (seat : Seat) (seats : List Seat) :
    (seat :: seats).filterMap Seat.handle = seat.handle.toList ++ seats.filterMap Seat.handle := by
  cases h : seat.handle <;> simp [h]

namespace Engine

variable {e e' : Engine} {t : Transcript} {orphans : List RadixCacheHandle}

structure Books (e : Engine) (t : Transcript) (orphans : List RadixCacheHandle) : Prop where
  sched : e.scheduler.Ok
  maxRunningReq_eq : e.scheduler.maxRunningReq = e.config.maxRunningReq
  maxExtendTokens_eq : e.scheduler.maxExtendTokens = e.config.maxExtendTokens
  recorded : Recorded e t
  cacheOk : e.CacheOk (e.scheduler.handles ++ orphans)
  isSome_eq : e.cacheManager.isSome = e.config.enablePrefixCache
  handle_isSome : ∀ seat ∈ e.scheduler.seats, seat.handle.isSome = e.cacheManager.isSome
  pageSize_eq : e.kvCache.pageSize = e.config.pageSize
  alloc_none : ∀ row, row ∉ e.scheduler.seats.map Seat.row → e.kvCache.alloc row = none
  stored_le : ∀ x ∈ e.tree.entries, x.1.length ≤ e.config.maxSeqLen

theorem books_init (config : EngineConfig) (t : Transcript) : Books (init config) t [] where
  sched := Scheduler.ok_init _ _ _ _ _
  maxRunningReq_eq := rfl
  maxExtendTokens_eq := rfl
  recorded := ⟨fun _ h => absurd h List.not_mem_nil, fun _ h => absurd h List.not_mem_nil,
    fun _ _ h => absurd h List.not_mem_nil⟩
  cacheOk := by
    intro c hc
    simp only [init] at hc
    split at hc
    · obtain rfl := Option.some.inj hc
      exact ⟨RadixPrefixCache.wellFormed_init config.pageSize_pos, rfl⟩
    · cases hc
  isSome_eq := by
    simp only [init]
    split <;> simp_all
  handle_isSome := fun _ h => absurd h List.not_mem_nil
  pageSize_eq := rfl
  alloc_none := fun _ _ => rfl
  stored_le := by
    intro x hx
    have hnil : (init config).tree.entries = [] := by
      simp only [tree, init]
      split
      · rfl
      · rename_i hc
        split at hc
        · obtain rfl := Option.some.inj hc
          rfl
        · cases hc
    rw [hnil] at hx
    cases hx

/-! ### `add_request` -/

theorem Books.promptMatched (hb : Books e t orphans) (args : AddArgs) :
    PromptMatched e (e.scheduler.handles ++ orphans) args.inputIds (e.matchPrompt args.inputIds) :=
  matchPrompt_spec hb.cacheOk _

/-- A cached prefix is no longer than a row. -/
theorem Books.cachedLen_le (hb : Books e t orphans) {ids : List Token} {m : PromptMatch}
    (hm : PromptMatched e (e.scheduler.handles ++ orphans) ids m) {k : Nat}
    (hk : m.cachedLen = k) : k ≤ e.config.maxSeqLen := by
  by_cases hsome : e.cacheManager.isSome
  · obtain ⟨h, n, -, hspan, hlen, hn, -, hcached, -⟩ := hm.on hsome
    have hps : (e.config.pageSize : Int) ≠ 0 := by
      have := e.config.pageSize_pos
      omega
    have hkn : k ≤ n := by
      have hle := Int.ediv_mul_le (min (n : Int) (ids.length - 1)) hps
      unfold alignDown at hcached
      omega
    suffices hnle : n ≤ e.config.maxSeqLen by omega
    rcases Nat.eq_zero_or_pos n with rfl | hpos
    · exact Nat.zero_le _
    obtain ⟨c, hcm, hspan⟩ := Option.bind_eq_some_iff.mp hspan
    obtain ⟨hw, -⟩ := hm.cacheOk c hcm
    unfold RadixPrefixCache.handleSpan at hspan
    cases hnode : h.node with
    | none =>
        simp only [hnode, Option.some.injEq, Prod.mk.injEq] at hspan
        rw [← hspan.2, List.length_nil] at hlen
        omega
    | some u =>
        rw [hnode] at hspan
        have hlast : n - 1 < m.matchedIndices.length := by omega
        have hentry := Forest.mem_entries_of_span hw.valid hspan (List.getElem?_eq_getElem hlast)
        have htree : m.engine.tree = c.tree := by simp [tree, hcm]
        rw [← htree, hm.entries_eq] at hentry
        have hle := hb.stored_le _ hentry
        simp only [List.length_take] at hle
        omega
  · obtain ⟨h0, -⟩ := hm.off (by simpa using hsome)
    omega

/-- The scheduler once the entry `p` is queued. -/
structure QueuedIn (e : Engine) (p : PendingReq) (s' : Scheduler) : Prop where
  ok : s'.Ok
  limits : Scheduler.SameLimits e.scheduler s'
  entry_ok : p.Ok
  freeSlots_eq : e.scheduler.freeSlots = p.tableIdx :: s'.freeSlots
  pendingList_eq : s'.pendingList = e.scheduler.pendingList ++ [p]
  runningReqs_eq : s'.runningReqs = e.scheduler.runningReqs

theorem QueuedIn.seats_perm {p : PendingReq} {s' : Scheduler} (h : QueuedIn e p s') :
    s'.seats.Perm (p.seat :: e.scheduler.seats) := by
  rw [Scheduler.seats, Scheduler.seats, h.pendingList_eq, h.runningReqs_eq, List.map_append,
    List.append_assoc]
  exact List.perm_middle

theorem QueuedIn.handles_perm {p : PendingReq} {s' : Scheduler} (h : QueuedIn e p s') :
    s'.handles.Perm (p.cacheHandle.toList ++ e.scheduler.handles) := by
  have hperm := h.seats_perm.filterMap Seat.handle
  rw [filterMap_handle_cons] at hperm
  exact hperm

theorem QueuedIn.row_notMem {p : PendingReq} {s' : Scheduler} (h : QueuedIn e p s')
    (hs : e.scheduler.Ok) : p.tableIdx ∉ e.scheduler.seats.map Seat.row := by
  have hn := hs.rows_nodup
  rw [h.freeSlots_eq] at hn
  exact fun hmem => (List.nodup_append'.mp hn).2.2 List.mem_cons_self hmem

theorem QueuedIn.lives_perm {p : PendingReq} (h : QueuedIn e p e'.scheduler) :
    (e'.lives t).Perm (p.live :: e.lives t) := by
  rw [lives, lives, h.pendingList_eq, h.runningReqs_eq, List.map_append, List.append_assoc]
  exact List.perm_middle

theorem Queued.queuedIn (hb : Books e t orphans) {args : AddArgs} {m : PromptMatch}
    {p : PendingReq} {e3 : Engine}
    (hm : PromptMatched e (e.scheduler.handles ++ orphans) args.inputIds m)
    (h : Queued e args m p e3) : QueuedIn e p e3.scheduler := by
  obtain ⟨p0, hadd, hchunk, hids, hcached⟩ := h.add_eq
  have hok : p0.Ok := by
    have hcases : m.cachedLen ≤ (args.inputIds.length : Int) ∧ (args.inputIds ≠ [] →
        0 ≤ m.cachedLen ∧ m.cachedLen < args.inputIds.length) := by
      by_cases hnil : args.inputIds = []
      · rw [hnil] at hm ⊢
        have hcached := hm.cachedLen_nil
        refine ⟨?_, fun hne => absurd rfl hne⟩
        rw [hcached]
        split <;> simp
      · obtain ⟨k, hk, -, hlt⟩ := hm.cachedLen_nonneg hnil
        exact ⟨by omega, fun _ => by omega⟩
    refine ⟨?_, ?_, fun c hc => ?_⟩
    · rw [PendingReq.inputLen, hids, hcached]
      exact hcases.1
    · rw [PendingReq.inputLen, hids, hcached]
      exact hcases.2
    · rw [hchunk] at hc
      cases hc
  obtain ⟨hs', hlimits, hp, hfree, -, hpending, hrunning⟩ :=
    Scheduler.add_spec hb.sched hok hchunk hadd
  exact ⟨hs', hlimits, hp, hfree, hpending, hrunning⟩

theorem Recorded.of_running_eq (h : Recorded e t)
    (hrunning : e'.scheduler.runningReqs = e.scheduler.runningReqs)
    (hsome : e'.cacheManager.isSome = e.cacheManager.isSome) (hids : e'.fullIds = e.fullIds) :
    Recorded e' t := by
  refine ⟨?_, ?_, ?_⟩
  · rw [hrunning]
    exact h.length_eq
  · rw [hrunning]
    exact h.last_eq
  · rw [hrunning, hsome, hids]
    exact h.fullIds_eq

/-- Matching and locking a prefix that no request then holds. -/
theorem Books.notQueued (hb : Books e t orphans) {ids : List Token} {m : PromptMatch}
    (hm : PromptMatched e (e.scheduler.handles ++ orphans) ids m) (h : NotQueued e m e') :
    Books e' t (m.cacheHandle.toList ++ orphans) := by
  obtain ⟨lp, rfl⟩ : ∃ lp, e' = { m.engine with linearStatePool := lp } := by
    cases h with
    | exhausted hpool hshort => exact ⟨_, rfl⟩
    | noRow lp htaken hrows => exact ⟨lp, rfl⟩
  have hconfig : m.engine.config = e.config := by rw [hm.frame]
  have hsched : m.engine.scheduler = e.scheduler := by rw [hm.frame]
  have hkv : m.engine.kvCache = e.kvCache := by rw [hm.frame]
  have hids : m.engine.fullIds = e.fullIds := by rw [hm.frame]
  exact
    { sched := by rw [hsched]; exact hb.sched
      maxRunningReq_eq := by rw [hsched, hconfig]; exact hb.maxRunningReq_eq
      maxExtendTokens_eq := by rw [hsched, hconfig]; exact hb.maxExtendTokens_eq
      recorded := hb.recorded.of_running_eq (by rw [hsched]) hm.isSome_eq hids
      cacheOk := by
        rw [hsched]
        refine (hm.cacheOk.congr rfl rfl).perm ?_
        rw [← List.append_assoc, ← List.append_assoc]
        exact List.perm_append_comm.append_right _
      isSome_eq := by rw [hconfig, ← hb.isSome_eq]; exact hm.isSome_eq
      handle_isSome := by
        intro seat hseat
        rw [hsched] at hseat
        exact (hb.handle_isSome seat hseat).trans hm.isSome_eq.symm
      pageSize_eq := by rw [hkv, hconfig]; exact hb.pageSize_eq
      alloc_none := by rw [hsched, hkv]; exact hb.alloc_none
      stored_le := by
        intro x hx
        rw [hconfig]
        exact hb.stored_le x (hm.entries_eq ▸ hx) }

/-- Queueing a request, whatever came of its slots. -/
theorem Books.queued (hb : Books e t orphans) {args : AddArgs} {m : PromptMatch} {p : PendingReq}
    {e3 : Engine} (hm : PromptMatched e (e.scheduler.handles ++ orphans) args.inputIds m)
    (hq : Queued e args m p e3)
    (h : SlotTouched (m.cacheHandle.toList ++ (e.scheduler.handles ++ orphans)) e3 p.tableIdx e') :
    Books e' t orphans := by
  have hin := hq.queuedIn hb hm
  have hsched : e'.scheduler = e3.scheduler := by rw [h.frame]
  have hconfig : e'.config = e.config := by rw [h.frame, hq.frame]
  have hids : e'.fullIds = e.fullIds := by rw [h.frame, hq.frame]
  have hcache3 : e3.cacheManager = m.engine.cacheManager := by rw [hq.frame]
  have hkv3 : e3.kvCache = e.kvCache := by rw [hq.frame]
  have hsome : e'.cacheManager.isSome = e.cacheManager.isSome := by
    rw [h.isSome_eq, hcache3]
    exact hm.isSome_eq
  have hhandle : p.cacheHandle.isSome = e.cacheManager.isSome := by
    rw [hq.cacheHandle_eq]
    by_cases hon : e.cacheManager.isSome
    · obtain ⟨x, n, hx, -⟩ := hm.on hon
      rw [hx, hon]
      rfl
    · rw [(hm.off (by simpa using hon)).2.1]
      simpa using hon
  have htree : e3.tree.entries = e.tree.entries := by
    rw [tree_congr hcache3]
    exact hm.entries_eq
  exact
    { sched := by rw [hsched]; exact hin.ok
      maxRunningReq_eq := by
        rw [hsched, hconfig, ← hb.maxRunningReq_eq]
        exact hin.limits.maxRunningReq_eq
      maxExtendTokens_eq := by
        rw [hsched, hconfig, ← hb.maxExtendTokens_eq]
        exact hin.limits.maxExtendTokens_eq
      recorded := hb.recorded.of_running_eq (by rw [hsched, hin.runningReqs_eq]) hsome hids
      cacheOk := by
        rw [hsched]
        refine h.cacheOk.perm ?_
        rw [← List.append_assoc, ← hq.cacheHandle_eq]
        exact hin.handles_perm.symm.append_right _
      isSome_eq := by rw [hconfig, ← hb.isSome_eq]; exact hsome
      handle_isSome := by
        intro seat hseat
        rw [hsched] at hseat
        rw [hsome]
        rcases List.mem_cons.mp (hin.seats_perm.mem_iff.mp hseat) with rfl | hseat
        · exact hhandle
        · exact hb.handle_isSome seat hseat
      pageSize_eq := by rw [h.pageSize_eq, hkv3, hconfig]; exact hb.pageSize_eq
      alloc_none := by
        intro row hrow
        rw [hsched] at hrow
        have hrow' := fun hmem => hrow ((hin.seats_perm.map Seat.row).mem_iff.mpr hmem)
        rw [h.alloc_eq row fun heq => hrow' (heq ▸ List.mem_cons_self), hkv3]
        exact hb.alloc_none row fun hmem => hrow' (List.mem_cons_of_mem _ hmem)
      stored_le := by
        intro x hx
        rw [hconfig]
        exact hb.stored_le x (htree ▸ h.entries_sub x hx) }

/-- `_allocate_slot` as `add_request` calls it. -/
theorem Books.slotTouched (hb : Books e t orphans) {args : AddArgs} {m : PromptMatch}
    {p : PendingReq} {e3 : Engine}
    (hm : PromptMatched e (e.scheduler.handles ++ orphans) args.inputIds m)
    (hq : Queued e args m p e3) {res : Except EngineError Unit}
    (h : e3.allocateSlot p.tableIdx m.cachedLen m.matchedIndices = (res, e')) :
    SlotTouched (m.cacheHandle.toList ++ (e.scheduler.handles ++ orphans)) e3 p.tableIdx e' := by
  have hkv3 : e3.kvCache = e.kvCache := by rw [hq.frame]
  have hconfig3 : e3.config = e.config := by rw [hq.frame]
  have hcache3 : e3.cacheManager = m.engine.cacheManager := by rw [hq.frame]
  have hconfig : m.engine.config = e.config := by rw [hm.frame]
  refine allocateSlot_touched (hm.cacheOk.congr hcache3 (hconfig3.trans hconfig.symm)) ?_ ?_ h
  · rw [hkv3, hconfig3]
    exact hb.pageSize_eq
  · rw [hkv3]
    exact hb.alloc_none _ ((hq.queuedIn hb hm).row_notMem hb.sched)

/-- A call raised before the scheduler had the request, or the scheduler queued it and its
slots were asked for. -/
theorem Books.add_cases (hb : Books e t orphans) (args : AddArgs) :
    ((∃ err, (e.addRequest args).1 = .error err) ∧
      NotQueued e (e.matchPrompt args.inputIds) (e.addRequest args).2) ∨
    ∃ p e3, Queued e args (e.matchPrompt args.inputIds) p e3 ∧
      SlotTouched ((e.matchPrompt args.inputIds).cacheHandle.toList ++
        (e.scheduler.handles ++ orphans)) e3 p.tableIdx (e.addRequest args).2 ∧
      QueuedIn e p (e.addRequest args).2.scheduler := by
  have hm := hb.promptMatched args
  rcases addRequest_cases args hm with ⟨err, e', heq, hnot⟩ | ⟨p, e3, hq, hres⟩
  · left
    rw [heq]
    exact ⟨⟨err, rfl⟩, hnot⟩
  · right
    have htouch : SlotTouched ((e.matchPrompt args.inputIds).cacheHandle.toList ++
        (e.scheduler.handles ++ orphans)) e3 p.tableIdx (e.addRequest args).2 := by
      rcases hres with ⟨err, e', heq, halloc⟩ | ⟨e', heq, halloc⟩ <;> rw [heq] <;>
        exact hb.slotTouched hm hq halloc
    have hsched : (e.addRequest args).2.scheduler = e3.scheduler := by rw [htouch.frame]
    exact ⟨p, e3, hq, htouch, hsched ▸ hq.queuedIn hb hm⟩

theorem Books.addRequest (hb : Books e t orphans) (args : AddArgs) :
    ∃ orphans', Books (e.addRequest args).2 t orphans' := by
  have hm := hb.promptMatched args
  rcases hb.add_cases args with ⟨-, hnot⟩ | ⟨p, e3, hq, htouch, -⟩
  · exact ⟨_, hb.notQueued hm hnot⟩
  · exact ⟨orphans, hb.queued hm hq htouch⟩

/-! ### `abort_request` -/

/-- An abort never raises; it drops the request its uid names, if there is one. -/
theorem Books.abort_cases (hb : Books e t orphans) (uid : Int) :
    (e.scheduler.findSeat uid = none ∧ e.abortRequest uid = .ok (false, e)) ∨
    ∃ seat e', e.scheduler.findSeat uid = some seat ∧ seat.uid = uid ∧
      e.abortRequest uid = .ok (true, e') ∧ seat ∈ e.scheduler.seats ∧
      Aborted (e'.scheduler.handles ++ orphans) e seat e' := by
  have hperm : ∀ {seat : Seat} {s' : Scheduler}, Scheduler.Dropped e.scheduler seat s' →
      (e.scheduler.handles ++ orphans).Perm (seat.handle.toList ++ (s'.handles ++ orphans)) := by
    intro seat s' hdrop
    have h := hdrop.seats_perm.filterMap Seat.handle
    rw [filterMap_handle_cons] at h
    rw [← List.append_assoc]
    exact h.append_right orphans
  rcases Scheduler.abort_spec hb.sched uid with ⟨hnone, -⟩ | ⟨seat, s', hseat, -, habort, hdrop⟩
  · have hc : ∀ seat, e.scheduler.findSeat uid = some seat → e.CacheOk (seat.handle.toList ++ []) := by
      intro seat h
      rw [hnone] at h
      cases h
    rcases abortRequest_cases hb.sched uid hc with h | ⟨seat, e', h, -⟩
    · exact Or.inl h
    · rw [hnone] at h
      cases h
  · right
    have hc : ∀ seat', e.scheduler.findSeat uid = some seat' →
        e.CacheOk (seat'.handle.toList ++ (s'.handles ++ orphans)) := by
      intro seat' h
      rw [hseat] at h
      obtain rfl := Option.some.inj h
      exact hb.cacheOk.perm (hperm hdrop)
    rcases abortRequest_cases hb.sched uid hc with
      ⟨hnone, -⟩ | ⟨seat', e', hseat', huid, heq, habort', hab⟩
    · rw [hseat] at hnone
      cases hnone
    · have hsched : s' = e'.scheduler := by
        rw [habort] at habort'
        exact congrArg Prod.snd habort'
      refine ⟨seat', e', hseat', huid, heq,
        hab.dropped.seats_perm.mem_iff.mpr List.mem_cons_self, ?_⟩
      rw [← hsched]
      exact hab

theorem Aborted.lives_sub {hs : List RadixCacheHandle} {seat : Seat} (h : Aborted hs e seat e') :
    ∀ x ∈ e'.lives t, x ∈ e.lives t := by
  intro x hx
  rcases List.mem_append.mp hx with hx | hx
  · obtain ⟨p, hp, rfl⟩ := List.mem_map.mp hx
    exact mem_lives_of_pending (h.dropped.pending_sub p hp)
  · obtain ⟨r, hr, rfl⟩ := List.mem_map.mp hx
    exact mem_lives_of_running (h.dropped.running_sub r hr)

theorem Books.aborted (hb : Books e t orphans) {seat : Seat}
    (h : Aborted (e'.scheduler.handles ++ orphans) e seat e') : Books e' t orphans := by
  have hdrop := h.dropped
  have hconfig : e'.config = e.config := by rw [h.frame]
  have hkv : e'.kvCache = e.kvCache.free seat.row := by rw [h.frame]
  have hids : e'.fullIds = Function.update e.fullIds seat.row none := by rw [h.frame]
  obtain ⟨halloc, hps, -, -⟩ := e.kvCache.free_frame seat.row
  have hrow : seat.row ∉ e'.scheduler.seats.map Seat.row := by
    have hn := (hdrop.seats_perm.map Seat.row).nodup_iff.mp hb.sched.seat_rows_nodup
    exact (List.nodup_cons.mp hn).1
  exact
    { sched := hdrop.ok
      maxRunningReq_eq := by
        rw [hconfig, ← hb.maxRunningReq_eq]
        exact hdrop.limits.maxRunningReq_eq
      maxExtendTokens_eq := by
        rw [hconfig, ← hb.maxExtendTokens_eq]
        exact hdrop.limits.maxExtendTokens_eq
      recorded :=
        { length_eq := fun r hr => hb.recorded.length_eq r (hdrop.running_sub r hr)
          last_eq := fun r hr => hb.recorded.last_eq r (hdrop.running_sub r hr)
          fullIds_eq := by
            intro hsome r hr
            have hne : r.tableIdx ≠ seat.row := fun heq => hrow <| heq ▸
              List.mem_map.mpr ⟨r.seat, List.mem_append_right _ (List.mem_map.mpr ⟨r, hr, rfl⟩), rfl⟩
            rw [hids, Function.update_of_ne hne]
            exact hb.recorded.fullIds_eq (h.isSome_eq ▸ hsome) r (hdrop.running_sub r hr) }
      cacheOk := h.cacheOk
      isSome_eq := by rw [h.isSome_eq, hconfig]; exact hb.isSome_eq
      handle_isSome := by
        intro x hx
        rw [h.isSome_eq]
        exact hb.handle_isSome x (hdrop.seats_perm.mem_iff.mpr (List.mem_cons_of_mem _ hx))
      pageSize_eq := by rw [hkv, hps, hconfig]; exact hb.pageSize_eq
      alloc_none := by
        intro row hnot
        rw [hkv, halloc, Function.update_apply]
        split
        · rfl
        · rename_i hne
          refine hb.alloc_none row fun hmem => ?_
          rcases List.mem_cons.mp ((hdrop.seats_perm.map Seat.row).mem_iff.mp hmem) with heq | hmem
          · exact hne heq
          · exact hnot hmem
      stored_le := by
        intro x hx
        rw [hconfig]
        exact hb.stored_le x (h.entries_eq ▸ hx) }

/-! ### `step` -/

/-- What a round of the commit loop keeps, with or without a prefix cache. -/
theorem commitOne_keeps {hs : List RadixCacheHandle} {req : Req}
    (hc : e.CacheOk (req.cacheHandle.toList ++ hs))
    (hstored : ∀ x ∈ e.tree.entries, x.1.length ≤ e.config.maxSeqLen)
    (h : e.commitOne req = some e') :
    e'.CacheOk hs ∧ (∀ x ∈ e'.tree.entries, x.1.length ≤ e'.config.maxSeqLen) ∧
      ∀ x ∈ hs, e'.handleSpan x = e.handleSpan x := by
  cases hcm : e.cacheManager with
  | none =>
      rw [commitOne_off hcm] at h
      obtain rfl := Option.some.inj h
      refine ⟨fun c hc' => ?_, hstored, fun _ _ => rfl⟩
      rw [hcm] at hc'
      cases hc'
  | some c =>
      obtain ⟨n, hcommit⟩ := commitOne_spec (by rw [hcm]; rfl) hc hstored h
      refine ⟨hcommit.cacheOk, ?_, hcommit.span_eq⟩
      intro x hx
      have hconfig : e'.config = e.config := by rw [hcommit.frame]
      rw [hconfig]
      rcases List.mem_append.mp (hcommit.entries_perm.mem_iff.mp hx) with hx | hx
      · exact hstored x hx
      · obtain ⟨j, -, hlt, -, hq⟩ := (RadixPrefixCache.mem_newEntries hcommit.le).mp hx
        have hle := hcommit.aligned_le
        rw [hq, List.length_take]
        omega

theorem commitAll_keeps {hs : List RadixCacheHandle} {reqs : List Req}
    (hc : e.CacheOk (reqs.filterMap Req.cacheHandle ++ hs))
    (hstored : ∀ x ∈ e.tree.entries, x.1.length ≤ e.config.maxSeqLen)
    (h : e.commitAll reqs = some e') :
    e'.CacheOk hs ∧ (∀ x ∈ e'.tree.entries, x.1.length ≤ e'.config.maxSeqLen) ∧
      ∀ x ∈ hs, e'.handleSpan x = e.handleSpan x := by
  have hinduct := commitAll_induct (P := fun rest e1 =>
    e1.CacheOk (rest.filterMap Req.cacheHandle ++ hs) ∧
      (∀ x ∈ e1.tree.entries, x.1.length ≤ e1.config.maxSeqLen) ∧
      ∀ x ∈ hs, e1.handleSpan x = e.handleSpan x) ?_ ⟨hc, hstored, fun _ _ => rfl⟩ h
  · exact hinduct
  · rintro req rest e1 e2 ⟨hc1, hstored1, hspan1⟩ hone
    have hcons : (req :: rest).filterMap Req.cacheHandle ++ hs =
        req.cacheHandle.toList ++ (rest.filterMap Req.cacheHandle ++ hs) := by
      cases hh : req.cacheHandle <;> simp [hh]
    obtain ⟨hc2, hstored2, hspan2⟩ := commitOne_keeps (hcons ▸ hc1) hstored1 hone
    exact ⟨hc2, hstored2, fun x hx =>
      (hspan2 x (List.mem_append_right _ hx)).trans (hspan1 x hx)⟩

namespace StepRun

variable {sampled : Nat → Token} {out : StepOutput} {s1 : Scheduler} {e2 : Engine}

variable (h : StepRun e sampled out e' s1 e2)
include h

theorem handles_perm (hb : Books e t orphans) :
    (e.scheduler.handles ++ orphans).Perm
      (out.finished.filterMap Req.cacheHandle ++ (e'.scheduler.handles ++ orphans)) := by
  have hperm := (h.stepped hb.sched).seats_perm.filterMap Seat.handle
  rw [List.filterMap_append, h.finishedIn_eq, List.filterMap_map] at hperm
  rw [← List.append_assoc]
  exact (hperm.trans List.perm_append_comm).append_right orphans

/-- What the commits of a step keep. -/
theorem keeps (hb : Books e t orphans) :
    e2.CacheOk (e'.scheduler.handles ++ orphans) ∧
      (∀ x ∈ e2.tree.entries, x.1.length ≤ e2.config.maxSeqLen) ∧
      ∀ x ∈ e'.scheduler.handles ++ orphans, e2.handleSpan x = e.handleSpan x := by
  have hf := mid_frame e out s1
  have htree := tree_congr (e := e) hf.cacheManager_eq
  obtain ⟨h1, h2, h3⟩ := commitAll_keeps
    ((hb.cacheOk.perm (h.handles_perm hb)).congr hf.cacheManager_eq hf.config_eq)
    (by rw [htree, hf.config_eq]; exact hb.stored_le) h.commit_mid
  refine ⟨h1, h2, fun x hx => (h3 x hx).trans ?_⟩
  exact handleSpan_congr (e := e) hf.cacheManager_eq x

/-- The KV slots of the finished rows go back when the batch is handed back. -/
theorem final (hb : Books e t orphans) :
    ∃ freed : List Nat, freed.Perm (out.finished.map Req.tableIdx) ∧ freed.Nodup ∧ e' =
      { e2 with
        scheduler := e'.scheduler
        kvCache := freed.foldl MHAKVCache.free e2.kvCache } := by
  have hstep := h.stepped hb.sched
  have hfree := hstep.freeSlots_perm
  rw [h.finishedIn_eq, h.scheduler_eq] at hfree
  have hn : (s1.complete out.reqs).freeSlots.Nodup := by
    rw [← h.scheduler_eq]
    exact (List.nodup_append'.mp hstep.ok.rows_nodup).1
  have hs1 : e2.scheduler = s1 := h.frame.scheduler_eq
  have hfree1 := Scheduler.schedule_freeSlots h.schedule_eq
  obtain ⟨freed, hperm, heq⟩ := complete_spec
    (show (e2.scheduler.complete out.reqs).freeSlots.Perm
      (e2.scheduler.freeSlots ++ out.finished.map Req.tableIdx) by
      rw [hs1, hfree1]
      exact hfree)
    (by rw [hs1]; exact hn)
  refine ⟨freed, hperm,
    hperm.nodup_iff.mpr (List.nodup_append'.mp (h.finished_rows_nodup hb.sched)).2.1, ?_⟩
  have hcomplete := h.final_eq
  rw [heq] at hcomplete
  rw [hcomplete]

theorem books (hb : Books e t orphans) : Books e' (transcript out t) orphans := by
  have hstep := h.stepped hb.sched
  obtain ⟨hc, hstored, -⟩ := h.keeps hb
  obtain ⟨freed, hperm, hn, heq⟩ := h.final hb
  have hconfig : e'.config = e.config := h.config_eq
  have hconfig2 : e2.config = e.config := h.frame.config_eq
  have hcache : e'.cacheManager = e2.cacheManager := by rw [heq]
  have hkv : e'.kvCache = freed.foldl MHAKVCache.free e2.kvCache := by rw [heq]
  obtain ⟨halloc, hps, -, -⟩ := MHAKVCache.foldl_free_frame e2.kvCache hn
  have hsome : e'.cacheManager.isSome = e.cacheManager.isSome := by
    rw [hcache]
    exact h.frame.isSome_eq
  exact
    { sched := hstep.ok
      maxRunningReq_eq := by
        rw [hconfig, ← hb.maxRunningReq_eq]
        exact hstep.limits.maxRunningReq_eq
      maxExtendTokens_eq := by
        rw [hconfig, ← hb.maxExtendTokens_eq]
        exact hstep.limits.maxExtendTokens_eq
      recorded := h.recorded hb.sched hb.recorded
      cacheOk := hc.congr hcache (hconfig.trans hconfig2.symm)
      isSome_eq := by rw [hsome, hconfig]; exact hb.isSome_eq
      handle_isSome := by
        intro seat hseat
        rw [hsome]
        exact hb.handle_isSome seat (hstep.seats_perm.mem_iff.mpr (List.mem_append_left _ hseat))
      pageSize_eq := by
        rw [hkv, hps, hconfig, ← hb.pageSize_eq]
        exact h.frame.kvPageSize_eq
      alloc_none := by
        intro row hrow
        rw [hkv, halloc]
        split
        · rfl
        · rename_i hnot
          have hnot' : row ∉ out.finished.map Req.tableIdx := fun hmem =>
            hnot (hperm.mem_iff.mpr hmem)
          have hkeep := (commitAll_others h.commit_mid hnot').2.2
          rw [hkeep, (mid_frame e out s1).kvCache_eq]
          refine hb.alloc_none row fun hmem => ?_
          have hperm' := hstep.seats_perm.map Seat.row
          rw [List.map_append, Scheduler.map_row_seat_running, h.finishedIn_eq] at hperm'
          rcases List.mem_append.mp (hperm'.mem_iff.mp hmem) with hmem | hmem
          · exact hrow hmem
          · exact hnot' hmem
      stored_le := by
        intro x hx
        rw [tree_congr hcache] at hx
        rw [hconfig, ← hconfig2]
        exact hstored x hx }

end StepRun

theorem Books.step (hb : Books e t orphans) {sampled : Nat → Token} {out : StepOutput}
    (h : e.step sampled = .ok (out, e')) : Books e' (StepRun.transcript out t) orphans := by
  rcases step_cases h with ⟨-, rfl, rfl⟩ | ⟨s1, e2, hrun⟩
  · exact hb
  · exact hrun.books hb

/-! ### Runs -/

theorem Books.call (hb : Books e t orphans) {c : Call} (h : e.call c = some e') :
    ∃ t' orphans', Books e' t' orphans' := by
  cases c with
  | addRequest args =>
      obtain rfl := Option.some.inj h
      obtain ⟨orphans', hb'⟩ := hb.addRequest args
      exact ⟨t, orphans', hb'⟩
  | step sampled =>
      simp only [Engine.call] at h
      split at h
      · rename_i out e1 hstep
        obtain rfl := Option.some.inj h
        exact ⟨_, _, hb.step hstep⟩
      · cases h
  | abortRequest uid =>
      simp only [Engine.call] at h
      rcases hb.abort_cases uid with ⟨-, heq⟩ | ⟨seat, e1, -, -, heq, -, hab⟩
      · rw [heq] at h
        obtain rfl := Option.some.inj h
        exact ⟨t, orphans, hb⟩
      · rw [heq] at h
        obtain rfl := Option.some.inj h
        exact ⟨t, orphans, hb.aborted hab⟩

/-- The configuration and the sizes. -/
structure SameSizes (e e' : Engine) : Prop where
  config_eq : e'.config = e.config
  limits : Scheduler.SameLimits e.scheduler e'.scheduler
  poolNumPages_eq : e'.poolNumPages = e.poolNumPages
  poolBudget_eq : e'.poolBudget = e.poolBudget
  numPages_eq : e'.kvCache.numPages = e.kvCache.numPages

theorem SameSizes.refl (e : Engine) : SameSizes e e := ⟨rfl, .refl _, rfl, rfl, rfl⟩

/-- No call changes them. -/
theorem Books.sizes_call (hb : Books e t orphans) {c : Call} (h : e.call c = some e') :
    SameSizes e e' := by
  cases c with
  | addRequest args =>
      obtain rfl := Option.some.inj h
      have hm := hb.promptMatched args
      rcases hb.add_cases args with ⟨-, hnot⟩ | ⟨p, e3, hq, htouch, hin⟩
      · rw [hnot.frame hm]
        exact ⟨rfl, .refl _, rfl, rfl, rfl⟩
      · have hkv : (e.addRequest args).2.kvCache.numPages = e.kvCache.numPages := by
          rw [htouch.numPages_eq, hq.frame]
        exact ⟨by rw [htouch.frame, hq.frame], hin.limits, by rw [htouch.frame, hq.frame],
          by rw [htouch.frame, hq.frame], hkv⟩
  | step sampled =>
      simp only [Engine.call] at h
      split at h
      · rename_i out e1 hstep
        obtain rfl := Option.some.inj h
        rcases step_cases hstep with ⟨-, -, rfl⟩ | ⟨s1, e2, hrun⟩
        · exact .refl _
        · obtain ⟨freed, -, hn, heq⟩ := hrun.final hb
          obtain ⟨-, -, hnp, -⟩ := MHAKVCache.foldl_free_frame e2.kvCache hn
          have hkv : e1.kvCache = freed.foldl MHAKVCache.free e2.kvCache := by rw [heq]
          have hframe := hrun.frame
          constructor
          · exact hrun.config_eq
          · exact (hrun.stepped hb.sched).limits
          · rw [heq]
            exact hframe.poolNumPages_eq
          · rw [heq]
            exact hframe.poolBudget_eq
          · rw [hkv, hnp]
            exact hframe.kvNumPages_eq
      · cases h
  | abortRequest uid =>
      simp only [Engine.call] at h
      rcases hb.abort_cases uid with ⟨-, heq⟩ | ⟨seat, e1, -, -, heq, -, hab⟩
      · rw [heq] at h
        obtain rfl := Option.some.inj h
        exact .refl _
      · rw [heq] at h
        obtain rfl := Option.some.inj h
        have hkv : e1.kvCache = e.kvCache.free seat.row := by rw [hab.frame]
        constructor
        · rw [hab.frame]
        · exact hab.dropped.limits
        · rw [hab.frame]
        · rw [hab.frame]
        · rw [hkv]
          exact (e.kvCache.free_frame seat.row).2.2.1

/-- Every reachable engine keeps its books. -/
theorem books_of_runs {config : EngineConfig} {calls : List Call} (h : runs config calls = some e) :
    ∃ t orphans, Books e t orphans :=
  Run.invariant_of_all (fun e => ∃ t orphans, Books e t orphans)
    (fun _ _ _ ⟨_, _, hb⟩ hcall => hb.call hcall) ⟨fun _ => [], [], books_init config _⟩ h

end Engine

end FreeToken
