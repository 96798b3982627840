import FreeToken.Engine.CacheView

/-!
# What committing and aborting a request did

A finished request's handle is unlocked, its whole pages go to the tree, and the
slots the tree did not take go back to the pool. An aborted request's handle is
unlocked and its row freed.
-/

namespace FreeToken

namespace Engine

variable {e e' : Engine}

/-- The tokens a row would commit. -/
def history (e : Engine) (row : Nat) : List Token := (e.fullIds row).getD []

/-- The cached prefix a row was admitted with. -/
def admitted (e : Engine) (row : Nat) : Nat := ((e.admittedCachedLen row).getD 0).toNat

/-- The slots allocated to a row. -/
def owned (e : Engine) (row : Nat) : List Slot := (e.kvCache.alloc row).getD []

/-- One round of the commit loop on an engine with a prefix cache; `n` is the
length the tree had stored already. -/
structure Committed (hs : List RadixCacheHandle) (e : Engine) (req : Req) (e' : Engine) (n : Nat) :
    Prop where
  frame : e' = { e with
    cacheManager := e'.cacheManager
    kvCache := e'.kvCache
    linearStatePool := e'.linearStatePool
    fullIds := Function.update e.fullIds req.tableIdx none
    admittedCachedLen := Function.update e.admittedCachedLen req.tableIdx none }
  cacheOk : e'.CacheOk hs
  isSome_eq : e'.cacheManager.isSome = e.cacheManager.isSome
  span_eq : ∀ h ∈ hs, e'.handleSpan h = e.handleSpan h
  linear_eq : e'.linearStatePool = e.linearStatePool.map fun pool => pool.free (e.undonated req)
  dvd : e.config.pageSize ∣ n
  le : n ≤ alignDownNat (e.history req.tableIdx).length e.config.pageSize
  aligned_le : alignDownNat (e.history req.tableIdx).length e.config.pageSize ≤ e.config.maxSeqLen
  longest : e.history req.tableIdx ≠ [] → ∀ q s, (q, s) ∈ e.tree.entries →
    q <+: e.history req.tableIdx → e.config.pageSize ∣ q.length → q.length ≤ n
  entries_perm : e'.tree.entries.Perm (e.tree.entries ++
    RadixPrefixCache.newEntries e.config.pageSize n (e.history req.tableIdx)
      (e.rowSlice req.tableIdx 0 (e.history req.tableIdx).length))
  kv_nil : e.history req.tableIdx = [] → e'.kvCache = e.kvCache
  kv_eq : e.history req.tableIdx ≠ [] → e'.kvCache =
    (e.kvCache.detach req.tableIdx).releaseSlots
      (e.rowSlice req.tableIdx (e.admitted req.tableIdx) n ++
        e.rowSlice req.tableIdx (e.history req.tableIdx).length e.config.maxSeqLen)

theorem unlock_toList {c : RadixPrefixCache} {handle : Option RadixCacheHandle}
    {hs : List RadixCacheHandle} (hw : c.WellFormed (handle.toList ++ hs)) :
    ∃ c', (handle = none ∧ c' = c ∨ ∃ h, handle = some h ∧ c.unlock h = some c') ∧
      c'.WellFormed hs ∧ RadixPrefixCache.Keeps c c' := by
  cases handle with
  | none => exact ⟨c, Or.inl ⟨rfl, rfl⟩, hw, RadixPrefixCache.Keeps.refl c⟩
  | some h =>
      obtain ⟨c', hunlock, hw', hkeeps⟩ := RadixPrefixCache.unlock_spec hw
      exact ⟨c', Or.inr ⟨h, rfl, hunlock⟩, hw', hkeeps⟩

/-- The engine `commitIds` is called on. -/
def forgot (e : Engine) (row : Nat) : Engine :=
  { e with
    fullIds := Function.update e.fullIds row none
    admittedCachedLen := Function.update e.admittedCachedLen row none }

theorem commitOne_cases {hs : List RadixCacheHandle} {req : Req} {c : RadixPrefixCache}
    (hcm : e.cacheManager = some c) (hw : c.WellFormed (req.cacheHandle.toList ++ hs)) :
    ∃ c1, c1.WellFormed hs ∧ RadixPrefixCache.Keeps c c1 ∧
      e.commitOne req = ((e.forgot req.tableIdx).commitIds c1 req.tableIdx (e.history req.tableIdx)
        (e.admitted req.tableIdx)).map fun e1 => e1.releaseLinear req := by
  obtain ⟨c1, hunlock, hw1, hkeeps⟩ := unlock_toList hw
  refine ⟨c1, hw1, hkeeps, ?_⟩
  rcases hunlock with ⟨hnone, rfl⟩ | ⟨h, hsome, hunlock⟩
  · simp only [commitOne, hcm, hnone]
    rfl
  · simp only [commitOne, hcm, hsome, hunlock]
    rfl

theorem commitOne_spec {hs : List RadixCacheHandle} {req : Req} (hsome : e.cacheManager.isSome)
    (hc : e.CacheOk (req.cacheHandle.toList ++ hs))
    (hstored : ∀ x ∈ e.tree.entries, x.1.length ≤ e.config.maxSeqLen)
    (h : e.commitOne req = some e') : ∃ n, Committed hs e req e' n := by
  obtain ⟨c, hcm⟩ := Option.isSome_iff_exists.mp hsome
  obtain ⟨hw, hps⟩ := hc c hcm
  obtain ⟨c1, hw1, hkeeps, heq⟩ := commitOne_cases hcm hw
  have hps1 : c1.pageSize = e.config.pageSize := hkeeps.pageSize_eq.trans hps
  have hspan1 : ∀ x ∈ hs, c1.handleSpan x = c.handleSpan x := fun x hx =>
    hkeeps.handleSpan_eq fun u hu => hw.held x (List.mem_append_right _ hx) u hu
  rw [heq, Option.map_eq_some_iff] at h
  obtain ⟨e1, h1, rfl⟩ := h
  unfold commitIds at h1
  split at h1
  · rename_i hnil
    cases h1
    refine ⟨0, ?_⟩
    exact
      { frame := rfl
        cacheOk := fun c' hc' => by
          obtain rfl := Option.some.inj hc'
          exact ⟨hw1, hps1⟩
        isSome_eq := by simp [releaseLinear, hcm]
        span_eq := by
          intro x hx
          simp only [handleSpan, releaseLinear, hcm, Option.bind_some]
          exact hspan1 x hx
        linear_eq := rfl
        dvd := Nat.dvd_zero _
        le := Nat.zero_le _
        aligned_le := by simp [hnil, alignDownNat]
        longest := fun h => absurd hnil h
        entries_perm := by
          simp only [tree, releaseLinear, hcm, hkeeps.entries_eq, hnil]
          simp [RadixPrefixCache.newEntries, spanEntries]
        kv_nil := fun _ => rfl
        kv_eq := fun h => absurd hnil h }
  · rename_i hne
    split at h1
    · cases h1
    · rename_i res c2 hins
      cases h1
      have hslice : (e.forgot req.tableIdx).rowSlice req.tableIdx 0
          (e.history req.tableIdx).length =
          e.rowSlice req.tableIdx 0 (e.history req.tableIdx).length := rfl
      rw [hslice] at hins
      have hlen : (e.rowSlice req.tableIdx 0 (e.history req.tableIdx).length).length =
          min (e.history req.tableIdx).length e.config.maxSeqLen := by simp [rowSlice]
      have htree : e.tree = c.tree := by simp [tree, hcm]
      have halign := alignDownNat_le (e.history req.tableIdx).length e.config.pageSize
      -- the slots cover the whole pages, or `insert_prefix` would have asserted
      have hfit : alignDownNat (e.history req.tableIdx).length e.config.pageSize ≤
          e.config.maxSeqLen := by
        rcases RadixPrefixCache.insertPrefix_fits hw1 hins with hfit | ⟨s, hs⟩
        · rw [hlen, hps1] at hfit
          omega
        · rw [hkeeps.entries_eq, ← htree, hps1] at hs
          have := hstored _ hs
          simp only [List.length_take] at this
          omega
      obtain ⟨res', c2', hins', hspec⟩ := RadixPrefixCache.insertPrefix_spec hw1
        (show alignDownNat (e.history req.tableIdx).length c1.pageSize ≤
          (e.rowSlice req.tableIdx 0 (e.history req.tableIdx).length).length by
          rw [hlen, hps1]
          omega)
      rw [hins] at hins'
      simp only [Option.some.injEq, Prod.mk.injEq] at hins'
      obtain ⟨rfl, rfl⟩ := hins'
      refine ⟨res.cachedLen, ?_⟩
      exact
        { frame := rfl
          cacheOk := fun c' hc' => by
            obtain rfl := Option.some.inj hc'
            exact ⟨hspec.wellFormed, hspec.pageSize_eq.trans hps1⟩
          isSome_eq := by simp [releaseLinear, hcm]
          span_eq := by
            intro x hx
            simp only [handleSpan, releaseLinear, hcm, Option.bind_some]
            refine Eq.trans ?_ (hspan1 x hx)
            unfold RadixPrefixCache.handleSpan
            cases hnode : x.node with
            | none => rfl
            | some u => exact (hspec.span_eq u (hw1.held x hx u hnode)).2
          linear_eq := rfl
          dvd := hps1 ▸ hspec.dvd_cachedLen
          le := hps1 ▸ hspec.cachedLen_le
          aligned_le := hfit
          longest := by
            intro _ q s hq hpre hdvd
            rw [htree] at hq
            exact hspec.longest q s (hkeeps.entries_eq ▸ hq) hpre (hps1 ▸ hdvd)
          entries_perm := by
            rw [htree, ← hkeeps.entries_eq, ← hps1]
            exact hspec.entries_perm
          kv_nil := fun h => absurd h hne
          kv_eq := fun _ => rfl }

/-- A round of the commit loop only touches its own row. -/
theorem commitOne_others {req : Req} (h : e.commitOne req = some e') {row : Nat}
    (hrow : row ≠ req.tableIdx) :
    e'.fullIds row = e.fullIds row ∧ e'.admittedCachedLen row = e.admittedCachedLen row ∧
      e'.kvCache.alloc row = e.kvCache.alloc row := by
  unfold commitOne at h
  split at h
  · cases h
    exact ⟨rfl, rfl, rfl⟩
  · dsimp only at h
    split at h
    · cases h
    · simp only [Option.map_eq_some_iff] at h
      obtain ⟨e1, h1, rfl⟩ := h
      unfold commitIds at h1
      split at h1
      · cases h1
        exact ⟨Function.update_of_ne hrow _ _, Function.update_of_ne hrow _ _, rfl⟩
      · split at h1
        · cases h1
        · cases h1
          refine ⟨Function.update_of_ne hrow _ _, Function.update_of_ne hrow _ _, ?_⟩
          simp only [releaseLinear]
          rw [(MHAKVCache.releaseSlots_frame _ _).1]
          exact Function.update_of_ne hrow _ _

/-- A property of the engine and the requests still to be committed is kept through
the commit loop if each round keeps it. -/
theorem commitAll_induct {P : List Req → Engine → Prop}
    (hstep : ∀ req reqs e e', P (req :: reqs) e → e.commitOne req = some e' → P reqs e') :
    ∀ {reqs : List Req} {e e' : Engine}, P reqs e → e.commitAll reqs = some e' → P [] e'
  | [], e, e', hp, h => by
      cases h
      exact hp
  | req :: reqs, e, e', hp, h => by
      simp only [commitAll] at h
      split at h
      · cases h
      · rename_i e1 h1
        exact commitAll_induct hstep (hstep req reqs e e1 hp h1) h

theorem commitAll_others {reqs : List Req} (h : e.commitAll reqs = some e') {row : Nat}
    (hrow : row ∉ reqs.map Req.tableIdx) :
    e'.fullIds row = e.fullIds row ∧ e'.admittedCachedLen row = e.admittedCachedLen row ∧
      e'.kvCache.alloc row = e.kvCache.alloc row := by
  have hinduct := commitAll_induct (P := fun rest e1 => (∀ req ∈ rest, req ∈ reqs) ∧
    e1.fullIds row = e.fullIds row ∧ e1.admittedCachedLen row = e.admittedCachedLen row ∧
      e1.kvCache.alloc row = e.kvCache.alloc row) ?_ ⟨fun _ h => h, rfl, rfl, rfl⟩ h
  · exact hinduct.2
  · rintro req rest e1 e2 ⟨hsub, h1, h2, h3⟩ hone
    have hne : row ≠ req.tableIdx := fun heq =>
      hrow (List.mem_map.mpr ⟨req, hsub req List.mem_cons_self, heq.symm⟩)
    obtain ⟨h1', h2', h3'⟩ := commitOne_others hone hne
    exact ⟨fun r hr => hsub r (List.mem_cons_of_mem _ hr), h1'.trans h1, h2'.trans h2, h3'.trans h3⟩

theorem commitOne_off {req : Req} (hoff : e.cacheManager = none) : e.commitOne req = some e := by
  simp [commitOne, hoff]

theorem commitAll_off (hoff : e.cacheManager = none) : ∀ {reqs : List Req},
    e.commitAll reqs = some e
  | [] => rfl
  | req :: reqs => by
      simp only [commitAll, commitOne_off hoff]
      exact commitAll_off hoff

/-! ### Freed rows -/

/-- The rows in `set(after) - before`. -/
theorem filter_notMem_perm {after before rows : List Nat} (hperm : after.Perm (before ++ rows))
    (hn : after.Nodup) : (after.filter fun row => row ∉ before).Perm rows := by
  have hn' := hperm.nodup_iff.mp hn
  obtain ⟨-, -, hdisj⟩ := List.nodup_append'.mp hn'
  refine (hperm.filter _).trans ?_
  rw [List.filter_append]
  have hbefore : before.filter (fun row => decide (row ∉ before)) = [] := by
    refine List.filter_eq_nil_iff.mpr fun row hrow => ?_
    simpa using hrow
  have hrows : rows.filter (fun row => decide (row ∉ before)) = rows := by
    refine List.filter_eq_self.mpr fun row hrow => ?_
    simpa using fun h => hdisj h hrow
  rw [hbefore, hrows, List.nil_append]

/-- Handing a batch back frees the KV slots of the rows that were freed. -/
theorem complete_spec {reqs : List Req} {rows : List Nat}
    (hperm : (e.scheduler.complete reqs).freeSlots.Perm (e.scheduler.freeSlots ++ rows))
    (hn : (e.scheduler.complete reqs).freeSlots.Nodup) :
    ∃ freed : List Nat, freed.Perm rows ∧ e.complete reqs =
      { e with
        scheduler := e.scheduler.complete reqs
        kvCache := freed.foldl MHAKVCache.free e.kvCache } :=
  ⟨_, filter_notMem_perm hperm hn, rfl⟩

/-! ### `abort_request` -/

/-- The request at `seat` was aborted while the handles `hs` stay locked. -/
structure Aborted (hs : List RadixCacheHandle) (e : Engine) (seat : Seat) (e' : Engine) : Prop where
  frame : e' = { e with
    cacheManager := e'.cacheManager
    kvCache := e.kvCache.free seat.row
    linearStatePool := e.linearStatePool.map fun pool =>
      pool.free (slotsToFree seat.linearSlotIdx seat.mambaPingPong)
    scheduler := e'.scheduler
    fullIds := Function.update e.fullIds seat.row none
    admittedCachedLen := Function.update e.admittedCachedLen seat.row none }
  dropped : Scheduler.Dropped e.scheduler seat e'.scheduler
  cacheOk : e'.CacheOk hs
  isSome_eq : e'.cacheManager.isSome = e.cacheManager.isSome
  entries_eq : e'.tree.entries = e.tree.entries
  span_eq : ∀ h ∈ hs, e'.handleSpan h = e.handleSpan h

theorem findCacheHandle_eq (hs : e.scheduler.Ok) (uid : Int) :
    e.findCacheHandle uid = (e.scheduler.findSeat uid).bind Seat.handle := by
  unfold findCacheHandle Scheduler.findSeat
  cases hp : e.scheduler.pendingList.find? fun p => p.uid = uid with
  | none =>
      cases hr : e.scheduler.runningReqs.find? fun r => r.uid = uid <;> rfl
  | some p =>
      have hok := hs.pending_ok p (List.mem_of_find?_eq_some hp)
      cases hc : p.chunkedReq with
      | none => simp only [hc]; rfl
      | some c =>
          simp only [hc]
          exact congrArg Seat.handle (hok.chunk c hc).2.1

theorem findLinearSlots_eq (e : Engine) (uid : Int) :
    e.findLinearSlots uid = match e.scheduler.findSeat uid with
      | some seat => (seat.linearSlotIdx, seat.mambaPingPong)
      | none => (none, none) := by
  unfold findLinearSlots Scheduler.findSeat
  cases hp : e.scheduler.pendingList.find? fun p => p.uid = uid with
  | some p => rfl
  | none => cases hr : e.scheduler.runningReqs.find? fun r => r.uid = uid <;> rfl

theorem freeLinear_nil (e : Engine) : e.freeLinear [] = e := by
  have hpool : (e.linearStatePool.map fun pool => pool.free []) = e.linearStatePool := by
    cases e.linearStatePool <;> simp [LinearStatePool.free]
  rw [freeLinear, hpool]

theorem unlockHandle_spec {hs : List RadixCacheHandle} {handle : Option RadixCacheHandle}
    (hc : e.CacheOk (handle.toList ++ hs)) :
    ∃ cm, e.unlockHandle handle = some { e with cacheManager := cm } ∧
      CacheOk { e with cacheManager := cm } hs ∧ cm.isSome = e.cacheManager.isSome ∧
      (tree { e with cacheManager := cm }).entries = e.tree.entries ∧
      ∀ h ∈ hs, handleSpan { e with cacheManager := cm } h = e.handleSpan h := by
  cases hcm : e.cacheManager with
  | none =>
      have hsame : { e with cacheManager := none } = e := by rw [← hcm]
      refine ⟨none, ?_, ?_, rfl, ?_, ?_⟩
      · simp only [unlockHandle, hcm, hsame]
      · rw [hsame]
        intro c hc'
        rw [hcm] at hc'
        cases hc'
      · rw [hsame]
      · rw [hsame]
        exact fun _ _ => rfl
  | some c =>
      obtain ⟨hw, hps⟩ := hc c hcm
      obtain ⟨c1, hunlock, hw1, hkeeps⟩ := unlock_toList hw
      refine ⟨some c1, ?_, ?_, rfl, ?_, ?_⟩
      · rcases hunlock with ⟨rfl, rfl⟩ | ⟨h, rfl, hunlock⟩
        · simp only [unlockHandle, hcm]
          rw [← hcm]
        · simp [unlockHandle, hcm, hunlock]
      · intro c' hc'
        obtain rfl := Option.some.inj hc'
        exact ⟨hw1, hkeeps.pageSize_eq.trans hps⟩
      · simp only [tree, hcm]
        exact hkeeps.entries_eq
      · intro h hh
        simp only [handleSpan, hcm, Option.bind_some]
        exact hkeeps.handleSpan_eq fun u hu => hw.held h (List.mem_append_right _ hh) u hu

theorem abortRequest_cases {hs : List RadixCacheHandle} (hok : e.scheduler.Ok) (uid : Int)
    (hc : ∀ seat, e.scheduler.findSeat uid = some seat → e.CacheOk (seat.handle.toList ++ hs)) :
    (e.scheduler.findSeat uid = none ∧ e.abortRequest uid = .ok (false, e)) ∨
    ∃ seat e', e.scheduler.findSeat uid = some seat ∧ seat.uid = uid ∧
      e.abortRequest uid = .ok (true, e') ∧ e.scheduler.abort uid = (true, e'.scheduler) ∧
      Aborted hs e seat e' := by
  rcases Scheduler.abort_spec hok uid with ⟨hnone, habort⟩ | ⟨seat, s', hseat, huid, habort, hdrop⟩
  · left
    refine ⟨hnone, ?_⟩
    have hhandle := findCacheHandle_eq hok uid
    have hslots := e.findLinearSlots_eq uid
    rw [hnone] at hhandle hslots
    have hunlock : e.unlockHandle (e.findCacheHandle uid) = some e := by
      rw [hhandle]
      cases hcm : e.cacheManager <;> simp [unlockHandle, hcm]
    simp only [abortRequest, hunlock, hslots, slotsToFree, freeLinear_nil, habort]
    rfl
  · right
    obtain ⟨cm, hunlock, hc1, hsome, hentries, hspan⟩ := unlockHandle_spec (hc seat hseat)
    have hhandle : e.findCacheHandle uid = seat.handle := by
      rw [findCacheHandle_eq hok, hseat]
      rfl
    have hslots : findLinearSlots { e with cacheManager := cm } uid =
        (seat.linearSlotIdx, seat.mambaPingPong) := by
      rw [findLinearSlots_eq]
      simp only [hseat]
    have hn : s'.freeSlots.Nodup := (List.nodup_append'.mp hdrop.ok.rows_nodup).1
    have hfreed : s'.freeSlots.filter (fun row => row ∉ e.scheduler.freeSlots) = [seat.row] := by
      refine List.perm_singleton.mp (filter_notMem_perm ?_ hn)
      exact hdrop.freeSlots_perm.trans (List.perm_append_singleton _ _).symm
    have hforget : ∀ {α : Type} (f : Nat → Option α),
        (fun row => if row ∈ [seat.row] then none else f row) = Function.update f seat.row none := by
      intro α f
      funext row
      simp only [Function.update_apply, List.mem_singleton]
    refine ⟨seat,
      { e with
        cacheManager := cm
        kvCache := e.kvCache.free seat.row
        linearStatePool := e.linearStatePool.map fun pool =>
          pool.free (slotsToFree seat.linearSlotIdx seat.mambaPingPong)
        scheduler := s'
        fullIds := Function.update e.fullIds seat.row none
        admittedCachedLen := Function.update e.admittedCachedLen seat.row none },
      hseat, huid, ?_, habort, ?_⟩
    · simp only [abortRequest, hhandle, hunlock, hslots, freeLinear, habort, if_true, freeRows,
        forgetRows, hfreed, hforget, List.foldl_cons, List.foldl_nil]
    · exact
        { frame := rfl
          dropped := hdrop
          cacheOk := hc1
          isSome_eq := hsome
          entries_eq := hentries
          span_eq := hspan }

end Engine

end FreeToken
