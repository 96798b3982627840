import FreeToken.KVCache.RadixPinned
import FreeToken.Engine.Conservation
import FreeToken.Engine.Atomicity

/-!
# The default pool size

By default the pool has a slot for every column of every row. A request leaves its
cached prefix in the tree and allocates the rest of its row, which fits as long as what
is locked in the tree is what the live requests read from it. A prompt that is stored to
its last token is locked to its last token, and that token is computed again all the same.
-/

namespace FreeToken

theorem LinearStatePool.alloc3_short {pool : LinearStatePool} (h : pool.freeSlots.length < 3) :
    pool.alloc3 = .error (.linearStateExhausted 3 pool.freeSlots.length) := by
  cases halloc : pool.alloc3 with
  | ok r =>
      obtain ⟨⟨live, track0, track1⟩, pool'⟩ := r
      have hfree := congrArg List.length (alloc3_ok halloc).1
      simp only [List.length_append, List.length_cons, List.length_nil] at hfree
      omega
  | error err =>
      unfold alloc3 at halloc
      split at halloc
      · cases halloc
      · exact halloc.symm

namespace Engine

variable {e e' : Engine} {t : Transcript} {orphans : List RadixCacheHandle} {lost : List Slot}
  {config : EngineConfig}

/-- Pages of one token, the prefix cache on, and a page for every column of every row. -/
structure DefaultSized (config : EngineConfig) : Prop where
  pageSize_eq : config.pageSize = 1
  enablePrefixCache_eq : config.enablePrefixCache = true
  numPages_eq : config.numPages = config.maxRunningReq * config.maxSeqLen

instance (config : EngineConfig) : Decidable (DefaultSized config) :=
  decidable_of_iff (config.pageSize = 1 ∧ config.enablePrefixCache = true ∧
      config.numPages = config.maxRunningReq * config.maxSeqLen)
    ⟨fun ⟨h1, h2, h3⟩ => ⟨h1, h2, h3⟩, fun ⟨h1, h2, h3⟩ => ⟨h1, h2, h3⟩⟩

/-- A nonempty prompt, and with it at most `max_running_req` live requests. -/
def Served (e : Engine) : Call → Prop
  | .addRequest args =>
      args.inputIds ≠ [] ∧ e.scheduler.seats.length < e.config.maxRunningReq
  | .step _ | .abortRequest _ => True

instance (e : Engine) (c : Call) : Decidable (e.Served c) :=
  match c with
  | .addRequest args => inferInstanceAs (Decidable (args.inputIds ≠ [] ∧ _))
  | .step _ | .abortRequest _ => isTrue trivial

/-- The tokens the live requests read from the tree. -/
def readCached (e : Engine) : Nat :=
  (e.scheduler.seats.map fun seat => e.admitted seat.row).sum

/-- The stored tokens that are locked, or would be for the prompt, are those the live
requests read and the prompt would read, up to a row's worth for every row left free. -/
def Covers (e : Engine) (ids : List Token) : Prop :=
  ∀ c ∈ e.cacheManager, c.pinnedTokens ids ≤
    min (c.storedTokens ids) (ids.length - 1) + e.readCached +
      (e.scheduler.freeSlots.length - 1) * e.config.maxSeqLen

instance (e : Engine) (ids : List Token) : Decidable (e.Covers ids) :=
  inferInstanceAs (Decidable (∀ c ∈ e.cacheManager, _ ≤ _))

/-- The linear-state pool refuses the next request before the KV pool is asked. -/
def LinearShort (e : Engine) : Prop := ∃ pool ∈ e.linearStatePool, pool.freeSlots.length < 3

instance (e : Engine) : Decidable e.LinearShort :=
  inferInstanceAs (Decidable (∃ pool ∈ e.linearStatePool, pool.freeSlots.length < 3))

def Roomy (e : Engine) : Call → Prop
  | .addRequest args => e.LinearShort ∨ e.Covers args.inputIds
  | .step _ | .abortRequest _ => True

instance (e : Engine) (c : Call) : Decidable (e.Roomy c) :=
  match c with
  | .addRequest args => inferInstanceAs (Decidable (e.LinearShort ∨ e.Covers args.inputIds))
  | .step _ | .abortRequest _ => isTrue trivial

/-- `add_request` raises "KV pool full". -/
def PoolFull (e : Engine) : Call → Prop
  | .addRequest args => ∃ need numPages pageSize available,
      (e.addRequest args).1 = .error (.kvPoolFull need numPages pageSize available)
  | .step _ | .abortRequest _ => False

/-! ### Counting the slots -/

theorem sum_sub {α : Type} {M : Nat} {f : α → Nat} : ∀ {xs : List α}, (∀ x ∈ xs, f x ≤ M) →
    (xs.map fun x => M - f x).sum + (xs.map f).sum = xs.length * M
  | [], _ => by simp
  | x :: xs, h => by
      have ih := sum_sub fun y hy => h y (List.mem_cons_of_mem x hy)
      have hx := h x List.mem_cons_self
      simp only [List.map_cons, List.sum_cons, List.length_cons, Nat.add_mul]
      omega

/-- With pages of one token a live request holds a slot for each column past its
cached prefix. -/
theorem Ownership.heldSlots_length (ho : Ownership e t orphans lost) (h1 : e.config.pageSize = 1) :
    e.heldSlots.length + e.readCached = e.scheduler.seats.length * e.config.maxSeqLen := by
  have hheld : ∀ seat ∈ e.scheduler.seats, e.admitted seat.row ≤ e.config.maxSeqLen ∧
      (e.owned seat.row).length = e.config.maxSeqLen - e.admitted seat.row := by
    intro seat hseat
    rw [← e.map_seat_lives t] at hseat
    obtain ⟨x, hx, rfl⟩ := List.mem_map.mp hseat
    have hh := ho.keeping.held x hx
    refine ⟨hh.le_maxSeqLen, ?_⟩
    obtain ⟨slots, halloc, hlen, -⟩ := hh.alloc
    have hpages : e.pagesFor (e.admitted x.seat.row) * 1 = e.config.maxSeqLen - e.admitted x.seat.row := by
      rw [pagesFor_natCast e hh.le_maxSeqLen, h1]
      exact (ceilDiv_mul_eq_iff _ Nat.one_pos).mpr (Nat.one_dvd _)
    rw [owned, halloc, Option.getD_some, hlen, h1, hpages]
  have hsum := sum_sub (M := e.config.maxSeqLen) (f := fun seat : Seat => e.admitted seat.row)
    fun seat hseat => (hheld seat hseat).1
  have hlen : e.heldSlots.length =
      (e.scheduler.seats.map fun seat => e.config.maxSeqLen - e.admitted seat.row).sum := by
    rw [heldSlots, List.length_flatMap]
    congr 1
    exact List.map_congr_left fun seat hseat => (hheld seat hseat).2
  rw [hlen]
  exact hsum

/-- The books of an engine with the default pool, where no slot was lost. -/
structure Sized (config : EngineConfig) (e : Engine) : Prop where
  config_eq : e.config = config
  numPages_eq : e.kvCache.numPages = config.numPages + 1
  owned : ∃ t orphans, Ownership e t orphans []

/-- Free slots, held slots and stored slots make up all rows. -/
theorem Sized.slots_length (h : Sized config e) (hd : DefaultSized config) :
    e.kvCache.freeSlots.length + e.tree.slots.length + e.scheduler.seats.length * config.maxSeqLen =
      config.maxRunningReq * config.maxSeqLen + e.readCached := by
  obtain ⟨t, orphans, ho⟩ := h.owned
  have h1 : e.config.pageSize = 1 := by rw [h.config_eq, hd.pageSize_eq]
  have hheld := ho.heldSlots_length h1
  have hperm := ho.slots_perm.length_eq
  have husable : (MHAKVCache.usable e.kvCache.numSlots).length = config.numPages := by
    rw [MHAKVCache.usable, MHAKVCache.numSlots, h.numPages_eq, ho.books.pageSize_eq, h1,
      List.length_drop, List.length_range]
    omega
  rw [husable, hd.numPages_eq] at hperm
  rw [h.config_eq] at hheld
  simp only [List.length_append, List.length_nil, Nat.add_zero] at hperm
  omega

theorem Sized.rows_length (h : Sized config e) :
    e.scheduler.freeSlots.length + e.scheduler.seats.length = config.maxRunningReq := by
  obtain ⟨t, orphans, ho⟩ := h.owned
  have hrows := ho.books.sched.rows_perm.length_eq
  rw [List.length_append, List.length_map, List.length_range, ho.books.maxRunningReq_eq,
    h.config_eq] at hrows
  exact hrows

/-- The pages a request asks for are there exactly when what is read covers what is
locked. -/
theorem Sized.pages_iff (h : Sized config e) (hd : DefaultSized config) {args : AddArgs}
    (hs : e.Served (.addRequest args)) :
    ((e.pagesFor (e.cachedPrefix args.inputIds) * e.config.pageSize : Nat) : Int) ≤
        e.kvCache.freeSlots.length + e.evictableBeside args.inputIds ↔
      e.Covers args.inputIds := by
  obtain ⟨t, orphans, ho⟩ := h.owned
  have h1 : e.config.pageSize = 1 := by rw [h.config_eq, hd.pageSize_eq]
  have hsome : e.cacheManager.isSome := by
    rw [ho.books.isSome_eq, h.config_eq, hd.enablePrefixCache_eq]
  obtain ⟨c, hc⟩ := Option.isSome_iff_exists.mp hsome
  obtain ⟨hw, hps⟩ := ho.books.cacheOk c hc
  obtain ⟨hstored, hev⟩ := hw.match_lock (hps.trans h1) args.inputIds
  have hslots := h.slots_length hd
  have hrows := h.rows_length
  have hlive := hs.2
  rw [h.config_eq] at hlive
  have htree : e.tree.slots.length = c.tree.slots.length := by rw [tree, hc]
  -- the part of the prompt it would read from the tree
  have hlen : 0 < args.inputIds.length := List.length_pos_iff.mpr hs.1
  have hpre : e.cachedPrefix args.inputIds =
      (min (c.storedTokens args.inputIds) (args.inputIds.length - 1) : Nat) := by
    rw [cachedPrefix, hc, h1]
    simp only [hstored, alignDown]
    omega
  have hm := ho.books.promptMatched args
  have hle : min (c.storedTokens args.inputIds) (args.inputIds.length - 1) ≤ e.config.maxSeqLen := by
    apply ho.books.cachedLen_le hm
    rw [cachedLen_matchPrompt, hpre]
  have hpages : e.pagesFor (e.cachedPrefix args.inputIds) * e.config.pageSize =
      config.maxSeqLen - min (c.storedTokens args.inputIds) (args.inputIds.length - 1) := by
    rw [hpre, pagesFor_natCast e hle, h1, h.config_eq]
    exact (ceilDiv_mul_eq_iff _ Nat.one_pos).mpr (Nat.one_dvd _)
  have hbeside : e.evictableBeside args.inputIds =
      ((c.matchPrefix args.inputIds).2.lock (c.matchPrefix args.inputIds).1.handle).evictableSize := by
    rw [evictableBeside, hc]
  have hcovers : e.Covers args.inputIds ↔ c.pinnedTokens args.inputIds ≤
      min (c.storedTokens args.inputIds) (args.inputIds.length - 1) + e.readCached +
        (e.scheduler.freeSlots.length - 1) * e.config.maxSeqLen := by
    simp only [Covers, hc, Option.mem_def, Option.some.injEq, forall_eq']
  rw [hpages, hbeside, hcovers, h.config_eq]
  rw [h.config_eq] at hle
  -- all rows: the live ones, this one, and those left free
  obtain ⟨f, hf⟩ : ∃ f, e.scheduler.freeSlots.length = f + 1 :=
    ⟨e.scheduler.freeSlots.length - 1, by omega⟩
  have hall : config.maxRunningReq * config.maxSeqLen =
      f * config.maxSeqLen + config.maxSeqLen + e.scheduler.seats.length * config.maxSeqLen := by
    rw [← hrows, hf, Nat.add_mul, Nat.succ_mul]
  rw [hf, Nat.add_sub_cancel]
  omega

/-! ### Runs -/

theorem sized_init (config : EngineConfig) : Sized config (init config) where
  config_eq := rfl
  numPages_eq := rfl
  owned := ⟨fun _ => [], [], ownership_init config _⟩

/-- A call in the domain is refused for want of linear-state slots, returns, or finds
the pool full. -/
theorem Sized.add_cases (h : Sized config e) (hd : DefaultSized config) {args : AddArgs}
    (hs : e.Served (.addRequest args)) :
    (e.LinearShort ∧ ¬ e.PoolFull (.addRequest args) ∧
      NotQueued e (e.matchPrompt args.inputIds) (e.addRequest args).2) ∨
    (¬ e.LinearShort ∧ e.Covers args.inputIds ∧ e.Returns (.addRequest args)) ∨
    (¬ e.LinearShort ∧ ¬ e.Covers args.inputIds ∧ e.PoolFull (.addRequest args)) := by
  obtain ⟨t, orphans, ho⟩ := h.owned
  have hm := ho.books.promptMatched args
  rcases addRequest_cases args hm with ⟨err, e', heq, hnot⟩ | ⟨p, e3, hq, hres⟩
  · left
    cases hnot with
    | exhausted hpool hshort =>
        rename_i pool
        refine ⟨⟨pool, hpool, hshort⟩, ?_, by rw [heq]; exact NotQueued.exhausted hpool hshort⟩
        have hpool' : (e.matchPrompt args.inputIds).engine.linearStatePool = some pool := by
          rw [hm.frame]
          exact hpool
        have hlin : (e.matchPrompt args.inputIds).engine.allocLinear =
            .error (.linearStateExhausted 3 pool.freeSlots.length) := by
          simp only [allocLinear, hpool', LinearStatePool.alloc3_short hshort]
        rintro ⟨need, numPages, pageSize, available, hfull⟩
        simp only [addRequest, hlin] at hfull
        cases hfull
    | noRow lp htaken hrows =>
        exfalso
        have hlen := h.rows_length
        have hlive := hs.2
        rw [h.config_eq] at hlive
        rw [hrows, List.length_nil] at hlen
        omega
  · right
    have hlinear : ¬ e.LinearShort := by
      rintro ⟨pool, hpool, hshort⟩
      exact absurd (hq.linear.three_le hpool) (Nat.not_le.mpr hshort)
    have hpages := h.pages_iff hd hs
    have hiff := hq.allocates_iff ho.books
    rcases hres with ⟨err, e', heq, halloc⟩ | ⟨e', heq, halloc⟩
    · right
      rcases hq.allocate_cases ho.books hm with
        ⟨hnil, -⟩ | ⟨k, -, -, -, -, -, -, ⟨-, e1, hok, -⟩ | ⟨-, n, e1, hfull, -⟩⟩
      · exact absurd hnil hs.1
      · rw [hok] at halloc
        cases (Prod.mk.inj halloc).1
      · rw [hfull] at halloc
        obtain ⟨herr, -⟩ := Prod.mk.inj halloc
        refine ⟨hlinear, ?_, ⟨_, _, _, n, by rw [heq, ← Except.error.inj herr]⟩⟩
        intro hcovers
        have hadm : Admissible e args := by
          constructor
          · intro pool hpool
            exact hq.linear.three_le hpool
          · rw [(hq.queuedIn ho.books hm).freeSlots_eq]
            exact List.cons_ne_nil _ _
          · exact Or.inl hs.1
          · exact hpages.mpr hcovers
        obtain ⟨e2, hok⟩ := hiff.mpr hadm
        rw [hfull] at hok
        cases (Prod.mk.inj hok).1
    · left
      exact ⟨hlinear, hpages.mp (hiff.mp ⟨e', halloc⟩).pages, ⟨p, by rw [heq]⟩⟩

/-- A call in the domain finds the pool full exactly when it is not roomy. -/
theorem Sized.poolFull_iff (h : Sized config e) (hd : DefaultSized config) {c : Call}
    (hs : e.Served c) : ¬ e.PoolFull c ↔ e.Roomy c := by
  cases c with
  | addRequest args =>
      rcases h.add_cases hd hs with ⟨hshort, hnot, -⟩ | ⟨-, hcovers, p, hp⟩ | ⟨hlong, hno, hfull⟩
      · exact iff_of_true hnot (Or.inl hshort)
      · refine iff_of_true ?_ (Or.inr hcovers)
        rintro ⟨need, numPages, pageSize, available, hfull⟩
        rw [hp] at hfull
        cases hfull
      · exact iff_of_false (not_not.mpr hfull) (not_or.mpr ⟨hlong, hno⟩)
  | step sampled => exact iff_of_true id trivial
  | abortRequest uid => exact iff_of_true id trivial

theorem Sized.add (h : Sized config e) (hd : DefaultSized config) {args : AddArgs}
    (hs : e.Served (.addRequest args)) (hr : e.Roomy (.addRequest args)) :
    Sized config (e.addRequest args).2 := by
  obtain ⟨t, orphans, ho⟩ := h.owned
  have hm := ho.books.promptMatched args
  rcases h.add_cases hd hs with ⟨-, -, hnot⟩ | ⟨-, -, p, hp⟩ | ⟨hlong, hno, -⟩
  · have hkv : (e.addRequest args).2.kvCache = e.kvCache ∧
        (e.addRequest args).2.config = e.config := by
      generalize (e.addRequest args).2 = e' at hnot
      cases hnot <;> rw [hm.frame] <;> exact ⟨rfl, rfl⟩
    constructor
    · exact hkv.2.trans h.config_eq
    · rw [hkv.1]
      exact h.numPages_eq
    · exact ⟨t, _, ho.notQueued hm hnot⟩
  · have heq : e.addRequest args = (.ok p, (e.addRequest args).2) := by rw [← hp]
    obtain ⟨e3, k, hret⟩ := ho.books.returned heq
    constructor
    · rw [hret.frame]
      exact h.config_eq
    · rw [hret.allocated.numPages_eq, hret.queued.frame]
      exact h.numPages_eq
    · exact ⟨t, orphans, hret.ownership ho⟩
  · exact absurd hr (not_or.mpr ⟨hlong, hno⟩)

/-- Pages of one token are always filled. -/
theorem finishesWhole_of_one (h1 : e.config.pageSize = 1) (c : Call) : e.FinishesWhole c := by
  cases c with
  | step sampled =>
      intro _ x _
      rw [FillsPages, h1]
      exact ⟨Nat.one_dvd _, Nat.one_dvd _⟩
  | addRequest args => trivial
  | abortRequest uid => trivial

theorem Sized.step (h : Sized config e) (hd : DefaultSized config) {sampled : Nat → Token}
    {out : StepOutput} (hstep : e.step sampled = .ok (out, e')) : Sized config e' := by
  obtain ⟨t, orphans, ho⟩ := h.owned
  have hwhole : e.FinishesWhole (.step sampled) :=
    finishesWhole_of_one (by rw [h.config_eq, hd.pageSize_eq]) _
  obtain ⟨t', extra, ho', hiff⟩ := ho.step_whole hstep
  rw [hiff.mpr hwhole] at ho'
  rcases step_cases hstep with ⟨-, -, rfl⟩ | ⟨s1, e2, hrun⟩
  · exact h
  · constructor
    · exact hrun.config_eq.trans h.config_eq
    · obtain ⟨freed, -, hn, heq⟩ := hrun.final ho.books
      obtain ⟨-, -, hnp, -⟩ := MHAKVCache.foldl_free_frame e2.kvCache hn
      rw [heq]
      exact hnp.trans (hrun.frame.kvNumPages_eq.trans h.numPages_eq)
    · exact ⟨t', orphans, ho'⟩

theorem Sized.abort (h : Sized config e) {uid : Int} {found : Bool}
    (habort : e.abortRequest uid = .ok (found, e')) : Sized config e' := by
  obtain ⟨t, orphans, ho⟩ := h.owned
  rcases ho.books.abort_cases uid with ⟨-, heq⟩ | ⟨seat, e1, -, -, heq, hseat, hab⟩
  · rw [heq] at habort
    obtain ⟨-, rfl⟩ := Prod.mk.inj (Except.ok.inj habort)
    exact h
  · rw [heq] at habort
    obtain ⟨-, rfl⟩ := Prod.mk.inj (Except.ok.inj habort)
    constructor
    · rw [hab.frame]
      exact h.config_eq
    · rw [hab.frame]
      exact (e.kvCache.free_frame seat.row).2.2.1.trans h.numPages_eq
    · exact ⟨t, orphans, ho.aborted hseat hab⟩

theorem Sized.call (h : Sized config e) (hd : DefaultSized config) {c : Call} (hs : e.Served c)
    (hr : e.Roomy c) (hcall : e.call c = some e') : Sized config e' := by
  cases c with
  | addRequest args =>
      obtain rfl := Option.some.inj hcall
      exact h.add hd hs hr
  | step sampled =>
      cases hstep : e.step sampled with
      | error err => simp [Engine.call, hstep] at hcall
      | ok r =>
          simp only [Engine.call, hstep, Option.some.injEq] at hcall
          obtain rfl := hcall
          exact h.step hd hstep
  | abortRequest uid =>
      cases habort : e.abortRequest uid with
      | error err => simp [Engine.call, habort] at hcall
      | ok r =>
          simp only [Engine.call, habort, Option.some.injEq] at hcall
          obtain rfl := hcall
          exact h.abort habort

/-- In every run of nonempty prompts that never has more than `max_running_req` live
requests, no `add_request` finds the default pool full exactly when each one comes while
the reads of the live requests cover what is locked. -/
theorem poolFull_never_iff {config : EngineConfig} (hd : DefaultSized config) {calls : List Call}
    (hserved : Run.AllSteps call Served (init config) calls) :
    Run.AllSteps call (fun e c => ¬ e.PoolFull c) (init config) calls ↔
      Run.AllSteps call Roomy (init config) calls :=
  Run.allSteps_iff (Sized config) (fun _ _ h hs => h.poolFull_iff hd hs)
    (fun _ _ _ h hs hr hcall => h.call hd hs hr hcall) (sized_init config) hserved

/-- The prompt is answered, and asked again. -/
def askedAgain (ids : List Token) : List Call :=
  [.addRequest (asking [7, 8]), .step fun _ => 5, .addRequest (asking ids)]

/-- The prompt `[7, 8]` and its answer take three slots of the four. Asked again it locks
its two slots and needs three more. -/
theorem same_prompt_fills : DefaultSized singleRow ∧
    Run.AllSteps call Served (init singleRow) (askedAgain [7, 8]) ∧
    ∃ e, runs singleRow ((askedAgain [7, 8]).take 2) = some e ∧ e.scheduler.seats = [] ∧
      (e.addRequest (asking [7, 8])).1 = .error (.kvPoolFull 3 3 1 2) :=
  ⟨by decide, by decide, _, rfl, by decide, by decide⟩

/-- A longer prompt finds its two tokens, and room for the rest of its row. -/
theorem longer_prompt_fits : Run.AllSteps call Served (init singleRow) (askedAgain [7, 8, 9]) ∧
    Run.AllSteps call (fun e c => ¬ e.PoolFull c) (init singleRow) (askedAgain [7, 8, 9]) :=
  have hd : DefaultSized singleRow := by decide
  have hserved : Run.AllSteps call Served (init singleRow) (askedAgain [7, 8, 9]) := by decide
  ⟨hserved, (poolFull_never_iff hd hserved).mpr (by decide)⟩

end Engine

end FreeToken
