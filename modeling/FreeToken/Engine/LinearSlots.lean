import FreeToken.Engine.RowStates

/-!
# Who holds a linear-state slot

On a hybrid engine with the prefix cache on every live request has a live slot and two
track slots. Finishing gives them back, except the track slots that the anchor snapshots
record; those are held by nobody from then on, and are `kept`.
-/

namespace FreeToken

/-- The two track slots. -/
def Seat.tracks (seat : Seat) : List Slot :=
  match seat.mambaPingPong with
  | none => []
  | some (track0, track1) => [track0, track1]

/-- The live slot and the track slots. -/
def Seat.linearSlots (seat : Seat) : List Slot := seat.linearSlotIdx.toList ++ seat.tracks

/-- The slots of the seat that are not among the donated ones. -/
def Seat.undonated (donated : List Slot) (seat : Seat) : List Slot :=
  seat.linearSlotIdx.toList ++ seat.tracks.filter fun s => s ∉ donated

/-- The seat's track slots that are. -/
def Seat.donated (donated : List Slot) (seat : Seat) : List Slot :=
  seat.tracks.filter fun s => s ∈ donated

/-- All three slots are there. -/
def Seat.Seated (seat : Seat) : Prop :=
  ∃ live track0 track1, seat.linearSlotIdx = some live ∧ seat.mambaPingPong = some (track0, track1)

theorem Seat.linearSlots_perm (donated : List Slot) (seat : Seat) :
    seat.linearSlots.Perm (seat.undonated donated ++ seat.donated donated) := by
  rw [Seat.linearSlots, Seat.undonated, Seat.donated, List.append_assoc]
  apply List.Perm.append_left
  have hperm := List.filter_append_perm (fun s => decide (s ∈ donated)) seat.tracks
  refine hperm.symm.trans (List.perm_append_comm.trans ?_)
  simp

theorem flatMap_linearSlots_perm (donated : List Slot) (seats : List Seat) :
    (seats.flatMap Seat.linearSlots).Perm
      (seats.flatMap (Seat.undonated donated) ++ seats.flatMap (Seat.donated donated)) :=
  (List.Perm.flatMap_left seats fun seat _ => seat.linearSlots_perm donated).trans
    (List.flatMap_append_perm seats _ _).symm

namespace Engine

variable {e e' : Engine} {t : Transcript} {orphans : List RadixCacheHandle} {kept : List Slot}
  {config : EngineConfig}

/-- The values of the anchor snapshots. -/
def donated (e : Engine) : List Slot := e.mambaAnchorSnapshots.map Prod.snd

/-- The free list of the linear-state pool. -/
def linearFree (e : Engine) : List Slot := (e.linearStatePool.map LinearStatePool.freeSlots).getD []

/-- A hybrid model with the prefix cache on. -/
structure HybridCached (config : EngineConfig) : Prop where
  hybrid : config.hybrid = true
  cached : config.enablePrefixCache = true

instance (config : EngineConfig) : Decidable (HybridCached config) :=
  decidable_of_iff (config.hybrid = true ∧ config.enablePrefixCache = true)
    ⟨fun h => ⟨h.1, h.2⟩, fun h => ⟨h.1, h.2⟩⟩

/-- The slots of the linear-state pool but the padding slot. -/
def linearUsable (config : EngineConfig) : List Slot :=
  (List.range (3 * config.maxRunningReq + 1)).drop 1

/-- The slots are free, a live request's, or kept. -/
structure LinearBooks (config : EngineConfig) (e : Engine) (kept : List Slot) : Prop where
  config_eq : e.config = config
  pool_isSome : e.linearStatePool.isSome = true
  cache_isSome : e.cacheManager.isSome = true
  seated : ∀ seat ∈ e.scheduler.seats, seat.Seated
  slots_perm : (e.linearFree ++ (e.scheduler.seats.flatMap Seat.linearSlots ++ kept)).Perm
    (linearUsable config)

theorem linearBooks_init (h : HybridCached config) : LinearBooks config (init config) [] := by
  have hpool : (init config).linearStatePool =
      some (LinearStatePool.init (3 * config.maxRunningReq + 1)) := by
    simp [init, buildHybridLinearPool, h.cached, h.hybrid]
  have hseats : (init config).scheduler.seats = [] := rfl
  constructor
  · rfl
  · rw [hpool]
    rfl
  · simp [init, h.cached]
  · rw [hseats]
    simp
  · rw [hseats, linearFree, hpool]
    simp [LinearStatePool.init, linearUsable]

namespace LinearBooks

theorem nodup (h : LinearBooks config e kept) :
    (e.linearFree ++ (e.scheduler.seats.flatMap Seat.linearSlots ++ kept)).Nodup :=
  h.slots_perm.nodup_iff.mpr (List.nodup_range.sublist (List.drop_sublist _ _))

/-- Three slots a live request, the kept ones, and the rest free. -/
theorem length_eq (h : LinearBooks config e kept) :
    e.linearFree.length + (3 * e.scheduler.seats.length + kept.length) =
      3 * config.maxRunningReq := by
  have hlen := h.slots_perm.length_eq
  have hthree : (e.scheduler.seats.flatMap Seat.linearSlots).length =
      3 * e.scheduler.seats.length := by
    have hseated := h.seated
    generalize e.scheduler.seats = seats at hseated
    induction seats with
    | nil => rfl
    | cons seat seats ih =>
        obtain ⟨live, track0, track1, hlive, hpp⟩ := hseated seat List.mem_cons_self
        have hone : seat.linearSlots.length = 3 := by simp [Seat.linearSlots, Seat.tracks, hlive, hpp]
        rw [List.flatMap_cons, List.length_append, hone,
          ih fun s hs => hseated s (List.mem_cons_of_mem _ hs), List.length_cons]
        omega
  rw [List.length_append, List.length_append, hthree, linearUsable, List.length_drop,
    List.length_range] at hlen
  omega

end LinearBooks

/-! ### `add_request` -/

theorem LinearTaken.linearFree_eq {slots : Option (Slot × Slot × Slot)} (h : LinearTaken e slots e')
    (hsome : e.linearStatePool.isSome = true) : ∃ live track0 track1,
      slots = some (live, track0, track1) ∧ e'.linearStatePool.isSome = true ∧
      e.linearFree = e'.linearFree ++ [track1, track0, live] := by
  rcases h with ⟨hnone, -, -⟩ | ⟨pool, pool', live, track0, track1, hpool, hpool', rfl, hfree, -⟩
  · rw [hnone] at hsome
    cases hsome
  · refine ⟨live, track0, track1, rfl, by rw [hpool']; rfl, ?_⟩
    rw [linearFree, linearFree, hpool, hpool']
    exact hfree

theorem Queued.linear_none {args : AddArgs} {pm : PromptMatch} {p : PendingReq} {e3 : Engine}
    (hq : Queued e args pm p e3) (hpool : e.linearStatePool = none) :
    p.linearSlotIdx = none ∧ e3.linearStatePool = none := by
  rcases hq.linear with ⟨-, hpool', hslots⟩ | ⟨pool, pool', live, track0, track1, hsome, -⟩
  · refine ⟨?_, hpool'⟩
    have hboth := hq.linear_isSome
    cases hlive : p.linearSlotIdx with
    | none => rfl
    | some live =>
        rw [hlive] at hboth hslots
        obtain ⟨tracks, hpp⟩ := Option.isSome_iff_exists.mp hboth.symm
        rw [hpp] at hslots
        cases hslots
  · rw [hpool] at hsome
    cases hsome

/-- The call queued the entry `p`, which got the last three free slots. -/
structure LinearAdded (e : Engine) (args : AddArgs) (p : PendingReq) (e' : Engine) : Prop where
  queued : ∃ e3, Queued e args (e.matchPrompt args.inputIds) p e3
  queuedIn : QueuedIn e p e'.scheduler
  pool_isSome : e'.linearStatePool.isSome = true
  slots : ∃ live track0 track1, p.linearSlotIdx = some live ∧
    p.mambaPingPong = some (track0, track1) ∧
    e.linearFree = e'.linearFree ++ [track1, track0, live]

/-- What no call of `add_request` changes. -/
theorem Books.add_frame (hb : Books e t orphans) (args : AddArgs) :
    (e.addRequest args).2.config = e.config ∧
      (e.addRequest args).2.cacheManager.isSome = e.cacheManager.isSome ∧
      (e.addRequest args).2.mambaAnchorSnapshots = e.mambaAnchorSnapshots := by
  have hm := hb.promptMatched args
  rcases hb.add_cases args with ⟨-, hnot⟩ | ⟨p, e3, hq, htouch, -⟩
  · rw [hnot.frame hm]
    exact ⟨rfl, hm.isSome_eq, rfl⟩
  · rw [htouch.isSome_eq, htouch.frame, hq.frame]
    exact ⟨rfl, hm.isSome_eq, rfl⟩

/-- What no call of `add_request` changes, and what it does to the pool: with every row
taken no slot is free, so the scheduler never refuses a request that has its slots. -/
theorem LinearBooks.add_cases (h : LinearBooks config e kept) (hb : Books e t orphans)
    (args : AddArgs) {e' : Engine} (he' : (e.addRequest args).2 = e') :
    (e'.config = e.config ∧ e'.cacheManager.isSome = e.cacheManager.isSome ∧
      e'.mambaAnchorSnapshots = e.mambaAnchorSnapshots) ∧
    ((e'.scheduler = e.scheduler ∧ e'.linearStatePool = e.linearStatePool) ∨
      ∃ p, LinearAdded e args p e') := by
  subst he'
  refine ⟨hb.add_frame args, ?_⟩
  have hm := hb.promptMatched args
  rcases hb.add_cases args with ⟨-, hnot⟩ | ⟨p, e3, hq, htouch, hin⟩
  · generalize (e.addRequest args).2 = e1 at hnot ⊢
    cases hnot with
    | exhausted hpool hshort =>
        left
        constructor <;> rw [hm.frame]
    | noRow lp htaken hrows =>
        exfalso
        obtain ⟨live, track0, track1, -, -, hfree⟩ := htaken.linearFree_eq h.pool_isSome
        have hlen := h.length_eq
        have hrowlen := hb.sched.rows_perm.length_eq
        rw [List.length_append, hrows, List.length_nil, Nat.zero_add, List.length_map,
          List.length_range, hb.maxRunningReq_eq, h.config_eq] at hrowlen
        rw [hfree, hrowlen, List.length_append] at hlen
        simp only [List.length_cons, List.length_nil] at hlen
        omega
  · have hlin : (e.addRequest args).2.linearStatePool = e3.linearStatePool := by
      rw [htouch.frame]
    obtain ⟨live, track0, track1, hslots, hsome, hfree⟩ := hq.linear.linearFree_eq h.pool_isSome
    obtain ⟨live', hlive, htracks⟩ := Option.bind_eq_some_iff.mp hslots
    obtain ⟨tracks, hpp, htuple⟩ := Option.map_eq_some_iff.mp htracks
    obtain ⟨rfl, rfl⟩ := Prod.mk.inj htuple
    refine Or.inr ⟨p, ⟨e3, hq⟩, hin, hlin ▸ hsome, live', track0, track1, hlive, hpp, ?_⟩
    rw [hfree, linearFree, linearFree, hlin]

theorem LinearAdded.seat_linearSlots {args : AddArgs} {p : PendingReq}
    (h : LinearAdded e args p e') : p.seat.Seated ∧
      e.linearFree.Perm (e'.linearFree ++ p.seat.linearSlots) := by
  obtain ⟨live, track0, track1, hlive, hpp, hfree⟩ := h.slots
  refine ⟨⟨live, track0, track1, hlive, hpp⟩, ?_⟩
  have hseat : p.seat.linearSlots = [live, track0, track1] := by
    simp [Seat.linearSlots, Seat.tracks, PendingReq.seat, hlive, hpp]
  rw [hfree, hseat]
  exact (List.reverse_perm [live, track0, track1]).append_left _

theorem LinearBooks.addRequest (h : LinearBooks config e kept) (hb : Books e t orphans)
    (args : AddArgs) : LinearBooks config (e.addRequest args).2 kept := by
  obtain ⟨⟨hconfig, hcache, -⟩, ⟨hsched, hpool⟩ | ⟨p, hadd⟩⟩ := h.add_cases hb args rfl
  · constructor
    · exact hconfig.trans h.config_eq
    · rw [hpool]
      exact h.pool_isSome
    · exact hcache.trans h.cache_isSome
    · rw [hsched]
      exact h.seated
    · rw [linearFree, hpool, hsched]
      exact h.slots_perm
  · obtain ⟨hseated, hfree⟩ := hadd.seat_linearSlots
    constructor
    · exact hconfig.trans h.config_eq
    · exact hadd.pool_isSome
    · exact hcache.trans h.cache_isSome
    · intro seat hseat
      rcases List.mem_cons.mp (hadd.queuedIn.seats_perm.mem_iff.mp hseat) with rfl | hold
      · exact hseated
      · exact h.seated seat hold
    · refine List.Perm.trans ?_ h.slots_perm
      have hperm := hadd.queuedIn.seats_perm.flatMap_right Seat.linearSlots
      rw [List.flatMap_cons] at hperm
      refine ((hperm.append_right kept).append_left _).trans ?_
      rw [List.append_assoc, ← List.append_assoc]
      exact (hfree.symm.append_right _)

/-! ### `abort_request` -/

theorem slotsToFree_eq {seat : Seat} (h : seat.Seated) :
    slotsToFree seat.linearSlotIdx seat.mambaPingPong = seat.linearSlots := by
  obtain ⟨live, track0, track1, hlive, hpp⟩ := h
  rw [Seat.linearSlots, Seat.tracks, hlive, hpp]
  rfl

theorem LinearBooks.aborted (h : LinearBooks config e kept) {hs : List RadixCacheHandle}
    {seat : Seat} (hseat : seat ∈ e.scheduler.seats) (hab : Aborted hs e seat e') :
    LinearBooks config e' kept ∧ e'.linearFree = e.linearFree ++ seat.linearSlots := by
  obtain ⟨pool, hpool⟩ := Option.isSome_iff_exists.mp h.pool_isSome
  have hlin : e'.linearStatePool = e.linearStatePool.map fun pool =>
      pool.free (slotsToFree seat.linearSlotIdx seat.mambaPingPong) := by rw [hab.frame]
  have hfree : e'.linearFree = e.linearFree ++ seat.linearSlots := by
    rw [linearFree, linearFree, hlin, hpool, slotsToFree_eq (h.seated seat hseat)]
    rfl
  refine ⟨?_, hfree⟩
  constructor
  · rw [hab.frame]
    exact h.config_eq
  · rw [hlin, hpool]
    rfl
  · exact hab.isSome_eq.trans h.cache_isSome
  · intro s hs
    exact h.seated s (hab.dropped.seats_perm.mem_iff.mpr (List.mem_cons_of_mem _ hs))
  · refine List.Perm.trans ?_ h.slots_perm
    have hperm := hab.dropped.seats_perm.flatMap_right Seat.linearSlots
    rw [List.flatMap_cons] at hperm
    rw [hfree, List.append_assoc, ← List.append_assoc seat.linearSlots]
    exact (hperm.symm.append_right kept).append_left _

/-! ### `step` -/

theorem commitIds_linear {c : RadixPrefixCache} {row n : Nat} {ids : List Token}
    (h : e.commitIds c row ids n = some e') :
    e'.linearStatePool = e.linearStatePool ∧ e'.donated = e.donated := by
  unfold commitIds at h
  split at h
  · cases h
    exact ⟨rfl, rfl⟩
  · split at h
    · cases h
    · cases h
      exact ⟨rfl, rfl⟩

/-- A finished request gives back what is not donated. -/
theorem commitOne_linear {req : Req} (hcache : e.cacheManager.isSome = true)
    (h : e.commitOne req = some e') :
    e'.linearStatePool = e.linearStatePool.map fun pool => pool.free (e.undonated req) := by
  obtain ⟨c, hc⟩ := Option.isSome_iff_exists.mp hcache
  simp only [commitOne, hc] at h
  split at h
  · cases h
  · obtain ⟨e1, hcommit, rfl⟩ := Option.map_eq_some_iff.mp h
    obtain ⟨hlin, hdon⟩ := commitIds_linear hcommit
    simp only [releaseLinear, undonated]
    rw [show e1.mambaAnchorSnapshots.map Prod.snd = _ from hdon, hlin]
    rfl

theorem undonated_eq {req : Req} (h : req.seat.Seated) :
    e.undonated req = req.seat.undonated e.donated := by
  obtain ⟨live, track0, track1, hlive, hpp⟩ := h
  have hlive : req.linearSlotIdx = some live := hlive
  have hpp : req.mambaPingPong = some (track0, track1) := hpp
  simp only [Engine.undonated, Seat.undonated, Seat.tracks, Req.seat, hlive, hpp]
  rfl

theorem commitAll_linear : ∀ {reqs : List Req} {e e' : Engine}, e.cacheManager.isSome = true →
    e.linearStatePool.isSome = true → (∀ req ∈ reqs, req.seat.Seated) →
    e.commitAll reqs = some e' → e'.linearStatePool.isSome = true ∧
      e'.linearFree = e.linearFree ++ (reqs.map Req.seat).flatMap (Seat.undonated e.donated)
  | [], e, e', _, hpool, _, h => by
      cases h
      exact ⟨hpool, (List.append_nil _).symm⟩
  | req :: reqs, e, e', hcache, hpool, hseated, h => by
      simp only [commitAll] at h
      split at h
      · cases h
      · rename_i e1 h1
        obtain ⟨hframe, hsnap⟩ := commitOne_frame h1
        have hlin := commitOne_linear hcache h1
        obtain ⟨pool, hp⟩ := Option.isSome_iff_exists.mp hpool
        have hdon : e1.donated = e.donated := congrArg (List.map Prod.snd) hsnap
        obtain ⟨hpool', hfree⟩ := commitAll_linear (hframe.isSome_eq.trans hcache)
          (by rw [hlin, hp]; rfl) (fun r hr => hseated r (List.mem_cons_of_mem _ hr)) h
        refine ⟨hpool', ?_⟩
        rw [hfree, hdon, List.map_cons, List.flatMap_cons, ← List.append_assoc,
          ← undonated_eq (hseated req List.mem_cons_self)]
        congr 1
        rw [linearFree, linearFree, hlin, hp]
        rfl

/-- The donated track slots of the requests a step finished. -/
def StepOutput.leaves (out : StepOutput) (donated : List Slot) : List Slot :=
  (out.finished.map Req.seat).flatMap (Seat.donated donated)

namespace StepRun

variable {sampled : Nat → Token} {out : StepOutput} {s1 : Scheduler} {e2 : Engine}

variable (h : StepRun e sampled out e' s1 e2)
include h

theorem seats_perm (hs : e.scheduler.Ok) :
    e.scheduler.seats.Perm (e'.scheduler.seats ++ out.finished.map Req.seat) := by
  have hperm := (h.stepped hs).seats_perm
  rwa [h.finishedIn_eq] at hperm

theorem donated_eq : e'.donated = (mid e out s1).donated := by
  rw [h.final_eq]
  exact congrArg (List.map Prod.snd) (commitAll_frame h.commit_mid).2

theorem linearFree_eq (hs : e.scheduler.Ok) (hl : LinearBooks config e kept) :
    e'.linearStatePool.isSome = true ∧ e'.linearFree =
      e.linearFree ++ (out.finished.map Req.seat).flatMap (Seat.undonated e'.donated) := by
  have hmid := mid_frame e out s1
  have hseated : ∀ req ∈ out.finished, req.seat.Seated := by
    intro req hreq
    apply hl.seated
    rw [(h.seats_perm hs).mem_iff]
    exact List.mem_append_right _ (List.mem_map_of_mem hreq)
  obtain ⟨hsome, hfree⟩ := commitAll_linear (hmid.isSome_eq.trans hl.cache_isSome)
    (by rw [hmid.linearStatePool_eq]; exact hl.pool_isSome) hseated h.commit_mid
  have hlin : e'.linearStatePool = e2.linearStatePool := by rw [h.final_eq]; rfl
  refine ⟨hlin ▸ hsome, ?_⟩
  rw [h.donated_eq]
  rw [linearFree, hlin, ← linearFree, hfree, linearFree, linearFree, hmid.linearStatePool_eq]

theorem linearBooks (hs : e.scheduler.Ok) (hl : LinearBooks config e kept) :
    LinearBooks config e' (kept ++ out.leaves e'.donated) := by
  obtain ⟨hsome, hfree⟩ := h.linearFree_eq hs hl
  constructor
  · exact h.config_eq.trans hl.config_eq
  · exact hsome
  · rw [h.final_eq]
    exact h.frame.isSome_eq.trans hl.cache_isSome
  · intro seat hseat
    exact hl.seated seat ((h.seats_perm hs).mem_iff.mpr (List.mem_append_left _ hseat))
  · refine List.Perm.trans ?_ hl.slots_perm
    have hseats := (h.seats_perm hs).flatMap_right Seat.linearSlots
    rw [List.flatMap_append] at hseats
    have hsplit := flatMap_linearSlots_perm e'.donated (out.finished.map Req.seat)
    rw [hfree, List.append_assoc]
    apply List.Perm.append_left
    -- the finished requests' slots are either given back or left behind
    calc ((out.finished.map Req.seat).flatMap (Seat.undonated e'.donated) ++
          (e'.scheduler.seats.flatMap Seat.linearSlots ++ (kept ++ out.leaves e'.donated))).Perm
          (e'.scheduler.seats.flatMap Seat.linearSlots ++
            ((out.finished.map Req.seat).flatMap Seat.linearSlots ++ kept)) := by
          refine List.perm_append_comm_assoc _ _ _ |>.trans ?_
          apply List.Perm.append_left
          refine (List.Perm.append_left _ List.perm_append_comm).trans ?_
          rw [← List.append_assoc]
          exact hsplit.symm.append_right kept
      _ |>.Perm (e.scheduler.seats.flatMap Seat.linearSlots ++ kept) := by
          rw [← List.append_assoc]
          exact hseats.symm.append_right kept

end StepRun

/-! ### Every call -/

/-- What a call adds to the kept slots. -/
def keep (kept : List Slot) (_ : Engine) (_ : Call) : Report × Engine → List Slot
  | (.stepped out, e') => kept ++ out.leaves e'.donated
  | _ => kept

theorem LinearBooks.report (h : LinearBooks config e kept) (hb : Books e t orphans) {c : Call}
    {rep : Report} (hrep : e.report c = some (rep, e')) :
    LinearBooks config e' (keep kept e c (rep, e')) := by
  cases c with
  | addRequest args =>
      obtain ⟨rfl, rfl⟩ := Prod.mk.inj (Option.some.inj hrep)
      exact h.addRequest hb args
  | step sampled =>
      simp only [Engine.report] at hrep
      split at hrep
      · rename_i out e1 hstep
        obtain ⟨rfl, rfl⟩ := Prod.mk.inj (Option.some.inj hrep)
        rcases step_cases hstep with ⟨-, rfl, rfl⟩ | ⟨s1, e2, hrun⟩
        · simpa [keep, StepOutput.leaves] using h
        · exact hrun.linearBooks hb.sched h
      · cases hrep
  | abortRequest uid =>
      rcases hb.abort_cases uid with ⟨-, heq⟩ | ⟨seat, e1, -, -, heq, hseat, hab⟩
      · simp only [Engine.report, heq, Option.some.injEq, Prod.mk.injEq] at hrep
        obtain ⟨rfl, rfl⟩ := hrep
        exact h
      · simp only [Engine.report, heq, Option.some.injEq, Prod.mk.injEq] at hrep
        obtain ⟨rfl, rfl⟩ := hrep
        exact (h.aborted hseat hab).1

/-! ### Without the pool -/

/-- Without the prefix cache nobody has slots, and there are no snapshots. -/
structure Unpooled (config : EngineConfig) (e : Engine) : Prop where
  config_eq : e.config = config
  pool_eq : e.linearStatePool = none
  cache_eq : e.cacheManager = none
  snapshots_eq : e.mambaAnchorSnapshots = []
  seats : ∀ seat ∈ e.scheduler.seats, seat.linearSlotIdx = none
  pending : ∀ p ∈ e.scheduler.pendingList, p.mambaRestoreSrc = none
  running : ∀ r ∈ e.scheduler.runningReqs, r.mambaRestoreSrc = none

theorem unpooled_init (h : config.enablePrefixCache = false) : Unpooled config (init config) where
  config_eq := rfl
  pool_eq := by simp [init, h]
  cache_eq := by simp [init, h]
  snapshots_eq := rfl
  seats := fun _ hs => absurd hs List.not_mem_nil
  pending := fun _ hp => absurd hp List.not_mem_nil
  running := fun _ hr => absurd hr List.not_mem_nil

theorem snapshotOf_unpooled (h : e.linearStatePool = none) (req : Req) :
    e.snapshotOf req = none := by
  simp [snapshotOf, h]

theorem sampleAll_unpooled : ∀ {rounds : List (Token × Req)} {e : Engine} {phase : Phase},
    e.linearStatePool = none →
    (e.sampleAll phase rounds).mambaAnchorSnapshots = e.mambaAnchorSnapshots
  | [], _, _, _ => rfl
  | (tok, req) :: rounds, e, phase, h => by
      have hnext := (sampleOne_frame e phase tok req).linearStatePool_eq.trans h
      rw [sampleAll, sampleAll_unpooled hnext]
      unfold sampleOne
      dsimp only
      split
      · rfl
      · rw [snapshotOf_unpooled]
        exact h

namespace Unpooled

section Step

variable {sampled : Nat → Token} {out : StepOutput} {s1 : Scheduler} {e2 : Engine}

theorem batch_src (h : Unpooled config e) (hs : e.scheduler.Ok)
    (hrun : StepRun e sampled out e' s1 e2) :
    ∀ r ∈ out.batch.reqs, r.mambaRestoreSrc = none := by
  intro r hr
  rcases (hrun.stepped hs).origin r hr with ⟨-, p, hp, hext⟩ | ⟨-, hr⟩
  · exact hext.restoreSrc_eq.trans (h.pending p hp)
  · exact h.running r hr

/-- A round leaves no source behind. -/
theorem round_src (h : Unpooled config e) (hs : e.scheduler.Ok)
    (hrun : StepRun e sampled out e' s1 e2) {x : Token × Req} (hx : x ∈ StepRun.rounds out)
    (hc : x.2.chunked = false) : (e.roundOf out.batch.phase x).2.mambaRestoreSrc = none := by
  obtain ⟨tok, req⟩ := x
  have hclear : e.clearRestore req = req := by simp [clearRestore, h.pool_eq]
  obtain ⟨anchor, last, next, cached, heq⟩ := e.sampleReq_eq out.batch.phase tok req hc
  simp only [roundOf, hclear, heq]
  exact h.batch_src hs hrun req (hrun.mem_batch hx)

theorem step (h : Unpooled config e) (hs : e.scheduler.Ok)
    (hrun : StepRun e sampled out e' s1 e2) : Unpooled config e' := by
  have hmid := StepRun.mid_frame e out s1
  have hcommit : StepRun.mid e out s1 = e2 := by
    have hall := hrun.commit_mid
    rw [commitAll_off (hmid.cacheManager_eq.trans h.cache_eq)] at hall
    exact Option.some.inj hall
  have hst := hrun.stepped hs
  have hfinal := hrun.final_eq
  rw [← hcommit] at hfinal
  constructor
  · exact hrun.config_eq.trans h.config_eq
  · rw [hfinal]
    exact hmid.linearStatePool_eq.trans h.pool_eq
  · rw [hfinal]
    exact hmid.cacheManager_eq.trans h.cache_eq
  · rw [hfinal]
    exact (sampleAll_unpooled (e := { e with scheduler := s1 }) h.pool_eq).trans h.snapshots_eq
  · intro seat hseat
    exact h.seats seat ((hrun.seats_perm hs).mem_iff.mpr (List.mem_append_left _ hseat))
  · intro p hp
    rcases hst.pending p hp with ⟨hp, -⟩ | ⟨p0, hp0, req, -, -, -, -, rfl⟩
    · exact h.pending p hp
    · exact h.pending p0 hp0
  · intro r hr
    rcases hst.running r hr with ⟨hr, -⟩ | ⟨x, hx, rfl, hc, -⟩
    · exact h.running r hr
    · obtain ⟨z, hz, rfl⟩ := List.mem_map.mp hx
      exact h.round_src hs hrun hz ((rounded e out.batch.phase z).chunked_eq ▸ hc)

end Step

theorem addRequest (h : Unpooled config e) (hb : Books e t orphans) (args : AddArgs) :
    Unpooled config (e.addRequest args).2 := by
  obtain ⟨hconfig, hcache, hsnap⟩ := hb.add_frame args
  have hoff : (e.addRequest args).2.cacheManager = none := by
    rw [h.cache_eq] at hcache
    simpa using hcache
  rcases hb.add_cases args with ⟨-, hnot⟩ | ⟨p, e3, hq, htouch, hin⟩
  · have hpool : (e.addRequest args).2.linearStatePool = none := by
      generalize (e.addRequest args).2 = e1 at hnot
      cases hnot with
      | exhausted hsome _ =>
          rw [h.pool_eq] at hsome
          cases hsome
      | noRow lp htaken _ =>
          rcases htaken with ⟨-, hnone, -⟩ | ⟨pool, _, _, _, _, hsome, -⟩
          · exact hnone
          · rw [h.pool_eq] at hsome
            cases hsome
    have hsched : (e.addRequest args).2.scheduler = e.scheduler := by
      rw [hnot.frame (hb.promptMatched args)]
    refine ⟨hconfig.trans h.config_eq, hpool, hoff, hsnap.trans h.snapshots_eq, ?_, ?_, ?_⟩ <;>
      rw [hsched]
    · exact h.seats
    · exact h.pending
    · exact h.running
  · obtain ⟨hlive, hpool⟩ := hq.linear_none h.pool_eq
    have hsrc : p.mambaRestoreSrc = none := by
      rw [hq.restoreSrc_eq, restoreSrc, h.pool_eq]
      simp
    refine ⟨hconfig.trans h.config_eq, ?_, hoff, hsnap.trans h.snapshots_eq, ?_, ?_, ?_⟩
    · rw [htouch.frame]
      exact hpool
    · intro seat hseat
      rcases List.mem_cons.mp (hin.seats_perm.mem_iff.mp hseat) with rfl | hold
      · exact hlive
      · exact h.seats seat hold
    · rw [hin.pendingList_eq]
      intro q hq
      rcases List.mem_append.mp hq with hq | hq
      · exact h.pending q hq
      · rw [List.mem_singleton.mp hq]
        exact hsrc
    · rw [hin.runningReqs_eq]
      exact h.running

theorem aborted (h : Unpooled config e) {hs : List RadixCacheHandle} {seat : Seat}
    (hab : Aborted hs e seat e') : Unpooled config e' := by
  have hoff : e'.cacheManager = none := by
    have hsome := hab.isSome_eq
    rw [h.cache_eq] at hsome
    simpa using hsome
  refine ⟨?_, ?_, hoff, ?_, fun s hs => ?_, fun p hp => h.pending p (hab.dropped.pending_sub p hp),
    fun r hr => h.running r (hab.dropped.running_sub r hr)⟩
  · rw [hab.frame]
    exact h.config_eq
  · rw [hab.frame]
    dsimp only
    rw [h.pool_eq]
    rfl
  · rw [hab.frame]
    exact h.snapshots_eq
  · exact h.seats s (hab.dropped.seats_perm.mem_iff.mpr (List.mem_cons_of_mem _ hs))

end Unpooled

end Engine

end FreeToken
