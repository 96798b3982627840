import Mathlib.Data.List.Perm.Basic
import FreeToken.Scheduler.Seats

/-!
# The scheduler, operation by operation

The invariant of the scheduler between calls, and what `add`, `abort` and a
`schedule` followed by `complete` do to the rows, the queue and the running set.
A step is described by its `pairs`: each request of the batch with what the step
made of it.
-/

namespace FreeToken

/-! ### The ordered set of running requests -/

theorem mergeReq_perm {running : List Req} (hn : (running.map Req.oid).Nodup) (req : Req) :
    (mergeReq running req).Perm (running.filter (fun r => r.oid ≠ req.oid) ++ [req]) := by
  unfold mergeReq
  induction running with
  | nil => simp
  | cons r rs ih =>
      obtain ⟨hr, hn⟩ := List.nodup_cons.mp hn
      have ih := ih hn
      by_cases hoid : r.oid = req.oid
      · have hrest : ∀ r' ∈ rs, r'.oid ≠ req.oid := by
          intro r' hr' heq
          exact hr (List.mem_map.mpr ⟨r', hr', heq.trans hoid.symm⟩)
        have hmap : rs.map (fun r => if r.oid = req.oid then req else r) = rs := by
          conv_rhs => rw [← List.map_id' rs]
          exact List.map_congr_left fun r' hr' => if_neg (hrest r' hr')
        have hfilter : rs.filter (fun r => r.oid ≠ req.oid) = rs :=
          List.filter_eq_self.mpr (fun r' hr' => by simpa using hrest r' hr')
        simp only [List.any_cons, hoid, beq_self_eq_true, Bool.true_or, if_true, List.map_cons, hmap]
        rw [List.filter_cons_of_neg (by simp [hoid]), hfilter]
        exact (List.perm_append_singleton req rs).symm
      · have hb : (r.oid == req.oid) = false := by simpa using hoid
        simp only [List.any_cons, hb, Bool.false_or, List.map_cons, hoid, if_false]
        rw [List.filter_cons_of_pos (by simpa using hoid)]
        split at ih
        · rename_i hany
          rw [if_pos hany]
          exact ih.cons r
        · rename_i hany
          rw [if_neg hany]
          exact ih.cons r

theorem foldl_mergeReq_perm : ∀ (reqs : List Req) {running : List Req}, (running.map Req.oid).Nodup →
    (reqs.map Req.oid).Nodup →
    (reqs.foldl mergeReq running).Perm
      (running.filter (fun r => r.oid ∉ reqs.map Req.oid) ++ reqs)
  | [], running, _, _ => by simp
  | req :: reqs, running, hn, hreqs => by
      obtain ⟨hreq, hreqs⟩ := List.nodup_cons.mp hreqs
      have hmerge := mergeReq_perm hn req
      have hn' : ((mergeReq running req).map Req.oid).Nodup := by
        refine (hmerge.map Req.oid).nodup_iff.mpr ?_
        rw [List.map_append, List.nodup_append']
        refine ⟨hn.sublist (List.filter_sublist.map _), List.nodup_singleton _, ?_⟩
        intro oid h1 h2
        obtain ⟨r, hr, rfl⟩ := List.mem_map.mp h1
        have hne := (List.mem_filter.mp hr).2
        simp only [List.map_cons, List.map_nil, List.mem_singleton] at h2
        exact absurd h2 (by simpa using hne)
      refine (foldl_mergeReq_perm reqs hn' hreqs).trans ?_
      refine ((hmerge.filter _).append_right reqs).trans ?_
      rw [List.filter_append, List.filter_filter]
      have hkeep : [req].filter (fun r => decide (r.oid ∉ reqs.map Req.oid)) = [req] := by
        simpa using hreq
      rw [hkeep, List.append_assoc]
      have hfilter : (running.filter fun r =>
          decide (r.oid ∉ reqs.map Req.oid) && decide (r.oid ≠ req.oid)) =
          running.filter fun r => decide (r.oid ∉ (req :: reqs).map Req.oid) := by
        refine List.filter_congr fun r _ => ?_
        by_cases h : r.oid = req.oid <;> simp [h]
      rw [hfilter]
      exact List.Perm.refl _

namespace Scheduler

/-! ### The rows a step frees -/

/-- The second loop of `freedRows`: rows of aborted requests, each at most once. -/
theorem foldl_freed_spec : ∀ (reqs : List Req) {freed : List Nat}, freed.Nodup →
    (reqs.foldl (fun freed req =>
      if req.aborted && !freed.contains req.tableIdx then freed ++ [req.tableIdx] else freed)
      freed).Nodup ∧
    ∀ row, row ∈ (reqs.foldl (fun freed req =>
      if req.aborted && !freed.contains req.tableIdx then freed ++ [req.tableIdx] else freed)
      freed) ↔ row ∈ freed ∨ ∃ req ∈ reqs, req.aborted = true ∧ req.tableIdx = row
  | [], freed, hn => by simp [hn]
  | req :: reqs, freed, hn => by
      simp only [List.foldl_cons]
      split
      · rename_i h
        simp only [Bool.and_eq_true, Bool.not_eq_true', List.contains_eq_mem,
          decide_eq_false_iff_not] at h
        have hn' : (freed ++ [req.tableIdx]).Nodup := by
          rw [List.nodup_append']
          exact ⟨hn, List.nodup_singleton _, by simpa using h.2⟩
        obtain ⟨ih1, ih2⟩ := foldl_freed_spec reqs hn'
        refine ⟨ih1, fun row => ?_⟩
        rw [ih2]
        rw [List.mem_append, List.mem_singleton]
        simp only [List.mem_cons, exists_eq_or_imp, h.1, true_and]
        constructor
        · rintro ((h | h) | h)
          · exact Or.inl h
          · exact Or.inr (Or.inl h.symm)
          · exact Or.inr (Or.inr h)
        · rintro (h | h | h)
          · exact Or.inl (Or.inl h)
          · exact Or.inl (Or.inr h.symm)
          · exact Or.inr h
      · rename_i h
        obtain ⟨ih1, ih2⟩ := foldl_freed_spec reqs hn
        refine ⟨ih1, fun row => ?_⟩
        rw [ih2]
        simp only [List.mem_cons, exists_eq_or_imp]
        constructor
        · rintro (h | h)
          · exact Or.inl h
          · exact Or.inr (Or.inr h)
        · rintro (h' | ⟨h1, rfl⟩ | h')
          · exact Or.inl h'
          · left
            simpa [h1] using h
          · exact Or.inr h'

theorem freedRows_spec {before : List Req} (after reqs : List Req) (hn : (before.map Req.tableIdx).Nodup) :
    (freedRows before after reqs).Nodup ∧
    ∀ row, row ∈ freedRows before after reqs ↔
      (∃ r ∈ before, r.oid ∉ after.map Req.oid ∧ r.tableIdx = row) ∨
      ∃ req ∈ reqs, req.aborted = true ∧ req.tableIdx = row := by
  have hn' : ((before.filter fun r => !after.any (fun r' => r'.oid == r.oid)).map
      Req.tableIdx).Nodup := hn.sublist (List.filter_sublist.map _)
  obtain ⟨h1, h2⟩ := foldl_freed_spec reqs hn'
  refine ⟨h1, fun row => ?_⟩
  rw [freedRows, h2]
  refine or_congr_left ?_
  simp only [List.mem_map, List.mem_filter, Bool.not_eq_true', List.any_eq_false, beq_iff_eq,
    not_exists, not_and]
  constructor
  · rintro ⟨r, ⟨hr, hno⟩, rfl⟩
    exact ⟨r, hr, fun x hx => hno x hx, rfl⟩
  · rintro ⟨r, hr, hno, rfl⟩
    exact ⟨r, ⟨hr, fun x hx => hno x hx⟩, rfl⟩

/-! ### The invariant -/

/-- The seats of the live requests. -/
def seats (s : Scheduler) : List Seat :=
  s.pendingList.map PendingReq.seat ++ s.runningReqs.map Req.seat

structure Ok (s : Scheduler) : Prop where
  rows_perm : (s.freeSlots ++ s.seats.map Seat.row).Perm (List.range s.maxRunningReq)
  pending_ok : ∀ p ∈ s.pendingList, p.Ok
  running_ok : ∀ r ∈ s.runningReqs, r.Running
  oids_nodup : (s.runningReqs.map Req.oid).Nodup
  oids_lt : ∀ r ∈ s.runningReqs, r.oid < s.prefillManager.nextOid

/-- What no operation changes. -/
structure SameLimits (s s' : Scheduler) : Prop where
  maxRunningReq_eq : s'.maxRunningReq = s.maxRunningReq
  maxExtendTokens_eq : s'.maxExtendTokens = s.maxExtendTokens
  maxPages_eq : s'.maxPages = s.maxPages
  cacheBudget_eq : s'.cacheBudget = s.cacheBudget
  prefill_eq : s'.prefillManager.maxRunningReq = s.prefillManager.maxRunningReq ∧
    s'.prefillManager.cacheBudget = s.prefillManager.cacheBudget

variable {s s' : Scheduler}

theorem SameLimits.refl (s : Scheduler) : SameLimits s s := ⟨rfl, rfl, rfl, rfl, rfl, rfl⟩

theorem Ok.rows_nodup (h : s.Ok) : (s.freeSlots ++ s.seats.map Seat.row).Nodup :=
  h.rows_perm.nodup_iff.mpr List.nodup_range

theorem Ok.seat_rows_nodup (h : s.Ok) : (s.seats.map Seat.row).Nodup :=
  (List.nodup_append'.mp h.rows_nodup).2.1

theorem map_row_seat_pending (ps : List PendingReq) :
    (ps.map PendingReq.seat).map Seat.row = ps.map PendingReq.tableIdx := by
  simp [Function.comp_def, PendingReq.seat]

theorem map_row_seat_running (rs : List Req) :
    (rs.map Req.seat).map Seat.row = rs.map Req.tableIdx := by
  simp [Function.comp_def, Req.seat]

theorem Ok.pending_rows_nodup (hs : s.Ok) : (s.pendingList.map PendingReq.tableIdx).Nodup := by
  have h := hs.seat_rows_nodup
  rw [seats, List.map_append, map_row_seat_pending] at h
  exact (List.nodup_append'.mp h).1

theorem Ok.running_rows_nodup (h : s.Ok) : (s.runningReqs.map Req.tableIdx).Nodup := by
  have hn := h.seat_rows_nodup
  rw [seats, List.map_append, map_row_seat_running] at hn
  exact (List.nodup_append'.mp hn).2.1

theorem ok_init (maxRunningReq maxExtendTokens pageSize maxPages cacheBudget : Nat) :
    (init maxRunningReq maxExtendTokens pageSize maxPages cacheBudget).Ok where
  rows_perm := by simp [init, seats, pendingList, runningReqs]
  pending_ok := by simp [init, pendingList]
  running_ok := by simp [init, runningReqs]
  oids_nodup := by simp [init, runningReqs]
  oids_lt := by simp [init, runningReqs]

/-! ### `add` -/

theorem add_spec {p p' : PendingReq} (hs : s.Ok) (hp : p.Ok) (hfresh : p.chunkedReq = none)
    (h : s.add p = .ok (p', s')) :
    s'.Ok ∧ SameLimits s s' ∧ p'.Ok ∧ s.freeSlots = p'.tableIdx :: s'.freeSlots ∧
      p' = { p with tableIdx := p'.tableIdx } ∧ s'.pendingList = s.pendingList ++ [p'] ∧
      s'.runningReqs = s.runningReqs := by
  unfold add at h
  split at h
  · cases h
  · rename_i row rest hfree
    simp only [Except.ok.injEq, Prod.mk.injEq] at h
    obtain ⟨rfl, rfl⟩ := h
    have hp' : PendingReq.Ok { p with tableIdx := row } :=
      ⟨hp.cachedLen_le, hp.cachedLen, fun c hc => by
        rw [show p.chunkedReq = some c from hc] at hfresh
        cases hfresh⟩
    refine ⟨?_, ⟨rfl, rfl, rfl, rfl, rfl, rfl⟩, hp', hfree, rfl, rfl, rfl⟩
    refine
      { rows_perm := ?_
        pending_ok := ?_
        running_ok := hs.running_ok
        oids_nodup := hs.oids_nodup
        oids_lt := hs.oids_lt }
    · refine List.Perm.trans ?_ hs.rows_perm
      rw [hfree]
      simp only [seats, pendingList, runningReqs, PrefillManager.addOneReq, List.map_append,
        List.map_cons, List.map_nil, List.append_assoc]
      refine (List.Perm.append_left rest ?_).trans List.perm_middle
      exact List.perm_middle
    · intro q hq
      rcases List.mem_append.mp hq with hq | hq
      · exact hs.pending_ok q hq
      · rw [List.mem_singleton.mp hq]
        exact hp'

theorem add_error {p : PendingReq} {err : EngineError} (h : s.add p = .error err) :
    s.freeSlots = [] := by
  unfold add at h
  split at h
  · assumption
  · cases h

/-! ### `abort` -/

/-- Who `abort` drops: `seat` leaves, the other entries stay as they are. -/
structure Dropped (s : Scheduler) (seat : Seat) (s' : Scheduler) : Prop where
  ok : s'.Ok
  limits : SameLimits s s'
  seats_perm : s.seats.Perm (seat :: s'.seats)
  freeSlots_perm : s'.freeSlots.Perm (seat.row :: s.freeSlots)
  pending_sub : ∀ p ∈ s'.pendingList, p ∈ s.pendingList
  running_sub : ∀ r ∈ s'.runningReqs, r ∈ s.runningReqs
  pending_mem : ∀ p ∈ s.pendingList, p.tableIdx ≠ seat.row → p ∈ s'.pendingList
  running_mem : ∀ r ∈ s.runningReqs, r.tableIdx ≠ seat.row → r ∈ s'.runningReqs

/-- The seat a uid names: the first queued entry, else the first running request. -/
def findSeat (s : Scheduler) (uid : Int) : Option Seat :=
  match s.pendingList.find? fun p => p.uid = uid with
  | some p => some p.seat
  | none => (s.runningReqs.find? fun r => r.uid = uid).map Req.seat

theorem perm_of_dropped_rows {free rows free' rows' : List Nat} {row R : Nat}
    (h : (free ++ rows).Perm (List.range R)) (hfree : free'.Perm (row :: free))
    (hrows : rows.Perm (row :: rows')) : (free' ++ rows').Perm (List.range R) := by
  refine List.Perm.trans ?_ h
  refine (hfree.append_right rows').trans ?_
  refine List.Perm.trans ?_ (hrows.append_left free).symm
  exact List.perm_middle.symm

/-- The state without an entry of the queue. -/
theorem dropped_pending (hs : s.Ok) {i : Nat} (hi : i < s.pendingList.length) :
    Dropped s s.pendingList[i].seat
      { s with
        prefillManager := { s.prefillManager with pendingList := s.pendingList.eraseIdx i }
        freeSlots := sortSlots (s.freeSlots ++ [s.pendingList[i].row]) } := by
  have hperm : s.pendingList.Perm (s.pendingList[i] :: s.pendingList.eraseIdx i) :=
    (List.getElem_cons_eraseIdx_perm hi).symm
  have hfree : (sortSlots (s.freeSlots ++ [s.pendingList[i].row])).Perm
      (s.pendingList[i].seat.row :: s.freeSlots) := by
    rw [(hs.pending_ok s.pendingList[i] (List.getElem_mem hi)).row_eq]
    exact (sortSlots_perm _).trans (List.perm_append_singleton _ _)
  have hseats : s.seats.Perm (s.pendingList[i].seat ::
      ((s.pendingList.eraseIdx i).map PendingReq.seat ++ s.runningReqs.map Req.seat)) :=
    (hperm.map PendingReq.seat).append_right _
  have hsub : ∀ p ∈ s.pendingList.eraseIdx i, p ∈ s.pendingList := fun p hp =>
    hperm.mem_iff.mpr (List.mem_cons_of_mem _ hp)
  exact
    { ok :=
        { rows_perm := perm_of_dropped_rows hs.rows_perm hfree (hseats.map Seat.row)
          pending_ok := fun p hp => hs.pending_ok p (hsub p hp)
          running_ok := hs.running_ok
          oids_nodup := hs.oids_nodup
          oids_lt := hs.oids_lt }
      limits := ⟨rfl, rfl, rfl, rfl, rfl, rfl⟩
      seats_perm := hseats
      freeSlots_perm := hfree
      pending_sub := hsub
      running_sub := fun r hr => hr
      pending_mem := by
        intro p hp hrow
        rcases List.mem_cons.mp (hperm.mem_iff.mp hp) with rfl | hp
        · exact absurd rfl hrow
        · exact hp
      running_mem := fun r hr _ => hr }

/-- No two running requests are alike to the scheduler. -/
theorem running_perm_cons (hs : s.Ok) {req : Req} (hmem : req ∈ s.runningReqs) :
    s.runningReqs.Perm (req :: s.runningReqs.filter (fun r => r.oid ≠ req.oid)) := by
  have hmap : mergeReq s.runningReqs req = s.runningReqs := by
    have hany : s.runningReqs.any (fun r => r.oid == req.oid) = true :=
      List.any_eq_true.mpr ⟨req, hmem, by simp⟩
    rw [mergeReq, if_pos hany]
    conv_rhs => rw [← List.map_id' s.runningReqs]
    refine List.map_congr_left fun r hr => ?_
    split
    · rename_i hoid
      exact (List.inj_on_of_nodup_map hs.oids_nodup hr hmem hoid).symm
    · rfl
  have h := mergeReq_perm hs.oids_nodup req
  rw [hmap] at h
  exact h.trans (List.perm_append_singleton _ _)

/-- The state without a running request. -/
theorem dropped_running (hs : s.Ok) {req : Req} (hmem : req ∈ s.runningReqs) :
    Dropped s req.seat
      { s with
        decodeManager :=
          { s.decodeManager with
            runningReqs := s.runningReqs.filter (fun r => r.oid ≠ req.oid) }
        freeSlots := sortSlots (s.freeSlots ++ [req.tableIdx]) } := by
  have hperm := running_perm_cons hs hmem
  have hfree : (sortSlots (s.freeSlots ++ [req.tableIdx])).Perm (req.seat.row :: s.freeSlots) :=
    (sortSlots_perm _).trans (List.perm_append_singleton _ _)
  have hseats : s.seats.Perm (req.seat :: (s.pendingList.map PendingReq.seat ++
      (s.runningReqs.filter (fun r => r.oid ≠ req.oid)).map Req.seat)) :=
    ((hperm.map Req.seat).append_left _).trans List.perm_middle
  have hsub : ∀ r ∈ s.runningReqs.filter (fun r => r.oid ≠ req.oid), r ∈ s.runningReqs :=
    fun r hr => (List.mem_filter.mp hr).1
  exact
    { ok :=
        { rows_perm := perm_of_dropped_rows hs.rows_perm hfree (hseats.map Seat.row)
          pending_ok := hs.pending_ok
          running_ok := fun r hr => hs.running_ok r (hsub r hr)
          oids_nodup := hs.oids_nodup.sublist (List.filter_sublist.map _)
          oids_lt := fun r hr => hs.oids_lt r (hsub r hr) }
      limits := ⟨rfl, rfl, rfl, rfl, rfl, rfl⟩
      seats_perm := hseats
      freeSlots_perm := hfree
      pending_sub := fun p hp => hp
      running_sub := hsub
      pending_mem := fun p hp _ => hp
      running_mem := by
        intro r hr hrow
        rcases List.mem_cons.mp (hperm.mem_iff.mp hr) with rfl | hr
        · exact absurd rfl hrow
        · exact hr }

theorem abort_spec (hs : s.Ok) (uid : Int) :
    (s.findSeat uid = none ∧ s.abort uid = (false, s)) ∨
    ∃ seat s', s.findSeat uid = some seat ∧ seat.uid = uid ∧ s.abort uid = (true, s') ∧
      Dropped s seat s' := by
  cases hidx : s.pendingList.findIdx? (fun pr => pr.uid = uid) with
  | some i =>
      right
      obtain ⟨hi, huid, hfirst⟩ := List.findIdx?_eq_some_iff_getElem.mp hidx
      have hget : s.pendingList[i]? = some s.pendingList[i] := List.getElem?_eq_getElem hi
      have hfind : s.pendingList.find? (fun p => p.uid = uid) = some s.pendingList[i] := by
        rw [List.find?_eq_some_iff_getElem]
        exact ⟨huid, i, hi, rfl, fun j hj => by simpa using hfirst j hj⟩
      exact ⟨_, _, by simp [findSeat, hfind], by simpa [PendingReq.seat] using huid,
        by simp [abort, hidx, hget], dropped_pending hs hi⟩
  | none =>
      have hnone : s.pendingList.find? (fun p => p.uid = uid) = none := by
        rw [List.find?_eq_none]
        rw [List.findIdx?_eq_none_iff] at hidx
        intro p hp
        simpa using hidx p hp
      cases hfind : s.runningReqs.find? (fun r => r.uid = uid) with
      | none =>
          left
          have hfind' : s.decodeManager.runningReqs.find? (fun r => r.uid = uid) = none := hfind
          exact ⟨by simp [findSeat, hnone, hfind],
            by simp [abort, hidx, DecodeManager.abortReq, hfind']⟩
      | some req =>
          right
          have hfind' : s.decodeManager.runningReqs.find? (fun r => r.uid = uid) = some req := hfind
          have huid := List.find?_some hfind
          exact ⟨_, _, by simp [findSeat, hnone, hfind], by simpa [Req.seat] using huid,
            by simp [abort, hidx, DecodeManager.abortReq, hfind', runningReqs],
            dropped_running hs (List.mem_of_find?_eq_some hfind)⟩

/-- `abort` drops the first queued entry of that uid. -/
theorem abort_pendingList (s : Scheduler) (uid : Int) :
    (s.abort uid).2.pendingList = s.pendingList.eraseP fun p => p.uid = uid := by
  rw [List.eraseP_eq_eraseIdx, abort]
  cases s.pendingList.findIdx? fun p => p.uid = uid with
  | some i => rfl
  | none =>
      dsimp only
      split <;> rfl

theorem abort_runningReqs_subset (hs : s.Ok) (uid : Int) :
    ∀ r ∈ (s.abort uid).2.runningReqs, r ∈ s.runningReqs := by
  rcases abort_spec hs uid with ⟨-, heq⟩ | ⟨seat, s', -, -, heq, hdrop⟩
  · rw [heq]
    exact fun r hr => hr
  · rw [heq]
    exact hdrop.running_sub

/-! ### `schedule` and `complete` -/

/-- A prefill batch: the `picked` entries of the queue, each extended by a slice. -/
structure PrefillBatch (s : Scheduler) (batch : Batch) (s1 : Scheduler)
    (picked : List (PendingReq × Req)) (unadmitted : List PendingReq) : Prop where
  phase_eq : batch.phase = .prefill
  reqs_eq : batch.reqs = picked.map Prod.snd
  queue_perm : s.pendingList.Perm (picked.map Prod.fst ++ unadmitted)
  extend : ∀ x ∈ picked, Extends s.maxExtendTokens x.1 x.2
  pendingList_eq : s1.pendingList =
    ((picked.filter fun x => x.2.chunked).map fun x => { x.1 with chunkedReq := some x.2 }) ++
      unadmitted
  runningReqs_eq : s1.runningReqs = s.runningReqs
  freeSlots_eq : s1.freeSlots = s.freeSlots
  limits : SameLimits s s1
  oids_nodup : (batch.reqs.map Req.oid).Nodup
  oids_ge : ∀ req ∈ batch.reqs, s.prefillManager.nextOid ≤ req.oid
  oids_lt : ∀ req ∈ batch.reqs, req.oid < s1.prefillManager.nextOid
  nextOid_le : s.prefillManager.nextOid ≤ s1.prefillManager.nextOid

theorem schedule_spec {s1 : Scheduler} {batch : Batch} (hs : s.Ok)
    (h : s.schedule = some (batch, s1)) (hids : ∀ req ∈ batch.reqs, req.inputIds ≠ []) :
    batch.reqs ≠ [] ∧
    ((∃ picked unadmitted, PrefillBatch s batch s1 picked unadmitted) ∨
      (batch.phase = .decode ∧ batch.reqs.Perm s.runningReqs ∧ s1 = s)) := by
  unfold schedule at h
  split at h
  · rename_i batch' pm hpm
    simp only [Option.some.injEq, Prod.mk.injEq] at h
    obtain ⟨rfl, rfl⟩ := h
    unfold PrefillManager.scheduleNextBatch at hpm
    split at hpm
    · cases hpm
    · dsimp only at hpm
      split at hpm
      · cases hpm
      · rename_i hne
        simp only [Option.some.injEq, Prod.mk.injEq] at hpm
        obtain ⟨rfl, rfl⟩ := hpm
        obtain ⟨picked, hadm⟩ := admitLoop_spec s.prefillManager.pendingList
          { tokenBudget := s.maxExtendTokens
            stepBudget := s.maxExtendTokens
            reservedSize := s.decodeManager.inflightTokens
            maxRunningReq := s.prefillManager.maxRunningReq
            cacheBudget := s.prefillManager.cacheBudget
            runningCount := s.runningReqs.length }
          s.prefillManager.nextOid hs.pending_ok rfl (Int.le_refl _)
        generalize admitLoop _ _ s.prefillManager.pendingList = adm at hids hne hadm ⊢
        refine ⟨by simpa using hne, Or.inl ⟨picked, adm.unadmitted, ?_⟩⟩
        have hoid : ∀ oid, oid ∈ picked.map (fun x => x.2.oid) →
            s.prefillManager.nextOid ≤ oid ∧ oid < s.prefillManager.nextOid + picked.length := by
          intro oid hoid
          rw [hadm.oids_eq, List.mem_range'_1] at hoid
          exact hoid
        have hreqs : ∀ req, req ∈ picked.map Prod.snd →
            req.oid ∈ picked.map (fun x => x.2.oid) := by
          intro req hreq
          obtain ⟨x, hx, rfl⟩ := List.mem_map.mp hreq
          exact List.mem_map.mpr ⟨x, hx, rfl⟩
        have hmap : (picked.map Prod.snd).map Req.oid = picked.map (fun x => x.2.oid) := by
          simp [Function.comp_def]
        simp only [hadm.reqs_eq] at hids ⊢
        exact
          { phase_eq := rfl
            reqs_eq := rfl
            queue_perm := hadm.queue_perm
            extend := by
              intro x hx
              refine hadm.extends_of_ne_nil x hx fun hnil => ?_
              exact hids x.2 (List.mem_map.mpr ⟨x, hx, rfl⟩) (hadm.empty x hx hnil)
            pendingList_eq := by
              show _ ++ _ = _
              rw [hadm.chunkedList_eq]
            runningReqs_eq := rfl
            freeSlots_eq := rfl
            limits := ⟨rfl, rfl, rfl, rfl, rfl, rfl⟩
            oids_nodup := by
              rw [hmap, hadm.oids_eq]
              exact List.nodup_range'
            oids_ge := fun req hreq => (hoid _ (hreqs req hreq)).1
            oids_lt := by
              intro req hreq
              have := (hoid _ (hreqs req hreq)).2
              dsimp only
              rw [hadm.nextOid_eq]
              exact this
            nextOid_le := by
              dsimp only
              rw [hadm.nextOid_eq]
              exact Nat.le_add_right _ _ }
  · simp only [Option.map_eq_some_iff, Prod.mk.injEq] at h
    obtain ⟨batch', hdm, rfl, rfl⟩ := h
    unfold DecodeManager.scheduleNextBatch at hdm
    split at hdm
    · cases hdm
    · rename_i hne
      obtain rfl := Option.some.inj hdm
      have hperm : (s.decodeManager.runningReqs.insertionSort (fun a b => a.uid ≤ b.uid)).Perm
          s.runningReqs := List.perm_insertionSort _ _
      refine ⟨fun hnil => ?_, Or.inr ⟨rfl, hperm, rfl⟩⟩
      dsimp only at hnil
      rw [hnil] at hperm
      exact hne (by simpa [runningReqs] using hperm.symm.eq_nil)

theorem schedule_freeSlots {s1 : Scheduler} {batch : Batch} (h : s.schedule = some (batch, s1)) :
    s1.freeSlots = s.freeSlots := by
  unfold schedule at h
  split at h
  · cases h
    rfl
  · simp only [Option.map_eq_some_iff, Prod.mk.injEq] at h
    obtain ⟨-, -, -, rfl⟩ := h
    rfl

/-- What one round of sampling does to a request, as far as the scheduler can tell. -/
structure Sampled (req req' : Req) : Prop where
  oid_eq : req'.oid = req.oid
  seat_eq : req'.seat = req.seat
  chunked_eq : req'.chunked = req.chunked
  chunk_aborted : req.chunked = true → req'.aborted = req.aborted
  going : req.chunked = false → req'.aborted = false → req'.deviceLen < req'.maxDeviceLen

/-- The requests a step finished. -/
def finishedIn (reqs : List Req) : List Req := reqs.filter fun req => !req.chunked && req.aborted

theorem mem_finishedIn {reqs : List Req} {r : Req} :
    r ∈ finishedIn reqs ↔ r ∈ reqs ∧ r.chunked = false ∧ r.aborted = true := by
  simp [finishedIn]

/-- A step of the scheduler around its `pairs`. -/
structure Stepped (s : Scheduler) (batch : Batch) (pairs : List (Req × Req)) (s' : Scheduler) :
    Prop where
  ok : s'.Ok
  limits : SameLimits s s'
  seats_perm : s.seats.Perm (s'.seats ++ (finishedIn (pairs.map Prod.snd)).map Req.seat)
  freeSlots_perm : s'.freeSlots.Perm
    (s.freeSlots ++ (finishedIn (pairs.map Prod.snd)).map Req.tableIdx)
  rows_nodup : (batch.reqs.map Req.tableIdx).Nodup
  origin : ∀ req ∈ batch.reqs,
    (batch.phase = .prefill ∧ ∃ p ∈ s.pendingList, Extends s.maxExtendTokens p req) ∨
    (batch.phase = .decode ∧ req ∈ s.runningReqs)
  pending : ∀ p ∈ s'.pendingList,
    (p ∈ s.pendingList ∧ p.tableIdx ∉ batch.reqs.map Req.tableIdx) ∨
    ∃ p0 ∈ s.pendingList, ∃ req ∈ batch.reqs, batch.phase = .prefill ∧
      Extends s.maxExtendTokens p0 req ∧ req.chunked = true ∧
      p = { p0 with chunkedReq := some req }
  running : ∀ r ∈ s'.runningReqs,
    (r ∈ s.runningReqs ∧ r.tableIdx ∉ batch.reqs.map Req.tableIdx) ∨
    ∃ x ∈ pairs, r = x.2 ∧ r.chunked = false ∧ r.aborted = false

theorem filter_three_perm {α : Type} {p q r : α → Bool} : ∀ {xs : List α},
    (∀ x ∈ xs, (p x = true ∧ q x = false ∧ r x = false) ∨
      (p x = false ∧ q x = true ∧ r x = false) ∨ (p x = false ∧ q x = false ∧ r x = true)) →
    xs.Perm (xs.filter p ++ (xs.filter q ++ xs.filter r))
  | [], _ => List.Perm.nil
  | x :: xs, h => by
      have ih := filter_three_perm (fun y hy => h y (List.mem_cons_of_mem _ hy))
      rcases h x List.mem_cons_self with ⟨hp, hq, hr⟩ | ⟨hp, hq, hr⟩ | ⟨hp, hq, hr⟩
      · simpa [hp, hq, hr] using ih
      · simp only [List.filter_cons, hp, hq, hr, if_true]
        exact (ih.cons x).trans List.perm_middle.symm
      · simp only [List.filter_cons, hp, hq, hr, if_true]
        refine (ih.cons x).trans ?_
        rw [← List.append_assoc, ← List.append_assoc]
        exact List.perm_middle.symm

theorem canDecode_iff {r : Req} (hgoing : r.chunked = false → r.aborted = false →
    r.deviceLen < r.maxDeviceLen) :
    r.canDecode = true ↔ r.chunked = false ∧ r.aborted = false := by
  constructor
  · intro h
    simp only [Req.canDecode, Bool.and_eq_true, Bool.not_eq_true'] at h
    exact ⟨h.1.1, h.2⟩
  · rintro ⟨h1, h2⟩
    exact Req.Running.canDecode ⟨h1, h2, hgoing h1 h2⟩

/-- Every request of a finished step is a chunk, still going, or finished. -/
theorem sampled_perm {pairs : List (Req × Req)} (hsampled : ∀ x ∈ pairs, Sampled x.1 x.2) :
    (pairs.map Prod.snd).Perm
      ((pairs.map Prod.snd).filter (fun r => r.chunked) ++
        ((pairs.map Prod.snd).filter Req.canDecode ++ finishedIn (pairs.map Prod.snd))) := by
  refine filter_three_perm fun r hr => ?_
  obtain ⟨x, hx, rfl⟩ := List.mem_map.mp hr
  have hx := hsampled x hx
  have hcan := canDecode_iff (r := x.2) fun hc ha => hx.going (hx.chunked_eq ▸ hc) ha
  cases hc : x.2.chunked with
  | true => exact Or.inl ⟨rfl, by simp [Req.canDecode, hc], by simp⟩
  | false =>
      cases ha : x.2.aborted with
      | true => exact Or.inr (Or.inr ⟨rfl, by simp [Req.canDecode, ha], by simp⟩)
      | false => exact Or.inr (Or.inl ⟨rfl, hcan.mpr ⟨hc, ha⟩, by simp⟩)

theorem Sampled.running {req req' : Req} (h : Sampled req req') (hcan : req'.canDecode = true) :
    req'.Running := by
  obtain ⟨hc, ha⟩ := (canDecode_iff (fun hc ha => h.going (h.chunked_eq ▸ hc) ha)).mp hcan
  exact ⟨hc, ha, h.going (h.chunked_eq ▸ hc) ha⟩

theorem map_eq_of_pairs {β : Type} {pairs : List (Req × Req)} {reqs : List Req} {g : Req → β}
    (hfst : pairs.map Prod.fst = reqs) (hg : ∀ x ∈ pairs, g x.2 = g x.1) :
    (pairs.map Prod.snd).map g = reqs.map g := by
  rw [← hfst, List.map_map, List.map_map]
  exact List.map_congr_left hg

theorem mem_batch_of_pair {pairs : List (Req × Req)} {batch : Batch}
    (hfst : pairs.map Prod.fst = batch.reqs) {x : Req × Req} (hx : x ∈ pairs) : x.1 ∈ batch.reqs :=
  hfst ▸ List.mem_map.mpr ⟨x, hx, rfl⟩

theorem map_oid_sampled {pairs : List (Req × Req)} {batch : Batch}
    (hfst : pairs.map Prod.fst = batch.reqs) (hsampled : ∀ x ∈ pairs, Sampled x.1 x.2) :
    (pairs.map Prod.snd).map Req.oid = batch.reqs.map Req.oid :=
  map_eq_of_pairs hfst fun x hx => (hsampled x hx).oid_eq

theorem map_seat_sampled {pairs : List (Req × Req)} {batch : Batch}
    (hfst : pairs.map Prod.fst = batch.reqs) (hsampled : ∀ x ∈ pairs, Sampled x.1 x.2) :
    (pairs.map Prod.snd).map Req.seat = batch.reqs.map Req.seat :=
  map_eq_of_pairs hfst fun x hx => (hsampled x hx).seat_eq

theorem tableIdx_eq_of_seat_eq {r r' : Req} (h : r.seat = r'.seat) : r.tableIdx = r'.tableIdx :=
  congrArg Seat.row h

theorem freeSlots_complete_perm (s1 : Scheduler) (reqs : List Req) {rows : List Nat}
    (hfreed : (freedRows s1.runningReqs (s1.decodeManager.filterReqs reqs).runningReqs reqs).Perm
      rows) : (s1.complete reqs).freeSlots.Perm (s1.freeSlots ++ rows) := by
  simp only [complete]
  split
  · rename_i hempty
    have hnil := List.isEmpty_iff.mp hempty
    rw [hnil] at hfreed
    rw [hfreed.symm.eq_nil, List.append_nil]
  · exact (sortSlots_perm _).trans (hfreed.append_left _)

/-! ### What a step frees -/

/-- The rows of the finished are those that the other seats do not have. -/
theorem rows_nodup_of_finished {s2 : Scheduler} {done : List Req} (hs : s.Ok)
    (hseats : s.seats.Perm (s2.seats ++ done.map Req.seat)) :
    (s2.seats.map Seat.row ++ done.map Req.tableIdx).Nodup := by
  have h := (hseats.map Seat.row).nodup_iff.mp hs.seat_rows_nodup
  rwa [List.map_append, map_row_seat_running] at h

/-- With the rows of the finished free again, every row is free or taken. -/
theorem rows_perm_of_finished {s2 : Scheduler} {done : List Req} (hs : s.Ok)
    (hseats : s.seats.Perm (s2.seats ++ done.map Req.seat))
    (hfree : s2.freeSlots.Perm (s.freeSlots ++ done.map Req.tableIdx))
    (hmax : s2.maxRunningReq = s.maxRunningReq) :
    (s2.freeSlots ++ s2.seats.map Seat.row).Perm (List.range s2.maxRunningReq) := by
  rw [hmax]
  refine List.Perm.trans ?_ hs.rows_perm
  refine List.perm_iff_count.mpr fun a => ?_
  have h1 := hfree.count_eq a
  have h2 := (hseats.map Seat.row).count_eq a
  rw [List.map_append, map_row_seat_running] at h2
  simp only [List.count_append] at h1 h2 ⊢
  omega

/-- The freed rows are those of the finished, where whoever leaves the running set is one of them
and no chunk is aborted. -/
theorem freedRows_perm {old new reqs : List Req} (hold : (old.map Req.tableIdx).Nodup)
    (hdone : ((finishedIn reqs).map Req.tableIdx).Nodup)
    (hgone : ∀ r ∈ old, r.oid ∉ new.map Req.oid →
      r.tableIdx ∈ (finishedIn reqs).map Req.tableIdx)
    (hchunk : ∀ r ∈ reqs, r.aborted = true → r.chunked = false) :
    (freedRows old new reqs).Perm ((finishedIn reqs).map Req.tableIdx) := by
  obtain ⟨hn, hiff⟩ := freedRows_spec new reqs hold
  refine (List.perm_ext_iff_of_nodup hn hdone).mpr fun row => ?_
  rw [hiff]
  constructor
  · rintro (⟨r, hr, hleft, rfl⟩ | ⟨r, hr, habort, rfl⟩)
    · exact hgone r hr hleft
    · exact List.mem_map.mpr ⟨r, mem_finishedIn.mpr ⟨hr, hchunk r hr habort, habort⟩, rfl⟩
  · intro h
    obtain ⟨r, hr, rfl⟩ := List.mem_map.mp h
    obtain ⟨hr, -, habort⟩ := mem_finishedIn.mp hr
    exact Or.inr ⟨r, hr, habort, rfl⟩

/-! ### A prefill step -/

section Prefill

variable {s1 : Scheduler} {batch : Batch} {pairs : List (Req × Req)}
  {picked : List (PendingReq × Req)} {unadmitted : List PendingReq}

theorem PrefillBatch.mem_pending (hb : PrefillBatch s batch s1 picked unadmitted)
    {x : PendingReq × Req} (hx : x ∈ picked) : x.1 ∈ s.pendingList :=
  hb.queue_perm.mem_iff.mpr (List.mem_append_left _ (List.mem_map.mpr ⟨x, hx, rfl⟩))

theorem PrefillBatch.exists_pending (hb : PrefillBatch s batch s1 picked unadmitted) :
    ∀ req ∈ batch.reqs, ∃ p ∈ s.pendingList, Extends s.maxExtendTokens p req := by
  intro req hreq
  rw [hb.reqs_eq] at hreq
  obtain ⟨x, hx, rfl⟩ := List.mem_map.mp hreq
  exact ⟨x.1, hb.mem_pending hx, hb.extend x hx⟩

theorem PrefillBatch.picked_seats (hb : PrefillBatch s batch s1 picked unadmitted) :
    (picked.map Prod.fst).map PendingReq.seat = batch.reqs.map Req.seat := by
  rw [hb.reqs_eq, List.map_map, List.map_map]
  exact List.map_congr_left fun x hx => (hb.extend x hx).seat_eq.symm

/-- The batch, the prompts that wait and the requests that run have different rows. -/
theorem PrefillBatch.rows_nodup (hs : s.Ok) (hb : PrefillBatch s batch s1 picked unadmitted) :
    (batch.reqs.map Req.tableIdx ++ (unadmitted.map PendingReq.tableIdx ++
      s.runningReqs.map Req.tableIdx)).Nodup := by
  have hqueue := (hb.queue_perm.map PendingReq.seat).map Seat.row
  rw [List.map_append, hb.picked_seats, List.map_append, map_row_seat_running,
    map_row_seat_pending, map_row_seat_pending] at hqueue
  have hn := hs.seat_rows_nodup
  rw [seats, List.map_append, map_row_seat_pending, map_row_seat_running] at hn
  rw [← List.append_assoc]
  exact (hqueue.append_right _).nodup_iff.mp hn

variable (hs : s.Ok) (hb : PrefillBatch s batch s1 picked unadmitted)
  (hfst : pairs.map Prod.fst = batch.reqs) (hsampled : ∀ x ∈ pairs, Sampled x.1 x.2)
include hb hfst hsampled

/-- No chunk of the batch is aborted. -/
theorem prefill_not_chunked : ∀ r ∈ pairs.map Prod.snd, r.aborted = true → r.chunked = false := by
  intro r hr habort
  obtain ⟨x, hx, rfl⟩ := List.mem_map.mp hr
  obtain ⟨p, -, hext⟩ := hb.exists_pending x.1 (mem_batch_of_pair hfst hx)
  cases hc : x.2.chunked with
  | false => rfl
  | true =>
      have := (hsampled x hx).chunk_aborted ((hsampled x hx).chunked_eq ▸ hc)
      rw [hext.not_aborted, habort] at this
      cases this

/-- The chunks go back to the queue. -/
theorem prefill_chunk_seats : ((picked.filter fun x => x.2.chunked).map fun x =>
      ({ x.1 with chunkedReq := some x.2 } : PendingReq)).map PendingReq.seat =
    ((pairs.map Prod.snd).filter fun r => r.chunked).map Req.seat := by
  have hbatch : ((picked.filter fun x => x.2.chunked).map fun x =>
      ({ x.1 with chunkedReq := some x.2 } : PendingReq)).map PendingReq.seat =
      (batch.reqs.filter fun r => r.chunked).map Req.seat := by
    rw [hb.reqs_eq, List.filter_map, List.map_map, List.map_map]
    refine List.map_congr_left fun x hx => ?_
    exact (hb.extend x (List.mem_filter.mp hx).1).seat_eq.symm
  have hfilter : pairs.filter ((fun r : Req => r.chunked) ∘ Prod.fst) =
      pairs.filter ((fun r : Req => r.chunked) ∘ Prod.snd) :=
    List.filter_congr fun x hx => (hsampled x hx).chunked_eq.symm
  rw [hbatch, ← hfst, List.filter_map, List.filter_map, List.map_map, List.map_map, hfilter]
  exact List.map_congr_left fun x hx => (hsampled x (List.mem_filter.mp hx).1).seat_eq.symm

include hs

/-- The requests of the batch are new. -/
theorem prefill_oids : ∀ r ∈ s.runningReqs, r.oid ∉ (pairs.map Prod.snd).map Req.oid := by
  intro r hr hmem
  rw [map_oid_sampled hfst hsampled] at hmem
  obtain ⟨req, hreq, heq⟩ := List.mem_map.mp hmem
  have h1 := hs.oids_lt r hr
  have h2 := hb.oids_ge req hreq
  omega

/-- The running set: who ran before, then the finals that go on. -/
theorem prefill_running : (s1.complete (pairs.map Prod.snd)).runningReqs.Perm
    (s.runningReqs ++ (pairs.map Prod.snd).filter Req.canDecode) := by
  have hnew := prefill_oids hs hb hfst hsampled
  have h := (foldl_mergeReq_perm (pairs.map Prod.snd) hs.oids_nodup
    (by rw [map_oid_sampled hfst hsampled]; exact hb.oids_nodup)).filter Req.canDecode
  have hkeep : s.runningReqs.filter (fun r => r.oid ∉ (pairs.map Prod.snd).map Req.oid) =
      s.runningReqs := List.filter_eq_self.mpr fun r hr => by simpa using hnew r hr
  have hcan : s.runningReqs.filter Req.canDecode = s.runningReqs :=
    List.filter_eq_self.mpr fun r hr => (hs.running_ok r hr).canDecode
  rw [hkeep, List.filter_append, hcan] at h
  have hrun : s1.decodeManager.runningReqs = s.runningReqs := hb.runningReqs_eq
  simpa [complete, runningReqs, DecodeManager.filterReqs, hrun] using h

theorem prefill_seats : s.seats.Perm ((s1.complete (pairs.map Prod.snd)).seats ++
    (finishedIn (pairs.map Prod.snd)).map Req.seat) := by
  have hpending : (s1.complete (pairs.map Prod.snd)).pendingList = s1.pendingList := rfl
  refine List.perm_iff_count.mpr fun a => ?_
  have hqueue := (hb.queue_perm.map PendingReq.seat).count_eq a
  have hrun := ((prefill_running hs hb hfst hsampled).map Req.seat).count_eq a
  have hthree := ((sampled_perm hsampled).map Req.seat).count_eq a
  rw [List.map_append, hb.picked_seats, ← map_seat_sampled hfst hsampled] at hqueue
  simp only [List.map_append, List.count_append] at hqueue hrun hthree
  simp only [seats, hpending, hb.pendingList_eq, List.map_append,
    prefill_chunk_seats hb hfst hsampled, List.count_append]
  omega

/-- Nobody who ran before leaves in a prefill step. -/
theorem prefill_freeSlots : (s1.complete (pairs.map Prod.snd)).freeSlots.Perm
    (s.freeSlots ++ (finishedIn (pairs.map Prod.snd)).map Req.tableIdx) := by
  have hrows := rows_nodup_of_finished hs (prefill_seats hs hb hfst hsampled)
  rw [← hb.freeSlots_eq]
  refine freeSlots_complete_perm s1 (pairs.map Prod.snd) (freedRows_perm ?_
    (List.nodup_append'.mp hrows).2.1 ?_ (prefill_not_chunked hb hfst hsampled))
  · rw [hb.runningReqs_eq]
    exact hs.running_rows_nodup
  · intro r hr hgone
    rw [hb.runningReqs_eq] at hr
    exact absurd (List.mem_map.mpr ⟨r, (prefill_running hs hb hfst hsampled).mem_iff.mpr
      (List.mem_append_left _ hr), rfl⟩) hgone

/-- Who runs after a prefill step. -/
theorem mem_prefill_running {r : Req} (hr : r ∈ (s1.complete (pairs.map Prod.snd)).runningReqs) :
    r ∈ s.runningReqs ∨ ∃ x ∈ pairs, r = x.2 ∧ r.Running := by
  rcases List.mem_append.mp ((prefill_running hs hb hfst hsampled).mem_iff.mp hr) with hr | hr
  · exact Or.inl hr
  · obtain ⟨hr, hcan⟩ := List.mem_filter.mp hr
    obtain ⟨x, hx, rfl⟩ := List.mem_map.mp hr
    exact Or.inr ⟨x, hx, rfl, (hsampled x hx).running hcan⟩

theorem prefill_ok : (s1.complete (pairs.map Prod.snd)).Ok where
  rows_perm := rows_perm_of_finished hs (prefill_seats hs hb hfst hsampled)
    (prefill_freeSlots hs hb hfst hsampled) hb.limits.maxRunningReq_eq
  pending_ok := by
    intro p hp
    have hpending : (s1.complete (pairs.map Prod.snd)).pendingList = s1.pendingList := rfl
    rw [hpending, hb.pendingList_eq] at hp
    rcases List.mem_append.mp hp with hp | hp
    · obtain ⟨x, hx, rfl⟩ := List.mem_map.mp hp
      obtain ⟨hx, hc⟩ := List.mem_filter.mp hx
      exact (hs.pending_ok x.1 (hb.mem_pending hx)).extend (hb.extend x hx) hc
    · exact hs.pending_ok p (hb.queue_perm.mem_iff.mpr (List.mem_append_right _ hp))
  running_ok := by
    intro r hr
    rcases mem_prefill_running hs hb hfst hsampled hr with hr | ⟨x, -, -, hrun⟩
    · exact hs.running_ok r hr
    · exact hrun
  oids_nodup := by
    refine ((prefill_running hs hb hfst hsampled).map Req.oid).nodup_iff.mpr ?_
    rw [List.map_append, List.nodup_append']
    refine ⟨hs.oids_nodup, ?_, ?_⟩
    · refine List.Nodup.sublist (List.filter_sublist.map _) ?_
      rw [map_oid_sampled hfst hsampled]
      exact hb.oids_nodup
    · intro oid h1 h2
      obtain ⟨r, hr, rfl⟩ := List.mem_map.mp h1
      exact prefill_oids hs hb hfst hsampled r hr ((List.filter_sublist.map Req.oid).subset h2)
  oids_lt := by
    intro r hr
    rcases mem_prefill_running hs hb hfst hsampled hr with hr | ⟨x, hx, rfl, -⟩
    · exact lt_of_lt_of_le (hs.oids_lt r hr) hb.nextOid_le
    · rw [(hsampled x hx).oid_eq]
      exact hb.oids_lt x.1 (mem_batch_of_pair hfst hx)

theorem complete_prefill : Stepped s batch pairs (s1.complete (pairs.map Prod.snd)) := by
  obtain ⟨hrows, -, hdisj⟩ := List.nodup_append'.mp (hb.rows_nodup hs)
  exact
    { ok := prefill_ok hs hb hfst hsampled
      limits := ⟨hb.limits.1, hb.limits.2, hb.limits.3, hb.limits.4, hb.limits.5⟩
      seats_perm := prefill_seats hs hb hfst hsampled
      freeSlots_perm := prefill_freeSlots hs hb hfst hsampled
      rows_nodup := hrows
      origin := fun req hreq => Or.inl ⟨hb.phase_eq, hb.exists_pending req hreq⟩
      pending := by
        intro p hp
        have hpending : (s1.complete (pairs.map Prod.snd)).pendingList = s1.pendingList := rfl
        rw [hpending, hb.pendingList_eq] at hp
        rcases List.mem_append.mp hp with hp | hp
        · obtain ⟨x, hx, rfl⟩ := List.mem_map.mp hp
          obtain ⟨hx, hc⟩ := List.mem_filter.mp hx
          have hbatch : x.2 ∈ batch.reqs := by
            rw [hb.reqs_eq]
            exact List.mem_map.mpr ⟨x, hx, rfl⟩
          exact Or.inr ⟨x.1, hb.mem_pending hx, x.2, hbatch, hb.phase_eq, hb.extend x hx, hc, rfl⟩
        · refine Or.inl ⟨hb.queue_perm.mem_iff.mpr (List.mem_append_right _ hp), fun hrow => ?_⟩
          exact hdisj hrow (List.mem_append_left _ (List.mem_map.mpr ⟨p, hp, rfl⟩))
      running := by
        intro r hr
        rcases mem_prefill_running hs hb hfst hsampled hr with hr | ⟨x, hx, rfl, hrun⟩
        · exact Or.inl ⟨hr, fun hrow =>
            hdisj hrow (List.mem_append_right _ (List.mem_map.mpr ⟨r, hr, rfl⟩))⟩
        · exact Or.inr ⟨x, hx, rfl, hrun.not_chunked, hrun.not_aborted⟩ }

end Prefill

/-! ### A decode step -/

section Decode

variable {batch : Batch} {pairs : List (Req × Req)} (hs : s.Ok)
  (hperm : batch.reqs.Perm s.runningReqs) (hfst : pairs.map Prod.fst = batch.reqs)
  (hsampled : ∀ x ∈ pairs, Sampled x.1 x.2)
include hs hperm hfst hsampled

theorem decode_not_chunked : ∀ x ∈ pairs, x.2.chunked = false := by
  intro x hx
  rw [(hsampled x hx).chunked_eq]
  exact (hs.running_ok x.1 (hperm.mem_iff.mp (mem_batch_of_pair hfst hx))).not_chunked

theorem decode_oids_nodup : ((pairs.map Prod.snd).map Req.oid).Nodup := by
  rw [map_oid_sampled hfst hsampled]
  exact (hperm.map Req.oid).nodup_iff.mpr hs.oids_nodup

/-- The running set: those that go on. -/
theorem decode_running : (s.complete (pairs.map Prod.snd)).runningReqs.Perm
    ((pairs.map Prod.snd).filter Req.canDecode) := by
  have h := (foldl_mergeReq_perm (pairs.map Prod.snd) hs.oids_nodup
    (decode_oids_nodup hs hperm hfst hsampled)).filter Req.canDecode
  have hnone : s.runningReqs.filter (fun r => r.oid ∉ (pairs.map Prod.snd).map Req.oid) = [] := by
    refine List.filter_eq_nil_iff.mpr fun r hr => ?_
    rw [map_oid_sampled hfst hsampled]
    simpa using ⟨r, hperm.mem_iff.mpr hr, rfl⟩
  rw [hnone, List.nil_append] at h
  exact h

theorem decode_seats : s.seats.Perm ((s.complete (pairs.map Prod.snd)).seats ++
    (finishedIn (pairs.map Prod.snd)).map Req.seat) := by
  have hpending : (s.complete (pairs.map Prod.snd)).pendingList = s.pendingList := rfl
  have hchunks : (pairs.map Prod.snd).filter (fun r => r.chunked) = [] := by
    refine List.filter_eq_nil_iff.mpr fun r hr => ?_
    obtain ⟨x, hx, rfl⟩ := List.mem_map.mp hr
    simp [decode_not_chunked hs hperm hfst hsampled x hx]
  refine List.perm_iff_count.mpr fun a => ?_
  have hbatch := (hperm.map Req.seat).count_eq a
  have hrun := ((decode_running hs hperm hfst hsampled).map Req.seat).count_eq a
  have hthree := ((sampled_perm hsampled).map Req.seat).count_eq a
  rw [hchunks, List.nil_append, map_seat_sampled hfst hsampled] at hthree
  simp only [List.map_append, List.count_append] at hthree
  simp only [seats, hpending, List.count_append]
  omega

/-- Who leaves the running set has finished. -/
theorem decode_gone {r : Req} (hr : r ∈ s.runningReqs)
    (hgone : r.oid ∉ (s.complete (pairs.map Prod.snd)).runningReqs.map Req.oid) :
    r.tableIdx ∈ (finishedIn (pairs.map Prod.snd)).map Req.tableIdx := by
  obtain ⟨x, hx, rfl⟩ := List.mem_map.mp (hfst.symm ▸ hperm.mem_iff.mpr hr)
  have hx' := hsampled x hx
  have hchunk := decode_not_chunked hs hperm hfst hsampled x hx
  have hmem : x.2 ∈ pairs.map Prod.snd := List.mem_map.mpr ⟨x, hx, rfl⟩
  refine List.mem_map.mpr ⟨x.2, mem_finishedIn.mpr ⟨hmem, hchunk, ?_⟩,
    tableIdx_eq_of_seat_eq hx'.seat_eq⟩
  by_contra hgoing
  have hcan : x.2.canDecode = true :=
    (canDecode_iff (fun hc ha => hx'.going (hx'.chunked_eq ▸ hc) ha)).mpr
      ⟨hchunk, by simpa using hgoing⟩
  refine hgone (List.mem_map.mpr ⟨x.2, ?_, hx'.oid_eq⟩)
  exact (decode_running hs hperm hfst hsampled).mem_iff.mpr (List.mem_filter.mpr ⟨hmem, hcan⟩)

theorem decode_freeSlots : (s.complete (pairs.map Prod.snd)).freeSlots.Perm
    (s.freeSlots ++ (finishedIn (pairs.map Prod.snd)).map Req.tableIdx) := by
  have hrows := rows_nodup_of_finished hs (decode_seats hs hperm hfst hsampled)
  refine freeSlots_complete_perm s (pairs.map Prod.snd) (freedRows_perm hs.running_rows_nodup
    (List.nodup_append'.mp hrows).2.1
    (fun r hr hgone => decode_gone hs hperm hfst hsampled hr hgone) ?_)
  intro r hr _
  obtain ⟨x, hx, rfl⟩ := List.mem_map.mp hr
  exact decode_not_chunked hs hperm hfst hsampled x hx

/-- Who runs after a decode step. -/
theorem mem_decode_running {r : Req} (hr : r ∈ (s.complete (pairs.map Prod.snd)).runningReqs) :
    ∃ x ∈ pairs, r = x.2 ∧ r.Running := by
  obtain ⟨hr, hcan⟩ := List.mem_filter.mp ((decode_running hs hperm hfst hsampled).mem_iff.mp hr)
  obtain ⟨x, hx, rfl⟩ := List.mem_map.mp hr
  exact ⟨x, hx, rfl, (hsampled x hx).running hcan⟩

theorem decode_ok : (s.complete (pairs.map Prod.snd)).Ok where
  rows_perm := rows_perm_of_finished hs (decode_seats hs hperm hfst hsampled)
    (decode_freeSlots hs hperm hfst hsampled) rfl
  pending_ok := hs.pending_ok
  running_ok := by
    intro r hr
    obtain ⟨x, -, -, hrun⟩ := mem_decode_running hs hperm hfst hsampled hr
    exact hrun
  oids_nodup := ((decode_running hs hperm hfst hsampled).map Req.oid).nodup_iff.mpr
    ((decode_oids_nodup hs hperm hfst hsampled).sublist (List.filter_sublist.map _))
  oids_lt := by
    intro r hr
    obtain ⟨x, hx, rfl, -⟩ := mem_decode_running hs hperm hfst hsampled hr
    rw [(hsampled x hx).oid_eq]
    exact hs.oids_lt x.1 (hperm.mem_iff.mp (mem_batch_of_pair hfst hx))

/-- A prompt that waits has none of the rows of the batch. -/
theorem complete_decode (hphase : batch.phase = .decode) :
    Stepped s batch pairs (s.complete (pairs.map Prod.snd)) where
  ok := decode_ok hs hperm hfst hsampled
  limits := ⟨rfl, rfl, rfl, rfl, rfl, rfl⟩
  seats_perm := decode_seats hs hperm hfst hsampled
  freeSlots_perm := decode_freeSlots hs hperm hfst hsampled
  rows_nodup := (hperm.map Req.tableIdx).nodup_iff.mpr hs.running_rows_nodup
  origin := fun req hreq => Or.inr ⟨hphase, hperm.mem_iff.mp hreq⟩
  pending := by
    intro p hp
    refine Or.inl ⟨hp, fun hrow => ?_⟩
    have hn := hs.seat_rows_nodup
    rw [seats, List.map_append, map_row_seat_pending, map_row_seat_running] at hn
    exact (List.nodup_append'.mp hn).2.2 (List.mem_map.mpr ⟨p, hp, rfl⟩)
      ((hperm.map Req.tableIdx).mem_iff.mp hrow)
  running := by
    intro r hr
    obtain ⟨x, hx, rfl, hrun⟩ := mem_decode_running hs hperm hfst hsampled hr
    exact Or.inr ⟨x, hx, rfl, hrun.not_chunked, hrun.not_aborted⟩

end Decode

/-- A step of the scheduler: a batch out, and the batch back as sampled. -/
theorem step_spec {s1 : Scheduler} {batch : Batch} {pairs : List (Req × Req)} (hs : s.Ok)
    (h : s.schedule = some (batch, s1)) (hids : ∀ req ∈ batch.reqs, req.inputIds ≠ [])
    (hfst : pairs.map Prod.fst = batch.reqs) (hsampled : ∀ x ∈ pairs, Sampled x.1 x.2) :
    Stepped s batch pairs (s1.complete (pairs.map Prod.snd)) := by
  obtain ⟨-, ⟨picked, unadmitted, hb⟩ | ⟨hphase, hperm, rfl⟩⟩ := schedule_spec hs h hids
  · exact complete_prefill hs hb hfst hsampled
  · exact complete_decode hs hperm hfst hsampled hphase

end Scheduler

end FreeToken
