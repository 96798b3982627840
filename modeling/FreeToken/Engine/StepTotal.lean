import FreeToken.Engine.Books
import FreeToken.Engine.Columns

/-!
# Steps that come back

A step raises when a slice leaves its row or has nothing to process, and when a commit's
assertions fail. With nonempty prompts whose requests end inside their rows it does neither.
-/

namespace FreeToken

/-- A commit of as many slots as tokens passes the assertion of `set_key_value`. -/
theorem RadixPrefixCache.insertPrefix_isSome {c : RadixPrefixCache} {ids : List Token}
    {slots : List Slot} (h : slots.length = ids.length) :
    ∃ res c', c.insertPrefix ids slots = some (res, c') := by
  rw [insertPrefix]
  dsimp only
  split
  · exact ⟨_, _, rfl⟩
  · rw [if_pos (by simp [h])]
    exact ⟨_, _, rfl⟩

/-- Of nonempty prompts, every request of a batch extends one or is running. -/
theorem Scheduler.batch_source {s s1 : Scheduler} {batch : Batch} (hok : s.Ok)
    (hne : ∀ p ∈ s.pendingList, p.inputIds ≠ []) (h : s.schedule = some (batch, s1)) {req : Req}
    (hreq : req ∈ batch.reqs) :
    (batch.phase = .decode ∧ req ∈ s.runningReqs) ∨
      (batch.phase = .prefill ∧ ∃ p ∈ s.pendingList, Extends s.maxExtendTokens p req) := by
  rcases Scheduler.batch_origin hok h hreq with hdecode | ⟨hphase, hnil | hext⟩
  · exact .inl hdecode
  · obtain ⟨-, hreqs, -⟩ := Scheduler.schedule_prefill h hphase
    rw [hreqs] at hreq
    exact absurd hnil (admitLoop_nonempty _ _ _ (fun p hp => ⟨hok.pending_ok p hp, hne p hp⟩) req hreq)
  · exact .inr ⟨hphase, hext⟩

namespace Engine

variable {e e' : Engine} {t : Transcript} {orphans hs : List RadixCacheHandle}

/-! ### Commits -/

theorem length_rowSlice (e : Engine) (row n : Nat) (h : n ≤ e.config.maxSeqLen) :
    (e.rowSlice row 0 n).length = n := by
  simp [rowSlice, h]

/-- A finished request whose tokens fit its row is committed. -/
theorem commitOne_isSome {req : Req} (hc : e.CacheOk (req.cacheHandle.toList ++ hs))
    (hlen : (e.history req.tableIdx).length ≤ e.config.maxSeqLen) :
    ∃ e', e.commitOne req = some e' := by
  cases hcm : e.cacheManager with
  | none => exact ⟨e, commitOne_off hcm⟩
  | some c =>
      obtain ⟨c1, -, -, heq⟩ := commitOne_cases hcm (hc c hcm).1
      rw [heq, commitIds]
      split
      · exact ⟨_, rfl⟩
      · have hrow : ((e.forgot req.tableIdx).rowSlice req.tableIdx 0
            (e.history req.tableIdx).length).length = (e.history req.tableIdx).length :=
          length_rowSlice (e.forgot req.tableIdx) _ _ hlen
        obtain ⟨res, c2, hinsert⟩ := RadixPrefixCache.insertPrefix_isSome (c := c1) hrow
        rw [hinsert]
        exact ⟨_, rfl⟩

theorem commitAll_isSome : ∀ {reqs : List Req} {e : Engine},
    e.CacheOk (reqs.filterMap Req.cacheHandle ++ hs) →
    (∀ x ∈ e.tree.entries, x.1.length ≤ e.config.maxSeqLen) →
    (reqs.map Req.tableIdx).Nodup →
    (∀ req ∈ reqs, (e.history req.tableIdx).length ≤ e.config.maxSeqLen) →
    ∃ e', e.commitAll reqs = some e'
  | [], e, _, _, _, _ => ⟨e, rfl⟩
  | req :: reqs, e, hc, hstored, hrows, hlen => by
      have hcons : (req :: reqs).filterMap Req.cacheHandle ++ hs =
          req.cacheHandle.toList ++ (reqs.filterMap Req.cacheHandle ++ hs) := by
        cases hh : req.cacheHandle <;> simp [hh]
      rw [hcons] at hc
      obtain ⟨hrow, hrows⟩ := List.nodup_cons.mp hrows
      obtain ⟨e1, h1⟩ := commitOne_isSome hc (hlen req List.mem_cons_self)
      obtain ⟨hc1, hstored1, -⟩ := commitOne_keeps hc hstored h1
      rw [commitAll, h1]
      refine commitAll_isSome hc1 hstored1 hrows fun r hr => ?_
      have hne : r.tableIdx ≠ req.tableIdx := fun heq =>
        hrow (List.mem_map.mpr ⟨r, hr, heq⟩)
      rw [history, (commitOne_others h1 hne).1, (commitOne_frame h1).1.config_eq]
      exact hlen r (List.mem_cons_of_mem req hr)

/-! ### Slices -/

/-- The live requests have something to process, and end inside their rows. -/
structure RowsFit (e : Engine) : Prop where
  prompts : ∀ p ∈ e.scheduler.pendingList, p.inputIds ≠ []
  pending_le : ∀ p ∈ e.scheduler.pendingList, p.inputLen + 1 ≤ e.config.maxSeqLen
  running_le : ∀ r ∈ e.scheduler.runningReqs, 0 < r.deviceLen ∧ r.maxDeviceLen ≤ e.config.maxSeqLen

theorem slicesOf_isSome {phase : Phase} {P : Slice → Prop} : ∀ {reqs : List Req},
    (∀ req ∈ reqs, ∃ s, req.slice phase = some s ∧ P s) →
    ∃ slices, slicesOf phase reqs = some slices ∧ ∀ s ∈ slices, P s
  | [], _ => ⟨[], rfl, by simp⟩
  | req :: reqs, h => by
      obtain ⟨s, hs, hPs⟩ := h req List.mem_cons_self
      obtain ⟨slices, hslices, hP⟩ :=
        slicesOf_isSome fun r hr => h r (List.mem_cons_of_mem req hr)
      refine ⟨s :: slices, by rw [slicesOf, hs, hslices], ?_⟩
      rintro s' (_ | ⟨_, hs'⟩)
      · exact hPs
      · exact hP s' hs'

theorem RowsFit.slice (hfit : RowsFit e) (hb : Books e t orphans) {batch : Batch} {s1 : Scheduler}
    (h : e.scheduler.schedule = some (batch, s1)) {req : Req} (hreq : req ∈ batch.reqs) :
    ∃ s, req.slice batch.phase = some s ∧ s.Runs e.config.maxSeqLen := by
  rcases Scheduler.batch_source hb.sched hfit.prompts h hreq with ⟨hphase, hrun⟩ | ⟨hphase, p, hp, hext⟩
  · obtain ⟨hpos, hle⟩ := hfit.running_le req hrun
    have hlt := (hb.sched.running_ok req hrun).lt_maxDeviceLen
    have hne : t req.tableIdx ≠ [] := by
      intro hnil
      have hlen := hb.recorded.length_eq req hrun
      rw [hnil, List.length_nil] at hlen
      omega
    rw [hphase, Req.slice, hb.recorded.last_eq req hrun, List.getLast?_eq_getLast_of_ne_nil hne]
    exact ⟨_, rfl, List.cons_ne_nil _ _, by simp only [List.length_singleton]; omega⟩
  · rw [hphase, slice_prefill hext]
    have hstart := hext.processed_nonneg
    have hlt := hext.processed_lt
    have hle := hext.deviceLen_le
    have hfits := hfit.pending_le p hp
    have hlen : (List.drop p.processed.toNat (p.inputIds.take req.deviceLen)).length =
        req.deviceLen - p.processed.toNat := by
      rw [List.length_drop, List.length_take]
      exact congrArg (· - p.processed.toNat) (Nat.min_eq_left hle)
    refine ⟨_, rfl, ?_, ?_⟩
    · rw [ne_eq, ← List.length_eq_zero_iff]
      simp only [hlen]
      omega
    · simp only [hlen]
      omega

/-! ### The step -/

/-- The tokens a finished request commits end inside its row. -/
theorem RowsFit.history_le (hfit : RowsFit e) (hb : Books e t orphans)
    (hsome : e.cacheManager.isSome = true) {batch : Batch} {s1 : Scheduler}
    (h : e.scheduler.schedule = some (batch, s1)) {rounds : List (Token × Req)}
    (hrounds : rounds.map Prod.snd = batch.reqs) (hrows : (batch.reqs.map Req.tableIdx).Nodup)
    {x : Token × Req} (hx : x ∈ rounds) (hchunked : x.2.chunked = false) :
    ((({ e with scheduler := s1 } : Engine).sampleAll batch.phase rounds).history
      x.2.tableIdx).length ≤ e.config.maxSeqLen := by
  have hmem : x.2 ∈ batch.reqs := hrounds ▸ List.mem_map_of_mem hx
  have hn : (rounds.map fun x => x.2.tableIdx).Nodup := by
    rw [← hrounds, List.map_map] at hrows
    exact hrows
  have hfull := @sampleAll_fullIds { e with scheduler := s1 } batch.phase x t hchunked rounds hsome
    hn hx
  rcases Scheduler.batch_source hb.sched hfit.prompts h hmem with
    ⟨hphase, hrun⟩ | ⟨hphase, p, hp, hext⟩
  · rw [history, hfull fun _ => hb.recorded.fullIds_eq hsome _ hrun, hphase]
    have hlt := (hb.sched.running_ok _ hrun).lt_maxDeviceLen
    have hle := (hfit.running_le _ hrun).2
    simp only [if_true, Option.getD_some, List.length_append, List.length_singleton,
      hb.recorded.length_eq _ hrun]
    omega
  · have hdecode : batch.phase ≠ .decode := by
      rw [hphase]
      exact Phase.noConfusion
    rw [history, hfull fun heq => absurd heq hdecode, if_neg hdecode, hext.inputIds_eq]
    have hle := hext.deviceLen_le
    have hfits := hfit.pending_le p hp
    simp only [Option.getD_some, List.length_append, List.length_singleton, List.length_take]
    omega

/-- The commits of a batch whose requests fit their rows. -/
theorem RowsFit.commits (hfit : RowsFit e) (hb : Books e t orphans) {batch : Batch} {s1 s' : Scheduler}
    (h : e.scheduler.schedule = some (batch, s1)) {rounds : List (Token × Req)}
    (hrounds : rounds.map Prod.snd = batch.reqs)
    (hstep : Scheduler.Stepped e.scheduler batch (rounds.map (e.roundOf batch.phase)) s') :
    ∃ e', (({ e with scheduler := s1 } : Engine).sampleAll batch.phase rounds).commitAll
      (finishedOf ((rounds.map (e.roundOf batch.phase)).map Prod.snd)) = some e' := by
  have hf := sampleAll_frame rounds { e with scheduler := s1 } batch.phase
  have htree := tree_congr (e := e) hf.cacheManager_eq
  by_cases hsome : e.cacheManager.isSome = true
  · generalize hfinished : finishedOf ((rounds.map (e.roundOf batch.phase)).map Prod.snd) = finished
    have hseats : e.scheduler.seats.Perm (s'.seats ++ finished.map Req.seat) :=
      hfinished ▸ hstep.seats_perm
    have hhandles := hseats.filterMap Seat.handle
    rw [List.filterMap_append, List.filterMap_map] at hhandles
    have hperm : (e.scheduler.handles ++ orphans).Perm
        (finished.filterMap Req.cacheHandle ++ (s'.handles ++ orphans)) := by
      rw [← List.append_assoc]
      exact (hhandles.trans List.perm_append_comm).append_right orphans
    have hrows := (hseats.map Seat.row).nodup_iff.mp hb.sched.seat_rows_nodup
    rw [List.map_append, List.map_map] at hrows
    refine commitAll_isSome ((hb.cacheOk.perm hperm).congr hf.cacheManager_eq hf.config_eq) ?_
      (List.nodup_append'.mp hrows).2.1 fun f hmem => ?_
    · rw [htree, hf.config_eq]
      exact hb.stored_le
    · rw [← hfinished, finishedOf, List.mem_filter] at hmem
      obtain ⟨y, hy, rfl⟩ := List.mem_map.mp hmem.1
      obtain ⟨x, hx, rfl⟩ := List.mem_map.mp hy
      have hround := rounded e batch.phase x
      have hrow : (e.roundOf batch.phase x).2.tableIdx = x.2.tableIdx :=
        congrArg Seat.row hround.seat_eq
      rw [hrow, hf.config_eq]
      refine hfit.history_le hb hsome h hrounds hstep.rows_nodup hx ?_
      rw [← hround.chunked_eq]
      simpa using (Bool.and_eq_true_iff.mp hmem.2).1
  · exact ⟨_, commitAll_off (hf.cacheManager_eq.trans (by simpa using hsome))⟩

/-- A step over requests that fit their rows comes back, whatever it samples. -/
theorem RowsFit.step_returns (hfit : RowsFit e) (hb : Books e t orphans) (sampled : Nat → Token) :
    ∃ out e', e.step sampled = .ok (out, e') := by
  cases hsched : e.scheduler.schedule with
  | none => exact ⟨{}, e, by rw [step, hsched]⟩
  | some x =>
      obtain ⟨batch, s1⟩ := x
      obtain ⟨slices, hslices, hruns⟩ := slicesOf_isSome fun req hreq => hfit.slice hb hsched hreq
      have hids : ∀ req ∈ batch.reqs, req.inputIds ≠ [] := by
        intro req hreq
        obtain ⟨s, hs, hs'⟩ := hfit.slice hb hsched hreq
        exact slice_inputIds_ne_nil hs hs'.1
      -- the rounds of the sampling loop, and the batch as the scheduler gets it back
      have hrounds : (((List.range batch.reqs.length).map sampled).zip batch.reqs).map Prod.snd =
          batch.reqs := List.map_snd_zip (by simp)
      have hsampled : ∀ x ∈ (((List.range batch.reqs.length).map sampled).zip batch.reqs).map
          (e.roundOf batch.phase), Scheduler.Sampled x.1 x.2 := by
        intro x hx
        obtain ⟨y, -, rfl⟩ := List.mem_map.mp hx
        exact (rounded e batch.phase y).toSampled
      obtain ⟨e', he'⟩ := hfit.commits hb hsched hrounds
        (Scheduler.step_spec hb.sched hsched hids (by rw [List.map_map]; exact hrounds) hsampled)
      rw [List.map_map] at he'
      have hne : ¬ ¬ ∀ s ∈ slices, s.tokens ≠ [] := not_not.mpr fun s hs => (hruns s hs).1
      have hin : ¬ ¬ ∀ s ∈ slices, s.Runs e.config.maxSeqLen := not_not.mpr hruns
      rw [step, hsched]
      dsimp only
      rw [hslices]
      dsimp only
      rw [if_neg hne, if_neg hin]
      exact ⟨_, _, by erw [he']⟩

end Engine

end FreeToken
