import FreeToken.Engine.Restores

/-!
# The state a request starts from

A slot comes back from the free list with the state that its last holder left: `clear_slots`
and `reset` have no caller. So a request without a snapshot starts right when the slot it is
given holds the fresh state and nothing of its prompt is skipped, and one with a snapshot
when the snapshot is still what its key says. The states that the snapshots name, or a queued
request waits for, are `frozen`: no step writes them.
-/

namespace FreeToken

namespace LinearModel

variable {ι σ : Type} (m : LinearModel ι σ)

theorem inputsFrom_append (past xs ys : List Token) :
    m.inputsFrom past (xs ++ ys) = m.inputsFrom past xs ++ m.inputsFrom (past ++ xs) ys := by
  rw [inputsFrom, List.length_append, List.range_add, List.map_append, List.map_map]
  congr 1
  · refine List.map_congr_left fun j hj => ?_
    rw [List.take_append_of_le_length (List.mem_range.mp hj)]
  · refine List.map_congr_left fun j _ => ?_
    dsimp only [Function.comp_apply]
    rw [Nat.add_assoc, List.take_length_add_append, List.append_assoc]

/-- The zero state after the tokens of a prefix. -/
def stateAfter (ids : List Token) : σ := m.extend [] m.fresh ids

theorem stateAfter_nil : m.stateAfter [] = m.fresh := m.advance_nil m.fresh

theorem extend_stateAfter (past toks : List Token) :
    m.extend past (m.stateAfter past) toks = m.stateAfter (past ++ toks) := by
  rw [stateAfter, stateAfter, extend, extend, extend, inputsFrom_append, m.advance_append,
    List.nil_append]

end LinearModel

namespace PromptRun

variable {ι σ : Type}

/-- What is claimed of a prompt: its first chunk read the state after its cached prefix. -/
def StartsRight (m : LinearModel ι σ) (pr : PromptRun σ) : Prop :=
  ∀ c ∈ pr.chunks.head?, c.before = m.stateAfter (pr.inputIds.take pr.cachedLen)

/-- No snapshot is restored more than once. -/
def AtOnce (budget : Nat) (pr : PromptRun σ) : Prop :=
  pr.restoreSrc = none ∨ pr.inputIds.length - pr.cachedLen ≤ budget

instance (budget : Nat) (pr : PromptRun σ) : Decidable (pr.AtOnce budget) :=
  inferInstanceAs (Decidable (_ ∨ _))

theorem StartsRight.of_nil {m : LinearModel ι σ} {pr : PromptRun σ} (h : pr.chunks = []) :
    pr.StartsRight m := by
  rw [StartsRight, h]
  exact fun c hc => absurd hc (Option.not_mem_none c)

end PromptRun

namespace Engine

variable {e e' : Engine} {t : Transcript} {orphans : List RadixCacheHandle} {kept : List Slot}
  {config : EngineConfig} {ι σ : Type} {m : LinearModel ι σ} {g : StateTrace σ}

/-! ### What a step writes -/

theorem see_states {sampled : Nat → Token} {out : StepOutput} :
    (StateTrace.see m g e (.step sampled) (.stepped out)).states =
      copyStates out.snapshots (forwarded m g.past out.jobs (out.restored g.states)) := by
  simp only [StateTrace.see]
  split <;> rfl

/-- What the states need to know of a step: where it copies, and that the frozen states are
neither its requests' nor written. -/
structure StateStep (frozen : List Slot) (e : Engine) (out : StepOutput) : Prop where
  apart : e.StatesApart
  copies : out.restores = out.batch.reqs.filterMap restoreOf
  targets : ∀ seat ∈ e.scheduler.seats, seat.stateIdx ∉ out.snapshots.map Prod.snd
  frozen_targets : ∀ s ∈ frozen, s ∉ out.snapshots.map Prod.snd
  frozen_seats : ∀ s ∈ frozen, ∀ seat ∈ e.scheduler.seats, seat.stateIdx ≠ s
  cleared : ∀ x ∈ StepRun.rounds out, x.2.chunked = false →
    (e.roundOf out.batch.phase x).2.mambaRestoreSrc = none

/-- The restore loop writes states of the batch's requests, each once. -/
theorem restores_sublist : ∀ reqs : List Req,
    (((reqs.filterMap restoreOf).map Prod.snd).map Prod.snd).Sublist
      (reqs.map fun r => r.seat.stateIdx)
  | [] => .slnil
  | r :: reqs => by
      have ih := restores_sublist reqs
      rw [List.filterMap_cons, List.map_cons]
      cases hr : restoreOf r with
      | none => exact ih.cons _
      | some c =>
          dsimp only
          rw [List.map_cons, List.map_cons, restoreOf_target hr]
          exact ih.cons_cons _

namespace StepRun

variable {sampled : Nat → Token} {out : StepOutput} {s1 : Scheduler} {e2 : Engine}
  {frozen : List Slot}

variable (h : StepRun e sampled out e' s1 e2)
include h

omit h in
theorem restored_of_ne (hs : StateStep frozen e out) {states : Nat → σ} {i : Nat}
    (hi : ∀ r ∈ out.batch.reqs, r.mambaRestoreSrc ≠ none → r.seat.stateIdx ≠ i) :
    out.restored states i = states i := by
  refine copyStates_of_notMem fun hmem => ?_
  rw [hs.copies, List.map_map] at hmem
  obtain ⟨c, hc, hidx⟩ := List.mem_map.mp hmem
  obtain ⟨r, hr, hrc⟩ := List.mem_filterMap.mp hc
  refine hi r hr (fun hnone => ?_) ((restoreOf_target hrc).symm.trans hidx)
  rw [restoreOf, hnone] at hrc
  cases hrc

/-- The state a request of the batch is forwarded from: its snapshot, or its own. -/
theorem restored_of_mem (hok : e.scheduler.Ok) (hs : StateStep frozen e out) {states : Nat → σ}
    {req : Req} (hreq : req ∈ out.batch.reqs)
    (hsrc : ∀ src ∈ req.mambaRestoreSrc, src ∈ frozen) :
    out.restored states req.seat.stateIdx =
      states (req.mambaRestoreSrc.getD req.seat.stateIdx) := by
  have hn := h.reqs_idx_nodup hok hs.apart
  cases hcase : req.mambaRestoreSrc with
  | none =>
      refine restored_of_ne hs fun r hr hne hidx => hne ?_
      rw [List.inj_on_of_nodup_map hn hr hreq hidx, hcase]
  | some src =>
      have htargets := restores_sublist out.batch.reqs
      rw [← hs.copies] at htargets
      have hmem : (src, req.seat.stateIdx) ∈ out.restores.map Prod.snd := by
        rw [hs.copies]
        refine List.mem_map.mpr ⟨(req.uid, src, req.seat.stateIdx), ?_, rfl⟩
        exact List.mem_filterMap.mpr ⟨req, hreq, by rw [restoreOf, hcase]; rfl⟩
      refine copyStates_of_mem (c := (src, req.seat.stateIdx)) ?_ ?_ hmem
      · exact hn.sublist htargets
      · intro hidx
        obtain ⟨r, hr, heq⟩ := List.mem_map.mp (htargets.subset hidx)
        exact hs.frozen_seats src (hsrc src hcase) r.seat (h.seat_mem hok hr) heq

/-- What belongs to no request of the batch, and is no snapshot's target, stays. -/
theorem states_of_notMem (hs : StateStep frozen e out) {i : Nat}
    (hi : ∀ r ∈ out.batch.reqs, r.seat.stateIdx ≠ i) (ht : i ∉ out.snapshots.map Prod.snd) :
    (StateTrace.see m g e (.step sampled) (.stepped out)).states i = g.states i := by
  rw [see_states, copyStates_of_notMem ht, forwarded, Sweep.sweep_of_notMem]
  · exact restored_of_ne hs fun r hr _ => hi r hr
  · intro hmem
    obtain ⟨j, hj, hidx⟩ := List.mem_map.mp hmem
    exact hi j.1 (h.mem_jobs hj).1 hidx

theorem states_frozen (hok : e.scheduler.Ok) (hs : StateStep frozen e out) {s : Slot}
    (hfrozen : s ∈ frozen) :
    (StateTrace.see m g e (.step sampled) (.stepped out)).states s = g.states s :=
  h.states_of_notMem hs (fun r hr => hs.frozen_seats s hfrozen r.seat (h.seat_mem hok hr))
    (hs.frozen_targets s hfrozen)

/-- A live request outside the batch keeps its state and its history. -/
theorem kept_outside (hs : StateStep frozen e out) {seat : Seat}
    (hseat : seat ∈ e.scheduler.seats) (hrow : seat.row ∉ out.batch.reqs.map Req.tableIdx)
    (hok : e.scheduler.Ok) :
    (StateTrace.see m g e (.step sampled) (.stepped out)).states seat.stateIdx =
        g.states seat.stateIdx ∧
      (StateTrace.see m g e (.step sampled) (.stepped out)).past seat.row = g.past seat.row := by
  constructor
  · refine h.states_of_notMem hs (fun r hr hidx => hrow ?_) (hs.targets seat hseat)
    rw [← List.inj_on_of_nodup_map hs.apart (h.seat_mem hok hr) hseat hidx]
    exact List.mem_map_of_mem hr
  · rw [see_past]
    refine g.past.see_of_notMem fun hmem => hrow ?_
    obtain ⟨s, hs, heq⟩ := List.mem_map.mp hmem
    obtain ⟨x, hx, hslice⟩ := h.exists_round hs
    rw [← h.map_snd_rounds, ← heq]
    refine List.mem_map.mpr ⟨x.2, List.mem_map_of_mem hx, ?_⟩
    cases hphase : out.batch.phase <;> rw [hphase] at hslice <;>
      simp only [Req.slice, Option.map_eq_some_iff] at hslice <;>
      obtain ⟨_, _, hslice⟩ := hslice <;> rw [← hslice]

/-- A request that is forwarded from the state after its history is left with the state after
its new history. -/
theorem states_of_mem (hb : Books e t orphans) (hstep : e.step sampled = .ok (out, e'))
    (hs : StateStep frozen e out) {j : Req × Slice} (hj : j ∈ out.jobs)
    (hbefore : out.restored g.states j.1.seat.stateIdx = m.stateAfter (g.past j.1.tableIdx)) :
    (StateTrace.see m g e (.step sampled) (.stepped out)).states j.1.seat.stateIdx =
      m.stateAfter ((StateTrace.see m g e (.step sampled) (.stepped out)).past j.1.tableIdx) := by
  obtain ⟨hreq, hslice, -, hrow⟩ := h.mem_jobs hj
  have hpast : g.past.see lastOf Slice.tokens e (.step sampled) (.stepped out) j.1.tableIdx =
      g.past j.1.tableIdx ++ j.2.tokens := by
    rw [← hrow]
    exact g.past.see_of_mem (hb.slices hstep).1 hslice
  rw [see_states, copyStates_of_notMem (hs.targets _ (h.seat_mem hb.sched hreq)),
    h.forwarded_of_mem m hb.sched hs.apart hj, hbefore, m.extend_stateAfter, see_past, hpast]

end StepRun

/-! ### The invariant -/

/-- A queued request: its first chunk was right, the state that nobody restores is, and so is
the snapshot that it waits for. -/
structure Poised (m : LinearModel ι σ) (frozen : List Slot) (g : StateTrace σ) (p : PendingReq) :
    Prop where
  first : (g.prompts p.tableIdx).StartsRight m
  ready : p.mambaRestoreSrc = none →
    g.states p.seat.stateIdx = m.stateAfter (g.past p.tableIdx)
  source : p.chunkedReq = none → ∀ src ∈ p.mambaRestoreSrc,
    src ∈ frozen ∧ g.states src = m.stateAfter (g.past p.tableIdx)

theorem Poised.congr {frozen : List Slot} {g' : StateTrace σ} {p : PendingReq}
    (h : Poised m frozen g p) (hstates : g'.states = g.states)
    (hprompts : g'.prompts p.tableIdx = g.prompts p.tableIdx)
    (hpast : g'.past p.tableIdx = g.past p.tableIdx) : Poised m frozen g' p := by
  constructor
  · rw [hprompts]
    exact h.first
  · rw [hstates, hpast]
    exact h.ready
  · rw [hstates, hpast]
    exact h.source

/-- Whatever may be right is: the queued requests, the running ones whose prompts were restored
at once, and what the snapshots record. -/
structure Starts (m : LinearModel ι σ) (budget : Nat) (frozen : List Slot) (g : StateTrace σ)
    (e : Engine) : Prop extends Restores m budget g e where
  poised : ∀ p ∈ e.scheduler.pendingList, Poised m frozen g p
  cleared : ∀ r ∈ e.scheduler.runningReqs, r.mambaRestoreSrc = none
  going : ∀ r ∈ e.scheduler.runningReqs, (g.prompts r.tableIdx).AtOnce budget →
    g.states r.seat.stateIdx = m.stateAfter (g.past r.tableIdx)
  recorded : ∀ x ∈ e.mambaAnchorSnapshots, x.2 ∈ frozen ∧ g.states x.2 = m.stateAfter x.1
  started : ∀ pr ∈ g.log, pr.StartsRight m

namespace Starts

variable {budget : Nat} {frozen frozen' : List Slot} {sampled : Nat → Token} {out : StepOutput}
  {s1 : Scheduler} {e2 : Engine}

theorem congr (hr : Starts m budget frozen g e) {g' : StateTrace σ}
    (hstates : g'.states = g.states) (hpast : g'.past = g.past) (hprompts : g'.prompts = g.prompts)
    (hlog : g'.log = g.log) : Starts m budget frozen g' e := by
  cases g
  cases g'
  dsimp only at hstates hpast hprompts hlog
  subst hstates hpast hprompts hlog
  exact hr

/-- The state that a chunk reads, unless it restores again. -/
theorem before_chunk (hr : Starts m budget frozen g e) (hb : Books e t orphans)
    (h : StepRun e sampled out e' s1 e2) (hs : StateStep frozen e out) {p : PendingReq}
    (hp : p ∈ e.scheduler.pendingList) {j : Req × Slice} (hj : j ∈ out.jobs)
    (hext : Extends budget p j.1) (honce : p.mambaRestoreSrc = none ∨ p.chunkedReq = none) :
    out.restored g.states j.1.seat.stateIdx = m.stateAfter (g.past j.1.tableIdx) := by
  have hrow : j.1.tableIdx = p.tableIdx := congrArg Seat.row hext.seat_eq
  have hreq := (h.mem_jobs hj).1
  cases hsrc : p.mambaRestoreSrc with
  | none =>
      have hnone : j.1.mambaRestoreSrc = none := hext.restoreSrc_eq.trans hsrc
      rw [h.restored_of_mem hb.sched hs hreq (by rw [hnone]; simp), hnone, hext.seat_eq, hrow]
      exact (hr.poised p hp).ready hsrc
  | some src =>
      have hsome : j.1.mambaRestoreSrc = some src := hext.restoreSrc_eq.trans hsrc
      have hfresh : p.chunkedReq = none := honce.resolve_left (by rw [hsrc]; simp)
      obtain ⟨hfrozen, hstate⟩ := (hr.poised p hp).source hfresh src hsrc
      have hall : ∀ s ∈ j.1.mambaRestoreSrc, s ∈ frozen := by
        rw [hsome]
        rintro s ⟨⟩
        exact hfrozen
      rw [h.restored_of_mem hb.sched hs hreq hall, hsome, hrow]
      exact hstate

/-- The record of a chunk: its head is the first chunk's. -/
theorem record_starts (hr : Starts m budget frozen g e) (hb : Books e t orphans)
    (hpast : g.past.Tokens e t) (h : StepRun e sampled out e' s1 e2)
    (hs : StateStep frozen e out) {p : PendingReq} (hp : p ∈ e.scheduler.pendingList)
    {j : Req × Slice} (hj : j ∈ out.jobs) (hext : Extends budget p j.1) :
    (out.record m g j).StartsRight m := by
  have hrow : j.1.tableIdx = p.tableIdx := congrArg Seat.row hext.seat_eq
  have hw := hr.waits p hp
  have hfirst := (hr.poised p hp).first
  intro c hc
  simp only [StepOutput.record] at hc ⊢
  rw [hrow] at hc ⊢
  cases hchunks : (g.prompts p.tableIdx).chunks with
  | cons first rest =>
      rw [hchunks] at hc
      exact hfirst c (by rw [hchunks]; exact hc)
  | nil =>
      rw [hchunks] at hc
      obtain rfl := Option.some.inj hc
      have hnone := hw.chunks_nil.mp hchunks
      have hbefore := hr.before_chunk hb h hs hp hj hext (Or.inr hnone)
      have hids : g.past p.tableIdx = p.inputIds.take p.processed.toNat :=
        hpast p.live (mem_lives_of_pending hp)
      have hstart := Waits_cachedLen hw hext hnone
      rw [hrow, hids, hstart, Int.toNat_natCast, ← hw.inputIds_eq] at hbefore
      exact hbefore

end Starts

namespace StepRun

variable {sampled : Nat → Token} {out : StepOutput} {s1 : Scheduler} {e2 : Engine}

variable (h : StepRun e sampled out e' s1 e2)
include h

theorem exists_job {req : Req} (hreq : req ∈ out.batch.reqs) : ∃ s, (req, s) ∈ out.jobs := by
  rw [← h.map_fst_jobs] at hreq
  obtain ⟨j, hj, rfl⟩ := List.mem_map.mp hreq
  exact ⟨j.2, hj⟩

/-- The record of a row outside the batch stays. -/
theorem prompts_outside {row : Nat} (hrow : row ∉ out.batch.reqs.map Req.tableIdx) :
    (StateTrace.see m g e (.step sampled) (.stepped out)).prompts row = g.prompts row :=
  see_prompts_of_notMem fun j hj heq =>
    hrow (List.mem_map.mpr ⟨j.1, (h.mem_jobs hj).1, heq⟩)

end StepRun

namespace Starts

variable {budget : Nat} {frozen frozen' : List Slot} {sampled : Nat → Token} {out : StepOutput}
  {s1 : Scheduler} {e2 : Engine}

section Step

variable (hr : Starts m e.scheduler.maxExtendTokens frozen g e) (hb : Books e t orphans)
  (h : StepRun e sampled out e' s1 e2) (hs : StateStep frozen e out)
include hr hb h hs

theorem first_step (hpast : g.past.Tokens e t) {p : PendingReq}
    (hp : p ∈ e'.scheduler.pendingList) :
    ((StateTrace.see m g e (.step sampled) (.stepped out)).prompts p.tableIdx).StartsRight m := by
  rcases (h.stepped hb.sched).pending p hp with
    ⟨hp, hrow⟩ | ⟨p0, hp0, req, hreq, hphase, hext, -, rfl⟩
  · rw [h.prompts_outside hrow]
    exact (hr.poised p hp).first
  · obtain ⟨s, hj⟩ := h.exists_job hreq
    have hrow : req.tableIdx = p0.tableIdx := congrArg Seat.row hext.seat_eq
    have hsame : (StateTrace.see m g e (.step sampled) (.stepped out)).prompts req.tableIdx =
        out.record m g (req, s) := see_prompts_of_mem hphase (h.jobs_rows_nodup hb.sched) hj
    dsimp only
    rw [← hrow, hsame]
    exact hr.record_starts hb hpast h hs hp0 hj hext

theorem ready_step (hstep : e.step sampled = .ok (out, e')) {p : PendingReq}
    (hp : p ∈ e'.scheduler.pendingList) (hsrc : p.mambaRestoreSrc = none) :
    (StateTrace.see m g e (.step sampled) (.stepped out)).states p.seat.stateIdx =
      m.stateAfter ((StateTrace.see m g e (.step sampled) (.stepped out)).past p.tableIdx) := by
  rcases (h.stepped hb.sched).pending p hp with
    ⟨hp, hrow⟩ | ⟨p0, hp0, req, hreq, -, hext, -, rfl⟩
  · obtain ⟨hstate, hids⟩ := h.kept_outside (m := m) (g := g) hs
      (List.mem_append_left _ (List.mem_map_of_mem hp)) hrow hb.sched
    rw [hstate]
    exact ((hr.poised p hp).ready hsrc).trans (congrArg m.stateAfter hids.symm)
  · obtain ⟨s, hj⟩ := h.exists_job hreq
    have hbefore := hr.before_chunk hb h hs hp0 hj hext (Or.inl hsrc)
    have hafter := h.states_of_mem hb hstep hs hj hbefore
    have hseat : req.seat = p0.seat := hext.seat_eq
    dsimp only at hafter
    rw [show req.tableIdx = req.seat.row from rfl, hseat] at hafter
    exact hafter

theorem source_step (hwaited : ∀ p ∈ e.scheduler.pendingList, p.chunkedReq = none →
      ∀ src ∈ p.mambaRestoreSrc, src ∈ frozen → src ∈ frozen') {p : PendingReq}
    (hp : p ∈ e'.scheduler.pendingList) (hfresh : p.chunkedReq = none) {src : Slot}
    (hsrc : src ∈ p.mambaRestoreSrc) : src ∈ frozen' ∧
      (StateTrace.see m g e (.step sampled) (.stepped out)).states src =
        m.stateAfter ((StateTrace.see m g e (.step sampled) (.stepped out)).past p.tableIdx) := by
  rcases (h.stepped hb.sched).pending p hp with ⟨hp, hrow⟩ | ⟨p0, -, req, -, -, -, -, rfl⟩
  · obtain ⟨hfrozen, hstate⟩ := (hr.poised p hp).source hfresh src hsrc
    have hids := (h.kept_outside (m := m) (g := g) hs
      (List.mem_append_left _ (List.mem_map_of_mem hp)) hrow hb.sched).2
    refine ⟨hwaited p hp hfresh src hsrc hfrozen, ?_⟩
    rw [h.states_frozen hb.sched hs hfrozen, hstate]
    exact congrArg m.stateAfter hids.symm
  · cases hfresh

/-- A request is forwarded from the state after its history, if that of its prompt was. -/
theorem before_going {j : Req × Slice} (hj : j ∈ out.jobs)
    (honce : ((StateTrace.see m g e (.step sampled) (.stepped out)).prompts
      j.1.tableIdx).AtOnce e.scheduler.maxExtendTokens) :
    out.restored g.states j.1.seat.stateIdx = m.stateAfter (g.past j.1.tableIdx) := by
  have hreq := (h.mem_jobs hj).1
  rcases (h.stepped hb.sched).origin j.1 hreq with ⟨hphase, p, hp, hext⟩ | ⟨hphase, hrun⟩
  · -- a prompt that restored and fits is at its first chunk
    have hw := hr.waits p hp
    have hrow : j.1.tableIdx = p.tableIdx := congrArg Seat.row hext.seat_eq
    rw [see_prompts_of_mem hphase (h.jobs_rows_nodup hb.sched) hj] at honce
    simp only [PromptRun.AtOnce, StepOutput.record] at honce
    rw [hrow, hw.restoreSrc_eq] at honce
    refine hr.before_chunk hb h hs hp hj hext (honce.imp_right fun hfits => ?_)
    refine hw.chunks_nil.mp ?_
    by_contra hne
    exact absurd hfits (Nat.not_le.mpr (hw.long hne))
  · have hnone := hr.cleared j.1 hrun
    rw [(see_decode hphase).1] at honce
    rw [h.restored_of_mem hb.sched hs hreq (by rw [hnone]; simp), hnone]
    exact hr.going j.1 hrun honce

theorem going_step (hstep : e.step sampled = .ok (out, e')) {r : Req}
    (hrun : r ∈ e'.scheduler.runningReqs)
    (honce : ((StateTrace.see m g e (.step sampled) (.stepped out)).prompts
      r.tableIdx).AtOnce e.scheduler.maxExtendTokens) :
    (StateTrace.see m g e (.step sampled) (.stepped out)).states r.seat.stateIdx =
      m.stateAfter ((StateTrace.see m g e (.step sampled) (.stepped out)).past r.tableIdx) := by
  rcases (h.stepped hb.sched).running r hrun with ⟨hrun, hrow⟩ | ⟨x, hx, rfl, -, -⟩
  · obtain ⟨hstate, hids⟩ := h.kept_outside (m := m) (g := g) hs
      (List.mem_append_right _ (List.mem_map_of_mem hrun)) hrow hb.sched
    rw [h.prompts_outside hrow] at honce
    rw [hstate]
    exact (hr.going r hrun honce).trans (congrArg m.stateAfter hids.symm)
  · obtain ⟨z, hz, rfl⟩ := List.mem_map.mp hx
    have hseat := (rounded e out.batch.phase z).seat_eq
    have hrow : (e.roundOf out.batch.phase z).2.tableIdx = z.2.tableIdx := congrArg Seat.row hseat
    obtain ⟨s, hj⟩ := h.exists_job (h.mem_batch hz)
    rw [hrow] at honce
    rw [hseat, hrow]
    exact h.states_of_mem hb hstep hs hj (hr.before_going hb h hs hj honce)

theorem started_step (hpast : g.past.Tokens e t) :
    ∀ pr ∈ (StateTrace.see m g e (.step sampled) (.stepped out)).log, pr.StartsRight m := by
  intro pr hpr
  cases hphase : out.batch.phase with
  | decode =>
      rw [(see_decode hphase).2] at hpr
      exact hr.started pr hpr
  | prefill =>
      rw [see_log hphase] at hpr
      rcases List.mem_append.mp hpr with hpr | hpr
      · exact hr.started pr hpr
      · obtain ⟨j, hj, rfl⟩ := List.mem_map.mp hpr
        rcases (h.stepped hb.sched).origin j.1 (h.mem_jobs hj).1 with
          ⟨-, p, hp, hext⟩ | ⟨hdecode, -⟩
        · exact hr.record_starts hb hpast h hs hp hj hext
        · rw [hphase] at hdecode
          cases hdecode

end Step

/-- A step, given that what is waited for stays frozen and what is recorded is right. -/
theorem step (hr : Starts m config.maxExtendTokens frozen g e) (hb : Books e t orphans)
    (hl : StateBooks config e) (hpast : g.past.Tokens e t)
    (hstep : e.step sampled = .ok (out, e')) (h : StepRun e sampled out e' s1 e2)
    (hs : StateStep frozen e out)
    (hwaited : ∀ p ∈ e.scheduler.pendingList, p.chunkedReq = none →
      ∀ src ∈ p.mambaRestoreSrc, src ∈ frozen → src ∈ frozen')
    (hrec : ∀ x ∈ e'.mambaAnchorSnapshots, x.2 ∈ frozen' ∧
      (StateTrace.see m g e (.step sampled) (.stepped out)).states x.2 = m.stateAfter x.1) :
    Starts m config.maxExtendTokens frozen'
      (StateTrace.see m g e (.step sampled) (.stepped out)) e' := by
  have hbudget : config.maxExtendTokens = e.scheduler.maxExtendTokens := by
    rw [hb.maxExtendTokens_eq, hl.config_eq]
  have hrestores := hr.toRestores.step hb hl hpast h
  rw [hbudget] at hr hrestores ⊢
  constructor
  · exact hrestores
  · exact fun p hp => ⟨hr.first_step hb h hs hpast hp, hr.ready_step hb h hs hstep hp,
      fun hfresh _ => hr.source_step hb h hs hwaited hp hfresh⟩
  · intro r hrun
    rcases (h.stepped hb.sched).running r hrun with ⟨hrun, -⟩ | ⟨x, hx, rfl, hc, -⟩
    · exact hr.cleared r hrun
    · obtain ⟨z, hz, rfl⟩ := List.mem_map.mp hx
      exact hs.cleared z hz ((rounded e out.batch.phase z).chunked_eq ▸ hc)
  · exact fun r hrun honce => hr.going_step hb h hs hstep hrun honce
  · exact hrec
  · exact hr.started_step hb h hs hpast

end Starts

/-! ### `add_request` -/

/-- The index of the state that the next request gets. -/
def nextStateIdx (e : Engine) : Option Nat :=
  match e.linearStatePool with
  | none => e.scheduler.freeSlots.head?
  | some pool =>
      match pool.alloc3 with
      | .error _ => none
      | .ok ((live, _, _), _) => some live

theorem Queued.nextStateIdx_eq {args : AddArgs} {pm : PromptMatch} {p : PendingReq} {e3 : Engine}
    (hq : Queued e args pm p e3) {s' : Scheduler} (hin : QueuedIn e p s') :
    e.nextStateIdx = some p.seat.stateIdx := by
  rcases hq.linear with ⟨hnone, -, -⟩ | ⟨pool, pool', live, track0, track1, hpool, -, hslots,
    hfree, -⟩
  · have hlive := (hq.linear_none hnone).1
    simp [nextStateIdx, hnone, hin.freeSlots_eq, Seat.stateIdx, PendingReq.seat, hlive]
  · obtain ⟨live', hlive, htracks⟩ := Option.bind_eq_some_iff.mp hslots
    obtain ⟨tracks, -, htuple⟩ := Option.map_eq_some_iff.mp htracks
    obtain ⟨rfl, -⟩ := Prod.mk.inj htuple
    simp [nextStateIdx, hpool, LinearStatePool.alloc3, hfree, Seat.stateIdx, PendingReq.seat,
      hlive]

/-- A request without a snapshot is given the fresh state, and skips nothing. -/
def StartsClean (m : LinearModel ι σ) (g : StateTrace σ) (e : Engine) (args : AddArgs) : Prop :=
  e.restoreSrc args.inputIds (e.matchPrompt args.inputIds).cachedLen = none →
    ∀ idx ∈ e.nextStateIdx,
      (e.matchPrompt args.inputIds).cachedLen ≤ 0 ∧ g.states idx = m.fresh

instance [DecidableEq σ] (m : LinearModel ι σ) (g : StateTrace σ) (e : Engine) (args : AddArgs) :
    Decidable (StartsClean m g e args) :=
  inferInstanceAs (Decidable (_ → ∀ idx ∈ e.nextStateIdx, _ ∧ _))

/-- The prefix that a snapshot is looked up for is the one that is skipped. -/
theorem Books.sliceTo_cachedLen (hb : Books e t orphans) (args : AddArgs) :
    let cachedLen := (e.matchPrompt args.inputIds).cachedLen
    sliceTo args.inputIds cachedLen = args.inputIds.take cachedLen.toNat ∧
      cachedLen.toNat ≤ args.inputIds.length := by
  have hm := hb.promptMatched args
  by_cases hnil : args.inputIds = []
  · rw [hnil] at hm ⊢
    refine ⟨by simp [sliceTo], ?_⟩
    rw [hm.cachedLen_nil]
    split <;> simp
  · obtain ⟨k, hk, -, hlt⟩ := hm.cachedLen_nonneg hnil
    dsimp only
    rw [hk, sliceTo_natCast, Int.toNat_natCast]
    exact ⟨rfl, hlt.le⟩

section See

variable (m) (g) (args : AddArgs) (rep : Report)

theorem see_add_frame (e : Engine) : (StateTrace.see m g e (.addRequest args) rep).states = g.states ∧
    (StateTrace.see m g e (.addRequest args) rep).log = g.log := by
  simp only [StateTrace.see]
  split <;> exact ⟨rfl, rfl⟩

/-- Whoever has a row keeps its record and its history. -/
theorem see_add_of_notMem {row : Nat} (hrow : row ∉ e.scheduler.freeSlots) :
    (StateTrace.see m g e (.addRequest args) rep).prompts row = g.prompts row ∧
      (StateTrace.see m g e (.addRequest args) rep).past row = g.past row := by
  cases hfree : e.scheduler.freeSlots with
  | nil => simp only [StateTrace.see, hfree, Histories.see, and_self]
  | cons row' rest =>
      rw [hfree, List.mem_cons, not_or] at hrow
      rw [see_added hfree]
      simp only [Histories.see, hfree, Function.update_of_ne hrow.1, and_self]

end See

/-- What is queued is poised if it restores a recorded snapshot, or was clean. -/
theorem Starts.poised_added {budget : Nat} {frozen : List Slot} {args : AddArgs} {rep : Report}
    (hr : Starts m budget frozen g e) (hb : Books e t orphans) (hclean : StartsClean m g e args)
    {p : PendingReq} {e3 : Engine} (hq : Queued e args (e.matchPrompt args.inputIds) p e3)
    {s' : Scheduler} (hin : QueuedIn e p s') :
    Poised m frozen (StateTrace.see m g e (.addRequest args) rep) p := by
  obtain ⟨hslice, hle⟩ := hb.sliceTo_cachedLen args
  have hstates := (see_add_frame m g args rep e).1
  have hpast : (StateTrace.see m g e (.addRequest args) rep).past p.tableIdx =
      args.inputIds.take (e.matchPrompt args.inputIds).cachedLen.toNat := by
    rw [see_past, g.past.see_of_added hin.freeSlots_eq, skippedInputs_lastOf hle]
  constructor
  · refine .of_nil ?_
    rw [see_added hin.freeSlots_eq]
    simp only [Function.update_self]
  · intro hsrc
    obtain ⟨hcached, hfresh⟩ := hclean (hq.restoreSrc_eq.symm.trans hsrc) _
      (hq.nextStateIdx_eq hin)
    have hzero : (e.matchPrompt args.inputIds).cachedLen.toNat = 0 := by omega
    rw [hstates, hpast, hzero, List.take_zero, m.stateAfter_nil]
    exact hfresh
  · intro _ src hsrc
    rw [hq.restoreSrc_eq, restoreSrc] at hsrc
    split at hsrc
    · rw [hslice] at hsrc
      obtain ⟨hfrozen, hstate⟩ := hr.recorded _ (mem_of_dictGet hsrc)
      rw [hstates, hpast]
      exact ⟨hfrozen, hstate⟩
    · cases hsrc

theorem Starts.add {budget : Nat} {frozen : List Slot} {args : AddArgs} {rep : Report}
    (hr : Starts m budget frozen g e) (hb : Books e t orphans) (hclean : StartsClean m g e args)
    (hrestores : Restores m budget (StateTrace.see m g e (.addRequest args) rep)
      (e.addRequest args).2) :
    Starts m budget frozen (StateTrace.see m g e (.addRequest args) rep)
      (e.addRequest args).2 := by
  obtain ⟨hstates, hlog⟩ := see_add_frame m g args rep e
  have hsnap := (hb.add_frame args).2.2
  have hseats : ∀ seat ∈ e.scheduler.seats, seat.row ∉ e.scheduler.freeSlots :=
    fun seat hseat hfree => (List.nodup_append'.mp hb.sched.rows_nodup).2.2 hfree
      (List.mem_map_of_mem hseat)
  have hold : ∀ p ∈ e.scheduler.pendingList,
      Poised m frozen (StateTrace.see m g e (.addRequest args) rep) p := by
    intro p hp
    have hrow : p.tableIdx ∉ e.scheduler.freeSlots :=
      hseats p.seat (List.mem_append_left _ (List.mem_map_of_mem hp))
    obtain ⟨hprompts, hpast⟩ := see_add_of_notMem m g args rep hrow
    exact (hr.poised p hp).congr hstates hprompts hpast
  have hgoing : ∀ r ∈ e.scheduler.runningReqs,
      ((StateTrace.see m g e (.addRequest args) rep).prompts r.tableIdx).AtOnce budget →
        (StateTrace.see m g e (.addRequest args) rep).states r.seat.stateIdx =
          m.stateAfter ((StateTrace.see m g e (.addRequest args) rep).past r.tableIdx) := by
    intro r hrun honce
    have hrow : r.tableIdx ∉ e.scheduler.freeSlots :=
      hseats r.seat (List.mem_append_right _ (List.mem_map_of_mem hrun))
    obtain ⟨hprompts, hpast⟩ := see_add_of_notMem m g args rep hrow
    rw [hprompts] at honce
    rw [hstates, hpast]
    exact hr.going r hrun honce
  have hrecorded : ∀ x ∈ (e.addRequest args).2.mambaAnchorSnapshots, x.2 ∈ frozen ∧
      (StateTrace.see m g e (.addRequest args) rep).states x.2 = m.stateAfter x.1 := by
    rw [hsnap, hstates]
    exact hr.recorded
  rcases hb.add_cases args with ⟨-, hnot⟩ | ⟨p, e3, hq, -, hin⟩
  · have hsched : (e.addRequest args).2.scheduler = e.scheduler := by
      rw [hnot.frame (hb.promptMatched args)]
    refine ⟨hrestores, ?_, ?_, ?_, hrecorded, by rw [hlog]; exact hr.started⟩ <;> rw [hsched]
    · exact hold
    · exact hr.cleared
    · exact hgoing
  · refine ⟨hrestores, ?_, ?_, ?_, hrecorded, by rw [hlog]; exact hr.started⟩
    · rw [hin.pendingList_eq]
      intro q hmem
      rcases List.mem_append.mp hmem with hmem | hmem
      · exact hold q hmem
      · obtain rfl := List.mem_singleton.mp hmem
        exact hr.poised_added hb hclean hq hin
    · rw [hin.runningReqs_eq]
      exact hr.cleared
    · rw [hin.runningReqs_eq]
      exact hgoing

/-! ### With the pool of linear states -/

section Pool

namespace StepRun

variable {sampled : Nat → Token} {out : StepOutput} {s1 : Scheduler} {e2 : Engine}

variable (h : StepRun e sampled out e' s1 e2)
include h

/-- The copies after the forward: the donors' states, into the track slots recorded. -/
theorem snapshots_donors (hs : e.scheduler.Ok) (hl : LinearBooks config e kept) :
    out.snapshots = e.donors.map fun r => (r.seat.stateIdx, (e.donation r).2) := by
  have hone : ∀ x ∈ rounds out, (if x.2.chunked then none
      else (e.snapshotOf ((x.2.append out.batch.phase x.1).detectAnchor e.config.toolcallAnchorId
        x.1)).map fun s => s.2) =
      if x.2.DonatesNext e.config.pageSize then some (x.2.seat.stateIdx, (e.donation x.2).2)
      else none := by
    intro x hx
    have hbatch := h.mem_batch hx
    have hseated := hl.seated _ (h.seat_mem hs hbatch)
    rw [snapshotOf_round hl.pool_isSome hseated]
    by_cases hdon : x.2.DonatesNext e.config.pageSize
    · have hc := (hs.running_ok _ (h.donor_running hs hbatch hdon).2).not_chunked
      obtain ⟨live, track0, track1, hlive, -⟩ := hseated
      have hidx : x.2.seat.stateIdx = x.2.linearSlotIdx.getD 0 := by
        rw [Seat.stateIdx, hlive, show x.2.linearSlotIdx = some live from hlive]
        rfl
      simp [hdon, hc, hidx, donation]
    · simp [hdon]
  have hall : out.snapshots = (rounds out).filterMap fun x => if x.2.DonatesNext e.config.pageSize
      then some (x.2.seat.stateIdx, (e.donation x.2).2) else none :=
    h.snapshots_eq.trans (List.filterMap_congr hone)
  rw [hall, h.donors_eq, ← h.map_snd_rounds, List.filter_map, List.map_map]
  generalize rounds out = xs
  induction xs with
  | nil => rfl
  | cons x xs ih =>
      by_cases hdon : x.2.DonatesNext e.config.pageSize <;>
        simp [hdon, ih]

theorem donors_mem (hs : e.scheduler.Ok) {r : Req} (hr : r ∈ e.donors) :
    r ∈ out.batch.reqs ∧ out.batch.phase = .decode ∧ r ∈ e.scheduler.runningReqs ∧
      r.DonatesNext e.config.pageSize := by
  rw [h.donors_eq, List.mem_filter, decide_eq_true_iff] at hr
  obtain ⟨hphase, hrun⟩ := h.donor_running hs hr.1 hr.2
  exact ⟨hr.1, hphase, hrun, hr.2⟩

/-- The targets of the snapshots are track slots of live requests that are not recorded. -/
theorem target_fresh (hb : Books e t orphans) (hr : Recording config e kept) {s : Slot}
    (hs : s ∈ out.snapshots.map Prod.snd) : s ∈ e.liveTracks ∧ s ∉ e.donated := by
  have hl := hr.toLinearBooks
  rw [h.snapshots_donors hb.sched hl, List.map_map] at hs
  obtain ⟨r, hdonor, rfl⟩ := List.mem_map.mp hs
  obtain ⟨-, -, hrun, hdon⟩ := h.donors_mem hb.sched hdonor
  have hseat := List.mem_append_right (e.scheduler.pendingList.map PendingReq.seat)
    (List.mem_map_of_mem (f := Req.seat) hrun)
  have htrack := Req.trackSlot_mem (hl.seated _ hseat)
  exact ⟨List.mem_flatMap.mpr ⟨r.seat, hseat, htrack⟩, hr.running r hrun hdon.2.1 _ htrack⟩

theorem stateStep (hb : Books e t orphans) (hr : Recording config e kept) :
    StateStep (kept ++ e.donated) e out := by
  have hl := hr.toLinearBooks
  have hn := hl.live_nodup
  obtain ⟨-, hrest, hlive⟩ := List.nodup_append'.mp hn
  have htracks := (List.nodup_append'.mp hrest).2.2
  constructor
  · exact hl.statesApart
  · exact (hl.stateBooks hb.sched).copies h
  · intro seat hseat hmem
    exact hlive (List.mem_map_of_mem hseat)
      (List.mem_append_left _ (h.target_fresh hb hr hmem).1)
  · intro s hs hmem
    obtain ⟨htrack, hnot⟩ := h.target_fresh hb hr hmem
    rcases List.mem_append.mp hs with hkept | hdon
    · exact htracks htrack hkept
    · exact hnot hdon
  · rintro s hs seat hseat rfl
    refine hlive (List.mem_map_of_mem hseat) ?_
    rcases List.mem_append.mp hs with hkept | hdon
    · exact List.mem_append_right _ hkept
    · exact List.mem_append.mpr (hr.held _ hdon).symm
  · intro x hx hc
    obtain ⟨tok, req⟩ := x
    have hclear : e.clearRestore req = req.restored := if_pos hl.pool_isSome
    obtain ⟨anchor, last, next, cached, heq⟩ := e.sampleReq_eq out.batch.phase tok req.restored hc
    simp only [roundOf, hclear, heq]
    rfl

/-- A donor's key is its history after the step. -/
theorem past_donor (hb : Books e t orphans) (hl : LinearBooks config e kept)
    (hpast : g.past.Tokens e t) {j : Req × Slice} (hj : j ∈ out.jobs)
    (hdonor : j.1 ∈ e.donors) :
    g.past j.1.tableIdx ++ j.2.tokens = e.history j.1.tableIdx := by
  obtain ⟨hbatch, hphase, hrun, -⟩ := h.donors_mem hb.sched hdonor
  have hfull := hb.recorded.fullIds_eq hl.cache_isSome j.1 hrun
  rw [← h.map_snd_rounds] at hbatch
  obtain ⟨z, hz, hzj⟩ := List.mem_map.mp hbatch
  obtain ⟨y, hy, s, -, hslice, hadv, hseq, hfinal⟩ := h.advanced hb.sched hb.recorded hz
  rw [hzj] at hslice hadv hseq hfinal
  have hc := (hb.sched.running_ok _ hrun).not_chunked
  obtain ⟨hlen, -⟩ := hfinal hc
  have hsj : s = j.2 := Option.some.inj (hslice.symm.trans (h.mem_jobs hj).2.2.1)
  have hrow : j.1.tableIdx = y.seat.row := congrArg Seat.row hadv.seat_eq
  have hdone : (StepRun.after out t y j.1).done = j.1.deviceLen := rfl
  have htokens := hadv.tokens_eq
  rw [hdone, hsj] at htokens
  have hlt := hadv.done_lt
  rw [hdone] at hlt
  have hids : g.past j.1.tableIdx = y.ids.take y.done := hrow ▸ hpast y hy
  have hwhole : y.ids = t j.1.tableIdx := by
    rw [Req.sequence, if_pos hphase, List.take_of_length_le hlen.le] at hseq
    exact hseq.symm
  rw [history, hfull, Option.getD_some, hids, htokens, ← hlen, List.take_length, hwhole]
  exact List.take_append_drop _ _

end StepRun

/-- What the step records is right, if its donors restored at once. -/
theorem Starts.recorded_step {sampled : Nat → Token} {out : StepOutput} {s1 : Scheduler}
    {e2 : Engine} (hr : Starts m e.scheduler.maxExtendTokens (kept ++ e.donated) g e)
    (hb : Books e t orphans) (hrec : Recording config e kept) (hpast : g.past.Tokens e t)
    (h : StepRun e sampled out e' s1 e2)
    (honce : ∀ r ∈ e.donors, (g.prompts r.tableIdx).AtOnce e.scheduler.maxExtendTokens) :
    ∀ x ∈ e'.mambaAnchorSnapshots, x.2 ∈ e'.donated ∧
      (StateTrace.see m g e (.step sampled) (.stepped out)).states x.2 = m.stateAfter x.1 := by
  have hl := hrec.toLinearBooks
  have hs := h.stateStep hb hrec
  intro x hx
  refine ⟨List.mem_map_of_mem hx, ?_⟩
  rw [h.snapshots_foldl hb hl] at hx
  rcases mem_foldl_dictSet hx with hold | hnew
  · obtain ⟨hfrozen, hstate⟩ := hr.recorded x hold
    rw [h.states_frozen hb.sched hs hfrozen]
    exact hstate
  · obtain ⟨r, hdonor, rfl⟩ := List.mem_map.mp hnew
    obtain ⟨hbatch, hphase, hrun, -⟩ := h.donors_mem hb.sched hdonor
    obtain ⟨s, hj⟩ := h.exists_job hbatch
    have hbefore := hr.before_going hb h hs hj (by
      rw [(see_decode hphase).1]
      exact honce r hdonor)
    have hcopies := h.snapshots_donors hb.sched hl
    have hcopied : copyStates out.snapshots (forwarded m g.past out.jobs (out.restored g.states))
        (e.donation r).2 = forwarded m g.past out.jobs (out.restored g.states) r.seat.stateIdx := by
      refine copyStates_of_mem (c := (r.seat.stateIdx, (e.donation r).2)) ?_
        (hs.targets _ (h.seat_mem hb.sched hbatch)) ?_
      · rw [hcopies, List.map_map]
        have hn := (h.donated_slots hb hl).1
        rw [List.map_map] at hn
        exact hn
      · rw [hcopies]
        exact List.mem_map_of_mem hdonor
    rw [see_states, hcopied, h.forwarded_of_mem m hb.sched hs.apart hj, hbefore,
      m.extend_stateAfter, h.past_donor hb hl hpast hj hdonor]
    rfl

end Pool

/-! ### A call -/

/-- The call queues a request without a snapshot only on the fresh state, and with nothing
skipped. Whoever donates was restored at once, and takes no key of a live request's snapshot
that is waited for. Nobody who has donated is aborted. -/
def KeepsStates (m : LinearModel ι σ) (s : StateTrace σ × Engine) : Call → Prop
  | .addRequest args => StartsClean m s.1 s.2 args
  | .step _ => ∀ r ∈ s.2.donors,
      (s.1.prompts r.tableIdx).AtOnce s.2.config.maxExtendTokens ∧
        ∀ src ∈ dictGet (s.2.history r.tableIdx) s.2.mambaAnchorSnapshots,
          src ∈ s.2.liveTracks → ∀ p ∈ s.2.scheduler.pendingList, p.chunkedReq = none →
            p.mambaRestoreSrc ≠ some src
  | .abortRequest uid => ∀ seat ∈ s.2.scheduler.findSeat uid, ∀ slot ∈ seat.tracks,
      slot ∉ s.2.donated

instance [DecidableEq σ] (m : LinearModel ι σ) (s : StateTrace σ × Engine) (c : Call) :
    Decidable (KeepsStates m s c) :=
  match c with
  | .addRequest args => inferInstanceAs (Decidable (StartsClean m s.1 s.2 args))
  | .step _ => inferInstanceAs (Decidable (∀ r ∈ s.2.donors, _ ∧
      ∀ src ∈ dictGet _ _, _ → ∀ p ∈ s.2.scheduler.pendingList, _ → _))
  | .abortRequest uid => inferInstanceAs (Decidable (∀ seat ∈ s.2.scheduler.findSeat uid,
      ∀ slot ∈ seat.tracks, slot ∉ s.2.donated))

/-- An abort touches no state, and what the snapshots record stays. -/
theorem Starts.aborted {budget : Nat} {frozen : List Slot} (hr : Starts m budget frozen g e)
    {hs : List RadixCacheHandle} {seat : Seat} (hab : Aborted hs e seat e') (uid : Int)
    (rep : Report) :
    Starts m budget frozen (StateTrace.see m g e (.abortRequest uid) rep) e' := by
  have hsnap : e'.mambaAnchorSnapshots = e.mambaAnchorSnapshots := by rw [hab.frame]
  have hpending := hab.dropped.pending_sub
  have hrunning := hab.dropped.running_sub
  constructor
  · exact ⟨fun p hp => hr.waits p (hpending p hp), hr.judged⟩
  · exact fun p hp => (hr.poised p (hpending p hp)).congr rfl rfl rfl
  · exact fun r hrun => hr.cleared r (hrunning r hrun)
  · exact fun r hrun => hr.going r (hrunning r hrun)
  · rw [hsnap]
    exact hr.recorded
  · exact hr.started

theorem Starts.pooled_report (hr : Starts m config.maxExtendTokens (kept ++ e.donated) g e)
    (hb : Books e t orphans) (hrec : Recording config e kept) (hpast : g.past.Tokens e t)
    {c : Call} (hkeep : KeepsStates m (g, e) c) {rep : Report}
    (hrep : e.report c = some (rep, e')) :
    Recording config e' (keep kept e c (rep, e')) ∧
      Starts m config.maxExtendTokens (keep kept e c (rep, e') ++ e'.donated)
        (StateTrace.see m g e c rep) e' := by
  have hbooks := hrec.toLinearBooks.stateBooks hb.sched
  cases c with
  | addRequest args =>
      obtain ⟨rfl, rfl⟩ := Prod.mk.inj (Option.some.inj hrep)
      have hdon : (e.addRequest args).2.donated = e.donated :=
        congrArg (List.map Prod.snd) (hb.add_frame args).2.2
      refine ⟨hrec.addRequest hb args, ?_⟩
      rw [hdon]
      exact hr.add hb hkeep (hr.toRestores.add hb args _)
  | step sampled =>
      simp only [Engine.report] at hrep
      split at hrep
      · rename_i out e1 hstep
        obtain ⟨rfl, rfl⟩ := Prod.mk.inj (Option.some.inj hrep)
        rcases step_cases hstep with ⟨-, rfl, rfl⟩ | ⟨s1, e2, hrun⟩
        · have hnil : keep kept e1 (.step sampled) (.stepped {}, e1) = kept := by
            simp [keep, StepOutput.leaves]
          rw [hnil]
          exact ⟨hrec, hr.congr rfl rfl rfl rfl⟩
        · refine ⟨hrun.recording hb hrec, ?_⟩
          refine hr.step hb hbooks hpast hstep hrun (hrun.stateStep hb hrec) ?_ ?_
          · intro p hp hfresh src hsrc hmem
            rcases List.mem_append.mp hmem with hkept | hdon
            · exact List.mem_append_left _ (List.mem_append_left _ hkept)
            · by_cases hstays : src ∈ e1.donated
              · exact List.mem_append_right _ hstays
              · -- a donation took its key
                rw [(hrun.donated_step hb hrec).2.2 src hdon] at hstays
                obtain ⟨r, hnot⟩ := not_forall.mp hstays
                obtain ⟨hdonor, hget⟩ := Classical.not_imp.mp hnot
                have hget := not_not.mp hget
                refine List.mem_append_left _ (List.mem_append_left _ ?_)
                refine (hrec.held src hdon).resolve_right fun hlive => ?_
                exact (hkeep r hdonor).2 src hget hlive p hp hfresh hsrc
          · have hbudget : config.maxExtendTokens = e.scheduler.maxExtendTokens := by
              rw [hb.maxExtendTokens_eq, hbooks.config_eq]
            have honce : ∀ r ∈ e.donors,
                (g.prompts r.tableIdx).AtOnce e.scheduler.maxExtendTokens := fun r hdonor => by
              rw [hb.maxExtendTokens_eq]
              exact (hkeep r hdonor).1
            rw [hbudget] at hr
            exact fun x hx => (hr.recorded_step hb hrec hpast hrun honce x hx).imp_left
              (List.mem_append_right _)
      · cases hrep
  | abortRequest uid =>
      rcases hb.abort_cases uid with ⟨-, heq⟩ | ⟨seat, e1, hfind, -, heq, hseat, hab⟩
      · simp only [Engine.report, heq, Option.some.injEq, Prod.mk.injEq] at hrep
        obtain ⟨rfl, rfl⟩ := hrep
        exact ⟨hrec, hr.congr rfl rfl rfl rfl⟩
      · simp only [Engine.report, heq, Option.some.injEq, Prod.mk.injEq] at hrep
        obtain ⟨rfl, rfl⟩ := hrep
        refine ⟨hrec.aborted hseat hab (hkeep seat hfind), ?_⟩
        rw [(Recording.aborted_eq hab).1]
        exact hr.aborted hab uid _

/-! ### Without it -/

namespace Unpooled

theorem statesApart (h : Unpooled config e) (hs : e.scheduler.Ok) : e.StatesApart := by
  have hrows := hs.seat_rows_nodup
  have hsame : e.scheduler.seats.map Seat.stateIdx = e.scheduler.seats.map Seat.row :=
    List.map_congr_left fun seat hseat => by rw [Seat.stateIdx, h.seats seat hseat]; rfl
  rw [StatesApart, hsame]
  exact hrows

theorem stateBooks (h : Unpooled config e) (hs : e.scheduler.Ok) : StateBooks config e where
  config_eq := h.config_eq
  apart := h.statesApart hs
  copies := fun {_ out _ _ _} hrun => by
    have hnone : out.batch.reqs.filterMap restoreOf = [] := by
      refine List.filterMap_eq_nil_iff.mpr fun r hr => ?_
      rw [restoreOf, h.batch_src hs hrun r hr]
      rfl
    rw [hrun.restores_eq, hnone, restoresOf, h.pool_eq]
    rfl

theorem stateStep (h : Unpooled config e) (hs : e.scheduler.Ok) {sampled : Nat → Token}
    {out : StepOutput} {s1 : Scheduler} {e2 : Engine} (hrun : StepRun e sampled out e' s1 e2) :
    StateStep [] e out := by
  have hnil : out.snapshots = [] := by
    rw [hrun.snapshots_eq]
    refine List.filterMap_eq_nil_iff.mpr fun x _ => ?_
    simp [snapshotOf_unpooled h.pool_eq]
  constructor
  · exact h.statesApart hs
  · exact (h.stateBooks hs).copies hrun
  · rw [hnil]
    exact fun _ _ => List.not_mem_nil
  · exact fun s hmem => absurd hmem List.not_mem_nil
  · exact fun s hmem => absurd hmem List.not_mem_nil
  · exact fun x hx hc => h.round_src hs hrun hx hc

end Unpooled

theorem Starts.unpooled_report (hr : Starts m config.maxExtendTokens [] g e)
    (hb : Books e t orphans) (hu : Unpooled config e) (hpast : g.past.Tokens e t)
    {c : Call} (hkeep : KeepsStates m (g, e) c) {rep : Report}
    (hrep : e.report c = some (rep, e')) :
    Unpooled config e' ∧ Starts m config.maxExtendTokens [] (StateTrace.see m g e c rep) e' := by
  have hbooks := hu.stateBooks hb.sched
  cases c with
  | addRequest args =>
      obtain ⟨rfl, rfl⟩ := Prod.mk.inj (Option.some.inj hrep)
      exact ⟨hu.addRequest hb args, hr.add hb hkeep (hr.toRestores.add hb args _)⟩
  | step sampled =>
      simp only [Engine.report] at hrep
      split at hrep
      · rename_i out e1 hstep
        obtain ⟨rfl, rfl⟩ := Prod.mk.inj (Option.some.inj hrep)
        rcases step_cases hstep with ⟨-, rfl, rfl⟩ | ⟨s1, e2, hrun⟩
        · exact ⟨hu, hr.congr rfl rfl rfl rfl⟩
        · have hu' := hu.step hb.sched hrun
          refine ⟨hu', hr.step hb hbooks hpast hstep hrun (hu.stateStep hb.sched hrun)
            (fun _ _ _ _ _ hmem => hmem) ?_⟩
          rw [hu'.snapshots_eq]
          exact fun x hx => absurd hx List.not_mem_nil
      · cases hrep
  | abortRequest uid =>
      rcases hb.abort_cases uid with ⟨-, heq⟩ | ⟨seat, e1, -, -, heq, -, hab⟩
      · simp only [Engine.report, heq, Option.some.injEq, Prod.mk.injEq] at hrep
        obtain ⟨rfl, rfl⟩ := hrep
        exact ⟨hu, hr.congr rfl rfl rfl rfl⟩
      · simp only [Engine.report, heq, Option.some.injEq, Prod.mk.injEq] at hrep
        obtain ⟨rfl, rfl⟩ := hrep
        exact ⟨hu.aborted hab, hr.aborted hab uid _⟩

/-! ### Runs -/

theorem starts_start (m : LinearModel ι σ) (budget : Nat) (frozen : List Slot)
    (config : EngineConfig) : Starts m budget frozen (StateTrace.start m) (init config) where
  waits := fun _ hp => absurd hp List.not_mem_nil
  judged := fun _ hpr => absurd hpr List.not_mem_nil
  poised := fun _ hp => absurd hp List.not_mem_nil
  cleared := fun _ hr => absurd hr List.not_mem_nil
  going := fun _ hr => absurd hr List.not_mem_nil
  recorded := fun _ hx => absurd hx List.not_mem_nil
  started := fun _ hpr => absurd hpr List.not_mem_nil

/-- In a run of a hybrid engine whose calls all keep the states, with or without the prefix
cache, every prompt's first chunk reads the state after its cached prefix. -/
theorem starts_right (m : LinearModel ι σ) (hh : config.hybrid = true) {calls : List Call}
    (hkeep : Run.AllSteps (stateNext m) (KeepsStates m) (StateTrace.start m, init config) calls)
    (h : Run.exec (stateNext m) (StateTrace.start m, init config) calls = some (g, e)) :
    ∀ pr ∈ g.log, pr.StartsRight m := by
  have htokens : (StateTrace.start m).past.Tokens (init config) fun _ => [] :=
    fun x hx => absurd hx List.not_mem_nil
  by_cases hc : config.enablePrefixCache = true
  · have hinv := Run.invariant (fun x : StateTrace σ × Engine =>
      ∃ t orphans kept, Books x.2 t orphans ∧ Recording config x.2 kept ∧ x.1.past.Tokens x.2 t ∧
        Starts m config.maxExtendTokens (kept ++ x.2.donated) x.1 x.2) ?_
      ⟨fun _ => [], [], [], books_init config _, recording_init ⟨hh, hc⟩, htokens,
        starts_start m _ _ config⟩ hkeep h
    · obtain ⟨t, orphans, kept, -, -, -, hr⟩ := hinv
      exact hr.started
    · rintro ⟨g, e⟩ c x ⟨t, orphans, kept, hb, hrec, hpast, hr⟩ hok hx
      obtain ⟨⟨rep, e'⟩, hrep, rfl⟩ := Option.map_eq_some_iff.mp hx
      obtain ⟨t', orphans', hb', hcame⟩ := hb.report hrep
      obtain ⟨hrec', hr'⟩ := hr.pooled_report hb hrec hpast hok hrep
      refine ⟨t', orphans', keep kept e c (rep, e'), hb', hrec', ?_, hr'⟩
      dsimp only
      rw [see_past]
      exact hpast.report hb hrep hcame
  · have hinv := Run.invariant (fun x : StateTrace σ × Engine =>
      ∃ t orphans, Books x.2 t orphans ∧ Unpooled config x.2 ∧ x.1.past.Tokens x.2 t ∧
        Starts m config.maxExtendTokens [] x.1 x.2) ?_
      ⟨fun _ => [], [], books_init config _, unpooled_init (by simpa using hc), htokens,
        starts_start m _ _ config⟩ hkeep h
    · obtain ⟨t, orphans, -, -, -, hr⟩ := hinv
      exact hr.started
    · rintro ⟨g, e⟩ c x ⟨t, orphans, hb, hu, hpast, hr⟩ hok hx
      obtain ⟨⟨rep, e'⟩, hrep, rfl⟩ := Option.map_eq_some_iff.mp hx
      obtain ⟨t', orphans', hb', hcame⟩ := hb.report hrep
      obtain ⟨hu', hr'⟩ := hr.unpooled_report hb hu hpast hok hrep
      refine ⟨t', orphans', hb', hu', ?_, hr'⟩
      dsimp only
      rw [see_past]
      exact hpast.report hb hrep hcame

/-- The prompts one after the other, each answered by one token. -/
def oneByOne (prompts : List (List Token)) : List Call :=
  prompts.zipIdx.flatMap fun x =>
    [.addRequest { uid := x.2, inputIds := x.1, samplingParams := { maxTokens := 1 } },
      .step fun _ => 5]

/-- Without the prefix cache the second request at a row reads the first one's state. With it
the third request gets the slot of the first, and a second one that skips the first token of
its prompt reads the zero state. -/
theorem reused_slot_starts_stale : hybridRow.hybrid = true ∧
    (∃ g e pr, Run.exec (stateNext transcriber) (StateTrace.start transcriber,
        init { hybridRow with enablePrefixCache := false }) (oneByOne [[7], [8]]) = some (g, e) ∧
      pr ∈ g.log ∧ pr.inputIds = [8] ∧ pr.cachedLen = 0 ∧
      pr.chunks.map ChunkRun.before = [[7]] ∧ ¬ pr.StartsRight transcriber) ∧
    (∃ g e pr, Run.exec (stateNext transcriber) (StateTrace.start transcriber, init hybridRow)
        (oneByOne [[7], [8], [6]]) = some (g, e) ∧
      pr ∈ g.log ∧ pr.inputIds = [6] ∧ pr.cachedLen = 0 ∧
      pr.chunks.map ChunkRun.before = [[7]] ∧ ¬ pr.StartsRight transcriber) ∧
    ∃ g e pr, Run.exec (stateNext transcriber) (StateTrace.start transcriber, init hybridRow)
        (oneByOne [[7], [7, 8]]) = some (g, e) ∧
      pr ∈ g.log ∧ pr.inputIds = [7, 8] ∧ pr.cachedLen = 1 ∧
      pr.chunks.map ChunkRun.before = [[]] ∧ ¬ pr.StartsRight transcriber := by
  have hoff : lastPrompt { hybridRow with enablePrefixCache := false } (oneByOne [[7], [8]]) =
      some
        { inputIds := [8]
          chunks := [{ tokens := [8], copied := [], before := [7], after := [7, 8] }]
          whole := true } := by decide +kernel
  have hslot : lastPrompt hybridRow (oneByOne [[7], [8], [6]]) = some
      { inputIds := [6]
        chunks := [{ tokens := [6], copied := [], before := [7], after := [7, 6] }]
        whole := true } := by decide +kernel
  have hskip : lastPrompt hybridRow (oneByOne [[7], [7, 8]]) = some
      { inputIds := [7, 8]
        cachedLen := 1
        chunks := [{ tokens := [8], copied := [], before := [], after := [8] }]
        whole := true } := by decide +kernel
  have hwrong : ∀ {c : ChunkRun (List Token)} {pr : PromptRun (List Token)},
      pr.chunks = [c] → c.before ≠ transcriber.stateAfter (pr.inputIds.take pr.cachedLen) →
        ¬ pr.StartsRight transcriber := fun hc hne hright =>
    hne (hright _ (by rw [hc]; rfl))
  obtain ⟨g, e, hrun, hmem⟩ := lastPrompt_run hoff
  obtain ⟨g', e', hrun', hmem'⟩ := lastPrompt_run hslot
  obtain ⟨g'', e'', hrun'', hmem''⟩ := lastPrompt_run hskip
  exact ⟨by decide,
    ⟨g, e, _, hrun, hmem, rfl, rfl, rfl, hwrong rfl (by decide)⟩,
    ⟨g', e', _, hrun', hmem', rfl, rfl, rfl, hwrong rfl (by decide)⟩,
    g'', e'', _, hrun'', hmem'', rfl, rfl, rfl, hwrong rfl (by decide)⟩

/-- The second prompt restores the snapshot of the first, and starts from it. -/
theorem restored_prompt_starts : ∃ g e pr,
    Run.exec (stateNext transcriber) (StateTrace.start transcriber, init hybridRows)
        (afterToolcall [7, 9, 6]) = some (g, e) ∧
      pr ∈ g.log ∧ pr.cachedLen = 2 ∧ pr.restoreSrc = some 5 ∧
      ∀ pr ∈ g.log, pr.StartsRight transcriber := by
  have hlast : lastPrompt hybridRows (afterToolcall [7, 9, 6]) = some
      { inputIds := [7, 9, 6]
        cachedLen := 2
        restoreSrc := some 5
        chunks := [{ tokens := [6], copied := [5], before := [7, 9], after := [7, 9, 6] }]
        whole := true } := by decide +kernel
  have hkeep : Run.AllSteps (stateNext transcriber) (KeepsStates transcriber)
      (StateTrace.start transcriber, init hybridRows) (afterToolcall [7, 9, 6]) := by
    decide +kernel
  obtain ⟨g, e, hrun, hmem⟩ := lastPrompt_run hlast
  exact ⟨g, e, _, hrun, hmem, rfl, rfl, starts_right transcriber (by decide) hkeep hrun⟩

end Engine

end FreeToken
