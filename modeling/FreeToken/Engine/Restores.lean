import FreeToken.Engine.LinearStates
import FreeToken.Engine.SlotOwners

/-!
# Restoring a snapshot chunk by chunk

The snapshot a prompt restores from stays with its queue entry, and every chunk that is
cut from the entry carries it. So the copy is made before each chunk, and it throws away
what the chunks before have added.
-/

namespace FreeToken

namespace PromptRun

variable {ι σ : Type}

/-- The snapshot was copied once, before the first chunk. -/
def RestoredOnce (pr : PromptRun σ) : Prop :=
  ∃ first rest, pr.chunks = first :: rest ∧ first.copied = pr.restoreSrc.toList ∧
    ∀ c ∈ rest, c.copied = []

theorem RestoredOnce.tail {pr : PromptRun σ} (h : pr.RestoredOnce) :
    ∀ c ∈ pr.chunks.tail, c.copied = [] := by
  obtain ⟨first, rest, hchunks, -, hnever⟩ := h
  rw [hchunks]
  exact hnever

/-- The state after the last chunk is what a single chunk would have left. -/
def SameAsWhole (m : LinearModel ι σ) (pr : PromptRun σ) : Prop :=
  ∃ first last, pr.chunks.head? = some first ∧ pr.chunks.getLast? = some last ∧
    last.after = m.extend (pr.inputIds.take pr.cachedLen) first.before
      (pr.inputIds.drop pr.cachedLen)

/-- The record of an entry in the queue. -/
structure Waits (budget : Nat) (pr : PromptRun σ) (p : PendingReq) : Prop where
  inputIds_eq : pr.inputIds = p.inputIds
  restoreSrc_eq : pr.restoreSrc = p.mambaRestoreSrc
  cachedLen_eq : (pr.cachedLen : Int) = max 0 p.cachedLen
  chunks_nil : pr.chunks = [] ↔ p.chunkedReq = none
  copied : ∀ c ∈ pr.chunks, c.copied = pr.restoreSrc.toList
  long : pr.chunks ≠ [] → budget < pr.inputIds.length - pr.cachedLen

/-- What is claimed of a prompt that is through. -/
def RestoresRight (m : LinearModel ι σ) (pr : PromptRun σ) : Prop :=
  pr.RestoredOnce ∧ pr.SameAsWhole m

end PromptRun

namespace Engine

variable {e e' : Engine} {t : Transcript} {orphans : List RadixCacheHandle} {kept : List Slot}
  {config : EngineConfig} {ι σ : Type} {m : LinearModel ι σ} {g : StateTrace σ}

/-! ### The copies of a step -/

/-- The copy made for a request, should it have a snapshot to restore. -/
def restoreOf (r : Req) : Option (Int × Slot × Slot) :=
  r.mambaRestoreSrc.map fun src => (r.uid, src, r.seat.stateIdx)

theorem restoresOf_eq (hpool : e.linearStatePool.isSome = true) {reqs : List Req}
    (hseated : ∀ r ∈ reqs, r.seat.Seated) : e.restoresOf reqs = reqs.filterMap restoreOf := by
  rw [restoresOf, if_pos hpool]
  refine List.filterMap_congr fun r hr => ?_
  obtain ⟨live, -, -, hlive, -⟩ := hseated r hr
  have hlive : r.linearSlotIdx = some live := hlive
  have hidx : r.seat.stateIdx = live := by rw [Seat.stateIdx, Req.seat, hlive]; rfl
  rw [restoreOf, hidx, hlive]
  cases r.mambaRestoreSrc <;> rfl

theorem restoreOf_target {r : Req} {c : Int × Slot × Slot} (h : restoreOf r = some c) :
    c.2.2 = r.seat.stateIdx := by
  obtain ⟨src, -, rfl⟩ := Option.map_eq_some_iff.mp h
  rfl

/-- The copies into a request's own state are its own. -/
theorem filter_restores {reqs : List Req} (hn : (reqs.map fun r => r.seat.stateIdx).Nodup)
    {req : Req} (hreq : req ∈ reqs) :
    (reqs.filterMap restoreOf).filter (fun c => c.2.2 = req.seat.stateIdx) =
      (restoreOf req).toList := by
  have hself : reqs.filter (fun r => r.seat.stateIdx = req.seat.stateIdx) = [req] := by
    induction reqs with
    | nil => cases hreq
    | cons r reqs ih =>
        obtain ⟨hidx, hn⟩ := List.nodup_cons.mp hn
        rw [List.filter_cons]
        rcases List.mem_cons.mp hreq with rfl | hreq
        · have hnil : reqs.filter (fun r => r.seat.stateIdx = req.seat.stateIdx) = [] :=
            List.filter_eq_nil_iff.mpr fun r hr heq =>
              hidx (List.mem_map.mpr ⟨r, hr, of_decide_eq_true heq⟩)
          rw [hnil, if_pos (decide_eq_true rfl)]
        · have hne : r.seat.stateIdx ≠ req.seat.stateIdx := fun heq =>
            hidx (List.mem_map.mpr ⟨req, hreq, heq.symm⟩)
          rw [if_neg (by simpa using hne)]
          exact ih hn hreq
  have hcomm : (reqs.filterMap restoreOf).filter (fun c => c.2.2 = req.seat.stateIdx) =
      (reqs.filter fun r => r.seat.stateIdx = req.seat.stateIdx).filterMap restoreOf := by
    rw [List.filter_filterMap, List.filterMap_filter]
    refine List.filterMap_congr fun r _ => ?_
    cases hr : restoreOf r with
    | none => simp
    | some c =>
        rw [Option.filter_some, restoreOf_target hr]
  rw [hcomm, hself]
  cases hreq' : restoreOf req <;> simp [hreq']

/-! ### One chunk -/

section Chunk

variable {budget : Nat} {pr : PromptRun σ} {p : PendingReq} {req : Req} {c : ChunkRun σ}

theorem Waits_cachedLen (hw : pr.Waits budget p) (hext : Extends budget p req)
    (hnone : p.chunkedReq = none) : p.processed = pr.cachedLen := by
  have hnonneg := hext.processed_nonneg
  have hcached := hw.cachedLen_eq
  rw [PendingReq.processed, hnone] at hnonneg ⊢
  dsimp only at hnonneg ⊢
  omega

/-- A chunk that leaves something over. -/
theorem Waits_chunk (hw : pr.Waits budget p) (hext : Extends budget p req)
    (hc : req.chunked = true) (hcopied : c.copied = req.mambaRestoreSrc.toList) :
    ({ pr with chunks := pr.chunks ++ [c], whole := !req.chunked } : PromptRun σ).Waits budget
      { p with chunkedReq := some req } where
  inputIds_eq := hw.inputIds_eq
  restoreSrc_eq := hw.restoreSrc_eq
  cachedLen_eq := hw.cachedLen_eq
  chunks_nil := iff_of_false (by simp) (by simp)
  copied := by
    intro d hd
    rcases List.mem_append.mp hd with hd | hd
    · exact hw.copied d hd
    · rw [List.mem_singleton.mp hd, hcopied, hext.restoreSrc_eq, hw.restoreSrc_eq]
  long := by
    intro _
    by_cases hnil : pr.chunks = []
    · have hnone := hw.chunks_nil.mp hnil
      have hlong := hext.fresh_chunked hnone hc
      have hlen := hw.inputIds_eq
      have hstart := Waits_cachedLen hw hext hnone
      rw [PendingReq.processed, hnone] at hstart
      dsimp only at hstart
      rw [PendingReq.inputLen, ← hlen, hstart] at hlong
      dsimp only
      omega
    · exact hw.long hnil

/-- The chunk that ends the prompt. -/
theorem Waits_last (hw : pr.Waits budget p) (hext : Extends budget p req)
    (hc : req.chunked = false) (hsrc : pr.restoreSrc ≠ none)
    (hcopied : c.copied = req.mambaRestoreSrc.toList)
    (htokens : c.tokens = (p.inputIds.take req.deviceLen).drop p.processed.toNat)
    (hafter : c.after = m.extend (p.inputIds.take p.processed.toNat) c.before c.tokens) :
    ({ pr with chunks := pr.chunks ++ [c], whole := !req.chunked } : PromptRun σ).RestoresRight m ↔
      pr.inputIds.length - pr.cachedLen ≤ budget := by
  have hcopied : c.copied = pr.restoreSrc.toList := by
    rw [hcopied, hext.restoreSrc_eq, hw.restoreSrc_eq]
  by_cases hnil : pr.chunks = []
  · have hnone := hw.chunks_nil.mp hnil
    have hstart := Waits_cachedLen hw hext hnone
    have hend : req.deviceLen = p.inputIds.length := by
      have hle := hext.deviceLen_le
      have hchunked := hext.chunked_eq
      rw [hc, eq_comm, decide_eq_false_iff_not] at hchunked
      rw [PendingReq.inputLen] at hle hchunked
      omega
    have hslice := hext.slice_le
    rw [hstart, hend] at hslice
    refine iff_of_true ⟨⟨c, [], by simp [hnil], hcopied, fun d hd => absurd hd List.not_mem_nil⟩,
      c, c, by simp [hnil], by simp [hnil], ?_⟩ ?_
    · rw [hafter, htokens, hend, hstart, List.take_length, Int.toNat_natCast, hw.inputIds_eq]
    · rw [hw.inputIds_eq]
      omega
  · refine iff_of_false ?_ (Nat.not_le.mpr (hw.long hnil))
    rintro ⟨⟨first, rest, hchunks, -, hnever⟩, -⟩
    -- the last chunk is not the first, and restores too
    obtain ⟨d, ds, hds⟩ := List.exists_cons_of_ne_nil hnil
    dsimp only at hchunks
    rw [hds, List.cons_append, List.cons.injEq] at hchunks
    have hlast := hnever c (hchunks.2 ▸ List.mem_append_right _ (List.mem_singleton.mpr rfl))
    rw [hcopied] at hlast
    obtain ⟨src, hsome⟩ := Option.ne_none_iff_exists'.mp hsrc
    rw [hsome] at hlast
    cases hlast

end Chunk

/-! ### A call -/

/-- What the records need of the engine: live requests have states of their own, and a step
restores into those of its requests. -/
structure StateBooks (config : EngineConfig) (e : Engine) : Prop where
  config_eq : e.config = config
  apart : e.StatesApart
  copies : ∀ {sampled : Nat → Token} {out : StepOutput} {e' : Engine} {s1 : Scheduler}
    {e2 : Engine}, StepRun e sampled out e' s1 e2 →
      out.restores = out.batch.reqs.filterMap restoreOf

theorem LinearBooks.stateBooks (h : LinearBooks config e kept) (hs : e.scheduler.Ok) :
    StateBooks config e where
  config_eq := h.config_eq
  apart := h.statesApart
  copies := fun hrun => by
    rw [hrun.restores_eq]
    exact restoresOf_eq h.pool_isSome fun r hr => h.seated _ (hrun.seat_mem hs hr)

/-- Every entry of the queue has its record, and the chunks of a whole prompt restored right
exactly when there was only one of them. -/
structure Restores (m : LinearModel ι σ) (budget : Nat) (g : StateTrace σ) (e : Engine) :
    Prop where
  waits : ∀ p ∈ e.scheduler.pendingList, (g.prompts p.tableIdx).Waits budget p
  judged : ∀ pr ∈ g.log, pr.whole = true → pr.restoreSrc ≠ none →
    (pr.RestoresRight m ↔ pr.inputIds.length - pr.cachedLen ≤ budget)

namespace StepRun

variable {sampled : Nat → Token} {out : StepOutput} {s1 : Scheduler} {e2 : Engine}

variable (h : StepRun e sampled out e' s1 e2)
include h

theorem reqs_idx_nodup (hs : e.scheduler.Ok) (hapart : e.StatesApart) :
    (out.batch.reqs.map fun r => r.seat.stateIdx).Nodup := by
  have hjobs := h.jobs_idx_nodup hs hapart
  rw [← h.map_fst_jobs, List.map_map]
  exact hjobs

/-- Into the state of a request its own snapshot is copied, and nothing else. -/
theorem copied_eq (hs : e.scheduler.Ok) (hl : StateBooks config e) {j : Req × Slice}
    (hj : j ∈ out.jobs) :
    (out.restores.filter fun c => c.2.2 = j.1.seat.stateIdx).map (fun c => c.2.1) =
      j.1.mambaRestoreSrc.toList := by
  rw [hl.copies h, filter_restores (h.reqs_idx_nodup hs hl.apart) (h.mem_jobs hj).1, restoreOf]
  cases j.1.mambaRestoreSrc <;> rfl

/-- A prefill request's job is the next slice of its entry, after the entry's history. -/
theorem job_of_extends {past : Histories Token} (hpast : past.Tokens e t)
    {p : PendingReq} (hp : p ∈ e.scheduler.pendingList) {j : Req × Slice} (hj : j ∈ out.jobs)
    (hphase : out.batch.phase = .prefill) {budget : Nat} (hext : Extends budget p j.1) :
    j.2.tokens = (p.inputIds.take j.1.deviceLen).drop p.processed.toNat ∧
      past j.1.tableIdx = p.inputIds.take p.processed.toNat := by
  have hslice := (h.mem_jobs hj).2.2.1
  rw [hphase, slice_prefill hext, Option.some.injEq] at hslice
  have hrow : j.1.tableIdx = p.tableIdx := congrArg Seat.row hext.seat_eq
  refine ⟨by rw [← hslice], ?_⟩
  rw [hrow]
  exact hpast p.live (mem_lives_of_pending hp)

end StepRun

namespace Restores

variable {budget : Nat}

theorem step (hr : Restores m config.maxExtendTokens g e) (hb : Books e t orphans)
    (hl : StateBooks config e) (hpast : g.past.Tokens e t) {sampled : Nat → Token}
    {out : StepOutput} {s1 : Scheduler} {e2 : Engine} (h : StepRun e sampled out e' s1 e2) :
    Restores m config.maxExtendTokens (StateTrace.see m g e (.step sampled) (.stepped out)) e' := by
  have hs := hb.sched
  have hbudget : e.scheduler.maxExtendTokens = config.maxExtendTokens := by
    rw [hb.maxExtendTokens_eq, hl.config_eq]
  have hstep := h.stepped hs
  constructor
  · intro p hp
    rcases hstep.pending p hp with ⟨hp, hrow⟩ | ⟨p0, hp0, req, hreq, hphase, hext, hc, rfl⟩
    · rw [see_prompts_of_notMem fun j hj heq =>
        hrow (List.mem_map.mpr ⟨j.1, (h.mem_jobs hj).1, heq⟩)]
      exact hr.waits p hp
    · -- the entry goes on with the chunk that was cut from it
      rw [← h.map_fst_jobs] at hreq
      obtain ⟨j, hj, rfl⟩ := List.mem_map.mp hreq
      have hrow : j.1.tableIdx = p0.tableIdx := congrArg Seat.row hext.seat_eq
      have hw := hr.waits p0 hp0
      have hsee : (StateTrace.see m g e (.step sampled) (.stepped out)).prompts p0.tableIdx =
          out.record m g j := by
        rw [← hrow]
        exact see_prompts_of_mem hphase (h.jobs_rows_nodup hs) hj
      rw [hbudget] at hext
      rw [← hrow] at hw
      dsimp only
      rw [hsee]
      have hcopied : (out.chunkRun m g j).copied = j.1.mambaRestoreSrc.toList :=
        h.copied_eq hs hl hj
      exact Waits_chunk hw hext hc hcopied
  · intro pr hpr hwhole hsrc
    cases hphase : out.batch.phase with
    | decode =>
        rw [(see_decode hphase).2] at hpr
        exact hr.judged pr hpr hwhole hsrc
    | prefill =>
        rw [see_log hphase] at hpr
        rcases List.mem_append.mp hpr with hpr | hpr
        · exact hr.judged pr hpr hwhole hsrc
        · obtain ⟨j, hj, rfl⟩ := List.mem_map.mp hpr
          rcases hstep.origin j.1 (h.mem_jobs hj).1 with ⟨-, p, hp, hext⟩ | ⟨hdecode, -⟩
          · have hc : j.1.chunked = false := by simpa [StepOutput.record] using hwhole
            have hrow : j.1.tableIdx = p.tableIdx := congrArg Seat.row hext.seat_eq
            have hw := hr.waits p hp
            rw [← hrow] at hw
            rw [hbudget] at hext
            obtain ⟨htokens, hhist⟩ := h.job_of_extends hpast hp hj hphase hext
            have hafter : forwarded m g.past out.jobs (out.restored g.states) j.1.seat.stateIdx =
                m.extend (g.past j.1.tableIdx) (out.restored g.states j.1.seat.stateIdx)
                  j.2.tokens := h.forwarded_of_mem m hs hl.apart hj
            rw [hhist] at hafter
            exact Waits_last hw hext hc hsrc (h.copied_eq hs hl hj) htokens hafter
          · rw [hphase] at hdecode
            cases hdecode

/-- An entry is queued with no chunk yet. -/
theorem add (hr : Restores m config.maxExtendTokens g e) (hb : Books e t orphans)
    (args : AddArgs) (rep : Report) :
    Restores m config.maxExtendTokens (StateTrace.see m g e (.addRequest args) rep)
      (e.addRequest args).2 := by
  have hold : ∀ p ∈ e.scheduler.pendingList,
      ((StateTrace.see m g e (.addRequest args) rep).prompts p.tableIdx).Waits
        config.maxExtendTokens p := by
    intro p hp
    have hnot := row_notMem_freeSlots hb.sched (mem_lives_of_pending (t := t) hp)
    cases hfree : e.scheduler.freeSlots with
    | nil =>
        simp only [StateTrace.see, hfree]
        exact hr.waits p hp
    | cons row rest =>
        rw [hfree, List.mem_cons, not_or] at hnot
        have hne : p.tableIdx ≠ row := hnot.1
        rw [see_added hfree]
        dsimp only
        rw [Function.update_of_ne hne]
        exact hr.waits p hp
  have hlog : (StateTrace.see m g e (.addRequest args) rep).log = g.log := by
    simp only [StateTrace.see]
    split <;> rfl
  refine ⟨?_, by rw [hlog]; exact hr.judged⟩
  rcases hb.add_cases args with ⟨-, hnot⟩ | ⟨p, e3, hqueued, -, hin⟩
  · have hsched : (e.addRequest args).2.scheduler = e.scheduler := by
      rw [hnot.frame (hb.promptMatched args)]
    rw [hsched]
    exact hold
  · rw [hin.pendingList_eq]
    intro q hq
    rcases List.mem_append.mp hq with hq | hq
    · exact hold q hq
    · obtain rfl := List.mem_singleton.mp hq
      rw [see_added hin.freeSlots_eq]
      dsimp only
      rw [Function.update_self]
      constructor
      · exact hqueued.inputIds_eq.symm
      · exact hqueued.restoreSrc_eq.symm
      · rw [hqueued.cachedLen_eq, Int.toNat_eq_max, max_comm]
      · exact iff_of_true rfl hqueued.chunkedReq_eq
      · exact fun c hc => absurd hc List.not_mem_nil
      · exact fun hne => absurd rfl hne

end Restores

theorem Restores.report (hr : Restores m config.maxExtendTokens g e) (hb : Books e t orphans)
    (hl : StateBooks config e) (hpast : g.past.Tokens e t) {c : Call} {rep : Report}
    (hrep : e.report c = some (rep, e')) :
    Restores m config.maxExtendTokens (StateTrace.see m g e c rep) e' := by
  cases c with
  | addRequest args =>
      obtain ⟨rfl, rfl⟩ := Prod.mk.inj (Option.some.inj hrep)
      exact hr.add hb args _
  | step sampled =>
      simp only [Engine.report] at hrep
      split at hrep
      · rename_i out e1 hstep
        obtain ⟨rfl, rfl⟩ := Prod.mk.inj (Option.some.inj hrep)
        rcases step_cases hstep with ⟨-, rfl, rfl⟩ | ⟨s1, e2, hrun⟩
        · exact ⟨hr.waits, hr.judged⟩
        · exact hr.step hb hl hpast hrun
      · cases hrep
  | abortRequest uid =>
      rcases hb.abort_cases uid with ⟨-, heq⟩ | ⟨seat, e1, -, -, heq, -, hab⟩
      · simp only [Engine.report, heq, Option.some.injEq, Prod.mk.injEq] at hrep
        obtain ⟨rfl, rfl⟩ := hrep
        exact ⟨hr.waits, hr.judged⟩
      · simp only [Engine.report, heq, Option.some.injEq, Prod.mk.injEq] at hrep
        obtain ⟨rfl, rfl⟩ := hrep
        exact ⟨fun p hp => hr.waits p (hab.dropped.pending_sub p hp), hr.judged⟩

/-! ### Without the prefix cache -/

/-- No record has a snapshot to restore. -/
structure RestoresNone (g : StateTrace σ) (e : Engine) : Prop where
  off : e.cacheManager.isSome = false
  prompts : ∀ row, (g.prompts row).restoreSrc = none
  log : ∀ pr ∈ g.log, pr.restoreSrc = none

theorem restoreSrc_off (h : e.cacheManager.isSome = false) (ids : List Token) :
    e.restoreSrc ids (e.matchPrompt ids).cachedLen = none := by
  have hnone : e.cacheManager = none := by simpa using h
  simp [restoreSrc, matchPrompt, hnone]

/-- No call turns the prefix cache on or off. -/
theorem Books.cacheManager_report (hb : Books e t orphans) {c : Call} {rep : Report}
    (hrep : e.report c = some (rep, e')) :
    e'.cacheManager.isSome = e.cacheManager.isSome := by
  cases c with
  | addRequest args =>
      obtain ⟨-, rfl⟩ := Prod.mk.inj (Option.some.inj hrep)
      exact (hb.add_frame args).2.1
  | step sampled =>
      simp only [Engine.report] at hrep
      split at hrep
      · rename_i out e1 hstep
        obtain ⟨-, rfl⟩ := Prod.mk.inj (Option.some.inj hrep)
        rcases step_cases hstep with ⟨-, -, rfl⟩ | ⟨s1, e2, hrun⟩
        · rfl
        · rw [hrun.final_eq]
          exact hrun.frame.isSome_eq
      · cases hrep
  | abortRequest uid =>
      rcases hb.abort_cases uid with ⟨-, heq⟩ | ⟨seat, e1, -, -, heq, -, hab⟩
      · simp only [Engine.report, heq, Option.some.injEq, Prod.mk.injEq] at hrep
        obtain ⟨-, rfl⟩ := hrep
        rfl
      · simp only [Engine.report, heq, Option.some.injEq, Prod.mk.injEq] at hrep
        obtain ⟨-, rfl⟩ := hrep
        exact hab.isSome_eq

theorem RestoresNone.report (hr : RestoresNone g e) (hb : Books e t orphans) {c : Call}
    {rep : Report} (hrep : e.report c = some (rep, e')) :
    RestoresNone (StateTrace.see m g e c rep) e' := by
  have hoff := (hb.cacheManager_report hrep).trans hr.off
  cases c with
  | addRequest args =>
      cases hfree : e.scheduler.freeSlots with
      | nil =>
          simp only [StateTrace.see, hfree]
          exact ⟨hoff, hr.prompts, hr.log⟩
      | cons row rest =>
          rw [see_added hfree]
          refine ⟨hoff, fun row' => ?_, hr.log⟩
          dsimp only
          by_cases heq : row' = row
          · subst heq
            rw [Function.update_self]
            exact restoreSrc_off hr.off args.inputIds
          · rw [Function.update_of_ne heq]
            exact hr.prompts row'
  | step sampled =>
      simp only [Engine.report] at hrep
      split at hrep
      · rename_i out e1 hstep
        obtain ⟨rfl, rfl⟩ := Prod.mk.inj (Option.some.inj hrep)
        have hrecord : ∀ j, (out.record m g j).restoreSrc = none := fun j => hr.prompts _
        simp only [StateTrace.see]
        cases hphase : out.batch.phase with
        | decode => exact ⟨hoff, hr.prompts, hr.log⟩
        | prefill =>
            refine ⟨hoff, fun row => ?_, fun pr hpr => ?_⟩
            · dsimp only
              split
              · exact hr.prompts row
              · exact hrecord _
            · rcases List.mem_append.mp hpr with hpr | hpr
              · exact hr.log pr hpr
              · obtain ⟨j, -, rfl⟩ := List.mem_map.mp hpr
                exact hrecord j
      · cases hrep
  | abortRequest uid => exact ⟨hoff, hr.prompts, hr.log⟩

/-! ### Runs -/

/-- The watcher of a new engine. -/
def StateTrace.start (m : LinearModel ι σ) : StateTrace σ := { states := fun _ => m.fresh }

/-- In every run of a hybrid engine a prompt that was admitted with a snapshot, and is
through, had it restored right exactly when its uncached part fits into one chunk. -/
theorem restores_right_iff (m : LinearModel ι σ) (hh : config.hybrid = true) {calls : List Call}
    (h : Run.exec (stateNext m) (StateTrace.start m, init config) calls = some (g, e)) :
    ∀ pr ∈ g.log, pr.whole = true → pr.restoreSrc ≠ none →
      (pr.RestoresRight m ↔ pr.inputIds.length - pr.cachedLen ≤ config.maxExtendTokens) := by
  by_cases hc : config.enablePrefixCache = true
  · have hcached : HybridCached config := ⟨hh, hc⟩
    have hall := Run.invariant_of_all (fun x : StateTrace σ × Engine =>
      ∃ t orphans kept, Books x.2 t orphans ∧ LinearBooks config x.2 kept ∧ x.1.past.Tokens x.2 t ∧
        Restores m config.maxExtendTokens x.1 x.2) ?_
      ⟨fun _ => [], [], [], books_init config _, linearBooks_init hcached, ?_, ?_, ?_⟩ h
    · obtain ⟨t, orphans, kept, -, -, -, hr⟩ := hall
      exact hr.judged
    · rintro ⟨g, e⟩ c x ⟨t, orphans, kept, hb, hl, hpast, hr⟩ hx
      obtain ⟨⟨rep, e'⟩, hrep, rfl⟩ := Option.map_eq_some_iff.mp hx
      obtain ⟨t', orphans', hb', hcame⟩ := hb.report hrep
      refine ⟨t', orphans', keep kept e c (rep, e'), hb', hl.report hb hrep, ?_,
        hr.report hb (hl.stateBooks hb.sched) hpast hrep⟩
      dsimp only
      rw [see_past]
      exact hpast.report hb hrep hcame
    · exact fun x hx => absurd hx List.not_mem_nil
    · exact fun p hp => absurd hp List.not_mem_nil
    · exact fun pr hpr => absurd hpr List.not_mem_nil
  · have hall := Run.invariant_of_all (fun x : StateTrace σ × Engine =>
      RestoresNone x.1 x.2 ∧ ∃ t orphans, Books x.2 t orphans) ?_
      ⟨⟨?_, fun _ => rfl, fun pr hpr => absurd hpr List.not_mem_nil⟩,
        fun _ => [], [], books_init config _⟩ h
    · intro pr hpr _ hsrc
      exact absurd (hall.1.log pr hpr) hsrc
    · rintro ⟨g, e⟩ c x ⟨hr, t, orphans, hb⟩ hx
      obtain ⟨⟨rep, e'⟩, hrep, rfl⟩ := Option.map_eq_some_iff.mp hx
      obtain ⟨t', orphans', hb', -⟩ := hb.report hrep
      exact ⟨hr.report hb hrep, t', orphans', hb'⟩
    · simp [init, hc]

/-- Two rows of five tokens, filled one token at a time. -/
def hybridRows : EngineConfig :=
  { hybridRow with
    maxRunningReq := 2
    maxRunningReq_pos := Nat.two_pos
    maxSeqLen := 5
    maxSeqLen_pos := Nat.succ_pos 4
    numPages := 10
    maxExtendTokens := 1
    maxExtendTokens_pos := Nat.one_pos }

/-- A layer whose state is what it has seen. -/
def transcriber : LinearModel Token (List Token) where
  fresh := []
  advance s xs := s ++ xs
  advance_nil := List.append_nil
  advance_append s xs ys := (List.append_assoc s xs ys).symm
  input := lastOf

/-- A tool call leaves the snapshot of `[7, 9]` behind; then another prompt is prefilled. -/
def afterToolcall (ids : List Token) : List Call :=
  toolcall (.step fun _ => 5) ++
    [.addRequest { uid := 1, inputIds := ids, samplingParams := { maxTokens := 1 } },
      .step fun _ => 5, .step fun _ => 5]

/-- The last prompt in the log of a run. -/
def lastPrompt (config : EngineConfig) (calls : List Call) : Option (PromptRun (List Token)) :=
  (Run.exec (stateNext transcriber) (StateTrace.start transcriber, init config) calls).bind
    fun x => x.1.log.getLast?

theorem lastPrompt_run {calls : List Call} {pr : PromptRun (List Token)}
    (h : lastPrompt config calls = some pr) : ∃ g e,
      Run.exec (stateNext transcriber) (StateTrace.start transcriber, init config) calls =
        some (g, e) ∧ pr ∈ g.log := by
  obtain ⟨⟨g, e⟩, hrun, hlast⟩ := Option.bind_eq_some_iff.mp h
  exact ⟨g, e, hrun, List.mem_of_getLast? hlast⟩

/-- The second chunk of the prompt starts from the snapshot again: token 6 is lost. -/
theorem second_chunk_restores : hybridRows.hybrid = true ∧
    ∃ g e pr, Run.exec (stateNext transcriber) (StateTrace.start transcriber, init hybridRows)
        (afterToolcall [7, 9, 6, 8]) = some (g, e) ∧ pr ∈ g.log ∧ pr.whole = true ∧
      pr.inputIds = [7, 9, 6, 8] ∧ pr.restoreSrc = some 5 ∧
      pr.chunks.map ChunkRun.copied = [[5], [5]] ∧
      pr.chunks.map ChunkRun.after = [[7, 9, 6], [7, 9, 8]] ∧ ¬ pr.RestoresRight transcriber := by
  have hlast : lastPrompt hybridRows (afterToolcall [7, 9, 6, 8]) = some
      { inputIds := [7, 9, 6, 8]
        cachedLen := 2
        restoreSrc := some 5
        chunks :=
          [{ tokens := [6], copied := [5], before := [7, 9], after := [7, 9, 6] },
            { tokens := [8], copied := [5], before := [7, 9], after := [7, 9, 8] }]
        whole := true } := by decide +kernel
  obtain ⟨g, e, hrun, hmem⟩ := lastPrompt_run hlast
  exact ⟨by decide, g, e, _, hrun, hmem, rfl, rfl, rfl, rfl, rfl,
    fun h => absurd h.1.tail (by decide)⟩

/-- One token after the snapshot is one chunk. -/
theorem one_chunk_restores : ∃ g e pr,
    Run.exec (stateNext transcriber) (StateTrace.start transcriber, init hybridRows)
        (afterToolcall [7, 9, 6]) = some (g, e) ∧ pr ∈ g.log ∧ pr.restoreSrc = some 5 ∧
      pr.RestoresRight transcriber := by
  have hlast : lastPrompt hybridRows (afterToolcall [7, 9, 6]) = some
      { inputIds := [7, 9, 6]
        cachedLen := 2
        restoreSrc := some 5
        chunks := [{ tokens := [6], copied := [5], before := [7, 9], after := [7, 9, 6] }]
        whole := true } := by decide +kernel
  obtain ⟨g, e, hrun, hmem⟩ := lastPrompt_run hlast
  have hh : hybridRows.hybrid = true := by decide
  exact ⟨g, e, _, hrun, hmem, rfl,
    (restores_right_iff transcriber hh hrun _ hmem rfl (by decide)).mpr (by decide)⟩

end Engine

end FreeToken
