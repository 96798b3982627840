import FreeToken.Engine.StepTotal
import FreeToken.Engine.Generate
import FreeToken.Scheduler.Progress
import FreeToken.Lib.Except
import Mathlib.Algebra.Order.BigOperators.Group.List
import Mathlib.Algebra.Order.Ring.Nat

/-!
# The default step budget

`generate` gives each prompt as many steps as it has chunks, and one for each output token. A
step with a batch always takes one of them from a request that `generate` runs: the first of a
prefill batch gets a whole chunk or the rest of its prompt, and a decode step a token for each
request. So the loop ends with every request answered.
-/

namespace FreeToken

/-! ### The first request of a pass -/

theorem admitLoop_first {req : Req} {reqs : List Req} : ∀ {queue : List PendingReq} {a : PrefillAdder}
    {oid : Nat}, (admitLoop a oid queue).reqs = req :: reqs →
    ∃ p ∈ queue, ∃ a', a.tryAddOne oid p = (some req, a')
  | [], _, _, h => by cases h
  | p :: ps, a, oid, h => by
      cases htry : a.tryAddOne oid p with
      | mk found a' =>
          cases found with
          | some req' =>
              rw [(admitLoop_cons_some htry ps).1, List.cons.injEq] at h
              exact ⟨p, List.mem_cons_self, a', by rw [htry, h.1]⟩
          | none =>
              by_cases hfresh : p.chunkedReq = none
              · rw [(admitLoop_cons_none htry hfresh ps).1] at h
                obtain ⟨q, hq, found⟩ := admitLoop_first h
                exact ⟨q, List.mem_cons_of_mem p hq, found⟩
              · rw [admitLoop_stop htry hfresh] at h
                cases h

namespace Scheduler

variable {s s1 s' : Scheduler} {batch : Batch}

theorem SameLimits.trans (h : SameLimits s s1) (h' : SameLimits s1 s') : SameLimits s s' where
  maxRunningReq_eq := h'.maxRunningReq_eq.trans h.maxRunningReq_eq
  maxExtendTokens_eq := h'.maxExtendTokens_eq.trans h.maxExtendTokens_eq
  maxPages_eq := h'.maxPages_eq.trans h.maxPages_eq
  cacheBudget_eq := h'.cacheBudget_eq.trans h.cacheBudget_eq
  prefill_eq := ⟨h'.prefill_eq.1.trans h.prefill_eq.1, h'.prefill_eq.2.trans h.prefill_eq.2⟩

/-- The first request of a prefill batch is a whole chunk, or ends its prompt. -/
theorem first_chunk (hs : s.Ok) (hne : ∀ p ∈ s.pendingList, p.inputIds ≠ [])
    (h : s.schedule = some (batch, s1)) (hphase : batch.phase = .prefill) :
    ∃ req ∈ batch.reqs, req.chunked = true → req.extendLen = s.maxExtendTokens := by
  obtain ⟨hpass, hreqs, -⟩ := schedule_prefill h hphase
  obtain ⟨req, reqs, hcons⟩ := List.exists_cons_of_ne_nil hpass
  obtain ⟨p, hp, a', htry⟩ := admitLoop_first hcons
  have hadmits := PrefillAdder.tryAddOne_admits htry (hs.pending_ok p hp) (hne p hp)
  refine ⟨req, by rw [hreqs, hcons]; exact List.mem_cons_self, fun hc => ?_⟩
  have hspent := hadmits.chunked hc
  rw [hadmits.tokenBudget_eq] at hspent
  change (s.maxExtendTokens : Int) - req.extendLen = 0 at hspent
  omega

/-! ### Rows name requests -/

theorem Ok.pending_of_row (hs : s.Ok) {q q' : PendingReq} (hq : q ∈ s.pendingList)
    (hq' : q' ∈ s.pendingList) (hrow : q.tableIdx = q'.tableIdx) : q = q' :=
  List.inj_on_of_nodup_map hs.pending_rows_nodup hq hq' hrow

theorem Ok.running_of_row (hs : s.Ok) {r r' : Req} (hr : r ∈ s.runningReqs)
    (hr' : r' ∈ s.runningReqs) (hrow : r.tableIdx = r'.tableIdx) : r = r' :=
  List.inj_on_of_nodup_map hs.running_rows_nodup hr hr' hrow

theorem Ok.rows_ne (hs : s.Ok) {q : PendingReq} {r : Req} (hq : q ∈ s.pendingList)
    (hr : r ∈ s.runningReqs) : q.tableIdx ≠ r.tableIdx := by
  have hn := hs.seat_rows_nodup
  rw [seats, List.map_append, map_row_seat_pending, map_row_seat_running] at hn
  intro hrow
  exact List.disjoint_of_nodup_append hn (List.mem_map_of_mem hq) (hrow ▸ List.mem_map_of_mem hr)

end Scheduler

namespace Engine

variable {e e' : Engine} {t : Transcript} {orphans : List RadixCacheHandle} {ps : List PendingReq}

/-! ### What became of a live request -/

namespace StepRun

variable {sampled : Nat → Token} {out : StepOutput} {s1 : Scheduler} {e2 : Engine}

variable (h : StepRun e sampled out e' s1 e2)
include h

theorem exists_round_of_mem {req : Req} (hreq : req ∈ out.batch.reqs) : ∃ x ∈ rounds out, x.2 = req := by
  rw [← h.map_snd_rounds] at hreq
  exact List.mem_map.mp hreq

/-- A batch names a row once. -/
theorem round_unique (hs : e.scheduler.Ok) {x y : Token × Req} (hx : x ∈ rounds out)
    (hy : y ∈ rounds out) (hrow : x.2.tableIdx = y.2.tableIdx) : x = y :=
  List.inj_on_of_nodup_map (h.rounds_rows_nodup hs) hx hy hrow

theorem row_mem_batch {x : Token × Req} (hx : x ∈ rounds out) :
    x.2.tableIdx ∈ out.batch.reqs.map Req.tableIdx := List.mem_map_of_mem (h.mem_batch hx)

omit h in
theorem seat_roundOf (x : Token × Req) : (e.roundOf out.batch.phase x).2.seat = x.2.seat :=
  (rounded e out.batch.phase x).seat_eq

/-- Where the seat of a request of the batch is after the step. -/
theorem seat_cases (hs : e.scheduler.Ok) {x : Token × Req} (hx : x ∈ rounds out)
    (hseat : x.2.seat ∈ e.scheduler.seats) :
    (x.2.chunked = true ∧ ∃ p0 ∈ e.scheduler.pendingList, p0.seat = x.2.seat ∧
      { p0 with chunkedReq := some x.2 } ∈ e'.scheduler.pendingList) ∨
    (x.2.chunked = false ∧ (e.roundOf out.batch.phase x).2 ∈ e'.scheduler.runningReqs ∧
      (e.roundOf out.batch.phase x).2.aborted = false) ∨
    (x.2.chunked = false ∧ (e.roundOf out.batch.phase x).2 ∈ out.finished) := by
  have hstep := h.stepped hs
  have hrow := h.row_mem_batch hx
  -- a round of the same row is this one
  have hsame : ∀ y ∈ rounds out, (e.roundOf out.batch.phase y).2.seat = x.2.seat → y = x :=
    fun y hy heq => h.round_unique hs hy hx (congrArg Seat.row ((seat_roundOf y).symm.trans heq))
  have hmem := hstep.seats_perm.mem_iff.mp hseat
  rw [h.finishedIn_eq, Scheduler.seats, List.mem_append, List.mem_append] at hmem
  rcases hmem with (hmem | hmem) | hmem
  · obtain ⟨q, hq, hqseat⟩ := List.mem_map.mp hmem
    have hqrow : q.tableIdx = x.2.tableIdx := congrArg Seat.row hqseat
    rcases hstep.pending q hq with ⟨-, hnot⟩ | ⟨p0, hp0, req, hreq, -, hext, hc, rfl⟩
    · exact absurd (hqrow ▸ hrow) hnot
    · obtain ⟨y, hy, rfl⟩ := h.exists_round_of_mem hreq
      have hp0seat : p0.seat = x.2.seat := hqseat
      obtain rfl := h.round_unique hs hy hx (congrArg Seat.row (hext.seat_eq.trans hp0seat))
      exact .inl ⟨hc, p0, hp0, hp0seat, hq⟩
  · obtain ⟨r, hr, hrseat⟩ := List.mem_map.mp hmem
    rcases hstep.running r hr with ⟨-, hnot⟩ | ⟨z, hz, rfl, hc, hgoing⟩
    · have hrrow : r.tableIdx = x.2.tableIdx := congrArg Seat.row hrseat
      exact absurd (hrrow ▸ hrow) hnot
    · obtain ⟨y, hy, rfl⟩ := List.mem_map.mp hz
      obtain rfl := hsame y hy hrseat
      rw [(rounded e out.batch.phase y).chunked_eq] at hc
      exact .inr (.inl ⟨hc, hr, hgoing⟩)
  · obtain ⟨f, hf, hfseat⟩ := List.mem_map.mp hmem
    have hf' := hf
    rw [h.finished_eq, h.reqs_eq', finishedOf, List.mem_filter] at hf'
    obtain ⟨z, hz, rfl⟩ := List.mem_map.mp hf'.1
    obtain ⟨y, hy, rfl⟩ := List.mem_map.mp hz
    obtain rfl := hsame y hy hfseat
    have hc := (Bool.and_eq_true_iff.mp hf'.2).1
    rw [(rounded e out.batch.phase y).chunked_eq, Bool.not_eq_true'] at hc
    exact .inr (.inr ⟨hc, hf⟩)

/-- What is not in the batch waits. -/
theorem waits (hs : e.scheduler.Ok) {seat : Seat} (hseat : seat ∈ e.scheduler.seats)
    (hrow : seat.row ∉ out.batch.reqs.map Req.tableIdx) :
    (∃ q ∈ e'.scheduler.pendingList, q ∈ e.scheduler.pendingList ∧ q.seat = seat) ∨
      ∃ r ∈ e'.scheduler.runningReqs, r ∈ e.scheduler.runningReqs ∧ r.seat = seat := by
  have hstep := h.stepped hs
  have hmem := hstep.seats_perm.mem_iff.mp hseat
  rw [h.finishedIn_eq, Scheduler.seats, List.mem_append, List.mem_append] at hmem
  rcases hmem with (hmem | hmem) | hmem
  · obtain ⟨q, hq, rfl⟩ := List.mem_map.mp hmem
    rcases hstep.pending q hq with ⟨hq0, -⟩ | ⟨p0, hp0, req, hreq, -, hext, -, rfl⟩
    · exact .inl ⟨q, hq, hq0, rfl⟩
    · refine absurd (List.mem_map.mpr ⟨req, hreq, ?_⟩) hrow
      exact congrArg Seat.row hext.seat_eq
  · obtain ⟨r, hr, rfl⟩ := List.mem_map.mp hmem
    rcases hstep.running r hr with ⟨hr0, -⟩ | ⟨z, hz, rfl, -, -⟩
    · exact .inr ⟨r, hr, hr0, rfl⟩
    · obtain ⟨y, hy, rfl⟩ := List.mem_map.mp hz
      rw [seat_roundOf] at hrow
      exact absurd (h.row_mem_batch hy) hrow
  · obtain ⟨f, hf, rfl⟩ := List.mem_map.mp hmem
    rw [h.finished_eq, h.reqs_eq', finishedOf, List.mem_filter] at hf
    obtain ⟨z, hz, rfl⟩ := List.mem_map.mp hf.1
    obtain ⟨y, hy, rfl⟩ := List.mem_map.mp hz
    rw [seat_roundOf] at hrow
    exact absurd (h.row_mem_batch hy) hrow

/-- After its round a request runs on or is gone. -/
def Fate (e : Engine) (out : StepOutput) (e' : Engine) (x : Token × Req) : Prop :=
  ((e.roundOf out.batch.phase x).2 ∈ e'.scheduler.runningReqs ∧
      (e.roundOf out.batch.phase x).2.aborted = false) ∨
    (x.2.tableIdx ∉ e'.scheduler.seats.map Seat.row ∧
      (e.roundOf out.batch.phase x).2.aborted = true)

theorem gone_of_finished (hs : e.scheduler.Ok) {x : Token × Req}
    (hf : (e.roundOf out.batch.phase x).2 ∈ out.finished) : Fate e out e' x := by
  refine .inr ⟨fun hmem => ?_, ?_⟩
  · have hrow : x.2.tableIdx ∈ out.finished.map Req.tableIdx :=
      List.mem_map.mpr ⟨_, hf, congrArg Seat.row (seat_roundOf x)⟩
    exact List.disjoint_of_nodup_append (h.finished_rows_nodup hs) hmem hrow
  · rw [h.finished_eq, finishedOf, List.mem_filter] at hf
    exact (Bool.and_eq_true_iff.mp hf.2).2

/-- A queued request waits, is extended by a chunk, or gets its first token. -/
theorem pending_fate (hs : e.scheduler.Ok) {q : PendingReq} (hq : q ∈ e.scheduler.pendingList) :
    (q.tableIdx ∉ out.batch.reqs.map Req.tableIdx ∧ q ∈ e'.scheduler.pendingList) ∨
      ∃ x ∈ rounds out, out.batch.phase = .prefill ∧ Extends e.scheduler.maxExtendTokens q x.2 ∧
        ((x.2.chunked = true ∧ { q with chunkedReq := some x.2 } ∈ e'.scheduler.pendingList) ∨
          (x.2.chunked = false ∧ Fate e out e' x)) := by
  have hstep := h.stepped hs
  have hseat : q.seat ∈ e.scheduler.seats := List.mem_append_left _ (List.mem_map_of_mem hq)
  by_cases hrow : q.tableIdx ∈ out.batch.reqs.map Req.tableIdx
  · right
    obtain ⟨req, hreq, hreqrow⟩ := List.mem_map.mp hrow
    obtain ⟨x, hx, rfl⟩ := h.exists_round_of_mem hreq
    rcases hstep.origin x.2 hreq with ⟨hphase, p0, hp0, hext⟩ | ⟨-, hrun⟩
    · have hp0row : p0.tableIdx = q.tableIdx :=
        (congrArg Seat.row hext.seat_eq).symm.trans hreqrow
      obtain rfl := hs.pending_of_row hp0 hq hp0row
      refine ⟨x, hx, hphase, hext, ?_⟩
      rcases h.seat_cases hs hx (hext.seat_eq ▸ hseat) with
        ⟨hc, p1, hp1, hp1seat, hmem⟩ | ⟨hc, hrun, hgoing⟩ | ⟨hc, hf⟩
      · obtain rfl := hs.pending_of_row hp1 hp0
          (congrArg Seat.row (hp1seat.trans hext.seat_eq))
        exact .inl ⟨hc, hmem⟩
      · exact .inr ⟨hc, .inl ⟨hrun, hgoing⟩⟩
      · exact .inr ⟨hc, h.gone_of_finished hs hf⟩
    · exact absurd hreqrow.symm (hs.rows_ne hq hrun)
  · left
    refine ⟨hrow, ?_⟩
    rcases h.waits hs hseat hrow with ⟨q', hq', hq0, hseat'⟩ | ⟨r, -, hr0, hseat'⟩
    · rwa [← hs.pending_of_row hq0 hq (congrArg Seat.row hseat')]
    · exact absurd (congrArg Seat.row hseat').symm (hs.rows_ne hq hr0)

/-- A running request waits for its turn, or gets a token. -/
theorem running_fate (hs : e.scheduler.Ok) {r : Req} (hr : r ∈ e.scheduler.runningReqs) :
    (r.tableIdx ∉ out.batch.reqs.map Req.tableIdx ∧ r ∈ e'.scheduler.runningReqs) ∨
      ∃ x ∈ rounds out, out.batch.phase = .decode ∧ x.2 = r ∧ Fate e out e' x := by
  have hstep := h.stepped hs
  have hseat : r.seat ∈ e.scheduler.seats := List.mem_append_right _ (List.mem_map_of_mem hr)
  by_cases hrow : r.tableIdx ∈ out.batch.reqs.map Req.tableIdx
  · right
    obtain ⟨req, hreq, hreqrow⟩ := List.mem_map.mp hrow
    obtain ⟨x, hx, rfl⟩ := h.exists_round_of_mem hreq
    rcases hstep.origin x.2 hreq with ⟨-, p0, hp0, hext⟩ | ⟨hphase, hrun⟩
    · exact absurd ((congrArg Seat.row hext.seat_eq).symm.trans hreqrow) (hs.rows_ne hp0 hr)
    · obtain rfl := hs.running_of_row hrun hr hreqrow
      refine ⟨x, hx, hphase, rfl, ?_⟩
      rcases h.seat_cases hs hx hseat with ⟨-, p1, hp1, hp1seat, -⟩ | ⟨-, hrun, hgoing⟩ | ⟨-, hf⟩
      · exact absurd (congrArg Seat.row hp1seat) (hs.rows_ne hp1 hr)
      · exact .inl ⟨hrun, hgoing⟩
      · exact h.gone_of_finished hs hf
  · left
    refine ⟨hrow, ?_⟩
    rcases h.waits hs hseat hrow with ⟨q, -, hq0, hseat'⟩ | ⟨r', hr', hr0, hseat'⟩
    · exact absurd (congrArg Seat.row hseat') (hs.rows_ne hq0 hr)
    · rwa [← hs.running_of_row hr0 hr (congrArg Seat.row hseat')]

end StepRun

/-! ### What is due to a request -/

/-- No token so far ends the answer. -/
def Unstopped (eosTokenId : Int) (params : SamplingParams) (tokens : List Token) : Prop :=
  params.ignoreEos = false → ∀ tok ∈ tokens, (tok : Int) ≠ eosTokenId

/-- An answer ends with its first end token, unless that is ignored, or has the length that
was asked for. -/
structure IsAnswer (eosTokenId : Int) (params : SamplingParams) (tokens : List Token) : Prop where
  first : Unstopped eosTokenId params tokens.dropLast
  ends : (tokens.length : Int) = params.maxTokens ∨
    (params.ignoreEos = false ∧ (tokens.length : Int) ≤ params.maxTokens ∧
      ∃ tok, tokens.getLast? = some tok ∧ (tok : Int) = eosTokenId)

/-- The request that was queued as `p` has got these tokens, and at most `n` steps take one
of its turns. -/
inductive Due (eosTokenId : Int) (s : Scheduler) (p : PendingReq) (tokens : List Token) (n : Nat) :
    Prop where
  | queued (q : PendingReq) (hq : q ∈ s.pendingList) (hseat : q.seat = p.seat)
      (hids : q.inputIds = p.inputIds) (hparams : q.samplingParams = p.samplingParams)
      (htokens : tokens = []) (hn : n = ceilDiv q.rest s.maxExtendTokens + p.outputLen.toNat)
  | running (r : Req) (hr : r ∈ s.runningReqs) (hseat : r.seat = p.seat)
      (hparams : r.samplingParams = p.samplingParams)
      (hmax : r.maxDeviceLen = p.inputLen + p.outputLen.toNat)
      (hlen : r.deviceLen = p.inputLen + tokens.length)
      (hopen : Unstopped eosTokenId p.samplingParams tokens)
      (hn : n = r.maxDeviceLen - r.deviceLen)
  | answered (hgone : p.tableIdx ∉ s.seats.map Seat.row)
      (hanswer : IsAnswer eosTokenId p.samplingParams tokens) (hn : n = 0)

theorem Unstopped.concat {eosTokenId : Int} {params : SamplingParams} {tokens : List Token}
    (h : Unstopped eosTokenId params tokens) {tok : Token}
    (htok : params.ignoreEos = false → (tok : Int) ≠ eosTokenId) :
    Unstopped eosTokenId params (tokens ++ [tok]) := by
  intro hign x hx
  rcases List.mem_append.mp hx with hx | hx
  · exact h hign x hx
  · rw [List.mem_singleton.mp hx]
    exact htok hign

theorem ceilDiv_mono {a b : Int} {M : Nat} (hM : 0 < M) (h : a ≤ b) : ceilDiv a M ≤ ceilDiv b M := by
  have hdiv := Int.ediv_le_ediv (Int.natCast_pos.mpr hM) (Int.neg_le_neg h)
  rw [ceilDiv, ceilDiv]
  omega

/-- A whole chunk is one of the slices that are left. -/
theorem ceilDiv_sub {a : Int} {M : Nat} (hM : 0 < M) (h : (M : Int) < a) :
    ceilDiv (a - M) M < ceilDiv a M := by
  have hM' : (0 : Int) < M := Int.natCast_pos.mpr hM
  have hneg : -(a - M) / (M : Int) = -a / (M : Int) + 1 := by
    have hsub : -(a - (M : Int)) = -a + 1 * M := by omega
    rw [hsub, Int.add_mul_ediv_right _ _ hM'.ne']
  have hlt : -a / (M : Int) < -1 + 1 - 0 := by
    rw [Int.ediv_lt_iff_lt_mul hM']
    omega
  rw [ceilDiv, ceilDiv, hneg]
  omega

theorem filter_key {α : Type} (f : α → Nat) : ∀ {l : List α}, (l.map f).Nodup → ∀ x ∈ l,
    l.filter (fun y => decide (f y = f x)) = [x]
  | [], _, _, hx => by cases hx
  | a :: l, hn, x, hx => by
      obtain ⟨hnot, hn⟩ := List.nodup_cons.mp hn
      rcases List.mem_cons.mp hx with rfl | hx
      · rw [List.filter_cons_of_pos (by simp), List.filter_eq_nil_iff.mpr]
        intro y hy heq
        exact hnot (List.mem_map.mpr ⟨y, hy, of_decide_eq_true heq⟩)
      · have hne : f a ≠ f x := fun heq => hnot (heq ▸ List.mem_map_of_mem hx)
        rw [List.filter_cons_of_neg (by simpa using hne)]
        exact filter_key f hn x hx

namespace StepRun

variable {sampled : Nat → Token} {out : StepOutput} {s1 : Scheduler} {e2 : Engine}

variable (h : StepRun e sampled out e' s1 e2)
include h

omit h in
theorem zip_eq_rounds : out.batch.reqs.zip out.nextTokenIds = (rounds out).map Prod.swap :=
  (List.zip_swap _ _).symm

theorem sampledFor_of_notMem {p : PendingReq} (hrow : p.tableIdx ∉ out.batch.reqs.map Req.tableIdx) :
    sampledFor p out = [] := by
  rw [sampledFor, zip_eq_rounds, List.filter_eq_nil_iff.mpr, List.map_nil]
  intro x hx hsel
  obtain ⟨y, hy, rfl⟩ := List.mem_map.mp hx
  exact hrow ((of_decide_eq_true hsel).1 ▸ h.row_mem_batch hy)

theorem sampledFor_of_mem (hs : e.scheduler.Ok) {p : PendingReq} {x : Token × Req}
    (hx : x ∈ rounds out) (hrow : x.2.tableIdx = p.tableIdx) :
    sampledFor p out = if Emits p.inputLen out.batch.phase x.2 then [x.1] else [] := by
  have honly : ((rounds out).map Prod.swap).filter
      (fun y : Req × Token => decide (y.1.tableIdx = p.tableIdx)) = [x.swap] := by
    have hn : (((rounds out).map Prod.swap).map fun y => y.1.tableIdx).Nodup := by
      rw [List.map_map]
      exact h.rounds_rows_nodup hs
    have := filter_key (fun y : Req × Token => y.1.tableIdx) hn x.swap (List.mem_map_of_mem hx)
    rwa [Prod.fst_swap, hrow] at this
  have hsplit : ∀ y : Req × Token,
      decide (y.1.tableIdx = p.tableIdx ∧ Emits p.inputLen out.batch.phase y.1) =
        (decide (Emits p.inputLen out.batch.phase y.1) && decide (y.1.tableIdx = p.tableIdx)) := by
    intro y
    rw [Bool.decide_and, Bool.and_comm]
  rw [sampledFor, zip_eq_rounds]
  simp only [hsplit]
  rw [← List.filter_filter, honly]
  by_cases hem : Emits p.inputLen out.batch.phase x.2 <;> simp [hem]

omit h in
/-- A request that got a token runs on, or its answer is whole. -/
theorem due_of_fate {p : PendingReq} {tokens : List Token} {x : Token × Req}
    (hfate : Fate e out e' x) (hchunked : x.2.chunked = false) (hnot : x.2.aborted = false)
    (hseat : x.2.seat = p.seat) (hparams : x.2.samplingParams = p.samplingParams)
    (hmax : x.2.maxDeviceLen = p.inputLen + p.outputLen.toNat)
    (hlen : x.2.deviceLen = p.inputLen + tokens.length)
    (hlt : x.2.deviceLen < x.2.maxDeviceLen)
    (hopen : Unstopped e.config.eosTokenId p.samplingParams tokens) :
    ∃ n, n < x.2.maxDeviceLen - x.2.deviceLen ∧
      Due e.config.eosTokenId e'.scheduler p (tokens ++ [x.1]) n := by
  have hround := rounded e out.batch.phase x
  obtain ⟨hdev, -, haborted⟩ := hround.sampled hchunked
  rw [hnot] at haborted
  simp only [Bool.false_eq_true, false_or] at haborted
  rcases hfate with ⟨hrun, hgoing⟩ | ⟨hgone, hdone⟩
  · have hgo : ¬ x.2.Stops e.config.eosTokenId x.1 := by
      rw [← haborted, hgoing]
      exact Bool.false_ne_true
    refine ⟨_, ?_, .running _ hrun (hround.seat_eq.trans hseat)
      (hround.samplingParams_eq.trans hparams) (hround.maxDeviceLen_eq.trans hmax) ?_
      (hopen.concat fun hign heos => hgo (.inl ⟨heos, hparams ▸ hign⟩)) rfl⟩
    · rw [hround.maxDeviceLen_eq, hdev]
      omega
    · rw [hdev, hlen, List.length_append]
      rfl
  · have hrow : x.2.tableIdx = p.tableIdx := congrArg Seat.row hseat
    refine ⟨0, by omega, .answered (hrow ▸ hgone) ⟨?_, ?_⟩ rfl⟩
    · rw [List.dropLast_concat]
      exact hopen
    · have hout : (p.samplingParams.maxTokens).toNat = x.2.maxDeviceLen - p.inputLen := by
        rw [hmax, Nat.add_sub_cancel_left]
        rfl
      rcases haborted.mp hdone with ⟨heos, hign⟩ | hfull
      · refine .inr ⟨hparams ▸ hign, ?_, x.1, List.getLast?_concat, heos⟩
        rw [List.length_append, List.length_singleton]
        omega
      · left
        rw [List.length_append, List.length_singleton]
        omega

/-- A step gives nothing twice: what is due to a request does not grow, and shrinks when the
request decodes, ends its prompt or gets a whole chunk. -/
theorem due (hs : e.scheduler.Ok) (hM : 0 < e.scheduler.maxExtendTokens) {p : PendingReq}
    (hout : 1 ≤ p.outputLen) {tokens : List Token} {n : Nat}
    (hdue : Due e.config.eosTokenId e.scheduler p tokens n) :
    ∃ n' ≤ n, Due e.config.eosTokenId e'.scheduler p (tokens ++ sampledFor p out) n' ∧
      ∀ req ∈ out.batch.reqs, req.tableIdx = p.tableIdx →
        (req.chunked = true → req.extendLen = e.scheduler.maxExtendTokens) → n' < n := by
  have hstep := h.stepped hs
  have hM' : e'.scheduler.maxExtendTokens = e.scheduler.maxExtendTokens :=
    hstep.limits.maxExtendTokens_eq
  cases hdue with
  | queued q hq hseat hids hparams htokens hn =>
      subst htokens
      have hrow : q.tableIdx = p.tableIdx := congrArg Seat.row hseat
      have hlenq : q.inputLen = p.inputLen := congrArg List.length hids
      rcases h.pending_fate hs hq with ⟨hnot, hmem⟩ | ⟨x, hx, hphase, hext, hx'⟩
      · rw [hrow] at hnot
        rw [h.sampledFor_of_notMem hnot]
        exact ⟨n, Nat.le_refl n, .queued q hmem hseat hids hparams rfl (hM' ▸ hn),
          fun req hreq heq => absurd (heq ▸ List.mem_map_of_mem hreq) hnot⟩
      have hxrow : x.2.tableIdx = p.tableIdx :=
        (congrArg Seat.row hext.seat_eq).trans hrow
      have hone : ∀ req ∈ out.batch.reqs, req.tableIdx = p.tableIdx → req = x.2 := by
        intro req hreq heq
        obtain ⟨y, hy, rfl⟩ := h.exists_round_of_mem hreq
        rw [h.round_unique hs hy hx (heq.trans hxrow.symm)]
      have hle := hext.deviceLen_le
      have hgrow := hext.processed_lt
      have hchunked := hext.chunked_eq
      rw [h.sampledFor_of_mem hs hx hxrow]
      rcases hx' with ⟨hc, hmem⟩ | ⟨hc, hfate⟩
      · rw [hc, eq_comm, decide_eq_true_eq] at hchunked
        have hno : ¬ Emits p.inputLen out.batch.phase x.2 := by
          rintro (heq | heq)
          · rw [hphase] at heq
            cases heq
          · omega
        rw [if_neg hno]
        have hrest : PendingReq.rest { q with chunkedReq := some x.2 } ≤ q.rest := by
          change (q.inputLen : Int) - x.2.deviceLen ≤ q.inputLen - q.processed
          omega
        refine ⟨_, ?_, .queued _ hmem hseat hids hparams rfl rfl, fun req hreq heq hwhole => ?_⟩
        · have := ceilDiv_mono hM hrest
          rw [hM', hn]
          omega
        · obtain rfl := hone req hreq heq
          have hcut := hwhole hc
          rw [Req.extendLen, hext.cachedLen_eq] at hcut
          have hrest' : PendingReq.rest { q with chunkedReq := some x.2 } =
              q.rest - e.scheduler.maxExtendTokens := by
            change (q.inputLen : Int) - x.2.deviceLen = q.inputLen - q.processed - _
            omega
          have := ceilDiv_sub (a := q.rest) hM (by
            change (e.scheduler.maxExtendTokens : Int) < q.inputLen - q.processed
            omega)
          rw [hM', hn, hrest']
          omega
      · rw [hc, eq_comm, decide_eq_false_iff_not] at hchunked
        have hend : x.2.deviceLen = q.inputLen := by omega
        rw [if_pos (.inr (hend.trans hlenq))]
        have hmax := hext.maxDeviceLen_eq
        have houtq : q.outputLen = p.outputLen := congrArg SamplingParams.maxTokens hparams
        rw [houtq] at hmax
        have hopen : Unstopped e.config.eosTokenId p.samplingParams [] := fun _ _ hmem => by
          cases hmem
        obtain ⟨n', hn', hdue'⟩ := due_of_fate hfate hc hext.not_aborted
          (hext.seat_eq.trans hseat) (hext.samplingParams_eq.trans hparams)
          (by omega) (by simp only [List.length_nil]; omega) (by omega) hopen
        exact ⟨n', by omega, hdue', fun _ _ _ _ => by omega⟩
  | running r hr hseat hparams hmax hlen hopen hn =>
      have hrow : r.tableIdx = p.tableIdx := congrArg Seat.row hseat
      rcases h.running_fate hs hr with ⟨hnot, hmem⟩ | ⟨x, hx, hphase, rfl, hfate⟩
      · rw [hrow] at hnot
        rw [h.sampledFor_of_notMem hnot, List.append_nil]
        exact ⟨n, Nat.le_refl n, .running r hmem hseat hparams hmax hlen hopen hn,
          fun req hreq heq => absurd (heq ▸ List.mem_map_of_mem hreq) hnot⟩
      · have hrunning := hs.running_ok _ hr
        rw [h.sampledFor_of_mem hs hx hrow, if_pos (.inl hphase)]
        obtain ⟨n', hn', hdue'⟩ := due_of_fate hfate hrunning.not_chunked hrunning.not_aborted hseat
          hparams hmax hlen hrunning.lt_maxDeviceLen hopen
        exact ⟨n', by omega, hdue', fun _ _ _ _ => by omega⟩
  | answered hgone hanswer hn =>
      have hnot : p.tableIdx ∉ out.batch.reqs.map Req.tableIdx := by
        intro hmem
        obtain ⟨req, hreq, hrow⟩ := List.mem_map.mp hmem
        refine hgone (hrow ▸ ?_)
        rcases hstep.origin req hreq with ⟨-, p0, hp0, hext⟩ | ⟨-, hrun⟩
        · exact List.mem_map.mpr ⟨p0.seat, List.mem_append_left _ (List.mem_map_of_mem hp0),
            (congrArg Seat.row hext.seat_eq).symm⟩
        · exact List.mem_map.mpr ⟨req.seat, List.mem_append_right _ (List.mem_map_of_mem hrun), rfl⟩
      rw [h.sampledFor_of_notMem hnot, List.append_nil]
      refine ⟨n, Nat.le_refl n, .answered (fun hmem => hgone ?_) hanswer hn,
        fun req hreq heq => absurd (heq ▸ List.mem_map_of_mem hreq) hnot⟩
      rw [(hstep.seats_perm.map Seat.row).mem_iff, List.map_append]
      exact List.mem_append_left _ hmem

end StepRun

/-! ### The loop -/

/-- A request that the engine can serve: something to process, something to sample, and room
for both. -/
structure Servable (e : Engine) (p : PendingReq) : Prop where
  prompt : p.inputIds ≠ []
  output : 1 ≤ p.outputLen
  row : (p.inputLen : Int) + p.outputLen ≤ e.config.maxSeqLen
  cache : (p.inputLen : Int) + p.outputLen ≤ e.scheduler.prefillManager.cacheBudget

/-- The engine serves the requests `ps` and no others: what they got, and what is due. -/
structure Serving (ps : List PendingReq) (e : Engine) (got : PendingReq → List Token)
    (left : PendingReq → Nat) : Prop where
  books : ∃ t orphans, Books e t orphans
  tracks : Tracks ps e
  servable : ∀ p ∈ ps, Servable e p
  rows : 0 < e.scheduler.prefillManager.maxRunningReq
  due : ∀ p ∈ ps, Due e.config.eosTokenId e.scheduler p (got p) (left p)

namespace Serving

variable {got : PendingReq → List Token} {left : PendingReq → Nat}

theorem chunk_pos (h : Serving ps e got left) : 0 < e.scheduler.maxExtendTokens := by
  obtain ⟨t, orphans, hb⟩ := h.books
  rw [hb.maxExtendTokens_eq]
  exact e.config.maxExtendTokens_pos

/-- A queued entry is one of the requests. -/
theorem pending (h : Serving ps e got left) {q : PendingReq} (hq : q ∈ e.scheduler.pendingList) :
    ∃ p ∈ ps, q.inputIds = p.inputIds ∧ q.samplingParams = p.samplingParams := by
  obtain ⟨t, orphans, hb⟩ := h.books
  obtain ⟨p, hp, hseat, -⟩ := h.tracks.pending q hq
  have hrow : q.tableIdx = p.tableIdx := congrArg Seat.row hseat
  refine ⟨p, hp, ?_⟩
  cases h.due p hp with
  | queued q' hq' hseat' hids hparams =>
      rw [hb.sched.pending_of_row hq hq' (congrArg Seat.row (hseat.trans hseat'.symm))]
      exact ⟨hids, hparams⟩
  | running r hr hseat' =>
      exact absurd (congrArg Seat.row (hseat.trans hseat'.symm)) (hb.sched.rows_ne hq hr)
  | answered hgone =>
      refine absurd (List.mem_map.mpr ⟨q.seat, ?_, hrow⟩) hgone
      exact List.mem_append_left _ (List.mem_map_of_mem hq)

theorem running (h : Serving ps e got left) {r : Req} (hr : r ∈ e.scheduler.runningReqs) :
    ∃ p ∈ ps, r.maxDeviceLen = p.inputLen + p.outputLen.toNat ∧ p.inputLen ≤ r.deviceLen := by
  obtain ⟨t, orphans, hb⟩ := h.books
  obtain ⟨p, hp, hseat⟩ := h.tracks.running r hr
  have hrow : r.tableIdx = p.tableIdx := congrArg Seat.row hseat
  refine ⟨p, hp, ?_⟩
  cases h.due p hp with
  | queued q hq hseat' =>
      exact absurd (congrArg Seat.row (hseat'.trans hseat.symm)) (hb.sched.rows_ne hq hr)
  | running r' hr' hseat' _ hmax hlen =>
      rw [hb.sched.running_of_row hr hr' (congrArg Seat.row (hseat.trans hseat'.symm))]
      exact ⟨hmax, by omega⟩
  | answered hgone =>
      refine absurd (List.mem_map.mpr ⟨r.seat, ?_, hrow⟩) hgone
      exact List.mem_append_right _ (List.mem_map_of_mem hr)

theorem rowsFit (h : Serving ps e got left) : RowsFit e where
  prompts := fun q hq => by
    obtain ⟨p, hp, hids, -⟩ := h.pending hq
    rw [hids]
    exact (h.servable p hp).prompt
  pending_le := fun q hq => by
    obtain ⟨p, hp, hids, -⟩ := h.pending hq
    obtain ⟨-, hout, hrow, -⟩ := h.servable p hp
    have hlen : q.inputLen = p.inputLen := congrArg List.length hids
    omega
  running_le := fun r hr => by
    obtain ⟨p, hp, hmax, hlen⟩ := h.running hr
    obtain ⟨hprompt, hout, hrow, -⟩ := h.servable p hp
    have hpos : 0 < p.inputLen := List.length_pos_iff.mpr hprompt
    omega

theorem live (h : Serving ps e got left) : e.scheduler.Live := by
  obtain ⟨t, orphans, hb⟩ := h.books
  refine ⟨hb.sched, h.rows, h.chunk_pos, h.rowsFit.prompts, fun q hq hfresh => ?_⟩
  obtain ⟨p, hp, hids, hparams⟩ := h.pending hq
  obtain ⟨hprompt, hout, -, hcache⟩ := h.servable p hp
  have hlen : q.inputLen = p.inputLen := congrArg List.length hids
  have houtq : q.outputLen = p.outputLen := congrArg SamplingParams.maxTokens hparams
  have hcached := ((hb.sched.pending_ok q hq).cachedLen (hids ▸ hprompt)).1
  rw [PendingReq.footprint, PendingReq.rest_fresh hfresh]
  omega

/-- With nothing left, every answer is whole. -/
theorem answers (h : Serving ps e got left) (hp : e.scheduler.pendingList = [])
    (hr : e.scheduler.runningReqs = []) :
    ∀ p ∈ ps, IsAnswer e.config.eosTokenId p.samplingParams (got p) := by
  intro p hmem
  cases h.due p hmem with
  | queued q hq =>
      rw [hp] at hq
      cases hq
  | running r hr' =>
      rw [hr] at hr'
      cases hr'
  | answered _ hanswer => exact hanswer

/-- With nothing due, nothing is left. -/
theorem idle_of_sum_eq_zero (h : Serving ps e got left) (hsum : (ps.map left).sum = 0) :
    e.scheduler.pendingList = [] ∧ e.scheduler.runningReqs = [] := by
  obtain ⟨t, orphans, hb⟩ := h.books
  have hgone : ∀ p ∈ ps, p.tableIdx ∉ e.scheduler.seats.map Seat.row := by
    intro p hp
    have hzero : left p = 0 := List.sum_eq_zero_iff.mp hsum _ (List.mem_map_of_mem hp)
    cases h.due p hp with
    | queued q hq _ _ _ _ hn =>
        have hout := (h.servable p hp).output
        omega
    | running r hr _ _ _ _ _ hn =>
        have hlt := (hb.sched.running_ok r hr).lt_maxDeviceLen
        omega
    | answered hgone => exact hgone
  constructor
  · refine List.eq_nil_iff_forall_not_mem.mpr fun q hq => ?_
    obtain ⟨p, hp, hseat, -⟩ := h.tracks.pending q hq
    exact hgone p hp (List.mem_map.mpr ⟨q.seat, List.mem_append_left _ (List.mem_map_of_mem hq),
      congrArg Seat.row hseat⟩)
  · refine List.eq_nil_iff_forall_not_mem.mpr fun r hr => ?_
    obtain ⟨p, hp, hseat⟩ := h.tracks.running r hr
    exact hgone p hp (List.mem_map.mpr ⟨r.seat, List.mem_append_right _ (List.mem_map_of_mem hr),
      congrArg Seat.row hseat⟩)

/-- A step with a batch takes a turn. -/
theorem step (h : Serving ps e got left) {sampled : Nat → Token} {out : StepOutput} {s1 : Scheduler}
    {e2 : Engine} (hrun : StepRun e sampled out e' s1 e2) :
    ∃ left', Serving ps e' (fun p => got p ++ sampledFor p out) left' ∧
      (ps.map left').sum < (ps.map left).sum := by
  obtain ⟨t, orphans, hb⟩ := h.books
  have hs := hb.sched
  have hlimits := (hrun.stepped hs).limits
  have hturn : ∀ p, ∃ n', p ∈ ps → n' ≤ left p ∧
      Due e.config.eosTokenId e'.scheduler p (got p ++ sampledFor p out) n' ∧
        ∀ req ∈ out.batch.reqs, req.tableIdx = p.tableIdx →
          (req.chunked = true → req.extendLen = e.scheduler.maxExtendTokens) → n' < left p := by
    intro p
    by_cases hp : p ∈ ps
    · obtain ⟨n', hn'⟩ := hrun.due hs h.chunk_pos (h.servable p hp).output (h.due p hp)
      exact ⟨n', fun _ => hn'⟩
    · exact ⟨0, fun hp' => absurd hp' hp⟩
  choose left' hleft' using hturn
  refine ⟨left', ⟨⟨_, _, hrun.books hb⟩, hrun.tracks h.tracks hs, fun p hp => ?_, ?_, fun p hp => ?_⟩,
    List.sum_lt_sum _ _ (fun p hp => (hleft' p hp).1) ?_⟩
  · obtain ⟨hprompt, hout, hrow, hcache⟩ := h.servable p hp
    exact ⟨hprompt, hout, hrun.config_eq ▸ hrow, hlimits.prefill_eq.2 ▸ hcache⟩
  · rw [hlimits.prefill_eq.1]
    exact h.rows
  · rw [hrun.config_eq]
    exact (hleft' p hp).2.1
  -- the request whose turn it was
  · obtain ⟨req, hreq, hwhole⟩ : ∃ req ∈ out.batch.reqs,
        req.chunked = true → req.extendLen = e.scheduler.maxExtendTokens := by
      cases hphase : out.batch.phase with
      | prefill => exact Scheduler.first_chunk hs h.rowsFit.prompts hrun.schedule_eq hphase
      | decode =>
          obtain ⟨req, hreq⟩ := List.exists_mem_of_ne_nil _ (hrun.batch_ne_nil hs)
          refine ⟨req, hreq, fun hc => ?_⟩
          rcases (hrun.stepped hs).origin req hreq with ⟨hprefill, -⟩ | ⟨-, hrunning⟩
          · rw [hphase] at hprefill
            cases hprefill
          · rw [(hs.running_ok req hrunning).not_chunked] at hc
            cases hc
    obtain ⟨p, hp, hseat, -⟩ := hrun.tracked h.tracks hs hreq
    exact ⟨p, hp, (hleft' p hp).2.2 req hreq (congrArg Seat.row hseat) hwhole⟩

/-- With at least as many steps as turns, the loop comes back with every request answered. -/
theorem loop : ∀ {n : Nat} {e : Engine} (sampled : Nat → Nat → Token)
    (tokens : List (Int × List Token)) {got : PendingReq → List Token} {left : PendingReq → Nat},
    Serving ps e got left → (ps.map left).sum ≤ n →
    ∃ outs e', e.generateLoop sampled tokens n = .ok (outs.foldl creditStep tokens, e') ∧
      Steps sampled e outs e' ∧ e'.scheduler.pendingList = [] ∧ e'.scheduler.runningReqs = [] ∧
      ∀ p ∈ ps, IsAnswer e.config.eosTokenId p.samplingParams (got p ++ outs.flatMap (sampledFor p))
  | 0, e, sampled, tokens, got, left, h, hsum => by
      obtain ⟨hp, hr⟩ := h.idle_of_sum_eq_zero (Nat.le_zero.mp hsum)
      refine ⟨[], e, rfl, .nil _ _, hp, hr, fun p hmem => ?_⟩
      rw [List.flatMap_nil, List.append_nil]
      exact h.answers hp hr p hmem
  | n + 1, e, sampled, tokens, got, left, h, hsum => by
      obtain ⟨t, orphans, hb⟩ := h.books
      obtain ⟨out, e1, hstep⟩ := h.rowsFit.step_returns hb (sampled 0)
      rcases step_cases hstep with ⟨hnone, rfl, rfl⟩ | ⟨s1, e2, hrun⟩
      · obtain ⟨hp, hr⟩ := h.live.idle hnone
        refine ⟨[], e1, ?_, .nil _ _, hp, hr, fun p hmem => ?_⟩
        · rw [generateLoop, hstep]
          rfl
        · rw [List.flatMap_nil, List.append_nil]
          exact h.answers hp hr p hmem
      · obtain ⟨left', h', hlt⟩ := h.step hrun
        obtain ⟨outs, e', hloop, hsteps, hp, hr, hanswers⟩ :=
          loop (fun k => sampled (k + 1)) (creditStep tokens out) h'
            (Nat.le_of_lt_succ (Nat.lt_of_lt_of_le hlt hsum))
        have hne : out.nextTokenIds ≠ [] := by
          rw [← List.length_pos_iff, hrun.length_nextTokenIds, List.length_pos_iff]
          exact hrun.batch_ne_nil hb.sched
        refine ⟨out :: outs, e', ?_, .cons hstep hsteps, hp, hr, fun p hmem => ?_⟩
        · rw [generateLoop, hstep]
          dsimp only
          rw [if_neg hne, hloop, List.foldl_cons]
        · have hanswer := hanswers p hmem
          rw [List.append_assoc, hrun.config_eq] at hanswer
          exact hanswer

end Serving

/-! ### From the calls to the loop -/

/-- No call changes the limits of the scheduler. -/
theorem limits_of_runs {config : EngineConfig} {calls : List Call} (h : runs config calls = some e) :
    e.config = config ∧ Scheduler.SameLimits (init config).scheduler e.scheduler := by
  refine (Run.invariant_of_all (fun e => (∃ t orphans, Books e t orphans) ∧ e.config = config ∧
    Scheduler.SameLimits (init config).scheduler e.scheduler) ?_
    ⟨⟨fun _ => [], [], books_init config _⟩, rfl, .refl _⟩ h).2
  rintro e c e' ⟨⟨t, orphans, hb⟩, hconfig, hlimits⟩ hcall
  have hsame := hb.sizes_call hcall
  exact ⟨hb.call hcall, hsame.config_eq.trans hconfig, hlimits.trans hsame.limits⟩

/-- What the requests' entries say. -/
theorem queued_of_adds : ∀ {requests : List AddArgs} {e : Engine} {t : Transcript}
    {orphans : List RadixCacheHandle}, Books e t orphans →
    Run.AllSteps call Returns e (requests.map Call.addRequest) →
    Run.exec call e (requests.map Call.addRequest) = some e' →
    ∃ ps, e'.scheduler.pendingList = e.scheduler.pendingList ++ ps ∧
      List.Forall₂ (fun args p => p.uid = args.uid ∧ p.inputIds = args.inputIds ∧
        p.samplingParams = args.samplingParams) requests ps
  | [], e, t, orphans, _, _, h => by
      obtain rfl := Option.some.inj h
      exact ⟨[], (List.append_nil _).symm, .nil⟩
  | args :: requests, e, t, orphans, hb, hret, h => by
      obtain ⟨p, hp⟩ := hret.1
      have heq : e.addRequest args = (.ok p, (e.addRequest args).2) := by rw [← hp]
      obtain ⟨e3, k, hreturned⟩ := hb.returned heq
      have hqueued := hreturned.queuedIn hb
      obtain ⟨orphans', hb'⟩ := hb.addRequest args
      obtain ⟨ps, hlist, hall⟩ := queued_of_adds hb' (hret.2 _ rfl) h
      refine ⟨p :: ps, ?_, .cons ⟨hreturned.queued.uid_eq, hreturned.queued.inputIds_eq,
        hreturned.queued.samplingParams_eq⟩ hall⟩
      rw [hlist, hqueued.pendingList_eq, List.append_assoc]
      rfl

/-- The request can be served by an engine of this configuration. -/
def Fits (config : EngineConfig) (args : AddArgs) : Prop :=
  args.inputIds ≠ [] ∧ 1 ≤ args.samplingParams.maxTokens ∧
    (args.inputIds.length : Int) + args.samplingParams.maxTokens ≤ config.maxSeqLen ∧
    (args.inputIds.length : Int) + args.samplingParams.maxTokens ≤
      (init config).scheduler.prefillManager.cacheBudget

instance (config : EngineConfig) (args : AddArgs) : Decidable (Fits config args) :=
  inferInstanceAs (Decidable (_ ∧ _))

theorem rest_le_length {p : PendingReq} (h : p.Ok) (hne : p.inputIds ≠ []) :
    p.rest ≤ (p.inputIds.length : Int) := by
  have hlen : p.inputLen = p.inputIds.length := rfl
  rw [PendingReq.rest, PendingReq.processed]
  cases p.chunkedReq with
  | some chunk =>
      dsimp only
      omega
  | none =>
      have hcached := (h.cachedLen hne).1
      dsimp only
      omega

/-- The default budget covers what is due to the queued prompts. -/
theorem sum_le_stepBudget
    (hok : ∀ p ∈ e.scheduler.pendingList, p.Ok ∧ p.inputIds ≠ [] ∧ 0 ≤ p.outputLen)
    (hM : 0 < e.scheduler.maxExtendTokens) :
    (e.scheduler.pendingList.map fun p =>
      ceilDiv p.rest e.scheduler.maxExtendTokens + p.outputLen.toNat).sum ≤ e.stepBudget none := by
  have hterm : ∀ ps : List PendingReq, (∀ p ∈ ps, p.Ok ∧ p.inputIds ≠ [] ∧ 0 ≤ p.outputLen) →
      (((ps.map fun p => ceilDiv p.rest e.scheduler.maxExtendTokens + p.outputLen.toNat).sum : Nat) :
        Int) ≤ (ps.map fun p =>
          (ceilDiv p.inputIds.length (max 1 e.scheduler.maxExtendTokens) : Int) + p.outputLen).sum := by
    intro ps
    induction ps with
    | nil => intro _; simp
    | cons p ps ih =>
        intro hall
        obtain ⟨hp, hne, hout⟩ := hall p List.mem_cons_self
        have hslices := ceilDiv_mono hM (rest_le_length hp hne)
        have hmax : max (1 : Int) e.scheduler.maxExtendTokens = e.scheduler.maxExtendTokens :=
          max_eq_right (by omega)
        have := ih fun q hq => hall q (List.mem_cons_of_mem p hq)
        rw [List.map_cons, List.map_cons, List.sum_cons, List.sum_cons, hmax] at *
        omega
  have hsum := hterm _ hok
  rw [stepBudget, defaultBudget, Option.getD_none]
  omega

/-- From an idle engine, `generate` with its default budget serves all requests that fit: it
comes back with nothing queued or running, and each list it returns is a whole answer. -/
theorem generate_answers {config : EngineConfig} {calls : List Call} {e0 : Engine}
    (h : runs config calls = some e0) (hidle : e0.scheduler.seats = []) {requests : List AddArgs}
    (hret : Run.AllSteps call Returns e0 (requests.map Call.addRequest))
    (hadds : Run.exec call e0 (requests.map Call.addRequest) = some e)
    (huid : (requests.map AddArgs.uid).Nodup) (hfits : ∀ args ∈ requests, Fits config args)
    (sampled : Nat → Nat → Token) :
    ∃ lists e', e.generate none sampled = .ok (lists, e') ∧
      e'.scheduler.pendingList = [] ∧ e'.scheduler.runningReqs = [] ∧
      List.Forall₂ (fun args tokens => IsAnswer config.eosTokenId args.samplingParams tokens)
        requests lists := by
  have hrun : runs config (calls ++ requests.map Call.addRequest) = some e := by
    rw [runs, Run.exec_append]
    have h' : Run.exec call (init config) calls = some e0 := h
    rw [h']
    exact hadds
  obtain ⟨t0, orphans0, hb0⟩ := books_of_runs h
  obtain ⟨t, orphans, hb⟩ := books_of_runs hrun
  obtain ⟨hconfig, hlimits⟩ := limits_of_runs hrun
  obtain ⟨hpending0, hrunning0⟩ := List.append_eq_nil_iff.mp hidle
  rw [List.map_eq_nil_iff] at hpending0 hrunning0
  obtain ⟨-, hrunning, -⟩ := pendingList_of_adds hb0 hret hadds
  obtain ⟨ps, hlist, hall⟩ := queued_of_adds hb0 hret hadds
  rw [hpending0, List.nil_append] at hlist
  have hservable : ∀ p ∈ ps, Servable e p := by
    intro p hp
    obtain ⟨args, hargs, -, hids, hparams⟩ := forall₂_exists_of_mem hall.flip hp
    obtain ⟨hprompt, hout, hrow, hcache⟩ := hfits args hargs
    refine ⟨hids ▸ hprompt, ?_, ?_, ?_⟩ <;>
      simp only [PendingReq.inputLen, PendingReq.outputLen, hids, hparams, hconfig,
        hlimits.prefill_eq.2]
    · exact hout
    · exact hrow
    · exact hcache
  have hserving : Serving ps e (fun _ => []) fun p =>
      ceilDiv p.rest e.scheduler.maxExtendTokens + p.outputLen.toNat := by
    refine ⟨⟨t, orphans, hb⟩, hlist ▸ Tracks.of_idle (hrunning.trans hrunning0), hservable, ?_,
      fun p hp => .queued p (hlist ▸ hp) rfl rfl rfl rfl rfl⟩
    rw [hlimits.prefill_eq.1]
    exact config.maxRunningReq_pos
  have hbudget : (ps.map fun p => ceilDiv p.rest e.scheduler.maxExtendTokens +
      p.outputLen.toNat).sum ≤ e.stepBudget none := by
    rw [← hlist]
    refine sum_le_stepBudget (fun p hp => ?_) hserving.chunk_pos
    have hp' := hservable p (hlist ▸ hp)
    have hout := hp'.output
    exact ⟨hb.sched.pending_ok p hp, hp'.prompt, by omega⟩
  obtain ⟨outs, e', hloop, hsteps, hp, hr, hanswers⟩ :=
    hserving.loop sampled (emptyTokens ps) hbudget
  by_cases hnil : ps = []
  · subst hnil
    rw [List.forall₂_nil_right_iff] at hall
    subst hall
    exact ⟨[], e, by rw [generate, hlist, if_pos rfl], hlist, hrunning.trans hrunning0, .nil⟩
  · have huids : (ps.map PendingReq.uid).Nodup := by
      have hmap : requests.map AddArgs.uid = ps.map PendingReq.uid := by
        rw [← List.forall₂_eq_eq_eq, List.forall₂_map_left_iff, List.forall₂_map_right_iff]
        exact hall.imp fun _ _ hargs => hargs.1.symm
      rwa [← hmap]
    have hrows : (ps.map PendingReq.tableIdx).Nodup := hlist ▸ hb.sched.pending_rows_nodup
    obtain ⟨hcredits, -⟩ := hsteps.credits huids hrows hserving.tracks hb (emptyTokens ps)
    refine ⟨_, e', by rw [generate, hlist, if_neg hnil, hloop], hp, hr, ?_⟩
    rw [List.forall₂_map_right_iff]
    have hwhole : ∀ p ∈ ps, IsAnswer config.eosTokenId p.samplingParams
        ((dictGet p.uid (outs.foldl creditStep (emptyTokens ps))).getD []) := by
      intro p hmem
      rw [hcredits p hmem, emptyTokens, dictGet_emptyTokens rfl, ← hconfig]
      exact hanswers p hmem
    have hboth := (List.forall₂_and_left _ _).mpr ⟨hwhole, hall.flip⟩
    refine (hboth.imp fun p args hargs => ?_).flip
    rw [flip, ← hargs.2.2.2]
    exact hargs.1

/-- A prompt in two chunks and one behind it, with two tokens to sample for each. -/
theorem twoPrompts_answered : ∃ e lists e',
    Run.exec call (init twoATime) (twoPrompts.map Call.addRequest) = some e ∧
    e.generate none (fun k j => 10 * k + j) = .ok (lists, e') ∧
      e'.scheduler.pendingList = [] ∧ e'.scheduler.runningReqs = [] ∧
      List.Forall₂ (fun args tokens => IsAnswer twoATime.eosTokenId args.samplingParams tokens)
        twoPrompts lists := by
  have hsome : (Run.exec call (init twoATime) (twoPrompts.map Call.addRequest)).isSome = true := by
    decide
  obtain ⟨e, he⟩ := Option.isSome_iff_exists.mp hsome
  have h : runs twoATime [] = some (init twoATime) := rfl
  obtain ⟨lists, e', hgen⟩ := generate_answers h rfl (by decide) he (by decide) (by decide)
    fun k j => 10 * k + j
  exact ⟨e, lists, e', he, hgen⟩

end Engine

end FreeToken
