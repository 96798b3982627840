import FreeToken.Scheduler.Runs
import FreeToken.Scheduler.Admission

/-!
# Reading `Scheduler.idle`

`idle` is `not self.schedule()`. A decode batch is put together without changing anything, but a
prefill batch takes its prompts out of the queue, and the one that `idle` asked for is thrown
away: its prompts are never run, and their rows never freed.
-/

namespace FreeToken

namespace Scheduler

variable {s s1 s2 : Scheduler} {batch batch2 : Batch}

/-- `idle`, with the scheduler that reading it leaves. -/
def idle (s : Scheduler) : Bool × Scheduler :=
  match s.schedule with
  | none => (true, s)
  | some (_, s1) => (false, s1)

/-- The calls of a scheduler that is observed: `schedule` and `complete` one at a time, with
reads of `idle` in between. -/
inductive ObservedCall where
  | add (pending : PendingReq)
  | abort (uid : Int)
  | schedule
  | complete (reqs : List Req)
  | idle

/-- The call is a read. -/
def ObservedCall.isRead : ObservedCall → Bool
  | .idle => true
  | _ => false

/-- One call, with what `schedule` returned. -/
def respond (s : Scheduler) : ObservedCall → Option (List (Option Batch) × Scheduler)
  | .add pending =>
      match s.add pending with
      | .ok (_, s') => some ([], s')
      | .error _ => some ([], s)
  | .abort uid => some ([], (s.abort uid).2)
  | .schedule =>
      match s.schedule with
      | none => some ([none], s)
      | some (batch, s1) => some ([some batch], s1)
  | .complete reqs => some ([], s.complete reqs)
  | .idle => some ([], s.idle.2)

def collect (batches : List (Option Batch)) (_ : Scheduler) (_ : ObservedCall)
    (new : List (Option Batch)) : List (Option Batch) := batches ++ new

/-- The batches that the calls produce, and the scheduler after them. -/
def batches (s : Scheduler) (calls : List ObservedCall) :
    Option (List (Option Batch) × Scheduler) := Run.exec (Run.watch respond collect) ([], s) calls

/-- A read finds no prompt that a pass would admit. -/
def Quiet (s : Scheduler) : ObservedCall → Prop
  | .idle => s.pass.reqs = []
  | _ => True

instance (s : Scheduler) : (c : ObservedCall) → Decidable (s.Quiet c)
  | .idle => inferInstanceAs (Decidable (_ = _))
  | .add _ | .abort _ | .schedule | .complete _ => isTrue trivial

/-- Without a prefill batch `idle` only looks. -/
theorem idle_of_no_pass (h : s.pass.reqs = []) : s.idle.2 = s := by
  rw [idle, schedule_of_no_pass h]
  cases s.decodeManager.scheduleNextBatch <;> rfl

/-- Reads that find no prompt to admit change neither the batches nor the scheduler. -/
theorem idle_reads_lose_nothing (s : Scheduler) (calls : List ObservedCall)
    (h : Run.AllSteps (Run.watch respond collect) (fun x c => x.2.Quiet c) ([], s) calls) :
    s.batches (calls.filter fun c => !c.isRead) = s.batches calls := by
  refine Run.exec_filter (h.mono fun x c hquiet hread => ?_)
  cases c with
  | idle =>
      have hsame : x.2.idle.2 = x.2 := idle_of_no_pass hquiet
      simp [Run.watch, respond, collect, hsame]
  | add _ | abort _ | schedule | complete _ => cases hread

/-- A prompt of two tokens, added, prefilled and decoded, with reads in between. -/
def readBetween : List ObservedCall :=
  [.idle, .add twoTokens, .schedule, .idle,
    .complete [{ twoTokens.newReq 0 false [7, 8] 0 0 none with deviceLen := 3 }], .idle, .schedule]

theorem reads_between_lose_nothing :
    (init 1 8 1 8 8).batches (readBetween.filter fun c => !c.isRead) =
      (init 1 8 1 8 8).batches readBetween :=
  idle_reads_lose_nothing _ _ (by decide)

/-- A read between `add` and `schedule` throws the prompt away: nothing is ever scheduled. -/
theorem idle_read_loses_prompt : ¬ ∀ (maxRunningReq maxExtendTokens pageSize maxPages cacheBudget : Nat)
    (calls : List ObservedCall),
    (init maxRunningReq maxExtendTokens pageSize maxPages cacheBudget).batches
        (calls.filter fun c => !c.isRead) =
      (init maxRunningReq maxExtendTokens pageSize maxPages cacheBudget).batches calls := by
  intro hall
  have hsame := congrArg (Option.map Prod.fst) (hall 1 8 1 8 8 [.add twoTokens, .idle, .schedule])
  have hlost : ((init 1 8 1 8 8).batches [.add twoTokens, .idle, .schedule]).map Prod.fst =
      some [none] := by decide
  have hkept : ((init 1 8 1 8 8).batches
      ([.add twoTokens, .idle, .schedule].filter fun c => !c.isRead)).map Prod.fst ≠
        some [none] := by decide
  exact hkept (hsame.trans hlost)

/-! ### Every other read shows -/

/-- The rows of a batch, and where their slices start. -/
def starts (batch : Batch) : List (Nat × Int) := batch.reqs.map fun r => (r.tableIdx, r.cachedLen)

/-- What a pass left of the queue starts somewhere else than what it admitted. -/
theorem pass_starts_ne (hs : s.Ok) (hne : ∀ p ∈ s.pendingList, p.inputIds ≠ [])
    {picked : List (PendingReq × Req)}
    (hadm : Admitted s.maxExtendTokens s.prefillManager.nextOid s.pendingList s.pass picked)
    {x : PendingReq × Req} (hx : x ∈ picked) {q : PendingReq}
    (hq : q ∈ s.pass.chunkedList ++ s.pass.unadmitted) :
    (q.tableIdx, q.processed) ≠ (x.2.tableIdx, x.2.cachedLen) := by
  have hrows := (hadm.queue_perm.map PendingReq.tableIdx).nodup_iff.mp hs.pending_rows_nodup
  rw [List.map_append, List.map_map] at hrows
  have hxp : x.1 ∈ s.pendingList :=
    hadm.queue_perm.mem_iff.mpr (List.mem_append_left _ (List.mem_map_of_mem hx))
  have hext := hadm.extends_of_ne_nil x hx (hne _ hxp)
  have hxrow : x.2.tableIdx = x.1.tableIdx := congrArg Seat.row hext.seat_eq
  intro heq
  obtain ⟨hrow, hstart⟩ := Prod.mk.inj heq
  rcases List.mem_append.mp hq with hq | hq
  · rw [hadm.chunkedList_eq] at hq
    obtain ⟨y, hy, rfl⟩ := List.mem_map.mp hq
    have hy' := (List.mem_filter.mp hy).1
    have hyx : y = x :=
      List.inj_on_of_nodup_map (List.nodup_append'.mp hrows).1 hy' hx (hrow.trans hxrow)
    subst hyx
    have hgrow := hext.processed_lt
    rw [hext.cachedLen_eq] at hstart
    change (y.2.deviceLen : Int) = y.1.processed at hstart
    omega
  · refine List.disjoint_of_nodup_append hrows (List.mem_map_of_mem hx) ?_
    exact List.mem_map.mpr ⟨q, hq, hrow.trans hxrow⟩

/-- After any other read the next batch is not the one that would have come. -/
theorem idle_read_shows (hs : s.Ok) (hne : ∀ p ∈ s.pendingList, p.inputIds ≠ [])
    (hpass : s.pass.reqs ≠ []) (h : s.schedule = some (batch, s1))
    (h2 : s.idle.2.schedule = some (batch2, s2)) :
    (batch2.phase, starts batch2) ≠ (batch.phase, starts batch) := by
  obtain ⟨picked, hadm⟩ : ∃ picked, Admitted s.maxExtendTokens s.prefillManager.nextOid
      s.pendingList s.pass picked :=
    admitLoop_spec s.pendingList s.adder s.prefillManager.nextOid hs.pending_ok rfl (Int.le_refl _)
  have hidle : s.idle.2 = s1 := by rw [idle, h]
  rw [hidle] at h2
  rw [schedule_of_pass hpass] at h
  obtain ⟨rfl, rfl⟩ := Prod.mk.inj (Option.some.inj h)
  intro heq
  obtain ⟨hphase, hstarts⟩ := Prod.mk.inj heq
  obtain ⟨-, hreqs, -⟩ := schedule_prefill h2 hphase
  -- the entries of the queue that the read left
  have hleft : ∀ q ∈ s.pass.chunkedList ++ s.pass.unadmitted, q.Ok ∧ q.inputIds ≠ [] := by
    intro q hq
    rcases List.mem_append.mp hq with hq | hq
    · rw [hadm.chunkedList_eq] at hq
      obtain ⟨y, hy, rfl⟩ := List.mem_map.mp hq
      obtain ⟨hy, hc⟩ := List.mem_filter.mp hy
      have hyp : y.1 ∈ s.pendingList :=
        hadm.queue_perm.mem_iff.mpr (List.mem_append_left _ (List.mem_map_of_mem hy))
      have hext := hadm.extends_of_ne_nil y hy (hne _ hyp)
      exact ⟨(hs.pending_ok _ hyp).extend hext hc, hne y.1 hyp⟩
    · have hqp : q ∈ s.pendingList :=
        hadm.queue_perm.mem_iff.mpr (List.mem_append_right _ hq)
      exact ⟨hs.pending_ok q hqp, hne q hqp⟩
  obtain ⟨picked2, hadm2⟩ := admitLoop_spec (s.pass.chunkedList ++ s.pass.unadmitted)
    s.adder s.pass.nextOid (fun q hq => (hleft q hq).1) rfl (Int.le_refl _)
  obtain ⟨req, reqs, hcons⟩ := List.exists_cons_of_ne_nil hpass
  have hreq : req ∈ picked.map Prod.snd := by
    rw [← hadm.reqs_eq, hcons]
    exact List.mem_cons_self
  obtain ⟨x, hx, rfl⟩ := List.mem_map.mp hreq
  have hstart : (x.2.tableIdx, x.2.cachedLen) ∈ starts batch2 := by
    rw [hstarts, starts, hcons]
    exact List.mem_cons_self
  obtain ⟨r, hr, hrstart⟩ := List.mem_map.mp hstart
  have hr2 : r ∈ picked2.map Prod.snd := by
    rw [← hadm2.reqs_eq]
    exact hreqs ▸ hr
  obtain ⟨y, hy, rfl⟩ := List.mem_map.mp hr2
  have hyq : y.1 ∈ s.pass.chunkedList ++ s.pass.unadmitted :=
    hadm2.queue_perm.mem_iff.mpr (List.mem_append_left _ (List.mem_map_of_mem hy))
  have hext := hadm2.extends_of_ne_nil y hy (hleft _ hyq).2
  have hrow : y.2.tableIdx = y.1.tableIdx := congrArg Seat.row hext.seat_eq
  refine pass_starts_ne hs hne hadm hx hyq ?_
  rw [← hrstart, hrow, hext.cachedLen_eq]

end Scheduler

end FreeToken
