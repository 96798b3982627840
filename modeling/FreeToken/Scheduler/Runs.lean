import FreeToken.Lib.Run
import FreeToken.Scheduler.SchedulerSpec

/-!
# Runs of the scheduler

The scheduler on its own, driven the way the engine drives it: `add` and `abort` at any
time, and ticks that schedule a batch and hand it back. In between the forward ran: a
chunk comes back as it was, any other request with one token more, stopped or not.
-/

namespace FreeToken

/-- A call of the scheduler; a `tick` carries the requests of the batch as they are
handed to `complete`. -/
inductive SchedulerCall where
  | add (pending : PendingReq)
  | abort (uid : Int)
  | tick (reqs : List Req)

/-- An entry as `make_pending_req` builds it: at least one token of a nonempty prompt is
left to extend. -/
structure PendingReq.Fresh (p : PendingReq) : Prop where
  chunkedReq_eq : p.chunkedReq = none
  cachedLen_le : p.cachedLen ≤ p.inputLen
  cachedLen : p.inputIds ≠ [] → 0 ≤ p.cachedLen ∧ p.cachedLen < p.inputLen

instance (p : PendingReq) : Decidable p.Fresh :=
  decidable_of_iff (p.chunkedReq = none ∧ p.cachedLen ≤ p.inputLen ∧
      (p.inputIds ≠ [] → 0 ≤ p.cachedLen ∧ p.cachedLen < p.inputLen))
    ⟨fun ⟨h1, h2, h3⟩ => ⟨h1, h2, h3⟩, fun h => ⟨h.1, h.2, h.3⟩⟩

theorem PendingReq.Fresh.ok {p : PendingReq} (h : p.Fresh) : p.Ok where
  cachedLen_le := h.cachedLen_le
  cachedLen := h.cachedLen
  chunk := by
    intro c hc
    rw [h.chunkedReq_eq] at hc
    cases hc

namespace Scheduler

variable {s s' : Scheduler}

/-- One call; an `add` that raises changes nothing. -/
def call (s : Scheduler) : SchedulerCall → Option Scheduler
  | .add pending =>
      match s.add pending with
      | .ok (_, s') => some s'
      | .error _ => some s
  | .abort uid => some (s.abort uid).2
  | .tick reqs =>
      match s.schedule with
      | none => some s
      | some (_, s1) => some (s1.complete reqs)

/-- What the forward and the sampling loop make of a request of the batch. -/
structure Handed (req req' : Req) : Prop extends Sampled req req' where
  maxDeviceLen_eq : req'.maxDeviceLen = req.maxDeviceLen
  deviceLen_eq : req'.deviceLen = if req.chunked then req.deviceLen else req.deviceLen + 1

instance (req req' : Req) : Decidable (Handed req req') :=
  decidable_of_iff
    (req'.oid = req.oid ∧ req'.seat = req.seat ∧ req'.chunked = req.chunked ∧
      (req.chunked = true → req'.aborted = req.aborted) ∧
      (req.chunked = false → req'.aborted = false → req'.deviceLen < req'.maxDeviceLen) ∧
      req'.maxDeviceLen = req.maxDeviceLen ∧
      req'.deviceLen = if req.chunked then req.deviceLen else req.deviceLen + 1)
    ⟨fun ⟨h1, h2, h3, h4, h5, h6, h7⟩ => ⟨⟨h1, h2, h3, h4, h5⟩, h6, h7⟩,
      fun h => ⟨h.oid_eq, h.seat_eq, h.chunked_eq, h.chunk_aborted, h.going, h.maxDeviceLen_eq,
        h.deviceLen_eq⟩⟩

/-- The calls the engine makes. A forward over an empty prompt raises, so such a batch
never comes back. -/
def Driven (s : Scheduler) : SchedulerCall → Prop
  | .add pending => pending.Fresh
  | .abort _ => True
  | .tick reqs =>
      match s.schedule with
      | none => True
      | some (batch, _) =>
          (∀ req ∈ batch.reqs, req.inputIds ≠ []) ∧ batch.reqs.length = reqs.length ∧
            ∀ x ∈ batch.reqs.zip reqs, Handed x.1 x.2

instance (s : Scheduler) (c : SchedulerCall) : Decidable (s.Driven c) :=
  match c with
  | .add pending => inferInstanceAs (Decidable pending.Fresh)
  | .abort _ => isTrue trivial
  | .tick reqs =>
      match h : s.schedule with
      | none => isTrue (by simp [Driven, h])
      | some (batch, _) =>
          decidable_of_iff ((∀ req ∈ batch.reqs, req.inputIds ≠ []) ∧
              batch.reqs.length = reqs.length ∧ ∀ x ∈ batch.reqs.zip reqs, Handed x.1 x.2)
            (by simp [Driven, h])

/-- A tick that found a batch. -/
structure Ticked (s : Scheduler) (reqs : List Req) (batch : Batch) (s1 s' : Scheduler) : Prop where
  schedule_eq : s.schedule = some (batch, s1)
  inputIds_ne_nil : ∀ req ∈ batch.reqs, req.inputIds ≠ []
  length_eq : batch.reqs.length = reqs.length
  handed : ∀ x ∈ batch.reqs.zip reqs, Handed x.1 x.2
  final_eq : s' = s1.complete reqs

theorem tick_cases {reqs : List Req} (hd : s.Driven (.tick reqs))
    (h : s.call (.tick reqs) = some s') :
    (s.schedule = none ∧ s' = s) ∨ ∃ batch s1, Ticked s reqs batch s1 s' := by
  simp only [call] at h
  simp only [Driven] at hd
  cases hsched : s.schedule with
  | none =>
      rw [hsched] at h
      exact Or.inl ⟨rfl, (Option.some.inj h).symm⟩
  | some r =>
      obtain ⟨batch, s1⟩ := r
      rw [hsched] at h hd
      exact Or.inr ⟨batch, s1, hsched, hd.1, hd.2.1, hd.2.2, (Option.some.inj h).symm⟩

namespace Ticked

variable {reqs : List Req} {batch : Batch} {s1 : Scheduler}

theorem map_fst_zip (h : Ticked s reqs batch s1 s') :
    (batch.reqs.zip reqs).map Prod.fst = batch.reqs :=
  List.map_fst_zip h.length_eq.le

theorem map_snd_zip (h : Ticked s reqs batch s1 s') :
    (batch.reqs.zip reqs).map Prod.snd = reqs :=
  List.map_snd_zip h.length_eq.ge

theorem stepped (h : Ticked s reqs batch s1 s') (hs : s.Ok) :
    Stepped s batch (batch.reqs.zip reqs) s' := by
  have hstep := step_spec hs h.schedule_eq h.inputIds_ne_nil h.map_fst_zip
    fun x hx => (h.handed x hx).toSampled
  rw [h.map_snd_zip, ← h.final_eq] at hstep
  exact hstep

end Ticked

/-! ### Rows -/

/-- The invariant survives every call the engine makes, and the limits stay. -/
theorem call_ok (hs : s.Ok) {c : SchedulerCall} (hd : s.Driven c) (h : s.call c = some s') :
    s'.Ok ∧ SameLimits s s' := by
  cases c with
  | add pending =>
      simp only [call] at h
      cases hadd : s.add pending with
      | error err =>
          rw [hadd] at h
          obtain rfl := Option.some.inj h
          exact ⟨hs, SameLimits.refl _⟩
      | ok r =>
          obtain ⟨p, s1⟩ := r
          rw [hadd] at h
          obtain rfl := Option.some.inj h
          obtain ⟨hok, hlim, -⟩ := add_spec hs hd.ok hd.chunkedReq_eq hadd
          exact ⟨hok, hlim⟩
  | abort uid =>
      simp only [call] at h
      rcases abort_spec hs uid with ⟨-, heq⟩ | ⟨seat, s1, -, -, heq, hdrop⟩
      · rw [heq] at h
        obtain rfl := Option.some.inj h
        exact ⟨hs, SameLimits.refl _⟩
      · rw [heq] at h
        obtain rfl := Option.some.inj h
        exact ⟨hdrop.ok, hdrop.limits⟩
  | tick reqs =>
      rcases tick_cases hd h with ⟨-, rfl⟩ | ⟨batch, s1, htick⟩
      · exact ⟨hs, SameLimits.refl _⟩
      · exact ⟨(htick.stepped hs).ok, (htick.stepped hs).limits⟩

/-- Free rows, rows of queued requests and rows of running ones share out the rows. -/
structure RowsShared (s : Scheduler) (maxRunningReq : Nat) : Prop where
  nodup : (s.freeSlots ++ (s.pendingList.map PendingReq.row ++ s.runningReqs.map Req.tableIdx)).Nodup
  mem_iff : ∀ row, row ∈ s.freeSlots ++
    (s.pendingList.map PendingReq.row ++ s.runningReqs.map Req.tableIdx) ↔ row < maxRunningReq

theorem Ok.rowsShared (hs : s.Ok) : RowsShared s s.maxRunningReq := by
  have hrows : s.pendingList.map PendingReq.row ++ s.runningReqs.map Req.tableIdx =
      s.seats.map Seat.row := by
    rw [seats, List.map_append, map_row_seat_pending, map_row_seat_running]
    congr 1
    exact List.map_congr_left fun p hp => (hs.pending_ok p hp).row_eq
  constructor
  · rw [hrows]
    exact hs.rows_nodup
  · intro row
    rw [hrows, hs.rows_perm.mem_iff, List.mem_range]

/-- Every run of the scheduler shares out the rows. -/
theorem rows_shared {maxRunningReq maxExtendTokens pageSize maxPages cacheBudget : Nat}
    {calls : List SchedulerCall}
    (hd : Run.AllSteps call Driven
      (init maxRunningReq maxExtendTokens pageSize maxPages cacheBudget) calls)
    (h : Run.exec call (init maxRunningReq maxExtendTokens pageSize maxPages cacheBudget) calls =
      some s) : RowsShared s maxRunningReq := by
  have hinv := Run.invariant (fun s : Scheduler => s.Ok ∧ s.maxRunningReq = maxRunningReq)
    (fun s c s' ⟨hok, hmax⟩ hd h => by
      obtain ⟨hok', hlim⟩ := call_ok hok hd h
      exact ⟨hok', hlim.maxRunningReq_eq.trans hmax⟩)
    ⟨ok_init _ _ _ _ _, rfl⟩ hd h
  exact hinv.2 ▸ hinv.1.rowsShared

/-- A prompt of two tokens, and its first half. -/
def twoTokens : PendingReq :=
  { uid := 0, inputIds := [7, 8], samplingParams := { maxTokens := 2 } }

def firstHalf : Req := twoTokens.newReq 0 true [7] 0 0 none

/-- Aborted half way through its prompt, a request hands its row back once. -/
theorem aborted_chunk_shares : ∃ s,
    Run.exec call (init 2 1 1 8 8) [.add twoTokens, .tick [firstHalf], .abort 0] = some s ∧
      RowsShared s 2 :=
  have hd : Run.AllSteps call Driven (init 2 1 1 8 8)
      [.add twoTokens, .tick [firstHalf], .abort 0] := by decide
  ⟨_, rfl, rows_shared hd rfl⟩

end Scheduler

end FreeToken
