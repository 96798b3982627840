import FreeToken.Lib.Blocks
import FreeToken.Scheduler.Admission

/-!
# Chunked prefill partitions every prompt

A watcher beside the scheduler keeps a ticket for each page-table row: the entry that
`add` put there and the slices that prefill batches have scheduled for it since. The
slices of a queued entry tile its prompt up to where the entry resumes; those of a
request that left the queue for the running set, or finished, tile all of it.
-/

namespace FreeToken

/-- What a call of the scheduler showed. -/
inductive SchedulerReport where
  | added (pending : PendingReq)
  | refused
  | aborted (queued : Option PendingReq)
  | scheduled (batch : Batch)
  | idle

/-- A request as it was queued, and the slices of its prompt scheduled so far. -/
structure Ticket where
  entry : PendingReq
  slices : List Req

namespace Ticket

/-- The slices tile the prompt from the length it was admitted with up to `stop`. -/
def TilesTo (t : Ticket) (stop : Int) : Prop :=
  Tiles Req.cachedLen (fun r => (r.deviceLen : Int)) t.entry.cachedLen stop t.slices

/-- The queue holds `p` for the ticket: it resumes after the slices, all of them chunks. -/
structure Waiting (t : Ticket) (p : PendingReq) : Prop where
  entry_eq : p = { t.entry with chunkedReq := t.slices.getLast? }
  tiles : t.TilesTo p.processed
  chunked : ∀ req ∈ t.slices, req.chunked = true

/-- The prompt is through: only its last slice was no chunk. -/
structure Whole (t : Ticket) : Prop where
  tiles : t.TilesTo t.entry.inputLen
  chunked : ∀ req ∈ t.slices.dropLast, req.chunked = true
  last : ∃ req, t.slices.getLast? = some req ∧ req.chunked = false

/-- Each position of the uncached prompt was scheduled in exactly one slice. -/
theorem Whole.once {t : Ticket} (h : t.Whole) (i : Int) :
    t.slices.countP (fun req => decide (req.cachedLen ≤ i ∧ i < req.deviceLen)) =
      if t.entry.cachedLen ≤ i ∧ i < t.entry.inputLen then 1 else 0 :=
  h.tiles.countP_mem i

/-- The next slice, a chunk or the last one. -/
def push (t : Ticket) (reqs : List Req) : Ticket := { t with slices := t.slices ++ reqs }

theorem push_nil (t : Ticket) : t.push [] = t := by simp [push]

variable {t : Ticket} {p : PendingReq} {req : Req} {budget : Nat}

theorem Waiting.tilesTo_push (h : t.Waiting p) (hext : Extends budget p req) :
    (t.push [req]).TilesTo req.deviceLen := by
  have hlt := hext.processed_lt
  have hstart := hext.cachedLen_eq
  exact h.tiles.concat hstart (by omega)

theorem Waiting.push_chunk (h : t.Waiting p) (hext : Extends budget p req)
    (hc : req.chunked = true) :
    (t.push [req]).Waiting { p with chunkedReq := some req } where
  entry_eq := by
    rw [h.entry_eq]
    simp [push]
  tiles := h.tilesTo_push hext
  chunked := by
    intro r hr
    rcases List.mem_append.mp hr with hr | hr
    · exact h.chunked r hr
    · rw [List.mem_singleton.mp hr]
      exact hc

theorem Waiting.push_last (h : t.Waiting p) (hext : Extends budget p req)
    (hc : req.chunked = false) : (t.push [req]).Whole where
  tiles := by
    have hle := hext.deviceLen_le
    have hchunked := hext.chunked_eq
    rw [hc, eq_comm, decide_eq_false_iff_not] at hchunked
    have hlen : (t.push [req]).entry.inputLen = req.deviceLen := by
      have : (t.push [req]).entry.inputLen = p.inputLen := by
        rw [h.entry_eq]
        rfl
      omega
    rw [hlen]
    exact h.tilesTo_push hext
  chunked := by
    intro r hr
    simp only [push, List.dropLast_concat] at hr
    exact h.chunked r hr
  last := ⟨req, by simp [push], hc⟩

end Ticket

namespace Scheduler

variable {s s' : Scheduler} {tickets : Nat → Option Ticket}

def report (s : Scheduler) : SchedulerCall → Option (SchedulerReport × Scheduler)
  | .add pending =>
      match s.add pending with
      | .ok (pending, s') => some (.added pending, s')
      | .error _ => some (.refused, s)
  | .abort uid => some (.aborted (s.pendingList.find? fun p => p.uid = uid), (s.abort uid).2)
  | .tick reqs =>
      match s.schedule with
      | none => some (.idle, s)
      | some (batch, s1) => some (.scheduled batch, s1.complete reqs)

theorem map_snd_report (s : Scheduler) (c : SchedulerCall) :
    (s.report c).map Prod.snd = s.call c := by
  cases c with
  | add pending =>
      simp only [report, call]
      cases s.add pending <;> rfl
  | abort uid => rfl
  | tick reqs =>
      simp only [report, call]
      cases s.schedule <;> rfl

/-- Rows get a new ticket when they are handed out and lose it when their prompt is
aborted in the queue; a prefill batch adds its slices. -/
def seeTickets (tickets : Nat → Option Ticket) (_ : Scheduler) (_ : SchedulerCall) :
    SchedulerReport → Nat → Option Ticket
  | .added p => Function.update tickets p.tableIdx (some { entry := p, slices := [] })
  | .aborted (some p) => Function.update tickets p.tableIdx none
  | .scheduled batch =>
      match batch.phase with
      | .prefill => fun row => (tickets row).map fun t =>
          t.push (batch.reqs.filter fun req => req.tableIdx = row)
      | .decode => tickets
  | .refused | .aborted none | .idle => tickets

/-- Every row's ticket is cut as its request's progress says. -/
structure Partitioned (tickets : Nat → Option Ticket) (s : Scheduler) : Prop where
  waiting : ∀ p ∈ s.pendingList, ∃ t, tickets p.tableIdx = some t ∧ t.Waiting p
  running : ∀ r ∈ s.runningReqs, ∃ t, tickets r.tableIdx = some t
  whole : ∀ row t, tickets row = some t → row ∉ s.pendingList.map PendingReq.tableIdx → t.Whole

/-- What the calls keep beside the tickets. -/
structure Chunking (tickets : Nat → Option Ticket) (s : Scheduler) : Prop
    extends Partitioned tickets s where
  ok : s.Ok
  nonempty : ∀ p ∈ s.pendingList, p.inputIds ≠ []
  head : HeadOnly s.pendingList

/-- The prompts added are nonempty. -/
def Prompted : SchedulerCall → Prop
  | .add pending => pending.inputIds ≠ []
  | .abort _ | .tick _ => True

instance (c : SchedulerCall) : Decidable (Prompted c) :=
  match c with
  | .add pending => inferInstanceAs (Decidable (pending.inputIds ≠ []))
  | .abort _ | .tick _ => isTrue trivial

/-! ### `add` and `abort` -/

theorem Chunking.add (h : Chunking tickets s) {pending p : PendingReq} (hfresh : pending.Fresh)
    (hne : pending.inputIds ≠ []) (hadd : s.add pending = .ok (p, s')) :
    Chunking (Function.update tickets p.tableIdx (some { entry := p, slices := [] })) s' := by
  obtain ⟨hok, -, -, hfree, hp, hlist, hrun⟩ := add_spec h.ok hfresh.ok hfresh.chunkedReq_eq hadd
  have hpc : p.chunkedReq = none := by rw [hp]; exact hfresh.chunkedReq_eq
  have hpne : p.inputIds ≠ [] := by rw [hp]; exact hne
  -- the row was free
  have hnew : p.tableIdx ∉ s.seats.map Seat.row := by
    have hn := h.ok.rows_nodup
    rw [hfree] at hn
    intro hmem
    exact (List.nodup_cons.mp hn).1 (List.mem_append_right _ hmem)
  rw [seats, List.map_append, map_row_seat_pending, map_row_seat_running, List.mem_append,
    not_or] at hnew
  exact
    { ok := hok
      nonempty := by
        rw [hlist]
        intro q hq
        rcases List.mem_append.mp hq with hq | hq
        · exact h.nonempty q hq
        · rw [List.mem_singleton.mp hq]
          exact hpne
      head := by
        rw [hlist]
        exact h.head.concat hpc
      waiting := by
        rw [hlist]
        intro q hq
        rcases List.mem_append.mp hq with hq | hq
        · have hrow : q.tableIdx ≠ p.tableIdx := fun heq =>
            hnew.1 (heq ▸ List.mem_map.mpr ⟨q, hq, rfl⟩)
          rw [Function.update_of_ne hrow]
          exact h.waiting q hq
        · rw [List.mem_singleton.mp hq, Function.update_self]
          refine ⟨_, rfl, ?_, ?_, ?_⟩
          · rw [List.getLast?_nil, ← hpc]
          · rw [PendingReq.processed_fresh hpc]
            exact Tiles.nil _
          · intro req hreq
            cases hreq
      running := by
        rw [hrun]
        intro r hr
        have hrow : r.tableIdx ≠ p.tableIdx := fun heq =>
          hnew.2 (heq ▸ List.mem_map.mpr ⟨r, hr, rfl⟩)
        rw [Function.update_of_ne hrow]
        exact h.running r hr
      whole := by
        rw [hlist]
        intro row t ht hrow
        rw [List.map_append, List.mem_append, not_or] at hrow
        have hne : row ≠ p.tableIdx := fun heq => hrow.2 (by simp [heq])
        rw [Function.update_of_ne hne] at ht
        exact h.whole row t ht hrow.1 }

theorem Chunking.abort (h : Chunking tickets s) (uid : Int) :
    Chunking (seeTickets tickets s (.abort uid)
      (.aborted (s.pendingList.find? fun p => p.uid = uid))) (s.abort uid).2 := by
  have hok : (s.abort uid).2.Ok := (call_ok h.ok (c := .abort uid) trivial rfl).1
  have hlist := abort_pendingList s uid
  have hrun := abort_runningReqs_subset h.ok uid
  have hsub : (s.abort uid).2.pendingList.Sublist s.pendingList := by
    rw [hlist]
    exact List.eraseP_sublist
  have hkept : Partitioned (seeTickets tickets s (.abort uid)
      (.aborted (s.pendingList.find? fun p => p.uid = uid))) (s.abort uid).2 := by
    cases hfind : s.pendingList.find? fun p => p.uid = uid with
    | none =>
        have hsame : (s.abort uid).2.pendingList = s.pendingList := by
          rw [hlist]
          exact List.eraseP_of_forall_not (by simpa using hfind)
        exact
          { waiting := fun p hp => h.waiting p (hsame ▸ hp)
            running := fun r hr => h.running r (hrun r hr)
            whole := fun row t ht hrow => h.whole row t ht (hsame ▸ hrow) }
    | some p0 =>
        have hp0 := List.mem_of_find?_eq_some hfind
        have hperm : s.pendingList.Perm (p0 :: (s.abort uid).2.pendingList) := by
          obtain ⟨huid, before, after, heq, hbefore⟩ := List.find?_eq_some_iff_append.mp hfind
          rw [hlist, heq, List.eraseP_append_right _ (by simpa using hbefore),
            List.eraseP_cons_of_pos (p := fun p : PendingReq => decide (p.uid = uid)) huid]
          exact List.perm_middle
        have hnodup := (hperm.map PendingReq.tableIdx).nodup_iff.mp h.ok.pending_rows_nodup
        rw [List.map_cons, List.nodup_cons] at hnodup
        have hrunRow : ∀ r ∈ (s.abort uid).2.runningReqs, r.tableIdx ≠ p0.tableIdx := by
          intro r hr heq
          have hn := h.ok.seat_rows_nodup
          rw [seats, List.map_append, map_row_seat_pending, map_row_seat_running] at hn
          exact (List.nodup_append'.mp hn).2.2 (List.mem_map.mpr ⟨p0, hp0, rfl⟩)
            (heq ▸ List.mem_map.mpr ⟨r, hrun r hr, rfl⟩)
        simp only [seeTickets]
        exact
          { waiting := fun p hp => by
              have hrow : p.tableIdx ≠ p0.tableIdx := fun heq =>
                hnodup.1 (heq ▸ List.mem_map.mpr ⟨p, hp, rfl⟩)
              rw [Function.update_of_ne hrow]
              exact h.waiting p (hsub.subset hp)
            running := fun r hr => by
              rw [Function.update_of_ne (hrunRow r hr)]
              exact h.running r (hrun r hr)
            whole := fun row t ht hrow => by
              by_cases heq : row = p0.tableIdx
              · rw [heq, Function.update_self] at ht
                cases ht
              · rw [Function.update_of_ne heq] at ht
                refine h.whole row t ht fun hmem => ?_
                rw [(hperm.map PendingReq.tableIdx).mem_iff, List.map_cons, List.mem_cons] at hmem
                exact hmem.elim heq hrow }
  exact
    { toPartitioned := hkept
      ok := hok
      nonempty := fun p hp => h.nonempty p (hsub.subset hp)
      head := h.head.sublist hsub }

/-! ### Ticks -/

/-- A row's part of a batch that uses no row twice. -/
theorem filter_tableIdx : ∀ {reqs : List Req}, (reqs.map Req.tableIdx).Nodup → ∀ req ∈ reqs,
    (reqs.filter fun r => r.tableIdx = req.tableIdx) = [req]
  | [], _, _, hreq => by cases hreq
  | r :: rs, hn, req, hreq => by
      rw [List.map_cons, List.nodup_cons] at hn
      have hnone : ∀ row, row ∉ rs.map Req.tableIdx → (rs.filter fun r => r.tableIdx = row) = [] := by
        intro row hrow
        refine List.filter_eq_nil_iff.mpr fun r' hr' heq => ?_
        exact hrow (List.mem_map.mpr ⟨r', hr', by simpa using heq⟩)
      rcases List.mem_cons.mp hreq with rfl | hreq
      · rw [List.filter_cons_of_pos (by simp), hnone _ hn.1]
      · have hne : r.tableIdx ≠ req.tableIdx := fun heq =>
          hn.1 (heq ▸ List.mem_map.mpr ⟨req, hreq, rfl⟩)
        rw [List.filter_cons_of_neg (by simpa using hne)]
        exact filter_tableIdx hn.2 req hreq

theorem filter_tableIdx_nil {reqs : List Req} {row : Nat} (h : row ∉ reqs.map Req.tableIdx) :
    (reqs.filter fun r => r.tableIdx = row) = [] := by
  refine List.filter_eq_nil_iff.mpr fun r hr heq => ?_
  exact h (List.mem_map.mpr ⟨r, hr, by simpa using heq⟩)

/-- A prefill batch hands each row at most its next slice. -/
theorem Partitioned.prefill (h : Partitioned tickets s) {batch : Batch}
    {pairs : List (Req × Req)} {s1 : Scheduler} {picked : List (PendingReq × Req)}
    {unadmitted : List PendingReq} (hb : PrefillBatch s batch s1 picked unadmitted)
    (hstep : Stepped s batch pairs s') (hlist : s'.pendingList = s1.pendingList)
    (hfst : pairs.map Prod.fst = batch.reqs)
    (hseat : ∀ x ∈ pairs, x.2.tableIdx = x.1.tableIdx) :
    Partitioned (fun row => (tickets row).map fun t =>
      t.push (batch.reqs.filter fun req => req.tableIdx = row)) s' := by
  have hrow : ∀ x ∈ picked, x.2.tableIdx = x.1.tableIdx := fun x hx =>
    congrArg Seat.row (hb.extend x hx).seat_eq
  have hmem : ∀ x ∈ picked, x.2 ∈ batch.reqs := fun x hx => by
    rw [hb.reqs_eq]
    exact List.mem_map.mpr ⟨x, hx, rfl⟩
  have hqueued : ∀ x ∈ picked, x.1 ∈ s.pendingList := fun x hx =>
    hb.queue_perm.mem_iff.mpr (List.mem_append_left _ (List.mem_map.mpr ⟨x, hx, rfl⟩))
  refine ⟨?_, ?_, ?_⟩
  · intro p hp
    rcases hstep.pending p hp with ⟨hp, hout⟩ | ⟨p0, hp0, req, hreq, -, hext, hc, rfl⟩
    · obtain ⟨t, ht, hw⟩ := h.waiting p hp
      refine ⟨t, ?_, hw⟩
      rw [ht, filter_tableIdx_nil hout, Option.map_some, t.push_nil]
    · obtain ⟨t, ht, hw⟩ := h.waiting p0 hp0
      have hreqRow : req.tableIdx = p0.tableIdx := congrArg Seat.row hext.seat_eq
      refine ⟨t.push [req], ?_, hw.push_chunk hext hc⟩
      dsimp only
      rw [ht, ← hreqRow, filter_tableIdx hstep.rows_nodup req hreq, Option.map_some]
  · intro r hr
    have hticket : ∃ t, tickets r.tableIdx = some t := by
      rcases hstep.running r hr with ⟨hr, -⟩ | ⟨x, hx, rfl, -⟩
      · exact h.running r hr
      · have hx1 : x.1 ∈ batch.reqs := hfst ▸ List.mem_map.mpr ⟨x, hx, rfl⟩
        rw [hb.reqs_eq] at hx1
        obtain ⟨y, hy, hyx⟩ := List.mem_map.mp hx1
        obtain ⟨t, ht, -⟩ := h.waiting y.1 (hqueued y hy)
        refine ⟨t, ?_⟩
        rw [hseat x hx, ← hyx, hrow y hy]
        exact ht
    obtain ⟨t, ht⟩ := hticket
    exact ⟨_, by rw [ht]; rfl⟩
  · intro row t' ht' hout
    obtain ⟨t, ht, rfl⟩ := Option.map_eq_some_iff.mp ht'
    by_cases hrowIn : row ∈ s.pendingList.map PendingReq.tableIdx
    · obtain ⟨p, hp, rfl⟩ := List.mem_map.mp hrowIn
      obtain ⟨t1, ht1, hw⟩ := h.waiting p hp
      rw [ht] at ht1
      obtain rfl := Option.some.inj ht1
      -- the entry was picked, and not as a chunk
      rcases List.mem_append.mp (hb.queue_perm.mem_iff.mp hp) with hpick | hstay
      · obtain ⟨x, hx, rfl⟩ := List.mem_map.mp hpick
        have hc : x.2.chunked = false := by
          by_contra hc
          refine hout ?_
          rw [hlist, hb.pendingList_eq, List.map_append]
          refine List.mem_append_left _ (List.mem_map.mpr ⟨_, List.mem_map.mpr ⟨x, ?_, rfl⟩, rfl⟩)
          exact List.mem_filter.mpr ⟨hx, by simpa using hc⟩
        rw [← hrow x hx, filter_tableIdx hstep.rows_nodup x.2 (hmem x hx)]
        exact hw.push_last (hb.extend x hx) hc
      · refine absurd ?_ hout
        rw [hlist, hb.pendingList_eq, List.map_append]
        exact List.mem_append_right _ (List.mem_map.mpr ⟨p, hstay, rfl⟩)
    · have hnot : row ∉ batch.reqs.map Req.tableIdx := by
        rw [hb.reqs_eq]
        intro hmemRow
        obtain ⟨req, hreq, rfl⟩ := List.mem_map.mp hmemRow
        obtain ⟨x, hx, rfl⟩ := List.mem_map.mp hreq
        exact hrowIn (List.mem_map.mpr ⟨x.1, hqueued x hx, (hrow x hx).symm⟩)
      rw [filter_tableIdx_nil hnot, t.push_nil]
      exact h.whole row t ht hrowIn

theorem Chunking.tick (h : Chunking tickets s) {reqs : List Req} {batch : Batch} {s1 : Scheduler}
    (htick : Ticked s reqs batch s1 s') :
    Chunking (seeTickets tickets s (.tick reqs) (.scheduled batch)) s' := by
  have hstep := htick.stepped h.ok
  have hlist : s'.pendingList = s1.pendingList := by
    rw [htick.final_eq]
    rfl
  have hfst := htick.map_fst_zip
  have hseat : ∀ x ∈ batch.reqs.zip reqs, x.2.tableIdx = x.1.tableIdx := fun x hx =>
    tableIdx_eq_of_seat_eq (htick.handed x hx).seat_eq
  obtain ⟨-, ⟨picked, unadmitted, hb⟩ | ⟨hphase, hperm, rfl⟩⟩ :=
    schedule_spec h.ok htick.schedule_eq htick.inputIds_ne_nil
  · have hpart := h.toPartitioned.prefill hb hstep hlist hfst hseat
    simp only [seeTickets, hb.phase_eq]
    exact
      { toPartitioned := hpart
        ok := hstep.ok
        nonempty := by
          intro p hp
          rcases hstep.pending p hp with ⟨hp, -⟩ | ⟨p0, hp0, req, -, -, -, -, rfl⟩
          · exact h.nonempty p hp
          · exact h.nonempty p0 hp0
        head := by
          rw [hlist]
          exact headOnly_schedule h.head h.ok htick.schedule_eq htick.inputIds_ne_nil }
  · simp only [seeTickets, hphase]
    exact
      { waiting := fun p hp => h.waiting p (hlist ▸ hp)
        running := by
          intro r hr
          rcases hstep.running r hr with ⟨hr, -⟩ | ⟨x, hx, rfl, -⟩
          · exact h.running r hr
          · rw [hseat x hx]
            exact h.running x.1 (hperm.mem_iff.mp (hfst ▸ List.mem_map.mpr ⟨x, hx, rfl⟩))
        whole := fun row t ht hrow => h.whole row t ht (hlist ▸ hrow)
        ok := hstep.ok
        nonempty := fun p hp => h.nonempty p (hlist ▸ hp)
        head := by
          rw [hlist]
          exact h.head }

/-! ### Runs -/

theorem Chunking.call (h : Chunking tickets s) {c : SchedulerCall} (hd : s.Driven c)
    (hne : Prompted c) {tickets' : Nat → Option Ticket}
    (hcall : Run.watch report seeTickets (tickets, s) c = some (tickets', s')) :
    Chunking tickets' s' := by
  obtain ⟨⟨r, s1⟩, hreport, heq⟩ := Option.map_eq_some_iff.mp hcall
  obtain ⟨rfl, rfl⟩ := Prod.mk.inj heq
  cases c with
  | add pending =>
      simp only [report] at hreport
      cases hadd : s.add pending with
      | error err =>
          rw [hadd] at hreport
          obtain ⟨rfl, rfl⟩ := Prod.mk.inj (Option.some.inj hreport)
          exact h
      | ok x =>
          rw [hadd] at hreport
          obtain ⟨rfl, rfl⟩ := Prod.mk.inj (Option.some.inj hreport)
          exact h.add hd hne hadd
  | abort uid =>
      obtain ⟨rfl, rfl⟩ := Prod.mk.inj (Option.some.inj hreport)
      exact h.abort uid
  | tick reqs =>
      have hstep : s.call (.tick reqs) = some s1 := by rw [← map_snd_report, hreport]; rfl
      rcases tick_cases hd hstep with ⟨hnone, -⟩ | ⟨batch, s2, htick⟩
      · simp only [report, hnone] at hreport
        obtain ⟨rfl, rfl⟩ := Prod.mk.inj (Option.some.inj hreport)
        exact h
      · simp only [report, htick.schedule_eq] at hreport
        obtain ⟨rfl, -⟩ := Prod.mk.inj (Option.some.inj hreport)
        exact h.tick htick

theorem chunking_init (maxRunningReq maxExtendTokens pageSize maxPages cacheBudget : Nat) :
    Chunking (fun _ => none) (init maxRunningReq maxExtendTokens pageSize maxPages cacheBudget) where
  ok := ok_init _ _ _ _ _
  nonempty := fun p hp => by cases hp
  head := fun p hp => by cases hp
  waiting := fun p hp => by cases hp
  running := fun r hr => by cases hr
  whole := fun row t ht => by cases ht

/-- Over a run of nonempty prompts the slices scheduled for each request tile its prompt,
no prefill batch exceeds the step's tokens, and only the queue's head is mid-chunk. -/
theorem prefill_partitions {maxRunningReq maxExtendTokens pageSize maxPages cacheBudget : Nat}
    {calls : List SchedulerCall}
    (hd : Run.AllSteps call (fun s c => s.Driven c ∧ Prompted c)
      (init maxRunningReq maxExtendTokens pageSize maxPages cacheBudget) calls)
    (h : Run.exec (Run.watch report seeTickets)
      (fun _ => none, init maxRunningReq maxExtendTokens pageSize maxPages cacheBudget) calls =
      some (tickets, s)) :
    Partitioned tickets s ∧
      (∀ row t, tickets row = some t → row ∉ s.pendingList.map PendingReq.tableIdx →
        ∀ i : Int, t.slices.countP (fun req => decide (req.cachedLen ≤ i ∧ i < req.deviceLen)) =
          if t.entry.cachedLen ≤ i ∧ i < t.entry.inputLen then 1 else 0) ∧
      HeadOnly s.pendingList ∧
      ∀ batch s1, s.schedule = some (batch, s1) → batch.phase = .prefill →
        (batch.reqs.map Req.extendLen).sum ≤ maxExtendTokens := by
  have hcall : (fun s c => (report s c).map Prod.snd) = call := by
    funext s c
    exact map_snd_report s c
  have hinv := Run.invariant
    (fun x : (Nat → Option Ticket) × Scheduler =>
      Chunking x.1 x.2 ∧ x.2.maxExtendTokens = maxExtendTokens)
    (fun x c x' ⟨hx, hmax⟩ hc hx' => by
      obtain ⟨r, hr, rfl⟩ := Option.map_eq_some_iff.mp hx'
      have hs' : x.2.call c = some r.2 := by rw [← map_snd_report, hr]; rfl
      exact ⟨hx.call hc.1 hc.2 hx', (call_ok hx.ok hc.1 hs').2.maxExtendTokens_eq.trans hmax⟩)
    ⟨chunking_init _ _ _ _ _, rfl⟩ (Run.allSteps_watch.mpr (hcall ▸ hd)) h
  obtain ⟨hchunk, hmax⟩ := hinv
  refine ⟨hchunk.toPartitioned, fun row t ht hrow i => (hchunk.whole row t ht hrow).once i,
    hchunk.head, fun batch s1 hsched hphase => ?_⟩
  rw [(schedule_prefill hsched hphase).2.1, ← hmax]
  exact (admitLoop_slices s.pendingList s.adder s.prefillManager.nextOid
    hchunk.ok.pending_ok
    (admitLoop_nonempty _ _ _ fun p hp => ⟨hchunk.ok.pending_ok p hp, hchunk.nonempty p hp⟩)
    (Int.natCast_nonneg _)).1

/-- The second half of the prompt, with the token sampled after it. -/
def secondHalf : Req := { twoTokens.newReq 1 false [7, 8] 0 1 none with deviceLen := 3 }

/-- Two steps of one token each. -/
theorem two_halves_partition : ∃ tickets s, Run.exec (Run.watch report seeTickets)
    (fun _ => none, init 2 1 1 8 8) [.add twoTokens, .tick [firstHalf], .tick [secondHalf]] =
      some (tickets, s) ∧ Partitioned tickets s :=
  have hd : Run.AllSteps call (fun s c => s.Driven c ∧ Prompted c) (init 2 1 1 8 8)
      [.add twoTokens, .tick [firstHalf], .tick [secondHalf]] := by decide
  ⟨_, _, rfl, (prefill_partitions hd rfl).1⟩

end Scheduler

end FreeToken
