import FreeToken.Scheduler.Admission
import FreeToken.Server.StreamTokens

/-!
# Handlers side by side

The engine serves one request at a time, but a handler's loop steps whatever the engine
has live and credits it to uid 0. So a handler gets its own answer as long as no loop
samples for the request of another handler.
-/

namespace FreeToken

namespace Engine

variable {e e' : Engine} {t : Transcript} {orphans : List RadixCacheHandle}

/-- A call of `add_request` leaves the scheduler as it was and raises, or it queues one
entry, whether it raises afterwards or not. -/
theorem Books.add_queues (hb : Books e t orphans) (args : AddArgs) :
    (e.addRequest args).2.config = e.config ∧
    (((∃ err, (e.addRequest args).1 = .error err) ∧
      (e.addRequest args).2.scheduler = e.scheduler) ∨
    ∃ p, QueuedIn e p (e.addRequest args).2.scheduler ∧ p.uid = args.uid) := by
  have hm := hb.promptMatched args
  rcases hb.add_cases args with ⟨herr, hnot⟩ | ⟨p, e3, hq, htouch, hin⟩
  · rw [hnot.frame hm]
    exact ⟨rfl, Or.inl ⟨herr, rfl⟩⟩
  · have hconfig : (e.addRequest args).2.config = e.config := by rw [htouch.frame, hq.frame]
    exact ⟨hconfig, Or.inr ⟨p, hin, hq.uid_eq⟩⟩

end Engine

namespace Server

open Engine (Books StepOutput StepRun creditStep credited)

/-- The handler's next step samples for no other handler: what else is live is more than
one chunk away from the end of its prompt. -/
def OwnTurn (x : Ledger × Server) (m : Move) : Prop :=
  match x.2.handlers m.handler with
  | .looping l => l.left = 0 ∨
      (∀ p ∈ x.2.engine.scheduler.pendingList, x.1.owner p.tableIdx = some m.handler ∨
        (x.2.engine.scheduler.maxExtendTokens : Int) < p.rest) ∧
      ∀ r ∈ x.2.engine.scheduler.runningReqs, x.1.owner r.tableIdx = some m.handler
  | _ => True

instance (x : Ledger × Server) (m : Move) : Decidable (OwnTurn x m) := by
  unfold OwnTurn
  split <;> infer_instance

/-- What each handler has so far is what was sampled for it. -/
structure Kept (g : Ledger) (s : Server) : Prop where
  one : s.engine.config.maxRunningReq = 1
  books : ∃ t orphans, Books s.engine t orphans
  uid_eq : ∀ seat ∈ s.engine.scheduler.seats, seat.uid = 0
  arrived : ∀ i request, s.handlers i = .arrived request → g.sampled i = []
  owned : ∀ seat ∈ s.engine.scheduler.seats, ∃ i, g.owner seat.row = some i ∧
    ∀ request, s.handlers i ≠ .arrived request
  admitted : ∀ i, s.handlers i = .admitted → g.sampled i = [] ∧
    ∃ p ∈ s.engine.scheduler.pendingList, g.owner p.tableIdx = some i
  looping : ∀ i l, s.handlers i = .looping l → l.admittedUids = [0] ∧
    (dictGet 0 l.tokens).getD [] = g.sampled i
  ended : ∀ i emitted, s.handlers i = .ended emitted → emitted = g.sampled i

variable {g : Ledger} {s : Server} {i : Nat}

theorem kept_init {config : EngineConfig} (hone : config.maxRunningReq = 1)
    (requests : Nat → TokenRequest) : Kept {} (init config requests) where
  one := hone
  books := ⟨fun _ => [], [], Engine.books_init config _⟩
  uid_eq := fun seat hseat => by cases hseat
  arrived := fun _ _ _ => rfl
  owned := fun seat hseat => by cases hseat
  admitted := fun i h => by cases h
  looping := fun i l h => by cases h
  ended := fun i emitted h => by cases h

/-- A handler moves on without touching the engine or the ledger. -/
theorem Kept.set (h : Kept g s) {new : Handler} (harrived : ∀ request, new ≠ .arrived request)
    (hadmitted : new ≠ .admitted)
    (hlooping : ∀ l, new = .looping l → l.admittedUids = [0] ∧
      (dictGet 0 l.tokens).getD [] = g.sampled i)
    (hended : ∀ emitted, new = .ended emitted → emitted = g.sampled i) :
    Kept g (s.set i new) where
  one := h.one
  books := h.books
  uid_eq := h.uid_eq
  arrived := fun k request hk => by
    simp only [Server.set, Function.update_apply] at hk
    split at hk
    · exact absurd hk (harrived request)
    · exact h.arrived k request hk
  owned := fun seat hseat => by
    obtain ⟨k, hk, hnot⟩ := h.owned seat hseat
    refine ⟨k, hk, fun request hr => ?_⟩
    simp only [Server.set, Function.update_apply] at hr
    split at hr
    · exact harrived request hr
    · exact hnot request hr
  admitted := fun k hk => by
    simp only [Server.set, Function.update_apply] at hk
    split at hk
    · exact absurd hk hadmitted
    · exact h.admitted k hk
  looping := fun k l hk => by
    simp only [Server.set, Function.update_apply] at hk
    split at hk
    · rename_i heq
      exact heq ▸ hlooping l hk
    · exact h.looping k l hk
  ended := fun k emitted hk => by
    simp only [Server.set, Function.update_apply] at hk
    split at hk
    · rename_i heq
      exact heq ▸ hended emitted hk
    · exact h.ended k emitted hk

/-- `add_request`, whether it returns or raises. -/
theorem Kept.add (h : Kept g s) {request : TokenRequest}
    (hi : s.handlers i = .arrived request) {new : Handler} {m : Move} (hm : m.handler = i)
    (hnew : (∃ p, (s.engine.addRequest request.args).1 = .ok p ∧ new = .admitted) ∨
      ∃ err, new = .refused err) :
    Kept (g.see s m (.queued ((s.engine.addRequest request.args).2.scheduler.pendingList.drop
        s.engine.scheduler.pendingList.length)))
      ({ s with engine := (s.engine.addRequest request.args).2 }.set i new) := by
  obtain ⟨t, orphans, hb⟩ := h.books
  obtain ⟨orphans', hb'⟩ := hb.addRequest request.args
  obtain ⟨hconfig, hcases⟩ := hb.add_queues request.args
  have hstands : ∀ request, new ≠ .arrived request := by
    rcases hnew with ⟨-, -, rfl⟩ | ⟨err, rfl⟩ <;> intro request heq <;> cases heq
  have hother : ∀ k, k ≠ i → Function.update s.handlers i new k = s.handlers k := fun k hk =>
    Function.update_of_ne hk new s.handlers
  have hloop : ∀ l, new ≠ .looping l := by
    rcases hnew with ⟨-, -, rfl⟩ | ⟨err, rfl⟩ <;> intro l heq <;> cases heq
  have hend : ∀ emitted, new ≠ .ended emitted := by
    rcases hnew with ⟨-, -, rfl⟩ | ⟨err, rfl⟩ <;> intro emitted heq <;> cases heq
  generalize hadd : (s.engine.addRequest request.args).2 = e' at hb' hconfig hcases ⊢
  -- what does not depend on whether an entry was queued
  have hkept : ∀ g' : Ledger, g'.sampled = g.sampled →
      (∀ seat ∈ e'.scheduler.seats, seat.uid = 0) →
      (∀ seat ∈ e'.scheduler.seats, ∃ k, g'.owner seat.row = some k ∧
        ∀ request, Function.update s.handlers i new k ≠ .arrived request) →
      (∀ k, Function.update s.handlers i new k = .admitted →
        ∃ p ∈ e'.scheduler.pendingList, g'.owner p.tableIdx = some k) →
      Kept g' ({ s with engine := e' }.set i new) := by
    intro g' hsampled huid howned hadmitted
    constructor
    · exact (congrArg EngineConfig.maxRunningReq hconfig).trans h.one
    · exact ⟨t, orphans', hb'⟩
    · exact huid
    · intro k request' hk
      by_cases hki : k = i
      · subst hki
        simp only [Server.set, Function.update_self] at hk
        exact absurd hk (hstands request')
      · simp only [Server.set, hother k hki] at hk
        exact hsampled ▸ h.arrived k request' hk
    · exact howned
    · intro k hk
      refine ⟨?_, hadmitted k hk⟩
      rw [hsampled]
      by_cases hki : k = i
      · subst hki
        exact h.arrived k request hi
      · simp only [Server.set, hother k hki] at hk
        exact (h.admitted k hk).1
    · intro k l hk
      by_cases hki : k = i
      · subst hki
        simp only [Server.set, Function.update_self] at hk
        exact absurd hk (hloop l)
      · simp only [Server.set, hother k hki] at hk
        exact hsampled ▸ h.looping k l hk
    · intro k emitted hk
      by_cases hki : k = i
      · subst hki
        simp only [Server.set, Function.update_self] at hk
        exact absurd hk (hend emitted)
      · simp only [Server.set, hother k hki] at hk
        exact hsampled ▸ h.ended k emitted hk
  rcases hcases with ⟨⟨err, herr⟩, hsched⟩ | ⟨p, hqueued, hpuid⟩
  · have hnil : e'.scheduler.pendingList.drop s.engine.scheduler.pendingList.length = [] := by
      rw [hsched, List.drop_length]
    rw [hnil]
    apply hkept
    · rfl
    · rw [hsched]
      exact h.uid_eq
    · rw [hsched]
      intro seat hseat
      obtain ⟨k, hk, hnot⟩ := h.owned seat hseat
      refine ⟨k, hk, ?_⟩
      rw [hother k fun heq => hnot request (heq ▸ hi)]
      exact hnot
    · intro k hk
      by_cases hki : k = i
      · subst hki
        rw [Function.update_self] at hk
        rcases hnew with ⟨q, hok, -⟩ | ⟨err', rfl⟩
        · rw [herr] at hok
          cases hok
        · cases hk
      · rw [hother k hki] at hk
        rw [hsched]
        exact (h.admitted k hk).2
  · have hnil : e'.scheduler.pendingList.drop s.engine.scheduler.pendingList.length = [p] := by
      rw [hqueued.pendingList_eq, List.drop_left]
    have hrow := hqueued.row_notMem hb.sched
    have howner : ∀ row, row ∈ s.engine.scheduler.seats.map Seat.row →
        Function.update g.owner p.tableIdx (some i) row = g.owner row := by
      intro row hmem
      apply Function.update_of_ne
      rintro rfl
      exact hrow hmem
    rw [hnil]
    have hsee : g.see s m (.queued [p]) =
        { g with owner := Function.update g.owner p.tableIdx (some i) } := by
      rw [← hm]
      rfl
    rw [hsee]
    apply hkept
    · rfl
    · intro seat hseat
      rcases List.mem_cons.mp (hqueued.seats_perm.mem_iff.mp hseat) with rfl | hseat
      · exact hpuid
      · exact h.uid_eq seat hseat
    · intro seat hseat
      rcases List.mem_cons.mp (hqueued.seats_perm.mem_iff.mp hseat) with rfl | hseat
      · refine ⟨i, Function.update_self _ _ _, ?_⟩
        rw [Function.update_self]
        exact hstands
      · obtain ⟨k, hk, hnot⟩ := h.owned seat hseat
        refine ⟨k, (howner _ (List.mem_map_of_mem hseat)).trans hk, ?_⟩
        rw [hother k fun heq => hnot request (heq ▸ hi)]
        exact hnot
    · intro k hk
      rw [hqueued.pendingList_eq]
      by_cases hki : k = i
      · subst hki
        exact ⟨p, by simp, Function.update_self _ _ _⟩
      · rw [hother k hki] at hk
        obtain ⟨-, q, hq, hqk⟩ := h.admitted k hk
        refine ⟨q, List.mem_append_left _ hq, ?_⟩
        refine (howner q.tableIdx ?_).trans hqk
        rw [Scheduler.seats, List.map_append, Scheduler.map_row_seat_pending]
        exact List.mem_append_left _ (List.mem_map_of_mem hq)

/-- Reading the queue: the handler's own entry is the only one. -/
theorem Kept.start (h : Kept g s) (hi : s.handlers i = .admitted) :
    s.engine.scheduler.pendingList ≠ [] ∧
      Kept g (s.set i (.looping (Loop.start s.engine))) := by
  obtain ⟨hnone, p, hp, -⟩ := h.admitted i hi
  obtain ⟨t, orphans, hb⟩ := h.books
  have hlist : s.engine.scheduler.pendingList = [p] := by
    have hrows := hb.sched.rows_perm.length_eq
    have hone := hb.maxRunningReq_eq.trans h.one
    rw [List.length_append, List.length_map, List.length_range, hone, Scheduler.seats,
      List.length_append, List.length_map] at hrows
    have hlen : s.engine.scheduler.pendingList.length ≤ 1 := by omega
    obtain ⟨q, hq⟩ := List.length_eq_one_iff.mp
      (Nat.le_antisymm hlen (List.length_pos_of_mem hp))
    rw [hq] at hp
    rw [hq, List.mem_singleton.mp hp]
  refine ⟨by rw [hlist]; exact List.cons_ne_nil _ _, h.set ?_ ?_ ?_ ?_⟩
  · intro request heq
    cases heq
  · intro heq
    cases heq
  · intro l heq
    obtain rfl := Handler.looping.inj heq
    have huid : p.uid = 0 := h.uid_eq p.seat (by
      rw [Scheduler.seats]
      exact List.mem_append_left _ (List.mem_map_of_mem hp))
    rw [Loop.start, hlist]
    refine ⟨by simp [huid], ?_⟩
    rw [hnone]
    simp [Engine.emptyTokens, dictSet, dictGet, huid]
  · intro emitted heq
    cases heq

/-! ### One turn of a loop -/

section Turn

variable {sampled : Nat → Token} {out : StepOutput} {e' : Engine} {s1 : Scheduler} {e2 : Engine}

/-- In the handler's own turn, what is sampled is sampled for it. -/
theorem owner_of_ownTurn (hrun : StepRun s.engine sampled out e' s1 e2)
    (hs : s.engine.scheduler.Ok)
    (hpending : ∀ p ∈ s.engine.scheduler.pendingList, g.owner p.tableIdx = some i ∨
      (s.engine.scheduler.maxExtendTokens : Int) < p.rest)
    (hrunning : ∀ r ∈ s.engine.scheduler.runningReqs, g.owner r.tableIdx = some i)
    {req : Req} (hreq : req ∈ out.batch.reqs) (hc : req.chunked = false) :
    g.owner req.tableIdx = some i := by
  rcases (hrun.stepped hs).origin req hreq with ⟨-, p, hp, hext⟩ | ⟨-, hr⟩
  · have hrow : req.tableIdx = p.tableIdx := congrArg Seat.row hext.seat_eq
    rcases hpending p hp with hown | hfar
    · rw [hrow]
      exact hown
    · exfalso
      have hslice := hext.slice_le
      rw [hext.chunked_eq, decide_eq_false_iff_not] at hc
      unfold PendingReq.rest at hfar
      omega
  · exact hrunning req hr

/-- A uid that all live requests have is credited every token of the step. -/
theorem credited_zero (hrun : StepRun s.engine sampled out e' s1 e2)
    (hs : s.engine.scheduler.Ok) (huid : ∀ seat ∈ s.engine.scheduler.seats, seat.uid = 0) :
    credited 0 out = ((out.batch.reqs.zip out.nextTokenIds).filter fun x =>
      !x.1.chunked).map Prod.snd := by
  have hzip : out.batch.reqs.zip out.nextTokenIds = (StepRun.rounds out).map Prod.swap :=
    (List.zip_swap _ _).symm
  rw [credited, hrun.zip_reqs, hzip, List.filter_map, List.filter_map, List.map_map, List.map_map]
  have hfilter : ∀ x ∈ StepRun.rounds out,
      ((fun x : Req × Token => !x.1.chunked && decide (x.1.uid = 0)) ∘
        fun x => ((s.engine.roundOf out.batch.phase x).2, x.1)) x =
      ((fun x : Req × Token => !x.1.chunked) ∘ Prod.swap) x := by
    intro x hx
    have hround := Engine.rounded s.engine out.batch.phase x
    have hseat : (s.engine.roundOf out.batch.phase x).2.uid = 0 := by
      rw [show (s.engine.roundOf out.batch.phase x).2.uid = x.2.uid from
        congrArg Seat.uid hround.seat_eq]
      rcases (hrun.stepped hs).origin x.2 (hrun.mem_batch hx) with ⟨-, p, hp, hext⟩ | ⟨-, hr⟩
      · rw [show x.2.uid = p.uid from congrArg Seat.uid hext.seat_eq]
        exact huid p.seat (List.mem_append_left _ (List.mem_map_of_mem hp))
      · exact huid x.2.seat (List.mem_append_right _ (List.mem_map_of_mem hr))
    simp [hround.chunked_eq, hseat]
  rw [List.filter_congr hfilter]
  rfl

/-- An entry of another handler is still in the queue after the turn. -/
theorem still_pending (hrun : StepRun s.engine sampled out e' s1 e2)
    (hs : s.engine.scheduler.Ok)
    (howner : ∀ req ∈ out.batch.reqs, req.chunked = false → g.owner req.tableIdx = some i)
    {p : PendingReq} (hp : p ∈ s.engine.scheduler.pendingList) {k : Nat} (hk : k ≠ i)
    (hpk : g.owner p.tableIdx = some k) :
    ∃ q ∈ e'.scheduler.pendingList, q.tableIdx = p.tableIdx := by
  have hstepped := hrun.stepped hs
  -- what is sampled is at other rows
  have hother : ∀ x ∈ StepRun.pairs s.engine out, x.2.chunked = false →
      x.2.tableIdx ≠ p.tableIdx := by
    intro x hx hc heq
    have hsame := StepRun.sampled_pairs x hx
    have hmem : x.1 ∈ out.batch.reqs := by
      rw [← hrun.map_fst_pairs]
      exact List.mem_map_of_mem hx
    have hi := howner x.1 hmem (hsame.chunked_eq ▸ hc)
    rw [← show x.2.tableIdx = x.1.tableIdx from congrArg Seat.row hsame.seat_eq, heq, hpk] at hi
    exact hk (Option.some.inj hi)
  have hseat : p.seat ∈ s.engine.scheduler.seats :=
    List.mem_append_left _ (List.mem_map_of_mem hp)
  rcases List.mem_append.mp (hstepped.seats_perm.mem_iff.mp hseat) with hmem | hmem
  · rcases List.mem_append.mp hmem with hmem | hmem
    · obtain ⟨q, hq, heq⟩ := List.mem_map.mp hmem
      exact ⟨q, hq, congrArg Seat.row heq⟩
    · exfalso
      obtain ⟨r, hr, heq⟩ := List.mem_map.mp hmem
      have hrow : r.tableIdx = p.tableIdx := congrArg Seat.row heq
      rcases hstepped.running r hr with ⟨hr, -⟩ | ⟨x, hx, rfl, hc, -⟩
      · have hn := hs.seat_rows_nodup
        rw [Scheduler.seats, List.map_append, Scheduler.map_row_seat_pending,
          Scheduler.map_row_seat_running] at hn
        exact (List.nodup_append'.mp hn).2.2 (List.mem_map_of_mem hp)
          (hrow ▸ List.mem_map_of_mem hr)
      · exact hother x hx hc hrow
  · exfalso
    obtain ⟨f, hf, heq⟩ := List.mem_map.mp hmem
    obtain ⟨hmem, hc, -⟩ := Scheduler.mem_finishedIn.mp hf
    obtain ⟨x, hx, rfl⟩ := List.mem_map.mp hmem
    exact hother x hx hc (congrArg Seat.row heq)

/-- A turn in which the handler samples for itself, or for nobody. -/
theorem Kept.turn (h : Kept g s) {l : Loop} (hi : s.handlers i = .looping l)
    (hrun : StepRun s.engine sampled out e' s1 e2)
    (hpending : ∀ p ∈ s.engine.scheduler.pendingList, g.owner p.tableIdx = some i ∨
      (s.engine.scheduler.maxExtendTokens : Int) < p.rest)
    (hrunning : ∀ r ∈ s.engine.scheduler.runningReqs, g.owner r.tableIdx = some i) (m : Move) :
    Kept (g.see s m (.stepped out)) ({ s with engine := e' }.set i (.looping (l.turn out))) := by
  obtain ⟨t, orphans, hb⟩ := h.books
  have hs := hb.sched
  have howner : ∀ req ∈ out.batch.reqs, req.chunked = false → g.owner req.tableIdx = some i :=
    fun req hreq hc => owner_of_ownTurn hrun hs hpending hrunning hreq hc
  have hmine : g.newTokens i out = credited 0 out := by
    rw [credited_zero hrun hs h.uid_eq, Ledger.newTokens]
    congr 1
    apply List.filter_congr
    intro x hx
    cases hc : x.1.chunked with
    | true => rfl
    | false => simp [howner x.1 (List.of_mem_zip hx).1 hc]
  have hothers : ∀ k, k ≠ i → g.newTokens k out = [] := by
    intro k hk
    rw [Ledger.newTokens, List.map_eq_nil_iff, List.filter_eq_nil_iff]
    intro x hx hand
    simp only [Bool.and_eq_true, Bool.not_eq_true', decide_eq_true_eq] at hand
    have hx := howner x.1 (List.of_mem_zip hx).1 hand.1
    rw [hand.2] at hx
    exact hk (Option.some.inj hx)
  have hseats : ∀ seat ∈ e'.scheduler.seats, seat ∈ s.engine.scheduler.seats := fun seat hseat =>
    (hrun.stepped hs).seats_perm.mem_iff.mpr (List.mem_append_left _ hseat)
  have hstands : ∀ k, k ≠ i → Function.update s.handlers i (.looping (l.turn out)) k = s.handlers k :=
    fun k hk => Function.update_of_ne hk _ _
  constructor
  · exact (congrArg EngineConfig.maxRunningReq hrun.config_eq).trans h.one
  · exact ⟨_, _, hrun.books hb⟩
  · intro seat hseat
    exact h.uid_eq seat (hseats seat hseat)
  · intro k request hk
    by_cases hki : k = i
    · subst hki
      simp [Server.set] at hk
    · simp only [Server.set, hstands k hki] at hk
      simp only [Ledger.see, h.arrived k request hk, hothers k hki, List.append_nil]
  · intro seat hseat
    obtain ⟨k, hk, hnot⟩ := h.owned seat (hseats seat hseat)
    refine ⟨k, hk, fun request hr => ?_⟩
    by_cases hki : k = i
    · subst hki
      simp [Server.set] at hr
    · simp only [Server.set, hstands k hki] at hr
      exact hnot request hr
  · intro k hk
    by_cases hki : k = i
    · subst hki
      simp [Server.set] at hk
    · simp only [Server.set, hstands k hki] at hk
      obtain ⟨hnone, p, hp, hpk⟩ := h.admitted k hk
      obtain ⟨q, hq, hrow⟩ := still_pending hrun hs howner hp hki hpk
      refine ⟨?_, q, hq, ?_⟩
      · simp only [Ledger.see, hnone, hothers k hki, List.append_nil]
      · exact (congrArg g.owner hrow).trans hpk
  · intro k l' hk
    by_cases hki : k = i
    · subst hki
      simp only [Server.set, Function.update_self] at hk
      obtain rfl := Handler.looping.inj hk
      obtain ⟨huids, htokens⟩ := h.looping k l hi
      refine ⟨huids, ?_⟩
      simp only [Loop.turn, Ledger.see]
      rw [Engine.dictGet_creditStep, htokens, hmine]
    · simp only [Server.set, hstands k hki] at hk
      simp only [Ledger.see, hothers k hki, List.append_nil]
      exact h.looping k l' hk
  · intro k emitted hk
    by_cases hki : k = i
    · subst hki
      simp [Server.set] at hk
    · simp only [Server.set, hstands k hki] at hk
      simp only [Ledger.see, hothers k hki, List.append_nil]
      exact h.ended k emitted hk

end Turn

/-- A loop that is over returns what was sampled for the handler. -/
theorem Kept.finish (h : Kept g s) {l : Loop} (hi : s.handlers i = .looping l) :
    Kept g (s.set i (.ended (emittedOf l.result))) := by
  obtain ⟨huids, htokens⟩ := h.looping i l hi
  refine h.set ?_ ?_ ?_ ?_
  · intro request heq
    cases heq
  · intro heq
    cases heq
  · intro l' heq
    cases heq
  · intro emitted heq
    obtain rfl := Handler.ended.inj heq
    rw [emittedOf, Loop.result, huids]
    exact htokens

/-- One move. -/
theorem Kept.move (h : Kept g s) {m : Move} (hown : OwnTurn (g, s) m) {x : Ledger × Server}
    (hx : watched (g, s) m = some x) : Kept x.1 x.2 := by
  simp only [watched, Run.watch] at hx
  obtain ⟨r, hr, rfl⟩ := Option.map_eq_some_iff.mp hx
  unfold report at hr
  split at hr
  · -- `add_request`
    rename_i request hi
    cases hres : (s.engine.addRequest request.args).1 with
    | ok p =>
        simp only [hres, Option.some.injEq] at hr
        subst hr
        exact h.add hi rfl (Or.inl ⟨p, hres, rfl⟩)
    | error err =>
        simp only [hres, Option.some.injEq] at hr
        subst hr
        exact h.add hi rfl (Or.inr ⟨err, rfl⟩)
  · -- the queue is read
    rename_i hi
    obtain ⟨hne, hstart⟩ := h.start hi
    rw [if_neg hne, Option.some.injEq] at hr
    subst hr
    exact hstart
  · -- a turn of the loop
    rename_i l hi
    split at hr
    · obtain rfl := Option.some.inj hr
      exact h.finish hi
    · rename_i hleft
      simp only [OwnTurn, hi] at hown
      obtain ⟨hpending, hrunning⟩ := hown.resolve_left hleft
      cases hstep : s.engine.step m.sampled with
      | error err =>
          rw [hstep] at hr
          cases hr
      | ok y =>
          obtain ⟨out, e'⟩ := y
          simp only [hstep] at hr
          rcases Engine.step_cases hstep with ⟨-, rfl, rfl⟩ | ⟨s1, e2, hrun⟩
          · rw [if_pos rfl, Option.some.injEq] at hr
            subst hr
            have hsame : g.see s m (.stepped {}) = g := by
              have hnil : ∀ k, g.newTokens k {} = [] := fun _ => rfl
              simp only [Ledger.see, hnil, List.append_nil]
            dsimp only
            rw [hsame]
            exact h.finish hi
          · obtain ⟨t, orphans, hb⟩ := h.books
            have hne : out.nextTokenIds ≠ [] := by
              intro hnil
              have hlen := hrun.length_nextTokenIds
              rw [hnil] at hlen
              exact hrun.batch_ne_nil hb.sched (List.length_eq_zero_iff.mp hlen.symm)
            rw [if_neg hne, Option.some.injEq] at hr
            subst hr
            exact h.turn hi hrun hpending hrunning m
  · cases hr
  · cases hr

/-- In every interleaving in which no loop samples for the request of another handler, each
handler ends with the tokens sampled for its own request. -/
theorem handlers_get_their_own {config : EngineConfig} (hone : config.maxRunningReq = 1)
    {requests : Nat → TokenRequest} {moves : List Move}
    (hall : Run.AllSteps watched OwnTurn ({}, init config requests) moves)
    (h : runs config requests moves = some (g, s)) {emitted : List Token}
    (hi : s.handlers i = .ended emitted) : emitted = g.sampled i := by
  have hkept := Run.invariant (fun x : Ledger × Server => Kept x.1 x.2)
    (fun _ _ _ hk hown hx => hk.move hown hx) (kept_init hone requests) hall h
  exact hkept.ended i emitted hi

/-- One row, and a page for each of its tokens. -/
def oneAtATime : EngineConfig := { Engine.singleRow with enablePrefixCache := false }

/-- Each handler asks for one token after its own number. -/
def oneToken (i : Nat) : TokenRequest where
  inputIds := [i + 1]
  maxTokens := some 1

/-- Handler `i` moves; a step of it samples the token `tok`. -/
def moveOf (i tok : Nat) : Move where
  handler := i
  sampled := fun _ => tok

/-- Handler 0 is added, loops once, and looks again for work after handler 1 was added. -/
def overtaken : List Move :=
  [moveOf 0 0, moveOf 0 0, moveOf 0 5, moveOf 1 0, moveOf 0 6, moveOf 0 0, moveOf 1 0]

/-- What handlers 0 and 1 answered, and what was sampled for each of them. -/
def outcome (moves : List Move) :
    Option ((Option (List Token) × List Token) × Option (List Token) × List Token) :=
  (runs oneAtATime oneToken moves).map fun x =>
    (((x.2.handlers 0).answer, x.1.sampled 0), (x.2.handlers 1).answer, x.1.sampled 1)

/-- Handler 0 ends with both tokens, and handler 1 with none. -/
theorem overtaken_swallows : outcome overtaken = some ((some [5, 6], [5]), some [], [6]) := by
  decide +kernel

/-- Handler 1 is added when handler 0 has returned. -/
def oneByOne : List Move :=
  [moveOf 0 0, moveOf 0 0, moveOf 0 5, moveOf 0 0, moveOf 1 0, moveOf 1 0, moveOf 1 6, moveOf 1 0]

theorem oneByOne_kept : ∃ g s, runs oneAtATime oneToken oneByOne = some (g, s) ∧
    s.handlers 1 = .ended [6] ∧ [6] = g.sampled 1 := by
  have hall : Run.AllSteps watched OwnTurn ({}, init oneAtATime oneToken) oneByOne := by
    decide +kernel
  have hout : outcome oneByOne = some ((some [5], [5]), some [6], [6]) := by decide +kernel
  obtain ⟨⟨g, s⟩, hrun, heq⟩ := Option.map_eq_some_iff.mp hout
  have hanswer : (s.handlers 1).answer = some [6] := congrArg (fun y => y.2.1) heq
  have hended := Handler.answer_eq_some.mp hanswer
  exact ⟨g, s, hrun, hended, handlers_get_their_own rfl hall hrun hended⟩

end Server

end FreeToken
