import FreeToken.Scheduler.Admission

/-!
# The scheduler is idle only when nothing is left

A pass over the queue refuses its first fresh prompt when the footprint does not fit the
cache budget, and nothing will ever make it fit. `add` does not look at the footprint.
So the scheduler stays live as long as every prompt it accepted fits the budget alone.
-/

namespace FreeToken

namespace Scheduler

variable {s s' : Scheduler}

/-- A request that gets a row has something to extend and fits the cache budget whole. -/
def Placeable (s : Scheduler) : SchedulerCall → Prop
  | .add pending =>
      s.freeSlots ≠ [] →
        pending.inputIds ≠ [] ∧ pending.footprint ≤ s.prefillManager.cacheBudget
  | _ => True

instance (s : Scheduler) (c : SchedulerCall) : Decidable (s.Placeable c) :=
  match c with
  | .add pending => inferInstanceAs (Decidable (s.freeSlots ≠ [] →
      pending.inputIds ≠ [] ∧ pending.footprint ≤ s.prefillManager.cacheBudget))
  | .abort _ | .tick _ => isTrue trivial

/-- Only a request that gets a row is accepted. -/
theorem add_freeSlots_ne_nil {pending p : PendingReq} (h : s.add pending = .ok (p, s')) :
    s.freeSlots ≠ [] := by
  intro hnil
  simp [add, hnil] at h

/-- Every fresh entry could be placed in an empty engine. -/
structure Live (s : Scheduler) : Prop where
  ok : s.Ok
  maxRunningReq_pos : 0 < s.prefillManager.maxRunningReq
  maxExtendTokens_pos : 0 < s.maxExtendTokens
  nonempty : ∀ p ∈ s.pendingList, p.inputIds ≠ []
  fits : ∀ p ∈ s.pendingList, p.chunkedReq = none → p.footprint ≤ s.prefillManager.cacheBudget

/-- With nothing running, the first entry is admitted. -/
theorem Live.pass_ne_nil (h : s.Live) (hrun : s.runningReqs = []) {p : PendingReq}
    {ps : List PendingReq} (hp : s.pendingList = p :: ps) :
    ∃ req reqs, s.pass.reqs = req :: reqs ∧ req.seat = p.seat := by
  have hmem : p ∈ s.pendingList := by
    rw [hp]
    exact List.mem_cons_self
  have hok := h.ok.pending_ok p hmem
  have hne := h.nonempty p hmem
  have hbudget : 0 < s.adder.tokenBudget := by
    have := h.maxExtendTokens_pos
    simp only [adder]
    omega
  have htry : ∃ req a', s.adder.tryAddOne s.prefillManager.nextOid p = (some req, a') := by
    by_cases hmid : p.midChunk
    · exact PrefillAdder.tryAddOne_continues hok hmid hbudget
    · have hfresh : p.chunkedReq = none := by simpa [PendingReq.midChunk] using hmid
      refine PrefillAdder.tryAddOne_first hok hne hfresh hbudget rfl ?_ ?_
      · simp only [adder, hrun]
        exact h.maxRunningReq_pos
      · have hinflight : s.decodeManager.inflightTokens = 0 := by
          have : s.decodeManager.runningReqs = [] := hrun
          simp [DecodeManager.inflightTokens, this]
        simp only [adder, hinflight]
        have := h.fits p hmem hfresh
        omega
  obtain ⟨req, a', htry⟩ := htry
  have hext := PrefillAdder.tryAddOne_extends htry hok hne rfl (Int.le_refl _)
  rw [pass, hp, admitLoop, htry]
  dsimp only
  split <;> exact ⟨req, _, rfl, hext.seat_eq⟩

/-- Nothing is scheduled only when nothing is live. -/
theorem Live.idle (h : s.Live) (hnone : s.schedule = none) :
    s.pendingList = [] ∧ s.runningReqs = [] := by
  have hrun : s.runningReqs = [] := by
    by_contra hne
    exact schedule_ne_none_of_running hne hnone
  refine ⟨?_, hrun⟩
  cases hp : s.pendingList with
  | nil => rfl
  | cons p ps =>
      obtain ⟨req, reqs, hreqs, -⟩ := h.pass_ne_nil hrun hp
      rw [schedule_of_pass (by rw [hreqs]; exact List.cons_ne_nil _ _)] at hnone
      cases hnone

/-- Once the others are gone, a request's next batch is its own. -/
theorem Live.served (h : s.Live) {p : PendingReq} (hp : s.pendingList = [p])
    (hrun : s.runningReqs = []) :
    ∃ batch s1 req, s.schedule = some (batch, s1) ∧ req ∈ batch.reqs ∧ req.seat = p.seat := by
  obtain ⟨req, reqs, hreqs, hseat⟩ := h.pass_ne_nil hrun hp
  refine ⟨_, _, req, schedule_of_pass (by rw [hreqs]; exact List.cons_ne_nil _ _), ?_, hseat⟩
  rw [hreqs]
  exact List.mem_cons_self

/-! ### Runs -/

/-- The footprint of an entry that was split is not looked at again. -/
theorem Live.call (h : s.Live) {c : SchedulerCall} (hd : s.Driven c) (hplace : s.Placeable c)
    (hcall : s.call c = some s') : s'.Live := by
  obtain ⟨hok, hlim⟩ := call_ok h.ok hd hcall
  have hpos : 0 < s'.prefillManager.maxRunningReq ∧ 0 < s'.maxExtendTokens := by
    rw [hlim.prefill_eq.1, hlim.maxExtendTokens_eq]
    exact ⟨h.maxRunningReq_pos, h.maxExtendTokens_pos⟩
  have hpending : ∀ p ∈ s'.pendingList, p.inputIds ≠ [] ∧
      (p.chunkedReq = none → p.footprint ≤ s.prefillManager.cacheBudget) := by
    intro p hp
    cases c with
    | add pending =>
        simp only [Scheduler.call] at hcall
        cases hadd : s.add pending with
        | error err =>
            rw [hadd] at hcall
            obtain rfl := Option.some.inj hcall
            exact ⟨h.nonempty p hp, h.fits p hp⟩
        | ok r =>
            obtain ⟨p', s1⟩ := r
            rw [hadd] at hcall
            obtain rfl := Option.some.inj hcall
            have hfits := hplace (add_freeSlots_ne_nil hadd)
            obtain ⟨-, -, -, -, heq, hlist, -⟩ := add_spec h.ok hd.ok hd.chunkedReq_eq hadd
            rw [hlist, List.mem_append, List.mem_singleton] at hp
            rcases hp with hp | rfl
            · exact ⟨h.nonempty p hp, h.fits p hp⟩
            · rw [heq]
              exact ⟨hfits.1, fun _ => hfits.2⟩
    | abort uid =>
        simp only [Scheduler.call] at hcall
        rcases abort_spec h.ok uid with ⟨-, heq⟩ | ⟨seat, s1, -, -, heq, hdrop⟩
        · rw [heq] at hcall
          obtain rfl := Option.some.inj hcall
          exact ⟨h.nonempty p hp, h.fits p hp⟩
        · rw [heq] at hcall
          obtain rfl := Option.some.inj hcall
          exact ⟨h.nonempty p (hdrop.pending_sub p hp), h.fits p (hdrop.pending_sub p hp)⟩
    | tick reqs =>
        rcases tick_cases hd hcall with ⟨-, rfl⟩ | ⟨batch, s1, htick⟩
        · exact ⟨h.nonempty p hp, h.fits p hp⟩
        · rcases (htick.stepped h.ok).pending p hp with
            ⟨hp, -⟩ | ⟨p0, hp0, req, -, -, -, -, rfl⟩
          · exact ⟨h.nonempty p hp, h.fits p hp⟩
          · exact ⟨h.nonempty p0 hp0, fun hnone => by cases hnone⟩
  exact
    { ok := hok
      maxRunningReq_pos := hpos.1
      maxExtendTokens_pos := hpos.2
      nonempty := fun p hp => (hpending p hp).1
      fits := fun p hp hfresh => by
        rw [hlim.prefill_eq.2]
        exact (hpending p hp).2 hfresh }

/-- In a run that only accepts prompts that fit the cache budget alone, `schedule` finds
nothing only when nothing is live, and the last request left is served next. -/
theorem idle_iff_empty {maxRunningReq maxExtendTokens pageSize maxPages cacheBudget : Nat}
    {calls : List SchedulerCall} (hrows : 0 < maxRunningReq) (htokens : 0 < maxExtendTokens)
    (hd : Run.AllSteps Scheduler.call (fun s c => s.Driven c ∧ s.Placeable c)
      (init maxRunningReq maxExtendTokens pageSize maxPages cacheBudget) calls)
    (h : Run.exec Scheduler.call
      (init maxRunningReq maxExtendTokens pageSize maxPages cacheBudget) calls = some s) :
    (s.schedule = none ↔ s.pendingList = [] ∧ s.runningReqs = []) ∧
    ∀ p, s.pendingList = [p] → s.runningReqs = [] →
      ∃ batch s1 req, s.schedule = some (batch, s1) ∧ req ∈ batch.reqs ∧ req.seat = p.seat := by
  have hlive : s.Live := Run.invariant Live
    (fun s c s' hs hc hcall => hs.call hc.1 hc.2 hcall)
    { ok := ok_init _ _ _ _ _
      maxRunningReq_pos := hrows
      maxExtendTokens_pos := htokens
      nonempty := fun p hp => by cases hp
      fits := fun p hp => by cases hp } hd h
  refine ⟨⟨hlive.idle, fun ⟨hp, hrun⟩ => ?_⟩, fun p hp hrun => hlive.served hp hrun⟩
  have hpass : s.pass.reqs = [] := by
    rw [pass, hp]
    rfl
  have hrun' : s.decodeManager.runningReqs = [] := hrun
  rw [schedule_of_no_pass hpass, DecodeManager.scheduleNextBatch, hrun']
  rfl

/-- A prompt of three tokens, for two more. -/
def threeForTwo : PendingReq :=
  { uid := 0, inputIds := [7, 8, 9], samplingParams := { maxTokens := 2 } }

/-- A cache budget of four tokens accepts it and never schedules it. -/
theorem oversized_prompt_waits :
    Run.AllSteps Scheduler.call Driven (init 1 8 1 8 4) [.add threeForTwo] ∧
    ∃ s, Run.exec Scheduler.call (init 1 8 1 8 4) [.add threeForTwo] = some s ∧
      s.pendingList ≠ [] ∧ s.schedule = none :=
  ⟨by decide, _, rfl, by decide, by decide⟩

/-- A cache budget of five schedules it. -/
theorem fitting_prompt_runs : ∃ s,
    Run.exec Scheduler.call (init 1 8 1 8 5) [.add threeForTwo] = some s ∧
      (s.schedule = none ↔ s.pendingList = [] ∧ s.runningReqs = []) :=
  have hd : Run.AllSteps Scheduler.call (fun s c => s.Driven c ∧ s.Placeable c) (init 1 8 1 8 5)
      [.add threeForTwo] := by decide
  ⟨_, rfl, (idle_iff_empty (by decide) (by decide) hd rfl).1⟩

end Scheduler

end FreeToken
