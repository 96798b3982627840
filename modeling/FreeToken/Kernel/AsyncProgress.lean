import FreeToken.Kernel.AsyncSafety

/-!
# No wake-up is lost

Whoever is blocked is woken by a step that somebody else still has to make, so the system comes to
rest only when every client is through with its `wait`.
-/

namespace FreeToken

/-- What a thread that is not blocked does next; the rest is done to the threads. -/
def AsyncEvent.own {Client : Type} : AsyncEvent Client → Bool
  | .destroy => false
  | .wakeSubmit _ => false
  | .wakeWait _ => false
  | .wakeWorker => false
  | _ => true

namespace AsyncSystem

variable {Client Job : Type} [DecidableEq Client] {jobs : Client → Job}
  {s s' : AsyncSystem Client Job} {i j : Client}

/-- Who wakes a blocked thread. -/
structure Alert (s : AsyncSystem Client Job) : Prop where
  worker : s.thread = .blocked → s.pending → ∃ i handle, s.phase i = .claimed handle
  alive : s.worker.shutdown = false → s.thread ≠ .exited
  done : ∀ i ∈ s.doneQueue, (∃ handle, s.phase i = .waiting handle) ∧ s.worker.done = false
  slotFree : ∀ i ∈ s.slotFree, s.phase i = .submitting
  next : s.slotFree ≠ [] → s.worker.occupied = true ∨ (∃ i rc, s.phase i = .returning rc) ∨
    ∃ i, s.phase i = .submitting ∧ i ∉ s.slotFree

omit [DecidableEq Client] in
theorem alert_init (emptyJob : Job) : Alert (init emptyJob : AsyncSystem Client Job) where
  worker := fun h => by cases h
  alive := fun _ h => by cases h
  done := fun _ h => by cases h
  slotFree := fun _ h => by cases h
  next := fun h => absurd rfl h

/-- A client with a phase that `i` does not have keeps it when `i` takes another. -/
theorem setPhase_of_phase {q : ClientPhase} (hk : s.phase j = q) (hi : s.phase i ≠ q)
    (p : ClientPhase) : s.setPhase i p j = q := by
  have hne : j ≠ i := by
    rintro rfl
    exact hi hk
  rw [setPhase_of_ne s hne, hk]

/-! ### One step -/

omit [DecidableEq Client] in
/-- The worker goes to sleep only when nothing is pending. -/
theorem Alert.look (hdone : ∀ i ∈ s.doneQueue,
      (∃ handle, s.phase i = .waiting handle) ∧ s.worker.done = false)
    (hslot : ∀ i ∈ s.slotFree, s.phase i = .submitting)
    (hnext : s.slotFree ≠ [] → s.worker.occupied = true ∨ (∃ i rc, s.phase i = .returning rc) ∨
      ∃ i, s.phase i = .submitting ∧ i ∉ s.slotFree) : Alert s.look := by
  rw [AsyncSystem.look]
  split
  · exact ⟨fun h => (by cases h), fun _ h => (by cases h), hdone, hslot, hnext⟩
  · next hidle =>
      split
      · next hshutdown =>
          refine ⟨fun h => (by cases h), fun h => ?_, hdone, hslot, hnext⟩
          dsimp only at h
          rw [hshutdown] at h
          cases h
      · exact ⟨fun _ h => absurd h hidle, fun _ h => (by cases h), hdone, hslot, hnext⟩

theorem Alert.submit (h : Alert s) (hi : s.phase i = .idle ∨ s.phase i = .submitting)
    (hout : i ∉ s.slotFree) : Alert (s.submit jobs i) := by
  have hquiet : ∀ handle, s.phase i ≠ .claimed handle ∧ s.phase i ≠ .waiting handle := by
    rcases hi with hi | hi
    · rw [hi]
      simp
    · rw [hi]
      simp
  have hdone : ∀ k ∈ s.doneQueue, k ≠ i := by
    rintro k hk rfl
    obtain ⟨⟨handle, hwaiting⟩, -⟩ := h.done k hk
    exact (hquiet handle).2 hwaiting
  have hslot : ∀ k ∈ s.slotFree, k ≠ i := by
    rintro k hk rfl
    exact hout hk
  rw [AsyncSystem.submit]
  split
  · next hoccupied =>
      refine ⟨fun hblocked hpending => ?_, h.alive, fun k hk => ?_, ?_, fun _ => Or.inl hoccupied⟩
      · obtain ⟨k, handle, hk⟩ := h.worker hblocked hpending
        exact ⟨k, handle, setPhase_of_phase hk (hquiet handle).1 _⟩
      · dsimp only
        rw [setPhase_of_ne s (hdone k hk)]
        exact h.done k hk
      · dsimp only
        intro k hk
        cases hk with
        | head => rw [setPhase_self]
        | tail _ hk =>
            rw [setPhase_of_ne s (hslot k hk)]
            exact h.slotFree k hk
  · refine ⟨fun _ _ => ⟨i, _, setPhase_self s i _⟩, h.alive, fun k hk => ?_, fun k hk => ?_,
      fun _ => Or.inl rfl⟩
    · dsimp only
      rw [setPhase_of_ne s (hdone k hk)]
      exact ⟨(h.done k hk).1, rfl⟩
    · dsimp only
      rw [setPhase_of_ne s (hslot k hk)]
      exact h.slotFree k hk

/-- A client that is past its `submit` and not blocked changes its phase, and what it leaves
undone is nobody's wake-up. -/
theorem Alert.setPhase {p : ClientPhase} (h : Alert s) (hin : s.phase i ≠ .submitting)
    (hclaimed : ∀ handle, s.phase i ≠ .claimed handle)
    (hreturning : ∀ rc, s.phase i ≠ .returning rc) (hout : i ∉ s.doneQueue) :
    Alert { s with phase := s.setPhase i p } := by
  refine ⟨fun hblocked hpending => ?_, h.alive, fun k hk => ?_, fun k hk => ?_, fun hne => ?_⟩
  · obtain ⟨k, handle, hk⟩ := h.worker hblocked hpending
    exact ⟨k, handle, setPhase_of_phase hk (hclaimed handle) p⟩
  · have hne : k ≠ i := fun heq => hout (heq ▸ hk)
    dsimp only
    rw [setPhase_of_ne s hne]
    exact h.done k hk
  · exact setPhase_of_phase (h.slotFree k hk) hin p
  · rcases h.next hne with hoccupied | ⟨k, rc, hk⟩ | ⟨k, hk, hkout⟩
    · exact Or.inl hoccupied
    · exact Or.inr (Or.inl ⟨k, rc, setPhase_of_phase hk (hreturning rc) p⟩)
    · exact Or.inr (Or.inr ⟨k, setPhase_of_phase hk hin p, hkout⟩)

theorem Alert.collect (h : Alert s) (hsound : Sound jobs s) {handle : Int64}
    (hi : s.phase i = .submitted handle ∨ s.phase i = .waiting handle) (hout : i ∉ s.doneQueue) :
    Alert (s.collect i handle) := by
  have hheld : (s.phase i).held = some handle := by
    rcases hi with hi | hi <;> rw [hi] <;> rfl
  obtain ⟨earlier, hoccupied, hhandle, -⟩ := hsound.owner hheld
  have hphase : ∀ p, Alert { s with phase := s.setPhase i p } := by
    intro p
    apply h.setPhase _ _ _ hout
    · rcases hi with hi | hi <;> rw [hi] <;> simp
    · rcases hi with hi | hi <;> rw [hi] <;> simp
    · rcases hi with hi | hi <;> rw [hi] <;> simp
  rw [AsyncSystem.collect]
  split
  · next hdone =>
      have hp := hphase (.returning s.worker.rc)
      refine ⟨fun _ hpending => ?_, hp.alive, hp.done, hp.slotFree, fun _ => ?_⟩
      · rw [pending, Bool.and_eq_true] at hpending
        cases hpending.1
      · exact Or.inr (Or.inl ⟨i, _, setPhase_self s i _⟩)
  · next hnot =>
      have hp := hphase (.waiting handle)
      refine ⟨hp.worker, hp.alive, fun k hk => ?_, hp.slotFree, hp.next⟩
      dsimp only at hk ⊢
      cases hk with
      | head =>
          refine ⟨⟨handle, setPhase_self s i _⟩, ?_⟩
          cases hd : s.worker.done with
          | false => rfl
          | true => exact absurd ⟨hd, hhandle⟩ hnot
      | tail _ hk => exact hp.done k hk

omit [DecidableEq Client] in
theorem wakeThread_ne_blocked (thread : WorkerThread Job) : wakeThread thread ≠ .blocked := by
  cases thread <;> simp [wakeThread]

omit [DecidableEq Client] in
theorem wakeThread_ne_exited {thread : WorkerThread Job} (h : thread ≠ .exited) :
    wakeThread thread ≠ .exited := by
  cases thread with
  | exited => exact absurd rfl h
  | _ => simp [wakeThread]

/-- The client wakes one of the blocked ones, if there is one. -/
theorem Alert.notifySlot (h : Alert s) {rc : Int} {woken : Option Client}
    (hi : s.phase i = .returning rc)
    (hwoken : (woken = none ∧ s.slotFree = []) ∨ ∃ k ∈ s.slotFree, woken = some k) :
    Alert { s with
      phase := s.setPhase i (.returned rc)
      slotFree := s.slotFree.filter fun k => woken ≠ some k } := by
  have hother : ∀ {q}, q ≠ .returning rc → s.phase i ≠ q := fun hq heq => hq (heq ▸ hi)
  refine ⟨fun hblocked hpending => ?_, h.alive, fun k hk => ?_, fun k hk => ?_, fun hsome => ?_⟩
  · obtain ⟨k, handle, hk⟩ := h.worker hblocked hpending
    exact ⟨k, handle, setPhase_of_phase hk (hother (by simp)) _⟩
  · obtain ⟨⟨handle, hwaiting⟩, hd⟩ := h.done k hk
    exact ⟨⟨handle, setPhase_of_phase hwaiting (hother (by simp)) _⟩, hd⟩
  · exact setPhase_of_phase (h.slotFree k (List.mem_filter.mp hk).1) (hother (by simp)) _
  · rcases hwoken with ⟨-, hempty⟩ | ⟨k, hk, rfl⟩
    · exact absurd (by dsimp only; rw [hempty]; rfl) hsome
    · exact Or.inr (Or.inr ⟨k, setPhase_of_phase (h.slotFree k hk) (hother (by simp)) _, by simp⟩)

/-- The client notifies the worker of the job it has put into the slot. -/
theorem Alert.notifyJob (h : Alert s) {handle : Int64} (hi : s.phase i = .claimed handle) :
    Alert { s with thread := wakeThread s.thread, phase := s.setPhase i (.submitted handle) } := by
  have hother : ∀ {q}, q ≠ .claimed handle → s.phase i ≠ q := fun hq heq => hq (heq ▸ hi)
  refine ⟨fun hblocked _ => absurd hblocked (wakeThread_ne_blocked s.thread),
    fun hdown => wakeThread_ne_exited (h.alive hdown), fun k hk => ?_, fun k hk => ?_,
    fun hne => ?_⟩
  · obtain ⟨⟨handle', hwaiting⟩, hd⟩ := h.done k hk
    exact ⟨⟨handle', setPhase_of_phase hwaiting (hother (by simp)) _⟩, hd⟩
  · exact setPhase_of_phase (h.slotFree k hk) (hother (by simp)) _
  · rcases h.next hne with hoccupied | ⟨k, rc, hk⟩ | ⟨k, hk, hout⟩
    · exact Or.inl hoccupied
    · exact Or.inr (Or.inl ⟨k, rc, setPhase_of_phase hk (hother (by simp)) _⟩)
    · exact Or.inr (Or.inr ⟨k, setPhase_of_phase hk (hother (by simp)) _, hout⟩)

theorem Alert.next_step {event : AsyncEvent Client} (h : Alert s) (hsound : Sound jobs s)
    (hnext : s.next jobs event = some s') : Alert s' := by
  cases event with
  | submit i =>
      simp only [AsyncSystem.next] at hnext
      split at hnext
      · next hi =>
          cases hnext
          apply h.submit (Or.inl hi)
          intro hin
          rw [h.slotFree i hin] at hi
          cases hi
      · next hi =>
          split at hnext
          · cases hnext
          · next hout =>
              cases hnext
              exact h.submit (Or.inr hi) hout
      · cases hnext
  | notifyJob i =>
      simp only [AsyncSystem.next] at hnext
      split at hnext
      · next handle hi =>
          cases hnext
          exact h.notifyJob hi
      · cases hnext
  | wait i =>
      simp only [AsyncSystem.next] at hnext
      split at hnext
      · next handle hi =>
          cases hnext
          obtain ⟨earlier, hoccupied, hhandle, -⟩ := hsound.owner (i := i) (by rw [hi]; rfl)
          have hfirst : ¬ (s.worker.occupied = false ∨ handle ≠ s.worker.handle) := by
            rw [hoccupied, hhandle]
            simp
          rw [AsyncSystem.wait, if_neg hfirst]
          apply h.collect hsound (Or.inl hi)
          intro hin
          obtain ⟨⟨_, hwaiting⟩, -⟩ := h.done i hin
          rw [hi] at hwaiting
          cases hwaiting
      · cases hnext
  | recheck i =>
      simp only [AsyncSystem.next] at hnext
      split at hnext
      · next handle hi =>
          split at hnext
          · cases hnext
          · next hout =>
              cases hnext
              exact h.collect hsound (Or.inr hi) hout
      · cases hnext
  | notifySlot i woken =>
      simp only [AsyncSystem.next] at hnext
      split at hnext
      · next rc hi =>
          split at hnext
          · next hwoken =>
              cases hnext
              exact h.notifySlot hi hwoken
          · cases hnext
      · cases hnext
  | check =>
      simp only [AsyncSystem.next] at hnext
      split at hnext
      · cases hnext
        exact Alert.look h.done h.slotFree h.next
      · cases hnext
  | run rc =>
      simp only [AsyncSystem.next] at hnext
      split at hnext
      · cases hnext
        exact ⟨fun h => (by cases h), fun _ h => (by cases h), h.done, h.slotFree, h.next⟩
      · cases hnext
  | complete =>
      simp only [AsyncSystem.next] at hnext
      split at hnext
      · cases hnext
        exact Alert.look (fun _ h => (by cases h)) h.slotFree h.next
      · cases hnext
  | destroy =>
      cases hnext
      exact ⟨fun hblocked _ => absurd hblocked (wakeThread_ne_blocked s.thread),
        fun hdown => (by cases hdown), h.done, h.slotFree, h.next⟩
  | wakeSubmit i =>
      cases hnext
      refine ⟨h.worker, h.alive, h.done, fun k hk => h.slotFree k (List.mem_filter.mp hk).1,
        fun hne => ?_⟩
      by_cases hin : i ∈ s.slotFree
      · exact Or.inr (Or.inr ⟨i, h.slotFree i hin, by simp⟩)
      · have hsame : (s.slotFree.filter fun k => k ≠ i) = s.slotFree := by
          apply List.filter_eq_self.mpr
          intro k hk
          have hki : k ≠ i := fun heq => hin (heq ▸ hk)
          simpa using hki
        dsimp only at hne ⊢
        rw [hsame] at hne ⊢
        exact h.next hne
  | wakeWait i =>
      cases hnext
      exact ⟨h.worker, h.alive, fun k hk => h.done k (List.mem_filter.mp hk).1, h.slotFree, h.next⟩
  | wakeWorker =>
      cases hnext
      exact ⟨fun hblocked _ => absurd hblocked (wakeThread_ne_blocked s.thread),
        fun hdown => wakeThread_ne_exited (h.alive hdown), h.done, h.slotFree, h.next⟩

/-! ### The system at rest -/

/-- Nobody has a step of their own left, apart from the clients that have not come yet. -/
def AtRest (jobs : Client → Job) (s : AsyncSystem Client Job) : Prop :=
  ∀ event : AsyncEvent Client, event.own → (∀ i, event = .submit i → s.phase i ≠ .idle) →
    s.next jobs event = none

theorem AtRest.blocked (hrest : AtRest jobs s) (hup : s.thread ≠ .exited) :
    s.thread = .blocked := by
  cases hthread : s.thread with
  | blocked => rfl
  | exited => exact absurd hthread hup
  | checking =>
      have hcheck := hrest .check rfl (fun i h => by cases h)
      simp only [AsyncSystem.next, hthread] at hcheck
      cases hcheck
  | running localJob =>
      have hrun := hrest (.run 0) rfl (fun i h => by cases h)
      simp only [AsyncSystem.next, hthread] at hrun
      cases hrun
  | computed rc =>
      have hcomplete := hrest .complete rfl (fun i h => by cases h)
      simp only [AsyncSystem.next, hthread] at hcomplete
      cases hcomplete

/-- At rest no client has a job in the slot: one that has not come to its `wait` could go on, and
one that waits for a job that is not done has the worker awake or a client about to wake it. -/
theorem Alert.held_none (h : Alert s) (hsound : Sound jobs s) (hup : s.worker.shutdown = false)
    (hrest : AtRest jobs s) (i : Client) : (s.phase i).held = none := by
  have hclaimed : ∀ k handle, s.phase k ≠ .claimed handle := by
    intro k handle hk
    have hnotify := hrest (.notifyJob k) rfl (fun i h => by cases h)
    simp only [AsyncSystem.next, hk] at hnotify
    cases hnotify
  cases hi : s.phase i with
  | claimed handle => exact absurd hi (hclaimed i handle)
  | submitted handle =>
      have hwait := hrest (.wait i) rfl (fun i h => by cases h)
      simp only [AsyncSystem.next, hi] at hwait
      cases hwait
  | waiting handle =>
      have hcheck := hrest (.recheck i) rfl (fun i h => by cases h)
      simp only [AsyncSystem.next, hi] at hcheck
      by_cases hin : i ∈ s.doneQueue
      · obtain ⟨earlier, hoccupied, -⟩ := hsound.owner (i := i) (by rw [hi]; rfl)
        have hpending : s.pending := by
          rw [pending, hoccupied, (h.done i hin).2]
          rfl
        obtain ⟨k, handle', hk⟩ := h.worker (hrest.blocked (h.alive hup)) hpending
        exact absurd hk (hclaimed k handle')
      · rw [if_neg hin] at hcheck
        cases hcheck
  | idle => rfl
  | submitting => rfl
  | returning rc => rfl
  | returned rc => rfl

/-- At rest every client that came is through with its `wait`. -/
theorem Alert.rest (h : Alert s) (hsound : Sound jobs s) (hup : s.worker.shutdown = false)
    (hrest : AtRest jobs s) (i : Client) : s.phase i = .idle ∨ ∃ rc, s.phase i = .returned rc := by
  have hheld := h.held_none hsound hup hrest
  have hreturning : ∀ k rc, s.phase k ≠ .returning rc := by
    intro k rc hk
    obtain ⟨woken, hwoken⟩ : ∃ woken : Option Client,
        (woken = none ∧ s.slotFree = []) ∨ ∃ k ∈ s.slotFree, woken = some k := by
      cases hq : s.slotFree with
      | nil => exact ⟨none, Or.inl ⟨rfl, rfl⟩⟩
      | cons j rest => exact ⟨some j, Or.inr ⟨j, List.mem_cons_self, rfl⟩⟩
    have hnotify := hrest (.notifySlot k woken) rfl (fun i h => by cases h)
    simp only [AsyncSystem.next, hk] at hnotify
    rw [if_pos hwoken] at hnotify
    cases hnotify
  have hsubmitting : ∀ k, s.phase k = .submitting → k ∈ s.slotFree := by
    intro k hk
    by_contra hout
    have hsubmit := hrest (.submit k) rfl (fun i h => by
      cases h
      rw [hk]
      simp)
    simp only [AsyncSystem.next, hk, if_neg hout] at hsubmit
    cases hsubmit
  cases hi : s.phase i with
  | idle => exact Or.inl rfl
  | returned rc => exact Or.inr ⟨rc, rfl⟩
  | returning rc => exact absurd hi (hreturning i rc)
  | submitting =>
      have hne : s.slotFree ≠ [] := List.ne_nil_of_mem (hsubmitting i hi)
      rcases h.next hne with hoccupied | ⟨k, rc, hk⟩ | ⟨k, hk, hout⟩
      · cases hsound.slot with
        | free hfree _ _ _ =>
            rw [hfree] at hoccupied
            cases hoccupied
        | taken k _ _ _ hhandle _ _ _ =>
            rw [hheld k] at hhandle
            cases hhandle
      · exact absurd hk (hreturning k rc)
      · exact absurd (hsubmitting k hk) hout
  | claimed handle =>
      have := hheld i
      rw [hi] at this
      cases this
  | submitted handle =>
      have := hheld i
      rw [hi] at this
      cases this
  | waiting handle =>
      have := hheld i
      rw [hi] at this
      cases this

/-! ### Runs -/

/-- What the clients can rely on. `claims` and `ran` go on in step, so that each client's job is
run once. -/
structure Safe (jobs : Client → Job) (s : AsyncSystem Client Job) : Prop where
  /-- A client has put its job into the slot once, or not yet. -/
  claimed_once : s.claims.Nodup ∧ ∀ i, i ∈ s.claims ↔ s.phase i ≠ .idle ∧ s.phase i ≠ .submitting
  /-- The jobs that were run, with their arguments; at most one is still to come. -/
  ran_once : ∃ left : List Client, left.length ≤ 1 ∧
    s.claims.map jobs = s.ran.map Prod.fst ++ left.map jobs
  /-- A `wait` returns the code that the client's own run gave. -/
  own_code : ∀ i rc, (s.phase i).code = some rc →
    ∃ k : Nat, s.claims[k]? = some i ∧ s.ran[k]? = some (jobs i, rc)
  /-- The slot is taken only when everyone who had it has the code of their job. -/
  no_reuse : ∀ event s', s.next jobs event = some s' → s'.claims ≠ s.claims →
    ∀ i ∈ s.claims, ∃ rc, (s.phase i).code = some rc
  /-- Nobody is left behind while the worker is up. -/
  none_stuck : s.worker.shutdown = false → AtRest jobs s → s.ran.map Prod.fst = s.claims.map jobs ∧
    ∀ i, s.phase i = .idle ∨ ∃ rc, s.phase i = .returned rc

omit [DecidableEq Client] in
theorem Sound.ran_once (h : Sound jobs s) : ∃ left : List Client, left.length ≤ 1 ∧
    s.claims.map jobs = s.ran.map Prod.fst ++ left.map jobs := by
  cases h.slot with
  | free _ _ _ hran => exact ⟨[], Nat.zero_le 1, by rw [hran]; simp⟩
  | taken i earlier _ hlast _ _ _ hstage =>
      cases hstage with
      | pending _ _ hran => exact ⟨[i], Nat.le_refl 1, by rw [hlast, hran, List.map_append]⟩
      | running _ _ hran => exact ⟨[i], Nat.le_refl 1, by rw [hlast, hran, List.map_append]⟩
      | computed rc ran _ _ hran hbefore =>
          exact ⟨[], Nat.zero_le 1, by rw [hlast, hran]; simp [hbefore]⟩
      | done ran _ _ hran hbefore =>
          exact ⟨[], Nat.zero_le 1, by rw [hlast, hran]; simp [hbefore]⟩

omit [DecidableEq Client] in
/-- With nobody's job in the slot, whoever had it has the code. -/
theorem Sound.code_of_mem (h : Sound jobs s) (hheld : ∀ i, (s.phase i).held = none)
    (hi : i ∈ s.claims) : ∃ rc, (s.phase i).code = some rc := by
  obtain ⟨hidle, hsubmitting⟩ := (h.mem_claims i).mp hi
  have hnone := hheld i
  cases hp : s.phase i with
  | idle => exact absurd hp hidle
  | submitting => exact absurd hp hsubmitting
  | returning rc => exact ⟨rc, rfl⟩
  | returned rc => exact ⟨rc, rfl⟩
  | claimed handle =>
      rw [hp] at hnone
      cases hnone
  | submitted handle =>
      rw [hp] at hnone
      cases hnone
  | waiting handle =>
      rw [hp] at hnone
      cases hnone

omit [DecidableEq Client] in
theorem Sound.held_none (h : Sound jobs s) (hfree : s.worker.occupied = false) (i : Client) :
    (s.phase i).held = none := by
  cases h.slot with
  | free _ _ hnone _ => exact hnone i
  | taken _ _ hoccupied _ _ _ _ _ =>
      rw [hfree] at hoccupied
      cases hoccupied

/-- Only a `submit` that finds the slot free puts a job into it. -/
theorem occupied_of_claims {event : AsyncEvent Client} (hnext : s.next jobs event = some s')
    (hne : s'.claims ≠ s.claims) : s.worker.occupied = false := by
  have hsubmit : ∀ i, (s.submit jobs i).claims ≠ s.claims → s.worker.occupied = false := by
    intro i hi
    rw [submit] at hi
    cases hoccupied : s.worker.occupied with
    | false => rfl
    | true =>
        rw [if_pos hoccupied] at hi
        exact absurd rfl hi
  have hcollect : ∀ i handle, (s.collect i handle).claims = s.claims := by
    intro i handle
    rw [collect]
    split <;> rfl
  have hlook : ∀ s : AsyncSystem Client Job, s.look.claims = s.claims := by
    intro s
    rw [look]
    split
    · rfl
    · split <;> rfl
  cases event with
  | submit i =>
      simp only [AsyncSystem.next] at hnext
      split at hnext
      · cases hnext
        exact hsubmit i hne
      · split at hnext
        · cases hnext
        · cases hnext
          exact hsubmit i hne
      · cases hnext
  | wait i =>
      simp only [AsyncSystem.next] at hnext
      split at hnext
      · next handle _ =>
          cases hnext
          refine absurd ?_ hne
          rw [AsyncSystem.wait]
          split
          · rfl
          · exact hcollect i handle
      · cases hnext
  | recheck i =>
      simp only [AsyncSystem.next] at hnext
      split at hnext
      · next handle _ =>
          split at hnext
          · cases hnext
          · cases hnext
            exact absurd (hcollect i handle) hne
      · cases hnext
  | check =>
      simp only [AsyncSystem.next] at hnext
      split at hnext
      · cases hnext
        exact absurd (hlook s) hne
      · cases hnext
  | complete =>
      simp only [AsyncSystem.next] at hnext
      split at hnext
      · cases hnext
        exact absurd (hlook _) hne
      · cases hnext
  | notifyJob i =>
      simp only [AsyncSystem.next] at hnext
      split at hnext
      · cases hnext
        exact absurd rfl hne
      · cases hnext
  | notifySlot i woken =>
      simp only [AsyncSystem.next] at hnext
      split at hnext
      · split at hnext
        · cases hnext
          exact absurd rfl hne
        · cases hnext
      · cases hnext
  | run rc =>
      simp only [AsyncSystem.next] at hnext
      split at hnext
      · cases hnext
        exact absurd rfl hne
      · cases hnext
  | destroy =>
      cases hnext
      exact absurd rfl hne
  | wakeSubmit i =>
      cases hnext
      exact absurd rfl hne
  | wakeWait i =>
      cases hnext
      exact absurd rfl hne
  | wakeWorker =>
      cases hnext
      exact absurd rfl hne

theorem Sound.safe (h : Sound jobs s) (halert : Alert s) : Safe jobs s where
  claimed_once := ⟨h.nodup, h.mem_claims⟩
  ran_once := h.ran_once
  own_code := h.codes
  no_reuse := fun _ _ hnext hne _ hi =>
    h.code_of_mem (h.held_none (occupied_of_claims hnext hne)) hi
  none_stuck := by
    intro hup hrest
    refine ⟨?_, halert.rest h hup hrest⟩
    cases h.slot with
    | free _ _ _ hran => exact hran
    | taken i _ _ _ hhandle _ _ _ =>
        rw [halert.held_none h hup hrest i] at hhandle
        cases hhandle

/-- However the worker and its clients take turns, each job is run once, on its own arguments,
each `wait` returns its own job's code, and the slot is not taken again before that. -/
theorem jobs_run_once (jobs : Client → Job) (emptyJob : Job) {events : List (AsyncEvent Client)}
    {s : AsyncSystem Client Job} (hrun : Run.exec (next jobs) (init emptyJob) events = some s) :
    Safe jobs s := by
  have hboth : Sound jobs s ∧ Alert s := by
    apply Run.invariant_of_all (fun s => Sound jobs s ∧ Alert s) _ _ hrun
    · rintro s event s' ⟨hsound, halert⟩ hnext
      exact ⟨hsound.next hnext, halert.next_step hsound hnext⟩
    · exact ⟨sound_init jobs emptyJob, alert_init emptyJob⟩
  exact hboth.1.safe hboth.2

/-- Two clients; the second blocks in `submit` until the first has its code. -/
def twoClients : List (AsyncEvent Bool) :=
  [.check, .submit false, .submit true, .notifyJob false, .wait false, .wakeWait false, .check,
    .recheck false, .run 7, .complete, .recheck false, .notifySlot false (some true),
    .submit true, .wakeWorker, .check, .run (-2), .complete, .notifyJob true, .wait true,
    .notifySlot true none]

def twoJobs : Bool → Nat
  | false => 10
  | true => 20

theorem twoClients_served :
    ((Run.exec (next twoJobs) (init 0) twoClients).map fun s => (s.ran, s.phase false, s.phase true))
        = some ([(10, 7), (20, -2)], .returned 7, .returned (-2)) ∧
      ∃ s, Run.exec (next twoJobs) (init 0) twoClients = some s ∧ Safe twoJobs s := by
  have hsome : (Run.exec (next twoJobs) (init 0) twoClients).isSome := by decide +kernel
  have hrun := (Option.some_get hsome).symm
  exact ⟨by decide +kernel, _, hrun, jobs_run_once twoJobs 0 hrun⟩

end AsyncSystem

end FreeToken
