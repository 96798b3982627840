import FreeToken.Kernel.AsyncWorker

/-!
# The worker runs every job once

`Slot` says who holds the job slot and how far the worker is with the job. The jobs that were run
are those that were put into the slot, in that order, and the last of them may still be to come.
-/

namespace FreeToken

/-- The handle of a client whose job is in the slot. -/
def ClientPhase.held : ClientPhase → Option Int64
  | .claimed handle => some handle
  | .submitted handle => some handle
  | .waiting handle => some handle
  | _ => none

/-- The return code of a client that is through with its `wait`. -/
def ClientPhase.code : ClientPhase → Option Int
  | .returning rc => some rc
  | .returned rc => some rc
  | _ => none

/-- Two phases with the same handle and the same code. -/
structure ClientPhase.Alike (p q : ClientPhase) : Prop where
  held_eq : q.held = p.held
  code_eq : q.code = p.code
  start_iff : (q ≠ .idle ∧ q ≠ .submitting) ↔ (p ≠ .idle ∧ p ≠ .submitting)

theorem ClientPhase.Alike.refl (p : ClientPhase) : p.Alike p := ⟨rfl, rfl, Iff.rfl⟩

/-- The thread has no job. -/
def WorkerThread.resting {Job : Type} : WorkerThread Job → Bool
  | .running _ => false
  | .computed _ => false
  | _ => true

namespace AsyncSystem

variable {Client Job : Type} [DecidableEq Client] {jobs : Client → Job}
  {s s' : AsyncSystem Client Job} {i j : Client}

/-- How far the worker is with the job `job` in the slot, and the jobs run before it. -/
inductive Stage (job : Job) (before : List Job) (s : AsyncSystem Client Job) : Prop where
  | pending (hdone : s.worker.done = false) (hthread : s.thread.resting)
      (hran : s.ran.map Prod.fst = before)
  | running (hdone : s.worker.done = false) (hthread : s.thread = .running job)
      (hran : s.ran.map Prod.fst = before)
  | computed (rc : Int) (ran : List (Job × Int)) (hdone : s.worker.done = false)
      (hthread : s.thread = .computed rc) (hran : s.ran = ran ++ [(job, rc)])
      (hbefore : ran.map Prod.fst = before)
  | done (ran : List (Job × Int)) (hdone : s.worker.done = true) (hthread : s.thread.resting)
      (hran : s.ran = ran ++ [(job, s.worker.rc)]) (hbefore : ran.map Prod.fst = before)

/-- Who holds the slot. -/
inductive Slot (jobs : Client → Job) (s : AsyncSystem Client Job) : Prop where
  | free (hoccupied : s.worker.occupied = false) (hthread : s.thread.resting)
      (hnone : ∀ i, (s.phase i).held = none) (hran : s.ran.map Prod.fst = s.claims.map jobs)
  | taken (i : Client) (earlier : List Client) (hoccupied : s.worker.occupied = true)
      (hclaims : s.claims = earlier ++ [i]) (hhandle : (s.phase i).held = some s.worker.handle)
      (hnone : ∀ j, j ≠ i → (s.phase j).held = none) (hjob : s.worker.job = jobs i)
      (hstage : Stage (jobs i) (earlier.map jobs) s)

structure Sound (jobs : Client → Job) (s : AsyncSystem Client Job) : Prop where
  nodup : s.claims.Nodup
  mem_claims : ∀ i, i ∈ s.claims ↔ s.phase i ≠ .idle ∧ s.phase i ≠ .submitting
  slot : Slot jobs s
  codes : ∀ i rc, (s.phase i).code = some rc →
    ∃ k : Nat, s.claims[k]? = some i ∧ s.ran[k]? = some (jobs i, rc)

omit [DecidableEq Client] in
theorem sound_init (jobs : Client → Job) (emptyJob : Job) :
    Sound jobs (init emptyJob : AsyncSystem Client Job) where
  nodup := List.nodup_nil
  mem_claims := fun i => by simp [init]
  slot := Slot.free rfl rfl (fun _ => rfl) rfl
  codes := fun _ _ h => by cases h

theorem setPhase_self (s : AsyncSystem Client Job) (i : Client) (p : ClientPhase) :
    s.setPhase i p i = p := by
  rw [setPhase, Function.update_self]

theorem setPhase_of_ne (s : AsyncSystem Client Job) {i j : Client} (h : j ≠ i) (p : ClientPhase) :
    s.setPhase i p j = s.phase j := by
  rw [setPhase, Function.update_of_ne h]

/-- What holds of the new phase of one client and of the phases of the others. -/
theorem forall_setPhase {P : Client → ClientPhase → Prop} {p : ClientPhase} (hi : P i p)
    (h : ∀ j, j ≠ i → P j (s.phase j)) (j : Client) : P j (s.setPhase i p j) := by
  by_cases hj : j = i
  · subst hj
    rw [setPhase_self]
    exact hi
  · rw [setPhase_of_ne s hj]
    exact h j hj

/-! ### Steps outside the slot -/

omit [DecidableEq Client] in
theorem Stage.move {job : Job} {before : List Job} (h : Stage job before s)
    (hworker : s'.worker.done = s.worker.done ∧ s'.worker.rc = s.worker.rc) (hran : s'.ran = s.ran)
    (hthread : s'.thread = s.thread ∨ (s'.thread.resting ∧ s.thread.resting)) :
    Stage job before s' := by
  have hresting : s.thread.resting → s'.thread.resting := by
    intro hr
    rcases hthread with heq | hboth
    · exact heq ▸ hr
    · exact hboth.1
  have hsame : s.thread.resting = false → s'.thread = s.thread := by
    intro hr
    rcases hthread with heq | hboth
    · exact heq
    · rw [hr] at hboth
      cases hboth.2
  cases h with
  | pending hdone hrest hmap =>
      exact Stage.pending (hworker.1.trans hdone) (hresting hrest) (hran ▸ hmap)
  | running hdone hrun hmap =>
      exact Stage.running (hworker.1.trans hdone) ((hsame (by rw [hrun]; rfl)).trans hrun)
        (hran ▸ hmap)
  | computed rc ran hdone hrun hmap hbefore =>
      exact Stage.computed rc ran (hworker.1.trans hdone)
        ((hsame (by rw [hrun]; rfl)).trans hrun) (hran.trans hmap) hbefore
  | done ran hdone hrest hmap hbefore =>
      refine Stage.done ran (hworker.1.trans hdone) (hresting hrest) ?_ hbefore
      rw [hran, hmap, hworker.2]

omit [DecidableEq Client] in
/-- A step that moves no job. -/
theorem Sound.move (h : Sound jobs s)
    (hworker : s'.worker = { s.worker with shutdown := s'.worker.shutdown })
    (hphase : ∀ i, (s.phase i).Alike (s'.phase i)) (hclaims : s'.claims = s.claims)
    (hran : s'.ran = s.ran)
    (hthread : s'.thread = s.thread ∨ (s'.thread.resting ∧ s.thread.resting)) : Sound jobs s' := by
  have hheld : ∀ i, (s'.phase i).held = (s.phase i).held := fun i => (hphase i).held_eq
  refine ⟨hclaims ▸ h.nodup, fun i => ?_, ?_, fun i rc hi => ?_⟩
  · rw [hclaims, h.mem_claims i]
    exact (hphase i).start_iff.symm
  · cases h.slot with
    | free hoccupied hrest hnone hmap =>
        refine Slot.free ?_ ?_ (fun i => (hheld i).trans (hnone i)) ?_
        · rw [hworker]
          exact hoccupied
        · rcases hthread with heq | hboth
          · exact heq ▸ hrest
          · exact hboth.1
        · rw [hran, hclaims]
          exact hmap
    | taken i earlier hoccupied hlast hhandle hnone hjob hstage =>
        refine Slot.taken i earlier ?_ (hclaims.trans hlast) ?_
          (fun j hj => (hheld j).trans (hnone j hj)) ?_ (hstage.move ?_ hran hthread)
        · rw [hworker]
          exact hoccupied
        · rw [hworker, hheld]
          exact hhandle
        · rw [hworker]
          exact hjob
        · rw [hworker]
          exact ⟨rfl, rfl⟩
  · rw [hclaims, hran]
    apply h.codes i rc
    rw [← (hphase i).code_eq]
    exact hi

/-! ### Steps of the slot -/

/-- The client whose job is in the slot. -/
theorem Sound.owner (h : Sound jobs s) {handle : Int64} (hi : (s.phase i).held = some handle) :
    ∃ earlier, s.worker.occupied = true ∧ s.worker.handle = handle ∧ s.claims = earlier ++ [i] ∧
      (∀ j, j ≠ i → (s.phase j).held = none) ∧ Stage (jobs i) (earlier.map jobs) s := by
  cases h.slot with
  | free hoccupied hrest hnone hmap =>
      rw [hnone i] at hi
      cases hi
  | taken k earlier hoccupied hlast hhandle hnone hjob hstage =>
      have hik : i = k := by
        by_contra hne
        rw [hnone i hne] at hi
        cases hi
      subst hik
      rw [hi, Option.some.injEq] at hhandle
      exact ⟨earlier, hoccupied, hhandle.symm, hlast, hnone, hstage⟩

/-- A job is put into the free slot. -/
theorem Sound.claim (h : Sound jobs s) (hi : s.phase i = .idle ∨ s.phase i = .submitting)
    (hfree : s.worker.occupied = false) : Sound jobs (s.submit jobs i) := by
  have hnew : i ∉ s.claims := by
    rw [h.mem_claims i]
    rintro ⟨hidle, hsubmitting⟩
    exact hi.elim hidle hsubmitting
  have hcode : (s.phase i).code = none := by
    rcases hi with hi | hi <;> rw [hi] <;> rfl
  rw [submit, hfree, if_neg Bool.false_ne_true]
  cases h.slot with
  | taken k earlier hoccupied _ _ _ _ _ =>
      rw [hfree] at hoccupied
      cases hoccupied
  | free _ hrest hnone hmap =>
      refine ⟨?_, fun j => ?_, ?_, fun j rc hj => ?_⟩
      · exact (List.perm_append_singleton i s.claims).nodup_iff.mpr
          (List.nodup_cons.mpr ⟨hnew, h.nodup⟩)
      · dsimp only
        rw [List.mem_append, List.mem_singleton]
        by_cases hj : j = i
        · subst hj
          rw [setPhase_self]
          simp
        · rw [setPhase_of_ne s hj, ← h.mem_claims j]
          exact or_iff_left hj
      · refine Slot.taken i s.claims rfl rfl ?_ (fun j hj => ?_) rfl (Stage.pending rfl hrest hmap)
        · dsimp only
          rw [setPhase_self]
          rfl
        · dsimp only
          rw [setPhase_of_ne s hj]
          exact hnone j
      · have hne : j ≠ i := by
          rintro rfl
          dsimp only at hj
          rw [setPhase_self] at hj
          cases hj
        dsimp only at hj
        rw [setPhase_of_ne s hne] at hj
        obtain ⟨k, hk, hrc⟩ := h.codes j rc hj
        exact ⟨k, List.getElem?_append_left (List.getElem?_eq_some_iff.mp hk).1 ▸ hk, hrc⟩

/-- The client of the job in the slot takes its code, or goes on waiting. -/
theorem Sound.collect (h : Sound jobs s) {handle : Int64} (hi : (s.phase i).held = some handle) :
    Sound jobs (s.collect i handle) := by
  obtain ⟨earlier, hoccupied, hhandle, hlast, hnone, hstage⟩ := h.owner hi
  have hin : s.phase i ≠ .idle ∧ s.phase i ≠ .submitting := by
    constructor
    · intro heq
      rw [heq] at hi
      cases hi
    · intro heq
      rw [heq] at hi
      cases hi
  have hcode : (s.phase i).code = none := by
    cases hp : s.phase i with
    | returning rc =>
        rw [hp] at hi
        cases hi
    | returned rc =>
        rw [hp] at hi
        cases hi
    | idle => rfl
    | submitting => rfl
    | claimed _ => rfl
    | submitted _ => rfl
    | waiting _ => rfl
  rw [AsyncSystem.collect]
  split
  · next hdone =>
      cases hstage with
      | pending hnot _ _ => exact absurd hdone.1 (by rw [hnot]; exact Bool.false_ne_true)
      | running hnot _ _ => exact absurd hdone.1 (by rw [hnot]; exact Bool.false_ne_true)
      | computed _ _ hnot _ _ _ => exact absurd hdone.1 (by rw [hnot]; exact Bool.false_ne_true)
      | done ran _ hrest hran hbefore =>
          have hmap : s.ran.map Prod.fst = s.claims.map jobs := by
            rw [hran, hlast, List.map_append, List.map_append, hbefore]
            rfl
          refine ⟨h.nodup, fun j => ?_, ?_, fun j rc hj => ?_⟩
          · rw [h.mem_claims j]
            by_cases hj : j = i
            · subst hj
              dsimp only
              rw [setPhase_self]
              simp [hin]
            · dsimp only
              rw [setPhase_of_ne s hj]
          · refine Slot.free rfl hrest (fun j => ?_) hmap
            by_cases hj : j = i
            · subst hj
              dsimp only
              rw [setPhase_self]
              rfl
            · dsimp only
              rw [setPhase_of_ne s hj]
              exact hnone j hj
          · by_cases hj' : j = i
            · subst hj'
              dsimp only at hj
              rw [setPhase_self, ClientPhase.code, Option.some.injEq] at hj
              have hlen : ran.length = earlier.length := by
                have := congrArg List.length hbefore
                rwa [List.length_map, List.length_map] at this
              refine ⟨earlier.length, ?_, ?_⟩
              · dsimp only
                rw [hlast, List.getElem?_concat_length]
              · dsimp only
                rw [hran, ← hlen, List.getElem?_concat_length, hj]
            · dsimp only at hj
              rw [setPhase_of_ne s hj'] at hj
              exact h.codes j rc hj
  · refine h.move rfl ?_ rfl rfl (Or.inl rfl)
    apply forall_setPhase
    · refine ⟨?_, ?_, ?_⟩
      · rw [hi]
        rfl
      · rw [hcode]
        rfl
      · simp [hin]
    · exact fun j _ => ClientPhase.Alike.refl _

omit [DecidableEq Client] in
/-- Resting, the worker takes the job in the slot, or goes to sleep. -/
theorem Sound.look (h : Sound jobs s) (hrest : s.thread.resting) : Sound jobs s.look := by
  rw [AsyncSystem.look]
  split
  · next hpending =>
      rw [pending, Bool.and_eq_true, Bool.not_eq_true'] at hpending
      cases h.slot with
      | free hoccupied _ _ _ =>
          rw [hoccupied] at hpending
          cases hpending.1
      | taken i earlier hoccupied hlast hhandle hnone hjob hstage =>
          refine ⟨h.nodup, h.mem_claims, ?_, h.codes⟩
          refine Slot.taken i earlier hoccupied hlast hhandle hnone hjob ?_
          cases hstage with
          | pending hdone _ hmap => exact Stage.running hdone (by rw [hjob]) hmap
          | running _ hrun _ =>
              rw [hrun] at hrest
              cases hrest
          | computed _ _ _ hrun _ _ =>
              rw [hrun] at hrest
              cases hrest
          | done _ hdone _ _ _ =>
              rw [hdone] at hpending
              cases hpending.2
  · split
    · exact h.move rfl (fun i => ClientPhase.Alike.refl _) rfl rfl (Or.inr ⟨rfl, hrest⟩)
    · exact h.move rfl (fun i => ClientPhase.Alike.refl _) rfl rfl (Or.inr ⟨rfl, hrest⟩)

omit [DecidableEq Client] in
/-- `run_job` is called on the arguments of the job in the slot. -/
theorem Sound.run (h : Sound jobs s) {localJob : Job} (hrun : s.thread = .running localJob) (rc : Int) :
    Sound jobs { s with thread := .computed rc, ran := s.ran ++ [(localJob, rc)] } := by
  refine ⟨h.nodup, h.mem_claims, ?_, fun i rc' hi => ?_⟩
  · cases h.slot with
    | free _ hrest _ _ =>
        rw [hrun] at hrest
        cases hrest
    | taken i earlier hoccupied hlast hhandle hnone hjob hstage =>
        refine Slot.taken i earlier hoccupied hlast hhandle hnone hjob ?_
        cases hstage with
        | pending _ hrest _ =>
            rw [hrun] at hrest
            cases hrest
        | running hdone hthread hmap =>
            rw [hrun, WorkerThread.running.injEq] at hthread
            exact Stage.computed rc s.ran hdone rfl (by rw [hthread]) hmap
        | computed _ _ _ hthread _ _ =>
            rw [hrun] at hthread
            cases hthread
        | done _ _ hrest _ _ =>
            rw [hrun] at hrest
            cases hrest
  · obtain ⟨k, hk, hrc⟩ := h.codes i rc' hi
    exact ⟨k, hk, List.getElem?_append_left (List.getElem?_eq_some_iff.mp hrc).1 ▸ hrc⟩

omit [DecidableEq Client] in
theorem Sound.complete (h : Sound jobs s) {rc : Int} (hthread : s.thread = .computed rc) :
    Sound jobs (s.complete rc) := by
  -- the job is done before the worker looks at the slot again
  have hdone : Sound jobs
      { s with
        worker := { s.worker with rc := rc, done := true }, thread := .checking, doneQueue := [] } := by
    refine ⟨h.nodup, h.mem_claims, ?_, h.codes⟩
    cases h.slot with
    | free _ hrest _ _ =>
        rw [hthread] at hrest
        cases hrest
    | taken i earlier hoccupied hlast hhandle hnone hjob hstage =>
        refine Slot.taken i earlier hoccupied hlast hhandle hnone hjob ?_
        cases hstage with
        | pending _ hrest _ =>
            rw [hthread] at hrest
            cases hrest
        | running _ hrun _ =>
            rw [hthread] at hrun
            cases hrun
        | computed rc' ran _ hrun hran hbefore =>
            rw [hthread, WorkerThread.computed.injEq] at hrun
            exact Stage.done ran rfl rfl (by rw [hran, hrun]) hbefore
        | done _ _ hrest _ _ =>
            rw [hthread] at hrest
            cases hrest
  have hlook := hdone.look rfl
  rw [AsyncSystem.complete]
  rw [AsyncSystem.look] at hlook ⊢
  exact hlook

omit [DecidableEq Client] in
theorem wakeThread_resting (thread : WorkerThread Job) :
    wakeThread thread = thread ∨ ((wakeThread thread).resting ∧ thread.resting) := by
  cases thread with
  | blocked => exact Or.inr ⟨rfl, rfl⟩
  | checking => exact Or.inl rfl
  | running _ => exact Or.inl rfl
  | computed _ => exact Or.inl rfl
  | exited => exact Or.inl rfl

theorem Sound.submit (h : Sound jobs s) (hi : s.phase i = .idle ∨ s.phase i = .submitting) :
    Sound jobs (s.submit jobs i) := by
  cases hoccupied : s.worker.occupied with
  | false => exact h.claim hi hoccupied
  | true =>
      rw [AsyncSystem.submit, if_pos hoccupied]
      refine h.move rfl ?_ rfl rfl (Or.inl rfl)
      apply forall_setPhase
      · rcases hi with hi | hi
        · rw [hi]
          exact ⟨rfl, rfl, by simp⟩
        · rw [hi]
          exact ClientPhase.Alike.refl _
      · exact fun j _ => ClientPhase.Alike.refl _

theorem Sound.wait (h : Sound jobs s) {handle : Int64} (hi : s.phase i = .submitted handle) :
    Sound jobs (s.wait i handle) := by
  have hheld : (s.phase i).held = some handle := by rw [hi]; rfl
  obtain ⟨earlier, hoccupied, hhandle, -⟩ := h.owner hheld
  -- the handle is the one in the slot
  have hfirst : ¬ (s.worker.occupied = false ∨ handle ≠ s.worker.handle) := by
    rw [hoccupied, hhandle]
    simp
  rw [AsyncSystem.wait, if_neg hfirst]
  exact h.collect hheld

theorem Sound.next {event : AsyncEvent Client} (h : Sound jobs s)
    (hnext : s.next jobs event = some s') : Sound jobs s' := by
  cases event with
  | submit i =>
      simp only [AsyncSystem.next] at hnext
      split at hnext
      · next hi =>
          cases hnext
          exact h.submit (Or.inl hi)
      · next hi =>
          split at hnext
          · cases hnext
          · cases hnext
            exact h.submit (Or.inr hi)
      · cases hnext
  | notifyJob i =>
      simp only [AsyncSystem.next] at hnext
      split at hnext
      · next handle hi =>
          cases hnext
          refine h.move rfl ?_ rfl rfl (wakeThread_resting s.thread)
          apply forall_setPhase
          · rw [hi]
            exact ⟨rfl, rfl, by simp⟩
          · exact fun j _ => ClientPhase.Alike.refl _
      · cases hnext
  | wait i =>
      simp only [AsyncSystem.next] at hnext
      split at hnext
      · next handle hi =>
          cases hnext
          exact h.wait hi
      · cases hnext
  | recheck i =>
      simp only [AsyncSystem.next] at hnext
      split at hnext
      · next handle hi =>
          split at hnext
          · cases hnext
          · cases hnext
            exact h.collect (by rw [hi]; rfl)
      · cases hnext
  | notifySlot i woken =>
      simp only [AsyncSystem.next] at hnext
      split at hnext
      · next rc hi =>
          split at hnext
          · cases hnext
            refine h.move rfl ?_ rfl rfl (Or.inl rfl)
            apply forall_setPhase
            · rw [hi]
              exact ⟨rfl, rfl, by simp⟩
            · exact fun j _ => ClientPhase.Alike.refl _
          · cases hnext
      · cases hnext
  | check =>
      simp only [AsyncSystem.next] at hnext
      split at hnext
      · next hthread =>
          cases hnext
          exact h.look (by rw [hthread]; rfl)
      · cases hnext
  | run rc =>
      simp only [AsyncSystem.next] at hnext
      split at hnext
      · next localJob hthread =>
          cases hnext
          exact h.run hthread rc
      · cases hnext
  | complete =>
      simp only [AsyncSystem.next] at hnext
      split at hnext
      · next rc hthread =>
          cases hnext
          exact h.complete hthread
      · cases hnext
  | destroy =>
      cases hnext
      exact h.move rfl (fun i => ClientPhase.Alike.refl _) rfl rfl (wakeThread_resting s.thread)
  | wakeSubmit i =>
      cases hnext
      exact h.move rfl (fun i => ClientPhase.Alike.refl _) rfl rfl (Or.inl rfl)
  | wakeWait i =>
      cases hnext
      exact h.move rfl (fun i => ClientPhase.Alike.refl _) rfl rfl (Or.inl rfl)
  | wakeWorker =>
      cases hnext
      exact h.move rfl (fun i => ClientPhase.Alike.refl _) rfl rfl (wakeThread_resting s.thread)

end AsyncSystem

end FreeToken
