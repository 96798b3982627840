import Mathlib.Data.Option.Basic

/-!
# Runs of a partial step function

A system is a function `next` from a state and a call to the next state, or to
nothing when the call does not come back. `exec` makes a list of calls one after
the other; `AllSteps ok` says that each of them meets `ok` in the state it is made
in. An invariant of the steps that meet `ok` is an invariant of such runs.
-/

namespace Run

variable {σ τ α : Type} (next : σ → α → Option σ)

/-- The state after the calls, one after the other. -/
def exec : σ → List α → Option σ
  | s, [] => some s
  | s, a :: as =>
      match next s a with
      | none => none
      | some s' => exec s' as

/-- Every call of the run meets `ok` where it is made. -/
def AllSteps (ok : σ → α → Prop) : σ → List α → Prop
  | _, [] => True
  | s, a :: as => ok s a ∧ ∀ s', next s a = some s' → AllSteps ok s' as

instance decidableAllSteps (ok : σ → α → Prop) [∀ s a, Decidable (ok s a)] :
    ∀ (s : σ) (as : List α), Decidable (AllSteps next ok s as)
  | _, [] => isTrue trivial
  | s, a :: as =>
      match h : next s a with
      | none => decidable_of_iff (ok s a)
          ⟨fun hok => ⟨hok, fun s' hs' => by rw [h] at hs'; cases hs'⟩, fun hall => hall.1⟩
      | some s1 =>
          have := decidableAllSteps ok s1 as
          decidable_of_iff (ok s a ∧ AllSteps next ok s1 as)
            ⟨fun hall => ⟨hall.1, fun s' hs' => by rw [h] at hs'; exact Option.some.inj hs' ▸ hall.2⟩,
              fun hall => ⟨hall.1, hall.2 s1 h⟩⟩

variable {next}

theorem exec_append {s : σ} (as bs : List α) :
    exec next s (as ++ bs) = (exec next s as).bind fun s' => exec next s' bs := by
  induction as generalizing s with
  | nil => rfl
  | cons a as ih =>
      simp only [List.cons_append, exec]
      cases next s a with
      | none => rfl
      | some s' => exact ih

/-- What the first state has and every step keeps holds after the run. -/
theorem invariant {ok : σ → α → Prop} (Inv : σ → Prop)
    (hstep : ∀ s a s', Inv s → ok s a → next s a = some s' → Inv s') :
    ∀ {as : List α} {s s' : σ}, Inv s → AllSteps next ok s as → exec next s as = some s' → Inv s'
  | [], s, s', hs, _, h => by
      cases h
      exact hs
  | a :: as, s, s', hs, hall, h => by
      simp only [exec] at h
      cases hn : next s a with
      | none => simp [hn] at h
      | some s1 =>
          rw [hn] at h
          exact invariant Inv hstep (hstep s a s1 hs hall.1 hn) (hall.2 s1 hn) h

theorem allSteps_true : ∀ {as : List α} {s : σ}, AllSteps next (fun _ _ => True) s as
  | [], _ => trivial
  | _ :: _, _ => ⟨trivial, fun _ _ => allSteps_true⟩

theorem AllSteps.mono {ok ok' : σ → α → Prop} (h : ∀ s a, ok s a → ok' s a) :
    ∀ {as : List α} {s : σ}, AllSteps next ok s as → AllSteps next ok' s as
  | [], _, _ => trivial
  | _ :: _, _, hall => ⟨h _ _ hall.1, fun s' hn => (hall.2 s' hn).mono h⟩

theorem AllSteps.and {ok ok' : σ → α → Prop} : ∀ {as : List α} {s : σ},
    AllSteps next ok s as → AllSteps next ok' s as → AllSteps next (fun s a => ok s a ∧ ok' s a) s as
  | [], _, _, _ => trivial
  | _ :: _, _, h, h' => ⟨⟨h.1, h'.1⟩, fun s' hn => (h.2 s' hn).and (h'.2 s' hn)⟩

/-- Calls that change nothing where they are made can be left out. -/
theorem exec_filter {keep : α → Bool} : ∀ {as : List α} {s : σ},
    AllSteps next (fun s a => keep a = false → next s a = some s) s as →
    exec next s (as.filter keep) = exec next s as
  | [], _, _ => rfl
  | a :: as, s, hall => by
      cases hkeep : keep a with
      | false =>
          have hnext := hall.1 hkeep
          rw [List.filter_cons_of_neg (by rw [hkeep]; exact Bool.false_ne_true)]
          simp only [exec, hnext]
          exact exec_filter (hall.2 s hnext)
      | true =>
          rw [List.filter_cons_of_pos hkeep]
          simp only [exec]
          cases hnext : next s a with
          | none => rfl
          | some s1 => exact exec_filter (hall.2 s1 hnext)

/-- A run of a system that does what another does, seen through `f`. -/
theorem AllSteps.comap {next' : τ → α → Option τ} {ok : σ → α → Prop} {f : τ → σ}
    (hsim : ∀ t a t', next' t a = some t' → next (f t) a = some (f t')) :
    ∀ {as : List α} {t : τ}, AllSteps next ok (f t) as →
      AllSteps next' (fun t a => ok (f t) a) t as
  | [], _, _ => trivial
  | _ :: _, _, h => ⟨h.1, fun _ hn => (h.2 _ (hsim _ _ _ hn)).comap hsim⟩

/-- Two conditions that agree where an invariant holds, one of which keeps it, are met
by the same runs. -/
theorem allSteps_iff {pre ok ok' : σ → α → Prop} (Inv : σ → Prop)
    (hiff : ∀ s a, Inv s → pre s a → (ok s a ↔ ok' s a))
    (hstep : ∀ s a s', Inv s → pre s a → ok' s a → next s a = some s' → Inv s') :
    ∀ {as : List α} {s : σ}, Inv s → AllSteps next pre s as →
      (AllSteps next ok s as ↔ AllSteps next ok' s as)
  | [], _, _, _ => Iff.rfl
  | a :: as, s, hs, hall => by
      have hhere := hiff s a hs hall.1
      have hlater : ok' s a → ∀ s', next s a = some s' →
          (AllSteps next ok s' as ↔ AllSteps next ok' s' as) := fun hok s' hn =>
        allSteps_iff Inv hiff hstep (hstep s a s' hs hall.1 hok hn) (hall.2 s' hn)
      constructor
      · rintro ⟨hok, hrest⟩
        have hok' := hhere.mp hok
        exact ⟨hok', fun s' hn => (hlater hok' s' hn).mp (hrest s' hn)⟩
      · rintro ⟨hok', hrest⟩
        exact ⟨hhere.mpr hok', fun s' hn => (hlater hok' s' hn).mpr (hrest s' hn)⟩

/-- A run that leaves defects behind: each step adds its own, and none exactly when it
meets `ok`. Then the run adds none exactly when all its steps meet `ok`. -/
theorem exec_defects {δ : Type} {pre ok : σ → α → Prop} (Inv : σ → List δ → Prop)
    (hstep : ∀ s a s' ds, Inv s ds → pre s a → next s a = some s' →
      ∃ new, Inv s' (new ++ ds) ∧ (new = [] ↔ ok s a)) :
    ∀ {as : List α} {s s' : σ} {ds : List δ}, Inv s ds → AllSteps next pre s as →
      exec next s as = some s' →
      ∃ new, Inv s' (new ++ ds) ∧ (new = [] ↔ AllSteps next ok s as)
  | [], s, s', ds, hs, _, h => by
      cases h
      exact ⟨[], hs, by simp [AllSteps]⟩
  | a :: as, s, s', ds, hs, hall, h => by
      simp only [exec] at h
      cases hn : next s a with
      | none => simp [hn] at h
      | some s1 =>
          rw [hn] at h
          obtain ⟨new, hs1, hiff⟩ := hstep s a s1 ds hs hall.1 hn
          obtain ⟨new', hs', hiff'⟩ := exec_defects Inv hstep hs1 (hall.2 s1 hn) h
          refine ⟨new' ++ new, by rwa [List.append_assoc], ?_⟩
          rw [List.append_eq_nil_iff, hiff, hiff']
          constructor
          · rintro ⟨h1, h2⟩
            refine ⟨h2, fun s2 hn2 => ?_⟩
            rw [hn] at hn2
            exact Option.some.inj hn2 ▸ h1
          · rintro ⟨h1, h2⟩
            exact ⟨h2 s1 hn, h1⟩

/-- An invariant of every step, without a condition. -/
theorem invariant_of_all (Inv : σ → Prop) (hstep : ∀ s a s', Inv s → next s a = some s' → Inv s')
    {as : List α} {s s' : σ} (hs : Inv s) (h : exec next s as = some s') : Inv s' :=
  invariant Inv (fun s a s' hs _ hn => hstep s a s' hs hn) hs allSteps_true h

/-- `P` holds where the run starts and after every call that comes back. -/
def Throughout (next : σ → α → Option σ) (P : σ → Prop) : σ → List α → Prop
  | s, [] => P s
  | s, a :: as => P s ∧ ∀ s', next s a = some s' → Throughout next P s' as

/-- Where an invariant gives `P`, and a call keeps `P`, with the invariant, exactly when it
meets `ok`, a run that comes back has `P` throughout exactly when all its calls meet `ok`. -/
theorem throughout_iff {P : σ → Prop} {ok : σ → α → Prop} (Inv : σ → Prop)
    (hP : ∀ s, Inv s → P s)
    (hstep : ∀ s a s', Inv s → next s a = some s' → (P s' ↔ ok s a) ∧ (ok s a → Inv s')) :
    ∀ {as : List α} {s s' : σ}, Inv s → exec next s as = some s' →
      (Throughout next P s as ↔ AllSteps next ok s as)
  | [], s, s', hs, _ => iff_of_true (hP s hs) trivial
  | a :: as, s, s', hs, h => by
      simp only [exec] at h
      cases hn : next s a with
      | none => simp [hn] at h
      | some s1 =>
          rw [hn] at h
          obtain ⟨hiff, hinv⟩ := hstep s a s1 hs hn
          have hlater : ok s a → (Throughout next P s1 as ↔ AllSteps next ok s1 as) := fun hok =>
            throughout_iff Inv hP hstep (hinv hok) h
          have hhead : Throughout next P s1 as → P s1 := by
            cases as with
            | nil => exact id
            | cons b bs => exact And.left
          constructor
          · rintro ⟨-, hrest⟩
            have hok := hiff.mp (hhead (hrest s1 hn))
            refine ⟨hok, fun s2 hn2 => ?_⟩
            rw [hn] at hn2
            exact Option.some.inj hn2 ▸ (hlater hok).mp (hrest s1 hn)
          · rintro ⟨hok, hrest⟩
            refine ⟨hP s hs, fun s2 hn2 => ?_⟩
            rw [hn] at hn2
            exact Option.some.inj hn2 ▸ (hlater hok).mpr (hrest s1 hn)

/-! ### Watching a run -/

/-- A watcher beside a system that reports what its steps did. -/
def watch {β γ : Type} (next : σ → α → Option (β × σ)) (see : γ → σ → α → β → γ) :
    γ × σ → α → Option (γ × σ) := fun (g, s) a =>
  (next s a).map fun (b, s') => (see g s a b, s')

/-- Watching neither stops a run nor changes where it leads. -/
theorem exec_watch {β γ : Type} {next : σ → α → Option (β × σ)} {see : γ → σ → α → β → γ} :
    ∀ {as : List α} {g : γ} {s s' : σ},
      (∃ g', exec (watch next see) (g, s) as = some (g', s')) ↔
        exec (fun s a => (next s a).map Prod.snd) s as = some s'
  | [], g, s, s' => by simp [exec]
  | a :: as, g, s, s' => by
      simp only [exec, watch]
      cases next s a with
      | none => simp
      | some r => exact exec_watch

/-- A condition on the calls says nothing about the watcher. -/
theorem allSteps_watch {β γ : Type} {next : σ → α → Option (β × σ)} {see : γ → σ → α → β → γ}
    {ok : σ → α → Prop} : ∀ {as : List α} {g : γ} {s : σ},
      AllSteps (watch next see) (fun x a => ok x.2 a) (g, s) as ↔
        AllSteps (fun s a => (next s a).map Prod.snd) ok s as
  | [], _, _ => Iff.rfl
  | a :: as, g, s => by
      constructor
      · intro hall
        refine ⟨hall.1, fun s' hs' => ?_⟩
        obtain ⟨r, hr, rfl⟩ := Option.map_eq_some_iff.mp hs'
        exact allSteps_watch.mp (hall.2 (see g s a r.1, r.2) (by simp [watch, hr]))
      · intro hall
        refine ⟨hall.1, fun x hx => ?_⟩
        obtain ⟨r, hr, rfl⟩ := Option.map_eq_some_iff.mp hx
        exact allSteps_watch.mpr (hall.2 r.2 (by simp [hr]))

end Run
