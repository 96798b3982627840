import FreeToken.Lib.Reader
import Mathlib.Data.List.Forall2

/-!
# The phrases of a reader

`Parses p Q` says that `p` succeeds exactly on the lists that begin with a phrase of `Q`, and
takes that phrase. `Breaks bad p B` says that `p` ends in a bad error exactly on the lists of
`B`. Both go along `>>=` and along a counted loop, so that what a reader takes and where it
breaks is found one production at a time.
-/

namespace Reader

variable {ε β α γ : Type}

/-- `p` succeeds exactly on the lists that begin with a phrase of `Q`. -/
def Parses (p : Reader ε β α) (Q : List β → α → Prop) : Prop :=
  ∀ xs a rest, p xs = .ok (a, rest) ↔ ∃ phrase, xs = phrase ++ rest ∧ Q phrase a

/-- `p` ends in a bad error exactly on the lists of `B`. -/
def Breaks (bad : ε → Prop) (p : Reader ε β α) (B : List β → Prop) : Prop :=
  ∀ xs, (∃ e, p xs = .error e ∧ bad e) ↔ B xs

theorem bind_eq_ok {p : Reader ε β α} {f : α → Reader ε β γ} {xs rest : List β} {c : γ} :
    (p >>= f) xs = .ok (c, rest) ↔ ∃ a mid, p xs = .ok (a, mid) ∧ f a mid = .ok (c, rest) := by
  rw [bind_apply]
  cases p xs with
  | error e => simp
  | ok r =>
      constructor
      · intro h
        exact ⟨r.1, r.2, rfl, h⟩
      · rintro ⟨a, mid, hr, h⟩
        cases hr
        exact h

theorem bind_eq_error {p : Reader ε β α} {f : α → Reader ε β γ} {xs : List β} {e : ε} :
    (p >>= f) xs = .error e ↔
      p xs = .error e ∨ ∃ a mid, p xs = .ok (a, mid) ∧ f a mid = .error e := by
  rw [bind_apply]
  cases p xs with
  | error e' => simp
  | ok r =>
      constructor
      · intro h
        exact .inr ⟨r.1, r.2, rfl, h⟩
      · rintro (h | ⟨a, mid, hr, h⟩)
        · cases h
        · cases hr
          exact h

/-! ### What is taken -/

theorem Parses.congr {p : Reader ε β α} {Q R : List β → α → Prop} (h : Parses p Q)
    (hQR : ∀ phrase a, Q phrase a ↔ R phrase a) : Parses p R := by
  intro xs a rest
  simp only [h xs a rest, hQR]

theorem Parses.pure (a : α) :
    Parses (Pure.pure a : Reader ε β α) fun phrase b => phrase = [] ∧ a = b := by
  intro xs b rest
  constructor
  · intro h
    cases h
    exact ⟨[], rfl, rfl, rfl⟩
  · rintro ⟨phrase, rfl, rfl, rfl⟩
    rfl

theorem Parses.fail (e : ε) : Parses (fail e : Reader ε β α) fun _ _ => False := by
  intro xs a rest
  constructor
  · rintro ⟨⟩
  · rintro ⟨_, _, ⟨⟩⟩

theorem Parses.take (short : Nat → ε) (n : Nat) :
    Parses (Reader.take short n : Reader ε β (List β)) fun phrase a =>
      phrase.length = n ∧ phrase = a := by
  intro xs a rest
  rw [Reader.take]
  constructor
  · intro h
    split at h
    · next hle =>
        cases h
        refine ⟨xs.take n, (List.take_append_drop n xs).symm, ?_, rfl⟩
        rw [List.length_take]
        exact Nat.min_eq_left hle
    · cases h
  · rintro ⟨phrase, rfl, rfl, rfl⟩
    rw [if_pos (by rw [List.length_append]; exact Nat.le_add_right _ _), List.take_left,
      List.drop_left]

theorem Parses.bind {p : Reader ε β α} {f : α → Reader ε β γ} {Q : List β → α → Prop}
    {R : α → List β → γ → Prop} (hp : Parses p Q) (hf : ∀ a, Parses (f a) (R a)) :
    Parses (p >>= f) fun phrase c =>
      ∃ a u v, phrase = u ++ v ∧ Q u a ∧ R a v c := by
  intro xs c rest
  rw [bind_eq_ok]
  constructor
  · rintro ⟨a, mid, hfirst, hsecond⟩
    obtain ⟨u, rfl, hQ⟩ := (hp _ _ _).mp hfirst
    obtain ⟨v, rfl, hR⟩ := (hf a _ _ _).mp hsecond
    exact ⟨u ++ v, (List.append_assoc _ _ _).symm, a, u, v, rfl, hQ, hR⟩
  · rintro ⟨_, rfl, a, u, v, rfl, hQ, hR⟩
    refine ⟨a, v ++ rest, (hp _ _ _).mpr ⟨u, List.append_assoc _ _ _, hQ⟩, ?_⟩
    exact (hf a _ _ _).mpr ⟨v, rfl, hR⟩

theorem Parses.map {p : Reader ε β α} {Q : List β → α → Prop} (hp : Parses p Q) (g : α → γ) :
    Parses (p >>= fun a => Pure.pure (g a)) fun phrase c => ∃ a, Q phrase a ∧ g a = c := by
  apply (hp.bind fun a => Parses.pure (g a)).congr
  intro phrase c
  constructor
  · rintro ⟨a, u, v, rfl, hQ, rfl, rfl⟩
    rw [List.append_nil]
    exact ⟨a, hQ, rfl⟩
  · rintro ⟨a, hQ, rfl⟩
    exact ⟨a, phrase, [], (List.append_nil _).symm, hQ, rfl, rfl⟩

/-- The phrases of a list of values, one after the other. -/
def Phrases (Q : List β → α → Prop) (phrase : List β) (as : List α) : Prop :=
  ∃ parts, phrase = parts.flatten ∧ List.Forall₂ Q parts as

theorem phrases_nil {Q : List β → α → Prop} : Phrases Q [] [] := ⟨[], rfl, .nil⟩

theorem Phrases.cons {Q : List β → α → Prop} {u v : List β} {a : α} {as : List α} (hu : Q u a)
    (hv : Phrases Q v as) : Phrases Q (u ++ v) (a :: as) := by
  obtain ⟨parts, rfl, hall⟩ := hv
  exact ⟨u :: parts, rfl, .cons hu hall⟩

theorem phrases_cons_iff {Q : List β → α → Prop} {phrase : List β} {a : α} {as : List α} :
    Phrases Q phrase (a :: as) ↔ ∃ u v, phrase = u ++ v ∧ Q u a ∧ Phrases Q v as := by
  constructor
  · rintro ⟨parts, rfl, hall⟩
    cases hall with
    | cons hu hall => exact ⟨_, _, rfl, hu, _, rfl, hall⟩
  · rintro ⟨u, v, rfl, hu, hv⟩
    exact Phrases.cons hu hv

theorem Parses.many {p : Reader ε β α} {Q : List β → α → Prop} (hp : Parses p Q) (n : Nat) :
    Parses (Reader.many p n) fun phrase as => as.length = n ∧ Phrases Q phrase as := by
  induction n with
  | zero =>
      apply (Parses.pure []).congr
      rintro phrase as
      constructor
      · rintro ⟨rfl, rfl⟩
        exact ⟨rfl, phrases_nil⟩
      · rintro ⟨hlen, parts, rfl, hall⟩
        cases List.eq_nil_of_length_eq_zero hlen
        cases hall
        exact ⟨rfl, rfl⟩
  | succ n ih =>
      apply (hp.bind fun a => ih.map fun as => a :: as).congr
      intro phrase as
      constructor
      · rintro ⟨a, u, v, rfl, hu, as, ⟨hlen, hv⟩, rfl⟩
        exact ⟨congrArg Nat.succ hlen, Phrases.cons hu hv⟩
      · rintro ⟨hlen, hall⟩
        cases as with
        | nil => cases hlen
        | cons a as =>
            obtain ⟨u, v, rfl, hu, hv⟩ := phrases_cons_iff.mp hall
            exact ⟨a, u, v, rfl, hu, as, ⟨Nat.succ.inj hlen, hv⟩, rfl⟩

/-! ### Where it breaks -/

section Breaks

variable {bad : ε → Prop}

theorem Breaks.congr {p : Reader ε β α} {B C : List β → Prop} (h : Breaks bad p B)
    (hBC : ∀ xs, B xs ↔ C xs) : Breaks bad p C := fun xs => (h xs).trans (hBC xs)

theorem breaks_pure (a : α) : Breaks bad (pure a : Reader ε β α) fun _ => False := by
  intro xs
  constructor
  · rintro ⟨e, ⟨⟩, -⟩
  · rintro ⟨⟩

theorem breaks_fail (e : ε) : Breaks bad (fail e : Reader ε β α) fun _ => bad e := by
  intro xs
  constructor
  · rintro ⟨e', h, hbad⟩
    cases h
    exact hbad
  · exact fun hbad => ⟨e, rfl, hbad⟩

theorem breaks_take (short : Nat → ε) (n : Nat) :
    Breaks bad (take short n : Reader ε β (List β)) fun xs =>
      xs.length < n ∧ bad (short xs.length) := by
  intro xs
  rw [take]
  constructor
  · rintro ⟨e, h, hbad⟩
    split at h
    · cases h
    · next hle =>
        cases h
        exact ⟨Nat.lt_of_not_le hle, hbad⟩
  · rintro ⟨hlt, hbad⟩
    rw [if_neg (Nat.not_le_of_lt hlt)]
    exact ⟨_, rfl, hbad⟩

theorem Breaks.bind {p : Reader ε β α} {f : α → Reader ε β γ} {B : List β → Prop}
    {Q : List β → α → Prop} {C : α → List β → Prop} (hb : Breaks bad p B) (hp : Parses p Q)
    (hf : ∀ a, Breaks bad (f a) (C a)) :
    Breaks bad (p >>= f) fun xs => B xs ∨ ∃ a u mid, xs = u ++ mid ∧ Q u a ∧ C a mid := by
  intro xs
  simp only [bind_eq_error, or_and_right, exists_or, hb xs]
  apply or_congr Iff.rfl
  constructor
  · rintro ⟨e, ⟨a, mid, hok, herr⟩, hbad⟩
    obtain ⟨u, rfl, hQ⟩ := (hp _ _ _).mp hok
    exact ⟨a, u, mid, rfl, hQ, (hf a mid).mp ⟨e, herr, hbad⟩⟩
  · rintro ⟨a, u, mid, rfl, hQ, hC⟩
    obtain ⟨e, herr, hbad⟩ := (hf a mid).mpr hC
    exact ⟨e, ⟨a, mid, (hp _ _ _).mpr ⟨u, rfl, hQ⟩, herr⟩, hbad⟩

/-- A reader that does not break of its own, before one that may. -/
theorem Breaks.after {p : Reader ε β α} {f : α → Reader ε β γ} {Q : List β → α → Prop}
    {C : α → List β → Prop} (hb : Breaks bad p fun _ => False) (hp : Parses p Q)
    (hf : ∀ a, Breaks bad (f a) (C a)) :
    Breaks bad (p >>= f) fun xs => ∃ a u mid, xs = u ++ mid ∧ Q u a ∧ C a mid :=
  (hb.bind hp hf).congr fun _ => iff_of_eq (false_or _)

theorem Breaks.map {p : Reader ε β α} {B : List β → Prop} (hb : Breaks bad p B) (g : α → γ) :
    Breaks bad (p >>= fun a => pure (g a)) B := by
  intro xs
  simp only [bind_eq_error]
  constructor
  · rintro ⟨e, herr | ⟨a, mid, -, ⟨⟩⟩, hbad⟩
    exact (hb xs).mp ⟨e, herr, hbad⟩
  · intro hB
    obtain ⟨e, herr, hbad⟩ := (hb xs).mpr hB
    exact ⟨e, .inl herr, hbad⟩

/-- A counted loop breaks where one of its turns does, after whole phrases. -/
theorem Breaks.many {p : Reader ε β α} {B : List β → Prop} {Q : List β → α → Prop}
    (hb : Breaks bad p B) (hp : Parses p Q) (n : Nat) :
    Breaks bad (Reader.many p n) fun xs =>
      ∃ as u mid, xs = u ++ mid ∧ as.length < n ∧ Phrases Q u as ∧ B mid := by
  induction n with
  | zero =>
      apply (breaks_pure []).congr
      intro xs
      constructor
      · rintro ⟨⟩
      · rintro ⟨as, u, mid, -, hlen, -⟩
        exact absurd hlen (Nat.not_lt_zero _)
  | succ n ih =>
      apply (hb.bind hp fun a => ih.map fun as => a :: as).congr
      intro xs
      constructor
      · rintro (hB | ⟨a, u, mid, rfl, hu, as, v, mid', rfl, hlen, hv, hB⟩)
        · exact ⟨[], [], xs, rfl, Nat.succ_pos n, phrases_nil, hB⟩
        · exact ⟨a :: as, u ++ v, mid', (List.append_assoc _ _ _).symm, Nat.succ_lt_succ hlen,
            Phrases.cons hu hv, hB⟩
      · rintro ⟨as, u, mid, rfl, hlen, hall, hB⟩
        cases as with
        | nil =>
            obtain ⟨parts, rfl, hnil⟩ := hall
            cases hnil
            exact .inl hB
        | cons a as =>
            obtain ⟨u, v, rfl, hu, hv⟩ := phrases_cons_iff.mp hall
            exact .inr ⟨a, u, v ++ mid, List.append_assoc _ _ _, hu, as, v, mid, rfl,
              Nat.lt_of_succ_lt_succ hlen, hv, hB⟩

end Breaks

end Reader
