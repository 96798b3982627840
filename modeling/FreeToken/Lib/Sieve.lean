import Mathlib.Data.List.Basic

/-!
# Filters with a state

A sieve reads a list from the left. It moves to its next state at each item and keeps the item
or not by the state it is then in. Two sieves over one list are compared place by place.
-/

structure Sieve (σ α : Type) where
  next : σ → α → σ
  keep : σ → α → Bool

namespace Sieve

variable {σ τ α β : Type}

@[grind =]
def run (S : Sieve σ α) : σ → List α → List α
  | _, [] => []
  | s, a :: l =>
      if S.keep (S.next s a) a then a :: S.run (S.next s a) l else S.run (S.next s a) l

/-- Each item, with the state it is kept or dropped in. -/
@[grind =]
def places (S : Sieve σ α) : σ → List α → List (σ × α)
  | _, [] => []
  | s, a :: l => (S.next s a, a) :: S.places (S.next s a) l

/-- The second sieve reads what the first one keeps. -/
def andThen (S : Sieve σ α) (T : Sieve τ α) : Sieve (σ × τ) α where
  next st a := (S.next st.1 a, if S.keep (S.next st.1 a) a then T.next st.2 a else st.2)
  keep st a := S.keep st.1 a && T.keep st.2 a

/-- Both states, for the places of two sieves side by side. It keeps what the first one keeps. -/
def beside (S : Sieve σ α) (T : Sieve τ α) : Sieve (σ × τ) α where
  next st a := (S.next st.1 a, T.next st.2 a)
  keep st a := S.keep st.1 a

/-- Items are read through a map. -/
def on (S : Sieve σ β) (f : α → β) : Sieve σ α where
  next s a := S.next s (f a)
  keep s a := S.keep s (f a)

theorem run_andThen (S : Sieve σ α) (T : Sieve τ α) (s : σ) (t : τ) (l : List α) :
    (S.andThen T).run (s, t) l = T.run t (S.run s l) := by
  induction l generalizing s t with
  | nil => rfl
  | cons a l ih =>
      by_cases hkeep : S.keep (S.next s a) a = true
      · simp [run, andThen, hkeep, ← ih]
      · simp [run, andThen, hkeep, ← ih]

theorem run_sublist (S : Sieve σ α) (s : σ) (l : List α) : (S.run s l).Sublist l := by
  induction l generalizing s with
  | nil => exact .slnil
  | cons a l ih =>
      rw [run]
      split
      · exact (ih _).cons_cons a
      · exact (ih _).cons a

/-- Two sieves whose states stay related and that agree on what they keep do the same. -/
theorem run_eq_of_related {S : Sieve σ α} {T : Sieve τ α} (R : σ → τ → Prop)
    (hstep : ∀ s t a, R s t → R (S.next s a) (T.next t a) ∧
      S.keep (S.next s a) a = T.keep (T.next t a) a)
    {s : σ} {t : τ} (hst : R s t) (l : List α) : S.run s l = T.run t l := by
  induction l generalizing s t with
  | nil => rfl
  | cons a l ih =>
      obtain ⟨hnext, hkeep⟩ := hstep s t a hst
      simp only [run, hkeep, ih hnext]

theorem exists_next_of_mem_places {S : Sieve σ α} {s : σ} {l : List α} {place : σ × α}
    (h : place ∈ S.places s l) : ∃ s', place.1 = S.next s' place.2 := by
  induction l generalizing s with
  | nil => simp [places] at h
  | cons a l ih =>
      rcases List.mem_cons.mp h with rfl | h
      · exact ⟨s, rfl⟩
      · exact ih h

/-- What holds at first and is preserved, as far as what is known of each place allows it, holds
at every place. -/
theorem forall_places {S : Sieve σ α} {I : σ → Prop} {Q : σ × α → Prop}
    (hnext : ∀ s a, Q (S.next s a, a) → I s → I (S.next s a)) {s : σ} {l : List α} (hs : I s)
    (hQ : ∀ place ∈ S.places s l, Q place) : ∀ place ∈ S.places s l, I place.1 := by
  induction l generalizing s with
  | nil => simp [places]
  | cons a l ih =>
      have hfirst := hnext s a (hQ _ List.mem_cons_self) hs
      intro place hplace
      rcases List.mem_cons.mp hplace with rfl | hplace
      · exact hfirst
      · exact ih hfirst (fun place hplace => hQ place (List.mem_cons_of_mem _ hplace)) place hplace

/-- Items that never change the state can be taken out before or after. -/
theorem filter_run {S : Sieve σ α} {p : α → Bool}
    (hskip : ∀ s a, p a = false → S.next s a = s) (s : σ) (l : List α) :
    (S.run s l).filter p = S.run s (l.filter p) := by
  induction l generalizing s with
  | nil => rfl
  | cons a l ih =>
      by_cases hp : p a = true
      · by_cases hkeep : S.keep (S.next s a) a = true
        · simp [run, hp, hkeep, ih]
        · simp [run, hp, hkeep, ih]
      · have hnext := hskip s a (by simpa using hp)
        by_cases hkeep : S.keep s a = true
        · simp [run, hp, hnext, hkeep, ih]
        · simp [run, hp, hnext, hkeep, ih]

theorem map_run_on (S : Sieve σ β) (f : α → β) (s : σ) (l : List α) :
    ((S.on f).run s l).map f = S.run s (l.map f) := by
  induction l generalizing s with
  | nil => rfl
  | cons a l ih =>
      by_cases hkeep : S.keep (S.next s (f a)) (f a) = true
      · simpa [run, on, hkeep] using ih (S.next s (f a))
      · simpa [run, on, hkeep] using ih (S.next s (f a))

/-- A sieve that takes nothing out of the images takes nothing out. -/
theorem run_on_eq_self {S : Sieve σ β} {f : α → β} {s : σ} {l : List α}
    (h : S.run s (l.map f) = l.map f) : (S.on f).run s l = l := by
  refine ((S.on f).run_sublist s l).eq_of_length ?_
  rw [← List.length_map (f := f), S.map_run_on, h, List.length_map]

/-- When the items passed over are also kept, a sieve that takes out none of the others takes
out nothing. -/
theorem run_eq_self {S : Sieve σ α} {p : α → Bool}
    (hskip : ∀ s a, p a = false → S.next s a = s ∧ S.keep s a = true) {s : σ} {l : List α}
    (h : S.run s (l.filter p) = l.filter p) : S.run s l = l := by
  induction l generalizing s with
  | nil => rfl
  | cons a l ih =>
      by_cases hp : p a = true
      · rw [List.filter_cons_of_pos hp, run] at h
        split at h
        · rename_i hkeep
          rw [run, if_pos hkeep, ih (List.cons.inj h).2]
        · have hlen := (S.run_sublist (S.next s a) (l.filter p)).length_le
          rw [h, List.length_cons] at hlen
          exact absurd hlen (Nat.not_succ_le_self _)
      · obtain ⟨hnext, hkeep⟩ := hskip s a (by simpa using hp)
        rw [List.filter_cons_of_neg hp] at h
        rw [run, hnext, if_pos hkeep, ih h]

/-- A filter that is inside another one and has as many items is that filter. -/
theorem mem_of_map_filter_eq {p q : α → Bool} {f : α → β} {l : List α}
    (hle : ∀ a ∈ l, p a → q a) (h : (l.filter p).map f = (l.filter q).map f) :
    ∀ a ∈ l, q a → p a := by
  have hfilter : (l.filter q).filter p = l.filter p := by
    rw [List.filter_filter]
    refine List.filter_congr fun a ha => ?_
    by_cases hp : p a = true
    · simp [hp, hle a ha hp]
    · simp [hp]
  have hlength : ((l.filter q).filter p).length = (l.filter q).length := by
    rw [hfilter, ← List.length_map (f := f), h, List.length_map]
  intro a ha hq
  exact List.length_filter_eq_length_iff.mp hlength a (List.mem_filter.mpr ⟨ha, hq⟩)

section Beside

variable (S : Sieve σ α) (T : Sieve τ α) (s : σ) (t : τ) (l : List α)

theorem run_eq_beside_left :
    S.run s l = (((S.beside T).places (s, t) l).filter fun place =>
      S.keep place.1.1 place.2).map Prod.snd := by
  induction l generalizing s t with
  | nil => rfl
  | cons a l ih =>
      by_cases hkeep : S.keep (S.next s a) a = true
      · simpa [run, places, beside, hkeep] using ih (S.next s a) (T.next t a)
      · simpa [run, places, beside, hkeep] using ih (S.next s a) (T.next t a)

theorem run_eq_beside_right :
    T.run t l = (((S.beside T).places (s, t) l).filter fun place =>
      T.keep place.1.2 place.2).map Prod.snd := by
  induction l generalizing s t with
  | nil => rfl
  | cons a l ih =>
      by_cases hkeep : T.keep (T.next t a) a = true
      · simpa [run, places, beside, hkeep] using ih (S.next s a) (T.next t a)
      · simpa [run, places, beside, hkeep] using ih (S.next s a) (T.next t a)

variable {S T s t l}

theorem run_eq_of_agree
    (h : ∀ place ∈ (S.beside T).places (s, t) l,
      S.keep place.1.1 place.2 = T.keep place.1.2 place.2) : S.run s l = T.run t l := by
  rw [run_eq_beside_left S T s t l, run_eq_beside_right S T s t l, List.filter_congr h]

/-- Where one sieve keeps no more of the items of a kind than the other, and both keep the same
of that kind, they agree on each of them. -/
theorem agree_of_filter_run_eq {p : α → Bool}
    (hle : ∀ place ∈ (S.beside T).places (s, t) l, p place.2 →
      S.keep place.1.1 place.2 → T.keep place.1.2 place.2)
    (heq : (S.run s l).filter p = (T.run t l).filter p) :
    ∀ place ∈ (S.beside T).places (s, t) l, p place.2 → T.keep place.1.2 place.2 →
      S.keep place.1.1 place.2 := by
  rw [run_eq_beside_left S T s t l, run_eq_beside_right S T s t l, List.filter_map,
    List.filter_map, List.filter_filter, List.filter_filter] at heq
  intro place hplace hp hkeep
  have hboth := mem_of_map_filter_eq (fun place hplace hS => by
    rw [Bool.and_eq_true] at hS ⊢
    exact ⟨hS.1, hle place hplace hS.1 hS.2⟩) heq place hplace
  exact ((Bool.and_eq_true _ _).mp (hboth ((Bool.and_eq_true _ _).mpr ⟨hp, hkeep⟩))).2

end Beside

end Sieve
