import FreeToken.Lib.Except

/-!
# Generators that may raise

A generator is the list of what its calls of `next` give; the first error ends it.
-/

namespace FreeToken

variable {ε α σ : Type}

/-- What comes before the first error. -/
def yielded : List (Except ε α) → List α
  | [] => []
  | .ok a :: gen => a :: yielded gen
  | .error _ :: _ => []

/-- It ends without an error. -/
def Finishes (gen : List (Except ε α)) : Prop := ∀ attempt ∈ gen, ∃ a, attempt = .ok a

/-- A `for` loop over it. -/
def consume (f : σ → α → Except ε σ) (s : σ) (gen : List (Except ε α)) : Except ε σ :=
  gen.foldlM (fun s attempt => attempt >>= f s) s

theorem mem_of_mem_yielded {gen : List (Except ε α)} {a : α} (h : a ∈ yielded gen) : .ok a ∈ gen := by
  induction gen with
  | nil => cases h
  | cons attempt gen ih =>
      cases attempt with
      | error e => cases h
      | ok b =>
          rcases List.mem_cons.mp h with rfl | h
          · exact List.mem_cons_self
          · exact List.mem_cons_of_mem _ (ih h)

theorem mem_yielded_of_finishes {gen : List (Except ε α)} (h : Finishes gen) {a : α} :
    a ∈ yielded gen ↔ .ok a ∈ gen := by
  induction gen with
  | nil => simp [yielded]
  | cons attempt gen ih =>
      obtain ⟨b, rfl⟩ := h attempt List.mem_cons_self
      rw [yielded, List.mem_cons, List.mem_cons, Except.ok.injEq,
        ih fun attempt hmem => h attempt (List.mem_cons_of_mem _ hmem)]

theorem map_yielded {gen : List (Except ε α)} (h : Finishes gen) :
    (yielded gen).map .ok = gen := by
  induction gen with
  | nil => rfl
  | cons attempt gen ih =>
      obtain ⟨b, rfl⟩ := h attempt List.mem_cons_self
      rw [yielded, List.map_cons, ih fun attempt hmem => h attempt (List.mem_cons_of_mem _ hmem)]

/-- A loop that comes through has seen the generator finish, and every value of it. -/
theorem consume_eq_ok {f : σ → α → Except ε σ} {s s' : σ} {gen : List (Except ε α)} :
    consume f s gen = .ok s' ↔ Finishes gen ∧ (yielded gen).foldlM f s = .ok s' := by
  induction gen generalizing s with
  | nil => simp [consume, yielded, Finishes]
  | cons attempt gen ih =>
      rw [consume, List.foldlM_cons, bind_eq_ok]
      constructor
      · rintro ⟨s₁, hs₁, hrest⟩
        obtain ⟨a, rfl, ha⟩ := bind_eq_ok.mp hs₁
        obtain ⟨hfin, hfold⟩ := ih.mp hrest
        refine ⟨?_, ?_⟩
        · intro attempt hmem
          rcases List.mem_cons.mp hmem with rfl | hmem
          · exact ⟨a, rfl⟩
          · exact hfin attempt hmem
        · rw [yielded, List.foldlM_cons, ha]
          exact hfold
      · rintro ⟨hfin, hfold⟩
        obtain ⟨a, rfl⟩ := hfin attempt List.mem_cons_self
        rw [yielded, List.foldlM_cons, bind_eq_ok] at hfold
        obtain ⟨s₁, ha, hrest⟩ := hfold
        refine ⟨s₁, ha, ih.mpr ⟨?_, hrest⟩⟩
        exact fun attempt hmem => hfin attempt (List.mem_cons_of_mem _ hmem)

end FreeToken
