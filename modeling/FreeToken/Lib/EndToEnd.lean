import Mathlib.Data.List.Basic
import Mathlib.Algebra.GroupWithZero.Nat
import Mathlib.Logic.ExistsUnique
import Mathlib.Tactic.Common

/-!
# Ranges end to end

Ranges of given sizes are laid one behind the other. Every number below the total lies in
exactly one of them.
-/

namespace EndToEnd

/-- Where each range starts, the first one at `s`. -/
def starts (s : Nat) : List Nat → List Nat
  | [] => []
  | size :: sizes => s :: starts (s + size) sizes

/-- Range `i` is the one of `r`. -/
def Has (sizes offsets : List Nat) (r i : Nat) : Prop :=
  ∃ size offset, sizes[i]? = some size ∧ offsets[i]? = some offset ∧
    offset ≤ r ∧ r < offset + size

@[simp]
theorem length_starts (sizes : List Nat) (s : Nat) : (starts s sizes).length = sizes.length := by
  induction sizes generalizing s with
  | nil => rfl
  | cons size sizes ih => simp [starts, ih]

theorem starts_append (sizes : List Nat) (s size : Nat) :
    starts s (sizes ++ [size]) = starts s sizes ++ [s + sizes.sum] := by
  induction sizes generalizing s with
  | nil => simp [starts]
  | cons first sizes ih => simp [starts, ih, Nat.add_assoc]

/-- A range neither starts before the first one nor ends behind the last one. -/
theorem start_bounds {sizes : List Nat} {s i size offset : Nat} (hsize : sizes[i]? = some size)
    (hoffset : (starts s sizes)[i]? = some offset) :
    s ≤ offset ∧ offset + size ≤ s + sizes.sum := by
  induction sizes generalizing s i with
  | nil => simp at hsize
  | cons first sizes ih =>
    cases i with
    | zero =>
      simp only [List.getElem?_cons_zero, starts, Option.some.injEq] at hsize hoffset
      simp only [List.sum_cons]
      omega
    | succ i =>
      simp only [List.getElem?_cons_succ, starts] at hsize hoffset
      have h := ih hsize hoffset
      simp only [List.sum_cons]
      omega

theorem existsUnique_has {sizes : List Nat} {s r : Nat} (hs : s ≤ r) (hr : r < s + sizes.sum) :
    ∃! i, Has sizes (starts s sizes) r i := by
  induction sizes generalizing s with
  | nil => exact absurd hr (by simpa using hs)
  | cons first sizes ih =>
    simp only [List.sum_cons] at hr
    by_cases hfirst : r < s + first
    · refine ⟨0, ⟨first, s, rfl, rfl, hs, hfirst⟩, ?_⟩
      rintro (_ | i) ⟨size, offset, hsize, hoffset, hle, -⟩
      · rfl
      · simp only [List.getElem?_cons_succ, starts] at hsize hoffset
        have h := start_bounds hsize hoffset
        omega
    · rcases ih (Nat.le_of_not_lt hfirst) (by omega) with ⟨i, hi, hunique⟩
      refine ⟨i + 1, hi, ?_⟩
      rintro (_ | j) hj
      · rcases hj with ⟨size, offset, hsize, hoffset, -, hlt⟩
        simp only [List.getElem?_cons_zero, starts, Option.some.injEq] at hsize hoffset
        omega
      · exact congrArg (· + 1) (hunique j hj)

end EndToEnd
