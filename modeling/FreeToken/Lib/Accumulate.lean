import Mathlib.Algebra.BigOperators.Intervals
import Mathlib.Algebra.BigOperators.Pi
import Mathlib.Algebra.BigOperators.Group.Finset.Sigma

/-!
# Steps that add

A step adds `d` when it turns every accumulator `v` into `v + d`. Loops of such steps add the
sum, so the order and the grouping of the iterations do not show in exact arithmetic. A range
is also summed block by block, lane by lane, with a tail.
-/

namespace Accumulate

variable {V α : Type} [AddCommMonoid V]

/-- The step adds `d` to whatever it is given. -/
def Adds (step : V → V) (d : V) : Prop := ∀ v, step v = v + d

namespace Adds

variable {f g : V → V} {d e : V}

theorem keep : Adds (fun v : V => v) 0 := fun v => (add_zero v).symm

theorem comp (hf : Adds f d) (hg : Adds g e) : Adds (fun v => g (f v)) (d + e) := by
  intro v
  calc g (f v) = f v + e := hg (f v)
    _ = v + (d + e) := by rw [hf v, add_assoc]

/-- A pass that is skipped adds nothing. -/
theorem skip {p : Prop} [Decidable p] (hf : Adds f d) :
    Adds (fun v => if p then v else f v) (if p then 0 else d) := by
  intro v
  by_cases hp : p
  · simp [hp]
  · simp [hp, hf v]

theorem congr (hf : Adds f d) (h : d = e) : Adds f e := h ▸ hf

/-- A loop of steps that add. -/
theorem foldl {l : List α} {step : V → α → V} {d : α → V}
    (h : ∀ x ∈ l, Adds (fun v => step v x) (d x)) :
    Adds (fun v => l.foldl step v) (l.map d).sum := by
  intro v
  induction l generalizing v with
  | nil => simp
  | cons x l ih =>
      calc l.foldl step (step v x)
          = step v x + (l.map d).sum := ih (fun y hy => h y (List.mem_cons_of_mem x hy)) _
        _ = v + d x + (l.map d).sum := congrArg (· + _) (h x (List.mem_cons_self ..) v)
        _ = v + ((x :: l).map d).sum := by rw [List.map_cons, List.sum_cons, add_assoc]

theorem cell [DecidableEq α] (i : α) (y : V) :
    Adds (fun out : α → V => Function.update out i (out i + y)) (Pi.single i y) := by
  intro out
  funext j
  by_cases hj : j = i
  · subst hj
    simp
  · simp [hj]

end Adds

/-- A cell of a sum of buffers. -/
theorem sum_cell {ι : Type} (l : List α) (f : α → ι → V) (i : ι) :
    (l.map f).sum i = (l.map fun x => f x i).sum := by
  rw [Pi.list_sum_apply, List.map_map]
  rfl

theorem sum_cell_zero {ι : Type} {l : List α} {f : α → ι → V} {i : ι}
    (h : ∀ x ∈ l, f x i = 0) : (l.map f).sum i = 0 := by
  rw [sum_cell, List.sum_eq_zero]
  intro y hy
  obtain ⟨x, hx, rfl⟩ := List.mem_map.mp hy
  exact h x hx

/-- A range in windows of width `w`. -/
theorem sum_windows (f : Nat → V) (w q : Nat) :
    ∑ k ∈ Finset.range (q * w), f k =
      ∑ g ∈ Finset.range q, ∑ i ∈ Finset.range w, f (g * w + i) := by
  induction q with
  | zero => simp
  | succ q ih => rw [Nat.succ_mul, Finset.sum_range_add, ih, Finset.sum_range_succ]

/-- A range in `q` blocks of width `w`, lane by lane, and a tail of `r`. -/
theorem sum_blocks (f : Nat → V) (w q r : Nat) :
    ∑ i ∈ Finset.range (q * w + r), f i =
      (∑ l ∈ Finset.range w, ∑ k ∈ Finset.range q, f (k * w + l)) +
        ∑ i ∈ Finset.range r, f (q * w + i) := by
  rw [Finset.sum_range_add, sum_windows, Finset.sum_comm]

end Accumulate
