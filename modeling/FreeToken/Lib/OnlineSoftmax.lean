import Mathlib.Algebra.BigOperators.Group.List.Basic
import Mathlib.Algebra.Module.Basic
import Mathlib.Algebra.Order.BigOperators.Group.List
import Mathlib.Algebra.Order.Field.Basic

/-!
# Softmax, in one pass

The mean of values weighted by the exponentials of their scores. A masked key has no score and no
weight. A pass over the keys keeps a reference score with the sums relative to it: it may raise the
reference at any time, and it takes a key in by its score relative to it.
-/

namespace OnlineSoftmax

variable {K V : Type} [Field K] (exp : K → K)

/-- A masked key has the score `-∞`. -/
def weight : Option K → K
  | none => 0
  | some s => exp s

@[simp] theorem weight_none : weight exp none = 0 := rfl

@[simp] theorem weight_some (s : K) : weight exp (some s) = exp s := rfl

def total (xs : List (Option K × V)) : K := (xs.map fun x => weight exp x.1).sum

variable {exp} {xs ys : List (Option K × V)}

@[simp] theorem total_append : total exp (xs ++ ys) = total exp xs + total exp ys := by
  simp [total]

theorem total_masked (h : ∀ x ∈ ys, x.1 = none) : total exp ys = 0 := by
  refine List.sum_eq_zero fun w hw => ?_
  obtain ⟨y, hy, rfl⟩ := List.mem_map.mp hw
  rw [h y hy, weight_none]

section Exponential

variable [LinearOrder K]

/-- What is used of the exponential function. -/
structure Exponential (exp : K → K) : Prop where
  add : ∀ a b, exp (a + b) = exp a * exp b
  pos : ∀ a, 0 < exp a

namespace Exponential

variable (he : Exponential exp)
include he

theorem sub_mul (a b : K) : exp a * exp (b - a) = exp b := by
  rw [← he.add, add_sub_cancel]

theorem zero : exp 0 = 1 := by
  have hadd := he.add 0 0
  rw [add_zero] at hadd
  exact (mul_eq_left₀ (he.pos 0).ne').mp hadd.symm

theorem weight_nonneg (x : Option K) : 0 ≤ weight exp x := by
  cases x with
  | none => exact le_rfl
  | some s => exact (he.pos s).le

variable [IsStrictOrderedRing K]

theorem total_nonneg (xs : List (Option K × V)) : 0 ≤ total exp xs := by
  refine List.sum_nonneg fun w hw => ?_
  obtain ⟨y, -, rfl⟩ := List.mem_map.mp hw
  exact he.weight_nonneg y.1

end Exponential

end Exponential

variable [AddCommGroup V] [Module K V] (exp)

def weighted (xs : List (Option K × V)) : V := (xs.map fun x => weight exp x.1 • x.2).sum

/-- The mean of the values, by the exponentials of the scores. -/
def softmax (xs : List (Option K × V)) : V := (total exp xs)⁻¹ • weighted exp xs

/-- The sums over `xs` relative to `m`. -/
structure Holds (m l : K) (acc : V) (xs : List (Option K × V)) : Prop where
  total_eq : exp m * l = total exp xs
  weighted_eq : exp m • acc = weighted exp xs

variable {exp} {m l s : K} {acc v : V}

@[simp] theorem weighted_append : weighted exp (xs ++ ys) = weighted exp xs + weighted exp ys := by
  simp [weighted]

theorem weighted_masked (h : ∀ x ∈ ys, x.1 = none) : weighted exp ys = 0 := by
  refine List.sum_eq_zero fun w hw => ?_
  obtain ⟨y, hy, rfl⟩ := List.mem_map.mp hw
  rw [h y hy, weight_none, zero_smul]

namespace Holds

/-- Before the first key. -/
theorem nil (m : K) : Holds exp m 0 (0 : V) [] := ⟨by simp [total], by simp [weighted]⟩

/-- A masked key changes nothing. -/
theorem skip (h : Holds exp m l acc xs) (v : V) : Holds exp m l acc (xs ++ [(none, v)]) where
  total_eq := by simp [h.total_eq, total]
  weighted_eq := by simp [h.weighted_eq, weighted]

variable [LinearOrder K] (h : Holds exp m l acc xs) (he : Exponential exp)
include h he

/-- The sums relative to another score. -/
theorem raise (s : K) : Holds exp s (l * exp (m - s)) (exp (m - s) • acc) xs where
  total_eq := by
    calc exp s * (l * exp (m - s)) = exp s * exp (m - s) * l := by
          rw [mul_comm l, mul_assoc]
      _ = total exp xs := by rw [he.sub_mul, h.total_eq]
  weighted_eq := by rw [smul_smul, he.sub_mul, h.weighted_eq]

/-- A key comes in by its score relative to `m`. -/
theorem add (s : K) (v : V) :
    Holds exp m (l + exp (s - m)) (acc + exp (s - m) • v) (xs ++ [(some s, v)]) where
  total_eq := by
    rw [mul_add, he.sub_mul, h.total_eq]
    simp [total]
  weighted_eq := by
    rw [smul_add, smul_smul, he.sub_mul, h.weighted_eq]
    simp [weighted]

/-- A key with a new reference score. -/
theorem absorb (s : K) (v : V) :
    Holds exp s (l * exp (m - s) + 1) (exp (m - s) • acc + v) (xs ++ [(some s, v)]) := by
  have hadd := (h.raise he s).add he s v
  rwa [sub_self, he.zero, one_smul] at hadd

/-- The quotient of the two sums is the mean; both are empty when all keys are masked. -/
theorem softmax_eq [IsStrictOrderedRing K] :
    (if 0 < l then 1 / l else 0) • acc = softmax exp xs := by
  have hm := (he.pos m).ne'
  have hsoftmax : softmax exp xs = l⁻¹ • acc := by
    rw [softmax, ← h.total_eq, ← h.weighted_eq, mul_inv, smul_smul, mul_right_comm,
      inv_mul_cancel₀ hm, one_mul]
  rw [hsoftmax]
  split
  · rw [one_div]
  · next hl =>
      have htotal : 0 ≤ exp m * l := h.total_eq ▸ he.total_nonneg xs
      have hnonneg := nonneg_of_mul_nonneg_right htotal (he.pos m)
      rw [le_antisymm (not_lt.mp hl) hnonneg, inv_zero]

end Holds

end OnlineSoftmax
