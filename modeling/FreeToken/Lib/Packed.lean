import Mathlib.Data.Nat.Bitwise
import Mathlib.Tactic.Common
import Mathlib.Algebra.Order.Group.Unbundled.Int
import Mathlib.Data.List.Basic
import Mathlib.Data.Int.ModEq

/-!
# Bit fields and packed parts

Of two bit fields in one number, `lo ||| hi <<< k` keeps both, and a number is its own low and high
part. Parts are appended to a blob one after the other, each from the next multiple of `k` on;
`Packed` keeps the offsets at which they went in.
-/

/-! ### Two bit fields in one number -/

namespace BitFields

variable {k lo hi : Nat}

theorem mod_or_shiftLeft (h : lo < 2 ^ k) (hi : Nat) : (lo ||| hi <<< k) % 2 ^ k = lo := by
  rw [Nat.or_mod_two_pow, Nat.mod_eq_of_lt h, Nat.shiftLeft_eq, Nat.mul_mod_left, Nat.or_zero]

theorem or_shiftLeft_shiftRight (h : lo < 2 ^ k) (hi : Nat) : (lo ||| hi <<< k) >>> k = hi := by
  rw [Nat.shiftRight_or_distrib, Nat.shiftLeft_shiftRight, Nat.shiftRight_eq_div_pow,
    Nat.div_eq_of_lt h, Nat.zero_or]

theorem or_shiftLeft_lt {n : Nat} (hlo : lo < 2 ^ k) (hhi : hi < 2 ^ n) :
    lo ||| hi <<< k < 2 ^ (k + n) := by
  apply Nat.or_lt_two_pow
  · exact Nat.lt_of_lt_of_le hlo (Nat.pow_le_pow_right Nat.two_pos (Nat.le_add_right k n))
  · rw [Nat.shiftLeft_eq, Nat.pow_add, Nat.mul_comm]
    exact Nat.mul_lt_mul_of_pos_left hhi (Nat.two_pow_pos k)

/-- The two parts of a number. -/
theorem mod_or_shiftRight (c k : Nat) : c % 2 ^ k ||| (c >>> k) <<< k = c := by
  rw [Nat.or_comm, ← Nat.shiftLeft_add_eq_or_of_lt (Nat.mod_lt c (Nat.two_pow_pos k)),
    Nat.shiftLeft_eq, Nat.shiftRight_eq_div_pow, Nat.mul_comm]
  exact Nat.div_add_mod c (2 ^ k)

/-- Bit `i` of a plane of bits. -/
theorem ofBits_shiftRight {n : Nat} (f : Fin n → Bool) (i : Fin n) :
    (Nat.ofBits f >>> i.1) &&& 1 = (f i).toNat := by
  rw [Nat.and_one_is_mod, Nat.shiftRight_eq_div_pow, ← Nat.toNat_testBit,
    Nat.testBit_ofBits_lt f i.1 i.2]

end BitFields

/-! ### Aligned parts of one blob -/

namespace Packed

variable {β : Type}

/-- How many symbols there are from `n` to the next multiple of `k`. -/
def padTo (k n : Nat) : Nat := ((-(n : Int)) % k).toNat

theorem dvd_add_padTo {k : Nat} (hk : 0 < k) (n : Nat) : k ∣ n + padTo k n := by
  have hpos : (0 : Int) < k := by exact_mod_cast hk
  have hnonneg := Int.emod_nonneg (-(n : Int)) (ne_of_gt hpos)
  have hdvd : (k : Int) ∣ ((n + padTo k n : Nat) : Int) := by
    rw [Nat.cast_add, padTo, Int.toNat_of_nonneg hnonneg]
    refine ⟨-(-(n : Int) / k), ?_⟩
    have := Int.mul_ediv_add_emod (-(n : Int)) k
    rw [mul_neg]
    omega
  exact_mod_cast hdvd

@[simp]
theorem padTo_zero (k : Nat) : padTo k 0 = 0 := by
  simp [padTo]

/-- The blob with `data` behind it. -/
def addPart (k : Nat) (fill : β) (blob data : List β) : List β :=
  blob ++ List.replicate (padTo k blob.length) fill ++ data

/-- A blob and the offsets of its parts. -/
inductive Holds (k : Nat) (fill : β) : List β → List (Nat × List β) → Prop
  | nil : Holds k fill [] []
  | snoc {blob : List β} {parts : List (Nat × List β)} (h : Holds k fill blob parts)
      (data : List β) :
      Holds k fill (addPart k fill blob data)
        (parts ++ [(blob.length + padTo k blob.length, data)])

variable {k : Nat} {fill : β} {blob : List β} {parts : List (Nat × List β)}

theorem length_addPart (data : List β) :
    (addPart k fill blob data).length = blob.length + padTo k blob.length + data.length := by
  rw [addPart, List.length_append, List.length_append, List.length_replicate]

/-- What is there stays there. -/
theorem drop_take_addPart {offset len : Nat} (h : offset + len ≤ blob.length) (data : List β) :
    ((addPart k fill blob data).drop offset).take len = (blob.drop offset).take len := by
  rw [addPart, List.append_assoc, List.drop_append_of_le_length (by omega),
    List.take_append_of_le_length (by rw [List.length_drop]; omega)]

/-- A part starts at a multiple of `k` and is found where it was put. -/
theorem Holds.part (h : Holds k fill blob parts) (hk : 0 < k) {p : Nat × List β} (hp : p ∈ parts) :
    k ∣ p.1 ∧ p.1 + p.2.length ≤ blob.length ∧ (blob.drop p.1).take p.2.length = p.2 := by
  induction h with
  | nil => cases hp
  | snoc h data ih =>
      rcases List.mem_append.mp hp with hp | hp
      · obtain ⟨hdvd, hle, hslice⟩ := ih hp
        refine ⟨hdvd, ?_, ?_⟩
        · rw [length_addPart]
          omega
        · rw [drop_take_addPart hle, hslice]
      · cases List.mem_singleton.mp hp
        refine ⟨dvd_add_padTo hk _, by rw [length_addPart], ?_⟩
        rw [addPart, List.drop_left' (by rw [List.length_append, List.length_replicate]),
          List.take_length]

/-- No two parts overlap. -/
theorem Holds.pairwise (h : Holds k fill blob parts) (hk : 0 < k) :
    parts.Pairwise fun p q => p.1 + p.2.length ≤ q.1 := by
  induction h with
  | nil => exact List.Pairwise.nil
  | snoc h data ih =>
      apply List.pairwise_append.mpr
      refine ⟨ih, List.pairwise_singleton _ _, fun p hp q hq => ?_⟩
      cases List.mem_singleton.mp hq
      exact Nat.le_trans (h.part hk hp).2.1 (Nat.le_add_right _ _)

/-- Padding alone does not start a blob. -/
theorem Holds.eq_nil_iff (h : Holds k fill blob parts) : blob = [] ↔ ∀ p ∈ parts, p.2 = [] := by
  induction h with
  | nil => simp
  | snoc h data ih =>
      constructor
      · intro hnil p hp
        rw [addPart, List.append_eq_nil_iff, List.append_eq_nil_iff] at hnil
        rcases List.mem_append.mp hp with hp | hp
        · exact ih.mp hnil.1.1 p hp
        · cases List.mem_singleton.mp hp
          exact hnil.2
      · intro hall
        have hdata : data = [] := hall _ (List.mem_append_right _ (List.mem_singleton.mpr rfl))
        rw [addPart, ih.mpr fun p hp => hall p (List.mem_append_left _ hp), hdata]
        simp

end Packed
