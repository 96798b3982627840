import Mathlib.Data.List.Basic
import Mathlib.Algebra.Order.Ring.Nat
import Mathlib.Tactic.Common

/-!
# Tilings and blocks

A list of items, each with a half-open interval of integers, tiles `[start, stop)` when
the intervals are nonempty and each begins where the one before it ended. A sequence of symbols is
cut into blocks of `k`, and each block is decoded to `m` values by itself.
-/

/-! ### Tilings of an interval -/

/-- The items cover `[start, stop)` one after the other. -/
inductive Tiles {α : Type} (lo hi : α → Int) : Int → Int → List α → Prop where
  | nil (start : Int) : Tiles lo hi start start []
  | cons {x : α} {xs : List α} {stop : Int} :
      lo x < hi x → Tiles lo hi (hi x) stop xs → Tiles lo hi (lo x) stop (x :: xs)

namespace Tiles

variable {α : Type} {lo hi : α → Int} {start stop : Int} {xs : List α}

theorem le (h : Tiles lo hi start stop xs) : start ≤ stop := by
  induction h with
  | nil => exact Int.le_refl _
  | cons hlt _ ih => exact Int.le_trans (Int.le_of_lt hlt) ih

/-- A tiling is continued at its end. -/
theorem concat (h : Tiles lo hi start stop xs) {x : α} (hx : lo x = stop) (hlt : lo x < hi x) :
    Tiles lo hi start (hi x) (xs ++ [x]) := by
  induction h with
  | nil =>
      subst hx
      exact cons hlt (nil _)
  | cons hlt' _ ih => exact cons hlt' (ih hx)

/-- Every point of the interval lies in exactly one item, and no other point in any. -/
theorem countP_mem (h : Tiles lo hi start stop xs) (i : Int) :
    xs.countP (fun x => decide (lo x ≤ i ∧ i < hi x)) = if start ≤ i ∧ i < stop then 1 else 0 := by
  induction h with
  | nil => simp
  | @cons x xs stop hlt htail ih =>
      have hle := htail.le
      rw [List.countP_cons, ih]
      by_cases hx : lo x ≤ i ∧ i < hi x
      · have hrest : ¬ hi x ≤ i := by omega
        have hall : lo x ≤ i ∧ i < stop := by omega
        simp [hx, hrest, hall]
      · have hiff : (hi x ≤ i ∧ i < stop) ↔ (lo x ≤ i ∧ i < stop) := by omega
        simp [hx, hiff]

end Tiles

/-! ### Decoding block by block -/

namespace Blocks

variable {β α : Type}

/-- Block `b`. -/
def block (k b : Nat) (l : List β) : List β := (l.drop (b * k)).take k

/-- The values of the first `n` blocks. -/
def decode (k : Nat) (f : List β → List α) (n : Nat) (l : List β) : List α :=
  (List.range n).flatMap fun b => f (block k b l)

theorem length_block {k b : Nat} {l : List β} (h : (b + 1) * k ≤ l.length) :
    (block k b l).length = k := by
  rw [block, List.length_take, List.length_drop]
  rw [Nat.add_mul, Nat.one_mul] at h
  omega

/-- The blocks of a stretch of whole blocks are blocks of the whole. -/
theorem block_slice {k s r b : Nat} (hb : b < r) (l : List β) :
    block k b ((l.drop (s * k)).take (r * k)) = block k (s + b) l := by
  have hle : (b + 1) * k ≤ r * k := Nat.mul_le_mul_right k hb
  rw [Nat.add_mul, Nat.one_mul] at hle
  rw [block, block, List.drop_take, List.take_take, List.drop_drop, Nat.add_mul]
  congr 1
  omega

theorem decode_succ (k : Nat) (f : List β → List α) (n : Nat) (l : List β) :
    decode k f (n + 1) l = decode k f n l ++ f (block k n l) := by
  simp [decode, List.range_succ]

variable {k m : Nat} {f : List β → List α}

theorem length_decode (hf : ∀ l, (f l).length = m) (n : Nat) (l : List β) :
    (decode k f n l).length = n * m := by
  induction n with
  | zero => simp [decode]
  | succ n ih => rw [decode_succ, List.length_append, ih, hf, Nat.add_mul, Nat.one_mul]

/-- Value `j` of block `b`. -/
theorem decode_getElem? (hf : ∀ l, (f l).length = m) {n b j : Nat} (hb : b < n) (hj : j < m)
    (l : List β) : (decode k f n l)[b * m + j]? = (f (block k b l))[j]? := by
  induction n with
  | zero => exact absurd hb (Nat.not_lt_zero b)
  | succ n ih =>
      rw [decode_succ]
      by_cases hbn : b < n
      · have hlt : b * m + j < n * m :=
          calc b * m + j < b * m + m := Nat.add_lt_add_left hj _
            _ = (b + 1) * m := by rw [Nat.add_mul, Nat.one_mul]
            _ ≤ n * m := Nat.mul_le_mul_right m hbn
        rw [List.getElem?_append_left (by rwa [length_decode hf]), ih hbn]
      · have hbn : b = n := by omega
        subst hbn
        rw [List.getElem?_append_right (by rw [length_decode hf]; exact Nat.le_add_right _ _),
          length_decode hf, Nat.add_sub_cancel_left]

theorem length_flatMap {σ : Type} {g : σ → List β} (hg : ∀ x, (g x).length = k) (l : List σ) :
    (l.flatMap g).length = l.length * k := by
  induction l with
  | nil => simp
  | cons x l ih =>
      rw [List.flatMap_cons, List.length_append, hg, ih, List.length_cons, Nat.add_mul, Nat.one_mul,
        Nat.add_comm]

/-- Block `b` of blocks that were written one after the other. -/
theorem block_flatMap {σ : Type} {g : σ → List β} (hg : ∀ x, (g x).length = k) {l : List σ} {b : Nat}
    {x : σ} (hx : l[b]? = some x) : block k b (l.flatMap g) = g x := by
  induction l generalizing b with
  | nil => cases hx
  | cons y l ih =>
      cases b with
      | zero =>
          obtain rfl : y = x := Option.some.inj hx
          rw [block, Nat.zero_mul, List.drop_zero, List.flatMap_cons, ← hg y, List.take_left]
      | succ b =>
          rw [← ih hx, block, block, List.flatMap_cons, Nat.add_mul, Nat.one_mul, Nat.add_comm,
            ← List.drop_drop, ← hg y, List.drop_left]

/-- Value `i` of rows of `m` values. -/
theorem flatMap_range_getElem? {g : Nat → Nat → α} {n i : Nat} (hi : i < n * m) :
    ((List.range n).flatMap fun j => (List.range m).map (g j))[i]? = some (g (i / m) (i % m)) := by
  have hm : 0 < m := Nat.pos_of_ne_zero fun h => by
    rw [h, Nat.mul_zero] at hi
    exact Nat.not_lt_zero i hi
  induction n with
  | zero => exact absurd hi (by simp)
  | succ n ih =>
      have hlen : ((List.range n).flatMap fun j => (List.range m).map (g j)).length = n * m := by
        rw [length_flatMap (k := m) (by simp), List.length_range]
      rw [List.range_succ, List.flatMap_append, List.flatMap_singleton]
      by_cases hin : i < n * m
      · rw [List.getElem?_append_left (by rwa [hlen]), ih hin]
      · have hrow : i / m = n := by
          apply Nat.div_eq_of_lt_le (Nat.le_of_not_lt hin)
          exact hi
        have hplace : i - n * m = i % m := by
          rw [← hrow, Nat.mul_comm, ← Nat.mod_eq_sub_mul_div]
        rw [List.getElem?_append_right (by rw [hlen]; exact Nat.le_of_not_lt hin), hlen, hplace,
          List.getElem?_map, List.getElem?_range (Nat.mod_lt i hm), hrow]
        rfl

/-- A stretch of whole blocks decodes to a stretch of the values. -/
theorem decode_slice (hf : ∀ l, (f l).length = m) {n s r i : Nat} (hn : s + r ≤ n)
    (hi : i < r * m) (l : List β) :
    (decode k f r ((l.drop (s * k)).take (r * k)))[i]? = (decode k f n l)[s * m + i]? := by
  have hm : 0 < m := Nat.pos_of_ne_zero fun h => by
    rw [h, Nat.mul_zero] at hi
    exact Nat.not_lt_zero i hi
  have hb : i / m < r := Nat.div_lt_of_lt_mul (by rwa [Nat.mul_comm])
  have hj : i % m < m := Nat.mod_lt i hm
  have hparts : i = i / m * m + i % m := by rw [Nat.mul_comm, Nat.div_add_mod]
  have hwhole : s * m + i = (s + i / m) * m + i % m := by
    rw [Nat.add_mul, Nat.add_assoc, ← hparts]
  rw [hwhole, decode_getElem? hf (by omega) hj]
  conv_lhs => rw [hparts]
  rw [decode_getElem? hf hb hj, block_slice hb]

end Blocks
