import Mathlib.Data.Nat.Digits.Defs
import Mathlib.Data.List.Basic
import Mathlib.Tactic.Ring

/-!
# Readers of a byte stream

A reader takes symbols from the front of a list. `Reads p xs a` says that `p` takes exactly `xs`,
whatever follows, and returns `a`; it composes along `>>=` and along a counted loop, so that the
reader of a grammar is checked one production at a time. `Fails p xs e` says that `p` ends in `e` on
`xs`, whatever follows.
-/

/-- A reader of the symbols `β` that may fail with an `ε`. -/
abbrev Reader (ε β α : Type) := StateT (List β) (Except ε) α

namespace Reader

variable {ε β α γ : Type}

def fail (e : ε) : Reader ε β α := fun _ => .error e

/-- `p`, `n` times. -/
def many (p : Reader ε β α) : Nat → Reader ε β (List α)
  | 0 => pure []
  | n + 1 => p >>= fun a => many p n >>= fun as => pure (a :: as)

/-- The next `n` symbols, or the error that `short` makes of how many there are. -/
def take (short : Nat → ε) (n : Nat) : Reader ε β (List β) := fun xs =>
  if n ≤ xs.length then .ok (xs.take n, xs.drop n) else .error (short xs.length)

/-- `p` takes `xs` and returns `a`, whatever follows. -/
def Reads (p : Reader ε β α) (xs : List β) (a : α) : Prop :=
  ∀ rest, p (xs ++ rest) = .ok (a, rest)

theorem bind_apply (p : Reader ε β α) (f : α → Reader ε β γ) (xs : List β) :
    (p >>= f) xs = match p xs with
      | .error e => .error e
      | .ok (a, rest) => f a rest := by
  change (p xs >>= fun r => f r.1 r.2) = _
  cases p xs <;> rfl

theorem Reads.pure (a : α) : Reads (Pure.pure a : Reader ε β α) [] a := fun _ => rfl

theorem Reads.bind {p : Reader ε β α} {f : α → Reader ε β γ} {xs ys : List β} {a : α} {c : γ}
    (hp : Reads p xs a) (hf : Reads (f a) ys c) : Reads (p >>= f) (xs ++ ys) c := by
  intro rest
  rw [bind_apply, List.append_assoc, hp (ys ++ rest)]
  exact hf rest

theorem Reads.map {p : Reader ε β α} {xs : List β} {a : α} (hp : Reads p xs a) (f : α → γ) :
    Reads (p >>= fun a => Pure.pure (f a)) xs (f a) := by
  have h : Reads (p >>= fun a => Pure.pure (f a)) (xs ++ []) (f a) := hp.bind (Reads.pure (f a))
  rwa [List.append_nil] at h

theorem Reads.take (short : Nat → ε) (xs : List β) : Reads (take short xs.length) xs xs := by
  intro rest
  have hlen : xs.length ≤ (xs ++ rest).length := by
    rw [List.length_append]
    exact Nat.le_add_right _ _
  rw [Reader.take, if_pos hlen, List.take_left, List.drop_left]

/-- A counted loop over what was written for the elements of a list, one after the other. -/
theorem Reads.many {δ : Type} {p : Reader ε β α} {write : δ → List β} {value : δ → α} :
    ∀ {l : List δ}, (∀ x ∈ l, Reads p (write x) (value x)) →
      Reads (Reader.many p l.length) (l.flatMap write) (l.map value)
  | [], _ => Reads.pure []
  | x :: l, h => by
      apply Reads.bind (h x List.mem_cons_self)
      apply Reads.map
      exact Reads.many fun y hy => h y (List.mem_cons_of_mem x hy)

/-! ### Where a reader ends -/

/-- `p` ends in `e` on `xs`, whatever follows. -/
def Fails (p : Reader ε β α) (xs : List β) (e : ε) : Prop := ∀ rest, p (xs ++ rest) = .error e

theorem fails_fail (xs : List β) (e : ε) : Fails (fail e : Reader ε β α) xs e := fun _ => rfl

theorem Fails.bind {p : Reader ε β α} {f : α → Reader ε β γ} {xs : List β} {e : ε}
    (hp : Fails p xs e) (ys : List β) : Fails (p >>= f) (xs ++ ys) e := by
  intro rest
  rw [bind_apply, List.append_assoc, hp (ys ++ rest)]

theorem Reads.bind_fails {p : Reader ε β α} {f : α → Reader ε β γ} {xs ys : List β} {a : α} {e : ε}
    (hp : Reads p xs a) (hf : Fails (f a) ys e) : Fails (p >>= f) (xs ++ ys) e := by
  intro rest
  rw [bind_apply, List.append_assoc, hp (ys ++ rest)]
  exact hf rest

theorem Fails.then {p : Reader ε β α} {f : α → Reader ε β γ} {xs : List β} {e : ε}
    (hp : Fails p xs e) : Fails (p >>= f) xs e := by
  have h : Fails (p >>= f) (xs ++ []) e := hp.bind []
  rwa [List.append_nil] at h

/-- A counted loop ends at the first element that it does not read. -/
theorem Fails.many {δ : Type} {p : Reader ε β α} {write : δ → List β} {value : δ → α} {e : ε} :
    ∀ {l : List δ}, (∀ x ∈ l, Reads p (write x) (value x) ∨ Fails p (write x) e) →
      (∃ x ∈ l, Fails p (write x) e) → Fails (Reader.many p l.length) (l.flatMap write) e
  | [], _, hbad => absurd hbad (by simp)
  | x :: l, h, hbad => by
      by_cases hx : Fails p (write x) e
      · exact hx.bind _
      · have hread := (h x List.mem_cons_self).resolve_right hx
        have hlater : ∃ y ∈ l, Fails p (write y) e := by
          obtain ⟨y, hy, hfails⟩ := hbad
          obtain rfl | hy := List.mem_cons.mp hy
          · exact absurd hfails hx
          · exact ⟨y, hy, hfails⟩
        have hrest := Fails.many (fun y hy => h y (List.mem_cons_of_mem x hy)) hlater
        exact hread.bind_fails hrest.then

end Reader

/-! ### Numbers in a fixed number of bytes, the least significant first -/

/-- The `w` little-endian bytes of `n`. -/
def leBytes : Nat → Nat → List UInt8
  | 0, _ => []
  | w + 1, n => UInt8.ofNat (n % 256) :: leBytes w (n / 256)

/-- The number of which these are the little-endian bytes. -/
def ofLeBytes (bytes : List UInt8) : Nat := Nat.ofDigits 256 (bytes.map UInt8.toNat)

@[simp]
theorem length_leBytes (w n : Nat) : (leBytes w n).length = w := by
  induction w generalizing n with
  | zero => rfl
  | succ w ih => rw [leBytes, List.length_cons, ih]

theorem ofLeBytes_leBytes (w n : Nat) : ofLeBytes (leBytes w n) = n % 256 ^ w := by
  induction w generalizing n with
  | zero => rw [pow_zero, Nat.mod_one]; rfl
  | succ w ih =>
      have hbyte : (UInt8.ofNat (n % 256)).toNat = n % 256 := by
        rw [UInt8.toNat_ofNat']
        exact Nat.mod_eq_of_lt (Nat.mod_lt n (by decide))
      calc ofLeBytes (leBytes (w + 1) n)
          = (UInt8.ofNat (n % 256)).toNat + 256 * ofLeBytes (leBytes w (n / 256)) := by
            rw [ofLeBytes, leBytes, List.map_cons, Nat.ofDigits_cons, ofLeBytes]
        _ = n % 256 ^ (w + 1) := by rw [hbyte, ih, pow_succ', Nat.mod_mul]

theorem ofLeBytes_leBytes_of_lt {w n : Nat} (h : n < 256 ^ w) : ofLeBytes (leBytes w n) = n := by
  rw [ofLeBytes_leBytes, Nat.mod_eq_of_lt h]

/-- Two's complement. -/
def ofLeBytesSigned (bytes : List UInt8) : Int := (ofLeBytes bytes : Int).bmod (256 ^ bytes.length)

theorem ofLeBytesSigned_leBytes {w : Nat} {i : Int} (hlow : -(256 ^ w : Nat) ≤ 2 * i)
    (hhigh : 2 * i < (256 ^ w : Nat)) :
    ofLeBytesSigned (leBytes w (i % (256 ^ w : Nat)).toNat) = i := by
  have hpos : (0 : Int) < (256 ^ w : Nat) := by
    exact_mod_cast Nat.pow_pos (by decide : 0 < 256)
  have hlt : (i % (256 ^ w : Nat)).toNat < 256 ^ w := by
    have := Int.emod_lt_of_pos i hpos
    omega
  have hnat : (((i % (256 ^ w : Nat)).toNat : Nat) : Int) = i % (256 ^ w : Nat) :=
    Int.toNat_of_nonneg (Int.emod_nonneg i (ne_of_gt hpos))
  rw [ofLeBytesSigned, ofLeBytes_leBytes_of_lt hlt, length_leBytes, hnat, Int.emod_bmod]
  apply Int.bmod_eq_of_le
  · omega
  · omega
