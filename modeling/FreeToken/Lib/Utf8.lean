import Mathlib.Data.List.Basic
import Mathlib.Data.List.Infix

/-!
# Lossy decoding of UTF-8

The decoder reads byte by byte and puts U+FFFD in the place of every maximal part of a
sequence that no character begins with, also of one that the end of the bytes cuts off.
On encoded text it is the inverse of the encoding, and on encoded text that is cut inside a
character it gives the characters before the cut and one U+FFFD.
-/

namespace FreeToken.Utf8

/-- U+FFFD, the replacement character. -/
def replacement : Char := '\uFFFD'

/-- A sequence that has begun: how many bytes follow, between which bounds the next one lies,
    and the bits read. -/
structure Pending where
  need : Nat
  low : Nat
  high : Nat
  bits : Nat
  deriving DecidableEq, Repr

/-- The first byte of a sequence. A byte that begins none is replaced. -/
def first (b : Nat) : List Char × Option Pending :=
  if b < 0x80 then ([Char.ofNat b], none)
  else if b < 0xC2 then ([replacement], none)
  else if b < 0xE0 then ([], some ⟨1, 0x80, 0xBF, b - 0xC0⟩)
  else if b = 0xE0 then ([], some ⟨2, 0xA0, 0xBF, 0⟩)
  else if b = 0xED then ([], some ⟨2, 0x80, 0x9F, 0xD⟩)
  else if b < 0xF0 then ([], some ⟨2, 0x80, 0xBF, b - 0xE0⟩)
  else if b = 0xF0 then ([], some ⟨3, 0x90, 0xBF, 0⟩)
  else if b < 0xF4 then ([], some ⟨3, 0x80, 0xBF, b - 0xF0⟩)
  else if b = 0xF4 then ([], some ⟨3, 0x80, 0x8F, 4⟩)
  else ([replacement], none)

/-- One byte. A byte outside the bounds ends the sequence before it and begins one itself. -/
def step : Option Pending → Nat → List Char × Option Pending
  | none, b => first b
  | some p, b =>
      if p.low ≤ b ∧ b ≤ p.high then
        if p.need ≤ 1 then ([Char.ofNat (p.bits * 64 + (b - 0x80))], none)
        else ([], some ⟨p.need - 1, 0x80, 0xBF, p.bits * 64 + (b - 0x80)⟩)
      else (replacement :: (first b).1, (first b).2)

def lossyFrom : Option Pending → List UInt8 → List Char
  | none, [] => []
  | some _, [] => [replacement]
  | state, b :: bytes =>
      (step state b.toNat).1 ++ lossyFrom (step state b.toNat).2 bytes

/-- `bytes.decode("utf-8", errors="replace")`. -/
def lossy (bytes : List UInt8) : List Char := lossyFrom none bytes

def encode (text : List Char) : List UInt8 := text.flatMap String.utf8EncodeChar

/-- The bytes begin a character and do not end it. -/
def Cut (c : Char) (bytes : List UInt8) : Prop :=
  bytes ≠ [] ∧ bytes <+: String.utf8EncodeChar c ∧ bytes ≠ String.utf8EncodeChar c

theorem lossyFrom_cons (state : Option Pending) (b : UInt8) (bytes : List UInt8) :
    lossyFrom state (b :: bytes) =
      (step state b.toNat).1 ++ lossyFrom (step state b.toNat).2 bytes := by
  cases state <;> rfl

@[simp] theorem lossyFrom_nil : lossyFrom none [] = [] := rfl

@[simp] theorem lossyFrom_some_nil (p : Pending) : lossyFrom (some p) [] = [replacement] := rfl

/-! ### The bytes of one character -/

theorem toNat_ofNat {n : Nat} (h : n < 256) : (UInt8.ofNat n).toNat = n := by
  rw [UInt8.toNat_ofNat']
  exact Nat.mod_eq_of_lt h

/-- A byte that a pending sequence waits for, of several. -/
theorem lossyFrom_more {need low high bits b : Nat} {bytes : List UInt8} (hb : b < 0x40)
    (hlow : low ≤ b + 0x80) (hhigh : b + 0x80 ≤ high) :
    lossyFrom (some ⟨need + 2, low, high, bits⟩) (UInt8.ofNat (b + 0x80) :: bytes) =
      lossyFrom (some ⟨need + 1, 0x80, 0xBF, bits * 64 + b⟩) bytes := by
  rw [lossyFrom_cons, toNat_ofNat (by omega)]
  simp [step, hlow, hhigh]

/-- The last byte that a pending sequence waits for. -/
theorem lossyFrom_last {low high bits b : Nat} {bytes : List UInt8} (hb : b < 0x40)
    (hlow : low ≤ b + 0x80) (hhigh : b + 0x80 ≤ high) :
    lossyFrom (some ⟨1, low, high, bits⟩) (UInt8.ofNat (b + 0x80) :: bytes) =
      Char.ofNat (bits * 64 + b) :: lossy bytes := by
  rw [lossyFrom_cons, toNat_ofNat (by omega)]
  simp [step, hlow, hhigh, lossy]

/-- The pending sequence after the first byte of a character of the given code point. -/
def opened (v : Nat) : Pending :=
  if v ≤ 0x7FF then ⟨1, 0x80, 0xBF, v / 64⟩
  else if v ≤ 0xFFFF then
    ⟨2, if v / 4096 = 0 then 0xA0 else 0x80, if v / 4096 = 0xD then 0x9F else 0xBF, v / 4096⟩
  else
    ⟨3, if v / 262144 = 0 then 0x90 else 0x80, if v / 262144 = 4 then 0x8F else 0xBF,
      v / 262144⟩

theorem lossy_two {v : Nat} {bytes : List UInt8} (hlow : 0x7F < v) (hhigh : v ≤ 0x7FF) :
    lossy (UInt8.ofNat (v / 64 % 0x20 + 0xC0) :: bytes) =
      lossyFrom (some (opened v)) bytes := by
  have hdiv : v / 64 % 0x20 = v / 64 := Nat.mod_eq_of_lt (by omega)
  rw [lossy, lossyFrom_cons, hdiv, toNat_ofNat (by omega), step, first, if_neg (by omega),
    if_neg (by omega), if_pos (by omega), opened, if_pos hhigh]
  simp

theorem lossy_three {v : Nat} {bytes : List UInt8} (hlow : 0x7FF < v) (hhigh : v ≤ 0xFFFF) :
    lossy (UInt8.ofNat (v / 4096 % 0x10 + 0xE0) :: bytes) =
      lossyFrom (some (opened v)) bytes := by
  have hdiv : v / 4096 % 0x10 = v / 4096 := Nat.mod_eq_of_lt (by omega)
  have hstep : step none (v / 4096 + 0xE0) = ([], some (opened v)) := by
    simp only [step, first, opened]
    grind
  rw [lossy, lossyFrom_cons, hdiv, toNat_ofNat (by omega), hstep]
  rfl

theorem lossy_four {v : Nat} {bytes : List UInt8} (hlow : 0xFFFF < v) (hhigh : v < 0x110000) :
    lossy (UInt8.ofNat (v / 262144 % 0x08 + 0xF0) :: bytes) =
      lossyFrom (some (opened v)) bytes := by
  have hdiv : v / 262144 % 0x08 = v / 262144 := Nat.mod_eq_of_lt (by omega)
  have hstep : step none (v / 262144 + 0xF0) = ([], some (opened v)) := by
    simp only [step, first, opened]
    grind
  rw [lossy, lossyFrom_cons, hdiv, toNat_ofNat (by omega), hstep]
  rfl

theorem toNat_bounds (c : Char) :
    c.toNat < 0xD800 ∨ 0xDFFF < c.toNat ∧ c.toNat < 0x110000 := c.valid

/-- A decoder that has read a character of the encoded text has that character. -/
theorem lossy_encodeChar (c : Char) (bytes : List UInt8) :
    lossy (String.utf8EncodeChar c ++ bytes) = c :: lossy bytes := by
  have hc := toNat_bounds c
  have hself : Char.ofNat c.toNat = c := Char.ofNat_toNat c
  rw [String.utf8EncodeChar, show c.val.toNat = c.toNat from rfl]
  generalize c.toNat = v at hc hself
  by_cases h1 : v ≤ 0x7F
  · rw [if_pos h1, List.singleton_append, lossy, lossyFrom_cons, toNat_ofNat (by omega), step,
      first, if_pos (by omega)]
    simp [lossy, hself]
  by_cases h2 : v ≤ 0x7FF
  · rw [if_neg h1, if_pos h2, List.cons_append, List.singleton_append, lossy_two (by omega) h2,
      opened, if_pos h2, lossyFrom_last (by omega) (by omega) (by omega)]
    rw [show v / 64 * 64 + v % 0x40 = v by omega, hself]
  by_cases h3 : v ≤ 0xFFFF
  · rw [if_neg h1, if_neg h2, if_pos h3, List.cons_append, List.cons_append,
      List.singleton_append, lossy_three (by omega) h3, opened, if_neg h2, if_pos h3,
      lossyFrom_more (by omega) (by split <;> omega) (by split <;> omega),
      lossyFrom_last (by omega) (by omega) (by omega)]
    rw [show (v / 4096 * 64 + v / 64 % 0x40) * 64 + v % 0x40 = v by omega, hself]
  · rw [if_neg h1, if_neg h2, if_neg h3, List.cons_append, List.cons_append, List.cons_append,
      List.singleton_append, lossy_four (by omega) (by omega), opened, if_neg h2, if_neg h3,
      lossyFrom_more (by omega) (by split <;> omega) (by split <;> omega),
      lossyFrom_more (by omega) (by omega) (by omega),
      lossyFrom_last (by omega) (by omega) (by omega)]
    rw [show ((v / 262144 * 64 + v / 4096 % 0x40) * 64 + v / 64 % 0x40) * 64 + v % 0x40 = v by
      omega, hself]

/-- The end of the bytes inside a character leaves one U+FFFD. -/
theorem lossy_cut {c : Char} {bytes : List UInt8} (h : Cut c bytes) :
    lossy bytes = [replacement] := by
  obtain ⟨hne, hpre, hall⟩ := h
  have hc := toNat_bounds c
  have hlen : bytes.length < (String.utf8EncodeChar c).length := by
    apply Nat.lt_of_le_of_ne hpre.length_le
    intro hlen
    exact hall (hpre.eq_of_length hlen)
  have hpos : 0 < bytes.length := List.length_pos_iff.mpr hne
  rw [List.prefix_iff_eq_take.mp hpre]
  generalize bytes.length = k at hlen hpos
  rw [String.utf8EncodeChar, show c.val.toNat = c.toNat from rfl] at hlen ⊢
  generalize c.toNat = v at hc hlen
  by_cases h1 : v ≤ 0x7F
  · rw [if_pos h1] at hlen
    simp only [List.length_cons, List.length_nil] at hlen
    omega
  by_cases h2 : v ≤ 0x7FF
  · rw [if_neg h1, if_pos h2] at hlen ⊢
    simp only [List.length_cons, List.length_nil] at hlen
    obtain rfl : k = 1 := by omega
    exact lossy_two (by omega) h2
  by_cases h3 : v ≤ 0xFFFF
  · rw [if_neg h1, if_neg h2, if_pos h3] at hlen ⊢
    simp only [List.length_cons, List.length_nil] at hlen
    obtain rfl | rfl : k = 1 ∨ k = 2 := by omega
    · exact lossy_three (by omega) h3
    · rw [List.take_succ_cons, List.take_succ_cons, List.take_zero, lossy_three (by omega) h3,
        opened, if_neg h2, if_pos h3,
        lossyFrom_more (by omega) (by split <;> omega) (by split <;> omega)]
      rfl
  · rw [if_neg h1, if_neg h2, if_neg h3] at hlen ⊢
    simp only [List.length_cons, List.length_nil] at hlen
    obtain rfl | rfl | rfl : k = 1 ∨ k = 2 ∨ k = 3 := by omega
    · exact lossy_four (by omega) (by omega)
    · rw [List.take_succ_cons, List.take_succ_cons, List.take_zero,
        lossy_four (by omega) (by omega), opened, if_neg h2, if_neg h3,
        lossyFrom_more (by omega) (by split <;> omega) (by split <;> omega)]
      rfl
    · rw [List.take_succ_cons, List.take_succ_cons, List.take_succ_cons, List.take_zero,
        lossy_four (by omega) (by omega), opened, if_neg h2, if_neg h3,
        lossyFrom_more (by omega) (by split <;> omega) (by split <;> omega),
        lossyFrom_more (by omega) (by omega) (by omega)]
      rfl

/-! ### The bytes of a text -/

@[simp] theorem encode_nil : encode [] = [] := rfl

@[simp] theorem encode_cons (c : Char) (text : List Char) :
    encode (c :: text) = String.utf8EncodeChar c ++ encode text := rfl

theorem lossy_encode_append (text : List Char) (bytes : List UInt8) :
    lossy (encode text ++ bytes) = text ++ lossy bytes := by
  induction text with
  | nil => rfl
  | cons c text ih =>
      rw [encode_cons, List.append_assoc, lossy_encodeChar, ih]
      rfl

theorem lossy_encode (text : List Char) : lossy (encode text) = text := by
  have h := lossy_encode_append text []
  rwa [List.append_nil, show lossy [] = [] from rfl, List.append_nil] at h

/-- How many characters of the text the bytes have whole. -/
def wholeChars : List Char → List UInt8 → Nat
  | [], _ => 0
  | c :: text, bytes =>
      if (String.utf8EncodeChar c).isPrefixOf bytes then
        wholeChars text (bytes.drop (String.utf8EncodeChar c).length) + 1
      else 0

theorem wholeChars_append (c : Char) (text : List Char) (bytes : List UInt8) :
    wholeChars (c :: text) (String.utf8EncodeChar c ++ bytes) = wholeChars text bytes + 1 := by
  rw [wholeChars, if_pos (by simp), List.drop_left]

theorem wholeChars_of_not_whole {c : Char} {text : List Char} {bytes : List UInt8}
    (h : ¬ String.utf8EncodeChar c <+: bytes) : wholeChars (c :: text) bytes = 0 := by
  rw [wholeChars, if_neg (by rwa [List.isPrefixOf_iff_prefix])]

theorem wholeChars_le (text : List Char) (bytes : List UInt8) :
    wholeChars text bytes ≤ text.length := by
  induction text generalizing bytes with
  | nil => exact Nat.le_refl 0
  | cons c text ih =>
      by_cases h : String.utf8EncodeChar c <+: bytes
      · obtain ⟨rest, rfl⟩ := h
        rw [wholeChars_append]
        exact Nat.succ_le_succ (ih rest)
      · rw [wholeChars_of_not_whole h]
        exact Nat.zero_le _

theorem encode_take_wholeChars (text : List Char) (bytes : List UInt8) :
    encode (text.take (wholeChars text bytes)) <+: bytes := by
  induction text generalizing bytes with
  | nil => exact List.nil_prefix
  | cons c text ih =>
      by_cases h : String.utf8EncodeChar c <+: bytes
      · obtain ⟨rest, rfl⟩ := h
        rw [wholeChars_append, List.take_succ_cons, encode_cons, List.prefix_append_right_inj]
        exact ih rest
      · rw [wholeChars_of_not_whole h]
        exact List.nil_prefix

theorem le_wholeChars {text : List Char} {bytes : List UInt8} {n : Nat} (hn : n ≤ text.length)
    (h : encode (text.take n) <+: bytes) : n ≤ wholeChars text bytes := by
  induction text generalizing bytes n with
  | nil => exact hn
  | cons c text ih =>
      cases n with
      | zero => exact Nat.zero_le _
      | succ n =>
          rw [List.take_succ_cons, encode_cons] at h
          obtain ⟨rest, rfl⟩ := (List.prefix_append _ _).trans h
          rw [wholeChars_append]
          rw [List.prefix_append_right_inj] at h
          exact Nat.succ_le_succ (ih (Nat.le_of_succ_le_succ hn) h)

theorem wholeChars_mono (text : List Char) {bytes more : List UInt8} (h : bytes <+: more) :
    wholeChars text bytes ≤ wholeChars text more :=
  le_wholeChars (wholeChars_le text bytes) ((encode_take_wholeChars text bytes).trans h)

/-- The bytes end inside a character of the text. -/
def CutIn (text : List Char) (bytes : List UInt8) : Prop :=
  bytes ≠ encode (text.take (wholeChars text bytes))

instance (text : List Char) (bytes : List UInt8) : Decidable (CutIn text bytes) :=
  inferInstanceAs (Decidable (_ ≠ _))

theorem cutIn_append {c : Char} {text : List Char} {bytes : List UInt8} :
    CutIn (c :: text) (String.utf8EncodeChar c ++ bytes) ↔ CutIn text bytes := by
  rw [CutIn, CutIn, wholeChars_append, List.take_succ_cons, encode_cons, Ne, Ne,
    List.append_cancel_left_eq]

/-- What bytes that begin an encoded text decode to. -/
theorem lossy_of_begins {text : List Char} {bytes : List UInt8} (h : bytes <+: encode text) :
    lossy bytes = text.take (wholeChars text bytes) ++
        (if CutIn text bytes then [replacement] else []) ∧
      (CutIn text bytes → wholeChars text bytes < text.length) := by
  induction text generalizing bytes with
  | nil =>
      rw [encode_nil, List.prefix_nil] at h
      subst h
      exact ⟨rfl, fun hcut => absurd rfl hcut⟩
  | cons c text ih =>
      by_cases hc : String.utf8EncodeChar c <+: bytes
      · obtain ⟨rest, rfl⟩ := hc
        rw [encode_cons, List.prefix_append_right_inj] at h
        obtain ⟨hlossy, hlt⟩ := ih h
        simp only [cutIn_append, wholeChars_append, lossy_encodeChar, hlossy,
          List.take_succ_cons, List.cons_append, List.length_cons, true_and]
        intro hcut
        exact Nat.succ_lt_succ (hlt hcut)
      · rw [encode_cons] at h
        have hlen : bytes.length ≤ (String.utf8EncodeChar c).length := by
          by_contra hlt
          exact hc (List.prefix_of_prefix_length_le (List.prefix_append _ _) h (by omega))
        have hpre : bytes <+: String.utf8EncodeChar c :=
          List.prefix_of_prefix_length_le h (List.prefix_append _ _) hlen
        simp only [CutIn, wholeChars_of_not_whole hc, List.take_zero, encode_nil,
          List.nil_append]
        refine ⟨?_, fun _ => Nat.succ_pos _⟩
        by_cases hnil : bytes = []
        · subst hnil
          rfl
        · rw [if_pos hnil]
          apply lossy_cut ⟨hnil, hpre, ?_⟩
          rintro rfl
          exact hc (List.prefix_refl _)

/-- Bytes that stay inside a character are still inside it when more of them come. -/
theorem CutIn.mono {text : List Char} {bytes more : List UInt8} (h : bytes <+: more)
    (hcut : CutIn text bytes) (heq : wholeChars text bytes = wholeChars text more) :
    CutIn text more := by
  intro hmore
  rw [← heq] at hmore
  have hback : more <+: bytes := hmore ▸ encode_take_wholeChars text bytes
  have hsame := h.eq_of_length (Nat.le_antisymm h.length_le hback.length_le)
  exact hcut (hsame.trans hmore)

end FreeToken.Utf8
