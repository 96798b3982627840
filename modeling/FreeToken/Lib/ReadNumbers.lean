import Mathlib.Data.List.Basic
import Mathlib.Tactic.Common
import Mathlib.Data.Rat.Defs
import Mathlib.Algebra.Order.Floor.Defs

/-!
# Numbers in strings

`int(s)`, the parts of a dotted name, Python's floats and `float(s)`. A float is a binary64, with
the arithmetic of the core's model of it. What Python does on top of that arithmetic is defined
here: the conversion of an int, `math.fmod`, `math.floor` and the operator `//`.

`float(s)` reads a sign, and then `inf`, `infinity` or `nan` in any case, or digits with a point
and an exponent. Digits may be any decimal digits of Unicode, with at most one underscore
between two of them.
-/

namespace FreeToken

/-! ### Integers and dotted names -/

/-- The zeros of the decimal digits of Unicode, each followed by 1 to 9. -/
def digitZeros : List Nat :=
  [0x30, 0x660, 0x6f0, 0x7c0, 0x966, 0x9e6, 0xa66, 0xae6, 0xb66, 0xbe6, 0xc66, 0xce6, 0xd66, 0xde6,
    0xe50, 0xed0, 0xf20, 0x1040, 0x1090, 0x17e0, 0x1810, 0x1946, 0x19d0, 0x1a80, 0x1a90, 0x1b50,
    0x1bb0, 0x1c40, 0x1c50, 0xa620, 0xa8d0, 0xa900, 0xa9d0, 0xa9f0, 0xaa50, 0xabf0, 0xff10, 0x104a0,
    0x10d30, 0x11066, 0x110f0, 0x11136, 0x111d0, 0x112f0, 0x11450, 0x114d0, 0x11650, 0x116c0,
    0x11730, 0x118e0, 0x11950, 0x11c50, 0x11d50, 0x11da0, 0x16a60, 0x16ac0, 0x16b50, 0x1d7ce,
    0x1d7d8, 0x1d7e2, 0x1d7ec, 0x1d7f6, 0x1e140, 0x1e2f0, 0x1e950, 0x1fbf0]

def digitValue (c : Char) : Option Nat :=
  (digitZeros.find? fun z => z ≤ c.toNat && c.toNat < z + 10).map (c.toNat - ·)

/-- The space around a number that is passed over. -/
def isBlank (c : Char) : Bool :=
  (9 ≤ c.toNat && c.toNat ≤ 13) || (0x2000 ≤ c.toNat && c.toNat ≤ 0x200a) ||
    c.toNat ∈ [0x20, 0x85, 0xa0, 0x1680, 0x2028, 0x2029, 0x202f, 0x205f, 0x3000]

/-- Digits with at most one underscore between two of them. -/
def readDigits : List Char → Option (List Nat)
  | [] => none
  | [c] => (digitValue c).map ([·])
  | c :: '_' :: cs => (digitValue c).bind fun d => (readDigits cs).map (d :: ·)
  | c :: c' :: cs => (digitValue c).bind fun d => (readDigits (c' :: cs)).map (d :: ·)

/-- Longer numbers are refused. -/
def maxDigits : Nat := 4300

def readNat (cs : List Char) : Option Nat :=
  (readDigits cs).bind fun ds =>
    if ds.length ≤ maxDigits then some (ds.foldl (fun n d => 10 * n + d) 0) else none

/-- `int(s)`, `none` for a `ValueError`. -/
def readInt (s : String) : Option Int :=
  match ((s.toList.dropWhile isBlank).reverse.dropWhile isBlank).reverse with
  | '-' :: cs => (readNat cs).map fun n => -(n : Int)
  | '+' :: cs => (readNat cs).map fun n => (n : Int)
  | cs => (readNat cs).map fun n => (n : Int)

example : (readInt " -1_0", readInt "٣", readInt "1__0", readInt "+ 5") =
    (some (-10), some 3, none, none) := by decide +kernel

def splitDots : List Char → List (List Char)
  | [] => [[]]
  | c :: cs =>
      if c = '.' then [] :: splitDots cs
      else
        match splitDots cs with
        | [] => [[c]]
        | part :: parts => (c :: part) :: parts

/-- `s.split(".")`. -/
def dotParts (s : String) : List String := (splitDots s.toList).map String.ofList

/-! ### Floats -/

namespace PyFloat

open Float.Model (UnpackedFloat Format)
open Float.Model.UnpackedFloat (Sign)

theorem then_swap (e e' : Int) (m m' : Nat) :
    (compare e' e).then (compare m' m) = ((compare e e').then (compare m m')).swap := by
  rw [Ordering.swap_then, Std.OrientedOrd.eq_swap (a := e'), Std.OrientedOrd.eq_swap (a := m')]

theorem compare_swap (x y : UnpackedFloat) : y.compare x = (x.compare y).map Ordering.swap := by
  rcases x with ⟨_ | _⟩ | _ | ⟨_ | _⟩ | ⟨_ | _, m, e, hm⟩ <;>
    rcases y with ⟨_ | _⟩ | _ | ⟨_ | _⟩ | ⟨_ | _, m', e', hm'⟩ <;>
    first
    | rfl
    | exact congrArg some (then_swap e e' m m')
    | exact congrArg (fun o => some o.swap) (then_swap e e' m m')

theorem not_le_of_lt {x y : Float.Model} (h : x < y) : ¬ y ≤ x := by
  have hlt : x.unpack.compare y.unpack = some .lt := by
    simpa [LT.lt, Float.Model.lt, UnpackedFloat.lt] using h
  have hgt : y.unpack.compare x.unpack = some .gt := by
    rw [compare_swap, hlt]
    rfl
  simp [LE.le, Float.Model.le, UnpackedFloat.le, hgt]

/-- The value of a finite float. -/
def toRat? (x : Float.Model) : Option Rat :=
  match x.unpack with
  | .infinity _ => none
  | .notANumber => none
  | .zero _ => some 0
  | .finite sign mantissa exponent _ => some (sign.apply mantissa * (2 : Rat) ^ exponent)

/-- A binary32 as a float. -/
def ofBits32 (bits : UInt32) : Float.Model :=
  match UnpackedFloat.unpack Format.binary32 bits.toBitVec with
  | .finite sign mantissa exponent _ =>
      .pack (UnpackedFloat.round Format.binary64 sign mantissa exponent)
  | x => .pack x

/-- The sign bit, which a zero has too. -/
def signOf (x : Float.Model) : Sign :=
  match x.unpack with
  | .infinity sign => sign
  | .notANumber => .positive
  | .zero sign => sign
  | .finite sign _ _ _ => sign

/-- `copysign(0.0, x)`. -/
def zeroLike (x : Float.Model) : Float.Model := .pack (.zero (signOf x))

def isZero (x : Float.Model) : Bool := x.beq (.ofNat 0)

/-- C's `fmod`; the remainder of two finite floats is exact. -/
def fmod (x y : Float.Model) : Float.Model :=
  match x.unpack, y.unpack with
  | .notANumber, _ => .pack .notANumber
  | _, .notANumber => .pack .notANumber
  | .infinity _, _ => .pack .notANumber
  | _, .zero _ => .pack .notANumber
  | _, .infinity _ => x
  | .zero _, _ => x
  | .finite sx mx ex _, .finite _ my ey _ =>
      let exponent := min ex ey
      let remainder := (mx <<< (ex - exponent).toNat) % (my <<< (ey - exponent).toNat)
      .pack (UnpackedFloat.normalize Format.binary64 (sx.apply remainder) exponent sx)

/-- C's `floor`. -/
def floor (x : Float.Model) : Float.Model :=
  match x.unpack with
  | .finite sign mantissa exponent _ =>
      if 0 ≤ exponent then x
      else .pack (UnpackedFloat.normalize Format.binary64
        ((sign.apply mantissa).fdiv (2 ^ (-exponent).toNat)) 0 sign)
  | _ => x

/-- `_float_div_mod`'s quotient, for a divisor that is not zero. -/
def floorDiv (vx wx : Float.Model) : Float.Model :=
  let mod := fmod vx wx
  let div := (vx - mod) / wx
  let div :=
    if ¬ isZero mod ∧ decide (wx < .ofNat 0) ≠ decide (mod < .ofNat 0) then div - .ofNat 1
    else div
  if isZero div then zeroLike (vx / wx)
  else
    let floordiv := floor div
    if .ofScientific 5 (-1) < div - floordiv then floordiv + .ofNat 1 else floordiv

end PyFloat

/-! ### Floats in strings -/

/-- `c.isspace()`. Python's `strip` removes it, also where `int` and `float` do not. -/
def isSpace (c : Char) : Bool := isBlank c || (0x1c ≤ c.toNat && c.toNat ≤ 0x1f)

/-- `s.strip()`. -/
def pyStrip (cs : List Char) : List Char :=
  ((cs.dropWhile isSpace).reverse.dropWhile isSpace).reverse

/-- The digits that the characters begin with, and the rest. -/
def spanDigits : List Char → List Nat × List Char
  | [] => ([], [])
  | c :: '_' :: c' :: cs =>
      match digitValue c with
      | none => ([], c :: '_' :: c' :: cs)
      | some d =>
          if (digitValue c').isSome then
            let (ds, rest) := spanDigits (c' :: cs)
            (d :: ds, rest)
          else ([d], '_' :: c' :: cs)
  | c :: cs =>
      match digitValue c with
      | none => ([], c :: cs)
      | some d =>
          let (ds, rest) := spanDigits cs
          (d :: ds, rest)

def ofDigits (ds : List Nat) : Nat := ds.foldl (fun n d => 10 * n + d) 0

/-- An exponent, or nothing. -/
def readExponent : List Char → Option Int
  | [] => some 0
  | e :: cs =>
      if e = 'e' ∨ e = 'E' then
        let (negative, cs) :=
          match cs with
          | '-' :: cs => (true, cs)
          | '+' :: cs => (false, cs)
          | cs => (false, cs)
        let (ds, rest) := spanDigits cs
        if ds = [] ∨ rest ≠ [] then none
        else some (if negative then -(ofDigits ds : Int) else ofDigits ds)
      else none

/-- A number without its sign. -/
def readUnsigned (cs : List Char) : Option Float.Model :=
  let (whole, rest) := spanDigits cs
  let (fraction, rest) :=
    match rest with
    | '.' :: rest => spanDigits rest
    | rest => ([], rest)
  if whole = [] ∧ fraction = [] then none
  else (readExponent rest).map fun exponent =>
    .ofScientific (ofDigits (whole ++ fraction)) (exponent - fraction.length)

def readMagnitude (cs : List Char) : Option Float.Model :=
  let word := cs.map Char.toLower
  if word = ['i', 'n', 'f'] ∨ word = ['i', 'n', 'f', 'i', 'n', 'i', 't', 'y'] then
    some (.pack (.infinity .positive))
  else if word = ['n', 'a', 'n'] then some (.pack .notANumber)
  else readUnsigned cs

/-- `float(s)`, `none` for a `ValueError`. -/
def readFloat (cs : List Char) : Option Float.Model :=
  match ((cs.dropWhile isBlank).reverse.dropWhile isBlank).reverse with
  | '-' :: cs => (readMagnitude cs).map (-·)
  | '+' :: cs => readMagnitude cs
  | cs => readMagnitude cs

example : ((readFloat " 1_0.5e-1 ".toList).map PyFloat.toRat?, (readFloat "1__0".toList).isNone,
    (readFloat ".".toList).isNone) = (some (PyFloat.toRat? (.ofScientific 105 (-2))), true, true) := by
  decide +kernel

end FreeToken
