import Mathlib.Algebra.BigOperators.Fin
import Mathlib.Algebra.Order.Ring.Defs
import FreeToken.Lib.Recurrence

/-!
# LFM2's short convolution

`ShortConv` of `models/lfm2_moe`, over exact numbers. A sequence is a list of
columns, one for each position, and a column holds one number for each channel. The
stateful forward over a later slice, from the ring of the positions before it, is the
rest of the stateless forward over the whole sequence.
-/

namespace FreeToken

abbrev Column (R : Type) (width : Nat) := Fin width → R

/-- `nn.Linear`. -/
structure Linear (R : Type) (m n : Nat) where
  weight : Fin n → Column R m
  bias : Option (Column R n) := none

variable {R : Type} [Semiring R]

def Linear.apply {m n : Nat} (f : Linear R m n) (x : Column R m) : Column R n := fun i =>
  (∑ j, f.weight i j * x j) + f.bias.elim 0 fun b => b i

/-- `F.conv1d` with one filter a channel and no padding. -/
def conv1d {width kernelSize : Nat} (weight : Fin width → Fin kernelSize → R)
    (bias : Option (Column R width)) (xs : List (Column R width)) : List (Column R width) :=
  (SlidingWindow.windows (kernelSize - 1) xs).map fun window c =>
    (∑ k, weight c k * ((window[k.val]?).getD 0) c) + bias.elim 0 fun b => b c

/-- `ShortConv`, with its parameters. -/
structure ShortConv (R : Type) (hidden kernelSize : Nat) where
  inProj : Linear R hidden (3 * hidden)
  convWeight : Fin hidden → Fin kernelSize → R
  convBias : Option (Column R hidden) := none
  outProj : Linear R hidden hidden

/-- The left context of a convolution: `kernel_size - 1` columns. -/
abbrev Ring (R : Type) (hidden kernelSize : Nat) :=
  { columns : List (Column R hidden) // columns.length = kernelSize - 1 }

def Ring.zero {hidden kernelSize : Nat} : Ring R hidden kernelSize :=
  ⟨List.replicate (kernelSize - 1) 0, by simp⟩

namespace ShortConv

variable {hidden kernelSize : Nat} (conv : ShortConv R hidden kernelSize)

/-- `in_proj(x).chunk(3)`. -/
def chunk (x : Column R hidden) (i : Fin 3) : Column R hidden := fun c =>
  conv.inProj.apply x ⟨i * hidden + c, by
    have h1 : (i + 1) * hidden ≤ 3 * hidden := Nat.mul_le_mul_right hidden i.isLt
    rw [Nat.succ_mul] at h1
    omega⟩

/-- The gated input `b * gx` of the convolution. -/
def gated (x : Column R hidden) : Column R hidden := fun c => conv.chunk x 0 c * conv.chunk x 2 c

/-- The output for a column: `out_proj(c * out)`. -/
def output (x out : Column R hidden) : Column R hidden :=
  conv.outProj.apply fun c => conv.chunk x 1 c * out c

/-- `causal_depthwise_conv1d`. -/
def causalConv1d (hs : List (Column R hidden)) : List (Column R hidden) :=
  conv1d conv.convWeight conv.convBias (List.replicate (kernelSize - 1) 0 ++ hs)

/-- The stateless forward over a whole sequence. -/
def forward (xs : List (Column R hidden)) : List (Column R hidden) :=
  List.zipWith conv.output xs (conv.causalConv1d (xs.map conv.gated))

/-- The forward over a slice, and the ring afterwards. -/
def forwardStateful (xs : List (Column R hidden)) (state : Ring R hidden kernelSize) :
    List (Column R hidden) × Ring R hidden kernelSize :=
  let full := state.1 ++ xs.map conv.gated
  (List.zipWith conv.output xs (conv1d conv.convWeight conv.convBias full),
    ⟨SlidingWindow.lastN (kernelSize - 1) full,
      SlidingWindow.length_lastN _ (by simp [full, state.2])⟩)

/-- The ring as a state: the last gated inputs. -/
def ring : Recurrence (Column R hidden) (Ring R hidden kernelSize) :=
  Recurrence.window 0 (kernelSize - 1) conv.gated

/-- A slice from the ring of what came before. -/
theorem forwardStateful_output (past xs : List (Column R hidden)) :
    (conv.forwardStateful xs (conv.ring.after past)).1 =
      (conv.forward (past ++ xs)).drop past.length := by
  have hring : (conv.ring.after past).1 =
      SlidingWindow.tail 0 (kernelSize - 1) (past.map conv.gated) :=
    Recurrence.after_window 0 (kernelSize - 1) conv.gated past
  have hwindows := SlidingWindow.windows_tail (n := kernelSize - 1) 0
    (past.map conv.gated) (xs.map conv.gated)
  simp only [forwardStateful, forward, causalConv1d, conv1d]
  rw [hring, hwindows, List.drop_zipWith, List.drop_left, List.map_append, List.map_drop,
    List.length_map]

end ShortConv

end FreeToken
