import Mathlib.Algebra.BigOperators.Group.Finset.Basic
import Mathlib.Algebra.Order.Field.Basic
import Mathlib.Data.List.MinMax
import Mathlib.Data.List.Sort

/-!
# The sampler

`engine/sample.py`, with probabilities as exact masses: `log_probs` is kept as the masses
themselves, and `-inf` is the mass `0`. The exponential is any function with the laws of one,
and `torch.sort` any function that sorts; what it does with ties is left open.
-/

namespace FreeToken

variable {K : Type} [Field K] [LinearOrder K]

/-- The laws of the exponential that the sampler relies on. -/
structure ExpLaws (exp : K → K) : Prop where
  pos : ∀ x, 0 < exp x
  add : ∀ x y, exp (x + y) = exp x * exp y
  strictMono : StrictMono exp

/-- `sorted_idx` of `torch.sort(descending=True)`. -/
structure Sorts (sortIdx : Nat → (Nat → K) → List Nat) : Prop where
  perm : ∀ vocab f, (sortIdx vocab f).Perm (List.range vocab)
  sorted : ∀ vocab f, (sortIdx vocab f).Pairwise fun u v => f v ≤ f u

/-- A request's row of the batch. -/
structure SampleRow (K : Type) where
  logits : Nat → K
  temperature : K
  topK : Int
  topP : K

/-- The logits and the sampling arguments of one step. -/
structure SampleBatch (K : Type) where
  vocab : Nat
  rows : List (SampleRow K)

namespace Sampler

/-- `softmax`, of masses. -/
def normalise (vocab : Nat) (f : Nat → K) : Nat → K := fun v =>
  f v / ∑ u ∈ Finset.range vocab, f u

/-- The row's masses at a temperature. -/
def scaled (exp : K → K) (vocab : Nat) (row : SampleRow K) (temperature : K) : Nat → K :=
  normalise vocab fun v => exp (row.logits v / temperature)

/-- `clamp_min(1e-5)`. -/
def minTemperature : K := 1 / 100000

/-- The first token with the largest logit. -/
def argmax (vocab : Nat) (f : Nat → K) : Nat := ((List.range vocab).argmax f).getD 0

/-- All mass on one token. -/
def pointMass (v : Nat) : Nat → K := fun u => if u = v then 1 else 0

variable (sortIdx : Nat → (Nat → K) → List Nat)

/-- The top-k filter: the last value of `torch.topk` is the threshold. -/
def filterTopK (vocab : Nat) (k : Int) (f : Nat → K) : Nat → K :=
  if 0 < k ∧ k < vocab then fun v =>
    if f v < f ((sortIdx vocab f).getD (k.toNat - 1) 0) then 0 else f v
  else f

/-- `roll(1)`. -/
def roll (l : List K) : List K :=
  match l.getLast? with
  | none => []
  | some x => x :: l.dropLast

/-- `cumsum`. -/
def cumsum (l : List K) : List K := (List.range l.length).map fun j => (l.take (j + 1)).sum

/-- `prefix`, with its first entry set to `0`. -/
def prefixMasses (l : List K) : List K :=
  match cumsum (roll l) with
  | [] => []
  | _ :: rest => 0 :: rest

/-- The top-p filter: `keep` is scattered back through `sorted_idx`. -/
def filterTopP (vocab : Nat) (p : K) (f : Nat → K) : Nat → K :=
  if 0 < p ∧ p < 1 then
    let order := sortIdx vocab f
    let keepSorted := (prefixMasses (order.map f)).map fun x => decide (¬ p < x)
    fun v => if (order.zip keepSorted).lookup v = some true then f v else 0
  else f

/-- The rows of `stochastic_mask`. -/
def stochastic (rows : List (SampleRow K)) : List (SampleRow K) :=
  rows.filter fun row => row.temperature ≠ 0

/-- `k_min`. -/
def kMin (rows : List (SampleRow K)) : Int := (((stochastic rows).map (·.topK)).min?).getD 0

/-- `p_min`, of the clamped `top_p`. -/
def pMin (rows : List (SampleRow K)) : K :=
  (((stochastic rows).map fun row => min 1 (max 0 row.topP)).min?).getD 0

variable (exp : K → K)

/-- What a row of the batch is drawn from. -/
def rowDistribution (b : SampleBatch K) (row : SampleRow K) : Nat → K :=
  if row.temperature = 0 then pointMass (argmax b.vocab row.logits)
  else
    normalise b.vocab (filterTopP sortIdx b.vocab (pMin b.rows)
      (filterTopK sortIdx b.vocab (kMin b.rows)
        (scaled exp b.vocab row (max row.temperature minTemperature))))

/-- `Sampler.sample`, up to the draw. -/
def sample (b : SampleBatch K) : List (Nat → K) := b.rows.map (rowDistribution sortIdx exp b)

/-! ### A row for itself -/

/-- A token is kept as long as the more probable ones do not reach `p`. -/
def nucleus (vocab : Nat) (p : K) (f : Nat → K) : Nat → K := fun v =>
  if (∑ u ∈ Finset.range vocab, if f v < f u then f u else 0) < p then f v else 0

/-- Scale by the temperature, keep the `top_k` most likely tokens, renormalise, keep the fewest
most likely tokens whose mass reaches `top_p`, renormalise. -/
def ownTruncation (vocab : Nat) (row : SampleRow K) : Nat → K :=
  if row.temperature = 0 then pointMass (argmax vocab row.logits)
  else
    normalise vocab (nucleus vocab row.topP
      (normalise vocab (filterTopK sortIdx vocab row.topK (scaled exp vocab row row.temperature))))

end Sampler

end FreeToken
