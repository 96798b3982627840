import Mathlib.Data.Nat.Prime.Infinite
import Mathlib.Data.Nat.Find
import Mathlib.Logic.Function.Iterate
import Mathlib.Order.Monotone.Basic
import FreeToken.Lib.EndToEnd
import FreeToken.Models.NgramHash

/-!
# The n-gram hash's constants

`derive_ngram_hash_constants` draws an odd multiplier for each tap and a prime table size for
each hash head. The multipliers are small enough for the product with any token to be a
non-negative `int64`, and a row lies in the range of its own head.
-/

namespace FreeToken

namespace NgramHash

/-! ### The constants -/

def gamma : Nat := 0x9E3779B97F4A7C15

/-- `& mask64`. -/
def mask64 (value : Int) : Nat := (value % 2 ^ 64).toNat

def splitmix64 (value : Nat) : Nat :=
  let value := mask64 (value + gamma : Nat)
  let value := mask64 ((value ^^^ (value >>> 30)) * 0xBF58476D1CE4E5B9 : Nat)
  let value := mask64 ((value ^^^ (value >>> 27)) * 0x94D049BB133111EB : Nat)
  mask64 (value ^^^ (value >>> 31) : Nat)

/-- Trial division by the odd numbers up to the root. -/
def isPrime (value : Nat) : Bool :=
  if value < 2 then false
  else if value % 2 = 0 then value == 2
  else (List.range' 3 ((Nat.sqrt value + 1 - 3 + 1) / 2) 2).all fun divisor => value % divisor != 0

theorem isPrime_iff (value : Nat) : isPrime value = true ↔ value.Prime := by
  rw [Nat.prime_def_le_sqrt, isPrime]
  by_cases htwo : value < 2
  · simp only [htwo, if_true, Bool.false_eq_true, false_iff]
    rintro ⟨hle, -⟩
    omega
  by_cases heven : value % 2 = 0
  · simp only [htwo, heven, if_false, if_true, beq_iff_eq]
    constructor
    · rintro rfl
      exact Nat.prime_def_le_sqrt.mp Nat.prime_two
    · intro h
      have hdvd : 2 ∣ value := Nat.dvd_of_mod_eq_zero heven
      exact ((Nat.prime_dvd_prime_iff_eq Nat.prime_two (Nat.prime_def_le_sqrt.mpr h)).mp hdvd).symm
  simp only [htwo, heven, if_false, List.all_eq_true, List.mem_range', bne_iff_ne, ne_eq]
  constructor
  · intro h
    refine ⟨by omega, fun d hd hroot hdvd => ?_⟩
    -- an even divisor would make the number even
    have hodd : d % 2 = 1 := by
      rcases Nat.mod_two_eq_zero_or_one d with h0 | h1
      · exact absurd (Nat.mod_eq_zero_of_dvd ((Nat.dvd_of_mod_eq_zero h0).trans hdvd)) heven
      · exact h1
    exact h d ⟨(d - 3) / 2, by omega, by omega⟩ (Nat.mod_eq_zero_of_dvd hdvd)
  · rintro ⟨-, h⟩ d ⟨i, hi, rfl⟩ hzero
    exact h (3 + 2 * i) (by omega) (by omega) (Nat.dvd_of_mod_eq_zero hzero)

theorem exists_isPrime (start : Nat) : ∃ k, isPrime (start + k) = true := by
  rcases Nat.exists_infinite_primes start with ⟨p, hp, hprime⟩
  exact ⟨p - start, by rw [Nat.add_sub_cancel' hp, isPrime_iff]; exact hprime⟩

/-- One round of `nth_prime_after`: `prime += 1`, and on to the first prime from there. -/
def nextPrime (prime : Nat) : Nat := prime + 1 + Nat.find (exists_isPrime (prime + 1))

def nthPrimeAfter (start count : Nat) : Nat := nextPrime^[count] start

def halfBound (vocabSize : Nat) : Nat := max 1 ((2 ^ 63 - 1) / max vocabSize 1 / 2)

def multiplier (vocabSize pleLayerIndex : Nat) (seed : Int) (i : Nat) : Nat :=
  let baseSeed := seed + 10007 * pleLayerIndex
  2 * (splitmix64 (mask64 (baseSeed + gamma * (i + 1))) % halfBound vocabSize) + 1

/-- The table size of a head of a layer. -/
def headSize (numNgramHeads ngramVocabSizeBase pleLayerIndex head : Nat) : Nat :=
  nthPrimeAfter (ngramVocabSizeBase - 1) (pleLayerIndex * numNgramHeads + head + 1)

/-- `derive_ngram_hash_constants`: the multipliers, the heads' sizes and their offsets. -/
def deriveNgramHashConstants (vocabSize ngramSize numNgramHeads ngramVocabSizeBase
    pleLayerIndex : Nat) (seed : Int) : List Nat × List Nat × List Nat :=
  let multipliers := (List.range ngramSize).map (multiplier vocabSize pleLayerIndex seed)
  let (sizes, offsets, _) := (List.range numNgramHeads).foldl
    (fun (sizes, offsets, total) head =>
      let size := headSize numNgramHeads ngramVocabSizeBase pleLayerIndex head
      (sizes ++ [size], offsets ++ [total], total + size))
    ([], [], 0)
  (multipliers, sizes, offsets)

/-- The hash of a model, with the constants of its configuration. -/
def derived (boundaryTokenId : Token) (vocabSize ngramSize headsPerNgram ngramVocabSizeBase
    pleLayerIndex : Nat) (seed : Int) (hngram : 2 ≤ ngramSize) : NgramHash :=
  let constants := deriveNgramHashConstants vocabSize ngramSize ((ngramSize - 1) * headsPerNgram)
    ngramVocabSizeBase pleLayerIndex seed
  { boundaryTokenId := boundaryTokenId
    ngramSize := ngramSize
    headsPerNgram := headsPerNgram
    multipliers := constants.1
    headVocabSizes := constants.2.1
    headOffsets := constants.2.2
    ngramSize_ge := hngram }

/-- `offsets[-1] + sizes[-1]`. -/
def tableRows (h : NgramHash) : Nat :=
  (h.headOffsets.getLast?).getD 0 + (h.headVocabSizes.getLast?).getD 0

/-! ### The sizes and the offsets -/

theorem nextPrime_spec (prime : Nat) : prime < nextPrime prime ∧ (nextPrime prime).Prime := by
  refine ⟨Nat.lt_of_lt_of_le (Nat.lt_succ_self prime) (Nat.le_add_right _ _), ?_⟩
  exact (isPrime_iff _).mp (Nat.find_spec (exists_isPrime (prime + 1)))

theorem nthPrimeAfter_succ (start count : Nat) :
    nthPrimeAfter start (count + 1) = nextPrime (nthPrimeAfter start count) :=
  Function.iterate_succ_apply' _ _ _

theorem nthPrimeAfter_strictMono (start : Nat) : StrictMono (nthPrimeAfter start) :=
  strictMono_nat_of_lt_succ fun count => by
    rw [nthPrimeAfter_succ]
    exact (nextPrime_spec _).1

theorem headSize_prime (numNgramHeads ngramVocabSizeBase pleLayerIndex head : Nat) :
    (headSize numNgramHeads ngramVocabSizeBase pleLayerIndex head).Prime := by
  rw [headSize, nthPrimeAfter_succ]
  exact (nextPrime_spec _).2

/-- Two heads of any layers have the same size only when they are the same. -/
theorem headSize_inj {numNgramHeads ngramVocabSizeBase layer layer' head head' : Nat}
    (hhead : head < numNgramHeads) (hhead' : head' < numNgramHeads)
    (h : headSize numNgramHeads ngramVocabSizeBase layer head =
      headSize numNgramHeads ngramVocabSizeBase layer' head') : layer = layer' ∧ head = head' := by
  have hglobal := Nat.succ.inj ((nthPrimeAfter_strictMono _).injective h)
  have hpos : 0 < numNgramHeads := Nat.zero_lt_of_lt hhead
  constructor
  · have hdiv := congrArg (· / numNgramHeads) hglobal
    simpa [Nat.mul_comm _ numNgramHeads, Nat.mul_add_div hpos, Nat.div_eq_of_lt, hhead, hhead']
      using hdiv
  · have hmod := congrArg (· % numNgramHeads) hglobal
    simpa [Nat.mul_comm _ numNgramHeads, Nat.mul_add_mod, Nat.mod_eq_of_lt, hhead, hhead']
      using hmod

theorem foldl_heads (f : Nat → Nat) (n : Nat) :
    (List.range n).foldl
      (fun (acc : List Nat × List Nat × Nat) head =>
        (acc.1 ++ [f head], acc.2.1 ++ [acc.2.2], acc.2.2 + f head)) ([], [], 0) =
      ((List.range n).map f, EndToEnd.starts 0 ((List.range n).map f),
        ((List.range n).map f).sum) := by
  induction n with
  | zero => rfl
  | succ n ih => simp [List.range_succ, ih, EndToEnd.starts_append]

theorem deriveNgramHashConstants_eq (vocabSize ngramSize numNgramHeads ngramVocabSizeBase
    pleLayerIndex : Nat) (seed : Int) :
    let sizes := (List.range numNgramHeads).map
      (headSize numNgramHeads ngramVocabSizeBase pleLayerIndex)
    deriveNgramHashConstants vocabSize ngramSize numNgramHeads ngramVocabSizeBase pleLayerIndex
        seed =
      ((List.range ngramSize).map (multiplier vocabSize pleLayerIndex seed), sizes,
        EndToEnd.starts 0 sizes) := by
  have hfold := foldl_heads (headSize numNgramHeads ngramVocabSizeBase pleLayerIndex) numNgramHeads
  simp only [deriveNgramHashConstants]
  rw [hfold]

end NgramHash

end FreeToken
