import FreeToken.Core
import FreeToken.Lib.Recurrence

/-!
# The n-gram rows of qwen4_exp

`ple_ngram_row_ids` hashes each token with those before it, up to the last boundary
token, into one table row for each hash head. The rows of a token are a function of the
last `ngram_size` tokens, so the tokens of an earlier call can be left out of the next
one but for the last `ngram_size - 1`.
-/

namespace FreeToken

/-- The hash's configuration and constants. -/
structure NgramHash where
  boundaryTokenId : Token
  ngramSize : Nat
  headsPerNgram : Nat
  multipliers : List Nat
  headVocabSizes : List Nat
  headOffsets : List Nat
  ngramSize_ge : 2 ≤ ngramSize := by decide
deriving DecidableEq, Repr

namespace NgramHash

variable (h : NgramHash)

/-- `where(token_ids == boundary, pos, -1)`. -/
def eosPos (ids : List Token) : List Int :=
  ids.zipIdx.map fun (tok, pos) => if tok = h.boundaryTokenId then (pos : Int) else -1

/-- The running maximum, from `m` on. -/
def cummaxFrom (m : Int) : List Int → List Int
  | [] => []
  | x :: xs => max m x :: cummaxFrom (max m x) xs

/-- `torch.cummax`. -/
def cummax : List Int → List Int
  | [] => []
  | x :: xs => x :: cummaxFrom x xs

/-- The last boundary before each position, or -1. -/
def prevEos (ids : List Token) : List Int := -1 :: (cummax (h.eosPos ids)).dropLast

/-- `pos - prev_eos - 1`. -/
def inSegment (ids : List Token) (t : Nat) : Int := t - ((h.prevEos ids)[t]?).getD (-1) - 1

/-- `shifted[shift]` at position `t`. -/
def shifted (ids : List Token) (t shift : Nat) : Token :=
  if shift = 0 then (ids[t]?).getD 0
  else if 0 ≤ (t : Int) - shift ∧ (shift : Int) ≤ h.inSegment ids t then (ids[t - shift]?).getD 0
  else h.boundaryTokenId

/-- The tokens that are hashed at position `t`: itself, and those before it. -/
def taps (ids : List Token) (t : Nat) : List Token := (List.range h.ngramSize).map (h.shifted ids t)

/-- The xor of the first `ngram` taps, each times its multiplier, as an `int64`. -/
def mixed (taps : List Token) (ngram : Nat) : BitVec 64 :=
  ((taps.zip h.multipliers).take ngram).foldl
    (fun acc (tok, mult) => acc ^^^ (BitVec.ofNat 64 tok * BitVec.ofNat 64 mult)) 0

/-- The rows of one position: for each order from 2 on, one for each of its heads. -/
def rowsOf (taps : List Token) : List Int :=
  (List.range' 2 (h.ngramSize - 1)).flatMap fun ngram =>
    let start := (ngram - 2) * h.headsPerNgram
    ((h.headVocabSizes.zip h.headOffsets).drop start).take h.headsPerNgram |>.map
      fun (size, offset) => (h.mixed taps ngram).toInt.fmod size + offset

/-- `ple_ngram_row_ids`. -/
def ngramRowIds (ids : List Token) : List (List Int) :=
  (List.range ids.length).map fun t => h.rowsOf (h.taps ids t)

/-! ### The last boundary -/

theorem cummaxFrom_le {c : Int} : ∀ {xs : List Int} {m : Int} {i : Nat} {y : Int},
    (cummaxFrom m xs)[i]? = some y → (y ≤ c ↔ m ≤ c ∧ ∀ j ≤ i, ∀ x, xs[j]? = some x → x ≤ c)
  | x :: xs, m, 0, y, hy => by
      simp only [cummaxFrom, List.getElem?_cons_zero, Option.some.injEq] at hy
      subst hy
      rw [Int.max_le]
      constructor
      · rintro ⟨hm, hx⟩
        refine ⟨hm, fun j hj z hz => ?_⟩
        obtain rfl : j = 0 := by omega
        rw [List.getElem?_cons_zero, Option.some.injEq] at hz
        exact hz ▸ hx
      · rintro ⟨hm, hall⟩
        exact ⟨hm, hall 0 (Nat.le_refl 0) x rfl⟩
  | x :: xs, m, i + 1, y, hy => by
      simp only [cummaxFrom, List.getElem?_cons_succ] at hy
      rw [cummaxFrom_le hy, Int.max_le]
      constructor
      · rintro ⟨⟨hm, hx⟩, hall⟩
        refine ⟨hm, fun j hj z hz => ?_⟩
        cases j with
        | zero =>
            rw [List.getElem?_cons_zero, Option.some.injEq] at hz
            exact hz ▸ hx
        | succ j => exact hall j (by omega) z hz
      · rintro ⟨hm, hall⟩
        exact ⟨⟨hm, hall 0 (Nat.zero_le _) x rfl⟩,
          fun j hj z hz => hall (j + 1) (by omega) z hz⟩

theorem length_cummaxFrom : ∀ (xs : List Int) (m : Int), (cummaxFrom m xs).length = xs.length
  | [], _ => rfl
  | x :: xs, m => congrArg (· + 1) (length_cummaxFrom xs (max m x))

theorem length_cummax (xs : List Int) : (cummax xs).length = xs.length := by
  cases xs with
  | nil => rfl
  | cons x xs => exact congrArg (· + 1) (length_cummaxFrom xs x)

/-- The running maximum is that of the elements up to there. -/
theorem cummax_le {xs : List Int} {i : Nat} {y c : Int} (hy : (cummax xs)[i]? = some y) :
    y ≤ c ↔ ∀ j ≤ i, ∀ x, xs[j]? = some x → x ≤ c := by
  cases xs with
  | nil => cases hy
  | cons x xs =>
      cases i with
      | zero =>
          obtain rfl : x = y := Option.some.inj hy
          constructor
          · intro hx j hj z hz
            obtain rfl : j = 0 := by omega
            exact (Option.some.inj hz) ▸ hx
          · intro hall
            exact hall 0 (Nat.le_refl 0) x rfl
      | succ i =>
          have hiff : y ≤ c ↔ x ≤ c ∧ ∀ j ≤ i, ∀ z, xs[j]? = some z → z ≤ c := cummaxFrom_le hy
          rw [hiff]
          constructor
          · rintro ⟨hx, hall⟩ j hj z hz
            cases j with
            | zero => exact (Option.some.inj hz) ▸ hx
            | succ j => exact hall j (by omega) z hz
          · intro hall
            exact ⟨hall 0 (Nat.zero_le _) x rfl, fun j hj z hz => hall (j + 1) (by omega) z hz⟩

theorem eosPos_getElem? (ids : List Token) (j : Nat) : (h.eosPos ids)[j]? =
    (ids[j]?).map fun tok => if tok = h.boundaryTokenId then (j : Int) else -1 := by
  rw [eosPos, List.getElem?_map, List.getElem?_zipIdx, Nat.zero_add]
  cases ids[j]? <;> rfl

/-- A tap lies in the segment exactly when no boundary token comes between. -/
theorem le_inSegment_iff {ids : List Token} {t : Nat} (ht : t < ids.length) (shift : Nat) :
    (shift : Int) ≤ h.inSegment ids t ↔
      shift ≤ t ∧ ∀ j, t - shift ≤ j → j < t → ids[j]? ≠ some h.boundaryTokenId := by
  rw [inSegment, prevEos]
  cases t with
  | zero =>
      rw [List.getElem?_cons_zero, Option.getD_some]
      constructor
      · intro hle
        exact ⟨by omega, fun j _ hj => absurd hj (Nat.not_lt_zero j)⟩
      · rintro ⟨hle, -⟩
        omega
  | succ t =>
      have hlen : (cummax (h.eosPos ids)).length = ids.length := by
        rw [length_cummax, eosPos, List.length_map, List.length_zipIdx]
      have hlt : t < (cummax (h.eosPos ids)).length := by omega
      have hget : (cummax (h.eosPos ids)).dropLast[t]? =
          some (cummax (h.eosPos ids))[t] := by
        rw [List.getElem?_dropLast, if_pos (by omega), List.getElem?_eq_getElem hlt]
      rw [List.getElem?_cons_succ, hget, Option.getD_some]
      have hiff := cummax_le (c := (t : Int) - shift) (List.getElem?_eq_getElem hlt)
      have hshape : ((shift : Int) ≤ ((t + 1 : Nat) : Int) - (cummax (h.eosPos ids))[t] - 1) ↔
          (cummax (h.eosPos ids))[t] ≤ (t : Int) - shift := by omega
      rw [hshape, hiff]
      constructor
      · intro hall
        have hone : ∀ j ≤ t, ∃ x, (h.eosPos ids)[j]? = some x ∧ -1 ≤ x := fun j hj => by
          rw [h.eosPos_getElem?, List.getElem?_eq_getElem (by omega)]
          refine ⟨_, rfl, ?_⟩
          dsimp only
          split <;> omega
        obtain ⟨x, hx, hge⟩ := hone t (Nat.le_refl t)
        have hle := hall t (Nat.le_refl t) x hx
        refine ⟨by omega, fun j hj hjt hboundary => ?_⟩
        have hpos := hall j (by omega) j (by rw [h.eosPos_getElem?, hboundary]; simp)
        omega
      · rintro ⟨hle, hnone⟩ j hj x hx
        rw [h.eosPos_getElem?, Option.map_eq_some_iff] at hx
        obtain ⟨tok, htok, rfl⟩ := hx
        split
        · rename_i hboundary
          by_contra hlt
          exact hnone j (by omega) (by omega) (htok.trans (congrArg some hboundary))
        · omega

/-! ### Rows as a function of the last tokens -/

theorem getElem?_window {ids : List Token} {i n j : Nat} (hj : j < n) :
    ((ids.drop i).take n)[j]? = ids[i + j]? := by
  rw [List.getElem?_take_of_lt hj, List.getElem?_drop]

theorem shifted_window {ids : List Token} {i shift : Nat} (hi : i + (h.ngramSize - 1) < ids.length)
    (hshift : shift < h.ngramSize) :
    h.shifted ((ids.drop i).take h.ngramSize) (h.ngramSize - 1) shift =
      h.shifted ids (i + (h.ngramSize - 1)) shift := by
  have hn := h.ngramSize_ge
  have hwin : h.ngramSize - 1 < ((ids.drop i).take h.ngramSize).length := by
    rw [List.length_take, List.length_drop]
    omega
  -- the window shows the tokens between the tap and the position
  have hseg : (shift : Int) ≤ h.inSegment ((ids.drop i).take h.ngramSize) (h.ngramSize - 1) ↔
      (shift : Int) ≤ h.inSegment ids (i + (h.ngramSize - 1)) := by
    rw [h.le_inSegment_iff hwin, h.le_inSegment_iff hi]
    constructor
    · rintro ⟨-, hnone⟩
      refine ⟨by omega, fun j hj hlt => ?_⟩
      have hj' := hnone (j - i) (by omega) (by omega)
      rwa [getElem?_window (by omega), Nat.add_sub_cancel' (by omega)] at hj'
    · rintro ⟨-, hnone⟩
      refine ⟨by omega, fun j hj hlt => ?_⟩
      rw [getElem?_window (by omega)]
      exact hnone (i + j) (by omega) (by omega)
  simp only [shifted, hseg]
  have hle1 : (0 : Int) ≤ ((h.ngramSize - 1 : Nat) : Int) - shift := by omega
  have hle2 : (0 : Int) ≤ ((i + (h.ngramSize - 1) : Nat) : Int) - shift := by omega
  rw [getElem?_window (by omega), getElem?_window (by omega),
    Nat.add_sub_assoc (show shift ≤ h.ngramSize - 1 by omega)]
  simp only [hle1, hle2]

theorem taps_window {ids : List Token} {i : Nat} (hi : i + (h.ngramSize - 1) < ids.length) :
    h.taps ((ids.drop i).take h.ngramSize) (h.ngramSize - 1) =
      h.taps ids (i + (h.ngramSize - 1)) :=
  List.map_congr_left fun _ hshift => h.shifted_window hi (List.mem_range.mp hshift)

/-- From position `ngram_size - 1` on, the rows read the window that ends there. -/
theorem ngramRowIds_drop (ids : List Token) : (h.ngramRowIds ids).drop (h.ngramSize - 1) =
    (SlidingWindow.windows (h.ngramSize - 1) ids).map fun window =>
      h.rowsOf (h.taps window (h.ngramSize - 1)) := by
  have hn := h.ngramSize_ge
  apply List.ext_getElem
  · simp [ngramRowIds, SlidingWindow.length_windows]
  · intro i h1 h2
    rw [List.length_drop, ngramRowIds, List.length_map, List.length_range] at h1
    have hi : i + (h.ngramSize - 1) < ids.length := by omega
    simp only [ngramRowIds, SlidingWindow.windows, List.getElem_drop, List.getElem_map,
      List.getElem_range, Nat.sub_add_cancel (show 1 ≤ h.ngramSize by omega)]
    rw [h.taps_window hi, Nat.add_comm i]

/-- The rows of a call's tokens, after the context that is kept for it. -/
def rowIdsAfter (ctx tokenIds : List Token) : List (List Int) :=
  (h.ngramRowIds (ctx ++ tokenIds)).drop (h.ngramSize - 1)

/-- What a later call finds after the last tokens of the calls before it are the rows of
one call over all the tokens. -/
theorem rowIdsAfter_tail (past tokenIds : List Token) :
    h.rowIdsAfter (SlidingWindow.tail h.boundaryTokenId (h.ngramSize - 1) past) tokenIds =
      (h.rowIdsAfter (List.replicate (h.ngramSize - 1) h.boundaryTokenId)
        (past ++ tokenIds)).drop past.length := by
  rw [rowIdsAfter, rowIdsAfter, h.ngramRowIds_drop, h.ngramRowIds_drop,
    SlidingWindow.windows_tail, List.map_drop]

end NgramHash

end FreeToken
