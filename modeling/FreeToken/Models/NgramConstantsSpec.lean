import Mathlib.Data.List.Forall2
import FreeToken.Models.NgramConstants

/-!
# The n-gram hash stays in range

With the derived constants no product and no xor of `ple_ngram_row_ids` leaves the
non-negative `int64` range, and every row lies in the range of its own hash head.
-/

namespace FreeToken

namespace NgramHash

/-! ### Products and xors -/

theorem multiplier_lt (vocabSize pleLayerIndex : Nat) (seed : Int) (i : Nat) :
    multiplier vocabSize pleLayerIndex seed i < 2 * halfBound vocabSize := by
  have hpos : 0 < halfBound vocabSize := Nat.lt_of_lt_of_le Nat.one_pos (Nat.le_max_left _ _)
  have hmod := Nat.mod_lt
    (splitmix64 (mask64 (seed + 10007 * pleLayerIndex + gamma * (i + 1)))) hpos
  simp only [multiplier]
  omega

/-- A token of the vocabulary times a multiplier is a non-negative `int64`. -/
theorem mul_multiplier_lt {vocabSize tok mult : Nat} (hvocab : vocabSize < 2 ^ 62)
    (htok : tok < vocabSize) (hmult : mult < 2 * halfBound vocabSize) : tok * mult < 2 ^ 63 := by
  have hone : max vocabSize 1 = vocabSize := Nat.max_eq_left (by omega)
  rw [halfBound, hone] at hmult
  rcases Nat.le_total ((2 ^ 63 - 1) / vocabSize / 2) 1 with hle | hge
  · rw [Nat.max_eq_left hle] at hmult
    have hbit : mult ≤ 1 := by omega
    calc tok * mult ≤ tok * 1 := Nat.mul_le_mul_left tok hbit
      _ < 2 ^ 63 := by omega
  · rw [Nat.max_eq_right hge] at hmult
    have hhalf : mult ≤ (2 ^ 63 - 1) / vocabSize := by omega
    calc tok * mult ≤ vocabSize * ((2 ^ 63 - 1) / vocabSize) :=
          Nat.mul_le_mul (Nat.le_of_lt htok) hhalf
      _ ≤ 2 ^ 63 - 1 := Nat.mul_div_le _ _
      _ < 2 ^ 63 := by decide

/-- The xor of small products is small. -/
theorem foldl_xor_lt {l : List (Token × Nat)} (hl : ∀ p ∈ l, p.1 * p.2 < 2 ^ 63)
    {acc : BitVec 64} (hacc : acc.toNat < 2 ^ 63) :
    (l.foldl (fun acc (tok, mult) => acc ^^^ (BitVec.ofNat 64 tok * BitVec.ofNat 64 mult))
      acc).toNat < 2 ^ 63 := by
  induction l generalizing acc with
  | nil => exact hacc
  | cons p l ih =>
    refine ih (fun q hq => hl q (List.mem_cons_of_mem p hq)) ?_
    have hp := hl p List.mem_cons_self
    have hprod : (BitVec.ofNat 64 p.1 * BitVec.ofNat 64 p.2).toNat = p.1 * p.2 := by
      rw [← BitVec.ofNat_mul, BitVec.toNat_ofNat]
      exact Nat.mod_eq_of_lt (Nat.lt_trans hp (by decide))
    rw [BitVec.toNat_xor, hprod]
    exact Nat.xor_lt_two_pow hacc hp

theorem mixed_lt (h : NgramHash) {taps : List Token}
    (htaps : ∀ p ∈ taps.zip h.multipliers, p.1 * p.2 < 2 ^ 63) (ngram : Nat) :
    (h.mixed taps ngram).toNat < 2 ^ 63 :=
  foldl_xor_lt (fun p hp => htaps p (List.mem_of_mem_take hp)) (by decide)

theorem shifted_lt (h : NgramHash) {vocabSize : Nat} {ids : List Token}
    (hids : ∀ tok ∈ ids, tok < vocabSize) (hboundary : h.boundaryTokenId < vocabSize)
    (t shift : Nat) : h.shifted ids t shift < vocabSize := by
  have hget : ∀ i : Nat, (ids[i]?).getD 0 < vocabSize := fun i => by
    rcases hi : ids[i]? with _ | tok
    · exact Nat.zero_lt_of_lt hboundary
    · exact hids tok (List.mem_of_getElem? hi)
  simp only [shifted]
  split_ifs
  · exact hget t
  · exact hget (t - shift)
  · exact hboundary

/-! ### Rows -/

/-- Equal stretches that are each mapped by a function of their own. -/
theorem forall₂_stretches {α β : Type} {R : α → β → Prop} {f : Nat → β → α} {l : List β}
    (hf : ∀ ngram, ∀ b ∈ l, R (f ngram b) b) (k : Nat) : ∀ m,
    List.Forall₂ R ((List.range' 2 m).flatMap fun ngram =>
      ((l.drop ((ngram - 2) * k)).take k).map (f ngram)) (l.take (m * k))
  | 0 => by simp
  | m + 1 => by
      have hpart : List.Forall₂ R (((l.drop (m * k)).take k).map (f (2 + m)))
          ((l.drop (m * k)).take k) := by
        rw [List.forall₂_map_left_iff]
        refine List.forall₂_same.mpr fun b hb => ?_
        exact hf (2 + m) b (List.mem_of_mem_drop (List.mem_of_mem_take hb))
      have h := List.rel_append (forall₂_stretches hf k m) hpart
      simpa [List.range'_concat, List.take_add, Nat.add_mul] using h

/-- `offset + remainder(mixed, size)` lies in the head's range. -/
theorem row_bounds {size : Nat} (hsize : 0 < size) (offset : Nat) (mixed : Int) :
    (offset : Int) ≤ mixed.fmod size + offset ∧ mixed.fmod size + offset < offset + size := by
  have hpos : (0 : Int) < size := Int.natCast_pos.mpr hsize
  have hnonneg := Int.fmod_nonneg_of_pos mixed hpos
  have hlt := Int.fmod_lt_of_pos mixed hpos
  omega

theorem rowsOf_bounds (h : NgramHash) (hpos : ∀ size ∈ h.headVocabSizes, 0 < size)
    (hlen : (h.headVocabSizes.zip h.headOffsets).length = (h.ngramSize - 1) * h.headsPerNgram)
    (taps : List Token) :
    List.Forall₂ (fun row (p : Nat × Nat) => (p.2 : Int) ≤ row ∧ row < p.2 + p.1)
      (h.rowsOf taps) (h.headVocabSizes.zip h.headOffsets) := by
  have hrows := forall₂_stretches (l := h.headVocabSizes.zip h.headOffsets)
    (R := fun row (p : Nat × Nat) => (p.2 : Int) ≤ row ∧ row < p.2 + p.1)
    (f := fun ngram p => (h.mixed taps ngram).toInt.fmod p.1 + p.2)
    (fun ngram p hp => row_bounds (hpos p.1 (List.of_mem_zip hp).1) p.2 _)
    h.headsPerNgram (h.ngramSize - 1)
  rwa [← hlen, List.take_length] at hrows

/-! ### The derived hash -/

section

variable {boundary vocabSize ngramSize headsPerNgram base layer : Nat} {seed : Int}
  {hngram : 2 ≤ ngramSize}

theorem derived_sizes :
    (derived boundary vocabSize ngramSize headsPerNgram base layer seed hngram).headVocabSizes =
      (List.range ((ngramSize - 1) * headsPerNgram)).map
        (headSize ((ngramSize - 1) * headsPerNgram) base layer) := by
  simp [derived, deriveNgramHashConstants_eq]

theorem derived_offsets :
    (derived boundary vocabSize ngramSize headsPerNgram base layer seed hngram).headOffsets =
      EndToEnd.starts 0
        (derived boundary vocabSize ngramSize headsPerNgram base layer seed hngram).headVocabSizes
    := by
  simp [derived, deriveNgramHashConstants_eq]

theorem derived_multipliers :
    (derived boundary vocabSize ngramSize headsPerNgram base layer seed hngram).multipliers =
      (List.range ngramSize).map (multiplier vocabSize layer seed) := by
  simp [derived, deriveNgramHashConstants_eq]

theorem derived_size_prime {size : Nat} (hsize : size ∈
    (derived boundary vocabSize ngramSize headsPerNgram base layer seed hngram).headVocabSizes) :
    size.Prime := by
  rw [derived_sizes] at hsize
  rcases List.mem_map.mp hsize with ⟨head, -, rfl⟩
  exact headSize_prime _ _ _ _

/-- The table ends where the last head's range does. -/
theorem derived_tableRows (hheads : 1 ≤ headsPerNgram) :
    (derived boundary vocabSize ngramSize headsPerNgram base layer seed hngram).tableRows =
      (derived boundary vocabSize ngramSize headsPerNgram base layer seed hngram).headVocabSizes.sum
    := by
  rcases Nat.exists_eq_add_one.mpr (Nat.mul_pos (show 0 < ngramSize - 1 by omega) hheads)
    with ⟨last, hlast⟩
  rw [tableRows, derived_offsets, derived_sizes, hlast, List.range_succ]
  simp [EndToEnd.starts_append]

theorem derived_product_lt (hvocab : vocabSize < 2 ^ 62) {ids : List Token}
    (hids : ∀ tok ∈ ids, tok < vocabSize) (hboundary : boundary < vocabSize) (t : Nat) :
    let h := derived boundary vocabSize ngramSize headsPerNgram base layer seed hngram
    ∀ p ∈ (h.taps ids t).zip h.multipliers, p.1 * p.2 < 2 ^ 63 := by
  intro h p hp
  rcases List.of_mem_zip hp with ⟨htap, hmult⟩
  rcases List.mem_map.mp htap with ⟨shift, -, htok⟩
  rw [derived_multipliers] at hmult
  rcases List.mem_map.mp hmult with ⟨i, -, hi⟩
  exact mul_multiplier_lt hvocab (htok ▸ h.shifted_lt hids hboundary t shift)
    (hi ▸ multiplier_lt _ _ _ _)

end

/-- Every row of `ple_ngram_row_ids` lies in the range of its own hash head, no number on the
way leaves the non-negative `int64` range, the ranges split the table, and the sizes of all
heads of all layers are different primes. -/
theorem hash_in_range {boundary vocabSize ngramSize headsPerNgram base layer : Nat} (seed : Int)
    (hngram : 2 ≤ ngramSize) (hheads : 1 ≤ headsPerNgram) (hvocab : vocabSize < 2 ^ 62)
    {ids : List Token} (hids : ∀ tok ∈ ids, tok < vocabSize) (hboundary : boundary < vocabSize) :
    let hash := fun layer =>
      derived boundary vocabSize ngramSize headsPerNgram base layer seed hngram
    let h := hash layer
    (∀ t < ids.length, (∀ p ∈ (h.taps ids t).zip h.multipliers, p.1 * p.2 < 2 ^ 63) ∧
      ∀ ngram, (h.mixed (h.taps ids t) ngram).toNat < 2 ^ 63) ∧
    (∀ rows ∈ h.ngramRowIds ids,
      List.Forall₂ (fun row (p : Nat × Nat) => (p.2 : Int) ≤ row ∧ row < p.2 + p.1)
        rows (h.headVocabSizes.zip h.headOffsets)) ∧
    (∀ row < h.tableRows, ∃! head, EndToEnd.Has h.headVocabSizes h.headOffsets row head) ∧
    (∀ row head, EndToEnd.Has h.headVocabSizes h.headOffsets row head → row < h.tableRows) ∧
    (∀ l, ∀ size ∈ (hash l).headVocabSizes, size.Prime) ∧
    ∀ (l l' head head' size : Nat), (hash l).headVocabSizes[head]? = some size →
      (hash l').headVocabSizes[head']? = some size → l = l' ∧ head = head' := by
  intro hash h
  have hproduct : ∀ t, ∀ p ∈ (h.taps ids t).zip h.multipliers, p.1 * p.2 < 2 ^ 63 :=
    derived_product_lt hvocab hids hboundary
  have hoffsets : h.headOffsets = EndToEnd.starts 0 h.headVocabSizes := derived_offsets
  have htotal : h.tableRows = h.headVocabSizes.sum := derived_tableRows hheads
  rw [htotal, hoffsets]
  refine ⟨fun t _ => ⟨hproduct t, h.mixed_lt (hproduct t)⟩, fun rows hrows => ?_,
    fun row hrow => ?_, ?_, fun l size hsize => derived_size_prime hsize, ?_⟩
  · rcases List.mem_map.mp hrows with ⟨t, -, rfl⟩
    rw [← hoffsets]
    refine h.rowsOf_bounds (fun size hsize => (derived_size_prime hsize).pos) ?_ _
    have hlen : h.headVocabSizes.length = (h.ngramSize - 1) * h.headsPerNgram :=
      (congrArg List.length derived_sizes).trans (by simp [h, hash, derived])
    simpa [hoffsets] using hlen
  · exact EndToEnd.existsUnique_has (Nat.zero_le row) (by simpa using hrow)
  · rintro row head ⟨size, offset, hsize, hoffset, -, hlt⟩
    have hend := (EndToEnd.start_bounds hsize hoffset).2
    omega
  · intro l l' head head' size hsize hsize'
    simp only [hash, derived_sizes, List.getElem?_map, Option.map_eq_some_iff,
      List.getElem?_eq_some_iff, List.length_range, List.getElem_range] at hsize hsize'
    rcases hsize with ⟨_, ⟨hhead, rfl⟩, rfl⟩
    rcases hsize' with ⟨_, ⟨hhead', rfl⟩, heq⟩
    exact headSize_inj hhead hhead' heq.symm

/-- Bigrams over four tokens, with two heads of table sizes of at least five. -/
theorem fourTokens_in_range :
    let h := derived 0 4 2 2 5 0 1234 (Nat.le_refl 2)
    (∀ t < 3, (∀ p ∈ (h.taps [3, 0, 2] t).zip h.multipliers, p.1 * p.2 < 2 ^ 63)) ∧
      ∀ row < h.tableRows, ∃! head, EndToEnd.Has h.headVocabSizes h.headOffsets row head :=
  have hrange := @hash_in_range 0 4 2 2 5 0 1234 (Nat.le_refl 2) (by decide) (by decide) [3, 0, 2]
    (by decide) (by decide)
  ⟨fun t ht => (hrange.1 t ht).1, hrange.2.2.1⟩

end NgramHash

end FreeToken
