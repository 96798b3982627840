import FreeToken.Models.QsaAttention
import Mathlib.Algebra.Field.Rat
import Mathlib.Algebra.Order.Field.Rat
import Mathlib.Tactic.Linarith

/-!
# What a query attends to

A query sees the blocks that end at its position or before. It attends to the tokens of the best of
them and to its own group up to itself; what comes after it, in the cache or in the forward, does
not matter.
-/

namespace FreeToken

open TopK

variable {Q K : Type}

/-! ### Selecting blocks -/

section Select

variable [LinearOrder K] {T : TopK (WithBot K)} {scores : Nat → K} {blockLast : List Nat}
  {position budget : Nat}

/-- The blocks that a query sees. -/
def seen (blockLast : List Nat) (position : Nat) : Finset Nat :=
  kept blockLast.length fun b => blockLast.getD b 0 ≤ position

/-- The selected blocks are the best of those that the query sees. -/
theorem mem_qsaTopkBlocks (hinj : Set.InjOn scores (seen blockLast position)) (b : Nat) :
    (b : Int) ∈ qsaTopkBlocks T scores blockLast position budget ↔
      b ∈ best (seen blockLast position) scores budget := by
  have hpad : ∀ n, (b : Int) ∉ List.replicate n (-1 : Int) := by
    intro n hmem
    have heq := List.eq_of_mem_replicate hmem
    omega
  rw [qsaTopkBlocks]
  dsimp only
  split
  · next hnone =>
      refine iff_of_false (hpad _) fun hbest => ?_
      obtain ⟨hseen, hcard⟩ := mem_best.mp hbest
      rcases hnone with hblocks | hbudget
      · exact absurd (mem_kept.mp hseen).1 (by omega)
      · omega
  · have hmin : best (seen blockLast position) scores (min budget blockLast.length) =
        best (seen blockLast position) scores budget := best_min card_kept_le
    rw [List.mem_append, or_iff_left (hpad _), List.mem_map, ← hmin]
    constructor
    · rintro ⟨b', hpick, heq⟩
      split at heq
      · omega
      · next hbot =>
          cases Int.ofNat.inj heq
          have hkeep : decide (blockLast.getD b 0 ≤ position) = true := by
            rwa [masked_eq_bot, Bool.not_eq_false] at hbot
          have hlt := T.lt_of_mem (Nat.min_le_right _ _) b hpick
          exact (T.mem_pick_masked (Nat.min_le_right _ _) hinj hlt hkeep).mp hpick
    · intro hbest
      obtain ⟨hlt, hkeep⟩ := mem_kept.mp (best_subset _ _ _ hbest)
      refine ⟨b, (T.mem_pick_masked (Nat.min_le_right _ _) hinj hlt hkeep).mpr hbest, if_neg ?_⟩
      rw [masked_eq_bot, hkeep]
      exact Bool.noConfusion

end Select

/-! ### The mask -/

/-- A token is set when its block is selected. -/
theorem qsaExpandBlockMask_eq {topkIdx : List Int} {ratio seqLen j : Nat} (hratio : 0 < ratio)
    (hj : j < seqLen) :
    qsaExpandBlockMask topkIdx ratio seqLen j = true ↔ ((j / ratio : Nat) : Int) ∈ topkIdx := by
  rw [qsaExpandBlockMask]
  split
  · next hnone =>
      have hnil : topkIdx = [] := List.length_eq_zero_iff.mp (hnone.resolve_left (by omega))
      simp [hnil]
  · simp only [List.any_eq_true, List.mem_range, Bool.and_eq_true, decide_eq_true_eq]
    constructor
    · rintro ⟨idx, hidx, offset, hoffset, hpos, hle, hlt⟩
      obtain ⟨b, rfl⟩ := Int.eq_ofNat_of_zero_le hle
      rw [Int.max_eq_left hle, Int.toNat_natCast] at hpos hlt
      have heq : j = b * ratio + offset := by omega
      rwa [heq, Nat.mul_comm, Nat.mul_add_div hratio, Nat.div_eq_of_lt hoffset, Nat.add_zero]
    · intro hidx
      have hsplit := Nat.div_add_mod' j ratio
      refine ⟨_, hidx, j % ratio, Nat.mod_lt _ hratio, ?_, Int.natCast_nonneg _, ?_⟩
      · rw [Int.max_eq_left (Int.natCast_nonneg _), Int.toNat_natCast, hsplit]
        omega
      · rw [Int.max_eq_left (Int.natCast_nonneg _), Int.toNat_natCast, hsplit]
        exact hj

theorem qsaAttendMask_eq {topkIdx : List Int} {ratio position seqLen j : Nat} (hratio : 0 < ratio)
    (hj : j < seqLen) :
    qsaAttendMask topkIdx ratio position seqLen j = true ↔
      j ≤ position ∧ (((j / ratio : Nat) : Int) ∈ topkIdx ∨ position / ratio * ratio ≤ j) := by
  simp only [qsaAttendMask, Bool.and_eq_true, Bool.or_eq_true, decide_eq_true_eq,
    qsaExpandBlockMask_eq hratio hj]
  constructor
  · rintro ⟨hblock | ⟨hgroup, -⟩, hle⟩
    · exact ⟨hle, .inl hblock⟩
    · exact ⟨hle, .inr hgroup⟩
  · rintro ⟨hle, hblock | hgroup⟩
    · exact ⟨.inl hblock, hle⟩
    · exact ⟨.inr ⟨hgroup, hle⟩, hle⟩

/-! ### A layer -/

namespace QsaLayer

variable [Field K] [LinearOrder K] (l : QsaLayer Q K) {keys : Nat → Nat → K}
  {rows : List (Q × Nat)} {row : Q × Nat}

/-- The score of a block. -/
def blockScore (keys : Nat → Nat → K) (row : Q × Nat) (b : Nat) : K :=
  l.score row.1 (fun d => (∑ i ∈ Finset.range l.indexRatio, keys (b * l.indexRatio + i) d) /
    (l.indexRatio : K)) row.2 (b * l.indexRatio)

/-- The blocks that end at a position or before it. -/
def visible (position : Nat) : Finset Nat := Finset.range ((position + 1) / l.indexRatio)

omit [Field K] in
theorem mem_visible {position b : Nat} :
    b ∈ l.visible position ↔ b * l.indexRatio + l.indexRatio - 1 ≤ position := by
  have hratio := l.indexRatio_pos
  rw [visible, Finset.mem_range, Nat.lt_iff_add_one_le, Nat.le_div_iff_mul_le hratio, Nat.succ_mul]
  omega

omit [LinearOrder K] in
theorem qsaCompressKeys_getD {rawKeys : List (Nat → K)} {ratio b : Nat}
    (hb : b < rawKeys.length / ratio) :
    (qsaCompressKeys rawKeys ratio).getD b (0, 0) = (pooledKey rawKeys ratio b, b * ratio) := by
  simp [qsaCompressKeys, hb]

/-- The blocks that a row of a forward sees are those that end at its position or before it. -/
theorem seen_eq_visible {rawKeys : List (Nat → K)} {position : Nat} (h : position < rawKeys.length) :
    seen ((qsaCompressKeys rawKeys l.indexRatio).map fun block => block.2 + l.indexRatio - 1) position =
      l.visible position := by
  have hratio := l.indexRatio_pos
  ext b
  rw [seen, mem_kept, List.length_map, qsaCompressKeys, List.length_map, List.length_range]
  constructor
  · rintro ⟨hlt, hle⟩
    rw [mem_visible]
    simpa [hlt] using hle
  · intro hb
    have hlt : b < rawKeys.length / l.indexRatio :=
      Nat.lt_of_lt_of_le (Finset.mem_range.mp hb) (Nat.div_le_div_right h)
    refine ⟨hlt, ?_⟩
    simpa [hlt] using l.mem_visible.mp hb

theorem pooledKey_eq {written b : Nat} (hb : b * l.indexRatio + l.indexRatio ≤ written) :
    pooledKey ((List.range written).map keys) l.indexRatio b = fun d =>
      (∑ i ∈ Finset.range l.indexRatio, keys (b * l.indexRatio + i) d) / (l.indexRatio : K) := by
  funext d
  rw [pooledKey]
  congr 1
  refine Finset.sum_congr rfl fun i hi => ?_
  have hlt : b * l.indexRatio + i < written := by
    have := Finset.mem_range.mp hi
    omega
  simp [hlt]

/-- What a row attends to: the tokens of the best visible blocks, and its own group. -/
theorem mem_attends (hrow : row.2 < written rows)
    (hinj : Set.InjOn (l.blockScore keys row) (l.visible row.2)) {j : Nat} :
    j ∈ l.attends keys rows row ↔ j ≤ row.2 ∧
      (j / l.indexRatio ∈ best (l.visible row.2) (l.blockScore keys row) l.indexBudgetBlocks ∨
        row.2 / l.indexRatio * l.indexRatio ≤ j) := by
  let rawKeys := (List.range (written rows)).map keys
  let blocks := qsaCompressKeys rawKeys l.indexRatio
  let blockLast := blocks.map fun block => block.2 + l.indexRatio - 1
  let scores := fun b => l.score row.1 (blocks.getD b (0, 0)).1 row.2 (blocks.getD b (0, 0)).2
  have hlen : rawKeys.length = written rows := by simp [rawKeys]
  have hseen : seen blockLast row.2 = l.visible row.2 := l.seen_eq_visible (hlen.symm ▸ hrow)
  have hscores : ∀ b ∈ l.visible row.2, scores b = l.blockScore keys row b := by
    intro b hb
    have hratio := l.indexRatio_pos
    have hlast := l.mem_visible.mp hb
    have hlt : b < rawKeys.length / l.indexRatio := by
      rw [hlen]
      exact Nat.lt_of_lt_of_le (Finset.mem_range.mp hb) (Nat.div_le_div_right hrow)
    simp only [scores, blocks, qsaCompressKeys_getD hlt, blockScore]
    rw [l.pooledKey_eq (by omega)]
  have htopk : (if 0 < blocks.length then
      qsaTopkBlocks l.topk scores blockLast row.2 l.indexBudgetBlocks
      else List.replicate l.indexBudgetBlocks (-1)) =
        qsaTopkBlocks l.topk scores blockLast row.2 l.indexBudgetBlocks := by
    split
    · rfl
    · next hnone =>
        have hzero : blockLast.length = 0 := by
          rw [List.length_map]
          exact Nat.eq_zero_of_not_pos hnone
        exact (if_pos (.inl hzero)).symm
  have hbest : best (seen blockLast row.2) scores l.indexBudgetBlocks =
      best (l.visible row.2) (l.blockScore keys row) l.indexBudgetBlocks := by
    rw [hseen]
    exact best_congr hscores
  have hinj' : Set.InjOn scores (seen blockLast row.2) := by
    rw [hseen]
    exact hinj.congr fun b hb => (hscores b hb).symm
  have hmask : ∀ j < written rows, l.rowMask rawKeys row.1 row.2 j = true ↔ j ≤ row.2 ∧
      (j / l.indexRatio ∈ best (l.visible row.2) (l.blockScore keys row) l.indexBudgetBlocks ∨
        row.2 / l.indexRatio * l.indexRatio ≤ j) := by
    intro j hj
    rw [← hbest, ← mem_qsaTopkBlocks (T := l.topk) hinj',
      ← qsaAttendMask_eq l.indexRatio_pos (hlen.symm ▸ hj), ← htopk]
    rfl
  rw [attends, Finset.mem_filter, Finset.mem_range]
  constructor
  · rintro ⟨hj, hin⟩
    exact (hmask j hj).mp hin
  · intro hin
    have hj : j < written rows := Nat.lt_of_le_of_lt hin.1 hrow
    exact ⟨hj, (hmask j hj).mpr hin⟩

/-- A query attends to the causal tokens of its best blocks and of its own group: to itself, and to
everything before it while the budget covers the blocks that it sees. -/
structure AttendsRight (keys : Nat → Nat → K) (row : Q × Nat) (attended : Finset Nat) : Prop where
  exact_set : ∀ j, j ∈ attended ↔ j ≤ row.2 ∧
    (j / l.indexRatio ∈ best (l.visible row.2) (l.blockScore keys row) l.indexBudgetBlocks ∨
      row.2 / l.indexRatio * l.indexRatio ≤ j)
  own : row.2 ∈ attended
  dense : row.2 + 1 ≤ l.indexBudgetBlocks * l.indexRatio + l.indexRatio - 1 →
    ∀ j, j ∈ attended ↔ j ≤ row.2

omit [Field K] in
/-- A token whose block is not visible is in the group of the position, or after it. -/
theorem group_of_not_visible {position j : Nat}
    (hnot : j / l.indexRatio ∉ l.visible position) : position / l.indexRatio * l.indexRatio ≤ j := by
  have hratio := l.indexRatio_pos
  rw [mem_visible] at hnot
  have hsplit := Nat.div_add_mod' j l.indexRatio
  have hsplit' := Nat.div_add_mod' position l.indexRatio
  have hmod := Nat.mod_lt j hratio
  have hle : position / l.indexRatio ≤ j / l.indexRatio := by
    rw [Nat.div_le_iff_le_mul_add_pred hratio, Nat.mul_comm]
    omega
  have hmul := Nat.mul_le_mul_right l.indexRatio hle
  omega

/-- A query attends to the right set; what the store holds after its position, and the rows of the
forward, do not matter. -/
theorem attends_right (l : QsaLayer Q K) (keys : Nat → Nat → K) (rows : List (Q × Nat)) (row : Q × Nat)
    (hrow : row.2 < written rows) (hinj : Set.InjOn (l.blockScore keys row) (l.visible row.2)) :
    l.AttendsRight keys row (l.attends keys rows row) ∧
    ∀ keys' rows', (∀ i ≤ row.2, keys' i = keys i) → row.2 < written rows' →
      l.attends keys' rows' row = l.attends keys rows row := by
  refine ⟨⟨fun j => l.mem_attends hrow hinj, ?_, ?_⟩, ?_⟩
  · exact (l.mem_attends hrow hinj).mpr ⟨Nat.le_refl _, .inr (Nat.div_mul_le_self _ _)⟩
  · intro hbudget j
    rw [l.mem_attends hrow hinj, and_iff_left_iff_imp]
    intro _
    have hcard : (l.visible row.2).card ≤ l.indexBudgetBlocks := by
      rw [visible, Finset.card_range]
      refine Nat.le_of_lt_succ ((Nat.div_lt_iff_lt_mul l.indexRatio_pos).mpr ?_)
      rw [Nat.succ_mul]
      have := l.indexRatio_pos
      omega
    rw [best_eq_self hcard, or_iff_not_imp_left]
    exact l.group_of_not_visible
  · intro keys' rows' hkeys hrow'
    have hscores : ∀ b ∈ l.visible row.2, l.blockScore keys row b = l.blockScore keys' row b := by
      intro b hb
      have hlast := l.mem_visible.mp hb
      rw [blockScore, blockScore]
      congr 1
      funext d
      congr 1
      refine Finset.sum_congr rfl fun i hi => ?_
      have := Finset.mem_range.mp hi
      rw [hkeys _ (by omega)]
    ext j
    rw [l.mem_attends hrow hinj, l.mem_attends hrow' (hinj.congr hscores), best_congr hscores]

/-- One block of two tokens, and the latest pooled key is the best. -/
def latestBlock : QsaLayer Unit ℚ where
  indexRatio := 2
  indexBudgetBlocks := 1
  score := fun _ key _ _ => key 0
  topk := TopK.ofSort (WithBot ℚ)
  indexRatio_pos := Nat.two_pos

/-- Seven tokens, prefilled at once. -/
def sevenRows : List (Unit × Nat) := (List.range 7).map fun position => ((), position)

/-- The sixth of them attends to the block of the last two, whether the seventh is there or not. -/
theorem sixthToken_attends :
    latestBlock.AttendsRight (fun i _ => (i : ℚ)) ((), 5)
      (latestBlock.attends (fun i _ => (i : ℚ)) sevenRows ((), 5)) ∧
    latestBlock.attends (fun i _ => (i : ℚ)) (sevenRows.take 6) ((), 5) =
      latestBlock.attends (fun i _ => (i : ℚ)) sevenRows ((), 5) := by
  have hinj : Set.InjOn (latestBlock.blockScore (fun i _ => (i : ℚ)) ((), 5))
      (latestBlock.visible 5) := by
    intro b _ b' _ heq
    simp only [blockScore, latestBlock, Finset.sum_range_succ, Finset.sum_range_zero] at heq
    push_cast at heq
    have hcast : (b : ℚ) = b' := by linarith
    exact_mod_cast hcast
  obtain ⟨hright, hlater⟩ := attends_right latestBlock (fun i _ => (i : ℚ)) sevenRows ((), 5)
    (by decide) hinj
  exact ⟨hright, hlater _ _ (fun _ _ => rfl) (by decide)⟩

end QsaLayer

end FreeToken
