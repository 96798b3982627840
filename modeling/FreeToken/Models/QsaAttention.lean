import FreeToken.Lib.TopK
import Mathlib.Algebra.BigOperators.Group.Finset.Basic
import Mathlib.Algebra.Field.Defs

/-!
# Block-sparse attention

The block selection of the QSA layers of `models/qwen4_exp`, in exact arithmetic: keys are pooled
by blocks, each query picks the best of the blocks that it sees, and attends to their tokens and to
the group that its own position is in. The score of a query and a pooled key at their positions is
any function, and `torch.topk` a parameter, with what it does to ties.
-/

namespace FreeToken

open TopK

/-- `_Qwen4ExpQSAAttention`, as far as its indexer goes. -/
structure QsaLayer (Q K : Type) [LinearOrder K] where
  indexRatio : Nat
  indexBudgetBlocks : Nat
  /-- `qsa_score`, of a query, a pooled key, the position of the query and the start of the block. -/
  score : Q → (Nat → K) → Nat → Nat → K
  topk : TopK (WithBot K)
  indexRatio_pos : 0 < indexRatio

variable {Q K : Type}

/-- Entry `b` of `pooled`: the mean of a group. -/
def pooledKey [Field K] (rawKeys : List (Nat → K)) (ratio b : Nat) : Nat → K := fun d =>
  (∑ i ∈ Finset.range ratio, (rawKeys.getD (b * ratio + i) 0) d) / (ratio : K)

/-- `qsa_compress_keys`: the pooled groups and their starts. A last group that is not whole is
dropped. -/
def qsaCompressKeys [Field K] (rawKeys : List (Nat → K)) (ratio : Nat) : List ((Nat → K) × Nat) :=
  (List.range (rawKeys.length / ratio)).map fun b => (pooledKey rawKeys ratio b, b * ratio)

/-- `qsa_topk_blocks`, of one query. -/
def qsaTopkBlocks [LinearOrder K] (T : TopK (WithBot K)) (scores : Nat → K)
    (blockLast : List Nat) (queryPosition budgetBlocks : Nat) : List Int :=
  let numBlocks := blockLast.length
  if numBlocks = 0 ∨ budgetBlocks = 0 then List.replicate budgetBlocks (-1)
  else
    let values := masked (fun b => blockLast.getD b 0 ≤ queryPosition) scores
    let kEff := min budgetBlocks numBlocks
    let topkIdx := (T.pick numBlocks values kEff).map fun b => if values b = ⊥ then -1 else (b : Int)
    topkIdx ++ List.replicate (budgetBlocks - kEff) (-1)

/-- `qsa_expand_block_mask`, of one query. -/
def qsaExpandBlockMask (topkIdx : List Int) (ratio seqLen j : Nat) : Bool :=
  if seqLen = 0 ∨ topkIdx.length = 0 then false
  else topkIdx.any fun idx => (List.range ratio).any fun offset =>
    let pos := (max idx 0).toNat * ratio + offset
    let inRange := 0 ≤ idx && pos < seqLen
    min pos (max (seqLen - 1) 0) = j && inRange

/-- `qsa_attend_mask`, of one query. -/
def qsaAttendMask (topkIdx : List Int) (ratio queryPosition seqLen j : Nat) : Bool :=
  let groupStart := queryPosition / ratio * ratio
  (qsaExpandBlockMask topkIdx ratio seqLen j || (groupStart ≤ j && j ≤ queryPosition)) &&
    j ≤ queryPosition

namespace QsaLayer

variable [Field K] [LinearOrder K] (l : QsaLayer Q K)

/-- The mask of a query over a history of raw keys. -/
def rowMask (rawKeys : List (Nat → K)) (q : Q) (position j : Nat) : Bool :=
  let blocks := qsaCompressKeys rawKeys l.indexRatio
  let blockLast := blocks.map fun block => block.2 + l.indexRatio - 1
  let scores := fun b => l.score q (blocks.getD b (0, 0)).1 position (blocks.getD b (0, 0)).2
  let topk :=
    if 0 < blocks.length then qsaTopkBlocks l.topk scores blockLast position l.indexBudgetBlocks
    else List.replicate l.indexBudgetBlocks (-1)
  qsaAttendMask topk l.indexRatio position rawKeys.length j

/-- `written`, of the queries of a forward with their positions. -/
def written (rows : List (Q × Nat)) : Nat := (rows.getLast?.map fun row => row.2 + 1).getD 0

/-- The positions that a row of a forward attends to; `keys` is what the index store holds at the
positions of the request. -/
def attends (keys : Nat → Nat → K) (rows : List (Q × Nat)) (row : Q × Nat) : Finset Nat :=
  (Finset.range (written rows)).filter fun j =>
    l.rowMask ((List.range (written rows)).map keys) row.1 row.2 j = true

end QsaLayer

end FreeToken
