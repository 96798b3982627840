import FreeToken.Engine.Step
import FreeToken.Lib.Scatter
import Mathlib.Algebra.BigOperators.Group.Finset.Basic
import Mathlib.Algebra.Field.Defs
import Mathlib.Algebra.Order.Ring.Defs

/-!
# The reference attention

`attention/triton.py`, over the pool of `kvcache/base.py`, in exact arithmetic: every number of
the torch code is an element of a field, and `exp` is any function. A tensor is a function of its
indices; `none` in the place of a tensor is an exception, `none` in the place of a number a NaN.
-/

namespace FreeToken

/-- `AttentionSpec`. -/
structure AttentionSpec (K : Type) where
  slidingWindow : Option Int := none
  smScale : Option K := none
  /-- One learned scalar for each query head. -/
  sinks : Option (Nat → K) := none

/-- `window` of both backends; 0 is none. -/
def attnWindow {K : Type} (attnSpec : Option (AttentionSpec K)) : Int :=
  (attnSpec.bind fun spec => spec.slidingWindow).getD 0

/-- `BaseKVCachePool`. The buffers are row-major, `[num_layers, num_slots, num_kv_heads, head_dim]`. -/
structure KVPool (K : Type) where
  numLayers : Nat
  numSlots : Nat
  numKvHeads : Nat
  headDim : Nat
  kBuffer : Nat → K
  vBuffer : Nat → K
  /-- The width of the page table. -/
  maxSeqLen : Nat
  pageTable : Nat → Nat → Slot

namespace KVPool

variable {K : Type} (pool : KVPool K)

/-- `[layer, slot, head, x]` in a buffer. -/
def offset (layer slot head x : Nat) : Nat :=
  ((layer * pool.numSlots + slot) * pool.numKvHeads + head) * pool.headDim + x

/-- `page_table[table_idx, torch.arange(n)]`. -/
def pageSlots (tableIdx n : Nat) : Option (List Slot) :=
  if n ≤ pool.maxSeqLen then some ((List.range n).map (pool.pageTable tableIdx)) else none

/-- `read_kv` at the positions `0 .. n-1`: the key and the value of each, by head. -/
def readKv (tableIdx n layer : Nat) : Option (List ((Nat → Nat → K) × (Nat → Nat → K))) :=
  (pool.pageSlots tableIdx n).bind fun slots =>
    if layer < pool.numLayers ∧ ∀ slot ∈ slots, slot < pool.numSlots then
      some (slots.map fun slot =>
        (fun head x => pool.kBuffer (pool.offset layer slot head x),
          fun head x => pool.vBuffer (pool.offset layer slot head x)))
    else none

/-- The elements of a token's heads, where they go in a layer of a buffer. -/
def elements (layer slot : Nat) (row : Nat → Nat → K) : List (Nat × K) :=
  (List.range pool.numKvHeads).flatMap fun head =>
    (List.range pool.headDim).map fun x => (pool.offset layer slot head x, row head x)

/-- `buffer[layer][out_loc] = x`, token by token. -/
def scatter (layer : Nat) (outLoc : List Slot) (x : Nat → Nat → Nat → K) (buffer : Nat → K) :
    Nat → K :=
  Assign.written buffer (outLoc.zipIdx.flatMap fun loc =>
    pool.elements layer loc.1 fun head => x head loc.2)

end KVPool

/-- `TritonAttentionBackend`: `_capturing` and `_graph_max_seq_len`. -/
structure TritonAttentionBackend where
  capturing : Bool := false
  graphMaxSeqLen : Nat := 0
deriving DecidableEq, Repr

/-- The queries of a forward, head-major `[heads, tokens, head_dim]`; its keys and values are given
in the same order. -/
structure Queries (K : Type) where
  heads : Nat
  tokens : Nat
  headDim : Nat
  at' : Nat → Nat → Nat → K

/-- `write_kv`, of keys and values by head. -/
def KVPool.writeKv {K : Type} (pool : KVPool K) (k v : Queries K) (outLoc : List Slot)
    (layerId : Nat) : Option (KVPool K) :=
  if layerId < pool.numLayers ∧ (∀ slot ∈ outLoc, slot < pool.numSlots) ∧
      ∀ x ∈ [k, v], x.heads = pool.numKvHeads ∧ x.tokens = outLoc.length ∧
        x.headDim = pool.headDim then
    some { pool with
      kBuffer := pool.scatter layerId outLoc k.at' pool.kBuffer
      vBuffer := pool.scatter layerId outLoc v.at' pool.vBuffer }
  else none

/-- `q[:, token_idx : token_idx + ext, :]`. -/
def Queries.slice {K : Type} (q : Queries K) (tokenIdx ext : Nat) : Queries K where
  heads := q.heads
  tokens := min (tokenIdx + ext) q.tokens - tokenIdx
  headDim := q.headDim
  at' := fun head token => q.at' head (tokenIdx + token)

/-- A batch in the forward of a step. -/
structure AttnBatch where
  reqs : List Req
  phase : Phase
  positions : List Nat
  extendLens : List Nat
deriving DecidableEq, Repr

namespace AttnBatch

/-- `next((r for r in batch.reqs if r.table_idx == table_idx), batch.reqs[0])`, with its index. -/
def locate (batch : AttnBatch) (tableIdx : Nat) : Option (Nat × Req) :=
  match batch.reqs.findIdx? fun r => r.tableIdx = tableIdx with
  | some b => batch.reqs[b]?.map fun req => (b, req)
  | none => batch.reqs.head?.map fun req => (0, req)

end AttnBatch

/-- `torch.softmax` of a row, where a masked score is `-inf`; a row of nothing else is NaN. -/
def torchSoftmax {K : Type} [Field K] (exp : K → K) (row : List (Option K)) : Option (List K) :=
  let expOf : Option K → K := fun s => (s.map exp).getD 0
  if row ≠ [] ∧ ∀ s ∈ row, s = none then none
  else some (row.map fun s => expOf s / (row.map expOf).sum)

namespace TritonAttentionBackend

variable {K : Type} [Field K] (exp : K → K)

/-- The captured forward reads a fixed number of keys. -/
def readLen (self : TritonAttentionBackend) (written : Nat) : Nat :=
  let captureLen := if self.capturing then self.graphMaxSeqLen else 0
  if written < captureLen then captureLen else written

/-- `allowed`, of a query at `qPos` and the key at `keyPos`. -/
def allowed (written readLen : Nat) (window : Int) (qPos keyPos : Nat) : Bool :=
  keyPos ≤ qPos && (readLen ≤ written || keyPos < written) &&
    (window ≤ 0 || (qPos : Int) - keyPos < window)

/-- `probs @ v_all`, of one query: the row of `scores`, its softmax (with the sink's column, which
is dropped), and the mean of the values. -/
def attendRow (q : Nat → K) (headDim : Nat) (scale : K) (sink : Option K)
    (keys : List ((Nat → K) × (Nat → K) × Bool)) : Nat → Option K :=
  let scores := keys.map fun key =>
    if key.2.2 then some ((∑ x ∈ Finset.range headDim, q x * key.1 x) * scale) else none
  let probs := torchSoftmax exp (scores ++ (sink.map some).toList)
  fun x => probs.map fun probs => (List.zipWith (fun p key => p * key.2.1 x) probs keys).sum

/-- `_attend_one`. -/
def attendOne (self : TritonAttentionBackend) (pool : KVPool K) (tableIdx : Nat) (q : Queries K)
    (qPos : List Nat) (written kvRepeat : Nat) (scale : K) (window : Int) (layerId : Nat)
    (sinks : Option (Nat → K)) : Option (Nat → Nat → Nat → Option K) :=
  let readLen := self.readLen written
  (pool.readKv tableIdx readLen layerId).bind fun kv =>
    if pool.numKvHeads * kvRepeat = q.heads ∧ pool.headDim = q.headDim ∧ qPos.length = q.tokens then
      some fun head token =>
        let keys := kv.zipIdx.map fun key =>
          (key.1.1 (head / kvRepeat), key.1.2 (head / kvRepeat),
            allowed written readLen window (qPos.getD token 0) key.2)
        attendRow exp (q.at' head token) q.headDim scale (sinks.map fun s => s head) keys
    else none

/-- `_request_positions`. -/
def requestPositions (batch : AttnBatch) (tableIdx ext : Nat) : List Nat :=
  let before := batch.reqs.takeWhile fun r => r.tableIdx ≠ tableIdx
  let offset := (before.map fun r => if batch.phase = .decode then 1 else r.extendLen.toNat).sum
  (batch.positions.drop offset).take ext

/-- How much of a request's history is in the pool. -/
def writtenLen (phase : Phase) (req : Req) (ext : Nat) : Nat :=
  if phase = .decode then req.deviceLen else (req.cachedLen + ext).toNat

/-- `forward` with a `table_idx`; `invSqrt d` is `1.0 / d ** 0.5`. -/
def forward (self : TritonAttentionBackend) (invSqrt : Nat → K) (pool : KVPool K) (q : Queries K)
    (numKv layerId : Nat) (batch : AttnBatch) (attnSpec : Option (AttentionSpec K))
    (tableIdx : Nat) : Option (Nat → Nat → Nat → Option K) :=
  (batch.locate tableIdx).bind fun found =>
    self.attendOne exp pool found.2.tableIdx q (requestPositions batch tableIdx q.tokens)
      (writtenLen batch.phase found.2 q.tokens) (q.heads / numKv) (invSqrt q.headDim)
      (attnWindow attnSpec) layerId (attnSpec.bind fun spec => spec.sinks)

/-- The walk over the requests, from the token `tokenIdx` on. -/
def walk (self : TritonAttentionBackend) (invSqrt : Nat → K) (pool : KVPool K) (q : Queries K)
    (numKv layerId : Nat) (batch : AttnBatch) (attnSpec : Option (AttentionSpec K)) :
    List Req → Nat → (Nat → Nat → Nat → Option K) → Option (Nat → Nat → Nat → Option K)
  | [], _, out => some out
  | req :: reqs, tokenIdx, out =>
      let ext := if batch.phase = .decode then 1 else req.extendLen.toNat
      (self.attendOne exp pool req.tableIdx (q.slice tokenIdx ext)
          ((batch.positions.drop tokenIdx).take ext) (writtenLen batch.phase req ext) (q.heads / numKv)
          (invSqrt q.headDim) (attnWindow attnSpec) layerId
          (attnSpec.bind fun spec => spec.sinks)).bind fun rows =>
        self.walk invSqrt pool q numKv layerId batch attnSpec reqs (tokenIdx + ext)
          fun head token =>
            if tokenIdx ≤ token ∧ token < tokenIdx + ext then rows head (token - tokenIdx)
            else out head token

/-- `forward` without a `table_idx`; `torch.empty_like` has no values. -/
def forwardBatch (self : TritonAttentionBackend) (invSqrt : Nat → K) (pool : KVPool K)
    (q : Queries K) (numKv layerId : Nat) (batch : AttnBatch)
    (attnSpec : Option (AttentionSpec K)) : Option (Nat → Nat → Nat → Option K) :=
  self.walk exp invSqrt pool q numKv layerId batch attnSpec batch.reqs 0 fun _ _ _ => none

end TritonAttentionBackend

/-- The batch of a step, when its forward runs. -/
def Engine.StepOutput.attnBatch (out : Engine.StepOutput) : AttnBatch where
  reqs := out.batch.reqs
  phase := out.batch.phase
  positions := out.tensors.positions
  extendLens := out.tensors.extendLens

end FreeToken
