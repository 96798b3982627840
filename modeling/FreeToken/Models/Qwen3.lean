import FreeToken.Attention.Triton
import FreeToken.Engine.Sample
import FreeToken.Layers.Rotary
import FreeToken.Lib.LayeredModel

/-!
# Qwen3

The forward of `models/qwen3`, over the pool of `kvcache/base.py` and the attention of
`attention/triton.py`, in exact arithmetic. `none` is an exception, or a NaN that the attention
returns.
-/

namespace FreeToken

/-- What the numbers of a model are computed with. -/
structure TorchMath (K : Type) where
  exp : K → K
  /-- `1 / sqrt(x)`. -/
  rsqrt : K → K
  trig : Trig K
  /-- `1.0 / d ** 0.5`. -/
  invSqrt : Nat → K
  /-- `torch.finfo(dtype).eps`. -/
  eps : K

/-- The fields of a `ModelConfig` that the model reads, with its fallbacks resolved. -/
structure Qwen3Config (K : Type) where
  hiddenSize : Nat
  vocabSize : Nat
  numHeads : Nat
  numKvHeads : Nat
  headDim : Nat
  intermediateSize : Nat
  ropeTheta : K

/-- The weights of a `_Qwen3DecoderLayer`; those of a projection are `[out, in]`. -/
structure Qwen3DecoderLayer (K : Type) where
  inputLayernorm : Nat → K
  qProj : Nat → Nat → K
  kProj : Nat → Nat → K
  vProj : Nat → Nat → K
  oProj : Nat → Nat → K
  qNorm : Nat → K
  kNorm : Nat → K
  postAttentionLayernorm : Nat → K
  gateProj : Nat → Nat → K
  upProj : Nat → Nat → K
  downProj : Nat → Nat → K

structure Qwen3ForCausalLM (K : Type) where
  config : Qwen3Config K
  embedTokens : Nat → Nat → K
  layers : List (Qwen3DecoderLayer K)
  norm : Nat → K
  lmHead : Nat → Nat → K

namespace Qwen3

variable {K : Type} [Field K]

/-- `F.linear`, of `n` inputs. -/
def linear (n : Nat) (weight : Nat → Nat → K) (x : Nat → K) : Nat → K := fun o =>
  ∑ i ∈ Finset.range n, x i * weight o i

/-- `nn.RMSNorm`, of `n` elements. -/
def rmsNorm (T : TorchMath K) (n : Nat) (weight x : Nat → K) : Nat → K := fun i =>
  x i * T.rsqrt ((∑ j ∈ Finset.range n, x j * x j) / n + T.eps) * weight i

def silu (T : TorchMath K) (x : K) : K := x / (1 + T.exp (-x))

/-- `proj(hidden_states).view(bsz, heads, head_dim).transpose(0, 1)`. -/
def project (hiddenSize heads headDim : Nat) (weight : Nat → Nat → K) (hs : List (Nat → K)) :
    Queries K where
  heads := heads
  tokens := hs.length
  headDim := headDim
  at' := fun head token x => linear hiddenSize weight (hs.getD token 0) (head * headDim + x)

/-- A norm of each head. -/
def headNorm (T : TorchMath K) (weight : Nat → K) (q : Queries K) : Queries K :=
  { q with at' := fun head token => rmsNorm T q.headDim weight (q.at' head token) }

/-- `inv_freq`. -/
def invFreq (T : TorchMath K) (config : Qwen3Config K) (i : Nat) : K :=
  T.trig.invPow config.ropeTheta i config.headDim

/-- A head at a position, rotated: `cos` and `sin` are of `cat(freqs, freqs)`. -/
def rotate (T : TorchMath K) (config : Qwen3Config K) (pos : Nat) (x : Nat → K) : Nat → K := fun i =>
  let half := config.headDim / 2
  let freq := pos * invFreq T config (if i < half then i else i - half)
  x i * T.trig.cos freq + (if i < half then -x (half + i) else x (i - half)) * T.trig.sin freq

/-- `_rope`. The `inv_freq` of an odd head would be half an element too long. -/
def rope (T : TorchMath K) (config : Qwen3Config K) (q : Queries K) (positions : List Nat) :
    Option (Queries K) :=
  if 2 * ((config.headDim + 1) / 2) = q.headDim ∧ positions.length = q.tokens then
    some { q with at' := fun head token => rotate T config (positions.getD token 0) (q.at' head token) }
  else none

/-- `page_table[table_idx, positions]`. -/
def outLoc (pool : KVPool K) (tableIdx : Nat) (positions : List Nat) : Option (List Slot) :=
  if ∀ p ∈ positions, p < pool.maxSeqLen then some (positions.map (pool.pageTable tableIdx))
  else none

/-- `out.transpose(0, 1).contiguous().reshape(bsz, -1)`. -/
def concatHeads (heads headDim tokens : Nat) (out : Nat → Nat → Nat → Option K) :
    Option (List (Nat → K)) :=
  (List.range tokens).mapM fun token =>
    ((List.range (heads * headDim)).mapM fun i => out (i / headDim) token (i % headDim)).map
      fun row i => row.getD i 0

end Qwen3

open Qwen3

namespace Qwen3DecoderLayer

variable {K : Type} [Field K] (T : TorchMath K) (config : Qwen3Config K)

/-- `_Qwen3Attention.forward`. -/
def selfAttn (layer : Qwen3DecoderLayer K) (layerId : Nat) (hs : List (Nat → K))
    (positions : List Nat) (tableIdx : Nat) (attnBackend : TritonAttentionBackend)
    (batch : AttnBatch) (pool : KVPool K) : Option (KVPool K × List (Nat → K)) := do
  let q := project config.hiddenSize config.numHeads config.headDim layer.qProj hs
  let k := project config.hiddenSize config.numKvHeads config.headDim layer.kProj hs
  let v := project config.hiddenSize config.numKvHeads config.headDim layer.vProj hs
  let q ← rope T config (headNorm T layer.qNorm q) positions
  let k ← rope T config (headNorm T layer.kNorm k) positions
  let outLoc ← outLoc pool tableIdx positions
  let pool ← pool.writeKv k v outLoc layerId
  let out ← attnBackend.forward T.exp T.invSqrt pool q k.heads layerId batch none tableIdx
  let out ← concatHeads q.heads q.headDim q.tokens out
  return (pool, out.map (linear (config.numHeads * config.headDim) layer.oProj))

/-- `_Qwen3MLP.forward`. -/
def mlp (layer : Qwen3DecoderLayer K) (x : Nat → K) : Nat → K :=
  linear config.intermediateSize layer.downProj fun i =>
    silu T (linear config.hiddenSize layer.gateProj x i) * linear config.hiddenSize layer.upProj x i

/-- What follows the attention. -/
def feedForward (layer : Qwen3DecoderLayer K) (residual attn : Nat → K) : Nat → K :=
  let h := residual + attn
  h + layer.mlp T config (rmsNorm T config.hiddenSize layer.postAttentionLayernorm h)

/-- `_Qwen3DecoderLayer.forward`. -/
def forward (layer : Qwen3DecoderLayer K) (layerId : Nat) (hs : List (Nat → K))
    (positions : List Nat) (tableIdx : Nat) (attnBackend : TritonAttentionBackend)
    (batch : AttnBatch) (pool : KVPool K) : Option (KVPool K × List (Nat → K)) := do
  let (pool, attn) ← layer.selfAttn T config layerId
    (hs.map (rmsNorm T config.hiddenSize layer.inputLayernorm)) positions tableIdx attnBackend batch
    pool
  return (pool, List.zipWith (layer.feedForward T config) hs attn)

end Qwen3DecoderLayer

namespace Qwen3ForCausalLM

variable {K : Type} [Field K] (T : TorchMath K) (m : Qwen3ForCausalLM K)

/-- The loop over the layers, for one request. -/
def runLayers (positions : List Nat) (tableIdx : Nat) (attnBackend : TritonAttentionBackend)
    (batch : AttnBatch) : List (Qwen3DecoderLayer K × Nat) → KVPool K → List (Nat → K) →
      Option (KVPool K × List (Nat → K))
  | [], pool, h => some (pool, h)
  | (layer, layerId) :: layers, pool, h => do
      let (pool, h) ← layer.forward T m.config layerId h positions tableIdx attnBackend batch pool
      runLayers positions tableIdx attnBackend batch layers pool h

/-- `1 if is_decode_batch else int(extend_lens[i])`. -/
def extendLen (batch : AttnBatch) (i : Nat) : Option Nat :=
  if batch.phase = .decode then some 1 else batch.extendLens[i]?

/-- The loop over the requests, from the token `offset` on: `out` of each. -/
def walk (hidden : List (Nat → K)) (positions : List Nat) (attnBackend : TritonAttentionBackend)
    (batch : AttnBatch) : List (Req × Nat) → Nat → KVPool K → Option (KVPool K × List (Nat → K))
  | [], _, pool => some (pool, [])
  | (req, i) :: reqs, offset, pool => do
      let ext ← extendLen batch i
      let (pool, h) ← m.runLayers T ((positions.drop offset).take ext) req.tableIdx attnBackend batch
        m.layers.zipIdx pool ((hidden.drop offset).take ext)
      let last ← (h.map (rmsNorm T m.config.hiddenSize m.norm)).getLast?
      let (pool, out) ← walk hidden positions attnBackend batch reqs (offset + ext) pool
      return (pool, last :: out)

/-- `embed_tokens`. -/
def embed (inputIds : List Token) : Option (List (Nat → K)) :=
  if ∀ tok ∈ inputIds, tok < m.config.vocabSize then some (inputIds.map m.embedTokens) else none

/-- `forward`: the pool, and the logits of each request. -/
def forward (attnBackend : TritonAttentionBackend) (batch : AttnBatch) (inputIds : List Token)
    (pool : KVPool K) : Option (KVPool K × List (Nat → K)) := do
  let hidden ← m.embed inputIds
  let (pool, out) ← m.walk T hidden batch.positions attnBackend batch batch.reqs.zipIdx 0 pool
  return (pool, out.map (linear m.config.hiddenSize m.lmHead))

end Qwen3ForCausalLM

end FreeToken
