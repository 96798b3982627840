import FreeToken.Attention.KernelSpec
import FreeToken.Attention.TritonSpec
import FreeToken.Layers.RotarySpec
import FreeToken.Memory.Sessions
import FreeToken.Models.Qwen3

/-!
# Qwen3 as a layered model

What a layer keeps of a token are the keys and the values of its heads. The buffers of a pool hold
them slot by slot, and the attention of a query is the softmax over the positions up to its own.
So the forward over a batch is the one of the layered model, share by share.
-/

namespace FreeToken

/-- The key and the value of a token, by head. -/
abbrev KvEntry (K : Type) : Type := (Nat → Nat → K) × (Nat → Nat → K)

/-- A tensor of heads; nothing else of the function counts. -/
def shaped {K : Type} [Zero K] (heads headDim : Nat) (row : Nat → Nat → K) : Nat → Nat → K :=
  fun head x => if head < heads ∧ x < headDim then row head x else 0

theorem shaped_congr {K : Type} [Zero K] {heads headDim : Nat} {row row' : Nat → Nat → K}
    (h : ∀ head < heads, ∀ x < headDim, row head x = row' head x) :
    shaped heads headDim row = shaped heads headDim row' := by
  funext head x
  simp only [shaped]
  split
  · next hlt => exact h head hlt.1 x hlt.2
  · rfl

theorem shaped_apply {K : Type} [Zero K] {heads headDim head x : Nat} (hhead : head < heads)
    (hx : x < headDim) (row : Nat → Nat → K) : shaped heads headDim row head x = row head x :=
  if_pos ⟨hhead, hx⟩

namespace KVPool

variable {K : Type} (pool : KVPool K)

section

variable {layer layer' slot slot' head head' x x' : Nat}

theorem offset_inj (hslot : slot < pool.numSlots) (hslot' : slot' < pool.numSlots)
    (hhead : head < pool.numKvHeads) (hhead' : head' < pool.numKvHeads) (hx : x < pool.headDim)
    (hx' : x' < pool.headDim) :
    pool.offset layer slot head x = pool.offset layer' slot' head' x' ↔
      ((layer = layer' ∧ slot = slot') ∧ head = head') ∧ x = x' := by
  rw [offset, offset, element_eq_iff hx hx', element_eq_iff hhead hhead',
    element_eq_iff hslot hslot']

theorem mem_elements {row : Nat → Nat → K} {e : Nat × K} : e ∈ pool.elements layer slot row ↔
    ∃ head < pool.numKvHeads, ∃ x < pool.headDim,
      (pool.offset layer slot head x, row head x) = e := by
  simp [elements, List.mem_flatMap, List.mem_range]

/-- The elements of a token in a buffer that it has been written to. -/
theorem written_elements (row : Nat → Nat → K) (buffer : Nat → K) (hslot : slot < pool.numSlots)
    (hslot' : slot' < pool.numSlots) (hhead : head < pool.numKvHeads) (hx : x < pool.headDim) :
    Assign.written buffer (pool.elements layer slot row) (pool.offset layer' slot' head x) =
      if layer' = layer ∧ slot' = slot then row head x
      else buffer (pool.offset layer' slot' head x) := by
  have heq : ∀ e ∈ pool.elements layer slot row, e.1 = pool.offset layer' slot' head x →
      (layer' = layer ∧ slot' = slot) ∧ e.2 = row head x := by
    intro e he hoff
    rcases pool.mem_elements.1 he with ⟨head', hhead', x', hx', rfl⟩
    rcases (pool.offset_inj hslot hslot' hhead' hhead hx' hx).mp hoff with ⟨⟨⟨rfl, rfl⟩, rfl⟩, rfl⟩
    exact ⟨⟨rfl, rfl⟩, rfl⟩
  split
  · next h =>
      rcases h with ⟨rfl, rfl⟩
      refine Assign.written_eq (fun e he hoff => (heq e he hoff).2) ?_ buffer
      exact List.mem_map.mpr ⟨_, pool.mem_elements.2 ⟨head, hhead, x, hx, rfl⟩, rfl⟩
  · next h => exact Assign.written_keep (fun e he hoff => absurd (heq e he hoff).1 h) rfl

end

variable [Zero K]

/-- What a buffer holds at a slot. -/
def rowOf (buffer : Nat → K) (layer slot : Nat) : Nat → Nat → K :=
  shaped pool.numKvHeads pool.headDim fun head x => buffer (pool.offset layer slot head x)

/-- The keys and the values at a slot of a layer. -/
def entry (layer slot : Nat) : KvEntry K :=
  (pool.rowOf pool.kBuffer layer slot, pool.rowOf pool.vBuffer layer slot)

variable {layer layer' slot slot' : Nat}

theorem rowOf_written (row : Nat → Nat → K) (buffer : Nat → K) (hslot : slot < pool.numSlots)
    (hslot' : slot' < pool.numSlots) :
    pool.rowOf (Assign.written buffer (pool.elements layer slot row)) layer' slot' =
      if layer' = layer ∧ slot' = slot then shaped pool.numKvHeads pool.headDim row
      else pool.rowOf buffer layer' slot' := by
  have hrow : pool.rowOf (Assign.written buffer (pool.elements layer slot row)) layer' slot' =
      shaped pool.numKvHeads pool.headDim fun head x => if layer' = layer ∧ slot' = slot then
        row head x else buffer (pool.offset layer' slot' head x) :=
    shaped_congr fun head hhead x hx => pool.written_elements row buffer hslot hslot' hhead hx
  rw [hrow]
  split
  · rfl
  · rfl

/-- A scatter assigns to the slots of its layer. -/
theorem rowOf_scatter (x : Nat → Nat → Nat → K) (hslot' : slot' < pool.numSlots) :
    ∀ {locs : List (Slot × Nat)} {buffer : Nat → K}, (∀ loc ∈ locs, loc.1 < pool.numSlots) →
      pool.rowOf (Assign.written buffer (locs.flatMap fun loc =>
          pool.elements layer loc.1 fun head => x head loc.2)) layer' slot' =
        if layer' = layer then Assign.written (pool.rowOf buffer layer)
          (locs.map fun loc => (loc.1, shaped pool.numKvHeads pool.headDim fun head => x head loc.2)) slot'
        else pool.rowOf buffer layer' slot'
  | [], buffer, _ => by
      split
      · next h => rw [h]; rfl
      · rfl
  | loc :: locs, buffer, h => by
      have hslot := h loc List.mem_cons_self
      rw [List.flatMap_cons, Assign.written_append,
        rowOf_scatter x hslot' fun loc' hmem => h loc' (List.mem_cons_of_mem _ hmem)]
      split
      · next heq =>
          rw [List.map_cons, Assign.written_cons]
          apply Assign.written_congr
          rw [pool.rowOf_written _ _ hslot hslot', Function.update_apply]
          simp
      · next hne => rw [pool.rowOf_written _ _ hslot hslot', if_neg fun hand => hne hand.1]

variable {pool} {pool' : KVPool K} {k v : Queries K} {outLoc : List Slot}

/-- The pools differ in what they hold at most. -/
structure SameShape (pool pool' : KVPool K) : Prop where
  numLayers_eq : pool'.numLayers = pool.numLayers
  numSlots_eq : pool'.numSlots = pool.numSlots
  numKvHeads_eq : pool'.numKvHeads = pool.numKvHeads
  headDim_eq : pool'.headDim = pool.headDim
  maxSeqLen_eq : pool'.maxSeqLen = pool.maxSeqLen
  pageTable_eq : pool'.pageTable = pool.pageTable

omit [Zero K] in
theorem SameShape.refl (pool : KVPool K) : pool.SameShape pool := ⟨rfl, rfl, rfl, rfl, rfl, rfl⟩

omit [Zero K] in
theorem SameShape.trans {pool'' : KVPool K} (h : pool.SameShape pool') (h' : pool'.SameShape pool'') :
    pool.SameShape pool'' where
  numLayers_eq := h'.numLayers_eq.trans h.numLayers_eq
  numSlots_eq := h'.numSlots_eq.trans h.numSlots_eq
  numKvHeads_eq := h'.numKvHeads_eq.trans h.numKvHeads_eq
  headDim_eq := h'.headDim_eq.trans h.headDim_eq
  maxSeqLen_eq := h'.maxSeqLen_eq.trans h.maxSeqLen_eq
  pageTable_eq := h'.pageTable_eq.trans h.pageTable_eq

/-- `write_kv` of tensors that fit. -/
theorem writeKv_eq (hlayer : layer < pool.numLayers)
    (hloc : ∀ slot ∈ outLoc, slot < pool.numSlots)
    (hshape : ∀ x ∈ [k, v], x.heads = pool.numKvHeads ∧ x.tokens = outLoc.length ∧
      x.headDim = pool.headDim) :
    ∃ pool', pool.writeKv k v outLoc layer = some pool' ∧ pool.SameShape pool' ∧
      ∀ layer' slot', slot' < pool.numSlots → pool'.entry layer' slot' =
        if layer' = layer then Assign.written (pool.entry layer)
          (outLoc.zipIdx.map fun loc => (loc.1,
            (shaped pool.numKvHeads pool.headDim fun head => k.at' head loc.2,
              shaped pool.numKvHeads pool.headDim fun head => v.at' head loc.2))) slot'
        else pool.entry layer' slot' := by
  refine ⟨_, if_pos ⟨hlayer, hloc, hshape⟩, ⟨rfl, rfl, rfl, rfl, rfl, rfl⟩, ?_⟩
  intro layer' slot' hslot'
  have hlocs : ∀ loc ∈ outLoc.zipIdx, loc.1 < pool.numSlots := fun loc hmem =>
    hloc _ (List.fst_mem_of_mem_zipIdx hmem)
  have hk : pool.rowOf (pool.scatter layer outLoc k.at' pool.kBuffer) layer' slot' = _ :=
    pool.rowOf_scatter k.at' hslot' hlocs
  have hv : pool.rowOf (pool.scatter layer outLoc v.at' pool.vBuffer) layer' slot' = _ :=
    pool.rowOf_scatter v.at' hslot' hlocs
  by_cases heq : layer' = layer
  · rw [if_pos heq] at hk hv ⊢
    refine Prod.ext (hk.trans ?_) (hv.trans ?_)
    · rw [Assign.written_map Prod.fst, List.map_map]
      rfl
    · rw [Assign.written_map Prod.snd, List.map_map]
      rfl
  · rw [if_neg heq] at hk hv ⊢
    exact Prod.ext hk hv

end KVPool

/-! ### The layered model -/

namespace Qwen3DecoderLayer

open Qwen3 OnlineSoftmax

variable {K : Type} [Field K] (T : TorchMath K) (config : Qwen3Config K)
  (layer : Qwen3DecoderLayer K)

/-- A head of a projection of a hidden state. -/
def headOf (weight : Nat → Nat → K) (h : Nat → K) (head x : Nat) : K :=
  linear config.hiddenSize weight (rmsNorm T config.hiddenSize layer.inputLayernorm h)
    (head * config.headDim + x)

def query (pos : Nat) (h : Nat → K) (head : Nat) : Nat → K :=
  rotate T config pos (rmsNorm T config.headDim layer.qNorm (layer.headOf T config layer.qProj h head))

def key (pos : Nat) (h : Nat → K) (head : Nat) : Nat → K :=
  rotate T config pos (rmsNorm T config.headDim layer.kNorm (layer.headOf T config layer.kProj h head))

/-- What the layer keeps of a hidden state. -/
def entryOf (pos : Nat) (h : Nat → K) : KvEntry K :=
  (shaped config.numKvHeads config.headDim (layer.key T config pos h),
    shaped config.numKvHeads config.headDim (layer.headOf T config layer.vProj h))

/-- The attention of a head: every query head has the keys and values of its group. -/
def attention (pos : Nat) (h : Nat → K) (kvs : List (KvEntry K)) (head x : Nat) : K :=
  let kvHead := head / (config.numHeads / config.numKvHeads)
  softmax T.exp (kvs.map fun kv =>
    (some ((∑ y ∈ Finset.range config.headDim, layer.query T config pos h head y * kv.1 kvHead y) *
      T.invSqrt config.headDim), kv.2 kvHead x))

/-- The hidden state after the layer. -/
def output (pos : Nat) (h : Nat → K) (kvs : List (KvEntry K)) : Nat → K :=
  layer.feedForward T config h (linear (config.numHeads * config.headDim) layer.oProj fun i =>
    layer.attention T config pos h kvs (i / config.headDim) (i % config.headDim))

end Qwen3DecoderLayer

namespace Qwen3ForCausalLM

variable {K : Type} [Field K] [LinearOrder K] (T : TorchMath K) (m : Qwen3ForCausalLM K)

def logits (h : Nat → K) : Nat → K :=
  Qwen3.linear m.config.hiddenSize m.lmHead (Qwen3.rmsNorm T m.config.hiddenSize m.norm h)

def layered : LayeredModel Token (Nat → K) (KvEntry K) where
  numLayers := m.layers.length
  embed := m.embedTokens
  project l pos h := (m.layers[l]?).elim 0 fun layer => layer.entryOf T m.config pos h
  attend l pos h kvs := (m.layers[l]?).elim h fun layer => layer.output T m.config pos h kvs
  head h := Sampler.argmax m.config.vocabSize (m.logits T h)

/-- The pool has the shape of the model. -/
structure Fits (pool : KVPool K) : Prop where
  numLayers_eq : pool.numLayers = m.layers.length
  numKvHeads_eq : pool.numKvHeads = m.config.numKvHeads
  headDim_eq : pool.headDim = m.config.headDim
  headDim_even : m.config.headDim % 2 = 0
  /-- `enable_gqa`: the query heads are groups of the key heads. -/
  heads_eq : m.config.numKvHeads * (m.config.numHeads / m.config.numKvHeads) = m.config.numHeads

variable {m} {pool pool' : KVPool K} {l : Nat} {layer : Qwen3DecoderLayer K}

omit [Field K] [LinearOrder K] in
theorem Fits.lt_numLayers (h : m.Fits pool) (hlayer : m.layers[l]? = some layer) :
    l < pool.numLayers := by
  rw [h.numLayers_eq]
  exact (List.getElem?_eq_some_iff.mp hlayer).1

omit [Field K] [LinearOrder K] in
theorem Fits.of_sameShape (h : m.Fits pool) (hsame : pool.SameShape pool') : m.Fits pool' where
  numLayers_eq := hsame.numLayers_eq.trans h.numLayers_eq
  numKvHeads_eq := hsame.numKvHeads_eq.trans h.numKvHeads_eq
  headDim_eq := hsame.headDim_eq.trans h.headDim_eq
  headDim_even := h.headDim_even
  heads_eq := h.heads_eq

end Qwen3ForCausalLM

/-! ### One layer -/

/-- A slice goes into slots of the pool. -/
abbrev KVPool.Places {K : Type} (pool : KVPool K) (s : Slice) : Prop :=
  s.Placed pool.pageTable pool.numSlots pool.maxSeqLen

theorem KVPool.Places.of_sameShape {K : Type} [Zero K] {pool pool' : KVPool K} {s : Slice}
    (h : pool.Places s) (hsame : pool.SameShape pool') : pool'.Places s where
  stop_le := hsame.maxSeqLen_eq ▸ h.stop_le
  slot_lt := by
    rw [hsame.pageTable_eq, hsame.numSlots_eq]
    exact h.slot_lt
  fresh := hsame.pageTable_eq ▸ h.fresh

theorem mapM_some {α β : Type} {f : α → Option β} {g : α → β} : ∀ {l : List α},
    (∀ a ∈ l, f a = some (g a)) → l.mapM f = some (l.map g)
  | [], _ => rfl
  | a :: l, h => by
      rw [List.mapM_cons, h a List.mem_cons_self,
        mapM_some fun a' hmem => h a' (List.mem_cons_of_mem a hmem)]
      rfl

namespace Qwen3

open OnlineSoftmax

variable {K : Type} [Field K]

theorem linear_congr {n : Nat} {weight : Nat → Nat → K} {x x' : Nat → K} (h : ∀ i < n, x i = x' i) :
    linear n weight x = linear n weight x' := by
  funext o
  exact Finset.sum_congr rfl fun i hi => by rw [h i (Finset.mem_range.mp hi)]

/-- Every number of the heads is one. -/
theorem concatHeads_eq {heads headDim tokens : Nat} {out : Nat → Nat → Nat → Option K}
    {real : Nat → Nat → Nat → K} (h : ∀ head < heads, ∀ token < tokens, ∀ x < headDim,
      out head token x = some (real head token x)) :
    ∃ rows, concatHeads heads headDim tokens out = some rows ∧
      ∀ token < tokens, ∀ weight, (rows[token]?.map (linear (heads * headDim) weight)) =
        some (linear (heads * headDim) weight fun i => real (i / headDim) token (i % headDim)) := by
  have hrow : ∀ token < tokens,
      ((List.range (heads * headDim)).mapM fun i => out (i / headDim) token (i % headDim)) =
        some ((List.range (heads * headDim)).map fun i => real (i / headDim) token (i % headDim)) := by
    intro token htoken
    refine mapM_some fun i hi => ?_
    have hi := List.mem_range.mp hi
    have hpos : 0 < headDim := by
      rcases Nat.eq_zero_or_pos headDim with rfl | hpos
      · simp at hi
      · exact hpos
    exact h _ (Nat.div_lt_of_lt_mul (Nat.mul_comm heads headDim ▸ hi)) token htoken _
      (Nat.mod_lt _ hpos)
  refine ⟨(List.range tokens).map fun token i => ((List.range (heads * headDim)).map fun i =>
    real (i / headDim) token (i % headDim)).getD i 0, ?_, ?_⟩
  · exact mapM_some fun token htoken => by rw [hrow token (List.mem_range.mp htoken)]; rfl
  · intro token htoken weight
    rw [List.getElem?_map, List.getElem?_range htoken, Option.map_some, Option.map_some,
      Option.some.injEq]
    refine linear_congr fun i hi => ?_
    rw [List.getD_eq_getElem?_getD, List.getElem?_map, List.getElem?_range hi]
    rfl

end Qwen3

namespace TritonAttentionBackend

open OnlineSoftmax

variable {K : Type} [Field K] {exp : K → K} {pool : KVPool K}

omit [Field K] in
/-- Without a window a query attends to the positions up to its own. -/
theorem rowKeys_causal (pool : KVPool K) (tableIdx layerId kvHead : Nat) {pos written : Nat}
    (hpos : pos < written) :
    ∃ masked : List (RowKey K), (∀ key ∈ masked, key.2.2 = false) ∧
      pool.rowKeys tableIdx layerId written written 0 pos kvHead =
        ((List.range (pos + 1)).map fun j => (pool.keyAt tableIdx layerId kvHead j,
          pool.valueAt tableIdx layerId kvHead j, true)) ++ masked := by
  rcases Nat.exists_eq_add_of_le (Nat.succ_le_of_lt hpos) with ⟨n, rfl⟩
  refine ⟨(List.range n).map fun i => (pool.keyAt tableIdx layerId kvHead (pos + 1 + i),
    pool.valueAt tableIdx layerId kvHead (pos + 1 + i),
      allowed (pos + 1 + n) (pos + 1 + n) 0 pos (pos + 1 + i)), ?_, ?_⟩
  · intro key hkey
    rcases List.mem_map.mp hkey with ⟨i, -, rfl⟩
    simp [allowed, Nat.add_assoc]
  · rw [KVPool.rowKeys, List.range_add, List.map_append, List.map_map]
    refine congrArg₂ _ (List.map_congr_left fun j hj => ?_) rfl
    simp [allowed, Nat.lt_succ_iff.mp (List.mem_range.mp hj)]

/-- The attention reads the entries of the positions up to the query's. -/
theorem answers_entry {tableIdx layerId kvRepeat pos written head token x : Nat} {q : Queries K}
    {qPos : List Nat} (scale : K) (hpos : qPos.getD token 0 = pos) (hlt : pos < written)
    (hhead : head / kvRepeat < pool.numKvHeads) (hdim : q.headDim = pool.headDim)
    (hx : x < pool.headDim) :
    answers exp pool tableIdx q qPos written written kvRepeat scale 0 layerId none head token x =
      some (softmax exp ((CausalModel.read (pool.pageTable tableIdx) (pool.entry layerId)
        (pos + 1)).map fun kv =>
          (some ((∑ y ∈ Finset.range pool.headDim, q.at' head token y * kv.1 (head / kvRepeat) y) *
            scale), kv.2 (head / kvRepeat) x))) := by
  rcases rowKeys_causal pool tableIdx layerId (head / kvRepeat) hlt with
    ⟨masked, hmasked, heq⟩
  rw [answers, hpos, heq, attendRow_append_masked hmasked (by simp), attendRow_eq]
  · rw [Option.map_none, sinkKey, Option.map_none, Option.toList_none, List.append_nil,
      CausalModel.read, List.map_map, List.map_map, hdim]
    congr 2
    refine List.map_congr_left fun j _ => ?_
    simp only [Function.comp_apply, RowKey.scored, if_true, KVPool.keyAt, KVPool.valueAt,
      KVPool.entry, KVPool.rowOf, shaped_apply hhead hx]
    congr 3
    refine Finset.sum_congr rfl fun y hy => ?_
    rw [shaped_apply hhead (Finset.mem_range.mp hy)]
  · exact .inr ⟨_, List.mem_map_of_mem (List.mem_range.mpr (Nat.succ_pos pos)), rfl⟩

end TritonAttentionBackend

/-! ### A layer over a slice -/

namespace Qwen3DecoderLayer

open Qwen3

variable {K : Type} [Field K] [LinearOrder K] {T : TorchMath K} {m : Qwen3ForCausalLM K}
  {layer : Qwen3DecoderLayer K} {l b : Nat} {pool : KVPool K} {attnBackend : TritonAttentionBackend}
  {batch : AttnBatch} {slices : List Slice} {s : Slice} {hs : List (Nat → K)}

omit [LinearOrder K] in
/-- A head of a projection, as the attention computes it over a slice. -/
theorem project_apply {config : Qwen3Config K} {heads token : Nat} {weight : Nat → Nat → K}
    {h : Nat → K} (hget : hs[token]? = some h) (head : Nat) :
    (project config.hiddenSize heads config.headDim weight
      (hs.map (rmsNorm T config.hiddenSize layer.inputLayernorm))).at' head token =
        layer.headOf T config weight h head := by
  funext x
  simp [project, headOf, List.getD_eq_getElem?_getD, hget]

omit [LinearOrder K] in
theorem positions_getD {token : Nat} (h : token < s.tokens.length) :
    s.positions.getD token 0 = s.start + token := by
  rw [List.getD_eq_getElem?_getD, Slice.positions, List.getElem?_range' h]
  simp

omit [LinearOrder K] in
/-- The queries or the keys of a slice. -/
theorem rope_project (T : TorchMath K) (layer : Qwen3DecoderLayer K) {config : Qwen3Config K}
    (heven : config.headDim % 2 = 0)
    (hlen : hs.length = s.tokens.length) (heads : Nat) (weight : Nat → Nat → K) (norm : Nat → K) :
    ∃ q, rope T config (headNorm T norm (project config.hiddenSize heads config.headDim weight
        (hs.map (rmsNorm T config.hiddenSize layer.inputLayernorm)))) s.positions = some q ∧
      q.heads = heads ∧ q.tokens = s.tokens.length ∧ q.headDim = config.headDim ∧
      ∀ token h, hs[token]? = some h → ∀ head, q.at' head token = rotate T config (s.start + token)
        (rmsNorm T config.headDim norm (layer.headOf T config weight h head)) := by
  have hcond : 2 * ((config.headDim + 1) / 2) = config.headDim ∧ s.positions.length =
      (hs.map (rmsNorm T config.hiddenSize layer.inputLayernorm)).length := by
    refine ⟨by omega, ?_⟩
    rw [s.length_positions, List.length_map, hlen]
  refine ⟨_, if_pos hcond, rfl, hcond.2.symm.trans s.length_positions, rfl, ?_⟩
  intro token h hget head
  have hlt : token < s.tokens.length := hlen ▸ (List.getElem?_eq_some_iff.mp hget).1
  simp only [headNorm, positions_getD hlt, project_apply hget]
  rfl

/-- Keys or values of a slice, in a tensor of the pool's shape. -/
structure Holds (pool : KVPool K) (s : Slice) (hs : List (Nat → K))
    (row : Nat → (Nat → K) → Nat → Nat → K) (x : Queries K) : Prop where
  heads_eq : x.heads = pool.numKvHeads
  tokens_eq : x.tokens = s.tokens.length
  headDim_eq : x.headDim = pool.headDim
  at_eq : ∀ token h, hs[token]? = some h → ∀ head, x.at' head token = row (s.start + token) h head

/-- The layer keeps the keys and the values of a slice. -/
theorem writeKv_slice (hlayer : m.layers[l]? = some layer) (hfits : m.Fits pool)
    (hplaces : pool.Places s) (hlen : hs.length = s.tokens.length) {k v : Queries K}
    (hk : Holds pool s hs (layer.key T m.config) k)
    (hv : Holds pool s hs (fun _ => layer.headOf T m.config layer.vProj) v) :
    ∃ pool', pool.writeKv k v (s.positions.map (pool.pageTable s.tableIdx)) l = some pool' ∧
      pool.SameShape pool' ∧ ∀ layer' slot', slot' < pool.numSlots → pool'.entry layer' slot' =
        if layer' = l then ((m.layered T).runLayer (pool.pageTable s.tableIdx) s.start l
          (pool.entry l) hs).1 slot' else pool.entry layer' slot' := by
  have hloc : ∀ slot ∈ s.positions.map (pool.pageTable s.tableIdx), slot < pool.numSlots := by
    intro slot hslot
    rcases List.mem_map.mp hslot with ⟨p, hp, rfl⟩
    exact hplaces.slot_lt p (List.mem_range'_1.mp hp).2
  have hshape : ∀ x ∈ [k, v], x.heads = pool.numKvHeads ∧
      x.tokens = (s.positions.map (pool.pageTable s.tableIdx)).length ∧ x.headDim = pool.headDim := by
    simp [hk.heads_eq, hk.tokens_eq, hk.headDim_eq, hv.heads_eq, hv.tokens_eq, hv.headDim_eq]
  have hentries : ((s.positions.map (pool.pageTable s.tableIdx)).zipIdx.map fun loc => (loc.1,
      (shaped pool.numKvHeads pool.headDim fun head => k.at' head loc.2,
        shaped pool.numKvHeads pool.headDim fun head => v.at' head loc.2))) =
      (hs.zipIdx s.start).map fun x =>
        (pool.pageTable s.tableIdx x.2, (m.layered T).project l x.2 x.1) := by
    refine List.ext_getElem (by simp [hlen]) fun i hi hi' => ?_
    have hlt : i < hs.length := by simpa using hi'
    have hget := List.getElem?_eq_getElem hlt
    simp only [List.getElem_map, List.getElem_zipIdx, Slice.positions, List.getElem_range', Nat.one_mul,
      Nat.zero_add, Qwen3ForCausalLM.layered, hlayer, Option.elim_some, entryOf, hk.at_eq i _ hget,
      hv.at_eq i _ hget, hfits.numKvHeads_eq, hfits.headDim_eq]
  rcases KVPool.writeKv_eq (hfits.lt_numLayers hlayer) hloc hshape with ⟨pool', hpool', hsame, hentry⟩
  rw [hentries] at hentry
  exact ⟨pool', hpool', hsame, hentry⟩

omit [LinearOrder K] in
/-- The attention over a slice, from what the pool holds after the write. -/
theorem attend_slice (hfits : m.Fits pool) (hlayer : m.layers[l]? = some layer)
    (heager : attnBackend.capturing = false) (hcut : batch.Cut slices) (hget : slices[b]? = some s)
    (hplaces : pool.Places s) (hlen : hs.length = s.tokens.length) {q : Queries K}
    (hheads : q.heads = m.config.numHeads) (htokens : q.tokens = s.tokens.length)
    (hdim : q.headDim = m.config.headDim) (hat : ∀ token h, hs[token]? = some h →
      ∀ head, q.at' head token = layer.query T m.config (s.start + token) h head) :
    ∃ out, attnBackend.forward T.exp T.invSqrt pool q m.config.numKvHeads l batch none s.tableIdx =
        some out ∧ ∀ head < m.config.numHeads, ∀ token h, hs[token]? = some h →
          ∀ x < m.config.headDim, out head token x = some (layer.attention T m.config
            (s.start + token) h (CausalModel.read (pool.pageTable s.tableIdx) (pool.entry l)
              (s.start + token + 1)) head x) := by
  have hread : attnBackend.readLen (s.start + s.tokens.length) = s.start + s.tokens.length := by
    simp [TritonAttentionBackend.readLen, heager]
  have hreadable : pool.Readable s.tableIdx l (attnBackend.readLen (s.start + s.tokens.length)) := by
    rw [hread]
    exact ⟨hplaces.stop_le, hfits.lt_numLayers hlayer, hplaces.slot_lt⟩
  have hshapes : TritonAttentionBackend.Fits pool q s.positions (q.heads / m.config.numKvHeads) := by
    refine ⟨?_, hfits.headDim_eq.trans hdim.symm, s.length_positions.trans htokens.symm⟩
    rw [hfits.numKvHeads_eq, hheads, hfits.heads_eq]
  refine ⟨_, (TritonAttentionBackend.forward_eq hcut hget htokens).trans
    (TritonAttentionBackend.attendOne_eq hreadable hshapes), ?_⟩
  intro head hhead token h hh x hx
  have htoken : token < s.tokens.length := hlen ▸ (List.getElem?_eq_some_iff.mp hh).1
  have hgroup : head / (q.heads / m.config.numKvHeads) < pool.numKvHeads := by
    apply Nat.div_lt_of_lt_mul
    rw [hfits.numKvHeads_eq, hheads, Nat.mul_comm, hfits.heads_eq]
    exact hhead
  rw [hread]
  refine (TritonAttentionBackend.answers_entry _ (positions_getD htoken) (by omega) hgroup
    (hdim.trans hfits.headDim_eq.symm) (hfits.headDim_eq ▸ hx)).trans ?_
  simp only [attention, hat token h hh, hheads, hdim, hfits.headDim_eq]

/-- A decoder layer over a slice is the layer of the layered model, on what the pool holds. -/
theorem forward_eq (hlayer : m.layers[l]? = some layer) (hfits : m.Fits pool)
    (heager : attnBackend.capturing = false) (hcut : batch.Cut slices) (hget : slices[b]? = some s)
    (hplaces : pool.Places s) (hlen : hs.length = s.tokens.length) :
    let out := (m.layered T).runLayer (pool.pageTable s.tableIdx) s.start l (pool.entry l) hs
    ∃ pool', layer.forward T m.config l hs s.positions s.tableIdx attnBackend batch pool =
        some (pool', out.2) ∧ pool.SameShape pool' ∧
      ∀ layer' slot', slot' < pool.numSlots → pool'.entry layer' slot' =
        if layer' = l then out.1 slot' else pool.entry layer' slot' := by
  intro out
  rcases rope_project T layer hfits.headDim_even hlen m.config.numHeads layer.qProj layer.qNorm with
    ⟨q, hq, hqheads, hqtokens, hqdim, hqat⟩
  rcases rope_project T layer hfits.headDim_even hlen m.config.numKvHeads layer.kProj layer.kNorm with
    ⟨k, hk, hkheads, hktokens, hkdim, hkat⟩
  have hloc : outLoc pool s.tableIdx s.positions =
      some (s.positions.map (pool.pageTable s.tableIdx)) := by
    refine if_pos fun p hp => Nat.lt_of_lt_of_le ?_ hplaces.stop_le
    exact (List.mem_range'_1.mp hp).2
  have hkholds : Holds pool s hs (layer.key T m.config) k :=
    ⟨hkheads.trans hfits.numKvHeads_eq.symm, hktokens, hkdim.trans hfits.headDim_eq.symm, hkat⟩
  have hvholds : Holds pool s hs (fun _ => layer.headOf T m.config layer.vProj)
      (project m.config.hiddenSize m.config.numKvHeads m.config.headDim layer.vProj
        (hs.map (rmsNorm T m.config.hiddenSize layer.inputLayernorm))) :=
    ⟨hfits.numKvHeads_eq.symm, by simp [project, hlen], hfits.headDim_eq.symm,
      fun token h hh head => project_apply hh head⟩
  rcases writeKv_slice hlayer hfits hplaces hlen hkholds hvholds with ⟨pool', hwrite, hsame, hentry⟩
  refine ⟨pool', ?_, hsame, hentry⟩
  rcases attend_slice (hfits.of_sameShape hsame) hlayer heager hcut hget
    (hplaces.of_sameShape hsame) hlen hqheads hqtokens hqdim hqat with ⟨ans, hans, hreal⟩
  have hnumbers : ∀ head < m.config.numHeads, ∀ token < s.tokens.length, ∀ x < m.config.headDim,
      ans head token x = some (layer.attention T m.config (s.start + token) (hs.getD token 0)
        (CausalModel.read (pool'.pageTable s.tableIdx) (pool'.entry l) (s.start + token + 1)) head
          x) := by
    intro head hhead token htoken x hx
    have hh : hs[token]? = some hs[token] := List.getElem?_eq_getElem (hlen ▸ htoken)
    rw [hreal head hhead token _ hh x hx, List.getD_eq_getElem?_getD, hh, Option.getD_some]
  rcases concatHeads_eq hnumbers with ⟨rows, hrows, hrow⟩
  have hout : List.zipWith (layer.feedForward T m.config) hs (rows.map
      (linear (m.config.numHeads * m.config.headDim) layer.oProj)) = out.2 := by
    have hruns : out.2 = (hs.zipIdx s.start).map fun x => (m.layered T).attend l x.2 x.1
      (CausalModel.read (pool.pageTable s.tableIdx) out.1 (x.2 + 1)) := rfl
    rw [hruns]
    refine List.ext_getElem? fun i => ?_
    rw [List.getElem?_map, List.getElem?_zipIdx, List.getElem?_zipWith, List.getElem?_map]
    cases hh : hs[i]? with
    | none => rfl
    | some h =>
        have hi : i < s.tokens.length := hlen ▸ (List.getElem?_eq_some_iff.mp hh).1
        have hread : CausalModel.read (pool'.pageTable s.tableIdx) (pool'.entry l) (s.start + i + 1) =
            CausalModel.read (pool.pageTable s.tableIdx) out.1 (s.start + i + 1) := by
          rw [hsame.pageTable_eq]
          refine CausalModel.read_congr fun j hj => ?_
          rw [hentry l _ (hplaces.slot_lt j (by omega)), if_pos rfl]
        rw [hrow i hi layer.oProj, hread, List.getD_eq_getElem?_getD, hh, Option.getD_some]
        simp only [Option.map_some, Qwen3ForCausalLM.layered, hlayer, Option.elim_some, output]
  simp only [forward, selfAttn, hq, hk, hloc, hwrite, Option.bind_eq_bind, Option.bind_some, hkheads,
    hans, hqheads, hqdim, hqtokens, hrows]
  exact congrArg some (Prod.ext rfl hout)

end Qwen3DecoderLayer

/-! ### A batch -/

namespace Qwen3ForCausalLM

open CausalModel

variable {K : Type} [Field K] [LinearOrder K] {T : TorchMath K} {m : Qwen3ForCausalLM K} {b : Nat}
  {pool : KVPool K} {attnBackend : TritonAttentionBackend} {batch : AttnBatch}
  {slices : List Slice} {s : Slice} {mem : Slot → LayeredModel.Value (Nat → K) (KvEntry K)}

/-- The pool holds what the layers keep. -/
def Stands (pool : KVPool K) (mem : Slot → LayeredModel.Value (Nat → K) (KvEntry K)) : Prop :=
  ∀ l < pool.numLayers, ∀ slot < pool.numSlots, pool.entry l slot = (mem slot).kept l

/-- The layers from `l` on, over what the layers before gave. -/
theorem runLayers_eq (hfits : m.Fits pool) (heager : attnBackend.capturing = false)
    (hcut : batch.Cut slices) (hget : slices[b]? = some s) (hplaces : pool.Places s)
    (layerMem : Nat → Slot → KvEntry K) :
    ∀ (n l : Nat) (pool' : KVPool K), l + n = m.layers.length → pool.SameShape pool' →
      let before := (m.layered T).runLayers (pool.pageTable s.tableIdx) s.start s.tokens layerMem l
      let after := (m.layered T).runLayers (pool.pageTable s.tableIdx) s.start s.tokens layerMem
        m.layers.length
      (∀ l' < pool.numLayers, ∀ slot < pool.numSlots, pool'.entry l' slot = before.1 l' slot) →
      ∃ pool'', m.runLayers T s.positions s.tableIdx attnBackend batch (m.layers.zipIdx.drop l) pool'
          before.2 = some (pool'', after.2) ∧ pool.SameShape pool'' ∧
        ∀ l' < pool.numLayers, ∀ slot < pool.numSlots, pool''.entry l' slot = after.1 l' slot := by
  intro n
  induction n with
  | zero =>
      intro l pool' hl hsame before after hentry
      obtain rfl : l = m.layers.length := by omega
      rw [List.drop_of_length_le (by simp)]
      exact ⟨pool', rfl, hsame, hentry⟩
  | succ n ih =>
      intro l pool' hl hsame before after hentry
      have hlt : l < m.layers.length := by omega
      have hlayer : m.layers[l]? = some m.layers[l] := List.getElem?_eq_getElem hlt
      have hlen : before.2.length = s.tokens.length := LayeredModel.length_runLayers _ _ _ _ _
      rcases Qwen3DecoderLayer.forward_eq (T := T) hlayer (hfits.of_sameShape hsame) heager hcut hget
        (hplaces.of_sameShape hsame) hlen with ⟨pool1, hforward, hsame1, hentry1⟩
      rw [hsame.pageTable_eq] at hforward hentry1
      have hvalid : ∀ slot, slot < pool.numSlots → pool'.entry l slot = before.1 l slot :=
        hentry l (hfits.lt_numLayers hlayer)
      have hrow : ∀ p < s.start + before.2.length, pool.pageTable s.tableIdx p < pool.numSlots :=
        fun p hp => hplaces.slot_lt p (hlen ▸ hp)
      rcases LayeredModel.runLayer_congr (m := m.layered T) (l := l) hvalid hrow with ⟨hout, hwritten⟩
      rw [List.drop_eq_getElem_cons (by simpa using hlt), List.getElem_zipIdx, runLayers, Nat.zero_add,
        hforward]
      simp only [Option.bind_eq_bind, Option.bind_some, hout]
      refine ih (l + 1) pool1 (by omega) (hsame.trans hsame1) fun l' hl' slot hslot => ?_
      have hupdate : ((m.layered T).runLayers (pool.pageTable s.tableIdx) s.start s.tokens layerMem
          (l + 1)).1 l' slot = if l' = l then ((m.layered T).runLayer (pool.pageTable s.tableIdx)
            s.start l (before.1 l) before.2).1 slot else before.1 l' slot := by
        change Function.update before.1 l _ l' slot = _
        rw [Function.update_apply]
        split
        · rfl
        · rfl
      rw [hupdate, hentry1 l' slot (hsame.numSlots_eq.symm ▸ hslot)]
      split
      · exact hwritten slot hslot
      · exact hentry l' hl' slot hslot

/-- The layers over a slice do what the layered model does to its share. -/
theorem runLayers_share (hfits : m.Fits pool) (heager : attnBackend.capturing = false)
    (hcut : batch.Cut slices) (hget : slices[b]? = some s) (hplaces : pool.Places s)
    (hstands : Stands pool mem) :
    let x := s.share pool.pageTable
    let written := (m.layered T).causal.write x.row mem x.start x.toks
    ∃ pool' h last, m.runLayers T s.positions s.tableIdx attnBackend batch m.layers.zipIdx pool
        (s.tokens.map m.embedTokens) = some (pool', h) ∧ pool.SameShape pool' ∧ Stands pool' written ∧
      h.getLast? = some last ∧
      Sampler.argmax m.config.vocabSize (m.logits T last) =
        (m.layered T).causal.next (read x.row written x.stop) := by
  intro x written
  have hne : s.tokens ≠ [] := by
    rcases hcut.exists_req hget with ⟨req, -, hshare⟩
    exact List.ne_nil_of_length_pos hshare.tokens_pos
  rcases m.runLayers_eq (T := T) hfits heager hcut hget hplaces (LayeredModel.keptOf mem)
    m.layers.length 0 pool (Nat.zero_add _) (.refl pool) hstands with ⟨pool', hruns, hsame, hentry⟩
  rcases LayeredModel.runLayers_share (m := m.layered T) (x := x) hplaces.fresh mem hne with
    ⟨hkept, hlast⟩
  rcases Option.map_eq_some_iff.mp hlast with ⟨last, hlast, hhead⟩
  refine ⟨pool', _, last, hruns, hsame, fun l hl slot hslot => ?_, hlast, hhead⟩
  have hl' : l < m.layers.length := by rwa [← hfits.numLayers_eq, ← hsame.numLayers_eq]
  rw [hentry l (hsame.numLayers_eq ▸ hl) slot (hsame.numSlots_eq ▸ hslot)]
  exact hkept l hl' slot

/-- The tokens of a request are together in the flat ids. -/
theorem tokens_drop (hget : slices[b]? = some s) :
    (slices.flatMap Slice.tokens).drop (AttnBatch.Cut.offset slices b) =
      s.tokens ++ (slices.drop (b + 1)).flatMap Slice.tokens := by
  rcases List.getElem?_eq_some_iff.mp hget with ⟨hb, rfl⟩
  have hlen : ((slices.take b).flatMap Slice.tokens).length = AttnBatch.Cut.offset slices b :=
    List.length_flatMap
  have hsplit : slices.flatMap Slice.tokens =
      (slices.take b).flatMap Slice.tokens ++ (slices.drop b).flatMap Slice.tokens := by
    rw [← List.flatMap_append, List.take_append_drop]
  rw [hsplit, List.drop_left' hlen, ← List.flatMap_cons, ← List.drop_eq_getElem_cons hb]

theorem offset_concat (hget : slices[b]? = some s) :
    AttnBatch.Cut.offset slices (b + 1) = AttnBatch.Cut.offset slices b + s.tokens.length := by
  rcases List.getElem?_eq_some_iff.mp hget with ⟨hb, rfl⟩
  simp only [AttnBatch.Cut.offset, List.take_succ_eq_append_getElem hb, List.map_append,
    List.sum_append, List.map_singleton, List.sum_singleton]

/-- The number of tokens that the walk takes for a request. -/
theorem extendLen_eq (hcut : batch.Cut slices) (hget : slices[b]? = some s) :
    extendLen batch b = some s.tokens.length := by
  rcases hcut.exists_req hget with ⟨req, -, hshare⟩
  have hlen := hshare.stepLen_eq
  rw [stepLen] at hlen
  rw [extendLen]
  split
  · next hphase => rw [← hlen, if_pos hphase]
  · rw [hcut.extendLens_eq, List.getElem?_map, hget, Option.map_some]

/-- The walk over the requests is the forward over their shares. -/
theorem walk_eq (heager : attnBackend.capturing = false) (hcut : batch.Cut slices) :
    ∀ {n : Nat} {reqs : List Req} {rest : List Slice} {pool : KVPool K}
      {mem : Slot → LayeredModel.Value (Nat → K) (KvEntry K)}, batch.reqs.drop n = reqs →
      slices.drop n = rest → m.Fits pool → (∀ s ∈ rest, pool.Places s) → Stands pool mem →
      let res := (m.layered T).causal.forward mem (rest.map (Slice.share pool.pageTable))
      ∃ pool' out, m.walk T ((slices.flatMap Slice.tokens).map m.embedTokens) batch.positions
          attnBackend batch (reqs.zipIdx n) (AttnBatch.Cut.offset slices n) pool = some (pool', out) ∧
        pool.SameShape pool' ∧ Stands pool' res.1 ∧
        out.map (fun last => Sampler.argmax m.config.vocabSize
          (Qwen3.linear m.config.hiddenSize m.lmHead last)) = res.2 := by
  intro n reqs
  induction reqs generalizing n with
  | nil =>
      intro rest pool mem hreqs hrest hfits hplaces hstands
      have hnil : rest = [] := by
        have hlen := hcut.shares.length_eq
        rw [List.drop_eq_nil_iff, hlen] at hreqs
        rw [← hrest, List.drop_eq_nil_iff]
        exact hreqs
      subst hnil
      exact ⟨pool, [], rfl, .refl pool, hstands, rfl⟩
  | cons req reqs ih =>
      intro rest pool mem hreqs hrest hfits hplaces hstands
      have hlt : n < batch.reqs.length := by
        by_contra hge
        rw [List.drop_eq_nil_of_le (by omega)] at hreqs
        cases hreqs
      have hlt' : n < slices.length := hcut.shares.length_eq ▸ hlt
      have hget := List.getElem?_eq_getElem hlt'
      rw [List.drop_eq_getElem_cons hlt, List.cons.injEq] at hreqs
      rw [List.drop_eq_getElem_cons hlt'] at hrest
      subst hrest
      have hrow : req.tableIdx = slices[n].tableIdx := by
        rcases hcut.exists_req hget with ⟨req', hreq', hshare⟩
        rw [List.getElem?_eq_getElem hlt, hreqs.1, Option.some.injEq] at hreq'
        rw [hreq', hshare.row_eq]
      rcases runLayers_share (T := T) hfits heager hcut hget (hplaces _ List.mem_cons_self)
        hstands with ⟨pool1, h, last, hruns, hsame1, hstands1, hlast, hhead⟩
      rcases ih (n := n + 1) hreqs.2 rfl (hfits.of_sameShape hsame1)
        (fun s hs => (hplaces s (List.mem_cons_of_mem _ hs)).of_sameShape hsame1) hstands1 with
        ⟨pool2, out, hwalk, hsame2, hstands2, hout⟩
      rw [hsame1.pageTable_eq] at hstands2 hout
      have hpositions : (batch.positions.drop (AttnBatch.Cut.offset slices n)).take
          slices[n].tokens.length = slices[n].positions := by
        rw [hcut.positions_drop hget, ← Slice.length_positions, List.take_left]
      have htokens : ((((slices.flatMap Slice.tokens).map m.embedTokens).drop
          (AttnBatch.Cut.offset slices n)).take slices[n].tokens.length) =
            slices[n].tokens.map m.embedTokens := by
        rw [← List.map_drop, tokens_drop hget, ← List.map_take, List.take_left]
      rw [offset_concat hget] at hwalk
      refine ⟨pool2, Qwen3.rmsNorm T m.config.hiddenSize m.norm last :: out, ?_, hsame1.trans hsame2,
        hstands2, ?_⟩
      · rw [List.zipIdx_cons, walk, extendLen_eq hcut hget]
        simp only [Option.bind_eq_bind, Option.bind_some, hpositions, htokens, hrow, hruns,
          List.getLast?_map, hlast, Option.map_some, hwalk]
        rfl
      · rw [List.map_cons, hout]
        exact congrArg (· :: _) hhead

/-- The forward over a batch is the one of the layered model, and the greedy tokens are its. -/
theorem forward_eq (heager : attnBackend.capturing = false) (hcut : batch.Cut slices)
    (hfits : m.Fits pool) (hplaces : ∀ s ∈ slices, pool.Places s) (hstands : Stands pool mem)
    (hids : ∀ tok ∈ slices.flatMap Slice.tokens, tok < m.config.vocabSize) :
    let res := (m.layered T).causal.forward mem (slices.map (Slice.share pool.pageTable))
    ∃ pool' logits, m.forward T attnBackend batch (slices.flatMap Slice.tokens) pool =
        some (pool', logits) ∧ pool.SameShape pool' ∧ Stands pool' res.1 ∧
      logits.map (Sampler.argmax m.config.vocabSize) = res.2 := by
  intro res
  rcases m.walk_eq (T := T) heager hcut (n := 0) List.drop_zero
    List.drop_zero hfits hplaces hstands with
    ⟨pool', out, hwalk, hsame, hstands', hout⟩
  refine ⟨pool', out.map (Qwen3.linear m.config.hiddenSize m.lmHead), ?_, hsame, hstands', ?_⟩
  · rw [forward, embed, if_pos hids]
    change (m.walk T _ batch.positions attnBackend batch (batch.reqs.zipIdx 0)
      (AttnBatch.Cut.offset slices 0) pool).bind _ = _
    rw [hwalk]
    rfl
  · rw [List.map_map]
    exact hout

end Qwen3ForCausalLM

namespace Engine

variable {K : Type} [Field K] [LinearOrder K] {e e' : Engine} {sampled : Nat → Token}
  {out : StepOutput}

/-- The forward of a step of a run: the tokens of each request are taken on, layer by layer and from
what the pool holds of it, as one after the other. -/
theorem qwen3_forward {config : EngineConfig} {calls : List Call} (hrun : runs config calls = some e)
    (hstep : e.step sampled = .ok (out, e')) (T : TorchMath K) (m : Qwen3ForCausalLM K)
    {pool : KVPool K} (hfits : m.Fits pool) (hplaces : ∀ s ∈ out.slices, pool.Places s)
    {mem : Slot → LayeredModel.Value (Nat → K) (KvEntry K)}
    (hstands : Qwen3ForCausalLM.Stands pool mem)
    (hids : ∀ tok ∈ out.slices.flatMap Slice.tokens, tok < m.config.vocabSize) :
    let res := (m.layered T).causal.forward mem (out.slices.map (Slice.share pool.pageTable))
    ∃ pool' logits, m.forward T {} out.attnBatch (out.slices.flatMap Slice.tokens) pool =
        some (pool', logits) ∧ pool.SameShape pool' ∧ Qwen3ForCausalLM.Stands pool' res.1 ∧
      logits.map (Sampler.argmax m.config.vocabSize) = res.2 :=
  Qwen3ForCausalLM.forward_eq rfl (attnBatch_cut hrun hstep) hfits hplaces hstands hids

/-- The functions of torch, over the reals. -/
noncomputable def realMath : TorchMath ℝ where
  exp := Real.exp
  rsqrt := fun x => 1 / √x
  trig := Trig.real
  invSqrt := fun d => 1 / √d
  eps := 1 / 8388608

/-- The weights of a layer, no two rows or columns of which are alike. -/
def numberedLayer (K : Type) [Field K] (l : Nat) : Qwen3DecoderLayer K where
  inputLayernorm := fun i => (1 + l + i : ℤ)
  qProj := fun o i => (1 + l + 2 * o + i : ℤ)
  kProj := fun o i => (2 + l - o + 3 * i : ℤ)
  vProj := fun o i => (3 - l + o - 2 * i : ℤ)
  oProj := fun o i => (1 + l - o + i : ℤ)
  qNorm := fun x => (1 + l + x : ℤ)
  kNorm := fun x => (2 + l - x : ℤ)
  postAttentionLayernorm := fun i => (2 - l + i : ℤ)
  gateProj := fun o i => (l - o + 2 * i : ℤ)
  upProj := fun o i => (1 + l + o - i : ℤ)
  downProj := fun o i => (2 - l - o + i : ℤ)

/-- Two layers of four query heads over two key heads. -/
def numberedQwen3 (K : Type) [Field K] : Qwen3ForCausalLM K where
  config := {
    hiddenSize := 2
    vocabSize := 10
    numHeads := 4
    numKvHeads := 2
    headDim := 2
    intermediateSize := 3
    ropeTheta := (10000 : ℕ) }
  embedTokens := fun tok i => (tok - 3 * i : ℤ)
  layers := [numberedLayer K 0, numberedLayer K 1]
  norm := fun i => (1 + i : ℤ)
  lmHead := fun o i => (o - 4 * i : ℤ)

/-- Whatever the two buffers hold. -/
def numberedPool : KVPool ℝ where
  numLayers := 2
  numSlots := 8
  numKvHeads := 2
  headDim := 2
  kBuffer := fun i => i
  vBuffer := fun i => -i
  maxSeqLen := 4
  pageTable := fun _ p => p + 1

/-- The prefill of three tokens. -/
theorem threeTokens_forward : ∃ e e' out, runs singleRow [.addRequest
      { uid := 0, inputIds := [7, 8, 9], samplingParams := { maxTokens := 1 } }] = some e ∧
    e.step (fun _ => 5) = .ok (out, e') ∧ out.slices = [⟨0, 0, [7, 8, 9]⟩] ∧
    let mem : Slot → LayeredModel.Value (Nat → ℝ) (KvEntry ℝ) := fun slot =>
      ⟨fun l => numberedPool.entry l slot, 0⟩
    let res := ((numberedQwen3 ℝ).layered realMath).causal.forward mem
      [(⟨0, 0, [7, 8, 9]⟩ : Slice).share numberedPool.pageTable]
    ∃ pool' logits, (numberedQwen3 ℝ).forward realMath {} out.attnBatch [7, 8, 9] numberedPool =
        some (pool', logits) ∧ numberedPool.SameShape pool' ∧
      Qwen3ForCausalLM.Stands pool' res.1 ∧ logits.map (Sampler.argmax 10) = res.2 := by
  have hsteps : ((runs singleRow [.addRequest
      { uid := 0, inputIds := [7, 8, 9], samplingParams := { maxTokens := 1 } }]).bind fun e =>
        (e.step fun _ => 5).toOption.map fun r => r.1.slices) = some [⟨0, 0, [7, 8, 9]⟩] := by
    decide +kernel
  obtain ⟨e, hrun, hmap⟩ := Option.bind_eq_some_iff.mp hsteps
  obtain ⟨⟨out, e'⟩, hopt, hslices⟩ := Option.map_eq_some_iff.mp hmap
  have hstep := toOption_eq_some.mp hopt
  have hfits : (numberedQwen3 ℝ).Fits numberedPool := ⟨rfl, rfl, rfl, rfl, rfl⟩
  have hplaces : ∀ s ∈ out.slices, numberedPool.Places s := by
    intro s hs
    rw [hslices, List.mem_singleton] at hs
    subst hs
    refine ⟨by decide, fun p hp => ?_, fun p _ _ j hj => ?_⟩
    · exact Nat.lt_of_lt_of_le (Nat.succ_lt_succ hp) (by decide)
    · exact fun heq => hj.ne (Nat.succ.inj heq)
  have hstands : Qwen3ForCausalLM.Stands numberedPool fun slot =>
      ⟨fun l => numberedPool.entry l slot, 0⟩ := fun _ _ _ _ => rfl
  have hforward := qwen3_forward hrun hstep realMath (numberedQwen3 ℝ) hfits hplaces hstands
    (by rw [hslices]; decide)
  rw [hslices] at hforward
  exact ⟨e, e', out, hrun, hstep, hslices, hforward⟩

end Engine

end FreeToken
