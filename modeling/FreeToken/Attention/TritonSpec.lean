import Mathlib.Analysis.Complex.Exponential
import FreeToken.Attention.Triton
import FreeToken.Engine.Books
import FreeToken.Lib.Except
import FreeToken.Lib.OnlineSoftmax

/-!
# The reference attention, by the softmax

What the attention backends read off a batch of a step, request by request: the slice of the
request, where its tokens are in the flat tensors, and how much of its history is in the pool.

A row of `probs @ v_all` is the softmax over the allowed keys; a sink is one more key, with no
value. The keys that a captured forward reads beyond the history are masked, so it answers what
the eager one does, and the walk over a batch answers what its requests' own forwards do.
-/

namespace FreeToken

/-! ### The batches of a step -/

theorem length_readRange {ids : List Token} : ∀ {n : Nat} {start : Int} {toks : List Token},
    readRange ids start n = some toks → toks.length = n
  | 0, _, _, h => by
      cases h
      rfl
  | n + 1, start, toks, h => by
      rw [readRange] at h
      split at h
      · next tok rest _ hrest =>
          cases h
          rw [List.length_cons, length_readRange hrest]
      · cases h

theorem Req.length_slice_prefill {req : Req} {s : Slice} (h : req.slice .prefill = some s) :
    s.tokens.length = req.extendLen.toNat := by
  rcases Option.map_eq_some_iff.mp h with ⟨toks, htoks, rfl⟩
  exact length_readRange htoks

namespace BatchTensors

@[simp] theorem positions_ofSlices (ss : List Slice) :
    (ofSlices ss).positions = ss.flatMap Slice.positions := by
  induction ss with
  | nil => rfl
  | cons s ss ih => rw [ofSlices, List.flatMap_cons, ih]

@[simp] theorem extendLens_ofSlices (ss : List Slice) :
    (ofSlices ss).extendLens = ss.map fun s => s.tokens.length := by
  induction ss with
  | nil => rfl
  | cons s ss ih => rw [ofSlices, List.map_cons, ih]

end BatchTensors

@[simp] theorem Slice.length_positions (s : Slice) : s.positions.length = s.tokens.length :=
  List.length_range'

/-- The new tokens of a request, as both walks over a batch count them. -/
def stepLen (phase : Phase) (req : Req) : Nat :=
  if phase = .decode then 1 else req.extendLen.toNat

/-- `s` is the share of `req` in a batch. -/
structure Shares (phase : Phase) (req : Req) (s : Slice) : Prop where
  row_eq : req.tableIdx = s.tableIdx
  tokens_pos : 0 < s.tokens.length
  stepLen_eq : stepLen phase req = s.tokens.length
  /-- The history ends with the new tokens. -/
  history_eq : (if phase = .decode then (req.deviceLen : Int)
    else req.cachedLen + s.tokens.length) = (s.start + s.tokens.length : Nat)

theorem Shares.writtenLen_eq {phase : Phase} {req : Req} {s : Slice} (h : Shares phase req s) :
    TritonAttentionBackend.writtenLen phase req s.tokens.length = s.start + s.tokens.length := by
  have hhistory := h.history_eq
  rw [TritonAttentionBackend.writtenLen]
  split at hhistory
  · next hphase => rw [if_pos hphase]; omega
  · next hphase => rw [if_neg hphase]; omega

/-- The slices of a batch. -/
structure AttnBatch.Cut (batch : AttnBatch) (slices : List Slice) : Prop where
  shares : List.Forall₂ (Shares batch.phase) batch.reqs slices
  rows_nodup : (batch.reqs.map Req.tableIdx).Nodup
  positions_eq : batch.positions = slices.flatMap Slice.positions
  extendLens_eq : batch.extendLens = slices.map fun s => s.tokens.length

namespace AttnBatch.Cut

variable {batch : AttnBatch} {slices : List Slice} (h : batch.Cut slices)
include h

theorem exists_req {b : Nat} {s : Slice} (hs : slices[b]? = some s) :
    ∃ req, batch.reqs[b]? = some req ∧ Shares batch.phase req s := by
  rcases List.getElem?_eq_some_iff.mp hs with ⟨hb, rfl⟩
  have hlt : b < batch.reqs.length := h.shares.length_eq ▸ hb
  exact ⟨_, List.getElem?_eq_getElem hlt, List.Forall₂.get h.shares hlt hb⟩

theorem findIdx_eq {b : Nat} {s : Slice} (hs : slices[b]? = some s) :
    (batch.reqs.findIdx? fun r => r.tableIdx = s.tableIdx) = some b := by
  rcases h.exists_req hs with ⟨req, hreq, hshare⟩
  rcases List.getElem?_eq_some_iff.mp hreq with ⟨hb, rfl⟩
  rw [List.findIdx?_eq_some_iff_getElem]
  refine ⟨hb, by simpa using hshare.row_eq, fun j hj => ?_⟩
  have hrows := List.pairwise_iff_getElem.mp (List.pairwise_map.mp h.rows_nodup) j b (hj.trans hb) hb hj
  rw [hshare.row_eq] at hrows
  simpa using hrows

/-- A request is found by its row. -/
theorem locate_eq {b : Nat} {s : Slice} {req : Req} (hs : slices[b]? = some s)
    (hreq : batch.reqs[b]? = some req) : batch.locate s.tableIdx = some (b, req) := by
  simp [locate, h.findIdx_eq hs, hreq]

/-- The flat position of the first token of a request. -/
def offset (slices : List Slice) (b : Nat) : Nat := ((slices.take b).map fun s => s.tokens.length).sum

theorem stepLens_eq : batch.reqs.map (stepLen batch.phase) = slices.map fun s => s.tokens.length := by
  rw [← List.forall₂_eq_eq_eq, List.forall₂_map_left_iff, List.forall₂_map_right_iff]
  exact h.shares.imp fun _ _ hshare => hshare.stepLen_eq

/-- The tokens of a request are together in the flat tensors. -/
theorem positions_drop {b : Nat} {s : Slice} (hs : slices[b]? = some s) :
    batch.positions.drop (offset slices b) =
      s.positions ++ (slices.drop (b + 1)).flatMap Slice.positions := by
  rcases List.getElem?_eq_some_iff.mp hs with ⟨hb, rfl⟩
  have hlen : ((slices.take b).flatMap Slice.positions).length = offset slices b := by
    simp [offset, List.length_flatMap]
  have hsplit : slices.flatMap Slice.positions =
      (slices.take b).flatMap Slice.positions ++ (slices.drop b).flatMap Slice.positions := by
    rw [← List.flatMap_append, List.take_append_drop]
  rw [h.positions_eq, hsplit, List.drop_left' hlen, ← List.flatMap_cons,
    ← List.drop_eq_getElem_cons hb]

theorem requestPositions_eq {b : Nat} {s : Slice} (hs : slices[b]? = some s) :
    TritonAttentionBackend.requestPositions batch s.tableIdx s.tokens.length = s.positions := by
  have hbefore : (batch.reqs.takeWhile fun r => r.tableIdx ≠ s.tableIdx) = batch.reqs.take b := by
    rw [List.takeWhile_eq_take_findIdx_not]
    congr 1
    have hfind := h.findIdx_eq hs
    rw [List.findIdx?_eq_some_iff_findIdx_eq] at hfind
    simpa using hfind.2
  have hoffset : ((batch.reqs.take b).map (stepLen batch.phase)).sum = offset slices b := by
    rw [offset, List.map_take, List.map_take, h.stepLens_eq]
  rw [TritonAttentionBackend.requestPositions]
  simp only [hbefore]
  change ((batch.positions.drop ((batch.reqs.take b).map (stepLen batch.phase)).sum).take _) = _
  rw [hoffset, h.positions_drop hs, ← s.length_positions, List.take_left]

end AttnBatch.Cut

namespace Engine.StepRun

variable {e e' : Engine} {t : Transcript} {sampled : Nat → Token} {out : StepOutput} {s1 : Scheduler}
  {e2 : Engine}

theorem shares (h : StepRun e sampled out e' s1 e2) (hs : e.scheduler.Ok) (hr : Recorded e t)
    {req : Req} (hreq : req ∈ out.batch.reqs) {s : Slice} (hslice : req.slice out.batch.phase = some s) :
    Shares out.batch.phase req s := by
  rw [← h.map_snd_rounds] at hreq
  rcases List.mem_map.mp hreq with ⟨x, hx, rfl⟩
  rcases h.advanced hs hr hx with ⟨y, -, s', -, hslice', hadv, -⟩
  cases hslice.symm.trans hslice'
  have hpos : 0 < s.tokens.length := List.length_pos_of_ne_nil hadv.tokens_ne_nil
  have hend : s.start + s.tokens.length = x.2.deviceLen := by
    have hlt := hadv.done_lt
    rw [hadv.length_tokens, hadv.start_eq]
    exact Nat.add_sub_cancel' (Nat.le_of_lt hlt)
  cases hphase : out.batch.phase with
  | prefill =>
      rw [hphase] at hslice
      have hlen := Req.length_slice_prefill hslice
      have hstart : s.start = x.2.cachedLen.toNat := by
        rcases Option.map_eq_some_iff.mp hslice with ⟨toks, -, rfl⟩
        rfl
      have hrow : x.2.tableIdx = s.tableIdx := by
        rcases Option.map_eq_some_iff.mp hslice with ⟨toks, -, rfl⟩
        rfl
      refine ⟨hrow, hpos, hlen.symm, ?_⟩
      -- a chunk that started before the prompt would be longer than it
      rw [Req.extendLen] at hlen
      simp only [reduceCtorEq, if_false]
      omega
  | decode =>
      rw [hphase] at hslice
      rcases Option.map_eq_some_iff.mp hslice with ⟨tok, -, rfl⟩
      refine ⟨rfl, hpos, rfl, ?_⟩
      simp only [if_true, hend]

/-- The slices of a step are the shares of its requests. -/
theorem cut (h : StepRun e sampled out e' s1 e2) (hs : e.scheduler.Ok) (hr : Recorded e t) :
    out.attnBatch.Cut out.slices where
  shares := by
    refine List.forall₂_iff_get.mpr ⟨h.forall₂_slices.length_eq, fun b hb hb' => ?_⟩
    exact h.shares hs hr (List.get_mem _ _) (List.Forall₂.get h.forall₂_slices hb hb')
  rows_nodup := (h.stepped hs).rows_nodup
  positions_eq := BatchTensors.positions_ofSlices _
  extendLens_eq := BatchTensors.extendLens_ofSlices _

end Engine.StepRun

/-! ### The softmax -/

open OnlineSoftmax

variable {K : Type} [Field K] {exp : K → K}

/-- A key and a value of a row, and whether the key is allowed. -/
abbrev RowKey (K : Type) : Type := (Nat → K) × (Nat → K) × Bool

/-- The score of a key in a row, and the element `x` of its value. -/
def RowKey.scored (q : Nat → K) (headDim : Nat) (scale : K) (x : Nat) (key : RowKey K) :
    Option K × K :=
  (if key.2.2 then some ((∑ x ∈ Finset.range headDim, q x * key.1 x) * scale) else none,
    key.2.1 x)

/-- The column of a sink. -/
def sinkKey (sink : Option K) : List (Option K × K) := (sink.map fun s => (some s, 0)).toList

section Rows

variable {q : Nat → K} {headDim : Nat} {scale : K} {sink : Option K} {keys masked : List (RowKey K)}

theorem torchSoftmax_of_mem {row : List (Option K)} {s : K} (h : some s ∈ row) :
    torchSoftmax exp row = some (row.map fun s => weight exp s / (row.map (weight exp)).sum) := by
  have hexp : (fun s : Option K => (s.map exp).getD 0) = weight exp := by
    funext s
    cases s <;> rfl
  rw [torchSoftmax, if_neg, ← hexp]
  rintro ⟨-, hall⟩
  cases hall _ h

theorem torchSoftmax_of_masked {row : List (Option K)} (hne : row ≠ [])
    (h : ∀ s ∈ row, s = none) : torchSoftmax exp row = none :=
  if_pos ⟨hne, h⟩

/-- Some key is allowed, or there is a sink. -/
def Attends (sink : Option K) (keys : List (RowKey K)) : Prop :=
  sink.isSome ∨ ∃ key ∈ keys, key.2.2 = true

/-- The scores of a row do not depend on the element of the values. -/
theorem row_eq (q : Nat → K) (headDim : Nat) (scale : K) (sink : Option K) (keys : List (RowKey K))
    (x : Nat) :
    (keys.map fun key => if key.2.2 then
        some ((∑ x ∈ Finset.range headDim, q x * key.1 x) * scale) else none) ++
      (sink.map some).toList =
      (keys.map (RowKey.scored q headDim scale x) ++ sinkKey sink).map Prod.fst := by
  rw [List.map_append, List.map_map]
  cases sink <;> rfl

/-- The matrix product drops the column of the sink. -/
theorem sum_zipWith (score : RowKey K → Option K) (total : K) (x : Nat) (rest : List (Option K))
    (keys : List (RowKey K)) :
    (List.zipWith (fun p (key : RowKey K) => p * key.2.1 x)
        ((keys.map score ++ rest).map fun s => weight exp s / total) keys).sum =
      total⁻¹ * (keys.map fun key => weight exp (score key) * key.2.1 x).sum := by
  induction keys with
  | nil => simp
  | cons key keys ih =>
      simp only [List.map_cons, List.cons_append, List.zipWith_cons_cons, List.sum_cons, ih]
      rw [mul_add, div_mul_eq_mul_div, div_eq_inv_mul]

theorem attendRow_eq (h : Attends sink keys) (x : Nat) :
    TritonAttentionBackend.attendRow exp q headDim scale sink keys x =
      some (softmax exp (keys.map (RowKey.scored q headDim scale x) ++ sinkKey sink)) := by
  have hmem : ∃ s, some s ∈
      (keys.map (RowKey.scored q headDim scale x) ++ sinkKey sink).map Prod.fst := by
    rcases h with h | ⟨key, hkey, hallowed⟩
    · rcases Option.isSome_iff_exists.mp h with ⟨s, rfl⟩
      exact ⟨s, by simp [sinkKey]⟩
    · have hscore : (key.scored q headDim scale x).1 =
          some ((∑ x ∈ Finset.range headDim, q x * key.1 x) * scale) := if_pos hallowed
      exact ⟨_, List.mem_map.mpr
        ⟨_, List.mem_append_left _ (List.mem_map_of_mem hkey), hscore⟩⟩
  rcases hmem with ⟨s, hs⟩
  rw [← row_eq] at hs
  have hsink : weighted exp (sinkKey sink) = 0 := by
    cases sink <;> simp [sinkKey, weighted]
  simp only [TritonAttentionBackend.attendRow, torchSoftmax_of_mem hs, Option.map_some, sum_zipWith,
    Option.some.injEq]
  rw [row_eq q headDim scale sink keys x, softmax, weighted_append, hsink, add_zero, smul_eq_mul]
  simp [total, weighted, RowKey.scored, Function.comp_def]

theorem attendRow_of_masked (h : ¬ Attends sink keys) (hne : keys ≠ []) :
    TritonAttentionBackend.attendRow exp q headDim scale sink keys = fun _ => none := by
  obtain ⟨hsink, hkeys⟩ := not_or.mp h
  obtain rfl : sink = none := Option.not_isSome_iff_eq_none.mp hsink
  funext x
  have hmasked : torchSoftmax exp ((keys.map fun key => if key.2.2 then
      some ((∑ x ∈ Finset.range headDim, q x * key.1 x) * scale) else none) ++ []) = none := by
    refine torchSoftmax_of_masked (by simpa) fun s hs => ?_
    rw [List.append_nil] at hs
    rcases List.mem_map.mp hs with ⟨key, hkey, rfl⟩
    exact if_neg fun hallowed => hkeys ⟨key, hkey, hallowed⟩
  simp only [TritonAttentionBackend.attendRow, Option.map_none, Option.toList_none, hmasked]

/-- Masked keys after the others change nothing. -/
theorem attendRow_append_masked (hmasked : ∀ key ∈ masked, key.2.2 = false) (hne : keys ≠ []) :
    TritonAttentionBackend.attendRow exp q headDim scale sink (keys ++ masked) =
      TritonAttentionBackend.attendRow exp q headDim scale sink keys := by
  have hiff : Attends sink (keys ++ masked) ↔ Attends sink keys := by
    constructor
    · rintro (hsink | ⟨key, hkey, hallowed⟩)
      · exact .inl hsink
      · rcases List.mem_append.mp hkey with hkey | hkey
        · exact .inr ⟨key, hkey, hallowed⟩
        · rw [hmasked key hkey] at hallowed
          cases hallowed
    · exact Or.imp_right fun ⟨key, hkey, hallowed⟩ =>
        ⟨key, List.mem_append_left _ hkey, hallowed⟩
  by_cases h : Attends sink keys
  · funext x
    have hnone : ∀ y ∈ masked.map (RowKey.scored q headDim scale x), y.1 = none := by
      intro y hy
      rcases List.mem_map.mp hy with ⟨key, hkey, rfl⟩
      simp [RowKey.scored, hmasked key hkey]
    rw [attendRow_eq h, attendRow_eq (hiff.mpr h), List.map_append]
    congr 1
    simp [softmax, total_masked hnone, weighted_masked hnone]
  · rw [attendRow_of_masked h hne, attendRow_of_masked (mt hiff.mp h) (by simp [hne])]

end Rows

/-! ### One request -/

namespace KVPool

variable (pool : KVPool K) (tableIdx layer : Nat)

/-- The positions `0 .. n-1` of a row can be read. -/
def Readable (n : Nat) : Prop :=
  n ≤ pool.maxSeqLen ∧ layer < pool.numLayers ∧ ∀ p < n, pool.pageTable tableIdx p < pool.numSlots

omit [Field K] in
variable {pool tableIdx layer} in
theorem Readable.mono {m n : Nat} (h : pool.Readable tableIdx layer n) (hle : m ≤ n) :
    pool.Readable tableIdx layer m :=
  ⟨hle.trans h.1, h.2.1, fun p hp => h.2.2 p (Nat.lt_of_lt_of_le hp hle)⟩

/-- The key and the value of a head at a position. -/
def keyAt (kvHead p : Nat) : Nat → K :=
  fun x => pool.kBuffer (pool.offset layer (pool.pageTable tableIdx p) kvHead x)

def valueAt (kvHead p : Nat) : Nat → K :=
  fun x => pool.vBuffer (pool.offset layer (pool.pageTable tableIdx p) kvHead x)

/-- The keys of a row of scores. -/
def rowKeys (written readLen : Nat) (window : Int) (qPos kvHead : Nat) : List (RowKey K) :=
  (List.range readLen).map fun p =>
    (pool.keyAt tableIdx layer kvHead p, pool.valueAt tableIdx layer kvHead p,
      TritonAttentionBackend.allowed written readLen window qPos p)

omit [Field K] in
theorem readKv_eq (n : Nat) (h : pool.Readable tableIdx layer n) :
    pool.readKv tableIdx n layer = some ((List.range n).map fun p =>
      (fun head x => pool.keyAt tableIdx layer head p x,
        fun head x => pool.valueAt tableIdx layer head p x)) := by
  obtain ⟨hle, hlayer, hslots⟩ := h
  rw [readKv, pageSlots, if_pos hle, Option.bind_some, if_pos, List.map_map]
  · rfl
  · refine ⟨hlayer, fun slot hslot => ?_⟩
    rcases List.mem_map.mp hslot with ⟨p, hp, rfl⟩
    exact hslots p (List.mem_range.mp hp)

omit [Field K] in
theorem readKv_of_not (n : Nat) (h : ¬ pool.Readable tableIdx layer n) :
    pool.readKv tableIdx n layer = none := by
  rw [readKv, pageSlots]
  split
  · next hle =>
      rw [Option.bind_some, if_neg]
      rintro ⟨hlayer, hslots⟩
      exact h ⟨hle, hlayer, fun p hp =>
        hslots _ (List.mem_map_of_mem (List.mem_range.mpr hp))⟩
  · rfl

end KVPool

namespace TritonAttentionBackend

variable {self : TritonAttentionBackend} {pool : KVPool K} {q : Queries K} {qPos : List Nat}
  {tableIdx written kvRepeat layerId : Nat} {scale : K} {window : Int} {sinks : Option (Nat → K)}

/-- The shapes that `_attend_one` needs. -/
def Fits (pool : KVPool K) (q : Queries K) (qPos : List Nat) (kvRepeat : Nat) : Prop :=
  pool.numKvHeads * kvRepeat = q.heads ∧ pool.headDim = q.headDim ∧ qPos.length = q.tokens

variable (exp) in
/-- The answers of a request that reads `readLen` positions. -/
def answers (pool : KVPool K) (tableIdx : Nat) (q : Queries K) (qPos : List Nat)
    (written readLen kvRepeat : Nat) (scale : K) (window : Int) (layerId : Nat)
    (sinks : Option (Nat → K)) (head token : Nat) : Nat → Option K :=
  attendRow exp (q.at' head token) q.headDim scale (sinks.map fun s => s head)
    (pool.rowKeys tableIdx layerId written readLen window (qPos.getD token 0) (head / kvRepeat))

theorem attendOne_eq (hread : pool.Readable tableIdx layerId (self.readLen written))
    (hfits : Fits pool q qPos kvRepeat) :
    self.attendOne exp pool tableIdx q qPos written kvRepeat scale window layerId sinks =
      some (answers exp pool tableIdx q qPos written (self.readLen written) kvRepeat scale window
        layerId sinks) := by
  simp only [attendOne, pool.readKv_eq _ _ _ hread, Option.bind_some]
  refine (if_pos hfits).trans (congrArg some ?_)
  funext head token
  rw [answers, KVPool.rowKeys]
  congr 1
  refine List.ext_getElem (by simp) fun i hi hi' => ?_
  simp

theorem attendOne_eq_some {out : Nat → Nat → Nat → Option K}
    (h : self.attendOne exp pool tableIdx q qPos written kvRepeat scale window layerId sinks =
      some out) :
    pool.Readable tableIdx layerId (self.readLen written) ∧ Fits pool q qPos kvRepeat ∧
      out = answers exp pool tableIdx q qPos written (self.readLen written) kvRepeat scale window
        layerId sinks := by
  by_cases hread : pool.Readable tableIdx layerId (self.readLen written)
  · by_cases hfits : Fits pool q qPos kvRepeat
    · rw [attendOne_eq hread hfits] at h
      cases h
      exact ⟨hread, hfits, rfl⟩
    · simp only [attendOne, pool.readKv_eq _ _ _ hread, Option.bind_some] at h
      cases h.symm.trans (if_neg hfits)
  · simp [attendOne, pool.readKv_of_not _ _ _ hread] at h

theorem le_readLen (self : TritonAttentionBackend) (written : Nat) : written ≤ self.readLen written := by
  simp only [readLen]
  generalize (if self.capturing then self.graphMaxSeqLen else 0) = captureLen
  split <;> omega

omit [Field K] in
/-- What is read beyond the history is masked. -/
theorem rowKeys_of_le (pool : KVPool K) (tableIdx layerId : Nat) (window : Int) {readLen : Nat}
    (hle : written ≤ readLen) (qPos kvHead : Nat) :
    ∃ masked : List (RowKey K), (∀ key ∈ masked, key.2.2 = false) ∧
      pool.rowKeys tableIdx layerId written readLen window qPos kvHead =
        pool.rowKeys tableIdx layerId written written window qPos kvHead ++ masked := by
  rcases Nat.exists_eq_add_of_le hle with ⟨n, rfl⟩
  refine ⟨(List.range n).map fun i => (pool.keyAt tableIdx layerId kvHead (written + i),
    pool.valueAt tableIdx layerId kvHead (written + i),
      allowed written (written + n) window qPos (written + i)), ?_, ?_⟩
  · intro key hkey
    rcases List.mem_map.mp hkey with ⟨i, hi, rfl⟩
    have hi := List.mem_range.mp hi
    simp [allowed, show ¬ (written + n ≤ written) by omega]
  · rw [KVPool.rowKeys, List.range_add, List.map_append, List.map_map]
    refine congrArg₂ _ (List.map_congr_left fun p hp => ?_) rfl
    have hp := List.mem_range.mp hp
    simp [allowed, hp]

/-- A fixed number of keys is read, and the answers are the same. -/
theorem answers_readLen (hpos : 0 < written) {readLen : Nat} (hle : written ≤ readLen) :
    answers exp pool tableIdx q qPos written readLen kvRepeat scale window layerId sinks =
      answers exp pool tableIdx q qPos written written kvRepeat scale window layerId sinks := by
  funext head token
  rcases rowKeys_of_le pool tableIdx layerId window hle (qPos.getD token 0) (head / kvRepeat) with
    ⟨masked, hmasked, heq⟩
  have hne : pool.rowKeys tableIdx layerId written written window (qPos.getD token 0)
      (head / kvRepeat) ≠ [] := by
    simp [KVPool.rowKeys, Nat.ne_of_gt hpos]
  rw [answers, answers, heq, attendRow_append_masked hmasked hne]

theorem attendOne_eager (hpos : 0 < written) {out : Nat → Nat → Nat → Option K}
    (h : self.attendOne exp pool tableIdx q qPos written kvRepeat scale window layerId sinks =
      some out) :
    ({ self with capturing := false } : TritonAttentionBackend).attendOne exp pool tableIdx q qPos
      written kvRepeat scale window layerId sinks = some out := by
  rcases attendOne_eq_some h with ⟨hread, hfits, rfl⟩
  have heager : ({ self with capturing := false } : TritonAttentionBackend).readLen written =
      written := by simp [readLen]
  rw [attendOne_eq (heager.symm ▸ hread.mono (self.le_readLen written)) hfits, heager,
    answers_readLen hpos (self.le_readLen written)]

/-! ### A batch -/

variable {batch : AttnBatch} {slices : List Slice} {invSqrt : Nat → K} {numKv : Nat}
  {attnSpec : Option (AttentionSpec K)} {b : Nat} {s : Slice}

variable (exp) in
/-- The forward of a slice: its rows of the queries against its history. -/
def forwardSlice (self : TritonAttentionBackend) (invSqrt : Nat → K) (pool : KVPool K)
    (heads headDim numKv layerId : Nat) (attnSpec : Option (AttentionSpec K)) (s : Slice)
    (q : Queries K) : Option (Nat → Nat → Nat → Option K) :=
  self.attendOne exp pool s.tableIdx q s.positions (s.start + s.tokens.length) (heads / numKv)
    (invSqrt headDim) (attnWindow attnSpec) layerId (attnSpec.bind fun spec => spec.sinks)

theorem forward_eq (h : batch.Cut slices) (hs : slices[b]? = some s)
    (hq : q.tokens = s.tokens.length) :
    self.forward exp invSqrt pool q numKv layerId batch attnSpec s.tableIdx =
      self.forwardSlice exp invSqrt pool q.heads q.headDim numKv layerId attnSpec s q := by
  rcases h.exists_req hs with ⟨req, hreq, hshare⟩
  rw [forward, h.locate_eq hs hreq, Option.bind_some, hq, h.requestPositions_eq hs,
    hshare.writtenLen_eq, hshare.row_eq, forwardSlice]

/-- One round of the walk. -/
theorem walk_cons {req : Req} {reqs : List Req} {tokenIdx : Nat} {rest : List Nat}
    (hshare : Shares batch.phase req s) (hpos : batch.positions.drop tokenIdx = s.positions ++ rest)
    (out : Nat → Nat → Nat → Option K) :
    self.walk exp invSqrt pool q numKv layerId batch attnSpec (req :: reqs) tokenIdx out =
      (self.forwardSlice exp invSqrt pool q.heads q.headDim numKv layerId attnSpec s
          (q.slice tokenIdx s.tokens.length)).bind fun rows =>
        self.walk exp invSqrt pool q numKv layerId batch attnSpec reqs (tokenIdx + s.tokens.length)
          fun head token =>
            if tokenIdx ≤ token ∧ token < tokenIdx + s.tokens.length then
              rows head (token - tokenIdx)
            else out head token := by
  have hlen : (if batch.phase = .decode then 1 else req.extendLen.toNat) = s.tokens.length :=
    hshare.stepLen_eq
  rw [walk]
  simp only [hlen, hpos, hshare.writtenLen_eq, hshare.row_eq, forwardSlice]
  rw [← s.length_positions, List.take_left]

theorem offset_succ (s : Slice) (ss : List Slice) (b : Nat) :
    AttnBatch.Cut.offset (s :: ss) (b + 1) = s.tokens.length + AttnBatch.Cut.offset ss b := rfl

theorem walk_returns {reqs : List Req} {ss : List Slice}
    (hshares : List.Forall₂ (Shares batch.phase) reqs ss) :
    ∀ {tokenIdx : Nat} (out : Nat → Nat → Nat → Option K),
      batch.positions.drop tokenIdx = ss.flatMap Slice.positions →
      ((self.walk exp invSqrt pool q numKv layerId batch attnSpec reqs tokenIdx out).isSome ↔
        ∀ b s, ss[b]? = some s →
          (self.forwardSlice exp invSqrt pool q.heads q.headDim numKv layerId attnSpec s
            (q.slice (tokenIdx + AttnBatch.Cut.offset ss b) s.tokens.length)).isSome) := by
  induction hshares with
  | nil =>
      intro tokenIdx out _
      simp [walk]
  | @cons req s reqs ss hshare _ ih =>
      intro tokenIdx out hpos
      rw [List.flatMap_cons] at hpos
      have hdrop : batch.positions.drop (tokenIdx + s.tokens.length) = ss.flatMap Slice.positions := by
        rw [← List.drop_drop, hpos, ← s.length_positions, List.drop_left]
      rw [walk_cons hshare hpos]
      cases hrows : self.forwardSlice exp invSqrt pool q.heads q.headDim numKv layerId attnSpec s
          (q.slice tokenIdx s.tokens.length) with
      | none =>
          simp only [Option.bind_none, Option.isSome_none, Bool.false_eq_true, false_iff]
          intro hall
          have hfirst := hall 0 s rfl
          rw [show tokenIdx + AttnBatch.Cut.offset (s :: ss) 0 = tokenIdx from rfl, hrows] at hfirst
          cases hfirst
      | some rows =>
          rw [Option.bind_some, ih _ hdrop]
          constructor
          · rintro hall (_ | b) s' hs'
            · cases hs'
              rw [show tokenIdx + AttnBatch.Cut.offset (s :: ss) 0 = tokenIdx from rfl, hrows]
              rfl
            · rw [offset_succ, ← Nat.add_assoc]
              exact hall b s' hs'
          · intro hall b s' hs'
            have hb := hall (b + 1) s' hs'
            rwa [offset_succ, ← Nat.add_assoc] at hb

theorem walk_rows {reqs : List Req} {ss : List Slice}
    (hshares : List.Forall₂ (Shares batch.phase) reqs ss) :
    ∀ {tokenIdx : Nat} {out whole : Nat → Nat → Nat → Option K},
      batch.positions.drop tokenIdx = ss.flatMap Slice.positions →
      self.walk exp invSqrt pool q numKv layerId batch attnSpec reqs tokenIdx out = some whole →
      (∀ head, ∀ token < tokenIdx, whole head token = out head token) ∧
      ∀ b s, ss[b]? = some s → ∀ rows,
        self.forwardSlice exp invSqrt pool q.heads q.headDim numKv layerId attnSpec s
            (q.slice (tokenIdx + AttnBatch.Cut.offset ss b) s.tokens.length) = some rows →
          ∀ head, ∀ j < s.tokens.length,
            whole head (tokenIdx + AttnBatch.Cut.offset ss b + j) = rows head j := by
  induction hshares with
  | nil =>
      intro tokenIdx out whole _ h
      cases h
      exact ⟨fun _ _ _ => rfl, fun b s hs => by cases hs⟩
  | @cons req s reqs ss hshare _ ih =>
      intro tokenIdx out whole hpos h
      rw [List.flatMap_cons] at hpos
      have hdrop : batch.positions.drop (tokenIdx + s.tokens.length) = ss.flatMap Slice.positions := by
        rw [← List.drop_drop, hpos, ← s.length_positions, List.drop_left]
      rw [walk_cons hshare hpos] at h
      rcases Option.bind_eq_some_iff.mp h with ⟨rows, hrows, hwalk⟩
      rcases ih hdrop hwalk with ⟨hbefore, hrest⟩
      refine ⟨fun head token htoken => ?_, ?_⟩
      · rw [hbefore head token (by omega), if_neg (by omega)]
      · rintro (_ | b) s' hs' rows' hrows' head j hj
        · cases hs'
          cases hrows.symm.trans hrows'
          rw [show tokenIdx + AttnBatch.Cut.offset (s :: ss) 0 = tokenIdx from rfl,
            hbefore head _ (by omega), if_pos ⟨by omega, by omega⟩, Nat.add_sub_cancel_left]
        · rw [offset_succ, ← Nat.add_assoc] at hrows' ⊢
          exact hrest b s' hs' rows' hrows' head j hj

end TritonAttentionBackend

namespace AttnBatch.Cut

variable {batch : AttnBatch} {slices : List Slice} {b : Nat} {s : Slice}

omit [Field K] in
theorem length_slice (h : batch.Cut slices) {q : Queries K} (hq : q.tokens = batch.positions.length)
    (hs : slices[b]? = some s) :
    (q.slice (offset slices b) s.tokens.length).tokens = s.tokens.length := by
  have hlen := congrArg List.length (h.positions_drop hs)
  have hpos : 0 < s.tokens.length := by
    rcases h.exists_req hs with ⟨req, -, hshare⟩
    exact hshare.tokens_pos
  rw [List.length_drop, List.length_append, s.length_positions] at hlen
  simp only [Queries.slice, hq]
  omega

end AttnBatch.Cut

/-! ### A step -/

namespace Engine

variable {e e' : Engine} {sampled : Nat → Token} {out : StepOutput}

theorem attnBatch_cut {config : EngineConfig} {calls : List Call} (hrun : runs config calls = some e)
    (hstep : e.step sampled = .ok (out, e')) : out.attnBatch.Cut out.slices := by
  rcases books_of_runs hrun with ⟨t, orphans, hb⟩
  rcases step_cases hstep with ⟨-, rfl, -⟩ | ⟨s1, e2, hrun⟩
  · exact ⟨.nil, List.nodup_nil, rfl, rfl⟩
  · exact hrun.cut hb.sched hb.recorded

variable (exp) in
/-- In every step of every run the whole-batch call returns when the calls of its requests do, with
the same rows, and a captured call answers what the eager one does. -/
theorem torch_modes_agree {config : EngineConfig} {calls : List Call}
    (hrun : runs config calls = some e) (hstep : e.step sampled = .ok (out, e'))
    (self : TritonAttentionBackend) (invSqrt : Nat → K) (pool : KVPool K) (q : Queries K)
    (hq : q.tokens = out.tensors.positions.length) (numKv layerId : Nat)
    (attnSpec : Option (AttentionSpec K)) :
    let rowsOf (self : TritonAttentionBackend) (b : Nat) (s : Slice) :=
      self.forward exp invSqrt pool
        (q.slice (AttnBatch.Cut.offset out.slices b) s.tokens.length) numKv layerId out.attnBatch
        attnSpec s.tableIdx
    let whole := self.forwardBatch exp invSqrt pool q numKv layerId out.attnBatch attnSpec
    (whole.isSome ↔ ∀ b s, out.slices[b]? = some s → (rowsOf self b s).isSome) ∧
    ∀ b s, out.slices[b]? = some s → ∀ rows, rowsOf self b s = some rows →
      rowsOf { self with capturing := false } b s = some rows ∧
      ∀ all, whole = some all → ∀ head, ∀ j < s.tokens.length,
        all head (AttnBatch.Cut.offset out.slices b + j) = rows head j := by
  have hcut := attnBatch_cut hrun hstep
  have hforward : ∀ (self : TritonAttentionBackend) b s, out.slices[b]? = some s →
      self.forward exp invSqrt pool
          (q.slice (AttnBatch.Cut.offset out.slices b) s.tokens.length) numKv layerId out.attnBatch
          attnSpec s.tableIdx =
        self.forwardSlice exp invSqrt pool q.heads q.headDim numKv layerId attnSpec s
          (q.slice (AttnBatch.Cut.offset out.slices b) s.tokens.length) := fun self b s hs =>
    TritonAttentionBackend.forward_eq hcut hs (hcut.length_slice hq hs)
  have hpos : out.attnBatch.positions.drop 0 = out.slices.flatMap Slice.positions :=
    hcut.positions_eq
  refine ⟨?_, fun b s hs rows hrows => ⟨?_, fun all hall head j hj => ?_⟩⟩
  · refine (TritonAttentionBackend.walk_returns hcut.shares _ hpos).trans ?_
    simp only [Nat.zero_add]
    exact forall₃_congr fun b s hs => by rw [hforward self b s hs]
  · refine (hforward _ b s hs).trans ?_
    refine TritonAttentionBackend.attendOne_eager ?_ ((hforward self b s hs).symm.trans hrows)
    rcases hcut.exists_req hs with ⟨req, -, hshare⟩
    exact Nat.add_pos_right _ hshare.tokens_pos
  · have hrest := (TritonAttentionBackend.walk_rows hcut.shares hpos hall).2 b s hs rows
    simp only [Nat.zero_add] at hrest
    exact hrest ((hforward self b s hs).symm.trans hrows) head j hj

/-- One layer and one head of ones, a slot for each position. -/
def onesPool (K : Type) [One K] : KVPool K where
  numLayers := 1
  numSlots := 8
  numKvHeads := 1
  headDim := 1
  kBuffer := fun _ => 1
  vBuffer := fun _ => 1
  maxSeqLen := 4
  pageTable := fun _ p => p + 1

def onesQueries (K : Type) [One K] (tokens : Nat) : Queries K where
  heads := 2
  tokens := tokens
  headDim := 1
  at' := fun _ _ _ => 1

theorem onesPool_readable {row n : Nat} (h : n ≤ 4) : (onesPool ℝ).Readable row 0 n :=
  ⟨h, Nat.one_pos, fun p hp => by
    have : p + 1 < 8 := by omega
    exact this⟩

/-- The decode of a third token, captured for four. -/
theorem thirdToken_captured : ∃ e e' out, runs singleRow [
      .addRequest { uid := 0, inputIds := [7, 8], samplingParams := { maxTokens := 2 } },
      .step fun _ => 5] = some e ∧
    e.step (fun _ => 6) = .ok (out, e') ∧ out.slices = [⟨0, 2, [5]⟩] ∧ ∃ rows,
      ({ capturing := true, graphMaxSeqLen := 4 } : TritonAttentionBackend).forward Real.exp
        (fun _ => 1) (onesPool ℝ) ((onesQueries ℝ 1).slice 0 1) 1 0 out.attnBatch none 0 =
          some rows ∧
      ({ graphMaxSeqLen := 4 } : TritonAttentionBackend).forward Real.exp
        (fun _ => 1) (onesPool ℝ) ((onesQueries ℝ 1).slice 0 1) 1 0 out.attnBatch none 0 =
          some rows := by
  have hsteps : ((runs singleRow [
      .addRequest { uid := 0, inputIds := [7, 8], samplingParams := { maxTokens := 2 } },
      .step fun _ => 5]).bind fun e => (e.step fun _ => 6).toOption.map fun r => r.1.slices) =
        some [⟨0, 2, [5]⟩] := by decide +kernel
  obtain ⟨e, hrun, hmap⟩ := Option.bind_eq_some_iff.mp hsteps
  obtain ⟨⟨out, e'⟩, hopt, hslices⟩ := Option.map_eq_some_iff.mp hmap
  have hstep := toOption_eq_some.mp hopt
  have hs : out.slices[0]? = some ⟨0, 2, [5]⟩ := by
    rw [hslices]
    rfl
  have hq : (onesQueries ℝ 1).tokens = out.tensors.positions.length := by
    rw [StepOutput.tensors, hslices]
    rfl
  have hrows : ({ capturing := true, graphMaxSeqLen := 4 } : TritonAttentionBackend).forward
      Real.exp (fun _ => 1) (onesPool ℝ) ((onesQueries ℝ 1).slice 0 1) 1 0 out.attnBatch none 0 =
        some _ :=
    (TritonAttentionBackend.forward_eq (attnBatch_cut hrun hstep) hs rfl).trans
      (TritonAttentionBackend.attendOne_eq (onesPool_readable (Nat.le_refl 4)) ⟨rfl, rfl, rfl⟩)
  have hmodes := torch_modes_agree Real.exp hrun hstep { capturing := true, graphMaxSeqLen := 4 }
    (fun _ => (1 : ℝ)) (onesPool ℝ) (onesQueries ℝ 1) hq 1 0 none
  exact ⟨e, e', out, hrun, hstep, hslices, _, hrows, (hmodes.2 0 _ hs _ hrows).1⟩

end Engine

end FreeToken
