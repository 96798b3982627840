import FreeToken.Attention.SyclSpec

/-!
# When the two backends attend alike

What a backend attends to: the rows of the buffers whose keys get a weight, the scale of the scores
and the sink. The SYCL backend is given the layer and the whole spec and uses neither the layer nor
the sinks; the reference does not use the scale of the spec.
-/

namespace FreeToken

variable {K : Type}

/-! ### What is attended to -/

namespace KernelArgs

variable [Field K] [LinearOrder K]

/-- The rows of the keys that the loop of `attendKeys` weighs. -/
def weighed (a : KernelArgs K) (off stride hkv : Nat) (kvLen qpos : Int) (qrow : Nat) : List Nat :=
  ((List.range kvLen.toNat).filter fun (p : Nat) =>
    maskedLogit < a.logit p qpos qrow (a.kvRow off stride hkv p)).map (a.kvRow off stride hkv)

/-- The keys of a query in a launch for one request. -/
def selected (a : KernelArgs K) (phase : Phase) (head token : Nat) : List Nat :=
  if phase = .decode then a.weighed 0 3 (head / a.g) (a.table 1) (a.table 2) head
  else
    a.weighed 0 5 (head / a.g) (a.table 1) (a.table 2 + token)
      ((a.table 4 + token).toNat * a.qh + head)

end KernelArgs

/-- The keys of a query in `_attend_one`: the rows of the layer, in a buffer. -/
def TritonAttentionBackend.selected (self : TritonAttentionBackend) (pool : KVPool K)
    (batch : AttnBatch) (tableIdx : Nat) (q : Queries K) (numKv layerId : Nat) (window : Int)
    (head token : Nat) : List Nat :=
  (batch.locate tableIdx).elim [] fun found =>
    let written := writtenLen batch.phase found.2 q.tokens
    let readLen := self.readLen written
    let qPos := (requestPositions batch tableIdx q.tokens).getD token 0
    ((List.range readLen).filter fun p => allowed written readLen window qPos p).map fun p =>
      pool.offset layerId (pool.pageTable found.2.tableIdx p) (head / (q.heads / numKv)) 0

variable [Field K] [LinearOrder K]

/-- A launch on the row of a request beside a call of the reference: the same keys, the same scale
and the same sink for every query, and the same answers, whatever the order of the stores. -/
structure SameAttention (sycl : SyclAttentionBackend) (torch : TritonAttentionBackend)
    (invSqrt : Nat → K) (pool : KVPool K) (q : Queries K) (layerId : Nat) (batch : AttnBatch)
    (attnSpec : Option (AttentionSpec K)) (tableIdx : Nat) (rows : Nat → Nat → Nat → Option K)
    (oneRow : TableRows) (stores : List (Nat × K)) : Prop where
  keys_perm : ∀ head < q.heads, ∀ token < q.tokens,
    ((sycl.launchArgs invSqrt pool q pool.numKvHeads attnSpec oneRow).selected batch.phase head
      token).Perm (torch.selected pool batch tableIdx q pool.numKvHeads layerId (attnWindow attnSpec)
        head token)
  scale_eq : (sycl.launchArgs invSqrt pool q pool.numKvHeads attnSpec oneRow).smScale =
    invSqrt q.headDim
  sink_eq : ∀ head < q.heads, ((attnSpec.bind fun spec => spec.sinks).map fun s => s head) = none
  answers_eq : ∀ order : List (Nat × K), order.Perm stores → ∀ head < q.heads, ∀ token < q.tokens,
    ∀ x < q.headDim, rows head token x = some (readOut q order head token x)

/-- The tables are built, and the forward on them attends to what the reference does. -/
def BackendsAgree (exp : K → K) (sycl : SyclAttentionBackend) (torch : TritonAttentionBackend)
    (invSqrt : Nat → K) (pool : KVPool K) (q : Queries K) (layerId : Nat) (batch : AttnBatch)
    (attnSpec : Option (AttentionSpec K)) (tableIdx : Nat)
    (rows : Nat → Nat → Nat → Option K) : Prop :=
  ∃ metadata oneRow stores, sycl.buildMetadata pool batch = some metadata ∧
    metadata.oneRow batch tableIdx = some oneRow ∧
    sycl.forward exp metadata invSqrt pool q pool.numKvHeads batch attnSpec tableIdx = some stores ∧
    SameAttention sycl torch invSqrt pool q layerId batch attnSpec tableIdx rows oneRow stores

/-- What the two backends need to attend alike. -/
structure Alike (sycl : SyclAttentionBackend) (invSqrt : Nat → K) (pool : KVPool K) (q : Queries K)
    (layerId : Nat) (attnSpec : Option (AttentionSpec K)) (slices : List Slice) (s : Slice) :
    Prop where
  fits : ∀ s ∈ slices, sycl.TableFits pool s
  launches : 0 < pool.numKvHeads ∧ q.heads / pool.numKvHeads ≤ 64 ∧
    q.heads / pool.numKvHeads * q.headDim ≤ 64 * 256 ∧ pool.numKvHeads ≤ sycl.maxWorkGroupSize
  layer_eq : layerId = 0
  scale_eq : (attnSpec.bind fun spec => spec.smScale).getD (invSqrt q.headDim) = invSqrt q.headDim
  sinks_eq : (attnSpec.bind fun spec => spec.sinks) = none
  above : SyclAttentionBackend.LogitsAbove pool q (invSqrt q.headDim) (attnWindow attnSpec) s

/-! ### The keys of a query -/

/-- The rows of a layer at the positions of a history that count. -/
def KVPool.rowsAt (pool : KVPool K) (s : Slice) (layerId kvHead : Nat) (counts : Nat → Bool) :
    List Nat :=
  ((List.range (s.start + s.tokens.length)).filter counts).map fun p =>
    pool.offset layerId (pool.pageTable s.tableIdx p) kvHead 0

/-- The keys that the kernel weighs: allowed, and with a logit above the mask. -/
def weighs (pool : KVPool K) (q : Queries K) (scale : K) (window : Int) (s : Slice)
    (kvHead head token p : Nat) : Bool :=
  TritonAttentionBackend.allowed (s.start + s.tokens.length) (s.start + s.tokens.length) window
      (s.start + token) p &&
    maskedLogit <
      (∑ x ∈ Finset.range q.headDim, q.at' head token x * pool.keyAt s.tableIdx 0 kvHead p x) * scale

variable {sycl : SyclAttentionBackend} {torch : TritonAttentionBackend} {invSqrt : Nat → K}
  {pool : KVPool K} {q : Queries K} {layerId : Nat} {batch : AttnBatch}
  {attnSpec : Option (AttentionSpec K)} {slices : List Slice} {b head token : Nat} {s : Slice}

theorem filter_of_perm {α β : Type} {l : List α} {P Q : α → Bool} {f g : α → β}
    (hsub : ∀ a, P a = true → Q a = true) (h : ((l.filter P).map f).Perm ((l.filter Q).map g)) :
    ∀ a ∈ l, Q a = true → P a = true := by
  have hlen := h.length_eq
  rw [List.length_map, List.length_map] at hlen
  have heq := (List.monotone_filter_right l hsub).eq_of_length hlen
  intro a ha hQ
  have hmem : a ∈ l.filter P := heq ▸ List.mem_filter.mpr ⟨ha, hQ⟩
  exact (List.mem_filter.mp hmem).2

omit [Field K] [LinearOrder K] in
/-- The reference reads the allowed keys of the history. -/
theorem torch_selected_eq (h : batch.Cut slices) (hs : slices[b]? = some s)
    (hq : q.tokens = s.tokens.length) (htoken : token < q.tokens) (numKv : Nat) (window : Int) :
    torch.selected pool batch s.tableIdx q numKv layerId window head token =
      pool.rowsAt s layerId (head / (q.heads / numKv)) (TritonAttentionBackend.allowed
        (s.start + s.tokens.length) (s.start + s.tokens.length) window (s.start + token)) := by
  rcases h.exists_req hs with ⟨req, hreq, hshare⟩
  have hpos : s.positions.getD token 0 = s.start + token := by
    simp [Slice.positions, ← hq, htoken]
  rw [TritonAttentionBackend.selected, h.locate_eq hs hreq, Option.elim_some]
  simp only [hq, hshare.writtenLen_eq, h.requestPositions_eq hs, hpos, hshare.row_eq]
  rcases Nat.exists_eq_add_of_le (torch.le_readLen (s.start + s.tokens.length)) with ⟨n, hn⟩
  have hbeyond : ((List.range n).map (s.start + s.tokens.length + ·)).filter (fun p =>
      TritonAttentionBackend.allowed (s.start + s.tokens.length) (s.start + s.tokens.length + n)
        window (s.start + token) p) = [] := by
    -- what a captured call reads beyond the history is not allowed
    rw [List.filter_eq_nil_iff]
    intro p hp
    rcases List.mem_map.mp hp with ⟨i, hi, rfl⟩
    have hi := List.mem_range.mp hi
    simp [TritonAttentionBackend.allowed, Nat.ne_of_gt (Nat.zero_lt_of_lt hi)]
  rw [hn, List.range_add, List.filter_append, hbeyond, List.append_nil, KVPool.rowsAt]
  congr 1
  refine List.filter_congr fun p hp => ?_
  have hp := List.mem_range.mp hp
  simp [TritonAttentionBackend.allowed, hp]

variable (sycl) in
theorem weighed_eq (phase : Phase) (hd : pool.headDim = q.headDim) (hhead : head < q.heads)
    (kvHead : Nat) :
    (sycl.launchArgs invSqrt pool q pool.numKvHeads attnSpec (s.tableRows pool phase)).weighed 0
        (s.tableRows pool phase).stride kvHead ((s.start + s.tokens.length : Nat) : Int)
        ((s.start + token : Nat) : Int) (token * q.heads + head) =
      pool.rowsAt s 0 kvHead (weighs pool q
        ((attnSpec.bind fun spec => spec.smScale).getD (invSqrt q.headDim)) (attnWindow attnSpec) s
        kvHead head token) := by
  have hfilter : ∀ p ∈ List.range (s.start + s.tokens.length), decide (maskedLogit <
      (sycl.launchArgs invSqrt pool q pool.numKvHeads attnSpec (s.tableRows pool phase)).logit p
        ((s.start + token : Nat) : Int) (token * q.heads + head)
        ((sycl.launchArgs invSqrt pool q pool.numKvHeads attnSpec (s.tableRows pool phase)).kvRow 0
          (s.tableRows pool phase).stride kvHead p)) =
      weighs pool q ((attnSpec.bind fun spec => spec.smScale).getD (invSqrt q.headDim))
        (attnWindow attnSpec) s kvHead head token p := by
    intro p hp
    rw [SyclAttentionBackend.logit_eq hd hhead (List.mem_range.mp hp), weighs]
    split
    · next hallowed => rw [hallowed, Bool.true_and]
    · next hallowed =>
        rw [Bool.eq_false_of_not_eq_true hallowed, Bool.false_and, decide_eq_false (lt_irrefl _)]
  rw [KernelArgs.weighed, Int.toNat_natCast, List.filter_congr hfilter, KVPool.rowsAt]
  refine List.map_congr_left fun p hp => ?_
  have hp := List.mem_range.mp (List.mem_of_mem_filter hp)
  exact SyclAttentionBackend.kvRow_eq hd hp kvHead 0

/-- The kernel weighs the allowed keys above the mask, in the first layer. -/
theorem sycl_selected_eq {phase : Phase} (hdecode : phase = .decode → s.tokens.length = 1)
    (hd : pool.headDim = q.headDim) (hhead : head < q.heads) (htoken : token < s.tokens.length) :
    (sycl.launchArgs invSqrt pool q pool.numKvHeads attnSpec (s.tableRows pool phase)).selected phase
        head token =
      pool.rowsAt s 0 (head / (q.heads / pool.numKvHeads)) (weighs pool q
        ((attnSpec.bind fun spec => spec.smScale).getD (invSqrt q.headDim)) (attnWindow attnSpec) s
        (head / (q.heads / pool.numKvHeads)) head token) := by
  rw [← weighed_eq sycl phase hd hhead]
  cases phase with
  | decode =>
      obtain rfl : token = 0 := by
        have hone := hdecode rfl
        omega
      rw [KernelArgs.selected, if_pos rfl, Nat.zero_mul, Nat.zero_add]
      change KernelArgs.weighed _ 0 3 _ ((s.tableRows pool .decode).pointer 1)
        ((s.tableRows pool .decode).pointer 2) _ = _
      rw [SyclAttentionBackend.pointer_kvLen, SyclAttentionBackend.pointer_qpos]
      rfl
  | prefill =>
      rw [KernelArgs.selected, if_neg Phase.noConfusion]
      have hbase : (s.tableRows pool .prefill).pointer 4 = 0 := by
        simp [TableRows.pointer, TableRows.stride, Slice.tableRows]
      change KernelArgs.weighed _ 0 5 _ ((s.tableRows pool .prefill).pointer 1)
        ((s.tableRows pool .prefill).pointer 2 + (token : Int))
        (((s.tableRows pool .prefill).pointer 4 + (token : Int)).toNat * q.heads + head) = _
      rw [SyclAttentionBackend.pointer_kvLen, SyclAttentionBackend.pointer_qpos, hbase, Int.zero_add,
        Int.toNat_natCast, Int.natCast_add s.start token]
      rfl

/-! ### When they attend alike -/

/-- A query attends to its own position. -/
theorem allowed_self (n : Nat) (window : Int) (p : Nat) :
    TritonAttentionBackend.allowed n n window p p = true := by
  simp only [TritonAttentionBackend.allowed, le_refl, decide_true, Bool.true_or, Bool.and_self,
    sub_self, Bool.true_and, Bool.or_eq_true, decide_eq_true_eq]
  omega

omit [Field K] [LinearOrder K] in
/-- No row of another layer is a row of the first one. -/
theorem layer_of_offset_eq {slot slot' kvHead : Nat} (hslot : slot' < pool.numSlots)
    (hd : 0 < pool.headDim) (hkv : 0 < pool.numKvHeads)
    (h : pool.offset layerId slot kvHead 0 = pool.offset 0 slot' kvHead 0) : layerId = 0 := by
  simp only [KVPool.offset, Nat.add_zero, Nat.zero_mul, Nat.zero_add] at h
  have hrow := Nat.add_right_cancel (Nat.eq_of_mul_eq_mul_right hd h)
  have hlayer := Nat.eq_of_mul_eq_mul_right hkv hrow
  rcases Nat.eq_zero_or_pos layerId with hzero | hpos
  · exact hzero
  · have hle := Nat.le_mul_of_pos_left pool.numSlots hpos
    omega

section

variable (hd : pool.headDim = q.headDim) (hq : q.tokens = s.tokens.length)
  (hcut : batch.Cut slices) (hs : slices[b]? = some s)
include hd hq hcut hs

/-- What a launch has in common with the reference, in the terms of the pool. -/
theorem SameAttention.rowsAt_perm {rows : Nat → Nat → Nat → Option K} {stores : List (Nat × K)}
    (h : SameAttention sycl torch invSqrt pool q layerId batch attnSpec s.tableIdx rows
      (s.tableRows pool batch.phase) stores) (hhead : head < q.heads) (htoken : token < q.tokens) :
    (pool.rowsAt s 0 (head / (q.heads / pool.numKvHeads)) (weighs pool q (invSqrt q.headDim)
        (attnWindow attnSpec) s (head / (q.heads / pool.numKvHeads)) head token)).Perm
      (pool.rowsAt s layerId (head / (q.heads / pool.numKvHeads)) (TritonAttentionBackend.allowed
        (s.start + s.tokens.length) (s.start + s.tokens.length) (attnWindow attnSpec)
        (s.start + token))) := by
  rcases hcut.exists_req hs with ⟨req, -, hshare⟩
  have hscale : (attnSpec.bind fun spec => spec.smScale).getD (invSqrt q.headDim) =
      invSqrt q.headDim := h.scale_eq
  have hkeys := h.keys_perm head hhead token htoken
  rwa [torch_selected_eq hcut hs hq htoken, sycl_selected_eq hshare.length_of_decode hd hhead
    (hq ▸ htoken), hscale] at hkeys

/-- The backends attend alike only if the layer is the first and the logits are above the mask. -/
theorem Alike.of_same (hdpos : 0 < q.headDim) (hheads : 0 < q.heads)
    (hread : pool.Readable s.tableIdx layerId (s.start + s.tokens.length))
    (hfits : ∀ s ∈ slices, sycl.TableFits pool s)
    (hlaunches : 0 < pool.numKvHeads ∧ q.heads / pool.numKvHeads ≤ 64 ∧
      q.heads / pool.numKvHeads * q.headDim ≤ 64 * 256 ∧ pool.numKvHeads ≤ sycl.maxWorkGroupSize)
    {rows : Nat → Nat → Nat → Option K} {stores : List (Nat × K)}
    (h : SameAttention sycl torch invSqrt pool q layerId batch attnSpec s.tableIdx rows
      (s.tableRows pool batch.phase) stores) :
    Alike sycl invSqrt pool q layerId attnSpec slices s where
  fits := hfits
  launches := hlaunches
  layer_eq := by
    rcases hcut.exists_req hs with ⟨req, -, hshare⟩
    have hpos := hshare.tokens_pos
    have hkeys := h.rowsAt_perm hd hq hcut hs hheads (hq ▸ hpos)
    have hmem := hkeys.mem_iff.mpr (List.mem_map_of_mem (List.mem_filter.mpr
      ⟨List.mem_range.mpr (Nat.lt_add_of_pos_right hpos), allowed_self ..⟩))
    rcases List.mem_map.mp hmem with ⟨p, hp, heq⟩
    have hp := List.mem_range.mp (List.mem_of_mem_filter hp)
    exact layer_of_offset_eq (hread.2.2 p hp) (hd ▸ hdpos) hlaunches.1 heq.symm
  scale_eq := h.scale_eq
  sinks_eq := by
    rcases hsinks : attnSpec.bind fun spec => spec.sinks with _ | sinks
    · rfl
    · have hsink := h.sink_eq 0 hheads
      rw [hsinks] at hsink
      cases hsink
  above head hhead token htoken p hp hallowed := by
    have hkeys := h.rowsAt_perm hd hq hcut hs hhead htoken
    have hweighs := filter_of_perm (fun p hp => (Bool.and_eq_true_iff.mp hp).1) hkeys p
      (List.mem_range.mpr hp) hallowed
    exact of_decide_eq_true (Bool.and_eq_true_iff.mp hweighs).2

/-- The keys that both backends take. -/
theorem Alike.same (h : Alike sycl invSqrt pool q layerId attnSpec slices s)
    (hhead : head < q.heads) (htoken : token < q.tokens) :
    ((sycl.launchArgs invSqrt pool q pool.numKvHeads attnSpec
        (s.tableRows pool batch.phase)).selected batch.phase head token).Perm
      (torch.selected pool batch s.tableIdx q pool.numKvHeads layerId (attnWindow attnSpec) head
        token) := by
  rcases hcut.exists_req hs with ⟨req, -, hshare⟩
  rw [torch_selected_eq hcut hs hq htoken, sycl_selected_eq hshare.length_of_decode hd hhead
    (hq ▸ htoken), h.scale_eq, h.layer_eq, KVPool.rowsAt, KVPool.rowsAt]
  refine List.Perm.of_eq (congrArg _ (List.filter_congr fun p hp => ?_))
  rw [weighs]
  cases hallowed : TritonAttentionBackend.allowed (s.start + s.tokens.length)
      (s.start + s.tokens.length) (attnWindow attnSpec) (s.start + token) p with
  | false => rfl
  | true =>
      rw [Bool.true_and]
      exact decide_eq_true (h.above head hhead token htoken p (List.mem_range.mp hp) hallowed)

end

namespace Engine

variable [IsStrictOrderedRing K] {exp : K → K} {e e' : Engine} {sampled : Nat → Token}
  {out : StepOutput}

/-- In every step of every run, for every request of it that the reference answers: the backends
attend alike exactly when the histories fit the tables, the heads the kernels and the device, the
layer is the first, the spec has no sinks and no scale of its own, and the logits are above that of
a masked key. -/
theorem backends_agree_iff (he : OnlineSoftmax.Exponential exp) {config : EngineConfig}
    {calls : List Call} (hrun : runs config calls = some e) (hstep : e.step sampled = .ok (out, e'))
    (sycl : SyclAttentionBackend) (torch : TritonAttentionBackend) (invSqrt : Nat → K)
    (pool : KVPool K) (layerId : Nat) (attnSpec : Option (AttentionSpec K)) :
    ∀ s ∈ out.slices, ∀ q : Queries K, q.tokens = s.tokens.length → 0 < q.heads → 0 < q.headDim →
      ∀ rows, torch.forward exp invSqrt pool q pool.numKvHeads layerId out.attnBatch attnSpec
          s.tableIdx = some rows →
        (BackendsAgree exp sycl torch invSqrt pool q layerId out.attnBatch attnSpec s.tableIdx rows ↔
          Alike sycl invSqrt pool q layerId attnSpec out.slices s) := by
  intro s hs q hq hheads hdpos rows hrows
  have hcut := attnBatch_cut hrun hstep
  rcases List.mem_iff_getElem?.mp hs with ⟨b, hb⟩
  rcases hcut.exists_req hb with ⟨req, -, hshare⟩
  rw [TritonAttentionBackend.forward_eq hcut hb hq, TritonAttentionBackend.forwardSlice] at hrows
  have heager := TritonAttentionBackend.attendOne_eager
    (Nat.add_pos_right s.start hshare.tokens_pos) hrows
  rcases TritonAttentionBackend.attendOne_eq_some heager with ⟨hread, ⟨hgroup, hd, -⟩, hanswers⟩
  have hlen : ({ torch with capturing := false } : TritonAttentionBackend).readLen
      (s.start + s.tokens.length) = s.start + s.tokens.length := by
    simp [TritonAttentionBackend.readLen]
  rw [hlen] at hread hanswers
  constructor
  · rintro ⟨metadata, oneRow, stores, hmeta, hrow, hforward, hsame⟩
    rw [SyclAttentionBackend.oneRow_eq hcut hmeta hb, Option.some.injEq] at hrow
    subst hrow
    rw [SyclAttentionBackend.forward_eq hcut hmeta hb] at hforward
    exact .of_same hd hq hcut hb hdpos hheads hread
      ((SyclAttentionBackend.buildMetadata_isSome_iff hcut).mp (Option.isSome_of_eq_some hmeta))
      (SyclAttentionBackend.launch_isSome_iff.mp (Option.isSome_of_eq_some hforward)) hsame
  · intro halike
    obtain ⟨metadata, hmeta⟩ := Option.isSome_iff_exists.mp
      ((SyclAttentionBackend.buildMetadata_isSome_iff hcut).mpr halike.fits)
    have hsome : (sycl.launch exp invSqrt pool q pool.numKvHeads out.attnBatch.phase attnSpec
        (s.tableRows pool out.attnBatch.phase)).isSome :=
      SyclAttentionBackend.launch_isSome_iff.mpr halike.launches
    obtain ⟨stores, hstores⟩ := Option.isSome_iff_exists.mp hsome
    refine ⟨metadata, _, stores, hmeta, SyclAttentionBackend.oneRow_eq hcut hmeta hb,
      (SyclAttentionBackend.forward_eq hcut hmeta hb).trans hstores, ?_⟩
    refine ⟨fun head hhead token htoken => halike.same hd hq hcut hb hhead htoken,
      halike.scale_eq, fun head _ => ?_, fun order horder head hhead token htoken x hx => ?_⟩
    · rw [halike.sinks_eq, Option.map_none]
    · have hlaunch := SyclAttentionBackend.answers_launch he hshare.length_of_decode hgroup hd hq
        (halike.scale_eq.symm ▸ halike.above) hstores horder hhead htoken hx
      rw [halike.scale_eq] at hlaunch
      rw [hanswers, halike.sinks_eq, halike.layer_eq, hlaunch]

/-- The prefill of three tokens in the first layer, with a window and the usual scale. -/
theorem windowed_agrees : ∃ e e' out, ∃ rows : Nat → Nat → Nat → Option ℝ,
    runs singleRow [.addRequest
      { uid := 0, inputIds := [7, 8, 9], samplingParams := { maxTokens := 1 } }] = some e ∧
    e.step (fun _ => 5) = .ok (out, e') ∧
    ({} : TritonAttentionBackend).forward Real.exp (fun d => 1 / √d) (onesPool ℝ) (onesQueries ℝ 3) 1 0
      out.attnBatch (some { slidingWindow := some 2, smScale := some (1 / √(1 : Nat)) }) 0 =
        some rows ∧
    BackendsAgree Real.exp ⟨4, 1024⟩ {} (fun d => 1 / √d) (onesPool ℝ) (onesQueries ℝ 3) 0
      out.attnBatch (some { slidingWindow := some 2, smScale := some (1 / √(1 : Nat)) }) 0 rows := by
  obtain ⟨e, e', out, hrun, hstep, hslices⟩ := threeTokens_slices
  have hs : out.slices[0]? = some ⟨0, 0, [7, 8, 9]⟩ := by
    rw [hslices]
    rfl
  have hrows : ({} : TritonAttentionBackend).forward Real.exp (fun d => 1 / √d) (onesPool ℝ)
      (onesQueries ℝ 3) 1 0 out.attnBatch
      (some { slidingWindow := some 2, smScale := some (1 / √(1 : Nat)) }) 0 = some _ :=
    (TritonAttentionBackend.forward_eq (attnBatch_cut hrun hstep) hs rfl).trans
      (TritonAttentionBackend.attendOne_eq (onesPool_readable (Nat.le_succ 3)) ⟨rfl, rfl, rfl⟩)
  refine ⟨e, e', out, _, hrun, hstep, hrows, ?_⟩
  refine (backends_agree_iff (⟨Real.exp_add, Real.exp_pos⟩ : OnlineSoftmax.Exponential Real.exp) hrun
    hstep ⟨4, 1024⟩ {} (fun d => 1 / √d) (onesPool ℝ) 0 _ _ (List.mem_of_getElem? hs)
    (onesQueries ℝ 3) rfl (Nat.succ_pos 1) Nat.one_pos _ hrows).mpr ?_
  exact {
    fits := fun s hs => by
      rw [hslices] at hs
      rw [List.mem_singleton.mp hs]
      exact ⟨by decide, by decide⟩
    launches := by decide
    layer_eq := rfl
    scale_eq := rfl
    sinks_eq := rfl
    above := onesPool_above _ }

/-- Two layers, with the values 1 and 2. -/
noncomputable def twoLayers : KVPool ℝ where
  numLayers := 2
  numSlots := 8
  numKvHeads := 1
  headDim := 1
  kBuffer := fun _ => 1
  vBuffer := fun i => if i < 8 then 1 else ((2 : ℕ) : ℝ)
  maxSeqLen := 4
  pageTable := fun _ p => p + 1

/-- The answers of the first token, in a layer. -/
theorem twoLayers_answers (layerId : Nat) :
    TritonAttentionBackend.answers Real.exp twoLayers 0 (onesQueries ℝ 3) [0, 1, 2] 3 3 2
        (1 / √(1 : Nat)) 0 layerId none 0 0 0 =
      some (if layerId = 0 then 1 else ((2 : ℕ) : ℝ)) := by
  -- the first token attends to itself only
  have hkeys : twoLayers.rowKeys 0 layerId 3 3 0 0 0 =
      [(fun _ => 1, twoLayers.valueAt 0 layerId 0 0, true),
        (fun _ => 1, twoLayers.valueAt 0 layerId 0 1, false),
        (fun _ => 1, twoLayers.valueAt 0 layerId 0 2, false)] := rfl
  have hvalue : twoLayers.valueAt 0 layerId 0 0 0 = if layerId = 0 then 1 else ((2 : ℕ) : ℝ) := by
    have hiff : (((layerId * 8 + 1) * 1 + 0) * 1 + 0 < 8) ↔ layerId = 0 := by omega
    exact if_congr hiff rfl rfl
  have hattends : Attends (none : Option ℝ) [((fun _ => 1 : Nat → ℝ), twoLayers.valueAt 0 layerId 0 0,
      true), (fun _ => 1, twoLayers.valueAt 0 layerId 0 1, false),
      (fun _ => 1, twoLayers.valueAt 0 layerId 0 2, false)] := .inr ⟨_, List.mem_cons_self, rfl⟩
  change TritonAttentionBackend.attendRow Real.exp _ _ _ none (twoLayers.rowKeys 0 layerId 3 3 0 0 0)
    0 = _
  rw [hkeys, attendRow_eq hattends, ← hvalue]
  simp [RowKey.scored, sinkKey, OnlineSoftmax.softmax, OnlineSoftmax.total, OnlineSoftmax.weighted]

/-- The same prefill in the second layer: the SYCL backend answers from the first. -/
theorem secondLayer_apart : ∃ e e' out metadata stores rows,
    runs singleRow [.addRequest
      { uid := 0, inputIds := [7, 8, 9], samplingParams := { maxTokens := 1 } }] = some e ∧
    e.step (fun _ => 5) = .ok (out, e') ∧
    (⟨4, 1024⟩ : SyclAttentionBackend).buildMetadata twoLayers out.attnBatch = some metadata ∧
    (⟨4, 1024⟩ : SyclAttentionBackend).forward Real.exp metadata (fun d => 1 / √d) twoLayers
      (onesQueries ℝ 3) 1 out.attnBatch none 0 = some stores ∧
    ({} : TritonAttentionBackend).forward Real.exp (fun d => 1 / √d) twoLayers (onesQueries ℝ 3) 1 1
      out.attnBatch none 0 = some rows ∧
    rows 0 0 0 = some ((2 : ℕ) : ℝ) ∧
    (∀ order : List (Nat × ℝ), order.Perm stores → readOut (onesQueries ℝ 3) order 0 0 0 = 1) ∧
    ¬ BackendsAgree Real.exp ⟨4, 1024⟩ {} (fun d => 1 / √d) twoLayers (onesQueries ℝ 3) 1
      out.attnBatch none 0 rows := by
  obtain ⟨e, e', out, hrun, hstep, hslices⟩ := threeTokens_slices
  have hcut := attnBatch_cut hrun hstep
  have hs : out.slices[0]? = some ⟨0, 0, [7, 8, 9]⟩ := by
    rw [hslices]
    rfl
  rcases hcut.exists_req hs with ⟨req, -, hshare⟩
  have hfits : ∀ s ∈ out.slices, (⟨4, 1024⟩ : SyclAttentionBackend).TableFits twoLayers s := by
    intro s hs
    rw [hslices] at hs
    rw [List.mem_singleton.mp hs]
    exact ⟨by decide, by decide⟩
  obtain ⟨metadata, hmeta⟩ := Option.isSome_iff_exists.mp
    ((SyclAttentionBackend.buildMetadata_isSome_iff hcut).mpr hfits)
  have hsome : ((⟨4, 1024⟩ : SyclAttentionBackend).launch Real.exp (fun d => 1 / √d) twoLayers
      (onesQueries ℝ 3) 1 out.attnBatch.phase none
      ((⟨0, 0, [7, 8, 9]⟩ : Slice).tableRows twoLayers out.attnBatch.phase)).isSome :=
    SyclAttentionBackend.launch_isSome_iff.mpr (by decide)
  obtain ⟨stores, hstores⟩ := Option.isSome_iff_exists.mp hsome
  have hforward := (SyclAttentionBackend.forward_eq hcut hmeta hs).trans hstores
  have hreadable : twoLayers.Readable 0 1 3 :=
    ⟨Nat.le_succ 3, Nat.one_lt_two, fun p hp => (Nat.succ_lt_succ hp).trans (by decide)⟩
  have hrows : ({} : TritonAttentionBackend).forward Real.exp (fun d => 1 / √d) twoLayers
      (onesQueries ℝ 3) 1 1 out.attnBatch none 0 = some _ :=
    (TritonAttentionBackend.forward_eq hcut hs rfl).trans
      (TritonAttentionBackend.attendOne_eq hreadable ⟨rfl, rfl, rfl⟩)
  have hread : ∀ order : List (Nat × ℝ), order.Perm stores →
      readOut (onesQueries ℝ 3) order 0 0 0 = 1 := by
    intro order horder
    have hanswers : TritonAttentionBackend.answers Real.exp twoLayers 0 (onesQueries ℝ 3) [0, 1, 2] 3 3
        2 (1 / √(1 : Nat)) 0 0 none 0 0 0 = some (readOut (onesQueries ℝ 3) order 0 0 0) :=
      SyclAttentionBackend.answers_launch
        (⟨Real.exp_add, Real.exp_pos⟩ : OnlineSoftmax.Exponential Real.exp) hshare.length_of_decode rfl
        rfl rfl (onesPool_above _) hstores horder (Nat.succ_pos 1) (Nat.succ_pos 2) Nat.one_pos
    exact (Option.some.inj ((twoLayers_answers 0).symm.trans hanswers)).symm
  refine ⟨e, e', out, metadata, stores, _, hrun, hstep, hmeta, hforward, hrows, twoLayers_answers 1,
    hread, ?_⟩
  rintro ⟨metadata', oneRow, stores', hmeta', -, hforward', hsame⟩
  cases hmeta.symm.trans hmeta'
  cases hforward.symm.trans hforward'
  have hone := hsame.answers_eq stores (List.Perm.refl stores) 0 (Nat.succ_pos 1) 0 (Nat.succ_pos 2) 0
    Nat.one_pos
  rw [hread stores (List.Perm.refl stores)] at hone
  have htwo := Option.some.inj ((twoLayers_answers 1).symm.trans hone)
  norm_num at htwo

end Engine

end FreeToken
