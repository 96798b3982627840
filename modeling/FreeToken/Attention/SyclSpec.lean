import FreeToken.Attention.KernelSpec
import FreeToken.Attention.TritonSpec

/-!
# The SYCL attention against the reference

The tables of a batch list the slots that the reference gathers, so a launch is the softmax over
the same keys. The kernels are given the buffers of the whole pool and no layer: they always read
the first one. They take their scale from the spec, and no sinks.
-/

namespace FreeToken

open OnlineSoftmax

theorem mapM_eq_some {α β : Type} {f : α → Option β} : ∀ {l : List α} {bs : List β},
    l.mapM f = some bs ↔ List.Forall₂ (fun a b => f a = some b) l bs
  | [], bs => by
      rw [List.mapM_nil, List.forall₂_nil_left_iff]
      exact ⟨fun h => by cases h; rfl, fun h => by rw [h]; rfl⟩
  | a :: l, bs => by
      simp only [List.mapM_cons, Option.bind_eq_bind, Option.bind_eq_some_iff,
        List.forall₂_cons_left_iff, mapM_eq_some]
      constructor
      · rintro ⟨b, hb, bs', hbs, h⟩
        cases h
        exact ⟨b, bs', hb, hbs, rfl⟩
      · rintro ⟨b, bs', hb, hbs, rfl⟩
        exact ⟨b, hb, bs', hbs, rfl⟩

/-! ### The tables -/

/-- The rows of the table for a slice. -/
def Slice.tableRows {K : Type} (pool : KVPool K) (phase : Phase) (s : Slice) : TableRows where
  header :=
    if phase = .decode then [((s.start + s.tokens.length : Nat) : Int), s.start]
    else [((s.start + s.tokens.length : Nat) : Int), s.start, s.tokens.length, 0]
  slots := (List.range (s.start + s.tokens.length)).map (pool.pageTable s.tableIdx)

namespace SyclAttentionBackend

variable {K : Type} {self : SyclAttentionBackend} {pool : KVPool K} {batch : AttnBatch}
  {slices : List Slice} {b : Nat} {s : Slice}

/-- The history of a slice fits the table and the page table. -/
def TableFits (self : SyclAttentionBackend) (pool : KVPool K) (s : Slice) : Prop :=
  s.start + s.tokens.length ≤ self.kvNumSlots ∧ s.start + s.tokens.length ≤ pool.maxSeqLen

instance (self : SyclAttentionBackend) (pool : KVPool K) (s : Slice) :
    Decidable (self.TableFits pool s) :=
  inferInstanceAs (Decidable (_ ∧ _))

theorem gbase_getElem? {exts : List Nat} (h : b < exts.length) :
    (gbase exts)[b]? = some (exts.take b).sum := by
  have htake : exts.dropLast.take b = exts.take b := by
    rw [List.dropLast_eq_take, List.take_take, Nat.min_eq_left (by omega)]
  rw [gbase, List.getElem?_scanl, if_pos (by rw [List.length_dropLast]; omega), htake,
    List.sum_eq_foldl]

theorem requestRows_eq {req : Req} {n : Nat} (hn : 0 < n) (header : List Int) :
    self.requestRows pool req n header =
      if n ≤ self.kvNumSlots ∧ n ≤ pool.maxSeqLen then
        some { header := header, slots := (List.range n).map (pool.pageTable req.tableIdx) }
      else none := by
  simp only [requestRows, KVPool.pageSlots, Int.toNat_natCast, Int.natCast_nonneg, true_and]
  split
  · next h =>
      split
      · next hlen => rw [if_pos ⟨h.2, hlen⟩, Option.map_some]
      · next hlen => rw [if_neg fun hboth => hlen hboth.2, Option.map_none]
  · next h => rw [if_neg fun hboth => h ⟨by omega, hboth.1⟩]

/-- One request of the tables. -/
theorem buildRows_eq (h : batch.Cut slices) (hs : slices[b]? = some s) {req : Req}
    (hreq : batch.reqs[b]? = some req) :
    self.buildRows pool batch req (AttnBatch.Cut.offset slices b) s.tokens.length =
      if self.TableFits pool s then some (s.tableRows pool batch.phase) else none := by
  rcases h.exists_req hs with ⟨req', hreq', hshare⟩
  cases hreq.symm.trans hreq'
  have hpos := hshare.tokens_pos
  have hfirst : batch.positions[AttnBatch.Cut.offset slices b]? = some s.start := by
    have hdrop := congrArg (fun l : List Nat => l[0]?) (h.positions_drop hs)
    rw [List.getElem?_drop, Nat.add_zero] at hdrop
    rw [hdrop, List.getElem?_append_left (by rw [s.length_positions]; exact hpos), Slice.positions,
      List.getElem?_range' (by omega)]
    simp
  have hhistory := hshare.history_eq
  rw [buildRows, hfirst, Option.bind_some]
  split at hhistory
  · next hphase =>
      simp only [if_pos hphase, hhistory, requestRows_eq (Nat.add_pos_right s.start hpos),
        hshare.row_eq, Slice.tableRows, TableFits]
  · next hphase =>
      simp only [if_neg hphase, hhistory, requestRows_eq (Nat.add_pos_right s.start hpos),
        hshare.row_eq, Slice.tableRows, TableFits]

/-- What the tables of a batch are built of. -/
theorem tables_forall₂ (h : batch.Cut slices) {rows : List TableRows} :
    (batch.reqs.zipIdx.mapM fun (req, b) => (gbase batch.extendLens)[b]?.bind fun base =>
      batch.extendLens[b]?.bind fun ext => self.buildRows pool batch req base ext) = some rows ↔
      (∀ s ∈ slices, self.TableFits pool s) ∧ rows = slices.map (Slice.tableRows pool batch.phase) := by
  have hentry : ∀ (b : Nat) s, slices[b]? = some s → ∀ req, batch.reqs[b]? = some req →
      ((gbase batch.extendLens)[b]?.bind fun base => batch.extendLens[b]?.bind fun ext =>
        self.buildRows pool batch req base ext) =
        if self.TableFits pool s then some (s.tableRows pool batch.phase) else none := by
    intro b s hs req hreq
    have hb : b < batch.extendLens.length := by
      rw [h.extendLens_eq, List.length_map]
      exact (List.getElem?_eq_some_iff.mp hs).1
    have hext : batch.extendLens[b]? = some s.tokens.length := by
      rw [h.extendLens_eq, List.getElem?_map, hs, Option.map_some]
    rw [gbase_getElem? hb, hext, Option.bind_some, Option.bind_some, h.extendLens_eq,
      ← List.map_take]
    exact buildRows_eq h hs hreq
  have hlen := h.shares.length_eq
  rw [mapM_eq_some, List.forall₂_iff_get]
  simp only [List.length_zipIdx, List.get_eq_getElem, List.getElem_zipIdx, Nat.zero_add]
  constructor
  · rintro ⟨hrows, hall⟩
    have hfits : ∀ b (hb : b < slices.length), ∃ hb' : b < rows.length,
        self.TableFits pool slices[b] ∧ rows[b] = slices[b].tableRows pool batch.phase := by
      intro b hb
      have hb' : b < rows.length := by omega
      have hrow := hall b (by omega) hb'
      rw [hentry b _ (List.getElem?_eq_getElem hb) _ (List.getElem?_eq_getElem (by omega))] at hrow
      split at hrow
      · next hfit => exact ⟨hb', hfit, (Option.some.inj hrow).symm⟩
      · cases hrow
    constructor
    · intro s hs
      rcases List.mem_iff_getElem.mp hs with ⟨b, hb, rfl⟩
      exact (hfits b hb).2.1
    · refine List.ext_getElem (by rw [List.length_map]; omega) fun b hb hb' => ?_
      rw [List.getElem_map]
      exact (hfits b (by omega)).2.2
  · rintro ⟨hfits, rfl⟩
    refine ⟨by rw [List.length_map, hlen], fun b hb hb' => ?_⟩
    have hs : b < slices.length := by omega
    rw [hentry b _ (List.getElem?_eq_getElem hs) _ (List.getElem?_eq_getElem hb),
      if_pos (hfits _ (List.getElem_mem hs)), List.getElem_map]

/-- The tables are built when every history fits. -/
theorem buildMetadata_isSome_iff (h : batch.Cut slices) :
    (self.buildMetadata pool batch).isSome ↔ ∀ s ∈ slices, self.TableFits pool s := by
  rw [buildMetadata, Option.isSome_map, Option.isSome_iff_exists]
  constructor
  · rintro ⟨rows, hrows⟩
    exact ((tables_forall₂ h).mp hrows).1
  · exact fun hfits => ⟨_, (tables_forall₂ h).mpr ⟨hfits, rfl⟩⟩

variable [Field K] [LinearOrder K] {exp : K → K} {invSqrt : Nat → K} {q : Queries K} {numKv : Nat}
  {attnSpec : Option (AttentionSpec K)}

theorem forward_eq_bind (metadata : SyclMetadata) (tableIdx : Nat) :
    self.forward exp metadata invSqrt pool q numKv batch attnSpec tableIdx =
      (metadata.oneRow batch tableIdx).bind
        (self.launch exp invSqrt pool q numKv batch.phase attnSpec) := by
  rw [forward, SyclMetadata.oneRow, Option.bind_assoc]

omit [Field K] [LinearOrder K] in
theorem oneRow_eq (h : batch.Cut slices) {metadata : SyclMetadata}
    (hmeta : self.buildMetadata pool batch = some metadata) (hs : slices[b]? = some s) :
    metadata.oneRow batch s.tableIdx = some (s.tableRows pool batch.phase) := by
  rcases h.exists_req hs with ⟨req, hreq, -⟩
  rcases Option.map_eq_some_iff.mp hmeta with ⟨rows, hrows, rfl⟩
  obtain ⟨-, rfl⟩ := (tables_forall₂ h).mp hrows
  have hne : slices.map (Slice.tableRows pool batch.phase) ≠ [] := by
    rintro hnil
    rw [List.map_eq_nil_iff.mp hnil] at hs
    cases hs
  have hrow : (slices.map (Slice.tableRows pool batch.phase))[b]? =
      some (s.tableRows pool batch.phase) := by rw [List.getElem?_map, hs, Option.map_some]
  rw [SyclMetadata.oneRow, h.locate_eq hs hreq]
  by_cases hphase : batch.phase = .decode
  · simp only [if_pos hphase, if_neg hne, Option.bind_some, Option.orElse_some, hrow]
  · simp only [if_neg hphase, if_neg hne, Option.bind_some, Option.orElse_some, hrow]

/-- `forward` launches on the rows of its request. -/
theorem forward_eq (h : batch.Cut slices) {metadata : SyclMetadata}
    (hmeta : self.buildMetadata pool batch = some metadata) (hs : slices[b]? = some s) :
    self.forward exp metadata invSqrt pool q numKv batch attnSpec s.tableIdx =
      self.launch exp invSqrt pool q numKv batch.phase attnSpec (s.tableRows pool batch.phase) := by
  rw [forward_eq_bind, oneRow_eq h hmeta hs, Option.bind_some]

/-! ### A launch -/

/-- The logits of the keys of a request that its queries attend to, in the first layer, are above
that of a masked key. -/
def LogitsAbove (pool : KVPool K) (q : Queries K) (scale : K) (window : Int) (s : Slice) : Prop :=
  ∀ head < q.heads, ∀ token < q.tokens, ∀ p < s.start + s.tokens.length,
    TritonAttentionBackend.allowed (s.start + s.tokens.length) (s.start + s.tokens.length) window
        (s.start + token) p = true →
      maskedLogit < (∑ x ∈ Finset.range q.headDim, q.at' head token x *
        pool.keyAt s.tableIdx 0 (head / (q.heads / pool.numKvHeads)) p x) * scale

variable {head token x : Nat}

omit [Field K] [LinearOrder K] in
/-- The query of a token and a head, where the kernel reads it. -/
theorem launchArgs_q (oneRow : TableRows) (hhead : head < q.heads) (hx : x < q.headDim) :
    (self.launchArgs invSqrt pool q numKv attnSpec oneRow).q
      ((token * q.heads + head) * q.headDim + x) = q.at' head token x := by
  simp only [launchArgs, row_div hx, row_mod hx, row_div hhead, row_mod hhead]

omit [Field K] [LinearOrder K] in
/-- The slot of a key, where the kernel reads it. -/
theorem pointer_slot {phase : Phase} {p : Nat} (hp : p < s.start + s.tokens.length) :
    (s.tableRows pool phase).pointer (p * (s.tableRows pool phase).stride) =
      (pool.pageTable s.tableIdx p : Int) := by
  have hstride : 0 < (s.tableRows pool phase).stride := Nat.succ_pos _
  have hslot : (s.tableRows pool phase).slots[p]? = some (pool.pageTable s.tableIdx p) := by
    simp [Slice.tableRows, hp]
  simp [TableRows.pointer, Nat.mul_div_cancel _ hstride, hslot]

omit [Field K] [LinearOrder K] in
theorem pointer_kvLen {phase : Phase} :
    (s.tableRows pool phase).pointer 1 = ((s.start + s.tokens.length : Nat) : Int) := by
  cases phase <;> simp [TableRows.pointer, TableRows.stride, Slice.tableRows]

omit [Field K] [LinearOrder K] in
theorem pointer_qpos {phase : Phase} : (s.tableRows pool phase).pointer 2 = (s.start : Int) := by
  cases phase <;> simp [TableRows.pointer, TableRows.stride, Slice.tableRows]

omit [Field K] [LinearOrder K] in
theorem visible_eq (oneRow : TableRows) (n p qPos : Nat) :
    (self.launchArgs invSqrt pool q numKv attnSpec oneRow).visible p qPos =
      TritonAttentionBackend.allowed n n (attnWindow attnSpec) qPos p := by
  have hwindow : (self.launchArgs invSqrt pool q numKv attnSpec oneRow).slidingWindow =
      attnWindow attnSpec := rfl
  simp [KernelArgs.visible, TritonAttentionBackend.allowed, hwindow]

omit [Field K] [LinearOrder K] in
/-- The row of a key in the buffers. -/
theorem kvRow_eq {phase : Phase} (hd : pool.headDim = q.headDim) {p : Nat}
    (hp : p < s.start + s.tokens.length) (kvHead i : Nat) :
    (self.launchArgs invSqrt pool q pool.numKvHeads attnSpec (s.tableRows pool phase)).kvRow 0
        (s.tableRows pool phase).stride kvHead p + i =
      pool.offset 0 (pool.pageTable s.tableIdx p) kvHead i := by
  simp only [KernelArgs.kvRow, KVPool.offset, Nat.zero_add, Nat.zero_mul]
  change ((s.tableRows pool phase).pointer _).toNat * pool.numKvHeads * q.headDim + _ * q.headDim + i = _
  rw [pointer_slot hp, Int.toNat_natCast, hd, Nat.add_mul]

omit [LinearOrder K] in
/-- The logit of a key. -/
theorem logit_eq {phase : Phase} (hd : pool.headDim = q.headDim) (hhead : head < q.heads) {p : Nat}
    (hp : p < s.start + s.tokens.length) (kvHead : Nat) :
    (self.launchArgs invSqrt pool q pool.numKvHeads attnSpec (s.tableRows pool phase)).logit p
        ((s.start + token : Nat) : Int) (token * q.heads + head)
        ((self.launchArgs invSqrt pool q pool.numKvHeads attnSpec (s.tableRows pool phase)).kvRow 0
          (s.tableRows pool phase).stride kvHead p) =
      if TritonAttentionBackend.allowed (s.start + s.tokens.length) (s.start + s.tokens.length)
          (attnWindow attnSpec) (s.start + token) p then
        (∑ i ∈ Finset.range q.headDim, q.at' head token i * pool.keyAt s.tableIdx 0 kvHead p i) *
          (attnSpec.bind fun spec => spec.smScale).getD (invSqrt q.headDim)
      else maskedLogit := by
  have hdot : (∑ i ∈ Finset.range q.headDim,
      (self.launchArgs invSqrt pool q pool.numKvHeads attnSpec (s.tableRows pool phase)).q
          ((token * q.heads + head) * q.headDim + i) *
        pool.kBuffer (pool.offset 0 (pool.pageTable s.tableIdx p) kvHead i)) =
      ∑ i ∈ Finset.range q.headDim, q.at' head token i * pool.keyAt s.tableIdx 0 kvHead p i := by
    refine Finset.sum_congr rfl fun i hi => ?_
    rw [launchArgs_q _ hhead (Finset.mem_range.mp hi), KVPool.keyAt]
  rw [KernelArgs.logit, visible_eq, ← hdot]
  simp only [kvRow_eq hd hp]
  rfl

/-- A key of the kernel is the key of the reference. -/
theorem keyAt_eq {phase : Phase} (hkv : numKv = pool.numKvHeads) (hd : pool.headDim = q.headDim)
    (hhead : head < q.heads) (htoken : token < q.tokens)
    (habove : LogitsAbove pool q
      ((attnSpec.bind fun spec => spec.smScale).getD (invSqrt q.headDim)) (attnWindow attnSpec) s)
    {p : Nat} (hp : p < s.start + s.tokens.length) :
    (self.launchArgs invSqrt pool q numKv attnSpec (s.tableRows pool phase)).keyAt 0
        (s.tableRows pool phase).stride (head / (q.heads / numKv)) ((s.start + token : Nat) : Int)
        (token * q.heads + head) x p =
      RowKey.scored (q.at' head token) q.headDim
        ((attnSpec.bind fun spec => spec.smScale).getD (invSqrt q.headDim)) x
        (pool.keyAt s.tableIdx 0 (head / (q.heads / numKv)) p,
          pool.valueAt s.tableIdx 0 (head / (q.heads / numKv)) p,
          TritonAttentionBackend.allowed (s.start + s.tokens.length) (s.start + s.tokens.length)
            (attnWindow attnSpec) (s.start + token) p) := by
  subst hkv
  rw [KernelArgs.keyAt, RowKey.scored, logit_eq hd hhead hp, kvRow_eq hd hp]
  congr 1
  split
  · next hallowed => exact scoreOf_of_lt (habove head hhead token htoken p hp hallowed)
  · exact scoreOf_maskedLogit

/-- The softmax of a launch is the row of the reference. -/
theorem attended_eq {phase : Phase} (hkv : numKv = pool.numKvHeads) (hd : pool.headDim = q.headDim)
    (hhead : head < q.heads) (htoken : token < q.tokens)
    (habove : LogitsAbove pool q
      ((attnSpec.bind fun spec => spec.smScale).getD (invSqrt q.headDim)) (attnWindow attnSpec) s)
    (hpos : s.start + token < s.start + s.tokens.length) (x : Nat) :
    some ((self.launchArgs invSqrt pool q numKv attnSpec (s.tableRows pool phase)).attended exp 0
        (s.tableRows pool phase).stride (head / (q.heads / numKv))
        ((s.start + s.tokens.length : Nat) : Int) ((s.start + token : Nat) : Int)
        (token * q.heads + head) x) =
      TritonAttentionBackend.attendRow exp (q.at' head token) q.headDim
        ((attnSpec.bind fun spec => spec.smScale).getD (invSqrt q.headDim)) none
        (pool.rowKeys s.tableIdx 0 (s.start + s.tokens.length) (s.start + s.tokens.length)
          (attnWindow attnSpec) (s.start + token) (head / (q.heads / numKv))) x := by
  have hown : Attends none (pool.rowKeys s.tableIdx 0 (s.start + s.tokens.length)
      (s.start + s.tokens.length) (attnWindow attnSpec) (s.start + token)
      (head / (q.heads / numKv))) := by
    -- a query attends to its own position
    refine .inr ⟨_, List.mem_map_of_mem (List.mem_range.mpr hpos), ?_⟩
    simp only [TritonAttentionBackend.allowed, le_refl, decide_true, Bool.true_or, Bool.and_self,
      sub_self, Bool.true_and, Bool.or_eq_true, decide_eq_true_eq]
    omega
  rw [attendRow_eq hown, KernelArgs.attended, Int.toNat_natCast, KVPool.rowKeys, List.map_map]
  congr 2
  rw [sinkKey, Option.map_none, Option.toList_none, List.append_nil]
  refine List.map_congr_left fun p hp => ?_
  have hp := List.mem_range.mp hp
  exact keyAt_eq hkv hd hhead htoken habove hp

variable [IsStrictOrderedRing K]

/-- What a launch leaves in memory is what the softmax of its keys is, in any order of stores. -/
theorem readOut_launch (he : Exponential exp) {phase : Phase}
    (hdecode : phase = .decode → s.tokens.length = 1)
    (hgroup : q.heads = numKv * (q.heads / numKv)) {stores order : List (Nat × K)}
    (hlaunch : self.launch exp invSqrt pool q numKv phase attnSpec (s.tableRows pool phase) =
      some stores) (horder : order.Perm stores) (hhead : head < q.heads)
    (htoken : token < s.tokens.length) (hx : x < q.headDim) :
    readOut q order head token x =
      (self.launchArgs invSqrt pool q numKv attnSpec (s.tableRows pool phase)).attended exp 0
        (s.tableRows pool phase).stride (head / (q.heads / numKv))
        ((s.start + s.tokens.length : Nat) : Int) ((s.start + token : Nat) : Int)
        (token * q.heads + head) x := by
  cases phase with
  | decode =>
      have hone := hdecode rfl
      obtain rfl : token = 0 := by omega
      rw [launch, if_pos rfl] at hlaunch
      have hcomputes := KernelArgs.decode_computes he hgroup hlaunch horder Nat.zero_lt_one hhead hx
        fun _ => 0
      simp only [Nat.zero_mul, Nat.zero_add] at hcomputes
      rw [readOut, Nat.zero_mul, Nat.zero_add, Nat.add_zero]
      refine hcomputes.trans ?_
      change KernelArgs.attended _ exp 0 3 _ ((s.tableRows pool .decode).pointer 1)
        ((s.tableRows pool .decode).pointer 2) _ _ = _
      rw [pointer_kvLen, pointer_qpos]
      rfl
  | prefill =>
      rw [launch, if_neg Phase.noConfusion] at hlaunch
      have hext : (s.tableRows pool .prefill).pointer 3 = (s.tokens.length : Int) := by
        simp [TableRows.pointer, TableRows.stride, Slice.tableRows]
      have hbase : (s.tableRows pool .prefill).pointer 4 = 0 := by
        simp [TableRows.pointer, TableRows.stride, Slice.tableRows]
      have hrow : ∀ t, (self.launchArgs invSqrt pool q numKv attnSpec
          (s.tableRows pool .prefill)).tokenRow 0 t = t := by
        intro t
        rw [KernelArgs.tokenRow, Nat.zero_mul, Nat.zero_mul]
        change ((s.tableRows pool .prefill).pointer 4 + (t : Int)).toNat = t
        rw [hbase, Int.zero_add, Int.toNat_natCast]
      have hapart : (self.launchArgs invSqrt pool q numKv attnSpec
          (s.tableRows pool .prefill)).RowsApart := by
        intro b hb t _ b' hb' t' _ heq
        obtain rfl := Nat.lt_one_iff.mp hb
        obtain rfl := Nat.lt_one_iff.mp hb'
        rw [hrow, hrow] at heq
        exact ⟨rfl, heq⟩
      have hcomputes := KernelArgs.prefill_computes he hgroup hapart hlaunch horder Nat.zero_lt_one
        (t := token) (by
          change token < ((s.tableRows pool .prefill).pointer (0 * self.kvNumSlots * 5 + 3)).toNat
          rw [Nat.zero_mul, Nat.zero_mul, Nat.zero_add, hext, Int.toNat_natCast]
          exact htoken) hhead hx fun _ => 0
      simp only [hrow, Nat.zero_mul, Nat.zero_add] at hcomputes
      rw [readOut]
      refine hcomputes.trans ?_
      change KernelArgs.attended _ exp 0 5 _ ((s.tableRows pool .prefill).pointer 1)
        ((s.tableRows pool .prefill).pointer 2 + (token : Int)) _ _ = _
      rw [pointer_kvLen, pointer_qpos, Int.natCast_add s.start token]
      rfl

/-- What a launch leaves in memory is what the reference answers. -/
theorem answers_launch (he : Exponential exp) {phase : Phase}
    (hdecode : phase = .decode → s.tokens.length = 1)
    (hgroup : pool.numKvHeads * (q.heads / pool.numKvHeads) = q.heads)
    (hd : pool.headDim = q.headDim) (hq : q.tokens = s.tokens.length)
    (habove : LogitsAbove pool q
      ((attnSpec.bind fun spec => spec.smScale).getD (invSqrt q.headDim)) (attnWindow attnSpec) s)
    {stores order : List (Nat × K)}
    (hlaunch : self.launch exp invSqrt pool q pool.numKvHeads phase attnSpec
      (s.tableRows pool phase) = some stores) (horder : order.Perm stores) (hhead : head < q.heads)
    (htoken : token < q.tokens) (hx : x < q.headDim) :
    TritonAttentionBackend.answers exp pool s.tableIdx q s.positions (s.start + s.tokens.length)
        (s.start + s.tokens.length) (q.heads / pool.numKvHeads)
        ((attnSpec.bind fun spec => spec.smScale).getD (invSqrt q.headDim)) (attnWindow attnSpec) 0
        none head token x =
      some (readOut q order head token x) := by
  have hpos : s.positions.getD token 0 = s.start + token := by
    simp [Slice.positions, ← hq, htoken]
  rw [TritonAttentionBackend.answers, hpos, Option.map_none,
    readOut_launch he hdecode hgroup.symm hlaunch horder hhead (hq ▸ htoken) hx]
  exact (attended_eq rfl hd hhead htoken habove (Nat.add_lt_add_left (hq ▸ htoken) _) x).symm

end SyclAttentionBackend

/-- The tokens of a request in a decode are one. -/
theorem Shares.length_of_decode {phase : Phase} {req : Req} {s : Slice} (h : Shares phase req s)
    (hphase : phase = .decode) : s.tokens.length = 1 := by
  have hone := h.stepLen_eq
  rw [stepLen, if_pos hphase] at hone
  exact hone.symm

/-- A launch has a meaning within the limits of the kernels. -/
theorem SyclAttentionBackend.launch_isSome_iff {K : Type} [Field K] [LinearOrder K] {exp : K → K}
    {self : SyclAttentionBackend} {invSqrt : Nat → K} {pool : KVPool K} {q : Queries K} {numKv : Nat}
    {phase : Phase} {attnSpec : Option (AttentionSpec K)} {oneRow : TableRows} :
    (self.launch exp invSqrt pool q numKv phase attnSpec oneRow).isSome ↔
      0 < numKv ∧ q.heads / numKv ≤ 64 ∧ q.heads / numKv * q.headDim ≤ 64 * 256 ∧
        numKv ≤ self.maxWorkGroupSize := by
  have hone : (self.launchArgs invSqrt pool q numKv attnSpec oneRow).bs ≠ 0 := Nat.one_ne_zero
  have hlimits : (self.launchArgs invSqrt pool q numKv attnSpec oneRow).Launches ↔
      0 < numKv ∧ q.heads / numKv ≤ 64 ∧ q.heads / numKv * q.headDim ≤ 64 * 256 ∧
        numKv ≤ self.maxWorkGroupSize := by
    simp [KernelArgs.Launches, launchArgs, KernelArgs.g]
  rw [← hlimits, launch]
  split <;> exact KernelArgs.launch_isSome_iff.trans (or_iff_right hone)

/-! ### A step -/

/-- A spec without its sinks. -/
def AttentionSpec.withoutSinks {K : Type} (spec : AttentionSpec K) : AttentionSpec K :=
  { spec with sinks := none }

namespace Engine

variable {K : Type} [Field K] [LinearOrder K] [IsStrictOrderedRing K] {exp : K → K}
  {e e' : Engine} {sampled : Nat → Token} {out : StepOutput}

/-- In every step of every run the tables are built if and only if each history fits them and the
page table, and a launch is then defined within the limits of the kernels and the device. Where the
keys that a request attends to have logits above that of a masked key, it computes, whatever the
order of its stores, what the reference computes for the first layer, with the scale of the spec
and without its sinks. -/
theorem sycl_eq_torch (he : OnlineSoftmax.Exponential exp) {config : EngineConfig} {calls : List Call}
    (hrun : runs config calls = some e) (hstep : e.step sampled = .ok (out, e'))
    (sycl : SyclAttentionBackend) (invSqrt : Nat → K) (pool : KVPool K)
    (attnSpec : Option (AttentionSpec K)) :
    ((sycl.buildMetadata pool out.attnBatch).isSome ↔
      ∀ s ∈ out.slices, s.start + s.tokens.length ≤ sycl.kvNumSlots ∧
        s.start + s.tokens.length ≤ pool.maxSeqLen) ∧
    ∀ metadata, sycl.buildMetadata pool out.attnBatch = some metadata →
      ∀ s ∈ out.slices, ∀ q : Queries K, q.tokens = s.tokens.length →
        ((sycl.forward exp metadata invSqrt pool q pool.numKvHeads out.attnBatch attnSpec
            s.tableIdx).isSome ↔
          0 < pool.numKvHeads ∧ q.heads / pool.numKvHeads ≤ 64 ∧
            q.heads / pool.numKvHeads * q.headDim ≤ 64 * 256 ∧
            pool.numKvHeads ≤ sycl.maxWorkGroupSize) ∧
        (SyclAttentionBackend.LogitsAbove pool q
          ((attnSpec.bind fun spec => spec.smScale).getD (invSqrt q.headDim))
          (attnWindow attnSpec) s →
        ∀ stores, sycl.forward exp metadata invSqrt pool q pool.numKvHeads out.attnBatch attnSpec
            s.tableIdx = some stores →
        ∀ rows, ({} : TritonAttentionBackend).forward exp
            (fun d => (attnSpec.bind fun spec => spec.smScale).getD (invSqrt d)) pool q
            pool.numKvHeads 0 out.attnBatch (attnSpec.map AttentionSpec.withoutSinks) s.tableIdx =
              some rows →
        ∀ order : List (Nat × K), order.Perm stores →
          ∀ head < q.heads, ∀ token < q.tokens, ∀ x < q.headDim,
            rows head token x = some (readOut q order head token x)) := by
  have hcut := attnBatch_cut hrun hstep
  refine ⟨SyclAttentionBackend.buildMetadata_isSome_iff hcut, ?_⟩
  intro metadata hmeta s hs q hq
  rcases List.mem_iff_getElem?.mp hs with ⟨b, hb⟩
  refine ⟨by rw [SyclAttentionBackend.forward_eq hcut hmeta hb,
    SyclAttentionBackend.launch_isSome_iff], ?_⟩
  intro habove stores hstores rows hrows order horder head hhead token htoken x hx
  rcases hcut.exists_req hb with ⟨req, -, hshare⟩
  have hwindow : attnWindow (attnSpec.map AttentionSpec.withoutSinks) = attnWindow attnSpec := by
    cases attnSpec <;> rfl
  have hsinks : ((attnSpec.map AttentionSpec.withoutSinks).bind fun spec => spec.sinks) = none := by
    cases attnSpec <;> rfl
  rw [TritonAttentionBackend.forward_eq hcut hb hq, TritonAttentionBackend.forwardSlice, hwindow,
    hsinks] at hrows
  rcases TritonAttentionBackend.attendOne_eq_some hrows with ⟨hread, ⟨hgroup, hd, -⟩, rfl⟩
  have hlen : ({} : TritonAttentionBackend).readLen (s.start + s.tokens.length) =
      s.start + s.tokens.length := by simp [TritonAttentionBackend.readLen]
  rw [SyclAttentionBackend.forward_eq hcut hmeta hb] at hstores
  rw [hlen]
  exact SyclAttentionBackend.answers_launch he hshare.length_of_decode hgroup hd hq habove hstores
    horder hhead htoken hx

/-- The prefill of three tokens. -/
theorem threeTokens_slices : ∃ e e' out, runs singleRow [.addRequest
      { uid := 0, inputIds := [7, 8, 9], samplingParams := { maxTokens := 1 } }] = some e ∧
    e.step (fun _ => 5) = .ok (out, e') ∧ out.slices = [⟨0, 0, [7, 8, 9]⟩] := by
  have hsteps : ((runs singleRow [.addRequest
      { uid := 0, inputIds := [7, 8, 9], samplingParams := { maxTokens := 1 } }]).bind fun e =>
        (e.step fun _ => 5).toOption.map fun r => r.1.slices) = some [⟨0, 0, [7, 8, 9]⟩] := by
    decide +kernel
  obtain ⟨e, hrun, hmap⟩ := Option.bind_eq_some_iff.mp hsteps
  obtain ⟨⟨out, e'⟩, hopt, hslices⟩ := Option.map_eq_some_iff.mp hmap
  exact ⟨e, e', out, hrun, toOption_eq_some.mp hopt, hslices⟩

/-- Logits of ones are above the mask. -/
theorem onesPool_above (window : Int) : SyclAttentionBackend.LogitsAbove (onesPool ℝ) (onesQueries ℝ 3)
    (1 / √(1 : Nat)) window ⟨0, 0, [7, 8, 9]⟩ := by
  intro head _ token _ p _ _
  have hmasked : (maskedLogit : ℝ) < 0 := neg_lt_zero.mpr (Nat.cast_pos.mpr (by decide))
  simpa [onesQueries, onesPool, KVPool.keyAt] using hmasked.trans one_pos

/-- The prefill of three tokens, by both backends. -/
theorem threeOnes_agree : ∃ e e' out metadata stores, ∃ rows : Nat → Nat → Nat → Option ℝ,
    runs singleRow [.addRequest
      { uid := 0, inputIds := [7, 8, 9], samplingParams := { maxTokens := 1 } }] = some e ∧
    e.step (fun _ => 5) = .ok (out, e') ∧
    (⟨4, 1024⟩ : SyclAttentionBackend).buildMetadata (onesPool ℝ) out.attnBatch = some metadata ∧
    (⟨4, 1024⟩ : SyclAttentionBackend).forward Real.exp metadata (fun d => 1 / √d) (onesPool ℝ)
      (onesQueries ℝ 3) 1 out.attnBatch none 0 = some stores ∧
    ({} : TritonAttentionBackend).forward Real.exp (fun d => 1 / √d) (onesPool ℝ) (onesQueries ℝ 3) 1 0
      out.attnBatch none 0 = some rows ∧
    ∀ order : List (Nat × ℝ), order.Perm stores → ∀ head < 2, ∀ token < 3,
      rows head token 0 = some (readOut (onesQueries ℝ 3) order head token 0) := by
  obtain ⟨e, e', out, hrun, hstep, hslices⟩ := threeTokens_slices
  have hs : out.slices[0]? = some ⟨0, 0, [7, 8, 9]⟩ := by
    rw [hslices]
    rfl
  have hmem := List.mem_of_getElem? hs
  obtain ⟨hbuilt, hagree⟩ := sycl_eq_torch (⟨Real.exp_add, Real.exp_pos⟩ : Exponential Real.exp) hrun
    hstep ⟨4, 1024⟩ (fun d => 1 / √d) (onesPool ℝ) none
  obtain ⟨metadata, hmeta⟩ := Option.isSome_iff_exists.mp (hbuilt.mpr (by
    intro s hs
    rw [hslices] at hs
    rw [List.mem_singleton.mp hs]
    exact ⟨by decide, by decide⟩))
  obtain ⟨hlaunch, hagree⟩ := hagree metadata hmeta _ (List.mem_of_getElem? hs) (onesQueries ℝ 3) rfl
  obtain ⟨stores, hstores⟩ := Option.isSome_iff_exists.mp (hlaunch.mpr (by decide))
  have hrows : ({} : TritonAttentionBackend).forward Real.exp (fun d => 1 / √d) (onesPool ℝ)
      (onesQueries ℝ 3) 1 0 out.attnBatch none 0 = some _ :=
    (TritonAttentionBackend.forward_eq (attnBatch_cut hrun hstep) hs rfl).trans
      (TritonAttentionBackend.attendOne_eq (onesPool_readable (Nat.le_succ 3)) ⟨rfl, rfl, rfl⟩)
  exact ⟨e, e', out, metadata, stores, _, hrun, hstep, hmeta, hstores, hrows,
    fun order horder head hhead token htoken =>
      hagree (onesPool_above _) stores hstores _ hrows order horder head hhead token htoken 0 Nat.one_pos⟩

end Engine

end FreeToken
