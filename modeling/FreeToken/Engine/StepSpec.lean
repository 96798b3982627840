import FreeToken.Scheduler.SchedulerSpec
import FreeToken.Engine.Step

/-!
# What a step that returns did

`step_cases` takes a returned step apart once: the batch and its slices, the
rounds of the sampling loop, the commits, and the scheduler around them. The
later modules follow their own part of the state through these pieces.
-/

namespace FreeToken

/-! ### Slices -/

theorem pyGet_natCast (ids : List Token) (k : Nat) : pyGet ids (k : Int) = ids[k]? := by
  have h : ¬ ((k : Int) < 0) := by omega
  simp [pyGet, h]

theorem readRange_natCast {ids : List Token} : ∀ {n start : Nat}, start + n ≤ ids.length →
    readRange ids (start : Int) n = some ((ids.drop start).take n)
  | 0, start, _ => by simp [readRange]
  | n + 1, start, h => by
      have hlt : start < ids.length := by omega
      have ih := readRange_natCast (show start + 1 + n ≤ ids.length by omega)
      have hdrop : ids.drop start = ids[start] :: ids.drop (start + 1) :=
        List.drop_eq_getElem_cons hlt
      simp only [Int.natCast_add, Int.natCast_one] at ih
      simp only [readRange, pyGet_natCast, List.getElem?_eq_getElem hlt, ih, hdrop,
        List.take_succ_cons]

theorem readRange_nil {start : Int} {n : Nat} {toks : List Token}
    (h : readRange [] start n = some toks) : toks = [] := by
  cases n with
  | zero => simpa [readRange] using h.symm
  | succ n =>
      have hget : pyGet [] start = none := by
        unfold pyGet
        split
        · split <;> simp
        · simp
      simp [readRange, hget] at h

theorem slice_inputIds_ne_nil {phase : Phase} {req : Req} {s : Slice}
    (h : req.slice phase = some s) (hne : s.tokens ≠ []) : req.inputIds ≠ [] := by
  intro hnil
  cases phase with
  | prefill =>
      simp only [Req.slice, hnil, Option.map_eq_some_iff] at h
      obtain ⟨toks, htoks, rfl⟩ := h
      exact hne (readRange_nil htoks)
  | decode => simp [Req.slice, hnil] at h

/-- The slice of an extended entry: the prompt from where it stood to the new
`device_len`. -/
theorem slice_prefill {budget : Nat} {p : PendingReq} {req : Req} (h : Extends budget p req) :
    req.slice .prefill = some
      { tableIdx := req.tableIdx
        start := p.processed.toNat
        tokens := (p.inputIds.take req.deviceLen).drop p.processed.toNat } := by
  have h0 := h.processed_nonneg
  have h1 := h.processed_lt
  have h2 := h.deviceLen_le
  obtain ⟨n, hn⟩ := Int.eq_ofNat_of_zero_le h0
  have hext : req.extendLen.toNat = req.deviceLen - n := by
    rw [Req.extendLen, h.cachedLen_eq, hn]
    omega
  have hlen : (p.inputIds.take req.deviceLen).length = req.deviceLen := by
    rw [List.length_take]
    exact Nat.min_eq_left h2
  have hle : n + (req.deviceLen - n) ≤ (p.inputIds.take req.deviceLen).length := by omega
  have hread := readRange_natCast hle
  have htake : ((p.inputIds.take req.deviceLen).drop n).take (req.deviceLen - n) =
      (p.inputIds.take req.deviceLen).drop n := by
    rw [List.take_of_length_le]
    simp only [List.length_drop, hlen]
    exact Nat.le_refl _
  rw [htake] at hread
  simp only [Req.slice, h.cachedLen_eq, h.inputIds_eq, hext, hn, hread, Option.map_some]
  rfl

theorem slicesOf_map {phase : Phase} : ∀ {reqs : List Req} {slices : List Slice},
    slicesOf phase reqs = some slices → List.Forall₂ (fun req s => req.slice phase = some s) reqs slices
  | [], slices, h => by
      obtain rfl : [] = slices := by simpa [slicesOf] using h
      exact List.Forall₂.nil
  | req :: reqs, slices, h => by
      simp only [slicesOf] at h
      split at h
      · rename_i s ss hs hss
        obtain rfl : s :: ss = slices := by simpa using h
        exact List.Forall₂.cons hs (slicesOf_map hss)
      · cases h

/-! ### One round of sampling -/

/-- The stop conditions, on the request before the round. -/
def Req.Stops (eosTokenId : Int) (tok : Token) (req : Req) : Prop :=
  ((tok : Int) = eosTokenId ∧ req.samplingParams.ignoreEos = false) ∨
    req.maxDeviceLen ≤ req.deviceLen + 1

instance (eosTokenId : Int) (tok : Token) (req : Req) : Decidable (req.Stops eosTokenId tok) :=
  inferInstanceAs (Decidable (_ ∨ _))

theorem Req.markDone_eq (eosTokenId : Int) (tok : Token) (r : Req) :
    r.markDone eosTokenId tok =
      { r with
        aborted := r.aborted || decide (((tok : Int) = eosTokenId ∧
          r.samplingParams.ignoreEos = false) ∨ r.maxDeviceLen ≤ r.deviceLen) } := by
  unfold Req.markDone
  split
  · rename_i h
    simp [h]
  · rename_i h
    simp [h]

theorem Req.snapCachedLen_eq (phase : Phase) (r : Req) :
    ∃ cached, r.snapCachedLen phase = { r with cachedLen := cached } := by
  unfold Req.snapCachedLen
  split
  · exact ⟨_, rfl⟩
  · exact ⟨r.cachedLen, rfl⟩

theorem Req.detectAnchor_eq (anchorId : Option Token) (tok : Token) (r : Req) :
    ∃ anchor, r.detectAnchor anchorId tok = { r with toolcallAnchorLen := anchor } := by
  unfold Req.detectAnchor
  split
  · exact ⟨_, rfl⟩
  · exact ⟨r.toolcallAnchorLen, rfl⟩

namespace Engine

variable {e e' : Engine}

/-- A round appends the token, perhaps records an anchor and a snapshot, and
stops the request or not; nothing else about the request changes. -/
theorem sampleReq_eq (e : Engine) (phase : Phase) (tok : Token) (req : Req)
    (hc : req.chunked = false) :
    ∃ anchor last next cached, e.sampleReq phase tok req =
      { req with
        inputIds := if phase = .decode then [tok] else req.inputIds ++ [tok]
        deviceLen := req.deviceLen + 1
        toolcallAnchorLen := anchor
        mambaLastTrackSeqlen := last
        mambaNextTrackIdx := next
        cachedLen := cached
        aborted := req.aborted || decide (req.Stops e.config.eosTokenId tok) } := by
  obtain ⟨anchor, hanchor⟩ :=
    (req.append phase tok).detectAnchor_eq e.config.toolcallAnchorId tok
  have hnot : ¬ req.chunked = true := by simp [hc]
  unfold sampleReq
  rw [if_neg hnot]
  simp only [hanchor]
  split
  · rename_i n live dst _
    obtain ⟨cached, hcached⟩ :=
      (Req.tracked n { req.append phase tok with toolcallAnchorLen := anchor }).snapCachedLen_eq phase
    refine ⟨anchor, some n, 1 - req.mambaNextTrackIdx, cached, ?_⟩
    rw [hcached, Req.markDone_eq]
    rfl
  · obtain ⟨cached, hcached⟩ :=
      Req.snapCachedLen_eq phase { req.append phase tok with toolcallAnchorLen := anchor }
    refine ⟨anchor, req.mambaLastTrackSeqlen, req.mambaNextTrackIdx, cached, ?_⟩
    rw [hcached, Req.markDone_eq]
    rfl

theorem sampleReq_chunked {phase : Phase} {tok : Token} (req : Req) (hc : req.chunked = true) :
    e.sampleReq phase tok req = req := by
  simp [sampleReq, hc]

/-- What a round of the step makes of a request of the batch. -/
def roundOf (e : Engine) (phase : Phase) (x : Token × Req) : Req × Req :=
  (x.2, e.sampleReq phase x.1 (e.clearRestore x.2))

theorem clearRestore_eq (e : Engine) (req : Req) :
    ∃ src, e.clearRestore req = { req with mambaRestoreSrc := src } := by
  unfold clearRestore
  split
  · exact ⟨none, rfl⟩
  · exact ⟨req.mambaRestoreSrc, rfl⟩

/-- The request after its round, field by field where the scheduler and the
caches look. -/
structure Rounded (e : Engine) (phase : Phase) (tok : Token) (req req' : Req) : Prop where
  oid_eq : req'.oid = req.oid
  seat_eq : req'.seat = req.seat
  chunked_eq : req'.chunked = req.chunked
  maxDeviceLen_eq : req'.maxDeviceLen = req.maxDeviceLen
  samplingParams_eq : req'.samplingParams = req.samplingParams
  chunk : req.chunked = true → req'.deviceLen = req.deviceLen ∧ req'.inputIds = req.inputIds ∧
    req'.aborted = req.aborted
  sampled : req.chunked = false → req'.deviceLen = req.deviceLen + 1 ∧
    req'.inputIds = (if phase = .decode then [tok] else req.inputIds ++ [tok]) ∧
    (req'.aborted = true ↔ req.aborted = true ∨ req.Stops e.config.eosTokenId tok)

theorem rounded (e : Engine) (phase : Phase) (x : Token × Req) :
    Rounded e phase x.1 x.2 (e.roundOf phase x).2 := by
  obtain ⟨tok, req⟩ := x
  obtain ⟨src, hsrc⟩ := e.clearRestore_eq req
  simp only [roundOf, hsrc]
  by_cases hc : req.chunked = true
  · rw [sampleReq_chunked { req with mambaRestoreSrc := src } hc]
    exact ⟨rfl, rfl, rfl, rfl, rfl, fun _ => ⟨rfl, rfl, rfl⟩, fun h => by rw [hc] at h; cases h⟩
  · obtain ⟨anchor, last, next, cached, heq⟩ := e.sampleReq_eq phase tok
      { req with mambaRestoreSrc := src } (by simpa using hc)
    rw [heq]
    refine ⟨rfl, rfl, rfl, rfl, rfl, fun h => absurd h hc, fun _ => ⟨rfl, rfl, ?_⟩⟩
    show (req.aborted || decide (req.Stops e.config.eosTokenId tok)) = true ↔ _
    rw [Bool.or_eq_true, decide_eq_true_iff]

theorem Rounded.toSampled {phase : Phase} {tok : Token} {req req' : Req}
    (h : Rounded e phase tok req req') : Scheduler.Sampled req req' where
  oid_eq := h.oid_eq
  seat_eq := h.seat_eq
  chunked_eq := h.chunked_eq
  chunk_aborted := fun hc => (h.chunk hc).2.2
  going := by
    intro hc ha
    obtain ⟨hdev, -, hiff⟩ := h.sampled hc
    have hstop : ¬ req.Stops e.config.eosTokenId tok := fun hs => by
      rw [hiff.mpr (Or.inr hs)] at ha
      cases ha
    unfold Req.Stops at hstop
    rw [hdev, h.maxDeviceLen_eq]
    omega

/-! ### Frames of the loops -/

/-- What neither the sampling loop nor the commit loop touches. -/
structure SameFrame (e e' : Engine) : Prop where
  config_eq : e'.config = e.config
  pageTable_eq : e'.pageTable = e.pageTable
  scheduler_eq : e'.scheduler = e.scheduler
  poolNumPages_eq : e'.poolNumPages = e.poolNumPages
  poolBudget_eq : e'.poolBudget = e.poolBudget
  isSome_eq : e'.cacheManager.isSome = e.cacheManager.isSome
  kvPageSize_eq : e'.kvCache.pageSize = e.kvCache.pageSize
  kvNumPages_eq : e'.kvCache.numPages = e.kvCache.numPages

theorem SameFrame.refl (e : Engine) : SameFrame e e :=
  ⟨rfl, rfl, rfl, rfl, rfl, rfl, rfl, rfl⟩

theorem SameFrame.trans {e'' : Engine} (h : SameFrame e e') (h' : SameFrame e' e'') :
    SameFrame e e'' :=
  ⟨h'.1.trans h.1, h'.2.trans h.2, h'.3.trans h.3, h'.4.trans h.4, h'.5.trans h.5,
    h'.6.trans h.6, h'.7.trans h.7, h'.8.trans h.8⟩

/-- The sampling loop leaves the pools and the caches alone. -/
structure SampleFrame (e e' : Engine) : Prop extends SameFrame e e' where
  kvCache_eq : e'.kvCache = e.kvCache
  cacheManager_eq : e'.cacheManager = e.cacheManager
  admittedCachedLen_eq : e'.admittedCachedLen = e.admittedCachedLen
  linearStatePool_eq : e'.linearStatePool = e.linearStatePool

theorem sampleOne_frame (e : Engine) (phase : Phase) (tok : Token) (req : Req) :
    SampleFrame e (e.sampleOne phase tok req) := by
  unfold sampleOne
  dsimp only
  split
  · exact ⟨⟨rfl, rfl, rfl, rfl, rfl, rfl, rfl, rfl⟩, rfl, rfl, rfl, rfl⟩
  · split <;> exact ⟨⟨rfl, rfl, rfl, rfl, rfl, rfl, rfl, rfl⟩, rfl, rfl, rfl, rfl⟩

theorem sampleAll_frame : ∀ (rounds : List (Token × Req)) (e : Engine) (phase : Phase),
    SampleFrame e (e.sampleAll phase rounds)
  | [], e, _ => ⟨SameFrame.refl e, rfl, rfl, rfl, rfl⟩
  | (tok, req) :: rounds, e, phase => by
      have h := sampleOne_frame e phase tok req
      have ih := sampleAll_frame rounds (e.sampleOne phase tok req) phase
      exact ⟨h.toSameFrame.trans ih.toSameFrame, ih.2.trans h.2, ih.3.trans h.3, ih.4.trans h.4,
        ih.5.trans h.5⟩

theorem commitOne_frame {req : Req} (h : e.commitOne req = some e') :
    SameFrame e e' ∧ e'.mambaAnchorSnapshots = e.mambaAnchorSnapshots := by
  unfold commitOne at h
  split at h
  · cases h
    exact ⟨SameFrame.refl _, rfl⟩
  · rename_i c hcm
    have hsome : e.cacheManager.isSome = true := by rw [hcm]; rfl
    dsimp only at h
    split at h
    · cases h
    · simp only [Option.map_eq_some_iff] at h
      obtain ⟨e1, h1, rfl⟩ := h
      unfold commitIds at h1
      split at h1
      · cases h1
        exact ⟨⟨rfl, rfl, rfl, rfl, rfl, hsome.symm, rfl, rfl⟩, rfl⟩
      · split at h1
        · cases h1
        · cases h1
          refine ⟨⟨rfl, rfl, rfl, rfl, rfl, hsome.symm, ?_, ?_⟩, rfl⟩ <;>
            · simp only [releaseLinear, MHAKVCache.releaseSlots]
              split <;> rfl

theorem commitAll_frame : ∀ {reqs : List Req} {e e' : Engine}, e.commitAll reqs = some e' →
    SameFrame e e' ∧ e'.mambaAnchorSnapshots = e.mambaAnchorSnapshots
  | [], e, e', h => by
      cases h
      exact ⟨SameFrame.refl _, rfl⟩
  | req :: reqs, e, e', h => by
      simp only [commitAll] at h
      split at h
      · cases h
      · rename_i e1 h1
        obtain ⟨hf, ha⟩ := commitOne_frame h1
        obtain ⟨hf', ha'⟩ := commitAll_frame h
        exact ⟨hf.trans hf', ha'.trans ha⟩

/-! ### The whole step -/

/-- A returned step that had a batch to run. -/
structure StepRun (e : Engine) (sampled : Nat → Token) (out : StepOutput) (e' : Engine)
    (s1 : Scheduler) (e2 : Engine) : Prop where
  schedule_eq : e.scheduler.schedule = some (out.batch, s1)
  slices_eq : slicesOf out.batch.phase out.batch.reqs = some out.slices
  runs : ∀ s ∈ out.slices, s.Runs e.config.maxSeqLen
  nextTokenIds_eq : out.nextTokenIds = (List.range out.batch.reqs.length).map sampled
  reqs_eq : out.reqs =
    ((out.nextTokenIds.zip out.batch.reqs).map (e.roundOf out.batch.phase)).map Prod.snd
  finished_eq : out.finished = finishedOf out.reqs
  restores_eq : out.restores = e.restoresOf out.batch.reqs
  snapshots_eq : out.snapshots =
    e.snapshotsOf out.batch.phase (out.nextTokenIds.zip out.batch.reqs)
  commit_eq : (({ e with scheduler := s1 } : Engine).sampleAll out.batch.phase
    (out.nextTokenIds.zip out.batch.reqs)).commitAll out.finished = some e2
  final_eq : e' = e2.complete out.reqs

theorem step_cases {sampled : Nat → Token} {out : StepOutput}
    (h : e.step sampled = .ok (out, e')) :
    (e.scheduler.schedule = none ∧ out = {} ∧ e' = e) ∨
    ∃ s1 e2, StepRun e sampled out e' s1 e2 := by
  unfold step at h
  split at h
  · rename_i hnone
    simp only [Except.ok.injEq, Prod.mk.injEq] at h
    exact Or.inl ⟨hnone, h.1.symm, h.2.symm⟩
  · rename_i batch s1 hsched
    split at h
    · cases h
    · rename_i slices hslices
      split at h
      · cases h
      · split at h
        · cases h
        · rename_i hruns
          dsimp only at h
          split at h
          · cases h
          · rename_i e2 hcommit
            simp only [Except.ok.injEq, Prod.mk.injEq] at h
            obtain ⟨rfl, rfl⟩ := h
            refine Or.inr ⟨s1, e2, ?_⟩
            exact
              { schedule_eq := hsched
                slices_eq := hslices
                runs := not_not.mp hruns
                nextTokenIds_eq := rfl
                reqs_eq := by
                  rw [List.map_map]
                  rfl
                finished_eq := rfl
                restores_eq := rfl
                snapshots_eq := rfl
                commit_eq := hcommit
                final_eq := rfl }

namespace StepRun

variable {sampled : Nat → Token} {out : StepOutput} {s1 : Scheduler} {e2 : Engine}

/-- The rounds of the sampling loop: a token for each request of the batch. -/
def rounds (out : StepOutput) : List (Token × Req) := out.nextTokenIds.zip out.batch.reqs

/-- The pairs the scheduler sees: each request before and after its round. -/
def pairs (e : Engine) (out : StepOutput) : List (Req × Req) :=
  (rounds out).map (e.roundOf out.batch.phase)

/-- The engine between the sampling loop and the commits. -/
def mid (e : Engine) (out : StepOutput) (s1 : Scheduler) : Engine :=
  ({ e with scheduler := s1 } : Engine).sampleAll out.batch.phase (rounds out)

theorem mid_frame (e : Engine) (out : StepOutput) (s1 : Scheduler) :
    SampleFrame { e with scheduler := s1 } (mid e out s1) := sampleAll_frame _ _ _

variable (h : StepRun e sampled out e' s1 e2)
include h

theorem commit_mid : (mid e out s1).commitAll out.finished = some e2 := h.commit_eq

theorem length_nextTokenIds : out.nextTokenIds.length = out.batch.reqs.length := by
  rw [h.nextTokenIds_eq]
  simp

theorem map_snd_rounds : (rounds out).map Prod.snd = out.batch.reqs :=
  List.map_snd_zip (Nat.le_of_eq h.length_nextTokenIds.symm)

theorem map_fst_pairs : (pairs e out).map Prod.fst = out.batch.reqs := by
  rw [pairs, List.map_map]
  exact h.map_snd_rounds

theorem reqs_eq' : out.reqs = (pairs e out).map Prod.snd := h.reqs_eq

omit h in
theorem sampled_pairs : ∀ x ∈ pairs e out, Scheduler.Sampled x.1 x.2 := by
  intro x hx
  obtain ⟨y, -, rfl⟩ := List.mem_map.mp hx
  exact (rounded e out.batch.phase y).toSampled

/-- The slices, request by request. -/
theorem forall₂_slices :
    List.Forall₂ (fun req s => req.slice out.batch.phase = some s) out.batch.reqs out.slices :=
  slicesOf_map h.slices_eq

theorem exists_slice {req : Req} (hreq : req ∈ out.batch.reqs) :
    ∃ s ∈ out.slices, req.slice out.batch.phase = some s := by
  obtain ⟨i, hi, rfl⟩ := List.mem_iff_getElem.mp hreq
  have hlen := h.forall₂_slices.length_eq
  exact ⟨out.slices[i], List.getElem_mem _, List.Forall₂.get h.forall₂_slices hi (hlen ▸ hi)⟩

theorem inputIds_ne_nil : ∀ req ∈ out.batch.reqs, req.inputIds ≠ [] := by
  intro req hreq
  obtain ⟨s, hs, hslice⟩ := h.exists_slice hreq
  exact slice_inputIds_ne_nil hslice (h.runs s hs).1

theorem frame : SameFrame { e with scheduler := s1 } e2 :=
  (mid_frame e out s1).toSameFrame.trans (commitAll_frame h.commit_mid).1

theorem scheduler_eq : e'.scheduler = s1.complete out.reqs := by
  rw [h.final_eq, complete, freeRows, h.frame.scheduler_eq]

theorem stepped (hs : e.scheduler.Ok) :
    Scheduler.Stepped e.scheduler out.batch (pairs e out) e'.scheduler := by
  rw [h.scheduler_eq, h.reqs_eq']
  exact Scheduler.step_spec hs h.schedule_eq h.inputIds_ne_nil h.map_fst_pairs sampled_pairs

theorem batch_ne_nil (hs : e.scheduler.Ok) : out.batch.reqs ≠ [] :=
  (Scheduler.schedule_spec hs h.schedule_eq h.inputIds_ne_nil).1

theorem pageTable_eq : e'.pageTable = e.pageTable := by
  rw [h.final_eq]
  exact h.frame.pageTable_eq

theorem config_eq : e'.config = e.config := by
  rw [h.final_eq]
  exact h.frame.config_eq

theorem finishedIn_eq : Scheduler.finishedIn ((pairs e out).map Prod.snd) = out.finished := by
  rw [h.finished_eq, h.reqs_eq']
  rfl

end StepRun

end Engine

end FreeToken
