import FreeToken.Engine.State

/-!
# `Engine.step`

One step schedules a batch, builds the flat tensors of the forward, restores
anchor snapshots, samples, commits the finished requests to the prefix cache and
hands the batch back to the scheduler. The sampled tokens are an input: the
model's forward and the sampler are modelled over the tensors a step reports in
its `StepOutput`.
-/

namespace FreeToken

/-! ### The batch tensors -/

/-- `ids[k]`, negative indices counting from the end. -/
def pyGet (ids : List Token) (k : Int) : Option Token :=
  if k < 0 then (if 0 ≤ (ids.length : Int) + k then ids[((ids.length : Int) + k).toNat]? else none)
  else ids[k.toNat]?

/-- The inner loop of the prefill branch: `n` tokens of `ids` from `start`. -/
def readRange (ids : List Token) (start : Int) : Nat → Option (List Token)
  | 0 => some []
  | n + 1 =>
      match pyGet ids start, readRange ids (start + 1) n with
      | some tok, some toks => some (tok :: toks)
      | _, _ => none

/-- One request's share of a batch: its row, and its new tokens from position
`start` on. -/
structure Slice where
  tableIdx : Nat
  start : Nat
  tokens : List Token
deriving DecidableEq, Repr

/-- The tokens a request extends by, and where they start. -/
def Req.slice (phase : Phase) (req : Req) : Option Slice :=
  match phase with
  | .prefill =>
      (readRange req.inputIds req.cachedLen req.extendLen.toNat).map fun tokens =>
        { tableIdx := req.tableIdx, start := req.cachedLen.toNat, tokens := tokens }
  | .decode =>
      (req.inputIds.getLast?).map fun tok =>
        { tableIdx := req.tableIdx, start := req.deviceLen - 1, tokens := [tok] }

/-- The slices of a batch in request order; `none` is an `IndexError`. -/
def slicesOf (phase : Phase) : List Req → Option (List Slice)
  | [] => some []
  | req :: reqs =>
      match req.slice phase, slicesOf phase reqs with
      | some s, some ss => some (s :: ss)
      | _, _ => none

namespace Slice

def positions (s : Slice) : List Nat := List.range' s.start s.tokens.length

/-- A forward over the slice reads its page-table row at every position, and
takes the logits of its last token. -/
def Runs (maxSeqLen : Nat) (s : Slice) : Prop :=
  s.tokens ≠ [] ∧ s.start + s.tokens.length ≤ maxSeqLen

instance (maxSeqLen : Nat) (s : Slice) : Decidable (s.Runs maxSeqLen) :=
  inferInstanceAs (Decidable (_ ∧ _))

end Slice

/-- `batch.input_ids`, `batch.positions`, `batch.out_loc`, `batch.extend_lens`. -/
structure BatchTensors where
  inputIds : List Token := []
  positions : List Nat := []
  outLoc : List Nat := []
  extendLens : List Nat := []
deriving DecidableEq, Repr

/-- The loop that builds the tensors: each slice appends to all of them, and
`out_locs` receives the position. -/
def BatchTensors.ofSlices : List Slice → BatchTensors
  | [] => {}
  | s :: ss =>
      let t := ofSlices ss
      { inputIds := s.tokens ++ t.inputIds
        positions := s.positions ++ t.positions
        outLoc := s.positions ++ t.outLoc
        extendLens := s.tokens.length :: t.extendLens }

/-! ### Sampling one request -/

namespace Req

/-- Append the sampled token; decode keeps only the token itself. -/
def append (phase : Phase) (tok : Token) (req : Req) : Req :=
  { req with
    inputIds := if phase = .decode then [tok] else req.inputIds ++ [tok]
    deviceLen := req.deviceLen + 1 }

/-- The first tool-call anchor a request samples is recorded. -/
def detectAnchor (anchorId : Option Token) (tok : Token) (req : Req) : Req :=
  if anchorId = some tok ∧ req.toolcallAnchorLen = none then
    { req with toolcallAnchorLen := some req.deviceLen }
  else req

/-- `mamba_ping_pong[mamba_next_track_idx]`. -/
def trackSlot (req : Req) : Option Slot :=
  req.mambaPingPong.map fun pp => if req.mambaNextTrackIdx = 0 then pp.1 else pp.2

/-- The step after the one that sampled the anchor, and not tracked before. -/
def reachesAnchor (req : Req) : Option Nat :=
  match req.toolcallAnchorLen with
  | none => none
  | some anchor =>
      if req.mambaLastTrackSeqlen = none ∧ req.deviceLen = anchor + 1 then some anchor else none

/-- `snapshot_toolcall_anchor`: the slots copied, when the anchor is page-aligned. -/
def freeze (pageSize : Nat) (req : Req) : Option (Nat × Slot × Slot) :=
  match req.reachesAnchor, req.trackSlot, req.linearSlotIdx with
  | some anchor, some dst, some live =>
      if alignDownNat anchor pageSize = anchor then some (anchor, live, dst) else none
  | _, _, _ => none

def tracked (anchor : Nat) (req : Req) : Req :=
  { req with
    mambaLastTrackSeqlen := some anchor
    mambaNextTrackIdx := 1 - req.mambaNextTrackIdx }

/-- The final chunk's cached prefix is snapped to the prompt. -/
def snapCachedLen (phase : Phase) (req : Req) : Req :=
  if phase = .prefill ∧ 0 < req.cachedLen then
    { req with cachedLen := (req.inputIds.length : Int) - 1 }
  else req

/-- The stop conditions: the end token, unless ignored, and the length. -/
def markDone (eosTokenId : Int) (tok : Token) (req : Req) : Req :=
  if ((tok : Int) = eosTokenId ∧ req.samplingParams.ignoreEos = false) ∨
      req.maxDeviceLen ≤ req.deviceLen then
    { req with aborted := true }
  else req

/-- `req.mamba_restore_src = None`. -/
def restored (req : Req) : Req := { req with mambaRestoreSrc := none }

end Req

namespace Engine

/-- What a step reports: the forward's inputs, and the requests afterwards. -/
structure StepOutput where
  /-- The batch as scheduled; no requests when the engine is idle. -/
  batch : Batch := { reqs := [], phase := .decode }
  slices : List Slice := []
  /-- The copies made before the forward: request uid, source, live slot. -/
  restores : List (Int × Slot × Slot) := []
  /-- The copies made after it: live slot, track slot. -/
  snapshots : List (Slot × Slot) := []
  /-- `ForwardOutput.reqs` and the token sampled for each. -/
  reqs : List Req := []
  nextTokenIds : List Token := []
  finished : List Req := []

/-- The tensors the forward is called with. -/
def StepOutput.tensors (out : StepOutput) : BatchTensors := BatchTensors.ofSlices out.slices

/-- The restore loop: the copies of a batch. -/
def restoresOf (e : Engine) (reqs : List Req) : List (Int × Slot × Slot) :=
  if e.linearStatePool.isSome then
    reqs.filterMap fun req =>
      match req.mambaRestoreSrc, req.linearSlotIdx with
      | some src, some dst => some (req.uid, src, dst)
      | _, _ => none
  else []

def clearRestore (e : Engine) (req : Req) : Req :=
  if e.linearStatePool.isSome then req.restored else req

/-- The snapshot a request is due once the token is appended. -/
def snapshotOf (e : Engine) (req : Req) : Option (Nat × Slot × Slot) :=
  if e.linearStatePool.isSome then req.freeze e.config.pageSize else none

/-- One round of the sampling loop, as far as the request itself goes. -/
def sampleReq (e : Engine) (phase : Phase) (tok : Token) (req : Req) : Req :=
  if req.chunked then req
  else
    let req := (req.append phase tok).detectAnchor e.config.toolcallAnchorId tok
    let req :=
      match e.snapshotOf req with
      | some (anchor, _, _) => req.tracked anchor
      | none => req
    (req.snapCachedLen phase).markDone e.config.eosTokenId tok

/-- `_full_ids` after a round. -/
def recordIds (e : Engine) (phase : Phase) (tok : Token) (req : Req) : Nat → Option (List Token) :=
  if req.chunked ∨ e.cacheManager.isNone then e.fullIds
  else
    Function.update e.fullIds req.tableIdx
      (if phase = .decode then (e.fullIds req.tableIdx).map (· ++ [tok])
        else some (req.inputIds ++ [tok]))

/-- One round of the sampling loop. -/
def sampleOne (e : Engine) (phase : Phase) (tok : Token) (req : Req) : Engine :=
  let e := { e with fullIds := e.recordIds phase tok req }
  if req.chunked then e
  else
    match e.snapshotOf ((req.append phase tok).detectAnchor e.config.toolcallAnchorId tok) with
    | none => e
    | some (anchor, _, dst) =>
        { e with
          mambaAnchorSnapshots :=
            dictSet (((e.fullIds req.tableIdx).getD []).take anchor) dst e.mambaAnchorSnapshots }

def sampleAll (e : Engine) (phase : Phase) : List (Token × Req) → Engine
  | [] => e
  | (tok, req) :: reqs => (e.sampleOne phase tok req).sampleAll phase reqs

def snapshotsOf (e : Engine) (phase : Phase) (reqs : List (Token × Req)) : List (Slot × Slot) :=
  reqs.filterMap fun (tok, req) =>
    if req.chunked then none
    else
      (e.snapshotOf ((req.append phase tok).detectAnchor e.config.toolcallAnchorId tok)).map
        fun s => s.2

/-! ### Committing a finished request -/

/-- `commit`, then the slots the tree did not take go back to the pool. -/
def commitIds (e : Engine) (c : RadixPrefixCache) (tableIdx : Nat) (fullIds : List Token)
    (admittedCachedLen : Nat) : Option Engine :=
  if fullIds = [] then some { e with cacheManager := some c }
  else
    match c.insertPrefix fullIds (e.rowSlice tableIdx 0 fullIds.length) with
    | none => none
    | some (res, c) =>
        let redundant := e.rowSlice tableIdx admittedCachedLen res.cachedLen
        let neverWritten := e.rowSlice tableIdx fullIds.length e.config.maxSeqLen
        some { e with
          cacheManager := some c
          kvCache := (e.kvCache.detach tableIdx).releaseSlots (redundant ++ neverWritten) }

/-- The linear slots of a finished request, donated track slots apart. -/
def undonated (e : Engine) (req : Req) : List Slot :=
  match req.linearSlotIdx with
  | none => []
  | some live =>
      live :: (match req.mambaPingPong with
        | none => []
        | some (track0, track1) =>
            [track0, track1].filter fun s => s ∉ e.mambaAnchorSnapshots.map Prod.snd)

def releaseLinear (e : Engine) (req : Req) : Engine :=
  { e with linearStatePool := e.linearStatePool.map fun pool => pool.free (e.undonated req) }

/-- One round of the commit loop; `none` is one of its assertions. -/
def commitOne (e : Engine) (req : Req) : Option Engine :=
  match e.cacheManager with
  | none => some e
  | some c =>
      let fullIds := (e.fullIds req.tableIdx).getD []
      let admitted := ((e.admittedCachedLen req.tableIdx).getD 0).toNat
      let e :=
        { e with
          fullIds := Function.update e.fullIds req.tableIdx none
          admittedCachedLen := Function.update e.admittedCachedLen req.tableIdx none }
      match (match req.cacheHandle with | none => some c | some h => c.unlock h) with
      | none => none
      | some c => (e.commitIds c req.tableIdx fullIds admitted).map fun e => e.releaseLinear req

def commitAll (e : Engine) : List Req → Option Engine
  | [] => some e
  | req :: reqs =>
      match e.commitOne req with
      | none => none
      | some e => e.commitAll reqs

/-! ### The step -/

/-- `scheduler.complete`, then the KV slots of the rows it freed. -/
def complete (e : Engine) (reqs : List Req) : Engine :=
  { e with scheduler := e.scheduler.complete reqs }.freeRows e.scheduler.freeSlots

/-- The requests a step finished. A `ChunkedReq` is never among them. -/
def finishedOf (reqs : List Req) : List Req :=
  reqs.filter fun req => !req.chunked && req.aborted

/-- `step`, with the sampled token of each request of the batch. -/
def step (e : Engine) (sampled : Nat → Token) : Except EngineError (StepOutput × Engine) :=
  match e.scheduler.schedule with
  | none => .ok ({}, e)
  | some (batch, scheduler) =>
      match slicesOf batch.phase batch.reqs with
      | none => .error .indexError
      | some slices =>
          if ¬ ∀ s ∈ slices, s.tokens ≠ [] then .error .emptyForward
          else if ¬ ∀ s ∈ slices, s.Runs e.config.maxSeqLen then .error .indexError
          else
            let nextTokenIds := (List.range batch.reqs.length).map sampled
            let rounds := nextTokenIds.zip batch.reqs
            let reqs := rounds.map fun (tok, req) =>
              e.sampleReq batch.phase tok (e.clearRestore req)
            let finished := finishedOf reqs
            match ({ e with scheduler := scheduler }.sampleAll batch.phase rounds).commitAll
                finished with
            | none => .error .assertion
            | some e' =>
                .ok ({ batch := batch
                       slices := slices
                       restores := e.restoresOf batch.reqs
                       snapshots := e.snapshotsOf batch.phase rounds
                       reqs := reqs
                       nextTokenIds := nextTokenIds
                       finished := finished },
                  e'.complete reqs)

end Engine

end FreeToken
