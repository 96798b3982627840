import FreeToken.Engine.LinearSlots

/-!
# The states behind the linear-state slots

What the linear layers of a model keep at a slot, over all layers, is one state. A step
copies anchor snapshots into live slots, advances the states of its requests by their
slices, and copies live slots into track slots. A run is watched by these states, by the
tokens that each row's request has had processed, and by a record of each prompt: the
chunks it was prefilled in, and the copies that were made into its slot before each.
-/

namespace FreeToken

/-- `linear_slot_idx`, or `table_idx` where the engine has given none. -/
def Seat.stateIdx (seat : Seat) : Nat := seat.linearSlotIdx.getD seat.row

/-- The linear layers of a model. Their input at a position is a function of the tokens up
to it; whatever lies between the layers is behind this. -/
structure LinearModel (ι σ : Type) extends Recurrence ι σ where
  input : List Token → ι

namespace LinearModel

variable {ι σ : Type} (m : LinearModel ι σ)

/-- The inputs for `toks` after the tokens `past`. -/
def inputsFrom (past toks : List Token) : List ι :=
  (List.range toks.length).map fun j => m.input (past ++ toks.take (j + 1))

/-- Processing `toks` after `past`. -/
def extend (past : List Token) (s : σ) (toks : List Token) : σ :=
  m.advance s (m.inputsFrom past toks)

end LinearModel

/-- `copy_from(src, dst)` for each copy, one after the other. -/
def copyStates {σ : Type} (copies : List (Slot × Slot)) (states : Nat → σ) : Nat → σ :=
  copies.foldl (fun states c => Function.update states c.2 (states c.1)) states

theorem copyStates_of_notMem {σ : Type} {i : Nat} : ∀ {copies : List (Slot × Slot)}
    {states : Nat → σ}, i ∉ copies.map Prod.snd → copyStates copies states i = states i
  | [], _, _ => rfl
  | c :: copies, states, h => by
      rw [List.map_cons, List.mem_cons, not_or] at h
      rw [copyStates, List.foldl_cons]
      exact (copyStates_of_notMem h.2).trans (Function.update_of_ne h.1 _ _)

/-- When no source is overwritten and each target is written once, the order is of no
account. -/
theorem copyStates_of_mem {σ : Type} {c : Slot × Slot} : ∀ {copies : List (Slot × Slot)}
    {states : Nat → σ}, (copies.map Prod.snd).Nodup → c.1 ∉ copies.map Prod.snd → c ∈ copies →
      copyStates copies states c.2 = states c.1
  | d :: copies, states, hn, hsrc, hc => by
      obtain ⟨hd, hn⟩ := List.nodup_cons.mp hn
      rw [List.map_cons, List.mem_cons, not_or] at hsrc
      rw [copyStates, List.foldl_cons]
      rcases List.mem_cons.mp hc with rfl | hc
      · exact (copyStates_of_notMem hd).trans (Function.update_self _ _ _)
      · exact (copyStates_of_mem hn hsrc.2 hc).trans (Function.update_of_ne hsrc.1 _ _)

/-! ### Records -/

/-- One chunk of a prompt: what was copied into the request's slot right before its
forward, the state the forward read, and the one it left. -/
structure ChunkRun (σ : Type) where
  tokens : List Token
  copied : List Slot
  before : σ
  after : σ
deriving DecidableEq

/-- A prompt as it was queued, and its chunks so far; `whole` once the last one ran. -/
structure PromptRun (σ : Type) where
  inputIds : List Token := []
  cachedLen : Nat := 0
  restoreSrc : Option Slot := none
  chunks : List (ChunkRun σ) := []
  whole : Bool := false
deriving DecidableEq

/-- The watcher. -/
structure StateTrace (σ : Type) where
  states : Nat → σ
  past : Engine.Histories Token := fun _ => []
  prompts : Nat → PromptRun σ := fun _ => {}
  log : List (PromptRun σ) := []

/-- The last token of a prefix. -/
def lastOf (ids : List Token) : Token := ids.getLast?.getD 0

namespace Engine

variable {e e' : Engine} {t : Transcript} {orphans : List RadixCacheHandle} {ι σ : Type}
  (m : LinearModel ι σ)

/-- The requests of a batch, each with its slice. -/
def StepOutput.jobs (out : StepOutput) : List (Req × Slice) := out.batch.reqs.zip out.slices

/-- The states after the restore loop. -/
def StepOutput.restored (out : StepOutput) (states : Nat → σ) : Nat → σ :=
  copyStates (out.restores.map Prod.snd) states

/-- The states after the forward. -/
def forwarded (past : Histories Token) (jobs : List (Req × Slice)) (states : Nat → σ) : Nat → σ :=
  (Sweep.sweep (fun j => j.1.seat.stateIdx)
    (fun j s => ((), m.extend (past j.2.tableIdx) s j.2.tokens)) jobs states).2

/-- What a request's chunk was. -/
def StepOutput.chunkRun (out : StepOutput) (g : StateTrace σ) (j : Req × Slice) : ChunkRun σ :=
  let restored := out.restored g.states
  { tokens := j.2.tokens
    copied := (out.restores.filter fun c => c.2.2 = j.1.seat.stateIdx).map fun c => c.2.1
    before := restored j.1.seat.stateIdx
    after := forwarded m g.past out.jobs restored j.1.seat.stateIdx }

/-- A request's record after its chunk ran. -/
def StepOutput.record (out : StepOutput) (g : StateTrace σ) (j : Req × Slice) : PromptRun σ :=
  { g.prompts j.1.tableIdx with
    chunks := (g.prompts j.1.tableIdx).chunks ++ [out.chunkRun m g j]
    whole := !j.1.chunked }

def StateTrace.see (g : StateTrace σ) (e : Engine) (c : Call) (rep : Report) : StateTrace σ :=
  let past := g.past.see lastOf Slice.tokens e c rep
  match c, rep with
  | .addRequest args, _ =>
      match e.scheduler.freeSlots with
      | [] => { g with past := past }
      | row :: _ =>
          let cachedLen := (e.matchPrompt args.inputIds).cachedLen
          { g with
            past := past
            prompts := Function.update g.prompts row
              { inputIds := args.inputIds
                cachedLen := cachedLen.toNat
                restoreSrc := e.restoreSrc args.inputIds cachedLen } }
  | .step _, .stepped out =>
      let states := copyStates out.snapshots (forwarded m g.past out.jobs (out.restored g.states))
      match out.batch.phase with
      | .prefill =>
          { states := states
            past := past
            prompts := fun row =>
              match out.jobs.find? fun j => j.1.tableIdx = row with
              | none => g.prompts row
              | some j => out.record m g j
            log := g.log ++ out.jobs.map (out.record m g) }
      | .decode => { g with states := states, past := past }
  | _, _ => { g with past := past }

section See

variable {m} {g : StateTrace σ} {out : StepOutput} {sampled : Nat → Token}

theorem see_past (g : StateTrace σ) (e : Engine) (c : Call) (rep : Report) :
    (StateTrace.see m g e c rep).past = g.past.see lastOf Slice.tokens e c rep := by
  cases c with
  | addRequest args =>
      simp only [StateTrace.see]
      split <;> rfl
  | step sampled =>
      cases rep with
      | stepped out =>
          simp only [StateTrace.see]
          split <;> rfl
      | added res => rfl
      | aborted found => rfl
  | abortRequest uid => rfl

/-- A decode step runs no chunk. -/
theorem see_decode (hphase : out.batch.phase = .decode) :
    (StateTrace.see m g e (.step sampled) (.stepped out)).prompts = g.prompts ∧
      (StateTrace.see m g e (.step sampled) (.stepped out)).log = g.log := by
  simp only [StateTrace.see, hphase, and_self]

theorem see_log (hphase : out.batch.phase = .prefill) :
    (StateTrace.see m g e (.step sampled) (.stepped out)).log =
      g.log ++ out.jobs.map (out.record m g) := by
  simp only [StateTrace.see, hphase]

theorem see_prompts_of_notMem {row : Nat} (hrow : ∀ j ∈ out.jobs, j.1.tableIdx ≠ row) :
    (StateTrace.see m g e (.step sampled) (.stepped out)).prompts row = g.prompts row := by
  cases hphase : out.batch.phase with
  | decode => rw [(see_decode hphase).1]
  | prefill =>
      have hnone : (out.jobs.find? fun j => j.1.tableIdx = row) = none :=
        List.find?_eq_none.mpr fun j hj heq => hrow j hj (by simpa using heq)
      simp only [StateTrace.see, hphase, hnone]

theorem see_prompts_of_mem (hphase : out.batch.phase = .prefill)
    (hn : (out.jobs.map fun j => j.1.tableIdx).Nodup) {j : Req × Slice} (hj : j ∈ out.jobs) :
    (StateTrace.see m g e (.step sampled) (.stepped out)).prompts j.1.tableIdx =
      out.record m g j := by
  have hfind := find?_of_nodup hn j hj
  simp only [StateTrace.see, hphase, hfind]

/-- The request that is queued gets the record of a prompt without chunks. -/
theorem see_added {args : AddArgs} {rep : Report} {row : Nat} {rest : List Nat}
    (hrow : e.scheduler.freeSlots = row :: rest) :
    StateTrace.see m g e (.addRequest args) rep =
      { g with
        past := g.past.see lastOf Slice.tokens e (.addRequest args) rep
        prompts := Function.update g.prompts row
          { inputIds := args.inputIds
            cachedLen := (e.matchPrompt args.inputIds).cachedLen.toNat
            restoreSrc := e.restoreSrc args.inputIds (e.matchPrompt args.inputIds).cachedLen } } := by
  simp only [StateTrace.see, hrow]

end See

/-- One watched call. -/
def stateNext : StateTrace σ × Engine → Call → Option (StateTrace σ × Engine) :=
  Run.watch report (StateTrace.see m)

/-! ### The tokens processed so far -/

theorem skippedInputs_lastOf {n : Nat} {ids : List Token} (h : n ≤ ids.length) :
    skippedInputs lastOf n ids = ids.take n := by
  apply List.ext_getElem
  · rw [length_skippedInputs, List.length_take, Nat.min_eq_left h]
  · intro j h1 h2
    rw [length_skippedInputs] at h1
    have hj : j < ids.length := by omega
    simp only [skippedInputs, List.getElem_map, List.getElem_range, List.getElem_take, lastOf,
      List.take_add_one, List.getElem?_eq_getElem hj, Option.toList_some, List.getLast?_concat,
      Option.getD_some]

/-- The history of each live request is what it has had processed or skipped. -/
def Histories.Tokens (h : Histories Token) (e : Engine) (t : Transcript) : Prop :=
  ∀ x ∈ e.lives t, h x.seat.row = x.ids.take x.done

theorem Histories.Tokens.report {h : Histories Token} (hh : h.Tokens e t) (hb : Books e t orphans)
    {c : Call} {rep : Report} (hrep : e.report c = some (rep, e')) {t' : Transcript}
    (hcame : ∀ x' ∈ e'.lives t', Came e t c rep x') :
    (h.see lastOf Slice.tokens e c rep).Tokens e' t' := by
  intro x' hx'
  cases hcame x' hx' with
  | kept hx hrow =>
      rw [h.see_of_kept hb.sched hx hrow]
      exact hh x' hx
  | advanced out hout x hx s hs hadv =>
      subst hout
      obtain ⟨sampled, rfl, hstep⟩ := step_of_report hrep
      have hrow : x'.seat.row = s.tableIdx := by rw [hadv.row_eq, hadv.seat_eq]
      have hsplit := List.take_append_drop x.done (x.ids.take x'.done)
      rw [List.take_take, Nat.min_eq_left hadv.done_lt.le] at hsplit
      rw [hrow, h.see_of_mem (hb.slices hstep).1 hs, hadv.row_eq, hh x hx, hadv.tokens_eq,
        hadv.take_ids hadv.done_le]
      exact hsplit
  | added args hcall rest hrow hids hdone =>
      subst hcall
      have hm := hb.promptMatched args
      rw [h.see_of_added hrow, hids, hdone]
      refine skippedInputs_lastOf ?_
      by_cases hnil : args.inputIds = []
      · rw [hnil] at hm ⊢
        rw [hm.cachedLen_nil]
        split <;> simp
      · obtain ⟨k, hk, -, hlt⟩ := hm.cachedLen_nonneg hnil
        rw [hk]
        omega

/-! ### The requests of a step -/

/-- Live requests have states of their own. -/
def StatesApart (e : Engine) : Prop := (e.scheduler.seats.map Seat.stateIdx).Nodup

theorem linearSlots_eq {seat : Seat} (h : seat.Seated) :
    seat.linearSlots = seat.stateIdx :: seat.tracks := by
  obtain ⟨live, track0, track1, hlive, -⟩ := h
  rw [Seat.linearSlots, Seat.stateIdx, hlive]
  rfl

/-- The states of the live requests, their track slots and the kept ones are different. -/
theorem LinearBooks.live_nodup {config : EngineConfig} {kept : List Slot}
    (h : LinearBooks config e kept) : (e.scheduler.seats.map Seat.stateIdx ++
      (e.scheduler.seats.flatMap Seat.tracks ++ kept)).Nodup := by
  have hn := (List.nodup_append'.mp h.nodup).2.1
  have hsplit : e.scheduler.seats.flatMap Seat.linearSlots =
      e.scheduler.seats.flatMap fun seat => [seat.stateIdx] ++ seat.tracks :=
    List.flatMap_congr fun seat hseat => linearSlots_eq (h.seated seat hseat)
  rw [hsplit] at hn
  have hperm := List.flatMap_append_perm e.scheduler.seats (fun seat => [seat.stateIdx]) Seat.tracks
  rw [← List.map_eq_flatMap] at hperm
  rw [← List.append_assoc]
  exact (hperm.append_right kept).nodup_iff.mpr hn

theorem LinearBooks.statesApart {config : EngineConfig} {kept : List Slot}
    (h : LinearBooks config e kept) : e.StatesApart :=
  (List.nodup_append'.mp h.live_nodup).1

namespace StepRun

variable {sampled : Nat → Token} {out : StepOutput} {s1 : Scheduler} {e2 : Engine}

variable (h : StepRun e sampled out e' s1 e2)
include h

theorem seat_mem (hs : e.scheduler.Ok) {req : Req} (hreq : req ∈ out.batch.reqs) :
    req.seat ∈ e.scheduler.seats := by
  rcases (h.stepped hs).origin req hreq with ⟨-, p, hp, hext⟩ | ⟨-, hrun⟩
  · rw [hext.seat_eq]
    exact List.mem_append_left _ (List.mem_map_of_mem hp)
  · exact List.mem_append_right _ (List.mem_map_of_mem hrun)

theorem map_fst_jobs : out.jobs.map Prod.fst = out.batch.reqs :=
  List.map_fst_zip (Nat.le_of_eq h.forall₂_slices.length_eq)

theorem mem_jobs {j : Req × Slice} (hj : j ∈ out.jobs) :
    j.1 ∈ out.batch.reqs ∧ j.2 ∈ out.slices ∧ j.1.slice out.batch.phase = some j.2 ∧
      j.2.tableIdx = j.1.tableIdx := by
  obtain ⟨hreq, hs⟩ := List.of_mem_zip hj
  have hslice := (List.forall₂_iff_zip.mp h.forall₂_slices).2 hj
  refine ⟨hreq, hs, hslice, ?_⟩
  cases hphase : out.batch.phase <;> rw [hphase] at hslice <;>
    simp only [Req.slice, Option.map_eq_some_iff] at hslice <;>
    obtain ⟨_, _, heq⟩ := hslice <;> rw [← heq]

theorem jobs_rows_nodup (hs : e.scheduler.Ok) :
    (out.jobs.map fun j => j.1.tableIdx).Nodup := by
  have hrows := (h.stepped hs).rows_nodup
  rw [← h.map_fst_jobs, List.map_map] at hrows
  exact hrows

/-- The states of a step's requests are different ones. -/
theorem jobs_idx_nodup (hs : e.scheduler.Ok) (hapart : e.StatesApart) :
    (out.jobs.map fun j => j.1.seat.stateIdx).Nodup := by
  have hrows := h.jobs_rows_nodup hs
  refine (List.Nodup.of_map _ hrows).map_on fun j hj j' hj' heq => ?_
  have hseat := List.inj_on_of_nodup_map hapart (h.seat_mem hs (h.mem_jobs hj).1)
    (h.seat_mem hs (h.mem_jobs hj').1) heq
  exact List.inj_on_of_nodup_map hrows hj hj' (congrArg Seat.row hseat)

/-- The forward advances each request's state by its slice. -/
theorem forwarded_of_mem (hs : e.scheduler.Ok) (hapart : e.StatesApart) {past : Histories Token}
    {states : Nat → σ} {j : Req × Slice} (hj : j ∈ out.jobs) :
    forwarded m past out.jobs states j.1.seat.stateIdx =
      m.extend (past j.1.tableIdx) (states j.1.seat.stateIdx) j.2.tokens := by
  rw [forwarded, Sweep.sweep_of_mem (j := j) (h.jobs_idx_nodup hs hapart) hj,
    (h.mem_jobs hj).2.2.2]

end StepRun

end Engine

end FreeToken
