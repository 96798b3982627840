import Mathlib.Data.Fintype.Basic
import FreeToken.Models.Qwen4Exp
import FreeToken.Engine.Atomicity

/-!
# The PLE states over a run

With one PLE layer, every token is hashed and convolved after the tokens of its own
request, in every run whose requests find the entries of their row unset. Nothing resets
them: a request at a row that was used before goes on from the request before it.
-/

namespace FreeToken

open Engine

variable {R : Type} [Semiring R] {width kernelSize : Nat}

/-- After the inputs `past`, the layer looks up the rows and reads the state of one call
over the whole request from a fresh state. -/
structure Qwen4Exp.PleRun.Own {m : Qwen4Exp R width kernelSize}
    (past : List (Token × (Nat → Column R width))) (run : m.PleRun) : Prop where
  length_eq : past.length = run.slice.start
  rowIds_eq : run.rowIds = (m.hash.rowIdsAfter (List.replicate m.ctxLen m.hash.boundaryTokenId)
    (past.map Prod.fst ++ run.slice.tokens)).drop past.length
  convState_eq : run.convState.1 =
    SlidingWindow.tail 0 m.stateLen (past.map fun x => x.2 run.layerId)
  out_eq : run.out = (m.pleShortConv run.layerId
    ((past.map fun x => x.2 run.layerId) ++ run.xs) m.zeroState).1.drop past.length

namespace Qwen4Exp

variable (m : Qwen4Exp R width kernelSize)

/-- The model as a step runs it. -/
def model : RecurrentModel (LayerInputs (Column R width)) (Token × (Nat → Column R width))
    m.PleStates m.PleRun where
  inputs := sliceInputs
  length_inputs := fun inputs s => by
    rw [sliceInputs, List.length_zip, inputs.length_slice, Nat.min_self]
  forward := m.forward
  sliceOf := PleRun.slice

/-- A position the prefix cache skips: its token, and what the layers would have as inputs. -/
def skipped (would : List Token → Nat → Column R width) (ids : List Token) :
    Token × (Nat → Column R width) := ((ids.getLast?).getD 0, would ids)

/-- The call finds the entries of the row it hands out unset, or as a fresh request has
them, and starts at position 0. -/
def StartsFresh (states : m.PleStates) (e : Engine) : Call → Prop
  | .addRequest args => m.pleLayers = [] ∨ ¬ e.ServesPage args.inputIds ∧
      ∀ row ∈ e.scheduler.freeSlots.head?, m.cell states row = (m.freshCtx, m.zeroState)
  | _ => True

instance [DecidableEq R] (states : m.PleStates) (e : Engine) (c : Call) :
    Decidable (m.StartsFresh states e c) :=
  match c with
  | .addRequest args => inferInstanceAs (Decidable (m.pleLayers = [] ∨
      ¬ e.ServesPage args.inputIds ∧
        ∀ row ∈ e.scheduler.freeSlots.head?, m.cell states row = (m.freshCtx, m.zeroState)))
  | .step _ | .abortRequest _ => isTrue trivial

variable {m}

theorem after_pleState (layerId : Nat) (past : List (Token × (Nat → Column R width))) :
    ((m.pleState layerId).after past).1.1 =
        SlidingWindow.tail m.hash.boundaryTokenId m.ctxLen (past.map Prod.fst) ∧
      ((m.pleState layerId).after past).2.1 =
        SlidingWindow.tail 0 m.stateLen (past.map fun x => x.2 layerId) :=
  ⟨Recurrence.after_window _ _ _ _, Recurrence.after_window _ _ _ _⟩

/-- A PLE layer that reads the state after a history. -/
theorem own_of_read {inputs : LayerInputs (Column R width)} {s : Slice} {layerId : Nat}
    {past : List (Token × (Nat → Column R width))} (hlen : past.length = s.start) :
    (m.layerRun inputs (s, layerId) ((m.pleState layerId).after past)).1.Own past := by
  obtain ⟨hctx, hconv⟩ := m.after_pleState layerId past
  constructor
  · exact hlen
  · have hrows := m.hash.rowIdsAfter_tail (past.map Prod.fst) s.tokens
    rw [List.length_map] at hrows
    simp only [layerRun, hctx]
    exact hrows
  · exact hconv
  · have hwindows := SlidingWindow.windows_tail (n := m.stateLen) 0
      (past.map fun x => x.2 layerId) ((inputs.slice s).map fun x => x layerId)
    rw [List.length_map] at hwindows
    simp only [layerRun, pleShortConv, hconv]
    rw [hwindows, List.map_drop]
    rfl

theorem recurrentSpec (hone : m.pleLayers.length ≤ 1) :
    m.model.RecurrentSpec (Λ := { layerId // layerId ∈ m.pleLayers }) (fun l => m.pleState l) false
      (fun _ states => m.cell states) PleRun.Own where
  advances := by
    intro inputs out states hn htok l
    have heq := (m.forward_eq inputs out.slices states).2
    constructor
    · intro row hrow
      rw [show m.model.forward = m.forward from rfl, heq]
      refine Sweep.sweep_of_notMem fun hkey => hrow out rfl ?_
      obtain ⟨job, hjob, hkey⟩ := List.mem_map.mp hkey
      exact hkey ▸ List.mem_map_of_mem (mem_layerJobs.mp hjob).1
    · intro out' hout s hs
      obtain rfl := Report.stepped.inj hout
      have hjob : (s, l.1) ∈ layerJobs out.slices m.pleLayers := mem_layerJobs.mpr ⟨hs, l.2⟩
      rw [show m.model.forward = m.forward from rfl, heq, readState_false]
      exact Sweep.sweep_of_mem (jobs_nodup hone hn) hjob
  reports := by
    intro inputs slices states hn htok run hrun
    rw [show m.model.forward = m.forward from rfl, (m.forward_eq inputs slices states).1,
      Sweep.sweep_reports (jobs_nodup hone hn)] at hrun
    obtain ⟨⟨s, layerId⟩, hjob, rfl⟩ := List.mem_map.mp hrun
    obtain ⟨hs, hl⟩ := mem_layerJobs.mp hjob
    refine ⟨hs, fun past hlen hread => ?_⟩
    have hread := hread ⟨layerId, hl⟩
    rw [readState_false] at hread
    rw [show m.cell states s.tableIdx = (m.pleState layerId).after past from hread]
    exact own_of_read hlen

/-- What the condition is for: the new request goes on from the state of no tokens. -/
theorem StartsFresh.admits {states : m.PleStates} {e : Engine} {t : Transcript}
    {orphans : List RadixCacheHandle} (hb : Books e t orphans) {c : Call}
    (h : m.StartsFresh states e c) (would : List Token → Nat → Column R width)
    {layerId : Nat} (hl : layerId ∈ m.pleLayers) :
    AdmitsState (m.pleState layerId) false (skipped would) (m.cell states) e c := by
  cases c with
  | addRequest args =>
      intro row rest hrow
      rcases h with hnone | ⟨hserves, hfresh⟩
      · rw [hnone] at hl
        cases hl
      · have hzero : (e.matchPrompt args.inputIds).cachedLen.toNat = 0 := by
          rw [← hb.cachedLen_pos_iff] at hserves
          omega
        rw [hzero, readState_false, hfresh row (by rw [hrow]; rfl)]
        exact (Recurrence.after_nil (m.pleState layerId)).symm
  | step sampled => trivial
  | abortRequest uid => trivial

/-- A fresh engine, and empty dicts. -/
def start (m : Qwen4Exp R width kernelSize) (config : EngineConfig) :
    ModelTrace (Token × (Nat → Column R width)) m.PleStates m.PleRun × Engine :=
  ({ states := {} }, Engine.init config)

/-- With one PLE layer at most, in a run whose requests find their row's entries unset and
start at position 0, every layer looks up the rows and reads the state of the request's
own tokens. -/
theorem ple_own (hone : m.pleLayers.length ≤ 1)
    {would : List Token → Nat → Column R width} {config : EngineConfig}
    {calls : List (Call × LayerInputs (Column R width))}
    {s : ModelTrace (Token × (Nat → Column R width)) m.PleStates m.PleRun × Engine}
    (hcond : Run.AllSteps (m.model.next (skipped would)) (fun s c => m.StartsFresh s.1.states s.2 c.1)
      (m.start config) calls)
    (h : Run.exec (m.model.next (skipped would)) (m.start config) calls = some s) :
    ∀ x ∈ s.1.reports, x.2.Own x.1 :=
  RecurrentModel.reports_own (fun g e c => m.StartsFresh g.states e c) (recurrentSpec hone)
    (fun _ _ _ _ hb _ hok l => hok.admits hb would l.2) hcond h

/-- Bigrams with one head, token 0 as the boundary, and filters of length one; every layer
has a PLE block. -/
def bigrams (numLayers : Nat) : Qwen4Exp ℤ 1 1 where
  layerTypes := List.replicate numLayers .linearAttention
  pleLayerIds := List.range numLayers
  hash :=
    { boundaryTokenId := 0
      ngramSize := 2
      headsPerNgram := 1
      multipliers := [1, 1]
      headVocabSizes := [101]
      headOffsets := [0] }
  conv1d := fun _ _ _ => 1
  silu := id
  kernelSize_pos := Nat.one_pos
  pleLayerIds_linear := fun i hi => by simp [List.mem_range.mp hi]

def noInputs : LayerInputs (Column ℤ 1) := fun _ _ _ _ => 0

/-- A request is answered, and another one follows at its row. -/
def answeredThen (first second : List Token) : List (Call × LayerInputs (Column ℤ 1)) :=
  [(.addRequest (asking first), noInputs), (.step fun _ => 5, noInputs),
    (.addRequest (asking second), noInputs), (.step fun _ => 5, noInputs)]

/-- A request is prefilled, and decoded once. -/
def prefillAndDecode (ids : List Token) : List (Call × LayerInputs (Column ℤ 1)) :=
  [(.addRequest { uid := 0, inputIds := ids, samplingParams := { maxTokens := 2 } }, noInputs),
    (.step fun _ => 5, noInputs), (.step fun _ => 5, noInputs)]

/-- The first slice of a request has its own tokens only. -/
theorem PleRun.Own.first {past : List (Token × (Nat → Column R width))} {run : m.PleRun}
    (h : run.Own past) (hstart : run.slice.start = 0) : run.rowIds =
      m.hash.rowIdsAfter (List.replicate m.ctxLen m.hash.boundaryTokenId) run.slice.tokens := by
  have hnil : past = [] := List.length_eq_zero_iff.mp (h.length_eq.trans hstart)
  have hrows := h.rowIds_eq
  rw [hnil] at hrows
  exact hrows

/-- A run of the model from a fresh engine. -/
def runOf (numLayers : Nat) (calls : List (Call × LayerInputs (Column ℤ 1))) :
    Option (ModelTrace (Token × (Nat → Column ℤ 1)) (bigrams numLayers).PleStates
      (bigrams numLayers).PleRun × Engine) :=
  Run.exec ((bigrams numLayers).model.next (skipped fun _ _ _ => 0))
    ((bigrams numLayers).start singleRow) calls

/-- A run with a first slice that looks up other rows than those of its tokens. -/
theorem exists_not_own {numLayers : Nat} {calls : List (Call × LayerInputs (Column ℤ 1))}
    {s0 : Slice} {rows : List (List Int)} (hstart : s0.start = 0)
    (hrun : ((runOf numLayers calls).map fun s => s.1.reports.any fun x =>
      x.2.slice = s0 && x.2.rowIds = rows) = some true)
    (hrows : rows ≠ (bigrams numLayers).hash.rowIdsAfter [0] s0.tokens) :
    ∃ s, runOf numLayers calls = some s ∧
      ∃ x ∈ s.1.reports, x.2.slice = s0 ∧ x.2.rowIds = rows ∧ ¬ x.2.Own x.1 := by
  obtain ⟨s, hs, hany⟩ := Option.map_eq_some_iff.mp hrun
  obtain ⟨x, hx, hx'⟩ := List.any_eq_true.mp hany
  simp only [Bool.and_eq_true, decide_eq_true_eq] at hx'
  obtain ⟨rfl, rfl⟩ := hx'
  exact ⟨s, hs, x, hx, rfl, rfl, fun hown => hrows (hown.first hstart)⟩

/-- After a request of the tokens 7 and 8 the same row hashes the first token 9 of the next
one with the 8, into row 1 and not into row 9. With two PLE layers the second one finds the
8 before the 7 already. -/
theorem row_goes_on :
    (∃ s, runOf 1 (answeredThen [7, 8] [9]) = some s ∧ ∃ x ∈ s.1.reports,
      x.2.slice = ⟨0, 0, [9]⟩ ∧ x.2.rowIds = [[1]] ∧ ¬ x.2.Own x.1) ∧
    ∃ s, runOf 2 ((answeredThen [7, 8] [9]).take 2) = some s ∧ ∃ x ∈ s.1.reports,
      x.2.slice = ⟨0, 0, [7, 8]⟩ ∧ x.2.rowIds = [[15], [15]] ∧ ¬ x.2.Own x.1 :=
  ⟨exists_not_own rfl (by decide +kernel) (by decide +kernel),
    exists_not_own rfl (by decide +kernel) (by decide +kernel)⟩

/-- A request at a row that was not used before, prefilled and then decoded. -/
theorem first_request_own : ∃ s, runOf 1 (prefillAndDecode [7, 8]) = some s ∧
    (s.1.reports.map fun x => x.2.rowIds) = [[[7], [15]], [[13]]] ∧
    ∀ x ∈ s.1.reports, x.2.Own x.1 := by
  have hcond : Run.AllSteps ((bigrams 1).model.next (skipped fun _ _ _ => 0))
      (fun s c => (bigrams 1).StartsFresh s.1.states s.2 c.1) ((bigrams 1).start singleRow)
      (prefillAndDecode [7, 8]) := by decide +kernel
  have hrows : ((runOf 1 (prefillAndDecode [7, 8])).map fun s =>
      s.1.reports.map fun x => x.2.rowIds) = some [[[7], [15]], [[13]]] := by decide +kernel
  obtain ⟨s, hs, hrows⟩ := Option.map_eq_some_iff.mp hrows
  exact ⟨s, hs, hrows, ple_own (by decide) hcond hs⟩

end Qwen4Exp

end FreeToken
