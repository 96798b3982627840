import Mathlib.Data.Fintype.Basic
import FreeToken.Models.Lfm2Moe
import FreeToken.Engine.Atomicity

/-!
# The conv rings over a run

Every conv layer reads the ring of the request's own history, in every run in which no
request is admitted past its first position. A request that the prefix cache lets start
later reads what the last request at its row has left.
-/

namespace FreeToken

open Engine

variable {R : Type} [Semiring R] {hidden kernelSize : Nat}

/-- After the inputs `past`, the ring holds the request's last gated inputs, and the output
is that of one convolution over the whole request. -/
structure ConvRun.Own (m : Lfm2Moe R hidden kernelSize) (past : List (Nat → Column R hidden))
    (run : ConvRun R hidden kernelSize) : Prop where
  length_eq : past.length = run.slice.start
  ring_eq : run.ring.1 = SlidingWindow.tail 0 (kernelSize - 1)
    ((past.map fun x => x run.layerId).map (m.conv run.layerId).gated)
  out_eq : run.out = ((m.conv run.layerId).forward
    ((past.map fun x => x run.layerId) ++ run.xs)).drop past.length

namespace Lfm2Moe

variable (m : Lfm2Moe R hidden kernelSize)

/-- The model as a step runs it. -/
def model : RecurrentModel (LayerInputs (Column R hidden)) (Nat → Column R hidden)
    (ConvStatePool R hidden kernelSize) (ConvRun R hidden kernelSize) where
  inputs := LayerInputs.slice
  length_inputs := LayerInputs.length_slice
  forward := m.forward
  sliceOf := ConvRun.slice

/-- The call starts its request at position 0, or there is no ring to restore. -/
def StartsFresh (kernelSize : Nat) (e : Engine) : Call → Prop
  | .addRequest args => kernelSize = 1 ∨ ¬ e.ServesPage args.inputIds
  | _ => True

instance (e : Engine) (c : Call) : Decidable (StartsFresh kernelSize e c) :=
  match c with
  | .addRequest args =>
      inferInstanceAs (Decidable (kernelSize = 1 ∨ ¬ e.ServesPage args.inputIds))
  | .step _ | .abortRequest _ => isTrue trivial

variable {m}

/-- What a step's forward makes of the rings of a layer. -/
theorem cellsAdvanced (inputs : LayerInputs (Column R hidden)) {out : StepOutput}
    (pool : ConvStatePool R hidden kernelSize) (hn : (out.slices.map Slice.tableIdx).Nodup)
    (htok : ∀ s ∈ out.slices, s.tokens ≠ []) {layerId : Nat} (hl : layerId ∈ m.convLayers) :
    CellsAdvanced (m.ringState layerId) true inputs.slice (fun row => pool.ring (layerId, row))
      (fun row => (m.forward inputs out.slices pool).2.ring (layerId, row)) (.stepped out) := by
  have heq := (m.forward_eq inputs out.slices pool).2
  constructor
  · intro row hrow
    rw [heq]
    refine Sweep.sweep_of_notMem fun hkey => hrow out rfl ?_
    obtain ⟨job, hjob, hkey⟩ := List.mem_map.mp hkey
    exact (Prod.mk.inj hkey).2 ▸ List.mem_map_of_mem (mem_layerJobs.mp hjob).1
  · intro out' hout s hs
    obtain rfl := Report.stepped.inj hout
    have hjob : (s, layerId) ∈ layerJobs out.slices m.convLayers := mem_layerJobs.mpr ⟨hs, hl⟩
    have hmem : (Sweep.sweep jobKey (m.layerRun inputs) (layerJobs out.slices m.convLayers) pool.ring).2
        (layerId, s.tableIdx) = (m.layerRun inputs (s, layerId) (pool.ring (layerId, s.tableIdx))).2 :=
      Sweep.sweep_of_mem (jobs_nodup hn) hjob
    rw [heq, ringState_advance]
    refine hmem.trans ?_
    simp only [layerRun, readState, true_and, Slice.fresh_iff (htok s hs)]
    rfl

/-- A conv layer that reads the state after a history. -/
theorem own_of_read {inputs : LayerInputs (Column R hidden)} {s : Slice} {layerId : Nat}
    {past : List (Nat → Column R hidden)} {ring : Ring R hidden kernelSize}
    (hlen : past.length = s.start)
    (hring : (if s.fresh then Ring.zero else ring) = (m.ringState layerId).after past) :
    (m.layerRun inputs (s, layerId) ring).1.Own m past := by
  rw [ringState_after] at hring
  constructor
  · exact hlen
  · simp only [layerRun, hring]
    exact Recurrence.after_window _ _ _ _
  · simp only [layerRun, hring]
    have hlen' : past.length = (past.map fun x => x layerId).length := List.length_map _ |>.symm
    rw [hlen']
    exact ShortConv.forwardStateful_output _ _ _

theorem recurrentSpec : m.model.RecurrentSpec (Λ := { layerId // layerId ∈ m.convLayers })
    (fun l => m.ringState l) true (fun l pool row => pool.ring (l, row))
    (fun past run => run.Own m past) where
  advances := fun inputs _ pool hn htok l => cellsAdvanced inputs pool hn htok l.2
  reports := by
    intro inputs slices pool hn htok run hrun
    rw [show m.model.forward = m.forward from rfl, (m.forward_eq inputs slices pool).1,
      Sweep.sweep_reports (jobs_nodup hn)] at hrun
    obtain ⟨⟨s, layerId⟩, hjob, rfl⟩ := List.mem_map.mp hrun
    obtain ⟨hs, hl⟩ := mem_layerJobs.mp hjob
    refine ⟨hs, fun past hlen hread => own_of_read hlen ?_⟩
    have hread := hread ⟨layerId, hl⟩
    rw [← hread]
    simp only [readState, true_and, Slice.fresh_iff (htok s hs)]
    rfl

/-- What the condition is for: the new request reads the state after what it skips. -/
theorem StartsFresh.admits {e : Engine} {t : Transcript} {orphans : List RadixCacheHandle}
    (hb : Books e t orphans) {c : Call} (h : StartsFresh kernelSize e c) (layerId : Nat)
    (would : List Token → Nat → Column R hidden) (cell : Nat → Ring R hidden kernelSize) :
    AdmitsState (m.ringState layerId) true would cell e c := by
  cases c with
  | addRequest args =>
      intro row rest hrow
      rcases h with hone | hserves
      · -- rings without columns are equal
        have hnil : ∀ ring : Ring R hidden kernelSize, ring.1 = [] := fun ring =>
          List.length_eq_zero_iff.mp (by rw [ring.2, hone])
        exact Subtype.ext ((hnil _).trans (hnil _).symm)
      · have hzero : (e.matchPrompt args.inputIds).cachedLen.toNat = 0 := by
          rw [← hb.cachedLen_pos_iff] at hserves
          omega
        rw [hzero, readState, if_pos ⟨rfl, rfl⟩]
        exact (Recurrence.after_nil _).symm
  | step sampled => trivial
  | abortRequest uid => trivial

/-- A fresh engine, and the model's rings. -/
def start (m : Lfm2Moe R hidden kernelSize) (config : EngineConfig) :
    ModelTrace (Nat → Column R hidden) (ConvStatePool R hidden kernelSize)
      (ConvRun R hidden kernelSize) × Engine :=
  ({ states := .register m.maxSlots }, Engine.init config)

/-- In a run whose requests all start at position 0, or without rings to restore, every
conv layer reads the ring of the request's own history. `would` is what the layers would
have as inputs for the last token of a prefix; it is asked for the positions the prefix
cache skips. -/
theorem rings_own {would : List Token → Nat → Column R hidden} {config : EngineConfig}
    {calls : List (Call × LayerInputs (Column R hidden))}
    {s : ModelTrace (Nat → Column R hidden) (ConvStatePool R hidden kernelSize)
      (ConvRun R hidden kernelSize) × Engine}
    (hcond : Run.AllSteps (m.model.next would) (fun s c => StartsFresh kernelSize s.2 c.1)
      (m.start config) calls)
    (h : Run.exec (m.model.next would) (m.start config) calls = some s) :
    ∀ x ∈ s.1.reports, x.2.Own m x.1 :=
  RecurrentModel.reports_own (fun _ e c => StartsFresh kernelSize e c) recurrentSpec
    (fun _ _ _ _ hb _ hok l => hok.admits hb l would _) hcond h

/-- One conv layer, with filters of length two, that passes its inputs on. -/
def tiny : Lfm2Moe ℤ 1 2 where
  layerTypes := [.conv]
  conv := fun _ =>
    { inProj := {
        weight := fun i _ => if i = 0 then 1 else 0
        bias := some fun i => if i = 0 then 0 else 1 }
      convWeight := fun _ _ => 1
      outProj := { weight := fun _ _ => 1 } }
  maxSlots := 1
  kernelSize_pos := Nat.two_pos

/-- A layer's input for a prefix is its last token. -/
def lastToken (ids : List Token) (_ : Nat) : Column ℤ 1 := fun _ => (ids.getLast?.getD 0 : Nat)

/-- The inputs of a step that runs the sequence `ids`. -/
def inputsOf (ids : List Token) : LayerInputs (Column ℤ 1) := fun layerId _ pos =>
  lastToken (ids.take (pos + 1)) layerId

/-- A request of two tokens is answered, and another one follows at its row. -/
def rowReused (ids : List Token) : List (Call × LayerInputs (Column ℤ 1)) :=
  [(.addRequest (asking [7, 8]), inputsOf []), (.step fun _ => 5, inputsOf [7, 8]),
    (.addRequest (asking ids), inputsOf []), (.step fun _ => 5, inputsOf ids)]

/-- The prompt `[7, 9]` starts after the cached token 7, and its layer reads the 8 that the
request before has left in the ring. -/
theorem stale_ring_read : ∃ s, Run.exec (tiny.model.next lastToken) (tiny.start singleRow)
    (rowReused [7, 9]) = some s ∧ ∃ x ∈ s.1.reports, x.2.slice = ⟨0, 1, [9]⟩ ∧
      (x.1.map fun input => input 0) = [fun _ => 7] ∧ x.2.ring.1 = [fun _ => 8] ∧
      ¬ x.2.Own tiny x.1 := by
  have hstale : ((Run.exec (tiny.model.next lastToken) (tiny.start singleRow) (rowReused [7, 9])).map
      fun s => s.1.reports.any fun x => x.2.layerId = 0 && x.2.slice = ⟨0, 1, [9]⟩ &&
        (x.1.map fun input => input 0) = [fun _ => 7] && x.2.ring.1 = [fun _ => 8]) = some true := by
    decide +kernel
  obtain ⟨s, hs, hstale⟩ := Option.map_eq_some_iff.mp hstale
  obtain ⟨x, hx, hx'⟩ := List.any_eq_true.mp hstale
  simp only [Bool.and_eq_true, decide_eq_true_eq] at hx'
  obtain ⟨⟨⟨hlayer, hslice⟩, hpast⟩, hring⟩ := hx'
  refine ⟨s, hs, x, hx, hslice, hpast, hring, fun hown => ?_⟩
  have hown := hown.ring_eq
  rw [hlayer, hring, hpast] at hown
  exact absurd hown (by decide +kernel)

/-- The prompt `[6, 9]` shares nothing, and its ring is zeroed. -/
theorem fresh_ring_read : ∃ s, Run.exec (tiny.model.next lastToken) (tiny.start singleRow)
    (rowReused [6, 9]) = some s ∧ s.1.reports.length = 2 ∧ ∀ x ∈ s.1.reports, x.2.Own tiny x.1 := by
  have hcond : Run.AllSteps (tiny.model.next lastToken) (fun s c => StartsFresh 2 s.2 c.1)
      (tiny.start singleRow) (rowReused [6, 9]) := by decide +kernel
  have hlen : ((Run.exec (tiny.model.next lastToken) (tiny.start singleRow) (rowReused [6, 9])).map
      fun s => s.1.reports.length) = some 2 := by decide +kernel
  obtain ⟨s, hs, hlen⟩ := Option.map_eq_some_iff.mp hlen
  exact ⟨s, hs, hlen, rings_own hcond hs⟩

end Lfm2Moe

end FreeToken
