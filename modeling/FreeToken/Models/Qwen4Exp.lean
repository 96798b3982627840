import FreeToken.Models.NgramHash
import FreeToken.Models.ShortConv
import FreeToken.Engine.RowStates

/-!
# The PLE states of qwen4_exp

A PLE layer looks up the n-gram rows of its tokens and runs a dilated convolution. The
model keeps the last tokens and the left context of the convolution in two dicts with an
entry for each page-table row, which all PLE layers share.
-/

namespace FreeToken

inductive AttentionType where
  | linearAttention
  | fullAttention
deriving DecidableEq, Repr

/-- `Qwen4ExpForCausalLM`, as far as its PLE layers go, with what `parse_config` checks. -/
structure Qwen4Exp (R : Type) (width kernelSize : Nat) where
  layerTypes : List AttentionType
  pleLayerIds : List Nat
  hash : NgramHash
  /-- `conv1d` of each PLE layer. -/
  conv1d : Nat → Fin width → Fin kernelSize → R
  silu : R → R
  kernelSize_pos : 0 < kernelSize := by decide
  pleLayerIds_linear : ∀ i ∈ pleLayerIds, layerTypes[i]? = some .linearAttention := by decide

namespace Qwen4Exp

variable {R : Type} {width kernelSize : Nat} (m : Qwen4Exp R width kernelSize)

/-- The layers that have a PLE block. -/
def pleLayers : List Nat := (List.range m.layerTypes.length).filter fun i => i ∈ m.pleLayerIds

def ctxLen : Nat := m.hash.ngramSize - 1

def stateLen : Nat := (kernelSize - 1) * m.hash.ngramSize

/-- The last tokens of a request. -/
abbrev NgramCtx := { tokens : List Token // tokens.length = m.ctxLen }

/-- The left context of a convolution. -/
abbrev ConvState := { columns : List (Column R width) // columns.length = m.stateLen }

/-- The dicts `_ple_ngram_ctx` and `_ple_conv_state`. -/
structure PleStates where
  ngramCtx : List (Nat × m.NgramCtx) := []
  convState : List (Nat × m.ConvState) := []

def freshCtx : m.NgramCtx := ⟨List.replicate m.ctxLen m.hash.boundaryTokenId, by simp⟩

def zeroState [Zero R] : m.ConvState := ⟨List.replicate m.stateLen 0, by simp⟩

variable [Semiring R]

/-- `ple_short_conv`: the output, and the state afterwards. -/
def pleShortConv (layerId : Nat) (xs : List (Column R width)) (state : m.ConvState) :
    List (Column R width) × m.ConvState :=
  let history := state.1 ++ xs
  ((SlidingWindow.windows m.stateLen history).map fun window c =>
      m.silu (∑ k, m.conv1d layerId c k * ((window[k.val * m.hash.ngramSize]?).getD 0) c),
    ⟨SlidingWindow.lastN m.stateLen history,
      SlidingWindow.length_lastN _ (by simp [history, state.2])⟩)

/-- `_ple_precompute`: the rows of the tokens, the convolution's state, and the dicts with
the tokens' context. -/
def plePrecompute (tableIdx : Nat) (tokenIds : List Token) (states : m.PleStates) :
    List (List Int) × m.ConvState × m.PleStates :=
  let prior := (dictGet tableIdx states.ngramCtx).getD m.freshCtx
  let fullIds := prior.1 ++ tokenIds
  let ctx : m.NgramCtx := ⟨SlidingWindow.lastN m.ctxLen fullIds,
    SlidingWindow.length_lastN _ (by simp [fullIds, prior.2])⟩
  ((m.hash.ngramRowIds fullIds).drop m.ctxLen,
    (dictGet tableIdx states.convState).getD m.zeroState,
    { states with ngramCtx := dictSet tableIdx ctx states.ngramCtx })

/-- A PLE layer's run over a slice: the rows it looked up, the state it read, and the
output of its convolution. -/
structure PleRun where
  layerId : Nat
  slice : Slice
  rowIds : List (List Int)
  xs : List (Column R width)
  convState : m.ConvState
  out : List (Column R width)

/-- A PLE layer's part of the forward; `inputs` are the columns its convolution is given. -/
def layerForward (inputs : LayerInputs (Column R width)) (job : Slice × Nat)
    (states : m.PleStates) : m.PleRun × m.PleStates :=
  let (s, layerId) := job
  let (rowIds, convState, states) := m.plePrecompute s.tableIdx s.tokens states
  let xs := (inputs.slice s).map fun x => x layerId
  let (out, newState) := m.pleShortConv layerId xs convState
  ({ layerId := layerId, slice := s, rowIds := rowIds, xs := xs, convState := convState, out := out },
    { states with convState := dictSet s.tableIdx newState states.convState })

/-- The PLE layers of a step's forward. -/
def forward (inputs : LayerInputs (Column R width)) (slices : List Slice) (states : m.PleStates) :
    List m.PleRun × m.PleStates :=
  Sweep.loop (m.layerForward inputs) (layerJobs slices m.pleLayers) states

/-! ### One row -/

/-- What the dicts say of a row. -/
def cell (states : m.PleStates) (row : Nat) : m.NgramCtx × m.ConvState :=
  ((dictGet row states.ngramCtx).getD m.freshCtx, (dictGet row states.convState).getD m.zeroState)

/-- A layer's state over tokens and the inputs of all layers. -/
def pleState (layerId : Nat) :
    Recurrence (Token × (Nat → Column R width)) (m.NgramCtx × m.ConvState) :=
  (Recurrence.window m.hash.boundaryTokenId m.ctxLen Prod.fst).prod
    (Recurrence.window 0 m.stateLen fun x => x.2 layerId)

/-- The tokens of a slice, with the inputs of the layers. -/
def sliceInputs (inputs : LayerInputs (Column R width)) (s : Slice) :
    List (Token × (Nat → Column R width)) := s.tokens.zip (inputs.slice s)

/-- A layer's run over a slice from the state of its row. -/
def layerRun (inputs : LayerInputs (Column R width)) (job : Slice × Nat)
    (state : m.NgramCtx × m.ConvState) : m.PleRun × m.NgramCtx × m.ConvState :=
  let (s, layerId) := job
  let xs := (inputs.slice s).map fun x => x layerId
  ({ layerId := layerId, slice := s, rowIds := m.hash.rowIdsAfter state.1.1 s.tokens, xs := xs,
     convState := state.2, out := (m.pleShortConv layerId xs state.2).1 },
    (m.pleState layerId).advance state (sliceInputs inputs s))

variable {m}

omit [Semiring R] in
theorem map_fst_sliceInputs (inputs : LayerInputs (Column R width)) (s : Slice) :
    (sliceInputs inputs s).map Prod.fst = s.tokens :=
  List.map_fst_zip (Nat.le_of_eq (inputs.length_slice s).symm)

omit [Semiring R] in
theorem map_layer_sliceInputs (inputs : LayerInputs (Column R width)) (s : Slice) (layerId : Nat) :
    ((sliceInputs inputs s).map fun x => x.2 layerId) =
      (inputs.slice s).map fun x => x layerId := by
  have hsnd : (sliceInputs inputs s).map Prod.snd = inputs.slice s :=
    List.map_snd_zip (Nat.le_of_eq (inputs.length_slice s))
  rw [← hsnd, List.map_map]
  rfl

/-- The forward reads the dicts as the state of the row. -/
theorem layerForward_run (inputs : LayerInputs (Column R width)) (job : Slice × Nat)
    (states : m.PleStates) : (m.layerForward inputs job states).1 =
      (m.layerRun inputs job (m.cell states job.1.tableIdx)).1 := rfl

/-- It changes the entries of that row only. -/
theorem cell_layerForward (inputs : LayerInputs (Column R width)) (job : Slice × Nat)
    (states : m.PleStates) : m.cell (m.layerForward inputs job states).2 =
      Function.update (m.cell states) job.1.tableIdx
        (m.layerRun inputs job (m.cell states job.1.tableIdx)).2 := by
  obtain ⟨s, layerId⟩ := job
  funext row
  simp only [cell, layerForward, plePrecompute, pleShortConv, dictGet_dictSet]
  by_cases hrow : s.tableIdx = row
  · subst hrow
    simp only [if_true, Option.getD_some, Function.update_self]
    refine Prod.ext (Subtype.ext ?_) (Subtype.ext ?_)
    · simp only [layerRun, pleState, Recurrence.prod, Recurrence.window, map_fst_sliceInputs]
    · simp only [layerRun, pleState, Recurrence.prod, Recurrence.window, map_layer_sliceInputs]
  · simp only [if_neg hrow, Function.update_of_ne (Ne.symm hrow), cell]

/-- The loop over the requests and layers finds and leaves every row as if it were the
only one. -/
theorem forward_eq (inputs : LayerInputs (Column R width)) (slices : List Slice)
    (states : m.PleStates) :
    (m.forward inputs slices states).1 = (Sweep.sweep (fun job => job.1.tableIdx)
        (m.layerRun inputs) (layerJobs slices m.pleLayers) (m.cell states)).1 ∧
      m.cell (m.forward inputs slices states).2 = (Sweep.sweep (fun job => job.1.tableIdx)
        (m.layerRun inputs) (layerJobs slices m.pleLayers) (m.cell states)).2 :=
  Sweep.loop_eq_sweep m.cell (layerForward_run inputs) (cell_layerForward inputs) _ _

omit [Semiring R] in
/-- With one PLE layer at most, no two jobs share a row. -/
theorem jobs_nodup (hone : m.pleLayers.length ≤ 1) {slices : List Slice}
    (hn : (slices.map Slice.tableIdx).Nodup) :
    ((layerJobs slices m.pleLayers).map fun job => job.1.tableIdx).Nodup := by
  cases hlayers : m.pleLayers with
  | nil =>
      have hnil : layerJobs slices [] = [] := by simp [layerJobs]
      rw [hnil]
      exact List.nodup_nil
  | cons layerId rest =>
      rw [hlayers] at hone
      obtain rfl : rest = [] := List.length_eq_zero_iff.mp (by simpa using hone)
      have hjobs : layerJobs slices [layerId] = slices.map fun s => (s, layerId) :=
        List.flatMap_pure_eq_map _ _
      rw [hjobs, List.map_map]
      exact hn

end Qwen4Exp

end FreeToken
