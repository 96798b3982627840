import FreeToken.Models.ShortConv
import FreeToken.Engine.RowStates

/-!
# LFM2-MoE's conv rings

The model keeps a ring for each conv layer and request slot and advances it in every
forward. Its layers have no `linear_attn`, so the engine gives its requests no linear
slot, and the slot of a ring is the page-table row. A run is watched by the inputs each
conv layer had for the request at each row.
-/

namespace FreeToken

inductive LayerType where
  | conv
  | fullAttention
deriving DecidableEq, Repr

variable {R : Type} [Semiring R] {hidden kernelSize : Nat}

/-! ### The pool -/

/-- `_ConvStatePool`: a list of rings for each conv layer. -/
structure ConvStatePool (R : Type) (hidden kernelSize : Nat) where
  layers : Nat → List (Ring R hidden kernelSize)

namespace ConvStatePool

/-- `register` for every layer. -/
def register (numSlots : Nat) : ConvStatePool R hidden kernelSize where
  layers := fun _ => List.replicate numSlots Ring.zero

/-- The lazy growth in `get`. -/
def grow (slot : Nat) (entries : List (Ring R hidden kernelSize)) : List (Ring R hidden kernelSize) :=
  entries ++ List.replicate (slot + 1 - entries.length) Ring.zero

/-- `get`: the ring, and the pool with room for it. -/
def get (pool : ConvStatePool R hidden kernelSize) (layerId slot : Nat) :
    Ring R hidden kernelSize × ConvStatePool R hidden kernelSize :=
  let entries := grow slot (pool.layers layerId)
  ((entries[slot]?).getD Ring.zero, { layers := Function.update pool.layers layerId entries })

/-- What the layer leaves in the ring it got. -/
def put (pool : ConvStatePool R hidden kernelSize) (layerId slot : Nat)
    (ring : Ring R hidden kernelSize) : ConvStatePool R hidden kernelSize where
  layers := Function.update pool.layers layerId ((pool.layers layerId).set slot ring)

/-- The ring of a layer and a slot; one that is still to be grown is zero. -/
def ring (pool : ConvStatePool R hidden kernelSize) (key : Nat × Nat) : Ring R hidden kernelSize :=
  ((pool.layers key.1)[key.2]?).getD Ring.zero

theorem getD_grow (entries : List (Ring R hidden kernelSize)) (slot j : Nat) :
    ((grow slot entries)[j]?).getD Ring.zero = (entries[j]?).getD Ring.zero := by
  rw [grow]
  rcases Nat.lt_or_ge j entries.length with hlt | hge
  · rw [List.getElem?_append_left hlt]
  · rw [List.getElem?_append_right hge, List.getElem?_eq_none hge, List.getElem?_replicate]
    split <;> rfl

theorem get_fst (pool : ConvStatePool R hidden kernelSize) (layerId slot : Nat) :
    (pool.get layerId slot).1 = pool.ring (layerId, slot) := getD_grow _ _ _

/-- Getting a ring and leaving another one in its place changes no other. -/
theorem ring_put (pool : ConvStatePool R hidden kernelSize) (layerId slot : Nat)
    (ring : Ring R hidden kernelSize) :
    ((pool.get layerId slot).2.put layerId slot ring).ring =
      Function.update pool.ring (layerId, slot) ring := by
  funext key
  obtain ⟨l, j⟩ := key
  have hlt : slot < (grow slot (pool.layers layerId)).length := by
    rw [grow, List.length_append, List.length_replicate]
    omega
  by_cases hl : l = layerId
  · subst hl
    simp only [ConvStatePool.ring, put, get, Function.update_self]
    by_cases hj : j = slot
    · subst hj
      rw [Function.update_self, List.getElem?_set_self hlt]
      rfl
    · rw [Function.update_of_ne (fun heq => hj (Prod.mk.inj heq).2),
        List.getElem?_set_ne (Ne.symm hj), getD_grow]
      rfl
  · rw [Function.update_of_ne (fun heq => hl (Prod.mk.inj heq).1)]
    simp only [ConvStatePool.ring, put, get, Function.update_of_ne hl]

end ConvStatePool

/-! ### The forward -/

/-- `Lfm2MoeForCausalLM`, as far as its conv layers go. -/
structure Lfm2Moe (R : Type) (hidden kernelSize : Nat) where
  layerTypes : List LayerType
  conv : Nat → ShortConv R hidden kernelSize
  /-- `max_running_req`, or 8 when the engine has not set it. -/
  maxSlots : Nat := 8
  kernelSize_pos : 0 < kernelSize := by decide

/-- A conv layer's run over a slice: the ring it read, and its output. -/
structure ConvRun (R : Type) (hidden kernelSize : Nat) where
  layerId : Nat
  slice : Slice
  xs : List (Column R hidden)
  ring : Ring R hidden kernelSize
  out : List (Column R hidden)

/-- `fresh`: the slice starts at position 0. -/
def Slice.fresh (s : Slice) : Bool := decide (s.positions.head? = some 0)

theorem Slice.fresh_iff {s : Slice} (h : s.tokens ≠ []) : s.fresh = true ↔ s.start = 0 := by
  cases htok : s.tokens with
  | nil => exact absurd htok h
  | cons tok toks => simp [Slice.fresh, Slice.positions, htok, List.range'_succ]

namespace Lfm2Moe

variable (m : Lfm2Moe R hidden kernelSize)

def convLayers : List Nat :=
  (List.range m.layerTypes.length).filter fun i => m.layerTypes[i]? = some .conv

/-- A conv layer's run over a slice, and the ring afterwards. -/
def layerRun (inputs : LayerInputs (Column R hidden)) (job : Slice × Nat)
    (state : Ring R hidden kernelSize) : ConvRun R hidden kernelSize × Ring R hidden kernelSize :=
  let (s, layerId) := job
  let state := if s.fresh then Ring.zero else state
  let xs := (inputs.slice s).map fun x => x layerId
  let (out, state') := (m.conv layerId).forwardStateful xs state
  ({ layerId := layerId, slice := s, xs := xs, ring := state, out := out }, state')

/-- A conv layer's part of the decoder layer's forward. -/
def layerForward (inputs : LayerInputs (Column R hidden)) (job : Slice × Nat)
    (pool : ConvStatePool R hidden kernelSize) :
    ConvRun R hidden kernelSize × ConvStatePool R hidden kernelSize :=
  let (state, pool) := pool.get job.2 job.1.tableIdx
  let (run, state) := m.layerRun inputs job state
  (run, pool.put job.2 job.1.tableIdx state)

/-- The conv layers of a step's forward. -/
def forward (inputs : LayerInputs (Column R hidden)) (slices : List Slice)
    (pool : ConvStatePool R hidden kernelSize) :
    List (ConvRun R hidden kernelSize) × ConvStatePool R hidden kernelSize :=
  Sweep.loop (m.layerForward inputs) (layerJobs slices m.convLayers) pool

/-- The ring of a layer as a state over the inputs of all layers. -/
def ringState (layerId : Nat) : Recurrence (Nat → Column R hidden) (Ring R hidden kernelSize) :=
  Recurrence.window 0 (kernelSize - 1) fun x => (m.conv layerId).gated (x layerId)

variable {m}

theorem ringState_after (layerId : Nat) (past : List (Nat → Column R hidden)) :
    (m.ringState layerId).after past =
      (m.conv layerId).ring.after (past.map fun x => x layerId) :=
  Recurrence.after_window_comp _ _ _ _ past

theorem ringState_advance (layerId : Nat) (xs : List (Nat → Column R hidden))
    (state : Ring R hidden kernelSize) : (m.ringState layerId).advance state xs =
      ((m.conv layerId).forwardStateful (xs.map fun x => x layerId) state).2 := by
  apply Subtype.ext
  simp only [ringState, Recurrence.window, ShortConv.forwardStateful, List.map_map]
  rfl

/-- The cell of a job in the pool. -/
def jobKey (job : Slice × Nat) : Nat × Nat := (job.2, job.1.tableIdx)

omit [Semiring R] in
theorem jobs_nodup {slices : List Slice} (hn : (slices.map Slice.tableIdx).Nodup) :
    ((layerJobs slices m.convLayers).map jobKey).Nodup := by
  have hlayers : m.convLayers.Nodup := List.Nodup.filter _ List.nodup_range
  induction slices with
  | nil => exact List.nodup_nil
  | cons s slices ih =>
      obtain ⟨hrow, hn⟩ := List.nodup_cons.mp hn
      rw [layerJobs, List.flatMap_cons, List.map_append, List.nodup_append']
      refine ⟨?_, ih hn, ?_⟩
      · rw [List.map_map]
        exact hlayers.map fun a b hab => (Prod.mk.inj hab).1
      · intro key hkey hkey'
        obtain ⟨job, hjob, rfl⟩ := List.mem_map.mp hkey
        obtain ⟨job', hjob', heq⟩ := List.mem_map.mp hkey'
        obtain ⟨l, -, rfl⟩ := List.mem_map.mp hjob
        have hs := (mem_layerJobs.mp hjob').1
        exact hrow ((Prod.mk.inj heq).2 ▸ List.mem_map_of_mem hs)

/-- The loop over the requests and layers finds and leaves every ring as if it were the
only one. -/
theorem forward_eq (inputs : LayerInputs (Column R hidden)) (slices : List Slice)
    (pool : ConvStatePool R hidden kernelSize) :
    (m.forward inputs slices pool).1 =
        (Sweep.sweep jobKey (m.layerRun inputs) (layerJobs slices m.convLayers) pool.ring).1 ∧
      (m.forward inputs slices pool).2.ring =
        (Sweep.sweep jobKey (m.layerRun inputs) (layerJobs slices m.convLayers) pool.ring).2 := by
  refine Sweep.loop_eq_sweep ConvStatePool.ring (fun job pool => ?_) (fun job pool => ?_) _ _
  · simp only [layerForward, pool.get_fst]
    rfl
  · simp only [layerForward]
    rw [pool.ring_put, pool.get_fst]
    rfl

end Lfm2Moe

end FreeToken
