import FreeToken.Lib.Run
import Mathlib.Data.List.MinMax
import Mathlib.Data.Prod.Lex
import Mathlib.Data.List.Sort
import Mathlib.Logic.Function.Basic

/-!
# The expert cache

`moe/offload_cache.py`: a pool of device slots, shared by all layers, that is fed from the
host banks. An expert of a layer has the flat id `layer * num_experts + expert`. A tensor is
a function of its index; `-1` is `none`. `evict_slots[:n]` and `src_indices[:n]` are one list of
pairs, `n` being `num_indices`.
-/

namespace FreeToken

/-- The exceptions of the cache. -/
inductive Raised where
  | valueError
  | runtimeError
  | indexError
  | assertionError
  | keyError
deriving DecidableEq, Repr

/-- A bank: its host rows, by layer and expert, and its slot cache. -/
structure Bank (ρ : Type) where
  name : String
  host : Nat → Nat → ρ
  cache : Nat → ρ

/-- `OffloadMoeCache`. -/
structure OffloadMoeCache (ρ : Type) where
  numLayers : Nat
  numExperts : Nat
  cacheSize : Nat
  numExperts_le : numExperts ≤ cacheSize
  slotForId : Nat → Option Nat := fun _ => none
  idOfSlot : Nat → Option Nat := fun _ => none
  usage : Nat → Nat := fun _ => 0
  step : Nat := 0
  plan : List (Nat × Nat) := []
  pendingSrcLayer : Option Nat := none
  banks : List (Bank ρ) := []

namespace OffloadMoeCache

variable {ρ : Type}

/-- The constructor, and `set_bank_sources` with sources that match the schema. -/
def new [Zero ρ] (numLayers numExperts cacheSize : Nat) (sources : List (String × (Nat → Nat → ρ))) :
    Except Raised (OffloadMoeCache ρ) :=
  if h : cacheSize < numExperts then .error .valueError
  else .ok {
    numLayers := numLayers
    numExperts := numExperts
    cacheSize := cacheSize
    numExperts_le := Nat.le_of_not_lt h
    banks := sources.map fun source =>
      { name := source.1, host := source.2, cache := fun _ => 0 } }

/-- `layer_id * E + expert`. -/
def flatId (c : OffloadMoeCache ρ) (layer expert : Nat) : Nat := layer * c.numExperts + expert

/-- `evict_slots.shape[0]`. -/
def planSlots (c : OffloadMoeCache ρ) : Nat := max c.numExperts c.cacheSize

/-- `rebuild`. -/
def rebuild [Zero ρ] (c : OffloadMoeCache ρ) (cacheSize : Nat) : Except Raised (OffloadMoeCache ρ) :=
  if h : cacheSize < c.numExperts then .error .valueError
  else .ok {
    numLayers := c.numLayers
    numExperts := c.numExperts
    cacheSize := cacheSize
    numExperts_le := Nat.le_of_not_lt h
    banks := c.banks.map fun b => { b with cache := fun _ => 0 } }

/-- `reset`. -/
def reset [Zero ρ] (c : OffloadMoeCache ρ) : OffloadMoeCache ρ where
  numLayers := c.numLayers
  numExperts := c.numExperts
  cacheSize := c.cacheSize
  numExperts_le := c.numExperts_le
  banks := c.banks.map fun b => { b with cache := fun _ => 0 }

/-- `_resync_slot_for_id`. -/
def resync (c : OffloadMoeCache ρ) : OffloadMoeCache ρ :=
  { c with
    slotForId := (List.range c.cacheSize).foldl
      (fun slots s =>
        match c.idOfSlot s with
        | none => slots
        | some id => Function.update slots id (some s))
      fun _ => none }

/-! ### Hits and misses -/

/-- The next step, with an empty plan; the slots of resident experts are stamped with it. -/
def hits (c : OffloadMoeCache ρ) (layer : Nat) (asked : List Nat) : OffloadMoeCache ρ :=
  { c with
    step := c.step + 1
    usage := asked.foldl
      (fun usage e =>
        match c.slotForId (c.flatId layer e) with
        | none => usage
        | some s => Function.update usage s (c.step + 1))
      c.usage
    plan := [] }

/-- The experts without a slot. -/
def missing (c : OffloadMoeCache ρ) (layer : Nat) (asked : List Nat) : List Nat :=
  asked.filter fun e => c.slotForId (c.flatId layer e) = none

/-- `min(range(S), key=lambda s: (usage[s], s))`. -/
def lruSlot (c : OffloadMoeCache ρ) : Option Nat :=
  (List.range c.cacheSize).argmin fun s => toLex (c.usage s, s)

/-- A free slot, or else the least recently used one. -/
def freeOrLru (c : OffloadMoeCache ρ) : Option Nat :=
  match (List.range c.cacheSize).filter fun s => c.idOfSlot s = none with
  | [] => c.lruSlot
  | s :: _ => some s

/-- The expert takes the slot of the victim. -/
def place (c : OffloadMoeCache ρ) (layer expert victim : Nat) : OffloadMoeCache ρ :=
  let slots :=
    match c.idOfSlot victim with
    | none => c.slotForId
    | some oldId => Function.update c.slotForId oldId none
  { c with
    idOfSlot := Function.update c.idOfSlot victim (some (c.flatId layer expert))
    slotForId := Function.update slots (c.flatId layer expert) (some victim)
    usage := Function.update c.usage victim c.step
    plan := c.plan ++ [(victim, expert)] }

/-- The loop over the misses. -/
def placeAll (pick : OffloadMoeCache ρ → Option Nat) (layer : Nat) :
    OffloadMoeCache ρ → List Nat → Except Raised (OffloadMoeCache ρ)
  | c, [] => .ok c
  | c, expert :: experts =>
      if c.planSlots ≤ c.plan.length then .error .runtimeError
      else
        match pick c with
        | none => .error .valueError
        | some victim => placeAll pick layer (c.place layer expert victim) experts

/-- What `materialize_layer` and `ensure_experts` do with the experts asked for. -/
def serve (pick : OffloadMoeCache ρ → Option Nat) (order : List Nat → List Nat)
    (c : OffloadMoeCache ρ) (layer : Nat) (asked : List Nat) : Except Raised (OffloadMoeCache ρ) :=
  (placeAll pick layer (c.hits layer asked) (order (c.missing layer asked))).map fun c =>
    resync { c with pendingSrcLayer := some layer }

/-- `materialize_layer`. -/
def materializeLayer (c : OffloadMoeCache ρ) (layer : Nat) : Except Raised (OffloadMoeCache ρ) :=
  if c.numLayers ≤ layer then .error .valueError
  else if c.cacheSize < c.numExperts then .error .valueError
  else serve freeOrLru id c layer (List.range c.numExperts)

/-- The loop that fills `seen`. -/
def firstSeen (ids : List Nat) : List Nat :=
  ids.foldl (fun seen e => if e ∈ seen then seen else seen ++ [e]) []

/-- `ensure_experts`: an expert out of range is refused by `active_mask`, a layer by
`slot_for_id`. -/
def ensureExperts (c : OffloadMoeCache ρ) (layer : Nat) (expertIds : List Nat) :
    Except Raised (OffloadMoeCache ρ) :=
  if c.banks.length ≠ 0 ∧ c.cacheSize < 2 then .error .runtimeError
  else if ∃ e ∈ firstSeen expertIds, c.numExperts ≤ e then .error .indexError
  else if c.numLayers ≤ layer then .error .indexError
  else serve lruSlot (List.insertionSort (· ≤ ·)) c layer (firstSeen expertIds)

/-- `copy_missing`. -/
def copyMissing (c : OffloadMoeCache ρ) : Except Raised (OffloadMoeCache ρ) :=
  if c.banks.length = 0 then .error .assertionError
  else
    match c.pendingSrcLayer with
    | none => .ok c
    | some layer => .ok { c with
        banks := c.banks.map fun b =>
          { b with
            cache := c.plan.foldl (fun cache p => Function.update cache p.1 (b.host layer p.2)) b.cache }
        pendingSrcLayer := none }

/-! ### Runs -/

/-- The calls of a run; the plan of the first two is copied at once. -/
inductive Call where
  | materialize (layer : Nat)
  | ensure (layer : Nat) (expertIds : List Nat)
  | rebuild (cacheSize : Nat)
  | reset
deriving DecidableEq, Repr

/-- A call that raises does not come back. -/
def next [Zero ρ] (c : OffloadMoeCache ρ) : Call → Option (OffloadMoeCache ρ)
  | .materialize layer => (c.materializeLayer layer >>= copyMissing).toOption
  | .ensure layer expertIds => (c.ensureExperts layer expertIds >>= copyMissing).toOption
  | .rebuild cacheSize => (c.rebuild cacheSize).toOption
  | .reset => some c.reset

/-- The layer and the experts a call asks for. -/
def asked (c : OffloadMoeCache ρ) : Call → Option (Nat × List Nat)
  | .materialize layer => some (layer, List.range c.numExperts)
  | .ensure layer expertIds => some (layer, expertIds)
  | .rebuild _ => none
  | .reset => none

/-- Each pass of the loop over the misses: the cache it finds, and its victim. -/
def placements (pick : OffloadMoeCache ρ → Option Nat) (layer : Nat) :
    OffloadMoeCache ρ → List Nat → List (OffloadMoeCache ρ × Nat)
  | _, [] => []
  | c, expert :: experts =>
      match pick c with
      | none => []
      | some victim => (c, victim) :: placements pick layer (c.place layer expert victim) experts

/-- The same of a call. -/
def callPlacements (c : OffloadMoeCache ρ) : Call → List (OffloadMoeCache ρ × Nat)
  | .materialize layer =>
      placements freeOrLru layer (c.hits layer (List.range c.numExperts))
        (c.missing layer (List.range c.numExperts))
  | .ensure layer expertIds =>
      placements lruSlot layer (c.hits layer (firstSeen expertIds))
        ((c.missing layer (firstSeen expertIds)).insertionSort (· ≤ ·))
  | .rebuild _ => []
  | .reset => []

end OffloadMoeCache

end FreeToken
