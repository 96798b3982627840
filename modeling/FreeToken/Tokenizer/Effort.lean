import Mathlib.Data.Finset.Sort
import Mathlib.Data.Fintype.Basic
import Mathlib.Data.List.MinMax

/-!
# Reasoning effort

`tokenizer/effort.py`: the levels that a chat template accepts are learned by rendering probes
through it, and a client's value goes to the nearest of them. Positions on the scale are in
hundredths. A set is iterated in an order that may differ from process to process.
-/

namespace FreeToken

/-- `KNOWN_REASONING_EFFORTS`. -/
inductive Effort where
  | none
  | minimal
  | low
  | medium
  | high
  | xhigh
  | max
deriving DecidableEq, Repr

namespace Effort

def name : Effort → String
  | none => "none"
  | minimal => "minimal"
  | low => "low"
  | medium => "medium"
  | high => "high"
  | xhigh => "xhigh"
  | max => "max"

/-- `EFFORT_SCALE`. -/
def scale : Effort → Nat
  | none => 0
  | minimal => 10
  | low => 20
  | medium => 70
  | high => 90
  | xhigh => 99
  | max => 99

def known : List Effort := [none, minimal, low, medium, high, xhigh, max]

theorem mem_known (level : Effort) : level ∈ known := by cases level <;> decide

instance : Fintype Effort := ⟨known.toFinset, fun level => List.mem_toFinset.mpr (mem_known level)⟩

def ofName? (s : String) : Option Effort := known.find? fun level => level.name = s

end Effort

/-- An order in which a process iterates each set. -/
structure SetOrder where
  list : Finset Effort → List Effort
  nodup : ∀ s, (list s).Nodup
  mem_iff : ∀ s level, level ∈ list s ↔ level ∈ s

/-- A value of `chat_template_kwargs`. -/
inductive KwValue where
  | bool (b : Bool)
  | str (s : String)
deriving DecidableEq, Repr

abbrev Kwargs := List (String × KwValue)

/-- The function of a tool; its parameters are an object without properties. -/
structure ProbeTool where
  name : String
  description : String
deriving DecidableEq, Repr

/-- `_PROBE_TOOLS`. -/
def probeTools : List ProbeTool := [{ name := "noop", description := "No-op probe tool." }]

/-- `_PROBE_ROUNDS`. -/
def probeRounds : List (Kwargs × Option (List ProbeTool)) :=
  [([], none), ([], some probeTools), ([("enable_thinking", .bool true)], none)]

/-- A template: `render`, and whether two of its renderings compare as different. -/
structure Template where
  Rendering : Type
  Raised : Type
  render : Kwargs → Option (List ProbeTool) → Except Raised Rendering
  differ : Rendering → Rendering → Bool

/-- `EffortProfile`. -/
structure EffortProfile where
  supported : Finset Effort
  default : Option Effort
  consumesEffort : Bool
  validates : Bool := false
  strengthDialect : Bool := false

/-! ### The probe -/

/-- What the rounds have found. -/
structure Probe where
  rejected : Finset Effort := ∅
  diverged : Finset Effort := ∅
  matchesBaseline : Effort → Bool := fun _ => true
  ranRounds : Nat := 0

namespace Template

variable (t : Template)

/-- `{**base_kwargs, "reasoning_effort": name}`. -/
def effortKwargs (baseKwargs : Kwargs) (level : Effort) : Kwargs :=
  baseKwargs ++ [("reasoning_effort", .str level.name)]

/-- A level of a round. -/
def probeLevel (baseKwargs : Kwargs) (tools : Option (List ProbeTool)) (baseline : t.Rendering)
    (p : Probe) (level : Effort) : Probe :=
  match t.render (effortKwargs baseKwargs level) tools with
  | .error _ => { p with
      rejected := insert level p.rejected
      matchesBaseline := fun l => if l = level then false else p.matchesBaseline l }
  | .ok rendering =>
      if t.differ rendering baseline then { p with
        diverged := insert level p.diverged
        matchesBaseline := fun l => if l = level then false else p.matchesBaseline l }
      else p

/-- A round; one without a baseline is skipped. -/
def probeRound (p : Probe) (round : Kwargs × Option (List ProbeTool)) : Probe :=
  match t.render round.1 round.2 with
  | .error _ => p
  | .ok baseline => Effort.known.foldl (t.probeLevel round.1 round.2 baseline)
      { p with ranRounds := p.ranRounds + 1 }

def probed : Probe := probeRounds.foldl t.probeRound {}

/-- `strength_dialect`. -/
def strengthDialect : Bool :=
  match t.render [] none, t.render [("reasoning_strength", .str "low")] none with
  | .ok baseline, .ok moved => t.differ moved baseline
  | _, _ => false

/-- `probe_effort_profile`. -/
def probeEffortProfile (order : SetOrder) : EffortProfile :=
  let p := t.probed
  if p.ranRounds = 0 then { supported := ∅, default := none, consumesEffort := false }
  else
    let supported := Finset.univ \ p.rejected
    let consumes := decide (p.rejected ≠ ∅ ∨ p.diverged ≠ ∅)
    { supported := supported
      default :=
        if consumes then ((order.list supported).filter p.matchesBaseline).argmax Effort.scale
        else none
      consumesEffort := consumes
      validates := decide (p.rejected ≠ ∅)
      strengthDialect := t.strengthDialect }

end Template

/-! ### The quantizer -/

/-- `OPENAI_EFFORT_TRIPLE`. -/
def openaiEffortTriple : Finset Effort := {.low, .medium, .high}

/-- `GRADED_EFFORT_LADDER`. -/
def gradedEffortLadder : Finset Effort := {.low, .medium, .high, .xhigh}

/-- `effective_efforts`. -/
def effectiveEfforts (profile : EffortProfile) : Finset Effort :=
  if ¬ profile.consumesEffort then ∅
  else if profile.validates ∨ profile.supported ≠ Finset.univ then profile.supported
  else
    let ladder := if profile.strengthDialect then gradedEffortLadder else openaiEffortTriple
    let vocab := ladder.filter (· ∈ profile.supported)
    match profile.default with
    | none => vocab
    | some level => insert level vocab

/-- What a client sends: a string, or a value of another type. -/
inductive ClientValue where
  | str (s : String)
  | other
deriving DecidableEq, Repr

namespace Effort

def distance (position : Nat) (level : Effort) : Nat := ((level.scale : Int) - position).natAbs

/-- The key `(abs(scale - position), -scale)` of `a` is at most that of `b`. -/
def Closer (position : Nat) (a b : Effort) : Prop :=
  a.distance position < b.distance position ∨
    (a.distance position = b.distance position ∧ b.scale ≤ a.scale)

instance (position : Nat) : DecidableRel (Closer position) := fun _ _ => instDecidableOr

end Effort

/-- `quantize_effort`. -/
def quantizeEffort (order : SetOrder) (value : ClientValue) (profile : EffortProfile) :
    Option Effort :=
  let supported := effectiveEfforts profile
  if supported = ∅ then none
  else
    match value with
    | .other => none
    | .str s =>
        match Effort.ofName? s with
        | none => none
        | some level =>
            if level ∈ supported then some level
            else
              let ranked := ((order.list supported).filter (· ≠ .max)).insertionSort
                (Effort.Closer level.scale)
              match ranked with
              | [] => none
              | first :: _ => if first.distance level.scale ≤ 15 then some first else none

end FreeToken
