import FreeToken.Lib.Except
import FreeToken.Lib.ReadNumbers

/-!
# Names of expert tensors

The key parsers of `models/weight.py`, and the errors of its expert streamers. The parsers of the
quantized formats differ in the components a tensor may have, and in where they look for the layer.
-/

namespace FreeToken.Experts

/-- What the expert streamers read of a model's config. -/
structure MoeConfig where
  numLayers : Nat
  numExperts : Nat
  firstKDenseReplace : Nat
  numExperts_pos : 0 < numExperts

inductive Bank where
  | gateUp
  | down
deriving DecidableEq

inductive Proj where
  | gateProj
  | upProj
  | downProj
deriving DecidableEq

def Proj.bank : Proj → Bank
  | .gateProj => .gateUp
  | .upProj => .gateUp
  | .downProj => .down

/-- `required_projs`. -/
def Bank.projs : Bank → List Proj
  | .gateUp => [.gateProj, .upProj]
  | .down => [.downProj]

theorem Proj.mem_projs (p : Proj) : p ∈ p.bank.projs := by cases p <;> decide

def projOf : String → Option Proj
  | "gate_proj" => some .gateProj
  | "up_proj" => some .upProj
  | "down_proj" => some .downProj
  | _ => none

inductive GptqComponent where
  | qweight
  | qzeros
  | scales
  | gIdx
deriving DecidableEq

def gptqComponent : String → Option GptqComponent
  | "qweight" => some .qweight
  | "qzeros" => some .qzeros
  | "scales" => some .scales
  | "g_idx" => some .gIdx
  | _ => none

inductive Fp8Component where
  | weight
  | weightScaleInv
deriving DecidableEq

def fp8Component : String → Option Fp8Component
  | "weight" => some .weight
  | "weight_scale_inv" => some .weightScaleInv
  | _ => none

inductive Int8Component where
  | weightPacked
  | weightScale
  | weightShape
deriving DecidableEq

def int8Component : String → Option Int8Component
  | "weight_packed" => some .weightPacked
  | "weight_scale" => some .weightScale
  | "weight_shape" => some .weightShape
  | _ => none

inductive Mxfp4Component where
  | blocks
  | scales
deriving DecidableEq

/-- The tokens `{proj}_{component}`. -/
def mxfp4Token : String → Option (Bank × Mxfp4Component)
  | "gate_up_proj_blocks" => some (.gateUp, .blocks)
  | "gate_up_proj_scales" => some (.gateUp, .scales)
  | "down_proj_blocks" => some (.down, .blocks)
  | "down_proj_scales" => some (.down, .scales)
  | _ => none

/-- What a parser finds in a key: ids are as `int` reads them, so they may be out of range. -/
structure ExpertKey (κ : Type) where
  layer : Int
  proj : Proj
  expert : Int
  component : κ
deriving DecidableEq

/-- What a parser may do: the key is found, is none of its own, or is one at which it stops with an
`IndexError`. -/
inductive Parsed (α : Type) where
  | key (a : α)
  | foreign
  | indexError
deriving DecidableEq

/-- `parts[i - 1]`, which is the last part for `i = 0`. -/
def partBefore (parts : List String) (i : Nat) : Option String :=
  if i = 0 then parts.getLast? else parts[i - 1]?

/-- `int(parts[parts.index("mlp") - 1])`, and the parts after `experts`, which has to follow `mlp`. -/
def mlpExperts (parts : List String) : Parsed (Int × List String) :=
  match parts.idxOf? "mlp", parts.idxOf? "experts" with
  | some mlpPos, some ePos =>
      match (partBefore parts mlpPos).bind readInt with
      | none => .foreign
      | some layer =>
          match parts[mlpPos + 1]? with
          | none => .indexError
          | some next => if next = "experts" then .key (layer, parts.drop (ePos + 1)) else .foreign
  | _, _ => .foreign

/-- `{e}.{gate_proj|up_proj|down_proj}`. -/
def expertTail {κ : Type} (layer : Int) (component : κ) : List String → Parsed (ExpertKey κ)
  | [expert, proj] =>
      match readInt expert, projOf proj with
      | some expert, some proj => .key ⟨layer, proj, expert, component⟩
      | _, _ => .foreign
  | _ => .foreign

/-- `layers.{L}.mlp.experts.{e}.{proj}.{component}`. -/
def parseExpertKey {κ : Type} (components : String → Option κ) (key : String) :
    Parsed (ExpertKey κ) :=
  let parts := dotParts key
  match parts.getLast?.bind components with
  | none => .foreign
  | some component =>
      if parts.length < 2 then .foreign
      else
        match mlpExperts parts.dropLast with
        | .key (layer, tail) => expertTail layer component tail
        | .foreign => .foreign
        | .indexError => .indexError

/-- `_parse_gptq_expert_key`. -/
def parseGptqExpertKey : String → Parsed (ExpertKey GptqComponent) := parseExpertKey gptqComponent

/-- `_parse_fp8_expert_key`. -/
def parseFp8ExpertKey : String → Parsed (ExpertKey Fp8Component) := parseExpertKey fp8Component

/-- `_parse_int8_expert_key`: the layer stands before `experts`, or before an `mlp` in between. -/
def parseInt8ExpertKey (key : String) : Parsed (ExpertKey Int8Component) :=
  let parts := dotParts key
  match parts.getLast?.bind int8Component with
  | none => .foreign
  | some component =>
      if parts.length < 2 then .foreign
      else
        let body := parts.dropLast
        match body.idxOf? "experts" with
        | none => .foreign
        | some ePos =>
            if ePos = 0 then .foreign
            else
              let layerPos : Int := if body[ePos - 1]? = some "mlp" then ePos - 2 else ePos - 1
              if layerPos < 0 then .foreign
              else
                match body[layerPos.toNat]?.bind readInt with
                | none => .foreign
                | some layer => expertTail layer component (body.drop (ePos + 1))

/-- `_parse_mxfp4_expert_key`: all experts of a layer come in one tensor. -/
def parseMxfp4ExpertKey (key : String) : Parsed (Int × Bank × Mxfp4Component) :=
  match mlpExperts (dotParts key) with
  | .key (layer, [token]) =>
      match mxfp4Token token with
      | some (bank, component) => .key (layer, bank, component)
      | none => .foreign
  | .key _ => .foreign
  | .foreign => .foreign
  | .indexError => .indexError

/-! ### What the bf16 streamer reads -/

/-- A key of the bf16 streamer: a whole layer's bank, or one matrix of one expert. -/
inductive SourceKey where
  | packed (layer : Int) (bank : Bank)
  | row (layer : Int) (proj : Proj) (expert : Int)
deriving DecidableEq

def packedBank : String → Option Bank
  | "gate_up_proj" => some .gateUp
  | "down_proj" => some .down
  | _ => none

/-- The errors of the streamers; all are a `ValueError` but the last three. -/
inductive ExpertError where
  | unexpectedKey (name : String)
  | layer (layer : Int)
  | expert (expert layer : Int)
  | alreadyFinalized (layer : Nat) (bank : Bank) (name : String)
  | duplicate (name : String) (layer : Nat) (bank : Bank)
  | missing (banks : List (Nat × Bank))
  | missingComponents (layer expert : Nat)
  | gIdxMismatch (layer expert : Nat)
  | gIdxDiffers (layer expert : Nat)
  | notMultiple (layer expert n block : Nat)
  | kMismatch (layer expert : Nat) (kGate kUp : Int)
  | kDiffers (layer expert : Nat) (k k0 : Int)
  | experts (layer : Nat) (bank : Bank) (count : Nat)
  | shapeMismatch (layer : Nat) (bank : Bank) (blocks scales : List Nat)
  | otherFormat (name : String)
  | expertCount (bank : Bank) (count : Nat)
  | inconsistentShape (bank : Bank) (shape expected : List Nat)
  | duplicateRow (layer expert : Nat) (proj : Proj)
  | missingLayers (layers : List (Bank × List Nat))
  | noRows
  | notMatrix (dim : Nat)
  | rowShapes
  /-- A key at which the parser stops with an `IndexError`. -/
  | keyIndex (name : String)
  /-- An operation of torch, or a division, is refused: no `ValueError`. -/
  | torch
  /-- The `tensor` of a bank that is `None`: an `AttributeError`. -/
  | noBank
deriving DecidableEq

def ExpertError.IsValueError : ExpertError → Prop
  | .keyIndex _ => False
  | .torch => False
  | .noBank => False
  | _ => True

/-- `tail[:-1]` where it ends in `weight` or `bias`. -/
def dropWeight (tail : List String) : List String :=
  if tail.getLast? = some "weight" ∨ tail.getLast? = some "bias" then tail.dropLast else tail

/-- `_expert_source_info`. -/
def expertSourceInfo (key : String) : Except ExpertError (Option SourceKey) :=
  match mlpExperts (dotParts key) with
  | .foreign => .ok none
  | .indexError => .error (.keyIndex key)
  | .key (layer, tail) =>
      if (tail.getLast?.bind gptqComponent).isSome then .error (.otherFormat key)
      else if tail.getLast? = some "weight_scale_inv" then .error (.otherFormat key)
      else
        match dropWeight tail with
        | [] => .ok none
        | [token] => .ok ((packedBank token).map (.packed layer))
        | expert :: proj :: _ =>
            match projOf proj, readInt expert with
            | some proj, some expert => .ok (some (.row layer proj expert))
            | _, _ => .ok none

/-- A layer and an expert that the config has. -/
def checkLayer (config : MoeConfig) (layer : Int) : Except ExpertError Nat :=
  if 0 ≤ layer ∧ layer < config.numLayers then .ok layer.toNat else .error (.layer layer)

def checkExpert (config : MoeConfig) (layer expert : Int) : Except ExpertError Nat :=
  if 0 ≤ expert ∧ expert < config.numExperts then .ok expert.toNat
  else .error (.expert expert layer)

/-- What `parse` found, or the streamer's error. -/
def parsed {α : Type} (parse : String → Parsed α) (name : String) : Except ExpertError α :=
  match parse name with
  | .key a => .ok a
  | .foreign => .error (.unexpectedKey name)
  | .indexError => .error (.keyIndex name)

theorem checkLayer_eq_ok {config : MoeConfig} {layer : Int} {l : Nat} :
    checkLayer config layer = .ok l ↔ layer = l ∧ l < config.numLayers := by
  rw [checkLayer]
  split
  · simp only [Except.ok.injEq]
    omega
  · simp only [reduceCtorEq, false_iff]
    omega

theorem checkExpert_eq_ok {config : MoeConfig} {layer expert : Int} {e : Nat} :
    checkExpert config layer expert = .ok e ↔ expert = e ∧ e < config.numExperts := by
  rw [checkExpert]
  split
  · simp only [Except.ok.injEq]
    omega
  · simp only [reduceCtorEq, false_iff]
    omega

example : parseFp8ExpertKey "model.layers.3.mlp.experts.0.gate_proj.weight_scale_inv" =
    .key ⟨3, .gateProj, 0, .weightScaleInv⟩ := by decide +kernel

end FreeToken.Experts
