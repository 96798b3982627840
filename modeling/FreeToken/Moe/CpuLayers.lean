import FreeToken.Lib.ReadNumbers
import Mathlib.Data.Rat.Floor

/-!
# The MoE layers on the CPU

`--moe-cpu-layers` is read three times: `parse_moe_cpu_layers` turns the string into a list of
MoE-layer indices or `None`, the loader puts that on the model beside the map from layer ids to
MoE-layer indices, and each block asks `_is_cpu_layer` whether it computes on the CPU. Two models
have such blocks, `models/qwen3_moe` and `models/qwen3_5_moe`, each with a `_is_cpu_layer` of its
own. How many MoE layers the parser hears of is a field of the config, which each `parse_config`
sets in its own way.
-/

namespace FreeToken

/-- What `parse_moe_cpu_layers` raises. -/
inductive CpuLayersError where
  /-- `invalid literal for int() with base 10: {token!r}` -/
  | invalidLiteral (token : String)
  /-- `--moe-cpu-layers id {i} is out of range [0, {num_moe_layers - 1})` -/
  | outOfRange (id : Int) (numMoeLayers : Nat)
  /-- `--moe-cpu-layers: {spec!r} is not a valid spec (int, fraction in (0, 1], 'auto', or a
  comma-separated id list)` -/
  | notValid (spec : String)
  /-- `OverflowError`: `int` of an infinity, or a count that no float holds. -/
  | overflow
deriving DecidableEq

/-- `int(tok)`. -/
def readId (tok : List Char) : Except CpuLayersError Int :=
  match readInt (String.ofList tok) with
  | some i => .ok i
  | none => .error (.invalidLiteral (String.ofList tok))

/-- `[int(tok) for tok in s.split(",") if tok.strip() != ""]`. -/
def readIds (s : List Char) : Except CpuLayersError (List Int) :=
  ((s.splitOn ',').filter fun tok => pyStrip tok ≠ []).mapM readId

/-- The values of `--moe-backend` that name a backend. -/
inductive MoeBackend where
  | fused
  | offload
  | cpu
  | hybrid
deriving DecidableEq

/-! ### The configs -/

/-- The fields of `ModelConfig` that the MoE layers depend on. -/
structure ModelConfig where
  numLayers : Nat
  firstKDenseReplace : Nat
  isMoe : Bool := false
  numMoeLayers : Option Nat := none
  useCpuMoe : Bool := false
  useHybrid : Bool := false

namespace ModelConfig

/-- `ModelConfig.__post_init__`. -/
def postInit (cfg : ModelConfig) : ModelConfig :=
  if cfg.numMoeLayers = none ∧ cfg.isMoe = true ∧ cfg.numLayers ≠ 0 then
    { cfg with numMoeLayers := some (cfg.numLayers - cfg.firstKDenseReplace) }
  else cfg

/-- `_moe_layers`. -/
def moeLayers (cfg : ModelConfig) : List Nat :=
  List.range' cfg.firstKDenseReplace (cfg.numLayers - cfg.firstKDenseReplace)

end ModelConfig

/-- A checkpoint whose model has blocks that can compute on the CPU, with what its config says of
the layers. -/
inductive MoeCheckpoint where
  /-- Of `Qwen3MoeForCausalLM`. -/
  | qwen3Moe
  /-- Of Qwen3.5. -/
  | qwen35Moe
  /-- A GGUF file of architecture `qwen3moe`. -/
  | ggufQwen3Moe
  /-- A GGUF file of architecture `qwen35moe`. -/
  | ggufQwen35Moe
deriving DecidableEq

/-- The `parse_config` of the checkpoint. That of `qwen3_moe` sets `is_moe` only after
`__post_init__` has run, and so without `num_moe_layers`. -/
def MoeCheckpoint.parseConfig (checkpoint : MoeCheckpoint)
    (numLayers firstKDenseReplace numExperts : Nat) (useCpuMoe useHybrid : Bool) : ModelConfig :=
  let cfg := ModelConfig.postInit ⟨numLayers, firstKDenseReplace, false, none, false, false⟩
  let cfg := { cfg with useCpuMoe := useCpuMoe, useHybrid := useHybrid }
  match checkpoint with
  | .qwen3Moe => { cfg with isMoe := true }
  | .qwen35Moe =>
      if 0 < numExperts then
        { cfg with isMoe := true, numMoeLayers := some (numLayers - firstKDenseReplace) }
      else cfg
  | .ggufQwen3Moe | .ggufQwen35Moe =>
      if numExperts ≠ 0 then
        { cfg with
          isMoe := true
          numMoeLayers :=
            if numLayers ≠ 0 then some (numLayers - firstKDenseReplace) else none }
      else cfg

/-! ### The model -/

/-- What `_is_cpu_layer` reads of a model. -/
structure CpuModel where
  moeBackend : Option MoeBackend
  moeCpuMoeLayers : Option (List Nat)
  moeLayerId : Option (List Nat)

/-- `moe_layer_id[self.layer_id] in cpu_layers`. -/
def CpuModel.names (model : CpuModel) (layerId : Nat) (cpuLayers : List Nat) : Bool :=
  match model.moeLayerId with
  | none => cpuLayers ≠ []
  | some ids =>
      match ids[layerId]? with
      | some moeIdx => moeIdx ∈ cpuLayers
      | none => false

/-- `_is_cpu_layer` of `_Qwen3MoE`. -/
def Qwen3MoE.isCpuLayer (config : ModelConfig) (layerId : Nat) : Option CpuModel → Bool
  | none => false
  | some model =>
      match model.moeBackend with
      | some .cpu =>
          match model.moeCpuMoeLayers with
          | none => true
          | some cpuLayers => model.names layerId cpuLayers
      | some .hybrid =>
          -- The flag is set for every block of a hybrid model.
          if config.useHybrid then false
          else
            match model.moeCpuMoeLayers with
            | none => false
            | some cpuLayers => if cpuLayers = [] then false else model.names layerId cpuLayers
      | _ => false

/-- `_is_cpu_layer` of `_Qwen35MoE`. Without a model it is the block's flag. -/
def Qwen35MoE.isCpuLayer (config : ModelConfig) (layerId : Nat) : Option CpuModel → Bool
  | none => config.useCpuMoe
  | some model =>
      if model.moeBackend ≠ some .cpu ∧ model.moeBackend ≠ some .hybrid then false
      else
        match model.moeCpuMoeLayers with
        | none => model.moeBackend = some .cpu
        | some cpuLayers => model.names layerId cpuLayers

/-- The `_is_cpu_layer` of the checkpoint's blocks. -/
def MoeCheckpoint.isCpuLayer : MoeCheckpoint → ModelConfig → Nat → Option CpuModel → Bool
  | .qwen3Moe => Qwen3MoE.isCpuLayer
  | .ggufQwen3Moe => Qwen3MoE.isCpuLayer
  | .qwen35Moe => Qwen35MoE.isCpuLayer
  | .ggufQwen35Moe => Qwen35MoE.isCpuLayer

end FreeToken
