import FreeToken.Models.GGUF.CompleteFiles
import FreeToken.Models.LoaderBanks
import FreeToken.Models.QuantExpertsSpec

/-!
# Leading dense layers

The first layers of a model may have no experts. The bf16 streamer leaves them out; the streamers of
the quantized formats and of GGUF ask for the banks of every layer, and raise an error where a model
begins with dense ones.
-/

namespace FreeToken.Experts

variable {α β σ : Type}

/-! ### Checkpoints of one format -/

/-- The routed experts of just the layers with experts, each tensor once, which make banks. -/
structure QuantCheckpoint [DecidableEq σ]
    (A : Assembly String (Nat × Bank) σ (Tensor α) ExpertError β) (config : MoeConfig)
    (Of : Nat × Bank → (σ → Option (Tensor α)) → β → Prop) (tensors : List (String × Tensor α)) :
    Prop where
  distinct : A.Distinct tensors
  routed : ∀ item ∈ tensors, ∀ group slot, A.At item.1 group slot → group.1 ∈ config.moeLayers
  covered : ∀ layer ∈ config.moeLayers, ∀ bank, A.Covered tensors (layer, bank)
  banks : ∀ layer ∈ config.moeLayers, ∀ bank, ∃ b,
    Of (layer, bank) (A.lookup tensors (layer, bank)) b

/-- The banks of a layer, from what the checkpoint has for it. -/
def LayerBanksOf [DecidableEq σ] (A : Assembly String (Nat × Bank) σ (Tensor α) ExpertError β)
    (Of : Nat × Bank → (σ → Option (Tensor α)) → β → Prop) (tensors : List (String × Tensor α))
    (layer : Nat) (gateUp down : β) : Prop :=
  Of (layer, .gateUp) (A.lookup tensors (layer, .gateUp)) gateUp ∧
    Of (layer, .down) (A.lookup tensors (layer, .down)) down

theorem moeLayers_of_zero {config : MoeConfig} (h : config.firstKDenseReplace = 0) :
    config.moeLayers = List.range config.numLayers := by
  rw [MoeConfig.moeLayers, h, List.drop_zero]

theorem zero_mem_moeLayers {config : MoeConfig} (h : 0 ∈ config.moeLayers) :
    config.firstKDenseReplace = 0 := Nat.le_zero.mp (mem_moeLayers.mp h).1

section Quant

variable [DecidableEq σ] {A : Assembly String (Nat × Bank) σ (Tensor α) ExpertError β}
  {config : MoeConfig} {Of : Nat × Bank → (σ → Option (Tensor α)) → β → Prop}
  {tensors : List (String × Tensor α)}

theorem QuantCheckpoint.complete (h : QuantCheckpoint A config Of tensors)
    (hzero : config.firstKDenseReplace = 0) : Complete A config tensors where
  distinct := h.distinct
  covered group hgroup := by
    refine h.covered group.1 ?_ group.2
    rw [moeLayers_of_zero hzero, List.mem_range]
    exact MoeConfig.mem_banks.mp hgroup

/-- A bank for each layer of the model: none for a layer without experts. -/
theorem QuantCheckpoint.banksInPlace_iff (h : QuantCheckpoint A config Of tensors)
    (hA : Builds A config Of) (hdense : config.firstKDenseReplace < config.numLayers) :
    BanksInPlace config (LayerBanksOf A Of tensors) (streamBanks A config tensors) ↔
      config.firstKDenseReplace = 0 := by
  constructor
  · rintro ⟨gateUp, down, hok, -⟩
    have hcomplete := ((streamBanks_eq_ok hA).mp hok).1
    have hcovered := hcomplete.covered (0, .gateUp) (MoeConfig.mem_banks.mpr (Nat.zero_lt_of_lt hdense))
    obtain ⟨slot, hslot⟩ := List.exists_mem_of_ne_nil _ (A.required_ne_nil (0, .gateUp))
    obtain ⟨item, hmem, hat⟩ := Assembly.lookup_isSome.mp (hcovered slot hslot)
    exact zero_mem_moeLayers (h.routed item hmem (0, .gateUp) slot hat)
  · intro hzero
    have hall : ∀ group ∈ config.banks, ∃ b, Of group (A.lookup tensors group) b := fun group hgroup =>
      h.banks group.1 (by
        rw [moeLayers_of_zero hzero, List.mem_range]
        exact MoeConfig.mem_banks.mp hgroup) group.2
    obtain ⟨⟨gateUp, down⟩, hok⟩ := (exists_streamBanks hA (h.complete hzero)).mpr hall
    obtain ⟨hgateUp, hdown⟩ := hA.orderFree.banks hok
    obtain ⟨hlenUp, hatUp⟩ := forall₂_range.mp hgateUp
    obtain ⟨hlenDown, hatDown⟩ := forall₂_range.mp hdown
    refine banksInPlace_of_forall hok (by rw [hlenUp, hzero]; rfl) (by rw [hlenDown, hzero]; rfl) ?_
    intro j hj
    rw [hzero, Nat.sub_zero] at hj
    have hgu := List.getElem?_eq_getElem (hlenUp.symm ▸ hj : j < gateUp.length)
    have hdn := List.getElem?_eq_getElem (hlenDown.symm ▸ hj : j < down.length)
    rw [hzero, Nat.zero_add]
    exact ⟨_, _, hgu, hdn, hatUp j _ hgu, hatDown j _ hdn⟩

end Quant

/-! ### The other formats -/

/-- The bf16 streamer leaves the dense layers out. What it needs is one form for all banks. -/
theorem Checkpoint.banksInPlace_iff {config : MoeConfig} {W : ExpertWeights α}
    {packed : Nat → Bank → Prop} {tensors : List (String × Tensor α)}
    (h : Checkpoint config W packed tensors) (cast : α → β) :
    BanksInPlace config
        (fun layer gateUp down => (W.cast cast).BankOf config.numExperts layer .gateUp gateUp ∧
          (W.cast cast).BankOf config.numExperts layer .down down)
        (streamMoeExpertSources config cast tensors) ↔ Uniform config packed := by
  constructor
  · rintro ⟨gateUp, down, hok, -⟩
    exact (h.cast cast).uniform_of_assembled hok
  · intro huniform
    obtain ⟨gateUp, down, hok, hgateUp, hdown⟩ := (h.cast cast).assembled_of_uniform huniform
    obtain ⟨hlenUp, hatUp⟩ := List.forall₂_iff_get.mp hgateUp
    obtain ⟨hlenDown, hatDown⟩ := List.forall₂_iff_get.mp hdown
    rw [length_moeLayers] at hlenUp hlenDown
    refine banksInPlace_of_forall hok hlenUp.symm hlenDown.symm fun j hj => ?_
    have hgu := List.getElem?_eq_getElem (hlenUp ▸ hj : j < gateUp.length)
    have hdn := List.getElem?_eq_getElem (hlenDown ▸ hj : j < down.length)
    have hj' : j < config.moeLayers.length := by rw [length_moeLayers]; exact hj
    have hlayer : config.moeLayers.get ⟨j, hj'⟩ = config.firstKDenseReplace + j := by
      have := getElem?_moeLayers hj
      rw [List.getElem?_eq_getElem hj'] at this
      exact Option.some.inj this
    refine ⟨_, _, hgu, hdn, ?_, ?_⟩
    · rw [← hlayer]
      exact hatUp j hj' (hlenUp ▸ hj)
    · rw [← hlayer]
      exact hatDown j hj' (hlenDown ▸ hj)

/-- The streamer of a GGUF file reads a tensor of each layer of the model. -/
theorem ggufBanksInPlace_iff {sizes : GGUF.QuantSizes} {file : List UInt8} {gguf : GGUF.GGUFFile}
    {config : MoeConfig} (h : GGUF.CompleteFile sizes file gguf config config.moeLayers)
    (hdense : config.firstKDenseReplace < config.numLayers) :
    BanksInPlace config (GGUF.LayerStreamed sizes file gguf config.numExperts)
        (GGUF.streamMoeExpertSourcesGgufKquant sizes file gguf config) ↔
      config.firstKDenseReplace = 0 := by
  constructor
  · rintro ⟨gateUp, down, hok, -⟩
    obtain ⟨gu, dn, -, -, hlayer⟩ := (GGUF.stream_banks hok).2.2 0 (Nat.zero_lt_of_lt hdense)
    obtain ⟨info, before, hstreamed⟩ := hlayer.gate
    exact zero_mem_moeLayers ((h.tensors 0 .gate).mp ⟨info, hstreamed.tensor⟩)
  · intro hzero
    rw [moeLayers_of_zero hzero] at h
    obtain ⟨⟨gateUp, down⟩, hok⟩ := h.exists_stream
    obtain ⟨hgateUp, hdown, hbanks⟩ := GGUF.stream_banks hok
    refine banksInPlace_of_forall hok (by rw [hgateUp, hzero]; rfl) (by rw [hdown, hzero]; rfl) ?_
    intro j hj
    rw [hzero, Nat.sub_zero] at hj
    rw [hzero, Nat.zero_add]
    exact hbanks j hj

/-! ### Any format -/

/-- A complete checkpoint in one of the six formats, its experts in just the layers that have them. -/
inductive Release (α β : Type) [DecidableEq α] (config : MoeConfig) where
  | bf16 (W : ExpertWeights α) (cast : α → β) (packed : Nat → Bank → Prop)
      (tensors : List (String × Tensor α)) (complete : Checkpoint config W packed tensors)
  | gptq (tensors : List (String × Tensor α))
      (complete : QuantCheckpoint (gptqFormat.assembly config) config
        (fun group slots => GptqBankOf config.numExperts group.2 slots) tensors)
  | fp8 (block : Nat) (tensors : List (String × Tensor α))
      (complete : QuantCheckpoint ((fp8Format block).assembly config) config
        (fun group slots => Fp8BankOf block config.numExperts group.2 slots) tensors)
  | mxfp4 (tensors : List (String × Tensor α))
      (complete : QuantCheckpoint (mxfp4Assembly config) config
        (fun _ slots => Mxfp4BankOf config.numExperts slots) tensors)
  | int8 (item : α → Int) (tensors : List (String × Tensor α))
      (complete : QuantCheckpoint ((int8Format item).assembly config) config
        (fun group slots => Int8BankOf item config.numExperts group.2 slots) tensors)
  | gguf (sizes : GGUF.QuantSizes) (file : List UInt8) (gguf : GGUF.GGUFFile)
      (complete : GGUF.CompleteFile sizes file gguf config config.moeLayers)

namespace Release

variable [DecidableEq α] {config : MoeConfig}

/-- The streamer of the format gives the banks of just the layers with experts, each where the
loader and the forward look for it. -/
def Streams : Release α β config → Prop
  | bf16 W cast _ tensors _ =>
      BanksInPlace config
        (fun layer gateUp down => (W.cast cast).BankOf config.numExperts layer .gateUp gateUp ∧
          (W.cast cast).BankOf config.numExperts layer .down down)
        (streamMoeExpertSources config cast tensors)
  | gptq tensors _ =>
      BanksInPlace config
        (LayerBanksOf (gptqFormat.assembly config)
          (fun group slots => GptqBankOf config.numExperts group.2 slots) tensors)
        (streamMoeExpertSourcesGptq config tensors)
  | fp8 block tensors _ =>
      BanksInPlace config
        (LayerBanksOf ((fp8Format block).assembly config)
          (fun group slots => Fp8BankOf block config.numExperts group.2 slots) tensors)
        (streamMoeExpertSourcesFp8 block config tensors)
  | mxfp4 tensors _ =>
      BanksInPlace config
        (LayerBanksOf (mxfp4Assembly config)
          (fun _ slots => Mxfp4BankOf config.numExperts slots) tensors)
        (streamMoeExpertSourcesMxfp4 config tensors)
  | int8 item tensors _ =>
      BanksInPlace config
        (LayerBanksOf ((int8Format item).assembly config)
          (fun group slots => Int8BankOf item config.numExperts group.2 slots) tensors)
        (streamMoeExpertSourcesInt8 item config tensors)
  | gguf sizes file header _ =>
      BanksInPlace config (GGUF.LayerStreamed sizes file header config.numExperts)
        (GGUF.streamMoeExpertSourcesGgufKquant sizes file header config)

/-- A bf16 checkpoint ships all banks in one form; in the other formats every layer has experts. -/
def Served : Release α β config → Prop
  | bf16 _ _ packed _ _ => Uniform config packed
  | gptq _ _ => config.firstKDenseReplace = 0
  | fp8 _ _ _ => config.firstKDenseReplace = 0
  | mxfp4 _ _ => config.firstKDenseReplace = 0
  | int8 _ _ _ => config.firstKDenseReplace = 0
  | gguf _ _ _ _ => config.firstKDenseReplace = 0

/-- Dense layers before those with experts are left out by the bf16 streamer only. -/
theorem streams_iff (hdense : config.firstKDenseReplace < config.numLayers)
    (release : Release α β config) : release.Streams ↔ release.Served := by
  have hpos := config.numExperts_pos
  cases release with
  | bf16 W cast packed tensors h => exact h.banksInPlace_iff cast
  | gptq tensors h =>
      exact h.banksInPlace_iff (ExpertFormat.builds finalizeGptqBank_sound
        fun h => finalizeGptqBank_complete h hpos) hdense
  | fp8 block tensors h =>
      exact h.banksInPlace_iff (ExpertFormat.builds finalizeFp8Bank_sound
        fun h => finalizeFp8Bank_complete h hpos) hdense
  | mxfp4 tensors h => exact h.banksInPlace_iff mxfp4_builds hdense
  | int8 item tensors h =>
      exact h.banksInPlace_iff (ExpertFormat.builds (finalizeInt8Bank_sound hpos)
        fun h => finalizeInt8Bank_complete h hpos) hdense
  | gguf sizes file header h => exact ggufBanksInPlace_iff h hdense

/-- The experts of a layer behind a dense one. -/
theorem rowTensors_streams :
    (bf16 numberedWeights id (fun _ _ => False) rowTensors rowTensors_checkpoint :
      Release Int Int twoExperts).Streams :=
  (streams_iff (by decide) _).mpr fun _ _ _ _ _ _ => Iff.rfl

end Release

/-! ### A dense layer before a layer of experts -/

/-- Two layers, of which the first is dense. -/
def denseFirst : MoeConfig := ⟨2, 1, 1, Nat.one_pos⟩

/-- The experts of the second layer. -/
def secondLayer : List (String × Tensor Int) :=
  [("model.layers.1.mlp.experts.gate_up_proj_blocks", zeros [1, 2, 1, 1]),
    ("model.layers.1.mlp.experts.gate_up_proj_scales", zeros [1, 2, 1]),
    ("model.layers.1.mlp.experts.down_proj_blocks", zeros [1, 1, 1, 1]),
    ("model.layers.1.mlp.experts.down_proj_scales", zeros [1, 1, 1])]

/-- The places of the four tensors. -/
theorem secondLayer_places : List.Forall₂
    (fun item place => (mxfp4Assembly denseFirst (α := Int)).place item.1 = .ok place) secondLayer
    [((1, .gateUp), .blocks), ((1, .gateUp), .scales), ((1, .down), .blocks), ((1, .down), .scales)] := by
  refine .cons (toOption_eq_some.mp ?_) (.cons (toOption_eq_some.mp ?_)
    (.cons (toOption_eq_some.mp ?_) (.cons (toOption_eq_some.mp ?_) .nil))) <;> decide +kernel

theorem secondLayer_distinct : (mxfp4Assembly denseFirst).Distinct secondLayer := by
  decide +kernel

theorem secondLayer_lookup :
    (mxfp4Assembly denseFirst).lookup secondLayer (1, .gateUp) .blocks = some (zeros [1, 2, 1, 1]) ∧
    (mxfp4Assembly denseFirst).lookup secondLayer (1, .gateUp) .scales = some (zeros [1, 2, 1]) ∧
    (mxfp4Assembly denseFirst).lookup secondLayer (1, .down) .blocks = some (zeros [1, 1, 1, 1]) ∧
    (mxfp4Assembly denseFirst).lookup secondLayer (1, .down) .scales = some (zeros [1, 1, 1]) := by
  have hplaces := secondLayer_places
  simp only [secondLayer, List.forall₂_cons, List.forall₂_nil_left_iff] at hplaces
  obtain ⟨hblocks, hscales, hdownBlocks, hdownScales, -⟩ := hplaces
  refine ⟨?_, ?_, ?_, ?_⟩ <;> refine secondLayer_distinct.lookup_eq_some.mpr ?_
  · exact ⟨_, List.mem_cons_self, hblocks, rfl⟩
  · exact ⟨_, List.mem_cons_of_mem _ List.mem_cons_self, hscales, rfl⟩
  · exact ⟨_, List.mem_cons_of_mem _ (List.mem_cons_of_mem _ List.mem_cons_self), hdownBlocks, rfl⟩
  · exact ⟨_, List.mem_cons_of_mem _ (List.mem_cons_of_mem _ (List.mem_cons_of_mem _
      List.mem_cons_self)), hdownScales, rfl⟩

theorem secondLayer_complete : QuantCheckpoint (mxfp4Assembly denseFirst) denseFirst
    (fun _ slots => Mxfp4BankOf denseFirst.numExperts slots) secondLayer where
  distinct := secondLayer_distinct
  routed := by
    intro item hmem group slot hat
    obtain ⟨place, hplace, hitem⟩ := forall₂_exists_of_mem secondLayer_places hmem
    rw [Assembly.At, hitem] at hat
    obtain rfl := Except.ok.inj hat
    have hall : ∀ place ∈ [((1, Bank.gateUp), Mxfp4Component.blocks), ((1, .gateUp), .scales),
        ((1, .down), .blocks), ((1, .down), .scales)], place.1.1 ∈ denseFirst.moeLayers := by decide
    exact hall _ hplace
  covered := by
    intro layer hlayer bank
    obtain rfl : layer = 1 := List.mem_singleton.mp hlayer
    cases bank <;> decide +kernel
  banks := by
    intro layer hlayer bank
    obtain rfl : layer = 1 := List.mem_singleton.mp hlayer
    obtain ⟨hblocks, hscales, hdownBlocks, hdownScales⟩ := secondLayer_lookup
    cases bank with
    | gateUp => exact ⟨⟨_, _⟩, hblocks, hscales, rfl, rfl⟩
    | down => exact ⟨⟨_, _⟩, hdownBlocks, hdownScales, rfl, rfl⟩

/-- The first layer has no tensors, and the streamer refuses the checkpoint for that. -/
theorem secondLayer_refused : denseFirst.firstKDenseReplace < denseFirst.numLayers ∧
    ¬ (Release.mxfp4 secondLayer secondLayer_complete : Release Int Int denseFirst).Streams := by
  refine ⟨by decide, ?_⟩
  rintro ⟨gateUp, down, hok, -⟩
  have hnone : (streamMoeExpertSourcesMxfp4 denseFirst secondLayer).toOption.isSome = false := by
    decide +kernel
  rw [hok] at hnone
  cases hnone

end FreeToken.Experts
