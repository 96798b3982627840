import FreeToken.Models.ExpertSourcesSpec

/-!
# Where the loader looks for a layer's banks

`models/loader.py`: the banks are counted by the layers that have experts, both where they are
placed in the model and where the forward of a layer asks the cache for them.
-/

namespace FreeToken.Experts

variable {β γ : Type}

/-- `_place_expert_weights` and its siblings: each layer of `_moe_layers`, with the banks it takes. -/
def placedBanks (config : MoeConfig) (gateUp : List β) (down : List γ) :
    Option (List (Nat × β × γ)) :=
  config.moeLayers.zipIdx.mapM fun entry =>
    (gateUp[entry.2]?).bind fun gu => (down[entry.2]?).map fun dn => (entry.1, gu, dn)

/-- `model.moe_layer_id`. -/
def moeLayerId (config : MoeConfig) : List Nat :=
  config.moeLayers.zipIdx.foldl (fun ids entry => ids.set entry.1 entry.2)
    (List.replicate config.numLayers 0)

/-- `sources[name][model.moe_layer_id[layer_id]]`. -/
def forwardBank (config : MoeConfig) (banks : List β) (layer : Nat) : Option β :=
  ((moeLayerId config)[layer]?).bind fun i => banks[i]?

theorem moeLayers_eq (config : MoeConfig) :
    config.moeLayers = (List.range (config.numLayers - config.firstKDenseReplace)).map
      (config.firstKDenseReplace + ·) := by
  rw [MoeConfig.moeLayers, ← List.range'_eq_map_range]
  rw [List.range_eq_range', List.drop_range']
  simp

theorem length_moeLayers (config : MoeConfig) :
    config.moeLayers.length = config.numLayers - config.firstKDenseReplace := by
  rw [moeLayers_eq, List.length_map, List.length_range]

theorem getElem?_moeLayers {config : MoeConfig} {j : Nat}
    (h : j < config.numLayers - config.firstKDenseReplace) :
    config.moeLayers[j]? = some (config.firstKDenseReplace + j) := by
  rw [moeLayers_eq, List.getElem?_map, List.getElem?_range h, Option.map_some]

theorem getElem?_foldl_set_of_notMem {layers : List Nat} {layer : Nat} (h : layer ∉ layers)
    (start : Nat) (ids : List Nat) :
    ((layers.zipIdx start).foldl (fun ids entry => ids.set entry.1 entry.2) ids)[layer]? =
      ids[layer]? := by
  induction layers generalizing start ids with
  | nil => rfl
  | cons l layers ih =>
      have hne : l ≠ layer := fun heq => h (heq ▸ List.mem_cons_self)
      rw [List.zipIdx_cons, List.foldl_cons, ih fun hmem => h (List.mem_cons_of_mem l hmem)]
      exact List.getElem?_set_ne hne

/-- Each of different places is set to its index. -/
theorem getElem?_foldl_set {layers : List Nat} (hnodup : layers.Nodup) (start : Nat) {ids : List Nat}
    {i layer : Nat} (hlayer : layers[i]? = some layer) (hlt : layer < ids.length) :
    ((layers.zipIdx start).foldl (fun ids entry => ids.set entry.1 entry.2) ids)[layer]? =
      some (start + i) := by
  induction layers generalizing start ids i with
  | nil => simp at hlayer
  | cons l layers ih =>
      obtain ⟨hnew, hrest⟩ := List.nodup_cons.mp hnodup
      rw [List.zipIdx_cons, List.foldl_cons]
      cases i with
      | zero =>
          obtain rfl : l = layer := by simpa using hlayer
          rw [getElem?_foldl_set_of_notMem hnew]
          simp [hlt]
      | succ i =>
          rw [ih hrest (start + 1) (by simpa using hlayer) (by simpa using hlt)]
          congr 1
          omega

/-- The place of a layer's banks is that of the layer among those with experts. -/
theorem getElem?_moeLayerId {config : MoeConfig} {j : Nat}
    (h : j < config.numLayers - config.firstKDenseReplace) :
    (moeLayerId config)[config.firstKDenseReplace + j]? = some j := by
  have hnodup : config.moeLayers.Nodup := List.nodup_range.sublist (List.drop_sublist _ _)
  rw [moeLayerId, getElem?_foldl_set hnodup 0 (getElem?_moeLayers h)
    (by rw [List.length_replicate]; omega), Nat.zero_add]

/-! ### Banks in their places -/

section Places

variable {ε : Type} {config : MoeConfig} {Of : Nat → β → γ → Prop}
  {result : Except ε (List β × List γ)}

/-- A streamer's result is a bank pair for each layer with experts, the `j`-th for layer
`first_k_dense_replace + j`, and there the loader and the forward of each layer look for it. -/
def BanksInPlace (config : MoeConfig) (Of : Nat → β → γ → Prop)
    (result : Except ε (List β × List γ)) : Prop :=
  ∃ gateUp down, result = .ok (gateUp, down) ∧
    gateUp.length = config.numLayers - config.firstKDenseReplace ∧
    down.length = config.numLayers - config.firstKDenseReplace ∧
    (∀ j < config.numLayers - config.firstKDenseReplace, ∃ gu dn,
      gateUp[j]? = some gu ∧ down[j]? = some dn ∧ Of (config.firstKDenseReplace + j) gu dn) ∧
    (∃ placed, placedBanks config gateUp down = some placed ∧
      placed.map Prod.fst = config.moeLayers ∧ ∀ entry ∈ placed, Of entry.1 entry.2.1 entry.2.2) ∧
    ∀ layer ∈ config.moeLayers, ∃ gu dn, forwardBank config gateUp layer = some gu ∧
      forwardBank config down layer = some dn ∧ Of layer gu dn

theorem mapM_eq_some_of_forall₂ {σ τ : Type} {f : σ → Option τ} {l : List σ} {bs : List τ}
    (h : List.Forall₂ (fun a b => f a = some b) l bs) : l.mapM f = some bs := by
  induction h with
  | nil => rfl
  | cons hhead _ ih => simp [hhead, ih]

/-- The loader places a bank pair in each layer with experts. -/
theorem exists_placedBanks {gateUp : List β} {down : List γ}
    (hof : ∀ j < config.numLayers - config.firstKDenseReplace, ∃ gu dn,
      gateUp[j]? = some gu ∧ down[j]? = some dn ∧ Of (config.firstKDenseReplace + j) gu dn) :
    ∃ placed, placedBanks config gateUp down = some placed ∧
      placed.map Prod.fst = config.moeLayers ∧ ∀ entry ∈ placed, Of entry.1 entry.2.1 entry.2.2 := by
  have hentry : ∀ entry ∈ config.moeLayers.zipIdx, ∃ b : Nat × β × γ,
      ((gateUp[entry.2]?).bind fun gu => (down[entry.2]?).map fun dn => (entry.1, gu, dn)) = some b ∧
        b.1 = entry.1 ∧ Of b.1 b.2.1 b.2.2 := by
    rintro ⟨layer, i⟩ hmem
    have hat := List.mk_mem_zipIdx_iff_getElem?.mp hmem
    have hi : i < config.numLayers - config.firstKDenseReplace := by
      rw [← length_moeLayers]
      exact (List.getElem?_eq_some_iff.mp hat).1
    obtain rfl : config.firstKDenseReplace + i = layer :=
      Option.some.inj ((getElem?_moeLayers hi).symm.trans hat)
    obtain ⟨gu, dn, hgu, hdn, hbanks⟩ := hof i hi
    exact ⟨(_, gu, dn), by simp [hgu, hdn], rfl, hbanks⟩
  obtain ⟨placed, hplaced⟩ := exists_forall₂ hentry
  refine ⟨placed, mapM_eq_some_of_forall₂ (hplaced.imp fun _ _ h => h.1), ?_, ?_⟩
  · have hfst : config.moeLayers.zipIdx.map Prod.fst = placed.map Prod.fst := by
      rw [← List.forall₂_eq_eq_eq, List.forall₂_map_left_iff, List.forall₂_map_right_iff]
      exact hplaced.imp fun _ _ h => h.2.1.symm
    rw [← hfst, List.zipIdx_map_fst]
  · intro entry hmem
    obtain ⟨a, -, h⟩ := forall₂_exists_of_mem hplaced.flip hmem
    exact h.2.2

/-- Enough that the banks are there, in the order of the layers. -/
theorem banksInPlace_of_forall {gateUp : List β} {down : List γ} (hok : result = .ok (gateUp, down))
    (hgateUp : gateUp.length = config.numLayers - config.firstKDenseReplace)
    (hdown : down.length = config.numLayers - config.firstKDenseReplace)
    (hof : ∀ j < config.numLayers - config.firstKDenseReplace, ∃ gu dn,
      gateUp[j]? = some gu ∧ down[j]? = some dn ∧ Of (config.firstKDenseReplace + j) gu dn) :
    BanksInPlace config Of result := by
  refine ⟨gateUp, down, hok, hgateUp, hdown, hof, exists_placedBanks hof, ?_⟩
  intro layer hlayer
  obtain ⟨hle, hlt⟩ := mem_moeLayers.mp hlayer
  obtain ⟨j, rfl⟩ := Nat.exists_eq_add_of_le hle
  have hj : j < config.numLayers - config.firstKDenseReplace := by omega
  obtain ⟨gu, dn, hgu, hdn, hbanks⟩ := hof j hj
  refine ⟨gu, dn, ?_, ?_, hbanks⟩
  · rw [forwardBank, getElem?_moeLayerId hj, Option.bind_some, hgu]
  · rw [forwardBank, getElem?_moeLayerId hj, Option.bind_some, hdn]

end Places

end FreeToken.Experts
