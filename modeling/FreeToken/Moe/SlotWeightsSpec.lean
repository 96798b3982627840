import FreeToken.Models.QuantExpertsSpec
import FreeToken.Moe.ExpertRuns
import FreeToken.Moe.SlotWeights
import Mathlib.Algebra.Field.Rat

/-!
# The weights of a slot are those of its expert

Dequantizing commutes with the fusion of gate and up, so the rows that the accessor cuts out of a
slot are what the tensors of the slot's expert dequantize to by themselves.
-/

namespace FreeToken.Experts

variable {α β σ φ ρ : Type}

/-! ### What a slot holds -/

/-- The banks that a stream returns for a layer. -/
theorem exists_bank_of_stream [DecidableEq σ]
    {A : Assembly String (Nat × Bank) σ (Tensor α) ExpertError β} {config : MoeConfig}
    {Of : Nat × Bank → (σ → Option (Tensor α)) → β → Prop} (hA : Builds A config Of)
    {tensors : List (String × Tensor α)} {gateUp down : List β}
    (h : streamBanks A config tensors = .ok (gateUp, down)) {layer : Nat}
    (hlayer : layer < config.numLayers) : ∃ gu dn, gateUp[layer]? = some gu ∧ down[layer]? = some dn ∧
      Of (layer, .gateUp) (A.lookup tensors (layer, .gateUp)) gu ∧
      Of (layer, .down) (A.lookup tensors (layer, .down)) dn := by
  obtain ⟨-, hgateUp, hdown⟩ := (streamBanks_eq_ok hA).mp h
  obtain ⟨hguLen, hguFinish⟩ := forall₂_range.mp hgateUp
  obtain ⟨hdnLen, hdnFinish⟩ := forall₂_range.mp hdown
  have hgu := List.getElem?_eq_getElem (hguLen.symm ▸ hlayer)
  have hdn := List.getElem?_eq_getElem (hdnLen.symm ▸ hlayer)
  exact ⟨_, _, hgu, hdn, hA.sound (hguFinish layer _ hgu), hA.sound (hdnFinish layer _ hdn)⟩

theorem streamBanks_length [DecidableEq σ]
    {A : Assembly String (Nat × Bank) σ (Tensor α) ExpertError β} {config : MoeConfig}
    {tensors : List (String × Tensor α)} {gateUp down : List β}
    (h : streamBanks A config tensors = .ok (gateUp, down)) :
    gateUp.length = config.numLayers ∧ down.length = config.numLayers := by
  obtain ⟨st, -, h⟩ := bind_eq_ok.mp h
  rw [returnBanks] at h
  split at h
  · cases h
  · obtain ⟨gateUp', hgateUp, h⟩ := bind_eq_ok.mp h
    obtain ⟨down', hdown, h⟩ := bind_eq_ok.mp h
    cases h
    exact ⟨(forall₂_range.mp (mapM_eq_ok.mp hgateUp)).1, (forall₂_range.mp (mapM_eq_ok.mp hdown)).1⟩

/-- The rows of a bank have one shape in all layers. -/
def SameShapes (part : β → Tensor α) (banks : List β) : Prop :=
  ∀ b ∈ banks, ∀ b' ∈ banks, (part b).shape = (part b').shape

section Slots

variable [Zero (Tensor α)] {config : MoeConfig} {sources : List (String × (Nat → Nat → Tensor α))}
  {c : OffloadMoeCache (Tensor α)} {s layer e : Nat}

/-- After some calls, slot `s` of the cache that serves the sources has expert `e` of the layer. -/
def HoldsExpert (config : MoeConfig) (sources : List (String × (Nat → Nat → Tensor α)))
    (c : OffloadMoeCache (Tensor α)) (s layer e : Nat) : Prop :=
  e < config.numExperts ∧ c.idOfSlot s = some (c.flatId layer e) ∧ ∃ cacheSize c0 calls,
    OffloadMoeCache.new config.numLayers config.numExperts cacheSize sources = .ok c0 ∧
      Run.exec OffloadMoeCache.next c0 calls = some c

theorem HoldsExpert.layer_lt (h : HoldsExpert config sources c s layer e) :
    layer < config.numLayers := by
  obtain ⟨he, hs, cacheSize, c0, calls, hnew, hrun⟩ := h
  obtain ⟨hc, hlayers, hexperts, -⟩ := OffloadMoeCache.run_coherent hnew hrun
  have hlt := hc.id_lt s _ hs
  rw [← hexperts] at he
  rw [← hlayers]
  by_contra hge
  have hle := Nat.mul_le_mul_right c.numExperts (Nat.not_lt.mp hge)
  exact absurd (Nat.lt_of_le_of_lt (Nat.le_add_right_of_le hle) hlt) (Nat.lt_irrefl _)

/-- Every expert gets a slot. -/
theorem exists_holdsExpert (hsources : sources ≠ []) (hlayer : layer < config.numLayers)
    (he : e < config.numExperts) : ∃ c s, HoldsExpert config sources c s layer e := by
  have hsize : ¬ max config.numExperts 2 < config.numExperts := Nat.not_lt.mpr (Nat.le_max_left _ _)
  obtain ⟨c0, hnew, hcache⟩ : ∃ c0, OffloadMoeCache.new config.numLayers config.numExperts
      (max config.numExperts 2) sources = .ok c0 ∧ c0.cacheSize = max config.numExperts 2 :=
    ⟨_, dif_neg hsize, rfl⟩
  have hc0 := OffloadMoeCache.new_coherent hnew
  have hfits := OffloadMoeCache.new_fits hnew
  have hasked : c0.asked (.materialize layer) = some (layer, List.range c0.numExperts) := rfl
  have hbanks : c0.banks ≠ [] := by
    intro hnil
    apply hsources
    rw [← hfits.sources_eq, OffloadMoeCache.sources, hnil, List.map_nil]
  obtain ⟨c, hnext⟩ := OffloadMoeCache.next_isSome hc0 (List.length_pos_iff.mpr hbanks).ne'
    (hcache ▸ Nat.le_max_right _ _) hasked (hfits.numLayers_eq ▸ hlayer)
    fun i hi => List.mem_range.mp hi
  have hrun : Run.exec OffloadMoeCache.next c0 [.materialize layer] = some c := by
    rw [Run.exec, hnext]
    rfl
  obtain ⟨hc, hcfits⟩ := OffloadMoeCache.run_coherent hnew hrun
  obtain ⟨s, hs⟩ := OffloadMoeCache.resident_of_next hc0 hasked hnext e
    (List.mem_range.mpr (hfits.numExperts_eq ▸ he))
  refine ⟨c, s, he, ?_, _, c0, _, hnew, hrun⟩
  rw [← hc.inverse, OffloadMoeCache.flatId, hcfits.numExperts_eq, ← hfits.numExperts_eq]
  exact hs

theorem HoldsExpert.slotRow (h : HoldsExpert config sources c s layer e) {name name' : String}
    {host : Nat → Nat → Tensor α}
    (hsource : (sources.find? fun source => source.1 = name) = some (name', host))
    {a : SlotWeightAccessor α} (ha : a.banks = c.banks) : a.slotRow name s = .ok (host layer e) := by
  obtain ⟨he, hs, cacheSize, c0, calls, hnew, hrun⟩ := h
  obtain ⟨hc, -, hexperts, hsources⟩ := OffloadMoeCache.run_coherent hnew hrun
  rw [← hsources, OffloadMoeCache.sources, List.find?_map, Option.map_eq_some_iff] at hsource
  obtain ⟨b, hb, hhost⟩ := hsource
  cases hhost
  have hcache : b.cache s = b.host layer e := by
    rw [← hexperts] at he
    rw [hc.rows b (List.mem_of_find?_eq_some hb) s _ hs, OffloadMoeCache.flatId_div he,
      OffloadMoeCache.flatId_mod he]
  have hbank : (a.banks.find? fun b => b.name = name) = some b := ha ▸ hb
  rw [SlotWeightAccessor.slotRow, hbank, ← hcache]

theorem pooledRow_same {part : β → Tensor α} {banks : List β} {bank : β}
    (hbank : banks[layer]? = some bank) (hshapes : SameShapes part banks) (e : Nat) :
    ((part bank).select e).Same (pooledRow (banks.map part) layer e) := by
  obtain ⟨first, rest, rfl⟩ : ∃ first rest, banks = first :: rest := by
    cases banks with
    | nil => cases hbank
    | cons first rest => exact ⟨first, rest, rfl⟩
  have hshape : (part first).shape.tail = ((part bank).select e).shape :=
    congrArg List.tail (hshapes first List.mem_cons_self bank (List.mem_of_getElem? hbank))
  obtain ⟨row, hrow, hsame⟩ := ((part bank).select e).broadcastTo_shape
  rw [pooledRow, List.getElem?_map, hbank, List.map_cons, List.head?_cons, Option.map_some]
  simp only [hshape, hrow, Option.getD_some]
  exact hsame

/-- The slot has the expert's row of a bank. -/
theorem HoldsExpert.exists_row (h : HoldsExpert config sources c s layer e) {name name' : String}
    {part : β → Tensor α} {banks : List β} {bank : β}
    (hsource : (sources.find? fun source => source.1 = name) =
      some (name', pooledRow (banks.map part)))
    (hbank : banks[layer]? = some bank) (hshapes : SameShapes part banks)
    {a : SlotWeightAccessor α} (ha : a.banks = c.banks) :
    ∃ row, a.slotRow name s = .ok row ∧ ((part bank).select e).Same row :=
  ⟨_, h.slotRow hsource ha, pooledRow_same hbank hshapes e⟩

end Slots

/-- The row of a fused bank, for the tensors that were fused. -/
theorem FusedRow.joins {κ : Type} {slots : ExpertSlot κ → Option (Tensor α)} {d e : Nat} {comp : κ}
    {row gate up : Tensor α} (h : FusedRow slots d .gateUp comp e row)
    (hgate : slots ⟨e, .gateProj, comp⟩ = some gate) (hup : slots ⟨e, .upProj, comp⟩ = some up) :
    Tensor.Joins d gate up row := by
  obtain ⟨gate', up', hgate', hup', hjoins⟩ := h
  cases Option.some.inj (hgate.symm.trans hgate')
  cases Option.some.inj (hup.symm.trans hup')
  exact hjoins

theorem FusedRow.same_down {κ : Type} {slots : ExpertSlot κ → Option (Tensor α)} {d e : Nat} {comp : κ}
    {row down : Tensor α} (h : FusedRow slots d .down comp e row)
    (hdown : slots ⟨e, .downProj, comp⟩ = some down) : down.Same row := by
  obtain ⟨down', hdown', hsame⟩ := h
  cases Option.some.inj (hdown.symm.trans hdown')
  exact hsame

/-! ### What the accessor extracts -/

/-- The accessor returns the three matrices. -/
def Extracts (got : Except DequantError (Tensor ρ × Tensor ρ × Tensor ρ)) (gate up down : Tensor ρ) :
    Prop :=
  ∃ gate' up' down', got = .ok (gate', up', down') ∧ gate'.Same gate ∧ up'.Same up ∧ down'.Same down

/-- Cutting the joint of gate and up gives both, where the gate has `intermediate` rows and the up no
more. -/
theorem extracts_split {a : SlotWeightAccessor α} {gate up down w d : Tensor ρ} {m m' n n' : Nat}
    (hw : Tensor.Joins 0 gate up w) (hgate : gate.shape = [m, n]) (hup : up.shape = [m', n'])
    (hi : a.intermediate = m) (hle : m' ≤ m) (hd : d.Same down) :
    Extracts (.ok (a.split w d)) gate up down := by
  refine ⟨_, _, _, rfl, ?_, ?_, hd⟩
  · rw [hi]
    exact hw.rows_left hgate hup
  · rw [hi, Nat.two_mul]
    exact hw.rows_right hgate hup (Nat.add_le_add_left hle m)

section Formats

variable {E : Elements α φ ρ} {config : MoeConfig} {tensors : List (String × Tensor α)}
  {c : OffloadMoeCache (Tensor α)} {s layer e : Nat} {gate up down : Tensor ρ}

/-! ### GPTQ -/

section Gptq

variable [DecidableEq α] {gateUps downs : List (GptqExpertBank α)}

theorem ownGptq_eq_ok {p : Proj} {w : Tensor ρ} :
    ownGptq E config tensors layer e p = .ok w ↔ ∃ qweight qzeros scales gIdx v,
      (gptqFormat.assembly config).lookup tensors (layer, p.bank) ⟨e, p, .qweight⟩ = some qweight ∧
      (gptqFormat.assembly config).lookup tensors (layer, p.bank) ⟨e, p, .qzeros⟩ = some qzeros ∧
      (gptqFormat.assembly config).lookup tensors (layer, p.bank) ⟨e, p, .scales⟩ = some scales ∧
      (gptqFormat.assembly config).lookup tensors (layer, p.bank) ⟨e, p, .gIdx⟩ = some gIdx ∧
      dequantizeGptqInt4 E qweight qzeros scales (gIdx.map E.item) = .ok v ∧ v.transpose = w := by
  rw [ownGptq]
  constructor
  · intro h
    split at h
    · next qweight qzeros scales gIdx hqweight hqzeros hscales hgIdx =>
        obtain ⟨v, hv, hw⟩ := map_eq_ok.mp h
        exact ⟨qweight, qzeros, scales, gIdx, v, hqweight, hqzeros, hscales, hgIdx, hv, hw⟩
    · cases h
  · rintro ⟨qweight, qzeros, scales, gIdx, v, hqweight, hqzeros, hscales, hgIdx, hv, hw⟩
    simp only [hqweight, hqzeros, hscales, hgIdx]
    exact map_eq_ok.mpr ⟨v, hv, hw⟩

/-- The group index of each projection is that of `desc_act=False`. -/
def SequentialGroupIndex (E : Elements α φ ρ) (config : MoeConfig) (tensors : List (String × Tensor α))
    (layer e : Nat) (groupSize : Int) : Prop :=
  groupSize ≠ 0 ∧ ∀ p gIdx,
    (gptqFormat.assembly config).lookup tensors (layer, p.bank) ⟨e, p, .gIdx⟩ = some gIdx →
      (gIdx.map E.item).Same (sequentialGroups (gIdx.size 0) groupSize)

/-- With such a group index the accessor does with an expert's tensors what they ask for. -/
theorem exists_sequential {p : Proj} {w : Tensor ρ} {groupSize : Int}
    (hseq : SequentialGroupIndex E config tensors layer e groupSize)
    (h : ownGptq E config tensors layer e p = .ok w) : ∃ qweight qzeros scales v,
      (gptqFormat.assembly config).lookup tensors (layer, p.bank) ⟨e, p, .qweight⟩ = some qweight ∧
      (gptqFormat.assembly config).lookup tensors (layer, p.bank) ⟨e, p, .qzeros⟩ = some qzeros ∧
      (gptqFormat.assembly config).lookup tensors (layer, p.bank) ⟨e, p, .scales⟩ = some scales ∧
      dequantizeGptqInt4 E qweight qzeros scales (sequentialGroups (qweight.size 0 * 8) groupSize) =
        .ok v ∧ v.transpose.Same w := by
  obtain ⟨qweight, qzeros, scales, gIdx, v, hqweight, hqzeros, hscales, hgIdx, hv, rfl⟩ :=
    ownGptq_eq_ok.mp h
  obtain ⟨v', hv', hsame⟩ := dequantizeGptqInt4_congr (.refl qweight) (.refl qzeros) (.refl scales)
    (hseq.2 p gIdx hgIdx) hv
  obtain ⟨kPacked, nPacked, zeroGroups, groups, hshapes, rfl⟩ := dequantizeGptqInt4_eq_ok.mp hv
  have hk : gIdx.size 0 = qweight.size 0 * 8 := by
    have hgIdxShape : gIdx.shape = [kPacked * 8] := hshapes.gIdx_shape
    rw [Tensor.size, Tensor.size, hgIdxShape, hshapes.qweight_shape]
    rfl
  rw [hk] at hv'
  exact ⟨qweight, qzeros, scales, v', hqweight, hqzeros, hscales, hv', (hsame.transpose rfl).symm⟩

/-- The fused row of an expert dequantizes to the joint of what its gate and its up give. -/
theorem exists_gateUp {b : GptqExpertBank α} (hb : GptqBankOf config.numExperts .gateUp
      ((gptqFormat.assembly config).lookup tensors (layer, .gateUp)) b) (he : e < config.numExperts)
    {groupSize : Int} (hseq : SequentialGroupIndex E config tensors layer e groupSize)
    (hgate : ownGptq E config tensors layer e .gateProj = .ok gate)
    (hup : ownGptq E config tensors layer e .upProj = .ok up) {qweight qzeros scales : Tensor α}
    (hqweight : (b.qweight.select e).Same qweight) (hqzeros : (b.qzeros.select e).Same qzeros)
    (hscales : (b.scales.select e).Same scales) :
    ∃ w, dequantizeGptqInt4SequentialGroups E qweight qzeros scales groupSize = .ok w ∧
      Tensor.Joins 0 gate up w.transpose := by
  obtain ⟨gqw, gqz, gsc, g, hgqw, hgqz, hgsc, hg, hgate⟩ := exists_sequential hseq hgate
  obtain ⟨uqw, uqz, usc, u, huqw, huqz, husc, hu, hup⟩ := exists_sequential hseq hup
  have hqweight := ((hb.qweight.2 e he).same hqweight).joins hgqw huqw
  have hqzeros := ((hb.qzeros.2 e he).same hqzeros).joins hgqz huqz
  have hscales := ((hb.scales.2 e he).same hscales).joins hgsc husc
  obtain ⟨k, n, _, _, hgs, -⟩ := dequantizeGptqInt4_eq_ok.mp hg
  obtain ⟨k', n', _, _, hus, -⟩ := dequantizeGptqInt4_eq_ok.mp hu
  obtain ⟨rfl, hshape, -, -⟩ :=
    (Tensor.joins_columns_iff hgs.qweight_shape hus.qweight_shape).mp hqweight
  have hsize : uqw.size 0 = gqw.size 0 ∧ qweight.size 0 = gqw.size 0 := by
    rw [Tensor.size, Tensor.size, Tensor.size, hgs.qweight_shape, hus.qweight_shape, hshape]
    exact ⟨rfl, rfl⟩
  rw [hsize.1] at hu
  obtain ⟨w, hw, hjoins⟩ := dequantizeGptqInt4_joins hqweight hqzeros hscales hg hu
  refine ⟨w, ?_, ?_⟩
  · rw [dequantizeGptqInt4SequentialGroups, if_neg hseq.1, hsize.2, hw]
  · exact (hjoins.transpose (dequantizeGptqInt4_shape hg) (dequantizeGptqInt4_shape hu)).congr hgate hup

theorem exists_down {b : GptqExpertBank α} (hb : GptqBankOf config.numExperts .down
      ((gptqFormat.assembly config).lookup tensors (layer, .down)) b) (he : e < config.numExperts)
    {groupSize : Int} (hseq : SequentialGroupIndex E config tensors layer e groupSize)
    (hdown : ownGptq E config tensors layer e .downProj = .ok down) {qweight qzeros scales : Tensor α}
    (hqweight : (b.qweight.select e).Same qweight) (hqzeros : (b.qzeros.select e).Same qzeros)
    (hscales : (b.scales.select e).Same scales) :
    ∃ w, dequantizeGptqInt4SequentialGroups E qweight qzeros scales groupSize = .ok w ∧
      w.transpose.Same down := by
  obtain ⟨dqw, dqz, dsc, d, hdqw, hdqz, hdsc, hd, hdown⟩ := exists_sequential hseq hdown
  have hqweight := ((hb.qweight.2 e he).same hqweight).same_down hdqw
  have hqzeros := ((hb.qzeros.2 e he).same hqzeros).same_down hdqz
  have hscales := ((hb.scales.2 e he).same hscales).same_down hdsc
  obtain ⟨w, hw, hsame⟩ := dequantizeGptqInt4_congr hqweight hqzeros hscales (.refl _) hd
  have hsize : dqw.size 0 = qweight.size 0 := by rw [Tensor.size, Tensor.size, hqweight.1]
  refine ⟨w, ?_, ?_⟩
  · rw [dequantizeGptqInt4SequentialGroups, if_neg hseq.1, ← hsize, hw]
  · exact (hsame.transpose (dequantizeGptqInt4_shape hd)).symm.trans hdown

theorem ownGptq_shape {p : Proj} {w : Tensor ρ} (h : ownGptq E config tensors layer e p = .ok w) :
    w.shape = [w.size 0, w.size 1] := by
  obtain ⟨_, _, _, _, v, -, -, -, -, hv, rfl⟩ := ownGptq_eq_ok.mp h
  have hshape := Tensor.transpose_shape (dequantizeGptqInt4_shape hv)
  rw [Tensor.size, Tensor.size, hshape]
  rfl

/-- The matrices of a slot are what `dequantize_gptq_int4` makes of the tensors of its expert. -/
theorem gptqSlot_extracts [Zero (Tensor α)]
    (hstream : streamMoeExpertSourcesGptq config tensors = .ok (gateUps, downs))
    (hslot : HoldsExpert config (gptqSources gateUps downs) c s layer e)
    (hgateUps : SameShapes (·.qweight) gateUps ∧ SameShapes (·.qzeros) gateUps ∧
      SameShapes (·.scales) gateUps)
    (hdowns : SameShapes (·.qweight) downs ∧ SameShapes (·.qzeros) downs ∧ SameShapes (·.scales) downs)
    {groupSize : Int} (hseq : SequentialGroupIndex E config tensors layer e groupSize)
    (hgate : ownGptq E config tensors layer e .gateProj = .ok gate)
    (hup : ownGptq E config tensors layer e .upProj = .ok up)
    (hdown : ownGptq E config tensors layer e .downProj = .ok down) (hrows : up.size 0 ≤ gate.size 0) :
    Extracts ((SlotWeightAccessor.mk c.banks (.gptqInt4 groupSize) (gate.size 0)).get E s)
      gate up down := by
  have hbuilds : Builds (gptqFormat.assembly config) config
      (fun group slots => GptqBankOf (α := α) config.numExperts group.2 slots) :=
    ExpertFormat.builds finalizeGptqBank_sound
      fun h => finalizeGptqBank_complete h config.numExperts_pos
  obtain ⟨gu, dn, hgu, hdn, hguOf, hdnOf⟩ := exists_bank_of_stream hbuilds hstream hslot.layer_lt
  generalize ha : SlotWeightAccessor.mk c.banks (.gptqInt4 groupSize) (gate.size 0) = a
  have hbanks : a.banks = c.banks := by rw [← ha]
  obtain ⟨qw, hqw, hqwSame⟩ : ∃ row, a.slotRow "qweight_gate_up" s = .ok row ∧
    (gu.qweight.select e).Same row := hslot.exists_row rfl hgu hgateUps.1 hbanks
  obtain ⟨qz, hqz, hqzSame⟩ : ∃ row, a.slotRow "qzeros_gate_up" s = .ok row ∧
    (gu.qzeros.select e).Same row := hslot.exists_row rfl hgu hgateUps.2.1 hbanks
  obtain ⟨sc, hsc, hscSame⟩ : ∃ row, a.slotRow "scales_gate_up" s = .ok row ∧
    (gu.scales.select e).Same row := hslot.exists_row rfl hgu hgateUps.2.2 hbanks
  obtain ⟨dqw, hdqw, hdqwSame⟩ : ∃ row, a.slotRow "qweight_down" s = .ok row ∧
    (dn.qweight.select e).Same row := hslot.exists_row rfl hdn hdowns.1 hbanks
  obtain ⟨dqz, hdqz, hdqzSame⟩ : ∃ row, a.slotRow "qzeros_down" s = .ok row ∧
    (dn.qzeros.select e).Same row := hslot.exists_row rfl hdn hdowns.2.1 hbanks
  obtain ⟨dsc, hdsc, hdscSame⟩ : ∃ row, a.slotRow "scales_down" s = .ok row ∧
    (dn.scales.select e).Same row := hslot.exists_row rfl hdn hdowns.2.2 hbanks
  obtain ⟨w, hw, hjoins⟩ := exists_gateUp hguOf hslot.1 hseq hgate hup hqwSame hqzSame hscSame
  obtain ⟨d, hd, hsame⟩ := exists_down hdnOf hslot.1 hseq hdown hdqwSame hdqzSame hdscSame
  have hget : a.get E s = .ok (a.split w.transpose d.transpose) := by
    rw [SlotWeightAccessor.get, show a.format = .gptqInt4 groupSize by rw [← ha]]
    simp only [hqw, hqz, hsc, hdqw, hdqz, hdsc, hw, hd, bind, Except.bind, pure, Except.pure]
  rw [hget]
  exact extracts_split hjoins (ownGptq_shape hgate) (ownGptq_shape hup) (by rw [← ha]) hrows hsame

end Gptq

/-! ### Block-FP8 -/

section Fp8

variable {block : Nat} {gateUps downs : List (Fp8BlockExpertBank α)}

theorem ownFp8_eq_ok {p : Proj} {w : Tensor ρ} :
    ownFp8 E config tensors layer e block p = .ok w ↔ ∃ weight weightScaleInv,
      ((fp8Format block).assembly config).lookup tensors (layer, p.bank) ⟨e, p, .weight⟩ = some weight ∧
      ((fp8Format block).assembly config).lookup tensors (layer, p.bank) ⟨e, p, .weightScaleInv⟩ =
        some weightScaleInv ∧
      dequantizeBlockFp8 E block weight weightScaleInv = .ok w := by
  rw [ownFp8]
  constructor
  · intro h
    split at h
    · next weight weightScaleInv hweight hscale => exact ⟨weight, weightScaleInv, hweight, hscale, h⟩
    · cases h
  · rintro ⟨weight, weightScaleInv, hweight, hscale, h⟩
    simp only [hweight, hscale]
    exact h

theorem fp8Slot_extracts [Zero (Tensor α)]
    (hstream : streamMoeExpertSourcesFp8 block config tensors = .ok (gateUps, downs))
    (hslot : HoldsExpert config (fp8Sources gateUps downs) c s layer e)
    (hgateUps : SameShapes (·.weight) gateUps ∧ SameShapes (·.weightScaleInv) gateUps)
    (hdowns : SameShapes (·.weight) downs ∧ SameShapes (·.weightScaleInv) downs)
    (hgate : ownFp8 E config tensors layer e block .gateProj = .ok gate)
    (hup : ownFp8 E config tensors layer e block .upProj = .ok up)
    (hdown : ownFp8 E config tensors layer e block .downProj = .ok down)
    (hrows : up.size 0 ≤ gate.size 0) :
    Extracts ((SlotWeightAccessor.mk c.banks (.fp8Block block) (gate.size 0)).get E s) gate up down := by
  have hbuilds : Builds ((fp8Format block).assembly config) config
      (fun group slots => Fp8BankOf (α := α) block config.numExperts group.2 slots) :=
    ExpertFormat.builds finalizeFp8Bank_sound
      fun h => finalizeFp8Bank_complete h config.numExperts_pos
  obtain ⟨gu, dn, hgu, hdn, hguOf, hdnOf⟩ := exists_bank_of_stream hbuilds hstream hslot.layer_lt
  generalize ha : SlotWeightAccessor.mk c.banks (.fp8Block block) (gate.size 0) = a
  have hbanks : a.banks = c.banks := by rw [← ha]
  obtain ⟨weight, hweight, hwSame⟩ : ∃ row, a.slotRow "weight_gate_up" s = .ok row ∧
    (gu.weight.select e).Same row := hslot.exists_row rfl hgu hgateUps.1 hbanks
  obtain ⟨scale, hscale, hsSame⟩ : ∃ row, a.slotRow "scale_gate_up" s = .ok row ∧
    (gu.weightScaleInv.select e).Same row := hslot.exists_row rfl hgu hgateUps.2 hbanks
  obtain ⟨dweight, hdweight, hdwSame⟩ : ∃ row, a.slotRow "weight_down" s = .ok row ∧
    (dn.weight.select e).Same row := hslot.exists_row rfl hdn hdowns.1 hbanks
  obtain ⟨dscale, hdscale, hdsSame⟩ : ∃ row, a.slotRow "scale_down" s = .ok row ∧
    (dn.weightScaleInv.select e).Same row := hslot.exists_row rfl hdn hdowns.2 hbanks
  obtain ⟨gw, gs, hgw, hgs, hg⟩ := ownFp8_eq_ok.mp hgate
  obtain ⟨uw, us, huw, hus, hu⟩ := ownFp8_eq_ok.mp hup
  obtain ⟨dw, ds, hdw, hds, hd⟩ := ownFp8_eq_ok.mp hdown
  have hwJoins := ((hguOf.weight.2 e hslot.1).same hwSame).joins hgw huw
  have hsJoins := ((hguOf.weightScaleInv.2 e hslot.1).same hsSame).joins hgs hus
  -- The streamer has checked that the gate has whole blocks of rows.
  obtain ⟨gw', n, hgw', hn, -, q, rfl⟩ := hguOf.blocks rfl e hslot.1
  cases Option.some.inj (hgw.symm.trans hgw')
  obtain ⟨w, hw, hjoins⟩ := dequantizeBlockFp8_joins hwJoins hsJoins hn hg hu
  obtain ⟨d, hd, hsame⟩ := dequantizeBlockFp8_congr
    (((hdnOf.weight.2 e hslot.1).same hdwSame).same_down hdw)
    (((hdnOf.weightScaleInv.2 e hslot.1).same hdsSame).same_down hds) hd
  have hget : a.get E s = .ok (a.split w d) := by
    rw [SlotWeightAccessor.get, show a.format = .fp8Block block by rw [← ha]]
    simp only [hweight, hscale, hdweight, hdscale, hw, hd, bind, Except.bind, pure, Except.pure]
  rw [hget]
  exact extracts_split hjoins (dequantizeBlockFp8_shape hg) (dequantizeBlockFp8_shape hu)
    (by rw [← ha]) hrows hsame.symm

end Fp8

/-! ### INT8 -/

section Int8

variable {gateUps downs : List (Int8ExpertBank α)}

theorem ownInt8_eq_ok {p : Proj} {w : Tensor ρ} :
    ownInt8 E config tensors layer e p = .ok w ↔ ∃ weightPacked weightScale weightShape k,
      ((int8Format E.item).assembly config).lookup tensors (layer, p.bank) ⟨e, p, .weightPacked⟩ =
        some weightPacked ∧
      ((int8Format E.item).assembly config).lookup tensors (layer, p.bank) ⟨e, p, .weightScale⟩ =
        some weightScale ∧
      ((int8Format E.item).assembly config).lookup tensors (layer, p.bank) ⟨e, p, .weightShape⟩ =
        some weightShape ∧
      int8LogicalK E.item weightShape = .ok k ∧
      dequantizeInt8Packed E k weightPacked weightScale = .ok w := by
  rw [ownInt8]
  constructor
  · intro h
    split at h
    · next weightPacked weightScale weightShape hpacked hscale hshape =>
        split at h
        · next k hk => exact ⟨weightPacked, weightScale, weightShape, k, hpacked, hscale, hshape, hk, h⟩
        · cases h
    · cases h
  · rintro ⟨weightPacked, weightScale, weightShape, k, hpacked, hscale, hshape, hk, h⟩
    simp only [hpacked, hscale, hshape, hk]
    exact h

theorem sharedK_eq_ok {banks : List (Int8ExpertBank α)} {k : Int} (h : sharedK banks = .ok k) :
    ∀ bank ∈ banks, bank.k = k := by
  cases banks with
  | nil => cases h
  | cons first rest =>
      rw [sharedK] at h
      split at h
      · next hnone =>
          cases h
          intro bank hbank
          rcases List.mem_cons.mp hbank with rfl | hrest
          · rfl
          · simpa using List.find?_eq_none.mp hnone bank hrest
      · cases h

/-- The in-features of a projection are those of its bank. -/
theorem Int8BankOf.k_eq {numExperts : Nat} {bank : Bank}
    {slots : ExpertSlot Int8Component → Option (Tensor α)} {b : Int8ExpertBank α}
    (hb : Int8BankOf E.item numExperts bank slots b) (he : e < numExperts) {p : Proj}
    (hp : p ∈ bank.projs) {weightShape : Tensor α} (hshape : slots ⟨e, p, .weightShape⟩ = some weightShape)
    {k : Int} (hk : int8LogicalK E.item weightShape = .ok k) : k = b.k := by
  obtain ⟨t, ht, hkt⟩ := hb.k e he p hp
  cases Option.some.inj (hshape.symm.trans ht)
  exact Except.ok.inj (hk.symm.trans hkt)

theorem int8Slot_extracts [Zero (Tensor α)]
    (hstream : streamMoeExpertSourcesInt8 E.item config tensors = .ok (gateUps, downs))
    (hslot : HoldsExpert config (int8Sources gateUps downs) c s layer e)
    (hgateUps : SameShapes (·.weightPacked) gateUps ∧ SameShapes (·.weightScale) gateUps)
    (hdowns : SameShapes (·.weightPacked) downs ∧ SameShapes (·.weightScale) downs)
    {kGateUp kDown : Int} (hkGateUp : sharedK gateUps = .ok kGateUp) (hkDown : sharedK downs = .ok kDown)
    (hgate : ownInt8 E config tensors layer e .gateProj = .ok gate)
    (hup : ownInt8 E config tensors layer e .upProj = .ok up)
    (hdown : ownInt8 E config tensors layer e .downProj = .ok down) (hrows : up.size 0 ≤ gate.size 0) :
    Extracts ((SlotWeightAccessor.mk c.banks (.int8Channel kGateUp kDown) (gate.size 0)).get E s)
      gate up down := by
  have hpos := config.numExperts_pos
  have hbuilds : Builds ((int8Format E.item).assembly config) config
      (fun group slots => Int8BankOf E.item config.numExperts group.2 slots) :=
    ExpertFormat.builds (finalizeInt8Bank_sound hpos) fun h => finalizeInt8Bank_complete h hpos
  obtain ⟨gu, dn, hgu, hdn, hguOf, hdnOf⟩ := exists_bank_of_stream hbuilds hstream hslot.layer_lt
  generalize ha : SlotWeightAccessor.mk c.banks (.int8Channel kGateUp kDown) (gate.size 0) = a
  have hbanks : a.banks = c.banks := by rw [← ha]
  obtain ⟨packed, hpacked, hpSame⟩ : ∃ row, a.slotRow "weight_packed_gate_up" s = .ok row ∧
    (gu.weightPacked.select e).Same row := hslot.exists_row rfl hgu hgateUps.1 hbanks
  obtain ⟨scale, hscale, hsSame⟩ : ∃ row, a.slotRow "weight_scale_gate_up" s = .ok row ∧
    (gu.weightScale.select e).Same row := hslot.exists_row rfl hgu hgateUps.2 hbanks
  obtain ⟨dpacked, hdpacked, hdpSame⟩ : ∃ row, a.slotRow "weight_packed_down" s = .ok row ∧
    (dn.weightPacked.select e).Same row := hslot.exists_row rfl hdn hdowns.1 hbanks
  obtain ⟨dscale, hdscale, hdsSame⟩ : ∃ row, a.slotRow "weight_scale_down" s = .ok row ∧
    (dn.weightScale.select e).Same row := hslot.exists_row rfl hdn hdowns.2 hbanks
  obtain ⟨gp, gs, gshape, kg, hgp, hgs, hgshape, hkg, hg⟩ := ownInt8_eq_ok.mp hgate
  obtain ⟨up', us, ushape, ku, hup', hus, hushape, hku, hu⟩ := ownInt8_eq_ok.mp hup
  obtain ⟨dp, ds, dshape, kd, hdp, hds, hdshape, hkd, hd⟩ := ownInt8_eq_ok.mp hdown
  have hguK := sharedK_eq_ok hkGateUp gu (List.mem_of_getElem? hgu)
  have hdnK := sharedK_eq_ok hkDown dn (List.mem_of_getElem? hdn)
  rw [hguOf.k_eq hslot.1 (Proj.mem_projs .gateProj) hgshape hkg, hguK] at hg
  rw [hguOf.k_eq hslot.1 (Proj.mem_projs .upProj) hushape hku, hguK] at hu
  rw [hdnOf.k_eq hslot.1 (Proj.mem_projs .downProj) hdshape hkd, hdnK] at hd
  obtain ⟨w, hw, hjoins⟩ := dequantizeInt8Packed_joins
    (((hguOf.weightPacked.2 e hslot.1).same hpSame).joins hgp hup')
    (((hguOf.weightScale.2 e hslot.1).same hsSame).joins hgs hus) hg hu
  obtain ⟨d, hd, hsame⟩ := dequantizeInt8Packed_congr
    (((hdnOf.weightPacked.2 e hslot.1).same hdpSame).same_down hdp)
    (((hdnOf.weightScale.2 e hslot.1).same hdsSame).same_down hds) hd
  have hget : a.get E s = .ok (a.split w d) := by
    rw [SlotWeightAccessor.get, show a.format = .int8Channel kGateUp kDown by rw [← ha]]
    simp only [hpacked, hscale, hdpacked, hdscale, hw, hd, bind, Except.bind, pure, Except.pure]
  rw [hget]
  exact extracts_split hjoins (dequantizeInt8Packed_shape hg) (dequantizeInt8Packed_shape hu)
    (by rw [← ha]) hrows hsame.symm

end Int8

/-! ### MXFP4 -/

section Mxfp4

variable {gateUps downs : List (MxfpExpertBank α)} {intermediate : Nat}

/-- The blocks of an expert whose gate dequantizes. -/
theorem exists_mxfp4_shape {b : MxfpExpertBank α} {slots : Mxfp4Component → Option (Tensor α)}
    (hb : Mxfp4BankOf config.numExperts slots b) (hdim : b.blocks.dim = 4) {start stop : Nat}
    (h : dequantizeMxfp4Blocks E ((b.blocks.select e).rows start stop)
      ((b.scales.select e).rows start stop) = .ok gate) :
    ∃ n nBlocks, (b.blocks.select e).shape = [n, nBlocks, 16] ∧
      (b.scales.select e).shape = [n, nBlocks] := by
  obtain ⟨numExperts, n, nBlocks, pack, hshape⟩ := List.length_eq_four.mp hdim
  obtain ⟨rest, nBlocks', hblocks, -, -⟩ := dequantizeMxfp4Blocks_eq_ok.mp h
  have hpack : [min stop n - start, nBlocks] ++ [pack] = rest ++ [nBlocks'] ++ [16] := by
    rw [← hblocks, Tensor.rows, Tensor.size, Tensor.select, hshape]
    rfl
  cases (List.append_inj' hpack rfl).2
  refine ⟨n, nBlocks, ?_, ?_⟩
  · rw [Tensor.select, hshape]
    rfl
  · rw [Tensor.select, ← hb.shapes, hshape]
    rfl

/-- The accessor's rows of the fused matrix are what the gate rows and the up rows of the
checkpoint's tensor dequantize to, of whatever number. -/
theorem mxfp4Slot_extracts [Zero (Tensor α)]
    (hstream : streamMoeExpertSourcesMxfp4 config tensors = .ok (gateUps, downs))
    (hslot : HoldsExpert config (mxfp4Sources gateUps downs) c s layer e)
    (hgateUps : SameShapes (·.blocks) gateUps ∧ SameShapes (·.scales) gateUps)
    (hdowns : SameShapes (·.blocks) downs ∧ SameShapes (·.scales) downs)
    (hdim : ∀ b ∈ gateUps, b.blocks.dim = 4)
    (hgate : ownMxfp4 E config tensors layer e intermediate .gateProj = .ok gate)
    (hup : ownMxfp4 E config tensors layer e intermediate .upProj = .ok up)
    (hdown : ownMxfp4 E config tensors layer e intermediate .downProj = .ok down) :
    Extracts ((SlotWeightAccessor.mk c.banks .mxfp4 intermediate).get E s) gate up down := by
  obtain ⟨gu, dn, hgu, hdn, hguOf, hdnOf⟩ := exists_bank_of_stream mxfp4_builds hstream hslot.layer_lt
  generalize ha : SlotWeightAccessor.mk c.banks .mxfp4 intermediate = a
  have hbanks : a.banks = c.banks := by rw [← ha]
  obtain ⟨blocks, hblocks, hbSame⟩ : ∃ row, a.slotRow "blocks_gate_up" s = .ok row ∧
    (gu.blocks.select e).Same row := hslot.exists_row rfl hgu hgateUps.1 hbanks
  obtain ⟨scales, hscales, hsSame⟩ : ∃ row, a.slotRow "scales_gate_up" s = .ok row ∧
    (gu.scales.select e).Same row := hslot.exists_row rfl hgu hgateUps.2 hbanks
  obtain ⟨dblocks, hdblocks, hdbSame⟩ : ∃ row, a.slotRow "blocks_down" s = .ok row ∧
    (dn.blocks.select e).Same row := hslot.exists_row rfl hdn hdowns.1 hbanks
  obtain ⟨dscales, hdscales, hdsSame⟩ : ∃ row, a.slotRow "scales_down" s = .ok row ∧
    (dn.scales.select e).Same row := hslot.exists_row rfl hdn hdowns.2 hbanks
  simp only [ownMxfp4, Proj.bank, hguOf.blocks, hguOf.scales, hdnOf.blocks, hdnOf.scales]
    at hgate hup hdown
  obtain ⟨n, nBlocks, hb, hs⟩ :=
    exists_mxfp4_shape hguOf (hdim gu (List.mem_of_getElem? hgu)) hgate
  obtain ⟨w, hw⟩ : ∃ w : Tensor ρ,
      dequantizeMxfp4Blocks E (gu.blocks.select e) (gu.scales.select e) = .ok w :=
    ⟨_, dequantizeMxfp4Blocks_eq_ok.mpr ⟨[n], nBlocks, hb, hs, rfl⟩⟩
  obtain ⟨w', hw', hsame⟩ := dequantizeMxfp4Blocks_congr hbSame hsSame hw
  obtain ⟨d, hd, hdSame⟩ := dequantizeMxfp4Blocks_congr hdbSame hdsSame hdown
  have hget : a.get E s = .ok (a.split w' d) := by
    rw [SlotWeightAccessor.get, show a.format = .mxfp4 by rw [← ha]]
    simp only [hblocks, hscales, hdblocks, hdscales, hw', hd, bind, Except.bind, pure, Except.pure]
  have hi : a.intermediate = intermediate := by rw [← ha]
  have hpart : ∀ {start stop : Nat} {part : Tensor ρ}, dequantizeMxfp4Blocks E
      ((gu.blocks.select e).rows start stop) ((gu.scales.select e).rows start stop) = .ok part →
      (w'.rows start stop).Same part := by
    intro start stop part hpart
    obtain ⟨v, hv, hvSame⟩ := dequantizeMxfp4Blocks_rows hb hs hw start stop
    cases hpart.symm.trans hv
    exact (hsame.rows (dequantizeMxfp4Blocks_shape hs hw) start stop).symm.trans hvSame.symm
  rw [hget]
  refine ⟨_, _, _, rfl, ?_, ?_, hdSame.symm⟩
  · rw [hi]
    exact hpart hgate
  · rw [hi]
    exact hpart hup

end Mxfp4

/-- Fusing and then dequantizing and splitting is dequantizing, in the three formats. -/
theorem fusedSlots_extract [Zero (Tensor α)] (E : Elements α φ ρ) (config : MoeConfig)
    (tensors : List (String × Tensor α)) (c : OffloadMoeCache (Tensor α)) (s layer e : Nat)
    (gate up down : Tensor ρ) :
    (∀ block gateUps downs,
      streamMoeExpertSourcesFp8 block config tensors = .ok (gateUps, downs) →
      HoldsExpert config (fp8Sources gateUps downs) c s layer e →
      SameShapes (·.weight) gateUps ∧ SameShapes (·.weightScaleInv) gateUps →
      SameShapes (·.weight) downs ∧ SameShapes (·.weightScaleInv) downs →
      ownFp8 E config tensors layer e block .gateProj = .ok gate →
      ownFp8 E config tensors layer e block .upProj = .ok up →
      ownFp8 E config tensors layer e block .downProj = .ok down → up.size 0 ≤ gate.size 0 →
      Extracts ((SlotWeightAccessor.mk c.banks (.fp8Block block) (gate.size 0)).get E s)
        gate up down) ∧
    (∀ gateUps downs kGateUp kDown,
      streamMoeExpertSourcesInt8 E.item config tensors = .ok (gateUps, downs) →
      HoldsExpert config (int8Sources gateUps downs) c s layer e →
      SameShapes (·.weightPacked) gateUps ∧ SameShapes (·.weightScale) gateUps →
      SameShapes (·.weightPacked) downs ∧ SameShapes (·.weightScale) downs →
      sharedK gateUps = .ok kGateUp → sharedK downs = .ok kDown →
      ownInt8 E config tensors layer e .gateProj = .ok gate →
      ownInt8 E config tensors layer e .upProj = .ok up →
      ownInt8 E config tensors layer e .downProj = .ok down → up.size 0 ≤ gate.size 0 →
      Extracts ((SlotWeightAccessor.mk c.banks (.int8Channel kGateUp kDown) (gate.size 0)).get E s)
        gate up down) ∧
    ∀ gateUps downs intermediate,
      streamMoeExpertSourcesMxfp4 config tensors = .ok (gateUps, downs) →
      HoldsExpert config (mxfp4Sources gateUps downs) c s layer e →
      SameShapes (·.blocks) gateUps ∧ SameShapes (·.scales) gateUps →
      SameShapes (·.blocks) downs ∧ SameShapes (·.scales) downs →
      (∀ b ∈ gateUps, b.blocks.dim = 4) →
      ownMxfp4 E config tensors layer e intermediate .gateProj = .ok gate →
      ownMxfp4 E config tensors layer e intermediate .upProj = .ok up →
      ownMxfp4 E config tensors layer e intermediate .downProj = .ok down →
      Extracts ((SlotWeightAccessor.mk c.banks .mxfp4 intermediate).get E s) gate up down := by
  refine ⟨?_, ?_, ?_⟩
  · intro block gateUps downs hstream hslot hgateUps hdowns hgate hup hdown hrows
    exact fp8Slot_extracts hstream hslot hgateUps hdowns hgate hup hdown hrows
  · intro gateUps downs kGateUp kDown hstream hslot hgateUps hdowns hkGateUp hkDown hgate hup hdown hrows
    exact int8Slot_extracts hstream hslot hgateUps hdowns hkGateUp hkDown hgate hup hdown hrows
  · intro gateUps downs intermediate hstream hslot hgateUps hdowns hdim hgate hup hdown
    exact mxfp4Slot_extracts hstream hslot hgateUps hdowns hdim hgate hup hdown

end Formats

/-! ### Runs on fixed tensors -/

section Runs

instance : Zero (Tensor Int) := ⟨zeros []⟩

/-- Exact arithmetic on elements that are the numbers they stand for. -/
def exactElements : Elements Int ℚ ℚ where
  int32 := BitVec.ofInt 32
  uint8 := BitVec.ofInt 8
  item := id
  float := fun x => (x : ℚ)
  ofInt := fun x => (x : ℚ)
  half := fun negated n => if negated then -(n / 2 : ℚ) else (n / 2 : ℚ)
  mul := fun x y => x * y
  sub := fun x y => x - y
  exp2 := fun x => 2 ^ x.num
  cast := id

/-- A cache of one expert a layer, with the expert of a layer in slot 0. -/
def firstSlot (config : MoeConfig) (layer : Nat) (sources : List (String × (Nat → Nat → Tensor Int))) :
    Option (OffloadMoeCache (Tensor Int)) := do
  let c0 ← (OffloadMoeCache.new config.numLayers config.numExperts 2 sources).toOption
  let c ← Run.exec OffloadMoeCache.next c0 [.materialize layer]
  if c.idOfSlot 0 = some (c.flatId layer 0) then some c else none

theorem firstSlot_holds {config : MoeConfig} {layer : Nat}
    {sources : List (String × (Nat → Nat → Tensor Int))} {c : OffloadMoeCache (Tensor Int)}
    (h : firstSlot config layer sources = some c) : HoldsExpert config sources c 0 layer 0 := by
  simp only [firstSlot, Option.bind_eq_bind, Option.bind_eq_some_iff] at h
  obtain ⟨c0, hnew, c', hrun, h⟩ := h
  split at h
  · next hslot =>
      cases h
      exact ⟨config.numExperts_pos, hslot, 2, c0, _, toOption_eq_some.mp hnew, hrun⟩
  · cases h

def row (shape : List Nat) (values : List Int) : Tensor Int := Tensor.ofFlat shape 0 values

/-- The tensors of one GPTQ expert a layer, of 8 columns and two groups. A layer has its number of
packed rows and its group index. -/
def gptqLayers (layers : List (Nat × List Int)) : List (String × Tensor Int) :=
  (layers.zip ["0.mlp.experts.0.", "1.mlp.experts.0."]).flatMap fun layer =>
    ["gate_proj", "up_proj", "down_proj"].flatMap fun proj =>
      [(layer.2 ++ proj ++ ".qweight", zeros [layer.1.1, 8]),
        (layer.2 ++ proj ++ ".qzeros", zeros [2, 1]),
        (layer.2 ++ proj ++ ".scales",
          row [2, 8] [1, 1, 1, 1, 1, 1, 1, 1, 2, 2, 2, 2, 2, 2, 2, 2]),
        (layer.2 ++ proj ++ ".g_idx", row [layer.1.1 * 8] layer.1.2)]

def gptqConfig (layers : List (Nat × List Int)) : MoeConfig := ⟨layers.length, 1, 0, Nat.one_pos⟩

/-- The gate of the last layer from the slot and from the expert's own tensors: its shape and its
first weight. -/
def gptqGate (layers : List (Nat × List Int)) (groupSize : Int) (intermediate : Nat) :
    Option ((List Nat × ℚ) × (List Nat × ℚ)) := do
  let layer := layers.length - 1
  let banks ← (streamMoeExpertSourcesGptq (gptqConfig layers) (gptqLayers layers)).toOption
  let c ← firstSlot (gptqConfig layers) layer (gptqSources banks.1 banks.2)
  let got ← ((SlotWeightAccessor.mk c.banks (.gptqInt4 groupSize) intermediate).get
    exactElements 0).toOption
  let own ← (ownGptq exactElements (gptqConfig layers) (gptqLayers layers) layer 0 .gateProj).toOption
  some ((got.1.shape, got.1.get [0, 0]), (own.shape, own.get [0, 0]))

/-- The last layer's expert is accepted and served, with another gate than its own. -/
def GptqMismatch (layers : List (Nat × List Int)) (groupSize : Int) (intermediate : Nat) : Prop :=
  ∃ gateUps downs c got own,
    streamMoeExpertSourcesGptq (gptqConfig layers) (gptqLayers layers) = .ok (gateUps, downs) ∧
    HoldsExpert (gptqConfig layers) (gptqSources gateUps downs) c 0 (layers.length - 1) 0 ∧
    (SlotWeightAccessor.mk c.banks (.gptqInt4 groupSize) intermediate).get exactElements 0 = .ok got ∧
    ownGptq exactElements (gptqConfig layers) (gptqLayers layers) (layers.length - 1) 0 .gateProj =
      .ok own ∧
    ¬ got.1.Same own

theorem not_same {t u : Tensor ρ} (idx : List Nat) (hidx : List.Forall₂ (· < ·) idx t.shape)
    (hne : (t.shape, t.get idx) ≠ (u.shape, u.get idx)) : ¬ t.Same u :=
  fun h => hne (Prod.ext h.1 (h.2 idx hidx))

theorem gptqMismatch_of_gate {layers : List (Nat × List Int)} {groupSize : Int}
    {intermediate m n : Nat} {shape : List Nat} {x y : ℚ}
    (h : gptqGate layers groupSize intermediate = some (([m + 1, n + 1], x), (shape, y)))
    (hne : ([m + 1, n + 1], x) ≠ (shape, y)) : GptqMismatch layers groupSize intermediate := by
  simp only [gptqGate, Option.bind_eq_bind, Option.bind_eq_some_iff, Option.some.injEq,
    Prod.mk.injEq] at h
  obtain ⟨banks, hbanks, c, hc, got, hgot, own, hown, ⟨hshape, hx⟩, hshape', hy⟩ := h
  refine ⟨banks.1, banks.2, c, got, own, toOption_eq_some.mp hbanks, firstSlot_holds hc,
    toOption_eq_some.mp hgot, toOption_eq_some.mp hown, ?_⟩
  apply not_same [0, 0]
  · rw [hshape]
    exact .cons (Nat.succ_pos m) (.cons (Nat.succ_pos n) .nil)
  · rw [hshape, hx, hshape', hy]
    exact hne

/-- A group index in another order does not count, the config's `moe_intermediate_size` tells which
rows are the gate's, and a second layer of fewer rows has the shape of the first. -/
theorem gptqSlot_mismatch :
    GptqMismatch [(1, [1, 1, 1, 1, 0, 0, 0, 0])] 4 8 ∧
      GptqMismatch [(1, [0, 0, 0, 0, 1, 1, 1, 1])] 4 4 ∧
      GptqMismatch [(2, List.replicate 16 0), (1, List.replicate 8 0)] 16 8 := by
  have hgates : gptqGate [(1, [1, 1, 1, 1, 0, 0, 0, 0])] 4 8 = some (([8, 8], -1), ([8, 8], -2)) ∧
      gptqGate [(1, [0, 0, 0, 0, 1, 1, 1, 1])] 4 4 = some (([4, 8], -1), ([8, 8], -1)) ∧
      gptqGate [(2, List.replicate 16 0), (1, List.replicate 8 0)] 16 8 =
        some (([8, 16], -1), ([8, 8], -1)) := by
    decide +kernel
  exact ⟨gptqMismatch_of_gate hgates.1 (by decide), gptqMismatch_of_gate hgates.2.1 (by decide),
    gptqMismatch_of_gate hgates.2.2 (by decide)⟩

theorem sameShapes_of_length {part : β → Tensor α} {banks : List β} (h : banks.length = 1) :
    SameShapes part banks := by
  obtain ⟨b, rfl⟩ := List.length_eq_one_iff.mp h
  intro b₁ h₁ b₂ h₂
  rw [List.mem_singleton.mp h₁, List.mem_singleton.mp h₂]

theorem exists_of_isSome {ε τ : Type} {x : Except ε τ} (h : x.toOption.isSome = true) :
    ∃ a, x = .ok a := by
  obtain ⟨a, ha⟩ := Option.isSome_iff_exists.mp h
  exact ⟨a, toOption_eq_some.mp ha⟩

theorem exists_of_shape {x : Except DequantError (Tensor ρ)} {shape : List Nat}
    (h : x.toOption.map Tensor.shape = some shape) : ∃ t, x = .ok t ∧ t.shape = shape := by
  obtain ⟨t, ht, hshape⟩ := Option.map_eq_some_iff.mp h
  exact ⟨t, toOption_eq_some.mp ht, hshape⟩

/-- The same expert with groups in order, in a slot of its cache. -/
theorem oneExpertGptq_extracts : ∃ gateUps downs c s gate up down,
    streamMoeExpertSourcesGptq oneExpert (gptqLayers [(1, [0, 0, 0, 0, 1, 1, 1, 1])]) =
      .ok (gateUps, downs) ∧
    HoldsExpert oneExpert (gptqSources gateUps downs) c s 0 0 ∧
    ownGptq exactElements oneExpert (gptqLayers [(1, [0, 0, 0, 0, 1, 1, 1, 1])]) 0 0 .gateProj =
      .ok gate ∧
    Extracts ((SlotWeightAccessor.mk c.banks (.gptqInt4 4) 8).get exactElements s) gate up down := by
  generalize htensors : gptqLayers [(1, [0, 0, 0, 0, 1, 1, 1, 1])] = tensors
  have hfacts : (streamMoeExpertSourcesGptq oneExpert tensors).toOption.isSome = true ∧
      ∀ p ∈ [Proj.gateProj, .upProj, .downProj],
        (ownGptq exactElements oneExpert tensors 0 0 p).toOption.map Tensor.shape = some [8, 8] ∧
        (((gptqFormat.assembly oneExpert).lookup tensors (0, p.bank) ⟨0, p, .gIdx⟩).all fun gIdx =>
          (gIdx.map exactElements.item).equal (sequentialGroups (gIdx.size 0) 4)) = true := by
    rw [← htensors]
    decide +kernel
  have hproj : ∀ p, p ∈ [Proj.gateProj, .upProj, .downProj] := by
    intro p
    cases p <;> decide
  obtain ⟨⟨gateUps, downs⟩, hstream⟩ := exists_of_isSome hfacts.1
  obtain ⟨c, s, hslot⟩ : ∃ c s, HoldsExpert oneExpert (gptqSources gateUps downs) c s 0 0 :=
    exists_holdsExpert (List.cons_ne_nil _ _) Nat.one_pos Nat.one_pos
  obtain ⟨gate, hgate, hgateShape⟩ := exists_of_shape (hfacts.2 _ (hproj .gateProj)).1
  obtain ⟨up, hup, hupShape⟩ := exists_of_shape (hfacts.2 _ (hproj .upProj)).1
  obtain ⟨down, hdown, -⟩ := exists_of_shape (hfacts.2 _ (hproj .downProj)).1
  have hseq : SequentialGroupIndex exactElements oneExpert tensors 0 0 4 := by
    refine ⟨by decide, ?_⟩
    intro p gIdx h
    have hequal := (hfacts.2 p (hproj p)).2
    rw [h] at hequal
    exact Tensor.equal_iff.mp hequal
  have hrows : gate.size 0 = 8 ∧ up.size 0 = 8 := by
    rw [Tensor.size, Tensor.size, hgateShape, hupShape]
    exact ⟨rfl, rfl⟩
  have hone : gateUps.length = 1 ∧ downs.length = 1 := streamBanks_length hstream
  have hextracts := gptqSlot_extracts hstream hslot
    ⟨sameShapes_of_length hone.1, sameShapes_of_length hone.1, sameShapes_of_length hone.1⟩
    ⟨sameShapes_of_length hone.2, sameShapes_of_length hone.2, sameShapes_of_length hone.2⟩
    hseq hgate hup hdown (by rw [hrows.1, hrows.2])
  rw [hrows.1] at hextracts
  exact ⟨gateUps, downs, c, s, gate, up, down, hstream, hslot, hgate, hextracts⟩

/-! ### Other formats on fixed tensors -/

/-- The up from the slot and from the expert's own tensors: their shapes. -/
def fp8Up (gate : List Nat) (intermediate : Nat) : Option (List Nat × List Nat) := do
  let banks ← (streamMoeExpertSourcesFp8 fp8DefaultBlock oneExpert (oneExpertFp8 gate)).toOption
  let c ← firstSlot oneExpert 0 (fp8Sources banks.1 banks.2)
  let got ← ((SlotWeightAccessor.mk c.banks (.fp8Block fp8DefaultBlock) intermediate).get
    exactElements 0).toOption
  let own ← (ownFp8 exactElements oneExpert (oneExpertFp8 gate) 0 0 fp8DefaultBlock .upProj).toOption
  some (got.2.1.shape, own.shape)

/-- The expert is accepted and served, with another up than its own. -/
def Fp8Mismatch (gate : List Nat) (intermediate : Nat) : Prop :=
  ∃ gateUps downs c got own,
    streamMoeExpertSourcesFp8 fp8DefaultBlock oneExpert (oneExpertFp8 gate) = .ok (gateUps, downs) ∧
    HoldsExpert oneExpert (fp8Sources gateUps downs) c 0 0 0 ∧
    (SlotWeightAccessor.mk c.banks (.fp8Block fp8DefaultBlock) intermediate).get exactElements 0 =
      .ok got ∧
    ownFp8 exactElements oneExpert (oneExpertFp8 gate) 0 0 fp8DefaultBlock .upProj = .ok own ∧
    ¬ got.2.1.Same own

/-- The experts of the layers, with blocks of these shapes for gate and up. -/
def mxfp4Layers (blocks : List (List Nat)) : List (String × Tensor Int) :=
  (blocks.zip ["0.mlp.experts.", "1.mlp.experts."]).flatMap fun layer =>
    [(layer.2 ++ "gate_up_proj_blocks", zeros layer.1),
      (layer.2 ++ "gate_up_proj_scales", zeros layer.1.dropLast),
      (layer.2 ++ "down_proj_blocks", zeros [1, 1, 1, 16]),
      (layer.2 ++ "down_proj_scales", zeros [1, 1, 1])]

def mxfp4Config (blocks : List (List Nat)) : MoeConfig := ⟨blocks.length, 1, 0, Nat.one_pos⟩

def mxfp4Up (blocks : List (List Nat)) (layer : Nat) : Option (List Nat × List Nat) := do
  let banks ← (streamMoeExpertSourcesMxfp4 (mxfp4Config blocks) (mxfp4Layers blocks)).toOption
  let c ← firstSlot (mxfp4Config blocks) layer (mxfp4Sources banks.1 banks.2)
  let got ← ((SlotWeightAccessor.mk c.banks .mxfp4 1).get exactElements 0).toOption
  let own ← (ownMxfp4 exactElements (mxfp4Config blocks) (mxfp4Layers blocks) layer 0 1 .upProj).toOption
  some (got.2.1.shape, own.shape)

def Mxfp4Mismatch (blocks : List (List Nat)) (layer : Nat) : Prop :=
  ∃ gateUps downs c got own,
    streamMoeExpertSourcesMxfp4 (mxfp4Config blocks) (mxfp4Layers blocks) = .ok (gateUps, downs) ∧
    HoldsExpert (mxfp4Config blocks) (mxfp4Sources gateUps downs) c 0 layer 0 ∧
    (SlotWeightAccessor.mk c.banks .mxfp4 1).get exactElements 0 = .ok got ∧
    ownMxfp4 exactElements (mxfp4Config blocks) (mxfp4Layers blocks) layer 0 1 .upProj = .ok own ∧
    ¬ got.2.1.Same own

theorem fp8Mismatch_of_up {gate shape shape' : List Nat} {intermediate : Nat}
    (h : fp8Up gate intermediate = some (shape, shape')) (hne : shape ≠ shape') :
    Fp8Mismatch gate intermediate := by
  simp only [fp8Up, Option.bind_eq_bind, Option.bind_eq_some_iff, Option.some.injEq,
    Prod.mk.injEq] at h
  obtain ⟨banks, hbanks, c, hc, got, hgot, own, hown, hshape, hshape'⟩ := h
  refine ⟨banks.1, banks.2, c, got, own, toOption_eq_some.mp hbanks, firstSlot_holds hc,
    toOption_eq_some.mp hgot, toOption_eq_some.mp hown, ?_⟩
  exact fun hsame => hne (hshape.symm.trans (hsame.1.trans hshape'))

theorem mxfp4Mismatch_of_up {blocks : List (List Nat)} {layer : Nat} {shape shape' : List Nat}
    (h : mxfp4Up blocks layer = some (shape, shape')) (hne : shape ≠ shape') :
    Mxfp4Mismatch blocks layer := by
  simp only [mxfp4Up, Option.bind_eq_bind, Option.bind_eq_some_iff, Option.some.injEq,
    Prod.mk.injEq] at h
  obtain ⟨banks, hbanks, c, hc, got, hgot, own, hown, hshape, hshape'⟩ := h
  refine ⟨banks.1, banks.2, c, got, own, toOption_eq_some.mp hbanks, firstSlot_holds hc,
    toOption_eq_some.mp hgot, toOption_eq_some.mp hown, ?_⟩
  exact fun hsame => hne (hshape.symm.trans (hsame.1.trans hshape'))

/-- The tensors of one INT8 expert, of 4 columns. -/
def oneExpertInt8 : List (String × Tensor Int) :=
  ["gate_proj", "up_proj", "down_proj"].flatMap fun proj =>
    [("0.experts.0." ++ proj ++ ".weight_packed", zeros [1, 1]),
      ("0.experts.0." ++ proj ++ ".weight_scale", zeros [1, 1]),
      ("0.experts.0." ++ proj ++ ".weight_shape", row [2] [1, 4])]

/-- An expert of each format, in a slot of its cache. -/
theorem oneExperts_extract :
    (∃ gateUps downs c s gate up down,
      streamMoeExpertSourcesFp8 fp8DefaultBlock oneExpert (oneExpertFp8 [128, 1]) = .ok (gateUps, downs) ∧
      HoldsExpert oneExpert (fp8Sources gateUps downs) c s 0 0 ∧
      Extracts ((SlotWeightAccessor.mk c.banks (.fp8Block fp8DefaultBlock) 128).get exactElements s)
        gate up down) ∧
    (∃ gateUps downs c s gate up down,
      streamMoeExpertSourcesInt8 id oneExpert oneExpertInt8 = .ok (gateUps, downs) ∧
      HoldsExpert oneExpert (int8Sources gateUps downs) c s 0 0 ∧
      Extracts ((SlotWeightAccessor.mk c.banks (.int8Channel 4 4) 1).get exactElements s)
        gate up down) ∧
    ∃ gateUps downs c s gate up down,
      streamMoeExpertSourcesMxfp4 oneExpert (mxfp4Layers [[1, 2, 1, 16]]) = .ok (gateUps, downs) ∧
      HoldsExpert oneExpert (mxfp4Sources gateUps downs) c s 0 0 ∧
      Extracts ((SlotWeightAccessor.mk c.banks .mxfp4 1).get exactElements s) gate up down := by
  refine ⟨?_, ?_, ?_⟩
  · generalize htensors : oneExpertFp8 [128, 1] = tensors
    have hfacts : (streamMoeExpertSourcesFp8 fp8DefaultBlock oneExpert tensors).toOption.isSome = true ∧
        ∀ p ∈ [(Proj.gateProj, 128), (.upProj, 1), (.downProj, 1)],
          (ownFp8 exactElements oneExpert tensors 0 0 fp8DefaultBlock p.1).toOption.map Tensor.shape =
            some [p.2, 1] := by
      rw [← htensors]
      decide +kernel
    obtain ⟨⟨gateUps, downs⟩, hstream⟩ := exists_of_isSome hfacts.1
    obtain ⟨c, s, hslot⟩ : ∃ c s, HoldsExpert oneExpert (fp8Sources gateUps downs) c s 0 0 :=
      exists_holdsExpert (List.cons_ne_nil _ _) Nat.one_pos Nat.one_pos
    obtain ⟨gate, hgate, hgateShape⟩ := exists_of_shape (hfacts.2 (.gateProj, 128) (by decide))
    obtain ⟨up, hup, hupShape⟩ := exists_of_shape (hfacts.2 (.upProj, 1) (by decide))
    obtain ⟨down, hdown, -⟩ := exists_of_shape (hfacts.2 (.downProj, 1) (by decide))
    have hrows : gate.size 0 = 128 ∧ up.size 0 = 1 := by
      rw [Tensor.size, Tensor.size, hgateShape, hupShape]
      exact ⟨rfl, rfl⟩
    obtain ⟨hgu, hdn⟩ := streamBanks_length hstream
    have hextracts := (fusedSlots_extract exactElements oneExpert tensors c s 0 0 gate up down).1
      fp8DefaultBlock gateUps downs hstream hslot
      ⟨sameShapes_of_length hgu, sameShapes_of_length hgu⟩
      ⟨sameShapes_of_length hdn, sameShapes_of_length hdn⟩ hgate hup hdown
      (by rw [hrows.1, hrows.2]; decide)
    rw [hrows.1] at hextracts
    exact ⟨gateUps, downs, c, s, gate, up, down, hstream, hslot, hextracts⟩
  · generalize htensors : oneExpertInt8 = tensors
    have hfacts : ((streamMoeExpertSourcesInt8 id oneExpert tensors).toOption.any fun banks =>
          (sharedK banks.1).toOption = some 4 ∧ (sharedK banks.2).toOption = some 4) = true ∧
        ∀ p ∈ [Proj.gateProj, .upProj, .downProj],
          (ownInt8 exactElements oneExpert tensors 0 0 p).toOption.map Tensor.shape = some [1, 4] := by
      rw [← htensors]
      decide +kernel
    obtain ⟨⟨gateUps, downs⟩, hbanks, hk⟩ := (Option.any_eq_true _ _).mp hfacts.1
    have hstream : streamMoeExpertSourcesInt8 id oneExpert tensors = .ok (gateUps, downs) :=
      toOption_eq_some.mp hbanks
    obtain ⟨hkGateUp, hkDown⟩ := of_decide_eq_true hk
    obtain ⟨c, s, hslot⟩ : ∃ c s, HoldsExpert oneExpert (int8Sources gateUps downs) c s 0 0 :=
      exists_holdsExpert (List.cons_ne_nil _ _) Nat.one_pos Nat.one_pos
    obtain ⟨gate, hgate, hgateShape⟩ := exists_of_shape (hfacts.2 .gateProj (by decide))
    obtain ⟨up, hup, hupShape⟩ := exists_of_shape (hfacts.2 .upProj (by decide))
    obtain ⟨down, hdown, -⟩ := exists_of_shape (hfacts.2 .downProj (by decide))
    have hrows : gate.size 0 = 1 ∧ up.size 0 = 1 := by
      rw [Tensor.size, Tensor.size, hgateShape, hupShape]
      exact ⟨rfl, rfl⟩
    obtain ⟨hgu, hdn⟩ := streamBanks_length hstream
    have hextracts := (fusedSlots_extract exactElements oneExpert tensors c s 0 0 gate up down).2.1
      gateUps downs 4 4 hstream hslot ⟨sameShapes_of_length hgu, sameShapes_of_length hgu⟩
      ⟨sameShapes_of_length hdn, sameShapes_of_length hdn⟩ (toOption_eq_some.mp hkGateUp)
      (toOption_eq_some.mp hkDown) hgate hup hdown (by rw [hrows.1, hrows.2])
    rw [hrows.1] at hextracts
    exact ⟨gateUps, downs, c, s, gate, up, down, hstream, hslot, hextracts⟩
  · generalize htensors : mxfp4Layers [[1, 2, 1, 16]] = tensors
    have hfacts : ((streamMoeExpertSourcesMxfp4 oneExpert tensors).toOption.any fun banks =>
          ∀ b ∈ banks.1, b.blocks.dim = 4) = true ∧
        ∀ p ∈ [Proj.gateProj, .upProj, .downProj],
          (ownMxfp4 exactElements oneExpert tensors 0 0 1 p).toOption.map Tensor.shape =
            some [1, 32] := by
      rw [← htensors]
      decide +kernel
    obtain ⟨⟨gateUps, downs⟩, hbanks, hdim⟩ := (Option.any_eq_true _ _).mp hfacts.1
    have hstream : streamMoeExpertSourcesMxfp4 oneExpert tensors = .ok (gateUps, downs) :=
      toOption_eq_some.mp hbanks
    obtain ⟨c, s, hslot⟩ : ∃ c s, HoldsExpert oneExpert (mxfp4Sources gateUps downs) c s 0 0 :=
      exists_holdsExpert (List.cons_ne_nil _ _) Nat.one_pos Nat.one_pos
    obtain ⟨gate, hgate, -⟩ := exists_of_shape (hfacts.2 .gateProj (by decide))
    obtain ⟨up, hup, -⟩ := exists_of_shape (hfacts.2 .upProj (by decide))
    obtain ⟨down, hdown, -⟩ := exists_of_shape (hfacts.2 .downProj (by decide))
    obtain ⟨hgu, hdn⟩ := streamBanks_length hstream
    have hextracts := (fusedSlots_extract exactElements oneExpert tensors c s 0 0 gate up down).2.2
      gateUps downs 1 hstream hslot ⟨sameShapes_of_length hgu, sameShapes_of_length hgu⟩
      ⟨sameShapes_of_length hdn, sameShapes_of_length hdn⟩ (of_decide_eq_true hdim) hgate hup hdown
    exact ⟨gateUps, downs, c, s, gate, up, down, hstream, hslot, hextracts⟩

/-- A gate of more rows than the config says; blocks of the experts in two dimensions; a second layer
of fewer rows than the first, whose slots they are. -/
theorem fusedSlots_mismatch : Fp8Mismatch [128, 1] 64 ∧ Mxfp4Mismatch [[1, 2, 16]] 0 ∧
    Mxfp4Mismatch [[1, 2, 1, 16], [1, 1, 1, 16]] 1 := by
  have hfp8 : fp8Up [128, 1] 64 = some ([64, 1], [1, 1]) := by decide +kernel
  have hmxfp4 : mxfp4Up [[1, 2, 16]] 0 = some ([1], [32]) ∧
      mxfp4Up [[1, 2, 1, 16], [1, 1, 1, 16]] 1 = some ([1, 32], [0, 32]) := by
    decide +kernel
  exact ⟨fp8Mismatch_of_up hfp8 (by decide), mxfp4Mismatch_of_up hmxfp4.1 (by decide),
    mxfp4Mismatch_of_up hmxfp4.2 (by decide)⟩

end Runs

end FreeToken.Experts
