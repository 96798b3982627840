import FreeToken.Models.GGUF.ExpertsSpec
import FreeToken.Moe.ExpertRuns

/-!
# Lazy and eager experts

The streamer's banks hold, for each layer, the rows of that layer's packed tensors with bytes behind
them, and their types. So a slot that was filled from them is dequantized to the matrices that
`iter_weights` yields for the same expert.
-/

namespace FreeToken.GGUF

open Experts (MoeConfig)

/-! ### Names of layers' tensors -/

theorem dot_notMem_toDigits (n : Nat) : '.' ∉ Nat.toDigits 10 n := by
  intro h
  exact absurd (Nat.isDigit_of_mem_toDigits (by decide) (by decide) h) (by decide)

/-- The first `x` of a list cuts it in one way. -/
theorem append_cons_inj {α : Type} {x : α} {as bs cs ds : List α} (ha : x ∉ as) (hc : x ∉ cs)
    (h : as ++ x :: bs = cs ++ x :: ds) : as = cs ∧ bs = ds := by
  induction as generalizing cs with
  | nil =>
      cases cs with
      | nil => exact ⟨rfl, (List.cons.inj h).2⟩
      | cons c cs =>
          obtain ⟨rfl, -⟩ := List.cons.inj h
          exact absurd List.mem_cons_self hc
  | cons a as ih =>
      cases cs with
      | nil =>
          obtain ⟨rfl, -⟩ := List.cons.inj h
          exact absurd List.mem_cons_self ha
      | cons c cs =>
          obtain ⟨rfl, htail⟩ := List.cons.inj h
          rw [List.mem_cons, not_or] at ha hc
          obtain ⟨rfl, hrest⟩ := ih ha.2 hc.2 htail
          exact ⟨rfl, hrest⟩

theorem layerName_toList (layer : Nat) (suffix : String) :
    (layerName layer suffix).toList =
      "model.layers.".toList ++ (Nat.toDigits 10 layer ++ '.' :: suffix.toList) := by
  simp only [layerName, String.toList_append, List.append_assoc]
  rw [show toString layer = layer.repr from rfl, Nat.toList_repr]
  rfl

theorem layerName_inj {l l' : Nat} {s s' : String} (h : layerName l s = layerName l' s') :
    l = l' ∧ s = s' := by
  have hlist := congrArg String.toList h
  rw [layerName_toList, layerName_toList] at hlist
  obtain ⟨hdigits, hsuffix⟩ := append_cons_inj (dot_notMem_toDigits l) (dot_notMem_toDigits l')
    (List.append_cancel_left hlist)
  refine ⟨?_, String.toList_inj.mp hsuffix⟩
  rw [← Nat.ofDigitChars_ten_toDigits (n := l), hdigits, Nat.ofDigitChars_ten_toDigits]

/-- No other tensor of a layer has the name of a packed one. -/
theorem suffixMap_ne (arch : String) {entry : String × String} (h : entry ∈ suffixMap arch) :
    entry.2 ≠ "mlp.experts.gate_up_proj" ∧ entry.2 ≠ "mlp.experts.down_proj" := by
  rw [suffixMap] at h
  split at h
  · revert entry
    decide
  · revert entry
    decide

theorem topLevelMap_ne {entry : String × String} (h : entry ∈ topLevelMap) (layer : Nat)
    (suffix : String) : entry.2 ≠ layerName layer suffix := by
  intro heq
  have hlist := congrArg (fun s => s.toList.take 13) heq
  simp only [layerName_toList] at hlist
  rw [List.take_left' (by decide)] at hlist
  clear heq
  revert entry
  decide

/-! ### The layers that count -/

def suffixOf : ExpertBank → String
  | .gate => "ffn_gate_exps.weight"
  | .up => "ffn_up_exps.weight"
  | .down => "ffn_down_exps.weight"

theorem mem_wanted {entry : String × ExpertBank} : entry ∈ wanted ↔ entry.1 = suffixOf entry.2 := by
  obtain ⟨suffix, bank⟩ := entry
  cases bank <;> simp [wanted, suffixOf]

/-- `by_layer`, with all suffixes. -/
def layersOf (gguf : GGUFFile) : Except WeightError (Dict Nat Suffixes) :=
  architecture gguf.metadata >>= fun arch =>
    (realNumLayers gguf.metadata arch).map fun real => byLayer real (fun _ => true) gguf.tensors

/-- The packed tensor of a layer. -/
def expertTensor (gguf : GGUFFile) (layer : Nat) (bank : ExpertBank) : Option GGUFTensorInfo :=
  match layersOf gguf with
  | .ok layers => tensorAt layers layer (suffixOf bank)
  | .error _ => none

variable {sizes : QuantSizes} {file : List UInt8} {gguf : GGUFFile} {config : MoeConfig}

theorem layersOf_eq {arch : String} {real : Option Int} (harch : architecture gguf.metadata = .ok arch)
    (hreal : realNumLayers gguf.metadata arch = .ok real) :
    layersOf gguf = .ok (byLayer real (fun _ => true) gguf.tensors) := by
  rw [layersOf]
  apply bind_eq_ok.mpr
  exact ⟨arch, harch, map_eq_ok.mpr ⟨real, hreal, rfl⟩⟩

/-- What is yielded is the raw rows of the packed tensors. -/
theorem mem_iterMoeExpertRawBanks {b : RawBank}
    (h : .ok b ∈ iterMoeExpertRawBanks sizes file gguf) :
    ∃ numExperts info, expertTensor gguf b.layer b.bank = some info ∧
      rawBank sizes file numExperts info = .ok b.raw ∧ b.ggmlType = info.ggmlType := by
  rw [iterMoeExpertRawBanks] at h
  split at h
  · exact absurd (List.mem_singleton.mp h) (by simp)
  · cases h
  · next numExperts real hheader =>
      obtain ⟨arch, harch, hheader⟩ := bind_eq_ok.mp hheader
      obtain ⟨count, -, hheader⟩ := bind_eq_ok.mp hheader
      have hreal : realNumLayers gguf.metadata arch = .ok real := by
        cases count with
        | none => cases hheader
        | some n =>
            obtain ⟨real', hreal, heq⟩ := map_eq_ok.mp hheader
            cases heq
            exact hreal
      obtain ⟨layer, -, hlayer⟩ := List.mem_flatMap.mp h
      obtain ⟨entry, hentry, hb⟩ := List.mem_filterMap.mp hlayer
      obtain ⟨info, hinfo, hb⟩ := Option.map_eq_some_iff.mp hb
      obtain ⟨raw, hraw, rfl⟩ := map_eq_ok.mp hb
      refine ⟨numExperts, info, ?_, hraw, rfl⟩
      rw [expertTensor, layersOf_eq harch hreal]
      change tensorAt (byLayer real (fun _ => true) gguf.tensors) layer (suffixOf entry.2) = some info
      have hkeep : decide (entry.1 ∈ wanted.map Prod.fst) = true :=
        decide_eq_true (List.mem_map_of_mem hentry)
      rw [← mem_wanted.mp hentry]
      exact (tensorAt_byLayer real gguf.tensors
        layer hkeep).symm.trans hinfo

/-! ### What the streamer makes of the rows -/

/-- Each row of `raws` with bytes behind it. -/
def Extends (raws raws' : ByteRows) : Prop :=
  ∀ (e : Nat) (row : List UInt8), raws.rows[e]? = some row →
    ∃ more, raws'.rows[e]? = some (row ++ more)

theorem Extends.refl (raws : ByteRows) : Extends raws raws :=
  fun e row h => ⟨[], by rw [List.append_nil]; exact h⟩

theorem extends_pad (raws : ByteRows) (n : Nat) : Extends raws (raws.pad n) := by
  intro e row h
  refine ⟨List.replicate n 0, ?_⟩
  rw [ByteRows.pad, List.getElem?_map, h]
  rfl

/-- Padding keeps the banks in their places. -/
theorem padExpertRowsToMax_getElem? {rows : List ByteRows} {i : Nat} {r : ByteRows}
    (h : rows[i]? = some r) : ∃ r', (padExpertRowsToMax rows)[i]? = some r' ∧ Extends r r' := by
  rw [padExpertRowsToMax]
  split
  · exact ⟨r, h, Extends.refl r⟩
  · rw [List.getElem?_map, h, Option.map_some]
    refine ⟨_, rfl, ?_⟩
    split
    · exact Extends.refl r
    · exact extends_pad r _

theorem length_padExpertRowsToMax (rows : List ByteRows) :
    (padExpertRowsToMax rows).length = rows.length := by
  rw [padExpertRowsToMax]
  split
  · rfl
  · rw [List.length_map]

theorem get?_addRawBank {banks banks' : Dict Nat LayerBanks} {b : RawBank}
    (h : addRawBank config banks b = .ok banks') :
    b.layer < config.numLayers ∧ b.raw.rows.length = config.numExperts ∧
      ∀ layer bank, bankAt banks' bank layer =
        if b.layer = layer ∧ b.bank = bank then .ok (b.raw, b.ggmlType)
        else bankAt banks bank layer := by
  rw [addRawBank] at h
  split at h
  · cases h
  · next hlayer =>
      split at h
      · cases h
      · next hrows =>
          cases h
          refine ⟨Nat.lt_of_not_le hlayer, not_not.mp hrows, ?_⟩
          intro layer bank
          rw [bankAt, bankAt, Dict.get?_set]
          by_cases hl : b.layer = layer
          · subst hl
            rw [if_pos rfl, Option.bind_some, Dict.get?_set]
            by_cases hb : b.bank = bank
            · rw [if_pos hb, if_pos ⟨rfl, hb⟩]
            · rw [if_neg hb, if_neg fun h => hb h.2]
              cases banks.get? b.layer with
              | none => rfl
              | some _ => rfl
          · rw [if_neg hl, if_neg fun h => hl h.1]

/-- What the loop has collected came from the generator. -/
theorem bankAt_of_foldlM {bs : List RawBank} {banks : Dict Nat LayerBanks}
    (h : bs.foldlM (addRawBank config) .empty = .ok banks) {layer : Nat} {bank : ExpertBank}
    {entry : ByteRows × Nat} (hentry : bankAt banks bank layer = .ok entry) :
    ∃ b ∈ bs, b.layer = layer ∧ b.bank = bank ∧ entry = (b.raw, b.ggmlType) ∧
      b.raw.rows.length = config.numExperts := by
  induction bs using List.reverseRecOn generalizing banks with
  | nil =>
      cases h
      cases hentry
  | append_singleton bs b ih =>
      obtain ⟨banks₁, hbs, hb⟩ := foldlM_concat_ok.mp h
      obtain ⟨-, hrows, hget⟩ := get?_addRawBank hb
      rw [hget] at hentry
      split at hentry
      · next hhere =>
          cases hentry
          exact ⟨b, List.mem_append_right bs List.mem_cons_self, hhere.1, hhere.2, rfl, hrows⟩
      · obtain ⟨b', hmem, hb'⟩ := ih hbs hentry
        exact ⟨b', List.mem_append_left _ hmem, hb'⟩

theorem paddedBanks_eq_ok {n : Nat} {banks : Dict Nat LayerBanks} {bank : ExpertBank}
    {padded : List (ByteRows × Nat)} (h : paddedBanks n banks bank = .ok padded) :
    padded.length = n ∧ ∀ layer < n, ∃ raws ggmlType raws',
      bankAt banks bank layer = .ok (raws, ggmlType) ∧ padded[layer]? = some (raws', ggmlType) ∧
        Extends raws raws' := by
  obtain ⟨entries, hentries, rfl⟩ := map_eq_ok.mp h
  obtain ⟨hlen, hat⟩ := forall₂_range.mp (mapM_eq_ok.mp hentries)
  constructor
  · rw [List.length_zip, length_padExpertRowsToMax, List.length_map, List.length_map, Nat.min_self,
      hlen]
  · intro layer hlayer
    have hentry := List.getElem?_eq_getElem (hlen.symm ▸ hlayer : layer < entries.length)
    obtain ⟨raws', hraws', hext⟩ := padExpertRowsToMax_getElem?
      (show (entries.map Prod.fst)[layer]? = some _ by rw [List.getElem?_map, hentry]; rfl)
    refine ⟨_, _, raws', hat layer _ hentry, ?_, hext⟩
    rw [List.getElem?_zip_eq_some]
    exact ⟨hraws', by rw [List.getElem?_map, hentry]; rfl⟩

/-- A bank's raw rows and type, for the packed tensor that they were read from. -/
structure Streamed (sizes : QuantSizes) (file : List UInt8) (gguf : GGUFFile) (numExperts layer : Nat)
    (bank : ExpertBank) (info : GGUFTensorInfo) (before raws : ByteRows) (ggmlType : Nat) : Prop where
  tensor : expertTensor gguf layer bank = some info
  ggmlType_eq : ggmlType = info.ggmlType
  read : ∃ rowBytes raw, RawBankOf sizes file numExperts info rowBytes raw before
  padded : Extends before raws

theorem streamed_of_padded {bs : List RawBank} {banks : Dict Nat LayerBanks} {bank : ExpertBank}
    {padded : List (ByteRows × Nat)}
    (hmem : ∀ b ∈ bs, .ok b ∈ iterMoeExpertRawBanks sizes file gguf)
    (hbanks : bs.foldlM (addRawBank config) .empty = .ok banks)
    (h : paddedBanks config.numLayers banks bank = .ok padded) {layer : Nat}
    (hlayer : layer < config.numLayers) :
    ∃ raws ggmlType info before, padded[layer]? = some (raws, ggmlType) ∧
      Streamed sizes file gguf config.numExperts layer bank info before raws ggmlType := by
  obtain ⟨before, ggmlType, raws, hat, hpadded, hext⟩ := (paddedBanks_eq_ok h).2 layer hlayer
  obtain ⟨b, hb, rfl, rfl, heq, hrows⟩ := bankAt_of_foldlM hbanks hat
  cases heq
  obtain ⟨numExperts, info, htensor, hraw, htype⟩ := mem_iterMoeExpertRawBanks (hmem b hb)
  obtain ⟨n, rowBytes, raw, -, hof⟩ := rawBank_eq_ok.mp hraw
  have hn : n = config.numExperts := by
    rw [← hrows, hof.raws_eq, ByteRows.length_ofFlat]
  subst hn
  exact ⟨raws, b.ggmlType, info, b.raw, hpadded, htensor, htype, ⟨rowBytes, raw, hof⟩, hext⟩

/-- The banks of a layer, and the tensors that they were read from. -/
structure LayerStreamed (sizes : QuantSizes) (file : List UInt8) (gguf : GGUFFile)
    (numExperts layer : Nat) (gateUp : GgufKQuantGateUpBank) (down : GgufKQuantDownBank) : Prop where
  gate : ∃ info before, Streamed sizes file gguf numExperts layer .gate info before gateUp.rawGate
    gateUp.ggmlTypeGate
  up : ∃ info before, Streamed sizes file gguf numExperts layer .up info before gateUp.rawUp
    gateUp.ggmlTypeUp
  down : ∃ info before, Streamed sizes file gguf numExperts layer .down info before down.raw
    down.ggmlType

/-- A bank for each layer, read from the tensors of that layer. -/
theorem stream_banks {gateUp : List GgufKQuantGateUpBank} {down : List GgufKQuantDownBank}
    (h : streamMoeExpertSourcesGgufKquant sizes file gguf config = .ok (gateUp, down)) :
    gateUp.length = config.numLayers ∧ down.length = config.numLayers ∧
      ∀ layer < config.numLayers, ∃ gu dn, gateUp[layer]? = some gu ∧ down[layer]? = some dn ∧
        LayerStreamed sizes file gguf config.numExperts layer gu dn := by
  obtain ⟨banks, hbanks, h⟩ := bind_eq_ok.mp h
  obtain ⟨hfin, hfold⟩ := consume_eq_ok.mp hbanks
  have hmem : ∀ b ∈ yielded (iterMoeExpertRawBanks sizes file gguf),
      .ok b ∈ iterMoeExpertRawBanks sizes file gguf :=
    fun b hb => (mem_yielded_of_finishes hfin).mp hb
  change (if _ then _ else _) = _ at h
  split at h
  · cases h
  obtain ⟨gates, hgates, h⟩ := bind_eq_ok.mp h
  obtain ⟨ups, hups, h⟩ := bind_eq_ok.mp h
  obtain ⟨downs, hdowns, h⟩ := bind_eq_ok.mp h
  cases h
  refine ⟨?_, ?_, ?_⟩
  · rw [List.length_zipWith, (paddedBanks_eq_ok hgates).1, (paddedBanks_eq_ok hups).1, Nat.min_self]
  · rw [List.length_map, (paddedBanks_eq_ok hdowns).1]
  · intro layer hlayer
    obtain ⟨rawGate, typeGate, infoGate, beforeGate, hgate, hgateOf⟩ :=
      streamed_of_padded hmem hfold hgates hlayer
    obtain ⟨rawUp, typeUp, infoUp, beforeUp, hup, hupOf⟩ :=
      streamed_of_padded hmem hfold hups hlayer
    obtain ⟨rawDown, typeDown, infoDown, beforeDown, hdown, hdownOf⟩ :=
      streamed_of_padded hmem hfold hdowns hlayer
    refine ⟨⟨rawGate, typeGate, rawUp, typeUp⟩, ⟨rawDown, typeDown⟩, ?_, ?_, ⟨_, _, hgateOf⟩,
      ⟨_, _, hupOf⟩, _, _, hdownOf⟩
    · rw [List.getElem?_zipWith, hgate, hup]
    · rw [List.getElem?_map, hdown]
      rfl

/-! ### What `iter_weights` yields for them -/

section Eager

variable {φ ρ : Type} {F : Floats φ ρ}

/-- The routed experts of a layer are among the weights. -/
theorem mem_iterWeights_of_expertWeights {layers : Dict Nat Suffixes}
    (hlayers : layersOf gguf = .ok layers) {layer : Nat} (hlayer : layer ∈ sortedLayers layers)
    {attempt : Except WeightError (String × Tensor ρ)}
    (h : attempt ∈ expertWeights F sizes file layer ((layers.get? layer).getD .empty))
    (includeNonMoe : Bool) : attempt ∈ iterWeights F sizes file gguf true includeNonMoe := by
  obtain ⟨arch, harch, hmap⟩ := bind_eq_ok.mp hlayers
  obtain ⟨real, hreal, rfl⟩ := map_eq_ok.mp hmap
  have hheader : (architecture gguf.metadata >>= fun arch =>
      (realNumLayers gguf.metadata arch).map fun real => (arch, real)) = .ok (arch, real) :=
    bind_eq_ok.mpr ⟨arch, harch, map_eq_ok.mpr ⟨real, hreal, rfl⟩⟩
  rw [iterWeights, hheader]
  apply List.mem_append_right
  apply List.mem_flatMap.mpr
  exact ⟨layer, hlayer, List.mem_append_right _ h⟩

/-- A weight with the name of a packed tensor is made of that layer's packed tensors. -/
theorem mem_expertWeights {layer : Nat} {suffix : String} {t : Tensor ρ} {includeNonMoe : Bool}
    (hsuffix : suffix = "mlp.experts.gate_up_proj" ∨ suffix = "mlp.experts.down_proj")
    (h : .ok (layerName layer suffix, t) ∈ iterWeights F sizes file gguf true includeNonMoe) :
    ∃ layers, layersOf gguf = .ok layers ∧
      .ok (layerName layer suffix, t) ∈
        expertWeights F sizes file layer ((layers.get? layer).getD .empty) := by
  rw [iterWeights] at h
  split at h
  · exact absurd (List.mem_singleton.mp h) (by simp)
  · next arch real hheader =>
      obtain ⟨arch', harch, hheader⟩ := bind_eq_ok.mp hheader
      obtain ⟨real', hreal, heq⟩ := map_eq_ok.mp hheader
      cases heq
      refine ⟨_, layersOf_eq harch hreal, ?_⟩
      rcases List.mem_append.mp h with htop | hlayers
      · split at htop
        · obtain ⟨entry, hentry, hweight⟩ := List.mem_filterMap.mp htop
          obtain ⟨info, -, hweight⟩ := Option.map_eq_some_iff.mp hweight
          obtain ⟨_, -, heq⟩ := map_eq_ok.mp hweight
          exact absurd (Prod.mk.inj heq).1 (topLevelMap_ne hentry layer suffix)
        · cases htop
      obtain ⟨l, -, hl⟩ := List.mem_flatMap.mp hlayers
      rcases List.mem_append.mp hl with hdense | hexperts
      · split at hdense
        · obtain ⟨entry, hentry, hweight⟩ := List.mem_filterMap.mp hdense
          obtain ⟨info, -, hweight⟩ := Option.map_eq_some_iff.mp hweight
          obtain ⟨_, -, hweight⟩ := bind_eq_ok.mp hweight
          obtain ⟨_, -, heq⟩ := map_eq_ok.mp hweight
          have hname := (layerName_inj (Prod.mk.inj heq).1).2
          obtain ⟨hgateUp, hdown⟩ := suffixMap_ne arch hentry
          rcases hsuffix with rfl | rfl
          · exact absurd hname hgateUp
          · exact absurd hname hdown
        · cases hdense
      rw [if_pos rfl] at hexperts
      -- The names in it are those of layer `l`, so `l` is the layer.
      have hl : l = layer := by
        rcases List.mem_append.mp hexperts with hmem | hmem
        · split at hmem
          · obtain ⟨_, -, heq⟩ := map_eq_ok.mp (List.mem_singleton.mp hmem).symm
            exact (layerName_inj (Prod.mk.inj heq).1).1
          · cases hmem
        · split at hmem
          · obtain ⟨_, -, heq⟩ := map_eq_ok.mp (List.mem_singleton.mp hmem).symm
            exact (layerName_inj (Prod.mk.inj heq).1).1
          · cases hmem
      subst hl
      exact hexperts

theorem catGateUp_of_mem {layer : Nat} {t : Tensor ρ} {includeNonMoe : Bool}
    (h : .ok (layerName layer "mlp.experts.gate_up_proj", t) ∈
      iterWeights F sizes file gguf true includeNonMoe) :
    ∃ gate up, expertTensor gguf layer .gate = some gate ∧ expertTensor gguf layer .up = some up ∧
      catGateUp F sizes file gate up = .ok t := by
  obtain ⟨layers, hlayers, hmem⟩ := mem_expertWeights (.inl rfl) h
  rcases List.mem_append.mp hmem with hmem | hmem
  · split at hmem
    · next gate up hgate hup =>
        obtain ⟨t', ht, heq⟩ := map_eq_ok.mp (List.mem_singleton.mp hmem).symm
        cases (Prod.mk.inj heq).2
        refine ⟨gate, up, ?_, ?_, ht⟩
        · rw [expertTensor, hlayers]
          exact hgate
        · rw [expertTensor, hlayers]
          exact hup
    · cases hmem
  · split at hmem
    · obtain ⟨_, -, heq⟩ := map_eq_ok.mp (List.mem_singleton.mp hmem).symm
      exact absurd (layerName_inj (Prod.mk.inj heq).1).2 (by decide)
    · cases hmem

theorem readDown_of_mem {layer : Nat} {t : Tensor ρ} {includeNonMoe : Bool}
    (h : .ok (layerName layer "mlp.experts.down_proj", t) ∈
      iterWeights F sizes file gguf true includeNonMoe) :
    ∃ down, expertTensor gguf layer .down = some down ∧ readAndDequant F sizes file down = .ok t := by
  obtain ⟨layers, hlayers, hmem⟩ := mem_expertWeights (.inr rfl) h
  rcases List.mem_append.mp hmem with hmem | hmem
  · split at hmem
    · obtain ⟨_, -, heq⟩ := map_eq_ok.mp (List.mem_singleton.mp hmem).symm
      exact absurd (layerName_inj (Prod.mk.inj heq).1).2 (by decide)
    · cases hmem
  · split at hmem
    · next down hdown =>
        obtain ⟨t', ht, heq⟩ := map_eq_ok.mp (List.mem_singleton.mp hmem).symm
        cases (Prod.mk.inj heq).2
        refine ⟨down, ?_, ht⟩
        rw [expertTensor, hlayers]
        exact hdown
    · cases hmem

theorem exists_layersOf {layer : Nat} {bank : ExpertBank} {info : GGUFTensorInfo}
    (h : expertTensor gguf layer bank = some info) :
    ∃ layers, layersOf gguf = .ok layers ∧ tensorAt layers layer (suffixOf bank) = some info := by
  rw [expertTensor] at h
  split at h
  · next layers hlayers => exact ⟨layers, hlayers, h⟩
  · cases h

theorem mem_of_catGateUp {layer : Nat} {gate up : GGUFTensorInfo} {t : Tensor ρ}
    (hgate : expertTensor gguf layer .gate = some gate) (hup : expertTensor gguf layer .up = some up)
    (ht : catGateUp F sizes file gate up = .ok t) (includeNonMoe : Bool) :
    .ok (layerName layer "mlp.experts.gate_up_proj", t) ∈
      iterWeights F sizes file gguf true includeNonMoe := by
  obtain ⟨layers, hlayers, hgate⟩ := exists_layersOf hgate
  obtain ⟨layers', hlayers', hup⟩ := exists_layersOf hup
  cases hlayers.symm.trans hlayers'
  apply mem_iterWeights_of_expertWeights hlayers (mem_sortedLayers_of_tensorAt hgate)
  have hgate' : ((layers.get? layer).getD .empty).get? "ffn_gate_exps.weight" = some gate := hgate
  have hup' : ((layers.get? layer).getD .empty).get? "ffn_up_exps.weight" = some up := hup
  rw [expertWeights, hgate', hup']
  apply List.mem_append_left
  exact List.mem_singleton.mpr (map_eq_ok.mpr ⟨t, ht, rfl⟩).symm

theorem mem_of_readDown {layer : Nat} {down : GGUFTensorInfo} {t : Tensor ρ}
    (hdown : expertTensor gguf layer .down = some down)
    (ht : readAndDequant F sizes file down = .ok t) (includeNonMoe : Bool) :
    .ok (layerName layer "mlp.experts.down_proj", t) ∈
      iterWeights F sizes file gguf true includeNonMoe := by
  obtain ⟨layers, hlayers, hdown⟩ := exists_layersOf hdown
  apply mem_iterWeights_of_expertWeights hlayers (mem_sortedLayers_of_tensorAt hdown)
  have hdown' : ((layers.get? layer).getD .empty).get? "ffn_down_exps.weight" = some down := hdown
  rw [expertWeights, hdown']
  apply List.mem_append_right
  exact List.mem_singleton.mpr (map_eq_ok.mpr ⟨t, ht, rfl⟩).symm

/-! ### Both ways -/

/-- The packed tensors have the shapes of the model. -/
structure ExpertShapes (gguf : GGUFFile) (numExperts hiddenSize moeIntermediateSize : Nat) : Prop where
  gate : ∀ layer info, expertTensor gguf layer .gate = some info →
    info.shape = [hiddenSize, moeIntermediateSize, numExperts]
  up : ∀ layer info, expertTensor gguf layer .up = some info →
    info.shape = [hiddenSize, moeIntermediateSize, numExperts]
  down : ∀ layer info, expertTensor gguf layer .down = some info →
    info.shape = [moeIntermediateSize, hiddenSize, numExperts]

/-- The matrices of expert `e`, and its rows in the two weights of its layer. -/
structure SameExpert (F : Floats φ ρ) (dtype : Dtype) (numExperts hiddenSize moeIntermediateSize : Nat)
    (e : Nat) (gate up down gateUpProj downProj : Tensor ρ) : Prop where
  gateUpProj_shape : gateUpProj.shape = [numExperts, 2 * moeIntermediateSize, hiddenSize]
  downProj_shape : downProj.shape = [numExperts, hiddenSize, moeIntermediateSize]
  gate : SameMatrix F dtype moeIntermediateSize hiddenSize gate fun i j => gateUpProj.get [e, i, j]
  up : SameMatrix F dtype moeIntermediateSize hiddenSize up fun i j =>
    gateUpProj.get [e, moeIntermediateSize + i, j]
  down : SameMatrix F dtype hiddenSize moeIntermediateSize down fun i j => downProj.get [e, i, j]

/-- Gate, then up, along dimension 1. -/
theorem cat_gateUp {n rows cols : Nat} {gate up : Tensor ρ} (hgate : gate.shape = [n, rows, cols])
    (hup : up.shape = [n, rows, cols]) :
    Tensor.cat 1 [gate, up] = some (Tensor.join 1 gate up) := by
  have hjoin : Tensor.cat₂ 1 gate up = some (Tensor.join 1 gate up) := by
    rw [Tensor.cat₂, if_neg (by rw [hup]; simp), if_neg (by rw [hgate]; simp), if_pos]
    refine ⟨?_, ?_, ?_⟩
    · rw [Tensor.dim, hgate]
      exact Nat.succ_lt_succ (Nat.succ_pos 1)
    · rw [Tensor.dim, hup]
      exact Nat.succ_lt_succ (Nat.succ_pos 1)
    · rw [hgate, hup]
  rw [Tensor.cat, List.foldlM_cons, hjoin, Option.bind_eq_bind, Option.bind_some, List.foldlM_nil]
  change Option.filter _ (some (Tensor.join 1 gate up)) = _
  rw [Option.filter_some, if_pos]
  simp [Tensor.dim, Tensor.join, hgate]

theorem catGateUp_eq_ok {gate up : GGUFTensorInfo} {t : Tensor ρ}
    (h : catGateUp F sizes file gate up = .ok t) :
    ∃ g u, readAndDequant F sizes file gate = .ok g ∧ readAndDequant F sizes file up = .ok u ∧
      Tensor.cat 1 [g, u] = some t := by
  obtain ⟨g, hg, h⟩ := bind_eq_ok.mp h
  obtain ⟨u, hu, h⟩ := bind_eq_ok.mp h
  refine ⟨g, u, hg, hu, ?_⟩
  split at h
  · cases h
  · next t' ht =>
      cases h
      exact ht

variable {n layer : Nat} {gateUp : GgufKQuantGateUpBank} {down : GgufKQuantDownBank}

theorem Streamed.bothWays {bank : ExpertBank} {info : GGUFTensorInfo} {before raws : ByteRows}
    {ggmlType rows cols : Nat} (h : Streamed sizes file gguf n layer bank info before raws ggmlType)
    (hsizes : SizesAgree F sizes) (hn : 0 < n) (hshape : info.shape = [cols, rows, n])
    {kernel : Kernel φ} (hkernel : kernelOf F info.ggmlType = some kernel) :
    ∃ t, BothWays F sizes file n rows cols info raws t := by
  obtain ⟨rowBytes, raw, hof⟩ := h.read
  obtain ⟨t, ht⟩ := hof.bothWays hsizes hn hshape hkernel
  refine ⟨t, ht.eager_eq, ht.shape_eq, ?_⟩
  intro e he
  obtain ⟨row, hrow, hlazy⟩ := ht.lazy e he
  obtain ⟨more, hmore⟩ := h.padded e row hrow
  refine ⟨row ++ more, hmore, ?_⟩
  intro dtype more'
  rw [List.append_assoc]
  exact hlazy dtype (more ++ more')

/-- What the slot of an expert holds in a bank, and what it is dequantized to. -/
theorem BothWays.of_slot {rows cols e : Nat} {info : GGUFTensorInfo} {raws : ByteRows} {t : Tensor ρ}
    (h : BothWays F sizes file n rows cols info raws t) (he : e < n) {banks : List ByteRows}
    (hraws : banks[layer]? = some raws) (dtype : Dtype) :
    ∃ m, SlotWeightAccessor.dequantRow F sizes (hostRow banks layer e).bytes info.ggmlType rows cols
        dtype = .ok m ∧ SameMatrix F dtype rows cols m fun i j => t.get [e, i, j] := by
  obtain ⟨row, hrow, hlazy⟩ := h.lazy e he
  obtain ⟨m, hm, hsame⟩ := hlazy dtype []
  refine ⟨m, ?_, hsame⟩
  rw [hostRow, hraws, Option.bind_some, hrow, Option.getD_some]
  rwa [List.append_nil] at hm

/-- A slot that holds an expert has its rows of the three banks. -/
structure SlotRows (a : SlotWeightAccessor) (gateUp : List GgufKQuantGateUpBank)
    (down : List GgufKQuantDownBank) (s layer e : Nat) : Prop where
  gate : a.slotRow "raw_gate" s = .ok (hostRow (gateUp.map (·.rawGate)) layer e).bytes
  up : a.slotRow "raw_up" s = .ok (hostRow (gateUp.map (·.rawUp)) layer e).bytes
  down : a.slotRow "raw_down" s = .ok (hostRow (down.map (·.raw)) layer e).bytes

theorem slotRows_of_coherent {c : OffloadMoeCache ByteRow} (hc : c.Coherent)
    {gateUp : List GgufKQuantGateUpBank} {down : List GgufKQuantDownBank}
    (hsources : c.sources = bankSources gateUp down) {a : SlotWeightAccessor} (ha : a.banks = c.banks)
    {s layer e : Nat} (he : e < c.numExperts) (hs : c.idOfSlot s = some (c.flatId layer e)) :
    SlotRows a gateUp down s layer e := by
  obtain ⟨gateBank, rest, hbanks, hgate, hrest⟩ := List.map_eq_cons_iff.mp hsources
  obtain ⟨upBank, rest', rfl, hup, hrest'⟩ := List.map_eq_cons_iff.mp hrest
  obtain ⟨downBank, rest'', rfl, hdown, hnil⟩ := List.map_eq_cons_iff.mp hrest'
  cases List.map_eq_nil_iff.mp hnil
  have hrow : ∀ b ∈ c.banks, b.cache s = b.host layer e := by
    intro b hb
    rw [hc.rows b hb s _ hs, OffloadMoeCache.flatId_div he, OffloadMoeCache.flatId_mod he]
  rw [hbanks] at hrow
  obtain ⟨hgateName, hgateHost⟩ := Prod.mk.inj hgate
  obtain ⟨hupName, hupHost⟩ := Prod.mk.inj hup
  obtain ⟨hdownName, hdownHost⟩ := Prod.mk.inj hdown
  constructor
  · have hcache := hrow gateBank (by simp)
    simp [SlotWeightAccessor.slotRow, ha, hbanks, hgateName, hcache, hgateHost]
  · have hcache := hrow upBank (by simp)
    simp [SlotWeightAccessor.slotRow, ha, hbanks, hgateName, hupName, hcache, hupHost]
  · have hcache := hrow downBank (by simp)
    simp [SlotWeightAccessor.slotRow, ha, hbanks, hgateName, hupName, hdownName, hcache, hdownHost]

/-- The kernels of the three types of a layer. -/
structure Kernels (F : Floats φ ρ) (gate up down : GGUFTensorInfo) : Prop where
  gate : ∃ kernel, kernelOf F gate.ggmlType = some kernel
  up : ∃ kernel, kernelOf F up.ggmlType = some kernel
  down : ∃ kernel, kernelOf F down.ggmlType = some kernel

/-- With kernels for its types, an expert is there both ways. -/
theorem sameExpert_of_kernels {gateUps : List GgufKQuantGateUpBank} {downs : List GgufKQuantDownBank}
    {hiddenSize moeIntermediateSize e s : Nat} {a : SlotWeightAccessor}
    {gateInfo upInfo downInfo : GGUFTensorInfo} {gateBefore upBefore downBefore : ByteRows}
    (hsizes : SizesAgree F sizes) (hn : 0 < n)
    (hshapes : ExpertShapes gguf n hiddenSize moeIntermediateSize) (hgu : gateUps[layer]? = some gateUp)
    (hdn : downs[layer]? = some down)
    (hgate : Streamed sizes file gguf n layer .gate gateInfo gateBefore gateUp.rawGate
      gateUp.ggmlTypeGate)
    (hup : Streamed sizes file gguf n layer .up upInfo upBefore gateUp.rawUp gateUp.ggmlTypeUp)
    (hdown : Streamed sizes file gguf n layer .down downInfo downBefore down.raw down.ggmlType)
    (hrows : SlotRows a gateUps downs s layer e) (he : e < n)
    (ha : a = ⟨a.banks, a.dtype, gateUp.ggmlTypeGate, gateUp.ggmlTypeUp, down.ggmlType, hiddenSize,
      moeIntermediateSize⟩)
    (hkernels : Kernels F gateInfo upInfo downInfo) :
    ∃ gate up dn gateUpProj downProj, a.get F sizes s = .ok (gate, up, dn) ∧
      catGateUp F sizes file gateInfo upInfo = .ok gateUpProj ∧
      readAndDequant F sizes file downInfo = .ok downProj ∧
      SameExpert F a.dtype n hiddenSize moeIntermediateSize e gate up dn gateUpProj downProj := by
  obtain ⟨_, hgateKernel⟩ := hkernels.gate
  obtain ⟨_, hupKernel⟩ := hkernels.up
  obtain ⟨_, hdownKernel⟩ := hkernels.down
  obtain ⟨g, hg⟩ := hgate.bothWays hsizes hn (hshapes.gate _ _ hgate.tensor) hgateKernel
  obtain ⟨u, hu⟩ := hup.bothWays hsizes hn (hshapes.up _ _ hup.tensor) hupKernel
  obtain ⟨d, hd⟩ := hdown.bothWays hsizes hn (hshapes.down _ _ hdown.tensor) hdownKernel
  obtain ⟨gate, hgateRow, hgateSame⟩ := hg.of_slot he
    (show (gateUps.map (·.rawGate))[layer]? = some gateUp.rawGate by
      rw [List.getElem?_map, hgu]; rfl) a.dtype
  obtain ⟨up, hupRow, hupSame⟩ := hu.of_slot he
    (show (gateUps.map (·.rawUp))[layer]? = some gateUp.rawUp by
      rw [List.getElem?_map, hgu]; rfl) a.dtype
  obtain ⟨dn, hdownRow, hdownSame⟩ := hd.of_slot he
    (show (downs.map (·.raw))[layer]? = some down.raw by rw [List.getElem?_map, hdn]; rfl) a.dtype
  rw [← hgate.ggmlType_eq] at hgateRow
  rw [← hup.ggmlType_eq] at hupRow
  rw [← hdown.ggmlType_eq] at hdownRow
  have hcat := cat_gateUp hg.shape_eq hu.shape_eq
  have hsize : g.size 1 = moeIntermediateSize := by
    rw [Tensor.size, hg.shape_eq]
    rfl
  refine ⟨gate, up, dn, Tensor.join 1 g u, d, ?_, ?_, hd.eager_eq, ?_⟩
  · rw [ha] at hrows hgateRow hupRow hdownRow ⊢
    apply bind_eq_ok.mpr
    refine ⟨_, hrows.gate, bind_eq_ok.mpr ⟨gate, hgateRow, bind_eq_ok.mpr ⟨_, hrows.up, ?_⟩⟩⟩
    apply bind_eq_ok.mpr
    refine ⟨up, hupRow, bind_eq_ok.mpr ⟨_, hrows.down, map_eq_ok.mpr ⟨dn, hdownRow, rfl⟩⟩⟩
  · apply bind_eq_ok.mpr
    refine ⟨g, hg.eager_eq, bind_eq_ok.mpr ⟨u, hu.eager_eq, ?_⟩⟩
    rw [hcat]
  · refine ⟨?_, hd.shape_eq, ?_, ?_, hdownSame⟩
    · rw [Tensor.join, Tensor.size, Tensor.size, hg.shape_eq, hu.shape_eq, Nat.two_mul]
      rfl
    · apply hgateSame.congr
      intro i hi j _
      change (if i < g.size 1 then _ else _) = _
      rw [hsize, if_pos hi]
    · apply hupSame.congr
      intro i _ j _
      change (if moeIntermediateSize + i < g.size 1 then _ else u.get _) = _
      rw [hsize, if_neg (Nat.not_lt.mpr (Nat.le_add_right _ _))]
      change u.get [e, moeIntermediateSize + i - moeIntermediateSize, j] = _
      rw [Nat.add_sub_cancel_left]

theorem kernels_of_eager {gateInfo upInfo downInfo : GGUFTensorInfo} {gateUpProj downProj : Tensor ρ}
    (hcat : catGateUp F sizes file gateInfo upInfo = .ok gateUpProj)
    (hdown : readAndDequant F sizes file downInfo = .ok downProj) :
    Kernels F gateInfo upInfo downInfo := by
  obtain ⟨g, u, hg, hu, -⟩ := catGateUp_eq_ok hcat
  exact ⟨readAndDequant_eq_ok hg, readAndDequant_eq_ok hu, readAndDequant_eq_ok hdown⟩

theorem kernels_of_get {a : SlotWeightAccessor} {s : Nat} {gate up down : Tensor ρ}
    (h : a.get F sizes s = .ok (gate, up, down)) :
    (∃ kernel, kernelOf F a.ggmlTypeGate = some kernel) ∧
      (∃ kernel, kernelOf F a.ggmlTypeUp = some kernel) ∧
      ∃ kernel, kernelOf F a.ggmlTypeDown = some kernel := by
  obtain ⟨_, -, h⟩ := bind_eq_ok.mp h
  obtain ⟨_, hgate, h⟩ := bind_eq_ok.mp h
  obtain ⟨_, -, h⟩ := bind_eq_ok.mp h
  obtain ⟨_, hup, h⟩ := bind_eq_ok.mp h
  obtain ⟨_, -, h⟩ := bind_eq_ok.mp h
  obtain ⟨_, hdown, -⟩ := map_eq_ok.mp h
  exact ⟨dequantRow_eq_ok hgate, dequantRow_eq_ok hup, dequantRow_eq_ok hdown⟩

/-- In every state of the cache that serves the streamed banks, the matrices of the slot of an
expert are the expert's rows of the weights that `iter_weights` yields, in the accessor's dtype; and
when one of the two can dequantize the layer, so can the other. A model without a size has no
accessor. -/
theorem slotWeights_sameExpert {hiddenSize moeIntermediateSize cacheSize s e : Nat}
    {gateUps : List GgufKQuantGateUpBank} {downs : List GgufKQuantDownBank}
    {c0 c : OffloadMoeCache ByteRow} {calls : List OffloadMoeCache.Call}
    (hsizes : SizesAgree F sizes)
    (hshapes : ExpertShapes gguf config.numExperts hiddenSize moeIntermediateSize)
    (hstream : streamMoeExpertSourcesGgufKquant sizes file gguf config = .ok (gateUps, downs))
    (hnew : OffloadMoeCache.new config.numLayers config.numExperts cacheSize
      (bankSources gateUps downs) = .ok c0)
    (hrun : Run.exec OffloadMoeCache.next c0 calls = some c) (hlayer : layer < config.numLayers)
    (he : e < config.numExperts) (hs : c.idOfSlot s = some (c.flatId layer e)) (dtype : Dtype)
    (includeNonMoe : Bool) :
    (hiddenSize = 0 ∨ moeIntermediateSize = 0) ∧
        SlotWeightAccessor.new c gateUps downs hiddenSize moeIntermediateSize dtype layer =
          .error .sizesUnset ∨
      ∃ a, SlotWeightAccessor.new c gateUps downs hiddenSize moeIntermediateSize dtype layer =
          .ok a ∧
        (∀ gateUpProj downProj,
          (layerName layer "mlp.experts.gate_up_proj", gateUpProj) ∈
            yielded (iterWeights F sizes file gguf true includeNonMoe) →
          (layerName layer "mlp.experts.down_proj", downProj) ∈
            yielded (iterWeights F sizes file gguf true includeNonMoe) →
          ∃ gate up down, a.get F sizes s = .ok (gate, up, down) ∧
            SameExpert F dtype config.numExperts hiddenSize moeIntermediateSize e gate up down
              gateUpProj downProj) ∧
        ∀ gate up down, a.get F sizes s = .ok (gate, up, down) →
          ∃ gateUpProj downProj,
            .ok (layerName layer "mlp.experts.gate_up_proj", gateUpProj) ∈
              iterWeights F sizes file gguf true includeNonMoe ∧
            .ok (layerName layer "mlp.experts.down_proj", downProj) ∈
              iterWeights F sizes file gguf true includeNonMoe ∧
            SameExpert F dtype config.numExperts hiddenSize moeIntermediateSize e gate up down
              gateUpProj downProj := by
  obtain ⟨-, -, hbanks⟩ := stream_banks hstream
  obtain ⟨gu, dn, hgu, hdn, hof⟩ := hbanks layer hlayer
  obtain ⟨gateInfo, gateBefore, hgate⟩ := hof.gate
  obtain ⟨upInfo, upBefore, hup⟩ := hof.up
  obtain ⟨downInfo, downBefore, hdown⟩ := hof.down
  obtain ⟨hc, hfits⟩ := OffloadMoeCache.run_coherent hnew hrun
  let a : SlotWeightAccessor := ⟨c.banks, dtype, gu.ggmlTypeGate, gu.ggmlTypeUp, dn.ggmlType,
    hiddenSize, moeIntermediateSize⟩
  have hrows : SlotRows a gateUps downs s layer e :=
    slotRows_of_coherent hc hfits.sources_eq rfl (hfits.numExperts_eq.symm ▸ he) hs
  have hsame := sameExpert_of_kernels hsizes config.numExperts_pos hshapes hgu hdn hgate hup hdown
    hrows he rfl
  by_cases hunset : hiddenSize = 0 ∨ moeIntermediateSize = 0
  · exact .inl ⟨hunset, by simp [SlotWeightAccessor.new, hgu, hdn, hunset]⟩
  refine .inr ⟨a, by simp [SlotWeightAccessor.new, hgu, hdn, hunset, a], ?_, ?_⟩
  · intro gateUpProj downProj hgateUp hdownProj
    obtain ⟨gateInfo', upInfo', hgate', hup', hcat⟩ := catGateUp_of_mem (mem_of_mem_yielded hgateUp)
    obtain ⟨downInfo', hdown', hread⟩ := readDown_of_mem (mem_of_mem_yielded hdownProj)
    cases hgate.tensor.symm.trans hgate'
    cases hup.tensor.symm.trans hup'
    cases hdown.tensor.symm.trans hdown'
    obtain ⟨gate, up, down, gateUpProj', downProj', hget, hcat', hread', hexpert⟩ :=
      hsame (kernels_of_eager hcat hread)
    cases hcat.symm.trans hcat'
    cases hread.symm.trans hread'
    exact ⟨gate, up, down, hget, hexpert⟩
  · intro gate up down hget
    obtain ⟨hgateKernel, hupKernel, hdownKernel⟩ := kernels_of_get hget
    have hkernels : Kernels F gateInfo upInfo downInfo := by
      refine ⟨?_, ?_, ?_⟩
      · rw [← hgate.ggmlType_eq]
        exact hgateKernel
      · rw [← hup.ggmlType_eq]
        exact hupKernel
      · rw [← hdown.ggmlType_eq]
        exact hdownKernel
    obtain ⟨gate', up', down', gateUpProj, downProj, hget', hcat, hread, hexpert⟩ := hsame hkernels
    cases hget.symm.trans hget'
    exact ⟨gateUpProj, downProj, mem_of_catGateUp hgate.tensor hup.tensor hcat includeNonMoe,
      mem_of_readDown hdown.tensor hread includeNonMoe, hexpert⟩

end Eager

/-! ### A file of two types -/

/-- float32 numbers as their bits, as far as no arithmetic is done with them. -/
def bitFloats : Floats Nat Nat where
  ofSingle := fun a b c d => a + 256 * (b + 256 * (c + 256 * d))
  ofHalf := fun _ _ => 0
  ofInt := fun _ => 0
  mul := fun x _ => x
  sub := fun x _ => x
  cast := fun dtype bits =>
    if dtype = .bfloat16 then (bits + 0x7FFF + bits / 0x10000 % 2) / 0x10000 * 0x10000 else bits
  neg := id
  log := id
  subOne := id

/-- The sizes of the types that have kernels. -/
def kernelSizes : QuantSizes := fun ggmlType =>
  (kernelOf bitFloats ggmlType).map fun kernel =>
    ⟨kernel.blockSize, kernel.typeSize, kernel.blockSize_pos⟩

theorem kernelSizes_agree : SizesAgree bitFloats kernelSizes := by
  intro ggmlType kernel hkernel
  exact ⟨_, by rw [kernelSizes, hkernel]; rfl, rfl, rfl⟩

/-- Two layers of one expert; the second one has a smaller type for `down`. -/
def mixedTypes : GGUFFile where
  path := "mixed.gguf"
  version := 3
  metadata := Dict.ofPairs [("general.architecture", .str "a"), ("a.block_count", .int 2),
    ("a.expert_count", .int 1)]
  tensors := Dict.ofPairs [
    ("blk.0.ffn_gate_exps.weight", ⟨"blk.0.ffn_gate_exps.weight", [1, 1, 1], 0, 0⟩),
    ("blk.0.ffn_up_exps.weight", ⟨"blk.0.ffn_up_exps.weight", [1, 1, 1], 0, 4⟩),
    ("blk.0.ffn_down_exps.weight", ⟨"blk.0.ffn_down_exps.weight", [1, 1, 1], 0, 0⟩),
    ("blk.1.ffn_gate_exps.weight", ⟨"blk.1.ffn_gate_exps.weight", [1, 1, 1], 0, 4⟩),
    ("blk.1.ffn_up_exps.weight", ⟨"blk.1.ffn_up_exps.weight", [1, 1, 1], 0, 0⟩),
    ("blk.1.ffn_down_exps.weight", ⟨"blk.1.ffn_down_exps.weight", [1, 1, 1], 30, 2⟩)]
  tensorDataStart := 0

/-- A little more than 1, and 2. -/
def mixedTypesData : List UInt8 := [0x54, 0x00, 0x80, 0x3F, 0x00, 0x00, 0x00, 0x40]

def twoDense : MoeConfig := ⟨2, 1, 0, Nat.one_pos⟩

theorem mem_entries_of_get? {κ α : Type} [DecidableEq κ] {d : Dict κ α} {k : κ} {a : α}
    (h : d.get? k = some a) : (k, a) ∈ d.entries := by
  obtain ⟨entry, hfind, rfl⟩ := Option.map_eq_some_iff.mp h
  have hkey := List.find?_some hfind
  obtain rfl := of_decide_eq_true hkey
  exact List.mem_of_find?_eq_some hfind

theorem mixedTypes_shape {layer : Nat} {bank : ExpertBank} {info : GGUFTensorInfo}
    (h : expertTensor mixedTypes layer bank = some info) : info.shape = [1, 1, 1] := by
  have hall : ∀ entry ∈ (byLayer (some 2) (fun _ => true) mixedTypes.tensors).entries,
      ∀ tensor ∈ entry.2.entries, tensor.2.shape = [1, 1, 1] := by decide +kernel
  change tensorAt (byLayer (some 2) (fun _ => true) mixedTypes.tensors) layer (suffixOf bank) =
    some info at h
  rw [tensorAt] at h
  cases hlayer : (byLayer (some 2) (fun _ => true) mixedTypes.tensors).get? layer with
  | none =>
      rw [hlayer] at h
      cases h
  | some suffixes =>
      rw [hlayer, Option.getD_some] at h
      exact hall _ (mem_entries_of_get? hlayer) _ (mem_entries_of_get? h)

/-- The second layer, whose row for `down` is padded, in `bfloat16`. -/
theorem mixedTypes_sameExpert : ∃ gateUps downs c0 c s a gate up down gateUpProj downProj,
    streamMoeExpertSourcesGgufKquant kernelSizes mixedTypesData mixedTypes twoDense =
      .ok (gateUps, downs) ∧
    OffloadMoeCache.new 2 1 2 (bankSources gateUps downs) = .ok c0 ∧
    Run.exec OffloadMoeCache.next c0 [.materialize 1] = some c ∧
    c.idOfSlot s = some (c.flatId 1 0) ∧
    SlotWeightAccessor.new c gateUps downs 1 1 .bfloat16 1 = .ok a ∧
    a.get bitFloats kernelSizes s = .ok (gate, up, down) ∧
    SameExpert bitFloats .bfloat16 1 1 1 0 gate up down gateUpProj downProj := by
  have hok : (streamMoeExpertSourcesGgufKquant kernelSizes mixedTypesData mixedTypes
      twoDense).toOption.isSome = true := by decide +kernel
  obtain ⟨⟨gateUps, downs⟩, hstream⟩ : ∃ banks,
      streamMoeExpertSourcesGgufKquant kernelSizes mixedTypesData mixedTypes twoDense = .ok banks := by
    cases h : streamMoeExpertSourcesGgufKquant kernelSizes mixedTypesData mixedTypes twoDense with
    | error e =>
        rw [h] at hok
        cases hok
    | ok banks => exact ⟨banks, rfl⟩
  obtain ⟨c0, hnew⟩ : ∃ c0, OffloadMoeCache.new 2 1 2 (bankSources gateUps downs) = .ok c0 :=
    ⟨_, dif_neg (by decide)⟩
  have hc0 := OffloadMoeCache.new_coherent hnew
  have hfits := OffloadMoeCache.new_fits hnew
  have hbanks : c0.banks.length = 3 := by
    have hlen := congrArg List.length hfits.sources_eq
    rwa [OffloadMoeCache.sources, List.length_map] at hlen
  have hsize : c0.cacheSize = 2 := by
    rw [OffloadMoeCache.new, dif_neg (by decide)] at hnew
    cases hnew
    rfl
  have hasked : c0.asked (.materialize 1) = some (1, List.range c0.numExperts) := rfl
  obtain ⟨c, hnext⟩ := OffloadMoeCache.next_isSome hc0 (by rw [hbanks]; decide) (by rw [hsize])
    hasked (by rw [hfits.numLayers_eq]; decide) (fun e he => List.mem_range.mp he)
  have hrun : Run.exec OffloadMoeCache.next c0 [.materialize 1] = some c := by
    rw [Run.exec, hnext]
    rfl
  obtain ⟨hc, hcfits⟩ := OffloadMoeCache.run_coherent hnew hrun
  obtain ⟨s, hs⟩ := OffloadMoeCache.resident_of_next hc0 hasked hnext 0
    (by rw [hfits.numExperts_eq]; decide)
  have hslot : c.idOfSlot s = some (c.flatId 1 0) := by
    rw [← hc.inverse]
    rw [OffloadMoeCache.flatId, hfits.numExperts_eq] at hs
    rw [OffloadMoeCache.flatId, hcfits.numExperts_eq]
    exact hs
  have hgate : layerName 1 "mlp.experts.gate_up_proj" ∈
      (yielded (iterWeights bitFloats kernelSizes mixedTypesData mixedTypes true false)).map
        Prod.fst := by decide +kernel
  have hdown : layerName 1 "mlp.experts.down_proj" ∈
      (yielded (iterWeights bitFloats kernelSizes mixedTypesData mixedTypes true false)).map
        Prod.fst := by decide +kernel
  obtain ⟨⟨_, gateUpProj⟩, hgate, rfl⟩ := List.mem_map.mp hgate
  obtain ⟨⟨_, downProj⟩, hdown, rfl⟩ := List.mem_map.mp hdown
  obtain ⟨a, ha, heager, -⟩ := (slotWeights_sameExpert kernelSizes_agree
    ⟨fun _ _ => mixedTypes_shape, fun _ _ => mixedTypes_shape, fun _ _ => mixedTypes_shape⟩ hstream
    hnew hrun (show 1 < twoDense.numLayers from Nat.lt_succ_self 1)
    (show 0 < twoDense.numExperts from Nat.one_pos) hslot .bfloat16 false).resolve_left
      fun hunset => absurd hunset.1 (by decide)
  obtain ⟨gate, up, down, hget, hsame⟩ := heager gateUpProj downProj hgate hdown
  exact ⟨gateUps, downs, c0, c, s, a, gate, up, down, gateUpProj, downProj, hstream, hnew, hrun, hslot,
    ha, hget, hsame⟩

/-- The first weight of the gate of layer 0, from its slot and from `iter_weights`. -/
def gateValues (dtype : Dtype) : Option (Nat × Nat) := do
  let (gateUps, downs) ←
    (streamMoeExpertSourcesGgufKquant kernelSizes mixedTypesData mixedTypes twoDense).toOption
  let c0 ← (OffloadMoeCache.new 2 1 2 (bankSources gateUps downs)).toOption
  let c ← Run.exec OffloadMoeCache.next c0 [.materialize 0]
  let a ← (SlotWeightAccessor.new c gateUps downs 1 1 dtype 0).toOption
  let s ← c.slotForId (c.flatId 0 0)
  let (gate, _, _) ← (a.get bitFloats kernelSizes s).toOption
  let (_, gateUpProj) ←
    (yielded (iterWeights bitFloats kernelSizes mixedTypesData mixedTypes true false)).find?
      fun item => item.1 = layerName 0 "mlp.experts.gate_up_proj"
  some (gate.get [0, 0], gateUpProj.get [0, 0, 0])

/-- A float32 model has the numbers of the file, where `iter_weights` rounds them. -/
theorem float32_notRounded : ∃ slot row, gateValues .float32 = some (slot, row) ∧ slot ≠ row :=
  ⟨0x3F800054, 0x3F800000, by decide +kernel, by decide⟩

end FreeToken.GGUF
