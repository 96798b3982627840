import FreeToken.Models.GGUF.LazyExperts

/-!
# GGUF files with all their experts

The streamer takes a file whose header gives the counts and whose packed tensors can be read, where
every layer of the model has them.
-/

namespace FreeToken.GGUF

open Experts (MoeConfig)

/-- The packed tensors of the layers of `layers` are there and can be read, and no others are. -/
structure CompleteFile (sizes : QuantSizes) (file : List UInt8) (gguf : GGUFFile)
    (config : MoeConfig) (layers : List Nat) : Prop where
  header : ∃ arch real, architecture gguf.metadata = .ok arch ∧
    archCount gguf.metadata arch "expert_count" = .ok (some (config.numExperts : Int)) ∧
    realNumLayers gguf.metadata arch = .ok real
  tensors : ∀ layer bank, (∃ info, expertTensor gguf layer bank = some info) ↔ layer ∈ layers
  readable : ∀ layer bank info, expertTensor gguf layer bank = some info →
    ∃ rowBytes raw raws, RawBankOf sizes file config.numExperts info rowBytes raw raws

variable {sizes : QuantSizes} {file : List UInt8} {gguf : GGUFFile} {config : MoeConfig}
  {layers : List Nat}

/-- The generator yields the raw rows of each packed tensor, and raises nothing. -/
theorem CompleteFile.attempt (h : CompleteFile sizes file gguf config layers) :
    (∀ attempt ∈ iterMoeExpertRawBanks sizes file gguf, ∃ b : RawBank, attempt = .ok b ∧
      b.layer ∈ layers ∧ b.raw.rows.length = config.numExperts) ∧
    ∀ layer ∈ layers, ∀ bank, ∃ b : RawBank, .ok b ∈ iterMoeExpertRawBanks sizes file gguf ∧
      b.layer = layer ∧ b.bank = bank := by
  obtain ⟨arch, real, harch, hcount, hreal⟩ := h.header
  generalize hpacked : byLayer real (fun suffix => suffix ∈ wanted.map Prod.fst) gguf.tensors = packed
  have hiter : iterMoeExpertRawBanks sizes file gguf = (sortedLayers packed).flatMap fun layer =>
      layerRawBanks sizes file config.numExperts layer ((packed.get? layer).getD .empty) := by
    simp only [iterMoeExpertRawBanks, harch, hcount, hreal, bind, Except.bind, Except.map, hpacked]
  have htensor : ∀ layer bank, expertTensor gguf layer bank =
      tensorAt packed layer (suffixOf bank) := by
    intro layer bank
    have hkeep : decide (suffixOf bank ∈ wanted.map Prod.fst) = true :=
      decide_eq_true (List.mem_map_of_mem (f := Prod.fst) (a := (suffixOf bank, bank))
        (mem_wanted.mpr rfl))
    rw [expertTensor, layersOf_eq harch hreal, ← hpacked]
    exact (tensorAt_byLayer real gguf.tensors layer hkeep).symm
  rw [hiter]
  constructor
  · intro attempt hattempt
    obtain ⟨layer, -, hlayer⟩ := List.mem_flatMap.mp hattempt
    obtain ⟨entry, hentry, hb⟩ := List.mem_filterMap.mp hlayer
    obtain ⟨info, hinfo, rfl⟩ := Option.map_eq_some_iff.mp hb
    have hat : expertTensor gguf layer entry.2 = some info := by
      rw [htensor, ← mem_wanted.mp hentry]
      exact hinfo
    obtain ⟨rowBytes, raw, raws, hof⟩ := h.readable layer entry.2 info hat
    refine ⟨⟨layer, entry.2, raws, info.ggmlType⟩, map_eq_ok.mpr ⟨raws, ?_, rfl⟩,
      (h.tensors layer entry.2).mp ⟨info, hat⟩, ?_⟩
    · exact rawBank_eq_ok.mpr ⟨_, rowBytes, raw, rfl, hof⟩
    · rw [hof.raws_eq, ByteRows.length_ofFlat]
  · intro layer hlayer bank
    obtain ⟨info, hinfo⟩ := (h.tensors layer bank).mpr hlayer
    obtain ⟨rowBytes, raw, raws, hof⟩ := h.readable layer bank info hinfo
    rw [htensor] at hinfo
    refine ⟨⟨layer, bank, raws, info.ggmlType⟩, ?_, rfl, rfl⟩
    apply List.mem_flatMap.mpr
    refine ⟨layer, mem_sortedLayers_of_tensorAt hinfo, ?_⟩
    apply List.mem_filterMap.mpr
    refine ⟨(suffixOf bank, bank), mem_wanted.mpr rfl, Option.map_eq_some_iff.mpr ⟨info, hinfo, ?_⟩⟩
    exact map_eq_ok.mpr ⟨raws, rawBank_eq_ok.mpr ⟨_, rowBytes, raw, rfl, hof⟩, rfl⟩

/-- Raw banks of layers of the model are taken, and each is there afterwards. -/
theorem exists_addRawBanks {bs : List RawBank}
    (h : ∀ b ∈ bs, b.layer < config.numLayers ∧ b.raw.rows.length = config.numExperts) :
    ∃ banks, bs.foldlM (addRawBank config) .empty = .ok banks ∧
      ∀ b ∈ bs, ∃ entry, bankAt banks b.bank b.layer = .ok entry := by
  induction bs using List.reverseRecOn with
  | nil => exact ⟨_, rfl, by simp⟩
  | append_singleton bs b ih =>
      obtain ⟨banks, hbanks, hthere⟩ := ih fun b' hb' => h b' (List.mem_append_left _ hb')
      obtain ⟨hlayer, hrows⟩ := h b (List.mem_append_right _ List.mem_cons_self)
      obtain ⟨banks', hadd⟩ : ∃ banks', addRawBank config banks b = .ok banks' := by
        rw [addRawBank, if_neg (Nat.not_le.mpr hlayer), if_neg (not_not.mpr hrows)]
        exact ⟨_, rfl⟩
      obtain ⟨-, -, hget⟩ := get?_addRawBank hadd
      refine ⟨banks', foldlM_concat_ok.mpr ⟨banks, hbanks, hadd⟩, ?_⟩
      intro b' hb'
      rw [hget]
      by_cases hsame : b.layer = b'.layer ∧ b.bank = b'.bank
      · rw [if_pos hsame]
        exact ⟨_, rfl⟩
      · rw [if_neg hsame]
        rcases List.mem_append.mp hb' with hb' | hb'
        · exact hthere b' hb'
        · rw [List.mem_singleton.mp hb'] at hsame
          exact absurd ⟨rfl, rfl⟩ hsame

theorem isComplete_of_bankAt {banks : Dict Nat LayerBanks} {layer : Nat}
    (h : ∀ bank, ∃ entry, bankAt banks bank layer = .ok entry) : isComplete banks layer = true := by
  have hsome : ∀ bank, ((((banks.get? layer).getD .empty)).get? bank).isSome = true := by
    intro bank
    obtain ⟨entry, hentry⟩ := h bank
    rw [bankAt] at hentry
    cases hlayer : banks.get? layer with
    | none => simp [hlayer] at hentry
    | some present =>
        cases hpresent : present.get? bank with
        | none => simp [hlayer, hpresent] at hentry
        | some b => simp [hpresent]
  simp [isComplete, hsome]

/-- A file with all its experts is streamed. -/
theorem CompleteFile.exists_stream
    (h : CompleteFile sizes file gguf config (List.range config.numLayers)) :
    ∃ banks, streamMoeExpertSourcesGgufKquant sizes file gguf config = .ok banks := by
  obtain ⟨hfinishes, hcovers⟩ := h.attempt
  have hfin : Finishes (iterMoeExpertRawBanks sizes file gguf) := fun attempt hattempt => by
    obtain ⟨b, hb, -⟩ := hfinishes attempt hattempt
    exact ⟨b, hb⟩
  have hfits : ∀ b ∈ yielded (iterMoeExpertRawBanks sizes file gguf),
      b.layer < config.numLayers ∧ b.raw.rows.length = config.numExperts := by
    intro b hb
    obtain ⟨b', heq, hlayer, hrows⟩ := hfinishes _ (mem_of_mem_yielded hb)
    cases heq
    exact ⟨List.mem_range.mp hlayer, hrows⟩
  obtain ⟨banks, hbanks, hthere⟩ := exists_addRawBanks hfits
  have hat : ∀ layer ∈ List.range config.numLayers, ∀ bank,
      ∃ entry, bankAt banks bank layer = .ok entry := by
    intro layer hlayer bank
    obtain ⟨b, hb, rfl, rfl⟩ := hcovers layer hlayer bank
    exact hthere b ((mem_yielded_of_finishes hfin).mpr hb)
  have hpadded : ∀ bank, ∃ padded, paddedBanks config.numLayers banks bank = .ok padded := by
    intro bank
    obtain ⟨entries, hentries⟩ := exists_mapM_ok fun layer hlayer => hat layer hlayer bank
    exact ⟨_, map_eq_ok.mpr ⟨entries, hentries, rfl⟩⟩
  have hmissing : ((List.range config.numLayers).filter fun layer => !isComplete banks layer) = [] := by
    refine List.filter_eq_nil_iff.mpr fun layer hlayer => ?_
    simp [isComplete_of_bankAt (hat layer hlayer)]
  obtain ⟨gates, hgates⟩ := hpadded .gate
  obtain ⟨ups, hups⟩ := hpadded .up
  obtain ⟨downs, hdowns⟩ := hpadded .down
  have hconsumed := consume_eq_ok.mpr ⟨hfin, hbanks⟩
  simp only [streamMoeExpertSourcesGgufKquant, hconsumed, bind, Except.bind, hmissing, hgates, hups,
    hdowns, ne_eq, not_true_eq_false, if_false]
  exact ⟨_, rfl⟩

end FreeToken.GGUF
