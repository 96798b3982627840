import FreeToken.Models.ExpertSources
import FreeToken.Models.QuantExpertsSpec

/-!
# Which checkpoints the bf16 streamer assembles

Whatever it returns was shipped: each bank packed, or its layer with all matrices of all three
projections. That is a fact about any stream. A checkpoint that ships every bank in either form is
assembled exactly where it ships all of them in one form.
-/

namespace FreeToken.Experts

variable {α β : Type}

/-! ### Steps -/

section Steps

variable {config : MoeConfig} {st st' : SourceState α}

theorem checkRowShape_eq_ok {bank : Bank} {shape : List Nat} :
    checkRowShape st bank shape = .ok st' ↔
      (∀ s, st.rowShape.get? bank = some s → s = shape) ∧
        st' = { st with rowShape := st.rowShape.set bank shape } := by
  rw [checkRowShape]
  cases h : st.rowShape.get? bank with
  | none => simp [eq_comm]
  | some s =>
      by_cases hs : shape = s
      · subst hs
        simp [eq_comm]
      · simp [hs, Ne.symm hs]

theorem copyExpertLayerIntoBank_eq_ok {bank : Bank} {tensor : Tensor α} {layer : Int} :
    copyExpertLayerIntoBank config st bank tensor layer = .ok st' ↔
      ∃ (l : Nat) (shape : List Nat) (t : Tensor α), layer = l ∧ l < config.numLayers ∧
        tensor.shape = config.numExperts :: shape ∧
        (∀ s, st.rowShape.get? bank = some s → s = shape) ∧
        copyIntoBank (st.banks.get? (l, bank)) tensor = .ok t ∧
        st' = { st with
          rowShape := st.rowShape.set bank shape
          banks := st.banks.set (l, bank) t
          seen := (bank, l) :: st.seen } := by
  rw [copyExpertLayerIntoBank, bind_eq_ok]
  constructor
  · rintro ⟨l, hl, h⟩
    obtain ⟨rfl, hlt⟩ := checkLayer_eq_ok.mp hl
    split at h
    · cases h
    · next count shape hshape =>
        split at h
        · cases h
        · next hcount =>
            obtain ⟨st₁, h₁, h⟩ := bind_eq_ok.mp h
            obtain ⟨hrow, rfl⟩ := checkRowShape_eq_ok.1 h₁
            obtain ⟨t, ht, h⟩ := bind_eq_ok.mp h
            cases h
            refine ⟨l, shape, t, rfl, hlt, ?_, hrow, ht, rfl⟩
            rw [hshape, Decidable.not_not.mp hcount]
  · rintro ⟨l, shape, t, rfl, hlt, hshape, hrow, ht, rfl⟩
    refine ⟨l, checkLayer_eq_ok.mpr ⟨rfl, hlt⟩, ?_⟩
    simp only [hshape, ne_eq, not_true_eq_false, if_false]
    exact bind_eq_ok.mpr ⟨_, checkRowShape_eq_ok.2 ⟨hrow, rfl⟩, bind_eq_ok.mpr ⟨t, ht, rfl⟩⟩

/-- `st` with one more matrix of layer `l`. -/
def SourceState.buffer (st : SourceState α) (l : Nat) (p : Proj) (e : Nat) (tensor : Tensor α) :
    SourceState α where
  banks := st.banks
  rowShape := st.rowShape.set p.bank tensor.shape
  seen := (p.bank, l) :: st.seen
  perExpert := st.perExpert.set (l, p) ((st.rows l p).set e tensor)

theorem bufferExpertRow_eq_ok {p : Proj} {tensor : Tensor α} {layer expert : Int} {l : Nat} :
    bufferExpertRow config st p tensor layer expert = .ok (l, st') ↔
      ∃ e : Nat, layer = l ∧ l < config.numLayers ∧ expert = e ∧ e < config.numExperts ∧
        (∀ s, st.rowShape.get? p.bank = some s → s = tensor.shape) ∧
        (st.rows l p).get? e = none ∧ st' = st.buffer l p e tensor := by
  rw [bufferExpertRow, bind_eq_ok]
  constructor
  · rintro ⟨l', hl, h⟩
    obtain ⟨rfl, hlt⟩ := checkLayer_eq_ok.mp hl
    obtain ⟨e, he, hbuffer⟩ := bind_eq_ok.mp h
    obtain ⟨rfl, helt⟩ := checkExpert_eq_ok.mp he
    obtain ⟨st₁, hst₁, hstore⟩ := bind_eq_ok.mp hbuffer
    obtain ⟨hrow, rfl⟩ := checkRowShape_eq_ok.1 hst₁
    split at hstore
    · cases hstore
    · next hnone =>
        cases hstore
        exact ⟨e, rfl, hlt, rfl, helt, hrow, Option.not_isSome_iff_eq_none.mp hnone, rfl⟩
  · rintro ⟨e, rfl, hlt, rfl, helt, hrow, hnone, rfl⟩
    refine ⟨l, checkLayer_eq_ok.mpr ⟨rfl, hlt⟩, bind_eq_ok.mpr
      ⟨e, checkExpert_eq_ok.mpr ⟨rfl, helt⟩, bind_eq_ok.mpr
        ⟨_, checkRowShape_eq_ok.2 ⟨hrow, rfl⟩, ?_⟩⟩⟩
    rw [if_neg]
    · rfl
    · exact Option.not_isSome_iff_eq_none.mpr hnone

/-- The buffers of layer `l` are full. -/
def SourceState.Full (config : MoeConfig) (st : SourceState α) (l : Nat) : Prop :=
  ∀ p, config.numExperts ≤ (st.rows l p).entries.length

/-- `st` with the banks of layer `l` in place of its buffers. -/
def SourceState.finalize (st : SourceState α) (l : Nat) (gateUp down : Tensor α) : SourceState α where
  banks := (st.banks.set (l, .gateUp) gateUp).set (l, .down) down
  rowShape := st.rowShape
  seen := st.seen
  perExpert := ((st.perExpert.set (l, .gateProj) Dict.empty).set (l, .upProj) Dict.empty).set
    (l, .downProj) Dict.empty

theorem maybeFinalizeLayer_of_full {l : Nat}
    (hbanks : st.banks.get? (l, .gateUp) = none ∨ st.banks.get? (l, .down) = none)
    (hfull : st.Full config l) {gateUp down : Tensor α}
    (hfuse : fuseLayer config l (fun p => (st.rows l p).get?) = .ok (gateUp, down)) :
    maybeFinalizeLayer config st l = .ok (st.finalize l gateUp down) := by
  rw [maybeFinalizeLayer, if_neg, if_neg, hfuse]
  · rfl
  · simp only [not_or, Nat.not_lt]
    exact ⟨hfull .gateProj, hfull .upProj, hfull .downProj⟩
  · rcases hbanks with h | h <;> simp [h]

theorem maybeFinalizeLayer_of_open {l : Nat} (h : ¬ st.Full config l) :
    maybeFinalizeLayer config st l = .ok st := by
  rw [maybeFinalizeLayer]
  split
  · rfl
  · rw [if_pos]
    by_contra hnot
    simp only [not_or, Nat.not_lt] at hnot
    apply h
    intro p
    cases p
    · exact hnot.1
    · exact hnot.2.1
    · exact hnot.2.2

theorem maybeFinalizeLayer_of_banks {l : Nat} (hgateUp : (st.banks.get? (l, .gateUp)).isSome)
    (hdown : (st.banks.get? (l, .down)).isSome) : maybeFinalizeLayer config st l = .ok st := by
  rw [maybeFinalizeLayer, if_pos ⟨hgateUp, hdown⟩]

/-- A layer stays as it is, or its full buffers become its banks. -/
theorem maybeFinalizeLayer_cases {l : Nat} (h : maybeFinalizeLayer config st l = .ok st') :
    st' = st ∨ st.Full config l ∧ ∃ gateUp down, st' = st.finalize l gateUp down := by
  by_cases hfull : st.Full config l
  · rw [maybeFinalizeLayer] at h
    split at h
    · cases h
      exact .inl rfl
    · split at h
      · cases h
        exact .inl rfl
      · obtain ⟨⟨gateUp, down⟩, -, h⟩ := bind_eq_ok.mp h
        cases h
        exact .inr ⟨hfull, gateUp, down, rfl⟩
  · rw [maybeFinalizeLayer_of_open hfull] at h
    cases h
    exact .inl rfl

end Steps

/-! ### What was shipped -/

/-- A tensor with this key is in the stream. -/
def Has (tensors : List (String × Tensor α)) (key : SourceKey) : Prop :=
  ∃ item ∈ tensors, expertSourceInfo item.1 = .ok (some key)

/-- A bank that is packed, or whose layer has all its matrices. -/
def Covers (config : MoeConfig) (tensors : List (String × Tensor α)) (l : Nat) (bank : Bank) : Prop :=
  Has tensors (.packed l bank) ∨
    ∀ (p : Proj) (e : Nat), e < config.numExperts → Has tensors (.row l p e)

theorem Has.append {tensors : List (String × Tensor α)} {key : SourceKey} (h : Has tensors key)
    (more : List (String × Tensor α)) : Has (tensors ++ more) key := by
  obtain ⟨item, hmem, hkey⟩ := h
  exact ⟨item, List.mem_append_left more hmem, hkey⟩

theorem has_concat {tensors : List (String × Tensor α)} {item : String × Tensor α} {key key' : SourceKey}
    (h : expertSourceInfo item.1 = .ok (some key)) :
    Has (tensors ++ [item]) key' ↔ Has tensors key' ∨ key = key' := by
  constructor
  · rintro ⟨item', hmem, hkey⟩
    rcases List.mem_append.mp hmem with hold | hnew
    · exact .inl ⟨item', hold, hkey⟩
    · cases List.mem_singleton.mp hnew
      cases h.symm.trans hkey
      exact .inr rfl
  · rintro (hold | rfl)
    · exact hold.append [item]
    · exact ⟨item, List.mem_append_right tensors List.mem_cons_self, h⟩

/-- The bank that a tensor goes to, and the shape its rows are compared by. -/
def RowShapeOf (item : String × Tensor α) (bank : Bank) (shape : List Nat) : Prop :=
  (∃ layer, expertSourceInfo item.1 = .ok (some (.packed layer bank)) ∧ item.2.shape.tail = shape) ∨
    ∃ layer p expert, expertSourceInfo item.1 = .ok (some (.row layer p expert)) ∧ p.bank = bank ∧
      item.2.shape = shape

/-- Whatever the state holds came with the stream. -/
structure Came (config : MoeConfig) (tensors : List (String × Tensor α)) (st : SourceState α) :
    Prop where
  banks : ∀ {l bank t}, st.banks.get? (l, bank) = some t → Covers config tensors l bank
  rows : ∀ {l p e t}, (st.rows l p).get? e = some t → e < config.numExperts ∧ Has tensors (.row l p e)
  rowShape : ∀ item ∈ tensors, ∀ bank shape, RowShapeOf item bank shape →
    st.rowShape.get? bank = some shape

theorem Came.full {config : MoeConfig} {tensors : List (String × Tensor α)} {st : SourceState α}
    (h : Came config tensors st) {l : Nat} (hfull : st.Full config l) :
    ∀ (p : Proj) (e : Nat), e < config.numExperts → Has tensors (.row l p e) := by
  intro p e he
  have hsome : ((st.rows l p).get? e).isSome :=
    Dict.isSome_of_length (fun k t hk => (h.rows hk).1) (hfull p) he
  obtain ⟨t, ht⟩ := Option.isSome_iff_exists.mp hsome
  exact (h.rows ht).2

theorem rows_finalize {st : SourceState α} {l l' : Nat} {gateUp down : Tensor α} {p : Proj} :
    (st.finalize l gateUp down).rows l' p = if l = l' then Dict.empty else st.rows l' p := by
  simp only [SourceState.rows, SourceState.finalize, Dict.get?_set, Prod.mk.injEq]
  by_cases hl : l = l'
  · subst hl
    cases p <;> simp
  · simp [hl]

theorem banks_finalize {st : SourceState α} {l l' : Nat} {gateUp down : Tensor α} {bank : Bank} :
    (st.finalize l gateUp down).banks.get? (l', bank) =
      if l = l' then some (match bank with | .gateUp => gateUp | .down => down)
      else st.banks.get? (l', bank) := by
  simp only [SourceState.finalize, Dict.get?_set, Prod.mk.injEq]
  by_cases hl : l = l'
  · subst hl
    cases bank <;> simp
  · simp [hl]

theorem Came.finalize {config : MoeConfig} {tensors : List (String × Tensor α)}
    {st st' : SourceState α} (h : Came config tensors st) {l : Nat}
    (hst : maybeFinalizeLayer config st l = .ok st') : Came config tensors st' := by
  rcases maybeFinalizeLayer_cases hst with rfl | ⟨hfull, gateUp, down, rfl⟩
  · exact h
  · refine ⟨?_, ?_, h.rowShape⟩
    · intro l' bank t ht
      rw [banks_finalize] at ht
      split at ht
      · next hl =>
          subst hl
          exact .inr (h.full hfull)
      · exact h.banks ht
    · intro l' p e t ht
      rw [rows_finalize] at ht
      split at ht
      · cases ht
      · exact h.rows ht

theorem rows_buffer {st : SourceState α} {l l' : Nat} {p p' : Proj} {e : Nat} {tensor : Tensor α} :
    (st.buffer l p e tensor).rows l' p' =
      if l = l' ∧ p = p' then (st.rows l' p').set e tensor else st.rows l' p' := by
  simp only [SourceState.rows, SourceState.buffer, Dict.get?_set, Prod.mk.injEq]
  split
  · next heq =>
      obtain ⟨rfl, rfl⟩ := heq
      rfl
  · rfl

/-- Rows of a bank keep the shape of the first. -/
theorem Came.rowShape_concat {config : MoeConfig} {tensors : List (String × Tensor α)}
    {st : SourceState α} (h : Came config tensors st) {item : String × Tensor α} {bank : Bank}
    {shape : List Nat}
    (hitem : ∀ bank' shape', RowShapeOf item bank' shape' → bank' = bank ∧ shape' = shape)
    (hshape : ∀ s, st.rowShape.get? bank = some s → s = shape) :
    ∀ item' ∈ tensors ++ [item], ∀ bank' shape', RowShapeOf item' bank' shape' →
      (st.rowShape.set bank shape).get? bank' = some shape' := by
  intro item' hmem bank' shape' hrow
  rw [Dict.get?_set]
  rcases List.mem_append.mp hmem with hold | hnew
  · have hget := h.rowShape item' hold bank' shape' hrow
    split
    · next hbank =>
        subst hbank
        rw [hshape shape' hget]
    · exact hget
  · cases List.mem_singleton.mp hnew
    obtain ⟨rfl, rfl⟩ := hitem bank' shape' hrow
    rw [if_pos rfl]

theorem Came.add {config : MoeConfig} {tensors : List (String × Tensor α)} {st st' : SourceState α}
    (h : Came config tensors st) {item : String × Tensor α}
    (hst : addSource config st item = .ok st') : Came config (tensors ++ [item]) st' := by
  obtain ⟨key, hkey, hst⟩ := bind_eq_ok.mp hst
  cases key with
  | none => cases hst
  | some key =>
      cases key with
      | packed layer bank =>
          obtain ⟨l, shape, t, rfl, -, hshape, hrow, -, rfl⟩ := copyExpertLayerIntoBank_eq_ok.1 hst
          refine ⟨?_, ?_, ?_⟩
          · intro l' bank' t' ht'
            rw [Dict.get?_set] at ht'
            split at ht'
            · next heq =>
                cases heq
                exact .inl ((has_concat hkey).mpr (.inr rfl))
            · rcases h.banks ht' with hpacked | hrows
              · exact .inl (hpacked.append [item])
              · exact .inr fun p e he => (hrows p e he).append [item]
          · intro l' p e t' ht'
            obtain ⟨he, hhas⟩ := h.rows ht'
            exact ⟨he, hhas.append [item]⟩
          · apply h.rowShape_concat _ hrow
            rintro bank' shape' (⟨layer', hkey', hs⟩ | ⟨layer', p, expert, hkey', -⟩)
            · cases hkey.symm.trans hkey'
              rw [hshape] at hs
              exact ⟨rfl, hs.symm⟩
            · cases hkey.symm.trans hkey'
      | row layer p expert =>
          obtain ⟨⟨l, st₁⟩, hst₁, hfin⟩ := bind_eq_ok.mp hst
          obtain ⟨e, rfl, -, rfl, he, hrow, -, rfl⟩ := bufferExpertRow_eq_ok.1 hst₁
          refine Came.finalize ?_ hfin
          refine ⟨?_, ?_, ?_⟩
          · intro l' bank' t' ht'
            rcases h.banks ht' with hpacked | hrows
            · exact .inl (hpacked.append [item])
            · exact .inr fun p e he => (hrows p e he).append [item]
          · intro l' p' e' t' ht'
            rw [rows_buffer] at ht'
            split at ht'
            · next heq =>
                obtain ⟨rfl, rfl⟩ := heq
                rw [Dict.get?_set] at ht'
                split at ht'
                · next hee =>
                    subst hee
                    exact ⟨he, (has_concat hkey).mpr (.inr rfl)⟩
                · obtain ⟨he', hhas⟩ := h.rows ht'
                  exact ⟨he', hhas.append [item]⟩
            · obtain ⟨he', hhas⟩ := h.rows ht'
              exact ⟨he', hhas.append [item]⟩
          · apply h.rowShape_concat _ hrow
            rintro bank' shape' (⟨layer', hkey', -⟩ | ⟨layer', p', expert', hkey', hbank, hs⟩)
            · cases hkey.symm.trans hkey'
            · cases hkey.symm.trans hkey'
              exact ⟨hbank.symm, hs.symm⟩

theorem came_of_run {config : MoeConfig} {tensors : List (String × Tensor α)} {st : SourceState α}
    (h : tensors.foldlM (addSource config) SourceState.empty = .ok st) : Came config tensors st := by
  induction tensors using List.reverseRecOn generalizing st with
  | nil =>
      cases h
      refine ⟨?_, ?_, ?_⟩
      · intro l bank t ht
        cases ht
      · intro l p e t ht
        cases ht
      · intro item hmem
        cases hmem
  | append_singleton tensors item ih =>
      obtain ⟨st₁, hst₁, hadd⟩ := foldlM_concat_ok.mp h
      exact (ih hst₁).add hadd

theorem Came.finalizeAll {config : MoeConfig} {tensors : List (String × Tensor α)} :
    ∀ {layers : List Nat} {st st' : SourceState α}, Came config tensors st →
      layers.foldlM (maybeFinalizeLayer config) st = .ok st' → Came config tensors st'
  | [], st, st', h, hst => by
      cases hst
      exact h
  | l :: layers, st, st', h, hst => by
      rw [List.foldlM_cons, bind_eq_ok] at hst
      obtain ⟨st₁, hst₁, hst⟩ := hst
      exact (h.finalize hst₁).finalizeAll hst

theorem mem_moeLayers {config : MoeConfig} {l : Nat} :
    l ∈ config.moeLayers ↔ config.firstKDenseReplace ≤ l ∧ l < config.numLayers := by
  rw [MoeConfig.moeLayers, List.range_eq_range', List.drop_range', List.mem_range']
  constructor
  · rintro ⟨i, hi, rfl⟩
    omega
  · rintro ⟨hd, hn⟩
    exact ⟨l - config.firstKDenseReplace, by omega, by omega⟩

theorem bankAt_eq_ok {st : SourceState α} {l : Nat} {bank : Bank} {t : Tensor α} :
    bankAt st bank l = .ok t ↔ st.banks.get? (l, bank) = some t := by
  rw [bankAt]
  cases st.banks.get? (l, bank) <;> simp

/-- A stream that gives banks shipped each bank of each MoE layer. -/
theorem covers_of_assembled {config : MoeConfig} {tensors : List (String × Tensor α)}
    {banks : List (Tensor α) × List (Tensor α)} (h : assembleSources config tensors = .ok banks) :
    (∀ l ∈ config.moeLayers, ∀ bank, Covers config tensors l bank) ∧
      ∀ item ∈ tensors, ∀ item' ∈ tensors, ∀ bank shape shape', RowShapeOf item bank shape →
        RowShapeOf item' bank shape' → shape = shape' := by
  obtain ⟨st, hrun, h⟩ := bind_eq_ok.mp h
  have hcame := came_of_run hrun
  rw [returnSources] at h
  split at h
  · cases h
  · obtain ⟨st', hfin, h⟩ := bind_eq_ok.mp h
    have hcame' := hcame.finalizeAll hfin
    obtain ⟨gateUp, hgateUp, h⟩ := bind_eq_ok.mp h
    obtain ⟨down, hdown, -⟩ := bind_eq_ok.mp h
    constructor
    · intro l hl bank
      have hsome : ∀ {bank bs}, sourceBanks config st' bank = .ok bs →
          ∃ t, st'.banks.get? (l, bank) = some t := by
        intro bank bs hbs
        obtain ⟨t, -, ht⟩ := forall₂_exists_of_mem (mapM_eq_ok.mp hbs) hl
        exact ⟨t, bankAt_eq_ok.1 ht⟩
      cases bank
      · obtain ⟨t, ht⟩ := hsome hgateUp
        exact hcame'.banks ht
      · obtain ⟨t, ht⟩ := hsome hdown
        exact hcame'.banks ht
    · intro item hmem item' hmem' bank shape shape' hrow hrow'
      have hget := hcame.rowShape item hmem bank shape hrow
      rw [hcame.rowShape item' hmem' bank shape' hrow'] at hget
      exact (Option.some.inj hget).symm

/-! ### Checkpoints -/

/-- The matrices of every layer's experts. -/
structure ExpertWeights (α : Type) where
  intermediate : Nat
  hidden : Nat
  matrix : Proj → Nat → Nat → Tensor α
  intermediate_pos : 0 < intermediate
  gate_shape : ∀ l e, (matrix .gateProj l e).shape = [intermediate, hidden]
  up_shape : ∀ l e, (matrix .upProj l e).shape = [intermediate, hidden]
  down_shape : ∀ l e, (matrix .downProj l e).shape = [hidden, intermediate]

/-- Row `e` of a gate_up bank is expert `e`'s gate rows and then its up rows, row `e` of a down bank
its down matrix. -/
def ExpertWeights.BankOf (W : ExpertWeights α) (numExperts l : Nat) (bank : Bank) (t : Tensor α) : Prop :=
  match bank with
  | .gateUp => t.shape = [numExperts, 2 * W.intermediate, W.hidden] ∧ ∀ e, e < numExperts →
      Tensor.Joins 0 (W.matrix .gateProj l e) (W.matrix .upProj l e) (t.select e)
  | .down => t.shape = [numExperts, W.hidden, W.intermediate] ∧ ∀ e, e < numExperts →
      (W.matrix .downProj l e).Same (t.select e)

/-- A tensor of the checkpoint that ships the banks of `packed` whole and the others one matrix at a
time. -/
inductive Shipped (config : MoeConfig) (W : ExpertWeights α) (packed : Nat → Bank → Prop)
    (t : Tensor α) : SourceKey → Prop where
  | packed {l : Nat} {bank : Bank} (moe : l ∈ config.moeLayers) (form : packed l bank)
      (bankOf : W.BankOf config.numExperts l bank t) : Shipped config W packed t (.packed l bank)
  | row {l e : Nat} {p : Proj} (moe : l ∈ config.moeLayers) (form : ¬ packed l p.bank)
      (expert : e < config.numExperts) (same : (W.matrix p l e).Same t) :
      Shipped config W packed t (.row l p e)

/-- The tensors of such a checkpoint, each once, in any order. -/
structure Checkpoint (config : MoeConfig) (W : ExpertWeights α) (packed : Nat → Bank → Prop)
    (tensors : List (String × Tensor α)) : Prop where
  nodup : (tensors.map fun item => expertSourceInfo item.1).Nodup
  shipped : ∀ item ∈ tensors, ∃ key, expertSourceInfo item.1 = .ok (some key) ∧
    Shipped config W packed item.2 key
  banks_came : ∀ {l : Nat} {bank : Bank}, l ∈ config.moeLayers → packed l bank →
    Has tensors (.packed l bank)
  rows_came : ∀ {l e : Nat} {p : Proj}, l ∈ config.moeLayers → ¬ packed l p.bank →
    e < config.numExperts → Has tensors (.row l p e)

/-- All banks are shipped in the same form. -/
def Uniform (config : MoeConfig) (packed : Nat → Bank → Prop) : Prop :=
  ∀ l ∈ config.moeLayers, ∀ l' ∈ config.moeLayers, ∀ bank bank', packed l bank ↔ packed l' bank'

section Checkpoints

variable {config : MoeConfig} {W : ExpertWeights α} {packed : Nat → Bank → Prop}
  {tensors : List (String × Tensor α)}

theorem Checkpoint.form_of_packed (h : Checkpoint config W packed tensors) {l : Nat} {bank : Bank}
    (hhas : Has tensors (.packed l bank)) : packed l bank := by
  obtain ⟨item, hmem, hkey⟩ := hhas
  obtain ⟨key, hkey', hshipped⟩ := h.shipped item hmem
  cases hkey.symm.trans hkey'
  cases hshipped with
  | packed _ form _ => exact form

theorem Checkpoint.form_of_row (h : Checkpoint config W packed tensors) {l e : Nat} {p : Proj}
    (hhas : Has tensors (.row l p e)) : ¬ packed l p.bank := by
  obtain ⟨item, hmem, hkey⟩ := hhas
  obtain ⟨key, hkey', hshipped⟩ := h.shipped item hmem
  cases hkey.symm.trans hkey'
  cases hshipped with
  | row _ form _ _ => exact form

/-- A layer's banks are both packed or neither is. -/
theorem Checkpoint.banks_alike (h : Checkpoint config W packed tensors) {l : Nat}
    (hcovers : ∀ bank, Covers config tensors l bank) : packed l .gateUp ↔ packed l .down := by
  have hrow : ∀ p : Proj, (∀ (p : Proj) (e : Nat), e < config.numExperts → Has tensors (.row l p e)) →
      ¬ packed l p.bank := fun p hrows => h.form_of_row (hrows p 0 config.numExperts_pos)
  constructor
  · intro hgateUp
    rcases hcovers .down with hpacked | hrows
    · exact h.form_of_packed hpacked
    · exact absurd hgateUp (hrow .gateProj hrows)
  · intro hdown
    rcases hcovers .gateUp with hpacked | hrows
    · exact h.form_of_packed hpacked
    · exact absurd hdown (hrow .downProj hrows)

/-- A packed gate_up bank and a gate matrix are of different row shapes. -/
theorem Checkpoint.gateUp_alike (h : Checkpoint config W packed tensors)
    (hshape : ∀ item ∈ tensors, ∀ item' ∈ tensors, ∀ bank shape shape', RowShapeOf item bank shape →
      RowShapeOf item' bank shape' → shape = shape')
    {l l' : Nat} (hl : l ∈ config.moeLayers) (hl' : l' ∈ config.moeLayers)
    (hpacked : packed l .gateUp) : packed l' .gateUp := by
  by_contra hnot
  obtain ⟨item, hmem, hkey⟩ := h.banks_came hl hpacked
  obtain ⟨item', hmem', hkey'⟩ := h.rows_came (p := .gateProj) hl' hnot config.numExperts_pos
  have hrow : RowShapeOf item .gateUp [2 * W.intermediate, W.hidden] := by
    refine .inl ⟨l, hkey, ?_⟩
    obtain ⟨key, hinfo, hshipped⟩ := h.shipped item hmem
    cases hkey.symm.trans hinfo
    cases hshipped with
    | packed _ _ bankOf =>
        rw [bankOf.1]
        rfl
  have hrow' : RowShapeOf item' .gateUp [W.intermediate, W.hidden] := by
    refine .inr ⟨l', .gateProj, _, hkey', rfl, ?_⟩
    obtain ⟨key, hinfo, hshipped⟩ := h.shipped item' hmem'
    cases hkey'.symm.trans hinfo
    cases hshipped with
    | row _ _ _ same => rw [← same.1, W.gate_shape]
  have heq := hshape item hmem item' hmem' .gateUp _ _ hrow hrow'
  have hpos := W.intermediate_pos
  simp only [List.cons.injEq, and_true] at heq
  omega

theorem Checkpoint.uniform_of_assembled (h : Checkpoint config W packed tensors)
    {banks : List (Tensor α) × List (Tensor α)} (hok : assembleSources config tensors = .ok banks) :
    Uniform config packed := by
  obtain ⟨hcovers, hshape⟩ := covers_of_assembled hok
  have hgateUp : ∀ {l bank}, l ∈ config.moeLayers → (packed l bank ↔ packed l .gateUp) := by
    intro l bank hl
    cases bank
    · rfl
    · exact (h.banks_alike (hcovers l hl)).symm
  intro l hl l' hl' bank bank'
  rw [hgateUp hl, hgateUp hl']
  exact ⟨h.gateUp_alike hshape hl hl', h.gateUp_alike hshape hl' hl⟩

end Checkpoints

/-! ### The banks of a layer from its matrices -/

section Fuse

variable {config : MoeConfig} {W : ExpertWeights α} {l : Nat}

theorem stackRows_of_shape (l : Nat) {rows : Nat → Option (Tensor α)} {m n : Nat}
    (hrows : ∀ e, e < config.numExperts → ∃ t, rows e = some t ∧ t.shape = [m, n]) :
    ∃ T, stackRows config l rows = .ok T ∧ T.shape = [config.numExperts, m, n] ∧
      ∀ e, e < config.numExperts → ∀ t, rows e = some t → t.Same (T.select e) := by
  obtain ⟨ts, hts⟩ := exists_forall₂ fun e he => hrows e (List.mem_range.mp he)
  obtain ⟨hlen, hat⟩ := forall₂_range.mp hts
  have hne : ts ≠ [] := by
    rintro rfl
    have hpos := config.numExperts_pos
    rw [List.length_nil] at hlen
    omega
  have hshapes : ∀ t ∈ ts, t.shape = [m, n] := by
    intro t ht
    obtain ⟨e, he⟩ := List.mem_iff_getElem?.mp ht
    exact (hat e t he).2
  obtain ⟨T, hT, hshape, hselect⟩ := stackExpertRows_of_shape hne hshapes
  rw [hlen] at hshape
  refine ⟨T, ?_, hshape, ?_⟩
  · refine bind_eq_ok.mpr ⟨ts, mapM_eq_ok.mpr (hts.imp ?_), hT⟩
    intro e t ht
    rw [ht.1]
  · intro e he t ht
    obtain ⟨t', ht'⟩ : ∃ t', ts[e]? = some t' := ⟨_, List.getElem?_eq_getElem (by omega)⟩
    cases ht.symm.trans (hat e t' ht').1
    exact hselect e t ht'

/-- A gate and an up stack, fused along their rows. -/
theorem torchCat_stacks {m n : Nat} {gate up : Tensor α} (hgate : gate.shape = [config.numExperts, m, n])
    (hup : up.shape = [config.numExperts, m, n]) :
    ∃ t, torchCat 1 gate up = .ok t ∧ t.shape = [config.numExperts, 2 * m, n] ∧
      ∀ e, e < config.numExperts → Tensor.Joins 0 (gate.select e) (up.select e) (t.select e) := by
  have hjoins : Tensor.Joins 1 gate up (Tensor.join 1 gate up) := by
    refine .inr (.inr ⟨?_, rfl, fun _ _ => rfl⟩)
    simp [Tensor.Joinable, Tensor.dim, hgate, hup]
  have hshape : (Tensor.join 1 gate up).shape = [config.numExperts, 2 * m, n] := by
    simp [Tensor.join, Tensor.size, hgate, hup, Nat.two_mul]
  obtain ⟨t, ht, hsame⟩ := Tensor.exists_cat_of_joins hjoins (by simp [Tensor.dim, hshape])
    (by simp [Tensor.dim, hshape])
  refine ⟨t, torchCat_eq_ok.mpr ht, hsame.1.symm.trans hshape, ?_⟩
  intro e he
  exact (Tensor.joins_of_cat ht).select hgate (by simp) (by simp [hup]) he

/-- The matrices of all experts make the banks of their layer. -/
theorem fuseLayer_bankOf {rows : Proj → Nat → Option (Tensor α)}
    (hrows : ∀ (p : Proj) (e : Nat), e < config.numExperts →
      ∃ t, rows p e = some t ∧ (W.matrix p l e).Same t) :
    ∃ gateUp down, fuseLayer config l rows = .ok (gateUp, down) ∧
      W.BankOf config.numExperts l .gateUp gateUp ∧ W.BankOf config.numExperts l .down down := by
  have hstack : ∀ {p m n}, (∀ e, (W.matrix p l e).shape = [m, n]) →
      ∃ T, stackRows config l (rows p) = .ok T ∧ T.shape = [config.numExperts, m, n] ∧
        ∀ e, e < config.numExperts → (W.matrix p l e).Same (T.select e) := by
    intro p m n hmatrix
    have hshapes : ∀ e, e < config.numExperts → ∃ t, rows p e = some t ∧ t.shape = [m, n] := by
      intro e he
      obtain ⟨t, ht, hsame⟩ := hrows p e he
      exact ⟨t, ht, hsame.1.symm.trans (hmatrix e)⟩
    obtain ⟨T, hT, hshape, hselect⟩ := stackRows_of_shape l hshapes
    refine ⟨T, hT, hshape, ?_⟩
    intro e he
    obtain ⟨t, ht, hsame⟩ := hrows p e he
    exact hsame.trans (hselect e he t ht)
  obtain ⟨gate, hgate, hgateShape, hgateRow⟩ := hstack (W.gate_shape l)
  obtain ⟨up, hup, hupShape, hupRow⟩ := hstack (W.up_shape l)
  obtain ⟨down, hdown, hdownShape, hdownRow⟩ := hstack (W.down_shape l)
  obtain ⟨gateUp, hcat, hshape, hjoins⟩ := torchCat_stacks hgateShape hupShape
  refine ⟨gateUp, down, ?_, ⟨hshape, ?_⟩, hdownShape, hdownRow⟩
  · exact bind_eq_ok.mpr ⟨gate, hgate, bind_eq_ok.mpr ⟨up, hup, bind_eq_ok.mpr
      ⟨down, hdown, bind_eq_ok.mpr ⟨gateUp, hcat, rfl⟩⟩⟩⟩
  · intro e he
    exact (hjoins e he).congr (hgateRow e he).symm (hupRow e he).symm

end Fuse

/-! ### Returning -/

theorem mem_seenLayers {st : SourceState α} {bank : Bank} {l : Nat} :
    l ∈ st.seenLayers bank ↔ (bank, l) ∈ st.seen := by
  simp [SourceState.seenLayers]

/-- A state that saw each bank of just the MoE layers, and has nothing left to finalize. -/
theorem returnSources_ok {config : MoeConfig} {st : SourceState α}
    (hseen : ∀ bank l, (bank, l) ∈ st.seen ↔ l ∈ config.moeLayers)
    (hdone : ∀ l, maybeFinalizeLayer config st l = .ok st)
    {R : Bank → Nat → Tensor α → Prop}
    (hbanks : ∀ bank, ∀ l ∈ config.moeLayers, ∃ t, st.banks.get? (l, bank) = some t ∧ R bank l t) :
    ∃ gateUp down, returnSources config st = .ok (gateUp, down) ∧
      List.Forall₂ (R .gateUp) config.moeLayers gateUp ∧
      List.Forall₂ (R .down) config.moeLayers down := by
  have hmissing : missingLayers config st = [] := by
    rw [missingLayers, List.filterMap_eq_nil_iff]
    intro bank _
    rw [if_pos]
    constructor
    · intro l hl
      exact (hseen bank l).mp (mem_seenLayers.1 hl)
    · intro l hl
      exact mem_seenLayers.2 ((hseen bank l).mpr hl)
  have hfold : ∀ layers : List Nat, layers.foldlM (maybeFinalizeLayer config) st = .ok st := by
    intro layers
    induction layers with
    | nil => rfl
    | cons l layers ih =>
        rw [List.foldlM_cons, hdone l]
        exact ih
  have hreturn : ∀ bank, ∃ bs, sourceBanks config st bank = .ok bs ∧
      List.Forall₂ (R bank) config.moeLayers bs := by
    intro bank
    obtain ⟨bs, hbs⟩ := exists_forall₂ (hbanks bank)
    refine ⟨bs, mapM_eq_ok.mpr (hbs.imp ?_), hbs.imp fun _ _ h => h.2⟩
    intro l t h
    exact bankAt_eq_ok.2 h.1
  obtain ⟨gateUp, hgateUp, hR⟩ := hreturn .gateUp
  obtain ⟨down, hdown, hR'⟩ := hreturn .down
  refine ⟨gateUp, down, ?_, hR, hR'⟩
  rw [returnSources, if_neg (by simp [hmissing])]
  exact bind_eq_ok.mpr ⟨st, hfold _, bind_eq_ok.mpr ⟨gateUp, hgateUp,
    bind_eq_ok.mpr ⟨down, hdown, rfl⟩⟩⟩

theorem full_of_empty {config : MoeConfig} {st : SourceState α} {l : Nat} {p : Proj}
    (h : st.rows l p = Dict.empty) : ¬ st.Full config l := by
  intro hfull
  have hlen := hfull p
  rw [h] at hlen
  exact Nat.not_le_of_lt config.numExperts_pos hlen

/-! ### A checkpoint of packed banks -/

section Packed

variable {config : MoeConfig} {tensors : List (String × Tensor α)} {st : SourceState α}
  {shape : Bank → List Nat}

/-- Tensors of packed banks of one shape, no two of the same bank. -/
structure PackedRun (shape : Bank → List Nat) (tensors : List (String × Tensor α))
    (st : SourceState α) : Prop where
  banks : ∀ item ∈ tensors, ∀ (l : Nat) (bank : Bank),
    expertSourceInfo item.1 = .ok (some (.packed l bank)) → st.banks.get? (l, bank) = some item.2
  others : ∀ (l : Nat) (bank : Bank), ¬ Has tensors (.packed l bank) → st.banks.get? (l, bank) = none
  rows : ∀ l p, st.rows l p = Dict.empty
  rowShape : ∀ bank s, st.rowShape.get? bank = some s → s = shape bank
  seen : ∀ (bank : Bank) (l : Nat), (bank, l) ∈ st.seen ↔ Has tensors (.packed l bank)

theorem PackedRun.add (h : PackedRun shape tensors st) {item : String × Tensor α} {l : Nat}
    {bank : Bank} (hkey : expertSourceInfo item.1 = .ok (some (.packed l bank)))
    (hlt : l < config.numLayers) (hshape : item.2.shape = config.numExperts :: shape bank)
    (hnew : ¬ Has tensors (.packed l bank)) :
    ∃ st', addSource config st item = .ok st' ∧ PackedRun shape (tensors ++ [item]) st' := by
  have hcopy : copyExpertLayerIntoBank config st bank item.2 l = .ok _ :=
    copyExpertLayerIntoBank_eq_ok.2 ⟨l, shape bank, item.2, rfl, hlt, hshape, h.rowShape bank,
      by rw [h.others l bank hnew]; rfl, rfl⟩
  refine ⟨_, bind_eq_ok.mpr ⟨_, hkey, hcopy⟩, ?_, ?_, h.rows, ?_, ?_⟩
  · intro item' hmem l' bank' hkey'
    rw [Dict.get?_set]
    rcases List.mem_append.mp hmem with hold | hlast
    · rw [if_neg]
      · exact h.banks item' hold l' bank' hkey'
      · rintro heq
        cases heq
        exact hnew ⟨item', hold, hkey'⟩
    · cases List.mem_singleton.mp hlast
      cases hkey.symm.trans hkey'
      rw [if_pos rfl]
  · intro l' bank' hnot
    rw [has_concat hkey, not_or] at hnot
    rw [Dict.get?_set, if_neg]
    · exact h.others l' bank' hnot.1
    · rintro heq
      cases heq
      exact hnot.2 rfl
  · intro bank' s hs
    rw [Dict.get?_set] at hs
    split at hs
    · next heq =>
        subst heq
        exact (Option.some.inj hs).symm
    · exact h.rowShape bank' s hs
  · intro bank' l'
    rw [List.mem_cons, has_concat hkey, h.seen bank' l', or_comm]
    simp only [Prod.mk.injEq, SourceKey.packed.injEq, Int.natCast_inj]
    constructor
    · rintro (hold | ⟨rfl, rfl⟩)
      · exact .inl hold
      · exact .inr ⟨rfl, rfl⟩
    · rintro (hold | ⟨rfl, rfl⟩)
      · exact .inl hold
      · exact .inr ⟨rfl, rfl⟩

theorem packedRun_of_nodup
    (hitems : ∀ item ∈ tensors, ∃ (l : Nat) (bank : Bank),
      expertSourceInfo item.1 = .ok (some (.packed l bank)) ∧ l < config.numLayers ∧
        item.2.shape = config.numExperts :: shape bank)
    (hnodup : (tensors.map fun item => expertSourceInfo item.1).Nodup) :
    ∃ st, tensors.foldlM (addSource config) SourceState.empty = .ok st ∧
      PackedRun shape tensors st := by
  induction tensors using List.reverseRecOn with
  | nil =>
      refine ⟨SourceState.empty, rfl, ?_, fun _ _ _ => rfl, fun _ _ => rfl, ?_, ?_⟩
      · intro item hmem
        cases hmem
      · intro bank s hs
        cases hs
      · intro bank l
        constructor
        · intro hmem
          cases hmem
        · rintro ⟨item, hmem, -⟩
          cases hmem
  | append_singleton tensors item ih =>
      rw [List.map_append, List.nodup_append] at hnodup
      obtain ⟨st, hrun, hst⟩ :=
        ih (fun item' hmem => hitems item' (List.mem_append_left [item] hmem)) hnodup.1
      obtain ⟨l, bank, hkey, hlt, hshape⟩ :=
        hitems item (List.mem_append_right tensors List.mem_cons_self)
      have hnew : ¬ Has tensors (.packed l bank) := by
        rintro ⟨item', hmem, hkey'⟩
        exact hnodup.2.2 _ (List.mem_map_of_mem hmem) _ (List.mem_singleton.mpr rfl)
          (hkey'.trans hkey.symm)
      obtain ⟨st', hadd, hst'⟩ := hst.add hkey hlt hshape hnew
      exact ⟨st', foldlM_concat_ok.mpr ⟨st, hrun, hadd⟩, hst'⟩

end Packed

/-- The row shape of a packed bank. -/
def ExpertWeights.packedShape (W : ExpertWeights α) : Bank → List Nat
  | .gateUp => [2 * W.intermediate, W.hidden]
  | .down => [W.hidden, W.intermediate]

theorem ExpertWeights.BankOf.shape {W : ExpertWeights α} {numExperts l : Nat} {bank : Bank}
    {t : Tensor α} (h : W.BankOf numExperts l bank t) : t.shape = numExperts :: W.packedShape bank := by
  cases bank with
  | gateUp => exact h.1
  | down => exact h.1

theorem Checkpoint.assembled_of_packed {config : MoeConfig} {W : ExpertWeights α}
    {packed : Nat → Bank → Prop} {tensors : List (String × Tensor α)}
    (h : Checkpoint config W packed tensors) (hall : ∀ l ∈ config.moeLayers, ∀ bank, packed l bank) :
    ∃ gateUp down, assembleSources config tensors = .ok (gateUp, down) ∧
      List.Forall₂ (fun l => W.BankOf config.numExperts l .gateUp) config.moeLayers gateUp ∧
      List.Forall₂ (fun l => W.BankOf config.numExperts l .down) config.moeLayers down := by
  have hitems : ∀ item ∈ tensors, ∃ (l : Nat) (bank : Bank),
      expertSourceInfo item.1 = .ok (some (.packed l bank)) ∧ l ∈ config.moeLayers ∧
        W.BankOf config.numExperts l bank item.2 := by
    intro item hmem
    obtain ⟨key, hkey, hshipped⟩ := h.shipped item hmem
    cases hshipped with
    | packed moe _ bankOf => exact ⟨_, _, hkey, moe, bankOf⟩
    | row moe form _ _ => exact absurd (hall _ moe _) form
  have hshapes : ∀ item ∈ tensors, ∃ (l : Nat) (bank : Bank),
      expertSourceInfo item.1 = .ok (some (.packed l bank)) ∧ l < config.numLayers ∧
        item.2.shape = config.numExperts :: W.packedShape bank := by
    intro item hmem
    obtain ⟨l, bank, hkey, hmoe, hbank⟩ := hitems item hmem
    exact ⟨l, bank, hkey, (mem_moeLayers.1 hmoe).2, hbank.shape⟩
  obtain ⟨st, hrun, hst⟩ := packedRun_of_nodup hshapes h.nodup
  have hseen : ∀ bank l, (bank, l) ∈ st.seen ↔ l ∈ config.moeLayers := by
    intro bank l
    rw [hst.seen]
    constructor
    · rintro ⟨item, hmem, hkey⟩
      obtain ⟨l', bank', hkey', hmoe, -⟩ := hitems item hmem
      cases hkey.symm.trans hkey'
      exact hmoe
    · intro hl
      exact h.banks_came hl (hall l hl bank)
  have hdone : ∀ l, maybeFinalizeLayer config st l = .ok st := fun l =>
    maybeFinalizeLayer_of_open (full_of_empty (hst.rows l .downProj))
  have hbanks : ∀ bank, ∀ l ∈ config.moeLayers, ∃ t, st.banks.get? (l, bank) = some t ∧
      W.BankOf config.numExperts l bank t := by
    intro bank l hl
    obtain ⟨item, hmem, hkey⟩ := h.banks_came hl (hall l hl bank)
    obtain ⟨l', bank', hkey', -, hbank⟩ := hitems item hmem
    cases hkey.symm.trans hkey'
    exact ⟨item.2, hst.banks item hmem l bank hkey, hbank⟩
  obtain ⟨gateUp, down, hreturn, hbanks⟩ := returnSources_ok hseen hdone hbanks
  exact ⟨gateUp, down, bind_eq_ok.mpr ⟨st, hrun, hreturn⟩, hbanks⟩

/-! ### A checkpoint of single matrices -/

/-- The layer and the slot of a matrix. -/
def rowPlace (config : MoeConfig) (name : String) : Except ExpertError (Nat × (Proj × Nat)) :=
  match expertSourceInfo name with
  | .ok (some (.row layer p expert)) =>
      checkLayer config layer >>= fun l => checkExpert config layer expert >>= fun e => .ok (l, (p, e))
  | _ => .error (.unexpectedKey name)

theorem rowPlace_eq_ok {config : MoeConfig} {name : String} {l e : Nat} {p : Proj} :
    rowPlace config name = .ok (l, (p, e)) ↔
      expertSourceInfo name = .ok (some (.row l p e)) ∧ l < config.numLayers ∧ e < config.numExperts := by
  rw [rowPlace]
  split
  · next layer p' expert hkey =>
      rw [bind_eq_ok, hkey]
      constructor
      · rintro ⟨l', hl, h⟩
        obtain ⟨e', he, h⟩ := bind_eq_ok.mp h
        cases h
        obtain ⟨rfl, hlt⟩ := checkLayer_eq_ok.mp hl
        obtain ⟨rfl, helt⟩ := checkExpert_eq_ok.mp he
        exact ⟨rfl, hlt, helt⟩
      · rintro ⟨heq, hlt, helt⟩
        cases heq
        exact ⟨l, checkLayer_eq_ok.mpr ⟨rfl, hlt⟩,
          bind_eq_ok.mpr ⟨e, checkExpert_eq_ok.mpr ⟨rfl, helt⟩, rfl⟩⟩
  · next hother =>
      constructor
      · intro h
        cases h
      · rintro ⟨hkey, -⟩
        exact absurd hkey (hother l p e)

/-- A layer is assembled from the matrices of its three projections. -/
def rowAssembly (config : MoeConfig) :
    Assembly String Nat (Proj × Nat) (Tensor α) ExpertError (Tensor α × Tensor α) where
  place := rowPlace config
  required _ := List.product [Proj.gateProj, .upProj, .downProj] (List.range config.numExperts)
  finish l slots := fuseLayer config l fun p e => slots (p, e)
  late name _ := .unexpectedKey name
  repeated _ l slot := .duplicateRow l slot.2 slot.1
  place_required := by
    rintro name l ⟨p, e⟩ h
    rw [List.pair_mem_product, List.mem_range]
    refine ⟨?_, (rowPlace_eq_ok.1 h).2.2⟩
    cases p <;> decide
  required_ne_nil _ := by
    apply List.ne_nil_of_mem (a := (Proj.gateProj, 0))
    rw [List.pair_mem_product, List.mem_range]
    exact ⟨by decide, config.numExperts_pos⟩

section Rows

variable {config : MoeConfig} {W : ExpertWeights α} {tensors : List (String × Tensor α)}
  {st : SourceState α} {shape : Bank → List Nat}

theorem covered_iff {l : Nat} : (rowAssembly config).Covered tensors l ↔
    ∀ (p : Proj) (e : Nat), e < config.numExperts →
      ((rowAssembly config).lookup tensors l (p, e)).isSome := by
  constructor
  · intro h p e he
    apply h (p, e)
    change (p, e) ∈ List.product [Proj.gateProj, .upProj, .downProj] (List.range config.numExperts)
    rw [List.pair_mem_product, List.mem_range]
    refine ⟨?_, he⟩
    cases p <;> decide
  · rintro h ⟨p, e⟩ hslot
    exact h p e (List.mem_range.mp (List.pair_mem_product.mp hslot).2)

/-- Matrices of one shape a bank, no two of the same place. -/
structure RowsRun (config : MoeConfig) (shape : Bank → List Nat) (tensors : List (String × Tensor α))
    (st : SourceState α) : Prop where
  assembled : ∀ l, (rowAssembly config).Covered tensors l →
    ∃ gateUp down, (rowAssembly config).finish l ((rowAssembly config).lookup tensors l) =
        .ok (gateUp, down) ∧
      st.banks.get? (l, .gateUp) = some gateUp ∧ st.banks.get? (l, .down) = some down
  buffered : ∀ l, ¬ (rowAssembly config).Covered tensors l → st.banks.get? (l, .gateUp) = none ∧
    ∀ p, (st.rows l p).get? = fun e => (rowAssembly config).lookup tensors l (p, e)
  rowShape : ∀ bank s, st.rowShape.get? bank = some s → s = shape bank
  seen : ∀ (bank : Bank) (l : Nat), (bank, l) ∈ st.seen ↔
    ∃ (p : Proj) (e : Nat), p.bank = bank ∧ Has tensors (.row l p e)

/-- The buffers hold what came of a layer that is not assembled. -/
theorem full_iff {l : Nat}
    (hrows : ∀ p, (st.rows l p).get? = fun e => (rowAssembly config).lookup tensors l (p, e)) :
    st.Full config l ↔ (rowAssembly config).Covered tensors l := by
  rw [covered_iff]
  constructor
  · intro hfull p e he
    have hlt : ∀ k t, (st.rows l p).get? k = some t → k < config.numExperts := by
      intro k t hk
      rw [hrows p] at hk
      obtain ⟨item, -, hplace, -⟩ := Assembly.mem_of_lookup hk
      exact (rowPlace_eq_ok.1 hplace).2.2
    have hsome := Dict.isSome_of_length hlt (hfull p) he
    rwa [hrows p] at hsome
  · intro h p
    apply Dict.length_of_isSome
    intro e he
    rw [hrows p]
    exact h p e he

theorem rows_buffer_lookup {item : String × Tensor α} {l e : Nat} {p : Proj}
    (hplace : (rowAssembly config (α := α)).At item.1 l (p, e))
    (hrows : ∀ p, (st.rows l p).get? = fun e => (rowAssembly config).lookup tensors l (p, e))
    (hnew : (rowAssembly config).lookup tensors l (p, e) = none) (p' : Proj) :
    ((st.buffer l p e item.2).rows l p').get? =
      fun e' => (rowAssembly config).lookup (tensors ++ [item]) l (p', e') := by
  funext e'
  rw [rows_buffer, Assembly.lookup_concat]
  by_cases hslot : p = p' ∧ e = e'
  · obtain ⟨rfl, rfl⟩ := hslot
    rw [if_pos ⟨rfl, rfl⟩, Dict.get?_set, if_pos rfl, if_pos hplace, hnew]
    rfl
  · rw [if_neg (c := (rowAssembly config (α := α)).At item.1 l (p', e')), Option.or_none]
    · split
      · next heq =>
          obtain ⟨-, rfl⟩ := heq
          rw [Dict.get?_set, if_neg fun he => hslot ⟨rfl, he⟩, hrows p]
      · rw [hrows p']
    · intro hplace'
      cases hplace.symm.trans hplace'
      exact hslot ⟨rfl, rfl⟩

/-- What a matrix leaves as it is, and what is seen after it. -/
theorem RowsRun.seen_concat (h : RowsRun config shape tensors st) {item : String × Tensor α}
    {l e : Nat} {p : Proj} (hkey : expertSourceInfo item.1 = .ok (some (.row l p e)))
    (bank : Bank) (l' : Nat) : (bank, l') ∈ (p.bank, l) :: st.seen ↔
      ∃ (p' : Proj) (e' : Nat), p'.bank = bank ∧ Has (tensors ++ [item]) (.row l' p' e') := by
  simp only [List.mem_cons, h.seen bank l', has_concat hkey, Prod.mk.injEq, SourceKey.row.injEq,
    Int.natCast_inj]
  constructor
  · rintro (⟨rfl, rfl⟩ | ⟨p', e', hp', hhas⟩)
    · exact ⟨p, e, rfl, .inr ⟨rfl, rfl, rfl⟩⟩
    · exact ⟨p', e', hp', .inl hhas⟩
  · rintro ⟨p', e', rfl, hhas | ⟨rfl, rfl, rfl⟩⟩
    · exact .inr ⟨p', e', rfl, hhas⟩
    · exact .inl ⟨rfl, rfl⟩

theorem RowsRun.rowShape_set (h : RowsRun config shape tensors st) {bank : Bank} (bank' : Bank)
    (s : List Nat) (hs : (st.rowShape.set bank (shape bank)).get? bank' = some s) :
    s = shape bank' := by
  rw [Dict.get?_set] at hs
  split at hs
  · next heq =>
      subst heq
      exact (Option.some.inj hs).symm
  · exact h.rowShape bank' s hs

/-- A further matrix of a layer that stays open. -/
theorem RowsRun.buffer (h : RowsRun config shape tensors st) {item : String × Tensor α} {l e : Nat}
    {p : Proj} (hkey : expertSourceInfo item.1 = .ok (some (.row l p e)))
    (hplace : (rowAssembly config (α := α)).At item.1 l (p, e)) (hshape : item.2.shape = shape p.bank)
    (hnew : (rowAssembly config).lookup tensors l (p, e) = none)
    (hopen : ¬ (rowAssembly config).Covered tensors l)
    (hstill : ¬ (rowAssembly config).Covered (tensors ++ [item]) l) :
    RowsRun config shape (tensors ++ [item]) (st.buffer l p e item.2) where
  assembled l' hcov := by
    by_cases hl : l = l'
    · subst hl
      exact absurd hcov hstill
    · rw [Assembly.Covered, Assembly.lookup_concat_other hplace hl] at hcov
      rw [Assembly.lookup_concat_other hplace hl]
      exact h.assembled l' hcov
  buffered l' hcov := by
    by_cases hl : l = l'
    · subst hl
      obtain ⟨hnone, hrows⟩ := h.buffered l hopen
      exact ⟨hnone, rows_buffer_lookup hplace hrows hnew⟩
    · rw [Assembly.Covered, Assembly.lookup_concat_other hplace hl] at hcov
      obtain ⟨hnone, hrows⟩ := h.buffered l' hcov
      refine ⟨hnone, ?_⟩
      intro p'
      rw [rows_buffer, if_neg fun heq => hl heq.1, Assembly.lookup_concat_other hplace hl]
      exact hrows p'
  rowShape bank s hs := by
    rw [SourceState.buffer, hshape] at hs
    exact h.rowShape_set bank s hs
  seen := h.seen_concat hkey

/-- The last matrix of a layer. -/
theorem RowsRun.finalize (h : RowsRun config shape tensors st) {item : String × Tensor α} {l e : Nat}
    {p : Proj} (hkey : expertSourceInfo item.1 = .ok (some (.row l p e)))
    (hplace : (rowAssembly config (α := α)).At item.1 l (p, e)) (hshape : item.2.shape = shape p.bank)
    (hcovered : (rowAssembly config).Covered (tensors ++ [item]) l) {gateUp down : Tensor α}
    (hfin : (rowAssembly config).finish l ((rowAssembly config).lookup (tensors ++ [item]) l) =
      .ok (gateUp, down)) :
    RowsRun config shape (tensors ++ [item])
      ((st.buffer l p e item.2).finalize l gateUp down) where
  assembled l' hcov := by
    by_cases hl : l = l'
    · subst hl
      exact ⟨gateUp, down, hfin, by rw [banks_finalize, if_pos rfl], by rw [banks_finalize, if_pos rfl]⟩
    · rw [Assembly.Covered, Assembly.lookup_concat_other hplace hl] at hcov
      rw [Assembly.lookup_concat_other hplace hl, banks_finalize, banks_finalize, if_neg hl, if_neg hl]
      exact h.assembled l' hcov
  buffered l' hcov := by
    by_cases hl : l = l'
    · subst hl
      exact absurd hcovered hcov
    · rw [Assembly.Covered, Assembly.lookup_concat_other hplace hl] at hcov
      obtain ⟨hnone, hrows⟩ := h.buffered l' hcov
      rw [banks_finalize, if_neg hl]
      refine ⟨hnone, ?_⟩
      intro p'
      rw [rows_finalize, if_neg hl, rows_buffer, if_neg fun heq => hl heq.1,
        Assembly.lookup_concat_other hplace hl]
      exact hrows p'
  rowShape bank s hs := by
    rw [SourceState.finalize, SourceState.buffer, hshape] at hs
    exact h.rowShape_set bank s hs
  seen := h.seen_concat hkey

theorem RowsRun.add (h : RowsRun config shape tensors st) {item : String × Tensor α} {l e : Nat}
    {p : Proj} (hkey : expertSourceInfo item.1 = .ok (some (.row l p e)))
    (hplace : (rowAssembly config (α := α)).At item.1 l (p, e)) (hshape : item.2.shape = shape p.bank)
    (hnew : (rowAssembly config).lookup tensors l (p, e) = none)
    (hfits : (rowAssembly config).Covered (tensors ++ [item]) l → ∃ banks,
      (rowAssembly config).finish l ((rowAssembly config).lookup (tensors ++ [item]) l) = .ok banks) :
    ∃ st', addSource config st item = .ok st' ∧ RowsRun config shape (tensors ++ [item]) st' := by
  obtain ⟨-, hlt, he⟩ := rowPlace_eq_ok.1 hplace
  have hopen : ¬ (rowAssembly config).Covered tensors l := by
    intro hcov
    have hsome := covered_iff.1 hcov p e he
    rw [hnew] at hsome
    cases hsome
  obtain ⟨hnone, hrows⟩ := h.buffered l hopen
  have hbuffer : bufferExpertRow config st p item.2 l e = .ok (l, st.buffer l p e item.2) := by
    apply bufferExpertRow_eq_ok.2
    refine ⟨e, rfl, hlt, rfl, he, ?_, ?_, rfl⟩
    · intro s hs
      rw [hshape]
      exact h.rowShape p.bank s hs
    · rw [hrows p]
      exact hnew
  have hadd : ∀ {st'}, maybeFinalizeLayer config (st.buffer l p e item.2) l = .ok st' →
      addSource config st item = .ok st' := by
    intro st' hst'
    exact bind_eq_ok.mpr ⟨_, hkey, bind_eq_ok.mpr ⟨_, hbuffer, hst'⟩⟩
  have hrows' := rows_buffer_lookup hplace hrows hnew
  by_cases hcov : (rowAssembly config).Covered (tensors ++ [item]) l
  · obtain ⟨⟨gateUp, down⟩, hfin⟩ := hfits hcov
    refine ⟨_, hadd ?_, h.finalize hkey hplace hshape hcov hfin⟩
    refine maybeFinalizeLayer_of_full (.inl ?_) ((full_iff hrows').mpr hcov) ?_
    · exact hnone
    · simp only [hrows']
      exact hfin
  · refine ⟨_, hadd ?_, h.buffer hkey hplace hshape hnew hopen hcov⟩
    apply maybeFinalizeLayer_of_open
    intro hfull
    exact hcov ((full_iff hrows').mp hfull)

theorem rowsRun_empty : RowsRun config shape [] (SourceState.empty (α := α)) where
  assembled l hcov := by
    have hsome := covered_iff.1 hcov .gateProj 0 config.numExperts_pos
    cases hsome
  buffered l _ := ⟨rfl, fun p => rfl⟩
  rowShape bank s hs := by cases hs
  seen bank l := by
    constructor
    · intro hmem
      cases hmem
    · rintro ⟨p, e, -, item, hmem, -⟩
      cases hmem

theorem rowsRun_of_fits
    (hitems : ∀ item ∈ tensors, ∃ (l e : Nat) (p : Proj),
      expertSourceInfo item.1 = .ok (some (.row l p e)) ∧ item.2.shape = shape p.bank)
    (hfits : (rowAssembly config).Fits tensors) :
    ∃ st, tensors.foldlM (addSource config) SourceState.empty = .ok st ∧
      RowsRun config shape tensors st := by
  induction tensors using List.reverseRecOn with
  | nil => exact ⟨SourceState.empty, rfl, rowsRun_empty⟩
  | append_singleton tensors item ih =>
      obtain ⟨st, hrun, hst⟩ :=
        ih (fun item' hmem => hitems item' (List.mem_append_left [item] hmem)) hfits.of_concat
      have hlast : item ∈ tensors ++ [item] := List.mem_append_right tensors List.mem_cons_self
      obtain ⟨l, e, p, hkey, hshape⟩ := hitems item hlast
      obtain ⟨⟨l', p', e'⟩, hplace⟩ := hfits.1.placed item hlast
      cases hkey.symm.trans (rowPlace_eq_ok.1 hplace).1
      obtain ⟨st', hadd, hst'⟩ := hst.add hkey hplace hshape (hfits.1.lookup_last hplace)
        (hfits.2 l)
      exact ⟨st', foldlM_concat_ok.mpr ⟨st, hrun, hadd⟩, hst'⟩

end Rows

/-- The shape of a bank's matrices. -/
def ExpertWeights.matrixShape (W : ExpertWeights α) : Bank → List Nat
  | .gateUp => [W.intermediate, W.hidden]
  | .down => [W.hidden, W.intermediate]

theorem ExpertWeights.shape (W : ExpertWeights α) (p : Proj) (l e : Nat) :
    (W.matrix p l e).shape = W.matrixShape p.bank := by
  cases p
  · exact W.gate_shape l e
  · exact W.up_shape l e
  · exact W.down_shape l e

section Matrices

variable {config : MoeConfig} {W : ExpertWeights α} {packed : Nat → Bank → Prop}
  {tensors : List (String × Tensor α)}

theorem Checkpoint.matrices (h : Checkpoint config W packed tensors)
    (hall : ∀ l ∈ config.moeLayers, ∀ bank, ¬ packed l bank) :
    ∀ item ∈ tensors, ∃ (l e : Nat) (p : Proj),
      (rowAssembly config (α := α)).At item.1 l (p, e) ∧ l ∈ config.moeLayers ∧
        (W.matrix p l e).Same item.2 := by
  intro item hmem
  obtain ⟨key, hkey, hshipped⟩ := h.shipped item hmem
  cases hshipped with
  | packed moe form _ => exact absurd form (hall _ moe _)
  | row moe _ expert same =>
      exact ⟨_, _, _, rowPlace_eq_ok.2 ⟨hkey, (mem_moeLayers.1 moe).2, expert⟩, moe, same⟩

/-- Each layer of such a checkpoint makes the banks of its matrices. -/
theorem Checkpoint.finish_bankOf (h : Checkpoint config W packed tensors)
    (hall : ∀ l ∈ config.moeLayers, ∀ bank, ¬ packed l bank) {l : Nat}
    (hcov : (rowAssembly config).Covered tensors l) :
    ∃ gateUp down, (rowAssembly config).finish l ((rowAssembly config).lookup tensors l) =
        .ok (gateUp, down) ∧
      W.BankOf config.numExperts l .gateUp gateUp ∧ W.BankOf config.numExperts l .down down := by
  have hrows : ∀ (p : Proj) (e : Nat), e < config.numExperts →
      ∃ t, (rowAssembly config).lookup tensors l (p, e) = some t ∧ (W.matrix p l e).Same t := by
    intro p e he
    obtain ⟨t, ht⟩ := Option.isSome_iff_exists.mp (covered_iff.1 hcov p e he)
    refine ⟨t, ht, ?_⟩
    obtain ⟨item, hmem, hplace, rfl⟩ := Assembly.mem_of_lookup ht
    obtain ⟨l', e', p', hplace', -, hsame⟩ := h.matrices hall item hmem
    cases hplace.symm.trans hplace'
    exact hsame
  exact fuseLayer_bankOf hrows

theorem Checkpoint.fits (h : Checkpoint config W packed tensors)
    (hall : ∀ l ∈ config.moeLayers, ∀ bank, ¬ packed l bank) : (rowAssembly config).Fits tensors := by
  refine ⟨⟨?_, ?_⟩, ?_⟩
  · intro item hmem
    obtain ⟨l, e, p, hplace, -⟩ := h.matrices hall item hmem
    exact ⟨_, hplace⟩
  · apply List.Nodup.map_on _ h.nodup.of_map
    intro item hmem item' hmem' heq
    obtain ⟨l, e, p, hplace, -⟩ := h.matrices hall item hmem
    have hplace' : (rowAssembly config (α := α)).At item'.1 l (p, e) := Eq.trans heq.symm hplace
    exact List.inj_on_of_nodup_map h.nodup hmem hmem'
      ((rowPlace_eq_ok.1 hplace).1.trans (rowPlace_eq_ok.1 hplace').1.symm)
  · intro l hcov
    obtain ⟨gateUp, down, hfin, -⟩ := h.finish_bankOf hall hcov
    exact ⟨(gateUp, down), hfin⟩

theorem Checkpoint.covered_iff (h : Checkpoint config W packed tensors)
    (hall : ∀ l ∈ config.moeLayers, ∀ bank, ¬ packed l bank) {l : Nat} :
    (rowAssembly config).Covered tensors l ↔ l ∈ config.moeLayers := by
  rw [Experts.covered_iff]
  constructor
  · intro hcov
    obtain ⟨item, hmem, hplace⟩ :=
      Assembly.lookup_isSome.mp (hcov .gateProj 0 config.numExperts_pos)
    obtain ⟨l', e', p', hplace', hmoe, -⟩ := h.matrices hall item hmem
    cases hplace.symm.trans hplace'
    exact hmoe
  · intro hl p e he
    obtain ⟨item, hmem, hkey⟩ := h.rows_came hl (hall l hl p.bank) he
    exact Assembly.lookup_isSome.mpr
      ⟨item, hmem, rowPlace_eq_ok.2 ⟨hkey, (mem_moeLayers.1 hl).2, he⟩⟩

theorem Checkpoint.assembled_of_rows (h : Checkpoint config W packed tensors)
    (hall : ∀ l ∈ config.moeLayers, ∀ bank, ¬ packed l bank) :
    ∃ gateUp down, assembleSources config tensors = .ok (gateUp, down) ∧
      List.Forall₂ (fun l => W.BankOf config.numExperts l .gateUp) config.moeLayers gateUp ∧
      List.Forall₂ (fun l => W.BankOf config.numExperts l .down) config.moeLayers down := by
  have hshapes : ∀ item ∈ tensors, ∃ (l e : Nat) (p : Proj),
      expertSourceInfo item.1 = .ok (some (.row l p e)) ∧ item.2.shape = W.matrixShape p.bank := by
    intro item hmem
    obtain ⟨l, e, p, hplace, -, hsame⟩ := h.matrices hall item hmem
    exact ⟨l, e, p, (rowPlace_eq_ok.1 hplace).1, by rw [← hsame.1, W.shape]⟩
  obtain ⟨st, hrun, hst⟩ := rowsRun_of_fits hshapes (h.fits hall)
  have hseen : ∀ bank l, (bank, l) ∈ st.seen ↔ l ∈ config.moeLayers := by
    intro bank l
    rw [hst.seen]
    constructor
    · rintro ⟨p, e, -, item, hmem, hkey⟩
      obtain ⟨l', e', p', hplace, hmoe, -⟩ := h.matrices hall item hmem
      cases hkey.symm.trans (rowPlace_eq_ok.1 hplace).1
      exact hmoe
    · intro hl
      obtain ⟨p, rfl⟩ : ∃ p : Proj, p.bank = bank := by
        cases bank
        · exact ⟨.gateProj, rfl⟩
        · exact ⟨.downProj, rfl⟩
      exact ⟨p, 0, rfl, h.rows_came hl (hall l hl p.bank) config.numExperts_pos⟩
  have hdone : ∀ l, maybeFinalizeLayer config st l = .ok st := by
    intro l
    by_cases hcov : (rowAssembly config).Covered tensors l
    · obtain ⟨gateUp, down, -, hgateUp, hdown⟩ := hst.assembled l hcov
      exact maybeFinalizeLayer_of_banks (by rw [hgateUp]; rfl) (by rw [hdown]; rfl)
    · apply maybeFinalizeLayer_of_open
      intro hfull
      exact hcov ((full_iff (hst.buffered l hcov).2).mp hfull)
  have hbanks : ∀ bank, ∀ l ∈ config.moeLayers, ∃ t, st.banks.get? (l, bank) = some t ∧
      W.BankOf config.numExperts l bank t := by
    intro bank l hl
    have hcov := (h.covered_iff hall).mpr hl
    obtain ⟨gateUp, down, hfin, hgateUp, hdown⟩ := hst.assembled l hcov
    obtain ⟨gateUp', down', hfin', hgateUpOf, hdownOf⟩ := h.finish_bankOf hall hcov
    cases hfin.symm.trans hfin'
    cases bank
    · exact ⟨gateUp, hgateUp, hgateUpOf⟩
    · exact ⟨down, hdown, hdownOf⟩
  obtain ⟨gateUp, down, hreturn, hbanks⟩ := returnSources_ok hseen hdone hbanks
  exact ⟨gateUp, down, bind_eq_ok.mpr ⟨st, hrun, hreturn⟩, hbanks⟩

end Matrices

/-! ### Any checkpoint -/

/-- The weights in the banks' dtype. -/
def ExpertWeights.cast (W : ExpertWeights α) (f : α → β) : ExpertWeights β where
  intermediate := W.intermediate
  hidden := W.hidden
  matrix p l e := (W.matrix p l e).map f
  intermediate_pos := W.intermediate_pos
  gate_shape := W.gate_shape
  up_shape := W.up_shape
  down_shape := W.down_shape

theorem ExpertWeights.BankOf.cast {W : ExpertWeights α} {numExperts l : Nat} {bank : Bank}
    {t : Tensor α} (h : W.BankOf numExperts l bank t) (f : α → β) :
    (W.cast f).BankOf numExperts l bank (t.map f) := by
  cases bank with
  | gateUp => exact ⟨h.1, fun e he => (h.2 e he).map f⟩
  | down => exact ⟨h.1, fun e he => (h.2 e he).map f⟩

theorem has_map {tensors : List (String × Tensor α)} {f : α → β} {key : SourceKey} :
    Has (tensors.map fun item => (item.1, item.2.map f)) key ↔ Has tensors key := by
  constructor
  · rintro ⟨item, hmem, hkey⟩
    obtain ⟨item', hmem', rfl⟩ := List.mem_map.mp hmem
    exact ⟨item', hmem', hkey⟩
  · rintro ⟨item, hmem, hkey⟩
    exact ⟨_, List.mem_map_of_mem hmem, hkey⟩

theorem Checkpoint.cast {config : MoeConfig} {W : ExpertWeights α} {packed : Nat → Bank → Prop}
    {tensors : List (String × Tensor α)} (h : Checkpoint config W packed tensors) (f : α → β) :
    Checkpoint config (W.cast f) packed (tensors.map fun item => (item.1, item.2.map f)) where
  nodup := by
    rw [List.map_map]
    exact h.nodup
  shipped := by
    intro item hmem
    obtain ⟨item', hmem', rfl⟩ := List.mem_map.mp hmem
    obtain ⟨key, hkey, hshipped⟩ := h.shipped item' hmem'
    refine ⟨key, hkey, ?_⟩
    cases hshipped with
    | packed moe form bankOf => exact .packed moe form (bankOf.cast f)
    | row moe form expert same => exact .row moe form expert (same.map f)
  banks_came hl hform := has_map.2 (h.banks_came hl hform)
  rows_came hl hform he := has_map.2 (h.rows_came hl hform he)

/-- The banks returned for a checkpoint are those of its MoE layers. -/
def ReturnsBanks (config : MoeConfig) (W : ExpertWeights α)
    (result : Except ExpertError (List (Tensor α) × List (Tensor α))) : Prop :=
  ∃ gateUp down, result = .ok (gateUp, down) ∧
    List.Forall₂ (fun l => W.BankOf config.numExperts l .gateUp) config.moeLayers gateUp ∧
    List.Forall₂ (fun l => W.BankOf config.numExperts l .down) config.moeLayers down

theorem Checkpoint.assembled_of_uniform {config : MoeConfig} {W : ExpertWeights α}
    {packed : Nat → Bank → Prop} {tensors : List (String × Tensor α)}
    (h : Checkpoint config W packed tensors) (huniform : Uniform config packed) :
    ReturnsBanks config W (assembleSources config tensors) := by
  by_cases hsome : ∃ l ∈ config.moeLayers, ∃ bank, packed l bank
  · obtain ⟨l, hl, bank, hpacked⟩ := hsome
    exact h.assembled_of_packed fun l' hl' bank' => (huniform l hl l' hl' bank bank').mp hpacked
  · apply h.assembled_of_rows
    intro l hl bank hpacked
    exact hsome ⟨l, hl, bank, hpacked⟩

/-- A checkpoint of whole banks and single matrices, in any order, is assembled into the banks of its
experts exactly where all banks are shipped in one form; and no stream that lacks a bank is. -/
theorem streamMoeExpertSources_iff (config : MoeConfig) (cast : α → β) :
    (∀ (W : ExpertWeights α) (packed : Nat → Bank → Prop) (tensors : List (String × Tensor α)),
        Checkpoint config W packed tensors →
          (ReturnsBanks config (W.cast cast) (streamMoeExpertSources config cast tensors) ↔
            Uniform config packed)) ∧
      ∀ tensors : List (String × Tensor α),
        (∃ l ∈ config.moeLayers, ∃ bank, ¬ Covers config tensors l bank) →
          ∃ e, streamMoeExpertSources config cast tensors = .error e := by
  constructor
  · intro W packed tensors h
    constructor
    · rintro ⟨gateUp, down, hok, -⟩
      exact (h.cast cast).uniform_of_assembled hok
    · exact (h.cast cast).assembled_of_uniform
  · rintro tensors ⟨l, hl, bank, hnot⟩
    cases hok : streamMoeExpertSources config cast tensors with
    | error e => exact ⟨e, rfl⟩
    | ok banks =>
        have hcovers := (covers_of_assembled hok).1 l hl bank
        rw [Covers] at hcovers
        simp only [has_map] at hcovers
        exact absurd hcovers hnot

theorem info_of_toOption {name : String} {key : SourceKey}
    (h : (expertSourceInfo name).toOption = some (some key)) : expertSourceInfo name = .ok (some key) :=
  toOption_eq_some.mp h

/-! ### Two experts behind a dense layer -/

/-- Two layers, of which the second has two experts. -/
def twoExperts : MoeConfig := ⟨2, 2, 1, Nat.two_pos⟩

def Proj.number : Proj → Int
  | .gateProj => 1
  | .upProj => 2
  | .downProj => 3

/-- No two elements are alike. -/
def numberedWeights : ExpertWeights Int where
  intermediate := 1
  hidden := 2
  matrix p l e :=
    ⟨if p = .downProj then [2, 1] else [1, 2], fun idx => 1000 * l + 100 * e + 10 * p.number + idx.sum⟩
  intermediate_pos := Nat.one_pos
  gate_shape _ _ := rfl
  up_shape _ _ := rfl
  down_shape _ _ := rfl

/-- The names of the experts' matrices, in no order. -/
def expertRows : List (String × Proj × Nat) :=
  [("model.layers.1.mlp.experts.1.down_proj.weight", .downProj, 1),
    ("model.layers.1.mlp.experts.0.gate_proj.weight", .gateProj, 0),
    ("model.layers.1.mlp.experts.1.up_proj.weight", .upProj, 1),
    ("model.layers.1.mlp.experts.0.down_proj.weight", .downProj, 0),
    ("model.layers.1.mlp.experts.1.gate_proj.weight", .gateProj, 1),
    ("model.layers.1.mlp.experts.0.up_proj.weight", .upProj, 0)]

def rowTensors : List (String × Tensor Int) :=
  expertRows.map fun row => (row.1, numberedWeights.matrix row.2.1 1 row.2.2)

theorem expertRows_info : ∀ row ∈ expertRows,
    expertSourceInfo row.1 = .ok (some (.row (1 : Nat) row.2.1 (row.2.2 : Nat))) := by
  intro row hmem
  have hall : ∀ row ∈ expertRows,
      (expertSourceInfo row.1).toOption = some (some (.row (1 : Nat) row.2.1 (row.2.2 : Nat))) := by
    decide +kernel
  exact info_of_toOption (hall row hmem)

theorem rowTensors_checkpoint :
    Checkpoint twoExperts numberedWeights (fun _ _ => False) rowTensors where
  nodup := by
    have hkeys : rowTensors.map (fun item => expertSourceInfo item.1) =
        expertRows.map fun row => .ok (some (.row (1 : Nat) row.2.1 (row.2.2 : Nat))) := by
      rw [rowTensors, List.map_map]
      exact List.map_congr_left expertRows_info
    rw [hkeys]
    simp [expertRows]
  shipped := by
    intro item hmem
    obtain ⟨row, hrow, rfl⟩ := List.mem_map.mp hmem
    have hexpert : ∀ row ∈ expertRows, row.2.2 < twoExperts.numExperts := by decide
    exact ⟨_, expertRows_info row hrow,
      .row (by decide) (fun h => h) (hexpert row hrow) (Tensor.Same.refl _)⟩
  banks_came _ hform := hform.elim
  rows_came := by
    intro l e p hl _ he
    obtain rfl : l = 1 := List.mem_singleton.mp hl
    have hall : ∀ e < twoExperts.numExperts, ∀ p ∈ [Proj.gateProj, .upProj, .downProj],
        ∃ row ∈ expertRows, row.2 = (p, e) := by decide
    obtain ⟨row, hrow, hkey⟩ := hall e he p (by cases p <;> decide)
    refine ⟨_, List.mem_map_of_mem hrow, ?_⟩
    rw [expertRows_info row hrow, hkey]

theorem rowTensors_assembled :
    ReturnsBanks twoExperts (numberedWeights.cast id)
      (streamMoeExpertSources twoExperts id rowTensors) :=
  ((streamMoeExpertSources_iff twoExperts id).1 numberedWeights (fun _ _ => False) rowTensors
    rowTensors_checkpoint).mpr fun _ _ _ _ _ _ => Iff.rfl

/-! ### One layer of one expert -/

def zeroWeights : ExpertWeights Int where
  intermediate := 1
  hidden := 1
  matrix _ _ _ := zeros [1, 1]
  intermediate_pos := Nat.one_pos
  gate_shape _ _ := rfl
  up_shape _ _ := rfl
  down_shape _ _ := rfl

theorem zeros_gateUp (l : Nat) : zeroWeights.BankOf 1 l .gateUp (zeros [1, 2, 1]) := by
  refine ⟨rfl, ?_⟩
  intro e _
  refine .inr (.inr ⟨⟨Nat.two_pos, Nat.two_pos, rfl⟩, rfl, ?_⟩)
  intro idx _
  simp [zeroWeights, zeros, Tensor.select]

theorem gateUp_info : expertSourceInfo "model.layers.0.mlp.experts.gate_up_proj" =
    .ok (some (.packed (0 : Nat) .gateUp)) := info_of_toOption (by decide +kernel)

theorem downRow_info : expertSourceInfo "model.layers.0.mlp.experts.0.down_proj.weight" =
    .ok (some (.row (0 : Nat) .downProj (0 : Nat))) := info_of_toOption (by decide +kernel)

/-- The gate_up bank packed and the down bank as the one expert's matrix. -/
def mixedForms : List (String × Tensor Int) :=
  [("model.layers.0.mlp.experts.gate_up_proj", zeros [1, 2, 1]),
    ("model.layers.0.mlp.experts.0.down_proj.weight", zeros [1, 1])]

theorem mixedForms_checkpoint :
    Checkpoint oneExpert zeroWeights (fun _ bank => bank = .gateUp) mixedForms where
  nodup := by
    rw [mixedForms, List.map_cons, List.map_cons, List.map_nil, gateUp_info, downRow_info]
    simp
  shipped := by
    intro item hmem
    simp only [mixedForms, List.mem_cons, List.not_mem_nil, or_false] at hmem
    rcases hmem with rfl | rfl
    · exact ⟨_, gateUp_info, .packed (by decide) rfl (zeros_gateUp 0)⟩
    · exact ⟨_, downRow_info, .row (by decide) (by decide) (by decide) (Tensor.Same.refl _)⟩
  banks_came := by
    intro l bank hl hform
    have hl0 : l = 0 := Nat.lt_one_iff.mp (mem_moeLayers.1 hl).2
    subst hl0
    cases hform
    exact ⟨_, List.mem_cons_self, gateUp_info⟩
  rows_came := by
    intro l e p hl hform he
    have hl0 : l = 0 := Nat.lt_one_iff.mp (mem_moeLayers.1 hl).2
    have he0 : e = 0 := Nat.lt_one_iff.mp he
    subst hl0 he0
    cases p with
    | gateProj => exact absurd rfl hform
    | upProj => exact absurd rfl hform
    | downProj => exact ⟨_, List.mem_cons_of_mem _ List.mem_cons_self, downRow_info⟩

/-- The matrix is never put into a bank. -/
theorem mixedForms_fails : Checkpoint oneExpert zeroWeights (fun _ bank => bank = .gateUp) mixedForms ∧
    streamMoeExpertSources oneExpert id mixedForms = .error .noBank := by
  refine ⟨mixedForms_checkpoint, ?_⟩
  rw [← failure_eq_some]
  decide +kernel

end FreeToken.Experts
