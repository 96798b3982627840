import FreeToken.Models.QuantExperts

/-!
# What the quantized expert banks hold

For each format, the banks that a stream is to give are described by the tensors alone. A bank is
built exactly where one of this description exists, and what is built has the description.
-/

namespace FreeToken.Experts

variable {α κ β σ ρ : Type}

/-! ### Rows -/

/-- What becomes of one component of expert `e`: its gate rows and then its up rows along `d`, or
its down tensor. -/
def FusedRow (slots : ExpertSlot κ → Option (Tensor α)) (d : Nat) (bank : Bank) (c : κ) (e : Nat)
    (row : Tensor α) : Prop :=
  match bank with
  | .gateUp => ∃ gate up, slots ⟨e, .gateProj, c⟩ = some gate ∧ slots ⟨e, .upProj, c⟩ = some up ∧
      Tensor.Joins d gate up row
  | .down => ∃ t, slots ⟨e, .downProj, c⟩ = some t ∧ t.Same row

/-- One matrix an expert, all of one shape. -/
def StackedRows (numExperts : Nat) (row : Nat → Tensor α → Prop) (t : Tensor α) : Prop :=
  (∃ m n, t.shape = [numExperts, m, n]) ∧ ∀ e, e < numExperts → row e (t.select e)

section Fused

variable {slots : ExpertSlot κ → Option (Tensor α)} {layer d e : Nat} {bank : Bank} {c : κ}

theorem component_eq_ok {p : Proj} {t : Tensor α} :
    component slots layer e p c = .ok t ↔ slots ⟨e, p, c⟩ = some t := by
  rw [component]
  cases slots ⟨e, p, c⟩ <;> simp

theorem torchCat_eq_ok {a b t : Tensor α} : torchCat d a b = .ok t ↔ Tensor.cat d [a, b] = some t := by
  rw [torchCat]
  cases Tensor.cat d [a, b] <;> simp

theorem FusedRow.same {t u : Tensor α} (h : FusedRow slots d bank c e t) (htu : t.Same u) :
    FusedRow slots d bank c e u := by
  cases bank with
  | gateUp =>
      obtain ⟨gate, up, hgate, hup, hjoins⟩ := h
      exact ⟨gate, up, hgate, hup, hjoins.same htu⟩
  | down =>
      obtain ⟨down, hdown, hsame⟩ := h
      exact ⟨down, hdown, hsame.trans htu⟩

theorem fusedRow_of_fused {t : Tensor α} (h : fused slots layer d bank e c = .ok t) :
    FusedRow slots d bank c e t := by
  cases bank with
  | gateUp =>
      obtain ⟨gate, hgate, h⟩ := bind_eq_ok.mp h
      obtain ⟨up, hup, h⟩ := bind_eq_ok.mp h
      exact ⟨gate, up, component_eq_ok.1 hgate, component_eq_ok.1 hup,
        Tensor.joins_of_cat (torchCat_eq_ok.1 h)⟩
  | down => exact ⟨t, component_eq_ok.1 h, Tensor.Same.refl t⟩

theorem FusedRow.exists_fused {row : Tensor α} (h : FusedRow slots d bank c e row) (layer : Nat)
    (hrow : row.dim = 2) (hd : d < 2) :
    ∃ t, fused slots layer d bank e c = .ok t ∧ row.Same t := by
  cases bank with
  | gateUp =>
      obtain ⟨gate, up, hgate, hup, hjoins⟩ := h
      obtain ⟨t, ht, hsame⟩ := Tensor.exists_cat_of_joins hjoins (by omega) (by omega)
      refine ⟨t, ?_, hsame⟩
      exact bind_eq_ok.mpr ⟨gate, component_eq_ok.2 hgate,
        bind_eq_ok.mpr ⟨up, component_eq_ok.2 hup, torchCat_eq_ok.2 ht⟩⟩
  | down =>
      obtain ⟨t, ht, hsame⟩ := h
      exact ⟨t, component_eq_ok.2 ht, hsame.symm⟩

end Fused

/-! ### Stacks -/

theorem shape_eq_of_dim {t : Tensor α} (h : t.dim = 2) : ∃ m n, t.shape = [m, n] := by
  rw [Tensor.dim, List.length_eq_two] at h
  exact h

theorem stackExpertRows_of_shape {rows : List (Tensor α)} {m n : Nat} (hne : rows ≠ [])
    (hrows : ∀ r ∈ rows, r.shape = [m, n]) :
    ∃ t, stackExpertRows rows = .ok t ∧ t.shape = [rows.length, m, n] ∧
      ∀ (e : Nat) (r : Tensor α), rows[e]? = some r → r.Same (t.select e) := by
  cases rows with
  | nil => exact absurd rfl hne
  | cons first rest =>
      have hfirst : first.shape = [m, n] := hrows first List.mem_cons_self
      have hrest : (rest.any fun r => r.dim ≠ 2 || r.shape ≠ first.shape) = false := by
        rw [List.any_eq_false]
        intro r hr
        have hshape := hrows r (List.mem_cons_of_mem first hr)
        simp [Tensor.dim, hshape, hfirst]
      obtain ⟨t, ht, hshape, hget⟩ := Tensor.cat_unsqueeze hne hrows
      refine ⟨t, ?_, hshape, ?_⟩
      · rw [stackExpertRows, if_neg (by simp [Tensor.dim, hfirst]), hrest, ht]
        rfl
      · intro e r hr
        refine ⟨?_, fun idx _ => (hget e r hr idx).symm⟩
        rw [Tensor.select, hshape]
        exact hrows r (List.mem_of_getElem? hr)

theorem stackExpertRows_shape {rows : List (Tensor α)} {t : Tensor α}
    (h : stackExpertRows rows = .ok t) : rows ≠ [] ∧ ∃ m n, ∀ r ∈ rows, r.shape = [m, n] := by
  cases rows with
  | nil => cases h
  | cons first rest =>
      rw [stackExpertRows] at h
      split at h
      · cases h
      · next hdim =>
          obtain ⟨m, n, hfirst⟩ := shape_eq_of_dim (Decidable.not_not.mp hdim)
          split at h
          · cases h
          · next hany =>
              refine ⟨List.cons_ne_nil _ _, m, n, ?_⟩
              intro r hr
              rcases List.mem_cons.mp hr with rfl | hr
              · exact hfirst
              · rw [List.any_eq_true] at hany
                by_contra hne
                apply hany
                refine ⟨r, hr, ?_⟩
                rw [← hfirst] at hne
                simp [hne]

section Stacks

variable {numExperts d layer : Nat} {bank : Bank} {c : κ} {slots : ExpertSlot κ → Option (Tensor α)}
  {rows : List ρ} {part : ρ → Tensor α}

theorem stackedRows_of_stack
    (hrows : List.Forall₂ (fun e r => FusedRow slots d bank c e (part r)) (List.range numExperts) rows)
    {t : Tensor α} (h : stackExpertRows (rows.map part) = .ok t) :
    StackedRows numExperts (FusedRow slots d bank c) t := by
  obtain ⟨hne, m, n, hshape⟩ := stackExpertRows_shape h
  obtain ⟨t', ht', hshape', hget⟩ := stackExpertRows_of_shape hne hshape
  cases ht'.symm.trans h
  obtain ⟨hlen, hrow⟩ := forall₂_range.mp hrows
  rw [List.length_map, hlen] at hshape'
  refine ⟨⟨m, n, hshape'⟩, ?_⟩
  intro e he
  obtain ⟨r, hr⟩ : ∃ r, rows[e]? = some r := ⟨_, List.getElem?_eq_getElem (by omega)⟩
  exact (hrow e r hr).same (hget e (part r) (by rw [List.getElem?_map, hr]; rfl))

theorem StackedRows.dim_select {R : Nat → Tensor α → Prop} {t : Tensor α}
    (h : StackedRows numExperts R t) (e : Nat) : (t.select e).dim = 2 := by
  obtain ⟨⟨m, n, hshape⟩, -⟩ := h
  rw [Tensor.dim, Tensor.select, hshape]
  rfl

/-- Where a stack of fused rows exists, the rows that were fused can be stacked. -/
theorem StackedRows.exists_stack {t : Tensor α}
    (h : StackedRows numExperts (FusedRow slots d bank c) t) (hd : d < 2) (hpos : 0 < numExperts)
    (hrows : List.Forall₂ (fun e r => fused slots layer d bank e c = .ok (part r))
      (List.range numExperts) rows) :
    ∃ t, stackExpertRows (rows.map part) = .ok t := by
  obtain ⟨hlen, hrow⟩ := forall₂_range.mp hrows
  have ⟨⟨m, n, hshape⟩, hfused⟩ := h
  have hne : rows.map part ≠ [] := by
    intro hnil
    have hlen' := congrArg List.length hnil
    rw [List.length_map, List.length_nil] at hlen'
    omega
  obtain ⟨t', ht', -⟩ := stackExpertRows_of_shape (m := m) (n := n) hne (by
    intro r hr
    obtain ⟨e, he⟩ := List.mem_iff_getElem?.mp hr
    rw [List.getElem?_map, Option.map_eq_some_iff] at he
    obtain ⟨r', hr', rfl⟩ := he
    have hlt : e < numExperts := by
      rw [← hlen]
      exact (List.getElem?_eq_some_iff.mp hr').1
    obtain ⟨u, hu, hsame⟩ := (hfused e hlt).exists_fused layer (h.dim_select e) hd
    cases hu.symm.trans (hrow e r' hr')
    rw [← hsame.1, Tensor.select, hshape]
    rfl)
  exact ⟨t', ht'⟩

end Stacks

/-! ### The banks of each format -/

structure GptqBankOf (numExperts : Nat) (bank : Bank)
    (slots : ExpertSlot GptqComponent → Option (Tensor α)) (b : GptqExpertBank α) : Prop where
  qweight : StackedRows numExperts (FusedRow slots 1 bank .qweight) b.qweight
  qzeros : StackedRows numExperts (FusedRow slots 1 bank .qzeros) b.qzeros
  scales : StackedRows numExperts (FusedRow slots 1 bank .scales) b.scales
  gIdx : ∀ e, e < numExperts → ∀ p ∈ bank.projs, ∃ t, slots ⟨e, p, .gIdx⟩ = some t ∧ t.Same b.gIdx

structure Fp8BankOf (block numExperts : Nat) (bank : Bank)
    (slots : ExpertSlot Fp8Component → Option (Tensor α)) (b : Fp8BlockExpertBank α) : Prop where
  weight : StackedRows numExperts (FusedRow slots 0 bank .weight) b.weight
  weightScaleInv : StackedRows numExperts (FusedRow slots 0 bank .weightScaleInv) b.weightScaleInv
  blocks : bank = .gateUp → ∀ e, e < numExperts → ∃ gate n,
    slots ⟨e, .gateProj, .weight⟩ = some gate ∧ gate.shape.head? = some n ∧ block ≠ 0 ∧ block ∣ n

structure Int8BankOf (item : α → Int) (numExperts : Nat) (bank : Bank)
    (slots : ExpertSlot Int8Component → Option (Tensor α)) (b : Int8ExpertBank α) : Prop where
  weightPacked : StackedRows numExperts (FusedRow slots 0 bank .weightPacked) b.weightPacked
  weightScale : StackedRows numExperts (FusedRow slots 0 bank .weightScale) b.weightScale
  k : ∀ e, e < numExperts → ∀ p ∈ bank.projs,
    ∃ t, slots ⟨e, p, .weightShape⟩ = some t ∧ int8LogicalK item t = .ok b.k

/-- The checkpoint's own two tensors, whose row `e` is expert `e`'s. -/
structure Mxfp4BankOf (numExperts : Nat) (slots : Mxfp4Component → Option (Tensor α))
    (b : MxfpExpertBank α) : Prop where
  blocks : slots .blocks = some b.blocks
  scales : slots .scales = some b.scales
  experts : b.blocks.shape.head? = some numExperts
  shapes : b.blocks.shape.dropLast = b.scales.shape

section Gptq

variable [DecidableEq α] {slots : ExpertSlot GptqComponent → Option (Tensor α)} {layer numExperts : Nat}
  {bank : Bank}

theorem gptqGroupIndex_eq_ok {e : Nat} {g : Tensor α} (h : gptqGroupIndex slots layer bank e = .ok g) :
    ∀ p ∈ bank.projs, ∃ t, slots ⟨e, p, .gIdx⟩ = some t ∧ t.Same g := by
  cases bank with
  | gateUp =>
      obtain ⟨gate, hgate, h⟩ := bind_eq_ok.mp h
      obtain ⟨up, hup, h⟩ := bind_eq_ok.mp h
      split at h
      · next hequal =>
          cases h
          have hsame := Tensor.equal_iff.mp hequal
          intro p hp
          simp only [Bank.projs, List.mem_cons, List.not_mem_nil, or_false] at hp
          rcases hp with rfl | rfl
          · exact ⟨_, component_eq_ok.1 hgate, Tensor.Same.refl _⟩
          · exact ⟨up, component_eq_ok.1 hup, hsame.symm⟩
      · cases h
  | down =>
      intro p hp
      cases List.mem_singleton.mp hp
      exact ⟨g, component_eq_ok.1 h, Tensor.Same.refl g⟩

theorem exists_gptqGroupIndex (layer : Nat) {e : Nat} {g : Tensor α}
    (h : ∀ p ∈ bank.projs, ∃ t, slots ⟨e, p, .gIdx⟩ = some t ∧ t.Same g) :
    ∃ t, gptqGroupIndex slots layer bank e = .ok t ∧ t.Same g := by
  cases bank with
  | gateUp =>
      obtain ⟨gate, hgate, hgateSame⟩ := h .gateProj List.mem_cons_self
      obtain ⟨up, hup, hupSame⟩ := h .upProj (List.mem_cons_of_mem _ List.mem_cons_self)
      refine ⟨gate, ?_, hgateSame⟩
      apply bind_eq_ok.mpr ⟨gate, component_eq_ok.2 hgate, ?_⟩
      apply bind_eq_ok.mpr ⟨up, component_eq_ok.2 hup, ?_⟩
      rw [if_pos (Tensor.equal_iff.mpr (hgateSame.trans hupSame.symm))]
      rfl
  | down =>
      obtain ⟨t, ht, hsame⟩ := h .downProj List.mem_cons_self
      exact ⟨t, component_eq_ok.2 ht, hsame⟩

/-- What was read of one expert. -/
structure GptqRow (slots : ExpertSlot GptqComponent → Option (Tensor α)) (layer : Nat) (bank : Bank)
    (e : Nat) (r : GptqExpertBank α) : Prop where
  gIdx : gptqGroupIndex slots layer bank e = .ok r.gIdx
  qweight : fused slots layer 1 bank e .qweight = .ok r.qweight
  qzeros : fused slots layer 1 bank e .qzeros = .ok r.qzeros
  scales : fused slots layer 1 bank e .scales = .ok r.scales

theorem gptqRow_eq_ok {e : Nat} {r : GptqExpertBank α} :
    gptqRow slots layer bank e = .ok r ↔ GptqRow slots layer bank e r := by
  constructor
  · intro h
    obtain ⟨gIdx, hg, h⟩ := bind_eq_ok.mp h
    obtain ⟨qweight, hqw, h⟩ := bind_eq_ok.mp h
    obtain ⟨qzeros, hqz, h⟩ := bind_eq_ok.mp h
    obtain ⟨scales, hs, h⟩ := bind_eq_ok.mp h
    cases h
    exact ⟨hg, hqw, hqz, hs⟩
  · intro h
    exact bind_eq_ok.mpr ⟨_, h.gIdx, bind_eq_ok.mpr ⟨_, h.qweight, bind_eq_ok.mpr ⟨_, h.qzeros,
      bind_eq_ok.mpr ⟨_, h.scales, rfl⟩⟩⟩⟩

/-- The group index is one for all rows. -/
theorem find?_gIdx_eq_none {first : GptqExpertBank α} {rest : List (GptqExpertBank α)} :
    ((rest.zipIdx 1).find? fun row => !row.1.gIdx.equal first.gIdx) = none ↔
      ∀ r ∈ first :: rest, r.gIdx.Same first.gIdx := by
  rw [List.find?_eq_none]
  constructor
  · intro h r hr
    rcases List.mem_cons.mp hr with rfl | hr
    · exact Tensor.Same.refl _
    · obtain ⟨k, hk⟩ := List.mem_iff_getElem?.mp hr
      have hmem : (r, k + 1) ∈ rest.zipIdx 1 := List.mem_zipIdx_iff_le_and_getElem?_sub.mpr
        ⟨Nat.le_add_left 1 k, hk⟩
      apply Tensor.equal_iff.mp
      simpa using h (r, k + 1) hmem
  · intro h row hrow
    have hmem : row.1 ∈ rest := List.fst_mem_of_mem_zipIdx hrow
    simp [Tensor.equal_iff.mpr (h row.1 (List.mem_cons_of_mem first hmem))]

theorem finalizeGptqBank_sound {b : GptqExpertBank α}
    (h : finalizeGptqBank numExperts layer bank slots = .ok b) : GptqBankOf numExperts bank slots b := by
  obtain ⟨rows, hrows, h⟩ := bind_eq_ok.mp h
  have hrow : List.Forall₂ (GptqRow slots layer bank) (List.range numExperts) rows :=
    (mapM_eq_ok.mp hrows).imp fun _ _ => gptqRow_eq_ok.1
  cases rows with
  | nil => cases h
  | cons first rest =>
      dsimp only at h
      split at h
      · cases h
      · next hnone =>
          obtain ⟨qweight, hqw, h⟩ := bind_eq_ok.mp h
          obtain ⟨qzeros, hqz, h⟩ := bind_eq_ok.mp h
          obtain ⟨scales, hs, h⟩ := bind_eq_ok.mp h
          cases h
          refine ⟨?_, ?_, ?_, ?_⟩
          · exact stackedRows_of_stack (hrow.imp fun _ _ hr => fusedRow_of_fused hr.qweight) hqw
          · exact stackedRows_of_stack (hrow.imp fun _ _ hr => fusedRow_of_fused hr.qzeros) hqz
          · exact stackedRows_of_stack (hrow.imp fun _ _ hr => fusedRow_of_fused hr.scales) hs
          · intro e he p hp
            obtain ⟨hlen, hat⟩ := forall₂_range.mp hrow
            obtain ⟨r, hr⟩ : ∃ r, (first :: rest)[e]? = some r :=
              ⟨_, List.getElem?_eq_getElem (by omega)⟩
            obtain ⟨t, ht, hsame⟩ := gptqGroupIndex_eq_ok (hat e r hr).gIdx p hp
            exact ⟨t, ht, hsame.trans (find?_gIdx_eq_none.1 hnone r (List.mem_of_getElem? hr))⟩

theorem GptqBankOf.exists_row {b : GptqExpertBank α} (h : GptqBankOf numExperts bank slots b)
    (layer : Nat) {e : Nat} (he : e < numExperts) :
    ∃ r, GptqRow slots layer bank e r ∧ r.gIdx.Same b.gIdx := by
  obtain ⟨gIdx, hg, hsame⟩ := exists_gptqGroupIndex layer (h.gIdx e he)
  obtain ⟨qweight, hqw, -⟩ :=
    (h.qweight.2 e he).exists_fused layer (h.qweight.dim_select e) (by decide)
  obtain ⟨qzeros, hqz, -⟩ :=
    (h.qzeros.2 e he).exists_fused layer (h.qzeros.dim_select e) (by decide)
  obtain ⟨scales, hs, -⟩ :=
    (h.scales.2 e he).exists_fused layer (h.scales.dim_select e) (by decide)
  exact ⟨⟨qweight, qzeros, scales, gIdx⟩, ⟨hg, hqw, hqz, hs⟩, hsame⟩

theorem finalizeGptqBank_complete {b : GptqExpertBank α} (h : GptqBankOf numExperts bank slots b)
    (hpos : 0 < numExperts) : ∃ b', finalizeGptqBank numExperts layer bank slots = .ok b' := by
  obtain ⟨rows, hrows⟩ : ∃ rows, (List.range numExperts).mapM (gptqRow slots layer bank) = .ok rows := by
    apply exists_mapM_ok
    intro e he
    obtain ⟨r, hr, -⟩ := h.exists_row layer (List.mem_range.mp he)
    exact ⟨r, gptqRow_eq_ok.2 hr⟩
  have hrow : List.Forall₂ (GptqRow slots layer bank) (List.range numExperts) rows :=
    (mapM_eq_ok.mp hrows).imp fun _ _ => gptqRow_eq_ok.1
  have hgIdx : ∀ r ∈ rows, r.gIdx.Same b.gIdx := by
    intro r hr
    obtain ⟨e, he⟩ := List.mem_iff_getElem?.mp hr
    obtain ⟨hlen, hat⟩ := forall₂_range.mp hrow
    have hlt : e < numExperts := by
      rw [← hlen]
      exact (List.getElem?_eq_some_iff.mp he).1
    obtain ⟨r', hr', hsame⟩ := h.exists_row layer hlt
    cases (gptqRow_eq_ok.2 hr').symm.trans (gptqRow_eq_ok.2 (hat e r he))
    exact hsame
  obtain ⟨qweight, hqw⟩ := h.qweight.exists_stack (by decide) hpos (hrow.imp fun _ _ hr => hr.qweight)
  obtain ⟨qzeros, hqz⟩ := h.qzeros.exists_stack (by decide) hpos (hrow.imp fun _ _ hr => hr.qzeros)
  obtain ⟨scales, hs⟩ := h.scales.exists_stack (by decide) hpos (hrow.imp fun _ _ hr => hr.scales)
  cases rows with
  | nil => cases hqw
  | cons first rest =>
      have hnone := find?_gIdx_eq_none.2 fun r hr =>
        (hgIdx r hr).trans (hgIdx first List.mem_cons_self).symm
      refine ⟨⟨qweight, qzeros, scales, first.gIdx⟩, bind_eq_ok.mpr ⟨_, hrows, ?_⟩⟩
      dsimp only
      rw [hnone]
      exact bind_eq_ok.mpr ⟨_, hqw, bind_eq_ok.mpr ⟨_, hqz, bind_eq_ok.mpr ⟨_, hs, rfl⟩⟩⟩

end Gptq

section Fp8

variable {slots : ExpertSlot Fp8Component → Option (Tensor α)} {block layer numExperts : Nat} {bank : Bank}

structure Fp8Row (slots : ExpertSlot Fp8Component → Option (Tensor α)) (block layer : Nat)
    (bank : Bank) (e : Nat) (r : Fp8BlockExpertBank α) : Prop where
  blocks : checkFp8Rows slots block layer bank e = .ok ()
  weight : fused slots layer 0 bank e .weight = .ok r.weight
  weightScaleInv : fused slots layer 0 bank e .weightScaleInv = .ok r.weightScaleInv

theorem fp8Row_eq_ok {e : Nat} {r : Fp8BlockExpertBank α} :
    fp8Row slots block layer bank e = .ok r ↔ Fp8Row slots block layer bank e r := by
  constructor
  · intro h
    obtain ⟨⟨⟩, hblocks, h⟩ := bind_eq_ok.mp h
    obtain ⟨weight, hw, h⟩ := bind_eq_ok.mp h
    obtain ⟨weightScaleInv, hs, h⟩ := bind_eq_ok.mp h
    cases h
    exact ⟨hblocks, hw, hs⟩
  · intro h
    exact bind_eq_ok.mpr ⟨_, h.blocks, bind_eq_ok.mpr ⟨_, h.weight,
      bind_eq_ok.mpr ⟨_, h.weightScaleInv, rfl⟩⟩⟩

/-- The check passes where gate has whole blocks of rows, and an up beside it. -/
theorem checkFp8Rows_eq_ok {e : Nat} :
    checkFp8Rows slots block layer bank e = .ok () ↔ (bank = .gateUp →
      (∃ gate n, slots ⟨e, .gateProj, .weight⟩ = some gate ∧ gate.shape.head? = some n ∧
        block ≠ 0 ∧ block ∣ n) ∧ ∃ up, slots ⟨e, .upProj, .weight⟩ = some up) := by
  cases bank with
  | down => simp [checkFp8Rows, pure, Except.pure]
  | gateUp =>
      simp only [true_implies, checkFp8Rows]
      constructor
      · intro h
        obtain ⟨gate, hgate, h⟩ := bind_eq_ok.mp h
        obtain ⟨up, hup, h⟩ := bind_eq_ok.mp h
        refine ⟨?_, up, component_eq_ok.1 hup⟩
        split at h
        · cases h
        · next n rest hshape =>
            split at h
            · cases h
            · next hblock =>
                split at h
                · cases h
                · next hmod =>
                    refine ⟨gate, n, component_eq_ok.1 hgate, by rw [hshape]; rfl, hblock, ?_⟩
                    exact Nat.dvd_of_mod_eq_zero (Decidable.not_not.mp hmod)
      · rintro ⟨⟨gate, n, hgate, hhead, hblock, hdvd⟩, up, hup⟩
        refine bind_eq_ok.mpr ⟨gate, component_eq_ok.2 hgate, bind_eq_ok.mpr
          ⟨up, component_eq_ok.2 hup, ?_⟩⟩
        obtain ⟨rest, hshape⟩ := List.head?_eq_some_iff.mp hhead
        simp [hshape, hblock, Nat.mod_eq_zero_of_dvd hdvd, pure, Except.pure]

theorem finalizeFp8Bank_sound {b : Fp8BlockExpertBank α}
    (h : finalizeFp8Bank block numExperts layer bank slots = .ok b) :
    Fp8BankOf block numExperts bank slots b := by
  obtain ⟨rows, hrows, h⟩ := bind_eq_ok.mp h
  obtain ⟨weight, hw, h⟩ := bind_eq_ok.mp h
  obtain ⟨weightScaleInv, hs, h⟩ := bind_eq_ok.mp h
  cases h
  have hrow : List.Forall₂ (Fp8Row slots block layer bank) (List.range numExperts) rows :=
    (mapM_eq_ok.mp hrows).imp fun _ _ => fp8Row_eq_ok.1
  refine ⟨?_, ?_, ?_⟩
  · exact stackedRows_of_stack (hrow.imp fun _ _ hr => fusedRow_of_fused hr.weight) hw
  · exact stackedRows_of_stack (hrow.imp fun _ _ hr => fusedRow_of_fused hr.weightScaleInv) hs
  · intro hbank e he
    obtain ⟨hlen, hat⟩ := forall₂_range.mp hrow
    obtain ⟨r, hr⟩ : ∃ r, rows[e]? = some r := ⟨_, List.getElem?_eq_getElem (by omega)⟩
    exact (checkFp8Rows_eq_ok.1 (hat e r hr).blocks hbank).1

theorem finalizeFp8Bank_complete {b : Fp8BlockExpertBank α}
    (h : Fp8BankOf block numExperts bank slots b) (hpos : 0 < numExperts) :
    ∃ b', finalizeFp8Bank block numExperts layer bank slots = .ok b' := by
  obtain ⟨rows, hrows⟩ :
      ∃ rows, (List.range numExperts).mapM (fp8Row slots block layer bank) = .ok rows := by
    apply exists_mapM_ok
    intro e he
    have hlt := List.mem_range.mp he
    obtain ⟨weight, hw, -⟩ :=
      (h.weight.2 e hlt).exists_fused layer (h.weight.dim_select e) (by decide)
    obtain ⟨weightScaleInv, hs, -⟩ := (h.weightScaleInv.2 e hlt).exists_fused layer
      (h.weightScaleInv.dim_select e) (by decide)
    refine ⟨⟨weight, weightScaleInv⟩, fp8Row_eq_ok.2 ⟨?_, hw, hs⟩⟩
    rw [checkFp8Rows_eq_ok]
    intro hbank
    refine ⟨h.blocks hbank e hlt, ?_⟩
    subst hbank
    obtain ⟨gate, up, -, hup, -⟩ := h.weight.2 e hlt
    exact ⟨up, hup⟩
  have hrow : List.Forall₂ (Fp8Row slots block layer bank) (List.range numExperts) rows :=
    (mapM_eq_ok.mp hrows).imp fun _ _ => fp8Row_eq_ok.1
  obtain ⟨weight, hw⟩ := h.weight.exists_stack (by decide) hpos (hrow.imp fun _ _ hr => hr.weight)
  obtain ⟨weightScaleInv, hs⟩ :=
    h.weightScaleInv.exists_stack (by decide) hpos (hrow.imp fun _ _ hr => hr.weightScaleInv)
  exact ⟨⟨weight, weightScaleInv⟩, bind_eq_ok.mpr ⟨rows, hrows, bind_eq_ok.mpr ⟨weight, hw,
    bind_eq_ok.mpr ⟨weightScaleInv, hs, rfl⟩⟩⟩⟩

end Fp8

section Int8

variable {item : α → Int} {slots : ExpertSlot Int8Component → Option (Tensor α)}
  {layer numExperts : Nat} {bank : Bank}

structure Int8Row (item : α → Int) (slots : ExpertSlot Int8Component → Option (Tensor α)) (layer : Nat)
    (bank : Bank) (k : Int) (e : Nat) (r : Int8ExpertBank α) : Prop where
  k_eq : r.k = k
  logicalK : int8K item slots layer bank e = .ok k
  weightPacked : fused slots layer 0 bank e .weightPacked = .ok r.weightPacked
  weightScale : fused slots layer 0 bank e .weightScale = .ok r.weightScale

theorem int8K_eq_ok {e : Nat} {k : Int} :
    int8K item slots layer bank e = .ok k ↔ ∀ p ∈ bank.projs,
      ∃ t, slots ⟨e, p, .weightShape⟩ = some t ∧ int8LogicalK item t = .ok k := by
  cases bank with
  | gateUp =>
      simp only [Bank.projs, List.forall_mem_cons, List.not_mem_nil, false_implies, implies_true,
        and_true, int8K]
      constructor
      · intro h
        obtain ⟨gate, hgate, h⟩ := bind_eq_ok.mp h
        obtain ⟨up, hup, h⟩ := bind_eq_ok.mp h
        obtain ⟨kGate, hkGate, h⟩ := bind_eq_ok.mp h
        obtain ⟨kUp, hkUp, h⟩ := bind_eq_ok.mp h
        split at h
        · next heq =>
            cases h
            exact ⟨⟨gate, component_eq_ok.1 hgate, hkGate⟩, up, component_eq_ok.1 hup, heq ▸ hkUp⟩
        · cases h
      · rintro ⟨⟨gate, hgate, hkGate⟩, up, hup, hkUp⟩
        refine bind_eq_ok.mpr ⟨gate, component_eq_ok.2 hgate, bind_eq_ok.mpr
          ⟨up, component_eq_ok.2 hup, bind_eq_ok.mpr ⟨k, hkGate, bind_eq_ok.mpr ⟨k, hkUp, ?_⟩⟩⟩⟩
        rw [if_pos rfl]
        rfl
  | down =>
      simp only [Bank.projs, List.forall_mem_singleton, int8K, bind_eq_ok, component_eq_ok]

theorem int8Rows_cons {e : Nat} {es : List Nat} {k0 : Option Int} {rows : List (Int8ExpertBank α)} :
    int8Rows item slots layer bank (e :: es) k0 = .ok rows ↔ ∃ k r rest,
      k0.getD k = k ∧ Int8Row item slots layer bank k e r ∧
        int8Rows item slots layer bank es (some k) = .ok rest ∧ rows = r :: rest := by
  constructor
  · intro h
    obtain ⟨k, hk, h⟩ := bind_eq_ok.mp h
    obtain ⟨weightPacked, hp, h⟩ := bind_eq_ok.mp h
    obtain ⟨weightScale, hs, h⟩ := bind_eq_ok.mp h
    split at h
    · cases h
    · next hk0 =>
        have hk0' : k0.getD k = k := (Decidable.not_not.mp hk0).symm
        rw [hk0'] at h
        obtain ⟨rest, hrest, h⟩ := bind_eq_ok.mp h
        cases h
        exact ⟨k, _, rest, hk0', ⟨rfl, hk, hp, hs⟩, hrest, rfl⟩
  · rintro ⟨k, r, rest, hk0, hr, hrest, rfl⟩
    refine bind_eq_ok.mpr ⟨k, hr.logicalK, bind_eq_ok.mpr ⟨_, hr.weightPacked, bind_eq_ok.mpr
      ⟨_, hr.weightScale, ?_⟩⟩⟩
    rw [hk0, if_neg (by simp)]
    refine bind_eq_ok.mpr ⟨rest, hrest, ?_⟩
    rw [← hr.k_eq]
    rfl

theorem int8Rows_some {k : Int} : ∀ {es : List Nat} {rows : List (Int8ExpertBank α)},
    int8Rows item slots layer bank es (some k) = .ok rows ↔
      List.Forall₂ (Int8Row item slots layer bank k) es rows
  | [], rows => by
      rw [List.forall₂_nil_left_iff]
      exact ⟨fun h => by cases h; rfl, fun h => by rw [h]; rfl⟩
  | e :: es, rows => by
      rw [int8Rows_cons, List.forall₂_cons_left_iff]
      constructor
      · rintro ⟨k', r, rest, hk, hr, hrest, rfl⟩
        have hk' : k = k' := hk
        subst hk'
        exact ⟨r, rest, hr, int8Rows_some.1 hrest, rfl⟩
      · rintro ⟨r, rest, hr, hrest, rfl⟩
        exact ⟨k, r, rest, rfl, hr, int8Rows_some.2 hrest, rfl⟩

/-- All experts have the in-features of the first. -/
theorem int8Rows_none {es : List Nat} (hne : es ≠ []) {rows : List (Int8ExpertBank α)} :
    int8Rows item slots layer bank es none = .ok rows ↔
      ∃ k, List.Forall₂ (Int8Row item slots layer bank k) es rows := by
  cases es with
  | nil => exact absurd rfl hne
  | cons e es =>
      rw [int8Rows_cons]
      constructor
      · rintro ⟨k, r, rest, -, hr, hrest, rfl⟩
        exact ⟨k, .cons hr (int8Rows_some.1 hrest)⟩
      · rintro ⟨k, h⟩
        obtain ⟨r, rest, hr, hrest, rfl⟩ := List.forall₂_cons_left_iff.mp h
        exact ⟨k, r, rest, rfl, hr, int8Rows_some.2 hrest, rfl⟩

theorem range_ne_nil {n : Nat} (h : 0 < n) : List.range n ≠ [] := by
  rw [ne_eq, List.range_eq_nil]
  omega

theorem finalizeInt8Bank_sound {b : Int8ExpertBank α} (hpos : 0 < numExperts)
    (h : finalizeInt8Bank item numExperts layer bank slots = .ok b) :
    Int8BankOf item numExperts bank slots b := by
  obtain ⟨rows, hrows, h⟩ := bind_eq_ok.mp h
  obtain ⟨weightPacked, hp, h⟩ := bind_eq_ok.mp h
  obtain ⟨weightScale, hs, h⟩ := bind_eq_ok.mp h
  obtain ⟨k, hrow⟩ := (int8Rows_none (range_ne_nil hpos)).mp hrows
  obtain ⟨hlen, hat⟩ := forall₂_range.mp hrow
  cases rows with
  | nil => cases h
  | cons first rest =>
      cases h
      refine ⟨?_, ?_, ?_⟩
      · exact stackedRows_of_stack (hrow.imp fun _ _ hr => fusedRow_of_fused hr.weightPacked) hp
      · exact stackedRows_of_stack (hrow.imp fun _ _ hr => fusedRow_of_fused hr.weightScale) hs
      · intro e he
        obtain ⟨r, hr⟩ : ∃ r, (first :: rest)[e]? = some r := ⟨_, List.getElem?_eq_getElem (by omega)⟩
        rw [(hat 0 first rfl).k_eq]
        exact int8K_eq_ok.1 (hat e r hr).logicalK

theorem finalizeInt8Bank_complete {b : Int8ExpertBank α} (h : Int8BankOf item numExperts bank slots b)
    (hpos : 0 < numExperts) : ∃ b', finalizeInt8Bank item numExperts layer bank slots = .ok b' := by
  have hexists : ∀ e ∈ List.range numExperts, ∃ r, Int8Row item slots layer bank b.k e r := by
    intro e he
    have hlt := List.mem_range.mp he
    obtain ⟨weightPacked, hp, -⟩ := (h.weightPacked.2 e hlt).exists_fused layer
      (h.weightPacked.dim_select e) (by decide)
    obtain ⟨weightScale, hs, -⟩ := (h.weightScale.2 e hlt).exists_fused layer
      (h.weightScale.dim_select e) (by decide)
    exact ⟨⟨weightPacked, weightScale, b.k⟩, rfl, int8K_eq_ok.2 (h.k e hlt), hp, hs⟩
  obtain ⟨rows, hrow⟩ := exists_forall₂ hexists
  obtain ⟨weightPacked, hp⟩ :=
    h.weightPacked.exists_stack (by decide) hpos (hrow.imp fun _ _ hr => hr.weightPacked)
  obtain ⟨weightScale, hs⟩ :=
    h.weightScale.exists_stack (by decide) hpos (hrow.imp fun _ _ hr => hr.weightScale)
  have hrows := (int8Rows_none (range_ne_nil hpos)).mpr ⟨b.k, hrow⟩
  cases rows with
  | nil => cases hp
  | cons first rest =>
      exact ⟨_, bind_eq_ok.mpr ⟨_, hrows, bind_eq_ok.mpr ⟨_, hp, bind_eq_ok.mpr ⟨_, hs, rfl⟩⟩⟩⟩

end Int8

theorem finalizeMxfp4Bank_eq_ok {numExperts layer : Nat} {bank : Bank}
    {slots : Mxfp4Component → Option (Tensor α)} {b : MxfpExpertBank α} :
    finalizeMxfp4Bank numExperts layer bank slots = .ok b ↔ Mxfp4BankOf numExperts slots b := by
  constructor
  · intro h
    rw [finalizeMxfp4Bank] at h
    split at h
    · next blocks scales hblocks hscales =>
        split at h
        · cases h
        · next count rest hshape =>
            split at h
            · cases h
            · next hcount =>
                split at h
                · cases h
                · next hshapes =>
                    cases h
                    refine ⟨hblocks, hscales, ?_, Decidable.not_not.mp hshapes⟩
                    rw [hshape, ← Decidable.not_not.mp hcount]
                    rfl
    · cases h
  · intro h
    obtain ⟨rest, hshape⟩ := List.head?_eq_some_iff.mp h.experts
    have hshapes := h.shapes
    rw [hshape] at hshapes
    simp [finalizeMxfp4Bank, h.blocks, h.scales, hshape, hshapes]

/-! ### The streams -/

theorem MoeConfig.mem_banks {config : MoeConfig} {group : Nat × Bank} :
    group ∈ config.banks ↔ group.1 < config.numLayers := by
  obtain ⟨layer, bank⟩ := group
  simp only [banks, List.mem_flatMap, List.mem_range, List.mem_cons, Prod.mk.injEq, List.not_mem_nil,
    or_false]
  constructor
  · rintro ⟨l, hl, ⟨rfl, -⟩ | ⟨rfl, -⟩⟩ <;> exact hl
  · intro h
    refine ⟨layer, h, ?_⟩
    cases bank
    · exact .inl ⟨rfl, rfl⟩
    · exact .inr ⟨rfl, rfl⟩

variable [DecidableEq σ]

/-- Every tensor has a place, no two the same, and each bank of the config has all of its tensors. -/
structure Complete (A : Assembly String (Nat × Bank) σ (Tensor α) ExpertError β) (config : MoeConfig)
    (tensors : List (String × Tensor α)) : Prop where
  distinct : A.Distinct tensors
  covered : ∀ group ∈ config.banks, A.Covered tensors group

/-- `Of` describes the banks of a format. -/
structure Builds (A : Assembly String (Nat × Bank) σ (Tensor α) ExpertError β) (config : MoeConfig)
    (Of : Nat × Bank → (σ → Option (Tensor α)) → β → Prop) : Prop where
  sound : ∀ {group slots b}, A.finish group slots = .ok b → Of group slots b
  complete : ∀ {group slots b}, Of group slots b → ∃ b', A.finish group slots = .ok b'
  place_mem : ∀ {name group slot}, A.place name = .ok (group, slot) → group ∈ config.banks
  late : ∀ name group, (A.late name group).IsValueError
  repeated : ∀ name group slot, (A.repeated name group slot).IsValueError

section Streams

variable {A : Assembly String (Nat × Bank) σ (Tensor α) ExpertError β} {config : MoeConfig}
  {tensors tensors' : List (String × Tensor α)}

omit [DecidableEq σ] in
theorem finalizedBank_eq_ok {st : Assembly.State (Nat × Bank) σ (Tensor α) β} {layer : Nat}
    {bank : Bank} {b : β} :
    finalizedBank st layer bank = .ok b ↔ st.finalized.get? (layer, bank) = some b := by
  rw [finalizedBank]
  cases st.finalized.get? (layer, bank) <;> simp

/-- A bank is finalized where all its tensors came, from just these. -/
theorem holds_get?_eq_some {st : Assembly.State (Nat × Bank) σ (Tensor α) β}
    (h : A.Holds tensors st) {group : Nat × Bank} {b : β} :
    st.finalized.get? group = some b ↔
      A.Covered tensors group ∧ A.finish group (A.lookup tensors group) = .ok b := by
  by_cases hcov : A.Covered tensors group
  · obtain ⟨whole, hfin, hwhole⟩ := h.assembled group hcov
    rw [hwhole, hfin]
    simp [hcov]
  · simp [(h.buffered group hcov).1, hcov]

/-- The banks that are returned. -/
def Returned (A : Assembly String (Nat × Bank) σ (Tensor α) ExpertError β) (config : MoeConfig)
    (tensors : List (String × Tensor α)) (bank : Bank) (bs : List β) : Prop :=
  List.Forall₂ (fun layer b => A.finish (layer, bank) (A.lookup tensors (layer, bank)) = .ok b)
    (List.range config.numLayers) bs

theorem Returned.exists_row {bank : Bank} {bs : List β}
    (h : Returned A config tensors bank bs) {layer : Nat} (hlt : layer < config.numLayers) :
    ∃ b, A.finish (layer, bank) (A.lookup tensors (layer, bank)) = .ok b := by
  obtain ⟨hlen, hat⟩ := forall₂_range.mp h
  obtain ⟨b, hb⟩ : ∃ b, bs[layer]? = some b := ⟨_, List.getElem?_eq_getElem (by omega)⟩
  exact ⟨b, hat layer b hb⟩

theorem complete_of_missing_eq_nil {st : Assembly.State (Nat × Bank) σ (Tensor α) β}
    (hst : A.Holds tensors st)
    (hmissing : (config.banks.filter fun group => (st.finalized.get? group).isNone) = []) :
    Complete A config tensors := by
  refine ⟨hst.distinct, ?_⟩
  intro group hgroup
  have hnone := List.filter_eq_nil_iff.mp hmissing group hgroup
  rw [Option.isNone_iff_eq_none, ← ne_eq, Option.ne_none_iff_exists'] at hnone
  obtain ⟨b, hb⟩ := hnone
  exact ((holds_get?_eq_some hst).mp hb).1

theorem streamBanks_eq_ok {Of : Nat × Bank → (σ → Option (Tensor α)) → β → Prop}
    (hA : Builds A config Of) {gateUp down : List β} :
    streamBanks A config tensors = .ok (gateUp, down) ↔ Complete A config tensors ∧
      Returned A config tensors .gateUp gateUp ∧ Returned A config tensors .down down := by
  constructor
  · intro h
    obtain ⟨st, hrun, h⟩ := bind_eq_ok.mp h
    have hst := Assembly.run_holds hrun
    dsimp only [returnBanks] at h
    split at h
    · cases h
    · next hmissing =>
        obtain ⟨gateUp', hgateUp, h⟩ := bind_eq_ok.mp h
        obtain ⟨down', hdown, h⟩ := bind_eq_ok.mp h
        cases h
        refine ⟨complete_of_missing_eq_nil hst (Decidable.not_not.mp hmissing), ?_, ?_⟩
        · apply (mapM_eq_ok.mp hgateUp).imp
          intro layer b hb
          exact ((holds_get?_eq_some hst).mp (finalizedBank_eq_ok.1 hb)).2
        · apply (mapM_eq_ok.mp hdown).imp
          intro layer b hb
          exact ((holds_get?_eq_some hst).mp (finalizedBank_eq_ok.1 hb)).2
  · rintro ⟨hcomplete, hgateUp, hdown⟩
    have hfin : ∀ group ∈ config.banks, ∃ b, A.finish group (A.lookup tensors group) = .ok b := by
      rintro ⟨layer, bank⟩ hgroup
      have hlt := MoeConfig.mem_banks.1 hgroup
      cases bank
      · exact hgateUp.exists_row hlt
      · exact hdown.exists_row hlt
    have hfits : A.Fits tensors := by
      refine ⟨hcomplete.distinct, ?_⟩
      intro group hcov
      obtain ⟨slot, hslot⟩ := List.exists_mem_of_ne_nil _ (A.required_ne_nil group)
      obtain ⟨item, -, hplace⟩ := Assembly.lookup_isSome.mp (hcov slot hslot)
      exact hfin group (hA.place_mem hplace)
    obtain ⟨st, hrun⟩ := Assembly.run_isOk_iff.mpr hfits
    have hst := Assembly.run_holds hrun
    have hmissing : (config.banks.filter fun group => (st.finalized.get? group).isNone) = [] := by
      rw [List.filter_eq_nil_iff]
      intro group hgroup
      obtain ⟨b, hb⟩ := hfin group hgroup
      rw [(holds_get?_eq_some hst).mpr ⟨hcomplete.covered group hgroup, hb⟩]
      simp
    have hmapM : ∀ {bank bs}, Returned A config tensors bank bs →
        (List.range config.numLayers).mapM (fun layer => finalizedBank st layer bank) = .ok bs := by
      intro bank bs hbs
      rw [mapM_eq_ok, forall₂_range]
      obtain ⟨hlen, hat⟩ := forall₂_range.mp hbs
      refine ⟨hlen, ?_⟩
      intro layer b hb
      have hlt : layer < config.numLayers := by
        rw [← hlen]
        exact (List.getElem?_eq_some_iff.mp hb).1
      rw [finalizedBank_eq_ok, (holds_get?_eq_some hst)]
      exact ⟨hcomplete.covered _ (MoeConfig.mem_banks.2 hlt), hat layer b hb⟩
    refine bind_eq_ok.mpr ⟨st, hrun, ?_⟩
    dsimp only [returnBanks]
    rw [hmissing, if_neg (by simp)]
    exact bind_eq_ok.mpr ⟨gateUp, hmapM hgateUp, bind_eq_ok.mpr ⟨down, hmapM hdown, rfl⟩⟩

/-- The banks of a complete stream are there where each of them can be built. -/
theorem exists_streamBanks {Of : Nat × Bank → (σ → Option (Tensor α)) → β → Prop}
    (hA : Builds A config Of) (hcomplete : Complete A config tensors) :
    (∃ banks, streamBanks A config tensors = .ok banks) ↔
      ∀ group ∈ config.banks, ∃ b, Of group (A.lookup tensors group) b := by
  constructor
  · rintro ⟨⟨gateUp, down⟩, h⟩ ⟨layer, bank⟩ hgroup
    obtain ⟨-, hgateUp, hdown⟩ := (streamBanks_eq_ok hA).mp h
    have hlt := MoeConfig.mem_banks.1 hgroup
    cases bank
    · obtain ⟨b, hb⟩ := hgateUp.exists_row hlt
      exact ⟨b, hA.sound hb⟩
    · obtain ⟨b, hb⟩ := hdown.exists_row hlt
      exact ⟨b, hA.sound hb⟩
  · intro h
    have hbanks : ∀ bank, ∃ bs, Returned A config tensors bank bs := by
      intro bank
      apply exists_forall₂
      intro layer hlayer
      obtain ⟨b, hb⟩ := h (layer, bank) (MoeConfig.mem_banks.2 (List.mem_range.mp hlayer))
      exact hA.complete hb
    obtain ⟨gateUp, hgateUp⟩ := hbanks .gateUp
    obtain ⟨down, hdown⟩ := hbanks .down
    exact ⟨(gateUp, down), (streamBanks_eq_ok hA).mpr ⟨hcomplete, hgateUp, hdown⟩⟩

theorem Complete.perm (h : Complete A config tensors) (hperm : tensors.Perm tensors') :
    Complete A config tensors' := by
  refine ⟨h.distinct.perm hperm, ?_⟩
  intro group hgroup
  rw [Assembly.Covered, ← h.distinct.lookup_perm hperm]
  exact h.covered group hgroup

theorem streamBanks_perm {Of : Nat × Bank → (σ → Option (Tensor α)) → β → Prop}
    (hA : Builds A config Of) (hperm : tensors.Perm tensors') {banks : List β × List β}
    (h : streamBanks A config tensors = .ok banks) : streamBanks A config tensors' = .ok banks := by
  obtain ⟨hcomplete, hgateUp, hdown⟩ := (streamBanks_eq_ok hA).mp h
  rw [Returned, hcomplete.distinct.lookup_perm hperm] at hgateUp hdown
  exact (streamBanks_eq_ok hA).mpr ⟨hcomplete.perm hperm, hgateUp, hdown⟩

/-- The error of a stream that lacks a tensor or has one twice. -/
theorem streamBanks_incomplete {Of : Nat × Bank → (σ → Option (Tensor α)) → β → Prop}
    (hA : Builds A config Of) (h : ¬ Complete A config tensors) :
    ∃ e, streamBanks A config tensors = .error e ∧
      ((∀ item ∈ tensors, ∃ place, A.place item.1 = .ok place) →
        e.IsValueError ∨ ∃ group slots, (∀ slot ∈ A.required group, (slots slot).isSome) ∧
          (∀ slot t, slots slot = some t → ∃ item ∈ tensors, A.At item.1 group slot ∧ item.2 = t) ∧
          A.finish group slots = .error e) := by
  cases hstream : streamBanks A config tensors with
  | ok banks =>
      obtain ⟨gateUp, down⟩ := banks
      exact absurd ((streamBanks_eq_ok hA).mp hstream).1 h
  | error e =>
      refine ⟨e, rfl, ?_⟩
      intro hplaced
      rcases A.run_cases tensors with ⟨st, hrun, hst⟩ | ⟨e', hrun, hrefused⟩
      · left
        rw [streamBanks, hrun] at hstream
        have hreturn : returnBanks config st = .error e := hstream
        rw [returnBanks] at hreturn
        split at hreturn
        · cases hreturn
          trivial
        · next hmissing =>
            exact absurd (complete_of_missing_eq_nil hst (Decidable.not_not.mp hmissing)) h
      · rw [streamBanks, hrun] at hstream
        cases hstream
        cases hrefused with
        | unplaced mem place =>
            obtain ⟨place', hplace'⟩ := hplaced _ mem
            cases place.symm.trans hplace'
        | late name group => exact .inl (hA.late name group)
        | repeated name group slot => exact .inl (hA.repeated name group slot)
        | unfit filled came finish => exact .inr ⟨_, _, filled, came, finish⟩

end Streams

/-! ### Any order -/

/-- What a streamer does with a stream, whatever the order of its tensors. -/
structure OrderFree (stream : List (String × Tensor α) → Except ExpertError (List β × List β))
    (A : Assembly String (Nat × Bank) σ (Tensor α) ExpertError β) (config : MoeConfig)
    (Of : Nat × Bank → (σ → Option (Tensor α)) → β → Prop) : Prop where
  /-- The banks are the same for every permutation. -/
  perm : ∀ {tensors tensors' : List (String × Tensor α)}, tensors.Perm tensors' →
    ∀ banks, stream tensors = .ok banks ↔ stream tensors' = .ok banks
  /-- A complete stream gives banks where its tensors make banks of the format. -/
  returns : ∀ {tensors : List (String × Tensor α)}, Complete A config tensors →
    ((∃ banks, stream tensors = .ok banks) ↔
      ∀ group ∈ config.banks, ∃ b, Of group (A.lookup tensors group) b)
  /-- Layer by layer, they are the banks of the tensors that came. -/
  banks : ∀ {tensors : List (String × Tensor α)} {gateUp down : List β},
    stream tensors = .ok (gateUp, down) →
      List.Forall₂ (fun layer b => Of (layer, .gateUp) (A.lookup tensors (layer, .gateUp)) b)
          (List.range config.numLayers) gateUp ∧
        List.Forall₂ (fun layer b => Of (layer, .down) (A.lookup tensors (layer, .down)) b)
          (List.range config.numLayers) down
  /-- A stream that lacks a tensor or has one twice is refused, with a `ValueError` unless tensors
  that fill a bank cannot be put together. -/
  refuses : ∀ {tensors : List (String × Tensor α)}, ¬ Complete A config tensors →
    ∃ e, stream tensors = .error e ∧
      ((∀ item ∈ tensors, ∃ place, A.place item.1 = .ok place) →
        e.IsValueError ∨ ∃ group slots, (∀ slot ∈ A.required group, (slots slot).isSome) ∧
          (∀ slot t, slots slot = some t → ∃ item ∈ tensors, A.At item.1 group slot ∧ item.2 = t) ∧
          A.finish group slots = .error e)

theorem Builds.orderFree {A : Assembly String (Nat × Bank) σ (Tensor α) ExpertError β}
    {config : MoeConfig} {Of : Nat × Bank → (σ → Option (Tensor α)) → β → Prop}
    (hA : Builds A config Of) : OrderFree (streamBanks A config) A config Of where
  perm hperm _ := ⟨streamBanks_perm hA hperm, streamBanks_perm hA hperm.symm⟩
  returns := exists_streamBanks hA
  banks h := by
    obtain ⟨-, hgateUp, hdown⟩ := (streamBanks_eq_ok hA).mp h
    exact ⟨hgateUp.imp fun _ _ hb => hA.sound hb, hdown.imp fun _ _ hb => hA.sound hb⟩
  refuses := streamBanks_incomplete hA

theorem ExpertFormat.builds [DecidableEq κ] {F : ExpertFormat κ α β} {config : MoeConfig}
    {Of : Nat × Bank → (ExpertSlot κ → Option (Tensor α)) → β → Prop}
    (sound : ∀ {group slots b}, F.finalize config.numExperts group.1 group.2 slots = .ok b →
      Of group slots b)
    (complete : ∀ {group slots b}, Of group slots b →
      ∃ b', F.finalize config.numExperts group.1 group.2 slots = .ok b') :
    Builds (F.assembly config) config Of where
  sound := sound
  complete := complete
  place_mem h := MoeConfig.mem_banks.2 (F.place_eq_ok h).1
  late _ _ := trivial
  repeated _ _ _ := trivial

theorem mxfp4_builds {config : MoeConfig} :
    Builds (mxfp4Assembly config) config
      (fun _ slots => Mxfp4BankOf (α := α) config.numExperts slots) where
  sound h := finalizeMxfp4Bank_eq_ok.1 h
  complete h := ⟨_, finalizeMxfp4Bank_eq_ok.2 h⟩
  place_mem := by
    intro name group slot h
    obtain ⟨key, -, h⟩ := bind_eq_ok.mp h
    obtain ⟨layer, hlayer, h⟩ := bind_eq_ok.mp h
    cases h
    exact MoeConfig.mem_banks.2 (checkLayer_eq_ok.mp hlayer).2
  late _ _ := trivial
  repeated _ _ _ := trivial

/-- The four streamers return the same banks for every order of the tensors. -/
theorem quantStreams_orderFree [DecidableEq α] (config : MoeConfig) (block : Nat) (item : α → Int) :
    OrderFree (streamMoeExpertSourcesGptq config) (gptqFormat.assembly config) config
        (fun group slots => GptqBankOf (α := α) config.numExperts group.2 slots) ∧
      OrderFree (streamMoeExpertSourcesFp8 block config) ((fp8Format block).assembly config) config
        (fun group slots => Fp8BankOf (α := α) block config.numExperts group.2 slots) ∧
      OrderFree (streamMoeExpertSourcesInt8 item config) ((int8Format item).assembly config) config
        (fun group slots => Int8BankOf item config.numExperts group.2 slots) ∧
      OrderFree (streamMoeExpertSourcesMxfp4 config) (mxfp4Assembly config) config
        (fun _ slots => Mxfp4BankOf (α := α) config.numExperts slots) := by
  have hpos := config.numExperts_pos
  refine ⟨Builds.orderFree ?_, Builds.orderFree ?_, Builds.orderFree ?_, mxfp4_builds.orderFree⟩
  · exact ExpertFormat.builds finalizeGptqBank_sound fun h => finalizeGptqBank_complete h hpos
  · exact ExpertFormat.builds finalizeFp8Bank_sound fun h => finalizeFp8Bank_complete h hpos
  · exact ExpertFormat.builds (finalizeInt8Bank_sound hpos) fun h => finalizeInt8Bank_complete h hpos

/-! ### Streams without banks -/

instance (A : Assembly String (Nat × Bank) σ (Tensor α) ExpertError β) (config : MoeConfig)
    (tensors : List (String × Tensor α)) : Decidable (Complete A config tensors) :=
  decidable_of_iff
    (A.Distinct tensors ∧ ∀ group ∈ config.banks, A.Covered tensors group)
    ⟨fun h => ⟨h.1, h.2⟩, fun h => ⟨h.distinct, h.covered⟩⟩

def oneExpert : MoeConfig := ⟨1, 1, 0, Nat.one_pos⟩

def zeros (shape : List Nat) : Tensor Int := ⟨shape, fun _ => 0⟩

/-- The tensors of one expert, of which gate has the shape `gate`. -/
def oneExpertFp8 (gate : List Nat) : List (String × Tensor Int) :=
  [("model.layers.0.mlp.experts.0.gate_proj.weight", zeros gate),
    ("model.layers.0.mlp.experts.0.gate_proj.weight_scale_inv", zeros [1, 1]),
    ("model.layers.0.mlp.experts.0.up_proj.weight", zeros [1, 1]),
    ("model.layers.0.mlp.experts.0.up_proj.weight_scale_inv", zeros [1, 1]),
    ("model.layers.0.mlp.experts.0.down_proj.weight", zeros [1, 1]),
    ("model.layers.0.mlp.experts.0.down_proj.weight_scale_inv", zeros [1, 1])]

/-- A gate of one row has no whole block, and one without rows is no matrix: the first stream is
complete and gives no banks, the second lacks a tensor and is not refused with a `ValueError`. -/
theorem oneExpertFp8_refused :
    (Complete ((fp8Format fp8DefaultBlock).assembly oneExpert) oneExpert (oneExpertFp8 [1, 1]) ∧
      streamMoeExpertSourcesFp8 fp8DefaultBlock oneExpert (oneExpertFp8 [1, 1]) =
        .error (.notMultiple 0 0 1 128)) ∧
    (¬ Complete ((fp8Format fp8DefaultBlock).assembly oneExpert) oneExpert ((oneExpertFp8 []).take 4) ∧
      streamMoeExpertSourcesFp8 fp8DefaultBlock oneExpert ((oneExpertFp8 []).take 4) =
        .error .torch) := by
  refine ⟨⟨?_, ?_⟩, ?_, ?_⟩
  · decide +kernel
  · rw [← failure_eq_some]
    decide +kernel
  · decide +kernel
  · rw [← failure_eq_some]
    decide +kernel

end FreeToken.Experts
