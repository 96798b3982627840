import FreeToken.Moe.ExpertRuns
import FreeToken.Moe.HybridExperts
import Mathlib.Algebra.BigOperators.Pi
import Mathlib.Analysis.Complex.Exponential
import Mathlib.Tactic.Ring

/-!
# Hybrid against offload

Where the cache is coherent, the offload half adds up, for each token, its experts outside the
excluded ones with their router weights; the CPU half adds up the excluded ones, each with
weight `1`. So the hybrid output is the offload output exactly when, for each token, the
experts of the CPU half, each times what its router weight lacks to `1`, add up to zero.
-/

namespace FreeToken

open ScatterAdd OffloadMoeCache

namespace MoeModel

variable {K : Type} [CommRing K] {m : MoeModel K} {layer : Nat} {isPrefill : Bool}
  {flat : Nat → Nat → K} {r : Routing K} {c c' : OffloadMoeCache (Nat → Nat → K)}
  {gateUp down : Nat → Nat → Nat → Nat → K}

/-- What the expert in a column of a row makes of its token. -/
def expertOut (m : MoeModel K) (gateUp down : Nat → Nat → Nat → Nat → K) (layer : Nat)
    (flat : Nat → Nat → K) (r : Routing K) (i j o : Nat) : K :=
  m.swiglu (m.weightsOf (gateUp layer (r.idx i j)) (down layer (r.idx i j))) (flat i) o

/-! ### The offload half -/

/-- What the offload half asks of the cache. -/
def offloadCall (layer : Nat) (isPrefill : Bool) (r : Routing K) (exclude : List Nat) : Call :=
  if isPrefill then .materialize layer else .ensure layer (r.flatIds.filter (· ∉ exclude))

theorem forwardOffloadCore_eq (m : MoeModel K) {exclude : List Nat}
    {weights : Nat → ExpertWeights K}
    (hnext : next c (offloadCall layer isPrefill r exclude) = some c')
    (hweights : m.slotWeights c' = .ok weights) :
    m.forwardOffloadCore c layer isPrefill flat r exclude =
      .ok (scatterAdd ((groups c' layer r exclude).map fun g =>
        (g.2.2, fun o => r.w g.2.2 g.1 * m.swiglu (weights g.2.1) (flat g.2.2) o)), c') := by
  cases isPrefill with
  | true =>
      obtain ⟨c1, hc1, hcopy⟩ := bind_toOption hnext
      simp only [forwardOffloadCore, if_true, hc1, bind, Except.bind, hcopy, hweights]
      rfl
  | false =>
      obtain ⟨c1, hc1, hcopy⟩ := bind_toOption hnext
      simp only [forwardOffloadCore, Bool.false_eq_true, if_false, hc1, bind, Except.bind, hcopy,
        hweights]
      rfl

omit [CommRing K] in
theorem mem_flatIds {e : Nat} : e ∈ r.flatIds ↔ ∃ i < r.tokens, ∃ j < r.topK, r.idx i j = e := by
  simp [Routing.flatIds]

omit [CommRing K] in
theorem banks_of_sources (h : c.sources = [("gate_up", gateUp), ("down", down)]) :
    ∃ b1 b2, c.banks = [b1, b2] ∧ (b1.name = "gate_up" ∧ b1.host = gateUp) ∧
      b2.name = "down" ∧ b2.host = down := by
  have hlen := congrArg List.length h
  rw [OffloadMoeCache.sources, List.length_map] at hlen
  obtain ⟨b1, b2, hbanks⟩ := List.length_eq_two.mp hlen
  rw [OffloadMoeCache.sources, hbanks] at h
  simp only [List.map_cons, List.map_nil, List.cons.injEq, Prod.mk.injEq, and_true] at h
  exact ⟨b1, b2, hbanks, h⟩

omit [CommRing K] in
theorem weights_of_sources (m : MoeModel K) (h : c.Coherent)
    (hsources : c.sources = [("gate_up", gateUp), ("down", down)]) :
    ∃ weights, m.slotWeights c = .ok weights ∧
      ∀ e s, e < c.numExperts → c.slotForId (c.flatId layer e) = some s →
        weights s = m.weightsOf (gateUp layer e) (down layer e) := by
  obtain ⟨b1, b2, hbanks, ⟨-, hgate⟩, -, hdown⟩ := banks_of_sources hsources
  refine ⟨fun s => m.weightsOf (b1.cache s) (b2.cache s), ?_, ?_⟩
  · rw [slotWeights, hbanks]
  · intro e s he hs
    have hid := (h.inverse _ s).mp hs
    have hrow1 := h.rows b1 (by simp [hbanks]) s _ hid
    have hrow2 := h.rows b2 (by simp [hbanks]) s _ hid
    rw [flatId_div he, flatId_mod he] at hrow1 hrow2
    dsimp only
    rw [hrow1, hrow2, hgate, hdown]

/-- The groups, expert by expert. -/
theorem groups_eq (weights : Nat → ExpertWeights K) (exclude : List Nat) :
    ((groups c layer r exclude).map fun g =>
        (g.2.2, fun o => r.w g.2.2 g.1 * m.swiglu (weights g.2.1) (flat g.2.2) o)) =
      keyMajor c.numExperts r.tokens r.topK r.idx
        (fun e => e ∉ exclude ∧ (slotOf c layer e).isSome) fun e j i o =>
          r.w i j * m.swiglu (weights ((slotOf c layer e).getD 0)) (flat i) o := by
  rw [groups, keyMajor, List.map_flatMap]
  congr 1
  funext e
  by_cases he : e ∈ exclude
  · rw [if_pos he, if_neg fun hkeep => hkeep.1 he]
    rfl
  · rw [if_neg he]
    cases hs : slotOf c layer e with
    | none =>
        rw [if_neg fun hkeep => by cases hkeep.2]
        rfl
    | some s =>
        rw [if_pos ⟨he, rfl⟩, List.map_map]
        rfl

/-- An expert that is not excluded was asked for, so it has a slot. -/
theorem slot_of_next (h : c.Coherent) {exclude : List Nat}
    (hlt : ∀ i < r.tokens, ∀ j < r.topK, r.idx i j < c.numExperts)
    (hnext : next c (offloadCall layer isPrefill r exclude) = some c') {i j : Nat}
    (hi : i < r.tokens) (hj : j < r.topK) (hout : r.idx i j ∉ exclude) :
    ∃ s, c'.slotForId (c'.flatId layer (r.idx i j)) = some s ∧
      slotOf c' layer (r.idx i j) = some s := by
  have hc' := next_coherent h hnext
  have hflat : c'.flatId layer (r.idx i j) = c.flatId layer (r.idx i j) := by
    rw [flatId, flatId, (next_fits ⟨rfl, rfl, rfl⟩ h hnext).numExperts_eq]
  have hslot : ∃ s, c'.slotForId (c.flatId layer (r.idx i j)) = some s := by
    cases isPrefill with
    | true =>
        exact resident_of_next h rfl hnext _ (List.mem_range.mpr (hlt i hi j hj))
    | false =>
        refine resident_of_next h rfl hnext _ (List.mem_filter.mpr ⟨?_, decide_eq_true hout⟩)
        exact mem_flatIds.mpr ⟨i, hi, j, hj, rfl⟩
  rw [← hflat] at hslot
  obtain ⟨s, hs⟩ := hslot
  refine ⟨s, hs, ?_⟩
  rw [slotOf, hs]
  exact Option.filter_some_pos (decide_eq_true (hc'.ok.owner_lt s _ ((hc'.inverse _ s).mp hs)))

/-- For each token, the offload half adds up its experts outside the excluded ones. -/
theorem offloadCore_sum (h : c.Coherent)
    (hsources : c.sources = [("gate_up", gateUp), ("down", down)]) {exclude : List Nat}
    (hlt : ∀ i < r.tokens, ∀ j < r.topK, r.idx i j < c.numExperts)
    (hnext : next c (offloadCall layer isPrefill r exclude) = some c') :
    ∃ out, m.forwardOffloadCore c layer isPrefill flat r exclude = .ok (out, c') ∧
      ∀ i < r.tokens, ∀ o, out i o = ∑ j ∈ Finset.range r.topK,
        if r.idx i j ∉ exclude then r.w i j * m.expertOut gateUp down layer flat r i j o else 0 := by
  have hc' := next_coherent h hnext
  have hfits : c'.Fits c.numLayers c.numExperts [("gate_up", gateUp), ("down", down)] :=
    next_fits ⟨rfl, rfl, hsources⟩ h hnext
  obtain ⟨weights, hweights, hrows⟩ : ∃ weights, m.slotWeights c' = .ok weights ∧
      ∀ e s, e < c'.numExperts → c'.slotForId (c'.flatId layer e) = some s →
        weights s = m.weightsOf (gateUp layer e) (down layer e) :=
    weights_of_sources m hc' hfits.sources_eq
  refine ⟨_, forwardOffloadCore_eq m hnext hweights, ?_⟩
  intro i hi o
  have hkey : ∀ j < r.topK, r.idx i j < c'.numExperts := fun j hj => by
    rw [hfits.numExperts_eq]
    exact hlt i hi j hj
  rw [groups_eq, scatterAdd_keyMajor hi hkey, Finset.sum_apply]
  apply Finset.sum_congr rfl
  intro j hj
  have hj' := Finset.mem_range.mp hj
  by_cases hout : r.idx i j ∈ exclude
  · rw [if_neg fun hkeep => hkeep.1 hout, if_neg fun hnot => hnot hout]
    rfl
  · obtain ⟨s, hs, hof⟩ := slot_of_next h hlt hnext hi hj' hout
    rw [if_pos ⟨hout, by rw [hof]; rfl⟩, if_pos hout, hof, Option.getD_some,
      hrows _ s (hkey j hj') hs, expertOut]

/-! ### The CPU half -/

omit [CommRing K] in
theorem hostWeights_eq (m : MoeModel K)
    (hsources : c.sources = [("gate_up", gateUp), ("down", down)]) :
    m.hostWeights c layer = .ok fun e => m.weightsOf (gateUp layer e) (down layer e) := by
  obtain ⟨b1, b2, hbanks, ⟨hname1, hgate⟩, hname2, hdown⟩ := banks_of_sources hsources
  simp [hostWeights, hbanks, List.find?, hname1, hname2, hgate, hdown]

theorem cpuForward_sum {numExperts : Nat} {weights : Nat → ExpertWeights K} {mask : Nat → Bool}
    (hlt : ∀ i < r.tokens, ∀ j < r.topK, r.idx i j < numExperts) {i : Nat} (hi : i < r.tokens)
    (o : Nat) :
    m.cpuForward numExperts weights flat r mask i o = ∑ j ∈ Finset.range r.topK,
      if mask (r.idx i j) = true then r.w i j * m.swiglu (weights (r.idx i j)) (flat i) o else 0 := by
  rw [cpuForward, scatterAdd_keyMajor hi (hlt i hi), Finset.sum_apply]
  apply Finset.sum_congr rfl
  intro j _
  by_cases hm : mask (r.idx i j) = true
  · rw [if_pos hm, if_pos hm]
  · rw [if_neg hm, if_neg hm]
    rfl

omit [CommRing K] in
/-- One expert of the step is never split off. -/
theorem cpuExperts_eq_nil (m : MoeModel K) (h : (firstSeen r.flatIds).length ≤ 1) :
    m.cpuExperts r = [] := by
  have hone : 1 ≤ m.nFetch (firstSeen r.flatIds).length := Int.le_max_left 1 _
  have hzero : (((firstSeen r.flatIds).length : Int) -
      m.nFetch (firstSeen r.flatIds).length).toNat = 0 := by omega
  simp only [cpuExperts, hzero, List.take_zero]

/-! ### The two outputs -/

/-- The experts that are left to the CPU without their router weights. -/
def cpuShare (m : MoeModel K) (r : Routing K) : List Nat :=
  if m.isCpuLayer ∨ m.fetchFraction ≤ .ofNat 0 ∨ .ofNat 1 ≤ m.fetchFraction then [] else m.cpuExperts r

/-- Where the offload path has an output, the hybrid one has the same. -/
def SameOutput (m : MoeModel K) (c : OffloadMoeCache (Nat → Nat → K)) (layer : Nat)
    (isPrefill : Bool) (flat : Nat → Nat → K) (r : Routing K) : Prop :=
  ∀ out c', m.forwardOffload c layer isPrefill flat r = .ok (out, c') →
    ∃ out' c'', m.forwardHybrid c layer isPrefill flat r = .ok (out', c'') ∧
      ∀ i < r.tokens, ∀ o < m.hidden, out' i o = out i o

theorem next_of_forwardOffloadCore {exclude : List Nat} {out : Nat → Nat → K}
    (h : m.forwardOffloadCore c layer isPrefill flat r exclude = .ok (out, c')) :
    next c (offloadCall layer isPrefill r exclude) = some c' := by
  have hof : ∀ x : Except Raised (OffloadMoeCache (Nat → Nat → K)),
      (x >>= fun c1 => c1.copyMissing >>= fun c2 => m.slotWeights c2 >>= fun weights =>
        (pure (scatterAdd ((groups c2 layer r exclude).map fun g =>
          (g.2.2, fun o => r.w g.2.2 g.1 * m.swiglu (weights g.2.1) (flat g.2.2) o)), c2) :
            Except Raised _)) = .ok (out, c') →
      (x >>= copyMissing).toOption = some c' := by
    intro x hx
    cases x with
    | error e => cases hx
    | ok c1 =>
        change (c1.copyMissing >>= _) = _ at hx
        change c1.copyMissing.toOption = _
        cases hcopy : c1.copyMissing with
        | error e =>
            rw [hcopy] at hx
            cases hx
        | ok c2 =>
            rw [hcopy] at hx
            change (m.slotWeights c2 >>= _) = _ at hx
            cases hweights : m.slotWeights c2 with
            | error e =>
                rw [hweights] at hx
                cases hx
            | ok weights =>
                rw [hweights] at hx
                cases hx
                rfl
  cases isPrefill with
  | true => exact hof _ h
  | false => exact hof _ h

/-- Without the experts of the CPU half the cache is asked for less. -/
theorem next_exclude (h : c.Coherent) (hbanks : c.banks.length ≠ 0) (hlayer : layer < c.numLayers)
    (hlt : ∀ i < r.tokens, ∀ j < r.topK, r.idx i j < c.numExperts)
    (hnext : next c (offloadCall layer isPrefill r []) = some c') (exclude : List Nat) :
    ∃ c'', next c (offloadCall layer isPrefill r exclude) = some c'' := by
  cases isPrefill with
  | true => exact ⟨c', hnext⟩
  | false =>
      have hsize : 2 ≤ c.cacheSize := by
        obtain ⟨c1, hc1, -⟩ := bind_toOption hnext
        rw [ensureExperts] at hc1
        split at hc1
        · cases hc1
        · rename_i hno
          exact Nat.le_of_not_lt fun hlt => hno ⟨hbanks, hlt⟩
      apply next_isSome h hbanks hsize rfl hlayer
      intro e he
      obtain ⟨i, hi, j, hj, rfl⟩ := mem_flatIds.mp (List.mem_filter.mp he).1
      exact hlt i hi j hj

/-- The hybrid output: to the offload output each expert of the CPU share adds what its router
weight lacks to `1`. -/
theorem hybrid_sum (m : MoeModel K) (flat : Nat → Nat → K) (h : c.Coherent)
    (hsources : c.sources = [("gate_up", gateUp), ("down", down)]) (hlayer : layer < c.numLayers)
    (hlt : ∀ i < r.tokens, ∀ j < r.topK, r.idx i j < c.numExperts)
    (hnext : next c (offloadCall layer isPrefill r []) = some c') :
    ∃ out c'', m.forwardHybrid c layer isPrefill flat r = .ok (out, c'') ∧
      ∀ i < r.tokens, ∀ o, out i o =
        (∑ j ∈ Finset.range r.topK, r.w i j * m.expertOut gateUp down layer flat r i j o) +
          ∑ j ∈ Finset.range r.topK, if r.idx i j ∈ m.cpuShare r then
            (1 - r.w i j) * m.expertOut gateUp down layer flat r i j o else 0 := by
  have hhost : m.hostWeights c layer =
      .ok fun e => m.weightsOf (gateUp layer e) (down layer e) := hostWeights_eq m hsources
  by_cases hcpu : m.isCpuLayer = true
  · have hshare : m.cpuShare r = [] := if_pos (Or.inl hcpu)
    refine ⟨_, c, by rw [forwardHybrid, if_pos hcpu, hhost]; rfl, ?_⟩
    intro i hi o
    rw [cpuForward_sum hlt hi, hshare]
    simp [expertOut]
  · by_cases hwhole : m.fetchFraction ≤ .ofNat 0 ∨ .ofNat 1 ≤ m.fetchFraction
    · have hshare : m.cpuShare r = [] := if_pos (Or.inr hwhole)
      have hoff : m.forwardHybrid c layer isPrefill flat r =
          m.forwardOffloadCore c layer isPrefill flat r [] := by
        rw [forwardHybrid, if_neg hcpu]
        by_cases hzero : m.fetchFraction ≤ .ofNat 0
        · rw [if_pos hzero]
          rfl
        · rw [if_neg hzero, if_pos (hwhole.resolve_left hzero)]
          rfl
      obtain ⟨out, hout, hsum⟩ : ∃ out,
          m.forwardOffloadCore c layer isPrefill flat r [] = .ok (out, c') ∧ _ :=
        offloadCore_sum h hsources hlt hnext
      refine ⟨out, c', hoff.trans hout, ?_⟩
      intro i hi o
      rw [hsum i hi o, hshare]
      simp
    · have hshare : m.cpuShare r = m.cpuExperts r := if_neg fun hor => hor.elim hcpu hwhole
      have hbanks : c.banks.length ≠ 0 := by
        obtain ⟨b1, b2, hbanks, -⟩ := banks_of_sources hsources
        rw [hbanks]
        exact Nat.succ_ne_zero 1
      obtain ⟨c'', hsplit⟩ := next_exclude h hbanks hlayer hlt hnext (m.cpuExperts r)
      obtain ⟨out, hout, hsum⟩ : ∃ out,
          m.forwardOffloadCore c layer isPrefill flat r (m.cpuExperts r) = .ok (out, c'') ∧ _ :=
        offloadCore_sum h hsources hlt hsplit
      have hhybrid : m.forwardHybrid c layer isPrefill flat r =
          .ok (fun i o => out i o + m.cpuForward c.numExperts
            (fun e => m.weightsOf (gateUp layer e) (down layer e)) flat
            { r with w := fun _ _ => 1 } (fun e => e ∈ m.cpuExperts r) i o, c'') := by
        rw [forwardHybrid, if_neg hcpu, if_neg fun hz => hwhole (Or.inl hz),
          if_neg fun ho => hwhole (Or.inr ho), hhost]
        simp only [bind, Except.bind, hout]
        rfl
      refine ⟨_, c'', hhybrid, ?_⟩
      intro i hi o
      have hones : ∀ i < ({ r with w := fun _ _ => 1 } : Routing K).tokens,
          ∀ j < ({ r with w := fun _ _ => 1 } : Routing K).topK,
            ({ r with w := fun _ _ => 1 } : Routing K).idx i j < c.numExperts := hlt
      rw [hsum i hi o, cpuForward_sum hones hi, hshare, ← Finset.sum_add_distrib,
        ← Finset.sum_add_distrib]
      apply Finset.sum_congr rfl
      intro j _
      by_cases hj : r.idx i j ∈ m.cpuExperts r
      · rw [if_neg fun hnot => hnot hj, if_pos (decide_eq_true hj), if_pos hj, expertOut]
        ring
      · rw [if_pos hj, if_neg fun hd => hj (of_decide_eq_true hd), if_neg hj]

/-- The hybrid path of a reachable cache answers what the offload path answers exactly when,
for every token, the experts of the CPU share, each times what its router weight lacks to `1`,
add up to zero. -/
theorem hybrid_same_iff (m : MoeModel K) (flat : Nat → Nat → K) {numLayers numExperts cacheSize : Nat}
    {c0 : OffloadMoeCache (Nat → Nat → K)} {calls : List Call}
    (hnew : new numLayers numExperts cacheSize [("gate_up", gateUp), ("down", down)] = .ok c0)
    (hrun : Run.exec next c0 calls = some c) (hlayer : layer < numLayers)
    (hidx : ∀ i < r.tokens, ∀ j < r.topK, r.idx i j < numExperts) :
    m.SameOutput c layer isPrefill flat r ↔
      ∀ i < r.tokens, ∀ o < m.hidden, (∑ j ∈ Finset.range r.topK,
        if r.idx i j ∈ m.cpuShare r then
          (1 - r.w i j) * m.expertOut gateUp down layer flat r i j o else 0) = 0 := by
  obtain ⟨hc, hlayers, hexperts, hsources⟩ := run_coherent hnew hrun
  rw [← hlayers] at hlayer
  rw [← hexperts] at hidx
  by_cases hex : ∃ c', next c (offloadCall layer isPrefill r []) = some c'
  · obtain ⟨c', hnext⟩ := hex
    obtain ⟨out, hout, hsum⟩ : ∃ out,
        m.forwardOffloadCore c layer isPrefill flat r [] = .ok (out, c') ∧ _ :=
      offloadCore_sum hc hsources hidx hnext
    obtain ⟨out', c'', hout', hsum'⟩ := hybrid_sum m flat hc hsources hlayer hidx hnext
    have hvalue : ∀ i < r.tokens, ∀ o, out' i o = out i o +
        ∑ j ∈ Finset.range r.topK, if r.idx i j ∈ m.cpuShare r then
          (1 - r.w i j) * m.expertOut gateUp down layer flat r i j o else 0 := by
      intro i hi o
      rw [hsum' i hi o, hsum i hi o]
      simp
    constructor
    · intro hsame i hi o ho
      obtain ⟨out2, c2, hout2, heq⟩ := hsame out c' hout
      rw [hout'] at hout2
      cases hout2
      have hplus := heq i hi o ho
      rw [hvalue i hi o] at hplus
      exact add_eq_left.mp hplus
    · intro hzero out2 c2 hout2
      have hok := hout.symm.trans hout2
      cases hok
      refine ⟨out', c'', hout', ?_⟩
      intro i hi o ho
      rw [hvalue i hi o, hzero i hi o ho, add_zero]
  · -- a pool of one slot: the step has one expert, and the cache refuses it
    have hsmall : ¬ 2 ≤ c.cacheSize := by
      intro hsize
      apply hex
      have hbanks : c.banks.length ≠ 0 := by
        obtain ⟨b1, b2, hbanks, -⟩ := banks_of_sources hsources
        rw [hbanks]
        exact Nat.succ_ne_zero 1
      cases isPrefill with
      | true =>
          exact next_isSome hc hbanks hsize rfl hlayer fun e he => List.mem_range.mp he
      | false =>
          apply next_isSome hc hbanks hsize rfl hlayer
          intro e he
          obtain ⟨i, hi, j, hj, rfl⟩ := mem_flatIds.mp (List.mem_filter.mp he).1
          exact hidx i hi j hj
    have hone : (firstSeen r.flatIds).length ≤ 1 := by
      have hsub : firstSeen r.flatIds ⊆ List.range c.numExperts := by
        intro e he
        obtain ⟨i, hi, j, hj, rfl⟩ := mem_flatIds.mp (mem_firstSeen.mp he)
        exact List.mem_range.mpr (hidx i hi j hj)
      have hlen := ((nodup_firstSeen r.flatIds).subperm hsub).length_le
      rw [List.length_range] at hlen
      have hle := c.numExperts_le
      omega
    have hshare : m.cpuShare r = [] := by
      rw [cpuShare, cpuExperts_eq_nil m hone, ite_self]
    constructor
    · intro _ i _ o _
      simp [hshare]
    · intro _ out c' hout
      exact absurd ⟨c', next_of_forwardOffloadCore hout⟩ hex

/-! ### Two experts -/

/-- `F.silu`. -/
noncomputable def realSilu (x : ℝ) : ℝ := x / (1 + Real.exp (-x))

theorem realSilu_one_pos : 0 < realSilu 1 := by
  have hpos := Real.exp_pos (-1)
  exact div_pos one_pos (add_pos one_pos hpos)

theorem isNaN_half : (Float.Model.ofScientific 5 (-1)).isNaN = false := rfl

/-- Half of the misses are fetched. -/
noncomputable def halfFetched : MoeModel ℝ where
  silu := realSilu
  hidden := 1
  intermediate := 1
  fetchFraction := .ofScientific 5 (-1)
  fetchFraction_isNaN := isNaN_half

/-- One layer of two experts, all of whose weights are `1`. -/
def ones : List (String × (Nat → Nat → Nat → Nat → ℝ)) :=
  [("gate_up", fun _ _ _ _ => 1), ("down", fun _ _ _ _ => 1)]

/-- One token that goes to both experts, with weight `1 / 2` each. -/
noncomputable def bothExperts : Routing ℝ where
  tokens := 1
  topK := 2
  idx := fun _ j => j
  w := fun _ _ => 1 / (2 : Nat)

/-- Two tokens, each for an expert of its own, with weight `1`. -/
def ownExperts : Routing ℝ where
  tokens := 2
  topK := 1
  idx := fun i _ => i
  w := fun _ _ => 1

theorem expertOut_ones (r : Routing ℝ) (i j : Nat) :
    halfFetched.expertOut (fun _ _ _ _ => 1) (fun _ _ _ _ => 1) 0 (fun _ _ => 1) r i j 0 = realSilu 1 := by
  simp [expertOut, swiglu, weightsOf, halfFetched]

/-- Expert `0` is left to the CPU and counts twice as much as its router weight says. -/
theorem bothExperts_differs : ∃ c : OffloadMoeCache (Nat → Nat → ℝ), new 1 2 2 ones = .ok c ∧
    ¬ halfFetched.SameOutput c 0 false (fun _ _ => 1) bothExperts := by
  obtain ⟨c, hnew⟩ : ∃ c : OffloadMoeCache (Nat → Nat → ℝ), new 1 2 2 ones = .ok c := ⟨_, rfl⟩
  refine ⟨c, hnew, ?_⟩
  have hrun : Run.exec next c [] = some c := rfl
  obtain ⟨hc, hlayers, hexperts, hsources⟩ := run_coherent hnew hrun
  have hlayer : 0 < c.numLayers := by
    rw [hlayers]
    exact Nat.one_pos
  have hidx : ∀ i < bothExperts.tokens, ∀ j < bothExperts.topK,
      bothExperts.idx i j < c.numExperts := by
    intro i _ j hj
    rw [hexperts]
    exact hj
  have hshare : halfFetched.cpuShare bothExperts = [0] := by decide +kernel
  have hsize : 2 ≤ c.cacheSize := by
    cases hnew
    exact Nat.le_refl 2
  have hbanks : c.banks.length ≠ 0 := by
    cases hnew
    decide
  have hfetch : ∀ e ∈ bothExperts.flatIds.filter (· ∉ ([] : List Nat)), e < c.numExperts := by
    intro e he
    obtain ⟨i, hi, j, hj, rfl⟩ := mem_flatIds.mp (List.mem_filter.mp he).1
    exact hidx i hi j hj
  obtain ⟨c', hnext⟩ : ∃ c', next c (offloadCall 0 false bothExperts []) = some c' :=
    next_isSome hc hbanks hsize rfl hlayer hfetch
  obtain ⟨out, hout, hsum⟩ : ∃ out, halfFetched.forwardOffloadCore c 0 false (fun _ _ => 1)
      bothExperts [] = .ok (out, c') ∧ _ := offloadCore_sum hc hsources hidx hnext
  obtain ⟨out', c'', hout', hsum'⟩ :=
    hybrid_sum halfFetched (fun _ _ => 1) hc hsources hlayer hidx hnext
  intro hsame
  obtain ⟨out2, c2, hout2, heq⟩ := hsame out c' hout
  cases hout'.symm.trans hout2
  have hzero := heq 0 (by decide) 0 (by decide)
  rw [hsum' 0 (by decide) 0, hsum 0 (by decide) 0, hshare] at hzero
  have hextra : (∑ j ∈ Finset.range bothExperts.topK, if bothExperts.idx 0 j ∈ [0] then
      (1 - bothExperts.w 0 j) * halfFetched.expertOut (fun _ _ _ _ => 1) (fun _ _ _ _ => 1) 0
        (fun _ _ => 1) bothExperts 0 j 0 else 0) = (1 - 1 / 2) * realSilu 1 := by
    simp only [expertOut_ones]
    simp [bothExperts]
  have hpos := realSilu_one_pos
  rw [hextra] at hzero
  simp only [List.not_mem_nil, not_false_eq_true, if_true] at hzero
  linarith

theorem ownExperts_same : ∃ c : OffloadMoeCache (Nat → Nat → ℝ), new 1 2 2 ones = .ok c ∧
    halfFetched.SameOutput c 0 false (fun _ _ => 1) ownExperts := by
  obtain ⟨c, hnew⟩ : ∃ c : OffloadMoeCache (Nat → Nat → ℝ), new 1 2 2 ones = .ok c := ⟨_, rfl⟩
  have hrun : Run.exec next c [] = some c := rfl
  have hlayer : 0 < 1 := Nat.one_pos
  have hidx : ∀ i < ownExperts.tokens, ∀ j < ownExperts.topK, ownExperts.idx i j < 2 :=
    fun i hi _ _ => hi
  refine ⟨c, hnew, (hybrid_same_iff halfFetched (fun _ _ => 1) hnew hrun hlayer hidx).mpr ?_⟩
  intro i _ o _
  apply Finset.sum_eq_zero
  intro j _
  have hone : (1 : ℝ) - ownExperts.w i j = 0 := sub_self 1
  rw [hone, zero_mul, ite_self]

end MoeModel

end FreeToken
