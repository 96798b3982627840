import FreeToken.Lib.Accumulate
import FreeToken.Moe.HybridSpec

/-!
# Offloaded against resident experts

`_forward_inram` of `models/qwen3_5_moe`, with the dense route that it takes while a graph is
captured, in exact arithmetic. A row of the dense route is multiplied, for every expert, by the
weight of the last column that holds the expert. With distinct experts in a row there is one
column at most, and the two routes and the offload path add up the same terms.
-/

namespace FreeToken

open Accumulate ScatterAdd OffloadMoeCache

namespace MoeModel

variable {K : Type} [CommRing K] (m : MoeModel K) (experts : Nat → ExpertWeights K)
  (flat : Nat → Nat → K) (r : Routing K)

/-! ### The two routes -/

/-- `w`, of an expert: the rows where no column holds it keep `0`. -/
def denseWeight (r : Routing K) (e : Nat) : Nat → K :=
  (List.range r.topK).foldl (fun w slot i => if r.idx i slot = e then r.w i slot else w i)
    fun _ => 0

/-- `_forward_inram`; the experts are `self.experts`. -/
def forwardInram (capturing : Bool) (numExperts : Nat) : Nat → Nat → K :=
  if capturing then
    (List.range numExperts).foldl
      (fun out e i o => out i o + denseWeight r e i * m.swiglu (experts e) (flat i) o)
      fun _ _ => 0
  else
    scatterAdd ((List.range numExperts).flatMap fun e =>
      (List.range r.topK).flatMap fun slot =>
        let idx := (List.range r.tokens).filter fun i => r.idx i slot = e
        if idx = [] then []
        else idx.map fun i => (i, fun o => r.w i slot * m.swiglu (experts e) (flat i) o))

/-- A row of the `gate_up` bank: the gate projection, and the up projection below it. -/
def packGateUp (weights : ExpertWeights K) : Nat → Nat → K := fun i =>
  if i < m.intermediate then weights.gate i else weights.up (i - m.intermediate)

/-- The host banks of the experts of every layer. -/
def bankSources (experts : Nat → Nat → ExpertWeights K) :
    List (String × (Nat → Nat → Nat → Nat → K)) :=
  [("gate_up", fun layer e => m.packGateUp (experts layer e)),
    ("down", fun layer e => (experts layer e).down)]

/-- The experts of a token are distinct. -/
def Routing.Distinct (r : Routing K) : Prop :=
  ∀ i < r.tokens, ∀ j < r.topK, ∀ j' < r.topK, r.idx i j = r.idx i j' → j = j'

variable {m experts flat r}

/-! ### What they add up -/

theorem swiglu_pack (weights : ExpertWeights K) (x : Nat → K) :
    m.swiglu (m.weightsOf (m.packGateUp weights) weights.down) x = m.swiglu weights x := by
  funext o
  apply Finset.sum_congr rfl
  intro i hi
  have hgate : m.packGateUp weights i = weights.gate i := if_pos (Finset.mem_range.mp hi)
  have hup : m.packGateUp weights (m.intermediate + i) = weights.up i := by
    rw [packGateUp, if_neg (Nat.not_lt.mpr (Nat.le_add_right _ _)), Nat.add_sub_cancel_left]
  simp only [weightsOf, hgate, hup]

/-- One column at most holds the expert. -/
theorem denseWeight_eq (hdistinct : Routing.Distinct r) {i : Nat} (hi : i < r.tokens) (e : Nat) :
    denseWeight r e i = ∑ j ∈ Finset.range r.topK, if r.idx i j = e then r.w i j else 0 := by
  have hcols : ∀ n ≤ r.topK, (List.range n).foldl
      (fun w slot i => if r.idx i slot = e then r.w i slot else w i) (fun _ => 0) i =
        ∑ j ∈ Finset.range n, if r.idx i j = e then r.w i j else 0 := by
    intro n
    induction n with
    | zero => intro _; rfl
    | succ n ih =>
        intro hn
        rw [List.range_succ, List.foldl_concat, Finset.sum_range_succ, ← ih (Nat.le_of_succ_le hn)]
        by_cases hid : r.idx i n = e
        · -- the columns before this one hold other experts
          rw [if_pos hid, if_pos hid, ih (Nat.le_of_succ_le hn), Finset.sum_eq_zero, zero_add]
          intro j hj
          have hlt := Finset.mem_range.mp hj
          apply if_neg
          intro hj'
          have heq := hdistinct i hi j (by omega) n hn (hj'.trans hid.symm)
          omega
        · rw [if_neg hid, if_neg hid, add_zero]
  exact hcols r.topK (Nat.le_refl _)

/-- Both routes add up, for each token, its experts with their router weights. -/
theorem forwardInram_sum {numExperts : Nat} (hdistinct : Routing.Distinct r)
    (hlt : ∀ i < r.tokens, ∀ j < r.topK, r.idx i j < numExperts) (capturing : Bool) {i : Nat}
    (hi : i < r.tokens) (o : Nat) :
    m.forwardInram experts flat r capturing numExperts i o =
      ∑ j ∈ Finset.range r.topK, r.w i j * m.swiglu (experts (r.idx i j)) (flat i) o := by
  cases capturing with
  | true =>
      have hadds : Adds (fun out : Nat → Nat → K => (List.range numExperts).foldl
          (fun out e i o => out i o + denseWeight r e i * m.swiglu (experts e) (flat i) o) out) _ :=
        Adds.foldl fun e _ out => rfl
      have hsum : m.forwardInram experts flat r true numExperts i o =
          ∑ e ∈ Finset.range numExperts, denseWeight r e i * m.swiglu (experts e) (flat i) o := by
        have hzero := congrFun (congrFun (hadds 0) i) o
        rw [Pi.add_apply, Pi.add_apply, sum_cell, sum_cell, sum_range] at hzero
        exact hzero.trans (zero_add _)
      simp only [hsum, denseWeight_eq hdistinct hi, Finset.sum_mul]
      rw [Finset.sum_comm]
      apply Finset.sum_congr rfl
      intro j hj
      rw [Finset.sum_eq_single (r.idx i j)]
      · rw [if_pos rfl]
      · intro e _ hne
        rw [if_neg (Ne.symm hne), zero_mul]
      · intro hnot
        exact absurd (Finset.mem_range.mpr (hlt i hi j (Finset.mem_range.mp hj))) hnot
  | false =>
      have hlist : m.forwardInram experts flat r false numExperts =
          scatterAdd (keyMajor numExperts r.tokens r.topK r.idx (fun _ => True) fun e j i o =>
            r.w i j * m.swiglu (experts e) (flat i) o) := by
        simp only [forwardInram, keyMajor, places, Bool.false_eq_true, if_false, if_true,
          List.filter_flatMap, List.map_flatMap, List.filter_map, List.map_map]
        congr 2
        funext e
        congr 1
        funext slot
        split
        · rename_i hnone
          simp [Function.comp_def, hnone]
        · rfl
      rw [hlist, scatterAdd_keyMajor hi (hlt i hi), Finset.sum_apply]
      simp only [if_true]

/-- A whole layer has room in every pool. -/
theorem materialize_comesBack {c : OffloadMoeCache (Nat → Nat → K)} {layer : Nat}
    (h : c.Coherent) (hbanks : c.banks.length ≠ 0) (hlayer : layer < c.numLayers) :
    ∃ c', next c (.materialize layer) = some c' := by
  have hhere : c.materializeLayer layer =
      serve freeOrLru id c layer (List.range c.numExperts) := by
    rw [materializeLayer, if_neg (Nat.not_le.mpr hlayer), if_neg (Nat.not_lt.mpr c.numExperts_le)]
  rw [next, hhere]
  rcases Nat.eq_zero_or_pos c.cacheSize with hsize | hsize
  · have hnone : c.numExperts = 0 := Nat.le_zero.mp (hsize ▸ c.numExperts_le)
    have hempty : c.missing layer (List.range c.numExperts) = [] := by
      rw [hnone]
      rfl
    have hserve : ∃ c1, serve freeOrLru id c layer (List.range c.numExperts) = .ok c1 ∧
        c1.banks = c.banks := by
      rw [serve, hempty, id, placeAll]
      exact ⟨_, rfl, rfl⟩
    obtain ⟨c1, hc1, hbanks1⟩ := hserve
    rw [← hbanks1] at hbanks
    simp only [hc1, bind, Except.bind, copyMissing, if_neg hbanks]
    cases c1.pendingSrcLayer with
    | none => exact ⟨_, rfl⟩
    | some src => exact ⟨_, rfl⟩
  · exact serve_comesBack h hbanks hsize freeOrLru_leastPick (fun l => List.Perm.refl l)
      List.nodup_range fun e he => List.mem_range.mp he

/-- In every state that calls reach from the constructor on, the offload path puts out what the
resident experts do, on both their routes; a step of a pool of one slot is refused. -/
theorem offload_eq_inram (m : MoeModel K) (experts : Nat → Nat → ExpertWeights K)
    (flat : Nat → Nat → K) {r : Routing K} {numLayers numExperts cacheSize layer : Nat}
    {c0 c : OffloadMoeCache (Nat → Nat → K)} {calls : List Call}
    (hnew : new numLayers numExperts cacheSize (m.bankSources experts) = .ok c0)
    (hrun : Run.exec next c0 calls = some c) (hlayer : layer < numLayers)
    (hidx : ∀ i < r.tokens, ∀ j < r.topK, r.idx i j < numExperts)
    (hdistinct : Routing.Distinct r) (isPrefill : Bool) :
    if isPrefill = true ∨ 2 ≤ c.cacheSize then
      ∃ out c', m.forwardOffload c layer isPrefill flat r = .ok (out, c') ∧
        ∀ capturing, ∀ i < r.tokens, ∀ o,
          out i o = m.forwardInram (experts layer) flat r capturing numExperts i o
    else m.forwardOffload c layer isPrefill flat r = .error .runtimeError := by
  obtain ⟨hc, hlayers, hexperts, hsources⟩ := run_coherent hnew hrun
  rw [← hlayers] at hlayer
  have hidx' : ∀ i < r.tokens, ∀ j < r.topK, r.idx i j < c.numExperts := by
    rw [hexperts]
    exact hidx
  have hbanks : c.banks.length ≠ 0 := by
    obtain ⟨b1, b2, hbanks, -⟩ := banks_of_sources hsources
    rw [hbanks]
    exact Nat.succ_ne_zero 1
  by_cases hsize : isPrefill = true ∨ 2 ≤ c.cacheSize
  · rw [if_pos hsize]
    have hnext : ∃ c', next c (offloadCall layer isPrefill r []) = some c' := by
      cases isPrefill with
      | true => exact materialize_comesBack hc hbanks hlayer
      | false =>
          apply next_isSome hc hbanks (hsize.resolve_left Bool.false_ne_true) rfl hlayer
          intro e he
          obtain ⟨i, hi, j, hj, rfl⟩ := mem_flatIds.mp (List.mem_filter.mp he).1
          exact hidx' i hi j hj
    obtain ⟨c', hc'⟩ := hnext
    obtain ⟨out, hout, hsum⟩ : ∃ out,
        m.forwardOffloadCore c layer isPrefill flat r [] = .ok (out, c') ∧ _ :=
      offloadCore_sum hc hsources hidx' hc'
    refine ⟨out, c', hout, ?_⟩
    intro capturing i hi o
    rw [hsum i hi o, forwardInram_sum hdistinct hidx capturing hi]
    apply Finset.sum_congr rfl
    intro j _
    rw [if_pos List.not_mem_nil, expertOut, swiglu_pack]
  · rw [if_neg hsize]
    obtain ⟨hprefill, hsmall⟩ := not_or.mp hsize
    have hensure : ∀ ids, c.ensureExperts layer ids = .error .runtimeError := by
      intro ids
      rw [ensureExperts, if_pos ⟨hbanks, Nat.lt_of_not_le hsmall⟩]
    rw [forwardOffload, forwardOffloadCore, if_neg hprefill, hensure]
    rfl

/-- One layer of two experts in a pool of two slots, after a step for the second expert. -/
theorem bothExperts_inram : ∃ c0 c : OffloadMoeCache (Nat → Nat → ℝ),
    new 1 2 2 (halfFetched.bankSources fun _ _ => ⟨1, 1, 1⟩) = .ok c0 ∧
      Run.exec next c0 [.ensure 0 [1]] = some c ∧ Routing.Distinct bothExperts ∧
        if false = true ∨ 2 ≤ c.cacheSize then
          ∃ out c', halfFetched.forwardOffload c 0 false (fun _ _ => 1) bothExperts = .ok (out, c') ∧
            ∀ capturing, ∀ i < 1, ∀ o, out i o =
              halfFetched.forwardInram (fun _ => ⟨1, 1, 1⟩) (fun _ _ => 1) bothExperts capturing 2 i o
        else halfFetched.forwardOffload c 0 false (fun _ _ => 1) bothExperts =
          .error .runtimeError := by
  obtain ⟨c0, hnew⟩ : ∃ c0 : OffloadMoeCache (Nat → Nat → ℝ),
      new 1 2 2 (halfFetched.bankSources fun _ _ => ⟨1, 1, 1⟩) = .ok c0 := ⟨_, rfl⟩
  have hsize : 2 ≤ c0.cacheSize ∧ 0 < c0.numLayers ∧ c0.numExperts = 2 ∧ c0.banks.length ≠ 0 := by
    cases hnew
    exact ⟨Nat.le_refl 2, Nat.one_pos, rfl, Nat.succ_ne_zero 1⟩
  obtain ⟨c, hnext⟩ : ∃ c, next c0 (.ensure 0 [1]) = some c := by
    apply next_isSome (new_coherent hnew) hsize.2.2.2 hsize.1 rfl hsize.2.1
    intro e he
    rw [List.mem_singleton.mp he, hsize.2.2.1]
    exact Nat.one_lt_two
  have hrun : Run.exec next c0 [.ensure 0 [1]] = some c := by
    rw [Run.exec, hnext]
    rfl
  have hdistinct : Routing.Distinct bothExperts := fun _ _ _ _ _ _ heq => heq
  exact ⟨c0, c, hnew, hrun, hdistinct, offload_eq_inram halfFetched (fun _ _ => ⟨1, 1, 1⟩)
    (fun _ _ => 1) hnew hrun Nat.one_pos (fun _ _ _ hj => hj) hdistinct false⟩

/-- With one expert and one slot, a decode step is refused. -/
theorem oneExpert_refused : ∃ c : OffloadMoeCache (Nat → Nat → ℝ),
    new 1 1 1 (halfFetched.bankSources fun _ _ => ⟨1, 1, 1⟩) = .ok c ∧
      ∀ r : Routing ℝ, halfFetched.forwardOffload c 0 false (fun _ _ => 1) r =
        .error .runtimeError :=
  ⟨_, dif_neg (by decide), fun _ => rfl⟩

end MoeModel

end FreeToken
