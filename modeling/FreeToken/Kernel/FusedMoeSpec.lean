import FreeToken.Kernel.FusedMoe
import FreeToken.Lib.Except
import Mathlib.Probability.CDF
import Mathlib.Probability.Distributions.Gaussian.Real

/-!
# Fused MoE per token

Every pair of a token and a slot is in the run of one expert, so its place in the buffer is
assigned once, and what a token gets is the sum over the experts that its router selects.
-/

namespace FreeToken

open Assign Grouped

variable {K : Type} [Field K] [LinearOrder K]

/-- The `k` of `n` experts that a router selects by their probabilities. -/
structure Selects (p : Nat → K) (n k : Nat) (S : Finset Nat) : Prop where
  card : S.card = k
  lt : ∀ e ∈ S, e < n
  top : ∀ e ∈ S, ∀ e' < n, e' ∉ S → p e' ≤ p e

/-- The weight of an expert among the selected ones. -/
def routerWeight (p : Nat → K) (S : Finset Nat) (renormalize : Bool) (e : Nat) : K :=
  if renormalize then p e / ∑ e' ∈ S, p e' else p e

/-- A token's sum over the selected experts. -/
def perToken (b : MoeBanks K) (f : K → K) (weight : Nat → K) (S : Finset Nat) (onInput : Bool)
    (x : Nat → K) (o : Nat) : K :=
  ∑ e ∈ S, if onInput then b.expert f e (fun h => weight e * x h) o else weight e * b.expert f e x o

/-! ### Pairs -/

namespace Routing

omit [Field K] [LinearOrder K]

variable {r : Routing K}

theorem length_flatIds : r.flatIds.length = r.tokens * r.topK := by
  rw [flatIds, flatMap_rows, List.length_map, List.length_range]

theorem flatIds_getD {p : Nat} (hp : p < r.tokens * r.topK) :
    r.flatIds.getD p 0 = r.idx (p / r.topK) (p % r.topK) := by
  rw [flatIds, flatMap_rows]
  simp [hp]

theorem flatWeights_getD [Field K] {p : Nat} (hp : p < r.tokens * r.topK) :
    r.flatWeights.getD p 0 = r.w (p / r.topK) (p % r.topK) := by
  rw [flatWeights, flatMap_rows]
  simp [hp]

end Routing

namespace MoeOps

variable {ops : MoeOps K} {b : MoeBanks K} {x : Nat → Nat → K} {f : K → K} {activation : String}
  {onInput renormalize : Bool} {r : Routing K}

/-! ### The assignments -/

/-- The contribution of a pair. -/
def pairContrib (b : MoeBanks K) (x : Nat → Nat → K) (f : K → K) (r : Routing K) (onInput : Bool)
    (p : Nat) : Nat → K :=
  let w := r.w (p / r.topK) (p % r.topK)
  let contrib := b.expert f (r.idx (p / r.topK) (p % r.topK)) fun h =>
    if onInput then x (p / r.topK) h * w else x (p / r.topK) h
  fun o => if onInput then contrib o else contrib o * w

omit [LinearOrder K] in
theorem pairContrib_eq (t : Nat) {s : Nat} (hs : s < r.topK) (o : Nat) :
    pairContrib b x f r onInput (t * r.topK + s) o =
      if onInput then b.expert f (r.idx t s) (fun h => r.w t s * x t h) o
      else r.w t s * b.expert f (r.idx t s) (x t) o := by
  obtain ⟨hdiv, hmod⟩ := row_col t hs
  simp only [pairContrib, hdiv, hmod, mul_comm (r.w t s)]
  split <;> rfl

/-- The loop over the experts assigns to each place the contribution of its pair. -/
theorem moeWrites_eq (hact : ops.act activation = .ok f) :
    ops.moeWrites b x r activation onInput =
      .ok (((List.range b.numExperts).flatMap fun e => (argsort r.flatIds).filter fun p =>
        r.flatIds.getD p 0 = e).map fun p => (p, pairContrib b x f r onInput p)) := by
  have hwrites : ∀ e, expertWrites b x f r onInput e ((argsort r.flatIds).filter fun p =>
      r.flatIds.getD p 0 = e) = ((argsort r.flatIds).filter fun p =>
        r.flatIds.getD p 0 = e).map fun p => (p, pairContrib b x f r onInput p) := by
    intro e
    refine List.map_congr_left fun p hp => ?_
    obtain ⟨hmem, hkey⟩ := List.mem_filter.mp hp
    have hlt : p < r.tokens * r.topK := by
      rw [← Routing.length_flatIds]
      exact (mem_argsort _).mp hmem
    have hidx : r.idx (p / r.topK) (p % r.topK) = e := by
      rw [← Routing.flatIds_getD hlt]
      exact of_decide_eq_true hkey
    simp only [pairContrib, Routing.flatWeights_getD hlt, hidx, Nat.div_add_mod']
  have hruns : (List.range b.numExperts).mapM (fun e => do
      let start := searchsorted ((argsort r.flatIds).map fun p => r.flatIds.getD p 0) e
      let stop := searchsorted ((argsort r.flatIds).map fun p => r.flatIds.getD p 0) (e + 1)
      if stop = start then return []
      else
        let f ← ops.act activation
        return expertWrites b x f r onInput e (((argsort r.flatIds).take stop).drop start)) =
      .ok ((List.range b.numExperts).map fun e => ((argsort r.flatIds).filter fun p =>
        r.flatIds.getD p 0 = e).map fun p => (p, pairContrib b x f r onInput p)) := by
    rw [mapM_eq_ok, List.forall₂_map_right_iff, List.forall₂_same]
    intro e _
    have hcut := cut_eq_filter r.flatIds e
    dsimp only at hcut ⊢
    split
    · next hempty =>
        -- the run is empty
        rw [hempty, List.drop_of_length_le (List.length_take_le _ _)] at hcut
        rw [← hcut]
        rfl
    · rw [hact, hcut, ← hwrites]
      rfl
  rw [moeWrites, hruns, List.map_flatMap, List.flatMap_def]
  rfl

/-! ### The sums -/

omit [LinearOrder K] in
theorem sum_getD {l : List Nat} (h : l.Nodup) (g : Nat → K) :
    ∑ s ∈ Finset.range l.length, g (l.getD s 0) = ∑ e ∈ l.toFinset, g e := by
  rw [List.sum_toFinset g h, ← ScatterAdd.sum_range]
  congr 1
  apply List.ext_getElem
  · rw [List.length_map, List.length_map, List.length_range]
  · intro i h₁ h₂
    simp at h₁ h₂ ⊢
    rw [List.getElem?_eq_getElem h₂, Option.getD_some]

/-- The experts that the router selects for a row of logits. -/
def selected (ops : MoeOps K) (numExperts topk : Nat) (logits : Nat → K) : Finset Nat :=
  (ops.topk.pick numExperts (ops.softmax numExperts logits) topk).toFinset

theorem selected_selects {numExperts topk : Nat} (h : topk ≤ numExperts) (logits : Nat → K) :
    Selects (ops.softmax numExperts logits) numExperts topk (ops.selected numExperts topk logits) where
  card := ops.topk.card_toFinset_pick h
  lt := fun e he => ops.topk.lt_of_mem h e (List.mem_toFinset.mp he)
  top := fun e he e' he' hnot =>
    ops.topk.le_of_mem h e (List.mem_toFinset.mp he) e' he' fun hmem => hnot (List.mem_toFinset.mpr hmem)

/-- A sum over the slots of a token is one over its experts. -/
theorem sum_slots {numExperts topk tokens : Nat} (h : topk ≤ numExperts) (gating : Nat → Nat → K)
    (t : Nat) (g : Nat → K) :
    ∑ s ∈ Finset.range topk, g ((ops.route numExperts tokens topk renormalize gating).idx t s) =
      ∑ e ∈ ops.selected numExperts topk (gating t), g e := by
  rw [selected, ← sum_getD (ops.topk.nodup_pick h), ops.topk.length_pick h]
  rfl

theorem route_idx_lt {numExperts topk tokens : Nat} (h : topk ≤ numExperts) (gating : Nat → Nat → K)
    (t : Nat) {s : Nat} (hs : s < topk) :
    (ops.route numExperts tokens topk renormalize gating).idx t s < numExperts := by
  have hlen : s < (ops.topk.pick numExperts (ops.softmax numExperts (gating t)) topk).length := by
    rwa [ops.topk.length_pick h]
  apply ops.topk.lt_of_mem h
  change (ops.topk.pick numExperts (ops.softmax numExperts (gating t)) topk).getD s 0 ∈ _
  rw [List.getD_eq_getElem?_getD, List.getElem?_eq_getElem hlen, Option.getD_some]
  exact List.getElem_mem hlen

theorem route_w {numExperts topk tokens : Nat} (h : topk ≤ numExperts) (gating : Nat → Nat → K)
    (t s : Nat) : (ops.route numExperts tokens topk renormalize gating).w t s =
      routerWeight (ops.softmax numExperts (gating t)) (ops.selected numExperts topk (gating t))
        renormalize ((ops.route numExperts tokens topk renormalize gating).idx t s) := by
  have hsum : ∑ s' ∈ Finset.range topk, ops.softmax numExperts (gating t)
      ((ops.route numExperts tokens topk renormalize gating).idx t s') = _ :=
    sum_slots h gating t (ops.softmax numExperts (gating t))
  rw [routerWeight, ← hsum]
  rfl

/-- The layer assigns every place of its buffer once, and gives each token the sum over the experts
that its router selects. -/
def SumsPerToken (ops : MoeOps K) (b : MoeBanks K) (x gating : Nat → Nat → K) (tokens topk : Nat)
    (renormalize onInput : Bool) (activation : String) (f : K → K) (junk : Nat → Nat → K) : Prop :=
  ∃ writes out, ops.moeWrites b x (ops.route b.numExperts tokens topk renormalize gating)
      activation onInput = .ok writes ∧
    (∀ t < tokens, ∀ s < topk, (writes.map Prod.fst).count (t * topk + s) = 1) ∧
    ops.fusedMoe b x tokens tokens gating topk renormalize activation onInput junk = .ok out ∧
    ∀ t < tokens,
      Selects (ops.softmax b.numExperts (gating t)) b.numExperts topk
        (ops.selected b.numExperts topk (gating t)) ∧
      ∀ o, out t o = perToken b f (routerWeight (ops.softmax b.numExperts (gating t))
        (ops.selected b.numExperts topk (gating t)) renormalize)
          (ops.selected b.numExperts topk (gating t)) onInput (x t) o

theorem fusedMoe_sumsPerToken (ops : MoeOps K) (b : MoeBanks K) (x gating : Nat → Nat → K)
    (tokens topk : Nat) (renormalize onInput : Bool) (activation : String) (f : K → K)
    (junk : Nat → Nat → K) (hact : ops.act activation = .ok f) (htopk : topk ≤ b.numExperts) :
    ops.SumsPerToken b x gating tokens topk renormalize onInput activation f junk := by
  let r := ops.route b.numExperts tokens topk renormalize gating
  let runs := (List.range b.numExperts).flatMap fun e =>
    (argsort r.flatIds).filter fun p => r.flatIds.getD p 0 = e
  have hwrites : ops.moeWrites b x r activation onInput =
      .ok (runs.map fun p => (p, pairContrib b x f r onInput p)) := moeWrites_eq hact
  have hkeys : (runs.map fun p => (p, pairContrib b x f r onInput p)).map Prod.fst = runs := by
    rw [List.map_map]
    exact List.map_id runs
  have honce : ∀ t < tokens, ∀ s < topk, runs.count (t * topk + s) = 1 := by
    intro t ht s hs
    have hlt : t * topk + s < tokens * topk := place_lt ht hs
    have hlen : t * topk + s < r.flatIds.length := by
      rw [Routing.length_flatIds]
      exact hlt
    refine count_cuts r.flatIds hlen ?_
    rw [Routing.flatIds_getD hlt]
    exact route_idx_lt htopk gating _ (Nat.mod_lt _ (Nat.zero_lt_of_lt hs))
  have hcontrib : ∀ t < tokens, ∀ s < topk,
      written junk (runs.map fun p => (p, pairContrib b x f r onInput p)) (t * topk + s) =
        pairContrib b x f r onInput (t * topk + s) := by
    intro t ht s hs
    apply written_eq
    · intro write hwrite heq
      obtain ⟨p, -, rfl⟩ := List.mem_map.mp hwrite
      exact congrArg (pairContrib b x f r onInput) heq
    · rw [hkeys, ← List.count_pos_iff, honce t ht s hs]
      exact Nat.one_pos
  refine ⟨_, fun t o => ∑ s ∈ Finset.range topk,
    written junk (runs.map fun p => (p, pairContrib b x f r onInput p)) (t * topk + s) o,
    hwrites, ?_, ?_, ?_⟩
  · intro t ht s hs
    rw [hkeys]
    exact honce t ht s hs
  · rw [fusedMoe, if_neg (not_not.mpr rfl), if_neg (Nat.not_lt.mpr htopk)]
    simp only [bind, Except.bind]
    rw [hwrites]
    rfl
  · intro t ht
    refine ⟨selected_selects htopk _, fun o => ?_⟩
    let weight := routerWeight (ops.softmax b.numExperts (gating t))
      (ops.selected b.numExperts topk (gating t)) renormalize
    let term := fun e => if onInput then b.expert f e (fun h => weight e * x t h) o
      else weight e * b.expert f e (x t) o
    have hsum : ∑ s ∈ Finset.range topk, term (r.idx t s) =
        perToken b f weight (ops.selected b.numExperts topk (gating t)) onInput (x t) o :=
      sum_slots htopk gating t term
    rw [← hsum]
    refine Finset.sum_congr rfl fun s hs => ?_
    have hs' : s < r.topK := Finset.mem_range.mp hs
    rw [hcontrib t ht s hs']
    refine (pairContrib_eq t hs' o).trans ?_
    rw [show r.w t s = weight (r.idx t s) from route_w htopk gating t s]

/-- The functions on real numbers. -/
noncomputable def realOps : MoeOps ℝ where
  exp := Real.exp
  silu := fun x => x / (1 + Real.exp (-x))
  gelu := fun x => x * ProbabilityTheory.cdf (ProbabilityTheory.gaussianReal 0 1) x
  topk := TopK.ofSort ℝ

/-- Three experts, no two of whose weights are alike. -/
def threeExperts : MoeBanks ℝ where
  numExperts := 3
  intermediate := 2
  hidden := 2
  w1 := fun e i h => (1 + 100 * e + 10 * i + h : ℕ)
  w2 := fun e o i => -(1 + 100 * e + 10 * o + i : ℕ)

/-- Three tokens, each for two of the experts. -/
theorem threeTokens_sumsPerToken :
    realOps.SumsPerToken threeExperts (fun t h => t + 2 * h) (fun t e => t * e - e ^ 2) 3 2 true
      false "silu" realOps.silu fun _ _ => 0 :=
  fusedMoe_sumsPerToken realOps threeExperts (fun t h => t + 2 * h) (fun t e => t * e - e ^ 2) 3 2
    true false "silu" realOps.silu (fun _ _ => 0) rfl (by decide)

end MoeOps

end FreeToken
