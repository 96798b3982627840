import FreeToken.Moe.CpuLayersSpec
import FreeToken.Moe.HybridSpec
import Mathlib.Data.Finset.Card

/-!
# The split of the routed experts

`_forward_hybrid` leaves the first of the sorted routed experts to the CPU and the others to the
XPU. Its split is the same code in `models/qwen3_moe` and `models/qwen3_5_moe`; the layers that it
splits are not, for a layer that `_is_cpu_layer` takes is the CPU's as a whole, and only Qwen3.5's
takes any in a hybrid model. `--moe-hybrid-max-fetch` is to cap how many experts go to the XPU. On
the way from the command line a `0` becomes `-1`, which is no cap.
-/

namespace FreeToken

open OffloadMoeCache

namespace MoeModel

variable {K : Type}

variable (m : MoeModel K) (r : Routing K)

theorem mem_groups_iff {c : OffloadMoeCache (Nat → Nat → K)} {layer : Nat} {exclude : List Nat}
    {g : Nat × Nat × Nat} : g ∈ groups c layer r exclude ↔
      r.idx g.2.2 g.1 < c.numExperts ∧ r.idx g.2.2 g.1 ∉ exclude ∧
        slotOf c layer (r.idx g.2.2 g.1) = some g.2.1 ∧ g.1 < r.topK ∧ g.2.2 < r.tokens := by
  simp only [groups, List.mem_flatMap, List.mem_range]
  constructor
  · rintro ⟨e, he, hg⟩
    by_cases hout : e ∈ exclude
    · simp [hout] at hg
    · rcases hslot : slotOf c layer e with _ | s
      · simp [hout, hslot] at hg
      · simp only [hout, if_false, hslot, List.mem_map, List.mem_filter, decide_eq_true_eq] at hg
        rcases hg with ⟨p, ⟨hp, rfl⟩, rfl⟩
        exact ⟨he, hout, hslot, ScatterAdd.mem_places.mp hp⟩
  · rintro ⟨he, hout, hslot, hplace⟩
    refine ⟨r.idx g.2.2 g.1, he, ?_⟩
    simp only [hout, if_false, hslot, List.mem_map, List.mem_filter, decide_eq_true_eq]
    exact ⟨(g.1, g.2.2), ⟨ScatterAdd.mem_places.mpr hplace, rfl⟩, rfl⟩

/-- The offload half computes the routed experts outside the excluded ones. -/
theorem groups_experts [CommRing K] {c c' : OffloadMoeCache (Nat → Nat → K)} {layer : Nat}
    {isPrefill : Bool} (h : c.Coherent) {exclude : List Nat}
    (hlt : ∀ i < r.tokens, ∀ j < r.topK, r.idx i j < c.numExperts)
    (hnext : next c (offloadCall layer isPrefill r exclude) = some c') (e : Nat) :
    (∃ g ∈ groups c' layer r exclude, r.idx g.2.2 g.1 = e) ↔ e ∈ r.flatIds.filter (· ∉ exclude) := by
  have hexperts := (next_fits ⟨rfl, rfl, rfl⟩ h hnext).numExperts_eq
  rw [List.mem_filter, decide_eq_true_eq, mem_flatIds]
  constructor
  · rintro ⟨g, hg, rfl⟩
    rcases mem_groups_iff r |>.mp hg with ⟨-, hout, -, hcol, hrow⟩
    exact ⟨⟨g.2.2, hrow, g.1, hcol, rfl⟩, hout⟩
  · rintro ⟨⟨i, hi, j, hj, rfl⟩, hout⟩
    rcases slot_of_next h hlt hnext hi hj hout with ⟨s, -, hs⟩
    refine ⟨(j, s, i), (mem_groups_iff r).mpr ⟨?_, hout, hs, hj, hi⟩, rfl⟩
    rw [hexperts]
    exact hlt i hi j hj

/-! ### The cap -/

end MoeModel

end FreeToken
