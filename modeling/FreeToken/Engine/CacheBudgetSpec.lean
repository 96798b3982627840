import FreeToken.Engine.CacheBudget
import Mathlib.Tactic.Ring
import Mathlib.Tactic.Linarith

/-!
# What the planned pools take of the budget

The automatic plan divides the whole budget between the two pools, and the slack page comes on top
of it. The pinned check counts the slack page, but a page as one token.
-/

namespace FreeToken

/-! ### Bytes of one slot and one token -/

theorem bytesPerSlot_pos {override : Option Int} {shape : ExpertShape} {bytes : Int}
    (h : bytesPerSlot override shape = .ok bytes) : 0 < bytes := by
  cases override with
  | some b =>
      rw [bytesPerSlot] at h
      split at h
      · cases h
      · next hpos =>
          cases h
          exact Int.not_le.mp hpos
  | none =>
      rw [bytesPerSlot] at h
      rw [bytesPerExpertSlot] at h
      split at h
      · cases h
      · next hpos =>
          rw [not_or, not_or, Int.not_le, Int.not_le, Int.not_le] at hpos
          obtain ⟨hinter, hhidden, hdtype⟩ := hpos
          cases h
          positivity

theorem bytesPerKvToken_pos {shape : KvShape} {bytes : Int}
    (h : bytesPerKvToken shape = .ok bytes) : 0 < bytes := by
  rw [bytesPerKvToken] at h
  split at h
  · cases h
  · next hpos =>
      rw [not_or, not_or, not_or, Int.not_le, Int.not_le, Int.not_le, Int.not_le] at hpos
      obtain ⟨hlayers, hheads, hdim, hdtype⟩ := hpos
      cases h
      positivity

/-- The pool has a row of each token slot. -/
theorem kvPoolBytes_eq {shape : KvShape} {bytes : Int} (h : bytesPerKvToken shape = .ok bytes)
    (numPages pageSize : Int) : kvPoolBytes shape numPages pageSize = numPages * pageSize * bytes := by
  rw [bytesPerKvToken] at h
  split at h
  · cases h
  · cases h
    rw [kvPoolBytes]
    ring

theorem fdiv_bounds {n d : Int} (hd : 0 < d) : n.fdiv d * d ≤ n ∧ n < (n.fdiv d + 1) * d := by
  rw [Int.fdiv_eq_ediv_of_nonneg n (le_of_lt hd)]
  have hdiv := Int.mul_ediv_add_emod n d
  have hnonneg := Int.emod_nonneg n (ne_of_gt hd)
  have hlt := Int.emod_lt_of_pos n hd
  constructor
  · nlinarith
  · nlinarith

theorem le_fdiv {k n d : Int} (hd : 0 < d) (h : k * d ≤ n) : k ≤ n.fdiv d := by
  rw [Int.fdiv_eq_ediv_of_nonneg n (le_of_lt hd)]
  exact Int.le_ediv_of_mul_le hd h

/-! ### The automatic plan -/

/-- The arguments are in range and the budget covers both floors; `slot` and `token` are the bytes
of an expert slot and of a token. -/
structure PlanArgs.Accepted (a : PlanArgs) (slot token : Int) : Prop where
  ratio : 0 < a.memoryRatio ∧ a.memoryRatio ≤ 1
  total : 0 < a.totalVramBytes
  reserve : 0 < a.kvReserveTokens
  moe : 0 < a.numExperts ∧ 0 < a.numMoeLayers
  fraction : ∀ fraction ∈ a.moeFraction, 0 < fraction ∧ fraction ≤ 1
  slot_eq : bytesPerSlot a.bytesPerSlotOverride a.expert = .ok slot
  token_eq : bytesPerKvToken a.kv = .ok token
  covers : a.kvReserveTokens * token + a.minSlots * slot ≤ a.budget

theorem filter_none_iff {fraction : Option ℚ} :
    fraction.filter (fun f => f ≤ 0 ∨ 1 < f) = none ↔ ∀ f ∈ fraction, 0 < f ∧ f ≤ 1 := by
  rw [Option.filter_eq_none_iff]
  constructor
  · intro h f hf
    have hnot := h f hf
    rw [decide_eq_true_eq, not_or, not_le, not_lt] at hnot
    exact hnot
  · intro h f hf
    rw [decide_eq_true_eq, not_or, not_le, not_lt]
    exact h f hf

/-- The plan raises, or it is the split of an accepted budget. -/
theorem planCacheBudget_ok_iff {a : PlanArgs} {plan : CacheBudget} :
    planCacheBudget a = .ok plan ↔ ∃ slot token, a.Accepted slot token ∧ a.split slot token = plan := by
  constructor
  · intro h
    rw [planCacheBudget] at h
    split at h
    · cases h
    · next hratio =>
        split at h
        · cases h
        · next htotal =>
            split at h
            · cases h
            · next hreserve =>
                split at h
                · cases h
                · next hmoe =>
                    split at h
                    · cases h
                    · next hfraction =>
                        split at h
                        · cases h
                        · next slot hslot =>
                            split at h
                            · cases h
                            · next token htoken =>
                                dsimp only at h
                                split at h
                                · cases h
                                · next hcovers =>
                                    rw [not_or, not_le, not_lt] at hratio
                                    rw [not_or, Int.not_le, Int.not_le] at hmoe
                                    refine ⟨slot, token, ?_, Except.ok.inj h⟩
                                    exact ⟨hratio, Int.not_le.mp htotal, Int.not_le.mp hreserve,
                                      hmoe, filter_none_iff.1 hfraction, hslot, htoken,
                                      Int.not_lt.mp hcovers⟩
  · rintro ⟨slot, token, h, rfl⟩
    have hratio : ¬ (a.memoryRatio ≤ 0 ∨ 1 < a.memoryRatio) := by
      rw [not_or, not_le, not_lt]
      exact h.ratio
    have hmoe : ¬ (a.numExperts ≤ 0 ∨ a.numMoeLayers ≤ 0) := by
      rw [not_or, Int.not_le, Int.not_le]
      exact h.moe
    rw [planCacheBudget, if_neg hratio, if_neg (Int.not_le.mpr h.total),
      if_neg (Int.not_le.mpr h.reserve), if_neg hmoe, filter_none_iff.2 h.fraction]
    dsimp only
    rw [h.slot_eq]
    dsimp only
    rw [h.token_eq]
    exact if_neg (Int.not_lt.mpr h.covers)

/-- The split keeps both floors, and its pages fill the budget up to the last whole one. -/
theorem PlanArgs.Accepted.split {a : PlanArgs} {slot token : Int} (h : a.Accepted slot token) :
    a.minSlots ≤ (a.split slot token).moeCacheSize ∧
      a.kvReserveTokens ≤ (a.split slot token).kvNumPages ∧
      (a.split slot token).moeCacheSize * slot + (a.split slot token).kvNumPages * token ≤ a.budget ∧
      a.budget < (a.split slot token).moeCacheSize * slot +
        ((a.split slot token).kvNumPages + 1) * token := by
  have hslot := bytesPerSlot_pos h.slot_eq
  have htoken := bytesPerKvToken_pos h.token_eq
  obtain ⟨available, havailable, hsize⟩ : ∃ available, available ≤ a.budget - a.kvReserveTokens * token ∧
      (a.split slot token).moeCacheSize = max a.minSlots (available.fdiv slot) := by
    cases hf : a.moeFraction with
    | none => exact ⟨_, le_refl _, by rw [PlanArgs.split, hf]⟩
    | some fraction => exact ⟨_, min_le_left _ _, by rw [PlanArgs.split, hf]⟩
  have hpages : (a.split slot token).kvNumPages = max a.kvReserveTokens
      ((a.budget - (a.split slot token).moeCacheSize * slot).fdiv token) := rfl
  generalize (a.split slot token).moeCacheSize = size at *
  generalize (a.split slot token).kvNumPages = pages at *
  -- the cache leaves the KV floor
  have hleaves : a.kvReserveTokens * token ≤ a.budget - size * slot := by
    have hcovers := h.covers
    have hfloor := (fdiv_bounds (n := available) hslot).1
    rcases max_choice a.minSlots (available.fdiv slot) with hmax | hmax
    · rw [hsize, hmax]
      omega
    · rw [hsize, hmax]
      omega
  have hreserve := le_fdiv htoken hleaves
  rw [max_eq_right hreserve] at hpages
  have hbounds := fdiv_bounds (n := a.budget - size * slot) htoken
  rw [← hpages] at hbounds hreserve
  refine ⟨hsize ▸ le_max_left _ _, hreserve, ?_, ?_⟩
  · omega
  · omega

/-- What the plan and the engine's pool give: the plan raises, or the slots, the capacity and the
memory are as promised. -/
def AutoFits (a : PlanArgs) (pageSize : Int) : Prop :=
  ∀ plan, planCacheBudget a = .ok plan → a.minSlots ≤ plan.moeCacheSize ∧
    a.kvReserveTokens ≤ kvCapacity (enginePages plan.kvNumPages) pageSize ∧
    ∀ slot, bytesPerSlot a.bytesPerSlotOverride a.expert = .ok slot →
      plan.moeCacheSize * slot + kvPoolBytes a.kv (enginePages plan.kvNumPages) pageSize ≤ a.budget

/-- A page more than the budget holds. -/
theorem autoFits_iff {a : PlanArgs} {pageSize : Int} (hpage : 1 ≤ pageSize) :
    AutoFits a pageSize ↔ ∀ slot token, ¬ a.Accepted slot token := by
  constructor
  · intro hfits slot token h
    obtain ⟨-, hreserve, -, hover⟩ := h.split
    have htoken := bytesPerKvToken_pos h.token_eq
    have hmem := (hfits _ (planCacheBudget_ok_iff.2 ⟨slot, token, h, rfl⟩)).2.2 slot h.slot_eq
    rw [kvPoolBytes_eq h.token_eq, enginePages] at hmem
    have hpages : 0 ≤ (a.split slot token).kvNumPages + 1 := by
      have := h.reserve
      omega
    have hscale : ((a.split slot token).kvNumPages + 1) * token
        ≤ ((a.split slot token).kvNumPages + 1) * pageSize * token := by
      apply mul_le_mul_of_nonneg_right _ (le_of_lt htoken)
      exact le_mul_of_one_le_right hpages hpage
    omega
  · intro hnone plan hplan
    obtain ⟨slot, token, h, -⟩ := planCacheBudget_ok_iff.1 hplan
    exact absurd h (hnone slot token)

/-- The two floors hold of every plan that does not raise. -/
theorem planCacheBudget_floors {a : PlanArgs} {plan : CacheBudget} {pageSize : Int}
    (hpage : 1 ≤ pageSize) (hplan : planCacheBudget a = .ok plan) :
    a.minSlots ≤ plan.moeCacheSize ∧
      a.kvReserveTokens ≤ kvCapacity (enginePages plan.kvNumPages) pageSize := by
  obtain ⟨slot, token, h, rfl⟩ := planCacheBudget_ok_iff.1 hplan
  obtain ⟨hslots, hreserve, -, -⟩ := h.split
  refine ⟨hslots, ?_⟩
  have hpos := h.reserve
  rw [kvCapacity, enginePages]
  nlinarith

/-! ### The pinned check -/

def PinnedConfig.budget (c : PinnedConfig) : Int := pyInt (c.totalVramBytes * c.memoryRatio)

/-- The arguments are in range and two pages of one token fit beside the MoE cache; `moe` and
`token` are the bytes of the cache and of a token. -/
structure PinnedConfig.Accepted (c : PinnedConfig) (moe token : Int) : Prop where
  ratio : 0 < c.memoryRatio ∧ c.memoryRatio ≤ 1
  requested : 0 < c.requestedNumPages
  moe_eq : c.args.moeBytes = .ok moe
  token_eq : bytesPerKvToken c.kv = .ok token
  fits : moe + 2 * token ≤ c.budget

theorem two_le_fdiv_iff {n d : Int} (hd : 0 < d) : 2 ≤ (max 0 n).fdiv d ↔ 2 * d ≤ n := by
  constructor
  · intro h
    have hbound := (fdiv_bounds (n := max 0 n) hd).1
    have htwo : 2 * d ≤ max 0 n := le_trans (mul_le_mul_of_nonneg_right h (le_of_lt hd)) hbound
    rcases max_choice 0 n with hmax | hmax
    · rw [hmax] at htwo
      omega
    · rwa [hmax] at htwo
  · intro h
    exact le_fdiv hd (le_trans h (le_max_right _ _))

/-- The check raises, or it returns what was asked for, at most what fits without the slack page. -/
theorem checkPinnedKvFit_ok_iff {c : PinnedConfig} {n : Int} :
    (∃ reason, checkPinnedKvFit c.args = .ok (n, reason)) ↔ ∃ moe token, c.Accepted moe token ∧
      n = min c.requestedNumPages ((max 0 (c.budget - moe)).fdiv token - 1) := by
  constructor
  · rintro ⟨reason, h⟩
    rw [checkPinnedKvFit, PinnedConfig.args] at h
    dsimp only at h
    split at h
    · cases h
    · next hratio =>
        split at h
        · cases h
        · next hrequested =>
            rw [if_neg (by decide)] at h
            split at h
            · cases h
            · next moe hmoe =>
                split at h
                · cases h
                · next token htoken =>
                    split at h
                    · cases h
                    · next hfit =>
                        have hpos := bytesPerKvToken_pos htoken
                        rw [not_or, not_le, not_lt] at hratio
                        have haccepted : c.Accepted moe token := by
                          refine ⟨hratio, Int.not_le.mp hrequested, hmoe, htoken, ?_⟩
                          have htwo := (two_le_fdiv_iff (n := c.budget - moe) hpos).mp (by
                            rw [PinnedConfig.budget]
                            omega)
                          omega
                        refine ⟨moe, token, haccepted, ?_⟩
                        rw [PinnedConfig.budget]
                        split at h
                        · next hle =>
                            cases h
                            exact (min_eq_left hle).symm
                        · next hle =>
                            cases h
                            exact (min_eq_right (le_of_lt (Int.not_le.mp hle))).symm
  · rintro ⟨moe, token, h, rfl⟩
    have hratio : ¬ (c.memoryRatio ≤ 0 ∨ 1 < c.memoryRatio) := by
      rw [not_or, not_le, not_lt]
      exact h.ratio
    have htwo := (two_le_fdiv_iff (n := c.budget - moe) (bytesPerKvToken_pos h.token_eq)).mpr (by
      have := h.fits
      omega)
    have hmoe := h.moe_eq
    rw [PinnedConfig.args] at hmoe
    rw [checkPinnedKvFit, PinnedConfig.args]
    dsimp only
    rw [if_neg hratio, if_neg (Int.not_le.mpr h.requested), if_neg (by decide), hmoe]
    dsimp only
    rw [h.token_eq]
    dsimp only
    rw [PinnedConfig.budget] at htwo ⊢
    rw [if_neg (by omega)]
    split
    · next hle => exact ⟨none, by rw [min_eq_left hle]⟩
    · next hle => exact ⟨_, by rw [min_eq_right (le_of_lt (Int.not_le.mp hle))]⟩

theorem le_pinnedMoeCacheSize (planned : Option Int) {numExperts numMoeLayers : Int}
    (hmoe : 0 < numExperts ∧ 0 < numMoeLayers) :
    numExperts ≤ pinnedMoeCacheSize planned numExperts numMoeLayers := by
  rw [pinnedMoeCacheSize]
  split
  · next size hsize =>
      have hfilter := (Option.filter_eq_some_iff.mp hsize).2
      rw [decide_eq_true_eq] at hfilter
      exact hfilter.2.2
  · rw [if_pos ⟨ne_of_gt hmoe.1, ne_of_gt hmoe.2⟩]
    have := le_max_left (2 : Int) numMoeLayers
    omega

/-- The pinned check raises, or a MoE model has slots for a whole layer and the pools fit. -/
def PinnedFits (c : PinnedConfig) (pageSize : Int) : Prop :=
  ∀ n reason, checkPinnedKvFit c.args = .ok (n, reason) →
    (0 < c.numExperts ∧ 0 < c.numMoeLayers → c.numExperts ≤ c.args.moeCacheSize) ∧
    ∀ moe, c.args.moeBytes = .ok moe →
      moe + kvPoolBytes c.kv (enginePages n) pageSize ≤ c.budget

/-- With pages of one token, or room for the whole of what was asked for. -/
theorem pinnedFits_iff {c : PinnedConfig} {pageSize : Int} (hpage : 1 ≤ pageSize) :
    PinnedFits c pageSize ↔ ∀ moe token, c.Accepted moe token →
      pageSize = 1 ∨ moe + (c.requestedNumPages + 1) * pageSize * token ≤ c.budget := by
  constructor
  · intro hfits moe token h
    have htoken := bytesPerKvToken_pos h.token_eq
    obtain ⟨reason, hok⟩ := checkPinnedKvFit_ok_iff.2 ⟨moe, token, h, rfl⟩
    have hmem := (hfits _ reason hok).2 moe h.moe_eq
    rw [kvPoolBytes_eq h.token_eq, enginePages] at hmem
    have htwo := (two_le_fdiv_iff (n := c.budget - moe) htoken).mpr (by
      have := h.fits
      omega)
    have hmax : max 0 (c.budget - moe) = c.budget - moe := max_eq_right (by
      have := h.fits
      omega)
    have hover := (fdiv_bounds (n := c.budget - moe) htoken).2
    rw [hmax] at htwo hmem
    generalize (c.budget - moe).fdiv token = fit at *
    by_cases hone : pageSize = 1
    · exact Or.inl hone
    · right
      rcases le_total c.requestedNumPages (fit - 1) with hle | hle
      · rw [min_eq_left hle] at hmem
        omega
      · -- pages of two tokens and more take twice what was counted
        exfalso
        rw [min_eq_right hle] at hmem
        have hpages : 2 ≤ pageSize := by omega
        have htwice : fit * 2 * token ≤ (fit - 1 + 1) * pageSize * token := by
          apply mul_le_mul_of_nonneg_right _ (le_of_lt htoken)
          rw [sub_add_cancel]
          exact mul_le_mul_of_nonneg_left hpages (by omega)
        nlinarith
  · intro hroom n reason hok
    obtain ⟨moe, token, h, hn⟩ := checkPinnedKvFit_ok_iff.1 ⟨reason, hok⟩
    refine ⟨fun hmoe => le_pinnedMoeCacheSize c.plannedCacheSize hmoe, fun moe' hmoe' => ?_⟩
    have hsame : moe' = moe := Except.ok.inj (hmoe'.symm.trans h.moe_eq)
    subst hsame
    have htoken := bytesPerKvToken_pos h.token_eq
    rw [kvPoolBytes_eq h.token_eq, enginePages]
    rcases hroom moe' token h with hone | hall
    · subst hone
      have hmax : max 0 (c.budget - moe') = c.budget - moe' := max_eq_right (by
        have := h.fits
        omega)
      have hbound := (fdiv_bounds (n := c.budget - moe') htoken).1
      have hle : n + 1 ≤ (c.budget - moe').fdiv token := by
        rw [hmax] at hn
        have := min_le_right c.requestedNumPages ((c.budget - moe').fdiv token - 1)
        omega
      have hscale := mul_le_mul_of_nonneg_right hle (le_of_lt htoken)
      rw [mul_one]
      omega
    · have hle : n + 1 ≤ c.requestedNumPages + 1 := by
        have := min_le_left c.requestedNumPages ((max 0 (c.budget - moe')).fdiv token - 1)
        omega
      have hscale : (n + 1) * pageSize * token ≤ (c.requestedNumPages + 1) * pageSize * token := by
        apply mul_le_mul_of_nonneg_right _ (le_of_lt htoken)
        exact mul_le_mul_of_nonneg_right hle (by omega)
      omega

/-! ### Both modes -/

/-- The automatic plan fits only when it raises; the pinned pool fits with pages of one token, or
when all that was asked for fits with its slack page. -/
theorem cacheBudget_fits_iff (a : PlanArgs) (c : PinnedConfig) {pageSize : Int}
    (hpage : 1 ≤ pageSize) :
    (AutoFits a pageSize ↔ ∀ slot token, ¬ a.Accepted slot token) ∧
      (PinnedFits c pageSize ↔ ∀ moe token, c.Accepted moe token →
        pageSize = 1 ∨ moe + (c.requestedNumPages + 1) * pageSize * token ≤ c.budget) :=
  ⟨autoFits_iff hpage, pinnedFits_iff hpage⟩

/-- A card of 32 GiB, 128 experts in each of 48 layers. -/
def cardShape : KvShape := ⟨48, 4, 128, 2⟩

def cardExpert : ExpertShape := ⟨768, 2048, 2⟩

def cardAuto : PlanArgs where
  totalVramBytes := 34359738368
  memoryRatio := 9 / 10
  kvReserveTokens := 8192
  numExperts := 128
  expert := cardExpert
  numMoeLayers := 48
  kv := cardShape

def cardPinned : PinnedConfig where
  totalVramBytes := 34359738368
  memoryRatio := 9 / 10
  plannedCacheSize := some 3000
  numExperts := 128
  numMoeLayers := 48
  kv := cardShape
  expert := cardExpert
  requestedNumPages := 40960

theorem cardPinned_fits : (AutoFits cardAuto 1 ↔ ∀ slot token, ¬ cardAuto.Accepted slot token) ∧
    (PinnedFits cardPinned 1 ↔ ∀ moe token, cardPinned.Accepted moe token →
      (1 : Int) = 1 ∨ moe + (cardPinned.requestedNumPages + 1) * 1 * token ≤ cardPinned.budget) :=
  cacheBudget_fits_iff cardAuto cardPinned (by decide)

/-- The plan for the card; the pool with its slack page ends 19661 bytes past the budget. -/
theorem cardAuto_overshoots :
    planCacheBudget cardAuto = .ok ⟨30923764531, 30114054144, 809710387, 3191, 8236, false⟩ ∧
      3191 * 9437184 + kvPoolBytes cardShape (enginePages 8236) 1 = 30923764531 + 19661 ∧
      ¬ AutoFits cardAuto 1 := by
  have hplan : planCacheBudget cardAuto
      = .ok ⟨30923764531, 30114054144, 809710387, 3191, 8236, false⟩ := by decide +kernel
  refine ⟨hplan, by decide, fun hfits => ?_⟩
  have hmem := (hfits _ hplan).2.2 9437184 rfl
  revert hmem
  decide +kernel

end FreeToken
