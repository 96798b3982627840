import FreeToken.Tokenizer.Effort
import Mathlib.Data.Fintype.Pi

/-!
# Which templates are quantized alike everywhere

A quantized effort is always a level that each round accepted. It is the same in every process
but where nothing is rejected, something diverges, and both `xhigh` and `max`, which share
their place on the scale, render like the baseline. There the probed default is whichever of
the two the process iterates first.
-/

namespace FreeToken

/-! ### What the probe finds -/

/-- A level still matches exactly when it was neither rejected nor found to diverge. -/
def Probe.Consistent (p : Probe) : Prop :=
  ∀ level, p.matchesBaseline level = true ↔ level ∉ p.rejected ∧ level ∉ p.diverged

/-- What more is found on the way from one probe to another. -/
structure Probe.Finds (p p' : Probe) (rejects diverges : Effort → Prop) : Prop where
  rejected : ∀ level, level ∈ p'.rejected ↔ level ∈ p.rejected ∨ rejects level
  diverged : ∀ level, level ∈ p'.diverged ↔ level ∈ p.diverged ∨ diverges level
  consistent : p.Consistent → p'.Consistent

namespace Template

variable (t : Template)

/-- A round with a baseline raises on the level. -/
def RejectsIn (round : Kwargs × Option (List ProbeTool)) (level : Effort) : Prop :=
  ∃ baseline raised, t.render round.1 round.2 = .ok baseline ∧
    t.render (effortKwargs round.1 level) round.2 = .error raised

/-- A round renders the level unlike its baseline. -/
def DivergesIn (round : Kwargs × Option (List ProbeTool)) (level : Effort) : Prop :=
  ∃ baseline rendering, t.render round.1 round.2 = .ok baseline ∧
    t.render (effortKwargs round.1 level) round.2 = .ok rendering ∧
    t.differ rendering baseline = true

def Rejects (level : Effort) : Prop := ∃ round ∈ probeRounds, t.RejectsIn round level

def Diverges (level : Effort) : Prop := ∃ round ∈ probeRounds, t.DivergesIn round level

/-- Every round with a baseline renders the level. -/
def Accepts (level : Effort) : Prop :=
  ∀ round ∈ probeRounds, ∀ baseline, t.render round.1 round.2 = .ok baseline →
    ∃ rendering, t.render (effortKwargs round.1 level) round.2 = .ok rendering

variable {t}

theorem accepts_of_not_rejects {level : Effort} (h : ¬ t.Rejects level) : t.Accepts level := by
  intro round hround baseline hbaseline
  rcases hrender : t.render (effortKwargs round.1 level) round.2 with raised | rendering
  · exact absurd ⟨round, hround, baseline, raised, hbaseline, hrender⟩ h
  · exact ⟨rendering, rfl⟩

end Template

namespace Probe

variable {p q s : Probe} {r d r' d' : Effort → Prop}

theorem Finds.trans (h : p.Finds q r d) (h' : q.Finds s r' d') :
    p.Finds s (fun l => r l ∨ r' l) (fun l => d l ∨ d' l) where
  rejected := fun level => by rw [h'.rejected, h.rejected, or_assoc]
  diverged := fun level => by rw [h'.diverged, h.diverged, or_assoc]
  consistent := fun hp => h'.consistent (h.consistent hp)

theorem Finds.congr (h : p.Finds q r d) (hr : ∀ l, r l ↔ r' l) (hd : ∀ l, d l ↔ d' l) :
    p.Finds q r' d' where
  rejected := fun level => by rw [h.rejected, hr]
  diverged := fun level => by rw [h.diverged, hd]
  consistent := h.consistent

theorem finds_none (p : Probe) : p.Finds p (fun _ => False) (fun _ => False) where
  rejected := fun _ => (or_false _).symm.to_iff
  diverged := fun _ => (or_false _).symm.to_iff
  consistent := id

theorem finds_rejected (p : Probe) (level : Effort) : p.Finds
    { p with
      rejected := insert level p.rejected
      matchesBaseline := fun l => if l = level then false else p.matchesBaseline l }
    (· = level) (fun _ => False) where
  rejected := fun l => by simp [or_comm]
  diverged := fun l => by simp
  consistent := fun hp l => by
    by_cases hl : l = level
    · simp [hl]
    · simpa [hl] using hp l

theorem finds_diverged (p : Probe) (level : Effort) : p.Finds
    { p with
      diverged := insert level p.diverged
      matchesBaseline := fun l => if l = level then false else p.matchesBaseline l }
    (fun _ => False) (· = level) where
  rejected := fun l => by simp
  diverged := fun l => by simp [or_comm]
  consistent := fun hp l => by
    by_cases hl : l = level
    · simp [hl]
    · simpa [hl] using hp l

end Probe

namespace Template

variable {t : Template} {round : Kwargs × Option (List ProbeTool)} {baseline : t.Rendering}

theorem rejectsIn_iff (hbaseline : t.render round.1 round.2 = .ok baseline) (level : Effort) :
    t.RejectsIn round level ↔
      ∃ raised, t.render (effortKwargs round.1 level) round.2 = .error raised := by
  simp [RejectsIn, hbaseline]

theorem divergesIn_iff (hbaseline : t.render round.1 round.2 = .ok baseline) (level : Effort) :
    t.DivergesIn round level ↔
      ∃ rendering, t.render (effortKwargs round.1 level) round.2 = .ok rendering ∧
        t.differ rendering baseline = true := by
  simp [DivergesIn, hbaseline]

theorem probeLevel_finds (hbaseline : t.render round.1 round.2 = .ok baseline) (p : Probe)
    (level : Effort) : p.Finds (t.probeLevel round.1 round.2 baseline p level)
      (fun l => l = level ∧ t.RejectsIn round l) (fun l => l = level ∧ t.DivergesIn round l) := by
  simp only [rejectsIn_iff hbaseline, divergesIn_iff hbaseline, probeLevel]
  rcases hrender : t.render (effortKwargs round.1 level) round.2 with raised | rendering
  · refine (p.finds_rejected level).congr (fun l => ?_) (fun l => ?_)
    · constructor
      · rintro rfl
        exact ⟨rfl, raised, hrender⟩
      · exact And.left
    · simp only [false_iff]
      rintro ⟨rfl, hrendering⟩
      simp [hrender] at hrendering
  · by_cases hdiffer : t.differ rendering baseline = true
    · simp only [hdiffer, if_true]
      refine (p.finds_diverged level).congr (fun l => ?_) (fun l => ?_)
      · simp only [false_iff]
        rintro ⟨rfl, hraised⟩
        simp [hrender] at hraised
      · constructor
        · rintro rfl
          exact ⟨rfl, rendering, hrender, hdiffer⟩
        · exact And.left
    · simp only [hdiffer]
      refine p.finds_none.congr (fun l => ?_) (fun l => ?_)
      · simp only [false_iff]
        rintro ⟨rfl, hraised⟩
        simp [hrender] at hraised
      · simp only [false_iff]
        rintro ⟨rfl, hrendering⟩
        simp [hrender, hdiffer] at hrendering

/-- The levels of a round, one by one. -/
theorem foldl_probeLevel_finds (hbaseline : t.render round.1 round.2 = .ok baseline)
    (levels : List Effort) (p : Probe) :
    p.Finds (levels.foldl (t.probeLevel round.1 round.2 baseline) p)
      (fun l => l ∈ levels ∧ t.RejectsIn round l) (fun l => l ∈ levels ∧ t.DivergesIn round l) := by
  induction levels generalizing p with
  | nil => exact p.finds_none.congr (fun l => by simp) (fun l => by simp)
  | cons level levels ih =>
    refine ((probeLevel_finds hbaseline p level).trans (ih _)).congr (fun l => ?_) (fun l => ?_)
    · simp [or_and_right]
    · simp [or_and_right]

theorem probeRound_finds (p : Probe) (round : Kwargs × Option (List ProbeTool)) :
    p.Finds (t.probeRound p round) (t.RejectsIn round) (t.DivergesIn round) := by
  rcases hbaseline : t.render round.1 round.2 with raised | baseline
  · simp only [probeRound, hbaseline]
    exact p.finds_none.congr (fun l => by simp [RejectsIn, hbaseline])
      (fun l => by simp [DivergesIn, hbaseline])
  · simp only [probeRound, hbaseline]
    have hran : p.Finds { p with ranRounds := p.ranRounds + 1 } (fun _ => False) (fun _ => False) :=
      ⟨p.finds_none.rejected, p.finds_none.diverged, id⟩
    refine (hran.trans (foldl_probeLevel_finds hbaseline Effort.known _)).congr (fun l => ?_)
      (fun l => ?_)
    · simp [Effort.mem_known]
    · simp [Effort.mem_known]

/-- The rounds, one by one. -/
theorem foldl_probeRound_finds (rounds : List (Kwargs × Option (List ProbeTool))) (p : Probe) :
    p.Finds (rounds.foldl t.probeRound p) (fun l => ∃ round ∈ rounds, t.RejectsIn round l)
      (fun l => ∃ round ∈ rounds, t.DivergesIn round l) := by
  induction rounds generalizing p with
  | nil => exact p.finds_none.congr (fun l => by simp) (fun l => by simp)
  | cons round rounds ih =>
    refine ((probeRound_finds p round).trans (ih _)).congr (fun l => ?_) (fun l => ?_)
    · simp
    · simp

theorem mem_rejected (level : Effort) : level ∈ t.probed.rejected ↔ t.Rejects level := by
  simpa [probed, Rejects] using (foldl_probeRound_finds probeRounds {}).rejected level

theorem mem_diverged (level : Effort) : level ∈ t.probed.diverged ↔ t.Diverges level := by
  simpa [probed, Diverges] using (foldl_probeRound_finds probeRounds {}).diverged level

theorem matchesBaseline_iff (level : Effort) : t.probed.matchesBaseline level = true ↔
    ¬ t.Rejects level ∧ ¬ t.Diverges level := by
  have hconsistent : t.probed.Consistent :=
    (foldl_probeRound_finds probeRounds {}).consistent fun l => by simp
  rw [hconsistent, mem_rejected, mem_diverged]

/-! ### The number of rounds that ran -/

theorem foldl_probeLevel_ranRounds (levels : List Effort) (p : Probe) :
    (levels.foldl (t.probeLevel round.1 round.2 baseline) p).ranRounds = p.ranRounds := by
  induction levels generalizing p with
  | nil => rfl
  | cons level levels ih =>
    rw [List.foldl_cons, ih, probeLevel]
    rcases t.render (effortKwargs round.1 level) round.2 with raised | rendering
    · rfl
    · simp only
      split_ifs <;> rfl

theorem le_ranRounds (rounds : List (Kwargs × Option (List ProbeTool))) (p : Probe) :
    p.ranRounds ≤ (rounds.foldl t.probeRound p).ranRounds ∧
    ((rounds.foldl t.probeRound p).ranRounds = 0 →
      ∀ round ∈ rounds, ∀ baseline, t.render round.1 round.2 ≠ .ok baseline) := by
  induction rounds generalizing p with
  | nil => simp
  | cons round rounds ih =>
    rcases ih (t.probeRound p round) with ⟨hle, hnone⟩
    rcases hbaseline : t.render round.1 round.2 with raised | baseline
    · have hsame : t.probeRound p round = p := by simp only [probeRound, hbaseline]
      rw [hsame] at hle
      refine ⟨by simpa [hsame] using hle, fun hzero => ?_⟩
      simpa [hbaseline] using hnone hzero
    · have hmore : (t.probeRound p round).ranRounds = p.ranRounds + 1 := by
        simp only [probeRound, hbaseline, foldl_probeLevel_ranRounds]
      rw [hmore] at hle
      refine ⟨Nat.le_of_succ_le hle, fun hzero => ?_⟩
      simp only [List.foldl_cons] at hzero
      omega

end Template

/-! ### Orders that do not matter -/

namespace SetOrder

theorem perm (o o' : SetOrder) (s : Finset Effort) : (o.list s).Perm (o'.list s) :=
  (List.perm_ext_iff_of_nodup (o.nodup s) (o'.nodup s)).mpr fun level => by
    rw [o.mem_iff, o'.mem_iff]

/-- From the least effort on. -/
def upwards : SetOrder where
  list := fun s => Effort.known.filter (· ∈ s)
  nodup := fun s => List.Nodup.filter _ (by decide)
  mem_iff := fun s level => by simp [Effort.mem_known]

/-- From the greatest effort on. -/
def downwards : SetOrder where
  list := fun s => Effort.known.reverse.filter (· ∈ s)
  nodup := fun s => List.Nodup.filter _ (by decide)
  mem_iff := fun s level => by simp [Effort.mem_known]

/-- Of `xhigh` and `max` the first one is taken. -/
theorem argmax_upwards : ∀ hit : Effort → Bool, hit .xhigh = true → hit .max = true →
    ((upwards.list Finset.univ).filter hit).argmax Effort.scale = some .xhigh := by
  decide +kernel

theorem argmax_downwards : ∀ hit : Effort → Bool, hit .xhigh = true → hit .max = true →
    ((downwards.list Finset.univ).filter hit).argmax Effort.scale = some .max := by
  decide +kernel

end SetOrder

namespace Effort

/-- Only `xhigh` and `max` share their place. -/
theorem scale_inj {a b : Effort} (h : a.scale = b.scale) :
    a = b ∨ (a = xhigh ∧ b = max) ∨ (a = max ∧ b = xhigh) := by
  revert a b
  decide

theorem argmax_scale_congr {l l' : List Effort} (hmem : ∀ a, a ∈ l ↔ a ∈ l')
    (htie : ¬ (xhigh ∈ l ∧ max ∈ l)) : l.argmax scale = l'.argmax scale := by
  rcases hm : l.argmax scale with _ | m
  · have hnil := List.argmax_eq_none.mp hm
    have hnil' : l' = [] := List.eq_nil_iff_forall_not_mem.mpr fun a ha => by
      simpa [hnil] using (hmem a).mpr ha
    simp [hnil']
  · have hml : m ∈ l := List.argmax_mem hm
    rcases hm' : l'.argmax scale with _ | m'
    · have hin := (hmem m).mp hml
      simp [List.argmax_eq_none.mp hm'] at hin
    · have hml' : m' ∈ l := (hmem m').mpr (List.argmax_mem hm')
      have hle := List.le_of_mem_argmax hml' hm
      have hge := List.le_of_mem_argmax ((hmem m).mp hml) hm'
      rcases scale_inj (le_antisymm hge hle) with rfl | ⟨rfl, rfl⟩ | ⟨rfl, rfl⟩
      · rfl
      · exact absurd ⟨hml, hml'⟩ htie
      · exact absurd ⟨hml', hml⟩ htie

instance (position : Nat) : Std.Total (Closer position) where
  total := fun a b => by
    simp only [Closer]
    omega

instance (position : Nat) : IsTrans Effort (Closer position) where
  trans := fun a b c => by
    simp only [Closer]
    omega

/-- Without `max` the ranking does not depend on the order of the set. -/
theorem ranked_congr (o o' : SetOrder) (s : Finset Effort) (position : Nat) :
    ((o.list s).filter (· ≠ max)).insertionSort (Closer position) =
      ((o'.list s).filter (· ≠ max)).insertionSort (Closer position) := by
  refine List.Perm.eq_of_pairwise ?_ (List.pairwise_insertionSort _ _)
    (List.pairwise_insertionSort _ _) ?_
  · intro a b ha hb hab hba
    have ha' : a ≠ max := by simpa using (List.mem_filter.mp ((List.mem_insertionSort _).mp ha)).2
    have hb' : b ≠ max := by simpa using (List.mem_filter.mp ((List.mem_insertionSort _).mp hb)).2
    have hscale : a.scale = b.scale := by
      simp only [Closer] at hab hba
      omega
    rcases scale_inj hscale with h | ⟨-, h⟩ | ⟨h, -⟩
    · exact h
    · exact absurd h hb'
    · exact absurd h ha'
  · exact ((List.perm_insertionSort _ _).trans ((o.perm o' s).filter _)).trans
      (List.perm_insertionSort _ _).symm

end Effort

theorem quantizeEffort_order (o o' : SetOrder) (value : ClientValue) (profile : EffortProfile) :
    quantizeEffort o value profile = quantizeEffort o' value profile := by
  simp only [quantizeEffort, Effort.ranked_congr o o']

theorem quantizeEffort_congr {profile profile' : EffortProfile}
    (h : effectiveEfforts profile = effectiveEfforts profile') (o : SetOrder)
    (value : ClientValue) : quantizeEffort o value profile = quantizeEffort o value profile' := by
  simp only [quantizeEffort, h]

theorem effectiveEfforts_subset {profile : EffortProfile}
    (h : ∀ level, profile.default = some level → level ∈ profile.supported) :
    effectiveEfforts profile ⊆ profile.supported := by
  by_cases hconsumes : profile.consumesEffort = true
  · simp only [effectiveEfforts, hconsumes, not_true_eq_false, if_false]
    split_ifs
    · exact Finset.Subset.refl _
    all_goals
      rcases hdefault : profile.default with _ | level
      · exact fun l hl => (Finset.mem_filter.mp hl).2
      · exact Finset.insert_subset (h level hdefault) fun l hl => (Finset.mem_filter.mp hl).2
  · simp [effectiveEfforts, hconsumes]

/-- A quantized effort is one of the effective ones. -/
theorem quantizeEffort_mem {o : SetOrder} {value : ClientValue} {profile : EffortProfile}
    {level : Effort} (h : quantizeEffort o value profile = some level) :
    level ∈ effectiveEfforts profile := by
  by_cases hempty : effectiveEfforts profile = ∅
  · simp [quantizeEffort, hempty] at h
  rcases value with s | _
  · rcases hname : Effort.ofName? s with _ | named
    · simp [quantizeEffort, hempty, hname] at h
    · by_cases hmem : named ∈ effectiveEfforts profile
      · simp only [quantizeEffort, hempty, hname, hmem, if_true, if_false, Option.some.injEq] at h
        exact h ▸ hmem
      · rcases hranked : ((o.list (effectiveEfforts profile)).filter (· ≠ .max)).insertionSort
          (Effort.Closer named.scale) with _ | ⟨first, rest⟩
        · simp only [quantizeEffort, hempty, hname, hmem, hranked, if_false] at h
          exact absurd h (by simp)
        · have hfirst : first ∈ ((o.list (effectiveEfforts profile)).filter (· ≠ .max)) :=
            (List.mem_insertionSort _).mp (hranked ▸ List.mem_cons_self)
          simp only [quantizeEffort, hempty, hname, hmem, hranked, if_false] at h
          split_ifs at h
          · rcases Option.some.inj h with rfl
            exact (o.mem_iff _ _).mp (List.mem_filter.mp hfirst).1
  · simp [quantizeEffort, hempty] at h

namespace Template

variable (t : Template)

/-! ### The tie -/

/-- Nothing is rejected, something diverges, and `xhigh` and `max` both render like the
baseline. -/
def Tie : Prop :=
  (∀ level, ¬ t.Rejects level) ∧ (∃ level, t.Diverges level) ∧
    ¬ t.Diverges .xhigh ∧ ¬ t.Diverges .max

/-- The prompt moves with the spelling `reasoning_strength`. -/
def ReadsStrength : Prop :=
  ∃ baseline moved, t.render [] none = .ok baseline ∧
    t.render [("reasoning_strength", .str "low")] none = .ok moved ∧
    t.differ moved baseline = true

/-- What a client's value becomes is a level that each round accepted. -/
def OnlyAccepted (value : ClientValue) : Prop :=
  ∀ o q level, quantizeEffort q value (t.probeEffortProfile o) = some level → t.Accepts level

/-- Any two processes make the same of a client's value. -/
def SameEverywhere (value : ClientValue) : Prop :=
  ∀ o q o' q', quantizeEffort q value (t.probeEffortProfile o) =
    quantizeEffort q' value (t.probeEffortProfile o')

variable {t}

theorem strengthDialect_iff : t.strengthDialect = true ↔ t.ReadsStrength := by
  rcases hbaseline : t.render [] none with raised | baseline
  · simp [strengthDialect, ReadsStrength, hbaseline]
  · rcases hmoved : t.render [("reasoning_strength", .str "low")] none with raised | moved
    · simp [strengthDialect, ReadsStrength, hbaseline, hmoved]
    · simp [strengthDialect, ReadsStrength, hbaseline, hmoved]

theorem rejected_eq_empty : t.probed.rejected = ∅ ↔ ∀ level, ¬ t.Rejects level := by
  simp only [Finset.eq_empty_iff_forall_notMem, mem_rejected]

theorem diverged_eq_empty : t.probed.diverged = ∅ ↔ ∀ level, ¬ t.Diverges level := by
  simp only [Finset.eq_empty_iff_forall_notMem, mem_diverged]

theorem default_mem {o : SetOrder} {level : Effort}
    (h : (t.probeEffortProfile o).default = some level) :
    level ∈ (t.probeEffortProfile o).supported := by
  by_cases hran : t.probed.ranRounds = 0
  · simp [probeEffortProfile, hran] at h
  · simp only [probeEffortProfile, hran, if_false] at h ⊢
    split_ifs at h
    exact (o.mem_iff _ _).mp (List.mem_filter.mp (List.argmax_mem h)).1

/-- What is served was not rejected. -/
theorem not_rejects_of_effective {o : SetOrder} {level : Effort}
    (h : level ∈ effectiveEfforts (t.probeEffortProfile o)) : ¬ t.Rejects level := by
  have hsupported : level ∈ (t.probeEffortProfile o).supported :=
    effectiveEfforts_subset (fun d hd => default_mem hd) h
  by_cases hran : t.probed.ranRounds = 0
  · simp [probeEffortProfile, hran] at hsupported
  · simpa [probeEffortProfile, hran, mem_rejected] using hsupported

/-- Without a tie the probed vocabulary is the same in every process. -/
theorem effectiveEfforts_eq (h : ¬ t.Tie) (o o' : SetOrder) :
    effectiveEfforts (t.probeEffortProfile o) = effectiveEfforts (t.probeEffortProfile o') := by
  by_cases hran : t.probed.ranRounds = 0
  · simp [probeEffortProfile, hran]
  by_cases hrejected : t.probed.rejected = ∅
  · by_cases hdiverged : t.probed.diverged = ∅
    · simp [probeEffortProfile, hran, hrejected, hdiverged]
    · -- only the default is picked in the order of the set
      have hdefault : ((o.list (Finset.univ \ t.probed.rejected)).filter
            t.probed.matchesBaseline).argmax Effort.scale =
          ((o'.list (Finset.univ \ t.probed.rejected)).filter
            t.probed.matchesBaseline).argmax Effort.scale := by
        refine Effort.argmax_scale_congr (fun a => by simp [o.mem_iff, o'.mem_iff]) ?_
        rintro ⟨hxhigh, hmax⟩
        have hxhigh' := (matchesBaseline_iff _).mp (List.mem_filter.mp hxhigh).2
        have hmax' := (matchesBaseline_iff _).mp (List.mem_filter.mp hmax).2
        refine h ⟨rejected_eq_empty.mp hrejected, ?_, hxhigh'.2, hmax'.2⟩
        by_contra hnone
        exact hdiverged (diverged_eq_empty.mpr (not_exists.mp hnone))
      simp only [probeEffortProfile, hran, hdefault]
  · simp [effectiveEfforts, probeEffortProfile, hran, hrejected]

/-- The profile of a template with a tie. -/
def graded (strength : Bool) (default : Effort) : EffortProfile where
  supported := Finset.univ
  default := some default
  consumesEffort := true
  strengthDialect := strength

/-- In a tie the profile is that of a grader, and its default is the first of the greatest levels
that match the baseline. -/
theorem tie_probe (h : t.Tie) (o : SetOrder) : ∃ hit : Effort → Bool,
    hit .xhigh = true ∧ hit .max = true ∧ ∀ default,
      ((o.list Finset.univ).filter hit).argmax Effort.scale = some default →
        t.probeEffortProfile o = graded t.strengthDialect default := by
  rcases h with ⟨hnone, ⟨level, hlevel⟩, hxhigh, hmax⟩
  have hrejected : t.probed.rejected = ∅ := rejected_eq_empty.mpr hnone
  have hdiverged : t.probed.diverged ≠ ∅ := fun hempty => diverged_eq_empty.mp hempty level hlevel
  have hran : t.probed.ranRounds ≠ 0 := by
    intro hzero
    rcases hlevel with ⟨round, hround, baseline, rendering, hbaseline, -⟩
    exact (le_ranRounds probeRounds {}).2 hzero round hround baseline hbaseline
  refine ⟨t.probed.matchesBaseline, (matchesBaseline_iff _).mpr ⟨hnone _, hxhigh⟩,
    (matchesBaseline_iff _).mpr ⟨hnone _, hmax⟩, fun default hdefault => ?_⟩
  simp [probeEffortProfile, hran, hrejected, hdiverged, hdefault, graded]

theorem tie_profile (h : t.Tie) (o : SetOrder) : ∃ default, (default = .xhigh ∨ default = .max) ∧
    t.probeEffortProfile o = graded t.strengthDialect default := by
  rcases t.tie_probe h o with ⟨hit, hxhigh, hmax, hprofile⟩
  have hmem : Effort.xhigh ∈ (o.list Finset.univ).filter hit := by simp [o.mem_iff, hxhigh]
  rcases hdefault : ((o.list Finset.univ).filter hit).argmax Effort.scale with _ | default
  · simp [List.argmax_eq_none.mp hdefault] at hmem
  · have hle : Effort.scale .xhigh ≤ default.scale := List.le_of_mem_argmax hmem hdefault
    refine ⟨default, ?_, hprofile default hdefault⟩
    revert hle
    cases default <;> decide

theorem tie_upwards (h : t.Tie) :
    t.probeEffortProfile .upwards = graded t.strengthDialect .xhigh := by
  rcases t.tie_probe h .upwards with ⟨hit, hxhigh, hmax, hprofile⟩
  exact hprofile _ (SetOrder.argmax_upwards hit hxhigh hmax)

theorem tie_downwards (h : t.Tie) :
    t.probeEffortProfile .downwards = graded t.strengthDialect .max := by
  rcases t.tie_probe h .downwards with ⟨hit, hxhigh, hmax, hprofile⟩
  exact hprofile _ (SetOrder.argmax_downwards hit hxhigh hmax)

/-- Only `max`, and where the ladder lacks it `xhigh`, is quantized by the default. -/
theorem quantize_graded (strength : Bool) (level : Effort) :
    quantizeEffort .upwards (.str level.name) (graded strength .xhigh) =
      quantizeEffort .upwards (.str level.name) (graded strength .max) ↔
    ¬ (level = .max ∨ level = .xhigh ∧ strength = false) := by
  cases strength <;> cases level <;> decide +kernel

theorem onlyAccepted (t : Template) (value : ClientValue) : t.OnlyAccepted value :=
  fun _ _ _ h => accepts_of_not_rejects (not_rejects_of_effective (quantizeEffort_mem h))

/-- In a tie all processes agree on a value exactly when the two defaults do. -/
theorem tie_sameEverywhere (h : t.Tie) (value : ClientValue) : t.SameEverywhere value ↔
    quantizeEffort .upwards value (graded t.strengthDialect .xhigh) =
      quantizeEffort .upwards value (graded t.strengthDialect .max) := by
  constructor
  · intro hsame
    rw [← tie_upwards h, ← tie_downwards h]
    exact hsame .upwards .upwards .downwards .upwards
  · intro heq
    have hone : ∀ o q, quantizeEffort q value (t.probeEffortProfile o) =
        quantizeEffort .upwards value (graded t.strengthDialect .max) := fun o q => by
      rcases tie_profile h o with ⟨default, rfl | rfl, hprofile⟩
      · rw [hprofile, quantizeEffort_order q .upwards, heq]
      · rw [hprofile, quantizeEffort_order q .upwards]
    exact fun o q o' q' => (hone o q).trans (hone o' q').symm

/-- A client's value is quantized to an accepted level, and alike in every process, exactly when
the template has no tie between `xhigh` and `max` that the value depends on. -/
theorem quantized_alike_iff (t : Template) (value : ClientValue) :
    (t.OnlyAccepted value ∧ t.SameEverywhere value) ↔
      ¬ (t.Tie ∧ (value = .str "max" ∨ value = .str "xhigh" ∧ ¬ t.ReadsStrength)) := by
  rw [and_iff_right (t.onlyAccepted value)]
  by_cases htie : t.Tie
  · rw [and_iff_right htie, tie_sameEverywhere htie, ← strengthDialect_iff, Bool.not_eq_true]
    rcases value with s | _
    · rcases hname : Effort.ofName? s with _ | level
      · have hother : ∀ level : Effort, s ≠ level.name := by
          rintro level rfl
          revert level
          decide
        have hxhigh := hother .xhigh
        have hmax := hother .max
        simp only [Effort.name] at hxhigh hmax
        simp [quantizeEffort, hname, hxhigh, hmax]
      · have hs : level.name = s := by simpa using List.find?_some hname
        rw [← hs, quantize_graded]
        cases level <;> simp [Effort.name]
    · simp [quantizeEffort]
  · simp only [htie, false_and, not_false_eq_true, iff_true]
    intro o q o' q'
    rw [quantizeEffort_order q q', quantizeEffort_congr (effectiveEfforts_eq htie o o')]

/-- A template that grades the levels of the triple and ignores the others. -/
def tripleGrader : Template where
  Rendering := String
  Raised := Empty
  render := fun kwargs _ =>
    .ok <| match kwargs.lookup "reasoning_effort" with
      | some (.str level) => if level ∈ ["low", "medium", "high"] then level else ""
      | _ => ""
  differ := fun a b => a != b

/-- One process serves `max` as `xhigh`, another one as `max`. -/
theorem tripleGrader_max_differs :
    quantizeEffort .upwards (.str "max") (tripleGrader.probeEffortProfile .upwards) =
      some .xhigh ∧
    quantizeEffort .downwards (.str "max") (tripleGrader.probeEffortProfile .downwards) =
      some .max ∧
    ¬ tripleGrader.SameEverywhere (.str "max") := by
  have hxhigh : quantizeEffort .upwards (.str "max") (tripleGrader.probeEffortProfile .upwards) =
      some .xhigh := by decide +kernel
  have hmax : quantizeEffort .downwards (.str "max") (tripleGrader.probeEffortProfile .downwards) =
      some .max := by decide +kernel
  refine ⟨hxhigh, hmax, fun hsame => ?_⟩
  have heq := hsame .upwards .upwards .downwards .downwards
  rw [hxhigh, hmax] at heq
  cases heq

end Template

end FreeToken
