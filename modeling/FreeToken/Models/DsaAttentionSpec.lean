import FreeToken.Models.DsaAttention
import FreeToken.Engine.RowStates
import FreeToken.Lib.Except
import Mathlib.Data.List.Forall2

/-!
# The best causal keys

In every step of every run the history of a request ends with its slice, so a query masks what is
after it and picks among all keys up to its own position. A shared layer attends to what the nearest
full layer before it does.
-/

namespace FreeToken

open TopK

variable {H K : Type} [LinearOrder K]

/-! ### One query -/

/-- A query attends to the `index_topk` causal keys of highest score, or to all when there are fewer. -/
structure TopCausal (scores : Nat → K) (indexTopk position : Nat) (attended : Finset Nat) : Prop where
  card_eq : attended.card = min indexTopk (position + 1)
  causal : ∀ j ∈ attended, j ≤ position
  highest : ∀ i ∈ attended, ∀ j ≤ position, j ∉ attended → scores j ≤ scores i
  nonempty : attended.Nonempty
  dense : position + 1 ≤ indexTopk → ∀ j ≤ position, j ∈ attended

theorem kept_causal {written position : Nat} (h : position < written) :
    kept written (fun j => j ≤ position) = Finset.range (position + 1) := by
  ext j
  rw [mem_kept, decide_eq_true_eq, Finset.mem_range]
  omega

/-- The picks over a history are masked twice, before they are made and after. -/
theorem topCausal_picks (T : TopK (WithBot K)) (scores : Nat → K) {indexTopk written position : Nat}
    (hposition : position < written) (htopk : 1 ≤ indexTopk) :
    TopCausal scores indexTopk position ((Finset.range written).filter fun j => j ≤ position ∧
      j ∈ T.pick written (masked (fun j => j ≤ position) scores) (min indexTopk written)) := by
  let picks := T.pick written (masked (fun j => j ≤ position) scores) (min indexTopk written)
  have hle : min indexTopk written ≤ written := Nat.min_le_right _ _
  have hset : ((Finset.range written).filter fun j => j ≤ position ∧ j ∈ picks) =
      (kept written fun j => j ≤ position).filter fun j => j ∈ picks := by
    ext j
    simp only [Finset.mem_filter, mem_kept, Finset.mem_range, decide_eq_true_eq, and_assoc]
  have hmem : ∀ {j}, j ∈ (kept written fun j => j ≤ position).filter (fun j => j ∈ picks) ↔
      j ≤ position ∧ j ∈ picks := by
    intro j
    rw [Finset.mem_filter, kept_causal hposition, Finset.mem_range, Nat.lt_succ_iff]
  have hcard : ((kept written fun j => j ≤ position).filter fun j => j ∈ picks).card =
      min indexTopk (position + 1) := by
    rw [T.card_kept_pick hle, kept_causal hposition, Finset.card_range, Nat.min_assoc,
      Nat.min_eq_right hposition]
  rw [hset]
  refine ⟨hcard, fun j hj => (hmem.mp hj).1, ?_, ?_, ?_⟩
  · intro i hi j hj hnot
    obtain ⟨hicausal, hipick⟩ := hmem.mp hi
    have hjkept : j ∈ kept written fun j => j ≤ position := by
      rw [kept_causal hposition]
      exact Finset.mem_range.mpr (Nat.lt_succ_of_le hj)
    exact T.le_of_mem_pick_masked hle hipick (decide_eq_true hicausal) hjkept
      fun hjpick => hnot (hmem.mpr ⟨hj, hjpick⟩)
  · rw [← Finset.card_pos, hcard]
    exact Nat.lt_min.mpr ⟨htopk, Nat.succ_pos _⟩
  · intro hdense j hj
    have hall : (kept written fun j => j ≤ position).filter (fun j => j ∈ picks) =
        kept written fun j => j ≤ position := by
      refine Finset.eq_of_subset_of_card_le (Finset.filter_subset _ _) ?_
      rw [hcard, kept_causal hposition, Finset.card_range, Nat.min_eq_right hdense]
    rw [hall, kept_causal hposition]
    exact Finset.mem_range.mpr (Nat.lt_succ_of_le hj)

/-! ### The queries of a slice -/

/-- Every query of a slice attends to its best causal keys. -/
def AttendsTop (indexTopk : Nat) (indexScores : Nat → Nat → K) (positions : List Nat)
    (attended : List (Finset Nat)) : Prop :=
  List.Forall₂ (fun query keys => TopCausal (indexScores query.2) indexTopk query.1 keys)
    positions.zipIdx attended

/-- The keys that picks leave to each query. -/
def attendedBy (written : Nat) (positions : List Nat) (topkIdx : List (List Nat)) :
    List (Finset Nat) :=
  positions.zipIdx.map fun (position, t) =>
    (Finset.range written).filter fun j => j ≤ position ∧ j ∈ topkIdx.getD t []

/-- The picks are positions of the history. -/
def InHistory (written : Nat) (topkIdx : List (List Nat)) : Prop :=
  ∀ picks ∈ topkIdx, ∀ j ∈ picks, j < written

theorem scatterMask_ok {written : Nat} {topkIdx : List (List Nat)} (h : InHistory written topkIdx)
    (positions : List Nat) : ∃ indexMask, scatterMask written topkIdx = .ok indexMask ∧
      allowed written positions (some indexMask) = attendedBy written positions topkIdx := by
  refine ⟨_, if_pos h, ?_⟩
  refine List.map_congr_left fun query _ => Finset.filter_congr fun j hj => ?_
  have hlt := Finset.mem_range.mp hj
  rw [Option.all_some, Bool.and_eq_true, decide_eq_true_eq]
  refine and_congr_right fun _ => ?_
  rcases Nat.lt_or_ge query.2 topkIdx.length with ht | ht
  · simp [ht, hlt]
  · simp [ht]

theorem inHistory_dsaTopk (T : TopK (WithBot K)) (indexTopk written : Nat)
    (indexScores : Nat → Nat → K) (positions : List Nat) :
    InHistory written (dsaTopk T indexTopk written indexScores positions) := by
  intro picks hpicks j hj
  obtain ⟨query, -, rfl⟩ := List.mem_map.mp hpicks
  exact T.lt_of_mem (Nat.min_le_right _ _) j hj

theorem attendsTop_dsaTopk (T : TopK (WithBot K)) {indexTopk written : Nat} (htopk : 1 ≤ indexTopk)
    (indexScores : Nat → Nat → K) {positions : List Nat} (hpositions : ∀ p ∈ positions, p < written) :
    AttendsTop indexTopk indexScores positions
      (attendedBy written positions (dsaTopk T indexTopk written indexScores positions)) := by
  refine List.forall₂_map_right_iff.mpr (List.forall₂_same.mpr fun query hquery => ?_)
  have hget : positions[query.2]? = some query.1 := List.mem_zipIdx_iff_getElem?.mp hquery
  have hpicks : (dsaTopk T indexTopk written indexScores positions).getD query.2 [] =
      T.pick written (masked (fun j => j ≤ query.1) (indexScores query.2)) (min indexTopk written) := by
    simp [dsaTopk, hget]
  simp only [hpicks]
  exact topCausal_picks T _ (hpositions _ (List.mem_of_getElem? hget)) htopk

/-! ### The layers of `glm_moe_dsa` -/

section Layers

variable {T : TopK (WithBot K)} {indexTopk written : Nat} {batch : Batch} {s : Slice}

/-- Layer `k` is the last full one up to layer `i`. -/
structure NearestFull (layers : List (DsaLayer H K)) (k i : Nat) : Prop where
  le : k ≤ i
  full : ∃ layer, layers[k]? = some layer ∧ layer.skipTopk = false
  shared : ∀ l, k < l → l ≤ i → ∀ layer, layers[l]? = some layer → layer.skipTopk = true

theorem readPos_natCast (n : Nat) : readPos n = .ok n := by
  rw [readPos, if_neg (by omega), Int.toNat_natCast]

/-- A layer that has picks, its own or those handed on. -/
theorem DsaLayer.forward_ok (hwritten : reqWrittenLen batch s.tableIdx = .ok (written : Int))
    (htopk : 1 ≤ indexTopk) (layer : DsaLayer H K) (hidden : H) {prev : Option (List (List Nat))}
    {topkIdx : List (List Nat)} (hin : InHistory written topkIdx)
    (hpicks : if layer.skipTopk then prev = some topkIdx
      else topkIdx = dsaTopk T indexTopk written (layer.indexScores hidden) s.positions) :
    layer.forward T indexTopk batch s hidden prev =
      .ok (attendedBy written s.positions topkIdx, some topkIdx) := by
  obtain ⟨indexMask, hmask, hallowed⟩ := scatterMask_ok hin s.positions
  have hne : indexTopk ≠ 0 := by omega
  rw [← hallowed]
  cases hskip : layer.skipTopk with
  | true =>
      rw [hskip, if_pos rfl] at hpicks
      simp [DsaLayer.forward, hwritten, readPos_natCast, hne, hskip, hpicks, hmask, bind, Except.bind,
        pure, Except.pure]
  | false =>
      rw [hskip, if_neg Bool.false_ne_true] at hpicks
      simp [DsaLayer.forward, hwritten, readPos_natCast, hne, hskip, ← hpicks, hmask, bind, Except.bind,
        pure, Except.pure]

omit [LinearOrder K] in
theorem NearestFull.succ {layers : List (DsaLayer H K)} {k i : Nat} (h : NearestFull layers k i)
    (layer : DsaLayer H K) : NearestFull (layer :: layers) (k + 1) (i + 1) where
  le := Nat.succ_le_succ h.le
  full := h.full
  shared := by
    intro l hkl hli
    cases l with
    | zero => omega
    | succ l => exact h.shared l (Nat.lt_of_succ_lt_succ hkl) (Nat.le_of_succ_le_succ hli)

/-- What layer `i` of a run attends to comes from the last full layer. -/
def FromFull (T : TopK (WithBot K)) (indexTopk written : Nat) (positions : List Nat)
    (layers : List (DsaLayer H K)) (reports : List (H × List (Finset Nat))) (i : Nat)
    (attended : List (Finset Nat)) : Prop :=
  ∃ k layer hidden, NearestFull layers k i ∧ layers[k]? = some layer ∧
    reports[k]? = some (hidden, attended) ∧
    attended = attendedBy written positions
      (dsaTopk T indexTopk written (layer.indexScores hidden) positions)

/-- What layer `i` of a run attends to was handed to the run. -/
def FromBefore (written : Nat) (positions : List Nat) (prev : Option (List (List Nat)))
    (layers : List (DsaLayer H K)) (i : Nat) (attended : List (Finset Nat)) : Prop :=
  (∀ l ≤ i, ∀ layer, layers[l]? = some layer → layer.skipTopk = true) ∧
    ∃ topkIdx, prev = some topkIdx ∧ attended = attendedBy written positions topkIdx

/-- A run of layers comes back unless its first layer is shared and gets no picks. By induction on
the layers: what one hands on is its own picks when it is full, and those it got otherwise. -/
theorem glmMoeDsaLayers_ok (hwritten : reqWrittenLen batch s.tableIdx = .ok (written : Int))
    (htopk : 1 ≤ indexTopk) : ∀ (layers : List (DsaLayer H K)) (hidden : H)
    (prev : Option (List (List Nat))), (∀ topkIdx, prev = some topkIdx → InHistory written topkIdx) →
    (prev = none → ∀ layer ∈ layers.head?, layer.skipTopk = false) →
    ∃ reports, glmMoeDsaLayers T indexTopk batch s layers hidden prev = .ok reports ∧
      reports.length = layers.length ∧
      ∀ i hidden' attended, reports[i]? = some (hidden', attended) →
        FromFull T indexTopk written s.positions layers reports i attended ∨
          FromBefore written s.positions prev layers i attended
  | [], _, _, _, _ => ⟨[], rfl, rfl, fun i _ _ h => by simp at h⟩
  | layer :: layers, hidden, prev, hprev, hfirst => by
      obtain ⟨topkIdx, hin, hpicks⟩ : ∃ topkIdx, InHistory written topkIdx ∧
          (if layer.skipTopk then prev = some topkIdx
            else topkIdx = dsaTopk T indexTopk written (layer.indexScores hidden) s.positions) := by
        cases hskip : layer.skipTopk with
        | false => exact ⟨_, inHistory_dsaTopk T indexTopk written _ _, rfl⟩
        | true =>
            cases prev with
            | none => exact absurd (hfirst rfl layer rfl) (by simp [hskip])
            | some topkIdx => exact ⟨topkIdx, hprev topkIdx rfl, rfl⟩
      have hlayer := layer.forward_ok (T := T) hwritten htopk hidden hin hpicks
      obtain ⟨reports, hrun, hlen, hreports⟩ := glmMoeDsaLayers_ok hwritten htopk layers
        (layer.output hidden (attendedBy written s.positions topkIdx)) (some topkIdx)
        (fun _ heq => by cases heq; exact hin)
        fun hnone => by cases hnone
      refine ⟨(hidden, attendedBy written s.positions topkIdx) :: reports, ?_, ?_, ?_⟩
      · rw [glmMoeDsaLayers, hlayer]
        simp only [bind, Except.bind, hrun, pure, Except.pure]
      · rw [List.length_cons, List.length_cons, hlen]
      -- what this layer hands on, as seen from a layer up to which all others are shared
      have hown : ∀ i, (∀ l < i, ∀ layer', layers[l]? = some layer' → layer'.skipTopk = true) →
          FromFull T indexTopk written s.positions (layer :: layers)
              ((hidden, attendedBy written s.positions topkIdx) :: reports) i
              (attendedBy written s.positions topkIdx) ∨
            FromBefore written s.positions prev (layer :: layers) i
              (attendedBy written s.positions topkIdx) := by
        intro i hshared
        have hbetween : ∀ l, 0 < l → l ≤ i → ∀ layer', (layer :: layers)[l]? = some layer' →
            layer'.skipTopk = true := by
          intro l hpos hle
          obtain ⟨l, rfl⟩ := Nat.exists_eq_succ_of_ne_zero (Nat.ne_of_gt hpos)
          exact hshared l hle
        cases hskip : layer.skipTopk with
        | false =>
            rw [hskip, if_neg Bool.false_ne_true] at hpicks
            exact .inl ⟨0, layer, hidden, ⟨Nat.zero_le _, ⟨layer, rfl, hskip⟩, hbetween⟩, rfl, rfl,
              hpicks ▸ rfl⟩
        | true =>
            rw [hskip, if_pos rfl] at hpicks
            refine .inr ⟨fun l hle layer' hget => ?_, topkIdx, hpicks, rfl⟩
            rcases Nat.eq_zero_or_pos l with rfl | hpos
            · cases hget
              exact hskip
            · exact hbetween l hpos hle layer' hget
      intro i hidden' attended hreport
      cases i with
      | zero =>
          cases hreport
          exact hown 0 fun l hl => by omega
      | succ i =>
          rcases hreports i hidden' attended hreport with
            ⟨k, full, hiddenk, hnear, hfull, hreportk, heq⟩ | ⟨hshared, topkIdx', hsome, rfl⟩
          · exact .inl ⟨k + 1, full, hiddenk, hnear.succ layer, hfull, hreportk, heq⟩
          · cases hsome
            exact hown (i + 1) fun l hl => hshared l (Nat.le_of_lt_succ hl)

/-- A model whose first layer is shared raises. -/
theorem glmMoeDsaForward_malformed (hwritten : reqWrittenLen batch s.tableIdx = .ok (written : Int))
    (htopk : 1 ≤ indexTopk) {layer : DsaLayer H K} (hskip : layer.skipTopk = true)
    (layers : List (DsaLayer H K)) (hidden : H) :
    glmMoeDsaForward T indexTopk batch s (layer :: layers) hidden =
      .error (noPrevTopk layer.layerId) := by
  have hne : indexTopk ≠ 0 := by omega
  simp [glmMoeDsaForward, glmMoeDsaLayers, DsaLayer.forward, hwritten, readPos_natCast, hne, hskip, bind,
    Except.bind]

end Layers

/-! ### In a run -/

namespace Engine

variable {e e' : Engine} {t : Transcript} {sampled : Nat → Token} {out : StepOutput} {s1 : Scheduler}
  {e2 : Engine}

/-- The history of a request ends with its slice, prefilled or decoded. -/
theorem StepRun.reqWrittenLen_eq (h : StepRun e sampled out e' s1 e2) (hs : e.scheduler.Ok)
    (hr : Recorded e t) {s : Slice} (hmem : s ∈ out.slices) :
    reqWrittenLen out.batch s.tableIdx = .ok ((s.start + s.tokens.length : Nat) : Int) := by
  obtain ⟨x, hx, hslice⟩ := h.exists_round hmem
  obtain ⟨y, -, s', -, hslice', hadv, -⟩ := h.advanced hs hr hx
  cases hslice.symm.trans hslice'
  have hdone : s.start + s.tokens.length = x.2.deviceLen := by
    have hlt := hadv.done_lt
    rw [hadv.length_tokens, hadv.start_eq]
    exact Nat.add_sub_cancel' (Nat.le_of_lt hlt)
  have hrow : s.tableIdx = x.2.tableIdx := by
    rw [hadv.row_eq, ← hadv.seat_eq]
    rfl
  have hfind : (out.batch.reqs.find? fun req => req.tableIdx = x.2.tableIdx) = some x.2 := by
    exact find?_of_nodup (h.stepped hs).rows_nodup x.2 (h.mem_batch hx)
  have hextend : x.2.cachedLen + x.2.extendLen = x.2.deviceLen := by
    rw [Req.extendLen]
    omega
  rw [reqWrittenLen, hrow, hfind, hdone]
  cases hphase : out.batch.phase with
  | prefill => simp [hextend]
  | decode => simp

/-- In every step of every run, each query of either model attends to its best causal keys, and a
shared layer of `glm_moe_dsa` to what the nearest full layer before it does. -/
theorem dsa_topCausal {config : EngineConfig} {calls : List Call} (hrun : runs config calls = some e)
    (hstep : e.step sampled = .ok (out, e')) {s : Slice} (hs : s ∈ out.slices) (T : TopK (WithBot K))
    {indexTopk : Nat} (htopk : 1 ≤ indexTopk) :
    (∀ indexScores : Nat → Nat → K, ∃ attended,
      deepseekV4Attends T indexTopk indexScores out.batch s = .ok attended ∧
        AttendsTop indexTopk indexScores s.positions attended) ∧
    ∀ (layers : List (DsaLayer H K)) (hidden : H), (∀ layer ∈ layers.head?, layer.skipTopk = false) →
      ∃ reports, glmMoeDsaForward T indexTopk out.batch s layers hidden = .ok reports ∧
        reports.length = layers.length ∧
        ∀ i hidden' attended, reports[i]? = some (hidden', attended) →
          ∃ k layer hiddenk, NearestFull layers k i ∧ layers[k]? = some layer ∧
            reports[k]? = some (hiddenk, attended) ∧
            AttendsTop indexTopk (layer.indexScores hiddenk) s.positions attended := by
  obtain ⟨t, orphans, hb⟩ := books_of_runs hrun
  rcases step_cases hstep with ⟨-, rfl, -⟩ | ⟨s1, e2, hrun⟩
  · cases hs
  have hwritten := hrun.reqWrittenLen_eq hb.sched hb.recorded hs
  have hpositions : ∀ p ∈ s.positions, p < s.start + s.tokens.length := fun p hp =>
    (List.mem_range'_1.mp hp).2
  constructor
  · intro indexScores
    have hin := inHistory_dsaTopk T indexTopk (s.start + s.tokens.length) indexScores s.positions
    obtain ⟨indexMask, hmask, hallowed⟩ := scatterMask_ok hin s.positions
    have hne : indexTopk ≠ 0 := by omega
    refine ⟨_, ?_, attendsTop_dsaTopk T htopk indexScores hpositions⟩
    rw [← hallowed]
    simp only [deepseekV4Attends, hwritten, readPos_natCast, bind, Except.bind, if_neg hne, hmask, pure,
      Except.pure]
  · intro layers hidden hfirst
    obtain ⟨reports, hok, hlen, hreports⟩ := glmMoeDsaLayers_ok (T := T) hwritten htopk layers hidden none
      (fun _ hnone => by cases hnone) fun _ => hfirst
    refine ⟨reports, hok, hlen, fun i hidden' attended hreport => ?_⟩
    rcases hreports i hidden' attended hreport with
      ⟨k, layer, hiddenk, hnear, hlayer, hreportk, rfl⟩ | ⟨-, topkIdx, hnone, -⟩
    · exact ⟨k, layer, hiddenk, hnear, hlayer, hreportk,
        attendsTop_dsaTopk T htopk _ hpositions⟩
    · cases hnone

/-- A full layer and a shared one; later keys have higher scores. -/
def fullThenShared : List (DsaLayer Unit Int) :=
  [{ layerId := 0, skipTopk := false, indexScores := fun _ _ j => j, output := fun h _ => h },
    { layerId := 1, skipTopk := true, indexScores := fun _ _ j => j, output := fun h _ => h }]

/-- The prefill of three tokens: both layers attend to the same two keys of each query at most. -/
theorem threeTokens_topCausal : ∃ e e' out s, runs singleRow [.addRequest
      { uid := 0, inputIds := [7, 8, 9], samplingParams := { maxTokens := 1 } }] = some e ∧
    e.step (fun _ => 5) = .ok (out, e') ∧ out.slices = [s] ∧ s.positions = [0, 1, 2] ∧
    ∃ attended, glmMoeDsaForward (TopK.ofSort (WithBot Int)) 2 out.batch s fullThenShared () =
        .ok [((), attended), ((), attended)] ∧
      AttendsTop 2 (fun _ j => (j : Int)) [0, 1, 2] attended := by
  have hstep : ((runs singleRow [.addRequest
      { uid := 0, inputIds := [7, 8, 9], samplingParams := { maxTokens := 1 } }]).bind fun e =>
        (e.step fun _ => 5).toOption.map fun r => r.1.slices) = some [⟨0, 0, [7, 8, 9]⟩] := by
    decide +kernel
  obtain ⟨e, hrun, hmap⟩ := Option.bind_eq_some_iff.mp hstep
  obtain ⟨⟨out, e'⟩, hopt, hslices⟩ := Option.map_eq_some_iff.mp hmap
  have hok := toOption_eq_some.mp hopt
  obtain ⟨reports, hforward, hlen, hreports⟩ := (dsa_topCausal hrun hok
    (hslices ▸ List.mem_singleton_self _) (TopK.ofSort (WithBot Int)) (Nat.le_succ 1)).2 fullThenShared ()
    (fun layer hlayer => by cases hlayer; rfl)
  have hsame : ∀ (i : Nat) (hidden : Unit) attended, reports[i]? = some (hidden, attended) →
      reports[0]? = some ((), attended) ∧ AttendsTop 2 (fun _ j => (j : Int)) [0, 1, 2] attended := by
    intro i hidden attended hreport
    obtain ⟨k, layer, hiddenk, hnear, hlayer, hreportk, htop⟩ := hreports i hidden attended hreport
    obtain ⟨full, hfull, hskip⟩ := hnear.full
    have hlt : k < 2 := Nat.lt_of_lt_of_eq (List.getElem?_eq_some_iff.mp hreportk).1 hlen
    rcases Nat.eq_zero_or_pos k with rfl | hpos
    · cases hlayer
      exact ⟨hreportk, htop⟩
    · obtain rfl : k = 1 := by omega
      cases hfull
      cases hskip
  obtain ⟨⟨h0, a0⟩, ⟨h1, a1⟩, rfl⟩ := List.length_eq_two.mp hlen
  obtain ⟨heq, htop⟩ := hsame 1 h1 a1 rfl
  cases heq
  exact ⟨e, e', out, _, hrun, hok, hslices, rfl, a0, hforward, htop⟩

end Engine

end FreeToken
