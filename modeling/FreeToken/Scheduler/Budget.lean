import Mathlib.Algebra.Order.BigOperators.Group.List
import FreeToken.Scheduler.Admission

/-!
# The cache budget

A fresh prompt is admitted when its footprint fits beside what the running requests
still hold. A continuation's own footprint is not counted again in the pass that resumes
it, so the fresh prompts that share a batch with a last chunk are admitted against a
budget that the chunk's request has already spent.
-/

namespace FreeToken

/-- What a request will still be given, once it runs. -/
def heldByRunning (running : List Req) : Int := (running.map Req.remainLen).sum

/-- The footprints of the entries that `sel` selects. -/
def heldByQueued (sel : PendingReq → Bool) (queue : List PendingReq) : Int :=
  ((queue.filter sel).map PendingReq.footprint).sum

theorem heldByQueued_cons (sel : PendingReq → Bool) (p : PendingReq) (ps : List PendingReq) :
    heldByQueued sel (p :: ps) = (if sel p then p.footprint else 0) + heldByQueued sel ps := by
  unfold heldByQueued
  by_cases h : sel p
  · rw [List.filter_cons_of_pos h, if_pos h, List.map_cons, List.sum_cons]
  · rw [List.filter_cons_of_neg h, if_neg h, Int.zero_add]

theorem heldByQueued_congr {sel sel' : PendingReq → Bool} {queue : List PendingReq}
    (h : ∀ p ∈ queue, sel p = sel' p) : heldByQueued sel queue = heldByQueued sel' queue := by
  unfold heldByQueued
  rw [List.filter_congr h]

theorem heldByQueued_none {sel : PendingReq → Bool} {queue : List PendingReq}
    (h : ∀ p ∈ queue, sel p = false) : heldByQueued sel queue = 0 := by
  unfold heldByQueued
  rw [List.filter_eq_nil_iff.mpr fun p hp => by simp [h p hp]]
  rfl

/-- The footprints of the fresh prompts, taken in order, that fit into what is left of
the step's tokens and of the budget. -/
def heldBeside (cacheBudget : Nat) : Int → Int → List PendingReq → Int
  | _, _, [] => 0
  | tokens, reserved, p :: ps =>
      if 0 < tokens ∧ p.rest ≤ tokens ∧ reserved + p.footprint ≤ cacheBudget then
        p.footprint + heldBeside cacheBudget (tokens - p.rest) (reserved + p.footprint) ps
      else heldBeside cacheBudget tokens reserved ps

theorem heldBeside_spent (cacheBudget : Nat) : ∀ (queue : List PendingReq) {tokens : Int}
    (reserved : Int), tokens ≤ 0 → heldBeside cacheBudget tokens reserved queue = 0
  | [], _, _, _ => rfl
  | _ :: ps, tokens, reserved, h => by
      rw [heldBeside, if_neg (by omega)]
      exact heldBeside_spent cacheBudget ps reserved h

namespace Scheduler

variable {s s' : Scheduler}

/-- The tokens promised to the running requests, the chunk in progress and the requests
of the batch. -/
def committed (s : Scheduler) (batch : Batch) : Int :=
  heldByRunning s.runningReqs +
    heldByQueued (fun p => p.midChunk ∨ p.tableIdx ∈ batch.reqs.map Req.tableIdx) s.pendingList

/-- The chunk at the head of the queue still fits the budget beside the running requests
and the fresh prompts that would join its batch. -/
def Roomy (s : Scheduler) : Prop :=
  match s.pendingList with
  | [] => True
  | c :: ps => c.midChunk →
      heldByRunning s.runningReqs + c.footprint +
        heldBeside s.prefillManager.cacheBudget (s.maxExtendTokens - c.rest)
          s.decodeManager.inflightTokens ps ≤ s.prefillManager.cacheBudget

instance (s : Scheduler) : Decidable s.Roomy :=
  match h : s.pendingList with
  | [] => isTrue (by simp [Roomy, h])
  | c :: ps => decidable_of_iff (c.midChunk →
      heldByRunning s.runningReqs + c.footprint +
        heldBeside s.prefillManager.cacheBudget (s.maxExtendTokens - c.rest)
          s.decodeManager.inflightTokens ps ≤ s.prefillManager.cacheBudget) (by simp [Roomy, h])

end Scheduler

/-! ### What a pass admits -/

section

variable {a a' : PrefillAdder} {oid : Nat} {p : PendingReq} {req : Req}

/-- A fresh prompt behind another is admitted whole, or not at all. -/
theorem PrefillAdder.tryAddOne_whole (oid : Nat) (hfresh : p.chunkedReq = none)
    (hnot : a.tokenBudget ≠ a.stepBudget) (hcap : a.runningCount < a.maxRunningReq) :
    if 0 < a.tokenBudget ∧ p.rest ≤ a.tokenBudget ∧ a.reservedSize + p.footprint ≤ a.cacheBudget then
      ∃ req, a.tryAddOne oid p =
        (some req, { a with
          tokenBudget := a.tokenBudget - p.rest
          reservedSize := a.reservedSize + p.footprint
          runningCount := a.runningCount + 1 })
    else a.tryAddOne oid p = (none, a) := by
  have hrest := PendingReq.rest_fresh hfresh
  have hfoot : p.footprint = p.inputLen - p.cachedLen + p.outputLen := by
    rw [PendingReq.footprint, hrest]
  have hcap' : ¬ a.runningCount ≥ a.maxRunningReq := by omega
  rw [tryAddOne, hfresh]
  by_cases htokens : a.tokenBudget ≤ 0
  · rw [if_neg (by omega), if_pos htokens]
  rw [if_neg htokens]
  simp only [tryAllocateOne, if_neg hcap', ← hfoot]
  by_cases hfits : a.reservedSize + p.footprint ≤ a.cacheBudget
  · have hfits' : ¬ a.reservedSize + p.footprint > a.cacheBudget := by omega
    simp only [if_neg hfits', addOneReq, chunkSize, hnot, decide_false, Bool.false_eq_true, if_false,
      ← hrest]
    by_cases hle : p.rest ≤ a.tokenBudget
    · have hle' : ¬ p.rest > a.tokenBudget := by omega
      rw [if_pos ⟨by omega, hle, hfits⟩]
      simp only [if_neg hle']
      exact ⟨_, rfl⟩
    · have hle' : p.rest > a.tokenBudget := by omega
      rw [if_neg (by omega)]
      simp only [if_pos hle', undoAllocation, ← hfoot]
      refine Prod.ext rfl ?_
      cases a
      simp only [PrefillAdder.mk.injEq, true_and]
      omega
  · have hfits' : a.reservedSize + p.footprint > a.cacheBudget := by omega
    rw [if_neg (by omega)]
    simp only [if_pos hfits']

/-- The rows of a pass are rows of its queue. -/
theorem admitLoop_rows_subset (queue : List PendingReq) (a : PrefillAdder) (oid : Nat)
    (hok : ∀ p ∈ queue, p.Ok) :
    (admitLoop a oid queue).reqs.map Req.tableIdx ⊆ queue.map PendingReq.tableIdx := by
  revert hok
  refine admitLoop_induct
    (P := fun _ queue adm => (∀ p ∈ queue, p.Ok) →
      adm.reqs.map Req.tableIdx ⊆ queue.map PendingReq.tableIdx)
    ?_ ?_ ?_ ?_ queue a oid
  · intro a oid _
    exact List.nil_subset _
  · intro a oid p ps req a' htry ih hok
    have hrow := (PrefillAdder.tryAddOne_reserves htry (hok p List.mem_cons_self)).tableIdx_eq
    rw [(admitLoop_cons_some htry ps).1, List.map_cons, List.map_cons, hrow]
    exact List.cons_subset_cons _ (ih fun q hq => hok q (List.mem_cons_of_mem _ hq))
  · intro a oid p ps _ _
    exact List.nil_subset _
  · intro a oid p ps htry hfresh ih hok
    rw [(admitLoop_cons_none htry hfresh ps).1, List.map_cons]
    exact List.subset_cons_of_subset _ (ih fun q hq => hok q (List.mem_cons_of_mem _ hq))

/-- The entries of the queue whose row is among the requests'. -/
def inRows (reqs : List Req) (p : PendingReq) : Bool := p.tableIdx ∈ reqs.map Req.tableIdx

theorem heldByQueued_cons_req {ps : List PendingReq} (hrow : p.tableIdx ∉ ps.map PendingReq.tableIdx)
    (hreq : req.tableIdx = p.tableIdx) (reqs : List Req) :
    heldByQueued (inRows (req :: reqs)) ps = heldByQueued (inRows reqs) ps := by
  refine heldByQueued_congr fun q hq => ?_
  have hne : q.tableIdx ≠ req.tableIdx := fun heq =>
    hrow (hreq ▸ heq ▸ List.mem_map.mpr ⟨q, hq, rfl⟩)
  simp [inRows, hne]

theorem heldByQueued_admitted {ps : List PendingReq} (hrow : p.tableIdx ∉ ps.map PendingReq.tableIdx)
    (hreq : req.tableIdx = p.tableIdx) (reqs : List Req) :
    heldByQueued (inRows (req :: reqs)) (p :: ps) = p.footprint + heldByQueued (inRows reqs) ps := by
  rw [heldByQueued_cons, if_pos (by simp [inRows, hreq]), heldByQueued_cons_req hrow hreq]

theorem heldByQueued_skipped {ps : List PendingReq} {reqs : List Req}
    (hrow : p.tableIdx ∉ ps.map PendingReq.tableIdx)
    (hsub : reqs.map Req.tableIdx ⊆ ps.map PendingReq.tableIdx) :
    heldByQueued (inRows reqs) (p :: ps) = heldByQueued (inRows reqs) ps := by
  have hout : ¬ inRows reqs p = true := by
    rw [inRows, decide_eq_true_iff]
    exact fun hmem => hrow (hsub hmem)
  rw [heldByQueued_cons, if_neg hout, Int.zero_add]

/-- A pass over fresh entries keeps what it reserved within the budget. -/
theorem admitLoop_reserved (queue : List PendingReq) (a : PrefillAdder) (oid : Nat)
    (hqueue : ∀ p ∈ queue, p.Ok ∧ p.chunkedReq = none)
    (hrows : (queue.map PendingReq.tableIdx).Nodup) (hne : (admitLoop a oid queue).reqs ≠ []) :
    a.reservedSize + heldByQueued (inRows (admitLoop a oid queue).reqs) queue ≤ a.cacheBudget := by
  revert hqueue hrows hne
  refine admitLoop_induct
    (P := fun a queue adm => (∀ p ∈ queue, p.Ok ∧ p.chunkedReq = none) →
      (queue.map PendingReq.tableIdx).Nodup → adm.reqs ≠ [] →
      a.reservedSize + heldByQueued (inRows adm.reqs) queue ≤ a.cacheBudget)
    ?_ ?_ ?_ ?_ queue a oid
  · intro a oid _ _ hne
    exact absurd rfl hne
  · intro a oid p ps req a' htry ih hqueue hrows _
    obtain ⟨hok, hfresh⟩ := hqueue p List.mem_cons_self
    have hres := PrefillAdder.tryAddOne_reserves htry hok
    have hsize := hres.reserved
    rw [if_pos hfresh] at hsize
    rw [List.map_cons, List.nodup_cons] at hrows
    rw [(admitLoop_cons_some htry ps).1, heldByQueued_admitted hrows.1 hres.tableIdx_eq]
    by_cases hrest : (admitLoop a' (oid + 1) ps).reqs = []
    · have hzero : heldByQueued (inRows (admitLoop a' (oid + 1) ps).reqs) ps = 0 :=
        heldByQueued_none fun q _ => by simp [inRows, hrest]
      have hle := hres.reserved_le hfresh
      omega
    · have hle := ih (fun q hq => hqueue q (List.mem_cons_of_mem _ hq)) hrows.2 hrest
      rw [hres.limits.2.2] at hle
      omega
  · intro a oid p ps hmid hqueue
    exact absurd (hqueue p List.mem_cons_self).2 hmid
  · intro a oid p ps htry hfresh ih hqueue hrows hne
    have hps : ∀ q ∈ ps, q.Ok ∧ q.chunkedReq = none := fun q hq =>
      hqueue q (List.mem_cons_of_mem _ hq)
    rw [List.map_cons, List.nodup_cons] at hrows
    rw [(admitLoop_cons_none htry hfresh ps).1] at hne ⊢
    rw [heldByQueued_skipped hrows.1 (admitLoop_rows_subset ps a oid fun q hq => (hps q hq).1)]
    exact ih hps hrows.2 hne

/-- Behind another entry, exactly the prompts that fit are admitted. -/
theorem admitLoop_beside : ∀ (queue : List PendingReq) (a : PrefillAdder) (oid : Nat),
    (∀ p ∈ queue, p.Ok ∧ p.chunkedReq = none) → (queue.map PendingReq.tableIdx).Nodup →
    a.tokenBudget < a.stepBudget → a.runningCount + queue.length ≤ a.maxRunningReq →
    heldByQueued (inRows (admitLoop a oid queue).reqs) queue =
      heldBeside a.cacheBudget a.tokenBudget a.reservedSize queue
  | [], _, _, _, _, _, _ => rfl
  | p :: ps, a, oid, hqueue, hrows, hlt, hcap => by
      obtain ⟨hok, hfresh⟩ := hqueue p List.mem_cons_self
      have hps : ∀ q ∈ ps, q.Ok ∧ q.chunkedReq = none := fun q hq =>
        hqueue q (List.mem_cons_of_mem _ hq)
      rw [List.map_cons, List.nodup_cons] at hrows
      rw [List.length_cons] at hcap
      have htry := PrefillAdder.tryAddOne_whole oid hfresh hlt.ne (by omega)
      rw [heldBeside]
      split at htry
      · rename_i hfits
        obtain ⟨req, htry⟩ := htry
        have hnonneg := hok.rest_nonneg
        have hres := PrefillAdder.tryAddOne_reserves htry hok
        rw [if_pos hfits, (admitLoop_cons_some htry ps).1,
          heldByQueued_admitted hrows.1 hres.tableIdx_eq]
        rw [admitLoop_beside ps _ (oid + 1) hps hrows.2 (by dsimp only; omega)
          (by dsimp only; omega)]
      · rename_i hfits
        rw [if_neg hfits, (admitLoop_cons_none htry hfresh ps).1,
          heldByQueued_skipped hrows.1 (admitLoop_rows_subset ps a oid fun q hq => (hps q hq).1)]
        exact admitLoop_beside ps a oid hps hrows.2 hlt (by omega)

/-- A pass that resumes a chunk: its own footprint, and the prompts that fit beside it. -/
theorem admitLoop_resume (a : PrefillAdder) (oid : Nat) {c : PendingReq} {ps : List PendingReq}
    (hmid : c.midChunk) (hqueue : ∀ p ∈ c :: ps, p.Ok) (hfresh : ∀ p ∈ ps, p.chunkedReq = none)
    (hrows : ((c :: ps).map PendingReq.tableIdx).Nodup) (hbudget : 0 < a.tokenBudget)
    (hstep : a.tokenBudget = a.stepBudget) (hcap : a.runningCount + ps.length ≤ a.maxRunningReq) :
    (admitLoop a oid (c :: ps)).reqs ≠ [] ∧
      heldByQueued (inRows (admitLoop a oid (c :: ps)).reqs) ps =
        heldBeside a.cacheBudget (a.tokenBudget - c.rest) a.reservedSize ps := by
  have hok := hqueue c List.mem_cons_self
  have hps : ∀ q ∈ ps, q.Ok ∧ q.chunkedReq = none := fun q hq =>
    ⟨hqueue q (List.mem_cons_of_mem _ hq), hfresh q hq⟩
  obtain ⟨chunk, hchunk⟩ := Option.ne_none_iff_exists'.mp hmid
  obtain ⟨hne, -, -, hlt⟩ := hok.chunk chunk hchunk
  have hrest : c.rest = c.inputLen - chunk.deviceLen := by
    rw [PendingReq.rest, PendingReq.processed, hchunk]
  obtain ⟨req, a', htry⟩ : ∃ req a', a.tryAddOne oid c = (some req, a') :=
    PrefillAdder.tryAddOne_continues hok hmid hbudget
  have hadm := PrefillAdder.tryAddOne_admits htry hok hne
  have hext : Extends a.stepBudget.toNat c req :=
    PrefillAdder.tryAddOne_extends htry hok hne (by omega) hstep.le
  have hsize := hadm.reserved
  have hsome : ¬ c.chunkedReq = none := hmid
  rw [if_neg hsome] at hsize
  have hcount := hadm.runningCount_eq
  rw [if_neg hsome] at hcount
  rw [List.map_cons, List.nodup_cons] at hrows
  obtain ⟨hreqs, -, -⟩ := admitLoop_cons_some htry ps
  rw [hreqs, heldByQueued_cons_req hrows.1 hadm.tableIdx_eq]
  refine ⟨List.cons_ne_nil _ _, ?_⟩
  have htokens := hadm.tokenBudget_eq
  by_cases hc : req.chunked = true
  · -- a cut spends the step's tokens, and what is left of the prompt is more than them
    have hspent := hadm.chunked hc
    have hle : a.tokenBudget - c.rest ≤ 0 := by
      have hchunked := hext.chunked_eq
      rw [hc, eq_comm, decide_eq_true_iff] at hchunked
      have hstart := hext.cachedLen_eq
      rw [PendingReq.processed, hchunk] at hstart
      unfold Req.extendLen at htokens
      dsimp only at hstart
      omega
    rw [(admitLoop_spent ps a' (oid + 1) hspent.le).1, heldBeside_spent _ _ _ hle]
    exact heldByQueued_none fun q _ => by simp [inRows]
  · have hend : a'.tokenBudget = a.tokenBudget - c.rest := by
      have hchunked := hext.chunked_eq
      rw [Bool.not_eq_true] at hc
      rw [hc, eq_comm, decide_eq_false_iff_not] at hchunked
      have hdev := hext.deviceLen_le
      have hstart := hext.cachedLen_eq
      rw [PendingReq.processed, hchunk] at hstart
      unfold Req.extendLen at htokens
      dsimp only at hstart
      omega
    have hpos := hadm.extendLen_pos
    rw [admitLoop_beside ps a' (oid + 1) hps hrows.2 (by rw [hadm.limits.1]; omega)
      (by rw [hadm.limits.2.1]; omega), hadm.limits.2.2, hsize, hend, Int.add_zero]

end

namespace Scheduler

variable {s s' : Scheduler}

/-! ### The invariant -/

/-- What is promised between two steps. -/
def held (s : Scheduler) : Int :=
  heldByRunning s.runningReqs + heldByQueued (fun p => p.midChunk) s.pendingList

structure Budgeted (s : Scheduler) : Prop where
  ok : s.Ok
  head : HeadOnly s.pendingList
  pageSize_pos : 0 < s.decodeManager.pageSize
  caps : s.prefillManager.maxRunningReq = s.maxRunningReq
  cuts : ∀ p ∈ s.pendingList, p.midChunk → 0 < s.maxExtendTokens
  output : ∀ p ∈ s.pendingList, 0 ≤ p.outputLen
  held_le : s.held ≤ s.prefillManager.cacheBudget

/-- The decode set's own count adds the slack of its pages. -/
theorem heldByRunning_le_inflightTokens (hpage : 0 < s.decodeManager.pageSize) :
    heldByRunning s.runningReqs ≤ s.decodeManager.inflightTokens := by
  have hslack : (0 : Int) ≤ (s.decodeManager.pageSize - 1 : Int) * s.decodeManager.runningReqs.length :=
    Int.mul_nonneg (by omega) (Int.natCast_nonneg _)
  have hrun : s.runningReqs = s.decodeManager.runningReqs := rfl
  rw [heldByRunning, DecodeManager.inflightTokens, hrun]
  omega

theorem Ok.length_le (hs : s.Ok) :
    s.runningReqs.length + s.pendingList.length ≤ s.maxRunningReq := by
  have h := hs.rows_perm.length_eq
  rw [seats, List.length_append, List.length_map, List.length_append, List.length_map,
    List.length_map, List.length_range] at h
  omega

/-- What a scheduled batch commits fits the budget exactly when there was room for the
chunk at the queue's head. -/
theorem Budgeted.committed_le_iff (h : s.Budgeted) {batch : Batch} {s1 : Scheduler}
    (hsched : s.schedule = some (batch, s1)) :
    s.committed batch ≤ s.prefillManager.cacheBudget ↔ s.Roomy := by
  have hrun := heldByRunning_le_inflightTokens h.pageSize_pos
  have hrows := h.ok.seat_rows_nodup
  rw [seats, List.map_append, map_row_seat_pending, map_row_seat_running] at hrows
  obtain ⟨hqueueRows, -, hdisj⟩ := List.nodup_append'.mp hrows
  by_cases hmid : ∃ p ∈ s.pendingList, p.midChunk
  · obtain ⟨p, hp, hpmid⟩ := hmid
    have hbudget := h.cuts p hp hpmid
    cases hqueue : s.pendingList with
    | nil =>
        rw [hqueue] at hp
        cases hp
    | cons c ps =>
        have hfresh : ∀ q ∈ ps, q.chunkedReq = none := fun q hq =>
          h.head q (by rw [hqueue]; exact hq)
        have hcmid : c.midChunk := by
          rw [hqueue] at hp
          rcases List.mem_cons.mp hp with rfl | hp
          · exact hpmid
          · exact absurd (hfresh p hp) hpmid
        have hlen := h.ok.length_le
        rw [hqueue, List.length_cons] at hlen
        obtain ⟨hne, hbeside⟩ := admitLoop_resume s.adder s.prefillManager.nextOid
          hcmid (fun q hq => h.ok.pending_ok q (hqueue ▸ hq)) hfresh (hqueue ▸ hqueueRows)
          (by simp only [adder]; omega) rfl (by simp only [adder, h.caps]; omega)
        rw [← hqueue, ← pass] at hne hbeside
        rw [schedule_of_pass hne] at hsched
        obtain ⟨rfl, -⟩ := Prod.mk.inj (Option.some.inj hsched)
        have hps : heldByQueued (fun p => p.midChunk ∨ p.tableIdx ∈ s.pass.reqs.map Req.tableIdx) ps =
            heldByQueued (inRows s.pass.reqs) ps :=
          heldByQueued_congr fun q hq => by simp [inRows, PendingReq.midChunk, hfresh q hq]
        rw [committed, Roomy, hqueue, heldByQueued_cons, if_pos (by simp [hcmid]), hps, hbeside]
        dsimp only [adder]
        constructor
        · intro hle _
          omega
        · intro hroomy
          have := hroomy hcmid
          omega
  · have hfresh : ∀ p ∈ s.pendingList, p.chunkedReq = none := by
      intro p hp
      by_contra hne
      exact hmid ⟨p, hp, hne⟩
    have hroomy : s.Roomy := by
      rw [Roomy]
      split
      · trivial
      · rename_i c ps hqueue
        intro hc
        exact absurd (hfresh c (by rw [hqueue]; exact List.mem_cons_self)) hc
    have hsel : heldByQueued (fun p => p.midChunk ∨ p.tableIdx ∈ batch.reqs.map Req.tableIdx)
        s.pendingList = heldByQueued (inRows batch.reqs) s.pendingList :=
      heldByQueued_congr fun q hq => by simp [inRows, PendingReq.midChunk, hfresh q hq]
    refine ⟨fun _ => hroomy, fun _ => ?_⟩
    rw [committed, hsel]
    by_cases hpass : s.pass.reqs = []
    · rw [schedule_of_no_pass hpass] at hsched
      obtain ⟨batch', hdecode, heq⟩ := Option.map_eq_some_iff.mp hsched
      obtain ⟨rfl, -⟩ := Prod.mk.inj heq
      have hperm : batch'.reqs.Perm s.runningReqs := by
        rw [DecodeManager.scheduleNextBatch] at hdecode
        split at hdecode
        · cases hdecode
        · rw [← Option.some.inj hdecode]
          exact List.perm_insertionSort _ _
      have hzero : heldByQueued (inRows batch'.reqs) s.pendingList = 0 :=
        heldByQueued_none fun q hq => by
          rw [inRows, decide_eq_false_iff_not, (hperm.map Req.tableIdx).mem_iff]
          exact hdisj (List.mem_map.mpr ⟨q, hq, rfl⟩)
      have hmids : heldByQueued (fun p => p.midChunk) s.pendingList = 0 :=
        heldByQueued_none fun q hq => by simp [PendingReq.midChunk, hfresh q hq]
      have hle := h.held_le
      rw [held, hmids] at hle
      omega
    · rw [schedule_of_pass hpass] at hsched
      obtain ⟨rfl, -⟩ := Prod.mk.inj (Option.some.inj hsched)
      have hle := admitLoop_reserved s.pendingList s.adder s.prefillManager.nextOid
        (fun p hp => ⟨h.ok.pending_ok p hp, hfresh p hp⟩) hqueueRows hpass
      rw [← pass] at hle
      dsimp only [adder] at hle ⊢
      omega

/-! ### What a call leaves held -/

theorem sum_filter_le {α : Type} {p q : α → Bool} {f g : α → Int} : ∀ {xs : List α},
    (∀ x ∈ xs, p x = true → q x = true ∧ f x ≤ g x) → (∀ x ∈ xs, q x = true → 0 ≤ g x) →
    ((xs.filter p).map f).sum ≤ ((xs.filter q).map g).sum
  | [], _, _ => Int.le_refl _
  | x :: xs, h, h0 => by
      have ih := sum_filter_le (fun y hy => h y (List.mem_cons_of_mem _ hy))
        fun y hy => h0 y (List.mem_cons_of_mem _ hy)
      have hx := h x List.mem_cons_self
      have hx0 := h0 x List.mem_cons_self
      by_cases hp : p x = true
      · obtain ⟨hq, hle⟩ := hx hp
        rw [List.filter_cons_of_pos hp, List.filter_cons_of_pos hq, List.map_cons, List.map_cons,
          List.sum_cons, List.sum_cons]
        omega
      · rw [List.filter_cons_of_neg hp]
        by_cases hq : q x = true
        · have := hx0 hq
          rw [List.filter_cons_of_pos hq, List.map_cons, List.sum_cons]
          omega
        · rw [List.filter_cons_of_neg hq]
          exact ih

theorem heldByRunning_le {running : List Req} (running' : List Req) (hn : (running.map Req.oid).Nodup)
    (hsub : running ⊆ running') (h0 : ∀ r ∈ running', r.Running) :
    heldByRunning running ≤ heldByRunning running' := by
  obtain ⟨l, hperm, hl⟩ := List.subperm_of_subset (List.Nodup.of_map _ hn) hsub
  rw [heldByRunning, ← (hperm.map Req.remainLen).sum_eq]
  refine List.Sublist.sum_le_sum (hl.map Req.remainLen) fun x hx => ?_
  obtain ⟨r, hr, rfl⟩ := List.mem_map.mp hx
  have := (h0 r hr).lt_maxDeviceLen
  unfold Req.remainLen
  omega

theorem heldByQueued_append (sel : PendingReq → Bool) (ps qs : List PendingReq) :
    heldByQueued sel (ps ++ qs) = heldByQueued sel ps + heldByQueued sel qs := by
  rw [heldByQueued, List.filter_append, List.map_append, List.sum_append, heldByQueued, heldByQueued]

theorem heldByQueued_perm (sel : PendingReq → Bool) {ps qs : List PendingReq} (h : ps.Perm qs) :
    heldByQueued sel ps = heldByQueued sel qs :=
  ((h.filter sel).map PendingReq.footprint).sum_eq

/-- A chunk that is not cut yet reserves at least what is cut off it. -/
theorem footprint_extend {budget : Nat} {p : PendingReq} {req : Req} (hext : Extends budget p req) :
    PendingReq.footprint { p with chunkedReq := some req } ≤ p.footprint := by
  have hlt := hext.processed_lt
  have hchunk : PendingReq.processed { p with chunkedReq := some req } = req.deviceLen := rfl
  simp only [PendingReq.footprint, PendingReq.rest, hchunk, PendingReq.inputLen,
    PendingReq.outputLen] at hlt ⊢
  omega

theorem remainLen_extend {budget : Nat} {p : PendingReq} {req : Req} (hext : Extends budget p req)
    (hout : 0 ≤ p.outputLen) : 0 ≤ req.remainLen ∧ req.remainLen ≤ p.footprint := by
  have hmax := hext.maxDeviceLen_eq
  have hlt := hext.processed_lt
  have hle := hext.deviceLen_le
  unfold Req.remainLen PendingReq.footprint PendingReq.rest
  omega

namespace Ticked

variable {reqs : List Req} {batch : Batch} {s1 : Scheduler}

/-- The pairs of a tick whose request goes on. -/
def going (x : Req × Req) : Bool := !x.2.chunked && !x.2.aborted

theorem remainLen_going (htick : Ticked s reqs batch s1 s') {x : Req × Req}
    (hx : x ∈ batch.reqs.zip reqs) (hg : going x = true) :
    x.1.chunked = false ∧ x.2.Running ∧ x.2.remainLen ≤ x.1.remainLen := by
  have hand := htick.handed x hx
  simp only [going, Bool.and_eq_true, Bool.not_eq_true'] at hg
  have hc : x.1.chunked = false := hand.chunked_eq ▸ hg.1
  have hlt := hand.going hc hg.2
  refine ⟨hc, ⟨hg.1, hg.2, hlt⟩, ?_⟩
  have hmax := hand.maxDeviceLen_eq
  have hdev := hand.deviceLen_eq
  rw [hc] at hdev
  simp only [Bool.false_eq_true, if_false] at hdev
  unfold Req.remainLen
  omega

/-- What goes on from a batch holds no more than the batch did. -/
theorem heldByRunning_going (htick : Ticked s reqs batch s1 s')
    (h0 : ∀ req ∈ batch.reqs, req.chunked = false → 0 ≤ req.remainLen) :
    heldByRunning (((batch.reqs.zip reqs).filter going).map Prod.snd) ≤
      heldByRunning (batch.reqs.filter fun req => !req.chunked) := by
  have hfst := htick.map_fst_zip
  have hright : heldByRunning (batch.reqs.filter fun req => !req.chunked) =
      (((batch.reqs.zip reqs).filter fun x => !x.1.chunked).map fun x => x.1.remainLen).sum := by
    rw [heldByRunning]
    conv_lhs => rw [← hfst]
    rw [List.filter_map, List.map_map]
    rfl
  rw [hright, heldByRunning, List.map_map]
  refine sum_filter_le (fun x hx hg => ?_) fun x hx hc => ?_
  · obtain ⟨hc, -, hle⟩ := htick.remainLen_going hx hg
    exact ⟨by simp [hc], hle⟩
  · exact h0 x.1 (hfst ▸ List.mem_map.mpr ⟨x, hx, rfl⟩) (by simpa using hc)

theorem running_going (htick : Ticked s reqs batch s1 s') :
    ∀ r ∈ ((batch.reqs.zip reqs).filter going).map Prod.snd, r.Running := by
  intro r hr
  obtain ⟨x, hx, rfl⟩ := List.mem_map.mp hr
  obtain ⟨hx, hg⟩ := List.mem_filter.mp hx
  exact (htick.remainLen_going hx hg).2.1

/-- A step holds no more than its batch committed. -/
theorem held_le (htick : Ticked s reqs batch s1 s') (hs : s.Ok)
    (hout : ∀ p ∈ s.pendingList, 0 ≤ p.outputLen) : s'.held ≤ s.committed batch := by
  have hstep := htick.stepped hs
  have hlist : s'.pendingList = s1.pendingList := by
    rw [htick.final_eq]
    rfl
  have hgoing : ∀ r ∈ s'.runningReqs,
      (r ∈ s.runningReqs ∧ r.tableIdx ∉ batch.reqs.map Req.tableIdx) ∨
        r ∈ ((batch.reqs.zip reqs).filter going).map Prod.snd := by
    intro r hr
    rcases hstep.running r hr with hr | ⟨x, hx, rfl, hc, ha⟩
    · exact Or.inl hr
    · exact Or.inr (List.mem_map.mpr ⟨x, List.mem_filter.mpr ⟨hx, by simp [going, hc, ha]⟩, rfl⟩)
  obtain ⟨-, ⟨picked, unadmitted, hb⟩ | ⟨hphase, hperm, rfl⟩⟩ :=
    schedule_spec hs htick.schedule_eq htick.inputIds_ne_nil
  · have hqueued : ∀ x ∈ picked, x.1 ∈ s.pendingList := fun x hx =>
      hb.queue_perm.mem_iff.mpr (List.mem_append_left _ (List.mem_map.mpr ⟨x, hx, rfl⟩))
    have hremain : ∀ x ∈ picked, 0 ≤ x.2.remainLen ∧ x.2.remainLen ≤ x.1.footprint := fun x hx =>
      remainLen_extend (hb.extend x hx) (hout x.1 (hqueued x hx))
    have hrows : ∀ x ∈ picked, x.2.tableIdx = x.1.tableIdx := fun x hx =>
      congrArg Seat.row (hb.extend x hx).seat_eq
    -- the requests that go on
    have hrunning : heldByRunning s'.runningReqs ≤ heldByRunning s.runningReqs +
        ((picked.filter fun x => !x.2.chunked).map fun x => x.1.footprint).sum := by
      have h1 := heldByRunning_le (s.runningReqs ++
          ((batch.reqs.zip reqs).filter going).map Prod.snd) hstep.ok.oids_nodup
        (fun r hr => List.mem_append.mpr ((hgoing r hr).imp_left And.left))
        (fun r hr => (List.mem_append.mp hr).elim (hs.running_ok r) (htick.running_going r))
      have h2 := htick.heldByRunning_going (by
        intro req hreq _
        rw [hb.reqs_eq] at hreq
        obtain ⟨x, hx, rfl⟩ := List.mem_map.mp hreq
        exact (hremain x hx).1)
      have h3 : heldByRunning (batch.reqs.filter fun req => !req.chunked) ≤
          ((picked.filter fun x => !x.2.chunked).map fun x => x.1.footprint).sum := by
        rw [hb.reqs_eq, heldByRunning, List.filter_map, List.map_map]
        refine List.sum_le_sum fun x hx => ?_
        exact (hremain x (List.mem_filter.mp hx).1).2
      have happ : heldByRunning (s.runningReqs ++ ((batch.reqs.zip reqs).filter going).map Prod.snd) =
          heldByRunning s.runningReqs +
            heldByRunning (((batch.reqs.zip reqs).filter going).map Prod.snd) := by
        simp [heldByRunning]
      omega
    -- the chunks that stay queued
    have hchunks : heldByQueued (fun p => p.midChunk)
        ((picked.filter fun x => x.2.chunked).map fun x => { x.1 with chunkedReq := some x.2 }) ≤
          ((picked.filter fun x => x.2.chunked).map fun x => x.1.footprint).sum := by
      rw [heldByQueued, List.filter_eq_self.mpr fun p hp => by
        obtain ⟨x, -, rfl⟩ := List.mem_map.mp hp
        exact decide_eq_true (Option.some_ne_none x.2), List.map_map]
      refine List.sum_le_sum fun x hx => ?_
      exact footprint_extend (hb.extend x (List.mem_filter.mp hx).1)
    have hsplit : ((picked.filter fun x => x.2.chunked).map fun x => x.1.footprint).sum +
        ((picked.filter fun x => !x.2.chunked).map fun x => x.1.footprint).sum =
          (picked.map fun x => x.1.footprint).sum := by
      rw [← List.sum_append, ← List.map_append]
      exact ((List.filter_append_perm _ _).map _).sum_eq
    have hpicked : heldByQueued (fun p => p.midChunk ∨ p.tableIdx ∈ batch.reqs.map Req.tableIdx)
        (picked.map Prod.fst) = (picked.map fun x => x.1.footprint).sum := by
      rw [heldByQueued, List.filter_eq_self.mpr, List.map_map]
      · rfl
      · intro p hp
        obtain ⟨x, hx, rfl⟩ := List.mem_map.mp hp
        rw [decide_eq_true_iff, hb.reqs_eq, List.map_map]
        exact Or.inr (List.mem_map.mpr ⟨x, hx, hrows x hx⟩)
    have hrest : heldByQueued (fun p => p.midChunk ∨ p.tableIdx ∈ batch.reqs.map Req.tableIdx)
        unadmitted = heldByQueued (fun p => p.midChunk) unadmitted := by
      refine heldByQueued_congr fun q hq => ?_
      have hnodup := (hb.queue_perm.map PendingReq.tableIdx).nodup_iff.mp (by
        have h := hs.seat_rows_nodup
        rw [seats, List.map_append, map_row_seat_pending] at h
        exact (List.nodup_append'.mp h).1)
      rw [List.map_append] at hnodup
      have hout : q.tableIdx ∉ batch.reqs.map Req.tableIdx := by
        rw [hb.reqs_eq, List.map_map]
        intro hmem
        obtain ⟨x, hx, heq⟩ := List.mem_map.mp hmem
        refine (List.nodup_append'.mp hnodup).2.2 ?_ (List.mem_map.mpr ⟨q, hq, rfl⟩)
        exact List.mem_map.mpr ⟨x.1, List.mem_map.mpr ⟨x, hx, rfl⟩, (hrows x hx).symm.trans heq⟩
      simp [hout]
    rw [held, committed, heldByQueued_perm _ hb.queue_perm, heldByQueued_append, hpicked, hrest,
      hlist, hb.pendingList_eq, heldByQueued_append]
    omega
  · have hrunning : heldByRunning s'.runningReqs ≤ heldByRunning s1.runningReqs := by
      have h1 := heldByRunning_le (((batch.reqs.zip reqs).filter going).map Prod.snd)
        hstep.ok.oids_nodup
        (fun r hr => (hgoing r hr).elim (fun h => absurd
          ((hperm.map Req.tableIdx).mem_iff.mpr (List.mem_map.mpr ⟨r, h.1, rfl⟩)) h.2) id)
        htick.running_going
      have hok : ∀ req ∈ batch.reqs, req.Running := fun req hreq =>
        hs.running_ok req (hperm.mem_iff.mp hreq)
      have h2 := htick.heldByRunning_going fun req hreq _ => by
        have := (hok req hreq).lt_maxDeviceLen
        unfold Req.remainLen
        omega
      have h3 : heldByRunning (batch.reqs.filter fun req => !req.chunked) =
          heldByRunning s1.runningReqs := by
        rw [List.filter_eq_self.mpr fun req hreq => by simp [(hok req hreq).not_chunked]]
        exact (hperm.map Req.remainLen).sum_eq
      omega
    have hmids : heldByQueued (fun p => p.midChunk) s1.pendingList ≤
        heldByQueued (fun p => p.midChunk ∨ p.tableIdx ∈ batch.reqs.map Req.tableIdx)
          s1.pendingList := by
      refine sum_filter_le (fun p hp hmid => ⟨by simpa using Or.inl (by simpa using hmid),
        Int.le_refl _⟩) fun p hp _ => ?_
      have h1 := (hs.pending_ok p hp).rest_nonneg
      have h2 := hout p hp
      unfold PendingReq.footprint
      omega
    rw [held, committed, hlist]
    omega

end Ticked

/-! ### Runs -/

/-- `max_tokens` is not negative, and there is room at every tick. -/
def Accounted (s : Scheduler) : SchedulerCall → Prop
  | .add pending => 0 ≤ pending.outputLen
  | .abort _ => True
  | .tick _ => s.Roomy

instance (s : Scheduler) (c : SchedulerCall) : Decidable (s.Accounted c) :=
  match c with
  | .add pending => inferInstanceAs (Decidable (0 ≤ pending.outputLen))
  | .abort _ => isTrue trivial
  | .tick _ => inferInstanceAs (Decidable s.Roomy)

theorem call_decodeManager_pageSize {c : SchedulerCall} (h : s.call c = some s') :
    s'.decodeManager.pageSize = s.decodeManager.pageSize := by
  cases c with
  | add pending =>
      simp only [call, add] at h
      split at h
      · rename_i hadd
        split at hadd
        · cases hadd
        · obtain ⟨-, rfl⟩ := Prod.mk.inj (Except.ok.inj hadd)
          exact congrArg (fun s => s.decodeManager.pageSize) (Option.some.inj h).symm
      · exact congrArg (fun s => s.decodeManager.pageSize) (Option.some.inj h).symm
  | abort uid =>
      obtain rfl := Option.some.inj h
      rw [abort]
      split
      · rfl
      · split
        · rename_i heq
          rw [DecodeManager.abortReq] at heq
          split at heq
          · cases heq
          · obtain ⟨-, rfl⟩ := Prod.mk.inj heq
            rfl
        · rfl
  | tick reqs =>
      simp only [call] at h
      split at h
      · exact congrArg (fun s => s.decodeManager.pageSize) (Option.some.inj h).symm
      · rename_i hsched
        obtain rfl := Option.some.inj h
        rw [schedule] at hsched
        split at hsched
        · obtain ⟨-, rfl⟩ := Prod.mk.inj (Option.some.inj hsched)
          rfl
        · obtain ⟨batch, -, heq⟩ := Option.map_eq_some_iff.mp hsched
          obtain ⟨-, rfl⟩ := Prod.mk.inj heq
          rfl

theorem Budgeted.init {maxRunningReq maxExtendTokens pageSize maxPages cacheBudget : Nat}
    (hpage : 0 < pageSize) :
    (init maxRunningReq maxExtendTokens pageSize maxPages cacheBudget).Budgeted where
  ok := ok_init _ _ _ _ _
  head := fun p hp => by cases hp
  pageSize_pos := hpage
  caps := rfl
  cuts := fun p hp => by cases hp
  output := fun p hp => by cases hp
  held_le := Int.natCast_nonneg _

theorem Budgeted.footprint_nonneg (h : s.Budgeted) {p : PendingReq} (hp : p ∈ s.pendingList) :
    0 ≤ p.footprint := by
  have h1 := (h.ok.pending_ok p hp).rest_nonneg
  have h2 := h.output p hp
  unfold PendingReq.footprint
  omega

/-- Whatever leaves takes nothing with it. -/
theorem Budgeted.held_mono (h : s.Budgeted) (hs' : s'.Ok)
    (hpending : s'.pendingList.Sublist s.pendingList)
    (hrunning : ∀ r ∈ s'.runningReqs, r ∈ s.runningReqs) : s'.held ≤ s.held := by
  have h1 := heldByRunning_le _ hs'.oids_nodup hrunning h.ok.running_ok
  have h2 : heldByQueued (fun p => p.midChunk) s'.pendingList ≤
      heldByQueued (fun p => p.midChunk) s.pendingList := by
    refine List.Sublist.sum_le_sum ((hpending.filter _).map PendingReq.footprint) fun x hx => ?_
    obtain ⟨p, hp, rfl⟩ := List.mem_map.mp hx
    exact h.footprint_nonneg (List.mem_filter.mp hp).1
  unfold held
  omega

theorem Budgeted.call (h : s.Budgeted) {c : SchedulerCall} (hd : s.Driven c)
    (hacc : s.Accounted c) (hcall : s.call c = some s') : s'.Budgeted := by
  obtain ⟨hok, hlim⟩ := call_ok h.ok hd hcall
  have hpage : 0 < s'.decodeManager.pageSize :=
    call_decodeManager_pageSize hcall ▸ h.pageSize_pos
  have hcaps : s'.prefillManager.maxRunningReq = s'.maxRunningReq := by
    rw [hlim.prefill_eq.1, hlim.maxRunningReq_eq]
    exact h.caps
  have hheld := h.held_le
  cases c with
  | add pending =>
      simp only [Scheduler.call] at hcall
      cases hadd : s.add pending with
      | error err =>
          rw [hadd] at hcall
          obtain rfl := Option.some.inj hcall
          exact h
      | ok r =>
          obtain ⟨p, s1⟩ := r
          rw [hadd] at hcall
          obtain rfl := Option.some.inj hcall
          obtain ⟨-, -, -, -, hp, hlist, hrun⟩ := add_spec h.ok hd.ok hd.chunkedReq_eq hadd
          have hfresh : p.chunkedReq = none := by
            rw [hp]
            exact hd.chunkedReq_eq
          have hnew : heldByQueued (fun p => p.midChunk) [p] = 0 :=
            heldByQueued_none fun q hq => by
              rw [List.mem_singleton.mp hq]
              simp [PendingReq.midChunk, hfresh]
          have hmem : ∀ q ∈ s1.pendingList, q ∈ s.pendingList ∨ q = p := fun q hq => by
            simpa [hlist] using hq
          exact
            { ok := hok
              head := by
                rw [hlist]
                exact h.head.concat hfresh
              pageSize_pos := hpage
              caps := hcaps
              cuts := fun q hq hmid => by
                rw [hlim.maxExtendTokens_eq]
                rcases hmem q hq with hq | rfl
                · exact h.cuts q hq hmid
                · exact absurd hfresh hmid
              output := fun q hq => by
                rcases hmem q hq with hq | rfl
                · exact h.output q hq
                · rw [hp]
                  exact hacc
              held_le := by
                rw [held] at hheld
                rw [hlim.prefill_eq.2, held, hlist, hrun, heldByQueued_append, hnew]
                omega }
  | abort uid =>
      obtain rfl := Option.some.inj hcall
      have hsub : (s.abort uid).2.pendingList.Sublist s.pendingList := by
        rw [abort_pendingList]
        exact List.eraseP_sublist
      have hle := h.held_mono hok hsub (abort_runningReqs_subset h.ok uid)
      exact
        { ok := hok
          head := h.head.sublist hsub
          pageSize_pos := hpage
          caps := hcaps
          cuts := fun q hq => by
            rw [hlim.maxExtendTokens_eq]
            exact h.cuts q (hsub.subset hq)
          output := fun q hq => h.output q (hsub.subset hq)
          held_le := by
            rw [hlim.prefill_eq.2]
            omega }
  | tick reqs =>
      rcases tick_cases hd hcall with ⟨-, rfl⟩ | ⟨batch, s1, htick⟩
      · exact h
      have hstep := htick.stepped h.ok
      have hcommitted := (h.committed_le_iff htick.schedule_eq).mpr hacc
      have hle := htick.held_le h.ok h.output
      have hlist : s'.pendingList = s1.pendingList := by
        rw [htick.final_eq]
        rfl
      exact
        { ok := hok
          head := by
            rw [hlist]
            exact headOnly_schedule h.head h.ok htick.schedule_eq htick.inputIds_ne_nil
          pageSize_pos := hpage
          caps := hcaps
          cuts := fun q hq hmid => by
            rw [hlim.maxExtendTokens_eq]
            rcases hstep.pending q hq with ⟨hq, -⟩ | ⟨p0, hp0, req, -, -, hext, -, rfl⟩
            · exact h.cuts q hq hmid
            · have hslice := hext.slice_le
              have hlt := hext.processed_lt
              omega
          output := fun q hq => by
            rcases hstep.pending q hq with ⟨hq, -⟩ | ⟨p0, hp0, req, -, -, -, -, rfl⟩
            · exact h.output q hq
            · exact h.output p0 hp0
          held_le := by
            rw [hlim.prefill_eq.2]
            omega }

/-- In a run that had room at every tick, what the next batch commits fits the cache
budget exactly when there is room again. -/
theorem committed_le_iff_roomy {maxRunningReq maxExtendTokens pageSize maxPages cacheBudget : Nat}
    {calls : List SchedulerCall} (hpage : 0 < pageSize)
    (hd : Run.AllSteps Scheduler.call (fun s c => s.Driven c ∧ s.Accounted c)
      (init maxRunningReq maxExtendTokens pageSize maxPages cacheBudget) calls)
    (h : Run.exec Scheduler.call
      (init maxRunningReq maxExtendTokens pageSize maxPages cacheBudget) calls = some s)
    {batch : Batch} {s1 : Scheduler} (hsched : s.schedule = some (batch, s1)) :
    s.committed batch ≤ cacheBudget ↔ s.Roomy := by
  have hinv := Run.invariant
    (fun s : Scheduler => s.Budgeted ∧ s.prefillManager.cacheBudget = cacheBudget)
    (fun s c s' ⟨hs, hB⟩ hc hcall =>
      ⟨hs.call hc.1 hc.2 hcall, (call_ok hs.ok hc.1 hcall).2.prefill_eq.2.trans hB⟩)
    ⟨Budgeted.init hpage, rfl⟩ hd h
  exact hinv.2 ▸ hinv.1.committed_le_iff hsched

/-- A prompt of three tokens for one more, its first chunk of two, and a prompt of one
token for `out` more. -/
def threeForOne : PendingReq :=
  { uid := 0, inputIds := [7, 8, 9], samplingParams := { maxTokens := 1 } }

def firstTwo : Req := threeForOne.newReq 0 true [7, 8] 0 0 none

def oneFor (out : Int) : PendingReq :=
  { uid := 1, inputIds := [5], samplingParams := { maxTokens := out } }

/-- With a budget of four, the last token of the first prompt (two tokens to come) shares
its batch with a prompt that needs three. -/
theorem last_chunk_overcommits :
    Run.AllSteps Scheduler.call Driven (init 2 2 1 8 4)
      [.add threeForOne, .add (oneFor 2), .tick [firstTwo]] ∧
    ∃ s batch s1, Run.exec Scheduler.call (init 2 2 1 8 4)
        [.add threeForOne, .add (oneFor 2), .tick [firstTwo]] = some s ∧
      s.schedule = some (batch, s1) ∧ 4 < s.committed batch :=
  ⟨by decide, _, _, _, rfl, rfl, by decide⟩

/-- A prompt that needs two leaves room. -/
theorem small_prompt_fits_beside : ∃ s batch s1, Run.exec Scheduler.call (init 2 2 1 8 4)
      [.add threeForOne, .add (oneFor 1), .tick [firstTwo]] = some s ∧
    s.schedule = some (batch, s1) ∧ (s.committed batch ≤ 4 ↔ s.Roomy) :=
  have hd : Run.AllSteps Scheduler.call (fun s c => s.Driven c ∧ s.Accounted c) (init 2 2 1 8 4)
      [.add threeForOne, .add (oneFor 1), .tick [firstTwo]] := by decide
  ⟨_, _, _, rfl, rfl, committed_le_iff_roomy (by decide) hd rfl rfl⟩

end Scheduler

end FreeToken
