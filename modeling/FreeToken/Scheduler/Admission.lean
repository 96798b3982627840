import FreeToken.Scheduler.Runs

/-!
# Admission, entry by entry

What one `try_add_one` takes from the budgets of a pass, when it refuses, and what a
whole pass over the queue adds up to.
-/

namespace FreeToken

/-- The tokens of a queued prompt that are left to extend. -/
def PendingReq.rest (p : PendingReq) : Int := p.inputLen - p.processed

/-- The tokens a queued entry still needs: the rest of its prompt and its output. For a
fresh entry this is what `_try_allocate_one` reserves. -/
def PendingReq.footprint (p : PendingReq) : Int := p.rest + p.outputLen

/-- Half way through its prompt. -/
def PendingReq.midChunk (p : PendingReq) : Prop := p.chunkedReq ≠ none

instance (p : PendingReq) : Decidable p.midChunk := inferInstanceAs (Decidable (_ ≠ _))

theorem PendingReq.processed_fresh {p : PendingReq} (h : p.chunkedReq = none) :
    p.processed = p.cachedLen := by
  rw [PendingReq.processed, h]

theorem PendingReq.rest_fresh {p : PendingReq} (h : p.chunkedReq = none) :
    p.rest = p.inputLen - p.cachedLen := by
  rw [PendingReq.rest, PendingReq.processed_fresh h]

theorem PendingReq.Ok.rest_nonneg {p : PendingReq} (h : p.Ok) : 0 ≤ p.rest := by
  have hle := h.cachedLen_le
  unfold PendingReq.rest PendingReq.processed
  split
  · rename_i c hc
    have := (h.chunk c hc).2.2.2
    omega
  · omega

namespace PrefillAdder

variable {a a' : PrefillAdder} {oid : Nat} {p : PendingReq} {req : Req}

/-- What admitting `p` as `req` reserved of the pool: nothing for a continuation. -/
structure Reserves (a : PrefillAdder) (p : PendingReq) (req : Req) (a' : PrefillAdder) : Prop where
  limits : a'.stepBudget = a.stepBudget ∧ a'.maxRunningReq = a.maxRunningReq ∧
    a'.cacheBudget = a.cacheBudget
  tableIdx_eq : req.tableIdx = p.tableIdx
  deviceLen_eq : req.deviceLen = req.inputIds.length
  reserved : a'.reservedSize = a.reservedSize + if p.chunkedReq = none then p.footprint else 0
  reserved_le : p.chunkedReq = none → a'.reservedSize ≤ a.cacheBudget
  runningCount_eq : a'.runningCount = a.runningCount + if p.chunkedReq = none then 1 else 0

/-- What it took of the step's tokens besides. -/
structure Admits (a : PrefillAdder) (p : PendingReq) (req : Req) (a' : PrefillAdder) : Prop
    extends Reserves a p req a' where
  start_eq : req.cachedLen = p.processed
  extendLen_pos : 0 < req.extendLen
  extendLen_le : req.extendLen ≤ a.tokenBudget
  tokenBudget_eq : a'.tokenBudget = a.tokenBudget - req.extendLen
  /-- A prompt is cut where the budget ends. -/
  chunked : req.chunked = true → a'.tokenBudget = 0
  whole : p.chunkedReq = none → a.tokenBudget ≠ a.stepBudget → req.chunked = false

theorem addOneReq_none {row : Nat} {cached : Int} {handle : Option RadixCacheHandle} {chunked : Bool}
    (h : a.addOneReq oid p row cached handle chunked = (none, a')) : a' = a := by
  simp only [addOneReq] at h
  split at h
  · simpa using h.symm
  · simp at h

/-- The slice `_add_one_req` cuts. -/
theorem addOneReq_some {row : Nat} {cached : Int} {handle : Option RadixCacheHandle} {chunked : Bool}
    (h : a.addOneReq oid p row cached handle chunked = (some req, a')) (hbudget : 0 < a.tokenBudget)
    (h0 : 0 ≤ cached) (hlt : cached < p.inputLen) :
    a' = { a with tokenBudget := a.tokenBudget - req.extendLen } ∧ req.cachedLen = cached ∧
      0 < req.extendLen ∧ req.extendLen ≤ a.tokenBudget ∧
      (req.chunked = true → chunked = true ∧ req.extendLen = a.tokenBudget) := by
  simp only [addOneReq] at h
  split at h
  · simp at h
  · rename_i k hk
    obtain ⟨hkpos, hkle, hkb, hsplit⟩ := chunkSize_spec hk hbudget (by omega)
    simp only [Prod.mk.injEq, Option.some.injEq] at h
    obtain ⟨rfl, rfl⟩ := h
    obtain ⟨n, rfl⟩ := Int.eq_ofNat_of_zero_le h0
    obtain ⟨k, rfl⟩ := Int.eq_ofNat_of_zero_le hkpos.le
    have hlen : (sliceTo p.inputIds ((n : Int) + k)).length = n + k := by
      rw [show ((n : Int) + k) = ((n + k : Nat) : Int) by omega, sliceTo_natCast, List.length_take]
      have : p.inputLen = p.inputIds.length := rfl
      omega
    have hext : (p.newReq oid (decide ((k : Int) < (p.inputLen : Int) - n))
        (sliceTo p.inputIds ((n : Int) + k)) row n handle).extendLen = k := by
      simp only [Req.extendLen, PendingReq.newReq, hlen]
      omega
    rw [hext]
    refine ⟨rfl, rfl, hkpos, hkb, fun hc => ?_⟩
    exact hsplit (by simpa [PendingReq.newReq] using hc)

theorem tryAllocateOne_some {resource : Int} (h : a.tryAllocateOne p = (some resource, a')) :
    resource = p.cachedLen ∧
      a' = { a with
        reservedSize := a.reservedSize + (p.inputLen - p.cachedLen + p.outputLen)
        runningCount := a.runningCount + 1 } ∧
      a.reservedSize + (p.inputLen - p.cachedLen + p.outputLen) ≤ a.cacheBudget := by
  unfold tryAllocateOne at h
  split at h
  · simp at h
  · dsimp only at h
    split at h
    · simp at h
    · rename_i hle
      simp only [Prod.mk.injEq, Option.some.injEq] at h
      obtain ⟨rfl, rfl⟩ := h
      exact ⟨rfl, rfl, by omega⟩

theorem tryAllocateOne_none (h : a.tryAllocateOne p = (none, a')) : a' = a := by
  unfold tryAllocateOne at h
  split at h
  · simpa using h.symm
  · dsimp only at h
    split at h
    · simpa using h.symm
    · simp at h

theorem addOneReq_row {row : Nat} {cached : Int} {handle : Option RadixCacheHandle} {chunked : Bool}
    (h : a.addOneReq oid p row cached handle chunked = (some req, a')) :
    req.tableIdx = row ∧ req.deviceLen = req.inputIds.length ∧
      ∃ k, a' = { a with tokenBudget := a.tokenBudget - k } := by
  simp only [addOneReq] at h
  split at h
  · simp at h
  · simp only [Prod.mk.injEq, Option.some.injEq] at h
    obtain ⟨rfl, rfl⟩ := h
    exact ⟨rfl, rfl, _, rfl⟩

theorem tryAddOne_reserves (h : a.tryAddOne oid p = (some req, a')) (hok : p.Ok) :
    Reserves a p req a' := by
  unfold tryAddOne at h
  split at h
  · simp at h
  cases hchunk : p.chunkedReq with
  | some c =>
      simp only [hchunk] at h
      obtain ⟨hrow, hlen, k, rfl⟩ := addOneReq_row h
      exact
        { limits := ⟨rfl, rfl, rfl⟩
          tableIdx_eq := hrow.trans (congrArg Seat.row (hok.chunk c hchunk).2.1)
          deviceLen_eq := hlen
          reserved := by simp [hchunk]
          reserved_le := fun hnone => by
            rw [hchunk] at hnone
            cases hnone
          runningCount_eq := by simp [hchunk] }
  | none =>
      simp only [hchunk] at h
      split at h
      · simp at h
      rename_i resource a1 halloc
      obtain ⟨rfl, rfl, hfits⟩ := tryAllocateOne_some halloc
      split at h
      · simp at h
      rename_i req' a2 hadd
      simp only [Prod.mk.injEq, Option.some.injEq] at h
      obtain ⟨rfl, rfl⟩ := h
      obtain ⟨hrow, hlen, k, rfl⟩ := addOneReq_row hadd
      exact
        { limits := ⟨rfl, rfl, rfl⟩
          tableIdx_eq := hrow
          deviceLen_eq := hlen
          reserved := by rw [if_pos hchunk, PendingReq.footprint, PendingReq.rest_fresh hchunk]
          reserved_le := fun _ => hfits
          runningCount_eq := by rw [if_pos hchunk] }

theorem tryAddOne_admits (h : a.tryAddOne oid p = (some req, a')) (hok : p.Ok)
    (hne : p.inputIds ≠ []) : Admits a p req a' := by
  have hres := tryAddOne_reserves h hok
  obtain ⟨hc0, hclt⟩ := hok.cachedLen hne
  unfold tryAddOne at h
  split at h
  · simp at h
  rename_i hbudget
  cases hchunk : p.chunkedReq with
  | some c =>
      obtain ⟨-, -, -, hchi⟩ := hok.chunk c hchunk
      simp only [hchunk] at h
      obtain ⟨rfl, hstart, hpos, hle, hcut⟩ := addOneReq_some h (by omega) (by omega) (by omega)
      exact
        { toReserves := hres
          start_eq := by rw [hstart, PendingReq.processed, hchunk]
          extendLen_pos := hpos
          extendLen_le := hle
          tokenBudget_eq := rfl
          chunked := fun hc => by
            have := (hcut hc).2
            dsimp only
            omega
          whole := fun hnone => by
            rw [hchunk] at hnone
            cases hnone }
  | none =>
      simp only [hchunk] at h
      split at h
      · simp at h
      rename_i resource a1 halloc
      obtain ⟨rfl, rfl, -⟩ := tryAllocateOne_some halloc
      split at h
      · simp at h
      rename_i req' a2 hadd
      simp only [Prod.mk.injEq, Option.some.injEq] at h
      obtain ⟨rfl, rfl⟩ := h
      obtain ⟨rfl, hstart, hpos, hle, hcut⟩ := addOneReq_some hadd (by dsimp only; omega) hc0 hclt
      exact
        { toReserves := hres
          start_eq := by rw [hstart, PendingReq.processed_fresh hchunk]
          extendLen_pos := hpos
          extendLen_le := hle
          tokenBudget_eq := rfl
          chunked := fun hc => by
            have := (hcut hc).2
            dsimp only at this ⊢
            omega
          whole := fun _ hneq => by
            by_contra hc
            have := (hcut (by simpa using hc)).1
            exact hneq (by simpa using this) }

/-- A refused entry leaves the pass as it was. -/
theorem tryAddOne_refused (h : a.tryAddOne oid p = (none, a')) : a' = a := by
  unfold tryAddOne at h
  split at h
  · simpa using h.symm
  split at h
  · exact addOneReq_none h
  split at h
  · rename_i heq
    simp only [Prod.mk.injEq, true_and] at h
    rw [← h]
    exact tryAllocateOne_none heq
  · rename_i heq
    obtain ⟨-, rfl, -⟩ := tryAllocateOne_some heq
    dsimp only at h
    split at h
    · rename_i hadd
      rw [addOneReq_none hadd] at h
      simp only [Prod.mk.injEq, true_and] at h
      rw [← h]
      cases a
      simp only [undoAllocation, PrefillAdder.mk.injEq, true_and]
      omega
    · simp at h

/-- With budget left, a slice can be cut of any rest. -/
theorem addOneReq_cut {row : Nat} {cached : Int} {handle : Option RadixCacheHandle}
    (hbudget : 0 < a.tokenBudget) (hlt : cached < p.inputLen) :
    ∃ req a', a.addOneReq oid p row cached handle true = (some req, a') := by
  have hmin : ¬ min a.tokenBudget ((p.inputLen : Int) - cached) ≤ 0 := by omega
  simp only [addOneReq, chunkSize, if_true]
  rw [if_neg hmin]
  exact ⟨_, _, rfl⟩

/-- A continuation is never refused while there is budget. -/
theorem tryAddOne_continues (hok : p.Ok) (hmid : p.midChunk) (hbudget : 0 < a.tokenBudget) :
    ∃ req a', a.tryAddOne oid p = (some req, a') := by
  obtain ⟨c, hchunk⟩ := Option.ne_none_iff_exists'.mp hmid
  obtain ⟨-, -, -, hlt⟩ := hok.chunk c hchunk
  rw [tryAddOne, if_neg (by omega), hchunk]
  exact addOneReq_cut hbudget (by omega)

/-- The first prompt of a pass is refused only for its footprint or the running cap. -/
theorem tryAddOne_first (hok : p.Ok) (hne : p.inputIds ≠ []) (hfresh : p.chunkedReq = none)
    (hbudget : 0 < a.tokenBudget) (hfirst : a.tokenBudget = a.stepBudget)
    (hcap : a.runningCount < a.maxRunningReq)
    (hfits : a.reservedSize + p.footprint ≤ a.cacheBudget) :
    ∃ req a', a.tryAddOne oid p = (some req, a') := by
  obtain ⟨-, hlt⟩ := hok.cachedLen hne
  rw [PendingReq.footprint, PendingReq.rest_fresh hfresh] at hfits
  have halloc : a.tryAllocateOne p = (some p.cachedLen,
      { a with
        reservedSize := a.reservedSize + (p.inputLen - p.cachedLen + p.outputLen)
        runningCount := a.runningCount + 1 }) := by
    simp only [tryAllocateOne]
    rw [if_neg (by omega), if_neg (by omega)]
  rw [tryAddOne, if_neg (by omega), hfresh]
  simp only [halloc, hfirst, decide_true]
  have hcut : ∃ req a', PrefillAdder.addOneReq
      { a with
        reservedSize := a.reservedSize + (p.inputLen - p.cachedLen + p.outputLen)
        runningCount := a.runningCount + 1 }
      oid p p.tableIdx p.cachedLen p.cacheHandle true = (some req, a') := addOneReq_cut hbudget hlt
  obtain ⟨req, a', hadd⟩ := hcut
  simp only [hfirst] at hadd
  rw [hadd]
  exact ⟨req, a', rfl⟩

end PrefillAdder

/-! ### The pass -/

theorem admitLoop_cons_some {a a' : PrefillAdder} {oid : Nat} {p : PendingReq} {req : Req}
    (h : a.tryAddOne oid p = (some req, a')) (ps : List PendingReq) :
    (admitLoop a oid (p :: ps)).reqs = req :: (admitLoop a' (oid + 1) ps).reqs ∧
      (admitLoop a oid (p :: ps)).unadmitted = (admitLoop a' (oid + 1) ps).unadmitted ∧
      (admitLoop a oid (p :: ps)).chunkedList =
        (if req.chunked then [{ p with chunkedReq := some req }] else []) ++
          (admitLoop a' (oid + 1) ps).chunkedList := by
  rw [admitLoop, h]
  dsimp only
  split <;> exact ⟨rfl, rfl, rfl⟩

theorem admitLoop_cons_none {a a' : PrefillAdder} {oid : Nat} {p : PendingReq}
    (h : a.tryAddOne oid p = (none, a')) (hfresh : p.chunkedReq = none) (ps : List PendingReq) :
    (admitLoop a oid (p :: ps)).reqs = (admitLoop a oid ps).reqs ∧
      (admitLoop a oid (p :: ps)).unadmitted = p :: (admitLoop a oid ps).unadmitted ∧
      (admitLoop a oid (p :: ps)).chunkedList = (admitLoop a oid ps).chunkedList := by
  obtain rfl := PrefillAdder.tryAddOne_refused h
  rw [admitLoop, h, hfresh]
  exact ⟨rfl, rfl, rfl⟩

/-- A continuation without budget ends the pass. -/
theorem admitLoop_stop {a a' : PrefillAdder} {oid : Nat} {p : PendingReq}
    (h : a.tryAddOne oid p = (none, a')) (hmid : p.midChunk) (ps : List PendingReq) :
    admitLoop a oid (p :: ps) = { unadmitted := p :: ps, nextOid := oid } := by
  rw [admitLoop, h]
  exact if_pos (Option.isSome_iff_ne_none.mpr hmid)

/-- Induction along a pass: an entry is admitted, ends the pass, or is skipped. -/
theorem admitLoop_induct {P : PrefillAdder → List PendingReq → Admission → Prop}
    (nil : ∀ a oid, P a [] { nextOid := oid })
    (take : ∀ a oid p ps req a', a.tryAddOne oid p = (some req, a') →
      P a' ps (admitLoop a' (oid + 1) ps) → P a (p :: ps) (admitLoop a oid (p :: ps)))
    (stop : ∀ a oid p ps, p.midChunk → P a (p :: ps) { unadmitted := p :: ps, nextOid := oid })
    (skip : ∀ a oid p ps, a.tryAddOne oid p = (none, a) → p.chunkedReq = none →
      P a ps (admitLoop a oid ps) → P a (p :: ps) (admitLoop a oid (p :: ps))) :
    ∀ (queue : List PendingReq) (a : PrefillAdder) (oid : Nat), P a queue (admitLoop a oid queue)
  | [], a, oid => nil a oid
  | p :: ps, a, oid => by
      have ih := admitLoop_induct nil take stop skip ps
      rcases htry : a.tryAddOne oid p with ⟨_ | req, a'⟩
      · by_cases hmid : p.midChunk
        · rw [admitLoop_stop htry hmid]
          exact stop a oid p ps hmid
        · obtain rfl := PrefillAdder.tryAddOne_refused htry
          exact skip a' oid p ps htry (by simpa [PendingReq.midChunk] using hmid) (ih a' oid)
      · exact take a oid p ps req a' htry (ih a' (oid + 1))

theorem admitLoop_unadmitted_sublist (queue : List PendingReq) (a : PrefillAdder) (oid : Nat) :
    (admitLoop a oid queue).unadmitted.Sublist queue := by
  refine admitLoop_induct (P := fun _ queue adm => adm.unadmitted.Sublist queue)
    ?_ ?_ ?_ ?_ queue a oid
  · intro a oid
    exact List.Sublist.slnil
  · intro a oid p ps req a' htry ih
    rw [(admitLoop_cons_some htry ps).2.1]
    exact ih.cons p
  · intro a oid p ps hmid
    exact List.Sublist.refl _
  · intro a oid p ps htry hfresh ih
    rw [(admitLoop_cons_none htry hfresh ps).2.1]
    exact ih.cons_cons p

/-- Without tokens left nothing is admitted. -/
theorem admitLoop_spent (queue : List PendingReq) (a : PrefillAdder) (oid : Nat)
    (hspent : a.tokenBudget ≤ 0) :
    (admitLoop a oid queue).reqs = [] ∧ (admitLoop a oid queue).chunkedList = [] := by
  revert hspent
  refine admitLoop_induct
    (P := fun a _ adm => a.tokenBudget ≤ 0 → adm.reqs = [] ∧ adm.chunkedList = [])
    ?_ ?_ ?_ ?_ queue a oid
  · intro a oid _
    exact ⟨rfl, rfl⟩
  · intro a oid p ps req a' htry _ hspent
    rw [PrefillAdder.tryAddOne, if_pos hspent] at htry
    cases htry
  · intro a oid p ps _ _
    exact ⟨rfl, rfl⟩
  · intro a oid p ps htry hfresh ih hspent
    obtain ⟨hreqs, -, hchunks⟩ := admitLoop_cons_none htry hfresh ps
    rw [hreqs, hchunks]
    exact ih hspent

/-- Nonempty prompts are extended by nonempty slices. -/
theorem admitLoop_nonempty (queue : List PendingReq) (a : PrefillAdder) (oid : Nat)
    (hqueue : ∀ p ∈ queue, p.Ok ∧ p.inputIds ≠ []) :
    ∀ req ∈ (admitLoop a oid queue).reqs, req.inputIds ≠ [] := by
  revert hqueue
  refine admitLoop_induct
    (P := fun _ queue adm => (∀ p ∈ queue, p.Ok ∧ p.inputIds ≠ []) →
      ∀ req ∈ adm.reqs, req.inputIds ≠ [])
    ?_ ?_ ?_ ?_ queue a oid
  · intro a oid _ req hreq
    cases hreq
  · intro a oid p ps req a' htry ih hqueue req' hreq'
    rw [(admitLoop_cons_some htry ps).1] at hreq'
    rcases List.mem_cons.mp hreq' with rfl | hreq'
    · obtain ⟨hok, hne⟩ := hqueue p List.mem_cons_self
      have hadm := PrefillAdder.tryAddOne_admits htry hok hne
      have hpos := hadm.extendLen_pos
      have hstart := hadm.start_eq
      have hle : 0 ≤ p.processed := by
        have h0 := (hok.cachedLen hne).1
        unfold PendingReq.processed
        split
        · exact Int.natCast_nonneg _
        · exact h0
      intro hnil
      have hlen := hadm.deviceLen_eq
      rw [hnil, List.length_nil] at hlen
      unfold Req.extendLen at hpos
      omega
    · exact ih (fun q hq => hqueue q (List.mem_cons_of_mem _ hq)) req' hreq'
  · intro a oid p ps _ _ req hreq
    cases hreq
  · intro a oid p ps htry hfresh ih hqueue
    rw [(admitLoop_cons_none htry hfresh ps).1]
    exact ih fun q hq => hqueue q (List.mem_cons_of_mem _ hq)

/-- A pass extends by at most its tokens, and splits at most one prompt. -/
theorem admitLoop_slices (queue : List PendingReq) (a : PrefillAdder) (oid : Nat)
    (hqueue : ∀ p ∈ queue, p.Ok) (hreqs : ∀ req ∈ (admitLoop a oid queue).reqs, req.inputIds ≠ [])
    (hbudget : 0 ≤ a.tokenBudget) :
    ((admitLoop a oid queue).reqs.map Req.extendLen).sum ≤ a.tokenBudget ∧
      (admitLoop a oid queue).chunkedList.length ≤ 1 := by
  revert hqueue hreqs hbudget
  refine admitLoop_induct
    (P := fun a queue adm => (∀ p ∈ queue, p.Ok) → (∀ req ∈ adm.reqs, req.inputIds ≠ []) →
      0 ≤ a.tokenBudget →
      (adm.reqs.map Req.extendLen).sum ≤ a.tokenBudget ∧ adm.chunkedList.length ≤ 1)
    ?_ ?_ ?_ ?_ queue a oid
  · intro a oid _ _ hbudget
    exact ⟨hbudget, Nat.zero_le _⟩
  · intro a oid p ps req a' htry ih hqueue hne hbudget
    obtain ⟨hreqs, -, hchunks⟩ := admitLoop_cons_some htry ps
    rw [hreqs] at hne ⊢
    rw [hchunks, List.map_cons, List.sum_cons]
    have hok := hqueue p List.mem_cons_self
    have hprompt : p.inputIds ≠ [] := fun hnil =>
      hne req List.mem_cons_self ((PrefillAdder.tryAddOne_spec htry hok).2.2.2 hnil)
    have hadm := PrefillAdder.tryAddOne_admits htry hok hprompt
    have hle := hadm.extendLen_le
    have htokens := hadm.tokenBudget_eq
    obtain ⟨hsum, hlen⟩ := ih (fun q hq => hqueue q (List.mem_cons_of_mem _ hq))
      (fun r hr => hne r (List.mem_cons_of_mem _ hr)) (by omega)
    refine ⟨by omega, ?_⟩
    split
    · rename_i hc
      -- the cut spent the budget
      rw [(admitLoop_spent ps a' (oid + 1) (hadm.chunked hc).le).2]
      simp
    · simpa using hlen
  · intro a oid p ps _ _ _ hbudget
    exact ⟨hbudget, Nat.zero_le _⟩
  · intro a oid p ps htry hfresh ih hqueue
    obtain ⟨hreqs, -, hchunks⟩ := admitLoop_cons_none htry hfresh ps
    rw [hreqs, hchunks]
    exact ih fun q hq => hqueue q (List.mem_cons_of_mem _ hq)

/-- Only the first entry may be half way through its prompt. -/
def HeadOnly (queue : List PendingReq) : Prop := ∀ p ∈ queue.tail, p.chunkedReq = none

theorem HeadOnly.sublist {queue queue' : List PendingReq} (h : HeadOnly queue)
    (hsub : queue'.Sublist queue) : HeadOnly queue' :=
  fun p hp => h p (hsub.tail.subset hp)

theorem HeadOnly.concat {queue : List PendingReq} (h : HeadOnly queue) {p : PendingReq}
    (hp : p.chunkedReq = none) : HeadOnly (queue ++ [p]) := by
  intro q hq
  cases queue with
  | nil => cases hq
  | cons p0 ps =>
      rcases List.mem_append.mp hq with hq | hq
      · exact h q hq
      · rw [List.mem_singleton.mp hq]
        exact hp

/-- A pass that admits something leaves only fresh entries behind. -/
theorem admitLoop_unadmitted_fresh {queue : List PendingReq} {a : PrefillAdder} {oid : Nat}
    (hhead : HeadOnly queue) (hne : (admitLoop a oid queue).reqs ≠ []) :
    ∀ p ∈ (admitLoop a oid queue).unadmitted, p.chunkedReq = none := by
  intro q hq
  cases queue with
  | nil => cases hq
  | cons p ps =>
      have hps : ∀ q ∈ ps, q.chunkedReq = none := hhead
      rcases htry : a.tryAddOne oid p with ⟨_ | req, a'⟩
      · by_cases hmid : p.midChunk
        · rw [admitLoop_stop htry hmid] at hne
          exact absurd rfl hne
        · have hfresh : p.chunkedReq = none := by simpa [PendingReq.midChunk] using hmid
          rw [(admitLoop_cons_none htry hfresh ps).2.1] at hq
          rcases List.mem_cons.mp hq with rfl | hq
          · exact hfresh
          · exact hps q ((admitLoop_unadmitted_sublist ps a oid).subset hq)
      · rw [(admitLoop_cons_some htry ps).2.1] at hq
        exact hps q ((admitLoop_unadmitted_sublist ps a' (oid + 1)).subset hq)

namespace Scheduler

variable {s : Scheduler}

/-- The budgets of the pass `schedule` makes. -/
def adder (s : Scheduler) : PrefillAdder where
  tokenBudget := s.maxExtendTokens
  stepBudget := s.maxExtendTokens
  reservedSize := s.decodeManager.inflightTokens
  maxRunningReq := s.prefillManager.maxRunningReq
  cacheBudget := s.prefillManager.cacheBudget
  runningCount := s.runningReqs.length

/-- The pass itself. -/
def pass (s : Scheduler) : Admission := admitLoop s.adder s.prefillManager.nextOid s.pendingList

/-- A pass that admits something becomes the batch. -/
theorem schedule_of_pass (h : s.pass.reqs ≠ []) : s.schedule =
    some ({ reqs := s.pass.reqs, phase := .prefill },
      { s with prefillManager := { s.prefillManager with
          pendingList := s.pass.chunkedList ++ s.pass.unadmitted
          nextOid := s.pass.nextOid } }) := by
  have hne : s.prefillManager.pendingList ≠ [] := by
    intro hnil
    apply h
    rw [pass, pendingList, hnil]
    rfl
  have hpass : ¬ s.pass.reqs.isEmpty = true := by simpa using h
  have hbatch : s.prefillManager.scheduleNextBatch s.decodeManager.inflightTokens
      s.runningReqs.length s.maxExtendTokens =
      some ({ reqs := s.pass.reqs, phase := .prefill },
        { s.prefillManager with
          pendingList := s.pass.chunkedList ++ s.pass.unadmitted
          nextOid := s.pass.nextOid }) := by
    rw [PrefillManager.scheduleNextBatch, if_neg (by simpa using hne)]
    exact if_neg hpass
  rw [schedule, hbatch]

/-- Otherwise the running set goes on. -/
theorem schedule_of_no_pass (h : s.pass.reqs = []) : s.schedule =
    s.decodeManager.scheduleNextBatch.map fun batch => (batch, s) := by
  unfold schedule PrefillManager.scheduleNextBatch
  split
  · rename_i hsome
    split at hsome
    · cases hsome
    · dsimp only at hsome
      split at hsome
      · cases hsome
      · rename_i hne
        exact absurd (List.isEmpty_iff.mpr h) hne
  · rfl

/-- A prefill batch is a pass that admitted something. -/
theorem schedule_prefill {batch : Batch} {s1 : Scheduler} (h : s.schedule = some (batch, s1))
    (hphase : batch.phase = .prefill) : s.pass.reqs ≠ [] ∧ batch.reqs = s.pass.reqs ∧
      s1.pendingList = s.pass.chunkedList ++ s.pass.unadmitted := by
  by_cases hpass : s.pass.reqs = []
  · rw [schedule_of_no_pass hpass] at h
    obtain ⟨batch', hdecode, heq⟩ := Option.map_eq_some_iff.mp h
    obtain ⟨rfl, -⟩ := Prod.mk.inj heq
    rw [DecodeManager.scheduleNextBatch] at hdecode
    split at hdecode
    · cases hdecode
    · rw [← Option.some.inj hdecode] at hphase
      cases hphase
  · rw [schedule_of_pass hpass] at h
    obtain ⟨rfl, rfl⟩ := Prod.mk.inj (Option.some.inj h)
    exact ⟨hpass, rfl, rfl⟩

/-- The queue after a step: at most one chunk, then fresh entries. -/
theorem headOnly_schedule (hhead : HeadOnly s.pendingList) (hs : s.Ok) {batch : Batch}
    {s1 : Scheduler} (h : s.schedule = some (batch, s1))
    (hids : ∀ req ∈ batch.reqs, req.inputIds ≠ []) : HeadOnly s1.pendingList := by
  by_cases hpass : s.pass.reqs = []
  · rw [schedule_of_no_pass hpass] at h
    obtain ⟨batch', -, heq⟩ := Option.map_eq_some_iff.mp h
    obtain ⟨-, rfl⟩ := Prod.mk.inj heq
    exact hhead
  · rw [schedule_of_pass hpass] at h
    obtain ⟨rfl, rfl⟩ := Prod.mk.inj (Option.some.inj h)
    have hfresh := admitLoop_unadmitted_fresh hhead hpass
    have hlen := (admitLoop_slices s.pendingList s.adder s.prefillManager.nextOid hs.pending_ok hids
      (Int.natCast_nonneg _)).2
    change HeadOnly (s.pass.chunkedList ++ s.pass.unadmitted)
    intro p hp
    cases hchunks : s.pass.chunkedList with
    | nil =>
        rw [hchunks] at hp
        exact hfresh p (List.mem_of_mem_tail hp)
    | cons c cs =>
        have hcs : cs = [] := by
          rw [← pass, hchunks, List.length_cons] at hlen
          exact List.eq_nil_of_length_eq_zero (by omega)
        rw [hchunks, hcs] at hp
        exact hfresh p hp

theorem schedule_ne_none_of_running (h : s.runningReqs ≠ []) : s.schedule ≠ none := by
  by_cases hpass : s.pass.reqs = []
  · have hne : ¬ s.decodeManager.runningReqs.isEmpty = true := fun hempty =>
      h (List.isEmpty_iff.mp hempty)
    rw [schedule_of_no_pass hpass, DecodeManager.scheduleNextBatch, if_neg hne]
    simp
  · rw [schedule_of_pass hpass]
    simp

end Scheduler

end FreeToken
