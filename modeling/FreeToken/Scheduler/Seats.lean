import FreeToken.Scheduler.Scheduler

/-!
# Seats: what a request keeps while it is live

A live request is a queued entry or a running request. Its `Seat` is what stays
with it from admission to completion: the uid, the page-table row, the locked
handle and the linear-state slots. Admission picks entries of the queue and
extends each by a slice of its prompt (`Extends`).
-/

namespace FreeToken

structure Seat where
  uid : Int
  row : Nat
  handle : Option RadixCacheHandle
  linearSlotIdx : Option Slot
  mambaPingPong : Option (Slot × Slot)
deriving DecidableEq, Repr

def PendingReq.seat (p : PendingReq) : Seat where
  uid := p.uid
  row := p.tableIdx
  handle := p.cacheHandle
  linearSlotIdx := p.linearSlotIdx
  mambaPingPong := p.mambaPingPong

def Req.seat (r : Req) : Seat where
  uid := r.uid
  row := r.tableIdx
  handle := r.cacheHandle
  linearSlotIdx := r.linearSlotIdx
  mambaPingPong := r.mambaPingPong

/-- How far a queued prompt has been prefilled. -/
def PendingReq.processed (p : PendingReq) : Int :=
  match p.chunkedReq with
  | some chunk => chunk.deviceLen
  | none => p.cachedLen

/-- A queued entry between two steps. -/
structure PendingReq.Ok (p : PendingReq) : Prop where
  cachedLen_le : p.cachedLen ≤ p.inputLen
  cachedLen : p.inputIds ≠ [] → 0 ≤ p.cachedLen ∧ p.cachedLen < p.inputLen
  chunk : ∀ c, p.chunkedReq = some c → p.inputIds ≠ [] ∧ c.seat = p.seat ∧
    p.cachedLen < c.deviceLen ∧ c.deviceLen < p.inputLen

/-- A running request between two steps. -/
structure Req.Running (r : Req) : Prop where
  not_chunked : r.chunked = false
  not_aborted : r.aborted = false
  lt_maxDeviceLen : r.deviceLen < r.maxDeviceLen

theorem Req.Running.canDecode {r : Req} (h : r.Running) : r.canDecode = true := by
  have hlt : 0 < r.remainLen := by
    have := h.lt_maxDeviceLen
    unfold Req.remainLen
    omega
  simp [Req.canDecode, h.not_chunked, h.not_aborted, hlt]

theorem PendingReq.Ok.row_eq {p : PendingReq} (h : p.Ok) : p.row = p.tableIdx := by
  unfold PendingReq.row
  cases hc : p.chunkedReq with
  | none => rfl
  | some c => exact congrArg Seat.row (h.chunk c hc).2.1

/-! ### Extending a prompt -/

/-- `req` is the request admission builds for the entry `p`: the next slice of
its prompt, final exactly when it reaches the end. -/
structure Extends (budget : Nat) (p : PendingReq) (req : Req) : Prop where
  seat_eq : req.seat = p.seat
  cachedLen_eq : req.cachedLen = p.processed
  processed_nonneg : 0 ≤ p.processed
  processed_lt : p.processed < req.deviceLen
  deviceLen_le : req.deviceLen ≤ p.inputLen
  inputIds_eq : req.inputIds = p.inputIds.take req.deviceLen
  chunked_eq : req.chunked = decide (req.deviceLen < p.inputLen)
  maxDeviceLen_eq : req.maxDeviceLen = req.deviceLen + p.outputLen.toNat
  samplingParams_eq : req.samplingParams = p.samplingParams
  restoreSrc_eq : req.mambaRestoreSrc = p.mambaRestoreSrc
  not_aborted : req.aborted = false
  no_anchor : req.toolcallAnchorLen = none
  no_track : req.mambaLastTrackSeqlen = none ∧ req.mambaNextTrackIdx = 0
  /-- A slice never exceeds the step's budget, and a prompt is split only when
  what is left of it does. -/
  slice_le : req.deviceLen - p.processed ≤ budget
  fresh_chunked : p.chunkedReq = none → req.chunked = true → (budget : Int) < p.inputLen - p.cachedLen

/-- A split entry goes back to the queue with its chunk. -/
theorem PendingReq.Ok.extend {budget : Nat} {p : PendingReq} {req : Req} (hp : p.Ok)
    (h : Extends budget p req) (hc : req.chunked = true) :
    PendingReq.Ok { p with chunkedReq := some req } := by
  have hlt := h.processed_lt
  have hchunked := h.chunked_eq
  rw [hc, eq_comm, decide_eq_true_iff] at hchunked
  have hne : p.inputIds ≠ [] := by
    intro hnil
    simp [PendingReq.inputLen, hnil] at hchunked
  have hle : p.cachedLen ≤ p.processed := by
    unfold PendingReq.processed
    split
    · rename_i c hchunk
      exact (hp.chunk c hchunk).2.2.1.le
    · exact Int.le_refl _
  refine ⟨hp.cachedLen_le, hp.cachedLen, fun c hsome => ?_⟩
  obtain rfl : req = c := Option.some.inj hsome
  exact ⟨hne, h.seat_eq, by dsimp only; omega, hchunked⟩

/-- The slice `_add_one_req` cuts for a prompt that has `remain` tokens left. -/
theorem extends_newReq {budget : Nat} {p : PendingReq} {oid n k row : Nat}
    {handle : Option RadixCacheHandle} (hseat : row = p.tableIdx ∧ handle = p.cacheHandle)
    (hn : p.processed = n) (hk : 0 < k) (hle : n + k ≤ p.inputLen) (hbudget : k ≤ budget)
    (hfresh : p.chunkedReq = none → n + k < p.inputLen → (budget : Int) < p.inputLen - p.cachedLen) :
    Extends budget p (p.newReq oid (decide ((k : Int) < (p.inputLen : Int) - n))
      (sliceTo p.inputIds ((n : Int) + k)) row n handle) := by
  have hslice : sliceTo p.inputIds ((n : Int) + k) = p.inputIds.take (n + k) := by
    rw [← Int.natCast_add, sliceTo_natCast]
  have hlen : (p.inputIds.take (n + k)).length = n + k := by
    rw [List.length_take]
    exact Nat.min_eq_left hle
  rw [hslice]
  refine
    { seat_eq := by simp [Req.seat, PendingReq.seat, PendingReq.newReq, hseat.1, hseat.2]
      cachedLen_eq := hn.symm
      processed_nonneg := by omega
      processed_lt := ?_
      deviceLen_le := ?_
      inputIds_eq := ?_
      chunked_eq := ?_
      maxDeviceLen_eq := rfl
      samplingParams_eq := rfl
      restoreSrc_eq := rfl
      not_aborted := rfl
      no_anchor := rfl
      no_track := ⟨rfl, rfl⟩
      slice_le := ?_
      fresh_chunked := ?_ }
  · simp only [PendingReq.newReq, hlen]
    omega
  · simp only [PendingReq.newReq, hlen]
    exact hle
  · simp only [PendingReq.newReq, hlen]
  · simp only [PendingReq.newReq, hlen]
    rw [decide_eq_decide]
    omega
  · simp only [PendingReq.newReq, hlen]
    omega
  · intro hnone hchunk
    simp only [PendingReq.newReq, decide_eq_true_eq] at hchunk
    exact hfresh hnone (by omega)

namespace PrefillAdder

theorem chunkSize_spec {a : PrefillAdder} {remain k : Int} {chunked : Bool}
    (h : a.chunkSize remain chunked = some k) (hbudget : 0 < a.tokenBudget) (hremain : 0 < remain) :
    0 < k ∧ k ≤ remain ∧ k ≤ a.tokenBudget ∧
      (k < remain → chunked = true ∧ k = a.tokenBudget) := by
  unfold chunkSize at h
  split at h
  · rename_i hchunked
    split at h
    · cases h
    · rename_i hpos
      obtain rfl : min a.tokenBudget remain = k := by simpa using h
      rcases Int.le_total a.tokenBudget remain with hle | hle
      · rw [Int.min_eq_left hle] at hpos ⊢
        exact ⟨by omega, hle, Int.le_refl _, fun _ => ⟨hchunked, rfl⟩⟩
      · rw [Int.min_eq_right hle] at hpos ⊢
        exact ⟨by omega, Int.le_refl _, hle, fun hlt => absurd hlt (Int.lt_irrefl _)⟩
  · split at h
    · cases h
    · obtain rfl : remain = k := by simpa using h
      omega

/-- An admitted entry with a nonempty prompt is extended by a slice of it. -/
theorem tryAddOne_extends {a a' : PrefillAdder} {oid budget : Nat} {p : PendingReq} {req : Req}
    (h : a.tryAddOne oid p = (some req, a')) (hok : p.Ok) (hne : p.inputIds ≠ [])
    (hstep : a.stepBudget = budget) (hle : a.tokenBudget ≤ a.stepBudget) :
    Extends budget p req := by
  obtain ⟨hc0, hclt⟩ := hok.cachedLen hne
  unfold tryAddOne at h
  split at h
  · simp at h
  · rename_i hbudget
    cases hchunk : p.chunkedReq with
    | some c =>
        obtain ⟨-, hseat, hclo, hchi⟩ := hok.chunk c hchunk
        simp only [hchunk, addOneReq] at h
        split at h
        · simp at h
        · rename_i k hk
          obtain ⟨hkpos, hkle, hkb, -⟩ := chunkSize_spec hk (by omega) (by omega)
          obtain ⟨k, rfl⟩ := Int.eq_ofNat_of_zero_le hkpos.le
          simp only [Prod.mk.injEq, Option.some.injEq] at h
          obtain ⟨rfl, -⟩ := h
          refine extends_newReq ⟨congrArg Seat.row hseat, congrArg Seat.handle hseat⟩
            (by simp [PendingReq.processed, hchunk]) (by omega) (by omega) (by omega) ?_
          intro hnone
          rw [hchunk] at hnone
          cases hnone
    | none =>
        obtain ⟨n, hn⟩ := Int.eq_ofNat_of_zero_le hc0
        simp only [hchunk] at h
        split at h
        · simp at h
        · rename_i resource a1 halloc
          obtain ⟨rfl, ha1⟩ : resource = p.cachedLen ∧
              a1.tokenBudget = a.tokenBudget ∧ a1.stepBudget = a.stepBudget := by
            unfold tryAllocateOne at halloc
            split at halloc
            · simp at halloc
            · dsimp only at halloc
              split at halloc
              · simp at halloc
              · simp only [Prod.mk.injEq, Option.some.injEq] at halloc
                obtain ⟨rfl, rfl⟩ := halloc
                exact ⟨rfl, rfl, rfl⟩
          split at h
          · simp at h
          · rename_i req' a2 hadd
            simp only [Prod.mk.injEq, Option.some.injEq] at h
            obtain ⟨rfl, -⟩ := h
            simp only [addOneReq] at hadd
            split at hadd
            · simp at hadd
            · rename_i k hk
              obtain ⟨hkpos, hkle, hkb, hsplit⟩ := chunkSize_spec hk (by omega) (by omega)
              obtain ⟨k, rfl⟩ := Int.eq_ofNat_of_zero_le hkpos.le
              simp only [Prod.mk.injEq, Option.some.injEq] at hadd
              obtain ⟨rfl, -⟩ := hadd
              rw [hn] at hkle hsplit hclt ⊢
              refine extends_newReq ⟨rfl, rfl⟩ (by simp [PendingReq.processed, hchunk, hn])
                (by omega) (by omega) (by omega) ?_
              intro _ hlt
              -- a fresh prompt is split only as the first of the step, at the whole budget
              obtain ⟨hfirst, hkeq⟩ := hsplit (by omega)
              have hfirst : a1.tokenBudget = a1.stepBudget := by simpa using hfirst
              rw [hn]
              omega

/-- Whatever the entry, the new request gets the next identity, the step's budget
stays and the token budget does not grow. -/
theorem tryAddOne_spec {a a' : PrefillAdder} {oid : Nat} {p : PendingReq} {req : Req}
    (h : a.tryAddOne oid p = (some req, a')) (hok : p.Ok) :
    req.oid = oid ∧ a'.stepBudget = a.stepBudget ∧ a'.tokenBudget ≤ a.tokenBudget ∧
      (p.inputIds = [] → req.inputIds = []) := by
  have hadd : ∀ {b b' : PrefillAdder} {row : Nat} {cached : Int} {handle chunked} {req : Req},
      cached ≤ p.inputLen → b.addOneReq oid p row cached handle chunked = (some req, b') →
      req.oid = oid ∧ b'.stepBudget = b.stepBudget ∧ b'.tokenBudget ≤ b.tokenBudget ∧
        (p.inputIds = [] → req.inputIds = []) := by
    intro b b' row cached handle chunked req hcached h
    simp only [addOneReq] at h
    split at h
    · simp at h
    · rename_i k hk
      simp only [Prod.mk.injEq, Option.some.injEq] at h
      obtain ⟨rfl, rfl⟩ := h
      have hk0 : 0 ≤ k := by
        unfold chunkSize at hk
        split at hk
        · split at hk
          · cases hk
          · rename_i hpos
            obtain rfl : min b.tokenBudget (p.inputLen - cached) = k := by simpa using hk
            omega
        · split at hk
          · cases hk
          · obtain rfl : p.inputLen - cached = k := by simpa using hk
            omega
      refine ⟨rfl, rfl, by dsimp only; omega, fun hnil => ?_⟩
      simp [PendingReq.newReq, sliceTo, hnil]
  unfold tryAddOne at h
  split at h
  · simp at h
  · cases hchunk : p.chunkedReq with
    | some c =>
        have hlt := (hok.chunk c hchunk).2.2.2
        simp only [hchunk] at h
        exact hadd (by omega) h
    | none =>
        simp only [hchunk] at h
        split at h
        · simp at h
        · rename_i resource a1 halloc
          obtain ⟨rfl, hstep, htoken⟩ : resource = p.cachedLen ∧
              a1.stepBudget = a.stepBudget ∧ a1.tokenBudget = a.tokenBudget := by
            unfold tryAllocateOne at halloc
            split at halloc
            · simp at halloc
            · dsimp only at halloc
              split at halloc
              · simp at halloc
              · simp only [Prod.mk.injEq, Option.some.injEq] at halloc
                obtain ⟨rfl, rfl⟩ := halloc
                exact ⟨rfl, rfl, rfl⟩
          split at h
          · simp at h
          · rename_i req' a2 hadd'
            simp only [Prod.mk.injEq, Option.some.injEq] at h
            obtain ⟨rfl, rfl⟩ := h
            obtain ⟨h1, h2, h3, h4⟩ := hadd hok.cachedLen_le hadd'
            exact ⟨h1, h2.trans hstep, htoken ▸ h3, h4⟩

theorem tryAddOne_none {a a' : PrefillAdder} {oid : Nat} {p : PendingReq}
    (h : a.tryAddOne oid p = (none, a')) :
    a'.stepBudget = a.stepBudget ∧ a'.tokenBudget = a.tokenBudget := by
  have hadd : ∀ {b b' : PrefillAdder} {row : Nat} {cached : Int} {handle chunked},
      b.addOneReq oid p row cached handle chunked = (none, b') → b' = b := by
    intro b b' row cached handle chunked h
    simp only [addOneReq] at h
    split at h
    · simpa using h.symm
    · simp at h
  have halloc : (a.tryAllocateOne p).2.stepBudget = a.stepBudget ∧
      (a.tryAllocateOne p).2.tokenBudget = a.tokenBudget := by
    unfold tryAllocateOne
    split
    · exact ⟨rfl, rfl⟩
    · dsimp only
      split <;> exact ⟨rfl, rfl⟩
  unfold tryAddOne at h
  split at h
  · obtain rfl : a = a' := by simpa using h
    exact ⟨rfl, rfl⟩
  · split at h
    · rw [hadd h]
      exact ⟨rfl, rfl⟩
    · split at h
      · rename_i heq
        simp only [Prod.mk.injEq, true_and] at h
        rw [heq] at halloc
        exact h ▸ halloc
      · rename_i heq
        rw [heq] at halloc
        dsimp only at h
        split at h
        · rename_i hadd'
          simp only [Prod.mk.injEq, true_and] at h
          obtain rfl := h
          rw [hadd hadd']
          exact halloc
        · simp at h

end PrefillAdder

/-! ### One pass over the queue -/

/-- What `admitLoop` made of the queue: `picked` are the entries it admitted,
each with its new request. -/
structure Admitted (budget oid : Nat) (queue : List PendingReq) (adm : Admission)
    (picked : List (PendingReq × Req)) : Prop where
  reqs_eq : adm.reqs = picked.map Prod.snd
  chunkedList_eq : adm.chunkedList =
    (picked.filter fun x => x.2.chunked).map fun x => { x.1 with chunkedReq := some x.2 }
  queue_perm : queue.Perm (picked.map Prod.fst ++ adm.unadmitted)
  oids_eq : picked.map (fun x => x.2.oid) = List.range' oid picked.length
  nextOid_eq : adm.nextOid = oid + picked.length
  extends_of_ne_nil : ∀ x ∈ picked, x.1.inputIds ≠ [] → Extends budget x.1 x.2
  empty : ∀ x ∈ picked, x.1.inputIds = [] → x.2.inputIds = []

theorem admitLoop_spec {budget : Nat} :
    ∀ (queue : List PendingReq) (a : PrefillAdder) (oid : Nat), (∀ p ∈ queue, p.Ok) →
      a.stepBudget = budget → a.tokenBudget ≤ a.stepBudget →
      ∃ picked, Admitted budget oid queue (admitLoop a oid queue) picked
  | [], a, oid, _, _, _ =>
      ⟨[], rfl, rfl, List.Perm.nil, rfl, rfl, by simp, by simp⟩
  | p :: ps, a, oid, hok, hstep, hle => by
      have hp := hok p List.mem_cons_self
      have hps : ∀ q ∈ ps, q.Ok := fun q hq => hok q (List.mem_cons_of_mem _ hq)
      simp only [admitLoop]
      split
      · rename_i req a' htry
        obtain ⟨hoid, hstep', hle', hempty⟩ := PrefillAdder.tryAddOne_spec htry hp
        obtain ⟨picked, ih⟩ := admitLoop_spec ps a' (oid + 1) hps (hstep'.trans hstep) (by omega)
        have hext : ∀ x ∈ (p, req) :: picked, x.1.inputIds ≠ [] → Extends budget x.1 x.2 := by
          intro x hx hne
          rcases List.mem_cons.mp hx with rfl | hx
          · exact PrefillAdder.tryAddOne_extends htry hp hne hstep hle
          · exact ih.extends_of_ne_nil x hx hne
        have hnil : ∀ x ∈ (p, req) :: picked, x.1.inputIds = [] → x.2.inputIds = [] := by
          intro x hx
          rcases List.mem_cons.mp hx with rfl | hx
          · exact hempty
          · exact ih.empty x hx
        have hoids : ((p, req) :: picked).map (fun x => x.2.oid) =
            List.range' oid ((p, req) :: picked).length := by
          rw [List.map_cons, ih.oids_eq, List.length_cons, List.range'_succ, hoid]
        have hnext : (admitLoop a' (oid + 1) ps).nextOid = oid + ((p, req) :: picked).length := by
          rw [ih.nextOid_eq, List.length_cons]
          omega
        refine ⟨(p, req) :: picked, ?_⟩
        split
        · rename_i hc
          exact ⟨by simp [ih.reqs_eq], by simp [hc, ih.chunkedList_eq], ih.queue_perm.cons p,
            hoids, hnext, hext, hnil⟩
        · rename_i hc
          exact ⟨by simp [ih.reqs_eq], by simp [hc, ih.chunkedList_eq], ih.queue_perm.cons p,
            hoids, hnext, hext, hnil⟩
      · rename_i a' htry
        obtain ⟨hstep', hle'⟩ := PrefillAdder.tryAddOne_none htry
        split
        · exact ⟨[], rfl, rfl, List.Perm.refl _, rfl, rfl, by simp, by simp⟩
        · obtain ⟨picked, ih⟩ := admitLoop_spec ps a' oid hps (hstep'.trans hstep) (by omega)
          exact ⟨picked, ih.reqs_eq, ih.chunkedList_eq,
            (ih.queue_perm.cons p).trans List.perm_middle.symm, ih.oids_eq, ih.nextOid_eq,
            ih.extends_of_ne_nil, ih.empty⟩

end FreeToken
