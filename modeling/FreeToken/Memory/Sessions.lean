import Mathlib.Data.List.Pairwise
import FreeToken.Memory.Written
import FreeToken.Engine.Answers
import FreeToken.Lib.CausalModel
import FreeToken.Engine.Conservation
import FreeToken.Engine.RowStates

/-!
# Sessions: an engine with a model and its memory

In a session a causal model computes the K/V of every token from what the request's page-table
row reads, puts it into the pool, and gives the token of the greedy requests. What the sampler
draws for the others is an input. What was asked is kept by row, and a finished request's answer
is what was sampled after its prompt.

Requests do not see each other. Every position past a request's admitted prefix has a slot of its
own, and the prefix is read from slots that no live request owns. So a forward puts nothing where
another request, or an earlier position, is read, and each row holds the values of its own tokens
through the run.
-/

namespace FreeToken

/-- What is asked of a session; a step comes with what the sampler draws where it draws. -/
inductive Ask where
  | add (args : AddArgs)
  | step (drawn : Nat → Token)
  | abort (uid : Int)

/-- A slice of a batch, with the row it reads through. -/
def Slice.share (pageTable : Nat → Nat → Slot) (s : Slice) : CausalModel.Share Token Slot where
  row := pageTable s.tableIdx
  start := s.start
  toks := s.tokens

/-- A slice goes into slots of the pool, and no position of it has the slot of an earlier one. -/
structure Slice.Placed (pageTable : Nat → Nat → Slot) (numSlots maxSeqLen : Nat) (s : Slice) :
    Prop where
  stop_le : s.start + s.tokens.length ≤ maxSeqLen
  slot_lt : ∀ p < s.start + s.tokens.length, pageTable s.tableIdx p < numSlots
  fresh : ∀ p, s.start ≤ p → p < s.start + s.tokens.length → ∀ j < p,
    pageTable s.tableIdx j ≠ pageTable s.tableIdx p

/-- The batch that the next step runs. -/
def Engine.nextBatch (e : Engine) : Batch :=
  match e.scheduler.schedule with
  | none => { reqs := [], phase := .decode }
  | some (batch, _) => batch

/-- `sampling_args.temperature == 0`. -/
def AddArgs.Greedy (args : AddArgs) : Prop := args.samplingParams.temperature = 0

instance (args : AddArgs) : Decidable args.Greedy := inferInstanceAs (Decidable (_ = (0 : Rat)))

structure Session (V : Type) where
  engine : Engine
  /-- The K/V in the pool. -/
  mem : Slot → V
  transcript : Transcript := fun _ => []
  /-- What the request at a row was asked with. -/
  asked : Nat → AddArgs
  /-- What was asked, and the answer. -/
  answers : List (AddArgs × List Token) := []

namespace Session

variable {V : Type} (m : CausalModel Token V)

/-- A fresh engine, over a pool with anything in it. -/
def init (config : EngineConfig) (mem : Slot → V) : Session V where
  engine := Engine.init config
  mem := mem
  asked := fun _ => { uid := 0, inputIds := [], samplingParams := { maxTokens := 0 } }

/-- The memory after the forward of the next step, and the greedy token of each request. -/
def forward (s : Session V) : (Slot → V) × List Token :=
  let batch := s.engine.nextBatch
  m.forward s.mem
    (((slicesOf batch.phase batch.reqs).getD []).map (Slice.share s.engine.pageTable))

/-- The token sampled for the request at an index of the batch. -/
def sampled (s : Session V) (drawn : Nat → Token) (b : Nat) : Token :=
  match s.engine.nextBatch.reqs[b]? with
  | none => drawn b
  | some req =>
      if req.samplingParams.temperature = 0 then (s.forward m).2.getD b 0 else drawn b

/-- The answers of the requests that a step finished. -/
def finish (s : Session V) (out : Engine.StepOutput) : List (AddArgs × List Token) :=
  out.finished.map fun f => (s.asked f.tableIdx,
    (Engine.StepRun.transcript out s.transcript f.tableIdx).drop
      (s.asked f.tableIdx).inputIds.length)

/-- One call; a `step` or an `abort_request` that raises ends the session. -/
def next (s : Session V) : Ask → Option (Session V)
  | .add args =>
      match s.engine.addRequest args with
      | (.ok p, e) =>
          some { s with engine := e, asked := Function.update s.asked p.tableIdx args }
      | (.error _, e) => some { s with engine := e }
  | .step drawn =>
      match s.engine.step (s.sampled m drawn) with
      | .error _ => none
      | .ok (out, e) =>
          some
            { engine := e
              mem := (s.forward m).1
              transcript := Engine.StepRun.transcript out s.transcript
              asked := s.asked
              answers := s.answers ++ s.finish out }
  | .abort uid =>
      match s.engine.abortRequest uid with
      | .error _ => none
      | .ok (_, e) => some { s with engine := e }

/-- An `add_request` that raises does so before it queues anything, and with the prefix cache on
a step commits written slots only. -/
def Orderly (s : Session V) : Ask → Prop
  | .add args => (∃ p, (s.engine.addRequest args).1 = .ok p) ∨
      (s.engine.addRequest args).2.scheduler.pendingList = s.engine.scheduler.pendingList
  | .step drawn => s.engine.config.enablePrefixCache = true →
      ∀ ids ∈ s.engine.finishingIds s.transcript (s.sampled m drawn),
        WriteLoc.pageTable.Stores s.engine ids
  | .abort _ => True

instance (s : Session V) (a : Ask) : Decidable (s.Orderly m a) :=
  match a with
  | .add args =>
      have : Decidable (∃ p, (s.engine.addRequest args).1 = .ok p) :=
        match (s.engine.addRequest args).1 with
        | .ok p => isTrue ⟨p, rfl⟩
        | .error _ => isFalse fun ⟨_, h⟩ => nomatch h
      inferInstanceAs (Decidable (_ ∨ _))
  | .step drawn => inferInstanceAs (Decidable (s.engine.config.enablePrefixCache = true →
      ∀ ids ∈ s.engine.finishingIds s.transcript (s.sampled m drawn),
        WriteLoc.pageTable.Stores s.engine ids))
  | .abort _ => isTrue trivial

/-- The token ends an answer. -/
def stops (eosTokenId : Int) (params : SamplingParams) (tok : Token) : Bool :=
  decide ((tok : Int) = eosTokenId) && !params.ignoreEos

/-- The greedy answer to a prompt on its own: no batch, no chunks, no memory to share. -/
def plain (eosTokenId : Int) (args : AddArgs) : List Token :=
  m.decode (stops eosTokenId args.samplingParams) args.inputIds
    (max 1 args.samplingParams.maxTokens.toNat)

end Session

namespace Engine

variable {e e' : Engine} {t : Transcript} {orphans : List RadixCacheHandle} {lost : List Slot}

/-! ### Slots of different positions -/

/-- A position past the admitted prefix has its slot in the row's allocation. -/
theorem Held.owned_getElem? {x : Live} (h : Held e x) {p : Nat} (hp : e.admitted x.seat.row ≤ p)
    (hlt : p < e.config.maxSeqLen) :
    (e.owned x.seat.row)[p - e.admitted x.seat.row]? = some (e.pageTable x.seat.row p) := by
  obtain ⟨slots, halloc, -, hrow⟩ := h.alloc
  have hget : (e.rowSlice x.seat.row (e.admitted x.seat.row)
      e.config.maxSeqLen)[p - e.admitted x.seat.row]? = some (e.pageTable x.seat.row p) := by
    rw [rowSlice_getElem? (by omega), Nat.add_sub_cancel' hp]
  rw [hrow, List.getElem?_take_of_lt (by omega)] at hget
  rw [owned, halloc, Option.getD_some]
  exact hget

/-- A position of the admitted prefix has a slot of the tree. -/
theorem Held.stored {x : Live} (h : Held e x) {hs : List RadixCacheHandle} (hc : e.CacheOk hs)
    {j : Nat} (hj : j < e.admitted x.seat.row) :
    (x.ids.take (j + 1), e.pageTable x.seat.row j) ∈ e.tree.entries := by
  cases hhandle : x.seat.handle with
  | none =>
      rw [h.off hhandle] at hj
      exact absurd hj (Nat.not_lt_zero j)
  | some handle =>
      obtain ⟨toks, slots, hspan, hlen, hle, htoks, hrow⟩ := h.span handle hhandle
      obtain ⟨c, hcm, hspan⟩ := Option.bind_eq_some_iff.mp hspan
      have hmax := h.le_maxSeqLen
      have hslot : slots[j]? = some (e.pageTable x.seat.row j) := by
        have hget : (e.rowSlice x.seat.row 0 (e.admitted x.seat.row))[j]? =
            some (e.pageTable x.seat.row j) := by
          rw [rowSlice_getElem? (by omega), Nat.zero_add]
        rwa [hrow, List.getElem?_take_of_lt hj] at hget
      have htake : toks.take (j + 1) = x.ids.take (j + 1) := by
        have := congrArg (List.take (j + 1)) htoks
        rwa [List.take_take, List.take_take, Nat.min_eq_left (by omega)] at this
      have htree : e.tree = c.tree := by rw [tree, hcm]
      rw [RadixPrefixCache.handleSpan] at hspan
      split at hspan
      · simp only [Option.some.injEq, Prod.mk.injEq] at hspan
        rw [← hspan.1, List.length_nil] at hle
        omega
      · rw [htree, ← htake]
        exact Forest.mem_entries_of_span (hc c hcm).1.valid hspan hslot

namespace Keeping

variable {xs : List Live}

theorem slots_nodup (h : Keeping e xs orphans lost) :
    ((xs.flatMap fun x => e.owned x.seat.row) ++ e.tree.slots).Nodup := by
  have hn := h.slots_perm.nodup_iff.mpr (usable_nodup _)
  rw [← List.append_assoc _ e.tree.slots] at hn
  exact (List.nodup_append'.mp (List.nodup_append'.mp hn).2.1).1

/-- The tree stores no slot of a live request. -/
theorem notMem_tree (h : Keeping e xs orphans lost) {x : Live} (hx : x ∈ xs) {p : Nat}
    (hp : e.admitted x.seat.row ≤ p) (hlt : p < e.config.maxSeqLen) :
    e.pageTable x.seat.row p ∉ e.tree.slots := fun hmem =>
  List.disjoint_of_nodup_append h.slots_nodup
    (List.mem_flatMap.mpr ⟨x, hx, List.mem_of_getElem? ((h.held x hx).owned_getElem? hp hlt)⟩) hmem

/-- A position past its admitted prefix shares its slot with no other position of a live
request. -/
theorem slot_ne (h : Keeping e xs orphans lost) {x y : Live} (hx : x ∈ xs) (hy : y ∈ xs)
    {p j : Nat} (hp : e.admitted x.seat.row ≤ p) (hplt : p < e.config.maxSeqLen)
    (hjlt : j < e.config.maxSeqLen) (hne : x.seat.row ≠ y.seat.row ∨ p ≠ j) :
    e.pageTable x.seat.row p ≠ e.pageTable y.seat.row j := by
  intro heq
  rcases Nat.lt_or_ge j (e.admitted y.seat.row) with hj | hj
  · refine h.notMem_tree hx hp hplt ?_
    rw [heq]
    exact List.mem_map_of_mem ((h.held y hy).stored h.cacheOk hj)
  · have hgetx := (h.held x hx).owned_getElem? hp hplt
    have hgety := (h.held y hy).owned_getElem? hj hjlt
    rw [heq] at hgetx
    have hn := List.nodup_flatMap.mp (List.nodup_append'.mp h.slots_nodup).1
    by_cases hrow : x.seat.row = y.seat.row
    · rw [hrow] at hgetx hp
      have hidx := (List.getElem?_inj (List.getElem?_eq_some_iff.mp hgetx).1 (hn.1 y hy)).mp
        (hgetx.trans hgety.symm)
      rcases hne with hne | hne
      · exact hne hrow
      · omega
    · have : Std.Symm (Function.onFun List.Disjoint fun x : Live => e.owned x.seat.row) :=
        ⟨fun _ _ h _ ha hb => h hb ha⟩
      exact hn.2.forall hx hy (fun heq => hrow (congrArg (fun z => z.seat.row) heq))
        (List.mem_of_getElem? hgetx) (List.mem_of_getElem? hgety)

theorem slot_lt (h : Keeping e xs orphans lost) {slot : Slot}
    (hslot : slot ∈ e.tree.slots ∨ ∃ x ∈ xs, slot ∈ e.owned x.seat.row) :
    slot < e.kvCache.numSlots := by
  have hmem : slot ∈ MHAKVCache.usable e.kvCache.numSlots := by
    rw [← h.slots_perm.mem_iff]
    rcases hslot with hslot | ⟨x, hx, hslot⟩
    · simp [hslot]
    · exact List.mem_append_right _ (List.mem_append_left _ (List.mem_flatMap.mpr ⟨x, hx, hslot⟩))
  exact (mem_usable.mp hmem).2

/-- A live request's row is in the pool. -/
theorem row_lt (h : Keeping e xs orphans lost) {x : Live} (hx : x ∈ xs) {p : Nat}
    (hp : p < e.config.maxSeqLen) : e.pageTable x.seat.row p < e.kvCache.numSlots := by
  rcases Nat.lt_or_ge p (e.admitted x.seat.row) with hlt | hge
  · exact h.slot_lt (Or.inl (List.mem_map_of_mem ((h.held x hx).stored h.cacheOk hlt)))
  · exact h.slot_lt (Or.inr ⟨x, hx, List.mem_of_getElem? ((h.held x hx).owned_getElem? hge hp)⟩)

end Keeping

/-! ### The batch of a step -/

namespace StepRun

variable {sampled : Nat → Token} {out : StepOutput} {s1 : Scheduler} {e2 : Engine}

variable (h : StepRun e sampled out e' s1 e2)
include h

/-- Where a round stands in the batch. -/
theorem index_of_round {z : Token × Req} (hz : z ∈ rounds out) :
    ∃ (i : Nat) (s : Slice), out.batch.reqs[i]? = some z.2 ∧ out.slices[i]? = some s ∧
      z.2.slice out.batch.phase = some s ∧ z.1 = sampled i := by
  obtain ⟨i, hi⟩ := List.mem_iff_getElem?.mp hz
  obtain ⟨htok, hreq⟩ := List.getElem?_zip_eq_some.mp hi
  have hlt := (List.getElem?_eq_some_iff.mp hreq).1
  have hall := h.forall₂_slices
  have hlen := hall.length_eq
  have hget := List.Forall₂.get hall hlt (hlen ▸ hlt)
  simp only [List.get_eq_getElem] at hget
  rw [(List.getElem?_eq_some_iff.mp hreq).2] at hget
  rw [h.nextTokenIds_eq, List.getElem?_map, List.getElem?_range hlt, Option.map_some,
    Option.some.injEq] at htok
  exact ⟨i, _, hreq, List.getElem?_eq_getElem (hlen ▸ hlt), hget, htok.symm⟩

/-- Every slice of the batch goes on where a live request stands, and fits its row. -/
theorem live_of_slice (hs : e.scheduler.Ok) (hr : Recorded e t) {s : Slice} (hmem : s ∈ out.slices) :
    ∃ y ∈ e.lives t, ∃ y', Advanced y s y' ∧ s.start + s.tokens.length = y'.done ∧
      y'.done ≤ e.config.maxSeqLen := by
  obtain ⟨z, hz, hslice⟩ := h.exists_round hmem
  obtain ⟨y, hy, s', -, hslice', hadv, -⟩ := h.advanced hs hr hz
  rw [hslice, Option.some.injEq] at hslice'
  subst hslice'
  have hlen := hadv.length_tokens
  have hlt := hadv.done_lt
  have hstart := hadv.start_eq
  have hstop : s.start + s.tokens.length = (after out t y z.2).done := by omega
  exact ⟨y, hy, _, hadv, hstop, hstop ▸ (h.runs s hmem).2⟩

/-- The slices of a batch write where no other slice, and no earlier position, is read. -/
theorem apart (ho : Ownership e t orphans lost) :
    (out.slices.map (Slice.share e.pageTable)).Pairwise CausalModel.Share.Apart := by
  have hs := ho.books.sched
  rw [List.pairwise_map]
  have hn := h.slices_nodup hs
  rw [List.Nodup, List.pairwise_map] at hn
  refine hn.imp_of_mem fun {s s'} hmem hmem' hne p hp j hj hwrites => ?_
  obtain ⟨y, hy, z, hadv, hstop, hmax⟩ := h.live_of_slice hs ho.books.recorded hmem
  obtain ⟨y', hy', z', hadv', hstop', hmax'⟩ := h.live_of_slice hs ho.books.recorded hmem'
  have hrow : y.seat.row ≠ y'.seat.row := by rwa [← hadv.row_eq, ← hadv'.row_eq]
  have hadm := (ho.keeping.held y hy).admitted_le
  have hadm' := (ho.keeping.held y' hy').admitted_le
  have hpmax : p < e.config.maxSeqLen := Nat.lt_of_lt_of_le hp (hstop.trans_le hmax)
  have hjmax : j < e.config.maxSeqLen := Nat.lt_of_lt_of_le hj (hstop'.trans_le hmax')
  change e.pageTable s.tableIdx p ≠ e.pageTable s'.tableIdx j
  rw [hadv.row_eq, hadv'.row_eq]
  rcases hwrites with hle | hle
  · have hle : y.done ≤ p := hadv.start_eq ▸ hle
    exact ho.keeping.slot_ne hy hy' (hadm.trans hle) hpmax hjmax (Or.inl hrow)
  · have hle : y'.done ≤ j := hadv'.start_eq ▸ hle
    exact (ho.keeping.slot_ne hy' hy (hadm'.trans hle) hjmax hpmax (Or.inl hrow.symm)).symm

/-- The slots a batch writes are not in the tree. -/
theorem writes_notMem_tree (ho : Ownership e t orphans lost) {slot : Slot}
    (hslot : slot ∈ e.tree.slots) : ∀ x ∈ out.slices.map (Slice.share e.pageTable),
      ∀ p, x.start ≤ p → p < x.stop → x.row p ≠ slot := by
  intro x hx p hp hlt heq
  obtain ⟨s, hmem, rfl⟩ := List.mem_map.mp hx
  obtain ⟨y, hy, z, hadv, hstop, hmax⟩ := h.live_of_slice ho.books.sched ho.books.recorded hmem
  have hle : y.done ≤ p := hadv.start_eq ▸ hp
  refine ho.keeping.notMem_tree hy ((ho.keeping.held y hy).admitted_le.trans hle)
    (Nat.lt_of_lt_of_le hlt (hstop.trans_le hmax)) ?_
  rw [← hadv.row_eq]
  change (s.share e.pageTable).row p ∈ e.tree.slots
  rwa [heq]

/-- A batch writes a position of a live request only as that position. -/
theorem write_ne_live (ho : Ownership e t orphans lost) {s : Slice} (hmem : s ∈ out.slices) {p : Nat}
    (hp : s.start ≤ p) (hlt : p < s.start + s.tokens.length) {y : Live} (hy : y ∈ e.lives t) {j : Nat}
    (hj : j < e.config.maxSeqLen) (hne : s.tableIdx ≠ y.seat.row ∨ p ≠ j) :
    e.pageTable s.tableIdx p ≠ e.pageTable y.seat.row j := by
  obtain ⟨z, hz, z', hadv, hstop, hmax⟩ := h.live_of_slice ho.books.sched ho.books.recorded hmem
  have hle : z.done ≤ p := hadv.start_eq ▸ hp
  rw [hadv.row_eq] at hne ⊢
  exact ho.keeping.slot_ne hz hy ((ho.keeping.held z hz).admitted_le.trans hle)
    (Nat.lt_of_lt_of_le hlt (hstop.trans_le hmax)) hj hne

/-- Nor are they read by a request that waits. -/
theorem writes_ne_waiting (ho : Ownership e t orphans lost) {y : Live} (hy : y ∈ e.lives t)
    (hrow : y.seat.row ∉ out.batch.reqs.map Req.tableIdx) {j : Nat} (hj : j < e.config.maxSeqLen) :
    ∀ x ∈ out.slices.map (Slice.share e.pageTable),
      ∀ p, x.start ≤ p → p < x.stop → x.row p ≠ e.pageTable y.seat.row j := by
  intro x hx p hp hlt
  obtain ⟨s, hmem, rfl⟩ := List.mem_map.mp hx
  refine h.write_ne_live ho hmem hp hlt hy hj (.inl fun heq => hrow ?_)
  rw [← h.map_tableIdx_slices]
  exact heq ▸ List.mem_map_of_mem hmem

theorem placed (ho : Ownership e t orphans lost) {s : Slice} (hmem : s ∈ out.slices) :
    s.Placed e.pageTable e.kvCache.numSlots e.config.maxSeqLen := by
  obtain ⟨y, hy, z, hadv, hstop, hmax⟩ := h.live_of_slice ho.books.sched ho.books.recorded hmem
  have hle : s.start + s.tokens.length ≤ e.config.maxSeqLen := hstop.trans_le hmax
  refine ⟨hle, fun p hp => ?_, fun p hp hlt j hj => ?_⟩
  · rw [hadv.row_eq]
    exact ho.keeping.row_lt hy (Nat.lt_of_lt_of_le hp hle)
  · have hdone : y.done ≤ p := hadv.start_eq ▸ hp
    have hpmax := Nat.lt_of_lt_of_le hlt hle
    have hne := ho.keeping.slot_ne hy hy ((ho.keeping.held y hy).admitted_le.trans hdone) hpmax
      (hj.trans hpmax) (Or.inr (by omega))
    rw [← hadv.row_eq] at hne
    exact hne.symm

/-- What the commits of a step add to the tree, if they commit written slots only: positions of
a finished request's row that went through a forward. -/
theorem entries_step (hb : Books e t orphans) (hcond : e.cacheManager.isSome →
      ∀ ids ∈ e.finishingIds t sampled, WriteLoc.pageTable.Stores e ids) :
    ∀ x ∈ e'.tree.entries, x ∈ e.tree.entries ∨
      ∃ f ∈ out.finished, ∃ j < f.deviceLen - 1,
        x = ((transcript out t f.tableIdx).take (j + 1), e.pageTable f.tableIdx j) := by
  obtain ⟨freed, -, -, heq⟩ := h.final hb
  rw [tree_congr (e := e2) (by rw [heq])]
  by_cases hsome : e.cacheManager.isSome
  · refine h.commit_induct hb hsome
      (P := fun e1 => ∀ x ∈ e1.tree.entries, x ∈ e.tree.entries ∨ ∃ f ∈ out.finished,
        ∃ j < f.deviceLen - 1,
          x = ((transcript out t f.tableIdx).take (j + 1), e.pageTable f.tableIdx j)) ?_ ?_
    · rw [tree_congr (e := e) (mid_frame e out s1).cacheManager_eq]
      exact fun x hx => Or.inl hx
    · intro f e1 e3 n hs' hf hconfig hpt hsub hids hcommit hp x hx
      rcases h.stored_position hb hf hpt hids hcommit hx with hx | ⟨j, hnj, hj, hq, hslot⟩
      · exact hp x hx
      obtain ⟨hlen, -⟩ := h.finished_step hb.sched hb.recorded hf
      have haligned := alignDownNat_le f.deviceLen e1.config.pageSize
      refine Or.inr ⟨f, hf, j, ?_, Prod.ext hq hslot⟩
      by_contra hge
      -- the last token fills a page: the condition says that it was stored before
      have hdvd : e.config.pageSize ∣ f.deviceLen := by
        have hdvd := dvd_alignDownNat f.deviceLen e1.config.pageSize
        rwa [show alignDownNat f.deviceLen e1.config.pageSize = f.deviceLen by omega, hconfig] at hdvd
      obtain ⟨⟨_, slot⟩, hentry, rfl⟩ := List.mem_map.mp
        (hcond hsome _ (h.mem_finishingIds hb.sched hf) (hlen ▸ hdvd))
      have hne : e1.history f.tableIdx ≠ [] := by
        rw [hids]
        intro hnil
        rw [hnil, List.length_nil] at hlen
        omega
      have hlong := hcommit.longest hne _ _ (hsub _ hentry) (hids ▸ List.prefix_refl _)
        (by rw [hlen, hconfig]; exact hdvd)
      rw [hlen] at hlong
      omega
  · have hoff : e2.cacheManager = none := by
      have heq := h.frame.isSome_eq
      exact Option.not_isSome_iff_eq_none.mp (by rw [heq]; exact hsome)
    rw [tree, hoff]
    exact fun x hx => by cases hx

end StepRun

end Engine

/-! ### The invariant of a session -/

namespace Session

open CausalModel

variable {V : Type} {m : CausalModel Token V} {s s' : Session V} {orphans : List RadixCacheHandle}
  {lost : List Slot}

/-- A running request has been answered this far. -/
structure Answering (m : CausalModel Token V) (eosTokenId : Int) (args : AddArgs) (r : Req)
    (ids : List Token) : Prop where
  params_eq : r.samplingParams = args.samplingParams
  maxDeviceLen_eq : r.maxDeviceLen = args.inputIds.length + args.samplingParams.maxTokens.toNat
  ids_eq : ∃ tokens, ids = args.inputIds ++ tokens ∧
    Engine.Unstopped eosTokenId args.samplingParams tokens ∧
    (args.Greedy → m.Greedy args.inputIds tokens)

structure Sound (m : CausalModel Token V) (s : Session V) (orphans : List RadixCacheHandle)
    (lost : List Slot) : Prop where
  own : s.engine.Ownership s.transcript orphans lost
  /-- A row holds the values of its own tokens. -/
  live : ∀ x ∈ s.engine.lives s.transcript, x.done ≤ s.engine.config.maxSeqLen ∧
    m.Holds (s.engine.pageTable x.seat.row) s.mem x.ids x.done
  /-- The tree stores the value of a token for the tokens it is stored under. -/
  stored : ∀ x ∈ s.engine.tree.entries, (m.values x.1).getLast? = some (s.mem x.2)
  queued : ∀ q ∈ s.engine.scheduler.pendingList, q.inputIds = (s.asked q.tableIdx).inputIds ∧
    q.samplingParams = (s.asked q.tableIdx).samplingParams
  running : ∀ r ∈ s.engine.scheduler.runningReqs,
    Answering m s.engine.config.eosTokenId (s.asked r.tableIdx) r (s.transcript r.tableIdx)
  answered : ∀ a ∈ s.answers, a.1.Greedy → a.2 = plain m s.engine.config.eosTokenId a.1

/-! ### The forward of a step -/

section Step

variable {drawn : Nat → Token} {out : Engine.StepOutput} {s1 : Scheduler} {e2 e' : Engine}

theorem forward_eq {sampled : Nat → Token}
    (hrun : Engine.StepRun s.engine sampled out e' s1 e2) :
    s.forward m = m.forward s.mem (out.slices.map (Slice.share s.engine.pageTable)) := by
  simp only [forward, Engine.nextBatch, hrun.schedule_eq, hrun.slices_eq, Option.getD_some]

theorem Sound.ready (h : Sound m s orphans lost)
    (hrun : Engine.StepRun s.engine (s.sampled m drawn) out e' s1 e2) {sl : Slice}
    (hmem : sl ∈ out.slices) {y y' : Live} (hy : y ∈ s.engine.lives s.transcript)
    (hadv : Advanced y sl y') : Share.Ready m s.mem (sl.share s.engine.pageTable) y.ids where
  holds := by
    have hholds := (h.live y hy).2
    rw [← hadv.start_eq, ← hadv.row_eq] at hholds
    exact hholds
  toks_eq := by
    have hlen := hadv.length_tokens
    have hlt := hadv.done_lt
    have hstart := hadv.start_eq
    have hstop : (sl.share s.engine.pageTable).stop = y'.done := by
      change sl.start + sl.tokens.length = y'.done
      omega
    rw [hstop]
    change sl.tokens = (y.ids.take y'.done).drop sl.start
    rw [hstart]
    exact hadv.tokens_eq
  fresh := (hrun.placed h.own hmem).fresh

/-- A request of the batch holds its values up to where its slice ends, and the greedy token of
its index is the next one. -/
theorem Sound.forward_slice (h : Sound m s orphans lost)
    (hrun : Engine.StepRun s.engine (s.sampled m drawn) out e' s1 e2) {i : Nat} {sl : Slice}
    (hget : out.slices[i]? = some sl) {y y' : Live} (hy : y ∈ s.engine.lives s.transcript)
    (hadv : Advanced y sl y') :
    m.Holds (s.engine.pageTable y.seat.row) (s.forward m).1 y.ids y'.done ∧
      (s.forward m).2[i]? = some (m.next (m.values (y.ids.take y'.done))) := by
  have hlen := hadv.length_tokens
  have hlt := hadv.done_lt
  have hstart := hadv.start_eq
  have hstop : (sl.share s.engine.pageTable).stop = y'.done := by
    change sl.start + sl.tokens.length = y'.done
    omega
  have hspec := forward_ready (hrun.apart h.own)
    (by rw [List.getElem?_map, hget, Option.map_some])
    (h.ready hrun (List.mem_of_getElem? hget) hy hadv)
  rw [hstop, ← forward_eq hrun] at hspec
  change m.Holds (s.engine.pageTable sl.tableIdx) _ _ _ ∧ _ at hspec
  rwa [hadv.row_eq] at hspec

/-- A request that was advanced holds its values as far as it went. -/
theorem Sound.holds_advanced (h : Sound m s orphans lost)
    (hrun : Engine.StepRun s.engine (s.sampled m drawn) out e' s1 e2) {sl : Slice}
    (hmem : sl ∈ out.slices) {y y' : Live} (hy : y ∈ s.engine.lives s.transcript)
    (hadv : Advanced y sl y') : y'.done ≤ s.engine.config.maxSeqLen ∧
      m.Holds (s.engine.pageTable y'.seat.row) (s.forward m).1 y'.ids y'.done := by
  obtain ⟨i, hget⟩ := List.mem_iff_getElem?.mp hmem
  obtain ⟨z, hz, z', hadvz, hstop, hmax⟩ :=
    hrun.live_of_slice h.own.books.sched h.own.books.recorded hmem
  have hzy : z = y := Engine.eq_of_row_eq h.own.books.sched hz hy
    (hadvz.row_eq.symm.trans hadv.row_eq)
  subst hzy
  rw [hadvz.done_eq hadv] at hmax
  refine ⟨hmax, ?_⟩
  rw [hadv.seat_eq]
  exact (h.forward_slice hrun hget hz hadv).1.of_take (hadv.take_ids hadv.done_le)

/-- What waits keeps its values. -/
theorem Sound.holds_waiting (h : Sound m s orphans lost)
    (hrun : Engine.StepRun s.engine (s.sampled m drawn) out e' s1 e2) {y : Live}
    (hy : y ∈ s.engine.lives s.transcript)
    (hrow : y.seat.row ∉ out.batch.reqs.map Req.tableIdx) :
    m.Holds (s.engine.pageTable y.seat.row) (s.forward m).1 y.ids y.done := by
  obtain ⟨hmax, hholds⟩ := h.live y hy
  refine hholds.congr fun j hj => ?_
  rw [forward_eq hrun]
  exact forward_of_notMem (hrun.writes_ne_waiting h.own hy hrow (by omega))

/-- A request that is not a chunk samples the token that follows its tokens, if it is greedy. -/
theorem Sound.sampled_round (h : Sound m s orphans lost)
    (hrun : Engine.StepRun s.engine (s.sampled m drawn) out e' s1 e2) {z : Token × Req}
    (hz : z ∈ Engine.StepRun.rounds out) (hc : z.2.chunked = false)
    (hgreedy : z.2.samplingParams.temperature = 0) :
    ∃ y ∈ s.engine.lives s.transcript, y.seat = z.2.seat ∧
      Engine.StepRun.transcript out s.transcript z.2.tableIdx =
        y.ids ++ [m.next (m.values y.ids)] := by
  obtain ⟨i, sl, hreq, hget, hslice, htok⟩ := hrun.index_of_round hz
  obtain ⟨y, hy, sl', -, hslice', hadv, -, hfinal⟩ :=
    hrun.advanced h.own.books.sched h.own.books.recorded hz
  rw [hslice, Option.some.injEq] at hslice'
  subst hslice'
  obtain ⟨hlen, htrans⟩ := hfinal hc
  refine ⟨y, hy, hadv.seat_eq.symm, ?_⟩
  have hnext := (h.forward_slice hrun hget hy hadv).2
  have htake : y.ids.take (Engine.StepRun.after out s.transcript y z.2).done = y.ids :=
    List.take_of_length_le hlen.le
  rw [htake] at hnext
  have hbatch : s.engine.nextBatch = out.batch := by
    simp only [Engine.nextBatch, hrun.schedule_eq]
  rw [sampled, hbatch, hreq] at htok
  simp only [hgreedy, if_true] at htok
  rw [htrans, htok, List.getD_eq_getElem?_getD, hnext, Option.getD_some]

/-- What a round makes of the answer to its request. -/
structure Round (m : CausalModel Token V) (eosTokenId : Int) (args : AddArgs) (z : Token × Req)
    (ids : List Token) (tokens : List Token) : Prop where
  params_eq : z.2.samplingParams = args.samplingParams
  maxDeviceLen_eq : z.2.maxDeviceLen = args.inputIds.length + args.samplingParams.maxTokens.toNat
  deviceLen_eq : z.2.deviceLen = args.inputIds.length + tokens.length
  ids_eq : ids = args.inputIds ++ (tokens ++ [z.1])
  going : tokens = [] ∨ z.2.deviceLen < z.2.maxDeviceLen
  unstopped : Engine.Unstopped eosTokenId args.samplingParams tokens
  greedy : args.Greedy → m.Greedy args.inputIds (tokens ++ [z.1])

theorem Sound.round (h : Sound m s orphans lost)
    (hrun : Engine.StepRun s.engine (s.sampled m drawn) out e' s1 e2) {z : Token × Req}
    (hz : z ∈ Engine.StepRun.rounds out) (hc : z.2.chunked = false) :
    ∃ tokens, Round m s.engine.config.eosTokenId (s.asked z.2.tableIdx) z
      (Engine.StepRun.transcript out s.transcript z.2.tableIdx) tokens := by
  have hs := h.own.books.sched
  obtain ⟨y, hy, sl, -, -, hadv, -, hfinal⟩ := hrun.advanced hs h.own.books.recorded hz
  obtain ⟨hlen, htrans⟩ := hfinal hc
  have hnext : z.2.samplingParams.temperature = 0 → z.1 = m.next (m.values y.ids) := by
    intro hgreedy
    obtain ⟨x, hx, hseat, heq⟩ := h.sampled_round hrun hz hc hgreedy
    have hxy : x = y := Engine.eq_of_row_eq hs hx hy
      (congrArg Seat.row (hseat.trans hadv.seat_eq))
    rw [htrans, hxy] at heq
    exact (List.singleton_inj.mp (List.append_cancel_left heq))
  rcases (hrun.stepped hs).origin z.2 (hrun.mem_batch hz) with ⟨-, p, hp, hext⟩ | ⟨-, hr⟩
  · have hyp : y = p.live := Engine.eq_of_row_eq hs hy (Engine.mem_lives_of_pending hp)
      (congrArg Seat.row (hadv.seat_eq.symm.trans hext.seat_eq))
    have hrow : z.2.tableIdx = p.tableIdx := congrArg Seat.row hext.seat_eq
    obtain ⟨hids, hparams⟩ := h.queued p hp
    rw [← hrow] at hids hparams
    have hyids : y.ids = (s.asked z.2.tableIdx).inputIds := by rw [hyp]; exact hids
    rw [hyids] at hlen htrans hnext
    refine ⟨[], ⟨hext.samplingParams_eq.trans hparams, ?_, hlen.symm, htrans, Or.inl rfl,
      fun _ _ hmem => (List.not_mem_nil hmem).elim, fun hgreedy => ?_⟩⟩
    · rw [hext.maxDeviceLen_eq, ← hlen, PendingReq.outputLen, hparams]
    · rw [hnext (hext.samplingParams_eq.trans hparams ▸ hgreedy)]
      have hnil : m.Greedy (s.asked z.2.tableIdx).inputIds [] := Greedy.nil
      have hconcat := hnil.concat
      rwa [List.append_nil] at hconcat
  · have hyr : y = z.2.live s.transcript := Engine.eq_of_row_eq hs hy
      (Engine.mem_lives_of_running hr) (congrArg Seat.row hadv.seat_eq.symm)
    obtain ⟨hparams, hmax, tokens, hids, hopen, hgreedy⟩ := h.running z.2 hr
    have hyids : y.ids = (s.asked z.2.tableIdx).inputIds ++ tokens := by rw [hyr]; exact hids
    rw [hyids] at hlen htrans hnext
    rw [List.length_append] at hlen
    refine ⟨tokens, ⟨hparams, hmax, hlen.symm, by rw [htrans, List.append_assoc],
      Or.inr (hs.running_ok z.2 hr).lt_maxDeviceLen, hopen, fun hg => ?_⟩⟩
    rw [hnext (hparams ▸ hg)]
    exact (hgreedy hg).concat

/-- A request that runs on has been answered one token further. -/
theorem Round.answering {eosTokenId : Int} {args : AddArgs} {z : Token × Req} {ids tokens : List Token}
    (h : Round m eosTokenId args z ids tokens) (hgo : ¬ z.2.Stops eosTokenId z.1) {r : Req}
    (hparams : r.samplingParams = z.2.samplingParams) (hmax : r.maxDeviceLen = z.2.maxDeviceLen) :
    Answering m eosTokenId args r ids where
  params_eq := hparams.trans h.params_eq
  maxDeviceLen_eq := hmax.trans h.maxDeviceLen_eq
  ids_eq := ⟨tokens ++ [z.1], h.ids_eq, h.unstopped.concat fun hign heos =>
    hgo (Or.inl ⟨heos, h.params_eq ▸ hign⟩), h.greedy⟩

/-- A request that stops has its whole answer. -/
theorem Round.answer {eosTokenId : Int} {args : AddArgs} {z : Token × Req} {ids tokens : List Token}
    (h : Round m eosTokenId args z ids tokens) (hstop : z.2.Stops eosTokenId z.1)
    (hgreedy : args.Greedy) : ids.drop args.inputIds.length = plain m eosTokenId args := by
  have hmax := h.maxDeviceLen_eq
  have hdev := h.deviceLen_eq
  have hgoing := h.going
  rw [h.ids_eq, List.drop_left]
  refine (h.greedy hgreedy).eq_decode ?_ ?_ ?_
  · rw [List.length_append, List.length_singleton]
    rcases hgoing with rfl | hgoing
    · exact Nat.le_max_left _ _
    · omega
  · rw [List.dropLast_concat]
    intro tok hmem
    rw [stops, Bool.and_eq_false_imp, decide_eq_true_eq, Bool.not_eq_false']
    intro heos
    by_contra hign
    exact h.unstopped (Bool.eq_false_iff.mpr hign) tok hmem heos
  · rcases hstop with ⟨heos, hign⟩ | hfull
    · right
      rw [h.params_eq] at hign
      exact ⟨z.1, List.getLast?_concat, by simp [stops, heos, hign]⟩
    · left
      rw [List.length_append, List.length_singleton]
      rcases hgoing with rfl | hgoing
      · rw [List.length_nil] at hdev ⊢
        omega
      · omega

theorem Sound.stored_step (h : Sound m s orphans lost)
    (hrun : Engine.StepRun s.engine (s.sampled m drawn) out e' s1 e2)
    (hcond : Orderly m s (.step drawn)) :
    ∀ x ∈ e'.tree.entries, (m.values x.1).getLast? = some ((s.forward m).1 x.2) := by
  intro x hx
  have hstores := fun hsome => hcond (h.own.books.isSome_eq ▸ hsome)
  rcases hrun.entries_step h.own.books hstores x hx with hold | ⟨f, hf, j, hj, rfl⟩
  · rw [h.stored x hold, forward_eq hrun,
      forward_of_notMem (hrun.writes_notMem_tree h.own (List.mem_map_of_mem hold))]
  · obtain ⟨hlen, y, hy, sl, hmem, hadv⟩ := hrun.finished_step h.own.books.sched h.own.books.recorded hf
    have hholds := (h.holds_advanced hrun hmem hy hadv).2 j hj
    dsimp only
    rw [m.getLast?_values_take (by omega)]
    exact hholds

theorem Sound.running_step (h : Sound m s orphans lost)
    (hrun : Engine.StepRun s.engine (s.sampled m drawn) out e' s1 e2) :
    ∀ r ∈ e'.scheduler.runningReqs, Answering m e'.config.eosTokenId (s.asked r.tableIdx) r
      (Engine.StepRun.transcript out s.transcript r.tableIdx) := by
  intro r hr
  rw [hrun.config_eq]
  rcases (hrun.stepped h.own.books.sched).running r hr with ⟨hr0, hrow⟩ | ⟨x, hx, rfl, hc, hgoing⟩
  · rw [hrun.transcript_of_notMem hrow]
    exact h.running r hr0
  · obtain ⟨z, hz, rfl⟩ := List.mem_map.mp hx
    have hround := Engine.rounded s.engine out.batch.phase z
    rw [hround.chunked_eq] at hc
    have hrow : (s.engine.roundOf out.batch.phase z).2.tableIdx = z.2.tableIdx :=
      congrArg Seat.row hround.seat_eq
    obtain ⟨tokens, htokens⟩ := h.round hrun hz hc
    have hgo : ¬ z.2.Stops s.engine.config.eosTokenId z.1 := fun hstop => by
      have habort := (hround.sampled hc).2.2.mpr (Or.inr hstop)
      rw [hgoing] at habort
      cases habort
    rw [hrow]
    exact htokens.answering hgo hround.samplingParams_eq hround.maxDeviceLen_eq

theorem Sound.answered_step (h : Sound m s orphans lost)
    (hrun : Engine.StepRun s.engine (s.sampled m drawn) out e' s1 e2) :
    ∀ a ∈ s.finish out, a.1.Greedy → a.2 = plain m s.engine.config.eosTokenId a.1 := by
  intro a ha hgreedy
  obtain ⟨f, hf, rfl⟩ := List.mem_map.mp ha
  rw [hrun.finished_finishing h.own.books.sched] at hf
  obtain ⟨z, hz, rfl⟩ := List.mem_map.mp hf
  obtain ⟨hz, hc, hstop⟩ := hrun.mem_finishing.mp hz
  have hrow : (s.engine.roundOf out.batch.phase z).2.tableIdx = z.2.tableIdx :=
    congrArg Seat.row (Engine.rounded s.engine out.batch.phase z).seat_eq
  obtain ⟨tokens, htokens⟩ := h.round hrun hz hc
  rw [hrow] at hgreedy ⊢
  exact htokens.answer hstop hgreedy

theorem Sound.step (h : Sound m s orphans lost)
    (hrun : Engine.StepRun s.engine (s.sampled m drawn) out e' s1 e2)
    (hcond : Orderly m s (.step drawn)) :
    ∃ lost', Sound m
      { engine := e', mem := (s.forward m).1,
        transcript := Engine.StepRun.transcript out s.transcript, asked := s.asked,
        answers := s.answers ++ s.finish out } orphans lost' := by
  obtain ⟨extra, hown, -⟩ := hrun.ownership h.own
  refine ⟨extra ++ lost, hown, ?_, h.stored_step hrun hcond, ?_, h.running_step hrun, ?_⟩
  · intro x' hx'
    dsimp only
    rw [hrun.pageTable_eq, hrun.config_eq]
    rcases hrun.lives_step h.own.books.sched h.own.books.recorded x' hx' with
      ⟨hx, hrow⟩ | ⟨x, hx, sl, hmem, hadv⟩
    · exact ⟨(h.live x' hx).1, h.holds_waiting hrun hx hrow⟩
    · exact h.holds_advanced hrun hmem hx hadv
  · intro q hq
    rcases (hrun.stepped h.own.books.sched).pending q hq with
      ⟨hq0, -⟩ | ⟨p0, hp0, req, -, -, -, -, rfl⟩
    · exact h.queued q hq0
    · exact h.queued p0 hp0
  · intro a ha hgreedy
    dsimp only
    rw [hrun.config_eq]
    rcases List.mem_append.mp ha with ha | ha
    · exact h.answered a ha hgreedy
    · exact h.answered_step hrun a ha hgreedy

end Step

/-! ### The other calls -/

theorem Sound.added (h : Sound m s orphans lost) {args : AddArgs} {p : PendingReq} {e' : Engine}
    (hadd : s.engine.addRequest args = (.ok p, e')) :
    Sound m { s with engine := e', asked := Function.update s.asked p.tableIdx args } orphans
      lost := by
  have hb := h.own.books
  obtain ⟨e3, k, hret⟩ := hb.returned hadd
  have hin := hret.queuedIn hb
  have hconfig : e'.config = s.engine.config := by rw [hret.frame]
  have hnot : ∀ {row}, row ∈ s.engine.scheduler.seats.map Seat.row → row ≠ p.tableIdx :=
    fun hmem heq => hin.row_notMem hb.sched (heq ▸ hmem)
  have hentries := hb.entries_sub args
  rw [hadd] at hentries
  refine ⟨hret.ownership h.own, ?_, fun x hx => h.stored x (hentries x hx), ?_, ?_, ?_⟩
  · intro x hx
    dsimp only
    rw [hconfig]
    rcases List.mem_cons.mp (hin.lives_perm.mem_iff.mp hx) with rfl | hx
    · have hm := hb.promptMatched args
      rcases Engine.addRequest_cases args hm with ⟨err, e1, heq, -⟩ | ⟨p1, e1, hq, hres⟩
      · rw [hadd] at heq
        cases heq
      rcases hres with ⟨err, e2, heq, -⟩ | ⟨e2, heq, halloc⟩
      · rw [hadd] at heq
        cases heq
      rw [hadd] at heq
      simp only [Prod.mk.injEq, Except.ok.injEq] at heq
      obtain ⟨rfl, rfl⟩ := heq
      have hdone : p.live.done = (s.engine.matchPrompt args.inputIds).cachedLen.toNat := by
        simp only [PendingReq.live, PendingReq.processed, hq.chunkedReq_eq, hq.cachedLen_eq]
      have hids : p.live.ids = args.inputIds := hq.inputIds_eq
      have hk := hret.cachedLen_eq
      have hmax := hret.le_maxSeqLen
      have hle := hret.le_inputIds
      refine ⟨by omega, fun j hj => ?_⟩
      have hstored := h.stored _ (hq.prefix_stored hb hm halloc j (hdone ▸ hj))
      rw [hids]
      dsimp only at hstored
      rwa [m.getLast?_values_take (by omega)] at hstored
    · have hrow : x.seat.row ≠ p.tableIdx := hnot (Engine.row_mem_of_mem_lives hx)
      have hpt : e'.pageTable x.seat.row = s.engine.pageTable x.seat.row := by
        rw [hret.allocated.pageTable_eq _ hrow, hret.queued.frame]
      rw [hpt]
      exact h.live x hx
  · intro q hq
    dsimp only at hq ⊢
    rw [hin.pendingList_eq, List.mem_append] at hq
    rcases hq with hq | hq
    · have hrow : q.tableIdx ≠ p.tableIdx := hnot
        (List.mem_map.mpr ⟨q.seat, List.mem_append_left _ (List.mem_map_of_mem hq), rfl⟩)
      rw [Function.update_of_ne hrow]
      exact h.queued q hq
    · obtain rfl := List.mem_singleton.mp hq
      rw [Function.update_self]
      exact ⟨hret.queued.inputIds_eq, hret.queued.samplingParams_eq⟩
  · intro r hr
    dsimp only at hr ⊢
    rw [hin.runningReqs_eq] at hr
    have hrow : r.tableIdx ≠ p.tableIdx := hnot
      (List.mem_map.mpr ⟨r.seat, List.mem_append_right _ (List.mem_map_of_mem hr), rfl⟩)
    rw [Function.update_of_ne hrow, hconfig]
    exact h.running r hr
  · dsimp only
    rw [hconfig]
    exact h.answered

theorem Sound.notQueued (h : Sound m s orphans lost) {ids : List Token} {pm : Engine.PromptMatch}
    {e' : Engine}
    (hm : Engine.PromptMatched s.engine (s.engine.scheduler.handles ++ orphans) ids pm)
    (hnot : Engine.NotQueued s.engine pm e') :
    ∃ orphans', Sound m { s with engine := e' } orphans' lost := by
  have hframe := hnot.frame hm
  have htree : e'.tree.entries = s.engine.tree.entries := by
    rw [← hm.entries_eq]
    cases hnot <;> rfl
  have hsched : e'.scheduler = s.engine.scheduler := by rw [hframe]
  have hconfig : e'.config = s.engine.config := by rw [hframe]
  have hpt : e'.pageTable = s.engine.pageTable := by rw [hframe]
  refine ⟨_, h.own.notQueued hm hnot, ?_, ?_, ?_, ?_, ?_⟩ <;> dsimp only
  · rw [Engine.lives, hsched, hpt, hconfig]
    exact h.live
  · rw [htree]
    exact h.stored
  · rw [hsched]
    exact h.queued
  · rw [hsched, hconfig]
    exact h.running
  · rw [hconfig]
    exact h.answered

theorem Sound.aborted (h : Sound m s orphans lost) {seat : Seat} {e' : Engine}
    (hseat : seat ∈ s.engine.scheduler.seats)
    (hab : Engine.Aborted (e'.scheduler.handles ++ orphans) s.engine seat e') :
    Sound m { s with engine := e' } orphans lost := by
  have hpt : e'.pageTable = s.engine.pageTable := by rw [hab.frame]
  have hconfig : e'.config = s.engine.config := by rw [hab.frame]
  refine ⟨h.own.aborted hseat hab, ?_, ?_, ?_, ?_, ?_⟩ <;> dsimp only
  · rw [hpt, hconfig]
    exact fun x hx => h.live x (hab.lives_sub x hx)
  · rw [hab.entries_eq]
    exact h.stored
  · exact fun q hq => h.queued q (hab.dropped.pending_sub q hq)
  · rw [hconfig]
    exact fun r hr => h.running r (hab.dropped.running_sub r hr)
  · rw [hconfig]
    exact h.answered

/-! ### Runs -/

theorem Sound.config_eq {a : Ask} (h : Sound m s orphans lost) (hnext : s.next m a = some s') :
    s'.engine.config = s.engine.config := by
  have hb := h.own.books
  cases a with
  | add args =>
      have hconfig : (s.engine.addRequest args).2.config = s.engine.config := by
        rcases hb.add_cases args with ⟨-, hnot⟩ | ⟨p, e3, hq, htouch, -⟩
        · rw [hnot.frame (hb.promptMatched args)]
        · rw [htouch.frame, hq.frame]
      rcases hadd : s.engine.addRequest args with ⟨_ | p, e'⟩ <;>
        (simp only [Session.next, hadd, Option.some.injEq] at hnext
         subst hnext
         rw [hadd] at hconfig
         exact hconfig)
  | step drawn =>
      rcases hstep : s.engine.step (s.sampled m drawn) with _ | ⟨out, e'⟩
      · simp [Session.next, hstep] at hnext
      · simp only [Session.next, hstep, Option.some.injEq] at hnext
        subst hnext
        rcases Engine.step_cases hstep with ⟨-, -, rfl⟩ | ⟨s1, e2, hrun⟩
        · rfl
        · exact hrun.config_eq
  | abort uid =>
      rcases hb.abort_cases uid with ⟨-, heq⟩ | ⟨seat, e', -, -, heq, -, hab⟩
      · simp only [Session.next, heq, Option.some.injEq] at hnext
        rw [← hnext]
      · simp only [Session.next, heq, Option.some.injEq] at hnext
        subst hnext
        dsimp only
        rw [hab.frame]

theorem Sound.next {a : Ask} (h : Sound m s orphans lost) (hcond : Orderly m s a)
    (hnext : s.next m a = some s') : ∃ orphans' lost', Sound m s' orphans' lost' := by
  cases a with
  | add args =>
      rcases hadd : s.engine.addRequest args with ⟨_ | p, e'⟩
      · simp only [Session.next, hadd, Option.some.injEq] at hnext
        subst hnext
        rcases h.own.books.add_cases args with ⟨-, hnot⟩ | ⟨p, e3, -, -, hin⟩
        · rw [hadd] at hnot
          obtain ⟨orphans', h'⟩ := h.notQueued (h.own.books.promptMatched args) hnot
          exact ⟨orphans', lost, h'⟩
        · -- a request that was queued is one entry more
          simp only [Orderly, hadd] at hcond
          rcases hcond with ⟨p, hp⟩ | hlist
          · cases hp
          · have hmore := hin.pendingList_eq
            rw [hadd] at hmore
            rw [hmore] at hlist
            exact absurd hlist (by simp)
      · simp only [Session.next, hadd, Option.some.injEq] at hnext
        subst hnext
        exact ⟨orphans, lost, h.added hadd⟩
  | step drawn =>
      rcases hstep : s.engine.step (s.sampled m drawn) with _ | ⟨out, e'⟩
      · simp [Session.next, hstep] at hnext
      · simp only [Session.next, hstep, Option.some.injEq] at hnext
        subst hnext
        rcases Engine.step_cases hstep with ⟨hidle, rfl, rfl⟩ | ⟨s1, e2, hrun⟩
        · have hmem : (s.forward m).1 = s.mem := by
            simp [forward, Engine.nextBatch, hidle, slicesOf, CausalModel.forward]
          rw [hmem]
          refine ⟨orphans, lost, ?_⟩
          simpa [finish, Engine.StepRun.transcript, Engine.StepRun.rounds, transcribe] using h
        · obtain ⟨lost', h'⟩ := h.step hrun hcond
          exact ⟨orphans, lost', h'⟩
  | abort uid =>
      rcases h.own.books.abort_cases uid with ⟨-, heq⟩ | ⟨seat, e', -, -, heq, hseat, hab⟩
      · simp only [Session.next, heq, Option.some.injEq] at hnext
        subst hnext
        exact ⟨orphans, lost, h⟩
      · simp only [Session.next, heq, Option.some.injEq] at hnext
        subst hnext
        exact ⟨orphans, lost, h.aborted hseat hab⟩

theorem sound_init (config : EngineConfig) (mem : Slot → V) : Sound m (init config mem) [] [] where
  own := Engine.ownership_init config _
  live _ hx := by cases hx
  stored x hx := by
    have hempty : (Engine.init config).tree.entries = [] := by
      unfold Engine.tree Engine.init
      cases config.enablePrefixCache <;> rfl
    have hx' : x ∈ (Engine.init config).tree.entries := hx
    rw [hempty] at hx'
    cases hx'
  queued _ hq := by cases hq
  running _ hr := by cases hr
  answered _ ha := by cases ha

/-- Whatever the pool held, whatever else was asked in between: in an orderly session every
greedy answer is the one its prompt gives on its own. -/
theorem answers_plain {config : EngineConfig} {mem : Slot → V} {asks : List Ask}
    (hcond : Run.AllSteps (Session.next m) (Orderly m) (init config mem) asks)
    (h : Run.exec (Session.next m) (init config mem) asks = some s) :
    ∀ a ∈ s.answers, a.1.Greedy → a.2 = plain m config.eosTokenId a.1 := by
  have hsound : (∃ orphans lost, Sound m s orphans lost) ∧ s.engine.config = config := by
    refine Run.invariant (fun s : Session V => (∃ orphans lost, Sound m s orphans lost) ∧
      s.engine.config = config) ?_ ⟨⟨[], [], sound_init config mem⟩, rfl⟩ hcond h
    rintro s a s' ⟨⟨orphans, lost, hs⟩, hconfig⟩ hc hn
    exact ⟨hs.next hc hn, hconfig ▸ hs.config_eq hn⟩
  obtain ⟨⟨orphans, lost, hs⟩, hconfig⟩ := hsound
  exact hconfig ▸ hs.answered

/-- Two rows of six tokens, in pages of two. -/
def twoRows : EngineConfig := { Engine.twoATime with pageSize := 2, pageSize_pos := Nat.two_pos }

/-- Each value depends on all tokens so far. -/
def digits : CausalModel Token Nat where
  value vs tok := (3 * vs.sum + tok + 1) % 97
  next vs := vs.sum % 10

/-- A prompt in two chunks beside one that is not greedy, and the first prompt again. -/
def threeAsks : List Ask :=
  [.add { uid := 5, inputIds := [7, 8, 9], samplingParams := { maxTokens := 2 } },
    .add { uid := 3, inputIds := [6], samplingParams := { temperature := 1, maxTokens := 2 } },
    .step fun _ => 4, .step fun _ => 4, .step fun _ => 4,
    .add { uid := 8, inputIds := [7, 8, 9], samplingParams := { maxTokens := 2 } },
    .step fun _ => 4, .step fun _ => 4]

/-- The last one is answered out of the pages that the first one left. -/
theorem threeAsks_plain : ∃ s, Run.exec (Session.next digits) (init twoRows fun slot => 1000 + slot)
      threeAsks = some s ∧ s.answers.map Prod.snd = [[4, 4], [7, 2], [7, 2]] ∧
    ∀ a ∈ s.answers, a.1.Greedy → a.2 = plain digits twoRows.eosTokenId a.1 := by
  have hcond : Run.AllSteps (Session.next digits) (Orderly digits)
    (init twoRows fun slot => 1000 + slot) threeAsks := by decide +kernel
  have hanswers : (Run.exec (Session.next digits) (init twoRows fun slot => 1000 + slot)
      threeAsks).map (fun s => s.answers.map Prod.snd) = some [[4, 4], [7, 2], [7, 2]] := by
    decide +kernel
  obtain ⟨s, hs, hmap⟩ := Option.map_eq_some_iff.mp hanswers
  exact ⟨s, hs, hmap, answers_plain hcond hs⟩

end Session

end FreeToken
