import FreeToken.Core
import FreeToken.Engine.Ownership

/-!
# What the prefix cache serves was written

Every model file makes its own `write_kv` call. Some translate the positions of the
batch through the request's page-table row first; the others hand the positions on
as they are. A step builds `out_loc` from the positions too.

A run is watched by a log of the K/V writes its forwards make: which slot, for which
token, after which history. The last token a request samples never goes through a
forward, so a commit that stores it serves a slot that was not written.
-/

namespace FreeToken

/-- The slots handed to `write_kv`: `out_loc` as the step builds it, or
`page_table[table_idx, positions]`. -/
inductive WriteLoc where
  | outLoc
  | pageTable
deriving DecidableEq, Repr

/-- The slot written for the token of a row at a position. -/
def WriteLoc.slot (w : WriteLoc) (pageTable : Nat → Nat → Slot) (row pos : Nat) : Slot :=
  match w with
  | .outLoc => pos
  | .pageTable => pageTable row pos

/-- The K/V of `token`, computed after `history`, was put into `slot`. -/
structure Write where
  slot : Slot
  history : List Token
  token : Token
deriving DecidableEq, Repr

/-- The writes of one request's share of a forward. -/
def Slice.writes (w : WriteLoc) (pageTable : Nat → Nat → Slot) (ids : List Token) (s : Slice) :
    List Write :=
  (s.tokens.zipIdx s.start).map fun (tok, pos) =>
    { slot := w.slot pageTable s.tableIdx pos, history := ids.take pos, token := tok }

theorem Slice.map_slot_writes (s : Slice) (ids : List Token) (pageTable : Nat → Nat → Slot) :
    (s.writes .outLoc pageTable ids).map Write.slot = s.positions := by
  rw [Slice.writes, List.map_map, Slice.positions, ← List.zipIdx_map_snd s.start s.tokens]
  rfl

/-- The watcher: the tokens of the live requests, and the writes so far. -/
structure Trace where
  transcript : Transcript := fun _ => []
  writes : List Write := []

namespace Engine

variable {e e' : Engine} {t : Transcript} {orphans : List RadixCacheHandle}

/-- The writes of a step's forward. -/
def writes (e : Engine) (w : WriteLoc) (t : Transcript) (out : StepOutput) : List Write :=
  (out.batch.reqs.zip out.slices).flatMap fun (req, s) =>
    s.writes w e.pageTable (req.sequence t out.batch.phase)

end Engine

namespace Trace

def see (w : WriteLoc) (g : Trace) (e : Engine) (_ : Call) : Engine.Report → Trace
  | .stepped out =>
      { transcript := Engine.StepRun.transcript out g.transcript
        writes := g.writes ++ e.writes w g.transcript out }
  | _ => g

/-- A step that found nothing to run is not seen. -/
theorem see_idle (w : WriteLoc) (g : Trace) (e : Engine) (c : Call) :
    g.see w e c (.stepped {}) = g := by
  cases g
  simp [see, Engine.StepRun.transcript, Engine.StepRun.rounds, transcribe, Engine.writes]

/-- Some forward wrote `slot` for the last token of `p`, with the others as its history. -/
def Written (g : Trace) (slot : Slot) (p : List Token) : Prop :=
  ∃ x ∈ g.writes, x.slot = slot ∧ x.history ++ [x.token] = p

instance (g : Trace) (slot : Slot) (p : List Token) : Decidable (g.Written slot p) :=
  inferInstanceAs (Decidable (∃ x ∈ g.writes, _))

/-- Every slot the tree stores was written for the prefix it is stored under. -/
def StoresWritten (g : Trace) (e : Engine) : Prop :=
  ∀ x ∈ e.tree.entries, g.Written x.2 x.1

/-- Whatever request is admitted next, its cached prefix was written. -/
def AdmitsWritten (g : Trace) (e : Engine) : Prop :=
  ∀ args p e', e.addRequest args = (.ok p, e') →
    ∀ j < p.cachedLen.toNat, g.Written (e'.pageTable p.tableIdx j) (args.inputIds.take (j + 1))

end Trace

/-- A commit of `ids` stores written slots only. -/
def WriteLoc.Stores (w : WriteLoc) (e : Engine) (ids : List Token) : Prop :=
  match w with
  | .outLoc => ids.length < e.config.pageSize
  | .pageTable => e.config.pageSize ∣ ids.length → ids ∈ e.tree.entries.map Prod.fst

instance (w : WriteLoc) (e : Engine) (ids : List Token) : Decidable (w.Stores e ids) :=
  match w with
  | .outLoc => inferInstanceAs (Decidable (ids.length < e.config.pageSize))
  | .pageTable => inferInstanceAs (Decidable
      (e.config.pageSize ∣ ids.length → ids ∈ e.tree.entries.map Prod.fst))

namespace Engine

variable {e e' : Engine} {t : Transcript} {orphans : List RadixCacheHandle}

/-- The sequences a step is going to commit. -/
def finishingIds (e : Engine) (t : Transcript) (sampled : Nat → Token) : List (List Token) :=
  match e.scheduler.schedule with
  | none => []
  | some (batch, _) => (e.finishing sampled).map fun x => x.2.sequence t batch.phase ++ [x.1]

/-- With the prefix cache on, the step commits written slots only. -/
def CommitsWritten (w : WriteLoc) (s : Trace × Engine) : Call → Prop
  | .step sampled => s.2.config.enablePrefixCache = true →
      ∀ ids ∈ s.2.finishingIds s.1.transcript sampled, w.Stores s.2 ids
  | _ => True

instance (w : WriteLoc) (s : Trace × Engine) (c : Call) : Decidable (CommitsWritten w s c) :=
  match c with
  | .step sampled => inferInstanceAs (Decidable (s.2.config.enablePrefixCache = true →
      ∀ ids ∈ s.2.finishingIds s.1.transcript sampled, w.Stores s.2 ids))
  | .addRequest _ | .abortRequest _ => isTrue trivial

namespace StepRun

variable {sampled : Nat → Token} {out : StepOutput} {s1 : Scheduler} {e2 : Engine}

variable (h : StepRun e sampled out e' s1 e2)
include h

theorem mem_zip_slices {req : Req} (hreq : req ∈ out.batch.reqs) {s : Slice}
    (hs : req.slice out.batch.phase = some s) : (req, s) ∈ out.batch.reqs.zip out.slices := by
  obtain ⟨i, hi, rfl⟩ := List.mem_iff_getElem.mp hreq
  have hall := h.forall₂_slices
  have hlen := hall.length_eq
  have hget := List.Forall₂.get hall hi (hlen ▸ hi)
  simp only [List.get_eq_getElem] at hget
  rw [hs, Option.some.injEq] at hget
  refine List.mem_iff_getElem.mpr ⟨i, by rw [List.length_zip]; omega, ?_⟩
  rw [List.getElem_zip, hget]

/-- `out_loc` lists the slots of the writes that take it as it is. -/
theorem map_slot_writes (t : Transcript) :
    (e.writes .outLoc t out).map Write.slot = out.tensors.outLoc := by
  have hall := h.forall₂_slices
  rw [writes, StepOutput.tensors]
  generalize out.batch.reqs = reqs, out.slices = slices at hall
  induction hall with
  | nil => rfl
  | @cons req s reqs slices _ _ ih =>
      rw [List.zip_cons_cons, List.flatMap_cons, List.map_append, ih, Slice.map_slot_writes]
      rfl

/-- A forward through the page table writes the slots of the positions it advances by. -/
theorem written_slice {x : Token × Req} (hx : x ∈ rounds out) {y : Live} {s : Slice}
    (hslice : x.2.slice out.batch.phase = some s) (hadv : Advanced y s (after out t y x.2))
    (hseq : x.2.sequence t out.batch.phase = y.ids.take x.2.deviceLen) {j : Nat}
    (hj : y.done ≤ j) (hlt : j < x.2.deviceLen) :
    ∃ w ∈ e.writes .pageTable t out, w.slot = e.pageTable y.seat.row j ∧
      w.history ++ [w.token] = y.ids.take (j + 1) := by
  have hle : x.2.deviceLen ≤ y.ids.length := hadv.done_le
  have hlen : j < y.ids.length := by omega
  have hdone : j < (after out t y x.2).done := hlt
  have htok : s.tokens[j - s.start]? = some y.ids[j] := by
    rw [hadv.tokens_eq, hadv.start_eq, List.getElem?_drop, Nat.add_sub_cancel' hj,
      List.getElem?_take_of_lt hdone, List.getElem?_eq_getElem hlen]
  refine ⟨{ slot := e.pageTable y.seat.row j, history := y.ids.take j, token := y.ids[j] },
    ?_, rfl, ?_⟩
  · refine List.mem_flatMap.mpr ⟨(x.2, s), h.mem_zip_slices (h.mem_batch hx) hslice, ?_⟩
    refine List.mem_map.mpr ⟨(y.ids[j], j), ?_, ?_⟩
    · rw [List.mk_mem_zipIdx_iff_le_and_getElem?_sub]
      exact ⟨hadv.start_eq ▸ hj, htok⟩
    · dsimp only
      rw [hseq, List.take_take, Nat.min_eq_left hlt.le, ← hadv.row_eq]
      rfl
  · exact (List.take_succ_eq_append_getElem hlen).symm

/-- The positions a live request is advanced by are written. -/
theorem written_advanced (hs : e.scheduler.Ok) (hr : Recorded e t) {x x' : Live}
    (hx : x ∈ e.lives t) {s : Slice} (hmem : s ∈ out.slices) (hadv : Advanced x s x') {j : Nat}
    (hj : x.done ≤ j) (hlt : j < x'.done) :
    ∃ w ∈ e.writes .pageTable t out, w.slot = e.pageTable x.seat.row j ∧
      w.history ++ [w.token] = x.ids.take (j + 1) := by
  obtain ⟨z, hz, hslice⟩ := h.exists_round hmem
  obtain ⟨y, hy, s', -, hslice', hadv', hseq, -⟩ := h.advanced hs hr hz
  rw [hslice, Option.some.injEq] at hslice'
  subst hslice'
  have hxy : y = x := eq_of_row_eq hs hy hx (hadv'.row_eq.symm.trans hadv.row_eq)
  subst hxy
  have hdone : x'.done = z.2.deviceLen := hadv.done_eq hadv'
  exact h.written_slice hz hslice hadv' hseq hj (hdone ▸ hlt)

end StepRun

/-! ### Calls that write nothing -/

/-- The tree and the rows of the live requests hold written slots only. -/
structure Backed (g : Trace) (e : Engine) (orphans : List RadixCacheHandle) : Prop where
  books : Books e g.transcript orphans
  stored : g.StoresWritten e
  live : ∀ x ∈ e.lives g.transcript, ∀ j < x.done,
    g.Written (e.pageTable x.seat.row j) (x.ids.take (j + 1))

namespace Backed

variable {g : Trace}

/-- A request that was queued reads its cached prefix from slots of the tree. -/
theorem addRequest (h : Backed g e orphans) (args : AddArgs) :
    ∃ orphans', Backed g (e.addRequest args).2 orphans' := by
  have hm := h.books.promptMatched args
  rcases addRequest_cases args hm with ⟨err, e', heq, hnot⟩ | ⟨p, e3, hq, hres⟩
  · rw [heq]
    have hframe := hm.frame
    refine ⟨_, h.books.notQueued hm hnot, ?_, ?_⟩
    · have htree : e'.tree.entries = e.tree.entries := by
        rw [← hm.entries_eq]
        cases hnot <;> rfl
      intro x hx
      rw [htree] at hx
      exact h.stored x hx
    · have hlives : e'.lives g.transcript = e.lives g.transcript ∧ e'.pageTable = e.pageTable := by
        cases hnot <;> (dsimp only [lives]; rw [hframe]; exact ⟨rfl, rfl⟩)
      rw [hlives.1, hlives.2]
      exact h.live
  obtain ⟨res, e', heq, halloc⟩ : ∃ res e', (e.addRequest args).2 = e' ∧
      e3.allocateSlot p.tableIdx (e.matchPrompt args.inputIds).cachedLen
        (e.matchPrompt args.inputIds).matchedIndices = (res, e') := by
    rcases hres with ⟨err, e', heq, halloc⟩ | ⟨e', heq, halloc⟩
    · exact ⟨_, e', by rw [heq], halloc⟩
    · exact ⟨_, e', by rw [heq], halloc⟩
  have htouch := h.books.slotTouched hm hq halloc
  have hcache3 : e3.cacheManager = (e.matchPrompt args.inputIds).engine.cacheManager := by
    rw [hq.frame]
  have hsched : e'.scheduler = e3.scheduler := by rw [htouch.frame]
  have hin : QueuedIn e p e'.scheduler := hsched ▸ hq.queuedIn h.books hm
  rw [heq]
  refine ⟨orphans, h.books.queued hm hq htouch, ?_, ?_⟩
  · intro x hx
    have hx3 := htouch.entries_sub x hx
    rw [tree_congr hcache3, hm.entries_eq] at hx3
    exact h.stored x hx3
  · intro x hx j hj
    rcases List.mem_cons.mp (hin.lives_perm.mem_iff.mp hx) with rfl | hx
    · have hids : p.live.ids = args.inputIds := hq.inputIds_eq
      have hdone : p.live.done = (e.matchPrompt args.inputIds).cachedLen.toNat := by
        simp only [PendingReq.live, PendingReq.processed, hq.chunkedReq_eq, hq.cachedLen_eq]
      rw [hids]
      exact h.stored _ (hq.prefix_stored h.books hm halloc j (hdone ▸ hj))
    · have hrow : x.seat.row ≠ p.tableIdx := fun heq =>
        hin.row_notMem h.books.sched (heq ▸ row_mem_of_mem_lives hx)
      have hpt : e'.pageTable x.seat.row = e.pageTable x.seat.row := by
        rw [htouch.pageTable_eq _ hrow, hq.frame]
      rw [hpt]
      exact h.live x hx j hj

theorem aborted (h : Backed g e orphans) {seat : Seat}
    (hab : Aborted (e'.scheduler.handles ++ orphans) e seat e') : Backed g e' orphans := by
  have hpt : e'.pageTable = e.pageTable := by rw [hab.frame]
  refine ⟨h.books.aborted hab, ?_, ?_⟩
  · intro x hx
    rw [hab.entries_eq] at hx
    exact h.stored x hx
  · intro x hx j hj
    rw [hpt]
    exact h.live x (hab.lives_sub x hx) j hj

end Backed

/-! ### The step -/

namespace StepRun

variable {sampled : Nat → Token} {out : StepOutput} {s1 : Scheduler} {e2 : Engine}

variable (h : StepRun e sampled out e' s1 e2)
include h

/-- What a finished request commits is among them. -/
theorem mem_finishingIds (hs : e.scheduler.Ok) {f : Req} (hf : f ∈ out.finished) :
    transcript out t f.tableIdx ∈ e.finishingIds t sampled := by
  rw [h.finished_finishing hs] at hf
  obtain ⟨x, hx, rfl⟩ := List.mem_map.mp hf
  obtain ⟨hround, hc, -⟩ := h.mem_finishing.mp hx
  have hrow : (e.roundOf out.batch.phase x).2.tableIdx = x.2.tableIdx :=
    congrArg Seat.row (rounded e out.batch.phase x).seat_eq
  rw [hrow, h.transcript_of_mem hs hround hc, finishingIds, h.schedule_eq]
  exact List.mem_map.mpr ⟨x, hx, rfl⟩

/-- What the tree gets from a commit: positions of the finished request's row. -/
theorem stored_position (hb : Books e t orphans) {f : Req} (hf : f ∈ out.finished) {e1 e3 : Engine}
    {n : Nat} {hs : List RadixCacheHandle} (hpt : e1.pageTable = e.pageTable)
    (hids : e1.history f.tableIdx = transcript out t f.tableIdx) (hc : Committed hs e1 f e3 n)
    {x : List Token × Slot} (hx : x ∈ e3.tree.entries) : x ∈ e1.tree.entries ∨
      ∃ j, n ≤ j ∧ j < alignDownNat f.deviceLen e1.config.pageSize ∧
        x.1 = (transcript out t f.tableIdx).take (j + 1) ∧ x.2 = e.pageTable f.tableIdx j := by
  obtain ⟨hlen, -⟩ := h.finished_step hb.sched hb.recorded hf
  have haligned := hc.aligned_le
  have hle := hc.le
  rw [hids, hlen] at haligned hle
  rcases List.mem_append.mp (hc.entries_perm.mem_iff.mp hx) with hx | hx
  · exact Or.inl hx
  · right
    rw [hids, hlen] at hx
    obtain ⟨j, hj, hlt, hslot, hq⟩ := (RadixPrefixCache.mem_newEntries (hlen ▸ hle)).mp hx
    rw [hlen] at hlt
    have hdev := alignDownNat_le f.deviceLen e1.config.pageSize
    rw [rowSlice_getElem? (by omega), Nat.zero_add, hpt, Option.some.injEq] at hslot
    exact ⟨j, hj, hlt, hq, hslot.symm⟩

end StepRun

namespace Backed

variable {g : Trace} {sampled : Nat → Token} {out : StepOutput} {s1 : Scheduler} {e2 : Engine}

theorem step (h : Backed g e orphans) (hrun : StepRun e sampled out e' s1 e2) {c : Call}
    (hcond : e.cacheManager.isSome →
      ∀ ids ∈ e.finishingIds g.transcript sampled, WriteLoc.pageTable.Stores e ids) :
    Backed (g.see .pageTable e c (.stepped out)) e' orphans := by
  have hs := h.books.sched
  have hr := h.books.recorded
  have hold : ∀ {slot : Slot} {q : List Token}, g.Written slot q →
      (g.see .pageTable e c (.stepped out)).Written slot q := by
    rintro slot q ⟨w, hw, hwrite⟩
    exact ⟨w, List.mem_append_left _ hw, hwrite⟩
  -- an advanced request has written every position up to where it is now
  have hadvanced : ∀ x ∈ e.lives g.transcript, ∀ s ∈ out.slices, ∀ x', Advanced x s x' →
      ∀ j < x'.done, (g.see .pageTable e c (.stepped out)).Written
        (e.pageTable x.seat.row j) (x'.ids.take (j + 1)) := by
    intro x hx s hmem x' hadv j hj
    have hle := hadv.done_le
    rw [hadv.take_ids (by omega)]
    rcases Nat.lt_or_ge j x.done with hlt | hge
    · exact hold (h.live x hx j hlt)
    · obtain ⟨w, hw, hwrite⟩ := hrun.written_advanced hs hr hx hmem hadv hge hj
      exact ⟨w, List.mem_append_right _ hw, hwrite⟩
  have hstored : ∀ x ∈ e2.tree.entries,
      (g.see .pageTable e c (.stepped out)).Written x.2 x.1 := by
    by_cases hsome : e.cacheManager.isSome
    · refine hrun.commit_induct h.books hsome
        (P := fun e1 => ∀ x ∈ e1.tree.entries,
          (g.see .pageTable e c (.stepped out)).Written x.2 x.1) ?_ ?_
      · rw [tree_congr (e := e) (StepRun.mid_frame e out s1).cacheManager_eq]
        exact fun x hx => hold (h.stored x hx)
      · intro f e1 e3 n hs' hf hconfig hpt hsub hids hcommit hp x hx
        rcases hrun.stored_position h.books hf hpt hids hcommit hx with
          hx | ⟨j, hnj, hj, hq, hslot⟩
        · exact hp x hx
        obtain ⟨hlen, y, hy, s, hmem, hadv⟩ := hrun.finished_step hs hr hf
        have haligned := alignDownNat_le f.deviceLen e1.config.pageSize
        rw [hq, hslot]
        rcases Nat.lt_or_ge j (f.deviceLen - 1) with hlt | hge
        · have hrow : f.tableIdx = y.seat.row := congrArg Seat.row hadv.seat_eq
          rw [hrow] at hlen ⊢
          have := hadvanced y hy s hmem _ hadv j hlt
          rw [← hrow]
          rwa [← hrow] at this
        · -- the last token fills a page: it was stored before
          exfalso
          have hdvd : e.config.pageSize ∣ f.deviceLen := by
            have h1 := dvd_alignDownNat f.deviceLen e1.config.pageSize
            rw [show alignDownNat f.deviceLen e1.config.pageSize = f.deviceLen by omega] at h1
            rwa [hconfig] at h1
          obtain ⟨⟨_, slot⟩, hentry, rfl⟩ := List.mem_map.mp
            (hcond hsome _ (hrun.mem_finishingIds hs hf) (hlen ▸ hdvd))
          have hne : e1.history f.tableIdx ≠ [] := by
            rw [hids]
            intro hnil
            rw [hnil, List.length_nil] at hlen
            omega
          have hlong := hcommit.longest hne _ _ (hsub _ hentry)
            (hids ▸ List.prefix_refl _)
            (by rw [hlen, hconfig]; exact hdvd)
          rw [hlen] at hlong
          omega
    · have hoff : e2.cacheManager = none := by
        have heq := hrun.frame.isSome_eq
        exact Option.not_isSome_iff_eq_none.mp (by rw [heq]; exact hsome)
      rw [tree, hoff]
      exact fun x hx => by cases hx
  obtain ⟨freed, -, -, heq⟩ := hrun.final h.books
  refine ⟨hrun.books h.books, ?_, ?_⟩
  · intro x hx
    rw [tree_congr (e := e2) (by rw [heq])] at hx
    exact hstored x hx
  · intro x' hx' j hj
    rw [hrun.pageTable_eq]
    rcases hrun.lives_step hs hr x' hx' with ⟨hx, -⟩ | ⟨x, hx, s, hmem, hadv⟩
    · exact hold (h.live x' hx j hj)
    · rw [hadv.seat_eq]
      exact hadvanced x hx s hmem x' hadv j hj

end Backed

/-! ### Positions as slots -/

/-- A commit below a page leaves the empty tree empty. -/
theorem StepRun.entries_nil (hb : Books e t orphans) {sampled : Nat → Token} {out : StepOutput}
    {s1 : Scheduler} {e2 : Engine} (h : StepRun e sampled out e' s1 e2)
    (hempty : e.tree.entries = [])
    (hcond : e.cacheManager.isSome →
      ∀ ids ∈ e.finishingIds t sampled, WriteLoc.outLoc.Stores e ids) :
    e'.tree.entries = [] := by
  obtain ⟨freed, -, -, heq⟩ := h.final hb
  rw [tree_congr (e := e2) (by rw [heq])]
  by_cases hsome : e.cacheManager.isSome
  · refine h.commit_induct hb hsome (P := fun e1 => e1.tree.entries = []) ?_ ?_
    · rw [tree_congr (e := e) (mid_frame e out s1).cacheManager_eq]
      exact hempty
    · intro f e1 e3 n hs' hf hconfig hpt hsub hids hcommit hp
      refine List.eq_nil_iff_forall_not_mem.mpr fun x hx => ?_
      rcases h.stored_position hb hf hpt hids hcommit hx with hx | ⟨j, -, hj, -⟩
      · rw [hp] at hx
        cases hx
      · obtain ⟨hlen, -⟩ := h.finished_step hb.sched hb.recorded hf
        have hshort : (transcript out t f.tableIdx).length < e.config.pageSize :=
          hcond hsome _ (h.mem_finishingIds hb.sched hf)
        rw [hlen, ← hconfig] at hshort
        rw [alignDownNat, Nat.div_eq_of_lt hshort, Nat.zero_mul] at hj
        exact absurd hj (Nat.not_lt_zero j)
  · have hoff : e2.cacheManager = none := by
      have heq := h.frame.isSome_eq
      exact Option.not_isSome_iff_eq_none.mp (by rw [heq]; exact hsome)
    rw [tree, hoff]
    rfl

/-- No call of `add_request` puts anything into the tree. -/
theorem Books.entries_sub (hb : Books e t orphans) (args : AddArgs) :
    ∀ x ∈ (e.addRequest args).2.tree.entries, x ∈ e.tree.entries := by
  have hm := hb.promptMatched args
  intro x hx
  rcases hb.add_cases args with ⟨-, hnot⟩ | ⟨p, e3, hq, htouch, -⟩
  · have htree : (e.addRequest args).2.tree.entries = e.tree.entries := by
      rw [← hm.entries_eq, hnot.frame hm]
      rfl
    exact htree ▸ hx
  · have hcache3 : e3.cacheManager = (e.matchPrompt args.inputIds).engine.cacheManager := by
      rw [hq.frame]
    rw [← hm.entries_eq, ← tree_congr hcache3]
    exact htouch.entries_sub x hx

/-! ### Runs -/

/-- The invariant of a watched run: with positions as slots the tree stays empty. -/
def Sound (w : WriteLoc) (s : Trace × Engine) : Prop :=
  ∃ orphans, match w with
    | .outLoc => Books s.2 s.1.transcript orphans ∧ s.2.tree.entries = []
    | .pageTable => Backed s.1 s.2 orphans

/-- One watched call. -/
def next (w : WriteLoc) : Trace × Engine → Call → Option (Trace × Engine) :=
  Run.watch report (Trace.see w)

theorem Sound.books {w : WriteLoc} {s : Trace × Engine} (h : Sound w s) :
    ∃ orphans, Books s.2 s.1.transcript orphans := by
  obtain ⟨orphans, h⟩ := h
  cases w with
  | outLoc => exact ⟨orphans, h.1⟩
  | pageTable => exact ⟨orphans, h.books⟩

theorem Sound.storesWritten {w : WriteLoc} {s : Trace × Engine} (h : Sound w s) :
    s.1.StoresWritten s.2 := by
  obtain ⟨orphans, h⟩ := h
  cases w with
  | outLoc =>
      intro x hx
      rw [h.2] at hx
      cases hx
  | pageTable => exact h.stored

/-- A later request's cached prefix comes from the tree. -/
theorem Sound.admitsWritten {w : WriteLoc} {s : Trace × Engine} (h : Sound w s) :
    s.1.AdmitsWritten s.2 := by
  obtain ⟨orphans, hb⟩ := h.books
  intro args p e' hadd j hj
  obtain ⟨e3, k, hret⟩ := hb.returned hadd
  have hm := hret.matched
  rcases addRequest_cases args hm with ⟨err, e1, heq, -⟩ | ⟨p1, e1, hq, hres⟩
  · rw [hadd] at heq
    cases heq
  rcases hres with ⟨err, e2, heq, -⟩ | ⟨e2, heq, halloc⟩
  · rw [hadd] at heq
    cases heq
  rw [hadd] at heq
  simp only [Prod.mk.injEq, Except.ok.injEq] at heq
  obtain ⟨rfl, rfl⟩ := heq
  rw [hq.cachedLen_eq] at hj
  exact h.storesWritten _ (hq.prefix_stored hb hm halloc j hj)

theorem Sound.next {w : WriteLoc} {s s' : Trace × Engine} {c : Call} (h : Sound w s)
    (hcond : CommitsWritten w s c) (hnext : Engine.next w s c = some s') : Sound w s' := by
  obtain ⟨g, e⟩ := s
  obtain ⟨⟨rep, e'⟩, hrep, hs'⟩ := Option.map_eq_some_iff.mp hnext
  subst hs'
  obtain ⟨orphans, hb⟩ := h.books
  cases c with
  | addRequest args =>
      simp only [report, Option.some.injEq, Prod.mk.injEq] at hrep
      obtain ⟨rfl, rfl⟩ := hrep
      obtain ⟨orphans1, h⟩ := h
      cases w with
      | outLoc =>
          obtain ⟨orphans2, hb2⟩ := h.1.addRequest args
          refine ⟨orphans2, hb2, List.eq_nil_iff_forall_not_mem.mpr fun x hx => ?_⟩
          have := h.1.entries_sub args x hx
          rw [h.2] at this
          cases this
      | pageTable => exact h.addRequest args
  | step sampled =>
      simp only [report] at hrep
      cases hstep : e.step sampled with
      | error err => simp [hstep] at hrep
      | ok res =>
          obtain ⟨out, e1⟩ := res
          simp only [hstep, Option.some.injEq, Prod.mk.injEq] at hrep
          obtain ⟨rfl, rfl⟩ := hrep
          have hstores : e.cacheManager.isSome →
              ∀ ids ∈ e.finishingIds g.transcript sampled, w.Stores e ids := fun hsome =>
            hcond (hb.isSome_eq ▸ hsome)
          obtain ⟨orphans1, h⟩ := h
          rcases step_cases hstep with ⟨-, rfl, rfl⟩ | ⟨s1, e2, hrun⟩
          · dsimp only
            rw [show Trace.see w g e1 (.step sampled) (.stepped {}) = g from Trace.see_idle w g e1 _]
            exact ⟨orphans1, h⟩
          · cases w with
            | outLoc => exact ⟨orphans1, hrun.books h.1, hrun.entries_nil h.1 h.2 hstores⟩
            | pageTable => exact ⟨orphans1, h.step hrun (c := .step sampled) hstores⟩
  | abortRequest uid =>
      obtain ⟨orphans1, h⟩ := h
      have hb1 : Books e g.transcript orphans1 := by
        cases w with
        | outLoc => exact h.1
        | pageTable => exact h.books
      rcases hb1.abort_cases uid with ⟨-, heq⟩ | ⟨seat, e1, -, -, heq, -, hab⟩
      · simp only [report, heq, Option.some.injEq, Prod.mk.injEq] at hrep
        obtain ⟨rfl, rfl⟩ := hrep
        exact ⟨orphans1, h⟩
      · simp only [report, heq, Option.some.injEq, Prod.mk.injEq] at hrep
        obtain ⟨rfl, rfl⟩ := hrep
        cases w with
        | outLoc => exact ⟨orphans1, h.1.aborted hab, hab.entries_eq.trans h.2⟩
        | pageTable => exact ⟨orphans1, h.aborted hab⟩

theorem sound_init (w : WriteLoc) (config : EngineConfig) : Sound w ({}, init config) := by
  have hempty : (init config).tree.entries = [] := by
    unfold tree init
    cases config.enablePrefixCache <;> rfl
  refine ⟨[], ?_⟩
  cases w with
  | outLoc => exact ⟨books_init config _, hempty⟩
  | pageTable =>
      refine ⟨books_init config _, fun x hx => ?_, fun x hx => ?_⟩
      · rw [hempty] at hx
        cases hx
      · cases hx

/-- In a run whose steps commit written slots only, the tree stores nothing else, and no
later request is admitted with anything else. -/
theorem stored_written {w : WriteLoc} {config : EngineConfig} {calls : List Call}
    {s : Trace × Engine}
    (hcond : Run.AllSteps (next w) (CommitsWritten w) ({}, init config) calls)
    (h : Run.exec (next w) ({}, init config) calls = some s) :
    s.1.StoresWritten s.2 ∧ s.1.AdmitsWritten s.2 := by
  have hsound : Sound w s := Run.invariant (Sound w)
    (fun _ _ _ hs hc hn => hs.next hc hn) (sound_init w config) hcond h
  exact ⟨hsound.storesWritten, hsound.admitsWritten⟩

/-- Pages of `pageSize` tokens, and room for one row of four. -/
def paged (pageSize : Nat) (hpos : 0 < pageSize := by decide) : EngineConfig :=
  { singleRow with pageSize := pageSize, pageSize_pos := hpos }

/-- A prompt of two tokens is answered with one. -/
def twoAndOne : List Call :=
  [.addRequest { uid := 0, inputIds := [7, 8], samplingParams := { maxTokens := 1 } },
    .step fun _ => 5]

/-- The sampled token is stored, whose slot no forward wrote; and `out_loc` misses the
slots of the prompt too. -/
theorem unwritten_is_stored :
    (∃ s, Run.exec (next .pageTable) ({}, init (paged 1)) twoAndOne = some s ∧
      ¬ s.1.StoresWritten s.2) ∧
    ∃ s, Run.exec (next .outLoc) ({}, init (paged 1)) twoAndOne = some s ∧
      ¬ s.1.StoresWritten s.2 :=
  ⟨⟨_, rfl, fun h => absurd (h ([7, 8, 5], 3) (by decide)) (by decide)⟩,
    ⟨_, rfl, fun h => absurd (h ([7], 1) (by decide)) (by decide)⟩⟩

/-- With pages of two tokens only the prompt is stored. -/
theorem prompt_is_stored :
    ∃ s, Run.exec (next .pageTable) ({}, init (paged 2)) twoAndOne = some s ∧
      s.2.tree.entries = [([7], 1), ([7, 8], 2)] ∧ s.1.StoresWritten s.2 ∧ s.1.AdmitsWritten s.2 :=
  have hcond : Run.AllSteps (next .pageTable) (CommitsWritten .pageTable) ({}, init (paged 2))
      twoAndOne := by decide
  ⟨_, rfl, by decide, stored_written hcond rfl⟩

end Engine

end FreeToken
