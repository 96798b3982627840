import FreeToken.Scheduler.Admission
import FreeToken.Engine.Calls
import FreeToken.Engine.Ownership

/-!
# Page-table columns

One allocation covers a row of `max_seq_len` columns, for the whole life of the request.
Nothing compares a prompt and its output with that length when the request is added, so
the positions of a step stay inside the row only if the caller saw to it.
-/

namespace FreeToken

/-- Where the requests of a batch come from, empty prompts included. -/
theorem Scheduler.batch_origin {s s1 : Scheduler} {batch : Batch} (hs : s.Ok)
    (h : s.schedule = some (batch, s1)) {req : Req} (hreq : req ∈ batch.reqs) :
    (batch.phase = .decode ∧ req ∈ s.runningReqs) ∨
    (batch.phase = .prefill ∧
      (req.inputIds = [] ∨ ∃ p ∈ s.pendingList, Extends s.maxExtendTokens p req)) := by
  by_cases hpass : s.pass.reqs = []
  · left
    rw [schedule_of_no_pass hpass] at h
    obtain ⟨batch', hdecode, heq⟩ := Option.map_eq_some_iff.mp h
    obtain ⟨rfl, -⟩ := Prod.mk.inj heq
    rw [DecodeManager.scheduleNextBatch] at hdecode
    split at hdecode
    · cases hdecode
    · obtain rfl := Option.some.inj hdecode
      exact ⟨rfl, (List.perm_insertionSort _ _).mem_iff.mp hreq⟩
  · right
    rw [schedule_of_pass hpass] at h
    obtain ⟨rfl, -⟩ := Prod.mk.inj (Option.some.inj h)
    refine ⟨rfl, ?_⟩
    obtain ⟨picked, hadm⟩ := admitLoop_spec s.pendingList s.adder s.prefillManager.nextOid
      hs.pending_ok rfl (Int.le_refl _)
    have hreq' : req ∈ picked.map Prod.snd := hadm.reqs_eq ▸ hreq
    obtain ⟨x, hx, rfl⟩ := List.mem_map.mp hreq'
    by_cases hnil : x.1.inputIds = []
    · exact Or.inl (hadm.empty x hx hnil)
    · refine Or.inr ⟨x.1, ?_, hadm.extends_of_ne_nil x hx hnil⟩
      apply hadm.queue_perm.mem_iff.mpr
      exact List.mem_append_left _ (List.mem_map.mpr ⟨x, hx, rfl⟩)

namespace Engine

variable {e e' : Engine} {t : Transcript} {orphans : List RadixCacheHandle} {lost : List Slot}

/-! ### Runs in which every queued request has its slots -/

/-- The call queues no request, or returns it with its slots. -/
def Installs (e : Engine) : Call → Prop
  | .addRequest args =>
      (e.addRequest args).2.scheduler.pendingList = e.scheduler.pendingList ∨
        ∃ p, (e.addRequest args).1 = .ok p
  | .step _ | .abortRequest _ => True

instance (e : Engine) (c : Call) : Decidable (e.Installs c) :=
  match c with
  | .addRequest args =>
      match h : (e.addRequest args).1 with
      | .ok p => isTrue (Or.inr ⟨p, h⟩)
      | .error _ => decidable_of_iff
          ((e.addRequest args).2.scheduler.pendingList = e.scheduler.pendingList)
          ⟨Or.inl, fun hor => hor.elim id fun ⟨p, hp⟩ => by rw [h] at hp; cases hp⟩
  | .step _ | .abortRequest _ => isTrue trivial

/-- What such a call of `add_request` did. -/
theorem Ownership.add_cases (ho : Ownership e t orphans lost) {args : AddArgs}
    (hi : e.Installs (.addRequest args)) :
    (∃ m, PromptMatched e (e.scheduler.handles ++ orphans) args.inputIds m ∧
      NotQueued e m (e.addRequest args).2) ∨
    ∃ p e3 k, Returned e orphans args (e.matchPrompt args.inputIds) p e3 (e.addRequest args).2 k := by
  have hm := ho.books.promptMatched args
  rcases addRequest_cases args hm with ⟨err, e', heq, hnot⟩ | ⟨p, e3, hq, h⟩
  · left
    refine ⟨_, hm, ?_⟩
    rw [heq]
    exact hnot
  · right
    have hret : ∃ p, (e.addRequest args).1 = .ok p := by
      rcases hi with hsame | hret
      · rcases h with ⟨err, e', heq, halloc⟩ | ⟨e', heq, -⟩
        · -- a request that raised after it was queued is in the list
          exfalso
          have hqueued := hq.queuedIn ho.books hm
          have htouched := ho.books.slotTouched hm hq halloc
          rw [heq] at hsame
          have hlist : e'.scheduler.pendingList = e.scheduler.pendingList ++ [p] := by
            rw [htouched.frame]
            exact hqueued.pendingList_eq
          rw [hlist] at hsame
          have hlen := congrArg List.length hsame
          simp at hlen
        · exact ⟨p, by rw [heq]⟩
      · exact hret
    obtain ⟨p, hp⟩ := hret
    have heq : e.addRequest args = (.ok p, (e.addRequest args).2) := by rw [← hp]
    obtain ⟨e3, k, hreturned⟩ := ho.books.returned heq
    exact ⟨p, e3, k, hreturned⟩

theorem Ownership.call (ho : Ownership e t orphans lost) {c : Call} (hi : e.Installs c)
    (h : e.call c = some e') : ∃ t' orphans' lost', Ownership e' t' orphans' lost' := by
  cases c with
  | addRequest args =>
      obtain rfl := Option.some.inj h
      rcases ho.add_cases hi with ⟨m, hm, hnot⟩ | ⟨p, e3, k, hret⟩
      · exact ⟨t, _, lost, ho.notQueued hm hnot⟩
      · exact ⟨t, orphans, lost, hret.ownership ho⟩
  | step sampled =>
      cases hstep : e.step sampled with
      | error err => simp [Engine.call, hstep] at h
      | ok r =>
          obtain ⟨out, e1⟩ := r
          simp only [Engine.call, hstep, Option.some.injEq] at h
          obtain rfl := h
          obtain ⟨extra, ho', -⟩ := ho.step hstep
          exact ⟨_, orphans, extra ++ lost, ho'⟩
  | abortRequest uid =>
      rcases ho.books.abort_cases uid with ⟨-, heq⟩ | ⟨seat, e1, -, -, heq, hseat, hab⟩
      · simp only [Engine.call, heq, Option.some.injEq] at h
        obtain rfl := h
        exact ⟨t, orphans, lost, ho⟩
      · simp only [Engine.call, heq, Option.some.injEq] at h
        obtain rfl := h
        exact ⟨t, orphans, lost, ho.aborted hseat hab⟩

/-! ### Columns -/

/-- `_allocate_slot` filled the column: from the matched prefix or from the row's own slots. -/
def Allocated (e : Engine) (req : Req) (col : Nat) : Prop :=
  (∃ h toks slots, req.cacheHandle = some h ∧ e.handleSpan h = some (toks, slots) ∧
    slots[col]? = some (e.pageTable req.tableIdx col)) ∨
  ∃ slots, e.kvCache.alloc req.tableIdx = some slots ∧ e.pageTable req.tableIdx col ∈ slots

/-- The row of a request that holds its slots is filled to its end. -/
theorem Held.allocated {x : Live} (h : Held e x) {req : Req} (hseat : req.seat = x.seat) {col : Nat}
    (hcol : col < e.config.maxSeqLen) : e.Allocated req col := by
  have hrow : req.tableIdx = x.seat.row := congrArg Seat.row hseat
  have hhandle : req.cacheHandle = x.seat.handle := congrArg Seat.handle hseat
  have hle := h.le_maxSeqLen
  by_cases hlt : col < e.admitted x.seat.row
  · left
    cases hx : x.seat.handle with
    | none =>
        have hzero := h.off hx
        omega
    | some handle =>
        obtain ⟨toks, slots, hspan, hlen, hadm, -, hfront⟩ := h.span handle hx
        refine ⟨handle, toks, slots, hhandle.trans hx, hspan, ?_⟩
        have hget : (e.rowSlice x.seat.row 0 (e.admitted x.seat.row))[col]? =
            some (e.pageTable x.seat.row (0 + col)) := rowSlice_getElem? (by omega)
        rw [hfront, List.getElem?_take_of_lt hlt, Nat.zero_add] at hget
        rw [hrow]
        exact hget
  · right
    obtain ⟨slots, halloc, hlen, hrest⟩ := h.alloc
    refine ⟨slots, hrow ▸ halloc, ?_⟩
    have hget : (e.rowSlice x.seat.row (e.admitted x.seat.row) e.config.maxSeqLen)[
          col - e.admitted x.seat.row]? =
        some (e.pageTable x.seat.row (e.admitted x.seat.row + (col - e.admitted x.seat.row))) :=
      rowSlice_getElem? (by omega)
    rw [hrest, Nat.add_sub_cancel' (by omega)] at hget
    rw [hrow]
    exact List.mem_of_mem_take (List.mem_of_getElem? hget)

/-- The request ends before the row does, however long its output. -/
def FitsRow (config : EngineConfig) (args : AddArgs) : Prop :=
  (args.inputIds.length : Int) + max 1 args.samplingParams.maxTokens ≤ config.maxSeqLen + 1

instance (config : EngineConfig) (args : AddArgs) : Decidable (FitsRow config args) :=
  inferInstanceAs (Decidable (_ ≤ _))

/-- The call queues no request, or returns one that fits its row with its slots. -/
def InstallsFitting (e : Engine) (c : Call) : Prop :=
  e.Installs c ∧ match c with
    | .addRequest args => e.Returns (.addRequest args) → FitsRow e.config args
    | .step _ | .abortRequest _ => True

instance (e : Engine) (c : Call) : Decidable (e.InstallsFitting c) :=
  match c with
  | .addRequest args => inferInstanceAs (Decidable (e.Installs (.addRequest args) ∧
      (e.Returns (.addRequest args) → FitsRow e.config args)))
  | .step sampled => inferInstanceAs (Decidable (e.Installs (.step sampled) ∧ True))
  | .abortRequest uid => inferInstanceAs (Decidable (e.Installs (.abortRequest uid) ∧ True))

/-- The live requests end before their rows do. -/
structure Fitting (config : EngineConfig) (e : Engine) : Prop where
  config_eq : e.config = config
  owned : ∃ t orphans lost, Ownership e t orphans lost
  pending_le : ∀ p ∈ e.scheduler.pendingList,
    (p.inputLen : Int) + max 1 p.outputLen ≤ config.maxSeqLen + 1
  running_le : ∀ r ∈ e.scheduler.runningReqs, r.maxDeviceLen ≤ config.maxSeqLen + 1

variable {config : EngineConfig}

theorem NotQueued.scheduler_eq {hs : List RadixCacheHandle} {ids : List Token} {m : PromptMatch}
    (h : NotQueued e m e') (hm : PromptMatched e hs ids m) :
    e'.scheduler = e.scheduler ∧ e'.config = e.config := by
  cases h with
  | exhausted =>
      rw [hm.frame]
      exact ⟨rfl, rfl⟩
  | noRow =>
      rw [hm.frame]
      exact ⟨rfl, rfl⟩

theorem fitting_init (config : EngineConfig) : Fitting config (init config) where
  config_eq := rfl
  owned := ⟨fun _ => [], [], [], ownership_init config _⟩
  pending_le := fun p hp => by cases hp
  running_le := fun r hr => by cases hr

theorem Fitting.add (h : Fitting config e) {args : AddArgs}
    (hi : e.InstallsFitting (.addRequest args)) : Fitting config (e.addRequest args).2 := by
  obtain ⟨t, orphans, lost, ho⟩ := h.owned
  have howned := ho.call hi.1 rfl
  rcases ho.add_cases hi.1 with ⟨m, hm, hnot⟩ | ⟨p, e3, k, hret⟩
  · have hsame := hnot.scheduler_eq hm
    constructor
    · exact hsame.2.trans h.config_eq
    · exact howned
    · rw [hsame.1]
      exact h.pending_le
    · rw [hsame.1]
      exact h.running_le
  · have hqueued := hret.queuedIn ho.books
    have hfits : FitsRow e.config args := by
      apply hi.2
      rcases hi.1 with hsame | hret'
      · exfalso
        have hlen := congrArg List.length hsame
        rw [hqueued.pendingList_eq] at hlen
        simp at hlen
      · exact hret'
    constructor
    · rw [hret.frame]
      exact h.config_eq
    · exact howned
    · intro q hq
      rw [hqueued.pendingList_eq] at hq
      rcases List.mem_append.mp hq with hq | hq
      · exact h.pending_le q hq
      · rw [List.mem_singleton.mp hq, PendingReq.inputLen, PendingReq.outputLen,
          hret.queued.inputIds_eq, hret.queued.samplingParams_eq, ← h.config_eq]
        exact hfits
    · rw [hqueued.runningReqs_eq]
      exact h.running_le

theorem Fitting.step (h : Fitting config e) {sampled : Nat → Token} {out : StepOutput}
    (hstep : e.step sampled = .ok (out, e')) : Fitting config e' := by
  obtain ⟨t, orphans, lost, ho⟩ := h.owned
  rcases step_cases hstep with ⟨-, -, rfl⟩ | ⟨s1, e2, hrun⟩
  · exact h
  have hs := hrun.stepped ho.books.sched
  obtain ⟨extra, ho', -⟩ := ho.step hstep
  constructor
  · exact hrun.config_eq.trans h.config_eq
  · exact ⟨_, _, _, ho'⟩
  · intro p hp
    rcases hs.pending p hp with ⟨hp, -⟩ | ⟨p0, hp0, req, -, -, -, -, rfl⟩
    · exact h.pending_le p hp
    · exact h.pending_le p0 hp0
  · intro r hr
    rcases hs.running r hr with ⟨hr, -⟩ | ⟨x, hx, rfl, hc, -⟩
    · exact h.running_le r hr
    · obtain ⟨y, hy, rfl⟩ := List.mem_map.mp hx
      have hround := rounded e out.batch.phase y
      have hyb := hrun.mem_batch hy
      rw [hround.maxDeviceLen_eq]
      rcases hs.origin y.2 hyb with ⟨-, p, hp, hext⟩ | ⟨-, hrunning⟩
      · -- a final chunk ends where the prompt does
        have hmax := hext.maxDeviceLen_eq
        have hle := hext.deviceLen_le
        have hfits := h.pending_le p hp
        change y.2.maxDeviceLen ≤ config.maxSeqLen + 1
        omega
      · exact h.running_le y.2 hrunning

theorem Fitting.abort (h : Fitting config e) {uid : Int} {found : Bool}
    (habort : e.abortRequest uid = .ok (found, e')) : Fitting config e' := by
  obtain ⟨t, orphans, lost, ho⟩ := h.owned
  rcases ho.books.abort_cases uid with ⟨-, heq⟩ | ⟨seat, e1, -, -, heq, hseat, hab⟩
  · rw [heq] at habort
    obtain ⟨-, rfl⟩ := Prod.mk.inj (Except.ok.inj habort)
    exact h
  · rw [heq] at habort
    obtain ⟨-, rfl⟩ := Prod.mk.inj (Except.ok.inj habort)
    constructor
    · rw [hab.frame]
      exact h.config_eq
    · exact ⟨t, orphans, lost, ho.aborted hseat hab⟩
    · intro p hp
      exact h.pending_le p (hab.dropped.pending_sub p hp)
    · intro r hr
      exact h.running_le r (hab.dropped.running_sub r hr)

theorem Fitting.call (h : Fitting config e) {c : Call} (hi : e.InstallsFitting c)
    (hcall : e.call c = some e') : Fitting config e' := by
  cases c with
  | addRequest args =>
      obtain rfl := Option.some.inj hcall
      exact h.add hi
  | step sampled =>
      cases hstep : e.step sampled with
      | error err => simp [Engine.call, hstep] at hcall
      | ok r =>
          simp only [Engine.call, hstep, Option.some.injEq] at hcall
          obtain rfl := hcall
          exact h.step hstep
  | abortRequest uid =>
      cases habort : e.abortRequest uid with
      | error err => simp [Engine.call, habort] at hcall
      | ok r =>
          simp only [Engine.call, habort, Option.some.injEq] at hcall
          obtain rfl := hcall
          exact h.abort habort

/-- A request of the next batch is a live one, at a position inside its row. -/
theorem Fitting.positions_lt (h : Fitting config e) {batch : Batch} {s1 : Scheduler}
    (hs : e.scheduler.schedule = some (batch, s1)) {req : Req} (hreq : req ∈ batch.reqs) {s : Slice}
    (hslice : req.slice batch.phase = some s) :
    (∀ pos ∈ s.positions, pos < config.maxSeqLen) ∧
      (s.positions ≠ [] → ∀ col < config.maxSeqLen, e.Allocated req col) := by
  obtain ⟨t, orphans, lost, ho⟩ := h.owned
  have hok := ho.books.sched
  rcases Scheduler.batch_origin hok hs hreq with ⟨hphase, hrun⟩ | ⟨hphase, hnil | ⟨p, hp, hext⟩⟩
  · rw [hphase] at hslice
    have hlt := (hok.running_ok req hrun).lt_maxDeviceLen
    have hle := h.running_le req hrun
    constructor
    · intro pos hpos
      obtain ⟨tok, -, rfl⟩ := Option.map_eq_some_iff.mp hslice
      have hpos : pos = req.deviceLen - 1 := by simpa [Slice.positions] using hpos
      have hM := config.maxSeqLen_pos
      omega
    · intro _ col hcol
      have hheld := ho.keeping.held _ (mem_lives_of_running hrun)
      exact hheld.allocated rfl (h.config_eq ▸ hcol)
  · have hempty : s.positions = [] := by
      rw [hphase] at hslice
      obtain ⟨toks, htoks, rfl⟩ := Option.map_eq_some_iff.mp hslice
      rw [hnil] at htoks
      rw [Slice.positions, readRange_nil htoks]
      rfl
    rw [hempty]
    exact ⟨fun pos hpos => (by cases hpos), fun hne => absurd rfl hne⟩
  · rw [hphase, slice_prefill hext] at hslice
    obtain rfl := Option.some.inj hslice
    have hfits := h.pending_le p hp
    have hle := hext.deviceLen_le
    constructor
    · intro pos hpos
      rw [Slice.positions, List.mem_range'_1] at hpos
      have hlen := hpos.2
      simp only [List.length_drop, List.length_take] at hlen
      have hstart := hext.processed_nonneg
      have hlt := hext.processed_lt
      have hin : p.inputLen = p.inputIds.length := rfl
      omega
    · intro _ col hcol
      have hheld := ho.keeping.held _ (mem_lives_of_pending hp)
      exact hheld.allocated hext.seat_eq (h.config_eq ▸ hcol)

/-- In a run of requests that fit their rows, the positions of every step are columns of
the page table, and all columns of the row hold slots allocated to it. -/
theorem columns_allocated {config : EngineConfig} {calls : List Call}
    (hall : Run.AllSteps call InstallsFitting (init config) calls) (h : runs config calls = some e)
    {batch : Batch} {s1 : Scheduler} (hs : e.scheduler.schedule = some (batch, s1)) :
    ∀ req ∈ batch.reqs, ∀ s, req.slice batch.phase = some s →
      (∀ pos ∈ s.positions, pos < config.maxSeqLen) ∧
        (s.positions ≠ [] → ∀ col < config.maxSeqLen, e.Allocated req col) := by
  have hfit := Run.invariant (Fitting config)
    (fun e c e' hfit hi hcall => hfit.call hi hcall) (fitting_init config) hall h
  intro req hreq s hslice
  exact hfit.positions_lt hs hreq hslice

/-- Two rows of two columns. -/
def twoColumns : EngineConfig :=
  { singleRow with
    maxRunningReq := 2
    maxSeqLen := 2
    enablePrefixCache := false
    maxRunningReq_pos := Nat.two_pos
    maxSeqLen_pos := Nat.two_pos }

/-- A prompt of one token for `n` more, and two steps. -/
def twoSteps (n : Nat) : List Call :=
  [.addRequest { uid := 0, inputIds := [7], samplingParams := { maxTokens := n } },
    .step fun _ => 5, .step fun _ => 5]

/-- The third token needs the position after the row's last column. -/
theorem third_token_overruns : Run.AllSteps call Returns (init twoColumns) (twoSteps 3) ∧
    ∃ e, runs twoColumns (twoSteps 3) = some e ∧
      ∃ x ∈ e.scheduler.schedule, ∃ req ∈ x.1.reqs, ∃ s ∈ req.slice x.1.phase,
        ∃ pos ∈ s.positions, twoColumns.maxSeqLen ≤ pos :=
  ⟨by decide, _, rfl, by decide⟩

/-- A prompt of one token for two more, after its first step. -/
theorem second_token_fits : ∃ e batch s1,
    runs twoColumns ((twoSteps 2).take 2) = some e ∧ e.scheduler.schedule = some (batch, s1) ∧
      ∀ req ∈ batch.reqs, ∀ s, req.slice batch.phase = some s →
        (∀ pos ∈ s.positions, pos < 2) ∧
          (s.positions ≠ [] → ∀ col < 2, e.Allocated req col) :=
  have hall : Run.AllSteps call InstallsFitting (init twoColumns) ((twoSteps 2).take 2) := by decide
  ⟨_, _, _, rfl, rfl, columns_allocated hall rfl rfl⟩

end Engine

end FreeToken
