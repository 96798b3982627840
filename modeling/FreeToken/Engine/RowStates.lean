import FreeToken.Lib.Recurrence
import FreeToken.Engine.Books

/-!
# States kept row by row

A recurrent layer keeps one state for each row and advances it by the slices of the
steps. The inputs of the request at a row are kept beside it as its history. The
state belongs to the request when it is the one after this history (`Follows`).

A model meets its `RecurrentSpec` when a forward advances the cell of every slice and
reports what is right for a layer that reads the state after the history. Then every
report of a run is right whose requests are admitted to such a state.
-/

namespace FreeToken

namespace Engine

variable {e e' : Engine} {t : Transcript} {orphans : List RadixCacheHandle}

/-! ### Prefix-cache hits -/

/-- The tree serves the first page of the prompt, and the prompt goes on after it. -/
def ServesPage (e : Engine) (ids : List Token) : Prop :=
  e.config.pageSize < ids.length ∧ ids.take e.config.pageSize ∈ e.tree.entries.map Prod.fst

instance (e : Engine) (ids : List Token) : Decidable (e.ServesPage ids) :=
  inferInstanceAs (Decidable (_ ∧ _))

/-- Exactly such a prompt is admitted past its first position. -/
theorem Books.cachedLen_pos_iff (hb : Books e t orphans) (ids : List Token) :
    0 < (e.matchPrompt ids).cachedLen ↔ e.ServesPage ids := by
  have hps := e.config.pageSize_pos
  have hm : PromptMatched e _ ids (e.matchPrompt ids) := matchPrompt_spec hb.cacheOk ids
  cases hc : e.cacheManager with
  | none =>
      have hnil : e.tree.entries = [] := by rw [tree, hc]; rfl
      rw [(hm.off hc).1, ServesPage, hnil]
      simp
  | some c =>
      obtain ⟨hw, hpage⟩ := hb.cacheOk c hc
      have htree : e.tree = c.tree := by rw [tree, hc]
      have hmatch := RadixPrefixCache.matchPrefix_spec hw ids
      have hlen : (e.matchPrompt ids).cachedLen =
          alignDown (min ((c.matchPrefix ids).1.cachedLen : Int) (ids.length - 1))
            e.config.pageSize := by
        simp only [matchPrompt, hc]
      rw [hlen]
      constructor
      · intro hpos
        have hge : (e.config.pageSize : Int) ≤
            min ((c.matchPrefix ids).1.cachedLen : Int) (ids.length - 1) := by
          by_contra hlt
          have hdiv : min ((c.matchPrefix ids).1.cachedLen : Int) (ids.length - 1) /
              e.config.pageSize < 1 := Int.ediv_lt_of_lt_mul (by omega) (by omega)
          have hnonpos := Int.mul_nonpos_of_nonpos_of_nonneg (Int.lt_add_one_iff.mp hdiv)
            (Int.natCast_nonneg e.config.pageSize)
          exact absurd hpos (Int.not_lt.mpr hnonpos)
        refine ⟨by omega, ?_⟩
        -- the slot of the page's last token is in the matched span
        obtain ⟨slots, hspan, hslots⟩ := hmatch.span_eq
        rw [RadixPrefixCache.handleSpan] at hspan
        cases hnode : (c.matchPrefix ids).1.handle.node with
        | none =>
            have hzero := (hmatch.root hnode).1
            omega
        | some u =>
            rw [hnode] at hspan
            have hlast : e.config.pageSize - 1 < slots.length := by omega
            have hentry := Forest.mem_entries_of_span hmatch.wellFormed.valid hspan
              (List.getElem?_eq_getElem hlast)
            rw [hmatch.keeps.entries_eq, List.take_take,
              Nat.min_eq_left (by omega), Nat.sub_add_cancel hps] at hentry
            rw [htree]
            exact List.mem_map_of_mem hentry
      · rintro ⟨hlong, hmem⟩
        obtain ⟨⟨q, slot⟩, hentry, hq⟩ := List.mem_map.mp hmem
        have hq : q = ids.take e.config.pageSize := hq
        have hlenq : q.length = e.config.pageSize := by
          rw [hq, List.length_take, Nat.min_eq_left hlong.le]
        have hdvd : c.pageSize ∣ q.length :=
          ⟨1, by rw [hlenq, hpage, Nat.mul_one]⟩
        have hle := hmatch.longest q slot (htree ▸ hentry) (hq ▸ List.take_prefix _ _) hdvd
        have hdiv : (1 : Int) ≤ min ((c.matchPrefix ids).1.cachedLen : Int) (ids.length - 1) /
            e.config.pageSize := Int.le_ediv_of_mul_le (by omega) (by omega)
        exact Int.mul_pos (by omega) (by omega)

/-! ### Where the live requests come from -/

/-- How a live request after a call relates to those before it. -/
inductive Came (e : Engine) (t : Transcript) (c : Call) (rep : Report) (x' : Live) : Prop where
  | kept (hx : x' ∈ e.lives t)
      (hrow : ∀ out, rep = .stepped out → x'.seat.row ∉ out.slices.map Slice.tableIdx)
  | advanced (out : StepOutput) (hrep : rep = .stepped out) (x : Live) (hx : x ∈ e.lives t)
      (s : Slice) (hs : s ∈ out.slices) (hadv : Advanced x s x')
  | added (args : AddArgs) (hcall : c = .addRequest args) (rest : List Nat)
      (hrow : e.scheduler.freeSlots = x'.seat.row :: rest) (hids : x'.ids = args.inputIds)
      (hdone : x'.done = (e.matchPrompt args.inputIds).cachedLen.toNat)

theorem row_notMem_freeSlots (hs : e.scheduler.Ok) {x : Live} (hx : x ∈ e.lives t) :
    x.seat.row ∉ e.scheduler.freeSlots := fun hfree =>
  (List.nodup_append'.mp hs.rows_nodup).2.2 hfree (row_mem_of_mem_lives hx)

theorem Books.came_addRequest (hb : Books e t orphans) (args : AddArgs) (rep : Report)
    (hrep : ∀ out, rep ≠ .stepped out) :
    ∀ x' ∈ (e.addRequest args).2.lives t, Came e t (.addRequest args) rep x' := by
  have hm := hb.promptMatched args
  intro x' hx'
  rcases hb.add_cases args with ⟨-, hnot⟩ | ⟨p, e3, hq, -, hin⟩
  · have hlives : (e.addRequest args).2.lives t = e.lives t := by
      rw [hnot.frame hm]
      rfl
    exact .kept (hlives ▸ hx') fun out hout => absurd hout (hrep out)
  · rcases List.mem_cons.mp (hin.lives_perm.mem_iff.mp hx') with rfl | hx'
    · refine .added args rfl _ hin.freeSlots_eq hq.inputIds_eq ?_
      simp only [PendingReq.live, PendingReq.processed, hq.chunkedReq_eq, hq.cachedLen_eq]
    · exact .kept hx' fun out hout => absurd hout (hrep out)

namespace StepRun

variable {sampled : Nat → Token} {out : StepOutput} {s1 : Scheduler} {e2 : Engine}

variable (h : StepRun e sampled out e' s1 e2)
include h

theorem map_tableIdx_slices : out.slices.map Slice.tableIdx = out.batch.reqs.map Req.tableIdx := by
  have hall := h.forall₂_slices
  generalize out.batch.reqs = reqs, out.slices = slices at hall
  induction hall with
  | nil => rfl
  | @cons req s reqs slices hslice _ ih =>
      rw [List.map_cons, List.map_cons, ih]
      congr 1
      cases hphase : out.batch.phase <;> rw [hphase] at hslice <;>
        simp only [Req.slice, Option.map_eq_some_iff] at hslice <;>
        obtain ⟨_, _, rfl⟩ := hslice <;> rfl

theorem slices_nodup (hs : e.scheduler.Ok) : (out.slices.map Slice.tableIdx).Nodup := by
  rw [h.map_tableIdx_slices]
  exact (h.stepped hs).rows_nodup

/-- Every slice is the next piece of a live request. -/
theorem slice_live (hs : e.scheduler.Ok) (hr : Recorded e t) {s : Slice} (hmem : s ∈ out.slices) :
    ∃ x ∈ e.lives t, ∃ x', Advanced x s x' := by
  obtain ⟨z, hz, hslice⟩ := h.exists_round hmem
  obtain ⟨y, hy, s', -, hslice', hadv, -⟩ := h.advanced hs hr hz
  rw [hslice, Option.some.injEq] at hslice'
  subst hslice'
  exact ⟨y, hy, _, hadv⟩

end StepRun

/-- What a step ran, whether or not it had a batch. -/
theorem Books.slices (hb : Books e t orphans) {sampled : Nat → Token} {out : StepOutput}
    (h : e.step sampled = .ok (out, e')) : (out.slices.map Slice.tableIdx).Nodup ∧
      ∀ s ∈ out.slices, ∃ x ∈ e.lives t, ∃ x', Advanced x s x' := by
  rcases step_cases h with ⟨-, rfl, -⟩ | ⟨s1, e2, hrun⟩
  · exact ⟨List.nodup_nil, fun s hs => by cases hs⟩
  · exact ⟨hrun.slices_nodup hb.sched, fun s hs => hrun.slice_live hb.sched hb.recorded hs⟩

/-- The books and the live requests after any call. -/
theorem Books.report (hb : Books e t orphans) {c : Call} {rep : Report}
    (h : e.report c = some (rep, e')) : ∃ t' orphans', Books e' t' orphans' ∧
      ∀ x' ∈ e'.lives t', Came e t c rep x' := by
  cases c with
  | addRequest args =>
      simp only [Engine.report, Option.some.injEq, Prod.mk.injEq] at h
      obtain ⟨rfl, rfl⟩ := h
      obtain ⟨orphans', hb'⟩ := hb.addRequest args
      exact ⟨t, orphans', hb', hb.came_addRequest args _ fun out hout => by cases hout⟩
  | step sampled =>
      simp only [Engine.report] at h
      cases hstep : e.step sampled with
      | error err => simp [hstep] at h
      | ok res =>
          simp only [hstep, Option.some.injEq, Prod.mk.injEq] at h
          obtain ⟨rfl, rfl⟩ := h
          refine ⟨_, orphans, hb.step hstep, fun x' hx' => ?_⟩
          rcases step_cases hstep with ⟨-, hout, heq⟩ | ⟨s1, e2, hrun⟩
          · rw [hout, heq] at hx'
            refine .kept hx' fun out hrep => ?_
            rw [← Report.stepped.inj hrep, hout]
            exact List.not_mem_nil
          · rcases hrun.lives_step hb.sched hb.recorded x' hx' with
              ⟨hx, hrow⟩ | ⟨x, hx, s, hmem, hadv⟩
            · refine .kept hx fun out hrep => ?_
              rw [← Report.stepped.inj hrep, hrun.map_tableIdx_slices]
              exact hrow
            · exact .advanced res.1 rfl x hx s hmem hadv
  | abortRequest uid =>
      rcases hb.abort_cases uid with ⟨-, heq⟩ | ⟨seat, e1, -, -, heq, -, hab⟩
      · simp only [Engine.report, heq, Option.some.injEq, Prod.mk.injEq] at h
        obtain ⟨rfl, rfl⟩ := h
        exact ⟨t, orphans, hb, fun x' hx' => .kept hx' fun out hout => by cases hout⟩
      · simp only [Engine.report, heq, Option.some.injEq, Prod.mk.injEq] at h
        obtain ⟨rfl, rfl⟩ := h
        exact ⟨t, orphans, hb.aborted hab,
          fun x' hx' => .kept (hab.lives_sub x' hx') fun out hout => by cases hout⟩

/-! ### Histories -/

/-- The inputs a recurrent layer has had for the request at each row. -/
abbrev Histories (ι : Type) := Nat → List ι

section Histories

variable {ι σ : Type} (skipped : List Token → ι) (inputs : Slice → List ι)

/-- What the layer would have had for a prefix that is served from the cache. -/
def skippedInputs (n : Nat) (ids : List Token) : List ι :=
  (List.range n).map fun j => skipped (ids.take (j + 1))

/-- An admitted request starts with what its cached prefix skips; a slice is appended. -/
def Histories.see (h : Histories ι) (e : Engine) : Call → Report → Histories ι
  | .addRequest args, _ =>
      match e.scheduler.freeSlots with
      | [] => h
      | row :: _ => Function.update h row
          (skippedInputs skipped (e.matchPrompt args.inputIds).cachedLen.toNat args.inputIds)
  | .step _, .stepped out => fun row =>
      match out.slices.find? fun s => s.tableIdx = row with
      | none => h row
      | some s => h row ++ inputs s
  | _, _ => h

variable {skipped inputs} {sampled : Nat → Token} {out : StepOutput}

theorem length_skippedInputs (n : Nat) (ids : List Token) :
    (skippedInputs skipped n ids).length = n := by
  rw [skippedInputs, List.length_map, List.length_range]

theorem Histories.see_of_notMem (h : Histories ι) {row : Nat}
    (hrow : row ∉ out.slices.map Slice.tableIdx) :
    h.see skipped inputs e (.step sampled) (.stepped out) row = h row := by
  have hnone : out.slices.find? (fun s => s.tableIdx = row) = none := by
    refine List.find?_eq_none.mpr fun s hs heq => hrow ?_
    exact List.mem_map.mpr ⟨s, hs, by simpa using heq⟩
  simp only [Histories.see, hnone]

theorem find?_of_nodup {α : Type} {f : α → Nat} : ∀ {xs : List α}, (xs.map f).Nodup →
    ∀ x ∈ xs, xs.find? (fun y => f y = f x) = some x
  | y :: xs, hn, x, hx => by
      obtain ⟨hrow, hn⟩ := List.nodup_cons.mp hn
      rw [List.find?_cons]
      rcases List.mem_cons.mp hx with rfl | hx
      · simp
      · have hne : f y ≠ f x := fun heq => hrow (heq ▸ List.mem_map_of_mem hx)
        simpa [hne] using find?_of_nodup hn x hx

theorem Histories.see_of_mem (h : Histories ι) {s : Slice}
    (hn : (out.slices.map Slice.tableIdx).Nodup) (hs : s ∈ out.slices) :
    h.see skipped inputs e (.step sampled) (.stepped out) s.tableIdx =
      h s.tableIdx ++ inputs s := by
  have hfind := find?_of_nodup hn s hs
  simp only [Histories.see, hfind]

/-- Only a step reports slices. -/
theorem step_of_report {c : Call} (h : e.report c = some (.stepped out, e')) :
    ∃ sampled, c = .step sampled ∧ e.step sampled = .ok (out, e') := by
  cases c with
  | addRequest args => cases h
  | step sampled =>
      simp only [Engine.report] at h
      cases hstep : e.step sampled with
      | error err => simp [hstep] at h
      | ok res =>
          simp only [hstep, Option.some.injEq, Prod.mk.injEq, Report.stepped.injEq] at h
          obtain ⟨rfl, rfl⟩ := h
          exact ⟨sampled, rfl, hstep⟩
  | abortRequest uid =>
      simp only [Engine.report] at h
      cases habort : e.abortRequest uid <;> simp [habort] at h

/-- A request that no slice was run for keeps its history. -/
theorem Histories.see_of_kept (h : Histories ι) (hs : e.scheduler.Ok) {c : Call} {rep : Report}
    {x : Live} (hx : x ∈ e.lives t)
    (hrow : ∀ out, rep = .stepped out → x.seat.row ∉ out.slices.map Slice.tableIdx) :
    h.see skipped inputs e c rep x.seat.row = h x.seat.row := by
  cases c with
  | addRequest args =>
      simp only [Histories.see]
      have hnot := row_notMem_freeSlots hs hx
      cases hfree : e.scheduler.freeSlots with
      | nil => rfl
      | cons row rest =>
          rw [hfree, List.mem_cons, not_or] at hnot
          exact Function.update_of_ne hnot.1 _ _
  | step sampled =>
      cases rep with
      | stepped out => exact h.see_of_notMem (hrow out rfl)
      | added res => rfl
      | aborted found => rfl
  | abortRequest uid => rfl

theorem Histories.see_of_added (h : Histories ι) {args : AddArgs} {rep : Report} {row : Nat}
    {rest : List Nat} (hrow : e.scheduler.freeSlots = row :: rest) :
    h.see skipped inputs e (.addRequest args) rep row =
      skippedInputs skipped (e.matchPrompt args.inputIds).cachedLen.toNat args.inputIds := by
  simp only [Histories.see, hrow]
  exact Function.update_self _ _ _

/-- The history of each live request reaches up to where it is. -/
def Histories.Reach (h : Histories ι) (e : Engine) (t : Transcript) : Prop :=
  ∀ x ∈ e.lives t, (h x.seat.row).length = x.done

variable {h : Histories ι}

theorem Histories.Reach.report (hr : h.Reach e t) (hb : Books e t orphans) {c : Call}
    {rep : Report} (hrep : e.report c = some (rep, e')) {t' : Transcript}
    (hcame : ∀ x' ∈ e'.lives t', Came e t c rep x')
    (hin : ∀ s, (inputs s).length = s.tokens.length) :
    (h.see skipped inputs e c rep).Reach e' t' := by
  intro x' hx'
  cases hcame x' hx' with
  | kept hx hrow =>
      rw [h.see_of_kept hb.sched hx hrow]
      exact hr x' hx
  | advanced out hout x hx s hs hadv =>
      subst hout
      obtain ⟨sampled, rfl, hstep⟩ := step_of_report hrep
      have hlt := hadv.done_lt
      have hrow : x'.seat.row = s.tableIdx := by rw [hadv.row_eq, hadv.seat_eq]
      have hlen : (h s.tableIdx).length = x.done := by
        rw [hadv.row_eq]
        exact hr x hx
      rw [hrow, h.see_of_mem (hb.slices hstep).1 hs, List.length_append, hlen, hin,
        hadv.length_tokens]
      omega
  | added args hcall rest hrow hids hdone =>
      subst hcall
      rw [h.see_of_added hrow, length_skippedInputs, hdone]

/-! ### States that follow the histories -/

variable (r : Recurrence ι σ) (resets : Bool)

/-- The state a slice is advanced from: the one in its row, or, where the layer resets
it, the fresh one when the slice starts the request. -/
def readState (cell : Nat → σ) (row start : Nat) : σ :=
  if resets = true ∧ start = 0 then r.fresh else cell row

theorem readState_false (cell : Nat → σ) (row start : Nat) :
    readState r false cell row start = cell row := if_neg (by simp)

variable {r resets} {cell cell' : Nat → σ}

/-- Each live request is going to read the state after its history. -/
def Follows (r : Recurrence ι σ) (resets : Bool) (cell : Nat → σ) (h : Histories ι)
    (e : Engine) (t : Transcript) : Prop :=
  ∀ x ∈ e.lives t, readState r resets cell x.seat.row x.done = r.after (h x.seat.row)

/-- What a call made of the cells: those of its slices are advanced. -/
structure CellsAdvanced (r : Recurrence ι σ) (resets : Bool) (inputs : Slice → List ι)
    (cell cell' : Nat → σ) (rep : Report) : Prop where
  kept : ∀ row, (∀ out, rep = .stepped out → row ∉ out.slices.map Slice.tableIdx) →
    cell' row = cell row
  advanced : ∀ out, rep = .stepped out → ∀ s ∈ out.slices,
    cell' s.tableIdx = r.advance (readState r resets cell s.tableIdx s.start) (inputs s)

/-- The row that the call hands out is read as the state after the skipped prefix. -/
def AdmitsState (r : Recurrence ι σ) (resets : Bool) (skipped : List Token → ι)
    (cell : Nat → σ) (e : Engine) : Call → Prop
  | .addRequest args => ∀ row rest, e.scheduler.freeSlots = row :: rest →
      readState r resets cell row (e.matchPrompt args.inputIds).cachedLen.toNat =
        r.after (skippedInputs skipped (e.matchPrompt args.inputIds).cachedLen.toNat args.inputIds)
  | _ => True

/-- Whatever a step processes next has its whole history. -/
theorem Histories.Reach.slice (hr : h.Reach e t) (hb : Books e t orphans)
    (hstep : e.step sampled = .ok (out, e')) {s : Slice} (hs : s ∈ out.slices) :
    (h s.tableIdx).length = s.start := by
  obtain ⟨x, hx, x', hadv⟩ := (hb.slices hstep).2 s hs
  rw [hadv.row_eq, hadv.start_eq]
  exact hr x hx

/-- And it reads the state after it. -/
theorem Follows.slice (hf : Follows r resets cell h e t) (hb : Books e t orphans)
    (hstep : e.step sampled = .ok (out, e')) {s : Slice} (hs : s ∈ out.slices) :
    readState r resets cell s.tableIdx s.start = r.after (h s.tableIdx) := by
  obtain ⟨x, hx, x', hadv⟩ := (hb.slices hstep).2 s hs
  rw [hadv.row_eq, hadv.start_eq]
  exact hf x hx

theorem Follows.report (hf : Follows r resets cell h e t) (hb : Books e t orphans) {c : Call}
    {rep : Report} (hrep : e.report c = some (rep, e')) {t' : Transcript}
    (hcame : ∀ x' ∈ e'.lives t', Came e t c rep x')
    (hcells : CellsAdvanced r resets inputs cell cell' rep)
    (hadm : AdmitsState r resets skipped cell e c) :
    Follows r resets cell' (h.see skipped inputs e c rep) e' t' := by
  intro x' hx'
  cases hcame x' hx' with
  | kept hx hrow =>
      rw [h.see_of_kept hb.sched hx hrow, readState, hcells.kept _ hrow]
      exact hf x' hx
  | advanced out hout x hx s hs hadv =>
      subst hout
      obtain ⟨sampled, rfl, hstep⟩ := step_of_report hrep
      have hlt := hadv.done_lt
      have hrow : x'.seat.row = s.tableIdx := by rw [hadv.row_eq, hadv.seat_eq]
      have hnot : ¬ (resets = true ∧ x'.done = 0) := by omega
      rw [hrow, h.see_of_mem (hb.slices hstep).1 hs, readState, if_neg hnot,
        hcells.advanced out rfl s hs, hf.slice hb hstep hs, r.after_append]
  | added args hcall rest hrow hids hdone =>
      subst hcall
      have hkept : cell' x'.seat.row = cell x'.seat.row := by
        refine hcells.kept _ fun out hout => ?_
        subst hout
        obtain ⟨sampled, hc, -⟩ := step_of_report hrep
        cases hc
      rw [h.see_of_added hrow, readState, hkept, hdone]
      exact hadm _ rest hrow

end Histories

end Engine

/-! ### Runs of a model -/

/-- A model as a step runs it. `ξ` is what it is given beside the batch, `ι` an input of
its layers for one position, `τ` its states and `ο` what a layer reports of a slice. -/
structure RecurrentModel (ξ ι τ ο : Type) where
  inputs : ξ → Slice → List ι
  length_inputs : ∀ x s, (inputs x s).length = s.tokens.length
  forward : ξ → List Slice → τ → List ο × τ
  sliceOf : ο → Slice

/-- The watcher: the model's states, the histories, and the reports so far, each with the
history of its request. -/
structure ModelTrace (ι τ ο : Type) where
  states : τ
  past : Engine.Histories ι := fun _ => []
  reports : List (List ι × ο) := []

/-- What the layers of a forward have as inputs: layer, row, position. Whatever lies between
the recurrent layers is behind it. -/
abbrev LayerInputs (α : Type) := Nat → Nat → Nat → α

/-- The inputs of a slice, a function of the layer for each position. -/
def LayerInputs.slice {α : Type} (xs : LayerInputs α) (s : Slice) : List (Nat → α) :=
  s.positions.map fun pos layerId => xs layerId s.tableIdx pos

theorem LayerInputs.length_slice {α : Type} (xs : LayerInputs α) (s : Slice) :
    (xs.slice s).length = s.tokens.length := by
  simp [LayerInputs.slice, Slice.positions]

/-- `for req in reqs: for layer in layers`. -/
def layerJobs (slices : List Slice) (layers : List Nat) : List (Slice × Nat) :=
  slices.flatMap fun s => layers.map fun layerId => (s, layerId)

theorem mem_layerJobs {slices : List Slice} {layers : List Nat} {job : Slice × Nat} :
    job ∈ layerJobs slices layers ↔ job.1 ∈ slices ∧ job.2 ∈ layers := by
  obtain ⟨s, layerId⟩ := job
  simp only [layerJobs, List.mem_flatMap, List.mem_map, Prod.mk.injEq]
  constructor
  · rintro ⟨s', hs, l, hl, rfl, rfl⟩
    exact ⟨hs, hl⟩
  · rintro ⟨hs, hl⟩
    exact ⟨s, hs, layerId, hl, rfl, rfl⟩

namespace RecurrentModel

open Engine

variable {ξ ι τ ο σ Λ : Type} (M : RecurrentModel ξ ι τ ο) (skipped : List Token → ι)

def see (g : ModelTrace ι τ ο) (e : Engine) (c : Call × ξ) (rep : Report) : ModelTrace ι τ ο :=
  let past := g.past.see skipped (M.inputs c.2) e c.1 rep
  match rep with
  | .stepped out =>
      let (os, states) := M.forward c.2 out.slices g.states
      { states := states
        past := past
        reports := g.reports ++ os.map fun o => (g.past (M.sliceOf o).tableIdx, o) }
  | _ => { g with past := past }

/-- One watched call, with what the model is given should it be a step. -/
def next : ModelTrace ι τ ο × Engine → Call × ξ → Option (ModelTrace ι τ ο × Engine) :=
  Run.watch (fun e c => e.report c.1) (M.see skipped)

/-- What a forward does to the states of the layers `Λ`, each kept row by row, and what
it reports of a slice whose layers read the states after a history. -/
structure RecurrentSpec (r : Λ → Recurrence ι σ) (resets : Bool) (cell : Λ → τ → Nat → σ)
    (own : List ι → ο → Prop) : Prop where
  advances : ∀ x (out : StepOutput) (states : τ), (out.slices.map Slice.tableIdx).Nodup →
    (∀ s ∈ out.slices, s.tokens ≠ []) → ∀ l, CellsAdvanced (r l) resets (M.inputs x)
      (cell l states) (cell l (M.forward x out.slices states).2) (.stepped out)
  reports : ∀ x (slices : List Slice) (states : τ), (slices.map Slice.tableIdx).Nodup →
    (∀ s ∈ slices, s.tokens ≠ []) → ∀ o ∈ (M.forward x slices states).1,
      M.sliceOf o ∈ slices ∧ ∀ past : List ι, past.length = (M.sliceOf o).start →
        (∀ l, readState (r l) resets (cell l states) (M.sliceOf o).tableIdx (M.sliceOf o).start =
          (r l).after past) → own past o

variable {M skipped} {r : Λ → Recurrence ι σ} {resets : Bool} {cell : Λ → τ → Nat → σ}
  {own : List ι → ο → Prop}

/-- The states follow the histories of the live requests, and every report was right. -/
structure Sound (r : Λ → Recurrence ι σ) (resets : Bool) (cell : Λ → τ → Nat → σ)
    (own : List ι → ο → Prop) (s : ModelTrace ι τ ο × Engine) : Prop where
  follows : ∃ t orphans, Books s.2 t orphans ∧ s.1.past.Reach s.2 t ∧
    ∀ l, Follows (r l) resets (cell l s.1.states) s.1.past s.2 t
  own : ∀ x ∈ s.1.reports, own x.1 x.2

theorem sound_init (states : τ) (config : EngineConfig) :
    Sound (ο := ο) r resets cell own ({ states := states }, init config) where
  follows := ⟨fun _ => [], [], books_init config _, fun _ hx => (by cases hx),
    fun _ _ hx => (by cases hx)⟩
  own := fun _ hx => by cases hx

theorem Sound.next {s s' : ModelTrace ι τ ο × Engine} {c : Call × ξ}
    (h : Sound r resets cell own s) (hspec : M.RecurrentSpec r resets cell own)
    (hadm : ∀ t orphans, Books s.2 t orphans →
      ∀ l, AdmitsState (r l) resets skipped (cell l s.1.states) s.2 c.1)
    (hnext : M.next skipped s c = some s') : Sound r resets cell own s' := by
  obtain ⟨g, e⟩ := s
  obtain ⟨c, x⟩ := c
  obtain ⟨⟨rep, e'⟩, hrep, rfl⟩ := Option.map_eq_some_iff.mp hnext
  have hrep : e.report c = some (rep, e') := hrep
  obtain ⟨t, orphans, hb, hreach, hfollows⟩ := h.follows
  obtain ⟨t', orphans', hb', hcame⟩ := hb.report hrep
  have hreach' : (g.past.see skipped (M.inputs x) e c rep).Reach e' t' :=
    hreach.report hb hrep hcame (M.length_inputs x)
  have hfollows' : ∀ states : τ, (∀ l, CellsAdvanced (r l) resets (M.inputs x)
      (cell l g.states) (cell l states) rep) → ∀ l, Follows (r l) resets (cell l states)
        (g.past.see skipped (M.inputs x) e c rep) e' t' := fun states hcells l =>
    (hfollows l).report hb hrep hcame (hcells l) (hadm t orphans hb l)
  -- only a step touches the states
  have hidle : (∀ out, rep ≠ .stepped out) → ∀ l, CellsAdvanced (r l) resets (M.inputs x)
      (cell l g.states) (cell l g.states) rep := fun hrep l =>
    ⟨fun _ _ => rfl, fun out hout => absurd hout (hrep out)⟩
  cases rep with
  | stepped out =>
      obtain ⟨sampled, rfl, hstep⟩ := step_of_report hrep
      obtain ⟨hn, hlive⟩ := hb.slices hstep
      have htok : ∀ s ∈ out.slices, s.tokens ≠ [] := fun s hs => by
        obtain ⟨y, -, y', hadv⟩ := hlive s hs
        exact hadv.tokens_ne_nil
      constructor
      · exact ⟨t', orphans', hb', hreach', hfollows' _ (hspec.advances x out g.states hn htok)⟩
      · intro y hy
        rcases List.mem_append.mp hy with hy | hy
        · exact h.own y hy
        · obtain ⟨o, ho, rfl⟩ := List.mem_map.mp hy
          obtain ⟨hmem, hown⟩ := hspec.reports x out.slices g.states hn htok o ho
          exact hown _ (hreach.slice hb hstep hmem) fun l => (hfollows l).slice hb hstep hmem
  | added res =>
      exact ⟨⟨t', orphans', hb', hreach', hfollows' _ (hidle fun out hout => (by cases hout))⟩,
        h.own⟩
  | aborted found =>
      exact ⟨⟨t', orphans', hb', hreach', hfollows' _ (hidle fun out hout => (by cases hout))⟩,
        h.own⟩

/-- In a run whose requests are all admitted to the state after what they skip, every
report is right. -/
theorem reports_own (ok : ModelTrace ι τ ο → Engine → Call → Prop) {states : τ}
    {config : EngineConfig} {calls : List (Call × ξ)} {s : ModelTrace ι τ ο × Engine}
    (hspec : M.RecurrentSpec r resets cell own)
    (hadm : ∀ g e t orphans, Books e t orphans → ∀ c, ok g e c →
      ∀ l, AdmitsState (r l) resets skipped (cell l g.states) e c)
    (hcond : Run.AllSteps (M.next skipped) (fun s c => ok s.1 s.2 c.1)
      ({ states := states }, init config) calls)
    (h : Run.exec (M.next skipped) ({ states := states }, init config) calls = some s) :
    ∀ x ∈ s.1.reports, own x.1 x.2 :=
  (Run.invariant (Sound r resets cell own)
    (fun _ _ _ hs hok hn => hs.next hspec (fun t orphans hb => hadm _ _ t orphans hb _ hok) hn)
    (sound_init states config) hcond h).own

end RecurrentModel

end FreeToken
