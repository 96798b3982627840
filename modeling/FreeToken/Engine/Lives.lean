import FreeToken.Engine.CommitSpec

/-!
# Live requests and their tokens

A live request is read as a `Live`: its seat, its tokens so far, and how many of
them went through a forward or came from the prefix cache. The engine records
the tokens of running requests only when the prefix cache is on, so they are kept
beside it in a transcript, row by row. A step advances the requests of its batch
(`Advanced`) and leaves the others alone.
-/

namespace FreeToken

/-! ### Transcripts -/

/-- The tokens of the request at a row. -/
abbrev Transcript := Nat → List Token

/-- The tokens of a request of a batch before its round: what it was prefilled with,
or its transcript. -/
def Req.sequence (t : Transcript) (phase : Phase) (req : Req) : List Token :=
  if phase = .decode then t req.tableIdx else req.inputIds

/-- The transcript after the rounds of a sampling loop. -/
def transcribe (phase : Phase) : List (Token × Req) → Transcript → Transcript
  | [], t => t
  | (tok, req) :: rounds, t =>
      transcribe phase rounds
        (if req.chunked then t
         else Function.update t req.tableIdx
          ((if phase = .decode then t req.tableIdx else req.inputIds) ++ [tok]))

theorem transcribe_of_notMem {phase : Phase} {row : Nat} :
    ∀ {rounds : List (Token × Req)} {t : Transcript},
      (∀ x ∈ rounds, x.2.chunked = false → x.2.tableIdx ≠ row) →
      transcribe phase rounds t row = t row
  | [], _, _ => rfl
  | (tok, req) :: rounds, t, h => by
      have ih : ∀ t', transcribe phase rounds t' row = t' row := fun t' =>
        transcribe_of_notMem fun x hx => h x (List.mem_cons_of_mem _ hx)
      rw [transcribe, ih]
      split
      · rfl
      · rename_i hc
        exact Function.update_of_ne (h _ List.mem_cons_self (by simpa using hc)).symm _ _

theorem transcribe_of_mem {phase : Phase} {x : Token × Req} (hc : x.2.chunked = false)
    {rounds : List (Token × Req)} {t : Transcript}
    (hn : (rounds.map fun x => x.2.tableIdx).Nodup) (hx : x ∈ rounds) :
    transcribe phase rounds t x.2.tableIdx =
      (if phase = .decode then t x.2.tableIdx else x.2.inputIds) ++ [x.1] := by
  induction rounds generalizing t with
  | nil => cases hx
  | cons y rounds ih =>
      obtain ⟨hrow, hn⟩ := List.nodup_cons.mp hn
      rw [transcribe]
      rcases List.mem_cons.mp hx with rfl | hx
      · rw [transcribe_of_notMem fun y hy _ heq => hrow (List.mem_map.mpr ⟨y, hy, heq⟩), hc]
        exact Function.update_self _ _ _
      · rw [ih hn hx]
        have hne : x.2.tableIdx ≠ y.2.tableIdx := fun heq =>
          hrow (List.mem_map.mpr ⟨x, hx, heq⟩)
        congr 2
        split
        · rfl
        · exact Function.update_of_ne hne _ _

namespace Engine

variable {e e' : Engine}

theorem sampleOne_fullIds_of_ne {phase : Phase} {tok : Token} {req : Req} {row : Nat}
    (h : req.chunked = false → req.tableIdx ≠ row) :
    (e.sampleOne phase tok req).fullIds row = e.fullIds row := by
  have hrec : e.recordIds phase tok req row = e.fullIds row := by
    unfold recordIds
    split
    · rfl
    · rename_i hc
      rw [not_or] at hc
      exact Function.update_of_ne (h (by simpa using hc.1)).symm _ _
  unfold sampleOne
  dsimp only
  split
  · exact hrec
  · split <;> exact hrec

theorem sampleOne_fullIds {phase : Phase} {tok : Token} {req : Req} (hc : req.chunked = false)
    (hsome : e.cacheManager.isSome) :
    (e.sampleOne phase tok req).fullIds req.tableIdx =
      if phase = .decode then (e.fullIds req.tableIdx).map (· ++ [tok])
      else some (req.inputIds ++ [tok]) := by
  have hcache : ¬ e.cacheManager.isNone = true := by
    rw [Option.isNone_iff_eq_none]
    exact Option.isSome_iff_ne_none.mp hsome
  have hrec : e.recordIds phase tok req req.tableIdx =
      if phase = .decode then (e.fullIds req.tableIdx).map (· ++ [tok])
      else some (req.inputIds ++ [tok]) := by
    rw [recordIds, if_neg (by simp [hc, hcache]), Function.update_self]
  unfold sampleOne
  dsimp only
  split
  · exact hrec
  · split <;> exact hrec

theorem sampleAll_fullIds_of_notMem {phase : Phase} {row : Nat} :
    ∀ {rounds : List (Token × Req)} {e : Engine},
      (∀ x ∈ rounds, x.2.chunked = false → x.2.tableIdx ≠ row) →
      (e.sampleAll phase rounds).fullIds row = e.fullIds row
  | [], _, _ => rfl
  | (tok, req) :: rounds, e, h => by
      rw [sampleAll, sampleAll_fullIds_of_notMem fun x hx => h x (List.mem_cons_of_mem _ hx)]
      exact sampleOne_fullIds_of_ne (h _ List.mem_cons_self)

/-- With the prefix cache on, `_full_ids` follows the transcript. -/
theorem sampleAll_fullIds {phase : Phase} {x : Token × Req} {t : Transcript}
    (hc : x.2.chunked = false) {rounds : List (Token × Req)} (hsome : e.cacheManager.isSome)
    (hn : (rounds.map fun x => x.2.tableIdx).Nodup) (hx : x ∈ rounds)
    (ht : phase = .decode → e.fullIds x.2.tableIdx = some (t x.2.tableIdx)) :
    (e.sampleAll phase rounds).fullIds x.2.tableIdx =
      some ((if phase = .decode then t x.2.tableIdx else x.2.inputIds) ++ [x.1]) := by
  induction rounds generalizing e with
  | nil => cases hx
  | cons y rounds ih =>
      obtain ⟨hrow, hn⟩ := List.nodup_cons.mp hn
      rw [sampleAll]
      rcases List.mem_cons.mp hx with rfl | hx
      · rw [sampleAll_fullIds_of_notMem fun y hy _ heq => hrow (List.mem_map.mpr ⟨y, hy, heq⟩),
          sampleOne_fullIds hc hsome]
        split
        · rename_i hphase
          rw [ht hphase]
          rfl
        · rfl
      · have hne : y.2.tableIdx ≠ x.2.tableIdx := fun heq =>
          hrow (List.mem_map.mpr ⟨x, hx, heq.symm⟩)
        refine ih ?_ hn hx fun hphase => ?_
        · rw [(sampleOne_frame e phase y.1 y.2).cacheManager_eq]
          exact hsome
        · rw [sampleOne_fullIds_of_ne fun _ => hne]
          exact ht hphase

end Engine

/-! ### Lives -/

/-- A live request between two steps: `done` of its tokens are in the cache. -/
structure Live where
  seat : Seat
  ids : List Token
  done : Nat

def PendingReq.live (p : PendingReq) : Live where
  seat := p.seat
  ids := p.inputIds
  done := p.processed.toNat

/-- The last token of a running request is still to be processed. -/
def Req.live (t : Transcript) (r : Req) : Live where
  seat := r.seat
  ids := t r.tableIdx
  done := r.deviceLen - 1

/-- What a forward over the slice `s` made of the request `x`. -/
structure Advanced (x : Live) (s : Slice) (x' : Live) : Prop where
  seat_eq : x'.seat = x.seat
  row_eq : s.tableIdx = x.seat.row
  start_eq : s.start = x.done
  done_lt : x.done < x'.done
  done_le : x'.done ≤ x.ids.length
  tokens_eq : s.tokens = (x.ids.take x'.done).drop x.done
  ids_eq : x'.ids = x.ids ∨ x'.done = x.ids.length ∧ ∃ tok, x'.ids = x.ids ++ [tok]

namespace Advanced

variable {x x' : Live} {s : Slice}

theorem length_tokens (h : Advanced x s x') : s.tokens.length = x'.done - x.done := by
  rw [h.tokens_eq, List.length_drop, List.length_take, Nat.min_eq_left h.done_le]

theorem tokens_ne_nil (h : Advanced x s x') : s.tokens ≠ [] := by
  have hlen := h.length_tokens
  have hlt := h.done_lt
  intro hnil
  rw [hnil, List.length_nil] at hlen
  omega

/-- The slice says how far the request got. -/
theorem done_eq {x'' : Live} (h : Advanced x s x') (h' : Advanced x s x'') : x'.done = x''.done := by
  have h1 := h.length_tokens
  have h2 := h'.length_tokens
  have h3 := h.done_lt
  have h4 := h'.done_lt
  omega

/-- What a request had stays at the front of its tokens. -/
theorem take_ids (h : Advanced x s x') {n : Nat} (hn : n ≤ x.ids.length) :
    x'.ids.take n = x.ids.take n := by
  rcases h.ids_eq with heq | ⟨-, tok, heq⟩
  · rw [heq]
  · rw [heq, List.take_append_of_le_length hn]

end Advanced

namespace Engine

variable {e e' : Engine} {t : Transcript}

def lives (e : Engine) (t : Transcript) : List Live :=
  e.scheduler.pendingList.map PendingReq.live ++ e.scheduler.runningReqs.map (Req.live t)

theorem map_seat_lives (e : Engine) (t : Transcript) :
    (e.lives t).map Live.seat = e.scheduler.seats := by
  simp [lives, Scheduler.seats, Function.comp_def, PendingReq.live, Req.live]

theorem mem_lives_of_pending {p : PendingReq} (hp : p ∈ e.scheduler.pendingList) :
    p.live ∈ e.lives t :=
  List.mem_append_left _ (List.mem_map.mpr ⟨p, hp, rfl⟩)

theorem mem_lives_of_running {r : Req} (hr : r ∈ e.scheduler.runningReqs) :
    r.live t ∈ e.lives t :=
  List.mem_append_right _ (List.mem_map.mpr ⟨r, hr, rfl⟩)

theorem row_mem_of_mem_lives {x : Live} (hx : x ∈ e.lives t) :
    x.seat.row ∈ e.scheduler.seats.map Seat.row := by
  rw [← e.map_seat_lives t, List.map_map]
  exact List.mem_map.mpr ⟨x, hx, rfl⟩

theorem lives_rows_nodup (hs : e.scheduler.Ok) : ((e.lives t).map fun x => x.seat.row).Nodup := by
  have h := hs.seat_rows_nodup
  rw [← e.map_seat_lives t, List.map_map] at h
  exact h

/-- A row has one live request. -/
theorem eq_of_row_eq (hs : e.scheduler.Ok) {x y : Live} (hx : x ∈ e.lives t) (hy : y ∈ e.lives t)
    (hrow : x.seat.row = y.seat.row) : x = y :=
  List.inj_on_of_nodup_map (lives_rows_nodup hs) hx hy hrow

/-- The transcript is that of the running requests. -/
structure Recorded (e : Engine) (t : Transcript) : Prop where
  length_eq : ∀ r ∈ e.scheduler.runningReqs, (t r.tableIdx).length = r.deviceLen
  last_eq : ∀ r ∈ e.scheduler.runningReqs, r.inputIds.getLast? = (t r.tableIdx).getLast?
  fullIds_eq : e.cacheManager.isSome → ∀ r ∈ e.scheduler.runningReqs,
    e.fullIds r.tableIdx = some (t r.tableIdx)

namespace StepRun

variable {sampled : Nat → Token} {out : StepOutput} {s1 : Scheduler} {e2 : Engine}

/-- The transcript after the step. -/
def transcript (out : StepOutput) (t : Transcript) : Transcript :=
  transcribe out.batch.phase (rounds out) t

/-- A request of the batch after its forward, its sampled token appended. -/
def after (out : StepOutput) (t : Transcript) (x : Live) (req : Req) : Live where
  seat := req.seat
  ids := if req.chunked then x.ids else transcript out t req.tableIdx
  done := req.deviceLen

variable (h : StepRun e sampled out e' s1 e2)
include h

theorem map_row_rounds :
    (rounds out).map (fun x => x.2.tableIdx) = out.batch.reqs.map Req.tableIdx := by
  rw [← h.map_snd_rounds, List.map_map]
  rfl

theorem rounds_rows_nodup (hs : e.scheduler.Ok) :
    ((rounds out).map fun x => x.2.tableIdx).Nodup := by
  rw [h.map_row_rounds]
  exact (h.stepped hs).rows_nodup

theorem mem_batch {x : Token × Req} (hx : x ∈ rounds out) : x.2 ∈ out.batch.reqs := by
  rw [← h.map_snd_rounds]
  exact List.mem_map.mpr ⟨x, hx, rfl⟩

/-- Every slice belongs to a round. -/
theorem exists_round {s : Slice} (hs : s ∈ out.slices) :
    ∃ x ∈ rounds out, x.2.slice out.batch.phase = some s := by
  obtain ⟨i, hi, rfl⟩ := List.mem_iff_getElem.mp hs
  have hall := h.forall₂_slices
  have hlen := hall.length_eq
  have hget := List.Forall₂.get hall (hlen ▸ hi) hi
  simp only [List.get_eq_getElem] at hget
  have hmem : out.batch.reqs[i] ∈ (rounds out).map Prod.snd := by
    rw [h.map_snd_rounds]
    exact List.getElem_mem _
  obtain ⟨x, hx, heq⟩ := List.mem_map.mp hmem
  exact ⟨x, hx, heq ▸ hget⟩

theorem transcript_of_mem (hs : e.scheduler.Ok) {x : Token × Req} (hx : x ∈ rounds out)
    (hc : x.2.chunked = false) : transcript out t x.2.tableIdx =
      (if out.batch.phase = .decode then t x.2.tableIdx else x.2.inputIds) ++ [x.1] :=
  transcribe_of_mem hc (h.rounds_rows_nodup hs) hx

theorem transcript_of_notMem {row : Nat} (hrow : row ∉ out.batch.reqs.map Req.tableIdx) :
    transcript out t row = t row := by
  refine transcribe_of_notMem fun x hx _ heq => hrow ?_
  rw [← heq]
  exact List.mem_map.mpr ⟨x.2, h.mem_batch hx, rfl⟩

/-- Each request of the batch was live and is advanced by its slice. -/
theorem advanced (hs : e.scheduler.Ok) (hr : Recorded e t) {x : Token × Req}
    (hx : x ∈ rounds out) : ∃ y ∈ e.lives t, ∃ s ∈ out.slices,
      x.2.slice out.batch.phase = some s ∧ Advanced y s (after out t y x.2) ∧
      x.2.sequence t out.batch.phase = y.ids.take x.2.deviceLen ∧
      (x.2.chunked = false → y.ids.length = x.2.deviceLen ∧
        transcript out t x.2.tableIdx = y.ids ++ [x.1]) := by
  have hreq := h.mem_batch hx
  obtain ⟨s, hmem, hslice⟩ := h.exists_slice hreq
  rcases (h.stepped hs).origin x.2 hreq with ⟨hphase, p, hp, hext⟩ | ⟨hphase, hrun⟩
  · refine ⟨p.live, mem_lives_of_pending hp, s, hmem, hslice, ?_⟩
    have hs' := slice_prefill hext
    rw [hphase, hs', Option.some.injEq] at hslice
    obtain ⟨n, hn⟩ := Int.eq_ofNat_of_zero_le hext.processed_nonneg
    have hlt := hext.processed_lt
    have hle := hext.deviceLen_le
    have hrow : x.2.tableIdx = p.seat.row := congrArg Seat.row hext.seat_eq
    have hfinal : x.2.chunked = false → p.inputIds.length = x.2.deviceLen ∧
        transcript out t x.2.tableIdx = p.inputIds ++ [x.1] := by
      intro hc
      have hfull : x.2.deviceLen = p.inputLen := by
        have hchunked := hext.chunked_eq
        rw [hc, eq_comm, decide_eq_false_iff_not] at hchunked
        omega
      have hids : x.2.inputIds = p.inputIds := by
        rw [hext.inputIds_eq, hfull]
        exact List.take_length
      have ht := h.transcript_of_mem (t := t) hs hx hc
      rw [hphase, if_neg (by simp), hids] at ht
      exact ⟨hfull.symm, ht⟩
    refine ⟨?_, by rw [hphase]; exact hext.inputIds_eq, hfinal⟩
    refine
      { seat_eq := hext.seat_eq
        row_eq := by rw [← hslice]; exact hrow
        start_eq := by rw [← hslice]; rfl
        done_lt := by simp only [after, PendingReq.live]; omega
        done_le := hle
        tokens_eq := by rw [← hslice]; rfl
        ids_eq := ?_ }
    cases hc : x.2.chunked with
    | true =>
        left
        simp [after, hc]
    | false =>
        right
        obtain ⟨hfull, ht⟩ := hfinal hc
        exact ⟨hfull.symm, x.1, by simp [after, hc, ht, PendingReq.live]⟩
  · refine ⟨x.2.live t, mem_lives_of_running hrun, s, hmem, hslice, ?_⟩
    have hlen := hr.length_eq x.2 hrun
    have hlast := hr.last_eq x.2 hrun
    have hnot := (hs.running_ok x.2 hrun).not_chunked
    simp only [hphase, Req.slice, Option.map_eq_some_iff] at hslice
    obtain ⟨tok, htok, rfl⟩ := hslice
    rw [hlast] at htok
    obtain ⟨ys, hys⟩ := List.getLast?_eq_some_iff.mp htok
    have hdev : x.2.deviceLen = ys.length + 1 := by
      rw [← hlen, hys]
      simp
    have ht : transcript out t x.2.tableIdx = t x.2.tableIdx ++ [x.1] := by
      have ht := h.transcript_of_mem (t := t) hs hx hnot
      rwa [hphase, if_pos rfl] at ht
    refine ⟨?_, by rw [hphase]; exact (List.take_of_length_le hlen.le).symm,
      fun _ => ⟨hlen, ht⟩⟩
    refine
      { seat_eq := rfl
        row_eq := rfl
        start_eq := rfl
        done_lt := by simp only [after, Req.live]; omega
        done_le := by simp only [after, Req.live, hlen]; exact Nat.le_refl _
        tokens_eq := ?_
        ids_eq := Or.inr ⟨hlen.symm, x.1, by simp [after, hnot, ht, Req.live]⟩ }
    simp only [after, Req.live, hys, hdev]
    rw [List.take_of_length_le (by simp)]
    simp

omit h in
/-- A sampled request that was not a chunk, as it is after the step. -/
theorem live_roundOf {x : Token × Req} {y : Live} (hc : x.2.chunked = false) :
    (e.roundOf out.batch.phase x).2.live (transcript out t) = after out t y x.2 := by
  have hround := rounded e out.batch.phase x
  obtain ⟨hdev, -, -⟩ := hround.sampled hc
  have hrow : (e.roundOf out.batch.phase x).2.tableIdx = x.2.tableIdx :=
    congrArg Seat.row hround.seat_eq
  simp [Req.live, after, hround.seat_eq, hrow, hdev, hc]

/-- Every live request after the step was live before, and was advanced if it was
in the batch. -/
theorem lives_step (hs : e.scheduler.Ok) (hr : Recorded e t) :
    ∀ x' ∈ e'.lives (transcript out t),
      (x' ∈ e.lives t ∧ x'.seat.row ∉ out.batch.reqs.map Req.tableIdx) ∨
      ∃ x ∈ e.lives t, ∃ s ∈ out.slices, Advanced x s x' := by
  have hstep := h.stepped hs
  intro x' hx'
  rcases List.mem_append.mp hx' with hx' | hx'
  · obtain ⟨p, hp, rfl⟩ := List.mem_map.mp hx'
    rcases hstep.pending p hp with ⟨hp, hrow⟩ | ⟨p0, hp0, req, hreq, -, hext, hc, rfl⟩
    · exact Or.inl ⟨mem_lives_of_pending hp, hrow⟩
    · right
      rw [← h.map_snd_rounds] at hreq
      obtain ⟨z, hz, rfl⟩ := List.mem_map.mp hreq
      obtain ⟨y, hy, s, hmem, -, hadv, -⟩ := h.advanced hs hr hz
      have hsame : y = p0.live := by
        refine List.inj_on_of_nodup_map (lives_rows_nodup hs) hy (mem_lives_of_pending hp0) ?_
        exact congrArg Seat.row (hadv.seat_eq.symm.trans hext.seat_eq)
      refine ⟨y, hy, s, hmem, ?_⟩
      have hlive : ({ p0 with chunkedReq := some z.2 } : PendingReq).live = after out t y z.2 := by
        simp only [after, hc, if_true, hsame, hext.seat_eq]
        rfl
      rw [hlive]
      exact hadv
  · obtain ⟨r, hrun, rfl⟩ := List.mem_map.mp hx'
    rcases hstep.running r hrun with ⟨hrun, hrow⟩ | ⟨x, hx, rfl, hc, -⟩
    · left
      refine ⟨?_, hrow⟩
      have hsame : r.live (transcript out t) = r.live t := by
        rw [Req.live, h.transcript_of_notMem hrow]
        rfl
      rw [hsame]
      exact mem_lives_of_running hrun
    · right
      obtain ⟨z, hz, rfl⟩ := List.mem_map.mp hx
      obtain ⟨y, hy, s, hmem, -, hadv, -⟩ := h.advanced hs hr hz
      rw [(rounded e out.batch.phase z).chunked_eq] at hc
      exact ⟨y, hy, s, hmem, live_roundOf (y := y) hc ▸ hadv⟩

/-- A finished request was live too, and its transcript is complete. -/
theorem finished_step (hs : e.scheduler.Ok) (hr : Recorded e t) {f : Req}
    (hf : f ∈ out.finished) :
    (transcript out t f.tableIdx).length = f.deviceLen ∧
    ∃ x ∈ e.lives t, ∃ s ∈ out.slices, Advanced x s (f.live (transcript out t)) := by
  rw [h.finished_eq, finishedOf, List.mem_filter, h.reqs_eq'] at hf
  obtain ⟨hf, hcond⟩ := hf
  obtain ⟨x, hx, rfl⟩ := List.mem_map.mp hf
  obtain ⟨z, hz, rfl⟩ := List.mem_map.mp hx
  simp only [Bool.and_eq_true, Bool.not_eq_true'] at hcond
  have hround := rounded e out.batch.phase z
  have hc : z.2.chunked = false := hround.chunked_eq ▸ hcond.1
  obtain ⟨y, hy, s, hmem, -, hadv, -, hfinal⟩ := h.advanced hs hr hz
  obtain ⟨hlen, ht⟩ := hfinal hc
  have hrow : (e.roundOf out.batch.phase z).2.tableIdx = z.2.tableIdx :=
    congrArg Seat.row hround.seat_eq
  refine ⟨?_, y, hy, s, hmem, live_roundOf (y := y) hc ▸ hadv⟩
  rw [hrow, ht, (hround.sampled hc).1, ← hlen]
  simp

theorem finished_rows_nodup (hs : e.scheduler.Ok) :
    (e'.scheduler.seats.map Seat.row ++ out.finished.map Req.tableIdx).Nodup := by
  have hstep := h.stepped hs
  have hn := (hstep.seats_perm.map Seat.row).nodup_iff.mp hs.seat_rows_nodup
  rw [List.map_append, Scheduler.map_row_seat_running, h.finishedIn_eq] at hn
  exact hn

theorem mid_fullIds_of_notMem {row : Nat} (hrow : row ∉ out.batch.reqs.map Req.tableIdx) :
    (mid e out s1).fullIds row = e.fullIds row := by
  refine sampleAll_fullIds_of_notMem (e := { e with scheduler := s1 }) fun x hx _ heq => hrow ?_
  rw [← heq]
  exact List.mem_map.mpr ⟨x.2, h.mem_batch hx, rfl⟩

/-- With the prefix cache on, the engine records what the transcript says. -/
theorem mid_fullIds (hs : e.scheduler.Ok) (hr : Recorded e t) (hsome : e.cacheManager.isSome)
    {z : Token × Req} (hz : z ∈ rounds out) (hc : z.2.chunked = false) :
    (mid e out s1).fullIds z.2.tableIdx = some (transcript out t z.2.tableIdx) := by
  rw [h.transcript_of_mem hs hz hc]
  refine sampleAll_fullIds (e := { e with scheduler := s1 }) hc hsome (h.rounds_rows_nodup hs) hz
    fun hphase => ?_
  rcases (h.stepped hs).origin z.2 (h.mem_batch hz) with ⟨hprefill, -⟩ | ⟨-, hrun⟩
  · rw [hphase] at hprefill
    cases hprefill
  · exact hr.fullIds_eq hsome z.2 hrun

theorem recorded (hs : e.scheduler.Ok) (hr : Recorded e t) :
    Recorded e' (transcript out t) := by
  have hstep := h.stepped hs
  have hcases : ∀ r ∈ e'.scheduler.runningReqs,
      (r ∈ e.scheduler.runningReqs ∧ r.tableIdx ∉ out.batch.reqs.map Req.tableIdx) ∨
      ∃ z ∈ rounds out, r = (e.roundOf out.batch.phase z).2 ∧ z.2.chunked = false := by
    intro r hr
    rcases hstep.running r hr with h1 | ⟨x, hx, rfl, hc, -⟩
    · exact Or.inl h1
    · obtain ⟨z, hz, rfl⟩ := List.mem_map.mp hx
      exact Or.inr ⟨z, hz, rfl, (rounded e out.batch.phase z).chunked_eq ▸ hc⟩
  have hrow : ∀ z : Token × Req, (e.roundOf out.batch.phase z).2.tableIdx = z.2.tableIdx :=
    fun z => congrArg Seat.row (rounded e out.batch.phase z).seat_eq
  refine ⟨fun r hrun => ?_, fun r hrun => ?_, fun hsome r hrun => ?_⟩
  · rcases hcases r hrun with ⟨hrun, hnot⟩ | ⟨z, hz, rfl, hc⟩
    · rw [h.transcript_of_notMem hnot]
      exact hr.length_eq r hrun
    · obtain ⟨y, -, s, -, -, -, -, hfinal⟩ := h.advanced hs hr hz
      obtain ⟨hlen, ht⟩ := hfinal hc
      rw [hrow, ht, ((rounded e out.batch.phase z).sampled hc).1, ← hlen]
      simp
  · rcases hcases r hrun with ⟨hrun, hnot⟩ | ⟨z, hz, rfl, hc⟩
    · rw [h.transcript_of_notMem hnot]
      exact hr.last_eq r hrun
    · rw [hrow, h.transcript_of_mem hs hz hc, ((rounded e out.batch.phase z).sampled hc).2.1]
      split <;> simp
  · have hfinished : r.tableIdx ∉ out.finished.map Req.tableIdx := fun hmem =>
      (List.nodup_append'.mp (h.finished_rows_nodup hs)).2.2
        (List.mem_map.mpr ⟨r.seat, List.mem_append_right _ (List.mem_map.mpr ⟨r, hrun, rfl⟩), rfl⟩)
        hmem
    have hcommit := (commitAll_others h.commit_mid hfinished).1
    have hsome' : e.cacheManager.isSome := by
      rw [h.final_eq] at hsome
      exact h.frame.isSome_eq.symm.trans hsome
    rw [h.final_eq]
    refine hcommit.trans ?_
    rcases hcases r hrun with ⟨hrun, hnot⟩ | ⟨z, hz, rfl, hc⟩
    · rw [h.transcript_of_notMem hnot, h.mid_fullIds_of_notMem hnot]
      exact hr.fullIds_eq hsome' r hrun
    · rw [hrow]
      exact h.mid_fullIds hs hr hsome' hz hc

end StepRun

/-! ### Finishing -/

/-- The requests a step is going to finish, each with the token that ends it. -/
def finishing (e : Engine) (sampled : Nat → Token) : List (Token × Req) :=
  match e.scheduler.schedule with
  | none => []
  | some (batch, _) =>
      (((List.range batch.reqs.length).map sampled).zip batch.reqs).filter fun x =>
        !x.2.chunked && decide (x.2.Stops e.config.eosTokenId x.1)

namespace StepRun

variable {sampled : Nat → Token} {out : StepOutput} {s1 : Scheduler} {e2 : Engine}

variable (h : StepRun e sampled out e' s1 e2)
include h

theorem not_aborted (hs : e.scheduler.Ok) {req : Req} (hreq : req ∈ out.batch.reqs) :
    req.aborted = false := by
  rcases (h.stepped hs).origin req hreq with ⟨-, p, -, hext⟩ | ⟨-, hrun⟩
  · exact hext.not_aborted
  · exact (hs.running_ok req hrun).not_aborted

theorem finishing_eq : e.finishing sampled = (rounds out).filter fun x =>
    !x.2.chunked && decide (x.2.Stops e.config.eosTokenId x.1) := by
  simp only [finishing, h.schedule_eq, rounds, h.nextTokenIds_eq]

theorem mem_finishing {x : Token × Req} : x ∈ e.finishing sampled ↔
    x ∈ rounds out ∧ x.2.chunked = false ∧ x.2.Stops e.config.eosTokenId x.1 := by
  rw [h.finishing_eq, List.mem_filter]
  simp

/-- Those requests, after their round, are what the step reports as finished. -/
theorem finished_finishing (hs : e.scheduler.Ok) :
    out.finished = (e.finishing sampled).map fun x => (e.roundOf out.batch.phase x).2 := by
  rw [h.finished_eq, h.reqs_eq', pairs, List.map_map, finishedOf, List.filter_map, h.finishing_eq]
  have hfilter : (rounds out).filter ((fun req : Req => !req.chunked && req.aborted) ∘
      (Prod.snd ∘ e.roundOf out.batch.phase)) = (rounds out).filter fun x =>
        !x.2.chunked && decide (x.2.Stops e.config.eosTokenId x.1) := by
    refine List.filter_congr fun x hx => ?_
    have hround := rounded e out.batch.phase x
    have hnot := h.not_aborted hs (h.mem_batch hx)
    simp only [Function.comp_apply, hround.chunked_eq]
    cases hc : x.2.chunked with
    | true => rfl
    | false =>
        have hiff := (hround.sampled hc).2.2
        rw [hnot] at hiff
        simp only [Bool.not_false, Bool.true_and]
        rw [Bool.eq_iff_iff, hiff, decide_eq_true_iff]
        simp
  rw [hfilter]
  rfl

end StepRun

end Engine

end FreeToken
