import Mathlib.Data.List.Zip
import FreeToken.Engine.Calls
import FreeToken.Engine.Ownership

/-!
# `Engine.generate`

`generate` steps the engine until it is idle or the step budget is used up. It credits
the sampled tokens to the uids of their requests; which request a token was sampled for
is read off the batches, row by row.
-/

namespace FreeToken

namespace Engine

/-! ### The loop -/

/-- One step for each chunk of each prompt and each output token, and the decode set. -/
def defaultBudget (e : Engine) : Int :=
  (e.scheduler.pendingList.map fun p =>
      (ceilDiv p.inputIds.length (max 1 e.scheduler.maxExtendTokens) : Int) + p.outputLen).sum +
    e.scheduler.runningReqs.length

/-- How often `while steps < budget` may turn. -/
def stepBudget (e : Engine) (maxSteps : Option Int) : Nat := (maxSteps.getD e.defaultBudget).toNat

/-- `tokens.setdefault(uid, []).append(tok)`. -/
def credit (uid : Int) (tok : Token) (tokens : List (Int × List Token)) : List (Int × List Token) :=
  dictSet uid ((dictGet uid tokens).getD [] ++ [tok]) tokens

/-- The tokens of a step go to their requests' accumulators; chunks get none. -/
def creditStep (tokens : List (Int × List Token)) (out : StepOutput) : List (Int × List Token) :=
  (out.reqs.zip out.nextTokenIds).foldl
    (fun tokens x => if x.1.chunked then tokens else credit x.1.uid x.2 tokens) tokens

/-- The loop of `generate`, with at most `n` steps left; `sampled k` is what the `k`-th of
them samples. -/
def generateLoop (e : Engine) (sampled : Nat → Nat → Token) (tokens : List (Int × List Token)) :
    Nat → Except EngineError (List (Int × List Token) × Engine)
  | 0 => .ok (tokens, e)
  | n + 1 =>
      match e.step (sampled 0) with
      | .error err => .error err
      | .ok (out, e) =>
          if out.nextTokenIds = [] then .ok (tokens, e)
          else generateLoop e (fun k => sampled (k + 1)) (creditStep tokens out) n

/-- `tokens[pr.uid] = []` for the admitted requests. -/
def emptyTokens (ps : List PendingReq) : List (Int × List Token) :=
  ps.foldl (fun tokens p => dictSet p.uid [] tokens) []

def generate (e : Engine) (maxSteps : Option Int) (sampled : Nat → Nat → Token) :
    Except EngineError (List (List Token) × Engine) :=
  if e.scheduler.pendingList = [] then .ok ([], e)
  else
    match e.generateLoop sampled (emptyTokens e.scheduler.pendingList) (e.stepBudget maxSteps) with
    | .error err => .error err
    | .ok (tokens, e') =>
        .ok (e.scheduler.pendingList.map fun p => (dictGet p.uid tokens).getD [], e')

/-! ### What was sampled for whom -/

/-- The steps of a loop, one after the other. -/
inductive Steps : (Nat → Nat → Token) → Engine → List StepOutput → Engine → Prop where
  | nil (sampled : Nat → Nat → Token) (e : Engine) : Steps sampled e [] e
  | cons {sampled : Nat → Nat → Token} {e e1 e' : Engine} {out : StepOutput} {outs : List StepOutput}
      (hstep : e.step (sampled 0) = .ok (out, e1))
      (hrest : Steps (fun k => sampled (k + 1)) e1 outs e') : Steps sampled e (out :: outs) e'

/-- The slice of a request gives a token: it reaches the end of the prompt, or decodes. -/
def Emits (promptLen : Nat) (phase : Phase) (req : Req) : Prop :=
  phase = .decode ∨ req.deviceLen = promptLen

instance (promptLen : Nat) (phase : Phase) (req : Req) : Decidable (Emits promptLen phase req) :=
  inferInstanceAs (Decidable (_ ∨ _))

/-- The tokens a step sampled from the last-position logits of the request at a row. -/
def sampledFor (p : PendingReq) (out : StepOutput) : List Token :=
  ((out.batch.reqs.zip out.nextTokenIds).filter fun x =>
    decide (x.1.tableIdx = p.tableIdx ∧ Emits p.inputLen out.batch.phase x.1)).map Prod.snd

/-- A batch of these requests: one slice a row at most, each with the uid, the handle and
the linear-state slots of its request. -/
structure Serves (ps : List PendingReq) (out : StepOutput) : Prop where
  rows_nodup : (out.batch.reqs.map Req.tableIdx).Nodup
  own : ∀ req ∈ out.batch.reqs, ∃ p ∈ ps, req.seat = p.seat

variable {e e' : Engine} {t : Transcript} {orphans : List RadixCacheHandle} {ps : List PendingReq}

/-- The live requests are among these. -/
structure Tracks (ps : List PendingReq) (e : Engine) : Prop where
  pending : ∀ q ∈ e.scheduler.pendingList, ∃ p ∈ ps, q.seat = p.seat ∧ q.inputIds = p.inputIds
  running : ∀ r ∈ e.scheduler.runningReqs, ∃ p ∈ ps, r.seat = p.seat

theorem Tracks.of_idle (h : e.scheduler.runningReqs = []) : Tracks e.scheduler.pendingList e where
  pending := fun q hq => ⟨q, hq, rfl, rfl⟩
  running := fun r hr => by rw [h] at hr; cases hr

namespace StepRun

variable {sampled : Nat → Token} {out : StepOutput} {s1 : Scheduler} {e2 : Engine}

variable (h : StepRun e sampled out e' s1 e2)
include h

/-- A request of the batch is one of them, and gives a token unless it is a chunk. -/
theorem tracked (ht : Tracks ps e) (hs : e.scheduler.Ok) {req : Req} (hreq : req ∈ out.batch.reqs) :
    ∃ p ∈ ps, req.seat = p.seat ∧ (req.chunked = false ↔ Emits p.inputLen out.batch.phase req) := by
  rcases (h.stepped hs).origin req hreq with ⟨hphase, q, hq, hext⟩ | ⟨hphase, hrun⟩
  · obtain ⟨p, hp, hseat, hids⟩ := ht.pending q hq
    refine ⟨p, hp, hext.seat_eq.trans hseat, ?_⟩
    have hlen : q.inputLen = p.inputLen := congrArg List.length hids
    have hle := hext.deviceLen_le
    rw [hext.chunked_eq, decide_eq_false_iff_not, Emits, hphase, ← hlen]
    constructor
    · intro hnot
      right
      omega
    · rintro (hdecode | heq)
      · cases hdecode
      · omega
  · obtain ⟨p, hp, hseat⟩ := ht.running req hrun
    refine ⟨p, hp, hseat, ?_⟩
    rw [(hs.running_ok req hrun).not_chunked, Emits, hphase]
    exact iff_of_true rfl (Or.inl rfl)

theorem tracks (ht : Tracks ps e) (hs : e.scheduler.Ok) : Tracks ps e' := by
  have hstepped := h.stepped hs
  constructor
  · intro q hq
    rcases hstepped.pending q hq with ⟨hq, -⟩ | ⟨p0, hp0, req, -, -, -, -, rfl⟩
    · exact ht.pending q hq
    · exact ht.pending p0 hp0
  · intro r hr
    rcases hstepped.running r hr with ⟨hr, -⟩ | ⟨x, hx, rfl, -, -⟩
    · exact ht.running r hr
    · have hseat := (sampled_pairs x hx).seat_eq
      have hmem : x.1 ∈ out.batch.reqs := by
        rw [← h.map_fst_pairs]
        exact List.mem_map_of_mem hx
      obtain ⟨p, hp, hp', -⟩ := h.tracked ht hs hmem
      exact ⟨p, hp, hseat.trans hp'⟩

theorem serves (ht : Tracks ps e) (hs : e.scheduler.Ok) : Serves ps out where
  rows_nodup := (h.stepped hs).rows_nodup
  own := fun req hreq => by
    obtain ⟨p, hp, hseat, -⟩ := h.tracked ht hs hreq
    exact ⟨p, hp, hseat⟩

/-- The requests handed back, with their tokens, round by round. -/
theorem zip_reqs : out.reqs.zip out.nextTokenIds =
    (rounds out).map fun x => ((e.roundOf out.batch.phase x).2, x.1) := by
  have htokens : out.nextTokenIds = (rounds out).map Prod.fst :=
    (List.map_fst_zip (le_of_eq h.length_nextTokenIds)).symm
  rw [h.reqs_eq', pairs, List.map_map]
  conv_lhs => rw [htokens]
  exact List.zip_map'

end StepRun

/-! ### Crediting -/

/-- What a uid is credited in a step. -/
def credited (uid : Int) (out : StepOutput) : List Token :=
  ((out.reqs.zip out.nextTokenIds).filter fun x => !x.1.chunked && decide (x.1.uid = uid)).map Prod.snd

theorem dictGet_creditStep (tokens : List (Int × List Token)) (out : StepOutput) (uid : Int) :
    (dictGet uid (creditStep tokens out)).getD [] =
      (dictGet uid tokens).getD [] ++ credited uid out := by
  unfold creditStep credited
  induction out.reqs.zip out.nextTokenIds generalizing tokens with
  | nil => simp
  | cons x xs ih =>
      rw [List.foldl_cons, ih, List.filter_cons]
      cases hc : x.1.chunked with
      | true => simp
      | false =>
          simp only [Bool.false_eq_true, if_false, credit]
          rw [dictGet_dictSet]
          by_cases huid : x.1.uid = uid
          · simp [huid]
          · simp [huid]

/-- The uid is credited what was sampled at the row. -/
theorem StepRun.credited_eq {sampled : Nat → Token} {out : StepOutput} {s1 : Scheduler} {e2 : Engine}
    (h : StepRun e sampled out e' s1 e2) (ht : Tracks ps e) (hs : e.scheduler.Ok)
    (huid : (ps.map PendingReq.uid).Nodup) (hrow : (ps.map PendingReq.tableIdx).Nodup)
    {p : PendingReq} (hp : p ∈ ps) : credited p.uid out = sampledFor p out := by
  have hzip : out.batch.reqs.zip out.nextTokenIds = (rounds out).map Prod.swap :=
    (List.zip_swap _ _).symm
  rw [credited, sampledFor, h.zip_reqs, hzip, List.filter_map, List.filter_map, List.map_map,
    List.map_map]
  have hfilter : ∀ x ∈ rounds out,
      ((fun x : Req × Token => !x.1.chunked && decide (x.1.uid = p.uid)) ∘
        fun x => ((e.roundOf out.batch.phase x).2, x.1)) x =
      ((fun x : Req × Token => decide (x.1.tableIdx = p.tableIdx ∧
        Emits p.inputLen out.batch.phase x.1)) ∘ Prod.swap) x := by
    intro x hx
    have hround := rounded e out.batch.phase x
    obtain ⟨q, hq, hseat, hemits⟩ := h.tracked ht hs (h.mem_batch hx)
    have huidx : (e.roundOf out.batch.phase x).2.uid = q.uid :=
      (congrArg Seat.uid hround.seat_eq).trans (congrArg Seat.uid hseat)
    have hrowx : x.2.tableIdx = q.tableIdx := congrArg Seat.row hseat
    -- among the admitted requests both the uid and the row name the request
    have hiff : q.uid = p.uid ↔ q.tableIdx = p.tableIdx := by
      constructor
      · intro heq
        rw [List.inj_on_of_nodup_map huid hq hp heq]
      · intro heq
        rw [List.inj_on_of_nodup_map hrow hq hp heq]
    simp only [Function.comp_apply, Prod.fst_swap, hround.chunked_eq, huidx, hrowx]
    rw [Bool.eq_iff_iff]
    simp only [Bool.and_eq_true, Bool.not_eq_true', decide_eq_true_eq, hemits]
    constructor
    · rintro ⟨hem, heq⟩
      obtain rfl := List.inj_on_of_nodup_map huid hq hp heq
      exact ⟨rfl, hem⟩
    · rintro ⟨heq, hem⟩
      obtain rfl := List.inj_on_of_nodup_map hrow hq hp heq
      exact ⟨hem, rfl⟩
  rw [List.filter_congr hfilter]
  rfl

theorem generateLoop_steps : ∀ {n : Nat} {e : Engine} {sampled : Nat → Nat → Token}
    {tokens tokens' : List (Int × List Token)}, e.generateLoop sampled tokens n = .ok (tokens', e') →
    ∃ outs, Steps sampled e outs e' ∧ tokens' = outs.foldl creditStep tokens
  | 0, e, sampled, tokens, tokens', h => by
      obtain ⟨rfl, rfl⟩ := Prod.mk.inj (Except.ok.inj h)
      exact ⟨[], Steps.nil _ _, rfl⟩
  | n + 1, e, sampled, tokens, tokens', h => by
      simp only [generateLoop] at h
      cases hstep : e.step (sampled 0) with
      | error err =>
          rw [hstep] at h
          cases h
      | ok r =>
          obtain ⟨out, e1⟩ := r
          simp only [hstep] at h
          split at h
          · rename_i hnil
            obtain ⟨rfl, rfl⟩ := Prod.mk.inj (Except.ok.inj h)
            refine ⟨[out], Steps.cons hstep (Steps.nil _ _), ?_⟩
            simp [creditStep, hnil]
          · obtain ⟨outs, hsteps, htokens⟩ := generateLoop_steps h
            exact ⟨out :: outs, Steps.cons hstep hsteps, htokens⟩

/-- The steps of a loop credit each of the requests what they sampled for it. -/
theorem Steps.credits {sampled : Nat → Nat → Token} {outs : List StepOutput}
    (hsteps : Steps sampled e outs e') (huid : (ps.map PendingReq.uid).Nodup)
    (hrow : (ps.map PendingReq.tableIdx).Nodup) (ht : Tracks ps e) {t : Transcript}
    (hb : Books e t orphans) (tokens : List (Int × List Token)) :
    (∀ p ∈ ps, (dictGet p.uid (outs.foldl creditStep tokens)).getD [] =
      (dictGet p.uid tokens).getD [] ++ outs.flatMap (sampledFor p)) ∧
    ∀ out ∈ outs, Serves ps out := by
  induction hsteps generalizing t tokens with
  | nil sampled e => simp
  | @cons sampled e e1 e' out outs hstep hrest ih =>
      rcases step_cases hstep with ⟨-, rfl, rfl⟩ | ⟨s1, e2, hrun⟩
      · obtain ⟨ih1, ih2⟩ := ih ht hb tokens
        constructor
        · intro p hp
          have hempty : creditStep tokens {} = tokens := rfl
          rw [List.foldl_cons, hempty, ih1 p hp, List.flatMap_cons]
          rfl
        · intro out hout
          rcases List.mem_cons.mp hout with rfl | hout
          · exact ⟨List.nodup_nil, fun req hreq => by cases hreq⟩
          · exact ih2 out hout
      · have hs := hb.sched
        obtain ⟨ih1, ih2⟩ := ih (hrun.tracks ht hs) (hb.step hstep) (creditStep tokens out)
        constructor
        · intro p hp
          rw [List.foldl_cons, ih1 p hp, dictGet_creditStep, hrun.credited_eq ht hs huid hrow hp,
            List.flatMap_cons, List.append_assoc]
        · intro out' hout
          rcases List.mem_cons.mp hout with rfl | hout
          · exact hrun.serves ht hs
          · exact ih2 out' hout

theorem dictGet_emptyTokens {p : PendingReq} : ∀ {ps : List PendingReq}
    {tokens : List (Int × List Token)}, (dictGet p.uid tokens).getD [] = [] →
    (dictGet p.uid (ps.foldl (fun tokens p => dictSet p.uid [] tokens) tokens)).getD [] = []
  | [], _, h => h
  | q :: ps, tokens, h => by
      rw [List.foldl_cons]
      apply dictGet_emptyTokens
      rw [dictGet_dictSet]
      split
      · rfl
      · exact h

/-! ### Admitting the requests -/

/-- The requests are queued in the order in which they were added. -/
theorem pendingList_of_adds : ∀ {requests : List AddArgs} {e : Engine} {t : Transcript}
    {orphans : List RadixCacheHandle}, Books e t orphans →
    Run.AllSteps call Returns e (requests.map Call.addRequest) →
    Run.exec call e (requests.map Call.addRequest) = some e' →
    (∃ t' orphans', Books e' t' orphans') ∧
      e'.scheduler.runningReqs = e.scheduler.runningReqs ∧
      e'.scheduler.pendingList.map (fun p => (p.uid, p.inputIds)) =
        e.scheduler.pendingList.map (fun p => (p.uid, p.inputIds)) ++
          requests.map fun args => (args.uid, args.inputIds)
  | [], e, t, orphans, hb, _, h => by
      obtain rfl := Option.some.inj h
      exact ⟨⟨t, orphans, hb⟩, rfl, (List.append_nil _).symm⟩
  | args :: requests, e, t, orphans, hb, hret, h => by
      obtain ⟨p, hp⟩ := hret.1
      have heq : e.addRequest args = (.ok p, (e.addRequest args).2) := by rw [← hp]
      obtain ⟨e3, k, hreturned⟩ := hb.returned heq
      have hqueued := hreturned.queuedIn hb
      obtain ⟨orphans', hb'⟩ := hb.addRequest args
      obtain ⟨hbooks, hrunning, hlist⟩ := pendingList_of_adds hb' (hret.2 _ rfl) h
      refine ⟨hbooks, hrunning.trans hqueued.runningReqs_eq, ?_⟩
      rw [hlist, hqueued.pendingList_eq, List.map_append, List.map_cons, List.map_nil,
        hreturned.queued.uid_eq, hreturned.queued.inputIds_eq, List.map_cons, List.append_assoc]
      rfl

/-- From an idle engine, the lists `generate` returns are the tokens sampled for the
requests during its steps, request by request in the order they were added. -/
theorem generate_attributes {config : EngineConfig} {calls : List Call} {e0 : Engine}
    (h : runs config calls = some e0) (hidle : e0.scheduler.seats = []) {requests : List AddArgs}
    (hret : Run.AllSteps call Returns e0 (requests.map Call.addRequest))
    (hadds : Run.exec call e0 (requests.map Call.addRequest) = some e)
    (huid : (requests.map AddArgs.uid).Nodup) {maxSteps : Option Int} {sampled : Nat → Nat → Token}
    {lists : List (List Token)} (hgen : e.generate maxSteps sampled = .ok (lists, e')) :
    e.scheduler.pendingList.map (fun p => (p.uid, p.inputIds)) =
        requests.map (fun args => (args.uid, args.inputIds)) ∧
      ∃ outs, Steps sampled e outs e' ∧
        lists = e.scheduler.pendingList.map (fun p => outs.flatMap (sampledFor p)) ∧
        ∀ out ∈ outs, Serves e.scheduler.pendingList out := by
  obtain ⟨t, orphans, hb⟩ := books_of_runs h
  obtain ⟨⟨t', orphans', hb'⟩, hrunning, hlist⟩ := pendingList_of_adds hb hret hadds
  obtain ⟨hpending0, hrunning0⟩ := List.append_eq_nil_iff.mp hidle
  rw [List.map_eq_nil_iff] at hpending0 hrunning0
  rw [hrunning0] at hrunning
  rw [hpending0, List.map_nil, List.nil_append] at hlist
  refine ⟨hlist, ?_⟩
  unfold generate at hgen
  split at hgen
  · rename_i hnil
    obtain ⟨rfl, rfl⟩ := Prod.mk.inj (Except.ok.inj hgen)
    refine ⟨[], Steps.nil _ _, ?_, fun out hout => by cases hout⟩
    rw [hnil]
    rfl
  · cases hloop : e.generateLoop sampled (emptyTokens e.scheduler.pendingList)
        (e.stepBudget maxSteps) with
    | error err =>
        rw [hloop] at hgen
        cases hgen
    | ok r =>
        obtain ⟨tokens, e1⟩ := r
        simp only [hloop] at hgen
        obtain ⟨rfl, rfl⟩ := Prod.mk.inj (Except.ok.inj hgen)
        obtain ⟨outs, hsteps, rfl⟩ := generateLoop_steps hloop
        have huids : (e.scheduler.pendingList.map PendingReq.uid).Nodup := by
          have hmap := congrArg (List.map Prod.fst) hlist
          simp only [List.map_map, Function.comp_def] at hmap
          rw [hmap]
          exact huid
        have hrows : (e.scheduler.pendingList.map PendingReq.tableIdx).Nodup :=
          hb'.sched.pending_rows_nodup
        obtain ⟨hcredits, hserves⟩ := hsteps.credits huids hrows (Tracks.of_idle hrunning) hb'
          (emptyTokens e.scheduler.pendingList)
        refine ⟨outs, hsteps, ?_, hserves⟩
        apply List.map_congr_left
        intro p hp
        rw [hcredits p hp, emptyTokens, dictGet_emptyTokens rfl, List.nil_append]

/-- Two rows, and two tokens of prompt a step. -/
def twoATime : EngineConfig where
  maxRunningReq := 2
  pageSize := 1
  maxSeqLen := 6
  numPages := 12
  maxExtendTokens := 2
  enablePrefixCache := true
  maxRunningReq_pos := Nat.two_pos
  pageSize_pos := Nat.one_pos
  maxExtendTokens_pos := Nat.two_pos

/-- A prompt of three tokens and one of a single token, two tokens to sample for each. -/
def twoPrompts : List AddArgs :=
  [{ uid := 5, inputIds := [7, 8, 9], samplingParams := { maxTokens := 2 } },
    { uid := 3, inputIds := [6], samplingParams := { maxTokens := 2 } }]

/-- The first step is a chunk, the second ends both prompts, and the third decodes both, the
second request first. -/
theorem twoPrompts_attributed : ∃ e e' lists,
    Run.exec call (init twoATime) (twoPrompts.map Call.addRequest) = some e ∧
    e.generate none (fun k j => 10 * k + j) = .ok (lists, e') ∧ lists = [[10, 21], [11, 20]] ∧
    ∃ outs, Steps (fun k j => 10 * k + j) e outs e' ∧
      lists = e.scheduler.pendingList.map (fun p => outs.flatMap (sampledFor p)) ∧
      ∀ out ∈ outs, Serves e.scheduler.pendingList out := by
  have hrun : runs twoATime [] = some (init twoATime) := rfl
  have hret : Run.AllSteps call Returns (init twoATime) (twoPrompts.map Call.addRequest) := by decide
  have hlists : ((Run.exec call (init twoATime) (twoPrompts.map Call.addRequest)).bind fun e =>
      (e.generate none fun k j => 10 * k + j).toOption.map Prod.fst) =
        some [[10, 21], [11, 20]] := by decide
  obtain ⟨e, hadds, hgen⟩ := Option.bind_eq_some_iff.mp hlists
  obtain ⟨⟨lists, e'⟩, hok, rfl⟩ := Option.map_eq_some_iff.mp hgen
  have hok' : e.generate none (fun k j => 10 * k + j) = .ok ([[10, 21], [11, 20]], e') := by
    cases hg : e.generate none fun k j => 10 * k + j with
    | error err =>
        rw [hg] at hok
        cases hok
    | ok r =>
        rw [hg] at hok
        exact congrArg Except.ok (Option.some.inj hok)
  exact ⟨e, e', _, hadds, hok', rfl,
    (generate_attributes hrun rfl hret hadds (by decide) hok').2⟩

end Engine

end FreeToken
