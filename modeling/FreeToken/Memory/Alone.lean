import FreeToken.Engine.Atomicity
import FreeToken.Memory.Sessions

/-!
# A request on its own

A request that was answered among others, in chunks, in batches, on a row that others had before it,
beside one that is all an engine is asked for. Without the prefix cache every answer is the plain
one, so the two are alike. An engine that accepts a request among others has the slots of a row, and
so has an empty one: there the request is accepted, and the steps answer it.
-/

namespace FreeToken

namespace EngineConfig

/-- A pool without its slot 0 has the slots of a row. -/
def RowRoom (config : EngineConfig) : Prop :=
  ceilDiv config.maxSeqLen config.pageSize * config.pageSize ≤
    (MHAKVCache.usable ((config.numPages + 1) * config.pageSize)).length

/-- The same engine with another `max_extend_tokens`. -/
def withChunk (config : EngineConfig) (chunk : Nat) (hchunk : 0 < chunk) : EngineConfig :=
  { config with maxExtendTokens := chunk, maxExtendTokens_pos := hchunk }

end EngineConfig

namespace Engine

variable {e : Engine} {t : Transcript} {orphans : List RadixCacheHandle} {lost : List Slot}

/-- What is granted without a prefix cache fits into an empty pool. -/
theorem Ownership.rowRoom (ho : Ownership e t orphans lost)
    (hoff : e.config.enablePrefixCache = false)
    (hnum : e.kvCache.numPages = e.config.numPages + 1) {args : AddArgs}
    (hadm : Admissible e args) : e.config.RowRoom := by
  have hnone : e.cacheManager = none := by
    have hsome := ho.books.isSome_eq
    rw [hoff] at hsome
    exact Option.not_isSome_iff_eq_none.mp (by rw [hsome]; exact Bool.false_ne_true)
  have hpages := hadm.pages
  have hcached : e.cachedPrefix args.inputIds = 0 := by rw [cachedPrefix, hnone]
  have hbeside : e.evictableBeside args.inputIds = 0 := by rw [evictableBeside, hnone]
  have hlen := ho.keeping.slots_perm.length_eq
  rw [hcached, hbeside, pagesFor, Int.sub_zero, Int.add_zero, Int.ofNat_le] at hpages
  rw [List.length_append, MHAKVCache.numSlots, hnum, ho.books.pageSize_eq] at hlen
  exact hpages.trans ((Nat.le_add_right _ _).trans hlen.le)

/-- An empty engine grants it. -/
theorem init_admissible {config : EngineConfig} (hoff : config.enablePrefixCache = false)
    (hroom : config.RowRoom) (args : AddArgs) : Admissible (init config) args where
  linear := by
    intro pool hpool
    simp [init, hoff] at hpool
  row := by
    have hpos := config.maxRunningReq_pos
    exact List.ne_nil_of_length_pos (by simpa [init, Scheduler.init] using hpos)
  prompt := .inr (by simp [init, hoff])
  pages := by
    have hcached : (init config).cachedPrefix args.inputIds = 0 := by
      simp [cachedPrefix, init, hoff]
    have hbeside : (init config).evictableBeside args.inputIds = 0 := by
      simp [evictableBeside, init, hoff]
    rw [hcached, hbeside, pagesFor, Int.sub_zero, Int.add_zero, Int.ofNat_le]
    exact hroom

end Engine

namespace Session

variable {V : Type} {m : CausalModel Token V} {config : EngineConfig} {P : AddArgs → Prop}
  {s s' : Session V}

/-! ### The session with the others -/

/-- Every request is accepted: it has a prompt, and its row has room for prompt and answer. -/
def Accepts (s : Session V) : Ask → Prop
  | .add args => s.engine.Returns (.addRequest args) ∧ args.inputIds ≠ [] ∧
      (args.inputIds.length : Int) + args.samplingParams.maxTokens ≤ s.engine.config.maxSeqLen
  | .step _ | .abort _ => True

instance (s : Session V) : (a : Ask) → Decidable (s.Accepts a)
  | .add _ => inferInstanceAs (Decidable (_ ∧ _))
  | .step _ | .abort _ => isTrue trivial

/-- A request that an empty engine accepts and can serve. -/
def Placeable (config : EngineConfig) (args : AddArgs) : Prop :=
  config.RowRoom ∧ args.inputIds ≠ [] ∧
    (args.inputIds.length : Int) + args.samplingParams.maxTokens ≤ config.maxSeqLen

/-- An accepted session is sound, and serves only requests of the kind `P`. -/
structure Kept (m : CausalModel Token V) (config : EngineConfig) (P : AddArgs → Prop)
    (s : Session V) : Prop where
  sound : ∃ orphans lost, Sound m s orphans lost
  config_eq : s.engine.config = config
  numPages_eq : s.engine.kvCache.numPages = config.numPages + 1
  live : ∀ seat ∈ s.engine.scheduler.seats, P (s.asked seat.row)
  answered : ∀ a ∈ s.answers, P a.1

/-- A placeable request that is added is of the kind `P`. -/
def Adds (config : EngineConfig) (P : AddArgs → Prop) : Ask → Prop
  | .add args => Placeable config args → P args
  | .step _ | .abort _ => True

theorem kept_init (config : EngineConfig) (mem : Slot → V) : Kept m config P (init config mem) where
  sound := ⟨[], [], sound_init config mem⟩
  config_eq := rfl
  numPages_eq := rfl
  live _ h := by cases h
  answered _ h := by cases h

theorem Accepts.orderly {a : Ask} (h : s.Accepts a) (hoff : s.engine.config.enablePrefixCache = false) :
    s.Orderly m a := by
  cases a with
  | add args => exact .inl h.1
  | step drawn =>
      intro hon
      rw [hoff] at hon
      cases hon
  | abort uid => trivial

theorem Kept.next {a : Ask} (h : Kept m config P s) (hoff : config.enablePrefixCache = false)
    (hok : s.Accepts a) (hadds : Adds config P a) (hnext : s.next m a = some s') :
    Kept m config P s' := by
  obtain ⟨orphans, lost, hs⟩ := h.sound
  have hoff' : s.engine.config.enablePrefixCache = false := by rw [h.config_eq, hoff]
  have hsound := hs.next (hok.orderly hoff') hnext
  have hconfig := (hs.config_eq hnext).trans h.config_eq
  have hb := hs.own.books
  cases a with
  | add args =>
      obtain ⟨⟨p, hp⟩, hprompt, hrow⟩ := hok
      obtain ⟨e', heq⟩ : ∃ e', s.engine.addRequest args = (.ok p, e') := ⟨_, by rw [← hp]⟩
      simp only [Session.next, heq, Option.some.injEq] at hnext
      subst hnext
      obtain ⟨e3, k, hret⟩ := hb.returned heq
      have hin := hret.queuedIn hb
      have hplace : P args := by
        have hroom := hs.own.rowRoom hoff' (h.numPages_eq.trans (by rw [h.config_eq]))
          ((hb.returns_iff args).mp ⟨p, hp⟩)
        rw [h.config_eq] at hroom hrow
        exact hadds ⟨hroom, hprompt, hrow⟩
      refine ⟨hsound, hconfig, ?_, fun seat hseat => ?_, h.answered⟩
      · dsimp only
        rw [hret.allocated.numPages_eq, hret.queued.frame]
        exact h.numPages_eq
      · dsimp only at hseat ⊢
        rcases List.mem_cons.mp (hin.seats_perm.mem_iff.mp hseat) with rfl | hseat
        · exact (Function.update_self p.tableIdx args s.asked).symm ▸ hplace
        · have hne : seat.row ≠ p.tableIdx := fun heq =>
            hin.row_notMem hb.sched (heq ▸ List.mem_map_of_mem hseat)
          rw [Function.update_of_ne hne]
          exact h.live seat hseat
  | step drawn =>
      rcases hstep : s.engine.step (s.sampled m drawn) with _ | ⟨out, e'⟩
      · simp [Session.next, hstep] at hnext
      simp only [Session.next, hstep, Option.some.injEq] at hnext
      subst hnext
      rcases Engine.step_cases hstep with ⟨-, rfl, rfl⟩ | ⟨s1, e2, hrun⟩
      · exact ⟨hsound, hconfig, h.numPages_eq, h.live, by simpa [finish] using h.answered⟩
      have hseats := (hrun.stepped hb.sched).seats_perm
      rw [hrun.finishedIn_eq] at hseats
      refine ⟨hsound, hconfig, ?_, fun seat hseat => h.live seat ?_, fun a ha => ?_⟩
      · obtain ⟨freed, -, hn, heq⟩ := hrun.final hb
        obtain ⟨-, -, hnp, -⟩ := MHAKVCache.foldl_free_frame e2.kvCache hn
        dsimp only
        rw [heq]
        exact hnp.trans (hrun.frame.kvNumPages_eq.trans h.numPages_eq)
      · exact hseats.mem_iff.mpr (List.mem_append_left _ hseat)
      · rcases List.mem_append.mp ha with ha | ha
        · exact h.answered a ha
        · obtain ⟨f, hf, rfl⟩ := List.mem_map.mp ha
          exact h.live f.seat
            (hseats.mem_iff.mpr (List.mem_append_right _ (List.mem_map_of_mem hf)))
  | abort uid =>
      rcases hb.abort_cases uid with ⟨-, heq⟩ | ⟨seat, e', -, -, heq, hseat, hab⟩
      · simp only [Session.next, heq, Option.some.injEq] at hnext
        subst hnext
        exact h
      · simp only [Session.next, heq, Option.some.injEq] at hnext
        subst hnext
        refine ⟨hsound, hconfig, ?_, fun seat' hseat' => h.live seat' ?_, h.answered⟩
        · dsimp only
          rw [hab.frame]
          exact (s.engine.kvCache.free_frame seat.row).2.2.1.trans h.numPages_eq
        · exact hab.dropped.seats_perm.mem_iff.mpr (List.mem_cons_of_mem _ hseat')

theorem kept_of_run (hoff : config.enablePrefixCache = false) {mem : Slot → V} {asks : List Ask}
    (hall : Run.AllSteps (Session.next m) (fun s a => s.Accepts a ∧ Adds config P a)
      (init config mem) asks)
    (h : Run.exec (Session.next m) (init config mem) asks = some s) : Kept m config P s :=
  Run.invariant (Kept m config P) (fun _ _ _ hs hok hn => hs.next hoff hok.1 hok.2 hn)
    (kept_init config mem) hall h

theorem Kept.plain_of_mem (h : Kept m config P s) {a : AddArgs × List Token} (ha : a ∈ s.answers)
    (hgreedy : a.1.Greedy) : a.2 = plain m config.eosTokenId a.1 := by
  obtain ⟨orphans, lost, hs⟩ := h.sound
  exact h.config_eq ▸ hs.answered a ha hgreedy

/-! ### The session without them -/

/-- The request is all that is asked: it is added, and the engine stepped. -/
def alone (args : AddArgs) (n : Nat) (drawn : Nat → Token) : List Ask :=
  .add args :: List.replicate n (.step drawn)

theorem accepts_alone {mem : Slot → V} {args : AddArgs} (hoff : config.enablePrefixCache = false)
    (hplace : Placeable config args) (n : Nat) (drawn : Nat → Token) :
    Run.AllSteps (Session.next m) (fun s a => s.Accepts a ∧ Adds config (· = args) a)
      (init config mem) (alone args n drawn) := by
  have hsteps : ∀ (n : Nat) (s : Session V), Run.AllSteps (Session.next m)
      (fun s a => s.Accepts a ∧ Adds config (· = args) a) s (List.replicate n (.step drawn)) := by
    intro n
    induction n with
    | zero => exact fun _ => trivial
    | succ n ih => exact fun s => ⟨⟨trivial, trivial⟩, fun s' _ => ih s'⟩
  obtain ⟨hroom, hprompt, hrow⟩ := hplace
  have hreturns := ((Engine.books_init config fun _ => []).returns_iff args).mpr
    (Engine.init_admissible hoff hroom args)
  exact ⟨⟨⟨hreturns, hprompt, hrow⟩, fun _ => rfl⟩, fun s' _ => hsteps n s'⟩

/-- The request waits or runs, alone, or it has its answer. -/
structure Solo (args : AddArgs) (p : PendingReq) (s : Session V) (got : PendingReq → List Token)
    (left : PendingReq → Nat) : Prop where
  serving : Engine.Serving [p] s.engine got left
  asked_eq : s.asked p.tableIdx = args
  state : (s.engine.scheduler.seats = [p.seat] ∧ s.answers = []) ∨
    ∃ tokens, s.answers = [(args, tokens)]

theorem Solo.step {args : AddArgs} {p : PendingReq} {got : PendingReq → List Token}
    {left : PendingReq → Nat} (h : Solo args p s got left)
    (hseats : s.engine.scheduler.seats = [p.seat]) (hnone : s.answers = []) (drawn : Nat → Token) :
    ∃ s' got' left', s.next m (.step drawn) = some s' ∧ Solo args p s' got' left' ∧
      left' p < left p := by
  obtain ⟨t, orphans, hb⟩ := h.serving.books
  obtain ⟨out, e', hstep⟩ := h.serving.rowsFit.step_returns hb (s.sampled m drawn)
  rcases Engine.step_cases hstep with ⟨hidle, -, -⟩ | ⟨s1, e2, hrun⟩
  · -- what waits or runs is scheduled
    obtain ⟨hpending, hrunning⟩ := h.serving.live.idle hidle
    rw [Scheduler.seats, hpending, hrunning] at hseats
    cases hseats
  obtain ⟨left', hserving, hlt⟩ := h.serving.step hrun
  have hnext : s.next m (.step drawn) = some
      { engine := e', mem := (s.forward m).1, transcript := Engine.StepRun.transcript out s.transcript,
        asked := s.asked, answers := s.answers ++ s.finish out } := by
    simp only [Session.next, hstep]
  refine ⟨_, _, left', hnext, ⟨hserving, h.asked_eq, ?_⟩, by simpa using hlt⟩
  have hperm := (hrun.stepped hb.sched).seats_perm
  rw [hrun.finishedIn_eq, hseats, List.singleton_perm] at hperm
  rcases List.append_eq_singleton_iff.mp hperm.symm with ⟨-, hfin⟩ | ⟨hseats', hfin⟩
  · right
    obtain ⟨f, hf, hseat⟩ := List.map_eq_singleton_iff.mp hfin
    have hrow : f.tableIdx = p.tableIdx := congrArg Seat.row hseat
    refine ⟨(Engine.StepRun.transcript out s.transcript p.tableIdx).drop args.inputIds.length, ?_⟩
    dsimp only
    rw [hnone, finish, hf, List.map_singleton, hrow, h.asked_eq, List.nil_append]
  · left
    refine ⟨hseats', ?_⟩
    dsimp only
    rw [hnone, finish, List.map_eq_nil_iff.mp hfin]
    rfl

theorem Solo.finishes {args : AddArgs} {p : PendingReq} (drawn : Nat → Token) : ∀ (n : Nat)
    {s : Session V} {got : PendingReq → List Token} {left : PendingReq → Nat},
    Solo args p s got left → left p ≤ n → ∃ k s' tokens,
      Run.exec (Session.next m) s (List.replicate k (.step drawn)) = some s' ∧
        s'.answers = [(args, tokens)] := by
  intro n
  induction n with
  | zero =>
      intro s got left h hle
      rcases h.state with ⟨hseats, -⟩ | ⟨tokens, hanswers⟩
      · obtain ⟨hpending, hrunning⟩ := h.serving.idle_of_sum_eq_zero (by simpa using hle)
        rw [Scheduler.seats, hpending, hrunning] at hseats
        cases hseats
      · exact ⟨0, s, tokens, rfl, hanswers⟩
  | succ n ih =>
      intro s got left h hle
      rcases h.state with ⟨hseats, hnone⟩ | ⟨tokens, hanswers⟩
      · obtain ⟨s', got', left', hnext, h', hlt⟩ := h.step (m := m) hseats hnone drawn
        obtain ⟨k, s'', tokens, hexec, hanswers⟩ := ih h' (by omega)
        refine ⟨k + 1, s'', tokens, ?_, hanswers⟩
        rw [List.replicate_succ, Run.exec, hnext]
        exact hexec
      · exact ⟨0, s, tokens, rfl, hanswers⟩

/-- A placeable request is accepted by an empty engine, which then serves it alone. -/
theorem exists_solo {mem : Slot → V} {args : AddArgs} (hoff : config.enablePrefixCache = false)
    (hplace : Placeable config args) (hmax : 1 ≤ args.samplingParams.maxTokens) :
    ∃ p s' left, (init config mem).next m (.add args) = some s' ∧
      Solo args p s' (fun _ => []) left := by
  obtain ⟨hroom, hprompt, hrow⟩ := hplace
  have hb := Engine.books_init config fun _ => []
  obtain ⟨p, hp⟩ := (hb.returns_iff args).mpr (Engine.init_admissible hoff hroom args)
  obtain ⟨e', heq⟩ : ∃ e', (Engine.init config).addRequest args = (.ok p, e') := ⟨_, by rw [← hp]⟩
  obtain ⟨e3, k, hret⟩ := hb.returned heq
  have hin := hret.queuedIn hb
  have hlist : e'.scheduler.pendingList = [p] := hin.pendingList_eq
  have hrunning : e'.scheduler.runningReqs = [] := hin.runningReqs_eq
  obtain ⟨orphans, hb'⟩ := hb.addRequest args
  rw [heq] at hb'
  have hconfig : e'.config = config := by rw [hret.frame]; rfl
  have hlimits := hin.limits
  have hservable : Engine.Servable e' p := by
    have hbudget : (config.maxSeqLen : Int) ≤ ((config.numPages + 1) * config.pageSize : Nat) := by
      have hle := (ceilDiv_bounds config.maxSeqLen config.pageSize_pos).1.trans hroom
      rw [MHAKVCache.usable, List.length_drop, List.length_range] at hle
      omega
    have hids := hret.queued.inputIds_eq
    have hparams := hret.queued.samplingParams_eq
    refine ⟨hids ▸ hprompt, ?_, ?_, ?_⟩ <;>
      simp only [PendingReq.inputLen, PendingReq.outputLen, hids, hparams, hconfig,
        hlimits.prefill_eq.2]
    · exact hmax
    · exact hrow
    · exact hrow.trans hbudget
  have hnext : (init config mem).next m (.add args) = some
      { init config mem with
        engine := e', asked := Function.update (init config mem).asked p.tableIdx args } := by
    have heq' : (init config mem).engine.addRequest args = (.ok p, e') := heq
    simp only [Session.next, heq']
  refine ⟨p, _, fun p => ceilDiv p.rest e'.scheduler.maxExtendTokens + p.outputLen.toNat, hnext,
    ⟨⟨_, orphans, hb'⟩, hlist ▸ Engine.Tracks.of_idle hrunning, fun q hq => ?_, ?_, fun q hq => ?_⟩,
    Function.update_self .., .inl ⟨?_, rfl⟩⟩
  · rwa [List.mem_singleton.mp hq]
  · dsimp only
    rw [hlimits.prefill_eq.1]
    exact config.maxRunningReq_pos
  · obtain rfl := List.mem_singleton.mp hq
    exact .queued q (hlist ▸ hq) rfl rfl rfl rfl rfl
  · dsimp only
    rw [Scheduler.seats, hlist, hrunning]
    rfl

/-- Without the prefix cache, whatever was asked before, beside and after it, a greedy request that
was answered gets no other tokens on its own, in chunks of any size; and there it is answered. -/
theorem alone_alike (hoff : config.enablePrefixCache = false) {mem : Slot → V} {asks : List Ask}
    (hall : Run.AllSteps (Session.next m) Accepts (init config mem) asks)
    (h : Run.exec (Session.next m) (init config mem) asks = some s) :
    ∀ a ∈ s.answers, a.1.Greedy →
      ∀ (chunk : Nat) (hchunk : 0 < chunk) (mem' : Slot → V) (drawn : Nat → Token),
        (∀ n solo, Run.exec (Session.next m) (init (config.withChunk chunk hchunk) mem')
            (alone a.1 n drawn) = some solo → ∀ b ∈ solo.answers, b = a) ∧
        (1 ≤ a.1.samplingParams.maxTokens → ∃ n solo,
          Run.exec (Session.next m) (init (config.withChunk chunk hchunk) mem')
            (alone a.1 n drawn) = some solo ∧ solo.answers = [a]) := by
  intro a ha hgreedy chunk hchunk mem' drawn
  have hkept : Kept m config (Placeable config) s := by
    refine kept_of_run hoff (hall.mono fun s a hok => ⟨hok, ?_⟩) h
    cases a with
    | add args => exact id
    | step drawn => trivial
    | abort uid => trivial
  have hoff' : (config.withChunk chunk hchunk).enablePrefixCache = false := hoff
  have hplace : Placeable (config.withChunk chunk hchunk) a.1 := hkept.answered a ha
  have halike : ∀ n solo, Run.exec (Session.next m) (init (config.withChunk chunk hchunk) mem')
      (alone a.1 n drawn) = some solo → ∀ b ∈ solo.answers, b = a := by
    intro n solo hsolo b hb
    have hkept' := kept_of_run hoff' (accepts_alone hoff' hplace n drawn) hsolo
    have hask := hkept'.answered b hb
    refine Prod.ext hask ?_
    rw [hkept'.plain_of_mem hb (hask ▸ hgreedy), hkept.plain_of_mem ha hgreedy, hask]
    rfl
  refine ⟨halike, fun hmax => ?_⟩
  obtain ⟨p, s', left, hnext, hsolo⟩ : ∃ p s' left,
      (init (config.withChunk chunk hchunk) mem').next m (.add a.1) = some s' ∧
        Solo a.1 p s' (fun _ => []) left := exists_solo hoff' hplace hmax
  obtain ⟨n, solo, tokens, hexec, hanswers⟩ := hsolo.finishes (m := m) drawn (left p) le_rfl
  have hrun : Run.exec (Session.next m) (init (config.withChunk chunk hchunk) mem')
      (alone a.1 n drawn) = some solo := by
    rw [alone, Run.exec, hnext]
    exact hexec
  refine ⟨n, solo, hrun, ?_⟩
  rw [hanswers, halike n solo hrun (a.1, tokens) (hanswers ▸ List.mem_singleton_self _)]

/-- A prompt in two chunks beside one that is aborted, whose row the last one takes. -/
def reusedRow : List Ask :=
  [.add { uid := 5, inputIds := [7, 8, 9], samplingParams := { maxTokens := 2 } },
    .add { uid := 3, inputIds := [6], samplingParams := { temperature := 1, maxTokens := 4 } },
    .step fun _ => 4, .step fun _ => 4, .step fun _ => 4, .abort 3,
    .add { uid := 8, inputIds := [1, 8, 2, 3], samplingParams := { maxTokens := 2 } },
    .step fun _ => 4, .step fun _ => 4, .step fun _ => 4, .step fun _ => 4]

/-- Each of the two prompts in one chunk, in a pool of zeros. -/
theorem reusedRow_alike : ∃ s, Run.exec (Session.next digits)
      (init { twoRows with enablePrefixCache := false } fun slot => 1000 + slot) reusedRow = some s ∧
    s.answers.map Prod.snd = [[7, 2], [4, 7]] ∧
    ∀ a ∈ s.answers, a.1.Greedy → ∃ n solo, Run.exec (Session.next digits)
      (init (EngineConfig.withChunk { twoRows with enablePrefixCache := false } 4 (by decide))
        fun _ => 0) (alone a.1 n fun _ => 0) = some solo ∧ solo.answers = [a] := by
  have hall : Run.AllSteps (Session.next digits) Accepts
    (init { twoRows with enablePrefixCache := false } fun slot => 1000 + slot) reusedRow := by
    decide +kernel
  have hanswers : (Run.exec (Session.next digits)
      (init { twoRows with enablePrefixCache := false } fun slot => 1000 + slot) reusedRow).map
        (fun s => s.answers.map fun a => (a.1.samplingParams.maxTokens, a.2)) =
      some [(2, [7, 2]), (2, [4, 7])] := by decide +kernel
  obtain ⟨s, hs, hmap⟩ := Option.map_eq_some_iff.mp hanswers
  have htokens := congrArg (List.map Prod.snd) hmap
  rw [List.map_map] at htokens
  refine ⟨s, hs, htokens, fun a ha hgreedy => ?_⟩
  refine (alone_alike rfl hall hs a ha hgreedy 4 (by decide) (fun _ => 0) fun _ => 0).2 ?_
  have hmax : (a.1.samplingParams.maxTokens, a.2) ∈
      [((2 : Int), [7, 2]), (2, [4, 7])] := hmap ▸ List.mem_map_of_mem ha
  rcases List.mem_cons.mp hmax with heq | hmem
  · rw [(Prod.mk.inj heq).1]
    decide
  · rw [(Prod.mk.inj (List.mem_singleton.mp hmem)).1]
    decide

end Session

end FreeToken
