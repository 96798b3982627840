import FreeToken.Engine.SlotOwners
import FreeToken.Engine.Sizing

/-!
# The size of the linear-state pool

The pool has three slots for each request that may run. A finished request that donated
its anchor snapshot leaves a slot behind, and no call gives such a slot back.
-/

namespace FreeToken

namespace Engine

variable {e e' : Engine} {t : Transcript} {orphans : List RadixCacheHandle} {kept : List Slot}
  {config : EngineConfig}

/-- `add_request` raises "LinearStatePool exhausted". -/
def Exhausted (e : Engine) : Call → Prop
  | .addRequest args => ∃ need available,
      (e.addRequest args).1 = .error (.linearStateExhausted need available)
  | .step _ | .abortRequest _ => False

/-- With the request at most `max_running_req` are live. -/
def UnderCap (e : Engine) : Call → Prop
  | .addRequest _ => e.scheduler.seats.length < e.config.maxRunningReq
  | .step _ | .abortRequest _ => True

instance (e : Engine) (c : Call) : Decidable (e.UnderCap c) :=
  match c with
  | .addRequest _ => inferInstanceAs (Decidable (_ < _))
  | .step _ | .abortRequest _ => isTrue trivial

/-- The slots left behind fit into the shares of the rows that stay free. -/
def KeptFits (kept : List Slot) (e : Engine) : Call → Prop
  | .addRequest _ => kept.length ≤ 3 * (e.config.maxRunningReq - (e.scheduler.seats.length + 1))
  | .step _ | .abortRequest _ => True

instance (kept : List Slot) (e : Engine) (c : Call) : Decidable (KeptFits kept e c) :=
  match c with
  | .addRequest _ => inferInstanceAs (Decidable (_ ≤ _))
  | .step _ | .abortRequest _ => isTrue trivial

/-! ### When the pool refuses -/

theorem matchPrompt_linearStatePool (e : Engine) (ids : List Token) :
    (e.matchPrompt ids).engine.linearStatePool = e.linearStatePool := by
  unfold matchPrompt
  cases e.cacheManager <;> rfl

theorem allocateOrEvict_error {row n : Nat} {err : EngineError}
    (h : e.allocateOrEvict row n = (.error err, e')) {need available : Nat} :
    err ≠ .linearStateExhausted need available := by
  have hkv : ∀ {kv : MHAKVCache} {err : EngineError}, kv.allocate row n = .error err →
      err ≠ .linearStateExhausted need available := by
    intro kv err herr
    simp only [MHAKVCache.allocate] at herr
    split at herr
    · cases herr
      exact EngineError.noConfusion
    · split at herr
      · cases herr
        exact EngineError.noConfusion
      · cases herr
  unfold allocateOrEvict at h
  split at h
  · cases h
  · rename_i err1 h1
    split at h
    · cases h
      exact hkv h1
    · dsimp only at h
      split at h
      · cases h
        exact hkv h1
      · split at h
        · cases h
          exact EngineError.noConfusion
        · split at h
          · rename_i err2 h2
            cases h
            exact hkv h2
          · cases h

theorem allocateSlot_error {row : Nat} {cachedLen : Int} {matched : List Slot} {err : EngineError}
    (h : e.allocateSlot row cachedLen matched = (.error err, e')) {need available : Nat} :
    err ≠ .linearStateExhausted need available := by
  unfold allocateSlot at h
  dsimp only at h
  split at h
  · cases h
    exact EngineError.noConfusion
  · split at h
    · rename_i halloc
      cases h
      exact allocateOrEvict_error halloc
    · split at h
      · cases h
        exact EngineError.noConfusion
      · cases h

/-- Exactly for want of three free slots. -/
theorem exhausted_iff (hsome : e.linearStatePool.isSome = true) (args : AddArgs) :
    e.Exhausted (.addRequest args) ↔ e.linearFree.length < 3 := by
  obtain ⟨pool, hpool⟩ := Option.isSome_iff_exists.mp hsome
  have hlen : e.linearFree.length = pool.freeSlots.length := by
    rw [linearFree, hpool]
    rfl
  have hmatch := (e.matchPrompt_linearStatePool args.inputIds).trans hpool
  rw [hlen]
  constructor
  · rintro ⟨need, available, h⟩
    by_contra hlong
    cases halloc : pool.alloc3 with
    | error err => exact hlong (LinearStatePool.alloc3_error halloc)
    | ok r =>
        simp only [addRequest, allocLinear, hmatch, halloc] at h
        split at h
        · rename_i err herr
          -- the scheduler's own refusal
          simp only [Scheduler.add] at herr
          split at herr
          · cases herr
            cases h
          · cases herr
        · split at h
          · rename_i err e1 herr
            exact allocateSlot_error herr (Except.error.inj h)
          · cases h
  · intro hshort
    refine ⟨3, pool.freeSlots.length, ?_⟩
    simp only [addRequest, allocLinear, hmatch, LinearStatePool.alloc3_short hshort]

theorem LinearBooks.exhausted_iff (h : LinearBooks config e kept) {c : Call}
    (hcap : e.UnderCap c) : ¬ e.Exhausted c ↔ KeptFits kept e c := by
  cases c with
  | addRequest args =>
      have hlen := h.length_eq
      have hlive : e.scheduler.seats.length < e.config.maxRunningReq := hcap
      rw [Engine.exhausted_iff h.pool_isSome, KeptFits]
      rw [h.config_eq] at hlive ⊢
      omega
  | step sampled => exact iff_of_true id trivial
  | abortRequest uid => exact iff_of_true id trivial

/-! ### Runs -/

/-- One call beside the slots that were left behind. -/
def keeping : List Slot × Engine → Call → Option (List Slot × Engine) :=
  Run.watch (fun e c => (e.report c).map fun r => (r, r.2)) keep

/-- In every run of a hybrid engine that never has more than `max_running_req` live
requests, no `add_request` finds the pool exhausted exactly when each one comes while the
slots left behind fit into the shares of the rows that stay free. -/
theorem exhausted_never_iff (hh : HybridCached config) {calls : List Call}
    (hcap : Run.AllSteps call UnderCap (init config) calls) :
    Run.AllSteps call (fun e c => ¬ e.Exhausted c) (init config) calls ↔
      Run.AllSteps keeping (fun x c => KeptFits x.1 x.2 c) ([], init config) calls := by
  have hcall : (fun (e : Engine) (c : Call) =>
      ((e.report c).map fun r => (r, r.2)).map Prod.snd) = call := by
    funext e c
    rw [← map_snd_report, Option.map_map]
    rfl
  rw [← hcall] at hcap ⊢
  have hcap' : Run.AllSteps keeping (fun x c => x.2.UnderCap c) ([], init config) calls :=
    Run.allSteps_watch.mpr hcap
  have hnever : Run.AllSteps (fun e c => ((report e c).map fun r => (r, r.2)).map Prod.snd)
      (fun e c => ¬ e.Exhausted c) (init config) calls ↔
      Run.AllSteps keeping (fun x c => ¬ x.2.Exhausted c) ([], init config) calls :=
    Run.allSteps_watch.symm
  refine hnever.trans ?_
  refine Run.allSteps_iff
    (fun x => LinearBooks config x.2 x.1 ∧ ∃ t orphans, Books x.2 t orphans) ?_ ?_
    ⟨linearBooks_init hh, fun _ => [], [], books_init config _⟩ hcap'
  · rintro ⟨kept, e⟩ c ⟨hl, -⟩ hunder
    exact hl.exhausted_iff hunder
  · rintro ⟨kept, e⟩ c x ⟨hl, t, orphans, hb⟩ - - hx
    obtain ⟨r, hr, rfl⟩ := Option.map_eq_some_iff.mp hx
    obtain ⟨⟨rep, e'⟩, hrep, rfl⟩ := Option.map_eq_some_iff.mp hr
    have hnext : e.call c = some e' := by
      rw [← map_snd_report, hrep]
      rfl
    exact ⟨hl.report hb hrep, hb.call hnext⟩

/-- A prompt of one token is answered with two, then another is asked. -/
def askedTwice (first : Token) : List Call :=
  [.addRequest { uid := 0, inputIds := [7], samplingParams := { maxTokens := 2 } },
    .step fun _ => first, .step fun _ => 5, .addRequest (asking [8])]

/-- The answer opened a tool call: its snapshot keeps a slot, and two are left. -/
theorem toolcall_exhausts : HybridCached hybridRow ∧
    Run.AllSteps call UnderCap (init hybridRow) (askedTwice 9) ∧
    ∃ e, runs hybridRow ((askedTwice 9).take 3) = some e ∧ e.scheduler.seats = [] ∧
      (e.addRequest (asking [8])).1 = .error (.linearStateExhausted 3 2) :=
  ⟨by decide, by decide, _, rfl, by decide, by decide⟩

/-- Without a tool call all slots come back. -/
theorem plain_answer_frees : Run.AllSteps call UnderCap (init hybridRow) (askedTwice 4) ∧
    Run.AllSteps call (fun e c => ¬ e.Exhausted c) (init hybridRow) (askedTwice 4) :=
  have hh : HybridCached hybridRow := by decide
  have hcap : Run.AllSteps call UnderCap (init hybridRow) (askedTwice 4) := by decide
  have hfits : Run.AllSteps keeping (fun x c => KeptFits x.1 x.2 c) ([], init hybridRow)
      (askedTwice 4) := by decide
  ⟨hcap, (exhausted_never_iff hh hcap).mpr hfits⟩

end Engine

end FreeToken
