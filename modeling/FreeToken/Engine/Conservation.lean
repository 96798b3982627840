import FreeToken.Engine.Ownership

/-!
# The usable KV slots are shared out

The slots of the pool but slot 0 are free, held by a live request, or stored in the
tree. A commit with the prefix cache on keeps that up exactly when the finished
request fills its pages; otherwise it forgets slots, and they never come back.
-/

namespace FreeToken

namespace Engine

variable {e e' : Engine} {t : Transcript} {orphans : List RadixCacheHandle} {lost : List Slot}

/-- The slots allocated to live requests, past their matched prefixes. -/
def heldSlots (e : Engine) : List Slot := e.scheduler.seats.flatMap fun seat => e.owned seat.row

/-- Free list, live requests and tree partition the usable slots. -/
structure Conserved (e : Engine) : Prop where
  nodup : (e.kvCache.freeSlots ++ (e.heldSlots ++ e.tree.slots)).Nodup
  mem_iff : ∀ slot, slot ∈ e.kvCache.freeSlots ++ (e.heldSlots ++ e.tree.slots) ↔
    0 < slot ∧ slot < e.kvCache.numSlots

theorem usable_nodup (n : Nat) : (MHAKVCache.usable n).Nodup :=
  List.nodup_range.sublist (List.drop_sublist 1 _)

theorem mem_usable {n slot : Nat} : slot ∈ MHAKVCache.usable n ↔ 0 < slot ∧ slot < n := by
  cases n with
  | zero => simp [MHAKVCache.usable]
  | succ n =>
      rw [MHAKVCache.usable, List.range_succ_eq_map, List.drop_one, List.tail_cons, List.mem_map]
      constructor
      · rintro ⟨i, hi, rfl⟩
        rw [List.mem_range] at hi
        omega
      · rintro ⟨h1, h2⟩
        exact ⟨slot - 1, by rw [List.mem_range]; omega, by omega⟩

theorem conserved_iff_perm : Conserved e ↔
    (e.kvCache.freeSlots ++ (e.heldSlots ++ e.tree.slots)).Perm
      (MHAKVCache.usable e.kvCache.numSlots) := by
  constructor
  · rintro ⟨hn, hmem⟩
    exact (List.perm_ext_iff_of_nodup hn (usable_nodup _)).mpr fun slot =>
      (hmem slot).trans mem_usable.symm
  · intro hperm
    exact ⟨hperm.nodup_iff.mpr (usable_nodup _), fun slot => hperm.mem_iff.trans mem_usable⟩

theorem Ownership.slots_perm (ho : Ownership e t orphans lost) :
    (e.kvCache.freeSlots ++ (e.heldSlots ++ e.tree.slots) ++ lost).Perm
      (MHAKVCache.usable e.kvCache.numSlots) := by
  have h := ho.keeping.slots_perm
  have hheld : ((e.lives t).flatMap fun x => e.owned x.seat.row) = e.heldSlots := by
    rw [heldSlots, ← e.map_seat_lives t, List.flatMap_map]
  rw [hheld] at h
  simpa only [List.append_assoc] using h

theorem Ownership.conserved_iff (ho : Ownership e t orphans lost) : Conserved e ↔ lost = [] := by
  have h := ho.slots_perm
  rw [conserved_iff_perm]
  constructor
  · intro hperm
    have hlen := h.length_eq
    rw [List.length_append, hperm.length_eq] at hlen
    exact List.eq_nil_of_length_eq_zero (by omega)
  · rintro rfl
    rwa [List.append_nil] at h

/-- With the prefix cache on, every request the step finishes fills its pages. -/
def FinishesWhole (e : Engine) : Call → Prop
  | .step sampled => e.config.enablePrefixCache = true →
      ∀ x ∈ e.finishing sampled, FillsPages e.config (x.2.deviceLen + 1)
  | _ => True

instance (e : Engine) (c : Call) : Decidable (e.FinishesWhole c) :=
  match c with
  | .step sampled => inferInstanceAs (Decidable (e.config.enablePrefixCache = true →
      ∀ x ∈ e.finishing sampled, FillsPages e.config (x.2.deviceLen + 1)))
  | .addRequest _ | .abortRequest _ => isTrue trivial

/-- What a step loses is lost by a request that does not fill its pages. -/
theorem Ownership.step_whole (ho : Ownership e t orphans lost) {sampled : Nat → Token}
    {out : StepOutput} (h : e.step sampled = .ok (out, e')) :
    ∃ t' extra, Ownership e' t' orphans (extra ++ lost) ∧
      (extra = [] ↔ e.FinishesWhole (.step sampled)) := by
  rcases step_cases h with ⟨hnone, rfl, rfl⟩ | ⟨s1, e2, hrun⟩
  · exact ⟨t, [], ho, by simp [FinishesWhole, finishing, hnone]⟩
  · obtain ⟨extra, ho', hiff⟩ := hrun.ownership ho
    refine ⟨_, extra, ho', hiff.trans ?_⟩
    rw [ho.books.isSome_eq, hrun.finished_finishing ho.books.sched, FinishesWhole]
    refine imp_congr_right fun _ => ?_
    rw [List.forall_mem_map]
    refine forall₂_congr fun x hx => ?_
    obtain ⟨-, hc, -⟩ := hrun.mem_finishing.mp hx
    rw [((rounded e out.batch.phase x).sampled hc).1]

/-- One call that comes back. -/
theorem Ownership.call_returns (ho : Ownership e t orphans lost) {c : Call} (hret : e.Returns c)
    (h : e.call c = some e') :
    ∃ t' extra, Ownership e' t' orphans (extra ++ lost) ∧ (extra = [] ↔ e.FinishesWhole c) := by
  cases c with
  | addRequest args =>
      obtain ⟨p, hp⟩ := hret
      obtain rfl := Option.some.inj h
      have heq : e.addRequest args = (.ok p, (e.addRequest args).2) := by rw [← hp]
      obtain ⟨e3, k, hreturned⟩ := ho.books.returned heq
      exact ⟨t, [], hreturned.ownership ho, by simp [FinishesWhole]⟩
  | step sampled =>
      obtain ⟨out, e1, hstep⟩ := hret
      simp only [Engine.call, hstep, Option.some.injEq] at h
      obtain rfl := h
      exact ho.step_whole hstep
  | abortRequest uid =>
      rcases ho.books.abort_cases uid with ⟨-, heq⟩ | ⟨seat, e1, -, -, heq, hseat, hab⟩
      · simp only [Engine.call, heq, Option.some.injEq] at h
        obtain rfl := h
        exact ⟨t, [], ho, by simp [FinishesWhole]⟩
      · simp only [Engine.call, heq, Option.some.injEq] at h
        obtain rfl := h
        exact ⟨t, [], ho.aborted hseat hab, by simp [FinishesWhole]⟩

/-- In a run whose calls all come back, the slots are shared out at the end exactly
when no step finished a request that leaves a page or the row's rounding partly used. -/
theorem conserved_iff_finishesWhole {config : EngineConfig} {calls : List Call}
    (hret : Run.AllSteps call Returns (init config) calls) (h : runs config calls = some e) :
    Conserved e ↔ Run.AllSteps call FinishesWhole (init config) calls := by
  obtain ⟨lost, ⟨t, ho⟩, hiff⟩ := Run.exec_defects
    (fun e lost => ∃ t, Ownership e t [] lost)
    (fun e c e' lost ⟨t, ho⟩ hret hcall => by
      obtain ⟨t', extra, ho', hiff⟩ := ho.call_returns hret hcall
      exact ⟨extra, ⟨t', ho'⟩, hiff⟩)
    ⟨fun _ => [], ownership_init config _⟩ hret h
  rw [List.append_nil] at ho
  rw [ho.conserved_iff, hiff]

/-- Two pages of two slots a row. -/
def pairPages : EngineConfig :=
  { singleRow with pageSize := 2, numPages := 3, pageSize_pos := Nat.two_pos }

/-- One prompt token and `n` sampled ones, to the end. -/
def answerOf (n : Nat) : List Call :=
  .addRequest { uid := 0, inputIds := [7], samplingParams := { maxTokens := n } } ::
    List.replicate n (.step fun _ => 5)

/-- A sequence of three tokens loses the slot of its last one. -/
theorem three_tokens_lose_a_slot : Run.AllSteps call Returns (init pairPages) (answerOf 2) ∧
    ∃ e, runs pairPages (answerOf 2) = some e ∧ e.scheduler.seats = [] ∧ ¬ Conserved e :=
  ⟨by decide, _, rfl, by decide, fun h => absurd ((h.mem_iff 3).mpr (by decide)) (by decide)⟩

/-- A sequence of four tokens fills its two pages. -/
theorem four_tokens_conserve : ∃ e, runs pairPages (answerOf 3) = some e ∧ Conserved e :=
  have hret : Run.AllSteps call Returns (init pairPages) (answerOf 3) := by decide
  ⟨_, rfl, (conserved_iff_finishesWhole hret rfl).mpr (by decide)⟩

end Engine

end FreeToken
