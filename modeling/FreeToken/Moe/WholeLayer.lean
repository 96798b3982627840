import FreeToken.Moe.ExpertRuns

/-!
# Prefill and decode of a whole layer

A free slot is stamped `0` and a used one is not, so the least recently used slot is the first free
one as long as there is one. `materialize_layer` and `ensure_experts` for all experts of the layer
therefore choose the same victims. Here a plan need not be copied before the next call.
-/

namespace FreeToken

open StampedPool

namespace OffloadMoeCache

variable {ρ : Type}

/-- The calls, the copy being one of its own. -/
inductive Op where
  | materialize (layer : Nat)
  | ensure (layer : Nat) (expertIds : List Nat)
  | copy
  | rebuild (cacheSize : Nat)
  | reset

/-- A call that raises does not come back. -/
def apply [Zero ρ] (c : OffloadMoeCache ρ) : Op → Option (OffloadMoeCache ρ)
  | .materialize layer => (c.materializeLayer layer).toOption
  | .ensure layer expertIds => (c.ensureExperts layer expertIds).toOption
  | .copy => c.copyMissing.toOption
  | .rebuild cacheSize => (c.rebuild cacheSize).toOption
  | .reset => some c.reset

/-! ### The maps between two calls -/

/-- The cache without what it copies. -/
def unbanked (c : OffloadMoeCache ρ) : OffloadMoeCache ρ := { c with banks := [] }

/-- The two maps are inverse to each other, and the stamps are in order. -/
def Mapped (c : OffloadMoeCache ρ) : Prop := c.unbanked.Coherent

theorem mapped_intro {c : OffloadMoeCache ρ} (hok : c.pool.Ok c.step)
    (hlt : ∀ s id, c.idOfSlot s = some id → id < c.numLayers * c.numExperts)
    (hinv : ∀ id s, c.slotForId id = some s ↔ c.idOfSlot s = some id) : c.Mapped where
  ok := hok
  id_lt := hlt
  inverse := hinv
  rows := by
    intro b hb
    cases hb

theorem Mapped.serving {c : OffloadMoeCache ρ} (h : c.Mapped) {order : List Nat → List Nat}
    (horder : ∀ l, (order l).Perm l) {layer : Nat} {asked : List Nat} (hnodup : asked.Nodup)
    (hlt : ∀ e ∈ asked, e < c.numExperts) :
    Serving (c.hits layer asked).pool (c.hits layer asked).step (asked.map (c.flatId layer))
      ((order (c.missing layer asked)).map ((c.hits layer asked).flatId layer)) :=
  hits_serving (c := c.unbanked) h horder hnodup hlt

/-- What a call that asks for experts leaves. -/
theorem Mapped.serve {c c' : OffloadMoeCache ρ} (h : c.Mapped)
    {pick : OffloadMoeCache ρ → Option Nat} (hpick : LeastPick pick)
    {order : List Nat → List Nat} (horder : ∀ l, (order l).Perm l) {layer : Nat}
    (hlayer : layer < c.numLayers) {asked : List Nat} (hnodup : asked.Nodup)
    (hlt : ∀ e ∈ asked, e < c.numExperts) (hserve : serve pick order c layer asked = .ok c') :
    c'.Mapped := by
  have hserving : Serving (c.hits layer asked).pool (c.hits layer asked).step
      (asked.map (c.flatId layer))
      ((order (c.missing layer asked)).map ((c.hits layer asked).flatId layer)) :=
    h.serving horder hnodup hlt
  rw [OffloadMoeCache.serve] at hserve
  cases hplace : placeAll pick layer (c.hits layer asked) (order (c.missing layer asked)) with
  | error e =>
      rw [hplace] at hserve
      cases hserve
  | ok c₁ =>
      rw [hplace] at hserve
      cases hserve
      obtain ⟨new, hplaced⟩ := placeAll_placed hpick hserving hplace
      have hok : c₁.pool.Ok c₁.step := hplaced.step_eq ▸ (hplaced.puts.serving hserving).ok
      have hexperts : c₁.numExperts = c.numExperts := hplaced.numExperts_eq
      have hlayers : c₁.numLayers = c.numLayers := hplaced.numLayers_eq
      apply mapped_intro (c := resync { c₁ with pendingSrcLayer := some layer }) hok
      · intro s id hs
        change id < c₁.numLayers * c₁.numExperts
        rw [hlayers, hexperts]
        by_cases hnew : ∃ p ∈ new, p.1 = s
        · obtain ⟨p, hp, rfl⟩ := hnew
          obtain ⟨hmem, hid⟩ := hplaced.placed p hp
          obtain rfl := Option.some.inj (hs.symm.trans hid)
          have hasked := List.mem_filter.mp ((horder _).mem_iff.mp hmem)
          exact flatId_lt hlayer (hlt p.2 hasked.1)
        · have hold := hplaced.other s fun p hp heq => hnew ⟨p, hp, heq⟩
          exact h.id_lt s id (hold.symm.trans hs)
      · intro id s
        exact resync_slotForId hok id s

theorem order_insertionSort (l : List Nat) : (l.insertionSort (· ≤ ·)).Perm l :=
  List.perm_insertionSort _ l

theorem Mapped.materialize {c c' : OffloadMoeCache ρ} (h : c.Mapped) {layer : Nat}
    (hc' : c.materializeLayer layer = .ok c') : c'.Mapped := by
  rw [materializeLayer] at hc'
  split at hc'
  · cases hc'
  · next hlayer =>
      split at hc'
      · cases hc'
      · exact h.serve freeOrLru_leastPick (fun l => .refl l) (Nat.lt_of_not_le hlayer)
          List.nodup_range (fun e he => List.mem_range.mp he) hc'

theorem Mapped.ensure {c c' : OffloadMoeCache ρ} (h : c.Mapped) {layer : Nat} {ids : List Nat}
    (hc' : c.ensureExperts layer ids = .ok c') : c'.Mapped := by
  rw [ensureExperts] at hc'
  split at hc'
  · cases hc'
  split at hc'
  · cases hc'
  next hids =>
    split at hc'
    · cases hc'
    next hlayer =>
      have hlt : ∀ e ∈ firstSeen ids, e < c.numExperts := by
        intro e he
        exact Nat.lt_of_not_le fun hle => hids ⟨e, he, hle⟩
      exact h.serve lruSlot_leastPick order_insertionSort (Nat.lt_of_not_le hlayer)
        (nodup_firstSeen ids) hlt hc'

theorem Mapped.copy {c c' : OffloadMoeCache ρ} (h : c.Mapped) (hc' : c.copyMissing = .ok c') :
    c'.Mapped := by
  rw [copyMissing] at hc'
  split at hc'
  · cases hc'
  · split at hc'
    · cases hc'
      exact h
    · cases hc'
      exact mapped_intro h.ok h.id_lt h.inverse

theorem mapped_of_empty {c : OffloadMoeCache ρ} (hids : ∀ s, c.idOfSlot s = none)
    (hslots : ∀ id, c.slotForId id = none) (husage : ∀ s, c.usage s = 0) : c.Mapped :=
  coherent_of_empty (c := c.unbanked) hids hslots husage

theorem mapped_new [Zero ρ] {numLayers numExperts cacheSize : Nat}
    {sources : List (String × (Nat → Nat → ρ))} {c : OffloadMoeCache ρ}
    (h : new numLayers numExperts cacheSize sources = .ok c) : c.Mapped := by
  rw [new] at h
  split at h
  · cases h
  · cases h
    exact mapped_of_empty (fun _ => rfl) (fun _ => rfl) fun _ => rfl

/-- Every call keeps the maps in order. -/
theorem Mapped.apply [Zero ρ] {c c' : OffloadMoeCache ρ} (h : c.Mapped) {op : Op}
    (hop : c.apply op = some c') : c'.Mapped := by
  cases op with
  | materialize layer => exact h.materialize (toOption_eq_some.mp hop)
  | ensure layer ids => exact h.ensure (toOption_eq_some.mp hop)
  | copy => exact h.copy (toOption_eq_some.mp hop)
  | rebuild size =>
      have hc' := toOption_eq_some.mp hop
      rw [rebuild] at hc'
      split at hc'
      · cases hc'
      · cases hc'
        exact mapped_of_empty (fun _ => rfl) (fun _ => rfl) fun _ => rfl
  | reset =>
      cases hop
      exact mapped_of_empty (fun _ => rfl) (fun _ => rfl) fun _ => rfl

/-! ### The same victims -/

/-- The first of the free slots is the least recently used one. -/
theorem freeOrLru_eq_lruSlot {c : OffloadMoeCache ρ} (h : c.pool.Ok c.step) :
    c.freeOrLru = c.lruSlot := by
  rw [freeOrLru]
  split
  · rfl
  · next s ss hfree =>
      have hsorted : (s :: ss).Pairwise (· < ·) :=
        hfree ▸ List.Pairwise.filter _ List.pairwise_lt_range
      have hmem : s ∈ (List.range c.cacheSize).filter fun s => c.idOfSlot s = none :=
        hfree ▸ List.mem_cons_self
      obtain ⟨hs, hnone⟩ := List.mem_filter.mp hmem
      have hzero : c.usage s = 0 := h.free s (List.mem_range.mp hs) (of_decide_eq_true hnone)
      obtain ⟨v, hv⟩ := exists_lruSlot (Nat.zero_lt_of_lt (List.mem_range.mp hs))
      have hvmem := List.argmin_mem (Option.mem_def.mpr hv)
      have hle := List.le_of_mem_argmin hs (Option.mem_def.mpr hv)
      rw [Prod.Lex.toLex_le_toLex, hzero] at hle
      -- Its stamp is `0` as well, so it is free and among those after `s`.
      have hvzero : c.usage v = 0 := by
        rcases hle with hlt | ⟨heq, -⟩
        · exact absurd hlt (Nat.not_lt_zero _)
        · exact heq
      have hvle : v ≤ s := by
        rcases hle with hlt | ⟨-, hle⟩
        · exact absurd hlt (Nat.not_lt_zero _)
        · exact hle
      have hvfree : c.idOfSlot v = none := by
        cases hid : c.idOfSlot v with
        | none => rfl
        | some id => exact absurd (h.used v id hid) (by rw [show c.pool.stamp v = 0 from hvzero]; decide)
      have hvin : v ∈ s :: ss := by
        rw [← hfree]
        exact List.mem_filter.mpr ⟨hvmem, decide_eq_true hvfree⟩
      have hsle : s ≤ v := by
        rcases List.mem_cons.mp hvin with heq | hlater
        · exact Nat.le_of_eq heq.symm
        · exact Nat.le_of_lt (List.rel_of_pairwise_cons hsorted hlater)
      rw [hv, Nat.le_antisymm hvle hsle]

/-- So the loop over the misses makes the same choices. -/
theorem placeAll_freeOrLru {layer : Nat} {asked : List Nat} :
    ∀ {experts : List Nat} {c : OffloadMoeCache ρ},
      Serving c.pool c.step asked (experts.map (c.flatId layer)) →
      placeAll freeOrLru layer c experts = placeAll lruSlot layer c experts
  | [], _, _ => rfl
  | e :: experts, c, hserving => by
      rw [placeAll, placeAll, freeOrLru_eq_lruSlot hserving.ok]
      split
      · rfl
      · split
        · rfl
        · next v hv =>
            have hnext : Serving (c.place layer e v).pool (c.place layer e v).step asked
                (experts.map ((c.place layer e v).flatId layer)) := hserving.put (lruSlot_least hv)
            exact placeAll_freeOrLru hnext

theorem firstSeen_of_nodup {ids : List Nat} (h : ids.Nodup) : firstSeen ids = ids := by
  induction ids using List.reverseRecOn with
  | nil => rfl
  | append_singleton ids e ih =>
      obtain ⟨hids, -, hdisjoint⟩ := List.nodup_append'.mp h
      have hnot : e ∉ ids := fun he => hdisjoint he List.mem_cons_self
      have hfold : ids.foldl (fun seen e => if e ∈ seen then seen else seen ++ [e]) [] = ids := ih hids
      rw [firstSeen, List.foldl_append, hfold]
      exact if_neg hnot

theorem insertionSort_missing (c : OffloadMoeCache ρ) (layer n : Nat) :
    (c.missing layer (List.range n)).insertionSort (· ≤ ·) = c.missing layer (List.range n) := by
  apply List.Pairwise.insertionSort_eq
  exact (List.pairwise_le_range).filter _

/-- Both come back with the same cache. -/
theorem Mapped.materializeLayer_eq {c : OffloadMoeCache ρ} (h : c.Mapped) {layer : Nat}
    (hlayer : layer < c.numLayers) (hsize : c.banks.length = 0 ∨ 2 ≤ c.cacheSize) :
    c.materializeLayer layer = c.ensureExperts layer (List.range c.numExperts) := by
  have hserving : Serving (c.hits layer (List.range c.numExperts)).pool
      (c.hits layer (List.range c.numExperts)).step ((List.range c.numExperts).map (c.flatId layer))
      ((c.missing layer (List.range c.numExperts)).map
        ((c.hits layer (List.range c.numExperts)).flatId layer)) :=
    h.serving (fun l => List.Perm.refl l) List.nodup_range fun e he => List.mem_range.mp he
  have hrange : ¬ ∃ e ∈ firstSeen (List.range c.numExperts), c.numExperts ≤ e := by
    rintro ⟨e, he, hle⟩
    exact absurd (List.mem_range.mp (mem_firstSeen.mp he)) (Nat.not_lt.mpr hle)
  have hguard : ¬ (c.banks.length ≠ 0 ∧ c.cacheSize < 2) := by
    rintro ⟨hbanks, hlt⟩
    rcases hsize with hnil | hle
    · exact hbanks hnil
    · exact absurd hlt (Nat.not_lt.mpr hle)
  rw [materializeLayer, if_neg (Nat.not_le.mpr hlayer), if_neg (Nat.not_lt.mpr c.numExperts_le),
    ensureExperts, if_neg hguard, if_neg hrange, if_neg (Nat.not_le.mpr hlayer),
    firstSeen_of_nodup List.nodup_range, OffloadMoeCache.serve, OffloadMoeCache.serve,
    insertionSort_missing]
  exact congrArg (Except.map _) (placeAll_freeOrLru hserving)

/-- There is room for all misses. -/
theorem exists_materializeLayer {c : OffloadMoeCache ρ} {layer : Nat}
    (hlayer : layer < c.numLayers) : ∃ c', c.materializeLayer layer = .ok c' := by
  have hlen : (c.missing layer (List.range c.numExperts)).length ≤ c.numExperts := by
    rw [missing]
    calc _ ≤ (List.range c.numExperts).length := List.length_filter_le _ _
      _ = c.numExperts := List.length_range
  rw [materializeLayer, if_neg (Nat.not_le.mpr hlayer), if_neg (Nat.not_lt.mpr c.numExperts_le),
    OffloadMoeCache.serve]
  cases hmissing : c.missing layer (List.range c.numExperts) with
  | nil => exact ⟨_, rfl⟩
  | cons e experts =>
      have hpos : 0 < c.cacheSize := by
        rw [hmissing, List.length_cons] at hlen
        exact Nat.lt_of_lt_of_le (Nat.zero_lt_of_lt hlen) c.numExperts_le
      have hroom : (c.hits layer (List.range c.numExperts)).plan.length + (e :: experts).length ≤
          (c.hits layer (List.range c.numExperts)).planSlots := by
        change 0 + (e :: experts).length ≤ max c.numExperts c.cacheSize
        rw [Nat.zero_add, ← hmissing]
        exact Nat.le_trans hlen (Nat.le_max_left _ _)
      obtain ⟨c₁, hc₁⟩ : ∃ c₁, placeAll freeOrLru layer (c.hits layer (List.range c.numExperts))
          (e :: experts) = .ok c₁ := placeAll_isOk freeOrLru_leastPick hpos hroom
      exact ⟨_, by rw [id, hc₁]; rfl⟩

/-- In every state that calls reach from the constructor on, copied or not, materializing a layer
and asking for all its experts do the same, where the guard of `ensure_experts` does not refuse. -/
theorem materializeLayer_eq_ensureExperts [Zero ρ] {numLayers numExperts cacheSize : Nat}
    {sources : List (String × (Nat → Nat → ρ))} {c0 c : OffloadMoeCache ρ} {ops : List Op}
    (hnew : new numLayers numExperts cacheSize sources = .ok c0)
    (hrun : Run.exec apply c0 ops = some c) {layer : Nat} (hlayer : layer < c.numLayers)
    (hsize : c.banks.length = 0 ∨ 2 ≤ c.cacheSize) :
    ∃ c', c.materializeLayer layer = .ok c' ∧
      c.ensureExperts layer (List.range c.numExperts) = .ok c' := by
  have hc : c.Mapped :=
    Run.invariant_of_all Mapped (fun _ _ _ h hop => h.apply hop) (mapped_new hnew) hrun
  obtain ⟨c', hc'⟩ := exists_materializeLayer hlayer
  exact ⟨c', hc', (hc.materializeLayer_eq hlayer hsize).symm.trans hc'⟩

/-- The second layer is asked for before anything was copied. -/
theorem twoLayers_wholeLayer : ∃ c0 c c', twoLayers = .ok c0 ∧
    Run.exec apply c0 [.materialize 0, .ensure 1 [1]] = some c ∧ c.materializeLayer 1 = .ok c' ∧
    c.ensureExperts 1 (List.range c.numExperts) = .ok c' := by
  have hsome : (twoLayers.toOption.bind fun c =>
      Run.exec apply c [.materialize 0, .ensure 1 [1]]).any
        (fun c => 1 < c.numLayers && 2 ≤ c.cacheSize) = true := by
    decide +kernel
  obtain ⟨c, hbind, hsizes⟩ := (Option.any_eq_true _ _).mp hsome
  obtain ⟨c0, hc0, hrun⟩ := Option.bind_eq_some_iff.mp hbind
  have hnew := toOption_eq_some.mp hc0
  obtain ⟨hlayer, hsize⟩ := Bool.and_eq_true_iff.mp hsizes
  obtain ⟨c', hmaterialize, hensure⟩ := materializeLayer_eq_ensureExperts hnew hrun
    (of_decide_eq_true hlayer) (.inr (of_decide_eq_true hsize))
  exact ⟨c0, c, c', hnew, hrun, hmaterialize, hensure⟩

/-- One expert and one slot, which is enough for `materialize_layer`. -/
theorem oneSlot_refused : ∃ c : OffloadMoeCache NumberRow,
    new 1 1 1 [("gate_up", fun _ _ => ⟨0⟩)] = .ok c ∧ (∃ c', c.materializeLayer 0 = .ok c') ∧
      c.ensureExperts 0 (List.range 1) = .error .runtimeError :=
  ⟨_, dif_neg (by decide), ⟨_, rfl⟩, rfl⟩

end OffloadMoeCache

end FreeToken
