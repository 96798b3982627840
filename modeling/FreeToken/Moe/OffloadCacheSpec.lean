import FreeToken.Lib.StampedPool
import FreeToken.Moe.OffloadCache

/-!
# Each call of the expert cache

The slots of the cache are a stamped pool of flat ids, and a call serves its experts there.
What a call leaves is coherent: the two maps are inverse to each other, and a slot holds, in
every bank, the host row of the expert it is marked with.
-/

namespace FreeToken

open StampedPool StampedPool.Pool

namespace OffloadMoeCache

variable {ρ : Type}

/-- The slots, their flat ids and their stamps. -/
def pool (c : OffloadMoeCache ρ) : Pool Nat where
  size := c.cacheSize
  owner := c.idOfSlot
  stamp := c.usage

/-- What the banks are fed from. -/
def sources (c : OffloadMoeCache ρ) : List (String × (Nat → Nat → ρ)) :=
  c.banks.map fun b => (b.name, b.host)

/-- Between two calls, each of them copied. -/
structure Coherent (c : OffloadMoeCache ρ) : Prop where
  ok : c.pool.Ok c.step
  id_lt : ∀ s id, c.idOfSlot s = some id → id < c.numLayers * c.numExperts
  inverse : ∀ id s, c.slotForId id = some s ↔ c.idOfSlot s = some id
  rows : ∀ b ∈ c.banks, ∀ s id, c.idOfSlot s = some id →
    b.cache s = b.host (id / c.numExperts) (id % c.numExperts)

theorem flatId_inj {c : OffloadMoeCache ρ} {layer e e' : Nat}
    (h : c.flatId layer e = c.flatId layer e') : e = e' := Nat.add_left_cancel h

theorem flatId_div {c : OffloadMoeCache ρ} {layer e : Nat} (h : e < c.numExperts) :
    c.flatId layer e / c.numExperts = layer := by
  rw [flatId, Nat.mul_comm, Nat.mul_add_div (Nat.zero_lt_of_lt h), Nat.div_eq_of_lt h, Nat.add_zero]

theorem flatId_mod {c : OffloadMoeCache ρ} {layer e : Nat} (h : e < c.numExperts) :
    c.flatId layer e % c.numExperts = e := by
  rw [flatId, Nat.mul_comm, Nat.mul_add_mod, Nat.mod_eq_of_lt h]

theorem flatId_lt {c : OffloadMoeCache ρ} {layer e : Nat} (hl : layer < c.numLayers)
    (he : e < c.numExperts) : c.flatId layer e < c.numLayers * c.numExperts := by
  calc layer * c.numExperts + e < layer * c.numExperts + c.numExperts := Nat.add_lt_add_left he _
    _ = (layer + 1) * c.numExperts := (Nat.succ_mul _ _).symm
    _ ≤ c.numLayers * c.numExperts := Nat.mul_le_mul_right _ hl

/-! ### The parts of a call -/

theorem foldl_slots {ids : Nat → Option Nat}
    (huniq : ∀ s s' id, ids s = some id → ids s' = some id → s = s') (n id s : Nat) :
    (List.range n).foldl
        (fun slots s =>
          match ids s with
          | none => slots
          | some id => Function.update slots id (some s))
        (fun _ => none) id = some s ↔ s < n ∧ ids s = some id := by
  induction n with
  | zero => simp
  | succ n ih =>
      rw [List.range_succ, List.foldl_append, List.foldl_cons, List.foldl_nil]
      cases hn : ids n with
      | none =>
          rw [ih]
          constructor
          · rintro ⟨hs, hid⟩
            exact ⟨Nat.lt_succ_of_lt hs, hid⟩
          · rintro ⟨hs, hid⟩
            refine ⟨Nat.lt_of_le_of_ne (Nat.le_of_lt_succ hs) ?_, hid⟩
            rintro rfl
            rw [hn] at hid
            cases hid
      | some id' =>
          dsimp only
          by_cases hid' : id = id'
          · subst hid'
            rw [Function.update_self]
            constructor
            · intro heq
              obtain rfl := Option.some.inj heq
              exact ⟨Nat.lt_succ_self n, hn⟩
            · rintro ⟨-, hid⟩
              rw [huniq s n id hid hn]
          · rw [Function.update_of_ne hid', ih]
            constructor
            · rintro ⟨hs, hid⟩
              exact ⟨Nat.lt_succ_of_lt hs, hid⟩
            · rintro ⟨hs, hid⟩
              refine ⟨Nat.lt_of_le_of_ne (Nat.le_of_lt_succ hs) ?_, hid⟩
              rintro rfl
              rw [hn] at hid
              exact hid' (Option.some.inj hid).symm

/-- The map that is rebuilt is the inverse of `id_of_slot`. -/
theorem resync_slotForId {c : OffloadMoeCache ρ} {now : Nat} (h : c.pool.Ok now) (id s : Nat) :
    c.resync.slotForId id = some s ↔ c.idOfSlot s = some id := by
  refine (foldl_slots h.unique c.cacheSize id s).trans ?_
  constructor
  · exact And.right
  · intro hid
    exact ⟨h.owner_lt s id hid, hid⟩

theorem foldl_stamps {slots : Nat → Option Nat} (now s : Nat) (asked : List Nat)
    (usage : Nat → Nat) :
    asked.foldl
        (fun usage id =>
          match slots id with
          | none => usage
          | some s => Function.update usage s now)
        usage s = if ∃ id ∈ asked, slots id = some s then now else usage s := by
  induction asked generalizing usage with
  | nil => simp
  | cons id asked ih =>
      rw [List.foldl_cons, ih]
      by_cases hlater : ∃ id ∈ asked, slots id = some s
      · rw [if_pos hlater, if_pos]
        obtain ⟨id', hmem, hid'⟩ := hlater
        exact ⟨id', List.mem_cons_of_mem id hmem, hid'⟩
      · rw [if_neg hlater]
        by_cases hs : slots id = some s
        · rw [if_pos ⟨id, List.mem_cons_self, hs⟩, hs]
          exact Function.update_self _ _ _
        · rw [if_neg]
          · cases hid : slots id with
            | none => rfl
            | some s' =>
                apply Function.update_of_ne
                rintro rfl
                exact hs hid
          · rintro ⟨id', hmem, hid'⟩
            rcases List.mem_cons.mp hmem with rfl | hmem
            · exact hs hid'
            · exact hlater ⟨id', hmem, hid'⟩

theorem hits_touched {c : OffloadMoeCache ρ} (h : c.Coherent) (layer : Nat) (asked : List Nat) :
    Touched c.pool (c.hits layer asked).pool (c.step + 1) (asked.map (c.flatId layer)) := by
  have husage : ∀ s, (c.hits layer asked).usage s =
      if ∃ id ∈ asked.map (c.flatId layer), c.slotForId id = some s then c.step + 1
      else c.usage s := by
    intro s
    rw [← foldl_stamps, List.foldl_map]
    rfl
  refine ⟨rfl, rfl, ?_, ?_⟩
  · intro s id hs hid
    refine (husage s).trans (if_pos ⟨id, hid, (h.inverse id s).mpr hs⟩)
  · intro s hnone
    refine (husage s).trans (if_neg ?_)
    rintro ⟨id, hid, hs⟩
    exact hnone id hid ((h.inverse id s).mp hs)

theorem mem_missing {c : OffloadMoeCache ρ} (h : c.Coherent) {layer e : Nat} {asked : List Nat} :
    e ∈ c.missing layer asked ↔ e ∈ asked ∧ ¬ c.pool.Holds (c.flatId layer e) := by
  rw [missing, List.mem_filter, decide_eq_true_eq]
  refine and_congr_right fun _ => ?_
  constructor
  · rintro hnone ⟨s, hs⟩
    rw [(h.inverse _ s).mpr hs] at hnone
    cases hnone
  · intro hno
    cases hslot : c.slotForId (c.flatId layer e) with
    | none => rfl
    | some s => exact absurd ⟨s, (h.inverse _ s).mp hslot⟩ hno

/-! ### Choosing a victim -/

/-- A choice among all slots, of one whose stamp is least. -/
structure LeastPick (pick : OffloadMoeCache ρ → Option Nat) : Prop where
  least : ∀ c v, c.pool.Ok c.step → pick c = some v → c.pool.Least v
  some : ∀ c, 0 < c.cacheSize → ∃ v, pick c = some v

theorem lruSlot_least {c : OffloadMoeCache ρ} {v : Nat} (h : c.lruSlot = some v) :
    c.pool.Least v := by
  have hmem := List.argmin_mem (Option.mem_def.mpr h)
  refine ⟨List.mem_range.mp hmem, ?_⟩
  intro s hs
  have hle := List.le_of_mem_argmin (List.mem_range.mpr hs) (Option.mem_def.mpr h)
  rw [Prod.Lex.toLex_le_toLex] at hle
  rcases hle with hlt | ⟨heq, -⟩
  · exact Nat.le_of_lt hlt
  · exact Nat.le_of_eq heq

theorem exists_lruSlot {c : OffloadMoeCache ρ} (h : 0 < c.cacheSize) : ∃ v, c.lruSlot = some v := by
  cases hv : c.lruSlot with
  | some v => exact ⟨v, rfl⟩
  | none =>
      have hnil := List.argmin_eq_none.mp hv
      rw [List.range_eq_nil] at hnil
      omega

theorem lruSlot_leastPick : LeastPick (lruSlot (ρ := ρ)) where
  least _ _ _ hv := lruSlot_least hv
  some _ hc := exists_lruSlot hc

theorem freeOrLru_leastPick : LeastPick (freeOrLru (ρ := ρ)) where
  least c v hok hv := by
    unfold freeOrLru at hv
    split at hv
    · exact lruSlot_least hv
    · rename_i s ss hfree
      obtain rfl := Option.some.inj hv
      have hmem : s ∈ (List.range c.cacheSize).filter fun s => c.idOfSlot s = none := by
        rw [hfree]
        exact List.mem_cons_self
      obtain ⟨hs, hnone⟩ := List.mem_filter.mp hmem
      exact least_of_free hok (List.mem_range.mp hs) (of_decide_eq_true hnone)
  some c hc := by
    unfold freeOrLru
    split
    · exact exists_lruSlot hc
    · exact ⟨_, rfl⟩

/-! ### The loop over the misses -/

@[simp] theorem place_pool (c : OffloadMoeCache ρ) (layer e v : Nat) :
    (c.place layer e v).pool = c.pool.put c.step (c.flatId layer e) v := rfl

/-- What the loop does: `new` is what it adds to the plan. -/
structure Placed (c c' : OffloadMoeCache ρ) (layer : Nat) (experts : List Nat)
    (new : List (Nat × Nat)) : Prop where
  numLayers_eq : c'.numLayers = c.numLayers
  numExperts_eq : c'.numExperts = c.numExperts
  step_eq : c'.step = c.step
  banks_eq : c'.banks = c.banks
  puts : Puts c.step c.pool (experts.map (c.flatId layer)) c'.pool
  plan_eq : c'.plan = c.plan ++ new
  placed : ∀ p ∈ new, p.2 ∈ experts ∧ c'.idOfSlot p.1 = some (c.flatId layer p.2)
  other : ∀ s, (∀ p ∈ new, p.1 ≠ s) → c'.idOfSlot s = c.idOfSlot s

theorem placeAll_placed {pick : OffloadMoeCache ρ → Option Nat} (hpick : LeastPick pick)
    {layer : Nat} {asked : List Nat} :
    ∀ {experts : List Nat} {c c' : OffloadMoeCache ρ},
      Serving c.pool c.step asked (experts.map (c.flatId layer)) →
      placeAll pick layer c experts = .ok c' → ∃ new, Placed c c' layer experts new
  | [], c, c', _, h => by
      cases h
      exact ⟨[], rfl, rfl, rfl, rfl, .nil _, (List.append_nil _).symm, by simp, fun _ _ => rfl⟩
  | e :: experts, c, c', hserving, h => by
      rw [placeAll] at h
      split at h
      · cases h
      · split at h
        · cases h
        · rename_i v hv
          have hleast := hpick.least c v hserving.ok hv
          have hnext : Serving (c.place layer e v).pool (c.place layer e v).step asked
              (experts.map ((c.place layer e v).flatId layer)) := hserving.put hleast
          obtain ⟨new, hplaced⟩ := placeAll_placed hpick hnext h
          have hself : c'.idOfSlot v = some (c.flatId layer e) :=
            (hplaced.puts.keeps hnext (put_owner_self c.pool c.step _ v)
              (put_stamp_self c.pool c.step _ v)).1
          refine ⟨(v, e) :: new, hplaced.numLayers_eq, hplaced.numExperts_eq, hplaced.step_eq,
            hplaced.banks_eq, .cons hleast hplaced.puts, ?_, ?_, ?_⟩
          · rw [hplaced.plan_eq]
            exact List.append_assoc c.plan [(v, e)] new
          · intro p hp
            rcases List.mem_cons.mp hp with rfl | hp
            · exact ⟨List.mem_cons_self, hself⟩
            · obtain ⟨hmem, hid⟩ := hplaced.placed p hp
              exact ⟨List.mem_cons_of_mem e hmem, hid⟩
          · intro s hs
            rw [hplaced.other s fun p hp => hs p (List.mem_cons_of_mem _ hp)]
            exact Function.update_of_ne (hs (v, e) List.mem_cons_self).symm _ _

theorem placeAll_isOk {pick : OffloadMoeCache ρ → Option Nat} (hpick : LeastPick pick)
    {layer : Nat} : ∀ {experts : List Nat} {c : OffloadMoeCache ρ}, 0 < c.cacheSize →
      c.plan.length + experts.length ≤ c.planSlots →
      ∃ c', placeAll pick layer c experts = .ok c'
  | [], c, _, _ => ⟨c, rfl⟩
  | e :: experts, c, hc, hlen => by
      rw [List.length_cons] at hlen
      obtain ⟨v, hv⟩ := hpick.some c hc
      have hnext : (c.place layer e v).plan.length + experts.length ≤
          (c.place layer e v).planSlots := by
        have hplan : (c.place layer e v).plan.length = c.plan.length + 1 := by
          simp [place]
        have hslots : (c.place layer e v).planSlots = c.planSlots := rfl
        omega
      rw [placeAll, if_neg (by omega), hv]
      exact placeAll_isOk hpick hc hnext

/-! ### The copy -/

theorem foldl_copy_of_notMem {host : Nat → ρ} {plan : List (Nat × Nat)} {s : Nat}
    (h : ∀ p ∈ plan, p.1 ≠ s) (cache : Nat → ρ) :
    plan.foldl (fun cache p => Function.update cache p.1 (host p.2)) cache s = cache s := by
  induction plan generalizing cache with
  | nil => rfl
  | cons p plan ih =>
      rw [List.foldl_cons, ih fun q hq => h q (List.mem_cons_of_mem p hq)]
      exact Function.update_of_ne (h p List.mem_cons_self).symm _ _

theorem foldl_copy_of_mem {host : Nat → ρ} {plan : List (Nat × Nat)} {s row : Nat}
    (hmem : (s, row) ∈ plan) (h : ∀ p ∈ plan, p.1 = s → p.2 = row) (cache : Nat → ρ) :
    plan.foldl (fun cache p => Function.update cache p.1 (host p.2)) cache s = host row := by
  induction plan generalizing cache with
  | nil => cases hmem
  | cons p plan ih =>
      have hlater : ∀ q ∈ plan, q.1 = s → q.2 = row := fun q hq =>
        h q (List.mem_cons_of_mem p hq)
      rw [List.foldl_cons]
      by_cases hin : (s, row) ∈ plan
      · exact ih hin hlater _
      · have hp : (s, row) = p := (List.mem_cons.mp hmem).resolve_right hin
        subst hp
        rw [foldl_copy_of_notMem]
        · exact Function.update_self _ _ _
        · rintro ⟨s', row'⟩ hq rfl
          have hrow := hlater (s', row') hq rfl
          subst hrow
          exact hin hq

/-! ### A whole call -/

/-- What a call that asks for experts does, its plan copied: `p` is the pool after the hits,
and `rest` are the flat ids of the misses. -/
structure Served (c c' : OffloadMoeCache ρ) (layer : Nat) (asked : List Nat) (p : Pool Nat)
    (rest : List Nat) : Prop where
  numLayers_eq : c'.numLayers = c.numLayers
  numExperts_eq : c'.numExperts = c.numExperts
  sources_eq : c'.sources = c.sources
  step_eq : c'.step = c.step + 1
  touched : Touched c.pool p c'.step (asked.map (c.flatId layer))
  serving : Serving p c'.step (asked.map (c.flatId layer)) rest
  puts : Puts c'.step p rest c'.pool
  coherent : c'.Coherent

theorem hits_serving {c : OffloadMoeCache ρ} (h : c.Coherent) {order : List Nat → List Nat}
    (horder : ∀ l, (order l).Perm l) {layer : Nat} {asked : List Nat} (hnodup : asked.Nodup)
    (hlt : ∀ e ∈ asked, e < c.numExperts) :
    Serving (c.hits layer asked).pool (c.hits layer asked).step (asked.map (c.flatId layer))
      ((order (c.missing layer asked)).map ((c.hits layer asked).flatId layer)) := by
  have hinj : Function.Injective (c.flatId layer) := fun _ _ heq => flatId_inj heq
  have hroom : (asked.map (c.flatId layer)).length ≤ c.pool.size := by
    have hsub : asked ⊆ List.range c.numExperts := fun e he => List.mem_range.mpr (hlt e he)
    have hlen := (hnodup.subperm hsub).length_le
    rw [List.length_range] at hlen
    rw [List.length_map]
    exact Nat.le_trans hlen c.numExperts_le
  have hrest : ((order (c.missing layer asked)).map (c.flatId layer)).Nodup :=
    ((horder _).nodup_iff.mpr (hnodup.filter _)).map hinj
  apply (hits_touched h layer asked).serving h.ok (Nat.lt_succ_self _) hroom hrest
  intro id
  constructor
  · intro hid
    obtain ⟨e, he, rfl⟩ := List.mem_map.mp hid
    obtain ⟨hmem, hno⟩ := (mem_missing h).mp ((horder _).mem_iff.mp he)
    exact ⟨List.mem_map_of_mem hmem, hno⟩
  · rintro ⟨hid, hno⟩
    obtain ⟨e, he, rfl⟩ := List.mem_map.mp hid
    exact List.mem_map_of_mem ((horder _).mem_iff.mpr ((mem_missing h).mpr ⟨he, hno⟩))

theorem serve_served {c c1 c' : OffloadMoeCache ρ} (h : c.Coherent)
    {pick : OffloadMoeCache ρ → Option Nat} (hpick : LeastPick pick)
    {order : List Nat → List Nat} (horder : ∀ l, (order l).Perm l) {layer : Nat}
    (hlayer : layer < c.numLayers) {asked : List Nat} (hnodup : asked.Nodup)
    (hlt : ∀ e ∈ asked, e < c.numExperts) (hserve : serve pick order c layer asked = .ok c1)
    (hcopy : c1.copyMissing = .ok c') :
    Served c c' layer asked (c.hits layer asked).pool
      ((order (c.missing layer asked)).map (c.flatId layer)) := by
  rw [serve] at hserve
  cases hplace : placeAll pick layer (c.hits layer asked) (order (c.missing layer asked)) with
  | error e =>
      rw [hplace] at hserve
      cases hserve
  | ok c2 =>
      rw [hplace] at hserve
      obtain rfl := Except.ok.inj hserve
      have hserving : Serving (c.hits layer asked).pool (c.hits layer asked).step
          (asked.map (c.flatId layer))
          ((order (c.missing layer asked)).map ((c.hits layer asked).flatId layer)) :=
        hits_serving h horder hnodup hlt
      obtain ⟨new, hplaced⟩ := placeAll_placed hpick hserving hplace
      have hend := hplaced.puts.serving hserving
      rw [copyMissing] at hcopy
      split at hcopy
      · cases hcopy
      · obtain rfl := Except.ok.inj hcopy
        have hplan : c2.plan = new := hplaced.plan_eq
        have hok : c2.pool.Ok c2.step := hplaced.step_eq ▸ hend.ok
        have hstep : c2.step = c.step + 1 := hplaced.step_eq
        have hexperts : c2.numExperts = c.numExperts := hplaced.numExperts_eq
        have hlayers : c2.numLayers = c.numLayers := hplaced.numLayers_eq
        have hrow : ∀ p ∈ new, p.2 < c.numExperts := fun p hp =>
          hlt p.2 ((mem_missing h).mp ((horder _).mem_iff.mp (hplaced.placed p hp).1)).1
        have htouched : Touched c.pool (c.hits layer asked).pool c2.step
            (asked.map (c.flatId layer)) := hstep ▸ hits_touched h layer asked
        have hsources : ∀ f : Bank ρ → Nat → ρ,
            (c2.banks.map fun b => { b with cache := f b }).map (fun b => (b.name, b.host)) =
              c.sources := by
          intro f
          rw [List.map_map, hplaced.banks_eq]
          rfl
        refine ⟨hlayers, hexperts, hsources _, hstep, htouched, hplaced.step_eq ▸ hserving,
          hplaced.step_eq ▸ hplaced.puts, hok, ?_, ?_, ?_⟩
        · intro s id hs
          change id < c2.numLayers * c2.numExperts
          rw [hlayers, hexperts]
          by_cases hnew : ∃ p ∈ new, p.1 = s
          · obtain ⟨p, hp, rfl⟩ := hnew
            have hid := (hplaced.placed p hp).2
            obtain rfl := Option.some.inj (hs.symm.trans hid)
            exact flatId_lt hlayer (hrow p hp)
          · have hold := hplaced.other s fun p hp heq => hnew ⟨p, hp, heq⟩
            exact h.id_lt s id (hold.symm.trans hs)
        · intro id s
          exact resync_slotForId hok id s
        · intro b hb s id hs
          obtain ⟨b0, hb0, rfl⟩ := List.mem_map.mp hb
          change c2.plan.foldl (fun cache p => Function.update cache p.1 (b0.host layer p.2)) b0.cache s =
            b0.host (id / c2.numExperts) (id % c2.numExperts)
          rw [hplan, hexperts]
          by_cases hnew : ∃ p ∈ new, p.1 = s
          · obtain ⟨⟨s', row⟩, hp, rfl⟩ := hnew
            have hid := (hplaced.placed _ hp).2
            obtain rfl := Option.some.inj (hs.symm.trans hid)
            have hlast : ∀ q ∈ new, q.1 = s' → q.2 = row := by
              rintro ⟨s2, row2⟩ hq rfl
              exact flatId_inj (Option.some.inj ((hplaced.placed _ hq).2.symm.trans hid))
            rw [foldl_copy_of_mem hp hlast]
            exact congrArg₂ b0.host (flatId_div (c := c) (hrow _ hp)).symm
              (flatId_mod (c := c) (hrow _ hp)).symm
          · have hnot : ∀ p ∈ new, p.1 ≠ s := fun p hp heq => hnew ⟨p, hp, heq⟩
            rw [foldl_copy_of_notMem hnot]
            have hb1 : b0 ∈ c.banks := hplaced.banks_eq ▸ hb0
            exact h.rows b0 hb1 s id ((hplaced.other s hnot).symm.trans hs)

end OffloadMoeCache

end FreeToken
