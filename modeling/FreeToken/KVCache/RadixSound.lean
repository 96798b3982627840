import FreeToken.KVCache.RadixHolders

/-!
# The locks, over any run

`Sound c held` is the invariant of the cache and the evicted nodes while the handles `held` are
locked, wherever their nodes are.
-/

namespace FreeToken

namespace RadixNodes

variable {c c' : RadixNodes} {held : List RadixCacheHandle}

/-- The handle's node is in the tree, was evicted, or is the root. -/
def Known (c : RadixNodes) (hd : RadixCacheHandle) : Prop :=
  ∀ u, hd.node = some u → u ∈ c.cache.tree.uuids ∨ u ∈ c.evicted.map fun e => e.node.uuid

/-- How many of the handles hold an evicted node. -/
def holders (c : RadixNodes) (held : List RadixCacheHandle) (u : Nat) : Nat :=
  held.countP fun hd => decide (u ∈ (c.ancestors hd).1.map fun e => e.node.uuid)

structure Sound (c : RadixNodes) (held : List RadixCacheHandle) : Prop where
  apart : c.Apart
  wellFormed : (c.cache.shift (lockedLength c.evicted)).WellFormed (held.map c.landed)
  nodup : (c.evicted.map fun e => e.node.uuid).Nodup
  linked : Linked c.cache.tree.uuids c.evicted
  refs : ∀ e ∈ c.evicted, e.node.refCount = c.holders held e.node.uuid

theorem sound_init {ps : Nat} (hps : 0 < ps) : (init ps).Sound [] where
  apart := apart_init hps
  wellFormed := RadixPrefixCache.wellFormed_init hps
  nodup := List.nodup_nil
  linked := trivial
  refs := fun _ he => absurd he List.not_mem_nil

theorem Sound.landed_mem (h : c.Sound held) {hd : RadixCacheHandle} (hk : c.Known hd) {u : Nat}
    (hu : (c.landed hd).node = some u) : u ∈ c.cache.tree.uuids := by
  simp only [landed, ancestors] at hu
  split at hu
  · cases hu
  · next v hv => exact climb_mem h.linked (hk v hv) hu

theorem ancestors_sublist (c : RadixNodes) (hd : RadixCacheHandle) :
    (c.ancestors hd).1.Sublist c.evicted := by
  unfold ancestors
  split
  · exact List.nil_sublist _
  · exact climb_sublist _ _

/-! ### Growing -/

/-- A step that only adds nodes to the tree. -/
theorem Sound.grow (h : c.Sound held) {cache : RadixPrefixCache}
    (hw : (cache.shift (lockedLength c.evicted)).WellFormed (held.map c.landed))
    (hgrows : RadixPrefixCache.Grows c.cache cache)
    (hsub : ∀ u ∈ c.cache.tree.uuids, u ∈ cache.tree.uuids) :
    Sound { c with cache := cache } held where
  apart := h.apart.grow hw.shape.unshift hgrows
  wellFormed := hw
  nodup := h.nodup
  linked := h.linked.mono hsub
  refs := h.refs

theorem Sound.matchPrefix (h : c.Sound held) (ids : List Token) :
    (c.matchPrefix ids).2.Sound held := by
  have hm := RadixPrefixCache.matchPrefix_spec h.wellFormed ids
  have hw := h.apart.shape.walked ids
  exact h.grow hm.wellFormed hw.grows fun u hu => (hw.keeps.span_eq u hu).1

theorem Sound.insertPrefix (h : c.Sound held) {ids : List Token} {slots : List Slot}
    {res : MatchResult} (hinsert : c.insertPrefix ids slots = some (res, c')) : c'.Sound held := by
  rw [RadixNodes.insertPrefix, Option.map_eq_some_iff] at hinsert
  obtain ⟨⟨res', cache⟩, hinsert, heq⟩ := hinsert
  cases heq
  have hi := h.apart.shape.inserting hinsert
  exact h.grow (h.wellFormed.insertPrefix (RadixPrefixCache.insertPrefix_shift hinsert)) hi.grows
    fun u hu => (hi.span_eq u hu).1

/-! ### Locking -/

/-- New counts move no handle. -/
theorem ancestors_recount {f : Nat → Nat} {on : List EvictedNode} {cache : RadixPrefixCache}
    (hd : RadixCacheHandle) :
    ancestors { cache := cache, evicted := recount f on c.evicted } hd =
      (recount f on (c.ancestors hd).1, (c.ancestors hd).2) := by
  unfold ancestors
  cases hd.node with
  | none => rfl
  | some u =>
      apply climb_map
      · intro e
        dsimp only
        split
        · rfl
        · rfl
      · intro e
        dsimp only
        split
        · rfl
        · rfl

theorem map_uuid_recount (f : Nat → Nat) (on es : List EvictedNode) :
    (recount f on es).map (fun e => e.node.uuid) = es.map fun e => e.node.uuid := by
  rw [recount, List.map_map]
  apply List.map_congr_left
  intro e _
  dsimp only [Function.comp_apply]
  split
  · rfl
  · rfl

theorem linked_recount {inTree : List Nat} {f : Nat → Nat} {on : List EvictedNode} :
    ∀ {es : List EvictedNode}, Linked inTree es → Linked inTree (recount f on es)
  | [], _ => trivial
  | e :: es, h => by
      refine ⟨fun v hv => ?_, linked_recount h.2⟩
      have hparent : e.parent = some v := by
        dsimp only at hv
        split at hv
        · exact hv
        · exact hv
      change v ∈ inTree ∨ v ∈ (recount f on es).map fun e => e.node.uuid
      rw [map_uuid_recount]
      exact h.1 v hparent

theorem landed_recount {f : Nat → Nat} {on : List EvictedNode} {cache : RadixPrefixCache}
    (hd : RadixCacheHandle) :
    landed { cache := cache, evicted := recount f on c.evicted } hd = c.landed hd := by
  rw [landed, landed, ancestors_recount]

theorem holders_recount {f : Nat → Nat} {on : List EvictedNode} {cache : RadixPrefixCache}
    (hs : List RadixCacheHandle) (u : Nat) :
    holders { cache := cache, evicted := recount f on c.evicted } hs u = c.holders hs u := by
  rw [holders, holders]
  apply List.countP_congr
  intro hd _
  rw [ancestors_recount, map_uuid_recount]

theorem holders_cons (hd : RadixCacheHandle) (u : Nat) : c.holders (hd :: held) u =
    c.holders held u + if u ∈ (c.ancestors hd).1.map (fun e => e.node.uuid) then 1 else 0 := by
  rw [holders, List.countP_cons]
  simp [holders]

theorem Sound.lock (h : c.Sound held) {hd : RadixCacheHandle} (hk : c.Known hd) :
    (c.lock hd).Sound (hd :: held) := by
  have hsub := ancestors_sublist c hd
  have hre := relocks_lock c hd
  obtain ⟨hw, -, -⟩ := RadixPrefixCache.lock_spec h.wellFormed (h := c.landed hd)
    fun u hu => h.landed_mem hk hu
  exact
    { apart := hre.apart h.apart
      wellFormed := by
        rw [RadixPrefixCache.lock_shift] at hw
        have hlen := lockedLength_lock hsub h.nodup
        have hlanded : ((hd :: held).map (c.lock hd).landed) = c.landed hd :: held.map c.landed :=
          List.map_congr_left fun x _ => landed_recount x
        have hshift : (c.lock hd).cache.shift (lockedLength (c.lock hd).evicted) =
            (c.cache.lock (c.landed hd)).shift (lockedLength c.evicted) := by
          simp only [RadixNodes.lock, RadixPrefixCache.shift, hlen,
            RadixPrefixCache.mk.injEq, true_and]
          exact ⟨by omega, by omega⟩
        rw [hshift, hlanded]
        exact hw
      nodup := by
        rw [RadixNodes.lock, map_uuid_recount]
        exact h.nodup
      linked := by
        rw [hre.uuids_eq]
        exact linked_recount h.linked
      refs := by
        intro e he
        rw [RadixNodes.lock, holders_recount]
        obtain ⟨e0, he0, rfl⟩ := List.mem_map.mp he
        have hrefs := h.refs e0 he0
        by_cases hgone : e0.node.uuid ∈ (c.ancestors hd).1.map fun x => x.node.uuid
        · rw [if_pos hgone]
          dsimp only
          rw [holders_cons, if_pos hgone, hrefs]
        · rw [if_neg hgone, holders_cons, if_neg hgone, hrefs, Nat.add_zero] }

theorem Sound.unlock {hd : RadixCacheHandle} (h : c.Sound (hd :: held)) :
    ∃ c', c.unlock hd = some c' ∧ c'.Sound held := by
  have hsub := ancestors_sublist c hd
  have hpos : ∀ e ∈ (c.ancestors hd).1, e.node.refCount ≠ 0 := by
    intro e he
    rw [h.refs e (hsub.subset he), holders_cons, if_pos (List.mem_map.mpr ⟨e, he, rfl⟩)]
    exact Nat.succ_ne_zero _
  have hany : ((c.ancestors hd).1.any fun e => e.node.refCount == 0) = false := by
    rw [List.any_eq_false]
    intro e he
    simpa using hpos e he
  obtain ⟨c1, hunlock, hw, -⟩ := RadixPrefixCache.unlock_spec h.wellFormed
  obtain ⟨cache, hcache, rfl⟩ := RadixPrefixCache.unlock_shift hunlock
  have hlen := lockedLength_unlock hsub h.nodup hpos
  have heq : c.unlock hd = some
      { cache :=
          { cache with
            evictableSize := cache.evictableSize + length 1 (c.ancestors hd).1
            protectedSize := cache.protectedSize - length 1 (c.ancestors hd).1 }
        evicted := recount (· - 1) (c.ancestors hd).1 c.evicted } := by
    rw [RadixNodes.unlock, hany, hcache]
    rfl
  have hre := relocks_unlock heq
  refine ⟨_, heq, ?_⟩
  exact
    { apart := hre.apart h.apart
      wellFormed := by
        have hlanded : (held.map fun x => landed
            { cache :=
                { cache with
                  evictableSize := cache.evictableSize + length 1 (c.ancestors hd).1
                  protectedSize := cache.protectedSize - length 1 (c.ancestors hd).1 }
              evicted := recount (· - 1) (c.ancestors hd).1 c.evicted } x) =
            held.map c.landed := List.map_congr_left fun x _ => landed_recount x
        rw [hlanded]
        have hshift : RadixPrefixCache.shift
            { cache with
              evictableSize := cache.evictableSize + length 1 (c.ancestors hd).1
              protectedSize := cache.protectedSize - length 1 (c.ancestors hd).1 }
            (lockedLength (recount (· - 1) (c.ancestors hd).1 c.evicted)) =
            cache.shift (lockedLength c.evicted) := by
          simp only [RadixPrefixCache.shift, RadixPrefixCache.mk.injEq, true_and]
          exact ⟨by omega, by omega⟩
        rw [hshift]
        exact hw
      nodup := by
        rw [map_uuid_recount]
        exact h.nodup
      linked := by
        rw [hre.uuids_eq]
        exact @linked_recount _ (· - 1) (c.ancestors hd).1 _ h.linked
      refs := by
        intro e he
        rw [holders_recount]
        obtain ⟨e0, he0, rfl⟩ := List.mem_map.mp he
        have hrefs := h.refs e0 he0
        rw [holders_cons] at hrefs
        by_cases hgone : e0.node.uuid ∈ (c.ancestors hd).1.map fun x => x.node.uuid
        · rw [if_pos hgone] at hrefs ⊢
          dsimp only
          rw [hrefs, Nat.add_sub_cancel]
        · rw [if_neg hgone] at hrefs ⊢
          exact hrefs }

/-! ### Evicting -/

theorem lockedLength_append {es vs : List EvictedNode} (h : ∀ e ∈ vs, e.node.refCount = 0) :
    lockedLength (es ++ vs) = lockedLength es := by
  have hnone : vs.filter (fun e => decide (e.node.refCount ≠ 0)) = [] := by
    rw [List.filter_eq_nil_iff]
    intro e he
    simpa using h e he
  rw [lockedLength, List.filter_append, hnone, List.append_nil, lockedLength]

/-- What an eviction leaves of a sound state: the held handles stay where they are. -/
structure EvictedFrom (c : RadixNodes) (held : List RadixCacheHandle) (size : Nat)
    (c' : RadixNodes) : Prop where
  sound : c'.Sound held
  pops : Pops c.cache.tree (Forest.evictedNodes size c.cache.tree.count c.cache.tree 0) c'.cache.tree
  evicted_eq : c'.evicted =
    c.evicted ++ Forest.evictedNodes size c.cache.tree.count c.cache.tree 0
  ancestors_eq : ∀ hd ∈ held, c'.ancestors hd = c.ancestors hd

theorem Sound.evict (h : c.Sound held) {size : Nat} {indices : List Slot}
    (hevict : c.evict size = some (indices, c')) : EvictedFrom c held size c' := by
  rw [RadixNodes.evict, Option.map_eq_some_iff] at hevict
  obtain ⟨⟨indices', cache⟩, hcache, heq⟩ := hevict
  cases heq
  have hw := h.wellFormed.evict (RadixPrefixCache.evict_shift hcache)
  obtain ⟨hpops, -, -, hfields⟩ := RadixPrefixCache.evict_pops hcache
  have hcounter : cache.counter = c.cache.counter := by rw [hfields]
  obtain ⟨-, hperm⟩ := hpops.shape h.apart.shape.valid h.apart.shape.nodup
  obtain ⟨hlinked, hrefs⟩ := hpops.linked h.apart.shape.valid h.apart.shape.nodup
  generalize hvs : Forest.evictedNodes size c.cache.tree.count c.cache.tree 0 = vs at *
  obtain ⟨hnvs, -, hdisj⟩ := List.nodup_append'.mp (hperm.nodup_iff.mp h.apart.shape.nodup)
  -- a held handle lands on a node that stays
  have hanc : ∀ hd ∈ held, ancestors { cache := cache, evicted := c.evicted ++ vs } hd =
      c.ancestors hd := by
    intro hd hmem
    have hstay : ∀ v, (c.landed hd).node = some v → v ∈ cache.tree.uuids :=
      hw.held _ (List.mem_map.mpr ⟨hd, hmem, rfl⟩)
    unfold landed ancestors at hstay
    unfold ancestors
    cases hnode : hd.node with
    | none => rfl
    | some u =>
        rw [hnode] at hstay
        apply climb_append_of_notMem
        intro v hv hgone
        exact hdisj hgone (hstay v hv)
  have holdgone : ∀ e ∈ vs, e.node.uuid ∈ c.cache.tree.uuids := fun e he =>
    hperm.mem_iff.mpr (List.mem_append_left _ (List.mem_map.mpr ⟨e, he, rfl⟩))
  have hholders : ∀ u, holders { cache := cache, evicted := c.evicted ++ vs } held u =
      c.holders held u := by
    intro u
    apply List.countP_congr
    intro hd hmem
    rw [hanc hd hmem]
  have hsound : Sound { cache := cache, evicted := c.evicted ++ vs } held :=
    { apart :=
        { shape := hw.shape.unshift
          lt_counter := by
            intro e he
            dsimp only
            rw [hcounter]
            rcases List.mem_append.mp he with he | he
            · exact h.apart.lt_counter e he
            · exact h.apart.shape.fresh _ (holdgone e he)
          notMem := by
            intro e he hmem
            rcases List.mem_append.mp he with he | he
            · exact h.apart.notMem e he (hperm.mem_iff.mpr (List.mem_append_right _ hmem))
            · exact hdisj (List.mem_map.mpr ⟨e, he, rfl⟩) hmem }
      wellFormed := by
        have hlanded : held.map (landed { cache := cache, evicted := c.evicted ++ vs }) =
            held.map c.landed := by
          apply List.map_congr_left
          intro hd hmem
          rw [landed, landed, hanc hd hmem]
        rw [hlanded, lockedLength_append hrefs]
        exact hw
      nodup := by
        rw [List.map_append, List.nodup_append']
        refine ⟨h.nodup, hnvs, ?_⟩
        intro u hu hgone
        obtain ⟨e, he, rfl⟩ := List.mem_map.mp hu
        exact h.apart.notMem e he (hperm.mem_iff.mpr (List.mem_append_left _ hgone))
      linked := by
        refine Linked.append hlinked (fun u hu => ?_) h.linked
        exact (List.mem_append.mp (hperm.mem_iff.mp hu)).symm
      refs := by
        intro e he
        rw [hholders]
        rcases List.mem_append.mp he with he | he
        · exact h.refs e he
        · -- nobody holds a node that was in the tree as an evicted one
          rw [hrefs e he, holders]
          symm
          rw [List.countP_eq_zero]
          intro hd _
          rw [decide_eq_true_eq]
          intro hgone
          obtain ⟨e', he', heq⟩ := List.mem_map.mp hgone
          exact h.apart.notMem e' ((ancestors_sublist c hd).subset he') (heq ▸ holdgone e he) }
  exact
    { sound := hsound
      pops := by
        rw [hvs]
        exact hpops
      evicted_eq := by
        rw [hvs]
      ancestors_eq := hanc }

end RadixNodes

end FreeToken
