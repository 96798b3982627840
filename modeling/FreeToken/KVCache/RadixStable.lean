import FreeToken.KVCache.RadixShares

/-!
# A locked handle is stable

Whatever is called while a handle is locked, it reads the slots it read when it was locked; and
its unlock leaves the counts to the other handles. A run of the same calls that never locks the
handle ends in the same state, as long as its evictions take the same nodes.
-/

namespace FreeToken

/-! ### Calls do not see the counts -/

namespace RadixPrefixCache

/-- The same cache, up to its counts. -/
structure BareEq (c c' : RadixPrefixCache) : Prop where
  pageSize_eq : c'.pageSize = c.pageSize
  counter_eq : c'.counter = c.counter
  clock_eq : c'.clock = c.clock
  bare_eq : c'.tree.bare = c.tree.bare

variable {c c' : RadixPrefixCache}

theorem BareEq.treeWalk (h : BareEq c c') (ids : List Token) :
    (c'.treeWalk ids).1.node = (c.treeWalk ids).1.node ∧
      (c'.treeWalk ids).1.prefixLen = (c.treeWalk ids).1.prefixLen ∧
      BareEq (c.treeWalk ids).2 (c'.treeWalk ids).2 := by
  have hbare : c'.bare = c.bare := by
    simp only [bare, h.pageSize_eq, h.counter_eq, h.clock_eq, h.bare_eq]
  obtain ⟨hres, htree, hcounter, hclock⟩ := treeWalk_bare c ids
  obtain ⟨hres', htree', hcounter', hclock'⟩ := treeWalk_bare c' ids
  rw [hbare] at hres' htree' hcounter' hclock'
  have hnode := congrArg WalkResult.node (hres'.symm.trans hres)
  have hprefixLen := congrArg WalkResult.prefixLen (hres'.symm.trans hres)
  exact ⟨hnode, hprefixLen, h.pageSize_eq, hcounter'.symm.trans hcounter,
    hclock'.symm.trans hclock, htree'.symm.trans htree⟩

theorem BareEq.matchPrefix (h : BareEq c c') (ids : List Token) :
    (c'.matchPrefix ids).1 = (c.matchPrefix ids).1 ∧
      BareEq (c.matchPrefix ids).2 (c'.matchPrefix ids).2 := by
  obtain ⟨hnode, hprefixLen, hbare⟩ := h.treeWalk ids
  refine ⟨?_, hbare⟩
  dsimp only [RadixPrefixCache.matchPrefix]
  rw [hnode, hprefixLen]

theorem BareEq.insertPrefix (h : BareEq c c') {ids : List Token} {slots : List Slot}
    {res res' : MatchResult} {c1 c1' : RadixPrefixCache}
    (hinsert : c.insertPrefix ids slots = some (res, c1))
    (hinsert' : c'.insertPrefix ids slots = some (res', c1')) : res' = res ∧ BareEq c1 c1' := by
  obtain ⟨w, c2, hwalk, hcached, hhandle, hcase⟩ := insertPrefix_cases hinsert
  obtain ⟨w', c2', hwalk', hcached', hhandle', hcase'⟩ := insertPrefix_cases hinsert'
  rw [h.pageSize_eq] at hwalk' hhandle' hcase'
  obtain ⟨hnode, hprefixLen, hbare⟩ :=
    h.treeWalk (ids.take (alignDownNat ids.length c.pageSize))
  rw [hwalk, hwalk'] at hnode hprefixLen hbare
  dsimp only at hnode hprefixLen hbare
  have hlen : res'.cachedLen = res.cachedLen := by rw [hcached, hcached', hprefixLen]
  have hres : res'.handle.node = res.handle.node → res' = res := by
    intro hnode'
    obtain ⟨len, ⟨clen, node⟩⟩ := res
    obtain ⟨len', ⟨clen', node'⟩⟩ := res'
    dsimp only at hlen hhandle hhandle' hnode'
    rw [hlen, hhandle, hhandle', hnode']
  rw [hprefixLen] at hcase'
  rcases hcase with ⟨hall, rfl, hn⟩ | ⟨hall, -, hn, rfl⟩
  · rcases hcase' with ⟨-, rfl, hn'⟩ | ⟨hnot, -, -, -⟩
    · exact ⟨hres (by rw [hn, hn', hnode]), hbare⟩
    · exact absurd hall hnot
  · rcases hcase' with ⟨hall', -, -⟩ | ⟨-, -, hn', rfl⟩
    · exact absurd hall' hall
    · refine ⟨hres (by rw [hn, hn', hbare.counter_eq]), hbare.pageSize_eq,
        congrArg (· + 1) hbare.counter_eq, congrArg (· + 1) hbare.clock_eq, ?_⟩
      have hleaf : c2'.newLeaf ids slots w.prefixLen c.pageSize =
          c2.newLeaf ids slots w.prefixLen c.pageSize := by
        rw [newLeaf, newLeaf, hbare.counter_eq, hbare.clock_eq]
      dsimp only [setParent]
      rw [hnode, hleaf]
      cases w.node with
      | none =>
          dsimp only
          rw [← Forest.snoc_bare rfl, ← Forest.snoc_bare rfl, hbare.bare_eq]
      | some u =>
          dsimp only
          rw [← Forest.attach_bare rfl, ← Forest.attach_bare rfl, hbare.bare_eq]

end RadixPrefixCache

theorem Pops.tail {f f' : Forest} {e : EvictedNode} {es : List EvictedNode}
    (h : Pops f (e :: es) f') : Pops (f.remove e.node.uuid) es f' := by
  generalize hl : e :: es = l at h
  cases h with
  | done f => cases hl
  | pop hmin rest =>
      rw [List.cons.injEq] at hl
      obtain ⟨rfl, rfl⟩ := hl
      exact rest

theorem Pops.bare_eq {f f' g g' : Forest} {es : List EvictedNode} (h : Pops f es f')
    (h' : Pops g es g') (hbare : g.bare = f.bare) : g'.bare = f'.bare := by
  induction h generalizing g with
  | done f =>
      cases h'
      exact hbare
  | pop hmin rest ih =>
      apply ih h'.tail
      rw [Forest.remove_bare, Forest.remove_bare, hbare]

namespace RadixNodes

variable {c c' c'' : RadixNodes} {held held' : List RadixCacheHandle}

theorem Relocks.symm (h : Relocks c c') : Relocks c' c where
  pageSize_eq := h.pageSize_eq.symm
  counter_eq := h.counter_eq.symm
  clock_eq := h.clock_eq.symm
  bare_eq := h.bare_eq.symm
  evicted_eq := h.evicted_eq.symm

theorem Relocks.trans (h : Relocks c c') (h' : Relocks c' c'') : Relocks c c'' where
  pageSize_eq := h'.pageSize_eq.trans h.pageSize_eq
  counter_eq := h'.counter_eq.trans h.counter_eq
  clock_eq := h'.clock_eq.trans h.clock_eq
  bare_eq := h'.bare_eq.trans h.bare_eq
  evicted_eq := h'.evicted_eq.trans h.evicted_eq

theorem Relocks.bareEq (h : Relocks c c') : RadixPrefixCache.BareEq c.cache c'.cache :=
  ⟨h.pageSize_eq, h.counter_eq, h.clock_eq, h.bare_eq⟩

theorem relocks_of_bareEq {cache cache' : RadixPrefixCache} {es es' : List EvictedNode}
    (h : RadixPrefixCache.BareEq cache cache') (he : es'.map bareNode = es.map bareNode) :
    Relocks { cache := cache, evicted := es } { cache := cache', evicted := es' } :=
  ⟨h.pageSize_eq, h.counter_eq, h.clock_eq, h.bare_eq, he⟩

/-- The walk to the root does not depend on the counts. -/
theorem Relocks.ancestors (h : Relocks c c') (hd : RadixCacheHandle) :
    (c'.ancestors hd).2 = (c.ancestors hd).2 ∧
      (c'.ancestors hd).1.map (fun e => e.node.uuid) =
        (c.ancestors hd).1.map fun e => e.node.uuid := by
  unfold RadixNodes.ancestors
  cases hd.node with
  | none => exact ⟨rfl, rfl⟩
  | some u =>
      have hclimb : climb (c'.evicted.map bareNode) u = climb (c.evicted.map bareNode) u := by
        rw [h.evicted_eq]
      have hmap : ∀ es, climb (es.map bareNode) u = ((climb es u).1.map bareNode, (climb es u).2) :=
        fun es => @climb_map bareNode (fun _ => rfl) (fun _ => rfl) es u
      rw [hmap, hmap, Prod.mk.injEq] at hclimb
      refine ⟨hclimb.2, ?_⟩
      have huuids := congrArg (List.map fun e : EvictedNode => e.node.uuid) hclimb.1
      rw [List.map_map, List.map_map] at huuids
      exact huuids

theorem eq_of_bareNode {g : Nat → Nat} : ∀ {es es' : List EvictedNode},
    es'.map bareNode = es.map bareNode → (∀ e ∈ es, e.node.refCount = g e.node.uuid) →
      (∀ e ∈ es', e.node.refCount = g e.node.uuid) → es' = es
  | [], [], _, _, _ => rfl
  | [], _ :: _, h, _, _ => by cases h
  | _ :: _, [], h, _, _ => by cases h
  | e :: es, e' :: es', h, hg, hg' => by
      rw [List.map_cons, List.map_cons, List.cons.injEq] at h
      rw [eq_of_bareNode h.2 (fun x hx => hg x (List.mem_cons_of_mem _ hx))
        fun x hx => hg' x (List.mem_cons_of_mem _ hx)]
      have huuid : (bareNode e').node.uuid = (bareNode e).node.uuid := by rw [h.1]
      dsimp only [bareNode] at huuid
      have hcount : e'.node.refCount = e.node.refCount := by
        rw [hg e List.mem_cons_self, hg' e' List.mem_cons_self, huuid]
      have hnode : ∀ x : EvictedNode,
          x = { bareNode x with node := { (bareNode x).node with refCount := x.node.refCount } } :=
        fun _ => rfl
      rw [hnode e', hnode e, h.1, hcount]

/-- The locked handles decide everything that locks decide. -/
theorem Sound.eq_of_relocks (h : c.Sound held) (h' : c'.Sound held') (hre : Relocks c c')
    (hp : held.Perm held') : c' = c := by
  have hs := h'.perm hp.symm
  have hlanded : held.map c'.landed = held.map c.landed := by
    apply List.map_congr_left
    intro hd _
    rw [landed, landed, (hre.ancestors hd).1]
  have hholders : ∀ u, c'.holders held u = c.holders held u := by
    intro u
    apply List.countP_congr
    intro hd _
    rw [(hre.ancestors hd).2]
  have hevicted : c'.evicted = c.evicted := by
    refine @eq_of_bareNode (c.holders held) _ _ hre.evicted_eq h.refs fun e he => ?_
    rw [hs.refs e he, hholders]
  have htree : c'.cache.tree = c.cache.tree := by
    have hrefs := hs.wellFormed.refOk
    rw [hlanded] at hrefs
    exact Forest.eq_of_bare_eq hre.bare_eq hrefs h.wellFormed.refOk
  have hevictable : c'.cache.evictableSize = c.cache.evictableSize := by
    have heq := hs.wellFormed.evictable_eq
    have heq' := h.wellFormed.evictable_eq
    dsimp only [RadixPrefixCache.shift] at heq heq'
    rw [hevicted, htree] at heq
    omega
  have hprotected : c'.cache.protectedSize = c.cache.protectedSize := by
    have heq := hs.wellFormed.protected_eq
    have heq' := h.wellFormed.protected_eq
    dsimp only [RadixPrefixCache.shift] at heq heq'
    rw [hevicted, htree] at heq
    omega
  obtain ⟨⟨ps, tree, counter, clock, evictable, protectd⟩, evicted⟩ := c
  obtain ⟨⟨ps', tree', counter', clock', evictable', protectd'⟩, evicted'⟩ := c'
  obtain ⟨hps, hcounter, hclock, -, -⟩ := hre
  dsimp only at hps hcounter hclock hevicted htree hevictable hprotected
  rw [hps, hcounter, hclock, hevicted, htree, hevictable, hprotected]

end RadixNodes

namespace RadixRun

open RadixNodes

variable {s s' t t' : RadixRun} {hd : RadixCacheHandle}

/-- A lock of `hd` is not among the locks that are undone. -/
def Others (hd : RadixCacheHandle) (s : RadixRun) : Call → Prop
  | .lockHandle handle false => handle ∈ s.issued
  | .lockHandle handle true => handle ∈ s.held.erase hd
  | _ => True

instance (hd : RadixCacheHandle) (s : RadixRun) : (a : Call) → Decidable (s.Others hd a)
  | .lockHandle handle false => inferInstanceAs (Decidable (handle ∈ s.issued))
  | .lockHandle handle true => inferInstanceAs (Decidable (handle ∈ s.held.erase hd))
  | .matchPrefix _ => isTrue trivial
  | .insertPrefix _ _ => isTrue trivial
  | .evict _ => isTrue trivial

/-- The same call in two runs. -/
def nextBoth (st : RadixRun × RadixRun) (a : Call) : Option (RadixRun × RadixRun) :=
  (st.1.next a).bind fun s => (st.2.next a).map fun t => (s, t)

/-- An eviction takes the same nodes in both runs. -/
def SameVictims (st : RadixRun × RadixRun) : Call → Prop
  | .evict size =>
      Forest.evictedNodes size st.1.nodes.cache.tree.count st.1.nodes.cache.tree 0 =
        Forest.evictedNodes size st.2.nodes.cache.tree.count st.2.nodes.cache.tree 0
  | _ => True

instance (st : RadixRun × RadixRun) : (a : Call) → Decidable (SameVictims st a)
  | .evict size => inferInstanceAs (Decidable
      (Forest.evictedNodes size st.1.nodes.cache.tree.count st.1.nodes.cache.tree 0 =
        Forest.evictedNodes size st.2.nodes.cache.tree.count st.2.nodes.cache.tree 0))
  | .matchPrefix _ => isTrue trivial
  | .insertPrefix _ _ => isTrue trivial
  | .lockHandle _ _ => isTrue trivial

theorem Others.paired {a : Call} (h : s.Others hd a) : s.Paired a := by
  cases a with
  | lockHandle handle unlock =>
      cases unlock with
      | false => exact h
      | true => exact List.mem_of_mem_erase h
  | matchPrefix ids => trivial
  | insertPrefix ids slots => trivial
  | evict size => trivial

/-- The lock of `hd` stays. -/
theorem Others.held {a : Call} (h : s.Others hd a) (hmem : hd ∈ s.held) :
    hd ∈ heldAfter s.held a := by
  cases a with
  | lockHandle handle unlock =>
      cases unlock with
      | false => exact List.mem_cons_of_mem _ hmem
      | true =>
          by_cases heq : handle = hd
          · exact heq ▸ h
          · exact (List.mem_erase_of_ne (Ne.symm heq)).mpr hmem
  | matchPrefix ids => exact hmem
  | insertPrefix ids slots => exact hmem
  | evict size => exact hmem

/-- A run where `hd` is locked, and what it reads there. -/
structure Locked (hd : RadixCacheHandle) (indices : List Slot) (s : RadixRun) : Prop where
  kept : s.Kept
  held : hd ∈ s.held
  indices_eq : s.nodes.getMatchedIndices hd = indices

theorem Locked.next {indices : List Slot} {a : Call} (h : Locked hd indices s)
    (ho : s.Others hd a) (hnext : s.next a = some s') : Locked hd indices s' := by
  obtain ⟨hkept, hframes⟩ := h.kept.next ho.paired hnext
  refine ⟨hkept, ?_, ?_⟩
  · rw [RadixRun.next, Option.map_eq_some_iff] at hnext
    obtain ⟨r, -, rfl⟩ := hnext
    exact ho.held h.held
  · rw [hframes.indices (h.kept.issued hd (h.kept.held_issued hd h.held)).1]
    exact h.indices_eq

/-- Two runs that differ in one lock of `hd`. -/
structure Twin (hd : RadixCacheHandle) (s t : RadixRun) : Prop where
  kept : s.Kept
  kept' : t.Kept
  relocks : Relocks s.nodes t.nodes
  held : s.held.Perm (hd :: t.held)
  issued : s.issued = t.issued

theorem twin_lock (h : s.Kept) (hmem : hd ∈ s.issued)
    (hnext : s.next (.lockHandle hd false) = some s') : Twin hd s' s where
  kept := (h.next (a := .lockHandle hd false) hmem hnext).1
  kept' := h
  relocks := by
    cases hnext
    exact (relocks_lock s.nodes hd).symm
  held := by
    cases hnext
    exact List.Perm.refl _
  issued := by
    cases hnext
    rfl

/-- One call does the same to both, and returns the same handle. -/
theorem Twin.call {a : Call} {r r' : Reply} {c c' : RadixNodes} (h : Twin hd s t)
    (hv : SameVictims (s, t) a) (hcall : s.nodes.call a = some (r, c))
    (hcall' : t.nodes.call a = some (r', c')) : Relocks c c' ∧ handles r' = handles r := by
  cases a with
  | matchPrefix ids =>
      cases hcall
      cases hcall'
      obtain ⟨hres, hbare⟩ := h.relocks.bareEq.matchPrefix ids
      refine ⟨relocks_of_bareEq hbare h.relocks.evicted_eq, ?_⟩
      exact congrArg (fun m : MatchResult => [m.handle]) hres
  | insertPrefix ids slots =>
      rw [RadixNodes.call, Option.map_eq_some_iff] at hcall hcall'
      obtain ⟨⟨res, c1⟩, hinsert, heq⟩ := hcall
      obtain ⟨⟨res', c1'⟩, hinsert', heq'⟩ := hcall'
      cases heq
      cases heq'
      rw [RadixNodes.insertPrefix, Option.map_eq_some_iff] at hinsert hinsert'
      obtain ⟨⟨res1, cache⟩, hinsert, heq⟩ := hinsert
      obtain ⟨⟨res1', cache'⟩, hinsert', heq'⟩ := hinsert'
      cases heq
      cases heq'
      obtain ⟨hres, hbare⟩ := h.relocks.bareEq.insertPrefix hinsert hinsert'
      refine ⟨relocks_of_bareEq hbare h.relocks.evicted_eq, ?_⟩
      exact congrArg (fun m : MatchResult => [m.handle]) hres
  | lockHandle handle unlock =>
      cases unlock with
      | false =>
          cases hcall
          cases hcall'
          exact ⟨((relocks_lock s.nodes handle).symm.trans h.relocks).trans
            (relocks_lock t.nodes handle), rfl⟩
      | true =>
          rw [RadixNodes.call, Option.map_eq_some_iff] at hcall hcall'
          obtain ⟨c1, hunlock, heq⟩ := hcall
          obtain ⟨c1', hunlock', heq'⟩ := hcall'
          cases heq
          cases heq'
          exact ⟨((relocks_unlock hunlock).symm.trans h.relocks).trans
            (relocks_unlock hunlock'), rfl⟩
  | evict size =>
      rw [RadixNodes.call, Option.map_eq_some_iff] at hcall hcall'
      obtain ⟨⟨indices, c1⟩, hevict, heq⟩ := hcall
      obtain ⟨⟨indices', c1'⟩, hevict', heq'⟩ := hcall'
      cases heq
      cases heq'
      refine ⟨?_, rfl⟩
      have hpops := (h.kept.sound.evict hevict).pops
      have hpops' := (h.kept'.sound.evict hevict').pops
      rw [RadixNodes.evict, Option.map_eq_some_iff] at hevict hevict'
      obtain ⟨⟨indices1, cache⟩, hevict, heq⟩ := hevict
      obtain ⟨⟨indices1', cache'⟩, hevict', heq'⟩ := hevict'
      cases heq
      cases heq'
      dsimp only [SameVictims] at hv
      rw [← hv] at hpops'
      obtain ⟨-, -, -, hfields⟩ := RadixPrefixCache.evict_pops hevict
      obtain ⟨-, -, -, hfields'⟩ := RadixPrefixCache.evict_pops hevict'
      apply relocks_of_bareEq
      · rw [hfields, hfields']
        exact ⟨h.relocks.pageSize_eq, h.relocks.counter_eq, h.relocks.clock_eq,
          hpops.bare_eq hpops' h.relocks.bare_eq⟩
      · rw [← hv, List.map_append, List.map_append, h.relocks.evicted_eq]

theorem Twin.paired {a : Call} (h : Twin hd s t) (ho : s.Others hd a) : t.Paired a := by
  cases a with
  | lockHandle handle unlock =>
      cases unlock with
      | false =>
          rw [Others, h.issued] at ho
          exact ho
      | true =>
          have herase := h.held.erase hd
          rw [List.erase_cons_head] at herase
          exact herase.mem_iff.mp ho
  | matchPrefix ids => trivial
  | insertPrefix ids slots => trivial
  | evict size => trivial

theorem Twin.heldAfter {a : Call} (h : Twin hd s t) (ho : s.Others hd a) :
    (RadixRun.heldAfter s.held a).Perm (hd :: RadixRun.heldAfter t.held a) := by
  cases a with
  | lockHandle handle unlock =>
      cases unlock with
      | false => exact (h.held.cons handle).trans (List.Perm.swap hd handle t.held)
      | true =>
          refine (h.held.erase handle).trans ?_
          by_cases heq : hd = handle
          · subst heq
            rw [List.erase_cons_head]
            exact List.perm_cons_erase (h.paired ho)
          · rw [List.erase_cons_tail (by simpa using heq)]
            exact List.Perm.refl _
  | matchPrefix ids => exact h.held
  | insertPrefix ids slots => exact h.held
  | evict size => exact h.held

theorem Twin.next {a : Call} (h : Twin hd s t) (ho : s.Others hd a) (hv : SameVictims (s, t) a)
    (hnext : nextBoth (s, t) a = some (s', t')) : Twin hd s' t' := by
  obtain ⟨s1, hs, hnext⟩ := Option.bind_eq_some_iff.mp hnext
  obtain ⟨t1, ht, heq⟩ := Option.map_eq_some_iff.mp hnext
  cases heq
  have hkept := (h.kept.next ho.paired hs).1
  have hkept' := (h.kept'.next (h.paired ho) ht).1
  rw [RadixRun.next, Option.map_eq_some_iff] at hs ht
  obtain ⟨⟨r, c⟩, hcall, rfl⟩ := hs
  obtain ⟨⟨r', c'⟩, hcall', rfl⟩ := ht
  obtain ⟨hre, hhandles⟩ := h.call hv hcall hcall'
  exact
    { kept := hkept
      kept' := hkept'
      relocks := hre
      held := h.heldAfter ho
      issued := by
        dsimp only
        rw [hhandles, h.issued] }

/-- An unlock undoes the difference. -/
theorem Twin.unlock (h : Twin hd s t) (hnext : s.next (.lockHandle hd true) = some s') :
    s'.nodes = t.nodes := by
  have hpaired : hd ∈ s.held := h.held.mem_iff.mpr List.mem_cons_self
  have hkept := (h.kept.next (a := .lockHandle hd true) hpaired hnext).1
  rw [RadixRun.next, RadixNodes.call, Option.map_map, Option.map_eq_some_iff] at hnext
  obtain ⟨c1, hunlock, rfl⟩ := hnext
  have hre := h.relocks.symm.trans (relocks_unlock hunlock)
  have hheld := h.held.erase hd
  rw [List.erase_cons_head] at hheld
  exact h.kept'.sound.eq_of_relocks hkept.sound hre hheld.symm

theorem Kept.exists_lock (s : RadixRun) (hd : RadixCacheHandle) :
    ∃ s1, s.next (.lockHandle hd false) = some s1 ∧ s1.held = hd :: s.held ∧
      s1.issued = s.issued :=
  ⟨_, rfl, rfl, rfl⟩

theorem Kept.exists_unlock (h : s.Kept) (hmem : hd ∈ s.held) :
    ∃ s1, s.next (.lockHandle hd true) = some s1 ∧ s1.held = s.held.erase hd := by
  obtain ⟨c, hunlock, -⟩ := (h.sound.perm (List.perm_cons_erase hmem)).unlock
  refine ⟨{ nodes := c, issued := s.issued, held := s.held.erase hd, walks := s.walks }, ?_, rfl⟩
  rw [RadixRun.next, RadixNodes.call, hunlock]
  rfl

/-- From its lock to its unlock a handle reads the same slots, and after the unlock the counters
are those of the other locks, as in the run without the lock. -/
theorem locked_stable {ps : Nat} (hps : 0 < ps) {before : List Call}
    (h : (init ps).Reaches before s) (hmem : hd ∈ s.issued) :
    ∃ s1, s.next (.lockHandle hd false) = some s1 ∧ ∀ {after : List Call} {s' : RadixRun},
      Run.AllSteps next (Others hd) s1 after → Run.exec next s1 after = some s' →
        s'.nodes.getMatchedIndices hd = s1.nodes.getMatchedIndices hd ∧
        (s'.nodes.getMatchedIndices hd).length = hd.cachedLen ∧
        ∃ s2, s'.next (.lockHandle hd true) = some s2 ∧ s2.held = s'.held.erase hd ∧
          s2.nodes.Shares s2.held ∧
          ∀ t, Run.AllSteps nextBoth SameVictims (s1, s) after →
            Run.exec nextBoth (s1, s) after = some (s', t) → s2.nodes = t.nodes := by
  have hkept := h.kept (kept_init hps)
  obtain ⟨s1, hlock, hheld, hissued⟩ := Kept.exists_lock s hd
  have hkept1 := (hkept.next (a := .lockHandle hd false) hmem hlock).1
  refine ⟨s1, hlock, fun {after s'} hothers hexec => ?_⟩
  have hlocked : Locked hd (s1.nodes.getMatchedIndices hd) s' :=
    Run.invariant (Locked hd (s1.nodes.getMatchedIndices hd))
      (fun _ _ _ hl ho hn => hl.next ho hn)
      ⟨hkept1, hheld ▸ List.mem_cons_self, rfl⟩ hothers hexec
  refine ⟨hlocked.indices_eq,
    (hlocked.kept.issued hd (hlocked.kept.held_issued hd hlocked.held)).2, ?_⟩
  obtain ⟨s2, hunlock, hheld2⟩ := hlocked.kept.exists_unlock hlocked.held
  have hkept2 := (hlocked.kept.next (a := .lockHandle hd true) hlocked.held hunlock).1
  refine ⟨s2, hunlock, hheld2, hkept2.sound.shares, fun t hsame hboth => ?_⟩
  have hall : Run.AllSteps nextBoth (fun st a => st.1.Others hd a ∧ SameVictims st a) (s1, s)
      after := by
    refine Run.AllSteps.and (Run.AllSteps.comap (fun st a st' hn => ?_) hothers) hsame
    obtain ⟨s3, hs, hn⟩ := Option.bind_eq_some_iff.mp hn
    obtain ⟨t3, -, rfl⟩ := Option.map_eq_some_iff.mp hn
    exact hs
  have htwin : Twin hd s' t :=
    Run.invariant (fun st => Twin hd st.1 st.2)
      (fun _ _ _ ht hok hn => ht.next hok.1 hok.2 hn) (twin_lock hkept hmem hlock) hall hboth
  exact htwin.unlock hunlock

/-- A handle of two tokens, and calls that split its node. -/
def twoTokens : RadixCacheHandle := { cachedLen := 2, node := some 0 }

def splitBelow : List Call := [.matchPrefix [1], .insertPrefix [1, 5] [10, 50]]

theorem splitBelow_stable : ∃ s s1 s' s2 t,
    (init 1).Reaches [.insertPrefix [1, 4] [10, 40]] s ∧
    s.next (.lockHandle twoTokens false) = some s1 ∧ Run.exec next s1 splitBelow = some s' ∧
    s'.nodes.getMatchedIndices twoTokens = s1.nodes.getMatchedIndices twoTokens ∧
    s'.next (.lockHandle twoTokens true) = some s2 ∧ s2.nodes.Shares s2.held ∧
    Run.exec next s splitBelow = some t ∧ s2.nodes = t.nodes := by
  have hrun : ∃ s s1 s' t, (init 1).Reaches [.insertPrefix [1, 4] [10, 40]] s ∧
      twoTokens ∈ s.issued ∧ s.next (.lockHandle twoTokens false) = some s1 ∧
      Run.AllSteps next (Others twoTokens) s1 splitBelow ∧ Run.exec next s1 splitBelow = some s' ∧
      Run.AllSteps nextBoth SameVictims (s1, s) splitBelow ∧
      Run.exec nextBoth (s1, s) splitBelow = some (s', t) ∧ Run.exec next s splitBelow = some t := by
    let s := (Run.exec next (init 1) [.insertPrefix [1, 4] [10, 40]]).getD (init 1)
    let s1 := (s.next (.lockHandle twoTokens false)).getD s
    exact ⟨s, s1, (Run.exec next s1 splitBelow).getD s, (Run.exec next s splitBelow).getD s,
      ⟨by decide +kernel, by decide +kernel⟩, by decide +kernel, by decide +kernel,
      by decide +kernel, by decide +kernel, by decide +kernel, by decide +kernel, by decide +kernel⟩
  obtain ⟨s, s1, s', t, hs, hmem, hlock, hothers, hexec, hsame, hboth, ht⟩ := hrun
  obtain ⟨s1', hlock', hstable⟩ := locked_stable Nat.one_pos hs hmem
  rw [hlock] at hlock'
  cases hlock'
  obtain ⟨hindices, -, s2, hunlock, -, hshares, htwin⟩ := hstable hothers hexec
  exact ⟨s, s1, s', s2, t, hs, hlock, hexec, hindices, hunlock, hshares, ht, htwin t hsame hboth⟩

/-- The older of two prompts. -/
def older : RadixCacheHandle := { cachedLen := 1, node := some 0 }

def twoPrompts : List Call := [.insertPrefix [1] [10], .insertPrefix [2, 3] [20, 30]]

/-- While the older prompt is locked an eviction takes the other one. -/
theorem evict_between_lock_and_unlock : ∃ s t,
    (init 1).Reaches
      (twoPrompts ++ [.lockHandle older false, .evict 1, .lockHandle older true]) s ∧
    (init 1).Reaches (twoPrompts ++ [.evict 1]) t ∧
    s.nodes.cache.evictableSize = 1 ∧ t.nodes.cache.evictableSize = 2 :=
  ⟨(Run.exec next (init 1)
      (twoPrompts ++ [.lockHandle older false, .evict 1, .lockHandle older true])).getD (init 1),
    (Run.exec next (init 1) (twoPrompts ++ [.evict 1])).getD (init 1),
    ⟨by decide +kernel, by decide +kernel⟩, ⟨by decide +kernel, by decide +kernel⟩,
    by decide +kernel, by decide +kernel⟩

end RadixRun

end FreeToken
