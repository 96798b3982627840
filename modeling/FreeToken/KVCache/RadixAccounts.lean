import FreeToken.KVCache.RadixRuns

/-!
# Accounting and eviction

In every state a run reaches, the size counters are the summed lengths of the unlocked and the
locked nodes, up to evicted nodes that were locked late; and an eviction of no more than
`evictable_size` returns, with the unlocked leaves that were touched least recently.
-/

namespace FreeToken

namespace Forest

theorem refCount_le_refSum {held : Nat → Nat} {u : Nat} : ∀ {f : Forest} {ds : List RadixTreeNode},
    f.RefOk held → f.path u = some ds → ∀ x ∈ ds, x.refCount ≤ f.refSum
  | node d cs rest, ds, hr, h, x, hx => by
      obtain ⟨hd, hcs, hrest⟩ := hr
      rw [refSum]
      rcases path_cases h with ⟨-, rfl⟩ | ⟨-, e, hp, rfl⟩ | ⟨-, -, hp⟩
      · rw [List.mem_singleton.mp hx]
        exact Nat.le_add_right _ _
      · rcases List.mem_cons.mp hx with rfl | hx
        · exact Nat.le_add_right _ _
        · have hle := refCount_le_refSum hcs hp x hx
          omega
      · exact (refCount_le_refSum hrest hp x hx).trans (Nat.le_add_left _ _)

/-- A lock on a node is a lock on the nodes above it. -/
theorem refCount_pairwise {held : Nat → Nat} {u : Nat} : ∀ {f : Forest} {ds : List RadixTreeNode},
    f.RefOk held → f.path u = some ds → ds.Pairwise fun p x => x.refCount ≤ p.refCount
  | node d cs rest, ds, hr, h => by
      obtain ⟨hd, hcs, hrest⟩ := hr
      rcases path_cases h with ⟨-, rfl⟩ | ⟨-, e, hp, rfl⟩ | ⟨-, -, hp⟩
      · exact List.pairwise_singleton _ _
      · refine List.Pairwise.cons (fun x hx => ?_) (refCount_pairwise hcs hp)
        rw [hd]
        exact (refCount_le_refSum hcs hp x hx).trans (Nat.le_add_left _ _)
      · exact refCount_pairwise hrest hp

/-- The slots a handle reads are slots of the tree. -/
theorem mem_slots_of_valuesTo {ps : Nat} {f : Forest} (hv : f.Valid ps) {at' : Option Nat}
    {x : Slot} (hx : x ∈ f.valuesTo at') : x ∈ f.slots := by
  rw [valuesTo] at hx
  split at hx
  · exact absurd hx List.not_mem_nil
  · next ds hp =>
      obtain ⟨u, -, hpath⟩ := Option.bind_eq_some_iff.mp hp
      obtain ⟨j, hj⟩ := List.mem_iff_getElem?.mp hx
      exact List.mem_map.mpr ⟨_, mem_entries_of_path hv hpath j x hj, rfl⟩

end Forest

namespace RadixNodes

variable {c c' : RadixNodes} {held : List RadixCacheHandle}

/-- The handle's node is in the tree, or the root. -/
def InTree (c : RadixNodes) (hd : RadixCacheHandle) : Prop :=
  ∀ u, hd.node = some u → u ∈ c.cache.tree.uuids

instance (c : RadixNodes) (hd : RadixCacheHandle) : Decidable (c.InTree hd) :=
  decidable_of_iff (∀ u ∈ hd.node.toList, u ∈ c.cache.tree.uuids) (by simp [InTree])

/-- The nodes from the root's child down to the handle's node. -/
def nodesTo (c : RadixNodes) (hd : RadixCacheHandle) : List RadixTreeNode :=
  (((c.ancestors hd).2.bind fun u => c.cache.tree.path u).getD []) ++
    (c.ancestors hd).1.reverse.map fun e => e.node

theorem Apart.ancestors_of_inTree (h : c.Apart) {hd : RadixCacheHandle} (hin : c.InTree hd) :
    c.ancestors hd = ([], hd.node) := by
  unfold ancestors
  cases hnode : hd.node with
  | none => rfl
  | some u =>
      apply climb_of_notMem
      intro hmem
      obtain ⟨e, he, rfl⟩ := List.mem_map.mp hmem
      exact h.notMem e he (hin _ hnode)

/-- The evicted nodes that are held make the difference. -/
theorem Sound.lockedLength_eq_zero (h : c.Sound held) (hin : ∀ hd ∈ held, c.InTree hd) :
    lockedLength c.evicted = 0 := by
  have hnone : c.evicted.filter (fun e => decide (e.node.refCount ≠ 0)) = [] := by
    rw [List.filter_eq_nil_iff]
    intro e he
    rw [decide_eq_true_eq, not_not, h.refs e he, holders, List.countP_eq_zero]
    intro hd hmem
    rw [h.apart.ancestors_of_inTree (hin hd hmem)]
    simp
  rw [lockedLength, hnone]
  rfl

theorem Sound.inTree_evict (h : c.Sound held) {size : Nat} {indices : List Slot}
    (hevict : c.evict size = some (indices, c')) {hd : RadixCacheHandle} (hmem : hd ∈ held)
    (hin : c.InTree hd) : c'.InTree hd := by
  have he := h.evict hevict
  have hanc := he.ancestors_eq hd hmem
  rw [h.apart.ancestors_of_inTree hin] at hanc
  intro u hu
  apply he.sound.wellFormed.held (c'.landed hd) (List.mem_map.mpr ⟨hd, hmem, rfl⟩)
  rw [landed, hanc]
  exact hu

end RadixNodes

namespace RadixPrefixCache

variable {c : RadixPrefixCache} {n size : Nat} {indices : List Slot} {c' : RadixPrefixCache}

theorem exists_evict_of_shift (hle : (size : Int) ≤ c.evictableSize)
    (h : (c.shift n).evict size = some (indices, c')) : ∃ c1, c.evict size = some (indices, c1) := by
  rw [evict] at h ⊢
  have htree : (c.shift n).tree = c.tree := rfl
  rw [htree] at h
  split at h
  · next hzero =>
      rw [if_pos hzero]
      cases h
      exact ⟨_, rfl⟩
  · next hzero =>
      split at h
      · rw [if_neg hzero, if_pos hle]
        cases hloop : c.tree.evictLoop size c.tree.count 0 with
        | none =>
            rw [hloop] at h
            cases h
        | some r =>
            rw [hloop] at h
            cases h
            exact ⟨_, rfl⟩
      · cases h

end RadixPrefixCache

namespace RadixRun

open RadixNodes

variable {s s' : RadixRun}

/-- The counters, and the reference counts along every path. -/
structure Accounts (s : RadixRun) : Prop where
  evictable_eq : s.nodes.cache.evictableSize + lockedLength s.nodes.evicted =
    s.nodes.cache.tree.evictable
  protected_eq : s.nodes.cache.protectedSize =
    s.nodes.cache.tree.protectedLen + lockedLength s.nodes.evicted
  refCount_le : ∀ u ds, s.nodes.cache.tree.path u = some ds →
    ds.Pairwise fun p x => x.refCount ≤ p.refCount

/-- The counters are the sums. -/
structure Exact (s : RadixRun) : Prop where
  evictable_eq : s.nodes.cache.evictableSize = s.nodes.cache.tree.evictable
  protected_eq : s.nodes.cache.protectedSize = s.nodes.cache.tree.protectedLen

/-- A handle is locked while its node is in the tree. -/
def Timely (s : RadixRun) : Call → Prop
  | .lockHandle handle false => s.nodes.InTree handle
  | _ => True

instance (s : RadixRun) : (a : Call) → Decidable (s.Timely a)
  | .lockHandle handle false => inferInstanceAs (Decidable (s.nodes.InTree handle))
  | .lockHandle _ true => isTrue trivial
  | .matchPrefix _ => isTrue trivial
  | .insertPrefix _ _ => isTrue trivial
  | .evict _ => isTrue trivial

/-- An eviction of `size` that returned `indices` and left `c'`. -/
structure Frees (s : RadixRun) (size : Nat) (indices : List Slot) (c' : RadixNodes) : Prop where
  size_le : size ≤ indices.length
  slots_perm : s.nodes.cache.tree.slots.Perm (indices ++ c'.cache.tree.slots)
  victims : ∃ es, EvictsOldest s.walks s.nodes.cache.tree es c'.cache.tree ∧
    indices = es.flatMap (fun e => e.node.value) ∧
    ∀ hd ∈ s.held, ∀ d ∈ s.nodes.nodesTo hd, ∀ e ∈ es, e.node.uuid ≠ d.uuid
  once : s.nodes.cache.tree.slots.Nodup → indices.Nodup ∧ ∀ x ∈ indices,
    x ∉ c'.cache.tree.slots ∧
      ∀ hd ∈ s.held, x ∉ s.nodes.cache.tree.valuesTo (s.nodes.ancestors hd).2

theorem Kept.accounts (h : s.Kept) : s.Accounts where
  evictable_eq := h.sound.wellFormed.evictable_eq
  protected_eq := by
    have hprotected := h.sound.wellFormed.protected_eq
    dsimp only [RadixPrefixCache.shift] at hprotected
    omega
  refCount_le := fun _ _ hp => Forest.refCount_pairwise h.sound.wellFormed.refOk hp

theorem Kept.exact (h : s.Kept) (hin : ∀ hd ∈ s.held, s.nodes.InTree hd) : s.Exact := by
  have hzero := h.sound.lockedLength_eq_zero hin
  have haccounts := h.accounts
  constructor
  · rw [← haccounts.evictable_eq, hzero, Nat.cast_zero, Int.add_zero]
  · rw [haccounts.protected_eq, hzero, Nat.cast_zero, Int.add_zero]

/-- What was locked in the tree stays in the tree. -/
theorem Kept.inTree_next {a : Call} (h : s.Kept) (hp : s.Paired a) (ht : s.Timely a)
    (hnext : s.next a = some s') (hin : ∀ hd ∈ s.held, s.nodes.InTree hd) :
    ∀ hd ∈ s'.held, s'.nodes.InTree hd := by
  rw [RadixRun.next, Option.map_eq_some_iff] at hnext
  obtain ⟨⟨r, c'⟩, hcall, rfl⟩ := hnext
  intro hd hmem
  cases a with
  | matchPrefix ids =>
      cases hcall
      intro u hu
      exact ((h.sound.apart.shape.walked ids).keeps.span_eq u (hin hd hmem u hu)).1
  | insertPrefix ids slots =>
      rw [call, Option.map_eq_some_iff] at hcall
      obtain ⟨⟨res, c1⟩, hinsert, heq⟩ := hcall
      cases heq
      rw [RadixNodes.insertPrefix, Option.map_eq_some_iff] at hinsert
      obtain ⟨⟨res', cache⟩, hinsert, heq⟩ := hinsert
      cases heq
      intro u hu
      exact ((h.sound.apart.shape.inserting hinsert).span_eq u (hin hd hmem u hu)).1
  | lockHandle hd' unlock =>
      cases unlock with
      | false =>
          cases hcall
          intro u hu
          rw [(relocks_lock s.nodes hd').uuids_eq]
          rcases List.mem_cons.mp hmem with rfl | hmem
          · exact ht u hu
          · exact hin hd hmem u hu
      | true =>
          rw [call, Option.map_eq_some_iff] at hcall
          obtain ⟨c1, hunlock, heq⟩ := hcall
          cases heq
          intro u hu
          rw [(relocks_unlock hunlock).uuids_eq]
          exact hin hd (List.mem_of_mem_erase hmem) u hu
  | evict size =>
      rw [call, Option.map_eq_some_iff] at hcall
      obtain ⟨⟨indices, c1⟩, hevict, heq⟩ := hcall
      cases heq
      exact h.sound.inTree_evict hevict hmem (hin hd hmem)

/-- The nodes that an eviction pops are on no path of a locked handle. -/
theorem Kept.spared (h : s.Kept) {size : Nat} {indices : List Slot} {c' : RadixNodes}
    (hevict : s.nodes.evict size = some (indices, c')) :
    ∀ hd ∈ s.held, c'.cache.tree.valuesTo (s.nodes.ancestors hd).2 =
        s.nodes.cache.tree.valuesTo (s.nodes.ancestors hd).2 ∧
      ∀ d ∈ s.nodes.nodesTo hd,
        ∀ e ∈ Forest.evictedNodes size s.nodes.cache.tree.count s.nodes.cache.tree 0,
          e.node.uuid ≠ d.uuid := by
  intro hd hmem
  have he := h.sound.evict hevict
  have hshape := h.sound.apart.shape
  obtain ⟨-, hperm⟩ := he.pops.shape hshape.valid hshape.nodup
  have hdisj := (List.nodup_append'.mp (hperm.nodup_iff.mp hshape.nodup)).2.2
  have hgone : ∀ {u : Nat}, u ∈ c'.cache.tree.uuids →
      ∀ e ∈ Forest.evictedNodes size s.nodes.cache.tree.count s.nodes.cache.tree 0,
        e.node.uuid ≠ u :=
    fun hu e hmem' heq => hdisj (List.mem_map.mpr ⟨e, hmem', rfl⟩) (heq ▸ hu)
  have hland : ∀ u, (s.nodes.ancestors hd).2 = some u → c'.cache.tree.path u =
      s.nodes.cache.tree.path u := by
    intro u hu
    apply he.pops.path_eq hshape.valid hshape.nodup
    apply he.sound.wellFormed.held (c'.landed hd) (List.mem_map.mpr ⟨hd, hmem, rfl⟩)
    rw [landed, he.ancestors_eq hd hmem]
    exact hu
  have hpath : ((s.nodes.ancestors hd).2.bind fun u => c'.cache.tree.path u) =
      (s.nodes.ancestors hd).2.bind fun u => s.nodes.cache.tree.path u := by
    cases htop : (s.nodes.ancestors hd).2 with
    | none => rfl
    | some u => exact hland u htop
  constructor
  · rw [Forest.valuesTo, Forest.valuesTo, hpath]
  · intro d hd' e hmem'
    rw [nodesTo, ← hpath] at hd'
    rcases List.mem_append.mp hd' with hd' | hd'
    · cases hp : (s.nodes.ancestors hd).2.bind fun u => c'.cache.tree.path u with
      | none =>
          rw [hp] at hd'
          exact absurd hd' List.not_mem_nil
      | some ds =>
          rw [hp] at hd'
          obtain ⟨u, -, hpu⟩ := Option.bind_eq_some_iff.mp hp
          exact hgone (Forest.mem_uuids_of_mem_path hpu hd') e hmem'
    · -- what was evicted before is not in the tree any more
      obtain ⟨e', he', rfl⟩ := List.mem_map.mp hd'
      have hold := (ancestors_sublist s.nodes hd).subset (List.mem_reverse.mp he')
      intro heq
      apply h.sound.apart.notMem e' hold
      rw [← heq]
      exact hperm.mem_iff.mpr (List.mem_append_left _ (List.mem_map.mpr ⟨e, hmem', rfl⟩))

theorem Kept.evict_frees (h : s.Kept) {size : Nat}
    (hle : (size : Int) ≤ s.nodes.cache.evictableSize) :
    ∃ indices c', s.nodes.evict size = some (indices, c') ∧ s.Frees size indices c' := by
  have hshape := h.sound.apart.shape
  -- the eviction returns, as it would with the counters moved
  have hreturns : ∃ indices cache, s.nodes.cache.evict size = some (indices, cache) ∧
      s.nodes.cache.tree.slots.Perm (indices ++ cache.tree.slots) ∧ size ≤ indices.length := by
    by_cases hzero : size = 0
    · subst hzero
      exact ⟨[], s.nodes.cache, rfl, List.Perm.refl _, Nat.zero_le _⟩
    · have hle' : (size : Int) ≤
          (s.nodes.cache.shift (lockedLength s.nodes.evicted)).evictableSize := by
        dsimp only [RadixPrefixCache.shift]
        omega
      obtain ⟨indices, c1, hevict, hspec, hsize⟩ :=
        h.sound.wellFormed.evict_spec size (Nat.pos_of_ne_zero hzero) hle'
      obtain ⟨cache, hcache⟩ := RadixPrefixCache.exists_evict_of_shift hle hevict
      rw [RadixPrefixCache.evict_shift hcache] at hevict
      cases hevict
      exact ⟨indices, cache, hcache, hspec.slots_perm, hsize⟩
  obtain ⟨indices, cache, hcache, hslots, hsize⟩ := hreturns
  have hevict : s.nodes.evict size = some (indices,
      { cache := cache
        evicted := s.nodes.evicted ++
          Forest.evictedNodes size s.nodes.cache.tree.count s.nodes.cache.tree 0 }) := by
    rw [RadixNodes.evict, hcache]
    rfl
  have hspared := h.spared hevict
  have hpops := (h.sound.evict hevict).pops
  have hvalid := (hpops.shape hshape.valid hshape.nodup).1
  refine ⟨indices, _, hevict, ?_⟩
  exact
    { size_le := hsize
      slots_perm := hslots
      victims := by
        obtain ⟨-, hindices, -, -⟩ := RadixPrefixCache.evict_pops hcache
        exact ⟨_, (hpops.evictsOldest hshape.valid hshape.nodup h.stamped).1, hindices,
          fun hd hmem => (hspared hd hmem).2⟩
      once := by
        intro hn
        obtain ⟨hnodup, -, hdisj⟩ := List.nodup_append'.mp (hslots.nodup_iff.mp hn)
        refine ⟨hnodup, fun x hx => ⟨fun hmem => hdisj hx hmem, fun hd hmem hin => ?_⟩⟩
        rw [← (hspared hd hmem).1] at hin
        exact hdisj hx (Forest.mem_slots_of_valuesTo hvalid hin) }

theorem kept_exact {as : List Call} (hs : s.Kept) (hin : ∀ hd ∈ s.held, s.nodes.InTree hd)
    (h : s.Reaches as s') (ht : Run.AllSteps next Timely s as) : s'.Exact := by
  have hboth : Run.AllSteps next (fun s a => s.Paired a ∧ s.Timely a) s as :=
    Run.AllSteps.and h.1 ht
  have hinv := Run.invariant (fun s => s.Kept ∧ ∀ hd ∈ s.held, s.nodes.InTree hd)
    (fun s a s' hk hok hn => ⟨(hk.1.next hok.1 hn).1, hk.1.inTree_next hok.1 hok.2 hn hk.2⟩)
    ⟨hs, hin⟩ hboth h.2
  exact hinv.1.exact hinv.2

/-- In every state of a run the counters account for the nodes, exactly where handles are locked
in time, and an eviction within `evictable_size` returns the oldest unlocked leaves. -/
theorem radix_accounts {ps : Nat} (hps : 0 < ps) {as : List Call} (h : (init ps).Reaches as s) :
    s.Accounts ∧ (Run.AllSteps next Timely (init ps) as → s.Exact) ∧
      ∀ size : Nat, (size : Int) ≤ s.nodes.cache.evictableSize →
        ∃ indices c', s.nodes.evict size = some (indices, c') ∧ s.Frees size indices c' := by
  have hkept := h.kept (kept_init hps)
  refine ⟨hkept.accounts, fun ht => ?_, fun size hle => hkept.evict_frees hle⟩
  exact kept_exact (kept_init hps) (fun _ hd => absurd hd List.not_mem_nil) h ht

/-- Two prompts that share a page, one of them locked. -/
def sharedPage : List Call :=
  [.insertPrefix [1, 2] [7, 8], .insertPrefix [1, 3] [7, 9],
    .lockHandle { cachedLen := 2, node := some 0 } false, .matchPrefix [1, 3]]

theorem sharedPage_accounts : ∃ s, (init 1).Reaches sharedPage s ∧ s.Accounts ∧ s.Exact ∧
    ∃ indices c', s.nodes.evict 1 = some (indices, c') ∧ s.Frees 1 indices c' := by
  have hreach : ∃ s, (init 1).Reaches sharedPage s ∧ s.nodes.cache.evictableSize = 1 :=
    ⟨(Run.exec next (init 1) sharedPage).getD (init 1),
      ⟨by decide +kernel, by decide +kernel⟩, by decide +kernel⟩
  have ht : Run.AllSteps next Timely (init 1) sharedPage := by decide +kernel
  obtain ⟨s, hs, hone⟩ := hreach
  obtain ⟨haccounts, hexact, hevict⟩ := radix_accounts Nat.one_pos hs
  exact ⟨s, hs, haccounts, hexact ht, hevict 1 (by rw [hone]; rfl)⟩

/-- `root_node.ref_count`: 1 from `__init__` on, as `lock_handle` stops below the root. -/
def rootRefCount : Nat := 1

/-- A node that was evicted, then locked by the handle of its insertion. -/
def lateLock : List Call :=
  [.insertPrefix [5] [0], .evict 1, .lockHandle { cachedLen := 1, node := some 0 } false]

/-- One node, locked twice. -/
def lockedTwice : List Call :=
  [.insertPrefix [5] [0], .lockHandle { cachedLen := 1, node := some 0 } false,
    .lockHandle { cachedLen := 1, node := some 0 } false]

theorem lateLock_miscounts :
    (∃ s, (init 1).Reaches lateLock s ∧
      s.nodes.cache.evictableSize ≠ s.nodes.cache.tree.evictable ∧
      s.nodes.cache.protectedSize ≠ s.nodes.cache.tree.protectedLen) ∧
    ∃ s, (init 1).Reaches lockedTwice s ∧
      ∃ d, s.nodes.cache.tree.path 0 = some [d] ∧ rootRefCount < d.refCount := by
  refine ⟨⟨(Run.exec next (init 1) lateLock).getD (init 1), ⟨by decide +kernel, by decide +kernel⟩,
    by decide +kernel, by decide +kernel⟩, ?_⟩
  refine ⟨(Run.exec next (init 1) lockedTwice).getD (init 1),
    ⟨by decide +kernel, by decide +kernel⟩, ?_⟩
  exact ⟨{ uuid := 0, key := [5], value := [0], refCount := 2, timestamp := 1 }, by decide +kernel,
    by decide⟩

end RadixRun

end FreeToken
