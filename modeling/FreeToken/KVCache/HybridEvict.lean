import FreeToken.KVCache.HybridSpec

/-!
# Dual eviction

`evict_full` takes unlocked leaves with what they own; `evict_mamba` takes snapshots, with the KV
of a leaf, which may not go on without one. Both leave a snapshot at every leaf, since a leaf that
loses its last child goes too unless it has one. `Freed` says what came free on either side, and
what the locks kept.
-/

namespace PrefixMap

theorem Evicts.trans {α β : Type} [DecidableEq α] {m m' m'' : PrefixMap α β} {xs ys : List β}
    (h : m.Evicts xs m') (h' : m'.Evicts ys m'') : m.Evicts (xs ++ ys) m'' := by
  induction h with
  | done m => exact h'
  | leaf hs hk hend rest ih =>
      rw [List.append_assoc]
      exact Evicts.leaf hs hk hend (ih h')

end PrefixMap

namespace FreeToken

/-- A snapshot with the prefix it is the state of. -/
def Mark.snapshot (x : Mark) : Option (List Token × Slot) :=
  x.mambaValue.map fun slot => (x.boundary, slot)

namespace Forest

variable {f f' : Forest} {ps : Nat} {m : PrefixMap Token Slot}

def snapshots (f : Forest) : List (List Token × Slot) := f.marks.filterMap Mark.snapshot

theorem snapshots_of_cons {x : Mark} {others : List Mark} (h : f.marks.Perm (x :: others)) :
    f.snapshots.Perm (x.snapshot.toList ++ others.filterMap Mark.snapshot) := by
  have hperm := h.filterMap Mark.snapshot
  cases hx : x.snapshot with
  | none => rwa [List.filterMap_cons_none hx] at hperm
  | some y => rwa [List.filterMap_cons_some hx] at hperm

theorem Represents.of_plain (h : f.Represents ps m) (hplain : f'.plain = f.plain) :
    f'.Represents ps m := by
  intro q s
  rw [h q s]
  refine and_congr_right fun _ => and_congr_right fun _ => ?_
  have hspan : ∀ u, f'.span u = f.span u := fun u => by rw [← span_plain f', hplain, span_plain]
  simp only [Stored, hspan]

theorem remove_modify {u : Nat} {g : RadixTreeNode → RadixTreeNode} (hg : OnSnapshot g) :
    ∀ f : Forest, remove u (modify u g f) = remove u f
  | nil => rfl
  | node d cs rest => by
      rw [modify]
      split
      · next hd => simp [remove, hg.uuid_eq, hd]
      · next hd => simp [remove, hd, remove_modify hg cs, remove_modify hg rest]

theorem refCount_tip {held : Nat → Nat} : ∀ {f : Forest} {x : RadixTreeNode}, f.RefOk held →
    x ∈ f.tips → x.refCount = held x.uuid
  | node d cs rest, x, hr, hx => by
      rw [tips, List.mem_append] at hx
      rcases hx with hx | hx
      · split at hx
        · next hnil =>
            obtain rfl := List.mem_singleton.mp hx
            have hsum := hr.1
            rw [hnil] at hsum
            exact hsum
        · exact refCount_tip hr.2.1 hx
      · exact refCount_tip hr.2.2 hx

/-- The node at the end of a path is the tip of its name. -/
theorem eq_of_tip {u : Nat} {a : List RadixTreeNode} {d x : RadixTreeNode} (hn : f.uuids.Nodup)
    (ha : f.path u = some (a ++ [d])) (hx : x ∈ f.tips) (hu : x.uuid = u) : x = d := by
  obtain ⟨b, hb⟩ := path_tip hx hn
  rw [hu, ha, Option.some.injEq] at hb
  exact (List.singleton_inj.mp (List.append_inj' hb rfl).2).symm

end Forest

namespace RadixPrefixCache

variable {c : RadixPrefixCache} {hs : List RadixCacheHandle}

/-- Taking off unlocked leaves keeps the invariant of the KV side. -/
theorem WellFormed.pruned (hw : c.WellFormed hs) {tree : Forest} {indices : List Slot}
    (h : Pruned c.pageSize c.tree tree indices) :
    { c with tree := tree, evictableSize := c.evictableSize - indices.length }.WellFormed hs where
  pageSize_pos := hw.pageSize_pos
  valid := h.valid
  nodup := h.uuids_sub.nodup hw.nodup
  fresh := fun u hu => hw.fresh u (h.uuids_sub.subset hu)
  refOk := h.refOk _ hw.refOk
  held := fun x hx u hu =>
    (h.span_eq _ hw.refOk u (hw.held x hx u hu) (holdersAt_ne_zero hx hu)).1
  evictable_eq := by
    have := h.evictable_eq
    have := hw.evictable_eq
    dsimp only
    omega
  protected_eq := hw.protected_eq.trans (congrArg _ h.protectedLen_eq.symm)

end RadixPrefixCache

namespace HybridRadixCache

variable {c c' c'' : HybridRadixCache} {hs : List RadixCacheHandle} {but : Option Nat}

/-! ### What came free -/

/-- From `c` to `c'` these indices and snapshots came free, none of them locked. -/
structure Freed (c c' : HybridRadixCache) (kv mamba : List Slot) : Prop where
  pageSize_eq : c'.kv.pageSize = c.kv.pageSize
  pruned : Pruned c.kv.pageSize c.tree c'.tree kv
  evicts : ∀ m, c.tree.Represents c.kv.pageSize m →
    ∃ m', m.Evicts kv m' ∧ c'.tree.Represents c.kv.pageSize m'
  snapshots : ∃ gone, c.tree.snapshots.Perm (gone ++ c'.tree.snapshots) ∧ gone.map Prod.snd = mamba
  mambaEvictable_eq : c'.mambaEvictable + mamba.length = c.mambaEvictable
  kept : ∀ x ∈ c.tree.marks, x.mambaRefCount ≠ 0 → x ∈ c'.tree.marks
  free_sub : ∀ x ∈ c'.tree.marks, x.free → x ∈ c.tree.marks

theorem SoundBut.freed_refl (h : c.SoundBut hs but) : Freed c c [] [] where
  pageSize_eq := rfl
  pruned := Pruned.refl h.kv.valid
  evicts := fun m hm => ⟨m, PrefixMap.Evicts.done m, hm⟩
  snapshots := ⟨[], List.Perm.refl _, rfl⟩
  mambaEvictable_eq := by simp
  kept := fun _ hx _ => hx
  free_sub := fun _ hx _ => hx

theorem Freed.trans {kv kv' mamba mamba' : List Slot} (h : Freed c c' kv mamba)
    (h' : Freed c' c'' kv' mamba') : Freed c c'' (kv ++ kv') (mamba ++ mamba') where
  pageSize_eq := h'.pageSize_eq.trans h.pageSize_eq
  pruned := h.pruned.trans (h.pageSize_eq ▸ h'.pruned)
  evicts := by
    intro m hm
    obtain ⟨m1, hevicts1, hm1⟩ := h.evicts m hm
    obtain ⟨m2, hevicts2, hm2⟩ := h'.evicts m1 (h.pageSize_eq.symm ▸ hm1)
    exact ⟨m2, hevicts1.trans hevicts2, h.pageSize_eq ▸ hm2⟩
  snapshots := by
    obtain ⟨gone, hperm, hmap⟩ := h.snapshots
    obtain ⟨gone', hperm', hmap'⟩ := h'.snapshots
    refine ⟨gone ++ gone', ?_, by rw [List.map_append, hmap, hmap']⟩
    rw [List.append_assoc]
    exact hperm.trans (hperm'.append_left gone)
  mambaEvictable_eq := by
    have h1 := h.mambaEvictable_eq
    have h2 := h'.mambaEvictable_eq
    rw [List.length_append]
    push_cast
    omega
  kept := fun x hx hne => h'.kept x (h.kept x hx hne) hne
  free_sub := fun x hx hfree => h.free_sub x (h'.free_sub x hx hfree) hfree

namespace Evicting

variable {s : Evicting} {node : RadixTreeNode} {a : List RadixTreeNode}

/-! ### One leaf -/

/-- A leaf goes, with what it owns. -/
def evictLeaf (s : Evicting) (node : RadixTreeNode) : Evicting :=
  ((s.takeKv node).freeNodeMamba node).unlink node

/-- The cache without the leaf. -/
theorem cache_evictLeaf : (s.evictLeaf node).cache =
    { kv := { s.cache.kv with
        tree := s.cache.tree.remove node.uuid
        evictableSize := s.cache.kv.evictableSize - node.key.length }
      mambaEvictable := s.cache.mambaEvictable -
        if node.mambaValue.isSome ∧ node.mambaRefCount = 0 then 1 else 0
      mambaProtected := s.cache.mambaProtected } := by
  rcases hvalue : node.mambaValue with _ | slot
  · simp [evictLeaf, freeNodeMamba, hvalue, takeKv, unlink, withTree, tree]
  · by_cases hcount : node.mambaRefCount = 0 <;>
      simp [evictLeaf, freeNodeMamba, hvalue, takeKv, unlink, withTree, tree, hcount,
        Forest.remove_modify (onSnapshot_set none)]

theorem outputs_evictLeaf (s : Evicting) (node : RadixTreeNode) :
    (s.evictLeaf node).kv = s.kv ++ node.value ∧
    (s.evictLeaf node).mamba = s.mamba ++ node.mambaValue.toList ∧
    (s.evictLeaf node).heap = s.heap ∧ (s.evictLeaf node).freed = s.freed := by
  rcases hvalue : node.mambaValue with _ | slot <;>
    simp [evictLeaf, freeNodeMamba, hvalue, takeKv, unlink]

/-- Taking off an unlocked leaf. -/
structure LeafGone (s s' : Evicting) (hs : List RadixCacheHandle) (node : RadixTreeNode)
    (parent : Option RadixTreeNode) : Prop where
  sound : s'.cache.SoundBut hs (parent.map fun p => p.uuid)
  freed : Freed s.cache s'.cache node.value node.mambaValue.toList
  length_eq : node.value.length = node.key.length
  gone : node.uuid ∉ s'.cache.tree.uuids
  count_eq : s'.cache.tree.count + 1 = s.cache.tree.count
  path_eq : ∀ v, v ≠ node.uuid → s'.cache.tree.path v = s.cache.tree.path v
  tips : ∀ y ∈ s'.cache.tree.tips, y ∈ s.cache.tree.tips ∧ y.uuid ≠ node.uuid ∨ parent = some y

theorem evictLeaf_spec (h : s.cache.SoundBut hs (some node.uuid))
    (ha : s.cache.tree.path node.uuid = some (a ++ [node])) (htip : node ∈ s.cache.tree.tips)
    (hfree : node.refCount = 0) : LeafGone s (s.evictLeaf node) hs node a.getLast? := by
  have hn := h.kv.nodup
  obtain ⟨hpruned, hlen, hcount⟩ :=
    Forest.pruned_remove (Forest.mem_leaves_of_tips htip hfree) h.kv.valid hn
  have hmarks := Forest.marks_remove htip hn ha
  have hzero : node.mambaRefCount = 0 := Nat.le_zero.mp (hfree ▸ h.mambaRefCount_le ha)
  obtain ⟨-, hrest⟩ := Tally.cons_iff.mp (h.tally.perm hmarks.symm)
  have hnode := (Forest.uuids_remove htip hn).nodup_iff.mp hn
  have htips : ∀ y ∈ (s.cache.tree.remove node.uuid).tips,
      y ∈ s.cache.tree.tips ∧ y.uuid ≠ node.uuid ∨ a.getLast? = some y := by
    intro y hy
    rcases Forest.tips_remove htip hn hy with hmem | ⟨b, hb⟩
    · have hleft := Forest.mem_uuids_of_tips hy
      refine Or.inl ⟨hmem, fun heq => (List.nodup_cons.mp hnode).1 ?_⟩
      rw [heq] at hleft
      exact hleft
    · rw [ha, Option.some.injEq, List.append_cons b y [node]] at hb
      rw [(List.append_inj' hb rfl).1]
      exact Or.inr List.getLast?_concat
  have hkv := h.kv.pruned hpruned
  rw [← hlen] at hkv
  refine ⟨?_, ?_, hlen.symm, by rw [cache_evictLeaf]; exact (List.nodup_cons.mp hnode).1,
    by rw [cache_evictLeaf]; exact hcount, ?_, ?_⟩
  · rw [cache_evictLeaf]
    refine ⟨hkv, ?_, fun y hy => ?_⟩
    · refine hrest.congr ?_ ?_ <;>
        simp [Mark.free, Mark.locked, RadixTreeNode.mark, hzero]
    · rcases htips y hy with ⟨hmem, hne⟩ | hparent
      · exact Or.inl ((h.tips y hmem).resolve_right fun heq => hne (Option.some.inj heq))
      · exact Or.inr (by rw [hparent]; rfl)
  · rw [cache_evictLeaf]
    refine ⟨rfl, hpruned, fun m hm => ?_, ⟨node.mambaValue.toList.map fun slot =>
      ((node.mark a).boundary, slot), ?_, ?_⟩, ?_, ?_, ?_⟩
    · obtain ⟨xs, t, k, hs, hk, hdrop, hend, hcut⟩ := hm.remove h.kv.valid hn htip
      refine ⟨m.cut xs k, ?_, hcut⟩
      have hdone := PrefixMap.Evicts.leaf hs hk hend (PrefixMap.Evicts.done _)
      rwa [List.append_nil, hdrop] at hdone
    · refine (Forest.snapshots_of_cons hmarks).trans (List.Perm.of_eq ?_)
      rcases hvalue : node.mambaValue with _ | slot <;>
        simp [Mark.snapshot, RadixTreeNode.mark, hvalue, Forest.snapshots, tree]
    · simp
    · rcases hvalue : node.mambaValue with _ | slot <;> simp [hzero]
    · intro x hx hne
      rcases List.mem_cons.mp (hmarks.mem_iff.mp hx) with rfl | hx
      · exact absurd hzero hne
      · exact hx
    · exact fun x hx _ => hmarks.mem_iff.mpr (List.mem_cons_of_mem _ hx)
  · intro v hv
    rw [cache_evictLeaf]
    exact Forest.path_remove htip hn hv
  · rw [cache_evictLeaf]
    exact htips

/-! ### The cascade -/

/-- What a cascade left, from the leaf's parent `below` up to the survivor `parent`. -/
structure Cascaded (s s' : Evicting) (hs : List RadixCacheHandle) (below : Option Nat)
    (parent : Option RadixTreeNode) (freed : Nat) : Prop where
  sound : s'.cache.Sound hs
  freed : ∃ kv, Freed s.cache s'.cache kv [] ∧ s'.kv = s.kv ++ kv ∧ kv.length = freed
  mamba_eq : s'.mamba = s.mamba
  heap_eq : s'.heap = s.heap
  freed_eq : s'.freed = s.freed
  count_le : s'.cache.tree.count ≤ s.cache.tree.count
  tips : ∀ y ∈ s'.cache.tree.tips,
    y ∈ s.cache.tree.tips ∧ some y.uuid ≠ below ∨ parent = some y

theorem cascade_spec : ∀ {up : List RadixTreeNode} {s : Evicting},
    s.cache.SoundBut hs (up.head?.map fun p => p.uuid) →
    (∀ p above, up = p :: above → s.cache.tree.path p.uuid = some (above.reverse ++ [p])) →
    Cascaded s (s.cascadeTombstoneLeaves up).2 hs (up.head?.map fun p => p.uuid)
      (s.cascadeTombstoneLeaves up).1.1 (s.cascadeTombstoneLeaves up).1.2
  | [], s, h, _ =>
      ⟨h, ⟨[], h.freed_refl, (List.append_nil _).symm, rfl⟩, rfl, rfl, rfl, le_rfl,
        fun y hy => Or.inl ⟨hy, by simp⟩⟩
  | p :: above, s, h, hpath => by
      have hp := hpath p above rfl
      rw [cascadeTombstoneLeaves]
      split
      · next hgoes =>
          obtain ⟨hnone, hleaf, hfree⟩ := hgoes
          obtain ⟨x, hx, hxu⟩ := Forest.isLeaf_iff.mp hleaf
          obtain rfl := Forest.eq_of_tip h.kv.nodup hp hx hxu
          have hgone := evictLeaf_spec h hp hx hfree
          rw [List.getLast?_reverse] at hgone
          have hsame : (s.takeKv x).unlink x = s.evictLeaf x := by
            rw [evictLeaf, freeNodeMamba, hnone]
          rw [hsame]
          have hup : ∀ q above', above = q :: above' →
              (s.evictLeaf x).cache.tree.path q.uuid = some (above'.reverse ++ [q]) := by
            rintro q above' rfl
            have hfull : s.cache.tree.path x.uuid = some (above'.reverse ++ q :: [x]) := by
              simpa using hp
            have hq := Forest.path_of_mem_path h.kv.nodup hfull
            rw [hgone.path_eq q.uuid, hq]
            intro heq
            rw [heq, hfull, Option.some.injEq] at hq
            simpa using congrArg List.length hq
          have hrest := cascade_spec hgone.sound hup
          obtain ⟨hkv, hmamba, hheap, hfreed⟩ := outputs_evictLeaf s x
          rw [hnone, Option.toList_none, List.append_nil] at hmamba
          obtain ⟨kv, hkvfreed, hkveq, hkvlen⟩ := hrest.freed
          refine ⟨hrest.sound, ⟨x.value ++ kv, ?_, ?_, ?_⟩, hrest.mamba_eq.trans hmamba,
            hrest.heap_eq.trans hheap, hrest.freed_eq.trans hfreed, ?_, ?_⟩
          · have hfirst := hgone.freed
            rw [hnone, Option.toList_none] at hfirst
            exact hfirst.trans hkvfreed
          · rw [hkveq, hkv, List.append_assoc]
          · rw [List.length_append, hgone.length_eq, hkvlen]
          · have hone := hgone.count_eq
            exact hrest.count_le.trans (by omega)
          · intro y hy
            rcases hrest.tips y hy with ⟨hmem, hne⟩ | hparent
            · rcases hgone.tips y hmem with ⟨hold, hneq⟩ | habove
              · exact Or.inl ⟨hold, fun heq => hneq (Option.some.inj heq)⟩
              · rw [habove] at hne
                exact absurd rfl hne
            · exact Or.inr hparent
      · next hstays =>
          -- a leaf that stays without a snapshot would be locked, and its snapshot with it
          refine ⟨⟨h.kv, h.tally, fun y hy => Or.inl ?_⟩,
            ⟨[], h.freed_refl, (List.append_nil _).symm, rfl⟩, rfl, rfl, rfl, le_rfl, ?_⟩
          · rcases h.tips y hy with hsome | hbut
            · exact hsome
            · obtain rfl := Forest.eq_of_tip h.kv.nodup hp hy (Option.some.inj hbut)
              by_contra hnone
              rw [Option.not_isSome_iff_eq_none] at hnone
              have hlocked : y.refCount ≠ 0 := fun hfree =>
                hstays ⟨hnone, Forest.isLeaf_iff.mpr ⟨y, hy, rfl⟩, hfree⟩
              rw [Forest.refCount_tip h.kv.refOk hy, ← h.mambaRefCount_eq hp] at hlocked
              have hlive := h.tally.live _ (Forest.mem_marks_of_path hp) hlocked
              simp [RadixTreeNode.mark, hnone] at hlive
          · intro y hy
            by_cases hyp : y.uuid = p.uuid
            · exact Or.inr (congrArg some (Forest.eq_of_tip h.kv.nodup hp hy hyp).symm)
            · exact Or.inl ⟨hy, fun heq => hyp (Option.some.inj heq)⟩

/-! ### The loops -/

/-- What both loops keep: what came free since `c` is what they have collected. -/
structure Under (s : Evicting) (c : HybridRadixCache) (hs : List RadixCacheHandle) : Prop where
  sound : s.cache.Sound hs
  freed : Freed c s.cache s.kv s.mamba

theorem getD_path_reverse {f : Forest} {u : Nat} {up : List RadixTreeNode}
    (h : ((f.path u).getD []).reverse = node :: up) : f.path u = some (up.reverse ++ [node]) := by
  rcases hpath : f.path u with _ | ds
  · simp [hpath] at h
  · rw [hpath, Option.getD_some] at h
    rw [← List.reverse_reverse ds, h, List.reverse_cons]

/-- A leaf on its way, and the tombstones above it. -/
theorem evictLeaf_cascade {up : List RadixTreeNode} (h : s.cache.Sound hs)
    (hpath : s.cache.tree.path node.uuid = some (up.reverse ++ [node]))
    (htip : node ∈ s.cache.tree.tips) (hfree : node.refCount = 0) :
    LeafGone s (s.evictLeaf node) hs node up.head? ∧
      Cascaded (s.evictLeaf node) ((s.evictLeaf node).cascadeTombstoneLeaves up).2 hs
        (up.head?.map fun p => p.uuid) ((s.evictLeaf node).cascadeTombstoneLeaves up).1.1
        ((s.evictLeaf node).cascadeTombstoneLeaves up).1.2 := by
  have hgone := evictLeaf_spec ⟨h.kv, h.tally, fun y hy => Or.inl (h.tip hy)⟩ hpath htip hfree
  rw [List.getLast?_reverse] at hgone
  refine ⟨hgone, cascade_spec hgone.sound ?_⟩
  rintro p above rfl
  have hfull : s.cache.tree.path node.uuid = some (above.reverse ++ p :: [node]) := by
    simpa using hpath
  have hp := Forest.path_of_mem_path h.kv.nodup hfull
  rw [hgone.path_eq p.uuid, hp]
  intro heq
  rw [heq, hfull, Option.some.injEq] at hp
  simpa using congrArg List.length hp

/-- The loop of `evict_full`: the heap has all unlocked leaves. -/
structure Full (s : Evicting) (c : HybridRadixCache) (hs : List RadixCacheHandle) : Prop
    extends Under s c hs where
  freed_eq : s.freed = s.kv.length
  heap : ∀ y ∈ s.cache.tree.tips, y.refCount = 0 → ∃ p ∈ s.heap, p.uuid = y.uuid

/-- A parent that is now an unlocked leaf joins the heap. -/
def pushParent (s : Evicting) : Option RadixTreeNode → Evicting
  | none => s
  | some parent =>
      if s.cache.tree.isLeaf parent.uuid ∧ parent.refCount = 0 then
        { s with heap := Heapq.heappush RadixTreeNode.lt s.heap parent }
      else s

theorem fullStep_evict {popped : RadixTreeNode} {up : List RadixTreeNode}
    (hrev : ((s.cache.tree.path popped.uuid).getD []).reverse = node :: up)
    (hgo : ¬ (node.refCount ≠ 0 ∨ ¬ s.cache.tree.isLeaf node.uuid)) :
    s.fullStep popped =
      let r := ({ s with freed := s.freed + node.key.length }.evictLeaf node).cascadeTombstoneLeaves up
      pushParent { r.2 with freed := r.2.freed + r.1.2 } r.1.1 := by
  rw [fullStep, hrev]
  simp only [hgo, if_false]
  rfl

theorem pushParent_spec (s : Evicting) (parent : Option RadixTreeNode) :
    (s.pushParent parent).cache = s.cache ∧ (s.pushParent parent).kv = s.kv ∧
      (s.pushParent parent).mamba = s.mamba ∧ (s.pushParent parent).freed = s.freed ∧
      (s.pushParent parent).heap.length ≤ s.heap.length + 1 ∧
      (∀ p ∈ s.heap, p ∈ (s.pushParent parent).heap) ∧
      ∀ y ∈ s.cache.tree.tips, y.refCount = 0 → parent = some y → y ∈ (s.pushParent parent).heap := by
  rcases parent with _ | parent
  · exact ⟨rfl, rfl, rfl, rfl, Nat.le_succ _, fun _ hp => hp, fun _ _ _ h => by cases h⟩
  · rw [pushParent]
    split
    · have hperm := Heapq.heappush_perm RadixTreeNode.lt s.heap parent
      refine ⟨rfl, rfl, rfl, rfl, hperm.length_eq.le,
        fun p hp => hperm.mem_iff.mpr (List.mem_cons_of_mem _ hp), ?_⟩
      rintro _ - - ⟨⟩
      exact hperm.mem_iff.mpr List.mem_cons_self
    · next hnot =>
        refine ⟨rfl, rfl, rfl, rfl, Nat.le_succ _, fun _ hp => hp, ?_⟩
        rintro _ hy hfree ⟨⟩
        exact absurd ⟨Forest.isLeaf_iff.mpr ⟨_, hy, rfl⟩, hfree⟩ hnot

theorem Full.step {popped : RadixTreeNode} {heap : List RadixTreeNode} (h : s.Full c hs)
    (hpop : s.heap.Perm (popped :: heap)) :
    (fullStep { s with heap := heap } popped).Full c hs ∧
      (fullStep { s with heap := heap } popped).heap.length +
        (fullStep { s with heap := heap } popped).cache.tree.count <
      s.heap.length + s.cache.tree.count := by
  have hlen : s.heap.length = heap.length + 1 := hpop.length_eq
  have hskip : (∀ y ∈ s.cache.tree.tips, y.refCount = 0 → y.uuid ≠ popped.uuid) →
      Full { s with heap := heap } c hs ∧
        heap.length + s.cache.tree.count < s.heap.length + s.cache.tree.count := by
    intro hnot
    refine ⟨⟨⟨h.sound, h.freed⟩, h.freed_eq, fun y hy hfree => ?_⟩, by omega⟩
    obtain ⟨p, hp, hpu⟩ := h.heap y hy hfree
    rcases List.mem_cons.mp (hpop.mem_iff.mp hp) with rfl | hp
    · exact absurd hpu.symm (hnot y hy hfree)
    · exact ⟨p, hp, hpu⟩
  rcases hrev : ((s.cache.tree.path popped.uuid).getD []).reverse with _ | ⟨node, up⟩
  · rw [fullStep, hrev]
    refine hskip fun y hy _ heq => ?_
    obtain ⟨b, hb⟩ := Forest.path_tip hy h.sound.kv.nodup
    rw [heq] at hb
    simp [hb] at hrev
  have hpath := getD_path_reverse hrev
  have huuid : node.uuid = popped.uuid := Forest.path_last hpath
  by_cases hgo : node.refCount ≠ 0 ∨ ¬ s.cache.tree.isLeaf node.uuid
  · simp only [fullStep, hrev, if_pos hgo]
    refine hskip fun y hy hfree heq => ?_
    obtain rfl := Forest.eq_of_tip h.sound.kv.nodup hpath hy heq
    rcases hgo with hne | hinner
    · exact hne hfree
    · exact hinner (Forest.isLeaf_iff.mpr ⟨y, hy, rfl⟩)
  · rw [fullStep_evict (s := { s with heap := heap }) hrev hgo]
    obtain ⟨hfree, hleaf⟩ := not_or.mp hgo
    obtain ⟨x, hx, hxu⟩ := Forest.isLeaf_iff.mp (not_not.mp hleaf)
    rw [← huuid] at hpath
    obtain rfl := Forest.eq_of_tip h.sound.kv.nodup hpath hx hxu
    obtain ⟨hgone, hcas⟩ := evictLeaf_cascade
      (s := { s with heap := heap, freed := s.freed + x.key.length }) h.sound hpath hx
      (not_not.mp hfree)
    obtain ⟨hkv, hmamba, hheap, hfreed⟩ := outputs_evictLeaf
      { s with heap := heap, freed := s.freed + x.key.length } x
    generalize ({ s with heap := heap, freed := s.freed + x.key.length }.evictLeaf
      x).cascadeTombstoneLeaves up = r at hcas ⊢
    obtain ⟨kv, hcasfreed, hkveq, hkvlen⟩ := hcas.freed
    obtain ⟨hcache', hkv', hmamba', hfreed', hheap', hkeeps, hpushes⟩ :=
      pushParent_spec { r.2 with freed := r.2.freed + r.1.2 } r.1.1
    have hallkv : r.2.kv = s.kv ++ (x.value ++ kv) := by rw [hkveq, hkv, List.append_assoc]
    have hallmamba : r.2.mamba = s.mamba ++ x.mambaValue.toList := hcas.mamba_eq.trans hmamba
    have hallfreed : r.2.freed = s.freed + x.key.length := hcas.freed_eq.trans hfreed
    have hallheap : r.2.heap = heap := hcas.heap_eq.trans hheap
    refine ⟨⟨⟨?_, ?_⟩, ?_, ?_⟩, ?_⟩
    · rw [hcache']
      exact hcas.sound
    · rw [hcache', hkv', hmamba', hallkv, hallmamba]
      have hall := h.freed.trans (hgone.freed.trans hcasfreed)
      rwa [List.append_nil] at hall
    · rw [hfreed', hkv']
      simp only [hallkv, hallfreed, h.freed_eq, List.length_append, hkvlen, hgone.length_eq,
        Nat.add_assoc]
    · intro y hy hyfree
      rw [hcache'] at hy
      rcases hcas.tips y hy with ⟨hmem, hne⟩ | hparent
      · rcases hgone.tips y hmem with ⟨hold, hneq⟩ | habove
        · obtain ⟨p, hp, hpu⟩ := h.heap y hold hyfree
          rcases List.mem_cons.mp (hpop.mem_iff.mp hp) with rfl | hp
          · exact absurd (hpu.symm.trans huuid.symm) hneq
          · exact ⟨p, hkeeps p (hallheap.symm ▸ hp), hpu⟩
        · rw [habove] at hne
          exact absurd rfl hne
      · exact ⟨y, hpushes y hy hyfree hparent, rfl⟩
    · have hone : (({ s with heap := heap, freed := s.freed + x.key.length } :
          Evicting).evictLeaf x).cache.tree.count + 1 = s.cache.tree.count := hgone.count_eq
      have hmore := hcas.count_le
      have hheap'' : (pushParent { r.2 with freed := r.2.freed + r.1.2 } r.1.1).heap.length ≤
          heap.length + 1 := hallheap ▸ hheap'
      rw [hcache']
      exact lt_of_le_of_lt (Nat.add_le_add_right hheap'' _) (by dsimp only; omega)

/-- The loop of `evict_mamba`: the heap has all unlocked snapshots. -/
structure Mamba (s : Evicting) (c : HybridRadixCache) (hs : List RadixCacheHandle) : Prop
    extends Under s c hs where
  freed_eq : s.freed = s.mamba.length
  heap : ∀ x ∈ s.cache.tree.marks, x.free → ∃ p ∈ s.heap, p.uuid = x.uuid

/-- A snapshot that is not a leaf's goes alone. -/
theorem freeNodeMamba_spec {slot : Slot} (h : s.cache.Sound hs)
    (ha : s.cache.tree.path node.uuid = some (a ++ [node])) (hvalue : node.mambaValue = some slot)
    (hcount : node.mambaRefCount = 0) (hinner : ∀ y ∈ s.cache.tree.tips, y.uuid ≠ node.uuid) :
    (s.freeNodeMamba node).cache.Sound hs ∧
      Freed s.cache (s.freeNodeMamba node).cache [] [slot] ∧
      ∀ x ∈ (s.freeNodeMamba node).cache.tree.marks, x.free → x.uuid ≠ node.uuid := by
  have hg := onSnapshot_set none
  have hplain := Forest.plain_modify (u := node.uuid) hg s.cache.tree
  obtain ⟨others, hbefore, hafter⟩ := Forest.marks_modify hg h.kv.nodup ha
  obtain ⟨⟨hlocks, -⟩, hrest⟩ := Tally.cons_iff.mp (h.tally.perm hbefore.symm)
  have hnodup := (hbefore.map Mark.uuid).nodup_iff.mp (Forest.uuids_eq_marks s.cache.tree ▸ h.kv.nodup)
  have hcache : (s.freeNodeMamba node).cache =
      { s.cache.withTree (s.cache.tree.modify node.uuid fun d => { d with mambaValue := none }) with
        mambaEvictable := s.cache.mambaEvictable - 1 } := by
    simp [freeNodeMamba, hvalue, hcount]
  have htally : Tally (s.cache.tree.modify node.uuid fun d => { d with mambaValue := none }).marks hs
      (s.cache.mambaEvictable - 1) s.cache.mambaProtected := by
    refine Tally.perm ?_ hafter
    refine Tally.cons_iff.mpr ⟨⟨hlocks, fun hne => absurd hcount hne⟩, ?_⟩
    simpa [RadixTreeNode.mark, Mark.free, Mark.locked, hvalue, hcount] using hrest
  rw [hcache]
  refine ⟨⟨h.kv.of_plain hplain, htally, ?_⟩, ?_, ?_⟩
  · intro y hy
    obtain ⟨x, hx, ⟨-, rfl⟩ | ⟨hu, -⟩⟩ := Forest.tips_modify h.kv.nodup hy
    · exact h.tips y hx
    · exact absurd hu (hinner x hx)
  · refine ⟨rfl, Forest.pruned_of_plain hplain h.kv.valid,
      fun m hm => ⟨m, PrefixMap.Evicts.done m, hm.of_plain hplain⟩,
      ⟨[((node.mark a).boundary, slot)], ?_, rfl⟩, ?_, ?_, ?_⟩
    · refine (Forest.snapshots_of_cons hbefore).trans ?_
      refine List.Perm.trans ?_ ((Forest.snapshots_of_cons hafter).symm.append_left _)
      simp [Mark.snapshot, RadixTreeNode.mark, hvalue]
    · simp
    · intro x hx hne
      rcases List.mem_cons.mp (hbefore.mem_iff.mp hx) with rfl | hx
      · exact absurd hcount hne
      · exact hafter.mem_iff.mpr (List.mem_cons_of_mem _ hx)
    · intro x hx hfree
      rcases List.mem_cons.mp (hafter.mem_iff.mp hx) with rfl | hx
      · simp [Mark.free, RadixTreeNode.mark] at hfree
      · exact hbefore.mem_iff.mpr (List.mem_cons_of_mem _ hx)
  · intro x hx hfree heq
    rcases List.mem_cons.mp (hafter.mem_iff.mp hx) with rfl | hx
    · simp [Mark.free, RadixTreeNode.mark] at hfree
    · exact (List.nodup_cons.mp hnodup).1 (List.mem_map.mpr ⟨x, hx, heq⟩)

theorem mambaStep_leaf {popped : RadixTreeNode} {up : List RadixTreeNode} {slot : Slot}
    (hrev : ((s.cache.tree.path popped.uuid).getD []).reverse = node :: up)
    (hvalue : node.mambaValue = some slot) (hcount : node.mambaRefCount = 0)
    (hleaf : s.cache.tree.isLeaf node.uuid ∧ node.refCount = 0) :
    s.mambaStep popped =
      (({ s with freed := s.freed + 1 }.evictLeaf node).cascadeTombstoneLeaves up).2 := by
  rw [mambaStep, hrev]
  simp [hvalue, hcount, hleaf, evictLeaf, freeNodeMamba, takeKv, unlink, tree, withTree]

theorem mambaStep_tombstone {popped : RadixTreeNode} {up : List RadixTreeNode} {slot : Slot}
    (hrev : ((s.cache.tree.path popped.uuid).getD []).reverse = node :: up)
    (hvalue : node.mambaValue = some slot) (hcount : node.mambaRefCount = 0)
    (hinner : ¬ (s.cache.tree.isLeaf node.uuid ∧ node.refCount = 0)) :
    s.mambaStep popped = { s.freeNodeMamba node with freed := s.freed + 1 } := by
  rw [mambaStep, hrev]
  simp only [hvalue, hcount, hinner, reduceCtorEq, ne_eq, not_true_eq_false, or_self, if_false]
  simp [freeNodeMamba, hvalue]

theorem Mamba.step {popped : RadixTreeNode} {heap : List RadixTreeNode} (h : s.Mamba c hs)
    (hpop : s.heap.Perm (popped :: heap)) :
    (mambaStep { s with heap := heap } popped).Mamba c hs ∧
      (mambaStep { s with heap := heap } popped).heap.length < s.heap.length ∧
      (mambaStep { s with heap := heap } popped).freed ≤ s.freed + 1 := by
  have hlen : heap.length < s.heap.length := by
    rw [hpop.length_eq]
    exact Nat.lt_succ_self _
  have hothers : ∀ x ∈ s.cache.tree.marks, x.free → x.uuid ≠ popped.uuid →
      ∃ p ∈ heap, p.uuid = x.uuid := by
    intro x hx hfree hne
    obtain ⟨p, hp, hpu⟩ := h.heap x hx hfree
    rcases List.mem_cons.mp (hpop.mem_iff.mp hp) with rfl | hp
    · exact absurd hpu.symm hne
    · exact ⟨p, hp, hpu⟩
  have hskip : (∀ x ∈ s.cache.tree.marks, x.free → x.uuid ≠ popped.uuid) →
      Mamba { s with heap := heap } c hs ∧ heap.length < s.heap.length ∧ s.freed ≤ s.freed + 1 :=
    fun hnot => ⟨⟨⟨h.sound, h.freed⟩, h.freed_eq, fun x hx hfree => hothers x hx hfree (hnot x hx hfree)⟩,
      hlen, Nat.le_succ _⟩
  rcases hrev : ((s.cache.tree.path popped.uuid).getD []).reverse with _ | ⟨node, up⟩
  · rw [mambaStep, hrev]
    refine hskip fun x hx _ heq => ?_
    obtain ⟨b, d, hb, -⟩ := Forest.exists_path_of_mark h.sound.kv.nodup hx
    rw [heq] at hb
    simp [hb] at hrev
  have hpath := getD_path_reverse hrev
  have huuid : node.uuid = popped.uuid := Forest.path_last hpath
  have hmark : ∀ x ∈ s.cache.tree.marks, x.uuid = popped.uuid → x = node.mark up.reverse := by
    intro x hx heq
    obtain ⟨b, d, hb, rfl⟩ := Forest.exists_path_of_mark h.sound.kv.nodup hx
    rw [heq, hpath, Option.some.injEq] at hb
    obtain ⟨rfl, hd⟩ := List.append_inj' hb rfl
    rw [List.singleton_inj.mp hd]
  rcases hvalue : node.mambaValue with _ | slot
  · simp only [mambaStep, hrev, hvalue, true_or, if_true]
    refine hskip fun x hx hfree heq => ?_
    rw [hmark x hx heq] at hfree
    simp [Mark.free, RadixTreeNode.mark, hvalue] at hfree
  by_cases hcount : node.mambaRefCount = 0
  swap
  · simp only [mambaStep, hrev, hcount, ne_eq, not_false_eq_true, or_true, if_true]
    refine hskip fun x hx hfree heq => ?_
    rw [hmark x hx heq] at hfree
    simp [Mark.free, RadixTreeNode.mark, hcount] at hfree
  rw [← huuid] at hpath hothers
  by_cases hleaf : s.cache.tree.isLeaf node.uuid ∧ node.refCount = 0
  · rw [mambaStep_leaf (s := { s with heap := heap }) hrev hvalue hcount hleaf]
    obtain ⟨x, hx, hxu⟩ := Forest.isLeaf_iff.mp hleaf.1
    obtain rfl := Forest.eq_of_tip h.sound.kv.nodup hpath hx hxu
    obtain ⟨hgone, hcas⟩ := evictLeaf_cascade
      (s := { s with heap := heap, freed := s.freed + 1 }) h.sound hpath hx hleaf.2
    obtain ⟨hkv, hmamba, hheap, hfreed⟩ := outputs_evictLeaf
      { s with heap := heap, freed := s.freed + 1 } x
    generalize ({ s with heap := heap, freed := s.freed + 1 }.evictLeaf
      x).cascadeTombstoneLeaves up = r at hcas ⊢
    obtain ⟨kv, hcasfreed, hkveq, hkvlen⟩ := hcas.freed
    have hallkv : r.2.kv = s.kv ++ (x.value ++ kv) := by rw [hkveq, hkv, List.append_assoc]
    have hallmamba : r.2.mamba = s.mamba ++ [slot] := by
      rw [hcas.mamba_eq, hmamba, hvalue]
      rfl
    have hallfreed : r.2.freed = s.freed + 1 := hcas.freed_eq.trans hfreed
    have hallheap : r.2.heap = heap := hcas.heap_eq.trans hheap
    refine ⟨⟨⟨hcas.sound, ?_⟩, ?_, ?_⟩, by rwa [hallheap], hallfreed.le⟩
    · have hall := h.freed.trans (hgone.freed.trans hcasfreed)
      rw [hvalue] at hall
      rw [hallkv, hallmamba]
      exact hall
    · rw [hallfreed, hallmamba, List.length_append, h.freed_eq]
      rfl
    · intro y hy hyfree
      have hmid := hcasfreed.free_sub y hy hyfree
      rw [hallheap]
      refine hothers y (hgone.freed.free_sub y hmid hyfree) hyfree fun heq => hgone.gone ?_
      rw [← heq]
      exact Forest.mem_uuids_of_marks hmid
  · rw [mambaStep_tombstone (s := { s with heap := heap }) hrev hvalue hcount hleaf]
    have hinner : ∀ y ∈ s.cache.tree.tips, y.uuid ≠ node.uuid := by
      intro y hy heq
      obtain rfl := Forest.eq_of_tip h.sound.kv.nodup hpath hy heq
      refine hleaf ⟨Forest.isLeaf_iff.mpr ⟨y, hy, rfl⟩, ?_⟩
      rw [Forest.refCount_tip h.sound.kv.refOk hy, ← h.sound.mambaRefCount_eq hpath, hcount]
    obtain ⟨hsound, hfreed, hmarks⟩ := freeNodeMamba_spec (s := { s with heap := heap }) h.sound
      hpath hvalue hcount hinner
    have houtputs : (freeNodeMamba { s with heap := heap } node).kv = s.kv ∧
        (freeNodeMamba { s with heap := heap } node).mamba = s.mamba ++ [slot] ∧
        (freeNodeMamba { s with heap := heap } node).heap = heap := by
      simp [freeNodeMamba, hvalue]
    obtain ⟨hkv, hmamba, hheap⟩ := houtputs
    refine ⟨⟨⟨hsound, ?_⟩, ?_, ?_⟩, by simpa only [hheap] using hlen, le_rfl⟩
    · have hall := h.freed.trans hfreed
      rw [List.append_nil] at hall
      simp only [hkv, hmamba]
      exact hall
    · show s.freed + 1 = (freeNodeMamba { s with heap := heap } node).mamba.length
      rw [hmamba, List.length_append, h.freed_eq]
      rfl
    · intro x hx hfree
      simp only [hheap]
      exact hothers x (hfreed.free_sub x hx hfree) hfree (hmarks x hx hfree)

/-- A loop that pops what `step` lets go of ends with enough freed, or with nothing on the heap. -/
theorem loop_spec {step : Evicting → RadixTreeNode → Evicting} {num : Int} (Inv : Evicting → Prop)
    (measure : Evicting → Nat) (hheap : ∀ s, s.heap.length ≤ measure s)
    (hstep : ∀ s popped heap, Inv s → (s.freed : Int) < num → s.heap.Perm (popped :: heap) →
      Inv (step { s with heap := heap } popped) ∧
        measure (step { s with heap := heap } popped) < measure s) :
    ∀ {fuel : Nat} {s : Evicting}, Inv s → measure s ≤ fuel →
      Inv (s.loop step num fuel) ∧
        (num ≤ (s.loop step num fuel).freed ∨ (s.loop step num fuel).heap = [])
  | 0, s, hs, hfuel => by
      refine ⟨hs, Or.inr (List.length_eq_zero_iff.mp ?_)⟩
      exact Nat.le_zero.mp ((hheap s).trans hfuel)
  | fuel + 1, s, hs, hfuel => by
      rw [loop]
      split
      · next hlt =>
          rcases hpop : Heapq.heappop RadixTreeNode.lt s.heap with _ | ⟨popped, heap⟩
          · exact ⟨hs, Or.inr (Heapq.heappop_eq_none.mp hpop)⟩
          · obtain ⟨hnext, hless⟩ := hstep s popped heap hs hlt (Heapq.heappop_perm hpop)
            exact loop_spec Inv measure hheap hstep hnext (by omega)
      · next hge => exact ⟨hs, Or.inl (not_lt.mp hge)⟩

end Evicting

/-! ### The evictions -/

/-- `evict_full` frees what is asked for, or all that is unlocked. -/
theorem Sound.evictFull (h : c.Sound hs) (numTokens : Int) :
    (c.evictFull numTokens).2.Sound hs ∧
      Freed c (c.evictFull numTokens).2 (c.evictFull numTokens).1.kvIndices
        (c.evictFull numTokens).1.mambaSlots ∧
      min numTokens c.kv.evictableSize ≤ (c.evictFull numTokens).1.kvIndices.length := by
  rw [HybridRadixCache.evictFull]
  simp only [Evicting.result]
  have hperm := Heapq.heapify_perm RadixTreeNode.lt
    (c.tree.stackLeaves.filter fun n => n.refCount = 0)
  set heap := Heapq.heapify RadixTreeNode.lt (c.tree.stackLeaves.filter fun n => n.refCount = 0)
  have hstart : Evicting.Full { cache := c, heap := heap } c hs := by
    refine ⟨⟨h, h.freed_refl⟩, rfl, fun y hy hfree => ⟨y, hperm.mem_iff.mpr ?_, rfl⟩⟩
    exact List.mem_filter.mpr ⟨Forest.mem_stackLeaves.mpr hy, by simp [hfree]⟩
  obtain ⟨hend, hdone⟩ := Evicting.loop_spec (fun s => s.Full c hs)
    (fun s => s.heap.length + s.cache.tree.count) (fun s => Nat.le_add_right _ _)
    (fun s popped heap hs (_ : (s.freed : Int) < numTokens) hpop => hs.step hpop) hstart le_rfl
  refine ⟨hend.sound, hend.freed, ?_⟩
  rcases hdone with henough | hempty
  · rw [← hend.freed_eq]
    exact (min_le_left _ _).trans henough
  · -- no unlocked leaf is left, so nothing unlocked is left
    have hzero : ∀ s : Evicting, s.Full c hs → s.heap = [] → s.cache.tree.evictable = 0 := by
      intro s hs hnil
      by_contra hne
      have hleaves := Forest.leaves_ne_nil hs.sound.kv.valid hs.sound.kv.refOk (Nat.pos_of_ne_zero hne)
      obtain ⟨y, hy⟩ := List.exists_mem_of_ne_nil _ hleaves
      obtain ⟨p, hp, -⟩ :=
        hs.heap y (Forest.mem_tips_of_leaves hy) (Forest.refCount_of_leaves hy)
      simp [hnil] at hp
    have hall := hend.freed.pruned.evictable_eq
    rw [hzero _ hend hempty, Nat.zero_add] at hall
    rw [h.kv.evictable_eq, hall]
    exact min_le_right _ _

theorem mem_snapshotNodes {f : Forest} {a : List RadixTreeNode} {d : RadixTreeNode} {u : Nat}
    (ha : f.path u = some (a ++ [d])) (hsome : d.mambaValue.isSome) : d ∈ f.snapshotNodes := by
  induction f generalizing a with
  | nil => cases ha
  | node d0 cs rest ihcs ihrest =>
      rw [Forest.snapshotNodes, List.mem_append, List.mem_append]
      rcases Forest.path_cases ha with ⟨-, hds⟩ | ⟨-, e, hcs, hds⟩ | ⟨-, -, hrest⟩
      · obtain ⟨rfl, hd⟩ := List.append_inj' (hds.trans (List.nil_append [d0]).symm) rfl
        obtain rfl := List.singleton_inj.mp hd
        exact Or.inl (Or.inr (by simp [hsome]))
      · cases a with
        | nil =>
            rw [List.nil_append, List.cons.injEq] at hds
            exact absurd hds.2.symm (Forest.path_ne_nil hcs)
        | cons z a =>
            rw [List.cons_append, List.cons.injEq] at hds
            obtain ⟨rfl, rfl⟩ := hds
            exact Or.inr (ihcs hcs)
      · exact Or.inl (Or.inl (ihrest hrest))

/-- `evict_mamba` frees as many snapshots as asked for, or all that are unlocked. -/
theorem Sound.evictMamba (h : c.Sound hs) (num : Int) :
    (c.evictMamba num).2.Sound hs ∧
      Freed c (c.evictMamba num).2 (c.evictMamba num).1.kvIndices (c.evictMamba num).1.mambaSlots ∧
      ((c.evictMamba num).1.mambaSlots.length : Int) = min (max num 0) c.mambaEvictable := by
  rw [HybridRadixCache.evictMamba]
  simp only [Evicting.result]
  have hperm := Heapq.heapify_perm RadixTreeNode.lt
    (c.tree.snapshotNodes.filter fun n => n.mambaRefCount = 0)
  set heap := Heapq.heapify RadixTreeNode.lt
    (c.tree.snapshotNodes.filter fun n => n.mambaRefCount = 0)
  have hstart : Evicting.Mamba { cache := c, heap := heap } c hs := by
    refine ⟨⟨h, h.freed_refl⟩, rfl, fun x hx hfree => ?_⟩
    obtain ⟨a, d, ha, rfl⟩ := Forest.exists_path_of_mark h.kv.nodup hx
    simp only [Mark.free, RadixTreeNode.mark, Bool.and_eq_true, beq_iff_eq] at hfree
    refine ⟨d, hperm.mem_iff.mpr (List.mem_filter.mpr ⟨mem_snapshotNodes ha hfree.1, ?_⟩), rfl⟩
    simp [hfree.2]
  obtain ⟨⟨hend, hmost⟩, hdone⟩ := Evicting.loop_spec
    (fun s => s.Mamba c hs ∧ (s.freed : Int) ≤ max num 0)
    (fun s => s.heap.length) (fun s => le_rfl)
    (fun s popped heap hs (hlt : (s.freed : Int) < num) hpop => by
      obtain ⟨hnext, hless, hone⟩ := hs.1.step hpop
      refine ⟨⟨hnext, ?_⟩, hless⟩
      have := le_max_left num 0
      omega)
    ⟨hstart, le_max_right _ _⟩ le_rfl
  dsimp only at hend hmost hdone ⊢
  generalize Evicting.loop Evicting.mambaStep num heap.length { cache := c, heap := heap } = s
    at hend hmost hdone ⊢
  refine ⟨hend.sound, hend.freed, ?_⟩
  have hev := hend.freed.mambaEvictable_eq
  have hleft := hend.sound.tally.evictable_eq
  rw [hend.freed_eq] at hmost
  rcases hdone with henough | hempty
  · rw [hend.freed_eq] at henough
    have := max_le henough (Int.natCast_nonneg _)
    omega
  · have hzero : ∀ s : Evicting, s.Mamba c hs → s.heap = [] →
        s.cache.tree.marks.countP Mark.free = 0 := by
      intro s hs hnil
      refine List.countP_eq_zero.mpr fun x hx hfree => ?_
      obtain ⟨p, hp, -⟩ := hs.heap x hx hfree
      simp [hnil] at hp
    rw [hzero _ hend hempty] at hleft
    omega

end HybridRadixCache

end FreeToken
