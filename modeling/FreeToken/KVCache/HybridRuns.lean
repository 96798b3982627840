import FreeToken.KVCache.HybridEvict
import FreeToken.KVCache.RadixMap
import FreeToken.KVCache.RadixAccounts
import FreeToken.Lib.Run
import Mathlib.Data.List.Perm.Subperm

/-!
# Runs of the hybrid cache

`Takes` is the counterpart of `Freed`: a walk, an insertion and the locks add indices and snapshots
and keep all there is. `Current` says that the reply to a match still holds: its node spans the
tokens and indices of the match and owns its snapshot. `Takes` keeps every match current, `Freed`
those that are locked.

`HybridRun` is a run of calls that return, with a record of it: the matches that may be locked, the
nodes that are, and what the tree took and gave back. A match is locked before the next eviction,
or while its node is locked already, and a lock comes off once. Over all such runs the sizes are
the sums they stand for, what was taken is stored until it is given back, and a match that may be
locked still holds.
-/

namespace FreeToken

namespace Forest

variable {f f' : Forest} {ps u : Nat} {slot : Slot}

/-- The snapshot of node `u`. -/
def snapshotAt (u : Nat) (f : Forest) : Option Slot := (f.nodeAt u).bind fun d => d.mambaValue

theorem snapshotAt_eq_some (hn : f.uuids.Nodup) : f.snapshotAt u = some slot ↔
    ∃ x ∈ f.marks, x.uuid = u ∧ x.mambaValue = some slot := by
  rw [snapshotAt, Option.bind_eq_some_iff]
  constructor
  · rintro ⟨d, hd, hslot⟩
    obtain ⟨a, ha⟩ := nodeAt_eq_some.mp hd
    exact ⟨_, mem_marks_of_path ha, path_last ha, hslot⟩
  · rintro ⟨x, hx, rfl, hslot⟩
    obtain ⟨a, d, ha, rfl⟩ := exists_path_of_mark hn hx
    exact ⟨d, nodeAt_eq_some.mpr ⟨a, ha⟩, hslot⟩

theorem mem_snapshots {q : List Token} : (q, slot) ∈ f.snapshots ↔
    ∃ x ∈ f.marks, x.boundary = q ∧ x.mambaValue = some slot := by
  simp only [snapshots, List.mem_filterMap, Mark.snapshot, Option.map_eq_some_iff, Prod.mk.injEq]
  constructor
  · rintro ⟨x, hx, s, hs, hq, rfl⟩
    exact ⟨x, hx, hq, hs⟩
  · rintro ⟨x, hx, hq, hs⟩
    exact ⟨x, hx, slot, hs, hq, rfl⟩

/-- Every tree in shape stores some map. -/
theorem exists_represents (hv : f.Valid ps) : ∃ m, f.Represents ps m := by
  classical
  refine ⟨fun q => if h : ∃ s, q ≠ [] ∧ ps ∣ q.length ∧ f.Stored q s then some h.choose else none,
    fun q s => ?_⟩
  dsimp only
  split
  · next h =>
      obtain ⟨hq, hdvd, hstored⟩ := h.choose_spec
      rw [Option.some.injEq]
      constructor
      · rintro rfl
        exact h.choose_spec
      · rintro ⟨-, -, hs⟩
        exact hstored.unique hv hq hdvd hs
  · next h => exact iff_of_false (by simp) fun hs => h ⟨s, hs⟩

end Forest

namespace HybridRadixCache

variable {c c' c'' : HybridRadixCache} {hs : List RadixCacheHandle} {but : Option Nat}

/-- From `c` to `c'` the tree takes these indices and snapshots, and keeps what it has. -/
structure Takes (c c' : HybridRadixCache) (kv : List Slot) (new : List (List Token × Slot)) :
    Prop where
  pageSize_eq : c'.kv.pageSize = c.kv.pageSize
  slots_perm : c'.tree.slots.Perm (kv ++ c.tree.slots)
  snapshots_perm : c'.tree.snapshots.Perm (new ++ c.tree.snapshots)
  span_eq : ∀ u ∈ c.tree.uuids, u ∈ c'.tree.uuids ∧ c'.tree.span u = c.tree.span u
  kept : ∀ u slot, c.tree.snapshotAt u = some slot → c'.tree.snapshotAt u = some slot

theorem Takes.trans {kv kv' : List Slot} {new new' : List (List Token × Slot)}
    (h : Takes c c' kv new) (h' : Takes c' c'' kv' new') : Takes c c'' (kv' ++ kv) (new' ++ new) where
  pageSize_eq := h'.pageSize_eq.trans h.pageSize_eq
  slots_perm := by
    rw [List.append_assoc]
    exact h'.slots_perm.trans (h.slots_perm.append_left kv')
  snapshots_perm := by
    rw [List.append_assoc]
    exact h'.snapshots_perm.trans (h.snapshots_perm.append_left new')
  span_eq := by
    intro u hu
    obtain ⟨hu', hspan⟩ := h.span_eq u hu
    obtain ⟨hu'', hspan'⟩ := h'.span_eq u hu'
    exact ⟨hu'', hspan'.trans hspan⟩
  kept := fun u slot hslot => h'.kept u slot (h.kept u slot hslot)

theorem takes_refl (c : HybridRadixCache) : Takes c c [] [] where
  pageSize_eq := rfl
  slots_perm := List.Perm.refl _
  snapshots_perm := List.Perm.refl _
  span_eq := fun _ hu => ⟨hu, rfl⟩
  kept := fun _ _ h => h

/-- At most a node without a snapshot is added. -/
def Unmarked (f f' : Forest) : Prop :=
  f'.marks = f.marks ∨ ∃ x, x.mambaValue = none ∧ f'.marks.Perm (x :: f.marks)

theorem Unmarked.snapshots {f f' : Forest} (h : Unmarked f f') : f'.snapshots.Perm f.snapshots := by
  rcases h with heq | ⟨x, hx, hperm⟩
  · rw [Forest.snapshots, heq]
    exact List.Perm.refl _
  · have hsnap := Forest.snapshots_of_cons hperm
    rwa [Mark.snapshot, hx] at hsnap

theorem Unmarked.kept {f f' : Forest} (h : Unmarked f f') (hn : f.uuids.Nodup)
    (hn' : f'.uuids.Nodup) {u : Nat} {slot : Slot} (hslot : f.snapshotAt u = some slot) :
    f'.snapshotAt u = some slot := by
  obtain ⟨y, hy, hu, hslot⟩ := (Forest.snapshotAt_eq_some hn).mp hslot
  refine (Forest.snapshotAt_eq_some hn').mpr ⟨y, ?_, hu, hslot⟩
  rcases h with heq | ⟨x, -, hperm⟩
  · rwa [heq]
  · exact hperm.mem_iff.mpr (List.mem_cons_of_mem x hy)

/-- Where the KV side keeps all it has. -/
theorem takes_of_keeps (hn : c.tree.uuids.Nodup) (hn' : c'.tree.uuids.Nodup)
    (hkeeps : RadixPrefixCache.Keeps c.kv c'.kv) (hmarks : Unmarked c.tree c'.tree) :
    Takes c c' [] [] where
  pageSize_eq := hkeeps.pageSize_eq
  slots_perm := by
    rw [tree, hkeeps.slots_eq]
    exact List.Perm.refl _
  snapshots_perm := hmarks.snapshots
  span_eq := hkeeps.span_eq
  kept := fun _ _ hslot => hmarks.kept hn hn' hslot

theorem unmarked_setParent {kv : RadixPrefixCache} {node : Option Nat}
    (new : RadixTreeNode) (hn : kv.tree.uuids.Nodup) (hnode : ∀ u, node = some u → u ∈ kv.tree.uuids)
    (hnew : new.mambaValue = none) : Unmarked kv.tree (kv.setParent node new) := by
  rcases node with _ | u
  · refine Or.inr ⟨new.mark [], hnew, ?_⟩
    rw [RadixPrefixCache.setParent, Forest.marks_snoc]
    exact List.perm_append_singleton _ _
  · obtain ⟨ds, hds⟩ := Forest.exists_path (hnode u rfl)
    exact Or.inr ⟨new.mark ds, hnew, Forest.marks_attach hn hds⟩

theorem SoundBut.takes_walk (h : c.SoundBut hs but) (ids : List Token) :
    Takes c { c with kv := (c.kv.treeWalk ids).2 } [] [] := by
  have hw := h.kv.shape.walked ids
  refine takes_of_keeps h.kv.nodup hw.shape.nodup hw.keeps ?_
  exact (Forest.marks_resplit hw.resplit).imp id fun ⟨q, hperm⟩ => ⟨_, rfl, hperm⟩

/-- Inserting the KV takes the indices past what was found. -/
theorem Sound.takes_insertKv (h : c.Sound hs) {ids : List Token} {slots : List Slot}
    {res : MatchResult} {kv : RadixPrefixCache}
    (hinsert : c.kv.insertPrefix ids slots = some (res, kv)) :
    Takes c { c with kv := kv }
      ((slots.take (alignDownNat ids.length c.kv.pageSize)).drop res.cachedLen) [] := by
  have hwalk := h.takes_walk (ids.take (alignDownNat ids.length c.kv.pageSize))
  have hsound := (h.insertKv hinsert).1
  have hinserting := h.kv.shape.inserting hinsert
  obtain ⟨w, c1, heq, hcached, -, hcase⟩ := RadixPrefixCache.insertPrefix_cases hinsert
  rw [heq] at hwalk
  rcases hcase with ⟨hall, rfl, -⟩ | ⟨hall, hlen, -, rfl⟩
  · rw [hcached, hall, List.drop_eq_nil_of_le (by simp)]
    exact hwalk
  · have hfit : alignDownNat ids.length c.kv.pageSize ≤ slots.length := by
      have hw := h.kv.shape.walked (ids.take (alignDownNat ids.length c.kv.pageSize))
      rw [heq] at hw
      have hle := hw.prefixLen_le
      have hL := alignDownNat_le ids.length c.kv.pageSize
      simp only [RadixPrefixCache.newLeaf, List.length_drop, List.length_take,
        Nat.min_eq_left hL] at hlen hle
      omega
    obtain ⟨res', kv', hinsert', hspec⟩ := RadixPrefixCache.insertPrefix_spec h.kv hfit
    rw [hinsert, Option.some.injEq, Prod.mk.injEq] at hinsert'
    obtain ⟨rfl, rfl⟩ := hinsert'
    have hslots := hspec.entries_perm.map Prod.snd
    rw [List.map_append, RadixPrefixCache.map_snd_newEntries hfit] at hslots
    have hw := h.kv.shape.walked (ids.take (alignDownNat ids.length c.kv.pageSize))
    rw [heq] at hw
    have hmarks := unmarked_setParent (c1.newLeaf ids slots w.prefixLen c.kv.pageSize)
      hw.shape.nodup hw.node_mem rfl
    exact
      { pageSize_eq := hspec.pageSize_eq
        slots_perm := hslots.trans List.perm_append_comm
        snapshots_perm := hmarks.snapshots.trans hwalk.snapshots_perm
        span_eq := hinserting.span_eq
        kept := fun u slot hslot =>
          hmarks.kept hw.shape.nodup hsound.kv.nodup (hwalk.kept u slot hslot) }

/-- An assignment that leaves the node the snapshot it has. -/
theorem SoundBut.takes_modify (h : c.SoundBut hs but) {g : RadixTreeNode → RadixTreeNode} {u : Nat}
    {a : List RadixTreeNode} {d : RadixTreeNode} {new : List (List Token × Slot)} {e p : Int}
    (hg : Forest.OnSnapshot g) (ha : c.tree.path u = some (a ++ [d]))
    (hnew : ((g d).mark a).snapshot.toList = new ++ (d.mark a).snapshot.toList)
    (hkept : ∀ slot, d.mambaValue = some slot → (g d).mambaValue = some slot) :
    Takes c { kv := { c.kv with tree := c.tree.modify u g }, mambaEvictable := e, mambaProtected := p }
      [] new := by
  have hplain := Forest.plain_modify (u := u) hg c.tree
  have huuids : (c.tree.modify u g).uuids = c.tree.uuids := by
    rw [← Forest.uuids_plain, hplain, Forest.uuids_plain]
  obtain ⟨others, hbefore, hafter⟩ := Forest.marks_modify hg h.kv.nodup ha
  exact
    { pageSize_eq := rfl
      slots_perm := by
        dsimp only [tree]
        rw [Forest.slots, ← Forest.entries_plain, hplain, Forest.entries_plain]
        exact List.Perm.refl _
      snapshots_perm := by
        have hall := Forest.snapshots_of_cons hafter
        rw [hnew, List.append_assoc] at hall
        exact hall.trans ((Forest.snapshots_of_cons hbefore).symm.append_left new)
      span_eq := fun v hv =>
        ⟨huuids ▸ hv, by rw [← Forest.span_plain (Forest.modify u g c.tree), hplain, Forest.span_plain]⟩
      kept := by
        intro v slot hslot
        obtain ⟨y, hy, hu, hslot⟩ := (Forest.snapshotAt_eq_some h.kv.nodup).mp hslot
        refine (Forest.snapshotAt_eq_some (huuids ▸ h.kv.nodup)).mpr ?_
        rcases List.mem_cons.mp (hbefore.mem_iff.mp hy) with rfl | hy
        · exact ⟨_, hafter.mem_iff.mpr List.mem_cons_self, (hg.uuid_eq d).trans hu, hkept slot hslot⟩
        · exact ⟨y, hafter.mem_iff.mpr (List.mem_cons_of_mem _ hy), hu, hslot⟩ }

/-- A donation takes the snapshot for the tokens of the node, unless there is one. -/
theorem SoundBut.takes_donate (h : c.SoundBut hs but) {hd : RadixCacheHandle} {q : List Token}
    {values : List Slot} (hspan : c.kv.handleSpan hd = some (q, values)) (slot : Slot) :
    Takes c (c.donate hd.node slot).2 []
      (if (c.donate hd.node slot).1 then [] else [(q, slot)]) := by
  rcases donate_cases c hd.node slot with ⟨heq, -⟩ | ⟨u, a, d, hnode, ha, hnone, heq⟩
  · rw [heq]
    exact takes_refl c
  · rw [heq]
    have hq : ((a ++ [d]).flatMap fun d => d.key) = q := by
      rw [RadixPrefixCache.handleSpan, hnode] at hspan
      simp only [Forest.span, ha, Option.map_some, Option.some.injEq, Prod.mk.injEq] at hspan
      exact hspan.1
    refine h.takes_modify (onSnapshot_set (some slot)) ha ?_ (by simp [hnone])
    simp [Mark.snapshot, RadixTreeNode.mark, hnone, ← hq]

/-- What an insertion that returns takes: the indices past what was found, and the snapshot for
the whole pages of the input, unless there is one. -/
theorem Sound.takes_insert (h : c.Sound hs) {ids : List Token} {slots : List Slot} {slot : Slot}
    {reply : Nat × Bool} (hinsert : c.insert ids slots slot = some (reply, c')) :
    Takes c c' ((slots.take (alignDownNat ids.length c.kv.pageSize)).drop reply.1)
      (if reply.2 then [] else [(ids.take (alignDownNat ids.length c.kv.pageSize), slot)]) := by
  rw [insert_eq, Option.map_eq_some_iff] at hinsert
  obtain ⟨⟨res, kv⟩, hkv, heq⟩ := hinsert
  cases heq
  obtain ⟨m, hm⟩ := Forest.exists_represents h.kv.valid
  obtain ⟨out, hspan, -⟩ := (h.kv.shape.inserts hm hkv).span_eq
  have hdonate := (h.insertKv hkv).1.takes_donate hspan slot
  have hall := (h.takes_insertKv hkv).trans hdonate
  rw [List.append_nil] at hall
  exact hall

/-- A count on a snapshot and locks on the KV take nothing. -/
theorem SoundBut.takes_recount (h : c.SoundBut hs but) {u : Nat} {a : List RadixTreeNode}
    {d : RadixTreeNode} (ha : c.tree.path u = some (a ++ [d])) (count : Nat → Nat)
    {kv : RadixPrefixCache} (hkv : kv = { c.kv with
      tree := c.tree.modify u fun d => { d with mambaRefCount := count d.mambaRefCount } })
    (hkeeps : RadixPrefixCache.Keeps kv c'.kv) (hmarks : c'.tree.marks = kv.tree.marks) :
    Takes c c' [] [] := by
  have hcount : Takes c { c with kv := kv } [] [] := by
    rw [hkv]
    refine h.takes_modify (onSnapshot_count count) ha ?_ fun _ hslot => hslot
    simp [Mark.snapshot, RadixTreeNode.mark]
  have hn : kv.tree.uuids.Nodup := by
    have hplain := Forest.plain_modify (u := u) (onSnapshot_count count) c.tree
    rw [hkv, ← Forest.uuids_plain, hplain, Forest.uuids_plain]
    exact h.kv.nodup
  refine hcount.trans (takes_of_keeps (c := { c with kv := kv }) hn ?_ hkeeps (Or.inl hmarks))
  rwa [Forest.uuids_eq_marks, hmarks, ← Forest.uuids_eq_marks]

theorem Sound.takes_incLock (h : c.Sound hs) {node : Option Nat}
    (hnode : ∀ u, node = some u → ∃ x ∈ c.tree.marks, x.uuid = u ∧ x.mambaValue.isSome) :
    Takes c (c.incLock node) [] [] := by
  rcases node with _ | u
  · exact takes_refl c
  · obtain ⟨x, hx, huuid, hsome⟩ := hnode u rfl
    obtain ⟨a, d, ha, rfl⟩ := Forest.exists_path_of_mark h.kv.nodup hx
    rw [huuid] at ha
    have hplain := Forest.plain_modify (u := u) (onSnapshot_count (· + 1)) c.tree
    have hlocked := RadixPrefixCache.lock_spec (h.kv.of_plain hplain) (h := lockOf (some u)) (by
      rintro v ⟨⟩
      rw [← Forest.uuids_plain, hplain, Forest.uuids_plain]
      exact Forest.mem_uuids_of_path ha)
    have hkv : (c.incLock (some u)).kv = RadixPrefixCache.lock { c.kv with
        tree := c.tree.modify u fun d => { d with mambaRefCount := d.mambaRefCount + 1 } }
        (lockOf (some u)) := by
      have hsome' : d.mambaValue.isSome := hsome
      have hat := Forest.nodeAt_eq_some.mpr ⟨a, ha⟩
      simp [HybridRadixCache.incLock, hat, hsome', withTree, lockOf, Forest.path_last ha]
    refine h.takes_recount ha (· + 1) rfl ?_ ?_
    · rw [hkv]
      exact hlocked.2.1
    · rw [tree, hkv]
      exact (snapshots_lock _ _).1

theorem Sound.takes_decLock {node : Option Nat} (h : c.Sound (lockOf node :: hs))
    (hdec : c.decLock node = some c') : Takes c c' [] [] := by
  rcases node with _ | u
  · cases hdec
    exact takes_refl c
  · obtain ⟨d, hat⟩ := Forest.exists_nodeAt (h.kv.held _ List.mem_cons_self u rfl)
    obtain ⟨a, ha⟩ := Forest.nodeAt_eq_some.mp hat
    have hheld : holdersAt (lockOf (some u) :: hs) u = holdersAt hs u + 1 := by
      simp [holdersAt_cons, lockOf]
    have hcount := (h.mambaRefCount_eq ha).trans hheld
    have hsome : d.mambaValue.isSome := h.tally.live _ (Forest.mem_marks_of_path ha) (by
      simp only [RadixTreeNode.mark]
      omega)
    have hplain := Forest.plain_modify (u := u) (onSnapshot_count (· - 1)) c.tree
    obtain ⟨kv, hkv, -, hkeeps⟩ := RadixPrefixCache.unlock_spec (h.kv.of_plain hplain)
    have hpos : 0 < d.mambaRefCount := by omega
    have heq : c'.kv = kv := by
      rw [lockOf] at hkv
      simp only [HybridRadixCache.decLock, Option.bind_some, hat, hsome, hpos, and_self, if_true,
        Forest.path_last ha, withTree, hkv, Option.map_some, Option.some.injEq] at hdec
      rw [← hdec]
    refine h.takes_recount ha (· - 1) rfl ?_ ?_
    · rw [heq]
      exact hkeeps
    · rw [tree, heq]
      exact (snapshots_unlock hkv).1

/-! ### Matches -/

/-- The reply to a match of `ids` still holds. -/
structure Current (c : HybridRadixCache) (ids : List Token) (m : HybridMatch) : Prop where
  span_eq : c.kv.handleSpan (lockOf m.node) = some (ids.take m.cachedLen, m.kvIndices)
  cachedLen_le : m.cachedLen ≤ ids.length
  snapshot_eq : (m.node.bind fun u => c.tree.snapshotAt u) = m.mambaValue
  live : m.node.isSome → m.mambaValue.isSome

/-- The nodes that a walk went through span what it found. -/
theorem pathTo_walk (c' : HybridRadixCache) {ids : List Token} {w : WalkResult}
    (hw : RadixPrefixCache.Walked c.kv ids w c'.kv) :
    ((c'.pathTo w.node).flatMap fun d => d.key) = ids.take w.prefixLen := by
  obtain ⟨slots, hspan, -⟩ := hw.span_eq
  rw [RadixPrefixCache.handleSpan] at hspan
  rcases hnode : w.node with _ | u
  · rw [hnode, Option.some.injEq, Prod.mk.injEq] at hspan
    exact hspan.1
  · obtain ⟨ds, hds⟩ := Forest.exists_path (hw.node_mem u hnode)
    simp only [hnode, Forest.span, hds, Option.map_some, Option.some.injEq, Prod.mk.injEq] at hspan
    simp [pathTo, tree, hds, hspan.1]

/-- A match finds the deepest snapshot on the path of its walk, or none. -/
theorem matchPrefix_cases (c : HybridRadixCache) (ids : List Token) :
    (∃ a d b slot, (c.matchPrefix ids).2.pathTo (c.kv.treeWalk ids).1.node = a ++ d :: b ∧
      d.mambaValue = some slot ∧ (∀ y ∈ b, y.mambaValue = none) ∧
      (c.matchPrefix ids).1 =
        { kvIndices := (a ++ [d]).flatMap fun d => d.value
          cachedLen := pathLen (a ++ [d])
          mambaValue := some slot
          node := some d.uuid }) ∨
    (∀ y ∈ (c.matchPrefix ids).2.pathTo (c.kv.treeWalk ids).1.node, y.mambaValue = none) ∧
      (c.matchPrefix ids).1 = { kvIndices := [], cachedLen := 0, mambaValue := none, node := none } :=
  deepestSnapshot_reverse _

theorem pathLen_eq (ds : List RadixTreeNode) : pathLen ds = (ds.flatMap fun d => d.key).length := by
  simp [pathLen, List.length_flatMap]

theorem path_of_pathTo {node : Option Nat} {a b : List RadixTreeNode} {d : RadixTreeNode}
    (hn : c.tree.uuids.Nodup) (h : c.pathTo node = a ++ d :: b) :
    c.tree.path d.uuid = some (a ++ [d]) := by
  rcases node with _ | u
  · simp [pathTo] at h
  · rcases hu : c.tree.path u with _ | ds
    · simp [pathTo, hu] at h
    · simp only [pathTo, Option.bind_some, hu, Option.getD_some] at h
      exact Forest.path_of_mem_path hn (h ▸ hu)

theorem Sound.current_matchPrefix (h : c.Sound hs) (ids : List Token) :
    (c.matchPrefix ids).2.Current ids (c.matchPrefix ids).1 := by
  have hw := h.kv.shape.walked ids
  have hkeys := pathTo_walk (c.matchPrefix ids).2 hw
  rcases c.matchPrefix_cases ids with ⟨a, d, b, slot, hds, hslot, -, heq⟩ | ⟨-, heq⟩
  · have hpath := path_of_pathTo hw.shape.nodup hds
    rw [hds] at hkeys
    have hpre : ((a ++ [d]).flatMap fun d => d.key) <+: ids := by
      refine List.IsPrefix.trans ?_ (hkeys ▸ List.take_prefix _ _)
      exact ⟨b.flatMap fun d => d.key, by simp⟩
    rw [heq]
    refine ⟨?_, ?_, ?_, fun _ => rfl⟩
    · simp only [RadixPrefixCache.handleSpan, lockOf, Forest.span]
      rw [hpath, pathLen_eq, ← List.prefix_iff_eq_take.mp hpre]
      rfl
    · rw [pathLen_eq]
      exact hpre.length_le
    · simp only [Option.bind_some, Forest.snapshotAt]
      rw [Forest.nodeAt_eq_some.mpr ⟨a, hpath⟩]
      exact hslot
  · rw [heq]
    exact ⟨rfl, Nat.zero_le _, rfl, by simp⟩

/-- What the tree takes keeps every match. -/
theorem Current.takes {ids : List Token} {m : HybridMatch} {kv : List Slot}
    {new : List (List Token × Slot)} (h : c.Current ids m) (ht : Takes c c' kv new) :
    c'.Current ids m := by
  obtain ⟨hspan, hle, hsnap, hlive⟩ := h
  rcases hnode : m.node with _ | u
  · rw [hnode] at hspan hsnap
    exact ⟨by rw [hnode]; exact hspan, hle, by rw [hnode]; exact hsnap, hlive⟩
  · obtain ⟨slot, hslot⟩ := Option.isSome_iff_exists.mp (hlive (by rw [hnode]; rfl))
    rw [hnode, hslot, Option.bind_some] at hsnap
    have hmem : u ∈ c.tree.uuids := by
      by_contra hu
      rw [Forest.snapshotAt, Forest.nodeAt_eq_none.mpr hu] at hsnap
      cases hsnap
    refine ⟨?_, hle, ?_, hlive⟩
    · rw [← hspan, RadixPrefixCache.handleSpan, RadixPrefixCache.handleSpan]
      simp only [lockOf, hnode]
      exact (ht.span_eq u hmem).2
    · rw [hnode, hslot]
      exact ht.kept u slot hsnap

/-- Evictions keep the matches that are locked. -/
theorem Current.freed {ids : List Token} {m : HybridMatch} {kv mamba : List Slot}
    (h : c.Current ids m) (hsound : c.Sound hs) (hsound' : c'.Sound hs)
    (hfreed : Freed c c' kv mamba) (hheld : lockOf m.node ∈ hs) : c'.Current ids m := by
  obtain ⟨hspan, hle, hsnap, hlive⟩ := h
  rcases hnode : m.node with _ | u
  · rw [hnode] at hspan hsnap
    exact ⟨by rw [hnode]; exact hspan, hle, by rw [hnode]; exact hsnap, hlive⟩
  · obtain ⟨slot, hslot⟩ := Option.isSome_iff_exists.mp (hlive (by rw [hnode]; rfl))
    rw [hnode, hslot, Option.bind_some] at hsnap
    rw [hnode] at hheld
    have hcount := holdersAt_ne_zero (u := u) hheld rfl
    obtain ⟨x, hx, rfl, hvalue⟩ := (Forest.snapshotAt_eq_some hsound.kv.nodup).mp hsnap
    have hkept := hfreed.kept x hx (by rw [hsound.tally.locks x hx]; exact hcount)
    have hspan' := hfreed.pruned.span_eq _ hsound.kv.refOk x.uuid
      (hsound.kv.held _ hheld _ rfl) hcount
    refine ⟨?_, hle, ?_, hlive⟩
    · rw [← hspan, RadixPrefixCache.handleSpan, RadixPrefixCache.handleSpan]
      simp only [lockOf, hnode]
      exact hspan'.2
    · rw [hnode, hslot, Option.bind_some]
      exact (Forest.snapshotAt_eq_some hsound'.kv.nodup).mpr ⟨x, hkept, rfl, hvalue⟩

end HybridRadixCache

/-! ### Runs -/

inductive HybridCall where
  | matchPrefix (inputIds : List Token)
  | insert (inputIds : List Token) (kvIndices : List Slot) (mambaValue : Slot)
  | incLock (node : Option Nat)
  | decLock (node : Option Nat)
  | evictFull (numTokens : Int)
  | evictMamba (num : Int)
deriving DecidableEq, Repr

inductive HybridReply where
  | matched (m : HybridMatch)
  | inserted (matchedPrefixLen : Nat) (mambaExist : Bool)
  | unit
  | evicted (r : EvictResult)
deriving DecidableEq, Repr

namespace HybridRadixCache

def call (c : HybridRadixCache) : HybridCall → Option (HybridReply × HybridRadixCache)
  | .matchPrefix inputIds =>
      let (m, c) := c.matchPrefix inputIds
      some (.matched m, c)
  | .insert inputIds kvIndices mambaValue =>
      (c.insert inputIds kvIndices mambaValue).map fun (r, c) => (.inserted r.1 r.2, c)
  | .incLock node => some (.unit, c.incLock node)
  | .decLock node => (c.decLock node).map fun c => (.unit, c)
  | .evictFull numTokens =>
      let (r, c) := c.evictFull numTokens
      some (.evicted r, c)
  | .evictMamba num =>
      let (r, c) := c.evictMamba num
      some (.evicted r, c)

def init (pageSize : Nat) : HybridRadixCache := { kv := { pageSize := pageSize } }

end HybridRadixCache

/-- A run so far. -/
structure HybridRun where
  cache : HybridRadixCache
  /-- The matches since the last eviction, and those that were locked then. -/
  matched : List (List Token × HybridMatch) := []
  /-- The locked nodes, each as often as it is locked. -/
  held : List (Option Nat) := []
  kvTaken : List Slot := []
  kvGiven : List Slot := []
  mambaTaken : List Slot := []
  mambaGiven : List Slot := []
  /-- The calls with their replies, newest first. -/
  trace : List (HybridCall × HybridReply) := []
deriving DecidableEq, Repr

namespace HybridRun

open HybridRadixCache

/-- The record of a call. -/
def record (s : HybridRun) (cache : HybridRadixCache) : HybridCall → HybridReply → HybridRun
  | .matchPrefix inputIds, .matched m =>
      { s with cache := cache, matched := (inputIds, m) :: s.matched }
  | .insert inputIds kvIndices mambaValue, .inserted matchedPrefixLen mambaExist =>
      { s with
        cache := cache
        kvTaken := (kvIndices.take (alignDownNat inputIds.length s.cache.kv.pageSize)).drop
          matchedPrefixLen ++ s.kvTaken
        mambaTaken := (if mambaExist then [] else [mambaValue]) ++ s.mambaTaken }
  | .incLock node, _ => { s with cache := cache, held := node :: s.held }
  | .decLock node, _ => { s with cache := cache, held := s.held.erase node }
  | _, .evicted r =>
      { s with
        cache := cache
        matched := s.matched.filter fun x => x.2.node ∈ s.held
        kvGiven := r.kvIndices ++ s.kvGiven
        mambaGiven := r.mambaSlots ++ s.mambaGiven }
  | _, _ => { s with cache := cache }

def next (s : HybridRun) (a : HybridCall) : Option HybridRun :=
  (s.cache.call a).map fun r => { s.record r.2 a r.1 with trace := (a, r.1) :: s.trace }

/-- A match that may be locked is locked, and a lock that is held comes off. -/
def Paired (s : HybridRun) : HybridCall → Prop
  | .incLock node => ∃ x ∈ s.matched, x.2.node = node
  | .decLock node => node ∈ s.held
  | _ => True

instance (s : HybridRun) : (a : HybridCall) → Decidable (s.Paired a)
  | .incLock node => inferInstanceAs (Decidable (∃ x ∈ s.matched, x.2.node = node))
  | .decLock node => inferInstanceAs (Decidable (node ∈ s.held))
  | .matchPrefix _ => isTrue trivial
  | .insert _ _ _ => isTrue trivial
  | .evictFull _ => isTrue trivial
  | .evictMamba _ => isTrue trivial

def start (pageSize : Nat) : HybridRun := { cache := init pageSize }

/-- The locks of a run, as handles. -/
def locks (s : HybridRun) : List RadixCacheHandle := s.held.map lockOf

/-- What every call of a paired run keeps. -/
structure Kept (s : HybridRun) : Prop where
  sound : s.cache.Sound s.locks
  current : ∀ x ∈ s.matched, s.cache.Current x.1 x.2
  held : ∀ node ∈ s.held, ∃ x ∈ s.matched, x.2.node = node
  kv : s.kvTaken.Perm (s.kvGiven ++ s.cache.tree.slots)
  mamba : s.mambaTaken.Perm (s.mambaGiven ++ s.cache.tree.snapshots.map Prod.snd)

variable {s s' : HybridRun} {ps : Nat}

theorem kept_start (hps : 0 < ps) : (start ps).Kept where
  sound := sound_init hps
  current := by simp [start]
  held := by simp [start]
  kv := List.Perm.refl _
  mamba := List.Perm.refl _

/-- Taking in keeps the record. -/
theorem Kept.takes {c : HybridRadixCache} {kv : List Slot} {new : List (List Token × Slot)}
    (h : s.Kept) (ht : Takes s.cache c kv new) :
    (∀ x ∈ s.matched, c.Current x.1 x.2) ∧
      (kv ++ s.kvTaken).Perm (s.kvGiven ++ c.tree.slots) ∧
      (new.map Prod.snd ++ s.mambaTaken).Perm (s.mambaGiven ++ c.tree.snapshots.map Prod.snd) := by
  refine ⟨fun x hx => (h.current x hx).takes ht, ?_, ?_⟩
  · refine ((h.kv.append_left kv).trans ?_).trans (ht.slots_perm.symm.append_left s.kvGiven)
    exact List.perm_append_comm_assoc _ _ _
  · refine ((h.mamba.append_left _).trans ?_).trans
      ((ht.snapshots_perm.map Prod.snd).symm.append_left s.mambaGiven)
    rw [List.map_append]
    exact List.perm_append_comm_assoc _ _ _

/-- So does giving back. -/
theorem Kept.freed {c : HybridRadixCache} {r : EvictResult} (h : s.Kept) (hsound : c.Sound s.locks)
    (hf : Freed s.cache c r.kvIndices r.mambaSlots) {trace : List (HybridCall × HybridReply)} :
    ({ s with
      cache := c
      matched := s.matched.filter fun x => x.2.node ∈ s.held
      kvGiven := r.kvIndices ++ s.kvGiven
      mambaGiven := r.mambaSlots ++ s.mambaGiven
      trace := trace } : HybridRun).Kept where
  sound := hsound
  current := by
    intro x hx
    obtain ⟨hx, hheld⟩ := List.mem_filter.mp hx
    exact (h.current x hx).freed h.sound hsound hf
      (List.mem_map.mpr ⟨_, of_decide_eq_true hheld, rfl⟩)
  held := by
    intro node hnode
    obtain ⟨x, hx, rfl⟩ := h.held node hnode
    exact ⟨x, List.mem_filter.mpr ⟨hx, decide_eq_true hnode⟩, rfl⟩
  kv := by
    refine h.kv.trans ((hf.pruned.slots_perm.append_left s.kvGiven).trans ?_)
    rw [← List.append_assoc]
    exact List.perm_append_comm.append_right _
  mamba := by
    obtain ⟨gone, hperm, hgone⟩ := hf.snapshots
    have hslots := hperm.map Prod.snd
    rw [List.map_append, hgone] at hslots
    refine h.mamba.trans ((hslots.append_left s.mambaGiven).trans ?_)
    rw [← List.append_assoc]
    exact List.perm_append_comm.append_right _

/-- The node of a match that holds has its snapshot. -/
theorem live_of_current {c : HybridRadixCache} {hs : List RadixCacheHandle} {ids : List Token}
    {m : HybridMatch} (h : c.Current ids m) (hsound : c.Sound hs) :
    ∀ u, m.node = some u → ∃ x ∈ c.tree.marks, x.uuid = u ∧ x.mambaValue.isSome := by
  intro u hu
  obtain ⟨slot, hslot⟩ := Option.isSome_iff_exists.mp (h.live (by rw [hu]; rfl))
  have hsnap := h.snapshot_eq
  rw [hu, hslot, Option.bind_some] at hsnap
  obtain ⟨x, hx, huuid, hvalue⟩ := (Forest.snapshotAt_eq_some hsound.kv.nodup).mp hsnap
  exact ⟨x, hx, huuid, by rw [hvalue]; rfl⟩

/-- Every call of a paired run keeps the invariant. -/
theorem Kept.next {a : HybridCall} (h : s.Kept) (hp : s.Paired a) (hnext : s.next a = some s') :
    s'.Kept := by
  rw [HybridRun.next, Option.map_eq_some_iff] at hnext
  obtain ⟨⟨r, c⟩, hcall, rfl⟩ := hnext
  cases a with
  | matchPrefix ids =>
      cases hcall
      obtain ⟨hcurrent, hkv, hmamba⟩ := h.takes (h.sound.takes_walk ids)
      refine ⟨h.sound.walk ids, fun x hx => ?_, fun node hnode => ?_, hkv, hmamba⟩
      · rcases List.mem_cons.mp hx with rfl | hx
        · exact h.sound.current_matchPrefix ids
        · exact hcurrent x hx
      · obtain ⟨x, hx, hxn⟩ := h.held node hnode
        exact ⟨x, List.mem_cons_of_mem _ hx, hxn⟩
  | insert ids kv slot =>
      rw [call, Option.map_eq_some_iff] at hcall
      obtain ⟨⟨reply, c'⟩, hinsert, heq⟩ := hcall
      cases heq
      obtain ⟨hcurrent, hkv, hmamba⟩ := h.takes (h.sound.takes_insert hinsert)
      refine ⟨h.sound.insert hinsert, hcurrent, h.held, hkv, ?_⟩
      rw [apply_ite (List.map Prod.snd)] at hmamba
      exact hmamba
  | incLock node =>
      cases hcall
      obtain ⟨⟨ids, m⟩, hm, rfl⟩ := hp
      have hlive := live_of_current (h.current _ hm) h.sound
      obtain ⟨hcurrent, hkv, hmamba⟩ := h.takes (h.sound.takes_incLock hlive)
      refine ⟨h.sound.incLock hlive, hcurrent, fun node hnode => ?_, hkv, hmamba⟩
      rcases List.mem_cons.mp hnode with rfl | hnode
      · exact ⟨_, hm, rfl⟩
      · exact h.held node hnode
  | decLock node =>
      rw [call, Option.map_eq_some_iff] at hcall
      obtain ⟨c', hdec, heq⟩ := hcall
      cases heq
      have hsound := h.sound.perm ((List.perm_cons_erase hp).map lockOf)
      obtain ⟨c1, hdec1, hsound1⟩ := SoundBut.decLock hsound
      obtain rfl : c = c1 := Option.some.inj (hdec.symm.trans hdec1)
      obtain ⟨hcurrent, hkv, hmamba⟩ := h.takes (Sound.takes_decLock hsound hdec)
      exact ⟨hsound1, hcurrent, fun n hn => h.held n (List.mem_of_mem_erase hn), hkv, hmamba⟩
  | evictFull num =>
      cases hcall
      obtain ⟨hsound, hfreed, -⟩ := h.sound.evictFull num
      exact h.freed hsound hfreed
  | evictMamba num =>
      cases hcall
      obtain ⟨hsound, hfreed, -⟩ := h.sound.evictMamba num
      exact h.freed hsound hfreed

/-- A run of paired calls keeps it. -/
theorem kept_of_run (hps : 0 < ps) {as : List HybridCall}
    (hall : Run.AllSteps HybridRun.next Paired (start ps) as)
    (h : Run.exec HybridRun.next (start ps) as = some s) : s.Kept :=
  Run.invariant Kept (fun _ _ _ hs hp hn => hs.next hp hn) (kept_start hps) hall h

/-- The sizes are the sums over the nodes, a snapshot is locked only with its node (`full_ref >=
mamba_ref`), a node only with its parent, and every leaf has a snapshot. -/
structure Accounts (c : HybridRadixCache) : Prop where
  evictable_eq : c.kv.evictableSize = c.tree.evictable
  protected_eq : c.kv.protectedSize = c.tree.protectedLen
  mambaEvictable_eq : c.mambaEvictable = c.tree.marks.countP Mark.free
  mambaProtected_eq : c.mambaProtected = c.tree.marks.countP Mark.locked
  mambaRefCount_le : ∀ u a d, c.tree.path u = some (a ++ [d]) → d.mambaRefCount ≤ d.refCount
  refCount_le : ∀ u ds, c.tree.path u = some ds → ds.Pairwise fun p x => x.refCount ≤ p.refCount
  live : ∀ x ∈ c.tree.marks, x.mambaRefCount ≠ 0 → x.mambaValue.isSome
  tips : ∀ y ∈ c.tree.tips, y.mambaValue.isSome

/-- An insertion comes with an index for each token of its whole pages. -/
def Fits (s : HybridRun) : HybridCall → Prop
  | .insert inputIds kvIndices _ =>
      alignDownNat inputIds.length s.cache.kv.pageSize ≤ kvIndices.length
  | _ => True

theorem Kept.accounts (h : s.Kept) : Accounts s.cache where
  evictable_eq := h.sound.kv.evictable_eq
  protected_eq := h.sound.kv.protected_eq
  mambaEvictable_eq := h.sound.tally.evictable_eq
  mambaProtected_eq := h.sound.tally.protected_eq
  mambaRefCount_le := fun _ _ _ hd => h.sound.mambaRefCount_le hd
  refCount_le := fun _ _ hp => Forest.refCount_pairwise h.sound.kv.refOk hp
  live := h.sound.tally.live
  tips := fun _ hy => h.sound.tip hy

/-- A paired call returns. -/
theorem Kept.returns {a : HybridCall} (h : s.Kept) (hp : s.Paired a) (hfits : s.Fits a) :
    ∃ s', s.next a = some s' := by
  have hcall : ∃ r, s.cache.call a = some r := by
    cases a with
    | matchPrefix ids => exact ⟨_, rfl⟩
    | insert ids kv slot =>
        obtain ⟨res, c, hinsert, -⟩ := RadixPrefixCache.insertPrefix_spec h.sound.kv hfits
        rw [call, insert_eq, hinsert]
        exact ⟨_, rfl⟩
    | incLock node => exact ⟨_, rfl⟩
    | decLock node =>
        have hsound := h.sound.perm ((List.perm_cons_erase hp).map lockOf)
        obtain ⟨c, hdec, -⟩ := SoundBut.decLock hsound
        rw [call, hdec]
        exact ⟨_, rfl⟩
    | evictFull num => exact ⟨_, rfl⟩
    | evictMamba num => exact ⟨_, rfl⟩
  obtain ⟨r, hr⟩ := hcall
  rw [HybridRun.next, hr]
  exact ⟨_, rfl⟩

/-- In every run the accounts hold, and every paired call returns. -/
theorem hybrid_accounts (hps : 0 < ps) {as : List HybridCall}
    (hall : Run.AllSteps HybridRun.next Paired (start ps) as)
    (h : Run.exec HybridRun.next (start ps) as = some s) :
    Accounts s.cache ∧ ∀ a, s.Paired a → s.Fits a → ∃ s', s.next a = some s' :=
  ⟨(kept_of_run hps hall h).accounts, fun _ => (kept_of_run hps hall h).returns⟩

/-- Two inputs that share a page, a snapshot where they part, and evictions around a lock. -/
def sharedTurns : List HybridCall :=
  [.insert [1, 2, 3, 4] [10, 11, 12, 13] 100, .insert [1, 2, 5, 6, 7] [20, 21, 22, 23] 101,
    .insert [1, 2] [30, 31] 102, .matchPrefix [1, 2, 3, 4, 9], .incLock (some 0),
    .evictMamba 1, .evictFull 1]

theorem sharedTurns_accounts : ∃ s, Run.exec HybridRun.next (start 2) sharedTurns = some s ∧
    Accounts s.cache ∧ ∀ a, s.Paired a → s.Fits a → ∃ s', s.next a = some s' := by
  obtain ⟨s, hs⟩ : ∃ s, Run.exec HybridRun.next (start 2) sharedTurns = some s :=
    Option.isSome_iff_exists.mp (by decide +kernel)
  exact ⟨s, hs, hybrid_accounts (by decide) (by decide +kernel) hs⟩

/-! ### What is stored -/

/-- What the tree took is what it gave back and what it stores, index by index and snapshot by
snapshot, and a match that is locked reads as it was returned. -/
theorem hybrid_conserves (hps : 0 < ps) {as : List HybridCall}
    (hall : Run.AllSteps HybridRun.next Paired (start ps) as)
    (h : Run.exec HybridRun.next (start ps) as = some s) :
    s.kvTaken.Perm (s.kvGiven ++ s.cache.tree.slots) ∧
      s.mambaTaken.Perm (s.mambaGiven ++ s.cache.tree.snapshots.map Prod.snd) ∧
      ∀ node ∈ s.held, ∃ x ∈ s.matched, x.2.node = node ∧ s.cache.Current x.1 x.2 := by
  have hkept := kept_of_run hps hall h
  refine ⟨hkept.kv, hkept.mamba, fun node hnode => ?_⟩
  obtain ⟨x, hx, hxn⟩ := hkept.held node hnode
  exact ⟨x, hx, hxn, hkept.current x hx⟩

theorem sharedTurns_conserves : ∃ s, Run.exec HybridRun.next (start 2) sharedTurns = some s ∧
    s.kvTaken.Perm (s.kvGiven ++ s.cache.tree.slots) ∧
      s.mambaTaken.Perm (s.mambaGiven ++ s.cache.tree.snapshots.map Prod.snd) ∧
      ∀ node ∈ s.held, ∃ x ∈ s.matched, x.2.node = node ∧ s.cache.Current x.1 x.2 := by
  obtain ⟨s, hs⟩ : ∃ s, Run.exec HybridRun.next (start 2) sharedTurns = some s :=
    Option.isSome_iff_exists.mp (by decide +kernel)
  exact ⟨s, hs, hybrid_conserves (by decide) (by decide +kernel) hs⟩

/-! ### What an eviction frees -/

/-- An eviction that returned `r` and left `c`: it freed `r`, nothing twice and nothing of a locked
match. -/
structure Frees (s : HybridRun) (r : EvictResult) (c : HybridRadixCache) : Prop where
  evictable_eq : c.kv.evictableSize + r.kvIndices.length = s.cache.kv.evictableSize
  protected_eq : c.kv.protectedSize = s.cache.kv.protectedSize
  mambaEvictable_eq : c.mambaEvictable + r.mambaSlots.length = s.cache.mambaEvictable
  slots_perm : s.cache.tree.slots.Perm (r.kvIndices ++ c.tree.slots)
  snapshots_perm : (s.cache.tree.snapshots.map Prod.snd).Perm
    (r.mambaSlots ++ c.tree.snapshots.map Prod.snd)
  locked : ∀ x ∈ s.matched, x.2.node ∈ s.held → c.Current x.1 x.2
  once : s.cache.tree.slots.Nodup → r.kvIndices.Nodup ∧ ∀ i ∈ r.kvIndices, i ∉ c.tree.slots ∧
    ∀ x ∈ s.matched, x.2.node ∈ s.held → i ∉ x.2.kvIndices
  mambaOnce : (s.cache.tree.snapshots.map Prod.snd).Nodup → r.mambaSlots.Nodup ∧
    ∀ slot ∈ r.mambaSlots, slot ∉ c.tree.snapshots.map Prod.snd ∧
      ∀ x ∈ s.matched, x.2.node ∈ s.held → x.2.mambaValue ≠ some slot

/-- A match that holds reads slots and a snapshot of the tree. -/
theorem mem_of_current {c : HybridRadixCache} {hs : List RadixCacheHandle} {ids : List Token}
    {m : HybridMatch} (h : c.Current ids m) (hsound : c.Sound hs) :
    (∀ i ∈ m.kvIndices, i ∈ c.tree.slots) ∧
      ∀ slot, m.mambaValue = some slot → slot ∈ c.tree.snapshots.map Prod.snd := by
  obtain ⟨hspan, -, hsnap, -⟩ := h
  rcases hnode : m.node with _ | u
  · simp only [RadixPrefixCache.handleSpan, lockOf, hnode, Option.some.injEq, Prod.mk.injEq,
      Option.bind_none] at hspan hsnap
    rw [← hspan.2, ← hsnap]
    simp
  · simp only [RadixPrefixCache.handleSpan, lockOf, hnode, Option.bind_some] at hspan hsnap
    constructor
    · intro i hi
      have hin : i ∈ c.kv.tree.valuesTo (some u) := by
        simp only [Forest.span, Option.map_eq_some_iff, Prod.mk.injEq] at hspan
        obtain ⟨ds, hds, -, hvalues⟩ := hspan
        simp only [Forest.valuesTo, Option.bind_some, hds, hvalues]
        exact hi
      exact Forest.mem_slots_of_valuesTo hsound.kv.valid hin
    · intro slot hslot
      rw [hslot] at hsnap
      obtain ⟨x, hx, -, hvalue⟩ := (Forest.snapshotAt_eq_some hsound.kv.nodup).mp hsnap
      exact List.mem_map.mpr ⟨_, Forest.mem_snapshots.mpr ⟨x, hx, rfl, hvalue⟩, rfl⟩

theorem Kept.frees {r : EvictResult} {c : HybridRadixCache} (h : s.Kept)
    (hsound : c.Sound s.locks) (hf : Freed s.cache c r.kvIndices r.mambaSlots) : s.Frees r c := by
  obtain ⟨gone, hperm, hgone⟩ := hf.snapshots
  have hsnapshots := hperm.map Prod.snd
  rw [List.map_append, hgone] at hsnapshots
  have hlocked : ∀ x ∈ s.matched, x.2.node ∈ s.held → c.Current x.1 x.2 := fun x hx hheld =>
    (h.current x hx).freed h.sound hsound hf (List.mem_map.mpr ⟨_, hheld, rfl⟩)
  exact
    { evictable_eq := by
        have hlen := hf.pruned.evictable_eq
        have hbefore := h.sound.kv.evictable_eq
        have hafter := hsound.kv.evictable_eq
        dsimp only [tree] at hlen
        omega
      protected_eq := by
        rw [hsound.kv.protected_eq, h.sound.kv.protected_eq, hf.pruned.protectedLen_eq]
      mambaEvictable_eq := hf.mambaEvictable_eq
      slots_perm := hf.pruned.slots_perm
      snapshots_perm := hsnapshots
      locked := hlocked
      once := by
        intro hn
        obtain ⟨hnodup, -, hdisj⟩ := List.nodup_append'.mp (hf.pruned.slots_perm.nodup_iff.mp hn)
        refine ⟨hnodup, fun i hi => ⟨fun hmem => hdisj hi hmem, fun x hx hheld hin => ?_⟩⟩
        exact hdisj hi ((mem_of_current (hlocked x hx hheld) hsound).1 i hin)
      mambaOnce := by
        intro hn
        obtain ⟨hnodup, -, hdisj⟩ := List.nodup_append'.mp (hsnapshots.nodup_iff.mp hn)
        refine ⟨hnodup, fun slot hi => ⟨fun hmem => hdisj hi hmem, fun x hx hheld hin => ?_⟩⟩
        exact hdisj hi ((mem_of_current (hlocked x hx hheld) hsound).2 slot hin) }

/-- In every run, `evict_full` frees as many tokens as asked for or all that are unlocked, and
`evict_mamba` exactly as many snapshots as asked for or all that are unlocked. -/
theorem hybrid_evicts (hps : 0 < ps) {as : List HybridCall}
    (hall : Run.AllSteps HybridRun.next Paired (start ps) as)
    (h : Run.exec HybridRun.next (start ps) as = some s) (num : Int) :
    (s.Frees (s.cache.evictFull num).1 (s.cache.evictFull num).2 ∧
      min num s.cache.kv.evictableSize ≤ (s.cache.evictFull num).1.kvIndices.length) ∧
    s.Frees (s.cache.evictMamba num).1 (s.cache.evictMamba num).2 ∧
      ((s.cache.evictMamba num).1.mambaSlots.length : Int) =
        min (max num 0) s.cache.mambaEvictable := by
  have hkept := kept_of_run hps hall h
  obtain ⟨hsound, hfreed, henough⟩ := hkept.sound.evictFull num
  obtain ⟨hsound', hfreed', hlen⟩ := hkept.sound.evictMamba num
  exact ⟨⟨hkept.frees hsound hfreed, henough⟩, hkept.frees hsound' hfreed', hlen⟩

theorem sharedTurns_evicts : ∃ s, Run.exec HybridRun.next (start 2) sharedTurns = some s ∧
    (s.Frees (s.cache.evictFull 3).1 (s.cache.evictFull 3).2 ∧
      min 3 s.cache.kv.evictableSize ≤ (s.cache.evictFull 3).1.kvIndices.length) ∧
    s.Frees (s.cache.evictMamba 3).1 (s.cache.evictMamba 3).2 ∧
      ((s.cache.evictMamba 3).1.mambaSlots.length : Int) =
        min (max 3 0) s.cache.mambaEvictable := by
  obtain ⟨s, hs⟩ : ∃ s, Run.exec HybridRun.next (start 2) sharedTurns = some s :=
    Option.isSome_iff_exists.mp (by decide +kernel)
  exact ⟨s, hs, hybrid_evicts (by decide) (by decide +kernel) hs 3⟩

/-! ### Donated, returned, rejected -/

/-- The indices a call brings. -/
def offeredKv : HybridCall × HybridReply → List Slot
  | (.insert _ kvIndices _, _) => kvIndices
  | _ => []

/-- Those of them that stand for tokens the tree had. -/
def rejectedKv : HybridCall × HybridReply → List Slot
  | (.insert _ kvIndices _, .inserted matchedPrefixLen _) => kvIndices.take matchedPrefixLen
  | _ => []

def returnedKv : HybridCall × HybridReply → List Slot
  | (_, .evicted r) => r.kvIndices
  | _ => []

/-- The snapshot a call brings. -/
def offeredMamba : HybridCall × HybridReply → List Slot
  | (.insert _ _ mambaValue, _) => [mambaValue]
  | _ => []

/-- `mamba_exist`: the caller keeps it. -/
def rejectedMamba : HybridCall × HybridReply → List Slot
  | (.insert _ _ mambaValue, .inserted _ true) => [mambaValue]
  | _ => []

def returnedMamba : HybridCall × HybridReply → List Slot
  | (_, .evicted r) => r.mambaSlots
  | _ => []

/-- What evictions returned and insertions rejected was brought in, each index and each snapshot at
least as often. -/
structure AtMostOnce (s : HybridRun) : Prop where
  kv : (s.trace.flatMap returnedKv ++ s.trace.flatMap rejectedKv).Subperm
    (s.trace.flatMap offeredKv)
  mamba : (s.trace.flatMap returnedMamba ++ s.trace.flatMap rejectedMamba).Subperm
    (s.trace.flatMap offeredMamba)

/-- The record of a run against its calls. -/
structure Recorded (s : HybridRun) : Prop where
  kvGiven_eq : s.kvGiven = s.trace.flatMap returnedKv
  mambaGiven_eq : s.mambaGiven = s.trace.flatMap returnedMamba
  kv : (s.kvTaken ++ s.trace.flatMap rejectedKv).Subperm (s.trace.flatMap offeredKv)
  mamba : (s.mambaTaken ++ s.trace.flatMap rejectedMamba).Subperm (s.trace.flatMap offeredMamba)

/-- Two parts of what is new, before two of what there was. -/
theorem subperm_append {new old a b c d : List Slot} (hnew : (a ++ b).Subperm new)
    (hold : (c ++ d).Subperm old) : ((a ++ c) ++ (b ++ d)).Subperm (new ++ old) := by
  have hperm : ((a ++ c) ++ (b ++ d)).Perm ((a ++ b) ++ (c ++ d)) := by
    rw [List.append_assoc, List.append_assoc]
    refine (List.Perm.append_left a ?_)
    rw [← List.append_assoc, ← List.append_assoc]
    exact List.perm_append_comm.append_right d
  exact hperm.subperm.trans (hnew.append hold)

/-- Of the indices of an insertion, those before what was found are rejected and the others of the
whole pages taken. -/
theorem subperm_split (kv : List Slot) (whole found : Nat) :
    ((kv.take whole).drop found ++ kv.take found).Subperm kv := by
  have hsub : (kv.take found ++ (kv.take whole).drop found).Sublist kv := by
    have hdrop : ((kv.take whole).drop found).Sublist (kv.drop found) := by
      rw [List.drop_take]
      exact List.take_sublist _ _
    have happend := hdrop.append_left (kv.take found)
    rwa [List.take_append_drop] at happend
  exact List.perm_append_comm.subperm.trans hsub.subperm

theorem Recorded.next {a : HybridCall} (h : s.Recorded) (hnext : s.next a = some s') :
    s'.Recorded := by
  rw [HybridRun.next, Option.map_eq_some_iff] at hnext
  obtain ⟨⟨r, c⟩, hcall, rfl⟩ := hnext
  cases a with
  | matchPrefix ids =>
      cases hcall
      exact ⟨h.kvGiven_eq, h.mambaGiven_eq, h.kv, h.mamba⟩
  | insert ids kv slot =>
      rw [call, Option.map_eq_some_iff] at hcall
      obtain ⟨⟨⟨found, exist⟩, c'⟩, -, heq⟩ := hcall
      cases heq
      refine ⟨h.kvGiven_eq, h.mambaGiven_eq, subperm_append (subperm_split _ _ _) h.kv,
        subperm_append ?_ h.mamba⟩
      cases exist <;> exact List.Subperm.refl _
  | incLock node =>
      cases hcall
      exact ⟨h.kvGiven_eq, h.mambaGiven_eq, h.kv, h.mamba⟩
  | decLock node =>
      rw [call, Option.map_eq_some_iff] at hcall
      obtain ⟨c', -, heq⟩ := hcall
      cases heq
      exact ⟨h.kvGiven_eq, h.mambaGiven_eq, h.kv, h.mamba⟩
  | evictFull num =>
      cases hcall
      exact ⟨congrArg _ h.kvGiven_eq, congrArg _ h.mambaGiven_eq, h.kv, h.mamba⟩
  | evictMamba num =>
      cases hcall
      exact ⟨congrArg _ h.kvGiven_eq, congrArg _ h.mambaGiven_eq, h.kv, h.mamba⟩

theorem recorded_of_run {as : List HybridCall}
    (h : Run.exec HybridRun.next (start ps) as = some s) : s.Recorded :=
  Run.invariant_of_all Recorded (fun _ _ _ hs hn => hs.next hn)
    ⟨rfl, rfl, List.Subperm.refl _, List.Subperm.refl _⟩ h

/-- What is returned was taken, and what is taken was not rejected. -/
theorem Kept.atMostOnce (h : s.Kept) (hr : s.Recorded) : s.AtMostOnce where
  kv := by
    have hgiven : s.kvGiven.Subperm s.kvTaken :=
      (List.sublist_append_left _ _).subperm.trans h.kv.symm.subperm
    rw [← hr.kvGiven_eq]
    exact (hgiven.append (List.Subperm.refl _)).trans hr.kv
  mamba := by
    have hgiven : s.mambaGiven.Subperm s.mambaTaken :=
      (List.sublist_append_left _ _).subperm.trans h.mamba.symm.subperm
    rw [← hr.mambaGiven_eq]
    exact (hgiven.append (List.Subperm.refl _)).trans hr.mamba

/-- An eviction that left `c` spared what is locked: the nodes down to each locked one span the
tokens and indices of its match, and it has the snapshot of the match. -/
def Spares (s : HybridRun) (c : HybridRadixCache) : Prop :=
  ∀ node ∈ s.held, ∃ x ∈ s.matched, x.2.node = node ∧ s.cache.Current x.1 x.2 ∧ c.Current x.1 x.2

theorem Kept.spares {r : EvictResult} {c : HybridRadixCache} (h : s.Kept)
    (hsound : c.Sound s.locks) (hf : Freed s.cache c r.kvIndices r.mambaSlots) : s.Spares c := by
  intro node hnode
  obtain ⟨x, hx, rfl⟩ := h.held node hnode
  exact ⟨x, hx, rfl, h.current x hx, (h.current x hx).freed h.sound hsound hf
    (List.mem_map.mpr ⟨_, hnode, rfl⟩)⟩

/-- In every run the counters are the sums, the locks stand in their order below the root, an
eviction spares what is locked and frees enough, and nothing is returned or rejected more often
than it was brought in. -/
theorem hybrid_invariants (hps : 0 < ps) {as : List HybridCall}
    (hall : Run.AllSteps HybridRun.next Paired (start ps) as)
    (h : Run.exec HybridRun.next (start ps) as = some s) :
    Accounts s.cache ∧ s.AtMostOnce ∧ ∀ num,
      s.Spares (s.cache.evictFull num).2 ∧ s.Spares (s.cache.evictMamba num).2 ∧
      min num s.cache.kv.evictableSize ≤ (s.cache.evictFull num).1.kvIndices.length := by
  have hkept := kept_of_run hps hall h
  refine ⟨hkept.accounts, hkept.atMostOnce (recorded_of_run h), fun num => ?_⟩
  obtain ⟨hsound, hfreed, henough⟩ := hkept.sound.evictFull num
  obtain ⟨hsound', hfreed', -⟩ := hkept.sound.evictMamba num
  exact ⟨hkept.spares hsound hfreed, hkept.spares hsound' hfreed', henough⟩

theorem sharedTurns_invariants : ∃ s, Run.exec HybridRun.next (start 2) sharedTurns = some s ∧
    Accounts s.cache ∧ s.AtMostOnce ∧ ∀ num,
      s.Spares (s.cache.evictFull num).2 ∧ s.Spares (s.cache.evictMamba num).2 ∧
      min num s.cache.kv.evictableSize ≤ (s.cache.evictFull num).1.kvIndices.length := by
  obtain ⟨s, hs⟩ : ∃ s, Run.exec HybridRun.next (start 2) sharedTurns = some s :=
    Option.isSome_iff_exists.mp (by decide +kernel)
  exact ⟨s, hs, hybrid_invariants (by decide) (by decide +kernel) hs⟩

/-- `root.ref_count`: 1 from `__init__` on, as `inc_lock` and `dec_lock` stop below the root. -/
def rootRefCount : Nat := 1

/-- A child of the root, locked for two matches. -/
def lockedTwice : List HybridCall :=
  [.insert [5] [0] 100, .matchPrefix [5], .incLock (some 0), .matchPrefix [5], .incLock (some 0)]

theorem lockedTwice_exceeds_root : Run.AllSteps HybridRun.next Paired (start 1) lockedTwice ∧
    ∃ s, Run.exec HybridRun.next (start 1) lockedTwice = some s ∧
      ∃ d, s.cache.tree.path 0 = some [d] ∧ rootRefCount < d.refCount := by
  refine ⟨by decide +kernel,
    (Run.exec HybridRun.next (start 1) lockedTwice).getD (start 1), by decide +kernel, ?_⟩
  exact ⟨{ uuid := 0, key := [5], value := [0], refCount := 2, timestamp := 3
           mambaValue := some 100, mambaRefCount := 2 }, by decide +kernel, by decide⟩

end HybridRun

end FreeToken
