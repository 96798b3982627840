import FreeToken.KVCache.RadixEvict

/-!
# The radix cache, operation by operation

`WellFormed c hs` is the cache's invariant while the handles `hs` are locked.
Each operation keeps it and says what it does to the stored prefixes and to the
spans of handles. Callers use these statements and never unfold an operation.
-/

namespace FreeToken

/-- How many of the locked handles point at a node. -/
def holdersAt (hs : List RadixCacheHandle) (u : Nat) : Nat :=
  hs.countP fun h => h.node = some u

theorem holdersAt_cons (h : RadixCacheHandle) (hs : List RadixCacheHandle) (u : Nat) :
    holdersAt (h :: hs) u = holdersAt hs u + if h.node = some u then 1 else 0 := by
  simp [holdersAt, List.countP_cons]

theorem holdersAt_perm {hs hs' : List RadixCacheHandle} (h : hs.Perm hs') :
    holdersAt hs = holdersAt hs' := by
  funext u
  exact h.countP_eq _

theorem exists_of_holdersAt_ne_zero {hs : List RadixCacheHandle} {u : Nat}
    (h : holdersAt hs u ≠ 0) : ∃ x ∈ hs, x.node = some u := by
  have hpos : 0 < hs.countP fun h => h.node = some u := Nat.pos_of_ne_zero h
  obtain ⟨x, hx, hnode⟩ := List.countP_pos_iff.mp hpos
  exact ⟨x, hx, by simpa using hnode⟩

theorem holdersAt_ne_zero {hs : List RadixCacheHandle} {u : Nat} {x : RadixCacheHandle}
    (hx : x ∈ hs) (hnode : x.node = some u) : holdersAt hs u ≠ 0 := by
  have hpos : 0 < hs.countP fun h => h.node = some u :=
    List.countP_pos_iff.mpr ⟨x, hx, by simpa using hnode⟩
  exact hpos.ne'

namespace RadixPrefixCache

/-- The invariant of the cache while exactly the handles `hs` are locked. -/
structure WellFormed (c : RadixPrefixCache) (hs : List RadixCacheHandle) : Prop where
  pageSize_pos : 0 < c.pageSize
  valid : c.tree.Valid c.pageSize
  nodup : c.tree.uuids.Nodup
  fresh : ∀ u ∈ c.tree.uuids, u < c.counter
  refOk : c.tree.RefOk (holdersAt hs)
  held : ∀ h ∈ hs, ∀ u, h.node = some u → u ∈ c.tree.uuids
  evictable_eq : c.evictableSize = c.tree.evictable
  protected_eq : c.protectedSize = c.tree.protectedLen

/-- The tokens and slots a handle stands for. -/
def handleSpan (c : RadixPrefixCache) (h : RadixCacheHandle) : Option (List Token × List Slot) :=
  match h.node with
  | none => some ([], [])
  | some u => c.tree.span u

/-- The same prefixes are stored, and every node keeps its span. -/
structure Keeps (c c' : RadixPrefixCache) : Prop where
  pageSize_eq : c'.pageSize = c.pageSize
  entries_eq : c'.tree.entries = c.tree.entries
  span_eq : ∀ u ∈ c.tree.uuids, u ∈ c'.tree.uuids ∧ c'.tree.span u = c.tree.span u

namespace Keeps

variable {c c' c'' : RadixPrefixCache}

theorem refl (c : RadixPrefixCache) : Keeps c c := ⟨rfl, rfl, fun _ h => ⟨h, rfl⟩⟩

theorem trans (h : Keeps c c') (h' : Keeps c' c'') : Keeps c c'' where
  pageSize_eq := h'.pageSize_eq.trans h.pageSize_eq
  entries_eq := h'.entries_eq.trans h.entries_eq
  span_eq := by
    intro u hu
    obtain ⟨hu', hspan⟩ := h.span_eq u hu
    obtain ⟨hu'', hspan'⟩ := h'.span_eq u hu'
    exact ⟨hu'', hspan'.trans hspan⟩

theorem slots_eq (h : Keeps c c') : c'.tree.slots = c.tree.slots := by
  rw [Forest.slots, h.entries_eq, Forest.slots]

theorem handleSpan_eq (h : Keeps c c') {x : RadixCacheHandle}
    (hx : ∀ u, x.node = some u → u ∈ c.tree.uuids) : c'.handleSpan x = c.handleSpan x := by
  unfold handleSpan
  cases hnode : x.node with
  | none => rfl
  | some u => exact (h.span_eq u (hx u hnode)).2

end Keeps

variable {c : RadixPrefixCache} {hs : List RadixCacheHandle}

theorem wellFormed_init {ps : Nat} (hps : 0 < ps) : WellFormed { pageSize := ps } [] where
  pageSize_pos := hps
  valid := trivial
  nodup := List.nodup_nil
  fresh := by simp [Forest.uuids]
  refOk := trivial
  held := by simp
  evictable_eq := rfl
  protected_eq := rfl

theorem WellFormed.perm {hs' : List RadixCacheHandle} (hw : c.WellFormed hs) (h : hs.Perm hs') :
    c.WellFormed hs' :=
  { hw with
    refOk := holdersAt_perm h ▸ hw.refOk
    held := fun x hx => hw.held x (h.mem_iff.mpr hx) }

theorem WellFormed.holdersAt_eq_zero (hw : c.WellFormed hs) {u : Nat} (h : u ∉ c.tree.uuids) :
    holdersAt hs u = 0 := by
  by_contra hne
  obtain ⟨x, hx, hnode⟩ := exists_of_holdersAt_ne_zero hne
  exact h (hw.held x hx u hnode)

theorem WellFormed.counter_notMem (hw : c.WellFormed hs) : c.counter ∉ c.tree.uuids :=
  fun h => lt_irrefl _ (hw.fresh _ h)

theorem handleSpan_eq_of_path {h : RadixCacheHandle} {u : Nat} {ds : List RadixTreeNode}
    (hnode : h.node = some u) (hp : c.tree.path u = some ds) :
    c.handleSpan h = some (ds.flatMap fun d => d.key, ds.flatMap fun d => d.value) := by
  simp [handleSpan, hnode, Forest.span, hp]

theorem getMatchedIndices_eq {h : RadixCacheHandle} {toks : List Token} {slots : List Slot}
    (hspan : c.handleSpan h = some (toks, slots)) : c.getMatchedIndices h = slots := by
  unfold handleSpan at hspan
  unfold getMatchedIndices
  cases hnode : h.node with
  | none =>
      simp only [hnode, Option.some.injEq, Prod.mk.injEq] at hspan
      simp [hspan.2.symm]
  | some u =>
      simp only [hnode, Forest.span, Option.map_eq_some_iff, Prod.mk.injEq] at hspan
      obtain ⟨ds, hds, -, rfl⟩ := hspan
      simp [hds]

/-! ### `match_prefix` -/

/-- What a walk over `ids` leaves: the cache `c'` and the result `m`. -/
structure Matched (c : RadixPrefixCache) (hs : List RadixCacheHandle) (ids : List Token)
    (m : MatchResult) (c' : RadixPrefixCache) : Prop where
  wellFormed : c'.WellFormed hs
  keeps : Keeps c c'
  evictableSize_eq : c'.evictableSize = c.evictableSize
  protectedSize_eq : c'.protectedSize = c.protectedSize
  dvd_cachedLen : c.pageSize ∣ m.cachedLen
  cachedLen_le : m.cachedLen ≤ ids.length
  span_eq : ∃ slots, c'.handleSpan m.handle = some (ids.take m.cachedLen, slots) ∧
    slots.length = m.cachedLen
  node_mem : ∀ u, m.handle.node = some u → u ∈ c'.tree.uuids ∧ 0 < m.cachedLen
  root : m.handle.node = none → m.cachedLen = 0 ∧ c'.tree = c.tree
  longest : ∀ q s, (q, s) ∈ c.tree.entries → q <+: ids → c.pageSize ∣ q.length →
    q.length ≤ m.cachedLen

theorem treeWalk_spec (hw : c.WellFormed hs) (ids : List Token) :
    Matched c hs ids
      { cachedLen := (c.treeWalk ids).1.prefixLen
        handle := { cachedLen := (c.treeWalk ids).1.prefixLen, node := (c.treeWalk ids).1.node } }
      (c.treeWalk ids).2 := by
  have hsplit : Resplit c.pageSize c.counter c.tree (c.treeWalk ids).1.tree :=
    Forest.treeWalk_resplit hw.pageSize_pos hw.valid
  obtain ⟨hcounter, hsame⟩ := @Forest.treeWalk_counter c.pageSize c.clock c.counter
    c.tree none ids
  obtain ⟨hdvd, hle⟩ := @Forest.treeWalk_prefixLen c.pageSize c.clock c.counter c.tree none
    ids hw.valid
  have hnode := @Forest.treeWalk_node c.pageSize c.clock c.counter
    hw.pageSize_pos c.tree none ids hw.valid hw.counter_notMem hw.nodup
  have huuids : ∀ v ∈ c.tree.uuids, v ∈ (c.treeWalk ids).1.tree.uuids := by
    intro v hv
    rcases hsplit.uuids_perm with h | h
    · rwa [h]
    · exact h.mem_iff.mpr (List.mem_cons_of_mem _ hv)
  refine
    { wellFormed :=
        { pageSize_pos := hw.pageSize_pos
          valid := hsplit.valid hw.valid
          nodup := ?_
          fresh := ?_
          refOk := hsplit.refOk (hw.holdersAt_eq_zero hw.counter_notMem) hw.refOk
          held := fun x hx u hu => huuids u (hw.held x hx u hu)
          evictable_eq := hw.evictable_eq.trans (congrArg _ hsplit.evictable_eq.symm)
          protected_eq := hw.protected_eq.trans (congrArg _ hsplit.protectedLen_eq.symm) }
      keeps := ⟨rfl, hsplit.entries_eq hw.valid,
        fun u hu => ⟨huuids u hu, hsplit.span_eq hw.counter_notMem hu⟩⟩
      evictableSize_eq := rfl
      protectedSize_eq := rfl
      dvd_cachedLen := hdvd
      cachedLen_le := hle
      span_eq := ?_
      node_mem := ?_
      root := ?_
      longest := fun q s hq hpre hdvd =>
        Forest.le_treeWalk_prefixLen hw.pageSize_pos none hw.valid hq hpre hdvd }
  · show (c.treeWalk ids).1.tree.uuids.Nodup
    rcases hsplit.uuids_perm with h | h
    · rw [h]
      exact hw.nodup
    · exact h.nodup_iff.mpr (List.nodup_cons.mpr ⟨hw.counter_notMem, hw.nodup⟩)
  · intro u hu
    show u < (c.treeWalk ids).1.counter
    by_cases hc : (c.treeWalk ids).1.counter = c.counter
    · have hmem : u ∈ c.tree.uuids := by
        rw [← hsame hc]
        exact hu
      rw [hc]
      exact hw.fresh u hmem
    · have hlt : c.counter < (c.treeWalk ids).1.counter := lt_of_le_of_ne hcounter (Ne.symm hc)
      rcases hsplit.uuids_perm with h | h
      · have hmem : u ∈ c.tree.uuids := by
          rw [← h]
          exact hu
        exact (hw.fresh u hmem).trans hlt
      · rcases List.mem_cons.mp (h.mem_iff.mp hu) with rfl | hmem
        · exact hlt
        · exact (hw.fresh u hmem).trans hlt
  · rcases hnode with ⟨hnone, hzero, -⟩ | ⟨u, slots, hu, -, -, -, hspan, hslots⟩
    · refine ⟨[], ?_, hzero.symm⟩
      show (match (c.treeWalk ids).1.node with
        | none => some ([], [])
        | some u => (c.treeWalk ids).2.tree.span u) = _
      rw [show (c.treeWalk ids).1.node = none from hnone,
        show (c.treeWalk ids).1.prefixLen = 0 from hzero]
      rfl
    · refine ⟨slots, ?_, hslots⟩
      show (match (c.treeWalk ids).1.node with
        | none => some ([], [])
        | some u => (c.treeWalk ids).2.tree.span u) = _
      rw [show (c.treeWalk ids).1.node = some u from hu]
      exact hspan
  · intro v hv
    rcases hnode with ⟨hnone, -, -⟩ | ⟨u, slots, hu, hpos, hmem, -, -, -⟩
    · exact absurd (hnone.symm.trans hv) (by simp)
    · obtain rfl : u = v := by
        have := hu.symm.trans hv
        simpa using this
      exact ⟨hmem, hpos⟩
  · intro hv
    rcases hnode with ⟨-, hzero, htree⟩ | ⟨u, slots, hu, -, -, -, -, -⟩
    · exact ⟨hzero, htree⟩
    · exact absurd (hu.symm.trans hv) (by simp)

theorem matchPrefix_spec (hw : c.WellFormed hs) (ids : List Token) :
    Matched c hs ids (c.matchPrefix ids).1 (c.matchPrefix ids).2 :=
  treeWalk_spec hw ids

/-! ### `lock_handle` -/

theorem keeps_mapPath (c : RadixPrefixCache) (u : Nat) (g : Nat → Nat) (evictable protectd : Int) :
    Keeps c { c with
      tree := c.tree.mapPath u g, evictableSize := evictable, protectedSize := protectd } where
  pageSize_eq := rfl
  entries_eq := Forest.entries_mapPath g c.tree
  span_eq := fun v hv =>
    ⟨by rw [Forest.uuids_mapPath]; exact hv, Forest.span_mapPath g v c.tree⟩

theorem lock_spec (hw : c.WellFormed hs) {h : RadixCacheHandle}
    (hmem : ∀ u, h.node = some u → u ∈ c.tree.uuids) :
    (c.lock h).WellFormed (h :: hs) ∧ Keeps c (c.lock h) ∧
      (h.node = none → c.lock h = c) := by
  cases hnode : h.node with
  | none =>
      have hsame : c.lock h = c := by simp [lock, hnode]
      refine ⟨?_, by rw [hsame]; exact Keeps.refl c, fun _ => hsame⟩
      rw [hsame]
      have hholders : holdersAt (h :: hs) = holdersAt hs := by
        funext u
        simp [holdersAt_cons, hnode]
      refine { hw with refOk := hholders ▸ hw.refOk, held := ?_ }
      intro x hx v hv
      rcases List.mem_cons.mp hx with rfl | hx
      · rw [hnode] at hv
        cases hv
      · exact hw.held x hx v hv
  | some u =>
      obtain ⟨ds, hds⟩ := Forest.exists_path (hmem u hnode)
      have hlock : c.lock h =
          { c with
            tree := c.tree.mapPath u (· + 1)
            evictableSize := c.evictableSize - pathLength 0 ds
            protectedSize := c.protectedSize + pathLength 0 ds } := by
        simp [lock, hnode, hds]
      obtain ⟨hev, hpr⟩ := Forest.sizes_lock hds
      have hev' := hw.evictable_eq
      have hpr' := hw.protected_eq
      have hother : ∀ v, v ≠ u → holdersAt (h :: hs) v = holdersAt hs v := fun v hv => by
        have hne : ¬ u = v := fun h => hv h.symm
        simp [holdersAt_cons, hnode, hne]
      have hcounts := Forest.refOk_mapPath (a := 1) (b := 0) hother
        (by simp [holdersAt_cons, hnode]) (hmem u hnode) hw.nodup (Nat.zero_le _) hw.refOk
      rw [hlock]
      refine ⟨?_, keeps_mapPath c u _ _ _, by simp⟩
      exact
        { pageSize_pos := hw.pageSize_pos
          valid := Forest.valid_mapPath _ hw.valid
          nodup := by rw [Forest.uuids_mapPath]; exact hw.nodup
          fresh := by rw [Forest.uuids_mapPath]; exact hw.fresh
          refOk := hcounts.1
          held := by
            intro x hx v hv
            rw [Forest.uuids_mapPath]
            rcases List.mem_cons.mp hx with rfl | hx
            · exact hmem v hv
            · exact hw.held x hx v hv
          evictable_eq := by
            dsimp only
            omega
          protected_eq := by
            dsimp only
            omega }

theorem unlock_spec {h : RadixCacheHandle} (hw : c.WellFormed (h :: hs)) :
    ∃ c', c.unlock h = some c' ∧ c'.WellFormed hs ∧ Keeps c c' := by
  cases hnode : h.node with
  | none =>
      have hsame : c.unlock h = some c := by simp [unlock, hnode]
      have hholders : holdersAt (h :: hs) = holdersAt hs := by
        funext u
        simp [holdersAt_cons, hnode]
      exact ⟨c, hsame,
        { hw with
          refOk := hholders ▸ hw.refOk
          held := fun x hx => hw.held x (List.mem_cons_of_mem _ hx) }, Keeps.refl c⟩
  | some u =>
      have hu := hw.held h List.mem_cons_self u hnode
      obtain ⟨ds, hds⟩ := Forest.exists_path hu
      have hheld : holdersAt (h :: hs) u = holdersAt hs u + 1 := by simp [holdersAt_cons, hnode]
      have hpos : ∀ d ∈ ds, d.refCount ≠ 0 := by
        intro d hd
        have := (Forest.held_le_refCount hw.refOk hds).2 d hd
        omega
      have hany : ds.any (fun d => d.refCount == 0) = false := by
        rw [List.any_eq_false]
        intro d hd
        simpa using hpos d hd
      have hunlock : c.unlock h = some
          { c with
            tree := c.tree.mapPath u (· - 1)
            evictableSize := c.evictableSize + pathLength 1 ds
            protectedSize := c.protectedSize - pathLength 1 ds } := by
        simp [unlock, hnode, hds, hany]
      obtain ⟨hev, hpr⟩ := Forest.sizes_unlock hds hpos
      have hev' := hw.evictable_eq
      have hpr' := hw.protected_eq
      have hother : ∀ v, v ≠ u → holdersAt hs v = holdersAt (h :: hs) v := fun v hv => by
        have hne : ¬ u = v := fun h => hv h.symm
        simp [holdersAt_cons, hnode, hne]
      have hcounts := Forest.refOk_mapPath (a := 0) (b := 1) hother
        (by omega) hu hw.nodup (by omega) hw.refOk
      refine ⟨_, hunlock, ?_, keeps_mapPath c u _ _ _⟩
      exact
        { pageSize_pos := hw.pageSize_pos
          valid := Forest.valid_mapPath _ hw.valid
          nodup := by rw [Forest.uuids_mapPath]; exact hw.nodup
          fresh := by rw [Forest.uuids_mapPath]; exact hw.fresh
          refOk := hcounts.1
          held := by
            intro x hx v hv
            rw [Forest.uuids_mapPath]
            exact hw.held x (List.mem_cons_of_mem _ hx) v hv
          evictable_eq := by
            dsimp only
            omega
          protected_eq := by
            dsimp only
            omega }

/-! ### `insert_prefix` -/

/-- What the tree takes of a committed sequence: its whole pages past what it
stored already. -/
def newEntries (ps cachedLen : Nat) (ids : List Token) (slots : List Slot) :
    List (List Token × Slot) :=
  below (ids.take cachedLen)
    (spanEntries ((ids.take (alignDownNat ids.length ps)).drop cachedLen)
      ((slots.take (alignDownNat ids.length ps)).drop cachedLen))

theorem mem_newEntries {ps n : Nat} {ids : List Token} {slots : List Slot}
    (hn : n ≤ alignDownNat ids.length ps) {q : List Token} {s : Slot} :
    (q, s) ∈ newEntries ps n ids slots ↔
      ∃ j, n ≤ j ∧ j < alignDownNat ids.length ps ∧ slots[j]? = some s ∧ q = ids.take (j + 1) := by
  have hL := alignDownNat_le ids.length ps
  have htake : ∀ i, ids.take n ++ ((ids.take (alignDownNat ids.length ps)).drop n).take (i + 1) =
      (ids.take (alignDownNat ids.length ps)).take (n + i + 1) := by
    intro i
    have hpre : ids.take n = (ids.take (alignDownNat ids.length ps)).take n := by
      rw [List.take_take, Nat.min_eq_left hn]
    rw [hpre, ← List.take_add, Nat.add_assoc]
  simp only [newEntries, mem_below, mem_spanEntries, List.length_drop, List.length_take,
    Nat.min_eq_left hL]
  constructor
  · rintro ⟨q', ⟨i, hi, hs, rfl⟩, rfl⟩
    have hlt : n + i < alignDownNat ids.length ps := by omega
    refine ⟨n + i, by omega, hlt, ?_, ?_⟩
    · rw [List.getElem?_drop, List.getElem?_take, if_pos hlt] at hs
      exact hs
    · rw [htake, List.take_take]
      congr 1
      omega
  · rintro ⟨j, hj, hlt, hs, rfl⟩
    refine ⟨_, ⟨j - n, by omega, ?_, rfl⟩, ?_⟩
    · rw [List.getElem?_drop, List.getElem?_take, if_pos (by omega)]
      rw [← hs]
      congr 1
      omega
    · rw [htake, List.take_take]
      congr 1
      omega

theorem map_snd_newEntries {ps n : Nat} {ids : List Token} {slots : List Slot}
    (hfit : alignDownNat ids.length ps ≤ slots.length) :
    (newEntries ps n ids slots).map Prod.snd = (slots.take (alignDownNat ids.length ps)).drop n := by
  have hL := alignDownNat_le ids.length ps
  rw [newEntries, map_snd_below, map_snd_spanEntries]
  simp only [List.length_drop, List.length_take]
  omega

structure Inserted (c : RadixPrefixCache) (hs : List RadixCacheHandle) (ids : List Token)
    (slots : List Slot) (cachedLen : Nat) (c' : RadixPrefixCache) : Prop where
  wellFormed : c'.WellFormed hs
  pageSize_eq : c'.pageSize = c.pageSize
  span_eq : ∀ u ∈ c.tree.uuids, u ∈ c'.tree.uuids ∧ c'.tree.span u = c.tree.span u
  dvd_cachedLen : c.pageSize ∣ cachedLen
  cachedLen_le : cachedLen ≤ alignDownNat ids.length c.pageSize
  entries_perm : c'.tree.entries.Perm (c.tree.entries ++ newEntries c.pageSize cachedLen ids slots)
  longest : ∀ q s, (q, s) ∈ c.tree.entries → q <+: ids → c.pageSize ∣ q.length →
    q.length ≤ cachedLen

theorem prefix_take_alignDownNat {q ids : List Token} {ps : Nat} (hpre : q <+: ids)
    (hdvd : ps ∣ q.length) : q <+: ids.take (alignDownNat ids.length ps) :=
  List.prefix_take_iff.mpr ⟨hpre, le_alignDownNat hdvd hpre.length_le⟩

/-- The leaf that an insertion attaches after a walk. -/
def newLeaf (c : RadixPrefixCache) (ids : List Token) (slots : List Slot) (cachedLen ps : Nat) :
    RadixTreeNode where
  uuid := c.counter
  key := (ids.take (alignDownNat ids.length ps)).drop cachedLen
  value := (slots.take (alignDownNat ids.length ps)).drop cachedLen
  timestamp := c.clock

/-- Past the walk, the rest of the whole pages becomes a new leaf. -/
theorem WellFormed.attached_newLeaf (hw : c.WellFormed hs) {ids : List Token} {slots : List Slot}
    (hslots : alignDownNat ids.length c.pageSize ≤ slots.length) {w : WalkResult}
    {c1 : RadixPrefixCache}
    (hwalk : c.treeWalk (ids.take (alignDownNat ids.length c.pageSize)) = (w, c1))
    (hall : w.prefixLen ≠ alignDownNat ids.length c.pageSize) :
    Forest.IsLeaf c.pageSize (c1.newLeaf ids slots w.prefixLen c.pageSize) ∧
      Forest.Attached c.pageSize (holdersAt hs) (ids.take w.prefixLen)
        (c1.newLeaf ids slots w.prefixLen c.pageSize) c1.tree
        (c1.setParent w.node (c1.newLeaf ids slots w.prefixLen c.pageSize)) := by
  have hL : alignDownNat ids.length c.pageSize ≤ ids.length := alignDownNat_le _ _
  have hm := treeWalk_spec hw (ids.take (alignDownNat ids.length c.pageSize))
  rw [hwalk] at hm
  simp only at hm
  have hle : w.prefixLen ≤ alignDownNat ids.length c.pageSize := by
    have := hm.cachedLen_le
    simp only [List.length_take] at this
    omega
  have htake : (ids.take (alignDownNat ids.length c.pageSize)).take w.prefixLen =
      ids.take w.prefixLen := by
    rw [List.take_take, Nat.min_eq_left hle]
  have hps : c1.pageSize = c.pageSize := hm.keeps.pageSize_eq
  generalize hnew : c1.newLeaf ids slots w.prefixLen c.pageSize = new
  have hkey : new.key = (ids.take (alignDownNat ids.length c.pageSize)).drop w.prefixLen := by
    rw [← hnew, newLeaf]
  have huuid : new.uuid = c1.counter := by rw [← hnew, newLeaf]
  have hkeylen : new.key.length = alignDownNat ids.length c.pageSize - w.prefixLen := by
    rw [hkey, List.length_drop, List.length_take, Nat.min_eq_left hL]
  have hvallen : new.value.length = alignDownNat ids.length c.pageSize - w.prefixLen := by
    rw [← hnew, newLeaf, List.length_drop, List.length_take, Nat.min_eq_left hslots]
  have hleaf : Forest.IsLeaf c.pageSize new := by
    refine ⟨fun hnil => ?_, ?_, hkeylen.trans hvallen.symm, by rw [← hnew, newLeaf]⟩
    · rw [hnil, List.length_nil] at hkeylen
      omega
    · rw [hkeylen]
      exact Nat.dvd_sub (dvd_alignDownNat _ _) hm.dvd_cachedLen
  have hfresh : new.uuid ∉ c1.tree.uuids := huuid ▸ hm.wellFormed.counter_notMem
  have hheld : holdersAt hs new.uuid = 0 := hm.wellFormed.holdersAt_eq_zero hfresh
  have hpage : c.pageSize ≤ new.key.length :=
    Nat.le_of_dvd (List.length_pos_of_ne_nil hleaf.key_ne_nil) hleaf.dvd_key
  -- the walk would have gone on along a child with the leaf's first page
  have hnot : ∀ s, (ids.take w.prefixLen ++ keyFn c.pageSize new.key, s) ∉ c1.tree.entries := by
    intro s hs
    rw [hm.keeps.entries_eq] at hs
    have hpre : ids.take w.prefixLen ++ keyFn c.pageSize new.key <+:
        ids.take (alignDownNat ids.length c.pageSize) := by
      rw [← htake, keyFn, hkey, ← List.take_add]
      exact List.take_prefix ..
    have hlen : (ids.take w.prefixLen ++ keyFn c.pageSize new.key).length =
        w.prefixLen + c.pageSize := by
      simp only [keyFn, List.length_append, List.length_take, Nat.min_eq_left hpage]
      omega
    have hbound := hm.longest _ s hs hpre (by
      rw [hlen]
      exact Nat.dvd_add hm.dvd_cachedLen (Nat.dvd_refl _))
    rw [hlen] at hbound
    have := hw.pageSize_pos
    dsimp only at hbound
    omega
  refine ⟨hleaf, ?_⟩
  have hvalid1 : c1.tree.Valid c.pageSize := hps ▸ hm.wellFormed.valid
  cases hnode : w.node with
  | none =>
      have hzero : w.prefixLen = 0 := (hm.root hnode).1
      have h := Forest.attached_snoc hw.pageSize_pos hleaf hheld hfresh hvalid1
        hm.wellFormed.refOk (fun s hs => hnot s (by simpa [hzero] using hs))
      simpa [setParent, hzero] using h
  | some u =>
      obtain ⟨slots', hspan, -⟩ := hm.span_eq
      have hspan' : c1.tree.span u = some (ids.take w.prefixLen, slots') := by
        rw [← htake]
        simpa [handleSpan, hnode] using hspan
      exact Forest.attached_attach hw.pageSize_pos hleaf hheld hfresh hm.wellFormed.nodup
        hvalid1 hm.wellFormed.refOk hspan' hnot

theorem insertPrefix_spec (hw : c.WellFormed hs) {ids : List Token} {slots : List Slot}
    (hslots : alignDownNat ids.length c.pageSize ≤ slots.length) :
    ∃ res c', c.insertPrefix ids slots = some (res, c') ∧
      Inserted c hs ids slots res.cachedLen c' := by
  have hm := treeWalk_spec hw (ids.take (alignDownNat ids.length c.pageSize))
  generalize hwalk : c.treeWalk (ids.take (alignDownNat ids.length c.pageSize)) = r at hm
  obtain ⟨w, c1⟩ := r
  simp only at hm
  have hle : w.prefixLen ≤ alignDownNat ids.length c.pageSize := by
    have := hm.cachedLen_le
    simp only [List.length_take] at this
    omega
  have hlongest : ∀ q s, (q, s) ∈ c.tree.entries → q <+: ids → c.pageSize ∣ q.length →
      q.length ≤ w.prefixLen := fun q s hq hpre hdvd =>
    hm.longest q s hq (prefix_take_alignDownNat hpre hdvd) hdvd
  by_cases hall : w.prefixLen = alignDownNat ids.length c.pageSize
  · -- everything is stored already
    refine ⟨⟨w.prefixLen, ⟨alignDownNat ids.length c.pageSize, w.node⟩⟩, c1, ?_, ?_⟩
    · simp only [insertPrefix, hwalk, hall, if_true]
    · refine
        { wellFormed := hm.wellFormed
          pageSize_eq := hm.keeps.pageSize_eq
          span_eq := hm.keeps.span_eq
          dvd_cachedLen := hm.dvd_cachedLen
          cachedLen_le := hle
          entries_perm := ?_
          longest := hlongest }
      have hnone : newEntries c.pageSize w.prefixLen ids slots = [] := by
        simp [newEntries, hall, spanEntries]
      rw [hm.keeps.entries_eq, hnone, List.append_nil]
  · have hps : c1.pageSize = c.pageSize := hm.keeps.pageSize_eq
    obtain ⟨hleaf, hattached⟩ := hw.attached_newLeaf hslots hwalk hall
    have hfresh : c1.counter ∉ c1.tree.uuids := hm.wellFormed.counter_notMem
    refine ⟨⟨w.prefixLen, ⟨alignDownNat ids.length c.pageSize, some c1.counter⟩⟩,
      { c1 with
        tree := c1.setParent w.node (c1.newLeaf ids slots w.prefixLen c.pageSize)
        counter := c1.counter + 1
        clock := c1.clock + 1
        evictableSize :=
          c1.evictableSize + (c1.newLeaf ids slots w.prefixLen c.pageSize).key.length }, ?_, ?_⟩
    · have heq := hleaf.key_value
      simp only [insertPrefix, hwalk, hall, if_false]
      exact if_pos heq
    · refine
        { wellFormed :=
            { pageSize_pos := hm.wellFormed.pageSize_pos
              valid := hps ▸ hattached.valid
              nodup := hattached.uuids_perm.nodup_iff.mpr
                (List.nodup_cons.mpr ⟨hfresh, hm.wellFormed.nodup⟩)
              fresh := ?_
              refOk := hattached.refOk
              held := fun x hx u hu => hattached.uuids_perm.mem_iff.mpr
                (List.mem_cons_of_mem _ (hm.wellFormed.held x hx u hu))
              evictable_eq := ?_
              protected_eq := ?_ }
          pageSize_eq := hps
          span_eq := ?_
          dvd_cachedLen := hm.dvd_cachedLen
          cachedLen_le := hle
          entries_perm := ?_
          longest := hlongest }
      · intro u hu
        rcases List.mem_cons.mp (hattached.uuids_perm.mem_iff.mp hu) with rfl | hu
        · exact Nat.lt_succ_self _
        · exact (hm.wellFormed.fresh u hu).trans (Nat.lt_succ_self _)
      · have h1 := hm.wellFormed.evictable_eq
        have h2 := hattached.evictable_eq
        dsimp only
        omega
      · have h1 := hm.wellFormed.protected_eq
        have h2 := hattached.protectedLen_eq
        dsimp only
        omega
      · intro u hu
        obtain ⟨hu1, hspan⟩ := hm.keeps.span_eq u hu
        exact ⟨hattached.uuids_perm.mem_iff.mpr (List.mem_cons_of_mem _ hu1),
          (hattached.span_eq u hu1).trans hspan⟩
      · have h := hattached.entries_perm
        rw [hm.keeps.entries_eq] at h
        exact h

/-- An insertion that does not assert has slots for all the whole pages, or finds
them stored. -/
theorem insertPrefix_fits (hw : c.WellFormed hs) {ids : List Token} {slots : List Slot}
    {res : MatchResult} {c' : RadixPrefixCache} (h : c.insertPrefix ids slots = some (res, c')) :
    alignDownNat ids.length c.pageSize ≤ slots.length ∨
      ∃ s, (ids.take (alignDownNat ids.length c.pageSize), s) ∈ c.tree.entries := by
  have hL : alignDownNat ids.length c.pageSize ≤ ids.length := alignDownNat_le _ _
  have hm := treeWalk_spec hw (ids.take (alignDownNat ids.length c.pageSize))
  generalize hwalk : c.treeWalk (ids.take (alignDownNat ids.length c.pageSize)) = r at hm
  obtain ⟨w, c1⟩ := r
  simp only at hm
  by_cases hall : w.prefixLen = alignDownNat ids.length c.pageSize
  · cases hnode : w.node with
    | none =>
        have hzero : w.prefixLen = 0 := (hm.root hnode).1
        exact Or.inl (by omega)
    | some u =>
        obtain ⟨slots', hspan, hlen⟩ := hm.span_eq
        have hpos : 0 < w.prefixLen := (hm.node_mem u hnode).2
        have hspan' : c1.tree.span u =
            some (ids.take (alignDownNat ids.length c.pageSize), slots') := by
          simpa [handleSpan, hnode, hall, List.take_take] using hspan
        obtain ⟨s, hs⟩ : ∃ s, slots'[w.prefixLen - 1]? = some s := by
          have hlast : w.prefixLen - 1 < slots'.length := by
            dsimp only at hlen
            omega
          exact ⟨_, List.getElem?_eq_getElem hlast⟩
        have hmem := Forest.mem_entries_of_span hm.wellFormed.valid hspan' hs
        rw [hm.keeps.entries_eq, Nat.sub_add_cancel hpos, hall, List.take_take, Nat.min_self] at hmem
        exact Or.inr ⟨_, hmem⟩
  · left
    simp only [insertPrefix, hwalk, if_neg hall] at h
    split at h
    · rename_i heq
      simp only [List.length_drop, List.length_take, Nat.min_eq_left hL] at heq
      have hle : w.prefixLen ≤ alignDownNat ids.length c.pageSize := by
        have := hm.cachedLen_le
        simp only [List.length_take] at this
        omega
      omega
    · cases h

/-! ### `evict` -/

structure Evicted (c : RadixPrefixCache) (hs : List RadixCacheHandle) (indices : List Slot)
    (c' : RadixPrefixCache) : Prop where
  wellFormed : c'.WellFormed hs
  pageSize_eq : c'.pageSize = c.pageSize
  slots_perm : c.tree.slots.Perm (indices ++ c'.tree.slots)
  entries_sub : ∀ x ∈ c'.tree.entries, x ∈ c.tree.entries
  evictableSize_eq : c'.evictableSize + indices.length = c.evictableSize
  handleSpan_eq : ∀ h ∈ hs, c'.handleSpan h = c.handleSpan h

theorem WellFormed.evict_spec (hw : c.WellFormed hs) (size : Nat) (hpos : 0 < size)
    (hsize : (size : Int) ≤ c.evictableSize) :
    ∃ indices c', c.evict size = some (indices, c') ∧ Evicted c hs indices c' ∧
      size ≤ indices.length := by
  have hev := hw.evictable_eq
  obtain ⟨indices, f', hloop, hpruned, hle⟩ :=
    evictLoop_spec size c.tree.count 0 hw.valid hw.nodup
      hw.refOk (le_refl c.tree.count) (by omega)
  simp only [Nat.zero_add] at hloop hle
  have hne : ¬ size = 0 := by omega
  have hheld : ∀ h ∈ hs, ∀ u, h.node = some u → u ∈ f'.uuids ∧ f'.span u = c.tree.span u :=
    fun h hh u hu =>
      hpruned.span_eq _ hw.refOk u (hw.held h hh u hu) (holdersAt_ne_zero hh hu)
  refine ⟨indices, { c with tree := f', evictableSize := c.evictableSize - indices.length },
    by simp [evict, hne, hsize, hloop], ?_, hle⟩
  refine
    { wellFormed :=
        { pageSize_pos := hw.pageSize_pos
          valid := hpruned.valid
          nodup := hw.nodup.sublist hpruned.uuids_sub
          fresh := fun u hu => hw.fresh u (hpruned.uuids_sub.subset hu)
          refOk := hpruned.refOk _ hw.refOk
          held := fun h hh u hu => (hheld h hh u hu).1
          evictable_eq := ?_
          protected_eq := hw.protected_eq.trans (congrArg _ hpruned.protectedLen_eq.symm) }
      pageSize_eq := rfl
      slots_perm := hpruned.slots_perm
      entries_sub := hpruned.entries_sub
      evictableSize_eq := ?_
      handleSpan_eq := ?_ }
  · have := hpruned.evictable_eq
    dsimp only
    omega
  · dsimp only
    omega
  · intro h hh
    unfold handleSpan
    cases hnode : h.node with
    | none => rfl
    | some u => exact (hheld h hh u hnode).2

end RadixPrefixCache

end FreeToken
