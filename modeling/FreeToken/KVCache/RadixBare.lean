import FreeToken.KVCache.RadixSpec

/-!
# The tree without its reference counts

Walks, insertions and removals do not look at reference counts. So what a tree stores can be
followed in the tree with all counts zero, whatever its locks are.
-/

namespace FreeToken

namespace Forest

variable {ps u : Nat}

@[grind =]
def bare : Forest → Forest
  | nil => nil
  | node d cs rest => node { d with refCount := 0 } cs.bare rest.bare

theorem uuids_bare : ∀ f : Forest, f.bare.uuids = f.uuids
  | nil => rfl
  | node d cs rest => by simp [bare, uuids, uuids_bare cs, uuids_bare rest]

theorem entries_bare : ∀ f : Forest, f.bare.entries = f.entries
  | nil => rfl
  | node d cs rest => by simp [bare, entries, entries_bare cs, entries_bare rest]

theorem firstPages_bare : ∀ f : Forest, f.bare.firstPages ps = f.firstPages ps
  | nil => rfl
  | node d cs rest => by simp [bare, firstPages, firstPages_bare rest]

theorem valid_bare : ∀ f : Forest, f.bare.Valid ps ↔ f.Valid ps
  | nil => Iff.rfl
  | node d cs rest => by
      simp only [bare, Valid, firstPages_bare, valid_bare cs, valid_bare rest]

theorem path_bare : ∀ f : Forest,
    f.bare.path u = (f.path u).map fun ds => ds.map fun d => { d with refCount := 0 }
  | nil => rfl
  | node d cs rest => by
      simp only [bare, path, path_bare cs, path_bare rest]
      by_cases hd : d.uuid = u
      · simp [hd]
      · simp only [hd, if_false]
        cases cs.path u <;> simp

theorem span_bare (f : Forest) : f.bare.span u = f.span u := by
  rw [span, span, path_bare]
  cases f.path u with
  | none => rfl
  | some ds => simp [List.flatMap_map]

theorem refSum_bare : ∀ f : Forest, f.bare.refSum = 0
  | nil => rfl
  | node d cs rest => by simp [bare, refSum, refSum_bare rest]

theorem refOk_bare : ∀ f : Forest, f.bare.RefOk fun _ => 0
  | nil => trivial
  | node d cs rest => ⟨by simp [refSum_bare], refOk_bare cs, refOk_bare rest⟩

theorem treeWalk_bare {tic counter : Nat} : ∀ (f : Forest) (at' : Option Nat) (input : List Token),
    treeWalk ps tic counter f.bare at' input =
      { treeWalk ps tic counter f at' input with
        tree := (treeWalk ps tic counter f at' input).tree.bare }
  | nil, _, _ => rfl
  | node d cs rest, at', input => by
      simp only [bare, treeWalk]
      split
      · rfl
      · split
        · split
          · rfl
          · rw [treeWalk_bare cs]
            rfl
        · rw [treeWalk_bare rest]
          rfl

theorem snoc_bare {new : RadixTreeNode} (h0 : new.refCount = 0) : ∀ f : Forest,
    f.bare.snoc new = (f.snoc new).bare
  | nil => by
      have hnew : { new with refCount := 0 } = new := by rw [← h0]
      simp [snoc, bare, hnew]
  | node d cs rest => by simp [snoc, bare, snoc_bare h0 rest]

theorem attach_bare {new : RadixTreeNode} (h0 : new.refCount = 0) : ∀ f : Forest,
    attach u new f.bare = (attach u new f).bare
  | nil => rfl
  | node d cs rest => by
      simp only [attach, bare]
      split
      · rw [snoc_bare h0]
        rfl
      · rw [attach_bare h0 cs, attach_bare h0 rest]
        rfl

theorem mapPath_bare {g : Nat → Nat} : ∀ f : Forest, (mapPath u g f).bare = f.bare
  | nil => rfl
  | node d cs rest => by
      simp only [mapPath]
      split
      · rfl
      · split
        · simp [bare, mapPath_bare cs]
        · simp [bare, mapPath_bare rest]

theorem remove_bare : ∀ f : Forest, (remove u f).bare = remove u f.bare
  | nil => rfl
  | node d cs rest => by
      simp only [remove, bare]
      split
      · rfl
      · rw [bare, remove_bare cs, remove_bare rest]

end Forest

namespace RadixPrefixCache

/-- The cache with nothing locked. -/
def bare (c : RadixPrefixCache) : RadixPrefixCache :=
  { c with
    tree := c.tree.bare
    evictableSize := c.tree.bare.evictable
    protectedSize := c.tree.bare.protectedLen }

/-- The invariant of the cache that does not need the locks to be in order. -/
structure Shape (c : RadixPrefixCache) : Prop where
  pageSize_pos : 0 < c.pageSize
  valid : c.tree.Valid c.pageSize
  nodup : c.tree.uuids.Nodup
  fresh : ∀ u ∈ c.tree.uuids, u < c.counter

variable {c : RadixPrefixCache}

theorem WellFormed.shape {hs : List RadixCacheHandle} (hw : c.WellFormed hs) : c.Shape where
  pageSize_pos := hw.pageSize_pos
  valid := hw.valid
  nodup := hw.nodup
  fresh := hw.fresh

theorem Shape.wellFormed_bare (h : c.Shape) : c.bare.WellFormed [] where
  pageSize_pos := h.pageSize_pos
  valid := (Forest.valid_bare _).mpr h.valid
  nodup := (Forest.uuids_bare c.tree).symm ▸ h.nodup
  fresh := by
    intro u hu
    exact h.fresh u (Forest.uuids_bare c.tree ▸ hu)
  refOk := Forest.refOk_bare c.tree
  held := fun _ hmem => absurd hmem List.not_mem_nil
  evictable_eq := rfl
  protected_eq := rfl

theorem shape_of_bare {c' : RadixPrefixCache} {hs : List RadixCacheHandle} (hw : c'.WellFormed hs)
    (htree : c'.tree = c.tree.bare) (hps : c'.pageSize = c.pageSize)
    (hcounter : c'.counter = c.counter) : c.Shape where
  pageSize_pos := hps ▸ hw.pageSize_pos
  valid := (Forest.valid_bare _).mp (htree ▸ hps ▸ hw.valid)
  nodup := Forest.uuids_bare c.tree ▸ htree ▸ hw.nodup
  fresh := by
    intro u hu
    rw [← hcounter]
    apply hw.fresh
    rw [htree, Forest.uuids_bare]
    exact hu

theorem treeWalk_bare (c : RadixPrefixCache) (ids : List Token) :
    (c.bare.treeWalk ids).1 = { (c.treeWalk ids).1 with tree := (c.treeWalk ids).2.tree.bare } ∧
      (c.bare.treeWalk ids).2.tree = (c.treeWalk ids).2.tree.bare ∧
      (c.bare.treeWalk ids).2.counter = (c.treeWalk ids).2.counter ∧
      (c.bare.treeWalk ids).2.clock = (c.treeWalk ids).2.clock := by
  have hwalk : Forest.treeWalk c.pageSize c.clock c.counter c.tree.bare none ids =
      { Forest.treeWalk c.pageSize c.clock c.counter c.tree none ids with
        tree := (Forest.treeWalk c.pageSize c.clock c.counter c.tree none ids).tree.bare } :=
    Forest.treeWalk_bare c.tree none ids
  refine ⟨?_, ?_, ?_, rfl⟩
  · simp only [treeWalk, bare, hwalk]
  · simp only [treeWalk, bare, hwalk]
  · simp only [treeWalk, bare, hwalk]

theorem handleSpan_bare {c' : RadixPrefixCache} (htree : c'.tree = c.tree.bare)
    (h : RadixCacheHandle) : c'.handleSpan h = c.handleSpan h := by
  unfold handleSpan
  split
  · rfl
  · rw [htree, Forest.span_bare]

theorem keeps_of_bare {c1 c1' : RadixPrefixCache} (h : Keeps c.bare c1')
    (htree : c1'.tree = c1.tree.bare) (hps : c1.pageSize = c.pageSize) : Keeps c c1 where
  pageSize_eq := hps
  entries_eq := by
    have heq := h.entries_eq
    rw [htree, Forest.entries_bare, bare, Forest.entries_bare] at heq
    exact heq
  span_eq := by
    intro u hu
    have hspan := h.span_eq u (by rw [bare, Forest.uuids_bare]; exact hu)
    rw [htree, Forest.uuids_bare, Forest.span_bare, bare, Forest.span_bare] at hspan
    exact hspan

/-- The nodes that were not there before carry new names. -/
structure Grows (c c' : RadixPrefixCache) : Prop where
  counter_le : c.counter ≤ c'.counter
  new : ∀ u ∈ c'.tree.uuids, u ∈ c.tree.uuids ∨ c.counter ≤ u

/-- What a walk over `ids` leaves, whatever the locks are. -/
structure Walked (c : RadixPrefixCache) (ids : List Token) (w : WalkResult)
    (c1 : RadixPrefixCache) : Prop where
  shape : c1.Shape
  keeps : Keeps c c1
  grows : Grows c c1
  resplit : Resplit c.pageSize c.counter c.tree c1.tree
  dvd_prefixLen : c.pageSize ∣ w.prefixLen
  prefixLen_le : w.prefixLen ≤ ids.length
  span_eq : ∃ slots, c1.handleSpan { cachedLen := w.prefixLen, node := w.node } =
    some (ids.take w.prefixLen, slots) ∧ slots.length = w.prefixLen
  node_mem : ∀ u, w.node = some u → u ∈ c1.tree.uuids
  longest : ∀ q s, (q, s) ∈ c.tree.entries → q <+: ids → c.pageSize ∣ q.length →
    q.length ≤ w.prefixLen

theorem Shape.walked (h : c.Shape) (ids : List Token) :
    Walked c ids (c.treeWalk ids).1 (c.treeWalk ids).2 := by
  have hm := treeWalk_spec h.wellFormed_bare ids
  obtain ⟨hres, htree, hcounter, -⟩ := treeWalk_bare c ids
  have hsplit : Resplit c.pageSize c.counter c.tree (c.treeWalk ids).2.tree :=
    Forest.treeWalk_resplit h.pageSize_pos h.valid
  obtain ⟨slots, hspan, hlen⟩ := hm.span_eq
  rw [hres] at hspan hlen
  exact
    { shape := shape_of_bare hm.wellFormed htree rfl hcounter
      keeps := keeps_of_bare hm.keeps htree rfl
      grows :=
        { counter_le := (@Forest.treeWalk_counter c.pageSize c.clock c.counter c.tree none ids).1
          new := by
            intro u hu
            rcases hsplit.uuids_perm with heq | hperm
            · exact Or.inl (heq ▸ hu)
            · rcases List.mem_cons.mp (hperm.mem_iff.mp hu) with rfl | hu
              · exact Or.inr (Nat.le_refl _)
              · exact Or.inl hu }
      resplit := hsplit
      dvd_prefixLen := by
        have hdvd := hm.dvd_cachedLen
        rw [hres] at hdvd
        exact hdvd
      prefixLen_le := by
        have hle := hm.cachedLen_le
        rw [hres] at hle
        exact hle
      span_eq := ⟨slots, (handleSpan_bare htree _).symm.trans hspan, hlen⟩
      node_mem := by
        intro u hu
        have hmem := (hm.node_mem u (by rw [hres]; exact hu)).1
        rw [htree, Forest.uuids_bare] at hmem
        exact hmem
      longest := by
        intro q s hq hpre hdvd
        have hle := hm.longest q s (by rw [bare, Forest.entries_bare]; exact hq) hpre hdvd
        rw [hres] at hle
        exact hle }

/-- What a new leaf leaves, whatever the locks are. -/
structure Grown (new : RadixTreeNode) (c1 c' : RadixPrefixCache) : Prop where
  shape : c'.Shape
  uuids_perm : c'.tree.uuids.Perm (new.uuid :: c1.tree.uuids)
  span_eq : ∀ u ∈ c1.tree.uuids, c'.tree.span u = c1.tree.span u

/-- `insert_prefix` walks, and attaches a leaf when the walk did not cover the whole pages. -/
theorem insertPrefix_cases {ids : List Token} {slots : List Slot} {res : MatchResult}
    {c' : RadixPrefixCache} (h : c.insertPrefix ids slots = some (res, c')) :
    ∃ w c1, c.treeWalk (ids.take (alignDownNat ids.length c.pageSize)) = (w, c1) ∧
      res.cachedLen = w.prefixLen ∧ res.handle.cachedLen = alignDownNat ids.length c.pageSize ∧
      (w.prefixLen = alignDownNat ids.length c.pageSize ∧ c' = c1 ∧ res.handle.node = w.node ∨
        w.prefixLen ≠ alignDownNat ids.length c.pageSize ∧
        (c1.newLeaf ids slots w.prefixLen c.pageSize).key.length =
          (c1.newLeaf ids slots w.prefixLen c.pageSize).value.length ∧
        res.handle.node = some c1.counter ∧
        c' = { c1 with
          tree := c1.setParent w.node (c1.newLeaf ids slots w.prefixLen c.pageSize)
          counter := c1.counter + 1
          clock := c1.clock + 1
          evictableSize :=
            c1.evictableSize + (c1.newLeaf ids slots w.prefixLen c.pageSize).key.length }) := by
  generalize hwalk : c.treeWalk (ids.take (alignDownNat ids.length c.pageSize)) = r
  obtain ⟨w, c1⟩ := r
  simp only [insertPrefix, hwalk] at h
  split at h
  · next hall =>
      cases h
      exact ⟨w, _, rfl, rfl, rfl, Or.inl ⟨hall, rfl, rfl⟩⟩
  · next hall =>
      split at h
      · next hlen =>
          cases h
          exact ⟨w, c1, rfl, rfl, rfl, Or.inr ⟨hall, hlen, rfl, rfl⟩⟩
      · cases h

theorem Shape.grown (h : c.Shape) {ids : List Token} {slots : List Slot} {w : WalkResult}
    {c1 : RadixPrefixCache}
    (hwalk : c.treeWalk (ids.take (alignDownNat ids.length c.pageSize)) = (w, c1))
    (hall : w.prefixLen ≠ alignDownNat ids.length c.pageSize)
    (hlen : (c1.newLeaf ids slots w.prefixLen c.pageSize).key.length =
      (c1.newLeaf ids slots w.prefixLen c.pageSize).value.length) :
    Grown (c1.newLeaf ids slots w.prefixLen c.pageSize) c1
      { c1 with
        tree := c1.setParent w.node (c1.newLeaf ids slots w.prefixLen c.pageSize)
        counter := c1.counter + 1
        clock := c1.clock + 1
        evictableSize :=
          c1.evictableSize + (c1.newLeaf ids slots w.prefixLen c.pageSize).key.length } := by
  have hL : alignDownNat ids.length c.pageSize ≤ ids.length := alignDownNat_le _ _
  have hw := h.walked (ids.take (alignDownNat ids.length c.pageSize))
  obtain ⟨hres, htree, hcounter, hclock⟩ :=
    treeWalk_bare c (ids.take (alignDownNat ids.length c.pageSize))
  rw [hwalk] at hw hres htree hcounter hclock
  dsimp only at hw hres htree hcounter hclock
  generalize hbare : c.bare.treeWalk (ids.take (alignDownNat ids.length c.pageSize)) = r at *
  obtain ⟨w', c1'⟩ := r
  dsimp only at hres htree hcounter hclock
  subst hres
  have hle : w.prefixLen ≤ alignDownNat ids.length c.pageSize := by
    have := hw.prefixLen_le
    rw [List.length_take] at this
    omega
  have hslots : alignDownNat ids.length c.pageSize ≤ slots.length := by
    simp only [newLeaf, List.length_drop, List.length_take, Nat.min_eq_left hL] at hlen
    omega
  have hleaf : c1'.newLeaf ids slots w.prefixLen c.pageSize =
      c1.newLeaf ids slots w.prefixLen c.pageSize := by
    rw [newLeaf, newLeaf, hcounter, hclock]
  have hset : c1'.setParent w.node (c1.newLeaf ids slots w.prefixLen c.pageSize) =
      (c1.setParent w.node (c1.newLeaf ids slots w.prefixLen c.pageSize)).bare := by
    unfold setParent
    rw [htree]
    cases w.node with
    | none => exact Forest.snoc_bare rfl _
    | some u => exact Forest.attach_bare rfl _
  obtain ⟨-, hattached⟩ := h.wellFormed_bare.attached_newLeaf hslots hbare hall
  dsimp only [bare] at hattached
  rw [hleaf, hset, htree] at hattached
  have hperm := hattached.uuids_perm
  rw [Forest.uuids_bare, Forest.uuids_bare] at hperm
  have hfresh : c1.counter ∉ c1.tree.uuids := fun hmem => lt_irrefl _ (hw.shape.fresh _ hmem)
  exact
    { shape :=
        { pageSize_pos := hw.shape.pageSize_pos
          valid := by
            have hvalid := (Forest.valid_bare _).mp hattached.valid
            rw [← hw.keeps.pageSize_eq] at hvalid
            rw [← hw.keeps.pageSize_eq]
            exact hvalid
          nodup := hperm.nodup_iff.mpr (List.nodup_cons.mpr ⟨hfresh, hw.shape.nodup⟩)
          fresh := by
            intro u hu
            rcases List.mem_cons.mp (hperm.mem_iff.mp hu) with rfl | hu
            · exact Nat.lt_succ_self _
            · exact (hw.shape.fresh u hu).trans (Nat.lt_succ_self _) }
      uuids_perm := hperm
      span_eq := by
        intro u hu
        have hspan := hattached.span_eq u (by rw [Forest.uuids_bare]; exact hu)
        rw [Forest.span_bare, Forest.span_bare] at hspan
        exact hspan }

/-- An insertion that returns keeps the invariants, and every span. -/
structure Inserting (c : RadixPrefixCache) (res : MatchResult) (c' : RadixPrefixCache) : Prop where
  grows : Grows c c'
  span_eq : ∀ u ∈ c.tree.uuids, u ∈ c'.tree.uuids ∧ c'.tree.span u = c.tree.span u
  node_mem : ∀ u, res.handle.node = some u → u ∈ c'.tree.uuids

theorem Shape.inserting (hc : c.Shape) {ids : List Token} {slots : List Slot} {res : MatchResult}
    {c' : RadixPrefixCache} (h : c.insertPrefix ids slots = some (res, c')) :
    Inserting c res c' := by
  obtain ⟨w, c1, hwalk, -, -, hcase⟩ := insertPrefix_cases h
  have hw := hc.walked (ids.take (alignDownNat ids.length c.pageSize))
  rw [hwalk] at hw
  rcases hcase with ⟨-, rfl, hnode⟩ | ⟨hall, hlen, hnode, rfl⟩
  · exact
      { grows := hw.grows
        span_eq := hw.keeps.span_eq
        node_mem := fun u hu => hw.node_mem u (hnode ▸ hu) }
  · have hgrown := hc.grown hwalk hall hlen
    exact
      { grows :=
          { counter_le := hw.grows.counter_le.trans (Nat.le_succ _)
            new := by
              intro u hu
              rcases List.mem_cons.mp (hgrown.uuids_perm.mem_iff.mp hu) with rfl | hu
              · exact Or.inr hw.grows.counter_le
              · exact hw.grows.new u hu }
        span_eq := by
          intro u hu
          obtain ⟨hu1, hspan⟩ := hw.keeps.span_eq u hu
          exact ⟨hgrown.uuids_perm.mem_iff.mpr (List.mem_cons_of_mem _ hu1),
            (hgrown.span_eq u hu1).trans hspan⟩
        node_mem := by
          intro u hu
          rw [hnode, Option.some.injEq] at hu
          rw [← hu]
          exact hgrown.uuids_perm.mem_iff.mpr List.mem_cons_self }

theorem WellFormed.insertPrefix {hs : List RadixCacheHandle} (hw : c.WellFormed hs)
    {ids : List Token} {slots : List Slot} {res : MatchResult} {c' : RadixPrefixCache}
    (h : c.insertPrefix ids slots = some (res, c')) : c'.WellFormed hs := by
  obtain ⟨w, c1, hwalk, -, -, hcase⟩ := insertPrefix_cases h
  rcases hcase with ⟨-, rfl, -⟩ | ⟨hall, hlen, -, -⟩
  · have hm := (treeWalk_spec hw (ids.take (alignDownNat ids.length c.pageSize))).wellFormed
    rw [hwalk] at hm
    exact hm
  · have hle := (hw.shape.walked (ids.take (alignDownNat ids.length c.pageSize))).prefixLen_le
    rw [hwalk] at hle
    have hL : alignDownNat ids.length c.pageSize ≤ ids.length := alignDownNat_le _ _
    have hslots : alignDownNat ids.length c.pageSize ≤ slots.length := by
      simp only [newLeaf, List.length_drop, List.length_take, Nat.min_eq_left hL] at hlen hle
      omega
    obtain ⟨res', c2, hinsert, hspec⟩ := insertPrefix_spec hw hslots
    rw [h] at hinsert
    cases hinsert
    exact hspec.wellFormed

end RadixPrefixCache

end FreeToken
