import FreeToken.KVCache.RadixMap

/-!
# Who holds the nodes

A lock on a handle whose node was evicted holds the evicted nodes up to the tree, and from there
the tree like any other. So the tree's counts are in order for the handles moved to where they
land, and the size counters are off by the length of the evicted nodes that are held.
-/

namespace FreeToken

/-! ### Climbing through the evicted nodes -/

/-- The parents of evicted nodes are in the tree or were evicted after them. -/
def Linked (inTree : List Nat) : List EvictedNode → Prop
  | [] => True
  | e :: es =>
      (∀ v, e.parent = some v → v ∈ inTree ∨ v ∈ es.map fun e => e.node.uuid) ∧ Linked inTree es

theorem Linked.mono {inTree inTree' : List Nat} : ∀ {es : List EvictedNode}, Linked inTree es →
    (∀ u ∈ inTree, u ∈ inTree') → Linked inTree' es
  | [], _, _ => trivial
  | _ :: _, h, hsub => ⟨fun v hv => (h.1 v hv).imp_left (hsub v), h.2.mono hsub⟩

theorem Linked.append {inTree inTree' : List Nat} {vs : List EvictedNode} (hvs : Linked inTree' vs)
    (hsub : ∀ u ∈ inTree, u ∈ inTree' ∨ u ∈ vs.map fun e => e.node.uuid) :
    ∀ {es : List EvictedNode}, Linked inTree es → Linked inTree' (es ++ vs)
  | [], _ => hvs
  | e :: es, h => by
      refine ⟨fun v hv => ?_, Linked.append hvs hsub h.2⟩
      change v ∈ inTree' ∨ v ∈ (es ++ vs).map fun e => e.node.uuid
      rw [List.map_append, List.mem_append]
      rcases h.1 v hv with hmem | hmem
      · rcases hsub v hmem with hmem | hmem
        · exact Or.inl hmem
        · exact Or.inr (Or.inr hmem)
      · exact Or.inr (Or.inl hmem)

theorem climb_sublist : ∀ (es : List EvictedNode) (u : Nat), (climb es u).1.Sublist es
  | [], _ => List.Sublist.refl _
  | e :: es, u => by
      rw [climb]
      split
      · split
        · exact (List.nil_sublist es).cons_cons e
        · exact (climb_sublist es _).cons_cons e
      · exact (climb_sublist es u).cons e

theorem climb_map {g : EvictedNode → EvictedNode} (huuid : ∀ e, (g e).node.uuid = e.node.uuid)
    (hparent : ∀ e, (g e).parent = e.parent) : ∀ (es : List EvictedNode) (u : Nat),
      climb (es.map g) u = ((climb es u).1.map g, (climb es u).2)
  | [], _ => rfl
  | e :: es, u => by
      rw [List.map_cons, climb, climb, huuid, hparent]
      split
      · split
        · rfl
        · rw [climb_map huuid hparent es]
          rfl
      · exact climb_map huuid hparent es u

theorem climb_append : ∀ (es vs : List EvictedNode) (u : Nat), climb (es ++ vs) u =
    match (climb es u).2 with
    | none => ((climb es u).1, none)
    | some v => ((climb es u).1 ++ (climb vs v).1, (climb vs v).2)
  | [], vs, u => rfl
  | e :: es, vs, u => by
      rw [List.cons_append, climb, climb]
      split
      · split
        · rfl
        · next v _ =>
            rw [climb_append es vs v]
            cases (climb es v).2 with
            | none => rfl
            | some w => rfl
      · exact climb_append es vs u

/-- The walk gets back into the tree. -/
theorem climb_mem {inTree : List Nat} : ∀ {es : List EvictedNode} {u v : Nat}, Linked inTree es →
    (u ∈ inTree ∨ u ∈ es.map fun e => e.node.uuid) → (climb es u).2 = some v → v ∈ inTree
  | [], u, v, _, hu, h => by
      cases h
      exact hu.resolve_right List.not_mem_nil
  | e :: es, u, v, hl, hu, h => by
      rw [climb] at h
      split at h
      · split at h
        · cases h
        · next w hw => exact climb_mem hl.2 (hl.1 w hw) h
      · next hne =>
          refine climb_mem hl.2 (hu.imp_right fun hmem => ?_) h
          exact (List.mem_cons.mp hmem).resolve_left (Ne.symm hne)

/-- A node up to which nothing was evicted since is climbed to as before. -/
theorem climb_append_of_notMem {es vs : List EvictedNode} {u : Nat}
    (h : ∀ v, (climb es u).2 = some v → v ∉ vs.map fun e => e.node.uuid) :
    climb (es ++ vs) u = climb es u := by
  rw [climb_append]
  cases htop : (climb es u).2 with
  | none =>
      dsimp only
      rw [← htop]
  | some v =>
      dsimp only
      rw [climb_of_notMem (h v htop), List.append_nil, ← htop]

/-- The nodes an eviction pops are unlocked, and linked. -/
theorem Pops.linked {f f' : Forest} {es : List EvictedNode} {ps : Nat} (h : Pops f es f')
    (hv : f.Valid ps) (hn : f.uuids.Nodup) :
    Linked f'.uuids es ∧ ∀ e ∈ es, e.node.refCount = 0 := by
  induction h with
  | done f => exact ⟨trivial, fun _ he => absurd he List.not_mem_nil⟩
  | pop hmin rest ih =>
      have hleaf := heapMin_mem hmin
      have htip := Forest.mem_tips_of_leaves hleaf
      have hv' := (Forest.pruned_remove hleaf hv hn).1.valid
      have hn' := (List.nodup_cons.mp ((Forest.uuids_remove htip hn).nodup_iff.mp hn)).2
      obtain ⟨hlinked, hrefs⟩ := ih hv' hn'
      refine ⟨⟨fun v hparent => ?_, hlinked⟩, ?_⟩
      · have hmem := (rest.shape hv' hn').2.mem_iff.mp (Forest.parent_mem_remove htip hn hparent)
        exact (List.mem_append.mp hmem).symm
      · intro e he
        rcases List.mem_cons.mp he with rfl | he
        · exact Forest.refCount_of_leaves hleaf
        · exact hrefs e he

/-! ### Sums over the climbed nodes -/

theorem filter_of_sublist {es gone : List EvictedNode} (h : gone.Sublist es)
    (hn : (es.map fun e => e.node.uuid).Nodup) :
    es.filter (fun e => decide (e.node.uuid ∈ gone.map fun x => x.node.uuid)) = gone := by
  induction h with
  | slnil => rfl
  | cons e h ih =>
      rw [List.map_cons, List.nodup_cons] at hn
      rw [List.filter_cons_of_neg]
      · exact ih hn.2
      · rw [decide_eq_true_eq]
        exact fun hmem => hn.1 ((h.map _).subset hmem)
  | cons_cons e h ih =>
      rw [List.map_cons, List.nodup_cons] at hn
      rw [List.filter_cons_of_pos (by simp)]
      congr 1
      refine (List.filter_congr fun x hx => ?_).trans (ih hn.2)
      have hne : x.node.uuid ≠ e.node.uuid := by
        intro heq
        exact hn.1 (heq ▸ List.mem_map.mpr ⟨x, hx, rfl⟩)
      exact decide_eq_decide.mpr (List.mem_cons.trans (or_iff_right hne))

theorem sum_map_filter (p : EvictedNode → Bool) (g : EvictedNode → Nat) (es : List EvictedNode) :
    ((es.filter p).map g).sum = (es.map fun e => if p e then g e else 0).sum := by
  induction es with
  | nil => rfl
  | cons e es ih =>
      rw [List.filter_cons, List.map_cons, List.sum_cons, ← ih]
      split
      · rw [List.map_cons, List.sum_cons]
      · rw [Nat.zero_add]

namespace RadixNodes

/-- The summed length of the nodes that are held. -/
def lockedLength (es : List EvictedNode) : Nat :=
  ((es.filter fun e => decide (e.node.refCount ≠ 0)).map fun e => e.node.key.length).sum

theorem length_eq (n : Nat) (es : List EvictedNode) : length n es =
    (es.map fun e => if e.node.refCount = n then e.node.key.length else 0).sum := by
  rw [length, RadixPrefixCache.pathLength, List.filter_map, List.map_map]
  rw [show ((fun d : RadixTreeNode => d.key.length) ∘ fun e : EvictedNode => e.node) =
    fun e => e.node.key.length from rfl, sum_map_filter]
  simp

theorem sum_map_gone {es gone : List EvictedNode} (h : gone.Sublist es)
    (hn : (es.map fun e => e.node.uuid).Nodup) (g : EvictedNode → Nat) :
    (es.map fun e => if e.node.uuid ∈ gone.map (fun x => x.node.uuid) then g e else 0).sum =
      (gone.map g).sum := by
  have hsum := sum_map_filter
    (fun e => decide (e.node.uuid ∈ gone.map fun x => x.node.uuid)) g es
  rw [filter_of_sublist h hn] at hsum
  simpa using hsum.symm

theorem lockedLength_lock {es gone : List EvictedNode} (h : gone.Sublist es)
    (hn : (es.map fun e => e.node.uuid).Nodup) :
    lockedLength (recount (· + 1) gone es) = lockedLength es + length 0 gone := by
  rw [lockedLength, lockedLength, sum_map_filter, sum_map_filter, length_eq, ← sum_map_gone h hn,
    ← List.sum_map_add, recount, List.map_map]
  congr 1
  apply List.map_congr_left
  intro e _
  dsimp only [Function.comp_apply]
  by_cases hgone : e.node.uuid ∈ gone.map fun x => x.node.uuid
  · by_cases h0 : e.node.refCount = 0
    · simp [hgone, h0]
    · simp [hgone, h0]
  · simp [hgone]

theorem lockedLength_unlock {es gone : List EvictedNode} (h : gone.Sublist es)
    (hn : (es.map fun e => e.node.uuid).Nodup) (hpos : ∀ e ∈ gone, e.node.refCount ≠ 0) :
    lockedLength (recount (· - 1) gone es) + length 1 gone = lockedLength es := by
  rw [lockedLength, lockedLength, sum_map_filter, sum_map_filter, length_eq, ← sum_map_gone h hn,
    recount, List.map_map, ← List.sum_map_add]
  congr 1
  apply List.map_congr_left
  intro e he
  dsimp only [Function.comp_apply]
  by_cases hgone : e.node.uuid ∈ gone.map fun x => x.node.uuid
  · have hmem : e ∈ gone := by
      rw [← filter_of_sublist h hn]
      exact List.mem_filter.mpr ⟨he, decide_eq_true hgone⟩
    have h0 := hpos e hmem
    by_cases h1 : e.node.refCount = 1
    · simp [hgone, h1]
    · have h2 : e.node.refCount - 1 ≠ 0 := by omega
      simp [hgone, h0, h1, h2]
  · simp [hgone]

end RadixNodes

namespace RadixPrefixCache

/-- The size counters moved by `n`. -/
def shift (c : RadixPrefixCache) (n : Nat) : RadixPrefixCache :=
  { c with evictableSize := c.evictableSize + n, protectedSize := c.protectedSize - n }

variable {c c' : RadixPrefixCache} {n : Nat}

theorem Shape.unshift (h : (c.shift n).Shape) : c.Shape where
  pageSize_pos := h.pageSize_pos
  valid := h.valid
  nodup := h.nodup
  fresh := h.fresh

theorem treeWalk_shift (ids : List Token) :
    (c.shift n).treeWalk ids = ((c.treeWalk ids).1, (c.treeWalk ids).2.shift n) := rfl

theorem insertPrefix_shift {ids : List Token} {slots : List Slot} {res : MatchResult}
    (h : c.insertPrefix ids slots = some (res, c')) :
    (c.shift n).insertPrefix ids slots = some (res, c'.shift n) := by
  obtain ⟨w, c1, hwalk, hcached, hlenHandle, hcase⟩ := insertPrefix_cases h
  obtain ⟨cached, ⟨len, node⟩⟩ := res
  dsimp only at hcached hlenHandle hcase
  subst hcached hlenHandle
  have hwalk' : (c.shift n).treeWalk (ids.take (alignDownNat ids.length (c.shift n).pageSize)) =
      (w, c1.shift n) := by
    rw [treeWalk_shift]
    exact congrArg (fun r => (r.1, r.2.shift n)) hwalk
  simp only [insertPrefix, hwalk']
  rcases hcase with ⟨hall, rfl, rfl⟩ | ⟨hall, hlen, rfl, rfl⟩
  · exact if_pos hall
  · refine (if_neg hall).trans ((if_pos hlen).trans ?_)
    simp only [shift, Int.add_right_comm]
    rfl

theorem lock_shift (h : RadixCacheHandle) : (c.shift n).lock h = (c.lock h).shift n := by
  have htree : (c.shift n).tree = c.tree := rfl
  unfold lock
  rw [htree]
  cases h.node.bind fun u => (c.tree.path u).map (u, ·) with
  | none => rfl
  | some r =>
      simp only [shift, mk.injEq, true_and]
      exact ⟨by omega, by omega⟩

theorem unlock_shift {h : RadixCacheHandle} (hunlock : (c.shift n).unlock h = some c') :
    ∃ c1, c.unlock h = some c1 ∧ c' = c1.shift n := by
  have htree : (c.shift n).tree = c.tree := rfl
  unfold unlock at hunlock ⊢
  rw [htree] at hunlock
  cases hr : h.node.bind fun u => (c.tree.path u).map (u, ·) with
  | none =>
      rw [hr] at hunlock
      cases hunlock
      exact ⟨c, rfl, rfl⟩
  | some r =>
      rw [hr] at hunlock
      dsimp only at hunlock ⊢
      split at hunlock
      · cases hunlock
      · next hany =>
          cases hunlock
          refine ⟨_, if_neg hany, ?_⟩
          simp only [shift, mk.injEq, true_and]
          exact ⟨by omega, by omega⟩

theorem evict_shift {size : Nat} {indices : List Slot} (h : c.evict size = some (indices, c')) :
    (c.shift n).evict size = some (indices, c'.shift n) := by
  rw [evict] at h ⊢
  split at h
  · next hzero =>
      cases h
      exact if_pos hzero
  · next hzero =>
      split at h
      · next hle =>
          have hle' : (size : Int) ≤ (c.shift n).evictableSize := by
            simp only [shift]
            omega
          rw [if_neg hzero, if_pos hle']
          have htree : (c.shift n).tree = c.tree := rfl
          rw [htree]
          cases hloop : c.tree.evictLoop size c.tree.count 0 with
          | none =>
              rw [hloop] at h
              cases h
          | some r =>
              rw [hloop] at h
              cases h
              simp only [shift, Option.some.injEq, Prod.mk.injEq, mk.injEq, true_and, and_true]
              omega
      · cases h

theorem WellFormed.evict {hs : List RadixCacheHandle} {size : Nat} {indices : List Slot}
    (hw : c.WellFormed hs) (h : c.evict size = some (indices, c')) : c'.WellFormed hs := by
  by_cases hzero : size = 0
  · subst hzero
    cases h
    exact hw
  · by_cases hle : (size : Int) ≤ c.evictableSize
    · obtain ⟨indices', c1, hevict, hspec, -⟩ :=
        hw.evict_spec size (Nat.pos_of_ne_zero hzero) hle
      rw [h] at hevict
      cases hevict
      exact hspec.wellFormed
    · rw [RadixPrefixCache.evict, if_neg hzero, if_neg hle] at h
      cases h

end RadixPrefixCache

end FreeToken
