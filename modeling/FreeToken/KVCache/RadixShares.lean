import FreeToken.KVCache.RadixAccounts
import FreeToken.KVCache.RadixLocks

/-!
# What the locks alone decide

A node counts the locked handles whose paths go through it, wherever the node is. So the counts,
and with them the size counters, are those of any run that arrives at the same nodes with the
same handles locked.
-/

namespace FreeToken

namespace Forest

variable {hs : List RadixCacheHandle}

@[grind =]
def nodes : Forest → List RadixTreeNode
  | nil => []
  | node d cs rest => d :: (cs.nodes ++ rest.nodes)

theorem uuids_eq_map_nodes : ∀ f : Forest, f.uuids = f.nodes.map fun d => d.uuid
  | nil => rfl
  | node d cs rest => by
      rw [uuids, nodes, List.map_cons, List.map_append, uuids_eq_map_nodes cs,
        uuids_eq_map_nodes rest]

/-- The nodes on the way to where a handle stands. -/
def onPath (f : Forest) (at' : Option Nat) : List Nat :=
  ((at'.bind fun u => f.path u).getD []).map fun d => d.uuid

theorem onPath_node_self {d : RadixTreeNode} {cs rest : Forest} {at' : Option Nat}
    (hn : (node d cs rest).uuids.Nodup) :
    d.uuid ∈ (node d cs rest).onPath at' ↔ ∃ u ∈ d.uuid :: cs.uuids, at' = some u := by
  obtain ⟨hd, hn⟩ := List.nodup_cons.mp hn
  cases at' with
  | none => simp [onPath]
  | some u =>
      simp only [onPath, Option.bind_some, path, Option.some.injEq, exists_eq_right']
      by_cases hu : d.uuid = u
      · simp [hu]
      · rw [if_neg hu]
        cases hcs : cs.path u with
        | some ds =>
            have hmem := mem_uuids_of_path hcs
            simp [hmem]
        | none =>
            have hmem := path_eq_none_iff.mp hcs
            have hnot : d.uuid ∉ ((rest.path u).getD []).map fun d => d.uuid := by
              intro hin
              cases hp : rest.path u with
              | none =>
                  rw [hp] at hin
                  exact absurd hin List.not_mem_nil
              | some ds =>
                  rw [hp] at hin
                  obtain ⟨y, hy, heq⟩ := List.mem_map.mp hin
                  exact hd (List.mem_append_right _ (heq ▸ mem_uuids_of_mem_path hp hy))
            simp only [hnot, false_iff, List.mem_cons, hmem, or_false]
            exact Ne.symm hu

theorem onPath_of_notMem {f : Forest} {x : Nat} {at' : Option Nat} (h : x ∉ f.uuids) :
    x ∉ f.onPath at' := by
  intro hin
  rw [onPath] at hin
  cases hp : at'.bind fun u => f.path u with
  | none =>
      rw [hp] at hin
      exact absurd hin List.not_mem_nil
  | some ds =>
      rw [hp] at hin
      obtain ⟨y, hy, rfl⟩ := List.mem_map.mp hin
      obtain ⟨u, -, hpu⟩ := Option.bind_eq_some_iff.mp hp
      exact h (mem_uuids_of_mem_path hpu hy)

/-- A node below or beside the first one is on the paths it is on there. -/
theorem onPath_node_of_ne {d : RadixTreeNode} {cs rest : Forest} {x : Nat} {at' : Option Nat}
    (hn : (node d cs rest).uuids.Nodup) (hx : x ≠ d.uuid) :
    x ∈ (node d cs rest).onPath at' ↔ x ∈ cs.onPath at' ∨ x ∈ rest.onPath at' := by
  obtain ⟨hd, hn⟩ := List.nodup_cons.mp hn
  obtain ⟨-, -, hdisj⟩ := List.nodup_append'.mp hn
  cases at' with
  | none => simp [onPath]
  | some u =>
      simp only [onPath, Option.bind_some, path]
      by_cases hu : d.uuid = u
      · rw [hu] at hd
        rw [if_pos hu, path_eq_none_iff.mpr fun h => hd (List.mem_append_left _ h),
          path_eq_none_iff.mpr fun h => hd (List.mem_append_right _ h)]
        simp [hx]
      · rw [if_neg hu]
        cases hcs : cs.path u with
        | some ds =>
            rw [path_eq_none_iff.mpr fun h => hdisj (mem_uuids_of_path hcs) h]
            simp [hx]
        | none => simp

/-- A node counts the handles whose paths it is on. -/
theorem refCount_eq_countP : ∀ {f : Forest}, f.RefOk (holdersAt hs) → f.uuids.Nodup →
    ∀ x ∈ f.nodes, x.refCount = hs.countP fun h => decide (x.uuid ∈ f.onPath h.node)
  | node d cs rest, hr, hn, x, hx => by
      obtain ⟨hd, hcs, hrest⟩ := hr
      obtain ⟨hdn, hn'⟩ := List.nodup_cons.mp hn
      obtain ⟨hncs, hnrest, hdisj⟩ := List.nodup_append'.mp hn'
      rcases List.mem_cons.mp hx with rfl | hx
      · rw [hd, refSum_eq_sum hcs, ← List.sum_cons, ← List.map_cons,
          RadixPrefixCache.sum_holdersAt_eq
            (List.nodup_cons.mpr ⟨fun h => hdn (List.mem_append_left _ h), hncs⟩)]
        apply List.countP_congr
        intro h _
        rw [decide_eq_true_eq, decide_eq_true_eq]
        exact (onPath_node_self hn).symm
      · have hmem : x.uuid ∈ cs.uuids ∨ x.uuid ∈ rest.uuids := by
          rw [uuids_eq_map_nodes, uuids_eq_map_nodes]
          exact (List.mem_append.mp hx).imp (fun h => List.mem_map.mpr ⟨x, h, rfl⟩)
            fun h => List.mem_map.mpr ⟨x, h, rfl⟩
        have hne : x.uuid ≠ d.uuid := fun heq => hdn (heq ▸ List.mem_append.mpr hmem)
        rcases List.mem_append.mp hx with hx | hx
        · rw [refCount_eq_countP hcs hncs x hx]
          apply List.countP_congr
          intro h _
          have hin : x.uuid ∈ cs.uuids := by
            rw [uuids_eq_map_nodes]
            exact List.mem_map.mpr ⟨x, hx, rfl⟩
          rw [decide_eq_true_eq, decide_eq_true_eq, onPath_node_of_ne hn hne]
          exact (or_iff_left (onPath_of_notMem fun h => hdisj hin h)).symm
        · rw [refCount_eq_countP hrest hnrest x hx]
          apply List.countP_congr
          intro h _
          have hin : x.uuid ∈ rest.uuids := by
            rw [uuids_eq_map_nodes]
            exact List.mem_map.mpr ⟨x, hx, rfl⟩
          rw [decide_eq_true_eq, decide_eq_true_eq, onPath_node_of_ne hn hne]
          exact (or_iff_right (onPath_of_notMem fun h => hdisj h hin)).symm

/-- The summed length of the nodes whose names satisfy `p`. -/
def lengthWhere (p : Nat → Bool) (ds : List RadixTreeNode) : Nat :=
  ((ds.filter fun d => p d.uuid).map fun d => d.key.length).sum

theorem evictable_eq_nodes : ∀ f : Forest, f.evictable =
    ((f.nodes.filter fun d => decide (d.refCount = 0)).map fun d => d.key.length).sum
  | nil => rfl
  | node d cs rest => by
      rw [evictable, nodes, evictable_eq_nodes cs, evictable_eq_nodes rest]
      by_cases h : d.refCount = 0
      · simp [h, Nat.add_assoc]
      · simp [h]

theorem protectedLen_eq_nodes : ∀ f : Forest, f.protectedLen =
    ((f.nodes.filter fun d => decide (d.refCount ≠ 0)).map fun d => d.key.length).sum
  | nil => rfl
  | node d cs rest => by
      rw [protectedLen, nodes, protectedLen_eq_nodes cs, protectedLen_eq_nodes rest]
      by_cases h : d.refCount = 0
      · simp [h]
      · simp [h, Nat.add_assoc]

/-- The counts are determined by the locks. -/
theorem eq_of_bare_eq {held : Nat → Nat} : ∀ {f f' : Forest}, f.bare = f'.bare →
    f.RefOk held → f'.RefOk held → f = f'
  | nil, nil, _, _, _ => rfl
  | nil, node _ _ _, h, _, _ => by cases h
  | node _ _ _, nil, h, _, _ => by cases h
  | node d cs rest, node d' cs' rest', h, hr, hr' => by
      rw [bare, bare, node.injEq] at h
      obtain ⟨hd, hcs, hrest⟩ := h
      have hcs' := eq_of_bare_eq hcs hr.2.1 hr'.2.1
      have hrest' := eq_of_bare_eq hrest hr.2.2 hr'.2.2
      subst hcs' hrest'
      have huuid : d.uuid = d'.uuid := by
        rw [RadixTreeNode.mk.injEq] at hd
        exact hd.1
      have hcount : d.refCount = d'.refCount := by rw [hr.1, hr'.1, huuid]
      obtain ⟨uuid, key, value, refCount, timestamp, mambaValue, mambaRefCount⟩ := d
      obtain ⟨uuid', key', value', refCount', timestamp', mambaValue', mambaRefCount'⟩ := d'
      dsimp only at hd hcount
      rw [RadixTreeNode.mk.injEq] at hd
      obtain ⟨rfl, rfl, rfl, -, rfl, rfl, rfl⟩ := hd
      rw [hcount]

end Forest

namespace RadixNodes

variable {c c' : RadixNodes} {held : List RadixCacheHandle}

/-- The node is on the path of a locked handle. -/
def onPath (c : RadixNodes) (held : List RadixCacheHandle) (u : Nat) : Bool :=
  held.any fun hd => decide (u ∈ (c.nodesTo hd).map fun d => d.uuid)

/-- The counts and the size counters, from the paths of the locked handles alone. -/
structure Shares (c : RadixNodes) (held : List RadixCacheHandle) : Prop where
  refCount_eq : ∀ d ∈ c.cache.tree.nodes, d.refCount =
    held.countP fun hd => decide (d.uuid ∈ (c.nodesTo hd).map fun d => d.uuid)
  evictable_eq : c.cache.evictableSize +
      Forest.lengthWhere (c.onPath held) (c.evicted.map fun e => e.node) =
    Forest.lengthWhere (fun u => !c.onPath held u) c.cache.tree.nodes
  protected_eq : c.cache.protectedSize =
    Forest.lengthWhere (c.onPath held) c.cache.tree.nodes +
      Forest.lengthWhere (c.onPath held) (c.evicted.map fun e => e.node)

theorem mem_nodesTo_iff {hd : RadixCacheHandle} {u : Nat} :
    u ∈ (c.nodesTo hd).map (fun d => d.uuid) ↔
      u ∈ c.cache.tree.onPath (c.ancestors hd).2 ∨
        u ∈ (c.ancestors hd).1.map fun e => e.node.uuid := by
  rw [nodesTo, List.map_append, List.mem_append, Forest.onPath]
  apply or_congr Iff.rfl
  simp

theorem mem_uuids_of_nodes {f : Forest} {d : RadixTreeNode} (h : d ∈ f.nodes) :
    d.uuid ∈ f.uuids := by
  rw [Forest.uuids_eq_map_nodes]
  exact List.mem_map.mpr ⟨d, h, rfl⟩

theorem Sound.refCount_eq (h : c.Sound held) {d : RadixTreeNode} (hd : d ∈ c.cache.tree.nodes) :
    d.refCount = held.countP fun hd => decide (d.uuid ∈ (c.nodesTo hd).map fun d => d.uuid) := by
  rw [Forest.refCount_eq_countP h.wellFormed.refOk h.apart.shape.nodup d hd, List.countP_map]
  apply List.countP_congr
  intro x _
  dsimp only [Function.comp_apply]
  rw [decide_eq_true_eq, decide_eq_true_eq, mem_nodesTo_iff]
  refine (or_iff_left fun hgone => ?_).symm
  obtain ⟨e, he, heq⟩ := List.mem_map.mp hgone
  exact h.apart.notMem e ((ancestors_sublist c x).subset he) (heq ▸ mem_uuids_of_nodes hd)

theorem Sound.refs_eq (h : c.Sound held) {e : EvictedNode} (he : e ∈ c.evicted) :
    e.node.refCount =
      held.countP fun hd => decide (e.node.uuid ∈ (c.nodesTo hd).map fun d => d.uuid) := by
  rw [h.refs e he, holders]
  apply List.countP_congr
  intro x _
  rw [decide_eq_true_eq, decide_eq_true_eq, mem_nodesTo_iff]
  exact (or_iff_right (Forest.onPath_of_notMem (h.apart.notMem e he))).symm

theorem onPath_iff {u n : Nat}
    (h : n = held.countP fun hd => decide (u ∈ (c.nodesTo hd).map fun d => d.uuid)) :
    c.onPath held u = decide (n ≠ 0) := by
  rw [onPath, h, Bool.eq_iff_iff, List.any_eq_true, decide_eq_true_eq, ← Nat.pos_iff_ne_zero,
    List.countP_pos_iff]

/-- The evicted nodes that are held, from the paths. -/
theorem Sound.lengthWhere_evicted (h : c.Sound held) :
    Forest.lengthWhere (c.onPath held) (c.evicted.map fun e => e.node) =
      lockedLength c.evicted := by
  have hfilter : c.evicted.filter (fun e => c.onPath held e.node.uuid) =
      c.evicted.filter fun e => decide (e.node.refCount ≠ 0) :=
    List.filter_congr fun e he => onPath_iff (h.refs_eq he)
  rw [Forest.lengthWhere, lockedLength, List.filter_map, List.map_map]
  exact congrArg (fun es : List EvictedNode => (es.map fun e => e.node.key.length).sum) hfilter

theorem Sound.shares (h : c.Sound held) : c.Shares held where
  refCount_eq := fun _ hd => h.refCount_eq hd
  evictable_eq := by
    have hsum := h.wellFormed.evictable_eq
    have hfree : Forest.lengthWhere (fun u => !c.onPath held u) c.cache.tree.nodes =
        c.cache.tree.evictable := by
      rw [Forest.lengthWhere, Forest.evictable_eq_nodes]
      rw [List.filter_congr fun d hd => by rw [onPath_iff (h.refCount_eq hd)]]
      simp
    rw [h.lengthWhere_evicted, hfree]
    exact hsum
  protected_eq := by
    have hsum := h.wellFormed.protected_eq
    have hheld : Forest.lengthWhere (c.onPath held) c.cache.tree.nodes =
        c.cache.tree.protectedLen := by
      rw [Forest.lengthWhere, Forest.protectedLen_eq_nodes]
      rw [List.filter_congr fun d hd => onPath_iff (h.refCount_eq hd)]
    rw [h.lengthWhere_evicted, hheld]
    dsimp only [RadixPrefixCache.shift] at hsum
    omega

end RadixNodes

end FreeToken
