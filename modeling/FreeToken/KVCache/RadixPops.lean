import FreeToken.KVCache.RadixNodes
import FreeToken.KVCache.RadixStored

/-!
# The nodes an eviction pops

`Pops` is the loop of `evict` seen from the tree: each step takes the oldest of the unlocked
leaves that are there at that moment.
-/

namespace FreeToken

/-- One node after the other leaves the tree, each the first of the heap. -/
inductive Pops : Forest → List EvictedNode → Forest → Prop where
  | done (f : Forest) : Pops f [] f
  | pop {f f' : Forest} {x : RadixTreeNode} {es : List EvictedNode}
      (hmin : heapMin f.leaves = some x) (rest : Pops (f.remove x.uuid) es f') :
      Pops f ({ node := x, parent := f.parent x.uuid } :: es) f'

namespace Forest

variable {size : Nat}

theorem evictLoop_pops : ∀ {fuel : Nat} {f f' : Forest} {n k : Nat} {indices : List Slot},
    f.evictLoop size fuel n = some (indices, f', k) →
      Pops f (evictedNodes size fuel f n) f' ∧
        indices = (evictedNodes size fuel f n).flatMap (fun e => e.node.value) ∧
        k = n + ((evictedNodes size fuel f n).map fun e => e.node.key.length).sum ∧ size ≤ k
  | 0, f, f', n, k, indices, h => by
      rw [evictLoop] at h
      split at h
      · cases h
      · next hge =>
          cases h
          exact ⟨Pops.done f, rfl, rfl, Nat.le_of_not_lt hge⟩
  | fuel + 1, f, f', n, k, indices, h => by
      rw [evictLoop] at h
      split at h
      · next hlt =>
          split at h
          · cases h
          · next x hmin =>
              have hnodes : evictedNodes size (fuel + 1) f n =
                  { node := x, parent := f.parent x.uuid } ::
                    evictedNodes size fuel (f.remove x.uuid) (n + x.key.length) := by
                rw [evictedNodes, if_pos hlt, hmin]
              rw [hnodes]
              split at h
              · cases h
              · next indices' r hloop =>
                  obtain ⟨f1, k1⟩ := r
                  cases h
                  obtain ⟨hpops, hindices, hk, hsize⟩ := evictLoop_pops hloop
                  refine ⟨Pops.pop hmin hpops, ?_, ?_, hsize⟩
                  · rw [hindices]
                    rfl
                  · rw [hk, List.map_cons, List.sum_cons, Nat.add_assoc]
      · next hge =>
          cases h
          rw [evictedNodes, if_neg hge]
          exact ⟨Pops.done f, rfl, rfl, Nat.le_of_not_lt hge⟩

end Forest

namespace RadixPrefixCache

variable {c c' : RadixPrefixCache} {size : Nat} {indices : List Slot}

/-- What an eviction that returns did. -/
theorem evict_pops (h : c.evict size = some (indices, c')) :
    Pops c.tree (Forest.evictedNodes size c.tree.count c.tree 0) c'.tree ∧
      indices = (Forest.evictedNodes size c.tree.count c.tree 0).flatMap (fun e => e.node.value) ∧
      size ≤ ((Forest.evictedNodes size c.tree.count c.tree 0).map fun e => e.node.key.length).sum ∧
      c' = { c with
        tree := c'.tree
        evictableSize := c.evictableSize -
          ((Forest.evictedNodes size c.tree.count c.tree 0).map fun e => e.node.key.length).sum } := by
  rw [evict] at h
  split at h
  · next hzero =>
      cases h
      have hnone : Forest.evictedNodes size c.tree.count c.tree 0 = [] := by
        subst hzero
        cases c.tree.count <;> simp [Forest.evictedNodes]
      rw [hnone]
      exact ⟨Pops.done _, rfl, Nat.le_of_eq hzero, by simp⟩
  · split at h
    · split at h
      · cases h
      · next indices' tree k hloop =>
          cases h
          obtain ⟨hpops, hindices, hk, hsize⟩ := Forest.evictLoop_pops hloop
          rw [Nat.zero_add] at hk
          subst hk
          exact ⟨hpops, hindices, hsize, rfl⟩
    · cases h

end RadixPrefixCache

/-- What an eviction does to a tree in shape. -/
theorem Pops.shape {ps : Nat} {f f' : Forest} {es : List EvictedNode} (h : Pops f es f')
    (hv : f.Valid ps) (hn : f.uuids.Nodup) :
    f'.Valid ps ∧ f.uuids.Perm (es.map (fun e => e.node.uuid) ++ f'.uuids) := by
  induction h with
  | done f => exact ⟨hv, List.Perm.refl _⟩
  | pop hmin rest ih =>
      have hleaf := heapMin_mem hmin
      have hperm := Forest.uuids_remove (Forest.mem_tips_of_leaves hleaf) hn
      obtain ⟨hv', hperm'⟩ := ih (Forest.pruned_remove hleaf hv hn).1.valid
        (List.nodup_cons.mp (hperm.nodup_iff.mp hn)).2
      exact ⟨hv', hperm.trans (hperm'.cons _)⟩

namespace Forest

variable {f : Forest}

theorem refCount_of_leaves : ∀ {f : Forest} {x : RadixTreeNode}, x ∈ f.leaves → x.refCount = 0
  | node d cs rest, x, h => by
      rw [leaves_node, List.mem_append] at h
      rcases h with h | h
      · split at h
        · split at h
          · next h0 =>
              rw [List.mem_singleton.mp h]
              exact h0
          · exact absurd h List.not_mem_nil
        · exact refCount_of_leaves h
      · exact refCount_of_leaves h

theorem parent_eq {u : Nat} {x : RadixTreeNode} {a : List RadixTreeNode}
    (h : f.path u = some (a ++ [x])) : f.parent u = a.getLast?.map fun d => d.uuid := by
  rw [parent, h, Option.getD_some, List.dropLast_concat]

/-- The parent of a leaf is left when the leaf is gone. -/
theorem parent_mem_remove {x : RadixTreeNode} {v : Nat} (hx : x ∈ f.tips) (hn : f.uuids.Nodup)
    (h : f.parent x.uuid = some v) : v ∈ (f.remove x.uuid).uuids := by
  obtain ⟨a, ha⟩ := path_tip hx hn
  rw [parent_eq ha, Option.map_eq_some_iff] at h
  obtain ⟨y, hy, rfl⟩ := h
  obtain ⟨a0, rfl⟩ := List.getLast?_eq_some_iff.mp hy
  have hpath : f.path y.uuid = some (a0 ++ [y]) :=
    path_of_mem_path hn (by rw [ha, List.append_assoc]; rfl)
  have hne : y.uuid ≠ x.uuid := by
    intro heq
    rw [heq, ha, Option.some.injEq] at hpath
    simpa using congrArg List.length hpath
  have hmem := (uuids_remove hx hn).mem_iff.mp (mem_uuids_of_path hpath)
  exact (List.mem_cons.mp hmem).resolve_left hne

end Forest

end FreeToken
