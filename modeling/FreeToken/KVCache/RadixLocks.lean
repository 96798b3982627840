import Mathlib.Algebra.BigOperators.Group.List.Basic
import FreeToken.KVCache.RadixSpec

/-!
# Reference counts, prefix by prefix

`refCounts` lists the stored prefixes with the reference count of the node that
holds each of them. A split copies the count to both halves, so it does not show
here; a lock does.
-/

namespace FreeToken

namespace Forest

/-- The stored prefixes with their reference counts. -/
@[grind =]
def refCounts : Forest → List (List Token × Nat)
  | nil => []
  | node d cs rest =>
      spanEntries d.key (d.key.map fun _ => d.refCount) ++ below d.key cs.refCounts ++ rest.refCounts

/-- The counts of the prefixes of one token: those of the top nodes. -/
def topCounts (xs : List (List Token × Nat)) : Nat :=
  ((xs.filter fun x => x.1.length = 1).map Prod.snd).sum

theorem topCounts_append (xs ys : List (List Token × Nat)) :
    topCounts (xs ++ ys) = topCounts xs + topCounts ys := by
  simp [topCounts]

theorem topCounts_below {key : List Token} (hkey : key ≠ []) {xs : List (List Token × Nat)}
    (hxs : ∀ x ∈ xs, x.1 ≠ []) : topCounts (below key xs) = 0 := by
  unfold topCounts
  rw [List.filter_eq_nil_iff.mpr]
  · rfl
  · rintro ⟨q, n⟩ hy
    obtain ⟨q', hq', rfl⟩ := mem_below.mp hy
    have h1 := List.length_pos_iff.mpr hkey
    have h2 : 0 < q'.length := List.length_pos_iff.mpr (hxs _ hq')
    simp only [List.length_append, decide_eq_true_eq]
    omega

theorem ne_nil_of_mem_spanEntries {key : List Token} {value : List Slot}
    {x : List Token × Nat} (h : x ∈ spanEntries key value) : x.1 ≠ [] := by
  obtain ⟨n, hn, -, hq⟩ := mem_spanEntries.mp h
  intro hnil
  have hlen := congrArg List.length (hq.symm.trans hnil)
  simp only [List.length_take, List.length_nil] at hlen
  omega

theorem topCounts_spanEntries (n a : Nat) (key : List Token) :
    topCounts (spanEntries (a :: key) ((a :: key).map fun _ => n)) = n := by
  have hrest := topCounts_below (List.cons_ne_nil a [])
    (fun x (hx : x ∈ spanEntries key (key.map fun _ => n)) => ne_nil_of_mem_spanEntries hx)
  simp only [List.map_cons, spanEntries]
  rw [← List.singleton_append, topCounts_append]
  simp only [below, List.singleton_append] at hrest
  rw [hrest]
  simp [topCounts]

theorem ne_nil_of_mem_refCounts : ∀ {f : Forest} {x : List Token × Nat}, x ∈ f.refCounts → x.1 ≠ []
  | node d cs rest, x, h => by
      simp only [refCounts, List.mem_append] at h
      rcases h with (h | h) | h
      · exact ne_nil_of_mem_spanEntries h
      · obtain ⟨q, hq, heq⟩ := mem_below.mp h
        rw [heq]
        exact List.append_ne_nil_of_right_ne_nil _ (ne_nil_of_mem_refCounts hq)
      · exact ne_nil_of_mem_refCounts h

/-- The locks of a tree can be read off its counts. -/
theorem refSum_eq_topCounts {ps : Nat} : ∀ {f : Forest}, f.Valid ps → f.refSum = topCounts f.refCounts
  | nil, _ => rfl
  | node d cs rest, h => by
      have hrest := refSum_eq_topCounts h.2.2
      have hbelow := topCounts_below h.1.1 (fun x hx => ne_nil_of_mem_refCounts (f := cs) hx)
      obtain ⟨a, key, hkey⟩ := List.exists_cons_of_ne_nil h.1.1
      have hown := topCounts_spanEntries d.refCount a key
      rw [← hkey] at hown
      rw [refCounts, topCounts_append, topCounts_append, hbelow, hown, refSum, hrest, Nat.add_zero]

theorem refSum_eq_sum {held : Nat → Nat} : ∀ {f : Forest}, f.RefOk held →
    f.refSum = (f.uuids.map held).sum
  | nil, _ => rfl
  | node d cs rest, h => by
      simp only [refSum, uuids, List.map_cons, List.map_append, List.sum_cons, List.sum_append]
      rw [h.1, refSum_eq_sum h.2.1, refSum_eq_sum h.2.2]
      omega

end Forest

namespace RadixPrefixCache

variable {c c' : RadixPrefixCache} {hs : List RadixCacheHandle}

theorem sum_holdersAt_eq {uuids : List Nat} (hn : uuids.Nodup) : ∀ hs : List RadixCacheHandle,
    (uuids.map (holdersAt hs)).sum =
      hs.countP fun h => decide (∃ u ∈ uuids, h.node = some u)
  | [] => by
      refine List.sum_eq_zero fun x hx => ?_
      obtain ⟨u, -, rfl⟩ := List.mem_map.mp hx
      rfl
  | h :: hs => by
      have hcons : holdersAt (h :: hs) = fun u => holdersAt hs u + if h.node = some u then 1 else 0 :=
        funext (holdersAt_cons h hs)
      rw [hcons, List.sum_map_add, sum_holdersAt_eq hn hs, List.countP_cons]
      congr 1
      cases hnode : h.node with
      | none => simp
      | some v =>
          rw [List.sum_map_eq_nsmul_single v]
          · by_cases hv : v ∈ uuids
            · simp [hv, List.count_eq_one_of_mem hn hv]
            · simp [hv, List.count_eq_zero_of_not_mem hv]
          · intro u hu _
            simp [Ne.symm hu]

theorem sum_holdersAt {uuids : List Nat} (hn : uuids.Nodup) {hs : List RadixCacheHandle}
    (hmem : ∀ h ∈ hs, ∀ u, h.node = some u → u ∈ uuids) :
    (uuids.map (holdersAt hs)).sum = hs.countP fun h => h.node.isSome := by
  rw [sum_holdersAt_eq hn]
  apply List.countP_congr
  intro h hh
  rw [decide_eq_true_eq, Option.isSome_iff_exists]
  exact ⟨fun ⟨u, _, hu⟩ => ⟨u, hu⟩, fun ⟨u, hu⟩ => ⟨u, hmem h hh u hu, hu⟩⟩

/-- The locks the tree counts are the handles held below the root. -/
theorem WellFormed.refSum_eq (hw : c.WellFormed hs) :
    c.tree.refSum = hs.countP fun h => h.node.isSome := by
  rw [Forest.refSum_eq_sum hw.refOk]
  exact sum_holdersAt hw.nodup hw.held

/-- Locking a handle below the root shows in the counts. -/
theorem WellFormed.refCounts_ne {h : RadixCacheHandle} (hw : c.WellFormed hs)
    (hw' : c'.WellFormed (h :: hs)) (hnode : h.node ≠ none) :
    c'.tree.refCounts ≠ c.tree.refCounts := by
  intro heq
  have hsum := hw.refSum_eq
  have hsum' := hw'.refSum_eq
  rw [Forest.refSum_eq_topCounts hw.valid] at hsum
  rw [Forest.refSum_eq_topCounts hw'.valid, heq, hsum, List.countP_cons,
    if_pos (Option.isSome_iff_ne_none.mpr hnode)] at hsum'
  omega

end RadixPrefixCache

end FreeToken
