import FreeToken.KVCache.RadixUpdates

/-!
# Eviction

`evict` removes unlocked leaves until enough slots came free. `Pruned` is what
any number of such removals does; the loop finds a leaf as long as the unlocked
spans cover the request, because a node nobody holds has no held descendant.
-/

namespace FreeToken

/-- What removing unlocked leaves with these slots does to a tree. -/
structure Pruned (ps : Nat) (f f' : Forest) (indices : List Slot) : Prop where
  slots_perm : f.slots.Perm (indices ++ f'.slots)
  entries_sub : ∀ x ∈ f'.entries, x ∈ f.entries
  firstPages_sub : ∀ k ∈ f'.firstPages ps, k ∈ f.firstPages ps
  valid : f'.Valid ps
  uuids_sub : f'.uuids.Sublist f.uuids
  refSum_eq : f'.refSum = f.refSum
  refOk : ∀ held, f.RefOk held → f'.RefOk held
  evictable_eq : f'.evictable + indices.length = f.evictable
  protectedLen_eq : f'.protectedLen = f.protectedLen
  span_eq : ∀ held, f.RefOk held → ∀ v ∈ f.uuids, held v ≠ 0 →
    v ∈ f'.uuids ∧ f'.span v = f.span v

namespace Pruned

variable {ps : Nat} {f f' f'' : Forest} {xs ys : List Slot}

theorem refl (hv : f.Valid ps) : Pruned ps f f [] where
  slots_perm := List.Perm.refl _
  entries_sub := fun _ h => h
  firstPages_sub := fun _ h => h
  valid := hv
  uuids_sub := List.Sublist.refl _
  refSum_eq := rfl
  refOk := fun _ h => h
  evictable_eq := rfl
  protectedLen_eq := rfl
  span_eq := fun _ _ _ hv _ => ⟨hv, rfl⟩

theorem trans (h : Pruned ps f f' xs) (h' : Pruned ps f' f'' ys) : Pruned ps f f'' (xs ++ ys) where
  slots_perm := by
    rw [List.append_assoc]
    exact h.slots_perm.trans (h'.slots_perm.append_left xs)
  entries_sub := fun x hx => h.entries_sub x (h'.entries_sub x hx)
  firstPages_sub := fun k hk => h.firstPages_sub k (h'.firstPages_sub k hk)
  valid := h'.valid
  uuids_sub := h'.uuids_sub.trans h.uuids_sub
  refSum_eq := h'.refSum_eq.trans h.refSum_eq
  refOk := fun held hr => h'.refOk held (h.refOk held hr)
  evictable_eq := by
    have h1 := h.evictable_eq
    have h2 := h'.evictable_eq
    rw [List.length_append]
    omega
  protectedLen_eq := h'.protectedLen_eq.trans h.protectedLen_eq
  span_eq := by
    intro held hr v hv hheld
    obtain ⟨hv', hspan⟩ := h.span_eq held hr v hv hheld
    obtain ⟨hv'', hspan'⟩ := h'.span_eq held (h.refOk held hr) v hv' hheld
    exact ⟨hv'', hspan'.trans hspan⟩

end Pruned

namespace Forest

variable {ps : Nat}

theorem leaves_node (d : RadixTreeNode) (cs rest : Forest) :
    (node d cs rest).leaves =
      (if cs = nil then (if d.refCount = 0 then [d] else []) else cs.leaves) ++ rest.leaves := by
  cases cs <;> simp [leaves]

theorem mem_uuids_of_leaves {v : RadixTreeNode} : ∀ {f : Forest}, v ∈ f.leaves → v.uuid ∈ f.uuids
  | node d cs rest, h => by
      rw [leaves_node, List.mem_append] at h
      simp only [uuids, List.mem_cons, List.mem_append]
      rcases h with h | h
      · split at h
        · split at h
          · left; rw [List.mem_singleton.mp h]
          · simp at h
        · exact Or.inr (Or.inl (mem_uuids_of_leaves h))
      · exact Or.inr (Or.inr (mem_uuids_of_leaves h))

theorem remove_of_notMem {u : Nat} : ∀ {f : Forest}, u ∉ f.uuids → remove u f = f
  | nil, _ => rfl
  | node d cs rest, h => by
      simp only [uuids, List.mem_cons, List.mem_append, not_or] at h
      obtain ⟨hd, hcs, hrest⟩ := h
      have hd' : ¬ d.uuid = u := fun h => hd h.symm
      simp [remove, hd', remove_of_notMem hcs, remove_of_notMem hrest]

theorem pruned_child {d : RadixTreeNode} {cs cs' rest : Forest} {xs : List Slot}
    (hv : (node d cs rest).Valid ps) (hn : (node d cs rest).uuids.Nodup)
    (h : Pruned ps cs cs' xs) : Pruned ps (node d cs rest) (node d cs' rest) xs := by
  have hv' : (node d cs' rest).Valid ps := ⟨hv.1, h.valid, hv.2.2⟩
  obtain ⟨hdn, hn⟩ := List.nodup_cons.mp hn
  obtain ⟨hncs, hnrest, hdisj⟩ := List.nodup_append'.mp hn
  refine ⟨?_, ?_, fun k hk => hk, hv', ?_, rfl, ?_, ?_, ?_, ?_⟩
  · rw [slots_node hv, slots_node hv', List.append_assoc, List.append_assoc]
    refine (((h.slots_perm.append_right rest.slots).append_left d.value).trans ?_)
    rw [List.append_assoc, ← List.append_assoc d.value, ← List.append_assoc xs]
    exact List.perm_append_comm.append_right _
  · intro x hx
    simp only [entries, List.mem_append] at hx ⊢
    rcases hx with (hx | hx) | hx
    · exact Or.inl (Or.inl hx)
    · obtain ⟨y, hy, rfl⟩ := List.mem_map.mp hx
      exact Or.inl (Or.inr (List.mem_map.mpr ⟨y, h.entries_sub y hy, rfl⟩))
    · exact Or.inr hx
  · exact (h.uuids_sub.append (List.Sublist.refl _)).cons_cons d.uuid
  · intro held hr
    exact ⟨by rw [h.refSum_eq]; exact hr.1, h.refOk held hr.2.1, hr.2.2⟩
  · have := h.evictable_eq
    simp only [evictable]
    omega
  · simp only [protectedLen, h.protectedLen_eq]
  · intro held hr v hmem hheld
    by_cases hd : d.uuid = v
    · simp [uuids, span, path, hd]
    · by_cases hcs : v ∈ cs.uuids
      · obtain ⟨hcs', hspan⟩ := h.span_eq held hr.2.1 v hcs hheld
        obtain ⟨ds, hds⟩ := exists_path hcs
        obtain ⟨ds', hds'⟩ := exists_path hcs'
        refine ⟨by simp [uuids, hcs'], ?_⟩
        simp only [span, hds, hds', Option.map_some, Option.some.injEq, Prod.mk.injEq] at hspan
        simp [span, path, hd, hds, hds', hspan.1, hspan.2]
      · have hcs' : v ∉ cs'.uuids := fun h' => hcs (h.uuids_sub.subset h')
        simp only [uuids, List.mem_cons, List.mem_append] at hmem
        have hrest : v ∈ rest.uuids := by
          rcases hmem with rfl | h | h
          · exact absurd rfl hd
          · exact absurd h hcs
          · exact h
        refine ⟨by simp [uuids, hrest], ?_⟩
        simp [span, path, hd, path_eq_none_iff.mpr hcs, path_eq_none_iff.mpr hcs']

theorem pruned_sibling {d : RadixTreeNode} {cs rest rest' : Forest} {xs : List Slot}
    (hv : (node d cs rest).Valid ps) (h : Pruned ps rest rest' xs) :
    Pruned ps (node d cs rest) (node d cs rest') xs := by
  have hv' : (node d cs rest').Valid ps :=
    ⟨⟨hv.1.1, hv.1.2.1, hv.1.2.2.1, fun hmem => hv.1.2.2.2 (h.firstPages_sub _ hmem)⟩,
      hv.2.1, h.valid⟩
  refine ⟨?_, ?_, ?_, hv', ?_, ?_, ?_, ?_, ?_, ?_⟩
  · rw [slots_node hv, slots_node hv']
    refine (h.slots_perm.append_left _).trans ?_
    rw [← List.append_assoc, ← List.append_assoc]
    exact List.perm_append_comm.append_right _
  · intro x hx
    simp only [entries, List.mem_append] at hx ⊢
    rcases hx with hx | hx
    · exact Or.inl hx
    · exact Or.inr (h.entries_sub x hx)
  · intro k hk
    rcases List.mem_cons.mp hk with rfl | hk
    · exact List.mem_cons_self
    · exact List.mem_cons_of_mem _ (h.firstPages_sub k hk)
  · exact ((List.Sublist.refl _).append h.uuids_sub).cons_cons d.uuid
  · simp only [refSum, h.refSum_eq]
  · exact fun held hr => ⟨hr.1, hr.2.1, h.refOk held hr.2.2⟩
  · have := h.evictable_eq
    simp only [evictable]
    omega
  · simp only [protectedLen, h.protectedLen_eq]
  · intro held hr v hmem hheld
    by_cases hd : d.uuid = v
    · simp [uuids, span, path, hd]
    · cases hcs : cs.path v with
      | some ds =>
          have := mem_uuids_of_path hcs
          exact ⟨by simp [uuids, this], by simp [span, path, hd, hcs]⟩
      | none =>
          simp only [uuids, List.mem_cons, List.mem_append] at hmem
          have hrest : v ∈ rest.uuids := by
            rcases hmem with rfl | h | h
            · exact absurd rfl hd
            · exact absurd h (path_eq_none_iff.mp hcs)
            · exact h
          obtain ⟨hrest', hspan⟩ := h.span_eq held hr.2.2 v hrest hheld
          refine ⟨by simp [uuids, hrest'], ?_⟩
          simpa [span, path, hd, hcs] using hspan

/-- Removing a leaf nobody holds. -/
theorem pruned_leaf {d : RadixTreeNode} {rest : Forest} (h0 : d.refCount = 0)
    (hv : (node d nil rest).Valid ps) (hn : (node d nil rest).uuids.Nodup) :
    Pruned ps (node d nil rest) rest d.value := by
  have hdn := (List.nodup_cons.mp hn).1
  refine ⟨?_, ?_, ?_, hv.2.2, ?_, ?_, fun held hr => hr.2.2, ?_, ?_, ?_⟩
  · rw [slots_node hv, slots_nil, List.append_nil]
  · intro x hx
    simp [entries, hx]
  · exact fun k hk => List.mem_cons_of_mem _ hk
  · exact List.sublist_cons_self ..
  · simp [refSum, h0]
  · simp only [evictable, h0, if_true, hv.1.2.2.1]
    omega
  · simp [protectedLen, h0]
  · intro held hr v hmem hheld
    have hd : d.uuid ≠ v := by
      rintro rfl
      have := hr.1
      omega
    have hrest : v ∈ rest.uuids := by
      rcases List.mem_cons.mp hmem with rfl | h
      · exact absurd rfl hd
      · simpa [uuids] using h
    exact ⟨hrest, by simp [span, path, hd]⟩

theorem pruned_remove : ∀ {f : Forest} {v : RadixTreeNode}, v ∈ f.leaves → f.Valid ps →
    f.uuids.Nodup → Pruned ps f (f.remove v.uuid) v.value ∧ v.key.length = v.value.length ∧
      (f.remove v.uuid).count + 1 = f.count
  | node d cs rest, v, hmem, hv, hn => by
      obtain ⟨hdn, hn'⟩ := List.nodup_cons.mp hn
      obtain ⟨hncs, hnrest, hdisj⟩ := List.nodup_append'.mp hn'
      simp only [List.mem_append, not_or] at hdn
      rw [leaves_node, List.mem_append] at hmem
      rcases hmem with hmem | hmem
      · split at hmem
        · rename_i hnil
          subst hnil
          split at hmem
          · rename_i h0
            obtain rfl := List.mem_singleton.mp hmem
            simp only [remove, if_true]
            exact ⟨pruned_leaf h0 hv hn, hv.1.2.2.1, by simp [count]; omega⟩
          · simp at hmem
        · have hcs := mem_uuids_of_leaves hmem
          have hd : ¬ d.uuid = v.uuid := fun h => hdn.1 (h ▸ hcs)
          have hrest : v.uuid ∉ rest.uuids := fun h => hdisj hcs h
          obtain ⟨ih, hlen, hcount⟩ := pruned_remove hmem hv.2.1 hncs
          simp only [remove, hd, if_false, remove_of_notMem hrest]
          exact ⟨pruned_child hv hn ih, hlen, by simp only [count]; omega⟩
      · have hrest := mem_uuids_of_leaves hmem
        have hd : ¬ d.uuid = v.uuid := fun h => hdn.2 (h ▸ hrest)
        have hcs : v.uuid ∉ cs.uuids := fun h => hdisj h hrest
        obtain ⟨ih, hlen, hcount⟩ := pruned_remove hmem hv.2.2 hnrest
        simp only [remove, hd, if_false, remove_of_notMem hcs]
        exact ⟨pruned_sibling hv ih, hlen, by simp only [count]; omega⟩

/-- Unlocked spans leave an unlocked leaf: below a node nobody holds, nobody
holds anything. -/
theorem leaves_ne_nil {held : Nat → Nat} : ∀ {f : Forest}, f.Valid ps → f.RefOk held →
    0 < f.evictable → f.leaves ≠ []
  | node d cs rest, hv, hr, hpos => by
      rw [leaves_node]
      by_cases hrest : 0 < rest.evictable
      · have ih := leaves_ne_nil hv.2.2 hr.2.2 hrest
        simp [ih]
      · by_cases hcs : 0 < cs.evictable
        · have ih := leaves_ne_nil hv.2.1 hr.2.1 hcs
          have hnil : cs ≠ nil := by
            rintro rfl
            simp [evictable] at hcs
          simp [hnil, ih]
        · have h0 : d.refCount = 0 := by
            by_contra h0
            simp [evictable, h0] at hpos
            omega
          cases cs with
          | nil => simp [h0]
          | node e cs' rest' =>
              exfalso
              have hsum := hr.1
              simp only [refSum] at hsum
              have he : e.refCount = 0 := by omega
              have hkey := List.length_pos_of_ne_nil hv.2.1.1.1
              simp only [evictable, he, if_true] at hcs
              omega

end Forest

theorem heapMin_mem : ∀ {ds : List RadixTreeNode} {v : RadixTreeNode}, heapMin ds = some v → v ∈ ds
  | d :: ds, v, h => by
      simp only [heapMin] at h
      split at h
      · cases h
        exact List.mem_cons_self
      · rename_i e he
        split at h
        · cases h
          exact List.mem_cons_of_mem _ (heapMin_mem he)
        · cases h
          exact List.mem_cons_self

theorem exists_heapMin : ∀ {ds : List RadixTreeNode}, ds ≠ [] → ∃ v, heapMin ds = some v
  | d :: ds, _ => by
      simp only [heapMin]
      cases heapMin ds with
      | none => exact ⟨d, rfl⟩
      | some e =>
          dsimp only
          split
          · exact ⟨e, rfl⟩
          · exact ⟨d, rfl⟩

/-- The loop ends, whole nodes at a time, with at least the slots asked for. -/
theorem evictLoop_spec {ps : Nat} {held : Nat → Nat} (size : Nat) :
    ∀ (fuel : Nat) {f : Forest} (evictedSize : Nat), f.Valid ps → f.uuids.Nodup →
      f.RefOk held → f.count ≤ fuel → size ≤ evictedSize + f.evictable →
      ∃ indices f', f.evictLoop size fuel evictedSize =
          some (indices, f', evictedSize + indices.length) ∧
        Pruned ps f f' indices ∧ size ≤ evictedSize + indices.length
  | 0, f, evictedSize, hv, hn, hr, hcount, hsize => by
      have hnil : f.evictable = 0 := by
        cases f with
        | nil => rfl
        | node d cs rest => simp [Forest.count] at hcount
      have hlt : ¬ evictedSize < size := by omega
      exact ⟨[], f, by simp [Forest.evictLoop, hlt], Pruned.refl hv, by simp; omega⟩
  | fuel + 1, f, evictedSize, hv, hn, hr, hcount, hsize => by
      by_cases hlt : evictedSize < size
      · obtain ⟨victim, hvictim⟩ := exists_heapMin (Forest.leaves_ne_nil hv hr (by omega))
        obtain ⟨hpruned, hlen, hrem⟩ := Forest.pruned_remove (heapMin_mem hvictim) hv hn
        have heq := hpruned.evictable_eq
        obtain ⟨indices, f', hloop, hrest, hsize'⟩ :=
          evictLoop_spec size fuel (evictedSize + victim.key.length)
            hpruned.valid (hn.sublist hpruned.uuids_sub) (hpruned.refOk held hr)
            (by omega) (by omega)
        refine ⟨victim.value ++ indices, f', ?_, hpruned.trans hrest, ?_⟩
        · simp only [Forest.evictLoop, hlt, if_true, hvictim, hloop]
          rw [List.length_append, hlen, Nat.add_assoc]
        · rw [List.length_append]
          omega
      · exact ⟨[], f, by simp [Forest.evictLoop, hlt], Pruned.refl hv, by simp; omega⟩

end FreeToken
