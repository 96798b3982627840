import FreeToken.KVCache.RadixEntries

/-!
# What a walk does to the tree

A walk touches timestamps and may split one node (`Resplit`). Neither changes
what the tree stores, who holds what, or where a handle points; and the walk
stops at the longest stored prefix that is a whole number of pages.
-/

namespace FreeToken

/-- The trees a walk can leave: touched timestamps, and at most one node split
at a page boundary, its upper half named `u`. -/
inductive Resplit (ps u : Nat) : Forest → Forest → Prop where
  | same (f : Forest) : Resplit ps u f f
  | split (d : RadixTreeNode) (cs rest : Forest) (pos tic : Nat)
      (hpos : 0 < pos) (hdvd : ps ∣ pos) (hlt : pos < d.key.length) :
      Resplit ps u (.node d cs rest)
        (.node (d.upper u pos tic) (.node (d.lower pos) cs .nil) rest)
  | child (d : RadixTreeNode) (tic : Nat) {cs cs' : Forest} (rest : Forest)
      (h : Resplit ps u cs cs') :
      Resplit ps u (.node d cs rest) (.node { d with timestamp := tic } cs' rest)
  | sibling (d : RadixTreeNode) (cs : Forest) {rest rest' : Forest}
      (h : Resplit ps u rest rest') : Resplit ps u (.node d cs rest) (.node d cs rest')

namespace Resplit

open Forest

variable {ps u : Nat} {f f' : Forest}

theorem entries_eq (h : Resplit ps u f f') (hv : f.Valid ps) : f'.entries = f.entries := by
  induction h with
  | same f => rfl
  | split d cs rest pos tic hpos hdvd hlt =>
      have hlen := hv.1.2.2.1
      have hkey : d.key.take pos ++ d.key.drop pos = d.key := List.take_append_drop ..
      have hspan := spanEntries_append (d.key.drop pos) (d.value.drop pos)
        (show (d.key.take pos).length = (d.value.take pos).length by simp [hlen])
      rw [List.take_append_drop, List.take_append_drop] at hspan
      simp only [entries, RadixTreeNode.upper, RadixTreeNode.lower, hspan, below_append,
        below_below, hkey, List.append_nil, List.append_assoc]
  | child d tic rest h ih => simp [entries, ih hv.2.1]
  | sibling d cs h ih => simp [entries, ih hv.2.2]

theorem firstPages_eq (h : Resplit ps u f f') : f'.firstPages ps = f.firstPages ps := by
  induction h with
  | same f => rfl
  | split d cs rest pos tic hpos hdvd hlt =>
      simp [firstPages, RadixTreeNode.upper, keyFn_take (Nat.le_of_dvd hpos hdvd)]
  | child d tic rest h ih => simp [firstPages]
  | sibling d cs h ih => simp [firstPages, ih]

theorem valid (h : Resplit ps u f f') (hv : f.Valid ps) : f'.Valid ps := by
  induction h with
  | same f => exact hv
  | split d cs rest pos tic hpos hdvd hlt =>
      obtain ⟨⟨hne, hd, hlen, hpage⟩, hcs, hrest⟩ := hv
      have hlower : ps ∣ d.key.length - pos := Nat.dvd_sub hd hdvd
      have hupper : d.key.take pos ≠ [] := by
        intro hnil
        have := congrArg List.length hnil
        simp only [List.length_take, List.length_nil] at this
        omega
      have hlower_ne : d.key.drop pos ≠ [] := by
        intro hnil
        have := congrArg List.length hnil
        simp only [List.length_drop, List.length_nil] at this
        omega
      refine ⟨⟨hupper, ?_, ?_, ?_⟩, ⟨⟨hlower_ne, ?_, ?_, by simp [firstPages]⟩, hcs, trivial⟩, hrest⟩
      · simpa [RadixTreeNode.upper, Nat.min_eq_left hlt.le] using hdvd
      · simp [RadixTreeNode.upper, hlen]
      · simpa [RadixTreeNode.upper, keyFn_take (Nat.le_of_dvd hpos hdvd)] using hpage
      · simpa [RadixTreeNode.lower] using hlower
      · simp [RadixTreeNode.lower, hlen]
  | child d tic rest h ih => exact ⟨hv.1, ih hv.2.1, hv.2.2⟩
  | sibling d cs h ih =>
      obtain ⟨⟨hne, hd, hlen, hpage⟩, hcs, hrest⟩ := hv
      exact ⟨⟨hne, hd, hlen, by rwa [firstPages_eq h]⟩, hcs, ih hrest⟩

theorem uuids_perm (h : Resplit ps u f f') :
    f'.uuids = f.uuids ∨ f'.uuids.Perm (u :: f.uuids) := by
  induction h with
  | same f => exact Or.inl rfl
  | split d cs rest pos tic hpos hdvd hlt =>
      right
      simp [uuids, RadixTreeNode.upper, RadixTreeNode.lower]
  | @child d tic cs cs' rest h ih =>
      rcases ih with ih | ih
      · left; simp [uuids, ih]
      · right
        refine (List.Perm.cons _ (ih.append_right _)).trans ?_
        exact List.Perm.swap u d.uuid _
  | @sibling d cs rest rest' h ih =>
      rcases ih with ih | ih
      · left; simp [uuids, ih]
      · right
        have hmid : (cs.uuids ++ rest'.uuids).Perm (u :: (cs.uuids ++ rest.uuids)) :=
          (ih.append_left _).trans List.perm_middle
        exact (hmid.cons d.uuid).trans (List.Perm.swap u d.uuid _)

theorem refSum_eq (h : Resplit ps u f f') : f'.refSum = f.refSum := by
  induction h with
  | same f => rfl
  | split d cs rest pos tic hpos hdvd hlt => simp [refSum, RadixTreeNode.upper]
  | child d tic rest h ih => simp [refSum]
  | sibling d cs h ih => simp [refSum, ih]

theorem refOk {held : Nat → Nat} (h : Resplit ps u f f') (hu : held u = 0)
    (hr : f.RefOk held) : f'.RefOk held := by
  induction h with
  | same f => exact hr
  | split d cs rest pos tic hpos hdvd hlt =>
      obtain ⟨hd, hcs, hrest⟩ := hr
      exact ⟨by simp [RadixTreeNode.upper, RadixTreeNode.lower, refSum, hu],
        ⟨by simpa [RadixTreeNode.lower] using hd, hcs, trivial⟩, hrest⟩
  | child d tic rest h ih => exact ⟨by rw [refSum_eq h]; exact hr.1, ih hr.2.1, hr.2.2⟩
  | sibling d cs h ih => exact ⟨hr.1, hr.2.1, ih hr.2.2⟩

theorem evictable_eq (h : Resplit ps u f f') : f'.evictable = f.evictable := by
  induction h with
  | same f => rfl
  | split d cs rest pos tic hpos hdvd hlt =>
      simp only [evictable, RadixTreeNode.upper, RadixTreeNode.lower, List.length_take,
        List.length_drop]
      split <;> omega
  | child d tic rest h ih => simp [evictable, ih]
  | sibling d cs h ih => simp [evictable, ih]

theorem protectedLen_eq (h : Resplit ps u f f') : f'.protectedLen = f.protectedLen := by
  induction h with
  | same f => rfl
  | split d cs rest pos tic hpos hdvd hlt =>
      simp only [protectedLen, RadixTreeNode.upper, RadixTreeNode.lower, List.length_take,
        List.length_drop]
      split <;> omega
  | child d tic rest h ih => simp [protectedLen, ih]
  | sibling d cs h ih => simp [protectedLen, ih]

/-- A handle keeps its span: the split node's lower half is the old object. -/
theorem span_eq (h : Resplit ps u f f') (hu : u ∉ f.uuids) {v : Nat} (hv : v ∈ f.uuids) :
    f'.span v = f.span v := by
  induction h with
  | same f => rfl
  | split d cs rest pos tic hpos hdvd hlt =>
      have huv : ¬ u = v := fun h => hu (h ▸ hv)
      by_cases hd : d.uuid = v
      · simp [span, path, RadixTreeNode.upper, RadixTreeNode.lower, huv, hd]
      · cases hp : cs.path v with
        | some ds =>
            simp [span, path, RadixTreeNode.upper, RadixTreeNode.lower, huv, hd, hp,
              ← List.append_assoc]
        | none => simp [span, path, RadixTreeNode.upper, RadixTreeNode.lower, huv, hd, hp]
  | @child d tic cs cs' rest h ih =>
      by_cases hd : d.uuid = v
      · simp [span, path, hd]
      · have hucs : u ∉ cs.uuids := fun h => hu (by simp [uuids, h])
        by_cases hcs : v ∈ cs.uuids
        · have hspan := ih hucs hcs
          obtain ⟨ds, hds⟩ := exists_path hcs
          cases hds' : cs'.path v with
          | none => simp [span, hds, hds'] at hspan
          | some ds' =>
              simp only [span, hds, hds', Option.map_some, Option.some.injEq, Prod.mk.injEq] at hspan
              simp [span, path, hd, hds, hds', hspan.1, hspan.2]
        · have hcs' : v ∉ cs'.uuids := by
            rcases uuids_perm h with h' | h'
            · rwa [h']
            · intro hmem
              rcases List.mem_cons.mp (h'.mem_iff.mp hmem) with rfl | hmem
              · exact hu hv
              · exact hcs hmem
          simp [span, path, hd, path_eq_none_iff.mpr hcs, path_eq_none_iff.mpr hcs']
  | @sibling d cs rest rest' h ih =>
      by_cases hd : d.uuid = v
      · simp [span, path, hd]
      · cases hp : cs.path v with
        | some ds => simp [span, path, hd, hp]
        | none =>
            have hrest : v ∈ rest.uuids := by
              have hcs := path_eq_none_iff.mp hp
              simp only [uuids, List.mem_cons, List.mem_append] at hv
              rcases hv with rfl | hv | hv
              · exact absurd rfl hd
              · exact absurd hv hcs
              · exact hv
            have hspan := ih (fun h => hu (by simp [uuids, h])) hrest
            simpa [span, path, hd, hp] using hspan

end Resplit

/-! ### The walk -/

/-- Common first pages make the aligned match a page at least. -/
theorem pageSize_le_matchLen {ps : Nat} {key input : List Token}
    (hkey : ps ≤ key.length) (h : keyFn ps key = keyFn ps input) :
    ps ≤ alignDownNat (fastCompareKey key input) ps := by
  have hlen : (keyFn ps key).length = ps := by simp [keyFn, hkey]
  have hpre : keyFn ps key <+: input := by rw [h]; exact List.take_prefix ..
  have hle := le_fastCompareKey (keyFn ps key) key input (List.take_prefix ..) hpre
  rw [hlen] at hle
  exact le_alignDownNat (Nat.dvd_refl ps) hle

theorem matchLen_le_key (ps : Nat) (key input : List Token) :
    alignDownNat (fastCompareKey key input) ps ≤ key.length :=
  (alignDownNat_le _ _).trans (fastCompareKey_le_left _ _)

theorem take_matchLen (ps : Nat) (key input : List Token) :
    key.take (alignDownNat (fastCompareKey key input) ps) =
      input.take (alignDownNat (fastCompareKey key input) ps) :=
  take_fastCompareKey _ _ _ (alignDownNat_le _ _)

namespace Forest

variable {ps tic counter : Nat}

theorem treeWalk_resplit (hps : 0 < ps) :
    ∀ {f : Forest} {parent : Option Nat} {input : List Token}, f.Valid ps →
      Resplit ps counter f (treeWalk ps tic counter f parent input).tree
  | nil, _, _, _ => Resplit.same _
  | node d cs rest, parent, input, hv => by
      unfold treeWalk
      split
      · exact Resplit.same _
      · split
        · rename_i hpage
          have hge := pageSize_le_matchLen (pageSize_le_key hv) hpage
          have hle := matchLen_le_key ps d.key input
          dsimp only
          split
          · rename_i hne
            exact Resplit.split d cs rest _ tic (by omega) (dvd_alignDownNat _ _) (by omega)
          · exact Resplit.child d tic rest (treeWalk_resplit hps hv.2.1)
        · exact Resplit.sibling d cs (treeWalk_resplit hps hv.2.2)

theorem treeWalk_counter :
    ∀ (f : Forest) (parent : Option Nat) (input : List Token),
      counter ≤ (treeWalk ps tic counter f parent input).counter ∧
      ((treeWalk ps tic counter f parent input).counter = counter →
        (treeWalk ps tic counter f parent input).tree.uuids = f.uuids)
  | nil, _, _ => ⟨le_rfl, fun _ => rfl⟩
  | node d cs rest, parent, input => by
      unfold treeWalk
      split
      · exact ⟨le_rfl, fun _ => rfl⟩
      · split
        · dsimp only
          split
          · exact ⟨Nat.le_succ _, fun h => by simp at h⟩
          · have ih := treeWalk_counter cs (some d.uuid)
              (input.drop (alignDownNat (fastCompareKey d.key input) ps))
            exact ⟨ih.1, fun h => by simp [uuids, ih.2 h]⟩
        · have ih := treeWalk_counter rest parent input
          exact ⟨ih.1, fun h => by simp [uuids, ih.2 h]⟩

theorem treeWalk_prefixLen :
    ∀ {f : Forest} (parent : Option Nat) (input : List Token), f.Valid ps →
      ps ∣ (treeWalk ps tic counter f parent input).prefixLen ∧
      (treeWalk ps tic counter f parent input).prefixLen ≤ input.length
  | nil, _, _, _ => by simp [treeWalk]
  | node d cs rest, parent, input, hv => by
      unfold treeWalk
      have hinput : alignDownNat (fastCompareKey d.key input) ps ≤ input.length :=
        (alignDownNat_le _ _).trans (fastCompareKey_le_right _ _)
      split
      · simp
      · split
        · dsimp only
          split
          · exact ⟨dvd_alignDownNat _ _, hinput⟩
          · have ih := treeWalk_prefixLen (some d.uuid)
              (input.drop (alignDownNat (fastCompareKey d.key input) ps)) hv.2.1
            refine ⟨Nat.dvd_add (dvd_alignDownNat _ _) ih.1, ?_⟩
            have h2 := ih.2
            rw [List.length_drop] at h2
            dsimp only
            omega
        · exact treeWalk_prefixLen _ _ hv.2.2

/-- Either the walk stayed where it started, and changed nothing, or it ended
at a node whose span is the matched prefix. -/
theorem treeWalk_node (hps : 0 < ps) :
    ∀ {f : Forest} (parent : Option Nat) (input : List Token), f.Valid ps →
      counter ∉ f.uuids → f.uuids.Nodup →
      let w := treeWalk ps tic counter f parent input
      (w.node = parent ∧ w.prefixLen = 0 ∧ w.tree = f) ∨
      (∃ u slots, w.node = some u ∧ 0 < w.prefixLen ∧ u ∈ w.tree.uuids ∧
        (u ∈ f.uuids ∨ u = counter) ∧
        w.tree.span u = some (input.take w.prefixLen, slots) ∧ slots.length = w.prefixLen)
  | nil, _, _, _, _, _ => Or.inl ⟨rfl, rfl, rfl⟩
  | node d cs rest, parent, input, hv, hc, hn => by
      have hdc : ¬ d.uuid = counter := fun h => hc (by simp [uuids, h])
      have hccs : counter ∉ cs.uuids := fun h => hc (by simp [uuids, h])
      have hcrest : counter ∉ rest.uuids := fun h => hc (by simp [uuids, h])
      obtain ⟨hdn, hn⟩ := List.nodup_cons.mp hn
      obtain ⟨hncs, hnrest, hdisj⟩ := List.nodup_append'.mp hn
      have hkv := hv.1.2.2.1
      unfold treeWalk
      split
      · exact Or.inl ⟨rfl, rfl, rfl⟩
      · split
        · rename_i hpage
          have hge := pageSize_le_matchLen (pageSize_le_key hv) hpage
          have hle := matchLen_le_key ps d.key input
          have htake := take_matchLen ps d.key input
          generalize alignDownNat (fastCompareKey d.key input) ps = n at hge hle htake
          dsimp only
          right
          split
          · refine ⟨counter, d.value.take n, rfl, by dsimp only; omega, ?_, Or.inr rfl, ?_, ?_⟩
            · simp [uuids, RadixTreeNode.upper]
            · simp [span, path, RadixTreeNode.upper, htake]
            · simp only [List.length_take]
              omega
          · rename_i hfull
            obtain rfl : n = d.key.length := by simpa using hfull
            rw [List.take_length] at htake
            rcases treeWalk_node hps (some d.uuid) (input.drop d.key.length)
                hv.2.1 hccs hncs with
              ⟨hnode, hlen, htree⟩ | ⟨u, slots, hnode, hlen, hu, hmem, hspan, hslots⟩
            · refine ⟨d.uuid, d.value, hnode, by dsimp only; omega, ?_,
                Or.inl (by simp [uuids]), ?_, ?_⟩
              · simp [uuids]
              · simp [span, path, hlen, ← htake]
              · simp only [hlen, ← hkv, Nat.add_zero]
            · have hud : ¬ d.uuid = u := by
                rintro rfl
                rcases hmem with hmem | hmem
                · exact hdn (by simp [hmem])
                · exact hdc hmem
              refine ⟨u, d.value ++ slots, hnode, by dsimp only; omega, ?_, ?_, ?_, ?_⟩
              · simp [uuids, hu]
              · rcases hmem with hmem | hmem
                · exact Or.inl (by simp [uuids, hmem])
                · exact Or.inr hmem
              · obtain ⟨ds, hds⟩ := exists_path hu
                simp only [span, hds, Option.map_some, Option.some.injEq, Prod.mk.injEq] at hspan
                simp [span, path, hud, hds, hspan.1, hspan.2, List.take_add, ← htake]
              · simp [hslots, hkv]
        · rename_i hpage
          rcases treeWalk_node hps parent input hv.2.2 hcrest hnrest with
            ⟨hnode, hlen, htree⟩ | ⟨u, slots, hnode, hlen, hu, hmem, hspan, hslots⟩
          · exact Or.inl ⟨hnode, hlen, by simp [htree]⟩
          · right
            have hud : ¬ d.uuid = u := by
              rintro rfl
              rcases hmem with hmem | hmem
              · exact hdn (by simp [hmem])
              · exact hdc hmem
            have hucs : u ∉ cs.uuids := by
              intro h
              rcases hmem with hmem | hmem
              · exact hdisj h hmem
              · exact hccs (hmem ▸ h)
            refine ⟨u, slots, hnode, hlen, by simp [uuids, hu], ?_, ?_, hslots⟩
            · rcases hmem with hmem | hmem
              · exact Or.inl (by simp [uuids, hmem])
              · exact Or.inr hmem
            · simpa [span, path, hud, path_eq_none_iff.mpr hucs] using hspan

/-- No stored prefix of the input that is a whole number of pages is longer than
what the walk matched. -/
theorem le_treeWalk_prefixLen (hps : 0 < ps) :
    ∀ {f : Forest} (parent : Option Nat) {input q : List Token} {s : Slot}, f.Valid ps →
      (q, s) ∈ f.entries → q <+: input → ps ∣ q.length →
      q.length ≤ (treeWalk ps tic counter f parent input).prefixLen
  | node d cs rest, parent, input, q, s, hv, hmem, hpre, hdvd => by
      have hq : q ≠ [] := ne_nil_of_mem_entries hmem
      have hqlen : ps ≤ q.length := Nat.le_of_dvd (List.length_pos_of_ne_nil hq) hdvd
      have hpageq : keyFn ps q = keyFn ps input := by
        obtain ⟨tail, rfl⟩ := hpre
        exact (keyFn_append hqlen tail).symm
      have hinput : input ≠ [] := by
        rintro rfl
        exact hq (List.prefix_nil.mp hpre)
      have hkey := pageSize_le_key hv
      simp only [entries, List.mem_append, mem_below, mem_spanEntries] at hmem
      unfold treeWalk
      rw [if_neg hinput]
      split
      · rename_i hpage
        -- an entry among the siblings would share the first page of this node
        have hrest : (q, s) ∉ rest.entries := fun h =>
          hv.1.2.2.2 (hpage ▸ hpageq ▸ keyFn_mem_firstPages hv.2.2 h hqlen)
        have hle := matchLen_le_key ps d.key input
        dsimp only
        split
        · rename_i hne
          rcases hmem with (⟨n, hn, hval, rfl⟩ | ⟨q', h', rfl⟩) | h
          · exact le_alignDownNat hdvd
              (le_fastCompareKey _ _ _ (List.take_prefix ..) hpre)
          · -- the whole key is a prefix of the input, so the walk would not have split
            have hkeypre : d.key <+: input := (List.prefix_append _ _).trans hpre
            have hfull := le_alignDownNat hv.1.2.1
              (le_fastCompareKey d.key d.key input (List.prefix_rfl) hkeypre)
            omega
          · exact absurd h hrest
        · rename_i hfull
          have hfull : alignDownNat (fastCompareKey d.key input) ps = d.key.length := by
            simpa using hfull
          rcases hmem with (⟨n, hn, hval, rfl⟩ | ⟨q', h', rfl⟩) | h
          · simp only [List.length_take]
            omega
          · have hdrop : q' <+: input.drop d.key.length := by
              obtain ⟨tail, rfl⟩ := hpre
              exact ⟨tail, by simp⟩
            have hdvd' : ps ∣ q'.length := by
              rw [List.length_append] at hdvd
              exact (Nat.dvd_add_right hv.1.2.1).mp hdvd
            have ih := le_treeWalk_prefixLen hps (some d.uuid) hv.2.1 h' hdrop hdvd'
            simp only [List.length_append, hfull]
            omega
          · exact absurd h hrest
      · rename_i hpage
        rcases hmem with (⟨n, hn, hval, rfl⟩ | ⟨q', h', rfl⟩) | h
        · simp only [List.length_take] at hqlen
          rw [keyFn_take (by omega)] at hpageq
          exact absurd hpageq hpage
        · rw [keyFn_append hkey] at hpageq
          exact absurd hpageq hpage
        · exact le_treeWalk_prefixLen hps parent hv.2.2 h hpre hdvd

end Forest

end FreeToken
