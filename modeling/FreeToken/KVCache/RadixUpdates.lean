import FreeToken.KVCache.RadixWalk

/-!
# Locking, attaching and evicting nodes

The three other updates of the tree. A lock changes reference counts on one
path; an insert attaches one new leaf; an eviction removes unlocked leaves one by
one. Each is followed through what the tree stores (`entries`), its validity, its
counts and its handles.
-/

namespace FreeToken

namespace Forest

variable {ps u : Nat} {f : Forest}

/-! ### Reference counts along a path -/

theorem mapPath_of_notMem {g : Nat → Nat} : ∀ {f : Forest}, u ∉ f.uuids → mapPath u g f = f
  | nil, _ => rfl
  | node d cs rest, h => by
      simp only [uuids, List.mem_cons, List.mem_append, not_or] at h
      obtain ⟨hd, hcs, hrest⟩ := h
      have hd' : ¬ d.uuid = u := fun h => hd h.symm
      simp [mapPath, hd', path_eq_none_iff.mpr hcs, mapPath_of_notMem hrest]

theorem entries_mapPath (g : Nat → Nat) : ∀ f : Forest, (mapPath u g f).entries = f.entries
  | nil => rfl
  | node d cs rest => by
      have hcs := entries_mapPath g cs
      have hrest := entries_mapPath g rest
      simp only [mapPath]
      split
      · rfl
      · split <;> simp [entries, hcs, hrest]

theorem firstPages_mapPath (g : Nat → Nat) :
    ∀ f : Forest, (mapPath u g f).firstPages ps = f.firstPages ps
  | nil => rfl
  | node d cs rest => by
      have hrest := firstPages_mapPath g rest
      simp only [mapPath]
      split
      · rfl
      · split <;> simp [firstPages, hrest]

theorem valid_mapPath (g : Nat → Nat) : ∀ {f : Forest}, f.Valid ps → (mapPath u g f).Valid ps
  | nil, _ => trivial
  | node d cs rest, hv => by
      have hcs := valid_mapPath g hv.2.1
      have hrest := valid_mapPath g hv.2.2
      simp only [mapPath]
      split
      · exact hv
      · split
        · exact ⟨hv.1, hcs, hv.2.2⟩
        · refine ⟨?_, hv.2.1, hrest⟩
          rw [firstPages_mapPath]
          exact hv.1

theorem uuids_mapPath (g : Nat → Nat) : ∀ f : Forest, (mapPath u g f).uuids = f.uuids
  | nil => rfl
  | node d cs rest => by
      have hcs := uuids_mapPath g cs
      have hrest := uuids_mapPath g rest
      simp only [mapPath]
      split
      · rfl
      · split <;> simp [uuids, hcs, hrest]

theorem span_mapPath (g : Nat → Nat) (v : Nat) :
    ∀ f : Forest, (mapPath u g f).span v = f.span v
  | nil => rfl
  | node d cs rest => by
      have hcs := span_mapPath g v cs
      have hrest := span_mapPath g v rest
      simp only [mapPath]
      split
      · simp only [span, path]
        split
        · simp
        · split <;> simp
      · split
        · simp only [span, path] at hcs ⊢
          split
          · simp
          · cases h1 : (mapPath u g cs).path v <;> cases h2 : cs.path v <;> simp_all
        · simp only [span, path] at hrest ⊢
          split
          · simp
          · split
            · simp
            · exact hrest

/-- A change of every count on the path by the same amount keeps `RefOk`, with
the holders of `u` changed by that amount. -/
theorem refOk_mapPath {held held' : Nat → Nat} {a b : Nat}
    (hother : ∀ v, v ≠ u → held' v = held v) (hu : held' u + b = held u + a) :
    ∀ {f : Forest}, u ∈ f.uuids → f.uuids.Nodup → b ≤ held u → f.RefOk held →
      (mapPath u (fun r => r + a - b) f).RefOk held' ∧
      (mapPath u (fun r => r + a - b) f).refSum + b = f.refSum + a := by
  -- away from `u` nothing changes
  have hframe : ∀ {g : Forest}, u ∉ g.uuids → g.RefOk held → g.RefOk held' := by
    intro g
    induction g with
    | nil => exact fun _ _ => trivial
    | node d cs rest ihcs ihrest =>
        intro hg hr
        simp only [uuids, List.mem_cons, List.mem_append, not_or] at hg
        refine ⟨?_, ihcs hg.2.1 hr.2.1, ihrest hg.2.2 hr.2.2⟩
        rw [hother d.uuid (fun h => hg.1 h.symm)]
        exact hr.1
  intro f
  induction f with
  | nil => intro hmem; simp [uuids] at hmem
  | node d cs rest ihcs ihrest =>
      intro hmem hn hb hr
      obtain ⟨hdn, hn⟩ := List.nodup_cons.mp hn
      obtain ⟨hncs, hnrest, hdisj⟩ := List.nodup_append'.mp hn
      simp only [List.mem_append, not_or] at hdn
      by_cases hd : d.uuid = u
      · subst hd
        simp only [mapPath, if_true, RefOk, refSum]
        have := hr.1
        refine ⟨⟨by omega, hframe hdn.1 hr.2.1, hframe hdn.2 hr.2.2⟩, by omega⟩
      · simp only [mapPath, hd, if_false]
        cases hp : cs.path u with
        | some ds =>
            have hcs := mem_uuids_of_path hp
            obtain ⟨ih, ihsum⟩ := ihcs hcs hncs hb hr.2.1
            simp only [RefOk, refSum, hother d.uuid hd]
            have := hr.1
            exact ⟨⟨by omega, ih, hframe (fun h => hdisj hcs h) hr.2.2⟩, by omega⟩
        | none =>
            have hcs := path_eq_none_iff.mp hp
            have hrest : u ∈ rest.uuids := by
              simp only [uuids, List.mem_cons, List.mem_append] at hmem
              rcases hmem with rfl | h | h
              · exact absurd rfl hd
              · exact absurd h hcs
              · exact h
            obtain ⟨ih, ihsum⟩ := ihrest hrest hnrest hb hr.2.2
            simp only [RefOk, refSum, hother d.uuid hd]
            exact ⟨⟨hr.1, hframe hcs hr.2.1, ih⟩, by omega⟩

/-- Every node on the path to `u` is held by the holders of `u`. -/
theorem held_le_refCount {held : Nat → Nat} :
    ∀ {f : Forest} {ds : List RadixTreeNode}, f.RefOk held → f.path u = some ds →
      held u ≤ f.refSum ∧ ∀ d ∈ ds, held u ≤ d.refCount
  | node d cs rest, ds, hr, hp => by
      have hd := hr.1
      simp only [path] at hp
      split at hp
      · rename_i huu
        cases hp
        subst huu
        refine ⟨by simp only [refSum]; omega, ?_⟩
        simp only [List.mem_singleton, forall_eq]
        omega
      · split at hp
        · rename_i ds' hcs
          cases hp
          obtain ⟨ih, ihall⟩ := held_le_refCount hr.2.1 hcs
          refine ⟨by simp only [refSum]; omega, ?_⟩
          intro e he
          rcases List.mem_cons.mp he with rfl | he
          · omega
          · exact ihall e he
        · obtain ⟨ih, ihall⟩ := held_le_refCount hr.2.2 hp
          exact ⟨by simp only [refSum]; omega, ihall⟩

/-- Locking moves the unlocked part of the path from one size to the other. -/
theorem sizes_lock : ∀ {f : Forest} {ds : List RadixTreeNode}, f.path u = some ds →
    (mapPath u (· + 1) f).evictable + RadixPrefixCache.pathLength 0 ds = f.evictable ∧
    (mapPath u (· + 1) f).protectedLen = f.protectedLen + RadixPrefixCache.pathLength 0 ds
  | node d cs rest, ds, hp => by
      simp only [path] at hp
      split at hp
      · rename_i huu
        cases hp
        simp only [mapPath, huu, if_true, evictable, protectedLen, RadixPrefixCache.pathLength]
        by_cases h0 : d.refCount = 0
        · simp [h0]; omega
        · simp [h0]
      · rename_i huu
        split at hp
        · rename_i ds' hcs
          cases hp
          obtain ⟨ih1, ih2⟩ := sizes_lock hcs
          simp only [mapPath, huu, if_false, hcs, evictable, protectedLen]
          simp only [RadixPrefixCache.pathLength, List.filter_cons] at ih1 ih2 ⊢
          by_cases h0 : d.refCount = 0 <;> simp [h0] <;> omega
        · rename_i hcs
          obtain ⟨ih1, ih2⟩ := sizes_lock hp
          simp only [mapPath, huu, if_false, hcs, evictable, protectedLen]
          omega

/-- Unlocking moves back the nodes whose last holder leaves. -/
theorem sizes_unlock : ∀ {f : Forest} {ds : List RadixTreeNode}, f.path u = some ds →
    (∀ d ∈ ds, d.refCount ≠ 0) →
    (mapPath u (· - 1) f).evictable = f.evictable + RadixPrefixCache.pathLength 1 ds ∧
    (mapPath u (· - 1) f).protectedLen + RadixPrefixCache.pathLength 1 ds = f.protectedLen
  | node d cs rest, ds, hp, hpos => by
      simp only [path] at hp
      split at hp
      · rename_i huu
        cases hp
        have h0 := hpos d (by simp)
        simp only [mapPath, huu, if_true, evictable, protectedLen, RadixPrefixCache.pathLength,
          List.filter_cons, List.filter_nil]
        by_cases h1 : d.refCount = 1
        · simp [h1]; omega
        · have h2 : ¬ d.refCount - 1 = 0 := by omega
          simp [h0, h1, h2]
      · rename_i huu
        split at hp
        · rename_i ds' hcs
          cases hp
          have h0 := hpos d (by simp)
          obtain ⟨ih1, ih2⟩ := sizes_unlock hcs (fun e he => hpos e (List.mem_cons_of_mem _ he))
          simp only [mapPath, huu, if_false, hcs, evictable, protectedLen]
          simp only [RadixPrefixCache.pathLength, List.filter_cons] at ih1 ih2 ⊢
          by_cases h1 : d.refCount = 1
          · simp [h1]; omega
          · have h2 : ¬ d.refCount - 1 = 0 := by omega
            simp [h0, h1, h2]; omega
        · rename_i hcs
          obtain ⟨ih1, ih2⟩ := sizes_unlock hp hpos
          simp only [mapPath, huu, if_false, hcs, evictable, protectedLen]
          omega

/-! ### Attaching a new leaf -/

section Attach

variable {new : RadixTreeNode}

theorem entries_snoc : ∀ f : Forest,
    (f.snoc new).entries = f.entries ++ spanEntries new.key new.value
  | nil => by simp [snoc, entries]
  | node d cs rest => by simp [snoc, entries, entries_snoc rest]

theorem firstPages_snoc : ∀ f : Forest,
    (f.snoc new).firstPages ps = f.firstPages ps ++ [keyFn ps new.key]
  | nil => by simp [snoc, firstPages]
  | node d cs rest => by simp [snoc, firstPages, firstPages_snoc rest]

theorem uuids_snoc : ∀ f : Forest, (f.snoc new).uuids = f.uuids ++ [new.uuid]
  | nil => by simp [snoc, uuids]
  | node d cs rest => by simp [snoc, uuids, uuids_snoc rest]

/-- What a node must satisfy to become a leaf. -/
structure IsLeaf (ps : Nat) (new : RadixTreeNode) : Prop where
  key_ne_nil : new.key ≠ []
  dvd_key : ps ∣ new.key.length
  key_value : new.key.length = new.value.length
  refCount_eq : new.refCount = 0

theorem valid_snoc (hnew : IsLeaf ps new) : ∀ {f : Forest}, f.Valid ps →
    keyFn ps new.key ∉ f.firstPages ps → (f.snoc new).Valid ps
  | nil, _, _ =>
      ⟨⟨hnew.key_ne_nil, hnew.dvd_key, hnew.key_value, by simp [firstPages]⟩, trivial, trivial⟩
  | node d cs rest, hv, hpage => by
      simp only [firstPages, List.mem_cons, not_or] at hpage
      refine ⟨⟨hv.1.1, hv.1.2.1, hv.1.2.2.1, ?_⟩, hv.2.1, valid_snoc hnew hv.2.2 hpage.2⟩
      rw [firstPages_snoc, List.mem_append, not_or]
      exact ⟨hv.1.2.2.2, by simpa using fun h => hpage.1 h.symm⟩

theorem refOk_snoc {held : Nat → Nat} (h0 : new.refCount = 0) (hheld : held new.uuid = 0) :
    ∀ {f : Forest}, f.RefOk held → (f.snoc new).RefOk held ∧ (f.snoc new).refSum = f.refSum
  | nil, _ => by simp [snoc, RefOk, refSum, h0, hheld]
  | node d cs rest, hr => by
      obtain ⟨ih, ihsum⟩ := refOk_snoc h0 hheld hr.2.2
      exact ⟨⟨hr.1, hr.2.1, ih⟩, by simp [snoc, refSum, ihsum]⟩

theorem sizes_snoc (h0 : new.refCount = 0) : ∀ f : Forest,
    (f.snoc new).evictable = f.evictable + new.key.length ∧
    (f.snoc new).protectedLen = f.protectedLen
  | nil => by simp [snoc, evictable, protectedLen, h0]
  | node d cs rest => by
      obtain ⟨ih1, ih2⟩ := sizes_snoc h0 rest
      simp only [snoc, evictable, protectedLen]
      omega

theorem path_snoc {v : Nat} (hv : new.uuid ≠ v) : ∀ f : Forest, (f.snoc new).path v = f.path v
  | nil => by simp [snoc, path, hv]
  | node d cs rest => by simp [snoc, path, path_snoc hv rest]

theorem attach_of_notMem : ∀ {f : Forest}, u ∉ f.uuids → attach u new f = f
  | nil, _ => rfl
  | node d cs rest, h => by
      simp only [uuids, List.mem_cons, List.mem_append, not_or] at h
      obtain ⟨hd, hcs, hrest⟩ := h
      have hd' : ¬ d.uuid = u := fun h => hd h.symm
      simp [attach, hd', attach_of_notMem hcs, attach_of_notMem hrest]

theorem firstPages_attach : ∀ f : Forest, (attach u new f).firstPages ps = f.firstPages ps
  | nil => rfl
  | node d cs rest => by
      have hrest := firstPages_attach rest
      simp only [attach]
      split <;> simp [firstPages, hrest]

/-- A path that does not end at the top node goes below it or beside it. -/
theorem path_node_ne {d : RadixTreeNode} {cs rest : Forest} (hd : d.uuid ≠ u) :
    (node d cs rest).path u = ((cs.path u).map (d :: ·)).or (rest.path u) := by
  simp only [path, hd, if_false]
  cases cs.path u <;> simp

/-- Everything an insert changes by attaching its leaf below node `u`. -/
structure Attached (ps : Nat) (held : Nat → Nat) (toks : List Token) (new : RadixTreeNode)
    (f f' : Forest) : Prop where
  entries_perm : f'.entries.Perm (f.entries ++ below toks (spanEntries new.key new.value))
  uuids_perm : f'.uuids.Perm (new.uuid :: f.uuids)
  valid : f'.Valid ps
  refOk : f'.RefOk held
  refSum_eq : f'.refSum = f.refSum
  evictable_eq : f'.evictable = f.evictable + new.key.length
  protectedLen_eq : f'.protectedLen = f.protectedLen
  span_eq : ∀ v ∈ f.uuids, f'.span v = f.span v

theorem attached_snoc {held : Nat → Nat} (hps : 0 < ps) (hnew : IsLeaf ps new)
    (hheld : held new.uuid = 0) {f : Forest} (hfresh : new.uuid ∉ f.uuids) (hv : f.Valid ps)
    (hr : f.RefOk held) (hpage : ∀ s, (keyFn ps new.key, s) ∉ f.entries) :
    Attached ps held [] new f (f.snoc new) where
  entries_perm := by simp [entries_snoc]
  uuids_perm := by
    rw [uuids_snoc]
    exact List.perm_append_comm
  valid := by
    refine valid_snoc hnew hv fun hmem => ?_
    obtain ⟨s, hs⟩ := mem_entries_of_firstPages hps hv hmem
    exact hpage s hs
  refOk := (refOk_snoc hnew.refCount_eq hheld hr).1
  refSum_eq := (refOk_snoc hnew.refCount_eq hheld hr).2
  evictable_eq := (sizes_snoc hnew.refCount_eq f).1
  protectedLen_eq := (sizes_snoc hnew.refCount_eq f).2
  span_eq := by
    intro v hv
    rw [span, span, path_snoc (fun h => hfresh (h ▸ hv))]

theorem attached_attach {held : Nat → Nat} (hps : 0 < ps) (hnew : IsLeaf ps new)
    (hheld : held new.uuid = 0) :
    ∀ {f : Forest} {toks : List Token} {slots : List Slot}, new.uuid ∉ f.uuids → f.uuids.Nodup →
      f.Valid ps → f.RefOk held → f.span u = some (toks, slots) →
      (∀ s, (toks ++ keyFn ps new.key, s) ∉ f.entries) →
      Attached ps held toks new f (attach u new f)
  | node d cs rest, toks, slots, hfresh, hn, hv, hr, hspan, hpage => by
      obtain ⟨hdn, hn⟩ := List.nodup_cons.mp hn
      obtain ⟨hncs, hnrest, hdisj⟩ := List.nodup_append'.mp hn
      simp only [uuids, List.mem_cons, List.mem_append, not_or] at hfresh hdn
      by_cases hd : d.uuid = u
      · -- the node itself: the leaf joins its children
        obtain ⟨rfl, rfl⟩ : d.key = toks ∧ d.value = slots := by
          simpa [span, path, hd] using hspan
        have hcs := attached_snoc hps hnew hheld hfresh.2.1 hv.2.1 hr.2.1 (fun s hs => hpage s (by
          simp only [entries, List.mem_append, mem_below]
          exact Or.inl (Or.inr ⟨_, hs, rfl⟩)))
        simp only [attach, hd, if_true]
        refine ⟨?_, ?_, ⟨hv.1, hcs.valid, hv.2.2⟩, ⟨?_, hcs.refOk, hr.2.2⟩, rfl, ?_, ?_, ?_⟩
        · simp only [entries, entries_snoc, below_append, List.append_assoc]
          exact (List.Perm.append_left _ (List.Perm.append_left _ List.perm_append_comm))
        · simp only [uuids, uuids_snoc, List.append_assoc]
          refine (List.Perm.cons _ (List.perm_middle.trans (List.Perm.refl _))).trans ?_
          exact List.Perm.swap _ _ _
        · rw [hcs.refSum_eq]
          exact hr.1
        · simp only [evictable, hcs.evictable_eq]
          omega
        · simp only [protectedLen, hcs.protectedLen_eq]
        · intro v hmem
          by_cases hvd : d.uuid = v
          · simp [span, path, hvd]
          · have hvnew : new.uuid ≠ v := by
              rintro rfl
              simp only [uuids, List.mem_cons, List.mem_append] at hmem
              exact absurd hmem (by simp [hfresh])
            simp [span, path, hvd, path_snoc hvnew]
      · cases hp : cs.path u with
        | some ds =>
            have hucs := mem_uuids_of_path hp
            have hurest : u ∉ rest.uuids := fun h => hdisj hucs h
            obtain ⟨toks', slots', hspan', rfl⟩ :
                ∃ toks' slots', cs.span u = some (toks', slots') ∧ toks = d.key ++ toks' := by
              simp only [span, path_node_ne hd, hp] at hspan ⊢
              simp at hspan
              exact ⟨_, _, rfl, hspan.1.symm⟩
            have hcs := attached_attach hps hnew hheld hfresh.2.1 hncs hv.2.1 hr.2.1 hspan'
              (fun s hs => hpage s (by
                simp only [entries, List.mem_append, mem_below]
                exact Or.inl (Or.inr ⟨_, hs, by simp⟩)))
            simp only [attach, hd, if_false, attach_of_notMem hurest]
            refine ⟨?_, ?_, ⟨hv.1, hcs.valid, hv.2.2⟩, ⟨?_, hcs.refOk, hr.2.2⟩, rfl, ?_, ?_, ?_⟩
            · simp only [entries, List.append_assoc]
              refine List.Perm.append_left _ ?_
              refine ((hcs.entries_perm.map _).append_right _).trans ?_
              rw [List.map_append, List.append_assoc]
              change (below d.key cs.entries ++ (below d.key (below toks' _) ++ _)).Perm _
              rw [below_below]
              exact List.Perm.append_left _ List.perm_append_comm
            · refine (List.Perm.cons _ (hcs.uuids_perm.append_right _)).trans ?_
              exact List.Perm.swap _ _ _
            · rw [hcs.refSum_eq]
              exact hr.1
            · simp only [evictable, hcs.evictable_eq]
              omega
            · simp only [protectedLen, hcs.protectedLen_eq]
            · intro v hmem
              by_cases hvd : d.uuid = v
              · simp [span, path, hvd]
              · simp only [span, path_node_ne hvd]
                by_cases hvcs : v ∈ cs.uuids
                · have h := hcs.span_eq v hvcs
                  obtain ⟨es, hes⟩ := exists_path hvcs
                  simp only [span, hes] at h
                  cases hes' : (attach u new cs).path v with
                  | none => simp [hes'] at h
                  | some es' => simp [hes, hes'] at h ⊢; exact h
                · have hvcs' : v ∉ (attach u new cs).uuids := by
                    intro h
                    rcases List.mem_cons.mp (hcs.uuids_perm.mem_iff.mp h) with rfl | h
                    · simp only [uuids, List.mem_cons, List.mem_append] at hmem
                      exact absurd hmem (by simp [hfresh])
                    · exact hvcs h
                  simp [path_eq_none_iff.mpr hvcs, path_eq_none_iff.mpr hvcs']
        | none =>
            have hucs := path_eq_none_iff.mp hp
            have hspan' : rest.span u = some (toks, slots) := by
              simpa [span, path_node_ne hd, hp] using hspan
            have hrest := attached_attach hps hnew hheld hfresh.2.2 hnrest hv.2.2 hr.2.2 hspan'
              (fun s hs => hpage s (by simp [entries, hs]))
            simp only [attach, hd, if_false, attach_of_notMem hucs]
            refine ⟨?_, ?_, ⟨?_, hv.2.1, hrest.valid⟩, ⟨hr.1, hr.2.1, hrest.refOk⟩, ?_, ?_, ?_, ?_⟩
            · simp only [entries, List.append_assoc]
              exact List.Perm.append_left _ (List.Perm.append_left _ hrest.entries_perm)
            · simp only [uuids]
              refine (List.Perm.cons _ ((hrest.uuids_perm.append_left _).trans
                List.perm_middle)).trans ?_
              exact List.Perm.swap _ _ _
            · rw [firstPages_attach]
              exact hv.1
            · simp only [refSum, hrest.refSum_eq]
            · simp only [evictable, hrest.evictable_eq]
              omega
            · simp only [protectedLen, hrest.protectedLen_eq]
            · intro v hmem
              by_cases hvd : d.uuid = v
              · simp [span, path, hvd]
              · simp only [span, path_node_ne hvd]
                cases hvcs : cs.path v with
                | some es => simp
                | none =>
                    have hvrest : v ∈ rest.uuids := by
                      simp only [uuids, List.mem_cons, List.mem_append] at hmem
                      rcases hmem with rfl | h | h
                      · exact absurd rfl hvd
                      · exact absurd h (path_eq_none_iff.mp hvcs)
                      · exact h
                    simpa [span] using hrest.span_eq v hvrest

end Attach

end Forest

end FreeToken
