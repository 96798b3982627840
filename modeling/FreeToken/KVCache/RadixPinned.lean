import FreeToken.KVCache.RadixLocks

/-!
# Locked tokens

With pages of one token the tree stores every prefix of what it stores, and a handle
locks exactly the stored prefixes of its span. So what a match would lock, and what it
would leave to evict, can be counted in the list of the stored prefixes.
-/

namespace FreeToken

theorem Resplit.refCounts_eq {ps u : Nat} {f f' : Forest} (h : Resplit ps u f f')
    (hv : f.Valid ps) : f'.refCounts = f.refCounts := by
  induction h with
  | same f => rfl
  | split d cs rest pos tic hpos hdvd hlt =>
      have hkey : d.key.take pos ++ d.key.drop pos = d.key := List.take_append_drop pos d.key
      have hlen : (d.key.take pos).length = ((d.key.take pos).map fun _ => d.refCount).length := by
        simp
      have hspan := spanEntries_append (d.key.drop pos)
        ((d.key.drop pos).map fun _ => d.refCount) hlen
      rw [← List.map_append, hkey] at hspan
      simp only [Forest.refCounts, RadixTreeNode.upper, RadixTreeNode.lower, hspan, below_append,
        below_below, hkey, List.append_nil, List.append_assoc]
  | child d tic rest h ih => simp [Forest.refCounts, ih hv.2.1]
  | sibling d cs h ih => simp [Forest.refCounts, ih hv.2.2]

namespace Forest

/-! ### The stored prefixes and their counts -/

theorem map_fst_spanEntries : ∀ {key : List Token} {value value' : List Slot},
    key.length = value.length → key.length = value'.length →
    (spanEntries key value).map Prod.fst = (spanEntries key value').map Prod.fst
  | [], _, _, _, _ => by simp [spanEntries]
  | k :: ks, v :: vs, v' :: vs', h, h' => by
      have ih := map_fst_spanEntries (Nat.succ.inj h) (Nat.succ.inj h')
      have hcons : ∀ ws : List Slot, ((spanEntries ks ws).map fun x => (k :: x.1, x.2)).map Prod.fst =
          ((spanEntries ks ws).map Prod.fst).map (k :: ·) := fun ws => by simp
      simp only [spanEntries, List.map_cons, hcons, ih]

theorem map_fst_below (pre : List Token) (xs : List (List Token × Slot)) :
    (below pre xs).map Prod.fst = (xs.map Prod.fst).map (pre ++ ·) := by
  simp [below]

/-- The two lists name the same prefixes. -/
theorem map_fst_refCounts {ps : Nat} : ∀ {f : Forest}, f.Valid ps →
    f.refCounts.map Prod.fst = f.entries.map Prod.fst
  | nil, _ => rfl
  | node d cs rest, hv => by
      have hlen : d.key.length = (d.key.map fun _ => d.refCount).length := by simp
      have hspan := map_fst_spanEntries hlen hv.1.2.2.1
      simp only [refCounts, entries, List.map_append, map_fst_below, hspan,
        map_fst_refCounts hv.2.1, map_fst_refCounts hv.2.2]

theorem length_refCounts {ps : Nat} {f : Forest} (hv : f.Valid ps) :
    f.refCounts.length = f.slots.length := by
  have hlen := congrArg List.length (map_fst_refCounts hv)
  simpa [slots] using hlen

theorem exists_entry {ps : Nat} {f : Forest} (hv : f.Valid ps) {x : List Token × Nat}
    (hx : x ∈ f.refCounts) : ∃ s, (x.1, s) ∈ f.entries := by
  have hmem : x.1 ∈ f.entries.map Prod.fst := by
    rw [← map_fst_refCounts hv]
    exact List.mem_map_of_mem hx
  obtain ⟨y, hy, hxy⟩ := List.mem_map.mp hmem
  exact ⟨y.2, by rw [← hxy]; exact hy⟩

/-! ### Counting along a path -/

section Counting

variable (p : Nat → Bool)

/-- A span with one count throughout. -/
theorem countP_span {q : List Token → Bool} {key : List Token} (n : Nat)
    (hq : ∀ j < key.length, q (key.take (j + 1)) = true) :
    (spanEntries key (key.map fun _ => n)).countP (fun x => p x.2 && q x.1) =
      if p n then key.length else 0 := by
  have hmem : ∀ x ∈ spanEntries key (key.map fun _ => n), (p x.2 && q x.1) = p n := by
    rintro ⟨y, m⟩ hx
    obtain ⟨j, hj, hget, rfl⟩ := mem_spanEntries.mp hx
    have hm : n = m := by
      rw [List.getElem?_map, List.getElem?_eq_getElem hj] at hget
      exact Option.some.inj hget
    rw [hq j hj, hm, Bool.and_true]
  have hlen : (spanEntries key (key.map fun _ => n)).length = key.length := by
    have hfit : key.length = (key.map fun _ => n).length := by simp
    have hval := congrArg List.length (map_snd_spanEntries hfit)
    simpa using hval
  have hconst : (spanEntries key (key.map fun _ => n)).countP (fun x => p x.2 && q x.1) =
      (spanEntries key (key.map fun _ => n)).countP fun _ => p n := by
    apply List.countP_congr
    intro x hx
    rw [hmem x hx]
  rw [hconst]
  cases p n with
  | false => simp
  | true =>
      rw [List.countP_true, hlen]
      rfl

theorem countP_below (q : List Token → Bool) (pre : List Token) (xs : List (List Token × Slot)) :
    (below pre xs).countP (fun x => p x.2 && q x.1) =
      xs.countP fun x => p x.2 && q (pre ++ x.1) := by
  rw [below, List.countP_map]
  rfl

/-- The unlocked tokens. -/
theorem evictable_eq_countP {ps : Nat} : ∀ {f : Forest}, f.Valid ps →
    f.evictable = f.refCounts.countP fun x => x.2 == 0 && true
  | nil, _ => rfl
  | node d cs rest, hv => by
      have hspan := @countP_span (fun n => n == 0) (fun _ => true) d.key d.refCount
        fun _ _ => rfl
      have hbelow := countP_below (fun n => n == 0) (fun _ => true) d.key cs.refCounts
      rw [evictable, refCounts, List.countP_append, List.countP_append, hspan, hbelow,
        evictable_eq_countP hv.2.1, evictable_eq_countP hv.2.2]
      simp

/-- A path starts with the first page of a top node. -/
theorem keyFn_path {ps u : Nat} : ∀ {f : Forest} {ds : List RadixTreeNode}, f.Valid ps →
    f.path u = some ds → keyFn ps (ds.flatMap fun d => d.key) ∈ f.firstPages ps
  | node d cs rest, ds, hv, hp => by
      simp only [path] at hp
      split at hp
      · obtain rfl := Option.some.inj hp
        simp [firstPages]
      · split at hp
        · obtain rfl := Option.some.inj hp
          rw [List.flatMap_cons, keyFn_append (pageSize_le_key hv)]
          exact List.mem_cons_self
        · exact List.mem_cons_of_mem _ (keyFn_path hv.2.2 hp)

/-- A prefix of one token or more has the first token. -/
theorem keyFn_one_of_prefix {q toks : List Token} (hq : q ≠ []) (h : q <+: toks) :
    keyFn 1 q = keyFn 1 toks := by
  obtain ⟨r, rfl⟩ := h
  exact (keyFn_append (List.length_pos_iff.mpr hq) r).symm

theorem not_prefix_of_other_page {f : Forest} {toks : List Token} (hv : f.Valid 1)
    (hpage : keyFn 1 toks ∉ f.firstPages 1) : ∀ x ∈ f.refCounts, ¬ x.1 <+: toks := by
  intro x hx hpre
  have hne := ne_nil_of_mem_refCounts hx
  obtain ⟨s, hs⟩ := exists_entry hv hx
  apply hpage
  rw [← keyFn_one_of_prefix hne hpre]
  exact keyFn_mem_firstPages hv hs (List.length_pos_iff.mpr hne)

/-- The stored prefixes of the span of a node, counted node by node of its path. -/
theorem countP_path {u : Nat} : ∀ {f : Forest} {ds : List RadixTreeNode}, f.Valid 1 →
    f.path u = some ds →
    f.refCounts.countP (fun x => p x.2 && decide (x.1 <+: ds.flatMap fun d => d.key)) =
      ((ds.filter fun d => p d.refCount).map fun d => d.key.length).sum
  | node d cs rest, ds, hv, hp => by
      -- the entries of the node itself, when the path goes through it
      have hown : ∀ toks, (spanEntries d.key (d.key.map fun _ => d.refCount)).countP
          (fun x => p x.2 && decide (x.1 <+: d.key ++ toks)) =
            if p d.refCount then d.key.length else 0 := by
        intro toks
        apply countP_span p (q := fun q => decide (q <+: d.key ++ toks))
        intro j _
        exact decide_eq_true ((List.take_prefix _ _).trans (List.prefix_append _ _))
      -- its siblings start with another token
      have hothers : ∀ toks, rest.refCounts.countP
          (fun x => p x.2 && decide (x.1 <+: d.key ++ toks)) = 0 := by
        intro toks
        rw [List.countP_eq_zero]
        intro x hx hand
        have hpage : keyFn 1 (d.key ++ toks) ∉ rest.firstPages 1 := by
          rw [keyFn_append (pageSize_le_key hv)]
          exact hv.1.2.2.2
        simp only [Bool.and_eq_true, decide_eq_true_eq] at hand
        exact not_prefix_of_other_page hv.2.2 hpage x hx hand.2
      simp only [path] at hp
      rw [refCounts, List.countP_append, List.countP_append]
      split at hp
      · obtain rfl := Option.some.inj hp
        have hdeeper : (below d.key cs.refCounts).countP
            (fun x => p x.2 && decide (x.1 <+: d.key ++ [])) = 0 := by
          rw [List.countP_eq_zero]
          rintro ⟨q, n⟩ hx hand
          obtain ⟨q', hq', rfl⟩ := mem_below.mp hx
          simp only [Bool.and_eq_true, decide_eq_true_eq, List.append_nil] at hand
          have hlen := hand.2.length_le
          have hpos : 0 < q'.length := List.length_pos_iff.mpr (ne_nil_of_mem_refCounts hq')
          rw [List.length_append] at hlen
          omega
        rw [List.flatMap_cons, List.flatMap_nil, hown, hdeeper, hothers]
        cases hd : p d.refCount <;> simp [hd]
      · split at hp
        · rename_i ds' hcs
          obtain rfl := Option.some.inj hp
          have ih := countP_path hv.2.1 hcs
          have hdeeper : (below d.key cs.refCounts).countP
              (fun x => p x.2 && decide (x.1 <+: d.key ++ ds'.flatMap fun d => d.key)) =
                ((ds'.filter fun d => p d.refCount).map fun d => d.key.length).sum := by
            rw [countP_below p fun q => decide (q <+: d.key ++ ds'.flatMap fun d => d.key)]
            rw [← ih]
            apply List.countP_congr
            intro x _
            simp [List.prefix_append_right_inj]
          rw [List.flatMap_cons, hown, hdeeper, hothers]
          cases hd : p d.refCount <;> simp [hd]
        · have ih := countP_path hv.2.2 hp
          have hpage := keyFn_path hv.2.2 hp
          have hne : keyFn 1 d.key ≠ keyFn 1 (ds.flatMap fun d => d.key) := by
            intro heq
            exact hv.1.2.2.2 (heq ▸ hpage)
          have hown0 : (spanEntries d.key (d.key.map fun _ => d.refCount)).countP
              (fun x => p x.2 && decide (x.1 <+: ds.flatMap fun d => d.key)) = 0 := by
            rw [List.countP_eq_zero]
            rintro ⟨q, n⟩ hx hand
            obtain ⟨j, hj, -, rfl⟩ := mem_spanEntries.mp hx
            simp only [Bool.and_eq_true, decide_eq_true_eq] at hand
            have hq := keyFn_one_of_prefix (ne_nil_of_mem_spanEntries hx) hand.2
            rw [keyFn_take (Nat.le_add_left 1 j)] at hq
            exact hne hq
          have hdeeper0 : (below d.key cs.refCounts).countP
              (fun x => p x.2 && decide (x.1 <+: ds.flatMap fun d => d.key)) = 0 := by
            rw [List.countP_eq_zero]
            rintro ⟨q, n⟩ hx hand
            obtain ⟨q', hq', rfl⟩ := mem_below.mp hx
            simp only [Bool.and_eq_true, decide_eq_true_eq] at hand
            have hq := keyFn_one_of_prefix
              (List.append_ne_nil_of_right_ne_nil _ (ne_nil_of_mem_refCounts hq')) hand.2
            rw [keyFn_append (pageSize_le_key hv)] at hq
            exact hne hq
          rw [hown0, hdeeper0, ih, Nat.add_zero, Nat.zero_add]

end Counting

end Forest

namespace RadixPrefixCache

variable {c : RadixPrefixCache} {hs : List RadixCacheHandle}

/-- The tokens of a prompt that are stored. -/
def storedTokens (c : RadixPrefixCache) (ids : List Token) : Nat :=
  c.tree.refCounts.countP fun x => decide (x.1 <+: ids)

/-- The stored tokens that are locked, or would be by a match of the prompt. -/
def pinnedTokens (c : RadixPrefixCache) (ids : List Token) : Nat :=
  c.tree.refCounts.countP fun x => x.2 != 0 || decide (x.1 <+: ids)

theorem refCounts_matchPrefix (hw : c.WellFormed hs) (ids : List Token) :
    (c.matchPrefix ids).2.tree.refCounts = c.tree.refCounts :=
  (Forest.treeWalk_resplit hw.pageSize_pos hw.valid).refCounts_eq hw.valid

/-- A stored prefix of the prompt is a prefix of the match. -/
theorem Matched.prefix_iff {ids : List Token} {m : MatchResult} {c' : RadixPrefixCache}
    (h : Matched c hs ids m c') (hw : c.WellFormed hs) (h1 : c.pageSize = 1)
    {x : List Token × Nat} (hx : x ∈ c.tree.refCounts) :
    x.1 <+: ids.take m.cachedLen ↔ x.1 <+: ids := by
  constructor
  · intro hpre
    exact hpre.trans (List.take_prefix _ _)
  · intro hpre
    obtain ⟨s, hs⟩ := Forest.exists_entry hw.valid hx
    have hle := h.longest x.1 s hs hpre (h1 ▸ Nat.one_dvd _)
    exact List.prefix_take_iff.mpr ⟨hpre, hle⟩

/-- What a match finds, and what it leaves to evict once it is locked. -/
theorem WellFormed.match_lock (hw : c.WellFormed hs) (h1 : c.pageSize = 1) (ids : List Token) :
    (c.matchPrefix ids).1.cachedLen = c.storedTokens ids ∧
    ((c.matchPrefix ids).2.lock (c.matchPrefix ids).1.handle).evictableSize + c.pinnedTokens ids =
      c.tree.slots.length := by
  have hm := matchPrefix_spec hw ids
  have hcounts := refCounts_matchPrefix hw ids
  have hv : (c.matchPrefix ids).2.tree.Valid 1 := by
    have hvalid := hm.wellFormed.valid
    rwa [hm.keeps.pageSize_eq, h1] at hvalid
  have hstored : ∀ p : Nat → Bool, c.tree.refCounts.countP
      (fun x => p x.2 && decide (x.1 <+: ids.take (c.matchPrefix ids).1.cachedLen)) =
        c.tree.refCounts.countP fun x => p x.2 && decide (x.1 <+: ids) := by
    intro p
    apply List.countP_congr
    intro x hx
    simp only [hm.prefix_iff hw h1 hx]
  have hev : (c.matchPrefix ids).2.evictableSize =
      c.tree.refCounts.countP fun x => x.2 == 0 && true := by
    rw [hm.wellFormed.evictable_eq, Forest.evictable_eq_countP hm.wellFormed.valid, hcounts]
  -- the tokens that are neither locked nor stored prefixes of the prompt
  have hsplit : c.tree.refCounts.countP (fun x => x.2 == 0 && true) + c.pinnedTokens ids =
      c.tree.refCounts.countP (fun x => x.2 == 0 && decide (x.1 <+: ids)) +
        c.tree.slots.length := by
    rw [← Forest.length_refCounts hw.valid, pinnedTokens]
    induction c.tree.refCounts with
    | nil => rfl
    | cons x xs ih =>
        simp only [List.countP_cons, List.length_cons]
        by_cases h0 : x.2 = 0 <;> by_cases hpre : x.1 <+: ids <;> simp [h0, hpre] <;>
          simp at ih <;> omega
  obtain ⟨slots, hspan, -⟩ := hm.span_eq
  cases hnode : (c.matchPrefix ids).1.handle.node with
  | none =>
      have hzero := (hm.root hnode).1
      have hno : ∀ p : Nat → Bool,
          c.tree.refCounts.countP (fun x => p x.2 && decide (x.1 <+: ids)) = 0 := by
        intro p
        rw [← hstored p, hzero, List.countP_eq_zero]
        intro x hx hand
        simp only [List.take_zero, List.prefix_nil, Bool.and_eq_true, decide_eq_true_eq] at hand
        exact Forest.ne_nil_of_mem_refCounts hx hand.2
      have hlock : (c.matchPrefix ids).2.lock (c.matchPrefix ids).1.handle =
          (c.matchPrefix ids).2 := by
        rw [lock, hnode]
        rfl
      refine ⟨?_, ?_⟩
      · have htrue := hno fun _ => true
        simp only [Bool.true_and] at htrue
        rw [storedTokens, hzero, htrue]
      · have hnil := hno fun n => n == 0
        rw [hlock, hev]
        omega
  | some u =>
      obtain ⟨ds, hpath⟩ := Forest.exists_path (hm.node_mem u hnode).1
      rw [handleSpan_eq_of_path hnode hpath] at hspan
      obtain ⟨hkeys, -⟩ := Prod.mk.inj (Option.some.inj hspan)
      have hcount : ∀ p : Nat → Bool,
          c.tree.refCounts.countP (fun x => p x.2 && decide (x.1 <+: ids)) =
            ((ds.filter fun d => p d.refCount).map fun d => d.key.length).sum := by
        intro p
        rw [← hstored p, ← hkeys, ← hcounts]
        exact Forest.countP_path p hv hpath
      refine ⟨?_, ?_⟩
      · have htrue := hcount fun _ => true
        have hlen := congrArg List.length hkeys
        simp only [Bool.true_and, List.filter_true] at htrue
        rw [List.length_flatMap, List.length_take, Nat.min_eq_left hm.cachedLen_le] at hlen
        rw [storedTokens, htrue]
        exact hlen.symm
      · have hzero := hcount fun n => n == 0
        have hlock : ((c.matchPrefix ids).2.lock (c.matchPrefix ids).1.handle).evictableSize =
            (c.matchPrefix ids).2.evictableSize - pathLength 0 ds := by
          simp only [lock, hnode, Option.bind_some, hpath, Option.map_some]
        have hpl : pathLength 0 ds =
            ((ds.filter fun d => d.refCount == 0).map fun d => d.key.length).sum := rfl
        rw [hlock, hev, hpl, ← hzero]
        omega

end RadixPrefixCache

end FreeToken
