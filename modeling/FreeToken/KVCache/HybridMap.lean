import FreeToken.KVCache.HybridRuns

/-!
# The hybrid cache as a map of prefixes with states

What the hybrid cache is for: it maps prefixes in whole pages to their indices, and keeps the
linear state at the end of some of them. A match comes back with the longest prefix that has a
state. `Answers` says so of each call, and every run of paired calls answers so.
-/

namespace FreeToken

namespace Forest

variable {f : Forest} {ps u v : Nat} {slot : Slot}

/-- A path that spans the beginning of another is the beginning of it. -/
theorem path_extends {ds ds' : List RadixTreeNode} (hv : f.Valid ps) (h : f.path u = some ds)
    (h' : f.path v = some ds') (hpre : (ds.flatMap fun d => d.key) <+: (ds'.flatMap fun d => d.key)) :
    ds <+: ds' := by
  have hvalid := path_valid hv h
  have hne : (ds.flatMap fun d => d.key) ≠ [] := by
    obtain ⟨d, rest, rfl⟩ := List.exists_cons_of_ne_nil (path_ne_nil h)
    simp [(hvalid d List.mem_cons_self).1]
  obtain ⟨a, x, b, b', rfl, rfl, -, hle⟩ := path_common hv h h' hne
    (dvd_keys fun d hd => (hvalid d hd).2.1) (List.prefix_refl _) hpre
  -- the common part spans all of the first path, so nothing of it is left
  have hb : b = [] := by
    rcases b with _ | ⟨y, b⟩
    · rfl
    · have hy := List.length_pos_of_ne_nil (hvalid y (by simp)).1
      simp only [List.flatMap_append, List.flatMap_cons, List.length_append] at hle
      omega
  subst hb
  exact ⟨b', by simp⟩

theorem path_eq_of_keys {ds ds' : List RadixTreeNode} (hv : f.Valid ps) (h : f.path u = some ds)
    (h' : f.path v = some ds') (hkeys : (ds.flatMap fun d => d.key) = ds'.flatMap fun d => d.key) :
    ds = ds' :=
  (path_extends hv h h' (hkeys ▸ List.prefix_refl _)).eq_of_length_le
    (path_extends hv h' h (hkeys ▸ List.prefix_refl _)).length_le

theorem mem_snapshots_iff {q : List Token} (hn : f.uuids.Nodup) : (q, slot) ∈ f.snapshots ↔
    ∃ u a d, f.path u = some (a ++ [d]) ∧ ((a ++ [d]).flatMap fun d => d.key) = q ∧
      d.mambaValue = some slot := by
  rw [mem_snapshots]
  constructor
  · rintro ⟨x, hx, hq, hslot⟩
    obtain ⟨a, d, ha, rfl⟩ := exists_path_of_mark hn hx
    exact ⟨_, a, d, ha, hq, hslot⟩
  · rintro ⟨u, a, d, ha, hq, hslot⟩
    exact ⟨_, mem_marks_of_path ha, hq, hslot⟩

/-- A prefix has one state at most. -/
theorem nodup_snapshots (hv : f.Valid ps) (hn : f.uuids.Nodup) :
    (f.snapshots.map Prod.fst).Nodup := by
  have huuids : (f.marks.map Mark.uuid).Nodup := uuids_eq_marks f ▸ hn
  have hone : ∀ x ∈ f.marks, ∀ y ∈ f.marks, x.boundary = y.boundary → x.uuid = y.uuid := by
    intro x hx y hy heq
    obtain ⟨a, d, ha, rfl⟩ := exists_path_of_mark hn hx
    obtain ⟨b, e, hb, rfl⟩ := exists_path_of_mark hn hy
    obtain ⟨-, hde⟩ := List.append_inj' (path_eq_of_keys hv ha hb heq) rfl
    exact congrArg RadixTreeNode.uuid (List.singleton_inj.mp hde)
  have hboundaries : (f.marks.map Mark.boundary).Nodup := by
    refine (List.nodup_map_iff_inj_on huuids.of_map).mpr fun x hx y hy heq => ?_
    exact List.inj_on_of_nodup_map huuids hx hy (hone x hx y hy heq)
  refine hboundaries.sublist ?_
  rw [snapshots]
  generalize f.marks = xs
  induction xs with
  | nil => exact List.Sublist.refl _
  | cons x xs ih =>
      rcases hvalue : x.mambaValue with _ | slot
      · rw [List.filterMap_cons_none (by simp [Mark.snapshot, hvalue])]
        exact ih.cons _
      · rw [List.filterMap_cons_some (b := (x.boundary, slot)) (by simp [Mark.snapshot, hvalue])]
        exact ih.cons_cons _

/-- The tokens down to a node are stored with their slots. -/
theorem Represents.of_path {m : PrefixMap Token Slot} {ds : List RadixTreeNode}
    (h : f.Represents ps m) (hv : f.Valid ps) (hp : f.path u = some ds) :
    m (ds.flatMap fun d => d.key) = some (ds.flatMap fun d => d.value) := by
  have hvalid := path_valid hv hp
  have hspan : f.span u = some (ds.flatMap fun d => d.key, ds.flatMap fun d => d.value) :=
    congrArg (Option.map _) hp
  have hlen := length_values fun d hd => (hvalid d hd).2.2
  refine (h _ _).mpr ⟨?_, dvd_keys fun d hd => (hvalid d hd).2.1, u, _, _, hspan,
    List.prefix_refl _, by rw [hlen, List.take_length]⟩
  obtain ⟨d, rest, rfl⟩ := List.exists_cons_of_ne_nil (path_ne_nil hp)
  simp [(hvalid d List.mem_cons_self).1]

/-- Below every node there is a childless one. -/
theorem exists_tip : ∀ {f : Forest} {u : Nat} {ds : List RadixTreeNode}, f.uuids.Nodup →
    f.path u = some ds → ∃ x ∈ f.tips, ∃ b, f.path x.uuid = some (ds ++ b)
  | node d cs rest, u, ds, hn, h => by
      obtain ⟨hd, hn⟩ := List.nodup_cons.mp hn
      obtain ⟨hncs, hnrest, hdisj⟩ := List.nodup_append'.mp hn
      have hdown : ∀ {x : RadixTreeNode} {b : List RadixTreeNode}, x ∈ cs.tips →
          cs.path x.uuid = some b →
          x ∈ (node d cs rest).tips ∧ (node d cs rest).path x.uuid = some (d :: b) := by
        intro x b hx hb
        have hne : d.uuid ≠ x.uuid := fun heq =>
          hd (List.mem_append_left _ (heq ▸ mem_uuids_of_path hb))
        have hcs : cs ≠ nil := fun hnil => by simp [hnil, tips] at hx
        exact ⟨by simp [tips, hcs, hx], by simp [path, hne, hb]⟩
      rcases path_cases h with ⟨rfl, rfl⟩ | ⟨-, e, hcs, rfl⟩ | ⟨hne, hnone, hrest⟩
      · cases cs with
        | nil => exact ⟨d, by simp [tips], [], by simp [path]⟩
        | node d' cs' rest' =>
            obtain ⟨x, hx, b, hb⟩ := exists_tip hncs
              (show (node d' cs' rest').path d'.uuid = some [d'] by simp [path])
            exact ⟨x, (hdown hx hb).1, [d'] ++ b, (hdown hx hb).2⟩
      · obtain ⟨x, hx, b, hb⟩ := exists_tip hncs hcs
        exact ⟨x, (hdown hx hb).1, b, (hdown hx hb).2⟩
      · obtain ⟨x, hx, b, hb⟩ := exists_tip hnrest hrest
        have hmem := mem_uuids_of_path hb
        have hne' : d.uuid ≠ x.uuid := fun heq => hd (List.mem_append_right _ (heq ▸ hmem))
        have hcs : cs.path x.uuid = none := path_eq_none_iff.mpr fun hmem' => hdisj hmem' hmem
        exact ⟨x, by simp [tips, hx], b, by simp [path, hne', hcs, hb]⟩

end Forest

/-- Prefixes with their indices, and the states at some of them. -/
structure HybridMap where
  kv : PrefixMap Token Slot
  snapshots : List (List Token × Slot)

namespace HybridMap

open HybridRadixCache

def empty : HybridMap := { kv := PrefixMap.empty, snapshots := [] }

/-- A prefix has one state at most, the prefixes with a state are stored, and every stored prefix
begins one with a state. -/
structure Covers (m : HybridMap) : Prop where
  nodup : (m.snapshots.map Prod.fst).Nodup
  stored : ∀ x ∈ m.snapshots, (m.kv x.1).isSome
  covered : ∀ q, (m.kv q).isSome → ∃ x ∈ m.snapshots, q <+: x.1

/-- What an eviction does: ends of stored sequences go, and states. -/
inductive Evicts (m : HybridMap) (r : EvictResult) (m' : HybridMap) : Prop where
  | intro (gone : List (List Token × Slot)) (hkv : m.kv.Evicts r.kvIndices m'.kv)
      (hperm : m.snapshots.Perm (gone ++ m'.snapshots)) (hgone : gone.map Prod.snd = r.mambaSlots) :
      Evicts m r m'

/-- What a call does to the map, and what it returns. -/
inductive Answers (ps : Nat) : HybridMap → HybridCall → HybridReply → HybridMap → Prop where
  /-- The longest prefix of the input that has a state. -/
  | hit {m : HybridMap} {ids q : List Token} {slot : Slot} (node : Nat) (hmem : (q, slot) ∈ m.snapshots)
      (hpre : q <+: ids) (hlong : ∀ x ∈ m.snapshots, x.1 <+: ids → x.1.length ≤ q.length) :
      Answers ps m (.matchPrefix ids)
        (.matched { kvIndices := m.kv.valuesOf q, cachedLen := q.length, mambaValue := some slot,
                    node := some node }) m
  | miss {m : HybridMap} {ids : List Token} (hnone : ∀ x ∈ m.snapshots, ¬ x.1 <+: ids) :
      Answers ps m (.matchPrefix ids)
        (.matched { kvIndices := [], cachedLen := 0, mambaValue := none, node := none }) m
  | donated {m : HybridMap} {ids : List Token} {slots : List Slot} {slot : Slot} {k : Nat}
      (hlong : m.kv.Longest ps (ids.take (alignDownNat ids.length ps)) k)
      (hpos : alignDownNat ids.length ps ≠ 0)
      (hnew : ∀ x ∈ m.snapshots, x.1 ≠ ids.take (alignDownNat ids.length ps)) :
      Answers ps m (.insert ids slots slot) (.inserted k false)
        { kv := m.kv.store ps (ids.take (alignDownNat ids.length ps)) slots k
          snapshots := (ids.take (alignDownNat ids.length ps), slot) :: m.snapshots }
  | exists' {m : HybridMap} {ids : List Token} {slots : List Slot} {slot : Slot} {k : Nat}
      (hlong : m.kv.Longest ps (ids.take (alignDownNat ids.length ps)) k)
      (hold : alignDownNat ids.length ps = 0 ∨
        ∃ x ∈ m.snapshots, x.1 = ids.take (alignDownNat ids.length ps)) :
      Answers ps m (.insert ids slots slot) (.inserted k true)
        { m with kv := m.kv.store ps (ids.take (alignDownNat ids.length ps)) slots k }
  | incLock (m : HybridMap) (node : Option Nat) : Answers ps m (.incLock node) .unit m
  | decLock (m : HybridMap) (node : Option Nat) : Answers ps m (.decLock node) .unit m
  | evictFull {m m' : HybridMap} {r : EvictResult} (num : Int) (h : m.Evicts r m') :
      Answers ps m (.evictFull num) (.evicted r) m'
  | evictMamba {m m' : HybridMap} {r : EvictResult} (num : Int) (h : m.Evicts r m') :
      Answers ps m (.evictMamba num) (.evicted r) m'

/-- The calls of a record, newest first. -/
inductive AnswersAll (ps : Nat) : List (HybridCall × HybridReply) → HybridMap → Prop where
  | nil : AnswersAll ps [] empty
  | cons {trace : List (HybridCall × HybridReply)} {m m' : HybridMap} {a : HybridCall}
      {r : HybridReply} (hrest : AnswersAll ps trace m) (hcall : Answers ps m a r m') :
      AnswersAll ps ((a, r) :: trace) m'

/-- The cache stores what the map says. -/
structure StoredIn (m : HybridMap) (ps : Nat) (c : HybridRadixCache) : Prop where
  pageSize_eq : c.kv.pageSize = ps
  represents : c.tree.Represents c.kv.pageSize m.kv
  snapshots : c.tree.snapshots.Perm m.snapshots

variable {m : HybridMap} {ps : Nat} {c c' : HybridRadixCache} {hs : List RadixCacheHandle}

theorem StoredIn.covers (h : m.StoredIn ps c) (hsound : c.Sound hs) : m.Covers where
  nodup := (h.snapshots.map Prod.fst).nodup_iff.mp
    (Forest.nodup_snapshots hsound.kv.valid hsound.kv.nodup)
  stored := by
    rintro ⟨q, slot⟩ hx
    obtain ⟨u, a, d, ha, rfl, -⟩ :=
      (Forest.mem_snapshots_iff hsound.kv.nodup).mp (h.snapshots.mem_iff.mpr hx)
    exact Option.isSome_iff_exists.mpr ⟨_, h.represents.of_path hsound.kv.valid ha⟩
  covered := by
    intro q hq
    obtain ⟨s, hs⟩ := Option.isSome_iff_exists.mp hq
    obtain ⟨-, -, u, toks, slots, hspan, hpre, -⟩ := (h.represents q s).mp hs
    simp only [Forest.span, Option.map_eq_some_iff, Prod.mk.injEq] at hspan
    obtain ⟨ds, hds, rfl, -⟩ := hspan
    obtain ⟨x, hx, b, hb⟩ := Forest.exists_tip hsound.kv.nodup hds
    obtain ⟨a, ha⟩ := Forest.path_tip hx hsound.kv.nodup
    obtain ⟨slot, hslot⟩ := Option.isSome_iff_exists.mp (hsound.tip hx)
    refine ⟨((a ++ [x]).flatMap fun d => d.key, slot), h.snapshots.mem_iff.mp
      ((Forest.mem_snapshots_iff hsound.kv.nodup).mpr ⟨_, a, x, ha, rfl, hslot⟩), ?_⟩
    rw [hb, Option.some.injEq] at ha
    rw [← ha, List.flatMap_append]
    exact hpre.trans (List.prefix_append _ _)

/-- A state at a prefix of the input is that of a node the walk went through. -/
theorem StoredIn.mem_pathTo (h : m.StoredIn ps c') (hsound : c'.Sound hs) {ids : List Token}
    {w : WalkResult} (hlong : m.kv.Longest c'.kv.pageSize ids w.prefixLen)
    (hkeys : ((c'.pathTo w.node).flatMap fun d => d.key) = ids.take w.prefixLen)
    {q : List Token} {slot : Slot} (hx : (q, slot) ∈ m.snapshots) (hpre : q <+: ids) :
    ∃ a d b, c'.pathTo w.node = a ++ d :: b ∧ ((a ++ [d]).flatMap fun d => d.key) = q ∧
      d.mambaValue = some slot := by
  obtain ⟨u, a, d, ha, rfl, hslot⟩ :=
    (Forest.mem_snapshots_iff hsound.kv.nodup).mp (h.snapshots.mem_iff.mpr hx)
  have hvalid := Forest.path_valid hsound.kv.valid ha
  have hstored := h.represents.of_path hsound.kv.valid ha
  -- what is stored along the input is no longer than what the walk found
  have hle : ((a ++ [d]).flatMap fun d => d.key).length ≤ w.prefixLen := by
    refine hlong.longest _ (Forest.dvd_keys fun d hd => (hvalid d hd).2.1) hpre.length_le ?_
    rw [← List.prefix_iff_eq_take.mp hpre, hstored]
    rfl
  have hpre' : ((a ++ [d]).flatMap fun d => d.key) <+: ((c'.pathTo w.node).flatMap fun d => d.key) :=
    hkeys ▸ List.prefix_take_iff.mpr ⟨hpre, hle⟩
  have hpath : ∃ v, c'.tree.path v = some (c'.pathTo w.node) := by
    have hd : d.key ≠ [] := (hvalid d (by simp)).1
    rcases hnode : w.node with _ | v
    · rw [hnode] at hpre'
      simp [pathTo, hd] at hpre'
    · refine ⟨v, ?_⟩
      rcases hv : c'.tree.path v with _ | ds
      · rw [hnode] at hpre'
        simp [pathTo, hv, hd] at hpre'
      · simp [pathTo, hv]
  obtain ⟨v, hv⟩ := hpath
  obtain ⟨b, hb⟩ := Forest.path_extends hsound.kv.valid ha hv hpre'
  exact ⟨a, d, b, by rw [← hb]; simp, rfl, hslot⟩

/-- A match returns the longest prefix with a state. -/
theorem StoredIn.matchPrefix (h : m.StoredIn ps c) (hsound : c.Sound hs) (ids : List Token) :
    Answers ps m (.matchPrefix ids) (.matched (c.matchPrefix ids).1) m ∧
      m.StoredIn ps (c.matchPrefix ids).2 := by
  have hw := hsound.kv.shape.walked ids
  have hsound' : (c.matchPrefix ids).2.Sound hs := hsound.walk ids
  obtain ⟨hrep, hlong⟩ := hw.represents hsound.kv.shape h.represents
  have htakes : Takes c (c.matchPrefix ids).2 [] [] := hsound.takes_walk ids
  have hm : m.StoredIn ps (c.matchPrefix ids).2 :=
    ⟨htakes.pageSize_eq.trans h.pageSize_eq, hrep, htakes.snapshots_perm.trans h.snapshots⟩
  refine ⟨?_, hm⟩
  have hkeys := pathTo_walk (c.matchPrefix ids).2 hw
  have hon : ∀ x ∈ m.snapshots, x.1 <+: ids → ∃ a d b,
      (c.matchPrefix ids).2.pathTo (c.kv.treeWalk ids).1.node = a ++ d :: b ∧
        ((a ++ [d]).flatMap fun d => d.key) = x.1 ∧ d.mambaValue = some x.2 :=
    fun x hx hpre => hm.mem_pathTo hsound' (htakes.pageSize_eq ▸ hlong) hkeys hx hpre
  rcases c.matchPrefix_cases ids with ⟨a, d, b, slot, hds, hslot, hb, heq⟩ | ⟨hnone, heq⟩
  · have hpath := path_of_pathTo hsound'.kv.nodup hds
    have hpre : ((a ++ [d]).flatMap fun d => d.key) <+: ids := by
      rw [hds] at hkeys
      refine List.IsPrefix.trans ?_ (hkeys ▸ List.take_prefix _ _)
      exact ⟨b.flatMap fun d => d.key, by simp⟩
    have hvalues : ((a ++ [d]).flatMap fun d => d.value) =
        m.kv.valuesOf ((a ++ [d]).flatMap fun d => d.key) := by
      rw [PrefixMap.valuesOf, hrep.of_path hsound'.kv.valid hpath]
      rfl
    rw [heq, hvalues, pathLen_eq]
    refine Answers.hit d.uuid ?_ hpre ?_
    · exact hm.snapshots.mem_iff.mp
        ((Forest.mem_snapshots_iff hsound'.kv.nodup).mpr ⟨_, a, d, hpath, rfl, hslot⟩)
    · intro x hx hpre'
      obtain ⟨a', d', b', hds', hq, hslot'⟩ := hon x hx hpre'
      rw [← hq]
      rw [hds] at hds'
      rcases List.append_eq_append_iff.mp hds' with ⟨e, rfl, he⟩ | ⟨e, rfl, he⟩
      · -- below `d` there is no state
        rcases e with _ | ⟨z, e⟩
        · rw [List.nil_append, List.cons.injEq] at he
          simp [he.1]
        · rw [List.cons_append, List.cons.injEq] at he
          rw [hb d' (by simp [he.2])] at hslot'
          cases hslot'
      · rcases e with _ | ⟨z, e⟩
        · rw [List.nil_append, List.cons.injEq] at he
          simp [he.1]
        · rw [List.cons_append, List.cons.injEq] at he
          simp only [List.flatMap_append, List.flatMap_cons, List.length_append, he.1]
          omega
  · rw [heq]
    refine Answers.miss fun x hx hpre => ?_
    obtain ⟨a, d, b, hds, -, hslot⟩ := hon x hx hpre
    rw [hnone d (by simp [hds])] at hslot
    cases hslot

/-- A donation leaves the KV side as it is. -/
theorem donate_plain (c : HybridRadixCache) (node : Option Nat) (slot : Slot) :
    (c.donate node slot).2.tree.plain = c.tree.plain ∧
      (c.donate node slot).2.kv.pageSize = c.kv.pageSize := by
  rcases donate_cases c node slot with ⟨heq, -⟩ | ⟨u, a, d, -, -, -, heq⟩
  · rw [heq]
    exact ⟨rfl, rfl⟩
  · rw [heq]
    exact ⟨Forest.plain_modify (onSnapshot_set (some slot)) c.tree, rfl⟩

/-- A donation is refused where there is a state, and at the root. -/
theorem donate_exist {but : Option Nat} (h : c.SoundBut hs but) {hd : RadixCacheHandle}
    {q : List Token} {values : List Slot} (hspan : c.kv.handleSpan hd = some (q, values))
    (slot : Slot) :
    ((c.donate hd.node slot).1 = true ∧ (q = [] ∨ ∃ x ∈ c.tree.snapshots, x.1 = q)) ∨
      ((c.donate hd.node slot).1 = false ∧ q ≠ [] ∧ ∀ x ∈ c.tree.snapshots, x.1 ≠ q) := by
  rcases donate_cases c hd.node slot with ⟨heq, hsome⟩ | ⟨u, a, d, hnode, ha, hnone, heq⟩
  · refine Or.inl ⟨by rw [heq], ?_⟩
    rcases hnode : hd.node with _ | u
    · simp only [RadixPrefixCache.handleSpan, hnode, Option.some.injEq, Prod.mk.injEq] at hspan
      exact Or.inl hspan.1.symm
    · simp only [RadixPrefixCache.handleSpan, hnode, Forest.span, Option.map_eq_some_iff,
        Prod.mk.injEq] at hspan
      obtain ⟨ds, hds, rfl, -⟩ := hspan
      rcases List.eq_nil_or_concat ds with rfl | ⟨a, d, rfl⟩
      · exact Or.inl rfl
      · rw [List.concat_eq_append] at hds ⊢
        obtain ⟨slot', hslot'⟩ := Option.isSome_iff_exists.mp (hsome u a d hnode hds)
        exact Or.inr ⟨_, (Forest.mem_snapshots_iff h.kv.nodup).mpr ⟨u, a, d, hds, rfl, hslot'⟩, rfl⟩
  · simp only [RadixPrefixCache.handleSpan, hnode, Forest.span, Option.map_eq_some_iff,
      Prod.mk.injEq] at hspan
    obtain ⟨ds, hds, rfl, -⟩ := hspan
    obtain rfl := Option.some.inj (ha.symm.trans hds)
    refine Or.inr ⟨by rw [heq], ?_, ?_⟩
    · simp [(Forest.path_valid h.kv.valid ha d (by simp)).1]
    · rintro ⟨q, slot'⟩ hx rfl
      obtain ⟨v, b, e, hb, hkeys, hslot'⟩ := (Forest.mem_snapshots_iff h.kv.nodup).mp hx
      obtain ⟨-, hde⟩ := List.append_inj' (Forest.path_eq_of_keys h.kv.valid hb ha hkeys) rfl
      rw [List.singleton_inj.mp hde, hnone] at hslot'
      cases hslot'

/-- An insertion stores what is missing of the whole pages, and their state unless there is one. -/
theorem StoredIn.insert (h : m.StoredIn ps c) (hsound : c.Sound hs) {ids : List Token}
    {slots : List Slot} {slot : Slot} {reply : Nat × Bool}
    (hinsert : c.insert ids slots slot = some (reply, c')) :
    ∃ m', Answers ps m (.insert ids slots slot) (.inserted reply.1 reply.2) m' ∧
      m'.StoredIn ps c' := by
  obtain rfl := h.pageSize_eq
  have htakes := hsound.takes_insert hinsert
  rw [insert_eq, Option.map_eq_some_iff] at hinsert
  obtain ⟨⟨res, kv⟩, hkv, heq⟩ := hinsert
  cases heq
  have hi := hsound.kv.shape.inserts h.represents hkv
  obtain ⟨out, hspan, -⟩ := hi.span_eq
  have hL : (ids.take (alignDownNat ids.length c.kv.pageSize)).length =
      alignDownNat ids.length c.kv.pageSize := by
    rw [List.length_take, Nat.min_eq_left (alignDownNat_le _ _)]
  obtain ⟨hplain, hps⟩ := donate_plain { c with kv := kv } res.handle.node slot
  have hrep := hi.represents.of_plain hplain
  have hmid := (hsound.takes_insertKv hkv).snapshots_perm.trans h.snapshots
  have hsnapshots := htakes.snapshots_perm
  rcases donate_exist (hsound.insertKv hkv).1 hspan slot with ⟨hexist, hold⟩ | ⟨hexist, hne, hnew⟩
  · rw [hexist] at hsnapshots
    dsimp only
    rw [hexist]
    refine ⟨_, Answers.exists' hi.longest ?_, htakes.pageSize_eq, hps ▸ hrep,
      hsnapshots.trans h.snapshots⟩
    refine hold.imp (fun hnil => ?_) fun ⟨x, hx, hxq⟩ => ⟨x, hmid.mem_iff.mp hx, hxq⟩
    rw [← hL, hnil]
    rfl
  · rw [hexist] at hsnapshots
    dsimp only
    rw [hexist]
    refine ⟨_, Answers.donated hi.longest (fun hzero => ?_) fun x hx => ?_, htakes.pageSize_eq,
      hps ▸ hrep, hsnapshots.trans (h.snapshots.cons _)⟩
    · exact hne (List.length_eq_zero_iff.mp (hL.trans hzero))
    · exact hnew x (hmid.mem_iff.mpr hx)

/-- Evictions take ends of stored sequences, and states. -/
theorem StoredIn.evict {r : EvictResult} (h : m.StoredIn ps c)
    (hf : Freed c c' r.kvIndices r.mambaSlots) : ∃ m', m.Evicts r m' ∧ m'.StoredIn ps c' := by
  obtain ⟨kv, hevicts, hrep⟩ := hf.evicts m.kv h.represents
  obtain ⟨gone, hperm, hgone⟩ := hf.snapshots
  refine ⟨{ kv := kv, snapshots := c'.tree.snapshots },
    ⟨gone, hevicts, h.snapshots.symm.trans hperm, hgone⟩, hf.pageSize_eq.trans h.pageSize_eq,
    hf.pageSize_eq ▸ hrep, List.Perm.refl _⟩

/-- The locks leave every span. -/
theorem span_lock (kv : RadixPrefixCache) (hd : RadixCacheHandle) (u : Nat) :
    (kv.lock hd).tree.span u = kv.tree.span u := by
  rw [← Forest.span_bare, ← Forest.span_bare kv.tree, RadixPrefixCache.lock]
  split
  · rfl
  · rw [Forest.mapPath_bare]

theorem span_unlock {kv kv' : RadixPrefixCache} {hd : RadixCacheHandle}
    (h : kv.unlock hd = some kv') (u : Nat) : kv'.tree.span u = kv.tree.span u := by
  rw [← Forest.span_bare, ← Forest.span_bare kv.tree]
  rw [RadixPrefixCache.unlock] at h
  split at h
  · cases h
    rfl
  · split at h
    · cases h
    · cases h
      rw [Forest.mapPath_bare]

theorem span_modify {g : RadixTreeNode → RadixTreeNode} (hg : Forest.OnSnapshot g) (f : Forest)
    (u v : Nat) : (f.modify v g).span u = f.span u := by
  rw [← Forest.span_plain, Forest.plain_modify hg, Forest.span_plain]

theorem span_incLock (c : HybridRadixCache) (node : Option Nat) (u : Nat) :
    (c.incLock node).tree.span u = c.tree.span u := by
  rw [HybridRadixCache.incLock]
  split
  · rfl
  · rw [tree, span_lock]
    split
    · exact span_modify (onSnapshot_count (· + 1)) _ _ _
    · rfl

theorem span_decLock {node : Option Nat} (h : c.decLock node = some c') (u : Nat) :
    c'.tree.span u = c.tree.span u := by
  rw [HybridRadixCache.decLock] at h
  split at h
  · cases h
    rfl
  · rw [Option.map_eq_some_iff] at h
    obtain ⟨kv, hkv, rfl⟩ := h
    rw [tree, span_unlock hkv]
    split
    · exact span_modify (onSnapshot_count (· - 1)) _ _ _
    · rfl

theorem StoredIn.of_span (h : m.StoredIn ps c) (ht : Takes c c' [] [])
    (hspan : ∀ u, c'.tree.span u = c.tree.span u) : m.StoredIn ps c' := by
  refine ⟨ht.pageSize_eq.trans h.pageSize_eq, fun q s => ?_, ht.snapshots_perm.trans h.snapshots⟩
  rw [h.represents q s, ht.pageSize_eq]
  simp only [Forest.Stored, hspan]

open HybridRun in
/-- A paired call answers as the map does. -/
theorem StoredIn.next {s s' : HybridRun} {a : HybridCall} (h : m.StoredIn ps s.cache) (hkept : s.Kept)
    (hp : s.Paired a) (hnext : s.next a = some s') :
    ∃ r m', s'.trace = (a, r) :: s.trace ∧ Answers ps m a r m' ∧ m'.StoredIn ps s'.cache := by
  rw [HybridRun.next, Option.map_eq_some_iff] at hnext
  obtain ⟨⟨r, c⟩, hcall, rfl⟩ := hnext
  refine ⟨r, ?_⟩
  cases a with
  | matchPrefix ids =>
      cases hcall
      exact ⟨m, rfl, h.matchPrefix hkept.sound ids⟩
  | insert ids slots slot =>
      rw [call, Option.map_eq_some_iff] at hcall
      obtain ⟨⟨reply, c'⟩, hinsert, heq⟩ := hcall
      cases heq
      obtain ⟨m', hanswer, hm'⟩ := h.insert hkept.sound hinsert
      exact ⟨m', rfl, hanswer, hm'⟩
  | incLock node =>
      cases hcall
      obtain ⟨x, hx, rfl⟩ := hp
      have htakes := hkept.sound.takes_incLock (live_of_current (hkept.current x hx) hkept.sound)
      exact ⟨m, rfl, Answers.incLock m x.2.node, h.of_span htakes (span_incLock _ _)⟩
  | decLock node =>
      rw [call, Option.map_eq_some_iff] at hcall
      obtain ⟨c', hdec, heq⟩ := hcall
      cases heq
      have hsound := hkept.sound.perm ((List.perm_cons_erase hp).map lockOf)
      have htakes := Sound.takes_decLock hsound hdec
      exact ⟨m, rfl, Answers.decLock m node, h.of_span htakes (span_decLock hdec)⟩
  | evictFull num =>
      cases hcall
      obtain ⟨m', hevicts, hm'⟩ := h.evict (hkept.sound.evictFull num).2.1
      exact ⟨m', rfl, Answers.evictFull num hevicts, hm'⟩
  | evictMamba num =>
      cases hcall
      obtain ⟨m', hevicts, hm'⟩ := h.evict (hkept.sound.evictMamba num).2.1
      exact ⟨m', rfl, Answers.evictMamba num hevicts, hm'⟩

open HybridRun in
theorem storedIn_of_run (hps : 0 < ps) {as : List HybridCall} {s : HybridRun}
    (hall : Run.AllSteps HybridRun.next Paired (start ps) as)
    (h : Run.exec HybridRun.next (start ps) as = some s) :
    s.Kept ∧ ∃ m : HybridMap, AnswersAll ps s.trace m ∧ m.StoredIn ps s.cache := by
  refine Run.invariant
    (fun s => s.Kept ∧ ∃ m : HybridMap, AnswersAll ps s.trace m ∧ m.StoredIn ps s.cache)
    (fun s a s' hs hp hn => ?_) ⟨kept_start hps, empty, AnswersAll.nil, ?_⟩ hall h
  · obtain ⟨hkept, m, hanswers, hm⟩ := hs
    obtain ⟨r, m', htrace, hanswer, hm'⟩ := hm.next hkept hp hn
    exact ⟨hkept.next hp hn, m', htrace ▸ AnswersAll.cons hanswers hanswer, hm'⟩
  · exact ⟨rfl, RadixNodes.represents_init ps, List.Perm.refl _⟩

open HybridRun in
/-- Every run of paired calls answers as the map does, and the map stays covered: what is stored
leads to a state. -/
theorem hybrid_answers (hps : 0 < ps) {as : List HybridCall} {s : HybridRun}
    (hall : Run.AllSteps HybridRun.next Paired (start ps) as)
    (h : Run.exec HybridRun.next (start ps) as = some s) :
    ∃ m : HybridMap, AnswersAll ps s.trace m ∧ m.StoredIn ps s.cache ∧ m.Covers := by
  obtain ⟨hkept, m, hanswers, hm⟩ := storedIn_of_run hps hall h
  exact ⟨m, hanswers, hm, hm.covers hkept.sound⟩

open HybridRun in
theorem sharedTurns_answers : ∃ s, Run.exec HybridRun.next (start 2) sharedTurns = some s ∧
    ∃ m : HybridMap, AnswersAll 2 s.trace m ∧ m.StoredIn 2 s.cache ∧ m.Covers := by
  obtain ⟨s, hs⟩ : ∃ s, Run.exec HybridRun.next (start 2) sharedTurns = some s :=
    Option.isSome_iff_exists.mp (by decide +kernel)
  exact ⟨s, hs, hybrid_answers (by decide) (by decide +kernel) hs⟩

/-! ### Matches -/

/-- The snapshot of the longest prefix of the input that has one, and the indices stored for that
prefix; the root where no prefix of the input has one. -/
def Deepest (m : HybridMap) (inputIds : List Token) (r : HybridMatch) : Prop :=
  (∃ q slot node indices, (q, slot) ∈ m.snapshots ∧ q <+: inputIds ∧
    (∀ x ∈ m.snapshots, x.1 <+: inputIds → x.1.length ≤ q.length) ∧ m.kv q = some indices ∧
    r = { kvIndices := indices, cachedLen := q.length, mambaValue := some slot,
          node := some node }) ∨
  (∀ x ∈ m.snapshots, ¬ x.1 <+: inputIds) ∧
    r = { kvIndices := [], cachedLen := 0, mambaValue := none, node := none }

theorem Covers.deepest (h : m.Covers) {ids : List Token} {r : HybridMatch}
    (hanswer : Answers ps m (.matchPrefix ids) (.matched r) m) : m.Deepest ids r := by
  cases hanswer with
  | @hit _ q slot node hmem hpre hlong =>
      obtain ⟨indices, hindices⟩ := Option.isSome_iff_exists.mp (h.stored _ hmem)
      have hvalues : m.kv.valuesOf q = indices := by
        rw [PrefixMap.valuesOf, hindices]
        rfl
      exact .inl ⟨q, slot, node, indices, hmem, hpre, hlong, hindices, by rw [hvalues]⟩
  | miss hnone => exact .inr ⟨hnone, rfl⟩

open HybridRun in
/-- After every run, over what its insertions stored and donated and its evictions took, a match of
any input finds the deepest snapshot that is left. -/
theorem match_deepest (hps : 0 < ps) {as : List HybridCall} {s : HybridRun}
    (hall : Run.AllSteps HybridRun.next Paired (start ps) as)
    (h : Run.exec HybridRun.next (start ps) as = some s) :
    ∃ m : HybridMap, AnswersAll ps s.trace m ∧ (m.snapshots.map Prod.fst).Nodup ∧
      ∀ inputIds, m.Deepest inputIds (s.cache.matchPrefix inputIds).1 := by
  obtain ⟨hkept, m, hanswers, hm⟩ := storedIn_of_run hps hall h
  have hcovers := hm.covers hkept.sound
  exact ⟨m, hanswers, hcovers.nodup, fun inputIds =>
    hcovers.deepest (hm.matchPrefix hkept.sound inputIds).1⟩

open HybridRun in
theorem sharedTurns_deepest : ∃ s, Run.exec HybridRun.next (start 2) sharedTurns = some s ∧
    ∃ m : HybridMap, AnswersAll 2 s.trace m ∧ (m.snapshots.map Prod.fst).Nodup ∧
      ∀ inputIds, m.Deepest inputIds (s.cache.matchPrefix inputIds).1 := by
  obtain ⟨s, hs⟩ : ∃ s, Run.exec HybridRun.next (start 2) sharedTurns = some s :=
    Option.isSome_iff_exists.mp (by decide +kernel)
  exact ⟨s, hs, match_deepest (by decide) (by decide +kernel) hs⟩

end HybridMap

end FreeToken
