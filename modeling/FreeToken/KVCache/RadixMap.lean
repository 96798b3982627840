import FreeToken.KVCache.RadixPops
import FreeToken.Lib.PrefixMap

/-!
# The radix cache as a map of prefixes

What the cache is for: it maps token prefixes in whole pages to their slots. `Answers` says what
each call does to the map and returns; the cache answers so in every run, whatever is locked,
unlocked or evicted in between.
-/

namespace FreeToken

namespace Forest

variable {ps : Nat} {f : Forest} {m : PrefixMap Token Slot}

/-- The tree stores what the map says. -/
def Represents (ps : Nat) (f : Forest) (m : PrefixMap Token Slot) : Prop :=
  ∀ q s, m q = some s ↔ q ≠ [] ∧ ps ∣ q.length ∧ f.Stored q s

/-- A path along more of a childless node than its parent's is the path to it. -/
theorem path_eq_of_tip {x : RadixTreeNode} {a ds : List RadixTreeNode} {q : List Token} {w : Nat}
    (hv : f.Valid ps) (hn : f.uuids.Nodup) (hx : x ∈ f.tips) (ha : f.path x.uuid = some (a ++ [x]))
    (hq : q ≠ []) (hdvd : ps ∣ q.length) (hpre : q <+: ((a ++ [x]).flatMap fun d => d.key))
    (hlt : (a.flatMap fun d => d.key).length < q.length) (hw : f.path w = some ds)
    (hpre' : q <+: (ds.flatMap fun d => d.key)) : ds = a ++ [x] := by
  obtain ⟨a', y, b, b', hab, rfl, hlt', hle⟩ := path_common hv ha hw hq hdvd hpre hpre'
  have hb : b = [] := by
    by_contra hne
    have ha' : a = a' ++ y :: b.dropLast := by
      have hdrop := congrArg List.dropLast hab
      rw [List.dropLast_concat, List.dropLast_append_of_ne_nil (List.cons_ne_nil y b),
        List.dropLast_cons_of_ne_nil hne] at hdrop
      exact hdrop
    rw [ha', List.flatMap_append, List.flatMap_cons, List.length_append, List.length_append] at hlt
    omega
  subst hb
  obtain ⟨rfl, hxy⟩ := List.append_inj' hab rfl
  rw [List.cons.injEq] at hxy
  obtain ⟨rfl, -⟩ := hxy
  rw [path_ends hx hn hw rfl]

theorem dvd_keys {ds : List RadixTreeNode} (h : ∀ d ∈ ds, ps ∣ d.key.length) :
    ps ∣ (ds.flatMap fun d => d.key).length := by
  induction ds with
  | nil => exact Nat.dvd_zero ps
  | cons d ds ih =>
      rw [List.flatMap_cons, List.length_append]
      exact Nat.dvd_add (h d List.mem_cons_self) (ih fun y hy => h y (List.mem_cons_of_mem d hy))

/-- Evicting a childless node takes its prefixes off the map. -/
theorem Represents.remove (h : Represents ps f m) (hv : f.Valid ps) (hn : f.uuids.Nodup)
    {x : RadixTreeNode} (hx : x ∈ f.tips) :
    ∃ xs s k, m xs = some s ∧ k < xs.length ∧ s.drop k = x.value ∧
      (∀ q q', (m q).isSome → q <+: xs → k < q.length → (m q').isSome → q <+: q' → q' <+: xs) ∧
      Represents ps (f.remove x.uuid) (m.cut xs k) := by
  obtain ⟨a, ha⟩ := path_tip hx hn
  have hkeys := path_valid hv ha
  have hxkey := hkeys x (List.mem_append_right a List.mem_cons_self)
  have hlen : (a.flatMap fun d => d.key).length = (a.flatMap fun d => d.value).length :=
    length_values fun d hd => (hkeys d (List.mem_append_left _ hd)).2.2
  have hlen' := length_values fun d hd => (hkeys d hd).2.2
  have hspan : f.span x.uuid = some ((a ++ [x]).flatMap (fun d => d.key),
      (a ++ [x]).flatMap fun d => d.value) := by
    rw [span, ha, Option.map_some]
  -- what is stored along more of the leaf than its parent's is along the leaf's own span
  have honly : ∀ {q q' : List Token}, (m q).isSome →
      q <+: ((a ++ [x]).flatMap fun d => d.key) → (a.flatMap fun d => d.key).length < q.length →
      ∀ w ds, f.path w = some ds → q <+: q' → q' <+: (ds.flatMap fun d => d.key) →
        ds = a ++ [x] := by
    intro q q' hq hpre hlt w ds hw hqq' hq'
    obtain ⟨s, hs⟩ := Option.isSome_iff_exists.mp hq
    obtain ⟨hne, hdvd, -⟩ := (h q s).mp hs
    exact path_eq_of_tip hv hn hx ha hne hdvd hpre hlt hw (hqq'.trans hq')
  refine ⟨(a ++ [x]).flatMap fun d => d.key, (a ++ [x]).flatMap fun d => d.value,
    (a.flatMap fun d => d.key).length, (h _ _).mpr ⟨?_, ?_, x.uuid, _, _, hspan,
      List.prefix_refl _, ?_⟩, ?_, ?_, ?_, ?_⟩
  · simp [hxkey.1]
  · exact dvd_keys fun d hd => (hkeys d hd).2.1
  · rw [hlen', List.take_length]
  · simp [List.length_pos_of_ne_nil hxkey.1]
  · rw [List.flatMap_append, hlen, List.drop_left]
    simp
  · intro q q' hq hpre hlt hq' hqq'
    obtain ⟨s', hs'⟩ := Option.isSome_iff_exists.mp hq'
    obtain ⟨-, -, w, toks, slots, hw, hpre', -⟩ := (h q' s').mp hs'
    simp only [span, Option.map_eq_some_iff, Prod.mk.injEq] at hw
    obtain ⟨ds, hds, rfl, rfl⟩ := hw
    rw [honly hq hpre hlt w ds hds hqq' hpre'] at hpre'
    exact hpre'
  · intro q s
    rw [PrefixMap.cut]
    split
    · next hcut =>
        refine iff_of_false (fun hnone => by cases hnone) ?_
        rintro ⟨hne, hdvd, w, toks, slots, hw, hpre, -⟩
        have hwx : w ≠ x.uuid := by
          rintro rfl
          have hnodup := (uuids_remove hx hn).nodup_iff.mp hn
          exact (List.nodup_cons.mp hnodup).1 (mem_uuids_of_span hw)
        rw [span_remove hx hn hwx] at hw
        simp only [span, Option.map_eq_some_iff, Prod.mk.injEq] at hw
        obtain ⟨ds, hds, rfl, rfl⟩ := hw
        have hds' := path_eq_of_tip hv hn hx ha hne hdvd hcut.1 hcut.2 hds hpre
        subst hds'
        exact hwx (path_last hds).symm
    · next hkeep =>
        rw [h q s]
        refine and_congr_right fun hne => and_congr_right fun hdvd => ?_
        constructor
        · rintro ⟨w, toks, slots, hw, hpre, rfl⟩
          by_cases hwx : w = x.uuid
          · subst hwx
            rw [hspan] at hw
            cases hw
            -- a prefix that goes no further than the parent is stored there
            have hle : q.length ≤ (a.flatMap fun d => d.key).length :=
              Nat.le_of_not_lt fun hlt => hkeep ⟨hpre, hlt⟩
            have hpre' : q <+: (a.flatMap fun d => d.key) := by
              rw [List.flatMap_append] at hpre
              exact List.prefix_of_prefix_length_le hpre (List.prefix_append _ _) hle
            rcases List.eq_nil_or_concat a with rfl | ⟨a0, y, rfl⟩
            · exact absurd (List.prefix_nil.mp hpre') hne
            · rw [List.concat_eq_append] at *
              have hy : f.path y.uuid = some (a0 ++ [y]) :=
                path_of_mem_path hn (by rw [ha, List.append_assoc]; rfl)
              have hyx : y.uuid ≠ x.uuid := by
                intro heq
                rw [heq, ha, Option.some.injEq] at hy
                simpa using congrArg List.length hy
              refine ⟨y.uuid, (a0 ++ [y]).flatMap fun d => d.key,
                (a0 ++ [y]).flatMap fun d => d.value, ?_, hpre', ?_⟩
              · rw [span_remove hx hn hyx, span, hy, Option.map_some]
              · rw [List.flatMap_append, List.take_append_of_le_length (hlen ▸ hle)]
          · exact ⟨w, toks, slots, (span_remove hx hn hwx).trans hw, hpre, rfl⟩
        · rintro ⟨w, toks, slots, hw, hpre, rfl⟩
          have hwx : w ≠ x.uuid := by
            rintro rfl
            have hnodup := (uuids_remove hx hn).nodup_iff.mp hn
            exact (List.nodup_cons.mp hnodup).1 (mem_uuids_of_span hw)
          exact ⟨w, toks, slots, (span_remove hx hn hwx) ▸ hw, hpre, rfl⟩

/-- What is stored shows in the entries. -/
theorem Stored.mem_entries {q : List Token} {s : List Slot} (h : f.Stored q s) (hv : f.Valid ps)
    (hq : q ≠ []) : ∃ slot, (q, slot) ∈ f.entries := by
  obtain ⟨u, toks, slots, hspan, hpre, -⟩ := h
  have hpos := List.length_pos_of_ne_nil hq
  have hlen : toks.length = slots.length := by
    simp only [span, Option.map_eq_some_iff, Prod.mk.injEq] at hspan
    obtain ⟨ds, hds, rfl, rfl⟩ := hspan
    exact length_values fun d hd => (path_valid hv hds d hd).2.2
  have hlt : q.length - 1 < slots.length := by
    have := hpre.length_le
    omega
  have hmem := mem_entries_of_span hv hspan (List.getElem?_eq_getElem hlt)
  rw [Nat.sub_add_cancel hpos, ← List.prefix_iff_eq_take.mp hpre] at hmem
  exact ⟨_, hmem⟩

/-- Along an input, what is stored is what was found. -/
theorem Represents.along {xs q : List Token} {k : Nat} (h : Represents ps f m)
    (hlong : m.Longest ps xs k) (hq : q ≠ []) (hdvd : ps ∣ q.length) (hpre : q <+: xs)
    (hle : q.length ≤ k) : m q = some ((m.valuesOf (xs.take k)).take q.length) := by
  have hk : k ≠ 0 := by
    rintro rfl
    exact hq (List.length_eq_zero_iff.mp (Nat.le_zero.mp hle))
  obtain ⟨s0, hs0⟩ := Option.isSome_iff_exists.mp (hlong.stored.resolve_left hk)
  obtain ⟨-, -, u, toks, slots', hu, hpre', heq⟩ := (h _ _).mp hs0
  have hq' : q <+: xs.take k := List.prefix_take_iff.mpr ⟨hpre, hle⟩
  rw [PrefixMap.valuesOf, hs0, Option.getD_some]
  refine (h _ _).mpr ⟨hq, hdvd, u, toks, slots', hu, hq'.trans hpre', ?_⟩
  rw [heq, List.take_take, Nat.min_eq_left hq'.length_le]

/-- Of a sequence that is stored, nothing is missing. -/
theorem Represents.store_self {xs : List Token} {slots : List Slot} {k : Nat}
    (h : Represents ps f m) (hlong : m.Longest ps xs k) (hall : xs.length ≤ k) :
    m.store ps xs slots k = m := by
  funext q
  rw [PrefixMap.store]
  cases hm : m q with
  | some s => rfl
  | none =>
      refine if_neg ?_
      rintro ⟨hq, hdvd, hpre⟩
      rw [h.along hlong hq hdvd hpre (hpre.length_le.trans hall)] at hm
      cases hm

/-- A new leaf adds the missing prefixes of its span to the map. -/
theorem Represents.grow {f' : Forest} {new : RadixTreeNode} {xs : List Token}
    {slots0 slots : List Slot} {k : Nat} (h : Represents ps f m) (hv : f.Valid ps)
    (hlong : m.Longest ps xs k) (hslots0 : m.valuesOf (xs.take k) = slots0)
    (hlen0 : slots0.length = k)
    (hperm : f'.uuids.Perm (new.uuid :: f.uuids)) (hspan : ∀ u ∈ f.uuids, f'.span u = f.span u)
    (hleaf : f'.span new.uuid = some (xs, slots0 ++ (slots.take xs.length).drop k)) :
    Represents ps f' (m.store ps xs slots k) := by
  have hstored : ∀ q s, f'.Stored q s ↔ f.Stored q s ∨
      q <+: xs ∧ s = (slots0 ++ (slots.take xs.length).drop k).take q.length := by
    intro q s
    constructor
    · rintro ⟨u, toks, slots', hu, hpre, rfl⟩
      rcases List.mem_cons.mp (hperm.mem_iff.mp (mem_uuids_of_span hu)) with rfl | hmem
      · rw [hleaf] at hu
        cases hu
        exact Or.inr ⟨hpre, rfl⟩
      · exact Or.inl ⟨u, toks, slots', (hspan u hmem) ▸ hu, hpre, rfl⟩
    · rintro (⟨u, toks, slots', hu, hpre, rfl⟩ | ⟨hpre, rfl⟩)
      · exact ⟨u, toks, slots', (hspan u (mem_uuids_of_span hu)).trans hu, hpre, rfl⟩
      · exact ⟨new.uuid, _, _, hleaf, hpre, rfl⟩
  intro q s
  rw [PrefixMap.store, hstored]
  cases hm : m q with
  | some s0 =>
      obtain ⟨hq, hdvd, hs0⟩ := (h q s0).mp hm
      rw [Option.some.injEq]
      constructor
      · rintro rfl
        exact ⟨hq, hdvd, Or.inl hs0⟩
      · rintro ⟨-, -, hs | ⟨hpre, rfl⟩⟩
        · exact hs0.unique hv hq hdvd hs
        · have hle : q.length ≤ k := by
            apply hlong.longest q.length hdvd hpre.length_le
            rw [← List.prefix_iff_eq_take.mp hpre, hm]
            rfl
          have heq := h.along hlong hq hdvd hpre hle
          rw [hm, hslots0, Option.some.injEq] at heq
          rw [List.take_append_of_le_length (hlen0 ▸ hle), heq]
  | none =>
      have hno : ∀ s, ¬ (q ≠ [] ∧ ps ∣ q.length ∧ f.Stored q s) := by
        intro s hs
        rw [(h q s).mpr hs] at hm
        cases hm
      dsimp only
      split
      · next hcond =>
          obtain ⟨hq, hdvd, hpre⟩ := hcond
          have hlt : k < q.length := by
            by_contra hle
            rw [h.along hlong hq hdvd hpre (Nat.le_of_not_lt hle)] at hm
            cases hm
          have htake : (slots0 ++ (slots.take xs.length).drop k).take q.length =
              slots0 ++ (slots.take q.length).drop k := by
            have h0 : slots0.take q.length = slots0 := List.take_of_length_le (by omega)
            rw [List.take_append, hlen0, h0, List.drop_take, List.drop_take, List.take_take,
              Nat.min_eq_left (Nat.sub_le_sub_right hpre.length_le k)]
          rw [hslots0, Option.some.injEq, htake]
          constructor
          · rintro rfl
            exact ⟨hq, hdvd, Or.inr ⟨hpre, rfl⟩⟩
          · rintro ⟨-, -, hs | ⟨-, rfl⟩⟩
            · exact absurd ⟨hq, hdvd, hs⟩ (hno s)
            · rfl
      · next hcond =>
          refine iff_of_false (fun hnone => by cases hnone) ?_
          rintro ⟨hq, hdvd, hs | ⟨hpre, -⟩⟩
          · exact hno s ⟨hq, hdvd, hs⟩
          · exact hcond ⟨hq, hdvd, hpre⟩

/-- A run of pops takes their prefixes off the map. -/
theorem Represents.pops {f' : Forest} {es : List EvictedNode} (hpops : Pops f es f') :
    ∀ {m : PrefixMap Token Slot}, Represents ps f m → f.Valid ps → f.uuids.Nodup →
      ∃ m', m.Evicts (es.flatMap fun e => e.node.value) m' ∧ Represents ps f' m' := by
  induction hpops with
  | done f => exact fun h _ _ => ⟨_, PrefixMap.Evicts.done _, h⟩
  | pop hmin rest ih =>
      intro m h hv hn
      have hleaf := heapMin_mem hmin
      have htip := mem_tips_of_leaves hleaf
      obtain ⟨xs, s, k, hs, hk, hdrop, hend, hcut⟩ := h.remove hv hn htip
      obtain ⟨m', hevicts, hrep⟩ := ih hcut (pruned_remove hleaf hv hn).1.valid
        (List.nodup_cons.mp ((uuids_remove htip hn).nodup_iff.mp hn)).2
      refine ⟨m', ?_, hrep⟩
      rw [List.flatMap_cons, ← hdrop]
      exact PrefixMap.Evicts.leaf hs hk hend hevicts

end Forest

namespace RadixPrefixCache

variable {c c1 : RadixPrefixCache} {m : PrefixMap Token Slot} {ids : List Token} {w : WalkResult}

theorem valuesOf_handle {h : RadixCacheHandle} {xs : List Token} {slots : List Slot}
    (hm : c.tree.Represents c.pageSize m) (hspan : c.handleSpan h = some (xs, slots))
    (hdvd : c.pageSize ∣ xs.length) (hlen : slots.length = xs.length) : m.valuesOf xs = slots := by
  by_cases hxs : xs = []
  · subst hxs
    have hnil : m [] = none := by
      rw [Option.eq_none_iff_forall_ne_some]
      intro s hs
      exact ((hm [] s).mp hs).1 rfl
    rw [PrefixMap.valuesOf, hnil, List.length_eq_zero_iff.mp hlen]
    rfl
  · cases hnode : h.node with
    | none =>
        rw [handleSpan, hnode] at hspan
        cases hspan
        exact absurd rfl hxs
    | some u =>
        rw [handleSpan, hnode] at hspan
        have hsome := (hm xs slots).mpr ⟨hxs, hdvd, u, xs, slots, hspan, List.prefix_refl xs,
          by rw [← hlen, List.take_length]⟩
        rw [PrefixMap.valuesOf, hsome, Option.getD_some]

/-- A walk finds the longest stored prefix, and changes nothing that is stored. -/
theorem Walked.represents (hw : Walked c ids w c1) (hc : c.Shape)
    (hm : c.tree.Represents c.pageSize m) :
    c1.tree.Represents c1.pageSize m ∧ m.Longest c.pageSize ids w.prefixLen := by
  have hfresh : c.counter ∉ c.tree.uuids := fun hmem => lt_irrefl _ (hc.fresh _ hmem)
  have hm1 : c1.tree.Represents c1.pageSize m := by
    intro q s
    rw [hm q s, hw.keeps.pageSize_eq, Forest.stored_resplit hw.resplit hfresh hc.valid hc.nodup]
  obtain ⟨slots, hspan, hlen⟩ := hw.span_eq
  have htake : (ids.take w.prefixLen).length = w.prefixLen := by
    rw [List.length_take, Nat.min_eq_left hw.prefixLen_le]
  refine ⟨hm1, hw.dvd_prefixLen, hw.prefixLen_le, ?_, ?_⟩
  · by_cases hzero : w.prefixLen = 0
    · exact Or.inl hzero
    · right
      have hvalues := valuesOf_handle hm1 hspan
        (by rw [hw.keeps.pageSize_eq, htake]; exact hw.dvd_prefixLen) (hlen.trans htake.symm)
      cases hsome : m (ids.take w.prefixLen) with
      | some s => rfl
      | none =>
          rw [PrefixMap.valuesOf, hsome] at hvalues
          exact absurd (hlen.symm.trans (congrArg List.length hvalues.symm)) hzero
  · intro j hdvd hle hsome
    obtain ⟨s, hs⟩ := Option.isSome_iff_exists.mp hsome
    obtain ⟨hne, -, hstored⟩ := (hm _ _).mp hs
    obtain ⟨slot, hmem⟩ := hstored.mem_entries hc.valid hne
    have hj : (ids.take j).length = j := by rw [List.length_take, Nat.min_eq_left hle]
    have hlong := hw.longest _ _ hmem (List.take_prefix j ids) (by rw [hj]; exact hdvd)
    rw [hj] at hlong
    exact hlong

/-- What an insertion does to the map. -/
structure Inserts (c : RadixPrefixCache) (m : PrefixMap Token Slot) (ids : List Token)
    (slots : List Slot) (res : MatchResult) (c' : RadixPrefixCache) : Prop where
  shape : c'.Shape
  pageSize_eq : c'.pageSize = c.pageSize
  longest : m.Longest c.pageSize (ids.take (alignDownNat ids.length c.pageSize)) res.cachedLen
  cachedLen_eq : res.handle.cachedLen = alignDownNat ids.length c.pageSize
  represents : c'.tree.Represents c'.pageSize
    (m.store c.pageSize (ids.take (alignDownNat ids.length c.pageSize)) slots res.cachedLen)
  span_eq : ∃ out, c'.handleSpan res.handle =
      some (ids.take (alignDownNat ids.length c.pageSize), out) ∧
    out.length = alignDownNat ids.length c.pageSize

theorem Shape.inserts {slots : List Slot} {res : MatchResult} {c' : RadixPrefixCache}
    (hc : c.Shape) (hm : c.tree.Represents c.pageSize m)
    (h : c.insertPrefix ids slots = some (res, c')) : Inserts c m ids slots res c' := by
  obtain ⟨w, c1, hwalk, hcached, hlenHandle, hcase⟩ := insertPrefix_cases h
  have hw := hc.walked (ids.take (alignDownNat ids.length c.pageSize))
  rw [hwalk] at hw
  dsimp only at hw
  obtain ⟨hm1, hlong⟩ := hw.represents hc hm
  have hps := hw.keeps.pageSize_eq
  have hL : (ids.take (alignDownNat ids.length c.pageSize)).length =
      alignDownNat ids.length c.pageSize := by
    rw [List.length_take, Nat.min_eq_left (alignDownNat_le _ _)]
  obtain ⟨slots0, hspan, hlen0⟩ := hw.span_eq
  have hvalues : m.valuesOf ((ids.take (alignDownNat ids.length c.pageSize)).take w.prefixLen) =
      slots0 := by
    have htake : ((ids.take (alignDownNat ids.length c.pageSize)).take w.prefixLen).length =
        w.prefixLen := by rw [List.length_take, Nat.min_eq_left hw.prefixLen_le]
    exact valuesOf_handle hm1 hspan (by rw [hps, htake]; exact hw.dvd_prefixLen)
      (hlen0.trans htake.symm)
  rcases hcase with ⟨hall, rfl, hnode⟩ | ⟨hall, hlen, hnode, rfl⟩
  · -- nothing is missing
    exact
      { shape := hw.shape
        pageSize_eq := hps
        longest := hcached ▸ hlong
        cachedLen_eq := hlenHandle
        represents := by
          rw [hcached, hm.store_self hlong (by rw [hL, hall])]
          exact hm1
        span_eq := by
          refine ⟨slots0, ?_, hlen0.trans hall⟩
          rw [hall, List.take_take, Nat.min_self] at hspan
          rw [← hspan]
          unfold handleSpan
          rw [hnode] }
  · have hgrown := hc.grown hwalk hall hlen
    have hfresh : c1.counter ∉ c1.tree.uuids := fun hmem => lt_irrefl _ (hw.shape.fresh _ hmem)
    have hkey : (ids.take (alignDownNat ids.length c.pageSize)).take w.prefixLen ++
        (c1.newLeaf ids slots w.prefixLen c.pageSize).key =
          ids.take (alignDownNat ids.length c.pageSize) := List.take_append_drop _ _
    -- the leaf spans the whole pages of the input
    have hleaf : (c1.setParent w.node (c1.newLeaf ids slots w.prefixLen c.pageSize)).span c1.counter =
        some (ids.take (alignDownNat ids.length c.pageSize), slots0 ++
          (slots.take (alignDownNat ids.length c.pageSize)).drop w.prefixLen) := by
      cases hn : w.node with
      | none =>
          rw [handleSpan, hn] at hspan
          dsimp only at hspan
          rw [Option.some.injEq, Prod.mk.injEq] at hspan
          have h := @Forest.span_snoc_new (c1.newLeaf ids slots w.prefixLen c.pageSize) _ hfresh
          rw [← hkey, ← hspan.1, ← hspan.2, List.nil_append, List.nil_append]
          exact h
      | some u =>
          rw [handleSpan, hn] at hspan
          have h := @Forest.span_attach_new u (c1.newLeaf ids slots w.prefixLen c.pageSize) _ _ _
            hfresh hw.shape.nodup hspan
          rw [hkey] at h
          exact h
    exact
      { shape := hgrown.shape
        pageSize_eq := hps
        longest := hcached ▸ hlong
        cachedLen_eq := hlenHandle
        represents := by
          have hrep : (c1.setParent w.node (c1.newLeaf ids slots w.prefixLen c.pageSize)).Represents
              c.pageSize (m.store c.pageSize (ids.take (alignDownNat ids.length c.pageSize)) slots
                w.prefixLen) := by
            refine Forest.Represents.grow (hps ▸ hm1) (hps ▸ hw.shape.valid) hlong hvalues hlen0
              hgrown.uuids_perm hgrown.span_eq ?_
            rw [hL]
            exact hleaf
          rw [hcached]
          dsimp only
          rw [hps]
          exact hrep
        span_eq := by
          refine ⟨slots0 ++ (slots.take (alignDownNat ids.length c.pageSize)).drop w.prefixLen,
            ?_, ?_⟩
          · unfold handleSpan
            rw [hnode]
            exact hleaf
          · have hvalue : ((slots.take (alignDownNat ids.length c.pageSize)).drop
                w.prefixLen).length =
                ((ids.take (alignDownNat ids.length c.pageSize)).drop w.prefixLen).length := hlen.symm
            have hle := hw.prefixLen_le
            rw [hL] at hle
            rw [List.length_append, hlen0, hvalue, List.length_drop, hL, Nat.add_sub_cancel' hle] }

end RadixPrefixCache

theorem climb_of_notMem {u : Nat} : ∀ {es : List EvictedNode},
    u ∉ es.map (fun e => e.node.uuid) → climb es u = ([], some u)
  | [], _ => rfl
  | e :: es, h => by
      rw [List.map_cons, List.mem_cons, not_or] at h
      rw [climb, if_neg (Ne.symm h.1), climb_of_notMem h.2]

namespace RadixNodes

variable {c c' : RadixNodes} {m : PrefixMap Token Slot}

/-- The tree is in shape, and the evicted nodes are other nodes than those of the tree. -/
structure Apart (c : RadixNodes) : Prop where
  shape : c.cache.Shape
  lt_counter : ∀ e ∈ c.evicted, e.node.uuid < c.cache.counter
  notMem : ∀ e ∈ c.evicted, e.node.uuid ∉ c.cache.tree.uuids

theorem Apart.grow {cache : RadixPrefixCache} (h : c.Apart) (hshape : cache.Shape)
    (hgrows : RadixPrefixCache.Grows c.cache cache) : Apart { c with cache := cache } where
  shape := hshape
  lt_counter := fun e he => lt_of_lt_of_le (h.lt_counter e he) hgrows.counter_le
  notMem := by
    intro e he hmem
    rcases hgrows.new _ hmem with hold | hnew
    · exact h.notMem e he hold
    · exact absurd (h.lt_counter e he) (Nat.not_lt_of_le hnew)

/-- A handle into the tree reads its slots there. -/
theorem Apart.getMatchedIndices_eq (h : c.Apart) {hd : RadixCacheHandle} {toks : List Token}
    {slots : List Slot} (hmem : ∀ u, hd.node = some u → u ∈ c.cache.tree.uuids)
    (hspan : c.cache.handleSpan hd = some (toks, slots)) : c.getMatchedIndices hd = slots := by
  have hup : c.ancestors hd = ([], hd.node) := by
    cases hnode : hd.node with
    | none => simp only [ancestors, hnode]
    | some u =>
        simp only [ancestors, hnode]
        apply climb_of_notMem
        intro hu
        obtain ⟨e, he, rfl⟩ := List.mem_map.mp hu
        exact h.notMem e he (hmem _ hnode)
  rw [getMatchedIndices, landed, hup]
  rw [RadixPrefixCache.getMatchedIndices_eq hspan]
  simp

/-- The node with its reference count zero. -/
def bareNode (e : EvictedNode) : EvictedNode := { e with node := { e.node with refCount := 0 } }

/-- Only reference counts and the size counters change. -/
structure Relocks (c c' : RadixNodes) : Prop where
  pageSize_eq : c'.cache.pageSize = c.cache.pageSize
  counter_eq : c'.cache.counter = c.cache.counter
  clock_eq : c'.cache.clock = c.cache.clock
  bare_eq : c'.cache.tree.bare = c.cache.tree.bare
  evicted_eq : c'.evicted.map bareNode = c.evicted.map bareNode

theorem bare_recount (f : Nat → Nat) (on es : List EvictedNode) :
    (recount f on es).map bareNode = es.map bareNode := by
  rw [recount, List.map_map]
  apply List.map_congr_left
  intro e _
  dsimp only [Function.comp_apply]
  split
  · rfl
  · rfl

theorem relocks_lock (c : RadixNodes) (hd : RadixCacheHandle) : Relocks c (c.lock hd) := by
  have hcache : ∀ h, (c.cache.lock h).pageSize = c.cache.pageSize ∧
      (c.cache.lock h).counter = c.cache.counter ∧ (c.cache.lock h).clock = c.cache.clock ∧
      (c.cache.lock h).tree.bare = c.cache.tree.bare := by
    intro h
    unfold RadixPrefixCache.lock
    split
    · exact ⟨rfl, rfl, rfl, rfl⟩
    · exact ⟨rfl, rfl, rfl, Forest.mapPath_bare _⟩
  obtain ⟨hps, hcounter, hclock, hbare⟩ := hcache (c.landed hd)
  exact
    { pageSize_eq := hps
      counter_eq := hcounter
      clock_eq := hclock
      bare_eq := hbare
      evicted_eq := bare_recount _ _ _ }

theorem relocks_unlock {hd : RadixCacheHandle} (h : c.unlock hd = some c') : Relocks c c' := by
  have hcache : ∀ h' cache, c.cache.unlock h' = some cache →
      cache.pageSize = c.cache.pageSize ∧ cache.counter = c.cache.counter ∧
        cache.clock = c.cache.clock ∧ cache.tree.bare = c.cache.tree.bare := by
    intro h' cache hunlock
    unfold RadixPrefixCache.unlock at hunlock
    split at hunlock
    · cases hunlock
      exact ⟨rfl, rfl, rfl, rfl⟩
    · split at hunlock
      · cases hunlock
      · cases hunlock
        exact ⟨rfl, rfl, rfl, Forest.mapPath_bare _⟩
  rw [unlock] at h
  split at h
  · cases h
  · rw [Option.map_eq_some_iff] at h
    obtain ⟨cache, hunlock, rfl⟩ := h
    obtain ⟨hps, hcounter, hclock, hbare⟩ := hcache _ _ hunlock
    exact
      { pageSize_eq := hps
        counter_eq := hcounter
        clock_eq := hclock
        bare_eq := hbare
        evicted_eq := bare_recount (· - 1) (c.ancestors hd).1 c.evicted }

namespace Relocks

theorem uuids_eq (h : Relocks c c') : c'.cache.tree.uuids = c.cache.tree.uuids := by
  rw [← Forest.uuids_bare, h.bare_eq, Forest.uuids_bare]

theorem span_eq (h : Relocks c c') (u : Nat) : c'.cache.tree.span u = c.cache.tree.span u := by
  rw [← Forest.span_bare, h.bare_eq, Forest.span_bare]

theorem represents (h : Relocks c c') (hm : c.cache.tree.Represents c.cache.pageSize m) :
    c'.cache.tree.Represents c'.cache.pageSize m := by
  intro q s
  rw [hm q s, h.pageSize_eq]
  simp only [Forest.Stored, h.span_eq]

theorem apart (h : Relocks c c') (ha : c.Apart) : c'.Apart := by
  have huuid : ∀ e ∈ c'.evicted, ∃ e0 ∈ c.evicted, e0.node.uuid = e.node.uuid := by
    intro e he
    have hmem : bareNode e ∈ c.evicted.map bareNode := by
      rw [← h.evicted_eq]
      exact List.mem_map.mpr ⟨e, he, rfl⟩
    obtain ⟨e0, he0, heq⟩ := List.mem_map.mp hmem
    have huuid := congrArg (fun x : EvictedNode => x.node.uuid) heq
    exact ⟨e0, he0, huuid⟩
  exact
    { shape :=
        { pageSize_pos := h.pageSize_eq ▸ ha.shape.pageSize_pos
          valid := by
            rw [h.pageSize_eq, ← Forest.valid_bare, h.bare_eq, Forest.valid_bare]
            exact ha.shape.valid
          nodup := h.uuids_eq ▸ ha.shape.nodup
          fresh := by
            rw [h.uuids_eq, h.counter_eq]
            exact ha.shape.fresh }
      lt_counter := by
        intro e he
        obtain ⟨e0, he0, heq⟩ := huuid e he
        rw [← heq, h.counter_eq]
        exact ha.lt_counter e0 he0
      notMem := by
        intro e he
        obtain ⟨e0, he0, heq⟩ := huuid e he
        rw [← heq, h.uuids_eq]
        exact ha.notMem e0 he0 }

end Relocks

/-- What a call does to the map, and what it returns. -/
inductive Answers (ps : Nat) :
    PrefixMap Token Slot → Call → Reply → PrefixMap Token Slot → Prop where
  | matchPrefix {m : PrefixMap Token Slot} {ids : List Token} {k : Nat} {hd : RadixCacheHandle}
      (hlong : m.Longest ps ids k) (hlen : hd.cachedLen = k) :
      Answers ps m (.matchPrefix ids)
        (.result { cachedLen := k, handle := hd } (m.valuesOf (ids.take k))) m
  | insertPrefix {m : PrefixMap Token Slot} {ids : List Token} {slots : List Slot} {k : Nat}
      {hd : RadixCacheHandle}
      (hlong : m.Longest ps (ids.take (alignDownNat ids.length ps)) k)
      (hlen : hd.cachedLen = alignDownNat ids.length ps) :
      Answers ps m (.insertPrefix ids slots)
        (.result { cachedLen := k, handle := hd }
          ((m.store ps (ids.take (alignDownNat ids.length ps)) slots k).valuesOf
            (ids.take (alignDownNat ids.length ps))))
        (m.store ps (ids.take (alignDownNat ids.length ps)) slots k)
  | lockHandle (m : PrefixMap Token Slot) (hd : RadixCacheHandle) (unlock : Bool) :
      Answers ps m (.lockHandle hd unlock) .unit m
  | evict {m m' : PrefixMap Token Slot} {indices : List Slot} (size : Nat)
      (hevicts : m.Evicts indices m') : Answers ps m (.evict size) (.evicted indices) m'

/-- The calls, one after the other. -/
inductive AnswersAll (ps : Nat) :
    PrefixMap Token Slot → List Call → List Reply → PrefixMap Token Slot → Prop where
  | nil (m : PrefixMap Token Slot) : AnswersAll ps m [] [] m
  | cons {m m' m'' : PrefixMap Token Slot} {a : Call} {as : List Call} {r : Reply}
      {rs : List Reply} (hcall : Answers ps m a r m') (hrest : AnswersAll ps m' as rs m'') :
      AnswersAll ps m (a :: as) (r :: rs) m''

theorem answers_call {a : Call} {r : Reply} (ha : c.Apart)
    (hm : c.cache.tree.Represents c.cache.pageSize m) (h : c.call a = some (r, c')) :
    ∃ m', Answers c.cache.pageSize m a r m' ∧ c'.Apart ∧
      c'.cache.pageSize = c.cache.pageSize ∧ c'.cache.tree.Represents c'.cache.pageSize m' := by
  cases a with
  | matchPrefix ids =>
      cases h
      have hw := ha.shape.walked ids
      obtain ⟨hm1, hlong⟩ := hw.represents ha.shape hm
      obtain ⟨slots, hspan, hlen⟩ := hw.span_eq
      have happart := ha.grow hw.shape hw.grows
      have hindices := happart.getMatchedIndices_eq hw.node_mem hspan
      have htake : (ids.take (c.cache.treeWalk ids).1.prefixLen).length =
          (c.cache.treeWalk ids).1.prefixLen := by
        rw [List.length_take, Nat.min_eq_left hw.prefixLen_le]
      have hvalues := RadixPrefixCache.valuesOf_handle hm1 hspan
        (by rw [hw.keeps.pageSize_eq, htake]; exact hw.dvd_prefixLen) (hlen.trans htake.symm)
      refine ⟨m, ?_, happart, hw.keeps.pageSize_eq, hm1⟩
      have hanswer : Answers c.cache.pageSize m (.matchPrefix ids)
          (.result (c.cache.matchPrefix ids).1
            (m.valuesOf (ids.take (c.cache.treeWalk ids).1.prefixLen))) m :=
        Answers.matchPrefix hlong rfl
      rw [hvalues, ← hindices] at hanswer
      exact hanswer
  | insertPrefix ids slots =>
      rw [call, Option.map_eq_some_iff] at h
      obtain ⟨⟨res, c1⟩, hinsert, heq⟩ := h
      cases heq
      rw [RadixNodes.insertPrefix, Option.map_eq_some_iff] at hinsert
      obtain ⟨⟨res', cache⟩, hinsert, heq⟩ := hinsert
      cases heq
      have hi := ha.shape.inserts hm hinsert
      obtain ⟨out, hspan, hout⟩ := hi.span_eq
      have hinserting := ha.shape.inserting hinsert
      have happart := ha.grow hi.shape hinserting.grows
      have hindices := happart.getMatchedIndices_eq hinserting.node_mem hspan
      have hL : (ids.take (alignDownNat ids.length c.cache.pageSize)).length =
          alignDownNat ids.length c.cache.pageSize := by
        rw [List.length_take, Nat.min_eq_left (alignDownNat_le _ _)]
      have hvalues := RadixPrefixCache.valuesOf_handle hi.represents hspan
        (by rw [hi.pageSize_eq, hL]; exact dvd_alignDownNat _ _) (hout.trans hL.symm)
      refine ⟨_, ?_, happart, hi.pageSize_eq, hi.represents⟩
      have hanswer : Answers c.cache.pageSize m (.insertPrefix ids slots) (.result res' _) _ :=
        Answers.insertPrefix hi.longest hi.cachedLen_eq
      rw [hvalues, ← hindices] at hanswer
      exact hanswer
  | lockHandle hd unlock =>
      cases unlock with
      | false =>
          cases h
          have hre := relocks_lock c hd
          exact ⟨m, Answers.lockHandle m hd false, hre.apart ha, hre.pageSize_eq, hre.represents hm⟩
      | true =>
          rw [call, Option.map_eq_some_iff] at h
          obtain ⟨c1, hunlock, heq⟩ := h
          cases heq
          have hre := relocks_unlock hunlock
          exact ⟨m, Answers.lockHandle m hd true, hre.apart ha, hre.pageSize_eq, hre.represents hm⟩
  | evict size =>
      rw [call, Option.map_eq_some_iff] at h
      obtain ⟨⟨indices, c1⟩, hevict, heq⟩ := h
      cases heq
      rw [RadixNodes.evict, Option.map_eq_some_iff] at hevict
      obtain ⟨⟨indices', cache⟩, hevict, heq⟩ := hevict
      cases heq
      obtain ⟨hpops, hindices, -, hcache⟩ := RadixPrefixCache.evict_pops hevict
      obtain ⟨m', hevicts, hrep⟩ := Forest.Represents.pops hpops hm ha.shape.valid ha.shape.nodup
      obtain ⟨hvalid, hperm⟩ := hpops.shape ha.shape.valid ha.shape.nodup
      have hps : cache.pageSize = c.cache.pageSize := by rw [hcache]
      have hcounter : cache.counter = c.cache.counter := by rw [hcache]
      obtain ⟨-, hnodup, hdisj⟩ := List.nodup_append'.mp (hperm.nodup_iff.mp ha.shape.nodup)
      have hold : ∀ u ∈ cache.tree.uuids, u ∈ c.cache.tree.uuids := fun u hu =>
        hperm.mem_iff.mpr (List.mem_append_right _ hu)
      have hgone : ∀ e ∈ Forest.evictedNodes size c.cache.tree.count c.cache.tree 0,
          e.node.uuid ∈ c.cache.tree.uuids ∧ e.node.uuid ∉ cache.tree.uuids := by
        intro e he
        have hmem : e.node.uuid ∈ (Forest.evictedNodes size c.cache.tree.count c.cache.tree 0).map
            fun e => e.node.uuid := List.mem_map.mpr ⟨e, he, rfl⟩
        exact ⟨hperm.mem_iff.mpr (List.mem_append_left _ hmem), fun hu => hdisj hmem hu⟩
      refine ⟨m', Answers.evict size (hindices ▸ hevicts), ?_, hps, hps ▸ hrep⟩
      exact
        { shape :=
            { pageSize_pos := hps ▸ ha.shape.pageSize_pos
              valid := hps ▸ hvalid
              nodup := hnodup
              fresh := fun u hu => hcounter ▸ ha.shape.fresh u (hold u hu) }
          lt_counter := by
            intro e he
            dsimp only
            rw [hcounter]
            rcases List.mem_append.mp he with he | he
            · exact ha.lt_counter e he
            · exact ha.shape.fresh _ (hgone e he).1
          notMem := by
            intro e he
            rcases List.mem_append.mp he with he | he
            · exact fun hu => ha.notMem e he (hold _ hu)
            · exact (hgone e he).2 }

/-- Every run of calls that return answers as a map of prefixes does. -/
theorem calls_answers : ∀ {as : List Call} {rs : List Reply} {c c' : RadixNodes}
    {m : PrefixMap Token Slot}, c.Apart → c.cache.tree.Represents c.cache.pageSize m →
    c.calls as = some (rs, c') →
      ∃ m', AnswersAll c.cache.pageSize m as rs m' ∧ c'.Apart ∧
        c'.cache.tree.Represents c.cache.pageSize m'
  | [], rs, c, c', m, ha, hm, h => by
      cases h
      exact ⟨m, AnswersAll.nil m, ha, hm⟩
  | a :: as, rs, c, c', m, ha, hm, h => by
      rw [calls] at h
      cases hcall : c.call a with
      | none =>
          rw [hcall] at h
          cases h
      | some x =>
          obtain ⟨r, c1⟩ := x
          rw [hcall] at h
          simp only [Option.map_eq_some_iff] at h
          obtain ⟨⟨rs', c2⟩, hrest, heq⟩ := h
          cases heq
          obtain ⟨m1, hanswer, ha1, hps, hm1⟩ := answers_call ha hm hcall
          obtain ⟨m2, hall, ha2, hm2⟩ := calls_answers ha1 hm1 hrest
          rw [hps] at hall hm2
          exact ⟨m2, AnswersAll.cons hanswer hall, ha2, hm2⟩

theorem apart_init {ps : Nat} (hps : 0 < ps) : (init ps).Apart where
  shape :=
    { pageSize_pos := hps
      valid := trivial
      nodup := List.nodup_nil
      fresh := fun _ hu => absurd hu List.not_mem_nil }
  lt_counter := fun _ he => absurd he List.not_mem_nil
  notMem := fun _ he => absurd he List.not_mem_nil

theorem represents_init (ps : Nat) :
    Forest.Represents ps (init ps).cache.tree PrefixMap.empty := by
  intro q s
  refine iff_of_false (fun h => by cases h) ?_
  rintro ⟨-, -, u, toks, slots, hspan, -⟩
  cases hspan

/-- The cache is a map of prefixes in whole pages, over any sequence of calls. -/
theorem radix_answers {ps : Nat} (hps : 0 < ps) {as : List Call} {rs : List Reply}
    (h : (init ps).calls as = some (rs, c)) : ∃ m, AnswersAll ps PrefixMap.empty as rs m ∧
      c.cache.tree.Represents ps m := by
  obtain ⟨m, hall, -, hm⟩ := calls_answers (apart_init hps) (represents_init ps) h
  exact ⟨m, hall, hm⟩

/-- A read splits a node, its lower half is evicted and inserted again. -/
def splitCalls : List Call :=
  [.insertPrefix [1, 2, 3, 4, 5] [10, 11, 12, 13], .matchPrefix [1, 2, 7, 8],
    .lockHandle { cachedLen := 2, node := some 1 } false, .evict 2,
    .insertPrefix [1, 2, 3, 4] [20, 21, 22, 23], .matchPrefix [1, 2, 3, 4]]

def splitReplies : List Reply :=
  [.result { cachedLen := 0, handle := { cachedLen := 4, node := some 0 } } [10, 11, 12, 13],
    .result { cachedLen := 2, handle := { cachedLen := 2, node := some 1 } } [10, 11],
    .unit, .evicted [12, 13],
    .result { cachedLen := 2, handle := { cachedLen := 4, node := some 2 } } [10, 11, 22, 23],
    .result { cachedLen := 4, handle := { cachedLen := 4, node := some 2 } } [10, 11, 22, 23]]

theorem splitCalls_answers : ∃ m, AnswersAll 2 PrefixMap.empty splitCalls splitReplies m := by
  have hrun : (((init 2).calls splitCalls).map fun x => x.1) = some splitReplies := by
    decide +kernel
  obtain ⟨⟨rs, c⟩, hcalls, heq⟩ := Option.map_eq_some_iff.mp hrun
  obtain ⟨m, hall, -⟩ := radix_answers (by decide) hcalls
  exact ⟨m, heq ▸ hall⟩

end RadixNodes

end FreeToken
