import FreeToken.KVCache.RadixMap

/-!
# When a node was last touched

A walk touches the nodes whose spans begin its input. `Stamped` relates the timestamps to the
walks: a node's timestamp tells the last walk that touched it, and so the heap of `evict` pops
the leaf that was touched least recently.
-/

namespace FreeToken

namespace Forest

variable {ps : Nat}

/-- The spans of the nodes, with their timestamps. -/
@[grind =]
def stamps : Forest → List (List Token × Nat)
  | nil => []
  | node d cs rest => (d.key, d.timestamp) :: (below d.key cs.stamps ++ rest.stamps)

theorem mem_stamps {d : RadixTreeNode} {cs rest : Forest} {x : List Token × Nat} :
    x ∈ (node d cs rest).stamps ↔ x = (d.key, d.timestamp) ∨
      (∃ q, (q, x.2) ∈ cs.stamps ∧ x.1 = d.key ++ q) ∨ x ∈ rest.stamps := by
  rw [stamps, List.mem_cons, List.mem_append, ← mem_below]

/-- A span is a page at least, and starts with the page of a top node. -/
theorem page_of_stamps : ∀ {f : Forest} {x : List Token × Nat}, f.Valid ps → x ∈ f.stamps →
    ps ≤ x.1.length ∧ x.1 ≠ [] ∧ keyFn ps x.1 ∈ f.firstPages ps
  | node d cs rest, x, hv, h => by
      have hlen := pageSize_le_key hv
      rw [firstPages]
      rcases mem_stamps.mp h with rfl | ⟨q, -, hq⟩ | h
      · exact ⟨hlen, hv.1.1, List.mem_cons_self⟩
      · rw [hq, keyFn_append hlen, List.length_append]
        exact ⟨hlen.trans (Nat.le_add_right _ _),
          fun hnil => hv.1.1 (List.append_eq_nil_iff.mp hnil).1, List.mem_cons_self⟩
      · obtain ⟨hle, hne, hmem⟩ := page_of_stamps hv.2.2 h
        exact ⟨hle, hne, List.mem_cons_of_mem _ hmem⟩

theorem keyFn_eq_of_isPrefix {q input : List Token} (hle : ps ≤ q.length) (h : q <+: input) :
    keyFn ps q = keyFn ps input := by
  obtain ⟨t, rfl⟩ := h
  exact (keyFn_append hle t).symm

/-- A walk touches the nodes whose spans begin the input, and no others. -/
theorem treeWalk_stamps {tic counter : Nat} : ∀ {f : Forest} {at' : Option Nat}
    {input : List Token} {x : List Token × Nat}, f.Valid ps →
    x ∈ (treeWalk ps tic counter f at' input).tree.stamps →
      (x.1 <+: input ∧ x.2 = tic) ∨ (¬ x.1 <+: input ∧ x ∈ f.stamps)
  | nil, _, _, _, _, h => absurd h List.not_mem_nil
  | node d cs rest, at', input, x, hv, h => by
      have hlen := pageSize_le_key hv
      -- what stands beside the node that the walk takes is not touched
      have hrest : ∀ {y : List Token × Nat}, keyFn ps d.key = keyFn ps input → y ∈ rest.stamps →
          ¬ y.1 <+: input := by
        intro y hpage hy hpre
        obtain ⟨hle, -, hmem⟩ := page_of_stamps hv.2.2 hy
        rw [keyFn_eq_of_isPrefix hle hpre, ← hpage] at hmem
        exact hv.1.2.2.2 hmem
      rw [treeWalk] at h
      split at h
      · next hnil =>
          subst hnil
          exact Or.inr ⟨fun hpre => (page_of_stamps hv h).2.1 (List.prefix_nil.mp hpre), h⟩
      · split at h
        · next hpage =>
            have htake := take_matchLen ps d.key input
            have hfull : d.key <+: input →
                alignDownNat (fastCompareKey d.key input) ps = d.key.length := by
              intro hpre
              apply Nat.le_antisymm (matchLen_le_key ps d.key input)
              exact le_alignDownNat hv.1.2.1 (le_fastCompareKey _ _ _ (List.prefix_refl _) hpre)
            generalize alignDownNat (fastCompareKey d.key input) ps = n at h htake hfull
            dsimp only at h
            split at h
            · next hne =>
                have hnot : ∀ {q : List Token}, ¬ d.key ++ q <+: input := fun hpre =>
                  hne (hfull ((List.prefix_append _ _).trans hpre))
                rcases mem_stamps.mp h with rfl | ⟨q, hq, hx⟩ | h
                · left
                  refine ⟨?_, rfl⟩
                  dsimp only [RadixTreeNode.upper]
                  rw [htake]
                  exact List.take_prefix n input
                · right
                  have hkey : (d.upper counter n tic).key ++ (d.lower n).key = d.key :=
                    List.take_append_drop n d.key
                  rcases mem_stamps.mp hq with heq | ⟨q', hq', hq''⟩ | hq
                  · rw [Prod.mk.injEq] at heq
                    rw [heq.1, hkey] at hx
                    refine ⟨fun hpre => hne (hfull (hx ▸ hpre)), mem_stamps.mpr (Or.inl ?_)⟩
                    exact Prod.ext hx heq.2
                  · dsimp only at hq''
                    rw [hq'', ← List.append_assoc, hkey] at hx
                    exact ⟨fun hpre => hnot (hx ▸ hpre),
                      mem_stamps.mpr (Or.inr (Or.inl ⟨q', hq', hx⟩))⟩
                  · exact absurd hq List.not_mem_nil
                · exact Or.inr ⟨hrest hpage h, mem_stamps.mpr (Or.inr (Or.inr h))⟩
            · next hall =>
                rw [not_not] at hall
                subst hall
                rw [List.take_length] at htake
                rcases mem_stamps.mp h with rfl | ⟨q, hq, hx⟩ | h
                · left
                  refine ⟨?_, rfl⟩
                  dsimp only
                  rw [htake]
                  exact List.take_prefix _ input
                · have hiff : d.key ++ q <+: input ↔ q <+: input.drop d.key.length := by
                    conv_lhs => rw [← List.take_append_drop d.key.length input, ← htake]
                    exact List.prefix_append_right_inj d.key
                  rw [hx]
                  rcases treeWalk_stamps hv.2.1 hq with ⟨hpre, htic⟩ | ⟨hpre, hold⟩
                  · exact Or.inl ⟨hiff.mpr hpre, htic⟩
                  · exact Or.inr ⟨fun h => hpre (hiff.mp h),
                      mem_stamps.mpr (Or.inr (Or.inl ⟨q, hold, hx⟩))⟩
                · exact Or.inr ⟨hrest hpage h, mem_stamps.mpr (Or.inr (Or.inr h))⟩
        · next hpage =>
            have hnot : ∀ {q : List Token}, ¬ d.key ++ q <+: input := by
              intro q hpre
              apply hpage
              rw [← keyFn_append hlen q]
              exact keyFn_eq_of_isPrefix (hlen.trans (by simp)) hpre
            rcases mem_stamps.mp h with rfl | ⟨q, hq, hx⟩ | h
            · refine Or.inr ⟨fun hpre => ?_, mem_stamps.mpr (Or.inl rfl)⟩
              have hself : d.key ++ [] <+: input := by
                rw [List.append_nil]
                exact hpre
              exact hnot hself
            · exact Or.inr ⟨fun hpre => hnot (hx ▸ hpre),
                mem_stamps.mpr (Or.inr (Or.inl ⟨q, hq, hx⟩))⟩
            · exact (treeWalk_stamps hv.2.2 h).imp_right
                fun hold => ⟨hold.1, mem_stamps.mpr (Or.inr (Or.inr hold.2))⟩

theorem stamps_bare : ∀ f : Forest, f.bare.stamps = f.stamps
  | nil => rfl
  | node d cs rest => by simp only [bare, stamps, stamps_bare cs, stamps_bare rest]

theorem stamps_snoc {new : RadixTreeNode} {x : List Token × Nat} : ∀ {f : Forest},
    x ∈ (f.snoc new).stamps → x ∈ f.stamps ∨ x = (new.key, new.timestamp)
  | nil, h => by
      rcases mem_stamps.mp h with h | ⟨q, hq, -⟩ | h
      · exact Or.inr h
      · exact absurd hq List.not_mem_nil
      · exact absurd h List.not_mem_nil
  | node d cs rest, h => by
      rcases mem_stamps.mp h with h | h | h
      · exact Or.inl (mem_stamps.mpr (Or.inl h))
      · exact Or.inl (mem_stamps.mpr (Or.inr (Or.inl h)))
      · exact (stamps_snoc h).imp_left fun h => mem_stamps.mpr (Or.inr (Or.inr h))

theorem stamps_attach {u : Nat} {new : RadixTreeNode} : ∀ {f : Forest} {x : List Token × Nat}
    {toks : List Token} {slots : List Slot}, f.uuids.Nodup → f.span u = some (toks, slots) →
    x ∈ (attach u new f).stamps → x ∈ f.stamps ∨ x = (toks ++ new.key, new.timestamp)
  | node d cs rest, x, toks, slots, hn, hspan, h => by
      obtain ⟨hdn, hn⟩ := List.nodup_cons.mp hn
      obtain ⟨hncs, hnrest, hdisj⟩ := List.nodup_append'.mp hn
      rw [attach] at h
      split at h
      · next hd =>
          subst hd
          rw [span_node_self] at hspan
          cases hspan
          rcases mem_stamps.mp h with h | ⟨q, hq, hx⟩ | h
          · exact Or.inl (mem_stamps.mpr (Or.inl h))
          · rcases stamps_snoc hq with hold | heq
            · exact Or.inl (mem_stamps.mpr (Or.inr (Or.inl ⟨q, hold, hx⟩)))
            · rw [Prod.mk.injEq] at heq
              exact Or.inr (Prod.ext (heq.1 ▸ hx) heq.2)
          · exact Or.inl (mem_stamps.mpr (Or.inr (Or.inr h)))
      · next hd =>
          rw [span_node_of_ne hd] at hspan
          cases hcs : cs.span u with
          | some y =>
              rw [hcs] at hspan
              cases hspan
              have hrest : u ∉ rest.uuids := fun hmem => hdisj (mem_uuids_of_span hcs) hmem
              rw [attach_of_notMem hrest] at h
              rcases mem_stamps.mp h with h | ⟨q, hq, hx⟩ | h
              · exact Or.inl (mem_stamps.mpr (Or.inl h))
              · rcases stamps_attach hncs hcs hq with hold | heq
                · exact Or.inl (mem_stamps.mpr (Or.inr (Or.inl ⟨q, hold, hx⟩)))
                · rw [Prod.mk.injEq] at heq
                  refine Or.inr (Prod.ext ?_ heq.2)
                  rw [hx, heq.1, List.append_assoc]
              · exact Or.inl (mem_stamps.mpr (Or.inr (Or.inr h)))
          | none =>
              rw [hcs] at hspan
              rw [attach_of_notMem (span_eq_none_iff.mp hcs)] at h
              rcases mem_stamps.mp h with h | h | h
              · exact Or.inl (mem_stamps.mpr (Or.inl h))
              · exact Or.inl (mem_stamps.mpr (Or.inr (Or.inl h)))
              · exact (stamps_attach hnrest hspan h).imp_left
                  fun h => mem_stamps.mpr (Or.inr (Or.inr h))

theorem stamps_remove {v : RadixTreeNode} : ∀ {f : Forest} {x : List Token × Nat}, v ∈ f.tips →
    f.uuids.Nodup → x ∈ (f.remove v.uuid).stamps → x ∈ f.stamps
  | node d cs rest, x, hv, hn, h => by
      obtain ⟨hncs, hnrest, -⟩ := List.nodup_append'.mp (List.nodup_cons.mp hn).2
      rcases tips_cases hv hn with ⟨rfl, rfl⟩ | ⟨hcs, hd, hrest⟩ | ⟨hrest, hd, hcs⟩
      · rw [remove, if_pos rfl] at h
        exact mem_stamps.mpr (Or.inr (Or.inr h))
      · rw [remove, if_neg hd, remove_of_notMem hrest] at h
        rcases mem_stamps.mp h with h | ⟨q, hq, hx⟩ | h
        · exact mem_stamps.mpr (Or.inl h)
        · exact mem_stamps.mpr (Or.inr (Or.inl ⟨q, stamps_remove hcs hncs hq, hx⟩))
        · exact mem_stamps.mpr (Or.inr (Or.inr h))
      · rw [remove, if_neg hd, remove_of_notMem hcs] at h
        rcases mem_stamps.mp h with h | h | h
        · exact mem_stamps.mpr (Or.inl h)
        · exact mem_stamps.mpr (Or.inr (Or.inl h))
        · exact mem_stamps.mpr (Or.inr (Or.inr (stamps_remove hrest hnrest h)))

theorem stamps_of_path {u : Nat} : ∀ {f : Forest} {a : List RadixTreeNode} {y : RadixTreeNode},
    f.path u = some (a ++ [y]) → ((a ++ [y]).flatMap (fun d => d.key), y.timestamp) ∈ f.stamps
  | node d cs rest, a, y, h => by
      rcases path_cases h with ⟨-, hds⟩ | ⟨-, e, hcs, hds⟩ | ⟨-, -, hrest⟩
      · cases a with
        | nil =>
            rw [List.nil_append, List.cons.injEq] at hds
            obtain ⟨rfl, -⟩ := hds
            exact mem_stamps.mpr (Or.inl (by simp))
        | cons z a => simp at hds
      · cases a with
        | nil =>
            rw [List.nil_append, List.cons.injEq] at hds
            exact absurd (hds.2 ▸ hcs) fun hnil => path_ne_nil hnil rfl
        | cons z a =>
            rw [List.cons_append, List.cons.injEq] at hds
            obtain ⟨rfl, rfl⟩ := hds
            exact mem_stamps.mpr (Or.inr (Or.inl ⟨_, stamps_of_path hcs, List.flatMap_cons⟩))
      · exact mem_stamps.mpr (Or.inr (Or.inr (stamps_of_path hrest)))

end Forest

/-! ### The walks so far -/

/-- The time of the last walk whose input starts with `toks`. -/
def touched (log : List (Nat × List Token)) (toks : List Token) : Option Nat :=
  (log.find? fun x => decide (toks <+: x.2)).map Prod.fst

/-- A timestamp tells the last walk that touched the node; no walk came in between. -/
structure StampOf (log : List (Nat × List Token)) (clock : Nat) (x : List Token × Nat) (tic : Nat) :
    Prop where
  touched_eq : touched log x.1 = some tic
  tic_le : tic ≤ x.2
  lt_clock : x.2 < clock
  between : ∀ y ∈ log, y.1 ≤ tic ∨ x.2 < y.1

/-- The timestamps are those of the walks in the log, newest first. -/
structure Stamped (log : List (Nat × List Token)) (clock : Nat) (f : Forest) : Prop where
  log_lt : ∀ y ∈ log, y.1 < clock
  stamp : ∀ x ∈ f.stamps, ∃ tic, StampOf log clock x tic

theorem touched_mem {log : List (Nat × List Token)} {toks : List Token} {tic : Nat}
    (h : touched log toks = some tic) : ∃ y ∈ log, y.1 = tic := by
  rw [touched, Option.map_eq_some_iff] at h
  obtain ⟨y, hy, rfl⟩ := h
  exact ⟨y, List.mem_of_find?_eq_some hy, rfl⟩

/-- An older timestamp is of an earlier walk. -/
theorem StampOf.tic_le_of_le {log : List (Nat × List Token)} {clock : Nat}
    {x y : List Token × Nat} {a b : Nat} (hx : StampOf log clock x a) (hy : StampOf log clock y b)
    (hle : x.2 ≤ y.2) : a ≤ b := by
  obtain ⟨w, hw, rfl⟩ := touched_mem hx.touched_eq
  rcases hy.between w hw with h | h
  · exact h
  · exact absurd (hx.tic_le.trans hle) (Nat.not_le_of_lt h)

section Steps

variable {log : List (Nat × List Token)} {f f' : Forest} {clock : Nat}

theorem Stamped.sub (h : Stamped log clock f) (hsub : ∀ x ∈ f'.stamps, x ∈ f.stamps) :
    Stamped log clock f' where
  log_lt := h.log_lt
  stamp := fun x hx => h.stamp x (hsub x hx)

/-- A walk is entered into the log; what it touched carries a time from `clock` on. -/
theorem Stamped.walk (h : Stamped log clock f) {ids : List Token} {clock' : Nat}
    (hclock : clock < clock') (hnew : ∀ x ∈ f'.stamps,
      (x.1 <+: ids ∧ clock ≤ x.2 ∧ x.2 < clock') ∨ (¬ x.1 <+: ids ∧ x ∈ f.stamps)) :
    Stamped ((clock, ids) :: log) clock' f' where
  log_lt := by
    intro y hy
    rcases List.mem_cons.mp hy with rfl | hy
    · exact hclock
    · exact (h.log_lt y hy).trans hclock
  stamp := by
    intro x hx
    rcases hnew x hx with ⟨hpre, hle, hlt⟩ | ⟨hpre, hold⟩
    · refine ⟨clock, ?_, hle, hlt, ?_⟩
      · simp [touched, hpre]
      · intro y hy
        rcases List.mem_cons.mp hy with rfl | hy
        · exact Or.inl (Nat.le_refl _)
        · exact Or.inl (h.log_lt y hy).le
    · obtain ⟨tic, hs⟩ := h.stamp x hold
      refine ⟨tic, ?_, hs.tic_le, hs.lt_clock.trans hclock, ?_⟩
      · simpa [touched, hpre] using hs.touched_eq
      · intro y hy
        rcases List.mem_cons.mp hy with rfl | hy
        · exact Or.inr hs.lt_clock
        · exact hs.between y hy

end Steps

namespace RadixPrefixCache

variable {c c' : RadixPrefixCache} {log : List (Nat × List Token)}

theorem Shape.stamped_matchPrefix (hc : c.Shape) (h : Stamped log c.clock c.tree)
    (ids : List Token) :
    Stamped ((c.clock, ids) :: log) (c.matchPrefix ids).2.clock (c.matchPrefix ids).2.tree := by
  refine h.walk (Nat.lt_succ_self _) fun x hx => ?_
  rcases Forest.treeWalk_stamps hc.valid hx with ⟨hpre, htic⟩ | hold
  · exact Or.inl ⟨hpre, Nat.le_of_eq htic.symm, htic ▸ Nat.lt_succ_self _⟩
  · exact Or.inr hold

/-- The leaf of an insertion is a node the insertion touches. -/
theorem Shape.stamped_insertPrefix (hc : c.Shape) (h : Stamped log c.clock c.tree)
    {ids : List Token} {slots : List Slot} {res : MatchResult}
    (hinsert : c.insertPrefix ids slots = some (res, c')) :
    Stamped ((c.clock, ids.take (alignDownNat ids.length c.pageSize)) :: log) c'.clock c'.tree := by
  obtain ⟨w, c1, hwalk, -, -, hcase⟩ := insertPrefix_cases hinsert
  have hmatch := hc.stamped_matchPrefix h (ids.take (alignDownNat ids.length c.pageSize))
  have hw := hc.walked (ids.take (alignDownNat ids.length c.pageSize))
  have hcache : (c.matchPrefix (ids.take (alignDownNat ids.length c.pageSize))).2 = c1 :=
    congrArg Prod.snd hwalk
  rw [hcache] at hmatch
  rw [hwalk] at hw
  rcases hcase with ⟨-, rfl, -⟩ | ⟨-, -, -, rfl⟩
  · exact hmatch
  · have hclock : c1.clock = c.clock + 1 := by
      rw [← hcache]
      rfl
    refine h.walk (by dsimp only; omega) fun x hx => ?_
    have hcases : x ∈ c1.tree.stamps ∨
        x = (ids.take (alignDownNat ids.length c.pageSize), c1.clock) := by
      have hkey : (ids.take (alignDownNat ids.length c.pageSize)).take w.prefixLen ++
          (c1.newLeaf ids slots w.prefixLen c.pageSize).key =
            ids.take (alignDownNat ids.length c.pageSize) := List.take_append_drop _ _
      obtain ⟨slots0, hspan, -⟩ := hw.span_eq
      dsimp only [setParent] at hx
      cases hnode : w.node with
      | none =>
          rw [hnode] at hx
          rw [handleSpan, hnode] at hspan
          dsimp only at hspan
          rw [Option.some.injEq, Prod.mk.injEq] at hspan
          rw [← hspan.1, List.nil_append] at hkey
          rw [← hkey]
          exact Forest.stamps_snoc hx
      | some u =>
          rw [hnode] at hx
          rw [handleSpan, hnode] at hspan
          dsimp only at hspan
          have hattach := Forest.stamps_attach hw.shape.nodup hspan hx
          rw [hkey] at hattach
          exact hattach
    rcases hcases with hold | rfl
    · have htree : c1.tree = (c.tree.treeWalk c.pageSize c.clock c.counter none
          (ids.take (alignDownNat ids.length c.pageSize))).tree := by
        rw [← hcache]
        rfl
      rw [htree] at hold
      rcases Forest.treeWalk_stamps hc.valid hold with ⟨hpre, htic⟩ | hold
      · exact Or.inl ⟨hpre, by omega, by dsimp only; omega⟩
      · exact Or.inr hold
    · exact Or.inl ⟨List.prefix_refl _, by dsimp only; omega, by dsimp only; omega⟩

end RadixPrefixCache

/-! ### The oldest leaf first -/

/-- When the node was touched last. -/
def Forest.lastTouch (f : Forest) (log : List (Nat × List Token)) (u : Nat) : Option Nat :=
  (f.span u).bind fun x => touched log x.1

/-- One unlocked leaf after the other leaves the tree, each touched least recently among the
unlocked leaves of its moment. -/
inductive EvictsOldest (log : List (Nat × List Token)) :
    Forest → List EvictedNode → Forest → Prop where
  | done (f : Forest) : EvictsOldest log f [] f
  | pop {f f' : Forest} {x : RadixTreeNode} {es : List EvictedNode} {tic : Nat}
      (hleaf : x ∈ f.leaves) (htouch : f.lastTouch log x.uuid = some tic)
      (holdest : ∀ y ∈ f.leaves, ∃ tic', f.lastTouch log y.uuid = some tic' ∧ tic ≤ tic')
      (rest : EvictsOldest log (f.remove x.uuid) es f') :
      EvictsOldest log f ({ node := x, parent := f.parent x.uuid } :: es) f'

theorem heapMin_le : ∀ {ds : List RadixTreeNode} {x y : RadixTreeNode}, heapMin ds = some x →
    y ∈ ds → x.timestamp ≤ y.timestamp
  | d :: ds, x, y, h, hy => by
      rw [heapMin] at h
      cases hmin : heapMin ds with
      | none =>
          rw [hmin] at h
          cases h
          rcases List.mem_cons.mp hy with rfl | hy
          · exact Nat.le_refl _
          · obtain ⟨z, hz⟩ := exists_heapMin (List.ne_nil_of_mem hy)
            rw [hz] at hmin
            cases hmin
      | some e =>
          rw [hmin] at h
          have hle : ∀ z ∈ ds, e.timestamp ≤ z.timestamp := fun z hz => heapMin_le hmin hz
          dsimp only at h
          split at h
          · next hlt =>
              cases h
              rcases List.mem_cons.mp hy with rfl | hy
              · exact hlt.le
              · exact hle y hy
          · next hge =>
              cases h
              rcases List.mem_cons.mp hy with rfl | hy
              · exact Nat.le_refl _
              · exact (Nat.le_of_not_lt hge).trans (hle y hy)

/-- A leaf's timestamp is among the timestamps. -/
theorem Forest.stamp_of_tips {f : Forest} {x : RadixTreeNode} (hx : x ∈ f.tips)
    (hn : f.uuids.Nodup) :
    ∃ toks slots, f.span x.uuid = some (toks, slots) ∧ (toks, x.timestamp) ∈ f.stamps := by
  obtain ⟨a, ha⟩ := path_tip hx hn
  refine ⟨_, (a ++ [x]).flatMap fun d => d.value, ?_, stamps_of_path ha⟩
  rw [span, ha]
  rfl

theorem Stamped.lastTouch {log : List (Nat × List Token)} {clock : Nat} {f : Forest}
    (h : Stamped log clock f) (hn : f.uuids.Nodup) {x : RadixTreeNode} (hx : x ∈ f.leaves) :
    ∃ tic toks, f.lastTouch log x.uuid = some tic ∧ StampOf log clock (toks, x.timestamp) tic := by
  obtain ⟨toks, slots, hspan, hmem⟩ := Forest.stamp_of_tips (Forest.mem_tips_of_leaves hx) hn
  obtain ⟨tic, hs⟩ := h.stamp _ hmem
  refine ⟨tic, toks, ?_, hs⟩
  rw [Forest.lastTouch, hspan]
  exact hs.touched_eq

/-- The heap pops the leaf that was touched least recently. -/
theorem Pops.evictsOldest {ps clock : Nat} {log : List (Nat × List Token)} {f f' : Forest}
    {es : List EvictedNode} (h : Pops f es f') (hv : f.Valid ps) (hn : f.uuids.Nodup)
    (hs : Stamped log clock f) : EvictsOldest log f es f' ∧ Stamped log clock f' := by
  induction h with
  | done f => exact ⟨EvictsOldest.done f, hs⟩
  | pop hmin rest ih =>
      have hleaf := heapMin_mem hmin
      have htip := Forest.mem_tips_of_leaves hleaf
      obtain ⟨tic, toks, htouch, hstamp⟩ := hs.lastTouch hn hleaf
      obtain ⟨hrest, hs'⟩ := ih (Forest.pruned_remove hleaf hv hn).1.valid
        (List.nodup_cons.mp ((Forest.uuids_remove htip hn).nodup_iff.mp hn)).2
        (hs.sub fun x hx => Forest.stamps_remove htip hn hx)
      refine ⟨EvictsOldest.pop hleaf htouch (fun y hy => ?_) hrest, hs'⟩
      obtain ⟨tic', toks', htouch', hstamp'⟩ := hs.lastTouch hn hy
      exact ⟨tic', htouch', hstamp.tic_le_of_le hstamp' (heapMin_le hmin hy)⟩

end FreeToken
