import FreeToken.KVCache.HybridRadixCache
import FreeToken.KVCache.RadixSpec
import FreeToken.KVCache.RadixMap

/-!
# The hybrid cache, operation by operation

The KV side of the tree does not look at snapshots: it is that of the `plain` tree. The other side
is in the `marks`: where each node ends, its snapshot and the snapshot's locks. A walk adds an
empty mark at most, wherever it splits.

`SoundBut` is the invariant while exactly the handles `hs` are locked: that of the KV side, the
snapshot counts and sizes (`Tally`), and a snapshot at every leaf but the one that an insertion or
an eviction is busy with.
-/

namespace FreeToken

/-- The node without its snapshot. -/
def RadixTreeNode.plain (d : RadixTreeNode) : RadixTreeNode :=
  { d with mambaValue := none, mambaRefCount := 0 }

/-- The end of a node, in tokens from the root, and what the node has there. -/
structure Mark where
  boundary : List Token
  uuid : Nat
  mambaValue : Option Slot
  mambaRefCount : Nat
deriving DecidableEq, Repr

/-- A mark below a span. -/
def Mark.under (key : List Token) (x : Mark) : Mark := { x with boundary := key ++ x.boundary }

/-- The mark of a node below `a`. -/
def RadixTreeNode.mark (a : List RadixTreeNode) (d : RadixTreeNode) : Mark where
  boundary := (a ++ [d]).flatMap fun d => d.key
  uuid := d.uuid
  mambaValue := d.mambaValue
  mambaRefCount := d.mambaRefCount

namespace Forest

variable {ps u v : Nat} {f f' : Forest}

/-! ### The plain tree -/

@[grind =]
def plain : Forest → Forest
  | nil => nil
  | node d cs rest => node d.plain cs.plain rest.plain

@[simp] theorem uuids_plain : ∀ f : Forest, f.plain.uuids = f.uuids
  | nil => rfl
  | node d cs rest => by
      simp [plain, uuids, RadixTreeNode.plain, uuids_plain cs, uuids_plain rest]

@[simp] theorem entries_plain : ∀ f : Forest, f.plain.entries = f.entries
  | nil => rfl
  | node d cs rest => by
      simp [plain, entries, RadixTreeNode.plain, entries_plain cs, entries_plain rest]

@[simp] theorem firstPages_plain : ∀ f : Forest, f.plain.firstPages ps = f.firstPages ps
  | nil => rfl
  | node d cs rest => by simp [plain, firstPages, RadixTreeNode.plain, firstPages_plain rest]

@[simp] theorem refSum_plain : ∀ f : Forest, f.plain.refSum = f.refSum
  | nil => rfl
  | node d cs rest => by simp [plain, refSum, RadixTreeNode.plain, refSum_plain rest]

@[simp] theorem evictable_plain : ∀ f : Forest, f.plain.evictable = f.evictable
  | nil => rfl
  | node d cs rest => by
      simp [plain, evictable, RadixTreeNode.plain, evictable_plain cs, evictable_plain rest]

@[simp] theorem protectedLen_plain : ∀ f : Forest, f.plain.protectedLen = f.protectedLen
  | nil => rfl
  | node d cs rest => by
      simp [plain, protectedLen, RadixTreeNode.plain, protectedLen_plain cs, protectedLen_plain rest]

@[simp] theorem count_plain : ∀ f : Forest, f.plain.count = f.count
  | nil => rfl
  | node d cs rest => by simp [plain, count, count_plain cs, count_plain rest]

@[simp] theorem valid_plain : ∀ {f : Forest}, f.plain.Valid ps ↔ f.Valid ps
  | nil => Iff.rfl
  | node d cs rest => by
      simp [plain, Valid, RadixTreeNode.plain, valid_plain (f := cs), valid_plain (f := rest)]

@[simp] theorem refOk_plain {held : Nat → Nat} : ∀ {f : Forest}, f.plain.RefOk held ↔ f.RefOk held
  | nil => Iff.rfl
  | node d cs rest => by
      simp [plain, RefOk, RadixTreeNode.plain, refOk_plain (f := cs), refOk_plain (f := rest)]

theorem path_plain : ∀ f : Forest,
    f.plain.path u = (f.path u).map fun ds => ds.map RadixTreeNode.plain
  | nil => rfl
  | node d cs rest => by
      have hd : d.plain.uuid = d.uuid := rfl
      simp only [plain, path, hd, path_plain cs, path_plain rest]
      split
      · rfl
      · cases cs.path u <;> rfl

@[simp] theorem span_plain (f : Forest) : f.plain.span u = f.span u := by
  rw [span, span, path_plain, Option.map_map]
  congr 1
  funext ds
  simp [List.flatMap_map, RadixTreeNode.plain]

/-- Trees that differ in snapshots only are, for the KV side, one tree. -/
theorem pruned_of_plain (h : f'.plain = f.plain) (hv : f.Valid ps) : Pruned ps f f' [] where
  slots_perm := by rw [slots, slots, ← entries_plain f', h, entries_plain]; rfl
  entries_sub := by rw [← entries_plain f', h, entries_plain]; exact fun _ hx => hx
  firstPages_sub := by rw [← firstPages_plain f', h, firstPages_plain]; exact fun _ hk => hk
  valid := valid_plain.1 (h ▸ valid_plain.2 hv)
  uuids_sub := by rw [← uuids_plain f', h, uuids_plain]
  refSum_eq := by rw [← refSum_plain f', h, refSum_plain]
  refOk := fun held hr => refOk_plain.1 (h ▸ refOk_plain.2 hr)
  evictable_eq := by rw [← evictable_plain f', h, evictable_plain]; rfl
  protectedLen_eq := by rw [← protectedLen_plain f', h, protectedLen_plain]
  span_eq := by
    intro held _ w hw _
    rw [← uuids_plain f', ← span_plain f', h, uuids_plain, span_plain]
    exact ⟨hw, rfl⟩

/-! ### Assignments to a node -/

/-- Assignments to the snapshot and its count. -/
structure OnSnapshot (g : RadixTreeNode → RadixTreeNode) : Prop where
  plain_eq : ∀ d, (g d).plain = d.plain

theorem OnSnapshot.uuid_eq {g : RadixTreeNode → RadixTreeNode} (hg : OnSnapshot g)
    (d : RadixTreeNode) : (g d).uuid = d.uuid := (RadixTreeNode.mk.inj (hg.plain_eq d)).1

theorem OnSnapshot.key_eq {g : RadixTreeNode → RadixTreeNode} (hg : OnSnapshot g)
    (d : RadixTreeNode) : (g d).key = d.key := (RadixTreeNode.mk.inj (hg.plain_eq d)).2.1

theorem plain_modify {g : RadixTreeNode → RadixTreeNode} (hg : OnSnapshot g) :
    ∀ f : Forest, (modify u g f).plain = f.plain
  | nil => rfl
  | node d cs rest => by
      rw [modify]
      split
      · simp [plain, hg.plain_eq]
      · simp [plain, plain_modify hg cs, plain_modify hg rest]

theorem modify_of_notMem {g : RadixTreeNode → RadixTreeNode} : ∀ {f : Forest}, u ∉ f.uuids →
    modify u g f = f
  | nil, _ => rfl
  | node d cs rest, h => by
      simp only [uuids, List.mem_cons, List.mem_append, not_or] at h
      simp [modify, Ne.symm h.1, modify_of_notMem h.2.1, modify_of_notMem h.2.2]

theorem modify_eq_nil {g : RadixTreeNode → RadixTreeNode} : modify u g f = nil ↔ f = nil := by
  cases f with
  | nil => simp [modify]
  | node d cs rest =>
      rw [modify]
      split <;> simp

/-- The childless nodes stay childless. -/
theorem tips_modify {g : RadixTreeNode → RadixTreeNode} {y : RadixTreeNode} :
    ∀ {f : Forest}, f.uuids.Nodup → y ∈ (modify u g f).tips →
      ∃ x ∈ f.tips, x.uuid ≠ u ∧ y = x ∨ x.uuid = u ∧ y = g x
  | node d cs rest, hn, hy => by
      obtain ⟨hd, hn⟩ := List.nodup_cons.mp hn
      obtain ⟨hncs, hnrest, -⟩ := List.nodup_append'.mp hn
      rw [List.mem_append, not_or] at hd
      rw [modify] at hy
      split at hy
      · next hdu =>
          subst hdu
          simp only [tips, List.mem_append] at hy ⊢
          rcases hy with hy | hy
          · split at hy
            · next hnil =>
                refine ⟨d, Or.inl ?_, Or.inr ⟨rfl, List.mem_singleton.mp hy⟩⟩
                rw [if_pos hnil]
                exact List.mem_singleton_self d
            · next hne =>
                refine ⟨y, Or.inl (by rwa [if_neg hne]), Or.inl ⟨?_, rfl⟩⟩
                exact fun heq => hd.1 (heq ▸ mem_uuids_of_tips hy)
          · exact ⟨y, Or.inr hy, Or.inl ⟨fun heq => hd.2 (heq ▸ mem_uuids_of_tips hy), rfl⟩⟩
      · next hdu =>
          simp only [tips, List.mem_append, modify_eq_nil] at hy ⊢
          rcases hy with hy | hy
          · split at hy
            · next hnil =>
                refine ⟨y, Or.inl (by rwa [if_pos hnil]), Or.inl ⟨?_, rfl⟩⟩
                rwa [List.mem_singleton.mp hy]
            · next hne =>
                obtain ⟨x, hx, hxy⟩ := tips_modify hncs hy
                exact ⟨x, Or.inl (by rwa [if_neg hne]), hxy⟩
          · obtain ⟨x, hx, hxy⟩ := tips_modify hnrest hy
            exact ⟨x, Or.inr hx, hxy⟩

/-! ### Marks -/

@[grind =]
def marks : Forest → List Mark
  | nil => []
  | node d cs rest => d.mark [] :: (cs.marks.map (Mark.under d.key) ++ rest.marks)

theorem mark_cons (z : RadixTreeNode) (a : List RadixTreeNode) (d : RadixTreeNode) :
    d.mark (z :: a) = (d.mark a).under z.key := by
  simp [RadixTreeNode.mark, Mark.under]

theorem map_uuid_under (key : List Token) (xs : List Mark) :
    (xs.map (Mark.under key)).map Mark.uuid = xs.map Mark.uuid := by
  rw [List.map_map]
  rfl

theorem uuids_eq_marks : ∀ f : Forest, f.uuids = f.marks.map Mark.uuid
  | nil => rfl
  | node d cs rest => by
      simp only [uuids, marks, List.map_cons, List.map_append, map_uuid_under,
        ← uuids_eq_marks cs, ← uuids_eq_marks rest]
      rfl

theorem mem_uuids_of_marks {x : Mark} (h : x ∈ f.marks) : x.uuid ∈ f.uuids :=
  uuids_eq_marks f ▸ List.mem_map_of_mem h

/-- A node's mark, by the path to it. -/
theorem mem_marks_of_path : ∀ {f : Forest} {a : List RadixTreeNode} {d : RadixTreeNode},
    f.path u = some (a ++ [d]) → d.mark a ∈ f.marks
  | node d0 cs rest, a, d, h => by
      rw [marks, List.mem_cons, List.mem_append, List.mem_map]
      rcases path_cases h with ⟨-, hds⟩ | ⟨-, e, hcs, hds⟩ | ⟨-, -, hrest⟩
      · obtain ⟨rfl, hd⟩ := List.append_inj' (hds.trans (List.nil_append [d0]).symm) rfl
        rw [List.singleton_inj.mp hd]
        exact Or.inl rfl
      · cases a with
        | nil =>
            rw [List.nil_append, List.cons.injEq] at hds
            exact absurd hds.2.symm (path_ne_nil hcs)
        | cons z a =>
            rw [List.cons_append, List.cons.injEq] at hds
            obtain ⟨rfl, rfl⟩ := hds
            exact Or.inr (Or.inl ⟨_, mem_marks_of_path hcs, (mark_cons z a d).symm⟩)
      · exact Or.inr (Or.inr (mem_marks_of_path hrest))

/-- Every mark is that of the node at the end of its path. -/
theorem exists_path_of_mark : ∀ {f : Forest} {x : Mark}, f.uuids.Nodup → x ∈ f.marks →
    ∃ a d, f.path x.uuid = some (a ++ [d]) ∧ x = d.mark a
  | node d0 cs rest, x, hn, h => by
      obtain ⟨hd, hn⟩ := List.nodup_cons.mp hn
      obtain ⟨hncs, hnrest, hdisj⟩ := List.nodup_append'.mp hn
      rw [List.mem_append, not_or] at hd
      rw [marks, List.mem_cons, List.mem_append, List.mem_map] at h
      rcases h with rfl | ⟨y, hy, rfl⟩ | hrest
      · exact ⟨[], d0, by simp [path, RadixTreeNode.mark], rfl⟩
      · obtain ⟨a, d, ha, hyd⟩ := exists_path_of_mark hncs hy
        have hne : d0.uuid ≠ y.uuid := fun heq => hd.1 (heq ▸ mem_uuids_of_marks hy)
        refine ⟨d0 :: a, d, ?_, by rw [mark_cons, ← hyd]⟩
        have huuid : (y.under d0.key).uuid = y.uuid := rfl
        rw [huuid, path_node_ne hne, ha]
        rfl
      · obtain ⟨a, d, ha, hxd⟩ := exists_path_of_mark hnrest hrest
        have hmem := mem_uuids_of_marks hrest
        have hne : d0.uuid ≠ x.uuid := fun heq => hd.2 (heq ▸ hmem)
        refine ⟨a, d, ?_, hxd⟩
        rw [path_node_ne hne, path_eq_none_iff.mpr fun hcs => hdisj hcs hmem, ha]
        rfl

@[simp] theorem marks_mapPath {g : Nat → Nat} : ∀ f : Forest, (mapPath u g f).marks = f.marks
  | nil => rfl
  | node d cs rest => by
      rw [mapPath]
      split
      · simp [marks, RadixTreeNode.mark]
      · split
        · simp [marks, RadixTreeNode.mark, marks_mapPath cs]
        · simp [marks, marks_mapPath rest]

theorem marks_snoc {new : RadixTreeNode} : ∀ f : Forest,
    (f.snoc new).marks = f.marks ++ [new.mark []]
  | nil => rfl
  | node d cs rest => by simp [snoc, marks, marks_snoc rest]

/-- A new leaf adds its mark. -/
theorem marks_attach {new : RadixTreeNode} : ∀ {f : Forest} {ds : List RadixTreeNode},
    f.uuids.Nodup → f.path u = some ds → (attach u new f).marks.Perm (new.mark ds :: f.marks)
  | node d cs rest, ds, hn, h => by
      obtain ⟨hncs, hnrest, hdisj⟩ := List.nodup_append'.mp (List.nodup_cons.mp hn).2
      rw [attach]
      rcases path_cases h with ⟨hd, rfl⟩ | ⟨hd, e, hcs, rfl⟩ | ⟨hd, hcs, hrest⟩
      · rw [if_pos hd]
        simp only [marks, marks_snoc, List.map_append, List.append_assoc, List.map_cons, List.map_nil,
          mark_cons]
        exact (List.perm_middle.cons _).trans (List.Perm.swap _ _ _)
      · have hurest : u ∉ rest.uuids := fun hmem => hdisj (mem_uuids_of_path hcs) hmem
        rw [if_neg hd, attach_of_notMem hurest]
        simp only [marks, mark_cons]
        refine ((((marks_attach hncs hcs).map (Mark.under d.key)).append_right _).cons _).trans ?_
        exact List.Perm.swap _ _ _
      · rw [if_neg hd, attach_of_notMem (path_eq_none_iff.mp hcs)]
        simp only [marks]
        refine (((marks_attach hnrest hrest).append_left _).cons _).trans ?_
        exact (List.perm_middle.cons _).trans (List.Perm.swap _ _ _)

/-- An assignment to the snapshot of a node changes its mark only. -/
theorem marks_modify {g : RadixTreeNode → RadixTreeNode} (hg : OnSnapshot g) :
    ∀ {f : Forest} {a : List RadixTreeNode} {d : RadixTreeNode}, f.uuids.Nodup →
      f.path u = some (a ++ [d]) →
      ∃ others, f.marks.Perm (d.mark a :: others) ∧
        (modify u g f).marks.Perm ((g d).mark a :: others)
  | node d0 cs rest, a, d, hn, h => by
      obtain ⟨hncs, hnrest, hdisj⟩ := List.nodup_append'.mp (List.nodup_cons.mp hn).2
      rw [modify]
      rcases path_cases h with ⟨hd, hds⟩ | ⟨hd, e, hcs, hds⟩ | ⟨hd, hcs, hrest⟩
      · obtain ⟨rfl, hdd⟩ := List.append_inj' (hds.trans (List.nil_append [d0]).symm) rfl
        obtain rfl := List.singleton_inj.mp hdd
        rw [if_pos hd]
        refine ⟨cs.marks.map (Mark.under d.key) ++ rest.marks, List.Perm.refl _, ?_⟩
        rw [marks, hg.key_eq]
      · cases a with
        | nil =>
            rw [List.nil_append, List.cons.injEq] at hds
            exact absurd hds.2.symm (path_ne_nil hcs)
        | cons z a =>
            rw [List.cons_append, List.cons.injEq] at hds
            obtain ⟨rfl, rfl⟩ := hds
            have hurest : u ∉ rest.uuids := fun hmem => hdisj (mem_uuids_of_path hcs) hmem
            obtain ⟨others, hbefore, hafter⟩ := marks_modify hg hncs hcs
            rw [if_neg hd, modify_of_notMem hurest]
            refine ⟨z.mark [] :: (others.map (Mark.under z.key) ++ rest.marks), ?_, ?_⟩
            · rw [marks, mark_cons]
              exact ((((hbefore.map _).append_right _).cons _).trans (List.Perm.swap _ _ _))
            · rw [marks, mark_cons]
              exact ((((hafter.map _).append_right _).cons _).trans (List.Perm.swap _ _ _))
      · obtain ⟨others, hbefore, hafter⟩ := marks_modify hg hnrest hrest
        rw [if_neg hd, modify_of_notMem (path_eq_none_iff.mp hcs)]
        refine ⟨d0.mark [] :: (cs.marks.map (Mark.under d0.key) ++ others), ?_, ?_⟩
        · rw [marks]
          exact ((hbefore.append_left _).cons _).trans
            ((List.perm_middle.cons _).trans (List.Perm.swap _ _ _))
        · rw [marks]
          exact ((hafter.append_left _).cons _).trans
            ((List.perm_middle.cons _).trans (List.Perm.swap _ _ _))

/-- Taking off a leaf takes off its mark. -/
theorem marks_remove : ∀ {f : Forest} {a : List RadixTreeNode} {x : RadixTreeNode},
    x ∈ f.tips → f.uuids.Nodup → f.path x.uuid = some (a ++ [x]) →
      f.marks.Perm (x.mark a :: (f.remove x.uuid).marks)
  | node d cs rest, a, x, hx, hn, h => by
      obtain ⟨hncs, hnrest, hdisj⟩ := List.nodup_append'.mp (List.nodup_cons.mp hn).2
      rw [remove]
      rcases tips_cases hx hn with ⟨rfl, rfl⟩ | ⟨hcs, hd, hrest⟩ | ⟨hrest, hd, hcs⟩
      · have ha : a = [] := by
          rw [path, if_pos rfl, Option.some.injEq] at h
          exact (List.append_inj' (h.symm.trans (List.nil_append [x]).symm) rfl).1
        subst ha
        rw [if_pos rfl]
        exact List.Perm.refl _
      · rw [if_neg hd, remove_of_notMem hrest]
        rcases path_cases h with ⟨heq, -⟩ | ⟨-, e, hpath, hds⟩ | ⟨-, hnone, -⟩
        · exact absurd heq hd
        · cases a with
          | nil =>
              rw [List.nil_append, List.cons.injEq] at hds
              exact absurd hds.2.symm (path_ne_nil hpath)
          | cons z a =>
              rw [List.cons_append, List.cons.injEq] at hds
              obtain ⟨rfl, rfl⟩ := hds
              simp only [marks, mark_cons]
              exact ((((marks_remove hcs hncs hpath).map _).append_right _).cons _).trans
                (List.Perm.swap _ _ _)
        · exact absurd (mem_uuids_of_tips hcs) (path_eq_none_iff.mp hnone)
      · rw [if_neg hd, remove_of_notMem hcs]
        rcases path_cases h with ⟨heq, -⟩ | ⟨-, e, hpath, -⟩ | ⟨-, -, hpath⟩
        · exact absurd heq hd
        · exact absurd (mem_uuids_of_path hpath) hcs
        · simp only [marks]
          exact (((marks_remove hrest hnrest hpath).append_left _).cons _).trans
            ((List.perm_middle.cons _).trans (List.Perm.swap _ _ _))

/-! ### Walks -/

/-- A split leaves an empty mark where it splits. -/
theorem marks_resplit (h : Resplit ps u f f') :
    f'.marks = f.marks ∨
      ∃ q, f'.marks.Perm ({ boundary := q, uuid := u, mambaValue := none, mambaRefCount := 0 } ::
        f.marks) := by
  induction h with
  | same f => exact Or.inl rfl
  | split d cs rest pos tic hpos hdvd hlt =>
      refine Or.inr ⟨d.key.take pos, List.Perm.of_eq ?_⟩
      have hkey : ∀ q : List Token, d.key.take pos ++ (d.key.drop pos ++ q) = d.key ++ q := by
        intro q
        rw [← List.append_assoc, List.take_append_drop]
      simp [marks, RadixTreeNode.mark, RadixTreeNode.upper, RadixTreeNode.lower, Mark.under, hkey]
  | child d tic rest h ih =>
      rcases ih with heq | ⟨q, hperm⟩
      · exact Or.inl (by simp [marks, RadixTreeNode.mark, heq])
      · refine Or.inr ⟨d.key ++ q, ?_⟩
        simp only [marks]
        exact (((hperm.map (Mark.under d.key)).append_right _).cons _).trans (List.Perm.swap _ _ _)
  | sibling d cs h ih =>
      rcases ih with heq | ⟨q, hperm⟩
      · exact Or.inl (by simp [marks, heq])
      · refine Or.inr ⟨q, ?_⟩
        simp only [marks]
        exact ((hperm.append_left _).cons _).trans
          ((List.perm_middle.cons _).trans (List.Perm.swap _ _ _))

theorem resplit_eq_nil (h : Resplit ps u f f') (hnil : f' = nil) : f = nil := by
  cases h <;> simp_all

/-- A childless node of the tree after a walk was one before it, with the same snapshot. -/
theorem tips_resplit (h : Resplit ps u f f') {y : RadixTreeNode} (hy : y ∈ f'.tips) :
    ∃ x ∈ f.tips, y.uuid = x.uuid ∧ y.mambaValue = x.mambaValue := by
  induction h with
  | same f => exact ⟨y, hy, rfl, rfl⟩
  | split d cs rest pos tic hpos hdvd hlt =>
      simp only [tips, List.mem_append, reduceCtorEq, if_false, List.not_mem_nil, or_false] at hy ⊢
      rcases hy with hy | hy
      · split at hy
        · next hnil =>
            refine ⟨d, Or.inl ?_, by rw [List.mem_singleton.mp hy]; exact ⟨rfl, rfl⟩⟩
            rw [if_pos hnil]
            exact List.mem_singleton_self d
        · next hne => exact ⟨y, Or.inl (by rwa [if_neg hne]), rfl, rfl⟩
      · exact ⟨y, Or.inr hy, rfl, rfl⟩
  | child d tic rest h ih =>
      simp only [tips, List.mem_append] at hy ⊢
      rcases hy with hy | hy
      · split at hy
        · next hnil =>
            refine ⟨d, Or.inl ?_, by rw [List.mem_singleton.mp hy]; exact ⟨rfl, rfl⟩⟩
            rw [if_pos (resplit_eq_nil h hnil)]
            exact List.mem_singleton_self d
        · next hne =>
            obtain ⟨x, hx, hxy⟩ := ih hy
            refine ⟨x, Or.inl ?_, hxy⟩
            rwa [if_neg fun hnil => by subst hnil; simp [tips] at hx]
      · exact ⟨y, Or.inr hy, rfl, rfl⟩
  | sibling d cs h ih =>
      simp only [tips, List.mem_append] at hy ⊢
      rcases hy with hy | hy
      · exact ⟨y, Or.inl hy, rfl, rfl⟩
      · obtain ⟨x, hx, hxy⟩ := ih hy
        exact ⟨x, Or.inr hx, hxy⟩

/-! ### Childless nodes -/

theorem tips_snoc {new y : RadixTreeNode} : ∀ {f : Forest}, y ∈ (f.snoc new).tips →
    y = new ∨ y ∈ f.tips
  | nil, h => by simpa [snoc, tips] using h
  | node d cs rest, h => by
      simp only [snoc, tips, List.mem_append] at h ⊢
      rcases h with h | h
      · exact Or.inr (Or.inl h)
      · exact (tips_snoc h).imp id Or.inr

theorem tips_attach {new y : RadixTreeNode} : ∀ {f : Forest}, y ∈ (attach u new f).tips →
    y = new ∨ y ∈ f.tips
  | node d cs rest, h => by
      rw [attach] at h
      split at h
      · simp only [tips, List.mem_append] at h ⊢
        rcases h with h | h
        · split at h
          · next hnil =>
              cases cs <;> simp [snoc] at hnil
          · refine (tips_snoc h).imp id fun hcs => Or.inl ?_
            rwa [if_neg fun hnil => by subst hnil; simp [tips] at hcs]
        · exact Or.inr (Or.inr h)
      · simp only [tips, List.mem_append] at h ⊢
        rcases h with h | h
        · split at h
          · next hnil =>
              right; left
              cases cs with
              | nil => simpa using h
              | node d' cs' rest' =>
                  rw [attach] at hnil
                  split at hnil <;> simp at hnil
          · refine (tips_attach h).imp id fun hcs => Or.inl ?_
            rwa [if_neg fun hnil => by subst hnil; simp [tips] at hcs]
        · exact (tips_attach h).imp id Or.inr

theorem tips_mapPath {g : Nat → Nat} {y : RadixTreeNode} : ∀ {f : Forest},
    y ∈ (mapPath u g f).tips → ∃ x ∈ f.tips, y.uuid = x.uuid ∧ y.mambaValue = x.mambaValue
  | node d cs rest, h => by
      have hnil : ∀ f : Forest, mapPath u g f = nil ↔ f = nil := by
        intro f
        cases f with
        | nil => simp [mapPath]
        | node d' cs' rest' =>
            rw [mapPath]
            split
            · simp
            · split <;> simp
      rw [mapPath] at h
      split at h
      · simp only [tips, List.mem_append] at h ⊢
        rcases h with h | h
        · split at h
          · next hcs =>
              refine ⟨d, Or.inl ?_, by rw [List.mem_singleton.mp h]; exact ⟨rfl, rfl⟩⟩
              rw [if_pos hcs]
              exact List.mem_singleton_self d
          · next hcs => exact ⟨y, Or.inl (by rwa [if_neg hcs]), rfl, rfl⟩
        · exact ⟨y, Or.inr h, rfl, rfl⟩
      · split at h
        · next hsome =>
            simp only [tips, List.mem_append, hnil] at h ⊢
            rcases h with h | h
            · split at h
              · next hcs => subst hcs; cases hsome
              · next hcs =>
                  obtain ⟨x, hx, hxy⟩ := tips_mapPath h
                  exact ⟨x, Or.inl (by rwa [if_neg hcs]), hxy⟩
            · exact ⟨y, Or.inr h, rfl, rfl⟩
        · simp only [tips, List.mem_append] at h ⊢
          rcases h with h | h
          · exact ⟨y, Or.inl h, rfl, rfl⟩
          · obtain ⟨x, hx, hxy⟩ := tips_mapPath h
            exact ⟨x, Or.inr hx, hxy⟩

/-- Taking off a leaf makes at most its parent a leaf. -/
theorem tips_remove : ∀ {f : Forest} {x y : RadixTreeNode}, x ∈ f.tips → f.uuids.Nodup →
    y ∈ (f.remove x.uuid).tips → y ∈ f.tips ∨ ∃ a, f.path x.uuid = some (a ++ [y, x])
  | node d cs rest, x, y, hx, hn, hy => by
      obtain ⟨hncs, hnrest, -⟩ := List.nodup_append'.mp (List.nodup_cons.mp hn).2
      rw [remove] at hy
      rcases tips_cases hx hn with ⟨rfl, rfl⟩ | ⟨hcs, hd, hrest⟩ | ⟨hrest, hd, hcs⟩
      · rw [if_pos rfl] at hy
        exact Or.inl (List.mem_append_right _ hy)
      · have hne : cs ≠ nil := by
          rintro rfl
          simp [tips] at hcs
        rw [if_neg hd, remove_of_notMem hrest, tips, List.mem_append] at hy
        rw [tips, List.mem_append, if_neg hne]
        rcases hy with hy | hy
        · split at hy
          · next hnil =>
              -- the only child goes
              obtain rfl := List.mem_singleton.mp hy
              obtain ⟨a, ha⟩ := path_tip hcs hncs
              have hnodes := uuids_remove hcs hncs
              rw [hnil] at hnodes
              have ha0 : a = [] := by
                rcases List.eq_nil_or_concat a with rfl | ⟨a0, z, rfl⟩
                · rfl
                · have hz : z.uuid ∈ cs.uuids := mem_uuids_of_mem_path ha (by simp)
                  have hzx : z.uuid = x.uuid := by simpa [uuids] using hnodes.mem_iff.mp hz
                  rw [List.concat_eq_append, List.append_assoc] at ha
                  exact absurd (path_ends hcs hncs ha hzx) (by simp)
              subst ha0
              exact Or.inr ⟨[], by rw [path_node_ne hd, ha]; rfl⟩
          · rcases tips_remove hcs hncs hy with hmem | ⟨a, ha⟩
            · exact Or.inl (Or.inl hmem)
            · exact Or.inr ⟨d :: a, by rw [path_node_ne hd, ha]; rfl⟩
        · exact Or.inl (Or.inr hy)
      · rw [if_neg hd, remove_of_notMem hcs, tips, List.mem_append] at hy
        rw [tips, List.mem_append]
        rcases hy with hy | hy
        · exact Or.inl (Or.inl hy)
        · rcases tips_remove hrest hnrest hy with hmem | ⟨a, ha⟩
          · exact Or.inl (Or.inr hmem)
          · refine Or.inr ⟨a, ?_⟩
            rw [path_node_ne hd, path_eq_none_iff.mpr hcs, ha]
            rfl

theorem isLeaf_iff : f.isLeaf u = true ↔ ∃ x ∈ f.tips, x.uuid = u := by
  simp [isLeaf]

theorem mem_stackLeaves {y : RadixTreeNode} : ∀ {f : Forest}, y ∈ f.stackLeaves ↔ y ∈ f.tips
  | nil => by simp [stackLeaves, tips]
  | node d cs rest => by
      simp only [stackLeaves, tips, List.mem_append, mem_stackLeaves (f := rest)]
      by_cases hcs : cs = nil
      · simp [hcs, or_comm]
      · simp [hcs, or_comm, mem_stackLeaves (f := cs)]

/-- An unlocked childless node is one of the leaves to evict. -/
theorem mem_leaves_of_tips : ∀ {f : Forest} {x : RadixTreeNode}, x ∈ f.tips → x.refCount = 0 →
    x ∈ f.leaves
  | node d cs rest, x, h, h0 => by
      rw [leaves_node, List.mem_append]
      rw [tips, List.mem_append] at h
      rcases h with h | h
      · left
        split at h
        · next hcs =>
            obtain rfl := List.mem_singleton.mp h
            simp [hcs, h0]
        · next hcs =>
            rw [if_neg hcs]
            exact mem_leaves_of_tips h h0
      · exact Or.inr (mem_leaves_of_tips h h0)

end Forest

/-! ### The invariant and the operations -/

/-! ### Snapshot counts -/

/-- A live snapshot that nobody has locked. -/
def Mark.free (x : Mark) : Bool := x.mambaValue.isSome && x.mambaRefCount == 0

def Mark.locked (x : Mark) : Bool := x.mambaValue.isSome && x.mambaRefCount != 0

/-- The snapshot counts are the locks, locked snapshots are live, and the two sizes count the
snapshots without and with a lock. -/
structure Tally (xs : List Mark) (hs : List RadixCacheHandle) (evictable protectd : Int) : Prop where
  locks : ∀ x ∈ xs, x.mambaRefCount = holdersAt hs x.uuid
  live : ∀ x ∈ xs, x.mambaRefCount ≠ 0 → x.mambaValue.isSome
  evictable_eq : evictable = xs.countP Mark.free
  protected_eq : protectd = xs.countP Mark.locked

namespace Tally

variable {x : Mark} {xs xs' : List Mark} {hs hs' : List RadixCacheHandle} {e p : Int}

theorem perm (h : Tally xs hs e p) (hperm : xs'.Perm xs) : Tally xs' hs e p where
  locks := fun x hx => h.locks x (hperm.mem_iff.mp hx)
  live := fun x hx => h.live x (hperm.mem_iff.mp hx)
  evictable_eq := by rw [h.evictable_eq, hperm.countP_eq]
  protected_eq := by rw [h.protected_eq, hperm.countP_eq]

theorem cons_iff : Tally (x :: xs) hs e p ↔
    (x.mambaRefCount = holdersAt hs x.uuid ∧ (x.mambaRefCount ≠ 0 → x.mambaValue.isSome)) ∧
      Tally xs hs (e - if x.free then 1 else 0) (p - if x.locked then 1 else 0) := by
  constructor
  · intro h
    have he := h.evictable_eq
    have hp := h.protected_eq
    simp only [List.countP_cons] at he hp
    refine ⟨⟨h.locks x List.mem_cons_self, h.live x List.mem_cons_self⟩,
      fun y hy => h.locks y (List.mem_cons_of_mem x hy),
      fun y hy => h.live y (List.mem_cons_of_mem x hy), ?_, ?_⟩
    · rw [he]
      split <;> simp
    · rw [hp]
      split <;> simp
  · rintro ⟨⟨hlocks, hlive⟩, h⟩
    have he := h.evictable_eq
    have hp := h.protected_eq
    refine ⟨?_, ?_, ?_, ?_⟩
    · intro y hy
      rcases List.mem_cons.mp hy with rfl | hy
      · exact hlocks
      · exact h.locks y hy
    · intro y hy
      rcases List.mem_cons.mp hy with rfl | hy
      · exact hlive
      · exact h.live y hy
    · rw [List.countP_cons]
      by_cases hfree : x.free = true
      · simp only [hfree, if_true] at he ⊢
        omega
      · simp only [hfree, Bool.false_eq_true, if_false] at he ⊢
        omega
    · rw [List.countP_cons]
      by_cases hlocked : x.locked = true
      · simp only [hlocked, if_true] at hp ⊢
        omega
      · simp only [hlocked, Bool.false_eq_true, if_false] at hp ⊢
        omega

theorem congr {e' p' : Int} (h : Tally xs hs e p) (he : e' = e) (hp : p' = p) :
    Tally xs hs e' p' := he ▸ hp ▸ h

/-- Other locks than those on the marked nodes do not count. -/
theorem held_congr (h : Tally xs hs e p)
    (hsame : ∀ x ∈ xs, holdersAt hs' x.uuid = holdersAt hs x.uuid) : Tally xs hs' e p where
  locks := fun x hx => (h.locks x hx).trans (hsame x hx).symm
  live := h.live
  evictable_eq := h.evictable_eq
  protected_eq := h.protected_eq

/-- A node without a snapshot that nobody holds counts nowhere. -/
theorem cons_empty (h : Tally xs hs e p) (hvalue : x.mambaValue = none)
    (hcount : x.mambaRefCount = 0) (hheld : holdersAt hs x.uuid = 0) : Tally (x :: xs) hs e p := by
  refine cons_iff.2 ⟨⟨by rw [hcount, hheld], fun hne => absurd hcount hne⟩, ?_⟩
  simpa [Mark.free, Mark.locked, hvalue] using h

theorem resplit {ps u : Nat} {f f' : Forest} (h : Tally f.marks hs e p) (hsplit : Resplit ps u f f')
    (hu : holdersAt hs u = 0) : Tally f'.marks hs e p := by
  rcases Forest.marks_resplit hsplit with heq | ⟨q, hperm⟩
  · rwa [heq]
  · exact (h.cons_empty rfl rfl hu).perm hperm

end Tally

namespace RadixPrefixCache

variable {c c' : RadixPrefixCache} {hs : List RadixCacheHandle}

/-- The invariant of the KV side does not look at snapshots. -/
theorem WellFormed.of_plain (hw : c.WellFormed hs) {tree : Forest} (h : tree.plain = c.tree.plain) :
    { c with tree := tree }.WellFormed hs := by
  have hp := Forest.pruned_of_plain h hw.valid
  have huuids : tree.uuids = c.tree.uuids := by
    rw [← Forest.uuids_plain tree, h, Forest.uuids_plain]
  exact
    { pageSize_pos := hw.pageSize_pos
      valid := hp.valid
      nodup := huuids.symm ▸ hw.nodup
      fresh := by
        intro u hu
        exact hw.fresh u (huuids ▸ hu)
      refOk := hp.refOk _ hw.refOk
      held := by
        intro x hx u hu
        exact huuids.symm ▸ hw.held x hx u hu
      evictable_eq := by
        rw [hw.evictable_eq, ← Forest.evictable_plain c.tree, ← h, Forest.evictable_plain]
      protected_eq := by
        rw [hw.protected_eq, ← Forest.protectedLen_plain c.tree, ← h, Forest.protectedLen_plain] }

end RadixPrefixCache

namespace Forest

variable {f : Forest} {u : Nat} {a : List RadixTreeNode} {d : RadixTreeNode}

theorem nodeAt_eq_some : f.nodeAt u = some d ↔ ∃ a, f.path u = some (a ++ [d]) := by
  rw [nodeAt, Option.bind_eq_some_iff]
  constructor
  · rintro ⟨ds, hds, hlast⟩
    exact ⟨ds.dropLast, by rw [hds, List.dropLast_append_getLast? d hlast]⟩
  · rintro ⟨a, ha⟩
    exact ⟨_, ha, List.getLast?_concat⟩

theorem nodeAt_eq_none : f.nodeAt u = none ↔ u ∉ f.uuids := by
  rw [nodeAt, Option.bind_eq_none_iff]
  constructor
  · intro h hu
    obtain ⟨ds, hds⟩ := exists_path hu
    exact path_ne_nil hds (List.getLast?_eq_none_iff.mp (h ds hds))
  · intro hu ds hds
    exact absurd (mem_uuids_of_path hds) hu

theorem exists_nodeAt (h : u ∈ f.uuids) : ∃ d, f.nodeAt u = some d :=
  Option.ne_none_iff_exists'.mp fun hnone => nodeAt_eq_none.1 hnone h

theorem uuid_nodeAt (h : f.nodeAt u = some d) : d.uuid = u := by
  obtain ⟨a, ha⟩ := nodeAt_eq_some.1 h
  exact path_last ha

end Forest

namespace HybridRadixCache

/-- The invariant while the handles `hs` are locked; `but` is the leaf that may lack a snapshot. -/
structure SoundBut (c : HybridRadixCache) (hs : List RadixCacheHandle) (but : Option Nat) : Prop where
  kv : c.kv.WellFormed hs
  tally : Tally c.tree.marks hs c.mambaEvictable c.mambaProtected
  tips : ∀ y ∈ c.tree.tips, y.mambaValue.isSome ∨ some y.uuid = but

abbrev Sound (c : HybridRadixCache) (hs : List RadixCacheHandle) : Prop := c.SoundBut hs none

variable {c c' : HybridRadixCache} {hs : List RadixCacheHandle} {but : Option Nat}

/-- `inc_lock` and `dec_lock` take a node where the plain cache takes a handle. -/
def lockOf (node : Option Nat) : RadixCacheHandle := { cachedLen := 0, node := node }

theorem sound_init {ps : Nat} (hps : 0 < ps) : Sound { kv := { pageSize := ps } } [] where
  kv := RadixPrefixCache.wellFormed_init hps
  tally := ⟨by simp [Forest.marks], by simp [Forest.marks], rfl, rfl⟩
  tips := by simp [Forest.tips]

theorem SoundBut.perm {hs' : List RadixCacheHandle} (h : c.SoundBut hs but) (hp : hs.Perm hs') :
    c.SoundBut hs' but where
  kv := h.kv.perm hp
  tally := h.tally.held_congr fun x _ => by rw [holdersAt_perm hp]
  tips := h.tips

theorem Sound.tip (h : c.Sound hs) {y : RadixTreeNode} (hy : y ∈ c.tree.tips) :
    y.mambaValue.isSome := (h.tips y hy).resolve_right (by simp)

/-- Of a node on a path, the snapshot's count is that of its locks. -/
theorem SoundBut.mambaRefCount_eq (h : c.SoundBut hs but) {u : Nat} {a : List RadixTreeNode}
    {d : RadixTreeNode} (hd : c.tree.path u = some (a ++ [d])) :
    d.mambaRefCount = holdersAt hs u := by
  have hmem := Forest.mem_marks_of_path hd
  have hlocks := h.tally.locks _ hmem
  rw [← Forest.path_last hd]
  exact hlocks

/-- Every lock on the snapshot is a lock on the node. -/
theorem SoundBut.mambaRefCount_le (h : c.SoundBut hs but) {u : Nat} {a : List RadixTreeNode}
    {d : RadixTreeNode} (hd : c.tree.path u = some (a ++ [d])) : d.mambaRefCount ≤ d.refCount := by
  rw [h.mambaRefCount_eq hd]
  exact (Forest.held_le_refCount h.kv.refOk hd).2 d (List.mem_append_right a List.mem_cons_self)

/-! ### `match_prefix` -/

/-- A walk keeps everything. -/
theorem SoundBut.walk (h : c.SoundBut hs but) (ids : List Token) :
    { c with kv := (c.kv.treeWalk ids).2 }.SoundBut hs but := by
  have hw := h.kv.shape.walked ids
  have hcounter := h.kv.holdersAt_eq_zero h.kv.counter_notMem
  refine ⟨(RadixPrefixCache.treeWalk_spec h.kv ids).wellFormed, h.tally.resplit hw.resplit hcounter, ?_⟩
  intro y hy
  obtain ⟨x, hx, huuid, hvalue⟩ := Forest.tips_resplit hw.resplit hy
  rw [huuid, hvalue]
  exact h.tips x hx

/-- The deepest node with a snapshot on a path, if there is one. -/
theorem deepestSnapshot_reverse (ds : List RadixTreeNode) :
    (∃ a d b slot, ds = a ++ d :: b ∧ d.mambaValue = some slot ∧ (∀ y ∈ b, y.mambaValue = none) ∧
      deepestSnapshot ds.reverse (pathLen ds) =
        { kvIndices := (a ++ [d]).flatMap fun d => d.value
          cachedLen := pathLen (a ++ [d])
          mambaValue := some slot
          node := some d.uuid }) ∨
    (∀ y ∈ ds, y.mambaValue = none) ∧
      deepestSnapshot ds.reverse (pathLen ds) =
        { kvIndices := [], cachedLen := 0, mambaValue := none, node := none } := by
  induction ds using List.reverseRecOn with
  | nil => exact Or.inr ⟨by simp, rfl⟩
  | append_singleton ds cur ih =>
      have hlen : pathLen (ds ++ [cur]) - cur.key.length = pathLen ds := by simp [pathLen]
      rw [List.reverse_append, List.reverse_singleton, List.singleton_append, deepestSnapshot]
      rcases hcur : cur.mambaValue with _ | slot
      · simp only [hlen]
        rcases ih with ⟨a, d, b, slot, rfl, hslot, hb, heq⟩ | ⟨hall, heq⟩
        · refine Or.inl ⟨a, d, b ++ [cur], slot, by simp, hslot, ?_, heq⟩
          intro y hy
          rcases List.mem_append.mp hy with hy | hy
          · exact hb y hy
          · rwa [List.mem_singleton.mp hy]
        · refine Or.inr ⟨?_, heq⟩
          intro y hy
          rcases List.mem_append.mp hy with hy | hy
          · exact hall y hy
          · rwa [List.mem_singleton.mp hy]
      · refine Or.inl ⟨ds, cur, [], slot, rfl, hcur, by simp, ?_⟩
        simp

/-! ### `insert` -/

/-- `insert` is the insertion of the KV, then the donation. -/
theorem insert_eq (c : HybridRadixCache) (ids : List Token) (slots : List Slot) (slot : Slot) :
    c.insert ids slots slot = (c.kv.insertPrefix ids slots).map fun r =>
      ((r.1.cachedLen, ({ c with kv := r.2 }.donate r.1.handle.node slot).1),
        ({ c with kv := r.2 }.donate r.1.handle.node slot).2) := by
  simp only [insert, RadixPrefixCache.insertPrefix]
  by_cases hall : (c.kv.treeWalk (ids.take (alignDownNat ids.length c.kv.pageSize))).1.prefixLen =
      alignDownNat ids.length c.kv.pageSize
  · simp only [hall, ne_eq, not_true_eq_false, if_false, if_true]
    rfl
  · simp only [hall, ne_eq, not_false_eq_true, if_true, if_false]
    split <;> rfl

/-- Inserting the KV leaves at most the new leaf without a snapshot. -/
theorem Sound.insertKv (h : c.Sound hs) {ids : List Token} {slots : List Slot} {res : MatchResult}
    {kv : RadixPrefixCache} (hinsert : c.kv.insertPrefix ids slots = some (res, kv)) :
    { c with kv := kv }.SoundBut hs res.handle.node ∧
      ∀ u, res.handle.node = some u → u ∈ kv.tree.uuids := by
  have hkv := h.kv.insertPrefix hinsert
  obtain ⟨-, -, hnode⟩ := h.kv.shape.inserting hinsert
  obtain ⟨w, c1, hwalk, -, -, hcase⟩ := RadixPrefixCache.insertPrefix_cases hinsert
  have hsound : Sound _ hs := SoundBut.walk h (ids.take (alignDownNat ids.length c.kv.pageSize))
  have hw := h.kv.shape.walked (ids.take (alignDownNat ids.length c.kv.pageSize))
  rw [hwalk] at hsound hw
  refine ⟨?_, hnode⟩
  rcases hcase with ⟨-, rfl, -⟩ | ⟨-, -, hleaf, rfl⟩
  · exact ⟨hkv, hsound.tally, fun y hy => Or.inl (hsound.tip hy)⟩
  · have hfresh := hsound.kv.holdersAt_eq_zero hsound.kv.counter_notMem
    generalize hat : w.node = at' at hkv
    rcases at' with _ | u
    · refine ⟨hkv, ?_, ?_⟩
      · simp only [tree, RadixPrefixCache.setParent, Forest.marks_snoc]
        exact (hsound.tally.cons_empty rfl rfl hfresh).perm (List.perm_append_singleton _ _)
      · intro y hy
        simp only [tree, RadixPrefixCache.setParent] at hy
        rcases Forest.tips_snoc hy with rfl | hy
        · exact Or.inr hleaf.symm
        · exact Or.inl (hsound.tip hy)
    · obtain ⟨ds, hds⟩ := Forest.exists_path (hw.node_mem u hat)
      refine ⟨hkv, ?_, ?_⟩
      · simp only [tree, RadixPrefixCache.setParent]
        exact (hsound.tally.cons_empty rfl rfl hfresh).perm
          (Forest.marks_attach hsound.kv.nodup hds)
      · intro y hy
        simp only [tree, RadixPrefixCache.setParent] at hy
        rcases Forest.tips_attach hy with rfl | hy
        · exact Or.inr hleaf.symm
        · exact Or.inl (hsound.tip hy)

theorem onSnapshot_set (value : Option Slot) :
    Forest.OnSnapshot fun d => { d with mambaValue := value } := ⟨fun _ => rfl⟩

theorem onSnapshot_count (count : Nat → Nat) :
    Forest.OnSnapshot fun d => { d with mambaRefCount := count d.mambaRefCount } := ⟨fun _ => rfl⟩

/-- What a donation does: the node takes the snapshot, unless it is the root or has one. -/
theorem donate_cases (c : HybridRadixCache) (node : Option Nat) (slot : Slot) :
    (c.donate node slot = (true, c) ∧
      ∀ u a d, node = some u → c.tree.path u = some (a ++ [d]) → d.mambaValue.isSome) ∨
    ∃ u a d, node = some u ∧ c.tree.path u = some (a ++ [d]) ∧ d.mambaValue = none ∧
      c.donate node slot = (false,
        { c.withTree (c.tree.modify u fun d => { d with mambaValue := some slot }) with
          mambaEvictable :=
            if d.mambaRefCount = 0 then c.mambaEvictable + 1 else c.mambaEvictable }) := by
  rcases node with _ | u
  · exact Or.inl ⟨rfl, by simp⟩
  · rcases hat : c.tree.nodeAt u with _ | d
    · refine Or.inl ⟨by simp [donate, hat], ?_⟩
      rintro _ a d ⟨⟩ hpath
      rw [Forest.nodeAt_eq_some.2 ⟨a, hpath⟩] at hat
      cases hat
    · have huuid := Forest.uuid_nodeAt hat
      obtain ⟨a, ha⟩ := Forest.nodeAt_eq_some.1 hat
      rcases hvalue : d.mambaValue with _ | old
      · exact Or.inr ⟨u, a, d, rfl, ha, hvalue, by simp [donate, hat, hvalue, huuid]⟩
      · refine Or.inl ⟨by simp [donate, hat, hvalue], ?_⟩
        rintro _ a' d' ⟨⟩ hpath
        rw [Forest.nodeAt_eq_some.2 ⟨a', hpath⟩, Option.some.injEq] at hat
        rw [hat, hvalue]
        rfl

theorem SoundBut.donate {node : Option Nat} (h : c.SoundBut hs node) (slot : Slot) :
    (c.donate node slot).2.Sound hs := by
  rcases donate_cases c node slot with ⟨heq, hlive⟩ | ⟨u, a, d, rfl, ha, hnone, heq⟩
  · rw [heq]
    refine ⟨h.kv, h.tally, fun y hy => Or.inl ?_⟩
    rcases h.tips y hy with hsome | hnode
    · exact hsome
    · obtain ⟨a, ha⟩ := Forest.path_tip hy h.kv.nodup
      exact hlive y.uuid a y hnode.symm ha
  · rw [heq]
    have hg := onSnapshot_set (some slot)
    obtain ⟨others, hbefore, hafter⟩ := Forest.marks_modify hg h.kv.nodup ha
    obtain ⟨⟨hlocks, hlive⟩, hrest⟩ := Tally.cons_iff.1 (h.tally.perm hbefore.symm)
    have hzero : d.mambaRefCount = 0 := by
      by_contra hne
      have := hlive hne
      simp [RadixTreeNode.mark, hnone] at this
    refine ⟨h.kv.of_plain (Forest.plain_modify hg c.tree), ?_, fun y hy => Or.inl ?_⟩
    · refine Tally.perm ?_ hafter
      refine Tally.cons_iff.2 ⟨⟨hlocks, fun _ => rfl⟩, ?_⟩
      simpa [RadixTreeNode.mark, Mark.free, Mark.locked, hnone, hzero, withTree] using hrest
    · obtain ⟨x, hx, hxy⟩ := Forest.tips_modify h.kv.nodup hy
      rcases hxy with ⟨hne, rfl⟩ | ⟨-, rfl⟩
      · exact (h.tips y hx).resolve_right fun heq => hne (Option.some.inj heq)
      · rfl

/-- An insertion that returns keeps the invariant. -/
theorem Sound.insert (h : c.Sound hs) {ids : List Token} {slots : List Slot} {slot : Slot}
    {reply : Nat × Bool} (hinsert : c.insert ids slots slot = some (reply, c')) : c'.Sound hs := by
  rw [insert_eq, Option.map_eq_some_iff] at hinsert
  obtain ⟨r, hr, heq⟩ := hinsert
  cases heq
  exact (h.insertKv hr).1.donate slot

/-! ### Locking -/

/-- The KV locks leave the snapshots. -/
theorem snapshots_mapPath {f : Forest} {u : Nat} {g : Nat → Nat} :
    (Forest.mapPath u g f).marks = f.marks ∧
      ∀ y ∈ (Forest.mapPath u g f).tips, ∃ x ∈ f.tips, y.uuid = x.uuid ∧ y.mambaValue = x.mambaValue :=
  ⟨Forest.marks_mapPath f, fun _ hy => Forest.tips_mapPath hy⟩

theorem snapshots_lock (kv : RadixPrefixCache) (hd : RadixCacheHandle) :
    (kv.lock hd).tree.marks = kv.tree.marks ∧
      ∀ y ∈ (kv.lock hd).tree.tips, ∃ x ∈ kv.tree.tips,
        y.uuid = x.uuid ∧ y.mambaValue = x.mambaValue := by
  rw [RadixPrefixCache.lock]
  split
  · exact ⟨rfl, fun y hy => ⟨y, hy, rfl, rfl⟩⟩
  · exact snapshots_mapPath

theorem snapshots_unlock {kv kv' : RadixPrefixCache} {hd : RadixCacheHandle}
    (h : kv.unlock hd = some kv') :
    kv'.tree.marks = kv.tree.marks ∧
      ∀ y ∈ kv'.tree.tips, ∃ x ∈ kv.tree.tips, y.uuid = x.uuid ∧ y.mambaValue = x.mambaValue := by
  rw [RadixPrefixCache.unlock] at h
  split at h
  · cases h
    exact ⟨rfl, fun y hy => ⟨y, hy, rfl, rfl⟩⟩
  · split at h
    · cases h
    · cases h
      exact snapshots_mapPath

/-- A snapshot's count follows its locks. -/
theorem SoundBut.recount (h : c.SoundBut hs but) (hs' : List RadixCacheHandle) {u : Nat}
    {a : List RadixTreeNode} {d : RadixTreeNode} (count : Nat → Nat)
    (ha : c.tree.path u = some (a ++ [d])) (hsome : d.mambaValue.isSome)
    (hcount : count d.mambaRefCount = holdersAt hs' u)
    (hother : ∀ v, v ≠ u → holdersAt hs' v = holdersAt hs v) :
    Tally (c.tree.modify u fun d => { d with mambaRefCount := count d.mambaRefCount }).marks hs'
      (c.mambaEvictable - (if d.mambaRefCount = 0 then 1 else 0) +
        if count d.mambaRefCount = 0 then 1 else 0)
      (c.mambaProtected - (if d.mambaRefCount = 0 then 0 else 1) +
        if count d.mambaRefCount = 0 then 0 else 1) := by
  obtain ⟨others, hbefore, hafter⟩ := Forest.marks_modify (onSnapshot_count count) h.kv.nodup ha
  obtain ⟨-, hrest⟩ := Tally.cons_iff.1 (h.tally.perm hbefore.symm)
  have hnodup := (hbefore.map Mark.uuid).nodup_iff.mp (Forest.uuids_eq_marks c.tree ▸ h.kv.nodup)
  have hothers : ∀ y ∈ others, y.uuid ≠ u := by
    intro y hy heq
    refine (List.nodup_cons.mp hnodup).1 (List.mem_map.mpr ⟨y, hy, ?_⟩)
    exact heq.trans (Forest.path_last ha).symm
  refine Tally.perm (Tally.cons_iff.2 ⟨⟨?_, fun _ => hsome⟩, ?_⟩) hafter
  · simp only [RadixTreeNode.mark, Forest.path_last ha]
    exact hcount
  · have hrest' := hrest.held_congr fun y hy => hother y.uuid (hothers y hy)
    by_cases hzero : d.mambaRefCount = 0 <;> by_cases hzero' : count d.mambaRefCount = 0 <;>
      simpa [RadixTreeNode.mark, Mark.free, Mark.locked, hsome, hzero, hzero'] using hrest'

theorem Sound.of_snapshots {kv kv' : RadixPrefixCache} {e p : Int} (hkv : kv'.WellFormed hs)
    (hsame : kv'.tree.marks = kv.tree.marks ∧
      ∀ y ∈ kv'.tree.tips, ∃ x ∈ kv.tree.tips, y.uuid = x.uuid ∧ y.mambaValue = x.mambaValue)
    (htally : Tally kv.tree.marks hs e p) (htips : ∀ y ∈ kv.tree.tips, y.mambaValue.isSome) :
    Sound { kv := kv', mambaEvictable := e, mambaProtected := p } hs where
  kv := hkv
  tally := by
    simp only [tree, hsame.1]
    exact htally
  tips := by
    intro y hy
    obtain ⟨x, hx, -, hvalue⟩ := hsame.2 y hy
    rw [hvalue]
    exact Or.inl (htips x hx)

theorem Sound.tips_modify (h : c.Sound hs) {u : Nat} {g : RadixTreeNode → RadixTreeNode}
    (hg : ∀ d, (g d).mambaValue = d.mambaValue) :
    ∀ y ∈ (c.tree.modify u g).tips, y.mambaValue.isSome := by
  intro y hy
  obtain ⟨x, hx, ⟨-, rfl⟩ | ⟨-, rfl⟩⟩ := Forest.tips_modify h.kv.nodup hy
  · exact h.tip hx
  · rw [hg]
    exact h.tip hx

/-- A snapshot's node takes the lock on both sides. -/
theorem Sound.incLock (h : c.Sound hs) {node : Option Nat}
    (hnode : ∀ u, node = some u → ∃ x ∈ c.tree.marks, x.uuid = u ∧ x.mambaValue.isSome) :
    (c.incLock node).Sound (lockOf node :: hs) := by
  rcases node with _ | u
  · refine ⟨(RadixPrefixCache.lock_spec h.kv (h := lockOf none) (by simp [lockOf])).1, ?_, h.tips⟩
    exact h.tally.held_congr fun x _ => by simp [holdersAt_cons, lockOf]
  · obtain ⟨x, hx, huuid, hsome⟩ := hnode u rfl
    obtain ⟨a, d, ha, rfl⟩ := Forest.exists_path_of_mark h.kv.nodup hx
    rw [huuid] at ha
    have hsome' : d.mambaValue.isSome := hsome
    have hplain := Forest.plain_modify (u := u) (onSnapshot_count (· + 1)) c.tree
    have hmem : ∀ v, (lockOf (some u)).node = some v →
        v ∈ (c.tree.modify u fun d => { d with mambaRefCount := d.mambaRefCount + 1 }).uuids := by
      rintro v ⟨⟩
      rw [← Forest.uuids_plain, hplain, Forest.uuids_plain]
      exact Forest.mem_uuids_of_path ha
    have hkv := (RadixPrefixCache.lock_spec (h.kv.of_plain hplain) hmem).1
    have htally := h.recount (lockOf (some u) :: hs) (· + 1) ha hsome'
      (by rw [h.mambaRefCount_eq ha]; simp [holdersAt_cons, lockOf])
      (fun v hv => by simp [holdersAt_cons, lockOf, Ne.symm hv])
    have heq := Sound.of_snapshots hkv (snapshots_lock _ _) htally (h.tips_modify fun _ => rfl)
    have hpath := Forest.nodeAt_eq_some.2 ⟨a, ha⟩
    rw [HybridRadixCache.incLock]
    simp only [Option.bind_some, hpath, hsome', if_true, Forest.path_last ha]
    by_cases hzero : d.mambaRefCount = 0 <;>
      simpa [hzero, withTree, lockOf, sub_add_cancel] using heq

/-- A lock that is held comes off. -/
theorem SoundBut.decLock {node : Option Nat} (h : c.Sound (lockOf node :: hs)) :
    ∃ c', c.decLock node = some c' ∧ c'.Sound hs := by
  rcases node with _ | u
  · refine ⟨c, rfl, ?_, h.tally.held_congr fun x _ => by simp [holdersAt_cons, lockOf], h.tips⟩
    obtain ⟨kv, hkv, hw, -⟩ := RadixPrefixCache.unlock_spec h.kv
    obtain rfl : c.kv = kv := by simpa [RadixPrefixCache.unlock, lockOf] using hkv
    exact hw
  · obtain ⟨d, hat⟩ := Forest.exists_nodeAt (h.kv.held _ List.mem_cons_self u rfl)
    obtain ⟨a, ha⟩ := Forest.nodeAt_eq_some.1 hat
    have hheld : holdersAt (lockOf (some u) :: hs) u = holdersAt hs u + 1 := by
      simp [holdersAt_cons, lockOf]
    have hcount := (h.mambaRefCount_eq ha).trans hheld
    have hsome : d.mambaValue.isSome := h.tally.live _ (Forest.mem_marks_of_path ha) (by
      simp only [RadixTreeNode.mark]
      omega)
    have hplain := Forest.plain_modify (u := u) (onSnapshot_count (· - 1)) c.tree
    obtain ⟨kv, hkv, hw, -⟩ := RadixPrefixCache.unlock_spec (h.kv.of_plain hplain)
    have htally := h.recount hs (· - 1) ha hsome
      (by rw [hcount]; rfl)
      (fun v hv => by simp [holdersAt_cons, lockOf, Ne.symm hv])
    refine ⟨_, ?_, Sound.of_snapshots hw (snapshots_unlock hkv) htally (h.tips_modify fun _ => rfl)⟩
    rw [HybridRadixCache.decLock]
    have hpos : 0 < d.mambaRefCount := by omega
    simp only [Option.bind_some, hat, hsome, hpos, and_self, if_true, Forest.path_last ha]
    have hone : d.mambaRefCount - 1 = 0 ↔ d.mambaRefCount = 1 := by omega
    rw [lockOf] at hkv
    by_cases hlast : d.mambaRefCount = 1 <;>
      simp [hlast, hone, hpos.ne', withTree, hkv]

end HybridRadixCache

end FreeToken
