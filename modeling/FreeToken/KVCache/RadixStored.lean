import FreeToken.KVCache.RadixBare
import FreeToken.KVCache.RadixPinned

/-!
# The slots of a stored prefix

`Stored` reads the slots of a token prefix off the span of any node below it. Of a prefix in
whole pages there is one such sequence: the spans that go through its last page share the
node that holds it.
-/

namespace FreeToken

namespace Forest

variable {ps u v : Nat} {f f' : Forest}

/-- The prefix `q` is stored with the slots `s`. -/
def Stored (f : Forest) (q : List Token) (s : List Slot) : Prop :=
  ∃ u toks slots, f.span u = some (toks, slots) ∧ q <+: toks ∧ s = slots.take q.length

theorem path_valid : ∀ {f : Forest} {ds : List RadixTreeNode}, f.Valid ps → f.path u = some ds →
    ∀ d ∈ ds, d.key ≠ [] ∧ ps ∣ d.key.length ∧ d.key.length = d.value.length
  | node d cs rest, ds, hv, hp => by
      rw [path] at hp
      split at hp
      · cases hp
        intro x hx
        obtain rfl := List.mem_singleton.mp hx
        exact ⟨hv.1.1, hv.1.2.1, hv.1.2.2.1⟩
      · cases hcs : path u cs with
        | some e =>
            simp only [hcs, Option.some.injEq] at hp
            subst hp
            intro x hx
            rcases List.mem_cons.mp hx with rfl | hx
            · exact ⟨hv.1.1, hv.1.2.1, hv.1.2.2.1⟩
            · exact path_valid hv.2.1 hcs x hx
        | none =>
            simp only [hcs] at hp
            exact path_valid hv.2.2 hp

theorem length_values : ∀ {ds : List RadixTreeNode},
    (∀ d ∈ ds, d.key.length = d.value.length) →
      (ds.flatMap fun d => d.key).length = (ds.flatMap fun d => d.value).length
  | [], _ => rfl
  | d :: ds, h => by
      rw [List.flatMap_cons, List.flatMap_cons, List.length_append, List.length_append,
        h d List.mem_cons_self, length_values fun x hx => h x (List.mem_cons_of_mem d hx)]

/-- A path through the top node or through a sibling, by its first page. -/
theorem path_node_cases {d : RadixTreeNode} {cs rest : Forest} {ds : List RadixTreeNode}
    (hv : (node d cs rest).Valid ps) (hp : (node d cs rest).path u = some ds) :
    (∃ e, ds = d :: e ∧ (e = [] ∨ cs.path u = some e)) ∨
      rest.path u = some ds ∧ keyFn ps (ds.flatMap fun d => d.key) ≠ keyFn ps d.key := by
  rw [path] at hp
  split at hp
  · cases hp
    exact Or.inl ⟨[], rfl, Or.inl rfl⟩
  · cases hcs : path u cs with
    | some e =>
        simp only [hcs, Option.some.injEq] at hp
        exact Or.inl ⟨e, hp.symm, Or.inr rfl⟩
    | none =>
        simp only [hcs] at hp
        refine Or.inr ⟨hp, fun heq => ?_⟩
        exact hv.1.2.2.2 (heq ▸ keyFn_path hv.2.2 hp)

/-- Two paths along one prefix share the node of its last page. -/
theorem path_common : ∀ {f : Forest} {ds ds' : List RadixTreeNode} {q : List Token}, f.Valid ps →
    f.path u = some ds → f.path v = some ds' → q ≠ [] → ps ∣ q.length →
    q <+: (ds.flatMap fun d => d.key) → q <+: (ds'.flatMap fun d => d.key) →
    ∃ a x b b', ds = a ++ x :: b ∧ ds' = a ++ x :: b' ∧
      (a.flatMap fun d => d.key).length < q.length ∧
      q.length ≤ (a.flatMap fun d => d.key).length + x.key.length
  | node d cs rest, ds, ds', q, hv, hp, hp', hq, hdvd, hpre, hpre' => by
      have hlen : ps ≤ q.length := Nat.le_of_dvd (List.length_pos_of_ne_nil hq) hdvd
      have hpage : ∀ {e : List Token}, q <+: e → keyFn ps e = keyFn ps q := by
        rintro e ⟨t, rfl⟩
        exact keyFn_append hlen t
      have htop : ∀ {e : List RadixTreeNode},
          keyFn ps ((d :: e).flatMap fun d => d.key) = keyFn ps d.key := by
        intro e
        rw [List.flatMap_cons]
        exact keyFn_append (pageSize_le_key hv) _
      rcases path_node_cases hv hp with ⟨e, rfl, he⟩ | ⟨hrest, hne⟩
      · rcases path_node_cases hv hp' with ⟨e', rfl, he'⟩ | ⟨-, hne'⟩
        · by_cases hshort : q.length ≤ d.key.length
          · exact ⟨[], d, e, e', rfl, rfl, List.length_pos_of_ne_nil hq, by simpa using hshort⟩
          · have hshort := Nat.lt_of_not_le hshort
            have hdrop : ∀ {e : List RadixTreeNode}, q <+: ((d :: e).flatMap fun d => d.key) →
                q.drop d.key.length <+: (e.flatMap fun d => d.key) := by
              rintro e ⟨t, ht⟩
              refine ⟨t, ?_⟩
              rw [← List.drop_append_of_le_length (Nat.le_of_lt hshort), ht, List.flatMap_cons,
                List.drop_left]
            have hne : q.drop d.key.length ≠ [] := by
              intro hnil
              have := congrArg List.length hnil
              rw [List.length_drop, List.length_nil] at this
              omega
            have hsome : ∀ {e : List RadixTreeNode} {w : Nat},
                q <+: ((d :: e).flatMap fun d => d.key) → (e = [] ∨ cs.path w = some e) →
                cs.path w = some e := by
              intro e w hpre he
              refine he.resolve_left fun hnil => ?_
              subst hnil
              exact hne (List.prefix_nil.mp (hdrop hpre))
            obtain ⟨a, x, b, b', rfl, rfl, hlt, hle⟩ := path_common hv.2.1 (hsome hpre he)
              (hsome hpre' he') hne
              (by rw [List.length_drop]; exact Nat.dvd_sub hdvd hv.1.2.1) (hdrop hpre) (hdrop hpre')
            rw [List.length_drop] at hlt hle
            refine ⟨d :: a, x, b, b', rfl, rfl, ?_, ?_⟩
            · rw [List.flatMap_cons, List.length_append]
              omega
            · rw [List.flatMap_cons, List.length_append]
              omega
        · exact absurd ((hpage hpre').trans ((hpage hpre).symm.trans htop)) hne'
      · rcases path_node_cases hv hp' with ⟨e', rfl, he'⟩ | ⟨hrest', -⟩
        · exact absurd ((hpage hpre).trans ((hpage hpre').symm.trans htop)) hne
        · exact path_common hv.2.2 hrest hrest' hq hdvd hpre hpre'

/-- A prefix in whole pages is stored with one sequence of slots. -/
theorem Stored.unique {q : List Token} {s s' : List Slot} (hv : f.Valid ps) (hq : q ≠ [])
    (hdvd : ps ∣ q.length) (h : f.Stored q s) (h' : f.Stored q s') : s = s' := by
  obtain ⟨u, toks, slots, hspan, hpre, rfl⟩ := h
  obtain ⟨u', toks', slots', hspan', hpre', rfl⟩ := h'
  simp only [span, Option.map_eq_some_iff, Prod.mk.injEq] at hspan hspan'
  obtain ⟨ds, hds, rfl, rfl⟩ := hspan
  obtain ⟨ds', hds', rfl, rfl⟩ := hspan'
  obtain ⟨a, x, b, b', rfl, rfl, -, hle⟩ := path_common hv hds hds' hq hdvd hpre hpre'
  have hlen : q.length ≤ ((a ++ [x]).flatMap fun d => d.value).length := by
    rw [← length_values, List.flatMap_append, List.length_append]
    · simpa using hle
    · intro d hd
      refine (path_valid hv hds d ?_).2.2
      rw [List.append_cons]
      exact List.mem_append_left b hd
  have htake : ∀ e : List RadixTreeNode, ((a ++ x :: e).flatMap fun d => d.value).take q.length =
      ((a ++ [x]).flatMap fun d => d.value).take q.length := by
    intro e
    rw [List.append_cons, List.flatMap_append, List.take_append_of_le_length hlen]
  rw [htake b, htake b']

/-! ### Spans of new nodes -/

theorem span_node_of_ne {d : RadixTreeNode} {cs rest : Forest} (hd : d.uuid ≠ u) :
    (node d cs rest).span u =
      ((cs.span u).map fun x => (d.key ++ x.1, d.value ++ x.2)).or (rest.span u) := by
  rw [span, span, span, path_node_ne hd]
  cases cs.path u with
  | some ds => rfl
  | none => simp

theorem span_node_self (d : RadixTreeNode) (cs rest : Forest) :
    (node d cs rest).span d.uuid = some (d.key, d.value) := by
  simp [span, path]

theorem span_eq_none_iff : f.span u = none ↔ u ∉ f.uuids := by
  rw [span, Option.map_eq_none_iff, path_eq_none_iff]

theorem mem_uuids_of_span {x : List Token × List Slot} (h : f.span u = some x) : u ∈ f.uuids := by
  by_contra hno
  rw [span_eq_none_iff.mpr hno] at h
  cases h

theorem span_snoc_new {new : RadixTreeNode} : ∀ {f : Forest}, new.uuid ∉ f.uuids →
    (f.snoc new).span new.uuid = some (new.key, new.value)
  | nil, _ => span_node_self new nil nil
  | node d cs rest, h => by
      simp only [uuids, List.mem_cons, List.mem_append, not_or] at h
      rw [snoc, span_node_of_ne (Ne.symm h.1), span_eq_none_iff.mpr h.2.1, span_snoc_new h.2.2]
      rfl

theorem span_attach_new {new : RadixTreeNode} : ∀ {f : Forest} {toks : List Token}
    {slots : List Slot}, new.uuid ∉ f.uuids → f.uuids.Nodup → f.span u = some (toks, slots) →
    (attach u new f).span new.uuid = some (toks ++ new.key, slots ++ new.value)
  | node d cs rest, toks, slots, hnew, hn, h => by
      simp only [uuids, List.mem_cons, List.mem_append, not_or] at hnew
      obtain ⟨hdn, hn⟩ := List.nodup_cons.mp hn
      obtain ⟨hncs, hnrest, hdisj⟩ := List.nodup_append'.mp hn
      rw [attach]
      split
      · next hd =>
          subst hd
          rw [span_node_self] at h
          cases h
          rw [span_node_of_ne (Ne.symm hnew.1), span_snoc_new hnew.2.1]
          rfl
      · next hd =>
          rw [span_node_of_ne (Ne.symm hnew.1)]
          rw [span_node_of_ne hd] at h
          cases hcs : cs.span u with
          | some x =>
              rw [hcs] at h
              cases h
              rw [span_attach_new hnew.2.1 hncs hcs]
              simp [List.append_assoc]
          | none =>
              rw [hcs] at h
              rw [attach_of_notMem (span_eq_none_iff.mp hcs), span_eq_none_iff.mpr hnew.2.1]
              exact span_attach_new hnew.2.2 hnrest h

/-- The upper half of a split spans the beginning of what the node spanned. -/
theorem exists_span_of_resplit {x : List Token × List Slot} (h : Resplit ps u f f')
    (hu : u ∉ f.uuids) (hv : f.Valid ps) (hn : f.uuids.Nodup) (hspan : f'.span u = some x) :
    ∃ v y, f.span v = some y ∧ x.1 <+: y.1 ∧ x.2 = y.2.take x.1.length := by
  induction h generalizing x with
  | same f => exact absurd (mem_uuids_of_span hspan) hu
  | split d cs rest pos tic hpos hdvd hlt =>
      have hself := span_node_self (d.upper u pos tic) (node (d.lower pos) cs nil) rest
      rw [show (d.upper u pos tic).uuid = u from rfl, hspan] at hself
      cases hself
      refine ⟨d.uuid, _, span_node_self d cs rest, List.take_prefix pos d.key, ?_⟩
      rw [RadixTreeNode.upper, List.length_take, Nat.min_eq_left hlt.le]
  | child d tic rest h ih =>
      simp only [uuids, List.mem_cons, List.mem_append, not_or] at hu
      obtain ⟨hdn, hn⟩ := List.nodup_cons.mp hn
      obtain ⟨hncs, hnrest, hdisj⟩ := List.nodup_append'.mp hn
      rw [span_node_of_ne (d := { d with timestamp := tic }) (Ne.symm hu.1),
        span_eq_none_iff.mpr hu.2.2, Option.or_none, Option.map_eq_some_iff] at hspan
      obtain ⟨x', hx', rfl⟩ := hspan
      obtain ⟨v, y, hy, hpre, htake⟩ := ih hu.2.1 hv.2.1 hncs hx'
      have hdv : d.uuid ≠ v := by
        rintro rfl
        exact hdn (List.mem_append_left _ (mem_uuids_of_span hy))
      refine ⟨v, (d.key ++ y.1, d.value ++ y.2), ?_, (List.prefix_append_right_inj _).mpr hpre, ?_⟩
      · rw [span_node_of_ne hdv, hy]
        rfl
      · rw [htake, List.length_append, hv.1.2.2.1, List.take_length_add_append]
  | sibling d cs h ih =>
      simp only [uuids, List.mem_cons, List.mem_append, not_or] at hu
      obtain ⟨hdn, hn⟩ := List.nodup_cons.mp hn
      obtain ⟨hncs, hnrest, hdisj⟩ := List.nodup_append'.mp hn
      rw [span_node_of_ne (Ne.symm hu.1), span_eq_none_iff.mpr hu.2.1, Option.map_none,
        Option.none_or] at hspan
      obtain ⟨v, y, hy, hpre, htake⟩ := ih hu.2.2 hv.2.2 hnrest hspan
      have hmem := mem_uuids_of_span hy
      have hdv : d.uuid ≠ v := by
        rintro rfl
        exact hdn (List.mem_append_right _ hmem)
      refine ⟨v, y, ?_, hpre, htake⟩
      rw [span_node_of_ne hdv, span_eq_none_iff.mpr fun hcs => hdisj hcs hmem, Option.map_none,
        Option.none_or, hy]

/-- Splitting a node changes nothing that is stored. -/
theorem stored_resplit (h : Resplit ps u f f') (hu : u ∉ f.uuids) (hv : f.Valid ps)
    (hn : f.uuids.Nodup) {q : List Token} {s : List Slot} : f'.Stored q s ↔ f.Stored q s := by
  constructor
  · rintro ⟨v, toks, slots, hspan, hpre, rfl⟩
    by_cases hmem : v ∈ f.uuids
    · exact ⟨v, toks, slots, h.span_eq hu hmem ▸ hspan, hpre, rfl⟩
    · have hvu : v = u := by
        rcases h.uuids_perm with heq | hperm
        · exact absurd (heq ▸ mem_uuids_of_span hspan) hmem
        · exact (List.mem_cons.mp (hperm.mem_iff.mp (mem_uuids_of_span hspan))).resolve_right hmem
      subst hvu
      obtain ⟨w, y, hy, hpre', htake⟩ := exists_span_of_resplit h hu hv hn hspan
      refine ⟨w, y.1, y.2, hy, hpre.trans hpre', ?_⟩
      dsimp only at htake
      rw [htake, List.take_take, Nat.min_eq_left hpre.length_le]
  · rintro ⟨v, toks, slots, hspan, hpre, rfl⟩
    exact ⟨v, toks, slots, (h.span_eq hu (mem_uuids_of_span hspan)).trans hspan, hpre, rfl⟩

/-! ### Taking off a leaf -/

/-- The nodes without children. -/
@[grind =]
def tips : Forest → List RadixTreeNode
  | nil => []
  | node d cs rest => (if cs = nil then [d] else cs.tips) ++ rest.tips

theorem mem_tips_of_leaves : ∀ {f : Forest} {x : RadixTreeNode}, x ∈ f.leaves → x ∈ f.tips
  | node d cs rest, x, h => by
      rw [leaves_node, List.mem_append] at h
      rw [tips, List.mem_append]
      rcases h with h | h
      · left
        split at h
        · next hnil =>
            rw [if_pos hnil]
            split at h
            · exact h
            · exact absurd h List.not_mem_nil
        · next hcs =>
            rw [if_neg hcs]
            exact mem_tips_of_leaves h
      · exact Or.inr (mem_tips_of_leaves h)

theorem mem_uuids_of_tips : ∀ {f : Forest} {x : RadixTreeNode}, x ∈ f.tips → x.uuid ∈ f.uuids
  | node d cs rest, x, h => by
      rw [tips, List.mem_append] at h
      simp only [uuids, List.mem_cons, List.mem_append]
      rcases h with h | h
      · split at h
        · exact Or.inl (congrArg _ (List.mem_singleton.mp h))
        · exact Or.inr (Or.inl (mem_uuids_of_tips h))
      · exact Or.inr (Or.inr (mem_uuids_of_tips h))

/-- Where a childless node is: the node itself, below it, or beside it. -/
theorem tips_cases {x d : RadixTreeNode} {cs rest : Forest} (h : x ∈ (node d cs rest).tips)
    (hn : (node d cs rest).uuids.Nodup) :
    (cs = nil ∧ x = d) ∨ (x ∈ cs.tips ∧ d.uuid ≠ x.uuid ∧ x.uuid ∉ rest.uuids) ∨
      (x ∈ rest.tips ∧ d.uuid ≠ x.uuid ∧ x.uuid ∉ cs.uuids) := by
  obtain ⟨hdn, hn⟩ := List.nodup_cons.mp hn
  rw [List.mem_append, not_or] at hdn
  have hdisj := (List.nodup_append'.mp hn).2.2
  rw [tips, List.mem_append] at h
  rcases h with h | h
  · split at h
    · next hnil => exact Or.inl ⟨hnil, List.mem_singleton.mp h⟩
    · have hmem := mem_uuids_of_tips h
      exact Or.inr (Or.inl ⟨h, fun heq => hdn.1 (heq ▸ hmem), fun hrest => hdisj hmem hrest⟩)
  · have hmem := mem_uuids_of_tips h
    exact Or.inr (Or.inr ⟨h, fun heq => hdn.2 (heq ▸ hmem), fun hcs => hdisj hcs hmem⟩)

/-- Where a path goes: it ends at the top node, goes below it, or beside it. -/
theorem path_cases {d : RadixTreeNode} {cs rest : Forest} {ds : List RadixTreeNode}
    (h : (node d cs rest).path u = some ds) :
    (d.uuid = u ∧ ds = [d]) ∨ (d.uuid ≠ u ∧ ∃ e, cs.path u = some e ∧ ds = d :: e) ∨
      (d.uuid ≠ u ∧ cs.path u = none ∧ rest.path u = some ds) := by
  rw [path] at h
  split at h
  · next hd =>
      cases h
      exact Or.inl ⟨hd, rfl⟩
  · next hd =>
      cases hcs : path u cs with
      | some e =>
          simp only [hcs, Option.some.injEq] at h
          exact Or.inr (Or.inl ⟨hd, e, rfl, h.symm⟩)
      | none =>
          simp only [hcs] at h
          exact Or.inr (Or.inr ⟨hd, rfl, h⟩)

theorem mem_uuids_of_mem_path : ∀ {f : Forest} {ds : List RadixTreeNode} {y : RadixTreeNode},
    f.path u = some ds → y ∈ ds → y.uuid ∈ f.uuids
  | node d cs rest, ds, y, h, hy => by
      simp only [uuids, List.mem_cons, List.mem_append]
      rcases path_cases h with ⟨-, rfl⟩ | ⟨-, e, hcs, rfl⟩ | ⟨-, -, hrest⟩
      · exact Or.inl (congrArg _ (List.mem_singleton.mp hy))
      · rcases List.mem_cons.mp hy with rfl | hy
        · exact Or.inl rfl
        · exact Or.inr (Or.inl (mem_uuids_of_mem_path hcs hy))
      · exact Or.inr (Or.inr (mem_uuids_of_mem_path hrest hy))

theorem path_last : ∀ {f : Forest} {a : List RadixTreeNode} {y : RadixTreeNode},
    f.path u = some (a ++ [y]) → y.uuid = u
  | node d cs rest, a, y, h => by
      rcases path_cases h with ⟨hd, hds⟩ | ⟨-, e, hcs, hds⟩ | ⟨-, -, hrest⟩
      · cases a with
        | nil =>
            rw [List.nil_append, List.cons.injEq] at hds
            exact hds.1 ▸ hd
        | cons z a => simp at hds
      · cases a with
        | nil =>
            rw [List.nil_append, List.cons.injEq] at hds
            exact absurd (hds.2 ▸ hcs) fun hnil => path_ne_nil hnil rfl
        | cons z a =>
            rw [List.cons_append, List.cons.injEq] at hds
            exact path_last (hds.2 ▸ hcs)
      · exact path_last hrest

/-- The path to a node on a path is its beginning. -/
theorem path_of_mem_path : ∀ {f : Forest} {a b : List RadixTreeNode} {y : RadixTreeNode},
    f.uuids.Nodup → f.path u = some (a ++ y :: b) → f.path y.uuid = some (a ++ [y])
  | node d cs rest, a, b, y, hn, h => by
      obtain ⟨hdn, hn'⟩ := List.nodup_cons.mp hn
      obtain ⟨hncs, hnrest, hdisj⟩ := List.nodup_append'.mp hn'
      rw [List.mem_append, not_or] at hdn
      rcases path_cases h with ⟨-, hds⟩ | ⟨-, e, hcs, hds⟩ | ⟨-, -, hrest⟩
      · cases a with
        | nil =>
            rw [List.nil_append, List.cons.injEq] at hds
            rw [hds.1, List.nil_append]
            simp [path]
        | cons z a => simp at hds
      · cases a with
        | nil =>
            rw [List.nil_append, List.cons.injEq] at hds
            rw [hds.1, List.nil_append]
            simp [path]
        | cons z a =>
            rw [List.cons_append, List.cons.injEq] at hds
            have hmem := mem_uuids_of_mem_path hcs
              (hds.2 ▸ List.mem_append_right a List.mem_cons_self : y ∈ e)
            have hd : d.uuid ≠ y.uuid := fun heq => hdn.1 (heq ▸ hmem)
            rw [hds.1]
            simp [path, hd, path_of_mem_path hncs (hds.2 ▸ hcs)]
      · have hmem := mem_uuids_of_mem_path hrest
          (List.mem_append_right a List.mem_cons_self : y ∈ a ++ y :: b)
        have hd : d.uuid ≠ y.uuid := fun heq => hdn.2 (heq ▸ hmem)
        have hcs : y.uuid ∉ cs.uuids := fun hcs => hdisj hcs hmem
        simp [path, hd, path_eq_none_iff.mpr hcs, path_of_mem_path hnrest hrest]

theorem path_tip : ∀ {f : Forest} {x : RadixTreeNode}, x ∈ f.tips → f.uuids.Nodup →
    ∃ a, f.path x.uuid = some (a ++ [x])
  | node d cs rest, x, h, hn => by
      obtain ⟨hncs, hnrest, -⟩ := List.nodup_append'.mp (List.nodup_cons.mp hn).2
      rcases tips_cases h hn with ⟨-, rfl⟩ | ⟨hcs, hd, -⟩ | ⟨hrest, hd, hcs⟩
      · exact ⟨[], by simp [path]⟩
      · obtain ⟨a, ha⟩ := path_tip hcs hncs
        exact ⟨d :: a, by simp [path, hd, ha]⟩
      · obtain ⟨a, ha⟩ := path_tip hrest hnrest
        exact ⟨a, by simp [path, hd, path_eq_none_iff.mpr hcs, ha]⟩

/-- A childless node ends the paths it is on. -/
theorem path_ends : ∀ {f : Forest} {x y : RadixTreeNode} {a b : List RadixTreeNode}, x ∈ f.tips →
    f.uuids.Nodup → f.path u = some (a ++ y :: b) → y.uuid = x.uuid → b = []
  | node d cs rest, x, y, a, b, h, hn, hp, hy => by
      obtain ⟨hdn, hn'⟩ := List.nodup_cons.mp hn
      obtain ⟨hncs, hnrest, hdisj⟩ := List.nodup_append'.mp hn'
      rw [List.mem_append, not_or] at hdn
      have hmemy : y ∈ a ++ y :: b := List.mem_append_right a List.mem_cons_self
      rcases path_cases hp with ⟨-, hds⟩ | ⟨-, e, hcs, hds⟩ | ⟨-, -, hrest⟩
      · cases a with
        | nil =>
            rw [List.nil_append, List.cons.injEq] at hds
            exact hds.2
        | cons z a => simp at hds
      · rcases tips_cases h hn with ⟨rfl, -⟩ | ⟨hx, hd, -⟩ | ⟨hx, hd, hxcs⟩
        · cases hcs
        · cases a with
          | nil =>
              rw [List.nil_append, List.cons.injEq] at hds
              exact absurd (hds.1 ▸ hy) hd
          | cons z a =>
              rw [List.cons_append, List.cons.injEq] at hds
              exact path_ends hx hncs (hds.2 ▸ hcs) hy
        · cases a with
          | nil =>
              rw [List.nil_append, List.cons.injEq] at hds
              exact absurd (hds.1 ▸ hy) hd
          | cons z a =>
              rw [List.cons_append, List.cons.injEq] at hds
              have hmem := mem_uuids_of_mem_path hcs
                (hds.2 ▸ List.mem_append_right a List.mem_cons_self : y ∈ e)
              exact absurd (hy ▸ hmem) hxcs
      · have hmem := mem_uuids_of_mem_path hrest hmemy
        rcases tips_cases h hn with ⟨-, rfl⟩ | ⟨hx, -, hxrest⟩ | ⟨hx, -, -⟩
        · exact absurd (hy ▸ hmem) hdn.2
        · exact absurd (hy ▸ hmem) hxrest
        · exact path_ends hx hnrest hrest hy

/-- Removing a childless node leaves the other paths. -/
theorem path_remove : ∀ {f : Forest} {x : RadixTreeNode}, x ∈ f.tips → f.uuids.Nodup →
    u ≠ x.uuid → (f.remove x.uuid).path u = f.path u
  | node d cs rest, x, h, hn, hu => by
      obtain ⟨hncs, hnrest, -⟩ := List.nodup_append'.mp (List.nodup_cons.mp hn).2
      rcases tips_cases h hn with ⟨rfl, rfl⟩ | ⟨hx, hd, hrest⟩ | ⟨hx, hd, hcs⟩
      · simp [remove, path, Ne.symm hu]
      · simp [remove, path, hd, remove_of_notMem hrest, path_remove hx hncs hu]
      · simp [remove, path, hd, remove_of_notMem hcs, path_remove hx hnrest hu]

theorem uuids_remove : ∀ {f : Forest} {x : RadixTreeNode}, x ∈ f.tips → f.uuids.Nodup →
    f.uuids.Perm (x.uuid :: (f.remove x.uuid).uuids)
  | node d cs rest, x, h, hn => by
      obtain ⟨hncs, hnrest, -⟩ := List.nodup_append'.mp (List.nodup_cons.mp hn).2
      rcases tips_cases h hn with ⟨rfl, rfl⟩ | ⟨hx, hd, hrest⟩ | ⟨hx, hd, hcs⟩
      · simp [remove, uuids]
      · simp only [remove, hd, if_false, remove_of_notMem hrest, uuids]
        exact (((uuids_remove hx hncs).append_right rest.uuids).cons d.uuid).trans
          (List.Perm.swap _ _ _)
      · simp only [remove, hd, if_false, remove_of_notMem hcs, uuids]
        refine (((uuids_remove hx hnrest).append_left cs.uuids).cons d.uuid).trans ?_
        exact (List.perm_middle.cons d.uuid).trans (List.Perm.swap _ _ _)

theorem span_remove {x : RadixTreeNode} (hx : x ∈ f.tips) (hn : f.uuids.Nodup) (hu : u ≠ x.uuid) :
    (f.remove x.uuid).span u = f.span u := by
  rw [span, span, path_remove hx hn hu]

end Forest

end FreeToken
