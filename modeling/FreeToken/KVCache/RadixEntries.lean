import FreeToken.KVCache.RadixCache

/-!
# What a radix tree stores

A tree stands for the token prefixes it holds, each with the slot of its last
token (`entries`). `Valid` is the shape the operations keep: spans are whole
pages, as many slots as tokens, and siblings start with different pages.
`RefOk held` says that a node's reference count is the number of lock holders at
the node or below it. Handles are read through `span`, the tokens and slots from
the root down to a node.
-/

namespace FreeToken

/-- The prefixes of one node's key with the slots of their last tokens. -/
@[grind =]
def spanEntries : List Token → List Slot → List (List Token × Slot)
  | k :: ks, v :: vs => ([k], v) :: (spanEntries ks vs).map (fun x => (k :: x.1, x.2))
  | _, _ => []

/-- Put a path in front of every entry. -/
def below (pre : List Token) (xs : List (List Token × Slot)) : List (List Token × Slot) :=
  xs.map fun x => (pre ++ x.1, x.2)

@[simp] theorem below_nil_prefix (xs : List (List Token × Slot)) : below [] xs = xs := by
  simp [below]

@[simp] theorem below_nil (pre : List Token) : below pre [] = [] := rfl

theorem below_append (pre : List Token) (xs ys : List (List Token × Slot)) :
    below pre (xs ++ ys) = below pre xs ++ below pre ys := by
  simp [below]

theorem below_below (pre pre' : List Token) (xs : List (List Token × Slot)) :
    below pre (below pre' xs) = below (pre ++ pre') xs := by
  simp [below, Function.comp_def]

@[simp] theorem map_snd_below (pre : List Token) (xs : List (List Token × Slot)) :
    (below pre xs).map Prod.snd = xs.map Prod.snd := by
  simp [below, Function.comp_def]

theorem mem_below {pre q : List Token} {s : Slot} {xs : List (List Token × Slot)} :
    (q, s) ∈ below pre xs ↔ ∃ q', (q', s) ∈ xs ∧ q = pre ++ q' := by
  constructor
  · intro h
    obtain ⟨⟨q', s'⟩, hmem, heq⟩ := List.mem_map.mp h
    cases heq
    exact ⟨q', hmem, rfl⟩
  · rintro ⟨q', hmem, rfl⟩
    exact List.mem_map.mpr ⟨(q', s), hmem, rfl⟩

theorem map_snd_spanEntries :
    ∀ {key : List Token} {value : List Slot}, key.length = value.length →
      (spanEntries key value).map Prod.snd = value
  | [], [], _ => rfl
  | k :: ks, v :: vs, h => by
      have ih := map_snd_spanEntries (show ks.length = vs.length by simpa using h)
      simp [spanEntries, Function.comp_def] at ih ⊢
      exact ih

theorem spanEntries_append :
    ∀ {key : List Token} {value : List Slot} (key' : List Token) (value' : List Slot),
      key.length = value.length →
      spanEntries (key ++ key') (value ++ value') =
        spanEntries key value ++ below key (spanEntries key' value')
  | [], [], key', value', _ => by simp [spanEntries]
  | k :: ks, v :: vs, key', value', h => by
      have ih := spanEntries_append key' value' (show ks.length = vs.length by simpa using h)
      simp [spanEntries, ih, below, Function.comp_def]

theorem mem_spanEntries :
    ∀ {key : List Token} {value : List Slot} {q : List Token} {s : Slot},
      (q, s) ∈ spanEntries key value ↔
        ∃ n, n < key.length ∧ value[n]? = some s ∧ q = key.take (n + 1)
  | [], value, q, s => by simp [spanEntries]
  | k :: ks, [], q, s => by simp [spanEntries]
  | k :: ks, v :: vs, q, s => by
      have ih : ∀ q', (q', s) ∈ spanEntries ks vs ↔
          ∃ n, n < ks.length ∧ vs[n]? = some s ∧ q' = ks.take (n + 1) :=
        fun _ => mem_spanEntries
      simp only [spanEntries, List.mem_cons, List.mem_map, Prod.mk.injEq, Prod.exists]
      constructor
      · rintro (⟨rfl, rfl⟩ | ⟨q', s', hmem, rfl, rfl⟩)
        · exact ⟨0, by simp, by simp, by simp⟩
        · obtain ⟨n, hn, hv, rfl⟩ := (ih q').mp hmem
          exact ⟨n + 1, by simpa using hn, by simpa using hv, by simp⟩
      · rintro ⟨n, hn, hv, rfl⟩
        cases n with
        | zero => left; simpa using hv.symm
        | succ n =>
            right
            exact ⟨ks.take (n + 1), s,
              (ih _).mpr ⟨n, by simpa using hn, by simpa using hv, rfl⟩, by simp, rfl⟩

/-! ### Common prefixes -/

theorem fastCompareKey_le_left : ∀ xs ys : List Token, fastCompareKey xs ys ≤ xs.length
  | [], ys => by simp [fastCompareKey]
  | a :: xs, [] => by simp [fastCompareKey]
  | a :: xs, b :: ys => by
      have ih := fastCompareKey_le_left xs ys
      by_cases h : a = b <;> simp [fastCompareKey, h, ih]

theorem fastCompareKey_le_right : ∀ xs ys : List Token, fastCompareKey xs ys ≤ ys.length
  | [], ys => by simp [fastCompareKey]
  | a :: xs, [] => by simp [fastCompareKey]
  | a :: xs, b :: ys => by
      have ih := fastCompareKey_le_right xs ys
      by_cases h : a = b <;> simp [fastCompareKey, h, ih]

theorem take_fastCompareKey : ∀ (xs ys : List Token) (n : Nat), n ≤ fastCompareKey xs ys →
    xs.take n = ys.take n
  | _, _, 0, _ => by simp
  | [], ys, n + 1, h => by simp [fastCompareKey] at h
  | a :: xs, [], n + 1, h => by simp [fastCompareKey] at h
  | a :: xs, b :: ys, n + 1, h => by
      by_cases hab : a = b
      · have ih := take_fastCompareKey xs ys n (by simpa [fastCompareKey, hab] using h)
        simp [hab, ih]
      · simp [fastCompareKey, hab] at h

theorem le_fastCompareKey : ∀ (q xs ys : List Token), q <+: xs → q <+: ys →
    q.length ≤ fastCompareKey xs ys
  | [], _, _, _, _ => by simp
  | a :: q, xs, ys, hx, hy => by
      obtain ⟨xs', rfl⟩ := hx
      obtain ⟨ys', rfl⟩ := hy
      have ih := le_fastCompareKey q (q ++ xs') (q ++ ys') ⟨xs', rfl⟩ ⟨ys', rfl⟩
      simpa [fastCompareKey] using ih

/-! ### Entries, sizes, names -/

namespace Forest

/-- The stored prefixes and the slots of their last tokens. -/
@[grind =]
def entries : Forest → List (List Token × Slot)
  | nil => []
  | node d cs rest => spanEntries d.key d.value ++ below d.key cs.entries ++ rest.entries

/-- The slots the tree owns. -/
def slots (f : Forest) : List Slot := f.entries.map Prod.snd

@[grind =]
def uuids : Forest → List Nat
  | nil => []
  | node d cs rest => d.uuid :: (cs.uuids ++ rest.uuids)

/-- The total span length of the nodes nobody holds, and of the others. -/
@[grind =]
def evictable : Forest → Nat
  | nil => 0
  | node d cs rest =>
      (if d.refCount = 0 then d.key.length else 0) + cs.evictable + rest.evictable

@[grind =]
def protectedLen : Forest → Nat
  | nil => 0
  | node d cs rest =>
      (if d.refCount = 0 then 0 else d.key.length) + cs.protectedLen + rest.protectedLen

/-- The first pages of the top nodes: the keys of the `children` dict. -/
@[grind =]
def firstPages (pageSize : Nat) : Forest → List (List Token)
  | nil => []
  | node d _ rest => keyFn pageSize d.key :: rest.firstPages pageSize

/-- The reference counts of the top nodes, summed. -/
@[grind =]
def refSum : Forest → Nat
  | nil => 0
  | node d _ rest => d.refCount + rest.refSum

/-- A node's span in tokens and slots, from the root. -/
def span (u : Nat) (f : Forest) : Option (List Token × List Slot) :=
  (f.path u).map fun ds => (ds.flatMap fun d => d.key, ds.flatMap fun d => d.value)

/-- Spans are whole pages, and siblings differ in their first page. -/
@[grind =]
def Valid (pageSize : Nat) : Forest → Prop
  | nil => True
  | node d cs rest =>
      (d.key ≠ [] ∧ pageSize ∣ d.key.length ∧ d.key.length = d.value.length ∧
        keyFn pageSize d.key ∉ rest.firstPages pageSize) ∧
      cs.Valid pageSize ∧ rest.Valid pageSize

/-- Every reference count is the number of holders at the node or below it. -/
@[grind =]
def RefOk (held : Nat → Nat) : Forest → Prop
  | nil => True
  | node d cs rest =>
      d.refCount = held d.uuid + cs.refSum ∧ cs.RefOk held ∧ rest.RefOk held

@[simp] theorem slots_nil : slots nil = [] := rfl

theorem slots_node {ps : Nat} {d : RadixTreeNode} {cs rest : Forest}
    (h : (node d cs rest).Valid ps) :
    (node d cs rest).slots = d.value ++ cs.slots ++ rest.slots := by
  simp [slots, entries, map_snd_spanEntries h.1.2.2.1]

theorem pageSize_le_key {ps : Nat} {d : RadixTreeNode} {cs rest : Forest}
    (h : (node d cs rest).Valid ps) : ps ≤ d.key.length :=
  Nat.le_of_dvd (List.length_pos_of_ne_nil h.1.1) h.1.2.1

theorem ne_nil_of_mem_entries :
    ∀ {f : Forest} {q : List Token} {s : Slot}, (q, s) ∈ f.entries → q ≠ []
  | node d cs rest, q, s, h => by
      simp only [entries, List.mem_append, mem_below, mem_spanEntries] at h
      rcases h with (⟨n, hn, hv, rfl⟩ | ⟨q', h', rfl⟩) | h
      · intro hnil
        have hlen := congrArg List.length hnil
        simp only [List.length_take, List.length_nil] at hlen
        omega
      · have hq' := ne_nil_of_mem_entries h'
        simp [hq']
      · exact ne_nil_of_mem_entries h

theorem keyFn_append {ps : Nat} {key : List Token} (h : ps ≤ key.length) (q : List Token) :
    keyFn ps (key ++ q) = keyFn ps key := by
  simp [keyFn, List.take_append_of_le_length h]

theorem keyFn_take {ps n : Nat} (h : ps ≤ n) (q : List Token) :
    keyFn ps (q.take n) = keyFn ps q := by
  simp [keyFn, List.take_take, Nat.min_eq_left h]

/-- A stored prefix of a page or more starts with the first page of a top node. -/
theorem keyFn_mem_firstPages {ps : Nat} :
    ∀ {f : Forest} {q : List Token} {s : Slot}, f.Valid ps → (q, s) ∈ f.entries →
      ps ≤ q.length → keyFn ps q ∈ f.firstPages ps
  | node d cs rest, q, s, hv, h, hq => by
      simp only [entries, List.mem_append, mem_below, mem_spanEntries] at h
      rcases h with (⟨n, hn, hval, rfl⟩ | ⟨q', h', rfl⟩) | h
      · simp only [List.length_take] at hq
        rw [keyFn_take (by omega)]
        exact List.mem_cons_self
      · rw [keyFn_append (pageSize_le_key hv)]
        exact List.mem_cons_self
      · exact List.mem_cons_of_mem _ (keyFn_mem_firstPages hv.2.2 h hq)

/-- The first page of a top node is itself stored. -/
theorem mem_entries_of_firstPages {ps : Nat} (hps : 0 < ps) :
    ∀ {f : Forest} {k : List Token}, f.Valid ps → k ∈ f.firstPages ps →
      ∃ s, (k, s) ∈ f.entries
  | node d cs rest, k, hv, h => by
      rcases List.mem_cons.mp h with rfl | h
      · have hle := pageSize_le_key hv
        have hval : ps - 1 < d.value.length := by
          have := hv.1.2.2.1
          omega
        refine ⟨d.value[ps - 1], ?_⟩
        simp only [entries, List.mem_append, mem_spanEntries]
        refine Or.inl (Or.inl ⟨ps - 1, by omega, List.getElem?_eq_getElem hval, ?_⟩)
        simp [keyFn, Nat.sub_add_cancel hps]
      · obtain ⟨s, hs⟩ := mem_entries_of_firstPages hps hv.2.2 h
        exact ⟨s, by simp [entries, hs]⟩

/-! ### Paths -/

theorem path_isSome_iff {u : Nat} : ∀ {f : Forest}, (f.path u).isSome ↔ u ∈ f.uuids
  | nil => by simp [path, uuids]
  | node d cs rest => by
      have hcs := path_isSome_iff (u := u) (f := cs)
      have hrest := path_isSome_iff (u := u) (f := rest)
      by_cases hd : d.uuid = u
      · simp [path, uuids, hd]
      · have hd' : ¬ u = d.uuid := fun h => hd h.symm
        cases hp : cs.path u with
        | some ds => simp [path, uuids, hd, hp, hcs.mp (by simp [hp])]
        | none =>
            have hn : u ∉ cs.uuids := fun h => by simpa [hp] using hcs.mpr h
            simp [path, uuids, hd, hd', hp, hn, hrest]

theorem path_eq_none_iff {u : Nat} {f : Forest} : f.path u = none ↔ u ∉ f.uuids := by
  rw [← path_isSome_iff]
  simp

theorem exists_path {u : Nat} {f : Forest} (h : u ∈ f.uuids) : ∃ ds, f.path u = some ds :=
  Option.isSome_iff_exists.mp (path_isSome_iff.2 h)

theorem mem_uuids_of_path {u : Nat} {f : Forest} {ds : List RadixTreeNode}
    (h : f.path u = some ds) : u ∈ f.uuids :=
  path_isSome_iff.1 (by simp [h])

/-- What a handle spans is stored, prefix by prefix. -/
theorem mem_entries_of_path {ps u : Nat} : ∀ {f : Forest} {ds : List RadixTreeNode}, f.Valid ps →
    f.path u = some ds → ∀ j s, (ds.flatMap fun d => d.value)[j]? = some s →
    ((ds.flatMap fun d => d.key).take (j + 1), s) ∈ f.entries
  | node d cs rest, ds, hv, hp, j, s, hs => by
      have hlen := hv.1.2.2.1
      have hspan : ∀ (toks : List Token) (slots : List Slot), (d.value ++ slots)[j]? = some s →
          j < d.key.length → ((d.key ++ toks).take (j + 1), s) ∈ spanEntries d.key d.value := by
        intro toks slots hs hj
        rw [List.getElem?_append_left (by omega)] at hs
        rw [List.take_append_of_le_length (by omega)]
        exact mem_spanEntries.2 ⟨j, hj, hs, rfl⟩
      simp only [path] at hp
      simp only [entries, List.mem_append, mem_below]
      split at hp
      · cases hp
        simp only [List.flatMap_cons, List.flatMap_nil] at hs ⊢
        have hj : j < d.value.length := by
          rw [List.append_nil] at hs
          exact (List.getElem?_eq_some_iff.mp hs).1
        exact Or.inl (Or.inl (hspan [] [] hs (by omega)))
      · split at hp
        · rename_i ds' hcs
          cases hp
          simp only [List.flatMap_cons] at hs ⊢
          by_cases hj : j < d.key.length
          · exact Or.inl (Or.inl (hspan _ _ hs hj))
          · rw [List.getElem?_append_right (by omega)] at hs
            have ih := mem_entries_of_path hv.2.1 hcs (j - d.value.length) s hs
            refine Or.inl (Or.inr ⟨_, ih, ?_⟩)
            rw [List.take_append, List.take_of_length_le (by omega : d.key.length ≤ j + 1)]
            congr 2
            omega
        · exact Or.inr (mem_entries_of_path hv.2.2 hp j s hs)

theorem mem_entries_of_span {ps u : Nat} {f : Forest} {toks : List Token} {slots : List Slot}
    (hv : f.Valid ps) (h : f.span u = some (toks, slots)) {j : Nat} {s : Slot}
    (hs : slots[j]? = some s) : (toks.take (j + 1), s) ∈ f.entries := by
  simp only [span, Option.map_eq_some_iff, Prod.mk.injEq] at h
  obtain ⟨ds, hds, rfl, rfl⟩ := h
  exact mem_entries_of_path hv hds j s hs

theorem path_ne_nil {u : Nat} : ∀ {f : Forest} {ds : List RadixTreeNode},
    f.path u = some ds → ds ≠ []
  | node d cs rest, ds, h => by
      simp only [path] at h
      split at h
      · cases h; simp
      · split at h
        · cases h; simp
        · exact path_ne_nil h

end Forest

end FreeToken
