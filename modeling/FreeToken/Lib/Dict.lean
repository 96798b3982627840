import Mathlib.Data.List.Nodup
import Mathlib.Data.List.Perm.Subperm
import Mathlib.Data.List.Induction

/-!
# Dictionaries that keep the order of insertion

A key that is set again keeps its place and takes the new value.
-/

namespace FreeToken

/-- `d[key] = value` on a dict kept as its list of items. -/
def dictSet {α β : Type} [DecidableEq α] (key : α) (value : β) : List (α × β) → List (α × β)
  | [] => [(key, value)]
  | (k, v) :: items => if k = key then (k, value) :: items else (k, v) :: dictSet key value items

/-- `d.get(key)`. -/
def dictGet {α β : Type} [DecidableEq α] (key : α) (items : List (α × β)) : Option β :=
  (items.find? fun item => item.1 = key).map Prod.snd

theorem dictGet_dictSet {α β : Type} [DecidableEq α] (key key' : α) (value : β) :
    ∀ items : List (α × β), dictGet key' (dictSet key value items) =
      if key = key' then some value else dictGet key' items
  | [] => by
      by_cases h : key = key' <;> simp [dictSet, dictGet, h]
  | (k, v) :: items => by
      have ih := dictGet_dictSet key key' value items
      simp only [dictGet] at ih ⊢
      by_cases hk : k = key
      · subst hk
        by_cases h : k = key' <;> simp [dictSet, h]
      · by_cases h : k = key'
        · subst h
          simp [dictSet, hk, Ne.symm hk]
        · simp only [dictSet, if_neg hk, List.find?_cons, decide_eq_false h]
          exact ih

theorem mem_of_dictGet {α β : Type} [DecidableEq α] {key : α} {value : β} {items : List (α × β)}
    (h : dictGet key items = some value) : (key, value) ∈ items := by
  obtain ⟨⟨k, v⟩, hfind, rfl⟩ := Option.map_eq_some_iff.mp h
  have hkey : k = key := by simpa using List.find?_some hfind
  exact hkey ▸ List.mem_of_find?_eq_some hfind

theorem mem_dictSet {α β : Type} [DecidableEq α] {key : α} {value : β} {x : α × β} :
    ∀ {items : List (α × β)}, x ∈ dictSet key value items → x ∈ items ∨ x = (key, value)
  | [], hx => Or.inr (List.mem_singleton.mp hx)
  | (k, v) :: items, hx => by
      rw [dictSet] at hx
      split at hx
      · rename_i hk
        rcases List.mem_cons.mp hx with rfl | hx
        · exact Or.inr (by rw [hk])
        · exact Or.inl (List.mem_cons_of_mem _ hx)
      · rcases List.mem_cons.mp hx with rfl | hx
        · exact Or.inl List.mem_cons_self
        · exact (mem_dictSet hx).imp_left (List.mem_cons_of_mem _)

/-- What is in a dict after some settings was there, or was set. -/
theorem mem_foldl_dictSet {α β : Type} [DecidableEq α] {x : α × β} :
    ∀ {entries items : List (α × β)},
      x ∈ entries.foldl (fun d y => dictSet y.1 y.2 d) items → x ∈ items ∨ x ∈ entries
  | [], _, hx => Or.inl hx
  | y :: entries, items, hx => by
      have hx : x ∈ entries.foldl (fun d y => dictSet y.1 y.2 d) (dictSet y.1 y.2 items) := hx
      rcases mem_foldl_dictSet hx with hx | hx
      · rcases mem_dictSet hx with hx | rfl
        · exact Or.inl hx
        · exact Or.inr List.mem_cons_self
      · exact Or.inr (List.mem_cons_of_mem _ hx)

/-- Entries in the order in which their keys came. -/
structure Dict (κ α : Type) where
  entries : List (κ × α)
  nodup : (entries.map Prod.fst).Nodup

namespace Dict

variable {κ α : Type}

def empty : Dict κ α := ⟨[], List.nodup_nil⟩

variable [DecidableEq κ]

def get? (d : Dict κ α) (k : κ) : Option α := dictGet k d.entries

theorem map_fst_dictSet (k : κ) (a : α) (l : List (κ × α)) :
    (dictSet k a l).map Prod.fst =
      if k ∈ l.map Prod.fst then l.map Prod.fst else l.map Prod.fst ++ [k] := by
  induction l with
  | nil => simp [dictSet]
  | cons p l ih =>
      obtain ⟨k', a'⟩ := p
      rw [dictSet]
      by_cases hk : k' = k
      · subst hk
        simp
      · rw [if_neg hk, List.map_cons, ih]
        have hmem : k ∈ List.map Prod.fst ((k', a') :: l) ↔ k ∈ l.map Prod.fst := by
          rw [List.map_cons, List.mem_cons]
          exact or_iff_right (Ne.symm hk)
        by_cases hin : k ∈ l.map Prod.fst
        · rw [if_pos hin, if_pos (hmem.mpr hin)]
          rfl
        · rw [if_neg hin, if_neg (fun h => hin (hmem.mp h))]
          rfl

/-- `d[k] = a`. -/
def set (d : Dict κ α) (k : κ) (a : α) : Dict κ α where
  entries := dictSet k a d.entries
  nodup := by
    rw [map_fst_dictSet]
    split
    · exact d.nodup
    · next hk =>
        apply List.Nodup.append d.nodup (List.nodup_singleton k)
        intro x hx hxk
        cases List.mem_singleton.mp hxk
        exact hk hx

@[simp]
theorem entries_set (d : Dict κ α) (k : κ) (a : α) :
    (d.set k a).entries = dictSet k a d.entries := rfl

theorem get?_set (d : Dict κ α) (k k' : κ) (a : α) :
    (d.set k a).get? k' = if k = k' then some a else d.get? k' := dictGet_dictSet k k' a d.entries

@[simp]
theorem get?_empty (k : κ) : (empty : Dict κ α).get? k = none := rfl

/-- `del d[k]`. -/
def erase (d : Dict κ α) (k : κ) : Dict κ α where
  entries := d.entries.filter fun p => p.1 ≠ k
  nodup := d.nodup.sublist (List.Sublist.map Prod.fst List.filter_sublist)

theorem get?_erase (d : Dict κ α) (k k' : κ) :
    (d.erase k).get? k' = if k = k' then none else d.get? k' := by
  rw [get?, dictGet, erase, List.find?_filter]
  by_cases hk : k = k'
  · subst hk
    rw [if_pos rfl, Option.map_eq_none_iff, List.find?_eq_none]
    simp
  · rw [if_neg hk, get?, dictGet]
    congr 2
    funext p
    by_cases hp : p.1 = k'
    · simp [hp, Ne.symm hk]
    · simp [hp]

theorem get?_isSome {d : Dict κ α} {k : κ} : (d.get? k).isSome ↔ k ∈ d.entries.map Prod.fst := by
  rw [get?, dictGet, Option.isSome_map, List.find?_isSome, List.mem_map]
  simp only [decide_eq_true_eq]

/-- `n` keys below `n` are all of them. -/
theorem isSome_of_length {d : Dict Nat α} {n k : Nat} (hlt : ∀ k a, d.get? k = some a → k < n)
    (hlen : n ≤ d.entries.length) (hk : k < n) : (d.get? k).isSome := by
  have hsub : d.entries.map Prod.fst ⊆ List.range n := by
    intro k' hk'
    obtain ⟨a, ha⟩ := Option.isSome_iff_exists.mp (get?_isSome.mpr hk')
    exact List.mem_range.mpr (hlt k' a ha)
  have hperm : (d.entries.map Prod.fst).Perm (List.range n) := by
    apply (List.subperm_of_subset d.nodup hsub).perm_of_length_le
    rw [List.length_range, List.length_map]
    exact hlen
  exact get?_isSome.mpr (hperm.mem_iff.mpr (List.mem_range.mpr hk))

/-- A dict that has all keys below `n` has at least `n` entries. -/
theorem length_of_isSome {d : Dict Nat α} {n : Nat} (h : ∀ k, k < n → (d.get? k).isSome) :
    n ≤ d.entries.length := by
  have hsub : List.range n ⊆ d.entries.map Prod.fst := by
    intro k hk
    exact get?_isSome.mp (h k (List.mem_range.mp hk))
  have hlen := (List.subperm_of_subset List.nodup_range hsub).length_le
  rwa [List.length_range, List.length_map] at hlen

/-- The pairs, set one after the other. -/
def ofPairs (l : List (κ × α)) : Dict κ α := l.foldl (fun d p => d.set p.1 p.2) empty

theorem ofPairs_concat (l : List (κ × α)) (p : κ × α) :
    ofPairs (l ++ [p]) = (ofPairs l).set p.1 p.2 := by
  rw [ofPairs, List.foldl_append]
  rfl

/-- The last value of a key counts. -/
theorem get?_ofPairs (l : List (κ × α)) (k : κ) : (ofPairs l).get? k = dictGet k l.reverse := by
  induction l using List.reverseRecOn with
  | nil => rfl
  | append_singleton l p ih =>
      obtain ⟨k', a⟩ := p
      rw [ofPairs_concat, get?, entries_set, dictGet_dictSet, List.reverse_append, List.reverse_singleton,
        List.singleton_append]
      by_cases hk : k' = k
      · rw [if_pos hk]
        simp [dictGet, hk]
      · rw [if_neg hk]
        rw [get?] at ih
        rw [ih]
        simp [dictGet, hk]

theorem dictSet_of_not_mem {k : κ} {a : α} {l : List (κ × α)} (h : k ∉ l.map Prod.fst) :
    dictSet k a l = l ++ [(k, a)] := by
  induction l with
  | nil => rfl
  | cons p l ih =>
      obtain ⟨k', a'⟩ := p
      rw [List.map_cons, List.mem_cons, not_or] at h
      rw [dictSet, if_neg (Ne.symm h.1), ih h.2]
      rfl

/-- The value of a key is that of its last pair. -/
theorem get?_ofPairs_eq_some_iff {l : List (κ × α)} {k : κ} {a : α} :
    (ofPairs l).get? k = some a ↔
      ∃ before after, l = before ++ (k, a) :: after ∧ ∀ p ∈ after, p.1 ≠ k := by
  rw [get?_ofPairs, dictGet, Option.map_eq_some_iff]
  constructor
  · rintro ⟨⟨k', a⟩, hfind, rfl⟩
    obtain ⟨hk, after, before, hsplit, hno⟩ := List.find?_eq_some_iff_append.mp hfind
    obtain rfl : k' = k := of_decide_eq_true hk
    refine ⟨before.reverse, after.reverse, ?_, fun p hp => ?_⟩
    · rw [← List.reverse_reverse l, hsplit]
      simp
    · have := hno p (List.mem_reverse.mp hp)
      simpa using this
  · rintro ⟨before, after, rfl, hno⟩
    refine ⟨(k, a), List.find?_eq_some_iff_append.mpr ⟨by simp, after.reverse, before.reverse,
      by simp, fun p hp => ?_⟩, rfl⟩
    simpa using hno p (List.mem_reverse.mp hp)

/-- Distinct keys stay in their order. -/
theorem entries_ofPairs {l : List (κ × α)} (h : (l.map Prod.fst).Nodup) :
    (ofPairs l).entries = l := by
  induction l using List.reverseRecOn with
  | nil => rfl
  | append_singleton l p ih =>
      rw [List.map_append, List.nodup_append] at h
      have hnew : p.1 ∉ l.map Prod.fst := fun hin =>
        h.2.2 p.1 hin p.1 (List.mem_singleton.mpr rfl) rfl
      rw [ofPairs_concat, entries_set, ih h.1]
      exact dictSet_of_not_mem hnew

end Dict

end FreeToken
