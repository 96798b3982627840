import Mathlib.Data.List.Basic

/-!
# Finding a tag in a text

`find tag text` is the index of the first occurrence of `tag`. An occurrence stays the
first one when more text follows, so a text can be searched as it arrives.
-/

namespace Find

variable {α : Type} [DecidableEq α] {tag : List α}

/-- The index of the first occurrence. -/
def find (tag : List α) : List α → Option Nat
  | [] => if tag = [] then some 0 else none
  | x :: xs => if tag <+: x :: xs then some 0 else (find tag xs).map (· + 1)

theorem find_eq_some {text : List α} {k : Nat} (h : find tag text = some k) :
    ∃ before after, text = before ++ (tag ++ after) ∧ before.length = k := by
  induction text generalizing k with
  | nil =>
      rw [find] at h
      split at h
      · rename_i hnil
        obtain rfl := Option.some.inj h
        exact ⟨[], [], by simp [hnil], rfl⟩
      · cases h
  | cons x xs ih =>
      rw [find] at h
      split at h
      · rename_i hpre
        obtain rfl := Option.some.inj h
        obtain ⟨after, hafter⟩ := hpre
        exact ⟨[], after, hafter.symm, rfl⟩
      · obtain ⟨j, hj, rfl⟩ := Option.map_eq_some_iff.mp h
        obtain ⟨before, after, hxs, hlen⟩ := ih hj
        exact ⟨x :: before, after, by rw [hxs, List.cons_append], by rw [List.length_cons, hlen]⟩

theorem find_le {text : List α} {k : Nat} (h : find tag text = some k) :
    k + tag.length ≤ text.length := by
  obtain ⟨before, after, rfl, rfl⟩ := find_eq_some h
  simp only [List.length_append]
  omega

/-- What comes after the occurrence is shorter. -/
theorem length_drop_find {text : List α} {k : Nat} (htag : tag ≠ []) (h : find tag text = some k) :
    (text.drop (k + tag.length)).length < text.length := by
  have hle := find_le h
  have hpos := List.length_pos_iff.mpr htag
  rw [List.length_drop]
  omega

/-- More text does not move the first occurrence. -/
theorem find_append {text : List α} {k : Nat} (h : find tag text = some k) (more : List α) :
    find tag (text ++ more) = some k := by
  induction text generalizing k with
  | nil =>
      rw [find] at h
      split at h
      · rename_i hnil
        subst hnil
        rw [← h]
        cases more <;> simp [find]
      · cases h
  | cons x xs ih =>
      rw [List.cons_append, find]
      rw [find] at h
      split at h
      · rename_i hpre
        have hmore : tag <+: x :: (xs ++ more) := hpre.trans (List.prefix_append (x :: xs) more)
        rw [if_pos hmore]
        exact h
      · rename_i hpre
        obtain ⟨j, hj, rfl⟩ := Option.map_eq_some_iff.mp h
        have hle := find_le hj
        -- the tag would lie within the text that was there
        have hmore : ¬ tag <+: x :: (xs ++ more) := fun hmore => by
          rw [← List.cons_append] at hmore
          refine hpre (List.prefix_of_prefix_length_le hmore (List.prefix_append (x :: xs) more) ?_)
          rw [List.length_cons]
          omega
        rw [if_neg hmore, ih hj]
        rfl

/-! ### First occurrences -/

theorem find_eq_none {text : List α} (h : find tag text = none) (j : Nat) :
    j ≤ text.length → ¬ tag <+: text.drop j := by
  induction text generalizing j with
  | nil =>
      intro hj hpre
      obtain rfl := Nat.eq_zero_of_le_zero hj
      rw [List.drop_nil, List.prefix_nil] at hpre
      rw [find, if_pos hpre] at h
      cases h
  | cons x xs ih =>
      intro hj
      rw [find] at h
      split at h
      · cases h
      · rename_i hpre
        cases j with
        | zero => exact hpre
        | succ j =>
            rw [List.drop_succ_cons]
            exact ih (Option.map_eq_none_iff.mp h) j (Nat.le_of_succ_le_succ hj)

theorem prefix_drop_find {text : List α} {k : Nat} (h : find tag text = some k) :
    tag <+: text.drop k := by
  obtain ⟨before, after, rfl, rfl⟩ := find_eq_some h
  rw [List.drop_left]
  exact List.prefix_append tag after

theorem not_prefix_drop_of_lt {text : List α} {k : Nat} (h : find tag text = some k) {j : Nat}
    (hj : j < k) : ¬ tag <+: text.drop j := by
  induction text generalizing j k with
  | nil =>
      rw [find] at h
      split at h
      · obtain rfl := Option.some.inj h
        exact absurd hj (Nat.not_lt_zero j)
      · cases h
  | cons x xs ih =>
      rw [find] at h
      split at h
      · obtain rfl := Option.some.inj h
        exact absurd hj (Nat.not_lt_zero j)
      · rename_i hpre
        obtain ⟨k, hk, rfl⟩ := Option.map_eq_some_iff.mp h
        cases j with
        | zero => exact hpre
        | succ j =>
            rw [List.drop_succ_cons]
            exact ih hk (Nat.lt_of_succ_lt_succ hj)

/-- An occurrence is not before the first one. -/
theorem exists_find_le {text : List α} {k : Nat} (hk : k ≤ text.length) (h : tag <+: text.drop k) :
    ∃ j ≤ k, find tag text = some j := by
  cases hfind : find tag text with
  | none => exact absurd h (find_eq_none hfind k hk)
  | some j =>
      refine ⟨j, ?_, rfl⟩
      by_contra hlt
      exact not_prefix_drop_of_lt hfind (Nat.lt_of_not_le hlt) h

theorem find_eq_some_iff {text : List α} {k : Nat} :
    find tag text = some k ↔
      k ≤ text.length ∧ tag <+: text.drop k ∧ ∀ j < k, ¬ tag <+: text.drop j := by
  constructor
  · intro h
    have hle := find_le h
    exact ⟨by omega, prefix_drop_find h, fun j hj => not_prefix_drop_of_lt h hj⟩
  · rintro ⟨hk, hpre, hfirst⟩
    obtain ⟨j, hj, hfind⟩ := exists_find_le hk hpre
    obtain heq | hlt := Nat.eq_or_lt_of_le hj
    · rw [hfind, heq]
    · exact absurd (prefix_drop_find hfind) (hfirst j hlt)

/-- The start of a text before its first occurrence does not matter. -/
theorem find_drop {text : List α} {k d : Nat} (h : find tag text = some k) (hd : d ≤ k) :
    find tag (text.drop d) = some (k - d) := by
  obtain ⟨hle, hpre, hfirst⟩ := find_eq_some_iff.mp h
  rw [find_eq_some_iff, List.length_drop, List.drop_drop, Nat.add_sub_cancel' hd]
  refine ⟨by omega, hpre, fun j hj => ?_⟩
  rw [List.drop_drop]
  exact hfirst (d + j) (by omega)

/-! ### Occurrences in longer texts -/

section Occurrences

omit [DecidableEq α]

theorem prefix_drop_append {text : List α} {k : Nat} (hk : k ≤ text.length) (h : tag <+: text.drop k)
    (more : List α) : tag <+: (text ++ more).drop k := by
  rw [List.drop_append_of_le_length hk]
  exact h.trans (List.prefix_append _ more)

/-- An occurrence that ends in the text that was there. -/
theorem prefix_drop_of_append {text more : List α} {k : Nat} (hk : k + tag.length ≤ text.length)
    (h : tag <+: (text ++ more).drop k) : tag <+: text.drop k := by
  rw [List.drop_append_of_le_length (by omega)] at h
  apply List.prefix_of_prefix_length_le h (List.prefix_append _ more)
  rw [List.length_drop]
  omega

theorem prefix_drop_left (front : List α) {text : List α} {k : Nat} :
    tag <+: (front ++ text).drop (front.length + k) ↔ tag <+: text.drop k := by
  rw [← List.drop_drop, List.drop_left]

end Occurrences

/-- A first occurrence that ends in the text that was there. -/
theorem find_of_append {text more : List α} {k : Nat} (h : find tag (text ++ more) = some k)
    (hk : k + tag.length ≤ text.length) : find tag text = some k := by
  obtain ⟨-, hpre, hfirst⟩ := find_eq_some_iff.mp h
  apply find_eq_some_iff.mpr
  refine ⟨by omega, prefix_drop_of_append hk hpre, fun j hj hbefore => ?_⟩
  exact hfirst j hj (prefix_drop_append (by omega) hbefore more)

end Find
