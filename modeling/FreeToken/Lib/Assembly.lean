import FreeToken.Lib.Dict
import FreeToken.Lib.Except

/-!
# Groups assembled from a stream

Items arrive in any order; each has a place, a slot of a group. A group is assembled when its last
slot is filled. After any items that were taken, a group whose slots are all filled is assembled
from them, and every other group has its items buffered: so the outcome depends on which items came
and not on their order.
-/

namespace FreeToken

/-- `ν` names of items, `γ` groups, `σ` slots, `τ` items, `ε` errors, `β` assembled groups. -/
structure Assembly (ν γ σ τ ε β : Type) where
  place : ν → Except ε (γ × σ)
  required : γ → List σ
  finish : γ → (σ → Option τ) → Except ε β
  /-- The error of an item whose group is assembled. -/
  late : ν → γ → ε
  /-- The error of an item whose slot is filled. -/
  repeated : ν → γ → σ → ε
  place_required : ∀ {name group slot}, place name = .ok (group, slot) → slot ∈ required group
  required_ne_nil : ∀ group, required group ≠ []

namespace Assembly

variable {ν γ σ τ ε β : Type} [DecidableEq γ] [DecidableEq σ]

structure State (γ σ τ β : Type) where
  buf : Dict γ (Dict σ τ)
  finalized : Dict γ β

def State.empty : State γ σ τ β := ⟨Dict.empty, Dict.empty⟩

variable (A : Assembly ν γ σ τ ε β)

/-- The item is set into the slots of its open group; a group with all its slots is assembled. -/
def fill (st : State γ σ τ β) (group : γ) (slots : Dict σ τ) : Except ε (State γ σ τ β) :=
  if (A.required group).all fun s => (slots.get? s).isSome then
    A.finish group slots.get? >>= fun whole =>
      .ok { buf := st.buf.erase group, finalized := st.finalized.set group whole }
  else
    .ok { st with buf := st.buf.set group slots }

/-- One item of the stream. -/
def add (st : State γ σ τ β) (item : ν × τ) : Except ε (State γ σ τ β) :=
  A.place item.1 >>= fun (group, slot) =>
    let slots := (st.buf.get? group).getD Dict.empty
    if (st.finalized.get? group).isSome then .error (A.late item.1 group)
    else if (slots.get? slot).isSome then .error (A.repeated item.1 group slot)
    else A.fill st group (slots.set slot item.2)

def run (items : List (ν × τ)) : Except ε (State γ σ τ β) := items.foldlM A.add State.empty

/-! ### What a stream holds -/

def At (name : ν) (group : γ) (slot : σ) : Prop := A.place name = .ok (group, slot)

instance (name : ν) (group : γ) (slot : σ) : Decidable (A.At name group slot) :=
  decidable_of_iff ((A.place name).toOption = some (group, slot)) toOption_eq_some

/-- The first item that has this place. -/
def lookup (items : List (ν × τ)) (group : γ) (slot : σ) : Option τ :=
  (items.find? fun item => A.At item.1 group slot).map Prod.snd

/-- Every item has a place and no two have the same. -/
structure Distinct (items : List (ν × τ)) : Prop where
  placed : ∀ item ∈ items, ∃ place, A.place item.1 = .ok place
  nodup : (items.map fun item => A.place item.1).Nodup

def Covered (items : List (ν × τ)) (group : γ) : Prop :=
  ∀ slot ∈ A.required group, (A.lookup items group slot).isSome

instance (items : List (ν × τ)) (group : γ) : Decidable (A.Covered items group) :=
  inferInstanceAs (Decidable (∀ slot ∈ A.required group, (A.lookup items group slot).isSome))

variable {A}

omit [DecidableEq γ] [DecidableEq σ] in
theorem distinct_iff {items : List (ν × τ)} : A.Distinct items ↔
    (∀ item ∈ items, (A.place item.1).toOption.isSome) ∧
      (items.map fun item => (A.place item.1).toOption).Nodup := by
  have hsome : ∀ item : ν × τ, (A.place item.1).toOption.isSome ↔ ∃ place, A.place item.1 = .ok place := by
    intro item
    cases A.place item.1 <;> simp [Except.toOption]
  simp only [hsome]
  have hmap : (items.map fun item => (A.place item.1).toOption) =
      (items.map fun item => A.place item.1).map Except.toOption := by
    rw [List.map_map]
    rfl
  constructor
  · intro h
    refine ⟨h.placed, ?_⟩
    rw [hmap]
    apply h.nodup.map_on
    intro x hx y hy hxy
    obtain ⟨item, hmem, rfl⟩ := List.mem_map.mp hx
    obtain ⟨place, hplace⟩ := h.placed item hmem
    rw [hplace] at hxy ⊢
    exact (toOption_eq_some.mp hxy.symm).symm
  · rintro ⟨hplaced, hnodup⟩
    rw [hmap] at hnodup
    exact ⟨hplaced, hnodup.of_map⟩

instance (items : List (ν × τ)) : Decidable (A.Distinct items) := decidable_of_iff _ distinct_iff.symm

theorem lookup_concat (items : List (ν × τ)) (item : ν × τ) (group : γ) (slot : σ) :
    A.lookup (items ++ [item]) group slot = (A.lookup items group slot).or
      (if A.At item.1 group slot then some item.2 else none) := by
  rw [lookup, lookup, List.find?_append, List.find?_singleton, Option.map_or]
  congr 1
  simp only [decide_eq_true_eq]
  split <;> rfl

theorem mem_of_lookup {items : List (ν × τ)} {group : γ} {slot : σ} {t : τ}
    (h : A.lookup items group slot = some t) :
    ∃ item ∈ items, A.At item.1 group slot ∧ item.2 = t := by
  rw [lookup, Option.map_eq_some_iff] at h
  obtain ⟨item, hfind, ht⟩ := h
  have hplace := List.find?_some hfind
  rw [decide_eq_true_eq] at hplace
  exact ⟨item, List.mem_of_find?_eq_some hfind, hplace, ht⟩

theorem lookup_isSome {items : List (ν × τ)} {group : γ} {slot : σ} :
    (A.lookup items group slot).isSome ↔ ∃ item ∈ items, A.At item.1 group slot := by
  rw [lookup, Option.isSome_map, List.find?_isSome]
  simp only [decide_eq_true_eq]

theorem Distinct.lookup_eq_some {items : List (ν × τ)} (h : A.Distinct items) {group : γ}
    {slot : σ} {t : τ} :
    A.lookup items group slot = some t ↔
      ∃ item ∈ items, A.At item.1 group slot ∧ item.2 = t := by
  constructor
  · exact mem_of_lookup
  · rintro ⟨item, hmem, hplace, rfl⟩
    obtain ⟨found, hfound⟩ := Option.isSome_iff_exists.mp (lookup_isSome.mpr ⟨item, hmem, hplace⟩)
    obtain ⟨item', hmem', hplace', rfl⟩ := mem_of_lookup hfound
    have heq : item' = item := List.inj_on_of_nodup_map h.nodup hmem' hmem (hplace'.trans (Eq.symm hplace))
    rw [hfound, heq]

omit [DecidableEq γ] [DecidableEq σ] in
theorem Distinct.perm {items items' : List (ν × τ)} (h : A.Distinct items) (hp : items.Perm items') :
    A.Distinct items' where
  placed item hmem := h.placed item (hp.mem_iff.mpr hmem)
  nodup := (hp.map _).nodup_iff.mp h.nodup

theorem Distinct.lookup_perm {items items' : List (ν × τ)} (h : A.Distinct items)
    (hp : items.Perm items') : A.lookup items = A.lookup items' := by
  funext group slot
  apply Option.ext
  intro t
  rw [h.lookup_eq_some, (h.perm hp).lookup_eq_some]
  simp only [hp.mem_iff]

omit [DecidableEq γ] [DecidableEq σ] in
theorem Distinct.of_append {items more : List (ν × τ)} (h : A.Distinct (items ++ more)) :
    A.Distinct items where
  placed item hmem := h.placed item (List.mem_append_left more hmem)
  nodup := by
    have hn := h.nodup
    rw [List.map_append] at hn
    exact hn.of_append_left

/-- The slots of a covered group stay as they are. -/
theorem Covered.lookup_concat {items : List (ν × τ)} {group : γ} (h : A.Covered items group)
    (item : ν × τ) : A.lookup (items ++ [item]) group = A.lookup items group := by
  funext slot
  rw [Assembly.lookup_concat]
  split
  · next hplace =>
      obtain ⟨t, ht⟩ := Option.isSome_iff_exists.mp (h slot (A.place_required hplace))
      rw [ht]
      rfl
  · exact Option.or_none

/-! ### The state after a stream -/

/-- What the state holds after `items`. -/
structure Holds (A : Assembly ν γ σ τ ε β) (items : List (ν × τ)) (st : State γ σ τ β) : Prop where
  distinct : A.Distinct items
  assembled : ∀ group, A.Covered items group →
    ∃ whole, A.finish group (A.lookup items group) = .ok whole ∧
      st.finalized.get? group = some whole
  buffered : ∀ group, ¬ A.Covered items group →
    st.finalized.get? group = none ∧
      ((st.buf.get? group).getD Dict.empty).get? = A.lookup items group

theorem holds_empty : A.Holds [] State.empty where
  distinct := ⟨fun _ h => absurd h List.not_mem_nil, List.nodup_nil⟩
  assembled group h := by
    obtain ⟨slot, hslot⟩ := List.exists_mem_of_ne_nil _ (A.required_ne_nil group)
    have hnone := h slot hslot
    simp [lookup] at hnone
  buffered group _ := ⟨rfl, rfl⟩

theorem Distinct.concat {items : List (ν × τ)} (h : A.Distinct items) {item : ν × τ} {group : γ}
    {slot : σ} (hplace : A.At item.1 group slot)
    (hfree : A.lookup items group slot = none) : A.Distinct (items ++ [item]) where
  placed := by
    intro item' hmem
    rcases List.mem_append.mp hmem with hold | hnew
    · exact h.placed item' hold
    · cases List.mem_singleton.mp hnew
      exact ⟨_, hplace⟩
  nodup := by
    rw [List.map_append, List.map_singleton]
    apply h.nodup.append (List.nodup_singleton _)
    intro place hold hnew
    rw [List.mem_singleton.mp hnew, List.mem_map] at hold
    obtain ⟨item', hmem', hplace'⟩ := hold
    have hsome := lookup_isSome.mpr ⟨item', hmem', hplace'.trans hplace⟩
    rw [hfree] at hsome
    cases hsome

/-- The other groups are as they were. -/
theorem lookup_concat_other {items : List (ν × τ)} {item : ν × τ} {group other : γ} {slot : σ}
    (hplace : A.At item.1 group slot) (hne : group ≠ other) :
    A.lookup (items ++ [item]) other = A.lookup items other := by
  funext slot'
  rw [lookup_concat, if_neg, Option.or_none]
  intro h
  cases hplace.symm.trans h
  exact hne rfl

theorem lookup_concat_same {items : List (ν × τ)} {item : ν × τ} {group : γ} {slot : σ}
    (hplace : A.At item.1 group slot) (hfree : A.lookup items group slot = none)
    {slots : Dict σ τ} (hslots : slots.get? = A.lookup items group) :
    (slots.set slot item.2).get? = A.lookup (items ++ [item]) group := by
  funext slot'
  rw [Dict.get?_set, lookup_concat, hslots]
  by_cases hs : slot = slot'
  · subst hs
    rw [if_pos rfl, if_pos hplace, hfree]
    rfl
  · rw [if_neg hs, if_neg, Option.or_none]
    intro h
    cases hplace.symm.trans h
    exact hs rfl

theorem holds_finalized {items : List (ν × τ)} {st : State γ σ τ β} (h : A.Holds items st)
    {item : ν × τ} {group : γ} {slot : σ} (hplace : A.At item.1 group slot)
    (hfree : A.lookup items group slot = none) {whole : β}
    (hcov : A.Covered (items ++ [item]) group)
    (hfin : A.finish group (A.lookup (items ++ [item]) group) = .ok whole) :
    A.Holds (items ++ [item])
      { buf := st.buf.erase group, finalized := st.finalized.set group whole } where
  distinct := h.distinct.concat hplace hfree
  assembled other hother := by
    by_cases hne : group = other
    · subst hne
      exact ⟨whole, hfin, by rw [Dict.get?_set, if_pos rfl]⟩
    · rw [Covered, lookup_concat_other hplace hne] at hother
      rw [lookup_concat_other hplace hne, Dict.get?_set, if_neg hne]
      exact h.assembled other hother
  buffered other hother := by
    by_cases hne : group = other
    · subst hne
      exact absurd hcov hother
    · rw [Covered, lookup_concat_other hplace hne] at hother
      rw [lookup_concat_other hplace hne, Dict.get?_set, if_neg hne, Dict.get?_erase, if_neg hne]
      exact h.buffered other hother

theorem holds_buffered {items : List (ν × τ)} {st : State γ σ τ β} (h : A.Holds items st)
    {item : ν × τ} {group : γ} {slot : σ} (hplace : A.At item.1 group slot)
    (hfree : A.lookup items group slot = none) {slots : Dict σ τ}
    (hold : ¬ A.Covered items group) (hcov : ¬ A.Covered (items ++ [item]) group)
    (hslots : slots.get? = A.lookup (items ++ [item]) group) :
    A.Holds (items ++ [item]) { st with buf := st.buf.set group slots } where
  distinct := h.distinct.concat hplace hfree
  assembled other hother := by
    by_cases hne : group = other
    · subst hne
      exact absurd hother hcov
    · rw [Covered, lookup_concat_other hplace hne] at hother
      rw [lookup_concat_other hplace hne]
      exact h.assembled other hother
  buffered other hother := by
    by_cases hne : group = other
    · subst hne
      refine ⟨(h.buffered group hold).1, ?_⟩
      rw [Dict.get?_set, if_pos rfl]
      exact hslots
    · rw [Covered, lookup_concat_other hplace hne] at hother
      rw [lookup_concat_other hplace hne, Dict.get?_set, if_neg hne]
      exact h.buffered other hother

/-- An item whose slot is free is taken, unless it is the last of its group and the group cannot be
assembled. -/
theorem Holds.add_free {items : List (ν × τ)} {st : State γ σ τ β} (h : A.Holds items st)
    {item : ν × τ} {group : γ} {slot : σ} (hplace : A.At item.1 group slot)
    (hfree : A.lookup items group slot = none) :
    (∃ st', A.add st item = .ok st' ∧ A.Holds (items ++ [item]) st') ∨
      (A.Covered (items ++ [item]) group ∧
        ∃ e, A.finish group (A.lookup (items ++ [item]) group) = .error e ∧
          A.add st item = .error e) := by
  have hold : ¬ A.Covered items group := by
    intro hcov
    have hsome := hcov slot (A.place_required hplace)
    rw [hfree] at hsome
    cases hsome
  obtain ⟨hnone, hbuf⟩ := h.buffered group hold
  have hslots := lookup_concat_same hplace hfree hbuf
  have hadd : A.add st item =
      A.fill st group (((st.buf.get? group).getD Dict.empty).set slot item.2) := by
    rw [add, show A.place item.1 = .ok (group, slot) from hplace]
    simp [bind, Except.bind, hnone, hbuf, hfree]
  rw [hadd, fill, hslots]
  by_cases hcov : A.Covered (items ++ [item]) group
  · rw [if_pos (List.all_eq_true.mpr hcov)]
    cases hfin : A.finish group (A.lookup (items ++ [item]) group) with
    | error e => exact .inr ⟨hcov, e, rfl, rfl⟩
    | ok whole => exact .inl ⟨_, rfl, holds_finalized h hplace hfree hcov hfin⟩
  · rw [if_neg fun hall => hcov (List.all_eq_true.mp hall)]
    exact .inl ⟨_, rfl, holds_buffered h hplace hfree hold hcov hslots⟩

/-- An item whose slot is filled is refused, before or after its group was assembled. -/
theorem Holds.add_filled {items : List (ν × τ)} {st : State γ σ τ β} (h : A.Holds items st)
    {item : ν × τ} {group : γ} {slot : σ} (hplace : A.At item.1 group slot)
    (hfilled : A.lookup items group slot ≠ none) :
    A.add st item = .error (A.late item.1 group) ∨
      A.add st item = .error (A.repeated item.1 group slot) := by
  rw [add, show A.place item.1 = .ok (group, slot) from hplace]
  by_cases hcov : A.Covered items group
  · obtain ⟨whole, -, hwhole⟩ := h.assembled group hcov
    left
    simp [bind, Except.bind, hwhole]
  · obtain ⟨hnone, hbuf⟩ := h.buffered group hcov
    obtain ⟨t, ht⟩ := Option.ne_none_iff_exists'.mp hfilled
    right
    simp [bind, Except.bind, hnone, hbuf, ht]

theorem run_concat (items : List (ν × τ)) (item : ν × τ) :
    A.run (items ++ [item]) = A.run items >>= fun st => A.add st item := by
  rw [run, List.foldlM_append, run]
  simp only [List.foldlM_cons, List.foldlM_nil, bind_pure]

/-- Why an item is refused. -/
inductive Refused (A : Assembly ν γ σ τ ε β) (items : List (ν × τ)) : ε → Prop where
  | unplaced {item : ν × τ} {e : ε} (mem : item ∈ items) (place : A.place item.1 = .error e) :
      Refused A items e
  | late (name : ν) (group : γ) : Refused A items (A.late name group)
  | repeated (name : ν) (group : γ) (slot : σ) : Refused A items (A.repeated name group slot)
  /-- All slots of a group are filled with items of the stream that do not fit together. -/
  | unfit {group : γ} {slots : σ → Option τ} {e : ε}
      (filled : ∀ slot ∈ A.required group, (slots slot).isSome)
      (came : ∀ slot t, slots slot = some t → ∃ item ∈ items, A.At item.1 group slot ∧ item.2 = t)
      (finish : A.finish group slots = .error e) : Refused A items e

omit [DecidableEq γ] [DecidableEq σ] in
theorem Refused.append {items : List (ν × τ)} {e : ε} (h : A.Refused items e)
    (more : List (ν × τ)) : A.Refused (items ++ more) e := by
  cases h with
  | unplaced mem place => exact .unplaced (List.mem_append_left more mem) place
  | late name group => exact .late name group
  | repeated name group slot => exact .repeated name group slot
  | unfit filled came finish =>
      apply Refused.unfit filled _ finish
      intro slot t ht
      obtain ⟨item, hmem, hitem⟩ := came slot t ht
      exact ⟨item, List.mem_append_left more hmem, hitem⟩

/-- A stream is taken whole, and the state holds it, or one of its items is refused. -/
theorem run_cases (items : List (ν × τ)) :
    (∃ st, A.run items = .ok st ∧ A.Holds items st) ∨
      ∃ e, A.run items = .error e ∧ A.Refused items e := by
  induction items using List.reverseRecOn with
  | nil => exact .inl ⟨State.empty, rfl, holds_empty⟩
  | append_singleton items item ih =>
      rw [run_concat]
      rcases ih with ⟨st, hrun, hst⟩ | ⟨e, hrun, he⟩
      · rw [hrun]
        change (∃ st', A.add st item = .ok st' ∧ _) ∨ ∃ e, A.add st item = .error e ∧ _
        cases hplace : A.place item.1 with
        | error e =>
            refine .inr ⟨e, ?_, .unplaced (List.mem_append_right items List.mem_cons_self) hplace⟩
            rw [add, hplace]
            rfl
        | ok place =>
            obtain ⟨group, slot⟩ := place
            by_cases hfree : A.lookup items group slot = none
            · rcases hst.add_free hplace hfree with hadd | ⟨hcov, e, hfin, hadd⟩
              · exact .inl hadd
              · exact .inr ⟨e, hadd, .unfit hcov (fun _ _ => mem_of_lookup) hfin⟩
            · rcases hst.add_filled hplace hfree with hadd | hadd
              · exact .inr ⟨_, hadd, .late item.1 group⟩
              · exact .inr ⟨_, hadd, .repeated item.1 group slot⟩
      · exact .inr ⟨e, by rw [hrun]; rfl, he.append [item]⟩

theorem run_holds {items : List (ν × τ)} {st : State γ σ τ β} (h : A.run items = .ok st) :
    A.Holds items st := by
  rcases A.run_cases items with ⟨st', hrun, hst⟩ | ⟨e, hrun, -⟩
  · cases hrun.symm.trans h
    exact hst
  · cases hrun.symm.trans h

/-- Each place at most once, and every covered group fits together. -/
def Fits (A : Assembly ν γ σ τ ε β) (items : List (ν × τ)) : Prop :=
  A.Distinct items ∧ ∀ group, A.Covered items group →
    ∃ whole, A.finish group (A.lookup items group) = .ok whole

theorem Fits.perm {items items' : List (ν × τ)} (h : A.Fits items) (hp : items.Perm items') :
    A.Fits items' := by
  refine ⟨h.1.perm hp, ?_⟩
  intro group hcov
  rw [Covered, ← h.1.lookup_perm hp] at hcov
  rw [← h.1.lookup_perm hp]
  exact h.2 group hcov

theorem Fits.of_concat {items : List (ν × τ)} {item : ν × τ} (h : A.Fits (items ++ [item])) :
    A.Fits items := by
  refine ⟨h.1.of_append, ?_⟩
  intro group hcov
  have hsame := hcov.lookup_concat item
  have hcov' : A.Covered (items ++ [item]) group := by
    rw [Covered, hsame]
    exact hcov
  have hfin := h.2 group hcov'
  rwa [hsame] at hfin

theorem Distinct.lookup_last {items : List (ν × τ)} {item : ν × τ}
    (h : A.Distinct (items ++ [item])) {group : γ} {slot : σ} (hplace : A.At item.1 group slot) :
    A.lookup items group slot = none := by
  rw [← Option.not_isSome_iff_eq_none, lookup_isSome]
  rintro ⟨item', hmem, hplace'⟩
  have hn := h.nodup
  rw [List.map_append, List.nodup_append] at hn
  exact hn.2.2 _ (List.mem_map_of_mem hmem) (A.place item.1) (List.mem_singleton.mpr rfl)
    (hplace'.trans (Eq.symm hplace))

/-- A stream is taken whole exactly where it fits, whatever its order. -/
theorem run_isOk_iff {items : List (ν × τ)} : (∃ st, A.run items = .ok st) ↔ A.Fits items := by
  constructor
  · rintro ⟨st, hrun⟩
    have hst := run_holds hrun
    refine ⟨hst.distinct, ?_⟩
    intro group hcov
    obtain ⟨whole, hfin, -⟩ := hst.assembled group hcov
    exact ⟨whole, hfin⟩
  · intro h
    induction items using List.reverseRecOn with
    | nil => exact ⟨State.empty, rfl⟩
    | append_singleton items item ih =>
        obtain ⟨st, hrun⟩ := ih h.of_concat
        obtain ⟨⟨group, slot⟩, hplace⟩ :=
          h.1.placed item (List.mem_append_right items List.mem_cons_self)
        rw [run_concat, hrun]
        rcases (run_holds hrun).add_free hplace (h.1.lookup_last hplace) with
          ⟨st', hadd, -⟩ | ⟨hcov, e, hfin, -⟩
        · exact ⟨st', hadd⟩
        · obtain ⟨whole, hwhole⟩ := h.2 group hcov
          cases hwhole.symm.trans hfin

end Assembly

end FreeToken
