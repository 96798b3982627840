import FreeToken.Lib.Find
import Mathlib.Data.List.Infix

/-!
# Spans between two markers

The spans of a text go from an opening marker to the first closing marker behind it, one after the
other. Cutting each span out and searching the joined text again finds the same spans as long as no
opening marker joins around a cut that is closed behind it.
-/

namespace Spans

open Find

variable {α : Type} [DecidableEq α]

/-- Two markers whose occurrences do not overlap, and the first of them not itself. -/
structure Markers (α : Type) where
  opener : List α
  closer : List α
  opener_ne : opener ≠ []
  unbordered : ∀ i < opener.length, 0 < i → ¬ opener.drop i <+: opener
  opener_closer : ∀ i < opener.length, ¬ opener.drop i <+: closer ∧ ¬ closer <+: opener.drop i
  closer_opener : ∀ i < closer.length, ¬ closer.drop i <+: opener ∧ ¬ opener <+: closer.drop i

/-- A text around a span. -/
structure Span (α : Type) where
  before : List α
  inside : List α
  after : List α
deriving DecidableEq

namespace Markers

variable (m : Markers α)

/-- The first opening marker and the first closing marker behind it. -/
def next (text : List α) : Option (Span α) :=
  match find m.opener text with
  | none => none
  | some start =>
      let rest := text.drop (start + m.opener.length)
      match find m.closer rest with
      | none => none
      | some stop => some ⟨text.take start, rest.take stop, rest.drop (stop + m.closer.length)⟩

variable {m} {text : List α} {s : Span α}

theorem next_of_find_none (h : find m.opener text = none) : m.next text = none := by
  rw [next, h]

theorem next_of_find {start : Nat} (h : find m.opener text = some start) :
    m.next text = (find m.closer (text.drop (start + m.opener.length))).map fun stop =>
      ⟨text.take start, (text.drop (start + m.opener.length)).take stop,
        (text.drop (start + m.opener.length)).drop (stop + m.closer.length)⟩ := by
  rw [next, h]
  cases hstop : find m.closer (text.drop (start + m.opener.length)) with
  | none => simp only [hstop, Option.map_none]
  | some stop => simp only [hstop, Option.map_some]

/-- Where the next span lies. -/
theorem next_eq_some_iff : m.next text = some s ↔
    text = s.before ++ (m.opener ++ (s.inside ++ (m.closer ++ s.after))) ∧
      find m.opener text = some s.before.length ∧
      find m.closer (s.inside ++ (m.closer ++ s.after)) = some s.inside.length := by
  constructor
  · intro h
    cases hstart : find m.opener text with
    | none =>
        rw [next_of_find_none hstart] at h
        cases h
    | some start =>
        rw [next_of_find hstart] at h
        obtain ⟨stop, hstop, rfl⟩ := Option.map_eq_some_iff.mp h
        obtain ⟨before, rest, rfl, rfl⟩ := find_eq_some hstart
        have hrest : (before ++ (m.opener ++ rest)).drop (before.length + m.opener.length) = rest := by
          rw [← List.drop_drop, List.drop_left, List.drop_left]
        rw [hrest] at hstop ⊢
        obtain ⟨inside, after, rfl, rfl⟩ := find_eq_some hstop
        have hafter : (inside ++ (m.closer ++ after)).drop (inside.length + m.closer.length) =
            after := by
          rw [← List.drop_drop, List.drop_left, List.drop_left]
        simp only [List.take_left, hafter]
        exact ⟨trivial, trivial, hstop⟩
  · rintro ⟨htext, hstart, hstop⟩
    have hrest : text.drop (s.before.length + m.opener.length) =
        s.inside ++ (m.closer ++ s.after) := by
      rw [htext, ← List.drop_drop, List.drop_left, List.drop_left]
    rw [next_of_find hstart, hrest, hstop, Option.map_some]
    congr 1
    have hafter : (s.inside ++ (m.closer ++ s.after)).drop (s.inside.length + m.closer.length) =
        s.after := by
      rw [← List.drop_drop, List.drop_left, List.drop_left]
    rw [hafter, List.take_left, htext, List.take_left]

theorem length_next (h : m.next text = some s) :
    text.length = s.before.length + m.opener.length + s.inside.length + m.closer.length +
      s.after.length := by
  rw [(next_eq_some_iff.mp h).1]
  simp only [List.length_append]
  omega

omit [DecidableEq α] in
theorem opener_pos (m : Markers α) : 0 < m.opener.length := List.length_pos_iff.mpr m.opener_ne

theorem length_after (h : m.next text = some s) : s.after.length < text.length := by
  have hlength := length_next h
  have hpos := m.opener_pos
  omega

theorem length_cut (h : m.next text = some s) : (s.before ++ s.after).length < text.length := by
  have hlength := length_next h
  have hpos := m.opener_pos
  rw [List.length_append]
  omega

variable (m)

/-- The insides of the spans of a text. -/
def spans (text : List α) : List (List α) :=
  match _h : m.next text with
  | none => []
  | some s => s.inside :: spans s.after
termination_by text.length
decreasing_by exact length_after _h

/-- What is found when each span is cut out and the joined text is searched again. -/
def erase (text : List α) : List (List α) :=
  match _h : m.next text with
  | none => []
  | some s => s.inside :: erase (s.before ++ s.after)
termination_by text.length
decreasing_by exact length_cut _h

/-- The text in front of each span, joined, and the text behind the last. -/
def remains (text : List α) : List α × List α :=
  match _h : m.next text with
  | none => ([], text)
  | some s => (s.before ++ (remains s.after).1, (remains s.after).2)
termination_by text.length
decreasing_by all_goals exact length_after _h

/-- Cutting out the spans leaves no opening marker in front of the last, and no span. -/
def Separate (text : List α) : Prop :=
  ¬ m.opener <:+: (m.remains text).1 ∧ m.next ((m.remains text).1 ++ (m.remains text).2) = none

instance (text : List α) : Decidable (m.Separate text) :=
  inferInstanceAs (Decidable (¬ _ ∧ _))

variable {m}

theorem spans_none (h : m.next text = none) : m.spans text = [] := by
  rw [spans]
  split
  · rfl
  · rename_i hsome
    rw [h] at hsome
    cases hsome

theorem spans_some (h : m.next text = some s) : m.spans text = s.inside :: m.spans s.after := by
  rw [spans]
  split
  · rename_i hnone
    rw [h] at hnone
    cases hnone
  · rename_i s' hsome
    rw [h] at hsome
    obtain rfl := Option.some.inj hsome
    rfl

theorem erase_none (h : m.next text = none) : m.erase text = [] := by
  rw [erase]
  split
  · rfl
  · rename_i hsome
    rw [h] at hsome
    cases hsome

theorem erase_some (h : m.next text = some s) :
    m.erase text = s.inside :: m.erase (s.before ++ s.after) := by
  rw [erase]
  split
  · rename_i hnone
    rw [h] at hnone
    cases hnone
  · rename_i s' hsome
    rw [h] at hsome
    obtain rfl := Option.some.inj hsome
    rfl

theorem remains_none (h : m.next text = none) : m.remains text = ([], text) := by
  rw [remains]
  split
  · rfl
  · rename_i hsome
    rw [h] at hsome
    cases hsome

theorem remains_some (h : m.next text = some s) :
    m.remains text = (s.before ++ (m.remains s.after).1, (m.remains s.after).2) := by
  rw [remains]
  split
  · rename_i hnone
    rw [h] at hnone
    cases hnone
  · rename_i s' hsome
    rw [h] at hsome
    obtain rfl := Option.some.inj hsome
    rfl

/-- Induction along the spans of a text. -/
theorem next_induction {motive : List α → Prop} (none : ∀ text, m.next text = none → motive text)
    (some : ∀ text s, m.next text = some s → motive s.after → motive text) (text : List α) :
    motive text := by
  cases h : m.next text with
  | none => exact none text h
  | some s => exact some text s h (next_induction none some s.after)
termination_by text.length
decreasing_by exact length_after h

/-! ### A text in front -/

omit [DecidableEq α] in
/-- Occurrences that overlap agree where they do. -/
theorem prefix_of_overlap {a b l : List α} {x i : Nat} (ha : a <+: l.drop x) (hb : b <+: l.drop (x + i)) :
    a.drop i <+: b ∨ b <+: a.drop i := by
  rw [← List.drop_drop] at hb
  exact List.prefix_or_prefix_of_prefix (ha.drop i) hb

omit [DecidableEq α] in
/-- An opening and a closing marker of one text do not overlap. -/
theorem apart {x y : Nat} (hx : m.opener <+: text.drop x) (hy : m.closer <+: text.drop y) :
    x + m.opener.length ≤ y ∨ y + m.closer.length ≤ x := by
  by_contra hnot
  rw [not_or, Nat.not_le, Nat.not_le] at hnot
  obtain ⟨hxy, hyx⟩ := hnot
  obtain hle | hlt := (Nat.lt_or_ge y x).symm
  · obtain ⟨i, rfl⟩ := Nat.exists_eq_add_of_le hle
    have hi : i < m.opener.length := by omega
    obtain h | h := prefix_of_overlap hx hy
    · exact (m.opener_closer i hi).1 h
    · exact (m.opener_closer i hi).2 h
  · obtain ⟨i, rfl⟩ := Nat.exists_eq_add_of_le (Nat.le_of_lt hlt)
    have hi : i < m.closer.length := by omega
    obtain h | h := prefix_of_overlap hy hx
    · exact (m.closer_opener i hi).1 h
    · exact (m.closer_opener i hi).2 h

/-- The start of the text before its next span does not matter. -/
theorem next_drop (h : m.next text = some s) {d : Nat} (hd : d ≤ s.before.length) :
    m.next (text.drop d) = some { s with before := s.before.drop d } := by
  obtain ⟨htext, hopener, hcloser⟩ := next_eq_some_iff.mp h
  apply next_eq_some_iff.mpr
  refine ⟨?_, ?_, hcloser⟩
  · rw [htext, List.drop_append_of_le_length hd]
  · rw [find_drop hopener hd, List.length_drop]

/-- More text behind a span goes behind it. -/
theorem next_append_right (h : m.next text = some s) (more : List α) :
    m.next (text ++ more) = some { s with after := s.after ++ more } := by
  obtain ⟨htext, hopener, hcloser⟩ := next_eq_some_iff.mp h
  apply next_eq_some_iff.mpr
  refine ⟨?_, find_append hopener more, ?_⟩
  · conv_lhs => rw [htext]
    simp only [List.append_assoc]
  · have hmore := find_append hcloser more
    simpa only [List.append_assoc] using hmore

/-- A span that ends in the text that was there. -/
theorem next_of_append {more : List α} (h : m.next (text ++ more) = some s)
    (hle : more.length ≤ s.after.length) : ∃ s', m.next text = some s' := by
  obtain ⟨-, hopener, hcloser⟩ := next_eq_some_iff.mp h
  have hlength := length_next h
  rw [List.length_append] at hlength
  have hin : find m.opener text = some s.before.length := find_of_append hopener (by omega)
  have hrest : (text ++ more).drop (s.before.length + m.opener.length) =
      text.drop (s.before.length + m.opener.length) ++ more :=
    List.drop_append_of_le_length (by omega)
  rw [next_of_find hopener, hrest] at h
  obtain ⟨stop, hstop, hs⟩ := Option.map_eq_some_iff.mp h
  have hinside : s.inside.length = stop := by
    have hle := find_le hstop
    rw [← hs, List.length_take]
    omega
  have hclosed : find m.closer (text.drop (s.before.length + m.opener.length)) = some stop := by
    apply find_of_append hstop
    rw [List.length_drop]
    omega
  exact ⟨_, by rw [next_of_find hin, hclosed, Option.map_some]⟩

/-- A span of the text is found behind any front, unless another one is found that ends before it.
That one leaves all the spans of the text. -/
theorem next_append (h : m.next text = some s) (front : List α) :
    ∃ s', m.next (front ++ text) = some s' ∧ s.after.length ≤ s'.after.length ∧
      ((s'.after = s.after ∧ s'.before.length + s'.inside.length =
          front.length + s.before.length + s.inside.length) ∨
        ∃ p q, s'.after = p ++ q ∧ m.spans q = m.spans text) := by
  obtain ⟨htext, hopener, hcloser⟩ := next_eq_some_iff.mp h
  have hlength := length_next h
  -- the opening and the closing marker of the span, in the longer text
  have hopens : m.opener <+: (front ++ text).drop (front.length + s.before.length) :=
    (prefix_drop_left front).mpr (prefix_drop_find hopener)
  have hcloses : m.closer <+: (front ++ text).drop
      (front.length + (s.before.length + (m.opener.length + s.inside.length))) := by
    apply (prefix_drop_left front).mpr
    rw [htext]
    apply (prefix_drop_left s.before).mpr
    apply (prefix_drop_left m.opener).mpr
    exact prefix_drop_find hcloser
  obtain ⟨i, hi, hfind⟩ := exists_find_le (by rw [List.length_append]; omega) hopens
  obtain ⟨j, hj, hstop⟩ : ∃ j ≤ front.length + (s.before.length + (m.opener.length + s.inside.length)) -
      (i + m.opener.length), find m.closer ((front ++ text).drop (i + m.opener.length)) = some j := by
    apply exists_find_le
    · rw [List.length_drop, List.length_append]
      omega
    · rw [List.drop_drop]
      rwa [Nat.add_sub_cancel' (by omega)]
  refine ⟨_, by rw [next_of_find hfind, hstop, Option.map_some], ?_⟩
  have hi' : i ≤ (front ++ text).length := (find_eq_some_iff.mp hfind).1
  have hj' := find_le hstop
  rw [List.length_drop] at hj'
  simp only [List.length_take, List.length_drop, List.drop_drop]
  refine ⟨by rw [List.length_append]; omega, ?_⟩
  obtain heq | hlt := Nat.eq_or_lt_of_le hj
  · left
    refine ⟨?_, by omega⟩
    have hend : i + m.opener.length + (j + m.closer.length) = front.length + (s.before.length +
        (m.opener.length + (s.inside.length + m.closer.length))) := by
      omega
    rw [hend, htext]
    simp only [← List.drop_drop, List.drop_left]
  · right
    obtain hle | hgt := (Nat.lt_or_ge front.length (i + m.opener.length + (j + m.closer.length))).symm
    · exact ⟨_, text, List.drop_append_of_le_length hle, rfl⟩
    · have hclosed : m.closer <+: (front ++ text).drop (i + m.opener.length + j) := by
        rw [← List.drop_drop]
        exact prefix_drop_find hstop
      -- the closing marker that was found is in front of the span's opening marker
      have hbefore : i + m.opener.length + j + m.closer.length ≤ front.length + s.before.length := by
        refine (apart hopens hclosed).resolve_left fun hinside => ?_
        obtain ⟨k, hk⟩ := Nat.exists_eq_add_of_le hinside
        apply not_prefix_drop_of_lt hcloser (j := k) (by omega)
        rw [hk, Nat.add_assoc, Nat.add_assoc] at hclosed
        have hin := (prefix_drop_left front).mp hclosed
        rw [htext] at hin
        exact (prefix_drop_left m.opener).mp ((prefix_drop_left s.before).mp hin)
      refine ⟨[], text.drop (i + m.opener.length + (j + m.closer.length) - front.length), ?_, ?_⟩
      · obtain ⟨d, hd⟩ := Nat.exists_eq_add_of_lt hgt
        rw [hd, Nat.add_assoc, ← List.drop_drop, List.drop_left, Nat.add_sub_cancel_left]
        rfl
      · rw [spans_some h, spans_some (next_drop h (by omega))]

/-- With a text in front, no fewer spans are found. -/
theorem length_spans_le (front text : List α) :
    (m.spans text).length ≤ (m.erase (front ++ text)).length := by
  induction hn : (front ++ text).length using Nat.strong_induction_on generalizing front text with
  | h n ih =>
      cases h : m.next text with
      | none =>
          rw [spans_none h]
          exact Nat.zero_le _
      | some s =>
          obtain ⟨s', hs', -, halt⟩ := next_append h front
          have hshorter := hn ▸ length_cut hs'
          rw [erase_some hs', List.length_cons]
          obtain ⟨hafter, -⟩ | ⟨p, q, hafter, hq⟩ := halt
          · rw [spans_some h, List.length_cons, ← hafter]
            exact Nat.succ_le_succ (ih _ hshorter s'.before s'.after rfl)
          · rw [← hq]
            rw [hafter, ← List.append_assoc] at hshorter ⊢
            exact Nat.le_succ_of_le (ih _ hshorter (s'.before ++ p) q rfl)

/-! ### Kept texts that do not join -/

/-- With the kept text in front, the next span stays the next one, here and after each cut. -/
inductive Clean (m : Markers α) : List α → List α → Prop where
  | last {kept text : List α} : m.next text = none → m.next (kept ++ text) = none → Clean m kept text
  | span {kept text : List α} {s : Span α} : m.next text = some s →
      m.next (kept ++ text) = some { s with before := kept ++ s.before } →
      Clean m (kept ++ s.before) s.after → Clean m kept text

theorem Clean.erase_eq {kept : List α} (h : Clean m kept text) :
    m.erase (kept ++ text) = m.spans text := by
  induction h with
  | last hnone hkept => rw [erase_none hkept, spans_none hnone]
  | span hsome hkept _ ih => rw [erase_some hkept, spans_some hsome, ih]

theorem clean_of_erase_eq {kept : List α} (h : m.erase (kept ++ text) = m.spans text) :
    Clean m kept text := by
  induction text using next_induction (m := m) generalizing kept with
  | none text hnone =>
      apply Clean.last hnone
      cases hkept : m.next (kept ++ text) with
      | none => rfl
      | some s =>
          rw [erase_some hkept, spans_none hnone] at h
          cases h
  | some text s hsome ih =>
      obtain ⟨s', hs', -, halt⟩ := next_append hsome kept
      rw [erase_some hs', spans_some hsome, List.cons.injEq] at h
      obtain ⟨hinside, hrest⟩ := h
      obtain ⟨hafter, hlength⟩ | ⟨p, q, hafter, hq⟩ := halt
      · have hbefore : s'.before = kept ++ s.before := by
          have htext := (next_eq_some_iff.mp hs').1
          have hsame := (next_eq_some_iff.mp hsome).1
          rw [hsame, ← List.append_assoc] at htext
          rw [hinside] at hlength
          refine (List.append_inj htext ?_).1.symm
          rw [List.length_append]
          omega
        have hkept : m.next (kept ++ text) = some { s with before := kept ++ s.before } := by
          rw [hs', ← hbefore, ← hinside, ← hafter]
        rw [hbefore, hafter] at hrest
        exact .span hsome hkept (ih hrest)
      · -- more spans would be found than there are
        have hle := length_spans_le (m := m) (s'.before ++ p) q
        rw [List.append_assoc, ← hafter, hrest, hq, spans_some hsome, List.length_cons] at hle
        exact absurd hle (Nat.not_succ_le_self _)

/-- The text in front of the first opening marker has none in it. -/
theorem not_infix_of_find {k : Nat} (h : find m.opener text = some k) :
    ¬ m.opener <:+: text.take k := by
  rintro ⟨a, b, hab⟩
  have hlength := congrArg List.length hab
  have hpos := m.opener_pos
  have hk := find_le h
  simp only [List.length_append, List.length_take] at hlength
  apply not_prefix_drop_of_lt h (j := a.length) (by omega)
  rw [← List.take_append_drop k text, ← hab, List.append_assoc, List.append_assoc, List.drop_left]
  exact List.prefix_append _ _

/-- An opening marker stays the first one behind a text that has none. -/
theorem find_opener_append {front : List α} (h : ¬ m.opener <:+: front) (rest : List α) :
    find m.opener (front ++ (m.opener ++ rest)) = some front.length := by
  apply find_eq_some_iff.mpr
  refine ⟨by simp, ?_, fun j hj hpre => ?_⟩
  · rw [List.drop_left]
    exact List.prefix_append _ _
  · obtain hle | hgt := Nat.lt_or_ge front.length (j + m.opener.length) |>.symm
    · have hin := (prefix_drop_of_append hle hpre).isInfix
      exact h (hin.trans (List.drop_suffix j front).isInfix)
    · obtain ⟨i, hi⟩ := Nat.exists_eq_add_of_lt hj
      have hlt : i + 1 < m.opener.length := by omega
      have hreal : m.opener <+: (front ++ (m.opener ++ rest)).drop (j + (i + 1)) := by
        rw [← Nat.add_assoc, ← hi, List.drop_left]
        exact List.prefix_append _ _
      obtain hover | hover := prefix_of_overlap hpre hreal
      · exact m.unbordered _ hlt (Nat.succ_pos i) hover
      · have hle := hover.length_le
        rw [List.length_drop] at hle
        omega

theorem Clean.separate {kept : List α} (h : Clean m kept text) (hkept : ¬ m.opener <:+: kept) :
    ¬ m.opener <:+: kept ++ (m.remains text).1 ∧
      m.next (kept ++ (m.remains text).1 ++ (m.remains text).2) = none := by
  induction h with
  | last hnone hjoined =>
      rw [remains_none hnone, List.append_nil]
      exact ⟨hkept, hjoined⟩
  | @span kept text s hsome hjoined _ ih =>
      have hfind := (next_eq_some_iff.mp hjoined).2.1
      have hfront : (kept ++ text).take (kept ++ s.before).length = kept ++ s.before := by
        conv_lhs => rw [(next_eq_some_iff.mp hjoined).1]
        exact List.take_left
      have hnot := not_infix_of_find hfind
      rw [hfront] at hnot
      rw [remains_some hsome, ← List.append_assoc]
      exact ih hnot

theorem clean_of_separate {kept : List α} (hnot : ¬ m.opener <:+: kept ++ (m.remains text).1)
    (hnone : m.next (kept ++ (m.remains text).1 ++ (m.remains text).2) = none) :
    Clean m kept text := by
  induction text using next_induction (m := m) generalizing kept with
  | none text htext =>
      rw [remains_none htext, List.append_nil] at hnone
      exact .last htext hnone
  | some text s hsome ih =>
      rw [remains_some hsome, ← List.append_assoc] at hnot hnone
      obtain ⟨htext, -, hcloser⟩ := next_eq_some_iff.mp hsome
      have hfront : ¬ m.opener <:+: kept ++ s.before :=
        fun h => hnot (h.trans (List.prefix_append _ _).isInfix)
      have hjoined : m.next (kept ++ text) = some { s with before := kept ++ s.before } := by
        apply next_eq_some_iff.mpr
        refine ⟨?_, ?_, hcloser⟩
        · conv_lhs => rw [htext]
          exact (List.append_assoc _ _ _).symm
        · rw [htext, ← List.append_assoc]
          exact find_opener_append hfront _
      exact .span hsome hjoined (ih hnot hnone)

omit [DecidableEq α] in
theorem not_infix_nil (m : Markers α) : ¬ m.opener <:+: [] :=
  fun h => m.opener_ne (List.infix_nil.mp h)

theorem clean_iff_separate : Clean m [] text ↔ m.Separate text :=
  ⟨fun h => h.separate m.not_infix_nil, fun h => clean_of_separate h.1 h.2⟩

/-- Cutting spans out and searching again finds the spans of the text exactly when it leaves no
opening marker in front of the last, and no span. -/
theorem erase_eq_spans_iff : m.erase text = m.spans text ↔ m.Separate text := by
  rw [← clean_iff_separate]
  constructor
  · intro h
    apply clean_of_erase_eq
    exact h
  · exact fun h => h.erase_eq

end Markers

end Spans
