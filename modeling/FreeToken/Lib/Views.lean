import Mathlib.Data.List.Basic
import Mathlib.Data.List.Infix
import Mathlib.Data.List.DropRight

/-!
# Sending a text from views of its beginning

A sender sees longer and longer beginnings of a text. A view whose next element is not yet
readable ends in a mark. The sender keeps the last view without a mark at its end as settled,
drops blanks at the start of what a marked view adds to it, keeps back what `hold` says of
the end, and sends what goes beyond what it has sent. The text arrives whole exactly when no
marked view shows what the text does not have there, and nothing is kept back of the text.
-/

namespace FreeToken.Views

variable {α : Type} (mark : α) (blank : α → Bool) (hold : List α → Nat)

/-- The view ends in the mark. -/
def Open (v : List α) : Prop := v.getLast? = some mark

instance [DecidableEq α] (v : List α) : Decidable (Open mark v) :=
  inferInstanceAs (Decidable (v.getLast? = some mark))

/-- The last of the first `n` views that does not end in the mark. -/
def settled [DecidableEq α] (V : Nat → List α) : Nat → List α
  | 0 => []
  | n + 1 => if Open mark (V (n + 1)) then settled V n else V (n + 1)

/-- What a view shows behind the settled beginning `d`. -/
def shown [DecidableEq α] (d v : List α) : List α :=
  if Open mark v then d ++ (v.drop d.length).dropWhile blank else v

/-- What is shown and not kept back. -/
def visible (o : List α) : List α := o.take (o.length - hold o)

/-- What the step from view `n` to view `n + 1` makes visible. -/
def seen [DecidableEq α] (V : Nat → List α) (n : Nat) : List α :=
  visible hold (shown mark blank (settled mark V n) (V (n + 1)))

/-- How much has been sent. -/
def sent [DecidableEq α] (V : Nat → List α) : Nat → Nat
  | 0 => 0
  | n + 1 => max (sent V n) (seen mark blank hold V n).length

/-- What has been sent. -/
def output [DecidableEq α] (V : Nat → List α) : Nat → List α
  | 0 => []
  | n + 1 => output V n ++ (seen mark blank hold V n).drop (sent mark blank hold V n)

/-- A view that ends in the mark shows nothing that the text does not have there: all of it
    behind the settled beginning is kept back, or it begins with no blank and its mark is kept
    back or stands in the text. -/
def Harmless (text d v : List α) : Prop :=
  ((v.drop d.length).dropWhile blank).length ≤
      hold (d ++ (v.drop d.length).dropWhile blank) ∨
    (v.drop d.length).dropWhile blank = v.drop d.length ∧
      (0 < hold (d ++ (v.drop d.length).dropWhile blank) ∨ text[v.length - 1]? = some mark)

instance [DecidableEq α] (text d v : List α) : Decidable (Harmless mark blank hold text d v) :=
  inferInstanceAs (Decidable (_ ∨ _))

/-- The views are beginnings of the text that grow: `count` elements of it are readable, and
    the mark stands where another has begun. -/
structure Approaches (text : List α) (V : Nat → List α) (N : Nat) (count : Nat → Nat)
    (cut : Nat → Bool) : Prop where
  view : ∀ n ≤ N, V n = text.take (count n) ++ if cut n then [mark] else []
  count_le : ∀ n ≤ N, count n ≤ text.length
  count_lt : ∀ n ≤ N, cut n = true → count n < text.length
  mono : ∀ n < N, count n ≤ count (n + 1)
  stays : ∀ n < N, count n = count (n + 1) → cut n = true → cut (n + 1) = true
  start : V 0 = []
  whole : V N = text

variable {mark blank hold}

theorem open_append_mark (v : List α) : Open mark (v ++ [mark]) := by
  simp [Open]

theorem open_drop {v : List α} {n : Nat} (h : Open mark v) (hn : n < v.length) :
    Open mark (v.drop n) := by
  rw [Open, List.getLast?_drop, if_neg (by omega)]
  exact h

theorem getElem?_of_open {v : List α} (h : Open mark v) : v[v.length - 1]? = some mark := by
  rw [← List.getLast?_eq_getElem?]
  exact h

theorem ne_nil_of_open {v : List α} (h : Open mark v) : v ≠ [] := by
  rintro rfl
  cases h

theorem visible_begins (o : List α) : visible hold o <+: o := List.take_prefix _ _

/-- Beyond `k`, a list whose rest begins another's rest agrees with it. -/
theorem getElem?_of_drop {text w : List α} {k i : Nat} (hpre : w.drop k <+: text.drop k)
    (hk : k ≤ i) (hi : i < w.length) : text[i]? = w[i]? := by
  obtain ⟨j, rfl⟩ := Nat.exists_eq_add_of_le hk
  obtain ⟨rest, hrest⟩ := hpre
  rw [← List.getElem?_drop, ← List.getElem?_drop, ← hrest,
    List.getElem?_append_left (by rw [List.length_drop]; omega)]

/-- A view keeps its blanks when it keeps its first element. -/
theorem dropWhile_eq_self {l : List α} (h : ∀ a, l[0]? = some a → blank a = false) :
    l.dropWhile blank = l := by
  cases l with
  | nil => rfl
  | cons a l => exact List.dropWhile_cons_of_neg (by simp [h a rfl])

theorem dropWhile_head {l : List α} {a : α} (h : (l.dropWhile blank)[0]? = some a) :
    blank a = false := by
  induction l with
  | nil => cases h
  | cons b l ih =>
      by_cases hb : blank b
      · rw [List.dropWhile_cons_of_pos hb] at h
        exact ih h
      · rw [List.dropWhile_cons_of_neg hb, List.getElem?_cons_zero, Option.some.injEq] at h
        subst h
        exact Bool.not_eq_true _ ▸ hb

theorem dropWhile_eq_of_length {l : List α} (h : (l.dropWhile blank).length = l.length) :
    l.dropWhile blank = l :=
  (List.dropWhile_suffix blank).eq_of_length h

/-- The blanks before the mark go, and the mark stays. -/
theorem open_dropWhile {l : List α} (hmark : blank mark = false) (h : Open mark l) :
    Open mark (l.dropWhile blank) := by
  have hne : l.dropWhile blank ≠ [] := by
    rw [Ne, List.dropWhile_eq_nil_iff]
    intro hall
    rw [hall mark (List.mem_of_getLast? h)] at hmark
    cases hmark
  obtain ⟨before, hbefore⟩ := List.dropWhile_suffix (l := l) blank
  rwa [← hbefore, Open, List.getLast?_append_of_ne_nil _ hne] at h

namespace Approaches

variable {text : List α} {V : Nat → List α} {N : Nat} {count : Nat → Nat} {cut : Nat → Bool}

theorem length_view (h : Approaches mark text V N count cut) {n : Nat} (hn : n ≤ N) :
    (V n).length = count n + if cut n then 1 else 0 := by
  rw [h.view n hn, List.length_append, List.length_take, Nat.min_eq_left (h.count_le n hn)]
  split <;> rfl

theorem length_mono (h : Approaches mark text V N count cut) {n : Nat} (hn : n < N) :
    (V n).length ≤ (V (n + 1)).length := by
  have hmono := h.mono n hn
  have hstays := h.stays n hn
  rw [h.length_view hn.le, h.length_view (show n + 1 ≤ N from hn)]
  by_cases hcut : cut n = true
  · by_cases heq : count n = count (n + 1)
    · rw [if_pos hcut, if_pos (hstays heq hcut)]
      omega
    · rw [if_pos hcut]
      omega
  · rw [if_neg hcut]
    omega

theorem length_le (h : Approaches mark text V N count cut) {n : Nat} (hn : n ≤ N) :
    (V n).length ≤ text.length := by
  have hle := h.count_le n hn
  have hlt := h.count_lt n hn
  rw [h.length_view hn]
  split
  · exact hlt (by assumption)
  · exact hle

/-- A view agrees with the text in what is readable. -/
theorem getElem?_view (h : Approaches mark text V N count cut) {n i : Nat} (hn : n ≤ N)
    (hi : i < count n) : (V n)[i]? = text[i]? := by
  have hle := h.count_le n hn
  rw [h.view n hn, List.getElem?_append_left (by rw [List.length_take]; omega),
    List.getElem?_take_of_lt hi]

theorem prefix_of_not_open (h : Approaches mark text V N count cut) {n : Nat} (hn : n ≤ N)
    (ho : ¬ Open mark (V n)) : V n = text.take (count n) := by
  rw [h.view n hn] at ho ⊢
  by_cases hcut : cut n = true
  · rw [if_pos hcut] at ho
    exact absurd (open_append_mark _) ho
  · rw [if_neg hcut, List.append_nil]

/-- A view whose mark stands in the text begins the text. -/
theorem prefix_of_mark (h : Approaches mark text V N count cut) {n : Nat} (hn : n ≤ N)
    (hm : text[(V n).length - 1]? = some mark) : V n <+: text := by
  rw [h.length_view hn] at hm
  rw [h.view n hn]
  by_cases hcut : cut n = true
  · rw [if_pos hcut, Nat.add_sub_cancel] at hm
    rw [if_pos hcut]
    obtain ⟨hlt, hget⟩ := List.getElem?_eq_some_iff.mp hm
    rw [← hget, List.take_append_getElem]
    exact List.take_prefix _ _
  · rw [if_neg hcut, List.append_nil]
    exact List.take_prefix _ _

theorem dropLast_begins (h : Approaches mark text V N count cut) {n : Nat} (hn : n ≤ N) :
    (V n).dropLast <+: text := by
  rw [h.view n hn]
  by_cases hcut : cut n = true
  · rw [if_pos hcut, List.dropLast_concat]
    exact List.take_prefix _ _
  · rw [if_neg hcut, List.append_nil]
    exact (List.dropLast_prefix _).trans (List.take_prefix _ _)

end Approaches

variable [DecidableEq α] {text : List α} {V : Nat → List α} {N : Nat} {count : Nat → Nat}
  {cut : Nat → Bool}

theorem settled_succ_open {n : Nat} (ho : Open mark (V (n + 1))) :
    settled mark V (n + 1) = settled mark V n := by
  rw [settled, if_pos ho]

theorem settled_succ {n : Nat} (ho : ¬ Open mark (V (n + 1))) :
    settled mark V (n + 1) = V (n + 1) := by
  rw [settled, if_neg ho]

theorem settled_not_open (n : Nat) : ¬ Open mark (settled mark V n) := by
  induction n with
  | zero => rintro ⟨⟩
  | succ n ih =>
      rw [settled]
      split
      · exact ih
      · assumption

/-- The settled beginning is readable at every later view. -/
theorem exists_settled (h : Approaches mark text V N count cut) {n : Nat} (hn : n ≤ N) :
    ∃ k ≤ count n, settled mark V n = text.take k := by
  induction n with
  | zero => exact ⟨0, Nat.zero_le _, rfl⟩
  | succ n ih =>
      by_cases ho : Open mark (V (n + 1))
      · obtain ⟨k, hk, heq⟩ := ih (Nat.le_of_succ_le hn)
        rw [settled_succ_open ho]
        exact ⟨k, hk.trans (h.mono n hn), heq⟩
      · rw [settled_succ ho]
        exact ⟨count (n + 1), Nat.le_refl _, h.prefix_of_not_open hn ho⟩

/-- A view that does not end in the mark is settled. -/
theorem settled_eq_of_not_open (h : Approaches mark text V N count cut) {n : Nat}
    (ho : ¬ Open mark (V n)) : settled mark V n = V n := by
  cases n with
  | zero => rw [h.start]; rfl
  | succ n => exact settled_succ ho

/-- What is known of view `n` when everything sent so far is right. -/
structure Right (mark : α) (blank : α → Bool) (hold : List α → Nat) (text : List α)
    (V : Nat → List α) (n : Nat) : Prop where
  le : sent mark blank hold V n ≤ (V n).length
  /-- Nothing behind the settled beginning is sent, or it begins with no blank. -/
  early : sent mark blank hold V n ≤ (settled mark V n).length ∨
    ∃ a, text[(settled mark V n).length]? = some a ∧ blank a = false
  /-- A view that is sent in full is right, and nothing of it is kept back. -/
  last : sent mark blank hold V n = (V n).length → V n <+: text ∧ hold (V n) = 0

theorem seen_open {n : Nat} (ho : Open mark (V (n + 1))) :
    seen mark blank hold V n = visible hold (settled mark V n ++
      ((V (n + 1)).drop (settled mark V n).length).dropWhile blank) := by
  rw [seen, shown, if_pos ho]

theorem seen_not_open {n : Nat} (ho : ¬ Open mark (V (n + 1))) :
    seen mark blank hold V n = visible hold (V (n + 1)) := by
  rw [seen, shown, if_neg ho]

/-- What is visible behind the settled beginning begins with no blank. -/
theorem exists_head {n : Nat} (ho : Open mark (V (n + 1)))
    (hlen : (settled mark V n).length < (seen mark blank hold V n).length)
    (hget : text[(settled mark V n).length]? =
      (seen mark blank hold V n)[(settled mark V n).length]?) :
    ∃ a, text[(settled mark V n).length]? = some a ∧ blank a = false := by
  rw [hget, List.getElem?_eq_getElem hlen]
  refine ⟨_, rfl, ?_⟩
  apply dropWhile_head (l := (V (n + 1)).drop (settled mark V n).length)
  rw [← List.getElem?_eq_getElem hlen, seen_open ho, visible, List.getElem?_take_of_lt,
    List.getElem?_append_right (Nat.le_refl _), Nat.sub_self]
  rw [seen_open ho, visible, List.length_take] at hlen
  exact lt_of_lt_of_le hlen (Nat.min_le_left _ _)

section Step

variable (h : Approaches mark text V N count cut) {n : Nat} (hn : n < N)

include h hn

theorem settled_begins_text : settled mark V n <+: text := by
  obtain ⟨k, -, heq⟩ := exists_settled h hn.le
  rw [heq]
  exact List.take_prefix _ _

theorem settled_begins : settled mark V n <+: V (n + 1) := by
  obtain ⟨k, hk, heq⟩ := exists_settled h hn.le
  rw [heq, h.view (n + 1) hn]
  apply List.IsPrefix.trans _ (List.prefix_append _ _)
  exact List.take_prefix_take_left (hk.trans (h.mono n hn))

theorem length_settled_lt (ho : Open mark (V (n + 1))) :
    (settled mark V n).length < (V (n + 1)).length := by
  apply Nat.lt_of_le_of_ne (settled_begins h hn).length_le
  intro heq
  have hsame := (settled_begins h hn).eq_of_length heq
  exact settled_not_open n (hsame ▸ ho)

theorem settled_append : settled mark V n ++ (V (n + 1)).drop (settled mark V n).length =
    V (n + 1) := by
  obtain ⟨rest, hrest⟩ := settled_begins h hn
  rw [← hrest, List.drop_left]

/-- Text that begins with no blank behind the settled beginning loses none. -/
theorem dropWhile_pending (hmark : blank mark = false) {a : α}
    (ha : text[(settled mark V n).length]? = some a) (hb : blank a = false) :
    ((V (n + 1)).drop (settled mark V n).length).dropWhile blank =
      (V (n + 1)).drop (settled mark V n).length := by
  apply dropWhile_eq_self
  intro b hget
  have hsucc : n + 1 ≤ N := hn
  rw [List.getElem?_drop] at hget
  change (V (n + 1))[(settled mark V n).length]? = some b at hget
  by_cases hlt : (settled mark V n).length < count (n + 1)
  · rw [h.getElem?_view hsucc hlt, ha, Option.some.injEq] at hget
    exact hget ▸ hb
  · have hmem : b ∈ (V (n + 1)).drop (count (n + 1)) := by
      apply List.mem_of_getElem? (i := (settled mark V n).length - count (n + 1))
      rw [List.getElem?_drop, ← hget]
      congr 1
      omega
    rw [h.view (n + 1) hsucc, List.drop_left' (by
      rw [List.length_take, Nat.min_eq_left (h.count_le (n + 1) hsucc)])] at hmem
    split at hmem
    · rw [List.mem_singleton.mp hmem]
      exact hmark
    · cases hmem

theorem length_seen_le : (seen mark blank hold V n).length ≤ (V (n + 1)).length := by
  by_cases ho : Open mark (V (n + 1))
  · have happ := congrArg List.length (settled_append h hn)
    have hdrop := (List.dropWhile_suffix (l := (V (n + 1)).drop (settled mark V n).length)
      blank).length_le
    rw [seen_open ho]
    apply (visible_begins _).length_le.trans
    rw [List.length_append] at happ ⊢
    omega
  · rw [seen_not_open ho]
    exact (visible_begins _).length_le

/-- A view that does no harm shows a beginning of the text. -/
theorem seen_begins (hharm : Open mark (V (n + 1)) →
    Harmless mark blank hold text (settled mark V n) (V (n + 1))) :
    seen mark blank hold V n <+: text := by
  by_cases ho : Open mark (V (n + 1))
  · rw [seen_open ho]
    obtain hheld | ⟨hpend, hmark⟩ := hharm ho
    · -- Nothing behind the settled beginning is visible.
      apply List.IsPrefix.trans _ (settled_begins_text h hn)
      rw [visible, List.length_append]
      apply List.prefix_of_prefix_length_le (List.take_prefix _ _) (List.prefix_append _ _)
      rw [List.length_take]
      omega
    · rw [hpend, settled_append h hn] at hmark ⊢
      obtain hheld | hmark := hmark
      · apply List.IsPrefix.trans _ (h.dropLast_begins (show n + 1 ≤ N from hn))
        rw [visible, List.dropLast_eq_take]
        apply List.take_prefix_take_left
        omega
      · exact (visible_begins _).trans (h.prefix_of_mark hn hmark)
  · rw [seen_not_open ho]
    apply (visible_begins _).trans
    rw [h.prefix_of_not_open hn ho]
    exact List.take_prefix _ _

/-- The mark of a view that has stood still stands in the text when the view before it is
    right. -/
theorem mark_of_still (hsame : (V n).length = (V (n + 1)).length) (hlast : V n <+: text)
    (ho : Open mark (V (n + 1))) : text[(V (n + 1)).length - 1]? = some mark := by
  have hbefore : Open mark (V n) := by
    by_contra hno
    have hlt := length_settled_lt h hn ho
    rw [settled_eq_of_not_open h hno] at hlt
    omega
  obtain ⟨rest, hrest⟩ := hlast
  have hpos := List.length_pos_iff.mpr (ne_nil_of_open hbefore)
  rw [← hsame, ← getElem?_of_open hbefore, ← hrest, List.getElem?_append_left (by omega)]

/-- A view that is visible in full is shown as it is, and nothing of it is kept back. -/
theorem seen_eq_view (hnil : hold [] = 0)
    (hlen : (seen mark blank hold V n).length = (V (n + 1)).length) :
    seen mark blank hold V n = V (n + 1) ∧ hold (V (n + 1)) = 0 := by
  by_cases ho : Open mark (V (n + 1))
  · have hlt := length_settled_lt h hn ho
    have happ := congrArg List.length (settled_append h hn)
    have hdrop := (List.dropWhile_suffix (l := (V (n + 1)).drop (settled mark V n).length)
      blank).length_le
    rw [seen_open ho, visible, List.length_take] at hlen
    rw [List.length_append] at happ hlen
    have hpend : ((V (n + 1)).drop (settled mark V n).length).dropWhile blank =
        (V (n + 1)).drop (settled mark V n).length := by
      apply dropWhile_eq_of_length
      omega
    rw [hpend, settled_append h hn] at hlen
    have hkept : hold (V (n + 1)) = 0 := by omega
    refine ⟨?_, hkept⟩
    rw [seen_open ho, hpend, settled_append h hn, visible, hkept]
    exact List.take_length
  · rw [seen_not_open ho, visible, List.length_take] at hlen
    have hkept : hold (V (n + 1)) = 0 := by
      by_cases hempty : V (n + 1) = []
      · rw [hempty, hnil]
      · have hpos := List.length_pos_iff.mpr hempty
        omega
    refine ⟨?_, hkept⟩
    rw [seen_not_open ho, visible, hkept]
    exact List.take_length

/-- What is sent rightly shows that a view does no harm. -/
theorem harmless_of_begins (hmark : blank mark = false)
    (hr : Right mark blank hold text V n) (ho : Open mark (V (n + 1)))
    (hpre : (seen mark blank hold V n).drop (sent mark blank hold V n) <+:
      text.drop (sent mark blank hold V n)) :
    Harmless mark blank hold text (settled mark V n) (V (n + 1)) := by
  by_cases hheld : (((V (n + 1)).drop (settled mark V n).length).dropWhile blank).length ≤
      hold (settled mark V n ++
        ((V (n + 1)).drop (settled mark V n).length).dropWhile blank)
  · exact .inl hheld
  have hlen : (settled mark V n).length < (seen mark blank hold V n).length := by
    rw [seen_open ho, visible, List.length_take, List.length_append]
    omega
  have hhead : ∃ a, text[(settled mark V n).length]? = some a ∧ blank a = false := by
    obtain hearly | hhead := hr.early
    · exact exists_head ho hlen (getElem?_of_drop hpre hearly hlen)
    · exact hhead
  obtain ⟨a, ha, hb⟩ := hhead
  have hpend := dropWhile_pending h hn hmark ha hb
  refine .inr ⟨hpend, ?_⟩
  rw [seen_open ho, hpend, settled_append h hn] at hpre
  rw [hpend, settled_append h hn]
  by_cases hhold : 0 < hold (V (n + 1))
  · exact .inl hhold
  right
  have hall : visible hold (V (n + 1)) = V (n + 1) := by
    rw [visible, Nat.eq_zero_of_not_pos hhold]
    exact List.take_length
  have hpos : 0 < (V (n + 1)).length := List.length_pos_iff.mpr (ne_nil_of_open ho)
  rw [hall] at hpre
  by_cases hsent : sent mark blank hold V n ≤ (V (n + 1)).length - 1
  · rw [getElem?_of_drop hpre hsent (by omega)]
    exact getElem?_of_open ho
  · -- The mark was sent before: the view has stood still, and it was right.
    have hle := hr.le
    have hmono := h.length_mono hn
    have hlast := (hr.last (by omega)).1
    exact mark_of_still h hn (by omega) hlast ho

theorem right_succ (hnil : hold [] = 0)
    (hr : Right mark blank hold text V n)
    (hharm : Open mark (V (n + 1)) →
      Harmless mark blank hold text (settled mark V n) (V (n + 1))) :
    Right mark blank hold text V (n + 1) := by
  have hmono := h.length_mono hn
  have hpre := seen_begins h hn hharm
  have hle : (seen mark blank hold V n).length ≤ (V (n + 1)).length := length_seen_le h hn
  refine ⟨max_le (hr.le.trans hmono) hle, ?_, ?_⟩
  · by_cases ho : Open mark (V (n + 1))
    · rw [settled_succ_open ho, sent, Nat.max_le]
      by_cases hlen : (seen mark blank hold V n).length ≤ (settled mark V n).length
      · exact hr.early.imp (fun hs => ⟨hs, hlen⟩) id
      · right
        rw [not_le] at hlen
        apply exists_head ho hlen
        obtain ⟨rest, hrest⟩ := hpre
        rw [← hrest, List.getElem?_append_left hlen]
    · rw [settled_succ ho]
      exact .inl (max_le (hr.le.trans hmono) hle)
  · intro hall
    by_cases hseen : (seen mark blank hold V n).length = (V (n + 1)).length
    · obtain ⟨heq, hkept⟩ := seen_eq_view h hn hnil hseen
      exact ⟨heq ▸ hpre, hkept⟩
    · -- All of the view was sent before, so it has stood still.
      rw [sent] at hall
      have hsent : sent mark blank hold V n = (V n).length := by
        have := hr.le
        omega
      have hsame : (V n).length = (V (n + 1)).length := by omega
      obtain ⟨hlast, hkept⟩ := hr.last hsent
      have hnext : V (n + 1) <+: text := by
        by_cases ho : Open mark (V (n + 1))
        · exact h.prefix_of_mark hn (mark_of_still h hn hsame hlast ho)
        · rw [h.prefix_of_not_open hn ho]
          exact List.take_prefix _ _
      have heq : V n = V (n + 1) :=
        (List.prefix_of_prefix_length_le hlast hnext hsame.le).eq_of_length hsame
      exact ⟨hnext, heq ▸ hkept⟩

end Step

section Run

variable (h : Approaches mark text V N count cut) (hnil : hold [] = 0)

include h hnil

/-- While no view does harm, a beginning of the text has been sent. -/
theorem output_eq_take {n : Nat} (hn : n ≤ N)
    (hharm : ∀ m < n, Open mark (V (m + 1)) →
      Harmless mark blank hold text (settled mark V m) (V (m + 1))) :
    Right mark blank hold text V n ∧
      output mark blank hold V n = text.take (sent mark blank hold V n) := by
  induction n with
  | zero =>
      refine ⟨⟨Nat.zero_le _, .inl (Nat.zero_le _), fun _ => ?_⟩, rfl⟩
      rw [h.start]
      exact ⟨List.nil_prefix, hnil⟩
  | succ n ih =>
      obtain ⟨hr, hout⟩ := ih (Nat.le_of_succ_le hn) (fun m hm => hharm m (Nat.lt_succ_of_lt hm))
      have hlast := hharm n (Nat.lt_succ_self n)
      refine ⟨right_succ h hn hnil hr hlast, ?_⟩
      obtain ⟨rest, hrest⟩ := seen_begins h hn hlast
      rw [output, sent, hout]
      by_cases hle : (seen mark blank hold V n).length ≤ sent mark blank hold V n
      · rw [List.drop_eq_nil_of_le hle, List.append_nil, Nat.max_eq_left hle]
      · rw [not_le] at hle
        rw [Nat.max_eq_right hle.le, ← hrest, List.take_append_of_le_length hle.le,
          List.take_append_drop, List.take_left]

/-- When a beginning of the text has been sent, no view has done harm. -/
theorem harmless_of_output (hmark : blank mark = false) {n : Nat} (hn : n ≤ N)
    (hpre : output mark blank hold V n <+: text) :
    ∀ m < n, Open mark (V (m + 1)) →
      Harmless mark blank hold text (settled mark V m) (V (m + 1)) := by
  induction n with
  | zero => intro m hm; exact absurd hm (Nat.not_lt_zero m)
  | succ n ih =>
      have hbefore := ih (Nat.le_of_succ_le hn) ((List.prefix_append _ _).trans hpre)
      obtain ⟨hr, hout⟩ := output_eq_take h hnil (Nat.le_of_succ_le hn) hbefore
      intro m hm ho
      obtain hm | rfl := Nat.lt_succ_iff_lt_or_eq.mp hm
      · exact hbefore m hm ho
      · apply harmless_of_begins h hn hmark hr ho
        have hle := hr.le.trans (h.length_le (Nat.le_of_succ_le hn))
        rw [output, hout] at hpre
        have hdrop := hpre.drop (sent mark blank hold V m)
        rwa [List.drop_left' (by rw [List.length_take, Nat.min_eq_left hle])] at hdrop

/-- **The text arrives whole** exactly when no view that ends in the mark does harm, and the
    whole text loses no blank and has nothing kept back. -/
theorem output_eq_iff (hmark : blank mark = false) :
    output mark blank hold V N = text ↔
    (∀ n < N, Open mark (V (n + 1)) →
      Harmless mark blank hold text (settled mark V n) (V (n + 1))) ∧
    (text.drop (settled mark V N).length).dropWhile blank =
      text.drop (settled mark V N).length ∧ hold text = 0 := by
  constructor
  · intro hout
    have hharm := harmless_of_output h hnil hmark (Nat.le_refl N) (hout ▸ List.prefix_refl _)
    obtain ⟨hr, htake⟩ := output_eq_take h hnil (Nat.le_refl N) hharm
    have hall : sent mark blank hold V N = text.length := by
      have hlen := congrArg List.length (htake.symm.trans hout)
      have hle := hr.le.trans (h.length_le (Nat.le_refl N))
      rw [List.length_take] at hlen
      omega
    refine ⟨hharm, ?_, ?_⟩
    · apply dropWhile_eq_self
      intro b hb
      rw [List.getElem?_drop] at hb
      change text[(settled mark V N).length]? = some b at hb
      obtain hearly | ⟨a, ha, hblank⟩ := hr.early
      · rw [List.getElem?_eq_none (by omega)] at hb
        cases hb
      · rw [ha, Option.some.injEq] at hb
        exact hb ▸ hblank
    · have hlast := (hr.last (by rw [hall, h.whole])).2
      rwa [h.whole] at hlast
  · rintro ⟨hharm, hpend, hkept⟩
    obtain ⟨hr, htake⟩ := output_eq_take h hnil (Nat.le_refl N) hharm
    rw [htake]
    apply List.take_of_length_le
    cases N with
    | zero => rw [← h.whole, h.start]; exact Nat.zero_le _
    | succ n =>
        have hn : n < n + 1 := Nat.lt_succ_self n
        have hall : seen mark blank hold V n = text := by
          by_cases ho : Open mark (V (n + 1))
          · have happ := settled_append h hn
            rw [settled_succ_open ho] at hpend
            rw [h.whole] at happ
            rw [seen_open ho, h.whole, hpend, happ, visible, hkept]
            exact List.take_length
          · rw [seen_not_open ho, h.whole, visible, hkept]
            exact List.take_length
        rw [sent, hall]
        exact Nat.le_max_right _ _

end Run

end FreeToken.Views
