import FreeToken.Server.ReasoningParser

/-!
# Splitting a stream by think tags

A text is split by reading it from the left: outside a span up to the next open tag,
inside it up to the next close tag. The split can be taken up again where a text ended, on
the side it ended and with what came since the last tag. `ThinkTagParser` keeps the second
but not the first, and what it holds back of the text it emits too early: a stream is split
right as long as no token ends where either matters.
-/

namespace FreeToken

open Find

/-! ### The split of a text -/

/-- What a text gives to each side, the side on which it ends, and the rest since the last
tag. -/
structure Split where
  reasoning : List Char := []
  content : List Char := []
  inThink : Bool
  tail : List Char
deriving DecidableEq, Repr

namespace Split

/-- The split of a text that begins inside a span or outside. -/
def scan (inThink : Bool) (text : List Char) : Split :=
  if inThink then
    match _hfind : find closeTag text with
    | none => { inThink := true, tail := text }
    | some stop =>
        let s := scan false (text.drop (stop + closeTag.length))
        { s with reasoning := text.take stop ++ s.reasoning }
  else
    match _hfind : find openTag text with
    | none => { inThink := false, tail := text }
    | some start =>
        let s := scan true (text.drop (start + openTag.length))
        { s with content := text.take start ++ s.content }
termination_by text.length
decreasing_by
  · exact length_drop_find (by decide) _hfind
  · exact length_drop_find (by decide) _hfind

/-- The text is over: the rest belongs to the side it ends on. -/
def close (s : Split) : Delta :=
  if s.inThink then { reasoning := s.reasoning ++ s.tail, content := s.content }
  else { reasoning := s.reasoning, content := s.content ++ s.tail }

/-- The split goes on after what is there. -/
def append (s s' : Split) : Split :=
  { s' with reasoning := s.reasoning ++ s'.reasoning, content := s.content ++ s'.content }

end Split

/-- The reference split of a whole text. -/
def splitThink (text : List Char) : Delta := (Split.scan false text).close

section Scan

variable {text : List Char} {k : Nat}

theorem scan_inside_none (h : find closeTag text = none) :
    Split.scan true text = { inThink := true, tail := text } := by
  rw [Split.scan, if_pos rfl]
  split
  · rfl
  · rename_i hfind
    rw [h] at hfind
    cases hfind

theorem scan_inside_some (h : find closeTag text = some k) :
    Split.scan true text =
      { Split.scan false (text.drop (k + closeTag.length)) with
        reasoning := text.take k ++ (Split.scan false (text.drop (k + closeTag.length))).reasoning } := by
  rw [Split.scan, if_pos rfl]
  split
  · rename_i hfind
    rw [h] at hfind
    cases hfind
  · rename_i stop hfind
    rw [h] at hfind
    obtain rfl := Option.some.inj hfind
    rfl

theorem scan_outside_none (h : find openTag text = none) :
    Split.scan false text = { inThink := false, tail := text } := by
  rw [Split.scan, if_neg Bool.false_ne_true]
  split
  · rfl
  · rename_i hfind
    rw [h] at hfind
    cases hfind

theorem scan_outside_some (h : find openTag text = some k) :
    Split.scan false text =
      { Split.scan true (text.drop (k + openTag.length)) with
        content := text.take k ++ (Split.scan true (text.drop (k + openTag.length))).content } := by
  rw [Split.scan, if_neg Bool.false_ne_true]
  split
  · rename_i hfind
    rw [h] at hfind
    cases hfind
  · rename_i start hfind
    rw [h] at hfind
    obtain rfl := Option.some.inj hfind
    rfl

end Scan

/-- A text can be split as it arrives. -/
theorem scan_append (inThink : Bool) (text more : List Char) :
    Split.scan inThink (text ++ more) = (Split.scan inThink text).append
      (Split.scan (Split.scan inThink text).inThink ((Split.scan inThink text).tail ++ more)) := by
  fun_induction Split.scan inThink text with
  | case1 text hfind => rfl
  | case2 text stop hfind s ih =>
      have hle := find_le hfind
      rw [scan_inside_some (find_append hfind more), List.take_append_of_le_length (by omega),
        List.drop_append_of_le_length hle, ih]
      simp only [Split.append, List.append_assoc]
      rfl
  | case3 inThink text hout hfind =>
      obtain rfl : inThink = false := by simpa using hout
      rfl
  | case4 inThink text hout start hfind s ih =>
      obtain rfl : inThink = false := by simpa using hout
      have hle := find_le hfind
      rw [scan_outside_some (find_append hfind more), List.take_append_of_le_length (by omega),
        List.drop_append_of_le_length hle, ih]
      simp only [Split.append, List.append_assoc]
      rfl

/-! ### One token -/

/-- What is held back of the tail is nothing or all of it. -/
def KeepsWhole (tail tag : List Char) : Prop :=
  trailingPartial tail tag = 0 ∨ trailingPartial tail tag = tail.length

instance (tail tag : List Char) : Decidable (KeepsWhole tail tag) := inferInstanceAs (Decidable (_ ∨ _))

theorem keepsWhole_nil (tag : List Char) : KeepsWhole [] tag := Or.inl (by simp [trailingPartial,
  trailingPartialFrom])

/-- Then nothing is yielded of it. -/
theorem emit_keepsWhole {tail tag : List Char} (h : KeepsWhole tail tag) :
    (0 < emitFrom tail tag → tail.drop (emitFrom tail tag) = []) ∧
      (0 < emitFrom tail tag → tail.take (emitFrom tail tag) = tail) := by
  rcases h with hzero | hall
  · rw [emitFrom, hzero, Nat.sub_zero]
    exact ⟨fun _ => List.drop_length, fun _ => List.take_length⟩
  · rw [emitFrom, hall, Nat.sub_self]
    exact ⟨fun hpos => absurd hpos (Nat.lt_irrefl 0), fun hpos => absurd hpos (Nat.lt_irrefl 0)⟩

/-- The reasoning of a list of deltas. -/
def reasoningOf (ds : List Delta) : List Char := ds.flatMap Delta.reasoning

/-- The content of a list of deltas. -/
def contentOf (ds : List Delta) : List Char := ds.flatMap Delta.content

@[simp] theorem reasoningOf_append (ds ds' : List Delta) :
    reasoningOf (ds ++ ds') = reasoningOf ds ++ reasoningOf ds' := List.flatMap_append

@[simp] theorem contentOf_append (ds ds' : List Delta) :
    contentOf (ds ++ ds') = contentOf ds ++ contentOf ds' := List.flatMap_append

/-- Deltas that are not shown have nothing in them. -/
theorem of_shown (ds : List Delta) : reasoningOf (ReasoningParser.Delta.shown ds) = reasoningOf ds ∧
    contentOf (ReasoningParser.Delta.shown ds) = contentOf ds := by
  induction ds with
  | nil => exact ⟨rfl, rfl⟩
  | cons d ds ih =>
      rw [ReasoningParser.Delta.shown, List.filter_cons]
      split
      · rw [← ReasoningParser.Delta.shown]
        simp only [reasoningOf, contentOf, List.flatMap_cons] at ih ⊢
        exact ⟨by rw [ih.1], by rw [ih.2]⟩
      · rename_i hempty
        simp only [decide_eq_true_eq, not_or, not_not] at hempty
        rw [← ReasoningParser.Delta.shown]
        simp only [reasoningOf, contentOf, List.flatMap_cons, hempty.1, hempty.2,
          List.nil_append] at ih ⊢
        exact ih

/-- The tag the split looks for next. -/
def Split.tag (s : Split) : List Char := if s.inThink then closeTag else openTag

/-- What the loop makes of a text that leaves nothing half held back. -/
theorem parseLoop_of_keepsWhole (inThink : Bool) (text : List Char)
    (h : KeepsWhole (Split.scan inThink text).tail (Split.scan inThink text).tag) :
    reasoningOf (ThinkTagParser.parseLoop inThink text).1 = (Split.scan inThink text).reasoning ∧
      contentOf (ThinkTagParser.parseLoop inThink text).1 = (Split.scan inThink text).content ∧
      (ThinkTagParser.parseLoop inThink text).2.1 = (Split.scan inThink text).inThink ∧
      (ThinkTagParser.parseLoop inThink text).2.2 = (Split.scan inThink text).tail := by
  fun_induction ThinkTagParser.parseLoop inThink text with
  | case1 text hfind cut hcut =>
      rw [scan_inside_none hfind] at h ⊢
      obtain ⟨hdrop, htake⟩ := emit_keepsWhole h
      have hnil : text.drop cut = [] := hdrop hcut
      exact ⟨by simp [reasoningOf, hnil], rfl, rfl, htake hcut⟩
  | case2 text hfind cut hcut =>
      rw [scan_inside_none hfind]
      exact ⟨rfl, rfl, rfl, rfl⟩
  | case3 text stop hfind reasoning ds rest heq ih =>
      rw [scan_inside_some hfind] at h ⊢
      obtain ⟨hr, hc, hin, htail⟩ := ih h
      rw [heq] at hr hc hin htail
      refine ⟨?_, ?_, hin, htail⟩
      · rw [reasoningOf_append, hr]
        congr 1
        split
        · rename_i hnil
          exact hnil.symm
        · exact List.append_nil _
      · rw [contentOf_append, hc]
        split <;> rfl
  | case4 inThink text hout hfind cut hcut =>
      obtain rfl : inThink = false := by simpa using hout
      rw [scan_outside_none hfind] at h ⊢
      obtain ⟨hdrop, htake⟩ := emit_keepsWhole h
      have hnil : text.drop cut = [] := hdrop hcut
      exact ⟨rfl, by simp [contentOf, hnil], rfl, htake hcut⟩
  | case5 inThink text hout hfind cut hcut =>
      obtain rfl : inThink = false := by simpa using hout
      rw [scan_outside_none hfind]
      exact ⟨rfl, rfl, rfl, rfl⟩
  | case6 inThink text hout start hfind content ds rest heq ih =>
      obtain rfl : inThink = false := by simpa using hout
      rw [scan_outside_some hfind] at h ⊢
      obtain ⟨hr, hc, hin, htail⟩ := ih h
      rw [heq] at hr hc hin htail
      refine ⟨?_, ?_, hin, htail⟩
      · rw [reasoningOf_append, hr]
        split <;> rfl
      · rw [contentOf_append, hc]
        congr 1
        split
        · rename_i hnil
          exact hnil.symm
        · exact List.append_nil _

/-! ### The stream -/

/-- The text so far can be left to the parser: it ends outside a span, with nothing to hold
back or nothing else; or right behind an open tag, and no text follows. -/
def Settled (s : Split) (later : List Char) : Prop :=
  if s.inThink then s.tail = [] ∧ later = [] else KeepsWhole s.tail openTag

instance (s : Split) (later : List Char) : Decidable (Settled s later) := by
  unfold Settled
  split <;> infer_instance

/-- Every token ends so. -/
def Settles (tokens : List (List Char)) : Prop :=
  ∀ k ≤ tokens.length,
    Settled (Split.scan false (tokens.take k).flatten) (tokens.drop k).flatten

instance (tokens : List (List Char)) : Decidable (Settles tokens) :=
  inferInstanceAs (Decidable (∀ k ≤ tokens.length, _))

theorem Settled.keepsWhole {s : Split} {later : List Char} (h : Settled s later) :
    KeepsWhole s.tail s.tag := by
  unfold Settled at h
  unfold Split.tag
  split at h <;> rename_i hin
  · rw [h.1]
    exact keepsWhole_nil _
  · rw [if_neg hin]
    exact h

namespace ReasoningParser

/-- A token is split where the text before it ended. -/
theorem feed_settled {seen token later : List Char}
    (hseen : Settled (Split.scan false seen) (token ++ later))
    (hnext : Settled (Split.scan false (seen ++ token)) later) :
    (Split.scan false seen).reasoning ++
        reasoningOf (feed thinkTag (Split.scan false seen).tail token).1 =
          (Split.scan false (seen ++ token)).reasoning ∧
      (Split.scan false seen).content ++
        contentOf (feed thinkTag (Split.scan false seen).tail token).1 =
          (Split.scan false (seen ++ token)).content ∧
      (feed thinkTag (Split.scan false seen).tail token).2 =
        (Split.scan false (seen ++ token)).tail := by
  have hfeed : feed thinkTag (Split.scan false seen).tail token =
      (Delta.shown (ThinkTagParser.parseLoop false ((Split.scan false seen).tail ++ token)).1,
        (ThinkTagParser.parseLoop false ((Split.scan false seen).tail ++ token)).2.2) := by
    simp only [feed, parse, ThinkTagParser.parseChunks, List.append_nil]
  obtain ⟨hshownr, hshownc⟩ := of_shown
    (ThinkTagParser.parseLoop false ((Split.scan false seen).tail ++ token)).1
  rw [hfeed]
  dsimp only
  rw [hshownr, hshownc]
  cases hin : (Split.scan false seen).inThink with
  | false =>
      have happend := scan_append false seen token
      rw [hin] at happend
      rw [happend] at hnext ⊢
      obtain ⟨hr, hc, -, htail⟩ := parseLoop_of_keepsWhole false _ hnext.keepsWhole
      rw [hr, hc, htail]
      exact ⟨rfl, rfl, rfl⟩
  | true =>
      -- only the empty token may follow
      rw [Settled, if_pos hin] at hseen
      obtain ⟨htail, hnil⟩ := hseen
      obtain ⟨rfl, -⟩ := List.append_eq_nil_iff.mp hnil
      have hnone : find openTag ([] : List Char) = none := by decide
      have hscan := scan_outside_none hnone
      have hkeep : KeepsWhole (Split.scan false []).tail (Split.scan false []).tag := by
        rw [hscan]
        exact keepsWhole_nil _
      obtain ⟨hr, hc, -, hrest⟩ := parseLoop_of_keepsWhole false [] hkeep
      rw [hscan] at hr hc hrest
      rw [htail, List.append_nil, List.append_nil, hr, hc, hrest]
      exact ⟨List.append_nil _, List.append_nil _, htail.symm⟩

theorem feedAll_settled : ∀ {tokens : List (List Char)} {seen : List Char},
    (∀ k ≤ tokens.length, Settled (Split.scan false (seen ++ (tokens.take k).flatten))
      (tokens.drop k).flatten) →
    (Split.scan false seen).reasoning ++
        reasoningOf (feedAll thinkTag (Split.scan false seen).tail tokens).1 =
          (Split.scan false (seen ++ tokens.flatten)).reasoning ∧
      (Split.scan false seen).content ++
        contentOf (feedAll thinkTag (Split.scan false seen).tail tokens).1 =
          (Split.scan false (seen ++ tokens.flatten)).content ∧
      (feedAll thinkTag (Split.scan false seen).tail tokens).2 =
        (Split.scan false (seen ++ tokens.flatten)).tail
  | [], seen, _ => by simp [feedAll, reasoningOf, contentOf]
  | token :: tokens, seen, h => by
      have hseen := h 0 (Nat.zero_le _)
      have hnext := h 1 (Nat.le_add_left 1 _)
      simp only [List.take_zero, List.flatten_nil, List.append_nil, List.drop_zero,
        List.flatten_cons, List.take_succ_cons, List.drop_succ_cons] at hseen hnext
      obtain ⟨hr, hc, htail⟩ := feed_settled hseen hnext
      have hlater : ∀ k ≤ tokens.length,
          Settled (Split.scan false (seen ++ token ++ (tokens.take k).flatten))
            (tokens.drop k).flatten := by
        intro k hk
        have hk' := h (k + 1) (Nat.succ_le_succ hk)
        simpa [List.append_assoc] using hk'
      obtain ⟨hrs, hcs, htails⟩ := feedAll_settled hlater
      rw [feedAll]
      dsimp only
      rw [reasoningOf_append, contentOf_append, ← List.append_assoc, ← List.append_assoc, hr, hc,
        htail, List.flatten_cons, ← List.append_assoc]
      exact ⟨hrs, hcs, htails⟩

/-- A stream whose tokens all end where the text can be left to the parser is split as the
whole text is. -/
theorem streamChat_splits (tokens : List (List Char)) (h : Settles tokens) :
    reasoningOf (streamChat thinkTag [] tokens).1 = (splitThink tokens.flatten).reasoning ∧
      contentOf (streamChat thinkTag [] tokens).1 = (splitThink tokens.flatten).content := by
  have hnone : find openTag ([] : List Char) = none := by decide
  have hscan := scan_outside_none hnone
  have hstart : ∀ k ≤ tokens.length, Settled (Split.scan false ([] ++ (tokens.take k).flatten))
      (tokens.drop k).flatten := fun k hk => h k hk
  obtain ⟨hr, hc, htail⟩ := feedAll_settled hstart
  simp only [hscan, List.nil_append] at hr hc htail
  have hend := h tokens.length (Nat.le_refl _)
  rw [List.take_length] at hend
  obtain ⟨hflushr, hflushc⟩ := of_shown [{ content := (feedAll thinkTag [] tokens).2 }]
  simp only [streamChat, drain, flush, reasoningOf_append, contentOf_append, hflushr, hflushc]
  rw [splitThink, Split.close, ← hr, ← hc, ← htail]
  rw [Settled, ← htail] at hend
  simp only [reasoningOf, contentOf, List.flatMap_cons, List.flatMap_nil, List.append_nil]
  split at hend
  · rename_i hin
    rw [if_pos hin, hend.1, List.append_nil, List.append_nil]
    exact ⟨rfl, rfl⟩
  · rename_i hin
    rw [if_neg hin]
    exact ⟨rfl, rfl⟩

/-- The reasoning of this stream comes in a later token than its open tag. -/
def thinkThenText : List (List Char) := ["<think>".toList, "a</think>".toList]

/-- It is answered as content, with the close tag. -/
theorem thinkThenText_misroutes :
    reasoningOf (streamChat thinkTag [] thinkThenText).1 = [] ∧
      contentOf (streamChat thinkTag [] thinkThenText).1 = "a</think>".toList ∧
      (splitThink thinkThenText.flatten).reasoning = "a".toList := by decide +kernel

/-- A span in one token, between texts that come in several. -/
def spanInOne : List (List Char) :=
  ["ab".toList, "c<think>d</think>".toList, "e".toList, "f<think>g</think>".toList, "h".toList]

theorem spanInOne_splits :
    reasoningOf (streamChat thinkTag [] spanInOne).1 = (splitThink spanInOne.flatten).reasoning ∧
      contentOf (streamChat thinkTag [] spanInOne).1 = (splitThink spanInOne.flatten).content := by
  have hsettles : Settles spanInOne := by decide +kernel
  exact streamChat_splits _ hsettles

end ReasoningParser

end FreeToken
