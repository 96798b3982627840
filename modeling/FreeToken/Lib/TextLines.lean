import FreeToken.Lib.ReadNumbers
import Mathlib.Data.List.TakeWhile

/-!
# The lines of a text

Python's `splitlines` and `"\n".join`. A text is compared by its entries, the stripped lines that
are not blank and pass a test: they do not change when a text is split, joined and stripped.
-/

namespace FreeToken

/-- The characters that end a line. `'\r'` before `'\n'` ends it together with that. -/
def isLineBreak (c : Char) : Bool :=
  (10 ≤ c.toNat && c.toNat ≤ 13) || (0x1c ≤ c.toNat && c.toNat ≤ 0x1e) ||
    c.toNat ∈ [0x85, 0x2028, 0x2029]

/-- `text.splitlines()`. -/
@[grind =]
def splitLines : List Char → List (List Char)
  | [] => []
  | '\r' :: '\n' :: cs => [] :: splitLines cs
  | c :: cs =>
      if isLineBreak c then [] :: splitLines cs
      else
        match splitLines cs with
        | [] => [[c]]
        | line :: lines => (c :: line) :: lines

/-- `"\n".join(lines)`. -/
def joinLines (lines : List (List Char)) : List Char := ['\n'].intercalate lines

example : splitLines "a\r\nb\n\nc\u2028".toList = ["a".toList, "b".toList, [], "c".toList] := by
  decide +kernel

/-- The stripped lines that pass the test. -/
def entriesOf (test : List Char → Bool) (lines : List (List Char)) : List (List Char) :=
  (lines.map pyStrip).filter test

/-! ### Stripped texts -/

theorem pyStrip_append_left {before : List Char} (h : ∀ c ∈ before, isSpace c = true)
    (cs : List Char) : pyStrip (before ++ cs) = pyStrip cs := by
  rw [pyStrip, pyStrip, List.dropWhile_append_of_pos h]

theorem pyStrip_append_right (cs : List Char) {after : List Char}
    (h : ∀ c ∈ after, isSpace c = true) : pyStrip (cs ++ after) = pyStrip cs := by
  rw [pyStrip, pyStrip, List.dropWhile_append]
  split
  · rename_i hempty
    rw [List.isEmpty_iff.mp hempty, List.dropWhile_eq_nil_iff.mpr h]
  · rw [List.reverse_append, List.dropWhile_append_of_pos fun c hc => h c (List.mem_reverse.mp hc)]

theorem isSpace_of_mem_takeWhile {c : Char} {cs : List Char} (h : c ∈ cs.takeWhile isSpace) :
    isSpace c = true :=
  List.all_eq_true.mp List.all_takeWhile c h

/-- A text is its stripped text between two runs of space. -/
theorem exists_eq_pyStrip (cs : List Char) : ∃ before after, cs = before ++ (pyStrip cs ++ after) ∧
    (∀ c ∈ before, isSpace c = true) ∧ ∀ c ∈ after, isSpace c = true := by
  refine ⟨cs.takeWhile isSpace, ((cs.dropWhile isSpace).reverse.takeWhile isSpace).reverse, ?_,
    fun c hc => isSpace_of_mem_takeWhile hc,
    fun c hc => isSpace_of_mem_takeWhile (List.mem_reverse.mp hc)⟩
  rw [pyStrip, ← List.reverse_append, List.takeWhile_append_dropWhile, List.reverse_reverse,
    List.takeWhile_append_dropWhile]

theorem pyStrip_pyStrip (cs : List Char) : pyStrip (pyStrip cs) = pyStrip cs := by
  obtain ⟨before, after, hcs, hbefore, hafter⟩ := exists_eq_pyStrip cs
  calc pyStrip (pyStrip cs) = pyStrip (pyStrip cs ++ after) :=
        (pyStrip_append_right _ hafter).symm
    _ = pyStrip (before ++ (pyStrip cs ++ after)) := (pyStrip_append_left hbefore _).symm
    _ = pyStrip cs := by rw [← hcs]

theorem pyStrip_eq_nil {cs : List Char} (h : ∀ c ∈ cs, isSpace c = true) : pyStrip cs = [] :=
  (pyStrip_append_right [] h).trans rfl

theorem mem_of_mem_pyStrip {c : Char} {cs : List Char} (h : c ∈ pyStrip cs) : c ∈ cs := by
  obtain ⟨before, after, hcs, -, -⟩ := exists_eq_pyStrip cs
  rw [hcs]
  exact List.mem_append_right before (List.mem_append_left after h)

theorem mem_pyStrip {c : Char} {cs : List Char} (h : c ∈ cs) (hspace : isSpace c = false) :
    c ∈ pyStrip cs := by
  obtain ⟨before, after, hcs, hbefore, hafter⟩ := exists_eq_pyStrip cs
  rw [hcs] at h
  rcases List.mem_append.mp h with h | h
  · simp [hbefore c h] at hspace
  · rcases List.mem_append.mp h with h | h
    · exact h
    · simp [hafter c h] at hspace

/-! ### Lines -/

/-- No character of the text ends a line. -/
def Unbroken (line : List Char) : Prop := ∀ c ∈ line, isLineBreak c = false

/-- A text is one line, or a line that ends and a text after it. -/
theorem lines_induction {motive : List Char → Prop} (one : ∀ line, Unbroken line → motive line)
    (more : ∀ line c text, Unbroken line → isLineBreak c = true → motive text →
      motive (line ++ c :: text)) (text : List Char) : motive text := by
  induction hn : text.length using Nat.strong_induction_on generalizing text with
  | _ n ih =>
      have hsplit := List.takeWhile_append_dropWhile (p := fun c => !isLineBreak c) (l := text)
      have hline : Unbroken (text.takeWhile fun c => !isLineBreak c) := fun c hc => by
        simpa using List.all_eq_true.mp List.all_takeWhile c hc
      cases hrest : text.dropWhile fun c => !isLineBreak c with
      | nil =>
          rw [hrest, List.append_nil] at hsplit
          exact hsplit ▸ one _ hline
      | cons c rest =>
          have hbreak : isLineBreak c = true := by
            have := List.head_dropWhile_not (fun c => !isLineBreak c) (l := text) (by simp [hrest])
            simpa [hrest] using this
          rw [hrest] at hsplit
          have hlength := congrArg List.length hsplit
          rw [List.length_append, List.length_cons] at hlength
          rw [← hsplit]
          exact more _ c rest hline hbreak (ih rest.length (by omega) rest rfl)

theorem unbroken_append {line line' : List Char} (h : Unbroken line) (h' : Unbroken line') :
    Unbroken (line ++ line') := by
  intro c hc
  rcases List.mem_append.mp hc with hc | hc
  · exact h c hc
  · exact h' c hc

theorem splitLines_eq_nil {text : List Char} (h : splitLines text = []) : text = [] := by
  induction text using splitLines.induct with
  | case1 => rfl
  | case2 cs ih => simp [splitLines] at h
  | case3 c cs hcr hbreak ih => simp [splitLines, hbreak] at h
  | case4 c cs hcr hbreak hnil ih => simp [splitLines, hbreak, hnil] at h
  | case5 c cs hcr hbreak line lines hlines ih => simp [splitLines, hbreak, hlines] at h

theorem splitLines_cons {c : Char} (h : isLineBreak c = false) (cs : List Char) :
    splitLines (c :: cs) =
      (c :: (splitLines cs).headD []) :: (splitLines cs).tail := by
  have hcr : c ≠ '\r' := by
    rintro rfl
    exact absurd h (by decide)
  rw [splitLines, if_neg (by simp [h])]
  · cases splitLines cs <;> rfl
  · exact fun _ hc _ => hcr hc

/-- The lines of a split text have no breaks. -/
theorem unbroken_of_mem_splitLines {text line : List Char} (h : line ∈ splitLines text) :
    Unbroken line := by
  induction text using splitLines.induct generalizing line with
  | case1 => simp [splitLines] at h
  | case2 cs ih =>
      rcases List.mem_cons.mp h with rfl | h
      · simp [Unbroken]
      · exact ih h
  | case3 c cs hcr hbreak ih =>
      rw [splitLines, if_pos hbreak] at h
      · rcases List.mem_cons.mp h with rfl | h
        · simp [Unbroken]
        · exact ih h
      · exact hcr
  | case4 c cs hcr hbreak hnil ih =>
      rw [splitLines_cons (by simpa using hbreak), hnil] at h
      simpa [Unbroken, List.mem_singleton.mp h] using hbreak
  | case5 c cs hcr hbreak line' lines hlines ih =>
      rw [splitLines_cons (by simpa using hbreak), hlines] at h
      rcases List.mem_cons.mp h with rfl | h
      · have := ih (hlines ▸ List.mem_cons_self)
        intro c' hc'
        rcases List.mem_cons.mp hc' with rfl | hc'
        · simpa using hbreak
        · exact this c' hc'
      · exact ih (hlines ▸ List.mem_cons_of_mem line' h)

theorem splitLines_of_unbroken {line : List Char} (h : Unbroken line) (hne : line ≠ []) :
    splitLines line = [line] := by
  induction line with
  | nil => exact absurd rfl hne
  | cons c cs ih =>
      rw [splitLines_cons (h c List.mem_cons_self)]
      cases cs with
      | nil => rfl
      | cons c' cs => rw [ih (fun d hd => h d (List.mem_cons_of_mem c hd)) (by simp)]; rfl

theorem splitLines_append_newline {line : List Char} (h : Unbroken line) (text : List Char) :
    splitLines (line ++ '\n' :: text) = line :: splitLines text := by
  induction line with
  | nil =>
      rw [List.nil_append, splitLines, if_pos (by decide)]
      exact fun _ h _ => absurd h (by decide)
  | cons c line ih =>
      rw [List.cons_append, splitLines_cons (h c List.mem_cons_self),
        ih fun d hd => h d (List.mem_cons_of_mem c hd)]
      rfl

/-! ### Entries -/

section Entries

variable {test : List Char → Bool}

theorem entriesOf_append (test : List Char → Bool) (lines lines' : List (List Char)) :
    entriesOf test (lines ++ lines') = entriesOf test lines ++ entriesOf test lines' := by
  rw [entriesOf, List.map_append, List.filter_append, entriesOf, entriesOf]

theorem entriesOf_cons (test : List Char → Bool) (line : List Char) (lines : List (List Char)) :
    entriesOf test (line :: lines) = entriesOf test [line] ++ entriesOf test lines :=
  entriesOf_append test [line] lines

/-- Lines that are the same but for the space around them have the same entries. -/
theorem entriesOf_singleton_congr {line line' : List Char} (h : pyStrip line = pyStrip line') :
    entriesOf test [line] = entriesOf test [line'] := by
  simp [entriesOf, h]

variable (hblank : test [] = false)

include hblank

theorem entriesOf_of_isSpace {line : List Char} (h : ∀ c ∈ line, isSpace c = true) :
    entriesOf test [line] = [] := by
  simp [entriesOf, pyStrip_eq_nil h, hblank]

theorem entriesOf_splitLines_of_unbroken {line : List Char} (h : Unbroken line) :
    entriesOf test (splitLines line) = entriesOf test [line] := by
  by_cases hne : line = []
  · subst hne
    exact (entriesOf_of_isSpace hblank (by simp)).symm
  · rw [splitLines_of_unbroken h hne]

/-- The line before a break is split off. The break may end together with the next character. -/
theorem splitLines_append_break {line : List Char} (h : Unbroken line) {c : Char}
    (hc : isLineBreak c = true) (text : List Char) : ∃ rest,
    splitLines (line ++ c :: text) = line :: rest ∧
      entriesOf test rest = entriesOf test (splitLines text) := by
  induction line with
  | nil =>
      by_cases hcr : c = '\r' ∧ ∃ cs, text = '\n' :: cs
      · obtain ⟨rfl, cs, rfl⟩ := hcr
        refine ⟨splitLines cs, rfl, ?_⟩
        have hnewline : splitLines ('\n' :: cs) = [] :: splitLines cs :=
          splitLines_append_newline h cs
        rw [hnewline, entriesOf_cons, entriesOf_of_isSpace hblank (by simp), List.nil_append]
      · refine ⟨splitLines text, ?_, rfl⟩
        rw [List.nil_append, splitLines, if_pos hc]
        exact fun cs h h' => hcr ⟨h, cs, h'⟩
  | cons d line ih =>
      obtain ⟨rest, hrest, hentries⟩ := ih fun e he => h e (List.mem_cons_of_mem d he)
      refine ⟨rest, ?_, hentries⟩
      rw [List.cons_append, splitLines_cons (h d List.mem_cons_self), hrest]
      rfl

theorem entriesOf_append_break {line : List Char} (h : Unbroken line) {c : Char}
    (hc : isLineBreak c = true) (text : List Char) :
    entriesOf test (splitLines (line ++ c :: text)) =
      entriesOf test [line] ++ entriesOf test (splitLines text) := by
  obtain ⟨rest, hrest, hentries⟩ := splitLines_append_break hblank h hc text
  rw [hrest, entriesOf_cons, hentries]

theorem entriesOf_isSpace_append {before : List Char} (h : ∀ c ∈ before, isSpace c = true)
    (text : List Char) :
    entriesOf test (splitLines (before ++ text)) = entriesOf test (splitLines text) := by
  induction before using lines_induction with
  | one before hbefore =>
      induction text using lines_induction with
      | one line hline =>
          rw [entriesOf_splitLines_of_unbroken hblank (unbroken_append hbefore hline),
            entriesOf_splitLines_of_unbroken hblank hline]
          exact entriesOf_singleton_congr (pyStrip_append_left h line)
      | more line c text hline hc ih =>
          rw [← List.append_assoc, entriesOf_append_break hblank (unbroken_append hbefore hline) hc,
            entriesOf_append_break hblank hline hc,
            entriesOf_singleton_congr (pyStrip_append_left h line)]
  | more line c before hline hc ih =>
      rw [List.append_assoc, List.cons_append, entriesOf_append_break hblank hline hc,
        entriesOf_of_isSpace hblank fun d hd => h d (List.mem_append_left _ hd), List.nil_append]
      exact ih fun d hd => h d (List.mem_append_right _ (List.mem_cons_of_mem c hd))

theorem entriesOf_append_isSpace (text : List Char) {after : List Char}
    (h : ∀ c ∈ after, isSpace c = true) :
    entriesOf test (splitLines (text ++ after)) = entriesOf test (splitLines text) := by
  induction text using lines_induction with
  | one line hline =>
      induction after using lines_induction with
      | one after hafter =>
          rw [entriesOf_splitLines_of_unbroken hblank (unbroken_append hline hafter),
            entriesOf_splitLines_of_unbroken hblank hline]
          exact entriesOf_singleton_congr (pyStrip_append_right line h)
      | more space c after hspace hc ih =>
          have hrest : entriesOf test (splitLines after) = [] := by
            have := entriesOf_isSpace_append hblank
              (fun d hd => h d (List.mem_append_right _ (List.mem_cons_of_mem c hd))) []
            simpa [entriesOf, splitLines] using this
          rw [← List.append_assoc, entriesOf_append_break hblank (unbroken_append hline hspace) hc,
            hrest, List.append_nil, entriesOf_splitLines_of_unbroken hblank hline]
          exact entriesOf_singleton_congr
            (pyStrip_append_right line fun d hd => h d (List.mem_append_left _ hd))
  | more line c text hline hc ih =>
      rw [List.append_assoc, List.cons_append, entriesOf_append_break hblank hline hc, ih,
        entriesOf_append_break hblank hline hc]

theorem entriesOf_pyStrip (text : List Char) :
    entriesOf test (splitLines (pyStrip text)) = entriesOf test (splitLines text) := by
  obtain ⟨before, after, htext, hbefore, hafter⟩ := exists_eq_pyStrip text
  calc entriesOf test (splitLines (pyStrip text))
      = entriesOf test (splitLines (pyStrip text ++ after)) :=
        (entriesOf_append_isSpace hblank _ hafter).symm
    _ = entriesOf test (splitLines (before ++ (pyStrip text ++ after))) :=
        (entriesOf_isSpace_append hblank hbefore _).symm
    _ = entriesOf test (splitLines text) := by rw [← htext]

/-- Lines that are joined and split again have the same entries. -/
theorem entriesOf_joinLines {lines : List (List Char)} (h : ∀ line ∈ lines, Unbroken line) :
    entriesOf test (splitLines (joinLines lines)) = entriesOf test lines := by
  induction lines with
  | nil => rfl
  | cons line lines ih =>
      have hline := h line List.mem_cons_self
      cases lines with
      | nil =>
          rw [joinLines, List.intercalate_singleton]
          exact entriesOf_splitLines_of_unbroken hblank hline
      | cons line' lines =>
          rw [joinLines, List.intercalate_cons_cons, List.append_assoc, List.singleton_append,
            entriesOf_append_break hblank hline (by decide),
            entriesOf_cons test line (line' :: lines)]
          exact congrArg _ (ih fun l hl => h l (List.mem_cons_of_mem line hl))

end Entries

/-! ### Texts whose lines end in newlines -/

/-- The text has no line break but `'\n'`. -/
def NewlineText (text : List Char) : Prop := ∀ c ∈ text, isLineBreak c = true → c = '\n'

theorem newlineText_joinLines {lines : List (List Char)} (h : ∀ line ∈ lines, Unbroken line) :
    NewlineText (joinLines lines) := by
  induction lines with
  | nil => simp [joinLines, NewlineText]
  | cons line lines ih =>
      have hline := h line List.mem_cons_self
      cases lines with
      | nil =>
          intro c hc hbreak
          rw [joinLines, List.intercalate_singleton] at hc
          exact absurd hbreak (by simp [hline c hc])
      | cons line' lines =>
          intro c hc hbreak
          rw [joinLines, List.intercalate_cons_cons, List.append_assoc, List.singleton_append] at hc
          rcases List.mem_append.mp hc with hc | hc
          · exact absurd hbreak (by simp [hline c hc])
          · rcases List.mem_cons.mp hc with rfl | hc
            · rfl
            · exact ih (fun l hl => h l (List.mem_cons_of_mem line hl)) c hc hbreak

/-- Splitting and joining such a text loses at most the newline at its end. -/
theorem joinLines_splitLines {text : List Char} (h : NewlineText text) :
    ∃ after, (∀ c ∈ after, isSpace c = true) ∧ joinLines (splitLines text) ++ after = text := by
  induction text using lines_induction with
  | one line hline =>
      refine ⟨[], by simp, ?_⟩
      by_cases hne : line = []
      · subst hne
        rfl
      · rw [splitLines_of_unbroken hline hne, joinLines, List.intercalate_singleton, List.append_nil]
  | more line c text hline hc ih =>
      obtain rfl := h c (List.mem_append_right line List.mem_cons_self) hc
      rw [splitLines_append_newline hline]
      cases hlines : splitLines text with
      | nil =>
          obtain rfl := splitLines_eq_nil hlines
          exact ⟨['\n'], by simp; decide, by rw [joinLines, List.intercalate_singleton]⟩
      | cons line' lines =>
          obtain ⟨after, hafter, htext⟩ :=
            ih fun d hd => h d (List.mem_append_right line (List.mem_cons_of_mem _ hd))
          refine ⟨after, hafter, ?_⟩
          rw [← htext, hlines, joinLines, joinLines, List.intercalate_cons_cons]
          simp only [List.append_assoc, List.cons_append, List.nil_append]

/-- Splitting, joining and stripping such a text is stripping it. -/
theorem pyStrip_joinLines_splitLines {text : List Char} (h : NewlineText text) :
    pyStrip (joinLines (splitLines text)) = pyStrip text := by
  obtain ⟨after, hafter, htext⟩ := joinLines_splitLines h
  rw [← pyStrip_append_right _ hafter, htext]

end FreeToken
