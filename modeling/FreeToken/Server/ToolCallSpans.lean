import FreeToken.Server.FunctionCallParser

/-!
# Tool calls and the spans of a text

The buffer is the end of the text that is kept, cut where no marker can be lost. So in every cutting
of a text the parser finds the spans of the text, as long as no marker joins around a call that was
cut out; and on the whole text in one chunk it finds what is left after each cut.
-/

namespace FreeToken

open Find
open Spans (Markers Span)

namespace GenericTagParser

variable {m : Markers Char} {buffer : List Char}

/-! ### The loop -/

theorem parseLoop_none (h : find m.opener buffer = none) :
    parseLoop m buffer = ([], if trailingPartial buffer m.opener ≠ 0 then
      buffer.drop (buffer.length - trailingPartial buffer m.opener) else []) := by
  rw [parseLoop]
  split
  · rfl
  · rename_i hsome
    rw [h] at hsome
    cases hsome

theorem parseLoop_open {start : Nat} (h : find m.opener buffer = some start)
    (hnext : m.next buffer = none) : parseLoop m buffer = ([], buffer.drop start) := by
  rw [Markers.next_of_find h, Option.map_eq_none_iff] at hnext
  rw [parseLoop]
  split
  · rename_i hnone
    rw [h] at hnone
    cases hnone
  · rename_i start' hstart
    obtain rfl := Option.some.inj (h.symm.trans hstart)
    dsimp only
    split
    · rfl
    · rename_i length hstop
      exact absurd (hnext.symm.trans hstop) (by simp)

theorem parseLoop_next {s : Span Char} (h : m.next buffer = some s) :
    parseLoop m buffer =
      (s.inside :: (parseLoop m (s.before ++ s.after)).1, (parseLoop m (s.before ++ s.after)).2) := by
  rw [parseLoop]
  split
  · rename_i hnone
    rw [Markers.next_of_find_none hnone] at h
    cases h
  · rename_i start hstart
    rw [Markers.next_of_find hstart] at h
    dsimp only
    split
    · rename_i hnone
      rw [hnone] at h
      cases h
    · rename_i length hstop
      rw [hstop] at h
      obtain rfl := Option.some.inj h
      rfl

/-- The whole text in one chunk. -/
theorem parseLoop_erase (m : Markers Char) (buffer : List Char) :
    (parseLoop m buffer).1 = m.erase buffer := by
  induction hn : buffer.length using Nat.strong_induction_on generalizing buffer with
  | h n ih =>
      cases h : m.next buffer with
      | none =>
          rw [Markers.erase_none h]
          cases hfind : find m.opener buffer with
          | none => rw [parseLoop_none hfind]
          | some start => rw [parseLoop_open hfind h]
      | some s =>
          rw [parseLoop_next h, Markers.erase_some h, ih _ (hn ▸ Markers.length_cut h) _ rfl]

/-! ### What the buffer keeps -/

theorem le_trailingPartialFrom {text tag : List Char} {n k : Nat} (hk : k ≤ n)
    (h : tag.take k <:+ text) : k ≤ trailingPartialFrom text tag n := by
  induction n with
  | zero => exact hk
  | succ n ih =>
      rw [trailingPartialFrom]
      split
      · exact hk
      · rename_i hnot
        apply ih
        obtain rfl | hlt := Nat.eq_or_lt_of_le hk
        · exact absurd h hnot
        · exact Nat.le_of_lt_succ hlt

/-- No longer end of the text is a beginning of the tag. -/
theorem le_trailingPartial {text tag : List Char} {k : Nat} (htext : k ≤ text.length)
    (htag : k < tag.length) (h : tag.take k <:+ text) : k ≤ trailingPartial text tag :=
  le_trailingPartialFrom (Nat.le_min.mpr ⟨htext, Nat.le_sub_one_of_lt htag⟩) h

/-- The buffer against the text: `kept` is what is in front of the calls so far, `tail` what came
since the last of them. -/
structure Holds (m : Markers Char) (kept tail buffer : List Char) (dropped : List Char) : Prop where
  text_eq : kept ++ tail = dropped ++ buffer
  /-- Whatever comes, the next opening marker is in the buffer. -/
  next_le : ∀ more start, find m.opener (tail ++ more) = some start →
    dropped.length ≤ kept.length + start

namespace Holds

variable {kept tail dropped : List Char}

theorem append (h : Holds m kept tail buffer dropped) (chunk : List Char) :
    Holds m kept (tail ++ chunk) (buffer ++ chunk) dropped where
  text_eq := by rw [← List.append_assoc, h.text_eq, List.append_assoc]
  next_le := by
    intro more start hstart
    rw [List.append_assoc] at hstart
    exact h.next_le (chunk ++ more) start hstart

theorem length_eq (h : Holds m kept tail buffer dropped) :
    kept.length + tail.length = dropped.length + buffer.length := by
  rw [← List.length_append, h.text_eq, List.length_append]

/-- An occurrence in the tail, in the buffer. -/
theorem occurs (h : Holds m kept tail buffer dropped) {start i : Nat}
    (hi : kept.length + start = dropped.length + i) (hpre : m.opener <+: tail.drop start) :
    m.opener <+: buffer.drop i := by
  have hkept := (prefix_drop_left kept).mpr hpre
  rw [h.text_eq, hi] at hkept
  exact (prefix_drop_left dropped).mp hkept

/-- More of the buffer may be dropped, up to where an opening marker may begin. -/
theorem drop (h : Holds m kept tail buffer dropped) {n : Nat} (hn : n ≤ buffer.length)
    (hnext : ∀ more start, find m.opener (tail ++ more) = some start →
      dropped.length + n ≤ kept.length + start) :
    Holds m kept tail (buffer.drop n) (dropped ++ buffer.take n) where
  text_eq := by rw [h.text_eq, List.append_assoc, List.take_append_drop]
  next_le := by
    intro more start hstart
    rw [List.length_append, List.length_take, Nat.min_eq_left hn]
    exact hnext more start hstart

/-- Nothing is lost when the end of the buffer is kept that may become an opening marker. -/
theorem dropPartial (h : Holds m kept tail buffer dropped) (hfind : find m.opener buffer = none) :
    Holds m kept tail (buffer.drop (buffer.length - trailingPartial buffer m.opener))
      (dropped ++ buffer.take (buffer.length - trailingPartial buffer m.opener)) := by
  apply h.drop (Nat.sub_le _ _)
  intro more start hstart
  have hlength := h.length_eq
  have hle := h.next_le more start hstart
  have hpre := prefix_drop_find hstart
  obtain hlt | hge := Nat.lt_or_ge tail.length (start + m.opener.length)
  · obtain hout | hin := Nat.lt_or_ge tail.length start
    · omega
    · -- the end of the buffer from which the marker goes on
      have hk : tail.length - start ≤ trailingPartial buffer m.opener := by
        apply le_trailingPartial (by omega) (by omega)
        have htake : m.opener.take (tail.length - start) = tail.drop start := by
          rw [List.drop_append_of_le_length hin] at hpre
          have hend := hpre.take (tail.length - start)
          have hall : (tail.drop start).take (tail.length - start) = tail.drop start :=
            List.take_of_length_le (by rw [List.length_drop])
          rw [List.take_append_of_le_length (by rw [List.length_drop]), hall] at hend
          apply hend.eq_of_length
          rw [List.length_take, List.length_drop]
          omega
        rw [htake]
        have hsuffix : tail.drop start <:+ dropped ++ buffer := by
          rw [← h.text_eq]
          exact (List.drop_suffix start tail).trans (List.suffix_append kept tail)
        apply List.suffix_of_suffix_length_le hsuffix (List.suffix_append dropped buffer)
        rw [List.length_drop]
        omega
      omega
  · obtain ⟨i, hi⟩ := Nat.exists_eq_add_of_le hle
    have hoccurs := h.occurs hi (prefix_drop_of_append hge hpre)
    exact absurd hoccurs (find_eq_none hfind i (by omega))

/-- Nor when the buffer is kept from its first opening marker. -/
theorem dropOpen (h : Holds m kept tail buffer dropped) {i : Nat}
    (hfind : find m.opener buffer = some i) :
    Holds m kept tail (buffer.drop i) (dropped ++ buffer.take i) := by
  have hi := find_le hfind
  apply h.drop (by omega)
  intro more start hstart
  have hlength := h.length_eq
  have hle := h.next_le more start hstart
  obtain hlt | hge := Nat.lt_or_ge tail.length (start + m.opener.length)
  · omega
  · obtain ⟨j, hj⟩ := Nat.exists_eq_add_of_le hle
    have hoccurs := h.occurs hj (prefix_drop_of_append hge (prefix_drop_find hstart))
    obtain ⟨k, hk, hfirst⟩ := exists_find_le (by omega) hoccurs
    obtain rfl := Option.some.inj (hfind.symm.trans hfirst)
    omega

end Holds

/-! ### A chunk -/

variable {kept tail dropped : List Char}

/-- The next span of the tail is the next one of the buffer, with what is kept in front of it. -/
theorem Holds.next_buffer (h : Holds m kept tail buffer dropped) {s : Span Char}
    (hnext : m.next tail = some s)
    (hkept : m.next (kept ++ tail) = some { s with before := kept ++ s.before }) :
    m.next buffer = some { s with before := (kept ++ s.before).drop dropped.length } ∧
      Holds m (kept ++ s.before) s.after ((kept ++ s.before).drop dropped.length ++ s.after)
        ((kept ++ s.before).take dropped.length) := by
  have hfind := (Markers.next_eq_some_iff.mp hnext).2.1
  have hle : dropped.length ≤ (kept ++ s.before).length := by
    rw [List.length_append]
    exact h.next_le [] _ (find_append hfind [])
  have hbuffer : (kept ++ tail).drop dropped.length = buffer := by
    rw [h.text_eq, List.drop_left]
  refine ⟨?_, ?_, ?_⟩
  · rw [← hbuffer]
    exact Markers.next_drop hkept hle
  · rw [← List.append_assoc, List.take_append_drop]
  · intro more start _
    rw [List.length_take]
    exact (Nat.min_le_right _ _).trans (Nat.le_add_right _ _)

/-- Behind the last span of the tail there is none in the buffer, since none may join. -/
theorem Holds.next_none (h : Holds m kept tail buffer dropped) {more : List Char}
    (hclean : Markers.Clean m kept (tail ++ more)) (hnext : m.next tail = none) :
    m.next buffer = none := by
  cases hbuffer : m.next buffer with
  | none => rfl
  | some s =>
      -- it would be found in the whole text, with its closing marker in what came so far
      have hmore := Markers.next_append_right hbuffer more
      obtain ⟨s', hs', hafter, -⟩ := Markers.next_append hmore dropped
      rw [← List.append_assoc, ← h.text_eq, List.append_assoc] at hs'
      cases hclean with
      | last _ hjoined => exact absurd (hjoined.symm.trans hs') (by simp)
      | @span _ _ t htail hjoined _ =>
          obtain rfl := Option.some.inj (hjoined.symm.trans hs')
          obtain ⟨t', ht'⟩ := Markers.next_of_append htail
            (le_trans (by rw [List.length_append]; exact Nat.le_add_left _ _) hafter)
          exact absurd (hnext.symm.trans ht') (by simp)

/-- What the loop does to the buffer: it yields the spans of the tail, and keeps what is needed of what
is behind them. -/
theorem Holds.loop {more : List Char} (h : Holds m kept tail buffer dropped)
    (hclean : Markers.Clean m kept (tail ++ more)) :
    ∃ kept' tail' dropped', Holds m kept' tail' (parseLoop m buffer).2 dropped' ∧
      Markers.Clean m kept' (tail' ++ more) ∧ m.next tail' = none ∧
      m.spans (tail ++ more) = (parseLoop m buffer).1 ++ m.spans (tail' ++ more) := by
  induction tail using Markers.next_induction (m := m) generalizing kept buffer dropped with
  | none tail hnext =>
      have hbuffer := h.next_none hclean hnext
      cases hfind : find m.opener buffer with
      | some start =>
          rw [parseLoop_open hfind hbuffer]
          exact ⟨kept, tail, _, h.dropOpen hfind, hclean, hnext, rfl⟩
      | none =>
          rw [parseLoop_none hfind]
          have hpartial := h.dropPartial hfind
          by_cases hzero : trailingPartial buffer m.opener = 0
          · rw [hzero, Nat.sub_zero, List.drop_length] at hpartial
            rw [if_neg (not_not.mpr hzero)]
            exact ⟨kept, tail, _, hpartial, hclean, hnext, rfl⟩
          · rw [if_pos hzero]
            exact ⟨kept, tail, _, hpartial, hclean, hnext, rfl⟩
  | some tail s hnext ih =>
      have hmore := Markers.next_append_right hnext more
      cases hclean with
      | last hnone _ => exact absurd (hnone.symm.trans hmore) (by simp)
      | @span _ _ t htail hjoined hrest =>
          obtain rfl := Option.some.inj (htail.symm.trans hmore)
          rw [← List.append_assoc] at hjoined
          -- the span lies in what came so far, also with the kept text in front
          have hkept : m.next (kept ++ tail) = some { s with before := kept ++ s.before } := by
            obtain ⟨s', hs'⟩ := Markers.next_of_append hjoined
              (by rw [List.length_append]; exact Nat.le_add_left _ _)
            have hsame := (Markers.next_append_right hs' more).symm.trans hjoined
            obtain ⟨hbefore, hinside, hafter⟩ := Span.mk.inj (Option.some.inj hsame)
            rw [hs', ← hbefore, ← hinside, ← List.append_cancel_right hafter]
          obtain ⟨hbuffer, hholds⟩ := h.next_buffer hnext hkept
          rw [parseLoop_next hbuffer, Markers.spans_some hmore]
          obtain ⟨kept', tail', dropped', hholds', hclean', hnext', hspans⟩ := ih hholds hrest
          exact ⟨kept', tail', dropped', hholds', hclean', hnext', congrArg (s.inside :: ·) hspans⟩

theorem Holds.chunks (h : Holds m kept tail buffer dropped) (hnext : m.next tail = none)
    {chunks : List (List Char)} (hclean : Markers.Clean m kept (tail ++ chunks.flatten)) :
    parseChunks m buffer chunks = m.spans (tail ++ chunks.flatten) := by
  induction chunks generalizing kept tail buffer dropped with
  | nil => rw [parseChunks, List.flatten_nil, List.append_nil, Markers.spans_none hnext]
  | cons chunk chunks ih =>
      rw [List.flatten_cons, ← List.append_assoc] at hclean ⊢
      obtain ⟨kept', tail', dropped', hholds, hclean', hnext', hspans⟩ :=
        (h.append chunk).loop hclean
      rw [parseChunks, hspans, ← ih hholds hnext' hclean']

theorem holds_nil (m : Markers Char) : Holds m [] [] [] [] where
  text_eq := rfl
  next_le := fun _ _ _ => Nat.zero_le _

theorem next_nil (m : Markers Char) : m.next [] = none := by
  apply Markers.next_of_find_none
  rw [find, if_neg m.opener_ne]

/-- The generator gives what is made of the bodies, one after the other, and ends without an error. -/
def Calls {ε κ : Type} (gen : List (Except ε (ToolCall κ))) (function : List Char → Except ε κ)
    (bodies : List (List Char)) : Prop :=
  Finishes gen ∧ (yielded gen).map (fun call => Except.ok call.function) = bodies.map function

theorem map_ok_injective {ε α : Type} : Function.Injective (List.map (Except.ok : α → Except ε α)) :=
  List.map_injective_iff.mpr fun _ _ h => Except.ok.inj h

/-- Then every body is decoded, and they are the bodies that `parse` found, as far as what is made of
them tells. -/
theorem calls_iff {ε κ : Type} {function : List Char → Except ε κ} {toolCallIds : Nat}
    {textChunks bodies : List (List Char)} :
    Calls (parse m function toolCallIds textChunks) function bodies ↔
      (∀ body ∈ parseChunks m [] textChunks, ∃ call, function body = .ok call) ∧
        (parseChunks m [] textChunks).map function = bodies.map function := by
  have hfunctions : (parse m function toolCallIds textChunks).map (Except.map ToolCall.function) =
      (parseChunks m [] textChunks).map function := by
    apply List.ext_getElem
    · simp [parse]
    · intro i _ _
      simp only [parse, List.getElem_map, List.getElem_mapIdx]
      generalize function _ = attempt
      cases attempt <;> rfl
  have hfinishes : Finishes (parse m function toolCallIds textChunks) ↔
      ∀ body ∈ parseChunks m [] textChunks, ∃ call, function body = .ok call := by
    constructor
    · intro h body hmem
      obtain ⟨attempt, hattempt, heq⟩ := List.mem_map.mp (hfunctions ▸ List.mem_map_of_mem hmem)
      obtain ⟨call, rfl⟩ := h attempt hattempt
      exact ⟨_, heq.symm⟩
    · intro h attempt hmem
      have hmap := List.mem_map_of_mem (f := Except.map ToolCall.function) hmem
      rw [hfunctions] at hmap
      obtain ⟨body, hbody, heq⟩ := List.mem_map.mp hmap
      obtain ⟨call, hcall⟩ := h body hbody
      cases attempt with
      | ok c => exact ⟨c, rfl⟩
      | error e => exact absurd (hcall.symm.trans heq) (by simp [Except.map])
  rw [Calls, hfinishes]
  refine and_congr_right fun h => ?_
  have hyields := map_yielded (hfinishes.mpr h)
  rw [← hfunctions, ← hyields, List.map_map, hyields]
  exact Iff.rfl

/-- Where no marker joins, every cutting gives the calls of the spans, if all can be decoded. -/
theorem calls_of_separate {ε κ : Type} {function : List Char → Except ε κ}
    {textChunks : List (List Char)} (hseparate : m.Separate textChunks.flatten)
    (hbodies : ∀ body ∈ m.spans textChunks.flatten, ∃ call, function body = .ok call)
    (toolCallIds : Nat) :
    Calls (parse m function toolCallIds textChunks) function (m.spans textChunks.flatten) := by
  have hchunks := (holds_nil m).chunks (next_nil m) (Markers.clean_iff_separate.mpr hseparate)
  rw [List.nil_append] at hchunks
  rw [calls_iff, hchunks]
  exact ⟨hbodies, rfl⟩

/-- In every cutting the calls of a text are those of its spans, whatever is made of a body, exactly
when cutting them out leaves no open marker in front of the last one and no call, and the decoding of
none of them raises. -/
theorem parse_eq_spans_iff (m : Markers Char) (decodes : List Char → Prop) (text : List Char) :
    (∀ textChunks : List (List Char), textChunks.flatten = text →
      ∀ (ε κ : Type) (function : List Char → Except ε κ),
        (∀ body, (∃ call, function body = .ok call) ↔ decodes body) → ∀ toolCallIds : Nat,
          Calls (parse m function toolCallIds textChunks) function (m.spans text)) ↔
      m.Separate text ∧ ∀ body ∈ m.spans text, decodes body := by
  constructor
  · intro h
    -- a body that can be decoded is its own call
    classical
    let function : List Char → Except Unit (List Char) := fun body =>
      if decodes body then .ok body else .error ()
    have hdecodes : ∀ body, (∃ call, function body = .ok call) ↔ decodes body := by
      intro body
      by_cases hbody : decodes body <;> simp [function, hbody]
    obtain ⟨hall, hsame⟩ := calls_iff.mp (h [text] (by simp) Unit (List Char) function hdecodes 0)
    have hwhole : parseChunks m [] [text] = m.erase text :=
      (List.append_nil _).trans (parseLoop_erase m text)
    rw [hwhole] at hall hsame
    have hdecoded : ∀ bodies : List (List Char), (∀ body ∈ bodies, decodes body) →
        bodies.map function = bodies.map .ok := fun bodies hbodies =>
      List.map_congr_left fun body hmem => if_pos (hbodies body hmem)
    have herase : ∀ body ∈ m.erase text, decodes body := fun body hmem =>
      (hdecodes body).mp (hall body hmem)
    have hspans : ∀ body ∈ m.spans text, decodes body := by
      intro body hmem
      obtain ⟨body', hmem', heq⟩ := List.mem_map.mp (hsame ▸ List.mem_map_of_mem hmem)
      obtain ⟨call, hcall⟩ := hall body' hmem'
      exact (hdecodes body).mp ⟨call, heq.symm.trans hcall⟩
    rw [hdecoded _ herase, hdecoded _ hspans] at hsame
    exact ⟨Markers.erase_eq_spans_iff.mp (map_ok_injective hsame), hspans⟩
  · rintro ⟨hseparate, hspans⟩ textChunks rfl ε κ function hdecodes toolCallIds
    exact calls_of_separate hseparate (fun body hmem => (hdecodes body).mpr (hspans body hmem)) _

theorem functionArgs_ok_iff {ε ν : Type} (json : Json ε ν) (args : String → Option ν) :
    (∃ text, functionArgs json args = .ok text) ↔
      ∀ value, args "arguments" = some value → json.str value = none →
        ∃ text, json.dumps value = .ok text := by
  rw [functionArgs]
  cases hvalue : args "arguments" with
  | none => simp
  | some value =>
      cases hstr : json.str value with
      | none => simp [hstr]
      | some text => simp [hstr]

/-- The body of a call is decoded when `loads` raises nothing but a `JSONDecodeError`, and `dumps`
nothing for `arguments` that are no string. -/
theorem toolFunction_ok_iff {ε ν : Type} (json : Json ε ν) (body : List Char) :
    (∃ call, toolFunction json body = .ok call) ↔
      ∃ args, parseJsonObject json (pyStrip body) = .ok args ∧
        ∀ value, args "arguments" = some value → json.str value = none →
          ∃ text, json.dumps value = .ok text := by
  simp only [toolFunction, bind_eq_ok, map_eq_ok, ← functionArgs_ok_iff]
  constructor
  · rintro ⟨call, args, hargs, text, htext, -⟩
    exact ⟨args, hargs, text, htext⟩
  · rintro ⟨args, hargs, text, htext⟩
    exact ⟨_, args, hargs, text, htext, rfl⟩

/-- The calls that the parser itself makes, by way of `json`. -/
theorem parse_toolFunction {ε ν : Type} (json : Json ε ν) {textChunks : List (List Char)}
    (hseparate : m.Separate textChunks.flatten)
    (hbodies : ∀ body ∈ m.spans textChunks.flatten,
      ∃ args, parseJsonObject json (pyStrip body) = .ok args ∧
        ∀ value, args "arguments" = some value → json.str value = none →
          ∃ text, json.dumps value = .ok text) (toolCallIds : Nat) :
    Calls (parse m (toolFunction json) toolCallIds textChunks) (toolFunction json)
      (m.spans textChunks.flatten) :=
  calls_of_separate hseparate
    (fun body hmem => (toolFunction_ok_iff json body).mpr (hbodies body hmem)) toolCallIds

/-- A call inside a marker: it is cut out, and the rest of the marker opens another one. -/
theorem joinedMarker_isCalled :
    qwenToolParser.spans "<to<tool>{}</tool>ol>x</tool>".toList = ["{}".toList] ∧
      (yielded (parse qwenToolParser (.ok : _ → Except Unit _) 0
        ["<to<tool>{}</tool>ol>x</tool>".toList])).map ToolCall.function = ["{}".toList, ['x']] ∧
      (yielded (parse qwenToolParser (.ok : _ → Except Unit _) 0
        ["<to".toList, "<tool>{}</tool>ol>x</tool>".toList])).map ToolCall.function =
          ["{}".toList, ['x']] ∧
      (yielded (parse qwenToolParser (.ok : _ → Except Unit _) 0
        ["<to<".toList, "tool>{}</tool>ol>x</tool>".toList])).map ToolCall.function =
          ["{}".toList] := by
  decide +kernel

end GenericTagParser

end FreeToken
