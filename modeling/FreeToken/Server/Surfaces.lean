import FreeToken.Server.OpenaiApi
import FreeToken.Server.ThinkTags

/-!
# One answer on every surface

However a surface merges its deltas, the visible text it delivers is the content of what its
`stream_chat` yields. `/v1/responses` runs it without a parser, so there the visible text is all of the
tokens' text.
-/

namespace FreeToken

namespace OpenAI

theorem content_chunkDelta (d : Delta) : (chunkDelta d).content.getD [] = d.content := by
  rw [chunkDelta]
  by_cases hc : d.content = [] <;> by_cases hr : d.reasoning = [] <;> simp [hc, hr]

theorem flatMap_mapIdx {α β γ : Type} (g : Nat → α → β) (f : β → List γ) (f' : α → List γ)
    (h : ∀ i a, f (g i a) = f' a) (l : List α) : (l.mapIdx g).flatMap f = l.flatMap f' := by
  induction l generalizing g with
  | nil => rfl
  | cons a l ih =>
      rw [List.mapIdx_cons, List.flatMap_cons, List.flatMap_cons, h, ih]
      exact fun i => h (i + 1)

theorem chunksText_chatCompletions (stamps : Nat → Stamp) (model : String) (ds : List Delta) :
    chunksText (chatCompletions stamps model ds) = contentOf ds := by
  rw [chunksText, chatCompletions, List.flatMap_append,
    flatMap_mapIdx _ _ Delta.content fun _ d => content_chunkDelta d]
  exact List.append_nil _

/-- Leaving out the chunks without a text, and the empty texts, leaves the same whole. -/
theorem flatten_parts (key : ChunkDelta → Option (List Char)) (chunks : List Chunk) :
    (parts key chunks).flatten = chunks.flatMap fun chunk => (key chunk.delta).getD [] := by
  rw [parts, Anthropic.flatten_filter_ne_nil]
  induction chunks with
  | nil => rfl
  | cons chunk chunks ih =>
      rw [List.flatMap_cons, ← ih, List.filterMap_cons]
      cases key chunk.delta with
      | none => rfl
      | some text => rfl

theorem mergeToCompletion_chatCompletions (stamps : Nat → Stamp) (model : String) (ds : List Delta) :
    (mergeToCompletion (chatCompletions stamps model ds)).map Completion.content =
      some (contentOf ds) := by
  rw [← chunksText_chatCompletions stamps model ds, chunksText, ← flatten_parts]
  cases hchunks : chatCompletions stamps model ds with
  | nil => simp [chatCompletions] at hchunks
  | cons first chunks => rfl

theorem flatten_content (ds : List Delta) :
    ((ds.map Delta.content).filter (· ≠ [])).flatten = contentOf ds :=
  (Anthropic.flatten_filter_ne_nil _).trans List.flatMap_def.symm

theorem deltasText_responsesStream (stamp : Stamp) (completedAt : Nat) (model itemId : String)
    (ds : List Delta) :
    deltasText (responsesStream stamp completedAt model itemId ds) = contentOf ds := by
  rw [← flatten_content, deltasText, responsesStream, List.flatMap_append, List.flatMap_append,
    List.flatMap_map]
  exact (List.append_nil _).trans (List.flatMap_id)

theorem finalTexts_responsesStream (stamp : Stamp) (completedAt : Nat) (model itemId : String)
    (ds : List Delta) :
    finalTexts (responsesStream stamp completedAt model itemId ds) =
      List.replicate 5 (contentOf ds) := by
  rw [← flatten_content, finalTexts, responsesStream, List.flatMap_append, List.flatMap_append,
    List.flatMap_map, List.flatMap_eq_nil_iff.mpr fun _ _ => rfl]
  rfl

end OpenAI

namespace Surface

theorem contentOf_none (tokens : List (List Char)) :
    contentOf (FreeToken.streamChat none tokens) = tokens.flatten := by
  rw [contentOf, FreeToken.streamChat, List.flatMap_map]
  exact List.flatMap_id

/-- Whether a surface gives the parser to `stream_chat`. -/
def parses : Surface → Bool
  | responsesStream | responsesFinal | responses => false
  | _ => true

/-- The answer of a surface. -/
def answer (parser : ReasoningParser) (tokens : List (List Char)) (surface : Surface) : List Char :=
  if surface.parses then parsedContent parser tokens else tokens.flatten

/-- Whatever a surface delivers as visible is its one answer. -/
theorem visible_eq (cx : Context) (parser : ReasoningParser) (tokens : List (List Char))
    (surface : Surface) :
    ∃ n, surface.visible cx parser tokens = List.replicate (n + 1) (surface.answer parser tokens) := by
  cases surface with
  | chatStream => exact ⟨0, congrArg (fun text => [text]) (OpenAI.chunksText_chatCompletions ..)⟩
  | chatCompletion =>
      exact ⟨0, congrArg Option.toList (OpenAI.mergeToCompletion_chatCompletions ..)⟩
  | responsesStream =>
      refine ⟨0, congrArg (fun text => [text]) ?_⟩
      exact (OpenAI.deltasText_responsesStream ..).trans (contentOf_none tokens)
  | responsesFinal =>
      refine ⟨4, (OpenAI.finalTexts_responsesStream ..).trans ?_⟩
      rw [contentOf_none]
      rfl
  | responses =>
      refine ⟨1, congrArg (fun text => [text, text]) ?_⟩
      exact List.flatMap_def.symm.trans (contentOf_none tokens)
  | messagesStream =>
      refine ⟨0, congrArg (fun text => [text]) ?_⟩
      rw [Anthropic.messageEvents, Anthropic.loopEvents_eq]
      change Anthropic.bodyOf .text (Anthropic.streamedDeltas (_ ++ [.messageStop])) = _
      rw [Anthropic.streamedDeltas_append, Anthropic.streamedDeltas_pieceEvents]
      refine (congrArg (Anthropic.bodyOf .text) (List.append_nil _)).trans ?_
      rw [(Anthropic.bodyOf_pieces _).2]
      exact OpenAI.flatten_content _
  | messages =>
      refine ⟨0, congrArg (fun text => [text]) ?_⟩
      rw [Anthropic.bodyOf_messageContent, (Anthropic.bodyOf_pieces _).2]
      exact OpenAI.flatten_content _

theorem mem_visible {cx : Context} {parser : ReasoningParser} {tokens : List (List Char)}
    {surface : Surface} {text : List Char} :
    text ∈ surface.visible cx parser tokens ↔ text = surface.answer parser tokens := by
  obtain ⟨n, h⟩ := surface.visible_eq cx parser tokens
  rw [h, List.mem_replicate]
  exact and_iff_right (Nat.succ_ne_zero n)

end Surface

theorem sameAnswer_iff_parsedContent (cx : Context) (parser : ReasoningParser)
    (tokens : List (List Char)) :
    SameAnswer cx parser tokens ↔ parsedContent parser tokens = tokens.flatten := by
  constructor
  · intro h
    exact h.same .chatStream .responses _ (Surface.mem_visible.mpr rfl) _ (Surface.mem_visible.mpr rfl)
  · intro h
    have hall : ∀ surface : Surface, surface.answer parser tokens = parsedContent parser tokens := by
      intro surface
      rw [Surface.answer, h, ite_self]
    refine ⟨fun surface => ?_, fun surface surface' text htext text' htext' => ?_,
      fun surface text htext => ?_⟩
    · exact List.ne_nil_of_mem (Surface.mem_visible.mpr rfl)
    · rw [Surface.mem_visible.mp htext, Surface.mem_visible.mp htext', hall, hall]
    · rw [Surface.mem_visible.mp htext, hall]

/-! ### Texts that a parser passes on -/

open Find

/-- A text without an open tag, no token of which ends the text so far in a beginning of the tag
that has other text in front of it. -/
def Passes : ReasoningParser → List (List Char) → Prop
  | .off, _ => True
  | .thinkTag, tokens => find openTag tokens.flatten = none ∧
      ∀ k ≤ tokens.length, KeepsWhole (tokens.take k).flatten openTag

/-- Some token does, before there is a tag: that end is shown at once, and what is in front of it
waits for the end of the stream. -/
def ShownEarly (tokens : List (List Char)) : Prop :=
  ∃ k ≤ tokens.length, find openTag (tokens.take k).flatten = none ∧
    ¬ KeepsWhole (tokens.take k).flatten openTag

/-- Without a reasoning protocol the surfaces cannot differ. -/
theorem parsedContent_off (tokens : List (List Char)) :
    parsedContent .off tokens = tokens.flatten := by
  have hone : ∀ pending token, ReasoningParser.off.feed pending token =
      (if token = [] then [] else [{ content := token }], pending) := by
    intro pending token
    by_cases htoken : token = [] <;>
      simp [htoken, ReasoningParser.feed, ReasoningParser.parse, ReasoningParser.Delta.shown]
  have hfeed : ∀ pending, ReasoningParser.off.feedAll pending tokens =
      ((tokens.filter (· ≠ [])).map fun token => { content := token }, pending) := by
    intro pending
    induction tokens with
    | nil => rfl
    | cons token tokens ih =>
        rw [ReasoningParser.feedAll, hone]
        simp only [ih]
        by_cases htoken : token = [] <;> simp [htoken]
  rw [parsedContent, streamChat, ReasoningParser.streamChat, hfeed]
  change List.flatMap Delta.content (_ ++ []) = _
  rw [List.append_nil, List.flatMap_map, ← Anthropic.flatten_filter_ne_nil tokens]
  exact List.flatMap_id

theorem find_none_of_prefix {tag text more : List Char} (h : find tag (text ++ more) = none) :
    find tag text = none := by
  cases hfind : find tag text with
  | none => rfl
  | some k => exact absurd ((find_append hfind more).symm.trans h) (by simp)

theorem parsedContent_of_passes {parser : ReasoningParser} {tokens : List (List Char)}
    (h : Passes parser tokens) : parsedContent parser tokens = tokens.flatten := by
  cases parser with
  | off => exact parsedContent_off tokens
  | thinkTag =>
      obtain ⟨hnone, hkeeps⟩ := h
      have hsettles : Settles tokens := by
        intro k hk
        have hsplit : (tokens.take k).flatten ++ (tokens.drop k).flatten = tokens.flatten := by
          rw [← List.flatten_append, List.take_append_drop]
        have hbefore := find_none_of_prefix (hsplit ▸ hnone)
        rw [scan_outside_none hbefore]
        exact hkeeps k hk
      have hcontent := (ReasoningParser.streamChat_splits tokens hsettles).2
      rw [splitThink, scan_outside_none hnone] at hcontent
      exact hcontent

/-! ### What is shown of a text -/

/-- How much text the deltas hold. -/
def shownLength (ds : List Delta) : Nat := (reasoningOf ds).length + (contentOf ds).length

theorem shownLength_append (ds ds' : List Delta) :
    shownLength (ds ++ ds') = shownLength ds + shownLength ds' := by
  simp only [shownLength, reasoningOf_append, contentOf_append, List.length_append]
  omega

theorem shownLength_shown (ds : List Delta) :
    shownLength (ReasoningParser.Delta.shown ds) = shownLength ds := by
  simp [shownLength, of_shown]

/-- The loop shows and keeps no more than it was given. -/
theorem shownLength_parseLoop (inThink : Bool) (text : List Char) :
    shownLength (ThinkTagParser.parseLoop inThink text).1 +
      (ThinkTagParser.parseLoop inThink text).2.2.length ≤ text.length := by
  fun_induction ThinkTagParser.parseLoop inThink text with
  | case1 text hfind cut hcut => simp [shownLength, reasoningOf, contentOf]; omega
  | case2 text hfind cut hcut => simp [shownLength, reasoningOf, contentOf]
  | case3 text stop hfind reasoning ds rest heq ih =>
      have hle := find_le hfind
      have hhead : shownLength (if reasoning = [] then [] else [{ reasoning := reasoning }]) ≤ stop := by
        split
        · exact Nat.zero_le _
        · refine Nat.le_trans (Nat.le_of_eq ?_) (List.length_take_le stop text)
          simp [shownLength, reasoningOf, contentOf, reasoning]
      rw [heq] at ih
      dsimp only
      rw [shownLength_append]
      simp only [List.length_drop] at ih
      omega
  | case4 inThink text hout hfind cut hcut => simp [shownLength, reasoningOf, contentOf]; omega
  | case5 inThink text hout hfind cut hcut => simp [shownLength, reasoningOf, contentOf]
  | case6 inThink text hout start hfind content ds rest heq ih =>
      have hle := find_le hfind
      have hhead : shownLength (if content = [] then [] else [{ content := content }]) ≤ start := by
        split
        · exact Nat.zero_le _
        · refine Nat.le_trans (Nat.le_of_eq ?_) (List.length_take_le start text)
          simp [shownLength, reasoningOf, contentOf, content]
      rw [heq] at ih
      dsimp only
      rw [shownLength_append]
      simp only [List.length_drop] at ih
      omega

/-- A tag that is found is neither shown nor kept. -/
theorem shownLength_parseLoop_some {text : List Char} {start : Nat} (h : find openTag text = some start) :
    shownLength (ThinkTagParser.parseLoop false text).1 +
      (ThinkTagParser.parseLoop false text).2.2.length < text.length := by
  rw [ThinkTagParser.parseLoop, if_neg Bool.false_ne_true]
  split
  · rename_i hfind
    exact absurd (h.symm.trans hfind) (by simp)
  · rename_i start' hfind
    have hle := find_le hfind
    have hrest := shownLength_parseLoop true (text.drop (start' + openTag.length))
    have hhead : shownLength (if text.take start' = [] then [] else [{ content := text.take start' }]) ≤
        start' := by
      split
      · exact Nat.zero_le _
      · refine Nat.le_trans (Nat.le_of_eq ?_) (List.length_take_le start' text)
        simp [shownLength, reasoningOf, contentOf]
    have hpos : 0 < openTag.length := by decide
    dsimp only
    rw [shownLength_append]
    rw [List.length_drop] at hrest
    omega

namespace ReasoningParser

/-- One token, then the others. -/
theorem streamChat_cons (pending token : List Char) (tokens : List (List Char)) :
    (streamChat thinkTag pending (token :: tokens)).1 =
      Delta.shown (ThinkTagParser.parseLoop false (pending ++ token)).1 ++
        (streamChat thinkTag (ThinkTagParser.parseLoop false (pending ++ token)).2.2 tokens).1 := by
  simp [streamChat, feedAll, feed, parse, ThinkTagParser.parseChunks]

theorem shownLength_streamChat (pending : List Char) (tokens : List (List Char)) :
    shownLength (streamChat thinkTag pending tokens).1 ≤ pending.length + tokens.flatten.length := by
  induction tokens generalizing pending with
  | nil =>
      have hdrain : (streamChat thinkTag pending []).1 = Delta.shown [{ content := pending }] := rfl
      rw [hdrain, shownLength_shown]
      simp [shownLength, reasoningOf, contentOf]
  | cons token tokens ih =>
      have hloop := shownLength_parseLoop false (pending ++ token)
      have hrest := ih (ThinkTagParser.parseLoop false (pending ++ token)).2.2
      rw [streamChat_cons, shownLength_append, shownLength_shown]
      simp only [List.length_append, List.flatten_cons] at hloop ⊢
      omega

theorem contentOf_streamChat_cons (pending token : List Char) (tokens : List (List Char)) :
    contentOf (streamChat thinkTag pending (token :: tokens)).1 =
      contentOf (ThinkTagParser.parseLoop false (pending ++ token)).1 ++
        contentOf
          (streamChat thinkTag (ThinkTagParser.parseLoop false (pending ++ token)).2.2 tokens).1 := by
  rw [streamChat_cons, contentOf_append, (of_shown _).2]

/-- With a tag in it, not all of a text is shown. -/
theorem contentOf_streamChat_ne {pending token : List Char} {start : Nat}
    (h : find openTag (pending ++ token) = some start) (tokens : List (List Char)) :
    contentOf (streamChat thinkTag pending (token :: tokens)).1 ≠
      pending ++ (token :: tokens).flatten := by
  intro hall
  have hloop := shownLength_parseLoop_some h
  have hrest := shownLength_streamChat (ThinkTagParser.parseLoop false (pending ++ token)).2.2 tokens
  have hlength := congrArg List.length hall
  rw [contentOf_streamChat_cons] at hlength
  simp only [List.length_append, List.flatten_cons, shownLength] at hloop hrest hlength
  omega

end ReasoningParser

theorem trailingPartialFrom_suffix (text tag : List Char) (n : Nat) :
    tag.take (trailingPartialFrom text tag n) <:+ text ∧ trailingPartialFrom text tag n ≤ n := by
  induction n with
  | zero => exact ⟨List.nil_suffix, Nat.le_refl 0⟩
  | succ n ih =>
      rw [trailingPartialFrom]
      split
      · rename_i hsuffix
        exact ⟨hsuffix, Nat.le_refl _⟩
      · exact ⟨ih.1, Nat.le_succ_of_le ih.2⟩

/-- What is shown early begins as the tag does. -/
theorem parseLoop_early {text : List Char} (hfind : find openTag text = none)
    (h : ¬ KeepsWhole text openTag) :
    (contentOf (ThinkTagParser.parseLoop false text).1).head? = some '<' := by
  obtain ⟨hsuffix, hle⟩ := trailingPartialFrom_suffix text openTag (min text.length (openTag.length - 1))
  rw [← trailingPartial] at hsuffix hle
  obtain ⟨hzero, hwhole⟩ := not_or.mp h
  have hcut : 0 < emitFrom text openTag := by
    rw [emitFrom]
    omega
  have hend : text.drop (emitFrom text openTag) = openTag.take (trailingPartial text openTag) := by
    have hlength : (openTag.take (trailingPartial text openTag)).length =
        trailingPartial text openTag := by
      rw [List.length_take]
      omega
    have hdrop := List.suffix_iff_eq_drop.mp hsuffix
    rw [hlength] at hdrop
    exact hdrop.symm
  rw [ThinkTagParser.parseLoop, if_neg Bool.false_ne_true]
  split
  · obtain ⟨n, hn⟩ := Nat.exists_eq_succ_of_ne_zero hzero
    have hhead : (openTag.take (n + 1)).head? = some '<' := rfl
    simp only [hcut, if_true, contentOf, List.flatMap_cons, List.flatMap_nil, List.append_nil, hend, hn]
    exact hhead
  · rename_i start hsome
    exact absurd (hfind.symm.trans hsome) (by simp)

/-- What is passed on was never touched, or begins with what was shown early. -/
theorem untouched {tokens : List (List Char)} {seen : List Char} (hfind : find openTag seen = none)
    (hkeeps : KeepsWhole seen openTag)
    (h : contentOf (ReasoningParser.thinkTag.streamChat seen tokens).1 = seen ++ tokens.flatten) :
    (∀ k ≤ tokens.length, find openTag (seen ++ (tokens.take k).flatten) = none ∧
        KeepsWhole (seen ++ (tokens.take k).flatten) openTag) ∨
      (∃ k ≤ tokens.length, find openTag (seen ++ (tokens.take k).flatten) = none ∧
        ¬ KeepsWhole (seen ++ (tokens.take k).flatten) openTag) ∧
        (seen ++ tokens.flatten).head? = some '<' := by
  induction tokens generalizing seen with
  | nil =>
      left
      intro k _
      simpa using And.intro hfind hkeeps
  | cons token tokens ih =>
      cases hnext : find openTag (seen ++ token) with
      | some start => exact absurd h (ReasoningParser.contentOf_streamChat_ne hnext tokens)
      | none =>
          by_cases hwhole : KeepsWhole (seen ++ token) openTag
          · -- the token joins what is pending
            have hloop := parseLoop_of_keepsWhole false (seen ++ token)
            rw [scan_outside_none hnext] at hloop
            obtain ⟨-, hcontent, -, htail⟩ := hloop hwhole
            rw [ReasoningParser.contentOf_streamChat_cons, hcontent, htail, List.flatten_cons,
              ← List.append_assoc] at h
            have hlater := ih hnext hwhole h
            simp only [List.append_assoc] at hlater
            obtain hall | ⟨⟨k, hk, hearly⟩, hhead⟩ := hlater
            · left
              intro k hk
              cases k with
              | zero => simpa using And.intro hfind hkeeps
              | succ k => simpa using hall k (Nat.le_of_succ_le_succ hk)
            · right
              exact ⟨⟨k + 1, Nat.succ_le_succ hk, by simpa using hearly⟩, by simpa using hhead⟩
          · right
            refine ⟨⟨1, Nat.le_add_left 1 _, by simpa using And.intro hnext hwhole⟩, ?_⟩
            rw [← h, ReasoningParser.contentOf_streamChat_cons, List.head?_append,
              parseLoop_early hnext hwhole, Option.some_or]

/-- The surfaces show one answer where the parser passes the text on; and nowhere else, unless
the text begins with `<` and what was shown early takes the place of its beginning. -/
theorem sameAnswer_iff (cx : Context) (parser : ReasoningParser) (tokens : List (List Char)) :
    (Passes parser tokens → SameAnswer cx parser tokens) ∧
      (SameAnswer cx parser tokens →
        Passes parser tokens ∨ ShownEarly tokens ∧ tokens.flatten.head? = some '<') := by
  rw [sameAnswer_iff_parsedContent]
  refine ⟨parsedContent_of_passes, fun h => ?_⟩
  cases parser with
  | off => exact Or.inl trivial
  | thinkTag =>
      obtain hall | hearly := untouched (by decide) (keepsWhole_nil openTag) h
      · left
        have hend := (hall tokens.length (Nat.le_refl _)).1
        rw [List.take_length] at hend
        exact ⟨hend, fun k hk => (hall k hk).2⟩
      · exact Or.inr hearly

/-- The end `<` is shown early, and looks like the beginning. -/
example : parsedContent .thinkTag ["<<".toList] = "<<".toList := by decide +kernel

/-- A server at work. -/
def servedContext : Context where
  stamps := fun _ => ⟨"chatcmpl-0", 0⟩
  completedAt := 1
  model := "qwen3"
  itemId := "msg_0"

/-- A thought in front of the answer: `/v1/responses` delivers it as text. -/
theorem thought_isVisible :
    Surface.visible servedContext .thinkTag ["<think>a</think>".toList, ['b']] .chatStream = [['b']] ∧
      Surface.visible servedContext .thinkTag ["<think>a</think>".toList, ['b']] .responsesStream =
        ["<think>a</think>b".toList] ∧
      ¬ SameAnswer servedContext .thinkTag ["<think>a</think>".toList, ['b']] := by
  have hchat : Surface.visible servedContext .thinkTag ["<think>a</think>".toList, ['b']]
      .chatStream = [['b']] := by
    decide +kernel
  have hresponses : Surface.visible servedContext .thinkTag ["<think>a</think>".toList, ['b']]
      .responsesStream = ["<think>a</think>b".toList] := by
    decide +kernel
  refine ⟨hchat, hresponses, fun h => ?_⟩
  have hsame := h.same .chatStream .responsesStream
  rw [hchat, hresponses] at hsame
  exact absurd (hsame _ List.mem_cons_self _ List.mem_cons_self) (by decide)

end FreeToken
