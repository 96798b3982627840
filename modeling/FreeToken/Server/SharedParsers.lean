import FreeToken.Lib.Turns
import FreeToken.Server.ThinkTags

/-!
# Streams that share a parser

`get_parser` returns the object the registry was given at import time, so all streams of a
name are fed through one `_pending`. `flush` empties it, and so does a text that ends behind
a tag; any other end of a text is left to the stream that calls next.
-/

namespace FreeToken

/-! ### What a text leaves -/

/-- What is kept of a text that was read: what came since the last tag, up to an end that may
begin the next tag (or all of it, if it is nothing else). -/
def Split.kept (s : Split) : List Char :=
  if 0 < emitFrom s.tail s.tag then s.tail.take (emitFrom s.tail s.tag) else s.tail

/-- The loop keeps of its text what came since the last tag. -/
theorem parseLoop_keeps (inThink : Bool) (text : List Char) :
    (ThinkTagParser.parseLoop inThink text).2 =
      ((Split.scan inThink text).inThink, (Split.scan inThink text).kept) := by
  fun_induction ThinkTagParser.parseLoop inThink text with
  | case1 text hfind cut hcut =>
      rw [scan_inside_none hfind]
      exact congrArg (Prod.mk true) (if_pos hcut).symm
  | case2 text hfind cut hcut =>
      rw [scan_inside_none hfind]
      exact congrArg (Prod.mk true) (if_neg hcut).symm
  | case3 text stop hfind reasoning ds rest heq ih =>
      rw [scan_inside_some hfind]
      rw [heq] at ih
      exact ih
  | case4 inThink text hout hfind cut hcut =>
      obtain rfl : inThink = false := by simpa using hout
      rw [scan_outside_none hfind]
      exact congrArg (Prod.mk false) (if_pos hcut).symm
  | case5 inThink text hout hfind cut hcut =>
      obtain rfl : inThink = false := by simpa using hout
      rw [scan_outside_none hfind]
      exact congrArg (Prod.mk false) (if_neg hcut).symm
  | case6 inThink text hout start hfind content ds rest heq ih =>
      obtain rfl : inThink = false := by simpa using hout
      rw [scan_outside_some hfind]
      rw [heq] at ih
      exact ih

namespace ReasoningParser

/-- What `stream_chat` does to its parser next. -/
inductive Call where
  | token (text : List Char)
  | flush
deriving DecidableEq, Repr

/-- The deltas the stream receives for it, and `_pending` afterwards. -/
def answer (parser : ReasoningParser) (pending : List Char) : Call → List Delta × List Char
  | .token text => parser.feed pending text
  | .flush => drain pending

/-- One more text after what was kept, read from outside a span; a flush keeps nothing. -/
def keeps (parser : ReasoningParser) (kept : List Char) : Call → List Char
  | .token text =>
      match parser with
      | off => kept
      | thinkTag => (Split.scan false (kept ++ text)).kept
  | .flush => []

/-- What is kept of the texts since the last flush. -/
def leftOver (parser : ReasoningParser) (calls : List Call) : List Char :=
  calls.foldl parser.keeps []

/-- `_pending` is what the texts leave. -/
theorem answer_keeps (parser : ReasoningParser) (pending : List Char) (call : Call) :
    (parser.answer pending call).2 = parser.keeps pending call := by
  cases call with
  | flush => rfl
  | token text =>
      cases parser with
      | off => rfl
      | thinkTag =>
          have hloop := parseLoop_keeps false (pending ++ text)
          simp [answer, keeps, feed, parse, ThinkTagParser.parseChunks, hloop]

/-! ### Streams in turn -/

/-- Streams served through `get_parser(name)`, in the order in which they call it. -/
def serve (name : Option String) (turns : List (Nat × Call)) :
    Option (Turns.Play Nat (List Char) Delta) :=
  (getParser name).map fun parser => Turns.playAll parser.answer (Turns.start []) turns

/-- One stream, from a fresh start. -/
def serveAlone (name : Option String) (calls : List Call) : Option (List Delta) :=
  (getParser name).map fun parser => Turns.alone parser.answer [] calls

/-- Every stream receives what it would receive alone. -/
def Apart (name : Option String) (turns : List (Nat × Call)) : Prop :=
  ∀ p, serve name turns = some p → ∀ i, serveAlone name (Turns.actionsOf i turns) = some (p.answers i)

/-- Whoever calls next made the call before, too, or nothing is left of the texts so far. -/
def Takes (name : Option String) (before : List (Nat × Call)) (t : Nat × Call) : Prop :=
  Turns.lastOf before = some t.1 ∨
    ∀ parser ∈ getParser name, leftOver parser (before.map Prod.snd) = []

instance (name : Option String) (before : List (Nat × Call)) (t : Nat × Call) :
    Decidable (Takes name before t) :=
  inferInstanceAs (Decidable (_ ∨ _))

/-- Every call of the run is made so. -/
def HandsOver (name : Option String) (turns : List (Nat × Call)) : Prop :=
  ∀ before t, before ++ [t] <+: turns → Takes name before t

theorem store_playAll (parser : ReasoningParser) (turns : List (Nat × Call)) :
    (Turns.playAll parser.answer (Turns.start [] : Turns.Play Nat (List Char) Delta) turns).store =
      leftOver parser (turns.map Prod.snd) := by
  induction turns using List.reverseRecOn with
  | nil => rfl
  | append_singleton turns t ih =>
      simp only [Turns.playAll_concat, Turns.turn, leftOver, List.map_append, List.map_cons,
        List.map_nil, List.foldl_append, List.foldl_cons, List.foldl_nil, answer_keeps, ih]

theorem takes_iff {name : Option String} {parser : ReasoningParser}
    (hparser : getParser name = some parser) (before : List (Nat × Call)) (t : Nat × Call) :
    Takes name before t ↔ Turns.lastOf before = some t.1 ∨ leftOver parser (before.map Prod.snd) = [] := by
  simp [Takes, hparser]

theorem handsOver_iff {name : Option String} {parser : ReasoningParser}
    (hparser : getParser name = some parser) (turns : List (Nat × Call)) :
    HandsOver name turns ↔ Turns.HandedOver parser.answer [] turns := by
  simp only [HandsOver, Turns.HandedOver, takes_iff hparser, store_playAll]

theorem handsOver_concat {name : Option String} {turns : List (Nat × Call)} {t : Nat × Call} :
    HandsOver name (turns ++ [t]) ↔ HandsOver name turns ∧ Takes name turns t := by
  constructor
  · intro h
    exact ⟨fun before t' hpre => h before t' (hpre.trans (List.prefix_append _ _)),
      h turns t (List.prefix_refl _)⟩
  · rintro ⟨hbefore, hlast⟩ before t' hpre
    obtain heq | hpre' := List.prefix_concat_iff.mp hpre
    · obtain ⟨rfl, rfl⟩ := List.append_singleton_inj.mp heq
      exact hlast
    · exact hbefore before t' hpre'

theorem apart_iff {name : Option String} {parser : ReasoningParser}
    (hparser : getParser name = some parser) (turns : List (Nat × Call)) :
    Apart name turns ↔ ∀ i, Turns.alone parser.answer [] (Turns.actionsOf i turns) =
      (Turns.playAll parser.answer (Turns.start []) turns).answers i := by
  simp [Apart, serve, serveAlone, hparser]

/-- Streams that hand over are answered as alone. -/
theorem apart_of_handsOver {name : Option String} {turns : List (Nat × Call)}
    (h : HandsOver name turns) : Apart name turns := by
  cases hparser : getParser name with
  | none =>
      intro p hp
      simp [serve, hparser] at hp
  | some parser =>
      rw [apart_iff hparser]
      intro i
      have hown := ((handsOver_iff hparser turns).mp h).left_eq.1
      exact (Turns.answers_playAll hown i).symm

/-- Where something is left, another stream's flush is answered with it. -/
theorem takes_of_apart {name : Option String} {turns : List (Nat × Call)} {j : Nat}
    (h : HandsOver name turns) (hapart : Apart name (turns ++ [(j, .flush)])) :
    Takes name turns (j, .flush) := by
  cases hparser : getParser name with
  | none => exact Or.inr (by simp [hparser])
  | some parser =>
      rw [takes_iff hparser]
      by_contra hnot
      obtain ⟨hother, hleft⟩ := not_or.mp hnot
      have hover := (handsOver_iff hparser turns).mp h
      obtain ⟨hown, hlefts⟩ := hover.left_eq
      have hempty : (Turns.playAll parser.answer (Turns.start []) turns).left j = [] :=
        (hlefts j).trans (if_neg hother)
      -- alone, the stream has nothing to flush
      have hstore : Turns.storeAfter parser.answer [] (Turns.actionsOf j turns) = [] :=
        (Turns.left_playAll hown j).symm.trans hempty
      have hbefore := Turns.answers_playAll hown j
      have hsame := (apart_iff hparser _).mp hapart j
      rw [Turns.actionsOf_concat_self, Turns.alone_append, hstore, Turns.playAll_concat] at hsame
      simp only [Turns.turn, Function.update_self] at hsame
      rw [hbefore, store_playAll] at hsame
      have hanswer : (drain (leftOver parser (turns.map Prod.snd))).1 = [] :=
        (List.append_cancel_left hsame).symm
      simp [drain, flush, Delta.shown, hleft] at hanswer

/-- In a run that hands over, every stream receives what it would receive alone; and a flush
that comes next keeps this so exactly when it is a turn of the last stream or nothing is left. -/
theorem streams_apart_iff {name : Option String} {turns : List (Nat × Call)}
    (h : HandsOver name turns) (j : Nat) :
    Apart name turns ∧ (Apart name (turns ++ [(j, .flush)]) ↔ Takes name turns (j, .flush)) := by
  refine ⟨apart_of_handsOver h, takes_of_apart h, fun htakes => ?_⟩
  exact apart_of_handsOver (handsOver_concat.mpr ⟨h, htakes⟩)

/-- The first stream is abandoned with its text pending. -/
def abandoned : List (Nat × Call) :=
  [(0, .token "secret".toList), (1, .token "<think>".toList), (1, .flush)]

/-- The second stream receives it. -/
theorem abandoned_leaks :
    (serve (some "qwen3") abandoned).map (fun p => p.answers 1) =
        some [{ content := "secret".toList }] ∧
      serveAlone (some "qwen3") (Turns.actionsOf 1 abandoned) = some [] := by
  decide +kernel

/-- The streams change where a text ended behind a tag, and after a flush. -/
def handedOver : List (Nat × Call) :=
  [(0, .token "secret".toList), (0, .token "<think>".toList), (1, .token "a".toList), (1, .flush),
    (0, .token "b".toList)]

theorem handedOver_apart :
    Apart (some "qwen3") handedOver ∧ (Apart (some "qwen3") (handedOver ++ [(1, .flush)]) ↔
      Takes (some "qwen3") handedOver (1, .flush)) := by
  have hover : HandsOver (some "qwen3") handedOver := by
    have hnil : HandsOver (some "qwen3") [] := by
      intro before t hpre
      exact absurd (List.prefix_nil.mp hpre)
        (List.append_ne_nil_of_right_ne_nil _ (List.cons_ne_nil _ _))
    have h1 := handsOver_concat.mpr ⟨hnil, (by decide +kernel : Takes _ _ (0, .token "secret".toList))⟩
    have h2 := handsOver_concat.mpr ⟨h1, (by decide +kernel : Takes _ _ (0, .token "<think>".toList))⟩
    have h3 := handsOver_concat.mpr ⟨h2, (by decide +kernel : Takes _ _ (1, .token "a".toList))⟩
    have h4 := handsOver_concat.mpr ⟨h3, (by decide +kernel : Takes _ _ (1, .flush))⟩
    exact handsOver_concat.mpr ⟨h4, (by decide +kernel : Takes _ _ (0, .token "b".toList))⟩
  exact streams_apart_iff hover 1

/-- `off` keeps nothing, so its streams always hand over. -/
theorem off_handsOver (turns : List (Nat × Call)) : HandsOver (some "off") turns := by
  have hoff : getParser (some "off") = some off := by decide +kernel
  have hnone : ∀ calls : List Call, leftOver off calls = [] := by
    intro calls
    induction calls using List.reverseRecOn with
    | nil => rfl
    | append_singleton calls call ih =>
        cases call with
        | token text => simpa [leftOver, keeps] using ih
        | flush => simp [leftOver, keeps]
  intro before t _
  rw [takes_iff hoff]
  exact Or.inr (hnone _)

end ReasoningParser

end FreeToken
