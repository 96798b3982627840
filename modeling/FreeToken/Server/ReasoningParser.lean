import FreeToken.Lib.Find

/-!
# Reasoning parsers

`server/reasoning_parser.py`, and the loop of `stream_chat` that drives a parser. A parser
keeps `_pending` between its calls; `in_think` is a local variable of `parse`. The registry
has one parser object for each name.
-/

namespace FreeToken

open Find

/-- `(reasoning_delta, content_delta)`. -/
structure Delta where
  reasoning : List Char := []
  content : List Char := []
deriving DecidableEq, Repr

/-- `_OPEN`. -/
def openTag : List Char := ['<', 't', 'h', 'i', 'n', 'k', '>']

/-- `_CLOSE`. -/
def closeTag : List Char := ['<', '/', 't', 'h', 'i', 'n', 'k', '>']

/-- The loop of `_trailing_partial`, from `n` down. -/
def trailingPartialFrom (text tag : List Char) : Nat → Nat
  | 0 => 0
  | n + 1 => if tag.take (n + 1) <:+ text then n + 1 else trailingPartialFrom text tag n

/-- `_trailing_partial`. -/
def trailingPartial (text tag : List Char) : Nat :=
  trailingPartialFrom text tag (min text.length (tag.length - 1))

/-- Where the branches without a tag cut `_pending`. -/
def emitFrom (pending tag : List Char) : Nat := pending.length - trailingPartial pending tag

namespace ThinkTagParser

/-- The `while` loop of `parse`: what it yields, `in_think` and `_pending` afterwards. -/
def parseLoop (inThink : Bool) (pending : List Char) : List Delta × Bool × List Char :=
  if inThink then
    match _hfind : find closeTag pending with
    | none =>
        let cut := emitFrom pending closeTag
        if 0 < cut then ([{ reasoning := pending.drop cut }], true, pending.take cut)
        else ([], true, pending)
    | some stop =>
        let reasoning := pending.take stop
        let (ds, rest) := parseLoop false (pending.drop (stop + closeTag.length))
        ((if reasoning = [] then [] else [{ reasoning := reasoning }]) ++ ds, rest)
  else
    match _hfind : find openTag pending with
    | none =>
        let cut := emitFrom pending openTag
        if 0 < cut then ([{ content := pending.drop cut }], false, pending.take cut)
        else ([], false, pending)
    | some start =>
        let content := pending.take start
        let (ds, rest) := parseLoop true (pending.drop (start + openTag.length))
        ((if content = [] then [] else [{ content := content }]) ++ ds, rest)
termination_by pending.length
decreasing_by
  · exact length_drop_find (by decide) _hfind
  · exact length_drop_find (by decide) _hfind

/-- The `for` loop of `parse`. -/
def parseChunks (inThink : Bool) (pending : List Char) : List (List Char) → List Delta × List Char
  | [] => ([], pending)
  | chunk :: chunks =>
      let (ds, inThink, pending) := parseLoop inThink (pending ++ chunk)
      let (ds', pending) := parseChunks inThink pending chunks
      (ds ++ ds', pending)

end ThinkTagParser

/-- The classes of the registered parsers. -/
inductive ReasoningParser where
  | off
  | thinkTag
deriving DecidableEq, Repr

namespace ReasoningParser

/-- `parse`: what it yields, and `_pending` afterwards. -/
def parse (parser : ReasoningParser) (pending : List Char) (textChunks : List (List Char)) :
    List Delta × List Char :=
  match parser with
  | off => ((textChunks.filter (· ≠ [])).map fun chunk => { content := chunk }, pending)
  | thinkTag => ThinkTagParser.parseChunks false pending textChunks

/-- `flush`. -/
def flush (pending : List Char) : Delta × List Char := ({ content := pending }, [])

/-- `REASONING_PARSERS`. -/
def registry : List (String × ReasoningParser) :=
  [("qwen3", thinkTag), ("glm", thinkTag), ("minimax", thinkTag), ("gemma4", thinkTag),
    ("deepseekv32", thinkTag), ("gpt_oss", thinkTag), ("off", off)]

/-- `get_parser`; `none` is the `KeyError`. -/
def getParser (name : Option String) : Option ReasoningParser :=
  match name with
  | none => registry.lookup "off"
  | some name => registry.lookup name

/-! ### `stream_chat` -/

/-- `if reasoning_delta or content_delta`. -/
def Delta.shown (ds : List Delta) : List Delta := ds.filter fun d => d.reasoning ≠ [] ∨ d.content ≠ []

/-- One token of the stream. -/
def feed (parser : ReasoningParser) (pending token : List Char) : List Delta × List Char :=
  let (ds, pending) := parser.parse pending [token]
  (Delta.shown ds, pending)

/-- The loop over the tokens. -/
def feedAll (parser : ReasoningParser) (pending : List Char) :
    List (List Char) → List Delta × List Char
  | [] => ([], pending)
  | token :: tokens =>
      let (ds, pending) := parser.feed pending token
      let (ds', pending) := parser.feedAll pending tokens
      (ds ++ ds', pending)

/-- The end of the stream. -/
def drain (pending : List Char) : List Delta × List Char :=
  let (d, pending) := flush pending
  (Delta.shown [d], pending)

/-- What `stream_chat` yields. -/
def streamChat (parser : ReasoningParser) (pending : List Char) (tokens : List (List Char)) :
    List Delta × List Char :=
  let (ds, pending) := parser.feedAll pending tokens
  let (ds', pending) := drain pending
  (ds ++ ds', pending)

end ReasoningParser

end FreeToken
