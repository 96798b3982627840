import FreeToken.Lib.Generator
import FreeToken.Lib.ReadNumbers
import FreeToken.Lib.Spans
import FreeToken.Server.ReasoningParser

/-!
# Tool-call parsers

`GenericTagParser` of `server/function_call_parser.py`, its registered grammars and its stream: a call
that is complete is cut out of the buffer and its body decoded, and what may still become a marker is
kept for the next chunk. `_parse_json_object` catches a `JSONDecodeError`; what else the decoding raises
ends the stream.
-/

namespace FreeToken

open Find
open Spans (Markers)

/-! ### The grammars -/

/-- `_TAG_OPEN`. -/
def toolOpen : List Char := ['<', 't', 'o', 'o', 'l', '>']

/-- `_TAG_CLOSE`. -/
def toolClose : List Char := ['<', '/', 't', 'o', 'o', 'l', '>']

/-- `_LLAMA3_OPEN`. -/
def llama3Open : List Char := "<|start_header|>tool_call<|end_header|>".toList

/-- `_LLAMA3_CLOSE`. -/
def llama3Close : List Char := "<|eot|>".toList

theorem toolOpen_ne : toolOpen ≠ [] := List.cons_ne_nil _ _

theorem toolOpen_unbordered : ∀ i < toolOpen.length, 0 < i → ¬ toolOpen.drop i <+: toolOpen := by
  decide

theorem toolOpen_toolClose : ∀ i < toolOpen.length,
    ¬ toolOpen.drop i <+: toolClose ∧ ¬ toolClose <+: toolOpen.drop i := by
  decide

theorem toolClose_toolOpen : ∀ i < toolClose.length,
    ¬ toolClose.drop i <+: toolOpen ∧ ¬ toolOpen <+: toolClose.drop i := by
  decide

theorem llama3Open_ne : llama3Open ≠ [] := by
  decide +kernel

theorem llama3Open_unbordered :
    ∀ i < llama3Open.length, 0 < i → ¬ llama3Open.drop i <+: llama3Open := by
  decide +kernel

theorem llama3Open_llama3Close : ∀ i < llama3Open.length,
    ¬ llama3Open.drop i <+: llama3Close ∧ ¬ llama3Close <+: llama3Open.drop i := by
  decide +kernel

theorem llama3Close_llama3Open : ∀ i < llama3Close.length,
    ¬ llama3Close.drop i <+: llama3Open ∧ ¬ llama3Open <+: llama3Close.drop i := by
  decide +kernel

/-- The markers of `QwenToolParser`, which are those of `GenericTagParser` itself. -/
def qwenToolParser : Markers Char where
  opener := toolOpen
  closer := toolClose
  opener_ne := toolOpen_ne
  unbordered := toolOpen_unbordered
  opener_closer := toolOpen_toolClose
  closer_opener := toolClose_toolOpen

/-- The markers of `Llama3ToolParser`. -/
def llama3ToolParser : Markers Char where
  opener := llama3Open
  closer := llama3Close
  opener_ne := llama3Open_ne
  unbordered := llama3Open_unbordered
  opener_closer := llama3Open_llama3Close
  closer_opener := llama3Close_llama3Open

/-- The parsers of `TOOL_CALL_PARSERS` that are `GenericTagParser`s. -/
def toolCallParsers : List (String × Markers Char) :=
  [("qwen25", qwenToolParser), ("llama3", llama3ToolParser), ("mistral", llama3ToolParser),
    ("qwen3_coder", qwenToolParser), ("deepseekv32", llama3ToolParser), ("glm47", llama3ToolParser),
    ("minimax", llama3ToolParser), ("gemma4", qwenToolParser)]

/-! ### `parse` -/

namespace GenericTagParser

variable (m : Markers Char)

/-- The `while` loop of `parse`: the bodies of the calls it yields, and `buffer` afterwards. -/
def parseLoop (buffer : List Char) : List (List Char) × List Char :=
  match _hstart : find m.opener buffer with
  | none =>
      let keep := trailingPartial buffer m.opener
      ([], if keep ≠ 0 then buffer.drop (buffer.length - keep) else [])
  | some start =>
      let rest := buffer.drop (start + m.opener.length)
      match _hstop : find m.closer rest with
      | none => ([], buffer.drop start)
      | some length =>
          let body := rest.take length
          let (bodies, buffer) :=
            parseLoop (buffer.take start ++ rest.drop (length + m.closer.length))
          (body :: bodies, buffer)
termination_by buffer.length
decreasing_by
  have hstart := find_le _hstart
  have hpos := m.opener_pos
  simp only [List.length_append, List.length_take, List.length_drop]
  omega

/-- The `for` loop of `parse`. -/
def parseChunks (buffer : List Char) : List (List Char) → List (List Char)
  | [] => []
  | chunk :: chunks =>
      let (bodies, buffer) := parseLoop m (buffer ++ chunk)
      bodies ++ parseChunks buffer chunks

end GenericTagParser

/-! ### The bodies -/

/-- The `json` module. `loads` also raises what is no `JSONDecodeError` (a `ValueError` for an integer
of too many digits, a `RecursionError`). -/
structure Json (ε ν : Type) where
  /-- `none` is the `JSONDecodeError`. -/
  loads : List Char → Except ε (Option ν)
  dumps : ν → Except ε (List Char)
  /-- The `get` of a `dict`. -/
  dict : ν → Option (String → Option ν)
  /-- The text of a `str`. -/
  str : ν → Option (List Char)

/-- `_parse_json_object`, as the `get` of what it returns. -/
def parseJsonObject {ε ν : Type} (json : Json ε ν) (blob : List Char) : Except ε (String → Option ν) :=
  (json.loads blob).map fun
    | none => fun _ => none
    | some data => (json.dict data).getD fun _ => none

/-- The `function` of a call; no name is the name `""`. -/
structure ToolFunction (ν : Type) where
  name : Option ν
  arguments : List Char

/-- `function_args`: what is no string is dumped. -/
def functionArgs {ε ν : Type} (json : Json ε ν) (args : String → Option ν) : Except ε (List Char) :=
  match args "arguments" with
  | none => .ok []
  | some value =>
      match json.str value with
      | some text => .ok text
      | none => json.dumps value

/-- What `parse` makes of a body. -/
def toolFunction {ε ν : Type} (json : Json ε ν) (body : List Char) : Except ε (ToolFunction ν) :=
  parseJsonObject json (pyStrip body) >>= fun args =>
    (functionArgs json args).map fun functionArgs => { name := args "name", arguments := functionArgs }

/-- A `tool_call`: its id, and its `name` and `arguments`. -/
structure ToolCall (κ : Type) where
  id : String
  function : κ
deriving DecidableEq

/-- `parse`, by a parser that has given out some ids: the generator of its calls. `function` makes the
`name` and the `arguments` of a body, or raises. -/
def GenericTagParser.parse {ε κ : Type} (m : Markers Char) (function : List Char → Except ε κ)
    (toolCallIds : Nat) (textChunks : List (List Char)) : List (Except ε (ToolCall κ)) :=
  (GenericTagParser.parseChunks m [] textChunks).mapIdx fun i body =>
    (function body).map fun function => ⟨"call_" ++ toString (toolCallIds + i), function⟩

end FreeToken
