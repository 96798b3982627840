import FreeToken.Server.AnthropicSpec

/-!
# The HTTP surfaces

`_chat_completions` with `_merge_to_completion`, `_responses_generate` with `_responses_stream` and
`_responses_object` of `server/openai_api.py`, beside `/v1/messages`. Each runs `stream_chat` over the
texts of the decoded tokens, with a parser that holds nothing yet or with none.
-/

namespace FreeToken

/-- `stream_chat`, where `reasoning_parser` may be `None`. -/
def streamChat (reasoningParser : Option ReasoningParser) (tokens : List (List Char)) : List Delta :=
  match reasoningParser with
  | none => tokens.map fun token => { content := token }
  | some parser => (parser.streamChat [] tokens).1

namespace OpenAI

/-- `completion_id()` and `now_timestamp()` at one time. -/
structure Stamp where
  id : String
  created : Nat

/-- The `delta` of a chunk. -/
structure ChunkDelta where
  role : Option String := none
  content : Option (List Char) := none
  reasoningContent : Option (List Char) := none
deriving DecidableEq

/-- A `chat.completion.chunk`. -/
structure Chunk where
  stamp : Stamp
  model : String
  delta : ChunkDelta
  finishReason : Option String

/-- `delta or {"role": "assistant"}`. -/
def chunkDelta (d : Delta) : ChunkDelta :=
  let delta : ChunkDelta :=
    { content := if d.content = [] then none else some d.content
      reasoningContent := if d.reasoning = [] then none else some d.reasoning }
  if delta = {} then { role := some "assistant" } else delta

/-- `_chat_completions`. -/
def chatCompletions (stamps : Nat → Stamp) (model : String) (ds : List Delta) : List Chunk :=
  (ds.mapIdx fun i d =>
    { stamp := stamps i, model := model, delta := chunkDelta d, finishReason := none }) ++
    [{ stamp := stamps ds.length, model := model, delta := {}, finishReason := some "stop" }]

/-- A `chat.completion`. -/
structure Completion where
  stamp : Stamp
  model : String
  content : List Char
  reasoningContent : Option (List Char)
  finishReason : String

/-- `if delta.get(key)` over the chunks. -/
def parts (key : ChunkDelta → Option (List Char)) (chunks : List Chunk) : List (List Char) :=
  (chunks.filterMap fun chunk => key chunk.delta).filter (· ≠ [])

/-- `_merge_to_completion`; `none` is the `IndexError` of `chunks[0]`. -/
def mergeToCompletion : List Chunk → Option Completion
  | [] => none
  | first :: chunks =>
      let all := first :: chunks
      let reasoningParts := parts ChunkDelta.reasoningContent all
      some
        { stamp := first.stamp
          model := first.model
          content := (parts ChunkDelta.content all).flatten
          reasoningContent := if reasoningParts = [] then none else some reasoningParts.flatten
          finishReason := ((all.filterMap Chunk.finishReason).getLast?).getD "stop" }

/-- `_responses_object`. -/
structure ResponsesObject where
  stamp : Stamp
  status : String
  model : String
  /-- The text of `output[0]`. -/
  output : List Char
  outputText : List Char

def responsesObject (stamp : Stamp) (model : String) (text : List Char) (status : String) :
    ResponsesObject where
  stamp := stamp
  status := status
  model := model
  output := text
  outputText := text

inductive ResponsesEvent where
  | created (response : ResponsesObject)
  | inProgress (response : ResponsesObject)
  | outputItemAdded (itemId : String)
  | contentPartAdded (itemId : String)
  | outputTextDelta (itemId : String) (delta : List Char)
  | outputTextDone (itemId : String) (text : List Char)
  | contentPartDone (itemId : String) (text : List Char)
  | outputItemDone (item : List Char)
  | completed (response : ResponsesObject)

/-- `_responses_stream`: the frames' `sequence_number` is their place. -/
def responsesStream (stamp : Stamp) (completedAt : Nat) (model itemId : String) (ds : List Delta) :
    List ResponsesEvent :=
  let inProgress := responsesObject stamp model [] "in_progress"
  let parts := (ds.map Delta.content).filter (· ≠ [])
  let text := parts.flatten
  let response := responsesObject { stamp with created := completedAt } model text "completed"
  [.created inProgress, .inProgress inProgress, .outputItemAdded itemId, .contentPartAdded itemId] ++
    parts.map (.outputTextDelta itemId) ++
    [.outputTextDone itemId text, .contentPartDone itemId text, .outputItemDone response.output,
      .completed response]

/-- `responses`, when it does not stream. -/
def responses (stamp : Stamp) (model : String) (ds : List Delta) : ResponsesObject :=
  responsesObject stamp model (ds.map Delta.content).flatten "completed"

/-! ### What each surface shows -/

/-- The text of a stream of chunks. -/
def chunksText (chunks : List Chunk) : List Char :=
  chunks.flatMap fun chunk => chunk.delta.content.getD []

/-- The deltas of a stream of events. -/
def deltasText (events : List ResponsesEvent) : List Char :=
  events.flatMap fun
    | .outputTextDelta _ delta => delta
    | _ => []

/-- The texts of its last events. -/
def finalTexts (events : List ResponsesEvent) : List (List Char) :=
  events.flatMap fun
    | .outputTextDone _ text => [text]
    | .contentPartDone _ text => [text]
    | .outputItemDone item => [item]
    | .completed response => [response.output, response.outputText]
    | _ => []

end OpenAI

/-- What the server and the clocks add to an answer. -/
structure Context where
  stamps : Nat → OpenAI.Stamp
  completedAt : Nat
  model : String
  itemId : String

/-- The ways in which an answer is delivered. -/
inductive Surface where
  | chatStream
  | chatCompletion
  | responsesStream
  | responsesFinal
  | responses
  | messagesStream
  | messages
deriving DecidableEq

/-- The texts that a surface delivers as visible, each of them the whole answer. -/
def Surface.visible (cx : Context) (parser : ReasoningParser) (tokens : List (List Char)) :
    Surface → List (List Char)
  | .chatStream =>
      [OpenAI.chunksText
        (OpenAI.chatCompletions cx.stamps cx.model (FreeToken.streamChat (some parser) tokens))]
  | .chatCompletion =>
      ((OpenAI.mergeToCompletion
        (OpenAI.chatCompletions cx.stamps cx.model (FreeToken.streamChat (some parser) tokens))).map
          OpenAI.Completion.content).toList
  | .responsesStream =>
      [OpenAI.deltasText (OpenAI.responsesStream (cx.stamps 0) cx.completedAt cx.model cx.itemId
        (FreeToken.streamChat none tokens))]
  | .responsesFinal =>
      OpenAI.finalTexts (OpenAI.responsesStream (cx.stamps 0) cx.completedAt cx.model cx.itemId
        (FreeToken.streamChat none tokens))
  | .responses =>
      [(OpenAI.responses (cx.stamps 0) cx.model (FreeToken.streamChat none tokens)).output,
        (OpenAI.responses (cx.stamps 0) cx.model (FreeToken.streamChat none tokens)).outputText]
  | .messagesStream =>
      [Anthropic.bodyOf .text (Anthropic.streamedDeltas
        (Anthropic.messageEvents ⟨cx.itemId, cx.model⟩ (.ok (FreeToken.streamChat (some parser) tokens))))]
  | .messages =>
      match Anthropic.messageResponse ⟨cx.itemId, cx.model⟩
        (.ok (FreeToken.streamChat (some parser) tokens)) with
      | .ok message => [Anthropic.bodyOf .text message.content]
      | .error _ => []

/-- What the parser classifies as content. -/
def parsedContent (parser : ReasoningParser) (tokens : List (List Char)) : List Char :=
  (streamChat (some parser) tokens).flatMap Delta.content

/-- Every surface delivers something, and all of it is one text, which is what the parser leaves. -/
structure SameAnswer (cx : Context) (parser : ReasoningParser) (tokens : List (List Char)) : Prop where
  delivers : ∀ surface : Surface, surface.visible cx parser tokens ≠ []
  same : ∀ surface surface' : Surface, ∀ text ∈ surface.visible cx parser tokens,
    ∀ text' ∈ surface'.visible cx parser tokens, text = text'
  clean : ∀ surface : Surface, ∀ text ∈ surface.visible cx parser tokens,
    text = parsedContent parser tokens

end FreeToken
