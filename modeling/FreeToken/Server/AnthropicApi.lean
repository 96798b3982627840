import FreeToken.Server.ReasoningParser
import Mathlib.Algebra.GroupWithZero.Nat

/-!
# `/v1/messages`

`_message_events` and `_message_response` of `server/anthropic_api.py`, on what `stream_chat` yields,
and a client that keeps the blocks of a stream by their index.
-/

namespace FreeToken.Anthropic

/-- The `type` of a `content_block`. -/
inductive BlockType where
  | thinking
  | text
deriving DecidableEq, Repr

/-- The index at which the blocks of a type are streamed. -/
def BlockType.index : BlockType → Nat
  | thinking => 0
  | text => 1

theorem BlockType.index_inj {k k' : BlockType} (h : k.index = k'.index) : k = k' := by
  cases k <;> cases k' <;> first | rfl | cases h

/-- A `content_block` of a type, and its `thinking` or `text`. -/
structure Block where
  type : BlockType
  body : List Char
deriving DecidableEq, Repr

/-- What does not depend on the tokens of an answer. -/
structure Head where
  id : String
  model : String
deriving DecidableEq

/-- The body of a 503. -/
structure NotReady where
  message : String
deriving DecidableEq

inductive Event where
  | error (body : NotReady)
  | messageStart (head : Head)
  | contentBlockStart (index : Nat) (contentBlock : Block)
  | contentBlockDelta (index : Nat) (delta : Block)
  | messageStop
deriving DecidableEq

/-- `block_opened` and `block_index`. -/
structure Cursor where
  blockOpened : Bool := false
  blockIndex : Nat := 0

/-- The branch of a delta that is not empty. -/
def blockEvents (cursor : Cursor) (type : BlockType) (delta : List Char) : List Event × Cursor :=
  if cursor.blockOpened = false ∨ cursor.blockIndex ≠ type.index then
    ([.contentBlockStart type.index ⟨type, []⟩, .contentBlockDelta type.index ⟨type, delta⟩],
      { blockOpened := true, blockIndex := type.index })
  else ([.contentBlockDelta type.index ⟨type, delta⟩], cursor)

/-- One turn of the loop: `if reasoning_delta`, then `if content_delta`. -/
def deltaEvents (cursor : Cursor) (d : Delta) : List Event × Cursor :=
  let (es, cursor) := if d.reasoning = [] then ([], cursor) else blockEvents cursor .thinking d.reasoning
  let (es', cursor) := if d.content = [] then ([], cursor) else blockEvents cursor .text d.content
  (es ++ es', cursor)

def loopEvents (cursor : Cursor) : List Delta → List Event
  | [] => []
  | d :: ds => (deltaEvents cursor d).1 ++ loopEvents (deltaEvents cursor d).2 ds

/-- `_message_events`. -/
def messageEvents (head : Head) : Except NotReady (List Delta) → List Event
  | .error body => [.error body]
  | .ok ds => .messageStart head :: (loopEvents {} ds ++ [.messageStop])

/-- The message of a `/v1/messages` answer. -/
structure Message where
  head : Head
  content : List Block
  stopReason : String := "end_turn"
  outputTokens : Nat
deriving DecidableEq

/-- The loop of `_message_response`. -/
def reasoningParts (ds : List Delta) : List (List Char) := (ds.map Delta.reasoning).filter (· ≠ [])

def contentParts (ds : List Delta) : List (List Char) := (ds.map Delta.content).filter (· ≠ [])

/-- `content`. -/
def messageContent (ds : List Delta) : List Block :=
  let thinking := if reasoningParts ds = [] then [] else [⟨.thinking, (reasoningParts ds).flatten⟩]
  if contentParts ds ≠ [] then thinking ++ [⟨.text, (contentParts ds).flatten⟩]
  else if thinking = [] then [⟨.text, []⟩]
  else thinking

/-- `_message_response`. -/
def messageResponse (head : Head) : Except NotReady (List Delta) → Except NotReady Message
  | .error body => .error body
  | .ok ds => .ok
      { head := head
        content := messageContent ds
        outputTokens := ((contentParts ds).map List.length).sum }

/-! ### What a client sees -/

/-- The thinking, or the text, of blocks. -/
def bodyOf (type : BlockType) (blocks : List Block) : List Char :=
  (blocks.filter fun block => block.type = type).flatMap Block.body

/-- The deltas of a stream. -/
def streamedDeltas : List Event → List Block
  | [] => []
  | .contentBlockDelta _ delta :: es => delta :: streamedDeltas es
  | _ :: es => streamedDeltas es

/-- How often a stream starts the block of an index. -/
def starts (index : Nat) (es : List Event) : Nat :=
  es.countP fun
    | .contentBlockStart i _ => i = index
    | _ => false

/-- Each delta is for an index that was started with a block of the delta's type. -/
def DeltasOpened (opened : List (Nat × BlockType)) : List Event → Prop
  | [] => True
  | .contentBlockStart index block :: es => DeltasOpened ((index, block.type) :: opened) es
  | .contentBlockDelta index delta :: es => (index, delta.type) ∈ opened ∧ DeltasOpened opened es
  | _ :: es => DeltasOpened opened es

/-- The blocks of a client, by their index. -/
abbrev Client := Nat → Option Block

/-- A start sets the block of its index, and a delta adds to it. -/
def Client.receive (c : Client) : Event → Client
  | .contentBlockStart index block => Function.update c index (some block)
  | .contentBlockDelta index delta =>
      Function.update c index ((c index).map fun block => { block with body := block.body ++ delta.body })
  | _ => c

def Client.assemble (c : Client) (es : List Event) : Client := es.foldl Client.receive c

/-- The thinking, or the text, that the client ends up with. -/
def Client.body (c : Client) (type : BlockType) : List Char :=
  ((c type.index).map Block.body).getD []

/-- A stream of events for a message. -/
structure Streams (es : List Event) (message : Message) : Prop where
  starts_le : ∀ index, starts index es ≤ 1
  opened : DeltasOpened [] es
  deltas : ∀ type, bodyOf type (streamedDeltas es) = bodyOf type message.content
  assembled : ∀ type, (Client.assemble (fun _ => none) es).body type = bodyOf type message.content

/-- The types of the deltas that are not empty, in their order. -/
def deltaTypes (ds : List Delta) : List BlockType :=
  ds.flatMap fun d =>
    (if d.reasoning = [] then [] else [.thinking]) ++ (if d.content = [] then [] else [.text])

/-- No delta of the type comes after one of the other. -/
def First (type : BlockType) (types : List BlockType) : Prop :=
  types.Pairwise fun k k' => k' = type → k = type

end FreeToken.Anthropic
