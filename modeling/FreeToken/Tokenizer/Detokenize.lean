import FreeToken.Core
import FreeToken.Lib.Dict
import FreeToken.Lib.Utf8

/-!
# Incremental decoding

`DetokenizeManager` decodes a request's ids as they come: `update` decodes the ids from
`surr_offset` on, takes what the text has grown by, and returns what goes beyond the text it
has sent. Text is a list of code points, as a Python string is. The tokenizer is a parameter;
a byte-level one decodes the bytes of its tokens as UTF-8.
-/

namespace FreeToken

/-- The characters of `_NON_PRINTABLE_RE`. -/
def nonPrintable (c : Char) : Bool :=
  c == ' ' || c == '\t' || c == '\n' || c == '\r' || c == '\x0c' || c == '\x0b' ||
    c == '\x85' || c == '\u1c2f' || c == '\u1c3f' || ('\u200a' ≤ c && c ≤ '\u200c') ||
    c == '\u2028' || c == '\u2029'

def findPrintableText (text : List Char) : List Char := text.dropWhile nonPrintable

/-- `_DecodeState`. -/
structure DecodeState where
  decodedIds : List Token := []
  decodedStr : List Char := []
  readOffset : Nat := 0
  surrOffset : Nat := 0
  sentOffset : Nat := 0
  deriving DecidableEq

/-- The loop of `_stop_prefix_holdback`, from the given length down. -/
def holdbackFrom (text : List Char) (stopStrs : List (List Char)) : Nat → Nat
  | 0 => 0
  | length + 1 =>
      let suffix := text.drop (text.length - (length + 1))
      if stopStrs.any fun stop => length + 1 < stop.length && suffix.isPrefixOf stop then
        length + 1
      else holdbackFrom text stopStrs length

/-- `_stop_prefix_holdback`. -/
def stopPrefixHoldback (text : List Char) (stopStrs : List (List Char)) : Nat :=
  if stopStrs = [] ∨ text = [] then 0
  else holdbackFrom text stopStrs
    (min text.length ((stopStrs.map List.length).max?.getD 0))

structure DetokenizeManager where
  /-- `tokenizer.decode(ids, skip_special_tokens=False)`. -/
  decode : List Token → List Char
  stopStrs : List (List Char)
  decodeMap : Dict String DecodeState

inductive DetokenizeError where
  /-- `KeyError`. -/
  | noContext (uid : String)
  deriving DecidableEq

/-- `update` on the context it has found. -/
def DecodeState.update (decode : List Token → List Char) (stopStrs : List (List Char))
    (s : DecodeState) (ids : List Token) : List Char × DecodeState :=
  let decodedIds := s.decodedIds ++ ids
  let readIds := decodedIds.drop s.surrOffset
  let surrIds := (decodedIds.take s.readOffset).drop s.surrOffset
  let readStr := decode readIds
  let surrStr := decode surrIds
  let newText := readStr.drop surrStr.length
  let complete := 0 < newText.length ∧ newText.getLast? ≠ some Utf8.replacement
  let outputStr :=
    if complete then s.decodedStr ++ newText
    else s.decodedStr ++ findPrintableText newText
  let prevSent := s.sentOffset
  let emitEnd :=
    if stopStrs ≠ [] then outputStr.length - stopPrefixHoldback outputStr stopStrs
    else outputStr.length
  let incrementalOutput :=
    if prevSent < emitEnd then (outputStr.take emitEnd).drop prevSent else []
  (incrementalOutput,
    { decodedIds
      decodedStr := if complete then outputStr else s.decodedStr
      readOffset := if complete then decodedIds.length else s.readOffset
      surrOffset := if complete then s.readOffset else s.surrOffset
      sentOffset := max prevSent emitEnd })

namespace DetokenizeManager

def create (m : DetokenizeManager) (uid : String) : DetokenizeManager :=
  { m with decodeMap := m.decodeMap.set uid {} }

def delete (m : DetokenizeManager) (uid : String) : DetokenizeManager :=
  { m with decodeMap := m.decodeMap.erase uid }

def update (m : DetokenizeManager) (uid : String) (ids : List Token) :
    Except DetokenizeError (List Char × DetokenizeManager) :=
  match m.decodeMap.get? uid with
  | none => .error (.noContext uid)
  | some s =>
      let (delta, s) := s.update m.decode m.stopStrs ids
      .ok (delta, { m with decodeMap := m.decodeMap.set uid s })

/-- A call of a manager. -/
inductive Call where
  | create (uid : String)
  | update (uid : String) (ids : List Token)
  | delete (uid : String)

def Call.uid : Call → String
  | .create uid | .update uid _ | .delete uid => uid

/-- The manager after a call. An `update` that raises changes nothing. -/
def call (m : DetokenizeManager) : Call → DetokenizeManager
  | .create uid => m.create uid
  | .update uid ids =>
      match m.update uid ids with
      | .ok (_, m) => m
      | .error _ => m
  | .delete uid => m.delete uid

/-- The delta that a call returns for `uid`. -/
def delta (m : DetokenizeManager) (uid : String) : Call → List Char
  | .update other ids =>
      if other = uid then
        match m.update uid ids with
        | .ok (delta, _) => delta
        | .error _ => []
      else []
  | _ => []

/-- The concatenation of what `update` returns for `uid` over the calls. -/
def deltas (m : DetokenizeManager) (uid : String) : List Call → List Char
  | [] => []
  | c :: calls => m.delta uid c ++ (m.call c).deltas uid calls

end DetokenizeManager

/-- The ids fed to `uid`, piece by piece. -/
def pieces (uid : String) : List DetokenizeManager.Call → List (List Token)
  | [] => []
  | .update other ids :: calls =>
      if other = uid then ids :: pieces uid calls else pieces uid calls
  | _ :: calls => pieces uid calls

/-- The decoder of a byte-level tokenizer with the given bytes of each token. -/
def byteLevel (tokenBytes : Token → List UInt8) (ids : List Token) : List Char :=
  Utf8.lossy (ids.flatMap tokenBytes)

/-- `_decode_stream` with a tokenizer: the deltas it yields. -/
def decodeStream (m : DetokenizeManager) (uid : String) :
    List Token → Except DetokenizeError (List (List Char))
  | [] => .ok []
  | tokenId :: tokenIds => do
      let (delta, m) ← m.update uid [tokenId]
      let rest ← decodeStream m uid tokenIds
      pure (if delta = [] then rest else delta :: rest)

end FreeToken
