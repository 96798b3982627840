import FreeToken.Engine.Generate

/-!
# The server's handlers

Each request of the server runs `_stream_tokens` in a thread of its own: `add_request`,
then the loop of `generate`, on the one engine of the process. Nothing orders the threads,
so a state of the server is the engine and where each handler stands, and a move is one
atomic piece of one handler: the call of `add_request`, the reading of the queue before
the loop, or one turn of the loop with its `step`.
-/

namespace FreeToken

/-- What a handler is called with: the prompt's ids and the client's `max_tokens`. -/
structure TokenRequest where
  inputIds : List Token
  temperature : Rat := 0
  maxTokens : Option Int := none

/-- `_FALLBACK_MAX_TOKENS`. -/
def fallbackMaxTokens : Int := 64

/-- The `Req` that `_stream_tokens` builds. Its uid is always 0. -/
def TokenRequest.args (request : TokenRequest) : AddArgs where
  uid := 0
  inputIds := request.inputIds
  samplingParams :=
    { temperature := request.temperature
      maxTokens :=
        match request.maxTokens with
        | some maxTokens => if 0 < maxTokens then maxTokens else fallbackMaxTokens
        | none => fallbackMaxTokens }

/-- The local variables of the loop of `generate`. -/
structure Loop where
  /-- `budget - steps`. -/
  left : Nat
  admittedUids : List Int
  tokens : List (Int × List Token)

/-- Where a handler stands. -/
inductive Handler where
  | arrived (request : TokenRequest)
  | admitted
  | looping (loop : Loop)
  | ended (emitted : List Token)
  /-- `add_request` raised. -/
  | refused (err : EngineError)

/-- The ids a handler that is done streams to its client. -/
def Handler.answer : Handler → Option (List Token)
  | .ended emitted => some emitted
  | _ => none

theorem Handler.answer_eq_some {h : Handler} {emitted : List Token} :
    h.answer = some emitted ↔ h = .ended emitted := by
  cases h <;> simp [answer]

structure Server where
  engine : Engine
  handlers : Nat → Handler

/-- A handler that moves, and what its step samples if it makes one. -/
structure Move where
  handler : Nat
  sampled : Nat → Token

/-- `token_lists[0] if token_lists else []`. -/
def emittedOf (tokenLists : List (List Token)) : List Token := tokenLists.headD []

namespace Loop

/-- What is read off the queue before the loop. -/
def start (e : Engine) : Loop where
  left := e.stepBudget none
  admittedUids := e.scheduler.pendingList.map PendingReq.uid
  tokens := Engine.emptyTokens e.scheduler.pendingList

/-- `[tokens[uid] for uid in admitted_uids]`. -/
def result (l : Loop) : List (List Token) :=
  l.admittedUids.map fun uid => (dictGet uid l.tokens).getD []

def turn (l : Loop) (out : Engine.StepOutput) : Loop :=
  { l with left := l.left - 1, tokens := Engine.creditStep l.tokens out }

end Loop

namespace Server

/-- What a move showed: the entries it queued, or the step it made. -/
inductive Report where
  | queued (entries : List PendingReq)
  | stepped (out : Engine.StepOutput)
  | silent

def init (config : EngineConfig) (requests : Nat → TokenRequest) : Server where
  engine := Engine.init config
  handlers := fun i => .arrived (requests i)

def set (s : Server) (i : Nat) (h : Handler) : Server :=
  { s with handlers := Function.update s.handlers i h }

/-- One move. A step that raises ends the run; handlers that are done do not move. -/
def report (s : Server) (m : Move) : Option (Report × Server) :=
  match s.handlers m.handler with
  | .arrived request =>
      let (res, e) := s.engine.addRequest request.args
      let entries := e.scheduler.pendingList.drop s.engine.scheduler.pendingList.length
      match res with
      | .ok _ => some (.queued entries, { s with engine := e }.set m.handler .admitted)
      | .error err => some (.queued entries, { s with engine := e }.set m.handler (.refused err))
  | .admitted =>
      if s.engine.scheduler.pendingList = [] then some (.silent, s.set m.handler (.ended (emittedOf [])))
      else some (.silent, s.set m.handler (.looping (Loop.start s.engine)))
  | .looping l =>
      if l.left = 0 then some (.silent, s.set m.handler (.ended (emittedOf l.result)))
      else
        match s.engine.step m.sampled with
        | .error _ => none
        | .ok (out, e) =>
            if out.nextTokenIds = [] then
              some (.stepped out,
                { s with engine := e }.set m.handler (.ended (emittedOf l.result)))
            else some (.stepped out, { s with engine := e }.set m.handler (.looping (l.turn out)))
  | .ended _ | .refused _ => none

/-! ### Whose tokens they are -/

/-- Whose request is at a row, and what was sampled for each handler's request so far. -/
structure Ledger where
  owner : Nat → Option Nat := fun _ => none
  sampled : Nat → List Token := fun _ => []

namespace Ledger

/-- The tokens a step sampled for the requests of handler `i`: its chunks give none. -/
def newTokens (g : Ledger) (i : Nat) (out : Engine.StepOutput) : List Token :=
  ((out.batch.reqs.zip out.nextTokenIds).filter fun x =>
    !x.1.chunked && decide (g.owner x.1.tableIdx = some i)).map Prod.snd

/-- The entries a handler queued are its own; the tokens of a step go to the owners. -/
def see (g : Ledger) (_ : Server) (m : Move) : Report → Ledger
  | .queued entries =>
      { g with
        owner := entries.foldl (fun owner p => Function.update owner p.tableIdx (some m.handler))
          g.owner }
  | .stepped out => { g with sampled := fun i => g.sampled i ++ g.newTokens i out }
  | .silent => g

end Ledger

/-- A move beside the ledger. -/
def watched : Ledger × Server → Move → Option (Ledger × Server) := Run.watch report Ledger.see

/-- The handlers' moves from a fresh server. -/
def runs (config : EngineConfig) (requests : Nat → TokenRequest) (moves : List Move) :
    Option (Ledger × Server) :=
  Run.exec watched ({}, init config requests) moves

end Server

end FreeToken
