import FreeToken.Lib.Run
import FreeToken.Engine.AddRequest
import FreeToken.Engine.AbortRequest
import FreeToken.Engine.Step

/-!
# Calls and runs of the engine

The calls a server makes. A call of `add_request` that raises leaves the engine
as its stages made it, and the server goes on from there; a `step` or an
`abort_request` that raises ends the run.
-/

namespace FreeToken

inductive Call where
  | addRequest (args : AddArgs)
  | step (sampled : Nat → Token)
  | abortRequest (uid : Int)

namespace Engine

/-- One call. -/
def call (e : Engine) : Call → Option Engine
  | .addRequest args => some (e.addRequest args).2
  | .step sampled =>
      match e.step sampled with
      | .ok (_, e) => some e
      | .error _ => none
  | .abortRequest uid =>
      match e.abortRequest uid with
      | .ok (_, e) => some e
      | .error _ => none

/-- What a call that comes back reports. -/
inductive Report where
  | added (res : Except EngineError PendingReq)
  | stepped (out : StepOutput)
  | aborted (found : Bool)

/-- One call, with its report. -/
def report (e : Engine) : Call → Option (Report × Engine)
  | .addRequest args => some (.added (e.addRequest args).1, (e.addRequest args).2)
  | .step sampled =>
      match e.step sampled with
      | .ok (out, e) => some (.stepped out, e)
      | .error _ => none
  | .abortRequest uid =>
      match e.abortRequest uid with
      | .ok (found, e) => some (.aborted found, e)
      | .error _ => none

theorem map_snd_report (e : Engine) (c : Call) : (e.report c).map Prod.snd = e.call c := by
  cases c with
  | addRequest args => rfl
  | step sampled =>
      simp only [report, call]
      cases e.step sampled <;> rfl
  | abortRequest uid =>
      simp only [report, call]
      cases e.abortRequest uid <;> rfl

/-- A call that comes back without raising. -/
def Returns (e : Engine) : Call → Prop
  | .addRequest args => ∃ p, (e.addRequest args).1 = .ok p
  | .step sampled => ∃ out e', e.step sampled = .ok (out, e')
  | .abortRequest uid => ∃ ok e', e.abortRequest uid = .ok (ok, e')

instance (e : Engine) (c : Call) : Decidable (e.Returns c) :=
  match c with
  | .addRequest args =>
      match h : (e.addRequest args).1 with
      | .ok p => isTrue ⟨p, h⟩
      | .error _ => isFalse fun ⟨p, hp⟩ => by rw [h] at hp; cases hp
  | .step sampled =>
      match h : e.step sampled with
      | .ok (out, e') => isTrue ⟨out, e', h⟩
      | .error _ => isFalse fun ⟨out, e', hs⟩ => by rw [h] at hs; cases hs
  | .abortRequest uid =>
      match h : e.abortRequest uid with
      | .ok (ok, e') => isTrue ⟨ok, e', h⟩
      | .error _ => isFalse fun ⟨ok, e', hs⟩ => by rw [h] at hs; cases hs

/-- A run from a fresh engine. -/
def runs (config : EngineConfig) (calls : List Call) : Option Engine :=
  Run.exec call (init config) calls

/-- One row, and a page for each of its four tokens. -/
def singleRow : EngineConfig where
  maxRunningReq := 1
  pageSize := 1
  maxSeqLen := 4
  numPages := 4
  maxExtendTokens := 8
  enablePrefixCache := true

end Engine

end FreeToken
