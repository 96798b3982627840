import FreeToken.Lib.Run
import Mathlib.Logic.Function.Basic

/-!
# The worker thread of `cpu_moe.cpp`

`AsyncWorker` has one job slot. Each section under its mutex is one event here, and so are the
notifications after it and the run of a job outside it. A condition variable is the list of the
threads that are blocked on it; a blocked thread can wake up at any time.
-/

namespace FreeToken

/-- The fields under `mu_`. A job is its arguments; `rc` is `job_.rc`. -/
structure AsyncWorker (Job : Type) where
  job : Job
  rc : Int := 0
  occupied : Bool := false
  done : Bool := false
  shutdown : Bool := false
  nextHandle : Int64 := 0
  handle : Int64 := 0

/-- Where the worker thread is in `run`. -/
inductive WorkerThread (Job : Type) where
  /-- It is about to look at the predicate of `cv_job_`. -/
  | checking
  | blocked
  /-- In `run_job`, without the mutex. -/
  | running (localJob : Job)
  | computed (rc : Int)
  | exited

/-- Where a client is between its `submit` and the end of its `wait`. -/
inductive ClientPhase where
  | idle
  /-- In `submit`, while the slot is taken. -/
  | submitting
  /-- The job is in the slot; `cv_job_` is not notified yet. -/
  | claimed (handle : Int64)
  | submitted (handle : Int64)
  /-- In `wait`, past its first check. -/
  | waiting (handle : Int64)
  /-- The slot is free again; `cv_slot_free_` is not notified yet. -/
  | returning (rc : Int)
  | returned (rc : Int)
deriving DecidableEq

/-- The worker, its thread and its clients. `claims` and `ran` are the jobs that were put into the
slot and those that were run, with their return codes. -/
structure AsyncSystem (Client Job : Type) where
  worker : AsyncWorker Job
  thread : WorkerThread Job := .checking
  phase : Client → ClientPhase := fun _ => .idle
  /-- The clients that are blocked on `cv_slot_free_`. -/
  slotFree : List Client := []
  /-- The clients that are blocked on `cv_done_`. -/
  doneQueue : List Client := []
  claims : List Client := []
  ran : List (Job × Int) := []

inductive AsyncEvent (Client : Type) where
  | submit (i : Client)
  | notifyJob (i : Client)
  | wait (i : Client)
  /-- A client in `wait` looks at the predicate of `cv_done_` again. -/
  | recheck (i : Client)
  /-- `notify_one` of `cv_slot_free_`, and the thread it wakes. -/
  | notifySlot (i : Client) (woken : Option Client)
  | check
  /-- `run_job` returns `rc`. -/
  | run (rc : Int)
  | complete
  | destroy
  /-- Spurious wake-ups. -/
  | wakeSubmit (i : Client)
  | wakeWait (i : Client)
  | wakeWorker
deriving DecidableEq

namespace AsyncSystem

variable {Client Job : Type} [DecidableEq Client]

/-- The worker before its first job; `emptyJob` is the default `AsyncJob`. -/
def init (emptyJob : Job) : AsyncSystem Client Job := { worker := { job := emptyJob } }

def setPhase (s : AsyncSystem Client Job) (i : Client) (p : ClientPhase) : Client → ClientPhase :=
  Function.update s.phase i p

/-- `submit(job)` under the mutex: it claims the slot, or blocks on `cv_slot_free_`. -/
def submit (jobs : Client → Job) (s : AsyncSystem Client Job) (i : Client) :
    AsyncSystem Client Job :=
  if s.worker.occupied then
    { s with phase := s.setPhase i .submitting, slotFree := i :: s.slotFree }
  else
    let handle := s.worker.nextHandle + 1
    { s with
      worker := { s.worker with
        job := jobs i, rc := 0, occupied := true, done := false
        nextHandle := handle, handle := handle }
      phase := s.setPhase i (.claimed handle)
      claims := s.claims ++ [i] }

/-- The loop of `wait` on `cv_done_`, and the return code when it is through. -/
def collect (s : AsyncSystem Client Job) (i : Client) (handle : Int64) : AsyncSystem Client Job :=
  if s.worker.done ∧ s.worker.handle = handle then
    { s with
      worker := { s.worker with occupied := false }
      phase := s.setPhase i (.returning s.worker.rc) }
  else { s with phase := s.setPhase i (.waiting handle), doneQueue := i :: s.doneQueue }

/-- `wait(handle)` under the mutex. -/
def wait (s : AsyncSystem Client Job) (i : Client) (handle : Int64) : AsyncSystem Client Job :=
  if s.worker.occupied = false ∨ handle ≠ s.worker.handle then
    { s with phase := s.setPhase i (.returned (-100)) }
  else s.collect i handle

/-- The predicate of `cv_job_` apart from `shutdown_`. -/
def pending (s : AsyncSystem Client Job) : Bool := s.worker.occupied && !s.worker.done

/-- The worker thread, from the predicate of `cv_job_` on. -/
def look (s : AsyncSystem Client Job) : AsyncSystem Client Job :=
  if s.pending then { s with thread := .running s.worker.job }
  else if s.worker.shutdown then { s with thread := .exited }
  else { s with thread := .blocked }

/-- The worker thread after `run_job`, until it gives the mutex up again. -/
def complete (s : AsyncSystem Client Job) (rc : Int) : AsyncSystem Client Job :=
  look { s with worker := { s.worker with rc := rc, done := true }, doneQueue := [] }

def wakeThread : WorkerThread Job → WorkerThread Job
  | .blocked => .checking
  | thread => thread

/-- One event; `none` when the thread is not there. -/
def next (jobs : Client → Job) (s : AsyncSystem Client Job) :
    AsyncEvent Client → Option (AsyncSystem Client Job)
  | .submit i =>
      match s.phase i with
      | .idle => some (s.submit jobs i)
      | .submitting => if i ∈ s.slotFree then none else some (s.submit jobs i)
      | _ => none
  | .notifyJob i =>
      match s.phase i with
      | .claimed handle =>
          some { s with thread := wakeThread s.thread, phase := s.setPhase i (.submitted handle) }
      | _ => none
  | .wait i =>
      match s.phase i with
      | .submitted handle => some (s.wait i handle)
      | _ => none
  | .recheck i =>
      match s.phase i with
      | .waiting handle => if i ∈ s.doneQueue then none else some (s.collect i handle)
      | _ => none
  | .notifySlot i woken =>
      match s.phase i with
      | .returning rc =>
          if (woken = none ∧ s.slotFree = []) ∨ ∃ k ∈ s.slotFree, woken = some k then
            some { s with
              phase := s.setPhase i (.returned rc)
              slotFree := s.slotFree.filter fun k => woken ≠ some k }
          else none
      | _ => none
  | .check =>
      match s.thread with
      | .checking => some s.look
      | _ => none
  | .run rc =>
      match s.thread with
      | .running localJob =>
          some { s with thread := .computed rc, ran := s.ran ++ [(localJob, rc)] }
      | _ => none
  | .complete =>
      match s.thread with
      | .computed rc => some (s.complete rc)
      | _ => none
  | .destroy =>
      some { s with
        worker := { s.worker with shutdown := true }, thread := wakeThread s.thread }
  | .wakeSubmit i => some { s with slotFree := s.slotFree.filter fun k => k ≠ i }
  | .wakeWait i => some { s with doneQueue := s.doneQueue.filter fun k => k ≠ i }
  | .wakeWorker => some { s with thread := wakeThread s.thread }

end AsyncSystem

end FreeToken
