import Mathlib.Data.Int.Notation
import Mathlib.Data.Nat.Notation
import Mathlib.Logic.Function.Basic

/-! # The thread pool of `Threadpoll.cpp`

Every critical section under `_mutex` is one step, and so is every other access of a worker to
the pool. A thread that waits on `_condition` may wake up at any time, notified or not. -/

namespace ServerKit

namespace Threadpool

/-- `struct TaskFunc`; its function is known by an identity. -/
structure TaskFunc where
  func : ℕ
  expireTime : ℤ
  deriving DecidableEq, Repr

/-- Where a worker is in `run`. -/
inductive Phase where
  /-- at the test of the loop -/
  | loop
  /-- at the start of `get` -/
  | get
  /-- in the wait of `get` -/
  | waiting
  /-- behind a `get` that has returned a task -/
  | taken (task : TaskFunc)
  /-- behind the increment of `_atomic` -/
  | counted (task : TaskFunc)
  /-- in the function of the task -/
  | running (task : TaskFunc)
  /-- behind the `try` block and its handler -/
  | ended
  /-- behind the decrement of `_atomic` -/
  | uncounted
  | exited
  deriving DecidableEq, Repr

/-- The task that waits to run or runs on this worker. -/
def Phase.task : Phase → Option TaskFunc
  | .taken task | .counted task | .running task => some task
  | .loop | .get | .waiting | .ended | .uncounted | .exited => none

end Threadpool

open Threadpool in
/-- The pool, its workers, the threads that wait in `waitForAllDone` (`true` for the timed
wait), and the tasks that have been taken and those that have ended, in the order of time. -/
structure Threadpool where
  tasks : List TaskFunc
  bTerminate : Bool
  atomic : ℤ
  workers : List Phase
  waiters : ℕ → Option Bool
  taken : List TaskFunc
  finished : List TaskFunc

namespace Threadpool

/-- The pool after `start`, with this queue. -/
def started (threadNum : ℕ) (tasks : List TaskFunc) : Threadpool where
  tasks := tasks
  bTerminate := false
  atomic := 0
  workers := List.replicate threadNum .loop
  waiters := fun _ => none
  taken := []
  finished := []

def setPhase (s : Threadpool) (w : ℕ) (phase : Phase) : Threadpool :=
  { s with workers := s.workers.set w phase }

/-- `get`, from its start or from a wake-up on, to its return or its next wait. -/
def get (s : Threadpool) (w : ℕ) : Threadpool :=
  if s.tasks.isEmpty && !s.bTerminate then s.setPhase w .waiting
  else if s.bTerminate then s.setPhase w .loop
  else
    match s.tasks with
    | [] => s.setPhase w .loop
    | task :: rest =>
      { s with tasks := rest, taken := s.taken ++ [task] }.setPhase w (.taken task)

/-- The function has returned or thrown, or the task was too late. -/
def finish (s : Threadpool) (w : ℕ) (task : TaskFunc) : Threadpool :=
  { s with finished := s.finished ++ [task] }.setPhase w .ended

/-- The next step of a worker in `run`; `now` is what `TNOWMS` gives. The last critical section
notifies the waiting threads, which changes nothing here. -/
def run (s : Threadpool) (w : ℕ) (now : ℤ) : Threadpool :=
  match s.workers[w]? with
  | none => s
  | some .loop => s.setPhase w (if s.bTerminate then .exited else .get)
  | some .get => s.get w
  | some .waiting => s.get w
  | some (.taken task) => { s with atomic := s.atomic + 1 }.setPhase w (.counted task)
  | some (.counted task) =>
    if task.expireTime ≠ 0 ∧ task.expireTime < now then s.finish w task
    else s.setPhase w (.running task)
  | some (.running task) => s.finish w task
  | some .ended => { s with atomic := s.atomic - 1 }.setPhase w .uncounted
  | some .uncounted => s.setPhase w .loop
  | some .exited => s

/-- What a thread learns from `waitForAllDone` in a step: nothing yet, that all is done, which
is also the return from the untimed wait, or that its time is over. -/
inductive Report where
  | silent
  | done
  | expired
  deriving DecidableEq, Repr

/-- `waitForAllDone` up to its return or its wait. A thread makes one call at a time. -/
def waitForAllDone (s : Threadpool) (thread : ℕ) (millsecond : ℤ) : Threadpool × Report :=
  match s.waiters thread with
  | some _ => (s, .silent)
  | none =>
    if s.tasks.isEmpty then (s, .done)
    else
      ({ s with waiters := Function.update s.waiters thread (some (decide (0 ≤ millsecond))) },
        .silent)

/-- `waitForAllDone` after a wake-up: the predicate is tested again, and a timed wait whose
time is over returns what it says. -/
def wake (s : Threadpool) (thread : ℕ) (expired : Bool) : Threadpool × Report :=
  match s.waiters thread with
  | none => (s, .silent)
  | some timed =>
    let returned := { s with waiters := Function.update s.waiters thread none }
    if s.tasks.isEmpty then (returned, .done)
    else if timed && expired then (returned, .expired)
    else (s, .silent)

inductive Action where
  | run (w : ℕ) (now : ℤ)
  | waitForAllDone (thread : ℕ) (millsecond : ℤ)
  | wake (thread : ℕ) (expired : Bool)
  | stop
  deriving DecidableEq, Repr

def step (s : Threadpool) : Action → Threadpool × Report
  | .run w now => (s.run w now, .silent)
  | .waitForAllDone thread millsecond => s.waitForAllDone thread millsecond
  | .wake thread expired => s.wake thread expired
  | .stop => ({ s with bTerminate := true }, .silent)

end Threadpool

end ServerKit
