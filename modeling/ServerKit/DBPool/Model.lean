import ServerKit.Lib.System
import Mathlib.Data.Int.Notation
import Mathlib.Logic.Function.Basic

/-! # The connection pool of `DBPool.cpp`

A `CDBConn*` is its address. Every critical section under `m_mutex` is one step;
`new` and the connection to the server are answered by the environment. -/

namespace ServerKit.DBPool

/-- A `CDBConn*`. -/
abbrev Conn := ℕ

def MIN_DB_CONN_CNT : ℤ := 1

structure CDBPool where
  mDbCurConnCnt : ℤ
  mDbMaxConnCnt : ℤ
  mFreeList : List Conn
  mUsedList : List Conn
  mAbortRequest : Bool
  deriving DecidableEq, Repr

/-- The constructor. -/
def CDBPool.construct (maxConnCnt : ℤ) : CDBPool :=
  ⟨MIN_DB_CONN_CNT, maxConnCnt, [], [], false⟩

/-- The loop of `CDBPool::init`: one new connection and the result of its `init` for
every iteration. A failed connection ends the loop with its error. -/
def CDBPool.initLoop (pool : CDBPool) : List (Conn × ℤ) → CDBPool × ℤ
  | [] => (pool, 0)
  | (pDBConn, ret) :: rest =>
    if ret ≠ 0 then (pool, ret)
    else { pool with mFreeList := pool.mFreeList ++ [pDBConn] }.initLoop rest

/-- Where a call of `GetDBConn` leaves its thread: waiting on `m_cond_var`, or
returned with a connection or `NULL`. -/
inductive GetResult where
  | waits
  | returned (conn : Option Conn)
  deriving DecidableEq, Repr

/-- The end of `GetDBConn`. `front()` of an empty list has no result. -/
def CDBPool.takeFront (pool : CDBPool) : Option (CDBPool × GetResult) :=
  match pool.mFreeList with
  | [] => none
  | pConn :: rest =>
    some ({ pool with mFreeList := rest, mUsedList := pool.mUsedList ++ [pConn] },
      .returned (some pConn))

/-- `GetDBConn` from its start to its return or its first wait; `pDBConn` and `ret` are
the connection it opens and the result of its `init`, if it gets there. -/
def CDBPool.getDBConn (pool : CDBPool) (pDBConn : Conn) (ret : ℤ) :
    Option (CDBPool × GetResult) :=
  if pool.mAbortRequest then some (pool, .returned none)
  else if pool.mFreeList.isEmpty then
    if pool.mDbCurConnCnt ≥ pool.mDbMaxConnCnt then some (pool, .waits)
    else if ret ≠ 0 then some (pool, .returned none)
    else
      { pool with
        mFreeList := pool.mFreeList ++ [pDBConn]
        mDbCurConnCnt := pool.mDbCurConnCnt + 1 }.takeFront
  else pool.takeFront

/-- `GetDBConn` after its thread has been woken: `timed` for `wait_for`, `expired` when
its time is over. The wait goes on while its predicate is false. -/
def CDBPool.getDBConnResume (pool : CDBPool) (timed expired : Bool) :
    Option (CDBPool × GetResult) :=
  if pool.mFreeList.isEmpty && !pool.mAbortRequest then
    if timed && expired then some (pool, .returned none) else some (pool, .waits)
  else if timed && pool.mFreeList.isEmpty then some (pool, .returned none)
  else if pool.mAbortRequest then some (pool, .returned none)
  else pool.takeFront

/-- The search of `RelDBConn`. Its condition is the assignment `*it = pConn`: it
overwrites the connection it looks at, and holds for every pointer but `NULL`. -/
def relLoop (pConn : Conn) : List Conn → List Conn × Bool
  | [] => ([], false)
  | _ :: rest =>
    if pConn ≠ 0 then (pConn :: rest, true)
    else (pConn :: (relLoop pConn rest).1, (relLoop pConn rest).2)

def CDBPool.relDBConn (pool : CDBPool) (pConn : Conn) : CDBPool :=
  let (free, found) := relLoop pConn pool.mFreeList
  if found then { pool with mFreeList := free }
  else
    { pool with
      mFreeList := free ++ [pConn]
      mUsedList := pool.mUsedList.filter (· ≠ pConn) }

/-! ## The threads around a pool -/

/-- The pool, the connections opened so far, and the threads that wait in
`GetDBConn` with their timeouts. -/
structure State where
  pool : CDBPool
  opened : List Conn
  waiting : ℕ → Option ℤ

inductive Action where
  | getDBConn (thread : ℕ) (timeoutMs : ℤ) (pDBConn : Conn) (ret : ℤ)
  | wake (thread : ℕ) (expired : Bool)
  | relDBConn (pConn : Conn)

/-- A pointer that `new` may return: not `NULL`, and not an address already in use. -/
def State.Fresh (s : State) (pDBConn : Conn) : Prop :=
  pDBConn ≠ 0 ∧ pDBConn ∉ s.opened ∧ pDBConn ∉ s.pool.mFreeList ∧ pDBConn ∉ s.pool.mUsedList

instance (s : State) (pDBConn : Conn) : Decidable (s.Fresh pDBConn) :=
  inferInstanceAs (Decidable (_ ∧ _ ∧ _ ∧ _))

/-- Whether a call of `GetDBConn` gets to open a connection and succeeds. -/
def CDBPool.opens (pool : CDBPool) (ret : ℤ) : Bool :=
  !pool.mAbortRequest && pool.mFreeList.isEmpty &&
    decide (pool.mDbCurConnCnt < pool.mDbMaxConnCnt) && ret == 0

def State.next (s : State) : Action → Option State
  | .getDBConn thread timeoutMs pDBConn ret =>
    if (s.waiting thread).isSome ∨ ¬ s.Fresh pDBConn then none
    else do
      let (pool, result) ← s.pool.getDBConn pDBConn ret
      return {
        pool := pool
        opened := if s.pool.opens ret then s.opened ++ [pDBConn] else s.opened
        waiting := if result = .waits then Function.update s.waiting thread (some timeoutMs)
          else s.waiting }
  | .wake thread expired =>
    match s.waiting thread with
    | none => none
    | some timeoutMs => do
      let (pool, result) ← s.pool.getDBConnResume (decide (timeoutMs > 0)) expired
      return {
        s with
        pool := pool
        waiting := if result = .waits then s.waiting
          else Function.update s.waiting thread none }
  | .relDBConn pConn => some { s with pool := s.pool.relDBConn pConn }

/-- The state after a successful `init`; `answers` are the connections it opened. -/
def State.Start (s : State) : Prop :=
  ∃ maxConnCnt answers,
    answers.length = (CDBPool.construct maxConnCnt).mDbCurConnCnt.toNat ∧
    (answers.map Prod.fst).Nodup ∧ 0 ∉ answers.map Prod.fst ∧
    (CDBPool.construct maxConnCnt).initLoop answers = (s.pool, 0) ∧
    s.opened = answers.map Prod.fst ∧ s.waiting = fun _ => none

end ServerKit.DBPool
