import ServerKit.DBPool.Conservation
import ServerKit.Lib.Holders
import Mathlib.Data.Int.Order.Basic

/-! # Exclusive use of the connections

The clients of the pool, each on a thread of its own, with the connections they hold. -/

namespace ServerKit.DBPool

open ServerKit.System ServerKit.Holders

structure Clients extends State where
  held : ℕ → List Conn

inductive Request where
  | getDBConn (client : ℕ) (timeoutMs : ℤ) (pDBConn : Conn) (ret : ℤ)
  | wake (client : ℕ) (expired : Bool)
  | relDBConn (client : ℕ) (pConn : Conn)

/-- A client holds what `GetDBConn` returns to it. -/
def receive (held : ℕ → List Conn) (client : ℕ) : GetResult → ℕ → List Conn
  | .returned (some pConn) => Function.update held client (held client ++ [pConn])
  | .returned none => held
  | .waits => held

/-- A client releases only connections it holds; it does not hold them any longer. -/
def Clients.next (s : Clients) : Request → Option Clients
  | .getDBConn client timeoutMs pDBConn ret => do
    let state ← s.toState.next (.getDBConn client timeoutMs pDBConn ret)
    let (_, result) ← s.pool.getDBConn pDBConn ret
    return ⟨state, receive s.held client result⟩
  | .wake client expired => do
    let state ← s.toState.next (.wake client expired)
    let timeoutMs ← s.waiting client
    let (_, result) ← s.pool.getDBConnResume (decide (timeoutMs > 0)) expired
    return ⟨state, receive s.held client result⟩
  | .relDBConn client pConn =>
    if pConn ∈ s.held client then do
      let state ← s.toState.next (.relDBConn pConn)
      return ⟨state, Function.update s.held client ((s.held client).erase pConn)⟩
    else none

def Clients.Start (s : Clients) : Prop := s.toState.Start ∧ s.held = fun _ => []

/-- `GetDBConn` never evaluates `front()` of an empty free list, neither on its way in nor
after a wait. -/
def CDBPool.FrontSafe (pool : CDBPool) : Prop :=
  (∀ pDBConn ret, pool.getDBConn pDBConn ret ≠ none) ∧
  ∀ timed expired, pool.getDBConnResume timed expired ≠ none

/-- The free list and the clients' connections are apart, all of them have been opened,
and `m_db_cur_conn_cnt` counts what has been opened. -/
structure Accounted (pool : CDBPool) (opened : List Conn) (held : ℕ → List Conn) : Prop where
  exclusive : Exclusive pool.mFreeList held
  free_opened : ∀ c ∈ pool.mFreeList, c ∈ opened
  held_opened : ∀ client, ∀ c ∈ held client, c ∈ opened
  nonnull : 0 ∉ opened
  counted : (opened.length : ℤ) = pool.mDbCurConnCnt
  bounded : pool.mDbCurConnCnt ≤ max MIN_DB_CONN_CNT pool.mDbMaxConnCnt

/-! ## `front()` -/

theorem takeFront_ne_none {pool : CDBPool} (h : pool.mFreeList ≠ []) : pool.takeFront ≠ none := by
  unfold CDBPool.takeFront
  split
  · contradiction
  · simp

/-- The tests around the two waits keep every path to `front()` off the empty list. -/
theorem CDBPool.frontSafe (pool : CDBPool) : pool.FrontSafe := by
  constructor
  · intro pDBConn ret
    unfold CDBPool.getDBConn
    split
    · simp
    · split
      · split
        · simp
        · split
          · simp
          · exact takeFront_ne_none (by simp)
      · rename_i hempty
        exact takeFront_ne_none (by simpa using hempty)
  · intro timed expired
    unfold CDBPool.getDBConnResume
    split
    · split
      · simp
      · simp
    · rename_i hpredicate
      split
      · simp
      · split
        · simp
        · rename_i habort
          -- the predicate of the wait holds, and not because of the abort request
          apply takeFront_ne_none
          intro hfree
          simp [hfree, habort] at hpredicate

/-! ## Every run -/

theorem Accounted.opening {s : Clients} {pDBConn : Conn} (hs : Accounted s.pool s.opened s.held)
    (hfresh : s.Fresh pDBConn) (ret : ℤ) :
    Accounted (s.pool.afterOpening pDBConn ret)
      (if s.pool.opens ret then s.opened ++ [pDBConn] else s.opened) s.held := by
  rcases hfresh with ⟨hnull, hopened, hfree, -⟩
  by_cases hopens : s.pool.opens ret
  · have habsent : Absent s.pool.mFreeList s.held pDBConn :=
      ⟨hfree, fun client hheld => hopened (hs.held_opened client pDBConn hheld)⟩
    have hmax : s.pool.mDbCurConnCnt < s.pool.mDbMaxConnCnt := by
      simp only [CDBPool.opens, Bool.and_eq_true, decide_eq_true_eq] at hopens
      exact hopens.1.2
    rw [CDBPool.afterOpening, if_pos hopens, if_pos hopens]
    refine ⟨?_, ?_, ?_, ?_, ?_, ?_⟩
    · exact (hs.exclusive.add habsent).perm (List.perm_append_singleton _ _).symm
    · intro c hc
      rcases List.mem_append.mp hc with hc | hc
      · exact List.mem_append_left _ (hs.free_opened c hc)
      · exact List.mem_append_right _ hc
    · intro client c hc
      exact List.mem_append_left _ (hs.held_opened client c hc)
    · simp [hs.nonnull, Ne.symm hnull]
    · have hcounted := hs.counted
      simp only [List.length_append, List.length_singleton]
      omega
    · have hle := le_max_right MIN_DB_CONN_CNT s.pool.mDbMaxConnCnt
      dsimp only
      omega
  · rw [CDBPool.afterOpening, if_neg hopens, if_neg hopens]
    exact hs

theorem Accounted.serves {pool pool' : CDBPool} {opened : List Conn} {held : ℕ → List Conn}
    {result : GetResult} (hs : Accounted pool opened held) (h : pool.Serves pool' result)
    (client : ℕ) : Accounted pool' opened (receive held client result) := by
  cases h with
  | waits => exact hs
  | null => exact hs
  | @front pConn rest hfree =>
      have hopened : ∀ c ∈ pConn :: rest, c ∈ opened := by
        rw [← hfree]
        exact hs.free_opened
      refine ⟨?_, ?_, ?_, hs.nonnull, hs.counted, hs.bounded⟩
      · have hexclusive := hs.exclusive
        rw [hfree] at hexclusive
        exact hexclusive.take client
      · intro c hc
        exact hopened c (List.mem_cons_of_mem _ hc)
      · intro other c hc
        rcases mem_update.mp hc with ⟨rfl, hc⟩ | ⟨-, hc⟩
        · rcases List.mem_append.mp hc with hc | hc
          · exact hs.held_opened other c hc
          · rw [List.mem_singleton.mp hc]
            exact hopened pConn List.mem_cons_self
        · exact hs.held_opened other c hc

/-- The released connection is the new front, in the place of a lost one, or the only free
connection. -/
theorem relDBConn_free (pool : CDBPool) {pConn : Conn} (hnull : pConn ≠ 0) :
    (pool.relDBConn pConn).mFreeList = pConn :: pool.mFreeList.tail := by
  cases hfree : pool.mFreeList with
  | nil => rw [relDBConn_of_empty pConn hfree, List.tail_nil]
  | cons it rest => rw [relDBConn_of_cons hnull hfree, List.tail_cons]

theorem relDBConn_counters (pool : CDBPool) (pConn : Conn) :
    (pool.relDBConn pConn).mDbCurConnCnt = pool.mDbCurConnCnt ∧
    (pool.relDBConn pConn).mDbMaxConnCnt = pool.mDbMaxConnCnt := by
  unfold CDBPool.relDBConn
  by_cases hfound : (relLoop pConn pool.mFreeList).2
  · simp [hfound]
  · simp [hfound]

theorem Accounted.releases {pool : CDBPool} {opened : List Conn} {held : ℕ → List Conn}
    {client : ℕ} {pConn : Conn} (hs : Accounted pool opened held) (hheld : pConn ∈ held client) :
    Accounted (pool.relDBConn pConn) opened
      (Function.update held client ((held client).erase pConn)) := by
  have hopened := hs.held_opened client pConn hheld
  have hnull : pConn ≠ 0 := by
    intro h0
    exact hs.nonnull (h0 ▸ hopened)
  have hfree := relDBConn_free pool hnull
  rcases relDBConn_counters pool pConn with ⟨hcur, hmax⟩
  refine ⟨?_, ?_, ?_, hs.nonnull, ?_, ?_⟩
  · have hgone := hs.exclusive.absent_letGo hheld
    rw [hfree]
    exact ((hs.exclusive.letGo client pConn).sublist (List.tail_sublist _)).add
      ⟨fun hmem => hgone.notFree (List.mem_of_mem_tail hmem), hgone.notHeld⟩
  · intro c hc
    rw [hfree] at hc
    rcases List.mem_cons.mp hc with rfl | hc
    · exact hopened
    · exact hs.free_opened c (List.mem_of_mem_tail hc)
  · intro other c hc
    exact hs.held_opened other c (mem_of_mem_update_erase hc)
  · rw [hcur]
    exact hs.counted
  · rw [hcur, hmax]
    exact hs.bounded

theorem Accounted.start {s : Clients} (h : s.Start) : Accounted s.pool s.opened s.held := by
  rcases h with ⟨⟨maxConnCnt, answers, hlength, hnodup, hnull, hinit, hopened, -⟩, hheld⟩
  rw [initLoop_of_success hinit, hheld, hopened]
  refine ⟨.start hnodup, fun c hc => hc, ?_, hnull, ?_, le_max_left _ _⟩
  · intro client c hc
    cases hc
  · rw [List.length_map, hlength]
    rfl

theorem Accounted.step {s s' : Clients} {request : Request}
    (hs : Accounted s.pool s.opened s.held) (hnext : s.next request = some s') :
    Accounted s'.pool s'.opened s'.held := by
  cases request with
  | getDBConn client timeoutMs pDBConn ret =>
      rcases Option.bind_eq_some_iff.mp hnext with ⟨state, hstate, hrest⟩
      rcases Option.bind_eq_some_iff.mp hrest with ⟨⟨pool, result⟩, hget, hs'⟩
      rcases State.next_getDBConn hstate with ⟨hfresh, result', hget', hopened⟩
      cases hget.symm.trans hget'
      cases hs'
      have hserves := (hs.opening hfresh ret).serves (getDBConn_serves hget) client
      rw [← hopened] at hserves
      exact hserves
  | wake client expired =>
      rcases Option.bind_eq_some_iff.mp hnext with ⟨state, hstate, hrest⟩
      rcases Option.bind_eq_some_iff.mp hrest with ⟨timeoutMs, hwaiting, hrest⟩
      rcases Option.bind_eq_some_iff.mp hrest with ⟨⟨pool, result⟩, hget, hs'⟩
      rcases State.next_wake hstate with ⟨timeoutMs', result', hwaiting', hget', hopened⟩
      cases hwaiting.symm.trans hwaiting'
      cases hget.symm.trans hget'
      cases hs'
      have hserves := hs.serves (getDBConnResume_serves hget) client
      rw [← hopened] at hserves
      exact hserves
  | relDBConn client pConn =>
      rw [Clients.next] at hnext
      split at hnext
      · rename_i hheld
        cases hnext
        exact hs.releases hheld
      · cases hnext

/-- **Exclusive use.** However the calls, waits and releases of the clients interleave, a
connection is held by one client at most and is not free at the same time, no more than
`max(1, m_db_max_conn_cnt)` connections are opened, and every call has a front to take. -/
theorem exclusive_use {s : Clients} (h : Reachable Clients.next Clients.Start anyStep s) :
    Exclusive s.pool.mFreeList s.held ∧
    (s.opened.length : ℤ) ≤ max 1 s.pool.mDbMaxConnCnt ∧ s.pool.FrontSafe := by
  have hs : Accounted s.pool s.opened s.held := by
    refine h.invariant (P := fun s => Accounted s.pool s.opened s.held) ?_ ?_
    · intro s hstart
      exact .start hstart
    · intro s s' request hs _ hnext
      exact hs.step hnext
  refine ⟨hs.exclusive, ?_, s.pool.frontSafe⟩
  rw [hs.counted]
  exact hs.bounded

/-- Two clients take the two connections, a third one waits. The second release loses the
first connection, and the third client, woken, gets the other one. -/
def threeClients : List Request :=
  [.getDBConn 0 0 11 0, .getDBConn 1 0 11 0, .getDBConn 2 50 12 0, .wake 2 false,
    .relDBConn 0 10, .relDBConn 1 11, .wake 2 false]

theorem exclusive_use_threeClients :
    ∃ s, exec Clients.next ⟨twoConns, fun _ => []⟩ threeClients = some s ∧
      s.held 2 = [11] ∧ Exclusive s.pool.mFreeList s.held := by
  have hstart : Clients.Start ⟨twoConns, fun _ => []⟩ := ⟨start_twoConns, rfl⟩
  refine ⟨_, rfl, rfl, ?_⟩
  exact (exclusive_use (reachable_of_exec hstart (admits_anyStep _ threeClients) rfl)).1

end ServerKit.DBPool
