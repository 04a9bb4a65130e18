import ServerKit.DBPool.Model
import Mathlib.Data.List.Count
import Mathlib.Data.List.Nodup

/-! # Conservation of connections -/

namespace ServerKit.DBPool

open ServerKit.System

/-- Every connection ever opened is in one of the two lists, once. -/
def State.Conserved (s : State) : Prop :=
  ∀ c ∈ s.opened, s.pool.mFreeList.count c + s.pool.mUsedList.count c = 1

/-- The releases that keep the free list: it is empty, or its front is the released
connection, so that the assignment in the search changes nothing. -/
def State.KeepsFront (s : State) : Action → Prop
  | .relDBConn pConn =>
    s.pool.mFreeList = [] ∨ pConn ≠ 0 ∧ s.pool.mFreeList.head? = some pConn
  | _ => True

/-- A release conserves the connections, moves a used connection, and only it, to
the back of the free list, and does nothing to a free one. -/
structure State.Releases (s : State) (pConn : Conn) (s' : State) : Prop where
  conserved : s'.Conserved
  used : pConn ∈ s.pool.mUsedList →
    s'.pool.mUsedList = s.pool.mUsedList.erase pConn ∧
    s'.pool.mFreeList = s.pool.mFreeList ++ [pConn]
  free : pConn ∈ s.pool.mFreeList → s' = s

/-- The invariant of the runs: besides the conservation, no opened connection is `NULL`. -/
structure State.Inv (s : State) : Prop where
  conserved : s.Conserved
  nonnull : 0 ∉ s.opened

/-! ## The critical sections -/

/-- The pool after the part of `GetDBConn` that may open a connection. -/
def CDBPool.afterOpening (pool : CDBPool) (pDBConn : Conn) (ret : ℤ) : CDBPool :=
  if pool.opens ret then
    { pool with
      mFreeList := pool.mFreeList ++ [pDBConn]
      mDbCurConnCnt := pool.mDbCurConnCnt + 1 }
  else pool

/-- A call changes nothing and returns no connection, or takes the front of the free list. -/
inductive CDBPool.Serves (pool : CDBPool) : CDBPool → GetResult → Prop where
  | waits : pool.Serves pool .waits
  | null : pool.Serves pool (.returned none)
  | front {pConn : Conn} {rest : List Conn} (h : pool.mFreeList = pConn :: rest) :
      pool.Serves { pool with mFreeList := rest, mUsedList := pool.mUsedList ++ [pConn] }
        (.returned (some pConn))

theorem takeFront_serves {pool pool' : CDBPool} {result : GetResult}
    (h : pool.takeFront = some (pool', result)) : pool.Serves pool' result := by
  unfold CDBPool.takeFront at h
  split at h
  · cases h
  · rename_i pConn rest hfree
    cases h
    exact .front hfree

theorem getDBConn_serves {pool pool' : CDBPool} {pDBConn : Conn} {ret : ℤ} {result : GetResult}
    (h : pool.getDBConn pDBConn ret = some (pool', result)) :
    (pool.afterOpening pDBConn ret).Serves pool' result := by
  unfold CDBPool.getDBConn at h
  by_cases habort : pool.mAbortRequest
  · rw [if_pos habort] at h
    cases h
    simpa [CDBPool.afterOpening, CDBPool.opens, habort] using .null
  rw [if_neg habort] at h
  by_cases hempty : pool.mFreeList.isEmpty
  · rw [if_pos hempty] at h
    by_cases hmax : pool.mDbCurConnCnt ≥ pool.mDbMaxConnCnt
    · rw [if_pos hmax] at h
      cases h
      simpa [CDBPool.afterOpening, CDBPool.opens, Int.not_lt.mpr hmax] using .waits
    rw [if_neg hmax] at h
    by_cases hret : ret ≠ 0
    · rw [if_pos hret] at h
      cases h
      simpa [CDBPool.afterOpening, CDBPool.opens, hret] using .null
    · rw [if_neg hret] at h
      have hopens : pool.opens ret = true := by
        simp_all [CDBPool.opens]
      rw [CDBPool.afterOpening, if_pos hopens]
      exact takeFront_serves h
  · rw [if_neg hempty] at h
    simpa [CDBPool.afterOpening, CDBPool.opens, hempty] using takeFront_serves h

theorem getDBConnResume_serves {pool pool' : CDBPool} {timed expired : Bool} {result : GetResult}
    (h : pool.getDBConnResume timed expired = some (pool', result)) : pool.Serves pool' result := by
  unfold CDBPool.getDBConnResume at h
  split at h
  · split at h
    · cases h
      exact .null
    · cases h
      exact .waits
  · split at h
    · cases h
      exact .null
    · split at h
      · cases h
        exact .null
      · exact takeFront_serves h

/-- Taking the front moves one connection from the free to the used list. -/
theorem CDBPool.Serves.count {pool pool' : CDBPool} {result : GetResult}
    (h : pool.Serves pool' result) (c : Conn) :
    pool'.mFreeList.count c + pool'.mUsedList.count c =
      pool.mFreeList.count c + pool.mUsedList.count c := by
  cases h with
  | waits => rfl
  | null => rfl
  | front hfree =>
      rw [hfree]
      simp only [List.count_append, List.count_cons, List.count_nil]
      omega

/-- An opened connection is added, once, and all others are kept. -/
theorem afterOpening_count (pool : CDBPool) (pDBConn : Conn) (ret : ℤ) (c : Conn) :
    (pool.afterOpening pDBConn ret).mFreeList.count c +
        (pool.afterOpening pDBConn ret).mUsedList.count c =
      pool.mFreeList.count c + pool.mUsedList.count c +
        (if pool.opens ret then [pDBConn].count c else 0) := by
  unfold CDBPool.afterOpening
  split
  · simp only [List.count_append]
    omega
  · rfl

/-! ## The steps -/

theorem State.next_getDBConn {s s' : State} {thread : ℕ} {timeoutMs : ℤ} {pDBConn : Conn} {ret : ℤ}
    (h : s.next (.getDBConn thread timeoutMs pDBConn ret) = some s') :
    s.Fresh pDBConn ∧ ∃ result,
      s.pool.getDBConn pDBConn ret = some (s'.pool, result) ∧
      s'.opened = if s.pool.opens ret then s.opened ++ [pDBConn] else s.opened := by
  rw [State.next] at h
  split at h
  · cases h
  · rename_i hfresh
    rcases Option.bind_eq_some_iff.mp h with ⟨⟨pool, result⟩, hget, hs'⟩
    cases hs'
    exact ⟨not_not.mp (not_or.mp hfresh).2, result, hget, rfl⟩

theorem State.next_wake {s s' : State} {thread : ℕ} {expired : Bool}
    (h : s.next (.wake thread expired) = some s') :
    ∃ timeoutMs result, s.waiting thread = some timeoutMs ∧
      s.pool.getDBConnResume (decide (timeoutMs > 0)) expired = some (s'.pool, result) ∧
      s'.opened = s.opened := by
  rw [State.next] at h
  split at h
  · cases h
  · rename_i timeoutMs hwaiting
    rcases Option.bind_eq_some_iff.mp h with ⟨⟨pool, result⟩, hget, hs'⟩
    cases hs'
    exact ⟨timeoutMs, result, hwaiting, hget, rfl⟩

/-! ## Releases -/

theorem relDBConn_of_empty {pool : CDBPool} (pConn : Conn) (h : pool.mFreeList = []) :
    pool.relDBConn pConn =
      { pool with mFreeList := [pConn], mUsedList := pool.mUsedList.filter (· ≠ pConn) } := by
  simp [CDBPool.relDBConn, relLoop, h]

/-- On a nonempty free list a release overwrites the front and fails. -/
theorem relDBConn_of_cons {pool : CDBPool} {pConn it : Conn} {rest : List Conn}
    (hnull : pConn ≠ 0) (h : pool.mFreeList = it :: rest) :
    pool.relDBConn pConn = { pool with mFreeList := pConn :: rest } := by
  simp [CDBPool.relDBConn, relLoop, h, hnull]

/-- `std::list::remove` of a value that occurs at most once erases that occurrence. -/
theorem filter_ne_eq_erase {c : Conn} {l : List Conn} (h : l.count c ≤ 1) :
    l.filter (· ≠ c) = l.erase c := by
  induction l with
  | nil => rfl
  | cons a l ih =>
    by_cases hac : a = c
    · subst hac
      have hnot : a ∉ l := by
        rw [List.count_cons_self] at h
        exact List.count_eq_zero.mp (by omega)
      rw [List.erase_cons_head, List.filter_cons_of_neg (by simp), List.filter_eq_self]
      intro b hb
      simpa using fun hba : b = a => hnot (hba ▸ hb)
    · rw [List.count_cons_of_ne hac] at h
      rw [List.erase_cons_tail (by simpa using hac), List.filter_cons_of_pos (by simpa using hac),
        ih h]

/-- A release of the front of the free list changes nothing. -/
theorem relDBConn_of_front {pool : CDBPool} {pConn : Conn} (hnull : pConn ≠ 0)
    (h : pool.mFreeList.head? = some pConn) : pool.relDBConn pConn = pool := by
  obtain ⟨rest, hrest⟩ := List.head?_eq_some_iff.mp h
  rw [relDBConn_of_cons hnull hrest, ← hrest]

/-- An admitted release, of any pointer, conserves the connections. -/
theorem relDBConn_count {s : State} {pConn : Conn} (hs : s.Conserved)
    (hkeeps : s.KeepsFront (.relDBConn pConn)) {c : Conn} (hc : c ∈ s.opened) :
    (s.pool.relDBConn pConn).mFreeList.count c +
      (s.pool.relDBConn pConn).mUsedList.count c = 1 := by
  have hcount := hs c hc
  rcases hkeeps with hempty | ⟨hnull, hfront⟩
  · rw [hempty, List.count_nil, Nat.zero_add] at hcount
    rw [relDBConn_of_empty pConn hempty]
    by_cases hcp : c = pConn
    · subst hcp
      simp [List.count_eq_zero]
    · rw [List.count_filter (by simpa using hcp), hcount]
      simp [Ne.symm hcp]
  · rw [relDBConn_of_front hnull hfront]
    exact hcount

/-- A release that is meant to work and does keeps the front of the free list. -/
theorem keepsFront_of_releases {s s' : State} {pConn : Conn} (hs : s.Inv)
    (hopened : pConn ∈ s.opened) (h : s.Releases pConn s')
    (hnext : s.next (.relDBConn pConn) = some s') : s.KeepsFront (.relDBConn pConn) := by
  cases hnext
  cases hfree : s.pool.mFreeList with
  | nil => exact .inl hfree
  | cons it rest =>
    have hnull : pConn ≠ 0 := fun h0 => hs.nonnull (h0 ▸ hopened)
    have hcount := hs.conserved pConn hopened
    have hrel := relDBConn_of_cons hnull hfree
    refine .inr ⟨hnull, ?_⟩
    by_cases hmem : pConn ∈ s.pool.mFreeList
    · -- a free connection: the list is unchanged, its front included
      have hsame := congrArg (fun s => s.pool.mFreeList) (h.free hmem)
      simp only [hrel, hfree, List.cons.injEq, and_true] at hsame
      rw [hfree, hsame, List.head?_cons]
    · -- a used connection: the list would have to be longer by one
      have hused : pConn ∈ s.pool.mUsedList := by
        rw [List.count_eq_zero.mpr hmem] at hcount
        exact List.count_pos_iff.mp (by omega)
      have hlonger := congrArg List.length (h.used hused).2
      simp [hrel, hfree] at hlonger

theorem releases_of_keepsFront {s s' : State} {pConn : Conn} (hs : s.Inv)
    (hopened : pConn ∈ s.opened) (hkeeps : s.KeepsFront (.relDBConn pConn))
    (hnext : s.next (.relDBConn pConn) = some s') : s.Releases pConn s' := by
  cases hnext
  have hcount := hs.conserved pConn hopened
  have hconserved : State.Conserved { s with pool := s.pool.relDBConn pConn } :=
    fun c hc => relDBConn_count hs.conserved hkeeps hc
  rcases hkeeps with hempty | ⟨hnull, hfront⟩
  · rw [hempty, List.count_nil, Nat.zero_add] at hcount
    refine ⟨hconserved, fun _ => ?_, fun hfree => ?_⟩
    · rw [relDBConn_of_empty pConn hempty, hempty]
      exact ⟨filter_ne_eq_erase (by omega), rfl⟩
    · rw [hempty] at hfree
      cases hfree
  · have hfree := List.count_pos_iff.mpr (List.mem_of_head? hfront)
    refine ⟨hconserved, fun hused => ?_, fun _ => ?_⟩
    · have hused := List.count_pos_iff.mpr hused
      omega
    · rw [relDBConn_of_front hnull hfront]

/-! ## Every run -/

/-- A successful `init` has put its connections into the free list. -/
theorem initLoop_of_success {pool pool' : CDBPool} {answers : List (Conn × ℤ)}
    (h : pool.initLoop answers = (pool', 0)) :
    pool' = { pool with mFreeList := pool.mFreeList ++ answers.map Prod.fst } := by
  induction answers generalizing pool with
  | nil =>
    cases h
    simp
  | cons answer rest ih =>
    obtain ⟨pDBConn, ret⟩ := answer
    rw [CDBPool.initLoop] at h
    split at h
    · rename_i hret
      exact absurd (congrArg Prod.snd h) hret
    · rw [ih h]
      simp

theorem State.Inv.start {s : State} (h : s.Start) : s.Inv := by
  obtain ⟨maxConnCnt, answers, -, hnodup, hnull, hinit, hopened, -⟩ := h
  refine ⟨fun c hc => ?_, hopened ▸ hnull⟩
  rw [initLoop_of_success hinit]
  simpa [CDBPool.construct] using List.count_eq_one_of_mem hnodup (hopened ▸ hc)

theorem State.Inv.step {s s' : State} {action : Action} (hs : s.Inv)
    (hkeeps : s.KeepsFront action) (hnext : s.next action = some s') : s'.Inv := by
  cases action with
  | getDBConn thread timeoutMs pDBConn ret =>
    rcases State.next_getDBConn hnext with ⟨⟨hnull, hopened, hfree, hused⟩, result, hget, hopened'⟩
    have hcount : ∀ c, s'.pool.mFreeList.count c + s'.pool.mUsedList.count c =
        s.pool.mFreeList.count c + s.pool.mUsedList.count c +
          (if s.pool.opens ret then [pDBConn].count c else 0) := fun c =>
      ((getDBConn_serves hget).count c).trans (afterOpening_count s.pool pDBConn ret c)
    by_cases hopens : s.pool.opens ret
    · rw [if_pos hopens] at hopened'
      refine ⟨fun c hc => ?_, ?_⟩
      · rw [hcount c, if_pos hopens]
        rw [hopened', List.mem_append, List.mem_singleton] at hc
        rcases hc with hc | rfl
        · have hne : pDBConn ≠ c := fun h => hopened (h ▸ hc)
          rw [hs.conserved c hc, List.count_cons_of_ne hne, List.count_nil]
        · rw [List.count_eq_zero.mpr hfree, List.count_eq_zero.mpr hused, List.count_singleton_self]
      · simp [hopened', hs.nonnull, Ne.symm hnull]
    · rw [if_neg hopens] at hopened'
      refine ⟨fun c hc => ?_, ?_⟩
      · rw [hcount c, if_neg hopens, Nat.add_zero]
        exact hs.conserved c (hopened' ▸ hc)
      · exact hopened' ▸ hs.nonnull
  | wake thread expired =>
    rcases State.next_wake hnext with ⟨timeoutMs, result, -, hget, hopened'⟩
    refine ⟨fun c hc => ?_, hopened' ▸ hs.nonnull⟩
    exact ((getDBConnResume_serves hget).count c).trans (hs.conserved c (hopened' ▸ hc))
  | relDBConn pConn =>
    cases hnext
    exact ⟨fun c hc => relDBConn_count hs.conserved hkeeps hc, hs.nonnull⟩

/-- **Conservation.** As long as every release keeps the front of the free list, no
connection is lost or duplicated; and a release of an opened connection does what it is
meant to do in such a state exactly when it keeps the front, too. -/
theorem run_conserves {s : State} (h : Reachable State.next State.Start State.KeepsFront s) :
    s.Conserved ∧ ∀ pConn ∈ s.opened, ∀ s', s.next (.relDBConn pConn) = some s' →
      (s.Releases pConn s' ↔ s.KeepsFront (.relDBConn pConn)) := by
  have hs : s.Inv := h.invariant (fun _ => .start) fun _ _ _ hs hkeeps hnext =>
    hs.step hkeeps hnext
  exact ⟨hs.conserved, fun pConn hopened s' hnext =>
    ⟨fun hrel => keepsFront_of_releases hs hopened hrel hnext,
      fun hkeeps => releases_of_keepsFront hs hopened hkeeps hnext⟩⟩

/-- The pool for at most two connections after `init` has opened the connection 10. -/
def twoConns : State := ⟨⟨1, 2, [10], [], false⟩, [10], fun _ => none⟩

theorem start_twoConns : twoConns.Start :=
  ⟨2, [(10, 0)], rfl, by decide, by decide, rfl, rfl, rfl⟩

/-- One connection is taken and put back. -/
theorem run_conserves_twoConns :
    ∃ s, (twoConns.next (.getDBConn 0 0 11 0)).bind (State.next · (.relDBConn 10)) = some s ∧
      s.Conserved :=
  ⟨twoConns, rfl, (run_conserves (.step (i := .relDBConn 10)
    (.step (i := .getDBConn 0 0 11 0) (.start start_twoConns) trivial rfl) (Or.inl rfl) rfl)).1⟩

/-- Two connections are taken and put back: the second release overwrites the first
connection in the free list, and leaves its own in the used list. -/
theorem release_loses_connection :
    ∃ s, Reachable State.next State.Start anyStep s ∧ 10 ∈ s.opened ∧
      s.pool.mFreeList = [11] ∧ s.pool.mUsedList = [11] ∧ ¬ s.Conserved := by
  have hrun : exec State.next twoConns
      [.getDBConn 0 0 11 0, .getDBConn 1 0 11 0, .relDBConn 10, .relDBConn 11] =
        some ⟨⟨2, 2, [11], [11], false⟩, [10, 11], fun _ => none⟩ := rfl
  refine ⟨_, reachable_of_exec start_twoConns (admits_anyStep _ _) hrun, by simp, rfl, rfl,
    fun h => ?_⟩
  have := h 10 (by simp)
  simp at this

end ServerKit.DBPool
