import ServerKit.Threadpool.Completion

/-! # Order and end of the tasks

The queue is emptied from its front, whatever workers take its tasks. After `stop` no task is
taken any more, those in hand come to their end, and the workers leave `run`. -/

namespace ServerKit.Threadpool

open List

/-- The tasks come out of the queue in the order in which they are in it. -/
def InOrder (tasks : List TaskFunc) (s : Threadpool) : Prop := s.taken ++ s.tasks = tasks

theorem InOrder.get {tasks : List TaskFunc} {s : Threadpool} (h : s.InOrder tasks) (w : ℕ) :
    (s.get w).InOrder tasks := by
  unfold Threadpool.get
  split
  · exact h
  · split
    · exact h
    · split
      · exact h
      · rename_i task rest htasks
        show s.taken ++ [task] ++ rest = tasks
        rw [append_assoc, singleton_append, ← htasks]
        exact h

theorem InOrder.run {tasks : List TaskFunc} {s : Threadpool} (h : s.InOrder tasks) (w : ℕ)
    (now : ℤ) : (s.run w now).InOrder tasks := by
  unfold Threadpool.run
  split
  case h_3 => exact h.get w
  case h_4 => exact h.get w
  case h_6 => split <;> exact h
  all_goals exact h

theorem InOrder.step {tasks : List TaskFunc} {s : Threadpool} (h : s.InOrder tasks)
    (action : Action) : (s.step action).1.InOrder tasks := by
  rcases s.step_cases action with ⟨w, now, rfl⟩ | ⟨bTerminate, waiters, hstep⟩
  · exact h.run w now
  · rw [hstep]
    exact h

/-- What every step keeps holds behind a run. -/
theorem after_invariant {P : Threadpool → Prop} (hstep : ∀ s action, P s → P (s.step action).1)
    {s : Threadpool} (h : P s) (actions : List Action) : P (s.after actions) := by
  induction actions generalizing s with
  | nil => exact h
  | cons action actions ih => exact ih (hstep s action h)

/-! ## After `stop` -/

/-- The steps that a worker still makes after `stop`. -/
def Phase.rank : Phase → ℕ
  | .exited => 0
  | .loop => 1
  | .get | .waiting | .uncounted => 2
  | .ended => 3
  | .running _ => 4
  | .counted _ => 5
  | .taken _ => 6

/-- The pool is stopped, and has taken these tasks and left those. -/
structure Stopped (taken tasks : List TaskFunc) (s : Threadpool) : Prop where
  bTerminate : s.bTerminate = true
  taken : s.taken = taken
  tasks : s.tasks = tasks

/-- A step of a worker after `stop`: it leaves the queue alone and moves this worker on. -/
theorem run_of_bTerminate {s : Threadpool} (h : s.bTerminate = true) {w : ℕ} {phase : Phase}
    (hw : s.workers[w]? = some phase) (now : ℤ) :
    ∃ phase', (s.run w now).workers = s.workers.set w phase' ∧
      phase'.rank ≤ phase.rank - 1 ∧ (s.run w now).bTerminate = true ∧
      (s.run w now).taken = s.taken ∧ (s.run w now).tasks = s.tasks := by
  have hget : s.get w = s.setPhase w .loop := by
    simp [Threadpool.get, h]
  cases phase with
  | loop =>
      rw [run, hw]
      simp only [h, if_true]
      exact ⟨.exited, rfl, Nat.zero_le _, h, rfl, rfl⟩
  | get =>
      rw [run, hw]
      simp only [hget]
      exact ⟨.loop, rfl, le_rfl, h, rfl, rfl⟩
  | waiting =>
      rw [run, hw]
      simp only [hget]
      exact ⟨.loop, rfl, le_rfl, h, rfl, rfl⟩
  | taken task =>
      rw [run, hw]
      exact ⟨.counted task, rfl, le_rfl, h, rfl, rfl⟩
  | counted task =>
      rw [run, hw]
      by_cases hlate : task.expireTime ≠ 0 ∧ task.expireTime < now
      · simp only [if_pos hlate]
        exact ⟨.ended, rfl, Nat.le_succ 3, h, rfl, rfl⟩
      · simp only [if_neg hlate]
        exact ⟨.running task, rfl, le_rfl, h, rfl, rfl⟩
  | running task =>
      rw [run, hw]
      exact ⟨.ended, rfl, le_rfl, h, rfl, rfl⟩
  | ended =>
      rw [run, hw]
      exact ⟨.uncounted, rfl, le_rfl, h, rfl, rfl⟩
  | uncounted =>
      rw [run, hw]
      exact ⟨.loop, rfl, le_rfl, h, rfl, rfl⟩
  | exited =>
      obtain ⟨hlt, hphase⟩ := List.getElem?_eq_some_iff.mp hw
      have hsame : s.workers.set w .exited = s.workers := by
        rw [← hphase, List.set_getElem_self]
      rw [run, hw]
      exact ⟨.exited, hsame.symm, Nat.zero_le _, h, rfl, rfl⟩

/-- The action is a step of this worker. -/
def Action.isTurn (w : ℕ) : Action → Bool
  | .run v _ => v == w
  | .waitForAllDone _ _ | .wake _ _ | .stop => false

variable {taken tasks : List TaskFunc} {s : Threadpool}

theorem Stopped.step (h : s.Stopped taken tasks) (action : Action) :
    (s.step action).1.Stopped taken tasks := by
  cases action with
  | run v now =>
      show (s.run v now).Stopped taken tasks
      cases hv : s.workers[v]? with
      | none =>
          rw [run, hv]
          exact h
      | some phase =>
          obtain ⟨_, -, -, hterm, htaken, htasks⟩ := run_of_bTerminate h.bTerminate hv now
          exact ⟨hterm, htaken.trans h.taken, htasks.trans h.tasks⟩
  | waitForAllDone thread millsecond =>
      simp only [Threadpool.step, waitForAllDone]
      split
      · exact h
      · split <;> exact ⟨h.bTerminate, h.taken, h.tasks⟩
  | wake thread expired =>
      simp only [Threadpool.step, wake]
      split
      · exact h
      · split
        · exact ⟨h.bTerminate, h.taken, h.tasks⟩
        · split <;> exact ⟨h.bTerminate, h.taken, h.tasks⟩
  | stop => exact ⟨rfl, h.taken, h.tasks⟩

/-- After `stop` a worker comes nearer to its end with each step of its own. -/
theorem Stopped.step_rank (h : s.Stopped taken tasks) (action : Action) {w : ℕ} {phase : Phase}
    (hw : s.workers[w]? = some phase) :
    ∃ phase', (s.step action).1.workers[w]? = some phase' ∧
      phase'.rank ≤ phase.rank - if action.isTurn w then 1 else 0 := by
  have hother : ∀ action : Action, (∀ v now, action ≠ .run v now) →
      (s.step action).1.workers[w]? = some phase := by
    intro action hno
    rcases s.step_cases action with ⟨v, now, rfl⟩ | ⟨bTerminate, waiters, hstep⟩
    · exact absurd rfl (hno v now)
    · rw [hstep]
      exact hw
  cases action with
  | run v now =>
      show ∃ phase', (s.run v now).workers[w]? = some phase' ∧ _
      by_cases hvw : v = w
      · subst hvw
        obtain ⟨phase', hworkers, hrank, -⟩ := run_of_bTerminate h.bTerminate hw now
        refine ⟨phase', ?_, ?_⟩
        · rw [hworkers, List.getElem?_set_self (List.getElem?_eq_some_iff.mp hw).1]
        · rwa [Action.isTurn, beq_self_eq_true, if_pos rfl]
      · refine ⟨phase, ?_, ?_⟩
        · cases hv : s.workers[v]? with
          | none =>
              rw [run, hv]
              exact hw
          | some other =>
              obtain ⟨_, hworkers, -⟩ := run_of_bTerminate h.bTerminate hv now
              rw [hworkers, List.getElem?_set_ne hvw, hw]
        · rw [Action.isTurn, beq_false_of_ne hvw, if_neg Bool.false_ne_true, Nat.sub_zero]
  | waitForAllDone thread millsecond => exact ⟨phase, hother _ (by simp), le_rfl⟩
  | wake thread expired => exact ⟨phase, hother _ (by simp), le_rfl⟩
  | stop => exact ⟨phase, hother _ (by simp), le_rfl⟩

/-- The steps left to a worker, after a run behind `stop`. -/
theorem Stopped.after_rank (h : s.Stopped taken tasks) (actions : List Action) {w : ℕ}
    {phase : Phase} (hw : s.workers[w]? = some phase) :
    ∃ phase', (s.after actions).workers[w]? = some phase' ∧
      phase'.rank ≤ phase.rank - actions.countP (Action.isTurn w) := by
  induction actions generalizing s phase with
  | nil => exact ⟨phase, hw, le_rfl⟩
  | cons action actions ih =>
      obtain ⟨mid, hmid, hrank⟩ := h.step_rank action hw
      obtain ⟨phase', hphase', hrank'⟩ := ih (h.step action) hmid
      refine ⟨phase', hphase', hrank'.trans ?_⟩
      rw [List.countP_cons]
      omega

theorem rank_le (phase : Phase) : phase.rank ≤ 6 := by
  cases phase <;> simp [Phase.rank]

theorem eq_exited_of_rank {phase : Phase} (h : phase.rank = 0) : phase = .exited := by
  cases phase <;> simp [Phase.rank] at h ⊢

theorem length_workers_run (s : Threadpool) (w : ℕ) (now : ℤ) :
    (s.run w now).workers.length = s.workers.length := by
  have hget : (s.get w).workers.length = s.workers.length := by
    rcases s.get_cases w with ⟨_, hget, -⟩ | ⟨_, _, hget⟩
    · rw [hget]
      exact List.length_set
    · rw [hget]
      exact List.length_set
  unfold run
  split
  case h_1 => rfl
  case h_3 => exact hget
  case h_4 => exact hget
  case h_6 => split <;> exact List.length_set
  case h_10 => rfl
  all_goals exact List.length_set

theorem length_workers_step (s : Threadpool) (action : Action) :
    (s.step action).1.workers.length = s.workers.length := by
  rcases s.step_cases action with ⟨w, now, rfl⟩ | ⟨bTerminate, waiters, hstep⟩
  · exact length_workers_run s w now
  · rw [hstep]

theorem length_workers_after (s : Threadpool) (actions : List Action) :
    (s.after actions).workers.length = s.workers.length :=
  after_invariant (P := fun t => t.workers.length = s.workers.length)
    (fun t action h => (length_workers_step t action).trans h) rfl actions

/-- In any run from any queue, the tasks are taken in their order, each once. From `stop` on none
is taken, and when every worker has had its turns, all have left `run` and all tasks that had been
taken have ended. -/
theorem stop_ends (threadNum : ℕ) (tasks : List TaskFunc) (before behind : List Action)
    (hturns : ∀ w < threadNum, 6 ≤ behind.countP (Action.isTurn w)) :
    let s := (started threadNum tasks).after (before ++ [.stop])
    let t := s.after behind
    s.taken ++ s.tasks = tasks ∧ t.taken = s.taken ∧ t.tasks = s.tasks ∧
      t.workers = List.replicate threadNum .exited ∧ t.taken ~ t.finished := by
  intro s t
  have horder : s.InOrder tasks := after_invariant (fun _ action h => h.step action)
    (show (started threadNum tasks).InOrder tasks from rfl) _
  have haccounted : t.Accounted := after_invariant (fun _ action h => h.step action)
    (after_invariant (fun _ action h => h.step action) (started_accounted threadNum tasks) _) _
  have hslength : s.workers.length = threadNum :=
    (length_workers_after _ _).trans List.length_replicate
  have hlength : t.workers.length = threadNum := (length_workers_after s behind).trans hslength
  have hstopped : s.Stopped s.taken s.tasks := by
    refine ⟨?_, rfl, rfl⟩
    show ((started threadNum tasks).after (before ++ [.stop])).bTerminate = true
    rw [after_concat]
    rfl
  have hstopped' : t.Stopped s.taken s.tasks :=
    after_invariant (fun _ action h => h.step action) hstopped behind
  have hexited : ∀ phase ∈ t.workers, phase = .exited := by
    intro phase hphase
    obtain ⟨w, hw⟩ := List.mem_iff_getElem?.mp hphase
    have hlt : w < threadNum := hlength ▸ (List.getElem?_eq_some_iff.mp hw).1
    have hsw : s.workers[w]? = some s.workers[w] := List.getElem?_eq_getElem (by omega)
    obtain ⟨phase', hphase', hrank⟩ := hstopped.after_rank behind hsw
    have hsix := rank_le s.workers[w]
    have hmany := hturns w hlt
    obtain rfl : phase = phase' := Option.some.inj (hw.symm.trans hphase')
    exact eq_exited_of_rank (by omega)
  refine ⟨horder, hstopped'.taken, hstopped'.tasks, ?_, ?_⟩
  · exact List.eq_replicate_iff.mpr ⟨hlength, hexited⟩
  · refine haccounted.finished_iff.mpr fun phase hphase => ?_
    rw [hexited phase hphase]
    rfl

/-- A worker is stopped while it has a task in hand, another while it waits. -/
theorem stop_ends_midway :
    let s := (started 2 [⟨7, 0⟩]).after ([.run 0 0, .run 0 0, .run 1 0, .run 1 0] ++ [.stop])
    let t := s.after ((List.replicate 6 (.run 0 0)) ++ List.replicate 6 (.run 1 0))
    s.taken ++ s.tasks = [⟨7, 0⟩] ∧ t.taken = s.taken ∧ t.tasks = s.tasks ∧
      t.workers = List.replicate 2 .exited ∧ t.taken ~ t.finished :=
  stop_ends 2 [⟨7, 0⟩] _ _ (by decide)

end ServerKit.Threadpool
