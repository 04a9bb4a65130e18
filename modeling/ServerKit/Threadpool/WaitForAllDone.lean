import Mathlib.Data.List.Perm.Basic
import ServerKit.Lib.Transducer
import ServerKit.Threadpool.Model

/-! # What `waitForAllDone` reports

A task that has been taken is in the hands of a worker until it has ended. The test of
`waitForAllDone` looks at the queue only. -/

namespace ServerKit.Threadpool

open ServerKit.Transducer List

/-- The tasks in the hands of the workers. -/
def inHand (s : Threadpool) : List TaskFunc := s.workers.filterMap Phase.task

/-- Every task that has been taken has ended, or is in the hands of a worker. -/
def Accounted (s : Threadpool) : Prop := List.Perm s.taken (s.finished ++ s.inHand)

/-- When all is reported done, the queue is empty and every task that was taken has ended. -/
def ReportsRight (_ : Threadpool) (_ : Action) (out : Threadpool × Report) : Prop :=
  out.2 = .done → out.1.tasks = [] ∧ List.Perm out.1.taken out.1.finished

/-- No worker is between the pop of a task in `get` and the end of the task. -/
def Idle (s : Threadpool) : Prop := ∀ phase ∈ s.workers, phase.task = none

instance (s : Threadpool) : Decidable s.Idle := inferInstanceAs (Decidable (∀ _ ∈ _, _))

/-- A thread in `waitForAllDone` finds the queue empty only while the workers are idle. -/
def TestsIdle (s : Threadpool) : Action → Prop
  | .waitForAllDone thread _ => s.waiters thread = none → s.tasks = [] → s.Idle
  | .wake thread _ => s.waiters thread ≠ none → s.tasks = [] → s.Idle
  | .run _ _ | .stop => True

/-! ## The tasks -/

/-- The tasks in hand after one worker has moved on. -/
theorem inHand_setPhase {s : Threadpool} {w : ℕ} {phase : Phase} (h : s.workers[w]? = some phase)
    (phase' : Phase) : List.Perm (phase.task.toList ++ (s.setPhase w phase').inHand)
      (phase'.task.toList ++ s.inHand) := by
  rcases List.getElem?_eq_some_iff.mp h with ⟨hlt, hphase⟩
  have hafter : List.Perm (s.setPhase w phase').inHand
      (phase'.task.toList ++ (s.workers.eraseIdx w).filterMap Phase.task) := by
    have hset := (List.set_perm_cons_eraseIdx hlt phase').filterMap Phase.task
    cases htask : phase'.task <;> simpa [inHand, setPhase, htask] using hset
  have hbefore : List.Perm s.inHand
      (phase.task.toList ++ (s.workers.eraseIdx w).filterMap Phase.task) := by
    have herase := ((List.getElem_cons_eraseIdx_perm hlt).symm).filterMap Phase.task
    rw [hphase] at herase
    cases htask : phase.task <;> simpa [inHand, htask] using herase
  calc phase.task.toList ++ (s.setPhase w phase').inHand
      ~ phase.task.toList ++
          (phase'.task.toList ++ (s.workers.eraseIdx w).filterMap Phase.task) :=
        hafter.append_left _
    _ ~ phase'.task.toList ++
          (phase.task.toList ++ (s.workers.eraseIdx w).filterMap Phase.task) :=
        List.perm_append_comm_assoc _ _ _
    _ ~ phase'.task.toList ++ s.inHand := hbefore.symm.append_left _

/-- A worker moves on with what it has in hand. -/
theorem Accounted.setPhase {s : Threadpool} {w : ℕ} {phase phase' : Phase} (hs : s.Accounted)
    (h : s.workers[w]? = some phase) (htask : phase'.task = phase.task) :
    (s.setPhase w phase').Accounted := by
  have hinHand : (s.setPhase w phase').inHand ~ s.inHand := by
    apply (perm_append_left_iff phase.task.toList).mp
    rw [← htask]
    exact htask ▸ inHand_setPhase h phase'
  exact hs.trans (hinHand.symm.append_left _)

/-- A worker takes the task at the front. -/
theorem Accounted.take {s : Threadpool} {w : ℕ} {phase : Phase} {task : TaskFunc}
    {rest : List TaskFunc} (hs : s.Accounted) (h : s.workers[w]? = some phase)
    (htask : phase.task = none) :
    ({ s with tasks := rest, taken := s.taken ++ [task] }.setPhase w (.taken task)).Accounted := by
  have hinHand := inHand_setPhase h (.taken task)
  rw [htask] at hinHand
  show s.taken ++ [task] ~ s.finished ++ (s.setPhase w (.taken task)).inHand
  calc s.taken ++ [task]
      ~ task :: s.taken := perm_append_singleton _ _
    _ ~ task :: (s.finished ++ s.inHand) := hs.cons _
    _ ~ s.finished ++ ([task] ++ s.inHand) := perm_middle.symm
    _ ~ s.finished ++ (s.setPhase w (.taken task)).inHand := hinHand.symm.append_left _

/-- The task of a worker ends. -/
theorem Accounted.finish {s : Threadpool} {w : ℕ} {phase : Phase} {task : TaskFunc}
    (hs : s.Accounted) (h : s.workers[w]? = some phase) (htask : phase.task = some task) :
    (s.finish w task).Accounted := by
  have hinHand := inHand_setPhase h .ended
  rw [htask] at hinHand
  show s.taken ~ s.finished ++ [task] ++ (s.setPhase w .ended).inHand
  rw [append_assoc]
  exact hs.trans (hinHand.symm.append_left _)

theorem Accounted.get {s : Threadpool} {w : ℕ} {phase : Phase} (hs : s.Accounted)
    (h : s.workers[w]? = some phase) (htask : phase.task = none) : (s.get w).Accounted := by
  unfold Threadpool.get
  split
  · exact hs.setPhase h htask.symm
  · split
    · exact hs.setPhase h htask.symm
    · split
      · exact hs.setPhase h htask.symm
      · exact hs.take h htask

/-- A step of a worker loses no task. -/
theorem Accounted.run {s : Threadpool} (hs : s.Accounted) (w : ℕ) (now : ℤ) :
    (s.run w now).Accounted := by
  unfold Threadpool.run
  split
  · exact hs
  · rename_i h
    apply hs.setPhase h
    split <;> rfl
  · rename_i h
    exact hs.get h rfl
  · rename_i h
    exact hs.get h rfl
  · rename_i h
    exact hs.setPhase h rfl
  · rename_i h
    split
    · exact hs.finish h rfl
    · exact hs.setPhase h rfl
  · rename_i h
    exact hs.finish h rfl
  · rename_i h
    exact hs.setPhase h rfl
  · rename_i h
    exact hs.setPhase h rfl
  · exact hs

/-! ## The reports -/

/-- The idle workers have nothing in hand. -/
theorem inHand_eq_nil_iff {s : Threadpool} : s.inHand = [] ↔ s.Idle := by
  rw [inHand, filterMap_eq_nil_iff, Idle]

/-- When every task that was taken is accounted for, all of them have ended exactly when the
workers are idle. -/
theorem Accounted.finished_iff {s : Threadpool} (hs : s.Accounted) :
    s.taken ~ s.finished ↔ s.Idle := by
  rw [← inHand_eq_nil_iff]
  constructor
  · intro hperm
    have hlength := (hperm.symm.trans hs).length_eq
    rw [length_append] at hlength
    exact length_eq_zero_iff.mp (by omega)
  · intro hnil
    have haccounted := hs
    rw [Accounted, hnil, append_nil] at haccounted
    exact haccounted

/-- A report that all is done, made on an empty queue, is right exactly when the workers are
idle. -/
theorem Accounted.done_iff {s : Threadpool} (hs : s.Accounted) (waiters : ℕ → Option Bool)
    (action : Action) (hempty : s.tasks = []) :
    ReportsRight s action ({ s with waiters := waiters }, .done) ↔ s.Idle := by
  rw [← hs.finished_iff]
  constructor
  · intro hright
    exact (hright rfl).2
  · intro hended _
    exact ⟨hempty, hended⟩

/-- A call leaves the tasks where they are, and reports right exactly when its test, if it makes
one, is made while the workers are idle. -/
theorem Accounted.waitForAllDone {s : Threadpool} (hs : s.Accounted) (thread : ℕ)
    (millsecond : ℤ) :
    (s.waitForAllDone thread millsecond).1.Accounted ∧
      (ReportsRight s (.waitForAllDone thread millsecond) (s.waitForAllDone thread millsecond) ↔
        s.TestsIdle (.waitForAllDone thread millsecond)) := by
  simp only [Threadpool.waitForAllDone, TestsIdle]
  split
  · rename_i hwaits
    refine ⟨hs, iff_of_true nofun ?_⟩
    intro hfree
    rw [hwaits] at hfree
    cases hfree
  · rename_i hfree
    split
    · rename_i hempty
      have hnil : s.tasks = [] := List.isEmpty_iff.mp hempty
      refine ⟨hs, (hs.done_iff s.waiters _ hnil).trans ?_⟩
      simp [hfree, hnil]
    · rename_i hnonempty
      refine ⟨hs, iff_of_true nofun ?_⟩
      intro _ hnil
      exact absurd (List.isEmpty_iff.mpr hnil) hnonempty

/-- So does a wake-up. -/
theorem Accounted.wake {s : Threadpool} (hs : s.Accounted) (thread : ℕ) (expired : Bool) :
    (s.wake thread expired).1.Accounted ∧
      (ReportsRight s (.wake thread expired) (s.wake thread expired) ↔
        s.TestsIdle (.wake thread expired)) := by
  simp only [Threadpool.wake, TestsIdle]
  split
  · rename_i hfree
    refine ⟨hs, iff_of_true nofun ?_⟩
    intro hwaits
    exact absurd hfree hwaits
  · rename_i timed hwaits
    split
    · rename_i hempty
      have hnil : s.tasks = [] := List.isEmpty_iff.mp hempty
      refine ⟨hs, (hs.done_iff _ _ hnil).trans ?_⟩
      simp [hwaits, hnil]
    · rename_i hnonempty
      have htests : s.waiters thread ≠ none → s.tasks = [] → s.Idle := by
        intro _ hnil
        exact absurd (List.isEmpty_iff.mpr hnil) hnonempty
      split
      · exact ⟨hs, iff_of_true nofun htests⟩
      · exact ⟨hs, iff_of_true nofun htests⟩

theorem step_spec {s : Threadpool} (hs : s.Accounted) (action : Action) :
    (s.step action).1.Accounted ∧
      (ReportsRight s action (s.step action) ↔ s.TestsIdle action) := by
  cases action with
  | run w now => exact ⟨hs.run w now, iff_of_true nofun trivial⟩
  | waitForAllDone thread millsecond => exact hs.waitForAllDone thread millsecond
  | wake thread expired => exact hs.wake thread expired
  | stop => exact ⟨hs, iff_of_true nofun trivial⟩

theorem started_idle (threadNum : ℕ) (tasks : List TaskFunc) : (started threadNum tasks).Idle := by
  intro phase hphase
  rw [List.eq_of_mem_replicate hphase]
  rfl

theorem started_accounted (threadNum : ℕ) (tasks : List TaskFunc) :
    (started threadNum tasks).Accounted := by
  rw [Accounted, inHand_eq_nil_iff.mpr (started_idle threadNum tasks)]
  exact Perm.refl []

/-- In a run from any queue with any number of workers, every report that all is done is right
exactly when no thread finds the queue empty while a worker has a task in hand. -/
theorem reports_right_iff_testsIdle (threadNum : ℕ) (tasks : List TaskFunc)
    (actions : List Action) :
    Every ReportsRight (fun s action => some (s.step action)) (started threadNum tasks) actions ↔
      Admits TestsIdle (fun s action => some (s.step action)) (started threadNum tasks)
        actions := by
  apply every_iff_admits (P := Accounted) _ _ (started_accounted threadNum tasks)
  · intro s action hs htests
    have hspec := step_spec hs action
    exact ⟨s.step action, rfl, hspec.2.mpr htests, hspec.1⟩
  · intro s action out hs hout hright
    cases hout
    exact (step_spec hs action).2.mp hright

/-! ## Pools in which every report is right -/

/-- There is no worker, or there is nothing to do. -/
def NothingToRun (s : Threadpool) : Prop := s.workers = [] ∨ s.tasks = [] ∧ s.Idle

theorem NothingToRun.idle {s : Threadpool} (h : s.NothingToRun) : s.Idle := by
  rcases h with hnone | ⟨-, hidle⟩
  · rw [Idle, hnone]
    simp
  · exact hidle

theorem Idle.setPhase {s : Threadpool} (h : s.Idle) (w : ℕ) {phase : Phase}
    (htask : phase.task = none) : (s.setPhase w phase).Idle := by
  intro phase' hmem
  rcases List.mem_or_eq_of_mem_set hmem with hold | rfl
  · exact h phase' hold
  · exact htask

/-- A worker that finds nothing to do. -/
theorem NothingToRun.run {s : Threadpool} (h : s.NothingToRun) (w : ℕ) (now : ℤ) :
    (s.run w now).NothingToRun := by
  rcases h with hnone | ⟨hempty, hidle⟩
  · have hworker : s.workers[w]? = none := by rw [hnone, List.getElem?_nil]
    rw [Threadpool.run, hworker]
    exact .inl hnone
  · have hbusy : ∀ {phase : Phase}, s.workers[w]? = some phase → phase.task = none :=
      fun hphase => hidle _ (List.mem_of_getElem? hphase)
    have hget : (s.get w).NothingToRun := by
      rw [Threadpool.get, hempty]
      split
      · exact .inr ⟨hempty, hidle.setPhase w rfl⟩
      · split
        · exact .inr ⟨hempty, hidle.setPhase w rfl⟩
        · exact .inr ⟨hempty, hidle.setPhase w rfl⟩
    unfold Threadpool.run
    split
    · exact .inr ⟨hempty, hidle⟩
    · refine .inr ⟨hempty, hidle.setPhase w ?_⟩
      split <;> rfl
    · exact hget
    · exact hget
    · rename_i hphase
      cases hbusy hphase
    · rename_i hphase
      cases hbusy hphase
    · rename_i hphase
      cases hbusy hphase
    · exact .inr ⟨hempty, hidle.setPhase w rfl⟩
    · exact .inr ⟨hempty, hidle.setPhase w rfl⟩
    · exact .inr ⟨hempty, hidle⟩

theorem NothingToRun.step {s : Threadpool} (h : s.NothingToRun) (action : Action) :
    (s.step action).1.NothingToRun := by
  cases action with
  | run w now => exact h.run w now
  | waitForAllDone thread millsecond =>
      simp only [Threadpool.step, waitForAllDone]
      split
      · exact h
      · split <;> exact h
  | wake thread expired =>
      simp only [Threadpool.step, wake]
      split
      · exact h
      · split
        · exact h
        · split <;> exact h
  | stop => exact h

theorem NothingToRun.testsIdle {s : Threadpool} (h : s.NothingToRun) (action : Action) :
    s.TestsIdle action := by
  cases action with
  | run w now => trivial
  | waitForAllDone thread millsecond => exact fun _ _ => h.idle
  | wake thread expired => exact fun _ _ => h.idle
  | stop => trivial

/-! ## Pools in which a report comes too early -/

theorem waitForAllDone_empty {s : Threadpool} {thread : ℕ} (millsecond : ℤ)
    (hfree : s.waiters thread = none) (hempty : s.tasks = []) :
    s.waitForAllDone thread millsecond = (s, .done) := by
  simp only [waitForAllDone, hfree, hempty, List.isEmpty_nil, if_true]

section Early

variable (task : TaskFunc) (rest taken finished : List TaskFunc) (atomic : ℤ) (ps : List Phase)
  (waiters : ℕ → Option Bool)

/-- The first worker takes a task. -/
theorem run_take :
    Transducer.run (fun (s : Threadpool) action => some (s.step action))
        ⟨task :: rest, false, atomic, .loop :: ps, waiters, taken, finished⟩ [.run 0 0, .run 0 0] =
      some (⟨rest, false, atomic, .taken task :: ps, waiters, taken ++ [task], finished⟩,
        [.silent, .silent]) := rfl

/-- The first worker takes a task and runs it, in seven steps. -/
theorem run_turn :
    Transducer.run (fun (s : Threadpool) action => some (s.step action))
        ⟨task :: rest, false, atomic, .loop :: ps, waiters, taken, finished⟩
        (List.replicate 7 (.run 0 task.expireTime)) =
      some (⟨rest, false, atomic + 1 - 1, .loop :: ps, waiters, taken ++ [task],
        finished ++ [task]⟩, List.replicate 7 .silent) := by
  simp [List.replicate, Transducer.run, Threadpool.step, Threadpool.run, Threadpool.get, setPhase,
    finish]

/-- It comes to the last task, and while it has it in hand, a thread is told that all is done. -/
theorem reports_early (hfree : waiters 1 = none) (hle : finished.length ≤ taken.length) :
    ∃ actions, ¬ Every ReportsRight (fun (s : Threadpool) action => some (s.step action))
      ⟨task :: rest, false, atomic, .loop :: ps, waiters, taken, finished⟩ actions := by
  induction rest generalizing task taken finished atomic with
  | nil =>
      refine ⟨[.run 0 0, .run 0 0] ++ [.waitForAllDone 1 (-1)], fun h => ?_⟩
      obtain ⟨out, hout, hright, -⟩ := h.append (run_take task [] taken finished atomic ps waiters)
      cases (Option.some.inj hout).symm.trans (waitForAllDone_empty (-1) hfree rfl)
      have hlength : (taken ++ [task]).length = finished.length := (hright rfl).2.length_eq
      rw [List.length_append, List.length_singleton] at hlength
      omega
  | cons next rest ih =>
      obtain ⟨actions, hactions⟩ := ih next (taken ++ [task]) (finished ++ [task]) (atomic + 1 - 1)
        (by simpa using hle)
      exact ⟨_, fun h => hactions (h.append (run_turn task (next :: rest) taken finished atomic ps
        waiters))⟩

end Early

/-- **Waiting for all tasks.** In all runs of a pool every report that all is done is right exactly
if the pool has no worker or no task. -/
theorem reports_right_iff (threadNum : ℕ) (tasks : List TaskFunc) :
    (∀ actions, Every ReportsRight (fun s action => some (s.step action))
      (started threadNum tasks) actions) ↔ threadNum = 0 ∨ tasks = [] := by
  constructor
  · intro hright
    by_contra hbusy
    obtain ⟨n, rfl⟩ := Nat.exists_eq_succ_of_ne_zero fun h => hbusy (.inl h)
    obtain ⟨task, rest, rfl⟩ := List.exists_cons_of_ne_nil fun h => hbusy (.inr h)
    obtain ⟨actions, hactions⟩ := reports_early task rest [] [] 0 (List.replicate n .loop)
      (fun _ => none) rfl (Nat.le_refl _)
    exact hactions (hright actions)
  · intro hquiet actions
    have hstart : (started threadNum tasks).NothingToRun :=
      hquiet.imp (fun h => by rw [started, h]; rfl) fun h => ⟨h, started_idle threadNum tasks⟩
    rw [reports_right_iff_testsIdle]
    refine admits_of_invariant (fun s action h => h.testsIdle action) ?_ hstart actions
    rintro s action h _ ⟨⟩
    exact h.step action

/-- One task, one worker: the task has been taken and has not begun to run when a thread is
told that all is done. -/
def earlyWait : List Action :=
  [.run 0 0, .run 0 0, .waitForAllDone 1 (-1)]

/-- The report comes although the task is still in hand. -/
theorem earlyWait_reports_done :
    (∃ s, Transducer.run (fun s action => some (s.step action)) (started 1 [⟨7, 0⟩]) earlyWait =
        some (s, [.silent, .silent, .done]) ∧ s.inHand = [⟨7, 0⟩] ∧ s.finished = []) ∧
      ¬ Every ReportsRight (fun s action => some (s.step action)) (started 1 [⟨7, 0⟩])
        earlyWait := by
  refine ⟨⟨_, rfl, rfl, rfl⟩, ?_⟩
  rintro ⟨s₁, hs₁, -, s₂, hs₂, -, s₃, hs₃, hright, -⟩
  cases hs₁
  cases hs₂
  cases hs₃
  exact absurd (hright rfl).2.length_eq (by decide)

end ServerKit.Threadpool
