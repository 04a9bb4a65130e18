import Mathlib.Data.List.Induction
import Mathlib.Tactic.Ring
import ServerKit.Threadpool.WaitForAllDone

/-! # The completion signal

`_atomic` counts the workers between its increment and its decrement, although both are made
outside the mutex. So the last worker that comes to the final check of `run` finds it zero. -/

namespace ServerKit.Threadpool

open List

/-- The worker is between the increment and the decrement of `_atomic`. -/
def Phase.isCounted : Phase → Bool
  | .counted _ | .running _ | .ended => true
  | .loop | .get | .waiting | .taken _ | .uncounted | .exited => false

/-- The worker is between taking a task and the end of its final check. -/
def Phase.inFlight : Phase → Bool
  | .taken _ | .counted _ | .running _ | .ended | .uncounted => true
  | .loop | .get | .waiting | .exited => false

/-- The step is a final check of `run` that calls `notify_all`. -/
def Notifies (s : Threadpool) : Action → Prop
  | .run w _ => s.workers[w]? = some .uncounted ∧ s.atomic = 0 ∧ s.tasks.isEmpty
  | .waitForAllDone _ _ | .wake _ _ | .stop => False

/-- The queue is empty and no worker is in flight. -/
def Quiet (s : Threadpool) : Prop := s.tasks = [] ∧ ∀ phase ∈ s.workers, phase.inFlight = false

instance (s : Threadpool) : Decidable s.Quiet :=
  inferInstanceAs (Decidable (_ = [] ∧ ∀ _ ∈ _, _))

/-- The pool after a run. -/
def after (s : Threadpool) (actions : List Action) : Threadpool :=
  actions.foldl (fun s action => (s.step action).1) s

/-- The run has a notification with this list of taken tasks behind it, all of them finished. -/
def Notified (start : Threadpool) (actions : List Action) (taken : List TaskFunc) : Prop :=
  ∃ before action later, actions = before ++ action :: later ∧
    (start.after before).Notifies action ∧ (start.after before).taken = taken ∧
    List.Perm (start.after before).taken (start.after before).finished

/-- `_atomic` counts the workers between its increment and its decrement. -/
def Counted (s : Threadpool) : Prop := s.atomic = s.workers.countP Phase.isCounted

/-! ## What a step does -/

/-- `get` moves the worker on, and the queue only when it returns a task. -/
theorem get_cases (s : Threadpool) (w : ℕ) :
    (∃ phase, s.get w = s.setPhase w phase ∧ phase.isCounted = false) ∨
      ∃ task rest, s.get w =
        { s with tasks := rest, taken := s.taken ++ [task] }.setPhase w (.taken task) := by
  unfold get
  split
  · exact .inl ⟨.waiting, rfl, rfl⟩
  · split
    · exact .inl ⟨.loop, rfl, rfl⟩
    · split
      · exact .inl ⟨.loop, rfl, rfl⟩
      · rename_i task rest _
        exact .inr ⟨task, rest, rfl⟩

/-- The other threads touch neither the tasks nor the workers. -/
theorem step_cases (s : Threadpool) (action : Action) :
    (∃ w now, action = .run w now) ∨
      ∃ bTerminate waiters,
        (s.step action).1 = { s with bTerminate := bTerminate, waiters := waiters } := by
  cases action with
  | run w now => exact .inl ⟨w, now, rfl⟩
  | waitForAllDone thread millsecond =>
      right
      simp only [step, waitForAllDone]
      split
      · exact ⟨_, _, rfl⟩
      · split <;> exact ⟨_, _, rfl⟩
  | wake thread expired =>
      right
      simp only [step, wake]
      split
      · exact ⟨_, _, rfl⟩
      · split
        · exact ⟨_, _, rfl⟩
        · split <;> exact ⟨_, _, rfl⟩
  | stop => exact .inr ⟨_, _, rfl⟩

/-! ## The counter -/

theorem after_concat (s : Threadpool) (actions : List Action) (action : Action) :
    s.after (actions ++ [action]) = ((s.after actions).step action).1 := by
  simp [after]

theorem countP_setPhase {s : Threadpool} {w : ℕ} {phase : Phase} (h : s.workers[w]? = some phase)
    (phase' : Phase) :
    ((s.setPhase w phase').workers.countP Phase.isCounted : ℤ) =
      s.workers.countP Phase.isCounted - (if phase.isCounted then 1 else 0) +
        if phase'.isCounted then 1 else 0 := by
  rcases List.getElem?_eq_some_iff.mp h with ⟨hlt, hphase⟩
  have herase := (List.getElem_cons_eraseIdx_perm hlt).countP_eq Phase.isCounted
  have hset := (List.set_perm_cons_eraseIdx hlt phase').countP_eq Phase.isCounted
  rw [hphase, countP_cons] at herase
  rw [countP_cons] at hset
  simp only [setPhase]
  rw [hset, ← herase]
  push_cast
  ring

/-- A worker moves on, and the counter with it. -/
theorem Counted.setPhase {s : Threadpool} {w : ℕ} {phase phase' : Phase} (hs : s.Counted)
    (h : s.workers[w]? = some phase) {atomic : ℤ}
    (hatomic : atomic = s.atomic - (if phase.isCounted then 1 else 0) +
      if phase'.isCounted then 1 else 0) :
    atomic = (s.setPhase w phase').workers.countP Phase.isCounted := by
  rw [countP_setPhase h, hatomic, hs]

/-- A worker moves on without a change of the counter. -/
theorem Counted.move {s : Threadpool} {w : ℕ} {phase phase' : Phase} (hs : s.Counted)
    (h : s.workers[w]? = some phase) (hphase : phase'.isCounted = phase.isCounted) :
    s.atomic = (s.setPhase w phase').workers.countP Phase.isCounted :=
  hs.setPhase h (by rw [hphase]; ring)

theorem Counted.get {s : Threadpool} {w : ℕ} {phase : Phase} (hs : s.Counted)
    (h : s.workers[w]? = some phase) (hphase : phase.isCounted = false) : (s.get w).Counted := by
  rcases s.get_cases w with ⟨phase', hget, hphase'⟩ | ⟨task, rest, hget⟩
  · rw [hget]
    exact hs.move h (hphase'.trans hphase.symm)
  · rw [hget]
    exact hs.move h hphase.symm

/-- A step of a worker keeps the count. -/
theorem Counted.run {s : Threadpool} (hs : s.Counted) (w : ℕ) (now : ℤ) :
    (s.run w now).Counted := by
  unfold Threadpool.run
  split
  · exact hs
  · rename_i h
    apply hs.move h
    split <;> rfl
  · rename_i h
    exact hs.get h rfl
  · rename_i h
    exact hs.get h rfl
  · rename_i h
    exact hs.setPhase h (by simp [Phase.isCounted, Threadpool.setPhase])
  · rename_i h
    split
    · exact hs.move h rfl
    · exact hs.move h rfl
  · rename_i h
    exact hs.move h rfl
  · rename_i h
    exact hs.setPhase h (by simp [Phase.isCounted, Threadpool.setPhase])
  · rename_i h
    exact hs.move h rfl
  · exact hs

theorem started_counted (threadNum : ℕ) (tasks : List TaskFunc) :
    (started threadNum tasks).Counted := by
  have hcount : (List.replicate threadNum Phase.loop).countP Phase.isCounted = 0 := by
    simp [List.countP_replicate, Phase.isCounted]
  simp [Counted, started, hcount]

theorem Counted.step {s : Threadpool} (hs : s.Counted) (action : Action) :
    (s.step action).1.Counted := by
  rcases s.step_cases action with ⟨w, now, rfl⟩ | ⟨bTerminate, waiters, hstep⟩
  · exact hs.run w now
  · rw [hstep]
    exact hs

theorem Accounted.step {s : Threadpool} (hs : s.Accounted) (action : Action) :
    (s.step action).1.Accounted := (step_spec hs action).1

/-! ## The last check -/

/-- A worker that is not in flight after its step was not in flight before it, or has just made
its final check. -/
theorem Quiet.of_setPhase {s : Threadpool} {w : ℕ} {phase phase' : Phase}
    (h : s.workers[w]? = some phase) (hphase : phase.inFlight = false)
    (hs : (s.setPhase w phase').Quiet) : s.Quiet := by
  refine ⟨hs.1, ?_⟩
  intro other hother
  rcases List.mem_iff_getElem?.mp hother with ⟨v, hv⟩
  by_cases hvw : v = w
  · subst hvw
    rw [h] at hv
    cases hv
    exact hphase
  · apply hs.2
    apply List.mem_of_getElem? (i := v)
    rw [setPhase, List.getElem?_set_ne (Ne.symm hvw)]
    exact hv

theorem not_quiet_setPhase {s : Threadpool} {w : ℕ} {phase phase' : Phase}
    (h : s.workers[w]? = some phase) (hphase' : phase'.inFlight = true) :
    ¬ (s.setPhase w phase').Quiet := by
  intro hs
  have hmem : phase' ∈ (s.setPhase w phase').workers :=
    List.mem_set (List.getElem?_eq_some_iff.mp h).1 phase'
  rw [hs.2 phase' hmem] at hphase'
  cases hphase'

/-- Without a worker in flight the counter is zero and the workers are idle. -/
theorem Quiet.settled {s : Threadpool} (hs : s.Quiet) :
    s.workers.countP Phase.isCounted = 0 ∧ s.Idle := by
  have hphase : ∀ phase : Phase, phase.inFlight = false →
      phase.isCounted = false ∧ phase.task = none := by
    intro phase
    cases phase <;> simp [Phase.inFlight, Phase.isCounted, Phase.task]
  constructor
  · rw [List.countP_eq_zero]
    intro phase hmem
    simp [(hphase phase (hs.2 phase hmem)).1]
  · intro phase hmem
    exact (hphase phase (hs.2 phase hmem)).2

/-- The step gives a quiet pool from a quiet one that has taken the same tasks, or it is the
notification, made when every task taken has finished. -/
def Settles (s : Threadpool) (action : Action) : Prop :=
  (s.Quiet ∨ s.Notifies action ∧ List.Perm s.taken s.finished) ∧
    (s.step action).1.taken = s.taken

/-- A step that leaves the tasks alone, of a worker that is not in flight before it. -/
theorem settles_move {s : Threadpool} {w : ℕ} {now : ℤ} {phase phase' : Phase}
    (hrun : s.run w now = s.setPhase w phase') (h : s.workers[w]? = some phase)
    (hphase : phase.inFlight = false) (hquiet : (s.run w now).Quiet) :
    s.Settles (.run w now) := by
  rw [hrun] at hquiet
  refine ⟨.inl (Quiet.of_setPhase h hphase hquiet), ?_⟩
  rw [step, hrun]
  rfl

theorem settles_get {s : Threadpool} {w : ℕ} {now : ℤ} {phase : Phase}
    (hrun : s.run w now = s.get w) (h : s.workers[w]? = some phase)
    (hphase : phase.inFlight = false) (hquiet : (s.run w now).Quiet) :
    s.Settles (.run w now) := by
  rcases s.get_cases w with ⟨phase', hget, -⟩ | ⟨task, rest, hget⟩
  · exact settles_move (hrun.trans hget) h hphase hquiet
  · rw [hrun, hget] at hquiet
    have hworker : { s with tasks := rest, taken := s.taken ++ [task] }.workers[w]? =
        some phase := h
    exact absurd hquiet (not_quiet_setPhase hworker rfl)

/-- The final check that leaves no worker in flight is the notification. -/
theorem settles_check {s : Threadpool} {w : ℕ} (now : ℤ) (hcounted : s.Counted)
    (haccounted : s.Accounted) (h : s.workers[w]? = some .uncounted)
    (hquiet : (s.setPhase w .loop).Quiet) : s.Settles (.run w now) := by
  have hsettled := hquiet.settled
  have hzero : s.atomic = 0 := by
    have hcount : s.atomic = (s.setPhase w .loop).workers.countP Phase.isCounted :=
      hcounted.move h rfl
    rw [hsettled.1] at hcount
    exact hcount
  have hmoved : (s.setPhase w .loop).Accounted := haccounted.setPhase h rfl
  have hfinished : s.taken ~ s.finished := hmoved.finished_iff.mpr hsettled.2
  have hrun : s.run w now = s.setPhase w .loop := by simp [run, h]
  refine ⟨.inr ⟨⟨h, hzero, List.isEmpty_iff.mpr hquiet.1⟩, hfinished⟩, ?_⟩
  rw [step, hrun]
  rfl

theorem settles_run {s : Threadpool} {w : ℕ} {now : ℤ} (hcounted : s.Counted)
    (haccounted : s.Accounted) (hquiet : (s.run w now).Quiet) : s.Settles (.run w now) := by
  rcases h : s.workers[w]? with - | phase
  · have hrun : s.run w now = s := by simp [run, h]
    rw [hrun] at hquiet
    exact ⟨.inl hquiet, by rw [step, hrun]⟩
  · cases phase with
    | loop =>
        have hrun : s.run w now = s.setPhase w (if s.bTerminate then .exited else .get) := by
          simp [run, h]
        exact settles_move hrun h rfl hquiet
    | get => exact settles_get (by simp [run, h]) h rfl hquiet
    | waiting => exact settles_get (by simp [run, h]) h rfl hquiet
    | taken task =>
        simp only [run, h] at hquiet
        exact absurd hquiet (not_quiet_setPhase h rfl)
    | counted task =>
        simp only [run, h] at hquiet
        split at hquiet <;> exact absurd hquiet (not_quiet_setPhase h rfl)
    | running task =>
        simp only [run, h] at hquiet
        exact absurd hquiet (not_quiet_setPhase h rfl)
    | ended =>
        simp only [run, h] at hquiet
        exact absurd hquiet (not_quiet_setPhase h rfl)
    | uncounted =>
        simp only [run, h] at hquiet
        exact settles_check now hcounted haccounted h hquiet
    | exited =>
        have hrun : s.run w now = s := by simp [run, h]
        rw [hrun] at hquiet
        exact ⟨.inl hquiet, by rw [step, hrun]⟩

/-- No step other than the notification makes the pool quiet. -/
theorem settles_step {s : Threadpool} {action : Action} (hcounted : s.Counted)
    (haccounted : s.Accounted) (hquiet : (s.step action).1.Quiet) : s.Settles action := by
  rcases s.step_cases action with ⟨w, now, rfl⟩ | ⟨bTerminate, waiters, hstep⟩
  · exact settles_run hcounted haccounted hquiet
  · rw [hstep] at hquiet
    exact ⟨.inl hquiet, by rw [hstep]⟩

/-! ## The runs -/

/-- The counter counts, and no task is lost. -/
theorem after_started (threadNum : ℕ) (tasks : List TaskFunc) (actions : List Action) :
    ((started threadNum tasks).after actions).Counted ∧
      ((started threadNum tasks).after actions).Accounted := by
  induction actions using List.reverseRecOn with
  | nil => exact ⟨started_counted threadNum tasks, started_accounted threadNum tasks⟩
  | append_singleton actions action ih =>
      rw [after_concat]
      exact ⟨ih.1.step action, ih.2.step action⟩

/-- A later step takes nothing from what has been notified. -/
theorem Notified.concat {start : Threadpool} {actions : List Action} {taken : List TaskFunc}
    (h : Notified start actions taken) (action : Action) :
    Notified start (actions ++ [action]) taken := by
  obtain ⟨before, notify, later, rfl, hrest⟩ := h
  exact ⟨before, notify, later ++ [action], by simp, hrest⟩

/-- In a run from any queue with any number of workers, when the queue is empty and no worker is
in flight, the workers have notified after the last task was taken and all had finished. -/
theorem notified_of_quiet (threadNum : ℕ) (tasks : List TaskFunc) (actions : List Action)
    (hquiet : ((started threadNum tasks).after actions).Quiet)
    (htaken : ((started threadNum tasks).after actions).taken ≠ []) :
    Notified (started threadNum tasks) actions
      ((started threadNum tasks).after actions).taken := by
  induction actions using List.reverseRecOn with
  | nil => exact absurd rfl htaken
  | append_singleton actions action ih =>
      have hinv := after_started threadNum tasks actions
      rw [after_concat] at hquiet htaken ⊢
      obtain ⟨hsettles, hsame⟩ := settles_step hinv.1 hinv.2 hquiet
      rw [hsame] at htaken ⊢
      rcases hsettles with hbefore | ⟨hnotifies, hfinished⟩
      · exact (ih hbefore htaken).concat action
      · exact ⟨actions, action, [], rfl, hnotifies, rfl, hfinished⟩

/-- Two workers, each with a task; the second decrements before the first has run its own. -/
def twoWorkers : List Action :=
  [.run 0 0, .run 1 0, .run 0 0, .run 1 0, .run 1 0, .run 1 0, .run 1 0, .run 1 0, .run 0 0,
    .run 1 0, .run 0 9, .run 0 0, .run 0 0]

theorem twoWorkers_notified :
    ((started 2 [⟨7, 5⟩, ⟨8, 0⟩]).after twoWorkers).Quiet ∧
      Notified (started 2 [⟨7, 5⟩, ⟨8, 0⟩]) twoWorkers [⟨7, 5⟩, ⟨8, 0⟩] :=
  ⟨by decide, notified_of_quiet 2 [⟨7, 5⟩, ⟨8, 0⟩] twoWorkers (by decide) (by decide)⟩

end ServerKit.Threadpool
