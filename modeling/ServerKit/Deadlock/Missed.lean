import ServerKit.Deadlock.Waits

/-! # Deadlocks are found if every wait is recorded

A wait is recorded in `lock_before`, from an owner that is itself recorded only in
`lock_after`. It is missed when the owner is not yet recorded, when it is the waiting
thread itself, and when the mutex is handed to another thread during the wait. -/

namespace ServerKit.Deadlock

open ServerKit.MarkedSearch ServerKit.System Relation

/-- The steps after which every wait is still an edge: a thread starts to wait for the
recorded owner, and not for itself; and a mutex is acquired only by a thread that the
others waiting for it have an edge to. -/
def System.RecordsWaits (s : System) : Action → Prop
  | .lockBefore t l => ∀ u, s.holder l = some u →
      u ∈ s.tg.waits t ∨ t ≠ u ∧ s.tg.Recorded l u
  | .acquire u l => ∀ t, t ≠ u → s.pc t = .waiting l → u ∈ s.tg.waits t
  | _ => True

/-- Every wait is an edge of the graph. -/
structure System.AllRecorded (s : System) : Prop where
  threads : s.tg.Threads
  recorded : ∀ t u, s.WaitsFor t u → u ∈ s.tg.waits t

theorem System.AllRecorded.start {s : System} (h : s.Start) : s.AllRecorded := by
  cases h
  exact ⟨.start, fun t u ⟨l, hl, _⟩ => by cases hl⟩

theorem System.AllRecorded.step {s s' : System} {action : Action} (h : s.AllRecorded)
    (hguard : s.RecordsWaits action) (hnext : s.next action = some s') : s'.AllRecorded := by
  have hstep := System.next_cases hnext
  cases action with
  | lockBefore t l =>
    obtain ⟨-, -, tg, hbefore, rfl⟩ := hstep
    obtain ⟨hthreads, -, -, hwaits⟩ := lockBefore_spec h.threads hbefore
    refine ⟨hthreads, fun x u ⟨m, hm, hu⟩ => ?_⟩
    simp only at hm hu ⊢
    by_cases hxt : x = t
    · subst hxt
      rw [Function.update_self] at hm
      cases hm
      rw [hwaits, Function.update_self, mem_foldl_record, mem_owners]
      exact (hguard u hu).imp_right And.symm
    · rw [Function.update_of_ne hxt] at hm
      rw [hwaits, Function.update_of_ne hxt]
      exact h.recorded x u ⟨m, hm, hu⟩
  | acquire t l =>
    obtain ⟨-, -, rfl⟩ := hstep
    refine ⟨h.threads, fun x u ⟨m, hpc, hu⟩ => ?_⟩
    obtain ⟨hxt, hm⟩ := waiting_of_update (by simp) hpc
    simp only at hu ⊢
    by_cases hml : m = l
    · subst hml
      rw [Function.update_self, Option.some.injEq] at hu
      exact hu ▸ hguard x hxt hm
    · rw [Function.update_of_ne hml] at hu
      exact h.recorded x u ⟨m, hm, hu⟩
  | lockAfter t l =>
    obtain ⟨-, tg, hafter, rfl⟩ := hstep
    obtain ⟨hthreads, hwaits⟩ := lockAfter_spec h.threads hafter
    refine ⟨hthreads, fun x u ⟨m, hpc, hu⟩ => ?_⟩
    obtain ⟨hxt, hm⟩ := waiting_of_update (by simp) hpc
    have hsame : tg.waits x = s.tg.waits x := by
      rcases hwaits with ⟨_, -, hwaits, -⟩ | ⟨-, hwaits, -⟩
      · rw [hwaits, Function.update_of_ne hxt]
      · rw [hwaits]
    exact hsame ▸ h.recorded x u ⟨m, hm, hu⟩
  | release t l =>
    obtain ⟨-, -, rfl⟩ := hstep
    refine ⟨h.threads, fun x u ⟨m, hpc, hu⟩ => ?_⟩
    obtain ⟨hxt, hm⟩ := waiting_of_update (by simp) hpc
    have hml : m ≠ l := by
      rintro rfl
      simp at hu
    simp only [Function.update_of_ne hml] at hu
    exact h.recorded x u ⟨m, hm, hu⟩
  | unlockAfter t l =>
    obtain ⟨-, tg, hunlock, rfl⟩ := hstep
    obtain ⟨hthreads, hwaits, -⟩ := unlockAfter_spec h.threads hunlock
    refine ⟨hthreads, fun x u ⟨m, hpc, hu⟩ => ?_⟩
    obtain ⟨-, hm⟩ := waiting_of_update (by simp) hpc
    exact hwaits ▸ h.recorded x u ⟨m, hm, hu⟩

/-- **No missed deadlock.** As long as every step leaves the waits recorded, a circle of
threads that wait for each other makes `check_dead_lock` set `deadlock`. -/
theorem deadlocked_found {s : System}
    (h : Reachable System.next System.Start System.RecordsWaits s) (hdead : s.Deadlocked)
    (st : Search) : ∃ st', checkDeadLock s.tg st = some st' ∧ st'.deadlock = 1 := by
  have hs : s.AllRecorded := h.invariant (fun _ => .start) fun _ _ _ hs hguard hnext =>
    hs.step hguard hnext
  obtain ⟨t, ht⟩ := hdead
  exact hs.threads.finds_cycle (hs.threads.exists_cycle_iff_waits.mpr
    ⟨t, TransGen.mono hs.recorded t t ht⟩) st

/-- Two threads lock two mutexes in opposite orders. -/
def crossed : List Action :=
  [.lockBefore 1 7, .acquire 1 7, .lockAfter 1 7, .lockBefore 2 8, .acquire 2 8, .lockAfter 2 8,
    .lockBefore 1 8, .lockBefore 2 7]

theorem admits_crossed : Admits System.next System.RecordsWaits System.start crossed := by
  refine ⟨fun u hu => (nomatch hu), ?_⟩
  intro s hs
  cases hs
  refine ⟨fun t ht hpc => ?_, fun s hs => ?_⟩
  · simp [System.start, Function.update_of_ne ht] at hpc
  cases hs
  refine ⟨trivial, ?_⟩
  intro s hs
  cases hs
  refine ⟨fun u hu => (nomatch hu), ?_⟩
  intro s hs
  cases hs
  refine ⟨fun t ht hpc => ?_, fun s hs => ?_⟩
  · simp [System.start, Function.update_of_ne ht] at hpc
  cases hs
  refine ⟨trivial, ?_⟩
  intro s hs
  cases hs
  refine ⟨fun u hu => ?_, fun s hs => ?_⟩
  · cases hu
    exact .inr (by decide)
  cases hs
  refine ⟨fun u hu => ?_, fun s hs => trivial⟩
  cases hu
  exact .inr (by decide)

theorem deadlocked_found_crossed :
    ∃ s, exec System.next System.start crossed = some s ∧
      ∀ st, ∃ st', checkDeadLock s.tg st = some st' ∧ st'.deadlock = 1 := by
  obtain ⟨s, hexec, h₁₂, h₂₁⟩ : ∃ s, exec System.next System.start crossed = some s ∧
      s.WaitsFor 1 2 ∧ s.WaitsFor 2 1 := ⟨_, rfl, ⟨8, rfl, rfl⟩, ⟨7, rfl, rfl⟩⟩
  exact ⟨s, hexec, deadlocked_found (reachable_of_exec rfl admits_crossed hexec)
    ⟨1, .tail (.single h₁₂) h₂₁⟩⟩

/-- A thread locks a mutex that it holds. -/
def selfLock : List Action := [.lockBefore 1 7, .acquire 1 7, .lockAfter 1 7, .lockBefore 1 7]

/-- A missed deadlock: the thread waits for itself, and `verify_edge` takes the vertex for
its own edge. -/
theorem selfLock_missed :
    ∃ s st', Reachable System.next System.Start anyStep s ∧ s.WaitsFor 1 1 ∧
      checkDeadLock s.tg Search.start = some st' ∧ st'.deadlock = 0 := by
  obtain ⟨s, hexec, hwaits, hcheck⟩ : ∃ s, exec System.next System.start selfLock = some s ∧
      s.WaitsFor 1 1 ∧ (checkDeadLock s.tg Search.start).map (·.deadlock) = some 0 :=
    ⟨_, rfl, ⟨7, rfl, rfl⟩, by decide⟩
  obtain ⟨st', hst', hdeadlock⟩ := Option.map_eq_some_iff.mp hcheck
  exact ⟨s, st', reachable_of_exec rfl (admits_anyStep _ _) hexec, hwaits, hst', hdeadlock⟩

end ServerKit.Deadlock
