import ServerKit.Deadlock.Reports
import ServerKit.Lib.System

/-! # The hooks of `pthread_mutex_lock` and `pthread_mutex_unlock`

`lock_before`, `lock_after` and `unlock_after` keep the owners of the mutexes in
`locklist` and the waits in the graph. A hook that leaves its tables has no result. -/

namespace ServerKit.Deadlock

open Relation

/-- The loop of `search_lock` and `search_empty_lock` over the first `lockidx` slots. -/
def scanLocks (tg : TaskGraph) (lock : UInt64) : Option (Option ℕ) :=
  match (tg.locklist.take tg.lockidx).findIdx? (·.lockId == lock) with
  | some i => some (some i)
  | none => if tg.lockidx ≤ tg.locklist.length then some none else none

/-- The slot of a mutex; the inner `none` for the `-1` of the source. -/
def searchLock (tg : TaskGraph) (lock : UInt64) : Option (Option ℕ) := scanLocks tg lock

def searchEmptyLock (tg : TaskGraph) : Option ℕ :=
  (scanLocks tg 0).map fun i => i.getD tg.lockidx

/-- The change of one slot of `locklist`. -/
def TaskGraph.modifyLock (tg : TaskGraph) (idx : ℕ) (f : SourceType → SourceType) : TaskGraph :=
  { tg with locklist := tg.locklist.modify idx f }

/-- The body of the loop of `lock_before`, for a slot of the mutex. -/
def recordWait (tg : TaskGraph) (threadId : UInt64) (idx : ℕ) (owner : UInt64) :
    Option TaskGraph := do
  let from' := SourceType.process threadId
  let tg ← addVertex tg from'
  let to' := SourceType.process owner
  let tg := tg.modifyLock idx fun e => { e with degress := e.degress + 1 }
  let tg ← addVertex tg to'
  if verifyEdge tg from' to' then return tg else addEdge tg from' to'

def lockBefore (tg : TaskGraph) (threadId lockaddr : UInt64) : Option TaskGraph :=
  (List.range tg.lockidx).foldlM (fun tg idx => do
    let e ← tg.locklist[idx]?
    if e.lockId = lockaddr then recordWait tg threadId idx e.id else return tg) tg

/-- The guarded insertion of `lock_before`. -/
def insertEdge (tg : TaskGraph) (from' to' : SourceType) : Option TaskGraph := do
  let tg ← addVertex tg from'
  let tg ← addVertex tg to'
  if verifyEdge tg from' to' then return tg else addEdge tg from' to'

/-- The guarded removal of `lock_after`. -/
def dropEdge (tg : TaskGraph) (from' to' : SourceType) : TaskGraph :=
  if verifyEdge tg from' to' then removeEdge tg from' to' else tg

/-- The removal of an edge in `lock_after`. -/
def dropWait (tg : TaskGraph) (threadId owner : UInt64) : TaskGraph :=
  dropEdge tg (.process threadId) (.process owner)

theorem addVertex_modifyLock (tg : TaskGraph) (s : SourceType) (idx : ℕ)
    (f : SourceType → SourceType) :
    addVertex (tg.modifyLock idx f) s = (addVertex tg s).map (·.modifyLock idx f) := by
  have hsearch : searchVertex (tg.modifyLock idx f) s = searchVertex tg s := rfl
  have hnum : (tg.modifyLock idx f).num = tg.num := rfl
  rw [addVertex, addVertex, hsearch, hnum]
  split
  · split <;> rfl
  · rfl

theorem addEdge_modifyLock (tg : TaskGraph) (from' to' : SourceType) (idx : ℕ)
    (f : SourceType → SourceType) :
    addEdge (tg.modifyLock idx f) from' to' = (addEdge tg from' to').map (·.modifyLock idx f) := by
  rw [addEdge, addEdge, addVertex_modifyLock]
  cases addVertex tg from' with
  | none => rfl
  | some tg₁ =>
      simp only [Option.bind_eq_bind, Option.map_some, Option.bind_some, addVertex_modifyLock]
      cases addVertex tg₁ to' with
      | none => rfl
      | some tg₂ =>
          have hsearch : searchVertex (tg₂.modifyLock idx f) from' = searchVertex tg₂ from' := rfl
          simp only [Option.map_some, Option.bind_some, hsearch]
          cases searchVertex tg₂ from' <;> rfl

/-- What `lock_before` does to the graph at a slot is the insertion of one edge. -/
theorem recordWait_eq (tg : TaskGraph) (threadId : UInt64) (idx : ℕ) (owner : UInt64) :
    recordWait tg threadId idx owner =
      (insertEdge tg (.process threadId) (.process owner)).map
        (·.modifyLock idx fun e => { e with degress := e.degress + 1 }) := by
  rw [recordWait, insertEdge]
  cases addVertex tg (.process threadId) with
  | none => rfl
  | some tg₁ =>
      simp only [Option.bind_eq_bind, Option.bind_some, addVertex_modifyLock]
      cases addVertex tg₁ (.process owner) with
      | none => rfl
      | some tg₂ =>
          simp only [Option.map_some, Option.bind_some, addEdge_modifyLock]
          have hverify : ∀ f, verifyEdge (tg₂.modifyLock idx f) (.process threadId)
              (.process owner) = verifyEdge tg₂ (.process threadId) (.process owner) :=
            fun _ => rfl
          rw [hverify]
          split <;> rfl

def lockAfter (tg : TaskGraph) (threadId lockaddr : UInt64) : Option TaskGraph := do
  match ← searchLock tg lockaddr with
  | none =>
    let eidx ← searchEmptyLock tg
    if eidx < tg.locklist.length then
      let tg := tg.modifyLock eidx fun e => { e with id := threadId, lockId := lockaddr }
      return { tg with lockidx := tg.lockidx + 1 }
    else none
  | some idx =>
    let e ← tg.locklist[idx]?
    let tg := tg.modifyLock idx fun e => { e with degress := e.degress - 1 }
    return (dropWait tg threadId e.id).modifyLock idx fun e => { e with id := threadId }

/-- For a mutex that is not recorded the source reads the slot `-1`. -/
def unlockAfter (tg : TaskGraph) (lockaddr : UInt64) : Option TaskGraph := do
  let idx ← (← searchLock tg lockaddr)
  let e ← tg.locklist[idx]?
  if e.degress = 0 then
    return tg.modifyLock idx fun e => { e with id := 0, lockId := 0 }
  else return tg

/-! ## The threads -/

/-- Where a thread is between the five pieces of the hooked calls. -/
inductive PC where
  | idle
  | waiting (lock : UInt64)
  | acquired (lock : UInt64)
  | released (lock : UInt64)
  deriving DecidableEq, Repr

/-- The graph, the threads, and who really holds the mutexes. -/
structure System where
  tg : TaskGraph
  pc : UInt64 → PC
  holder : UInt64 → Option UInt64

inductive Action where
  | lockBefore (thread lock : UInt64)
  | acquire (thread lock : UInt64)
  | lockAfter (thread lock : UInt64)
  | release (thread lock : UInt64)
  | unlockAfter (thread lock : UInt64)

def System.next (s : System) : Action → Option System
  | .lockBefore t l =>
    if s.pc t = .idle ∧ l ≠ 0 then
      (lockBefore s.tg t l).map fun tg =>
        { s with tg := tg, pc := Function.update s.pc t (.waiting l) }
    else none
  | .acquire t l =>
    if s.pc t = .waiting l ∧ s.holder l = none then
      some { s with
        pc := Function.update s.pc t (.acquired l)
        holder := Function.update s.holder l (some t) }
    else none
  | .lockAfter t l =>
    if s.pc t = .acquired l then
      (lockAfter s.tg t l).map fun tg => { s with tg := tg, pc := Function.update s.pc t .idle }
    else none
  | .release t l =>
    if s.pc t = .idle ∧ s.holder l = some t then
      some { s with
        pc := Function.update s.pc t (.released l)
        holder := Function.update s.holder l none }
    else none
  | .unlockAfter t l =>
    if s.pc t = .released l then
      (unlockAfter s.tg l).map fun tg => { s with tg := tg, pc := Function.update s.pc t .idle }
    else none

/-- What each step needs and does. -/
theorem System.next_cases {s s' : System} {action : Action} (h : s.next action = some s') :
    match action with
    | .lockBefore t l => s.pc t = .idle ∧ l ≠ 0 ∧ ∃ tg, Deadlock.lockBefore s.tg t l = some tg ∧
        s' = { s with tg := tg, pc := Function.update s.pc t (.waiting l) }
    | .acquire t l => s.pc t = .waiting l ∧ s.holder l = none ∧
        s' = { s with
          pc := Function.update s.pc t (.acquired l)
          holder := Function.update s.holder l (some t) }
    | .lockAfter t l => s.pc t = .acquired l ∧ ∃ tg, Deadlock.lockAfter s.tg t l = some tg ∧
        s' = { s with tg := tg, pc := Function.update s.pc t .idle }
    | .release t l => s.pc t = .idle ∧ s.holder l = some t ∧
        s' = { s with
          pc := Function.update s.pc t (.released l)
          holder := Function.update s.holder l none }
    | .unlockAfter t l => s.pc t = .released l ∧ ∃ tg, Deadlock.unlockAfter s.tg l = some tg ∧
        s' = { s with tg := tg, pc := Function.update s.pc t .idle } := by
  cases action with
  | lockBefore t l =>
    obtain ⟨⟨hpc, hl⟩, h⟩ := Option.ite_none_right_eq_some.mp h
    obtain ⟨tg, htg, rfl⟩ := Option.map_eq_some_iff.mp h
    exact ⟨hpc, hl, tg, htg, rfl⟩
  | acquire t l =>
    obtain ⟨⟨hpc, hholder⟩, h⟩ := Option.ite_none_right_eq_some.mp h
    exact ⟨hpc, hholder, (Option.some.inj h).symm⟩
  | lockAfter t l =>
    obtain ⟨hpc, h⟩ := Option.ite_none_right_eq_some.mp h
    obtain ⟨tg, htg, rfl⟩ := Option.map_eq_some_iff.mp h
    exact ⟨hpc, tg, htg, rfl⟩
  | release t l =>
    obtain ⟨⟨hpc, hholder⟩, h⟩ := Option.ite_none_right_eq_some.mp h
    exact ⟨hpc, hholder, (Option.some.inj h).symm⟩
  | unlockAfter t l =>
    obtain ⟨hpc, h⟩ := Option.ite_none_right_eq_some.mp h
    obtain ⟨tg, htg, rfl⟩ := Option.map_eq_some_iff.mp h
    exact ⟨hpc, tg, htg, rfl⟩

/-- A thread that still waits is not the one whose place has changed. -/
theorem waiting_of_update {pc : UInt64 → PC} {p : PC} {t x m : UInt64} (hp : ∀ l, p ≠ .waiting l)
    (h : Function.update pc t p x = .waiting m) : x ≠ t ∧ pc x = .waiting m := by
  have hxt : x ≠ t := by
    rintro rfl
    rw [Function.update_self] at h
    exact hp m h
  rw [Function.update_of_ne hxt] at h
  exact ⟨hxt, h⟩

/-- The system before the first hook. -/
def System.start : System := ⟨.start, fun _ => .idle, fun _ => none⟩

def System.Start (s : System) : Prop := s = .start

/-- `t` has finished `lock_before` on a mutex that `u` holds. -/
def System.WaitsFor (s : System) (t u : UInt64) : Prop :=
  ∃ l, s.pc t = .waiting l ∧ s.holder l = some u

/-- Some threads wait for each other in a circle. -/
def System.Deadlocked (s : System) : Prop := ∃ t, TransGen s.WaitsFor t t

/-- `locklist` has `u` as the owner of `l`. -/
def TaskGraph.Recorded (tg : TaskGraph) (l u : UInt64) : Prop :=
  ∃ e ∈ tg.locklist.take tg.lockidx, e.lockId = l ∧ e.id = u

instance (tg : TaskGraph) (l u : UInt64) : Decidable (tg.Recorded l u) :=
  inferInstanceAs (Decidable (∃ e ∈ _, _ ∧ _))

/-- The threads that `t` waits for in the graph. -/
def TaskGraph.waits (tg : TaskGraph) (t : UInt64) : List UInt64 :=
  (tg.out (SourceType.process t).key).map Prod.fst

end ServerKit.Deadlock
