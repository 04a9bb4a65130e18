import ServerKit.Deadlock.OwnerTable
import Mathlib.Data.Set.Card
import Mathlib.Data.Fintype.EquivFin

/-! # The owners of the mutexes, when a mutex changes hands in one step

A thread takes the real mutex and runs `lock_after` at once, and it gives it back and runs
`unlock_after` at once. `lock_before` is a step of its own. -/

namespace ServerKit.Deadlock

open ServerKit.Slots ServerKit.System

/-! ## The steps -/

inductive AtomicAction where
  | lockBefore (thread lock : UInt64)
  | acquire (thread lock : UInt64)
  | release (thread lock : UInt64)

def System.atomicNext (s : System) : AtomicAction → Option System
  | .lockBefore t l => s.next (.lockBefore t l)
  | .acquire t l => (s.next (.acquire t l)).bind (·.next (.lockAfter t l))
  | .release t l => (s.next (.release t l)).bind (·.next (.unlockAfter t l))

/-- A thread calls when it does not wait, takes a mutex that is free, and gives back one that
it holds. -/
def System.Enabled (s : System) : AtomicAction → Prop
  | .lockBefore t l => s.pc t = .idle ∧ l ≠ 0
  | .acquire t l => s.pc t = .waiting l ∧ s.holder l = none
  | .release t l => s.pc t = .idle ∧ s.holder l = some t

/-- `lockidx` is below `MAX`. -/
def System.LocksFit (s : System) (_ : AtomicAction) : Prop := s.tg.lockidx < MAX

instance (s : System) (a : AtomicAction) : Decidable (s.LocksFit a) :=
  inferInstanceAs (Decidable (_ < _))

/-- `lockidx` is below `MAX`, and so is the vertex table when `lock_before` adds to it. -/
def System.TablesFit (s : System) : AtomicAction → Prop
  | .lockBefore t l => s.tg.lockidx < MAX ∧
      (s.tg.entries l = [] ∨ s.tg.HasRoom (t :: (s.tg.entries l).map (·.id)))
  | .acquire _ _ | .release _ _ => s.tg.lockidx < MAX

/-- The threads that have run `lock_before` on a mutex and have not yet acquired it. -/
def System.waiting (s : System) (l : UInt64) : Set UInt64 := {t | s.pc t = .waiting l}

/-- The owner table tells who holds the mutexes. -/
structure System.OwnersRight (s : System) : Prop where
  held : ∀ l t, s.holder l = some t → (s.tg.entries l).map (·.id) = [t]
  single : ∀ l ≠ 0, (s.tg.entries l).length ≤ 1
  free : ∀ l ≠ 0, s.holder l = none → ∀ e ∈ s.tg.entries l, 1 ≤ e.degress
  counted : ∀ e ∈ s.tg.locklist, 0 ≤ e.degress ∧ e.degress ≤ (s.waiting e.lockId).ncard
  /-- The `search_lock` of the holder's `unlock_after` does not return `-1`. -/
  found : ∀ l t, s.holder l = some t → ∃ i, searchLock s.tg l = some (some i)

/-! ## One mutex -/

/-- All that there is of a mutex: its holder, its entry and the number of threads that wait. -/
structure LockView where
  holder : Option UInt64
  entry : Option Entry
  waiting : ℕ

/-- The entry of a held mutex names the holder, a free mutex with an entry has a counted thread,
and only threads that wait are counted. -/
structure LockView.Right (v : LockView) : Prop where
  held : ∀ t, v.holder = some t → ∃ degress, v.entry = some ⟨t, degress⟩
  free : v.holder = none → ∀ e, v.entry = some e → 1 ≤ e.degress
  counted : ∀ e, v.entry = some e → 0 ≤ e.degress ∧ e.degress ≤ v.waiting

section View

variable {holder : Option UInt64} {entry : Option Entry} {t : UInt64} {n : ℕ}

theorem LockView.Right.lockBefore (h : LockView.Right ⟨holder, entry, n⟩) :
    LockView.Right
      ⟨holder, entry.map fun e => { e with degress := e.degress + 1 }, n + 1⟩ := by
  refine ⟨?_, ?_, ?_⟩
  · intro t ht
    rcases h.held t ht with ⟨degress, rfl⟩
    exact ⟨degress + 1, rfl⟩
  · intro hfree e he
    rcases Option.map_eq_some_iff.mp he with ⟨e', he', rfl⟩
    have hone := h.free hfree e' he'
    dsimp only
    omega
  · intro e he
    rcases Option.map_eq_some_iff.mp he with ⟨e', he', rfl⟩
    have hcounted := h.counted e' he'
    dsimp only at hcounted ⊢
    omega

/-- The entry of a free mutex counts a thread, so that the count stays above zero. -/
theorem LockView.Right.acquire (h : LockView.Right ⟨none, entry, n + 1⟩) (t : UInt64) :
    LockView.Right ⟨some t, some ⟨t, entry.elim 0 (·.degress - 1)⟩, n⟩ := by
  refine ⟨?_, ?_, ?_⟩
  · intro u hu
    cases hu
    exact ⟨_, rfl⟩
  · intro hfree
    cases hfree
  · intro e he
    cases he
    cases entry with
    | none => exact ⟨le_rfl, Int.natCast_nonneg n⟩
    | some e =>
        have hone := h.free rfl e rfl
        have hcounted := h.counted e rfl
        dsimp only [Option.elim] at hcounted ⊢
        omega

theorem LockView.Right.release {e : Entry} (h : LockView.Right ⟨some t, some e, n⟩) :
    LockView.Right ⟨none, if e.degress = 0 then none else some e, n⟩ := by
  have hcounted := h.counted e rfl
  by_cases hzero : e.degress = 0
  · rw [if_pos hzero]
    refine ⟨?_, ?_, ?_⟩ <;> simp
  · rw [if_neg hzero]
    refine ⟨?_, ?_, ?_⟩
    · intro u hu
      cases hu
    · intro _ e' he
      cases he
      omega
    · intro e' he
      cases he
      exact hcounted

end View

/-! ## The step of the system -/

/-- The view of a mutex. -/
noncomputable def System.view (s : System) (l : UInt64) : LockView :=
  ⟨s.holder l, s.tg.entry l, (s.waiting l).ncard⟩

/-- What holds between the steps. -/
structure System.Tabled (s : System) : Prop where
  threads : s.tg.Threads
  slotted : s.tg.Slotted
  zero : s.holder 0 = none ∧ ∀ t, s.pc t ≠ .waiting 0
  right : ∀ l, (s.view l).Right

theorem finite_waiting (s : System) (l : UInt64) : (s.waiting l).Finite := by
  have hinj : Function.Injective fun t : UInt64 => (⟨t.toNat, t.toNat_lt⟩ : Fin (2 ^ 64)) := by
    intro t u htu
    exact UInt64.toNat_inj.mp (Fin.mk.inj htu)
  have hfinite : Finite UInt64 := Finite.of_injective _ hinj
  exact Set.toFinite _

theorem System.Tabled.start : System.start.Tabled := by
  refine ⟨.start, .start, ⟨rfl, ?_⟩, ?_⟩
  · intro t ht
    cases ht
  · intro l
    have hentry : (System.start.view l).entry = none := entry_start l
    refine ⟨?_, ?_, ?_⟩
    · intro t ht
      cases ht
    · intro _ e he
      rw [hentry] at he
      cases he
    · intro e he
      rw [hentry] at he
      cases he

/-! ## The threads that wait -/

section Step

variable {s s' : System} {t l : UInt64}

theorem mem_waiting {u : UInt64} : u ∈ s.waiting l ↔ s.pc u = .waiting l := Iff.rfl

/-- One thread more waits. -/
theorem ncard_waiting (hidle : s.pc t = .idle) (hwaits : s'.pc t = .waiting l)
    (hothers : ∀ u ≠ t, s'.pc u = s.pc u) (m : UInt64) :
    (s'.waiting m).ncard = (s.waiting m).ncard + if m = l then 1 else 0 := by
  have hmem : ∀ u, u ∈ s'.waiting m ↔ u = t ∧ m = l ∨ u ∈ s.waiting m := by
    intro u
    rw [mem_waiting, mem_waiting]
    by_cases hut : u = t
    · rw [hut, hwaits, hidle]
      simp [eq_comm]
    · rw [hothers u hut]
      simp [hut]
  by_cases hm : m = l
  · have hset : s'.waiting m = insert t (s.waiting m) := by
      ext u
      rw [hmem, Set.mem_insert_iff]
      simp [hm]
    have hnot : t ∉ s.waiting m := by
      intro ht
      rw [mem_waiting, hidle] at ht
      cases ht
    rw [hset, Set.ncard_insert_of_notMem hnot (finite_waiting s m), if_pos hm]
  · have hset : s'.waiting m = s.waiting m := by
      ext u
      rw [hmem]
      simp [hm]
    rw [hset, if_neg hm, Nat.add_zero]

/-! ## What a step does -/

theorem atomicNext_cases {a : AtomicAction} (h : s.atomicNext a = some s') :
    match a with
    | .lockBefore t l => s.pc t = .idle ∧ l ≠ 0 ∧ ∃ tg, lockBefore s.tg t l = some tg ∧
        s' = { s with tg := tg, pc := Function.update s.pc t (.waiting l) }
    | .acquire t l => s.pc t = .waiting l ∧ s.holder l = none ∧
        ∃ tg, lockAfter s.tg t l = some tg ∧
          s' = ⟨tg, Function.update s.pc t .idle, Function.update s.holder l (some t)⟩
    | .release t l => s.pc t = .idle ∧ s.holder l = some t ∧
        ∃ tg, unlockAfter s.tg l = some tg ∧
          s' = ⟨tg, Function.update s.pc t .idle, Function.update s.holder l none⟩ := by
  cases a with
  | lockBefore t l =>
      have hnext : s.next (.lockBefore t l) = some s' := h
      exact System.next_cases hnext
  | acquire t l =>
      rcases Option.bind_eq_some_iff.mp h with ⟨mid, hacquire, hafter⟩
      rcases System.next_cases hacquire with ⟨hpc, hfree, rfl⟩
      rcases System.next_cases hafter with ⟨-, tg, hrun, rfl⟩
      exact ⟨hpc, hfree, tg, hrun, by simp⟩
  | release t l =>
      rcases Option.bind_eq_some_iff.mp h with ⟨mid, hrelease, hafter⟩
      rcases System.next_cases hrelease with ⟨hpc, hheld, rfl⟩
      rcases System.next_cases hafter with ⟨-, tg, hrun, rfl⟩
      exact ⟨hpc, hheld, tg, hrun, by simp⟩

/-- A step of a thread with one mutex leaves the views of the others. -/
theorem System.Tabled.of_view (h : s.Tabled) (hthreads : s'.tg.Threads)
    (hslotted : s'.tg.Slotted) (hl : l ≠ 0) {x : Option Entry} {owner : Option UInt64}
    (hentry : s'.tg.entry = Function.update s.tg.entry l x)
    (hholder : s'.holder = Function.update s.holder l owner)
    (hpcs : ∀ u, s'.pc u = s.pc u ∨ s'.pc u = .idle ∨ s'.pc u = .waiting l)
    (hwaiting : ∀ m ≠ l, (s'.waiting m).ncard = (s.waiting m).ncard)
    (hright : LockView.Right ⟨owner, x, (s'.waiting l).ncard⟩) : s'.Tabled := by
  refine ⟨hthreads, hslotted, ⟨?_, ?_⟩, ?_⟩
  · rw [hholder, Function.update_of_ne (Ne.symm hl)]
    exact h.zero.1
  · intro u hu
    rcases hpcs u with hpc | hpc | hpc
    · exact h.zero.2 u (hpc.symm.trans hu)
    · rw [hpc] at hu
      cases hu
    · rw [hpc] at hu
      cases hu
      exact hl rfl
  · intro m
    rw [System.view, hentry, hholder]
    by_cases hm : m = l
    · rw [hm, Function.update_self, Function.update_self]
      exact hright
    · rw [Function.update_of_ne hm, Function.update_of_ne hm, hwaiting m hm]
      exact h.right m

theorem System.Tabled.lockBefore (h : s.Tabled) (hpc : s.pc t = .idle) (hl : l ≠ 0)
    {tg : TaskGraph} (hrun : Deadlock.lockBefore s.tg t l = some tg) :
    System.Tabled { s with tg := tg, pc := Function.update s.pc t (.waiting l) } := by
  rcases lockBefore_entry h.slotted hl hrun with ⟨hslotted, -, hentry⟩
  let s' : System := { s with tg := tg, pc := Function.update s.pc t (.waiting l) }
  have hcard : ∀ m, (s'.waiting m).ncard = (s.waiting m).ncard + if m = l then 1 else 0 :=
    ncard_waiting hpc (Function.update_self t (PC.waiting l) s.pc)
      (fun u hu => Function.update_of_ne hu (PC.waiting l) s.pc)
  refine h.of_view (lockBefore_spec h.threads hrun).1 hslotted hl hentry
    (Function.update_eq_self l s.holder).symm ?_ ?_ ?_
  · intro u
    by_cases hu : u = t
    · rw [hu]
      exact Or.inr (Or.inr (Function.update_self t _ _))
    · exact Or.inl (Function.update_of_ne hu _ _)
  · intro m hm
    rw [hcard m, if_neg hm, Nat.add_zero]
  · rw [hcard l, if_pos rfl]
    exact (h.right l).lockBefore

theorem System.Tabled.acquire (h : s.Tabled) (hpc : s.pc t = .waiting l)
    (hfree : s.holder l = none) {tg : TaskGraph} (hrun : lockAfter s.tg t l = some tg) :
    System.Tabled ⟨tg, Function.update s.pc t .idle, Function.update s.holder l (some t)⟩ := by
  have hl : l ≠ 0 := by
    intro hl
    exact h.zero.2 t (hl ▸ hpc)
  rcases lockAfter_entry h.slotted hl hrun with ⟨hslotted, hentry⟩
  let s' : System := ⟨tg, Function.update s.pc t .idle, Function.update s.holder l (some t)⟩
  have hcard : ∀ m, (s.waiting m).ncard = (s'.waiting m).ncard + if m = l then 1 else 0 :=
    ncard_waiting (Function.update_self t PC.idle s.pc) hpc
      (fun u hu => (Function.update_of_ne hu PC.idle s.pc).symm)
  refine h.of_view (lockAfter_spec h.threads hrun).1 hslotted hl hentry rfl ?_ ?_ ?_
  · intro u
    by_cases hu : u = t
    · rw [hu]
      exact Or.inr (Or.inl (Function.update_self t _ _))
    · exact Or.inl (Function.update_of_ne hu _ _)
  · intro m hm
    rw [hcard m, if_neg hm, Nat.add_zero]
  · have hright := h.right l
    rw [System.view, hfree, hcard l, if_pos rfl] at hright
    exact hright.acquire t

theorem System.Tabled.release (h : s.Tabled) (hpc : s.pc t = .idle)
    (hheld : s.holder l = some t) :
    ∃ tg, unlockAfter s.tg l = some tg ∧
      System.Tabled ⟨tg, Function.update s.pc t .idle, Function.update s.holder l none⟩ := by
  have hl : l ≠ 0 := by
    intro hl
    rw [hl, h.zero.1] at hheld
    cases hheld
  have hfound : ∃ degress, s.tg.entry l = some ⟨t, degress⟩ := (h.right l).held t hheld
  rcases hfound with ⟨degress, hfound⟩
  rcases unlockAfter_entry h.slotted hfound with ⟨tg, hrun, hslotted, -, hentry⟩
  have hpcs : Function.update s.pc t .idle = s.pc := by
    rw [← hpc, Function.update_eq_self]
  refine ⟨tg, hrun, ?_⟩
  rw [hpcs]
  refine h.of_view (unlockAfter_spec h.threads hrun).1 hslotted hl hentry rfl
    (fun u => Or.inl rfl) (fun m _ => rfl) ?_
  have hright := h.right l
  rw [System.view, hheld, hfound] at hright
  exact hright.release

/-- Every enabled step with room in the tables stays inside of them. -/
theorem System.Tabled.exists_atomicNext (h : s.Tabled) {a : AtomicAction} (henabled : s.Enabled a)
    (hfits : s.TablesFit a) : ∃ s', s.atomicNext a = some s' := by
  cases a with
  | lockBefore t l =>
      have hcond : s.pc t = .idle ∧ l ≠ 0 := henabled
      rcases exists_lockBefore h.slotted h.threads.toWF hfits.1.le hfits.2 with ⟨tg, hrun, -⟩
      refine ⟨{ s with tg := tg, pc := Function.update s.pc t (.waiting l) }, ?_⟩
      rw [System.atomicNext, System.next, if_pos hcond, hrun, Option.map_some]
  | acquire t l =>
      have hcond : s.pc t = .waiting l ∧ s.holder l = none := henabled
      rcases exists_lockAfter (t := t) (l := l) h.slotted hfits with ⟨tg, hrun⟩
      refine ⟨⟨tg, Function.update s.pc t .idle, Function.update s.holder l (some t)⟩, ?_⟩
      rw [System.atomicNext, System.next, if_pos hcond, Option.bind_some, System.next,
        if_pos (Function.update_self t _ _), hrun, Option.map_some]
      simp
  | release t l =>
      have hcond : s.pc t = .idle ∧ s.holder l = some t := henabled
      rcases h.release hcond.1 hcond.2 with ⟨tg, hrun, -⟩
      refine ⟨⟨tg, Function.update s.pc t .idle, Function.update s.holder l none⟩, ?_⟩
      rw [System.atomicNext, System.next, if_pos hcond, Option.bind_some, System.next,
        if_pos (Function.update_self t _ _), hrun, Option.map_some]
      simp

theorem System.Tabled.atomicNext (h : s.Tabled) {a : AtomicAction}
    (hnext : s.atomicNext a = some s') : s'.Tabled := by
  cases a with
  | lockBefore t l =>
      rcases atomicNext_cases hnext with ⟨hpc, hl, tg, hrun, rfl⟩
      exact h.lockBefore hpc hl hrun
  | acquire t l =>
      rcases atomicNext_cases hnext with ⟨hpc, hfree, tg, hrun, rfl⟩
      exact h.acquire hpc hfree hrun
  | release t l =>
      rcases atomicNext_cases hnext with ⟨hpc, hheld, tg, hrun, rfl⟩
      rcases h.release hpc hheld with ⟨tg', hrun', htabled⟩
      rw [hrun] at hrun'
      cases hrun'
      exact htabled

theorem System.Tabled.ownersRight (h : s.Tabled) : s.OwnersRight := by
  -- a slot in use is the entry of its mutex
  have hentry : ∀ {l : UInt64} {e : SourceType}, l ≠ 0 → e ∈ s.tg.locklist → e.lockId = l →
      s.tg.entry l = some ⟨e.id, e.degress⟩ := by
    intro l e hl hmem hlock
    rw [entry_of_ne hl, (h.slotted.distinct.lookup_eq_some_iff hl).mpr ⟨hmem, hlock⟩,
      Option.map_some]
  have hheld : ∀ {l t : UInt64}, s.holder l = some t →
      l ≠ 0 ∧ ∃ degress, s.tg.entry l = some ⟨t, degress⟩ := by
    intro l t ht
    refine ⟨?_, (h.right l).held t ht⟩
    intro hl
    rw [hl, h.zero.1] at ht
    cases ht
  refine ⟨?_, ?_, ?_, ?_, ?_⟩
  · intro l t ht
    rcases hheld ht with ⟨hl, degress, hfound⟩
    rw [entry_of_ne hl, Option.map_eq_some_iff] at hfound
    rcases hfound with ⟨e, he, heq⟩
    rw [h.slotted.entries_eq hl, he, Option.toList_some, List.map_singleton]
    exact congrArg (fun entry => [entry.owner]) heq
  · intro l hl
    rw [h.slotted.entries_eq hl]
    cases lookup SourceType.lockId s.tg.locklist l <;> simp
  · intro l hl hfree e he
    rw [h.slotted.entries_eq hl, Option.mem_toList] at he
    exact (h.right l).free hfree _ (hentry hl (lookup_mem he) (lookup_key he))
  · intro e he
    by_cases hl : e.lockId = 0
    · rw [h.slotted.empty e he hl]
      exact ⟨le_rfl, Int.natCast_nonneg _⟩
    · exact (h.right e.lockId).counted _ (hentry hl he rfl)
  · intro l t ht
    rcases (hheld ht).2 with ⟨degress, hfound⟩
    rcases h.slotted.searchLock hfound with ⟨i, e, hsearch, -⟩
    exact ⟨i, hsearch⟩

end Step

/-! ## Whole runs -/

/-- **The owner table.** In every run that does not fill the tables, the owner table is right
between the steps, and no enabled step leaves a table. -/
theorem ownersRight_of_reachable {s : System}
    (h : Reachable System.atomicNext System.Start System.TablesFit s) :
    s.OwnersRight ∧ ∀ a, s.Enabled a → s.TablesFit a → ∃ s', s.atomicNext a = some s' := by
  have htabled : s.Tabled := by
    refine h.invariant ?_ ?_
    · intro s hs
      exact hs ▸ .start
    · intro s s' a hs _ hnext
      exact hs.atomicNext hnext
  exact ⟨htabled.ownersRight, fun a => htabled.exists_atomicNext⟩

instance (tg : TaskGraph) (threads : List UInt64) : Decidable (tg.HasRoom threads) :=
  inferInstanceAs (Decidable (_ ≤ _))

instance (s : System) : ∀ a, Decidable (s.TablesFit a)
  | .lockBefore _ _ => inferInstanceAs (Decidable (_ ∧ (_ ∨ _)))
  | .acquire _ _ | .release _ _ => inferInstanceAs (Decidable (_ < _))

/-- A mutex is handed on to a thread that waits, while another thread waits that has come when
the mutex had no entry. -/
def handOn : List AtomicAction :=
  [.lockBefore 1 7, .lockBefore 2 7, .acquire 1 7, .lockBefore 3 7, .release 1 7, .acquire 2 7]

theorem ownersRight_of_reachable_handOn :
    ∃ s, exec System.atomicNext System.start handOn = some s ∧ s.holder 7 = some 2 ∧
      s.OwnersRight ∧ ∀ a, s.Enabled a → s.TablesFit a → ∃ s', s.atomicNext a = some s' := by
  have hadmits : Admits System.atomicNext System.TablesFit System.start handOn := by
    decide +kernel
  have hrun : (exec System.atomicNext System.start handOn).map (·.holder 7) = some (some 2) := by
    decide +kernel
  rcases Option.map_eq_some_iff.mp hrun with ⟨s, hexec, hholder⟩
  exact ⟨s, hexec, hholder, ownersRight_of_reachable (reachable_of_exec rfl hadmits hexec)⟩

/-- A hundred threads want a mutex, and one of them gets it. -/
def crowd : List AtomicAction :=
  [.lockBefore 1 7, .acquire 1 7] ++ (List.range 99).map fun i => .lockBefore (.ofNat (i + 2)) 7

/-- `lock_before` adds no entry, however many threads run it. -/
theorem admits_lockBefore {s : System} (hfits : s.tg.lockidx < MAX) (l : UInt64)
    (thread : ℕ → UInt64) (is : List ℕ) :
    Admits System.atomicNext System.LocksFit s (is.map fun i => .lockBefore (thread i) l) := by
  induction is generalizing s with
  | nil => trivial
  | cons i is ih =>
      refine ⟨hfits, ?_⟩
      intro s' hnext
      have hnext : s.next (.lockBefore (thread i) l) = some s' := hnext
      rcases System.next_cases hnext with ⟨-, -, tg, hbefore, rfl⟩
      apply ih
      rw [(lockBefore_loop_locks List.nodup_range hbefore).2]
      exact hfits

/-- The next thread that comes is one too many for the vertex table. -/
theorem crowd_overflows :
    ∃ s, Reachable System.atomicNext System.Start System.LocksFit s ∧ s.tg.lockidx = 1 ∧
      s.Enabled (.lockBefore 101 7) ∧ s.atomicNext (.lockBefore 101 7) = none := by
  have hfirst : (exec System.atomicNext System.start [.lockBefore 1 7, .acquire 1 7]).map
      (·.tg.lockidx) = some 1 := by
    decide +kernel
  have hadmits : Admits System.atomicNext System.LocksFit System.start crowd := by
    apply admits_append (by decide +kernel)
    intro s hs
    rw [hs] at hfirst
    have hidx : s.tg.lockidx = 1 := Option.some.inj hfirst
    apply admits_lockBefore
    rw [hidx]
    decide
  have hrun : (exec System.atomicNext System.start crowd).map (fun s =>
      (s.tg.lockidx, s.pc 101, (s.atomicNext (.lockBefore 101 7)).isNone)) =
        some (1, .idle, true) := by
    decide +kernel
  rcases Option.map_eq_some_iff.mp hrun with ⟨s, hexec, hs⟩
  have hidx : s.tg.lockidx = 1 := (Prod.mk.inj hs).1
  have hrest := Prod.mk.inj (Prod.mk.inj hs).2
  refine ⟨s, reachable_of_exec rfl hadmits hexec, hidx, ⟨hrest.1, by decide⟩, ?_⟩
  exact Option.isNone_iff_eq_none.mp hrest.2

end ServerKit.Deadlock
