import ServerKit.Deadlock.OwnerTable

/-! # The late `unlock_after`

`unlock_after` runs when the real mutex is free again, so that other threads may have taken it
in the meantime. -/

namespace ServerKit.Deadlock

open ServerKit.Slots ServerKit.System

/-- `unlock_after` removes the entry of a mutex only if no other thread holds the mutex, or has
released it and not yet run its own `unlock_after`. -/
def System.ClearsAlone (s : System) : Action → Prop
  | .unlockAfter t l => ∀ e, s.tg.entry l = some e → e.degress = 0 →
      ∀ u ≠ t, s.holder l ≠ some u ∧ s.pc u ≠ .released l
  | .lockBefore _ _ | .acquire _ _ | .lockAfter _ _ | .release _ _ => True

/-- The mutex that a thread is at, between the pieces of the hooked calls. -/
def PC.lock : PC → Option UInt64
  | .idle => none
  | .waiting l | .acquired l | .released l => some l

/-- A mutex keeps its entry from the end of `lock_after` on until `unlock_after`. -/
structure System.Kept (s : System) : Prop where
  threads : s.tg.Threads
  slotted : s.tg.Slotted
  zero : ∀ t, (s.pc t).lock ≠ some 0
  held : ∀ l t, s.holder l = some t → s.pc t = .acquired l ∨ (s.tg.entry l).isSome
  released : ∀ l t, s.pc t = .released l → (s.tg.entry l).isSome ∧ s.holder l ≠ some t

section Step

variable {s s' : System} {t l : UInt64}

theorem System.Kept.start : System.start.Kept := by
  refine ⟨.start, .start, ?_, ?_, ?_⟩
  · intro t ht
    cases ht
  · intro l t ht
    cases ht
  · intro l t ht
    cases ht

/-- Another thread is where it was. -/
theorem pc_of_update {p q : PC} {pc : UInt64 → PC} {u : UInt64}
    (h : Function.update pc t p u = q) (hp : p ≠ q) : u ≠ t ∧ pc u = q := by
  have hut : u ≠ t := by
    intro hut
    rw [hut, Function.update_self] at h
    exact hp h
  rw [Function.update_of_ne hut] at h
  exact ⟨hut, h⟩

theorem lock_update {p : PC} {pc : UInt64 → PC} (h : ∀ u, (pc u).lock ≠ some 0)
    (hp : p.lock ≠ some 0) (u : UInt64) : (Function.update pc t p u).lock ≠ some 0 := by
  by_cases hut : u = t
  · rw [hut, Function.update_self]
    exact hp
  · rw [Function.update_of_ne hut]
    exact h u

theorem System.Kept.lockBefore (h : s.Kept) (hpc : s.pc t = .idle) (hl : l ≠ 0) {tg : TaskGraph}
    (hrun : Deadlock.lockBefore s.tg t l = some tg) :
    System.Kept { s with tg := tg, pc := Function.update s.pc t (.waiting l) } := by
  rcases lockBefore_entry h.slotted hl hrun with ⟨hslotted, -, hentry⟩
  have hsome : ∀ m, (s.tg.entry m).isSome → (tg.entry m).isSome := by
    intro m hm
    rw [hentry]
    by_cases hml : m = l
    · rw [hml, Function.update_self, Option.isSome_map]
      exact hml ▸ hm
    · rw [Function.update_of_ne hml]
      exact hm
  refine ⟨(lockBefore_spec h.threads hrun).1, hslotted, ?_, ?_, ?_⟩
  · apply lock_update h.zero
    simpa [PC.lock] using hl
  · intro m u hu
    rcases h.held m u hu with hacquired | hm
    · have hut : u ≠ t := by
        intro hut
        rw [hut, hpc] at hacquired
        cases hacquired
      exact Or.inl ((Function.update_of_ne hut _ _).trans hacquired)
    · exact Or.inr (hsome m hm)
  · intro m u hu
    rcases pc_of_update hu (by simp) with ⟨-, hu⟩
    exact ⟨hsome m (h.released m u hu).1, (h.released m u hu).2⟩

theorem System.Kept.acquire (h : s.Kept) (hpc : s.pc t = .waiting l) :
    System.Kept { s with
      pc := Function.update s.pc t (.acquired l)
      holder := Function.update s.holder l (some t) } := by
  refine ⟨h.threads, h.slotted, ?_, ?_, ?_⟩
  · apply lock_update h.zero
    have hzero := h.zero t
    rw [hpc] at hzero
    exact hzero
  · intro m u hu
    by_cases hml : m = l
    · have heq : some t = some u := by
        rw [← hu, hml]
        exact (Function.update_self l (some t) s.holder).symm
      cases heq
      rw [hml]
      exact Or.inl (Function.update_self t _ s.pc)
    · have hold : s.holder m = some u := (Function.update_of_ne hml _ _).symm.trans hu
      rcases h.held m u hold with hacquired | hm
      · have hut : u ≠ t := by
          intro hut
          rw [hut, hpc] at hacquired
          cases hacquired
        exact Or.inl ((Function.update_of_ne hut _ _).trans hacquired)
      · exact Or.inr hm
  · intro m u hu
    rcases pc_of_update hu (by simp) with ⟨hut, hu⟩
    refine ⟨(h.released m u hu).1, ?_⟩
    intro hheld
    by_cases hml : m = l
    · have heq : some t = some u := by
        rw [← hheld, hml]
        exact (Function.update_self l (some t) s.holder).symm
      cases heq
      exact hut rfl
    · exact (h.released m u hu).2 ((Function.update_of_ne hml _ _).symm.trans hheld)

theorem System.Kept.lockAfter (h : s.Kept) (hpc : s.pc t = .acquired l) {tg : TaskGraph}
    (hrun : Deadlock.lockAfter s.tg t l = some tg) :
    System.Kept { s with tg := tg, pc := Function.update s.pc t .idle } := by
  have hl : l ≠ 0 := by
    intro hl
    have hzero := h.zero t
    rw [hpc, hl] at hzero
    exact hzero rfl
  rcases lockAfter_entry h.slotted hl hrun with ⟨hslotted, hentry⟩
  have hsome : ∀ m, m = l ∨ (s.tg.entry m).isSome → (tg.entry m).isSome := by
    intro m hm
    rw [hentry]
    by_cases hml : m = l
    · rw [hml, Function.update_self]
      rfl
    · rw [Function.update_of_ne hml]
      exact hm.resolve_left hml
  refine ⟨(lockAfter_spec h.threads hrun).1, hslotted, lock_update h.zero (by simp [PC.lock]), ?_,
    ?_⟩
  · intro m u hu
    rcases h.held m u hu with hacquired | hm
    · by_cases hut : u = t
      · rw [hut, hpc] at hacquired
        cases hacquired
        exact Or.inr (hsome l (Or.inl rfl))
      · exact Or.inl ((Function.update_of_ne hut _ _).trans hacquired)
    · exact Or.inr (hsome m (Or.inr hm))
  · intro m u hu
    rcases pc_of_update hu (by simp) with ⟨-, hu⟩
    exact ⟨hsome m (Or.inr (h.released m u hu).1), (h.released m u hu).2⟩

theorem System.Kept.release (h : s.Kept) (hpc : s.pc t = .idle) (hheld : s.holder l = some t) :
    System.Kept { s with
      pc := Function.update s.pc t (.released l)
      holder := Function.update s.holder l none } := by
  have hsome : (s.tg.entry l).isSome := by
    rcases h.held l t hheld with hacquired | hsome
    · rw [hpc] at hacquired
      cases hacquired
    · exact hsome
  -- a mutex that is held after the release is another one, with the same holder
  have hholder : ∀ m u, Function.update s.holder l none m = some u →
      m ≠ l ∧ s.holder m = some u := by
    intro m u hu
    have hml : m ≠ l := by
      intro hml
      rw [hml, Function.update_self] at hu
      cases hu
    rw [Function.update_of_ne hml] at hu
    exact ⟨hml, hu⟩
  refine ⟨h.threads, h.slotted, ?_, ?_, ?_⟩
  · apply lock_update h.zero
    intro hzero
    rw [Option.some.inj hzero, entry_zero] at hsome
    cases hsome
  · intro m u hu
    rcases h.held m u (hholder m u hu).2 with hacquired | hm
    · have hut : u ≠ t := by
        intro hut
        rw [hut, hpc] at hacquired
        cases hacquired
      exact Or.inl ((Function.update_of_ne hut _ _).trans hacquired)
    · exact Or.inr hm
  · intro m u hu
    by_cases hut : u = t
    · have hml : PC.released l = .released m := by
        rw [← hu, hut]
        exact (Function.update_self t (PC.released l) s.pc).symm
      cases hml
      exact ⟨hsome, fun hm => (hholder l u hm).1 rfl⟩
    · have hold : s.pc u = .released m := (Function.update_of_ne hut _ _).symm.trans hu
      exact ⟨(h.released m u hold).1, fun hm => (h.released m u hold).2 (hholder m u hm).2⟩

theorem System.Kept.unlockAfter (h : s.Kept) (hpc : s.pc t = .released l)
    (hguard : s.ClearsAlone (.unlockAfter t l)) {tg : TaskGraph}
    (hrun : Deadlock.unlockAfter s.tg l = some tg) :
    System.Kept { s with tg := tg, pc := Function.update s.pc t .idle } := by
  rcases Option.isSome_iff_exists.mp (h.released l t hpc).1 with ⟨e, he⟩
  rcases unlockAfter_entry h.slotted he with ⟨tg', hrun', hslotted, -, hentry⟩
  rw [hrun] at hrun'
  cases hrun'
  -- an entry that another thread needs is kept
  have hsome : ∀ m u, u ≠ t → s.holder m = some u ∨ s.pc u = .released m →
      (s.tg.entry m).isSome → (tg.entry m).isSome := by
    intro m u hut hneeds hm
    rw [hentry]
    by_cases hml : m = l
    · rw [hml, Function.update_self]
      by_cases hzero : e.degress = 0
      · have halone := hguard e he hzero u hut
        rw [hml] at hneeds
        rcases hneeds with hneeds | hneeds
        · exact absurd hneeds halone.1
        · exact absurd hneeds halone.2
      · rw [if_neg hzero]
        rfl
    · rw [Function.update_of_ne hml]
      exact hm
  refine ⟨(unlockAfter_spec h.threads hrun).1, hslotted, lock_update h.zero (by simp [PC.lock]), ?_,
    ?_⟩
  · intro m u hu
    rcases h.held m u hu with hacquired | hm
    · have hut : u ≠ t := by
        intro hut
        rw [hut, hpc] at hacquired
        cases hacquired
      exact Or.inl ((Function.update_of_ne hut _ _).trans hacquired)
    · by_cases hut : u = t
      · have hml : m ≠ l := by
          intro hml
          rw [hml, hut] at hu
          exact (h.released l t hpc).2 hu
        refine Or.inr ?_
        show (tg.entry m).isSome
        rw [hentry, Function.update_of_ne hml]
        exact hm
      · exact Or.inr (hsome m u hut (Or.inl hu) hm)
  · intro m u hu
    rcases pc_of_update hu (by simp) with ⟨hut, hu⟩
    exact ⟨hsome m u hut (Or.inr hu) (h.released m u hu).1, (h.released m u hu).2⟩

theorem System.Kept.next (h : s.Kept) {action : Action} (hguard : s.ClearsAlone action)
    (hnext : s.next action = some s') : s'.Kept := by
  have hstep := System.next_cases hnext
  cases action with
  | lockBefore t l =>
      rcases hstep with ⟨hpc, hl, tg, hrun, rfl⟩
      exact h.lockBefore hpc hl hrun
  | acquire t l =>
      rcases hstep with ⟨hpc, -, rfl⟩
      exact h.acquire hpc
  | lockAfter t l =>
      rcases hstep with ⟨hpc, tg, hrun, rfl⟩
      exact h.lockAfter hpc hrun
  | release t l =>
      rcases hstep with ⟨hpc, hheld, rfl⟩
      exact h.release hpc hheld
  | unlockAfter t l =>
      rcases hstep with ⟨hpc, tg, hrun, rfl⟩
      exact h.unlockAfter hpc hguard hrun

end Step

/-! ## Whole runs -/

/-- **The late `unlock_after`.** In a run whose entries are removed by their last users, every
`unlock_after` finds the slot of its mutex. It takes no entry from another thread, which holds
the mutex or is about to run `unlock_after` itself, exactly when it meets the condition. -/
theorem unlockAfter_harmless_iff {s : System}
    (h : Reachable System.next System.Start System.ClearsAlone s) {t l : UInt64}
    (hpc : s.pc t = .released l) :
    ∃ i e tg, searchLock s.tg l = some (some i) ∧ s.tg.locklist[i]? = some e ∧
      unlockAfter s.tg l = some tg ∧
      (s.ClearsAlone (.unlockAfter t l) ↔
        (e.degress = 0 → ∀ u ≠ t, s.holder l ≠ some u) ∧
        ∀ u ≠ t, s.pc u = .released l → ∃ j, searchLock tg l = some (some j)) := by
  have hkept : s.Kept := by
    refine h.invariant ?_ ?_
    · intro s hs
      exact hs ▸ .start
    · intro s s' action hs hguard hnext
      exact hs.next hguard hnext
  rcases Option.isSome_iff_exists.mp (hkept.released l t hpc).1 with ⟨entry, hentry⟩
  rcases hkept.slotted.searchLock hentry with ⟨i, e, hsearch, -, he, -, rfl⟩
  rcases unlockAfter_entry hkept.slotted hentry with ⟨tg, hrun, hslotted, -, hentry'⟩
  refine ⟨i, e, tg, hsearch, he, hrun, ?_⟩
  constructor
  · intro halone
    refine ⟨fun hzero u hut => (halone _ hentry hzero u hut).1, ?_⟩
    intro u hut hu
    have hzero : e.degress ≠ 0 := by
      intro hzero
      exact (halone _ hentry hzero u hut).2 hu
    have hfound : tg.entry l = some ⟨e.id, e.degress⟩ := by
      rw [hentry', Function.update_self, if_neg hzero]
    rcases hslotted.searchLock hfound with ⟨j, -, hj, -⟩
    exact ⟨j, hj⟩
  · intro hharmless entry hfound hzero u hut
    rw [hentry] at hfound
    cases hfound
    refine ⟨hharmless.1 hzero u hut, ?_⟩
    intro hu
    rcases hharmless.2 u hut hu with ⟨j, hj⟩
    have hl : l ≠ 0 := by
      intro hl
      rw [hl, entry_zero] at hentry
      cases hentry
    rcases entry_of_searchLock_some hslotted hl hj with ⟨e', -, -, -, hfound⟩
    rw [hentry', Function.update_self, if_pos hzero] at hfound
    cases hfound

/-- The thread 2 takes the mutex before the `unlock_after` of the thread 1, while two threads
are counted. -/
def counted : List Action :=
  [.lockBefore 1 7, .acquire 1 7, .lockAfter 1 7, .lockBefore 2 7, .lockBefore 3 7,
    .release 1 7, .acquire 2 7, .unlockAfter 1 7, .lockAfter 2 7, .release 2 7]

theorem admits_counted : Admits System.next System.ClearsAlone System.start counted := by
  refine ⟨trivial, ?_⟩
  intro s hs
  cases hs
  refine ⟨trivial, ?_⟩
  intro s hs
  cases hs
  refine ⟨trivial, ?_⟩
  intro s hs
  cases hs
  refine ⟨trivial, ?_⟩
  intro s hs
  cases hs
  refine ⟨trivial, ?_⟩
  intro s hs
  cases hs
  refine ⟨trivial, ?_⟩
  intro s hs
  cases hs
  refine ⟨trivial, ?_⟩
  intro s hs
  cases hs
  refine ⟨?_, ?_⟩
  · intro e he hzero
    cases he
    cases hzero
  intro s hs
  cases hs
  refine ⟨trivial, ?_⟩
  intro s hs
  cases hs
  exact ⟨trivial, fun s hs => trivial⟩

theorem unlockAfter_harmless_iff_counted :
    ∃ s, exec System.next System.start counted = some s ∧
      ∃ i e tg, searchLock s.tg 7 = some (some i) ∧ s.tg.locklist[i]? = some e ∧
        unlockAfter s.tg 7 = some tg ∧
        (s.ClearsAlone (.unlockAfter 2 7) ↔
          (e.degress = 0 → ∀ u ≠ 2, s.holder 7 ≠ some u) ∧
          ∀ u ≠ 2, s.pc u = .released 7 → ∃ j, searchLock tg 7 = some (some j)) := by
  have hrun : ∃ s, exec System.next System.start counted = some s ∧ s.pc 2 = .released 7 :=
    ⟨_, rfl, rfl⟩
  rcases hrun with ⟨s, hexec, hpc⟩
  exact ⟨s, hexec, unlockAfter_harmless_iff (reachable_of_exec rfl admits_counted hexec) hpc⟩

/-- The thread 2 takes the mutex before the `unlock_after` of the thread 1, and is no longer
counted when that runs. -/
def overtaken : List Action :=
  [.lockBefore 1 7, .acquire 1 7, .lockAfter 1 7, .lockBefore 2 7, .release 1 7, .acquire 2 7,
    .lockAfter 2 7]

/-- The late `unlock_after` removes the entry of the thread 2, whose own `unlock_after` finds
none. -/
theorem overtaken_loses_entry :
    ∃ s₁ s₂ s₃, Reachable System.next System.Start anyStep s₁ ∧ s₁.holder 7 = some 2 ∧
      (s₁.tg.entries 7).map (·.id) = [2] ∧ s₁.next (.unlockAfter 1 7) = some s₂ ∧
      s₂.holder 7 = some 2 ∧ s₂.tg.entries 7 = [] ∧ s₂.next (.release 2 7) = some s₃ ∧
      s₃.pc 2 = .released 7 ∧ searchLock s₃.tg 7 = some none := by
  have hrun : ∃ s₁ s₂ s₃, exec System.next System.start overtaken = some s₁ ∧
      s₁.holder 7 = some 2 ∧ (s₁.tg.entries 7).map (·.id) = [2] ∧
      s₁.next (.unlockAfter 1 7) = some s₂ ∧ s₂.holder 7 = some 2 ∧ s₂.tg.entries 7 = [] ∧
      s₂.next (.release 2 7) = some s₃ ∧ s₃.pc 2 = .released 7 ∧
      searchLock s₃.tg 7 = some none :=
    ⟨_, _, _, rfl, rfl, rfl, rfl, rfl, rfl, rfl, rfl, rfl⟩
  rcases hrun with ⟨s₁, s₂, s₃, hexec, hrest⟩
  exact ⟨s₁, s₂, s₃, reachable_of_exec rfl (admits_anyStep _ _) hexec, hrest⟩

end ServerKit.Deadlock
