import ServerKit.Deadlock.Release
import Mathlib.Data.Set.Card

/-! # The bounds of the tables

A mutex that is held or waited for has one slot of `locklist` at most. `lock_after` counts a slot
more than once, however: when it takes one that `unlock_after` has emptied, too, it increments
`lockidx`. -/

namespace ServerKit.Deadlock

open ServerKit.Slots ServerKit.System

/-! ## The condition -/

def Action.thread : Action → UInt64
  | .lockBefore t _ | .acquire t _ | .lockAfter t _ | .release t _ | .unlockAfter t _ => t

/-- A thread calls one of the pieces when it is its turn. -/
def System.Ready (s : System) : Action → Prop
  | .lockBefore t l => s.pc t = .idle ∧ l ≠ 0
  | .acquire t l => s.pc t = .waiting l ∧ s.holder l = none
  | .lockAfter t l => s.pc t = .acquired l
  | .release t l => s.pc t = .idle ∧ s.holder l = some t
  | .unlockAfter t l => s.pc t = .released l

/-- `lock_after` puts a mutex into a slot that `unlock_after` has emptied. -/
def System.Reuses (s : System) : Action → Prop
  | .lockAfter _ l => searchLock s.tg l = some none ∧
      ∃ i < s.tg.lockidx, searchEmptyLock s.tg = some i
  | .lockBefore _ _ | .acquire _ _ | .release _ _ | .unlockAfter _ _ => False

/-- A thread holds a mutex, or is in one of the hooked calls for it. -/
def System.Uses (s : System) (t l : UInt64) : Prop :=
  s.holder l = some t ∨ (s.pc t).lock = some l

/-- `unlock_after` leaves the entry of a mutex only if another thread still uses it. -/
def System.ClearsLast (s : System) : Action → Prop
  | .unlockAfter t l => ∀ e, s.tg.entry l = some e → e.degress ≠ 0 → ∃ u ≠ t, s.Uses u l
  | .lockBefore _ _ | .acquire _ _ | .lockAfter _ _ | .release _ _ => True

/-- At most `MAX / 2` mutexes are held or waited for, and at most so many are between the two
pieces of `pthread_mutex_unlock`. -/
structure System.Few (s : System) : Prop where
  used : {l | ∃ t, s.holder l = some t ∨ s.pc t = .waiting l}.encard ≤ (MAX / 2 : ℕ)
  released : {l | ∃ t, s.pc t = .released l}.encard ≤ (MAX / 2 : ℕ)

/-- A step of one of the threads `T` under the condition. -/
structure System.Orderly (T : List UInt64) (s : System) (a : Action) : Prop where
  thread : a.thread ∈ T
  few : s.Few
  fresh : ¬ s.Reuses a
  alone : s.ClearsAlone a
  last : s.ClearsLast a

/-- The step stays inside of the tables, and a slot that is used again is not counted again. -/
def System.StaysBounded (s : System) (a : Action) : Prop :=
  ∃ s', s.next a = some s' ∧ s'.tg.lockidx ≤ MAX ∧ s'.tg.num ≤ MAX ∧
    (s.Reuses a → s'.tg.lockidx = s.tg.lockidx)

/-- What an orderly run keeps. -/
structure System.Bounded (T : List UInt64) (s : System) : Prop where
  kept : s.Kept
  acquired : ∀ t l, s.pc t = .acquired l → s.holder l = some t
  used : ∀ l, (s.tg.entry l).isSome → ∃ t, s.Uses t l
  owners : ∀ l e, s.tg.entry l = some e → e.owner ∈ T
  keys : s.tg.keys ⊆ T.map fun t => (SourceType.process t).key
  lockidx : s.tg.lockidx ≤ MAX

variable {T : List UInt64} {s s' : System} {tg tg' : TaskGraph} {t l : UInt64} {i : ℕ}

/-! ## The hooks -/

theorem entry_of_slot (h : tg.Slotted) (hl : l ≠ 0) {e : SourceType}
    (he : tg.locklist[i]? = some e) (hlock : e.lockId = l) :
    tg.entry l = some ⟨e.id, e.degress⟩ := by
  have hlookup := (h.distinct.lookup_eq_some_iff hl).mpr ⟨List.mem_of_getElem? he, hlock⟩
  rw [entry_of_ne hl, hlookup, Option.map_some]

theorem lockAfter_keys (hafter : lockAfter tg t l = some tg') : tg'.keys = tg.keys := by
  rcases Option.bind_eq_some_iff.mp hafter with ⟨found, -, hafter⟩
  cases found with
  | none =>
      rcases Option.bind_eq_some_iff.mp hafter with ⟨i, -, hafter⟩
      split at hafter <;> cases hafter
      rfl
  | some i =>
      rcases Option.bind_eq_some_iff.mp hafter with ⟨e, -, hafter⟩
      cases hafter
      show (dropWait _ t e.id).keys = tg.keys
      rw [dropWait, dropEdge]
      split
      · rw [removeEdge_keys]
        rfl
      · rfl

/-- A new entry counts, wherever it is put. -/
theorem lockAfter_lockidx (hafter : lockAfter tg t l = some tg') :
    tg'.lockidx = if searchLock tg l = some none then tg.lockidx + 1 else tg.lockidx := by
  rcases Option.bind_eq_some_iff.mp hafter with ⟨found, hsearch, hafter⟩
  cases found with
  | none =>
      rcases Option.bind_eq_some_iff.mp hafter with ⟨i, -, hafter⟩
      rw [if_pos hsearch]
      split at hafter <;> cases hafter
      rfl
  | some i =>
      rcases Option.bind_eq_some_iff.mp hafter with ⟨e, -, hafter⟩
      cases hafter
      rw [if_neg (by simp [hsearch])]
      exact (dropWait_locks _ _ _).2

theorem next_lockBefore (hpc : s.pc t = .idle) (hl : l ≠ 0)
    (hrun : lockBefore s.tg t l = some tg) : s.next (.lockBefore t l) =
      some ⟨tg, Function.update s.pc t (.waiting l), s.holder⟩ := by
  rw [System.next, if_pos ⟨hpc, hl⟩, hrun]
  rfl

theorem next_lockAfter (hpc : s.pc t = .acquired l) (hrun : lockAfter s.tg t l = some tg) :
    s.next (.lockAfter t l) = some ⟨tg, Function.update s.pc t .idle, s.holder⟩ := by
  rw [System.next, if_pos hpc, hrun]
  rfl

theorem next_unlockAfter (hpc : s.pc t = .released l) (hrun : unlockAfter s.tg l = some tg) :
    s.next (.unlockAfter t l) = some ⟨tg, Function.update s.pc t .idle, s.holder⟩ := by
  rw [System.next, if_pos hpc, hrun]
  rfl

theorem unlockAfter_keys (hafter : unlockAfter tg l = some tg') : tg'.keys = tg.keys := by
  rcases Option.bind_eq_some_iff.mp hafter with ⟨found, -, hafter⟩
  rcases Option.bind_eq_some_iff.mp hafter with ⟨i, -, hafter⟩
  rcases Option.bind_eq_some_iff.mp hafter with ⟨e, -, hafter⟩
  split at hafter <;> cases hafter <;> rfl

/-! ## Room for one more mutex -/

/-- The mutexes that a thread uses. -/
theorem System.Few.encard_le (h : s.Few) (hacquired : ∀ t l, s.pc t = .acquired l →
    s.holder l = some t) : {l | ∃ t, s.Uses t l}.encard ≤ (MAX : ℕ) := by
  have hsub : {l | ∃ t, s.Uses t l} ⊆ {l | ∃ t, s.holder l = some t ∨ s.pc t = .waiting l} ∪
      {l | ∃ t, s.pc t = .released l} := by
    rintro l ⟨t, hheld | hpc⟩
    · exact Or.inl ⟨t, Or.inl hheld⟩
    · cases hplace : s.pc t with
      | idle =>
          rw [hplace] at hpc
          cases hpc
      | waiting m =>
          rw [hplace] at hpc
          cases hpc
          exact Or.inl ⟨t, Or.inr hplace⟩
      | acquired m =>
          rw [hplace] at hpc
          cases hpc
          exact Or.inl ⟨t, Or.inl (hacquired t l hplace)⟩
      | released m =>
          rw [hplace] at hpc
          cases hpc
          exact Or.inr ⟨t, hplace⟩
  calc {l | ∃ t, s.Uses t l}.encard ≤ _ := Set.encard_le_encard hsub
    _ ≤ _ := Set.encard_union_le _ _
    _ ≤ (MAX / 2 : ℕ) + (MAX / 2 : ℕ) := add_le_add h.used h.released
    _ = (MAX : ℕ) := rfl

/-- If `lock_after` does not reuse a slot, then none is empty. -/
theorem System.Bounded.none_empty (h : s.Bounded T) (hfresh : ¬ s.Reuses (.lockAfter t l))
    (hsearch : searchLock s.tg l = some none) : scanLocks s.tg 0 = some none := by
  cases hscan : scanLocks s.tg 0 with
  | none => exact absurd hscan (h.kept.slotted.scanLocks_ne_none h.lockidx)
  | some found =>
      cases found with
      | none => rfl
      | some i =>
          refine absurd ⟨hsearch, i, (scanLocks_some hscan).1, ?_⟩ hfresh
          rw [searchEmptyLock, hscan]
          rfl

/-- If no slot is empty, then `locklist` is not full: the mutex that is to be recorded is used, and
all the recorded ones are. -/
theorem System.Bounded.lockidx_lt (h : s.Bounded T) (hfew : s.Few) (huses : s.Uses t l)
    (hsearch : searchLock s.tg l = some none) (hempty : scanLocks s.tg 0 = some none) :
    s.tg.lockidx < MAX := by
  have hslotted := h.kept.slotted
  have hslot : ∀ e ∈ s.tg.locklist.take s.tg.lockidx, e.lockId ≠ 0 ∧ e.lockId ≠ l ∧
      ∃ i : ℕ, s.tg.locklist[i]? = some e := by
    intro e he
    rcases List.mem_take_iff_getElem.mp he with ⟨i, hi, rfl⟩
    have hget := List.getElem?_eq_getElem (by omega : i < s.tg.locklist.length)
    have hid := lockIds_getElem? hget
    refine ⟨fun hzero => ?_, fun heq => ?_, i, hget⟩
    · exact (scanLocks_none hempty).2 i (by omega) (hid.trans (congrArg some hzero))
    · exact (scanLocks_none hsearch).2 i (by omega) (hid.trans (congrArg some heq))
  have hlength : (s.tg.locklist.take s.tg.lockidx).length = s.tg.lockidx := by
    rw [List.length_take, hslotted.length]
    exact Nat.min_eq_left h.lockidx
  have hle : ((s.tg.locklist.take s.tg.lockidx).length : ℕ∞) ≤
      ({l | ∃ t, s.Uses t l} \ {l}).encard := by
    apply (hslotted.distinct.take s.tg.lockidx).length_le_encard fun e he => (hslot e he).1
    intro e he
    rcases hslot e he with ⟨hzero, hne, i, hget⟩
    refine ⟨h.used _ ?_, hne⟩
    rw [entry_of_slot hslotted hzero hget rfl]
    rfl
  have hmore : ((s.tg.lockidx + 1 : ℕ) : ℕ∞) ≤ (MAX : ℕ) := by
    calc ((s.tg.lockidx + 1 : ℕ) : ℕ∞) ≤ ({l | ∃ t, s.Uses t l} \ {l}).encard + 1 := by
          rw [Nat.cast_add, ← hlength]
          exact add_le_add_left hle 1
      _ = {l | ∃ t, s.Uses t l}.encard := Set.encard_sdiff_singleton_add_one ⟨t, huses⟩
      _ ≤ (MAX : ℕ) := hfew.encard_le h.acquired
  exact Nat.cast_le.mp hmore

/-! ## The steps -/

/-- A mutex stays in use as long as its thread does not give it back. -/
theorem System.Uses.update {u m : UInt64} (h : s.Uses u m)
    (hothers : ∀ v ≠ t, s'.pc v = s.pc v) (hholder : s.holder m = some u → s'.Uses u m)
    (hplace : (s.pc t).lock = some m → s'.Uses t m) : s'.Uses u m := by
  rcases h with hheld | hpc
  · exact hholder hheld
  · by_cases hut : u = t
    · subst hut
      exact hplace hpc
    · exact Or.inr (by rw [hothers u hut, hpc])

theorem acquired_of_update {p : PC} (h : ∀ t l, s.pc t = .acquired l → s.holder l = some t)
    (hp : ∀ l, p ≠ .acquired l) {u m : UInt64} (hu : Function.update s.pc t p u = .acquired m) :
    u ≠ t ∧ s.holder m = some u := by
  rcases pc_of_update hu (hp m) with ⟨hut, hu⟩
  exact ⟨hut, h u m hu⟩

/-- The owners and the threads are few enough for the vertex table. -/
theorem System.Bounded.exists_lockBefore (h : s.Bounded T) (hT : T.length ≤ MAX) (ht : t ∈ T)
    (hl : l ≠ 0) : ∃ tg, Deadlock.lockBefore s.tg t l = some tg ∧
      tg.keys ⊆ T.map fun t => (SourceType.process t).key := by
  have hloop : ∃ tg, Deadlock.lockBefore s.tg t l = some tg ∧ tg.WF ∧
      tg.keys ⊆ T.map fun t => (SourceType.process t).key := by
    apply exists_lockBefore_loop h.kept.threads.toWF h.keys ((List.length_map _).trans_le hT)
    intro i hi
    have hlt : i < s.tg.locklist.length := by
      rw [h.kept.slotted.length]
      exact (List.mem_range.mp hi).trans_le h.lockidx
    refine ⟨_, List.getElem?_eq_getElem hlt, fun hlock => ?_⟩
    have hentry := entry_of_slot h.kept.slotted hl (List.getElem?_eq_getElem hlt) hlock
    exact ⟨List.mem_map_of_mem ht, List.mem_map_of_mem (h.owners l _ hentry)⟩
  rcases hloop with ⟨tg, hbefore, -, hkeys⟩
  exact ⟨tg, hbefore, hkeys⟩

theorem System.Bounded.lockBefore (h : s.Bounded T) (hT : T.length ≤ MAX) (ht : t ∈ T)
    (hpc : s.pc t = .idle) (hl : l ≠ 0) (hrun : Deadlock.lockBefore s.tg t l = some tg) :
    System.Bounded T { s with tg := tg, pc := Function.update s.pc t (.waiting l) } := by
  rcases lockBefore_entry h.kept.slotted hl hrun with ⟨-, hidx, hentry⟩
  have hold : ∀ m e, tg.entry m = some e → ∃ e', s.tg.entry m = some e' ∧ e'.owner = e.owner := by
    intro m e he
    rw [hentry] at he
    by_cases hml : m = l
    · rw [hml, Function.update_self] at he
      rcases Option.map_eq_some_iff.mp he with ⟨e', he', rfl⟩
      exact ⟨e', hml ▸ he', rfl⟩
    · rw [Function.update_of_ne hml] at he
      exact ⟨e, he, rfl⟩
  refine ⟨h.kept.lockBefore hpc hl hrun, ?_, ?_, ?_, ?_, ?_⟩
  · intro u m hu
    exact (acquired_of_update h.acquired (by simp) hu).2
  · intro m hm
    rcases Option.isSome_iff_exists.mp hm with ⟨e, he⟩
    rcases hold m e he with ⟨e', he', -⟩
    rcases h.used m (Option.isSome_of_eq_some he') with ⟨u, hu⟩
    refine ⟨u, hu.update (t := t) (fun v hv => Function.update_of_ne hv _ _) Or.inl ?_⟩
    intro hlock
    rw [hpc] at hlock
    cases hlock
  · intro m e he
    rcases hold m e he with ⟨e', he', howner⟩
    exact howner ▸ h.owners m e' he'
  · rcases h.exists_lockBefore hT ht hl with ⟨tg', hrun', hkeys⟩
    cases hrun.symm.trans hrun'
    exact hkeys
  · exact hidx.trans_le h.lockidx

theorem System.Bounded.acquire (h : s.Bounded T) (hpc : s.pc t = .waiting l)
    (hfree : s.holder l = none) :
    System.Bounded T { s with
      pc := Function.update s.pc t (.acquired l)
      holder := Function.update s.holder l (some t) } := by
  refine ⟨h.kept.acquire hpc, ?_, ?_, h.owners, h.keys, h.lockidx⟩
  · intro u m hu
    show Function.update s.holder l (some t) m = some u
    by_cases hut : u = t
    · subst hut
      have heq : PC.acquired l = .acquired m := by
        rw [← hu]
        exact (Function.update_self u (PC.acquired l) s.pc).symm
      cases heq
      exact Function.update_self _ _ _
    · have hold := h.acquired u m ((Function.update_of_ne hut _ _).symm.trans hu)
      have hml : m ≠ l := by
        rintro rfl
        rw [hfree] at hold
        cases hold
      rw [Function.update_of_ne hml]
      exact hold
  · intro m hm
    rcases h.used m hm with ⟨u, hu⟩
    refine ⟨u, hu.update (t := t) (fun v hv => Function.update_of_ne hv _ _) ?_ ?_⟩
    · intro hheld
      have hml : m ≠ l := by
        rintro rfl
        rw [hfree] at hheld
        cases hheld
      exact Or.inl ((Function.update_of_ne hml _ _).trans hheld)
    · intro hlock
      refine Or.inr ?_
      show (Function.update s.pc t (PC.acquired l) t).lock = some m
      rw [Function.update_self, ← hlock, hpc]
      rfl

theorem System.Bounded.lockAfter (h : s.Bounded T) (ht : t ∈ T) (hpc : s.pc t = .acquired l)
    (hfew : s.Few) (hfresh : ¬ s.Reuses (.lockAfter t l))
    (hrun : Deadlock.lockAfter s.tg t l = some tg) :
    System.Bounded T { s with tg := tg, pc := Function.update s.pc t .idle } := by
  have hl : l ≠ 0 := by
    rintro rfl
    exact h.kept.zero t (by rw [hpc]; rfl)
  rcases lockAfter_entry h.kept.slotted hl hrun with ⟨-, hentry⟩
  refine ⟨h.kept.lockAfter hpc hrun, ?_, ?_, ?_, ?_, ?_⟩
  · intro u m hu
    exact (acquired_of_update h.acquired (by simp) hu).2
  · intro m hm
    by_cases hml : m = l
    · exact ⟨t, Or.inl (hml ▸ h.acquired t l hpc)⟩
    · have hm' : (s.tg.entry m).isSome := by
        rw [← Function.update_of_ne hml _ s.tg.entry, ← hentry]
        exact hm
      rcases h.used m hm' with ⟨u, hu⟩
      refine ⟨u, hu.update (t := t) (fun v hv => Function.update_of_ne hv _ _) Or.inl ?_⟩
      intro hlock
      rw [hpc] at hlock
      exact absurd (Option.some.inj hlock).symm hml
  · intro m e he
    have he : tg.entry m = some e := he
    rw [hentry] at he
    by_cases hml : m = l
    · rw [hml, Function.update_self] at he
      cases he
      exact ht
    · rw [Function.update_of_ne hml] at he
      exact h.owners m e he
  · show tg.keys ⊆ _
    rw [lockAfter_keys hrun]
    exact h.keys
  · show tg.lockidx ≤ MAX
    rw [lockAfter_lockidx hrun]
    split
    · rename_i hsearch
      exact h.lockidx_lt hfew (Or.inl (h.acquired t l hpc)) hsearch (h.none_empty hfresh hsearch)
    · exact h.lockidx

theorem System.Bounded.release (h : s.Bounded T) (hpc : s.pc t = .idle)
    (hheld : s.holder l = some t) :
    System.Bounded T { s with
      pc := Function.update s.pc t (.released l)
      holder := Function.update s.holder l none } := by
  have hplace : (Function.update s.pc t (PC.released l) t).lock = some l := by
    rw [Function.update_self]
    rfl
  refine ⟨h.kept.release hpc hheld, ?_, ?_, h.owners, h.keys, h.lockidx⟩
  · intro u m hu
    rcases acquired_of_update h.acquired (by simp) hu with ⟨hut, hold⟩
    have hml : m ≠ l := by
      rintro rfl
      exact hut (Option.some.inj (hold.symm.trans hheld))
    exact (Function.update_of_ne hml _ _).trans hold
  · intro m hm
    by_cases hml : m = l
    · exact ⟨t, Or.inr (hml ▸ hplace)⟩
    · rcases h.used m hm with ⟨u, hu⟩
      refine ⟨u, hu.update (t := t) (fun v hv => Function.update_of_ne hv _ _) ?_ ?_⟩
      · intro hold
        exact Or.inl ((Function.update_of_ne hml _ _).trans hold)
      · intro hlock
        rw [hpc] at hlock
        cases hlock

theorem System.Bounded.unlockAfter (h : s.Bounded T) (hpc : s.pc t = .released l)
    (halone : s.ClearsAlone (.unlockAfter t l)) (hlast : s.ClearsLast (.unlockAfter t l))
    (hrun : Deadlock.unlockAfter s.tg l = some tg) :
    System.Bounded T { s with tg := tg, pc := Function.update s.pc t .idle } := by
  rcases Option.isSome_iff_exists.mp (h.kept.released l t hpc).1 with ⟨e, he⟩
  rcases unlockAfter_entry h.kept.slotted he with ⟨tg', hrun', -, hidx, hentry⟩
  cases hrun.symm.trans hrun'
  -- an entry that stays is as it was
  have hold : ∀ m e', tg.entry m = some e' → s.tg.entry m = some e' ∧
      (m = l → e.degress ≠ 0) := by
    intro m e' he'
    rw [hentry] at he'
    by_cases hml : m = l
    · rw [hml, Function.update_self] at he'
      split at he'
      · cases he'
      · rename_i hzero
        cases he'
        exact ⟨hml ▸ he, fun _ => hzero⟩
    · rw [Function.update_of_ne hml] at he'
      exact ⟨he', fun heq => absurd heq hml⟩
  refine ⟨h.kept.unlockAfter hpc halone hrun, ?_, ?_, ?_, ?_, ?_⟩
  · intro u m hu
    exact (acquired_of_update h.acquired (by simp) hu).2
  · intro m hm
    rcases Option.isSome_iff_exists.mp hm with ⟨e', he'⟩
    rcases hold m e' he' with ⟨he', hkept⟩
    by_cases hml : m = l
    · rcases hlast e he (hkept hml) with ⟨u, hut, hheld | hplace⟩
      · exact ⟨u, Or.inl (hml ▸ hheld)⟩
      · refine ⟨u, Or.inr ?_⟩
        rw [hml, ← hplace]
        exact congrArg PC.lock (Function.update_of_ne hut _ _)
    · rcases h.used m (Option.isSome_of_eq_some he') with ⟨u, hu⟩
      refine ⟨u, hu.update (t := t) (fun v hv => Function.update_of_ne hv _ _) Or.inl ?_⟩
      intro hlock
      rw [hpc] at hlock
      exact absurd (Option.some.inj hlock).symm hml
  · intro m e' he'
    exact h.owners m e' (hold m e' he').1
  · show tg.keys ⊆ _
    rw [unlockAfter_keys hrun]
    exact h.keys
  · exact hidx.trans_le h.lockidx

/-! ## Whole runs -/

theorem System.Bounded.start : System.start.Bounded T := by
  refine ⟨.start, ?_, ?_, ?_, List.nil_subset _, Nat.zero_le _⟩
  · intro t l ht
    cases ht
  · intro l hl
    have hnone : System.start.tg.entry l = none := entry_start l
    rw [hnone] at hl
    cases hl
  · intro l e he
    have hnone : System.start.tg.entry l = none := entry_start l
    rw [hnone] at he
    cases he

theorem System.Bounded.next (h : s.Bounded T) (hT : T.length ≤ MAX) {a : Action}
    (horderly : s.Orderly T a) (hnext : s.next a = some s') : s'.Bounded T := by
  obtain ⟨hthread, hfew, hfresh, halone, hlast⟩ := horderly
  have hstep := System.next_cases hnext
  cases a with
  | lockBefore t l =>
      rcases hstep with ⟨hpc, hl, tg, hrun, rfl⟩
      exact h.lockBefore hT hthread hpc hl hrun
  | acquire t l =>
      rcases hstep with ⟨hpc, hfree, rfl⟩
      exact h.acquire hpc hfree
  | lockAfter t l =>
      rcases hstep with ⟨hpc, tg, hrun, rfl⟩
      exact h.lockAfter hthread hpc hfew hfresh hrun
  | release t l =>
      rcases hstep with ⟨hpc, hheld, rfl⟩
      exact h.release hpc hheld
  | unlockAfter t l =>
      rcases hstep with ⟨hpc, tg, hrun, rfl⟩
      exact h.unlockAfter hpc halone hlast hrun

/-- No piece of the hooked calls leaves the tables, unless it reuses a slot. -/
theorem System.Bounded.exists_next (h : s.Bounded T) (hT : T.length ≤ MAX) {a : Action}
    (hthread : a.thread ∈ T) (hready : s.Ready a) (hfew : s.Few) (hfresh : ¬ s.Reuses a) :
    ∃ s', s.next a = some s' ∧ s'.tg.lockidx ≤ MAX ∧ s'.tg.num ≤ MAX := by
  have hthreads := h.kept.threads
  cases a with
  | lockBefore t l =>
      rcases h.exists_lockBefore hT hthread hready.2 with ⟨tg, hrun, -⟩
      have hidx := (lockBefore_entry h.kept.slotted hready.2 hrun).2.1
      refine ⟨_, next_lockBefore hready.1 hready.2 hrun, ?_,
        (lockBefore_spec hthreads hrun).1.small⟩
      exact hidx.trans_le h.lockidx
  | acquire t l =>
      exact ⟨_, if_pos hready, h.lockidx, hthreads.small⟩
  | lockAfter t l =>
      have huses : s.Uses t l := Or.inl (h.acquired t l hready)
      have hroom : searchLock s.tg l = some none → s.tg.lockidx < MAX := fun hsearch =>
        h.lockidx_lt hfew huses hsearch (h.none_empty hfresh hsearch)
      have hafter : ∃ tg, Deadlock.lockAfter s.tg t l = some tg := by
        apply exists_lockAfter_of_room h.kept.slotted h.lockidx
        intro hsearch i hi
        rcases exists_searchEmptyLock h.kept.slotted h.lockidx with ⟨j, hj, hempty⟩
        cases hi.symm.trans hempty
        exact hj.trans_lt (hroom hsearch)
      rcases hafter with ⟨tg, hrun⟩
      refine ⟨_, next_lockAfter hready hrun, ?_, (lockAfter_spec hthreads hrun).1.small⟩
      show tg.lockidx ≤ MAX
      rw [lockAfter_lockidx hrun]
      split
      · rename_i hsearch
        exact hroom hsearch
      · exact h.lockidx
  | release t l =>
      exact ⟨_, if_pos hready, h.lockidx, hthreads.small⟩
  | unlockAfter t l =>
      rcases Option.isSome_iff_exists.mp (h.kept.released l t hready).1 with ⟨e, he⟩
      rcases unlockAfter_entry h.kept.slotted he with ⟨tg, hrun, -, hidx, -⟩
      refine ⟨_, next_unlockAfter hready hrun, ?_, (unlockAfter_spec hthreads hrun).1.small⟩
      exact hidx.trans_le h.lockidx

/-- A slot that is used again is counted again. -/
theorem System.Reuses.lockidx {a : Action} (h : s.Reuses a) (hnext : s.next a = some s') :
    s'.tg.lockidx = s.tg.lockidx + 1 := by
  cases a with
  | lockAfter t l =>
      rcases System.next_cases hnext with ⟨-, tg, hrun, rfl⟩
      exact (lockAfter_lockidx hrun).trans (if_pos h.1)
  | lockBefore t l => exact h.elim
  | acquire t l => exact h.elim
  | release t l => exact h.elim
  | unlockAfter t l => exact h.elim

/-- **The bounds.** In every orderly run of at most `MAX` threads the tables are not left, neither
by the hooks nor by the search. The next step keeps to the tables and to the number of slots
exactly if it does not reuse a slot. -/
theorem tables_bounded (hT : T.length ≤ MAX)
    (h : Reachable System.next System.Start (System.Orderly T) s) :
    s.tg.lockidx ≤ MAX ∧ s.tg.num ≤ MAX ∧ (∀ st, ∃ st', checkDeadLock s.tg st = some st') ∧
      ∀ a, a.thread ∈ T → s.Ready a → s.Few → (s.StaysBounded a ↔ ¬ s.Reuses a) := by
  have hbounded : s.Bounded T := by
    refine h.invariant ?_ ?_
    · intro s hs
      exact hs ▸ .start
    · intro s s' a hs horderly hnext
      exact hs.next hT horderly hnext
  refine ⟨hbounded.lockidx, hbounded.kept.threads.small, ?_, ?_⟩
  · intro st
    rcases checkDeadLock_spec hbounded.kept.threads.toWF st with ⟨st', hcheck, -⟩
    exact ⟨st', hcheck⟩
  · intro a hthread hready hfew
    constructor
    · rintro ⟨s', hnext, -, -, hcount⟩ hreuses
      have hidx := hreuses.lockidx hnext
      rw [hcount hreuses] at hidx
      omega
    · intro hfresh
      rcases hbounded.exists_next hT hthread hready hfew hfresh with ⟨s', hnext, hidx, hnum⟩
      exact ⟨s', hnext, hidx, hnum, fun hreuses => absurd hreuses hfresh⟩

/-! ## One thread and one mutex -/

def Action.lock : Action → UInt64
  | .lockBefore _ l | .acquire _ l | .lockAfter _ l | .release _ l | .unlockAfter _ l => l

theorem few_of_one (h : ∀ t m, s.Uses t m → m = l) : s.Few := by
  have hone : ∀ P : UInt64 → Prop, (∀ m, P m → ∃ t, s.Uses t m) →
      {m | P m}.encard ≤ (MAX / 2 : ℕ) := by
    intro P hP
    have hsub : {m | P m} ⊆ {l} := by
      intro m hm
      rcases hP m hm with ⟨t, ht⟩
      exact h t m ht
    calc {m | P m}.encard ≤ ({l} : Set UInt64).encard := Set.encard_le_encard hsub
      _ = ((1 : ℕ) : ℕ∞) := Set.encard_singleton l
      _ ≤ (MAX / 2 : ℕ) := Nat.cast_le.mpr (by decide)
  constructor
  · apply hone
    rintro m ⟨t, hheld | hpc⟩
    · exact ⟨t, Or.inl hheld⟩
    · exact ⟨t, Or.inr (by rw [hpc]; rfl)⟩
  · apply hone
    rintro m ⟨t, hpc⟩
    exact ⟨t, Or.inr (by rw [hpc]; rfl)⟩

/-- The thread of a step uses the mutex of the step. -/
theorem uses_of_next {u m : UInt64} {a : Action} (hnext : s.next a = some s')
    (h : s'.Uses u m) : s.Uses u m ∨ m = a.lock := by
  have hpc : ∀ {t p}, (Function.update s.pc t p u).lock = some m →
      (s.pc u).lock = some m ∨ p.lock = some m := by
    intro t p hlock
    by_cases hut : u = t
    · rw [hut, Function.update_self] at hlock
      exact Or.inr hlock
    · rw [Function.update_of_ne hut] at hlock
      exact Or.inl hlock
  have hstep := System.next_cases hnext
  cases a with
  | lockBefore t l =>
      rcases hstep with ⟨-, -, tg, -, rfl⟩
      rcases h with hheld | hlock
      · exact Or.inl (Or.inl hheld)
      · rcases hpc hlock with hold | hnew
        · exact Or.inl (Or.inr hold)
        · exact Or.inr (Option.some.inj hnew).symm
  | acquire t l =>
      rcases hstep with ⟨-, -, rfl⟩
      rcases h with hheld | hlock
      · by_cases hml : m = l
        · exact Or.inr hml
        · exact Or.inl (Or.inl ((Function.update_of_ne hml _ _).symm.trans hheld))
      · rcases hpc hlock with hold | hnew
        · exact Or.inl (Or.inr hold)
        · exact Or.inr (Option.some.inj hnew).symm
  | lockAfter t l =>
      rcases hstep with ⟨-, tg, -, rfl⟩
      rcases h with hheld | hlock
      · exact Or.inl (Or.inl hheld)
      · rcases hpc hlock with hold | hnew
        · exact Or.inl (Or.inr hold)
        · cases hnew
  | release t l =>
      rcases hstep with ⟨-, -, rfl⟩
      rcases h with hheld | hlock
      · by_cases hml : m = l
        · exact Or.inr hml
        · exact Or.inl (Or.inl ((Function.update_of_ne hml _ _).symm.trans hheld))
      · rcases hpc hlock with hold | hnew
        · exact Or.inl (Or.inr hold)
        · exact Or.inr (Option.some.inj hnew).symm
  | unlockAfter t l =>
      rcases hstep with ⟨-, tg, -, rfl⟩
      rcases h with hheld | hlock
      · exact Or.inl (Or.inl hheld)
      · rcases hpc hlock with hold | hnew
        · exact Or.inl (Or.inr hold)
        · cases hnew

/-- All actions of a run are about one mutex. -/
theorem admits_few {is : List Action} (his : ∀ a ∈ is, a.lock = l)
    (hs : ∀ t m, s.Uses t m → m = l) : Admits System.next (fun s _ => s.Few) s is := by
  induction is generalizing s with
  | nil => trivial
  | cons a is ih =>
      refine ⟨few_of_one hs, fun s' hnext => ?_⟩
      apply ih fun b hb => his b (List.mem_cons_of_mem a hb)
      intro t m hm
      rcases uses_of_next hnext hm with hold | heq
      · exact hs t m hold
      · exact heq.trans (his a List.mem_cons_self)

theorem not_uses_start (t l : UInt64) : ¬ System.start.Uses t l := by
  rintro (hheld | hlock)
  · cases hheld
  · cases hlock

/-- The thread 2 waits for a mutex of the thread 1, which hands it over, and both run
`unlock_after`. -/
def passedOn : List Action :=
  [.lockBefore 1 7, .acquire 1 7, .lockAfter 1 7, .lockBefore 2 7, .release 1 7, .acquire 2 7,
    .unlockAfter 1 7, .lockAfter 2 7, .release 2 7, .unlockAfter 2 7]

theorem admits_passedOn : Admits System.next (System.Orderly [1, 2]) System.start passedOn := by
  have hfew : Admits System.next (fun s _ => s.Few) System.start passedOn :=
    admits_few (l := 7) (by decide) fun t m hm => absurd hm (not_uses_start t m)
  have h₁ : (1 : UInt64) ∈ [1, 2] := by decide
  have h₂ : (2 : UInt64) ∈ [1, 2] := by decide
  have hrest : Admits System.next (fun s a => a.thread ∈ [1, 2] ∧ ¬ s.Reuses a ∧
      s.ClearsAlone a ∧ s.ClearsLast a) System.start passedOn := by
    refine ⟨⟨h₁, id, trivial, trivial⟩, ?_⟩
    intro s hs
    cases hs
    refine ⟨⟨h₁, id, trivial, trivial⟩, ?_⟩
    intro s hs
    cases hs
    refine ⟨⟨h₁, ?_, trivial, trivial⟩, ?_⟩
    · rintro ⟨-, i, hi, -⟩
      exact absurd hi (Nat.not_lt_zero i)
    intro s hs
    cases hs
    refine ⟨⟨h₂, id, trivial, trivial⟩, ?_⟩
    intro s hs
    cases hs
    refine ⟨⟨h₁, id, trivial, trivial⟩, ?_⟩
    intro s hs
    cases hs
    refine ⟨⟨h₂, id, trivial, trivial⟩, ?_⟩
    intro s hs
    cases hs
    refine ⟨⟨h₁, id, ?_, ?_⟩, ?_⟩
    · -- the thread 2 is counted still, so that the entry stays
      intro e he hzero
      cases he
      cases hzero
    · intro e _ _
      exact ⟨2, by decide, .inl rfl⟩
    intro s hs
    cases hs
    refine ⟨⟨h₂, ?_, trivial, trivial⟩, ?_⟩
    · rintro ⟨hsearch, -⟩
      cases hsearch
    intro s hs
    cases hs
    refine ⟨⟨h₂, id, trivial, trivial⟩, ?_⟩
    intro s hs
    cases hs
    refine ⟨⟨h₂, id, ?_, ?_⟩, fun _ _ => trivial⟩
    · intro e _ _ u hu
      refine ⟨nofun, ?_⟩
      simp only [Function.update_apply, if_neg hu]
      split <;> nofun
    · intro e he hcounted
      cases he
      exact absurd rfl hcounted
  refine (hfew.and hrest).mono ?_
  rintro s a ⟨hfew, hthread, hfresh, halone, hlast⟩
  exact ⟨hthread, hfew, hfresh, halone, hlast⟩

theorem tables_bounded_passedOn :
    ∃ s, exec System.next System.start passedOn = some s ∧ s.tg.lockidx ≤ MAX ∧
      s.tg.num ≤ MAX ∧ (∀ st, ∃ st', checkDeadLock s.tg st = some st') ∧
      ∀ a, a.thread ∈ [1, 2] → s.Ready a → s.Few → (s.StaysBounded a ↔ ¬ s.Reuses a) := by
  obtain ⟨s, hexec⟩ : ∃ s, exec System.next System.start passedOn = some s := ⟨_, rfl⟩
  exact ⟨s, hexec, tables_bounded (by decide) (reachable_of_exec rfl admits_passedOn hexec)⟩

/-! ## The overflow -/

/-- After some rounds of one thread and one mutex: no slot is in use, and each round has counted
the first one. -/
def emptied (n : ℕ) : System :=
  ⟨⟨[], List.replicate MAX ⟨0, .PROCESS, 0, 0⟩, n⟩, fun _ => .idle, fun _ => none⟩

/-- The same with the mutex in the first slot. -/
def filled (n : ℕ) : TaskGraph :=
  ⟨[], ⟨1, .PROCESS, 7, 0⟩ :: List.replicate (MAX - 1) ⟨0, .PROCESS, 0, 0⟩, n⟩

/-- A thread locks a mutex and unlocks it. -/
def lockUnlock (t l : UInt64) : List Action :=
  [.lockBefore t l, .acquire t l, .lockAfter t l, .release t l, .unlockAfter t l]

/-- A round leaves the thread and the mutex as they were. -/
theorem exec_lockUnlock {tg₁ tg₂ tg₃ : TaskGraph} (hpc : s.pc t = .idle)
    (hfree : s.holder l = none) (hl : l ≠ 0) (hbefore : lockBefore s.tg t l = some tg₁)
    (hafter : lockAfter tg₁ t l = some tg₂) (hunlock : unlockAfter tg₂ l = some tg₃) :
    exec System.next s (lockUnlock t l) = some { s with tg := tg₃ } := by
  have hidle : Function.update s.pc t .idle = s.pc := by
    rw [← hpc]
    exact Function.update_eq_self _ _
  have hnone : Function.update s.holder l none = s.holder := by
    rw [← hfree]
    exact Function.update_eq_self _ _
  simp [lockUnlock, exec, System.next, hpc, hfree, hl, hbefore, hafter, hunlock, hidle, hnone]

/-- The loop of `lock_before` passes over the slots of other mutexes. -/
theorem lockBefore_of_none (h : ∀ i < tg.lockidx, ∃ e, tg.locklist[i]? = some e ∧ e.lockId ≠ l) :
    lockBefore tg t l = some tg := by
  have hloop : ∀ is : List ℕ, (∀ i ∈ is, i < tg.lockidx) → is.foldlM (fun tg idx => do
      let e ← tg.locklist[idx]?
      if e.lockId = l then recordWait tg t idx e.id else return tg) tg = some tg := by
    intro is his
    induction is with
    | nil => rfl
    | cons i is ih =>
        rcases h i (his i List.mem_cons_self) with ⟨e, he, hne⟩
        rw [List.foldlM_cons, he]
        simp only [Option.bind_eq_bind, Option.bind_some, if_neg hne]
        exact ih fun j hj => his j (List.mem_cons_of_mem i hj)
  exact hloop _ fun i hi => List.mem_range.mp hi

theorem lockBefore_emptied {n : ℕ} (hn : n ≤ MAX) :
    lockBefore (emptied n).tg 1 7 = some (emptied n).tg := by
  apply lockBefore_of_none
  intro i hi
  have hlt : i < MAX := Nat.lt_of_lt_of_le hi hn
  exact ⟨_, List.getElem?_replicate_of_lt hlt, by decide⟩

theorem lockAfter_emptied {n : ℕ} (hn : n ≤ MAX) :
    lockAfter (emptied n).tg 1 7 = some (filled (n + 1)) := by
  have hsearch : searchLock (emptied n).tg 7 = some none := by
    have hnone : ((emptied n).tg.locklist.take (emptied n).tg.lockidx).findIdx?
        (·.lockId == 7) = none := by
      rw [List.findIdx?_eq_none_iff]
      intro e he
      rw [List.eq_of_mem_replicate (List.mem_of_mem_take he)]
      rfl
    have hle : (emptied n).tg.lockidx ≤ (emptied n).tg.locklist.length :=
      hn.trans_eq List.length_replicate.symm
    rw [searchLock, scanLocks, hnone, if_pos hle]
  have hempty : searchEmptyLock (emptied n).tg = some 0 := by
    cases n <;> rfl
  simp only [lockAfter, hsearch, hempty, Option.bind_eq_bind, Option.bind_some]
  rfl

theorem unlockAfter_filled (n : ℕ) :
    unlockAfter (filled (n + 1)) 7 = some (emptied (n + 1)).tg := rfl

theorem exec_emptied {n : ℕ} (hn : n ≤ MAX) :
    exec System.next (emptied n) (lockUnlock 1 7) = some (emptied (n + 1)) :=
  exec_lockUnlock rfl rfl (by decide) (lockBefore_emptied hn) (lockAfter_emptied hn)
    (unlockAfter_filled n)

/-- Many rounds. -/
theorem exec_rounds {n : ℕ} (hn : n ≤ MAX + 1) :
    exec System.next System.start (List.replicate n (lockUnlock 1 7)).flatten =
      some (emptied n) := by
  induction n with
  | zero => rfl
  | succ n ih =>
      rw [List.replicate_succ', List.flatten_append, exec_append, ih (Nat.le_of_succ_le hn),
        List.flatten_singleton, Option.bind_some]
      exact exec_emptied (Nat.le_of_succ_le_succ hn)

/-- **The overflow.** One thread that locks and unlocks one mutex fills the table. -/
theorem lockidx_overflows :
    ∃ s, Reachable System.next System.Start (fun s a => a.thread ∈ [1] ∧ s.Few) s ∧ s.Few ∧
      s.tg.lockidx = MAX + 1 ∧ s.Ready (.lockBefore 1 7) ∧ s.next (.lockBefore 1 7) = none := by
  have hround : ∀ a ∈ lockUnlock 1 7, a.thread = 1 ∧ a.lock = 7 := by decide
  have hactions : ∀ a ∈ (List.replicate (MAX + 1) (lockUnlock 1 7)).flatten,
      a.thread = 1 ∧ a.lock = 7 := by
    intro a ha
    obtain ⟨is, his, ha⟩ := List.mem_flatten.mp ha
    exact hround a (List.eq_of_mem_replicate his ▸ ha)
  have hfew : Admits System.next (fun s _ => s.Few) System.start
      (List.replicate (MAX + 1) (lockUnlock 1 7)).flatten :=
    admits_few (fun a ha => (hactions a ha).2) fun t m hm => absurd hm (not_uses_start t m)
  have hthread : Admits System.next (fun _ a => a.thread ∈ [1]) System.start
      (List.replicate (MAX + 1) (lockUnlock 1 7)).flatten :=
    admits_of_forall (fun a ha _ => List.mem_singleton.mpr (hactions a ha).1) _
  refine ⟨emptied (MAX + 1), reachable_of_exec rfl (hthread.and hfew) (exec_rounds le_rfl), ?_, rfl,
    ⟨rfl, by decide⟩, ?_⟩
  · apply few_of_one (l := 7)
    rintro t m (hheld | hlock)
    · cases hheld
    · cases hlock
  · have hoverflow : lockBefore (emptied (MAX + 1)).tg 1 7 = none := by
      decide +kernel
    rw [System.next, hoverflow, Option.map_none, ite_self]

end ServerKit.Deadlock
