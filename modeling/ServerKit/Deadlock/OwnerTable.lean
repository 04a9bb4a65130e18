import ServerKit.Deadlock.Waits
import ServerKit.Lib.Slots

/-! # The owner table and what the hooks do to it

`locklist` is a table that maps the address of a mutex to its recorded owner and its
`degress`. A hook changes the entry of its mutex alone. -/

namespace ServerKit.Deadlock

open ServerKit.Slots

/-- What is recorded of a mutex. -/
structure Entry where
  owner : UInt64
  degress : ℤ
  deriving DecidableEq, Repr

/-- The entry of a mutex; an address is not zero. -/
def TaskGraph.entry (tg : TaskGraph) (l : UInt64) : Option Entry :=
  if l = 0 then none
  else (lookup SourceType.lockId tg.locklist l).map fun e => ⟨e.id, e.degress⟩

/-- No mutex is in two slots, and what is not in use is all zero. -/
structure TaskGraph.Slotted (tg : TaskGraph) : Prop where
  length : tg.locklist.length = MAX
  unused : ∀ (i : ℕ) (e : SourceType), tg.lockidx ≤ i → tg.locklist[i]? = some e → e.lockId = 0
  empty : ∀ e ∈ tg.locklist, e.lockId = 0 → e.degress = 0
  distinct : Distinct SourceType.lockId 0 tg.locklist

/-- The slots of a mutex, of those in use. -/
def TaskGraph.entries (tg : TaskGraph) (l : UInt64) : List SourceType :=
  (tg.locklist.take tg.lockidx).filter (·.lockId = l)

section Entries

variable {tg tg' : TaskGraph} {t l l' : UInt64}

theorem entry_zero (tg : TaskGraph) : tg.entry 0 = none := if_pos rfl

theorem entry_of_ne (hl : l ≠ 0) :
    tg.entry l = (lookup SourceType.lockId tg.locklist l).map fun e => ⟨e.id, e.degress⟩ :=
  if_neg hl

theorem TaskGraph.Slotted.start : TaskGraph.start.Slotted := by
  have hzero : ∀ (i : ℕ) (e : SourceType), TaskGraph.start.locklist[i]? = some e →
      e = ⟨0, .PROCESS, 0, 0⟩ := by
    intro i e he
    exact List.eq_of_mem_replicate (List.mem_of_getElem? he)
  refine ⟨List.length_replicate, ?_, ?_, ?_⟩
  · intro i e _ he
    rw [hzero i e he]
  · intro e he _
    rw [List.eq_of_mem_replicate he]
  · intro i j x y hx _ _ hfree
    rw [hzero i x hx] at hfree
    exact absurd rfl hfree

theorem entry_start (l : UInt64) : TaskGraph.start.entry l = none := by
  by_cases hl : l = 0
  · rw [hl, entry_zero]
  · have hnone : lookup SourceType.lockId TaskGraph.start.locklist l = none := by
      rw [lookup_eq_none_iff]
      intro e he heq
      rw [List.eq_of_mem_replicate he] at heq
      exact hl heq.symm
    rw [entry_of_ne hl, hnone, Option.map_none]

theorem TaskGraph.Slotted.congr (h : tg.Slotted)
    (heq : tg'.locklist = tg.locklist ∧ tg'.lockidx = tg.lockidx) : tg'.Slotted := by
  rcases tg' with ⟨list, locklist, lockidx⟩
  rcases heq with ⟨rfl, rfl⟩
  exact ⟨h.length, h.unused, h.empty, h.distinct⟩

theorem entry_congr (heq : tg'.locklist = tg.locklist ∧ tg'.lockidx = tg.lockidx) :
    tg'.entry = tg.entry := by
  funext l
  rw [TaskGraph.entry, TaskGraph.entry, heq.1]

/-- The slots of a mutex in use are its entry. -/
theorem TaskGraph.Slotted.entries_eq (h : tg.Slotted) (hl : l ≠ 0) :
    tg.entries l = (lookup SourceType.lockId tg.locklist l).toList := by
  have hrest : (tg.locklist.drop tg.lockidx).filter (·.lockId = l) = [] := by
    rw [List.filter_eq_nil_iff]
    intro e he heq
    rcases List.getElem?_of_mem he with ⟨i, hi⟩
    rw [List.getElem?_drop] at hi
    have hzero := h.unused _ e (Nat.le_add_right _ i) hi
    exact hl ((by simpa using heq : e.lockId = l).symm.trans hzero)
  rw [← h.distinct.filter_eq hl, TaskGraph.entries]
  conv_rhs => rw [← List.take_append_drop tg.lockidx tg.locklist, List.filter_append, hrest,
    List.append_nil]

theorem TaskGraph.Slotted.scanLocks_ne_none (h : tg.Slotted) (hidx : tg.lockidx ≤ MAX) :
    scanLocks tg l ≠ none := by
  rw [scanLocks]
  split
  · exact Option.some_ne_none _
  · rw [if_pos (h.length.symm ▸ hidx)]
    exact Option.some_ne_none _

theorem entry_of_searchLock_none (h : tg.Slotted) (hsearch : searchLock tg l = some none) :
    tg.entry l = none := by
  by_cases hl : l = 0
  · rw [hl, entry_zero]
  rw [entry_of_ne hl, Option.map_eq_none_iff, lookup_eq_none_iff]
  intro e he heq
  rcases List.getElem?_of_mem he with ⟨i, hi⟩
  by_cases hlt : i < tg.lockidx
  · exact (scanLocks_none hsearch).2 i hlt ((lockIds_getElem? hi).trans (heq ▸ rfl))
  · exact hl (heq.symm.trans (h.unused i e (by omega) hi))

theorem entry_of_searchLock_some (h : tg.Slotted) (hl : l ≠ 0) {i : ℕ}
    (hsearch : searchLock tg l = some (some i)) :
    ∃ e, i < tg.lockidx ∧ tg.locklist[i]? = some e ∧ e.lockId = l ∧
      tg.entry l = some ⟨e.id, e.degress⟩ := by
  have hi := scanLocks_some hsearch
  rw [TaskGraph.lockIds, TaskGraph.locks, List.map_map, List.getElem?_map,
    Option.map_eq_some_iff] at hi
  rcases hi with ⟨hlt, e, he, rfl⟩
  refine ⟨e, hlt, he, rfl, ?_⟩
  rw [entry_of_ne hl, (h.distinct.lookup_eq_some_iff hl).mpr ⟨List.mem_of_getElem? he, rfl⟩,
    Option.map_some]

/-- `search_lock` finds the slot of a mutex that has an entry. -/
theorem TaskGraph.Slotted.searchLock (h : tg.Slotted) {entry : Entry}
    (hentry : tg.entry l = some entry) :
    ∃ i e, searchLock tg l = some (some i) ∧ i < tg.lockidx ∧ tg.locklist[i]? = some e ∧
      e.lockId = l ∧ entry = ⟨e.id, e.degress⟩ := by
  have hl : l ≠ 0 := by
    intro hl
    rw [hl, entry_zero] at hentry
    cases hentry
  cases hsearch : Deadlock.searchLock tg l with
  | none =>
      rw [Deadlock.searchLock, scanLocks] at hsearch
      split at hsearch
      · cases hsearch
      · rename_i hnone
        rw [entry_of_ne hl, Option.map_eq_some_iff] at hentry
        rcases hentry with ⟨e, he, -⟩
        rcases List.getElem?_of_mem (lookup_mem he) with ⟨i, hi⟩
        have hlt : i < tg.lockidx := by
          by_contra hge
          exact hl ((lookup_key he).symm.trans (h.unused i e (by omega) hi))
        have hmem : e ∈ tg.locklist.take tg.lockidx := by
          rw [List.mem_iff_getElem?]
          exact ⟨i, by rw [List.getElem?_take_of_lt hlt, hi]⟩
        have hne := List.findIdx?_eq_none_iff.mp hnone e hmem
        simp [lookup_key he] at hne
  | some found =>
      cases found with
      | none =>
          rw [entry_of_searchLock_none h hsearch] at hentry
          cases hentry
      | some i =>
          rcases entry_of_searchLock_some h hl hsearch with ⟨e, hi, he, hlock, hentry'⟩
          rw [hentry'] at hentry
          exact ⟨i, e, rfl, hi, he, hlock, (Option.some.inj hentry).symm⟩

/-- `search_empty_lock` gives an empty slot, or the end of the table. -/
theorem TaskGraph.Slotted.searchEmptyLock (h : tg.Slotted) {i : ℕ}
    (hsearch : searchEmptyLock tg = some i) (hi : i < MAX) :
    i ≤ tg.lockidx ∧ ∃ e, tg.locklist[i]? = some e ∧ e.lockId = 0 := by
  have hlt : i < tg.locklist.length := h.length.symm ▸ hi
  have hget := List.getElem?_eq_getElem hlt
  rcases Option.map_eq_some_iff.mp hsearch with ⟨found, hscan, hfound⟩
  cases found with
  | none =>
      have hle : tg.lockidx = i := hfound
      exact ⟨hle.ge, _, hget, h.unused i _ hle.le hget⟩
  | some j =>
      have hji : j = i := hfound
      have hj := scanLocks_some hscan
      rw [hji] at hj
      exact ⟨hj.1.le, _, hget, Option.some.inj ((lockIds_getElem? hget).symm.trans hj.2)⟩

/-- A change of one slot that gives it a mutex which has no other slot, or none. -/
theorem TaskGraph.Slotted.modifyLock (h : tg.Slotted) {i : ℕ} {e : SourceType}
    {f : SourceType → SourceType} (he : tg.locklist[i]? = some e) (hi : i < tg.lockidx)
    (hlock : (f e).lockId = e.lockId ∨ (f e).lockId = 0 ∨ tg.entry (f e).lockId = none)
    (hempty : (f e).lockId = 0 → (f e).degress = 0) :
    (tg.modifyLock i f).Slotted ∧
      ∀ l ≠ 0, (tg.modifyLock i f).entry l =
        if (f e).lockId = l then some ⟨(f e).id, (f e).degress⟩
        else if e.lockId = l then none else tg.entry l := by
  have hkey : (f e).lockId = e.lockId ∨ (f e).lockId = 0 ∨
      lookup SourceType.lockId tg.locklist (f e).lockId = none := by
    rcases hlock with hlock | hlock | hlock
    · exact Or.inl hlock
    · exact Or.inr (Or.inl hlock)
    · by_cases hzero : (f e).lockId = 0
      · exact Or.inr (Or.inl hzero)
      · rw [entry_of_ne hzero, Option.map_eq_none_iff] at hlock
        exact Or.inr (Or.inr hlock)
  refine ⟨⟨?_, ?_, ?_, h.distinct.modify he hkey⟩, ?_⟩
  · exact (List.length_modify ..).trans h.length
  · intro j x hj hx
    rcases (getElem?_modify_iff he).mp hx with ⟨rfl, -⟩ | ⟨-, hx⟩
    · exact absurd hi (Nat.not_lt.mpr hj)
    · exact h.unused j x hj hx
  · intro x hx hzero
    rcases List.getElem?_of_mem hx with ⟨j, hj⟩
    rcases (getElem?_modify_iff he).mp hj with ⟨-, rfl⟩ | ⟨-, hj⟩
    · exact hempty hzero
    · exact h.empty x (List.mem_of_getElem? hj) hzero
  · intro l hl
    rw [entry_of_ne hl, entry_of_ne hl, TaskGraph.modifyLock,
      h.distinct.lookup_modify he hkey hl]
    split
    · rfl
    · split <;> rfl

end Entries

/-! ## The hooks -/

section Hooks

variable {tg tg' : TaskGraph} {t l : UInt64}

theorem entry_eq_update {x : Option Entry} (hl : l ≠ 0)
    (h : ∀ m ≠ 0, tg'.entry m = if l = m then x else tg.entry m) :
    tg'.entry = Function.update tg.entry l x := by
  funext m
  by_cases hm : m = 0
  · rw [hm, entry_zero, Function.update_of_ne (Ne.symm hl), entry_zero]
  · rw [h m hm]
    split
    · rename_i heq
      rw [← heq, Function.update_self]
    · rename_i hne
      rw [Function.update_of_ne (Ne.symm hne)]

/-- A change of one slot that keeps its mutex. -/
theorem TaskGraph.Slotted.modifyLock_keep (h : tg.Slotted) (hl : l ≠ 0) {i : ℕ} {e : SourceType}
    {f : SourceType → SourceType} (hlock : e.lockId = l) (he : tg.locklist[i]? = some e)
    (hi : i < tg.lockidx) (hf : (f e).lockId = l) :
    (tg.modifyLock i f).Slotted ∧
      (tg.modifyLock i f).entry = Function.update tg.entry l (some ⟨(f e).id, (f e).degress⟩) := by
  rcases h.modifyLock he hi (Or.inl (hf.trans hlock.symm))
    (fun hzero => absurd (hf.symm.trans hzero) hl) with ⟨hslotted, hentry⟩
  refine ⟨hslotted, entry_eq_update hl ?_⟩
  intro m hm
  rw [hentry m hm, hf, hlock]
  split <;> rfl

/-- The new owner of a mutex is one of the threads that were counted, if it was free with an
entry; a mutex without an entry gets one. -/
theorem lockAfter_entry (h : tg.Slotted) (hl : l ≠ 0) (hafter : lockAfter tg t l = some tg') :
    tg'.Slotted ∧ tg'.entry =
      Function.update tg.entry l (some ⟨t, (tg.entry l).elim 0 (·.degress - 1)⟩) := by
  rcases Option.bind_eq_some_iff.mp hafter with ⟨found, hsearch, hafter⟩
  cases found with
  | none =>
      have hnone := entry_of_searchLock_none h hsearch
      rcases Option.bind_eq_some_iff.mp hafter with ⟨i, hempty, hafter⟩
      split at hafter
      · rename_i hi
        rcases h.searchEmptyLock hempty (h.length ▸ hi) with ⟨hle, e, he, hzero⟩
        have hgrown : TaskGraph.Slotted { tg with lockidx := tg.lockidx + 1 } :=
          ⟨h.length, fun j x hj => h.unused j x (Nat.le_of_succ_le hj), h.empty, h.distinct⟩
        rcases hgrown.modifyLock (f := fun e => { e with id := t, lockId := l }) he
          (Nat.lt_succ_of_le hle) (Or.inr (Or.inr hnone)) (fun heq => absurd heq hl) with
          ⟨hslotted, hentry⟩
        cases hafter
        refine ⟨hslotted, entry_eq_update hl ?_⟩
        intro m hm
        have hne : e.lockId ≠ m := by
          rw [hzero]
          exact Ne.symm hm
        refine (hentry m hm).trans ?_
        rw [hnone, h.empty e (List.mem_of_getElem? he) hzero, if_neg hne]
        rfl
      · cases hafter
  | some i =>
      rcases entry_of_searchLock_some h hl hsearch with ⟨e, hi, he, hlock, hentry⟩
      rcases Option.bind_eq_some_iff.mp hafter with ⟨e', he', hafter⟩
      rw [he] at he'
      cases he'
      let dec : SourceType → SourceType := fun e => { e with degress := e.degress - 1 }
      rcases h.modifyLock_keep hl hlock he hi (f := dec) hlock with ⟨hslotted₁, hentry₁⟩
      have hdrop := dropWait_locks (tg.modifyLock i dec) t e.id
      have he₁ : (dropWait (tg.modifyLock i dec) t e.id).locklist[i]? = some (dec e) := by
        rw [hdrop.1]
        exact (getElem?_modify_iff he).mpr (Or.inl ⟨rfl, rfl⟩)
      have hi₁ : i < (dropWait (tg.modifyLock i dec) t e.id).lockidx := by
        rw [hdrop.2]
        exact hi
      rcases (hslotted₁.congr hdrop).modifyLock_keep hl (e := dec e) hlock he₁ hi₁
        (f := fun e => { e with id := t }) hlock with ⟨hslotted₂, hentry₂⟩
      cases hafter
      refine ⟨hslotted₂, hentry₂.trans ?_⟩
      rw [entry_congr hdrop, hentry₁, Function.update_idem, hentry]
      rfl

theorem exists_searchEmptyLock (h : tg.Slotted) (hidx : tg.lockidx ≤ MAX) :
    ∃ i ≤ tg.lockidx, searchEmptyLock tg = some i := by
  cases hscan : scanLocks tg 0 with
  | none => exact absurd hscan (h.scanLocks_ne_none hidx)
  | some j =>
      cases j with
      | none => exact ⟨tg.lockidx, le_rfl, by rw [searchEmptyLock, hscan]; rfl⟩
      | some j => exact ⟨j, (scanLocks_some hscan).1.le, by rw [searchEmptyLock, hscan]; rfl⟩

/-- `lock_after` stays inside of the table if it finds the mutex or a slot for it. -/
theorem exists_lockAfter_of_room (h : tg.Slotted) (hidx : tg.lockidx ≤ MAX) (t : UInt64)
    (hroom : searchLock tg l = some none → ∀ i, searchEmptyLock tg = some i → i < MAX) :
    ∃ tg', lockAfter tg t l = some tg' := by
  have hlen := h.length
  cases hsearch : searchLock tg l with
  | none => exact absurd hsearch (h.scanLocks_ne_none hidx)
  | some found =>
      cases found with
      | none =>
          rcases exists_searchEmptyLock h hidx with ⟨i, -, hempty⟩
          have hi : i < tg.locklist.length := hlen ▸ hroom hsearch i hempty
          simp only [lockAfter, hsearch, hempty, Option.bind_eq_bind, Option.bind_some, if_pos hi]
          exact ⟨_, rfl⟩
      | some i =>
          have hi := scanLocks_some hsearch
          simp only [lockAfter, hsearch, Option.bind_eq_bind, Option.bind_some,
            List.getElem?_eq_getElem (by omega : i < tg.locklist.length)]
          exact ⟨_, rfl⟩

/-- As long as the table has room, `lock_after` stays inside of it. -/
theorem exists_lockAfter (h : tg.Slotted) (hidx : tg.lockidx < MAX) :
    ∃ tg', lockAfter tg t l = some tg' := by
  apply exists_lockAfter_of_room h hidx.le
  intro _ i hi
  rcases exists_searchEmptyLock h hidx.le with ⟨j, hj, hempty⟩
  cases hi.symm.trans hempty
  exact hj.trans_lt hidx

/-- `unlock_after` finds the entry of its mutex, and removes it if no thread is counted. -/
theorem unlockAfter_entry (h : tg.Slotted) {entry : Entry} (hentry : tg.entry l = some entry) :
    ∃ tg', unlockAfter tg l = some tg' ∧ tg'.Slotted ∧ tg'.lockidx = tg.lockidx ∧ tg'.entry =
      Function.update tg.entry l (if entry.degress = 0 then none else some entry) := by
  rcases h.searchLock hentry with ⟨i, e, hsearch, hi, he, hlock, rfl⟩
  have hl : l ≠ 0 := by
    intro hl
    rw [hl, entry_zero] at hentry
    cases hentry
  simp only [unlockAfter, hsearch, he, Option.bind_eq_bind, Option.bind_some]
  by_cases hzero : e.degress = 0
  · rcases h.modifyLock (f := fun e => { e with id := 0, lockId := 0 }) he hi (Or.inr (Or.inl rfl))
      (fun _ => hzero) with ⟨hslotted, hentry'⟩
    refine ⟨_, by rw [if_pos hzero]; rfl, hslotted, rfl, ?_⟩
    rw [if_pos hzero]
    apply entry_eq_update hl
    intro m hm
    rw [hentry' m hm, if_neg (Ne.symm hm), hlock]
  · refine ⟨_, by rw [if_neg hzero]; rfl, h, rfl, ?_⟩
    rw [if_neg hzero, ← hentry, Function.update_eq_self]

/-- One more thread is counted at the slots of a mutex. -/
def count (l : UInt64) (e : SourceType) : SourceType :=
  if e.lockId = l then { e with degress := e.degress + 1 } else e

theorem count_lockId (l : UInt64) (e : SourceType) : (count l e).lockId = e.lockId := by
  rw [count]
  split <;> rfl

theorem recordWait_locks {u : UInt64} {idx : ℕ} (hrecord : recordWait tg t idx u = some tg') :
    tg'.locklist = tg.locklist.modify idx (fun e => { e with degress := e.degress + 1 }) ∧
      tg'.lockidx = tg.lockidx := by
  rcases Option.bind_eq_some_iff.mp hrecord with ⟨tg₁, hadd₁, hrecord⟩
  rcases Option.bind_eq_some_iff.mp hrecord with ⟨tg₂, hadd₂, hrecord⟩
  rcases addVertex_locks hadd₁ with ⟨hlist₁, hidx₁⟩
  rcases addVertex_locks hadd₂ with ⟨hlist₂, hidx₂⟩
  have hlist : tg₂.locklist =
      tg.locklist.modify idx fun e => { e with degress := e.degress + 1 } := by
    rw [hlist₂, TaskGraph.modifyLock, hlist₁]
  have hidx : tg₂.lockidx = tg.lockidx := hidx₂.trans hidx₁
  split at hrecord
  · cases hrecord
    exact ⟨hlist, hidx⟩
  · rcases addEdge_locks hrecord with ⟨hlist₃, hidx₃⟩
    exact ⟨hlist₃.trans hlist, hidx₃.trans hidx⟩

/-- The pass of the loop of `lock_before` over some slots counts at each of them once. -/
theorem lockBefore_loop_locks {is : List ℕ} (hnodup : is.Nodup)
    (hbefore : is.foldlM (fun tg idx => do
      let e ← tg.locklist[idx]?
      if e.lockId = l then recordWait tg t idx e.id else return tg) tg = some tg') :
    (∀ j, tg'.locklist[j]? = if j ∈ is then (tg.locklist[j]?).map (count l)
      else tg.locklist[j]?) ∧ tg'.lockidx = tg.lockidx := by
  induction is generalizing tg with
  | nil =>
      cases hbefore
      exact ⟨fun j => by simp, rfl⟩
  | cons idx is ih =>
      rcases Option.bind_eq_some_iff.mp hbefore with ⟨tg₁, hbody, hrest⟩
      rcases Option.bind_eq_some_iff.mp hbody with ⟨e, he, hbody⟩
      have hbody : tg₁.locklist = tg.locklist.modify idx (count l) ∧
          tg₁.lockidx = tg.lockidx := by
        by_cases hl : e.lockId = l
        · rw [if_pos hl] at hbody
          rcases recordWait_locks hbody with ⟨hlist, hidx⟩
          exact ⟨hlist.trans (modify_congr he (if_pos hl).symm), hidx⟩
        · rw [if_neg hl] at hbody
          cases hbody
          have hkeep : count l e = id e := if_neg hl
          exact ⟨(modify_congr he hkeep ▸ List.modify_id ..).symm, rfl⟩
      rcases ih (List.nodup_cons.mp hnodup).2 hrest with ⟨hlist, hidx⟩
      refine ⟨?_, hidx.trans hbody.2⟩
      intro j
      rw [hlist j, hbody.1]
      by_cases hj : j = idx
      · subst hj
        rw [if_neg (List.nodup_cons.mp hnodup).1, if_pos List.mem_cons_self,
          List.getElem?_modify_eq]
        rfl
      · rw [List.getElem?_modify_ne _ _ (Ne.symm hj)]
        simp [hj]

/-- `lock_before` counts at all slots of the mutex, since no other slot is behind `lockidx`. -/
theorem lockBefore_locklist (h : tg.Slotted) (hl : l ≠ 0)
    (hbefore : lockBefore tg t l = some tg') :
    tg'.locklist = tg.locklist.map (count l) ∧ tg'.lockidx = tg.lockidx := by
  rcases lockBefore_loop_locks List.nodup_range hbefore with ⟨hloop, hidx⟩
  refine ⟨?_, hidx⟩
  apply List.ext_getElem?
  intro j
  rw [hloop j, List.getElem?_map]
  split
  · rfl
  · rename_i hj
    cases he : tg.locklist[j]? with
    | none => rfl
    | some e =>
        have hzero := h.unused j e (by simpa using hj) he
        have hkeep : count l e = e := if_neg (fun heq => hl (heq.symm.trans hzero))
        rw [Option.map_some, hkeep]

theorem TaskGraph.Slotted.count (h : tg.Slotted) (hl : l ≠ 0)
    (hlist : tg'.locklist = tg.locklist.map (Deadlock.count l)) (hidx : tg'.lockidx = tg.lockidx) :
    tg'.Slotted := by
  refine ⟨?_, ?_, ?_, ?_⟩
  · rw [hlist, List.length_map, h.length]
  · intro i e hi he
    rw [hlist, List.getElem?_map, Option.map_eq_some_iff] at he
    rcases he with ⟨e, he, rfl⟩
    rw [count_lockId]
    exact h.unused i e (hidx ▸ hi) he
  · intro e he hzero
    rw [hlist, List.mem_map] at he
    rcases he with ⟨e, he, rfl⟩
    rw [count_lockId] at hzero
    have hkeep : Deadlock.count l e = e := if_neg (fun heq => hl (heq.symm.trans hzero))
    rw [hkeep]
    exact h.empty e he hzero
  · rw [hlist]
    exact h.distinct.map (count_lockId l)

/-- `lock_before` counts the thread at the entry of the mutex, if there is one. -/
theorem lockBefore_entry (h : tg.Slotted) (hl : l ≠ 0) (hbefore : lockBefore tg t l = some tg') :
    tg'.Slotted ∧ tg'.lockidx = tg.lockidx ∧ tg'.entry = Function.update tg.entry l
      ((tg.entry l).map fun e => { e with degress := e.degress + 1 }) := by
  rcases lockBefore_locklist h hl hbefore with ⟨hlist, hidx⟩
  refine ⟨h.count hl hlist hidx, hidx, ?_⟩
  apply entry_eq_update hl
  intro m hm
  rw [entry_of_ne hm, entry_of_ne hm, entry_of_ne hl, hlist, lookup_map (count_lockId l)]
  split
  · rename_i hlm
    rw [hlm]
    cases hlookup : lookup SourceType.lockId tg.locklist m with
    | none => rfl
    | some e =>
        rw [Option.map_some, Option.map_some, Option.map_some, Option.map_some, count,
          if_pos (lookup_key hlookup)]
  · rename_i hlm
    cases hlookup : lookup SourceType.lockId tg.locklist m with
    | none => rfl
    | some e =>
        rw [Option.map_some, Option.map_some, count,
          if_neg (fun heq => hlm (heq.symm.trans (lookup_key hlookup)))]
        rfl

/-! ## The vertex table -/

/-- The vertices and these threads fit in the vertex table. -/
def TaskGraph.HasRoom (tg : TaskGraph) (threads : List UInt64) : Prop :=
  (tg.keys ++ threads.map fun t => (SourceType.process t).key).dedup.length ≤ MAX

/-- A vertex that is one of a few finds room. -/
theorem exists_addVertex {keys : List Key} (hwf : tg.WF) (hsub : tg.keys ⊆ keys)
    (hroom : keys.length ≤ MAX) {s : SourceType} (hs : s.key ∈ keys) :
    ∃ tg', addVertex tg s = some tg' ∧ tg'.WF ∧ tg'.keys ⊆ keys := by
  have hadd : ∃ tg', addVertex tg s = some tg' := by
    rw [addVertex]
    by_cases hmem : s.key ∈ tg.keys
    · exact ⟨tg, if_neg (fun hnone => searchVertex_eq_none_iff.mp hnone hmem)⟩
    · have hlen : (s.key :: tg.keys).length ≤ keys.length :=
        (List.nodup_cons.mpr ⟨hmem, hwf.nodup⟩).length_le_of_subset
          (List.cons_subset.mpr ⟨hs, hsub⟩)
      rw [List.length_cons] at hlen
      have hnum : tg.num < MAX := by
        rw [tg.num_eq]
        omega
      rw [if_pos (searchVertex_eq_none_iff.mpr hmem), if_pos hnum]
      exact ⟨_, rfl⟩
  rcases hadd with ⟨tg', hadd⟩
  refine ⟨tg', hadd, hwf.addVertex hadd, ?_⟩
  intro a ha
  rcases (mem_addVertex_keys hadd).mp ha with ha | rfl
  · exact hsub ha
  · exact hs

theorem exists_addEdge {keys : List Key} (hwf : tg.WF) (hsub : tg.keys ⊆ keys)
    (hroom : keys.length ≤ MAX) {from' to' : SourceType} (hfrom : from'.key ∈ keys)
    (hto : to'.key ∈ keys) :
    ∃ tg', addEdge tg from' to' = some tg' ∧ tg'.WF ∧ tg'.keys ⊆ keys := by
  rcases exists_addVertex hwf hsub hroom hfrom with ⟨tg₁, hadd₁, hwf₁, hsub₁⟩
  rcases exists_addVertex hwf₁ hsub₁ hroom hto with ⟨tg₂, hadd₂, hwf₂, hsub₂⟩
  have hmem : from'.key ∈ tg₂.keys :=
    (mem_addVertex_keys hadd₂).mpr (Or.inl ((mem_addVertex_keys hadd₁).mpr (Or.inr rfl)))
  cases hsearch : searchVertex tg₂ from' with
  | none => exact absurd hmem (searchVertex_eq_none_iff.mp hsearch)
  | some idx =>
      have hadd : addEdge tg from' to' = some (tg₂.modifyNext idx (· ++ [to'])) := by
        simp only [addEdge, hadd₁, hadd₂, hsearch, Option.bind_eq_bind, Option.bind_some]
        rfl
      refine ⟨_, hadd, hwf.addEdge hadd, ?_⟩
      rw [modifyNext_keys]
      exact hsub₂

theorem exists_insertEdge {keys : List Key} (hwf : tg.WF) (hsub : tg.keys ⊆ keys)
    (hroom : keys.length ≤ MAX) {from' to' : SourceType} (hfrom : from'.key ∈ keys)
    (hto : to'.key ∈ keys) :
    ∃ tg', insertEdge tg from' to' = some tg' ∧ tg'.WF ∧ tg'.keys ⊆ keys := by
  rcases exists_addVertex hwf hsub hroom hfrom with ⟨tg₁, hadd₁, hwf₁, hsub₁⟩
  rcases exists_addVertex hwf₁ hsub₁ hroom hto with ⟨tg₂, hadd₂, hwf₂, hsub₂⟩
  rcases exists_addEdge hwf₂ hsub₂ hroom hfrom hto with ⟨tg₃, hadd₃, hwf₃, hsub₃⟩
  have hrun : insertEdge tg from' to' =
      if verifyEdge tg₂ from' to' then some tg₂ else some tg₃ := by
    simp only [insertEdge, hadd₁, hadd₂, hadd₃, Option.bind_eq_bind, Option.bind_some]
    rfl
  rw [hrun]
  split
  · exact ⟨tg₂, rfl, hwf₂, hsub₂⟩
  · exact ⟨tg₃, rfl, hwf₃, hsub₃⟩

theorem exists_recordWait {keys : List Key} (hwf : tg.WF) (hsub : tg.keys ⊆ keys)
    (hroom : keys.length ≤ MAX) {u : UInt64} (ht : (SourceType.process t).key ∈ keys)
    (hu : (SourceType.process u).key ∈ keys) (idx : ℕ) :
    ∃ tg', recordWait tg t idx u = some tg' ∧ tg'.WF ∧ tg'.keys ⊆ keys := by
  rcases exists_insertEdge hwf hsub hroom ht hu with ⟨tg', hrun, hwf', hsub'⟩
  refine ⟨tg'.modifyLock idx fun e => { e with degress := e.degress + 1 }, ?_,
    ⟨hwf'.nodup, hwf'.closed, hwf'.small⟩, hsub'⟩
  rw [recordWait_eq, hrun, Option.map_some]

theorem exists_lockBefore_loop {keys : List Key} {is : List ℕ} (hwf : tg.WF)
    (hsub : tg.keys ⊆ keys) (hroom : keys.length ≤ MAX)
    (hslots : ∀ idx ∈ is, ∃ e, tg.locklist[idx]? = some e ∧
      (e.lockId = l →
        (SourceType.process t).key ∈ keys ∧ (SourceType.process e.id).key ∈ keys)) :
    ∃ tg', is.foldlM (fun tg idx => do
      let e ← tg.locklist[idx]?
      if e.lockId = l then recordWait tg t idx e.id else return tg) tg = some tg' ∧ tg'.WF ∧
        tg'.keys ⊆ keys := by
  induction is generalizing tg with
  | nil => exact ⟨tg, rfl, hwf, hsub⟩
  | cons idx is ih =>
      rcases hslots idx List.mem_cons_self with ⟨e, he, howner⟩
      have hrest := fun i hi => hslots i (List.mem_cons_of_mem idx hi)
      rw [List.foldlM_cons, he]
      simp only [Option.bind_eq_bind, Option.bind_some]
      by_cases hl : e.lockId = l
      · rcases exists_recordWait hwf hsub hroom (howner hl).1 (howner hl).2 idx with
          ⟨tg₁, hrun, hwf₁, hsub₁⟩
        rw [if_pos hl, hrun, Option.bind_some]
        apply ih hwf₁ hsub₁
        -- the owners stay the same
        intro i hi
        rcases hrest i hi with ⟨e', he', howner'⟩
        rw [(recordWait_locks hrun).1]
        by_cases hidx : i = idx
        · rw [hidx, List.getElem?_modify_eq, he]
          exact ⟨_, rfl, howner⟩
        · rw [List.getElem?_modify_ne _ _ (Ne.symm hidx)]
          exact ⟨e', he', howner'⟩
      · rw [if_neg hl]
        exact ih hwf hsub hrest

/-- As long as the vertex table has room for the thread and the recorded owner, `lock_before`
stays inside of it. -/
theorem exists_lockBefore (h : tg.Slotted) (hwf : tg.WF) (hidx : tg.lockidx ≤ MAX)
    (hroom : tg.entries l = [] ∨ tg.HasRoom (t :: (tg.entries l).map (·.id))) :
    ∃ tg', lockBefore tg t l = some tg' ∧ tg'.WF := by
  have hget : ∀ i ∈ List.range tg.lockidx, ∃ e, tg.locklist[i]? = some e := by
    intro i hi
    have hlt : i < tg.locklist.length := by
      rw [h.length]
      exact (List.mem_range.mp hi).trans_le hidx
    exact ⟨_, List.getElem?_eq_getElem hlt⟩
  have hentries : ∀ i ∈ List.range tg.lockidx, ∀ e, tg.locklist[i]? = some e → e.lockId = l →
      e ∈ tg.entries l := by
    intro i hi e he hlock
    rw [TaskGraph.entries, List.mem_filter, List.mem_iff_getElem?]
    refine ⟨⟨i, ?_⟩, by simpa using hlock⟩
    rw [List.getElem?_take_of_lt (List.mem_range.mp hi), he]
  rcases hroom with hnone | hroom
  · have hloop : ∃ tg', lockBefore tg t l = some tg' ∧ tg'.WF ∧ tg'.keys ⊆ tg.keys := by
      apply exists_lockBefore_loop hwf (List.Subset.refl _) (tg.num_eq ▸ hwf.small)
      intro i hi
      rcases hget i hi with ⟨e, he⟩
      refine ⟨e, he, ?_⟩
      intro hlock
      have hmem := hentries i hi e he hlock
      rw [hnone] at hmem
      cases hmem
    rcases hloop with ⟨tg', hbefore, hwf', -⟩
    exact ⟨tg', hbefore, hwf'⟩
  · have hloop : ∃ tg', lockBefore tg t l = some tg' ∧ tg'.WF ∧ tg'.keys ⊆
        (tg.keys ++ (t :: (tg.entries l).map (·.id)).map fun t =>
          (SourceType.process t).key).dedup := by
      refine exists_lockBefore_loop hwf ?_ hroom ?_
      · intro a ha
        exact List.mem_dedup.mpr (List.mem_append_left _ ha)
      · intro i hi
        rcases hget i hi with ⟨e, he⟩
        refine ⟨e, he, ?_⟩
        intro hlock
        have hmem := List.mem_map_of_mem (f := (·.id)) (hentries i hi e he hlock)
        constructor
        · exact List.mem_dedup.mpr
            (List.mem_append_right _ (List.mem_map_of_mem List.mem_cons_self))
        · exact List.mem_dedup.mpr (List.mem_append_right _
            (List.mem_map_of_mem (f := fun t => (SourceType.process t).key)
              (List.mem_cons_of_mem t hmem)))
    rcases hloop with ⟨tg', hbefore, hwf', -⟩
    exact ⟨tg', hbefore, hwf'⟩

end Hooks

end ServerKit.Deadlock
