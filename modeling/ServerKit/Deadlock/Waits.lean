import ServerKit.Deadlock.Hooks

/-! # The waits in the graph, and what the hooks do to them -/

namespace ServerKit.Deadlock

open ServerKit.MarkedSearch Relation

/-! ## Graphs of threads -/

/-- All vertices are threads. -/
structure TaskGraph.Threads (tg : TaskGraph) : Prop extends tg.WF where
  process : ∀ a ∈ tg.keys, a.2 = .PROCESS

section Threads

variable {tg tg' : TaskGraph} {t u l : UInt64}

theorem SourceType.process_key_inj :
    (SourceType.process t).key = (SourceType.process u).key ↔ t = u := by
  simp [SourceType.process, SourceType.key]

theorem TaskGraph.Threads.start : TaskGraph.start.Threads := ⟨.start, fun _ h => by cases h⟩

theorem TaskGraph.Threads.exists_process (h : tg.Threads) {a : Key} (ha : a ∈ tg.keys) :
    ∃ t, a = (SourceType.process t).key :=
  ⟨a.1, Prod.ext rfl (h.process a ha)⟩

theorem TaskGraph.Threads.mem_waits (h : tg.Threads) :
    u ∈ tg.waits t ↔ (SourceType.process u).key ∈ tg.out (SourceType.process t).key := by
  rw [TaskGraph.waits, List.mem_map]
  constructor
  · rintro ⟨b, hb, rfl⟩
    obtain ⟨u, rfl⟩ := h.exists_process (h.mem_keys_of_mem_out hb)
    exact hb
  · exact fun hu => ⟨_, hu, rfl⟩

/-- The cycles of the graph are those of the waits. -/
theorem TaskGraph.Threads.exists_cycle_iff_waits (h : tg.Threads) :
    (∃ i, TransGen (Adj tg.succs) i i) ↔ ∃ t, TransGen (Adj tg.waits) t t := by
  rw [h.exists_cycle_iff]
  constructor
  · rintro ⟨a, ha⟩
    refine ⟨a.1, TransGen.lift Prod.fst (fun a b hab => ?_) a a ha⟩
    obtain ⟨t, rfl⟩ := h.exists_process (mem_keys_of_out_ne_nil (List.ne_nil_of_mem hab))
    obtain ⟨u, rfl⟩ := h.exists_process (h.mem_keys_of_mem_out hab)
    exact h.mem_waits.mpr hab
  · rintro ⟨t, ht⟩
    exact ⟨_, TransGen.lift (fun t => (SourceType.process t).key)
      (fun t u htu => h.mem_waits.mp htu) t t ht⟩

theorem TaskGraph.Threads.addVertex (h : tg.Threads)
    (hadd : Deadlock.addVertex tg (.process t) = some tg') :
    tg'.Threads ∧ tg'.waits = tg.waits := by
  refine ⟨⟨h.toWF.addVertex hadd, fun a ha => ?_⟩, ?_⟩
  · rcases (mem_addVertex_keys hadd).mp ha with ha | rfl
    · exact h.process a ha
    · rfl
  · funext u
    rw [TaskGraph.waits, TaskGraph.waits, h.addVertex_out hadd]

theorem waits_update {y : List Key}
    (hout : tg'.out = Function.update tg.out (SourceType.process t).key y) :
    tg'.waits = Function.update tg.waits t (y.map Prod.fst) := by
  funext u
  rw [TaskGraph.waits, hout]
  by_cases hut : u = t
  · rw [hut, Function.update_self, Function.update_self]
  · rw [Function.update_of_ne (mt SourceType.process_key_inj.mp hut), Function.update_of_ne hut,
      TaskGraph.waits]

theorem TaskGraph.Threads.addEdge (h : tg.Threads)
    (hadd : Deadlock.addEdge tg (.process t) (.process u) = some tg') :
    tg'.Threads ∧ tg'.waits = Function.update tg.waits t (tg.waits t ++ [u]) := by
  refine ⟨⟨h.toWF.addEdge hadd, fun a ha => ?_⟩, ?_⟩
  · rcases (mem_addEdge_keys hadd).mp ha with ha | rfl | rfl
    · exact h.process a ha
    · rfl
    · rfl
  · rw [waits_update (h.addEdge_out hadd), List.map_append]
    rfl

theorem TaskGraph.Threads.verifyEdge_iff_waits (h : tg.Threads) :
    verifyEdge tg (.process t) (.process u) ↔
      (SourceType.process t).key ∈ tg.keys ∧ (t = u ∨ u ∈ tg.waits t) := by
  rw [h.verifyEdge_iff, TaskGraph.waits, List.mem_map]
  rfl

theorem TaskGraph.Threads.not_mem_waits_of_not_mem (h : tg.Threads)
    (hu : (SourceType.process t).key ∉ tg.keys ∨ (SourceType.process u).key ∉ tg.keys) :
    u ∉ tg.waits t := by
  rw [h.mem_waits]
  rcases hu with hu | hu
  · simp [out_of_not_mem hu]
  · exact fun hmem => hu (h.mem_keys_of_mem_out hmem)

theorem dropWait_locks (tg : TaskGraph) (t u : UInt64) :
    (dropWait tg t u).locklist = tg.locklist ∧ (dropWait tg t u).lockidx = tg.lockidx := by
  rw [dropWait, dropEdge]
  split
  · exact removeEdge_locks _ _ _
  · exact ⟨rfl, rfl⟩

/-- `lock_after` erases one wait, if there is one. -/
theorem TaskGraph.Threads.dropWait (h : tg.Threads) (t u : UInt64) :
    (dropWait tg t u).Threads ∧
      (Deadlock.dropWait tg t u).waits = Function.update tg.waits t ((tg.waits t).erase u) := by
  have hsame : u ∉ tg.waits t →
      tg.waits = Function.update tg.waits t ((tg.waits t).erase u) := fun hu => by
    rw [List.erase_of_not_mem hu, Function.update_eq_self]
  rw [Deadlock.dropWait, dropEdge]
  by_cases hverify : verifyEdge tg (.process t) (.process u)
  · rw [if_pos hverify]
    refine ⟨⟨h.toWF.removeEdge _ _, by rw [removeEdge_keys]; exact h.process⟩, ?_⟩
    by_cases hu : (SourceType.process u).key ∈ tg.keys
    · rw [waits_update (h.removeEdge_out (.process t) (.process u) hu), List.erase_eq_eraseP',
        TaskGraph.waits, List.eraseP_map]
      rfl
    · rcases removeEdge_cases tg (.process t) (.process u) with ⟨_, -, hmem, -⟩ | ⟨-, hremove⟩
      · exact absurd hmem hu
      · rw [hremove]
        exact hsame (h.not_mem_waits_of_not_mem (.inr hu))
  · rw [if_neg hverify]
    rw [h.verifyEdge_iff_waits] at hverify
    refine ⟨h, hsame fun hu => hverify ⟨?_, .inr hu⟩⟩
    exact mem_keys_of_out_ne_nil (List.ne_nil_of_mem (h.mem_waits.mp hu))

end Threads

/-! ## What the hooks do -/

/-- The owner and the mutex of every slot. -/
def TaskGraph.locks (tg : TaskGraph) : List (UInt64 × UInt64) :=
  tg.locklist.map fun e => (e.id, e.lockId)

def TaskGraph.lockIds (tg : TaskGraph) : List UInt64 := tg.locks.map Prod.snd

/-- The recorded owners of a mutex. -/
def TaskGraph.owners (tg : TaskGraph) (l : UInt64) : List UInt64 :=
  ((tg.locks.take tg.lockidx).filter (·.2 = l)).map Prod.fst

/-- One more wait of `t`: no thread is recorded to wait for itself. -/
def record (t : UInt64) (ws : List UInt64) (u : UInt64) : List UInt64 :=
  if t = u ∨ u ∈ ws then ws else ws ++ [u]

section Hooks

variable {tg tg' : TaskGraph} {t u l : UInt64} {idx : ℕ}

theorem mem_owners : u ∈ tg.owners l ↔ tg.Recorded l u := by
  simp only [TaskGraph.owners, TaskGraph.locks, TaskGraph.Recorded, ← List.map_take, List.mem_map,
    List.mem_filter, decide_eq_true_eq]
  constructor
  · rintro ⟨_, ⟨⟨e, he, rfl⟩, hl⟩, rfl⟩
    exact ⟨e, he, hl, rfl⟩
  · rintro ⟨e, he, rfl, rfl⟩
    exact ⟨_, ⟨⟨e, he, rfl⟩, rfl⟩, rfl⟩

theorem mem_foldl_record {us ws : List UInt64} :
    u ∈ us.foldl (record t) ws ↔ u ∈ ws ∨ u ∈ us ∧ t ≠ u := by
  induction us generalizing ws with
  | nil => simp
  | cons v us ih =>
    rw [List.foldl_cons, ih, record]
    by_cases hv : t = v ∨ v ∈ ws
    · rw [if_pos hv, List.mem_cons]
      constructor
      · tauto
      · rintro (hu | ⟨rfl | hu, hne⟩)
        · exact .inl hu
        · exact .inl (hv.resolve_left hne)
        · exact .inr ⟨hu, hne⟩
    · rw [if_neg hv, List.mem_append, List.mem_singleton, List.mem_cons]
      constructor
      · rintro ((hu | rfl) | hu)
        · exact .inl hu
        · exact .inr ⟨.inl rfl, fun h => hv (.inl h)⟩
        · exact .inr ⟨.inr hu.1, hu.2⟩
      · tauto

theorem modifyLock_locks {f : SourceType → SourceType} {g : UInt64 × UInt64 → UInt64 × UInt64}
    (hfg : ∀ e, ((f e).id, (f e).lockId) = g (e.id, e.lockId)) :
    (tg.modifyLock idx f).locks = tg.locks.modify idx g := by
  apply List.ext_getElem?
  intro n
  simp only [TaskGraph.locks, TaskGraph.modifyLock, List.getElem?_map, List.getElem?_modify]
  split <;> simp [Option.map_map, Function.comp_def, hfg]

theorem TaskGraph.Threads.modifyLock (h : tg.Threads) (idx : ℕ) (f : SourceType → SourceType) :
    (tg.modifyLock idx f).Threads :=
  ⟨⟨h.nodup, h.closed, h.small⟩, h.process⟩

theorem recordWait_spec (h : tg.Threads) (hrecord : recordWait tg t idx u = some tg') :
    tg'.Threads ∧ tg'.locks = tg.locks ∧ tg'.lockidx = tg.lockidx ∧
      tg'.waits = Function.update tg.waits t (record t (tg.waits t) u) := by
  obtain ⟨tg₁, hadd₁, hrecord⟩ := Option.bind_eq_some_iff.mp hrecord
  obtain ⟨tg₂, hadd₂, hrecord⟩ := Option.bind_eq_some_iff.mp hrecord
  obtain ⟨h₁, hwaits₁⟩ := h.addVertex hadd₁
  obtain ⟨h₂, hwaits₂⟩ := (h₁.modifyLock _ _).addVertex hadd₂
  obtain ⟨hlist₁, hidx₁⟩ := addVertex_locks hadd₁
  obtain ⟨hlist₂, hidx₂⟩ := addVertex_locks hadd₂
  have hwaits : tg₂.waits = tg.waits := hwaits₂.trans hwaits₁
  have hidx : tg₂.lockidx = tg.lockidx := hidx₂.trans hidx₁
  have hlocks : tg₂.locks = tg.locks := by
    have hdegress : (tg₁.modifyLock idx fun e => { e with degress := e.degress + 1 }).locks =
        tg₁.locks.modify idx id := modifyLock_locks fun _ => rfl
    rw [TaskGraph.locks, hlist₂, ← TaskGraph.locks, hdegress, List.modify_id, TaskGraph.locks,
      hlist₁, TaskGraph.locks]
  have hfrom : (SourceType.process t).key ∈ tg₂.keys :=
    (mem_addVertex_keys hadd₂).mpr (.inl ((mem_addVertex_keys hadd₁).mpr (.inr rfl)))
  rw [record, ← hwaits]
  by_cases hverify : verifyEdge tg₂ (.process t) (.process u)
  · rw [if_pos hverify] at hrecord
    cases hrecord
    rw [if_pos (h₂.verifyEdge_iff_waits.mp hverify).2, Function.update_eq_self]
    exact ⟨h₂, hlocks, hidx, rfl⟩
  · rw [if_neg hverify] at hrecord
    have hnot : ¬ (t = u ∨ u ∈ tg₂.waits t) := fun hu =>
      hverify (h₂.verifyEdge_iff_waits.mpr ⟨hfrom, hu⟩)
    obtain ⟨hlist₃, hidx₃⟩ := addEdge_locks hrecord
    obtain ⟨h₃, hwaits₃⟩ := h₂.addEdge hrecord
    rw [if_neg hnot]
    exact ⟨h₃, by rw [TaskGraph.locks, hlist₃, ← TaskGraph.locks, hlocks], hidx₃.trans hidx,
      hwaits₃⟩

/-- The pass of the loop of `lock_before` over some slots. -/
theorem lockBefore_loop {is : List ℕ} (h : tg.Threads)
    (hbefore : is.foldlM (fun tg idx => do
      let e ← tg.locklist[idx]?
      if e.lockId = l then recordWait tg t idx e.id else return tg) tg = some tg') :
    tg'.Threads ∧ tg'.locks = tg.locks ∧ tg'.lockidx = tg.lockidx ∧
      tg'.waits = Function.update tg.waits t
        ((((is.filterMap (tg.locks[·]?)).filter (·.2 = l)).map Prod.fst).foldl (record t)
          (tg.waits t)) := by
  induction is generalizing tg with
  | nil =>
    cases hbefore
    exact ⟨h, rfl, rfl, (Function.update_eq_self _ _).symm⟩
  | cons idx is ih =>
    obtain ⟨tg₁, hbody, hrest⟩ := Option.bind_eq_some_iff.mp hbefore
    obtain ⟨e, he, hbody⟩ := Option.bind_eq_some_iff.mp hbody
    have hlock : tg.locks[idx]? = some (e.id, e.lockId) := by
      rw [TaskGraph.locks, List.getElem?_map, he, Option.map_some]
    rw [List.filterMap_cons_some hlock]
    by_cases hl : e.lockId = l
    · rw [if_pos hl] at hbody
      obtain ⟨h₁, hlocks₁, hidx₁, hwaits₁⟩ := recordWait_spec h hbody
      obtain ⟨h', hlocks, hidx, hwaits⟩ := ih h₁ hrest
      refine ⟨h', hlocks.trans hlocks₁, hidx.trans hidx₁, ?_⟩
      rw [hwaits, hwaits₁, hlocks₁, List.filter_cons_of_pos (by simpa using hl), List.map_cons,
        List.foldl_cons, Function.update_idem, Function.update_self]
    · rw [if_neg hl] at hbody
      cases hbody
      rw [List.filter_cons_of_neg (by simpa using hl)]
      exact ih h hrest

theorem filterMap_range_getElem? {α : Type*} (xs : List α) (n : ℕ) :
    (List.range n).filterMap (xs[·]?) = xs.take n := by
  induction n with
  | zero => rfl
  | succ n ih =>
    rw [List.range_succ, List.filterMap_append, ih, List.take_add_one]
    cases h : xs[n]? <;> simp [h]

/-- `lock_before` records the owners of the mutex, except the thread itself. -/
theorem lockBefore_spec (h : tg.Threads) (hbefore : lockBefore tg t l = some tg') :
    tg'.Threads ∧ tg'.locks = tg.locks ∧ tg'.lockidx = tg.lockidx ∧
      tg'.waits = Function.update tg.waits t ((tg.owners l).foldl (record t) (tg.waits t)) := by
  have hloop := lockBefore_loop h hbefore
  rwa [filterMap_range_getElem?] at hloop

theorem scanLocks_some {i : ℕ} (h : scanLocks tg l = some (some i)) :
    i < tg.lockidx ∧ tg.lockIds[i]? = some l := by
  rw [scanLocks] at h
  split at h
  · rename_i j hj
    cases h
    obtain ⟨hi, hl, -⟩ := List.findIdx?_eq_some_iff_getElem.mp hj
    rw [List.getElem_take] at hl
    simp only [List.length_take] at hi
    refine ⟨by omega, ?_⟩
    simp only [TaskGraph.lockIds, TaskGraph.locks, List.map_map, List.getElem?_map]
    rw [List.getElem?_eq_getElem (by omega)]
    simpa using hl
  · split at h <;> cases h

theorem scanLocks_none (h : scanLocks tg l = some none) :
    tg.lockidx ≤ tg.locklist.length ∧ ∀ i < tg.lockidx, tg.lockIds[i]? ≠ some l := by
  rw [scanLocks] at h
  split at h
  · cases h
  · rename_i hnone
    split at h
    · rename_i hle
      refine ⟨hle, ?_⟩
      intro i hi hl
      have hlist : i < tg.locklist.length := by omega
      simp only [TaskGraph.lockIds, TaskGraph.locks, List.map_map, List.getElem?_map,
        List.getElem?_eq_getElem hlist] at hl
      have := List.findIdx?_eq_none_iff.mp hnone tg.locklist[i]
        (List.mem_take_iff_getElem.mpr ⟨i, by omega, rfl⟩)
      simp_all
    · cases h

theorem lockIds_getElem? {i : ℕ} {e : SourceType} (he : tg.locklist[i]? = some e) :
    tg.lockIds[i]? = some e.lockId := by
  simp [TaskGraph.lockIds, TaskGraph.locks, he]

theorem recorded_of_scanLocks {i : ℕ} {e : SourceType} (h : scanLocks tg l = some (some i))
    (he : tg.locklist[i]? = some e) : tg.Recorded l e.id := by
  obtain ⟨hi, hl⟩ := scanLocks_some h
  obtain ⟨hlen, rfl⟩ := List.getElem?_eq_some_iff.mp he
  have hlock := (lockIds_getElem? he).symm.trans hl
  exact ⟨_, List.mem_take_iff_getElem.mpr ⟨i, by omega, rfl⟩, Option.some.inj hlock, rfl⟩

theorem not_recorded_of_scanLocks (h : scanLocks tg l = some none) : ¬ tg.Recorded l u := by
  rintro ⟨e, he, hl, -⟩
  obtain ⟨i, hi, rfl⟩ := List.mem_take_iff_getElem.mp he
  have := lockIds_getElem? (List.getElem?_eq_getElem (by omega : i < tg.locklist.length))
  exact (scanLocks_none h).2 i (by omega) (hl ▸ this)

/-- A slot that keeps its mutex. -/
theorem modifyLock_lockIds_same {f : SourceType → SourceType} (hf : ∀ e, (f e).lockId = e.lockId) :
    (tg.modifyLock idx f).lockIds = tg.lockIds := by
  apply List.ext_getElem?
  intro n
  simp only [TaskGraph.lockIds, TaskGraph.locks, TaskGraph.modifyLock, List.map_map,
    List.getElem?_map, List.getElem?_modify]
  split <;> simp [Option.map_map, Function.comp_def, hf]

/-- A slot that gets the mutex `l`. -/
theorem modifyLock_lockIds_set {f : SourceType → SourceType} (hf : ∀ e, (f e).lockId = l) :
    (tg.modifyLock idx f).lockIds = tg.lockIds.set idx l := by
  apply List.ext_getElem?
  intro n
  simp only [TaskGraph.lockIds, TaskGraph.locks, TaskGraph.modifyLock, List.map_map,
    List.getElem?_map, List.getElem?_modify, List.getElem?_set, List.length_map]
  by_cases hn : idx = n
  · subst hn
    by_cases hlt : idx < tg.locklist.length
    · simp [hlt, hf]
    · simp [hlt]
  · simp [hn, Function.comp_def]

/-- `lock_after` erases the wait for the recorded owner, or takes a new slot. -/
theorem lockAfter_spec (h : tg.Threads) (hafter : lockAfter tg t l = some tg') :
    tg'.Threads ∧
      ((∃ u, tg.Recorded l u ∧ tg'.waits = Function.update tg.waits t ((tg.waits t).erase u) ∧
          tg'.lockIds = tg.lockIds ∧ tg'.lockidx = tg.lockidx) ∨
        (∀ u, ¬ tg.Recorded l u) ∧ tg'.waits = tg.waits ∧ tg'.lockidx = tg.lockidx + 1 ∧
          (∀ i < tg.lockidx, tg.lockIds[i]? ≠ some l) ∧
          ∃ eidx ≤ tg.lockidx, tg'.lockIds = tg.lockIds.set eidx l) := by
  obtain ⟨found, hscan, hafter⟩ := Option.bind_eq_some_iff.mp hafter
  cases found with
  | none =>
    obtain ⟨eidx, hempty, hafter⟩ := Option.bind_eq_some_iff.mp hafter
    split at hafter
    · cases hafter
      refine ⟨⟨⟨h.nodup, h.closed, h.small⟩, h.process⟩, .inr ⟨fun u =>
        not_recorded_of_scanLocks hscan, rfl, rfl, (scanLocks_none hscan).2, eidx, ?_,
        modifyLock_lockIds_set fun _ => rfl⟩⟩
      obtain ⟨i, hi, rfl⟩ := Option.map_eq_some_iff.mp hempty
      cases i with
      | none => exact le_rfl
      | some i => exact (scanLocks_some hi).1.le
    · cases hafter
  | some idx =>
    obtain ⟨e, he, hafter⟩ := Option.bind_eq_some_iff.mp hafter
    cases hafter
    have hmodify := h.modifyLock idx fun e => { e with degress := e.degress - 1 }
    obtain ⟨hdrop, hwaits⟩ := hmodify.dropWait t e.id
    refine ⟨hdrop.modifyLock _ _, .inl ⟨e.id, recorded_of_scanLocks hscan he, hwaits, ?_, ?_⟩⟩
    · apply (modifyLock_lockIds_same (f := fun e => { e with id := t }) fun _ => rfl).trans
      rw [TaskGraph.lockIds, TaskGraph.locks, (dropWait_locks _ _ _).1]
      exact modifyLock_lockIds_same (f := fun e => { e with degress := e.degress - 1 }) fun _ => rfl
    · exact (dropWait_locks _ _ _).2

/-- `unlock_after` clears a slot, or does nothing. -/
theorem unlockAfter_spec (h : tg.Threads) (hunlock : unlockAfter tg l = some tg') :
    tg'.Threads ∧ tg'.waits = tg.waits ∧ tg'.lockidx = tg.lockidx ∧
      (tg'.lockIds = tg.lockIds ∨ ∃ idx, tg'.lockIds = tg.lockIds.set idx 0) := by
  obtain ⟨found, -, hunlock⟩ := Option.bind_eq_some_iff.mp hunlock
  obtain ⟨idx, -, hunlock⟩ := Option.bind_eq_some_iff.mp hunlock
  obtain ⟨e, -, hunlock⟩ := Option.bind_eq_some_iff.mp hunlock
  split at hunlock <;> cases hunlock
  · exact ⟨h.modifyLock _ _, rfl, rfl, .inr ⟨idx, modifyLock_lockIds_set fun _ => rfl⟩⟩
  · exact ⟨h, rfl, rfl, .inl rfl⟩

end Hooks

end ServerKit.Deadlock
