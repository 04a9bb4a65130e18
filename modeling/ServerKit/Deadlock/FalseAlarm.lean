import ServerKit.Deadlock.Waits

/-! # No false alarms if no edge is stale

An edge names the owner of the mutex when the wait begins. It outlives the wait when
`lock_after` looks for an edge to another owner; and even an edge that will be removed is
stale between the release of the mutex and the end of the wait. -/

namespace ServerKit.Deadlock

open ServerKit.MarkedSearch ServerKit.System Relation

/-- The steps that do not build on a stale edge: a new edge leads to a thread that holds
the mutex or has no edge itself, from a thread with live edges to it only; and a finished
wait was for the owner that is recorded last. -/
def System.LeavesNoneStale (s : System) : Action → Prop
  | .lockBefore t l => ∀ v, t ≠ v → s.tg.Recorded l v →
      (s.tg.waits v ≠ [] → s.holder l = some v) ∧ ∀ x, t ∈ s.tg.waits x → s.WaitsFor x t
  | .lockAfter t l => ∀ u ∈ s.tg.waits t, s.tg.Recorded l u
  | _ => True

/-- No mutex has two slots, and the unused slots are clear. -/
structure TaskGraph.Slots (tg : TaskGraph) : Prop where
  unique : ∀ (i j : ℕ) (l : UInt64), tg.lockIds[i]? = some l → tg.lockIds[j]? = some l →
    l ≠ 0 → i = j
  clear : ∀ (i : ℕ) (l : UInt64), tg.lockidx ≤ i → tg.lockIds[i]? = some l → l = 0

/-- A thread has at most one edge, only while it is in `pthread_mutex_lock`; and an edge
to a thread that has an edge itself is a real wait. -/
structure System.Live (s : System) : Prop where
  threads : s.tg.Threads
  slots : s.tg.Slots
  nonzero : ∀ t l, s.pc t = .waiting l ∨ s.pc t = .acquired l → l ≠ 0
  short : ∀ t, (s.tg.waits t).length ≤ 1
  locking : ∀ t, s.tg.waits t ≠ [] → ∃ l, s.pc t = .waiting l ∨ s.pc t = .acquired l
  live : ∀ t u, u ∈ s.tg.waits t → s.tg.waits u ≠ [] → s.WaitsFor t u

/-! ## Slots -/

section Slots

variable {tg tg' : TaskGraph} {l u v : UInt64}

theorem TaskGraph.Slots.of_eq (h : tg.Slots) (hids : tg'.lockIds = tg.lockIds)
    (hidx : tg'.lockidx = tg.lockidx) : tg'.Slots :=
  ⟨by rw [hids]; exact h.unique, by rw [hids, hidx]; exact h.clear⟩

theorem TaskGraph.Slots.set_zero (h : tg.Slots) {idx : ℕ}
    (hids : tg'.lockIds = tg.lockIds.set idx 0) (hidx : tg'.lockidx = tg.lockidx) : tg'.Slots := by
  have hkept : ∀ (i : ℕ) (l : UInt64), tg'.lockIds[i]? = some l → l ≠ 0 →
      tg.lockIds[i]? = some l := by
    intro i l hi hl
    rw [hids, List.getElem?_set] at hi
    split at hi
    · split at hi
      · exact absurd (Option.some.inj hi).symm hl
      · cases hi
    · exact hi
  refine ⟨fun i j l hi hj hl => h.unique i j l (hkept i l hi hl) (hkept j l hj hl) hl,
    fun i l hle hi => ?_⟩
  by_contra hl
  exact hl (h.clear i l (hidx ▸ hle) (hkept i l hi hl))

theorem TaskGraph.Slots.set_new (h : tg.Slots) {idx : ℕ} (hl : l ≠ 0)
    (hnew : ∀ i < tg.lockidx, tg.lockIds[i]? ≠ some l) (hle : idx ≤ tg.lockidx)
    (hids : tg'.lockIds = tg.lockIds.set idx l) (hidx : tg'.lockidx = tg.lockidx + 1) :
    tg'.Slots := by
  have hold : ∀ (i : ℕ) (m : UInt64), idx ≠ i → tg'.lockIds[i]? = some m →
      tg.lockIds[i]? = some m := by
    intro i m hne hi
    rwa [hids, List.getElem?_set_ne hne] at hi
  have hown : ∀ i : ℕ, idx ≠ i → tg'.lockIds[i]? ≠ some l := by
    intro i hne hi
    have hi := hold i l hne hi
    rcases Nat.lt_or_ge i tg.lockidx with hlt | hge
    · exact hnew i hlt hi
    · exact hl (h.clear i l hge hi)
  have hslot : ∀ m, tg'.lockIds[idx]? = some m → m = l := by
    intro m hm
    rw [hids, List.getElem?_set_self'] at hm
    obtain ⟨_, -, rfl⟩ := Option.map_eq_some_iff.mp hm
    rfl
  refine ⟨fun i j m hi hj hm => ?_, fun i m hge hi => ?_⟩
  · by_cases hii : idx = i
    · by_cases hij : idx = j
      · omega
      · subst hii
        rw [hslot m hi] at hj
        exact absurd hj (hown j hij)
    · by_cases hij : idx = j
      · subst hij
        rw [hslot m hj] at hi
        exact absurd hi (hown i hii)
      · exact h.unique i j m (hold i m hii hi) (hold j m hij hj) hm
  · exact h.clear i m (by omega) (hold i m (by omega) hi)

theorem TaskGraph.Slots.owners_length_le (h : tg.Slots) (hl : l ≠ 0) :
    (tg.owners l).length ≤ 1 := by
  have hpair : tg.locks.Pairwise fun p q => p.2 = l → q.2 ≠ l := by
    rw [List.pairwise_iff_getElem]
    intro i j hi hj hij hp hq
    have hids : ∀ n (hn : n < tg.locks.length), tg.locks[n].2 = l → tg.lockIds[n]? = some l :=
      fun n hn hnl => by simp [TaskGraph.lockIds, List.getElem?_eq_getElem hn, hnl]
    have := h.unique i j l (hids i hi hp) (hids j hj hq) hl
    omega
  rw [TaskGraph.owners, List.length_map]
  have hfilter := (hpair.sublist (List.take_sublist tg.lockidx _)).filter (·.2 = l)
  have hmem : ∀ p ∈ (tg.locks.take tg.lockidx).filter (·.2 = l), p.2 = l := fun p hp =>
    of_decide_eq_true (List.mem_filter.mp hp).2
  generalize (tg.locks.take tg.lockidx).filter (·.2 = l) = ps at hfilter hmem ⊢
  rcases ps with _ | ⟨p, _ | ⟨q, rest⟩⟩
  · exact Nat.zero_le 1
  · exact le_rfl
  · have hpq := (List.pairwise_cons.mp hfilter).1 q (by simp) (hmem p (by simp))
    exact absurd (hmem q (by simp)) hpq

theorem TaskGraph.Slots.recorded_unique (h : tg.Slots) (hl : l ≠ 0) (hu : tg.Recorded l u)
    (hv : tg.Recorded l v) : u = v := by
  have hlen := h.owners_length_le hl
  rw [← mem_owners] at hu hv
  match hus : tg.owners l, hlen with
  | [], _ => simp [hus] at hu
  | [w], _ =>
    simp only [hus, List.mem_singleton] at hu hv
    rw [hu, hv]

end Slots

/-! ## Every step -/

theorem System.Live.start {s : System} (h : s.Start) : s.Live := by
  cases h
  have hids : ∀ (i : ℕ) (l : UInt64), TaskGraph.start.lockIds[i]? = some l → l = 0 := by
    intro i l hi
    have := List.mem_of_getElem? hi
    simp only [TaskGraph.lockIds, TaskGraph.locks, TaskGraph.start, List.map_replicate] at this
    exact List.eq_of_mem_replicate this
  refine ⟨.start, ⟨fun i j l hi _ hl => absurd (hids i l hi) hl, fun i l _ hi => hids i l hi⟩,
    fun t l h => ?_, fun t => Nat.zero_le 1, fun t h => absurd rfl h, fun t u hu => ?_⟩
  · rcases h with h | h <;> cases h
  · cases hu

/-- Without edges at first, `lock_before` leaves at most one, to a recorded owner. -/
theorem foldl_record_nil {us : List UInt64} (hus : us.length ≤ 1) (t : UInt64) :
    us.foldl (record t) [] = [] ∨ ∃ v ∈ us, t ≠ v ∧ us.foldl (record t) [] = [v] := by
  match us with
  | [] => exact .inl rfl
  | [v] =>
    by_cases htv : t = v
    · exact .inl (by simp [record, htv])
    · exact .inr ⟨v, List.mem_singleton_self v, htv, by simp [record, htv]⟩

/-- Outside of `pthread_mutex_lock` a thread has no edge. -/
theorem System.Live.waits_eq_nil {s : System} {t : UInt64} (h : s.Live)
    (hpc : ∀ l, s.pc t ≠ .waiting l ∧ s.pc t ≠ .acquired l) : s.tg.waits t = [] := by
  by_contra hne
  obtain ⟨l, hl | hl⟩ := h.locking t hne
  · exact (hpc l).1 hl
  · exact (hpc l).2 hl

theorem System.Live.lockBefore {s : System} {t l : UInt64} {tg : TaskGraph} (h : s.Live)
    (hguard : s.LeavesNoneStale (.lockBefore t l)) (hpc : s.pc t = .idle) (hl : l ≠ 0)
    (hbefore : lockBefore s.tg t l = some tg) :
    System.Live { s with tg := tg, pc := Function.update s.pc t (.waiting l) } := by
  obtain ⟨hthreads, hlocks, hidx, hwaits⟩ := lockBefore_spec h.threads hbefore
  have hnone : s.tg.waits t = [] := h.waits_eq_nil (by simp [hpc])
  have hnew := foldl_record_nil (h.slots.owners_length_le hl) t
  rw [hnone] at hwaits
  have hother : ∀ x, x ≠ t → tg.waits x = s.tg.waits x := fun x hx => by
    rw [hwaits, Function.update_of_ne hx]
  have hown : tg.waits t = (s.tg.owners l).foldl (record t) [] := by
    rw [hwaits, Function.update_self]
  have hwaitsFor : ∀ x u, x ≠ t → s.WaitsFor x u → System.WaitsFor
      { s with tg := tg, pc := Function.update s.pc t (.waiting l) } x u :=
    fun x u hx ⟨m, hm, hu⟩ => ⟨m, by simpa [Function.update_of_ne hx] using hm, hu⟩
  refine ⟨hthreads, h.slots.of_eq (by rw [TaskGraph.lockIds, hlocks, TaskGraph.lockIds]) hidx,
    fun x m hm => ?_, fun x => ?_, fun x hx => ?_, fun x u hu hne => ?_⟩
  · by_cases hxt : x = t
    · simp only [hxt, Function.update_self] at hm
      rcases hm with hm | hm <;> cases hm
      exact hl
    · simp only [Function.update_of_ne hxt] at hm
      exact h.nonzero x m hm
  · by_cases hxt : x = t
    · subst hxt
      rw [hown]
      rcases hnew with hnew | ⟨v, -, -, hnew⟩ <;> simp [hnew]
    · rw [hother x hxt]
      exact h.short x
  · by_cases hxt : x = t
    · exact ⟨l, .inl (by simp [hxt])⟩
    · simp only [hother x hxt] at hx
      simpa [Function.update_of_ne hxt] using h.locking x hx
  · simp only at hu hne
    by_cases hxt : x = t
    · -- the new edge
      subst hxt
      rw [hown] at hu
      rcases hnew with hnew | ⟨v, hv, hxv, hnew⟩
      · simp [hnew] at hu
      · obtain rfl : u = v := by simpa [hnew] using hu
        rw [hother u (Ne.symm hxv)] at hne
        exact ⟨l, by simp, (hguard u hxv (mem_owners.mp hv)).1 hne⟩
    · rw [hother x hxt] at hu
      apply hwaitsFor x u hxt
      by_cases hut : u = t
      · -- an old edge to the thread that now waits
        subst hut
        rw [hown] at hne
        rcases hnew with hnew | ⟨v, hv, huv, -⟩
        · exact absurd hnew hne
        · exact (hguard v huv (mem_owners.mp hv)).2 x hu
      · rw [hother u hut] at hne
        exact h.live x u hu hne

theorem System.Live.acquire {s : System} {t l : UInt64} (h : s.Live) (hpc : s.pc t = .waiting l)
    (hfree : s.holder l = none) :
    System.Live { s with
      pc := Function.update s.pc t (.acquired l)
      holder := Function.update s.holder l (some t) } := by
  refine ⟨h.threads, h.slots, fun x m hm => ?_, h.short, fun x hx => ?_, fun x u hu hne => ?_⟩
  · by_cases hxt : x = t
    · simp only [hxt, Function.update_self] at hm
      rcases hm with hm | hm <;> cases hm
      exact h.nonzero t l (.inl hpc)
    · simp only [Function.update_of_ne hxt] at hm
      exact h.nonzero x m hm
  · by_cases hxt : x = t
    · exact ⟨l, .inr (by simp [hxt])⟩
    · simpa [Function.update_of_ne hxt] using h.locking x hx
  · -- the mutex was free: no real wait was for it
    obtain ⟨m, hm, hmu⟩ := h.live x u hu hne
    have hml : m ≠ l := by
      rintro rfl
      rw [hfree] at hmu
      cases hmu
    have hxt : x ≠ t := by
      rintro rfl
      rw [hpc] at hm
      cases hm
      exact hml rfl
    exact ⟨m, by simpa [Function.update_of_ne hxt] using hm,
      by simpa [Function.update_of_ne hml] using hmu⟩

/-- A step that ends one of the two calls: the thread keeps no edge. -/
theorem System.Live.settle {s : System} {t : UInt64} {tg : TaskGraph} (h : s.Live)
    (hthreads : tg.Threads) (hslots : tg.Slots) (hnone : tg.waits t = [])
    (hother : ∀ x, x ≠ t → tg.waits x = s.tg.waits x) :
    System.Live { s with tg := tg, pc := Function.update s.pc t .idle } := by
  have hne : ∀ x, tg.waits x ≠ [] → x ≠ t := by
    rintro x hx rfl
    exact hx hnone
  refine ⟨hthreads, hslots, fun x m hm => ?_, fun x => ?_, fun x hx => ?_, fun x u hu hwaits => ?_⟩
  · have hxt : x ≠ t := by
      rintro rfl
      simp at hm
    simp only [Function.update_of_ne hxt] at hm
    exact h.nonzero x m hm
  · by_cases hxt : x = t
    · simp [hxt, hnone]
    · rw [hother x hxt]
      exact h.short x
  · have hxt := hne x hx
    rw [hother x hxt] at hx
    simpa [Function.update_of_ne hxt] using h.locking x hx
  · have hxt := hne x (List.ne_nil_of_mem hu)
    have hut := hne u hwaits
    rw [hother x hxt] at hu
    rw [hother u hut] at hwaits
    obtain ⟨m, hm, hmu⟩ := h.live x u hu hwaits
    exact ⟨m, by simpa [Function.update_of_ne hxt] using hm, hmu⟩

theorem System.Live.lockAfter {s : System} {t l : UInt64} {tg : TaskGraph} (h : s.Live)
    (hguard : s.LeavesNoneStale (.lockAfter t l)) (hpc : s.pc t = .acquired l)
    (hafter : lockAfter s.tg t l = some tg) :
    System.Live { s with tg := tg, pc := Function.update s.pc t .idle } := by
  have hl := h.nonzero t l (.inr hpc)
  obtain ⟨hthreads, ⟨u, hu, hwaits, hids, hidx⟩ | ⟨hnew, hwaits, hidx, hslot, eidx, hle, hids⟩⟩ :=
    lockAfter_spec h.threads hafter
  · refine h.settle hthreads (h.slots.of_eq hids hidx) ?_ fun x hx => ?_
    · have hshort := h.short t
      rw [hwaits, Function.update_self]
      match hws : s.tg.waits t with
      | [] => rfl
      | [w] =>
        have hw := hguard w (by simp [hws])
        simp [h.slots.recorded_unique hl hw hu]
      | _ :: _ :: _ => simp [hws] at hshort
    · rw [hwaits, Function.update_of_ne hx]
  · refine h.settle hthreads (h.slots.set_new hl hslot hle hids hidx) ?_ fun x _ => by rw [hwaits]
    rw [hwaits]
    exact List.eq_nil_iff_forall_not_mem.mpr fun u hu => hnew u (hguard u hu)

theorem System.Live.release {s : System} {t l : UInt64} (h : s.Live) (hpc : s.pc t = .idle)
    (hholder : s.holder l = some t) :
    System.Live { s with
      pc := Function.update s.pc t (.released l)
      holder := Function.update s.holder l none } := by
  have hnone : s.tg.waits t = [] := h.waits_eq_nil (by simp [hpc])
  have hne : ∀ x, s.tg.waits x ≠ [] → x ≠ t := by
    rintro x hx rfl
    exact hx hnone
  refine ⟨h.threads, h.slots, fun x m hm => ?_, h.short, fun x hx => ?_, fun x u hu hwaits => ?_⟩
  · have hxt : x ≠ t := by
      rintro rfl
      simp at hm
    simp only [Function.update_of_ne hxt] at hm
    exact h.nonzero x m hm
  · simpa [Function.update_of_ne (hne x hx)] using h.locking x hx
  · -- the thread that releases has no edge: no edge to it has to be live
    obtain ⟨m, hm, hmu⟩ := h.live x u hu hwaits
    have hml : m ≠ l := by
      rintro rfl
      rw [hholder] at hmu
      exact hne u hwaits (Option.some.inj hmu).symm
    exact ⟨m, by simpa [Function.update_of_ne (hne x (List.ne_nil_of_mem hu))] using hm,
      by simpa [Function.update_of_ne hml] using hmu⟩

theorem System.Live.unlockAfter {s : System} {t l : UInt64} {tg : TaskGraph} (h : s.Live)
    (hpc : s.pc t = .released l) (hunlock : unlockAfter s.tg l = some tg) :
    System.Live { s with tg := tg, pc := Function.update s.pc t .idle } := by
  obtain ⟨hthreads, hwaits, hidx, hids⟩ := unlockAfter_spec h.threads hunlock
  have hslots : tg.Slots := by
    rcases hids with hids | ⟨idx, hids⟩
    · exact h.slots.of_eq hids hidx
    · exact h.slots.set_zero hids hidx
  refine h.settle hthreads hslots ?_ fun x _ => by rw [hwaits]
  rw [hwaits]
  exact h.waits_eq_nil (by simp [hpc])

theorem System.Live.step {s s' : System} {action : Action} (h : s.Live)
    (hguard : s.LeavesNoneStale action) (hnext : s.next action = some s') : s'.Live := by
  have hstep := System.next_cases hnext
  cases action with
  | lockBefore t l =>
    obtain ⟨hpc, hl, tg, hbefore, rfl⟩ := hstep
    exact h.lockBefore hguard hpc hl hbefore
  | acquire t l =>
    obtain ⟨hpc, hfree, rfl⟩ := hstep
    exact h.acquire hpc hfree
  | lockAfter t l =>
    obtain ⟨hpc, tg, hafter, rfl⟩ := hstep
    exact h.lockAfter hguard hpc hafter
  | release t l =>
    obtain ⟨hpc, hholder, rfl⟩ := hstep
    exact h.release hpc hholder
  | unlockAfter t l =>
    obtain ⟨hpc, tg, hunlock, rfl⟩ := hstep
    exact h.unlockAfter hpc hunlock

/-! ## Every run -/

/-- The edges on the way to a thread with an edge are real waits. -/
theorem System.Live.transGen {s : System} {t u : UInt64} (h : s.Live)
    (htu : TransGen (Adj s.tg.waits) t u) (hu : s.tg.waits u ≠ []) : TransGen s.WaitsFor t u := by
  induction htu with
  | single htu => exact .single (h.live _ _ htu hu)
  | tail _ hlast ih => exact (ih (List.ne_nil_of_mem hlast)).tail (h.live _ _ hlast hu)

theorem System.Live.succs_length_le {s : System} (h : s.Live) (i : ℕ) :
    (s.tg.succs i).length ≤ 1 := by
  rw [TaskGraph.succs]
  cases hi : s.tg.list[i]? with
  | none => exact Nat.zero_le 1
  | some v =>
    have hv := List.mem_of_getElem? hi
    obtain ⟨t, ht⟩ := h.threads.exists_process (List.mem_map_of_mem (f := (·.s.key)) hv)
    have hlen : (s.tg.waits t).length = v.next.length := by
      rw [TaskGraph.waits, List.length_map, ← ht, h.threads.out_eq hv, List.length_map]
    exact (List.length_filterMap_le _ _).trans (hlen ▸ h.short t)

/-- **No false alarm.** As long as no step builds on a stale edge, `check_dead_lock` sets
`deadlock` only if threads really wait for each other in a circle, and a thread that is
outside of the hooked calls has no edge. -/
theorem deadlock_is_real {s : System}
    (h : Reachable System.next System.Start System.LeavesNoneStale s) :
    (∀ st, ∃ st', checkDeadLock s.tg st = some st' ∧ (st'.deadlock = 1 → s.Deadlocked)) ∧
      ∀ t, s.pc t = .idle → s.tg.waits t = [] := by
  have hs : s.Live := h.invariant (fun _ => .start) fun _ _ _ hs hguard hnext =>
    hs.step hguard hnext
  refine ⟨fun st => ?_, fun t ht => hs.waits_eq_nil (by simp [ht])⟩
  obtain ⟨st', hcheck, hcycle⟩ := hs.threads.cycle_of_deadlock hs.succs_length_le st
  refine ⟨st', hcheck, ?_⟩
  intro hdeadlock
  obtain ⟨t, ht⟩ := hs.threads.exists_cycle_iff_waits.mp (hcycle hdeadlock)
  obtain ⟨u, hu, -⟩ := TransGen.head'_iff.mp ht
  exact ⟨t, hs.transGen ht (List.ne_nil_of_mem hu)⟩

/-- The thread 2 waits for a mutex of the thread 1, and gets it. -/
def handOver : List Action :=
  [.lockBefore 1 7, .acquire 1 7, .lockAfter 1 7, .lockBefore 2 7, .release 1 7, .acquire 2 7,
    .lockAfter 2 7]

theorem admits_handOver : Admits System.next System.LeavesNoneStale System.start handOver := by
  refine ⟨fun v _ hv => ?_, fun s hs => ?_⟩
  · obtain ⟨e, he, -⟩ := hv
    cases he
  cases hs
  refine ⟨trivial, ?_⟩
  intro s hs
  cases hs
  refine ⟨fun u hu => (nomatch hu), ?_⟩
  intro s hs
  cases hs
  refine ⟨fun v _ hv => ⟨fun hne => absurd rfl hne, fun x hx => (nomatch hx)⟩, ?_⟩
  intro s hs
  cases hs
  refine ⟨trivial, ?_⟩
  intro s hs
  cases hs
  refine ⟨trivial, ?_⟩
  intro s hs
  cases hs
  refine ⟨fun u hu => ?_, fun s hs => trivial⟩
  have hu : u ∈ [1] := hu
  cases List.mem_singleton.mp hu
  exact ⟨_, .head _, rfl, rfl⟩

theorem deadlock_is_real_handOver :
    ∃ s, exec System.next System.start handOver = some s ∧ s.tg.waits 2 = [] := by
  obtain ⟨s, hexec, hpc⟩ : ∃ s, exec System.next System.start handOver = some s ∧ s.pc 2 = .idle :=
    ⟨_, rfl, rfl⟩
  exact ⟨s, hexec, (deadlock_is_real (reachable_of_exec rfl admits_handOver hexec)).2 2 hpc⟩

/-- Two threads wait for the mutex of a third, which then waits for the last of them. -/
def handedOn : List Action :=
  [.lockBefore 1 7, .acquire 1 7, .lockAfter 1 7, .lockBefore 2 7, .lockBefore 3 7,
    .release 1 7, .unlockAfter 1 7, .acquire 2 7, .lockAfter 2 7,
    .release 2 7, .unlockAfter 2 7, .acquire 3 7, .lockAfter 3 7, .lockBefore 1 7]

/-- A false alarm: the thread 3 has finished its wait and keeps the edge to 1. -/
theorem handedOn_false_alarm :
    ∃ s st', Reachable System.next System.Start anyStep s ∧ s.pc 3 = .idle ∧
      s.tg.waits 3 = [1] ∧ checkDeadLock s.tg Search.start = some st' ∧ st'.deadlock = 1 ∧
      ¬ s.Deadlocked := by
  obtain ⟨s, hexec, hpc, hholder, hidle, hwaits, hcheck⟩ : ∃ s,
      exec System.next System.start handedOn = some s ∧
      (∀ t l, s.pc t = .waiting l → t = 1 ∧ l = 7) ∧ s.holder 7 = some 3 ∧ s.pc 3 = .idle ∧
      s.tg.waits 3 = [1] ∧
      (checkDeadLock s.tg Search.start).map (·.deadlock) = some 1 := by
    refine ⟨_, rfl, fun t l h => ?_, rfl, rfl, by decide, by decide⟩
    by_cases h₁ : t = 1
    · subst h₁
      cases h
      exact ⟨rfl, rfl⟩
    · simp only [System.start, Function.update_apply, h₁, if_false] at h
      split_ifs at h
  obtain ⟨st', hst', hdeadlock⟩ := Option.map_eq_some_iff.mp hcheck
  have hwait : ∀ t u, s.WaitsFor t u → t = 1 ∧ u = 3 := by
    rintro t u ⟨l, hl, hu⟩
    obtain ⟨rfl, rfl⟩ := hpc t l hl
    exact ⟨rfl, (Option.some.inj (hholder.symm.trans hu)).symm⟩
  refine ⟨s, st', reachable_of_exec rfl (admits_anyStep _ _) hexec, hidle, hwaits, hst',
    hdeadlock, ?_⟩
  rintro ⟨t, ht⟩
  obtain ⟨u, hfirst, -⟩ := TransGen.head'_iff.mp ht
  obtain ⟨v, -, hlast⟩ := TransGen.tail'_iff.mp ht
  have := (hwait _ _ hfirst).1.symm.trans (hwait _ _ hlast).2
  simp at this

end ServerKit.Deadlock
