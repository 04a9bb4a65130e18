import ServerKit.Deadlock.Search

/-! # What the cycle search reports

It reports every cycle. It also reports a vertex that it meets on a second path, so that
it is sound only on graphs where nothing is met twice before a cycle is found. -/

namespace ServerKit.Deadlock

open ServerKit.MarkedSearch Relation

variable {tg : TaskGraph} {ops : List GraphOp}

/-- The report is right: `deadlock` is set only if there is a cycle, and every printed
line is a walk whose last vertex is on it before. -/
structure Sound (tg : TaskGraph) (st : Search) : Prop where
  cycle : st.deadlock = 1 → ∃ i, TransGen (Adj tg.succs) i i
  walks : ∀ line ∈ st.printed, ∃ p : List ℕ,
    line = p.map Nat.cast ∧ p.IsChain (Adj tg.succs) ∧ Closes p

/-- Nothing is met twice below a vertex, unless an earlier vertex reaches a cycle. -/
def TaskGraph.Treelike (tg : TaskGraph) : Prop :=
  ∀ i, Branching tg.succs i → ∃ j < i, ReachesCycle tg.succs j

/-! ## Completeness -/

theorem TaskGraph.WF.finds_cycle (hwf : tg.WF) (hcycle : ∃ i, TransGen (Adj tg.succs) i i)
    (st : Search) : ∃ st', checkDeadLock tg st = some st' ∧ st'.deadlock = 1 := by
  obtain ⟨st', hcheck, hreport⟩ := checkDeadLock_spec hwf st
  refine ⟨st', hcheck, ?_⟩
  rcases hreport with ⟨hquiet, -⟩ | ⟨_, _, _, _, _, _, hdeadlock, _⟩
  · obtain ⟨i, hi⟩ := hcycle
    obtain ⟨j, hj, -⟩ := TransGen.head'_iff.mp hi
    exact absurd ⟨i, .refl, hi⟩ (hquiet i (hwf.lt_num_of_adj hj).1).quiet
  · exact hdeadlock

/-- **Completeness.** Whatever earlier searches have left behind, a graph with a cycle
makes `check_dead_lock` set `deadlock`. -/
theorem checkDeadLock_complete (h : build ops = some tg) (hcycle : ∃ i, TransGen (Adj tg.succs) i i)
    (st : Search) : ∃ st', checkDeadLock tg st = some st' ∧ st'.deadlock = 1 :=
  (build_wf h).finds_cycle hcycle st

/-- The vertex of a thread. -/
def SourceType.process (id : UInt64) : SourceType := ⟨id, .PROCESS, 0, 0⟩

/-- The thread 1 waits for the cycle of the threads 2 and 3. -/
def lasso : List GraphOp :=
  [.addEdge (.process 1) (.process 2), .addEdge (.process 2) (.process 3),
    .addEdge (.process 3) (.process 2)]

theorem checkDeadLock_complete_lasso :
    ∃ tg, build lasso = some tg ∧
      ∀ st, ∃ st', checkDeadLock tg st = some st' ∧ st'.deadlock = 1 := by
  obtain ⟨tg, hbuild, h₁₂, h₂₁⟩ : ∃ tg, build lasso = some tg ∧ Adj tg.succs 1 2 ∧
      Adj tg.succs 2 1 := ⟨_, rfl, show 2 ∈ _ by decide, show 1 ∈ _ by decide⟩
  exact ⟨tg, hbuild, checkDeadLock_complete hbuild ⟨1, .tail (.single h₁₂) h₂₁⟩⟩

/-! ## Soundness -/

/-- **Soundness.** The report is right exactly for the graphs that are treelike up to
their first cycle. -/
theorem sound_iff_treelike (h : build ops = some tg) (st : Search) :
    (∃ st', checkDeadLock tg { st with printed := [] } = some st' ∧ Sound tg st') ↔
      tg.Treelike := by
  obtain ⟨st', hcheck, hreport⟩ := checkDeadLock_spec (build_wf h) { st with printed := [] }
  rw [hcheck]
  simp only [Option.some.injEq, exists_eq_left']
  rcases hreport with ⟨hquiet, hzero, hprinted⟩ | ⟨i, hi, out, hquiet, hout, hne, hone, hprinted⟩
  · apply iff_of_true ⟨fun hone => by simp [hzero] at hone, by simp [hprinted]⟩
    intro i hi
    obtain ⟨w, hw, hunique⟩ := hi
    exact absurd ⟨w, hw, hunique⟩
      ((hquiet i ((build_wf h).lt_num_of_adj hw).1).closes_iff.mp fun o ho => by cases ho)
  · -- `i` is the first vertex with a report
    obtain ⟨o, ho⟩ := List.exists_mem_of_ne_nil _ hne
    have hcloses : Sound tg st' ↔ ∀ o ∈ out, Closes o := by
      constructor
      · intro hsound o ho
        obtain ⟨p, hp, -, hcloses⟩ := hsound.walks (o.map Nat.cast)
          (by simpa [hprinted] using ⟨o, ho, rfl⟩)
        rwa [List.map_injective_iff.mpr (fun _ _ => Int.ofNat_inj.mp) hp]
      · intro hcloses
        refine ⟨fun _ => ?_, fun line hline => ?_⟩
        · obtain ⟨j, -, hj⟩ := hout.reachesCycle ho (hcloses o ho)
          exact ⟨j, hj⟩
        · rw [hprinted, List.nil_append] at hline
          obtain ⟨p, hp, rfl⟩ := List.mem_map.mp hline
          exact ⟨p, rfl, hout.isChain p hp, hcloses p hp⟩
    rw [hcloses, hout.closes_iff]
    constructor
    · intro hbranch j hj
      refine ⟨i, ?_, hout.reachesCycle ho (hout.closes_iff.mpr hbranch o ho)⟩
      by_contra hle
      rcases Nat.lt_or_eq_of_le (Nat.not_lt.mp hle) with hlt | rfl
      · exact (hquiet j hlt).closes_iff.mp (fun o ho => by cases ho) hj
      · exact hbranch hj
    · intro htree hbranch
      obtain ⟨j, hj, hcycle⟩ := htree i hbranch
      exact (hquiet j hj).quiet hcycle

/-- Where no vertex has two successors, a report means a cycle. -/
theorem TaskGraph.WF.cycle_of_deadlock (hwf : tg.WF) (hone : ∀ i, (tg.succs i).length ≤ 1)
    (st : Search) : ∃ st', checkDeadLock tg st = some st' ∧
      (st'.deadlock = 1 → ∃ i, TransGen (Adj tg.succs) i i) := by
  obtain ⟨st', hcheck, hreport⟩ := checkDeadLock_spec hwf st
  refine ⟨st', hcheck, ?_⟩
  intro hdeadlock
  rcases hreport with ⟨-, hzero, -⟩ | ⟨i, hi, out, -, hout, hne, -⟩
  · rw [hzero] at hdeadlock
    cases hdeadlock
  · obtain ⟨o, ho⟩ := List.exists_mem_of_ne_nil _ hne
    have hcloses := hout.closes_iff.mpr fun ⟨w, _, hw⟩ => hw (unique_of_length_le_one hone)
    obtain ⟨j, -, hj⟩ := hout.reachesCycle ho (hcloses o ho)
    exact ⟨j, hj⟩

/-- The threads 3 and 4 both wait for 5, and 2 waits for both. -/
def diamond : List GraphOp :=
  [.addEdge (.process 1) (.process 2), .addEdge (.process 2) (.process 3),
    .addEdge (.process 2) (.process 4), .addEdge (.process 3) (.process 5),
    .addEdge (.process 4) (.process 5)]

/-- The globals before the first search. -/
def Search.start : Search := ⟨fun _ => 0, fun _ => 0, 0, 0, []⟩

theorem sound_lasso :
    ∃ tg, build lasso = some tg ∧
      ∃ st', checkDeadLock tg Search.start = some st' ∧ Sound tg st' := by
  suffices ∃ tg, build lasso = some tg ∧ tg.Treelike by
    obtain ⟨tg, hbuild, htreelike⟩ := this
    exact ⟨tg, hbuild, (sound_iff_treelike hbuild Search.start).mpr htreelike⟩
  refine ⟨_, rfl, ?_⟩
  rintro i ⟨w, -, hw⟩
  refine absurd (unique_of_length_le_one fun v => ?_) hw
  match v with
  | 0 | 1 | 2 => decide
  | _ + 3 => exact Nat.zero_le 1

/-- A false alarm: the second way to 5 is reported, and there is no cycle. -/
theorem deadlock_diamond :
    ∃ tg st', build diamond = some tg ∧ checkDeadLock tg Search.start = some st' ∧
      st'.deadlock = 1 ∧ st'.printed = [[0, 1, 3, 4]] ∧ ¬ ∃ i, TransGen (Adj tg.succs) i i := by
  obtain ⟨tg, hbuild, hcheck, hdown⟩ : ∃ tg, build diamond = some tg ∧
      (checkDeadLock tg Search.start).map (fun st => (st.deadlock, st.printed)) =
        some (1, [[0, 1, 3, 4]]) ∧
      ∀ i < tg.num, ∀ j ∈ tg.succs i, i < j := ⟨_, rfl, by decide, by decide⟩
  obtain ⟨st', hst', hreport⟩ := Option.map_eq_some_iff.mp hcheck
  refine ⟨tg, st', hbuild, hst', congrArg Prod.fst hreport, congrArg Prod.snd hreport, ?_⟩
  rintro ⟨i, hi⟩
  have hadj : ∀ i j, Adj tg.succs i j → i < j := fun i j hij =>
    hdown i ((build_wf hbuild).lt_num_of_adj hij).1 j hij
  have hlt : ∀ j, TransGen (Adj tg.succs) i j → i < j := by
    intro j hj
    induction hj with
    | single h => exact hadj _ _ h
    | tail _ h ih => exact ih.trans (hadj _ _ h)
  exact lt_irrefl i (hlt i hi)

end ServerKit.Deadlock
