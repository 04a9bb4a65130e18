import ServerKit.Deadlock.Reports

/-! # How deep the search goes

The search once more, with a list of the calls of `DFS`. Every call leaves its vertex on the path
for the caller, who takes it down. Since the search enters no vertex twice, the path is never
longer than the vertex table by more than one. -/

namespace ServerKit.Deadlock

open ServerKit.System

/-- A call of `DFS`: its vertex, and `k` at its beginning and at its end. -/
structure Visit where
  idx : ℕ
  enter : ℤ
  leave : ℤ

/-- `DFS` with its calls. -/
def tracedDFS (tg : TaskGraph) : ℕ → ℕ → Search → Option (Search × List Visit)
  | 0, _, _ => none
  | fuel + 1, idx, st => do
    let ver ← tg.list[idx]?
    if st.visited idx = 1 then
      let out ← st.push idx
      let out ← printDeadlock tg out
      return ({ out with deadlock := 1 }, [⟨idx, st.k, out.k⟩])
    else
      let out ← { st with visited := Function.update st.visited idx 1 }.push idx
      let (out, visits) ← ver.next.foldlM (fun (out, visits) s => do
        let (out, below) ← tracedDFS tg fuel (← searchVertex tg s) out
        return ({ out with k := out.k - 1 }, visits ++ below)) (out, [])
      return (out, visits ++ [⟨idx, st.k, out.k⟩])

/-- `search_for_cycle` with the calls of `DFS`. -/
def tracedSearchForCycle (tg : TaskGraph) (idx : ℕ) (st : Search) :
    Option (Search × List Visit) := do
  let ver ← tg.list[idx]?
  let st ← { st with visited := Function.update st.visited idx 1, k := 0 }.push idx
  ver.next.foldlM (fun (st, visits) s => do
    let (st, below) ← tracedDFS tg (tg.num + 1) (← searchVertex tg s) (st.restart tg idx)
    return (st, visits ++ below)) (st, [])

/-- A call for a vertex, which leaves `k` larger by one and `path` within its bounds. -/
structure Visit.Safe (tg : TaskGraph) (c : Visit) : Prop where
  vertex : c.idx < tg.num
  enter : 1 ≤ c.enter
  leave : c.leave = c.enter + 1
  top : c.leave ≤ tg.num + 1

variable {tg : TaskGraph} {st : Search} {fuel idx : ℕ}

/-- The body of the loop of `tracedDFS`. -/
def tracedChase (tg : TaskGraph) (fuel : ℕ) (acc : Search × List Visit) (s : SourceType) :
    Option (Search × List Visit) := do
  let (out, below) ← tracedDFS tg fuel (← searchVertex tg s) acc.1
  return ({ out with k := out.k - 1 }, acc.2 ++ below)

theorem tracedDFS_of_marked {ver : Vertex} (hver : tg.list[idx]? = some ver)
    (hv : st.visited idx = 1) :
    tracedDFS tg (fuel + 1) idx st = (st.push idx).bind fun out =>
      (printDeadlock tg out).map fun out =>
        ({ out with deadlock := 1 }, [⟨idx, st.k, out.k⟩]) := by
  simp [tracedDFS, hver, hv, Option.map_eq_bind]

theorem tracedDFS_of_unmarked {ver : Vertex} (hver : tg.list[idx]? = some ver)
    (hv : st.visited idx ≠ 1) :
    tracedDFS tg (fuel + 1) idx st =
      (Search.push { st with visited := Function.update st.visited idx 1 } idx).bind fun out =>
        (ver.next.foldlM (tracedChase tg fuel) (out, [])).map fun (out, visits) =>
          (out, visits ++ [⟨idx, st.k, out.k⟩]) := by
  simp only [tracedDFS, hver, hv, Option.bind_eq_bind, Option.bind_some, if_false,
    Option.map_eq_bind]
  rfl

/-! ## The calls do not matter -/

theorem tracedDFS_fst (tg : TaskGraph) (fuel idx : ℕ) (st : Search) :
    (tracedDFS tg fuel idx st).map Prod.fst = DFS tg fuel idx st := by
  induction fuel generalizing idx st with
  | zero => rfl
  | succ fuel ih =>
      have hchase : ∀ acc s, (tracedChase tg fuel acc s).map Prod.fst = chase tg fuel acc.1 s := by
        intro acc s
        rw [tracedChase, chase]
        cases searchVertex tg s with
        | none => rfl
        | some w =>
            simp only [Option.bind_eq_bind, Option.bind_some, ← ih w acc.1]
            cases tracedDFS tg fuel w acc.1 <;> rfl
      cases hver : tg.list[idx]? with
      | none => simp [tracedDFS, DFS, hver]
      | some ver =>
          by_cases hv : st.visited idx = 1
          · rw [tracedDFS_of_marked hver hv, DFS_of_marked hver hv]
            cases hpush : st.push idx with
            | none => rfl
            | some out => cases hprint : printDeadlock tg out <;> simp [hprint]
          · rw [tracedDFS_of_unmarked hver hv, DFS_of_unmarked hver hv]
            cases hpush :
              Search.push { st with visited := Function.update st.visited idx 1 } idx with
            | none => rfl
            | some out =>
                have hloop := foldlM_map_fst hchase (out, []) ver.next
                simp only [Option.bind_some, ← hloop, Option.map_map]
                rfl

/-! ## What a call leaves -/

theorem Search.push_k {out : Search} (h : st.push idx = some out) : out.k = st.k + 1 := by
  obtain ⟨-, h⟩ := Option.ite_none_right_eq_some.mp h
  cases h
  rfl

theorem printDeadlock_k {out : Search} (h : printDeadlock tg st = some out) : out.k = st.k := by
  obtain ⟨-, h⟩ := Option.ite_none_right_eq_some.mp h
  cases h
  rfl

/-- A call for a vertex, which is made with `k` between `low` and `low + depth`. -/
structure Visit.Within (tg : TaskGraph) (low : ℤ) (depth : ℕ) (c : Visit) : Prop where
  vertex : c.idx < tg.num
  above : low ≤ c.enter
  below : c.enter < low + depth
  leave : c.leave = c.enter + 1

theorem Visit.Within.deeper {low : ℤ} {depth : ℕ} {c : Visit} (h : c.Within tg (low + 1) depth) :
    c.Within tg low (depth + 1) := by
  obtain ⟨hvertex, habove, hbelow, hleave⟩ := h
  exact ⟨hvertex, by omega, by push_cast; omega, hleave⟩

/-- A call of `DFS` that ends leaves `k` larger by one, and so do all the calls below it, which
nest no deeper than its depth. -/
theorem tracedDFS_visits {out : Search} {visits : List Visit}
    (h : tracedDFS tg fuel idx st = some (out, visits)) :
    out.k = st.k + 1 ∧ ∀ c ∈ visits, c.Within tg st.k fuel := by
  induction fuel generalizing idx st out visits with
  | zero => cases h
  | succ fuel ih =>
      cases hver : tg.list[idx]? with
      | none =>
          simp [tracedDFS, hver] at h
      | some ver =>
          have hidx : idx < tg.num := (List.getElem?_eq_some_iff.mp hver).1
          have hself : ∀ out : Search, out.k = st.k + 1 →
              Visit.Within tg st.k (fuel + 1) ⟨idx, st.k, out.k⟩ := by
            intro out hk
            exact ⟨hidx, le_rfl, by push_cast; omega, hk⟩
          by_cases hv : st.visited idx = 1
          · rw [tracedDFS_of_marked hver hv] at h
            obtain ⟨mid, hpush, h⟩ := Option.bind_eq_some_iff.mp h
            obtain ⟨last, hprint, h⟩ := Option.map_eq_some_iff.mp h
            cases h
            have hk : last.k = st.k + 1 := (printDeadlock_k hprint).trans (Search.push_k hpush)
            exact ⟨hk, by simpa using hself last hk⟩
          · rw [tracedDFS_of_unmarked hver hv] at h
            obtain ⟨mid, hpush, h⟩ := Option.bind_eq_some_iff.mp h
            obtain ⟨⟨last, below⟩, hloop, h⟩ := Option.map_eq_some_iff.mp h
            obtain ⟨rfl, rfl⟩ := Prod.mk.inj h
            have hmid : mid.k = st.k + 1 := by simpa using Search.push_k hpush
            have hinvariant : last.k = mid.k ∧ ∀ c ∈ below, c.Within tg mid.k fuel := by
              refine foldlM_invariant
                (P := fun acc => acc.1.k = mid.k ∧ ∀ c ∈ acc.2, c.Within tg mid.k fuel) ?_
                ⟨rfl, by simp⟩ hloop
              rintro ⟨cur, visits⟩ s next ⟨hcur, hvisits⟩ hnext
              obtain ⟨w, -, hnext⟩ := Option.bind_eq_some_iff.mp hnext
              obtain ⟨⟨left, more⟩, hcall, hnext⟩ := Option.bind_eq_some_iff.mp hnext
              cases hnext
              obtain ⟨hleft, hmore⟩ := ih hcall
              have hcur : cur.k = mid.k := hcur
              rw [hcur] at hleft hmore
              refine ⟨?_, List.forall_mem_append.mpr ⟨hvisits, hmore⟩⟩
              show left.k - 1 = mid.k
              omega
            obtain ⟨hk, hbelow⟩ := hinvariant
            rw [hmid] at hk hbelow
            refine ⟨hk, List.forall_mem_append.mpr ⟨fun c hc => (hbelow c hc).deeper, ?_⟩⟩
            simpa using hself last hk

/-! ## The bound of the depth -/

/-- A search that ends is the same with more room. -/
theorem tracedDFS_succ {result : Search × List Visit}
    (h : tracedDFS tg fuel idx st = some result) :
    tracedDFS tg (fuel + 1) idx st = some result := by
  induction fuel generalizing idx st result with
  | zero => cases h
  | succ fuel ih =>
      cases hver : tg.list[idx]? with
      | none => simp [tracedDFS, hver] at h
      | some ver =>
          by_cases hv : st.visited idx = 1
          · rw [tracedDFS_of_marked hver hv] at h ⊢
            exact h
          · rw [tracedDFS_of_unmarked hver hv] at h ⊢
            obtain ⟨mid, hpush, h⟩ := Option.bind_eq_some_iff.mp h
            obtain ⟨acc, hloop, hresult⟩ := Option.map_eq_some_iff.mp h
            refine Option.bind_eq_some_iff.mpr ⟨mid, hpush, Option.map_eq_some_iff.mpr
              ⟨acc, foldlM_mono ?_ hloop, hresult⟩⟩
            intro acc s next hnext
            obtain ⟨w, hw, hnext⟩ := Option.bind_eq_some_iff.mp hnext
            obtain ⟨r, hr, hnext⟩ := Option.bind_eq_some_iff.mp hnext
            exact Option.bind_eq_some_iff.mpr
              ⟨w, hw, Option.bind_eq_some_iff.mpr ⟨r, ih hr, hnext⟩⟩

/-- One pass of the loop of `search_for_cycle`: the vertices other than its own are fewer than
those of the table. -/
theorem restart_tracedDFS {i w : ℕ} {s : SourceType} (hwf : tg.WF) (hi : i < tg.num)
    (h : st.Rooted tg i) (hs : searchVertex tg s = some w) :
    ∃ out visits, tracedDFS tg (tg.num + 1) w (st.restart tg i) = some (out, visits) ∧
      out.Rooted tg i ∧ ∀ c ∈ visits, c.Safe tg := by
  obtain ⟨V, reports, out, -, hdfs, hrooted, -⟩ := restart_DFS hwf hi h hs (Nat.le_refl tg.num)
  rw [← tracedDFS_fst] at hdfs
  obtain ⟨⟨_, visits⟩, htraced, rfl⟩ := Option.map_eq_some_iff.mp hdfs
  refine ⟨_, visits, tracedDFS_succ htraced, hrooted, fun c hc => ?_⟩
  obtain ⟨hvertex, habove, hbelow, hleave⟩ := (tracedDFS_visits htraced).2 c hc
  have hk : (st.restart tg i).k = 1 := rfl
  rw [hk] at habove hbelow
  exact ⟨hvertex, habove, hleave, by omega⟩

theorem foldlM_tracedRestart {i : ℕ} {l : List SourceType} {visits : List Visit} (hwf : tg.WF)
    (hi : i < tg.num) (hl : ∀ s ∈ l, s.key ∈ tg.keys) (h : st.Rooted tg i)
    (hvisits : ∀ c ∈ visits, c.Safe tg) :
    ∃ out all, l.foldlM (fun (st, visits) s => do
        let (st, below) ← tracedDFS tg (tg.num + 1) (← searchVertex tg s) (st.restart tg i)
        return (st, visits ++ below)) (st, visits) = some (out, all) ∧ ∀ c ∈ all, c.Safe tg := by
  induction l generalizing st visits with
  | nil => exact ⟨st, visits, rfl, hvisits⟩
  | cons s l ih =>
      have hfound : searchVertex tg s ≠ none := by
        rw [ne_eq, searchVertex_eq_none_iff, not_not]
        exact hl s List.mem_cons_self
      obtain ⟨w, hw⟩ := Option.ne_none_iff_exists'.mp hfound
      obtain ⟨mid, below, hcall, hrooted, hbelow⟩ := restart_tracedDFS hwf hi h hw
      obtain ⟨out, all, hrest, hall⟩ := ih (fun t ht => hl t (List.mem_cons_of_mem s ht)) hrooted
        (List.forall_mem_append.mpr ⟨hvisits, hbelow⟩)
      refine ⟨out, all, ?_, hall⟩
      rw [List.foldlM_cons]
      simp only [hw, hcall, Option.bind_eq_bind, Option.bind_some]
      exact hrest

theorem tracedSearchForCycle_fst (tg : TaskGraph) (idx : ℕ) (st : Search) :
    (tracedSearchForCycle tg idx st).map Prod.fst = searchForCycle tg idx st := by
  rw [tracedSearchForCycle, searchForCycle]
  cases tg.list[idx]? with
  | none => rfl
  | some ver =>
      simp only [Option.bind_eq_bind, Option.bind_some]
      cases Search.push { st with visited := Function.update st.visited idx 1, k := 0 } idx with
      | none => rfl
      | some out =>
          refine foldlM_map_fst (fun acc s => ?_) (out, []) ver.next
          cases searchVertex tg s with
          | none => rfl
          | some w =>
              rw [Option.bind_some, Option.bind_some, ← tracedDFS_fst]
              cases tracedDFS tg (tg.num + 1) w (acc.1.restart tg idx) <;> rfl

/-- **The depth.** Whatever earlier searches have left behind, a search from any vertex of a graph
that can be built ends. All its calls are for vertices, leave `k` larger by one, and keep `k` to
the vertices and one. -/
theorem searchForCycle_safe {ops : List GraphOp} {i : ℕ} (h : build ops = some tg)
    (hi : i < tg.num) (st : Search) :
    tg.num ≤ MAX ∧ (∀ v ∈ tg.list, ∀ s ∈ v.next, ∃ j < tg.num, searchVertex tg s = some j) ∧
      ∃ out visits, tracedSearchForCycle tg i st = some (out, visits) ∧
        searchForCycle tg i st = some out ∧ ∀ c ∈ visits, c.Safe tg := by
  have hwf := build_wf h
  refine ⟨hwf.small, fun v hv s hs => ?_, ?_⟩
  · have hfound : searchVertex tg s ≠ none := by
      rw [ne_eq, searchVertex_eq_none_iff, not_not]
      exact hwf.closed v hv s hs
    obtain ⟨j, hj⟩ := Option.ne_none_iff_exists'.mp hfound
    obtain ⟨ver, hver⟩ := exists_vertex hwf hj
    exact ⟨j, (List.getElem?_eq_some_iff.mp hver).1, hj⟩
  · have hver : tg.list[i]? = some tg.list[i] := List.getElem?_eq_getElem hi
    have hrooted : Search.Rooted tg ⟨Function.update st.visited i 1, Function.update st.path 0 i,
        1, st.deadlock, st.printed⟩ i := ⟨by simp, by simp⟩
    have hnone : ∀ c ∈ ([] : List Visit), c.Safe tg := List.forall_mem_nil _
    obtain ⟨out, visits, hloop, hsafe⟩ :=
      foldlM_tracedRestart hwf hi (hwf.closed _ (List.getElem_mem hi)) hrooted hnone
    have htraced : tracedSearchForCycle tg i st = some (out, visits) := by
      rw [tracedSearchForCycle, hver]
      exact hloop
    refine ⟨out, visits, htraced, ?_, hsafe⟩
    rw [← tracedSearchForCycle_fst, htraced, Option.map_some]

theorem searchForCycle_safe_lasso :
    ∃ tg, build lasso = some tg ∧ tg.num = 3 ∧ ∀ st, ∃ out visits,
      tracedSearchForCycle tg 0 st = some (out, visits) ∧ ∀ c ∈ visits, c.Safe tg := by
  obtain ⟨tg, hbuild, hnum⟩ : ∃ tg, build lasso = some tg ∧ tg.num = 3 := ⟨_, rfl, rfl⟩
  refine ⟨tg, hbuild, hnum, fun st => ?_⟩
  obtain ⟨-, -, out, visits, htraced, -, hsafe⟩ :=
    searchForCycle_safe hbuild (i := 0) (by omega) st
  exact ⟨out, visits, htraced, hsafe⟩

end ServerKit.Deadlock
