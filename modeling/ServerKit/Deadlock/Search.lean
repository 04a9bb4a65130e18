import ServerKit.Deadlock.Graph
import Mathlib.Data.List.Forall2

/-! # The cycle search of `deadlock_success.c`

The globals `visited`, `path`, `k` and `deadlock` are a state that every call takes and
returns. A call has no result when it leaves one of the arrays. -/

namespace ServerKit.Deadlock

open ServerKit.MarkedSearch

/-- The globals of the search, and the lines printed so far: for each the vertices whose
ids it lists. -/
structure Search where
  visited : ℕ → ℤ
  path : ℤ → ℤ
  k : ℤ
  deadlock : ℤ
  printed : List (List ℤ)

/-- The assignment `path[k++] = idx`, within `int path[MAX+1]`. -/
def Search.push (st : Search) (idx : ℕ) : Option Search :=
  if 0 ≤ st.k ∧ st.k ≤ MAX then
    some { st with path := Function.update st.path st.k idx, k := st.k + 1 }
  else none

/-- The vertices `path[0]`, …, `path[k-1]`. -/
def Search.line (st : Search) : List ℤ :=
  (List.range ((st.k - 1).toNat + 1)).map fun (i : ℕ) => st.path i

def printDeadlock (tg : TaskGraph) (st : Search) : Option Search :=
  if ∀ v ∈ st.line, 0 ≤ v ∧ v.toNat < tg.num then
    some { st with printed := st.printed ++ [st.line] }
  else none

/-- The recursion is never deeper than its first argument. -/
def DFS (tg : TaskGraph) : ℕ → ℕ → Search → Option Search
  | 0, _, _ => none
  | fuel + 1, idx, st => do
    let ver ← tg.list[idx]?
    if st.visited idx = 1 then
      let st ← st.push idx
      let st ← printDeadlock tg st
      return { st with deadlock := 1 }
    else
      let st ← { st with visited := Function.update st.visited idx 1 }.push idx
      ver.next.foldlM (fun st s => do
        let st ← DFS tg fuel (← searchVertex tg s) st
        return { st with k := st.k - 1 }) st

/-- What `search_for_cycle` resets before it follows an edge of `idx`. -/
def Search.restart (tg : TaskGraph) (idx : ℕ) (st : Search) : Search :=
  { st with
    visited := fun i => if i < tg.num ∧ i ≠ idx then 0 else st.visited i
    path := fun i => if 1 ≤ i ∧ i ≤ MAX then -1 else st.path i
    k := 1 }

/-- A call of `DFS` either meets a marked vertex or marks one, so that `num + 1` nested
calls are enough. -/
def searchForCycle (tg : TaskGraph) (idx : ℕ) (st : Search) : Option Search := do
  let ver ← tg.list[idx]?
  let st ← { st with visited := Function.update st.visited idx 1, k := 0 }.push idx
  ver.next.foldlM (fun st s => do
    DFS tg (tg.num + 1) (← searchVertex tg s) (st.restart tg idx)) st

def checkDeadLock (tg : TaskGraph) (st : Search) : Option Search :=
  (List.range tg.num).foldlM
    (fun st i => if st.deadlock = 1 then some st else searchForCycle tg i st)
    { st with deadlock := 0 }

/-! ## The path -/

/-- The first `k` entries of `path` are `p`. -/
structure Search.OnPath (st : Search) (p : List ℕ) : Prop where
  k : st.k = p.length
  path : ∀ (i v : ℕ), p[i]? = some v → st.path i = v

/-- The marks `V` and the path `p` of a search in progress. -/
structure Search.Represents (tg : TaskGraph) (st : Search) (V : Finset ℕ) (p : List ℕ) : Prop
    extends st.OnPath p where
  visited : ∀ i < tg.num, st.visited i = 1 ↔ i ∈ V
  marked : ∀ i ∈ p, i ∈ V
  nodup : p.Nodup
  vertex : ∀ i ∈ p, i < tg.num

theorem Search.OnPath.push {st : Search} {p : List ℕ} (h : st.OnPath p) (hp : p.length ≤ MAX)
    (idx : ℕ) : ∃ st', st.push idx = some st' ∧ st'.OnPath (p ++ [idx]) ∧
      st'.visited = st.visited ∧ st'.deadlock = st.deadlock ∧ st'.printed = st.printed := by
  have hk : 0 ≤ st.k ∧ st.k ≤ MAX := by rw [h.k]; omega
  refine ⟨_, if_pos hk, ⟨by simp [h.k], fun i v hi => ?_⟩, rfl, rfl, rfl⟩
  rcases Nat.lt_trichotomy i p.length with hlt | rfl | hlt
  · rw [List.getElem?_append_left hlt] at hi
    have hne : (i : ℤ) ≠ st.k := by rw [h.k]; omega
    simpa [Function.update_of_ne hne] using h.path i v hi
  · simp only [List.getElem?_concat_length, Option.some.injEq] at hi
    simp [h.k, hi]
  · rw [List.getElem?_eq_none (by simp; omega)] at hi
    cases hi

theorem Search.OnPath.pop {st : Search} {p : List ℕ} {v : ℕ} (h : st.OnPath (p ++ [v])) :
    Search.OnPath { st with k := st.k - 1 } p := by
  refine ⟨by simp [h.k], fun i w hi => h.path i w ?_⟩
  rw [List.getElem?_append_left (List.getElem?_eq_some_iff.mp hi).1, hi]

theorem Search.OnPath.line_eq {st : Search} {p : List ℕ} {v : ℕ} (h : st.OnPath (p ++ [v])) :
    st.line = (p ++ [v]).map Nat.cast := by
  have hlen : (st.k - 1).toNat + 1 = (p ++ [v]).length := by
    rw [h.k]
    simp
  rw [Search.line, hlen]
  apply List.ext_getElem
  · simp
  · intro i hi hi'
    simp only [List.length_map] at hi'
    rw [List.getElem_map, List.getElem_range, List.getElem_map]
    exact h.path i _ (List.getElem?_eq_getElem hi')

section Represents

variable {tg : TaskGraph} {st st' : Search} {V : Finset ℕ} {p : List ℕ} {v : ℕ}

theorem Search.Represents.length_le (h : st.Represents tg V p) (hwf : tg.WF) :
    p.length ≤ MAX := by
  have hsub : p.toFinset ⊆ Finset.range tg.num := fun i hi =>
    Finset.mem_range.mpr (h.vertex i (List.mem_toFinset.mp hi))
  have hcard := Finset.card_le_card hsub
  rw [List.toFinset_card_of_nodup h.nodup, Finset.card_range] at hcard
  exact hcard.trans hwf.small

/-- Entering an unmarked vertex marks it and puts it on the path. -/
theorem Search.Represents.enter (h : st.Represents tg V p) (hwf : tg.WF) (hv : v ∉ V)
    (hnum : v < tg.num) :
    ∃ st', Search.push { st with visited := Function.update st.visited v 1 } v = some st' ∧
      st'.Represents tg (insert v V) (p ++ [v]) ∧ st'.deadlock = st.deadlock ∧
      st'.printed = st.printed := by
  have honPath : Search.OnPath { st with visited := Function.update st.visited v 1 } p :=
    ⟨h.k, h.path⟩
  obtain ⟨st', hpush, hpath, hvisited, hdeadlock, hprinted⟩ := honPath.push (h.length_le hwf) v
  refine ⟨st', hpush, ⟨hpath, fun i hi => ?_, ?_, ?_, ?_⟩, hdeadlock, hprinted⟩
  · rw [hvisited, Finset.mem_insert]
    by_cases hiv : i = v
    · simp [hiv]
    · simpa [Function.update_of_ne hiv, hiv] using h.visited i hi
  · intro i hi
    rcases List.mem_append.mp hi with hi | hi
    · exact Finset.mem_insert_of_mem (h.marked i hi)
    · exact Finset.mem_insert.mpr (.inl (List.mem_singleton.mp hi))
  · exact h.nodup.append (List.nodup_singleton v) (by simpa using fun hvp => hv (h.marked v hvp))
  · simpa [or_imp, forall_and] using ⟨h.vertex, hnum⟩

/-- Leaving a vertex takes it from the path, and keeps its mark. -/
theorem Search.Represents.leave (h : st.Represents tg V (p ++ [v])) :
    Search.Represents tg { st with k := st.k - 1 } V p :=
  ⟨h.pop, h.visited, fun i hi => h.marked i (List.mem_append_left _ hi),
    h.nodup.of_append_left, fun i hi => h.vertex i (List.mem_append_left _ hi)⟩

end Represents

/-! ## The recursion -/

/-- What the reports leave in `deadlock` and in the log. -/
structure Search.After (st st' : Search) (out : List (List ℕ)) : Prop where
  deadlock : st'.deadlock = if out = [] then st.deadlock else 1
  printed : st'.printed = st.printed ++ out.map (·.map Nat.cast)

theorem Search.After.nil {st st' : Search} (hdeadlock : st'.deadlock = st.deadlock)
    (hprinted : st'.printed = st.printed) : st.After st' [] :=
  ⟨by simp [hdeadlock], by simp [hprinted]⟩

theorem Search.After.append {st st₁ st₂ : Search} {out₁ out₂ : List (List ℕ)}
    (h₁ : st.After st₁ out₁) (h₂ : st₁.After st₂ out₂) : st.After st₂ (out₁ ++ out₂) := by
  refine ⟨?_, ?_⟩
  · rw [h₂.deadlock, h₁.deadlock]
    by_cases hout₂ : out₂ = [] <;> simp [hout₂]
  · rw [h₂.printed, h₁.printed, List.map_append, List.append_assoc]

/-- The body of the loop of `DFS`. -/
def chase (tg : TaskGraph) (fuel : ℕ) (st : Search) (s : SourceType) : Option Search := do
  let st ← DFS tg fuel (← searchVertex tg s) st
  return { st with k := st.k - 1 }

section DFS

variable {tg : TaskGraph} {st : Search} {V V' : Finset ℕ} {p ws : List ℕ} {v fuel : ℕ}
  {out : List (List ℕ)} {ver : Vertex}

theorem exists_vertex {s : SourceType} (hwf : tg.WF) (hs : searchVertex tg s = some v) :
    ∃ ver, tg.list[v]? = some ver := by
  have hkey := hwf.searchVertex_eq_some_iff.mp hs
  rw [TaskGraph.keys, List.getElem?_map] at hkey
  obtain ⟨ver, hver, -⟩ := Option.map_eq_some_iff.mp hkey
  exact ⟨ver, hver⟩

theorem DFS_of_marked (hver : tg.list[v]? = some ver) (hv : st.visited v = 1) :
    DFS tg (fuel + 1) v st = (st.push v).bind fun st =>
      (printDeadlock tg st).map fun st => { st with deadlock := 1 } := by
  simp [DFS, hver, hv, Option.map_eq_bind]

theorem DFS_of_unmarked (hver : tg.list[v]? = some ver) (hv : st.visited v ≠ 1) :
    DFS tg (fuel + 1) v st =
      (Search.push { st with visited := Function.update st.visited v 1 } v).bind fun st =>
        ver.next.foldlM (chase tg fuel) st := by
  simp only [DFS, hver, hv, Option.bind_eq_bind, Option.bind_some, if_false]
  rfl

/-- A marked vertex is reported with the path to it. -/
theorem chase_of_marked {s : SourceType} (hwf : tg.WF) (h : st.Represents tg V p)
    (hs : searchVertex tg s = some v) (hver : tg.list[v]? = some ver) (hv : v ∈ V) :
    ∃ st', chase tg (fuel + 1) st s = some st' ∧ st'.Represents tg V p ∧
      st.After st' [p ++ [v]] := by
  have hnum : v < tg.num := (List.getElem?_eq_some_iff.mp hver).1
  obtain ⟨st₁, hpush, hpath, hvisited, hdeadlock, hprinted⟩ :=
    h.toOnPath.push (h.length_le hwf) v
  have hline : ∀ i ∈ st₁.line, 0 ≤ i ∧ i.toNat < tg.num := by
    rw [hpath.line_eq]
    intro i hi
    obtain ⟨j, hj, rfl⟩ := List.mem_map.mp hi
    rcases List.mem_append.mp hj with hj | hj
    · simpa using h.vertex j hj
    · simpa [List.mem_singleton.mp hj] using hnum
  refine ⟨{ st₁ with k := st₁.k - 1, deadlock := 1, printed := st₁.printed ++ [st₁.line] }, ?_,
    ⟨⟨hpath.pop.k, hpath.pop.path⟩, fun i hi => ?_, h.marked, h.nodup, h.vertex⟩, ?_⟩
  · rw [chase, hs]
    simp only [Option.bind_eq_bind, Option.bind_some]
    rw [DFS_of_marked hver ((h.visited v hnum).mpr hv), hpush, Option.bind_some, printDeadlock,
      if_pos hline, Option.map_some, Option.bind_some]
    rfl
  · rw [← h.visited i hi, ← hvisited]
  · exact ⟨by simp, by simp [hprinted, hpath.line_eq]⟩

/-- The loops of `DFS` carry out the search that the library describes. -/
theorem foldlM_chase (hwf : tg.WF) (h : Explore tg.succs p ws V V' out) {l : List SourceType}
    (hl : l.map (searchVertex tg) = ws.map some)
    (hfuel : (Finset.range tg.num \ V).card < fuel) (hst : st.Represents tg V p) :
    ∃ st', l.foldlM (chase tg fuel) st = some st' ∧ st'.Represents tg V' p ∧ st.After st' out := by
  induction h generalizing fuel l st with
  | done =>
    obtain rfl : l = [] := List.map_eq_nil_iff.mp hl
    exact ⟨st, rfl, hst, .nil rfl rfl⟩
  | marked hv _ ih =>
    obtain ⟨s, l, rfl, hs, hl⟩ := List.map_eq_cons_iff.mp hl
    obtain ⟨ver, hver⟩ := exists_vertex hwf hs
    obtain ⟨fuel, rfl⟩ := Nat.exists_eq_succ_of_ne_zero (Nat.ne_zero_of_lt hfuel)
    obtain ⟨st₁, hstep, hst₁, hafter₁⟩ := chase_of_marked hwf hst hs hver hv
    obtain ⟨st₂, hrest, hst₂, hafter₂⟩ := ih hl hfuel hst₁
    refine ⟨st₂, ?_, hst₂, hafter₁.append hafter₂⟩
    rw [List.foldlM_cons, hstep]
    exact hrest
  | @enter p ws v V V₁ V₂ out₁ out₂ hv below _ ih₁ ih₂ =>
    obtain ⟨s, l, rfl, hs, hl⟩ := List.map_eq_cons_iff.mp hl
    obtain ⟨ver, hver⟩ := exists_vertex hwf hs
    have hnum : v < tg.num := (List.getElem?_eq_some_iff.mp hver).1
    obtain ⟨fuel, rfl⟩ := Nat.exists_eq_succ_of_ne_zero (Nat.ne_zero_of_lt hfuel)
    obtain ⟨st₀, hpush, hst₀, hdeadlock, hprinted⟩ := hst.enter hwf hv hnum
    have hfuel₁ : (Finset.range tg.num \ insert v V).card < fuel := by
      have := card_sdiff_insert_lt (Finset.mem_range.mpr hnum) hv
      omega
    obtain ⟨st₁, hbelow, hst₁, hafter₁⟩ := ih₁ (hwf.map_searchVertex hver) hfuel₁ hst₀
    have hstep : chase tg (fuel + 1) st s = some { st₁ with k := st₁.k - 1 } := by
      rw [chase, hs]
      simp only [Option.bind_eq_bind, Option.bind_some]
      rw [DFS_of_unmarked hver (mt (hst.visited v hnum).mp hv), hpush, Option.bind_some, hbelow]
      rfl
    have hfuel₂ : (Finset.range tg.num \ V₁).card < fuel + 1 :=
      (card_sdiff_le_of_subset ((Finset.subset_insert v V).trans below.subset)).trans_lt hfuel
    obtain ⟨st₂, hrest, hst₂, hafter₂⟩ := ih₂ hl hfuel₂ hst₁.leave
    have hafter : st.After { st₁ with k := st₁.k - 1 } out₁ :=
      (Search.After.nil hdeadlock hprinted).append ⟨hafter₁.deadlock, hafter₁.printed⟩
    refine ⟨st₂, ?_, hst₂, hafter.append hafter₂⟩
    rw [List.foldlM_cons, hstep]
    exact hrest

end DFS

/-! ## The loops around it -/

section Check

variable {tg : TaskGraph} {st : Search} {i : ℕ}

theorem TaskGraph.WF.succs_lt (hwf : tg.WF) :
    ∀ v ∈ Finset.range tg.num, ∀ w ∈ tg.succs v, w ∈ Finset.range tg.num :=
  fun _ _ _ hw => Finset.mem_range.mpr (hwf.lt_num_of_adj hw).2

/-- What every pass of the loop of `search_for_cycle` starts from and ends in. -/
structure Search.Rooted (tg : TaskGraph) (st : Search) (i : ℕ) : Prop where
  visited : st.visited i = 1
  path : st.path 0 = i

theorem Search.Rooted.restart (h : st.Rooted tg i) (hi : i < tg.num) :
    (st.restart tg i).Represents tg {i} [i] := by
  refine ⟨⟨rfl, fun j v hj => ?_⟩, fun j hj => ?_, ?_, List.nodup_singleton i, ?_⟩
  · cases j with
    | zero =>
      obtain rfl : i = v := by simpa using hj
      simpa [Search.restart] using h.path
    | succ j => simp at hj
  · by_cases hji : j = i
    · simp [Search.restart, hji, h.visited]
    · simp [Search.restart, hji, hj]
  · simp
  · simpa using hi

/-- One pass of the loop of `search_for_cycle`. -/
theorem restart_DFS (hwf : tg.WF) (hi : i < tg.num) (h : st.Rooted tg i) {s : SourceType} {w : ℕ}
    (hs : searchVertex tg s = some w) {fuel : ℕ} (hnum : tg.num ≤ fuel) :
    ∃ V out st', Explore tg.succs [i] [w] {i} V out ∧
      DFS tg fuel w (st.restart tg i) = some st' ∧ st'.Rooted tg i ∧ st.After st' out := by
  obtain ⟨ver, hver⟩ := exists_vertex hwf hs
  have hw : w < tg.num := (List.getElem?_eq_some_iff.mp hver).1
  obtain ⟨V, out, hexplore⟩ := exists_explore hwf.succs_lt [i] [w] {i} (by simpa using hw)
  have hfuel : (Finset.range tg.num \ {i}).card < fuel := by
    have hlt : (Finset.range tg.num \ insert i ∅).card < (Finset.range tg.num \ ∅).card :=
      card_sdiff_insert_lt (Finset.mem_range.mpr hi) (Finset.notMem_empty i)
    rw [Finset.sdiff_empty, Finset.card_range] at hlt
    exact hlt.trans_le hnum
  obtain ⟨st₁, hfold, hst₁, hafter⟩ :=
    foldlM_chase (l := [s]) hwf hexplore (by simp [hs]) hfuel (h.restart hi)
  have hchase : chase tg fuel (st.restart tg i) s = some st₁ := by
    simpa using hfold
  simp only [chase, hs, Option.bind_eq_bind, Option.bind_some] at hchase
  obtain ⟨st', hdfs, hpop⟩ := Option.bind_eq_some_iff.mp hchase
  cases hpop
  refine ⟨V, out, st', hexplore, hdfs, ⟨?_, ?_⟩, ⟨hafter.deadlock, hafter.printed⟩⟩
  · exact (hst₁.visited i hi).mpr (hst₁.marked i (List.mem_singleton_self i))
  · exact hst₁.path 0 i rfl

theorem foldlM_restart (hwf : tg.WF) (hi : i < tg.num) {l : List SourceType} {ws : List ℕ}
    (hl : l.map (searchVertex tg) = ws.map some) (h : st.Rooted tg i) :
    ∃ outs st', List.Forall₂ (fun w o => ∃ V, Explore tg.succs [i] [w] {i} V o) ws outs ∧
      l.foldlM (fun st s => do
        DFS tg (tg.num + 1) (← searchVertex tg s) (st.restart tg i)) st = some st' ∧
      st.After st' outs.flatten := by
  induction l generalizing ws st with
  | nil =>
    obtain rfl : ws = [] := List.map_eq_nil_iff.mp hl.symm
    exact ⟨[], st, .nil, rfl, .nil rfl rfl⟩
  | cons s l ih =>
    obtain ⟨w, ws, rfl, hs, hl⟩ := List.map_eq_cons_iff.mp hl.symm
    obtain ⟨V, out, st₁, hexplore, hdfs, hst₁, hafter₁⟩ :=
      restart_DFS hwf hi h hs.symm (Nat.le_succ tg.num)
    obtain ⟨outs, st₂, hall, hrest, hafter₂⟩ := ih hl.symm hst₁
    refine ⟨out :: outs, st₂, .cons ⟨V, hexplore⟩ hall, ?_, ?_⟩
    · rw [List.foldlM_cons, ← hs]
      simp only [Option.bind_eq_bind, Option.bind_some]
      rw [hdfs]
      exact hrest
    · rw [List.flatten_cons]
      exact hafter₁.append hafter₂

/-- `search_for_cycle` makes one search for every edge of its vertex. -/
theorem searchForCycle_spec (hwf : tg.WF) (hi : i < tg.num) (st : Search) :
    ∃ out st', Restarts tg.succs i out ∧ searchForCycle tg i st = some st' ∧ st.After st' out := by
  have hver : tg.list[i]? = some tg.list[i] := List.getElem?_eq_getElem hi
  have hrooted : Search.Rooted tg ⟨Function.update st.visited i 1, Function.update st.path 0 i, 1,
      st.deadlock, st.printed⟩ i := ⟨by simp, by simp⟩
  obtain ⟨outs, st', hall, hfold, hafter⟩ :=
    foldlM_restart hwf hi (hwf.map_searchVertex hver) hrooted
  refine ⟨outs.flatten, st', ⟨outs, hall, rfl⟩, ?_, ⟨hafter.deadlock, hafter.printed⟩⟩
  rw [searchForCycle, hver]
  exact hfold

/-- `check_dead_lock` stops behind the first vertex with a report. -/
theorem checkDeadLock_spec (hwf : tg.WF) (st : Search) :
    ∃ st', checkDeadLock tg st = some st' ∧
      ((∀ i < tg.num, Restarts tg.succs i []) ∧ st'.deadlock = 0 ∧ st'.printed = st.printed ∨
      ∃ i < tg.num, ∃ out, (∀ j < i, Restarts tg.succs j []) ∧ Restarts tg.succs i out ∧
        out ≠ [] ∧ st'.deadlock = 1 ∧ st'.printed = st.printed ++ out.map (·.map Nat.cast)) := by
  suffices ∀ n ≤ tg.num, ∃ st', (List.range n).foldlM
      (fun st i => if st.deadlock = 1 then some st else searchForCycle tg i st)
        { st with deadlock := 0 } = some st' ∧
      ((∀ i < n, Restarts tg.succs i []) ∧ st'.deadlock = 0 ∧ st'.printed = st.printed ∨
      ∃ i < n, ∃ out, (∀ j < i, Restarts tg.succs j []) ∧ Restarts tg.succs i out ∧
        out ≠ [] ∧ st'.deadlock = 1 ∧ st'.printed = st.printed ++ out.map (·.map Nat.cast)) from
    this tg.num le_rfl
  intro n hn
  induction n with
  | zero => exact ⟨_, rfl, .inl ⟨fun _ h => absurd h (Nat.not_lt_zero _), rfl, rfl⟩⟩
  | succ n ih =>
    obtain ⟨st₁, hfold, hst₁⟩ := ih (by omega)
    simp only [List.range_succ, List.foldlM_append, List.foldlM_cons, List.foldlM_nil, hfold,
      Option.bind_eq_bind, Option.bind_some]
    rcases hst₁ with ⟨hquiet, hzero, hprinted⟩ | ⟨i, hin, out, hi⟩
    · obtain ⟨out, st₂, hout, hsearch, hafter⟩ := searchForCycle_spec hwf hn st₁
      rw [if_neg (by rw [hzero]; decide), hsearch]
      refine ⟨st₂, rfl, ?_⟩
      rcases eq_or_ne out [] with rfl | hne
      · refine .inl ⟨fun i hi => ?_, by simp [hafter.deadlock, hzero],
          by simp [hafter.printed, hprinted]⟩
        rcases Nat.lt_succ_iff_lt_or_eq.mp hi with hi | rfl
        · exact hquiet i hi
        · exact hout
      · exact .inr ⟨n, Nat.lt_succ_self n, out, hquiet, hout, hne, by simp [hafter.deadlock, hne],
          by rw [hafter.printed, hprinted]⟩
    · rw [if_pos hi.2.2.2.1]
      exact ⟨st₁, rfl, .inr ⟨i, Nat.lt_succ_of_lt hin, out, hi⟩⟩

end Check

end ServerKit.Deadlock
