import ServerKit.Lib.MarkedSearch
import ServerKit.Lib.System
import Mathlib.Data.Int.Notation
import Mathlib.Logic.Function.Basic

/-! # The wait-for graph of `deadlock_success.c` -/

namespace ServerKit.Deadlock

open ServerKit.MarkedSearch Relation

def MAX : ℕ := 100

/-- `enum Type`. -/
inductive SourceKind where
  | PROCESS
  | RESOURCE
  deriving DecidableEq, Repr

structure SourceType where
  id : UInt64
  type : SourceKind
  lockId : UInt64
  degress : ℤ
  deriving DecidableEq, Repr

/-- A slot of the vertex table: `s`, and the `s` of the vertices chained to it. -/
structure Vertex where
  s : SourceType
  next : List SourceType
  deriving DecidableEq, Repr

/-- `struct task_graph`. Of the table, `list` holds the first `num` slots. -/
structure TaskGraph where
  list : List Vertex
  locklist : List SourceType
  lockidx : ℕ
  deriving DecidableEq, Repr

def TaskGraph.num (tg : TaskGraph) : ℕ := tg.list.length

/-- The all-zero graph. -/
def TaskGraph.start : TaskGraph := ⟨[], List.replicate MAX ⟨0, .PROCESS, 0, 0⟩, 0⟩

/-- The index of a vertex; `none` for the `-1` of the source. -/
def searchVertex (tg : TaskGraph) (type : SourceType) : Option ℕ :=
  tg.list.findIdx? fun v => v.s.type == type.type && v.s.id == type.id

/-- A full table has no slot for one more vertex: the source writes past it. -/
def addVertex (tg : TaskGraph) (type : SourceType) : Option TaskGraph :=
  if searchVertex tg type = none then
    if tg.num < MAX then some { tg with list := tg.list ++ [⟨type, []⟩] } else none
  else some tg

/-- The change of the chain of one vertex. -/
def TaskGraph.modifyNext (tg : TaskGraph) (idx : ℕ) (f : List SourceType → List SourceType) :
    TaskGraph :=
  { tg with list := tg.list.modify idx fun v => { v with next := f v.next } }

def addEdge (tg : TaskGraph) (from' to' : SourceType) : Option TaskGraph := do
  let tg ← addVertex tg from'
  let tg ← addVertex tg to'
  let idx ← searchVertex tg from'
  return tg.modifyNext idx (· ++ [to'])

/-- The search starts at the vertex `i` itself, and compares only the ids. -/
def verifyEdge (tg : TaskGraph) (i j : SourceType) : Bool :=
  match (searchVertex tg i).bind (tg.list[·]?) with
  | none => false
  | some v => (v.s :: v.next).any fun s => s.id == j.id

def removeEdge (tg : TaskGraph) (from' to' : SourceType) : TaskGraph :=
  match searchVertex tg from', searchVertex tg to' with
  | some idxi, some _ => tg.modifyNext idxi (·.eraseP (·.id == to'.id))
  | _, _ => tg

/-- The calls that change the graph. -/
inductive GraphOp where
  | addVertex (type : SourceType)
  | addEdge (from' to' : SourceType)
  | removeEdge (from' to' : SourceType)

def GraphOp.apply (tg : TaskGraph) : GraphOp → Option TaskGraph
  | .addVertex type => Deadlock.addVertex tg type
  | .addEdge from' to' => Deadlock.addEdge tg from' to'
  | .removeEdge from' to' => some (Deadlock.removeEdge tg from' to')

/-- The graph built by the calls; there is none if the table overflows. -/
def build (ops : List GraphOp) : Option TaskGraph := ops.foldlM GraphOp.apply .start

/-- The successors of the vertex at an index, as the search finds them. -/
def TaskGraph.succs (tg : TaskGraph) (i : ℕ) : List ℕ :=
  match tg.list[i]? with
  | none => []
  | some v => v.next.filterMap (searchVertex tg)

/-! ## Vertices by their keys -/

/-- What `search_vertex` compares. -/
abbrev Key := UInt64 × SourceKind

def SourceType.key (s : SourceType) : Key := (s.id, s.type)

def TaskGraph.keys (tg : TaskGraph) : List Key := tg.list.map (·.s.key)

/-- What is chained to a vertex; nothing if the vertex does not exist. -/
def TaskGraph.chain (tg : TaskGraph) (a : Key) : List SourceType :=
  ((tg.list.find? (·.s.key = a)).map (·.next)).getD []

/-- The keys chained to a vertex; none if the vertex does not exist. -/
def TaskGraph.out (tg : TaskGraph) (a : Key) : List Key :=
  ((tg.list.find? (·.s.key = a)).map fun v => v.next.map (·.key)).getD []

/-- No vertex occurs twice, and everything chained is a vertex. -/
structure TaskGraph.WF (tg : TaskGraph) : Prop where
  nodup : tg.keys.Nodup
  closed : ∀ v ∈ tg.list, ∀ s ∈ v.next, s.key ∈ tg.keys
  small : tg.num ≤ MAX

theorem TaskGraph.WF.start : TaskGraph.start.WF :=
  ⟨List.nodup_nil, fun _ h => absurd h List.not_mem_nil, Nat.zero_le _⟩

theorem searchVertex_eq (tg : TaskGraph) (s : SourceType) :
    searchVertex tg s = tg.keys.idxOf? s.key := by
  rw [searchVertex, List.idxOf?, TaskGraph.keys, List.findIdx?_map]
  congr 1
  funext v
  rw [Bool.eq_iff_iff]
  simp [SourceType.key, Prod.ext_iff, and_comm]

theorem searchVertex_eq_none_iff {tg : TaskGraph} {s : SourceType} :
    searchVertex tg s = none ↔ s.key ∉ tg.keys := by
  rw [searchVertex_eq, List.idxOf?_eq_none_iff]

theorem TaskGraph.num_eq (tg : TaskGraph) : tg.num = tg.keys.length :=
  (List.length_map _).symm

theorem keys_getElem? {tg : TaskGraph} {i : ℕ} {v : Vertex} (h : tg.list[i]? = some v) :
    tg.keys[i]? = some v.s.key := by
  rw [TaskGraph.keys, List.getElem?_map, h, Option.map_some]

section WF

variable {tg tg' : TaskGraph} {s from' to' : SourceType} {i j : ℕ} {v : Vertex} {a b : Key}

theorem TaskGraph.WF.searchVertex_eq_some_iff (h : tg.WF) :
    searchVertex tg s = some i ↔ tg.keys[i]? = some s.key := by
  rw [searchVertex_eq, List.idxOf?_eq_some_iff]
  constructor
  · rintro ⟨hi, hkey, -⟩
    rw [List.getElem?_eq_getElem hi, hkey]
  · intro hkey
    obtain ⟨hi, hkey⟩ := List.getElem?_eq_some_iff.mp hkey
    refine ⟨hi, hkey, ?_⟩
    intro j hj hjkey
    exact absurd (h.nodup.getElem_inj_iff.mp (hjkey.trans hkey.symm)) (by omega)

theorem TaskGraph.out_eq_map (tg : TaskGraph) (a : Key) :
    tg.out a = (tg.chain a).map (·.key) := by
  rw [TaskGraph.out, TaskGraph.chain]
  cases tg.list.find? (·.s.key = a) <;> rfl

theorem chain_of_not_mem (h : a ∉ tg.keys) : tg.chain a = [] := by
  have hnone : tg.list.find? (·.s.key = a) = none :=
    List.find?_eq_none.mpr fun v hv hkey =>
      h (of_decide_eq_true hkey ▸ List.mem_map_of_mem (f := (·.s.key)) hv)
  rw [TaskGraph.chain, hnone, Option.map_none, Option.getD_none]

theorem out_of_not_mem (h : a ∉ tg.keys) : tg.out a = [] := by
  rw [TaskGraph.out_eq_map, chain_of_not_mem h, List.map_nil]

theorem mem_keys_of_out_ne_nil (h : tg.out a ≠ []) : a ∈ tg.keys :=
  not_not.mp fun hnot => h (out_of_not_mem hnot)

theorem TaskGraph.WF.chain_eq (h : tg.WF) (hv : v ∈ tg.list) : tg.chain v.s.key = v.next := by
  have hsome : (tg.list.find? (·.s.key = v.s.key)).isSome :=
    List.find?_isSome.mpr ⟨v, hv, by simp⟩
  obtain ⟨w, hw⟩ := Option.isSome_iff_exists.mp hsome
  have hkey := List.find?_some hw
  have hwv : w = v := List.inj_on_of_nodup_map h.nodup (List.mem_of_find?_eq_some hw) hv
    (of_decide_eq_true hkey)
  rw [TaskGraph.chain, hw, Option.map_some, Option.getD_some, hwv]

theorem TaskGraph.WF.out_eq (h : tg.WF) (hv : v ∈ tg.list) :
    tg.out v.s.key = v.next.map (·.key) := by
  rw [TaskGraph.out_eq_map, h.chain_eq hv]

theorem TaskGraph.WF.mem_keys_of_mem_out (h : tg.WF) (hb : b ∈ tg.out a) : b ∈ tg.keys := by
  by_cases ha : a ∈ tg.keys
  · obtain ⟨v, hv, rfl⟩ := List.mem_map.mp ha
    rw [h.out_eq hv] at hb
    obtain ⟨s, hs, rfl⟩ := List.mem_map.mp hb
    exact h.closed v hv s hs
  · rw [out_of_not_mem ha] at hb
    cases hb

/-! ## The calls -/

theorem addVertex_cases (h : addVertex tg s = some tg') :
    s.key ∈ tg.keys ∧ tg' = tg ∨
    s.key ∉ tg.keys ∧ tg.num < MAX ∧ tg' = { tg with list := tg.list ++ [⟨s, []⟩] } := by
  rw [addVertex] at h
  split at h
  · rename_i hnone
    split at h
    · rename_i hroom
      exact .inr ⟨searchVertex_eq_none_iff.mp hnone, hroom, by simpa using h.symm⟩
    · cases h
  · rename_i hsome
    rw [searchVertex_eq_none_iff, not_not] at hsome
    exact .inl ⟨hsome, by simpa using h.symm⟩

theorem addVertex_keys (h : addVertex tg s = some tg') :
    tg'.keys = if s.key ∈ tg.keys then tg.keys else tg.keys ++ [s.key] := by
  rcases addVertex_cases h with ⟨hmem, rfl⟩ | ⟨hmem, -, rfl⟩
  · rw [if_pos hmem]
  · rw [if_neg hmem]
    simp [TaskGraph.keys]

theorem mem_addVertex_keys (h : addVertex tg s = some tg') :
    a ∈ tg'.keys ↔ a ∈ tg.keys ∨ a = s.key := by
  rw [addVertex_keys h]
  split
  · rename_i hmem
    exact ⟨.inl, fun ha => ha.elim id (· ▸ hmem)⟩
  · simp

theorem TaskGraph.WF.addVertex (hwf : tg.WF) (h : addVertex tg s = some tg') : tg'.WF := by
  have hkeys := addVertex_keys h
  have hmem : ∀ a, a ∈ tg'.keys ↔ a ∈ tg.keys ∨ a = s.key := fun _ => mem_addVertex_keys h
  rcases addVertex_cases h with ⟨-, rfl⟩ | ⟨hnot, hroom, rfl⟩
  · exact hwf
  · refine ⟨?_, fun v hv t ht => ?_, ?_⟩
    · rw [hkeys, if_neg hnot]
      exact hwf.nodup.append (List.nodup_singleton _) (by simpa using hnot)
    · rw [hmem]
      rcases List.mem_append.mp hv with hv | hv
      · exact .inl (hwf.closed v hv t ht)
      · rw [List.mem_singleton.mp hv] at ht
        cases ht
    · simpa [TaskGraph.num, Nat.succ_le_iff] using hroom

/-- A new vertex has no edges. -/
theorem TaskGraph.WF.addVertex_chain (hwf : tg.WF) (h : Deadlock.addVertex tg s = some tg') :
    tg'.chain = tg.chain := by
  have hwf' := hwf.addVertex h
  rcases addVertex_cases h with ⟨-, rfl⟩ | ⟨hnot, -, rfl⟩
  · rfl
  · funext a
    by_cases ha : a ∈ tg.keys
    · obtain ⟨v, hv, rfl⟩ := List.mem_map.mp ha
      rw [hwf.chain_eq hv, hwf'.chain_eq (List.mem_append_left _ hv)]
    · rw [chain_of_not_mem ha]
      by_cases has : a = s.key
      · rw [has]
        exact hwf'.chain_eq (List.mem_append_right _ (List.mem_singleton_self _))
      · exact chain_of_not_mem (by rw [mem_addVertex_keys h]; tauto)

theorem TaskGraph.WF.addVertex_out (hwf : tg.WF) (h : Deadlock.addVertex tg s = some tg') :
    tg'.out = tg.out := by
  funext a
  rw [TaskGraph.out_eq_map, TaskGraph.out_eq_map, hwf.addVertex_chain h]

theorem addVertex_locks (h : addVertex tg s = some tg') :
    tg'.locklist = tg.locklist ∧ tg'.lockidx = tg.lockidx := by
  rcases addVertex_cases h with ⟨-, rfl⟩ | ⟨-, -, rfl⟩ <;> exact ⟨rfl, rfl⟩

theorem modifyNext_keys (f : List SourceType → List SourceType) :
    (tg.modifyNext i f).keys = tg.keys := by
  apply List.ext_getElem?
  intro n
  simp only [TaskGraph.keys, TaskGraph.modifyNext, List.getElem?_map, List.getElem?_modify]
  split <;> simp [Option.map_map, Function.comp_def]

theorem TaskGraph.WF.modifyNext (hwf : tg.WF) {f : List SourceType → List SourceType}
    (hf : ∀ l, ∀ s ∈ f l, s ∈ l ∨ s.key ∈ tg.keys) : (tg.modifyNext i f).WF := by
  refine ⟨?_, fun v hv s hs => ?_, ?_⟩
  · rw [modifyNext_keys]
    exact hwf.nodup
  · rw [modifyNext_keys]
    obtain ⟨n, hn⟩ := List.getElem?_of_mem hv
    simp only [TaskGraph.modifyNext, List.getElem?_modify] at hn
    obtain ⟨w, hw, hwv⟩ := Option.map_eq_some_iff.mp hn
    have hwmem := List.mem_of_getElem? hw
    split at hwv
    · cases hwv
      exact (hf _ s hs).elim (hwf.closed _ hwmem s) id
    · cases hwv
      exact hwf.closed _ hwmem s hs
  · rw [TaskGraph.num_eq, modifyNext_keys, ← TaskGraph.num_eq]
    exact hwf.small

theorem TaskGraph.WF.modifyNext_chain (hwf : tg.WF) {f : List SourceType → List SourceType}
    (hwf' : (tg.modifyNext i f).WF) (hi : tg.keys[i]? = some a) :
    (tg.modifyNext i f).chain = Function.update tg.chain a (f (tg.chain a)) := by
  funext b
  by_cases hb : b ∈ tg.keys
  · obtain ⟨n, hn⟩ := List.getElem?_of_mem hb
    rw [TaskGraph.keys, List.getElem?_map] at hn
    obtain ⟨v, hv, rfl⟩ := Option.map_eq_some_iff.mp hn
    by_cases hni : i = n
    · subst hni
      have hav : a = v.s.key := by simpa [hi] using keys_getElem? hv
      have hmem : { v with next := f v.next } ∈ (tg.modifyNext i f).list :=
        List.mem_of_getElem? (i := i) (by simp [TaskGraph.modifyNext, hv])
      rw [hav, Function.update_self, hwf.chain_eq (List.mem_of_getElem? hv)]
      exact hwf'.chain_eq hmem
    · have hne : v.s.key ≠ a := fun hva => hni <| by
        have := keys_getElem? hv
        rw [hva, ← hi] at this
        exact (List.getElem?_inj (List.getElem?_eq_some_iff.mp hi).1 hwf.nodup).mp this.symm
      have hmem : v ∈ (tg.modifyNext i f).list :=
        List.mem_of_getElem? (i := n) (by simp [TaskGraph.modifyNext, hv, hni])
      rw [Function.update_of_ne hne, hwf.chain_eq (List.mem_of_getElem? hv)]
      exact hwf'.chain_eq hmem
  · have hne : b ≠ a := fun hba => hb (hba ▸ List.mem_of_getElem? hi)
    rw [Function.update_of_ne hne, chain_of_not_mem hb,
      chain_of_not_mem (by rwa [modifyNext_keys])]

/-- A change of one chain is a change of its keys. -/
theorem out_update {l : List SourceType} (h : tg'.chain = Function.update tg.chain a l) :
    tg'.out = Function.update tg.out a (l.map (·.key)) := by
  funext b
  rw [TaskGraph.out_eq_map, h]
  by_cases hb : b = a
  · rw [hb, Function.update_self, Function.update_self]
  · rw [Function.update_of_ne hb, Function.update_of_ne hb, TaskGraph.out_eq_map]

theorem addEdge_cases (h : addEdge tg from' to' = some tg') :
    ∃ tg₁ tg₂ idx, addVertex tg from' = some tg₁ ∧ addVertex tg₁ to' = some tg₂ ∧
      searchVertex tg₂ from' = some idx ∧ tg' = tg₂.modifyNext idx (· ++ [to']) := by
  obtain ⟨tg₁, h₁, h⟩ := Option.bind_eq_some_iff.mp h
  obtain ⟨tg₂, h₂, h⟩ := Option.bind_eq_some_iff.mp h
  obtain ⟨idx, hidx, h⟩ := Option.bind_eq_some_iff.mp h
  exact ⟨tg₁, tg₂, idx, h₁, h₂, hidx, (Option.some.inj h).symm⟩

theorem TaskGraph.WF.addEdge (hwf : tg.WF) (h : addEdge tg from' to' = some tg') : tg'.WF := by
  obtain ⟨tg₁, tg₂, idx, h₁, h₂, -, rfl⟩ := addEdge_cases h
  apply ((hwf.addVertex h₁).addVertex h₂).modifyNext
  intro l s hs
  rcases List.mem_append.mp hs with hs | hs
  · exact .inl hs
  · rw [List.mem_singleton.mp hs]
    exact .inr ((mem_addVertex_keys h₂).mpr (.inr rfl))

theorem mem_addEdge_keys (h : addEdge tg from' to' = some tg') :
    a ∈ tg'.keys ↔ a ∈ tg.keys ∨ a = from'.key ∨ a = to'.key := by
  obtain ⟨tg₁, tg₂, idx, h₁, h₂, -, rfl⟩ := addEdge_cases h
  rw [modifyNext_keys, mem_addVertex_keys h₂, mem_addVertex_keys h₁, or_assoc]

/-- A new edge is the last of its chain. -/
theorem TaskGraph.WF.addEdge_chain (hwf : tg.WF) (h : Deadlock.addEdge tg from' to' = some tg') :
    tg'.chain = Function.update tg.chain from'.key (tg.chain from'.key ++ [to']) := by
  have hwf' := hwf.addEdge h
  obtain ⟨tg₁, tg₂, idx, h₁, h₂, hidx, rfl⟩ := addEdge_cases h
  have hwf₁ := hwf.addVertex h₁
  have hwf₂ := hwf₁.addVertex h₂
  rw [hwf₂.modifyNext_chain hwf' (hwf₂.searchVertex_eq_some_iff.mp hidx),
    hwf₁.addVertex_chain h₂, hwf.addVertex_chain h₁]

theorem TaskGraph.WF.addEdge_out (hwf : tg.WF) (h : Deadlock.addEdge tg from' to' = some tg') :
    tg'.out = Function.update tg.out from'.key (tg.out from'.key ++ [to'.key]) := by
  rw [out_update (hwf.addEdge_chain h), List.map_append, ← TaskGraph.out_eq_map]
  rfl

theorem addEdge_locks (h : addEdge tg from' to' = some tg') :
    tg'.locklist = tg.locklist ∧ tg'.lockidx = tg.lockidx := by
  obtain ⟨tg₁, tg₂, idx, h₁, h₂, -, rfl⟩ := addEdge_cases h
  obtain ⟨hlist₁, hidx₁⟩ := addVertex_locks h₁
  obtain ⟨hlist₂, hidx₂⟩ := addVertex_locks h₂
  exact ⟨hlist₂.trans hlist₁, hidx₂.trans hidx₁⟩

theorem removeEdge_cases (tg : TaskGraph) (from' to' : SourceType) :
    (∃ idx, searchVertex tg from' = some idx ∧ to'.key ∈ tg.keys ∧
      removeEdge tg from' to' = tg.modifyNext idx (·.eraseP (·.id == to'.id))) ∨
    (from'.key ∉ tg.keys ∨ to'.key ∉ tg.keys) ∧ removeEdge tg from' to' = tg := by
  rw [removeEdge]
  cases hfrom : searchVertex tg from' with
  | none => exact .inr ⟨.inl (searchVertex_eq_none_iff.mp hfrom), rfl⟩
  | some idx =>
    cases hto : searchVertex tg to' with
    | none => exact .inr ⟨.inr (searchVertex_eq_none_iff.mp hto), rfl⟩
    | some idxj =>
      have hmem : to'.key ∈ tg.keys := by
        by_contra hnot
        rw [searchVertex_eq_none_iff.mpr hnot] at hto
        cases hto
      exact .inl ⟨idx, rfl, hmem, rfl⟩

theorem removeEdge_keys (tg : TaskGraph) (from' to' : SourceType) :
    (removeEdge tg from' to').keys = tg.keys := by
  rcases removeEdge_cases tg from' to' with ⟨idx, -, -, h⟩ | ⟨-, h⟩
  · rw [h, modifyNext_keys]
  · rw [h]

theorem TaskGraph.WF.removeEdge (hwf : tg.WF) (from' to' : SourceType) :
    (removeEdge tg from' to').WF := by
  rcases removeEdge_cases tg from' to' with ⟨idx, -, -, h⟩ | ⟨-, h⟩
  · rw [h]
    exact hwf.modifyNext fun l s hs => .inl (List.mem_of_mem_eraseP hs)
  · rwa [h]

/-- The first chained vertex with the given id goes, if the edge has both its ends. -/
theorem TaskGraph.WF.removeEdge_chain (hwf : tg.WF) (from' to' : SourceType)
    (hto : to'.key ∈ tg.keys) :
    (Deadlock.removeEdge tg from' to').chain =
      Function.update tg.chain from'.key ((tg.chain from'.key).eraseP (·.id == to'.id)) := by
  have hwf' := hwf.removeEdge from' to'
  rcases removeEdge_cases tg from' to' with ⟨idx, hidx, -, h⟩ | ⟨hmiss, h⟩
  · rw [h] at hwf' ⊢
    exact hwf.modifyNext_chain hwf' (hwf.searchVertex_eq_some_iff.mp hidx)
  · rw [h, chain_of_not_mem (hmiss.resolve_right (not_not.mpr hto)), List.eraseP_nil,
      ← chain_of_not_mem (hmiss.resolve_right (not_not.mpr hto)), Function.update_eq_self]

theorem TaskGraph.WF.removeEdge_out (hwf : tg.WF) (from' to' : SourceType)
    (hto : to'.key ∈ tg.keys) :
    (Deadlock.removeEdge tg from' to').out =
      Function.update tg.out from'.key ((tg.out from'.key).eraseP (·.1 == to'.id)) := by
  rw [out_update (hwf.removeEdge_chain from' to' hto), TaskGraph.out_eq_map, List.eraseP_map]
  rfl

theorem removeEdge_locks (tg : TaskGraph) (from' to' : SourceType) :
    (removeEdge tg from' to').locklist = tg.locklist ∧
      (removeEdge tg from' to').lockidx = tg.lockidx := by
  rcases removeEdge_cases tg from' to' with ⟨idx, -, -, h⟩ | ⟨-, h⟩ <;> rw [h] <;> exact ⟨rfl, rfl⟩

/-- `verify_edge` holds of every vertex and itself, too. -/
theorem TaskGraph.WF.verifyEdge_iff (hwf : tg.WF) :
    verifyEdge tg from' to' ↔
      from'.key ∈ tg.keys ∧ (from'.id = to'.id ∨ ∃ b ∈ tg.out from'.key, b.1 = to'.id) := by
  rw [verifyEdge]
  cases hfrom : searchVertex tg from' with
  | none => simp [searchVertex_eq_none_iff.mp hfrom]
  | some idx =>
    have hkey := hwf.searchVertex_eq_some_iff.mp hfrom
    have hmem := List.mem_of_getElem? hkey
    rw [TaskGraph.keys, List.getElem?_map] at hkey
    obtain ⟨v, hv, hvkey⟩ := Option.map_eq_some_iff.mp hkey
    have hid : v.s.id = from'.id := congrArg Prod.fst hvkey
    simp only [Option.bind_some, hv, hmem, true_and]
    rw [← hvkey, hwf.out_eq (List.mem_of_getElem? hv)]
    simp [hid, SourceType.key]

theorem TaskGraph.WF.apply {op : GraphOp} (hwf : tg.WF) (h : op.apply tg = some tg') : tg'.WF := by
  cases op with
  | addVertex type => exact hwf.addVertex h
  | addEdge from' to' => exact hwf.addEdge h
  | removeEdge from' to' =>
      cases h
      exact hwf.removeEdge from' to'

/-- Every graph that can be built is well formed. -/
theorem build_wf {ops : List GraphOp} (h : build ops = some tg) : tg.WF :=
  ServerKit.System.foldlM_invariant (fun _ _ _ hwf hop => hwf.apply hop) .start h

/-! ## Edges by index and by key -/

/-- Every chained vertex is found. -/
theorem TaskGraph.WF.map_searchVertex (hwf : tg.WF) (hv : tg.list[i]? = some v) :
    v.next.map (searchVertex tg) = (tg.succs i).map some := by
  have hfound : ∀ s ∈ v.next, (searchVertex tg s).isSome := by
    intro s hs
    rw [Option.isSome_iff_ne_none, ne_eq, searchVertex_eq_none_iff, not_not]
    exact hwf.closed v (List.mem_of_getElem? hv) s hs
  simp only [TaskGraph.succs, hv]
  generalize v.next = l at hfound
  induction l with
  | nil => rfl
  | cons s l ih =>
    obtain ⟨j, hj⟩ := Option.isSome_iff_exists.mp (hfound s List.mem_cons_self)
    rw [List.map_cons, List.filterMap_cons_some hj, List.map_cons, hj,
      ih fun t ht => hfound t (List.mem_cons_of_mem _ ht)]

theorem TaskGraph.WF.adj_iff (hwf : tg.WF) :
    Adj tg.succs i j ↔ ∃ a b, tg.keys[i]? = some a ∧ tg.keys[j]? = some b ∧ b ∈ tg.out a := by
  cases hi : tg.list[i]? with
  | none => simp [Adj, TaskGraph.succs, TaskGraph.keys, hi]
  | some v =>
    rw [keys_getElem? hi]
    simp only [Adj, TaskGraph.succs, hi, List.mem_filterMap, hwf.searchVertex_eq_some_iff]
    constructor
    · rintro ⟨s, hs, hj⟩
      exact ⟨_, _, rfl, hj, hwf.out_eq (List.mem_of_getElem? hi) ▸ List.mem_map_of_mem hs⟩
    · rintro ⟨a, b, ha, hb, hab⟩
      cases ha
      rw [hwf.out_eq (List.mem_of_getElem? hi)] at hab
      obtain ⟨s, hs, rfl⟩ := List.mem_map.mp hab
      exact ⟨s, hs, hb⟩

theorem TaskGraph.WF.lt_num_of_adj (hwf : tg.WF) (h : Adj tg.succs i j) :
    i < tg.num ∧ j < tg.num := by
  obtain ⟨a, b, ha, hb, -⟩ := hwf.adj_iff.mp h
  rw [TaskGraph.num_eq]
  exact ⟨(List.getElem?_eq_some_iff.mp ha).1, (List.getElem?_eq_some_iff.mp hb).1⟩

/-- The cycles of the indices are those of the keys. -/
theorem TaskGraph.WF.exists_cycle_iff (hwf : tg.WF) :
    (∃ i, TransGen (Adj tg.succs) i i) ↔ ∃ a, TransGen (Adj tg.out) a a := by
  have hkeys : ∀ i j, TransGen (Adj tg.succs) i j →
      ∃ a b, tg.keys[i]? = some a ∧ tg.keys[j]? = some b ∧ TransGen (Adj tg.out) a b := by
    intro i j h
    induction h with
    | single h =>
      obtain ⟨a, b, ha, hb, hab⟩ := hwf.adj_iff.mp h
      exact ⟨a, b, ha, hb, .single hab⟩
    | tail _ h ih =>
      obtain ⟨a, b, ha, hb, hab⟩ := ih
      obtain ⟨b', c, hb', hc, hbc⟩ := hwf.adj_iff.mp h
      cases hb.symm.trans hb'
      exact ⟨a, c, ha, hc, hab.tail hbc⟩
  have hindex : ∀ a b, TransGen (Adj tg.out) a b →
      ∃ i j, tg.keys[i]? = some a ∧ tg.keys[j]? = some b ∧ TransGen (Adj tg.succs) i j := by
    intro a b h
    induction h with
    | single h =>
      obtain ⟨i, hi⟩ := List.getElem?_of_mem (mem_keys_of_out_ne_nil (List.ne_nil_of_mem h))
      obtain ⟨j, hj⟩ := List.getElem?_of_mem (hwf.mem_keys_of_mem_out h)
      exact ⟨i, j, hi, hj, .single (hwf.adj_iff.mpr ⟨_, _, hi, hj, h⟩)⟩
    | tail _ h ih =>
      obtain ⟨i, j, hi, hj, hij⟩ := ih
      obtain ⟨l, hl⟩ := List.getElem?_of_mem (hwf.mem_keys_of_mem_out h)
      exact ⟨i, l, hi, hl, hij.tail (hwf.adj_iff.mpr ⟨_, _, hj, hl, h⟩)⟩
  constructor
  · rintro ⟨i, h⟩
    obtain ⟨a, b, ha, hb, hab⟩ := hkeys i i h
    cases ha.symm.trans hb
    exact ⟨a, hab⟩
  · rintro ⟨a, h⟩
    obtain ⟨i, j, hi, hj, hij⟩ := hindex a a h
    have := (List.getElem?_inj (List.getElem?_eq_some_iff.mp hi).1 hwf.nodup).mp (hi.trans hj.symm)
    exact ⟨i, this ▸ hij⟩

end WF

end ServerKit.Deadlock
