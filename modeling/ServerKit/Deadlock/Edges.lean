import ServerKit.Deadlock.Reports
import Mathlib.Data.Multiset.Count

/-! # The edges as a multiset

`add_edge` puts in an edge and `remove_edge` takes one out. The queries compare the ids alone, and
`verify_edge` begins at the vertex itself, so that other edges and the vertex answer, too. -/

namespace ServerKit.Deadlock

open ServerKit.System

/-- What a call is meant to do to the edges. -/
def GraphOp.edges (E : Multiset (Key × Key)) : GraphOp → Multiset (Key × Key)
  | .addVertex _ => E
  | .addEdge from' to' => (from'.key, to'.key) ::ₘ E
  | .removeEdge from' to' => E.erase (from'.key, to'.key)

/-- The edges that the calls have put in and not taken out. -/
def edges (ops : List GraphOp) : Multiset (Key × Key) := ops.foldl GraphOp.edges 0

/-- The chains are these edges. -/
def TaskGraph.Shows (tg : TaskGraph) (E : Multiset (Key × Key)) : Prop :=
  ∀ a b, (tg.out a).count b = E.count (a, b)

/-- Without an edge from `i` to `j`, neither the vertex `i` nor another edge of it has the id
of `j`. -/
structure TaskGraph.Verifiable (tg : TaskGraph) (i j : SourceType) : Prop where
  self : i.key ∈ tg.keys → i.id = j.id → j.key ∈ tg.out i.key
  namesake : ∀ b ∈ tg.out i.key, b.1 = j.id → j.key ∈ tg.out i.key

/-- The first edge of `i` to a vertex with the id of `j` leads to `j`. -/
def TaskGraph.Removable (tg : TaskGraph) (i j : SourceType) : Prop :=
  j.key ∈ tg.keys → ∀ b ∈ (tg.out i.key).find? (·.1 == j.id), b = j.key

instance (tg : TaskGraph) (i j : SourceType) : Decidable (tg.Removable i j) :=
  inferInstanceAs (Decidable (_ → _))

/-- A call, with the edges that there are meant to be. -/
def GraphOp.next : TaskGraph × Multiset (Key × Key) → GraphOp →
    Option (TaskGraph × Multiset (Key × Key)) :=
  withHistory GraphOp.apply GraphOp.edges

/-- The chains are the edges that there are meant to be. -/
structure Shown (s : TaskGraph × Multiset (Key × Key)) : Prop where
  wf : s.1.WF
  shows : s.1.Shows s.2

/-- A removal finds its edge first. -/
def Clear (s : TaskGraph × Multiset (Key × Key)) : GraphOp → Prop
  | .removeEdge i j => s.1.Removable i j
  | .addVertex _ | .addEdge _ _ => True

instance (s : TaskGraph × Multiset (Key × Key)) : (op : GraphOp) → Decidable (Clear s op)
  | .removeEdge i j => inferInstanceAs (Decidable (s.1.Removable i j))
  | .addVertex _ | .addEdge _ _ => inferInstanceAs (Decidable True)

section Edges

variable {tg tg' : TaskGraph} {E : Multiset (Key × Key)} {i j : SourceType} {a b : Key}

theorem TaskGraph.Shows.start : TaskGraph.start.Shows 0 := fun _ _ => rfl

theorem TaskGraph.Shows.mem_out_iff (h : tg.Shows E) : b ∈ tg.out a ↔ (a, b) ∈ E := by
  rw [← List.count_pos_iff, h, Multiset.count_pos]

theorem TaskGraph.Shows.addEdge (h : tg.Shows E)
    (hout : tg'.out = Function.update tg.out i.key (tg.out i.key ++ [j.key])) :
    tg'.Shows ((i.key, j.key) ::ₘ E) := by
  intro a b
  rw [hout, Multiset.count_cons, ← h a b]
  by_cases ha : a = i.key
  · subst ha
    rw [Function.update_self, List.count_append]
    by_cases hb : b = j.key
    · simp [hb]
    · simp [hb, Ne.symm hb]
  · rw [Function.update_of_ne ha, if_neg (by simp [ha]), Nat.add_zero]

/-! ## The queries -/

/-- `verify_edge` is exact where nothing else can answer for the edge. -/
theorem TaskGraph.Shows.verifyEdge_exact_iff (h : tg.Shows E) (hwf : tg.WF) :
    (verifyEdge tg i j ↔ (i.key, j.key) ∈ E) ↔ tg.Verifiable i j := by
  rw [hwf.verifyEdge_iff, ← h.mem_out_iff]
  constructor
  · intro hexact
    refine ⟨fun hi hid => hexact.mp ⟨hi, .inl hid⟩, fun b hb hid => ?_⟩
    have hi : i.key ∈ tg.keys := mem_keys_of_out_ne_nil (List.ne_nil_of_mem hb)
    exact hexact.mp ⟨hi, .inr ⟨b, hb, hid⟩⟩
  · rintro ⟨hself, hnamesake⟩
    constructor
    · rintro ⟨hi, hid | ⟨b, hb, hid⟩⟩
      · exact hself hi hid
      · exact hnamesake b hb hid
    · intro hj
      exact ⟨mem_keys_of_out_ne_nil (List.ne_nil_of_mem hj), .inr ⟨j.key, hj, rfl⟩⟩

/-- Erasing the first element with a property erases an element that has it, if and only if the
first one with the property is this element. -/
theorem count_eraseP_eq_iff {α : Type} [BEq α] [LawfulBEq α] {p : α → Bool} {x : α} (hx : p x)
    (l : List α) :
    (∀ y, (l.eraseP p).count y = (l.erase x).count y) ↔ ∀ y ∈ l.find? p, y = x := by
  cases hfind : l.find? p with
  | none =>
      have hnone := List.find?_eq_none.mp hfind
      have herase : l.erase x = l := List.erase_of_not_mem fun hmem => hnone x hmem hx
      simp [List.eraseP_of_forall_not hnone, herase]
  | some z =>
      obtain ⟨hz, front, back, rfl, hfront⟩ := List.find?_eq_some_iff_append.mp hfind
      have hfront : ∀ y ∈ front, ¬ p y := by simpa using hfront
      have heraseP : (front ++ z :: back).eraseP p = front ++ back := by
        rw [List.eraseP_append_right _ hfront, List.eraseP_cons_of_pos hz]
      rw [heraseP]
      constructor
      · intro hcount y hy
        obtain rfl : z = y := by simpa using hy
        by_contra hne
        have hz := hcount z
        rw [List.count_erase_of_ne hne] at hz
        simp at hz
      · intro hfirst y
        obtain rfl : z = x := hfirst z rfl
        have hmem : z ∉ front := fun hmem => hfront z hmem hz
        rw [List.erase_append_right _ hmem, List.erase_cons_head]

/-- `remove_edge` is exact where it finds its edge first. -/
theorem TaskGraph.Shows.removeEdge_exact_iff (h : tg.Shows E) (hwf : tg.WF) :
    (removeEdge tg i j).Shows (E.erase (i.key, j.key)) ↔ tg.Removable i j := by
  by_cases hj : j.key ∈ tg.keys
  · have hcount : (removeEdge tg i j).Shows (E.erase (i.key, j.key)) ↔
        ∀ b, ((tg.out i.key).eraseP (·.1 == j.id)).count b =
          ((tg.out i.key).erase j.key).count b := by
      have herased : ∀ b, ((tg.out i.key).erase j.key).count b =
          (E.erase (i.key, j.key)).count (i.key, b) := by
        intro b
        by_cases hb : b = j.key
        · rw [hb, List.count_erase_self, Multiset.count_erase_self, h]
        · rw [List.count_erase_of_ne hb, Multiset.count_erase_of_ne (by simp [hb]), h]
      constructor
      · intro hshows b
        rw [herased, ← hshows, hwf.removeEdge_out i j hj, Function.update_self]
      · intro hsame a b
        rw [hwf.removeEdge_out i j hj]
        by_cases ha : a = i.key
        · rw [ha, Function.update_self, hsame, herased]
        · rw [Function.update_of_ne ha, Multiset.count_erase_of_ne (by simp [ha]), h]
    rw [hcount, count_eraseP_eq_iff (p := fun b : Key => b.1 == j.id) (x := j.key)
      (beq_self_eq_true j.id)]
    exact ⟨fun hfirst _ => hfirst, fun hfirst => hfirst hj⟩
  · have hsame : removeEdge tg i j = tg := by
      rcases removeEdge_cases tg i j with ⟨_, -, hmem, -⟩ | ⟨-, hsame⟩
      · exact absurd hmem hj
      · exact hsame
    have hnot : (i.key, j.key) ∉ E := fun hmem =>
      hj (hwf.mem_keys_of_mem_out (h.mem_out_iff.mpr hmem))
    rw [hsame, Multiset.erase_of_notMem hnot]
    exact ⟨fun _ hmem => absurd hmem hj, fun _ => h⟩

/-! ## The calls -/

/-- A call leaves the edges that it is meant to leave exactly if a removal finds its edge first. -/
theorem Shown.next_iff {s s' : TaskGraph × Multiset (Key × Key)} {op : GraphOp} (h : Shown s)
    (hnext : GraphOp.next s op = some s') : Shown s' ↔ Clear s op := by
  obtain ⟨mid, hop, rfl⟩ := Option.map_eq_some_iff.mp hnext
  have hwf : mid.WF := h.wf.apply hop
  cases op with
  | addVertex type =>
      refine iff_of_true ⟨hwf, fun a b => ?_⟩ trivial
      rw [h.wf.addVertex_out hop]
      exact h.shows a b
  | addEdge from' to' =>
      exact iff_of_true ⟨hwf, h.shows.addEdge (h.wf.addEdge_out hop)⟩ trivial
  | removeEdge from' to' =>
      cases hop
      have hexact := h.shows.removeEdge_exact_iff (i := from') (j := to') h.wf
      exact ⟨fun hshown => hexact.mp hshown.shows, fun hclear => ⟨hwf, hexact.mpr hclear⟩⟩

/-- **Edge queries.** The chains are throughout the edges that have been put in and not taken out
exactly if every removal finds its edge first. The next query is then right exactly where nothing
else answers for its edge, and the next removal exactly where it finds its edge first. -/
theorem edges_exact {ops : List GraphOp} (h : build ops = some tg) :
    (Throughout GraphOp.next Shown (.start, 0) ops ↔ Admits GraphOp.next Clear (.start, 0) ops) ∧
      (Admits GraphOp.next Clear (.start, 0) ops → ∀ i j,
        ((verifyEdge tg i j ↔ (i.key, j.key) ∈ edges ops) ↔ tg.Verifiable i j) ∧
        ((removeEdge tg i j).Shows ((edges ops).erase (i.key, j.key)) ↔ tg.Removable i j)) := by
  have hexec : exec GraphOp.next (.start, 0) ops = some (tg, edges ops) := by
    rw [build, foldlM_eq_exec] at h
    rw [GraphOp.next, exec_withHistory, h]
    rfl
  have hstart : Shown (.start, 0) := ⟨.start, .start⟩
  have hiff := throughout_iff_admits (fun _ _ _ => Shown.next_iff) hstart hexec
  refine ⟨hiff, fun hclear i j => ?_⟩
  have hshown : Shown (tg, edges ops) := (hiff.mpr hclear).final hexec
  exact ⟨hshown.shows.verifyEdge_exact_iff hshown.wf, hshown.shows.removeEdge_exact_iff hshown.wf⟩

end Edges

/-- The wait of the thread 1 for the thread 2 is put in and taken out. -/
def waitOnce : List GraphOp :=
  [.addEdge (.process 1) (.process 2), .removeEdge (.process 1) (.process 2)]

theorem edges_exact_waitOnce :
    ∃ tg, build waitOnce = some tg ∧ Throughout GraphOp.next Shown (.start, 0) waitOnce ∧
      ¬ verifyEdge tg (.process 1) (.process 2) := by
  obtain ⟨tg, hbuild, hout⟩ : ∃ tg, build waitOnce = some tg ∧
      tg.out (SourceType.process 1).key = [] := ⟨_, rfl, by decide⟩
  have hclear : Admits GraphOp.next Clear (.start, 0) waitOnce := by decide
  have hedges : edges waitOnce = 0 := by decide
  obtain ⟨hthroughout, hqueries⟩ := edges_exact hbuild
  refine ⟨tg, hbuild, hthroughout.mpr hclear, fun hverify => ?_⟩
  have hverifiable : tg.Verifiable (.process 1) (.process 2) :=
    ⟨fun _ hid => absurd hid (by decide), by simp [hout]⟩
  have hmem := ((hqueries hclear _ _).1.mpr hverifiable).mp hverify
  simp [hedges] at hmem

/-- The process 1 waits for the process 2 and for a resource with the same id. -/
def mixedWaits : List GraphOp :=
  [.addEdge (.process 1) ⟨2, .RESOURCE, 0, 0⟩, .addEdge (.process 1) (.process 2)]

/-- The process does not wait for itself, but `verify_edge` says so. The removal of its wait for
the process 2 takes out its wait for the resource. -/
theorem queries_mixedWaits :
    ∃ tg, build mixedWaits = some tg ∧
      verifyEdge tg (.process 1) (.process 1) = true ∧
      ((SourceType.process 1).key, (SourceType.process 1).key) ∉ edges mixedWaits ∧
      (removeEdge tg (.process 1) (.process 2)).out (SourceType.process 1).key =
        [(SourceType.process 2).key] := by
  exact ⟨_, rfl, by decide, by decide, by decide⟩

end ServerKit.Deadlock
