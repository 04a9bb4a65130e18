import ServerKit.Deadlock.OwnerTable
import ServerKit.Lib.Keyed

/-! # The removal of an edge undoes its insertion

The guarded calls of the hooks edit one chain by the id of a thread, like the edits of a family of
lists with keys. A removal hence leaves the chains as they are without the insertion, whatever
edits of other edges lie between the two. -/

namespace ServerKit.Deadlock

open ServerKit.Keyed

/-- A guarded call of the hooks. -/
inductive EdgeCall where
  | insert (from' to' : SourceType)
  | drop (from' to' : SourceType)

def EdgeCall.apply (tg : TaskGraph) : EdgeCall → Option TaskGraph
  | .insert from' to' => insertEdge tg from' to'
  | .drop from' to' => some (dropEdge tg from' to')

def EdgeCall.source : EdgeCall → SourceType
  | .insert from' _ => from'
  | .drop from' _ => from'

def EdgeCall.target : EdgeCall → SourceType
  | .insert _ to' => to'
  | .drop _ to' => to'

/-- Both ends are threads, and they have different ids. -/
structure Apart (i j : SourceType) : Prop where
  source : i.type = .PROCESS
  target : j.type = .PROCESS
  ids : i.id ≠ j.id

/-- The call is about an edge other than the one from `i` to `j`. -/
structure EdgeCall.Other (call : EdgeCall) (i j : SourceType) : Prop where
  apart : Apart call.source call.target
  other : call.source.id ≠ i.id ∨ call.target.id ≠ j.id

/-- All vertices are threads, and no chain holds an id twice. -/
structure TaskGraph.Simple (tg : TaskGraph) : Prop extends tg.Threads where
  ids : ∀ a, ((tg.chain a).map (·.id)).Nodup

/-- No thread is chained to itself. -/
def TaskGraph.Loopless (tg : TaskGraph) : Prop := ∀ a, a.1 ∉ (tg.chain a).map (·.id)

/-- The vertices that there are after a call. -/
def EdgeCall.ends : EdgeCall → List Key
  | .insert from' to' => [from'.key, to'.key]
  | .drop _ _ => []

/-- The edit of the chains. -/
def EdgeCall.edit : EdgeCall → Edit Key SourceType UInt64
  | .insert from' to' => .put from'.key to'
  | .drop from' to' => .take from'.key to'.id

theorem EdgeCall.Other.edit_apart {call : EdgeCall} {i j : SourceType} (h : call.Other i j) :
    call.edit.Apart (·.id) i.key j.id := by
  have hother : call.source.key = i.key → call.target.id ≠ j.id := fun hkey =>
    h.other.resolve_left (not_not.mpr (congrArg Prod.fst hkey))
  cases call <;> exact hother

section Calls

variable {tg tg' : TaskGraph} {i j : SourceType} {a : Key}

/-- Between different threads, `verify_edge` tells the ids of a chain. -/
theorem TaskGraph.WF.verifyEdge_iff_chain (hwf : tg.WF) (h : Apart i j) :
    verifyEdge tg i j ↔ j.id ∈ (tg.chain i.key).map (·.id) := by
  rw [hwf.verifyEdge_iff, TaskGraph.out_eq_map]
  simp only [h.ids, false_or, List.mem_map, exists_exists_and_eq_and]
  constructor
  · rintro ⟨-, s, hs, hid⟩
    exact ⟨s, hs, hid⟩
  · rintro ⟨s, hs, hid⟩
    refine ⟨?_, s, hs, hid⟩
    by_contra hnot
    rw [chain_of_not_mem hnot] at hs
    cases hs

/-- A chained thread is known by its id. -/
theorem TaskGraph.Threads.mem_out_iff_chain (h : tg.Threads) (hj : j.type = .PROCESS) :
    j.key ∈ tg.out a ↔ j.id ∈ (tg.chain a).map (·.id) := by
  rw [TaskGraph.out_eq_map, List.mem_map, List.mem_map]
  constructor
  · rintro ⟨s, hs, hkey⟩
    exact ⟨s, hs, congrArg Prod.fst hkey⟩
  · rintro ⟨s, hs, hid⟩
    have hmem : s.key ∈ tg.keys := by
      apply h.mem_keys_of_mem_out (a := a)
      rw [TaskGraph.out_eq_map]
      exact List.mem_map_of_mem hs
    exact ⟨s, hs, Prod.ext hid ((h.process _ hmem).trans hj.symm)⟩

theorem insertEdge_cases (hrun : insertEdge tg i j = some tg') :
    ∃ tg₁ tg₂, addVertex tg i = some tg₁ ∧ addVertex tg₁ j = some tg₂ ∧
      (verifyEdge tg₂ i j = true ∧ tg' = tg₂ ∨
        verifyEdge tg₂ i j = false ∧ addEdge tg₂ i j = some tg') := by
  obtain ⟨tg₁, hadd₁, hrun⟩ := Option.bind_eq_some_iff.mp hrun
  obtain ⟨tg₂, hadd₂, hrun⟩ := Option.bind_eq_some_iff.mp hrun
  refine ⟨tg₁, tg₂, hadd₁, hadd₂, ?_⟩
  cases hverify : verifyEdge tg₂ i j with
  | true =>
      rw [if_pos hverify] at hrun
      exact .inl ⟨rfl, (Option.some.inj hrun).symm⟩
  | false =>
      rw [if_neg (by simp [hverify])] at hrun
      exact .inr ⟨rfl, hrun⟩

theorem mem_insertEdge_keys (hrun : insertEdge tg i j = some tg') :
    a ∈ tg'.keys ↔ a ∈ tg.keys ∨ a = i.key ∨ a = j.key := by
  obtain ⟨tg₁, tg₂, hadd₁, hadd₂, hrest⟩ := insertEdge_cases hrun
  have hkeys : a ∈ tg₂.keys ↔ a ∈ tg.keys ∨ a = i.key ∨ a = j.key := by
    rw [mem_addVertex_keys hadd₂, mem_addVertex_keys hadd₁, or_assoc]
  rcases hrest with ⟨-, rfl⟩ | ⟨-, hadd⟩
  · exact hkeys
  · rw [mem_addEdge_keys hadd, hkeys]
    tauto

theorem TaskGraph.WF.insertEdge_chain (hwf : tg.WF) (h : Apart i j)
    (hrun : insertEdge tg i j = some tg') :
    tg'.WF ∧ tg'.chain = change tg.chain i.key (putNew (·.id) j) := by
  obtain ⟨tg₁, tg₂, hadd₁, hadd₂, hrest⟩ := insertEdge_cases hrun
  have hwf₁ := hwf.addVertex hadd₁
  have hwf₂ := hwf₁.addVertex hadd₂
  have hchain : tg₂.chain = tg.chain := by
    rw [hwf₁.addVertex_chain hadd₂, hwf.addVertex_chain hadd₁]
  rw [change, putNew, ← hchain]
  rcases hrest with ⟨hverify, rfl⟩ | ⟨hverify, hadd⟩
  · rw [if_pos ((hwf₂.verifyEdge_iff_chain h).mp hverify), Function.update_eq_self]
    exact ⟨hwf₂, rfl⟩
  · have hnot : j.id ∉ (tg₂.chain i.key).map (·.id) := by
      rw [← hwf₂.verifyEdge_iff_chain h, hverify]
      exact Bool.false_ne_true
    rw [if_neg hnot]
    exact ⟨hwf₂.addEdge hadd, hwf₂.addEdge_chain hadd⟩

theorem dropEdge_keys (tg : TaskGraph) (i j : SourceType) : (dropEdge tg i j).keys = tg.keys := by
  rw [dropEdge]
  split
  · exact removeEdge_keys tg i j
  · rfl

theorem TaskGraph.WF.dropEdge (hwf : tg.WF) (i j : SourceType) : (dropEdge tg i j).WF := by
  rw [Deadlock.dropEdge]
  split
  · exact hwf.removeEdge i j
  · exact hwf

theorem TaskGraph.Threads.dropEdge_chain (hthreads : tg.Threads) (h : Apart i j) :
    (dropEdge tg i j).WF ∧
      (dropEdge tg i j).chain = change tg.chain i.key (takeOut (·.id) j.id) := by
  rw [dropEdge, change]
  split
  · rename_i hverify
    have hj : j.key ∈ tg.keys := hthreads.mem_keys_of_mem_out
      ((hthreads.mem_out_iff_chain h.target).mpr ((hthreads.verifyEdge_iff_chain h).mp hverify))
    exact ⟨hthreads.removeEdge i j, hthreads.removeEdge_chain i j hj⟩
  · rename_i hverify
    refine ⟨hthreads.toWF, ?_⟩
    rw [takeOut_of_not_mem (mt (hthreads.verifyEdge_iff_chain h).mpr hverify),
      Function.update_eq_self]

theorem mem_apply_keys {call : EdgeCall} (hrun : call.apply tg = some tg') :
    a ∈ tg'.keys ↔ a ∈ tg.keys ∨ a ∈ call.ends := by
  cases call with
  | insert i j => simpa [EdgeCall.ends] using mem_insertEdge_keys hrun
  | drop i j =>
      cases hrun
      simp [EdgeCall.ends, dropEdge_keys]

/-- A guarded call is the edit of the chains. -/
theorem TaskGraph.Simple.apply (h : tg.Simple) {call : EdgeCall}
    (hcall : Apart call.source call.target) (hrun : call.apply tg = some tg') :
    tg'.Simple ∧ tg'.chain = call.edit.apply (·.id) tg.chain := by
  have hedit : tg'.WF ∧ tg'.chain = call.edit.apply (·.id) tg.chain := by
    cases call with
    | insert i j => exact h.insertEdge_chain hcall hrun
    | drop i j =>
        cases hrun
        exact h.dropEdge_chain hcall
  obtain ⟨hwf, hchain⟩ := hedit
  refine ⟨⟨⟨hwf, fun a ha => ?_⟩, fun a => ?_⟩, hchain⟩
  · rcases (mem_apply_keys hrun).mp ha with ha | ha
    · exact h.process a ha
    · cases call with
      | insert i j =>
          rcases List.mem_pair.mp ha with rfl | rfl
          · exact hcall.source
          · exact hcall.target
      | drop i j => cases ha
  · rw [hchain]
    exact call.edit.nodup_apply h.ids a

theorem TaskGraph.Loopless.apply (h : tg.Loopless) {call : EdgeCall}
    (hcall : Apart call.source call.target)
    (hchain : tg'.chain = call.edit.apply (·.id) tg.chain) : tg'.Loopless := by
  intro a ha
  rw [hchain] at ha
  rcases call.edit.mem_map_apply ha with ha | ⟨s, hedit, hid⟩
  · exact h a ha
  · cases call with
    | insert i j =>
        cases hedit
        exact hcall.ids hid.symm
    | drop i j => cases hedit

/-! ## Runs -/

variable {calls : List EdgeCall}

theorem mem_calls_keys (hrun : calls.foldlM EdgeCall.apply tg = some tg') :
    a ∈ tg'.keys ↔ a ∈ tg.keys ∨ ∃ call ∈ calls, a ∈ call.ends := by
  induction calls generalizing tg with
  | nil =>
      cases hrun
      simp
  | cons call calls ih =>
      rw [List.foldlM_cons] at hrun
      obtain ⟨mid, hcall, hrun⟩ := Option.bind_eq_some_iff.mp hrun
      rw [ih hrun, mem_apply_keys hcall, or_assoc]
      simp

theorem TaskGraph.Simple.foldlM (h : tg.Simple)
    (hcalls : ∀ call ∈ calls, Apart call.source call.target)
    (hrun : calls.foldlM EdgeCall.apply tg = some tg') :
    tg'.Simple ∧ (tg.Loopless → tg'.Loopless) ∧
      tg'.chain = (calls.map EdgeCall.edit).foldl (Edit.apply (·.id)) tg.chain := by
  induction calls generalizing tg with
  | nil =>
      cases hrun
      exact ⟨h, id, rfl⟩
  | cons call calls ih =>
      obtain ⟨hcall, hcalls⟩ := List.forall_mem_cons.mp hcalls
      rw [List.foldlM_cons] at hrun
      obtain ⟨mid, hstep, hrun⟩ := Option.bind_eq_some_iff.mp hrun
      obtain ⟨hmid, hchain⟩ := h.apply hcall hstep
      obtain ⟨h', hloopless, hchain'⟩ := ih hmid hcalls hrun
      refine ⟨h', fun hl => hloopless (hl.apply hcall hchain), ?_⟩
      rw [hchain', hchain]
      rfl

/-- Calls whose vertices are among a few find room. -/
theorem exists_calls {keys : List Key} (hwf : tg.WF) (hsub : tg.keys ⊆ keys)
    (hroom : keys.length ≤ MAX) (hends : ∀ call ∈ calls, call.ends ⊆ keys) :
    ∃ tg', calls.foldlM EdgeCall.apply tg = some tg' := by
  induction calls generalizing tg with
  | nil => exact ⟨tg, rfl⟩
  | cons call calls ih =>
      obtain ⟨hcall, hcalls⟩ := List.forall_mem_cons.mp hends
      have hstep : ∃ mid, call.apply tg = some mid ∧ mid.WF ∧ mid.keys ⊆ keys := by
        cases call with
        | insert i j =>
            exact exists_insertEdge hwf hsub hroom (hcall List.mem_cons_self)
              (hcall (List.mem_cons_of_mem _ List.mem_cons_self))
        | drop i j =>
            exact ⟨_, rfl, hwf.dropEdge i j, by rwa [dropEdge_keys]⟩
      obtain ⟨mid, hmid, hwf', hsub'⟩ := hstep
      obtain ⟨tg', hrest⟩ := ih hwf' hsub' hcalls
      exact ⟨tg', by rw [List.foldlM_cons, hmid]; exact hrest⟩

/-- **Undoing.** Whatever guarded calls for other edges lie between the guarded insertion of an
edge and its guarded removal, the chains are then those of these calls alone. The removal takes out
the edge and no other, and no chain comes to hold an id twice. -/
theorem dropEdge_undoes {mid : TaskGraph} (h : tg.Simple) (hij : Apart i j)
    (hnew : j.key ∉ tg.out i.key) (hcalls : ∀ call ∈ calls, call.Other i j)
    (hrun : (EdgeCall.insert i j :: calls).foldlM EdgeCall.apply tg = some mid) :
    (∃ alone, calls.foldlM EdgeCall.apply tg = some alone ∧
        (dropEdge mid i j).chain = alone.chain) ∧
      (∃ front back, mid.chain i.key = front ++ j :: back ∧
        (dropEdge mid i j).chain = Function.update mid.chain i.key (front ++ back)) ∧
      mid.Simple ∧ (dropEdge mid i j).Simple ∧
      (tg.Loopless → mid.Loopless ∧ (dropEdge mid i j).Loopless) := by
  have happart : ∀ call ∈ EdgeCall.insert i j :: calls, Apart call.source call.target :=
    List.forall_mem_cons.mpr ⟨hij, fun call hcall => (hcalls call hcall).apart⟩
  have hedits : ∀ e ∈ calls.map EdgeCall.edit, e.Apart (·.id) i.key j.id :=
    List.forall_mem_map.mpr fun call hcall => (hcalls call hcall).edit_apart
  rw [h.mem_out_iff_chain hij.target] at hnew
  obtain ⟨hmid, hloopless, hchain⟩ := h.foldlM happart hrun
  have hdrop : Apart (EdgeCall.drop i j).source (EdgeCall.drop i j).target := hij
  obtain ⟨hdropped, hundone⟩ := hmid.apply hdrop rfl
  refine ⟨?_, ?_, hmid, hdropped,
    fun hl => ⟨hloopless hl, (hloopless hl).apply hdrop hundone⟩⟩
  · obtain ⟨alone, halone⟩ : ∃ alone, calls.foldlM EdgeCall.apply tg = some alone := by
      have hroom : mid.keys.length ≤ MAX := by
        rw [← TaskGraph.num_eq]
        exact hmid.small
      refine exists_calls h.toWF (fun a ha => (mem_calls_keys hrun).mpr (.inl ha)) hroom ?_
      intro call hcall a ha
      exact (mem_calls_keys hrun).mpr (.inr ⟨call, List.mem_cons_of_mem _ hcall, ha⟩)
    refine ⟨alone, halone, ?_⟩
    obtain ⟨-, -, hchain'⟩ := h.foldlM (fun call hcall => (hcalls call hcall).apart) halone
    rw [hundone, hchain, hchain']
    exact take_foldl_put hnew hedits
  · have hinserted : j ∈ Edit.apply (·.id) tg.chain (.put i.key j) i.key := by
      simp [Edit.apply, change, putNew, hnew]
    have hkept := mem_foldl hinserted hedits
    have hmem : j ∈ mid.chain i.key := by
      rw [hchain]
      exact hkept
    obtain ⟨front, back, hsplit, htake⟩ := exists_takeOut_eq (hmid.ids i.key) hmem
    refine ⟨front, back, hsplit, ?_⟩
    rw [hundone, ← htake]
    rfl

end Calls

/-- While the thread 1 waits for the thread 2, it begins and ends a wait for 3, and 3 waits for
2. -/
def otherCalls : List EdgeCall :=
  [.insert (.process 1) (.process 3), .insert (.process 3) (.process 2),
    .drop (.process 1) (.process 3)]

theorem dropEdge_undoes_otherCalls :
    ∃ mid alone, (EdgeCall.insert (.process 1) (.process 2) :: otherCalls).foldlM EdgeCall.apply
        .start = some mid ∧
      otherCalls.foldlM EdgeCall.apply .start = some alone ∧
      (dropEdge mid (.process 1) (.process 2)).chain = alone.chain := by
  obtain ⟨mid, hrun⟩ : ∃ mid, (EdgeCall.insert (.process 1) (.process 2) :: otherCalls).foldlM
      EdgeCall.apply .start = some mid := ⟨_, rfl⟩
  have hstart : TaskGraph.start.Simple := ⟨.start, fun a => List.nodup_nil⟩
  have hcalls : ∀ call ∈ otherCalls, call.Other (.process 1) (.process 2) := by
    intro call hcall
    simp only [otherCalls, List.mem_cons, List.not_mem_nil, or_false] at hcall
    rcases hcall with rfl | rfl | rfl <;> exact ⟨⟨rfl, rfl, by decide⟩, by decide⟩
  obtain ⟨⟨alone, halone, hchain⟩, -⟩ :=
    dropEdge_undoes hstart ⟨rfl, rfl, by decide⟩ List.not_mem_nil hcalls hrun
  exact ⟨mid, alone, hrun, halone, hchain⟩

end ServerKit.Deadlock
