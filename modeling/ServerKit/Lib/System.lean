import Mathlib.Tactic.Common

/-! # Transition systems

A system is a partial step function on states, with an action as its argument. A
guard restricts the runs under consideration to steps that meet it. -/

namespace ServerKit.System

variable {σ ι : Type*}

/-- The guard met by every step. -/
def anyStep : σ → ι → Prop := fun _ _ => True

/-- The states of the runs from `start` all of whose steps meet `guard`. -/
inductive Reachable (next : σ → ι → Option σ) (start : σ → Prop) (guard : σ → ι → Prop) :
    σ → Prop where
  | start {s : σ} (h : start s) : Reachable next start guard s
  | step {s s' : σ} {i : ι} (h : Reachable next start guard s) (hguard : guard s i)
      (hnext : next s i = some s') : Reachable next start guard s'

variable {next : σ → ι → Option σ} {start : σ → Prop} {guard : σ → ι → Prop}

/-- What holds at the start and is preserved by every admitted step holds throughout. -/
theorem Reachable.invariant {P : σ → Prop} (hstart : ∀ s, start s → P s)
    (hstep : ∀ s s' i, P s → guard s i → next s i = some s' → P s') {s : σ}
    (h : Reachable next start guard s) : P s := by
  induction h with
  | start h => exact hstart _ h
  | step _ hguard hnext ih => exact hstep _ _ _ ih hguard hnext

/-- The state after a sequence of actions. -/
def exec (next : σ → ι → Option σ) : σ → List ι → Option σ
  | s, [] => some s
  | s, i :: is => (next s i).bind fun s' => exec next s' is

/-- Every action of the sequence meets the guard where it is taken. -/
def Admits (next : σ → ι → Option σ) (guard : σ → ι → Prop) : σ → List ι → Prop
  | _, [] => True
  | s, i :: is => guard s i ∧ ∀ s', next s i = some s' → Admits next guard s' is

instance decidableAdmits (next : σ → ι → Option σ) (guard : σ → ι → Prop)
    [∀ s i, Decidable (guard s i)] : ∀ s is, Decidable (Admits next guard s is)
  | _, [] => .isTrue trivial
  | s, i :: is =>
    match h : next s i with
    | none => decidable_of_iff (guard s i) (by simp [Admits, h])
    | some s' =>
      have := decidableAdmits next guard s' is
      decidable_of_iff (guard s i ∧ Admits next guard s' is) (by simp [Admits, h])

/-- A guard on the actions alone. -/
theorem admits_of_forall {is : List ι} (h : ∀ i ∈ is, ∀ s, guard s i) (s : σ) :
    Admits next guard s is := by
  induction is generalizing s with
  | nil => trivial
  | cons i is ih =>
      refine ⟨h i List.mem_cons_self s, fun s' _ => ?_⟩
      exact ih (fun j hj => h j (List.mem_cons_of_mem i hj)) s'

theorem admits_anyStep (s : σ) (is : List ι) : Admits next anyStep s is :=
  admits_of_forall (fun _ _ _ => trivial) s

theorem admits_append {s : σ} {is js : List ι} (his : Admits next guard s is)
    (hjs : ∀ s', exec next s is = some s' → Admits next guard s' js) :
    Admits next guard s (is ++ js) := by
  induction is generalizing s with
  | nil => exact hjs s rfl
  | cons i is ih =>
      refine ⟨his.1, ?_⟩
      intro s' hnext
      apply ih (his.2 s' hnext)
      intro t ht
      apply hjs
      rw [exec, hnext]
      exact ht

theorem exec_append (s : σ) (is js : List ι) :
    exec next s (is ++ js) = (exec next s is).bind fun mid => exec next mid js := by
  induction is generalizing s with
  | nil => rfl
  | cons i is ih =>
      cases hs : next s i with
      | none => simp [exec, hs]
      | some mid => simp [exec, hs, ih]

/-- The two parts of an admitted sequence. -/
theorem Admits.append {s : σ} {is js : List ι} (h : Admits next guard s (is ++ js)) :
    Admits next guard s is ∧ ∀ mid, exec next s is = some mid → Admits next guard mid js := by
  induction is generalizing s with
  | nil =>
      refine ⟨trivial, ?_⟩
      rintro mid ⟨⟩
      exact h
  | cons i is ih =>
      refine ⟨⟨h.1, fun s' hs' => (ih (h.2 s' hs')).1⟩, ?_⟩
      intro mid hmid
      obtain ⟨s', hs', hrest⟩ := Option.bind_eq_some_iff.mp hmid
      exact (ih (h.2 s' hs')).2 mid hrest

theorem Admits.and {guard' : σ → ι → Prop} {s : σ} {is : List ι} (h : Admits next guard s is)
    (h' : Admits next guard' s is) : Admits next (fun s i => guard s i ∧ guard' s i) s is := by
  induction is generalizing s with
  | nil => trivial
  | cons i is ih => exact ⟨⟨h.1, h'.1⟩, fun s' hs' => ih (h.2 s' hs') (h'.2 s' hs')⟩

theorem Admits.mono {guard' : σ → ι → Prop} (hle : ∀ s i, guard s i → guard' s i) {s : σ}
    {is : List ι} (h : Admits next guard s is) : Admits next guard' s is := by
  induction is generalizing s with
  | nil => trivial
  | cons i is ih => exact ⟨hle s i h.1, fun s' hs' => ih (h.2 s' hs')⟩

theorem reachable_of_exec {s s' : σ} (hstart : start s) {is : List ι}
    (hguard : Admits next guard s is) (h : exec next s is = some s') :
    Reachable next start guard s' := by
  suffices ∀ s, Reachable next start guard s → Admits next guard s is →
      exec next s is = some s' → Reachable next start guard s' from
    this s (.start hstart) hguard h
  clear h hguard
  induction is with
  | nil =>
      intro s hs _ h
      cases h
      exact hs
  | cons i is ih =>
      intro s hs hguard h
      obtain ⟨mid, hmid, hrest⟩ := Option.bind_eq_some_iff.mp h
      exact ih mid (.step hs hguard.1 hmid) (hguard.2 mid hmid) hrest

/-- The steps, with a record of the actions that have been taken. -/
def withHistory {η : Type*} (next : σ → ι → Option σ) (record : η → ι → η) (s : σ × η) (i : ι) :
    Option (σ × η) :=
  (next s.1 i).map fun s' => (s', record s.2 i)

theorem exec_withHistory {η : Type*} (record : η → ι → η) (s : σ × η) (is : List ι) :
    exec (withHistory next record) s is =
      (exec next s.1 is).map fun t => (t, is.foldl record s.2) := by
  induction is generalizing s with
  | nil => rfl
  | cons i is ih =>
      rw [exec, exec, withHistory]
      cases next s.1 i with
      | none => rfl
      | some mid => exact ih (mid, record s.2 i)

/-- `P` holds of every state of the run. -/
def Throughout (next : σ → ι → Option σ) (P : σ → Prop) : σ → List ι → Prop
  | s, [] => P s
  | s, i :: is => P s ∧ ∀ s', next s i = some s' → Throughout next P s' is

theorem Throughout.final {P : σ → Prop} {s t : σ} {is : List ι} (h : Throughout next P s is)
    (hexec : exec next s is = some t) : P t := by
  induction is generalizing s with
  | nil =>
      cases hexec
      exact h
  | cons i is ih =>
      obtain ⟨mid, hmid, hrest⟩ := Option.bind_eq_some_iff.mp hexec
      exact ih (h.2 mid hmid) hrest

theorem Throughout.head {P : σ → Prop} {s : σ} {is : List ι} (h : Throughout next P s is) :
    P s := by
  cases is with
  | nil => exact h
  | cons i is => exact h.1

theorem Throughout.mono {P Q : σ → Prop} (hle : ∀ s, P s → Q s) {s : σ} {is : List ι}
    (h : Throughout next P s is) : Throughout next Q s is := by
  induction is generalizing s with
  | nil => exact hle s h
  | cons i is ih => exact ⟨hle s h.1, fun s' hs' => ih (h.2 s' hs')⟩

/-- What every step preserves holds throughout, too. -/
theorem Throughout.and_invariant {I P : σ → Prop}
    (hstep : ∀ s i s', I s → next s i = some s' → I s') {s : σ} (hI : I s) {is : List ι}
    (h : Throughout next P s is) : Throughout next (fun s => I s ∧ P s) s is := by
  induction is generalizing s with
  | nil => exact ⟨hI, h⟩
  | cons i is ih => exact ⟨⟨hI, h.1⟩, fun s' hs' => ih (hstep s i s' hI hs') (h.2 s' hs')⟩

/-- If a step keeps `P` exactly when it meets the guard, then `P` holds throughout exactly the
runs all of whose steps do. -/
theorem throughout_iff_admits {P : σ → Prop}
    (hstep : ∀ s i s', P s → next s i = some s' → (P s' ↔ guard s i)) {s t : σ} (h : P s)
    {is : List ι} (hexec : exec next s is = some t) :
    Throughout next P s is ↔ Admits next guard s is := by
  induction is generalizing s with
  | nil => exact iff_of_true h trivial
  | cons i is ih =>
      rcases Option.bind_eq_some_iff.mp hexec with ⟨mid, hmid, hrest⟩
      constructor
      · intro hthrough
        have hmidP : P mid := (hthrough.2 mid hmid).head
        refine ⟨(hstep s i mid h hmid).mp hmidP, ?_⟩
        intro s' hs'
        rw [hmid] at hs'
        cases hs'
        exact (ih hmidP hrest).mp (hthrough.2 mid hmid)
      · intro hadmits
        have hmidP : P mid := (hstep s i mid h hmid).mpr hadmits.1
        refine ⟨h, ?_⟩
        intro s' hs'
        rw [hmid] at hs'
        cases hs'
        exact (ih hmidP hrest).mpr (hadmits.2 mid hmid)

/-- The same for a property that holds only along with an invariant. -/
theorem throughout_iff_admits_of_invariant {I P : σ → Prop}
    (hinv : ∀ s i s', I s → next s i = some s' → I s')
    (hstep : ∀ s i s', I s → P s → next s i = some s' → (P s' ↔ guard s i)) {s t : σ} (hI : I s)
    (hP : P s) {is : List ι} (hexec : exec next s is = some t) :
    Throughout next P s is ↔ Admits next guard s is := by
  have hboth : ∀ s i s', I s ∧ P s → next s i = some s' → (I s' ∧ P s' ↔ guard s i) := by
    intro s i s' hs hs'
    rw [and_iff_right (hinv s i s' hs.1 hs')]
    exact hstep s i s' hs.1 hs.2 hs'
  rw [← throughout_iff_admits hboth ⟨hI, hP⟩ hexec]
  constructor
  · intro h
    exact h.and_invariant hinv hI
  · intro h
    exact h.mono fun _ hs => hs.2

/-! ## Loops -/

/-- A loop over the actions is a run. -/
theorem foldlM_eq_exec (is : List ι) (s : σ) : is.foldlM next s = exec next s is := by
  induction is generalizing s with
  | nil => rfl
  | cons i is ih =>
      rw [List.foldlM_cons, exec]
      cases next s i with
      | none => rfl
      | some mid => exact ih mid

/-- What holds at the beginning of a loop and is kept by every pass holds at its end. -/
theorem foldlM_invariant {P : σ → Prop} (hstep : ∀ s i s', P s → next s i = some s' → P s')
    {s t : σ} (h : P s) {is : List ι} (hloop : is.foldlM next s = some t) : P t := by
  rw [foldlM_eq_exec] at hloop
  have hreach : Reachable next P anyStep t := reachable_of_exec h (admits_anyStep s is) hloop
  exact hreach.invariant (fun _ hs => hs) fun s s' i hs _ hnext => hstep s i s' hs hnext

/-- A loop whose passes have results in fewer cases. -/
theorem foldlM_mono {f g : σ → ι → Option σ} (hstep : ∀ s i s', f s i = some s' → g s i = some s')
    {s t : σ} {is : List ι} (hloop : is.foldlM f s = some t) : is.foldlM g s = some t := by
  induction is generalizing s with
  | nil => exact hloop
  | cons i is ih =>
      rw [List.foldlM_cons] at hloop ⊢
      obtain ⟨mid, hmid, hrest⟩ := Option.bind_eq_some_iff.mp hloop
      exact Option.bind_eq_some_iff.mpr ⟨mid, hstep s i mid hmid, ih hrest⟩

/-- A loop with a second value at its side. -/
theorem foldlM_map_fst {η : Type*} {f : σ → ι → Option σ} {g : σ × η → ι → Option (σ × η)}
    (h : ∀ s i, (g s i).map Prod.fst = f s.1 i) (s : σ × η) (is : List ι) :
    (is.foldlM g s).map Prod.fst = is.foldlM f s.1 := by
  induction is generalizing s with
  | nil => rfl
  | cons i is ih =>
      rw [List.foldlM_cons, List.foldlM_cons, ← h]
      cases hstep : g s i with
      | none => rfl
      | some mid => exact ih mid

end ServerKit.System
