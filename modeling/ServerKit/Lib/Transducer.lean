import Mathlib.Tactic.Common

/-! # Runs of operations

A transducer answers each operation with a reply. A partial transducer may also
fail, which ends the run without a result. Simulation against a total
transducer transfers from one operation to whole runs. -/

namespace ServerKit.Transducer

variable {σ τ ι ω : Type*}

/-- The final state and the replies of a run. -/
def run (step : σ → ι → Option (σ × ω)) : σ → List ι → Option (σ × List ω)
  | s, [] => some (s, [])
  | s, i :: is =>
    (step s i).bind fun next => (run step next.1 is).map fun rest => (rest.1, next.2 :: rest.2)

/-- The final state and the replies of a run that cannot fail. -/
def runTotal (step : τ → ι → τ × ω) : τ → List ι → τ × List ω
  | t, [] => (t, [])
  | t, i :: is =>
    let rest := runTotal step (step t i).1 is
    (rest.1, (step t i).2 :: rest.2)

/-- Every step of the run is taken from a state, on an operation, that `guard` admits. -/
def Admits (guard : σ → ι → Prop) (step : σ → ι → Option (σ × ω)) : σ → List ι → Prop
  | _, [] => True
  | s, i :: is => guard s i ∧ ∀ next ∈ step s i, Admits guard step next.1 is

theorem admits_of_forall {guard : σ → ι → Prop} (step : σ → ι → Option (σ × ω))
    (h : ∀ s i, guard s i) (s : σ) (is : List ι) : Admits guard step s is := by
  induction is generalizing s with
  | nil => trivial
  | cons i is ih => exact ⟨h s i, fun next _ => ih next.1⟩

theorem admits_of_invariant {guard : σ → ι → Prop} {step : σ → ι → Option (σ × ω)} {P : σ → Prop}
    (hguard : ∀ s i, P s → guard s i) (hstep : ∀ s i, P s → ∀ next ∈ step s i, P next.1) {s : σ}
    (h : P s) (is : List ι) : Admits guard step s is := by
  induction is generalizing s with
  | nil => trivial
  | cons i is ih => exact ⟨hguard s i h, fun next hnext => ih (hstep s i h next hnext)⟩

instance decidableAdmits (guard : σ → ι → Prop) [∀ s i, Decidable (guard s i)]
    (step : σ → ι → Option (σ × ω)) : ∀ s is, Decidable (Admits guard step s is)
  | _, [] => .isTrue trivial
  | s, i :: is =>
    match h : step s i with
    | none => decidable_of_iff (guard s i) (by simp [Admits, h])
    | some next =>
      have := decidableAdmits guard step next.1 is
      decidable_of_iff (guard s i ∧ Admits guard step next.1 is) (by simp [Admits, h])

theorem admits_and {guard guard' : σ → ι → Prop} {step : σ → ι → Option (σ × ω)} {s : σ}
    {is : List ι} : Admits (fun s i => guard s i ∧ guard' s i) step s is ↔
      Admits guard step s is ∧ Admits guard' step s is := by
  induction is generalizing s with
  | nil => simp [Admits]
  | cons i is ih =>
      simp only [Admits, ih]
      constructor
      · intro h
        exact ⟨⟨h.1.1, fun next hnext => (h.2 next hnext).1⟩,
          h.1.2, fun next hnext => (h.2 next hnext).2⟩
      · intro h
        exact ⟨⟨h.1.1, h.2.1⟩, fun next hnext => ⟨h.1.2 next hnext, h.2.2 next hnext⟩⟩

/-- A relation that admitted steps preserve with equal replies relates whole runs. -/
theorem run_simulates {f : σ → ι → Option (σ × ω)} {g : τ → ι → τ × ω}
    (guard : σ → ι → Prop) (R : σ → τ → Prop)
    (hstep : ∀ s t i, R s t → guard s i → ∃ s', f s i = some (s', (g t i).2) ∧ R s' (g t i).1)
    {s : σ} {t : τ} (h : R s t) {is : List ι} (hadm : Admits guard f s is) :
    ∃ s', run f s is = some (s', (runTotal g t is).2) ∧ R s' (runTotal g t is).1 := by
  induction is generalizing s t with
  | nil => exact ⟨s, rfl, h⟩
  | cons i is ih =>
      obtain ⟨s₁, hs₁, hR₁⟩ := hstep s t i h hadm.1
      obtain ⟨s₂, hs₂, hR₂⟩ := ih hR₁ (hadm.2 _ hs₁)
      refine ⟨s₂, ?_, hR₂⟩
      simp [run, runTotal, hs₁, hs₂]

/-- If every step has a result from where the invariant holds, keeps the invariant and gives a
reply that suits the operation, then so does a run. -/
theorem run_invariant {step : σ → ι → Option (σ × ω)} {P : σ → Prop} {Q : ι → ω → Prop}
    (hstep : ∀ s i, P s → ∃ s' o, step s i = some (s', o) ∧ P s' ∧ Q i o) {s : σ} (h : P s)
    (is : List ι) :
    ∃ s' os, run step s is = some (s', os) ∧ P s' ∧ List.Forall₂ Q is os := by
  induction is generalizing s with
  | nil => exact ⟨s, [], rfl, h, .nil⟩
  | cons i is ih =>
      rcases hstep s i h with ⟨s₁, o, hs₁, hP₁, hQ⟩
      rcases ih hP₁ with ⟨s₂, os, hs₂, hP₂, hQs⟩
      exact ⟨s₂, o :: os, by simp [run, hs₁, hs₂], hP₂, .cons hQ hQs⟩

/-- Every step of the run has a result, and `Q` holds of the state before it, of the operation
and of the result. -/
def Every (Q : σ → ι → σ × ω → Prop) (step : σ → ι → Option (σ × ω)) : σ → List ι → Prop
  | _, [] => True
  | s, i :: is => ∃ next, step s i = some next ∧ Q s i next ∧ Every Q step next.1 is

/-- If one step is as it should be exactly when it is admitted, then so is a run. -/
theorem every_iff_admits {Q : σ → ι → σ × ω → Prop} {guard : σ → ι → Prop}
    {step : σ → ι → Option (σ × ω)} {P : σ → Prop}
    (hstep : ∀ s i, P s → guard s i → ∃ next, step s i = some next ∧ Q s i next ∧ P next.1)
    (hguard : ∀ s i next, P s → step s i = some next → Q s i next → guard s i)
    {s : σ} (h : P s) (is : List ι) : Every Q step s is ↔ Admits guard step s is := by
  induction is generalizing s with
  | nil => exact Iff.rfl
  | cons i is ih =>
      constructor
      · intro hevery
        rcases hevery with ⟨next, hnext, hQ, hrest⟩
        have hadm := hguard s i next h hnext hQ
        refine ⟨hadm, ?_⟩
        intro next' hnext'
        rcases hstep s i h hadm with ⟨next₁, hnext₁, -, hP⟩
        rw [Option.mem_def, hnext] at hnext'
        cases hnext'
        rw [hnext] at hnext₁
        cases hnext₁
        exact (ih hP).mp hrest
      · intro hadm
        rcases hstep s i h hadm.1 with ⟨next, hnext, hQ, hP⟩
        exact ⟨next, hnext, hQ, (ih hP).mpr (hadm.2 next hnext)⟩

/-- The rest of a run. -/
theorem Every.append {Q : σ → ι → σ × ω → Prop} {step : σ → ι → Option (σ × ω)} {s t : σ}
    {is js : List ι} {os : List ω} (h : Every Q step s (is ++ js))
    (hrun : run step s is = some (t, os)) : Every Q step t js := by
  induction is generalizing s os with
  | nil =>
      cases hrun
      exact h
  | cons i is ih =>
      obtain ⟨next, hnext, -, hrest⟩ := h
      rw [run, hnext, Option.bind_some] at hrun
      obtain ⟨⟨t', os'⟩, htail, heq⟩ := Option.map_eq_some_iff.mp hrun
      cases heq
      exact ih hrest htail

theorem run_append (step : σ → ι → Option (σ × ω)) (s : σ) (is js : List ι) :
    run step s (is ++ js) =
      (run step s is).bind fun mid =>
        (run step mid.1 js).map fun rest => (rest.1, mid.2 ++ rest.2) := by
  induction is generalizing s with
  | nil => simp [run]
  | cons i is ih =>
      cases hs : step s i with
      | none => simp [run, hs]
      | some next =>
          simp only [List.cons_append, run, hs, Option.bind_some, ih]
          cases run step next.1 is with
          | none => simp
          | some mid => cases hj : run step mid.1 js <;> simp [hj]

theorem runTotal_append (step : τ → ι → τ × ω) (t : τ) (is js : List ι) :
    runTotal step t (is ++ js) =
      ((runTotal step (runTotal step t is).1 js).1,
        (runTotal step t is).2 ++ (runTotal step (runTotal step t is).1 js).2) := by
  induction is generalizing t with
  | nil => simp [runTotal]
  | cons i is ih => simp [runTotal, ih]

end ServerKit.Transducer
