import ServerKit.Lib.System
import ServerKit.Lib.Transducer

/-! # The hooks of `yzx_memleak3.c`

`malloc` and `free` of the C library call the functions that `__malloc_hook` and `__free_hook`
point to. The hooks of the program take themselves out, do their work, and put themselves back.
A hook of the system comes back and leaves the variables as they are. -/

namespace ServerKit.Memleak.Hooks

open ServerKit.System

/-- What a hook variable points to. -/
inductive Hook where
  | null
  | system (id : ℕ)
  | own
  deriving DecidableEq, Repr

/-- The variables of the program and of the library. `calls` counts the functions of the library
that the hooks have called, other than `malloc` and `free`. -/
structure State where
  mallocF : Hook
  freeF : Hook
  mallocHook : Hook
  freeHook : Hook
  replaced : Bool
  calls : ℕ
  deriving DecidableEq, Repr

def State.memTrace (s : State) : State :=
  { s with
    replaced := true
    mallocF := s.mallocHook
    freeF := s.freeHook
    mallocHook := .own
    freeHook := .own }

def State.memUntrace (s : State) : State :=
  { s with mallocHook := s.mallocF, freeHook := s.freeF, replaced := false }

inductive Op where
  | malloc
  | free
  deriving DecidableEq, Repr

/-- What the functions of the library do: the calls of `malloc` and `free` that the `n`-th call of
such a function makes, and whether it fails as a call of `unlink`. -/
structure Library where
  inner : ℕ → List Op
  missing : ℕ → Bool

section Functions

variable (lib : Library)

/-- A call of `sprintf`, `fopen`, `fprintf`, `fflush`, `unlink` or `printf`. -/
def library (call : Op → State → Option State) (s : State) : Option State :=
  (lib.inner s.calls).foldlM (fun s op => call op s) { s with calls := s.calls + 1 }

/-- `malloc_hook_f`: `sprintf`, `fopen`, `fprintf` and `fflush` follow the call of `malloc`. -/
def mallocHookF (call : Op → State → Option State) (s : State) : Option State := do
  let s ← call .malloc s.memUntrace
  let s ← library lib call s
  let s ← library lib call s
  let s ← library lib call s
  let s ← library lib call s
  return s.memTrace

/-- The call of `unlink` in `free_hook_f`, and the one of `printf` if it has failed. -/
def unlinkRecord (call : Op → State → Option State) (s : State) : Option State :=
  (library lib call s).bind fun t => if lib.missing s.calls then library lib call t else some t

/-- `free_hook_f`: `sprintf` and `unlink` come before the call of `free`. -/
def freeHookF (call : Op → State → Option State) (s : State) : Option State := do
  let s ← library lib call s.memUntrace
  let s ← unlinkRecord lib call s
  let s ← call .free s
  return s.memTrace

/-- `malloc` and `free` of the library, with no result if they nest deeper than `fuel`. -/
def call : ℕ → Op → State → Option State
  | 0, _, _ => none
  | fuel + 1, .malloc, s =>
    if s.mallocHook = .own then mallocHookF lib (call fuel) s else some s
  | fuel + 1, .free, s => if s.freeHook = .own then freeHookF lib (call fuel) s else some s

end Functions

/-- The hooks that are installed. -/
def State.installed (s : State) : Hook × Hook := (s.mallocHook, s.freeHook)

/-- The hooks that `mem_untrace` installs. -/
def State.saved (s : State) : Hook × Hook := (s.mallocF, s.freeF)

inductive Action where
  | memTrace
  | memUntrace
  | call (op : Op)
  deriving DecidableEq, Repr

/-- A call of the user; the reply are the hooks that are installed behind it. -/
def step (lib : Library) (fuel : ℕ) (s : State) : Action → Option (State × (Hook × Hook))
  | .memTrace => some (s.memTrace, s.memTrace.installed)
  | .memUntrace => some (s.memUntrace, s.memUntrace.installed)
  | .call op => (call lib fuel op s).map fun s => (s, s.installed)

/-- A hook of the system, if it has one. -/
def Hook.ofSystem : Option ℕ → Hook
  | none => .null
  | some id => .system id

/-- The hooks of the system for `malloc` and for `free`. -/
abbrev SystemHooks := Option ℕ × Option ℕ

def SystemHooks.hooks (system : SystemHooks) : Hook × Hook :=
  (.ofSystem system.1, .ofSystem system.2)

/-- The variables at the start. -/
def start (system : SystemHooks) : State :=
  ⟨.null, .null, system.hooks.1, system.hooks.2, false, 0⟩

/-! ## Calls while the hooks are out -/

/-- No hook of the program is installed. -/
def Plain (s : State) : Prop := s.mallocHook ≠ .own ∧ s.freeHook ≠ .own

section Calls

variable {lib : Library} {fuel : ℕ} {op : Op} {s s' : State}

theorem call_plain (h : Plain s) : call lib (fuel + 1) op s = some s := by
  cases op with
  | malloc => rw [call, if_neg h.1]
  | free => rw [call, if_neg h.2]

theorem eq_of_call_plain (h : Plain s) (hcall : call lib fuel op s = some s') : s' = s := by
  cases fuel with
  | zero => cases hcall
  | succ fuel =>
      rw [call_plain h] at hcall
      exact (Option.some.inj hcall).symm

/-- The functions of the library come back if the calls they make do. -/
theorem library_plain (h : Plain s) :
    library lib (call lib (fuel + 1)) s = some { s with calls := s.calls + 1 } := by
  rw [library]
  induction lib.inner s.calls with
  | nil => rfl
  | cons op ops ih =>
      have hop : call lib (fuel + 1) op { s with calls := s.calls + 1 } =
          some { s with calls := s.calls + 1 } := call_plain h
      rw [List.foldlM_cons, hop]
      exact ih

theorem eq_of_library_plain (h : Plain s)
    (hlibrary : library lib (call lib fuel) s = some s') :
    s' = { s with calls := s.calls + 1 } := by
  refine foldlM_invariant
    (P := fun t => t = { s with calls := s.calls + 1 }) ?_ rfl hlibrary
  rintro t op t' rfl hcall
  exact eq_of_call_plain h hcall

/-- The hooks of the program are in, and those that they save are not of the program. -/
structure Tracing (s : State) : Prop where
  installed : s.installed = (.own, .own)
  saved : s.mallocF ≠ .own ∧ s.freeF ≠ .own

/-- `malloc` and `free` come back. -/
theorem call_tracing (h : Tracing s) : ∃ s', call lib (fuel + 2) op s = some s' := by
  have hplain : Plain s.memUntrace := h.saved
  obtain ⟨hmalloc, hfree⟩ := Prod.mk.inj h.installed
  have hlibrary : ∀ n, library lib (call lib (fuel + 1)) { s.memUntrace with calls := n } =
      some { s.memUntrace with calls := n + 1 } :=
    fun n => library_plain (s := { s.memUntrace with calls := n }) hplain
  cases op with
  | malloc =>
      rw [call, if_pos hmalloc, mallocHookF]
      simp [call_plain hplain, library_plain hplain, hlibrary]
  | free =>
      rw [call, if_pos hfree, freeHookF]
      have hcall : ∀ n, call lib (fuel + 1) .free { s.memUntrace with calls := n } =
          some { s.memUntrace with calls := n } :=
        fun n => call_plain (s := { s.memUntrace with calls := n }) hplain
      simp only [library_plain hplain, unlinkRecord, hlibrary, Option.bind_eq_bind,
        Option.bind_some]
      split
      · simp [hcall]
      · simp [hcall]

theorem Plain.of_installed (h : Plain s) (heq : s'.installed = s.installed) : Plain s' := by
  obtain ⟨hmalloc, hfree⟩ := Prod.mk.inj heq
  exact ⟨hmalloc ▸ h.1, hfree ▸ h.2⟩

theorem library_installed (h : Plain s) (hlibrary : library lib (call lib fuel) s = some s') :
    s'.installed = s.installed := by
  rw [eq_of_library_plain h hlibrary]
  rfl

theorem unlinkRecord_installed (h : Plain s)
    (hunlink : unlinkRecord lib (call lib fuel) s = some s') : s'.installed = s.installed := by
  obtain ⟨t, ht, hunlink⟩ := Option.bind_eq_some_iff.mp hunlink
  have hinstalled := library_installed h ht
  split at hunlink
  · exact (library_installed (h.of_installed hinstalled) hunlink).trans hinstalled
  · exact Option.some.inj hunlink ▸ hinstalled

/-- The hooks that have been saved are saved again. -/
theorem tracing_memTrace (h : Tracing s) (heq : s'.installed = s.saved) :
    Tracing s'.memTrace ∧ s'.memTrace.saved = s.saved := by
  obtain ⟨hmalloc, hfree⟩ := Prod.mk.inj heq
  refine ⟨⟨rfl, ?_⟩, heq⟩
  show s'.mallocHook ≠ .own ∧ s'.freeHook ≠ .own
  rw [hmalloc, hfree]
  exact h.saved

theorem call_tracing_saved (h : Tracing s) (hcall : call lib fuel op s = some s') :
    Tracing s' ∧ s'.saved = s.saved := by
  have hplain : Plain s.memUntrace := h.saved
  obtain ⟨hmalloc, hfree⟩ := Prod.mk.inj h.installed
  cases fuel with
  | zero => cases hcall
  | succ fuel =>
      cases op with
      | malloc =>
          rw [call, if_pos hmalloc, mallocHookF] at hcall
          obtain ⟨s₁, hs₁, hcall⟩ := Option.bind_eq_some_iff.mp hcall
          obtain ⟨s₂, hs₂, hcall⟩ := Option.bind_eq_some_iff.mp hcall
          obtain ⟨s₃, hs₃, hcall⟩ := Option.bind_eq_some_iff.mp hcall
          obtain ⟨s₄, hs₄, hcall⟩ := Option.bind_eq_some_iff.mp hcall
          obtain ⟨s₅, hs₅, hcall⟩ := Option.bind_eq_some_iff.mp hcall
          have h₁ : s₁.installed = s.saved := by
            rw [eq_of_call_plain hplain hs₁]
            rfl
          have h₂ := (library_installed (hplain.of_installed h₁) hs₂).trans h₁
          have h₃ := (library_installed (hplain.of_installed h₂) hs₃).trans h₂
          have h₄ := (library_installed (hplain.of_installed h₃) hs₄).trans h₃
          have h₅ := (library_installed (hplain.of_installed h₄) hs₅).trans h₄
          rw [← Option.some.inj hcall]
          exact tracing_memTrace h h₅
      | free =>
          rw [call, if_pos hfree, freeHookF] at hcall
          obtain ⟨s₁, hs₁, hcall⟩ := Option.bind_eq_some_iff.mp hcall
          obtain ⟨s₂, hs₂, hcall⟩ := Option.bind_eq_some_iff.mp hcall
          obtain ⟨s₃, hs₃, hcall⟩ := Option.bind_eq_some_iff.mp hcall
          have h₁ : s₁.installed = s.saved := library_installed hplain hs₁
          have h₂ := (unlinkRecord_installed (hplain.of_installed h₁) hs₂).trans h₁
          have h₃ : s₃.installed = s.saved := by
            rw [eq_of_call_plain (hplain.of_installed h₂) hs₃]
            exact h₂
          rw [← Option.some.inj hcall]
          exact tracing_memTrace h h₃

/-! ## Calls while the hooks have saved themselves -/

/-- The hooks of the program are in, and are those that they save. -/
structure TracedTwice (s : State) : Prop where
  installed : s.installed = (.own, .own)
  saved : s.saved = (.own, .own)

theorem library_twice {f : Op → State → Option State}
    (hf : ∀ op s, TracedTwice s → f op s = none) (h : TracedTwice s)
    (hlibrary : library lib f s = some s') : TracedTwice s' := by
  rw [library] at hlibrary
  cases hinner : lib.inner s.calls with
  | nil =>
      rw [hinner] at hlibrary
      rw [← Option.some.inj hlibrary]
      exact ⟨h.installed, h.saved⟩
  | cons op ops =>
      have hnone := hf op { s with calls := s.calls + 1 } ⟨h.installed, h.saved⟩
      rw [hinner, List.foldlM_cons, hnone] at hlibrary
      cases hlibrary

theorem unlinkRecord_twice {f : Op → State → Option State}
    (hf : ∀ op s, TracedTwice s → f op s = none) (h : TracedTwice s)
    (hunlink : unlinkRecord lib f s = some s') : TracedTwice s' := by
  obtain ⟨t, ht, hunlink⟩ := Option.bind_eq_some_iff.mp hunlink
  have htwice := library_twice hf h ht
  split at hunlink
  · exact library_twice hf htwice hunlink
  · exact Option.some.inj hunlink ▸ htwice

/-- `malloc` and `free` do not come back. -/
theorem call_twice (h : TracedTwice s) : call lib fuel op s = none := by
  induction fuel generalizing op s with
  | zero => rfl
  | succ fuel ih =>
      have hinner : ∀ op s, TracedTwice s → call lib fuel op s = none := fun op s hs => ih hs
      have hout : TracedTwice s.memUntrace := ⟨h.saved, h.saved⟩
      obtain ⟨hmalloc, hfree⟩ := Prod.mk.inj h.installed
      cases op with
      | malloc =>
          rw [call, if_pos hmalloc, mallocHookF, ih hout]
          rfl
      | free =>
          rw [call, if_pos hfree, freeHookF, Option.eq_none_iff_forall_ne_some]
          intro t ht
          obtain ⟨s₁, hs₁, ht⟩ := Option.bind_eq_some_iff.mp ht
          obtain ⟨s₂, hs₂, ht⟩ := Option.bind_eq_some_iff.mp ht
          have h₁ := library_twice hinner hout hs₁
          have h₂ := unlinkRecord_twice hinner h₁ hs₂
          rw [ih h₂] at ht
          cases ht

end Calls

/-! ## The calls of a user -/

/-- What the user has called: nothing of the two, `mem_trace` last, `mem_untrace` last, or
`mem_trace` once more while it was on. -/
inductive Phase where
  | fresh
  | on
  | off
  | twice
  deriving DecidableEq, Repr

def Phase.next : Phase → Action → Phase
  | .fresh, .memTrace => .on
  | .on, .memTrace => .twice
  | .on, .memUntrace => .off
  | .off, .memTrace => .on
  | phase, _ => phase

/-- With tracing on twice, nothing but `mem_trace` is called. `mem_untrace` comes behind a
`mem_trace`, unless the system has no hooks. -/
def Allowed (system : SystemHooks) : Phase → Action → Prop
  | .fresh, .memUntrace => system = (none, none)
  | .twice, .memUntrace => False
  | .twice, .call _ => False
  | _, _ => True

instance (system : SystemHooks) : (phase : Phase) → (action : Action) →
    Decidable (Allowed system phase action)
  | .fresh, .memUntrace => inferInstanceAs (Decidable (system = (none, none)))
  | .twice, .memUntrace => .isFalse not_false
  | .twice, .call _ => .isFalse not_false
  | .fresh, .memTrace => .isTrue trivial
  | .fresh, .call _ => .isTrue trivial
  | .on, _ => .isTrue trivial
  | .off, _ => .isTrue trivial
  | .twice, .memTrace => .isTrue trivial

/-- The user calls as intended throughout. -/
def Intended (system : SystemHooks) (actions : List Action) : Prop :=
  Admits (fun phase action => some (phase.next action)) (Allowed system) .fresh actions

instance (system : SystemHooks) (actions : List Action) : Decidable (Intended system actions) :=
  decidableAdmits _ _ _ _

/-- The hooks of the system are back behind `mem_untrace`. -/
def Restores (system : SystemHooks) (_ : State) (action : Action)
    (result : State × (Hook × Hook)) : Prop :=
  action = .memUntrace → result.2 = system.hooks

/-- The variables of the program after these calls. -/
def Matches (system : SystemHooks) : Phase → State → Prop
  | .fresh, s => s.installed = system.hooks ∧ s.saved = (.null, .null)
  | .on, s => s.installed = (.own, .own) ∧ s.saved = system.hooks
  | .off, s => s.installed = system.hooks ∧ s.saved = system.hooks
  | .twice, s => TracedTwice s

section Run

variable {lib : Library} {fuel : ℕ} {system : SystemHooks} {phase : Phase} {s : State}

theorem ofSystem_ne_own (hook : Option ℕ) : Hook.ofSystem hook ≠ .own := by
  cases hook with
  | none => exact Hook.noConfusion
  | some id => exact Hook.noConfusion

theorem plain_of_installed (h : s.installed = system.hooks) : Plain s := by
  obtain ⟨hmalloc, hfree⟩ := Prod.mk.inj h
  exact ⟨hmalloc ▸ ofSystem_ne_own _, hfree ▸ ofSystem_ne_own _⟩

theorem tracing_of_matches (h : Matches system .on s) : Tracing s := by
  obtain ⟨hmalloc, hfree⟩ := Prod.mk.inj h.2
  exact ⟨h.1, hmalloc ▸ ofSystem_ne_own _, hfree ▸ ofSystem_ne_own _⟩

theorem eq_none_of_null (h : system.hooks = (.null, .null)) : system = (none, none) := by
  obtain ⟨hmalloc, hfree⟩ := Prod.mk.inj h
  obtain ⟨malloc, free⟩ := system
  cases malloc with
  | none =>
      cases free with
      | none => rfl
      | some id => cases hfree
  | some id => cases hmalloc

theorem matches_memTrace (h : Matches system phase s) :
    Allowed system phase .memTrace ∧ Matches system (phase.next .memTrace) s.memTrace := by
  cases phase with
  | fresh => exact ⟨trivial, rfl, h.1⟩
  | on => exact ⟨trivial, rfl, h.1⟩
  | off => exact ⟨trivial, rfl, h.1⟩
  | twice => exact ⟨trivial, rfl, h.installed⟩

theorem matches_memUntrace (h : Matches system phase s)
    (hrestores : s.memUntrace.installed = system.hooks) :
    Allowed system phase .memUntrace ∧ Matches system (phase.next .memUntrace) s.memUntrace := by
  replace hrestores : s.saved = system.hooks := hrestores
  cases phase with
  | fresh => exact ⟨eq_none_of_null (hrestores.symm.trans h.2), hrestores, h.2⟩
  | on => exact ⟨trivial, hrestores, h.2⟩
  | off => exact ⟨trivial, hrestores, h.2⟩
  | twice =>
      have hown := congrArg Prod.fst (hrestores.symm.trans h.saved)
      exact absurd hown (ofSystem_ne_own system.1)

theorem matches_call (h : Matches system phase s) {op : Op} {s' : State}
    (hcall : call lib fuel op s = some s') :
    Allowed system phase (.call op) ∧ Matches system (phase.next (.call op)) s' := by
  cases phase with
  | fresh => exact ⟨trivial, eq_of_call_plain (plain_of_installed h.1) hcall ▸ h⟩
  | on =>
      obtain ⟨htracing, hsaved⟩ := call_tracing_saved (tracing_of_matches h) hcall
      exact ⟨trivial, htracing.installed, hsaved.trans h.2⟩
  | off => exact ⟨trivial, eq_of_call_plain (plain_of_installed h.1) hcall ▸ h⟩
  | twice =>
      rw [call_twice h] at hcall
      cases hcall

/-- A call that comes back and leaves what it should is allowed, and the variables match again. -/
theorem matches_step (h : Matches system phase s) {action : Action}
    {result : State × (Hook × Hook)} (hstep : step lib fuel s action = some result)
    (hrestores : Restores system s action result) :
    Allowed system phase action ∧ Matches system (phase.next action) result.1 := by
  cases action with
  | memTrace =>
      cases hstep
      exact matches_memTrace h
  | memUntrace =>
      cases hstep
      exact matches_memUntrace h (hrestores rfl)
  | call op =>
      obtain ⟨s', hcall, rfl⟩ := Option.map_eq_some_iff.mp hstep
      exact matches_call h hcall

variable (lib fuel) in
/-- An allowed call comes back and leaves what it should. -/
theorem exists_step (h : Matches system phase s) {action : Action}
    (hallowed : Allowed system phase action) :
    ∃ result, step lib (fuel + 2) s action = some result ∧ Restores system s action result := by
  cases action with
  | memTrace => exact ⟨_, rfl, fun h => Action.noConfusion h⟩
  | memUntrace =>
      refine ⟨_, rfl, fun _ => ?_⟩
      show s.saved = system.hooks
      cases phase with
      | fresh =>
          obtain rfl : system = (none, none) := hallowed
          exact h.2
      | on => exact h.2
      | off => exact h.2
      | twice => exact hallowed.elim
  | call op =>
      have hcall : ∃ s', call lib (fuel + 2) op s = some s' := by
        cases phase with
        | fresh => exact ⟨s, call_plain (plain_of_installed h.1)⟩
        | on => exact call_tracing (tracing_of_matches h)
        | off => exact ⟨s, call_plain (plain_of_installed h.1)⟩
        | twice => exact hallowed.elim
      obtain ⟨s', hs'⟩ := hcall
      exact ⟨(s', s'.installed), by rw [step, hs']; rfl, fun h => Action.noConfusion h⟩

variable (lib fuel) in
theorem every_of_admits {actions : List Action} (h : Matches system phase s)
    (hadmits : Admits (fun phase action => some (phase.next action)) (Allowed system) phase
      actions) : Transducer.Every (Restores system) (step lib (fuel + 2)) s actions := by
  induction actions generalizing phase s with
  | nil => trivial
  | cons action actions ih =>
      obtain ⟨result, hstep, hrestores⟩ := exists_step lib fuel h hadmits.1
      have hnext := (matches_step h hstep hrestores).2
      exact ⟨result, hstep, hrestores, ih hnext (hadmits.2 _ rfl)⟩

theorem admits_of_every {actions : List Action} (h : Matches system phase s)
    (hevery : Transducer.Every (Restores system) (step lib fuel) s actions) :
    Admits (fun phase action => some (phase.next action)) (Allowed system) phase actions := by
  induction actions generalizing phase s with
  | nil => trivial
  | cons action actions ih =>
      obtain ⟨result, hstep, hrestores, hrest⟩ := hevery
      obtain ⟨hallowed, hnext⟩ := matches_step h hstep hrestores
      refine ⟨hallowed, ?_⟩
      rintro _ ⟨⟩
      exact ih hnext hrest

end Run

-- the calls of `main`
example : Intended (none, none)
    [.memTrace, .call .malloc, .call .malloc, .call .free, .memUntrace] := by decide

/-- A library whose functions neither allocate nor fail. -/
def silent : Library := ⟨fun _ => [], fun _ => false⟩

end ServerKit.Memleak.Hooks
