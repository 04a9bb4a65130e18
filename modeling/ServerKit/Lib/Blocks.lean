import Mathlib.Algebra.Order.Group.Multiset
import Mathlib.Tactic.Abel
import Mathlib.Tactic.Common

/-! # Programs that own blocks of memory

A block is named by the call of `malloc` that gave it, and any call may fail. A program that frees
a block which is not live, or does something else that is undefined, has no result. -/

namespace ServerKit.Blocks

/-- How often `malloc` was called, and the blocks that have not been freed. -/
structure Heap where
  calls : ℕ
  live : Multiset ℕ

abbrev Prog (α : Type) := StateT Heap Option α

variable {α β : Type}

/-- A call of `malloc`, with `none` for `NULL`. -/
def malloc (succeeds : ℕ → Bool) : Prog (Option ℕ) := fun h =>
  if succeeds h.calls then some (some h.calls, ⟨h.calls + 1, h.calls ::ₘ h.live⟩)
  else some (none, ⟨h.calls + 1, h.live⟩)

def free (b : ℕ) : Prog Unit := fun h =>
  if b ∈ h.live then some ((), ⟨h.calls, h.live.erase b⟩) else none

def undefined : Prog α := fun _ => none

/-- A computation that touches no block of the heap, undefined where it has no value. -/
def compute (a : Option α) : Prog α := fun h => a.map fun a => (a, h)

/-- A step that is left out if a flag is set. -/
def skipIf (flag : Bool) (f : Prog Unit) : Prog Unit := if flag then pure () else f

/-! ## Triples -/

/-- From the blocks `P` the program reaches a result, with blocks as `Q` says. It leaves all other
blocks alone. -/
def Triple (P : Multiset ℕ) (f : Prog α) (Q : α → Multiset ℕ → Prop) : Prop :=
  ∀ h F, h.live = P + F → ∃ a h' G, f h = some (a, h') ∧ h'.live = G + F ∧ Q a G

variable {P P' F : Multiset ℕ} {f : Prog α} {g : α → Prog β} {Q Q' : α → Multiset ℕ → Prop}
  {R : β → Multiset ℕ → Prop}

theorem triple_pure {a : α} (h : Q a P) : Triple P (pure a) Q :=
  fun heap _ hlive => ⟨a, heap, P, rfl, hlive, h⟩

theorem Triple.bind (hf : Triple P f Q) (hg : ∀ a G, Q a G → Triple G (g a) R) :
    Triple P (f >>= g) R := by
  intro h F hlive
  obtain ⟨a, h', G, hrun, hlive', hQ⟩ := hf h F hlive
  obtain ⟨b, h'', G', hrun', hlive'', hR⟩ := hg a G hQ h' F hlive'
  refine ⟨b, h'', G', ?_, hlive'', hR⟩
  show (f h).bind (fun r => g r.1 r.2) = some (b, h'')
  rw [hrun]
  exact hrun'

theorem Triple.mono (hf : Triple P f Q) (h : ∀ a G, Q a G → Q' a G) : Triple P f Q' := by
  intro heap F hlive
  obtain ⟨a, h', G, hrun, hlive', hQ⟩ := hf heap F hlive
  exact ⟨a, h', G, hrun, hlive', h a G hQ⟩

theorem Triple.frame (hf : Triple P f Q) (F : Multiset ℕ) :
    Triple (P + F) f fun a G => ∃ G', Q a G' ∧ G = G' + F := by
  intro h F' hlive
  rw [add_assoc] at hlive
  obtain ⟨a, h', G, hrun, hlive', hQ⟩ := hf h (F + F') hlive
  refine ⟨a, h', G + F, hrun, ?_, G, hQ, rfl⟩
  rw [hlive', add_assoc]

/-- A step that needs only some of the blocks. -/
theorem Triple.bind_frame (hf : Triple P f Q) (hP : P' = P + F)
    (hg : ∀ a G, Q a G → Triple (G + F) (g a) R) : Triple P' (f >>= g) R := by
  rw [hP]
  refine (hf.frame F).bind ?_
  rintro a _ ⟨G, hQ, rfl⟩
  exact hg a G hQ

/-- A step that needs no blocks. -/
theorem Triple.bind_alloc (hf : Triple 0 f Q) (hg : ∀ a G, Q a G → Triple (G + P) (g a) R) :
    Triple P (f >>= g) R :=
  hf.bind_frame (zero_add P).symm hg

theorem triple_malloc (succeeds : ℕ → Bool) :
    Triple 0 (malloc succeeds) fun r G => match r with
      | none => G = 0 ∧ ¬ ∀ n, succeeds n = true
      | some b => G = {b} := by
  intro h F hlive
  rw [zero_add] at hlive
  by_cases hok : succeeds h.calls = true
  · refine ⟨some h.calls, ⟨h.calls + 1, h.calls ::ₘ h.live⟩, {h.calls}, if_pos hok, ?_, rfl⟩
    rw [hlive, Multiset.singleton_add]
  · refine ⟨none, ⟨h.calls + 1, h.live⟩, 0, if_neg hok, ?_, rfl, fun hall => hok (hall _)⟩
    rw [hlive, zero_add]

theorem triple_free (b : ℕ) : Triple {b} (free b) fun _ G => G = 0 := by
  intro h F hlive
  refine ⟨(), ⟨h.calls, h.live.erase b⟩, 0, ?_, ?_, rfl⟩
  · rw [free, if_pos]
    rw [hlive, Multiset.singleton_add]
    exact Multiset.mem_cons_self b F
  · rw [hlive, Multiset.singleton_add, Multiset.erase_cons_head, zero_add]

theorem triple_compute {a : α} (h : Q a P) : Triple P (compute (some a)) Q :=
  fun heap _ hlive => ⟨a, heap, P, rfl, hlive, h⟩

theorem triple_skipIf {f : Prog Unit} (flag : Bool) (h : Triple P f fun _ G => G = 0) :
    Triple (if flag then 0 else P) (skipIf flag f) fun _ G => G = 0 := by
  cases flag
  · exact h
  · exact triple_pure rfl

/-- What a triple says of any heap, where no blocks are needed. -/
theorem Triple.run (hf : Triple 0 f Q) (h : Heap) :
    ∃ a h' G, f h = some (a, h') ∧ h'.live = G + h.live ∧ Q a G :=
  hf h h.live (zero_add _).symm

/-! ## Counted calls -/

/-- A triple for a program whose first call of `malloc` is number `n`. The condition at its end
also speaks of the number of the call that would be next. -/
def TripleFrom (n : ℕ) (P : Multiset ℕ) (f : Prog α) (Q : α → Multiset ℕ → ℕ → Prop) : Prop :=
  ∀ h F, h.calls = n → h.live = P + F →
    ∃ a h' G, f h = some (a, h') ∧ h'.live = G + F ∧ Q a G h'.calls

/-- A program that never calls `malloc`. -/
def KeepsCalls (f : Prog α) : Prop := ∀ h a h', f h = some (a, h') → h'.calls = h.calls

section Counted

variable {n : ℕ} {S : α → Multiset ℕ → ℕ → Prop} {T : β → Multiset ℕ → ℕ → Prop}

theorem tripleFrom_pure {a : α} (h : S a P n) : TripleFrom n P (pure a) S := by
  rintro heap F rfl hlive
  exact ⟨a, heap, P, rfl, hlive, h⟩

theorem TripleFrom.bind (hf : TripleFrom n P f S)
    (hg : ∀ a G m, S a G m → TripleFrom m G (g a) T) : TripleFrom n P (f >>= g) T := by
  intro h F hcalls hlive
  obtain ⟨a, h', G, hrun, hlive', hS⟩ := hf h F hcalls hlive
  obtain ⟨b, h'', G', hrun', hlive'', hT⟩ := hg a G _ hS h' F rfl hlive'
  refine ⟨b, h'', G', ?_, hlive'', hT⟩
  show (f h).bind (fun r => g r.1 r.2) = some (b, h'')
  rw [hrun]
  exact hrun'

theorem TripleFrom.frame (hf : TripleFrom n P f S) (F : Multiset ℕ) :
    TripleFrom n (P + F) f fun a G m => ∃ G', S a G' m ∧ G = G' + F := by
  intro h F' hcalls hlive
  rw [add_assoc] at hlive
  obtain ⟨a, h', G, hrun, hlive', hS⟩ := hf h (F + F') hcalls hlive
  refine ⟨a, h', G + F, hrun, ?_, G, hS, rfl⟩
  rw [hlive', add_assoc]

/-- A step that needs no blocks. -/
theorem TripleFrom.bind_alloc (hf : TripleFrom n 0 f S)
    (hg : ∀ a G m, S a G m → TripleFrom m (G + P) (g a) T) : TripleFrom n P (f >>= g) T := by
  have hframe := hf.frame P
  rw [zero_add] at hframe
  refine hframe.bind ?_
  rintro a _ m ⟨G, hS, rfl⟩
  exact hg a G m hS

/-- The blocks of a triple, for a program that does not call `malloc`. -/
theorem Triple.counted (hf : Triple P f Q) (hkeeps : KeepsCalls f) :
    TripleFrom n P f fun a G m => Q a G ∧ m = n := by
  rintro h F rfl hlive
  obtain ⟨a, h', G, hrun, hlive', hQ⟩ := hf h F hlive
  exact ⟨a, h', G, hrun, hlive', hQ, hkeeps h a h' hrun⟩

theorem tripleFrom_malloc (succeeds : ℕ → Bool) (n : ℕ) :
    TripleFrom n 0 (malloc succeeds) fun r G m => match r with
      | none => G = 0 ∧ ¬ ∀ n, succeeds n = true
      | some b => b = n ∧ G = {n} ∧ m = n + 1 := by
  rintro h F rfl hlive
  rw [zero_add] at hlive
  by_cases hok : succeeds h.calls = true
  · refine ⟨some h.calls, ⟨h.calls + 1, h.calls ::ₘ h.live⟩, {h.calls}, if_pos hok, ?_, rfl, rfl,
      rfl⟩
    rw [hlive, Multiset.singleton_add]
  · refine ⟨none, ⟨h.calls + 1, h.live⟩, 0, if_neg hok, ?_, rfl, fun hall => hok (hall _)⟩
    rw [hlive, zero_add]

theorem keepsCalls_pure (a : α) : KeepsCalls (pure a : Prog α) := by
  rintro h b h' ⟨⟩
  rfl

theorem KeepsCalls.bind (hf : KeepsCalls f) (hg : ∀ a, KeepsCalls (g a)) :
    KeepsCalls (f >>= g) := by
  intro h b h' hrun
  obtain ⟨⟨a, h₁⟩, hrun₁, hrun₂⟩ := Option.bind_eq_some_iff.mp hrun
  exact (hg a h₁ b h' hrun₂).trans (hf h a h₁ hrun₁)

theorem keepsCalls_free (b : ℕ) : KeepsCalls (free b) := by
  intro h u h' hrun
  rw [free] at hrun
  split at hrun
  · cases hrun
    rfl
  · cases hrun

theorem keepsCalls_skipIf {f : Prog Unit} (flag : Bool) (hf : KeepsCalls f) :
    KeepsCalls (skipIf flag f) := by
  cases flag
  · exact hf
  · exact keepsCalls_pure ()

end Counted

end ServerKit.Blocks
