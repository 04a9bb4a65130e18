import Mathlib.Data.List.Nodup
import Mathlib.Logic.Function.Basic
import Mathlib.Tactic.Common

/-! # Linked lists in a memory of words

A list is given by the addresses of its elements. The word at the offset `next` of an element
holds the address of the following one, and 0 at the end. -/

namespace ServerKit.WordMemory

/-- The elements from the address `a` on. -/
def Linked (mem : ℕ → ℕ) (next : ℕ) : ℕ → List ℕ → Prop
  | a, [] => a = 0
  | a, b :: rest => a = b ∧ b ≠ 0 ∧ Linked mem next (mem (b + next)) rest

variable {mem mem' : ℕ → ℕ} {next a b : ℕ} {l pre post : List ℕ}

theorem linked_nil : Linked mem next a [] ↔ a = 0 := Iff.rfl

theorem linked_cons :
    Linked mem next a (b :: l) ↔ a = b ∧ b ≠ 0 ∧ Linked mem next (mem (b + next)) l := Iff.rfl

theorem Linked.nonnull (h : Linked mem next a l) : ∀ b ∈ l, b ≠ 0 := by
  induction l generalizing a with
  | nil => simp
  | cons c l ih => simpa using ⟨h.2.1, ih h.2.2⟩

/-- A list depends on its links only. -/
theorem Linked.congr (h : Linked mem next a l)
    (hsame : ∀ b ∈ l, mem' (b + next) = mem (b + next)) : Linked mem' next a l := by
  induction l generalizing a with
  | nil => exact h
  | cons c l ih =>
    refine ⟨h.1, h.2.1, ?_⟩
    rw [hsame c List.mem_cons_self]
    exact ih h.2.2 fun b hb => hsame b (List.mem_cons_of_mem _ hb)

/-- The list from one of its elements on. -/
theorem Linked.suffix (h : Linked mem next a (pre ++ b :: post)) :
    Linked mem next b (b :: post) := by
  induction pre generalizing a with
  | nil =>
    obtain ⟨rfl, hrest⟩ := h
    exact ⟨rfl, hrest⟩
  | cons c pre ih => exact ih h.2.2

/-- The memory decides the list. -/
theorem Linked.unique {l' : List ℕ} (h : Linked mem next a l) (h' : Linked mem next a l') :
    l = l' := by
  induction l generalizing a l' with
  | nil =>
    cases l' with
    | nil => rfl
    | cons c l' => exact absurd (h'.1.symm.trans h) h'.2.1
  | cons b l ih =>
    cases l' with
    | nil => exact absurd (h.1.symm.trans h') h.2.1
    | cons c l' =>
      obtain ⟨rfl, -, hrest⟩ := h
      obtain ⟨rfl, -, hrest'⟩ := h'
      rw [ih hrest hrest']

/-- A list that comes to an end has no element twice. -/
theorem Linked.nodup (h : Linked mem next a l) : l.Nodup := by
  induction l generalizing a with
  | nil => exact .nil
  | cons b l ih =>
    refine List.nodup_cons.mpr ⟨fun hb => ?_, ih h.2.2⟩
    obtain ⟨pre, post, rfl⟩ := List.append_of_mem hb
    have hagain : Linked mem next b (b :: post) := Linked.suffix h.2.2
    have heq := congrArg List.length ((h.1 ▸ h).unique hagain)
    simp at heq
    omega

/-- A new link of the last element makes the list longer. -/
theorem Linked.extend (h : Linked mem next a (pre ++ [b]))
    (hsame : ∀ c ∈ pre, mem' (c + next) = mem (c + next))
    (hpost : Linked mem' next (mem' (b + next)) post) :
    Linked mem' next a (pre ++ b :: post) := by
  induction pre generalizing a with
  | nil => exact ⟨h.1, h.2.1, hpost⟩
  | cons c pre ih =>
    refine ⟨h.1, h.2.1, ?_⟩
    rw [hsame c List.mem_cons_self]
    exact ih h.2.2 fun c hc => hsame c (List.mem_cons_of_mem _ hc)

end ServerKit.WordMemory
