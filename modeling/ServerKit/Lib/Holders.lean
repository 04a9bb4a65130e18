import Mathlib.Data.List.Nodup
import Mathlib.Logic.Function.Basic

/-! # Resources and their holders

A resource waits in a free list or is in the hands of a client. It may also be in neither
place: not there yet, between two places, or lost. -/

namespace ServerKit.Holders

variable {α ι : Type*} {free free' : List α} {held : ι → List α} {i j : ι} {x y : α}

/-- No resource is in two places, or in one place twice. -/
structure Exclusive (free : List α) (held : ι → List α) : Prop where
  free_nodup : free.Nodup
  held_nodup : ∀ i, (held i).Nodup
  holder_unique : ∀ i j x, x ∈ held i → x ∈ held j → i = j
  held_notFree : ∀ i x, x ∈ held i → x ∉ free

/-- A resource in no place. -/
structure Absent (free : List α) (held : ι → List α) (x : α) : Prop where
  notFree : x ∉ free
  notHeld : ∀ i, x ∉ held i

/-- Nobody holds anything at first. -/
theorem Exclusive.start (h : free.Nodup) : Exclusive free fun _ : ι => [] := by
  refine ⟨h, fun _ => List.nodup_nil, ?_, ?_⟩
  · intro i j x hx
    cases hx
  · intro i x hx
    cases hx

theorem Exclusive.sublist (h : Exclusive free held) (hsub : free'.Sublist free) :
    Exclusive free' held := by
  refine ⟨h.free_nodup.sublist hsub, h.held_nodup, h.holder_unique, ?_⟩
  intro i x hx hfree
  exact h.held_notFree i x hx (hsub.subset hfree)

theorem Exclusive.perm (h : Exclusive free held) (hperm : free.Perm free') :
    Exclusive free' held := by
  refine ⟨hperm.nodup h.free_nodup, h.held_nodup, h.holder_unique, ?_⟩
  intro i x hx hfree
  exact h.held_notFree i x hx (hperm.mem_iff.mpr hfree)

/-- A resource from no place becomes free. -/
theorem Exclusive.add (h : Exclusive free held) (hx : Absent free held x) :
    Exclusive (x :: free) held := by
  refine ⟨List.nodup_cons.mpr ⟨hx.notFree, h.free_nodup⟩, h.held_nodup, h.holder_unique, ?_⟩
  intro i y hy hfree
  rcases List.mem_cons.mp hfree with rfl | hfree
  · exact hx.notHeld i hy
  · exact h.held_notFree i y hy hfree

/-- What has left the front of the free list is in no place. -/
theorem Exclusive.absent_front (h : Exclusive (x :: free) held) : Absent free held x := by
  refine ⟨(List.nodup_cons.mp h.free_nodup).1, ?_⟩
  intro i hi
  exact h.held_notFree i x hi List.mem_cons_self

variable [DecidableEq ι]

theorem mem_update {ys : List α} :
    x ∈ Function.update held i ys j ↔ j = i ∧ x ∈ ys ∨ j ≠ i ∧ x ∈ held j := by
  by_cases hji : j = i
  · subst hji
    simp
  · simp [hji]

/-- A resource from no place is handed to a client. -/
theorem Exclusive.give (h : Exclusive free held) (hx : Absent free held x) (i : ι) :
    Exclusive free (Function.update held i (held i ++ [x])) := by
  have hplace : ∀ j y, y ∈ Function.update held i (held i ++ [x]) j →
      y ∈ held j ∨ j = i ∧ y = x := by
    intro j y hy
    rcases mem_update.mp hy with ⟨rfl, hy⟩ | ⟨-, hy⟩
    · simpa using hy
    · exact .inl hy
  refine ⟨h.free_nodup, ?_, ?_, ?_⟩
  · intro j
    by_cases hji : j = i
    · subst hji
      rw [Function.update_self]
      exact (h.held_nodup j).append (List.nodup_singleton x) (by simpa using hx.notHeld j)
    · rw [Function.update_of_ne hji]
      exact h.held_nodup j
  · intro j k y hj hk
    rcases hplace j y hj with hyj | ⟨rfl, rfl⟩
    · rcases hplace k y hk with hyk | ⟨-, rfl⟩
      · exact h.holder_unique j k y hyj hyk
      · exact absurd hyj (hx.notHeld j)
    · rcases hplace k y hk with hyk | ⟨rfl, -⟩
      · exact absurd hyk (hx.notHeld k)
      · rfl
  · intro j y hj
    rcases hplace j y hj with hj | ⟨-, rfl⟩
    · exact h.held_notFree j y hj
    · exact hx.notFree

/-- The front of the free list is handed to a client. -/
theorem Exclusive.take (h : Exclusive (x :: free) held) (i : ι) :
    Exclusive free (Function.update held i (held i ++ [x])) :=
  (h.sublist (List.sublist_cons_self x free)).give h.absent_front i

variable [DecidableEq α]

theorem mem_of_mem_update_erase (hy : y ∈ Function.update held i ((held i).erase x) j) :
    y ∈ held j := by
  rcases mem_update.mp hy with ⟨rfl, hy⟩ | ⟨-, hy⟩
  · exact List.mem_of_mem_erase hy
  · exact hy

/-- A client lets a resource go. -/
theorem Exclusive.letGo (h : Exclusive free held) (i : ι) (x : α) :
    Exclusive free (Function.update held i ((held i).erase x)) := by
  refine ⟨h.free_nodup, ?_, ?_, ?_⟩
  · intro j
    by_cases hji : j = i
    · subst hji
      rw [Function.update_self]
      exact (h.held_nodup j).erase x
    · rw [Function.update_of_ne hji]
      exact h.held_nodup j
  · intro j k y hj hk
    exact h.holder_unique j k y (mem_of_mem_update_erase hj) (mem_of_mem_update_erase hk)
  · intro j y hj
    exact h.held_notFree j y (mem_of_mem_update_erase hj)

/-- What its holder has let go is in no place. -/
theorem Exclusive.absent_letGo (h : Exclusive free held) (hx : x ∈ held i) :
    Absent free (Function.update held i ((held i).erase x)) x := by
  refine ⟨h.held_notFree i x hx, ?_⟩
  intro j hj
  rcases mem_update.mp hj with ⟨-, hj⟩ | ⟨hji, hj⟩
  · exact (h.held_nodup i).not_mem_erase hj
  · exact hji (h.holder_unique j i x hj hx)

end ServerKit.Holders
