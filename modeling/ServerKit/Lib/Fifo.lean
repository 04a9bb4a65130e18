import Mathlib.Data.List.Basic
import Mathlib.Tactic.Common

/-! # Bounded FIFO queues -/

namespace ServerKit

/-- A first-in first-out queue of at most `capacity` items. -/
structure Fifo (β : Type*) (capacity : ℕ) where
  items : List β
  bounded : items.length ≤ capacity

namespace Fifo

variable {β : Type*} {capacity : ℕ}

def empty : Fifo β capacity := ⟨[], Nat.zero_le _⟩

@[simp] theorem items_empty : (empty : Fifo β capacity).items = [] := rfl

/-- The free space. -/
def room (q : Fifo β capacity) : ℕ := capacity - q.items.length

/-- Appends as much of the front of `xs` as fits. -/
def fill (q : Fifo β capacity) (xs : List β) : Fifo β capacity :=
  ⟨q.items ++ xs.take q.room, by
    have := q.bounded
    simp [room]
    omega⟩

/-- Appends the whole of `xs`, or nothing when it does not fit. -/
def offer (q : Fifo β capacity) (xs : List β) : Fifo β capacity :=
  if xs.length ≤ q.room then q.fill xs else q

/-- The oldest `n` items, or all of them when there are fewer. -/
def front (q : Fifo β capacity) (n : ℕ) : List β := q.items.take n

/-- Removes the oldest `n` items. -/
def drop (q : Fifo β capacity) (n : ℕ) : Fifo β capacity :=
  ⟨q.items.drop n, by
    have := q.bounded
    simp
    omega⟩

@[simp] theorem items_fill (q : Fifo β capacity) (xs : List β) :
    (q.fill xs).items = q.items ++ xs.take q.room := rfl

@[simp] theorem items_drop (q : Fifo β capacity) (n : ℕ) :
    (q.drop n).items = q.items.drop n := rfl

theorem offer_of_le {q : Fifo β capacity} {xs : List β} (h : xs.length ≤ q.room) :
    (q.offer xs).items = q.items ++ xs := by
  simp [offer, h, List.take_of_length_le h]

theorem offer_of_lt {q : Fifo β capacity} {xs : List β} (h : q.room < xs.length) :
    q.offer xs = q := by
  simp [offer, Nat.not_le.mpr h]

theorem drop_of_items_eq_nil {q : Fifo β capacity} (h : q.items = []) (n : ℕ) :
    q.drop n = q := by
  cases q
  simp_all [drop]

end Fifo

end ServerKit
