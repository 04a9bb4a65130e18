import Mathlib.Tactic.Common
import Mathlib.Data.Nat.ModEq

/-! # Unsigned 32-bit counters

The C idiom `a < b ? a : b`, the distance of two free-running counters, and the
slot a counter addresses after it has been advanced. -/

namespace ServerKit.Word

/-- The usual macro `min`. -/
def min (a b : UInt32) : UInt32 := if a < b then a else b

@[simp] theorem toNat_min (a b : UInt32) : (min a b).toNat = Min.min a.toNat b.toNat := by
  unfold min
  split
  · rename_i h
    exact (Nat.min_eq_left (Nat.le_of_lt (UInt32.lt_iff_toNat_lt.mp h))).symm
  · rename_i h
    exact (Nat.min_eq_right (Nat.not_lt.mp fun hlt => h (UInt32.lt_iff_toNat_lt.mpr hlt))).symm

theorem toNat_sub_min (a b : UInt32) : (a - min a b).toNat = a.toNat - (min a b).toNat := by
  apply UInt32.toNat_sub_of_le
  rw [UInt32.le_iff_toNat_le, toNat_min]
  exact Nat.min_le_left _ _

/-- `size - head + tail` is the free space behind `head - tail` used bytes. -/
theorem toNat_free {size head tail : UInt32} (h : (head - tail).toNat ≤ size.toNat) :
    (size - head + tail).toNat = size.toNat - (head - tail).toNat := by
  have := size.toNat_lt
  have := head.toNat_lt
  have := tail.toNat_lt
  simp only [UInt32.toNat_add, UInt32.toNat_sub] at *
  omega

/-- Advancing the head counter lengthens the distance, across the wrap. -/
theorem toNat_advance_head {head tail n : UInt32} (h : (head - tail).toNat + n.toNat < 2 ^ 32) :
    (head + n - tail).toNat = (head - tail).toNat + n.toNat := by
  have := head.toNat_lt
  have := tail.toNat_lt
  simp only [UInt32.toNat_add, UInt32.toNat_sub] at *
  omega

/-- Advancing the tail counter shortens the distance, across the wrap. -/
theorem toNat_advance_tail {head tail n : UInt32} (h : n.toNat ≤ (head - tail).toNat) :
    (head - (tail + n)).toNat = (head - tail).toNat - n.toNat := by
  have := head.toNat_lt
  have := tail.toNat_lt
  simp only [UInt32.toNat_add, UInt32.toNat_sub] at *
  omega

theorem toNat_sub_eq_zero_iff (head tail : UInt32) : (head - tail).toNat = 0 ↔ head = tail := by
  have := head.toNat_lt
  have := tail.toNat_lt
  rw [← UInt32.toNat_inj, UInt32.toNat_sub]
  omega

/-- A sum of two counters wraps at most once; reduced modulo `size` it is
unchanged by the wrap exactly when `size` divides the range or no wrap happens. -/
theorem toNat_add_mod_iff (a b : UInt32) (size : ℕ) :
    (a + b).toNat % size = (a.toNat + b.toNat) % size ↔
      size ∣ 2 ^ 32 ∨ a.toNat + b.toNat < 2 ^ 32 := by
  have := a.toNat_lt
  have := b.toNat_lt
  rw [UInt32.toNat_add]
  by_cases hwrap : a.toNat + b.toNat < 2 ^ 32
  · rw [Nat.mod_eq_of_lt hwrap]
    exact iff_of_true rfl (Or.inr hwrap)
  · rw [or_iff_left hwrap]
    constructor
    · intro heq
      have hmod : (a.toNat + b.toNat) % 2 ^ 32 ≡ a.toNat + b.toNat [MOD size] := heq
      have hdvd := (Nat.modEq_iff_dvd' (by omega)).mp hmod
      rwa [show a.toNat + b.toNat - (a.toNat + b.toNat) % 2 ^ 32 = 2 ^ 32 by omega] at hdvd
    · intro hdvd
      exact Nat.mod_mod_of_dvd _ hdvd

end ServerKit.Word
