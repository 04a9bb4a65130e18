import ServerKit.Lib.Memory
import Mathlib.Data.Nat.ModEq

/-! # Circular windows

A queue stored in a circular area occupies consecutive slots modulo the size of
the area. Copies into and out of such a window are made in at most two pieces. -/

namespace ServerKit.Window

open ServerKit.Memory

variable {β : Type*}

/-- The slots of `mem` from `start` on, taken circularly, hold `q`. -/
def Holds (mem : List β) (start : ℕ) (q : List β) : Prop :=
  q.length ≤ mem.length ∧ ∀ i < q.length, mem[(start + i) % mem.length]? = q[i]?

theorem add_mod_eq {size start i : ℕ} (hstart : start < size) (hi : i ≤ size) :
    (start + i) % size = if start + i < size then start + i else start + i - size := by
  split
  · exact Nat.mod_eq_of_lt ‹_›
  · rw [Nat.mod_eq_sub_mod (by omega), Nat.mod_eq_of_lt (by omega)]

/-- Positions less than a full turn apart have different slots. -/
theorem mod_ne_mod {size a b : ℕ} (hlt : a < b) (hturn : b < a + size) : a % size ≠ b % size := by
  intro heq
  have hdvd : size ∣ b - a := (Nat.modEq_iff_dvd' hlt.le).mp heq
  have hle := Nat.le_of_dvd (by omega) hdvd
  omega

/-- A position before the end of the area, counted from a slot. -/
theorem add_mod_of_front {size a j : ℕ} (h : a % size + j < size) :
    (a + j) % size = a % size + j := by
  rw [← Nat.mod_add_mod, Nat.mod_eq_of_lt h]

/-- A position behind the end of the area, counted from a slot. -/
theorem add_mod_of_rest {size a i j : ℕ} (hi : a % size + i = size) (hj : j < size) :
    (a + (i + j)) % size = j := by
  rw [← Nat.mod_add_mod, ← Nat.add_assoc, hi, Nat.add_mod_left, Nat.mod_eq_of_lt hj]

theorem drop_min_length (q : List β) (n : ℕ) : q.drop (min n q.length) = q.drop n := by
  rcases Nat.le_total n q.length with hle | hle
  · rw [Nat.min_eq_left hle]
  · rw [Nat.min_eq_right hle, List.drop_length, List.drop_of_length_le hle]

theorem holds_nil (mem : List β) (start : ℕ) : Holds mem start [] := by
  simp [Holds]

/-- Removing the front of the queue advances the window. -/
theorem Holds.drop {mem q : List β} {start : ℕ} (h : Holds mem start q) (n : ℕ) :
    Holds mem ((start + n) % mem.length) (q.drop n) := by
  refine ⟨by simp; have := h.1; omega, ?_⟩
  intro i hi
  rw [List.length_drop] at hi
  rw [Nat.mod_add_mod, Nat.add_assoc, List.getElem?_drop]
  exact h.2 (n + i) (by omega)

/-- A read of at most the queue's length, split at the end of the area, returns
the front of the queue. -/
theorem Holds.load {mem q : List β} {start n : ℕ} (h : Holds mem start q)
    (hstart : start < mem.length) (hn : n ≤ q.length) :
    ∃ front rest,
      load mem start (min n (mem.length - start)) = some front ∧
      load mem 0 (n - min n (mem.length - start)) = some rest ∧
      front ++ rest = q.take n := by
  have hsize := h.1
  refine ⟨_, _, load_eq_some (by omega), load_eq_some (by omega), ?_⟩
  apply List.ext_getElem?
  intro j
  by_cases hj : j < n
  · rw [List.getElem?_take_of_lt hj, ← h.2 j (by omega), add_mod_eq hstart (by omega)]
    by_cases hfirst : start + j < mem.length
    · rw [List.getElem?_append_left (by simp; omega), List.getElem?_take_of_lt (by omega),
        List.getElem?_drop, if_pos hfirst]
    · rw [List.getElem?_append_right (by simp; omega), if_neg hfirst, List.drop_zero,
        List.getElem?_take_of_lt (by simp; omega)]
      congr 1
      simp
      omega
  · rw [List.getElem?_eq_none (by simp; omega), List.getElem?_eq_none (by simp; omega)]

/-- Every area holds a queue of any length up to its own from any slot on. -/
theorem exists_holds (mem : List β) (start : ℕ) {n : ℕ} (hn : n ≤ mem.length) :
    ∃ q, q.length = n ∧ Holds mem start q := by
  induction n with
  | zero => exact ⟨[], rfl, holds_nil mem start⟩
  | succ n ih =>
      rcases ih (by omega) with ⟨q, hlen, hq⟩
      have hlt : (start + n) % mem.length < mem.length := Nat.mod_lt _ (by omega)
      refine ⟨q ++ [mem[(start + n) % mem.length]], by simp [hlen], by simp [hlen, hn], ?_⟩
      intro i hi
      by_cases hlast : i = n
      · rw [hlast, List.getElem?_append_right (by omega), hlen, Nat.sub_self,
          List.getElem?_eq_getElem hlt]
        rfl
      · simp only [List.length_append, List.length_singleton] at hi
        rw [List.getElem?_append_left (by omega)]
        exact hq.2 i (by omega)

/-! ## Circular writes -/

/-- `mem'` is `mem` with `xs` in the slots from `slot` on, taken circularly. -/
structure Pasted (mem : List β) (slot : ℕ) (xs mem' : List β) : Prop where
  length : mem'.length = mem.length
  new : ∀ j < xs.length, mem'[(slot + j) % mem.length]? = xs[j]?
  old : ∀ j, xs.length ≤ j → j < mem.length →
    mem'[(slot + j) % mem.length]? = mem[(slot + j) % mem.length]?

/-- A write determines every cell. -/
theorem Pasted.unique {mem xs mem₁ mem₂ : List β} {slot : ℕ} (h₁ : Pasted mem slot xs mem₁)
    (h₂ : Pasted mem slot xs mem₂) : mem₁ = mem₂ := by
  apply List.ext_getElem?
  intro i
  by_cases hi : i < mem.length
  · -- the slot `i` is met on the turn that starts at `slot`
    have hlt : slot % mem.length < mem.length := Nat.mod_lt _ (by omega)
    obtain ⟨j, hj, hslot⟩ : ∃ j < mem.length, (slot + j) % mem.length = i := by
      by_cases hle : slot % mem.length ≤ i
      · refine ⟨i - slot % mem.length, by omega, ?_⟩
        rw [add_mod_of_front (by omega)]
        omega
      · refine ⟨mem.length - slot % mem.length + i, by omega, ?_⟩
        exact add_mod_of_rest (by omega) hi
    rw [← hslot]
    by_cases hnew : j < xs.length
    · rw [h₁.new j hnew, h₂.new j hnew]
    · rw [h₁.old j (by omega) hj, h₂.old j (by omega) hj]
  · rw [List.getElem?_eq_none (by rw [h₁.length]; omega),
      List.getElem?_eq_none (by rw [h₂.length]; omega)]

theorem pasted_nil (mem : List β) (slot : ℕ) : Pasted mem slot [] mem where
  length := rfl
  new := fun j hj => absurd hj (Nat.not_lt_zero j)
  old := fun _ _ _ => rfl

/-- Two writes one behind the other are one write. -/
theorem Pasted.append {mem xs ys mem₁ mem₂ : List β} {slot slot' : ℕ}
    (h₁ : Pasted mem slot xs mem₁) (h₂ : Pasted mem₁ slot' ys mem₂)
    (hnext : slot' % mem.length = (slot + xs.length) % mem.length)
    (hfit : xs.length + ys.length ≤ mem.length) : Pasted mem slot (xs ++ ys) mem₂ := by
  have hnew := h₂.new
  have hold := h₂.old
  rw [h₁.length] at hnew hold
  have hslot (j : ℕ) : (slot' + j) % mem.length = (slot + (xs.length + j)) % mem.length := by
    rw [Nat.add_mod, hnext, ← Nat.add_mod, Nat.add_assoc]
  refine ⟨h₂.length.trans h₁.length, ?_, ?_⟩
  · intro j hj
    rw [List.length_append] at hj
    by_cases hfirst : j < xs.length
    · -- the second write meets the cells of the first only after a full turn
      have hback := hold (mem.length - xs.length + j) (by omega) (by omega)
      rw [hslot, show slot + (xs.length + (mem.length - xs.length + j)) =
        slot + j + mem.length by omega, Nat.add_mod_right] at hback
      rw [hback, h₁.new j hfirst, List.getElem?_append_left hfirst]
    · have hsecond := hnew (j - xs.length) (by omega)
      rw [hslot, Nat.add_sub_cancel' (by omega)] at hsecond
      rw [hsecond, List.getElem?_append_right (by omega)]
  · intro j hlow hj
    rw [List.length_append] at hlow
    have hbehind := hold (j - xs.length) (by omega) (by omega)
    rw [hslot, Nat.add_sub_cancel' (by omega)] at hbehind
    rw [hbehind, h₁.old j (by omega) hj]

/-- A write just behind a queue that fits in the free slots appends to the queue. An empty
write may start at any slot. -/
theorem Holds.pasted {mem q xs mem' : List β} {start slot : ℕ} (h : Holds mem start q)
    (hpasted : Pasted mem slot xs mem')
    (hend : xs.length ≠ 0 → slot = (start + q.length) % mem.length)
    (hfit : q.length + xs.length ≤ mem.length) : Holds mem' start (q ++ xs) := by
  by_cases hzero : xs.length = 0
  · rw [List.length_eq_zero_iff] at hzero
    subst hzero
    rw [hpasted.unique (pasted_nil mem slot), List.append_nil]
    exact h
  have hend := hend hzero
  refine ⟨by simp [hpasted.length, hfit], ?_⟩
  intro i hi
  rw [List.length_append] at hi
  rw [hpasted.length]
  by_cases hq : i < q.length
  · -- an old byte sits `mem.length - q.length + i` slots behind the write position
    have hpos : (slot + (mem.length - q.length + i)) % mem.length = (start + i) % mem.length := by
      rw [hend, Nat.mod_add_mod,
        show start + q.length + (mem.length - q.length + i) = start + i + mem.length by omega,
        Nat.add_mod_right]
    rw [List.getElem?_append_left hq, ← h.2 i hq, ← hpos]
    exact hpasted.old _ (by omega) (by omega)
  · have hpos : (start + i) % mem.length = (slot + (i - q.length)) % mem.length := by
      rw [hend, Nat.mod_add_mod]
      congr 1
      omega
    rw [hpos, hpasted.new _ (by omega), List.getElem?_append_right (by omega)]

/-- A write in two pieces, split at the end of the area. -/
theorem store_wrap {mem : List β} (xs : List β) {slot : ℕ} (hslot : slot < mem.length)
    (hfit : xs.length ≤ mem.length) :
    ∃ mem₁ mem₂,
      store mem slot (xs.take (mem.length - slot)) = some mem₁ ∧
      store mem₁ 0 (xs.drop (mem.length - slot)) = some mem₂ ∧ Pasted mem slot xs mem₂ := by
  obtain ⟨mem₁, h₁⟩ : ∃ m, store mem slot (xs.take (mem.length - slot)) = some m :=
    ⟨_, store_eq_some (by simp; omega)⟩
  have hlen₁ := store_length h₁
  obtain ⟨mem₂, h₂⟩ : ∃ m, store mem₁ 0 (xs.drop (mem.length - slot)) = some m :=
    ⟨_, store_eq_some (by simp; omega)⟩
  refine ⟨mem₁, mem₂, h₁, h₂, (store_length h₂).trans hlen₁, ?_, ?_⟩
  · intro j hj
    rw [add_mod_eq hslot (by omega), store_getElem? h₂, store_getElem? h₁]
    simp only [List.length_drop, List.length_take]
    by_cases hfirst : slot + j < mem.length
    · rw [if_pos hfirst, if_neg (by omega), if_pos (by omega),
        List.getElem?_take_of_lt (by omega)]
      congr 1
      omega
    · rw [if_neg hfirst, if_pos (by omega), List.getElem?_drop]
      congr 1
      omega
  · intro j hlow hj
    rw [add_mod_eq hslot (by omega), store_getElem? h₂, store_getElem? h₁]
    simp only [List.length_drop, List.length_take]
    by_cases hfirst : slot + j < mem.length
    · rw [if_pos hfirst, if_neg (by omega), if_neg (by omega)]
    · rw [if_neg hfirst, if_neg (by omega), if_neg (by omega)]

/-- The two copies of a write of `n` bytes, split at the end of the area. -/
theorem memcpy_wrap {mem src : List β} {slot n : ℕ} (hslot : slot < mem.length)
    (hn : n ≤ src.length) (hfit : n ≤ mem.length) :
    ∃ mem₁ mem₂,
      memcpy mem slot src 0 (min n (mem.length - slot)) = some mem₁ ∧
      memcpy mem₁ 0 src (min n (mem.length - slot)) (n - min n (mem.length - slot)) = some mem₂ ∧
      Pasted mem slot (src.take n) mem₂ := by
  obtain ⟨mem₁, mem₂, hstore₁, hstore₂, hpasted⟩ :=
    store_wrap (src.take n) hslot (by rw [List.length_take]; omega)
  refine ⟨mem₁, mem₂, ?_, ?_, hpasted⟩
  · rw [memcpy_eq_store (by omega), ← hstore₁, List.drop_zero, List.take_take, Nat.min_comm]
  · rw [memcpy_eq_store (by omega), ← hstore₂, List.drop_take]
    congr 1
    rcases Nat.le_total n (mem.length - slot) with hle | hle
    · rw [Nat.min_eq_left hle, Nat.sub_self, Nat.sub_eq_zero_of_le hle]
      simp
    · rw [Nat.min_eq_right hle]

/-- Behind a queue, they append the first `n` bytes of the source. -/
theorem Holds.memcpy {mem q src : List β} {start slot n : ℕ} (h : Holds mem start q)
    (hslot : slot < mem.length) (hend : n ≠ 0 → slot = (start + q.length) % mem.length)
    (hn : n ≤ src.length) (hfit : q.length + n ≤ mem.length) :
    ∃ mem₁ mem₂,
      memcpy mem slot src 0 (min n (mem.length - slot)) = some mem₁ ∧
      memcpy mem₁ 0 src (min n (mem.length - slot)) (n - min n (mem.length - slot)) = some mem₂ ∧
      mem₂.length = mem.length ∧ Holds mem₂ start (q ++ src.take n) := by
  obtain ⟨mem₁, mem₂, hcopy₁, hcopy₂, hpasted⟩ := memcpy_wrap hslot hn (by omega)
  have hlen : (src.take n).length = n := by
    rw [List.length_take]
    omega
  exact ⟨mem₁, mem₂, hcopy₁, hcopy₂, hpasted.length,
    h.pasted hpasted (by rwa [hlen]) (by rwa [hlen])⟩

end ServerKit.Window
