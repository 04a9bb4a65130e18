import Mathlib.Data.List.Basic
import Mathlib.Tactic.Common

/-! # Bounds-checked memory

A memory area is the list of its cells. Reading or writing past its end has no
result, so an operation that returns a value has stayed inside the area. -/

namespace ServerKit.Memory

variable {β : Type*}

/-- The `n` cells from `off` on. -/
def load (mem : List β) (off n : ℕ) : Option (List β) :=
  if off + n ≤ mem.length then some ((mem.drop off).take n) else none

/-- Overwrites the cells from `off` on with `xs`. -/
def store (mem : List β) (off : ℕ) (xs : List β) : Option (List β) :=
  if off + xs.length ≤ mem.length then
    some (mem.take off ++ xs ++ mem.drop (off + xs.length))
  else none

/-- `memcpy(dst + doff, src + soff, n)` between two areas that do not overlap. -/
def memcpy (dst : List β) (doff : ℕ) (src : List β) (soff n : ℕ) : Option (List β) :=
  (load src soff n).bind (store dst doff)

theorem load_eq_some {mem : List β} {off n : ℕ} (h : off + n ≤ mem.length) :
    load mem off n = some ((mem.drop off).take n) := by
  simp [load, h]

theorem store_eq_some {mem xs : List β} {off : ℕ} (h : off + xs.length ≤ mem.length) :
    store mem off xs = some (mem.take off ++ xs ++ mem.drop (off + xs.length)) := by
  simp [store, h]

@[simp] theorem load_zero {mem : List β} {off : ℕ} (h : off ≤ mem.length) :
    load mem off 0 = some [] := by
  simp [load, h]

@[simp] theorem store_nil {mem : List β} {off : ℕ} (h : off ≤ mem.length) :
    store mem off [] = some mem := by
  simp [store, h]

theorem store_length {mem xs mem' : List β} {off : ℕ} (h : store mem off xs = some mem') :
    mem'.length = mem.length := by
  unfold store at h
  split at h
  · cases h
    simp
    omega
  · cases h

/-- A written area reads back as the new cells inside the window and as the old
ones outside of it. -/
theorem store_getElem? {mem xs mem' : List β} {off : ℕ} (h : store mem off xs = some mem')
    (j : ℕ) :
    mem'[j]? = if off ≤ j ∧ j < off + xs.length then xs[j - off]? else mem[j]? := by
  unfold store at h
  split at h
  · rename_i hfit
    cases h
    have htake : (mem.take off).length = off := by
      simp
      omega
    by_cases hlow : j < off
    · rw [if_neg (by omega), List.append_assoc, List.getElem?_append_left (by omega)]
      exact List.getElem?_take_of_lt hlow
    · rw [List.append_assoc, List.getElem?_append_right (by omega), htake]
      by_cases hmid : j < off + xs.length
      · rw [if_pos ⟨by omega, hmid⟩, List.getElem?_append_left (by omega)]
      · rw [if_neg (by omega), List.getElem?_append_right (by omega), List.getElem?_drop]
        congr 1
        omega
  · cases h

theorem store_single_getElem? {mem mem' : List β} {off : ℕ} {b : β}
    (h : store mem off [b] = some mem') (j : ℕ) :
    mem'[j]? = if j = off then some b else mem[j]? := by
  rw [store_getElem? h]
  by_cases hj : j = off
  · simp [hj]
  · rw [if_neg hj, if_neg]
    simp only [List.length_singleton]
    omega

theorem memcpy_eq_store {dst src : List β} {doff soff n : ℕ} (h : soff + n ≤ src.length) :
    memcpy dst doff src soff n = store dst doff ((src.drop soff).take n) := by
  simp [memcpy, load_eq_some h]

theorem load_length {mem xs : List β} {off n : ℕ} (h : load mem off n = some xs) :
    xs.length = n := by
  unfold load at h
  split at h
  · rename_i hfit
    cases h
    simp only [List.length_take, List.length_drop]
    omega
  · cases h

/-- What a successful write leaves in front of the end of the new cells. -/
theorem store_take {mem xs mem' : List β} {off : ℕ} (h : store mem off xs = some mem') :
    mem'.take (off + xs.length) = mem.take off ++ xs := by
  unfold store at h
  split at h
  · rename_i hfit
    cases h
    have htake : (mem.take off ++ xs).length = off + xs.length := by
      simp only [List.length_append, List.length_take]
      omega
    rw [← htake, List.take_left]
  · cases h

/-- Two writes to neighbouring cells are one. -/
theorem store_append (mem xs ys : List β) (off : ℕ) :
    store mem off (xs ++ ys) =
      (store mem off xs).bind fun mem => store mem (off + xs.length) ys := by
  cases hxs : store mem off xs with
  | none =>
      have hlong : ¬ off + xs.length ≤ mem.length := by
        intro hfits
        rw [store_eq_some hfits] at hxs
        cases hxs
      rw [Option.bind_none, store, if_neg]
      rw [List.length_append]
      omega
  | some mem' =>
      have hlen := store_length hxs
      have htake := store_take hxs
      have hfits : off + (xs ++ ys).length ≤ mem.length ↔
          off + xs.length + ys.length ≤ mem'.length := by
        rw [hlen, List.length_append, Nat.add_assoc]
      have hdrop : mem'.drop (off + xs.length + ys.length) =
          mem.drop (off + (xs ++ ys).length) := by
        apply List.ext_getElem?
        intro i
        rw [List.getElem?_drop, List.getElem?_drop, store_getElem? hxs, if_neg (by omega)]
        simp only [List.length_append, Nat.add_assoc]
      rw [Option.bind_some, store, store, htake, hdrop]
      simp only [hfits, List.append_assoc]

theorem load_isSome {mem : List β} {off n : ℕ} :
    (load mem off n).isSome ↔ off + n ≤ mem.length := by
  unfold load
  split
  · rename_i h
    exact iff_of_true rfl h
  · rename_i h
    exact iff_of_false (by simp) h

theorem store_isSome {mem xs : List β} {off : ℕ} :
    (store mem off xs).isSome ↔ off + xs.length ≤ mem.length := by
  unfold store
  split
  · rename_i h
    exact iff_of_true rfl h
  · rename_i h
    exact iff_of_false (by simp) h

/-- Reading from the front part of an area. -/
theorem load_take {mem : List β} {off n k : ℕ} (h : off + n ≤ k) :
    load (mem.take k) off n = load mem off n := by
  unfold load
  have hfits : off + n ≤ (mem.take k).length ↔ off + n ≤ mem.length := by
    rw [List.length_take]
    omega
  simp only [hfits, List.drop_take, List.take_take]
  rw [Nat.min_eq_left (by omega)]

/-- What has been written is read. -/
theorem load_store_self {mem xs mem' : List β} {off : ℕ} (h : store mem off xs = some mem') :
    load mem' off xs.length = some xs := by
  have hfits : off + xs.length ≤ mem.length := by
    rw [← store_isSome, h]
    rfl
  have htake : (mem.take off).length = off := by
    rw [List.length_take]
    omega
  rw [load_eq_some (by rwa [store_length h]), List.take_drop, store_take h,
    List.drop_left' htake]

/-- A write somewhere else does not matter. -/
theorem load_store_apart {mem xs mem' : List β} {off : ℕ} (h : store mem off xs = some mem')
    {off' n : ℕ} (hapart : off' + n ≤ off ∨ off + xs.length ≤ off') :
    load mem' off' n = load mem off' n := by
  unfold load
  rw [store_length h]
  split
  · congr 1
    apply List.ext_getElem?
    intro i
    rw [List.getElem?_take, List.getElem?_take, List.getElem?_drop, List.getElem?_drop]
    split
    · rw [store_getElem? h, if_neg (by omega)]
    · rfl
  · rfl

/-- A copy that fills the whole area. -/
theorem memcpy_full {dst src : List β} {n : ℕ} (hsrc : n ≤ src.length) (hdst : dst.length = n) :
    memcpy dst 0 src 0 n = some (src.take n) := by
  have htake : (src.take n).length = n := List.length_take_of_le hsrc
  rw [memcpy_eq_store (by omega), List.drop_zero, store_eq_some (by omega), htake, Nat.zero_add,
    List.drop_eq_nil_of_le (by omega), List.append_nil]
  rfl

theorem memcpy_length {dst src mem : List β} {doff soff n : ℕ}
    (h : memcpy dst doff src soff n = some mem) : mem.length = dst.length := by
  rcases Option.bind_eq_some_iff.mp h with ⟨xs, -, hstore⟩
  exact store_length hstore

/-- A copy within both areas has a result. -/
theorem exists_memcpy (dst : List β) (doff : ℕ) (src : List β) (soff : ℕ) {n : ℕ}
    (hsrc : soff + n ≤ src.length) (hdst : doff + n ≤ dst.length) :
    ∃ mem, memcpy dst doff src soff n = some mem ∧ mem.length = dst.length := by
  have hlen : ((src.drop soff).take n).length = n := by
    simp only [List.length_take, List.length_drop]
    omega
  have hstore : store dst doff ((src.drop soff).take n) =
      some (dst.take doff ++ (src.drop soff).take n ++
        dst.drop (doff + ((src.drop soff).take n).length)) :=
    store_eq_some (by omega)
  rw [memcpy_eq_store hsrc]
  exact ⟨_, hstore, store_length hstore⟩

end ServerKit.Memory
