import Mathlib.Data.List.Infix
import Mathlib.Data.List.TakeWhile
import ServerKit.Lib.Memory

/-! # C strings in bounds-checked memory

A string is what a memory area holds up to its first zero byte. A function that has to
look for that byte has no result if the area does not contain one. -/

namespace ServerKit.CString

open ServerKit.Memory

/-- The bytes in front of the first zero byte. -/
def text (mem : List UInt8) : List UInt8 := mem.takeWhile (· ≠ 0)

/-- The string at the start of an area. -/
def cstr (mem : List UInt8) : Option (List UInt8) := if 0 ∈ mem then some (text mem) else none

def strlen (mem : List UInt8) : Option ℕ := (cstr mem).map List.length

/-- Whether `strstr` finds the needle. -/
def strstr (mem needle : List UInt8) : Option Bool :=
  (cstr mem).map fun s => decide (needle <:+: s)

def strcat (dst src : List UInt8) : Option (List UInt8) :=
  (strlen dst).bind fun n => store dst n (src ++ [0])

/-- The characters of a string literal. -/
def ofString (s : String) : List UInt8 := s.toList.map fun c => .ofNat c.toNat

/-- An area of zero bytes. -/
def zeros (n : ℕ) : List UInt8 := .replicate n 0

@[simp] theorem length_zeros (n : ℕ) : (zeros n).length = n := List.length_replicate

@[simp] theorem zeros_drop (n k : ℕ) : (zeros n).drop k = zeros (n - k) := List.drop_replicate

theorem zeros_succ (n : ℕ) : zeros (n + 1) = 0 :: zeros n := rfl

theorem zeros_cons {n : ℕ} (h : 0 < n) : zeros n = 0 :: zeros (n - 1) := by
  rw [← zeros_succ, Nat.sub_add_cancel h]

theorem text_isPrefix (mem : List UInt8) : text mem <+: mem := List.takeWhile_prefix _

theorem zero_not_mem_text (mem : List UInt8) : (0 : UInt8) ∉ text mem := by
  intro h
  simpa using List.mem_takeWhile_imp h

/-- The byte behind the string is the zero byte. -/
theorem getElem?_length_text {mem : List UInt8} {b : UInt8}
    (h : mem[(text mem).length]? = some b) : b = 0 := by
  induction mem with
  | nil => simp [text] at h
  | cons c mem ih =>
      unfold text at *
      by_cases hc : c = 0
      · simp only [hc, List.takeWhile_cons, ne_eq, not_true_eq_false, decide_false,
          Bool.false_eq_true, if_false, List.length_nil, List.getElem?_cons_zero,
          Option.some.injEq] at h
        exact h.symm
      · simp only [hc, List.takeWhile_cons, ne_eq, not_false_eq_true, decide_true, if_true,
          List.length_cons, List.getElem?_cons_succ] at h
        exact ih h

/-- A zero byte lies behind the string. -/
theorem text_length_lt {mem : List UInt8} (h : (0 : UInt8) ∈ mem) :
    (text mem).length < mem.length := by
  refine lt_of_le_of_ne (text_isPrefix mem).length_le ?_
  intro heq
  have hnot := zero_not_mem_text mem
  rw [(text_isPrefix mem).eq_of_length heq] at hnot
  exact hnot h

/-- Nothing behind a zero byte belongs to the string. -/
theorem text_append_cons (s rest : List UInt8) : text (s ++ 0 :: rest) = text s := by
  induction s with
  | nil => rfl
  | cons b s ih =>
      unfold text at *
      by_cases hb : b = 0
      · simp [hb]
      · simp only [List.cons_append, List.takeWhile_cons, hb, ne_eq, not_false_eq_true,
          decide_true, if_true, ih]

theorem text_eq_self {s : List UInt8} : text s = s ↔ (0 : UInt8) ∉ s := by
  unfold text
  rw [List.takeWhile_eq_self_iff]
  constructor
  · intro h h0
    simpa using h 0 h0
  · intro h b hb
    apply decide_eq_true
    intro h0
    exact h (h0 ▸ hb)

/-- A string stored with its final zero byte. -/
theorem text_append {s : List UInt8} (hs : (0 : UInt8) ∉ s) (rest : List UInt8) :
    text (s ++ 0 :: rest) = s := by
  rw [text_append_cons, text_eq_self.mpr hs]

theorem cstr_append {s : List UInt8} (hs : (0 : UInt8) ∉ s) (rest : List UInt8) :
    cstr (s ++ 0 :: rest) = some s := by
  unfold cstr
  rw [if_pos (by simp), text_append hs]

theorem strlen_append {s : List UInt8} (hs : (0 : UInt8) ∉ s) (rest : List UInt8) :
    strlen (s ++ 0 :: rest) = some s.length := by
  rw [strlen, cstr_append hs, Option.map_some]

theorem strstr_append {s : List UInt8} (hs : (0 : UInt8) ∉ s) (rest needle : List UInt8) :
    strstr (s ++ 0 :: rest) needle = some (decide (needle <:+: s)) := by
  rw [strstr, cstr_append hs, Option.map_some]

theorem cstr_append_zeros (s : List UInt8) {n : ℕ} (h : 0 < n) :
    cstr (s ++ zeros n) = some (text s) := by
  unfold cstr
  rw [zeros_cons h, if_pos (List.mem_append_right _ List.mem_cons_self), text_append_cons]

/-- Writing to the start of an area of zero bytes. -/
theorem store_zeros {s : List UInt8} {n : ℕ} (h : s.length ≤ n) :
    store (zeros n) 0 s = some (s ++ zeros (n - s.length)) := by
  rw [store_eq_some (by simpa using h)]
  simp

/-- Appending within an area. -/
theorem strcat_append {s src rest : List UInt8} (hs : (0 : UInt8) ∉ s)
    (h : src.length ≤ rest.length) :
    strcat (s ++ 0 :: rest) src = some (s ++ src ++ 0 :: rest.drop src.length) := by
  rw [strcat, strlen_append hs, Option.bind_some, store_eq_some (by simp; omega)]
  simp

end ServerKit.CString
