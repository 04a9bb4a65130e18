import Mathlib.Data.List.Basic
import Mathlib.Tactic.Common

/-! # The base64 encoding

The standard encoding writes three bytes as four digits of six bits each, the
first byte first. A last group of one or two bytes is filled up with `=`. Reading
the groups back shows that different byte strings have different encodings. -/

namespace ServerKit.Base64

/-- The character of a six-bit value: `A-Z`, `a-z`, `0-9`, `+` and `/`. -/
def digit (n : ℕ) : UInt8 :=
  if n < 26 then .ofNat (65 + n)
  else if n < 52 then .ofNat (97 + (n - 26))
  else if n < 62 then .ofNat (48 + (n - 52))
  else if n = 62 then 43
  else 47

/-- The six-bit value of a character. -/
def value (c : UInt8) : ℕ :=
  if 97 ≤ c.toNat then c.toNat - 97 + 26
  else if 65 ≤ c.toNat then c.toNat - 65
  else if 48 ≤ c.toNat then c.toNat - 48 + 52
  else if c.toNat = 43 then 62
  else 63

/-- The filler `=`. -/
def pad : UInt8 := 61

/-- The encoding of a byte string. -/
def encode : List UInt8 → List UInt8
  | [] => []
  | [a] => [digit (a.toNat / 4), digit (a.toNat % 4 * 16), pad, pad]
  | [a, b] =>
    [digit (a.toNat / 4), digit (a.toNat % 4 * 16 + b.toNat / 16), digit (b.toNat % 16 * 4), pad]
  | a :: b :: c :: rest =>
    digit (a.toNat / 4) :: digit (a.toNat % 4 * 16 + b.toNat / 16) ::
      digit (b.toNat % 16 * 4 + c.toNat / 64) :: digit (c.toNat % 64) :: encode rest

/-- Reads the groups of an encoding back. -/
def decode : List UInt8 → List UInt8
  | w :: x :: y :: z :: rest =>
    if y = pad then [.ofNat (value w * 4 + value x / 16)]
    else if z = pad then
      [.ofNat (value w * 4 + value x / 16), .ofNat (value x % 16 * 16 + value y / 4)]
    else
      .ofNat (value w * 4 + value x / 16) :: .ofNat (value x % 16 * 16 + value y / 4) ::
        .ofNat (value y % 4 * 64 + value z) :: decode rest
  | _ => []

theorem value_digit : ∀ n < 64, value (digit n) = n := by
  decide

theorem digit_ne_pad : ∀ n < 64, digit n ≠ pad := by
  decide

theorem digit_ne_zero : ∀ n < 64, digit n ≠ 0 := by
  decide

theorem ofNat_eq (a : UInt8) {n : ℕ} (h : n = a.toNat) : UInt8.ofNat n = a := by
  rw [h, UInt8.ofNat_toNat]

/-- Decoding undoes the encoding. -/
theorem decode_encode (xs : List UInt8) : decode (encode xs) = xs := by
  induction xs using encode.induct with
  | case1 => rfl
  | case2 a =>
      have ha := a.toNat_lt
      have h1 := value_digit (a.toNat / 4) (by omega)
      have h2 := value_digit (a.toNat % 4 * 16) (by omega)
      simp only [encode, decode, h1, h2, if_true]
      rw [ofNat_eq a (by omega)]
  | case3 a b =>
      have ha := a.toNat_lt
      have hb := b.toNat_lt
      have h1 := value_digit (a.toNat / 4) (by omega)
      have h2 := value_digit (a.toNat % 4 * 16 + b.toNat / 16) (by omega)
      have h3 := value_digit (b.toNat % 16 * 4) (by omega)
      have hy := digit_ne_pad (b.toNat % 16 * 4) (by omega)
      simp only [encode, decode, h1, h2, h3, hy, if_true, if_false]
      rw [ofNat_eq a (by omega), ofNat_eq b (by omega)]
  | case4 a b c rest ih =>
      have ha := a.toNat_lt
      have hb := b.toNat_lt
      have hc := c.toNat_lt
      have h1 := value_digit (a.toNat / 4) (by omega)
      have h2 := value_digit (a.toNat % 4 * 16 + b.toNat / 16) (by omega)
      have h3 := value_digit (b.toNat % 16 * 4 + c.toNat / 64) (by omega)
      have h4 := value_digit (c.toNat % 64) (by omega)
      have hy := digit_ne_pad (b.toNat % 16 * 4 + c.toNat / 64) (by omega)
      have hz := digit_ne_pad (c.toNat % 64) (by omega)
      simp only [encode, decode, h1, h2, h3, h4, hy, hz, if_false, ih]
      rw [ofNat_eq a (by omega), ofNat_eq b (by omega), ofNat_eq c (by omega)]

example : encode [77, 97] = [84, 87, 69, 61] := by decide

/-- Different byte strings have different encodings. -/
theorem encode_injective : Function.Injective encode :=
  Function.LeftInverse.injective decode_encode

theorem length_encode (xs : List UInt8) : (encode xs).length = 4 * ((xs.length + 2) / 3) := by
  induction xs using encode.induct with
  | case1 => rfl
  | case2 a => simp [encode]
  | case3 a b => simp [encode]
  | case4 a b c rest ih =>
      simp only [encode, List.length_cons, ih]
      omega

/-- An encoding has no zero byte in it. -/
theorem zero_not_mem_encode (xs : List UInt8) : (0 : UInt8) ∉ encode xs := by
  have hpad : (0 : UInt8) ≠ pad := by decide
  induction xs using encode.induct with
  | case1 => exact List.not_mem_nil
  | case2 a =>
      have ha := a.toNat_lt
      simp only [encode, List.mem_cons, List.not_mem_nil, not_or, or_false]
      exact ⟨(digit_ne_zero _ (by omega)).symm, (digit_ne_zero _ (by omega)).symm, hpad, hpad⟩
  | case3 a b =>
      have ha := a.toNat_lt
      have hb := b.toNat_lt
      simp only [encode, List.mem_cons, List.not_mem_nil, not_or, or_false]
      exact ⟨(digit_ne_zero _ (by omega)).symm, (digit_ne_zero _ (by omega)).symm,
        (digit_ne_zero _ (by omega)).symm, hpad⟩
  | case4 a b c rest ih =>
      have ha := a.toNat_lt
      have hb := b.toNat_lt
      have hc := c.toNat_lt
      simp only [encode, List.mem_cons, not_or]
      exact ⟨(digit_ne_zero _ (by omega)).symm, (digit_ne_zero _ (by omega)).symm,
        (digit_ne_zero _ (by omega)).symm, (digit_ne_zero _ (by omega)).symm, ih⟩

end ServerKit.Base64
