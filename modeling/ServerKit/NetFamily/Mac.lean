import Mathlib.Data.Nat.Digits.Defs
import ServerKit.Lib.CString

/-! # Hardware addresses as text

`str2mac` of `net_family.c`. It reads groups of hexadecimal digits, and stops at the first
character that is neither a digit nor a colon. -/

namespace ServerKit.NetFamily

open ServerKit.Memory ServerKit.CString

/-- The branches of `str2mac` for a character other than a colon: the value of `temp`, or the
`break`. -/
def digit (temp : UInt8) : Option UInt8 :=
  if temp ≤ '9'.toUInt8 ∧ temp ≥ '0'.toUInt8 then some (temp - '0'.toUInt8)
  else if temp ≤ 'f'.toUInt8 ∧ temp ≥ 'a'.toUInt8 then some (temp - 'a'.toUInt8 + 10)
  else if temp ≤ 'F'.toUInt8 ∧ temp ≥ 'A'.toUInt8 then some (temp - 'A'.toUInt8 + 10)
  else none

/-- The loop of `str2mac` from `p` on. Its condition compares the pointer with zero and always
holds; reading behind the memory of the text has no result. The `int` `i`, which counts the groups,
is a natural number. -/
def str2macLoop (mac : List UInt8) (value : UInt8) (i : ℕ) : List UInt8 → Option (List UInt8)
  | [] => none
  | c :: p =>
    if c = ':'.toUInt8 then
      (store mac i [value]).bind fun mac => str2macLoop mac 0 (i + 1) p
    else
      match digit c with
      | some temp => str2macLoop mac (value <<< 4 ||| temp) i p
      | none => store mac i [value]

/-- `str2mac`: the memory behind `mac` afterwards. -/
def str2mac (mac str : List UInt8) : Option (List UInt8) := str2macLoop mac 0 0 str

/-! ## Groups of digits -/

/-- A hexadecimal digit, as an upper-case or a lower-case character. -/
structure HexDigit where
  value : Fin 16
  upper : Bool

def HexDigit.char (d : HexDigit) : UInt8 :=
  if d.upper then (ofString "0123456789ABCDEF").getD d.value 0
  else (ofString "0123456789abcdef").getD d.value 0

/-- The number that a group of digits stands for. -/
def groupValue (group : List HexDigit) : ℕ :=
  Nat.ofDigits 16 (group.reverse.map fun d => d.value.val)

/-- The groups with colons between them. -/
def joinGroups (groups : List (List HexDigit)) : List UInt8 :=
  [':'.toUInt8].intercalate (groups.map fun group => group.map HexDigit.char)

/-- The two digits of a byte. -/
def byteDigits (upper : Bool) (b : UInt8) : List HexDigit :=
  [⟨⟨b.toNat / 16, Nat.div_lt_of_lt_mul b.toNat_lt⟩, upper⟩,
    ⟨⟨b.toNat % 16, Nat.mod_lt _ (by decide)⟩, upper⟩]

/-- An address in the usual format, such as `00:50:56:33:1c:ca`. -/
def formatMac (upper : Bool) (addr : List UInt8) : List UInt8 :=
  joinGroups (addr.map (byteDigits upper))

theorem digit_char (d : HexDigit) : digit d.char = some (UInt8.ofNat d.value) := by
  obtain ⟨value, upper⟩ := d
  revert value upper
  decide

theorem char_ne_colon (d : HexDigit) : d.char ≠ ':'.toUInt8 := by
  obtain ⟨value, upper⟩ := d
  revert value upper
  decide

/-- Every other character ends the loop. -/
theorem digit_eq_none {e : UInt8} (h : ∀ d : HexDigit, d.char ≠ e) : digit e = none := by
  have hall : ∀ n : Fin 256, (digit (.ofNat n)).isSome →
      ∃ value : Fin 16, ∃ upper, HexDigit.char ⟨value, upper⟩ = .ofNat n := by decide +kernel
  by_contra hsome
  have hdigit := hall ⟨e.toNat, e.toNat_lt⟩
  rw [UInt8.ofNat_toNat] at hdigit
  obtain ⟨value, upper, hchar⟩ := hdigit (Option.isSome_iff_ne_none.mpr hsome)
  exact h _ hchar

/-- A character without a value is no digit. -/
theorem char_ne {e : UInt8} (h : digit e = none) (d : HexDigit) : d.char ≠ e := by
  rintro rfl
  rw [digit_char] at h
  cases h

/-! ## The loop -/

/-- `value <<= 4; value |= temp`, which loses the upper half of `value`. -/
theorem shiftLeft_or_digit (n : ℕ) (d : Fin 16) :
    (UInt8.ofNat n <<< 4 ||| UInt8.ofNat d : UInt8) = UInt8.ofNat (d + 16 * n) := by
  have hd := d.isLt
  have hlow : d.val < 2 ^ 4 := by omega
  apply UInt8.toNat_inj.mp
  rw [UInt8.toNat_or, UInt8.toNat_shiftLeft, UInt8.toNat_ofNat', UInt8.toNat_ofNat',
    UInt8.toNat_ofNat']
  have hshift : (n % 2 ^ 8) <<< ((4 : UInt8).toNat % 8) % 2 ^ 8 = (n % 16) <<< 4 := by
    show (n % 2 ^ 8) <<< 4 % 2 ^ 8 = (n % 16) <<< 4
    rw [Nat.shiftLeft_eq, Nat.shiftLeft_eq]
    omega
  rw [hshift, Nat.mod_eq_of_lt (by omega : d.val < 2 ^ 8), ← Nat.shiftLeft_add_eq_or_of_lt hlow,
    Nat.shiftLeft_eq]
  omega

theorem groupValue_append (group : List HexDigit) (d : HexDigit) :
    groupValue (group ++ [d]) = d.value + 16 * groupValue group := by
  simp [groupValue, Nat.ofDigits_cons]

/-- The digits of a group go into `value`. -/
theorem str2macLoop_digits (mac : List UInt8) (i : ℕ) (read group : List HexDigit)
    (p : List UInt8) :
    str2macLoop mac (.ofNat (groupValue read)) i (group.map HexDigit.char ++ p) =
      str2macLoop mac (.ofNat (groupValue (read ++ group))) i p := by
  induction group generalizing read with
  | nil => rw [List.map_nil, List.nil_append, List.append_nil]
  | cons d group ih =>
      rw [List.map_cons, List.cons_append, str2macLoop, if_neg (char_ne_colon d), digit_char]
      simp only [shiftLeft_or_digit, ← groupValue_append]
      rw [ih, List.append_assoc, List.singleton_append]

theorem joinGroups_cons_cons (group next : List HexDigit) (groups : List (List HexDigit)) :
    joinGroups (group :: next :: groups) =
      group.map HexDigit.char ++ ':'.toUInt8 :: joinGroups (next :: groups) := by
  simp [joinGroups, List.intercalate_cons_cons]

/-- The loop from the start of a group on, with `i` bytes of `mac` written. -/
theorem str2macLoop_groups {e : UInt8} (hdigit : ∀ d : HexDigit, d.char ≠ e)
    (hcolon : e ≠ ':'.toUInt8) (rest : List UInt8) (group : List HexDigit)
    (groups : List (List HexDigit)) (mac : List UInt8) (i : ℕ) :
    str2macLoop mac 0 i (joinGroups (group :: groups) ++ e :: rest) =
      store mac i ((group :: groups).map fun group => .ofNat (groupValue group)) := by
  induction groups generalizing group mac i with
  | nil =>
      have hread := str2macLoop_digits mac i [] group (e :: rest)
      have hjoin : joinGroups [group] = group.map HexDigit.char := by simp [joinGroups]
      rw [hjoin]
      refine hread.trans ?_
      rw [str2macLoop, if_neg hcolon, digit_eq_none hdigit]
      rfl
  | cons next groups ih =>
      have hread := str2macLoop_digits mac i [] group
        (':'.toUInt8 :: (joinGroups (next :: groups) ++ e :: rest))
      rw [joinGroups_cons_cons, List.append_assoc, List.cons_append]
      refine hread.trans ?_
      rw [str2macLoop, if_pos rfl]
      simp only [ih]
      exact (store_append mac [_] _ i).symm

theorem str2mac_joinGroups {e : UInt8} (hdigit : ∀ d : HexDigit, d.char ≠ e)
    (hcolon : e ≠ ':'.toUInt8) (rest mac : List UInt8) {groups : List (List HexDigit)}
    (hne : groups ≠ []) :
    str2mac mac (joinGroups groups ++ e :: rest) =
      store mac 0 (groups.map fun group => .ofNat (groupValue group)) := by
  cases groups with
  | nil => exact absurd rfl hne
  | cons group groups => exact str2macLoop_groups hdigit hcolon rest group groups mac 0

/-- The two digits of a byte stand for it. -/
theorem groupValue_byteDigits (upper : Bool) (b : UInt8) :
    UInt8.ofNat (groupValue (byteDigits upper b)) = b := by
  have hvalue : groupValue (byteDigits upper b) = b.toNat := by
    simp only [groupValue, byteDigits, List.reverse_cons, List.reverse_nil, List.nil_append,
      List.cons_append, List.map_cons, List.map_nil, Nat.ofDigits_cons, Nat.ofDigits_nil]
    omega
  rw [hvalue, UInt8.ofNat_toNat]

theorem map_groupValue_byteDigits (upper : Bool) (addr : List UInt8) :
    (addr.map (byteDigits upper)).map (fun group => UInt8.ofNat (groupValue group)) = addr := by
  rw [List.map_map]
  exact List.map_id'' (groupValue_byteDigits upper) addr

/-- **Hardware addresses.** For groups of digits with colons between them, ended by any other
character, `str2mac` stores their values modulo 256 at the start of `mac`, and nothing else. So it
reads back the usual format of an address. -/
theorem str2mac_groups :
    (∀ (groups : List (List HexDigit)) (e : UInt8) (rest mac : List UInt8), groups ≠ [] →
      (∀ d : HexDigit, d.char ≠ e) → e ≠ ':'.toUInt8 →
      str2mac mac (joinGroups groups ++ e :: rest) =
        if groups.length ≤ mac.length then
          some ((groups.map fun group => .ofNat (groupValue group)) ++ mac.drop groups.length)
        else none) ∧
      ∀ (addr : List UInt8) (upper : Bool) (e : UInt8) (rest mac : List UInt8),
        addr.length = 6 → 6 ≤ mac.length → (∀ d : HexDigit, d.char ≠ e) → e ≠ ':'.toUInt8 →
        str2mac mac (formatMac upper addr ++ e :: rest) = some (addr ++ mac.drop 6) := by
  constructor
  · intro groups e rest mac hne hdigit hcolon
    rw [str2mac_joinGroups hdigit hcolon rest mac hne, store, List.length_map, Nat.zero_add]
    rfl
  · intro addr upper e rest mac hlen hmac hdigit hcolon
    have hne : addr.map (byteDigits upper) ≠ [] := by
      rw [ne_eq, List.map_eq_nil_iff]
      rintro rfl
      cases hlen
    rw [formatMac, str2mac_joinGroups hdigit hcolon rest mac hne, map_groupValue_byteDigits,
      store_eq_some (by omega), hlen]
    rfl

/-- The address that `main` answers with. -/
def ownMac : List UInt8 := [0x00, 0x50, 0x56, 0x33, 0x1c, 0xca]

theorem str2mac_groups_ownMac :
    (∀ mac : List UInt8, 6 ≤ mac.length →
      str2mac mac (ofString "00:50:56:33:1c:ca" ++ [0]) = some (ownMac ++ mac.drop 6)) ∧
      str2mac (zeros 3) (ofString "1ff::7-" ++ [0]) = some [0xff, 0, 7] := by
  constructor
  · intro mac hmac
    exact str2mac_groups.2 ownMac false 0 [] mac rfl hmac (char_ne (by decide)) (by decide)
  · exact str2mac_groups.1 [[⟨1, false⟩, ⟨15, false⟩, ⟨15, false⟩], [], [⟨7, false⟩]]
      '-'.toUInt8 [0] (zeros 3) (by decide) (char_ne (by decide)) (by decide)

end ServerKit.NetFamily
