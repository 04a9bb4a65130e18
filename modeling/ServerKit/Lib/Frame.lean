import Mathlib.Data.List.Basic
import Mathlib.Data.Nat.ModEq
import Mathlib.Tactic.Common

/-! # The frames of RFC 6455

Two bytes, a longer payload length of two or eight bytes, a masking key of four bytes, and the
payload. What the mask bit says about the payload decides what a reader gets. -/

namespace ServerKit.Frame

/-! ## Numbers with the most significant byte first -/

def bigEndian : ℕ → ℕ → List UInt8
  | 0, _ => []
  | k + 1, n => .ofNat (n / 256 ^ k) :: bigEndian k n

/-- The number that the bytes stand for. -/
def value : List UInt8 → ℕ
  | [] => 0
  | b :: bytes => b.toNat * 256 ^ bytes.length + value bytes

@[simp] theorem length_bigEndian (k n : ℕ) : (bigEndian k n).length = k := by
  induction k with
  | zero => rfl
  | succ k ih => rw [bigEndian, List.length_cons, ih]

theorem value_bigEndian (k n : ℕ) : value (bigEndian k n) = n % 256 ^ k := by
  induction k with
  | zero => rw [bigEndian, value, Nat.pow_zero, Nat.mod_one]
  | succ k ih =>
      rw [bigEndian, value, ih, length_bigEndian, Nat.mod_pow_succ, UInt8.toNat_ofNat',
        Nat.mul_comm, Nat.add_comm]

/-! ## Masks -/

/-- A masking key. -/
structure MaskKey where
  bytes : List UInt8
  length_eq : bytes.length = 4
  deriving DecidableEq

/-- The byte of the key for the payload byte with this index. -/
def MaskKey.byte (key : MaskKey) (i : ℕ) : UInt8 := key.bytes.getD (i % 4) 0

def MaskKey.apply (key : MaskKey) (payload : List UInt8) : List UInt8 :=
  payload.mapIdx fun i b => b ^^^ key.byte i

@[simp] theorem MaskKey.length_apply (key : MaskKey) (payload : List UInt8) :
    (key.apply payload).length = payload.length := List.length_mapIdx

theorem MaskKey.getElem?_apply (key : MaskKey) (payload : List UInt8) (i : ℕ) :
    (key.apply payload)[i]? = (payload[i]?).map (· ^^^ key.byte i) := List.getElem?_mapIdx

theorem xor_twice (b k : UInt8) : b ^^^ k ^^^ k = b := by
  rw [UInt8.xor_assoc, UInt8.xor_self, UInt8.xor_zero]

/-- Masking twice gives the payload back. -/
@[simp] theorem MaskKey.apply_apply (key : MaskKey) (payload : List UInt8) :
    key.apply (key.apply payload) = payload := by
  apply List.ext_getElem?
  intro i
  rw [key.getElem?_apply, key.getElem?_apply, Option.map_map]
  cases payload[i]? with
  | none => rfl
  | some b => exact congrArg some (xor_twice b _)

/-- A masked payload is the payload itself if the key bytes it needs are zero. -/
theorem MaskKey.apply_eq_self_iff (key : MaskKey) (payload : List UInt8) :
    key.apply payload = payload ↔ ∀ i < payload.length, key.byte i = 0 := by
  constructor
  · intro h i hi
    have hget := key.getElem?_apply payload i
    rw [h, List.getElem?_eq_getElem hi, Option.map_some, Option.some.injEq] at hget
    have hxor : payload[i] ^^^ (payload[i] ^^^ key.byte i) = 0 := by
      rw [← hget]
      exact UInt8.xor_self
    rwa [← UInt8.xor_assoc, UInt8.xor_self, UInt8.zero_xor] at hxor
  · intro h
    apply List.ext_getElem?
    intro i
    rw [key.getElem?_apply]
    rcases hget : payload[i]? with _ | b
    · rfl
    · rw [Option.map_some, h i (List.getElem?_eq_some_iff.mp hget).1, UInt8.xor_zero]

/-! ## Frames -/

inductive Opcode where
  | text
  | binary
  deriving DecidableEq, Repr

def Opcode.code : Opcode → ℕ
  | .text => 1
  | .binary => 2

/-- How the payload length is written: in the seven bits of the second byte, or in the two or
eight bytes behind it. -/
inductive LengthForm where
  | seven
  | sixteen
  | sixtyFour
  deriving DecidableEq, Repr

/-- The number of bytes behind the second one. -/
def LengthForm.width : LengthForm → ℕ
  | .seven => 0
  | .sixteen => 2
  | .sixtyFour => 8

def LengthForm.bound : LengthForm → ℕ
  | .seven => 126
  | .sixteen => 2 ^ 16
  | .sixtyFour => 2 ^ 63

/-- The seven bits of the second byte. -/
def LengthForm.marker (length : ℕ) : LengthForm → ℕ
  | .seven => length
  | .sixteen => 126
  | .sixtyFour => 127

/-- A text or binary frame whose payload length fits its form. -/
structure DataFrame where
  fin : Bool
  opcode : Opcode
  form : LengthForm
  key : Option MaskKey
  payload : List UInt8
  fits : payload.length < form.bound

variable (f : DataFrame)

def DataFrame.firstByte : UInt8 := .ofNat ((if f.fin then 128 else 0) + f.opcode.code)

/-- The mask bit and the seven bits of the length. -/
def DataFrame.secondByte : UInt8 :=
  .ofNat ((if f.key.isSome then 128 else 0) + f.form.marker f.payload.length)

/-- Everything in front of the payload. -/
def DataFrame.header : List UInt8 :=
  f.firstByte :: f.secondByte :: (bigEndian f.form.width f.payload.length ++
    (f.key.map MaskKey.bytes).getD [])

/-- The payload as a reader of this header gets it. -/
def DataFrame.unmask (raw : List UInt8) : List UInt8 :=
  (f.key.map fun key => key.apply raw).getD raw

def DataFrame.encode : List UInt8 := f.header ++ f.unmask f.payload

/-- The payload length behind the first two bytes, and the bytes behind it. -/
def readLength (marker : ℕ) (bytes : List UInt8) : Option (ℕ × List UInt8) :=
  if marker < 126 then some (marker, bytes)
  else if marker = 126 then
    if 2 ≤ bytes.length then some (value (bytes.take 2), bytes.drop 2) else none
  else
    if 8 ≤ bytes.length then some (value (bytes.take 8), bytes.drop 8) else none

/-- The payload of the first `length` bytes, unmasked exactly if there is a mask. -/
def readPayload (masked : Bool) (length : ℕ) (bytes : List UInt8) :
    Option (List UInt8 × List UInt8) :=
  if masked then
    if h : 4 ≤ bytes.length ∧ length ≤ (bytes.drop 4).length then
      let key : MaskKey := ⟨bytes.take 4, List.length_take_of_le h.1⟩
      some (key.apply ((bytes.drop 4).take length), (bytes.drop 4).drop length)
    else none
  else if length ≤ bytes.length then some (bytes.take length, bytes.drop length)
  else none

/-- Reads a frame: its opcode, its payload and what comes behind it. -/
def decode : List UInt8 → Option (ℕ × List UInt8 × List UInt8)
  | b₀ :: b₁ :: bytes =>
    (readLength (b₁.toNat % 128) bytes).bind fun (length, bytes) =>
      (readPayload (128 ≤ b₁.toNat) length bytes).map fun (payload, rest) =>
        (b₀.toNat % 16, payload, rest)
  | _ => none

/-! ## Reading a frame back -/

theorem DataFrame.firstByte_mod : f.firstByte.toNat % 16 = f.opcode.code := by
  unfold DataFrame.firstByte
  cases f.opcode with
  | text => cases f.fin <;> rfl
  | binary => cases f.fin <;> rfl

theorem DataFrame.marker_lt : f.form.marker f.payload.length < 128 := by
  have hfits := f.fits
  cases hform : f.form with
  | seven =>
      rw [hform] at hfits
      exact Nat.lt_trans hfits (by decide)
  | sixteen => exact Nat.lt_of_lt_of_le (Nat.lt_succ_self 126) (by decide)
  | sixtyFour => exact Nat.lt_succ_self 127

theorem DataFrame.secondByte_toNat :
    f.secondByte.toNat = (if f.key.isSome then 128 else 0) + f.form.marker f.payload.length := by
  have hmarker := f.marker_lt
  rw [DataFrame.secondByte, UInt8.toNat_ofNat']
  split
  · omega
  · omega

theorem DataFrame.secondByte_mod : f.secondByte.toNat % 128 = f.form.marker f.payload.length := by
  have hmarker := f.marker_lt
  rw [f.secondByte_toNat]
  split
  · omega
  · omega

theorem DataFrame.masked_iff : 128 ≤ f.secondByte.toNat ↔ f.key.isSome := by
  have hmarker := f.marker_lt
  rw [f.secondByte_toNat]
  cases f.key with
  | none => simpa using hmarker
  | some key => simp

theorem DataFrame.readLength (bytes : List UInt8) :
    readLength (f.form.marker f.payload.length)
      (bigEndian f.form.width f.payload.length ++ bytes) = some (f.payload.length, bytes) := by
  have hfits := f.fits
  cases hform : f.form with
  | seven =>
      rw [hform] at hfits
      have hlt : f.payload.length < 126 := hfits
      simp [Frame.readLength, LengthForm.marker, LengthForm.width, bigEndian, hlt]
  | sixteen =>
      rw [hform] at hfits
      have hvalue := value_bigEndian 2 f.payload.length
      have hmod : f.payload.length % 256 ^ 2 = f.payload.length := Nat.mod_eq_of_lt hfits
      rw [hmod] at hvalue
      simp [Frame.readLength, LengthForm.marker, LengthForm.width, hvalue]
  | sixtyFour =>
      rw [hform] at hfits
      have hvalue := value_bigEndian 8 f.payload.length
      have hlt : f.payload.length < 256 ^ 8 := Nat.lt_trans hfits (by decide)
      rw [Nat.mod_eq_of_lt hlt] at hvalue
      simp [Frame.readLength, LengthForm.marker, LengthForm.width, hvalue]

/-- What a reader finds behind the header of a frame, whatever is there. -/
theorem DataFrame.decode_header (raw rest : List UInt8) (hraw : raw.length = f.payload.length) :
    decode (f.header ++ (raw ++ rest)) = some (f.opcode.code, f.unmask raw, rest) := by
  rw [DataFrame.header, List.cons_append, List.cons_append, decode, f.secondByte_mod,
    List.append_assoc, f.readLength, Option.bind_some, f.firstByte_mod]
  cases hkey : f.key with
  | none =>
      have hmasked : ¬ 128 ≤ f.secondByte.toNat := by simp [f.masked_iff, hkey]
      simp [readPayload, hmasked, DataFrame.unmask, hkey, ← hraw]
  | some key =>
      have hmasked : 128 ≤ f.secondByte.toNat := by simp [f.masked_iff, hkey]
      have hlen := key.length_eq
      simp [readPayload, hmasked, DataFrame.unmask, hkey, ← hraw, ← hlen]

theorem DataFrame.unmask_unmask (raw : List UInt8) : f.unmask (f.unmask raw) = raw := by
  unfold DataFrame.unmask
  cases f.key with
  | none => rfl
  | some key => exact key.apply_apply raw

@[simp] theorem DataFrame.length_unmask (raw : List UInt8) :
    (f.unmask raw).length = raw.length := by
  unfold DataFrame.unmask
  cases f.key with
  | none => rfl
  | some key => exact key.length_apply raw

/-- Reading a frame gives its opcode and its payload. -/
theorem DataFrame.decode_encode (rest : List UInt8) :
    decode (f.encode ++ rest) = some (f.opcode.code, f.payload, rest) := by
  rw [DataFrame.encode, List.append_assoc, f.decode_header _ rest (f.length_unmask _),
    f.unmask_unmask]

end ServerKit.Frame
