import ServerKit.CJson.Parse

/-! # The two loops of `parse_string`

The first loop counts at least as many bytes as the second one stores. The second one turns the
code units of UTF-16 behind `\u` into UTF-8. -/

namespace ServerKit.CJson

open ServerKit.Json

/-! ## UTF-8 -/

theorem continuation_byte (uc : ℕ) :
    UInt8.ofNat ((uc ||| 0x80) &&& 0xBF) = UInt8.ofNat (uc % 64 + 128) := by
  have hbyte : ∀ n : Fin 256, (UInt8.ofNat n ||| 0x80) &&& 0xBF = UInt8.ofNat (n % 64 + 128) := by
    decide +kernel
  have hmod := hbyte ⟨uc % 256, Nat.mod_lt _ (by decide)⟩
  have hsame : UInt8.ofNat (uc % 256) = UInt8.ofNat uc := UInt8.ofNat_mod_size
  rw [hsame, Nat.mod_mod_of_dvd _ (by decide)] at hmod
  rw [UInt8.ofNat_and, UInt8.ofNat_or]
  exact hmod

/-- The mark of the first byte is above its other bits. -/
theorem first_byte {k n : ℕ} (hk : k ∈ [5, 4, 3]) (hn : n < 2 ^ k) :
    n ||| (256 - 2 ^ (k + 1)) = n + (256 - 2 ^ (k + 1)) := by
  have hall : ∀ k ∈ [5, 4, 3], ∀ n < 2 ^ k,
      n ||| (256 - 2 ^ (k + 1)) = n + (256 - 2 ^ (k + 1)) := by decide
  exact hall k hk n hn

/-- What is stored for a code point is its encoding. -/
theorem utf8Loop_eq (c : Char) :
    utf8Loop (utf8Length c.toNat) (utf8Length c.toNat) c.toNat [] = String.utf8EncodeChar c := by
  have hvalid : c.val.toNat < 0x110000 := by
    rcases c.valid with h | h
    · exact h.trans (by decide)
    · exact h.2
  have hle : ∀ m, c.val.toNat ≤ m ↔ c.val.toNat < m + 1 := fun m => Nat.lt_succ_iff.symm
  unfold String.utf8EncodeChar utf8Length
  simp only [Char.toNat, hle, Nat.reduceAdd]
  by_cases h₁ : c.val.toNat < 0x80
  · rw [if_pos h₁, if_pos h₁, utf8Loop]
    simp [firstByteMark]
  rw [if_neg h₁, if_neg h₁]
  by_cases h₂ : c.val.toNat < 0x800
  · have hfirst := first_byte (k := 5) (n := c.val.toNat >>> 6) (by decide)
      (by rw [Nat.shiftRight_eq_div_pow]; omega)
    rw [if_pos h₂, if_pos h₂, utf8Loop, utf8Loop, continuation_byte]
    rw [show firstByteMark 2 = 256 - 2 ^ 6 from rfl, hfirst, Nat.shiftRight_eq_div_pow,
      Nat.mod_eq_of_lt (a := c.val.toNat / 64) (by omega)]
    rfl
  rw [if_neg h₂, if_neg h₂]
  by_cases h₃ : c.val.toNat < 0x10000
  · have hfirst := first_byte (k := 4) (n := c.val.toNat >>> 6 >>> 6) (by decide)
      (by rw [← Nat.shiftRight_add, Nat.shiftRight_eq_div_pow]; omega)
    rw [if_pos h₃, if_pos h₃, utf8Loop, utf8Loop, utf8Loop, continuation_byte,
      continuation_byte]
    rw [show firstByteMark 3 = 256 - 2 ^ 5 from rfl, hfirst, ← Nat.shiftRight_add,
      Nat.shiftRight_eq_div_pow, Nat.shiftRight_eq_div_pow,
      Nat.mod_eq_of_lt (a := c.val.toNat / 4096) (by omega)]
    rfl
  · have hfirst := first_byte (k := 3) (n := c.val.toNat >>> 6 >>> 6 >>> 6) (by decide)
      (by rw [← Nat.shiftRight_add, ← Nat.shiftRight_add, Nat.shiftRight_eq_div_pow]; omega)
    rw [if_neg h₃, if_neg h₃, utf8Loop, utf8Loop, utf8Loop, utf8Loop, continuation_byte,
      continuation_byte, continuation_byte]
    rw [show firstByteMark 4 = 256 - 2 ^ 4 from rfl, hfirst]
    simp only [Nat.shiftRight_eq_div_pow, Nat.div_div_eq_div_mul]
    rw [Nat.mod_eq_of_lt (a := c.val.toNat / 262144) (by omega)]
    rfl

theorem length_utf8Loop (len k uc : ℕ) (hk : 0 < k) (out : List UInt8) :
    (utf8Loop len k uc out).length = k + out.length := by
  induction k generalizing uc out with
  | zero => exact absurd hk (Nat.lt_irrefl 0)
  | succ k ih =>
      cases k with
      | zero => rw [utf8Loop, List.length_cons, Nat.add_comm]
      | succ k =>
          rw [utf8Loop, ih _ k.succ_pos, List.length_cons]
          omega

theorem utf8Length_mem (uc : ℕ) : 0 < utf8Length uc ∧ utf8Length uc ≤ 4 := by
  unfold utf8Length
  split_ifs
  all_goals decide

/-! ## Code units -/

theorem codeUnit_eq_some {u : List UInt8} {n : ℕ} (h : codeUnit u = some n) :
    ∃ a b c d i j k l, u = [a, b, c, d] ∧ hexDigit a = some i ∧ hexDigit b = some j ∧
      hexDigit c = some k ∧ hexDigit d = some l ∧ n = ((i * 16 + j) * 16 + k) * 16 + l := by
  unfold codeUnit at h
  split at h
  · rename_i a b c d
    simp only [Option.bind_eq_bind, Option.bind_eq_some_iff, Option.pure_def,
      Option.some.injEq] at h
    obtain ⟨i, hi, j, hj, k, hk, l, hl, rfl⟩ := h
    exact ⟨a, b, c, d, i, j, k, l, rfl, hi, hj, hk, hl, rfl⟩
  · cases h

/-- A hexadecimal digit is neither a quote nor a backslash. -/
theorem hexDigit_ne {b : UInt8} {n : ℕ} (h : hexDigit b = some n) : b ≠ 34 ∧ b ≠ 92 ∧ b ≠ 0 := by
  have hquote : hexDigit 34 = none := by decide
  have hbackslash : hexDigit 92 = none := by decide
  have hzero : hexDigit 0 = none := by decide
  refine ⟨?_, ?_, ?_⟩
  · rintro rfl
    cases hquote.symm.trans h
  · rintro rfl
    cases hbackslash.symm.trans h
  · rintro rfl
    cases hzero.symm.trans h

/-- Four digits are read as a code unit. -/
theorem parseHex4_append {u : List UInt8} {n : ℕ} (h : codeUnit u = some n) (ptr : List UInt8) :
    parseHex4 (u ++ ptr) = n := by
  obtain ⟨a, b, c, d, i, j, k, l, rfl, hi, hj, hk, hl, rfl⟩ := codeUnit_eq_some h
  simp [parseHex4, hex4Loop, deref, hi, hj, hk, hl]

theorem length_codeUnit {u : List UInt8} {n : ℕ} (h : codeUnit u = some n) : u.length = 4 := by
  obtain ⟨a, b, c, d, i, j, k, l, rfl, -⟩ := codeUnit_eq_some h
  rfl

theorem lengthLoop_cons {b : UInt8} (hb : b ≠ 34 ∧ b ≠ 92 ∧ b ≠ 0) (len : ℕ) (ptr : List UInt8) :
    lengthLoop len (b :: ptr) = lengthLoop (len + 1) ptr := by
  obtain ⟨hquote, hbackslash, hzero⟩ := hb
  rw [lengthLoop.eq_def]
  simp only [hquote, hbackslash, hzero, or_self, if_false]

theorem lengthLoop_escape (e : UInt8) (len : ℕ) (ptr : List UInt8) :
    lengthLoop len (92 :: e :: ptr) = lengthLoop (len + 1) ptr := by
  rw [lengthLoop.eq_def]
  rfl

/-- The first loop counts the digits of a code unit. -/
theorem lengthLoop_codeUnit {u : List UInt8} {n : ℕ} (h : codeUnit u = some n) (len : ℕ)
    (ptr : List UInt8) : lengthLoop len (u ++ ptr) = lengthLoop (len + 4) ptr := by
  obtain ⟨a, b, c, d, i, j, k, l, rfl, hi, hj, hk, hl, -⟩ := codeUnit_eq_some h
  simp only [List.cons_append, List.nil_append]
  rw [lengthLoop_cons (hexDigit_ne hi), lengthLoop_cons (hexDigit_ne hj),
    lengthLoop_cons (hexDigit_ne hk), lengthLoop_cons (hexDigit_ne hl)]

/-! ## The loops together -/

/-- From `ptr` on the loops end at `rest`. The second one stores `bytes`, and the first one counts
`n` bytes, which are enough. -/
structure Copies (ptr : List UInt8) (n : ℕ) (bytes rest : List UInt8) : Prop where
  length : ∀ len, lengthLoop len ptr = some (len + n)
  copy : ∀ fuel out, ptr.length < fuel → copyLoop fuel out ptr = some (out ++ bytes, rest)
  fits : bytes.length ≤ n

section Steps

variable {b : UInt8} {ptr next bytes bytes' rest last : List UInt8} {n : ℕ}

theorem copies_end (h : deref ptr = 34 ∨ deref ptr = 0) : Copies ptr 0 [] ptr := by
  refine ⟨?_, ?_, Nat.le_refl 0⟩
  · intro len
    cases ptr with
    | nil => rfl
    | cons b ptr =>
        rw [lengthLoop.eq_def]
        exact if_pos h
  · intro fuel out hfuel
    obtain ⟨fuel, rfl⟩ := Nat.exists_eq_add_one_of_ne_zero (Nat.ne_zero_of_lt hfuel)
    rw [copyLoop, if_pos h, List.append_nil]

theorem Copies.plain (h : Copies ptr n bytes rest) (hb : b ≠ 34 ∧ b ≠ 92 ∧ b ≠ 0) :
    Copies (b :: ptr) (n + 1) (b :: bytes) rest := by
  refine ⟨?_, ?_, Nat.succ_le_succ h.fits⟩
  · intro len
    rw [lengthLoop_cons hb, h.length, Nat.add_right_comm, Nat.add_assoc]
  · intro fuel out hfuel
    obtain ⟨fuel, rfl⟩ := Nat.exists_eq_add_one_of_ne_zero (Nat.ne_zero_of_lt hfuel)
    have hend : ¬ (deref (b :: ptr) = 34 ∨ deref (b :: ptr) = 0) := not_or_intro hb.1 hb.2.2
    have hbackslash : deref (b :: ptr) ≠ 92 := hb.2.1
    rw [copyLoop, if_neg hend, if_pos hbackslash, List.tail_cons,
      h.copy fuel _ (Nat.lt_of_succ_lt_succ hfuel), List.append_assoc]
    rfl

/-- An escape: what `unescape` stores and where it ends, and what the first loop counts. -/
theorem Copies.escape (h : Copies next n bytes rest) {j k : ℕ}
    (hunescape : unescape ptr = some (bytes', ptr.drop j)) (hj : j < ptr.length)
    (hnext : ptr.drop (j + 1) = next)
    (hlength : ∀ len, lengthLoop len (92 :: ptr) = lengthLoop (len + k) next)
    (hk : bytes'.length ≤ k) : Copies (92 :: ptr) (n + k) (bytes' ++ bytes) rest := by
  have hadvance : advance (ptr.drop j) 1 = some next := by
    rw [advance, if_pos (by rw [List.length_drop]; omega), List.drop_drop, hnext]
  have hlen : next.length < ptr.length := by
    rw [← hnext, List.length_drop]
    omega
  refine ⟨?_, ?_, ?_⟩
  · intro len
    rw [hlength, h.length, Nat.add_assoc, Nat.add_comm k n]
  · intro fuel out hfuel
    rw [List.length_cons] at hfuel
    obtain ⟨fuel, rfl⟩ := Nat.exists_eq_add_one_of_ne_zero (Nat.ne_zero_of_lt hfuel)
    have hend : ¬ (deref (92 :: ptr) = 34 ∨ deref (92 :: ptr) = 0) :=
      not_or_intro (by decide : ¬ (92 : UInt8) = 34) (by decide : ¬ (92 : UInt8) = 0)
    have hbackslash : ¬ deref (92 :: ptr) ≠ 92 := not_not_intro rfl
    rw [copyLoop, if_neg hend, if_neg hbackslash, List.tail_cons, hunescape, Option.bind_some,
      hadvance, Option.bind_some, h.copy fuel _ (by omega), List.append_assoc]
  · have hfits := h.fits
    rw [List.length_append]
    omega

end Steps

/-! ## Escapes -/

section Escapes

variable {u v s bytes rest : List UInt8} {n uc uc2 : ℕ}

/-- An escape of one character other than `u`. -/
theorem Copies.short (h : Copies s n bytes rest) {e : UInt8} (he : e ≠ 117) :
    ∃ b, unescape (e :: s) = some ([b], e :: s) ∧
      Copies (92 :: e :: s) (n + 1) (b :: bytes) rest := by
  have hunescape : ∃ b, unescape (e :: s) = some ([b], e :: s) := by
    unfold unescape
    split_ifs with h₁ h₂ h₃ h₄ h₅ h₆
    all_goals first | exact ⟨_, rfl⟩ | exact absurd h₆ he
  obtain ⟨b, hb⟩ := hunescape
  exact ⟨b, hb, h.escape (j := 0) hb (Nat.succ_pos _) rfl (fun len => lengthLoop_escape e len s)
    (Nat.le_refl 1)⟩

/-- A code unit and the pointer behind it, as `unescape` has them. -/
theorem unescape_eq (hu : codeUnit u = some uc) (s : List UInt8) :
    unescape (117 :: (u ++ s)) =
      if 0xDC00 ≤ uc ∧ uc ≤ 0xDFFF ∨ uc = 0 then some ([], (117 :: (u ++ s)).drop 4)
      else if 0xD800 ≤ uc ∧ uc ≤ 0xDBFF then
        if deref s ≠ 92 ∨ deref s.tail ≠ 117 then some ([], (117 :: (u ++ s)).drop 4)
        else
          (advance ((117 :: (u ++ s)).drop 4) 6).bind fun ptr =>
            if parseHex4 (s.drop 2) < 0xDC00 ∨ 0xDFFF < parseHex4 (s.drop 2) then some ([], ptr)
            else
              let uc := 0x10000 + (((uc &&& 0x3FF) <<< 10) ||| (parseHex4 (s.drop 2) &&& 0x3FF))
              some (utf8Loop (utf8Length uc) (utf8Length uc) uc [], ptr)
      else some (utf8Loop (utf8Length uc) (utf8Length uc) uc [], (117 :: (u ++ s)).drop 4) := by
  have hlen : 4 ≤ (117 :: (u ++ s)).length := by
    rw [List.length_cons, List.length_append, length_codeUnit hu]
    omega
  have hfive : ((117 :: (u ++ s)).drop 4).tail = s := by
    rw [List.tail_drop, List.drop_succ_cons, ← length_codeUnit hu, List.drop_left]
  have hbehind : ∀ last : List UInt8,
      last.drop 2 = last.tail.tail ∧ last.drop 3 = last.tail.drop 2 := by
    intro last
    rw [← List.drop_one, ← List.drop_one, List.drop_drop, List.drop_drop]
    exact ⟨rfl, rfl⟩
  unfold unescape unescapeUnit
  simp only [deref, List.headD_cons, List.tail_cons, parseHex4_append hu, advance, if_pos hlen,
    Option.bind_some, (hbehind _).1, (hbehind _).2, hfive]
  rfl

/-- What the loops do at a code unit, whatever it stands for. -/
theorem Copies.unit (h : Copies s n bytes rest) (hu : codeUnit u = some uc) {bytes' : List UInt8}
    (hunescape : unescape (117 :: (u ++ s)) = some (bytes', (117 :: (u ++ s)).drop 4))
    (hk : bytes'.length ≤ 5) :
    Copies (92 :: 117 :: (u ++ s)) (n + 5) (bytes' ++ bytes) rest := by
  refine h.escape hunescape ?_ ?_ ?_ hk
  · rw [List.length_cons, List.length_append, length_codeUnit hu]
    omega
  · rw [List.drop_succ_cons, ← length_codeUnit hu, List.drop_left]
  · intro len
    rw [lengthLoop_escape, lengthLoop_codeUnit hu]

/-- What the loops do at two code units, the first one a high surrogate. -/
theorem Copies.pair (h : Copies s n bytes rest) (hu : codeUnit u = some uc)
    (hv : codeUnit v = some uc2) (hhigh : 0xD800 ≤ uc ∧ uc ≤ 0xDBFF) {bytes' : List UInt8}
    (hbytes : bytes' = if uc2 < 0xDC00 ∨ 0xDFFF < uc2 then [] else
      let uc := 0x10000 + (((uc &&& 0x3FF) <<< 10) ||| (uc2 &&& 0x3FF))
      utf8Loop (utf8Length uc) (utf8Length uc) uc []) :
    Copies (92 :: 117 :: (u ++ 92 :: 117 :: (v ++ s))) (n + 10) (bytes' ++ bytes) rest := by
  have hulen := length_codeUnit hu
  have hvlen := length_codeUnit hv
  have hdrop : (117 :: (u ++ 92 :: 117 :: (v ++ s))).drop 11 = s := by
    have happend : 117 :: (u ++ 92 :: 117 :: (v ++ s)) = (117 :: (u ++ 92 :: 117 :: v)) ++ s := by
      simp
    rw [happend]
    apply List.drop_left'
    simp [hulen, hvlen]
  refine h.escape (j := 10) ?_ ?_ hdrop ?_ ?_
  · have hlow : ¬ (0xDC00 ≤ uc ∧ uc ≤ 0xDFFF ∨ uc = 0) := by omega
    have hsecond : ¬ (deref (92 :: 117 :: (v ++ s)) ≠ 92 ∨
        deref (92 :: 117 :: (v ++ s)).tail ≠ 117) := by
      rw [not_or, not_not, not_not]
      exact ⟨rfl, rfl⟩
    have hadvance : advance ((117 :: (u ++ 92 :: 117 :: (v ++ s))).drop 4) 6 =
        some ((117 :: (u ++ 92 :: 117 :: (v ++ s))).drop 10) := by
      rw [advance, if_pos, List.drop_drop]
      simp only [List.length_drop, List.length_cons, List.length_append, hulen, hvlen]
      omega
    rw [unescape_eq hu, if_neg hlow, if_pos hhigh, if_neg hsecond, hadvance, Option.bind_some,
      List.drop_succ_cons, List.drop_succ_cons, List.drop_zero, parseHex4_append hv, hbytes]
    split_ifs
    all_goals rfl
  · simp only [List.length_cons, List.length_append, hulen, hvlen]
    omega
  · intro len
    rw [lengthLoop_escape, lengthLoop_codeUnit hu, lengthLoop_escape, lengthLoop_codeUnit hv]
  · rw [hbytes]
    split_ifs
    · exact Nat.zero_le 10
    · rw [length_utf8Loop _ _ _ (utf8Length_mem _).1]
      exact (utf8Length_mem _).2.trans (by decide)

end Escapes

end ServerKit.CJson
