import ServerKit.CJson.Parse

/-! # What `parse_number` reads -/

namespace ServerKit.CJson

open ServerKit.Json

variable {D : Type} (a : Doubles D)

/-- The exponent that is read, in an `int`. -/
def exponentOf (e : Exponent) : ℤ :=
  e.digits.foldl (fun n (d : Fin 10) => a.subscale n d) 0 * if e.sign = some true then -1 else 1

/-- `n` with more digits behind it. -/
def Doubles.digits (n : D) (ds : List (Fin 10)) : D := ds.foldl (fun n d => a.digit n d.val) n

/-- The digits in front of the point and those behind it, with an exponent. -/
def Doubles.number (k : Number) (exponent : ℤ) : D :=
  let integer := if k.int = [0] then a.zero else a.digits a.zero k.int
  let fraction := a.digits integer k.frac
  a.scaled k.negative fraction (-(k.frac.length : ℤ) + exponent)

/-- What is read of a number. -/
def decimal (k : Number) : D := a.number k ((k.exp.map (exponentOf a)).getD 0)

/-- The exponent, which is read in an `int`, has room there. -/
def ExponentFits (k : Number) : Prop := ∀ e ∈ k.exp, e.magnitude < 2 ^ 31

/-- What the digits of a number stand for, whatever its exponent is. -/
def denoted (k : Number) : D := a.number k ((k.exp.map Exponent.value).getD 0)

/-- What `num` makes of the two fields of an item that the number is stored in. -/
def numberOf {N : Type} (num : ℤ → D → N) (k : Number) : N :=
  num (a.trunc (decimal a k)) (decimal a k)

/-! ## Exponents that fit -/

section Fits

variable {a}

theorem subscale_eq {n d : ℕ} (h : n * 10 + d < 2 ^ 31) :
    a.subscale n d = ((n * 10 + d : ℕ) : ℤ) := by
  rw [Doubles.subscale, if_pos]
  · push_cast
    rfl
  · omega

/-- More digits make the number no smaller. -/
theorem le_foldl_digits (ds : List (Fin 10)) (n : ℕ) :
    n ≤ ds.foldl (fun n (d : Fin 10) => n * 10 + d.val) n := by
  induction ds generalizing n with
  | nil => exact le_rfl
  | cons d ds ih =>
      have hnext := ih (n * 10 + d)
      rw [List.foldl_cons]
      omega

/-- If the last value of `subscale` fits, then so do all others. -/
theorem foldl_subscale (ds : List (Fin 10)) (n : ℕ)
    (h : ds.foldl (fun n (d : Fin 10) => n * 10 + d.val) n < 2 ^ 31) :
    ds.foldl (fun n (d : Fin 10) => a.subscale n d) (n : ℤ) =
      (ds.foldl (fun n (d : Fin 10) => n * 10 + d.val) n : ℕ) := by
  induction ds generalizing n with
  | nil => rfl
  | cons d ds ih =>
      rw [List.foldl_cons] at h ⊢
      have hfits : n * 10 + d < 2 ^ 31 := (le_foldl_digits ds _).trans_lt h
      rw [subscale_eq hfits, ih _ h, List.foldl_cons]

theorem exponentOf_eq_value {e : Exponent} (h : e.magnitude < 2 ^ 31) :
    exponentOf a e = e.value := by
  have hdigits := foldl_subscale (a := a) e.digits 0 h
  rw [Nat.cast_zero] at hdigits
  rw [exponentOf, hdigits]
  rfl

/-- A number whose exponent fits is read as what its digits stand for. -/
theorem decimal_eq_denoted {k : Number} (h : ExponentFits k) : decimal a k = denoted a k := by
  unfold decimal denoted
  cases hexp : k.exp with
  | none => rfl
  | some e =>
      have he := exponentOf_eq_value (a := a) (h e hexp)
      rw [Option.map_some, Option.map_some, he]

end Fits

/-- No byte with which a number could go on. -/
structure Ends (rest : List UInt8) : Prop where
  digit : isDigit (deref rest) = false
  point : deref rest ≠ 46
  exponent : ¬ (deref rest = 101 ∨ deref rest = 69)

section Digits

variable {a}

theorem isDigit_digitByte (d : Fin 10) : isDigit (digitByte d) = true := by
  decide +revert

theorem toNat_digitByte (d : Fin 10) : (digitByte d).toNat - 48 = d := by
  decide +revert

theorem digitByte_ne (d : Fin 10) : digitByte d ≠ 45 ∧ digitByte d ≠ 43 := by
  decide +revert

theorem digitByte_eq_zero {d : Fin 10} : digitByte d = 48 ↔ d = 0 := by
  decide +revert

theorem digitByte_range {d : Fin 10} (h : d ≠ 0) : 49 ≤ digitByte d ∧ digitByte d ≤ 57 := by
  decide +revert

/-- All digits are taken. -/
theorem takeDigits_append {α : Type} (step : α → ℕ → α) (n : α) (ds : List (Fin 10))
    {rest : List UInt8} (h : isDigit (deref rest) = false) :
    takeDigits step n (ds.map digitByte ++ rest) =
      (ds.foldl (fun n (d : Fin 10) => step n d) n, rest) := by
  have hall : ∀ b ∈ ds.map digitByte, isDigit b = true := by
    intro b hb
    obtain ⟨d, -, rfl⟩ := List.mem_map.mp hb
    exact isDigit_digitByte d
  have hstop : rest.takeWhile isDigit = [] ∧ rest.dropWhile isDigit = rest := by
    cases rest with
    | nil => exact ⟨rfl, rfl⟩
    | cons b rest =>
        have hb : isDigit b = false := h
        simp [hb]
  unfold takeDigits
  rw [List.takeWhile_append_of_pos hall, List.dropWhile_append_of_pos hall, hstop.1, hstop.2,
    List.append_nil, List.foldl_map]
  simp only [toNat_digitByte]

/-- `scale` counts the digits of the fraction. -/
theorem foldl_scale (ds : List (Fin 10)) (n : D) (scale : ℤ) :
    ds.foldl (fun (r : D × ℤ) (d : Fin 10) => (a.digit r.1 d, r.2 - 1)) (n, scale) =
      (a.digits n ds, scale - ds.length) := by
  induction ds generalizing n scale with
  | nil => simp [Doubles.digits]
  | cons d ds ih =>
      rw [List.foldl_cons, ih, List.length_cons]
      show (a.digits (a.digit n d) ds, scale - 1 - (ds.length : ℤ)) =
        (a.digits (a.digit n d) ds, _)
      congr 1
      push_cast
      omega

end Digits

section Parts

variable {rest : List UInt8}

theorem readExponent_append (e : Option Exponent) (h : Ends rest) :
    readExponent a ((e.map Exponent.text).getD [] ++ rest) =
      ((e.map (exponentOf a)).getD 0, rest) := by
  cases e with
  | none => exact if_neg h.exponent
  | some e =>
      obtain ⟨upper, sign, digits, hdigits⟩ := e
      obtain ⟨d, ds, rfl⟩ := List.exists_cons_of_ne_nil hdigits
      obtain ⟨hminus, hplus⟩ := digitByte_ne d
      have htake := takeDigits_append a.subscale 0 (d :: ds) h.digit
      rw [List.map_cons, List.cons_append] at htake
      have hmark : ∀ num : List UInt8, deref ((if upper then 69 else 101) :: num) = 101 ∨
          deref ((if upper then 69 else 101) :: num) = 69 := by
        cases upper
        · exact fun _ => .inl rfl
        · exact fun _ => .inr rfl
      simp only [Option.map_some, Option.getD_some, Exponent.text, List.cons_append]
      rw [readExponent, if_pos (hmark _)]
      cases sign with
      | none =>
          have hstep : ∀ num : List UInt8, stepOver (fun b => b == 43 || b == 45)
              (digitByte d :: num) = digitByte d :: num := by
            intro num
            simp [stepOver, deref, hminus, hplus]
          simp [deref, hminus, hstep, htake, exponentOf]
      | some sign => cases sign <;> simp [deref, stepOver, htake, exponentOf]

/-- Behind the digits of the fraction no other one follows. -/
theorem isDigit_exponent (e : Option Exponent) (h : Ends rest) :
    isDigit (deref ((e.map Exponent.text).getD [] ++ rest)) = false ∧
      deref ((e.map Exponent.text).getD [] ++ rest) ≠ 46 := by
  cases e with
  | none => exact ⟨h.digit, h.point⟩
  | some e =>
      obtain ⟨upper, sign, digits, hdigits⟩ := e
      cases upper
      · exact ⟨by rfl, by simp [Exponent.text, deref]⟩
      · exact ⟨by rfl, by simp [Exponent.text, deref]⟩

theorem readFraction_append (n : D) (frac : List (Fin 10)) {rest : List UInt8}
    (h : isDigit (deref rest) = false ∧ deref rest ≠ 46) :
    readFraction a n ((if frac = [] then [] else 46 :: frac.map digitByte) ++ rest) =
      ((a.digits n frac, -(frac.length : ℤ)), rest) := by
  cases frac with
  | nil =>
      rw [if_pos rfl, List.nil_append, readFraction, if_neg (fun hpoint => h.2 hpoint.1)]
      simp [Doubles.digits]
  | cons d ds =>
      have htake := takeDigits_append (fun (r : D × ℤ) b => (a.digit r.1 b, r.2 - 1)) (n, 0)
        (d :: ds) h.1
      rw [foldl_scale, zero_sub] at htake
      rw [if_neg (List.cons_ne_nil d ds), List.cons_append, readFraction, if_pos]
      · exact htake
      · exact ⟨rfl, isDigit_digitByte d⟩

/-- Behind the digits of the integer no other one follows. -/
theorem isDigit_fraction (frac : List (Fin 10)) (e : Option Exponent) (h : Ends rest) :
    isDigit (deref ((if frac = [] then [] else 46 :: frac.map digitByte) ++
      ((e.map Exponent.text).getD [] ++ rest))) = false := by
  cases frac with
  | nil => exact (isDigit_exponent e h).1
  | cons d ds => rfl

theorem readInteger_append (int : List (Fin 10)) (hint : int ≠ []) (hlead : int.head? = some 0 →
    int = [0]) {rest : List UInt8} (h : isDigit (deref rest) = false) :
    readInteger a (stepOver (· == 48) (int.map digitByte ++ rest)) =
      (if int = [0] then a.zero else a.digits a.zero int, rest) := by
  obtain ⟨d, ds, rfl⟩ := List.exists_cons_of_ne_nil hint
  by_cases hd : d = 0
  · subst hd
    obtain rfl : ds = [] := List.cons_inj_right 0 |>.mp (hlead rfl)
    have hrest : ¬ (49 ≤ deref rest ∧ deref rest ≤ 57) := by
      intro ⟨hlow, hhigh⟩
      have hdigit : isDigit (deref rest) = true := by
        rw [isDigit, Bool.and_eq_true, decide_eq_true_eq, decide_eq_true_eq]
        exact ⟨UInt8.le_trans (by decide) hlow, hhigh⟩
      rw [h] at hdigit
      cases hdigit
    rw [if_pos rfl]
    exact if_neg hrest
  · have hne : ¬ d :: ds = [0] := fun heq => hd (List.cons.inj heq).1
    have hzero : (digitByte d == 48) = false := by
      rw [beq_eq_false_iff_ne]
      exact fun heq => hd (digitByte_eq_zero.mp heq)
    have hstep : stepOver (· == 48) ((d :: ds).map digitByte ++ rest) =
        (d :: ds).map digitByte ++ rest := by
      rw [stepOver, if_neg]
      simpa [deref] using hzero
    rw [hstep, if_neg hne, readInteger, if_pos]
    · exact takeDigits_append a.digit a.zero (d :: ds) h
    · exact digitByte_range hd

/-- A number is read to its end. -/
theorem readNumber_append (k : Number) (h : Ends rest) :
    readNumber a (k.text ++ rest) = (decimal a k, rest) := by
  obtain ⟨negative, int, frac, exp, hint, hlead⟩ := k
  obtain ⟨d, ds, rfl⟩ := List.exists_cons_of_ne_nil hint
  have hminus := (digitByte_ne d).1
  have hsign : ∀ num : List UInt8,
      deref ((if negative then [45] else []) ++ (digitByte d :: num)) = 45 ↔ negative = true := by
    intro num
    cases negative <;> simp [deref, hminus]
  have hskip : ∀ num : List UInt8,
      stepOver (· == 45) ((if negative then [45] else []) ++ (digitByte d :: num)) =
        digitByte d :: num := by
    intro num
    cases negative <;> simp [stepOver, deref, hminus]
  have hinteger := readInteger_append a (d :: ds) hint hlead (isDigit_fraction frac exp h)
  unfold readNumber skipSign
  simp only [Number.text, List.append_assoc, List.map_cons, List.cons_append] at hinteger ⊢
  rw [hskip, hinteger]
  simp only [readFraction_append a _ _ (isDigit_exponent exp h), readExponent_append a exp h]
  unfold decimal Doubles.number
  have hnegative : (deref ((if negative then [45] else []) ++ (digitByte d :: (ds.map digitByte ++
      ((if frac = [] then [] else 46 :: frac.map digitByte) ++
        ((exp.map Exponent.text).getD [] ++ rest))))) == 45) = negative := by
    rw [Bool.eq_iff_iff, beq_iff_eq]
    exact hsign _
  rw [hnegative]

end Parts

end ServerKit.CJson
