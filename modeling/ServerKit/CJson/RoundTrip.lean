import ServerKit.CJson.Accepts
import ServerKit.CJson.Printed

/-! # Printing and parsing

What is printed is parsed to the same value, but for what the conversions of `double` have made of
the numbers. Trees whose numbers are of type `int` come back as they were. -/

namespace ServerKit.CJson

open ServerKit.Blocks ServerKit.CString ServerKit.Json

variable {D : Type}

theorem isDocument_render {a : Doubles D} (fmt : Bool) {v : Value (ℤ × D)} (h : Printable a v) :
    IsDocument (numberOf a Prod.mk) (v.map (reread a)) (render a fmt 0 v) := by
  refine ⟨[], _, [], by decide, isText_render fmt h 0, by decide, ?_⟩
  rw [List.nil_append, List.append_nil]

/-- Printing and parsing, when memory is there. -/
theorem exists_printValue_cJSONParse {succeeds : ℕ → Bool} (hall : ∀ n, succeeds n = true)
    (a : Doubles D) (fmt : Bool) {item : Item D} {v : Value (ℤ × D)}
    (hv : item.value Prod.mk = some v) (hp : Printable a v) (junk : List UInt8) (h : Heap) :
    ∃ s h₁ c h₂, printValue succeeds a fmt 0 item h = some (some s, h₁) ∧
      cJSONParse succeeds a (s.bytes ++ 0 :: junk) h₁ = some (some c, h₂) ∧
      c.value Prod.mk = some (v.map (reread a)) ∧
      h₂.live = c.blocks + ({s.block} + h.live) := by
  obtain ⟨r, h₁, G, hprint, hlive, rfl, hr⟩ :=
    (printsItem succeeds a fmt item v hv hp 0).run h
  cases r with
  | none => exact absurd hall hr
  | some s =>
      have hbytes : s.bytes = render a fmt 0 v := hr
      have hdocument := isDocument_render fmt hp
      rw [← hbytes] at hdocument
      obtain ⟨_, h₂, _, hrun, hlive', c, rfl, rfl, hvalue⟩ :=
        (triple_cJSONParse_isDocument hall hdocument junk).run h₁
      refine ⟨s, h₁, c, h₂, hprint, hrun, hvalue, ?_⟩
      rw [hlive', hlive]
      rfl

/-- What is parsed from the printed text, formatted or not, has the value of the printed item with
its numbers reread. -/
theorem cJSONParse_printValue (succeeds : ℕ → Bool) (hall : ∀ n, succeeds n = true)
    (a : Doubles D) (fmt : Bool) {item : Item D} {v : Value (ℤ × D)}
    (hv : item.value Prod.mk = some v) (hfinite : v.AllNumbers fun n => Prints a n.2)
    (junk : List UInt8) (h : Heap) :
    ∃ s h₁ c h₂, printValue succeeds a fmt 0 item h = some (some s, h₁) ∧
      cJSONParse succeeds a (s.bytes ++ 0 :: junk) h₁ = some (some c, h₂) ∧
      c.value Prod.mk = some (v.map (reread a)) ∧
      h₂.live = c.blocks + ({s.block} + h.live) :=
  exists_printValue_cJSONParse hall a fmt hv (printable_of_prints hv hfinite) junk h

theorem cJSONParse_printValue_numberAndQuote :
    ∃ s h₁ c h₂, printValue (fun _ => true) integers true 0 numberAndQuote ⟨0, 0⟩ =
        some (some s, h₁) ∧
      cJSONParse (fun _ => true) integers (s.bytes ++ 0 :: [65]) h₁ = some (some c, h₂) ∧
      c.value Prod.mk =
        some ((Value.array [.number (1, 1), .string [34]]).map (reread integers)) ∧
      h₂.live = c.blocks + ({s.block} + 0) :=
  cJSONParse_printValue (fun _ => true) (fun _ => rfl) integers true rfl prints_numberAndQuote [65]
    ⟨0, 0⟩

/-! ## Integers -/

/-- What the hardware promises for integers that a `double` holds exactly. -/
structure IntegersExact (a : Doubles D) (ofInt : ℤ → D) : Prop where
  zero : a.zero = ofInt 0
  digit : ∀ n d : ℕ, n * 10 + d < 2 ^ 53 → a.digit (ofInt n) d = ofInt (n * 10 + d : ℕ)
  scaled : ∀ (negative : Bool) (n : ℕ), n < 2 ^ 53 → (negative = true → n ≠ 0) →
    a.scaled negative (ofInt n) 0 = ofInt (if negative then -n else n)
  trunc : ∀ i, -2147483648 ≤ i → i ≤ 2147483647 → a.trunc (ofInt i) = i
  isZero : ∀ i, -2147483648 ≤ i → i ≤ 2147483647 → a.isZero (ofInt i) = decide (i = 0)
  isInt : ∀ i, -2147483648 ≤ i → i ≤ 2147483647 → a.isInt i (ofInt i) = true

/-- A number that was made from an `int`. -/
def IsInt (ofInt : ℤ → D) (n : ℤ × D) : Prop :=
  -2147483648 ≤ n.1 ∧ n.1 ≤ 2147483647 ∧ n.2 = ofInt n.1

section Exact

variable {a : Doubles D} {ofInt : ℤ → D}

theorem numberText_isInt (h : IntegersExact a ofInt) {n : ℤ × D} (hn : IsInt ofInt n) :
    numberText a n = printInt n.1 := by
  obtain ⟨i, d⟩ := n
  obtain ⟨hlow, hhigh, hd⟩ := hn
  simp only at hlow hhigh hd ⊢
  subst hd
  unfold numberText
  rw [h.isZero i hlow hhigh, h.isInt i hlow hhigh]
  by_cases hi : i = 0
  · rw [if_pos (decide_eq_true hi), hi]
    rfl
  · rw [if_neg (by simpa using hi), if_pos rfl]

theorem foldl_digits_le (ds : List (Fin 10)) (n : ℕ) :
    n ≤ ds.foldl (fun m (d : Fin 10) => m * 10 + d.val) n := by
  induction ds generalizing n with
  | nil => exact Nat.le_refl n
  | cons d ds ih => exact le_trans (by omega) (ih (n * 10 + d))

theorem digits_ofInt (h : IntegersExact a ofInt) (ds : List (Fin 10)) (n : ℕ)
    (hfits : ds.foldl (fun m (d : Fin 10) => m * 10 + d.val) n < 2 ^ 53) :
    a.digits (ofInt n) ds = ofInt (ds.foldl (fun m (d : Fin 10) => m * 10 + d.val) n : ℕ) := by
  induction ds generalizing n with
  | nil => rfl
  | cons d ds ih =>
      have hstep := (foldl_digits_le ds (n * 10 + d)).trans_lt hfits
      have ih := ih (n * 10 + d) hfits
      rw [← h.digit n d hstep] at ih
      exact ih

/-- An integer is reread exactly. -/
theorem reread_isInt (h : IntegersExact a ofInt) {n : ℤ × D} (hn : IsInt ofInt n) :
    reread a n = n := by
  obtain ⟨k, htext, hk⟩ := exists_isInteger n.1
  rw [← numberOf_eq_reread a ((numberText_isInt h hn).trans htext)]
  obtain ⟨i, d⟩ := n
  obtain ⟨hlow, hhigh, hd⟩ := hn
  simp only at hlow hhigh hd hk ⊢
  subst hd
  have hfits : k.int.foldl (fun m (d : Fin 10) => m * 10 + d.val) 0 < 2 ^ 53 := by
    rw [hk.int]
    omega
  have hdigits : (if k.int = [0] then a.zero else a.digits a.zero k.int) = ofInt i.natAbs := by
    rw [← hk.int]
    split
    · rename_i hzero
      rw [hzero, h.zero]
      rfl
    · rw [h.zero]
      exact digits_ofInt h k.int 0 hfits
  have hsign : (if k.negative then -(i.natAbs : ℤ) else i.natAbs) = i := by
    rw [hk.negative]
    split
    · rename_i hneg
      have hneg : i < 0 := by simpa using hneg
      omega
    · rename_i hpos
      have hpos : ¬ i < 0 := by simpa using hpos
      omega
  have hdecimal : decimal a k = ofInt i := by
    unfold decimal Doubles.number
    simp only [hdigits, hk.frac, hk.exp]
    show a.scaled k.negative (ofInt i.natAbs) 0 = ofInt i
    rw [h.scaled k.negative i.natAbs (by omega), hsign]
    intro hneg hzero
    rw [hk.negative, decide_eq_true_eq] at hneg
    omega
  unfold numberOf
  rw [hdecimal, h.trunc i hlow hhigh]

end Exact

/-- A tree whose numbers are of type `int` has the same value after it was printed and parsed. -/
theorem cJSONParse_printValue_isInt (succeeds : ℕ → Bool) (hall : ∀ n, succeeds n = true)
    (a : Doubles D) {ofInt : ℤ → D} (hexact : IntegersExact a ofInt) (fmt : Bool) {item : Item D}
    {v : Value (ℤ × D)} (hv : item.value Prod.mk = some v)
    (hints : v.AllNumbers (IsInt ofInt)) (junk : List UInt8) (h : Heap) :
    ∃ s h₁ c h₂, printValue succeeds a fmt 0 item h = some (some s, h₁) ∧
      cJSONParse succeeds a (s.bytes ++ 0 :: junk) h₁ = some (some c, h₂) ∧
      c.value Prod.mk = item.value Prod.mk := by
  have hprinted : ∀ n, IsInt ofInt n → IsPrinted a n := by
    rintro ⟨i, d⟩ ⟨hlow, hhigh, hd⟩
    exact isPrinted_int (hd ▸ hexact.isInt i hlow hhigh) ⟨hlow, hhigh⟩
  obtain ⟨s, h₁, c, h₂, hprint, hparse, hvalue, -⟩ := exists_printValue_cJSONParse hall a fmt hv
    (value_all hv (hints.imp hprinted)) junk h
  refine ⟨s, h₁, c, h₂, hprint, hparse, ?_⟩
  rw [hvalue, hv, Value.map_eq_self (hints.imp fun _ hn => reread_isInt hexact hn)]

theorem integersExact_id : IntegersExact integers id := by
  refine ⟨rfl, fun _ _ _ => rfl, ?_, fun _ _ _ => rfl, fun _ _ _ => rfl, ?_⟩
  · intro negative n _ _
    exact mul_one _
  · intro i hlow hhigh
    exact decide_eq_true ⟨rfl, hhigh, hlow⟩

theorem cJSONParse_printValue_isInt_numberAndQuote :
    ∃ s h₁ c h₂, printValue (fun _ => true) integers false 0 numberAndQuote ⟨0, 0⟩ =
        some (some s, h₁) ∧
      cJSONParse (fun _ => true) integers (s.bytes ++ 0 :: []) h₁ = some (some c, h₂) ∧
      c.value Prod.mk = numberAndQuote.value Prod.mk := by
  refine cJSONParse_printValue_isInt (fun _ => true) (fun _ => rfl) integers integersExact_id false
    rfl (.array ?_) [] ⟨0, 0⟩
  intro v hv
  rcases List.mem_cons.mp hv with rfl | hv
  · exact .number ⟨by decide, by decide, rfl⟩
  · rw [List.mem_singleton.mp hv]
    exact .string trivial

end ServerKit.CJson
