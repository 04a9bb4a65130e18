import ServerKit.CJson.Numbers
import ServerKit.Protocal.Print

/-! # The texts that the printer writes

What `print_value` writes for a value, whatever way it gets its memory, is a text of this value. -/

namespace ServerKit.CJson

open ServerKit.CString ServerKit.Json ServerKit.Protocal

variable {D : Type} (a : Doubles D)

/-- `sprintf(str, "%d", i)` -/
def printInt (i : ℤ) : List UInt8 := ofString (toString i)

/-- What `print_number` writes for `valueint` and `valuedouble`. -/
def numberText (n : ℤ × D) : List UInt8 :=
  if a.isZero n.2 then ofString "0"
  else if a.isInt n.1 n.2 then printInt n.1
  else if a.isWhole n.2 then a.whole n.2
  else if a.isExtreme n.2 then a.scientific n.2
  else a.fixed n.2

/-- The bytes that `print_number` asks for. -/
def numberSize (n : ℤ × D) : ℕ :=
  if a.isZero n.2 then 2 else if a.isInt n.1 n.2 then 21 else 64

/-- The bytes that stand for white space in formatted texts only. -/
def pad (fmt : Bool) (s : List UInt8) : List UInt8 := if fmt then s else []

section Values

variable (fmt : Bool)

mutual

/-- What `print_value` writes. -/
def render (depth : ℕ) : Value (ℤ × D) → List UInt8
  | .null => ofString "null"
  | .bool false => ofString "false"
  | .bool true => ofString "true"
  | .number n => numberText a n
  | .string s => printString s
  | .array elements => 91 :: (renderElements (depth + 1) elements ++ [93])
  | .object [] => 123 :: (pad fmt (10 :: tabs (depth - 1)) ++ [125])
  | .object (m :: members) =>
    123 :: (pad fmt [10] ++ renderMembers (depth + 1) (m :: members) ++ pad fmt (tabs depth) ++
      [125])

/-- The elements of an array, with what separates them. -/
def renderElements (depth : ℕ) : List (Value (ℤ × D)) → List UInt8
  | [] => []
  | v :: rest =>
    render depth v ++ (if rest.isEmpty then [] else 44 :: pad fmt [32]) ++ renderElements depth rest

/-- The members of an object. -/
def renderMembers (depth : ℕ) : List (List UInt8 × Value (ℤ × D)) → List UInt8
  | [] => []
  | (name, v) :: rest =>
    pad fmt (tabs depth) ++ printString name ++ 58 :: pad fmt [9] ++ render depth v ++
      (if rest.isEmpty then [] else [44]) ++ pad fmt [10] ++ renderMembers depth rest

end

end Values

/-! ## Strings -/

/-- What stands for a byte is the text of this byte. -/
theorem body_escape {b : UInt8} (hb : b ≠ 0) {body bytes : List UInt8} (h : Body body bytes) :
    Body (escape b ++ body) (b :: bytes) := by
  by_cases hshort : b ∈ [34, 92, 8, 12, 10, 13, 9]
  · have hescape : ∀ b ∈ ([34, 92, 8, 12, 10, 13, 9] : List UInt8),
        ∃ e ∈ shortEscapes, e.2 = b ∧ escape b = [92, e.1] :=
      List.forall_iff_forall_mem.mp (by decide)
    obtain ⟨e, he, rfl, heq⟩ := hescape b hshort
    rw [heq]
    exact .short he h
  by_cases hlow : b < 32
  · let digits := fun b : UInt8 => [48, 48, Protocal.hexDigit (b / 16), Protocal.hexDigit (b % 16)]
    have hunit : ∀ n : Fin 32, UInt8.ofNat n ∉ ([34, 92, 8, 12, 10, 13, 9] : List UInt8) →
        escape (.ofNat n) = 92 :: 117 :: digits (.ofNat n) ∧
          codeUnit (digits (.ofNat n)) = some n.val := by
      decide
    obtain ⟨heq, hxy⟩ := hunit ⟨b.toNat, hlow⟩ (by rwa [UInt8.ofNat_toNat])
    have hchar : ∀ n : Fin 32, (Char.ofNat n).toNat = n ∧
        String.utf8EncodeChar (Char.ofNat n) = [UInt8.ofNat n] := by decide
    obtain ⟨htoNat, hencode⟩ := hchar ⟨b.toNat, hlow⟩
    rw [UInt8.ofNat_toNat] at heq hencode hxy
    have hne : b.toNat ≠ 0 := fun heq => hb (UInt8.toNat_inj.mp heq)
    have hbody := Body.unit (Char.ofNat b.toNat) (hxy.trans (congrArg some htoNat.symm))
      (by rw [htoNat]; exact hne) h
    rw [heq]
    rw [hencode] at hbody
    exact hbody
  · have heq : escape b = [b] := by
      simp only [List.mem_cons, List.not_mem_nil, or_false, not_or] at hshort
      obtain ⟨h₁, h₂, h₃, h₄, h₅, h₆, h₇⟩ := hshort
      simp [escape, h₁, h₂, h₃, h₄, h₅, h₆, h₇, hlow]
    simp only [List.mem_cons, List.not_mem_nil, or_false, not_or] at hshort
    rw [heq]
    exact .plain (UInt8.not_lt.mp hlow) hshort.1 hshort.2.1 h

/-- A string is printed as a text of its own. -/
theorem isString_printString {s : List UInt8} (hs : (0 : UInt8) ∉ s) :
    IsString s (printString s) := by
  refine ⟨s.flatMap escape, ?_, ?_⟩
  · induction s with
    | nil => exact .nil
    | cons b s ih =>
        rw [List.mem_cons, not_or] at hs
        rw [List.flatMap_cons]
        exact body_escape (Ne.symm hs.1) (ih hs.2)
  · rw [printString, text_eq_self.mpr hs, List.cons_append]

/-! ## Numbers -/

/-- The decimal digits of a natural number. -/
theorem exists_digits (n : ℕ) : ∃ ds : List (Fin 10),
    (Nat.toDigits 10 n).map (fun c => UInt8.ofNat c.toNat) = ds.map digitByte ∧ ds ≠ [] ∧
      (ds.head? = some 0 → ds = [0] ∧ n = 0) ∧
      ds.foldl (fun m (d : Fin 10) => m * 10 + d.val) 0 = n := by
  induction n using Nat.strong_induction_on with
  | _ n ih =>
      have hdigit : ∀ d : Fin 10, UInt8.ofNat (Nat.digitChar d).toNat = digitByte d := by decide
      rw [Nat.toDigits_eq_if (by decide)]
      by_cases hn : n < 10
      · rw [if_pos hn]
        refine ⟨[⟨n, hn⟩], ?_, List.cons_ne_nil _ _, ?_, ?_⟩
        · rw [List.map_singleton, List.map_singleton, ← hdigit]
        · intro hzero
          have hzero : (⟨n, hn⟩ : Fin 10) = 0 := by simpa using hzero
          rw [hzero]
          exact ⟨rfl, congrArg Fin.val hzero⟩
        · simp
      · obtain ⟨ds, heq, hne, hlead, hvalue⟩ := ih (n / 10) (by omega)
        have hmod : n % 10 < 10 := Nat.mod_lt n (by decide)
        rw [if_neg hn]
        refine ⟨ds ++ [⟨n % 10, hmod⟩], ?_, by simp, ?_, ?_⟩
        · rw [List.map_append, heq, List.map_append, List.map_singleton, List.map_singleton,
            ← hdigit]
        · intro hzero
          rw [List.head?_append_of_ne_nil _ hne] at hzero
          exact absurd (hlead hzero).2 (by omega)
        · rw [List.foldl_append, hvalue, List.foldl_cons, List.foldl_nil]
          exact Nat.div_add_mod' n 10

/-- A number without fraction and exponent that stands for this integer. -/
structure IsInteger (i : ℤ) (k : Number) : Prop where
  negative : k.negative = decide (i < 0)
  int : k.int.foldl (fun m (d : Fin 10) => m * 10 + d.val) 0 = i.natAbs
  frac : k.frac = []
  exp : k.exp = none

theorem exists_isInteger (i : ℤ) : ∃ k, printInt i = Number.text k ∧ IsInteger i k := by
  obtain ⟨ds, heq, hne, hlead, hvalue⟩ := exists_digits i.natAbs
  refine ⟨⟨decide (i < 0), ds, [], none, hne, fun h => (hlead h).1⟩, ?_, rfl, hvalue, rfl, rfl⟩
  simp only [Number.text, ← heq, if_true, Option.map_none, Option.getD_none, List.append_nil]
  unfold printInt ofString
  rw [Int.toString_eq_repr, Int.repr_eq_if]
  by_cases hi : i < 0
  · rw [if_neg (not_le.mpr hi), String.toList_append, Nat.toList_repr, List.map_append,
      if_pos (decide_eq_true hi), show (-i).toNat = i.natAbs by omega]
    rfl
  · rw [if_pos (not_lt.mp hi), Nat.toList_repr, if_neg (by simpa using hi),
      show i.toNat = i.natAbs by omega, List.nil_append]

/-- Ten digits and a sign are enough for an `int`. -/
theorem length_printInt {i : ℤ} (h : -2147483648 ≤ i ∧ i ≤ 2147483647) :
    (printInt i).length ≤ 11 := by
  have hdigits : ∀ n : ℕ, n < 10 ^ 10 → (Nat.toDigits 10 n).length ≤ 10 := fun n hn =>
    (Nat.length_toDigits_le_iff (by decide) (by decide)).mpr hn
  unfold printInt ofString
  rw [List.length_map, Int.toString_eq_repr, Int.repr_eq_if]
  split
  · rw [Nat.toList_repr]
    exact (hdigits _ (by omega)).trans (by decide)
  · rw [String.toList_append, List.length_append, Nat.toList_repr]
    have hlen := hdigits (-i).toNat (by omega)
    have hsign : "-".toList.length = 1 := by decide
    omega

/-- The bytes are a number, and not too many. -/
def IsNumberText (n : ℕ) (s : List UInt8) : Prop := (∃ k, s = Number.text k) ∧ s.length ≤ n

/-- What the library promises for a finite `double`. -/
structure Prints (a : Doubles D) (d : D) : Prop where
  int : ∀ i, a.isInt i d = true → -2147483648 ≤ i ∧ i ≤ 2147483647
  whole : a.isWhole d = true → IsNumberText 61 (a.whole d)
  scientific : a.isExtreme d = true → IsNumberText 14 (a.scientific d)
  fixed : a.isExtreme d = false → IsNumberText 18 (a.fixed d)

/-- A number is printed as a number, within the bytes that were asked for. -/
def IsPrinted (n : ℤ × D) : Prop :=
  (∃ k, numberText a n = Number.text k) ∧ (numberText a n).length < numberSize a n

variable {a}

theorem isPrinted_zero {n : ℤ × D} (h : a.isZero n.2 = true) : IsPrinted a n := by
  unfold IsPrinted numberText numberSize
  rw [if_pos h, if_pos h]
  refine ⟨⟨⟨false, [0], [], none, List.cons_ne_nil _ _, fun _ => rfl⟩, by decide⟩, by decide⟩

theorem isPrinted_int {n : ℤ × D} (h : a.isInt n.1 n.2 = true)
    (hn : -2147483648 ≤ n.1 ∧ n.1 ≤ 2147483647) : IsPrinted a n := by
  by_cases hzero : a.isZero n.2 = true
  · exact isPrinted_zero hzero
  · unfold IsPrinted numberText numberSize
    rw [if_neg hzero, if_neg hzero, if_pos h, if_pos h]
    obtain ⟨k, hk, -⟩ := exists_isInteger n.1
    exact ⟨⟨k, hk⟩, Nat.lt_of_le_of_lt (length_printInt hn) (by decide)⟩

theorem isPrinted_of_prints {n : ℤ × D} (h : Prints a n.2) : IsPrinted a n := by
  by_cases hzero : a.isZero n.2 = true
  · exact isPrinted_zero hzero
  by_cases hint : a.isInt n.1 n.2 = true
  · exact isPrinted_int hint (h.int _ hint)
  unfold IsPrinted numberText numberSize
  rw [if_neg hzero, if_neg hzero, if_neg hint, if_neg hint]
  by_cases hwhole : a.isWhole n.2 = true
  · rw [if_pos hwhole]
    obtain ⟨hk, hlen⟩ := h.whole hwhole
    exact ⟨hk, Nat.lt_of_le_of_lt hlen (by decide)⟩
  rw [if_neg hwhole]
  by_cases hextreme : a.isExtreme n.2 = true
  · rw [if_pos hextreme]
    obtain ⟨hk, hlen⟩ := h.scientific hextreme
    exact ⟨hk, Nat.lt_of_le_of_lt hlen (by decide)⟩
  · rw [if_neg hextreme]
    obtain ⟨hk, hlen⟩ := h.fixed (Bool.not_eq_true _ ▸ hextreme)
    exact ⟨hk, Nat.lt_of_le_of_lt hlen (by decide)⟩

/-- What C promises is true of a number of one digit. -/
theorem prints_one : Prints integers 1 := by
  have hone : IsNumberText 14 (ofString (toString (1 : ℤ))) :=
    ⟨⟨⟨false, [1], [], none, by decide, by decide⟩, by decide⟩, by decide⟩
  refine ⟨?_, fun _ => ⟨hone.1, hone.2.trans (by decide)⟩, fun _ => hone,
    fun _ => ⟨hone.1, hone.2.trans (by decide)⟩⟩
  intro i hi
  obtain ⟨rfl, hhigh, hlow⟩ := of_decide_eq_true hi
  exact ⟨hlow, hhigh⟩

theorem prints_numberAndQuote : Value.AllNumbers (fun n => Prints integers n.2)
    (.array [.number ((1 : ℤ), (1 : ℤ)), .string [34]]) := by
  refine .array ?_
  intro v hv
  rcases List.mem_cons.mp hv with rfl | hv
  · exact .number prints_one
  · rw [List.mem_singleton.mp hv]
    exact .string trivial

variable (a)

/-! ## Values -/

/-- The two fields after a number has been printed and parsed again. -/
def reread (n : ℤ × D) : ℤ × D :=
  let d := (readNumber a (numberText a n)).1
  (a.trunc d, d)

theorem numberOf_eq_reread {n : ℤ × D} {k : Number} (h : numberText a n = k.text) :
    numberOf a Prod.mk k = reread a n := by
  have hend : Ends [] := ⟨by decide, by decide, by decide⟩
  have hread := readNumber_append a k hend
  rw [List.append_nil] at hread
  unfold numberOf reread
  rw [h, hread]

theorem blank_tabs (n : ℕ) : Blank (tabs n) := by
  intro b hb
  exact .inr (.inl (List.eq_of_mem_replicate hb))

theorem blank_pad (fmt : Bool) {s : List UInt8} (h : Blank s) : Blank (pad fmt s) := by
  cases fmt
  · intro b hb
    cases hb
  · exact h

theorem blank_append {s t : List UInt8} (hs : Blank s) (ht : Blank t) : Blank (s ++ t) := by
  intro b hb
  rcases List.mem_append.mp hb with hb | hb
  · exact hs b hb
  · exact ht b hb

section Texts

variable {a} {fmt : Bool}

/-- The value can be printed as JSON: no string has a zero byte, every number a text. -/
def Printable (a : Doubles D) (v : Value (ℤ × D)) : Prop :=
  v.All (fun s => (0 : UInt8) ∉ s) (IsPrinted a)

/-- The text of `v` is the one of what is read back for it. -/
def Renders (a : Doubles D) (fmt : Bool) (v : Value (ℤ × D)) : Prop :=
  ∀ depth, IsText (numberOf a Prod.mk) (v.map (reread a)) (render a fmt depth v)

theorem areElements_render {elements : List (Value (ℤ × D))}
    (h : ∀ v ∈ elements, Renders a fmt v) (depth : ℕ) {w : List UInt8} (hw : Blank w) :
    AreElements (numberOf a Prod.mk) (mapElements (reread a) elements)
      (w ++ renderElements a fmt depth elements) := by
  induction elements generalizing w with
  | nil =>
      rw [mapElements, renderElements, List.append_nil, AreElements]
      exact hw
  | cons v rest ih =>
      have ih := ih (fun v hv => h v (List.mem_cons_of_mem _ hv))
        (blank_pad fmt (by decide : Blank [32]))
      rw [mapElements, renderElements, AreElements]
      cases rest with
      | nil =>
          refine ⟨w, _, [], [], hw, h v List.mem_cons_self depth, by decide, ?_, .inl ⟨rfl, rfl⟩⟩
          simp [renderElements]
      | cons v' rest =>
          refine ⟨w, _, [], _, hw, h v List.mem_cons_self depth, by decide, ?_,
            .inr ⟨List.cons_ne_nil _ _, _, ih, rfl⟩⟩
          simp

theorem areMembers_render {members : List (List UInt8 × Value (ℤ × D))}
    (hnames : ∀ m ∈ members, (0 : UInt8) ∉ m.1) (h : ∀ m ∈ members, Renders a fmt m.2) (depth : ℕ)
    {w w' : List UInt8} (hw : Blank w) (hw' : Blank w') :
    AreMembers (numberOf a Prod.mk) (mapMembers (reread a) members)
      (w ++ (renderMembers a fmt depth members ++ w')) := by
  induction members generalizing w with
  | nil =>
      rw [mapMembers, renderMembers, List.nil_append, AreMembers]
      exact blank_append hw hw'
  | cons m rest ih =>
      obtain ⟨name, v⟩ := m
      have htabs : Blank (w ++ pad fmt (tabs depth)) :=
        blank_append hw (blank_pad fmt (blank_tabs depth))
      have hcolon : Blank (pad fmt [9]) := blank_pad fmt (by decide)
      have hline : Blank (pad fmt [10]) := blank_pad fmt (by decide)
      have hname := isString_printString (hnames (name, v) List.mem_cons_self)
      have hv := h (name, v) List.mem_cons_self depth
      have ih := ih (fun m hm => hnames m (List.mem_cons_of_mem _ hm))
        (fun m hm => h m (List.mem_cons_of_mem _ hm)) hline
      rw [mapMembers, renderMembers, AreMembers]
      cases rest with
      | nil =>
          refine ⟨_, _, [], _, _, _, [], htabs, hname, by decide, hcolon, hv,
            blank_append hline hw', ?_, .inl ⟨rfl, rfl⟩⟩
          simp [renderMembers]
      | cons m' rest =>
          refine ⟨_, _, [], _, _, [], _, htabs, hname, by decide, hcolon, hv, by decide, ?_,
            .inr ⟨by rw [mapMembers.eq_def]; exact List.cons_ne_nil _ _, _, ih, rfl⟩⟩
          simp

/-- What is printed is a JSON text, formatted or not, of the value with its numbers reread. -/
theorem isText_render (fmt : Bool) {v : Value (ℤ × D)} (h : Printable a v) :
    Renders a fmt v := by
  induction v using Value.induction with
  | null =>
      intro depth
      rw [Value.map, render, IsText]
  | bool b =>
      intro depth
      cases b
      all_goals rw [Value.map, render, IsText]
  | number n =>
      intro depth
      cases h with
      | number hn =>
          obtain ⟨⟨k, hk⟩, -⟩ := hn
          rw [Value.map, render, IsText]
          exact ⟨k, numberOf_eq_reread a hk, hk⟩
  | string s =>
      intro depth
      cases h with
      | string hs =>
          rw [Value.map, render, IsText]
          exact isString_printString hs
  | array elements ih =>
      intro depth
      cases h with
      | array helements =>
          rw [Value.map, render, IsText]
          exact ⟨_, areElements_render (fun v hv => ih v hv (helements v hv)) (depth + 1)
            (by decide : Blank []), rfl⟩
  | object members ih =>
      intro depth
      cases h with
      | object hnames hmembers =>
          have hline : Blank (pad fmt [10]) := blank_pad fmt (by decide)
          have htabs : Blank (pad fmt (tabs depth)) := blank_pad fmt (blank_tabs depth)
          rw [Value.map, IsText]
          cases members with
          | nil =>
              rw [render]
              refine ⟨pad fmt (10 :: tabs (depth - 1)), ?_, rfl⟩
              rw [mapMembers, AreMembers]
              exact blank_pad fmt (blank_append (by decide : Blank [10]) (blank_tabs _))
          | cons m members =>
              rw [render]
              refine ⟨_, areMembers_render hnames (fun m hm => ih m hm (hmembers m hm)) (depth + 1)
                hline htabs, ?_⟩
              simp

end Texts

end ServerKit.CJson
