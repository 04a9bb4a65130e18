import Mathlib
import ServerKit.Lib.CString

/-! # The texts of JSON

Texts are lists of bytes. A string has the bytes of its characters in UTF-8, none of which is NUL,
and a number has what `read` makes of its digits. -/

namespace ServerKit.Json

open ServerKit.CString

inductive Value (N : Type) where
  | null
  | bool (b : Bool)
  | number (n : N)
  | string (s : List UInt8)
  | array (elements : List (Value N))
  | object (members : List (List UInt8 × Value N))

/-- Induction over a value. -/
@[elab_as_elim]
theorem Value.induction {N : Type} {P : Value N → Prop} (null : P .null) (bool : ∀ b, P (.bool b))
    (number : ∀ n, P (.number n)) (string : ∀ s, P (.string s))
    (array : ∀ elements, (∀ v ∈ elements, P v) → P (.array elements))
    (object : ∀ members, (∀ m ∈ members, P m.2) → P (.object members)) (v : Value N) : P v := by
  refine @Value.rec N P (fun elements => ∀ v ∈ elements, P v)
    (fun members => ∀ m ∈ members, P m.2) (fun m => P m.2) null bool number string array object
    ?_ ?_ ?_ ?_ ?_ v
  · intro v hv
    cases hv
  · intro first rest hfirst hrest
    exact List.forall_mem_cons.mpr ⟨hfirst, hrest⟩
  · intro m hm
    cases hm
  · intro first rest hfirst hrest
    exact List.forall_mem_cons.mpr ⟨hfirst, hrest⟩
  · intro name v hv
    exact hv

section Numbers

variable {N M : Type} (f : N → M)

mutual

/-- The value with other numbers. -/
def Value.map : Value N → Value M
  | .null => .null
  | .bool b => .bool b
  | .number n => .number (f n)
  | .string s => .string s
  | .array elements => .array (mapElements elements)
  | .object members => .object (mapMembers members)

def mapElements : List (Value N) → List (Value M)
  | [] => []
  | v :: rest => v.map :: mapElements rest

def mapMembers : List (List UInt8 × Value N) → List (List UInt8 × Value M)
  | [] => []
  | (name, v) :: rest => (name, v.map) :: mapMembers rest

end

end Numbers

/-- What holds of all strings, the names among them, and of all numbers. -/
inductive Value.All {N : Type} (string : List UInt8 → Prop) (number : N → Prop) : Value N → Prop
  | null : All string number .null
  | bool (b) : All string number (.bool b)
  | number {n} : number n → All string number (.number n)
  | string {s} : string s → All string number (.string s)
  | array {elements} : (∀ v ∈ elements, All string number v) → All string number (.array elements)
  | object {members} : (∀ m ∈ members, string m.1) → (∀ m ∈ members, All string number m.2) →
      All string number (.object members)

theorem Value.All.imp {N : Type} {string : List UInt8 → Prop} {p q : N → Prop} {v : Value N}
    (h : v.All string p) (hpq : ∀ n, p n → q n) : v.All string q := by
  induction h with
  | null => exact .null
  | bool b => exact .bool b
  | number hn => exact .number (hpq _ hn)
  | string hs => exact .string hs
  | array _ ih => exact .array ih
  | object hnames _ ih => exact .object hnames ih

/-- What holds of all numbers. -/
abbrev Value.AllNumbers {N : Type} (number : N → Prop) (v : Value N) : Prop :=
  v.All (fun _ => True) number

/-- A value whose numbers are left as they are. -/
theorem Value.map_eq_self {N : Type} {f : N → N} {v : Value N} {string : List UInt8 → Prop}
    (h : v.All string fun n => f n = n) : v.map f = v := by
  induction v using Value.induction with
  | null => rfl
  | bool b => rfl
  | number n =>
      cases h with
      | number hn => rw [Value.map, hn]
  | string s => rfl
  | array elements ih =>
      cases h with
      | array helements =>
          rw [Value.map, Value.array.injEq]
          induction elements with
          | nil => rfl
          | cons v rest ihrest =>
              have hv := ih v List.mem_cons_self (helements v List.mem_cons_self)
              rw [mapElements, hv, ihrest (fun v hv => ih v (List.mem_cons_of_mem _ hv))
                (fun v hv => helements v (List.mem_cons_of_mem _ hv))]
  | object members ih =>
      cases h with
      | object hnames hmembers =>
          rw [Value.map, Value.object.injEq]
          clear hnames
          induction members with
          | nil => rfl
          | cons m rest ihrest =>
              obtain ⟨name, v⟩ := m
              have hv := ih (name, v) List.mem_cons_self (hmembers (name, v) List.mem_cons_self)
              have hv : v.map f = v := hv
              rw [mapMembers, hv, ihrest (fun m hm => ih m (List.mem_cons_of_mem _ hm))
                (fun m hm => hmembers m (List.mem_cons_of_mem _ hm))]

/-- White space. -/
def Blank (s : List UInt8) : Prop := ∀ b ∈ s, b = 32 ∨ b = 9 ∨ b = 10 ∨ b = 13

instance (s : List UInt8) : Decidable (Blank s) := List.decidableBAll _ s

/-! ## Numbers -/

def digitByte (d : Fin 10) : UInt8 := 48 + .ofNat d

/-- The part of a number behind `e` or `E`, with `true` for a minus sign. -/
structure Exponent where
  upper : Bool
  sign : Option Bool
  digits : List (Fin 10)
  nonempty : digits ≠ []

/-- The digits as one number. -/
def Exponent.magnitude (e : Exponent) : ℕ := e.digits.foldl (fun n (d : Fin 10) => n * 10 + d.val) 0

def Exponent.value (e : Exponent) : ℤ := e.magnitude * if e.sign = some true then -1 else 1

/-- A number; without a fraction `frac` is empty. -/
structure Number where
  negative : Bool
  int : List (Fin 10)
  frac : List (Fin 10)
  exp : Option Exponent
  nonempty : int ≠ []
  leading : int.head? = some 0 → int = [0]

def Exponent.text (e : Exponent) : List UInt8 :=
  (if e.upper then 69 else 101) ::
    ((match e.sign with
      | none => []
      | some true => [45]
      | some false => [43]) ++ e.digits.map digitByte)

def Number.text (k : Number) : List UInt8 :=
  (if k.negative then [45] else []) ++ k.int.map digitByte ++
    (if k.frac = [] then [] else 46 :: k.frac.map digitByte) ++ (k.exp.map Exponent.text).getD []

/-! ## Strings -/

def hexDigit (b : UInt8) : Option ℕ :=
  if 48 ≤ b ∧ b ≤ 57 then some (b.toNat - 48)
  else if 65 ≤ b ∧ b ≤ 70 then some (b.toNat - 55)
  else if 97 ≤ b ∧ b ≤ 102 then some (b.toNat - 87)
  else none

/-- The code unit of UTF-16 that four hexadecimal digits stand for. -/
def codeUnit : List UInt8 → Option ℕ
  | [a, b, c, d] => do
    return (((← hexDigit a) * 16 + (← hexDigit b)) * 16 + (← hexDigit c)) * 16 + (← hexDigit d)
  | _ => none

/-- The bytes that stand behind a backslash for another one. -/
def shortEscapes : List (UInt8 × UInt8) :=
  [(34, 34), (92, 92), (47, 47), (98, 8), (102, 12), (110, 10), (114, 13), (116, 9)]

/-- What stands between the quotes, and the bytes of the characters. -/
inductive Body : List UInt8 → List UInt8 → Prop
  | nil : Body [] []
  | plain {b s t} : 32 ≤ b → b ≠ 34 → b ≠ 92 → Body s t → Body (b :: s) (b :: t)
  | short {e s t} : e ∈ shortEscapes → Body s t → Body (92 :: e.1 :: s) (e.2 :: t)
  | unit {u s t} (c : Char) : codeUnit u = some c.toNat → c.toNat ≠ 0 → Body s t →
      Body (92 :: 117 :: (u ++ s)) (String.utf8EncodeChar c ++ t)
  | pair {u v s t high low} (c : Char) : codeUnit u = some high → codeUnit v = some low →
      0xD800 ≤ high → high < 0xDC00 → 0xDC00 ≤ low → low < 0xE000 →
      c.toNat = 0x10000 + (high - 0xD800) * 0x400 + (low - 0xDC00) → Body s t →
      Body (92 :: 117 :: (u ++ 92 :: 117 :: (v ++ s))) (String.utf8EncodeChar c ++ t)

/-- A text of a string. -/
def IsString (name text : List UInt8) : Prop := ∃ body, Body body name ∧ text = 34 :: (body ++ [34])

/-! ## Values -/

section Texts

variable {N : Type} (read : Number → N)

mutual

/-- A text of a value, without white space around it. -/
def IsText : Value N → List UInt8 → Prop
  | .null, s => s = ofString "null"
  | .bool false, s => s = ofString "false"
  | .bool true, s => s = ofString "true"
  | .number n, s => ∃ k, read k = n ∧ s = Number.text k
  | .string name, s => IsString name s
  | .array elements, s => ∃ body, AreElements elements body ∧ s = 91 :: (body ++ [93])
  | .object members, s => ∃ body, AreMembers members body ∧ s = 123 :: (body ++ [125])

/-- What stands between the brackets. -/
def AreElements : List (Value N) → List UInt8 → Prop
  | [], s => Blank s
  | v :: rest, s => ∃ w t w' more, Blank w ∧ IsText v t ∧ Blank w' ∧ s = w ++ (t ++ (w' ++ more)) ∧
      (rest = [] ∧ more = [] ∨ rest ≠ [] ∧ ∃ s', AreElements rest s' ∧ more = 44 :: s')

/-- What stands between the braces. -/
def AreMembers : List (List UInt8 × Value N) → List UInt8 → Prop
  | [], s => Blank s
  | (name, v) :: rest, s => ∃ w q w' x t y more, Blank w ∧ IsString name q ∧ Blank w' ∧ Blank x ∧
      IsText v t ∧ Blank y ∧ s = w ++ (q ++ (w' ++ 58 :: (x ++ (t ++ (y ++ more))))) ∧
      (rest = [] ∧ more = [] ∨ rest ≠ [] ∧ ∃ s', AreMembers rest s' ∧ more = 44 :: s')

end

/-- A text of a value, with white space around it. -/
def IsDocument (v : Value N) (s : List UInt8) : Prop :=
  ∃ w t w', Blank w ∧ IsText read v t ∧ Blank w' ∧ s = w ++ (t ++ w')

variable {read}

/-! ## Other readings of the numbers -/

section Readings

variable {M : Type} {read' : Number → M} {f : N → M}

theorem areElements_map {elements : List (Value N)}
    (h : ∀ v ∈ elements, ∀ t, IsText read v t → IsText read' (v.map f) t) {s : List UInt8}
    (hs : AreElements read elements s) : AreElements read' (mapElements f elements) s := by
  induction elements generalizing s with
  | nil =>
      rw [AreElements] at hs
      rwa [mapElements, AreElements]
  | cons v rest ih =>
      rw [AreElements] at hs
      obtain ⟨w, t, w', more, hw, ht, hw', rfl, hmore⟩ := hs
      have hv := h v List.mem_cons_self t ht
      have ih := fun s' => ih (fun v hv => h v (List.mem_cons_of_mem _ hv)) (s := s')
      rw [mapElements, AreElements]
      refine ⟨w, t, w', more, hw, hv, hw', rfl, ?_⟩
      cases rest with
      | nil =>
          obtain ⟨-, rfl⟩ | ⟨hmany, -⟩ := hmore
          · exact .inl ⟨rfl, rfl⟩
          · exact absurd rfl hmany
      | cons v' rest =>
          obtain ⟨hnil, -⟩ | ⟨-, s', hs', rfl⟩ := hmore
          · cases hnil
          · exact .inr ⟨List.cons_ne_nil _ _, s', ih s' hs', rfl⟩

theorem areMembers_map {members : List (List UInt8 × Value N)}
    (h : ∀ m ∈ members, ∀ t, IsText read m.2 t → IsText read' (m.2.map f) t) {s : List UInt8}
    (hs : AreMembers read members s) : AreMembers read' (mapMembers f members) s := by
  induction members generalizing s with
  | nil =>
      rw [AreMembers] at hs
      rwa [mapMembers, AreMembers]
  | cons m rest ih =>
      obtain ⟨name, v⟩ := m
      rw [AreMembers] at hs
      obtain ⟨w, q, w', x, t, y, more, hw, hq, hw', hx, ht, hy, rfl, hmore⟩ := hs
      have hv := h (name, v) List.mem_cons_self t ht
      have ih := fun s' => ih (fun m hm => h m (List.mem_cons_of_mem _ hm)) (s := s')
      rw [mapMembers, AreMembers]
      refine ⟨w, q, w', x, t, y, more, hw, hq, hw', hx, hv, hy, rfl, ?_⟩
      cases rest with
      | nil =>
          obtain ⟨-, rfl⟩ | ⟨hmany, -⟩ := hmore
          · exact .inl ⟨rfl, rfl⟩
          · exact absurd rfl hmany
      | cons m' rest =>
          obtain ⟨hnil, -⟩ | ⟨-, s', hs', rfl⟩ := hmore
          · cases hnil
          · exact .inr ⟨List.cons_ne_nil _ _, s', ih s' hs', rfl⟩

/-- A text of a value is one of the value whose numbers are read in another way. -/
theorem isText_map {v : Value N} {s : List UInt8} (h : IsText read v s)
    (hf : v.AllNumbers fun n => ∀ k, read k = n → read' k = f n) : IsText read' (v.map f) s := by
  induction v using Value.induction generalizing s with
  | null =>
      rw [IsText] at h
      rwa [Value.map, IsText]
  | bool b =>
      rw [Value.map]
      cases b
      all_goals
        rw [IsText] at h
        rwa [IsText]
  | number n =>
      cases hf with
      | number hn =>
          rw [IsText] at h
          obtain ⟨k, hk, rfl⟩ := h
          rw [Value.map, IsText]
          exact ⟨k, hn k hk, rfl⟩
  | string name =>
      rw [IsText] at h
      rwa [Value.map, IsText]
  | array elements ih =>
      cases hf with
      | array helements =>
          rw [IsText] at h
          obtain ⟨body, hbody, rfl⟩ := h
          rw [Value.map, IsText]
          exact ⟨body, areElements_map (fun v hv t ht => ih v hv ht (helements v hv)) hbody, rfl⟩
  | object members ih =>
      cases hf with
      | object hnames hmembers =>
          rw [IsText] at h
          obtain ⟨body, hbody, rfl⟩ := h
          rw [Value.map, IsText]
          exact ⟨body, areMembers_map (fun m hm t ht => ih m hm ht (hmembers m hm)) hbody, rfl⟩

end Readings

/-! ## Zero bytes -/

theorem zero_not_mem_blank {s : List UInt8} (h : Blank s) : (0 : UInt8) ∉ s := by
  intro h0
  rcases h 0 h0 with h | h | h | h
  all_goals exact absurd h (by decide)

theorem zero_not_mem_digits (ds : List (Fin 10)) : (0 : UInt8) ∉ ds.map digitByte := by
  intro h0
  obtain ⟨d, -, hd⟩ := List.mem_map.mp h0
  revert hd
  decide +revert

theorem zero_not_mem_number (k : Number) : (0 : UInt8) ∉ k.text := by
  obtain ⟨negative, int, frac, exp, _, _⟩ := k
  have hfrac : (0 : UInt8) ∉ (if frac = [] then [] else 46 :: frac.map digitByte) := by
    split
    · exact List.not_mem_nil
    · rw [List.mem_cons, not_or]
      exact ⟨by decide, zero_not_mem_digits frac⟩
  have hexp : (0 : UInt8) ∉ (exp.map Exponent.text).getD [] := by
    cases exp with
    | none => exact List.not_mem_nil
    | some e =>
        obtain ⟨upper, sign, digits, _⟩ := e
        simp only [Option.map_some, Option.getD_some, Exponent.text, List.mem_cons,
          List.mem_append, not_or]
        refine ⟨?_, ?_, zero_not_mem_digits digits⟩
        · cases upper <;> simp
        · rcases sign with _ | _ | _
          all_goals decide
  simp only [Number.text, List.mem_append, not_or]
  refine ⟨⟨⟨?_, zero_not_mem_digits int⟩, hfrac⟩, hexp⟩
  cases negative <;> simp

theorem zero_not_mem_codeUnit {u : List UInt8} {n : ℕ} (h : codeUnit u = some n) :
    (0 : UInt8) ∉ u := by
  have hdigit : ∀ m, hexDigit 0 ≠ some m := by
    intro m hm
    cases (by decide : hexDigit 0 = none).symm.trans hm
  unfold codeUnit at h
  split at h
  · rename_i a b c d
    simp only [Option.bind_eq_bind, Option.bind_eq_some_iff] at h
    obtain ⟨i, hi, j, hj, k, hk, l, hl, -⟩ := h
    simp only [List.mem_cons, List.not_mem_nil, or_false, not_or]
    refine ⟨?_, ?_, ?_, ?_⟩
    · rintro rfl
      exact hdigit i hi
    · rintro rfl
      exact hdigit j hj
    · rintro rfl
      exact hdigit k hk
    · rintro rfl
      exact hdigit l hl
  · cases h

theorem zero_not_mem_isString {name t : List UInt8} (h : IsString name t) : (0 : UInt8) ∉ t := by
  obtain ⟨body, hbody, rfl⟩ := h
  have hinside : (0 : UInt8) ∉ body := by
    induction hbody with
    | nil => exact List.not_mem_nil
    | plain hlow _ _ _ ih =>
        rw [List.mem_cons, not_or]
        refine ⟨?_, ih⟩
        rintro rfl
        exact absurd hlow (by decide)
    | @short e s t he _ ih =>
        have hall : ∀ e ∈ shortEscapes, (0 : UInt8) ≠ e.1 :=
          List.forall_iff_forall_mem.mp (by decide)
        simp only [List.mem_cons, not_or]
        exact ⟨by decide, hall e he, ih⟩
    | unit c hu _ _ ih =>
        simp only [List.mem_cons, List.mem_append, not_or]
        exact ⟨by decide, by decide, zero_not_mem_codeUnit hu, ih⟩
    | pair c hu hv _ _ _ _ _ _ ih =>
        simp only [List.mem_cons, List.mem_append, not_or]
        exact ⟨by decide, by decide, zero_not_mem_codeUnit hu, by decide, by decide,
          zero_not_mem_codeUnit hv, ih⟩
  simp only [List.mem_cons, List.mem_append, List.not_mem_nil, or_false, not_or]
  exact ⟨by decide, hinside, by decide⟩

theorem zero_not_mem_elements {elements : List (Value N)} {s : List UInt8}
    (h : ∀ v ∈ elements, ∀ t, IsText read v t → (0 : UInt8) ∉ t)
    (hs : AreElements read elements s) : (0 : UInt8) ∉ s := by
  induction elements generalizing s with
  | nil =>
      rw [AreElements] at hs
      exact zero_not_mem_blank hs
  | cons v rest ih =>
      rw [AreElements] at hs
      obtain ⟨w, t, w', more, hw, ht, hw', rfl, hmore⟩ := hs
      have hbehind : (0 : UInt8) ∉ more := by
        rcases hmore with ⟨-, rfl⟩ | ⟨-, s', hs', rfl⟩
        · exact List.not_mem_nil
        · rw [List.mem_cons, not_or]
          exact ⟨by decide, ih (fun v hv => h v (List.mem_cons_of_mem _ hv)) hs'⟩
      simp only [List.mem_append, not_or]
      exact ⟨zero_not_mem_blank hw, h v List.mem_cons_self t ht, zero_not_mem_blank hw', hbehind⟩

theorem zero_not_mem_members {members : List (List UInt8 × Value N)} {s : List UInt8}
    (h : ∀ m ∈ members, ∀ t, IsText read m.2 t → (0 : UInt8) ∉ t)
    (hs : AreMembers read members s) : (0 : UInt8) ∉ s := by
  induction members generalizing s with
  | nil =>
      rw [AreMembers] at hs
      exact zero_not_mem_blank hs
  | cons m rest ih =>
      obtain ⟨name, v⟩ := m
      rw [AreMembers] at hs
      obtain ⟨w, q, w', x, t, y, more, hw, hq, hw', hx, ht, hy, rfl, hmore⟩ := hs
      have hbehind : (0 : UInt8) ∉ more := by
        rcases hmore with ⟨-, rfl⟩ | ⟨-, s', hs', rfl⟩
        · exact List.not_mem_nil
        · rw [List.mem_cons, not_or]
          exact ⟨by decide, ih (fun m hm => h m (List.mem_cons_of_mem _ hm)) hs'⟩
      simp only [List.mem_append, List.mem_cons, not_or]
      exact ⟨zero_not_mem_blank hw, zero_not_mem_isString hq, zero_not_mem_blank hw', by decide,
        zero_not_mem_blank hx, h (name, v) List.mem_cons_self t ht, zero_not_mem_blank hy, hbehind⟩

/-- No text of a value has a zero byte in it. -/
theorem zero_not_mem_isText {v : Value N} {t : List UInt8} (h : IsText read v t) :
    (0 : UInt8) ∉ t := by
  induction v using Value.induction generalizing t with
  | null =>
      rw [IsText] at h
      rw [h]
      decide
  | bool b =>
      cases b
      all_goals
        rw [IsText] at h
        rw [h]
        decide
  | number n =>
      rw [IsText] at h
      obtain ⟨k, -, rfl⟩ := h
      exact zero_not_mem_number k
  | string s =>
      rw [IsText] at h
      exact zero_not_mem_isString h
  | array elements ih =>
      rw [IsText] at h
      obtain ⟨body, hbody, rfl⟩ := h
      have hinside := zero_not_mem_elements (fun v hv t ht => ih v hv ht) hbody
      simp only [List.mem_cons, List.mem_append, List.not_mem_nil, or_false, not_or]
      exact ⟨by decide, hinside, by decide⟩
  | object members ih =>
      rw [IsText] at h
      obtain ⟨body, hbody, rfl⟩ := h
      have hinside := zero_not_mem_members (fun m hm t ht => ih m hm ht) hbody
      simp only [List.mem_cons, List.mem_append, List.not_mem_nil, or_false, not_or]
      exact ⟨by decide, hinside, by decide⟩

end Texts

end ServerKit.Json
