import Mathlib.Data.List.DropRight
import ServerKit.CJson.Numbers
import ServerKit.CJson.Ownership

/-! # The parser accepts JSON

When no call of `malloc` fails, every text of a value is parsed to that value. -/

namespace ServerKit.CJson

open ServerKit.Blocks ServerKit.CString ServerKit.Json

/-! ## Strings -/

/-- No character but NUL is encoded with a zero byte. -/
theorem zero_not_mem_utf8EncodeChar {c : Char} (hc : c.toNat ≠ 0) :
    (0 : UInt8) ∉ String.utf8EncodeChar c := by
  have hvalid : c.val.toNat < 0x110000 := by
    rcases c.valid with h | h
    · exact h.trans (by decide)
    · exact h.2
  have hofNat : ∀ n : ℕ, n < 256 → n ≠ 0 → (0 : UInt8) ≠ UInt8.ofNat n := by
    intro n hn hne heq
    have htoNat := congrArg UInt8.toNat heq
    rw [UInt8.toNat_ofNat_of_lt' hn] at htoNat
    exact hne htoNat.symm
  have hc' : c.val.toNat ≠ 0 := hc
  unfold String.utf8EncodeChar
  simp only
  split_ifs
  all_goals
    simp only [List.mem_cons, List.not_mem_nil, or_false, not_or]
    repeat' apply And.intro
  all_goals
    apply hofNat
    all_goals omega

theorem zero_not_mem_body {body bytes : List UInt8} (h : Body body bytes) :
    (0 : UInt8) ∉ bytes := by
  induction h with
  | nil => exact List.not_mem_nil
  | @plain b s t hlow _ _ _ ih =>
      rw [List.mem_cons, not_or]
      refine ⟨?_, ih⟩
      rintro rfl
      exact absurd hlow (by decide)
  | @short e s t he _ ih =>
      have hall : ∀ e ∈ shortEscapes, (0 : UInt8) ≠ e.2 :=
        List.forall_iff_forall_mem.mp (by decide)
      rw [List.mem_cons, not_or]
      exact ⟨hall e he, ih⟩
  | unit c _ hc _ ih =>
      rw [List.mem_append, not_or]
      exact ⟨zero_not_mem_utf8EncodeChar hc, ih⟩
  | pair c _ _ _ _ _ _ hc _ ih =>
      rw [List.mem_append, not_or]
      exact ⟨zero_not_mem_utf8EncodeChar (by omega), ih⟩

theorem unescape_short {e : UInt8 × UInt8} (he : e ∈ shortEscapes) (s : List UInt8) :
    e.1 ≠ 117 ∧ unescape (e.1 :: s) = some ([e.2], e.1 :: s) := by
  simp only [shortEscapes, List.mem_cons, List.not_mem_nil, or_false] at he
  rcases he with rfl | rfl | rfl | rfl | rfl | rfl | rfl | rfl
  all_goals exact ⟨by decide, rfl⟩

/-- Two surrogates stand for a code point above the first 65536. -/
theorem codePoint_eq {high low : ℕ} (hhigh : 0xD800 ≤ high ∧ high < 0xDC00)
    (hlow : 0xDC00 ≤ low ∧ low < 0xE000) :
    0x10000 + (((high &&& 0x3FF) <<< 10) ||| (low &&& 0x3FF)) =
      0x10000 + (high - 0xD800) * 0x400 + (low - 0xDC00) := by
  have hmask : ∀ n, n &&& 0x3FF = n % 1024 := fun n => Nat.and_two_pow_sub_one_eq_mod n 10
  rw [hmask, hmask, ← Nat.shiftLeft_add_eq_or_of_lt (Nat.mod_lt low (by decide)),
    Nat.shiftLeft_eq]
  omega

/-- The loops on the text of a string. -/
theorem copies_body {body bytes : List UInt8} (h : Body body bytes) (rest : List UInt8) :
    ∃ n, Copies (body ++ 34 :: rest) n bytes (34 :: rest) := by
  induction h with
  | nil => exact ⟨0, copies_end (.inl rfl)⟩
  | @plain b s t hlow hquote hbackslash _ ih =>
      obtain ⟨n, hn⟩ := ih
      refine ⟨n + 1, hn.plain ⟨hquote, hbackslash, ?_⟩⟩
      rintro rfl
      exact absurd hlow (by decide)
  | @short e s t he _ ih =>
      obtain ⟨n, hn⟩ := ih
      obtain ⟨hne, hunescape⟩ := unescape_short he (s ++ 34 :: rest)
      obtain ⟨b, hb, hcopies⟩ := hn.short hne
      rw [hunescape] at hb
      obtain rfl : e.2 = b := by simpa using hb
      exact ⟨n + 1, hcopies⟩
  | @unit u s t c hu hc _ ih =>
      obtain ⟨n, hn⟩ := ih
      have hvalid : c.toNat < 0xD800 ∨ 0xDFFF < c.toNat ∧ c.toNat < 0x110000 := c.valid
      have hlow : ¬ (0xDC00 ≤ c.toNat ∧ c.toNat ≤ 0xDFFF ∨ c.toNat = 0) := by omega
      have hhigh : ¬ (0xD800 ≤ c.toNat ∧ c.toNat ≤ 0xDBFF) := by omega
      have hunescape := unescape_eq hu (s ++ 34 :: rest)
      rw [if_neg hlow, if_neg hhigh, utf8Loop_eq] at hunescape
      refine ⟨n + 5, ?_⟩
      rw [List.cons_append, List.cons_append, List.append_assoc]
      refine hn.unit hu hunescape ?_
      rw [← utf8Loop_eq, length_utf8Loop _ _ _ (utf8Length_mem _).1]
      exact (utf8Length_mem _).2.trans (by decide)
  | @pair u v s t high low c hu hv hhigh hhigh' hlow hlow' hc _ ih =>
      obtain ⟨n, hn⟩ := ih
      refine ⟨n + 10, ?_⟩
      have hcode := codePoint_eq ⟨hhigh, hhigh'⟩ ⟨hlow, hlow'⟩
      have hin : ¬ (low < 0xDC00 ∨ 0xDFFF < low) := by omega
      have hpair := hn.pair hu hv ⟨hhigh, Nat.le_of_lt_succ hhigh'⟩ rfl
      simp only [if_neg hin, hcode, ← hc, utf8Loop_eq] at hpair
      simpa using hpair

section Values

variable {D N : Type} {succeeds : ℕ → Bool} {a : Doubles D} {num : ℤ → D → N}

/-- A string is parsed when its block can be had. -/
theorem triple_parseString_isString (hall : ∀ n, succeeds n = true) (item : Item D)
    {name t : List UInt8} (ht : IsString name t) (rest : List UInt8) :
    Triple 0 (parseString succeeds item (t ++ rest)) fun r G =>
      ∃ s : Str, r = (.mk { item.node with valuestring := some s, kind := .string } item.child,
        .ok rest) ∧ G = {s.block} ∧ text s.bytes = name := by
  obtain ⟨body, hbody, rfl⟩ := ht
  obtain ⟨n, hcopies⟩ := copies_body hbody rest
  have htext : 34 :: (body ++ [34]) ++ rest = 34 :: (body ++ 34 :: rest) := by simp
  have hquote : deref (34 :: (body ++ 34 :: rest)) = 34 := rfl
  rw [htext]
  refine (triple_parseString_copies succeeds item hquote hcopies).mono ?_
  rintro r G (⟨-, -, hfail⟩ | ⟨s, rfl, rfl, hs⟩)
  · exact absurd hall hfail
  · exact ⟨s, rfl, rfl, by rw [hs, text_eq_self.mpr (zero_not_mem_body hbody)]⟩

/-! ## White space -/

theorem skip_blank {w : List UInt8} (hw : Blank w) (rest : List UInt8) :
    skip (w ++ rest) = skip rest := by
  apply List.dropWhile_append_of_pos
  intro b hb
  rcases hw b hb with rfl | rfl | rfl | rfl
  all_goals decide

theorem skip_eq {p : List UInt8} (h : 32 < deref p) : skip p = p := by
  cases p with
  | nil => exact absurd h (by decide)
  | cons b p =>
      apply List.dropWhile_cons_of_neg
      have hb : ¬ b ≤ 32 := UInt8.not_le.mpr h
      simp [hb]

theorem skip_cons {b : UInt8} (h : 32 < b) (p : List UInt8) : skip (b :: p) = b :: p := skip_eq h

theorem skip_skip (p : List UInt8) : skip (skip p) = skip p := List.dropWhile_idempotent _ p

/-- No byte with which a value could go on. -/
def Follows (rest : List UInt8) : Prop := deref rest ∈ [0, 9, 10, 13, 32, 44, 93, 125]

theorem follows_cons {b : UInt8} (h : b ∈ [0, 9, 10, 13, 32, 44, 93, 125]) (rest : List UInt8) :
    Follows (b :: rest) := h

theorem Follows.ends {rest : List UInt8} (h : Follows rest) : Ends rest := by
  have hall : ∀ b ∈ ([0, 9, 10, 13, 32, 44, 93, 125] : List UInt8),
      isDigit b = false ∧ b ≠ 46 ∧ ¬ (b = 101 ∨ b = 69) :=
    List.forall_iff_forall_mem.mp (by decide)
  obtain ⟨hdigit, hpoint, hexponent⟩ := hall _ h
  exact ⟨hdigit, hpoint, hexponent⟩

theorem follows_blank {w rest : List UInt8} (hw : Blank w) (h : Follows rest) :
    Follows (w ++ rest) := by
  cases w with
  | nil => exact h
  | cons b w =>
      show b ∈ ([0, 9, 10, 13, 32, 44, 93, 125] : List UInt8)
      rcases hw b List.mem_cons_self with rfl | rfl | rfl | rfl
      all_goals decide

/-! ## Values -/

/-- What is left behind when a text of `v` has been read up to `rest`. -/
def Accepted (num : ℤ → D → N) (item : Item D) (v : Value N) (rest : List UInt8)
    (r : Item D × End) (G : Multiset ℕ) : Prop :=
  G = r.1.blocks ∧ r.1.node.string = item.node.string ∧ r.2 = .ok rest ∧ r.1.value num = some v

/-- The texts of `v` that are shorter than `fuel` are read. -/
def Accepts (a : Doubles D) (num : ℤ → D → N) (fuel : ℕ)
    (parseValue : Item D → List UInt8 → Prog (Item D × End)) (v : Value N) : Prop :=
  ∀ t rest item, IsText (numberOf a num) v t → Follows rest → t.length < fuel → Unfilled item →
    Triple item.blocks (parseValue item (t ++ rest)) (Accepted num item v rest)

theorem deref_append {word : List UInt8} (h : word ≠ []) (rest : List UInt8) :
    deref (word ++ rest) = deref word := by
  obtain ⟨b, word, rfl⟩ := List.exists_cons_of_ne_nil h
  rfl

/-- The first byte of a number is its sign or a digit. -/
theorem deref_number (k : Number) (rest : List UInt8) :
    deref (k.text ++ rest) = 45 ∨ isDigit (deref (k.text ++ rest)) = true := by
  obtain ⟨negative, int, frac, exp, hint, hlead⟩ := k
  obtain ⟨d, ds, rfl⟩ := List.exists_cons_of_ne_nil hint
  cases negative
  · exact .inr (isDigit_digitByte d)
  · exact .inl rfl

theorem deref_isString {name t : List UInt8} (h : IsString name t) (rest : List UInt8) :
    deref (t ++ rest) = 34 := by
  obtain ⟨body, -, rfl⟩ := h
  rfl

/-- The text of a value starts with a byte that is neither white space nor a closing bracket. -/
theorem deref_isText {read : Number → N} {v : Value N} {t : List UInt8} (h : IsText read v t)
    (rest : List UInt8) : 32 < deref (t ++ rest) ∧ deref (t ++ rest) ≠ 93 := by
  have hword : ∀ word : List UInt8, 32 < deref word ∧ deref word ≠ 93 → word ≠ [] →
      32 < deref (word ++ rest) ∧ deref (word ++ rest) ≠ 93 := by
    intro word hfirst hne
    rwa [deref_append hne]
  cases v with
  | null =>
      rw [IsText] at h
      exact hword t (by rw [h]; decide) (by rw [h]; decide)
  | bool b =>
      cases b
      all_goals
        rw [IsText] at h
        exact hword t (by rw [h]; decide) (by rw [h]; decide)
  | number n =>
      rw [IsText] at h
      obtain ⟨k, -, rfl⟩ := h
      rcases deref_number k rest with hminus | hdigit
      · rw [hminus]
        exact ⟨by decide, by decide⟩
      · rw [isDigit, Bool.and_eq_true, decide_eq_true_eq, decide_eq_true_eq] at hdigit
        refine ⟨UInt8.lt_of_lt_of_le (by decide) hdigit.1, ?_⟩
        intro heq
        rw [heq] at hdigit
        exact absurd hdigit.2 (by decide)
  | string s =>
      rw [IsText] at h
      rw [deref_isString h]
      exact ⟨by decide, by decide⟩
  | array elements =>
      rw [IsText] at h
      obtain ⟨body, -, rfl⟩ := h
      exact hword _ (by simp) (List.cons_ne_nil _ _)
  | object members =>
      rw [IsText] at h
      obtain ⟨body, -, rfl⟩ := h
      exact hword _ (by simp) (List.cons_ne_nil _ _)

theorem triple_newItem_of_succeeds (hall : ∀ n, succeeds n = true) :
    Triple 0 (cJSONNewItem succeeds a.zero) fun r G => ∃ item, r = some item ∧ G = item.blocks ∧
      IsNew item := by
  refine (triple_cJSONNewItem a.zero).mono ?_
  intro r G h
  cases r with
  | none => exact absurd hall h.2
  | some item =>
      obtain ⟨hG, b, rfl⟩ := h
      exact ⟨_, rfl, hG, ⟨rfl, rfl, rfl, rfl⟩, rfl⟩

section Loops

variable {parseValue : Item D → List UInt8 → Prog (Item D × End)} {fuel : ℕ}

/-- White space in front of the text makes no difference to the loops. -/
theorem arrayLoop_skip (k : ℕ) (child : Item D) (p : List UInt8) :
    arrayLoop succeeds a parseValue k child (skip p) =
      arrayLoop succeeds a parseValue k child p := by
  cases k with
  | zero => rfl
  | succ k => rw [arrayLoop, arrayLoop, skip_skip]

theorem objectLoop_skip (k : ℕ) (child : Item D) (p : List UInt8) :
    objectLoop succeeds a parseValue k child (skip p) =
      objectLoop succeeds a parseValue k child p := by
  cases k with
  | zero => rfl
  | succ k => rw [objectLoop, objectLoop, skip_skip]

/-- What a loop leaves behind at the end of a list whose texts have been read. -/
def AcceptedAll {α : Type} (values : List (Item D) → Option α) (vs : α) (rest : List UInt8)
    (r : List (Item D) × End) (G : Multiset ℕ) : Prop :=
  G = blocksAll r.1 ∧ r.2 = .ok rest ∧ values r.1 = some vs

/-- The end of a round of either loop, with what the rounds behind it leave. -/
theorem triple_nextItem_of_succeeds (hall : ∀ n, succeeds n = true) {α : Type}
    {values : List (Item D) → Option α} {vs : α} {c : Item D} {w more rest : List UInt8}
    {loop : Item D → List UInt8 → Prog (List (Item D) × End)} {closing : UInt8}
    (hclosing : 32 < closing) (hcomma : closing ≠ 44) (hw : Blank w)
    (hmore : more = [] ∧ values [c] = some vs ∨ ∃ s, more = 44 :: s ∧
      ∀ newItem, IsNew newItem → Triple newItem.blocks (loop newItem (s ++ closing :: rest))
        (AcceptedAll (fun items => values (c :: items)) vs rest)) :
    Triple c.blocks (if deref (skip (w ++ (more ++ closing :: rest))) = 44 then do
        match ← cJSONNewItem succeeds a.zero with
        | none => return ([c], .error none)
        | some newItem => do
          let (items, r) ← loop newItem (skip (w ++ (more ++ closing :: rest))).tail
          return (c :: items, r)
      else if deref (skip (w ++ (more ++ closing :: rest))) = closing then
        return ([c], .ok (skip (w ++ (more ++ closing :: rest))).tail)
      else return ([c], .error (some (skip (w ++ (more ++ closing :: rest))))))
      (AcceptedAll values vs rest) := by
  simp only [skip_blank hw]
  rcases hmore with ⟨rfl, hlast⟩ | ⟨s, rfl, hloop⟩
  · rw [List.nil_append, skip_cons hclosing, deref_cons, if_neg hcomma, if_pos rfl]
    exact triple_pure ⟨(blocksAll_singleton c).symm, rfl, hlast⟩
  · rw [List.cons_append, skip_cons (by decide), deref_cons, if_pos rfl]
    refine (triple_newItem_of_succeeds hall).bind_alloc ?_
    rintro _ _ ⟨newItem, rfl, rfl, hnew⟩
    refine (hloop newItem hnew).bind_frame rfl ?_
    rintro ⟨items, e⟩ _ ⟨rfl, rfl, hitems⟩
    refine triple_pure ⟨?_, rfl, hitems⟩
    rw [blocksAll, add_comm]

theorem triple_arrayLoop_areElements (hall : ∀ n, succeeds n = true) {elements : List (Value N)}
    (h : ∀ v ∈ elements, Accepts a num fuel parseValue v) (hne : elements ≠ []) {s : List UInt8}
    (hs : AreElements (numberOf a num) elements s) (rest : List UInt8) (k : ℕ) (child : Item D)
    (hchild : Unfilled child) (hk : s.length < k) (hfuel : s.length < fuel) :
    Triple child.blocks (arrayLoop succeeds a parseValue k child (s ++ 93 :: rest))
      (AcceptedAll (elementValues num) elements rest) := by
  induction elements generalizing s k child with
  | nil => exact absurd rfl hne
  | cons v elements ih =>
      obtain ⟨k, rfl⟩ := Nat.exists_eq_add_one_of_ne_zero (Nat.ne_zero_of_lt hk)
      rw [AreElements] at hs
      obtain ⟨w, t, w', more, hw, ht, hw', rfl, hmore⟩ := hs
      simp only [List.length_append] at hk hfuel
      have hskip : skip (w ++ (t ++ (w' ++ more)) ++ 93 :: rest) =
          t ++ (w' ++ (more ++ 93 :: rest)) := by
        rw [List.append_assoc, skip_blank hw, List.append_assoc, List.append_assoc,
          skip_eq (deref_isText ht _).1]
      have hmore' : Follows (more ++ 93 :: rest) := by
        rcases hmore with ⟨-, rfl⟩ | ⟨-, s', -, rfl⟩
        all_goals exact follows_cons (by decide) _
      have hv := h v List.mem_cons_self t (w' ++ (more ++ 93 :: rest)) child ht
        (follows_blank hw' hmore') (by omega) hchild
      rw [arrayLoop, hskip]
      refine hv.bind ?_
      rintro ⟨c, r⟩ _ ⟨rfl, -, rfl, hvalue⟩
      have hc : c.value num = some v := hvalue
      refine triple_nextItem_of_succeeds hall (by decide) (by decide) hw' ?_
      rcases hmore with ⟨rfl, rfl⟩ | ⟨hmany, s', hs', rfl⟩
      · refine .inl ⟨rfl, ?_⟩
        rw [elementValues, hc, Option.bind_some, elementValues, Option.map_some]
      · refine .inr ⟨s', rfl, ?_⟩
        intro newItem hnew
        simp only [List.length_cons] at hk hfuel
        refine (ih (fun v hv => h v (List.mem_cons_of_mem _ hv)) hmany hs' k newItem hnew.1
          (by omega) (by omega)).mono ?_
        rintro r G ⟨hG, hend, hitems⟩
        refine ⟨hG, hend, ?_⟩
        simp only [elementValues, hc, Option.bind_some, hitems, Option.map_some]

theorem triple_objectLoop_areMembers (hall : ∀ n, succeeds n = true)
    {members : List (List UInt8 × Value N)}
    (h : ∀ m ∈ members, Accepts a num fuel parseValue m.2) (hne : members ≠ []) {s : List UInt8}
    (hs : AreMembers (numberOf a num) members s) (rest : List UInt8) (k : ℕ) (child : Item D)
    (hchild : IsNew child) (hk : s.length < k) (hfuel : s.length < fuel) :
    Triple child.blocks (objectLoop succeeds a parseValue k child (s ++ 125 :: rest))
      (AcceptedAll (memberValues num) members rest) := by
  induction members generalizing s k child with
  | nil => exact absurd rfl hne
  | cons m members ih =>
      obtain ⟨k, rfl⟩ := Nat.exists_eq_add_one_of_ne_zero (Nat.ne_zero_of_lt hk)
      obtain ⟨name, v⟩ := m
      rw [AreMembers] at hs
      obtain ⟨w, q, w', x, t, y, more, hw, hq, hw', hx, ht, hy, rfl, hmore⟩ := hs
      simp only [List.length_append, List.length_cons] at hk hfuel
      have hskip : skip (w ++ (q ++ (w' ++ 58 :: (x ++ (t ++ (y ++ more))))) ++ 125 :: rest) =
          q ++ (w' ++ 58 :: (x ++ (t ++ (y ++ (more ++ 125 :: rest))))) := by
        simp only [List.append_assoc, List.cons_append]
        rw [skip_blank hw, skip_eq]
        rw [deref_isString hq]
        decide
      have hmore' : Follows (more ++ 125 :: rest) := by
        rcases hmore with ⟨-, rfl⟩ | ⟨-, s', -, rfl⟩
        all_goals exact follows_cons (by decide) _
      rw [objectLoop, hskip]
      refine (triple_parseString_isString hall child hq _).bind_alloc ?_
      rintro _ _ ⟨s, rfl, rfl, hname⟩
      obtain ⟨hnamed, hstring, hblocks⟩ := hchild.1.takeName hchild.2 s
      rw [← hblocks]
      have hcolon : skip (w' ++ 58 :: (x ++ (t ++ (y ++ (more ++ 125 :: rest))))) =
          58 :: (x ++ (t ++ (y ++ (more ++ 125 :: rest)))) := by
        rw [skip_blank hw', skip_cons (by decide)]
      have hno : ¬ deref (58 :: (x ++ (t ++ (y ++ (more ++ 125 :: rest))))) ≠ 58 :=
        not_not_intro rfl
      simp only [hcolon, if_neg hno, List.tail_cons, skip_blank hx, skip_eq (deref_isText ht _).1]
      have hv := h (name, v) List.mem_cons_self t (y ++ (more ++ 125 :: rest)) _ ht
        (follows_blank hy hmore') (by omega) hnamed
      refine hv.bind ?_
      rintro ⟨c, r⟩ _ ⟨rfl, hkept, rfl, hvalue⟩
      have hc : c.value num = some v := hvalue
      have hcname : c.node.string = some s := hkept.trans hstring
      refine triple_nextItem_of_succeeds hall (by decide) (by decide) hy ?_
      rcases hmore with ⟨rfl, rfl⟩ | ⟨hmany, s', hs', rfl⟩
      · refine .inl ⟨rfl, ?_⟩
        rw [memberValues, hcname, Option.bind_some, hc, Option.bind_some, memberValues,
          Option.map_some, hname]
      · refine .inr ⟨s', rfl, ?_⟩
        intro newItem hnew
        simp only [List.length_cons] at hk hfuel
        refine (ih (fun m hm => h m (List.mem_cons_of_mem _ hm)) hmany hs' k newItem hnew
          (by omega) (by omega)).mono ?_
        rintro r G ⟨hG, hend, hitems⟩
        refine ⟨hG, hend, ?_⟩
        simp only [memberValues, hcname, hc, Option.bind_some, hitems, Option.map_some, hname]

/-- The inside of an empty list is passed. -/
theorem skip_blank_cons {s : List UInt8} (hs : Blank s) {b : UInt8} (hb : 32 < b)
    (rest : List UInt8) : skip (s ++ b :: rest) = b :: rest := by
  rw [skip_blank hs, skip_cons hb]

theorem triple_parseArray_areElements (hall : ∀ n, succeeds n = true) {elements : List (Value N)}
    (h : ∀ v ∈ elements, Accepts a num fuel parseValue v) {s : List UInt8}
    (hs : AreElements (numberOf a num) elements s) (rest : List UInt8) {item : Item D}
    (hitem : Unfilled item) (hfuel : s.length < fuel) :
    Triple item.blocks (parseArray succeeds a parseValue fuel item (91 :: (s ++ 93 :: rest)))
      (Accepted num item (.array elements) rest) := by
  rw [parseArray, deref_cons, if_neg (not_not_intro rfl), List.tail_cons]
  cases elements with
  | nil =>
      rw [AreElements] at hs
      simp only [skip_blank_cons hs (by decide : (32 : UInt8) < 93), deref_cons, if_true,
        List.tail_cons]
      refine triple_pure ⟨?_, rfl, rfl, ?_⟩
      · rw [hitem.blocks_setChild, hitem.child, blocksAll, add_zero]
      · rw [Item.value, hitem.child]
        rfl
  | cons v elements =>
      have hne : deref (skip (s ++ 93 :: rest)) ≠ 93 := by
        have hs' := hs
        rw [AreElements] at hs'
        obtain ⟨w, t, w', more, hw, ht, -, rfl, -⟩ := hs'
        rw [List.append_assoc, skip_blank hw, List.append_assoc, skip_eq (deref_isText ht _).1]
        exact (deref_isText ht _).2
      rw [if_neg hne]
      refine (triple_newItem_of_succeeds hall).bind_alloc ?_
      rintro _ _ ⟨child, rfl, rfl, hnew⟩
      simp only [arrayLoop_skip]
      refine (triple_arrayLoop_areElements hall h (List.cons_ne_nil v elements) hs rest fuel child
        hnew.1 hfuel hfuel).bind_frame rfl ?_
      rintro ⟨items, e⟩ _ ⟨rfl, rfl, hitems⟩
      refine triple_pure ⟨?_, rfl, rfl, ?_⟩
      · rw [hitem.blocks_setChild, add_comm]
      · have hitems : elementValues num items = some (v :: elements) := hitems
        show (elementValues num items).map Value.array = some (.array (v :: elements))
        rw [hitems, Option.map_some]

theorem triple_parseObject_areMembers (hall : ∀ n, succeeds n = true)
    {members : List (List UInt8 × Value N)}
    (h : ∀ m ∈ members, Accepts a num fuel parseValue m.2) {s : List UInt8}
    (hs : AreMembers (numberOf a num) members s) (rest : List UInt8) {item : Item D}
    (hitem : Unfilled item) (hfuel : s.length < fuel) :
    Triple item.blocks (parseObject succeeds a parseValue fuel item (123 :: (s ++ 125 :: rest)))
      (Accepted num item (.object members) rest) := by
  rw [parseObject, deref_cons, if_neg (not_not_intro rfl), List.tail_cons]
  cases members with
  | nil =>
      rw [AreMembers] at hs
      simp only [skip_blank_cons hs (by decide : (32 : UInt8) < 125), deref_cons, if_true,
        List.tail_cons]
      refine triple_pure ⟨?_, rfl, rfl, ?_⟩
      · rw [hitem.blocks_setChild, hitem.child, blocksAll, add_zero]
      · rw [Item.value, hitem.child]
        rfl
  | cons m members =>
      have hne : deref (skip (s ++ 125 :: rest)) ≠ 125 := by
        have hs' := hs
        rw [AreMembers] at hs'
        obtain ⟨w, q, w', x, t, y, more, hw, hq, -, -, -, -, rfl, -⟩ := hs'
        have hquote := deref_isString hq
        rw [List.append_assoc, skip_blank hw, List.append_assoc, skip_eq]
        · rw [hquote]
          decide
        · rw [hquote]
          decide
      rw [if_neg hne]
      refine (triple_newItem_of_succeeds hall).bind_alloc ?_
      rintro _ _ ⟨child, rfl, rfl, hnew⟩
      simp only [objectLoop_skip]
      refine (triple_objectLoop_areMembers hall h (List.cons_ne_nil m members) hs rest fuel child
        hnew hfuel hfuel).bind_frame rfl ?_
      rintro ⟨items, e⟩ _ ⟨rfl, rfl, hitems⟩
      refine triple_pure ⟨?_, rfl, rfl, ?_⟩
      · rw [hitem.blocks_setChild, add_comm]
      · have hitems : memberValues num items = some (m :: members) := hitems
        show (memberValues num items).map Value.object = some (.object (m :: members))
        rw [hitems, Option.map_some]

end Loops

/-- A word that starts with another byte is not there. -/
theorem take_ne {p word : List UInt8} {n : ℕ} {b : UInt8} (hword : deref word = b) (hn : 0 < n)
    (h : deref p ≠ b) : p.take n ≠ word := by
  rintro rfl
  obtain ⟨n, rfl⟩ := Nat.exists_eq_add_one_of_ne_zero hn.ne'
  cases p with
  | nil => exact h hword
  | cons c p => exact h hword

/-- No literal stands here. -/
theorem parseValue_of_deref (fuel : ℕ) (item : Item D) {p : List UInt8}
    (h : deref p ≠ 110 ∧ deref p ≠ 102 ∧ deref p ≠ 116) :
    parseValue succeeds a (fuel + 1) item p =
      if deref p = 34 then parseString succeeds item p
      else if deref p = 45 ∨ isDigit (deref p) then
        return ((parseNumber a item p).1, .ok (parseNumber a item p).2)
      else if deref p = 91 then parseArray succeeds a (parseValue succeeds a fuel) fuel item p
      else if deref p = 123 then parseObject succeeds a (parseValue succeeds a fuel) fuel item p
      else return (item, .error (some p)) := by
  rw [parseValue, if_neg (take_ne (by decide) (by decide) h.1),
    if_neg (take_ne (by decide) (by decide) h.2.1), if_neg (take_ne (by decide) (by decide) h.2.2)]

/-- What a value without blocks of its own needs to be accepted. -/
theorem accepted_setValue {item : Item D} (h : Unfilled item) {v : Value N} {rest : List UInt8}
    {node : Node D}
    (hnode : node.blocks = item.node.blocks ∧ node.isReference = item.node.isReference ∧
      node.string = item.node.string)
    (hvalue : (Item.mk node item.child).value num = some v) :
    Triple item.blocks (pure (Item.mk node item.child, Except.ok rest) : Prog (Item D × End))
      (Accepted num item v rest) := by
  refine triple_pure ⟨?_, hnode.2.2, rfl, hvalue⟩
  cases item with
  | mk n child => simp only [Item.blocks, hnode.1, hnode.2.1, Item.node, Item.child]

theorem accepts_null (fuel : ℕ) : Accepts a num fuel (parseValue succeeds a fuel) .null := by
  intro t rest item ht _ hfuel hitem
  obtain ⟨fuel, rfl⟩ := Nat.exists_eq_add_one_of_ne_zero (Nat.ne_zero_of_lt hfuel)
  rw [IsText] at ht
  subst ht
  rw [parseValue, if_pos (by rfl)]
  exact accepted_setValue hitem ⟨rfl, rfl, rfl⟩ rfl

theorem accepts_bool (b : Bool) (fuel : ℕ) :
    Accepts a num fuel (parseValue succeeds a fuel) (.bool b) := by
  intro t rest item ht _ hfuel hitem
  obtain ⟨fuel, rfl⟩ := Nat.exists_eq_add_one_of_ne_zero (Nat.ne_zero_of_lt hfuel)
  have hnull : deref (ofString "null") = 110 := by decide
  have hfalse : deref (ofString "false") = 102 := by decide
  cases b
  all_goals
    rw [IsText] at ht
    have hword : t ≠ [] := by rw [ht]; decide
    subst ht
    have hfirst := deref_append hword rest
    rw [parseValue, if_neg (take_ne hnull (by decide) (by rw [hfirst]; decide))]
  · rw [if_pos (by rfl)]
    exact accepted_setValue hitem ⟨rfl, rfl, rfl⟩ rfl
  · rw [if_neg (take_ne hfalse (by decide) (by rw [hfirst]; decide)), if_pos (by rfl)]
    exact accepted_setValue hitem ⟨rfl, rfl, rfl⟩ rfl

/-- What starts a number starts no literal and no string. -/
theorem not_literal_of_number {b : UInt8} (h : b = 45 ∨ isDigit b = true) :
    (b ≠ 110 ∧ b ≠ 102 ∧ b ≠ 116) ∧ b ≠ 34 := by
  rcases h with rfl | hb
  · decide
  · rw [isDigit, Bool.and_eq_true, decide_eq_true_eq, decide_eq_true_eq] at hb
    refine ⟨⟨?_, ?_, ?_⟩, ?_⟩
    all_goals
      rintro rfl
      revert hb
      decide

theorem accepts_number (n : N) (fuel : ℕ) :
    Accepts a num fuel (parseValue succeeds a fuel) (.number n) := by
  intro t rest item ht hrest hfuel hitem
  obtain ⟨fuel, rfl⟩ := Nat.exists_eq_add_one_of_ne_zero (Nat.ne_zero_of_lt hfuel)
  rw [IsText] at ht
  obtain ⟨k, rfl, rfl⟩ := ht
  have hderef := deref_number k rest
  obtain ⟨hliteral, hquote⟩ := not_literal_of_number hderef
  rw [parseValue_of_deref fuel item hliteral, if_neg hquote, if_pos hderef]
  unfold parseNumber
  rw [readNumber_append a k hrest.ends]
  exact accepted_setValue hitem ⟨rfl, rfl, rfl⟩ rfl

theorem accepts_string (hall : ∀ n, succeeds n = true) (s : List UInt8) (fuel : ℕ) :
    Accepts a num fuel (parseValue succeeds a fuel) (.string s) := by
  intro t rest item ht _ hfuel hitem
  obtain ⟨fuel, rfl⟩ := Nat.exists_eq_add_one_of_ne_zero (Nat.ne_zero_of_lt hfuel)
  rw [IsText] at ht
  have hquote := deref_isString ht rest
  rw [parseValue_of_deref fuel item (by rw [hquote]; decide), if_pos hquote]
  have hframe := (triple_parseString_isString hall item ht rest).frame item.blocks
  rw [zero_add] at hframe
  refine hframe.mono ?_
  rintro _ _ ⟨_, ⟨s', rfl, rfl, hs'⟩, rfl⟩
  refine ⟨(hitem.blocks_setString s').symm, rfl, rfl, ?_⟩
  rw [Item.value]
  exact congrArg (fun s => some (Value.string s)) hs'

/-- Every text of a value is read to its end. -/
theorem accepts_parseValue (hall : ∀ n, succeeds n = true) (v : Value N) (fuel : ℕ) :
    Accepts a num fuel (parseValue succeeds a fuel) v := by
  induction v using Value.induction generalizing fuel with
  | null => exact accepts_null fuel
  | bool b => exact accepts_bool b fuel
  | number n => exact accepts_number n fuel
  | string s => exact accepts_string hall s fuel
  | array elements ih =>
      intro t rest item ht _ hfuel hitem
      obtain ⟨fuel, rfl⟩ := Nat.exists_eq_add_one_of_ne_zero (Nat.ne_zero_of_lt hfuel)
      rw [IsText] at ht
      obtain ⟨s, hs, rfl⟩ := ht
      have htext : 91 :: (s ++ [93]) ++ rest = 91 :: (s ++ 93 :: rest) := by simp
      simp only [List.length_cons, List.length_append] at hfuel
      rw [htext, parseValue_of_deref fuel item (by rw [deref_cons]; decide), deref_cons,
        if_neg (by decide), if_neg (by decide), if_pos rfl]
      exact triple_parseArray_areElements hall (fun v hv => ih v hv fuel) hs rest hitem (by omega)
  | object members ih =>
      intro t rest item ht _ hfuel hitem
      obtain ⟨fuel, rfl⟩ := Nat.exists_eq_add_one_of_ne_zero (Nat.ne_zero_of_lt hfuel)
      rw [IsText] at ht
      obtain ⟨s, hs, rfl⟩ := ht
      have htext : 123 :: (s ++ [125]) ++ rest = 123 :: (s ++ 125 :: rest) := by simp
      simp only [List.length_cons, List.length_append] at hfuel
      rw [htext, parseValue_of_deref fuel item (by rw [deref_cons]; decide), deref_cons,
        if_neg (by decide), if_neg (by decide), if_neg (by decide), if_pos rfl]
      exact triple_parseObject_areMembers hall (fun m hm => ih m hm fuel) hs rest hitem (by omega)

/-! ## Documents -/

theorem triple_cJSONParseWithOpts_isText (hall : ∀ n, succeeds n = true) {v : Value N}
    {w t rest : List UInt8} (hw : Blank w) (ht : IsText (numberOf a num) v t)
    (hrest : Follows rest) (requireNullTerminated : Bool)
    (hend : requireNullTerminated = true → deref (skip rest) = 0) :
    Triple 0 (cJSONParseWithOpts succeeds a (w ++ (t ++ rest)) requireNullTerminated) fun r G =>
      ∃ c, r = .ok (c, if requireNullTerminated then skip rest else rest) ∧ G = c.blocks ∧
        c.value num = some v := by
  rw [cJSONParseWithOpts, skip_blank hw, skip_eq (deref_isText ht rest).1]
  refine (triple_newItem_of_succeeds hall).bind ?_
  rintro _ _ ⟨c, rfl, rfl, hnew⟩
  have hfuel : t.length < (w ++ (t ++ rest)).length + 1 := by
    simp only [List.length_append]
    omega
  refine (accepts_parseValue hall v _ t rest c ht hrest hfuel hnew.1).bind ?_
  rintro ⟨c', e⟩ _ ⟨rfl, -, rfl, hvalue⟩
  have hno : (requireNullTerminated && decide (deref (skip rest) ≠ 0)) = false := by
    cases hrequire : requireNullTerminated
    · rfl
    · simp [hend hrequire]
  simp only [hno, Bool.false_eq_true, if_false]
  exact triple_pure ⟨c', rfl, rfl, hvalue⟩

theorem triple_cJSONParseWithOpts_isDocument (hall : ∀ n, succeeds n = true) {v : Value N}
    {s : List UInt8} (hs : IsDocument (numberOf a num) v s) (requireNullTerminated : Bool) :
    Triple 0 (cJSONParseWithOpts succeeds a s requireNullTerminated) fun r G =>
      ∃ c e, r = .ok (c, e) ∧ G = c.blocks ∧ c.value num = some v ∧ Blank e ∧
        (requireNullTerminated = true → e = []) := by
  obtain ⟨w, t, w', hw, ht, hw', rfl⟩ := hs
  have hskip : skip w' = [] := by
    have hblank := skip_blank hw' []
    rwa [List.append_nil] at hblank
  have hrest : Follows w' := by
    have hnil : Follows [] := List.mem_cons_self
    have hblank := follows_blank hw' hnil
    rwa [List.append_nil] at hblank
  refine (triple_cJSONParseWithOpts_isText hall hw ht hrest requireNullTerminated
    fun _ => by rw [hskip]; rfl).mono ?_
  rintro r G ⟨c, rfl, hG, hvalue⟩
  refine ⟨c, _, rfl, hG, hvalue, ?_, ?_⟩
  · cases requireNullTerminated
    · exact hw'
    · rw [if_pos rfl, hskip]
      intro b hb
      cases hb
  · rintro rfl
    exact hskip

/-- The two fields of an item, from what the digits of a number stand for. -/
def fields (a : Doubles D) (num : ℤ → D → N) (k : Number) : N :=
  num (a.trunc (denoted a k)) (denoted a k)

/-- A JSON document is parsed to what its syntax tree `v` stands for, and up to its end if it is
looked for. -/
theorem cJSONParseWithOpts_isDocument (succeeds : ℕ → Bool) (hall : ∀ n, succeeds n = true)
    (a : Doubles D) (num : ℤ → D → N) {v : Value Number} {s : List UInt8}
    (hs : IsDocument id v s) (hfits : v.AllNumbers ExponentFits) (requireNullTerminated : Bool)
    (h : Heap) :
    ∃ c e h', cJSONParseWithOpts succeeds a s requireNullTerminated h = some (.ok (c, e), h') ∧
      c.value num = some (v.map (fields a num)) ∧ Blank e ∧
      (requireNullTerminated = true → e = []) ∧ h'.live = c.blocks + h.live := by
  have hread : v.AllNumbers fun n => ∀ k, id k = n → numberOf a num k = fields a num n := by
    refine hfits.imp ?_
    rintro _ hk k rfl
    have hk : ExponentFits k := hk
    rw [numberOf, fields, id, decimal_eq_denoted hk]
  obtain ⟨w, t, w', hw, ht, hw', rfl⟩ := hs
  obtain ⟨_, h', _, hrun, hlive, c, e, rfl, rfl, hvalue, hblank, hend⟩ :=
    (triple_cJSONParseWithOpts_isDocument hall ⟨w, t, w', hw, isText_map ht hread, hw', rfl⟩
      requireNullTerminated).run h
  exact ⟨c, e, h', hrun, hvalue, hblank, hend, hlive⟩

/-- A document with white space in it. -/
theorem isDocument_spaced (read : Number → N) (k : Number) :
    IsDocument read (.array [.bool true, .number (read k)])
      (ofString " [true ," ++ (k.text ++ ofString "]\n")) := by
  refine ⟨[32], ofString "[true ," ++ (k.text ++ [93]), [10], by decide,
    ⟨ofString "true ," ++ k.text, ?_, ?_⟩, by decide, ?_⟩
  · refine ⟨[], ofString "true", [32], 44 :: k.text, by decide, rfl, by decide, rfl,
      .inr ⟨List.cons_ne_nil _ _, k.text, ?_, rfl⟩⟩
    exact ⟨[], k.text, [], [], by decide, ⟨k, rfl, rfl⟩, by decide, by simp, .inl ⟨rfl, rfl⟩⟩
  · rw [List.append_assoc]
    rfl
  · rw [List.append_assoc, List.append_assoc]
    rfl

/-- The digits of 12. -/
def twelve : List (Fin 10) := [⟨1, by decide⟩, ⟨2, by decide⟩]

theorem twelve_leading : twelve.head? = some 0 → twelve = [0] := by decide

/-- The number `12e2`. -/
def twelveHundred : Number where
  negative := false
  int := twelve
  frac := []
  exp := some ⟨false, none, [⟨2, by decide⟩], List.cons_ne_nil _ _⟩
  nonempty := List.cons_ne_nil _ _
  leading := twelve_leading

theorem cJSONParseWithOpts_isDocument_spaced : ∃ c e h',
    cJSONParseWithOpts (fun _ => true) integers (ofString " [true ,12e2]\n") true ⟨0, 0⟩ =
        some (.ok (c, e), h') ∧
      c.value Prod.mk = some (.array [.bool true, .number (1200, 1200)]) ∧ Blank e ∧
      (true = true → e = []) ∧ h'.live = c.blocks + 0 := by
  have hfits : Value.AllNumbers ExponentFits (.array [.bool true, .number twelveHundred]) := by
    refine .array ?_
    intro v hv
    rcases List.mem_pair.mp hv with rfl | rfl
    · exact .bool true
    · refine .number ?_
      rintro e ⟨⟩
      decide
  exact cJSONParseWithOpts_isDocument (fun _ => true) (fun _ => rfl) integers Prod.mk
    (isDocument_spaced id twelveHundred) hfits true ⟨0, 0⟩

theorem zero_not_mem_isDocument {read : Number → N} {v : Value N} {s : List UInt8}
    (hs : IsDocument read v s) : (0 : UInt8) ∉ s := by
  obtain ⟨w, t, w', hw, ht, hw', rfl⟩ := hs
  simp only [List.mem_append, not_or]
  exact ⟨zero_not_mem_blank hw, zero_not_mem_isText ht, zero_not_mem_blank hw'⟩

/-- `cJSON_Parse` on a memory area with a document in it. -/
theorem triple_cJSONParse_isDocument (hall : ∀ n, succeeds n = true) {v : Value N} {s : List UInt8}
    (hs : IsDocument (numberOf a num) v s) (junk : List UInt8) :
    Triple 0 (cJSONParse succeeds a (s ++ 0 :: junk)) fun r G =>
      ∃ c, r = some c ∧ G = c.blocks ∧ c.value num = some v := by
  rw [cJSONParse, cstr_append (zero_not_mem_isDocument hs)]
  refine (triple_compute (Q := fun value G => value = s ∧ G = 0) ⟨rfl, rfl⟩).bind ?_
  rintro _ _ ⟨rfl, rfl⟩
  refine (triple_cJSONParseWithOpts_isDocument hall hs false).bind ?_
  rintro _ G ⟨c, e, rfl, hG, hvalue, -, -⟩
  exact triple_pure ⟨c, rfl, hG, hvalue⟩

end Values

end ServerKit.CJson
