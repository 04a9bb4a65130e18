import ServerKit.CJson.Complete
import ServerKit.CJson.Value

/-! # What the parser allocates

Whatever calls of `malloc` fail, what the parser has allocated hangs at the item, so that a failing
call of `cJSON_Parse` frees it all. -/

namespace ServerKit.CJson

open ServerKit.Blocks ServerKit.CString ServerKit.Json

variable {D N : Type} {succeeds : ℕ → Bool} {a : Doubles D} {num : ℤ → D → N}

/-- An item in which no value has been stored. -/
structure Unfilled (item : Item D) : Prop where
  child : item.child = []
  owns : item.node.isReference = false
  names : item.node.stringIsConst = false
  unset : item.node.valuestring = none

/-- What `parse_value` leaves behind: an item that owns what was allocated, and if it has come to an
end, a complete rest and a value. -/
def Parsed (num : ℤ → D → N) (item : Item D) (p : List UInt8) (r : Item D × End)
    (G : Multiset ℕ) : Prop :=
  G = r.1.blocks ∧ r.1.node.string = item.node.string ∧ ∀ rest, r.2 = .ok rest →
    complete rest = true ∧ rest.length ≤ p.length ∧ (r.1.value num).isSome

section Steps

variable {item : Item D}

theorem Unfilled.blocks_eq (h : Unfilled item) :
    item.blocks = {item.node.addr} + strBlock item.node.string := by
  obtain ⟨hchild, howns, hnames, hunset⟩ := h
  cases item with
  | mk node child =>
      simp only [Item.child, Item.node] at hchild howns hnames hunset ⊢
      subst hchild
      simp [Item.blocks, Node.blocks, blocksAll, howns, hnames, hunset, strBlock]

/-- A value that allocates nothing is set. -/
theorem triple_setValue (h : Unfilled item) {p rest : List UInt8} (hp : complete p = true)
    (hrest : Passes p rest) {node : Node D}
    (hnode : node.blocks = item.node.blocks ∧ node.isReference = item.node.isReference ∧
      node.string = item.node.string)
    (hvalue : ((Item.mk node item.child).value num).isSome) :
    Triple item.blocks (pure (Item.mk node item.child, Except.ok rest) : Prog (Item D × End))
      (Parsed num item p) := by
  refine triple_pure ⟨?_, hnode.2.2, ?_⟩
  · cases item with
    | mk n child => simp only [Item.blocks, hnode.1, hnode.2.1, Item.node, Item.child]
  · intro rest' hok
    cases hok
    exact ⟨hrest.complete hp, hrest.length_le, hvalue⟩

theorem Unfilled.blocks_setString (h : Unfilled item) (s : Str) :
    (Item.mk { item.node with valuestring := some s, kind := .string } item.child).blocks =
      {s.block} + item.blocks := by
  rw [h.blocks_eq, h.child]
  simp only [Item.blocks, Node.blocks, blocksAll, h.owns, h.names, strBlock]
  simp only [Bool.false_eq_true, if_false, Option.map_some, Option.getD_some, add_zero]
  abel

/-- The name is taken over with its block. -/
theorem Unfilled.takeName (h : Unfilled item) (hname : item.node.string = none) (s : Str) :
    let named := CJson.takeName
      (Item.mk { item.node with valuestring := some s, kind := .string } item.child)
    Unfilled named ∧ named.node.string = some s ∧ named.blocks = {s.block} + item.blocks := by
  have hnamed : Unfilled (CJson.takeName
      (Item.mk { item.node with valuestring := some s, kind := .string } item.child)) :=
    ⟨h.child, h.owns, h.names, rfl⟩
  refine ⟨hnamed, rfl, ?_⟩
  rw [hnamed.blocks_eq, h.blocks_eq, hname]
  exact add_comm _ _

theorem Unfilled.blocks_setChild (h : Unfilled item) (kind : Kind) (child : List (Item D)) :
    (Item.mk { item.node with kind := kind } child).blocks = item.blocks + blocksAll child := by
  rw [h.blocks_eq]
  simp [Item.blocks, Node.blocks, h.owns, h.names, h.unset, strBlock]

/-! ## Strings -/

/-- A string whose loops end at `rest`. -/
theorem triple_parseString_copies (succeeds : ℕ → Bool) (item : Item D)
    {str bytes rest : List UInt8} {n : ℕ} (hquote : deref str = 34)
    (hcopies : Copies str.tail n bytes rest) :
    Triple 0 (parseString succeeds item str) fun r G =>
      (∃ ep, r = (item, .error ep)) ∧ G = 0 ∧ (¬ ∀ n, succeeds n = true) ∨
      ∃ s : Str, r = (.mk { item.node with valuestring := some s, kind := .string } item.child,
        .ok (if deref rest = 34 then rest.tail else rest)) ∧ G = {s.block} ∧ s.bytes = bytes := by
  have htail : str.tail.length < str.length + 1 := by
    rw [List.length_tail]
    omega
  rw [parseString, if_neg (not_not_intro hquote), hcopies.length, hcopies.copy _ _ htail]
  refine (triple_compute (Q := fun len G => len = 0 + n ∧ G = 0) ⟨rfl, rfl⟩).bind ?_
  rintro _ _ ⟨rfl, rfl⟩
  refine (triple_malloc succeeds).bind ?_
  intro out G hout
  cases out with
  | none => exact triple_pure (.inl ⟨⟨_, rfl⟩, hout⟩)
  | some out =>
      refine (triple_compute (Q := fun r G => r = ([] ++ bytes, rest) ∧ G = {out})
        ⟨rfl, hout⟩).bind ?_
      rintro _ _ ⟨rfl, rfl⟩
      have hfits : ([] ++ bytes : List UInt8).length ≤ 0 + n := by
        rw [List.nil_append, Nat.zero_add]
        exact hcopies.fits
      simp only [if_pos hfits]
      exact triple_pure (.inr ⟨⟨out, bytes⟩, rfl, rfl, rfl⟩)

theorem triple_parseString (succeeds : ℕ → Bool) (item : Item D) {str : List UInt8}
    (hstr : complete str = true) :
    Triple 0 (parseString succeeds item str) fun r G =>
      (∃ ep, r = (item, .error ep)) ∧ G = 0 ∨
      ∃ s rest, r = (.mk { item.node with valuestring := some s, kind := .string } item.child,
        .ok rest) ∧ G = {s.block} ∧ complete rest = true ∧ rest.length ≤ str.length := by
  by_cases hquote : deref str ≠ 34
  · rw [parseString, if_pos hquote]
    exact triple_pure (.inl ⟨⟨_, rfl⟩, rfl⟩)
  have hpasses : Passes str str.tail := passes_tail_of_eq (not_not.mp hquote) (by decide)
  obtain ⟨n, bytes, rest, hcopies, hrest, hlen⟩ := copiesFrom str.tail (hpasses.complete hstr)
  refine (triple_parseString_copies succeeds item (not_not.mp hquote) hcopies).mono ?_
  rintro r G (⟨hr, rfl, -⟩ | ⟨s, rfl, rfl, -⟩)
  · exact .inl ⟨hr, rfl⟩
  · refine .inr ⟨s, _, rfl, rfl, ?_⟩
    have hlast : Passes rest (if deref rest = 34 then rest.tail else rest) := by
      split
      · rename_i hend
        exact passes_tail_of_eq hend (by decide)
      · exact .refl rest
    exact ⟨hlast.complete hrest, hlast.length_le.trans (hlen.trans hpasses.length_le)⟩

/-! ## Lists -/

/-- What `cJSON_New_Item` returns. -/
def IsNew (item : Item D) : Prop := Unfilled item ∧ item.node.string = none

theorem triple_newItem : Triple 0 (cJSONNewItem succeeds a.zero) fun r G => match r with
    | none => G = 0
    | some item => G = item.blocks ∧ IsNew item := by
  refine (triple_cJSONNewItem a.zero).mono ?_
  intro r G h
  cases r with
  | none => exact h.1
  | some item =>
      obtain ⟨hG, b, rfl⟩ := h
      exact ⟨hG, ⟨rfl, rfl, rfl, rfl⟩, rfl⟩

/-- What a loop over a list leaves behind: items that own what was allocated, and if it has come to
an end, a complete rest and items as they should be. -/
def ParsedAll (P : Item D → Prop) (p : List UInt8) (r : List (Item D) × End) (G : Multiset ℕ) :
    Prop :=
  G = blocksAll r.1 ∧ ∀ rest, r.2 = .ok rest →
    complete rest = true ∧ rest.length ≤ p.length ∧ ∀ c ∈ r.1, P c

section Lists

variable {P : Item D → Prop} {p value : List UInt8} {child : Item D}

theorem parsedAll_error (ep : Option (List UInt8)) :
    ParsedAll P p ([child], .error ep) child.blocks :=
  ⟨(blocksAll_singleton child).symm, by rintro rest ⟨⟩⟩

/-- The end of a round of either loop, behind a value. -/
theorem triple_nextItem {loop : Item D → List UInt8 → Prog (List (Item D) × End)} {close : UInt8}
    (hclose : close ≠ 92) (hvalue : complete value = true) (hle : value.length ≤ p.length)
    (hchild : P child)
    (hloop : ∀ newItem p, IsNew newItem → complete p = true → p.length < value.length →
      Triple newItem.blocks (loop newItem p) (ParsedAll P p)) :
    Triple child.blocks (if deref (skip value) = 44 then do
        match ← cJSONNewItem succeeds a.zero with
        | none => return ([child], .error none)
        | some newItem => do
          let (rest, r) ← loop newItem (skip value).tail
          return (child :: rest, r)
      else if deref (skip value) = close then return ([child], .ok (skip value).tail)
      else return ([child], .error (some (skip value))))
      (ParsedAll P p) := by
  have hskip := passes_skip value
  by_cases hcomma : deref (skip value) = 44
  · have htail := passes_tail_of_eq hcomma (by decide)
    have hlt := length_tail_lt hcomma (by decide)
    rw [if_pos hcomma]
    refine triple_newItem.bind_alloc ?_
    intro r G hr
    cases r with
    | none =>
        rw [show G = 0 from hr, zero_add]
        exact triple_pure (parsedAll_error none)
    | some newItem =>
        obtain ⟨rfl, hnew⟩ := hr
        have hrest := hloop newItem _ hnew (htail.complete (hskip.complete hvalue))
          (hlt.trans_le hskip.length_le)
        refine hrest.bind_frame rfl ?_
        rintro ⟨items, e⟩ G ⟨rfl, hend⟩
        refine triple_pure ⟨?_, ?_⟩
        · rw [blocksAll, add_comm]
        · intro rest hok
          obtain ⟨hcomplete, hlen, hall⟩ := hend rest hok
          refine ⟨hcomplete, ?_, List.forall_mem_cons.mpr ⟨hchild, hall⟩⟩
          exact hlen.trans (hlt.le.trans (hskip.length_le.trans hle))
  rw [if_neg hcomma]
  by_cases hend : deref (skip value) = close
  · have htail := passes_tail_of_eq hend hclose
    rw [if_pos hend]
    refine triple_pure ⟨(blocksAll_singleton child).symm, ?_⟩
    intro rest hok
    cases hok
    refine ⟨htail.complete (hskip.complete hvalue), ?_, List.forall_mem_singleton.mpr hchild⟩
    exact htail.length_le.trans (hskip.length_le.trans hle)
  · rw [if_neg hend]
    exact triple_pure (parsedAll_error _)

end Lists

/-- `parse_value` on texts that are shorter than `fuel`. -/
def ParsesBelow (num : ℤ → D → N) (fuel : ℕ)
    (parseValue : Item D → List UInt8 → Prog (Item D × End)) : Prop :=
  ∀ item p, Unfilled item → complete p = true → p.length < fuel →
    Triple item.blocks (parseValue item p) (Parsed num item p)

section Loops

variable {parseValue : Item D → List UInt8 → Prog (Item D × End)} {fuel : ℕ}

theorem triple_arrayLoop (h : ParsesBelow num fuel parseValue) (k : ℕ) (child : Item D)
    (value : List UInt8) (hchild : Unfilled child) (hvalue : complete value = true)
    (hlen : value.length < fuel) (hk : value.length < k) :
    Triple child.blocks (arrayLoop succeeds a parseValue k child value)
      (ParsedAll (fun c => (c.value num).isSome) value) := by
  induction k generalizing child value with
  | zero => exact absurd hk (Nat.not_lt_zero _)
  | succ k ih =>
      have hskip := passes_skip value
      rw [arrayLoop]
      refine (h child _ hchild (hskip.complete hvalue) (hskip.length_le.trans_lt hlen)).bind ?_
      rintro ⟨c, r⟩ G ⟨rfl, -, hend⟩
      cases r with
      | error ep => exact triple_pure (parsedAll_error ep)
      | ok rest =>
          obtain ⟨hrest, hle, hsome⟩ := hend rest rfl
          have hle := hle.trans hskip.length_le
          refine triple_nextItem (by decide) hrest hle hsome ?_
          intro newItem p hnew hp hlt
          exact ih newItem p hnew.1 hp (by omega) (by omega)

theorem triple_objectLoop (h : ParsesBelow num fuel parseValue) (k : ℕ) (child : Item D)
    (value : List UInt8) (hchild : IsNew child) (hvalue : complete value = true)
    (hlen : value.length < fuel) (hk : value.length < k) :
    Triple child.blocks (objectLoop succeeds a parseValue k child value)
      (ParsedAll (fun c => c.node.string.isSome ∧ (c.value num).isSome) value) := by
  induction k generalizing child value with
  | zero => exact absurd hk (Nat.not_lt_zero _)
  | succ k ih =>
      have hskip := passes_skip value
      rw [objectLoop]
      refine (triple_parseString succeeds child (hskip.complete hvalue)).bind_alloc ?_
      rintro r G (⟨⟨ep, rfl⟩, rfl⟩ | ⟨s, rest, rfl, rfl, hrest, hle⟩)
      · rw [zero_add]
        exact triple_pure (parsedAll_error ep)
      obtain ⟨hnamed, hname, hblocks⟩ := hchild.1.takeName hchild.2 s
      have hcolon := passes_skip rest
      rw [← hblocks]
      by_cases hno : deref (skip rest) ≠ 58
      · simp only [if_pos hno]
        exact triple_pure (parsedAll_error _)
      · have hbehind := passes_tail_of_eq (not_not.mp hno) (by decide)
        have hpasses := (hcolon.trans hbehind).trans (passes_skip _)
        simp only [if_neg hno]
        refine (h _ _ hnamed (hpasses.complete hrest) ?_).bind ?_
        · exact (hpasses.length_le.trans (hle.trans hskip.length_le)).trans_lt hlen
        rintro ⟨c, r⟩ G ⟨rfl, hkept, hend⟩
        cases r with
        | error ep => exact triple_pure (parsedAll_error ep)
        | ok rest' =>
            obtain ⟨hrest', hle', hsome⟩ := hend rest' rfl
            have hle' := hle'.trans (hpasses.length_le.trans (hle.trans hskip.length_le))
            have hstring : c.node.string.isSome := by
              rw [hkept, hname]
              rfl
            refine triple_nextItem (by decide) hrest' hle' ⟨hstring, hsome⟩ ?_
            intro newItem p hnew hp hlt
            exact ih newItem p hnew hp (by omega) (by omega)

end Loops

/-! ## Values -/

section Values

variable {parseValue : Item D → List UInt8 → Prog (Item D × End)} {fuel : ℕ} {p : List UInt8}

/-- The list of an array or an object is put in its place. -/
theorem parsed_setChild (h : Unfilled item) {P : Item D → Prop} {q : List UInt8} {kind : Kind}
    {r : List (Item D) × End} {G : Multiset ℕ} (hr : ParsedAll P q r G) (hq : q.length ≤ p.length)
    (hvalue : (∀ c ∈ r.1, P c) →
      ((Item.mk { item.node with kind := kind } r.1).value num).isSome) :
    Parsed num item p (.mk { item.node with kind := kind } r.1, r.2) (G + item.blocks) := by
  obtain ⟨rfl, hend⟩ := hr
  refine ⟨?_, rfl, ?_⟩
  · rw [h.blocks_setChild, add_comm]
  · intro rest hok
    obtain ⟨hcomplete, hlen, hall⟩ := hend rest hok
    exact ⟨hcomplete, hlen.trans hq, hvalue hall⟩

/-- An array or an object, with the loop over what stands in it. -/
theorem triple_brackets {loop : Item D → List UInt8 → Prog (List (Item D) × End)}
    {P : Item D → Prop} {opening closing : UInt8} {kind : Kind} (hopening : opening ≠ 92)
    (hnonzero : opening ≠ 0) (hclosing : closing ≠ 92) (hitem : Unfilled item)
    (hp : complete p = true)
    (hvalue : ∀ child : List (Item D), (∀ c ∈ child, P c) →
      ((Item.mk { item.node with kind := kind } child).value num).isSome)
    (hloop : ∀ child value, IsNew child → complete value = true → value.length < p.length →
      Triple child.blocks (loop child value) (ParsedAll P value)) :
    Triple item.blocks (if deref p ≠ opening then return (item, .error (some p))
      else
        let node := { item.node with kind := kind }
        if deref (skip p.tail) = closing then
          return (.mk node item.child, .ok (skip p.tail).tail)
        else do
          match ← cJSONNewItem succeeds a.zero with
          | none => return (.mk node [], .error none)
          | some child => do
            let (child, r) ← loop child (skip p.tail)
            return (.mk node child, r))
      (Parsed num item p) := by
  by_cases hno : deref p ≠ opening
  · rw [if_pos hno]
    exact triple_pure ⟨rfl, rfl, by rintro rest ⟨⟩⟩
  have hopen := passes_tail_of_eq (not_not.mp hno) hopening
  have hlt := length_tail_lt (not_not.mp hno) hnonzero
  have hskip := hopen.trans (passes_skip p.tail)
  have hshort := (passes_skip p.tail).length_le.trans_lt hlt
  rw [if_neg hno]
  by_cases hend : deref (skip p.tail) = closing
  · rw [if_pos hend]
    refine triple_setValue hitem hp (hskip.trans (passes_tail_of_eq hend hclosing))
      ⟨rfl, rfl, rfl⟩ ?_
    rw [hitem.child]
    exact hvalue [] fun c hc => absurd hc List.not_mem_nil
  rw [if_neg hend]
  refine triple_newItem.bind_alloc ?_
  intro r G hr
  cases r with
  | none =>
      rw [show G = 0 from hr]
      refine triple_pure ⟨?_, rfl, by rintro rest ⟨⟩⟩
      rw [hitem.blocks_setChild, blocksAll, add_comm]
  | some child =>
      obtain ⟨rfl, hnew⟩ := hr
      refine (hloop child _ hnew (hskip.complete hp) hshort).bind_frame rfl ?_
      rintro ⟨items, e⟩ G hG
      exact triple_pure (parsed_setChild hitem hG hskip.length_le (hvalue items))

theorem triple_parseArray (hitem : Unfilled item) (h : ParsesBelow num fuel parseValue)
    (hp : complete p = true) (hfuel : p.length ≤ fuel) :
    Triple item.blocks (parseArray succeeds a parseValue fuel item p) (Parsed num item p) := by
  rw [parseArray]
  refine triple_brackets (P := fun c => (c.value num).isSome) (by decide) (by decide) (by decide)
    hitem hp ?_ ?_
  · intro child hall
    rw [Item.value, Option.isSome_map]
    exact exists_elementValues hall
  · intro child value hnew hvalue hlt
    exact triple_arrayLoop h fuel child value hnew.1 hvalue (by omega) (by omega)

theorem triple_parseObject (hitem : Unfilled item) (h : ParsesBelow num fuel parseValue)
    (hp : complete p = true) (hfuel : p.length ≤ fuel) :
    Triple item.blocks (parseObject succeeds a parseValue fuel item p) (Parsed num item p) := by
  rw [parseObject]
  refine triple_brackets (P := fun c => c.node.string.isSome ∧ (c.value num).isSome) (by decide)
    (by decide) (by decide) hitem hp ?_ ?_
  · intro child hall
    rw [Item.value, Option.isSome_map]
    exact exists_memberValues hall
  · intro child value hnew hvalue hlt
    exact triple_objectLoop h fuel child value hnew hvalue (by omega) (by omega)

/-- A literal has no backslash. -/
theorem passes_literal {p word : List UInt8} {n : ℕ} (h : p.take n = word)
    (hword : (92 : UInt8) ∉ word) : Passes p (p.drop n) := by
  refine ⟨p.take n, (List.take_append_drop n p).symm, ?_⟩
  rintro _ hb rfl
  exact hword (h ▸ hb)

theorem triple_parseValue (succeeds : ℕ → Bool) (a : Doubles D) (num : ℤ → D → N) (fuel : ℕ) :
    ParsesBelow num fuel (CJson.parseValue succeeds a fuel) := by
  induction fuel with
  | zero => exact fun _ _ _ _ hlen => absurd hlen (Nat.not_lt_zero _)
  | succ fuel ih =>
      intro item p hitem hp hlen
      rw [CJson.parseValue]
      by_cases hnull : p.take 4 = ofString "null"
      · rw [if_pos hnull]
        exact triple_setValue hitem hp (passes_literal hnull (by decide)) ⟨rfl, rfl, rfl⟩ rfl
      rw [if_neg hnull]
      by_cases hfalse : p.take 5 = ofString "false"
      · rw [if_pos hfalse]
        exact triple_setValue hitem hp (passes_literal hfalse (by decide)) ⟨rfl, rfl, rfl⟩ rfl
      rw [if_neg hfalse]
      by_cases htrue : p.take 4 = ofString "true"
      · rw [if_pos htrue]
        exact triple_setValue hitem hp (passes_literal htrue (by decide)) ⟨rfl, rfl, rfl⟩ rfl
      rw [if_neg htrue]
      by_cases hstring : deref p = 34
      · rw [if_pos hstring]
        have hframe := (triple_parseString succeeds item hp).frame item.blocks
        rw [zero_add] at hframe
        refine hframe.mono ?_
        rintro _ _ ⟨_, ⟨⟨ep, rfl⟩, rfl⟩ | ⟨s, rest, rfl, rfl, hrest, hle⟩, rfl⟩
        · exact ⟨zero_add _, rfl, by rintro rest ⟨⟩⟩
        · refine ⟨(hitem.blocks_setString s).symm, rfl, ?_⟩
          intro rest' hok
          cases hok
          exact ⟨hrest, hle, rfl⟩
      rw [if_neg hstring]
      by_cases hnumber : deref p = 45 ∨ isDigit (deref p) = true
      · rw [if_pos hnumber]
        simp only [parseNumber]
        exact triple_setValue hitem hp (passes_readNumber a p) ⟨rfl, rfl, rfl⟩ rfl
      rw [if_neg hnumber]
      by_cases harray : deref p = 91
      · rw [if_pos harray]
        exact triple_parseArray hitem ih hp (Nat.le_of_lt_succ hlen)
      rw [if_neg harray]
      by_cases hobject : deref p = 123
      · rw [if_pos hobject]
        exact triple_parseObject hitem ih hp (Nat.le_of_lt_succ hlen)
      rw [if_neg hobject]
      exact triple_pure ⟨rfl, rfl, by rintro rest ⟨⟩⟩

end Values

end Steps

/-! ## Documents -/

/-- What is left behind by `cJSON_ParseWithOpts`. -/
theorem triple_cJSONParseWithOpts (succeeds : ℕ → Bool) (a : Doubles D) (num : ℤ → D → N)
    {value : List UInt8} (hvalue : complete value = true) (requireNullTerminated : Bool) :
    Triple 0 (cJSONParseWithOpts succeeds a value requireNullTerminated) fun r G => match r with
      | .error _ => G = 0
      | .ok (c, e) => G = c.blocks ∧ complete e = true ∧ (c.value num).isSome := by
  rw [cJSONParseWithOpts]
  refine triple_newItem.bind ?_
  intro r G hr
  cases r with
  | none => exact triple_pure hr
  | some c =>
      obtain ⟨rfl, hnew⟩ := hr
      have hskip := passes_skip value
      have hparse := triple_parseValue succeeds a num (value.length + 1) c _ hnew.1
        (hskip.complete hvalue) (Nat.lt_succ_of_le hskip.length_le)
      refine hparse.bind ?_
      rintro ⟨c', e⟩ G ⟨rfl, -, hend⟩
      have hdelete : ∀ ep : Option (List UInt8), Triple c'.blocks
          (do cJSONDelete [c']; return .error ep :
            Prog (Except (Option (List UInt8)) (Item D × List UInt8)))
          (fun r G => match r with
            | .error _ => G = 0
            | .ok (c, e) => G = c.blocks ∧ complete e = true ∧ (c.value num).isSome) := by
        intro ep
        have hfree := triple_cJSONDelete [c']
        rw [blocksAll_singleton] at hfree
        refine hfree.bind ?_
        rintro _ G rfl
        exact triple_pure rfl
      cases e with
      | error ep => exact hdelete ep
      | ok e =>
          obtain ⟨hcomplete, -, hsome⟩ := hend e rfl
          cases hno : requireNullTerminated && decide (deref (skip e) ≠ 0) with
          | true =>
              simp only [hno, if_true]
              exact hdelete _
          | false =>
              simp only [hno, Bool.false_eq_true, if_false]
              refine triple_pure ⟨rfl, ?_, hsome⟩
              cases requireNullTerminated
              · exact hcomplete
              · exact (passes_skip e).complete hcomplete

/-- Whatever calls of `malloc` fail: the parser comes to an end, a failed call leaves nothing
allocated, and after a successful one `cJSON_Delete` gives back all that was. -/
theorem cJSONParseWithOpts_frees (succeeds : ℕ → Bool) (a : Doubles D) (num : ℤ → D → N)
    {value : List UInt8} (hvalue : complete value = true) (requireNullTerminated : Bool)
    (h : Heap) :
    ∃ r h', cJSONParseWithOpts succeeds a value requireNullTerminated h = some (r, h') ∧
      match r with
      | .error _ => h'.live = h.live
      | .ok (c, _) => (c.value num).isSome ∧ h'.live = c.blocks + h.live ∧
          ∃ h'', cJSONDelete [c] h' = some ((), h'') ∧ h''.live = h.live := by
  obtain ⟨r, h', G, hrun, hlive, hr⟩ :=
    (triple_cJSONParseWithOpts succeeds a num hvalue requireNullTerminated).run h
  refine ⟨r, h', hrun, ?_⟩
  cases r with
  | error ep => rw [hlive, show G = 0 from hr, zero_add]
  | ok r =>
      obtain ⟨rfl, -, hsome⟩ := hr
      refine ⟨hsome, hlive, ?_⟩
      obtain ⟨_, h'', G, hdelete, hlive', rfl⟩ := triple_cJSONDelete [r.1] h' h.live
        (by rw [blocksAll_singleton, hlive])
      exact ⟨h'', hdelete, hlive'.trans (zero_add _)⟩

/-- The fourth call of `malloc` fails, with an array half read. -/
theorem cJSONParseWithOpts_frees_halfway :
    ∃ r h', cJSONParseWithOpts (· != 3) integers (ofString "[1, \"a\", []]") true ⟨0, 0⟩ =
        some (r, h') ∧
      match r with
      | .error _ => h'.live = 0
      | .ok (c, _) => (c.value Prod.mk).isSome ∧ h'.live = c.blocks + 0 ∧
          ∃ h'', cJSONDelete [c] h' = some ((), h'') ∧ h''.live = 0 := by
  have hcomplete : complete (ofString "[1, \"a\", []]") = true := by simp [ofString, complete]
  obtain ⟨r, h', hrun, hr⟩ :=
    cJSONParseWithOpts_frees (· != 3) integers Prod.mk hcomplete true ⟨0, 0⟩
  cases r with
  | error ep => exact ⟨_, h', hrun, hr⟩
  | ok r => exact ⟨_, h', hrun, hr⟩

end ServerKit.CJson
