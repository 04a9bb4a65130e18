import ServerKit.CJson.Value

/-! # Copies of items

`cJSON_Duplicate` copies an item, its strings and, if asked to, everything below it. A name that is
marked as constant is copied like any other, and the copy is marked as well: nobody frees it. -/

namespace ServerKit.CJson

open ServerKit.Blocks ServerKit.CString ServerKit.Json

variable {D N : Type}

section Functions

variable (succeeds : ℕ → Bool) (zero : D)

/-- A string that may be `NULL`, or `none` where there is no memory for its copy. -/
def copyStr : Option Str → Prog (Option (Option Str))
  | none => return some none
  | some s => do
    match ← cJSONStrdup succeeds s.bytes with
    | none => return none
    | some t => return some (some t)

/-- What `cJSON_Duplicate` does before it looks at the children. -/
def duplicateNode (node : Node D) : Prog (Option (Node D)) := do
  match ← cJSONNewItem succeeds zero with
  | none => return none
  | some newitem =>
    let newnode := { newitem.node with
      kind := node.kind, stringIsConst := node.stringIsConst, valueint := node.valueint,
      valuedouble := node.valuedouble }
    match ← copyStr succeeds node.valuestring with
    | none => do
      cJSONDelete [.mk newnode newitem.child]
      return none
    | some valuestring =>
      let newnode := { newnode with valuestring := valuestring }
      match ← copyStr succeeds node.string with
      | none => do
        cJSONDelete [.mk newnode newitem.child]
        return none
      | some string => return some { newnode with string := string }

mutual

/-- `cJSON_Duplicate`. -/
def cJSONDuplicate : Item D → Bool → Prog (Option (Item D))
  | .mk node child, recurse => do
    match ← duplicateNode succeeds zero node with
    | none => return none
    | some newnode =>
      if recurse then do
        let (copies, ok) ← duplicateChildren child
        if ok then return some (.mk newnode copies)
        else do
          cJSONDelete [.mk newnode copies]
          return none
      else return some (.mk newnode [])

/-- The copies of a list of items, as far as there was memory. -/
def duplicateChildren : List (Item D) → Prog (List (Item D) × Bool)
  | [] => return ([], true)
  | cptr :: next => do
    match ← cJSONDuplicate cptr true with
    | none => return ([], false)
    | some newchild => do
      let (rest, ok) ← duplicateChildren next
      return (newchild :: rest, ok)

end

end Functions

/-! ## What a copy is -/

def Str.content (s : Str) : Str := ⟨0, text s.bytes⟩

/-- The fields of an item, whatever blocks it is made of and whether it is a reference. -/
def Node.content (n : Node D) : Node D :=
  { n with
    addr := 0, isReference := false, valuestring := n.valuestring.map Str.content,
    string := n.string.map Str.content }

mutual

def Item.content : Item D → Item D
  | .mk node child => .mk node.content (contentAll child)

def contentAll : List (Item D) → List (Item D)
  | [] => []
  | c :: next => c.content :: contentAll next

end

/-- The names that are marked as constant. -/
def Node.constNames (n : Node D) : ℕ := if n.stringIsConst && n.string.isSome then 1 else 0

/-- The block of a name that is marked as constant. -/
def Node.constBlocks (n : Node D) : Multiset ℕ := if n.stringIsConst then strBlock n.string else 0

/-- How often `malloc` is called for a copy; the last call is for the name. -/
def Node.copyCalls (n : Node D) : ℕ :=
  1 + (if n.valuestring.isSome then 1 else 0) + if n.string.isSome then 1 else 0

/-- The call of `malloc` that copies a name marked as constant, when the first one for the copy is
the call `first`. -/
def Node.nameCalls (first : ℕ) (n : Node D) : Multiset ℕ :=
  if n.stringIsConst && n.string.isSome then {first + (n.copyCalls - 1)} else 0

mutual

def Item.constNames : Item D → ℕ
  | .mk node child => node.constNames + constNamesAll child

def constNamesAll : List (Item D) → ℕ
  | [] => 0
  | c :: next => c.constNames + constNamesAll next

end

mutual

def Item.constBlocks : Item D → Multiset ℕ
  | .mk node child => node.constBlocks + constBlocksAll child

def constBlocksAll : List (Item D) → Multiset ℕ
  | [] => 0
  | c :: next => c.constBlocks + constBlocksAll next

end

mutual

def Item.copyCalls : Item D → ℕ
  | .mk node child => node.copyCalls + copyCallsAll child

def copyCallsAll : List (Item D) → ℕ
  | [] => 0
  | c :: next => c.copyCalls + copyCallsAll next

end

mutual

/-- The calls of `malloc` that copy the names marked as constant, each item before its children. -/
def Item.nameCalls (first : ℕ) : Item D → Multiset ℕ
  | .mk node child => node.nameCalls first + nameCallsAll (first + node.copyCalls) child

def nameCallsAll (first : ℕ) : List (Item D) → Multiset ℕ
  | [] => 0
  | c :: next => c.nameCalls first + nameCallsAll (first + c.copyCalls) next

end

theorem Node.card_nameCalls (first : ℕ) (n : Node D) :
    (n.nameCalls first).card = n.constNames := by
  unfold Node.nameCalls Node.constNames
  split <;> rfl

theorem card_nameCallsAll {child : List (Item D)}
    (h : ∀ c ∈ child, ∀ first, (c.nameCalls first).card = c.constNames) (first : ℕ) :
    (nameCallsAll first child).card = constNamesAll child := by
  induction child generalizing first with
  | nil => rfl
  | cons c next ih =>
      rw [nameCallsAll, constNamesAll, Multiset.card_add, h c List.mem_cons_self,
        ih fun c hc => h c (List.mem_cons_of_mem _ hc)]

/-- There is one such call for each of the names. -/
theorem Item.card_nameCalls (item : Item D) (first : ℕ) :
    (item.nameCalls first).card = item.constNames := by
  induction item using Item.induction generalizing first with
  | mk node child ih =>
      rw [Item.nameCalls, Item.constNames, Multiset.card_add, node.card_nameCalls,
        card_nameCallsAll ih]

/-- The part of the item that is copied. -/
def Item.part (item : Item D) (recurse : Bool) : Item D :=
  if recurse then item else .mk item.node []

theorem text_content (s : Str) : text s.content.bytes = text s.bytes :=
  text_eq_self.mpr (zero_not_mem_text s.bytes)

theorem elementValues_content {num : ℤ → D → N} {child : List (Item D)}
    (h : ∀ c ∈ child, c.content.value num = c.value num) :
    elementValues num (contentAll child) = elementValues num child := by
  induction child with
  | nil => rfl
  | cons c next ih =>
      rw [contentAll, elementValues, elementValues, h c List.mem_cons_self,
        ih fun c hc => h c (List.mem_cons_of_mem _ hc)]

theorem memberValues_content {num : ℤ → D → N} {child : List (Item D)}
    (h : ∀ c ∈ child, c.content.value num = c.value num) :
    memberValues num (contentAll child) = memberValues num child := by
  induction child with
  | nil => rfl
  | cons c next ih =>
      rw [contentAll, memberValues, memberValues, h c List.mem_cons_self,
        ih fun c hc => h c (List.mem_cons_of_mem _ hc)]
      cases c with
      | mk node child =>
          simp only [Item.content, Item.node, Node.content]
          cases node.string with
          | none => rfl
          | some s => rw [Option.map_some, Option.bind_some, Option.bind_some, text_content]

/-- The value of an item depends on its content only. -/
theorem value_content (num : ℤ → D → N) (item : Item D) :
    item.content.value num = item.value num := by
  induction item using Item.induction with
  | mk node child ih =>
      rw [Item.content, Item.value, Item.value, elementValues_content ih, memberValues_content ih]
      have hstring : (node.valuestring.map Str.content).map (fun s => Value.string (text s.bytes)) =
          (node.valuestring.map fun s => Value.string (N := N) (text s.bytes)) := by
        cases node.valuestring with
        | none => rfl
        | some s => rw [Option.map_some, Option.map_some, Option.map_some, text_content]
      cases hkind : node.kind
      case string => simpa only [Node.content, hkind] using hstring
      all_goals simp only [Node.content, hkind]

section Triples

variable {succeeds : ℕ → Bool} {zero : D} {first : ℕ}

/-! ## The calls of `cJSON_Delete` -/

theorem keepsCalls_freeStr (s : Option Str) : KeepsCalls (freeStr s) := by
  cases s with
  | none => exact keepsCalls_pure ()
  | some s => exact keepsCalls_free s.block

theorem keepsCalls_cJSONDelete_of_items {items : List (Item D)}
    (h : ∀ c ∈ items, KeepsCalls (deleteItem c)) : KeepsCalls (cJSONDelete items) := by
  induction items with
  | nil => exact keepsCalls_pure ()
  | cons c next ih =>
      rw [cJSONDelete]
      exact (h c List.mem_cons_self).bind fun _ => ih fun c hc => h c (List.mem_cons_of_mem _ hc)

theorem keepsCalls_deleteItem (item : Item D) : KeepsCalls (deleteItem item) := by
  induction item using Item.induction with
  | mk node child ih =>
      rw [deleteItem]
      refine (keepsCalls_skipIf _ (keepsCalls_cJSONDelete_of_items ih)).bind fun _ => ?_
      refine (keepsCalls_skipIf _ (keepsCalls_freeStr _)).bind fun _ => ?_
      exact (keepsCalls_skipIf _ (keepsCalls_freeStr _)).bind fun _ => keepsCalls_free _

theorem keepsCalls_cJSONDelete (items : List (Item D)) : KeepsCalls (cJSONDelete items) :=
  keepsCalls_cJSONDelete_of_items fun c _ => keepsCalls_deleteItem c

/-! ## The copies -/

/-- There is a copy as `P` says, with the next call of `malloc`, or no memory for one. The blocks
of `lost` belong to nobody; without a copy these are all that may be left. -/
def Copied {α : Type} (succeeds : ℕ → Bool) (lost : Multiset ℕ) (next : ℕ)
    (P : α → Multiset ℕ → Prop) (r : Option α) (G : Multiset ℕ) (m : ℕ) : Prop :=
  match r with
  | none => G ≤ lost ∧ ¬ ∀ n, succeeds n = true
  | some x => m = next ∧ ∃ B, G = B + lost ∧ P x B

theorem tripleFrom_cJSONNewItem :
    TripleFrom first 0 (cJSONNewItem succeeds zero) fun r G m => match r with
      | none => G = 0 ∧ ¬ ∀ n, succeeds n = true
      | some item => item = .mk ⟨first, .false, false, false, none, 0, zero, none⟩ [] ∧
          G = {first} ∧ m = first + 1 := by
  refine (tripleFrom_malloc succeeds first).bind ?_
  intro r G m hr
  cases r with
  | none => exact tripleFrom_pure hr
  | some b =>
      obtain ⟨rfl, rfl, rfl⟩ := hr
      exact tripleFrom_pure ⟨rfl, rfl, rfl⟩

theorem tripleFrom_cJSONStrdup (str : List UInt8) :
    TripleFrom first 0 (cJSONStrdup succeeds str) fun r G m => match r with
      | none => G = 0 ∧ ¬ ∀ n, succeeds n = true
      | some s => s = ⟨first, text str⟩ ∧ G = {first} ∧ m = first + 1 := by
  refine (tripleFrom_malloc succeeds first).bind ?_
  intro r G m hr
  cases r with
  | none => exact tripleFrom_pure hr
  | some b =>
      obtain ⟨rfl, rfl, rfl⟩ := hr
      exact tripleFrom_pure ⟨rfl, rfl, rfl⟩

theorem tripleFrom_copyStr (s : Option Str) :
    TripleFrom first 0 (copyStr succeeds s)
      (Copied succeeds 0 (first + if s.isSome then 1 else 0) fun t G =>
        G = strBlock t ∧ t.map Str.content = s.map Str.content ∧
          strBlock t = if s.isSome then {first} else 0) := by
  cases s with
  | none => exact tripleFrom_pure ⟨rfl, 0, rfl, rfl, rfl, rfl⟩
  | some s =>
      refine (tripleFrom_cJSONStrdup s.bytes).bind ?_
      intro t G m ht
      cases t with
      | none => exact tripleFrom_pure ⟨ht.1.le, ht.2⟩
      | some t =>
          obtain ⟨rfl, rfl, rfl⟩ := ht
          refine tripleFrom_pure ⟨rfl, {first}, (add_zero _).symm, rfl, ?_, rfl⟩
          exact congrArg (fun bytes => some (Str.mk 0 bytes)) (text_content s)

@[simp] theorem strBlock_none : strBlock none = 0 := rfl

theorem blocks_leaf (node : Node D) : (Item.mk node []).blocks = node.blocks := by
  rw [Item.blocks, blocksAll, ite_self, add_zero]

/-- The item is freed, and there is no copy. -/
theorem tripleFrom_discard {α : Type} {names : Multiset ℕ} {n next : ℕ}
    {P : α → Multiset ℕ → Prop} {item : Item D} {G : Multiset ℕ} (lost : Multiset ℕ)
    (hG : G = item.blocks + lost) (hlost : lost ≤ names) (hfail : ¬ ∀ n, succeeds n = true) :
    TripleFrom n G (do cJSONDelete [item]; return none) (Copied succeeds names next P) := by
  have hdelete := (triple_cJSONDelete [item]).counted (n := n) (keepsCalls_cJSONDelete [item])
  have hframe := hdelete.frame lost
  rw [blocksAll_singleton, ← hG] at hframe
  refine hframe.bind ?_
  rintro _ _ _ ⟨_, ⟨rfl, -⟩, rfl⟩
  refine tripleFrom_pure ⟨?_, hfail⟩
  rwa [zero_add]

/-- The copy of an item without its children. -/
def IsNodeCopy (first : ℕ) (node copy : Node D) (G : Multiset ℕ) : Prop :=
  G = copy.blocks ∧ copy.isReference = false ∧ copy.content = node.content ∧
    copy.constBlocks = node.nameCalls first

theorem tripleFrom_duplicateNode (node : Node D) :
    TripleFrom first 0 (duplicateNode succeeds zero node)
      (Copied succeeds (node.nameCalls first) (first + node.copyCalls)
        (IsNodeCopy first node)) := by
  refine tripleFrom_cJSONNewItem.bind ?_
  intro r G m hr
  cases r with
  | none =>
      obtain ⟨rfl, hfail⟩ := hr
      exact tripleFrom_pure ⟨Multiset.zero_le _, hfail⟩
  | some newitem =>
      obtain ⟨rfl, rfl, rfl⟩ := hr
      refine (tripleFrom_copyStr node.valuestring).bind_alloc ?_
      intro v G m hv
      cases v with
      | none =>
          obtain ⟨hG, hfail⟩ := hv
          refine tripleFrom_discard 0 ?_ (Multiset.zero_le _) hfail
          rw [Multiset.le_zero.mp hG, zero_add, add_zero]
          simp [blocks_leaf, Node.blocks, Item.node, Item.child]
      | some v =>
          obtain ⟨rfl, _, rfl, rfl, hv, -⟩ := hv
          rw [add_zero]
          refine (tripleFrom_copyStr node.string).bind_alloc ?_
          intro s G m hs
          cases s with
          | none =>
              obtain ⟨hG, hfail⟩ := hs
              refine tripleFrom_discard 0 ?_ (Multiset.zero_le _) hfail
              rw [Multiset.le_zero.mp hG, zero_add, add_zero]
              simp only [blocks_leaf, Node.blocks, Item.node, Item.child, strBlock_none, ite_self,
                Bool.false_eq_true, if_false, add_zero]
              exact add_comm _ _
          | some s =>
              obtain ⟨rfl, _, rfl, rfl, hs, hblock⟩ := hs
              have hlast : first + (node.copyCalls - 1) =
                  first + 1 + (if node.valuestring.isSome then 1 else 0) +
                    (if node.string.isSome then 1 else 0) - 1 := by
                rw [Node.copyCalls]
                omega
              have hconst :
                  (if node.stringIsConst then strBlock s else 0) = node.nameCalls first := by
                rw [hblock, Node.nameCalls, hlast]
                cases node.stringIsConst <;> cases node.string.isSome <;> rfl
              refine tripleFrom_pure ⟨?_, _, ?_, rfl, rfl, ?_, hconst⟩
              · rw [Node.copyCalls]
                omega
              · rw [← hconst]
                simp only [Node.blocks, Item.node, Bool.false_eq_true, if_false, add_zero]
                cases node.stringIsConst
                all_goals simp only [Bool.false_eq_true, if_false, if_true]
                all_goals abel
              · simp only [Node.content, hv, hs]

/-- The copy of an item, with the blocks that it owns. -/
def IsCopy (first : ℕ) (item copy : Item D) (G : Multiset ℕ) : Prop :=
  G = copy.blocks ∧ copy.content = item.content ∧ copy.constBlocks = item.nameCalls first

/-- What is known when `cJSON_Duplicate` returns. -/
def Duplicated (succeeds : ℕ → Bool) (first : ℕ) (item : Item D) :
    Option (Item D) → Multiset ℕ → ℕ → Prop :=
  Copied succeeds (item.nameCalls first) (first + item.copyCalls) (IsCopy first item)

/-- The copies made before a call fails hang at the item that is freed then. -/
theorem tripleFrom_duplicateChildren {child : List (Item D)}
    (h : ∀ c ∈ child, ∀ first, TripleFrom first 0 (cJSONDuplicate succeeds zero c true)
      (Duplicated succeeds first c)) (first : ℕ) :
    TripleFrom first 0 (duplicateChildren succeeds zero child) fun r G m =>
      ∃ lost, G = blocksAll r.1 + lost ∧ match r.2 with
        | true => m = first + copyCallsAll child ∧ lost = nameCallsAll first child ∧
            contentAll r.1 = contentAll child ∧ constBlocksAll r.1 = nameCallsAll first child
        | false => lost ≤ nameCallsAll first child ∧ ¬ ∀ n, succeeds n = true := by
  induction child generalizing first with
  | nil =>
      rw [duplicateChildren]
      exact tripleFrom_pure ⟨0, rfl, rfl, rfl, rfl, rfl⟩
  | cons c next ih =>
      rw [duplicateChildren, nameCallsAll]
      refine (h c List.mem_cons_self first).bind ?_
      intro copy G m hcopy
      cases copy with
      | none =>
          obtain ⟨hG, hfail⟩ := hcopy
          refine tripleFrom_pure ⟨G, (zero_add G).symm, ?_, hfail⟩
          exact hG.trans (Multiset.le_add_right _ _)
      | some copy =>
          obtain ⟨rfl, _, rfl, rfl, hcontent, hconst⟩ := hcopy
          refine (ih (fun c hc => h c (List.mem_cons_of_mem _ hc)) _).bind_alloc ?_
          rintro ⟨rest, ok⟩ G m ⟨lost, rfl, hrest⟩
          refine tripleFrom_pure ⟨c.nameCalls first + lost, ?_, ?_⟩
          · rw [blocksAll]
            abel
          · cases ok with
            | true =>
                obtain ⟨rfl, rfl, hcontents, hconsts⟩ := hrest
                refine ⟨?_, rfl, ?_, ?_⟩
                · rw [copyCallsAll, add_assoc]
                · rw [contentAll, contentAll, hcontent, hcontents]
                · rw [constBlocksAll, hconst, hconsts]
            | false =>
                obtain ⟨hlost, hfail⟩ := hrest
                exact ⟨add_le_add_right hlost _, hfail⟩

/-- What `cJSON_Duplicate` does with a node and no children, or with all of them. -/
theorem tripleFrom_cJSONDuplicate (item : Item D) (recurse : Bool) (first : ℕ) :
    TripleFrom first 0 (cJSONDuplicate succeeds zero item recurse)
      (Duplicated succeeds first (item.part recurse)) := by
  induction item using Item.induction generalizing recurse first with
  | mk node child ih =>
      rw [cJSONDuplicate]
      refine (tripleFrom_duplicateNode node).bind ?_
      intro copied G m hm
      cases recurse with
      | false =>
          cases copied with
          | none =>
              obtain ⟨hG, hfail⟩ := hm
              exact tripleFrom_pure ⟨hG.trans (Multiset.le_add_right _ _), hfail⟩
          | some copied =>
              obtain ⟨rfl, _, rfl, rfl, -, hcontent, hconst⟩ := hm
              have hnames : (Item.mk node []).nameCalls first = node.nameCalls first :=
                add_zero _
              refine tripleFrom_pure ⟨rfl, copied.blocks, ?_, (blocks_leaf copied).symm, ?_, ?_⟩
              · show _ = copied.blocks + (Item.mk node []).nameCalls first
                rw [hnames]
              · show Item.mk copied.content [] = Item.mk node.content []
                rw [hcontent]
              · show copied.constBlocks + 0 = node.nameCalls first + 0
                rw [hconst]
      | true =>
          cases copied with
          | none =>
              obtain ⟨hG, hfail⟩ := hm
              exact tripleFrom_pure ⟨hG.trans (Multiset.le_add_right _ _), hfail⟩
          | some copied =>
              obtain ⟨rfl, _, rfl, rfl, howns, hcontent, hconst⟩ := hm
              have hblocks : ∀ copies,
                  (Item.mk copied copies).blocks = copied.blocks + blocksAll copies := by
                intro copies
                rw [Item.blocks, howns, if_neg Bool.false_ne_true]
              have hchildren := tripleFrom_duplicateChildren (fun c hc => ih c hc true)
                (first + node.copyCalls)
              refine hchildren.bind_alloc ?_
              rintro ⟨copies, ok⟩ G m ⟨lost, rfl, hcopies⟩
              have hG : blocksAll copies + lost + (copied.blocks + node.nameCalls first) =
                  (Item.mk copied copies).blocks + (node.nameCalls first + lost) := by
                rw [hblocks]
                abel
              cases ok with
              | true =>
                  obtain ⟨rfl, rfl, hcontents, hconsts⟩ := hcopies
                  refine tripleFrom_pure ⟨add_assoc _ _ _, _, hG, rfl, ?_, ?_⟩
                  · show Item.mk copied.content (contentAll copies) = _
                    rw [hcontent, hcontents]
                    rfl
                  · show copied.constBlocks + constBlocksAll copies = _
                    rw [hconst, hconsts]
                    rfl
              | false =>
                  obtain ⟨hlost, hfail⟩ := hcopies
                  exact tripleFrom_discard _ hG (add_le_add_right hlost _) hfail

/-- Whatever calls of `malloc` fail, `cJSON_Duplicate` copies what it is asked to or frees what it
has allocated, and the copy can be deleted like any item; but the copies of the names that are
marked as constant belong to nobody. -/
theorem cJSONDuplicate_frees (succeeds : ℕ → Bool) (zero : D) (item : Item D) (recurse : Bool)
    (h : Heap) :
    ∃ r h' lost, cJSONDuplicate succeeds zero item recurse h = some (r, h') ∧ match r with
      | none => h'.live = h.live + lost ∧ lost ≤ (item.part recurse).nameCalls h.calls ∧
          lost.card ≤ (item.part recurse).constNames ∧ ¬ ∀ n, succeeds n = true
      | some copy => copy.content = (item.part recurse).content ∧
          (∀ num : ℤ → D → N, copy.value num = (item.part recurse).value num) ∧
          h'.live = h.live + (copy.blocks + lost) ∧ lost = copy.constBlocks ∧
          lost.card = (item.part recurse).constNames ∧
          ∃ h'', cJSONDelete [copy] h' = some ((), h'') ∧ h''.live = h.live + lost := by
  have hduplicate : ∀ first, TripleFrom first 0 (cJSONDuplicate succeeds zero item recurse) _ :=
    tripleFrom_cJSONDuplicate item recurse
  have hcard := (item.part recurse).card_nameCalls h.calls
  obtain ⟨r, h', G, hrun, hlive, hr⟩ := hduplicate h.calls h h.live rfl (zero_add _).symm
  cases r with
  | none =>
      obtain ⟨hlost, hfail⟩ := hr
      exact ⟨none, h', G, hrun, hlive.trans (add_comm _ _), hlost,
        (Multiset.card_le_card hlost).trans hcard.le, hfail⟩
  | some copy =>
      obtain ⟨-, _, rfl, rfl, hcontent, hconst⟩ := hr
      refine ⟨some copy, h', _, hrun, hcontent, ?_, hlive.trans (add_comm _ _), hconst.symm, hcard,
        ?_⟩
      · intro num
        rw [← value_content num copy, hcontent, value_content]
      rw [← blocksAll_singleton, add_assoc] at hlive
      obtain ⟨_, h'', G, hdelete, hlive', rfl⟩ := triple_cJSONDelete [copy] h' _ hlive
      refine ⟨h'', hdelete, ?_⟩
      rw [hlive', zero_add, add_comm]

end Triples

end ServerKit.CJson
