import ServerKit.Lib.Blocks
import ServerKit.Lib.Json

/-! # The items of `cJSON`

An item is the block of its `struct`, what the fields hold, and the items of its list `child`. -/

namespace ServerKit.CJson

open ServerKit.Blocks ServerKit.CString

/-- The types `cJSON_False` to `cJSON_Object`. -/
inductive Kind where
  | false
  | true
  | null
  | number
  | string
  | array
  | object
  deriving DecidableEq, Repr

/-- A string in a block of its own. -/
structure Str where
  block : ℕ
  bytes : List UInt8
  deriving DecidableEq, Repr

/-- The operations on `double` that belong to C and its library. -/
structure Doubles (D : Type) where
  zero : D
  /-- `n * 10.0 + digit` -/
  digit : D → ℕ → D
  /-- `sign * n * pow(10.0, scale)` -/
  scaled : Bool → D → ℤ → D
  /-- `(int)n` -/
  trunc : D → ℤ
  /-- What an `int` holds after a result that it has no room for, which C leaves open. -/
  overflow : ℤ → ℤ
  /-- `d == 0` -/
  isZero : D → Bool
  /-- `fabs((double)valueint - d) <= DBL_EPSILON && d <= INT_MAX && d >= INT_MIN` -/
  isInt : ℤ → D → Bool
  /-- `fabs(floor(d) - d) <= DBL_EPSILON && fabs(d) < 1.0e60` -/
  isWhole : D → Bool
  /-- `fabs(d) < 1.0e-6 || fabs(d) > 1.0e9` -/
  isExtreme : D → Bool
  /-- `sprintf(str, "%.0f", d)` -/
  whole : D → List UInt8
  /-- `sprintf(str, "%e", d)` -/
  scientific : D → List UInt8
  /-- `sprintf(str, "%f", d)` -/
  fixed : D → List UInt8

/-- The operations on the whole numbers that a `double` holds exactly. -/
def integers : Doubles ℤ where
  zero := 0
  digit n d := n * 10 + d
  scaled negative n scale := (if negative then -n else n) * 10 ^ scale.toNat
  trunc := id
  overflow n := n.bmod (2 ^ 32)
  isZero d := d == 0
  isInt i d := decide (i = d ∧ d ≤ 2147483647 ∧ d ≥ -2147483648)
  isWhole d := decide (d.natAbs < 10 ^ 60)
  isExtreme d := decide (d = 0 ∨ d.natAbs > 1000000000)
  whole d := ofString (toString d)
  scientific d := ofString (toString d)
  fixed d := ofString (toString d)

/-- The fields of `cJSON` but for its links; the type comes apart into its kind and two flags. -/
structure Node (D : Type) where
  addr : ℕ
  kind : Kind
  isReference : Bool
  stringIsConst : Bool
  valuestring : Option Str
  valueint : ℤ
  valuedouble : D
  string : Option Str
  deriving DecidableEq

inductive Item (D : Type) where
  | mk (node : Node D) (child : List (Item D))

variable {D : Type}

def Item.node : Item D → Node D
  | .mk node _ => node

def Item.child : Item D → List (Item D)
  | .mk _ child => child

/-- Induction over the items of a tree. -/
@[elab_as_elim]
theorem Item.induction {P : Item D → Prop}
    (mk : ∀ node child, (∀ c ∈ child, P c) → P (.mk node child)) (item : Item D) : P item := by
  refine @Item.rec D P (fun child => ∀ c ∈ child, P c) mk ?_ ?_ item
  · intro c hc
    cases hc
  · intro first rest hfirst hrest
    exact List.forall_mem_cons.mpr ⟨hfirst, hrest⟩

/-! ## Blocks -/

/-- The block of a string. -/
def strBlock (s : Option Str) : Multiset ℕ := (s.map fun s => {s.block}).getD 0

/-- The blocks of an item but for its children. -/
def Node.blocks (n : Node D) : Multiset ℕ :=
  {n.addr} + (if n.isReference then 0 else strBlock n.valuestring) +
    if n.stringIsConst then 0 else strBlock n.string

mutual

/-- The blocks that an item owns. A reference owns neither children nor a string. -/
def Item.blocks : Item D → Multiset ℕ
  | .mk node child => node.blocks + if node.isReference then 0 else blocksAll child

def blocksAll : List (Item D) → Multiset ℕ
  | [] => 0
  | c :: next => c.blocks + blocksAll next

end

/-- Frees a string that may be `NULL`. -/
def freeStr : Option Str → Prog Unit
  | none => return ()
  | some s => free s.block

mutual

/-- A round of the loop in `cJSON_Delete`. -/
def deleteItem : Item D → Prog Unit
  | .mk node child => do
    skipIf node.isReference (cJSONDelete child)
    skipIf node.isReference (freeStr node.valuestring)
    skipIf node.stringIsConst (freeStr node.string)
    free node.addr

/-- `cJSON_Delete`, for an item and those behind it. -/
def cJSONDelete : List (Item D) → Prog Unit
  | [] => return ()
  | c :: next => do
    deleteItem c
    cJSONDelete next

end

section New

variable (succeeds : ℕ → Bool)

/-- `cJSON_New_Item`. -/
def cJSONNewItem (zero : D) : Prog (Option (Item D)) := do
  match ← malloc succeeds with
  | none => return none
  | some b => return some (.mk ⟨b, .false, false, false, none, 0, zero, none⟩ [])

/-- `cJSON_strdup`. -/
def cJSONStrdup (str : List UInt8) : Prog (Option Str) := do
  match ← malloc succeeds with
  | none => return none
  | some b => return some ⟨b, text str⟩

end New

/-- The tree of `[1, "\""]`. -/
def numberAndQuote : Item ℤ :=
  .mk ⟨0, .array, false, false, none, 0, 0, none⟩
    [.mk ⟨1, .number, false, false, none, 1, 1, none⟩ [],
      .mk ⟨2, .string, false, false, some ⟨3, [34]⟩, 0, 0, none⟩ []]

theorem triple_freeStr (s : Option Str) : Triple (strBlock s) (freeStr s) fun _ G => G = 0 := by
  cases s with
  | none => exact triple_pure rfl
  | some s => exact triple_free s.block

theorem triple_cJSONDelete_of_items {items : List (Item D)}
    (h : ∀ c ∈ items, Triple c.blocks (deleteItem c) fun _ G => G = 0) :
    Triple (blocksAll items) (cJSONDelete items) fun _ G => G = 0 := by
  induction items with
  | nil => exact triple_pure rfl
  | cons c next ih =>
      rw [cJSONDelete]
      refine (h c List.mem_cons_self).bind_frame (F := blocksAll next) (by rw [blocksAll]) ?_
      rintro _ _ rfl
      rw [zero_add]
      exact ih fun c hc => h c (List.mem_cons_of_mem _ hc)

/-- An item is freed with everything that it owns. -/
theorem triple_deleteItem (item : Item D) :
    Triple item.blocks (deleteItem item) fun _ G => G = 0 := by
  induction item using Item.induction with
  | mk node child ih =>
      rw [deleteItem, Item.blocks, Node.blocks]
      have hchild := triple_skipIf node.isReference (triple_cJSONDelete_of_items ih)
      have hvalue := triple_skipIf node.isReference (triple_freeStr node.valuestring)
      have hname := triple_skipIf node.stringIsConst (triple_freeStr node.string)
      refine hchild.bind_frame (F := node.blocks) (by rw [Node.blocks, add_comm]) ?_
      rintro _ _ rfl
      refine hvalue.bind_frame (F := {node.addr} + if node.stringIsConst then 0 else
        strBlock node.string) (by rw [Node.blocks]; abel) ?_
      rintro _ _ rfl
      refine hname.bind_frame (F := {node.addr}) (by abel) ?_
      rintro _ _ rfl
      rw [zero_add]
      exact triple_free node.addr

/-- What is deleted is freed once, and nothing else is. -/
theorem triple_cJSONDelete (items : List (Item D)) :
    Triple (blocksAll items) (cJSONDelete items) fun _ G => G = 0 :=
  triple_cJSONDelete_of_items fun c _ => triple_deleteItem c

theorem blocksAll_singleton (item : Item D) : blocksAll [item] = item.blocks := by
  rw [blocksAll, blocksAll, add_zero]

section New

variable {succeeds : ℕ → Bool}

theorem triple_cJSONNewItem (zero : D) :
    Triple 0 (cJSONNewItem succeeds zero) fun r G => match r with
      | none => G = 0 ∧ ¬ ∀ n, succeeds n = true
      | some item => G = item.blocks ∧
          ∃ b, item = .mk ⟨b, .false, false, false, none, 0, zero, none⟩ [] := by
  refine (triple_malloc succeeds).bind ?_
  intro r G hr
  cases r with
  | none => exact triple_pure hr
  | some b =>
      refine triple_pure ⟨?_, b, rfl⟩
      rw [hr]
      rfl

end New

end ServerKit.CJson
