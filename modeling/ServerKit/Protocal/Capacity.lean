import Mathlib.Algebra.Order.BigOperators.Group.List
import Mathlib.Algebra.Order.Ring.Nat
import ServerKit.Protocal.Print

/-! # The room in the send buffer

How long the texts are that the application prints, counted from what they are made of: names,
strings with their escapes, and what `print_number` makes of each number with the conversions of
the C library. -/

namespace ServerKit.Protocal

open ServerKit.CString

/-- What `print_string_ptr` counts for a byte. -/
def tokenSize (token : UInt8) : ℕ :=
  1 + if token ∈ [34, 92, 8, 12, 10, 13, 9] then 1 else if token < 32 then 5 else 0

/-- The size of a string with its quotes. -/
def stringSize (str : List UInt8) : ℕ := ((text str).map tokenSize).sum + 2

section Sizes

variable (c : Conversions)

mutual

/-- The size of a value on a line that is indented this deep. -/
def valueSize (depth : ℕ) : Json → ℕ
  | .item _ .null _ => 4
  | .item _ (.bool false) _ => 5
  | .item _ (.bool true) _ => 4
  | .item _ (.number d) _ => (printNumber c d).length
  | .item _ (.string s) _ => stringSize s
  | .item _ .array child => 2 + elementsSize (depth + 1) child
  | .item _ .object child =>
    if child.isEmpty then 3 + (depth - 1) else 3 + depth + membersSize (depth + 1) child

def elementsSize (depth : ℕ) : List Json → ℕ
  | [] => 0
  | child :: rest =>
    valueSize depth child + (if rest.isEmpty then 0 else 2) + elementsSize depth rest

def membersSize (depth : ℕ) : List Json → ℕ
  | [] => 0
  | child :: rest =>
    depth + stringSize (ofString (child.name.getD "")) + 3 + valueSize depth child +
      (if rest.isEmpty then 0 else 1) + membersSize depth rest

end

variable {c}

theorem length_escape (token : UInt8) : (escape token).length = tokenSize token := by
  unfold escape tokenSize
  split_ifs <;> simp_all [ofString]

@[simp] theorem length_printString (str : List UInt8) :
    (printString str).length = stringSize str := by
  simp [printString, stringSize, List.length_flatMap, length_escape]

/-- A byte that is printed as it is, as the letters of all names are. -/
def plain (b : UInt8) : Bool := Nat.ble 35 b.toNat && b != 92

theorem tokenSize_plain {b : UInt8} (h : plain b = true) : tokenSize b = 1 := by
  have hspecial : b ∉ [34, 92, 8, 12, 10, 13, 9] := by
    intro hmem
    simp only [List.mem_cons, List.not_mem_nil, or_false] at hmem
    rcases hmem with rfl | rfl | rfl | rfl | rfl | rfl | rfl
    all_goals exact absurd h (by decide)
  have hcontrol : ¬ b < 32 := by
    intro hlt
    have hle := Nat.le_of_ble_eq_true (Bool.and_eq_true_iff.mp h).1
    have hlt' : b.toNat < 32 := UInt8.lt_iff_toNat_lt.mp hlt
    omega
  rw [tokenSize, if_neg hspecial, if_neg hcontrol]

/-- The size of a string that has nothing to escape. -/
theorem stringSize_plain {bytes : List UInt8} (h : bytes.all plain = true) :
    stringSize bytes = bytes.length + 2 := by
  have hplain := List.all_eq_true.mp h
  have htext : text bytes = bytes := by
    refine List.takeWhile_eq_self_iff.mpr ?_
    intro b hb
    have hzero : b ≠ 0 := by
      rintro rfl
      exact absurd (hplain 0 hb) (by decide)
    simpa using hzero
  have hone : bytes.map tokenSize = bytes.map fun _ => 1 :=
    List.map_congr_left fun b hb => tokenSize_plain (hplain b hb)
  rw [stringSize, htext, hone, List.map_const', List.sum_replicate_nat, Nat.mul_one]

theorem stringSize_name {s : String} (h : (ofString s).all plain = true) :
    stringSize (ofString s) = s.toList.length + 2 := by
  rw [stringSize_plain h, ofString, List.length_map]

@[simp] theorem length_tabs (n : ℕ) : (tabs n).length = n := List.length_replicate

/-- Induction over a tree. -/
@[elab_as_elim]
theorem Json.induction {P : Json → Prop}
    (item : ∀ string value child, (∀ c ∈ child, P c) → P (.item string value child)) (j : Json) :
    P j := by
  refine @Json.rec P (fun child => ∀ c ∈ child, P c) item ?_ ?_ j
  · intro c hc
    cases hc
  · intro first rest hfirst hrest
    exact List.forall_mem_cons.mpr ⟨hfirst, hrest⟩

theorem length_printElements {child : List Json} (depth : ℕ)
    (h : ∀ j ∈ child, ∀ depth, (printValue c depth j).length = valueSize c depth j) :
    (printElements c depth child).length = elementsSize c depth child := by
  induction child with
  | nil => rfl
  | cons first rest ih =>
      have hfirst := h first List.mem_cons_self depth
      have hrest := ih fun j hj => h j (List.mem_cons_of_mem _ hj)
      rw [printElements, elementsSize, List.length_append, List.length_append, hfirst, hrest]
      split <;> rfl

theorem length_printMembers {child : List Json} (depth : ℕ)
    (h : ∀ j ∈ child, ∀ depth, (printValue c depth j).length = valueSize c depth j) :
    (printMembers c depth child).length = membersSize c depth child := by
  induction child with
  | nil => rfl
  | cons first rest ih =>
      have hfirst := h first List.mem_cons_self depth
      have hrest := ih fun j hj => h j (List.mem_cons_of_mem _ hj)
      have hcomma : (if rest.isEmpty then [] else ofString ",").length =
          if rest.isEmpty then 0 else 1 := by
        split <;> rfl
      have hcolon : (ofString ":\t").length = 2 := rfl
      have hend : (ofString "\n").length = 1 := rfl
      simp only [printMembers, membersSize, List.length_append, length_tabs, length_printString,
        hfirst, hrest, hcomma, hcolon, hend]
      omega

/-- A tree is printed in as many bytes as are counted for it. -/
theorem length_printValue (j : Json) (depth : ℕ) :
    (printValue c depth j).length = valueSize c depth j := by
  induction j using Json.induction generalizing depth with
  | item string value child ih =>
      cases value with
      | null => rfl
      | bool b =>
          cases b
          · rfl
          · rfl
      | number d => rfl
      | string s => exact length_printString s
      | array =>
          simp only [printValue, valueSize, List.length_append, List.length_cons,
            length_printElements (depth + 1) ih, List.length_nil]
          omega
      | object =>
          rw [printValue, valueSize]
          split
          · simp
            omega
          · simp only [List.length_append, List.length_cons, length_tabs,
              length_printMembers (depth + 1) ih, List.length_nil]
            omega

/-! ## The sizes of lists and new objects -/

theorem elementsSize_eq (depth : ℕ) (child : List Json) :
    elementsSize c depth child =
      (child.map (valueSize c depth)).sum + 2 * (child.length - 1) := by
  induction child with
  | nil => rfl
  | cons first rest ih =>
      rw [elementsSize, ih]
      cases rest with
      | nil => simp
      | cons second rest =>
          simp
          omega

/-- The size of a line of an object, with its comma and its end. -/
def memberSize (c : Conversions) (depth : ℕ) (name : String) (item : Json) : ℕ :=
  depth + stringSize (ofString name) + 4 + valueSize c depth item

/-- The last line has no comma. -/
theorem membersSize_eq (depth : ℕ) (child : List Json) :
    membersSize c depth child =
      (child.map fun j => memberSize c depth (j.name.getD "") j).sum -
        if child.isEmpty then 0 else 1 := by
  induction child with
  | nil => rfl
  | cons first rest ih =>
      rw [membersSize, ih]
      cases rest with
      | nil => simp [memberSize]
      | cons second rest =>
          simp [memberSize]
          omega

/-- The size of an item does not depend on its name. -/
theorem valueSize_rename (depth : ℕ) (string : Option String) (item : Json) :
    valueSize c depth (.item string item.value item.child) = valueSize c depth item := by
  cases item with
  | item _ value _ =>
      cases value with
      | bool b =>
          cases b
          · rfl
          · rfl
      | _ => rfl

theorem object_eq (items : List (String × Json)) :
    object items =
      .item none .object (items.map fun item => .item (some item.1) item.2.value item.2.child) := by
  have hfold : ∀ (items : List (String × Json)) (child : List Json),
      items.foldl (fun o item => addItemToObject o item.1 item.2) (.item none .object child) =
        .item none .object
          (child ++ items.map fun item => .item (some item.1) item.2.value item.2.child) := by
    intro items
    induction items with
    | nil => simp
    | cons item items ih =>
        intro child
        rw [List.foldl_cons, addItemToObject.eq_def]
        cases hitem : item.2
        simp only [addItemToArray, ih, List.map_cons, hitem, Json.value, Json.child,
          List.append_assoc, List.singleton_append]
  exact hfold items []

theorem array_eq (items : List Json) : array items = .item none .array items := by
  have hfold : ∀ (items child : List Json),
      items.foldl addItemToArray (.item none .array child) =
        .item none .array (child ++ items) := by
    intro items
    induction items with
    | nil => simp
    | cons item items ih =>
        intro child
        rw [List.foldl_cons, addItemToArray, ih, List.append_assoc, List.singleton_append]
  exact hfold items []

/-- A new object is as large as its lines and its braces. -/
theorem valueSize_object (depth : ℕ) (item : String × Json) (items : List (String × Json)) :
    valueSize c depth (object (item :: items)) =
      2 + depth +
        ((item :: items).map fun item => memberSize c (depth + 1) item.1 item.2).sum := by
  rw [object_eq, valueSize, membersSize_eq]
  simp only [List.isEmpty_map, List.isEmpty_cons, Bool.false_eq_true, if_false, List.map_map]
  have hline : (fun j => memberSize c (depth + 1) (j.name.getD "") j) ∘
      (fun item : String × Json => Json.item (some item.1) item.2.value item.2.child) =
      fun item => memberSize c (depth + 1) item.1 item.2 := by
    funext item
    simp only [Function.comp_apply, memberSize, Json.name, Option.getD_some, valueSize_rename]
  rw [hline, List.map_cons, List.sum_cons]
  simp only [memberSize]
  omega

/-! ## The sizes of the messages -/

section Messages

variable (c : Conversions)

/-- How many bytes `print_number` writes for an integer. -/
def digits (n : ℤ) : ℕ := (printNumber c (Float.ofInt n)).length

/-- How many bytes `print_number` writes for a `double`. -/
def decimals (d : Float) : ℕ := (printNumber c d).length

/-- Elements of an array, with what separates them. -/
def entriesSize (sizes : List ℕ) : ℕ := sizes.sum + 2 * (sizes.length - 1)

def registerSize (rsctl : ℤ) : ℕ :=
  110 + digits c 0xc1 + digits c rsctl + digits c 1 + digits c 0 + digits c 123

def rsiSize (rsctl : ℤ) (sizes : List ℕ) : ℕ :=
  158 + digits c 0xc2 + digits c rsctl + digits c 52 + decimals c 113.300348777 +
    decimals c 23.566940348 + digits c 0 + entriesSize sizes

/-- An event is larger by its place, if it has one. -/
def rteSize (rteid : ℤ) (rte : RsiRteDate) : ℕ :=
  140 + digits c 101 + digits c rteid + digits c rte.eventtype + stringSize rte.description +
    digits c 5 + digits c 100 + digits c 1000 + digits c 1 +
    if rte.lat ≠ 0 ∨ rte.lon ≠ 0 then 61 + digits c rte.lat + digits c rte.lon + digits c 0 else 0

def posSize (pos : Pos) : ℕ := 44 + decimals c pos.lon + decimals c pos.lat + digits c pos.ele

def rtsSize (rteid : ℤ) (rts : RsiRtsDate) : ℕ :=
  135 + digits c rteid + digits c rts.signtype + posSize c rts.signpos + digits c 102 +
    digits c 5 + digits c 100 + stringSize rts.description + digits c 1

def parterSize (parter : RsmParter) : ℕ :=
  305 + posSize c parter.pos + digits c 1 + digits c 37652 + digits c 0 + digits c 7 +
    digits c parter.speed + digits c parter.heading + digits c parter.angle +
    digits c parter.width + digits c parter.length + digits c parter.height +
    digits c 0 + digits c 0 + stringSize parter.id

def rsmSize (rsctl : ℤ) (sizes : List ℕ) : ℕ :=
  107 + digits c 197 + digits c rsctl + digits c 52 + entriesSize sizes

/-- A message of the platform with its tag. Only objects and arrays show it. -/
def taggedSize (root : Json) : ℕ :=
  match root.value with
  | .object => valueSize c 0 root + digits c 0xd1 + if root.child.isEmpty then 15 else 16
  | .array => valueSize c 0 root + digits c 0xd1 + if root.child.isEmpty then 0 else 2
  | _ => valueSize c 0 root

/-- The size of what a call prints, and 0 if it prints nothing. -/
def Process.size (cJSONParse : List UInt8 → Option Json) (s : Process) : Call → ℕ
  | .responseRegister => registerSize c s.counters.rsctlResponse
  | .platcontrol2rsu recvbuf => (cJSONParse recvbuf).elim 0 (taggedSize c)
  | .mec2rsuRsirte rtearray =>
    rsiSize c s.counters.rsctlRsi (rtearray.mapIdx fun i => rteSize c (s.counters.rteid + i))
  | .mec2rsuRsirts rtsarray =>
    rsiSize c s.counters.rsctlRsi (rtsarray.mapIdx fun i => rtsSize c (s.counters.rteid + i))
  | .mec2rsuRsm parter => rsmSize c s.counters.rsctlRsm (parter.map (parterSize c))

end Messages

@[simp] theorem stringSize_text (str : List UInt8) : stringSize (text str) = stringSize str := by
  rw [stringSize, stringSize, text, text, List.takeWhile_idem]

@[simp] theorem valueSize_number (depth : ℕ) (n : ℤ) :
    valueSize c depth (number n) = digits c n := rfl

@[simp] theorem valueSize_double (depth : ℕ) (d : Float) :
    valueSize c depth (double d) = decimals c d := rfl

@[simp] theorem valueSize_string (depth : ℕ) (bytes : List UInt8) :
    valueSize c depth (string bytes) = stringSize bytes := stringSize_text bytes

@[simp] theorem valueSize_null (depth : ℕ) : valueSize c depth (create .null) = 4 := rfl

@[simp] theorem valueSize_true (depth : ℕ) : valueSize c depth (create (.bool true)) = 4 := rfl

@[simp] theorem valueSize_array (depth : ℕ) (items : List Json) :
    valueSize c depth (array items) = 2 + entriesSize (items.map (valueSize c (depth + 1))) := by
  rw [array_eq, valueSize, elementsSize_eq, entriesSize, List.length_map]

/-- The line of a name that has nothing to escape. -/
theorem memberSize_name {depth : ℕ} {name : String} {item : Json}
    (h : (ofString name).all plain = true) :
    memberSize c depth name item = depth + name.toList.length + 6 + valueSize c depth item := by
  rw [memberSize, stringSize_name h]
  omega

@[simp] theorem valueSize_rsuesn (depth : ℕ) : valueSize c depth rsuesn = 38 := by
  rw [rsuesn, valueSize_string, stringSize_name (by decide)]
  rfl

theorem valueSize_posItem (pos : Pos) : valueSize c 3 (posItem pos) = posSize c pos := by
  simp (disch := decide) [posItem, posSize, valueSize_object, memberSize_name]
  omega

theorem valueSize_rteItem (rteid : ℤ) (rte : RsiRteDate) :
    valueSize c 2 (rteItem rteid rte) = rteSize c rteid rte := by
  by_cases hplace : rte.lat ≠ 0 ∨ rte.lon ≠ 0
  · simp only [rteItem, rteSize, if_pos hplace]
    simp (disch := decide) [valueSize_object, memberSize_name]
    omega
  · simp only [rteItem, rteSize, if_neg hplace]
    simp (disch := decide) [valueSize_object, memberSize_name]
    omega

theorem valueSize_rtsItem (rteid : ℤ) (rts : RsiRtsDate) :
    valueSize c 2 (rtsItem rteid rts) = rtsSize c rteid rts := by
  simp (disch := decide) [rtsItem, rtsSize, valueSize_object, memberSize_name, valueSize_posItem]
  omega

theorem valueSize_parterItem (parter : RsmParter) :
    valueSize c 2 (parterItem parter) = parterSize c parter := by
  simp (disch := decide) [parterItem, parterSize, valueSize_object, memberSize_name,
    valueSize_posItem]
  omega

theorem valueSize_registerTree (rsctl : ℤ) :
    valueSize c 0 (registerTree rsctl) = registerSize c rsctl := by
  have hesn : stringSize (ofString "123") = 5 := stringSize_name (by decide)
  simp (disch := decide) [registerTree, registerSize, valueSize_object, memberSize_name, hesn]
  omega

theorem valueSize_rsiTree (rsctl : ℤ) (datamsg : List Json) :
    valueSize c 0 (rsiTree rsctl datamsg) =
      rsiSize c rsctl (datamsg.map (valueSize c 2)) := by
  simp (disch := decide) [rsiTree, rsiSize, valueSize_object, memberSize_name]
  omega

theorem valueSize_rsmTree (rsctl : ℤ) (datas : List Json) :
    valueSize c 0 (rsmTree rsctl datas) = rsmSize c rsctl (datas.map (valueSize c 2)) := by
  simp (disch := decide) [rsmTree, rsmSize, valueSize_object, memberSize_name]
  omega

theorem valueSize_platcontrolTree (root : Json) :
    valueSize c 0 (platcontrolTree root) = taggedSize c root := by
  cases root with
  | item name value child =>
      let tag : Json := .item (some "frametype") (number 0xd1).value (number 0xd1).child
      have htree : platcontrolTree (.item name value child) = .item name value (child ++ [tag]) :=
        rfl
      have htag : valueSize c 1 tag = digits c 0xd1 := rfl
      rw [htree]
      cases value with
      | null => rfl
      | bool b =>
          cases b
          · rfl
          · rfl
      | number d => rfl
      | string s => rfl
      | array =>
          simp only [valueSize, taggedSize, Json.value, Json.child, elementsSize_eq, Nat.zero_add,
            List.map_append, List.sum_append, List.length_append, List.map_cons, List.map_nil,
            List.sum_cons, List.sum_nil, htag, List.length_cons, List.length_nil]
          cases child with
          | nil => simp
          | cons first rest =>
              simp
              omega
      | object =>
          have hline : memberSize c 1 "frametype" tag = 16 + digits c 0xd1 := by
            rw [memberSize_name (by decide), htag]
            rfl
          simp only [valueSize, taggedSize, Json.value, Json.child, membersSize_eq, Nat.zero_add,
            List.map_append, List.sum_append, List.map_cons, List.map_nil, List.sum_cons,
            List.sum_nil]
          rw [show tag.name.getD "" = "frametype" from rfl, hline]
          cases child with
          | nil =>
              simp
              omega
          | cons first rest =>
              have hfirst : 0 < memberSize c 1 (first.name.getD "") first := by
                rw [memberSize]
                omega
              simp
              omega

/-- The elements of a loop that numbers them. -/
theorem map_numbered {β : Type} (item : ℤ → β → Json) (f : Json → ℕ) (rteid : ℤ) (l : List β) :
    (numbered item rteid l).map f = l.mapIdx fun i d => f (item (rteid + i) d) := by
  induction l generalizing rteid with
  | nil => rfl
  | cons d l ih =>
      have hfirst : rteid + ((0 : ℕ) : ℤ) = rteid := by omega
      have hrest : ∀ i : ℕ, rteid + ((i + 1 : ℕ) : ℤ) = rteid + 1 + i := by omega
      rw [numbered, List.map_cons, ih, List.mapIdx_cons, hfirst]
      simp only [hrest]

/-- The size of the tree that a call prints. -/
theorem valueSize_tree {cJSONParse : List UInt8 → Option Json} {s : Process} {call : Call}
    {root : Json} (h : root ∈ s.tree cJSONParse call) :
    valueSize c 0 root = s.size c cJSONParse call := by
  cases call with
  | responseRegister =>
      cases h
      exact valueSize_registerTree _
  | platcontrol2rsu recvbuf =>
      rcases Option.map_eq_some_iff.mp h with ⟨parsed, hparse, rfl⟩
      rw [valueSize_platcontrolTree, Process.size, hparse, Option.elim_some]
  | mec2rsuRsirte rtearray =>
      cases h
      simp only [valueSize_rsiTree, map_numbered, valueSize_rteItem, Process.size]
  | mec2rsuRsirts rtsarray =>
      cases h
      simp only [valueSize_rsiTree, map_numbered, valueSize_rtsItem, Process.size]
  | mec2rsuRsm parter =>
      cases h
      have hparter : valueSize c 2 ∘ parterItem = parterSize c := funext valueSize_parterItem
      rw [valueSize_rsmTree, List.map_map, hparter]
      rfl

/-- A call that prints nothing has size 0. -/
theorem size_of_tree_none {cJSONParse : List UInt8 → Option Json} {s : Process} {call : Call}
    (h : s.tree cJSONParse call = none) : s.size c cJSONParse call = 0 := by
  cases call with
  | platcontrol2rsu recvbuf => rw [Process.size, Option.map_eq_none_iff.mp h, Option.elim_none]
  | responseRegister => cases h
  | mec2rsuRsirte rtearray => cases h
  | mec2rsuRsirts rtsarray => cases h
  | mec2rsuRsm parter => cases h

/-- **The send buffer.** What a call prints has room in the send buffer exactly if its size,
counted from the data, is at most 1024. -/
theorem textFits_iff (cJSONParse : List UInt8 → Option Json) (s : Process) (call : Call) :
    TextFits cJSONParse (cJSONPrint c) s call ↔ s.size c cJSONParse call ≤ 1024 := by
  have htext : ∀ root ∈ s.tree cJSONParse call,
      (cJSONPrint c root).length = s.size c cJSONParse call :=
    fun root hroot => (length_printValue root 0).trans (valueSize_tree hroot)
  rw [← s.lwsctx.length_sendbuffer]
  constructor
  · intro h
    cases htree : s.tree cJSONParse call with
    | some root =>
        have hroot : root ∈ s.tree cJSONParse call := htree
        exact htext root hroot ▸ h root hroot
    | none =>
        rw [size_of_tree_none htree]
        exact Nat.zero_le _
  · intro h root hroot
    rw [htext root hroot]
    exact h

/-- Three participants never have room, whatever their data are. -/
theorem three_participants_overrun (cJSONParse : List UInt8 → Option Json) (s : Process)
    {parter : List RsmParter} (h : 3 ≤ parter.length) :
    ¬ TextFits cJSONParse (cJSONPrint c) s (.mec2rsuRsm parter) := by
  have hmin : ∀ size ∈ parter.map (parterSize c), 349 ≤ size := by
    intro size hsize
    rcases List.mem_map.mp hsize with ⟨p, -, rfl⟩
    simp only [parterSize, posSize]
    omega
  have hsum : parter.length * 349 ≤ (parter.map (parterSize c)).sum := by
    simpa using List.card_nsmul_le_sum _ _ hmin
  rw [textFits_iff, Process.size, rsmSize, entriesSize]
  omega

end Sizes

/-- The conversions on the number 209. -/
def conversions209 : Conversions where
  trunc _ := 209
  whole _ := ofString "209"
  scientific _ := ofString "2.090000e+02"
  fixed _ := ofString "209.000000"

theorem le_taggedSize_lettersMember (c : Conversions) (n : ℕ) :
    n + 2 ≤ taggedSize c (lettersMember n) := by
  have hstring : stringSize (List.replicate n 97) = n + 2 := by
    have hplain : (List.replicate n 97).all plain = true := by
      rw [List.all_eq_true]
      intro b hb
      rw [List.eq_of_mem_replicate hb]
      rfl
    rw [stringSize_plain hplain, List.length_replicate]
  simp only [lettersMember, taggedSize, Json.value, valueSize, membersSize, hstring,
    List.isEmpty_cons, Bool.false_eq_true, if_false]
  omega

/-- A message of the platform with a long string is written past the end of the send buffer. -/
theorem long_member_overruns :
    ¬ TextFits (fun _ => some (lettersMember 1024)) (cJSONPrint conversions209) connected
      (.platcontrol2rsu (lettersText 1024)) := by
  intro h
  have hfits := h (platcontrolTree (lettersMember 1024)) rfl
  rw [cJSONPrint, length_printValue, valueSize_platcontrolTree,
    connected.lwsctx.length_sendbuffer] at hfits
  have hlong := le_taggedSize_lettersMember conversions209 1024
  omega

end ServerKit.Protocal
