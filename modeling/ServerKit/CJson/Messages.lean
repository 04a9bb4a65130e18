import ServerKit.CJson.RoundTrip
import ServerKit.Protocal.Capacity

/-! # The messages, read back

The trees of `test_main.cpp` are printed as JSON. A peer that parses the text of a message with
`cJSON_Parse` gets the tree that was built, but for what the conversions of `double` make of the
numbers. -/

namespace ServerKit.CJson

open ServerKit.Blocks ServerKit.CString ServerKit.Json

/-- The operations on `double` with these conversions. The power of ten is a parameter, and so is
what an `int` holds after an overflow. -/
def doubles (c : Protocal.Conversions) (scaled : Bool → Float → ℤ → Float) (overflow : ℤ → ℤ) :
    Doubles Float where
  zero := 0
  digit n d := n * 10.0 + Float.ofNat d
  scaled := scaled
  trunc := c.trunc
  overflow := overflow
  isZero d := d == 0
  isInt i d := decide ((Float.ofInt i - d).abs ≤ Protocal.DBL_EPSILON ∧ d ≤ 2147483647 ∧
    d ≥ -2147483648)
  isWhole d := decide ((d.floor - d).abs ≤ Protocal.DBL_EPSILON ∧ d.abs < 1.0e60)
  isExtreme d := decide (d.abs < 1.0e-6 ∨ d.abs > 1.0e9)
  whole := c.whole
  scientific := c.scientific
  fixed := c.fixed

section Trees

variable (c : Protocal.Conversions)

mutual

/-- The value of a tree; `cJSON_CreateNumber` stores a number twice. -/
def treeValue : Protocal.Json → Value (ℤ × Float)
  | .item _ .null _ => .null
  | .item _ (.bool b) _ => .bool b
  | .item _ (.number d) _ => .number (c.trunc d, d)
  | .item _ (.string s) _ => .string (text s)
  | .item _ .array child => .array (treeElements child)
  | .item _ .object child => .object (treeMembers child)

def treeElements : List Protocal.Json → List (Value (ℤ × Float))
  | [] => []
  | child :: rest => treeValue child :: treeElements rest

def treeMembers : List Protocal.Json → List (List UInt8 × Value (ℤ × Float))
  | [] => []
  | child :: rest =>
    (text (ofString (child.name.getD "")), treeValue child) :: treeMembers rest

end

variable {c} {scaled : Bool → Float → ℤ → Float} {overflow : ℤ → ℤ}

theorem numberText_doubles (d : Float) :
    numberText (doubles c scaled overflow) (c.trunc d, d) = Protocal.printNumber c d := by
  simp only [numberText, doubles, decide_eq_true_eq]
  rfl

theorem printString_text (s : List UInt8) :
    Protocal.printString (text s) = Protocal.printString s := by
  rw [Protocal.printString, text_eq_self.mpr (zero_not_mem_text s), Protocal.printString]

theorem renderElements_tree {child : List Protocal.Json} (depth : ℕ)
    (h : ∀ j ∈ child, ∀ depth, render (doubles c scaled overflow) true depth (treeValue c j) =
      Protocal.printValue c depth j) :
    renderElements (doubles c scaled overflow) true depth (treeElements c child) =
      Protocal.printElements c depth child := by
  induction child with
  | nil => rfl
  | cons j rest ih =>
      rw [treeElements, renderElements, Protocal.printElements, h j List.mem_cons_self,
        ih fun j hj => h j (List.mem_cons_of_mem _ hj)]
      cases rest <;> rfl

theorem renderMembers_tree {child : List Protocal.Json} (depth : ℕ)
    (h : ∀ j ∈ child, ∀ depth, render (doubles c scaled overflow) true depth (treeValue c j) =
      Protocal.printValue c depth j) :
    renderMembers (doubles c scaled overflow) true depth (treeMembers c child) =
      Protocal.printMembers c depth child := by
  induction child with
  | nil => rfl
  | cons j rest ih =>
      rw [treeMembers, renderMembers, Protocal.printMembers, h j List.mem_cons_self,
        ih fun j hj => h j (List.mem_cons_of_mem _ hj), printString_text]
      cases rest <;> simp [pad, ofString, treeMembers]

/-- The two printers write the same text. -/
theorem render_tree (depth : ℕ) (j : Protocal.Json) :
    render (doubles c scaled overflow) true depth (treeValue c j) =
      Protocal.printValue c depth j := by
  induction j using Protocal.Json.induction generalizing depth with
  | item string value child ih =>
      cases value with
      | null => rfl
      | bool b => cases b <;> rfl
      | number d => exact numberText_doubles d
      | string s => exact printString_text s
      | array =>
          rw [treeValue, render, Protocal.printValue,
            renderElements_tree _ fun j hj depth => ih j hj depth]
          rfl
      | object =>
          cases child with
          | nil => rfl
          | cons j rest =>
              have hmembers : renderMembers (doubles c scaled overflow) true (depth + 1)
                  (treeMembers c _) = _ :=
                renderMembers_tree (depth + 1) fun j hj depth => ih j hj depth
              rw [treeMembers] at hmembers
              rw [treeValue, treeMembers, render, hmembers, Protocal.printValue]
              simp [pad]

theorem exists_of_mem_treeElements {child : List Protocal.Json} {v : Value (ℤ × Float)}
    (h : v ∈ treeElements c child) : ∃ j ∈ child, treeValue c j = v := by
  induction child with
  | nil => cases h
  | cons j rest ih =>
      rcases List.mem_cons.mp h with rfl | h
      · exact ⟨j, List.mem_cons_self, rfl⟩
      · obtain ⟨j', hj', hv⟩ := ih h
        exact ⟨j', List.mem_cons_of_mem _ hj', hv⟩

theorem exists_of_mem_treeMembers {child : List Protocal.Json}
    {m : List UInt8 × Value (ℤ × Float)} (h : m ∈ treeMembers c child) :
    (0 : UInt8) ∉ m.1 ∧ ∃ j ∈ child, treeValue c j = m.2 := by
  induction child with
  | nil => cases h
  | cons j rest ih =>
      rcases List.mem_cons.mp h with rfl | h
      · exact ⟨zero_not_mem_text _, j, List.mem_cons_self, rfl⟩
      · obtain ⟨hm, j', hj', hv⟩ := ih h
        exact ⟨hm, j', List.mem_cons_of_mem _ hj', hv⟩

/-- The strings of a tree are C strings. -/
theorem treeValue_all {p : ℤ × Float → Prop} (j : Protocal.Json)
    (h : (treeValue c j).AllNumbers p) : (treeValue c j).All (fun s => (0 : UInt8) ∉ s) p := by
  induction j using Protocal.Json.induction with
  | item string value child ih =>
      cases value with
      | null => exact .null
      | bool b => exact .bool b
      | number d =>
          cases h with
          | number hn => exact .number hn
      | string s => exact .string (zero_not_mem_text s)
      | array =>
          rw [treeValue] at h ⊢
          cases h with
          | array h =>
              refine .array fun v hv => ?_
              obtain ⟨j, hj, rfl⟩ := exists_of_mem_treeElements hv
              exact ih j hj (h _ hv)
      | object =>
          rw [treeValue] at h ⊢
          cases h with
          | object _ h =>
              refine .object (fun m hm => (exists_of_mem_treeMembers hm).1) fun m hm => ?_
              obtain ⟨-, j, hj, hv⟩ := exists_of_mem_treeMembers hm
              rw [← hv]
              exact ih j hj (hv ▸ h m hm)

end Trees

/-! ## What a peer gets -/

section Sending

open ServerKit.Protocal (Process TextFits LengthStored callStep)

variable {parse : List UInt8 → Option Protocal.Json} {print : Protocal.Json → List UInt8}

/-- What a call prints is its tree. -/
theorem printed_of_callStep {s : Process} {call : Protocal.Call} {out : Process × Protocal.Sent}
    {root : Protocal.Json} (hroot : root ∈ s.tree parse call)
    (h : callStep parse print s call = some out) : out.2.printed = some (print root) := by
  have hbind : ∀ {lwsctx : Option Protocal.LwsMes}
      {write : Protocal.LwsMes → Option (Option (List UInt8))} {after : Protocal.LwsMes → Process}
      {text : List UInt8},
      (lwsctx.bind fun l => (write l).bind fun handed =>
        some (after l, (⟨some text, handed⟩ : Protocal.Sent))) = some out →
      out.2.printed = some text := by
    intro lwsctx write after text h
    obtain ⟨l, -, h⟩ := Option.bind_eq_some_iff.mp h
    obtain ⟨handed, -, h⟩ := Option.bind_eq_some_iff.mp h
    cases h
    rfl
  cases call with
  | responseRegister =>
      cases hroot
      exact hbind h
  | platcontrol2rsu recvbuf =>
      obtain ⟨parsed, hparse, rfl⟩ := Option.map_eq_some_iff.mp hroot
      simp only [callStep, Protocal.platcontrol2rsu, hparse] at h
      exact hbind h
  | mec2rsuRsirte rtearray =>
      cases hroot
      exact hbind h
  | mec2rsuRsirts rtsarray =>
      cases hroot
      exact hbind h
  | mec2rsuRsm parter =>
      cases hroot
      exact hbind h

/-- A message that fits into the send buffer and whose length is right is handed over as a text
that `cJSON_Parse` reads as the tree of the message. -/
theorem cJSONParse_handed (c : Protocal.Conversions) (scaled : Bool → Float → ℤ → Float)
    (overflow : ℤ → ℤ) (succeeds : ℕ → Bool) (hall : ∀ n, succeeds n = true) {s : Process}
    (hs : s.Connected) {call : Protocal.Call} {root : Protocal.Json}
    (hroot : root ∈ s.tree parse call)
    (hfits : TextFits parse (Protocal.cJSONPrint c) s call)
    (hstored : LengthStored parse (Protocal.cJSONPrint c) s call)
    (hprinted : (treeValue c root).AllNumbers (IsPrinted (doubles c scaled overflow)))
    (junk : List UInt8) (h : Heap) :
    ∃ out text item h', callStep parse (Protocal.cJSONPrint c) s call = some out ∧
      out.2.handed = some text ∧
      cJSONParse succeeds (doubles c scaled overflow) (text ++ 0 :: junk) h =
        some (some item, h') ∧
      item.value Prod.mk = some ((treeValue c root).map (reread (doubles c scaled overflow))) := by
  obtain ⟨out, hout, -, hhands⟩ := Protocal.callStep_spec hs hfits
  have htext := printed_of_callStep hroot hout
  have hdocument := isDocument_render (a := doubles c scaled overflow) true
    (treeValue_all root hprinted)
  rw [render_tree] at hdocument
  obtain ⟨_, h', _, hrun, -, item, rfl, -, hvalue⟩ :=
    (triple_cJSONParse_isDocument hall hdocument junk).run h
  exact ⟨out, _, item, h', hout, (hhands.mpr hstored).trans htext, hrun, hvalue⟩

end Sending

/-! ## The type of an empty message -/

theorem isNumberText_209 : IsNumberText 3 (ofString "209") ∧
    IsNumberText 12 (ofString "2.090000e+02") ∧ IsNumberText 10 (ofString "209.000000") := by
  refine ⟨⟨⟨⟨false, [2, 0, 9], [], none, by decide, by decide⟩, by decide⟩, by decide⟩,
    ⟨⟨⟨false, [2], [0, 9, 0, 0, 0, 0], some ⟨false, some false, [0, 2], by decide⟩, by decide,
      by decide⟩, by decide⟩, by decide⟩,
    ⟨⟨⟨false, [2, 0, 9], [0, 0, 0, 0, 0, 0], none, by decide, by decide⟩, by decide⟩, by decide⟩⟩

theorem isPrinted_209 (scaled : Bool → Float → ℤ → Float) (overflow : ℤ → ℤ) (d : Float) :
    IsPrinted (doubles Protocal.conversions209 scaled overflow) (209, d) := by
  obtain ⟨⟨hwhole, hwhole'⟩, ⟨hscientific, hscientific'⟩, hfixed, hfixed'⟩ := isNumberText_209
  by_cases hzero : (doubles Protocal.conversions209 scaled overflow).isZero d = true
  · exact isPrinted_zero hzero
  by_cases hint : (doubles Protocal.conversions209 scaled overflow).isInt 209 d = true
  · exact isPrinted_int hint
      ⟨show (-2147483648 : ℤ) ≤ 209 by decide, show (209 : ℤ) ≤ 2147483647 by decide⟩
  unfold IsPrinted numberText numberSize
  rw [if_neg hzero, if_neg hzero, if_neg hint, if_neg hint]
  split
  · exact ⟨hwhole, Nat.lt_of_le_of_lt hwhole' (by decide)⟩
  · split
    · exact ⟨hscientific, Nat.lt_of_le_of_lt hscientific' (by decide)⟩
    · exact ⟨hfixed, Nat.lt_of_le_of_lt hfixed' (by decide)⟩

/-- What is printed for the empty message of the platform, once it has its type. -/
def typedText : List UInt8 :=
  Protocal.cJSONPrint Protocal.conversions209 (Protocal.platcontrolTree (Protocal.create .object))

theorem length_typedText_le : typedText.length ≤ 1024 := by
  have hnumber : ∀ d, (Protocal.printNumber Protocal.conversions209 d).length ≤ 12 := by
    intro d
    unfold Protocal.printNumber
    split
    · decide
    · split
      · exact show (ofString "209").length ≤ 12 by decide
      · split
        · exact show (ofString "209").length ≤ 12 by decide
        · split
          · exact show (ofString "2.090000e+02").length ≤ 12 by decide
          · exact show (ofString "209.000000").length ≤ 12 by decide
  have hname : (Protocal.printString (ofString "frametype")).length = 11 := by decide
  have htext : typedText = 123 :: 10 :: ([9] ++ Protocal.printString (ofString "frametype") ++
      ofString ":\t" ++ Protocal.printNumber Protocal.conversions209 (Float.ofInt 209) ++ [10]) ++
      [125] := rfl
  rw [htext]
  simp only [List.length_append, List.length_cons, List.length_nil, hname]
  have hcolon : (ofString ":\t").length = 2 := rfl
  have := hnumber (Float.ofInt 209)
  omega

/-- A process that has stored the length of this text. -/
def typedProcess : Protocal.Process where
  counters := ⟨0, 0, 0, 0⟩
  lwsctx := ⟨8, Protocal.connected.lwsctx.sendbuffer, Protocal.connected.lwsctx.length_sendbuffer,
    typedText.length⟩

theorem cJSONParse_handed_typed : ∃ out text item h',
    Protocal.callStep Protocal.parseBraces (Protocal.cJSONPrint Protocal.conversions209)
        typedProcess (.platcontrol2rsu Protocal.braces) = some out ∧
      out.2.handed = some text ∧
      cJSONParse (fun _ => true) (doubles Protocal.conversions209 (fun _ d _ => d) id)
        (text ++ 0 :: []) ⟨0, 0⟩ = some (some item, h') ∧
      item.value Prod.mk = some ((treeValue Protocal.conversions209
        (Protocal.platcontrolTree (Protocal.create .object))).map
          (reread (doubles Protocal.conversions209 (fun _ d _ => d) id))) := by
  have hlength : typedText.length ≤ typedProcess.lwsctx.sendbuffer.length := by
    rw [typedProcess.lwsctx.length_sendbuffer]
    exact length_typedText_le
  refine cJSONParse_handed Protocal.conversions209 (fun _ d _ => d) id (fun _ => true)
    (fun _ => rfl) ⟨by decide, hlength⟩ rfl ?_ ?_ ?_ [] ⟨0, 0⟩
  · rintro root ⟨⟩
    exact hlength
  · rintro root ⟨⟩
    rfl
  · refine .object (fun _ _ => trivial) ?_
    intro m hm
    rw [List.mem_singleton.mp hm]
    exact .number (isPrinted_209 _ _ _)

end ServerKit.CJson
