import ServerKit.CJson.Print

/-! # What the printer allocates

A text fits in the block that was asked for. Whatever calls of `malloc` fail, the printer frees all
that it does not return. -/

namespace ServerKit.CJson

open ServerKit.Blocks ServerKit.CString ServerKit.Json ServerKit.Protocal

/-- The zero byte behind the text has room. -/
def Output.Fits (o : Output) : Prop := o.bytes.length < o.size

section Outputs

theorem length_escape (token : UInt8) : (escape token).length = tokenLength token := by
  have hall : ∀ n : Fin 256, (escape (.ofNat n)).length = tokenLength (.ofNat n) := by
    decide +kernel
  have htoken := hall ⟨token.toNat, token.toNat_lt⟩
  rwa [UInt8.ofNat_toNat] at htoken

theorem escape_of_not_isSpecial {token : UInt8} (h : isSpecial token = false) :
    escape token = [token] := by
  have hall : ∀ n : Fin 256, isSpecial (.ofNat n) = false → escape (.ofNat n) = [.ofNat n] := by
    decide +kernel
  have htoken := hall ⟨token.toNat, token.toNat_lt⟩
  rw [UInt8.ofNat_toNat] at htoken
  exact htoken h

/-- Both ways to print a string come to the same, and keep within their blocks. -/
theorem stringOutput_spec {str : List UInt8} (h : (0 : UInt8) ∉ str) :
    (stringOutput str).Fits ∧ (stringOutput str).bytes = printString str := by
  unfold stringOutput Output.Fits printString
  rw [text_eq_self.mpr h]
  by_cases hspecial : str.any isSpecial = true
  · rw [if_pos hspecial]
    refine ⟨?_, rfl⟩
    have hlen : (str.flatMap escape).length = (str.map tokenLength).sum := by
      rw [List.length_flatMap]
      simp only [length_escape]
    simp only [List.length_cons, List.length_append, List.length_nil, hlen]
    omega
  · rw [if_neg hspecial]
    refine ⟨?_, ?_⟩
    · simp only [List.length_cons, List.length_append, List.length_nil]
      omega
    · have hplain : ∀ str : List UInt8, ¬ str.any isSpecial = true → str.flatMap escape = str := by
        intro str hstr
        induction str with
        | nil => rfl
        | cons b str ih =>
            rw [List.any_cons, Bool.or_eq_true, not_or, Bool.not_eq_true] at hstr
            rw [List.flatMap_cons, escape_of_not_isSpecial hstr.1, ih hstr.2]
            rfl
      rw [hplain str hspecial, List.cons_append]

theorem length_pad_le (fmt : Bool) (s : List UInt8) :
    (pad fmt s).length = if fmt then s.length else 0 := by
  cases fmt
  · rfl
  · rfl

theorem arrayOutput_fits (fmt : Bool) (entries : List (List UInt8)) :
    (arrayOutput fmt entries).Fits := by
  have hjoin : (joinEntries fmt entries).length ≤
      (entries.map fun ret => ret.length + 2 + if fmt then 1 else 0).sum := by
    induction entries with
    | nil => exact Nat.le_refl 0
    | cons s rest ih =>
        have hbetween : (if rest.isEmpty then [] else 44 :: pad fmt [32] : List UInt8).length ≤
            2 + if fmt then 1 else 0 := by
          split
          · exact Nat.zero_le _
          · rw [List.length_cons, length_pad_le]
            cases fmt <;> decide
        rw [joinEntries, List.length_append, List.length_append, List.map_cons, List.sum_cons]
        omega
  unfold Output.Fits arrayOutput
  simp only [List.length_cons, List.length_append, List.length_nil]
  omega

theorem objectOutput_fits (fmt : Bool) {depth : ℕ} (hdepth : 0 < depth)
    (members : List (List UInt8 × List UInt8)) : (objectOutput fmt depth members).Fits := by
  have hjoin : (joinMembers fmt depth members).length ≤
      (members.map fun m => m.2.length + m.1.length + 2 + if fmt then 2 + depth else 0).sum := by
    induction members with
    | nil => exact Nat.le_refl 0
    | cons m rest ih =>
        obtain ⟨name, s⟩ := m
        have hcomma : (if rest.isEmpty then [] else [44] : List UInt8).length ≤ 1 := by
          split <;> decide
        rw [joinMembers, List.map_cons, List.sum_cons]
        simp only [List.length_append, List.length_cons, length_pad_le, tabs,
          List.length_replicate, List.length_nil]
        cases fmt
        · simp only [Bool.false_eq_true, if_false] at ih ⊢
          omega
        · simp only [if_true] at ih ⊢
          omega
  unfold Output.Fits objectOutput
  simp only [List.length_cons, List.length_append, List.length_nil, length_pad_le, tabs,
    List.length_replicate]
  cases fmt
  · simp only [Bool.false_eq_true, if_false] at hjoin ⊢
    omega
  · simp only [if_true] at hjoin ⊢
    omega

theorem emptyObjectOutput_fits (fmt : Bool) (depth : ℕ) : (emptyObjectOutput fmt depth).Fits := by
  unfold Output.Fits emptyObjectOutput
  simp only [List.length_cons, List.length_append, List.length_nil, length_pad_le, tabs,
    List.length_replicate]
  cases fmt
  · simp
  · simp only [if_true]
    omega

theorem emptyArrayOutput_fits : emptyArrayOutput.Fits := by
  unfold Output.Fits
  decide

theorem literalOutput_fits (s : String) : (literalOutput s).Fits := Nat.lt_succ_self _

end Outputs

section Printer

variable {D : Type} {succeeds : ℕ → Bool} {a : Doubles D} {fmt : Bool}

/-- The text in a block of its own, or nothing when memory is missing. -/
def PrintedAs (succeeds : ℕ → Bool) (bytes : List UInt8) (r : Option Str) (G : Multiset ℕ) : Prop :=
  G = strBlock r ∧ match r with
    | none => ¬ ∀ n, succeeds n = true
    | some s => s.bytes = bytes

theorem triple_emit {o : Output} (h : o.Fits) :
    Triple 0 (emit succeeds o) (PrintedAs succeeds o.bytes) := by
  refine (triple_malloc succeeds).bind ?_
  intro r G hr
  cases r with
  | none => exact triple_pure hr
  | some out =>
      have hfits : o.bytes.length < o.size := h
      simp only [if_pos hfits]
      exact triple_pure ⟨hr, rfl⟩

theorem triple_printStringPtr (s : Str) :
    Triple 0 (printStringPtr succeeds (some s))
      (PrintedAs succeeds (printString (text s.bytes))) := by
  obtain ⟨hfits, hbytes⟩ := stringOutput_spec (zero_not_mem_text s.bytes)
  rw [← hbytes]
  exact triple_emit hfits

theorem triple_mallocIf (ok : Bool) :
    Triple 0 (mallocIf succeeds ok) fun r G => match r with
      | none => G = 0 ∧ (ok = false ∨ ¬ ∀ n, succeeds n = true)
      | some b => G = {b} ∧ ok = true := by
  cases ok with
  | false => exact triple_pure ⟨rfl, .inl rfl⟩
  | true =>
      refine (triple_malloc succeeds).mono ?_
      intro r G hr
      cases r with
      | none => exact ⟨hr.1, .inr hr.2⟩
      | some b => exact ⟨hr, rfl⟩

/-! ## Arrays -/

def strBlocks : List Str → Multiset ℕ
  | [] => 0
  | s :: rest => {s.block} + strBlocks rest

theorem triple_freeStrs (strs : List Str) :
    Triple (strBlocks strs) (freeStrs strs) fun _ G => G = 0 := by
  induction strs with
  | nil => exact triple_pure rfl
  | cons s rest ih =>
      rw [freeStrs]
      refine (triple_free s.block).bind_frame (F := strBlocks rest) (by rw [strBlocks]) ?_
      rintro _ _ rfl
      rw [zero_add]
      exact ih

theorem triple_finishArray (entries : ℕ) (strs : List Str) (fail : Bool) :
    Triple ({entries} + strBlocks strs) (finishArray succeeds fmt entries strs fail) fun r G =>
      G = strBlock r ∧ match r with
        | none => fail = true ∨ ¬ ∀ n, succeeds n = true
        | some s => fail = false ∧
            s.bytes = (arrayOutput fmt (strs.map fun s => text s.bytes)).bytes := by
  have hfits : (arrayOutput fmt (strs.map fun s => text s.bytes)).bytes.length <
      (arrayOutput fmt (strs.map fun s => text s.bytes)).size := arrayOutput_fits fmt _
  rw [finishArray]
  refine (triple_mallocIf (!fail)).bind_alloc ?_
  intro out G hG
  refine (triple_freeStrs strs).bind_frame (F := G + {entries}) (by abel) ?_
  rintro _ _ rfl
  refine (triple_free entries).bind_frame (F := G) (by abel) ?_
  rintro _ _ rfl
  rw [zero_add]
  cases out with
  | none => exact triple_pure ⟨hG.1, hG.2.imp_left (by cases fail <;> simp)⟩
  | some out =>
      simp only [if_pos hfits]
      exact triple_pure ⟨hG.1, by simpa using hG.2, rfl⟩

/-! ## Objects -/

def pairBlocks : List (Option Str × Option Str) → Multiset ℕ
  | [] => 0
  | (str, ret) :: rest => strBlock str + strBlock ret + pairBlocks rest

theorem triple_freePairs (strs : List (Option Str × Option Str)) :
    Triple (pairBlocks strs) (freePairs strs) fun _ G => G = 0 := by
  induction strs with
  | nil => exact triple_pure rfl
  | cons p rest ih =>
      obtain ⟨str, ret⟩ := p
      rw [freePairs]
      refine (triple_freeStr str).bind_frame (F := strBlock ret + pairBlocks rest)
        (by rw [pairBlocks, add_assoc]) ?_
      rintro _ _ rfl
      refine (triple_freeStr ret).bind_frame (F := pairBlocks rest) (zero_add _) ?_
      rintro _ _ rfl
      rw [zero_add]
      exact ih

theorem triple_finishObject {depth : ℕ} (hdepth : 0 < depth) (entries names : ℕ)
    (strs : List (Option Str × Option Str)) :
    Triple ({entries} + {names} + pairBlocks strs)
      (finishObject succeeds fmt depth entries names strs) fun r G =>
      G = strBlock r ∧ match r with
        | none => gather strs = none ∨ ¬ ∀ n, succeeds n = true
        | some s => ∃ members, gather strs = some members ∧ s.bytes = (objectOutput fmt depth
            (members.map fun m => (text m.1.bytes, text m.2.bytes))).bytes := by
  rw [finishObject]
  simp only [Option.isSome_map]
  refine (triple_mallocIf (gather strs).isSome).bind_alloc ?_
  intro out G hG
  refine (triple_freePairs strs).bind_frame (F := G + {entries} + {names}) (by abel) ?_
  rintro _ _ rfl
  refine (triple_free names).bind_frame (F := G + {entries}) (by abel) ?_
  rintro _ _ rfl
  refine (triple_free entries).bind_frame (F := G) (by abel) ?_
  rintro _ _ rfl
  rw [zero_add]
  cases out with
  | none =>
      refine triple_pure ⟨hG.1, hG.2.imp_left ?_⟩
      cases gather strs <;> simp
  | some out =>
      obtain ⟨rfl, hsome⟩ := hG
      obtain ⟨members, hmembers⟩ := Option.isSome_iff_exists.mp hsome
      have hfits := objectOutput_fits fmt hdepth
        (members.map fun m => (text m.1.bytes, text m.2.bytes))
      unfold Output.Fits at hfits
      simp only [hmembers, Option.map_some, if_pos hfits]
      exact triple_pure ⟨rfl, members, rfl, rfl⟩

/-! ## Values -/

theorem zero_not_mem_printString {s : List UInt8} (hs : (0 : UInt8) ∉ s) :
    (0 : UInt8) ∉ printString s :=
  zero_not_mem_isString (isString_printString hs)

theorem zero_not_mem_render {v : Value (ℤ × D)} (h : Printable a v) (depth : ℕ) :
    (0 : UInt8) ∉ render a fmt depth v :=
  zero_not_mem_isText (isText_render fmt h depth)

theorem joinEntries_render (depth : ℕ) (vs : List (Value (ℤ × D))) :
    joinEntries fmt (vs.map (render a fmt depth)) = renderElements a fmt depth vs := by
  induction vs with
  | nil => rfl
  | cons v rest ih => rw [List.map_cons, joinEntries, ih, renderElements, List.isEmpty_map]

theorem joinMembers_render (depth : ℕ) (ms : List (List UInt8 × Value (ℤ × D))) :
    joinMembers fmt depth (ms.map fun m => (printString m.1, render a fmt depth m.2)) =
      renderMembers a fmt depth ms := by
  induction ms with
  | nil => rfl
  | cons m rest ih =>
      obtain ⟨name, v⟩ := m
      rw [List.map_cons, joinMembers, ih, renderMembers, List.isEmpty_map]

theorem printable_of_prints {item : Item D} {v : Value (ℤ × D)} (hv : item.value Prod.mk = some v)
    (hfinite : v.AllNumbers fun n => Prints a n.2) : Printable a v :=
  value_all hv (hfinite.imp fun _ hn => isPrinted_of_prints hn)

/-- An item is printed at any depth, whatever calls of `malloc` fail. -/
def PrintsItem (succeeds : ℕ → Bool) (a : Doubles D) (fmt : Bool) (item : Item D) : Prop :=
  ∀ v, item.value Prod.mk = some v → Printable a v → ∀ depth,
    Triple 0 (printValue succeeds a fmt depth item) (PrintedAs succeeds (render a fmt depth v))

theorem triple_printEntries {child : List (Item D)}
    (h : ∀ c ∈ child, PrintsItem succeeds a fmt c) {vs : List (Value (ℤ × D))}
    (hvs : List.Forall₂ (fun c v => c.value Prod.mk = some v) child vs)
    (hp : ∀ v ∈ vs, Printable a v) (depth : ℕ) :
    Triple 0 (printEntries succeeds a fmt depth child) fun r G => G = strBlocks r.1 ∧
      (r.2 = true ∧ (¬ ∀ n, succeeds n = true) ∨
        r.2 = false ∧ (r.1.map fun s => text s.bytes) = vs.map (render a fmt depth)) := by
  induction hvs with
  | nil => exact triple_pure ⟨rfl, .inr ⟨rfl, rfl⟩⟩
  | @cons c v next vs hv _ ih =>
      have hvp := hp v List.mem_cons_self
      have ih := ih (fun c hc => h c (List.mem_cons_of_mem _ hc))
        (fun v hv => hp v (List.mem_cons_of_mem _ hv))
      rw [printEntries]
      refine (h c List.mem_cons_self v hv hvp depth).bind ?_
      rintro ret G ⟨rfl, hret⟩
      cases ret with
      | none => exact triple_pure ⟨rfl, .inl ⟨rfl, hret⟩⟩
      | some ret =>
          refine ih.bind_alloc ?_
          rintro ⟨rest, fail⟩ G ⟨rfl, hrest⟩
          refine triple_pure ⟨?_, ?_⟩
          · rw [strBlocks, add_comm]
            rfl
          · refine hrest.imp_right ?_
            rintro ⟨hfail, hmap⟩
            have hbytes : ret.bytes = render a fmt depth v := hret
            refine ⟨hfail, ?_⟩
            rw [List.map_cons, List.map_cons, hmap, hbytes,
              text_eq_self.mpr (zero_not_mem_render hvp depth)]

theorem triple_printMembers {child : List (Item D)}
    (h : ∀ c ∈ child, PrintsItem succeeds a fmt c) {ms : List (List UInt8 × Value (ℤ × D))}
    (hms : List.Forall₂ (IsMember Prod.mk) child ms) (hnames : ∀ m ∈ ms, (0 : UInt8) ∉ m.1)
    (hp : ∀ m ∈ ms, Printable a m.2) (depth : ℕ) :
    Triple 0 (printMembers succeeds a fmt depth child) fun r G => G = pairBlocks r ∧
      (gather r = none → ¬ ∀ n, succeeds n = true) ∧
      ∀ members, gather r = some members →
        (members.map fun m => (text m.1.bytes, text m.2.bytes)) =
          ms.map fun m => (printString m.1, render a fmt depth m.2) := by
  induction hms with
  | nil =>
      refine triple_pure ⟨rfl, by rintro ⟨⟩, ?_⟩
      rintro members hmembers
      cases hmembers
      rfl
  | @cons c m next ms hm _ ih =>
      obtain ⟨name, v⟩ := m
      obtain ⟨hname, hv⟩ := hm
      obtain ⟨str, hstr, htext⟩ := Option.map_eq_some_iff.mp hname
      have htext : text str.bytes = name := htext
      have hvp := hp (name, v) List.mem_cons_self
      have hzero := hnames (name, v) List.mem_cons_self
      have ih := ih (fun c hc => h c (List.mem_cons_of_mem _ hc))
        (fun m hm => hnames m (List.mem_cons_of_mem _ hm))
        (fun m hm => hp m (List.mem_cons_of_mem _ hm))
      rw [printMembers, hstr]
      refine (triple_printStringPtr str).bind ?_
      rintro out _ ⟨rfl, hout⟩
      refine (h c List.mem_cons_self v hv hvp depth).bind_alloc ?_
      rintro ret _ ⟨rfl, hret⟩
      refine ih.bind_alloc ?_
      rintro rest _ ⟨rfl, hnone, hsome⟩
      refine triple_pure ⟨?_, ?_, ?_⟩
      · rw [pairBlocks]
        abel
      · -- the first text that is missing was not allocated
        cases out with
        | none => exact fun _ => hout
        | some out =>
            cases ret with
            | none => exact fun _ => hret
            | some ret =>
                intro hgather
                rw [gather, Option.bind_some, Option.bind_some, Option.map_eq_none_iff] at hgather
                exact hnone hgather
      · intro members hmembers
        rw [gather, Option.bind_eq_some_iff] at hmembers
        obtain ⟨out', rfl, hmembers⟩ := hmembers
        rw [Option.bind_eq_some_iff] at hmembers
        obtain ⟨ret', rfl, hmembers⟩ := hmembers
        rw [Option.map_eq_some_iff] at hmembers
        obtain ⟨members', hmembers', rfl⟩ := hmembers
        have hbytes : out'.bytes = printString (text str.bytes) := hout
        have hbytes' : ret'.bytes = render a fmt depth v := hret
        rw [List.map_cons, List.map_cons, hsome members' hmembers', hbytes, hbytes', htext,
          text_eq_self.mpr (zero_not_mem_printString hzero),
          text_eq_self.mpr (zero_not_mem_render hvp depth)]

theorem forall₂_nil_iff {α β : Type} {R : α → β → Prop} {l : List α} {m : List β}
    (h : List.Forall₂ R l m) : l.isEmpty = m.isEmpty := by
  cases h <;> rfl

theorem printsItem_array {node : Node D} {child : List (Item D)}
    (h : ∀ c ∈ child, PrintsItem succeeds a fmt c) (hkind : node.kind = .array) :
    PrintsItem succeeds a fmt (.mk node child) := by
  intro v hv hp depth
  rw [Item.value, hkind] at hv
  obtain ⟨vs, hvs, rfl⟩ := Option.map_eq_some_iff.mp hv
  have hall := elementValues_eq_some.mp hvs
  cases hp with
  | array hp =>
      rw [printValue, hkind, render]
      cases child with
      | nil =>
          cases hall
          rw [renderElements]
          exact triple_emit emptyArrayOutput_fits
      | cons c next =>
          simp only [List.isEmpty_cons, Bool.false_eq_true, if_false]
          refine (triple_malloc succeeds).bind ?_
          intro entries G hG
          cases entries with
          | none => exact triple_pure hG
          | some entries =>
              rw [show G = {entries} from hG]
              refine (triple_printEntries h hall hp (depth + 1)).bind_alloc ?_
              rintro ⟨strs, fail⟩ _ ⟨rfl, hstrs⟩
              rw [add_comm]
              refine (triple_finishArray entries strs fail).mono ?_
              rintro r G ⟨rfl, hr⟩
              refine ⟨rfl, ?_⟩
              cases r with
              | none =>
                  rcases hr with hfail | hno
                  · rcases hstrs with ⟨-, hno⟩ | ⟨hok, -⟩
                    · exact hno
                    · cases hfail.symm.trans hok
                  · exact hno
              | some s =>
                  obtain ⟨hok, hbytes⟩ := hr
                  rcases hstrs with ⟨hfail, -⟩ | ⟨-, hmap⟩
                  · cases hok.symm.trans hfail
                  · show s.bytes = _
                    rw [hbytes, hmap, arrayOutput, joinEntries_render]

theorem printsItem_object {node : Node D} {child : List (Item D)}
    (h : ∀ c ∈ child, PrintsItem succeeds a fmt c) (hkind : node.kind = .object) :
    PrintsItem succeeds a fmt (.mk node child) := by
  intro v hv hp depth
  rw [Item.value, hkind] at hv
  obtain ⟨ms, hms, rfl⟩ := Option.map_eq_some_iff.mp hv
  have hall := memberValues_eq_some.mp hms
  cases hp with
  | object hnames hp =>
      rw [printValue, hkind]
      cases hall with
      | nil =>
          rw [render]
          exact triple_emit (emptyObjectOutput_fits fmt depth)
      | @cons c m next ms hm hrest =>
          rw [render]
          simp only [List.isEmpty_cons, Bool.false_eq_true, if_false]
          refine (triple_malloc succeeds).bind ?_
          intro entries G hG
          cases entries with
          | none => exact triple_pure hG
          | some entries =>
              rw [show G = {entries} from hG]
              refine (triple_malloc succeeds).bind_alloc ?_
              intro names G hG
              cases names with
              | none =>
                  rw [hG.1]
                  refine (triple_free entries).bind_frame (F := 0) (by abel) ?_
                  rintro _ _ rfl
                  exact triple_pure ⟨rfl, hG.2⟩
              | some names =>
                  rw [show G = {names} from hG]
                  refine (triple_printMembers h (.cons hm hrest) hnames hp
                    (depth + 1)).bind_alloc ?_
                  rintro strs _ ⟨rfl, hnone, hsome⟩
                  rw [show pairBlocks strs + ({names} + {entries}) =
                    {entries} + {names} + pairBlocks strs by abel]
                  refine (triple_finishObject depth.succ_pos entries names strs).mono ?_
                  rintro r G ⟨rfl, hr⟩
                  refine ⟨rfl, ?_⟩
                  cases r with
                  | none => exact hr.elim hnone id
                  | some s =>
                      obtain ⟨members, hmembers, hbytes⟩ := hr
                      show s.bytes = _
                      rw [hbytes, hsome members hmembers, objectOutput, joinMembers_render]
                      rfl

/-- The printer writes the text of the value, or frees all that it has allocated. -/
theorem printsItem (succeeds : ℕ → Bool) (a : Doubles D) (fmt : Bool) (item : Item D) :
    PrintsItem succeeds a fmt item := by
  induction item using Item.induction with
  | mk node child ih =>
      cases hkind : node.kind with
      | array => exact printsItem_array ih hkind
      | object => exact printsItem_object ih hkind
      | null =>
          intro v hv hp depth
          rw [Item.value, hkind] at hv
          cases hv
          rw [printValue, hkind, render]
          exact triple_emit (literalOutput_fits "null")
      | false =>
          intro v hv hp depth
          rw [Item.value, hkind] at hv
          cases hv
          rw [printValue, hkind, render]
          exact triple_emit (literalOutput_fits "false")
      | true =>
          intro v hv hp depth
          rw [Item.value, hkind] at hv
          cases hv
          rw [printValue, hkind, render]
          exact triple_emit (literalOutput_fits "true")
      | number =>
          intro v hv hp depth
          rw [Item.value, hkind] at hv
          cases hv
          cases hp with
          | number hn =>
              rw [printValue, hkind, render]
              exact triple_emit (o := numberOutput a (node.valueint, node.valuedouble)) hn.2
      | string =>
          intro v hv hp depth
          rw [Item.value, hkind] at hv
          obtain ⟨s, hs, rfl⟩ := Option.map_eq_some_iff.mp hv
          rw [printValue, hkind, render, hs]
          exact triple_printStringPtr s

/-- Whatever calls of `malloc` fail: the printer keeps within the blocks it has asked for, and ends
with the text in one block that is left to the caller, or with nothing left. -/
theorem printValue_frees (succeeds : ℕ → Bool) (a : Doubles D) (fmt : Bool) {item : Item D}
    {v : Value (ℤ × D)} (hv : item.value Prod.mk = some v)
    (hfinite : v.AllNumbers fun n => Prints a n.2) (depth : ℕ) (h : Heap) :
    ∃ r h', printValue succeeds a fmt depth item h = some (r, h') ∧ match r with
      | none => (¬ ∀ n, succeeds n = true) ∧ h'.live = h.live
      | some s => s.bytes = render a fmt depth v ∧ h'.live = {s.block} + h.live := by
  have hp := printable_of_prints hv hfinite
  obtain ⟨r, h', G, hrun, hlive, rfl, hr⟩ :=
    (printsItem succeeds a fmt item v hv hp depth).run h
  refine ⟨r, h', hrun, ?_⟩
  cases r with
  | none => exact ⟨hr, hlive.trans (zero_add _)⟩
  | some s => exact ⟨hr, hlive⟩

end Printer

theorem printValue_frees_numberAndQuote :
    ∃ r h', printValue (· != 2) integers true 0 numberAndQuote ⟨0, {7}⟩ = some (r, h') ∧
      match r with
      | none => (¬ ∀ n, (n != 2) = true) ∧ h'.live = {7}
      | some s => s.bytes = render integers true 0 (.array [.number (1, 1), .string [34]]) ∧
          h'.live = {s.block} + {7} :=
  printValue_frees (· != 2) integers true rfl prints_numberAndQuote 0 ⟨0, {7}⟩

end ServerKit.CJson
