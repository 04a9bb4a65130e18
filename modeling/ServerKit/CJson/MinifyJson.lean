import ServerKit.CJson.Minify
import ServerKit.CJson.RoundTrip

/-! # Minified JSON

On JSON `cJSON_Minify` keeps the value, and makes of what `cJSON_Print` writes what
`cJSON_PrintUnformatted` writes. -/

namespace ServerKit.CJson

open ServerKit.Blocks ServerKit.CString ServerKit.Json ServerKit.Protocal

/-- In front of any other text `s` is minified to `t`. -/
def Keeps (s t : List UInt8) : Prop := ∀ s' t', Minifies s' t' → Minifies (s ++ s') (t ++ t')

theorem Keeps.append {s t s' t' : List UInt8} (h : Keeps s t) (h' : Keeps s' t') :
    Keeps (s ++ s') (t ++ t') := by
  intro x y hxy
  rw [List.append_assoc, List.append_assoc]
  exact h _ _ (h' _ _ hxy)

theorem Keeps.minifies {s t : List UInt8} (h : Keeps s t) : Minifies s t := by
  have hnil := h [] [] .nil
  rwa [List.append_nil, List.append_nil] at hnil

theorem keeps_nil : Keeps [] [] := fun _ _ h => h

theorem keeps_blank {w : List UInt8} (hw : Blank w) : Keeps w [] := by
  induction w with
  | nil => exact keeps_nil
  | cons b w ih =>
      intro s t h
      have hb := hw b List.mem_cons_self
      refine .blank ?_ (ih (fun b hb => hw b (List.mem_cons_of_mem _ hb)) s t h)
      rcases hb with hb | hb | hb | hb
      · exact .inl hb
      · exact .inr (.inl hb)
      · exact .inr (.inr (.inr hb))
      · exact .inr (.inr (.inl hb))

/-- Neither white space nor the start of a string or a comment. -/
def Plain (s : List UInt8) : Prop := ∀ b ∈ s, b ∉ [32, 9, 13, 10, 34, 47]

instance (s : List UInt8) : Decidable (Plain s) := List.decidableBAll _ s

theorem keeps_plain {s : List UInt8} (hs : Plain s) : Keeps s s := by
  induction s with
  | nil => exact keeps_nil
  | cons b s ih =>
      intro x y h
      have hb := hs b List.mem_cons_self
      simp only [List.mem_cons, List.not_mem_nil, or_false, not_or] at hb
      obtain ⟨h₁, h₂, h₃, h₄, h₅, hslash⟩ := hb
      refine .other ?_ (fun heq => absurd heq hslash)
        (ih (fun b hb => hs b (List.mem_cons_of_mem _ hb)) x y h)
      simp only [List.mem_cons, List.not_mem_nil, or_false, not_or]
      exact ⟨h₁, h₂, h₃, h₄, h₅⟩

theorem plain_digits (ds : List (Fin 10)) : Plain (ds.map digitByte) := by
  intro b hb
  obtain ⟨d, -, rfl⟩ := List.mem_map.mp hb
  clear hb
  decide +revert

theorem Plain.append {s t : List UInt8} (hs : Plain s) (ht : Plain t) : Plain (s ++ t) := by
  intro b hb
  rcases List.mem_append.mp hb with hb | hb
  · exact hs b hb
  · exact ht b hb

theorem plain_number (k : Number) : Plain k.text := by
  obtain ⟨negative, int, frac, exp, _, _⟩ := k
  have hsign : Plain (if negative then [45] else []) := by
    cases negative
    · exact (by decide : Plain [])
    · exact (by decide : Plain [45])
  have hfrac : Plain (if frac = [] then [] else 46 :: frac.map digitByte) := by
    split
    · exact (by decide : Plain [])
    · exact (by decide : Plain [46]).append (plain_digits frac)
  have hexp : Plain ((exp.map Exponent.text).getD []) := by
    rcases exp with _ | ⟨upper, sign, digits, _⟩
    · exact (by decide : Plain [])
    · have hmark : Plain [if upper then 69 else 101] := by cases upper <;> decide
      refine hmark.append (Plain.append ?_ (plain_digits digits))
      rcases sign with _ | _ | _
      · exact (by decide : Plain [])
      · exact (by decide : Plain [43])
      · exact (by decide : Plain [45])
  exact ((hsign.append (plain_digits int)).append hfrac).append hexp

theorem stringEnd_plain {b : UInt8} (hb : b ≠ 34 ∧ b ≠ 92) (s : List UInt8) :
    stringEnd (b :: s) = (stringEnd s).map fun r => (b :: r.1, r.2) := by
  rw [stringEnd.eq_def]
  simp only [if_neg hb.1, if_neg hb.2]

theorem stringEnd_escape (e : UInt8) (s : List UInt8) :
    stringEnd (92 :: e :: s) = (stringEnd s).map fun r => (92 :: e :: r.1, r.2) := by
  rw [stringEnd.eq_def]
  rfl

theorem stringEnd_codeUnit {u : List UInt8} {n : ℕ} (hu : codeUnit u = some n) {s q r : List UInt8}
    (hs : stringEnd s = some (q, r)) : stringEnd (u ++ s) = some (u ++ q, r) := by
  obtain ⟨a, b, c, d, i, j, k, l, rfl, hi, hj, hk, hl, -⟩ := codeUnit_eq_some hu
  have hne : ∀ {x : UInt8} {m : ℕ}, Json.hexDigit x = some m → x ≠ 34 ∧ x ≠ 92 := fun hx =>
    ⟨(hexDigit_ne hx).1, (hexDigit_ne hx).2.1⟩
  simp only [List.cons_append, List.nil_append]
  rw [stringEnd_plain (hne hi), stringEnd_plain (hne hj), stringEnd_plain (hne hk),
    stringEnd_plain (hne hl), hs]
  rfl

/-- The closing quote of a JSON string is found. -/
theorem stringEnd_body {body bytes : List UInt8} (h : Body body bytes) (rest : List UInt8) :
    stringEnd (body ++ 34 :: rest) = some (body ++ [34], rest) := by
  induction h with
  | nil =>
      rw [stringEnd.eq_def]
      rfl
  | plain _ hquote hbackslash _ ih =>
      rw [List.cons_append, stringEnd_plain ⟨hquote, hbackslash⟩, ih]
      rfl
  | short _ _ ih =>
      rw [List.cons_append, List.cons_append, stringEnd_escape, ih]
      rfl
  | unit c hu _ _ ih =>
      rw [List.cons_append, List.cons_append, stringEnd_escape, List.append_assoc,
        stringEnd_codeUnit hu ih]
      simp
  | pair c hu hv _ _ _ _ _ _ ih =>
      have hrest := stringEnd_codeUnit hv ih
      have hsecond : stringEnd (92 :: 117 :: _) = _ := (stringEnd_escape 117 _).trans
        (congrArg _ hrest)
      simp only [List.cons_append, List.append_assoc]
      rw [stringEnd_escape, stringEnd_codeUnit hu hsecond]
      simp

theorem keeps_isString {name q : List UInt8} (h : IsString name q) : Keeps q q := by
  obtain ⟨body, hbody, rfl⟩ := h
  intro s t hst
  have hstring := Minifies.string (stringEnd_body hbody s) hst
  simpa using hstring

section Values

variable {N : Type} {read : Number → N}

theorem keeps_elements {elements : List (Value N)}
    (h : ∀ v ∈ elements, ∀ s, IsText read v s → ∃ t, Keeps s t ∧ IsText read v t)
    {s : List UInt8} (hs : AreElements read elements s) :
    ∃ t, Keeps s t ∧ AreElements read elements t := by
  induction elements generalizing s with
  | nil =>
      rw [AreElements] at hs
      exact ⟨[], keeps_blank hs, by rw [AreElements]; decide⟩
  | cons v rest ih =>
      rw [AreElements] at hs
      obtain ⟨w, x, w', more, hw, hx, hw', rfl, hmore⟩ := hs
      obtain ⟨t, hkeeps, ht⟩ := h v List.mem_cons_self x hx
      have ih := fun s' => ih (fun v hv => h v (List.mem_cons_of_mem _ hv)) (s := s')
      obtain ⟨more', hkeeps', hmore'⟩ : ∃ more', Keeps more more' ∧
          (rest = [] ∧ more' = [] ∨ rest ≠ [] ∧ ∃ s', AreElements read rest s' ∧
            more' = 44 :: s') := by
        rcases hmore with ⟨hnil, rfl⟩ | ⟨hne, s', hs', rfl⟩
        · exact ⟨[], keeps_nil, .inl ⟨hnil, rfl⟩⟩
        · obtain ⟨t', hkeeps', ht'⟩ := ih s' hs'
          exact ⟨44 :: t', (keeps_plain (by decide : Plain [44])).append hkeeps',
            .inr ⟨hne, t', ht', rfl⟩⟩
      refine ⟨[] ++ (t ++ ([] ++ more')), (keeps_blank hw).append (hkeeps.append
        ((keeps_blank hw').append hkeeps')), ?_⟩
      rw [AreElements]
      exact ⟨[], t, [], more', by decide, ht, by decide, rfl, hmore'⟩

theorem keeps_members {members : List (List UInt8 × Value N)}
    (h : ∀ m ∈ members, ∀ s, IsText read m.2 s → ∃ t, Keeps s t ∧ IsText read m.2 t)
    {s : List UInt8} (hs : AreMembers read members s) :
    ∃ t, Keeps s t ∧ AreMembers read members t := by
  induction members generalizing s with
  | nil =>
      rw [AreMembers] at hs
      exact ⟨[], keeps_blank hs, by rw [AreMembers]; decide⟩
  | cons m rest ih =>
      obtain ⟨name, v⟩ := m
      rw [AreMembers] at hs
      obtain ⟨w, q, w', x, y, z, more, hw, hq, hw', hx, hy, hz, rfl, hmore⟩ := hs
      obtain ⟨t, hkeeps, ht⟩ := h (name, v) List.mem_cons_self y hy
      have ih := fun s' => ih (fun m hm => h m (List.mem_cons_of_mem _ hm)) (s := s')
      obtain ⟨more', hkeeps', hmore'⟩ : ∃ more', Keeps more more' ∧
          (rest = [] ∧ more' = [] ∨ rest ≠ [] ∧ ∃ s', AreMembers read rest s' ∧
            more' = 44 :: s') := by
        rcases hmore with ⟨hnil, rfl⟩ | ⟨hne, s', hs', rfl⟩
        · exact ⟨[], keeps_nil, .inl ⟨hnil, rfl⟩⟩
        · obtain ⟨t', hkeeps', ht'⟩ := ih s' hs'
          exact ⟨44 :: t', (keeps_plain (by decide : Plain [44])).append hkeeps',
            .inr ⟨hne, t', ht', rfl⟩⟩
      have hcolon := keeps_plain (by decide : Plain [58])
      refine ⟨[] ++ (q ++ ([] ++ ([58] ++ ([] ++ (t ++ ([] ++ more')))))),
        (keeps_blank hw).append ((keeps_isString hq).append ((keeps_blank hw').append
          (hcolon.append ((keeps_blank hx).append (hkeeps.append
            ((keeps_blank hz).append hkeeps')))))), ?_⟩
      rw [AreMembers]
      exact ⟨[], q, [], [], t, [], more', by decide, hq, by decide, by decide, ht, by decide, rfl,
        hmore'⟩

/-- A JSON text is minified to one of the same value. -/
theorem keeps_isText {v : Value N} {s : List UInt8} (hs : IsText read v s) :
    ∃ t, Keeps s t ∧ IsText read v t := by
  induction v using Value.induction generalizing s with
  | null =>
      have hs' := hs
      rw [IsText] at hs'
      exact ⟨s, keeps_plain (by rw [hs']; decide), hs⟩
  | bool b =>
      have hs' := hs
      cases b
      all_goals
        rw [IsText] at hs'
        exact ⟨s, keeps_plain (by rw [hs']; decide), hs⟩
  | number n =>
      have hs' := hs
      rw [IsText] at hs'
      obtain ⟨k, -, rfl⟩ := hs'
      exact ⟨_, keeps_plain (plain_number k), hs⟩
  | string name =>
      have hs' := hs
      rw [IsText] at hs'
      exact ⟨s, keeps_isString hs', hs⟩
  | array elements ih =>
      rw [IsText] at hs
      obtain ⟨body, hbody, rfl⟩ := hs
      obtain ⟨t, hkeeps, ht⟩ := keeps_elements (fun v hv s hs => ih v hv hs) hbody
      refine ⟨[91] ++ (t ++ [93]), (keeps_plain (by decide : Plain [91])).append
        (hkeeps.append (keeps_plain (by decide : Plain [93]))), ?_⟩
      rw [IsText]
      exact ⟨t, ht, rfl⟩
  | object members ih =>
      rw [IsText] at hs
      obtain ⟨body, hbody, rfl⟩ := hs
      obtain ⟨t, hkeeps, ht⟩ := keeps_members (fun m hm s hs => ih m hm hs) hbody
      refine ⟨[123] ++ (t ++ [125]), (keeps_plain (by decide : Plain [123])).append
        (hkeeps.append (keeps_plain (by decide : Plain [125]))), ?_⟩
      rw [IsText]
      exact ⟨t, ht, rfl⟩

theorem keeps_isDocument {v : Value N} {s : List UInt8} (hs : IsDocument read v s) :
    ∃ t, Keeps s t ∧ IsText read v t := by
  obtain ⟨w, x, w', hw, hx, hw', rfl⟩ := hs
  obtain ⟨t, hkeeps, ht⟩ := keeps_isText hx
  have hwhole := (keeps_blank hw).append (hkeeps.append (keeps_blank hw'))
  rw [List.append_nil, List.nil_append] at hwhole
  exact ⟨t, hwhole, ht⟩

end Values

/-- A document that was minified in its memory is parsed to the same value as before. -/
theorem cJSONParse_cJSONMinify {D N : Type} (succeeds : ℕ → Bool) (hall : ∀ n, succeeds n = true)
    (a : Doubles D) (num : ℤ → D → N) {v : Value N} {s : List UInt8}
    (hs : IsDocument (numberOf a num) v s) (rest : List UInt8) (h : Heap) :
    ∃ t gap c h', cJSONMinify (s ++ 0 :: rest) = some (t ++ 0 :: (gap ++ rest)) ∧
      cJSONParse succeeds a (t ++ 0 :: (gap ++ rest)) h = some (some c, h') ∧
      c.value num = some v := by
  obtain ⟨t, hkeeps, ht⟩ := keeps_isDocument hs
  obtain ⟨gap, -, hminify⟩ :=
    cJSONMinify_minifies hkeeps.minifies (zero_not_mem_isDocument hs) rest
  have hdocument : IsDocument (numberOf a num) v t :=
    ⟨[], t, [], by decide, ht, by decide, by rw [List.nil_append, List.append_nil]⟩
  obtain ⟨_, h', _, hrun, -, c, rfl, -, hvalue⟩ :=
    (triple_cJSONParse_isDocument hall hdocument (gap ++ rest)).run h
  exact ⟨t, gap, c, h', hminify, hrun, hvalue⟩

theorem cJSONParse_cJSONMinify_spaced :
    ∃ t gap c h', cJSONMinify (ofString " [true ,12e2]\n" ++ 0 :: [7]) =
        some (t ++ 0 :: (gap ++ [7])) ∧
      cJSONParse (fun _ => true) integers (t ++ 0 :: (gap ++ [7])) ⟨0, 0⟩ = some (some c, h') ∧
      c.value Prod.mk = some (.array [.bool true, .number (1200, 1200)]) :=
  cJSONParse_cJSONMinify (fun _ => true) (fun _ => rfl) integers Prod.mk
    (isDocument_spaced (numberOf integers Prod.mk) twelveHundred) [7] ⟨0, 0⟩

/-! ## Printed texts -/

section Printed

variable {D : Type} {a : Doubles D}

theorem keeps_pad {w : List UInt8} (hw : Blank w) : Keeps (pad true w) (pad false w) :=
  keeps_blank hw

/-- The formatted text of the value is minified to its unformatted text. -/
def KeepsRender (a : Doubles D) (v : Value (ℤ × D)) : Prop :=
  ∀ depth, Keeps (render a true depth v) (render a false depth v)

theorem keeps_renderElements {elements : List (Value (ℤ × D))}
    (h : ∀ v ∈ elements, KeepsRender a v) (depth : ℕ) :
    Keeps (renderElements a true depth elements) (renderElements a false depth elements) := by
  induction elements with
  | nil => exact keeps_nil
  | cons v rest ih =>
      have ih := ih fun v hv => h v (List.mem_cons_of_mem _ hv)
      have hbetween : Keeps (if rest.isEmpty then [] else 44 :: pad true [32])
          (if rest.isEmpty then [] else 44 :: pad false [32]) := by
        split
        · exact keeps_nil
        · exact (keeps_plain (by decide : Plain [44])).append (keeps_pad (by decide))
      rw [renderElements, renderElements]
      exact ((h v List.mem_cons_self depth).append hbetween).append ih

theorem keeps_renderMembers {members : List (List UInt8 × Value (ℤ × D))}
    (hnames : ∀ m ∈ members, (0 : UInt8) ∉ m.1) (h : ∀ m ∈ members, KeepsRender a m.2)
    (depth : ℕ) :
    Keeps (renderMembers a true depth members) (renderMembers a false depth members) := by
  induction members with
  | nil => exact keeps_nil
  | cons m rest ih =>
      obtain ⟨name, v⟩ := m
      have ih := ih (fun m hm => hnames m (List.mem_cons_of_mem _ hm))
        (fun m hm => h m (List.mem_cons_of_mem _ hm))
      have hname := keeps_isString (isString_printString (hnames (name, v) List.mem_cons_self))
      have hcomma : Keeps (if rest.isEmpty then [] else [44])
          (if rest.isEmpty then [] else [44]) := by
        split
        · exact keeps_nil
        · exact keeps_plain (by decide)
      have hcolon : Keeps (58 :: pad true [9]) (58 :: pad false [9]) :=
        (keeps_plain (by decide : Plain [58])).append (keeps_pad (by decide))
      rw [renderMembers, renderMembers]
      exact (((((keeps_pad (blank_tabs depth)).append hname).append hcolon).append
        (h (name, v) List.mem_cons_self depth)).append hcomma |>.append
          (keeps_pad (by decide))).append ih

theorem keepsRender {v : Value (ℤ × D)} (h : Printable a v) : KeepsRender a v := by
  induction v using Value.induction with
  | null =>
      intro depth
      rw [render, render]
      exact keeps_plain (by decide)
  | bool b =>
      intro depth
      cases b
      all_goals
        rw [render, render]
        exact keeps_plain (by decide)
  | number n =>
      intro depth
      cases h with
      | number hn =>
          obtain ⟨⟨k, hk⟩, -⟩ := hn
          rw [render, render, hk]
          exact keeps_plain (plain_number k)
  | string s =>
      intro depth
      cases h with
      | string hs =>
          rw [render, render]
          exact keeps_isString (isString_printString hs)
  | array elements ih =>
      intro depth
      cases h with
      | array helements =>
          rw [render, render]
          exact (keeps_plain (by decide : Plain [91])).append ((keeps_renderElements
            (fun v hv => ih v hv (helements v hv)) (depth + 1)).append
              (keeps_plain (by decide : Plain [93])))
  | object members ih =>
      intro depth
      cases h with
      | object hnames hmembers =>
          have hopen := keeps_plain (by decide : Plain [123])
          have hclose := keeps_plain (by decide : Plain [125])
          cases members with
          | nil =>
              rw [render, render]
              exact hopen.append ((keeps_pad (blank_append (by decide : Blank [10])
                (blank_tabs _))).append hclose)
          | cons m members =>
              have hinside := keeps_renderMembers hnames (fun m hm => ih m hm (hmembers m hm))
                (depth + 1)
              rw [render, render]
              exact hopen.append ((((keeps_pad (by decide : Blank [10])).append hinside).append
                (keeps_pad (blank_tabs depth))).append hclose)

end Printed

/-- What `cJSON_Print` writes is minified to what `cJSON_PrintUnformatted` writes. -/
theorem cJSONMinify_cJSONPrint {D : Type} (succeeds : ℕ → Bool) (a : Doubles D) {item : Item D}
    {v : Value (ℤ × D)} (hv : item.value Prod.mk = some v)
    (hfinite : v.AllNumbers fun n => Prints a n.2) {h h₁ h₂ h₃ : Heap} {s t : Str}
    (hprint : cJSONPrint succeeds a item h = some (some s, h₁))
    (hunformatted : cJSONPrintUnformatted succeeds a item h₂ = some (some t, h₃))
    (rest : List UInt8) :
    ∃ gap, cJSONMinify (s.bytes ++ 0 :: rest) = some (t.bytes ++ 0 :: (gap ++ rest)) := by
  have hp := printable_of_prints hv hfinite
  have hbytes : ∀ {fmt : Bool} {h h' : Heap} {s : Str},
      printValue succeeds a fmt 0 item h = some (some s, h') → s.bytes = render a fmt 0 v := by
    intro fmt h h' s hrun
    obtain ⟨r, _, _, hrun', -, -, hr⟩ :=
      (printsItem succeeds a fmt item v hv hp 0).run h
    rw [hrun] at hrun'
    cases hrun'
    exact hr
  rw [hbytes hprint, hbytes hunformatted]
  obtain ⟨gap, -, hminify⟩ :=
    cJSONMinify_minifies (keepsRender hp 0).minifies (zero_not_mem_render hp 0) rest
  exact ⟨gap, hminify⟩

theorem cJSONMinify_cJSONPrint_numberAndQuote :
    ∃ s h₁ t h₂ gap, cJSONPrint (fun _ => true) integers numberAndQuote ⟨0, 0⟩ = some (some s, h₁) ∧
      cJSONPrintUnformatted (fun _ => true) integers numberAndQuote ⟨0, 0⟩ = some (some t, h₂) ∧
      cJSONMinify (s.bytes ++ 0 :: [7]) = some (t.bytes ++ 0 :: (gap ++ [7])) := by
  have hall : ∀ n : ℕ, (fun _ => true) n = true := fun _ => rfl
  have hv : numberAndQuote.value Prod.mk = some (.array [.number (1, 1), .string [34]]) := rfl
  have hp := printable_of_prints hv prints_numberAndQuote
  obtain ⟨s, h₁, _, _, hprint, -⟩ :=
    exists_printValue_cJSONParse hall integers true hv hp [] ⟨0, 0⟩
  obtain ⟨t, h₂, _, _, hunformatted, -⟩ :=
    exists_printValue_cJSONParse hall integers false hv hp [] ⟨0, 0⟩
  obtain ⟨gap, hminify⟩ := cJSONMinify_cJSONPrint (fun _ => true) integers hv
    prints_numberAndQuote hprint hunformatted [7]
  exact ⟨s, h₁, t, h₂, gap, hprint, hunformatted, hminify⟩

end ServerKit.CJson
