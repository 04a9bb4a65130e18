import ServerKit.CJson.Buffered
import ServerKit.CJson.Printed

/-! # What the buffer holds

The printer with a buffer writes the texts one behind the other, and comes to the same text as the
one without. When no larger block can be had the buffer is freed. -/

namespace ServerKit.CJson

open ServerKit.Blocks ServerKit.CString ServerKit.Memory ServerKit.Json ServerKit.Protocal

/-- A block of the size that is asked for is large enough. -/
theorem le_pow2gt (x : ℕ) : x ≤ pow2gt x := by
  have hor : ∀ y k : ℕ, y ≤ y ||| (y >>> k) := fun y k => Nat.left_le_or
  have hsmear := (((((hor (x - 1) 1).trans (hor _ 2)).trans (hor _ 4)).trans (hor _ 8)).trans
    (hor _ 16))
  unfold pow2gt
  simp only
  omega

section Buffer

variable {succeeds : ℕ → Bool} {junk : ℕ → ℕ → UInt8}

/-- The buffer has been freed, as no larger one could be had. -/
def Lost (succeeds : ℕ → Bool) (p : PrintBuffer) (G : Multiset ℕ) : Prop :=
  p.buffer = none ∧ G = 0 ∧ ¬ ∀ n, succeeds n = true

/-- The buffer starts with `pre`, and what comes next is written behind it. -/
def Filled (pre : List UInt8) (p : PrintBuffer) (G : Multiset ℕ) : Prop :=
  ∃ b, p.buffer = some b ∧ G = {b} ∧ pre <+: p.area ∧ p.offset = pre.length

/-- Behind `pre` stand `s` and a zero byte, and the offset points to one of these bytes. -/
def Written (pre s : List UInt8) (p : PrintBuffer) (G : Multiset ℕ) : Prop :=
  ∃ b, p.buffer = some b ∧ G = {b} ∧ pre ++ s ++ [0] <+: p.area ∧
    pre.length ≤ p.offset ∧ p.offset ≤ (pre ++ s).length

/-- How a step ends: with a pointer, or without one and without a buffer. -/
def Outcome (succeeds : ℕ → Bool) (Q : PrintBuffer → Multiset ℕ → Prop) (r : Bool × PrintBuffer)
    (G : Multiset ℕ) : Prop :=
  r.1 = false ∧ Lost succeeds r.2 G ∨ r.1 = true ∧ Q r.2 G

variable {p : PrintBuffer} {G : Multiset ℕ} {pre s : List UInt8}

theorem Outcome.imp {Q Q' : PrintBuffer → Multiset ℕ → Prop} {r : Bool × PrintBuffer}
    (h : Outcome succeeds Q r G) (himp : ∀ p, Q p G → Q' p G) : Outcome succeeds Q' r G :=
  h.imp_right fun ⟨hok, hQ⟩ => ⟨hok, himp r.2 hQ⟩

theorem triple_ensure (h : Lost succeeds p G ∨ Filled pre p G) (needed : ℕ) :
    Triple G (ensure succeeds junk needed p) (Outcome succeeds fun p G =>
      Filled pre p G ∧ pre.length + needed ≤ p.area.length) := by
  rw [ensure]
  rcases h with ⟨hnone, hG, hno⟩ | ⟨b, hb, rfl, hpre, hoffset⟩
  · rw [hnone]
    exact triple_pure (.inl ⟨rfl, hnone, hG, hno⟩)
  rw [hb]
  simp only
  by_cases hroom : needed + p.offset ≤ p.area.length
  · rw [if_pos hroom]
    refine triple_pure (.inr ⟨rfl, ⟨b, hb, rfl, hpre, hoffset⟩, ?_⟩)
    show pre.length + needed ≤ p.area.length
    omega
  rw [if_neg hroom]
  refine (triple_malloc succeeds).bind_alloc ?_
  intro r G hr
  cases r with
  | none =>
      obtain ⟨rfl, hno⟩ := hr
      refine (triple_free b).bind_frame (F := 0) (by rw [zero_add, add_zero]) ?_
      rintro _ _ rfl
      exact triple_pure (.inl ⟨rfl, rfl, rfl, hno⟩)
  | some newbuffer =>
      have hG : G = {newbuffer} := hr
      have hsize := le_pow2gt (needed + p.offset)
      have hlen : (uninitialized junk newbuffer (pow2gt (needed + p.offset))).length =
          pow2gt (needed + p.offset) := by
        rw [uninitialized, List.length_map, List.length_range]
      obtain ⟨area, harea, hnew⟩ := exists_memcpy
        (uninitialized junk newbuffer (pow2gt (needed + p.offset))) 0 p.area 0 (n := p.area.length)
        (by omega) (by omega)
      have htake : area.take p.area.length = p.area := by
        have hstore := harea
        rw [memcpy_eq_store (by omega), List.drop_zero, List.take_length] at hstore
        have htake := store_take hstore
        rwa [Nat.zero_add, List.take_zero, List.nil_append] at htake
      simp only [harea]
      refine (triple_compute (Q := fun r G' => r = area ∧ G' = G + {b}) ⟨rfl, rfl⟩).bind ?_
      rintro _ _ ⟨rfl, rfl⟩
      refine (triple_free b).bind_frame (F := G) (add_comm _ _) ?_
      rintro _ _ rfl
      rw [zero_add]
      refine triple_pure (.inr ⟨rfl, ⟨newbuffer, rfl, hG, ?_, hoffset⟩, ?_⟩)
      · exact hpre.trans (htake ▸ List.take_prefix _ _)
      · simp only [hnew, hlen]
        omega

/-- What is written at the offset stands behind what was there. -/
theorem triple_put (h : Lost succeeds p G ∨ Filled pre p G) {needed : ℕ} {bytes : List UInt8}
    (hneeded : bytes.length ≤ needed) (len : ℕ) :
    Triple G (put succeeds junk needed bytes len p) (Outcome succeeds fun p G =>
      ∃ b, p.buffer = some b ∧ G = {b} ∧ pre ++ bytes <+: p.area ∧
        p.offset = pre.length + len) := by
  rw [put]
  refine (triple_ensure h needed).bind ?_
  rintro ⟨ok, p'⟩ G' (⟨hok, hlost⟩ | ⟨hok, ⟨b, hb, rfl, hpre, hoffset⟩, hroom⟩)
  · have hok : ok = false := hok
    subst hok
    exact triple_pure (.inl ⟨rfl, hlost⟩)
  · have hok : ok = true := hok
    subst hok
    have hroom : pre.length + needed ≤ p'.area.length := hroom
    have hoffset : p'.offset = pre.length := hoffset
    have hfits : p'.offset + bytes.length ≤ p'.area.length := by omega
    have hstore := store_eq_some hfits
    have htake := store_take hstore
    have hbefore : p'.area.take p'.offset = pre := by
      rw [hoffset]
      exact (List.prefix_iff_eq_take.mp hpre).symm
    simp only [if_true, hstore]
    refine (triple_compute (Q := fun r G => r = _ ∧ G = {b}) ⟨rfl, rfl⟩).bind ?_
    rintro _ _ ⟨rfl, rfl⟩
    refine triple_pure (.inr ⟨rfl, b, hb, rfl, ?_, by rw [hoffset]⟩)
    rw [hbefore]
    exact List.prefix_append _ _

/-- What is written behind the text before, and stays in front of the offset. -/
theorem triple_put_filled (h : Lost succeeds p G ∨ Filled pre p G) {needed : ℕ} {s : List UInt8}
    (rest : List UInt8) (hneeded : (s ++ rest).length ≤ needed) :
    Triple G (put succeeds junk needed (s ++ rest) s.length p)
      (Outcome succeeds (Filled (pre ++ s))) := by
  refine (triple_put h hneeded s.length).mono ?_
  intro r G hr
  refine hr.imp ?_
  rintro p ⟨b, hb, hG, hprefix, hoffset⟩
  refine ⟨b, hb, hG, ?_, by rw [hoffset, List.length_append]⟩
  rw [← List.append_assoc] at hprefix
  exact (List.prefix_append _ _).trans hprefix

theorem triple_put_string (h : Lost succeeds p G ∨ Filled pre p G) (s : List UInt8) :
    Triple G (put succeeds junk (s.length + 1) (s ++ [0]) s.length p)
      (Outcome succeeds (Filled (pre ++ s))) :=
  triple_put_filled h [0] (by rw [List.length_append]; exact Nat.le_refl _)

theorem triple_put_bytes (h : Lost succeeds p G ∨ Filled pre p G) (s : List UInt8) :
    Triple G (put succeeds junk s.length s s.length p) (Outcome succeeds (Filled (pre ++ s))) := by
  have hput : Triple G (put succeeds junk s.length (s ++ []) s.length p) _ :=
    triple_put_filled h [] (Nat.le_of_eq (congrArg List.length (List.append_nil s)))
  rwa [List.append_nil] at hput

/-- What is written behind the text before, with the offset left where it was. -/
theorem triple_put_written (h : Lost succeeds p G ∨ Filled pre p G) {needed : ℕ}
    {s : List UInt8} (hneeded : s.length < needed) :
    Triple G (put succeeds junk needed (s ++ [0]) 0 p)
      (Outcome succeeds (Written pre s)) := by
  refine (triple_put h (by rw [List.length_append]; exact hneeded) 0).mono ?_
  intro r G hr
  refine hr.imp ?_
  rintro p ⟨b, hb, hG, hprefix, hoffset⟩
  rw [← List.append_assoc] at hprefix
  refine ⟨b, hb, hG, hprefix, by omega, ?_⟩
  rw [List.length_append]
  omega

theorem Written.append {x : List UInt8} (h : Written (pre ++ x) s p G) :
    Written pre (x ++ s) p G := by
  obtain ⟨b, hb, hG, hprefix, hlow, hhigh⟩ := h
  rw [List.length_append] at hlow
  rw [List.append_assoc pre] at hprefix hhigh
  exact ⟨b, hb, hG, hprefix, by omega, hhigh⟩

theorem triple_emitBuffered (h : Lost succeeds p G ∨ Filled pre p G) {o : Output} (ho : o.Fits) :
    Triple G (emitBuffered succeeds junk o p) (Outcome succeeds (Written pre o.bytes)) :=
  triple_put_written h ho

theorem triple_printStringBuffered (h : Lost succeeds p G ∨ Filled pre p G) (s : Str) :
    Triple G (printStringBuffered succeeds junk (some s) p)
      (Outcome succeeds (Written pre (printString (text s.bytes)))) := by
  obtain ⟨hfits, hbytes⟩ := stringOutput_spec (zero_not_mem_text s.bytes)
  rw [← hbytes]
  exact triple_emitBuffered h hfits

/-- The offset is moved to the end of what was written. -/
theorem triple_update {r : Bool × PrintBuffer} (h : Outcome succeeds (Written pre s) r G)
    (hs : (0 : UInt8) ∉ s) :
    Triple G (update r.2) fun p G => Lost succeeds p G ∨ Filled (pre ++ s) p G := by
  rw [update]
  rcases h with ⟨-, hnone, hG, hno⟩ | ⟨-, b, hb, hG, ⟨rest, harea⟩, hlow, hhigh⟩
  · rw [hnone]
    exact triple_pure (.inl ⟨rfl, hG, hno⟩)
  rw [hb]
  obtain ⟨k, hk⟩ := Nat.exists_eq_add_of_le hlow
  rw [List.length_append] at hhigh
  -- what is left of the text behind the offset
  have hdrop : r.2.area.drop r.2.offset = s.drop k ++ 0 :: rest := by
    rw [← harea, hk, List.append_assoc, List.append_assoc, List.drop_length_add_append,
      List.drop_append_of_le_length (by omega)]
    rfl
  have hzero : (0 : UInt8) ∉ s.drop k := fun h0 => hs (List.mem_of_mem_drop h0)
  simp only [hdrop, strlen_append hzero]
  refine (triple_compute (Q := fun n G' => n = (s.drop k).length ∧ G' = G) ⟨rfl, rfl⟩).bind ?_
  rintro _ _ ⟨rfl, rfl⟩
  refine triple_pure (.inr ⟨b, rfl, hG, ?_, ?_⟩)
  · exact ⟨[0] ++ rest, by rw [← List.append_assoc]; exact harea⟩
  · simp only [List.length_append, List.length_drop]
    omega

theorem triple_ifOk {Q R : PrintBuffer → Multiset ℕ → Prop}
    {f : PrintBuffer → Prog (Bool × PrintBuffer)}
    (hf : ∀ p G, Q p G → Triple G (f p) (Outcome succeeds R)) (r : Bool × PrintBuffer)
    (G : Multiset ℕ) (hr : Outcome succeeds Q r G) :
    Triple G (ifOk f r) (Outcome succeeds R) := by
  obtain ⟨ok, p⟩ := r
  rcases hr with ⟨hok, hlost⟩ | ⟨hok, hQ⟩
  · have hok : ok = false := hok
    subst hok
    exact triple_pure (.inl ⟨rfl, hlost⟩)
  · have hok : ok = true := hok
    subst hok
    exact hf p G hQ

end Buffer

section Printer

variable {D : Type} {succeeds : ℕ → Bool} {junk : ℕ → ℕ → UInt8} {a : Doubles D} {fmt : Bool}

/-- An item is printed behind what the buffer holds. -/
def AppendsItem (succeeds : ℕ → Bool) (junk : ℕ → ℕ → UInt8) (a : Doubles D) (fmt : Bool)
    (item : Item D) : Prop :=
  ∀ v, item.value Prod.mk = some v → Printable a v → ∀ depth p pre G,
    Lost succeeds p G ∨ Filled pre p G →
    Triple G (printValueBuffered succeeds junk a fmt depth item p)
      (Outcome succeeds (Written pre (render a fmt depth v)))

theorem triple_printEntriesBuffered {child : List (Item D)}
    (h : ∀ c ∈ child, AppendsItem succeeds junk a fmt c) {vs : List (Value (ℤ × D))}
    (hvs : List.Forall₂ (fun c v => c.value Prod.mk = some v) child vs)
    (hp : ∀ v ∈ vs, Printable a v) (depth : ℕ) (p : PrintBuffer) (pre : List UInt8)
    (G : Multiset ℕ) (hpre : Lost succeeds p G ∨ Filled pre p G) :
    Triple G (printEntriesBuffered succeeds junk a fmt depth child p) (Outcome succeeds fun p G =>
      Lost succeeds p G ∨ Filled (pre ++ renderElements a fmt depth vs) p G) := by
  induction hvs generalizing p pre G with
  | nil =>
      rw [renderElements, List.append_nil]
      exact triple_pure (.inr ⟨rfl, hpre⟩)
  | @cons c v next vs hv hvs ih =>
      have hvp := hp v List.mem_cons_self
      have ih := ih (fun c hc => h c (List.mem_cons_of_mem _ hc))
        (fun v hv => hp v (List.mem_cons_of_mem _ hv))
      rw [printEntriesBuffered, renderElements]
      refine (h c List.mem_cons_self v hv hvp depth p pre G hpre).bind ?_
      intro r G hr
      refine (triple_update hr (zero_not_mem_render hvp depth)).bind ?_
      intro p G hfilled
      cases hvs with
      | nil =>
          rw [renderElements]
          simp only [List.isEmpty_nil, if_true, List.append_nil]
          exact triple_pure (.inr ⟨rfl, hfilled⟩)
      | cons hv' hvs =>
          simp only [List.isEmpty_cons, Bool.false_eq_true, if_false]
          refine (triple_put_string hfilled (44 :: pad fmt [32])).bind (triple_ifOk ?_)
          intro p G hfilled
          have hrest := ih p _ G (.inr hfilled)
          simp only [List.append_assoc] at hrest ⊢
          exact hrest

theorem triple_printMembersBuffered {child : List (Item D)}
    (h : ∀ c ∈ child, AppendsItem succeeds junk a fmt c) {ms : List (List UInt8 × Value (ℤ × D))}
    (hms : List.Forall₂ (IsMember Prod.mk) child ms) (hnames : ∀ m ∈ ms, (0 : UInt8) ∉ m.1)
    (hp : ∀ m ∈ ms, Printable a m.2) (depth : ℕ) (p : PrintBuffer) (pre : List UInt8)
    (G : Multiset ℕ) (hpre : Lost succeeds p G ∨ Filled pre p G) :
    Triple G (printMembersBuffered succeeds junk a fmt depth child p) (Outcome succeeds fun p G =>
      Lost succeeds p G ∨ Filled (pre ++ renderMembers a fmt depth ms) p G) := by
  induction hms generalizing p pre G with
  | nil =>
      rw [renderMembers, List.append_nil]
      exact triple_pure (.inr ⟨rfl, hpre⟩)
  | @cons c m next ms hm hms ih =>
      obtain ⟨name, v⟩ := m
      obtain ⟨hname, hv⟩ := hm
      obtain ⟨str, hstr, htext⟩ := Option.map_eq_some_iff.mp hname
      have htext : text str.bytes = name := htext
      have hvp := hp (name, v) List.mem_cons_self
      have hzero := hnames (name, v) List.mem_cons_self
      have ih := ih (fun c hc => h c (List.mem_cons_of_mem _ hc))
        (fun m hm => hnames m (List.mem_cons_of_mem _ hm))
        (fun m hm => hp m (List.mem_cons_of_mem _ hm))
      rw [printMembersBuffered, renderMembers]
      -- the tabs
      have htabs : Triple G
          (if fmt then put succeeds junk depth (tabs depth) depth p else return (true, p))
          (Outcome succeeds fun p G =>
            Lost succeeds p G ∨ Filled (pre ++ pad fmt (tabs depth)) p G) := by
        cases fmt with
        | false =>
            have hnone : pre ++ pad false (tabs depth) = pre := List.append_nil pre
            rw [hnone]
            exact triple_pure (.inr ⟨rfl, hpre⟩)
        | true =>
            have hlen : (tabs depth).length = depth := List.length_replicate
            have hput : Triple G (put succeeds junk depth (tabs depth) depth p)
                (Outcome succeeds (Filled (pre ++ tabs depth))) := by
              have hbytes : Triple G (put succeeds junk (tabs depth).length (tabs depth)
                (tabs depth).length p) _ := triple_put_bytes hpre (tabs depth)
              rwa [hlen] at hbytes
            exact hput.mono fun r G hr => hr.imp fun p hfilled => .inr hfilled
      refine htabs.bind (triple_ifOk ?_)
      intro p G hfilled
      -- the name
      rw [hstr]
      refine (triple_printStringBuffered hfilled str).bind ?_
      intro r G hr
      rw [htext] at hr
      refine (triple_update hr (zero_not_mem_printString hzero)).bind ?_
      intro p G hfilled
      refine (triple_put_bytes hfilled (58 :: pad fmt [9])).bind (triple_ifOk ?_)
      intro p G hfilled
      -- the value
      refine (h c List.mem_cons_self v hv hvp depth p _ G (.inr hfilled)).bind ?_
      intro r G hr
      refine (triple_update hr (zero_not_mem_render hvp depth)).bind ?_
      intro p G hfilled
      refine (triple_put_string hfilled _).bind (triple_ifOk ?_)
      intro p G hfilled
      have hrest := ih p _ G (.inr hfilled)
      have hempty : next.isEmpty = ms.isEmpty := forall₂_nil_iff hms
      simp only [hempty, List.append_assoc, List.cons_append] at hrest ⊢
      exact hrest

theorem appendsItem_array {node : Node D} {child : List (Item D)}
    (h : ∀ c ∈ child, AppendsItem succeeds junk a fmt c) (hkind : node.kind = .array) :
    AppendsItem succeeds junk a fmt (.mk node child) := by
  intro v hv hp depth p pre G hpre
  rw [Item.value, hkind] at hv
  obtain ⟨vs, hvs, rfl⟩ := Option.map_eq_some_iff.mp hv
  have hall := elementValues_eq_some.mp hvs
  cases hp with
  | array hp =>
      rw [printValueBuffered, hkind, render]
      cases child with
      | nil =>
          cases hall
          rw [renderElements]
          exact triple_emitBuffered hpre emptyArrayOutput_fits
      | cons c next =>
          simp only [List.isEmpty_cons, Bool.false_eq_true, if_false]
          refine Triple.bind ((triple_put_bytes hpre [91]).bind (triple_ifOk fun p G hfilled =>
            triple_printEntriesBuffered h hall hp (depth + 1) p _ G (.inr hfilled)))
            (triple_ifOk ?_)
          intro p G hfilled
          have hend : Triple G (put succeeds junk 2 ([93] ++ [0]) 0 p) _ :=
            triple_put_written hfilled (by decide)
          refine hend.mono ?_
          intro r G hr
          refine hr.imp ?_
          intro p hwritten
          rw [List.append_assoc] at hwritten
          exact hwritten.append

theorem appendsItem_object {node : Node D} {child : List (Item D)}
    (h : ∀ c ∈ child, AppendsItem succeeds junk a fmt c) (hkind : node.kind = .object) :
    AppendsItem succeeds junk a fmt (.mk node child) := by
  intro v hv hp depth p pre G hpre
  rw [Item.value, hkind] at hv
  obtain ⟨ms, hms, rfl⟩ := Option.map_eq_some_iff.mp hv
  have hall := memberValues_eq_some.mp hms
  cases hp with
  | object hnames hp =>
      rw [printValueBuffered, hkind]
      cases child with
      | nil =>
          cases hall
          rw [render]
          exact triple_emitBuffered hpre (emptyObjectOutput_fits fmt depth)
      | cons c next =>
          have hlen : (pad fmt (tabs depth) ++ [125]).length < if fmt then depth + 2 else 2 := by
            rw [List.length_append, length_pad_le, tabs, List.length_replicate]
            cases fmt
            · exact Nat.one_lt_two
            · exact Nat.lt_succ_self _
          simp only [List.isEmpty_cons, Bool.false_eq_true, if_false]
          refine Triple.bind ((triple_put_string hpre (123 :: pad fmt [10])).bind
            (triple_ifOk fun p G hfilled => triple_printMembersBuffered h hall hnames hp (depth + 1)
              p _ G (.inr hfilled))) (triple_ifOk ?_)
          intro p G hfilled
          have hend : Triple G (put succeeds junk (if fmt then depth + 2 else 2)
              (pad fmt (tabs depth) ++ [125] ++ [0]) 0 p) _ := triple_put_written hfilled hlen
          rw [List.append_assoc (pad fmt (tabs depth))] at hend
          refine hend.mono ?_
          intro r G hr
          refine hr.imp ?_
          intro p hwritten
          rw [List.append_assoc pre] at hwritten
          have hwhole := hwritten.append
          cases hall with
          | cons hm hrest =>
              rw [render]
              simp only [List.append_assoc, List.cons_append] at hwhole ⊢
              exact hwhole

/-- The printer with a buffer appends the text of the value. -/
theorem appendsItem (succeeds : ℕ → Bool) (junk : ℕ → ℕ → UInt8) (a : Doubles D) (fmt : Bool)
    (item : Item D) : AppendsItem succeeds junk a fmt item := by
  induction item using Item.induction with
  | mk node child ih =>
      cases hkind : node.kind with
      | array => exact appendsItem_array ih hkind
      | object => exact appendsItem_object ih hkind
      | null =>
          intro v hv hp depth p pre G hpre
          rw [Item.value, hkind] at hv
          cases hv
          rw [printValueBuffered, hkind, render]
          exact triple_emitBuffered hpre (literalOutput_fits "null")
      | false =>
          intro v hv hp depth p pre G hpre
          rw [Item.value, hkind] at hv
          cases hv
          rw [printValueBuffered, hkind, render]
          exact triple_emitBuffered hpre (literalOutput_fits "false")
      | true =>
          intro v hv hp depth p pre G hpre
          rw [Item.value, hkind] at hv
          cases hv
          rw [printValueBuffered, hkind, render]
          exact triple_emitBuffered hpre (literalOutput_fits "true")
      | number =>
          intro v hv hp depth p pre G hpre
          rw [Item.value, hkind] at hv
          cases hv
          cases hp with
          | number hn =>
              rw [printValueBuffered, hkind, render]
              exact triple_emitBuffered hpre
                (o := numberOutput a (node.valueint, node.valuedouble)) hn.2
      | string =>
          intro v hv hp depth p pre G hpre
          rw [Item.value, hkind] at hv
          obtain ⟨s, hs, rfl⟩ := Option.map_eq_some_iff.mp hv
          rw [printValueBuffered, hkind, render, hs]
          exact triple_printStringBuffered hpre s

theorem triple_cJSONPrintBuffered (succeeds : ℕ → Bool) (junk : ℕ → ℕ → UInt8) {item : Item D}
    {v : Value (ℤ × D)} (hv : item.value Prod.mk = some v) (hp : Printable a v) (prebuffer : ℕ) :
    Triple 0 (cJSONPrintBuffered succeeds junk a fmt item prebuffer)
      (PrintedAs succeeds (render a fmt 0 v)) := by
  rw [cJSONPrintBuffered]
  refine (triple_malloc succeeds).bind ?_
  intro buffer G hbuffer
  have hstart : ∀ area, Lost succeeds ⟨buffer, area, 0⟩ G ∨ Filled [] ⟨buffer, area, 0⟩ G := by
    intro area
    cases buffer with
    | none => exact .inl ⟨rfl, hbuffer.1, hbuffer.2⟩
    | some b => exact .inr ⟨b, rfl, hbuffer, List.nil_prefix, rfl⟩
  refine (appendsItem succeeds junk a fmt item v hv hp 0 _ [] G (hstart _)).bind ?_
  rintro ⟨ok, ⟨buffer, area, offset⟩⟩ G'
    (⟨hok, hnone, rfl, hno⟩ | ⟨hok, b, hb, rfl, ⟨rest, harea⟩, -⟩)
  · have hok : ok = false := hok
    subst hok
    exact triple_pure ⟨rfl, hno⟩
  · have hok : ok = true := hok
    have hb : buffer = some b := hb
    have harea : [] ++ render a fmt 0 v ++ [0] ++ rest = area := harea
    have hcstr : cstr area = some (render a fmt 0 v) := by
      rw [← harea, List.nil_append, List.append_assoc]
      exact cstr_append (zero_not_mem_render hp 0) rest
    subst hok hb
    simp only [hcstr]
    refine (triple_compute (Q := fun s G => s = render a fmt 0 v ∧ G = {b}) ⟨rfl, rfl⟩).bind ?_
    rintro _ _ ⟨rfl, rfl⟩
    exact triple_pure ⟨rfl, rfl⟩

/-- With whatever buffer it starts and whatever stands in new blocks, `cJSON_PrintBuffered` writes
the text that `cJSON_Print` or `cJSON_PrintUnformatted` writes, keeps within its blocks, and leaves
only the block it returns. -/
theorem cJSONPrintBuffered_eq (succeeds : ℕ → Bool) (junk : ℕ → ℕ → UInt8) (a : Doubles D)
    (fmt : Bool) {item : Item D} {v : Value (ℤ × D)} (hv : item.value Prod.mk = some v)
    (hfinite : v.AllNumbers fun n => Prints a n.2) (prebuffer : ℕ) (h : Heap) :
    ∃ r h', cJSONPrintBuffered succeeds junk a fmt item prebuffer h = some (r, h') ∧
      match r with
      | none => (¬ ∀ n, succeeds n = true) ∧ h'.live = h.live
      | some s => s.bytes = render a fmt 0 v ∧ h'.live = {s.block} + h.live := by
  have hp := printable_of_prints hv hfinite
  obtain ⟨r, h', G, hrun, hlive, rfl, hr⟩ :=
    (triple_cJSONPrintBuffered succeeds junk hv hp prebuffer).run h
  refine ⟨r, h', hrun, ?_⟩
  cases r with
  | none => exact ⟨hr, hlive.trans (zero_add _)⟩
  | some s => exact ⟨hr, hlive⟩

end Printer

/-- The buffer has no byte to start with. -/
theorem cJSONPrintBuffered_eq_numberAndQuote :
    ∃ r h', cJSONPrintBuffered (· != 4) (fun _ _ => 255) integers false numberAndQuote 0 ⟨0, {7}⟩ =
        some (r, h') ∧
      match r with
      | none => (¬ ∀ n, (n != 4) = true) ∧ h'.live = {7}
      | some s => s.bytes = render integers false 0 (.array [.number (1, 1), .string [34]]) ∧
          h'.live = {s.block} + {7} :=
  cJSONPrintBuffered_eq (· != 4) (fun _ _ => 255) integers false rfl prints_numberAndQuote 0
    ⟨0, {7}⟩

end ServerKit.CJson
