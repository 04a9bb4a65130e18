import ServerKit.CJson.Item

/-! # The value of an item

What the tree under an item says, whatever blocks it is made of. -/

namespace ServerKit.CJson

open ServerKit.CString ServerKit.Json

variable {D N : Type} (num : ℤ → D → N)

mutual

/-- The value, with `num` for the two fields of a number. A string without bytes and a member
without a name have none. -/
def Item.value : Item D → Option (Value N)
  | .mk node child =>
    match node.kind with
    | .null => some .null
    | .false => some (.bool false)
    | .true => some (.bool true)
    | .number => some (.number (num node.valueint node.valuedouble))
    | .string => node.valuestring.map fun s => .string (text s.bytes)
    | .array => (elementValues child).map .array
    | .object => (memberValues child).map .object

def elementValues : List (Item D) → Option (List (Value N))
  | [] => some []
  | c :: next => c.value.bind fun v => (elementValues next).map (v :: ·)

def memberValues : List (Item D) → Option (List (List UInt8 × Value N))
  | [] => some []
  | c :: next => c.node.string.bind fun s => c.value.bind fun v =>
      (memberValues next).map ((text s.bytes, v) :: ·)

end

variable {num}

theorem exists_of_forall₂ {α β : Type} {R : α → β → Prop} {l : List α} {m : List β}
    (h : List.Forall₂ R l m) {y : β} (hy : y ∈ m) : ∃ x ∈ l, R x y := by
  induction h with
  | nil => cases hy
  | @cons x y' l m hR _ ih =>
      rcases List.mem_cons.mp hy with rfl | hy
      · exact ⟨x, List.mem_cons_self, hR⟩
      · obtain ⟨x', hx', hR'⟩ := ih hy
        exact ⟨x', List.mem_cons_of_mem _ hx', hR'⟩

/-- The values of a list are those of its items. -/
theorem elementValues_eq_some {child : List (Item D)} {vs : List (Value N)} :
    elementValues num child = some vs ↔
      List.Forall₂ (fun c v => c.value num = some v) child vs := by
  induction child generalizing vs with
  | nil => simp [elementValues, eq_comm]
  | cons c next ih =>
      rw [elementValues, Option.bind_eq_some_iff]
      simp only [Option.map_eq_some_iff, List.forall₂_cons_left_iff, ih]
      constructor
      · rintro ⟨v, hv, rest, hrest, rfl⟩
        exact ⟨v, rest, hv, hrest, rfl⟩
      · rintro ⟨v, rest, hv, hrest, rfl⟩
        exact ⟨v, hv, rest, hrest, rfl⟩

/-- The item has this name and this value. -/
def IsMember (num : ℤ → D → N) (c : Item D) (m : List UInt8 × Value N) : Prop :=
  c.node.string.map (fun s => text s.bytes) = some m.1 ∧ c.value num = some m.2

theorem memberValues_eq_some {child : List (Item D)} {ms : List (List UInt8 × Value N)} :
    memberValues num child = some ms ↔ List.Forall₂ (IsMember num) child ms := by
  induction child generalizing ms with
  | nil => simp [memberValues, eq_comm]
  | cons c next ih =>
      rw [memberValues, Option.bind_eq_some_iff]
      simp only [Option.bind_eq_some_iff, Option.map_eq_some_iff, List.forall₂_cons_left_iff, ih,
        IsMember]
      constructor
      · rintro ⟨s, hs, v, hv, rest, hrest, rfl⟩
        exact ⟨_, rest, ⟨⟨s, hs, rfl⟩, hv⟩, hrest, rfl⟩
      · rintro ⟨m, rest, ⟨⟨s, hs, hname⟩, hv⟩, hrest, rfl⟩
        exact ⟨s, hs, m.2, hv, rest, hrest, by rw [hname]⟩

/-- A list of items all of which have a value. -/
theorem exists_elementValues {child : List (Item D)} (h : ∀ c ∈ child, (c.value num).isSome) :
    (elementValues num child).isSome := by
  induction child with
  | nil => rfl
  | cons c next ih =>
      obtain ⟨v, hv⟩ := Option.isSome_iff_exists.mp (h c List.mem_cons_self)
      rw [elementValues, hv, Option.bind_some, Option.isSome_map]
      exact ih fun c hc => h c (List.mem_cons_of_mem _ hc)

theorem exists_memberValues {child : List (Item D)}
    (h : ∀ c ∈ child, c.node.string.isSome ∧ (c.value num).isSome) :
    (memberValues num child).isSome := by
  induction child with
  | nil => rfl
  | cons c next ih =>
      obtain ⟨hname, hvalue⟩ := h c List.mem_cons_self
      obtain ⟨s, hs⟩ := Option.isSome_iff_exists.mp hname
      obtain ⟨v, hv⟩ := Option.isSome_iff_exists.mp hvalue
      rw [memberValues, hs, Option.bind_some, hv, Option.bind_some, Option.isSome_map]
      exact ih fun c hc => h c (List.mem_cons_of_mem _ hc)

/-- The strings of a value are C strings. -/
theorem value_all {item : Item D} {v : Value N} (hv : item.value num = some v) {p : N → Prop}
    (h : v.AllNumbers p) : v.All (fun s => (0 : UInt8) ∉ s) p := by
  induction item using Item.induction generalizing v with
  | mk node child ih =>
      rw [Item.value] at hv
      cases hkind : node.kind with
      | null =>
          rw [hkind] at hv
          cases hv
          exact .null
      | false =>
          rw [hkind] at hv
          cases hv
          exact .bool _
      | true =>
          rw [hkind] at hv
          cases hv
          exact .bool _
      | number =>
          rw [hkind] at hv
          cases hv
          cases h with
          | number hn => exact .number hn
      | string =>
          rw [hkind] at hv
          obtain ⟨s, -, rfl⟩ := Option.map_eq_some_iff.mp hv
          exact .string (zero_not_mem_text s.bytes)
      | array =>
          rw [hkind] at hv
          obtain ⟨vs, hvs, rfl⟩ := Option.map_eq_some_iff.mp hv
          cases h with
          | array h =>
              refine .array ?_
              intro v hmem
              obtain ⟨c, hc, hcv⟩ := exists_of_forall₂ (elementValues_eq_some.mp hvs) hmem
              exact ih c hc hcv (h v hmem)
      | object =>
          rw [hkind] at hv
          obtain ⟨ms, hms, rfl⟩ := Option.map_eq_some_iff.mp hv
          cases h with
          | object _ h =>
              have hall := memberValues_eq_some.mp hms
              refine .object ?_ ?_
              · intro m hmem
                obtain ⟨c, -, hname, -⟩ := exists_of_forall₂ hall hmem
                obtain ⟨s, -, hs⟩ := Option.map_eq_some_iff.mp hname
                rw [← hs]
                exact zero_not_mem_text s.bytes
              · intro m hmem
                obtain ⟨c, hc, -, hcv⟩ := exists_of_forall₂ hall hmem
                exact ih c hc hcv (h m hmem)

end ServerKit.CJson
