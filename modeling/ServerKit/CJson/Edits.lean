import ServerKit.CJson.Chain

/-! # Editing the lists of children

A sequence of calls adds, moves, replaces and deletes items. What the calls return, and the lists
after them, are those of the same edits of plain lists. -/

namespace ServerKit.CJson

open ServerKit.Forest

variable {α : Type}

/-- The calls. Where a name is copied, the flag says that there was memory for it. -/
inductive Edit (α : Type)
  | getArrayItem (array : α) (item : ℤ)
  | getObjectItem (object : α) (string : List UInt8)
  | addItemToArray (array item : α)
  | addItemToObject (object : α) (string : List UInt8) (item : α) (copied : Bool)
  | addItemToObjectCS (object : α) (string : List UInt8) (item : α)
  | insertItemInArray (array : α) (which : ℤ) (newitem : α)
  | detachItemFromArray (array : α) (which : ℤ)
  | deleteItemFromArray (array : α) (which : ℤ)
  | detachItemFromObject (object : α) (string : List UInt8)
  | deleteItemFromObject (object : α) (string : List UInt8)
  | replaceItemInArray (array : α) (which : ℤ) (newitem : α)
  | replaceItemInObject (object : α) (string : List UInt8) (newitem : α) (copied : Bool)

section Calls

variable [DecidableEq α]

/-- One call, with the item that it returns or hands to `cJSON_Delete`. -/
def Edit.call (fuel : ℕ) (s : Store α) : Edit α → Option (Option α × Store α)
  | getArrayItem array item => some (cJSONGetArrayItem s array item, s)
  | getObjectItem object string => (cJSONGetObjectItem s fuel object string).map (·, s)
  | addItemToArray array item => (cJSONAddItemToArray s fuel array item).map (none, ·)
  | addItemToObject object string item copied =>
    (cJSONAddItemToObject s fuel object string item copied).map (none, ·)
  | addItemToObjectCS object string item =>
    (cJSONAddItemToObjectCS s fuel object string item).map (none, ·)
  | insertItemInArray array which newitem =>
    (cJSONInsertItemInArray s fuel array which newitem).map (none, ·)
  | detachItemFromArray array which => some (cJSONDetachItemFromArray s array which)
  | deleteItemFromArray array which => some (cJSONDetachItemFromArray s array which)
  | detachItemFromObject object string => cJSONDetachItemFromObject s fuel object string
  | deleteItemFromObject object string => cJSONDetachItemFromObject s fuel object string
  | replaceItemInArray array which newitem => cJSONReplaceItemInArray s array which newitem
  | replaceItemInObject object string newitem copied =>
    cJSONReplaceItemInObject s fuel object string newitem copied

def calls (fuel : ℕ) : Store α → List (Edit α) → Option (List (Option α) × Store α)
  | s, [] => some ([], s)
  | s, e :: es =>
    (e.call fuel s).bind fun r => (calls fuel r.2 es).map fun rs => (r.1 :: rs.1, rs.2)

end Calls

/-! ## Edits of plain lists -/

/-- The children and names of all items, and the items that are not deleted. -/
structure Lists (α : Type) where
  kids : α → List α
  string : α → Option (List UInt8)
  live : Set α

namespace Lists

variable (t : Lists α)

/-- The item has the name, up to case. -/
def named (string : List UInt8) (x : α) : Bool := sameName (t.string x) string

/-- An item goes with everything below it. -/
def delete (c : Option α) : Lists α :=
  { t with live := t.live \ {y | ∃ x ∈ c, Under t.kids x y} }

variable [DecidableEq α]

def setKids (a : α) (xs : List α) : Lists α := { t with kids := Function.update t.kids a xs }

def setName (x : α) (string : List UInt8) (copied : Bool) : Lists α :=
  { t with string := Function.update t.string x (if copied then some string else none) }

end Lists

/-- What a call is for. -/
noncomputable def Edit.apply [DecidableEq α] (t : Lists α) : Edit α → Option α × Lists α
  | getArrayItem a i => ((t.kids a)[i.toNat]?, t)
  | getObjectItem a n => ((t.kids a).find? (t.named n), t)
  | addItemToArray a x => (none, t.setKids a (t.kids a ++ [x]))
  | addItemToObject a n x copied => (none, (t.setName x n copied).setKids a (t.kids a ++ [x]))
  | addItemToObjectCS a n x => (none, (t.setName x n true).setKids a (t.kids a ++ [x]))
  | insertItemInArray a i x =>
    (none, t.setKids a ((t.kids a).take i.toNat ++ x :: (t.kids a).drop i.toNat))
  | detachItemFromArray a i => ((t.kids a)[i.toNat]?, t.setKids a ((t.kids a).eraseIdx i.toNat))
  | deleteItemFromArray a i =>
    ((t.kids a)[i.toNat]?,
      (t.setKids a ((t.kids a).eraseIdx i.toNat)).delete (t.kids a)[i.toNat]?)
  | detachItemFromObject a n =>
    ((t.kids a).find? (t.named n), t.setKids a ((t.kids a).eraseP (t.named n)))
  | deleteItemFromObject a n =>
    ((t.kids a).find? (t.named n),
      (t.setKids a ((t.kids a).eraseP (t.named n))).delete ((t.kids a).find? (t.named n)))
  | replaceItemInArray a i x =>
    ((t.kids a)[i.toNat]?, (t.setKids a ((t.kids a).set i.toNat x)).delete (t.kids a)[i.toNat]?)
  | replaceItemInObject a n x copied =>
    match (t.kids a).findIdx? (t.named n) with
    | none => (none, t)
    | some i =>
      ((t.kids a)[i]?,
        ((t.setName x n copied).setKids a ((t.kids a).set i x)).delete (t.kids a)[i]?)

/-- The item whose children are looked at. -/
def Edit.target : Edit α → α
  | getArrayItem a _ | getObjectItem a _ | addItemToArray a _ | addItemToObject a _ _ _
  | addItemToObjectCS a _ _ | insertItemInArray a _ _ | detachItemFromArray a _
  | deleteItemFromArray a _ | detachItemFromObject a _ | deleteItemFromObject a _
  | replaceItemInArray a _ _ | replaceItemInObject a _ _ _ => a

/-- The item that becomes a child. -/
def Edit.item : Edit α → Option α
  | addItemToArray _ x | addItemToObject _ _ x _ | addItemToObjectCS _ _ x
  | insertItemInArray _ _ x | replaceItemInArray _ _ x | replaceItemInObject _ _ x _ => some x
  | _ => none

/-- No deleted item is used, and what becomes a child is nobody's and not above its parent. -/
def Edit.Allowed (t : Lists α) (e : Edit α) : Prop :=
  e.target ∈ t.live ∧
    ∀ x ∈ e.item, x ∈ t.live ∧ Loose t.kids x ∧ ¬ Under t.kids x e.target

/-! ## What is deleted is out of reach -/

namespace Lists

/-- The children of an item that is not deleted are not deleted. -/
def Closed (t : Lists α) : Prop := ∀ a ∈ t.live, ∀ x ∈ t.kids a, x ∈ t.live

variable {t : Lists α}

theorem Closed.delete (h : t.Closed) (hforest : IsForest t.kids) {c : Option α}
    (hloose : ∀ x ∈ c, Loose t.kids x) : (t.delete c).Closed := by
  rintro b ⟨hb, hbc⟩ y hy
  refine ⟨h b hb y hy, ?_⟩
  rintro ⟨x, hx, hxy⟩
  rcases Relation.ReflTransGen.cases_tail hxy with rfl | ⟨z, hxz, hyz⟩
  · exact hloose _ hx b hy
  · exact hbc ⟨x, hx, hforest.once z b y hyz hy ▸ hxz⟩

end Lists

theorem not_mem_eraseIdx {xs : List α} {i : ℕ} {c : α} (h : xs.Nodup) (hc : xs[i]? = some c) :
    c ∉ xs.eraseIdx i := by
  rw [split_at hc] at h
  rw [List.eraseIdx_eq_take_drop_succ]
  exact (List.nodup_cons.mp (List.nodup_middle.mp h)).1

theorem not_mem_set {xs : List α} {i : ℕ} {c x : α} (h : xs.Nodup) (hc : xs[i]? = some c)
    (hx : c ≠ x) : c ∉ xs.set i x := by
  rw [List.set_eq_take_append_cons_drop, if_pos (List.getElem?_eq_some_iff.mp hc).1,
    List.mem_append, List.mem_cons, not_or, not_or]
  rw [split_at hc] at h
  obtain ⟨hxs, hys⟩ := not_or.mp (mt List.mem_append.mpr
    (List.nodup_cons.mp (List.nodup_middle.mp h)).1)
  exact ⟨hxs, hx, hys⟩

/-- The store holds the lists. -/
structure Represents (s : Store α) (t : Lists α) : Prop where
  chains : Chains s t.kids
  string : s.string = t.string
  closed : t.Closed

variable {s : Store α} {t : Lists α}

theorem Represents.delete (h : Represents s t) {c : Option α}
    (hloose : ∀ x ∈ c, Loose t.kids x) : Represents s (t.delete c) :=
  ⟨h.chains, h.string, h.closed.delete h.chains.forest hloose⟩

section Runs

variable [DecidableEq α]

noncomputable def applyAll : Lists α → List (Edit α) → List (Option α) × Lists α
  | t, [] => ([], t)
  | t, e :: es => ((e.apply t).1 :: (applyAll (e.apply t).2 es).1, (applyAll (e.apply t).2 es).2)

def AllowedAll : Lists α → List (Edit α) → Prop
  | _, [] => True
  | t, e :: es => e.Allowed t ∧ AllowedAll (e.apply t).2 es

theorem Lists.Closed.setKids (h : t.Closed) (a : α) {xs : List α}
    (hfrom : ∀ x ∈ xs, x ∈ t.kids a ∨ x ∈ t.live) : (t.setKids a xs).Closed := by
  intro b hb x hx
  rcases mem_update hx with ⟨rfl, hxs⟩ | ⟨-, hx⟩
  · exact (hfrom x hxs).elim (h b hb x) id
  · exact h b hb x hx

theorem Represents.setKids (h : Represents s t) (a : α) {xs : List α} {s' : Store α}
    (hfrom : ∀ y ∈ xs, y ∈ t.kids a ∨ y ∈ t.live) (hstring : s'.string = s.string)
    (hchains : Chains s' (Function.update t.kids a xs)) : Represents s' (t.setKids a xs) :=
  ⟨hchains, hstring.trans h.string, h.closed.setKids a hfrom⟩

theorem Represents.setName (h : Represents s t) (x : α) (string : List UInt8) (copied : Bool) :
    Represents (setString s x string copied) (t.setName x string copied) := by
  refine ⟨h.chains.setString x string copied, ?_, h.closed⟩
  rw [setString, h.string]
  rfl

/-- An item is taken out of a list. -/
theorem Represents.eraseIdx (h : Represents s t) (a : α) (i : ℕ) {s' : Store α}
    (hstring : s'.string = s.string)
    (hchains : Chains s' (Function.update t.kids a ((t.kids a).eraseIdx i))) :
    Represents s' (t.setKids a ((t.kids a).eraseIdx i)) ∧
      Represents s' ((t.setKids a ((t.kids a).eraseIdx i)).delete (t.kids a)[i]?) := by
  have hkids := h.setKids a (fun y hy => .inl (List.mem_of_mem_eraseIdx hy)) hstring hchains
  refine ⟨hkids, hkids.delete ?_⟩
  intro c hc
  exact h.chains.forest.loose_update (List.mem_of_getElem? hc)
    (not_mem_eraseIdx (h.chains.forest.nodup a) hc)

theorem Represents.eraseP (h : Represents s t) (a : α) (p : α → Bool) {s' : Store α}
    (hstring : s'.string = s.string)
    (hchains : Chains s' (Function.update t.kids a ((t.kids a).eraseP p))) :
    Represents s' (t.setKids a ((t.kids a).eraseP p)) ∧
      Represents s' ((t.setKids a ((t.kids a).eraseP p)).delete ((t.kids a).find? p)) := by
  have hkids := h.setKids a (fun y hy => .inl (List.mem_of_mem_eraseP hy)) hstring hchains
  refine ⟨hkids, ?_⟩
  revert hkids
  rw [List.eraseP_eq_eraseIdx] at hchains ⊢
  rw [List.find?_eq_bind_findIdx?_getElem?]
  cases hi : (t.kids a).findIdx? p with
  | none =>
      intro hkids
      exact hkids.delete fun _ hx => absurd hx (Option.not_mem_none _)
  | some i =>
      rw [hi] at hchains
      exact fun _ => (h.eraseIdx a i hstring hchains).2

/-- An item takes the place of another, which is deleted. -/
theorem Represents.set (h : Represents s t) (a : α) (i : ℕ) {x : α} (hx : x ∈ t.live)
    (hloose : Loose t.kids x) {s' : Store α} (hstring : s'.string = s.string)
    (hchains : Chains s' (Function.update t.kids a ((t.kids a).set i x))) :
    Represents s' ((t.setKids a ((t.kids a).set i x)).delete (t.kids a)[i]?) := by
  refine (h.setKids a ?_ hstring hchains).delete ?_
  · intro y hy
    rcases List.mem_or_eq_of_mem_set hy with hy | rfl
    · exact .inl hy
    · exact .inr hx
  · intro c hc
    have hca : c ∈ t.kids a := List.mem_of_getElem? hc
    refine h.chains.forest.loose_update hca (not_mem_set (h.chains.forest.nodup a) hc ?_)
    rintro rfl
    exact hloose a hca

theorem Represents.append (h : Represents s t) (a : α) {x : α} (hx : x ∈ t.live) {s' : Store α}
    (hstring : s'.string = s.string)
    (hchains : Chains s' (Function.update t.kids a (t.kids a ++ [x]))) :
    Represents s' (t.setKids a (t.kids a ++ [x])) := by
  refine h.setKids a ?_ hstring hchains
  intro y hy
  refine (List.mem_append.mp hy).imp_right fun hy => ?_
  rwa [List.mem_singleton.mp hy]

theorem Represents.insert (h : Represents s t) (a : α) (i : ℕ) {x : α} (hx : x ∈ t.live)
    {s' : Store α} (hstring : s'.string = s.string)
    (hchains : Chains s'
      (Function.update t.kids a ((t.kids a).take i ++ x :: (t.kids a).drop i))) :
    Represents s' (t.setKids a ((t.kids a).take i ++ x :: (t.kids a).drop i)) := by
  refine h.setKids a ?_ hstring hchains
  intro y hy
  rcases List.mem_append.mp hy with hy | hy
  · exact .inl (List.mem_of_mem_take hy)
  · rcases List.mem_cons.mp hy with rfl | hy
    · exact .inr hx
    · exact .inl (List.mem_of_mem_drop hy)

theorem Represents.call (h : Represents s t) {e : Edit α} (he : e.Allowed t) {fuel : ℕ}
    (hfuel : (t.kids e.target).length < fuel) :
    ∃ s', e.call fuel s = some ((e.apply t).1, s') ∧ Represents s' (e.apply t).2 := by
  obtain ⟨-, hitem⟩ := he
  have hnamed : ∀ n, t.named n = fun x => sameName (s.string x) n := by
    intro n
    rw [h.string]
    rfl
  cases e with
  | getArrayItem a i =>
      exact ⟨s, congrArg (fun r => some (r, s)) (h.chains.getArrayItem a i), h⟩
  | getObjectItem a n =>
      refine ⟨s, ?_, h⟩
      rw [Edit.call, h.chains.getObjectItem a n hfuel, Edit.apply, hnamed]
      rfl
  | addItemToArray a x =>
      obtain ⟨hx, hloose, hno⟩ := hitem x rfl
      obtain ⟨s', hs', hstring, hchains⟩ := h.chains.addItemToArray a hloose hno hfuel.le
      exact ⟨s', congrArg (Option.map (none, ·)) hs', h.append a hx hstring hchains⟩
  | addItemToObject a n x copied =>
      obtain ⟨hx, hloose, hno⟩ := hitem x rfl
      have h' := h.setName x n copied
      obtain ⟨s', hs', hstring, hchains⟩ := h'.chains.addItemToArray a hloose hno hfuel.le
      exact ⟨s', congrArg (Option.map (none, ·)) hs', h'.append a hx hstring hchains⟩
  | addItemToObjectCS a n x =>
      obtain ⟨hx, hloose, hno⟩ := hitem x rfl
      have h' := h.setName x n true
      obtain ⟨s', hs', hstring, hchains⟩ := h'.chains.addItemToArray a hloose hno hfuel.le
      exact ⟨s', congrArg (Option.map (none, ·)) hs', h'.append a hx hstring hchains⟩
  | insertItemInArray a i x =>
      obtain ⟨hx, hloose, hno⟩ := hitem x rfl
      obtain ⟨s', hs', hstring, hchains⟩ := h.chains.insertItemInArray a i hloose hno hfuel.le
      exact ⟨s', congrArg (Option.map (none, ·)) hs', h.insert a i.toNat hx hstring hchains⟩
  | detachItemFromArray a i =>
      obtain ⟨s', hs', hstring, hchains⟩ := h.chains.detachItemFromArray a i
      exact ⟨s', congrArg some hs', (h.eraseIdx a i.toNat hstring hchains).1⟩
  | deleteItemFromArray a i =>
      obtain ⟨s', hs', hstring, hchains⟩ := h.chains.detachItemFromArray a i
      exact ⟨s', congrArg some hs', (h.eraseIdx a i.toNat hstring hchains).2⟩
  | detachItemFromObject a n =>
      obtain ⟨s', hs', hstring, hchains⟩ := h.chains.detachItemFromObject a n hfuel
      rw [← hnamed] at hs' hchains
      exact ⟨s', hs', (h.eraseP a (t.named n) hstring hchains).1⟩
  | deleteItemFromObject a n =>
      obtain ⟨s', hs', hstring, hchains⟩ := h.chains.detachItemFromObject a n hfuel
      rw [← hnamed] at hs' hchains
      exact ⟨s', hs', (h.eraseP a (t.named n) hstring hchains).2⟩
  | replaceItemInArray a i x =>
      obtain ⟨hx, hloose, hno⟩ := hitem x rfl
      obtain ⟨s', hs', hstring, hchains⟩ := h.chains.replaceItemInArray a i hloose hno
      exact ⟨s', hs', h.set a i.toNat hx hloose hstring hchains⟩
  | replaceItemInObject a n x copied =>
      obtain ⟨hx, hloose, hno⟩ := hitem x rfl
      rw [Edit.call, cJSONReplaceItemInObject, h.chains.findNamed a n hfuel, Edit.apply, ← hnamed]
      cases (t.kids a).findIdx? (t.named n) with
      | none => exact ⟨s, rfl, h⟩
      | some i =>
          have h' := h.setName x n copied
          obtain ⟨s', hs', hstring, hchains⟩ := h'.chains.replaceItemInArray a i hloose hno
          exact ⟨s', hs', h'.set a i hx hloose hstring hchains⟩

theorem exists_calls (es : List (Edit α)) (t : Lists α) (hes : AllowedAll t es) :
    ∃ N, ∀ fuel ≥ N, ∀ s, Represents s t → ∃ s', calls fuel s es = some ((applyAll t es).1, s') ∧
      Represents s' (applyAll t es).2 := by
  induction es generalizing t with
  | nil => exact ⟨0, fun _ _ s h => ⟨s, rfl, h⟩⟩
  | cons e es ih =>
      obtain ⟨he, hrest⟩ := hes
      obtain ⟨N, hN⟩ := ih _ hrest
      refine ⟨max N ((t.kids e.target).length + 1), ?_⟩
      intro fuel hfuel s h
      obtain ⟨s₁, hcall, h₁⟩ := h.call he (lt_of_lt_of_le (Nat.lt_succ_self _)
        ((le_max_right _ _).trans hfuel))
      obtain ⟨s₂, hcalls, h₂⟩ := hN fuel ((le_max_left _ _).trans hfuel) s₁ h₁
      exact ⟨s₂, by rw [calls, hcall, Option.bind_some, hcalls]; rfl, h₂⟩

end Runs

/-! ## New items -/

/-- Items as they are made, without children and names. -/
def Store.new : Store α := ⟨⟨fun _ => none, fun _ => none⟩, fun _ => none, fun _ => none⟩

def Lists.new : Lists α := ⟨fun _ => [], fun _ => none, Set.univ⟩

theorem represents_new : Represents (Store.new : Store α) Lists.new := by
  refine ⟨⟨fun _ => rfl, fun _ => trivial, ?_, fun _ _ => ⟨rfl, rfl⟩⟩, rfl, fun _ _ _ _ => trivial⟩
  refine ⟨fun _ => List.nodup_nil, fun _ _ _ h => absurd h List.not_mem_nil, ?_⟩
  intro a h
  obtain ⟨b, hb, -⟩ := Relation.TransGen.head'_iff.mp h
  exact List.not_mem_nil hb

end ServerKit.CJson
