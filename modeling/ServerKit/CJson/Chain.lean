import ServerKit.Lib.Doubly
import ServerKit.Lib.Forest
import Mathlib

/-! # The lists of children

The items of an array or object are chained by `next` and `prev`. The functions that edit these
chains do to the lists of children what their names say, whatever was done before. -/

namespace ServerKit.CJson

open ServerKit.Doubly ServerKit.Forest

/-- The links of all items, with the names that they bear. -/
structure Store (α : Type) extends Links α where
  child : α → Option α
  string : α → Option (List UInt8)

/-! ## The functions -/

def tolower (b : UInt8) : ℕ := if 65 ≤ b ∧ b ≤ 90 then b.toNat + 32 else b.toNat

/-- `cJSON_strcasecmp` on two strings in front of their zero bytes. -/
def strcasecmp : List UInt8 → List UInt8 → ℤ
  | [], [] => 0
  | [], c :: _ => 0 - tolower c
  | b :: _, [] => tolower b
  | b :: s₁, c :: s₂ =>
    if tolower b = tolower c then strcasecmp s₁ s₂ else (tolower b : ℤ) - tolower c

/-- `!cJSON_strcasecmp(s1, s2)`, where `s1` may be `NULL`. -/
def sameName (s₁ : Option (List UInt8)) (s₂ : List UInt8) : Bool :=
  match s₁ with
  | none => false
  | some s₁ => strcasecmp s₁ s₂ == 0

section Functions

variable {α : Type} (s : Store α)

/-- `cJSON_GetArrayItem`. -/
def cJSONGetArrayItem (array : α) (item : ℤ) : Option α :=
  nth s.toLinks item.toNat (s.child array)

/-- `while (c && cJSON_strcasecmp(c->string,string)) i++,c=c->next;` -/
def findNamed (string : List UInt8) : ℕ → ℕ → Option α → Option (Option ℕ)
  | 0, _, _ => none
  | _ + 1, _, none => some none
  | fuel + 1, i, some c =>
    if sameName (s.string c) string then some (some i)
    else findNamed string fuel (i + 1) (s.next c)

/-- `while (c && cJSON_strcasecmp(c->string,string)) c=c->next;` -/
def getNamed (string : List UInt8) : ℕ → Option α → Option (Option α)
  | 0, _ => none
  | _ + 1, none => some none
  | fuel + 1, some c =>
    if sameName (s.string c) string then some (some c) else getNamed string fuel (s.next c)

/-- `cJSON_GetObjectItem`. -/
def cJSONGetObjectItem (fuel : ℕ) (object : α) (string : List UInt8) : Option (Option α) :=
  getNamed s string fuel (s.child object)

variable [DecidableEq α]

/-- `suffix_object`. -/
def suffixObject (l : Links α) (prev item : α) : Links α :=
  (l.setNext prev (some item)).setPrev item (some prev)

/-- `cJSON_AddItemToArray`. -/
def cJSONAddItemToArray (fuel : ℕ) (array item : α) : Option (Store α) :=
  match s.child array with
  | none => some { s with child := Function.update s.child array (some item) }
  | some c => (toLast s.toLinks fuel c).map fun c =>
      { s with toLinks := suffixObject s.toLinks c item }

/-- `cJSON_DetachItemFromArray`. -/
def cJSONDetachItemFromArray (array : α) (which : ℤ) : Option α × Store α :=
  match cJSONGetArrayItem s array which with
  | none => (none, s)
  | some c =>
    let l := s.toLinks.setNextOf (s.prev c) (s.next c)
    let l := l.setPrevOf (l.next c) (l.prev c)
    let child := if s.child array = some c then Function.update s.child array (l.next c)
      else s.child
    (some c, { s with toLinks := (l.setPrev c none).setNext c none, child := child })

/-- `if (c==array->child) array->child=newitem; else newitem->prev->next=newitem;` -/
def setFront (l : Links α) (array c newitem : α) : Option (Store α) :=
  if s.child array = some c then
    some { s with toLinks := l, child := Function.update s.child array (some newitem) }
  else (l.prev newitem).map fun q => { s with toLinks := l.setNext q (some newitem) }

/-- `cJSON_InsertItemInArray`. -/
def cJSONInsertItemInArray (fuel : ℕ) (array : α) (which : ℤ) (newitem : α) : Option (Store α) :=
  match cJSONGetArrayItem s array which with
  | none => cJSONAddItemToArray s fuel array newitem
  | some c =>
    let l := (s.toLinks.setNext newitem (some c)).setPrev newitem (s.prev c)
    setFront s (l.setPrev c (some newitem)) array c newitem

/-- `cJSON_ReplaceItemInArray`, with the item that it hands to `cJSON_Delete`. -/
def cJSONReplaceItemInArray (array : α) (which : ℤ) (newitem : α) :
    Option (Option α × Store α) :=
  match cJSONGetArrayItem s array which with
  | none => some (none, s)
  | some c =>
    let l := (s.toLinks.setNext newitem (s.next c)).setPrev newitem (s.prev c)
    (setFront s (l.setPrevOf (l.next newitem) (some newitem)) array c newitem).map fun s =>
      (some c, { s with toLinks := (s.toLinks.setNext c none).setPrev c none })

/-- `item->string=cJSON_strdup(string);` -/
def setString (item : α) (string : List UInt8) (copied : Bool) : Store α :=
  { s with string := Function.update s.string item (if copied then some string else none) }

/-- `cJSON_AddItemToObject`. -/
def cJSONAddItemToObject (fuel : ℕ) (object : α) (string : List UInt8) (item : α)
    (copied : Bool) : Option (Store α) :=
  cJSONAddItemToArray (setString s item string copied) fuel object item

/-- `cJSON_AddItemToObjectCS`, whose string is not copied and so never missing. -/
def cJSONAddItemToObjectCS (fuel : ℕ) (object : α) (string : List UInt8) (item : α) :
    Option (Store α) :=
  cJSONAddItemToArray (setString s item string true) fuel object item

/-- `cJSON_DetachItemFromObject`. -/
def cJSONDetachItemFromObject (fuel : ℕ) (object : α) (string : List UInt8) :
    Option (Option α × Store α) :=
  (findNamed s string fuel 0 (s.child object)).map fun i =>
    i.elim (none, s) fun i => cJSONDetachItemFromArray s object i

/-- `cJSON_ReplaceItemInObject`. -/
def cJSONReplaceItemInObject (fuel : ℕ) (object : α) (string : List UInt8) (newitem : α)
    (copied : Bool) : Option (Option α × Store α) :=
  (findNamed s string fuel 0 (s.child object)).bind fun i =>
    i.elim (some (none, s)) fun i =>
      cJSONReplaceItemInArray (setString s newitem string copied) object i newitem

end Functions

/-! ## The lists that they stand for -/

section Lists

variable {α : Type}

/-- The lists of the children of all items. An item that is in none has no links. -/
structure Chains (s : Store α) (kids : α → List α) : Prop where
  child : ∀ a, s.child a = (kids a).head?
  links : ∀ a, Segment s.toLinks none (kids a) none
  forest : IsForest kids
  loose : ∀ x, Loose kids x → s.next x = none ∧ s.prev x = none

variable {s : Store α} {kids : α → List α}

theorem Chains.getArrayItem (h : Chains s kids) (a : α) (which : ℤ) :
    cJSONGetArrayItem s a which = (kids a)[which.toNat]? := by
  rw [cJSONGetArrayItem, h.child, nth_segment (h.links a)]

theorem findNamed_segment {p : Option α} {xs : List α} (h : Segment s.toLinks p xs none)
    (string : List UInt8) {fuel : ℕ} (hfuel : xs.length < fuel) (i : ℕ) :
    findNamed s string fuel i xs.head? =
      some ((xs.findIdx? fun x => sameName (s.string x) string).map (· + i)) := by
  induction xs generalizing p fuel i with
  | nil =>
      obtain ⟨fuel, rfl⟩ := Nat.exists_eq_add_one_of_ne_zero (Nat.ne_zero_of_lt hfuel)
      rfl
  | cons x xs ih =>
      obtain ⟨fuel, rfl⟩ := Nat.exists_eq_add_one_of_ne_zero (Nat.ne_zero_of_lt hfuel)
      obtain ⟨-, hnext, hrest⟩ := h
      rw [Option.or_none] at hnext
      rw [List.head?_cons, findNamed, List.findIdx?_cons]
      split
      · rw [Option.map_some, Nat.zero_add]
      · rw [hnext, ih hrest (Nat.lt_of_succ_lt_succ hfuel), Option.map_map]
        have hadd : (fun j => j + (i + 1)) = (fun j => j + i) ∘ fun j => j + 1 := by
          funext j
          exact (Nat.add_right_comm j 1 i).symm
        rw [hadd]

theorem getNamed_segment {p : Option α} {xs : List α} (h : Segment s.toLinks p xs none)
    (string : List UInt8) {fuel : ℕ} (hfuel : xs.length < fuel) :
    getNamed s string fuel xs.head? = some (xs.find? fun x => sameName (s.string x) string) := by
  induction xs generalizing p fuel with
  | nil =>
      obtain ⟨fuel, rfl⟩ := Nat.exists_eq_add_one_of_ne_zero (Nat.ne_zero_of_lt hfuel)
      rfl
  | cons x xs ih =>
      obtain ⟨fuel, rfl⟩ := Nat.exists_eq_add_one_of_ne_zero (Nat.ne_zero_of_lt hfuel)
      obtain ⟨-, hnext, hrest⟩ := h
      rw [Option.or_none] at hnext
      rw [List.head?_cons, getNamed, List.find?_cons, hnext,
        ih hrest (Nat.lt_of_succ_lt_succ hfuel)]
      cases sameName (s.string x) string <;> rfl

theorem Chains.findNamed (h : Chains s kids) (a : α) (string : List UInt8) {fuel : ℕ}
    (hfuel : (kids a).length < fuel) :
    findNamed s string fuel 0 (s.child a) =
      some ((kids a).findIdx? fun x => sameName (s.string x) string) := by
  rw [h.child, findNamed_segment (h.links a) string hfuel 0]
  exact congrArg some Option.map_id'

theorem Chains.getObjectItem (h : Chains s kids) (a : α) (string : List UInt8) {fuel : ℕ}
    (hfuel : (kids a).length < fuel) :
    cJSONGetObjectItem s fuel a string =
      some ((kids a).find? fun x => sameName (s.string x) string) := by
  rw [cJSONGetObjectItem, h.child, getNamed_segment (h.links a) string hfuel]

theorem split_at {xs : List α} {i : ℕ} {c : α} (h : xs[i]? = some c) :
    xs = xs.take i ++ c :: xs.drop (i + 1) := by
  obtain ⟨hi, hc⟩ := List.getElem?_eq_some_iff.mp h
  rw [← hc, ← List.drop_eq_getElem_cons hi, List.take_append_drop]

/-- What stands around an item of a list. -/
theorem Chains.around (h : Chains s kids) {a c : α} {xs ys : List α}
    (hkids : kids a = xs ++ c :: ys) :
    s.prev c = xs.getLast? ∧ s.next c = ys.head? ∧ Segment s.toLinks none xs (some c) ∧
      Segment s.toLinks (some c) ys none := by
  have hlinks := h.links a
  rw [hkids] at hlinks
  obtain ⟨hprev, hnext⟩ := hlinks.around
  rw [segment_append] at hlinks
  exact ⟨hprev.trans (Option.or_none ..), hnext.trans (Option.or_none ..), hlinks.1, hlinks.2.2.2⟩

variable [DecidableEq α]

/-- One list is changed, and no links but those of the items that are or were in it. -/
theorem Chains.update (h : Chains s kids) (a : α) {l : Links α} {child : α → Option α}
    {xs : List α} (hchild : child = Function.update s.child a xs.head?)
    (hlinks : Segment l none xs none) (hnodup : xs.Nodup)
    (hfrom : ∀ x ∈ xs, x ∈ kids a ∨ Loose kids x ∧ ¬ Under kids x a)
    (hsame : ∀ x, x ∉ kids a → x ∉ xs → l.next x = s.next x ∧ l.prev x = s.prev x)
    (hout : ∀ x ∈ kids a, x ∉ xs → l.next x = none ∧ l.prev x = none) :
    Chains { s with toLinks := l, child := child } (Function.update kids a xs) := by
  refine ⟨?_, ?_, h.forest.update a hnodup hfrom, ?_⟩
  · intro b
    by_cases hb : b = a
    · subst hb
      rw [Function.update_self]
      exact (congrFun hchild b).trans (Function.update_self _ _ _)
    · rw [Function.update_of_ne hb, ← h.child b]
      exact (congrFun hchild b).trans (Function.update_of_ne hb _ _)
  · intro b
    by_cases hb : b = a
    · subst hb
      rw [Function.update_self]
      exact hlinks
    · rw [Function.update_of_ne hb]
      refine (h.links b).congr ?_
      intro x hx
      have hxa : x ∉ kids a := fun hxa => hb (h.forest.once b a x hx hxa)
      refine hsame x hxa fun hxs => ?_
      rcases hfrom x hxs with hxa' | hloose
      · exact hxa hxa'
      · exact hloose.1 b hx
  · intro x hx
    have hxs : x ∉ xs := by
      have ha := hx a
      rwa [Function.update_self] at ha
    by_cases hxa : x ∈ kids a
    · exact hout x hxa hxs
    · obtain ⟨hnext, hprev⟩ := hsame x hxa hxs
      have hloose : Loose kids x := by
        intro b
        by_cases hb : b = a
        · rwa [hb]
        · have hxb := hx b
          rwa [Function.update_of_ne hb] at hxb
      obtain ⟨hn, hp⟩ := h.loose x hloose
      exact ⟨hnext.trans hn, hprev.trans hp⟩

/-- An item without links is put behind the last one. -/
theorem suffixObject_eq_link {l : Links α} {x : α} (hx : l.next x = none) (xs : List α) (z : α) :
    suffixObject l z x = l.link (xs ++ [z]) x [] := by
  have hsame : l.setNext x none = l := by
    rw [Links.setNext, ← hx, Function.update_eq_self]
  rw [Links.link, List.getLast?_concat, List.head?_nil, hsame]
  rfl

/-- An item is added at the end of a list. -/
theorem Chains.addItemToArray (h : Chains s kids) (a : α) {x : α} (hx : Loose kids x)
    (hno : ¬ Under kids x a) {fuel : ℕ} (hfuel : (kids a).length ≤ fuel) :
    ∃ s', cJSONAddItemToArray s fuel a x = some s' ∧ s'.string = s.string ∧
      Chains s' (Function.update kids a (kids a ++ [x])) := by
  have hxa := hx a
  obtain ⟨hnext, hprev⟩ := h.loose x hx
  have hfrom : ∀ y ∈ kids a ++ [x], y ∈ kids a ∨ Loose kids y ∧ ¬ Under kids y a := by
    intro y hy
    rcases List.mem_append.mp hy with hy | hy
    · exact .inl hy
    · exact .inr (List.mem_singleton.mp hy ▸ ⟨hx, hno⟩)
  have hnodup : (kids a ++ [x]).Nodup := by
    rw [List.nodup_append]
    refine ⟨h.forest.nodup a, List.nodup_singleton x, ?_⟩
    rintro y hy _ hz rfl
    exact hxa (List.mem_singleton.mp hz ▸ hy)
  have hout : ∀ l : Links α, ∀ y ∈ kids a, y ∉ kids a ++ [x] → l.next y = none ∧ l.prev y = none :=
    fun _ y hy hno => absurd (List.mem_append_left _ hy) hno
  rw [cJSONAddItemToArray, h.child]
  rcases List.eq_nil_or_concat' (kids a) with hnil | ⟨xs, z, hkids⟩
  · rw [hnil]
    refine ⟨_, rfl, rfl, h.update a rfl ?_ ?_ ?_ ?_ ?_⟩
    · exact ⟨hprev, hnext, trivial⟩
    · exact List.nodup_singleton x
    · intro y hy
      rw [hnil] at hfrom
      exact (hfrom y hy).imp_left fun hno => absurd hno List.not_mem_nil
    · exact fun _ _ _ => ⟨rfl, rfl⟩
    · intro y hy
      rw [hnil] at hy
      cases hy
  · have hlinks := h.links a
    rw [hkids] at hlinks
    have hlen : xs.length < fuel := by
      rw [hkids, List.length_append] at hfuel
      exact Nat.lt_of_succ_le hfuel
    obtain ⟨c, hhead, hlast⟩ := toLast_segment hlinks hlen
    have hlink := suffixObject_eq_link hnext xs z
    rw [← hkids] at hlink
    refine ⟨{ s with toLinks := suffixObject s.toLinks z x }, ?_, rfl,
      h.update a ?_ ?_ hnodup hfrom ?_ (hout _)⟩
    · rw [hkids, hhead]
      simp only [hlast, Option.map_some]
    · rw [← hkids] at hhead
      have hsame : (kids a ++ [x]).head? = s.child a := by
        rw [h.child, hhead, List.head?_append, hhead]
        rfl
      rw [hsame, Function.update_eq_self]
    · have hend : Segment s.toLinks none [] none := trivial
      rw [hlink]
      exact (h.links a).link hend hnodup
    · intro y hya hyx
      rw [List.mem_append, not_or, List.mem_singleton] at hyx
      rw [hlink]
      exact link_same hya hyx.2 List.not_mem_nil

/-- An item is taken out of a list. -/
theorem Chains.detachItemFromArray (h : Chains s kids) (a : α) (which : ℤ) :
    ∃ s', cJSONDetachItemFromArray s a which = ((kids a)[which.toNat]?, s') ∧
      s'.string = s.string ∧
      Chains s' (Function.update kids a ((kids a).eraseIdx which.toNat)) := by
  rw [cJSONDetachItemFromArray, h.getArrayItem]
  rcases hc : (kids a)[which.toNat]? with _ | c
  · refine ⟨s, rfl, rfl, ?_⟩
    rw [List.eraseIdx_of_length_le (List.getElem?_eq_none_iff.mp hc), Function.update_eq_self]
    exact h
  · have hkids := split_at hc
    rw [List.eraseIdx_eq_take_drop_succ]
    generalize (kids a).take which.toNat = xs at hkids ⊢
    generalize (kids a).drop (which.toNat + 1) = ys at hkids ⊢
    obtain ⟨hprev, hnext, hxs, hys⟩ := h.around hkids
    have hnodup := h.forest.nodup a
    rw [hkids] at hnodup
    obtain ⟨hc, hrest⟩ := List.nodup_cons.mp (List.nodup_middle.mp hnodup)
    have hcx := hc
    rw [List.mem_append, not_or] at hcx
    have hsame : ∀ x, x ∉ kids a → x ∉ xs ++ ys → x ∉ xs ∧ x ≠ c ∧ x ∉ ys := by
      intro x hx hxy
      rw [List.mem_append, not_or] at hxy
      refine ⟨hxy.1, ?_, hxy.2⟩
      rintro rfl
      exact hx (hkids ▸ List.mem_append_right _ List.mem_cons_self)
    simp only [hprev, hnext, setPrevOf_next, setNextOf_next_of_ne (getLast?_ne hcx.1),
      setNextOf_prev]
    refine ⟨_, rfl, rfl, h.update a ?_ ?_ hrest ?_ ?_ ?_⟩
    · rw [h.child, hkids]
      cases xs with
      | nil => rw [List.nil_append, List.head?_cons, if_pos rfl, List.nil_append]
      | cons x xs =>
          have hne : some x ≠ some c := fun heq =>
            hcx.1 (Option.some.inj heq ▸ List.mem_cons_self)
          rw [List.cons_append, List.head?_cons, if_neg hne, List.cons_append, List.head?_cons]
          have hchild := h.child a
          rw [hkids, List.cons_append, List.head?_cons] at hchild
          rw [← hchild, Function.update_eq_self]
    · exact ((hxs.join hys hrest).setPrev hc).setNext hc
    · intro x hx
      refine .inl (hkids ▸ ?_)
      rcases List.mem_append.mp hx with hx | hx
      · exact List.mem_append_left _ hx
      · exact List.mem_append_right _ (List.mem_cons_of_mem _ hx)
    · intro x hx hxy
      obtain ⟨hx, hxc, hy⟩ := hsame x hx hxy
      rw [setNext_next_of_ne hxc, setPrev_next, setNext_prev, setPrev_prev_of_ne hxc]
      exact join_same hx hy
    · intro x hx hxy
      have hxc : x = c := by
        rw [hkids] at hx
        rcases List.mem_append.mp hx with hx | hx
        · exact absurd (List.mem_append_left _ hx) hxy
        · rcases List.mem_cons.mp hx with hx | hx
          · exact hx
          · exact absurd (List.mem_append_right _ hx) hxy
      rw [hxc]
      exact ⟨setNext_next_self _ _ _, setPrev_prev_self _ _ _⟩

theorem Chains.setFront (h : Chains s kids) {a c x : α} {xs ys : List α}
    (hkids : kids a = xs ++ c :: ys) {l : Links α} (hprev : l.prev x = xs.getLast?)
    (zs : List α) :
    setFront s l a c x = some { s with
      toLinks := l.setNextOf xs.getLast? (some x)
      child := Function.update s.child a (xs ++ x :: zs).head? } := by
  have hchild := h.child a
  have hnodup := h.forest.nodup a
  rw [hkids] at hchild hnodup
  have hc := (List.nodup_cons.mp (List.nodup_middle.mp hnodup)).1
  cases xs with
  | nil =>
      have hfirst : s.child a = some c := hchild
      rw [CJson.setFront, if_pos hfirst]
      rfl
  | cons b xs =>
      have hne : s.child a ≠ some c := by
        rw [hchild]
        exact fun heq => hc (List.mem_append_left _ (Option.some.inj heq ▸ List.mem_cons_self))
      have hsame : (b :: xs ++ x :: zs).head? = s.child a := hchild.symm
      obtain ⟨q, hq⟩ := Option.ne_none_iff_exists'.mp (mt List.getLast?_eq_none_iff.mp
        (List.cons_ne_nil b xs))
      rw [CJson.setFront, if_neg hne, hprev, hsame, Function.update_eq_self, hq]
      rfl

/-- An item is put in front of another, or at the end. -/
theorem Chains.insertItemInArray (h : Chains s kids) (a : α) (which : ℤ) {x : α} (hx : Loose kids x)
    (hno : ¬ Under kids x a) {fuel : ℕ} (hfuel : (kids a).length ≤ fuel) :
    ∃ s', cJSONInsertItemInArray s fuel a which x = some s' ∧ s'.string = s.string ∧
      Chains s' (Function.update kids a
        ((kids a).take which.toNat ++ x :: (kids a).drop which.toNat)) := by
  rw [cJSONInsertItemInArray, h.getArrayItem]
  rcases hc : (kids a)[which.toNat]? with _ | c
  · have hlen := List.getElem?_eq_none_iff.mp hc
    rw [List.take_of_length_le hlen, List.drop_eq_nil_of_le hlen]
    exact h.addItemToArray a hx hno hfuel
  · have hkids := split_at hc
    have hdrop : (kids a).drop which.toNat = c :: (kids a).drop (which.toNat + 1) := by
      obtain ⟨hi, hci⟩ := List.getElem?_eq_some_iff.mp hc
      rw [← hci, ← List.drop_eq_getElem_cons hi]
    rw [hdrop]
    generalize (kids a).take which.toNat = xs at hkids ⊢
    generalize (kids a).drop (which.toNat + 1) = ys at hkids ⊢
    obtain ⟨hprev, hnext, hxs, hys⟩ := h.around hkids
    have hnodup := h.forest.nodup a
    have hxa := hx a
    rw [hkids] at hnodup hxa
    have hnew : (xs ++ x :: c :: ys).Nodup :=
      List.nodup_middle.mpr (List.nodup_cons.mpr ⟨hxa, hnodup⟩)
    have hxc : x ≠ c := fun heq => hxa (heq ▸ List.mem_append_right _ List.mem_cons_self)
    have hlinks := h.links a
    rw [hkids, segment_append] at hlinks
    simp only [hprev]
    rw [h.setFront hkids (by rw [setPrev_prev_of_ne hxc, setPrev_prev_self]) (c :: ys)]
    refine ⟨_, rfl, rfl, h.update a rfl (hlinks.1.link hlinks.2 hnew) hnew ?_ ?_ ?_⟩
    · intro y hy
      rcases List.mem_append.mp hy with hy | hy
      · exact .inl (hkids ▸ List.mem_append_left _ hy)
      · rcases List.mem_cons.mp hy with rfl | hy
        · exact .inr ⟨hx, hno⟩
        · exact .inl (hkids ▸ List.mem_append_right _ hy)
    · intro y _ hy
      rw [List.mem_append, List.mem_cons, not_or, not_or] at hy
      exact link_same hy.1 hy.2.1 hy.2.2
    · intro y hy hout
      rw [hkids] at hy
      refine absurd ?_ hout
      rcases List.mem_append.mp hy with hy | hy
      · exact List.mem_append_left _ hy
      · exact List.mem_append_right _ (List.mem_cons_of_mem _ hy)

/-- An item takes the place of another, which is in no list then. -/
theorem Chains.replaceItemInArray (h : Chains s kids) (a : α) (which : ℤ) {x : α}
    (hx : Loose kids x) (hno : ¬ Under kids x a) :
    ∃ s', cJSONReplaceItemInArray s a which x = some ((kids a)[which.toNat]?, s') ∧
      s'.string = s.string ∧
      Chains s' (Function.update kids a ((kids a).set which.toNat x)) := by
  rw [cJSONReplaceItemInArray, h.getArrayItem]
  rcases hc : (kids a)[which.toNat]? with _ | c
  · refine ⟨s, rfl, rfl, ?_⟩
    rw [List.set_eq_of_length_le (List.getElem?_eq_none_iff.mp hc), Function.update_eq_self]
    exact h
  · have hkids := split_at hc
    rw [List.set_eq_take_append_cons_drop, if_pos (List.getElem?_eq_some_iff.mp hc).1]
    generalize (kids a).take which.toNat = xs at hkids ⊢
    generalize (kids a).drop (which.toNat + 1) = ys at hkids ⊢
    obtain ⟨hprev, hnext, hxs, hys⟩ := h.around hkids
    have hnodup := h.forest.nodup a
    have hxa := hx a
    rw [hkids] at hnodup hxa
    obtain ⟨hc, hrest⟩ := List.nodup_cons.mp (List.nodup_middle.mp hnodup)
    have hxc : x ≠ c := fun heq => hxa (heq ▸ List.mem_append_right _ List.mem_cons_self)
    have hxr : x ∉ xs ++ ys := by
      intro hmem
      rcases List.mem_append.mp hmem with hmem | hmem
      · exact hxa (List.mem_append_left _ hmem)
      · exact hxa (List.mem_append_right _ (List.mem_cons_of_mem _ hmem))
    have hnew : (xs ++ x :: ys).Nodup :=
      List.nodup_middle.mpr (List.nodup_cons.mpr ⟨hxr, hrest⟩)
    have hcn : c ∉ xs ++ x :: ys := by
      rw [List.mem_append, not_or] at hc
      rw [List.mem_append, List.mem_cons, not_or, not_or]
      exact ⟨hc.1, hxc.symm, hc.2⟩
    simp only [hprev, hnext, setPrev_next, setNext_next_self]
    have hback : (((s.toLinks.setNext x ys.head?).setPrev x xs.getLast?).setPrevOf ys.head?
        (some x)).prev x = xs.getLast? := by
      rw [setPrevOf_prev_of_ne (head?_ne fun hy => hxr (List.mem_append_right _ hy)),
        setPrev_prev_self]
    rw [h.setFront hkids hback ys]
    refine ⟨_, rfl, rfl, h.update a rfl
      (((hxs.link hys hnew).setNext hcn).setPrev hcn) hnew ?_ ?_ ?_⟩
    · intro y hy
      rcases List.mem_append.mp hy with hy | hy
      · exact .inl (hkids ▸ List.mem_append_left _ hy)
      · rcases List.mem_cons.mp hy with rfl | hy
        · exact .inr ⟨hx, hno⟩
        · exact .inl (hkids ▸ List.mem_append_right _ (List.mem_cons_of_mem _ hy))
    · intro y hya hy
      have hyc : y ≠ c := by
        rintro rfl
        exact hya (hkids ▸ List.mem_append_right _ List.mem_cons_self)
      rw [List.mem_append, List.mem_cons, not_or, not_or] at hy
      rw [setPrev_next, setNext_next_of_ne hyc, setPrev_prev_of_ne hyc, setNext_prev]
      exact link_same hy.1 hy.2.1 hy.2.2
    · intro y hy hout
      have hyc : y = c := by
        rw [hkids] at hy
        rcases List.mem_append.mp hy with hy | hy
        · exact absurd (List.mem_append_left _ hy) hout
        · rcases List.mem_cons.mp hy with hy | hy
          · exact hy
          · exact absurd (List.mem_append_right _ (List.mem_cons_of_mem _ hy)) hout
      rw [hyc]
      exact ⟨setNext_next_self _ _ _, setPrev_prev_self _ _ _⟩

/-- The names do not matter to the links. -/
theorem Chains.setString (h : Chains s kids) (x : α) (string : List UInt8) (copied : Bool) :
    Chains (setString s x string copied) kids :=
  ⟨h.child, h.links, h.forest, h.loose⟩

theorem Chains.detachItemFromObject (h : Chains s kids) (a : α) (string : List UInt8) {fuel : ℕ}
    (hfuel : (kids a).length < fuel) :
    ∃ s', cJSONDetachItemFromObject s fuel a string =
        some ((kids a).find? fun x => sameName (s.string x) string, s') ∧
      s'.string = s.string ∧
      Chains s' (Function.update kids a
        ((kids a).eraseP fun x => sameName (s.string x) string)) := by
  rw [cJSONDetachItemFromObject, h.findNamed a string hfuel,
    List.find?_eq_bind_findIdx?_getElem?, List.eraseP_eq_eraseIdx]
  rcases (kids a).findIdx? fun x => sameName (s.string x) string with _ | i
  · refine ⟨s, rfl, rfl, ?_⟩
    rw [Function.update_eq_self]
    exact h
  · obtain ⟨s', hdetach, hstring, hchains⟩ := h.detachItemFromArray a i
    exact ⟨s', congrArg some hdetach, hstring, hchains⟩

end Lists

end ServerKit.CJson
