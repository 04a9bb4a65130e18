import Mathlib.Data.List.Nodup
import Mathlib.Logic.Function.Basic

/-! # Lists of elements with keys

An element is put into a list unless its key is there, and taken out by its key. Over a family of
lists, edits of different lists or of different keys commute, so that an element that is taken out
leaves nothing behind, whatever other edits there have been since it was put in. -/

namespace ServerKit.Keyed

variable {α κ ι : Type*} [DecidableEq κ] [DecidableEq ι] {key : α → κ} {l : List α} {x : α}
  {k m : κ} {a b : ι}

/-- Puts `x` at the end, unless its key is there. -/
def putNew (key : α → κ) (x : α) (l : List α) : List α :=
  if key x ∈ l.map key then l else l ++ [x]

/-- Takes out the first element with the key `k`. -/
def takeOut (key : α → κ) (k : κ) (l : List α) : List α := l.eraseP (key · = k)

theorem forall_key_ne (h : k ∉ l.map key) : ∀ y ∈ l, ¬ decide (key y = k) = true := by
  intro y hy
  have hne : key y ≠ k := by
    rintro rfl
    exact h (List.mem_map_of_mem hy)
  simpa using hne

theorem takeOut_of_not_mem (h : k ∉ l.map key) : takeOut key k l = l :=
  List.eraseP_of_forall_not (forall_key_ne h)

theorem takeOut_append_cons {front back : List α} (h : key x ∉ front.map key) :
    takeOut key (key x) (front ++ x :: back) = front ++ back := by
  rw [takeOut, List.eraseP_append_right _ (forall_key_ne h), List.eraseP_cons_of_pos (by simp)]

theorem mem_map_putNew : m ∈ (putNew key x l).map key ↔ m ∈ l.map key ∨ m = key x := by
  rw [putNew]
  split
  · rename_i hx
    exact ⟨.inl, fun hm => hm.elim id (· ▸ hx)⟩
  · simp

theorem mem_map_takeOut (h : m ≠ k) : m ∈ (takeOut key k l).map key ↔ m ∈ l.map key := by
  simp only [takeOut, List.mem_map]
  constructor
  · rintro ⟨y, hy, rfl⟩
    exact ⟨y, List.mem_of_mem_eraseP hy, rfl⟩
  · rintro ⟨y, hy, rfl⟩
    exact ⟨y, (List.mem_eraseP_of_neg (by simpa using h)).mpr hy, rfl⟩

theorem takeOut_append_of_ne (h : key x ≠ k) :
    takeOut key k (l ++ [x]) = takeOut key k l ++ [x] := by
  by_cases hk : k ∈ l.map key
  · obtain ⟨y, hy, rfl⟩ := List.mem_map.mp hk
    exact List.eraseP_append_left (by simp) _ hy
  · rw [takeOut_of_not_mem hk]
    refine takeOut_of_not_mem ?_
    simpa [h.symm] using hk

theorem takeOut_putNew_self (h : key x ∉ l.map key) : takeOut key (key x) (putNew key x l) = l := by
  rw [putNew, if_neg h, takeOut_append_cons h, List.append_nil]

theorem takeOut_putNew (h : key x ≠ k) :
    takeOut key k (putNew key x l) = putNew key x (takeOut key k l) := by
  rw [putNew, putNew]
  by_cases hx : key x ∈ l.map key
  · rw [if_pos hx, if_pos ((mem_map_takeOut h).mpr hx)]
  · rw [if_neg hx, if_neg (mt (mem_map_takeOut h).mp hx), takeOut_append_of_ne h]

theorem takeOut_comm (h : k ≠ m) :
    takeOut key k (takeOut key m l) = takeOut key m (takeOut key k l) := by
  refine List.eraseP_comm fun y _ => ?_
  by_cases hy : key y = m
  · exact .inr (by simpa [hy] using h.symm)
  · exact .inl (by simpa using hy)

theorem nodup_putNew (h : (l.map key).Nodup) : ((putNew key x l).map key).Nodup := by
  rw [putNew]
  split
  · exact h
  · rename_i hx
    rw [List.map_append]
    exact h.append (List.nodup_singleton _) (by simpa using hx)

theorem nodup_takeOut (h : (l.map key).Nodup) : ((takeOut key k l).map key).Nodup :=
  h.sublist (List.eraseP_sublist.map key)

/-- Where no key occurs twice, an element is taken out alone. -/
theorem exists_takeOut_eq (h : (l.map key).Nodup) (hx : x ∈ l) :
    ∃ front back, l = front ++ x :: back ∧ takeOut key (key x) l = front ++ back := by
  obtain ⟨front, back, rfl⟩ := List.append_of_mem hx
  rw [List.map_append, List.map_cons] at h
  have hfront : key x ∉ front.map key := fun hmem =>
    List.disjoint_of_nodup_append h hmem List.mem_cons_self
  exact ⟨front, back, rfl, takeOut_append_cons hfront⟩

/-! ## Families of lists -/

/-- An edit of one list of a family. -/
inductive Edit (ι α κ : Type*) where
  | put (a : ι) (x : α)
  | take (a : ι) (k : κ)

/-- The change of one list. -/
def change (c : ι → List α) (a : ι) (f : List α → List α) : ι → List α :=
  Function.update c a (f (c a))

def Edit.apply (key : α → κ) (c : ι → List α) : Edit ι α κ → ι → List α
  | .put a x => change c a (putNew key x)
  | .take a k => change c a (takeOut key k)

/-- The edit does not touch the key `k` of the list `a`. -/
def Edit.Apart (key : α → κ) (a : ι) (k : κ) : Edit ι α κ → Prop
  | .put b y => b = a → key y ≠ k
  | .take b m => b = a → m ≠ k

variable {c : ι → List α} {f g : List α → List α} {e : Edit ι α κ} {es : List (Edit ι α κ)}

theorem change_comm (h : a = b → ∀ l, g (f l) = f (g l)) :
    change (change c a f) b g = change (change c b g) a f := by
  by_cases hab : a = b
  · subst hab
    simp only [change, Function.update_self, Function.update_idem, h rfl]
  · simp only [change, Function.update_of_ne hab, Function.update_of_ne (Ne.symm hab)]
    exact Function.update_comm hab _ _ c

theorem Edit.Apart.take_apply (h : e.Apart key a k) :
    Edit.apply key (e.apply key c) (.take a k) = e.apply key (Edit.apply key c (.take a k)) := by
  cases e with
  | put b y => exact change_comm fun hb l => takeOut_putNew (h hb)
  | take b m => exact change_comm fun hb l => takeOut_comm (h hb).symm

/-- The removal of a key moves in front of the edits that do not touch it. -/
theorem take_foldl (hes : ∀ e ∈ es, e.Apart key a k) :
    Edit.apply key (es.foldl (Edit.apply key) c) (.take a k) =
      es.foldl (Edit.apply key) (Edit.apply key c (.take a k)) := by
  induction es generalizing c with
  | nil => rfl
  | cons e es ih =>
      rw [List.foldl_cons, List.foldl_cons, ih fun e he => hes e (List.mem_cons_of_mem _ he),
        (hes e List.mem_cons_self).take_apply]

/-- Taking out undoes putting in, across all edits that do not touch the key. -/
theorem take_foldl_put (hx : key x ∉ (c a).map key) (hes : ∀ e ∈ es, e.Apart key a (key x)) :
    Edit.apply key (es.foldl (Edit.apply key) (Edit.apply key c (.put a x))) (.take a (key x)) =
      es.foldl (Edit.apply key) c := by
  have hundo : Edit.apply key (Edit.apply key c (.put a x)) (.take a (key x)) = c := by
    simp only [Edit.apply, change, Function.update_self, Function.update_idem,
      takeOut_putNew_self hx, Function.update_eq_self]
  rw [take_foldl hes, hundo]

/-- What an edit makes of one list. -/
theorem Edit.apply_cases (key : α → κ) (c : ι → List α) (e : Edit ι α κ) (a : ι) :
    e.apply key c a = c a ∨ (∃ x, e = .put a x ∧ e.apply key c a = putNew key x (c a)) ∨
      ∃ k, e = .take a k ∧ e.apply key c a = takeOut key k (c a) := by
  cases e with
  | put b x =>
      by_cases hab : a = b
      · subst hab
        exact .inr (.inl ⟨x, rfl, Function.update_self a _ c⟩)
      · exact .inl (Function.update_of_ne hab _ c)
  | take b k =>
      by_cases hab : a = b
      · subst hab
        exact .inr (.inr ⟨k, rfl, Function.update_self a _ c⟩)
      · exact .inl (Function.update_of_ne hab _ c)

theorem Edit.nodup_apply (h : ∀ a, ((c a).map key).Nodup) (e : Edit ι α κ) (a : ι) :
    ((e.apply key c a).map key).Nodup := by
  rcases e.apply_cases key c a with hsame | ⟨x, -, hput⟩ | ⟨k, -, htake⟩
  · rw [hsame]
    exact h a
  · rw [hput]
    exact nodup_putNew (h a)
  · rw [htake]
    exact nodup_takeOut (h a)

/-- A key that an edit leaves in a list was there, or has been put there. -/
theorem Edit.mem_map_apply (h : m ∈ (e.apply key c a).map key) :
    m ∈ (c a).map key ∨ ∃ x, e = .put a x ∧ key x = m := by
  rcases e.apply_cases key c a with hsame | ⟨x, he, hput⟩ | ⟨k, -, htake⟩
  · rw [hsame] at h
    exact .inl h
  · rw [hput, mem_map_putNew] at h
    exact h.imp_right fun hm => ⟨x, he, hm.symm⟩
  · rw [htake] at h
    exact .inl ((List.eraseP_sublist.map key).subset h)

theorem Edit.Apart.mem_apply (h : e.Apart key a (key x)) (hx : x ∈ c a) : x ∈ e.apply key c a := by
  rcases e.apply_cases key c a with hsame | ⟨y, -, hput⟩ | ⟨k, he, htake⟩
  · rwa [hsame]
  · rw [hput, putNew]
    split
    · exact hx
    · exact List.mem_append_left _ hx
  · rw [he] at h
    have hne : key x ≠ k := (h rfl).symm
    rw [htake, takeOut]
    exact (List.mem_eraseP_of_neg (by simpa using hne)).mpr hx

theorem mem_foldl (hx : x ∈ c a) (hes : ∀ e ∈ es, e.Apart key a (key x)) :
    x ∈ es.foldl (Edit.apply key) c a := by
  induction es generalizing c with
  | nil => exact hx
  | cons e es ih =>
      exact ih ((hes e List.mem_cons_self).mem_apply hx)
        fun e he => hes e (List.mem_cons_of_mem _ he)

end ServerKit.Keyed
