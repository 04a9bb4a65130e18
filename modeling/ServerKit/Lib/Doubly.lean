import Mathlib.Data.List.Nodup
import Mathlib.Logic.Function.Basic
import Mathlib.Tactic.Common

/-! # Doubly linked lists

A list is a segment of elements that point to each other, with what its first element points back
to and its last one points on to. -/

namespace ServerKit.Doubly

variable {α : Type}

structure Links (α : Type) where
  next : α → Option α
  prev : α → Option α

/-- The elements stand behind `p` and in front of `n`. -/
def Segment (l : Links α) : Option α → List α → Option α → Prop
  | _, [], _ => True
  | p, x :: xs, n => l.prev x = p ∧ l.next x = xs.head?.or n ∧ Segment l (some x) xs n

section Segments

variable {l l' : Links α} {p p' n n' : Option α} {x : α} {xs ys : List α}

/-- A segment depends on the links of its elements only. -/
theorem Segment.congr (h : Segment l p xs n)
    (hsame : ∀ x ∈ xs, l'.next x = l.next x ∧ l'.prev x = l.prev x) : Segment l' p xs n := by
  induction xs generalizing p with
  | nil => trivial
  | cons x xs ih =>
      obtain ⟨hprev, hnext, hrest⟩ := h
      obtain ⟨hn, hp⟩ := hsame x List.mem_cons_self
      exact ⟨hp.trans hprev, hn.trans hnext,
        ih hrest fun y hy => hsame y (List.mem_cons_of_mem _ hy)⟩

theorem segment_append : Segment l p (xs ++ ys) n ↔
    Segment l p xs (ys.head?.or n) ∧ Segment l (xs.getLast?.or p) ys n := by
  induction xs generalizing p with
  | nil => simp [Segment]
  | cons x xs ih =>
      have hhead : (xs ++ ys).head?.or n = xs.head?.or (ys.head?.or n) := by
        rw [List.head?_append, Option.or_assoc]
      have hlast : (x :: xs).getLast?.or p = xs.getLast?.or (some x) := by
        cases xs with
        | nil => rfl
        | cons y xs =>
            rw [List.getLast?_cons_cons, List.getLast?_eq_getLast_of_ne_nil (List.cons_ne_nil y xs)]
            rfl
      rw [List.cons_append, Segment, Segment, ih, hhead, hlast, and_assoc, and_assoc]

/-- The pointers before and behind an element. -/
theorem Segment.around (h : Segment l p (xs ++ x :: ys) n) :
    l.prev x = xs.getLast?.or p ∧ l.next x = ys.head?.or n := by
  rw [segment_append] at h
  exact ⟨h.2.1, h.2.2.1⟩

/-- The element so many steps behind the first. -/
def nth (l : Links α) : ℕ → Option α → Option α
  | 0, c => c
  | _ + 1, none => none
  | w + 1, some c => nth l w (l.next c)

theorem nth_segment (h : Segment l p xs none) (w : ℕ) : nth l w xs.head? = xs[w]? := by
  induction w generalizing p xs with
  | zero => cases xs <;> rfl
  | succ w ih =>
      cases xs with
      | nil => rfl
      | cons x xs =>
          obtain ⟨-, hnext, hrest⟩ := h
          rw [Option.or_none] at hnext
          rw [List.head?_cons, nth, hnext, ih hrest, List.getElem?_cons_succ]

/-- `while (c->next) c = c->next;` -/
def toLast (l : Links α) : ℕ → α → Option α
  | 0, _ => none
  | fuel + 1, c =>
    match l.next c with
    | none => some c
    | some d => toLast l fuel d

theorem toLast_segment (h : Segment l p (xs ++ [x]) none) {fuel : ℕ} (hfuel : xs.length < fuel) :
    ∃ c, (xs ++ [x]).head? = some c ∧ toLast l fuel c = some x := by
  induction xs generalizing p fuel with
  | nil =>
      obtain ⟨fuel, rfl⟩ := Nat.exists_eq_add_one_of_ne_zero (Nat.ne_zero_of_lt hfuel)
      have hnext : l.next x = none := h.2.1
      exact ⟨x, rfl, by rw [toLast, hnext]⟩
  | cons c xs ih =>
      obtain ⟨fuel, rfl⟩ := Nat.exists_eq_add_one_of_ne_zero (Nat.ne_zero_of_lt hfuel)
      obtain ⟨-, hnext, hrest⟩ := h
      obtain ⟨d, hd, hlast⟩ := ih hrest (Nat.lt_of_succ_lt_succ hfuel)
      have hnext : l.next c = some d := by
        rw [hnext, Option.or_none]
        exact hd
      exact ⟨c, rfl, by rw [toLast, hnext]; exact hlast⟩

theorem getLast?_ne (hx : x ∉ xs) : xs.getLast? ≠ some x := fun h => hx (List.mem_of_getLast? h)

theorem head?_ne (hx : x ∉ xs) : xs.head? ≠ some x := fun h => hx (List.mem_of_head? h)

end Segments

/-! ## Writing links -/

section Writing

variable [DecidableEq α]

def Links.setNext (l : Links α) (x : α) (v : Option α) : Links α :=
  { l with next := Function.update l.next x v }

def Links.setPrev (l : Links α) (x : α) (v : Option α) : Links α :=
  { l with prev := Function.update l.prev x v }

variable (l : Links α) (x y : α) (v : Option α)

@[simp] theorem setNext_next_self : (l.setNext x v).next x = v := Function.update_self _ _ _

@[simp] theorem setPrev_prev_self : (l.setPrev x v).prev x = v := Function.update_self _ _ _

@[simp] theorem setNext_prev : (l.setNext x v).prev = l.prev := rfl

@[simp] theorem setPrev_next : (l.setPrev x v).next = l.next := rfl

variable {l x y v} {p n : Option α} {xs ys : List α}

theorem setNext_next_of_ne (h : y ≠ x) : (l.setNext x v).next y = l.next y :=
  Function.update_of_ne h _ _

theorem setPrev_prev_of_ne (h : y ≠ x) : (l.setPrev x v).prev y = l.prev y :=
  Function.update_of_ne h _ _

theorem Segment.setNext (h : Segment l p xs n) (hx : x ∉ xs) : Segment (l.setNext x v) p xs n :=
  h.congr fun _ hy => ⟨setNext_next_of_ne fun heq => hx (heq ▸ hy), rfl⟩

theorem Segment.setPrev (h : Segment l p xs n) (hx : x ∉ xs) : Segment (l.setPrev x v) p xs n :=
  h.congr fun _ hy => ⟨rfl, setPrev_prev_of_ne fun heq => hx (heq ▸ hy)⟩

/-! ## Writing links of what may be missing -/

/-- `if (q) q->next = v;` -/
def Links.setNextOf (l : Links α) (q v : Option α) : Links α := q.elim l fun q => l.setNext q v

/-- `if (q) q->prev = v;` -/
def Links.setPrevOf (l : Links α) (q v : Option α) : Links α := q.elim l fun q => l.setPrev q v

variable {q : Option α}

theorem setNextOf_next_of_ne (h : q ≠ some y) : (l.setNextOf q v).next y = l.next y := by
  cases q with
  | none => rfl
  | some q => exact setNext_next_of_ne fun heq => h (heq ▸ rfl)

@[simp] theorem setNextOf_prev (l : Links α) (q v : Option α) :
    (l.setNextOf q v).prev = l.prev := by
  cases q <;> rfl

theorem setPrevOf_prev_of_ne (h : q ≠ some y) : (l.setPrevOf q v).prev y = l.prev y := by
  cases q with
  | none => rfl
  | some q => exact setPrev_prev_of_ne fun heq => h (heq ▸ rfl)

@[simp] theorem setPrevOf_next (l : Links α) (q v : Option α) :
    (l.setPrevOf q v).next = l.next := by
  cases q <;> rfl

/-- The last element is made to point on to something else. -/
theorem Segment.setNextOf (h : Segment l p xs n) (hnodup : xs.Nodup) :
    Segment (l.setNextOf xs.getLast? v) p xs v := by
  rcases List.eq_nil_or_concat' xs with rfl | ⟨xs, x, rfl⟩
  · trivial
  · rw [List.getLast?_concat]
    rw [List.nodup_append] at hnodup
    have hx : x ∉ xs := fun hx => hnodup.2.2 x hx x (List.mem_singleton_self x) rfl
    rw [segment_append] at h ⊢
    refine ⟨h.1.setNext hx, h.2.1, ?_, trivial⟩
    rw [List.head?_nil, Option.none_or]
    exact setNext_next_self l x v

/-- The first element is made to point back to something else. -/
theorem Segment.setPrevOf (h : Segment l p xs n) (hnodup : xs.Nodup) :
    Segment (l.setPrevOf xs.head? v) v xs n := by
  cases xs with
  | nil => trivial
  | cons x xs =>
      have hx : x ∉ xs := (List.nodup_cons.mp hnodup).1
      exact ⟨setPrev_prev_self l x v, h.2.1, h.2.2.setPrev hx⟩

theorem Segment.setNextOf_frame (h : Segment l p xs n) (hq : ∀ y ∈ xs, q ≠ some y) :
    Segment (l.setNextOf q v) p xs n :=
  h.congr fun y hy => ⟨setNextOf_next_of_ne (hq y hy), by rw [setNextOf_prev]⟩

theorem Segment.setPrevOf_frame (h : Segment l p xs n) (hq : ∀ y ∈ xs, q ≠ some y) :
    Segment (l.setPrevOf q v) p xs n :=
  h.congr fun y hy => ⟨by rw [setPrevOf_next], setPrevOf_prev_of_ne (hq y hy)⟩

/-! ## Lists taken apart and joined -/

/-- The end of one list and the start of another are made to point to each other. -/
def Links.join (l : Links α) (xs ys : List α) : Links α :=
  (l.setNextOf xs.getLast? ys.head?).setPrevOf ys.head? xs.getLast?

/-- An element is put between two lists. -/
def Links.link (l : Links α) (xs : List α) (x : α) (ys : List α) : Links α :=
  (((l.setNext x ys.head?).setPrev x xs.getLast?).setPrevOf ys.head? (some x)).setNextOf
    xs.getLast? (some x)

theorem join_same (hxs : y ∉ xs) (hys : y ∉ ys) :
    (l.join xs ys).next y = l.next y ∧ (l.join xs ys).prev y = l.prev y := by
  refine ⟨?_, ?_⟩
  · rw [Links.join, setPrevOf_next, setNextOf_next_of_ne (getLast?_ne hxs)]
  · rw [Links.join, setPrevOf_prev_of_ne (head?_ne hys), setNextOf_prev]

theorem link_same (hxs : y ∉ xs) (hyx : y ≠ x) (hys : y ∉ ys) :
    (l.link xs x ys).next y = l.next y ∧ (l.link xs x ys).prev y = l.prev y := by
  refine ⟨?_, ?_⟩
  · rw [Links.link, setNextOf_next_of_ne (getLast?_ne hxs), setPrevOf_next, setPrev_next,
      setNext_next_of_ne hyx]
  · rw [Links.link, setNextOf_prev, setPrevOf_prev_of_ne (head?_ne hys), setPrev_prev_of_ne hyx,
      setNext_prev]

variable {p' n' : Option α}

theorem Segment.join (hxs : Segment l none xs n') (hys : Segment l p' ys none)
    (hnodup : (xs ++ ys).Nodup) : Segment (l.join xs ys) none (xs ++ ys) none := by
  obtain ⟨hnxs, hnys, hdisj⟩ := List.nodup_append.mp hnodup
  rw [segment_append, Option.or_none, Option.or_none]
  constructor
  · refine (hxs.setNextOf hnxs).setPrevOf_frame ?_
    exact fun y hy => head?_ne fun hyy => hdisj y hy y hyy rfl
  · refine (hys.setNextOf_frame ?_).setPrevOf hnys
    exact fun y hy => getLast?_ne fun hyx => hdisj y hyx y hy rfl

theorem Segment.link (hxs : Segment l none xs n') (hys : Segment l p' ys none)
    (hnodup : (xs ++ x :: ys).Nodup) : Segment (l.link xs x ys) none (xs ++ x :: ys) none := by
  obtain ⟨hx, hrest⟩ := List.nodup_cons.mp (List.nodup_middle.mp hnodup)
  obtain ⟨hnxs, hnys, hdisj⟩ := List.nodup_append.mp hrest
  rw [List.mem_append, not_or] at hx
  rw [segment_append, Option.or_none]
  refine ⟨?_, ?_, ?_, ?_⟩
  · refine (((hxs.setNext hx.1).setPrev hx.1).setPrevOf_frame ?_).setNextOf hnxs
    exact fun y hy => head?_ne fun hyy => hdisj y hy y hyy rfl
  · rw [Links.link, setNextOf_prev, setPrevOf_prev_of_ne (head?_ne hx.2), setPrev_prev_self,
      Option.or_none]
  · rw [Links.link, setNextOf_next_of_ne (getLast?_ne hx.1), setPrevOf_next, setPrev_next,
      setNext_next_self, Option.or_none]
  · refine (((hys.setNext hx.2).setPrev hx.2).setPrevOf hnys).setNextOf_frame ?_
    exact fun y hy => getLast?_ne fun hyx => hdisj y hyx y hy rfl

end Writing

end ServerKit.Doubly
