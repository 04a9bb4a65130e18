import Mathlib.Data.List.Forall2
import Mathlib.Tactic.Common

/-! # Code that owns an object

Code with one label at its end reads an object that must be released once. A read or a release
after the first release shows in the state of the object. -/

namespace ServerKit.Owned

/-- How often the object was released, and whether it was read after that. -/
structure State where
  released : ℕ
  readAfter : Bool
  deriving DecidableEq, Repr

/-- The object before its release. -/
def State.live : State := ⟨0, false⟩

/-- The object that was released once and not read after that. -/
def State.once : State := ⟨1, false⟩

/-- The ways to leave the code early: the jump to the label, and a step that is undefined. -/
inductive Exit where
  | jump
  | undefined
  deriving DecidableEq, Repr

abbrev Code (α : Type) := EStateM Exit State α

/-- A read of the object. -/
def read : Code Unit := fun o => .ok () { o with readAfter := o.readAfter || o.released != 0 }

def release : Code Unit := fun o => .ok () { o with released := o.released + 1 }

/-- The code `label` is run after a jump out of `body`. -/
def labelled {α : Type} (body label : Code α) : Code α := fun o =>
  match body o with
  | .ok a o => .ok a o
  | .error .jump o => label o
  | .error .undefined o => .error .undefined o

variable {α β : Type} {a : α} {b : β} {e : Exit} {p : Code α} {f : α → Code β}

/-- The code runs to its end with a value and leaves the object as it is. -/
def Yields (p : Code α) (a : α) : Prop := p .live = .ok a .live

/-- The code is left early, with the object as it is. -/
def Fails (p : Code α) (e : Exit) : Prop := p .live = .error e .live

/-- The code releases the object once on the way to its end, or is undefined. -/
def Spends (p : Code α) : Prop := (∃ a, p .live = .ok a .once) ∨ Fails p .undefined

/-- The code does not release the object. -/
def Reads (p : Code α) : Prop := (∃ a, Yields p a) ∨ ∃ e, Fails p e

@[simp] theorem yields_pure {a' : α} : Yields (pure a) a' ↔ a = a' := by
  constructor
  · intro h
    cases h
    rfl
  · intro h
    rw [h]
    rfl

@[simp] theorem not_yields_throw : ¬ Yields (throw e : Code α) a := by
  intro h
  cases h

@[simp] theorem reads_pure : Reads (pure a : Code α) := Or.inl ⟨a, rfl⟩

@[simp] theorem reads_throw : Reads (throw e : Code α) := Or.inr ⟨e, rfl⟩

@[simp] theorem yields_read {u : Unit} : Yields read u ↔ True := ⟨fun _ => trivial, fun _ => rfl⟩

@[simp] theorem reads_read : Reads read := Or.inl ⟨(), rfl⟩

section Steps

variable {o o' : State}

theorem bind_ok (h : p o = .ok a o') : (p >>= f) o = f a o' := by
  show EStateM.bind p f o = f a o'
  rw [EStateM.bind, h]

theorem bind_error (h : p o = .error e o') : (p >>= f) o = .error e o' := by
  show EStateM.bind p f o = .error e o'
  rw [EStateM.bind, h]

theorem labelled_ok {label : Code α} (h : p o = .ok a o') : labelled p label o = .ok a o' := by
  rw [labelled, h]

theorem labelled_jump {label : Code α} (h : p o = .error .jump o') :
    labelled p label o = label o' := by
  rw [labelled, h]

theorem labelled_undefined {label : Code α} (h : p o = .error .undefined o') :
    labelled p label o = .error .undefined o' := by
  rw [labelled, h]

end Steps

/-- The two parts of a sequence yield one after the other. -/
theorem Reads.yields_bind_iff (hp : Reads p) :
    Yields (p >>= f) b ↔ ∃ a, Yields p a ∧ Yields (f a) b := by
  constructor
  · intro h
    rcases hp with ⟨a, ha⟩ | ⟨e, he⟩
    · exact ⟨a, ha, (bind_ok ha).symm.trans h⟩
    · cases (bind_error (f := f) he).symm.trans h
  · intro h
    rcases h with ⟨a, ha, hb⟩
    exact (bind_ok ha).trans hb

theorem Reads.bind (hp : Reads p) (hf : ∀ a, Yields p a → Reads (f a)) : Reads (p >>= f) := by
  rcases hp with ⟨a, ha⟩ | ⟨e, he⟩
  · rcases hf a ha with ⟨b, hb⟩ | ⟨e, he⟩
    · exact Or.inl ⟨b, (bind_ok ha).trans hb⟩
    · exact Or.inr ⟨e, (bind_ok ha).trans he⟩
  · exact Or.inr ⟨e, bind_error he⟩

theorem reads_mapM {ι : Type} {is : List ι} {g : ι → Code α} (h : ∀ i ∈ is, Reads (g i)) :
    Reads (is.mapM g) := by
  induction is with
  | nil =>
      rw [List.mapM_nil]
      exact reads_pure
  | cons i is ih =>
      rw [List.mapM_cons]
      have htail := ih fun i hi => h i (List.mem_cons_of_mem _ hi)
      exact (h i List.mem_cons_self).bind fun a _ => htail.bind fun as _ => reads_pure

/-- A loop yields the values of its turns. -/
theorem yields_mapM_iff {ι : Type} {is : List ι} {g : ι → Code α} {as : List α}
    (h : ∀ i ∈ is, Reads (g i)) :
    Yields (is.mapM g) as ↔ List.Forall₂ (fun i a => Yields (g i) a) is as := by
  induction is generalizing as with
  | nil => simp [eq_comm]
  | cons i is ih =>
      have hrest : ∀ j ∈ is, Reads (g j) := fun j hj => h j (List.mem_cons_of_mem _ hj)
      rw [List.mapM_cons, (h i List.mem_cons_self).yields_bind_iff, List.forall₂_cons_left_iff]
      simp only [(reads_mapM hrest).yields_bind_iff, ih hrest, yields_pure]
      constructor
      · intro hyields
        rcases hyields with ⟨a, ha, as, has, rfl⟩
        exact ⟨a, as, ha, has, rfl⟩
      · intro hyields
        rcases hyields with ⟨a, as, ha, has, rfl⟩
        exact ⟨a, ha, as, has, rfl⟩

/-- A loop over the elements of a list by their indices. -/
theorem yields_range_mapM_iff {ι : Type} {xs : List ι} {turn : ℕ → Code α} {good : ℕ → ι → Prop}
    {g : ι → α} {as : List α} (hreads : ∀ i, Reads (turn i))
    (hturn : ∀ i < xs.length, ∀ a, Yields (turn i) a ↔
      ∃ x, xs[i]? = some x ∧ good i x ∧ a = g x) :
    Yields ((List.range xs.length).mapM turn) as ↔
      (∀ i x, xs[i]? = some x → good i x) ∧ as = xs.map g := by
  rw [yields_mapM_iff fun i _ => hreads i, List.forall₂_iff_get]
  simp only [List.get_eq_getElem, List.getElem_range, List.length_range]
  constructor
  · intro h
    rcases h with ⟨hlength, hturns⟩
    have hget : ∀ (i : ℕ) (hi : i < xs.length) (hd : i < as.length),
        good i xs[i] ∧ as[i] = g xs[i] := by
      intro i hi hd
      rcases (hturn i hi _).mp (hturns i hi hd) with ⟨x, hx, hgood, heq⟩
      rw [List.getElem?_eq_getElem hi] at hx
      cases hx
      exact ⟨hgood, heq⟩
    constructor
    · intro i x hx
      rcases List.getElem?_eq_some_iff.mp hx with ⟨hi, rfl⟩
      exact (hget i hi (hlength ▸ hi)).1
    · refine List.ext_getElem (by simp [← hlength]) ?_
      intro i hd hi
      rw [List.getElem_map]
      exact (hget i (by simpa using hi) hd).2
  · intro h
    rcases h with ⟨hgood, rfl⟩
    refine ⟨by simp, ?_⟩
    intro i hi _
    have hx := List.getElem?_eq_getElem hi
    rw [hturn i hi, List.getElem_map]
    exact ⟨_, hx, hgood i _ hx, rfl⟩

/-! ## Checks -/

/-- `p` does what `q` does, but it may be undefined instead. -/
def Checks (p q : Code α) : Prop := Fails p .undefined ∨ p .live = q .live

theorem Reads.checks_bind {g : α → Code β} (hp : Reads p)
    (hf : ∀ a, Yields p a → Checks (f a) (g a)) : Checks (p >>= f) (p >>= g) := by
  rcases hp with ⟨a, ha⟩ | ⟨e, he⟩
  · rcases hf a ha with hundefined | heq
    · exact Or.inl ((bind_ok ha).trans hundefined)
    · exact Or.inr ((bind_ok ha).trans (heq.trans (bind_ok ha).symm))
  · exact Or.inr ((bind_error he).trans (bind_error he).symm)

theorem Checks.bind {q : Code α} (h : Checks p q) (f : α → Code β) :
    Checks (p >>= f) (q >>= f) := by
  rcases h with hundefined | heq
  · exact Or.inl (bind_error hundefined)
  · refine Or.inr ?_
    show EStateM.bind p f .live = EStateM.bind q f .live
    rw [EStateM.bind, EStateM.bind, heq]

theorem Checks.trans {q r : Code α} (h : Checks p q) (h' : Checks q r) : Checks p r := by
  rcases h with hundefined | heq
  · exact Or.inl hundefined
  · rcases h' with hundefined' | heq'
    · exact Or.inl (heq.trans hundefined')
    · exact Or.inr (heq.trans heq')

theorem Checks.yields {q : Code α} (h : Checks p q) (hp : Yields p a) : Yields q a := by
  rcases h with hundefined | heq
  · cases hundefined.symm.trans hp
  · exact heq.symm.trans hp

theorem Checks.jumps {q : Code α} (h : Checks p q) (hp : Fails p .jump) : Fails q .jump := by
  rcases h with hundefined | heq
  · cases hundefined.symm.trans hp
  · exact heq.symm.trans hp

theorem checks_mapM {ι : Type} {is : List ι} {g g' : ι → Code α} (hg : ∀ i ∈ is, Reads (g' i))
    (h : ∀ i ∈ is, Checks (g i) (g' i)) : Checks (is.mapM g) (is.mapM g') := by
  induction is with
  | nil => exact Or.inr rfl
  | cons i is ih =>
      rw [List.mapM_cons, List.mapM_cons]
      have htail := ih (fun j hj => hg j (List.mem_cons_of_mem _ hj))
        fun j hj => h j (List.mem_cons_of_mem _ hj)
      exact ((h i List.mem_cons_self).bind _).trans
        ((hg i List.mem_cons_self).checks_bind fun a _ => htail.bind _)

/-! ## The release at the end -/

theorem Yields.bind_spends (ha : Yields p a) (hf : Spends (f a)) : Spends (p >>= f) := by
  rcases hf with ⟨b, hb⟩ | hundefined
  · exact Or.inl ⟨b, (bind_ok ha).trans hb⟩
  · exact Or.inr ((bind_ok ha).trans hundefined)

theorem Spends.bind_pure (hp : Spends p) (g : α → β) : Spends (p >>= fun a => pure (g a)) := by
  rcases hp with ⟨a, ha⟩ | hundefined
  · exact Or.inl ⟨g a, bind_ok ha⟩
  · exact Or.inr (bind_error hundefined)

theorem Spends.labelled (hp : Spends p) (label : Code α) : Spends (labelled p label) := by
  rcases hp with ⟨a, ha⟩ | hundefined
  · exact Or.inl ⟨a, labelled_ok ha⟩
  · exact Or.inr (labelled_undefined hundefined)

/-- A jump to a label that releases the object, or a step that is undefined. -/
theorem Fails.spends_labelled {label : Code α} (hp : Fails p e)
    (hlabel : label .live = .ok a .once) : Spends (Owned.labelled p label) := by
  cases e with
  | jump => exact Or.inl ⟨a, (labelled_jump hp).trans hlabel⟩
  | undefined => exact Or.inr (labelled_undefined hp)

/-- A release at the end is the only one exactly where the code before it keeps the object. -/
theorem released_once_iff {kept : Prop} (hkept : kept → ∃ a, Yields p a)
    (hspent : ¬ kept → Spends p) (g : α → β) :
    (∃ b, (p >>= fun a => release >>= fun _ => pure (g a)) .live = .ok b .once) ↔ kept := by
  constructor
  · intro h
    rcases h with ⟨b, hb⟩
    by_contra hnot
    rcases hspent hnot with ⟨a, ha⟩ | hundefined
    · -- the release at the end is the second one
      cases (bind_ok ha).symm.trans hb
    · cases (bind_error hundefined).symm.trans hb
  · intro h
    rcases hkept h with ⟨a, ha⟩
    exact ⟨g a, bind_ok ha⟩

end ServerKit.Owned
