import Mathlib.Data.List.Nodup
import Mathlib.Data.List.Pairwise
import Mathlib.Data.List.Perm.Basic
import Mathlib.Data.Nat.ModEq

/-! # The contract of a system allocator

A trace, the latest event first, lists the regions that a program has obtained from the
system and the pointers that it has passed to `free`. -/

namespace ServerKit.SystemHeap

structure Region where
  base : ℕ
  len : ℕ
  deriving DecidableEq, Repr

/-- One region ends before the other begins. -/
def Region.Disjoint (r q : Region) : Prop := r.base + r.len ≤ q.base ∨ q.base + q.len ≤ r.base

def Region.Within (r q : Region) : Prop := q.base ≤ r.base ∧ r.base + r.len ≤ q.base + q.len

/-- Disjoint, and empty regions have addresses of their own. -/
def Region.Apart (r q : Region) : Prop :=
  r.base + max r.len 1 ≤ q.base ∨ q.base + max q.len 1 ≤ r.base

instance (r q : Region) : Decidable (r.Disjoint q) := inferInstanceAs (Decidable (_ ∨ _))

instance (r q : Region) : Decidable (r.Within q) := inferInstanceAs (Decidable (_ ∧ _))

instance (r q : Region) : Decidable (r.Apart q) := inferInstanceAs (Decidable (_ ∨ _))

inductive Event where
  | obtain (alignment : ℕ) (region : Region)
  | free (ptr : ℕ)
  deriving DecidableEq, Repr

/-- The regions that have been obtained and not freed. -/
def live : List Event → List Region
  | [] => []
  | .obtain _ r :: trace => r :: live trace
  | .free ptr :: trace => (live trace).eraseP (·.base == ptr)

/-- A region that the system may hand out: aligned, in the address space, and apart from
the live ones. -/
structure Fresh (alignment : ℕ) (r : Region) (regions : List Region) : Prop where
  nonnull : r.base ≠ 0
  aligned : alignment ∣ r.base
  bounded : r.base + r.len < 2 ^ 64
  apart : ∀ q ∈ regions, r.Apart q

instance (alignment : ℕ) (r : Region) (regions : List Region) :
    Decidable (Fresh alignment r regions) :=
  decidable_of_iff (r.base ≠ 0 ∧ alignment ∣ r.base ∧ r.base + r.len < 2 ^ 64 ∧
    ∀ q ∈ regions, r.Apart q) ⟨fun ⟨h₁, h₂, h₃, h₄⟩ => ⟨h₁, h₂, h₃, h₄⟩,
    fun ⟨h₁, h₂, h₃, h₄⟩ => ⟨h₁, h₂, h₃, h₄⟩⟩

/-- The system keeps its contract. -/
def Lawful : List Event → Prop
  | [] => True
  | .obtain alignment r :: trace => Fresh alignment r (live trace) ∧ Lawful trace
  | .free _ :: trace => Lawful trace

instance : (trace : List Event) → Decidable (Lawful trace)
  | [] => .isTrue trivial
  | .obtain _ _ :: trace =>
    have := instDecidableLawful trace
    inferInstanceAs (Decidable (_ ∧ _))
  | .free _ :: trace => instDecidableLawful trace

/-- The program frees nothing but `NULL` and live regions. -/
def FreesLive : List Event → Prop
  | [] => True
  | .obtain _ _ :: trace => FreesLive trace
  | .free ptr :: trace => (ptr = 0 ∨ ptr ∈ (live trace).map (·.base)) ∧ FreesLive trace

/-! ## Regions -/

variable {r q : Region} {trace : List Event} {ptr : ℕ}

theorem Region.Disjoint.symm (h : r.Disjoint q) : q.Disjoint r := Or.symm h

theorem Region.Apart.symm (h : r.Apart q) : q.Apart r := Or.symm h

instance : Std.Symm Region.Apart := ⟨fun _ _ => Region.Apart.symm⟩

theorem Region.Apart.disjoint (h : r.Apart q) : r.Disjoint q := by
  rw [Region.Apart] at h
  rw [Region.Disjoint]
  omega

theorem Region.Apart.base_ne (h : r.Apart q) : r.base ≠ q.base := by
  rw [Region.Apart] at h
  omega

theorem Region.Within.refl (r : Region) : r.Within r := ⟨Nat.le_refl _, Nat.le_refl _⟩

theorem Region.Within.trans {o : Region} (ho : o.Within r) (hr : r.Within q) : o.Within q :=
  ⟨Nat.le_trans hr.1 ho.1, Nat.le_trans ho.2 hr.2⟩

theorem Region.Disjoint.within {r' q' : Region} (h : r.Disjoint q) (hr : r'.Within r)
    (hq : q'.Within q) : r'.Disjoint q' := by
  rw [Region.Disjoint] at h ⊢
  rw [Region.Within] at hr hq
  omega

/-! ## Packed regions -/

/-- No two of the regions overlap. -/
def Packed (regions : List Region) : Prop := regions.Pairwise Region.Disjoint

section Packed

variable {l l' parts : List Region}

theorem Packed.perm (h : Packed l) (hperm : l.Perm l') : Packed l' :=
  (hperm.pairwise_iff fun h => Region.Disjoint.symm h).mp h

theorem Packed.subperm (h : Packed l) (hsub : l'.Subperm l) : Packed l' := by
  obtain ⟨l'', hperm, hsublist⟩ := hsub
  exact Packed.perm (List.Pairwise.sublist hsublist h) hperm

theorem packed_pair : Packed [r, q] ↔ r.Disjoint q := List.pairwise_pair

/-- Regions that are packed into one of the others are packed with the rest. -/
theorem Packed.split (h : Packed (r :: l)) (hparts : Packed parts)
    (hwithin : ∀ o ∈ parts, o.Within r) : Packed (parts ++ l) := by
  apply List.pairwise_append.mpr ⟨hparts, List.Pairwise.tail h, ?_⟩
  intro o ho o' ho'
  exact (List.rel_of_pairwise_cons h ho').within (hwithin o ho) (.refl o')

/-- Every region may be replaced by its parts. -/
theorem Packed.flatMap {α : Type*} {whole : α → Region} {parts : α → List Region} {xs : List α}
    (h : Packed (xs.map whole ++ l)) (hparts : ∀ x ∈ xs, Packed (parts x))
    (hwithin : ∀ x ∈ xs, ∀ o ∈ parts x, o.Within (whole x)) :
    Packed (xs.flatMap parts ++ l) := by
  induction xs generalizing l with
  | nil => exact h
  | cons x xs ih =>
    rw [List.map_cons, List.cons_append] at h
    have hx := h.split (hparts x List.mem_cons_self) (hwithin x List.mem_cons_self)
    have hrest := ih (hx.perm (List.perm_append_comm_assoc _ _ _))
      (fun y hy => hparts y (List.mem_cons_of_mem _ hy))
      fun y hy => hwithin y (List.mem_cons_of_mem _ hy)
    rw [List.flatMap_cons, List.append_assoc]
    exact hrest.perm (List.perm_append_comm_assoc _ _ _)

end Packed

/-! ## Live regions -/

theorem live_free : live (.free ptr :: trace) = (live trace).eraseP (·.base == ptr) := rfl

theorem bases_free :
    (live (.free ptr :: trace)).map (·.base) = ((live trace).map (·.base)).erase ptr := by
  rw [live_free, List.erase_eq_eraseP', List.eraseP_map]
  rfl

theorem mem_of_mem_live_free (h : r ∈ live (.free ptr :: trace)) : r ∈ live trace :=
  List.mem_of_mem_eraseP h

theorem Lawful.pairwise_apart (h : Lawful trace) : (live trace).Pairwise Region.Apart := by
  induction trace with
  | nil => exact .nil
  | cons event trace ih =>
    cases event with
    | obtain alignment r => exact .cons h.1.apart (ih h.2)
    | free ptr => exact (ih h).sublist List.eraseP_sublist

theorem Lawful.apart (h : Lawful trace) (hr : r ∈ live trace) (hq : q ∈ live trace)
    (hne : r ≠ q) : r.Apart q :=
  h.pairwise_apart.forall hr hq hne

theorem Lawful.eq_of_base_eq (h : Lawful trace) (hr : r ∈ live trace) (hq : q ∈ live trace)
    (hbase : r.base = q.base) : r = q := by
  by_contra hne
  exact (h.apart hr hq hne).base_ne hbase

/-- When regions are freed, a region survives with its base. -/
theorem Lawful.mem_live_of_base {trace' : List Event} (h : Lawful trace)
    (hsub : ∀ q ∈ live trace', q ∈ live trace) (hr : r ∈ live trace)
    (hbase : r.base ∈ (live trace').map (·.base)) : r ∈ live trace' := by
  obtain ⟨q, hq, heq⟩ := List.mem_map.mp hbase
  rwa [← h.eq_of_base_eq (hsub q hq) hr heq]

theorem Lawful.nodup (h : Lawful trace) : ((live trace).map (·.base)).Nodup :=
  List.pairwise_map.mpr (h.pairwise_apart.imp Region.Apart.base_ne)

theorem Lawful.nonnull (h : Lawful trace) (hr : r ∈ live trace) : r.base ≠ 0 := by
  induction trace with
  | nil => cases hr
  | cons event trace ih =>
    cases event with
    | obtain alignment q =>
      rcases List.mem_cons.mp hr with rfl | hr
      · exact h.1.nonnull
      · exact ih h.2 hr
    | free ptr => exact ih h (mem_of_mem_live_free hr)

theorem Lawful.bounded (h : Lawful trace) (hr : r ∈ live trace) : r.base + r.len < 2 ^ 64 := by
  induction trace with
  | nil => cases hr
  | cons event trace ih =>
    cases event with
    | obtain alignment q =>
      rcases List.mem_cons.mp hr with rfl | hr
      · exact h.1.bounded
      · exact ih h.2 hr
    | free ptr => exact ih h (mem_of_mem_live_free hr)

theorem Lawful.of_suffix {trace' : List Event} (h : Lawful trace) (hsuffix : trace' <:+ trace) :
    Lawful trace' := by
  induction trace with
  | nil => rwa [List.suffix_nil.mp hsuffix]
  | cons event trace ih =>
    rcases List.suffix_cons_iff.mp hsuffix with rfl | hrest
    · exact h
    · cases event with
      | obtain alignment q => exact ih h.2 hrest
      | free ptr => exact ih h hrest

theorem Lawful.ne_zero_of_mem (h : Lawful trace) (hptr : ptr ∈ (live trace).map (·.base)) :
    ptr ≠ 0 := by
  obtain ⟨r, hr, rfl⟩ := List.mem_map.mp hptr
  exact h.nonnull hr

end ServerKit.SystemHeap
