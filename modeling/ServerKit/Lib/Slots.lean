import Mathlib.Data.List.Basic
import Mathlib.Data.Set.Card
import Mathlib.Tactic.Common

/-! # Tables of keyed slots

A table is a list of slots with keys. A slot with the key `free` is empty, and the slots in
use have different keys. -/

namespace ServerKit.Slots

variable {σ κ : Type*} [DecidableEq κ] {key : σ → κ} {free k : κ} {xs : List σ} {x : σ} {i : ℕ}
  {f : σ → σ}

/-- The first slot with a key. -/
def lookup (key : σ → κ) (xs : List σ) (k : κ) : Option σ := xs.find? (key · = k)

/-- No key but `free` occurs twice. -/
def Distinct (key : σ → κ) (free : κ) (xs : List σ) : Prop :=
  ∀ (i j : ℕ) (x y : σ), xs[i]? = some x → xs[j]? = some y → key x = key y → key x ≠ free → i = j

theorem lookup_key (h : lookup key xs k = some x) : key x = k := by
  simpa using List.find?_some h

theorem lookup_mem (h : lookup key xs k = some x) : x ∈ xs := List.mem_of_find?_eq_some h

theorem lookup_eq_none_iff : lookup key xs k = none ↔ ∀ x ∈ xs, key x ≠ k := by
  simp [lookup]

theorem Distinct.lookup_eq_some_iff (h : Distinct key free xs) (hk : k ≠ free) :
    lookup key xs k = some x ↔ x ∈ xs ∧ key x = k := by
  constructor
  · intro hlookup
    exact ⟨lookup_mem hlookup, lookup_key hlookup⟩
  · intro hx
    rcases hx with ⟨hmem, rfl⟩
    cases hlookup : lookup key xs (key x) with
    | none => exact absurd rfl (lookup_eq_none_iff.mp hlookup x hmem)
    | some y =>
        rcases List.getElem?_of_mem hmem with ⟨i, hi⟩
        rcases List.getElem?_of_mem (lookup_mem hlookup) with ⟨j, hj⟩
        have hij := h i j x y hi hj (lookup_key hlookup).symm hk
        rw [hij, hj] at hi
        exact hi

/-- The slots with a key are no more than one. -/
theorem Distinct.filter_eq (h : Distinct key free xs) (hk : k ≠ free) :
    xs.filter (key · = k) = (lookup key xs k).toList := by
  have hpair : xs.Pairwise fun x y => key x = key y → key x = free := by
    rw [List.pairwise_iff_getElem]
    intro i j hi hj hij heq
    by_contra hfree
    have heq := h i j _ _ (List.getElem?_eq_getElem hi) (List.getElem?_eq_getElem hj) heq hfree
    omega
  have hhead : lookup key xs k = (xs.filter (key · = k)).head? := (List.head?_filter ..).symm
  have hfilter := hpair.filter (key · = k)
  have hkey : ∀ x ∈ xs.filter (key · = k), key x = k := by
    intro x hx
    simpa using (List.mem_filter.mp hx).2
  rw [hhead]
  cases hys : xs.filter (key · = k) with
  | nil => rfl
  | cons x ys =>
      cases ys with
      | nil => rfl
      | cons y ys =>
          rw [hys] at hfilter hkey
          have hx : key x = k := hkey x (by simp)
          have hy : key y = k := hkey y (by simp)
          have hfree := (List.pairwise_cons.mp hfilter).1 y (by simp) (hx.trans hy.symm)
          exact absurd (hx.symm.trans hfree) hk

/-- The slots of a table after the change of one. -/
theorem getElem?_modify_iff (hx : xs[i]? = some x) {j : ℕ} {y : σ} :
    (xs.modify i f)[j]? = some y ↔ j = i ∧ y = f x ∨ j ≠ i ∧ xs[j]? = some y := by
  by_cases hji : j = i
  · subst hji
    simp [hx, eq_comm]
  · rw [List.getElem?_modify_ne f xs (Ne.symm hji)]
    simp [hji]

omit [DecidableEq κ] in
theorem modify_congr {g : σ → σ} (hx : xs[i]? = some x) (hfg : f x = g x) :
    xs.modify i f = xs.modify i g := by
  apply List.ext_getElem?
  intro j
  by_cases hji : j = i
  · rw [hji, List.getElem?_modify_eq, List.getElem?_modify_eq, hx]
    exact congrArg some hfg
  · rw [List.getElem?_modify_ne f xs (Ne.symm hji), List.getElem?_modify_ne g xs (Ne.symm hji)]

/-- A slot may keep its key, become empty, or take a key that is not in use. -/
theorem Distinct.modify (h : Distinct key free xs) (hx : xs[i]? = some x)
    (hkey : key (f x) = key x ∨ key (f x) = free ∨ lookup key xs (key (f x)) = none) :
    Distinct key free (xs.modify i f) := by
  -- the changed slot against another one
  have hother : ∀ j y, j ≠ i → xs[j]? = some y → key (f x) ≠ free → key (f x) ≠ key y := by
    intro j y hji hj hfree heq
    rcases hkey with hkey | hkey | hkey
    · exact hji (h i j x y hx hj (hkey ▸ heq) (hkey ▸ hfree)).symm
    · exact hfree hkey
    · exact lookup_eq_none_iff.mp hkey y (List.mem_of_getElem? hj) heq.symm
  intro j₁ j₂ y₁ y₂ h₁ h₂ heq hfree
  rcases (getElem?_modify_iff hx).mp h₁ with ⟨rfl, rfl⟩ | ⟨hj₁, hy₁⟩
  · rcases (getElem?_modify_iff hx).mp h₂ with ⟨hj₂, -⟩ | ⟨hj₂, hy₂⟩
    · exact hj₂.symm
    · exact absurd heq (hother j₂ y₂ hj₂ hy₂ hfree)
  · rcases (getElem?_modify_iff hx).mp h₂ with ⟨rfl, rfl⟩ | ⟨-, hy₂⟩
    · exact absurd heq.symm (hother j₁ y₁ hj₁ hy₁ (heq ▸ hfree))
    · exact h j₁ j₂ y₁ y₂ hy₁ hy₂ heq hfree

/-- Its new key leads to the changed slot, its old key leads nowhere. -/
theorem Distinct.lookup_modify (h : Distinct key free xs) (hx : xs[i]? = some x)
    (hkey : key (f x) = key x ∨ key (f x) = free ∨ lookup key xs (key (f x)) = none)
    (hk : k ≠ free) :
    lookup key (xs.modify i f) k =
      if key (f x) = k then some (f x) else if key x = k then none else lookup key xs k := by
  have hself : (xs.modify i f)[i]? = some (f x) :=
    (getElem?_modify_iff hx).mpr (Or.inl ⟨rfl, rfl⟩)
  have hdistinct := h.modify hx hkey
  split
  · rename_i hnew
    exact (hdistinct.lookup_eq_some_iff hk).mpr ⟨List.mem_of_getElem? hself, hnew⟩
  · rename_i hnew
    split
    · rename_i hold
      rw [lookup_eq_none_iff]
      intro y hmem hyk
      rcases List.getElem?_of_mem hmem with ⟨j, hj⟩
      rcases (getElem?_modify_iff hx).mp hj with ⟨-, rfl⟩ | ⟨hji, hy⟩
      · exact hnew hyk
      · exact hji (h i j x y hx hy (hold.trans hyk.symm) (hold ▸ hk)).symm
    · rename_i hold
      apply Option.ext
      intro y
      rw [hdistinct.lookup_eq_some_iff hk, h.lookup_eq_some_iff hk]
      constructor
      · intro hy
        rcases List.getElem?_of_mem hy.1 with ⟨j, hj⟩
        rcases (getElem?_modify_iff hx).mp hj with ⟨-, hfx⟩ | ⟨-, hyj⟩
        · exact absurd (hfx ▸ hy.2) hnew
        · exact ⟨List.mem_of_getElem? hyj, hy.2⟩
      · intro hy
        rcases List.getElem?_of_mem hy.1 with ⟨j, hj⟩
        have hji : j ≠ i := by
          intro hji
          rw [hji, hx] at hj
          cases hj
          exact hold hy.2
        exact ⟨List.mem_of_getElem? ((getElem?_modify_iff hx).mpr (Or.inr ⟨hji, hj⟩)), hy.2⟩

/-- A change of all slots that keeps the keys. -/
theorem lookup_map (hf : ∀ x, key (f x) = key x) :
    lookup key (xs.map f) k = (lookup key xs k).map f := by
  have hkey : (fun x => decide (key x = k)) ∘ f = fun x => decide (key x = k) := by
    funext x
    rw [Function.comp_apply, hf]
  rw [lookup, lookup, List.find?_map, hkey]

omit [DecidableEq κ] in
theorem Distinct.map (h : Distinct key free xs) (hf : ∀ x, key (f x) = key x) :
    Distinct key free (xs.map f) := by
  intro i j x y hx hy heq hfree
  rw [List.getElem?_map, Option.map_eq_some_iff] at hx hy
  rcases hx with ⟨x, hx, rfl⟩
  rcases hy with ⟨y, hy, rfl⟩
  rw [hf, hf] at heq
  rw [hf] at hfree
  exact h i j x y hx hy heq hfree

omit [DecidableEq κ] in
theorem Distinct.take (h : Distinct key free xs) (n : ℕ) : Distinct key free (xs.take n) := by
  intro i j x y hx hy
  rw [List.getElem?_take, Option.ite_none_right_eq_some] at hx hy
  exact h i j x y hx.2 hy.2

/-- A table without empty slots is no longer than the set of its keys. -/
theorem Distinct.length_le_encard (h : Distinct key free xs) (hused : ∀ x ∈ xs, key x ≠ free)
    {keys : Set κ} (hkeys : ∀ x ∈ xs, key x ∈ keys) : (xs.length : ℕ∞) ≤ keys.encard := by
  have hnodup : (xs.map key).Nodup := by
    rw [List.nodup_iff_getElem?_ne_getElem?]
    intro i j hij hj heq
    rw [List.length_map] at hj
    rw [List.getElem?_map, List.getElem?_map, List.getElem?_eq_getElem hj,
      List.getElem?_eq_getElem (hij.trans hj)] at heq
    have heq := h i j _ _ (List.getElem?_eq_getElem _) (List.getElem?_eq_getElem _)
      (Option.some.inj heq) (hused _ (List.getElem_mem _))
    omega
  have hsub : ((xs.map key).toFinset : Set κ) ⊆ keys := by
    intro k hk
    rw [Finset.mem_coe, List.mem_toFinset, List.mem_map] at hk
    rcases hk with ⟨x, hx, rfl⟩
    exact hkeys x hx
  calc (xs.length : ℕ∞) = ((xs.map key).toFinset : Set κ).encard := by
        rw [Set.encard_coe_eq_coe_finsetCard, List.toFinset_card_of_nodup hnodup, List.length_map]
    _ ≤ keys.encard := Set.encard_le_encard hsub

end ServerKit.Slots
