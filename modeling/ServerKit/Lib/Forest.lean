import Mathlib.Data.List.Nodup
import Mathlib.Logic.Function.Basic
import Mathlib.Logic.Relation

/-! # Forests

Every element has a list of children. The children of one element can change: those that are new
must have been nobody's, and not have the element below them. -/

namespace ServerKit.Forest

open Relation

variable {α : Type*}

/-- The element is nobody's child. -/
def Loose (kids : α → List α) (x : α) : Prop := ∀ a, x ∉ kids a

/-- The second element is the first or below it. -/
def Under (kids : α → List α) : α → α → Prop := ReflTransGen fun a b => b ∈ kids a

/-- No element is a child twice, or below itself. -/
structure IsForest (kids : α → List α) : Prop where
  nodup : ∀ a, (kids a).Nodup
  once : ∀ a b, ∀ x ∈ kids a, x ∈ kids b → a = b
  acyclic : ∀ a, ¬ TransGen (fun a b => b ∈ kids a) a a

theorem not_under {kids : α → List α} {x a : α} (hx : kids x = []) (hne : x ≠ a) :
    ¬ Under kids x a := by
  intro h
  rcases ReflTransGen.cases_head h with heq | ⟨y, hy, -⟩
  · exact hne heq
  · rw [hx] at hy
    exact List.not_mem_nil hy

/-- New edges that close no circle. -/
theorem transGen_of_edges {r r' : α → α → Prop} {a : α}
    (hedge : ∀ u v, r' u v → r u v ∨ u = a ∧ ¬ ReflTransGen r v a) {u v : α}
    (h : TransGen r' u v) :
    TransGen r u v ∨ ∃ x, ReflTransGen r u a ∧ ¬ ReflTransGen r x a ∧ ReflTransGen r x v := by
  induction h with
  | single huv =>
      rcases hedge _ _ huv with huv | ⟨rfl, hv⟩
      · exact .inl (.single huv)
      · exact .inr ⟨_, .refl, hv, .refl⟩
  | tail _ hwv ih =>
      rcases hedge _ _ hwv with hwv | ⟨rfl, hv⟩
      · rcases ih with huw | ⟨x, hua, hxa, hxw⟩
        · exact .inl (huw.tail hwv)
        · exact .inr ⟨x, hua, hxa, hxw.tail hwv⟩
      · rcases ih with huw | ⟨x, hua, hxa, hxw⟩
        · exact .inr ⟨_, huw.to_reflTransGen, hv, .refl⟩
        · exact absurd hxw hxa

theorem acyclic_of_edges {r r' : α → α → Prop} {a : α}
    (hedge : ∀ u v, r' u v → r u v ∨ u = a ∧ ¬ ReflTransGen r v a)
    (h : ∀ u, ¬ TransGen r u u) (u : α) : ¬ TransGen r' u u := by
  intro hu
  rcases transGen_of_edges hedge hu with hu | ⟨x, hua, hxa, hxu⟩
  · exact h u hu
  · exact hxa (hxu.trans hua)

variable [DecidableEq α] {kids : α → List α}

theorem mem_update {a b x : α} {xs : List α} (h : x ∈ Function.update kids a xs b) :
    b = a ∧ x ∈ xs ∨ b ≠ a ∧ x ∈ kids b := by
  by_cases hb : b = a
  · rw [hb, Function.update_self] at h
    exact .inl ⟨hb, h⟩
  · rw [Function.update_of_ne hb] at h
    exact .inr ⟨hb, h⟩

theorem Loose.update {a x : α} (h : Loose kids x) {xs : List α} (hx : x ∉ xs) :
    Loose (Function.update kids a xs) x := by
  intro b hb
  rcases mem_update hb with ⟨-, hb⟩ | ⟨-, hb⟩
  · exact hx hb
  · exact h b hb

/-- The children of one element change. -/
theorem IsForest.update (h : IsForest kids) (a : α) {xs : List α} (hnodup : xs.Nodup)
    (hfrom : ∀ x ∈ xs, x ∈ kids a ∨ Loose kids x ∧ ¬ Under kids x a) :
    IsForest (Function.update kids a xs) := by
  have hother : ∀ b, b ≠ a → ∀ x ∈ kids b, x ∉ xs := by
    intro b hb x hx hxs
    rcases hfrom x hxs with hxa | hloose
    · exact hb (h.once b a x hx hxa)
    · exact hloose.1 b hx
  refine ⟨?_, ?_, ?_⟩
  · intro b
    by_cases hb : b = a
    · rw [hb, Function.update_self]
      exact hnodup
    · rw [Function.update_of_ne hb]
      exact h.nodup b
  · intro b c x hxb hxc
    rcases mem_update hxb with ⟨hb, hxb⟩ | ⟨hb, hxb⟩
    · rcases mem_update hxc with ⟨hc, -⟩ | ⟨hc, hxc⟩
      · rw [hb, hc]
      · exact absurd hxb (hother c hc x hxc)
    · rcases mem_update hxc with ⟨-, hxc⟩ | ⟨-, hxc⟩
      · exact absurd hxc (hother b hb x hxb)
      · exact h.once b c x hxb hxc
  · refine acyclic_of_edges (a := a) ?_ h.acyclic
    intro u v huv
    rcases mem_update huv with ⟨rfl, hv⟩ | ⟨-, hv⟩
    · exact (hfrom v hv).imp_right fun hnew => ⟨rfl, hnew.2⟩
    · exact .inl hv

/-- A child that is left out is nobody's. -/
theorem IsForest.loose_update (h : IsForest kids) {a x : α} {xs : List α} (hx : x ∈ kids a)
    (hxs : x ∉ xs) : Loose (Function.update kids a xs) x := by
  intro b hb
  rcases mem_update hb with ⟨-, hb⟩ | ⟨hne, hb⟩
  · exact hxs hb
  · exact hne (h.once b a x hb hx)

end ServerKit.Forest
