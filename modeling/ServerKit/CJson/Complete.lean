import ServerKit.CJson.Strings

/-! # Texts without a cut-off escape

On them the pointers of the parser stay in front of the zero byte, and the strings within their
blocks. -/

namespace ServerKit.CJson

open ServerKit.Json

/-! ## Complete escapes -/

/-- Behind every backslash stands another byte, and behind `\u` four hexadecimal digits. -/
def complete : List UInt8 → Bool
  | [] => true
  | b :: ptr =>
    if b = 92 then
      match ptr with
      | [] => false
      | e :: ptr => (e != 117 || (codeUnit (ptr.take 4)).isSome) && complete ptr
    else complete ptr

theorem complete_cons {b : UInt8} (h : b ≠ 92) (ptr : List UInt8) :
    complete (b :: ptr) = complete ptr := by
  rw [complete.eq_def]
  exact if_neg h

/-- The pointer moves on over bytes that are no backslashes. -/
def Passes (ptr ptr' : List UInt8) : Prop := ∃ pre, ptr = pre ++ ptr' ∧ ∀ b ∈ pre, b ≠ 92

section Passing

variable {ptr ptr' ptr'' : List UInt8}

theorem Passes.refl (ptr : List UInt8) : Passes ptr ptr := ⟨[], rfl, by simp⟩

theorem Passes.trans (h : Passes ptr ptr') (h' : Passes ptr' ptr'') : Passes ptr ptr'' := by
  obtain ⟨pre, rfl, hpre⟩ := h
  obtain ⟨pre', rfl, hpre'⟩ := h'
  refine ⟨pre ++ pre', (List.append_assoc _ _ _).symm, ?_⟩
  intro b hb
  rcases List.mem_append.mp hb with hb | hb
  · exact hpre b hb
  · exact hpre' b hb

theorem Passes.length_le (h : Passes ptr ptr') : ptr'.length ≤ ptr.length := by
  obtain ⟨pre, rfl, -⟩ := h
  simp

theorem Passes.complete (h : Passes ptr ptr') (hptr : complete ptr = true) :
    complete ptr' = true := by
  obtain ⟨pre, rfl, hpre⟩ := h
  induction pre with
  | nil => exact hptr
  | cons b pre ih =>
      rw [List.cons_append, complete_cons (hpre b List.mem_cons_self)] at hptr
      exact ih (fun b hb => hpre b (List.mem_cons_of_mem _ hb)) hptr

theorem passes_tail (h : deref ptr ≠ 92) : Passes ptr ptr.tail := by
  cases ptr with
  | nil => exact .refl []
  | cons b ptr => exact ⟨[b], rfl, by simpa [deref] using h⟩

theorem passes_dropWhile {p : UInt8 → Bool} (hp : p 92 = false) (ptr : List UInt8) :
    Passes ptr (ptr.dropWhile p) := by
  refine ⟨ptr.takeWhile p, List.takeWhile_append_dropWhile.symm, ?_⟩
  rintro b hb rfl
  rw [List.mem_takeWhile_imp hb] at hp
  cases hp

theorem passes_skip (ptr : List UInt8) : Passes ptr (skip ptr) := passes_dropWhile (by decide) ptr

theorem passes_takeDigits {α : Type} (step : α → ℕ → α) (n : α) (ptr : List UInt8) :
    Passes ptr (takeDigits step n ptr).2 := passes_dropWhile (by decide) ptr

/-- A byte that is tested for may be passed. -/
theorem passes_tail_of_eq {b : UInt8} (h : deref ptr = b) (hb : b ≠ 92) : Passes ptr ptr.tail :=
  passes_tail (h ▸ hb)

theorem length_tail_lt {b : UInt8} (h : deref ptr = b) (hb : b ≠ 0) :
    ptr.tail.length < ptr.length := by
  cases ptr with
  | nil => exact absurd h.symm hb
  | cons c ptr => simp

theorem passes_stepOver {p : UInt8 → Bool} (hp : p 92 = false) (num : List UInt8) :
    Passes num (stepOver p num) := by
  unfold stepOver
  split
  · rename_i h
    apply passes_tail
    intro hb
    rw [hb, hp] at h
    cases h
  · exact .refl num

theorem passes_skipSign (num : List UInt8) : Passes num (skipSign num) :=
  (passes_stepOver (by decide) num).trans (passes_stepOver (by decide) _)

section Numbers

variable {D : Type} (a : Doubles D)

theorem passes_readInteger (num : List UInt8) : Passes num (readInteger a num).2 := by
  unfold readInteger
  split
  · exact passes_takeDigits _ _ num
  · exact .refl num

theorem passes_readFraction (n : D) (num : List UInt8) : Passes num (readFraction a n num).2 := by
  unfold readFraction
  split
  · rename_i h
    exact (passes_tail_of_eq h.1 (by decide)).trans (passes_takeDigits _ _ _)
  · exact .refl num

theorem passes_readExponent (num : List UInt8) : Passes num (readExponent a num).2 := by
  unfold readExponent
  split
  · rename_i h
    have he : Passes num num.tail := by
      rcases h with h | h
      · exact passes_tail_of_eq h (by decide)
      · exact passes_tail_of_eq h (by decide)
    have hsign : Passes num.tail (stepOver (fun b => b == 43 || b == 45) num.tail) :=
      passes_stepOver (by decide) num.tail
    exact (he.trans hsign).trans (passes_takeDigits a.subscale 0 _)
  · exact .refl num

/-- A number has no backslashes. -/
theorem passes_readNumber (num : List UInt8) : Passes num (readNumber a num).2 := by
  simp only [readNumber]
  have hinteger := (passes_skipSign num).trans (passes_readInteger a _)
  have hfraction := hinteger.trans (passes_readFraction a (readInteger a (skipSign num)).1 _)
  exact hfraction.trans (passes_readExponent a _)

end Numbers

end Passing

/-! ## Strings -/

theorem complete_escape (e : UInt8) (ptr : List UInt8) :
    complete (92 :: e :: ptr) = ((e != 117 || (codeUnit (ptr.take 4)).isSome) && complete ptr) := by
  rw [complete.eq_def]
  rfl

/-- Behind `\u` stands a code unit, and what stands behind it is complete again. -/
theorem exists_codeUnit {ptr : List UInt8} (h : complete (92 :: 117 :: ptr) = true) :
    ∃ u uc s, ptr = u ++ s ∧ codeUnit u = some uc ∧ complete s = true := by
  rw [complete_escape, bne_self_eq_false, Bool.false_or, Bool.and_eq_true] at h
  obtain ⟨hunit, hptr⟩ := h
  obtain ⟨uc, huc⟩ := Option.isSome_iff_exists.mp hunit
  refine ⟨ptr.take 4, uc, ptr.drop 4, (List.take_append_drop 4 ptr).symm, huc, ?_⟩
  refine Passes.complete ⟨ptr.take 4, (List.take_append_drop 4 ptr).symm, ?_⟩ hptr
  obtain ⟨a, b, c, d, i, j, k, l, hu, hi, hj, hk, hl, -⟩ := codeUnit_eq_some huc
  rw [hu]
  intro x hx
  simp only [List.mem_cons, List.not_mem_nil, or_false] at hx
  rcases hx with rfl | rfl | rfl | rfl
  · exact (hexDigit_ne hi).2.1
  · exact (hexDigit_ne hj).2.1
  · exact (hexDigit_ne hk).2.1
  · exact (hexDigit_ne hl).2.1

/-- In a complete text the loops of `parse_string` come to an end within their bounds. -/
def CopiesFrom (ptr : List UInt8) : Prop :=
  ∃ n bytes rest, Copies ptr n bytes rest ∧ complete rest = true ∧ rest.length ≤ ptr.length

/-- The step at a code unit, given the loops from any shorter text on. -/
theorem copiesFrom_unit {ptr : List UInt8} (h : complete (92 :: 117 :: ptr) = true)
    (ih : ∀ s : List UInt8, s.length ≤ ptr.length → complete s = true → CopiesFrom s) :
    CopiesFrom (92 :: 117 :: ptr) := by
  obtain ⟨u, uc, s, rfl, hu, hs⟩ := exists_codeUnit h
  have hle : s.length ≤ (u ++ s).length := by simp
  have hone : ∀ bytes', unescape (117 :: (u ++ s)) = some (bytes', (117 :: (u ++ s)).drop 4) →
      bytes'.length ≤ 5 → CopiesFrom (92 :: 117 :: (u ++ s)) := by
    intro bytes' hunescape hk
    obtain ⟨n, bytes, rest, hcopies, hrest, hlen⟩ := ih s hle hs
    refine ⟨n + 5, _, rest, hcopies.unit hu hunescape hk, hrest, ?_⟩
    exact hlen.trans (hle.trans (Nat.le_add_right _ 2))
  have hunescape := unescape_eq hu s
  by_cases hinvalid : 0xDC00 ≤ uc ∧ uc ≤ 0xDFFF ∨ uc = 0
  · rw [if_pos hinvalid] at hunescape
    exact hone [] hunescape (Nat.zero_le 5)
  rw [if_neg hinvalid] at hunescape
  by_cases hhigh : 0xD800 ≤ uc ∧ uc ≤ 0xDBFF
  · rw [if_pos hhigh] at hunescape
    by_cases hsecond : deref s ≠ 92 ∨ deref s.tail ≠ 117
    · rw [if_pos hsecond] at hunescape
      exact hone [] hunescape (Nat.zero_le 5)
    · -- a second unit follows
      rw [not_or, not_not, not_not] at hsecond
      obtain ⟨s', rfl⟩ : ∃ s', s = 92 :: 117 :: s' := by
        rcases s with _ | ⟨b, _ | ⟨c, s'⟩⟩
        · exact absurd hsecond.1 (by decide)
        · exact absurd hsecond.2 (by decide : ¬ (0 : UInt8) = 117)
        · exact ⟨s', by rw [show b = 92 from hsecond.1, show c = 117 from hsecond.2]⟩
      obtain ⟨v, uc2, s'', rfl, hv, hs''⟩ := exists_codeUnit hs
      have hle' : s''.length ≤ (u ++ 92 :: 117 :: (v ++ s'')).length := by
        simp only [List.length_append, List.length_cons]
        omega
      obtain ⟨n, bytes, rest, hcopies, hrest, hlen⟩ := ih s'' hle' hs''
      refine ⟨n + 10, _, rest, hcopies.pair hu hv hhigh rfl, hrest, ?_⟩
      exact hlen.trans (hle'.trans (Nat.le_add_right _ 2))
  · rw [if_neg hhigh] at hunescape
    refine hone _ hunescape ?_
    rw [length_utf8Loop _ _ _ (utf8Length_mem uc).1]
    exact (utf8Length_mem uc).2.trans (by decide)

theorem copiesFrom (ptr : List UInt8) (h : complete ptr = true) : CopiesFrom ptr := by
  induction hn : ptr.length using Nat.strong_induction_on generalizing ptr with
  | _ k ih =>
      subst hn
      by_cases hend : deref ptr = 34 ∨ deref ptr = 0
      · exact ⟨0, [], ptr, copies_end hend, h, Nat.le_refl _⟩
      rcases ptr with _ | ⟨b, ptr⟩
      · exact absurd (Or.inr rfl) hend
      by_cases hb : b = 92
      · rcases ptr with _ | ⟨e, ptr⟩
        · rw [hb] at h
          cases h
        subst hb
        have hshorter : ∀ s : List UInt8, s.length ≤ ptr.length → complete s = true →
            CopiesFrom s := by
          intro s hs hcomplete
          refine ih s.length ?_ s hcomplete rfl
          simp only [List.length_cons]
          omega
        by_cases he : e = 117
        · subst he
          exact copiesFrom_unit h hshorter
        · have hptr : complete ptr = true := by
            rw [complete_escape, Bool.and_eq_true] at h
            exact h.2
          obtain ⟨n, bytes, rest, hcopies, hrest, hlen⟩ := hshorter ptr (Nat.le_refl _) hptr
          obtain ⟨x, -, hx⟩ := hcopies.short he
          exact ⟨n + 1, _, rest, hx, hrest, hlen.trans (Nat.le_add_right _ 2)⟩
      · rw [complete_cons hb] at h
        obtain ⟨n, bytes, rest, hcopies, hrest, hlen⟩ := ih ptr.length (by simp) ptr h rfl
        have hplain : b ≠ 34 ∧ b ≠ 92 ∧ b ≠ 0 := by
          rw [not_or] at hend
          exact ⟨hend.1, hb, hend.2⟩
        exact ⟨n + 1, _, rest, hcopies.plain hplain, hrest, hlen.trans (Nat.le_succ _)⟩

end ServerKit.CJson
