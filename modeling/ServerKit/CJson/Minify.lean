import ServerKit.CJson.Parse

/-! # `cJSON_Minify`

White space and comments are taken out of a text in its own memory. What is written never overtakes
what is read, and the call stays within the memory just when no string and no comment is left
open. -/

namespace ServerKit.CJson

open ServerKit.CString ServerKit.Memory

/-! ## The loops -/

/-- `while (*json && *json!='\n') json++;` -/
def skipLine (mem : List UInt8) : ℕ → ℕ → Option ℕ
  | 0, _ => none
  | fuel + 1, json =>
    mem[json]?.bind fun b => if b ≠ 0 ∧ b ≠ 10 then skipLine mem fuel (json + 1) else some json

/-- `while (*json && !(*json=='*' && json[1]=='/')) json++;` -/
def skipComment (mem : List UInt8) : ℕ → ℕ → Option ℕ
  | 0, _ => none
  | fuel + 1, json =>
    mem[json]?.bind fun b =>
      if b ≠ 0 ∧ ¬ (b = 42 ∧ mem[json + 1]? = some 47) then skipComment mem fuel (json + 1)
      else some json

/-- `*into++=*json++;`, with the memory after it. -/
def copyByte (mem : List UInt8) (json into : ℕ) : Option (List UInt8) :=
  mem[json]?.bind fun b => store mem into [b]

/-- The inner loop of a string, with the memory after it and the two pointers. -/
def copyString : ℕ → List UInt8 → ℕ → ℕ → Option (List UInt8 × ℕ × ℕ)
  | 0, _, _, _ => none
  | fuel + 1, mem, json, into =>
    mem[json]?.bind fun b =>
      if b = 0 ∨ b = 34 then some (mem, json, into)
      else if b = 92 then
        (copyByte mem json into).bind fun mem =>
          (copyByte mem (json + 1) (into + 1)).bind fun mem =>
            copyString fuel mem (json + 2) (into + 2)
      else (copyByte mem json into).bind fun mem => copyString fuel mem (json + 1) (into + 1)

/-- The loop of `cJSON_Minify` and the zero byte that is written behind it. -/
def minifyLoop : ℕ → List UInt8 → ℕ → ℕ → Option (List UInt8)
  | 0, _, _, _ => none
  | fuel + 1, mem, json, into =>
    mem[json]?.bind fun b =>
      if b = 0 then store mem into [0]
      else if b = 32 ∨ b = 9 ∨ b = 13 ∨ b = 10 then minifyLoop fuel mem (json + 1) into
      else if b = 47 ∧ mem[json + 1]? = some 47 then
        (skipLine mem (mem.length + 1) json).bind fun json => minifyLoop fuel mem json into
      else if b = 47 ∧ mem[json + 1]? = some 42 then
        (skipComment mem (mem.length + 1) json).bind fun json =>
          minifyLoop fuel mem (json + 2) into
      else if b = 34 then
        (copyByte mem json into).bind fun mem =>
          (copyString (mem.length + 1) mem (json + 1) (into + 1)).bind fun r =>
            (copyByte r.1 r.2.1 r.2.2).bind fun mem =>
              minifyLoop fuel mem (r.2.1 + 1) (r.2.2 + 1)
      else (copyByte mem json into).bind fun mem => minifyLoop fuel mem (json + 1) (into + 1)

/-- `cJSON_Minify` on a memory area, with the area after it. -/
def cJSONMinify (mem : List UInt8) : Option (List UInt8) :=
  minifyLoop (mem.length + 1) mem 0 0

/-! ## What is left of a text -/

/-- The text behind the next `*/`. -/
def commentEnd : List UInt8 → Option (List UInt8)
  | [] => none
  | b :: s => if b = 42 ∧ deref s = 47 then some s.tail else commentEnd s

/-- A string up to its closing quote, and the text behind it. -/
def stringEnd : List UInt8 → Option (List UInt8 × List UInt8)
  | [] => none
  | b :: s =>
    if b = 34 then some ([34], s)
    else if b = 92 then
      match s with
      | [] => none
      | e :: s => (stringEnd s).map fun r => (92 :: e :: r.1, r.2)
    else (stringEnd s).map fun r => (b :: r.1, r.2)

/-- A text in which all strings and comments are closed, and the text without white space and
comments. As the end of a comment is looked for from its first slash on, `/*/` counts as a closed
one. -/
inductive Minifies : List UInt8 → List UInt8 → Prop
  | nil : Minifies [] []
  | blank {b s t} : b = 32 ∨ b = 9 ∨ b = 13 ∨ b = 10 → Minifies s t → Minifies (b :: s) t
  | line {s t} : Minifies (s.dropWhile (· ≠ 10)) t → Minifies (47 :: 47 :: s) t
  | comment {s rest t} : deref s ≠ 47 → commentEnd s = some rest → Minifies rest t →
      Minifies (47 :: 42 :: s) t
  | shortComment {s t} : Minifies s t → Minifies (47 :: 42 :: 47 :: s) t
  | string {s q rest t} : stringEnd s = some (q, rest) → Minifies rest t →
      Minifies (34 :: s) (34 :: (q ++ t))
  | other {b s t} : b ∉ [32, 9, 13, 10, 34] → (b = 47 → deref s ≠ 47 ∧ deref s ≠ 42) →
      Minifies s t → Minifies (b :: s) (b :: t)

/-- Where a comment ends for the loop, which starts at the slash. -/
theorem commentEnd_slash (s : List UInt8) :
    commentEnd (47 :: 42 :: s) = if deref s = 47 then some s.tail else commentEnd s := by
  have hstar : ¬ ((47 : UInt8) = 42 ∧ deref (42 :: s) = 47) := fun h => absurd h.1 (by decide)
  rw [commentEnd, if_neg hstar, commentEnd]
  simp only [true_and]

/-! ## The length of the memory -/

theorem copyByte_length {mem mem' : List UInt8} {json into : ℕ}
    (h : copyByte mem json into = some mem') : mem'.length = mem.length := by
  obtain ⟨b, -, hstore⟩ := Option.bind_eq_some_iff.mp h
  exact store_length hstore

theorem copyString_length {fuel : ℕ} {mem : List UInt8} {json into : ℕ}
    {r : List UInt8 × ℕ × ℕ} (h : copyString fuel mem json into = some r) :
    r.1.length = mem.length := by
  induction fuel generalizing mem json into with
  | zero => cases h
  | succ fuel ih =>
      obtain ⟨b, -, h⟩ := Option.bind_eq_some_iff.mp h
      split at h
      · cases h
        rfl
      · split at h
        · obtain ⟨mem₁, hcopy₁, h⟩ := Option.bind_eq_some_iff.mp h
          obtain ⟨mem₂, hcopy₂, h⟩ := Option.bind_eq_some_iff.mp h
          exact (ih h).trans ((copyByte_length hcopy₂).trans (copyByte_length hcopy₁))
        · obtain ⟨mem₁, hcopy, h⟩ := Option.bind_eq_some_iff.mp h
          exact (ih h).trans (copyByte_length hcopy)

theorem minifyLoop_length {fuel : ℕ} {mem mem' : List UInt8} {json into : ℕ}
    (h : minifyLoop fuel mem json into = some mem') : mem'.length = mem.length := by
  induction fuel generalizing mem json into with
  | zero => cases h
  | succ fuel ih =>
      obtain ⟨b, -, h⟩ := Option.bind_eq_some_iff.mp h
      split_ifs at h
      · exact store_length h
      · exact ih h
      · obtain ⟨json', -, h⟩ := Option.bind_eq_some_iff.mp h
        exact ih h
      · obtain ⟨json', -, h⟩ := Option.bind_eq_some_iff.mp h
        exact ih h
      · obtain ⟨mem₁, hcopy₁, h⟩ := Option.bind_eq_some_iff.mp h
        obtain ⟨r, hstring, h⟩ := Option.bind_eq_some_iff.mp h
        obtain ⟨mem₂, hcopy₂, h⟩ := Option.bind_eq_some_iff.mp h
        exact (ih h).trans ((copyByte_length hcopy₂).trans ((copyString_length hstring).trans
          (copyByte_length hcopy₁)))
      · obtain ⟨mem₁, hcopy, h⟩ := Option.bind_eq_some_iff.mp h
        exact (ih h).trans (copyByte_length hcopy)

/-! ## Reading and writing in one area -/

section Area

variable {out gap s : List UInt8} {b : UInt8}

/-- The byte behind a prefix. -/
theorem getElem?_behind (pre : List UInt8) (b : UInt8) (s : List UInt8) :
    (pre ++ b :: s)[pre.length]? = some b := by
  rw [List.getElem?_append_right (Nat.le_refl _), Nat.sub_self, List.getElem?_cons_zero]

/-- The byte behind that one, which may be the zero byte. -/
theorem getElem?_behind_succ (pre : List UInt8) (b : UInt8) (s rest : List UInt8) :
    (pre ++ b :: (s ++ 0 :: rest))[pre.length + 1]? = some (deref s) := by
  rw [List.getElem?_append_right (Nat.le_add_right _ 1), Nat.add_sub_cancel_left,
    List.getElem?_cons_succ]
  cases s with
  | nil => rfl
  | cons c s => rfl

/-- Copying a byte down does not touch what is still to be read. -/
theorem copyByte_eq (out gap s : List UInt8) (b : UInt8) :
    ∃ gap' : List UInt8, gap'.length = gap.length ∧
      copyByte (out ++ (gap ++ b :: s)) (out.length + gap.length) out.length =
        some ((out ++ [b]) ++ (gap' ++ s)) := by
  have hread : (out ++ (gap ++ b :: s))[out.length + gap.length]? = some b := by
    rw [← List.append_assoc, ← List.length_append]
    exact getElem?_behind _ b s
  have hstore : ∀ tail : List UInt8, ∀ c, store (out ++ c :: tail) out.length [b] =
      some (out ++ b :: tail) := by
    intro tail c
    rw [store_eq_some (by simp)]
    simp
  rw [copyByte, hread, Option.bind_some]
  cases gap with
  | nil =>
      refine ⟨[], rfl, ?_⟩
      rw [List.nil_append, hstore]
      simp
  | cons c gap =>
      refine ⟨gap ++ [b], by simp, ?_⟩
      rw [List.cons_append, hstore]
      simp

/-- What a loop works on: what was written, what was read already, and what is left, which starts
at `json`. -/
def area (out gap s : List UInt8) : List UInt8 := out ++ (gap ++ s)

theorem area_eq (out gap s : List UInt8) : area out gap s = (out ++ gap) ++ s :=
  (List.append_assoc out gap s).symm

theorem length_area (out gap s : List UInt8) :
    (area out gap s).length = out.length + gap.length + s.length := by
  rw [area_eq, List.length_append, List.length_append]

/-- The byte is passed without being copied. -/
theorem area_cons (out gap : List UInt8) (b : UInt8) (s : List UInt8) :
    area out gap (b :: s) = area out (gap ++ [b]) s := by
  simp [area]

theorem getElem?_area (out gap : List UInt8) (b : UInt8) (s : List UInt8) :
    (area out gap (b :: s))[out.length + gap.length]? = some b := by
  rw [area_eq, ← List.length_append]
  exact getElem?_behind _ b s

theorem getElem?_area_succ (out gap : List UInt8) (b : UInt8) (s rest : List UInt8) :
    (area out gap (b :: (s ++ 0 :: rest)))[out.length + gap.length + 1]? = some (deref s) := by
  rw [area_eq, ← List.length_append]
  exact getElem?_behind_succ _ b s rest

/-! ## The loops that only read -/

theorem skipLine_eq (pre : List UInt8) {s : List UInt8} (hs : (0 : UInt8) ∉ s) (rest : List UInt8)
    {fuel : ℕ} (hfuel : s.length < fuel) :
    skipLine (pre ++ (s ++ 0 :: rest)) fuel pre.length =
      some (pre.length + (s.takeWhile (· ≠ 10)).length) := by
  induction s generalizing pre fuel with
  | nil =>
      obtain ⟨fuel, rfl⟩ := Nat.exists_eq_add_one_of_ne_zero (Nat.ne_zero_of_lt hfuel)
      rw [skipLine, List.nil_append, getElem?_behind, Option.bind_some,
        if_neg (fun h => h.1 rfl)]
      rfl
  | cons b s ih =>
      obtain ⟨fuel, rfl⟩ := Nat.exists_eq_add_one_of_ne_zero (Nat.ne_zero_of_lt hfuel)
      rw [List.mem_cons, not_or] at hs
      rw [skipLine, List.cons_append, getElem?_behind, Option.bind_some]
      by_cases hb : b = 10
      · rw [if_neg (fun h => h.2 hb), List.takeWhile_cons_of_neg (by simp [hb])]
        rfl
      · have hrest := ih (pre ++ [b]) hs.2 (Nat.lt_of_succ_lt_succ hfuel)
        rw [List.length_append, List.length_singleton, List.append_assoc] at hrest
        rw [if_pos ⟨Ne.symm hs.1, hb⟩, List.takeWhile_cons_of_pos (by simp [hb]),
          List.length_cons, ← Nat.add_assoc, Nat.add_right_comm]
        exact hrest

/-- The end of a comment is found, or the zero byte when it is not closed. -/
theorem skipComment_eq (pre : List UInt8) {s : List UInt8} (hs : (0 : UInt8) ∉ s)
    (rest : List UInt8) {fuel : ℕ} (hfuel : s.length < fuel) :
    ∃ skipped behind, s = skipped ++ behind ∧
      skipComment (pre ++ (s ++ 0 :: rest)) fuel pre.length = some (pre.length + skipped.length) ∧
      match commentEnd s with
      | none => behind = []
      | some r => behind = 42 :: 47 :: r := by
  induction s generalizing pre fuel with
  | nil =>
      obtain ⟨fuel, rfl⟩ := Nat.exists_eq_add_one_of_ne_zero (Nat.ne_zero_of_lt hfuel)
      refine ⟨[], [], rfl, ?_, rfl⟩
      rw [skipComment, List.nil_append, getElem?_behind, Option.bind_some,
        if_neg (fun h => h.1 rfl)]
      rfl
  | cons b s ih =>
      obtain ⟨fuel, rfl⟩ := Nat.exists_eq_add_one_of_ne_zero (Nat.ne_zero_of_lt hfuel)
      rw [List.mem_cons, not_or] at hs
      rw [skipComment, List.cons_append, getElem?_behind, getElem?_behind_succ, Option.bind_some,
        commentEnd]
      by_cases hend : b = 42 ∧ deref s = 47
      · obtain ⟨rfl, hslash⟩ := hend
        obtain ⟨s', rfl⟩ : ∃ s', s = 47 :: s' := by
          cases s with
          | nil => exact absurd hslash (by decide)
          | cons c s => exact ⟨s, by rw [show c = 47 from hslash]⟩
        refine ⟨[], 42 :: 47 :: s', rfl, ?_, ?_⟩
        · rw [if_neg (fun h => h.2 ⟨rfl, rfl⟩)]
          rfl
        · rw [if_pos ⟨rfl, rfl⟩]
          rfl
      · obtain ⟨skipped, behind, heq, hrun, hbehind⟩ :=
          ih (pre ++ [b]) hs.2 (Nat.lt_of_succ_lt_succ hfuel)
        rw [List.length_append, List.length_singleton, List.append_assoc] at hrun
        refine ⟨b :: skipped, behind, by rw [heq, List.cons_append], ?_, ?_⟩
        · rw [if_pos ⟨Ne.symm hs.1, by simpa using hend⟩, List.length_cons, ← Nat.add_assoc,
            Nat.add_right_comm]
          exact hrun
        · rw [if_neg hend]
          exact hbehind

/-! ## Strings -/

/-- `copyByte` on the area of a loop, with the pointers behind it. -/
theorem copyByte_area (out gap : List UInt8) (b : UInt8) (s : List UInt8) :
    ∃ gap' : List UInt8, out.length + gap.length + 1 = (out ++ [b]).length + gap'.length ∧
      out.length + 1 = (out ++ [b]).length ∧
      copyByte (area out gap (b :: s)) (out.length + gap.length) out.length =
        some (area (out ++ [b]) gap' s) := by
  obtain ⟨gap', hlen, hcopy⟩ := copyByte_eq out gap s b
  refine ⟨gap', ?_, by simp, hcopy⟩
  rw [hlen, List.length_append, List.length_singleton, Nat.add_right_comm]

/-- Where the loop over a string ends: in front of the closing quote, and if there is none at the
zero byte or not at all. -/
def CopiesString (s out rest : List UInt8) (r : Option (List UInt8 × ℕ × ℕ)) : Prop :=
  match stringEnd s with
  | some (q, behind) => ∃ q' gap' : List UInt8, q = q' ++ [34] ∧ s = q' ++ 34 :: behind ∧
      r = some (area (out ++ q') gap' (34 :: (behind ++ 0 :: rest)),
        (out ++ q').length + gap'.length, (out ++ q').length)
  | none => rest = [] → ∀ end', r = some end' →
      ∃ out' gap', end' = (area out' gap' [0], out'.length + gap'.length, out'.length)

/-- Bytes in front of a string that belong to it. -/
theorem CopiesString.cons {s out rest x : List UInt8} {r : Option (List UInt8 × ℕ × ℕ)}
    (h : CopiesString s (out ++ x) rest r)
    (hx : stringEnd (x ++ s) = (stringEnd s).map fun e => (x ++ e.1, e.2)) :
    CopiesString (x ++ s) out rest r := by
  unfold CopiesString at h ⊢
  rw [hx]
  cases hend : stringEnd s with
  | none =>
      rw [hend] at h
      exact h
  | some e =>
      rw [hend] at h
      obtain ⟨q', gap₁, hq, hs, hr⟩ := h
      refine ⟨x ++ q', gap₁, ?_, ?_, ?_⟩
      · rw [hq, List.append_assoc]
      · rw [hs, List.append_assoc]
      · rw [hr, List.append_assoc]

theorem copyString_eq {s : List UInt8} (hs : (0 : UInt8) ∉ s) (out gap rest : List UInt8)
    {fuel : ℕ} (hfuel : s.length < fuel) :
    CopiesString s out rest
      (copyString fuel (area out gap (s ++ 0 :: rest)) (out.length + gap.length) out.length) := by
  induction fuel generalizing s out gap with
  | zero => exact absurd hfuel (Nat.not_lt_zero _)
  | succ fuel ih =>
      cases s with
      | nil =>
          rw [copyString, List.nil_append, getElem?_area, Option.bind_some, if_pos (.inl rfl)]
          rintro rfl r hr
          cases hr
          exact ⟨out, gap, rfl⟩
      | cons b s =>
          rw [List.mem_cons, not_or] at hs
          rw [List.cons_append, copyString, getElem?_area, Option.bind_some]
          by_cases hquote : b = 34
          · subst hquote
            have hend : stringEnd (34 :: s) = some ([34], s) := by
              rw [stringEnd.eq_def]
              rfl
            rw [if_pos (.inr rfl), CopiesString, hend]
            exact ⟨[], gap, rfl, rfl, by rw [List.append_nil]⟩
          rw [if_neg (not_or_intro (Ne.symm hs.1) hquote)]
          obtain ⟨gap₁, hjson, hinto, hcopy⟩ := copyByte_area out gap b (s ++ 0 :: rest)
          rw [hcopy, Option.bind_some, Option.bind_some, hjson, hinto]
          by_cases hbackslash : b = 92
          · subst hbackslash
            rw [if_pos rfl]
            cases s with
            | nil =>
                -- the zero byte is copied, and the byte behind it would be read next
                obtain ⟨gap₂, hjson', -, hcopy'⟩ := copyByte_area (out ++ [92]) gap₁ 0 rest
                rw [List.nil_append, hcopy', Option.bind_some]
                rintro rfl r hr
                have hend : (area (out ++ [92] ++ [0]) gap₂ [])[out.length + gap.length + 2]? =
                    none := by
                  apply List.getElem?_eq_none
                  rw [length_area, List.length_nil]
                  omega
                cases fuel with
                | zero => cases hr
                | succ fuel =>
                    rw [copyString, hend] at hr
                    cases hr
            | cons e s =>
                rw [List.mem_cons, not_or] at hs
                obtain ⟨gap₂, hjson', hinto', hcopy'⟩ :=
                  copyByte_area (out ++ [92]) gap₁ e (s ++ 0 :: rest)
                have hjson₂ : out.length + gap.length + 2 =
                    (out ++ [92] ++ [e]).length + gap₂.length := by omega
                have hinto₂ : out.length + 2 = (out ++ [92] ++ [e]).length := by omega
                rw [List.cons_append, hcopy', Option.bind_some, hjson₂, hinto₂]
                simp only [List.length_cons] at hfuel
                have hrest := ih hs.2.2 (out ++ [92] ++ [e]) gap₂ (by omega)
                rw [List.append_assoc out] at hrest ⊢
                exact hrest.cons rfl
          · rw [if_neg hbackslash]
            simp only [List.length_cons] at hfuel
            refine (ih hs.2 (out ++ [b]) gap₁ (by omega)).cons ?_
            rw [List.singleton_append, stringEnd.eq_def]
            simp only [if_neg hquote, if_neg hbackslash]
            rfl

/-! ## The rounds of the loop -/

/-- The loop with `json` at the start of `s`, and `into` behind `out`. -/
def run (fuel : ℕ) (out gap s : List UInt8) : Option (List UInt8) :=
  minifyLoop fuel (area out gap s) (out.length + gap.length) out.length

section Rounds

variable (fuel : ℕ) (out gap rest : List UInt8)

theorem run_zero :
    ∃ gap', run (fuel + 1) out gap (0 :: rest) = some (area out (0 :: gap') rest) := by
  rw [run, minifyLoop, getElem?_area, Option.bind_some, if_pos rfl]
  cases gap with
  | nil =>
      refine ⟨[], ?_⟩
      rw [store_eq_some (by simp [area])]
      simp [area]
  | cons c gap =>
      refine ⟨gap ++ [0], ?_⟩
      rw [store_eq_some (by simp [area])]
      simp [area]

/-- Behind the end of the memory nothing can be read. -/
theorem minifyLoop_none {mem : List UInt8} {json : ℕ} (h : mem.length ≤ json) (into : ℕ) :
    minifyLoop fuel mem json into = none := by
  cases fuel with
  | zero => rfl
  | succ fuel => rw [minifyLoop, List.getElem?_eq_none h, Option.bind_none]

theorem run_blank {b : UInt8} (hb : b = 32 ∨ b = 9 ∨ b = 13 ∨ b = 10) :
    run (fuel + 1) out gap (b :: rest) = run fuel out (gap ++ [b]) rest := by
  have hzero : b ≠ 0 := by
    rcases hb with rfl | rfl | rfl | rfl
    all_goals decide
  rw [run, minifyLoop, getElem?_area, Option.bind_some, if_neg hzero, if_pos hb, run, area_cons,
    List.length_append, List.length_singleton, Nat.add_assoc]

theorem run_other {b : UInt8} {s : List UInt8} (hzero : b ≠ 0) (hb : b ∉ [32, 9, 13, 10, 34])
    (hslash : b = 47 → deref s ≠ 47 ∧ deref s ≠ 42) :
    ∃ gap', run (fuel + 1) out gap (b :: (s ++ 0 :: rest)) =
      run fuel (out ++ [b]) gap' (s ++ 0 :: rest) := by
  obtain ⟨gap', hjson, hinto, hcopy⟩ := copyByte_area out gap b (s ++ 0 :: rest)
  simp only [List.mem_cons, List.not_mem_nil, or_false, not_or] at hb
  obtain ⟨h₁, h₂, h₃, h₄, hquote⟩ := hb
  have hline : ¬ (b = 47 ∧ some (deref s) = some 47) := by
    rintro ⟨heq, hnext⟩
    exact (hslash heq).1 (Option.some.inj hnext)
  have hcomment : ¬ (b = 47 ∧ some (deref s) = some 42) := by
    rintro ⟨heq, hnext⟩
    exact (hslash heq).2 (Option.some.inj hnext)
  refine ⟨gap', ?_⟩
  rw [run, minifyLoop, getElem?_area, getElem?_area_succ, Option.bind_some, if_neg hzero,
    if_neg (by simp [h₁, h₂, h₃, h₄]), if_neg hline, if_neg hcomment, if_neg hquote, hcopy,
    Option.bind_some, hjson, hinto]
  rfl

theorem run_line {s : List UInt8} (hs : (0 : UInt8) ∉ s) :
    ∃ gap', run (fuel + 1) out gap (47 :: 47 :: (s ++ 0 :: rest)) =
      run fuel out gap' (s.dropWhile (· ≠ 10) ++ 0 :: rest) := by
  have hs' : (0 : UInt8) ∉ 47 :: 47 :: s := by
    simp only [List.mem_cons, not_or]
    exact ⟨by decide, by decide, hs⟩
  have htake : (47 :: 47 :: s).takeWhile (· ≠ 10) = 47 :: 47 :: s.takeWhile (· ≠ 10) := rfl
  have hlen : (47 :: 47 :: s).length <
      (area out gap (47 :: 47 :: (s ++ 0 :: rest))).length + 1 := by
    rw [length_area]
    simp only [List.length_cons, List.length_append]
    omega
  have hskip := skipLine_eq (out ++ gap) hs' rest hlen
  rw [← area_eq, List.length_append, htake] at hskip
  have hnext : (area out gap (47 :: 47 :: (s ++ 0 :: rest)))[out.length + gap.length + 1]? =
      some 47 := getElem?_area_succ out gap 47 (47 :: s) rest
  refine ⟨gap ++ 47 :: 47 :: s.takeWhile (· ≠ 10), ?_⟩
  rw [run, minifyLoop, getElem?_area, hnext, Option.bind_some, if_neg (by decide),
    if_neg (by decide), if_pos ⟨rfl, rfl⟩]
  simp only [List.cons_append] at hskip
  rw [hskip, Option.bind_some, run, List.length_append, Nat.add_assoc]
  congr 1
  simp only [area, List.append_assoc, List.cons_append]
  rw [← List.append_assoc (s.takeWhile _), List.takeWhile_append_dropWhile]

/-- The comment is passed, or the zero byte and the byte behind it. -/
theorem run_comment {s : List UInt8} (hs : (0 : UInt8) ∉ s) :
    match commentEnd (47 :: 42 :: s) with
    | some r => ∃ gap', run (fuel + 1) out gap (47 :: 42 :: (s ++ 0 :: rest)) =
        run fuel out gap' (r ++ 0 :: rest)
    | none => rest = [] → run (fuel + 1) out gap (47 :: 42 :: (s ++ 0 :: rest)) = none := by
  have hs' : (0 : UInt8) ∉ 47 :: 42 :: s := by
    simp only [List.mem_cons, not_or]
    exact ⟨by decide, by decide, hs⟩
  have hlen : (47 :: 42 :: s).length <
      (area out gap (47 :: 42 :: (s ++ 0 :: rest))).length + 1 := by
    rw [length_area]
    simp only [List.length_cons, List.length_append]
    omega
  obtain ⟨skipped, behind, heq, hskip, hbehind⟩ := skipComment_eq (out ++ gap) hs' rest hlen
  rw [← area_eq, List.length_append] at hskip
  have hnext : (area out gap (47 :: 42 :: (s ++ 0 :: rest)))[out.length + gap.length + 1]? =
      some 42 := getElem?_area_succ out gap 47 (42 :: s) rest
  have hround : run (fuel + 1) out gap (47 :: 42 :: (s ++ 0 :: rest)) =
      minifyLoop fuel (area out gap (47 :: 42 :: (s ++ 0 :: rest)))
        (out.length + gap.length + skipped.length + 2) out.length := by
    simp only [List.cons_append] at hskip
    rw [run, minifyLoop, getElem?_area, hnext, Option.bind_some, if_neg (by decide),
      if_neg (by decide), if_neg (by decide), if_pos ⟨rfl, rfl⟩, hskip, Option.bind_some]
  cases hend : commentEnd (47 :: 42 :: s) with
  | some r =>
      rw [hend] at hbehind
      have hbehind : behind = 42 :: 47 :: r := hbehind
      have hwhole : 47 :: 42 :: (s ++ 0 :: rest) = (skipped ++ [42, 47]) ++ (r ++ 0 :: rest) := by
        rw [← List.cons_append, ← List.cons_append, heq, hbehind]
        simp
      refine ⟨gap ++ (skipped ++ [42, 47]), ?_⟩
      rw [hround, run, hwhole]
      congr 1
      · simp [area]
      · simp only [List.length_append, List.length_cons, List.length_nil]
        omega
  | none =>
      rw [hend] at hbehind
      rintro rfl
      rw [hround]
      apply minifyLoop_none
      have hall : (47 :: 42 :: s).length = skipped.length := by
        rw [heq, show behind = [] from hbehind, List.append_nil]
      rw [length_area]
      simp only [List.length_cons, List.length_append, List.length_nil] at hall ⊢
      omega

/-- The string is copied, or the memory is left behind its zero byte. -/
theorem run_string {s : List UInt8} (hs : (0 : UInt8) ∉ s) :
    match stringEnd s with
    | some (q, r) => ∃ gap', run (fuel + 1) out gap (34 :: (s ++ 0 :: rest)) =
        run fuel (out ++ 34 :: q) gap' (r ++ 0 :: rest)
    | none => rest = [] → run (fuel + 1) out gap (34 :: (s ++ 0 :: rest)) = none := by
  obtain ⟨gap₁, hjson, hinto, hcopy⟩ := copyByte_area out gap 34 (s ++ 0 :: rest)
  have hlen : s.length < (area (out ++ [34]) gap₁ (s ++ 0 :: rest)).length + 1 := by
    rw [length_area]
    simp only [List.length_append, List.length_cons]
    omega
  have hcopies := copyString_eq hs (out ++ [34]) gap₁ rest hlen
  have hround : run (fuel + 1) out gap (34 :: (s ++ 0 :: rest)) =
      (copyString ((area (out ++ [34]) gap₁ (s ++ 0 :: rest)).length + 1)
        (area (out ++ [34]) gap₁ (s ++ 0 :: rest)) ((out ++ [34]).length + gap₁.length)
        (out ++ [34]).length).bind fun r => (copyByte r.1 r.2.1 r.2.2).bind fun mem =>
          minifyLoop fuel mem (r.2.1 + 1) (r.2.2 + 1) := by
    rw [run, minifyLoop, getElem?_area, Option.bind_some, if_neg (by decide), if_neg (by decide),
      if_neg (fun h => absurd h.1 (by decide)), if_neg (fun h => absurd h.1 (by decide)),
      if_pos rfl, hcopy, Option.bind_some, hjson, hinto]
  unfold CopiesString at hcopies
  cases hend : stringEnd s with
  | some e =>
      obtain ⟨q, r⟩ := e
      rw [hend] at hcopies
      obtain ⟨q', gap₂, rfl, -, hrun⟩ := hcopies
      obtain ⟨gap₃, hjson', hinto', hcopy'⟩ :=
        copyByte_area (out ++ [34] ++ q') gap₂ 34 (r ++ 0 :: rest)
      refine ⟨gap₃, ?_⟩
      rw [hround, hrun, Option.bind_some, hcopy', Option.bind_some, hjson', hinto', run]
      simp only [List.append_assoc, List.cons_append, List.nil_append]
  | none =>
      rw [hend] at hcopies
      rintro rfl
      rw [hround, Option.bind_eq_none_iff]
      intro r hr
      obtain ⟨out', gap', rfl⟩ := hcopies rfl r hr
      obtain ⟨gap₃, hjson', hinto', hcopy'⟩ := copyByte_area out' gap' 0 []
      rw [hcopy', Option.bind_some]
      apply minifyLoop_none
      rw [hjson', length_area, List.length_nil]
      omega

end Rounds

/-! ## The whole text -/

theorem behind_commentEnd {s r : List UInt8} (h : commentEnd s = some r) (hs : (0 : UInt8) ∉ s) :
    (0 : UInt8) ∉ r ∧ r.length < s.length := by
  induction s with
  | nil => cases h
  | cons b s ih =>
      rw [List.mem_cons, not_or] at hs
      rw [commentEnd] at h
      split at h
      · rename_i hend
        obtain rfl := Option.some.inj h
        refine ⟨fun h => hs.2 (List.mem_of_mem_tail h), ?_⟩
        rw [List.length_tail, List.length_cons]
        omega
      · obtain ⟨hr, hlen⟩ := ih h hs.2
        exact ⟨hr, hlen.trans (Nat.lt_succ_self _)⟩

theorem stringEnd_eq {s q r : List UInt8} (h : stringEnd s = some (q, r)) :
    s = q ++ r ∧ q ≠ [] := by
  induction s using stringEnd.induct generalizing q with
  | case1 => cases h
  | case2 s =>
      rw [stringEnd.eq_def] at h
      cases h
      exact ⟨rfl, List.cons_ne_nil _ _⟩
  | case3 hquote =>
      rw [stringEnd.eq_def] at h
      cases h
  | case4 hquote e s ih =>
      rw [stringEnd.eq_def] at h
      obtain ⟨⟨q', r'⟩, hrest, heq⟩ := Option.map_eq_some_iff.mp h
      cases heq
      obtain ⟨rfl, -⟩ := ih hrest
      exact ⟨rfl, List.cons_ne_nil _ _⟩
  | case5 b s hquote hbackslash ih =>
      rw [stringEnd.eq_def] at h
      simp only [if_neg hquote, if_neg hbackslash] at h
      obtain ⟨⟨q', r'⟩, hrest, heq⟩ := Option.map_eq_some_iff.mp h
      cases heq
      obtain ⟨rfl, -⟩ := ih hrest
      exact ⟨rfl, List.cons_ne_nil _ _⟩

theorem behind_stringEnd {s q r : List UInt8} (h : stringEnd s = some (q, r))
    (hs : (0 : UInt8) ∉ s) : (0 : UInt8) ∉ r ∧ r.length < s.length := by
  obtain ⟨rfl, hq⟩ := stringEnd_eq h
  rw [List.mem_append, not_or] at hs
  have hpos := List.length_pos_of_ne_nil hq
  refine ⟨hs.2, ?_⟩
  rw [List.length_append]
  omega

/-- A closed text is minified in its place, and nothing behind its zero byte is touched. -/
theorem run_minifies {s t : List UInt8} (h : Minifies s t) (hs : (0 : UInt8) ∉ s)
    (out gap rest : List UInt8) {fuel : ℕ} (hfuel : s.length < fuel) :
    ∃ gap', run fuel out gap (s ++ 0 :: rest) = some (area (out ++ t) (0 :: gap') rest) := by
  induction h generalizing out gap fuel with
  | nil =>
      obtain ⟨fuel, rfl⟩ := Nat.exists_eq_add_one_of_ne_zero (Nat.ne_zero_of_lt hfuel)
      rw [List.append_nil]
      exact run_zero fuel out gap rest
  | @blank b s t hb _ ih =>
      obtain ⟨fuel, rfl⟩ := Nat.exists_eq_add_one_of_ne_zero (Nat.ne_zero_of_lt hfuel)
      rw [List.mem_cons, not_or] at hs
      rw [List.cons_append, run_blank fuel out gap _ hb]
      exact ih hs.2 out _ (Nat.lt_of_succ_lt_succ hfuel)
  | @line s t _ ih =>
      obtain ⟨fuel, rfl⟩ := Nat.exists_eq_add_one_of_ne_zero (Nat.ne_zero_of_lt hfuel)
      simp only [List.mem_cons, not_or] at hs
      simp only [List.length_cons] at hfuel
      obtain ⟨gap', hround⟩ := run_line fuel out gap rest hs.2.2
      have hle := (List.dropWhile_suffix (· ≠ (10 : UInt8)) (l := s)).length_le
      rw [List.cons_append, List.cons_append, hround]
      exact ih (fun h => hs.2.2 (List.dropWhile_subset _ h)) out gap' (by omega)
  | @comment s r t hshort hend _ ih =>
      obtain ⟨fuel, rfl⟩ := Nat.exists_eq_add_one_of_ne_zero (Nat.ne_zero_of_lt hfuel)
      simp only [List.mem_cons, not_or] at hs
      simp only [List.length_cons] at hfuel
      have hround := run_comment fuel out gap rest hs.2.2
      obtain ⟨hr, hlen⟩ := behind_commentEnd hend hs.2.2
      rw [commentEnd_slash, if_neg hshort, hend] at hround
      obtain ⟨gap', hround⟩ := hround
      rw [List.cons_append, List.cons_append, hround]
      exact ih hr out gap' (by omega)
  | @shortComment s t _ ih =>
      obtain ⟨fuel, rfl⟩ := Nat.exists_eq_add_one_of_ne_zero (Nat.ne_zero_of_lt hfuel)
      rw [List.mem_cons, List.mem_cons, not_or, not_or] at hs
      simp only [List.length_cons] at hfuel
      have hround := run_comment fuel out gap rest hs.2.2
      rw [commentEnd_slash, deref_cons, if_pos rfl, List.tail_cons] at hround
      obtain ⟨gap', hround⟩ := hround
      rw [List.cons_append, List.cons_append, hround]
      exact ih (fun h => hs.2.2 (List.mem_cons_of_mem _ h)) out gap' (by omega)
  | @string s q r t hend _ ih =>
      obtain ⟨fuel, rfl⟩ := Nat.exists_eq_add_one_of_ne_zero (Nat.ne_zero_of_lt hfuel)
      rw [List.mem_cons, not_or] at hs
      have hround := run_string fuel out gap rest hs.2
      obtain ⟨hr, hlen⟩ := behind_stringEnd hend hs.2
      rw [hend] at hround
      obtain ⟨gap', hround⟩ := hround
      have hfuel : r.length < fuel := hlen.trans (Nat.lt_of_succ_lt_succ hfuel)
      have hrest := ih hr (out ++ 34 :: q) gap' hfuel
      rw [List.append_assoc, List.cons_append] at hrest
      rw [List.cons_append, hround]
      exact hrest
  | @other b s t hb hslash _ ih =>
      obtain ⟨fuel, rfl⟩ := Nat.exists_eq_add_one_of_ne_zero (Nat.ne_zero_of_lt hfuel)
      rw [List.mem_cons, not_or] at hs
      obtain ⟨gap', hround⟩ := run_other fuel out gap rest (Ne.symm hs.1) hb hslash
      have hrest := ih hs.2 (out ++ [b]) gap' (Nat.lt_of_succ_lt_succ hfuel)
      rw [List.append_assoc, List.singleton_append] at hrest
      rw [List.cons_append, hround]
      exact hrest

/-- If the loop stays within the memory, all strings and comments are closed. -/
theorem exists_minifies (fuel : ℕ) {s : List UInt8} (hs : (0 : UInt8) ∉ s) (out gap : List UInt8)
    {r : List UInt8} (h : run fuel out gap (s ++ [0]) = some r) : ∃ t, Minifies s t := by
  induction fuel generalizing s out gap with
  | zero => cases h
  | succ fuel ih =>
      cases s with
      | nil => exact ⟨[], .nil⟩
      | cons b s =>
          rw [List.mem_cons, not_or] at hs
          rw [List.cons_append] at h
          by_cases hblank : b = 32 ∨ b = 9 ∨ b = 13 ∨ b = 10
          · rw [run_blank fuel out gap _ hblank] at h
            obtain ⟨t, ht⟩ := ih hs.2 _ _ h
            exact ⟨t, .blank hblank ht⟩
          by_cases hquote : b = 34
          · subst hquote
            have hround := run_string fuel out gap [] hs.2
            cases hend : stringEnd s with
            | none =>
                rw [hend] at hround
                cases (hround rfl).symm.trans h
            | some e =>
                obtain ⟨q, r'⟩ := e
                rw [hend] at hround
                obtain ⟨gap', hround⟩ := hround
                obtain ⟨t, ht⟩ := ih (behind_stringEnd hend hs.2).1 _ _ (hround.symm.trans h)
                exact ⟨_, .string hend ht⟩
          by_cases hslash : b = 47 → deref s ≠ 47 ∧ deref s ≠ 42
          · have hb : b ∉ [32, 9, 13, 10, 34] := by
              simp only [List.mem_cons, List.not_mem_nil, or_false, not_or] at hblank ⊢
              exact ⟨hblank.1, hblank.2.1, hblank.2.2.1, hblank.2.2.2, hquote⟩
            obtain ⟨gap', hround⟩ := run_other fuel out gap [] (Ne.symm hs.1) hb hslash
            obtain ⟨t, ht⟩ := ih hs.2 _ _ (hround.symm.trans h)
            exact ⟨_, .other hb hslash ht⟩
          · -- a comment
            rw [Classical.not_imp] at hslash
            obtain ⟨rfl, hslash⟩ := hslash
            cases s with
            | nil => exact absurd ⟨by decide, by decide⟩ hslash
            | cons c s =>
                by_cases hline : c = 47
                · subst hline
                  rw [List.mem_cons, not_or] at hs
                  obtain ⟨gap', hround⟩ := run_line fuel out gap [] hs.2.2
                  obtain ⟨t, ht⟩ := ih (fun h => hs.2.2 (List.dropWhile_subset _ h)) _ _
                    (hround.symm.trans h)
                  exact ⟨t, .line ht⟩
                · have hstar : c = 42 := by
                    by_contra hno
                    exact hslash ⟨hline, hno⟩
                  subst hstar
                  rw [List.mem_cons, not_or] at hs
                  have hround := run_comment fuel out gap [] hs.2.2
                  rw [commentEnd_slash] at hround
                  by_cases hshort : deref s = 47
                  · obtain ⟨s, rfl⟩ : ∃ s', s = 47 :: s' := by
                      cases s with
                      | nil => exact absurd hshort (by decide)
                      | cons c s => exact ⟨s, by rw [show c = 47 from hshort]⟩
                    rw [if_pos hshort, List.tail_cons] at hround
                    obtain ⟨gap', hround⟩ := hround
                    obtain ⟨t, ht⟩ := ih (fun h => hs.2.2 (List.mem_cons_of_mem _ h)) _ _
                      (hround.symm.trans h)
                    exact ⟨t, .shortComment ht⟩
                  rw [if_neg hshort] at hround
                  cases hend : commentEnd s with
                  | none =>
                      rw [hend] at hround
                      cases (hround rfl).symm.trans h
                  | some r' =>
                      rw [hend] at hround
                      obtain ⟨gap', hround⟩ := hround
                      obtain ⟨t, ht⟩ := ih (behind_commentEnd hend hs.2.2).1 _ _
                        (hround.symm.trans h)
                      exact ⟨t, .comment hshort hend ht⟩

theorem cJSONMinify_minifies {s t : List UInt8} (h : Minifies s t) (hs : (0 : UInt8) ∉ s)
    (rest : List UInt8) :
    ∃ gap', t.length + gap'.length = s.length ∧
      cJSONMinify (s ++ 0 :: rest) = some (t ++ 0 :: (gap' ++ rest)) := by
  have hfuel : s.length < (s ++ 0 :: rest).length + 1 := by
    rw [List.length_append]
    omega
  obtain ⟨gap', hrun⟩ := run_minifies h hs [] [] rest hfuel
  have hrun : cJSONMinify (s ++ 0 :: rest) = some (t ++ 0 :: (gap' ++ rest)) := hrun
  have hlen := minifyLoop_length hrun
  simp only [List.length_append, List.length_cons] at hlen
  exact ⟨gap', by omega, hrun⟩

/-- `cJSON_Minify` stays within the memory of a string just when no string literal and no comment
is left open in it. Then it leaves the text without white space and comments, in its place. -/
theorem cJSONMinify_isSome_iff {s : List UInt8} (hs : (0 : UInt8) ∉ s) :
    ((cJSONMinify (s ++ [0])).isSome ↔ ∃ t, Minifies s t) ∧
      ∀ t, Minifies s t → ∀ rest, ∃ gap', t.length + gap'.length = s.length ∧
        cJSONMinify (s ++ 0 :: rest) = some (t ++ 0 :: (gap' ++ rest)) := by
  refine ⟨⟨?_, ?_⟩, fun t ht => cJSONMinify_minifies ht hs⟩
  · intro h
    obtain ⟨r, hr⟩ := Option.isSome_iff_exists.mp h
    exact exists_minifies _ hs [] [] hr
  · rintro ⟨t, ht⟩
    obtain ⟨gap', -, hrun⟩ := cJSONMinify_minifies ht hs []
    rw [hrun]
    rfl

end Area

/-- A string with a comment in it, and a comment with a quote in it. -/
theorem minifies_annotated :
    Minifies (ofString "1 /* \" */ \"// a\"") (ofString "1\"// a\"") := by
  have htext : ofString "1 /* \" */ \"// a\"" =
      [49, 32, 47, 42, 32, 34, 32, 42, 47, 32, 34, 47, 47, 32, 97, 34] := by decide
  have hleft : ofString "1\"// a\"" = 49 :: 34 :: ([47, 47, 32, 97, 34] ++ []) := by decide
  have hcomment : commentEnd [32, 34, 32, 42, 47, 32, 34, 47, 47, 32, 97, 34] =
      some [32, 34, 47, 47, 32, 97, 34] := by decide
  have hstring : stringEnd [47, 47, 32, 97, 34] = some ([47, 47, 32, 97, 34], []) := by decide
  rw [htext, hleft]
  refine .other (by decide) (by decide) (.blank (.inl rfl) ?_)
  exact .comment (by decide) hcomment (.blank (.inl rfl) (.string hstring .nil))

theorem cJSONMinify_isSome_iff_annotated :
    (cJSONMinify (ofString "1 /* \" */ \"// a\"" ++ [0])).isSome ∧
      ∃ gap', (ofString "1\"// a\"").length + gap'.length =
          (ofString "1 /* \" */ \"// a\"").length ∧
        cJSONMinify (ofString "1 /* \" */ \"// a\"" ++ 0 :: [7]) =
          some (ofString "1\"// a\"" ++ 0 :: (gap' ++ [7])) :=
  have h := cJSONMinify_isSome_iff (s := ofString "1 /* \" */ \"// a\"") (by decide)
  ⟨h.1.mpr ⟨_, minifies_annotated⟩, h.2 _ minifies_annotated [7]⟩

end ServerKit.CJson
