import Mathlib.Data.Finset.Basic
import Mathlib.Data.Finset.Union
import ServerKit.Lib.System

/-! # The records of `yzx_memleak1.c`

`malloc` and `free` replace the functions of the C library, so that the calls which the library
makes itself come to them, too. Each of the two has a flag that is off while it runs; with the flag
off a call goes to the library alone. -/

namespace ServerKit.Memleak

open ServerKit.System

/-- A call of `malloc`, which gets the address `p` from the library (`NULL` is 0), or of `free`,
and the calls that the functions of the library make meanwhile. `fopen` and `unlink` make some
of theirs before the file is there or gone, and some behind. -/
inductive Call where
  | malloc (p : ℕ) (printf sprintf fopen opened fprintf fflush : List Call)
  | free (p : ℕ) (printf sprintf unlink unlinked again : List Call)

/-- The flags, the addresses `p` with a file `p.mem`, and the addresses that have been printed
as `double free`. -/
structure State where
  enableMallocHook : Bool
  enableFreeHook : Bool
  files : Finset ℕ
  doubleFrees : List ℕ
  deriving DecidableEq

mutual

/-- `malloc` and `free`. -/
def Call.run : Call → State → State
  | .malloc p printf sprintf fopen opened fprintf fflush, s =>
    if s.enableMallocHook then
      let s := { s with enableMallocHook := false }
      let s := runAll fopen (runAll sprintf (runAll printf s))
      let s := { s with files := insert p s.files }
      let s := runAll fflush (runAll fprintf (runAll opened s))
      { s with enableMallocHook := true }
    else s
  | .free p printf sprintf unlink unlinked again, s =>
    if s.enableFreeHook then
      let s := { s with enableFreeHook := false }
      let s := runAll unlink (runAll sprintf (runAll printf s))
      let s :=
        if p ∈ s.files then runAll unlinked { s with files := s.files.erase p }
        else
          let s := runAll again (runAll unlinked s)
          { s with doubleFrees := s.doubleFrees ++ [p] }
      { s with enableFreeHook := true }
    else s

/-- The calls that a function of the library makes. -/
def runAll : List Call → State → State
  | [], s => s
  | call :: calls, s => runAll calls (call.run s)

end

/-- The addresses that are freed by these calls themselves. -/
def frees (calls : List Call) : List ℕ :=
  calls.filterMap fun call =>
    match call with
    | .malloc .. => none
    | .free p .. => some p

/-- The addresses that these calls themselves get. -/
def mallocs (calls : List Call) : List ℕ :=
  calls.filterMap fun call =>
    match call with
    | .malloc p .. => some p
    | .free .. => none

/-- What a call of `free` does with the file. -/
def State.unlink (s : State) (p : ℕ) : State :=
  if p ∈ s.files then { s with files := s.files.erase p }
  else { s with doubleFrees := s.doubleFrees ++ [p] }

section Hooks

variable {s : State} {calls : List Call}

theorem runAll_append (calls calls' : List Call) (s : State) :
    runAll (calls ++ calls') s = runAll calls' (runAll calls s) := by
  induction calls generalizing s with
  | nil => rw [List.nil_append, runAll]
  | cons call calls ih => rw [List.cons_append, runAll, runAll, ih]

/-- With both flags off the library is on its own. -/
theorem runAll_off (hmalloc : s.enableMallocHook = false) (hfree : s.enableFreeHook = false)
    (calls : List Call) : runAll calls s = s := by
  induction calls with
  | nil => rw [runAll]
  | cons call calls ih =>
      have hcall : call.run s = s := by
        cases call with
        | malloc => simp [Call.run, hmalloc]
        | free => simp [Call.run, hfree]
      rw [runAll, hcall, ih]

/-- A call of `free` in `malloc` looks for a file. -/
theorem run_free_in_malloc {p : ℕ} {printf sprintf unlink unlinked again : List Call}
    (hmalloc : s.enableMallocHook = false) (hfree : s.enableFreeHook = true) :
    (Call.free p printf sprintf unlink unlinked again).run s = s.unlink p := by
  obtain ⟨mallocHook, freeHook, files, doubleFrees⟩ := s
  obtain rfl : mallocHook = false := hmalloc
  obtain rfl : freeHook = true := hfree
  rw [Call.run, if_pos rfl]
  simp only [runAll_off (s := ⟨false, false, files, doubleFrees⟩) rfl rfl]
  by_cases hp : p ∈ files
  · rw [if_pos hp, runAll_off rfl rfl, State.unlink, if_pos hp]
  · rw [if_neg hp, State.unlink, if_neg hp]

/-- A call of `malloc` in `free` makes a file. -/
theorem run_malloc_in_free {p : ℕ} {printf sprintf fopen opened fprintf fflush : List Call}
    (hmalloc : s.enableMallocHook = true) (hfree : s.enableFreeHook = false) :
    (Call.malloc p printf sprintf fopen opened fprintf fflush).run s =
      { s with files := insert p s.files } := by
  obtain ⟨mallocHook, freeHook, files, doubleFrees⟩ := s
  obtain rfl : mallocHook = true := hmalloc
  obtain rfl : freeHook = false := hfree
  rw [Call.run, if_pos rfl]
  simp only [runAll_off (s := ⟨false, false, files, doubleFrees⟩) rfl rfl,
    runAll_off (s := ⟨false, false, insert p files, doubleFrees⟩) rfl rfl]

theorem State.unlink_flags (s : State) (p : ℕ) :
    (s.unlink p).enableMallocHook = s.enableMallocHook ∧
      (s.unlink p).enableFreeHook = s.enableFreeHook := by
  unfold State.unlink
  split
  · exact ⟨rfl, rfl⟩
  · exact ⟨rfl, rfl⟩

/-- Of the calls in `malloc` only those of `free` do something. -/
theorem runAll_in_malloc (hmalloc : s.enableMallocHook = false) (hfree : s.enableFreeHook = true)
    (calls : List Call) : runAll calls s = (frees calls).foldl State.unlink s := by
  induction calls generalizing s with
  | nil =>
      rw [runAll]
      rfl
  | cons call calls ih =>
      rw [runAll]
      cases call with
      | malloc p =>
          have hskip : ¬ s.enableMallocHook = true := by simp [hmalloc]
          rw [Call.run, if_neg hskip]
          exact ih hmalloc hfree
      | free p =>
          have hflags := s.unlink_flags p
          rw [run_free_in_malloc hmalloc hfree]
          exact ih (hflags.1.trans hmalloc) (hflags.2.trans hfree)

/-- Of the calls in `free` only those of `malloc` do something. -/
theorem runAll_in_free (hmalloc : s.enableMallocHook = true) (hfree : s.enableFreeHook = false)
    (calls : List Call) :
    runAll calls s = { s with files := s.files ∪ (mallocs calls).toFinset } := by
  induction calls generalizing s with
  | nil =>
      rw [runAll]
      simp [mallocs]
  | cons call calls ih =>
      rw [runAll]
      cases call with
      | malloc p =>
          rw [run_malloc_in_free hmalloc hfree,
            ih (s := { s with files := insert p s.files }) hmalloc hfree]
          simp [mallocs, Finset.insert_union, Finset.union_insert]
      | free p =>
          have hskip : ¬ s.enableFreeHook = true := by simp [hfree]
          rw [Call.run, if_neg hskip]
          exact ih hmalloc hfree

/-! ## Files that are looked for -/

/-- Files only go, and messages only come. -/
theorem unlinkAll_spec (s : State) (ps : List ℕ) :
    (ps.foldl State.unlink s).files ⊆ s.files ∧
      s.doubleFrees <+: (ps.foldl State.unlink s).doubleFrees ∧
      (ps.foldl State.unlink s).enableMallocHook = s.enableMallocHook ∧
      (ps.foldl State.unlink s).enableFreeHook = s.enableFreeHook := by
  induction ps generalizing s with
  | nil => exact ⟨Finset.Subset.refl _, List.prefix_refl _, rfl, rfl⟩
  | cons p ps ih =>
      obtain ⟨hfiles, hmessages, hmalloc, hfree⟩ := ih (s.unlink p)
      have hflags := s.unlink_flags p
      refine ⟨hfiles.trans ?_, List.IsPrefix.trans ?_ hmessages, hmalloc.trans hflags.1,
        hfree.trans hflags.2⟩
      · unfold State.unlink
        split
        · exact Finset.erase_subset _ _
        · exact Finset.Subset.refl _
      · unfold State.unlink
        split
        · exact List.prefix_refl _
        · exact List.prefix_append _ _

/-- Without a message the first file was there, and is gone. -/
theorem unlinkAll_cons {p : ℕ} {ps : List ℕ}
    (h : ((p :: ps).foldl State.unlink s).doubleFrees = s.doubleFrees) :
    p ∈ s.files ∧ p ∉ ((p :: ps).foldl State.unlink s).files ∧
      (p :: ps).foldl State.unlink s =
        ps.foldl State.unlink { s with files := s.files.erase p } := by
  rw [List.foldl_cons] at h ⊢
  by_cases hp : p ∈ s.files
  · have hunlink : s.unlink p = { s with files := s.files.erase p } := by
      rw [State.unlink, if_pos hp]
    rw [hunlink] at h ⊢
    refine ⟨hp, ?_, rfl⟩
    intro hmem
    exact Finset.notMem_erase p s.files ((unlinkAll_spec _ ps).1 hmem)
  · have hmessages := (unlinkAll_spec (s.unlink p) ps).2.1
    rw [h, State.unlink, if_neg hp] at hmessages
    have hlen := hmessages.length_le
    rw [List.length_append, List.length_singleton] at hlen
    omega

/-- Nothing has been looked for if neither files nor messages have changed. -/
theorem unlinkAll_eq_nil {ps : List ℕ} (hfiles : (ps.foldl State.unlink s).files = s.files)
    (hmessages : (ps.foldl State.unlink s).doubleFrees = s.doubleFrees) : ps = [] := by
  cases ps with
  | nil => rfl
  | cons p ps =>
      obtain ⟨hmem, hgone, -⟩ := unlinkAll_cons hmessages
      rw [hfiles] at hgone
      exact absurd hmem hgone

/-- A file has been added between two rows of such calls. If the first files are all there in the
end, and there is no message, then the first row is empty. -/
theorem unlinkAll_before_eq_nil {s₁ s₂ : State} {p : ℕ} {ps qs : List ℕ}
    (hs₁ : s₁ = ps.foldl State.unlink s)
    (hs₂ : s₂ = qs.foldl State.unlink { s₁ with files := insert p s₁.files }) (hp : p ∉ s.files)
    (hfiles : s.files ⊆ s₂.files) (hmessages : s₂.doubleFrees = s.doubleFrees) : ps = [] := by
  have hpre₁ : s.doubleFrees <+: s₁.doubleFrees := by
    rw [hs₁]
    exact (unlinkAll_spec s ps).2.1
  obtain ⟨hsub, hpre₂, -, -⟩ := unlinkAll_spec { s₁ with files := insert p s₁.files } qs
  rw [← hs₂] at hsub hpre₂
  rw [hmessages] at hpre₂
  have hmessages₁ : s₁.doubleFrees = s.doubleFrees :=
    (hpre₁.eq_of_length_le hpre₂.length_le).symm
  cases ps with
  | nil => rfl
  | cons q ps =>
      rw [hs₁] at hmessages₁
      obtain ⟨hmem, hgone, -⟩ := unlinkAll_cons hmessages₁
      rw [← hs₁] at hgone
      rcases Finset.mem_insert.mp (hsub (hfiles hmem)) with rfl | hmem₁
      · exact absurd hmem hp
      · exact absurd hmem₁ hgone

/-- Of the calls only one has looked for something: for the one file that is gone. -/
theorem unlinkAll_eq_singleton {p : ℕ} {ps : List ℕ} (hp : p ∈ s.files)
    (hfiles : (ps.foldl State.unlink s).files = s.files.erase p)
    (hmessages : (ps.foldl State.unlink s).doubleFrees = s.doubleFrees) : ps = [p] := by
  cases ps with
  | nil =>
      have hmem : p ∈ s.files.erase p := by
        rw [← hfiles]
        exact hp
      exact absurd hmem (Finset.notMem_erase p s.files)
  | cons q ps =>
      obtain ⟨hmem, hgone, hrest⟩ := unlinkAll_cons hmessages
      have hq : q = p := by
        by_contra hne
        apply hgone
        rw [hfiles]
        exact Finset.mem_erase.mpr ⟨hne, hmem⟩
      subst hq
      rw [hrest] at hfiles hmessages
      rw [unlinkAll_eq_nil (s := { s with files := s.files.erase q }) hfiles hmessages]

end Hooks

/-! ## The calls of the application -/

/-- The program, and beside it what the application has got and not freed, and its frees of other
addresses. -/
structure Sys where
  prog : State
  held : Finset ℕ
  foreign : List ℕ
  deriving DecidableEq

/-- The library does not hand out what the application has. -/
def Lawful (held : Finset ℕ) : Call → Prop
  | .malloc p .. => p = 0 ∨ p ∉ held
  | .free _ printf sprintf unlink unlinked again =>
    ∀ q ∈ mallocs (printf ++ sprintf ++ unlink ++ unlinked ++ again), q = 0 ∨ q ∉ held

instance (held : Finset ℕ) : (call : Call) → Decidable (Lawful held call)
  | .malloc .. => inferInstanceAs (Decidable (_ ∨ _))
  | .free .. => inferInstanceAs (Decidable (∀ _ ∈ _, _))

/-- What the application has after a call. -/
def heldAfter (held : Finset ℕ) : Call → Finset ℕ
  | .malloc p .. => if p = 0 then held else insert p held
  | .free p .. => held.erase p

/-- The address of a free that is neither `NULL` nor one the application has. -/
def foreignFree (held : Finset ℕ) : Call → List ℕ
  | .malloc .. => []
  | .free p .. => if p ≠ 0 ∧ p ∉ held then [p] else []

/-- A call of the application. -/
def next (s : Sys) (call : Call) : Option Sys :=
  if Lawful s.held call then
    some ⟨call.run s.prog, heldAfter s.held call, s.foreign ++ foreignFree s.held call⟩
  else none

/-- Before the first call. -/
def start : Sys := ⟨⟨true, true, ∅, []⟩, ∅, []⟩

/-- There are files for what the application has, and messages for its other frees. -/
structure Exact (s : Sys) : Prop where
  files : s.prog.files = s.held
  doubleFrees : s.prog.doubleFrees = s.foreign

/-- No function of the library frees anything in `malloc`, and none allocates in `free`. With `NULL`
it takes a free of `NULL` in `malloc`, behind the file, or failing allocations in `free`. -/
def Quiet (s : Sys) : Call → Prop
  | .malloc p printf sprintf fopen opened fprintf fflush =>
    frees (printf ++ sprintf ++ fopen) = [] ∧
      frees (opened ++ fprintf ++ fflush) = if p = 0 then [0] else []
  | .free p printf sprintf unlink unlinked again =>
    if p = 0 then
      mallocs (printf ++ sprintf ++ unlink) ≠ [] ∧
        (∀ q ∈ mallocs (printf ++ sprintf ++ unlink), q = 0) ∧ mallocs unlinked = []
    else
      mallocs (printf ++ sprintf ++ unlink ++ unlinked) = [] ∧ (p ∉ s.held → mallocs again = [])

instance (s : Sys) : (call : Call) → Decidable (Quiet s call)
  | .malloc .. => inferInstanceAs (Decidable (_ ∧ _))
  | .free .. => inferInstanceAs (Decidable (ite _ _ _))

/-! ## What a call does -/

section Calls

variable {s : State} (p : ℕ)
  (printf sprintf fopen opened fprintf fflush unlink unlinked again : List Call)

/-- `malloc`, between its two writes of the flag. -/
theorem run_malloc (hmalloc : s.enableMallocHook = true) (hfree : s.enableFreeHook = true) :
    ∃ s₁ s₂ : State,
      s₁ = (frees (printf ++ sprintf ++ fopen)).foldl State.unlink
        { s with enableMallocHook := false } ∧
      s₂ = (frees (opened ++ fprintf ++ fflush)).foldl State.unlink
        { s₁ with files := insert p s₁.files } ∧
      (Call.malloc p printf sprintf fopen opened fprintf fflush).run s =
        { s₂ with enableMallocHook := true } := by
  refine ⟨_, _, rfl, rfl, ?_⟩
  have hspec := unlinkAll_spec { s with enableMallocHook := false }
    (frees (printf ++ sprintf ++ fopen))
  rw [Call.run, if_pos hmalloc]
  simp only [← runAll_append]
  rw [runAll_in_malloc (s := { s with enableMallocHook := false }) rfl hfree]
  rw [runAll_in_malloc]
  · exact hspec.2.2.1
  · exact hspec.2.2.2.trans hfree

/-- `free`, with the files that are there when `unlink` looks for one. -/
theorem run_free (hmalloc : s.enableMallocHook = true) (hfree : s.enableFreeHook = true) :
    (Call.free p printf sprintf unlink unlinked again).run s =
      if p ∈ s.files ∪ (mallocs (printf ++ sprintf ++ unlink)).toFinset then
        { s with
          files := (s.files ∪ (mallocs (printf ++ sprintf ++ unlink)).toFinset).erase p ∪
            (mallocs unlinked).toFinset }
      else
        { s with
          files := s.files ∪
            (mallocs (printf ++ sprintf ++ unlink ++ unlinked ++ again)).toFinset
          doubleFrees := s.doubleFrees ++ [p] } := by
  obtain ⟨mallocHook, freeHook, files, doubleFrees⟩ := s
  obtain rfl : mallocHook = true := hmalloc
  obtain rfl : freeHook = true := hfree
  rw [Call.run, if_pos rfl]
  simp only [← runAll_append]
  rw [runAll_in_free rfl rfl]
  split
  · rw [runAll_in_free rfl rfl]
  · rw [runAll_in_free rfl rfl]

/-- The flags are on again. -/
theorem run_flags (hmalloc : s.enableMallocHook = true) (hfree : s.enableFreeHook = true)
    (call : Call) :
    (call.run s).enableMallocHook = true ∧ (call.run s).enableFreeHook = true := by
  cases call with
  | malloc p printf sprintf fopen opened fprintf fflush =>
      obtain ⟨s₁, s₂, hs₁, hs₂, hrun⟩ :=
        run_malloc p printf sprintf fopen opened fprintf fflush hmalloc hfree
      have hfree₁ : s₁.enableFreeHook = true := by
        rw [hs₁]
        exact (unlinkAll_spec _ _).2.2.2.trans hfree
      rw [hrun, hs₂]
      exact ⟨rfl, (unlinkAll_spec _ _).2.2.2.trans hfree₁⟩
  | free p printf sprintf unlink unlinked again =>
      rw [run_free p printf sprintf unlink unlinked again hmalloc hfree]
      split
      · exact ⟨hmalloc, hfree⟩
      · exact ⟨hmalloc, hfree⟩

/-- When a call of `malloc` adds the file of its address, and nothing else. -/
theorem run_malloc_exact_iff (hmalloc : s.enableMallocHook = true)
    (hfree : s.enableFreeHook = true) (hnull : 0 ∉ s.files) (hlawful : p = 0 ∨ p ∉ s.files) :
    ((Call.malloc p printf sprintf fopen opened fprintf fflush).run s).files =
          (if p = 0 then s.files else insert p s.files) ∧
        ((Call.malloc p printf sprintf fopen opened fprintf fflush).run s).doubleFrees =
          s.doubleFrees ↔
      frees (printf ++ sprintf ++ fopen) = [] ∧
        frees (opened ++ fprintf ++ fflush) = if p = 0 then [0] else [] := by
  obtain ⟨s₁, s₂, hs₁, hs₂, hrun⟩ :=
    run_malloc p printf sprintf fopen opened fprintf fflush hmalloc hfree
  have hp : p ∉ s.files := by
    rcases hlawful with rfl | hp
    · exact hnull
    · exact hp
  rw [hrun]
  constructor
  · rintro ⟨hfiles, hmessages⟩
    replace hfiles : s₂.files = if p = 0 then s.files else insert p s.files := hfiles
    have hkept : s.files ⊆ s₂.files := by
      rw [hfiles]
      split
      · exact Finset.Subset.refl _
      · exact Finset.subset_insert _ _
    have hbefore := unlinkAll_before_eq_nil hs₁ hs₂ hp hkept hmessages
    refine ⟨hbefore, ?_⟩
    rw [hbefore] at hs₁
    subst hs₁
    subst hs₂
    by_cases hp0 : p = 0
    · rw [if_pos hp0] at hfiles ⊢
      subst hp0
      apply unlinkAll_eq_singleton (Finset.mem_insert_self _ _) _ hmessages
      rw [hfiles]
      exact (Finset.erase_insert hnull).symm
    · rw [if_neg hp0] at hfiles ⊢
      exact unlinkAll_eq_nil hfiles hmessages
  · rintro ⟨hbefore, hafter⟩
    rw [hbefore] at hs₁
    rw [hafter] at hs₂
    subst hs₁
    subst hs₂
    by_cases hp0 : p = 0
    · subst hp0
      rw [if_pos rfl, if_pos rfl]
      simp [State.unlink, hnull]
    · rw [if_neg hp0, if_neg hp0]
      exact ⟨rfl, rfl⟩

/-- New addresses do not show in the files exactly if there are none, but for the one that goes. -/
theorem union_erase_eq_iff {files : Finset ℕ} {ps qs : List ℕ} (hps : ∀ q ∈ ps, q ∉ files)
    (hqs : ∀ q ∈ qs, q ∉ files) :
    (files ∪ ps.toFinset).erase p ∪ qs.toFinset = files.erase p ↔
      (∀ q ∈ ps, q = p) ∧ qs = [] := by
  constructor
  · intro h
    refine ⟨?_, ?_⟩
    · intro q hq
      by_contra hne
      have hmem : q ∈ files.erase p := by
        rw [← h]
        simp [hne, hq]
      exact hps q hq (Finset.mem_of_mem_erase hmem)
    · apply List.eq_nil_iff_forall_not_mem.mpr
      intro q hq
      have hmem : q ∈ files.erase p := by
        rw [← h]
        simp [hq]
      exact hqs q hq (Finset.mem_of_mem_erase hmem)
  · rintro ⟨hps, rfl⟩
    ext q
    simp only [Finset.mem_union, Finset.mem_erase, List.mem_toFinset, List.not_mem_nil, or_false]
    constructor
    · rintro ⟨hne, hq | hq⟩
      · exact ⟨hne, hq⟩
      · exact absurd (hps q hq) hne
    · rintro ⟨hne, hq⟩
      exact ⟨hne, .inl hq⟩

theorem mallocs_append (calls calls' : List Call) :
    mallocs (calls ++ calls') = mallocs calls ++ mallocs calls' := List.filterMap_append

section Outcome

variable {p} {files : Finset ℕ} {messages before behind message : List ℕ}

/-- `unlink` finds a file: the one that was there, or one that has just been made. -/
theorem found_exact_iff (hnull : 0 ∉ files) (hbefore : ∀ q ∈ before, q ∉ files)
    (hbehind : ∀ q ∈ behind, q ∉ files) (hfound : p ∈ files ∪ before.toFinset) :
    (files ∪ before.toFinset).erase p ∪ behind.toFinset = files.erase p ∧
        messages = messages ++ (if p ≠ 0 ∧ p ∉ files then [p] else []) ↔
      if p = 0 then before ≠ [] ∧ (∀ q ∈ before, q = 0) ∧ behind = []
      else before ++ behind = [] ∧ (p ∉ files → message = []) := by
  rw [union_erase_eq_iff p hbefore hbehind]
  by_cases hp0 : p = 0
  · subst hp0
    have hmem : 0 ∈ before := by simpa [hnull] using hfound
    simp [List.ne_nil_of_mem hmem]
  · rw [if_neg hp0]
    by_cases hp : p ∈ files
    · have hnil : (∀ q ∈ before, q = p) ↔ before = [] := by
        rw [List.eq_nil_iff_forall_not_mem]
        apply forall₂_congr
        intro q hq
        refine iff_of_false ?_ (fun h => h.elim)
        rintro rfl
        exact hbefore q hq hp
      simp [hp, hnil]
    · have hmem : p ∈ before := by simpa [hp] using hfound
      simp [hp, hp0, List.ne_nil_of_mem hmem]

/-- `unlink` finds none, and the message is printed. -/
theorem missing_exact_iff (hfresh : ∀ q ∈ before ++ behind ++ message, q ∉ files)
    (hmissing : p ∉ files ∪ before.toFinset) :
    files ∪ (before ++ behind ++ message).toFinset = files.erase p ∧
        messages ++ [p] = messages ++ (if p ≠ 0 ∧ p ∉ files then [p] else []) ↔
      if p = 0 then before ≠ [] ∧ (∀ q ∈ before, q = 0) ∧ behind = []
      else before ++ behind = [] ∧ (p ∉ files → message = []) := by
  rw [Finset.mem_union, List.mem_toFinset, not_or] at hmissing
  obtain ⟨hp, hmem⟩ := hmissing
  by_cases hp0 : p = 0
  · subst hp0
    have hother : ¬ (before ≠ [] ∧ ∀ q ∈ before, q = 0) := by
      rintro ⟨hne, hall⟩
      obtain ⟨q, hq⟩ := List.exists_mem_of_ne_nil before hne
      exact hmem (hall q hq ▸ hq)
    rw [if_pos rfl, ← and_assoc, iff_false_right fun h => hother h.1]
    simp
  · have hnil : (before ++ behind ++ message).toFinset ⊆ files ↔
        before ++ behind ++ message = [] := by
      constructor
      · intro hsub
        apply List.eq_nil_iff_forall_not_mem.mpr
        intro q hq
        exact hfresh q hq (hsub (List.mem_toFinset.mpr hq))
      · intro h
        rw [h]
        exact Finset.empty_subset _
    rw [if_neg hp0, Finset.erase_eq_of_notMem hp, Finset.union_eq_left, hnil]
    simp [hp, hp0, and_assoc]

end Outcome

/-- When a call of `free` takes the file of its address away, and prints a message exactly if there
is none and the address is not `NULL`. -/
theorem run_free_exact_iff (hmalloc : s.enableMallocHook = true)
    (hfree : s.enableFreeHook = true) (hnull : 0 ∉ s.files)
    (hlawful : ∀ q ∈ mallocs (printf ++ sprintf ++ unlink ++ unlinked ++ again),
      q = 0 ∨ q ∉ s.files) :
    ((Call.free p printf sprintf unlink unlinked again).run s).files = s.files.erase p ∧
        ((Call.free p printf sprintf unlink unlinked again).run s).doubleFrees =
          s.doubleFrees ++ (if p ≠ 0 ∧ p ∉ s.files then [p] else []) ↔
      if p = 0 then
        mallocs (printf ++ sprintf ++ unlink) ≠ [] ∧
          (∀ q ∈ mallocs (printf ++ sprintf ++ unlink), q = 0) ∧ mallocs unlinked = []
      else
        mallocs (printf ++ sprintf ++ unlink ++ unlinked) = [] ∧
          (p ∉ s.files → mallocs again = []) := by
  have hfresh : ∀ q ∈ mallocs (printf ++ sprintf ++ unlink ++ unlinked ++ again),
      q ∉ s.files := by
    intro q hq
    rcases hlawful q hq with rfl | hq
    · exact hnull
    · exact hq
  rw [run_free p printf sprintf unlink unlinked again hmalloc hfree]
  simp only [mallocs_append _ again, mallocs_append _ unlinked] at hfresh ⊢
  generalize mallocs (printf ++ sprintf ++ unlink) = before at hfresh ⊢
  generalize mallocs unlinked = behind at hfresh ⊢
  generalize mallocs again = message at hfresh ⊢
  have hbefore : ∀ q ∈ before, q ∉ s.files := fun q hq => hfresh q (by simp [hq])
  have hbehind : ∀ q ∈ behind, q ∉ s.files := fun q hq => hfresh q (by simp [hq])
  split
  · rename_i hfound
    exact found_exact_iff hnull hbefore hbehind hfound
  · rename_i hmissing
    exact missing_exact_iff hfresh hmissing

end Calls

/-! ## Runs -/

/-- Between the calls both flags are on, and `NULL` is nothing that the application has. -/
structure Ready (s : Sys) : Prop where
  malloc : s.prog.enableMallocHook = true
  free : s.prog.enableFreeHook = true
  null : 0 ∉ s.held

theorem next_eq_some {s s' : Sys} {call : Call} (h : next s call = some s') :
    Lawful s.held call ∧
      s' = ⟨call.run s.prog, heldAfter s.held call, s.foreign ++ foreignFree s.held call⟩ := by
  rw [next] at h
  split at h
  · rename_i hlawful
    exact ⟨hlawful, (Option.some.inj h).symm⟩
  · cases h

theorem ready_next (s : Sys) (call : Call) (s' : Sys) (hs : Ready s) (h : next s call = some s') :
    Ready s' := by
  obtain ⟨-, rfl⟩ := next_eq_some h
  obtain ⟨hmalloc, hfree⟩ := run_flags hs.malloc hs.free call
  refine ⟨hmalloc, hfree, ?_⟩
  cases call with
  | malloc p =>
      show 0 ∉ if p = 0 then s.held else insert p s.held
      split
      · exact hs.null
      · rename_i hp
        simp [hs.null, eq_comm, hp]
  | free p => exact fun h => hs.null (Finset.mem_of_mem_erase h)

theorem exact_next_iff (s : Sys) (call : Call) (s' : Sys) (hs : Ready s) (hexact : Exact s)
    (h : next s call = some s') : Exact s' ↔ Quiet s call := by
  obtain ⟨hlawful, rfl⟩ := next_eq_some h
  have hnull : 0 ∉ s.prog.files := hexact.files ▸ hs.null
  cases call with
  | malloc p printf sprintf fopen opened fprintf fflush =>
      have hfresh : p = 0 ∨ p ∉ s.prog.files := hexact.files ▸ hlawful
      have hiff := run_malloc_exact_iff p printf sprintf fopen opened fprintf fflush hs.malloc
        hs.free hnull hfresh
      rw [hexact.files, hexact.doubleFrees] at hiff
      rw [Quiet, ← hiff]
      constructor
      · intro h
        exact ⟨h.files, h.doubleFrees.trans (List.append_nil _)⟩
      · intro h
        exact ⟨h.1, h.2.trans (List.append_nil _).symm⟩
  | free p printf sprintf unlink unlinked again =>
      have hfresh : ∀ q ∈ mallocs (printf ++ sprintf ++ unlink ++ unlinked ++ again),
          q = 0 ∨ q ∉ s.prog.files := hexact.files ▸ hlawful
      have hiff := run_free_exact_iff p printf sprintf unlink unlinked again hs.malloc hs.free
        hnull hfresh
      rw [hexact.files, hexact.doubleFrees] at hiff
      rw [Quiet, ← hiff]
      exact ⟨fun h => ⟨h.files, h.doubleFrees⟩, fun h => ⟨h.1, h.2⟩⟩

theorem ready_start : Ready start := ⟨rfl, rfl, by decide⟩

theorem exact_start : Exact start := ⟨rfl, rfl⟩

/-- **Leak records.** The files are exactly those of what the application has, and the messages
exactly those for its other frees, throughout the runs all of whose calls are quiet. -/
theorem exact_iff_quiet {calls : List Call} {s : Sys} (h : exec next start calls = some s) :
    Throughout next Exact start calls ↔ Admits next Quiet start calls :=
  throughout_iff_admits_of_invariant ready_next exact_next_iff ready_start exact_start h

/-- A call of `malloc` within the library. -/
def inner (p : ℕ) : Call := .malloc p [] [] [] [] [] []

/-- The calls of `main`; the first `printf` and each `fopen` allocate a buffer. -/
def mainCalls : List Call :=
  [.malloc 16 [inner 64] [] [inner 2048] [] [] [], .malloc 32 [] [] [inner 4096] [] [] [],
    .free 16 [] [] [] [] []]

theorem exact_iff_quiet_mainCalls :
    (exec next start mainCalls).map (fun s => s.prog.files) = some {32} ∧
      Throughout next Exact start mainCalls := by
  have hrun : (exec next start mainCalls).map (fun s => s.prog.files) = some {32} := by
    decide +kernel
  refine ⟨hrun, ?_⟩
  obtain ⟨s, hs, -⟩ := Option.map_eq_some_iff.mp hrun
  exact (exact_iff_quiet hs).mpr (by decide +kernel)

/-- `free(NULL)` is taken for a double free. With a buffer that `printf` allocates in `free`,
a file is left of which the application knows nothing. -/
theorem not_exact :
    (exec next start [.free 0 [] [] [] [] []] = some ⟨⟨true, true, ∅, [0]⟩, ∅, []⟩ ∧
        ¬ Throughout next Exact start [.free 0 [] [] [] [] []]) ∧
      exec next start [.malloc 16 [] [] [] [] [] [], .free 16 [inner 64] [] [] [] []] =
          some ⟨⟨true, true, {64}, []⟩, ∅, []⟩ ∧
        ¬ Throughout next Exact start
          [.malloc 16 [] [] [] [] [] [], .free 16 [inner 64] [] [] [] []] := by
  have hnull : exec next start [.free 0 [] [] [] [] []] =
      some ⟨⟨true, true, ∅, [0]⟩, ∅, []⟩ := by decide +kernel
  have hbuffer : exec next start
      [.malloc 16 [] [] [] [] [] [], .free 16 [inner 64] [] [] [] []] =
        some ⟨⟨true, true, {64}, []⟩, ∅, []⟩ := by decide +kernel
  refine ⟨⟨hnull, ?_⟩, hbuffer, ?_⟩
  · intro hthrough
    exact absurd (hthrough.final hnull).doubleFrees (by decide)
  · intro hthrough
    exact absurd (hthrough.final hbuffer).files (by decide)

end ServerKit.Memleak
