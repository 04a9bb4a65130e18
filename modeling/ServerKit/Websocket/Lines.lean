import ServerKit.Websocket.Upgrade

/-! # All the lines of a buffer

`handshark` calls `readline` with the index that the last call has returned. Kept up until the
call that returns `-1`, this splits the text at every `\r\n`. -/

namespace ServerKit.Websocket

open ServerKit.Memory ServerKit.CString

/-- `readline` on the memory behind `linebuf`: the returned index and the memory afterwards. -/
def readlineInto (allbuf : List UInt8) (idx : ℕ) (linebuf : List UInt8) :
    Option (ℤ × List UInt8) :=
  (store linebuf 0 (readline allbuf idx).2).map fun mem => ((readline allbuf idx).1, mem)

/-- The calls from an index on, up to the first one that returns `-1`: what each of them returns
and leaves in `linebuf`. There is no result if `fuel` calls are not enough. -/
def readLines (allbuf : List UInt8) : ℕ → ℕ → List UInt8 → Option (List (ℤ × List UInt8))
  | 0, _, _ => none
  | fuel + 1, idx, linebuf =>
    (readlineInto allbuf idx linebuf).bind fun call =>
      if call.1 = -1 then some [call]
      else (readLines allbuf fuel call.1.toNat call.2).map (call :: ·)

/-- The pieces of a text between its `\r\n`. -/
structure Pieces (s : List UInt8) (pieces : List (List UInt8)) : Prop where
  nonempty : pieces ≠ []
  noCrlf : ∀ piece ∈ pieces, ¬ crlf <:+: piece
  joined : crlf.intercalate pieces = s

/-- The lines of a text. -/
def linesOf (s : List UInt8) : List (List UInt8) := (splitLines s).1 :: (splitLines s).2

/-! ## The pieces of a text -/

theorem crlf_infix_cons_cons {b c : UInt8} {s : List UInt8} :
    crlf <:+: b :: c :: s ↔ b = 13 ∧ c = 10 ∨ crlf <:+: c :: s := by
  rw [List.infix_cons_iff, crlf, List.cons_prefix_cons, List.cons_prefix_cons]
  simp [eq_comm]

theorem crlf_not_infix_nil : ¬ crlf <:+: [] := by decide

theorem crlf_not_infix_singleton (b : UInt8) : ¬ crlf <:+: [b] := by
  intro h
  exact absurd h.length_le (by simp [crlf])

/-- A text without a line end is one line. -/
theorem splitLines_last {s : List UInt8} (h : ¬ crlf <:+: s) : splitLines s = (s, []) := by
  induction s using splitLines.induct with
  | case1 => rfl
  | case2 b => rfl
  | case3 b c rest hcrlf _ => exact absurd (crlf_infix_cons_cons.mpr (.inl hcrlf)) h
  | case4 b c rest hcrlf ih =>
      rw [splitLines, if_neg hcrlf, ih (fun h' => h (crlf_infix_cons_cons.mpr (.inr h')))]

/-- A line is taken up to the first line end. -/
theorem splitLines_append {line : List UInt8} (h : ¬ crlf <:+: line) (rest : List UInt8) :
    splitLines (line ++ (crlf ++ rest)) = (line, linesOf rest) := by
  induction line using splitLines.induct with
  | case1 => rw [List.nil_append, crlf, List.cons_append, List.cons_append, List.nil_append,
      splitLines, if_pos ⟨rfl, rfl⟩, linesOf]
  | case2 b =>
      have hb : ¬ (b = 13 ∧ (13 : UInt8) = 10) := fun hb => absurd hb.2 (by decide)
      have hcrlf : splitLines (13 :: 10 :: rest) = ([], linesOf rest) := by
        rw [splitLines, if_pos ⟨rfl, rfl⟩, linesOf]
      show splitLines (b :: 13 :: 10 :: rest) = _
      rw [splitLines, if_neg hb, hcrlf]
  | case3 b c line hcrlf _ => exact absurd (crlf_infix_cons_cons.mpr (.inl hcrlf)) h
  | case4 b c line hcrlf ih =>
      have hrest := ih (fun h' => h (crlf_infix_cons_cons.mpr (.inr h')))
      rw [List.cons_append] at hrest
      rw [List.cons_append, List.cons_append, splitLines, if_neg hcrlf, hrest]

/-- The first line has no line end. -/
theorem splitLines_noCrlf (s : List UInt8) : ¬ crlf <:+: (splitLines s).1 := by
  induction s using splitLines.induct with
  | case1 => exact crlf_not_infix_nil
  | case2 b => exact crlf_not_infix_singleton b
  | case3 b c rest hcrlf _ =>
      rw [splitLines, if_pos hcrlf]
      exact crlf_not_infix_nil
  | case4 b c rest hcrlf ih =>
      rw [splitLines, if_neg hcrlf]
      cases hline : (splitLines (c :: rest)).1 with
      | nil => exact crlf_not_infix_singleton b
      | cons d line =>
          rw [hline] at ih
          have hd : d = c := by
            rcases splitLines_cases (c :: rest) with ⟨-, hs⟩ | ⟨rest', hs, -⟩
            · rw [hline] at hs
              exact (List.cons.inj hs).1.symm
            · rw [hline] at hs
              exact (List.cons.inj hs).1.symm
          rw [hd] at ih ⊢
          rw [crlf_infix_cons_cons]
          exact not_or_intro hcrlf ih

/-- A text is one line, or a line, its end and further lines. -/
theorem linesOf_cases (s : List UInt8) :
    linesOf s = [s] ∨ ∃ line rest, s = line ++ (crlf ++ rest) ∧ ¬ crlf <:+: line ∧
      linesOf s = line :: linesOf rest := by
  rcases splitLines_cases s with ⟨hlast, hs⟩ | ⟨rest, hs, hnext⟩
  · left
    rw [linesOf, hlast, ← hs]
  · exact .inr ⟨(splitLines s).1, rest, hs, splitLines_noCrlf s, by rw [linesOf, hnext]; rfl⟩

theorem pieces_singleton {s : List UInt8} (h : ¬ crlf <:+: s) : Pieces s [s] :=
  ⟨by simp, by simpa using h, List.intercalate_singleton⟩

theorem pieces_cons {line rest : List UInt8} {pieces : List (List UInt8)}
    (hline : ¬ crlf <:+: line) (h : Pieces rest pieces) :
    Pieces (line ++ (crlf ++ rest)) (line :: pieces) := by
  refine ⟨by simp, ?_, ?_⟩
  · intro piece hpiece
    rcases List.mem_cons.mp hpiece with rfl | hpiece
    · exact hline
    · exact h.noCrlf piece hpiece
  · rw [List.intercalate_cons_of_ne_nil h.nonempty, h.joined, List.append_assoc]

/-- The lines of a text are its only pieces. -/
theorem Pieces.eq_linesOf {s : List UInt8} {pieces : List (List UInt8)} (h : Pieces s pieces) :
    pieces = linesOf s := by
  obtain ⟨hne, hnoCrlf, rfl⟩ := h
  induction pieces with
  | nil => exact absurd rfl hne
  | cons line pieces ih =>
      have hline := hnoCrlf line List.mem_cons_self
      cases pieces with
      | nil => rw [List.intercalate_singleton, linesOf, splitLines_last hline]
      | cons next pieces =>
          have hrest := ih (by simp) fun piece hpiece =>
            hnoCrlf piece (List.mem_cons_of_mem _ hpiece)
          rw [List.intercalate_cons_cons, List.append_assoc, linesOf, splitLines_append hline,
            ← hrest]

theorem pieces_linesOf (s : List UInt8) : Pieces s (linesOf s) := by
  generalize hlines : linesOf s = lines
  induction lines generalizing s with
  | nil => cases hlines
  | cons line lines ih =>
      have hnoCrlf := splitLines_noCrlf s
      rcases linesOf_cases s with hlast | ⟨line', rest, rfl, hline', hnext⟩
      · rw [← hlines, hlast]
        have hs : (splitLines s).1 = s := (List.cons.inj hlast).1
        exact pieces_singleton (hs ▸ hnoCrlf)
      · rw [hlines] at hnext
        obtain ⟨rfl, hrest⟩ := List.cons.inj hnext
        exact pieces_cons hline' (ih rest hrest.symm)

theorem pieces_iff {s : List UInt8} {pieces : List (List UInt8)} :
    Pieces s pieces ↔ pieces = linesOf s :=
  ⟨Pieces.eq_linesOf, fun h => h ▸ pieces_linesOf s⟩

/-! ## The calls -/

/-- What the calls return and leave in `linebuf` when they copy these pieces, the first of which
starts at `idx`: a call returns the index behind the line end of its piece, the last one `-1`,
and overwrites the start of `linebuf` with the piece. -/
def CopyPieces (idx : ℕ) (linebuf : List UInt8) (pieces : List (List UInt8))
    (calls : List (ℤ × List UInt8)) : Prop :=
  calls.length = pieces.length ∧
    ∀ i piece, pieces[i]? = some piece → ∃ call before, calls[i]? = some call ∧
      (linebuf :: calls.map Prod.snd)[i]? = some before ∧
      call.2 = piece ++ before.drop piece.length ∧
      call.1 = if i + 1 = pieces.length then -1
        else ((idx + (crlf.intercalate (pieces.take (i + 1)) ++ crlf).length : ℕ) : ℤ)

theorem copyPieces_singleton (idx : ℕ) (linebuf piece : List UInt8) :
    CopyPieces idx linebuf [piece] [(-1, piece ++ linebuf.drop piece.length)] := by
  refine ⟨rfl, ?_⟩
  intro i piece' hpiece
  cases i with
  | zero =>
      cases hpiece
      exact ⟨_, linebuf, rfl, rfl, rfl, rfl⟩
  | succ i => cases hpiece

theorem copyPieces_cons {idx : ℕ} {linebuf piece : List UInt8} {pieces : List (List UInt8)}
    {calls : List (ℤ × List UInt8)} (hne : pieces ≠ [])
    (h : CopyPieces (idx + piece.length + 2) (piece ++ linebuf.drop piece.length) pieces calls) :
    CopyPieces idx linebuf (piece :: pieces)
      (((idx + piece.length + 2 : ℕ), piece ++ linebuf.drop piece.length) :: calls) := by
  have hpos : 0 < pieces.length := List.length_pos_iff.mpr hne
  refine ⟨by simpa using h.1, ?_⟩
  intro i piece' hpiece
  cases i with
  | zero =>
      cases hpiece
      refine ⟨_, linebuf, rfl, rfl, rfl, ?_⟩
      rw [if_neg (by rw [List.length_cons]; omega)]
      simp [crlf, Nat.add_assoc]
  | succ i =>
      rw [List.getElem?_cons_succ] at hpiece
      obtain ⟨call, before, hcall, hbefore, hmem, hnext⟩ := h.2 i piece' hpiece
      refine ⟨call, before, hcall, hbefore, hmem, ?_⟩
      have htake : pieces.take (i + 1) ≠ [] := by
        simpa [List.take_eq_nil_iff] using hne
      rw [hnext, List.take_succ_cons, List.intercalate_cons_of_ne_nil htake]
      simp only [List.length_cons, List.length_append, Nat.add_right_cancel_iff]
      congr 2
      simp only [crlf, List.length_cons, List.length_nil]
      omega

theorem readlineInto_split {allbuf pre suffix : List UInt8} (htext : text allbuf = pre ++ suffix)
    {linebuf : List UInt8} (hlarge : (splitLines suffix).1.length ≤ linebuf.length) :
    readlineInto allbuf pre.length linebuf =
      some (if (splitLines suffix).2 = [] then -1
        else ((pre.length + (splitLines suffix).1.length + 2 : ℕ) : ℤ),
        (splitLines suffix).1 ++ linebuf.drop (splitLines suffix).1.length) := by
  rw [readlineInto, readline_split htext, store_eq_some (by simpa using hlarge)]
  simp

/-- The calls from the start of a line on. -/
theorem readLines_split {allbuf pre suffix : List UInt8} (htext : text allbuf = pre ++ suffix)
    {linebuf : List UInt8} (hlarge : ∀ piece ∈ linesOf suffix, piece.length ≤ linebuf.length) :
    ∃ calls, readLines allbuf (linesOf suffix).length pre.length linebuf = some calls ∧
      CopyPieces pre.length linebuf (linesOf suffix) calls := by
  generalize hlines : linesOf suffix = lines at hlarge ⊢
  induction lines generalizing pre suffix linebuf with
  | nil => cases hlines
  | cons line lines ih =>
      have hline : (splitLines suffix).1 = line := (List.cons.inj hlines).1
      have hfits : line.length ≤ linebuf.length := hlarge line List.mem_cons_self
      have hcall := readlineInto_split htext (hline ▸ hfits)
      rw [hline] at hcall
      rcases linesOf_cases suffix with hlast | ⟨line', rest, hsuffix, -, hnext⟩
      · rw [hlines] at hlast
        obtain ⟨-, rfl⟩ := List.cons.inj hlast
        have hend : (splitLines suffix).2 = [] := (List.cons.inj hlines).2
        rw [if_pos hend] at hcall
        refine ⟨_, ?_, copyPieces_singleton pre.length linebuf line⟩
        rw [List.length_singleton, readLines, hcall]
        rfl
      · rw [hlines] at hnext
        obtain ⟨rfl, hrest⟩ := List.cons.inj hnext
        have hgo : (splitLines suffix).2 ≠ [] := by
          rw [(List.cons.inj hlines).2, hrest, linesOf]
          simp
        rw [if_neg hgo] at hcall
        have htext' : text allbuf = (pre ++ (line ++ crlf)) ++ rest := by
          rw [htext, hsuffix]
          simp
        have hlen : (pre ++ (line ++ crlf)).length = pre.length + line.length + 2 := by
          simp [crlf, Nat.add_assoc]
        have hsame : (line ++ linebuf.drop line.length).length = linebuf.length := by
          simp only [List.length_append, List.length_drop]
          omega
        have hlarge' : ∀ piece ∈ lines,
            piece.length ≤ (line ++ linebuf.drop line.length).length := by
          intro piece hpiece
          rw [hsame]
          exact hlarge piece (List.mem_cons_of_mem _ hpiece)
        obtain ⟨calls, hcalls, hcopy⟩ := ih htext' hrest.symm hlarge'
        rw [hlen] at hcalls hcopy
        refine ⟨_, ?_, copyPieces_cons (by rw [hrest, linesOf]; simp) hcopy⟩
        rw [List.length_cons, readLines, hcall, Option.bind_some, if_neg (by simp; omega),
          Int.toNat_natCast, hcalls]
        rfl

/-- **Lines.** The calls of `readline` from index 0 on come to an end, and copy the pieces of the
text between its `\r\n` one after the other. -/
theorem readLines_pieces (allbuf linebuf : List UInt8)
    (hlarge : ∀ pieces, Pieces (text allbuf) pieces →
      ∀ piece ∈ pieces, piece.length ≤ linebuf.length) :
    ∃ pieces, (∀ pieces', Pieces (text allbuf) pieces' ↔ pieces' = pieces) ∧
      ∃ fuel calls, readLines allbuf fuel 0 linebuf = some calls ∧
        CopyPieces 0 linebuf pieces calls := by
  have hfits := hlarge (linesOf (text allbuf)) (pieces_linesOf _)
  have htext : text allbuf = [] ++ text allbuf := rfl
  obtain ⟨calls, hcalls, hcopy⟩ := readLines_split htext hfits
  exact ⟨linesOf (text allbuf), fun _ => pieces_iff, _, calls, hcalls, hcopy⟩

/-- An empty line, one with further `\r` and `\n`, and a `\r` at the end. -/
def oddLines : List UInt8 := ofString "ab\r\n\r\n\r\r\n\n\r" ++ [0, 97]

theorem readLines_pieces_oddLines :
    linesOf (text oddLines) = [[97, 98], [], [13], [10, 13]] ∧
      ∃ pieces, (∀ pieces', Pieces (text oddLines) pieces' ↔ pieces' = pieces) ∧
        ∃ fuel calls, readLines oddLines fuel 0 (zeros 2) = some calls ∧
          CopyPieces 0 (zeros 2) pieces calls := by
  refine ⟨by decide, ?_⟩
  apply readLines_pieces
  intro pieces hpieces
  rw [hpieces.eq_linesOf]
  decide

end ServerKit.Websocket
