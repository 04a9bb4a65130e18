import ServerKit.Websocket.Handshake
import ServerKit.Websocket.Isolation

/-! # The upgrade of a connection

`websocket_request` takes a connection for upgraded as soon as anything has been received on
it. Whether `handshark` answers depends on the lines of the first chunk. -/

namespace ServerKit.Websocket

open ServerKit.Memory ServerKit.CString ServerKit.Reactor ServerKit.System

/-! ## The lines of a chunk -/

/-- The bytes up to the first line end, and the lines behind it; the last line has no end. -/
def splitLines : List UInt8 → List UInt8 × List (List UInt8)
  | [] => ([], [])
  | [b] => ([b], [])
  | b :: c :: rest =>
    if b = 13 ∧ c = 10 then ([], (splitLines rest).1 :: (splitLines rest).2)
    else (b :: (splitLines (c :: rest)).1, (splitLines (c :: rest)).2)

/-- The lines of a chunk in front of the first empty one; the first line may be empty. -/
def headLines (chunk : List UInt8) : List (List UInt8) :=
  (splitLines (text chunk)).1 :: (splitLines (text chunk)).2.takeWhile (· ≠ [])

/-- A line in front of the first empty one contains the name of the header with the key. -/
def NamesKey (chunk : List UInt8) : Prop := ∃ line ∈ headLines chunk, keyText <:+: line

instance (chunk : List UInt8) : Decidable (NamesKey chunk) :=
  inferInstanceAs (Decidable (∃ _ ∈ _, _))

/-- What `splitLines` takes apart. -/
theorem splitLines_cases (s : List UInt8) :
    (splitLines s).2 = [] ∧ s = (splitLines s).1 ∨
      ∃ rest, s = (splitLines s).1 ++ 13 :: 10 :: rest ∧
        (splitLines s).2 = (splitLines rest).1 :: (splitLines rest).2 := by
  induction s using splitLines.induct with
  | case1 => exact .inl ⟨rfl, rfl⟩
  | case2 b => exact .inl ⟨rfl, rfl⟩
  | case3 b c rest hcrlf ih =>
      refine .inr ⟨rest, ?_, ?_⟩
      · rw [splitLines, if_pos hcrlf, hcrlf.1, hcrlf.2]
        rfl
      · rw [splitLines, if_pos hcrlf]
  | case4 b c rest hcrlf ih =>
      rw [splitLines, if_neg hcrlf]
      rcases ih with ⟨hlast, hs⟩ | ⟨rest', hs, hnext⟩
      · exact .inl ⟨hlast, congrArg (b :: ·) hs⟩
      · exact .inr ⟨rest', congrArg (b :: ·) hs, hnext⟩

/-- The first line is empty and has an end exactly when the text starts with one. -/
theorem splitLines_starts (s : List UInt8) :
    s[0]? = some 13 ∧ s[1]? = some 10 ↔ (splitLines s).1 = [] ∧ (splitLines s).2 ≠ [] := by
  cases s with
  | nil => simp [splitLines]
  | cons b s =>
      cases s with
      | nil => simp [splitLines]
      | cons c rest =>
          rw [splitLines]
          split
          · rename_i hcrlf
            simp [hcrlf]
          · rename_i hcrlf
            simpa using hcrlf

/-- The loop of `readline` copies the first line. -/
theorem readlineLoop_split (suffix pre tail acc : List UInt8) (htail : tail[0]? ≠ some 10) :
    readlineLoop (pre ++ (suffix ++ tail)) pre.length acc suffix.length =
      (if (splitLines suffix).2 = [] then -1
        else ((pre.length + (splitLines suffix).1.length + 2 : ℕ) : ℤ),
        acc ++ (splitLines suffix).1) := by
  have hget : ∀ k : ℕ, (pre ++ (suffix ++ tail))[pre.length + k]? = (suffix ++ tail)[k]? :=
    fun k => getElem?_at_length pre _ k
  induction suffix using splitLines.induct generalizing pre acc with
  | case1 => simp [readlineLoop, splitLines]
  | case2 b =>
      have hend : ¬ ((pre ++ ([b] ++ tail))[pre.length]? = some 13 ∧
          (pre ++ ([b] ++ tail))[pre.length + 1]? = some 10) := by
        intro h
        rw [hget 1] at h
        exact htail h.2
      have hhead : (pre ++ ([b] ++ tail))[pre.length]? = some b := hget 0
      rw [List.length_singleton, readlineLoop, if_neg hend, hhead]
      simp [readlineLoop, splitLines]
  | case3 b c rest hcrlf ih =>
      have hend : (pre ++ (b :: c :: rest ++ tail))[pre.length]? = some 13 ∧
          (pre ++ (b :: c :: rest ++ tail))[pre.length + 1]? = some 10 := by
        have h₀ := hget 0
        have h₁ := hget 1
        rw [hcrlf.1, hcrlf.2] at h₀ h₁ ⊢
        exact ⟨h₀, h₁⟩
      rw [List.length_cons, readlineLoop, if_pos hend, splitLines, if_pos hcrlf]
      simp
  | case4 b c rest hcrlf ih =>
      have hend : ¬ ((pre ++ (b :: c :: rest ++ tail))[pre.length]? = some 13 ∧
          (pre ++ (b :: c :: rest ++ tail))[pre.length + 1]? = some 10) := by
        intro h
        have h₀ := hget 0
        have h₁ := hget 1
        rw [Nat.add_zero, h.1] at h₀
        rw [h.2] at h₁
        apply hcrlf
        simpa [eq_comm] using And.intro h₀ h₁
      have hhead : (pre ++ (b :: c :: rest ++ tail))[pre.length]? = some b := hget 0
      have hrest := ih (pre ++ [b]) (acc ++ [b]) (fun k => getElem?_at_length _ _ k)
      have hassoc : pre ++ [b] ++ (c :: rest ++ tail) = pre ++ (b :: c :: rest ++ tail) := by simp
      rw [hassoc, List.length_append, List.length_singleton] at hrest
      rw [List.length_cons, readlineLoop, if_neg hend, hhead, Option.toList_some, hrest,
        splitLines, if_neg hcrlf]
      split
      · simp
      · simp only [List.length_cons, List.append_assoc, List.singleton_append, Prod.mk.injEq,
          and_true]
        omega

/-- `readline` at the start of a line. -/
theorem readline_split {allbuf pre suffix : List UInt8} (htext : text allbuf = pre ++ suffix) :
    readline allbuf pre.length =
      (if (splitLines suffix).2 = [] then -1
        else ((pre.length + (splitLines suffix).1.length + 2 : ℕ) : ℤ),
        (splitLines suffix).1) := by
  rcases text_isPrefix allbuf with ⟨tail, htail⟩
  have hlen : (text allbuf).length - pre.length = suffix.length := by
    rw [htext, List.length_append]
    omega
  have hzero : tail[0]? ≠ some 10 := by
    intro hten
    have hget := getElem?_at_length (text allbuf) tail 0
    rw [htail, hten] at hget
    exact absurd (getElem?_length_text hget) (by decide)
  rw [htext, List.append_assoc] at htail
  rw [readline, hlen]
  have hloop := readlineLoop_split suffix pre tail [] hzero
  rw [htail] at hloop
  exact hloop

/-! ## The loop over the lines -/

variable {openssl : OpenSSL}

/-- From the index of a line on `handshark` comes to a line with the key and prints the
response: the slot afterwards. -/
inductive Responds (openssl : OpenSSL) (ev : Event) : ℕ → Event → Prop where
  | here {idx : ℕ} {linebuf : List UInt8} {ev' : Event}
      (hline : store (zeros 1024) 0 (readline ev.buffer idx).2 = some linebuf)
      (hfound : strstr linebuf keyText = some true)
      (hrespond : respond openssl linebuf ev = some ev') : Responds openssl ev idx ev'
  | later {idx : ℕ} {linebuf : List UInt8} {ev' : Event}
      (hline : store (zeros 1024) 0 (readline ev.buffer idx).2 = some linebuf)
      (hfound : strstr linebuf keyText = some false)
      (hgo : (byteAt ev (readline ev.buffer idx).1 ≠ 13 ∨
        byteAt ev ((readline ev.buffer idx).1 + 1) ≠ 10) ∧ (readline ev.buffer idx).1 ≠ -1)
      (h : Responds openssl ev (readline ev.buffer idx).1.toNat ev') : Responds openssl ev idx ev'

/-- What `strstr` finds in a line that fits into `linebuf`. -/
theorem strstr_linebuf {line linebuf : List UInt8} {found : Bool} (hzero : (0 : UInt8) ∉ line)
    (hstore : store (zeros 1024) 0 line = some linebuf)
    (hfound : strstr linebuf keyText = some found) : found = true ↔ keyText <:+: line := by
  have hlen : line.length ≤ 1024 := by
    unfold store at hstore
    split at hstore
    · rename_i hfits
      simpa using hfits
    · cases hstore
  rw [store_zeros hlen, Option.some.injEq] at hstore
  by_cases hfull : line.length = 1024
  · -- Without a final zero byte there is no string.
    rw [← hstore, hfull, Nat.sub_self, strstr, cstr,
      if_neg (by simpa [zeros] using hzero)] at hfound
    cases hfound
  · rw [← hstore, strstr, cstr_append_zeros line (by omega), Option.map_some,
      Option.some.injEq] at hfound
    rw [← hfound, text_eq_self.mpr hzero, decide_eq_true_iff]

/-- The loop stops in front of an empty line. -/
theorem stops_iff {ev : Event} {done rest : List UInt8} (htext : text ev.buffer = done ++ rest)
    (hfinal : byteAt ev (text ev.buffer).length = 0) :
    byteAt ev (done.length : ℤ) = 13 ∧ byteAt ev ((done.length : ℤ) + 1) = 10 ↔
      (splitLines rest).1 = [] ∧ (splitLines rest).2 ≠ [] := by
  rw [← splitLines_starts]
  have hbehind : ∀ k : ℕ, rest.length = k → byteAt ev ((done.length : ℤ) + k) = 0 := by
    intro k hk
    rw [htext, List.length_append, hk] at hfinal
    exact_mod_cast hfinal
  have hwithin : ∀ (k : ℕ) (b : UInt8), rest[k]? = some b →
      byteAt ev ((done.length : ℤ) + k) = b := by
    intro k b hb
    exact_mod_cast byteAt_text htext hb
  cases rest with
  | nil =>
      have hbyte : byteAt ev (done.length : ℤ) = 0 := by simpa using hbehind 0 rfl
      simp [hbyte]
  | cons b rest =>
      have hbyte : byteAt ev (done.length : ℤ) = b := by simpa using hwithin 0 b rfl
      cases rest with
      | nil =>
          have hbyte₁ : byteAt ev ((done.length : ℤ) + 1) = 0 := hbehind 1 rfl
          simp [hbyte₁]
      | cons c rest =>
          have hbyte₁ : byteAt ev ((done.length : ℤ) + 1) = c := hwithin 1 c rfl
          simp [hbyte, hbyte₁]

/-- Behind a line `readline` comes to the next one. -/
theorem readline_next {allbuf pre suffix next : List UInt8} {more : List (List UInt8)}
    (htext : text allbuf = pre ++ suffix) (hrest : (splitLines suffix).2 = next :: more) :
    ∃ pre' suffix', text allbuf = pre' ++ suffix' ∧ splitLines suffix' = (next, more) ∧
      (readline allbuf pre.length).1 = (pre'.length : ℤ) := by
  rcases splitLines_cases suffix with ⟨hlast, -⟩ | ⟨suffix', hsuffix, hnext⟩
  · rw [hrest] at hlast
    cases hlast
  · rw [hrest] at hnext
    cases hnext
    refine ⟨pre ++ ((splitLines suffix).1 ++ crlf), suffix', ?_, rfl, ?_⟩
    · rw [htext, List.append_assoc, List.append_assoc]
      exact congrArg (pre ++ ·) hsuffix
    · rw [readline_split htext, if_neg (by simp [hrest])]
      simp [crlf, Nat.add_assoc]

/-- The loop goes on to another line, unless this is an empty one with an end. -/
theorem goes_iff {ev : Event} (hfinal : byteAt ev (text ev.buffer).length = 0)
    {pre suffix : List UInt8} (htext : text ev.buffer = pre ++ suffix) :
    (byteAt ev (readline ev.buffer pre.length).1 ≠ 13 ∨
        byteAt ev ((readline ev.buffer pre.length).1 + 1) ≠ 10) ∧
        (readline ev.buffer pre.length).1 ≠ -1 ↔
      ∃ next more, (splitLines suffix).2 = next :: more ∧ ¬ (next = [] ∧ more ≠ []) := by
  cases hrest : (splitLines suffix).2 with
  | nil => simp [readline_split htext, hrest]
  | cons next more =>
      obtain ⟨pre', suffix', htext', hsplit, hidx⟩ := readline_next htext hrest
      have hstops := stops_iff htext' hfinal
      rw [hsplit] at hstops
      rw [hidx, ← not_and_or, hstops]
      simp

theorem zero_not_mem_line {allbuf pre suffix : List UInt8} (htext : text allbuf = pre ++ suffix) :
    (0 : UInt8) ∉ (splitLines suffix).1 := by
  intro hmem
  apply zero_not_mem_text allbuf
  rw [htext]
  apply List.mem_append_right
  rcases splitLines_cases suffix with ⟨-, hs⟩ | ⟨_, hs, -⟩
  · rw [hs]
    exact hmem
  · rw [hs]
    exact List.mem_append_left _ hmem

/-- A line with the key among these, up to the first empty one behind the first. -/
def Keyed (line : List UInt8) (rest : List (List UInt8)) : Prop :=
  ∃ l ∈ line :: rest.takeWhile (· ≠ []), keyText <:+: l

theorem keyText_ne_nil : keyText ≠ [] := by decide

/-- Behind a line without the key the next one decides, if it is not empty. -/
theorem keyed_cons {line next : List UInt8} {rest : List (List UInt8)}
    (hline : ¬ keyText <:+: line) :
    Keyed line (next :: rest) ↔ ¬ (next = [] ∧ rest ≠ []) ∧ Keyed next rest := by
  by_cases hnext : next = []
  · subst hnext
    cases rest with
    | nil => simp [Keyed, hline, keyText_ne_nil]
    | cons l rest => simp [Keyed, hline]
  · simp [Keyed, hline, hnext]

/-- What `handshark` does with the line it has read. -/
theorem responds_iff {ev ev' : Event} {idx : ℕ} {linebuf : List UInt8} {found : Bool}
    (hline : store (zeros 1024) 0 (readline ev.buffer idx).2 = some linebuf)
    (hfound : strstr linebuf keyText = some found) :
    Responds openssl ev idx ev' ↔
      found = true ∧ respond openssl linebuf ev = some ev' ∨
      found = false ∧ ((byteAt ev (readline ev.buffer idx).1 ≠ 13 ∨
        byteAt ev ((readline ev.buffer idx).1 + 1) ≠ 10) ∧ (readline ev.buffer idx).1 ≠ -1) ∧
        Responds openssl ev (readline ev.buffer idx).1.toNat ev' := by
  constructor
  · intro h
    cases h with
    | here hline' hfound' hrespond =>
        rw [hline] at hline'
        cases hline'
        rw [hfound] at hfound'
        cases hfound'
        exact .inl ⟨rfl, hrespond⟩
    | later hline' hfound' hgo h =>
        rw [hline] at hline'
        cases hline'
        rw [hfound] at hfound'
        cases hfound'
        exact .inr ⟨rfl, hgo, h⟩
  · rintro (⟨rfl, hrespond⟩ | ⟨rfl, hgo, h⟩)
    · exact .here hline hfound hrespond
    · exact .later hline hfound hgo h

/-- Nothing is printed, and the slot stays as it is. -/
def Passes (openssl : OpenSSL) (ev ev' : Event) (idx : ℕ) : Prop :=
  ev' = ev ∧ ∀ ev'', ¬ Responds openssl ev idx ev''

/-- One line: it has the key, or it is the last one that is looked at, or the loop goes on to
the next line. -/
theorem handsharkLoop_line {ev ev' : Event} (hfinal : byteAt ev (text ev.buffer).length = 0)
    {pre suffix line : List UInt8} {rest : List (List UInt8)}
    (htext : text ev.buffer = pre ++ suffix) (hsplit : splitLines suffix = (line, rest))
    (h : handsharkLoop openssl ev pre.length = some ev') :
    keyText <:+: line ∧ Responds openssl ev pre.length ev' ∨
      ¬ keyText <:+: line ∧
        (Passes openssl ev ev' pre.length ∧
            (rest = [] ∨ ∃ more, more ≠ [] ∧ rest = [] :: more) ∨
          ∃ next more pre' suffix', rest = next :: more ∧ ¬ (next = [] ∧ more ≠ []) ∧
            text ev.buffer = pre' ++ suffix' ∧ splitLines suffix' = (next, more) ∧
            handsharkLoop openssl ev pre'.length = some ev' ∧
            ∀ ev'',
              Responds openssl ev pre.length ev'' ↔ Responds openssl ev pre'.length ev'') := by
  have hline : (splitLines suffix).1 = line := by rw [hsplit]
  have hrest : (splitLines suffix).2 = rest := by rw [hsplit]
  have hgoes := goes_iff hfinal htext
  rw [hrest] at hgoes
  rw [handsharkLoop_eq] at h
  rcases Option.bind_eq_some_iff.mp h with ⟨linebuf, hstore, h⟩
  rcases Option.bind_eq_some_iff.mp h with ⟨found, hfound, h⟩
  have hiff : ∀ ev'', Responds openssl ev pre.length ev'' ↔
      found = true ∧ respond openssl linebuf ev = some ev'' ∨
      found = false ∧ ((byteAt ev (readline ev.buffer pre.length).1 ≠ 13 ∨
        byteAt ev ((readline ev.buffer pre.length).1 + 1) ≠ 10) ∧
        (readline ev.buffer pre.length).1 ≠ -1) ∧
        Responds openssl ev (readline ev.buffer pre.length).1.toNat ev'' :=
    fun ev'' => responds_iff hstore hfound
  have hlinebuf : store (zeros 1024) 0 line = some linebuf := by
    rw [← hstore, readline_split htext, hline]
  have hkey := strstr_linebuf (hline ▸ zero_not_mem_line htext) hlinebuf hfound
  cases found with
  | true =>
      rw [if_pos rfl] at h
      exact .inl ⟨hkey.mp rfl, (hiff ev').mpr (.inl ⟨rfl, h⟩)⟩
  | false =>
      refine .inr ⟨fun hmem => Bool.false_ne_true (hkey.mpr hmem), ?_⟩
      rw [if_neg Bool.false_ne_true] at h
      split at h
      · rename_i hgo
        obtain ⟨next, more, hnext, hgoesOn⟩ := hgoes.mp hgo
        obtain ⟨pre', suffix', htext', hsplit', hidx⟩ := readline_next htext (hrest.trans hnext)
        have htoNat : (readline ev.buffer pre.length).1.toNat = pre'.length := by
          rw [hidx, Int.toNat_natCast]
        rw [htoNat] at h
        refine .inr ⟨next, more, pre', suffix', hnext, hgoesOn, htext', hsplit', h, ?_⟩
        intro ev''
        rw [hiff ev'', htoNat]
        simp [hgo]
      · -- without a step to the next line there is no response either
        rename_i hstop
        cases h
        refine .inl ⟨⟨rfl, ?_⟩, ?_⟩
        · intro ev'' hresponds
          rcases (hiff ev'').mp hresponds with ⟨htrue, -⟩ | ⟨-, hgo, -⟩
          · cases htrue
          · exact hstop hgo
        · cases rest with
          | nil => exact .inl rfl
          | cons next more =>
              have hempty : next = [] ∧ more ≠ [] := by
                by_contra hother
                exact hstop (hgoes.mpr ⟨next, more, rfl, hother⟩)
              exact .inr ⟨more, hempty.2, by rw [hempty.1]⟩

/-- `handshark` prints the response if one of the lines has the key, and otherwise leaves the
slot as it is. -/
theorem handsharkLoop_spec {ev ev' : Event} (hfinal : byteAt ev (text ev.buffer).length = 0)
    {pre suffix line : List UInt8} {rest : List (List UInt8)}
    (htext : text ev.buffer = pre ++ suffix) (hsplit : splitLines suffix = (line, rest))
    (h : handsharkLoop openssl ev pre.length = some ev') :
    Keyed line rest ∧ Responds openssl ev pre.length ev' ∨
      ¬ Keyed line rest ∧ Passes openssl ev ev' pre.length := by
  induction rest generalizing pre suffix line with
  | nil =>
      rcases handsharkLoop_line hfinal htext hsplit h with
        ⟨hkey, hresponds⟩ | ⟨hkey, ⟨hpass, -⟩ | ⟨_, _, _, _, hcons, -⟩⟩
      · exact .inl ⟨⟨line, List.mem_cons_self, hkey⟩, hresponds⟩
      · exact .inr ⟨by simpa [Keyed] using hkey, hpass⟩
      · cases hcons
  | cons next rest ih =>
      rcases handsharkLoop_line hfinal htext hsplit h with
        ⟨hkey, hresponds⟩ | ⟨hkey, ⟨hpass, hend⟩ | ⟨_, _, pre', suffix', hcons, hnext, htext',
          hsplit', hloop, hiff⟩⟩
      · exact .inl ⟨⟨line, List.mem_cons_self, hkey⟩, hresponds⟩
      · refine .inr ⟨?_, hpass⟩
        rcases hend with hnil | ⟨more, hmore, hcons⟩
        · cases hnil
        · cases hcons
          rw [keyed_cons hkey]
          intro hkeyed
          exact hkeyed.1 ⟨rfl, hmore⟩
      · cases hcons
        rw [keyed_cons hkey, and_iff_right hnext, hiff ev', Passes]
        simp only [hiff]
        exact ih htext' hsplit' hloop

/-! ## The answers of a connection -/

/-- Behind a chunk in the buffer comes a zero byte. -/
theorem byteAt_behind_text (ev : Event) {chunk : List UInt8}
    (hbuffer : ev.buffer.length = BUFFER_LENGTH) (hlen : chunk.length ≤ BUFFER_LENGTH) :
    byteAt (storeChunk ev chunk) (text (storeChunk ev chunk).buffer).length = 0 := by
  have h : SameChunk chunk (storeChunk ev chunk) (storeChunk ev chunk) :=
    sameChunk_storeChunk rfl hbuffer hbuffer hlen
  rw [byteAt_natCast, List.getD_eq_getElem?_getD]
  rcases hget : (storeChunk ev chunk).buffer[(text (storeChunk ev chunk).buffer).length]? with _ | b
  · -- The text fills the buffer, so that it is the whole chunk.
    have hend := List.getElem?_eq_none_iff.mp hget
    have hprefix := (text_isPrefix chunk).length_le
    rw [storeChunk_buffer_length ev hbuffer hlen, h.text₁] at hend
    have hfinal := h.final
    rw [show chunk.length = (text (storeChunk ev chunk).buffer).length by rw [h.text₁]; omega,
      byteAt_natCast, List.getD_eq_getElem?_getD, hget] at hfinal
    exact hfinal
  · exact getElem?_length_text hget

/-- What the branch for the key prints is sent as it is. -/
theorem respond_pending {linebuf : List UInt8} {ev ev' : Event}
    (h : respond openssl linebuf ev = some ev') : ∃ accept, ev'.pending = response accept := by
  simp only [respond, Option.bind_eq_bind, Option.bind_eq_some_iff] at h
  rcases h with ⟨_, _, _, _, _, _, _, _, ⟨secAccept, _⟩, _, accept, _, buffer, hstore, hev⟩
  cases hev
  refine ⟨accept, ?_⟩
  unfold store at hstore
  split at hstore
  · cases hstore
    simp [Ntyevent.pending]
  · cases hstore

theorem Responds.pending {ev ev' : Event} {idx : ℕ} (h : Responds openssl ev idx ev') :
    ∃ accept, ev'.pending = response accept := by
  induction h with
  | here hline hfound hrespond => exact respond_pending hrespond
  | later hline hfound hgo h ih => exact ih

/-- `handshark` has printed this response with the status 101 for the chunk. -/
def Produced (openssl : OpenSSL) (chunk bytes : List UInt8) : Prop :=
  ∃ ev accept, Responds openssl (storeChunk (.zero .tranmission) chunk) 0 ev ∧
    ev.pending = bytes ∧ bytes = response accept

/-- The answer to the first chunk: the response if there is a line with the key, and otherwise
the chunk itself. Either way the connection counts as upgraded. -/
theorem reply_handshark {chunk answer : List UInt8} {own : Machine}
    (hlen : chunk.length ≤ BUFFER_LENGTH)
    (h : reply openssl .handshark chunk = some (own, answer)) :
    own = .tranmission ∧ (NamesKey chunk ∧ Produced openssl chunk answer ∨
      ¬ NamesKey chunk ∧ ∀ response, ¬ Produced openssl chunk response) := by
  rcases Option.map_eq_some_iff.mp h with ⟨ev', hrequest, hvisible⟩
  have hzero : (Ntyevent.zero .tranmission : Event).buffer.length = BUFFER_LENGTH :=
    List.length_replicate
  have hstored : ({ storeChunk (Ntyevent.zero Machine.handshark) chunk with
      own := .tranmission } : Event) = storeChunk (.zero .tranmission) chunk := by
    by_cases hfits : chunk.length < BUFFER_LENGTH
    · simp only [storeChunk, if_pos hfits]
      rfl
    · simp only [storeChunk, if_neg hfits]
      rfl
  have hown : (storeChunk (.zero .handshark) chunk : Event).own = .handshark := by
    rw [storeChunk_frame]
    rfl
  have hshake : handsharkLoop openssl (storeChunk (.zero .tranmission) chunk)
      ([] : List UInt8).length = some ev' := by
    rw [websocketRequest, hown] at hrequest
    rw [← hstored]
    exact hrequest
  have hsame : SameChunk chunk (storeChunk (.zero .tranmission) chunk)
      (storeChunk (.zero .tranmission) chunk) := sameChunk_storeChunk rfl hzero hzero hlen
  have htext : text (storeChunk (.zero .tranmission) chunk : Event).buffer = [] ++ text chunk :=
    hsame.text₁
  have hspec := handsharkLoop_spec (byteAt_behind_text _ hzero hlen) htext rfl hshake
  have hframe : ev'.own = .tranmission := by
    rcases handsharkLoop_cases hshake with heq | ⟨_, _, _, heq⟩
    · rw [heq, storeChunk_frame]
      rfl
    · rw [heq, storeChunk_frame]
      rfl
  cases hvisible
  refine ⟨hframe, ?_⟩
  rcases hspec with ⟨hkeyed, hresponds⟩ | ⟨hkeyed, hpass⟩
  · rcases hresponds.pending with ⟨accept, haccept⟩
    exact .inl ⟨hkeyed, ev', accept, hresponds, rfl, haccept⟩
  · refine .inr ⟨hkeyed, ?_⟩
    rintro response ⟨ev'', _, hresponds, -⟩
    exact hpass.2 ev'' hresponds

/-- The answer to a chunk that is taken for a frame. -/
def echo (chunk : List UInt8) : List UInt8 :=
  (transmission (storeChunk (.zero .tranmission) chunk)).pending

theorem reply_tranmission (chunk : List UInt8) :
    reply openssl .tranmission chunk = some (.tranmission, echo chunk) := by
  have hown : (storeChunk (.zero .tranmission) chunk : Event).own = .tranmission := by
    rw [storeChunk_frame]
    rfl
  have hafter : (transmission (storeChunk (.zero .tranmission) chunk)).own = .tranmission := by
    rw [(transmission_frame _).1]
    exact hown
  rw [reply, websocketRequest, hown]
  simp only [Option.map_some, visible, hafter, echo]

/-- The first chunk is answered by `handshark`, all others as frames. -/
theorem replies_cons {chunk : List UInt8} {rest answers : List (List UInt8)} {own : Machine}
    (h : replies .handshark (reply openssl) (chunk :: rest) = some (answers, own)) :
    ∃ own' answer, reply openssl .handshark chunk = some (own', answer) ∧
      (own' = .tranmission → own = .tranmission ∧ answers = answer :: rest.map echo) := by
  rw [replies, List.foldlM_cons] at h
  rcases Option.bind_eq_some_iff.mp h with ⟨⟨answers', own'⟩, hfirst, hrest⟩
  rcases Option.map_eq_some_iff.mp hfirst with ⟨⟨own'', answer⟩, hreply, heq⟩
  cases heq
  refine ⟨own', answer, hreply, ?_⟩
  rintro rfl
  rw [List.nil_append] at hrest
  -- every further chunk appends its echo
  suffices ∀ front, List.foldlM (fun (x : List (List UInt8) × Machine) chunk =>
      (reply openssl x.2 chunk).map fun out => (x.1 ++ [out.2], out.1)) (front, .tranmission) rest =
        some (answers, own) → own = .tranmission ∧ answers = front ++ rest.map echo from
    this [answer] hrest
  clear hrest h hfirst
  induction rest with
  | nil =>
      intro front h
      cases h
      simp
  | cons chunk rest ih =>
      intro front h
      rw [List.foldlM_cons, reply_tranmission] at h
      rcases ih _ h with ⟨hown, hanswers⟩
      exact ⟨hown, by simp [hanswers]⟩

/-! ## Every run -/

/-- The first thing that is sent is the response that `handshark` has printed for the first
chunk. -/
def RespondsFirst (openssl : OpenSSL) (conn : Conn) : Prop :=
  ∀ bytes ∈ conn.offered.head?, ∃ chunk ∈ conn.received.head?, Produced openssl chunk bytes

/-- A connection is upgraded only by the response that `handshark` has printed for it, and
nothing is sent in front of that. -/
structure Upgraded (openssl : OpenSSL) (conn : Conn) (own : Machine) : Prop where
  state : own = .tranmission →
    ∃ chunk ∈ conn.received.head?, ∃ bytes, Produced openssl chunk bytes
  sent : RespondsFirst openssl conn

/-- The first chunk of the connection has the line with the key. -/
def AsksFirst (conn : Conn) : Prop := ∀ chunk ∈ conn.received.head?, NamesKey chunk

/-- A connection that has received nothing yet is not upgraded, one that has received something
is; the answers to the chunks. -/
theorem replies_cases {chunks answers : List (List UInt8)} {own : Machine}
    (h : replies .handshark (reply openssl) chunks = some (answers, own))
    (hlen : ∀ chunk ∈ chunks, chunk.length ≤ BUFFER_LENGTH) :
    chunks = [] ∧ answers = [] ∧ own = .handshark ∨
      ∃ chunk rest answer, chunks = chunk :: rest ∧ own = .tranmission ∧
        answers = answer :: rest.map echo ∧
        (NamesKey chunk ∧ Produced openssl chunk answer ∨
          ¬ NamesKey chunk ∧ ∀ bytes, ¬ Produced openssl chunk bytes) := by
  cases chunks with
  | nil =>
      cases h
      exact .inl ⟨rfl, rfl, rfl⟩
  | cons chunk rest =>
      rcases replies_cons h with ⟨own', answer, hreply, hrest⟩
      rcases reply_handshark (hlen chunk List.mem_cons_self) hreply with ⟨hown', hanswer⟩
      rcases hrest hown' with ⟨hown, hanswers⟩
      exact .inr ⟨chunk, rest, answer, rfl, hown, hanswers, hanswer⟩

/-- What has been offered starts with the first answer. -/
theorem eq_answer_of_head {offered rest : List (List UInt8)} {answer bytes : List UInt8}
    (hpre : offered <+: answer :: rest) (hbytes : bytes ∈ offered.head?) : bytes = answer := by
  rcases hpre with ⟨_, happend⟩
  cases offered with
  | nil => cases hbytes
  | cons first offered =>
      cases hbytes
      cases happend
      rfl

/-- With the key in the first chunk the response comes first. -/
theorem respondsFirst_of_asksFirst {conn : Conn} {answers : List (List UInt8)} {own : Machine}
    (h : replies .handshark (reply openssl) conn.received = some (answers, own))
    (hlen : ∀ chunk ∈ conn.received, chunk.length ≤ BUFFER_LENGTH)
    (hpre : conn.offered <+: answers) (hasks : AsksFirst conn) : RespondsFirst openssl conn := by
  intro bytes hbytes
  rcases replies_cases h hlen with ⟨hnil, hanswers, -⟩ |
      ⟨chunk, rest, answer, hreceived, -, hanswers, hanswer⟩
  · rw [hanswers, List.prefix_nil] at hpre
    rw [hpre] at hbytes
    cases hbytes
  · have hchunk : chunk ∈ conn.received.head? := by rw [hreceived]; rfl
    rw [hanswers] at hpre
    rcases hanswer with ⟨-, hproduced⟩ | ⟨hno, -⟩
    · rw [eq_answer_of_head hpre hbytes]
      exact ⟨chunk, hchunk, hproduced⟩
    · exact absurd (hasks chunk hchunk) hno

theorem upgraded_iff {conn : Conn} {answers : List (List UInt8)} {own : Machine}
    (h : replies .handshark (reply openssl) conn.received = some (answers, own))
    (hlen : ∀ chunk ∈ conn.received, chunk.length ≤ BUFFER_LENGTH)
    (hpre : conn.offered <+: answers) : Upgraded openssl conn own ↔ AsksFirst conn := by
  constructor
  · intro hup chunk hchunk
    rcases replies_cases h hlen with ⟨hnil, -, -⟩ |
        ⟨first, rest, answer, hreceived, hown, -, hanswer⟩
    · rw [hnil] at hchunk
      cases hchunk
    · rcases hup.state hown with ⟨chunk', hchunk', bytes, hproduced⟩
      rw [hreceived] at hchunk hchunk'
      cases hchunk
      cases hchunk'
      rcases hanswer with ⟨hnames, -⟩ | ⟨-, hnone⟩
      · exact hnames
      · exact absurd hproduced (hnone bytes)
  · intro hasks
    refine ⟨?_, respondsFirst_of_asksFirst h hlen hpre hasks⟩
    intro hown
    rcases replies_cases h hlen with ⟨-, -, hfresh⟩ |
        ⟨chunk, rest, answer, hreceived, -, -, hanswer⟩
    · rw [hown] at hfresh
      cases hfresh
    · have hchunk : chunk ∈ conn.received.head? := by rw [hreceived]; rfl
      rcases hanswer with ⟨-, hproduced⟩ | ⟨hno, -⟩
      · exact ⟨chunk, hchunk, answer, hproduced⟩
      · exact absurd (hasks chunk hchunk) hno

theorem open_upgraded_iff {guard : Sys Machine → Action → Prop} {s : Sys Machine}
    (h : Reachable (next (websocket openssl)) (Start (websocket openssl)) guard s) {fd c : ℕ}
    (hsock : s.host.socket fd = some (.conn c)) :
    Upgraded openssl (s.host.conns c) (s.reactor.event .handshark fd).own ↔
      AsksFirst (s.host.conns c) := by
  rcases open_replies (websocket_answers openssl).fitting h hsock with ⟨answers, hreplies, hpre⟩
  rcases replies_fitting hreplies with ⟨hreplies', hlen⟩
  exact upgraded_iff hreplies' (fun chunk hchunk => (hlen chunk hchunk).2) hpre

/-- A connection on fd 4 whose first chunk is this one and is answered with `len` bytes. -/
def firstChunk (chunk : List UInt8) (len : ℤ) : List Action :=
  [.epollWait [(3, EPOLLIN)], .test (.accept (some 4)), .test (.send 0),
    .epollWait [(4, EPOLLIN)], .test (.recv (.data chunk)), .test (.send 0),
    .epollWait [(4, EPOLLOUT)], .test (.send 0), .test (.send len)]

/-- A request with the header, and no value in it. -/
def keyLine : List UInt8 := ofString "Sec-WebSocket-Key: \r\n"

/-- OpenSSL with one digest. -/
def onesOpenssl : OpenSSL := opensslFor (List.replicate 20 1) List.length_replicate

/-- A single letter is sent back, and the connection counts as upgraded. -/
theorem upgraded_without_response :
    ∃ s : Sys Machine,
      Reachable (next (websocket onesOpenssl)) (Start (websocket onesOpenssl)) anyStep s ∧
        s.host.socket 4 = some (.conn 0) ∧ (s.host.conns 0).offered = [[97]] ∧
        (s.reactor.event .handshark 4).own = .tranmission ∧
        ¬ Upgraded onesOpenssl (s.host.conns 0) (s.reactor.event .handshark 4).own := by
  have hrun : (runFrom (websocket onesOpenssl) 3 (firstChunk [97] 1)).map
      (fun s => (s.host.socket 4, (s.host.conns 0).received, (s.host.conns 0).offered,
        (s.reactor.event .handshark 4).own)) =
        some (some (.conn 0), [[97]], [[97]], .tranmission) := by decide +kernel
  rcases Option.map_eq_some_iff.mp hrun with ⟨s, hs, hresult⟩
  have hsock : s.host.socket 4 = some (.conn 0) := congrArg Prod.fst hresult
  have hreceived : (s.host.conns 0).received = [[97]] := congrArg (fun r => r.2.1) hresult
  have hreach := reachable_of_runFrom hs
  refine ⟨s, hreach, hsock, congrArg (fun r => r.2.2.1) hresult,
    congrArg (fun r => r.2.2.2) hresult, ?_⟩
  rw [open_upgraded_iff hreach hsock]
  intro hasks
  have hnames : NamesKey [97] := hasks [97] (by rw [hreceived]; rfl)
  exact absurd hnames (by decide +kernel)

end ServerKit.Websocket
