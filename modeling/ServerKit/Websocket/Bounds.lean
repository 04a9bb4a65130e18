import ServerKit.Websocket.Upgrade
import Mathlib.Data.List.GetD

/-! # Accesses inside of the arrays

`recv_cb` and the functions it calls again, with no result for any access outside of
`ev->buffer`, `linebuf`, `sec_data` or `sec_accept`. -/

namespace ServerKit.Websocket

open ServerKit.Memory ServerKit.CString ServerKit.Reactor

/-! ## The checked functions -/

/-- The byte at `ev->buffer + i`. -/
def bufferAt (ev : Event) (i : ℤ) : Option UInt8 := if i < 0 then none else ev.buffer[i.toNat]?

/-- `ev->buffer[idx] != '\r' || ev->buffer[idx+1] != '\n'`. -/
def noCrlfAt (ev : Event) (idx : ℤ) : Option Bool :=
  (bufferAt ev idx).bind fun c =>
    if c ≠ 13 then some true else (bufferAt ev (idx + 1)).map fun d => decide (d ≠ 10)

/-- The loop of `handshark`: `strlen` in `readline` looks for a zero byte, and
`ev->buffer[idx]` is looked at before `idx` is tested. -/
def checkedHandsharkLoop (openssl : OpenSSL) (ev : Event) (idx : ℕ) : Option Event :=
  let next := (readline ev.buffer idx).1
  (strlen ev.buffer).bind fun _ =>
    (store (zeros 1024) 0 (readline ev.buffer idx).2).bind fun linebuf =>
      (strstr linebuf keyText).bind fun found =>
        if found then respond openssl linebuf ev
        else
          (noCrlfAt ev next).bind fun more =>
            if _h : more ∧ next ≠ -1 then checkedHandsharkLoop openssl ev next.toNat else some ev
termination_by ev.buffer.length - idx
decreasing_by
  have hlt := readlineLoop_lt ev.buffer idx [] _ _h.2
  exact Nat.sub_lt_sub_left (Nat.lt_of_lt_of_le hlt.1 hlt.2) hlt.1

/-- `umask` on a payload and a key inside of the array. -/
def checkedUmask (buffer : List UInt8) (payload length maskKey : ℕ) : Option (List UInt8) :=
  if payload + length ≤ buffer.length ∧ maskKey + min length 4 ≤ buffer.length then
    some (umask buffer payload length maskKey)
  else none

/-- `transmission`, which prints the payload as a string. -/
def checkedTransmission (ev : Event) : Option Event :=
  (bufferAt ev 1).bind fun second =>
    let plLen := second.toNat % 128
    let mask := second.toNat / 128
    if plLen < 126 then
      (if mask ≠ 0 then checkedUmask ev.buffer 6 plLen 2 else some ev.buffer).bind fun buffer =>
        (cstr (buffer.drop 6)).map fun _ => { ev with buffer := buffer }
    else some ev

def checkedRequest (openssl : OpenSSL) (ev : Event) : Option Event :=
  match ev.own with
  | .handshark => checkedHandsharkLoop openssl { ev with own := .tranmission } 0
  | .tranmission => checkedTransmission ev
  | .ended => some ev

/-- `recv_cb` up to the end of `websocket_request`, for a chunk that `recv` has got. -/
def checkedRecv (openssl : OpenSSL) (ev : Event) (chunk : List UInt8) : Option Event := do
  let buffer ← store ev.buffer 0 chunk
  let buffer ← store buffer chunk.length [0]
  checkedRequest openssl { ev with buffer := buffer, length := chunk.length }

/-! ## The checked functions are the functions -/

variable {openssl : OpenSSL} {ev ev' : Event}

theorem bufferAt_eq {i : ℤ} {b : UInt8} (h : bufferAt ev i = some b) : byteAt ev i = b := by
  unfold bufferAt at h
  unfold byteAt
  split at h
  · cases h
  · rename_i hpos
    rw [if_neg hpos, List.getD_eq_getElem?_getD, h, Option.getD_some]

theorem noCrlfAt_eq {idx : ℤ} {more : Bool} (h : noCrlfAt ev idx = some more) :
    more = true ↔ byteAt ev idx ≠ 13 ∨ byteAt ev (idx + 1) ≠ 10 := by
  rcases Option.bind_eq_some_iff.mp h with ⟨c, hc, h⟩
  rw [bufferAt_eq hc]
  split at h
  · rename_i hne
    cases h
    simp [hne]
  · rename_i heq
    rcases Option.map_eq_some_iff.mp h with ⟨d, hd, rfl⟩
    rw [bufferAt_eq hd]
    simp only [ne_eq, not_not] at heq
    simp [heq]

theorem checkedHandsharkLoop_eq (ev : Event) (idx : ℕ) :
    checkedHandsharkLoop openssl ev idx =
      (strlen ev.buffer).bind fun _ =>
        (store (zeros 1024) 0 (readline ev.buffer idx).2).bind fun linebuf =>
          (strstr linebuf keyText).bind fun found =>
            if found then respond openssl linebuf ev
            else
              (noCrlfAt ev (readline ev.buffer idx).1).bind fun more =>
                if more ∧ (readline ev.buffer idx).1 ≠ -1 then
                  checkedHandsharkLoop openssl ev (readline ev.buffer idx).1.toNat
                else some ev := by
  rw [checkedHandsharkLoop]
  simp only [dite_eq_ite]

theorem handsharkLoop_of_checked {idx : ℕ} (h : checkedHandsharkLoop openssl ev idx = some ev') :
    handsharkLoop openssl ev idx = some ev' := by
  induction idx using checkedHandsharkLoop.induct ev with
  | case1 idx next ih =>
      rw [checkedHandsharkLoop_eq] at h
      rcases Option.bind_eq_some_iff.mp h with ⟨_, -, h⟩
      rcases Option.bind_eq_some_iff.mp h with ⟨linebuf, hstore, h⟩
      rcases Option.bind_eq_some_iff.mp h with ⟨found, hfound, h⟩
      rw [handsharkLoop_eq, hstore, Option.bind_some, hfound, Option.bind_some]
      cases found with
      | true => exact h
      | false =>
          rcases Option.bind_eq_some_iff.mp h with ⟨more, hmore, h⟩
          have hiff := noCrlfAt_eq hmore
          rw [if_neg Bool.false_ne_true]
          split at h
          · rename_i hgo
            rw [if_pos ⟨hiff.mp hgo.1, hgo.2⟩]
            exact ih more hgo h
          · rename_i hgo
            rw [if_neg (fun hgo' => hgo ⟨hiff.mpr hgo'.1, hgo'.2⟩)]
            exact h

theorem transmission_of_checked (h : checkedTransmission ev = some ev') :
    transmission ev = ev' := by
  rcases Option.bind_eq_some_iff.mp h with ⟨second, hsecond, h⟩
  rw [transmission, bufferAt_eq hsecond]
  dsimp only at h
  split at h
  · rename_i hshort
    rw [if_pos hshort]
    rcases Option.bind_eq_some_iff.mp h with ⟨buffer, hbuffer, h⟩
    rcases Option.map_eq_some_iff.mp h with ⟨_, -, rfl⟩
    split at hbuffer
    · rename_i hmask
      rw [if_pos hmask]
      unfold checkedUmask at hbuffer
      split at hbuffer
      · cases hbuffer
        rfl
      · cases hbuffer
    · rename_i hmask
      rw [if_neg hmask]
      cases hbuffer
      rfl
  · rename_i hlong
    rw [if_neg hlong]
    cases h
    rfl

/-- A slot with the chunk and the zero byte behind it. -/
theorem checkedRecv_eq (hbuffer : ev.buffer.length = BUFFER_LENGTH) {chunk : List UInt8}
    (hlen : chunk.length ≤ BUFFER_LENGTH) :
    checkedRecv openssl ev chunk =
      if chunk.length < BUFFER_LENGTH then checkedRequest openssl (storeChunk ev chunk)
      else none := by
  have hchunk : store ev.buffer 0 chunk = some (chunk ++ ev.buffer.drop chunk.length) := by
    rw [store_eq_some (by omega)]
    simp
  unfold checkedRecv
  rw [hchunk]
  simp only [Option.bind_eq_bind, Option.bind_some]
  by_cases hlt : chunk.length < BUFFER_LENGTH
  · have hzero : store (chunk ++ ev.buffer.drop chunk.length) chunk.length [0] =
        some (chunk ++ 0 :: ev.buffer.drop (chunk.length + 1)) := by
      rw [store_eq_some (by simp; omega)]
      simp
    rw [hzero, Option.bind_some, if_pos hlt, storeChunk_frame, storeChunk_buffer hbuffer hlt,
      storeChunk_length ev hlen]
  · have hnone : store (chunk ++ ev.buffer.drop chunk.length) chunk.length [0] = none := by
      unfold store
      rw [if_neg]
      simp
      omega
    rw [hnone, Option.bind_none, if_neg hlt]

/-- Within the arrays the checked functions do what the functions do. -/
theorem websocketRequest_of_checked (hbuffer : ev.buffer.length = BUFFER_LENGTH)
    {chunk : List UInt8} (hlen : chunk.length ≤ BUFFER_LENGTH)
    (h : checkedRecv openssl ev chunk = some ev') :
    websocketRequest openssl (storeChunk ev chunk) = some ev' := by
  rw [checkedRecv_eq hbuffer hlen] at h
  split at h
  · unfold checkedRequest at h
    unfold websocketRequest
    cases hown : (storeChunk ev chunk).own with
    | handshark =>
        simp only [hown] at h ⊢
        exact handsharkLoop_of_checked h
    | tranmission =>
        simp only [hown] at h ⊢
        rw [transmission_of_checked h]
    | ended =>
        simp only [hown] at h ⊢
        exact h
  · cases h

/-! ## Where every access is inside -/

/-- The line with the key leaves room for the GUID, and its digest gives the encoder something
to end the output in. -/
def KeyFits (openssl : OpenSSL) (line : List UInt8) : Prop :=
  line.length ≤ 987 ∧ (text (openssl.sha1 (hashed line)) = [] → openssl.bio [] ≠ [])

/-- From this line on `handshark` comes to one with the key or stops in front of an empty one,
and no line fills `linebuf`. -/
def LinesFit (openssl : OpenSSL) (line : List UInt8) : List (List UInt8) → Prop
  | [] => keyText <:+: line ∧ KeyFits openssl line
  | next :: more =>
    if keyText <:+: line then KeyFits openssl line
    else line.length ≤ 1023 ∧ (next = [] ∧ more ≠ [] ∨ LinesFit openssl next more)

/-- A payload of less than 126 bytes, unmasked if it has a mask, and what follows it contain a
zero byte. -/
def EndsInside (buffer : List UInt8) : Prop :=
  let plLen := (buffer.getD 1 0).toNat % 128
  let mask := (buffer.getD 1 0).toNat / 128
  plLen < 126 → ∃ i < buffer.length, 6 ≤ i ∧
    buffer.getD i 0 =
      if mask ≠ 0 ∧ i < 6 + plLen then buffer.getD (2 + (i - 6) % 4) 0 else 0

/-- A chunk for which every access is inside of the arrays, by the state of the connection. -/
def StaysInside (openssl : OpenSSL) (ev : Event) (chunk : List UInt8) : Prop :=
  chunk.length < BUFFER_LENGTH ∧
    match ev.own with
    | .handshark =>
      LinesFit openssl (splitLines (text chunk)).1 (splitLines (text chunk)).2
    | .tranmission => EndsInside (chunk ++ 0 :: ev.buffer.drop (chunk.length + 1))
    | .ended => True

/-! ### Frames -/

/-- `printf` needs a zero byte from the sixth byte on. -/
theorem cstr_drop_isSome (mem : List UInt8) (n : ℕ) :
    (cstr (mem.drop n)).isSome ↔ ∃ i < mem.length, n ≤ i ∧ mem.getD i 0 = 0 := by
  have hcstr : (cstr (mem.drop n)).isSome ↔ (0 : UInt8) ∈ mem.drop n := by
    unfold cstr
    split
    · rename_i hmem
      exact iff_of_true rfl hmem
    · rename_i hmem
      exact iff_of_false Bool.false_ne_true hmem
  rw [hcstr, List.mem_iff_getElem?]
  constructor
  · rintro ⟨k, hk⟩
    rw [List.getElem?_drop] at hk
    refine ⟨n + k, (List.getElem?_eq_some_iff.mp hk).1, Nat.le_add_right n k, ?_⟩
    rw [List.getD_eq_getElem?_getD, hk, Option.getD_some]
  · rintro ⟨i, hi, hle, hzero⟩
    refine ⟨i - n, ?_⟩
    rw [List.getD_eq_getElem _ _ hi] at hzero
    rw [List.getElem?_drop, Nat.add_sub_cancel' hle, List.getElem?_eq_getElem hi, hzero]

theorem getD_umask {buffer : List UInt8} {n i : ℕ} (hi : i < buffer.length) (hle : 6 ≤ i) :
    (umask buffer 6 n 2).getD i 0 = 0 ↔
      buffer.getD i 0 = if i < 6 + n then buffer.getD (2 + (i - 6) % 4) 0 else 0 := by
  rw [List.getD_eq_getElem?_getD, getElem?_umask, List.getElem?_eq_getElem hi,
    List.getD_eq_getElem _ _ hi]
  by_cases hin : i < 6 + n
  · rw [if_pos ⟨hle, hin⟩, if_pos hin]
    exact UInt8.xor_eq_zero_iff
  · rw [if_neg (fun h => hin h.2), if_neg hin]
    rfl

theorem checkedTransmission_iff (hbuffer : ev.buffer.length = BUFFER_LENGTH) :
    (checkedTransmission ev).isSome ↔ EndsInside ev.buffer := by
  have hlong : ev.buffer.length = 4096 := hbuffer
  have hsecond : bufferAt ev 1 = some (ev.buffer.getD 1 0) := by
    have hone : 1 < ev.buffer.length := by omega
    rw [List.getD_eq_getElem _ _ hone]
    exact List.getElem?_eq_getElem hone
  rw [checkedTransmission, hsecond, Option.bind_some]
  unfold EndsInside
  dsimp only
  by_cases hshort : (ev.buffer.getD 1 0).toNat % 128 < 126
  · rw [if_pos hshort]
    simp only [hshort, forall_const]
    by_cases hmask : (ev.buffer.getD 1 0).toNat / 128 ≠ 0
    · have hin : checkedUmask ev.buffer 6 ((ev.buffer.getD 1 0).toNat % 128) 2 =
          some (umask ev.buffer 6 ((ev.buffer.getD 1 0).toNat % 128) 2) := by
        unfold checkedUmask
        rw [if_pos ⟨by omega, by omega⟩]
      rw [if_pos hmask, hin, Option.bind_some, Option.isSome_map, cstr_drop_isSome, length_umask]
      refine exists_congr fun i => and_congr_right fun hi => and_congr_right fun hle => ?_
      rw [getD_umask hi hle]
      by_cases hin : i < 6 + (ev.buffer.getD 1 0).toNat % 128
      · rw [if_pos hin, if_pos ⟨hmask, hin⟩]
      · rw [if_neg hin, if_neg (fun h => hin h.2)]
    · rw [if_neg hmask, Option.bind_some, Option.isSome_map, cstr_drop_isSome]
      refine exists_congr fun i => and_congr_right fun _ => and_congr_right fun _ => ?_
      rw [if_neg (fun h => hmask h.1)]
  · rw [if_neg hshort]
    exact iff_of_true rfl (fun h => absurd h hshort)

/-! ### Requests -/

theorem strcat_full {line : List UInt8} (hzero : (0 : UInt8) ∉ line) (hline : line.length ≤ 1023)
    (hlong : 987 < line.length) :
    strcat (line ++ 0 :: zeros (1023 - line.length)) GUID = none := by
  rw [strcat, strlen_append hzero, Option.bind_some]
  unfold store
  rw [if_neg]
  simp only [List.length_append, List.length_cons, length_GUID, length_zeros, List.length_nil]
  omega

theorem respond_isSome (hopenssl : openssl.Standard) {line : List UInt8}
    (hzero : (0 : UInt8) ∉ line) (hline : line.length ≤ 1023) :
    (respond openssl (line ++ 0 :: zeros (1023 - line.length)) ev).isSome ↔
      KeyFits openssl line := by
  unfold KeyFits
  by_cases hshort : line.length ≤ 987
  · rw [and_iff_right hshort]
    by_cases hempty : text (openssl.sha1 (hashed line)) = []
    · have hnil := respond_nil ev hzero hshort hopenssl hempty
      rw [← Option.isSome_map (f := Ntyevent.length), hnil]
      simp only [hempty, forall_const]
      split
      · rename_i hbio
        exact iff_of_false Bool.false_ne_true (fun h => h hbio)
      · rename_i hbio
        exact iff_of_true rfl hbio
    · rw [respond_eq hzero hshort hopenssl rfl hempty]
      exact iff_of_true rfl (fun h => absurd h hempty)
  · rw [respond, strcat_full hzero hline (by omega)]
    exact iff_of_false Bool.false_ne_true (fun h => hshort h.1)

theorem bufferAt_natCast {k : ℕ} (hk : k < ev.buffer.length) :
    bufferAt ev k = some (byteAt ev k) := by
  unfold bufferAt
  rw [if_neg (by omega), Int.toNat_natCast, byteAt_natCast, List.getElem?_eq_getElem hk,
    List.getD_eq_getElem _ _ hk]

/-- Behind a string within the buffer comes its zero byte. -/
theorem byteAt_text_length (hfinal : (0 : UInt8) ∈ ev.buffer) :
    byteAt ev (text ev.buffer).length = 0 := by
  have hlt := text_length_lt hfinal
  rw [byteAt_natCast, List.getD_eq_getElem _ _ hlt]
  exact getElem?_length_text (List.getElem?_eq_getElem hlt)

/-- The test behind a line, where the string goes on or ends. -/
theorem noCrlfAt_natCast (hfinal : (0 : UInt8) ∈ ev.buffer) {k : ℕ}
    (hk : k ≤ (text ev.buffer).length) :
    noCrlfAt ev k = some (decide (byteAt ev k ≠ 13 ∨ byteAt ev (k + 1) ≠ 10)) := by
  have hlt := text_length_lt hfinal
  unfold noCrlfAt
  rw [bufferAt_natCast (by omega), Option.bind_some]
  by_cases hcr : byteAt ev k = 13
  · -- the string ends in another byte
    have hne : k ≠ (text ev.buffer).length := by
      rintro rfl
      rw [byteAt_text_length hfinal] at hcr
      exact absurd hcr (by decide)
    have hin : k + 1 < ev.buffer.length := by omega
    have hnext := bufferAt_natCast hin
    push_cast at hnext
    rw [hnext, if_neg (not_not.mpr hcr), Option.map_some]
    simp [hcr]
  · rw [if_pos hcr]
    simp [hcr]

/-- A line that leaves no room for the final zero byte. -/
theorem linebuf_full {line : List UInt8} (hzero : (0 : UInt8) ∉ line) (hlong : 1023 < line.length)
    (f : List UInt8 → Bool → Option Event) :
    ((store (zeros 1024) 0 line).bind fun linebuf =>
      (strstr linebuf keyText).bind fun found => f linebuf found) = none := by
  by_cases hfull : line.length = 1024
  · have hnone : strstr line keyText = none := by
      rw [strstr, cstr, if_neg hzero, Option.map_none]
    rw [store_zeros (by omega), hfull, Nat.sub_self, Option.bind_some,
      show line ++ zeros 0 = line from List.append_nil line, hnone, Option.bind_none]
  · have hnone : store (zeros 1024) 0 line = none := by
      unfold store
      rw [if_neg]
      rw [length_zeros]
      omega
    rw [hnone, Option.bind_none]

theorem not_linesFit_of_long {line : List UInt8} (hlong : 1023 < line.length)
    (rest : List (List UInt8)) : ¬ LinesFit openssl line rest := by
  intro h
  cases rest with
  | nil => exact absurd h.2.1 (by omega)
  | cons next more =>
      rw [LinesFit] at h
      split at h
      · exact absurd h.1 (by omega)
      · exact absurd h.1 (by omega)

/-- What the loop does with a line that fits. -/
theorem checkedHandsharkLoop_fit (hfinal : (0 : UInt8) ∈ ev.buffer)
    {pre suffix line : List UInt8} {rest : List (List UInt8)}
    (htext : text ev.buffer = pre ++ suffix) (hsplit : splitLines suffix = (line, rest))
    (hfit : line.length ≤ 1023) :
    checkedHandsharkLoop openssl ev pre.length =
      if keyText <:+: line then respond openssl (line ++ 0 :: zeros (1023 - line.length)) ev
      else
        (noCrlfAt ev (readline ev.buffer pre.length).1).bind fun more =>
          if more ∧ (readline ev.buffer pre.length).1 ≠ -1 then
            checkedHandsharkLoop openssl ev (readline ev.buffer pre.length).1.toNat
          else some ev := by
  have hline : (readline ev.buffer pre.length).2 = line := by
    rw [readline_split htext, hsplit]
  have hzero : (0 : UInt8) ∉ line := by
    have hnot := zero_not_mem_line htext
    rwa [hsplit] at hnot
  rw [checkedHandsharkLoop_eq, strlen, cstr, if_pos hfinal, Option.map_some, Option.bind_some,
    hline, linebuf_eq hfit, Option.bind_some, strstr_append hzero, Option.bind_some]
  simp only [decide_eq_true_eq]

theorem checkedHandsharkLoop_full (hfinal : (0 : UInt8) ∈ ev.buffer)
    {pre suffix line : List UInt8} {rest : List (List UInt8)}
    (htext : text ev.buffer = pre ++ suffix) (hsplit : splitLines suffix = (line, rest))
    (hlong : 1023 < line.length) : checkedHandsharkLoop openssl ev pre.length = none := by
  have hline : (readline ev.buffer pre.length).2 = line := by
    rw [readline_split htext, hsplit]
  have hzero : (0 : UInt8) ∉ line := by
    have hnot := zero_not_mem_line htext
    rwa [hsplit] at hnot
  rw [checkedHandsharkLoop_eq, strlen, cstr, if_pos hfinal, Option.map_some, Option.bind_some,
    hline]
  exact linebuf_full hzero hlong _

/-- Behind a line without the key `handshark` stops in front of an empty one or goes on. -/
theorem checkedHandsharkLoop_next (hfinal : (0 : UInt8) ∈ ev.buffer)
    {pre suffix line next : List UInt8} {more : List (List UInt8)}
    (htext : text ev.buffer = pre ++ suffix) (hsplit : splitLines suffix = (line, next :: more))
    (hfit : line.length ≤ 1023) (hkey : ¬ keyText <:+: line) :
    ∃ pre' suffix', text ev.buffer = pre' ++ suffix' ∧ splitLines suffix' = (next, more) ∧
      checkedHandsharkLoop openssl ev pre.length =
        if next = [] ∧ more ≠ [] then some ev
        else checkedHandsharkLoop openssl ev pre'.length := by
  have hrest : (splitLines suffix).2 = next :: more := by rw [hsplit]
  obtain ⟨pre', suffix', htext', hsplit', hidx⟩ := readline_next htext hrest
  refine ⟨pre', suffix', htext', hsplit', ?_⟩
  have hle : pre'.length ≤ (text ev.buffer).length := by
    rw [htext', List.length_append]
    omega
  have hstops := stops_iff htext' (byteAt_text_length hfinal)
  rw [hsplit'] at hstops
  rw [checkedHandsharkLoop_fit hfinal htext hsplit hfit, if_neg hkey, hidx,
    noCrlfAt_natCast hfinal hle, Option.bind_some, Int.toNat_natCast]
  by_cases hstop : next = [] ∧ more ≠ []
  · have hcrlf := hstops.mpr hstop
    rw [if_pos hstop, if_neg]
    simp [hcrlf]
  · have hgo : byteAt ev pre'.length ≠ 13 ∨ byteAt ev (pre'.length + 1) ≠ 10 := by
      rw [← not_and_or, hstops]
      exact hstop
    rw [if_neg hstop, if_pos ⟨decide_eq_true hgo, by omega⟩]

theorem linesFit_of_key {line : List UInt8} (hkey : keyText <:+: line)
    (rest : List (List UInt8)) : LinesFit openssl line rest ↔ KeyFits openssl line := by
  cases rest with
  | nil => exact and_iff_right hkey
  | cons next more => rw [LinesFit, if_pos hkey]

/-- A line that is too long, or has the key, decides. -/
theorem checkedHandsharkLoop_decides (hopenssl : openssl.Standard)
    (hfinal : (0 : UInt8) ∈ ev.buffer) {pre suffix line : List UInt8} {rest : List (List UInt8)}
    (htext : text ev.buffer = pre ++ suffix) (hsplit : splitLines suffix = (line, rest))
    (h : ¬ (line.length ≤ 1023 ∧ ¬ keyText <:+: line)) :
    (checkedHandsharkLoop openssl ev pre.length).isSome ↔ LinesFit openssl line rest := by
  by_cases hfit : line.length ≤ 1023
  · have hkey : keyText <:+: line := by
      by_contra hkey
      exact h ⟨hfit, hkey⟩
    have hzero : (0 : UInt8) ∉ line := by
      have hnot := zero_not_mem_line htext
      rwa [hsplit] at hnot
    rw [checkedHandsharkLoop_fit hfinal htext hsplit hfit, if_pos hkey, linesFit_of_key hkey]
    exact respond_isSome hopenssl hzero hfit
  · rw [checkedHandsharkLoop_full hfinal htext hsplit (by omega)]
    exact iff_of_false Bool.false_ne_true (not_linesFit_of_long (by omega) rest)

theorem checkedHandsharkLoop_iff (hopenssl : openssl.Standard) (hfinal : (0 : UInt8) ∈ ev.buffer)
    {pre suffix line : List UInt8} {rest : List (List UInt8)}
    (htext : text ev.buffer = pre ++ suffix) (hsplit : splitLines suffix = (line, rest)) :
    (checkedHandsharkLoop openssl ev pre.length).isSome ↔ LinesFit openssl line rest := by
  induction rest generalizing pre suffix line with
  | nil =>
      by_cases h : line.length ≤ 1023 ∧ ¬ keyText <:+: line
      · -- `readline` returns `-1`, which is used as an index
        have hend : (readline ev.buffer pre.length).1 = -1 := by
          rw [readline_split htext, hsplit]
          rfl
        rw [checkedHandsharkLoop_fit hfinal htext hsplit h.1, if_neg h.2, hend]
        exact iff_of_false Bool.false_ne_true (fun hlines => h.2 hlines.1)
      · exact checkedHandsharkLoop_decides hopenssl hfinal htext hsplit h
  | cons next more ih =>
      by_cases h : line.length ≤ 1023 ∧ ¬ keyText <:+: line
      · obtain ⟨pre', suffix', htext', hsplit', hnext⟩ :=
          checkedHandsharkLoop_next hfinal htext hsplit h.1 h.2
        rw [hnext, LinesFit, if_neg h.2, and_iff_right h.1]
        split
        · rename_i hstop
          exact iff_of_true rfl (Or.inl hstop)
        · rename_i hstop
          rw [or_iff_right hstop]
          exact ih htext' hsplit'
      · exact checkedHandsharkLoop_decides hopenssl hfinal htext hsplit h

/-! ### Chunks -/

/-- **Bounds.** Every access is inside of the arrays exactly if the chunk leaves a byte of the
buffer free, a request has lines that fit and the key or an empty line, and a short frame has
a zero byte behind its header. -/
theorem checkedRecv_iff (hopenssl : openssl.Standard) (hbuffer : ev.buffer.length = BUFFER_LENGTH)
    {chunk : List UInt8} (hlen : chunk.length ≤ BUFFER_LENGTH) :
    (checkedRecv openssl ev chunk).isSome ↔ StaysInside openssl ev chunk := by
  rw [checkedRecv_eq hbuffer hlen]
  unfold StaysInside
  split
  · rename_i hlt
    rw [and_iff_right hlt]
    have hown : (storeChunk ev chunk).own = ev.own := by rw [storeChunk_frame]
    have hstored := storeChunk_buffer hbuffer hlt
    unfold checkedRequest
    rw [hown]
    cases hstate : ev.own with
    | handshark =>
        let slot : Event := { storeChunk ev chunk with own := .tranmission }
        have hzero : (0 : UInt8) ∈ slot.buffer := by
          change (0 : UInt8) ∈ (storeChunk ev chunk).buffer
          simp [hstored]
        have htext : text slot.buffer = [] ++ text chunk := by
          change text (storeChunk ev chunk).buffer = text chunk
          rw [hstored, text_append_cons]
        exact checkedHandsharkLoop_iff hopenssl hzero htext rfl
    | tranmission =>
        have hframe := checkedTransmission_iff (storeChunk_buffer_length ev hbuffer hlen)
        rwa [hstored] at hframe
    | ended => exact iff_of_true rfl trivial
  · rename_i hfull
    exact iff_of_false Bool.false_ne_true (fun h => hfull h.1)

/-- The line with the key. -/
theorem checkedRecv_keyLine :
    (checkedRecv onesOpenssl (.zero .handshark) keyLine).isSome := by
  apply (checkedRecv_iff (standard_opensslFor _ _) List.length_replicate (by decide)).mpr
  refine ⟨by decide, (linesFit_of_key (by decide +kernel) _).mpr ⟨by decide, ?_⟩⟩
  intro hempty
  exact absurd hempty (by decide)

/-- A request of one letter: the result `-1` of `readline` is used as an index. -/
theorem checkedRecv_letter :
    ¬ ∀ (openssl : OpenSSL) (ev : Event) (chunk : List UInt8), openssl.Standard →
      ev.buffer.length = BUFFER_LENGTH → ev.own = .handshark ∨ ev.own = .tranmission →
      1 ≤ chunk.length → chunk.length ≤ BUFFER_LENGTH → (checkedRecv openssl ev chunk).isSome := by
  intro h
  have hletter := h onesOpenssl (.zero .handshark) [97] (standard_opensslFor _ _)
    List.length_replicate (Or.inl rfl) (by decide) (by decide)
  rw [checkedRecv_eq List.length_replicate (by decide), if_pos (by decide)] at hletter
  revert hletter
  decide +kernel

end ServerKit.Websocket
