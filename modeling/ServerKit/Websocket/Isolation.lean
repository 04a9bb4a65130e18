import ServerKit.Reactor.Session
import ServerKit.Websocket.Model

/-! # Connections do not see each other

A slot keeps the buffer and the length of earlier connections. The treatment of a chunk
reads them only behind the final zero byte of the chunk, where nothing is sent from. -/

namespace ServerKit.Websocket

open ServerKit.Memory ServerKit.CString ServerKit.Reactor ServerKit.System

variable {openssl : OpenSSL}

/-! ## The answer to a key -/

/-- The branch of `handshark` for the key without the slot: the new buffer and its length. -/
def answer (openssl : OpenSSL) (linebuf : List UInt8) : Option (List UInt8 × ℕ) := do
  let linebuf ← strcat linebuf GUID
  let key := linebuf.drop WEBSOCK_KEY_LENGTH
  let secData ← store (zeros 128) 0 (openssl.sha1 (key.take (← strlen key)))
  let (secAccept, _) ← base64Encode openssl secData (← strlen secData) (zeros 32)
  let printed := response (← cstr secAccept)
  let buffer ← store (zeros BUFFER_LENGTH) 0 (printed ++ [0])
  return (buffer, printed.length)

theorem respond_eq_map (linebuf : List UInt8) (ev : Event) :
    respond openssl linebuf ev =
      (answer openssl linebuf).map fun r => { ev with buffer := r.1, length := r.2 } := by
  simp only [respond, answer, Option.bind_eq_bind, Option.map_bind, Function.comp_def,
    Option.pure_def, Option.map_some]

theorem answer_length {linebuf : List UInt8} {r : List UInt8 × ℕ}
    (h : answer openssl linebuf = some r) :
    r.1.length = BUFFER_LENGTH ∧ 1 ≤ r.2 ∧ r.2 ≤ BUFFER_LENGTH := by
  simp only [answer, Option.bind_eq_bind, Option.bind_eq_some_iff] at h
  rcases h with ⟨_, _, _, _, _, _, _, _, ⟨secAccept, _⟩, _, accept, _, buffer, hstore, hr⟩
  cases hr
  have hlength := store_length hstore
  have hfits : (response accept ++ [0]).length ≤ BUFFER_LENGTH := by
    unfold store at hstore
    split at hstore
    · rename_i hfits
      simpa using hfits
    · cases hstore
  have hpos : 1 ≤ (response accept).length := by
    simp only [response, List.length_append, List.length_cons]
    omega
  simp only [List.length_append, List.length_singleton] at hfits
  exact ⟨hlength.trans (length_zeros _), hpos, by omega⟩

/-! ## The server -/

/-- `handshark` leaves the slot as it is, or writes an answer to it. -/
theorem handsharkLoop_cases {ev ev' : Event} {idx : ℕ}
    (h : handsharkLoop openssl ev idx = some ev') :
    ev' = ev ∨ ∃ linebuf r, answer openssl linebuf = some r ∧
      ev' = { ev with buffer := r.1, length := r.2 } := by
  induction idx using handsharkLoop.induct ev with
  | case1 idx next ih =>
      rw [handsharkLoop] at h
      rcases Option.bind_eq_some_iff.mp h with ⟨linebuf, _, h⟩
      rcases Option.bind_eq_some_iff.mp h with ⟨found, _, h⟩
      split at h
      · rw [respond_eq_map] at h
        rcases Option.map_eq_some_iff.mp h with ⟨r, hr, heq⟩
        exact .inr ⟨linebuf, r, hr, heq.symm⟩
      · split at h
        · rename_i hgo
          exact ih hgo h
        · cases h
          exact .inl rfl

theorem length_umask (buffer : List UInt8) (payload length maskKey : ℕ) :
    (umask buffer payload length maskKey).length = buffer.length := by
  unfold umask
  induction length with
  | zero => rfl
  | succ n ih =>
      rw [List.range_succ, List.foldl_append]
      simpa using ih

/-- The slot after a frame. -/
theorem transmission_frame (ev : Event) :
    transmission ev = { ev with buffer := (transmission ev).buffer } ∧
      (transmission ev).buffer.length = ev.buffer.length := by
  unfold transmission
  simp only
  split
  · split
    · exact ⟨rfl, length_umask _ _ _ _⟩
    · exact ⟨rfl, rfl⟩
  · exact ⟨rfl, rfl⟩

/-- What `websocket_request` may change. -/
theorem websocketRequest_cases {ev ev' : Event} (h : websocketRequest openssl ev = some ev') :
    ev' = { ev with buffer := ev'.buffer, length := ev'.length, own := ev'.own } ∧
      (ev.buffer.length = BUFFER_LENGTH → ev'.buffer.length = BUFFER_LENGTH) ∧
      (1 ≤ ev.length → ev.length ≤ BUFFER_LENGTH →
        1 ≤ ev'.length ∧ ev'.length ≤ BUFFER_LENGTH) := by
  unfold websocketRequest at h
  split at h
  · rcases handsharkLoop_cases h with heq | ⟨linebuf, r, hr, heq⟩
    · rw [heq]
      exact ⟨rfl, id, fun hlow hhigh => ⟨hlow, hhigh⟩⟩
    · have hlength := answer_length hr
      rw [heq]
      exact ⟨rfl, fun _ => hlength.1, fun _ _ => hlength.2⟩
  · cases h
    have hframe := transmission_frame ev
    have hsame : (transmission ev).length = ev.length := by
      rw [hframe.1]
    refine ⟨by rw [hframe.1], fun hbuffer => hframe.2.trans hbuffer, ?_⟩
    intro hlow hhigh
    rw [hsame]
    exact ⟨hlow, hhigh⟩
  · cases h
    exact ⟨rfl, id, fun hlow hhigh => ⟨hlow, hhigh⟩⟩

/-- The server: `accept_cb` resets `status_machine`, and `recv_cb` is the one with
`websocket_request` in front of the change to `EPOLLOUT`. -/
def websocket (openssl : OpenSSL) : Server Machine where
  zero := .handshark
  reset := fun _ => .handshark
  request := websocketRequest openssl
  recvCb := recvCb (websocketRequest openssl)
  recvCb_eq := fun _ _ _ _ _ => rfl
  request_frame := fun _ _ h => (websocketRequest_cases h).1
  request_length := fun _ _ h => (websocketRequest_cases h).2.2

/-! ## Two slots with the same chunk -/

/-- Two slots that hold the same chunk of the same connection: they agree up to the zero byte
behind the chunk. -/
structure SameChunk (chunk : List UInt8) (ev₁ ev₂ : Event) : Prop where
  own : ev₁.own = ev₂.own
  length₁ : ev₁.length = chunk.length
  length₂ : ev₂.length = chunk.length
  agree : ∀ i ≤ chunk.length, ev₁.buffer[i]? = ev₂.buffer[i]?
  text₁ : text ev₁.buffer = text chunk
  text₂ : text ev₂.buffer = text chunk
  final : byteAt ev₁ chunk.length = 0

/-- The bytes that are sent and the new state. -/
def visible (ev : Event) : Machine × List UInt8 := (ev.own, ev.pending)

/-- Filling the slot of another connection in the same state gives the same chunk. -/
theorem sameChunk_storeChunk {ev₁ ev₂ : Event} (hown : ev₁.own = ev₂.own)
    (h₁ : ev₁.buffer.length = BUFFER_LENGTH) (h₂ : ev₂.buffer.length = BUFFER_LENGTH)
    {chunk : List UInt8} (hlen : chunk.length ≤ BUFFER_LENGTH) :
    SameChunk chunk (storeChunk ev₁ chunk) (storeChunk ev₂ chunk) := by
  have hown' : (storeChunk ev₁ chunk).own = (storeChunk ev₂ chunk).own := by
    rw [storeChunk_frame ev₁, storeChunk_frame ev₂]
    exact hown
  rcases Nat.lt_or_eq_of_le hlen with hlt | hfull
  · refine ⟨hown', storeChunk_length ev₁ hlen, storeChunk_length ev₂ hlen, ?_, ?_, ?_, ?_⟩
    · intro i hi
      rw [storeChunk_buffer h₁ hlt, storeChunk_buffer h₂ hlt]
      rcases Nat.lt_or_eq_of_le hi with hi | hi
      · rw [List.getElem?_append_left hi, List.getElem?_append_left hi]
      · rw [hi]
        simp
    · rw [storeChunk_buffer h₁ hlt, text_append_cons]
    · rw [storeChunk_buffer h₂ hlt, text_append_cons]
    · rw [byteAt_natCast, storeChunk_buffer h₁ hlt]
      simp
  · refine ⟨hown', storeChunk_length ev₁ hlen, storeChunk_length ev₂ hlen, ?_, ?_, ?_, ?_⟩
    · intro i _
      rw [storeChunk_buffer_full h₁ hfull, storeChunk_buffer_full h₂ hfull]
    · rw [storeChunk_buffer_full h₁ hfull]
    · rw [storeChunk_buffer_full h₂ hfull]
    · -- Behind a full buffer lies the low byte of the length 4096.
      have hlow : UInt8.ofNat BUFFER_LENGTH = 0 := rfl
      rw [byteAt_natCast, storeChunk_buffer_full h₁ hfull, storeChunk_length ev₁ hlen, hfull,
        hlow]
      simp [hfull]

/-! ## `readline` and `handshark` -/

/-- `readline` looks at the chunk and the zero byte behind it. -/
theorem readlineLoop_congr {b₁ b₂ : List UInt8} {n : ℕ} (hagree : ∀ i ≤ n, b₁[i]? = b₂[i]?)
    (k idx : ℕ) (acc : List UInt8) (hk : idx + k ≤ n) :
    readlineLoop b₁ idx acc k = readlineLoop b₂ idx acc k := by
  induction k generalizing idx acc with
  | zero => rfl
  | succ k ih =>
      rw [readlineLoop, readlineLoop, hagree idx (by omega), hagree (idx + 1) (by omega)]
      split
      · rfl
      · exact ih (idx + 1) _ (by omega)

theorem SameChunk.readline {chunk : List UInt8} {ev₁ ev₂ : Event} (h : SameChunk chunk ev₁ ev₂)
    {idx : ℕ} (hidx : idx ≤ chunk.length) :
    readline ev₁.buffer idx = readline ev₂.buffer idx := by
  have htext : (text chunk).length ≤ chunk.length := (text_isPrefix chunk).length_le
  unfold Websocket.readline
  rw [h.text₁, h.text₂]
  exact readlineLoop_congr h.agree _ idx [] (by omega)

theorem SameChunk.byteAt {chunk : List UInt8} {ev₁ ev₂ : Event} (h : SameChunk chunk ev₁ ev₂)
    {i : ℕ} (hi : i ≤ chunk.length) : byteAt ev₁ i = byteAt ev₂ i := by
  rw [byteAt_natCast, byteAt_natCast, List.getD_eq_getElem?_getD, List.getD_eq_getElem?_getD,
    h.agree i hi, h.length₁, h.length₂]

/-- `readline` returns `-1` or the start of a later line within the string. -/
theorem readlineLoop_cases {allbuf : List UInt8} {n : ℕ} (idx : ℕ) (acc : List UInt8)
    (hn : idx + n ≤ (text allbuf).length) :
    (readlineLoop allbuf idx acc n).1 = -1 ∨
      ∃ k : ℕ, (readlineLoop allbuf idx acc n).1 = k ∧ k ≤ (text allbuf).length := by
  induction n generalizing idx acc with
  | zero => exact .inl rfl
  | succ n ih =>
      rw [readlineLoop]
      split
      · rename_i hcrlf
        refine .inr ⟨idx + 2, rfl, ?_⟩
        have hne : idx + 1 ≠ (text allbuf).length := by
          intro heq
          have hlast := hcrlf.2
          rw [heq] at hlast
          exact absurd (getElem?_length_text hlast) (by decide)
        omega
      · exact ih (idx + 1) _ (by omega)

theorem SameChunk.readline_cases {chunk : List UInt8} {ev₁ ev₂ : Event}
    (h : SameChunk chunk ev₁ ev₂) (idx : ℕ) :
    (Websocket.readline ev₂.buffer idx).1 = -1 ∨
      ∃ k : ℕ, (Websocket.readline ev₂.buffer idx).1 = k ∧ k ≤ chunk.length := by
  have htext : (text chunk).length ≤ chunk.length := (text_isPrefix chunk).length_le
  unfold Websocket.readline
  by_cases hle : idx ≤ (text ev₂.buffer).length
  · have hn : idx + ((text ev₂.buffer).length - idx) ≤ (text ev₂.buffer).length := by omega
    rcases readlineLoop_cases idx [] hn with hend | ⟨k, hk, hkle⟩
    · exact .inl hend
    · rw [h.text₂] at hkle
      exact .inr ⟨k, hk, hkle.trans htext⟩
  · rw [Nat.sub_eq_zero_of_le (by omega)]
    exact .inl rfl

/-- The test for the empty line comes out the same. -/
theorem SameChunk.goesOn {chunk : List UInt8} {ev₁ ev₂ : Event} (h : SameChunk chunk ev₁ ev₂)
    {k : ℕ} (hk : k ≤ chunk.length) :
    (Websocket.byteAt ev₁ k ≠ 13 ∨ Websocket.byteAt ev₁ ((k : ℤ) + 1) ≠ 10) ↔
      (Websocket.byteAt ev₂ k ≠ 13 ∨ Websocket.byteAt ev₂ ((k : ℤ) + 1) ≠ 10) := by
  have hbyte := h.byteAt hk
  rcases Nat.lt_or_eq_of_le hk with hlt | heq
  · have hnext := h.byteAt (i := k + 1) hlt
    rw [hbyte]
    push_cast at hnext
    rw [hnext]
  · have hfinal : Websocket.byteAt ev₁ k ≠ 13 := by
      rw [heq, h.final]
      decide
    exact ⟨fun _ => .inl (hbyte ▸ hfinal), fun _ => .inl hfinal⟩

theorem SameChunk.pending {chunk : List UInt8} {ev₁ ev₂ : Event} (h : SameChunk chunk ev₁ ev₂) :
    ev₁.pending = ev₂.pending := by
  unfold Ntyevent.pending
  rw [h.length₁, h.length₂]
  apply List.ext_getElem?
  intro i
  rw [List.getElem?_take, List.getElem?_take]
  split
  · exact h.agree i (by omega)
  · rfl

theorem SameChunk.visible {chunk : List UInt8} {ev₁ ev₂ : Event} (h : SameChunk chunk ev₁ ev₂) :
    visible ev₁ = visible ev₂ := by
  unfold Websocket.visible
  rw [h.own, h.pending]

theorem SameChunk.respond {chunk : List UInt8} {ev₁ ev₂ : Event} (h : SameChunk chunk ev₁ ev₂)
    (linebuf : List UInt8) :
    (Websocket.respond openssl linebuf ev₁).map Websocket.visible =
      (Websocket.respond openssl linebuf ev₂).map Websocket.visible := by
  rw [respond_eq_map, respond_eq_map, Option.map_map, Option.map_map]
  congr 1
  funext r
  simp only [Function.comp_apply, Websocket.visible, Ntyevent.pending, h.own]

/-- One line of `handshark`. -/
theorem handsharkLoop_eq (ev : Event) (idx : ℕ) :
    handsharkLoop openssl ev idx =
      (store (zeros 1024) 0 (readline ev.buffer idx).2).bind fun linebuf =>
        (strstr linebuf keyText).bind fun found =>
          if found then respond openssl linebuf ev
          else if (byteAt ev (readline ev.buffer idx).1 ≠ 13 ∨
              byteAt ev ((readline ev.buffer idx).1 + 1) ≠ 10) ∧
              (readline ev.buffer idx).1 ≠ -1 then
            handsharkLoop openssl ev (readline ev.buffer idx).1.toNat
          else some ev := by
  rw [handsharkLoop]
  simp only [dite_eq_ite]

/-- `handshark` does the same in both slots. -/
theorem SameChunk.handsharkLoop {chunk : List UInt8} {ev₁ ev₂ : Event}
    (h : SameChunk chunk ev₁ ev₂) {idx : ℕ} (hidx : idx ≤ chunk.length) :
    (Websocket.handsharkLoop openssl ev₁ idx).map Websocket.visible =
      (Websocket.handsharkLoop openssl ev₂ idx).map Websocket.visible := by
  induction idx using Websocket.handsharkLoop.induct ev₁ with
  | case1 idx next ih =>
      have hreadline := h.readline hidx
      rw [handsharkLoop_eq ev₁, handsharkLoop_eq ev₂, hreadline]
      cases store (zeros 1024) 0 (Websocket.readline ev₂.buffer idx).2 with
      | none => simp only [Option.bind_none, Option.map_none]
      | some linebuf =>
          cases hfound : strstr linebuf keyText with
          | none => simp only [hfound, Option.bind_some, Option.bind_none, Option.map_none]
          | some found =>
              simp only [Option.bind_some, hfound]
              cases found with
              | true => exact h.respond linebuf
              | false =>
                  simp only [Bool.false_eq_true, if_false]
                  rcases h.readline_cases idx with hend | ⟨k, hk, hkle⟩
                  · rw [hend, if_neg (by simp), if_neg (by simp)]
                    exact congrArg some h.visible
                  · have hnext : next = k := by
                      rw [← hk, ← hreadline]
                    rw [hk]
                    by_cases hgo : (Websocket.byteAt ev₁ k ≠ 13 ∨
                        Websocket.byteAt ev₁ ((k : ℤ) + 1) ≠ 10) ∧ (k : ℤ) ≠ -1
                    · have hgo₂ := And.intro ((h.goesOn hkle).mp hgo.1) hgo.2
                      rw [if_pos hgo, if_pos hgo₂, Int.toNat_natCast]
                      rw [hnext] at ih
                      exact ih hgo (by simpa using hkle)
                    · rw [if_neg hgo, if_neg]
                      · exact congrArg some h.visible
                      · intro hgo₂
                        exact hgo ⟨(h.goesOn hkle).mpr hgo₂.1, hgo₂.2⟩

/-! ## `transmission` -/

/-- The bytes after `umask` on the payload from offset 6 on and the key at offset 2. -/
theorem getElem?_umask (buffer : List UInt8) (n j : ℕ) :
    (umask buffer 6 n 2)[j]? =
      if 6 ≤ j ∧ j < 6 + n then
        (buffer[j]?).map (· ^^^ buffer.getD (2 + (j - 6) % 4) 0)
      else buffer[j]? := by
  induction n generalizing j with
  | zero =>
      rw [if_neg (by omega)]
      rfl
  | succ n ih =>
      have hstep : umask buffer 6 (n + 1) 2 = (umask buffer 6 n 2).modify (6 + n)
          (· ^^^ (umask buffer 6 n 2).getD (2 + n % 4) 0) := by
        unfold umask
        rw [List.range_succ, List.foldl_append]
        rfl
      -- The key lies in front of the payload and has not changed.
      have hkey : (umask buffer 6 n 2).getD (2 + n % 4) 0 = buffer.getD (2 + n % 4) 0 := by
        rw [List.getD_eq_getElem?_getD, List.getD_eq_getElem?_getD, ih, if_neg (by omega)]
      rw [hstep, hkey, List.getElem?_modify, ih]
      by_cases hlast : 6 + n = j
      · have hoff : j - 6 = n := by omega
        rw [if_neg (by omega), if_pos (by omega), hoff]
        simp [hlast]
      · by_cases hin : 6 ≤ j ∧ j < 6 + n
        · rw [if_pos hin, if_pos (by omega)]
          simp [hlast]
        · rw [if_neg hin, if_neg (by omega)]
          simp [hlast]

/-- The key of a payload byte within the chunk lies within the chunk, too. -/
theorem SameChunk.umask {chunk : List UInt8} {ev₁ ev₂ : Event} (h : SameChunk chunk ev₁ ev₂)
    (n : ℕ) {i : ℕ} (hi : i ≤ chunk.length) :
    (Websocket.umask ev₁.buffer 6 n 2)[i]? = (Websocket.umask ev₂.buffer 6 n 2)[i]? := by
  rw [getElem?_umask, getElem?_umask, h.agree i hi]
  by_cases hin : 6 ≤ i ∧ i < 6 + n
  · rw [if_pos hin, if_pos hin, List.getD_eq_getElem?_getD, List.getD_eq_getElem?_getD,
      h.agree _ (by omega)]
  · rw [if_neg hin, if_neg hin]

/-- `transmission` sends the same from both slots. -/
theorem SameChunk.transmission {chunk : List UInt8} {ev₁ ev₂ : Event}
    (h : SameChunk chunk ev₁ ev₂) (hpos : 1 ≤ chunk.length) :
    Websocket.visible (transmission ev₁) = Websocket.visible (transmission ev₂) := by
  have hheader : Websocket.byteAt ev₁ 1 = Websocket.byteAt ev₂ 1 := h.byteAt (i := 1) hpos
  unfold Websocket.transmission
  simp only [hheader]
  split
  · split
    · unfold Websocket.visible Ntyevent.pending
      simp only [h.own, h.length₁, h.length₂, Prod.mk.injEq, true_and]
      apply List.ext_getElem?
      intro i
      rw [List.getElem?_take, List.getElem?_take]
      split
      · exact h.umask _ (by omega)
      · rfl
    · exact h.visible
  · exact h.visible

/-- What is sent for a chunk depends on the chunk and the state only. -/
theorem SameChunk.websocketRequest {chunk : List UInt8} {ev₁ ev₂ : Event}
    (h : SameChunk chunk ev₁ ev₂) (hpos : 1 ≤ chunk.length) :
    (Websocket.websocketRequest openssl ev₁).map Websocket.visible =
      (Websocket.websocketRequest openssl ev₂).map Websocket.visible := by
  unfold Websocket.websocketRequest
  rw [h.own]
  cases ev₂.own with
  | handshark =>
      have h' : SameChunk chunk { ev₁ with own := .tranmission } { ev₂ with own := .tranmission } :=
        ⟨rfl, h.length₁, h.length₂, h.agree, h.text₁, h.text₂, h.final⟩
      exact h'.handsharkLoop (Nat.zero_le _)
  | tranmission => exact congrArg some (h.transmission hpos)
  | ended => exact congrArg some h.visible

/-! ## Runs -/

/-- The state and the bytes sent after a chunk: those of a fresh slot. -/
def reply (openssl : OpenSSL) (own : Machine) (chunk : List UInt8) :
    Option (Machine × List UInt8) :=
  (websocketRequest openssl (storeChunk (.zero own) chunk)).map visible

theorem websocket_answers (openssl : OpenSSL) :
    (websocket openssl).Answers .handshark (reply openssl) := by
  refine ⟨fun _ => rfl, ?_, ?_⟩
  · intro ev chunk hbuffer hpos hlen
    have hzero : (Ntyevent.zero ev.own : Event).buffer.length = BUFFER_LENGTH :=
      List.length_replicate
    have hown : ev.own = (Ntyevent.zero ev.own : Event).own := rfl
    exact (sameChunk_storeChunk hown hbuffer hzero hlen).websocketRequest hpos
  · intro ev ev' h
    exact (websocketRequest_cases h).2.1

end ServerKit.Websocket
