import ServerKit.Lib.Base64
import ServerKit.Reactor.Consistency
import ServerKit.Websocket.Model

/-! # The answer to an upgrade request

`handshark` finds the line with the key behind any other lines. It passes the digest to
the encoder with the length that `strlen` gives, so the answer is the right one exactly
for digests without a zero byte. -/

namespace ServerKit.Websocket

open ServerKit.Memory ServerKit.CString ServerKit.Reactor

def crlf : List UInt8 := [13, 10]

/-- A line of a request: at least one byte, no zero byte and no line end in it, and short. -/
structure HeaderLine (line : List UInt8) : Prop where
  ne_nil : line ≠ []
  no_zero : (0 : UInt8) ∉ line
  no_crlf : ¬ crlf <:+: line
  short : line.length < 900

instance (line : List UInt8) : Decidable (HeaderLine line) :=
  decidable_of_iff (line ≠ [] ∧ (0 : UInt8) ∉ line ∧ ¬ crlf <:+: line ∧ line.length < 900)
    ⟨fun h => ⟨h.1, h.2.1, h.2.2.1, h.2.2.2⟩,
      fun h => ⟨h.ne_nil, h.no_zero, h.no_crlf, h.short⟩⟩

/-- The header of the line with the key; `WEBSOCK_KEY_LENGTH` is its length. -/
def keyHead : List UInt8 := ofString "Sec-WebSocket-Key: "

/-- An upgrade request: the lines in front of the one with the key, among them the request
line, the key, and the lines behind it. -/
structure UpgradeRequest where
  before : List (List UInt8)
  key : List UInt8
  after : List (List UInt8)
  lines : ∀ line ∈ before ++ (keyHead ++ key) :: after, HeaderLine line
  others : ∀ line ∈ before ++ after, ¬ keyText <:+: line

/-- Lines with their ends. -/
def joinLines (lines : List (List UInt8)) : List UInt8 := (lines.map (· ++ crlf)).flatten

/-- The request as it is received, up to the empty line. -/
def UpgradeRequest.bytes (r : UpgradeRequest) : List UInt8 :=
  joinLines (r.before ++ (keyHead ++ r.key) :: r.after) ++ crlf

/-- `recv_cb` has stored the request in the buffer of the slot. -/
def UpgradeRequest.store (r : UpgradeRequest) (ev : Event) : Event := storeChunk ev r.bytes

/-- The base64 filter appends a newline to the encoding of up to 48 bytes; from nothing it
makes no more than that newline. -/
structure OpenSSL.Standard (openssl : OpenSSL) : Prop where
  bio : ∀ xs, xs ≠ [] → xs.length ≤ 48 → openssl.bio xs = Base64.encode xs ++ [10]
  bio_nil : openssl.bio [] = [] ∨ openssl.bio [] = [10]

/-! ## Reading lines -/

theorem HeaderLine.fits {line : List UInt8} (h : HeaderLine line) : line.length ≤ 1023 :=
  h.short.le.trans (by decide)

/-- No line end starts inside of a line or across its end. -/
theorem HeaderLine.not_crlf {line : List UInt8} (hne : line ≠ []) (hcrlf : ¬ crlf <:+: line)
    (rest : List UInt8) :
    ¬ ((line ++ 13 :: 10 :: rest)[0]? = some 13 ∧ (line ++ 13 :: 10 :: rest)[1]? = some 10) := by
  intro h
  cases line with
  | nil => exact hne rfl
  | cons c line =>
      cases line with
      | nil => simp at h
      | cons d line =>
          simp only [List.cons_append, List.getElem?_cons_zero, List.getElem?_cons_succ,
            Option.some.injEq] at h
          apply hcrlf
          rw [h.1, h.2]
          exact (List.prefix_append crlf line).isInfix

theorem getElem?_at_length (pre rest : List UInt8) (k : ℕ) :
    (pre ++ rest)[pre.length + k]? = rest[k]? := by
  rw [List.getElem?_append_right (Nat.le_add_right _ _), Nat.add_sub_cancel_left]

/-- The loop of `readline` copies a line and stops behind its end. -/
theorem readlineLoop_line (line rest : List UInt8) (hcrlf : ¬ crlf <:+: line) (n : ℕ)
    (pre acc : List UInt8) :
    readlineLoop (pre ++ (line ++ 13 :: 10 :: rest)) pre.length acc (line.length + 1 + n) =
      (((pre.length + line.length + 2 : ℕ) : ℤ), acc ++ line) := by
  induction line generalizing pre acc with
  | nil =>
      have hstep : ([] : List UInt8).length + 1 + n = n + 1 := by
        simp only [List.length_nil]
        omega
      rw [hstep, readlineLoop, if_pos]
      · simp
      · exact ⟨getElem?_at_length pre _ 0, getElem?_at_length pre _ 1⟩
  | cons c line ih =>
      have hstep : (c :: line).length + 1 + n = (line.length + 1 + n) + 1 := by
        simp only [List.length_cons]
        omega
      have hnot := HeaderLine.not_crlf (List.cons_ne_nil c line) hcrlf rest
      have hhead : (pre ++ (c :: line ++ 13 :: 10 :: rest))[pre.length]? = some c :=
        getElem?_at_length pre _ 0
      rw [hstep, readlineLoop, if_neg]
      · have hrest := ih (fun h => hcrlf (h.trans (List.suffix_cons c line).isInfix))
          (pre ++ [c]) (acc ++ [c])
        rw [hhead]
        simp only [List.append_assoc, List.singleton_append, List.length_append,
          List.length_singleton] at hrest
        simp only [List.cons_append, Option.toList_some]
        rw [hrest]
        simp only [List.length_cons, Prod.mk.injEq, and_true]
        omega
      · intro h
        apply hnot
        rw [← getElem?_at_length pre _ 0, ← getElem?_at_length pre _ 1]
        exact h

/-- `readline` at the start of a line. -/
theorem readline_line {allbuf pre line rest : List UInt8} (hcrlf : ¬ crlf <:+: line)
    (htext : text allbuf = pre ++ (line ++ 13 :: 10 :: rest)) :
    readline allbuf pre.length = (((pre.length + line.length + 2 : ℕ) : ℤ), line) := by
  rcases text_isPrefix allbuf with ⟨tail, htail⟩
  rw [htext] at htail
  have hlen : (text allbuf).length - pre.length = line.length + 1 + (rest.length + 1) := by
    rw [htext]
    simp
    omega
  unfold readline
  rw [hlen, ← htail]
  have h := readlineLoop_line line (rest ++ tail) hcrlf (rest.length + 1) pre []
  simpa using h

/-! ## The loop over the lines -/

variable {openssl : OpenSSL} {ev : Event}

/-- `linebuf` with a line in it. -/
theorem linebuf_eq {line : List UInt8} (h : line.length ≤ 1023) :
    Memory.store (zeros 1024) 0 line = some (line ++ 0 :: zeros (1023 - line.length)) := by
  rw [store_zeros (by omega), zeros_cons (by omega)]
  congr 4
  omega

/-- A byte behind the string read so far. -/
theorem byteAt_text {done rest : List UInt8} (htext : text ev.buffer = done ++ rest) {k : ℕ}
    {b : UInt8} (hb : rest[k]? = some b) : byteAt ev ((done.length + k : ℕ) : ℤ) = b := by
  rcases text_isPrefix ev.buffer with ⟨tail, htail⟩
  have hlt : k < rest.length := (List.getElem?_eq_some_iff.mp hb).1
  rw [htext, List.append_assoc] at htail
  have hget : ev.buffer[done.length + k]? = some b := by
    rw [← htail, getElem?_at_length, List.getElem?_append_left hlt]
    exact hb
  rw [byteAt_natCast, List.getD_eq_getElem?_getD, hget, Option.getD_some]

/-- At the line with the key the loop answers. -/
theorem handsharkLoop_key {pre line rest : List UInt8} (hline : HeaderLine line)
    (hkey : keyText <:+: line) (htext : text ev.buffer = pre ++ (line ++ 13 :: 10 :: rest)) :
    handsharkLoop openssl ev pre.length =
      respond openssl (line ++ 0 :: zeros (1023 - line.length)) ev := by
  rw [handsharkLoop, readline_line hline.no_crlf htext]
  simp only
  rw [linebuf_eq hline.fits, Option.bind_some, strstr_append hline.no_zero, Option.bind_some,
    if_pos (decide_eq_true hkey)]

/-- From another line the loop goes on to the next one. -/
theorem handsharkLoop_other {pre line next rest : List UInt8} (hline : HeaderLine line)
    (hkey : ¬ keyText <:+: line) (hnext : HeaderLine next)
    (htext : text ev.buffer = pre ++ (line ++ 13 :: 10 :: (next ++ 13 :: 10 :: rest))) :
    handsharkLoop openssl ev pre.length =
      handsharkLoop openssl ev (pre ++ (line ++ crlf)).length := by
  have hlen : (pre ++ (line ++ crlf)).length = pre.length + line.length + 2 := by
    simp [crlf]
    omega
  have htext' : text ev.buffer = (pre ++ (line ++ crlf)) ++ (next ++ 13 :: 10 :: rest) := by
    rw [htext]
    simp [crlf]
  rw [handsharkLoop, readline_line hline.no_crlf htext]
  simp only
  rw [linebuf_eq hline.fits, Option.bind_some, strstr_append hline.no_zero, Option.bind_some,
    if_neg (by simpa using hkey), dif_pos, hlen, Int.toNat_natCast]
  refine ⟨?_, by omega⟩
  -- The next line is not empty, so the loop does not stop in front of it.
  apply not_and_or.mp
  intro hstop
  apply HeaderLine.not_crlf hnext.ne_nil hnext.no_crlf rest
  have hlong : 2 ≤ (next ++ 13 :: 10 :: rest).length := by
    simp only [List.length_append, List.length_cons]
    omega
  have hzero := List.getElem?_eq_getElem (l := next ++ 13 :: 10 :: rest) (i := 0) (by omega)
  have hone := List.getElem?_eq_getElem (l := next ++ 13 :: 10 :: rest) (i := 1) (by omega)
  have hbyte₀ := byteAt_text htext' hzero
  have hbyte₁ := byteAt_text htext' hone
  rw [hlen] at hbyte₀ hbyte₁
  have h₀ : byteAt ev ((pre.length + line.length + 2 : ℕ) : ℤ) = 13 := hstop.1
  have h₁ : byteAt ev ((pre.length + line.length + 2 + 1 : ℕ) : ℤ) = 10 := hstop.2
  rw [hzero, hone, ← hbyte₀, ← hbyte₁]
  exact ⟨congrArg some h₀, congrArg some h₁⟩

/-- A line comes first, whether or not there are others in front of it. -/
theorem joinLines_append {before : List (List UInt8)} {line : List UInt8} (rest : List UInt8)
    (h : ∀ other ∈ before ++ [line], HeaderLine other) :
    ∃ next rest', HeaderLine next ∧
      joinLines before ++ (line ++ 13 :: 10 :: rest) = next ++ 13 :: 10 :: rest' := by
  cases before with
  | nil => exact ⟨line, rest, h line (by simp), rfl⟩
  | cons next before =>
      refine ⟨next, joinLines before ++ (line ++ 13 :: 10 :: rest), h next (by simp), ?_⟩
      simp [joinLines, crlf]

/-- The loop passes over the lines in front of the one with the key. -/
theorem handsharkLoop_before (openssl : OpenSSL) {before : List (List UInt8)}
    {line rest : List UInt8} (hlines : ∀ other ∈ before ++ [line], HeaderLine other)
    (hothers : ∀ other ∈ before, ¬ keyText <:+: other) (pre : List UInt8)
    (htext : text ev.buffer = pre ++ (joinLines before ++ (line ++ 13 :: 10 :: rest))) :
    handsharkLoop openssl ev pre.length =
      handsharkLoop openssl ev (pre ++ joinLines before).length := by
  induction before generalizing pre with
  | nil => simp [joinLines]
  | cons first before ih =>
      have htail : ∀ other ∈ before ++ [line], HeaderLine other :=
        fun other h => hlines other (List.mem_cons_of_mem _ h)
      rcases joinLines_append rest htail with ⟨next, rest', hnext, hjoin⟩
      have hcons : joinLines (first :: before) = first ++ crlf ++ joinLines before := by
        simp [joinLines]
      have htext₁ : text ev.buffer =
          pre ++ (first ++ 13 :: 10 :: (next ++ 13 :: 10 :: rest')) := by
        rw [htext, hcons, ← hjoin]
        simp [crlf]
      have htext₂ : text ev.buffer =
          (pre ++ (first ++ crlf)) ++ (joinLines before ++ (line ++ 13 :: 10 :: rest)) := by
        rw [htext, hcons]
        simp
      rw [handsharkLoop_other (hlines first List.mem_cons_self)
        (hothers first List.mem_cons_self) hnext htext₁,
        ih htail (fun other h => hothers other (List.mem_cons_of_mem _ h)) _ htext₂, hcons]
      simp

/-! ## The answer -/

theorem length_GUID : GUID.length = 36 := by decide

theorem zero_not_mem_GUID : (0 : UInt8) ∉ GUID := by decide

theorem length_response (accept : List UInt8) :
    (response accept).length = accept.length + 101 := by
  have hhead : responseHead.length = 97 := by decide
  simp only [response, List.length_append, hhead, List.length_cons, List.length_nil]
  omega

theorem response_injective : Function.Injective response := by
  intro a b h
  exact List.append_cancel_left (List.append_cancel_right h)

/-- The encoder on a part of the digest: the newline of the filter becomes the final zero. -/
theorem base64Encode_eq (hopenssl : openssl.Standard) {inStr xs : List UInt8} {inLen : ℕ}
    (hin : inStr.take inLen = xs) (hne : xs ≠ []) (hlen : xs.length ≤ 20) :
    base64Encode openssl inStr inLen (zeros 32) =
      some (Base64.encode xs ++ 0 :: zeros (31 - (Base64.encode xs).length),
        (Base64.encode xs).length + 1) := by
  have hencode : (Base64.encode xs).length ≤ 28 := by
    rw [Base64.length_encode]
    omega
  have hdata : openssl.bio xs = Base64.encode xs ++ [10] := hopenssl.bio xs hne (by omega)
  have hlength : (Base64.encode xs ++ [10]).length = (Base64.encode xs).length + 1 := by simp
  have hcopy : memcpy (zeros 32) 0 (Base64.encode xs ++ [10]) 0 ((Base64.encode xs).length + 1) =
      some (Base64.encode xs ++ 10 :: zeros (31 - (Base64.encode xs).length)) := by
    have hstore := store_zeros (s := Base64.encode xs ++ [10]) (n := 32) (by omega)
    rw [← hlength, memcpy_eq_store (by simp), List.drop_zero, List.take_length, hstore, hlength,
      Nat.add_comm, Nat.sub_add_eq]
    simp
  have hzero : Memory.store
      (Base64.encode xs ++ 10 :: zeros (31 - (Base64.encode xs).length))
      ((Base64.encode xs).length + 1 - 1) [0] =
      some (Base64.encode xs ++ 0 :: zeros (31 - (Base64.encode xs).length)) := by
    rw [Nat.add_sub_cancel, store_eq_some (by simp)]
    simp
  unfold base64Encode
  simp only [hin, hdata, hlength, hcopy, Option.bind_eq_bind, Option.bind_some]
  rw [if_neg (Nat.succ_ne_zero _), hzero]
  rfl

/-- The string that `SHA1` is given for a line. -/
def hashed (line : List UInt8) : List UInt8 := (line ++ GUID).drop WEBSOCK_KEY_LENGTH

theorem hashed_keyHead (key : List UInt8) : hashed (keyHead ++ key) = key ++ GUID := by
  have hhead : WEBSOCK_KEY_LENGTH = keyHead.length := by decide
  rw [hashed, hhead, List.append_assoc, List.drop_left]

theorem zero_not_mem_hashed {line : List UInt8} (hzero : (0 : UInt8) ∉ line) :
    (0 : UInt8) ∉ hashed line := by
  intro hmem
  rcases List.mem_append.mp (List.mem_of_mem_drop hmem) with hline | hguid
  · exact hzero hline
  · exact zero_not_mem_GUID hguid

/-- The GUID fits behind a line of up to 987 bytes. -/
theorem strcat_linebuf {line : List UInt8} (hzero : (0 : UInt8) ∉ line)
    (hshort : line.length ≤ 987) :
    ∃ linebuf rest, strcat (line ++ 0 :: zeros (1023 - line.length)) GUID = some linebuf ∧
      linebuf.drop WEBSOCK_KEY_LENGTH = hashed line ++ 0 :: rest := by
  refine ⟨_, (zeros (1023 - line.length)).drop GUID.length, strcat_append hzero ?_, ?_⟩
  · rw [length_GUID, length_zeros]
    omega
  · apply List.drop_append_of_le_length
    rw [List.length_append, length_GUID, WEBSOCK_KEY_LENGTH]
    omega

/-- The encoder is given the digest up to its first zero byte. -/
theorem respond_encode {line : List UInt8} (hzero : (0 : UInt8) ∉ line)
    (hshort : line.length ≤ 987) :
    respond openssl (line ++ 0 :: zeros (1023 - line.length)) ev =
      (base64Encode openssl (openssl.sha1 (hashed line) ++ zeros 108)
        (text (openssl.sha1 (hashed line))).length (zeros 32)).bind fun out =>
          (cstr out.1).bind fun accept =>
            (Memory.store (zeros BUFFER_LENGTH) 0 (response accept ++ [0])).map fun buffer =>
              { ev with buffer := buffer, length := (response accept).length } := by
  rcases strcat_linebuf hzero hshort with ⟨linebuf, rest, hcat, hdrop⟩
  have hsha := openssl.sha1_length (hashed line)
  have hdigest : Memory.store (zeros 128) 0 (openssl.sha1 (hashed line)) =
      some (openssl.sha1 (hashed line) ++ zeros 108) := by
    rw [store_zeros (by omega), hsha]
  have hstrlen : strlen (openssl.sha1 (hashed line) ++ zeros 108) =
      some (text (openssl.sha1 (hashed line))).length := by
    rw [strlen, cstr_append_zeros _ (by decide), Option.map_some]
  unfold respond
  simp only [hcat, hdrop, strlen_append (zero_not_mem_hashed hzero), List.take_left, hdigest,
    hstrlen, Option.bind_eq_bind, Option.bind_some, Option.map_eq_bind, Function.comp_def]
  rfl

/-- What the answer has for the digest: its bytes in front of the first zero byte. -/
theorem respond_eq {line : List UInt8} (hzero : (0 : UInt8) ∉ line) (hshort : line.length ≤ 987)
    (hopenssl : openssl.Standard) {xs : List UInt8}
    (hxs : text (openssl.sha1 (hashed line)) = xs) (hne : xs ≠ []) :
    respond openssl (line ++ 0 :: zeros (1023 - line.length)) ev =
      some { ev with
        buffer := response (Base64.encode xs) ++ 0 ::
          zeros (4095 - (response (Base64.encode xs)).length)
        length := (response (Base64.encode xs)).length } := by
  have hsha := openssl.sha1_length (hashed line)
  have hpre : xs <+: openssl.sha1 (hashed line) := hxs ▸ text_isPrefix _
  have hlen : xs.length ≤ 20 := hsha ▸ hpre.length_le
  have htake : (openssl.sha1 (hashed line) ++ zeros 108).take xs.length = xs :=
    (List.prefix_iff_eq_take.mp (hpre.trans (List.prefix_append _ _))).symm
  have hencode : (Base64.encode xs).length ≤ 28 := by
    rw [Base64.length_encode]
    omega
  have hprinted := length_response (Base64.encode xs)
  have hbuffer : Memory.store (zeros BUFFER_LENGTH) 0 (response (Base64.encode xs) ++ [0]) =
      some (response (Base64.encode xs) ++ 0 ::
        zeros (4095 - (response (Base64.encode xs)).length)) := by
    have hlength : (response (Base64.encode xs) ++ [0]).length =
        (response (Base64.encode xs)).length + 1 := by simp
    have hrest : BUFFER_LENGTH - ((response (Base64.encode xs)).length + 1) =
        4095 - (response (Base64.encode xs)).length := by
      unfold BUFFER_LENGTH
      omega
    rw [store_zeros (by unfold BUFFER_LENGTH; omega), hlength, hrest]
    simp only [List.append_assoc, List.singleton_append]
  rw [respond_encode hzero hshort, hxs, base64Encode_eq hopenssl htake hne hlen, Option.bind_some,
    cstr_append (Base64.zero_not_mem_encode xs), Option.bind_some, hbuffer, Option.map_some]

/-- The encoder without input has no result, or an empty string. -/
theorem base64Encode_zero (hopenssl : openssl.Standard) (inStr : List UInt8) :
    base64Encode openssl inStr 0 (zeros 32) =
      if openssl.bio [] = [] then none else some (zeros 32, 1) := by
  have hcopy : memcpy (zeros 32) 0 [10] 0 1 = some (10 :: zeros 31) := rfl
  have hzero : Memory.store (10 :: zeros 31) 0 [0] = some (zeros 32) := rfl
  rcases hopenssl.bio_nil with hbio | hbio
  · simp [base64Encode, hbio]
  · simp [base64Encode, hbio, hcopy, hzero]

/-- For a digest that starts with a zero byte there is an answer, with an empty value, if the
filter prints something. -/
theorem respond_nil (ev : Event) {line : List UInt8} (hzero : (0 : UInt8) ∉ line)
    (hshort : line.length ≤ 987) (hopenssl : openssl.Standard)
    (hxs : text (openssl.sha1 (hashed line)) = []) :
    (respond openssl (line ++ 0 :: zeros (1023 - line.length)) ev).map Ntyevent.length =
      if openssl.bio [] = [] then none else some (response []).length := by
  have hbuffer : Memory.store (zeros BUFFER_LENGTH) 0 (response [] ++ [0]) =
      some (response [] ++ [0] ++ zeros (BUFFER_LENGTH - (response [] ++ [0]).length)) :=
    store_zeros (by decide)
  have hcstr : cstr (zeros 32) = some [] := rfl
  rw [respond_encode hzero hshort, hxs, List.length_nil, base64Encode_zero hopenssl]
  split
  · rfl
  · rw [Option.bind_some, hcstr, Option.bind_some, hbuffer]
    rfl

/-! ## The whole request -/

theorem zero_not_mem_bytes (r : UpgradeRequest) : (0 : UInt8) ∉ r.bytes := by
  intro h
  unfold UpgradeRequest.bytes joinLines at h
  rcases List.mem_append.mp h with hlines | hend
  · rcases List.mem_flatten.mp hlines with ⟨l, hl, hmem⟩
    rcases List.mem_map.mp hl with ⟨line, hline, heq⟩
    rw [← heq] at hmem
    rcases List.mem_append.mp hmem with hmem | hmem
    · exact (r.lines line hline).no_zero hmem
    · exact absurd hmem (by decide)
  · exact absurd hend (by decide)

/-- The string in the buffer is the request. -/
theorem text_store (r : UpgradeRequest) (hlen : r.bytes.length ≤ 4095) {ev : Event}
    (hbuffer : ev.buffer.length = BUFFER_LENGTH) : text (r.store ev).buffer = r.bytes := by
  have hlt : r.bytes.length < BUFFER_LENGTH := Nat.lt_succ_of_le hlen
  unfold UpgradeRequest.store
  rw [storeChunk_buffer hbuffer hlt, text_append (zero_not_mem_bytes r)]

/-- `handshark` comes to the line with the key. -/
theorem handshark_store (r : UpgradeRequest) (hlen : r.bytes.length ≤ 4095)
    (hbuffer : ev.buffer.length = BUFFER_LENGTH) :
    handshark openssl (r.store ev) =
      respond openssl (keyHead ++ r.key ++ 0 :: zeros (1023 - (keyHead ++ r.key).length))
        (r.store ev) := by
  have hkeyLine := r.lines (keyHead ++ r.key) (by simp)
  have hkey : keyText <:+: keyHead ++ r.key := by
    have hhead : keyText <+: keyHead := by decide
    exact (hhead.trans (List.prefix_append _ _)).isInfix
  have htext : text (r.store ev).buffer = [] ++ (joinLines r.before ++
      (keyHead ++ r.key ++ 13 :: 10 :: (joinLines r.after ++ crlf))) := by
    rw [text_store r hlen hbuffer]
    simp [UpgradeRequest.bytes, joinLines, crlf]
  have htext' : text (r.store ev).buffer = ([] ++ joinLines r.before) ++
      (keyHead ++ r.key ++ 13 :: 10 :: (joinLines r.after ++ crlf)) := by
    rw [htext]
    simp
  have hbefore := handsharkLoop_before openssl (fun other h => r.lines other (by
      rcases List.mem_append.mp h with hmem | hmem
      · exact List.mem_append_left _ hmem
      · exact List.mem_append_right _ (List.mem_singleton.mp hmem ▸ List.mem_cons_self)))
    (fun other h => r.others other (List.mem_append_left _ h)) [] htext
  unfold handshark
  rw [← handsharkLoop_key hkeyLine hkey htext']
  exact hbefore

/-- The value that RFC 6455 asks for. -/
def UpgradeRequest.accept (openssl : OpenSSL) (r : UpgradeRequest) : List UInt8 :=
  Base64.encode (openssl.sha1 (r.key ++ GUID))

/-- `handshark` leaves the response with the right value in the slot. -/
def UpgradeRequest.Answered (openssl : OpenSSL) (r : UpgradeRequest) (ev : Event) : Prop :=
  ∃ ev', handshark openssl (r.store ev) = some ev' ∧
    ev'.length = (response (r.accept openssl)).length ∧
    ev'.buffer.take ev'.length = response (r.accept openssl)

/-- The right answer goes out for a digest without a zero byte. -/
theorem answered_of_no_zero (hopenssl : openssl.Standard) (r : UpgradeRequest)
    (hlen : r.bytes.length ≤ 4095) (hbuffer : ev.buffer.length = BUFFER_LENGTH)
    (hzero : (0 : UInt8) ∉ openssl.sha1 (r.key ++ GUID)) : r.Answered openssl ev := by
  have hkeyLine := r.lines (keyHead ++ r.key) (by simp)
  have htext := text_eq_self.mpr hzero
  have hne : openssl.sha1 (r.key ++ GUID) ≠ [] := by
    intro h
    simpa [h] using openssl.sha1_length (r.key ++ GUID)
  unfold UpgradeRequest.Answered
  have hshort : (keyHead ++ r.key).length ≤ 987 := by
    have := hkeyLine.short
    omega
  rw [← hashed_keyHead] at htext hne
  rw [handshark_store r hlen hbuffer, respond_eq hkeyLine.no_zero hshort hopenssl htext hne,
    hashed_keyHead]
  exact ⟨_, rfl, rfl, List.take_left⟩

/-- A digest with a zero byte is cut there, so its encoding is another one. -/
theorem not_answered_of_zero (hopenssl : openssl.Standard) (r : UpgradeRequest)
    (hlen : r.bytes.length ≤ 4095) (hbuffer : ev.buffer.length = BUFFER_LENGTH)
    (hzero : (0 : UInt8) ∈ openssl.sha1 (r.key ++ GUID)) : ¬ r.Answered openssl ev := by
  have hkeyLine := r.lines (keyHead ++ r.key) (by simp)
  unfold UpgradeRequest.Answered
  rw [handshark_store r hlen hbuffer]
  rintro ⟨ev', hev, hlength, hprinted⟩
  have hshort : (keyHead ++ r.key).length ≤ 987 := by
    have := hkeyLine.short
    omega
  have hhashed := hashed_keyHead r.key
  by_cases hxs : text (openssl.sha1 (hashed (keyHead ++ r.key))) = []
  · have hempty := respond_nil (r.store ev) hkeyLine.no_zero hshort hopenssl hxs
    rw [hev, Option.map_some, hlength, length_response, UpgradeRequest.accept,
      Base64.length_encode, openssl.sha1_length, length_response] at hempty
    split at hempty
    · cases hempty
    · simp at hempty
  · rw [respond_eq hkeyLine.no_zero hshort hopenssl rfl hxs] at hev
    cases hev
    rw [List.take_left, UpgradeRequest.accept, hhashed] at hprinted
    have htext := Base64.encode_injective (response_injective hprinted)
    exact text_eq_self.mp htext hzero

/-- **Handshake.** The answer to an upgrade request is the right one if and only if the digest
has no zero byte in it. -/
theorem answered_iff (hopenssl : openssl.Standard) (r : UpgradeRequest)
    (hlen : r.bytes.length ≤ 4095) (hbuffer : ev.buffer.length = BUFFER_LENGTH) :
    r.Answered openssl ev ↔ (0 : UInt8) ∉ openssl.sha1 (r.key ++ GUID) :=
  ⟨fun h hzero => not_answered_of_zero hopenssl r hlen hbuffer hzero h,
    answered_of_no_zero hopenssl r hlen hbuffer⟩

/-- OpenSSL for one input, whose digest is given. -/
def opensslFor (digest : List UInt8) (h : digest.length = 20) : OpenSSL :=
  ⟨fun _ => digest, fun xs => if xs = [] then [] else Base64.encode xs ++ [10], fun _ => h⟩

theorem standard_opensslFor (digest : List UInt8) (h : digest.length = 20) :
    (opensslFor digest h).Standard :=
  ⟨fun _ hne _ => if_neg hne, .inl (by simp [opensslFor])⟩

/-- The request line and the host in front of a key. -/
def requestFor (key : List UInt8) (h : HeaderLine (keyHead ++ key)) : UpgradeRequest where
  before := [ofString "GET / HTTP/1.1", ofString "Host: a"]
  key := key
  after := []
  lines := by
    intro line hline
    rcases List.mem_append.mp hline with hline | hline
    · have hall : ∀ line ∈ [ofString "GET / HTTP/1.1", ofString "Host: a"], HeaderLine line := by
        decide
      exact hall line hline
    · rw [List.mem_singleton.mp hline]
      exact h
  others := by decide

/-- The key of RFC 6455's example. -/
theorem answered_iff_rfcKey :
    (requestFor (ofString "dGhlIHNhbXBsZSBub25jZQ==") (by decide)).Answered
      (opensslFor [179, 122, 79, 44, 192, 98, 79, 22, 144, 246, 70, 6, 207, 56, 89, 69, 178, 190,
        196, 234] rfl) (.zero .tranmission) := by
  apply (answered_iff (standard_opensslFor _ _) _ (by decide) List.length_replicate).mpr
  decide

/-- The digest of this key and the GUID ends with a zero byte, which the answer leaves out. -/
theorem zero_digest_not_answered :
    ∃ openssl : OpenSSL, openssl.Standard ∧
      ∃ r : UpgradeRequest, r.key = ofString "AAAAAAAAAAAAAAAAAAAADg==" ∧
        r.bytes.length ≤ 4095 ∧ ¬ r.Answered openssl (.zero .tranmission) := by
  refine ⟨opensslFor [218, 20, 13, 123, 96, 58, 106, 153, 141, 254, 247, 186, 197, 59, 18, 19, 22,
    163, 103, 0] rfl, standard_opensslFor _ _, requestFor _ (by decide), rfl, by decide, ?_⟩
  exact not_answered_of_zero (standard_opensslFor _ _) _ (by decide) List.length_replicate
    (by decide)

end ServerKit.Websocket
