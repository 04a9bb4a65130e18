import ServerKit.Lib.Frame
import ServerKit.Websocket.Upgrade

/-! # The echo of a frame

`transmission` unmasks a short payload in the buffer that is sent back, and leaves the mask bit
and the key in front of it as they are. -/

namespace ServerKit.Websocket

open ServerKit.Reactor ServerKit.System ServerKit.Frame

/-! ## The echo of a chunk -/

/-- The slot in which `transmission` finds the chunk. -/
theorem storeChunk_getElem? {chunk : List UInt8} (hlen : chunk.length ≤ BUFFER_LENGTH) {i : ℕ}
    (hi : i < chunk.length) :
    (storeChunk (.zero .tranmission) chunk : Event).buffer[i]? = chunk[i]? := by
  have hzero : (Ntyevent.zero .tranmission : Event).buffer.length = BUFFER_LENGTH :=
    List.length_replicate
  rcases Nat.lt_or_eq_of_le hlen with hlt | hfull
  · rw [storeChunk_buffer hzero hlt, List.getElem?_append_left hi]
  · rw [storeChunk_buffer_full hzero hfull]

/-- The echo of a chunk of at least two bytes. -/
theorem echo_eq {b₀ b₁ : UInt8} {rest : List UInt8}
    (hlen : (b₀ :: b₁ :: rest).length ≤ BUFFER_LENGTH) :
    echo (b₀ :: b₁ :: rest) =
      if b₁.toNat % 128 < 126 ∧ 128 ≤ b₁.toNat then
        umask (b₀ :: b₁ :: rest) 6 (b₁.toNat % 128) 2
      else b₀ :: b₁ :: rest := by
  generalize hchunk : b₀ :: b₁ :: rest = chunk at hlen ⊢
  have hget : ∀ i < chunk.length,
      (storeChunk (.zero .tranmission) chunk : Event).buffer[i]? = chunk[i]? :=
    fun i hi => storeChunk_getElem? hlen hi
  have hbyte : byteAt (storeChunk (.zero .tranmission) chunk) 1 = b₁ := by
    have hone := hget 1 (by simp [← hchunk])
    have hnat := byteAt_natCast (storeChunk (.zero .tranmission) chunk) 1
    rw [List.getD_eq_getElem?_getD, hone, ← hchunk] at hnat
    rw [← hchunk]
    exact hnat
  have hmask : b₁.toNat / 128 ≠ 0 ↔ 128 ≤ b₁.toNat := by omega
  unfold echo transmission
  simp only [hbyte, hmask]
  by_cases hshort : b₁.toNat % 128 < 126
  · by_cases hmasked : 128 ≤ b₁.toNat
    · rw [if_pos hshort, if_pos hmasked, if_pos ⟨hshort, hmasked⟩, Ntyevent.pending]
      apply List.ext_getElem?
      intro i
      rw [List.getElem?_take, getElem?_umask, getElem?_umask, storeChunk_length _ hlen]
      by_cases hi : i < chunk.length
      · rw [if_pos hi, hget i hi]
        split
        · rw [List.getD_eq_getElem?_getD, List.getD_eq_getElem?_getD, hget _ (by omega)]
        · rfl
      · rw [if_neg hi, List.getElem?_eq_none_iff.mpr (by omega)]
        simp
    · rw [if_pos hshort, if_neg hmasked, if_neg (fun h => hmasked h.2),
        storeChunk_pending _ hlen]
  · rw [if_neg hshort, if_neg (fun h => hshort h.1), storeChunk_pending _ hlen]

/-! ## The echo of a frame -/

/-- `umask` on a masked payload behind a header of six bytes with the key at its end. -/
theorem umask_masked (b₀ b₁ : UInt8) (key : MaskKey) (payload rest : List UInt8) :
    umask (b₀ :: b₁ :: (key.bytes ++ (key.apply payload ++ rest))) 6 payload.length 2 =
      b₀ :: b₁ :: (key.bytes ++ (payload ++ rest)) := by
  have hfour := key.length_eq
  apply List.ext_getElem?
  intro i
  rw [getElem?_umask]
  rcases i with _ | _ | i
  · simp
  · simp
  · rw [List.getElem?_cons_succ, List.getElem?_cons_succ, List.getElem?_cons_succ,
      List.getElem?_cons_succ]
    by_cases hkey : i < 4
    · rw [if_neg (by omega), List.getElem?_append_left (by omega),
        List.getElem?_append_left (by omega)]
    · have hbehind : ∀ data : List UInt8,
          (key.bytes ++ (data ++ rest))[i]? = (data ++ rest)[i - 4]? := by
        intro data
        rw [List.getElem?_append_right (by omega), hfour]
      have hbyte : (b₀ :: b₁ :: (key.bytes ++ (key.apply payload ++ rest))).getD
          (2 + (i + 1 + 1 - 6) % 4) 0 = key.byte (i - 4) := by
        have hlt : (i - 4) % 4 < key.bytes.length := by omega
        rw [show i + 1 + 1 - 6 = i - 4 by omega, Nat.add_comm 2, List.getD_cons_succ,
          List.getD_cons_succ, List.getD_eq_getElem?_getD, List.getElem?_append_left hlt,
          ← List.getD_eq_getElem?_getD]
        rfl
      rw [hbyte, hbehind, hbehind]
      by_cases hin : i - 4 < payload.length
      · rw [if_pos (by omega), List.getElem?_append_left (by simpa using hin),
          List.getElem?_append_left hin, key.getElem?_apply, Option.map_map]
        cases payload[i - 4]? with
        | none => rfl
        | some b => exact congrArg some (xor_twice b _)
      · rw [if_neg (by omega), List.getElem?_append_right (by simpa using hin),
          List.getElem?_append_right (by omega), key.length_apply]

/-- A masked payload of less than 126 bytes is sent back unmasked behind its old header, all
other frames as they are. -/
theorem echo_encode (f : DataFrame) (rest : List UInt8)
    (hlen : (f.encode ++ rest).length ≤ BUFFER_LENGTH) :
    echo (f.encode ++ rest) =
      f.header ++ ((if f.form = .seven then f.payload else f.unmask f.payload) ++ rest) := by
  rw [DataFrame.encode, DataFrame.header, List.append_assoc, List.cons_append,
    List.cons_append] at hlen ⊢
  rw [echo_eq hlen]
  simp only [f.secondByte_mod, f.masked_iff]
  cases hkey : f.key with
  | none => simp [DataFrame.unmask, hkey]
  | some key =>
      cases hform : f.form with
      | seven =>
          have hfits := f.fits
          rw [hform] at hfits
          have hshort : f.payload.length < 126 := hfits
          have humask := umask_masked f.firstByte f.secondByte key f.payload rest
          simp [LengthForm.marker, LengthForm.width, bigEndian, hshort, DataFrame.unmask, hkey,
            humask]
      | sixteen => simp [LengthForm.marker]
      | sixtyFour => simp [LengthForm.marker]

/-- The frame has no mask, or a length in the longer forms, or a key whose bytes are zero where
the payload needs them. -/
def KeepsPayload (f : DataFrame) : Prop :=
  ∀ key ∈ f.key, f.form = .seven → ∀ i < f.payload.length, key.byte i = 0

theorem decode_echo (f : DataFrame) (rest : List UInt8)
    (hlen : (f.encode ++ rest).length ≤ BUFFER_LENGTH) :
    decode (echo (f.encode ++ rest)) = some (f.opcode.code, f.payload, rest) ↔ KeepsPayload f := by
  rw [echo_encode f rest hlen]
  unfold KeepsPayload
  by_cases hform : f.form = .seven
  · rw [if_pos hform, f.decode_header _ _ rfl]
    cases hkey : f.key with
    | none => simp [DataFrame.unmask, hkey]
    | some key => simp [DataFrame.unmask, hkey, hform, key.apply_eq_self_iff]
  · rw [if_neg hform, f.decode_header _ _ (f.length_unmask _), f.unmask_unmask]
    simp [hform]

/-! ## Every run -/

variable {openssl : OpenSSL}

/-- **Echo of frames.** What is sent for a chunk behind the first one that starts with a text or
binary frame decodes to this frame exactly if `transmission` does not change the payload. -/
theorem decode_echo_iff {s : Sys Machine}
    (h : Reachable (next (websocket openssl)) (Start (websocket openssl)) anyStep s)
    {c : ℕ} (hc : c < s.host.accepted) {i : ℕ} {f : DataFrame} {rest sent : List UInt8}
    (hreceived : (s.host.conns c).received[i + 1]? = some (f.encode ++ rest))
    (hsent : (s.host.conns c).offered[i + 1]? = some sent) :
    decode sent = some (f.opcode.code, f.payload, rest) ↔ KeepsPayload f := by
  have hanswers := (websocket_answers openssl).fitting
  rcases ((sessions_of_reachable hanswers h).session c hc).answers with
    ⟨answers, own, hreplies, hpre⟩
  rcases replies_fitting hreplies with ⟨hreplies', hlen⟩
  have hfits := (hlen _ (List.mem_of_getElem? hreceived)).2
  have hanswer : answers[i + 1]? = some sent := by
    rcases hpre with ⟨more, hmore⟩
    rw [← hmore, List.getElem?_append_left (List.getElem?_eq_some_iff.mp hsent).1]
    exact hsent
  rcases replies_cases hreplies' (fun chunk hchunk => (hlen chunk hchunk).2) with
    ⟨hnil, -⟩ | ⟨first, others, answer, hchunks, -, hechoes, -⟩
  · rw [hnil] at hreceived
    cases hreceived
  · rw [hchunks, List.getElem?_cons_succ] at hreceived
    rw [hechoes, List.getElem?_cons_succ, List.getElem?_map, hreceived, Option.map_some,
      Option.some.injEq] at hanswer
    rw [← hanswer]
    exact decode_echo f rest hfits

/-- After the upgrade the client sends one frame, and the whole echo is sent. -/
def frameAfterUpgrade (f : DataFrame) : List Action :=
  firstChunk keyLine 129 ++
    [.epollWait [(4, EPOLLIN)], .test (.recv (.data f.encode)), .test (.send 0),
      .epollWait [(4, EPOLLOUT)], .test (.send 0), .test (.send f.encode.length)]

def someKey : MaskKey := ⟨[1, 2, 3, 4], rfl⟩

/-- A masked text frame of one letter, its length in two bytes. -/
def sixteenFrame : DataFrame := ⟨true, .text, .sixteen, some someKey, [97], by decide⟩

theorem decode_echo_iff_sixteenFrame :
    ∃ s : Sys Machine, ∃ sent,
      runFrom (websocket onesOpenssl) 3 (frameAfterUpgrade sixteenFrame) = some s ∧
        (s.host.conns 0).offered[1]? = some sent ∧ decode sent = some (1, [97], []) := by
  have hrun : (runFrom (websocket onesOpenssl) 3 (frameAfterUpgrade sixteenFrame)).map
      (fun s => (s.host.accepted, (s.host.conns 0).received, (s.host.conns 0).offered[1]?)) =
        some (1, [keyLine, sixteenFrame.encode], some [129, 254, 0, 1, 1, 2, 3, 4, 96]) := by
    decide +kernel
  rcases Option.map_eq_some_iff.mp hrun with ⟨s, hs, hresult⟩
  have haccepted : s.host.accepted = 1 := congrArg Prod.fst hresult
  have hchunks : (s.host.conns 0).received = [keyLine, sixteenFrame.encode] :=
    congrArg (fun r => r.2.1) hresult
  have hreceived : (s.host.conns 0).received[0 + 1]? = some (sixteenFrame.encode ++ []) := by
    rw [hchunks]
    rfl
  have hsent := congrArg (fun r => r.2.2) hresult
  refine ⟨s, _, hs, hsent, ?_⟩
  apply (decode_echo_iff (reachable_of_runFrom hs) (by omega) hreceived hsent).mpr
  intro key _ hform
  cases hform

/-- The same frame with its length in the second byte comes back with another payload. -/
theorem short_masked_frame_changes :
    ∃ s : Sys Machine, ∃ f : DataFrame, ∃ sent,
      Reachable (next (websocket onesOpenssl)) (Start (websocket onesOpenssl)) anyStep s ∧
        0 < s.host.accepted ∧ (s.host.conns 0).received[1]? = some f.encode ∧
        (s.host.conns 0).offered[1]? = some sent ∧ f.payload = [97] ∧
        decode sent = some (f.opcode.code, [96], []) := by
  have hrun : (runFrom (websocket onesOpenssl) 3 (frameAfterUpgrade
      ⟨true, .text, .seven, some someKey, [97], by decide⟩)).map
      (fun s => (s.host.accepted, (s.host.conns 0).received[1]?,
        (s.host.conns 0).offered[1]?)) =
        some (1, some [129, 129, 1, 2, 3, 4, 96], some [129, 129, 1, 2, 3, 4, 97]) := by
    decide +kernel
  rcases Option.map_eq_some_iff.mp hrun with ⟨s, hs, hresult⟩
  have haccepted : s.host.accepted = 1 := congrArg Prod.fst hresult
  exact ⟨s, ⟨true, .text, .seven, some someKey, [97], by decide⟩, _, reachable_of_runFrom hs,
    by omega, congrArg (fun r => r.2.1) hresult, congrArg (fun r => r.2.2) hresult, rfl, rfl⟩

end ServerKit.Websocket
