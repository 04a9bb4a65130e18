import ServerKit.Websocket.Frames

/-! # Where `transmission` finds the payload

The payload of a frame starts behind two bytes, the longer length and the masking key.
`transmission` takes it to be behind six bytes. -/

namespace ServerKit.Websocket

open ServerKit.Reactor ServerKit.Frame

/-- A frame with any first byte: with reserved bits or of any opcode, too. -/
structure ClientFrame where
  first : UInt8
  data : DataFrame

/-- The frame as it is received. -/
def ClientFrame.bytes (f : ClientFrame) : List UInt8 := f.first :: f.data.encode.tail

/-- The place of the payload behind the header. -/
def ClientFrame.payloadAt (f : ClientFrame) : ℕ := f.data.header.length

/-- The place from which `transmission` prints the payload; it does so for short payloads only. -/
def payloadStart (ev : Event) : Option ℕ :=
  if (byteAt ev 1).toNat % 128 < 126 then some 6 else none

/-- `transmission` leaves the payload where the header says, reads it from there on, and changes
nothing else. -/
structure Decodes (f : ClientFrame) (ev : Event) : Prop where
  payload : ((transmission ev).buffer.drop f.payloadAt).take f.data.payload.length =
    f.data.payload
  start : payloadStart ev = some f.payloadAt
  outside : ∀ i, i < f.payloadAt ∨ f.payloadAt + f.data.payload.length ≤ i →
    (transmission ev).buffer[i]? = ev.buffer[i]?

section Decoding

variable {f : ClientFrame} {ev : Event}

theorem ClientFrame.bytes_eq (f : ClientFrame) (rest : List UInt8) :
    f.bytes ++ rest = f.first :: f.data.secondByte ::
      (bigEndian f.data.form.width f.data.payload.length ++
        ((f.data.key.map MaskKey.bytes).getD [] ++ (f.data.unmask f.data.payload ++ rest))) := by
  simp [ClientFrame.bytes, DataFrame.encode, DataFrame.header]

/-- A chunk is at the start of the buffer it is stored in. -/
theorem storeChunk_start (ev : Event) (hbuffer : ev.buffer.length = BUFFER_LENGTH)
    {chunk : List UInt8}
    (hlen : chunk.length ≤ BUFFER_LENGTH) :
    ∃ tail, (storeChunk ev chunk).buffer = chunk ++ tail := by
  rcases Nat.lt_or_eq_of_le hlen with hlt | hfull
  · exact ⟨_, storeChunk_buffer hbuffer hlt⟩
  · exact ⟨[], by rw [storeChunk_buffer_full hbuffer hfull, List.append_nil]⟩

theorem second_of_start {tail : List UInt8} (hstart : ev.buffer = f.bytes ++ tail) :
    byteAt ev 1 = f.data.secondByte := by
  have hone := byteAt_natCast ev 1
  rw [hstart, f.bytes_eq] at hone
  exact hone

/-- `transmission` reads the payloads whose length is in the second byte. -/
theorem payloadStart_eq {tail : List UInt8} (hstart : ev.buffer = f.bytes ++ tail) :
    payloadStart ev = if f.data.form = .seven then some 6 else none := by
  have hfits := f.data.fits
  rw [payloadStart, second_of_start hstart, f.data.secondByte_mod]
  cases hform : f.data.form with
  | seven =>
      rw [hform] at hfits
      have hshort : f.data.payload.length < 126 := hfits
      rw [LengthForm.marker, if_pos hshort, if_pos rfl]
  | sixteen => rfl
  | sixtyFour => rfl

/-- Six bytes in front of the payload are two and a key. -/
theorem payloadAt_eq_six (hform : f.data.form = .seven) :
    f.payloadAt = 6 ↔ f.data.key.isSome := by
  cases hkey : f.data.key with
  | none => simp [ClientFrame.payloadAt, DataFrame.header, hform, hkey, LengthForm.width]
  | some key =>
      simp [ClientFrame.payloadAt, DataFrame.header, hform, hkey, LengthForm.width, key.length_eq]

/-- A short masked payload is unmasked in its place. -/
theorem transmission_masked {tail : List UInt8} (hstart : ev.buffer = f.bytes ++ tail)
    (hform : f.data.form = .seven) {key : MaskKey} (hkey : f.data.key = some key) :
    ∃ header : List UInt8, header.length = 6 ∧
      ev.buffer = header ++ (key.apply f.data.payload ++ tail) ∧
      (transmission ev).buffer = header ++ (f.data.payload ++ tail) := by
  have hfits := f.data.fits
  rw [hform] at hfits
  have hshort : f.data.payload.length < 126 := hfits
  have hmasked : f.data.secondByte.toNat / 128 ≠ 0 := by
    have hle := f.data.masked_iff.mpr (by rw [hkey]; rfl)
    omega
  have hbuffer : ev.buffer = f.first :: f.data.secondByte ::
      (key.bytes ++ (key.apply f.data.payload ++ tail)) := by
    rw [hstart, f.bytes_eq, hform, hkey, DataFrame.unmask, hkey]
    rfl
  refine ⟨f.first :: f.data.secondByte :: key.bytes, ?_, hbuffer, ?_⟩
  · rw [List.length_cons, List.length_cons, key.length_eq]
  · unfold transmission
    simp only [second_of_start hstart, f.data.secondByte_mod, hform, LengthForm.marker]
    rw [if_pos hshort, if_pos hmasked, hbuffer]
    exact umask_masked _ _ key _ tail

theorem decodes_of_masked {tail : List UInt8} (hstart : ev.buffer = f.bytes ++ tail)
    (hform : f.data.form = .seven) (hkey : f.data.key.isSome) : Decodes f ev := by
  have hsix := (payloadAt_eq_six hform).mpr hkey
  rcases Option.isSome_iff_exists.mp hkey with ⟨key, hkey⟩
  rcases transmission_masked hstart hform hkey with ⟨header, hlen, hbefore, hafter⟩
  refine ⟨?_, by rw [payloadStart_eq hstart, if_pos hform, hsix], ?_⟩
  · rw [hafter, hsix, ← hlen, List.drop_left, List.take_left]
  · intro i hi
    rw [hsix, ← hlen] at hi
    rw [hafter, hbefore]
    rcases hi with hin | hbehind
    · rw [List.getElem?_append_left hin, List.getElem?_append_left hin]
    · rw [List.getElem?_append_right (by omega), List.getElem?_append_right (by omega),
        List.getElem?_append_right (by omega),
        List.getElem?_append_right (by rw [key.length_apply]; omega), key.length_apply]

end Decoding

/-- **Decoding.** `transmission` decodes a frame exactly if its length is in the second byte and
the frame has a mask. -/
theorem decodes_iff {ev : Event} (hbuffer : ev.buffer.length = BUFFER_LENGTH) (f : ClientFrame)
    (rest : List UInt8) (hlen : (f.bytes ++ rest).length ≤ BUFFER_LENGTH) :
    Decodes f (storeChunk ev (f.bytes ++ rest)) ↔
      f.data.form = .seven ∧ f.data.key.isSome := by
  rcases storeChunk_start ev hbuffer hlen with ⟨tail, htail⟩
  rw [List.append_assoc] at htail
  constructor
  · intro h
    have hstart := h.start
    rw [payloadStart_eq htail] at hstart
    split at hstart
    · rename_i hform
      refine ⟨hform, (payloadAt_eq_six hform).mp ?_⟩
      exact (Option.some.inj hstart).symm
    · cases hstart
  · rintro ⟨hform, hkey⟩
    exact decodes_of_masked htail hform hkey

/-- A masked letter with its length in the second byte. -/
theorem decodes_iff_letter :
    Decodes ⟨0x81, true, .text, .seven, some someKey, [97], by decide⟩
      (storeChunk (.zero .tranmission) [0x81, 0x81, 1, 2, 3, 4, 96]) :=
  (decodes_iff List.length_replicate
    ⟨0x81, true, .text, .seven, some someKey, [97], by decide⟩ [] (by decide)).mpr ⟨rfl, rfl⟩

/-- A letter without a mask. -/
def plainLetter : ClientFrame := ⟨0x81, true, .text, .seven, none, [97], by decide⟩

/-- The letter is the third byte, and reading starts at the seventh. -/
theorem not_decodes_plainLetter :
    ¬ ∀ (ev : Event) (f : ClientFrame), ev.buffer.length = BUFFER_LENGTH →
      f.bytes.length ≤ BUFFER_LENGTH → Decodes f (storeChunk ev f.bytes) := by
  intro h
  have hstart := (h (.zero .tranmission) plainLetter List.length_replicate (by decide)).start
  rcases storeChunk_start (.zero .tranmission) List.length_replicate
    (show plainLetter.bytes.length ≤ BUFFER_LENGTH by decide) with ⟨tail, htail⟩
  rw [payloadStart_eq htail] at hstart
  exact absurd hstart (by decide)

end ServerKit.Websocket
