import Mathlib.Data.Nat.ModEq
import ServerKit.Lib.CString
import ServerKit.Reactor.Run

/-! # The requests of `websocket_server.c`

The server answers the first chunk of a connection as an HTTP upgrade and takes every
other chunk for a frame. An access outside of an array has no result. -/

namespace ServerKit.Websocket

open ServerKit.Memory ServerKit.CString ServerKit.Reactor

/-- The values of `status_machine`. -/
inductive Machine where
  | handshark
  | tranmission
  | ended
  deriving DecidableEq, Repr

/-- `struct ntyevent` with its field `status_machine`. -/
abbrev Event := Ntyevent Machine

/-- The functions of OpenSSL: the digest of `SHA1`, which has 20 bytes, and the contents of
the memory BIO after a write through the base64 filter and a flush. -/
structure OpenSSL where
  sha1 : List UInt8 → List UInt8
  bio : List UInt8 → List UInt8
  sha1_length : ∀ xs, (sha1 xs).length = 20

def GUID : List UInt8 := ofString "258EAFA5-E914-47DA-95CA-C5AB0DC85B11"

def WEBSOCK_KEY_LENGTH : ℕ := 19

/-- The text that `handshark` looks for. -/
def keyText : List UInt8 := ofString "Sec-WebSocket-Key"

/-- `base64_encode`: the contents of `out_str` afterwards and the returned size. -/
def base64Encode (openssl : OpenSSL) (inStr : List UInt8) (inLen : ℕ) (outStr : List UInt8) :
    Option (List UInt8 × ℕ) := do
  let data := openssl.bio (inStr.take inLen)
  let out ← memcpy outStr 0 data 0 data.length
  -- For an empty result the index of the final zero is `-1`.
  if data.length = 0 then none
  else
    let out ← store out (data.length - 1) [0]
    return (out, data.length)

/-- The loop of `readline`, `n` bytes before the end of the string; the bytes stored so far
and the result. -/
def readlineLoop (allbuf : List UInt8) (idx : ℕ) (linebuf : List UInt8) : ℕ → ℤ × List UInt8
  | 0 => (-1, linebuf)
  | n + 1 =>
    if allbuf[idx]? = some 13 ∧ allbuf[idx + 1]? = some 10 then (idx + 2, linebuf)
    else readlineLoop allbuf (idx + 1) (linebuf ++ (allbuf[idx]?).toList) n

/-- `readline`: the returned index and the bytes stored from `linebuf` on. The string ends
within `allbuf`, or in the zero byte that follows it in `struct ntyevent`. -/
def readline (allbuf : List UInt8) (idx : ℕ) : ℤ × List UInt8 :=
  readlineLoop allbuf idx [] ((text allbuf).length - idx)

/-- The start of the response, up to the value of `Sec-WebSocket-Accept`. -/
def responseHead : List UInt8 :=
  ofString "HTTP/1.1 101 Switching Protocols\r\nUpgrade: websocket\r\nConnection: Upgrade\r\n" ++
    ofString "Sec-WebSocket-Accept: "

/-- What `sprintf` prints for the value of `Sec-WebSocket-Accept`. -/
def response (accept : List UInt8) : List UInt8 := responseHead ++ accept ++ [13, 10, 13, 10]

/-- The branch of `handshark` for the line with the key. -/
def respond (openssl : OpenSSL) (linebuf : List UInt8) (ev : Event) : Option Event := do
  let linebuf ← strcat linebuf GUID
  let key := linebuf.drop WEBSOCK_KEY_LENGTH
  let secData ← store (zeros 128) 0 (openssl.sha1 (key.take (← strlen key)))
  let (secAccept, _) ← base64Encode openssl secData (← strlen secData) (zeros 32)
  let printed := response (← cstr secAccept)
  let buffer ← store (zeros BUFFER_LENGTH) 0 (printed ++ [0])
  return { ev with buffer := buffer, length := printed.length }

/-- The byte at `ev->buffer + i`. In front of the buffer lies the last byte of `status`,
behind it the first one of `length`. -/
def byteAt (ev : Event) (i : ℤ) : UInt8 :=
  if i < 0 then .ofNat (ev.status / 2 ^ 24) else ev.buffer.getD i.toNat (.ofNat ev.length)

theorem byteAt_natCast (ev : Event) (i : ℕ) :
    byteAt ev i = ev.buffer.getD i (.ofNat ev.length) := by
  unfold byteAt
  rw [if_neg (by omega), Int.toNat_natCast]

/-- A line that has been found ends behind its start. -/
theorem readlineLoop_lt (allbuf : List UInt8) (idx : ℕ) (linebuf : List UInt8) (n : ℕ)
    (h : (readlineLoop allbuf idx linebuf n).1 ≠ -1) :
    idx < (readlineLoop allbuf idx linebuf n).1.toNat ∧
      (readlineLoop allbuf idx linebuf n).1.toNat ≤ allbuf.length := by
  induction n generalizing idx linebuf with
  | zero => exact absurd rfl h
  | succ n ih =>
      rw [readlineLoop] at h ⊢
      split at h
      · rename_i hcrlf
        rw [if_pos hcrlf]
        have hlast : idx + 1 < allbuf.length := (List.getElem?_eq_some_iff.mp hcrlf.2).1
        constructor
        · show idx < ((idx : ℤ) + 2).toNat
          omega
        · show ((idx : ℤ) + 2).toNat ≤ allbuf.length
          omega
      · rename_i hcrlf
        rw [if_neg hcrlf]
        have hlt := ih (idx + 1) _ h
        exact ⟨Nat.lt_of_succ_lt hlt.1, hlt.2⟩

/-- The loop of `handshark` from the index of a line on. -/
def handsharkLoop (openssl : OpenSSL) (ev : Event) (idx : ℕ) : Option Event :=
  let next := (readline ev.buffer idx).1
  (store (zeros 1024) 0 (readline ev.buffer idx).2).bind fun linebuf =>
    (strstr linebuf keyText).bind fun found =>
      if found then respond openssl linebuf ev
      else if _h : (byteAt ev next ≠ 13 ∨ byteAt ev (next + 1) ≠ 10) ∧ next ≠ -1 then
        handsharkLoop openssl ev next.toNat
      else some ev
termination_by ev.buffer.length - idx
decreasing_by
  have hlt := readlineLoop_lt ev.buffer idx [] _ _h.2
  exact Nat.sub_lt_sub_left (Nat.lt_of_lt_of_le hlt.1 hlt.2) hlt.1

def handshark (openssl : OpenSSL) (ev : Event) : Option Event := handsharkLoop openssl ev 0

/-- `umask` on the payload and the key at these places of the buffer. -/
def umask (buffer : List UInt8) (payload length maskKey : ℕ) : List UInt8 :=
  (List.range length).foldl (fun buffer i =>
    buffer.modify (payload + i) (· ^^^ buffer.getD (maskKey + i % 4) 0)) buffer

/-- `transmission`: the seven bits `pl_len` and the bit `mask` of the second byte. -/
def transmission (ev : Event) : Event :=
  let plLen := (byteAt ev 1).toNat % 128
  let mask := (byteAt ev 1).toNat / 128
  if plLen < 126 then
    if mask ≠ 0 then { ev with buffer := umask ev.buffer 6 plLen 2 } else ev
  else ev

def websocketRequest (openssl : OpenSSL) (ev : Event) : Option Event :=
  match ev.own with
  | .handshark => handshark openssl { ev with own := .tranmission }
  | .tranmission => some (transmission ev)
  | .ended => some ev

end ServerKit.Websocket
