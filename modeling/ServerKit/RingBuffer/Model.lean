import ServerKit.Lib.Memory
import ServerKit.Lib.Word

/-! # The ring of `ring_buffer.c`

The check that the size is a power of two is compiled out, so a slot is an index
modulo an arbitrary size. The mutex makes every call one step. -/

namespace ServerKit

/-- `struct ring_buffer`, without its lock. -/
structure RingBuffer where
  buffer : List UInt8
  size : UInt32
  inPos : UInt32
  outPos : UInt32
  deriving DecidableEq, Repr

namespace RingBuffer

open ServerKit.Memory

/-- The ring over a given storage area. -/
def ringBufferInit (buffer : List UInt8) (size : UInt32) : RingBuffer := ⟨buffer, size, 0, 0⟩

/-! The functions without a lock, `__ring_buffer_*`. -/

def _ringBufferLen (r : RingBuffer) : UInt32 := r.inPos - r.outPos

/-- Returns the number of bytes taken and the bytes copied to the caller. -/
def _ringBufferGet (r : RingBuffer) (size : UInt32) :
    Option (RingBuffer × UInt32 × List UInt8) := do
  let size := Word.min size (r.inPos - r.outPos)
  let ringbufOutRemainder := r.outPos % r.size
  let len := Word.min size (r.size - ringbufOutRemainder)
  let front ← load r.buffer ringbufOutRemainder.toNat len.toNat
  let rest ← load r.buffer 0 (size - len).toNat
  return ({ r with outPos := r.outPos + size }, size, front ++ rest)

/-- Stores as many of the first `size` bytes of `buffer` as there is room for. -/
def _ringBufferPut (r : RingBuffer) (buffer : List UInt8) (size : UInt32) :
    Option (RingBuffer × UInt32) := do
  let size := Word.min size (r.size - r.inPos + r.outPos)
  let ringbufInRemainder := r.inPos % r.size
  let len := Word.min size (r.size - ringbufInRemainder)
  let mem ← memcpy r.buffer ringbufInRemainder.toNat buffer 0 len.toNat
  let mem ← memcpy mem 0 buffer len.toNat (size - len).toNat
  return ({ r with buffer := mem, inPos := r.inPos + size }, size)

def _ringBufferReset (r : RingBuffer) : RingBuffer := { r with inPos := 0, outPos := 0 }

/-! The functions that hold the lock. -/

def ringBufferReset (r : RingBuffer) : RingBuffer := _ringBufferReset r

def ringBufferPut (r : RingBuffer) (buffer : List UInt8) (size : UInt32) :
    Option (RingBuffer × UInt32) :=
  _ringBufferPut r buffer size

/-- Both indices return to zero whenever the ring has become empty. -/
def ringBufferGet (r : RingBuffer) (size : UInt32) :
    Option (RingBuffer × UInt32 × List UInt8) := do
  let (r, ret, bytes) ← _ringBufferGet r size
  return (if r.inPos == r.outPos then { r with inPos := 0, outPos := 0 } else r, ret, bytes)

def ringBufferLen (r : RingBuffer) : UInt32 := _ringBufferLen r

/-- A call on the ring. The caller of `ring_buffer_put` hands over at least `size` bytes. -/
inductive Op where
  | put (buffer : List UInt8) (size : UInt32) (enough : size.toNat ≤ buffer.length)
  | get (size : UInt32)
  | reset

/-- What a caller sees of one call: the returned count, the bytes delivered, and
the length right after it. -/
structure Reply where
  ret : ℕ
  bytes : List UInt8
  len : ℕ
  deriving DecidableEq, Repr

def reply (r : RingBuffer) (ret : UInt32) (bytes : List UInt8) : Reply :=
  ⟨ret.toNat, bytes, (ringBufferLen r).toNat⟩

def step (r : RingBuffer) : Op → Option (RingBuffer × Reply)
  | .put buffer size _ => (ringBufferPut r buffer size).map fun out => (out.1, out.1.reply out.2 [])
  | .get size => (ringBufferGet r size).map fun out => (out.1, out.1.reply out.2.1 out.2.2)
  | .reset => some (ringBufferReset r, (ringBufferReset r).reply 0 [])

end RingBuffer

end ServerKit
