import ServerKit.Ringbuf.Model
import ServerKit.Lib.System

/-! # One producer and one consumer on a ring of `ringbuf.h`

`rb_write` and `rb_read` are cut at every load of `r->write_pos` or `r->read_pos`,
at every copied byte and at the final store. The macro `min` evaluates the
argument it selects a second time. -/

namespace ServerKit.Ringbuf

/-- Where the producer stands in `rb_write(r, buf, sz)`. -/
inductive Producer where
  | idle
  /-- `rb_remain` loads `write_pos`. -/
  | remainWrite (buf : List UInt8) (sz : UInt32)
  /-- `rb_remain` loads `read_pos`. -/
  | remainRead (buf : List UInt8) (sz w : UInt32)
  /-- `min` loads `write_pos` for the comparison. -/
  | compare (buf : List UInt8) (sz : UInt32)
  /-- `min` loads `write_pos` for its value. -/
  | select (buf : List UInt8) (sz : UInt32)
  /-- The first `memcpy` loads `write_pos` for its destination. -/
  | dest (buf : List UInt8) (sz i : UInt32)
  /-- The first `memcpy` has copied `j` of `i` bytes to slot `dst` on. -/
  | copyFront (buf : List UInt8) (sz i : UInt32) (dst j : ℕ)
  /-- The second `memcpy` has copied `j` of `sz - i` bytes to slot `0` on. -/
  | copyRest (buf : List UInt8) (sz i : UInt32) (j : ℕ)
  /-- `r->write_pos += sz` loads `write_pos`. -/
  | loadPos (buf : List UInt8) (sz : UInt32)
  /-- `r->write_pos += sz` stores `write_pos`. -/
  | storePos (buf : List UInt8) (sz w : UInt32)

/-- Where the consumer stands in `rb_read(r, buf, sz)`; `n` is `sz` after `min`. -/
inductive Consumer where
  | idle
  /-- `rb_isempty` loads `read_pos`. -/
  | emptyRead (sz : UInt32)
  /-- `rb_isempty` loads `write_pos`. -/
  | emptyWrite (sz r : UInt32)
  /-- `min` loads `write_pos` for the comparison. -/
  | lenWrite (sz : UInt32)
  /-- `min` loads `read_pos` for the comparison. -/
  | lenRead (sz w : UInt32)
  /-- `min` loads `write_pos` for its value. -/
  | takeWrite (sz : UInt32)
  /-- `min` loads `read_pos` for its value. -/
  | takeRead (sz w : UInt32)
  /-- The second `min` loads `read_pos` for the comparison. -/
  | compare (n : UInt32)
  /-- The second `min` loads `read_pos` for its value. -/
  | select (n : UInt32)
  /-- The first `memcpy` loads `read_pos` for its source. -/
  | source (n i : UInt32)
  /-- The first `memcpy` has copied `j` of `i` bytes from slot `src` on. -/
  | copyFront (n i : UInt32) (src j : ℕ)
  /-- The second `memcpy` has copied `j` of `n - i` bytes from slot `0` on. -/
  | copyRest (n i : UInt32) (j : ℕ)
  /-- `r->read_pos += sz` loads `read_pos`. -/
  | loadPos (n : UInt32)
  /-- `r->read_pos += sz` stores `read_pos`. -/
  | storePos (n r : UInt32)

/-- The shared ring, both threads, the bytes whose write has been published and
the bytes copied to the consumer so far. -/
structure Threads where
  ring : Ringbuffer
  prod : Producer
  cons : Consumer
  published : List UInt8
  delivered : List UInt8

inductive Action where
  | callWrite (buf : List UInt8) (sz : UInt32) (enough : sz.toNat ≤ buf.length)
  | producer
  | callRead (sz : UInt32)
  | consumer

/-- One step of the producer inside `rb_write`. -/
def Threads.stepProducer (s : Threads) : Option Threads :=
  match s.prod with
  | .idle => none
  | .remainWrite buf sz => some { s with prod := .remainRead buf sz s.ring.writePos }
  | .remainRead buf sz w =>
    if sz > s.ring.size - w + s.ring.readPos then some { s with prod := .idle }
    else some { s with prod := .compare buf sz }
  | .compare buf sz =>
    if sz < s.ring.size - s.ring.slot s.ring.writePos then
      some { s with prod := .dest buf sz sz }
    else some { s with prod := .select buf sz }
  | .select buf sz =>
    some { s with prod := .dest buf sz (s.ring.size - s.ring.slot s.ring.writePos) }
  | .dest buf sz i =>
    some { s with prod := .copyFront buf sz i (s.ring.slot s.ring.writePos).toNat 0 }
  | .copyFront buf sz i dst j =>
    if j < i.toNat then do
      let byte ← buf[j]?
      let mem ← Memory.store s.ring.buf (dst + j) [byte]
      return { s with ring.buf := mem, prod := .copyFront buf sz i dst (j + 1) }
    else some { s with prod := .copyRest buf sz i 0 }
  | .copyRest buf sz i j =>
    if j < (sz - i).toNat then do
      let byte ← buf[i.toNat + j]?
      let mem ← Memory.store s.ring.buf j [byte]
      return { s with ring.buf := mem, prod := .copyRest buf sz i (j + 1) }
    else some { s with prod := .loadPos buf sz }
  | .loadPos buf sz => some { s with prod := .storePos buf sz s.ring.writePos }
  | .storePos buf sz w =>
    some { s with
      ring.writePos := w + sz
      prod := .idle
      published := s.published ++ buf.take sz.toNat }

/-- One step of the consumer inside `rb_read`. -/
def Threads.stepConsumer (s : Threads) : Option Threads :=
  match s.cons with
  | .idle => none
  | .emptyRead sz => some { s with cons := .emptyWrite sz s.ring.readPos }
  | .emptyWrite sz r =>
    if r == s.ring.writePos then some { s with cons := .idle }
    else some { s with cons := .lenWrite sz }
  | .lenWrite sz => some { s with cons := .lenRead sz s.ring.writePos }
  | .lenRead sz w =>
    if sz < w - s.ring.readPos then some { s with cons := .compare sz }
    else some { s with cons := .takeWrite sz }
  | .takeWrite sz => some { s with cons := .takeRead sz s.ring.writePos }
  | .takeRead _ w => some { s with cons := .compare (w - s.ring.readPos) }
  | .compare n =>
    if n < s.ring.size - s.ring.slot s.ring.readPos then some { s with cons := .source n n }
    else some { s with cons := .select n }
  | .select n =>
    some { s with cons := .source n (s.ring.size - s.ring.slot s.ring.readPos) }
  | .source n i =>
    some { s with cons := .copyFront n i (s.ring.slot s.ring.readPos).toNat 0 }
  | .copyFront n i src j =>
    if j < i.toNat then do
      let byte ← s.ring.buf[src + j]?
      return { s with cons := .copyFront n i src (j + 1), delivered := s.delivered ++ [byte] }
    else some { s with cons := .copyRest n i 0 }
  | .copyRest n i j =>
    if j < (n - i).toNat then do
      let byte ← s.ring.buf[j]?
      return { s with cons := .copyRest n i (j + 1), delivered := s.delivered ++ [byte] }
    else some { s with cons := .loadPos n }
  | .loadPos n => some { s with cons := .storePos n s.ring.readPos }
  | .storePos n r => some { s with ring.readPos := r + n, cons := .idle }

/-- A thread enters a call only outside of one. -/
def Threads.next (s : Threads) : Action → Option Threads
  | .callWrite buf sz _ =>
    match s.prod with
    | .idle => some { s with prod := .remainWrite buf sz }
    | _ => none
  | .producer => s.stepProducer
  | .callRead sz =>
    match s.cons with
    | .idle => some { s with cons := .emptyRead sz }
    | _ => none
  | .consumer => s.stepConsumer

/-- Both threads outside of a call on an empty ring of size `2 ^ k`. -/
structure Threads.Start (k : ℕ) (s : Threads) : Prop where
  size : s.ring.size.toNat = 2 ^ k
  length_buf : s.ring.buf.length = 2 ^ k
  empty : s.ring.writePos = s.ring.readPos
  prod : s.prod = .idle
  cons : s.cons = .idle
  published : s.published = []
  delivered : s.delivered = []

end ServerKit.Ringbuf
