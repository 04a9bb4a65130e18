import ServerKit.Lib.Memory
import ServerKit.Lib.Word

/-! # The ring of `ringbuf.h`

The indices run freely through the 32-bit range and are masked only to address
a slot. An access outside the array has no result. -/

namespace ServerKit.Ringbuf

open ServerKit.Memory

/-- `ringbuffer_t`. -/
structure Ringbuffer where
  buf : List UInt8
  size : UInt32
  writePos : UInt32
  readPos : UInt32
  deriving DecidableEq, Repr

def isPowerOfTwo (num : UInt32) : Bool := if num < 2 then false else num &&& (num - 1) == 0

/-- The loop of `roundup_power_of_two`. -/
def shifts (num : UInt32) (i : ℕ) : ℕ := if num = 0 then i else shifts (num >>> 1) (i + 1)
termination_by num.toNat
decreasing_by
  rename_i hnum
  have hpos := Nat.pos_of_ne_zero fun h => hnum (UInt32.toNat_inj.mp h)
  rw [UInt32.toNat_shiftRight]
  exact Nat.div_lt_self hpos (by decide)

/-- Shifting by the width of the type has no result. -/
def roundupPowerOfTwo (num : UInt32) : Option UInt32 :=
  if num = 0 then some 2
  else
    let i := shifts num 0
    if i < 32 then some (1 <<< UInt32.ofNat i) else none

/-- A ring in the memory that `malloc` returns for a size. -/
def rbInit (malloc : UInt32 → List UInt8) (sz : UInt32) : Option Ringbuffer := do
  let sz ← if isPowerOfTwo sz then some sz else roundupPowerOfTwo sz
  return ⟨malloc sz, sz, 0, 0⟩

/-- The physical slot of an index, `pos & (r->size - 1)`. -/
def Ringbuffer.slot (r : Ringbuffer) (pos : UInt32) : UInt32 := pos &&& (r.size - 1)

def rbIsempty (r : Ringbuffer) : Bool := r.readPos == r.writePos

def rbIsfull (r : Ringbuffer) : Bool := r.size == r.writePos - r.readPos

def rbClear (r : Ringbuffer) : Ringbuffer := { r with readPos := 0, writePos := 0 }

def rbLen (r : Ringbuffer) : UInt32 := r.writePos - r.readPos

def rbRemain (r : Ringbuffer) : UInt32 := r.size - r.writePos + r.readPos

/-- Stores the first `sz` bytes of `buf`, in two pieces when they straddle the end
of the array, and returns the number of bytes stored. -/
def rbWrite (r : Ringbuffer) (buf : List UInt8) (sz : UInt32) : Option (Ringbuffer × UInt32) :=
  if sz > rbRemain r then some (r, 0)
  else do
    let i := Word.min sz (r.size - r.slot r.writePos)
    let mem ← memcpy r.buf (r.slot r.writePos).toNat buf 0 i.toNat
    let mem ← memcpy mem 0 buf i.toNat (sz - i).toNat
    return ({ r with buf := mem, writePos := r.writePos + sz }, sz)

/-- Returns the number of bytes read and the bytes copied to the caller. -/
def rbRead (r : Ringbuffer) (sz : UInt32) : Option (Ringbuffer × UInt32 × List UInt8) :=
  if rbIsempty r then some (r, 0, [])
  else do
    let sz := Word.min sz (r.writePos - r.readPos)
    let i := Word.min sz (r.size - r.slot r.readPos)
    let front ← load r.buf (r.slot r.readPos).toNat i.toNat
    let rest ← load r.buf 0 (sz - i).toNat
    return ({ r with readPos := r.readPos + sz }, sz, front ++ rest)

/-- A call on the ring. The caller of `rb_write` hands over at least `sz` bytes. -/
inductive Op where
  | write (buf : List UInt8) (sz : UInt32) (enough : sz.toNat ≤ buf.length)
  | read (sz : UInt32)
  | clear

/-- What a caller sees of one call: the returned count, the bytes delivered, and
the four queries made right after it. -/
structure Reply where
  ret : ℕ
  bytes : List UInt8
  len : ℕ
  remain : ℕ
  isempty : Bool
  isfull : Bool
  deriving DecidableEq, Repr

def Ringbuffer.reply (r : Ringbuffer) (ret : UInt32) (bytes : List UInt8) : Reply :=
  ⟨ret.toNat, bytes, (rbLen r).toNat, (rbRemain r).toNat, rbIsempty r, rbIsfull r⟩

def step (r : Ringbuffer) : Op → Option (Ringbuffer × Reply)
  | .write buf sz _ => (rbWrite r buf sz).map fun out => (out.1, out.1.reply out.2 [])
  | .read sz => (rbRead r sz).map fun out => (out.1, out.1.reply out.2.1 out.2.2)
  | .clear => some (rbClear r, (rbClear r).reply 0 [])

end ServerKit.Ringbuf
