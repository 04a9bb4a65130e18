import ServerKit.RingBuffer.Model
import ServerKit.Lib.Transducer

/-! # Bounds of the ring of `ring_buffer.c`

Whatever the size, the distance of the two indices never exceeds it, and every copy stays
inside the storage area and inside the caller's buffer, which here has exactly the
requested number of bytes. -/

namespace ServerKit.RingBuffer

open ServerKit.Memory ServerKit.Transducer

/-- `__ring_buffer_get` with the caller's buffer, which it fills from the front. -/
def _ringBufferGetInto (r : RingBuffer) (buffer : List UInt8) (size : UInt32) :
    Option (RingBuffer × UInt32 × List UInt8) := do
  let size := Word.min size (r.inPos - r.outPos)
  let ringbufOutRemainder := r.outPos % r.size
  let len := Word.min size (r.size - ringbufOutRemainder)
  let buffer ← memcpy buffer 0 r.buffer ringbufOutRemainder.toNat len.toNat
  let buffer ← memcpy buffer len.toNat r.buffer 0 (size - len).toNat
  return ({ r with outPos := r.outPos + size }, size, buffer)

/-- `ring_buffer_get` with the caller's buffer. -/
def ringBufferGetInto (r : RingBuffer) (buffer : List UInt8) (size : UInt32) :
    Option (RingBuffer × UInt32 × List UInt8) := do
  let (r, ret, buffer) ← _ringBufferGetInto r buffer size
  return (if r.inPos == r.outPos then { r with inPos := 0, outPos := 0 } else r, ret, buffer)

/-- A call, with or without the lock; the caller's buffer has the requested size. -/
inductive Call where
  | put (buffer : List UInt8) (size : UInt32) (fits : buffer.length = size.toNat)
  | get (buffer : List UInt8) (size : UInt32) (fits : buffer.length = size.toNat)
  | reset
  | _put (buffer : List UInt8) (size : UInt32) (fits : buffer.length = size.toNat)
  | _get (buffer : List UInt8) (size : UInt32) (fits : buffer.length = size.toNat)
  | _reset

/-- The number of bytes that the caller asks for. -/
def Call.requested : Call → UInt32
  | .put _ size _ | .get _ size _ | ._put _ size _ | ._get _ size _ => size
  | .reset | ._reset => 0

/-- The state after a call and the returned count; none, if a copy leaves an area. -/
def call (r : RingBuffer) : Call → Option (RingBuffer × UInt32)
  | .put buffer size _ => ringBufferPut r buffer size
  | .get buffer size _ => (ringBufferGetInto r buffer size).map fun out => (out.1, out.2.1)
  | .reset => some (ringBufferReset r, 0)
  | ._put buffer size _ => _ringBufferPut r buffer size
  | ._get buffer size _ => (_ringBufferGetInto r buffer size).map fun out => (out.1, out.2.1)
  | ._reset => some (_ringBufferReset r, 0)

/-- A storage area of the ring's size, of which no more than all is in use. -/
structure Bounded (r : RingBuffer) : Prop where
  pos : 0 < r.size.toNat
  length_buffer : r.buffer.length = r.size.toNat
  used : (r.inPos - r.outPos).toNat ≤ r.size.toNat

section Calls

variable {r : RingBuffer}

/-- The first piece of a copy ends before the end of the storage area. -/
theorem Bounded.piece (h : Bounded r) (pos n : UInt32) :
    (pos % r.size).toNat + (Word.min n (r.size - pos % r.size)).toNat ≤ r.size.toNat := by
  have hlt : (pos % r.size).toNat < r.size.toNat := by
    rw [UInt32.toNat_mod]
    exact Nat.mod_lt _ h.pos
  have hsub : (r.size - pos % r.size).toNat = r.size.toNat - (pos % r.size).toNat := by
    apply UInt32.toNat_sub_of_le
    rw [UInt32.le_iff_toNat_le]
    omega
  rw [Word.toNat_min, hsub]
  omega

/-- The space behind the bytes in use. -/
theorem Bounded.room (h : Bounded r) :
    (r.size - r.inPos + r.outPos).toNat = r.size.toNat - (r.inPos - r.outPos).toNat :=
  Word.toNat_free h.used

theorem Bounded.reset (h : Bounded r) : Bounded (_ringBufferReset r) := by
  refine ⟨h.pos, h.length_buffer, ?_⟩
  simp [_ringBufferReset]

/-- A put stays inside both areas. -/
theorem Bounded.put (h : Bounded r) {buffer : List UInt8} {size : UInt32}
    (hbuffer : buffer.length = size.toNat) :
    ∃ r' ret, _ringBufferPut r buffer size = some (r', ret) ∧
      (Bounded r' ∧ r'.size = r.size) ∧ ret ≤ size := by
  let n := Word.min size (r.size - r.inPos + r.outPos)
  let len := Word.min n (r.size - r.inPos % r.size)
  have hn : n.toNat = min size.toNat (r.size.toNat - (r.inPos - r.outPos).toNat) := by
    rw [Word.toNat_min, h.room]
  have hlen : len.toNat ≤ n.toNat := by
    rw [Word.toNat_min]
    exact Nat.min_le_left _ _
  have hrest : (n - len).toNat = n.toNat - len.toNat := Word.toNat_sub_min _ _
  have hpiece : (r.inPos % r.size).toNat + len.toNat ≤ r.buffer.length := by
    rw [h.length_buffer]
    exact h.piece r.inPos n
  rcases exists_memcpy r.buffer _ buffer 0 (by omega) hpiece with ⟨mem₁, hcopy₁, hlen₁⟩
  have hsecond : 0 + (n - len).toNat ≤ mem₁.length := by
    rw [hlen₁, h.length_buffer, hrest]
    omega
  rcases exists_memcpy mem₁ 0 buffer len.toNat (by omega) hsecond with
    ⟨mem₂, hcopy₂, hlen₂⟩
  refine ⟨{ r with buffer := mem₂, inPos := r.inPos + n }, n, ?_, ⟨⟨h.pos, ?_, ?_⟩, rfl⟩, ?_⟩
  · simp only [_ringBufferPut, Option.bind_eq_bind]
    rw [hcopy₁, Option.bind_some, hcopy₂]
    rfl
  · exact hlen₂.trans (hlen₁.trans h.length_buffer)
  · have hused := h.used
    have hsize := r.size.toNat_lt
    have hadv : (r.inPos + n - r.outPos).toNat = (r.inPos - r.outPos).toNat + n.toNat :=
      Word.toNat_advance_head (by omega)
    show (r.inPos + n - r.outPos).toNat ≤ r.size.toNat
    omega
  · rw [UInt32.le_iff_toNat_le]
    omega

/-- A get stays inside both areas. -/
theorem Bounded.get (h : Bounded r) {buffer : List UInt8} {size : UInt32}
    (hbuffer : buffer.length = size.toNat) :
    ∃ r' ret buffer', _ringBufferGetInto r buffer size = some (r', ret, buffer') ∧
      (Bounded r' ∧ r'.size = r.size) ∧ ret ≤ size := by
  let n := Word.min size (r.inPos - r.outPos)
  let len := Word.min n (r.size - r.outPos % r.size)
  have hn : n.toNat = min size.toNat (r.inPos - r.outPos).toNat := Word.toNat_min _ _
  have hlen : len.toNat ≤ n.toNat := by
    rw [Word.toNat_min]
    exact Nat.min_le_left _ _
  have hrest : (n - len).toNat = n.toNat - len.toNat := Word.toNat_sub_min _ _
  have hused := h.used
  have hpiece : (r.outPos % r.size).toNat + len.toNat ≤ r.buffer.length := by
    rw [h.length_buffer]
    exact h.piece r.outPos n
  rcases exists_memcpy buffer 0 r.buffer _ hpiece (by omega) with ⟨mem₁, hcopy₁, hlen₁⟩
  have hsecond : 0 + (n - len).toNat ≤ r.buffer.length := by
    rw [h.length_buffer, hrest]
    omega
  rcases exists_memcpy mem₁ len.toNat r.buffer 0 hsecond (by omega) with
    ⟨mem₂, hcopy₂, _⟩
  refine ⟨{ r with outPos := r.outPos + n }, n, mem₂, ?_, ⟨⟨h.pos, h.length_buffer, ?_⟩, rfl⟩, ?_⟩
  · simp only [_ringBufferGetInto, Option.bind_eq_bind]
    rw [hcopy₁, Option.bind_some, hcopy₂]
    rfl
  · have hadv : (r.inPos - (r.outPos + n)).toNat = (r.inPos - r.outPos).toNat - n.toNat :=
      Word.toNat_advance_tail (by omega)
    show (r.inPos - (r.outPos + n)).toNat ≤ r.size.toNat
    omega
  · rw [UInt32.le_iff_toNat_le]
    omega

/-- The get that resets an empty ring stays inside both areas. -/
theorem Bounded.getReset (h : Bounded r) {buffer : List UInt8} {size : UInt32}
    (hbuffer : buffer.length = size.toNat) :
    ∃ r' ret buffer', ringBufferGetInto r buffer size = some (r', ret, buffer') ∧
      (Bounded r' ∧ r'.size = r.size) ∧ ret ≤ size := by
  rcases h.get hbuffer with ⟨r', ret, buffer', hget, ⟨hbounded, hsize⟩, hret⟩
  by_cases hempty : r'.inPos = r'.outPos
  · refine ⟨_ringBufferReset r', ret, buffer', ?_, ⟨hbounded.reset, hsize⟩, hret⟩
    simp [ringBufferGetInto, hget, hempty, _ringBufferReset]
  · refine ⟨r', ret, buffer', ?_, ⟨hbounded, hsize⟩, hret⟩
    simp [ringBufferGetInto, hget, hempty]

/-- Every call stays in bounds. -/
theorem call_bounded (h : Bounded r) (c : Call) :
    ∃ r' ret, call r c = some (r', ret) ∧ (Bounded r' ∧ r'.size = r.size) ∧
      ret ≤ c.requested := by
  cases c with
  | put buffer size hbuffer => exact h.put hbuffer
  | get buffer size hbuffer =>
      rcases h.getReset hbuffer with ⟨r', ret, buffer', hget, hbounded, hret⟩
      exact ⟨r', ret, by simp [call, hget], hbounded, hret⟩
  | reset => exact ⟨_, 0, rfl, ⟨h.reset, rfl⟩, Nat.le_refl _⟩
  | _put buffer size hbuffer => exact h.put hbuffer
  | _get buffer size hbuffer =>
      rcases h.get hbuffer with ⟨r', ret, buffer', hget, hbounded, hret⟩
      exact ⟨r', ret, by simp [call, hget], hbounded, hret⟩
  | _reset => exact ⟨_, 0, rfl, ⟨h.reset, rfl⟩, Nat.le_refl _⟩

end Calls

/-- The caller finds in the buffer what the ring gives out. -/
theorem _ringBufferGetInto_bytes {r r' : RingBuffer} {buffer buffer' : List UInt8}
    {size ret : UInt32} (h : _ringBufferGetInto r buffer size = some (r', ret, buffer')) :
    _ringBufferGet r size = some (r', ret, buffer'.take ret.toNat) := by
  let n := Word.min size (r.inPos - r.outPos)
  let len := Word.min n (r.size - r.outPos % r.size)
  have hlen : len.toNat ≤ n.toNat := by
    rw [Word.toNat_min]
    exact Nat.min_le_left _ _
  have hrest : (n - len).toNat = n.toNat - len.toNat := Word.toNat_sub_min _ _
  rcases Option.bind_eq_some_iff.mp h with ⟨mem₁, hcopy₁, h⟩
  rcases Option.bind_eq_some_iff.mp h with ⟨mem₂, hcopy₂, h⟩
  cases h
  rcases Option.bind_eq_some_iff.mp hcopy₁ with ⟨front, hfront, hstore₁⟩
  rcases Option.bind_eq_some_iff.mp hcopy₂ with ⟨rest, hload₂, hstore₂⟩
  have hlen₁ : front.length = len.toNat := load_length hfront
  have hlen₂ : rest.length = (n - len).toNat := load_length hload₂
  have htake₁ : mem₁.take len.toNat = front := by
    have htake := store_take hstore₁
    rw [Nat.zero_add, hlen₁] at htake
    exact htake
  have htake₂ : buffer'.take n.toNat = front ++ rest := by
    have htake := store_take hstore₂
    rw [hlen₂, hrest, Nat.add_sub_cancel' hlen, htake₁] at htake
    exact htake
  simp only [_ringBufferGet, Option.bind_eq_bind]
  rw [hfront, Option.bind_some, hload₂, Option.bind_some]
  exact congrArg (fun bytes => some ({ r with outPos := r.outPos + n }, n, bytes)) htake₂.symm

/-- **Bounds.** For every size from one on, every sequence of calls with any 32-bit counts
runs without a copy outside of an area. At its end the distance of the indices is at most the
size, and every call has returned at most what was asked for. -/
theorem run_in_bounds (buffer : List UInt8) (size : UInt32) (hpos : 1 ≤ size.toNat)
    (hbuffer : buffer.length = size.toNat) (calls : List Call) :
    ∃ r rets, run call (ringBufferInit buffer size) calls = some (r, rets) ∧
      (r.inPos - r.outPos).toNat ≤ size.toNat ∧
      List.Forall₂ (fun c ret => ret ≤ c.requested) calls rets := by
  have hinit : Bounded (ringBufferInit buffer size) ∧ (ringBufferInit buffer size).size = size :=
    ⟨⟨hpos, hbuffer, by simp [ringBufferInit]⟩, rfl⟩
  have hstep : ∀ (r : RingBuffer) (c : Call), Bounded r ∧ r.size = size →
      ∃ r' ret, call r c = some (r', ret) ∧ (Bounded r' ∧ r'.size = size) ∧
        ret ≤ c.requested := by
    intro r c h
    rcases call_bounded h.1 c with ⟨r', ret, hcall, ⟨hbounded, hsize⟩, hret⟩
    exact ⟨r', ret, hcall, ⟨hbounded, hsize.trans h.2⟩, hret⟩
  rcases run_invariant hstep hinit calls with ⟨r, rets, hrun, ⟨hbounded, hsize⟩, hrets⟩
  exact ⟨r, rets, hrun, hsize ▸ hbounded.used, hrets⟩

/-- A ring of three bytes, with calls that ask for more than there is. -/
theorem run_in_bounds_three :
    let calls : List Call :=
      [.put [1, 2] 2 rfl, ._put [3, 4, 5] 3 rfl, ._get [0] 1 rfl, .get [0, 0, 0, 0] 4 rfl, .reset]
    ∃ r rets, run call (ringBufferInit [7, 8, 9] 3) calls = some (r, rets) ∧
      (r.inPos - r.outPos).toNat ≤ 3 ∧
      List.Forall₂ (fun c ret => ret ≤ c.requested) calls rets :=
  run_in_bounds [7, 8, 9] 3 (by decide) rfl _

end ServerKit.RingBuffer
