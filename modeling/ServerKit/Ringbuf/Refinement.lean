import ServerKit.Ringbuf.Model
import ServerKit.Lib.Window
import ServerKit.Lib.Fifo
import ServerKit.Lib.Transducer

/-! # The ring of `ringbuf.h` is a bounded byte queue -/

namespace ServerKit.Ringbuf

open ServerKit.Memory ServerKit.Window ServerKit.Transducer

/-! ## The queue a ring stands for -/

/-- What a caller of a byte queue sees of one call. -/
def queueReply {capacity : ℕ} (q : Fifo UInt8 capacity) (ret : ℕ) (bytes : List UInt8) : Reply :=
  ⟨ret, bytes, q.items.length, q.room, q.items.isEmpty, q.items.length == capacity⟩

/-- The calls on a bounded byte queue: a write is all or nothing, a read takes the
oldest bytes. -/
def queueStep {capacity : ℕ} (q : Fifo UInt8 capacity) : Op → Fifo UInt8 capacity × Reply
  | .write buf sz _ =>
    let q' := q.offer (buf.take sz.toNat)
    (q', queueReply q' (if sz.toNat ≤ q.room then sz.toNat else 0) [])
  | .read sz =>
    let q' := q.drop sz.toNat
    (q', queueReply q' (q.front sz.toNat).length (q.front sz.toNat))
  | .clear => (Fifo.empty, queueReply (Fifo.empty : Fifo UInt8 capacity) 0 [])

/-- The stored bytes are the slots from the read index on, masked. -/
structure Represents {k : ℕ} (r : Ringbuffer) (q : Fifo UInt8 (2 ^ k)) : Prop where
  size : r.size.toNat = 2 ^ k
  length_buf : r.buf.length = 2 ^ k
  len : (rbLen r).toNat = q.items.length
  holds : Holds r.buf (r.readPos.toNat % 2 ^ k) q.items

/-! ## Index arithmetic -/

/-- Masking with `size - 1` is reduction modulo a power-of-two size. -/
theorem slot_toNat {k : ℕ} {r : Ringbuffer} (hsize : r.size.toNat = 2 ^ k) (pos : UInt32) :
    (r.slot pos).toNat = pos.toNat % 2 ^ k := by
  have hpos : 0 < 2 ^ k := Nat.two_pow_pos k
  have hmask : (r.size - 1).toNat = 2 ^ k - 1 := by
    have := r.size.toNat_lt
    rw [UInt32.toNat_sub, UInt32.toNat_one]
    omega
  rw [Ringbuffer.slot, UInt32.toNat_and, hmask, Nat.and_two_pow_sub_one_eq_mod]

/-- Advancing an index advances its slot, also when the index wraps. -/
theorem add_toNat_mod {k : ℕ} (hk : k ≤ 31) (pos n : UInt32) :
    (pos + n).toNat % 2 ^ k = (pos.toNat % 2 ^ k + n.toNat) % 2 ^ k := by
  rw [(Word.toNat_add_mod_iff pos n _).mpr (Or.inl (Nat.pow_dvd_pow 2 (by omega))),
    Nat.mod_add_mod]

/-- A power-of-two size, and an array of that many slots. -/
structure Ringbuffer.Sized (r : Ringbuffer) (k : ℕ) : Prop where
  size : r.size.toNat = 2 ^ k
  length_buf : r.buf.length = 2 ^ k

section Represented

variable {k : ℕ} {r : Ringbuffer} {q : Fifo UInt8 (2 ^ k)}

theorem Represents.sized (h : Represents r q) : r.Sized k := ⟨h.size, h.length_buf⟩

theorem Represents.remain (h : Represents r q) : (rbRemain r).toNat = q.room := by
  have hlen : (r.writePos - r.readPos).toNat = q.items.length := h.len
  have hbound := q.bounded
  rw [rbRemain, Word.toNat_free (by rw [hlen, h.size]; exact hbound), hlen, h.size, Fifo.room]

theorem Represents.isempty (h : Represents r q) : rbIsempty r = q.items.isEmpty := by
  rw [Bool.eq_iff_iff, rbIsempty, beq_iff_eq, List.isEmpty_iff, ← List.length_eq_zero_iff,
    ← h.len, rbLen, Word.toNat_sub_eq_zero_iff, eq_comm]

theorem Represents.isfull (h : Represents r q) :
    rbIsfull r = (q.items.length == 2 ^ k) := by
  rw [Bool.eq_iff_iff, rbIsfull, beq_iff_eq, beq_iff_eq, ← UInt32.toNat_inj, h.size,
    ← h.len, rbLen, eq_comm]

theorem Represents.reply_eq (h : Represents r q) (ret : UInt32) (bytes : List UInt8) :
    r.reply ret bytes = queueReply q ret.toNat bytes := by
  simp only [Ringbuffer.reply, queueReply, h.len, h.remain, h.isempty, h.isfull]

theorem Represents.slot_lt (h : Represents r q) (pos : UInt32) :
    pos.toNat % 2 ^ k < r.buf.length := by
  rw [h.length_buf]
  exact Nat.mod_lt _ (Nat.two_pow_pos k)

/-- The length of the first piece of a copy of `n` bytes at index `pos`. -/
theorem Represents.piece (h : Represents r q) (pos n : UInt32) :
    (Word.min n (r.size - r.slot pos)).toNat =
      Min.min n.toNat (r.buf.length - pos.toNat % 2 ^ k) := by
  have hlt := h.slot_lt pos
  have hsize := h.size
  have := r.size.toNat_lt
  rw [Word.toNat_min, UInt32.toNat_sub, slot_toNat h.size]
  rw [h.length_buf] at hlt ⊢
  congr 1
  omega

/-- The write position is the slot just behind the stored bytes. -/
theorem Represents.write_slot (h : Represents r q) (hk : k ≤ 31) :
    r.writePos.toNat % 2 ^ k = (r.readPos.toNat % 2 ^ k + q.items.length) % 2 ^ k := by
  have hw : r.writePos = r.readPos + rbLen r := by
    rw [rbLen]
    grind
  rw [hw, add_toNat_mod hk, h.len]

/-- Moving the read position on removes the oldest bytes. -/
theorem Represents.advance (h : Represents r q) (hk : k ≤ 31) {n : UInt32}
    (hn : n.toNat ≤ q.items.length) :
    Represents { r with readPos := r.readPos + n } (q.drop n.toNat) := by
  have hlen : (r.writePos - r.readPos).toNat = q.items.length := h.len
  refine ⟨h.size, h.length_buf, ?_, ?_⟩
  · have hadv : (r.writePos - (r.readPos + n)).toNat = q.items.length - n.toNat := by
      rw [← hlen]
      exact Word.toNat_advance_tail (by omega)
    rw [Fifo.items_drop, List.length_drop]
    exact hadv
  · have hadv := h.holds.drop n.toNat
    rw [h.length_buf, ← add_toNat_mod hk] at hadv
    exact hadv

/-! ## The operations -/

theorem rbWrite_spec (h : Represents r q) (hk : k ≤ 31) (buf : List UInt8) (sz : UInt32)
    (henough : sz.toNat ≤ buf.length) :
    ∃ r' ret, rbWrite r buf sz = some (r', ret) ∧
      Represents r' (q.offer (buf.take sz.toNat)) ∧
      ret.toNat = if sz.toNat ≤ q.room then sz.toNat else 0 := by
  have hmsg : (buf.take sz.toNat).length = sz.toNat := by
    simp
    omega
  have hlen : (r.writePos - r.readPos).toNat = q.items.length := h.len
  by_cases hfit : sz.toNat ≤ q.room
  · have hroom : ¬ sz > rbRemain r := by
      rw [gt_iff_lt, UInt32.lt_iff_toNat_lt, h.remain]
      omega
    have hbound : q.items.length + sz.toNat ≤ 2 ^ k := by
      have := q.bounded
      simp only [Fifo.room] at hfit
      omega
    obtain ⟨mem₁, mem₂, hcopy₁, hcopy₂, hlen₂, hholds⟩ :=
      h.holds.memcpy (h.slot_lt r.writePos)
        (fun _ => by rw [h.write_slot hk, h.length_buf]) henough
        (by rw [h.length_buf]; exact hbound)
    rw [← h.piece, ← slot_toNat h.size] at hcopy₁
    rw [← h.piece, ← Word.toNat_sub_min] at hcopy₂
    refine ⟨{ r with buf := mem₂, writePos := r.writePos + sz }, sz, ?_, ?_, by rw [if_pos hfit]⟩
    · simp only [rbWrite, if_neg hroom, hcopy₁, hcopy₂, Option.bind_eq_bind, Option.bind_some]
      rfl
    · have hoffer : (q.offer (buf.take sz.toNat)).items = q.items ++ buf.take sz.toNat :=
        Fifo.offer_of_le (by omega)
      have hadv : (r.writePos + sz - r.readPos).toNat = q.items.length + sz.toNat := by
        have hlt := r.size.toNat_lt
        rw [h.size] at hlt
        rw [← hlen]
        exact Word.toNat_advance_head (by omega)
      refine ⟨h.size, hlen₂.trans h.length_buf, ?_, ?_⟩
      · rw [hoffer, List.length_append, hmsg]
        exact hadv
      · rw [hoffer]
        exact hholds
  · have hroom : sz > rbRemain r := by
      rw [gt_iff_lt, UInt32.lt_iff_toNat_lt, h.remain]
      omega
    refine ⟨r, 0, by simp [rbWrite, hroom], ?_, by simp [hfit]⟩
    rw [Fifo.offer_of_lt (by omega)]
    exact h

theorem rbRead_spec (h : Represents r q) (hk : k ≤ 31) (sz : UInt32) :
    ∃ r' ret, rbRead r sz = some (r', ret, q.front sz.toNat) ∧
      Represents r' (q.drop sz.toNat) ∧ ret.toNat = (q.front sz.toNat).length := by
  by_cases hempty : rbIsempty r
  · have hnil : q.items = [] := by
      rw [h.isempty] at hempty
      exact List.isEmpty_iff.mp hempty
    refine ⟨r, 0, by simp [rbRead, hempty, Fifo.front, hnil], ?_, by simp [Fifo.front, hnil]⟩
    rw [Fifo.drop_of_items_eq_nil hnil]
    exact h
  · -- `n` is the count the macro leaves in `sz`
    obtain ⟨n, hn⟩ : ∃ n, n = Word.min sz (r.writePos - r.readPos) := ⟨_, rfl⟩
    have htaken : n.toNat = Min.min sz.toNat q.items.length := by
      rw [hn, Word.toNat_min, ← h.len, rbLen]
    have hslot := slot_toNat h.size r.readPos
    obtain ⟨front, rest, hfront, hrest, happ⟩ :=
      h.holds.load (n := n.toNat) (h.slot_lt r.readPos) (by omega)
    rw [← h.piece] at hfront hrest
    rw [← Word.toNat_sub_min] at hrest
    have hbytes : front ++ rest = q.front sz.toNat := by
      rw [happ, htaken, Fifo.front, ← List.take_take, List.take_length]
    refine ⟨{ r with readPos := r.readPos + n }, n, ?_, ?_, ?_⟩
    · simp only [rbRead, if_neg hempty, ← hn, hslot, hfront, hrest, Option.bind_eq_bind,
        Option.bind_some, ← hbytes]
      rfl
    · have hdrop : q.drop n.toNat = q.drop sz.toNat := by
        simp only [Fifo.drop, htaken, Window.drop_min_length]
      rw [← hdrop]
      exact h.advance hk (by omega)
    · rw [htaken, Fifo.front, List.length_take]

theorem rbClear_spec (h : Represents r q) :
    Represents (rbClear r) (Fifo.empty : Fifo UInt8 (2 ^ k)) :=
  ⟨h.size, h.length_buf, by simp [rbLen, rbClear], holds_nil _ _⟩

/-- One call on a ring and on the queue it stands for give the same reply. -/
theorem step_spec (h : Represents r q) (hk : k ≤ 31) (op : Op) :
    ∃ r', step r op = some (r', (queueStep q op).2) ∧ Represents r' (queueStep q op).1 := by
  cases op with
  | write buf sz henough =>
      obtain ⟨r', ret, hrun, hrep, hret⟩ := rbWrite_spec h hk buf sz henough
      exact ⟨r', by simp [step, queueStep, hrun, hrep.reply_eq, hret], hrep⟩
  | read sz =>
      obtain ⟨r', ret, hrun, hrep, hret⟩ := rbRead_spec h hk sz
      exact ⟨r', by simp [step, queueStep, hrun, hrep.reply_eq, hret], hrep⟩
  | clear =>
      exact ⟨rbClear r, by simp [step, queueStep, (rbClear_spec h).reply_eq], rbClear_spec h⟩

end Represented

theorem represents_empty {k : ℕ} {r : Ringbuffer} (hsize : r.size.toNat = 2 ^ k)
    (hbuf : r.buf.length = 2 ^ k) (hempty : r.writePos = r.readPos) :
    Represents r (Fifo.empty : Fifo UInt8 (2 ^ k)) :=
  ⟨hsize, hbuf, by simp [rbLen, hempty], holds_nil _ _⟩

/-- From an empty ring, whatever its indices and old contents, every run of calls
gives the replies of a bounded byte queue of the ring's size. -/
theorem run_refines_queue {k : ℕ} (hk : k ≤ 31) {r : Ringbuffer}
    (hsize : r.size.toNat = 2 ^ k) (hbuf : r.buf.length = 2 ^ k)
    (hempty : r.writePos = r.readPos) (ops : List Op) :
    ∃ r', run step r ops =
        some (r', (runTotal queueStep (Fifo.empty : Fifo UInt8 (2 ^ k)) ops).2) ∧
      Represents r' (runTotal queueStep (Fifo.empty : Fifo UInt8 (2 ^ k)) ops).1 :=
  run_simulates (fun _ _ => True) Represents (fun _ _ op h _ => step_spec h hk op)
    (represents_empty hsize hbuf hempty) (admits_of_forall step (fun _ _ => trivial) r ops)

/-- A run on two slots whose write index wraps past `2^32`. -/
theorem run_refines_queue_wrapped :
    ∃ r', run step ⟨[7, 9], 2, 0xffffffff, 0xffffffff⟩
        [.write [1, 2] 2 (by decide), .write [3] 1 (by decide), .read 1, .write [4] 1 (by decide),
          .read 5] =
        some (r', (runTotal queueStep (Fifo.empty : Fifo UInt8 (2 ^ 1))
          [.write [1, 2] 2 (by decide), .write [3] 1 (by decide), .read 1,
            .write [4] 1 (by decide), .read 5]).2) ∧
      Represents r' (runTotal queueStep (Fifo.empty : Fifo UInt8 (2 ^ 1))
        [.write [1, 2] 2 (by decide), .write [3] 1 (by decide), .read 1,
          .write [4] 1 (by decide), .read 5]).1 :=
  run_refines_queue (by decide) (by decide) (by decide) (by decide) _

end ServerKit.Ringbuf
