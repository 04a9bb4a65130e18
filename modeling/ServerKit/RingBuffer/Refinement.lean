import ServerKit.RingBuffer.Model
import ServerKit.Lib.Window
import ServerKit.Lib.Fifo
import ServerKit.Lib.Transducer

/-! # The ring of `ring_buffer.c` and the bounded byte queue

A 32-bit index taken modulo the size moves from slot to slot until it wraps. If
the size does not divide `2^32` the wrap skips to another slot. -/

namespace ServerKit.RingBuffer

open ServerKit.Memory ServerKit.Window ServerKit.Transducer

/-! ## The queue a ring stands for -/

/-- What a caller of a byte queue sees of one call. -/
def queueReply {capacity : ℕ} (q : Fifo UInt8 capacity) (ret : ℕ) (bytes : List UInt8) : Reply :=
  ⟨ret, bytes, q.items.length⟩

/-- The calls on a bounded byte queue: a put stores what fits, a get takes the
oldest bytes. -/
def queueStep {capacity : ℕ} (q : Fifo UInt8 capacity) : Op → Fifo UInt8 capacity × Reply
  | .put buffer size _ =>
    let q' := q.fill (buffer.take size.toNat)
    (q', queueReply q' (min size.toNat q.room) [])
  | .get size =>
    let q' := q.drop size.toNat
    (q', queueReply q' (q.front size.toNat).length (q.front size.toNat))
  | .reset => (Fifo.empty, queueReply (Fifo.empty : Fifo UInt8 capacity) 0 [])

/-- The stored bytes are the slots from the slot of `out` on. -/
structure Represents {capacity : ℕ} (r : RingBuffer) (q : Fifo UInt8 capacity) : Prop where
  pos : 0 < capacity
  size : r.size.toNat = capacity
  length_buffer : r.buffer.length = capacity
  len : (r.inPos - r.outPos).toNat = q.items.length
  holds : Holds r.buffer (r.outPos.toNat % capacity) q.items

/-! ## Slots of wrapped indices -/

/-- The slot of `in` is the one behind the stored bytes exactly when the size
divides the range of the indices or `in` has not wrapped past `out`. -/
theorem in_slot_iff (r : RingBuffer) (size : ℕ) :
    r.inPos.toNat % size = (r.outPos.toNat % size + (r.inPos - r.outPos).toNat) % size ↔
      size ∣ 2 ^ 32 ∨ r.outPos ≤ r.inPos := by
  have hin : r.inPos = r.outPos + (r.inPos - r.outPos) := by grind
  have hwrap : r.outPos.toNat + (r.inPos - r.outPos).toNat < 2 ^ 32 ↔ r.outPos ≤ r.inPos := by
    have := r.inPos.toNat_lt
    have := r.outPos.toNat_lt
    rw [UInt32.le_iff_toNat_le, UInt32.toNat_sub]
    omega
  rw [Nat.mod_add_mod, ← hwrap, ← Word.toNat_add_mod_iff, ← hin]

/-- The calls that leave every stored byte in the slot where it will be looked
for: a put that stores something finds `in` not wrapped past `out`, and a get that
leaves something behind does not carry `out` past the wrap. -/
def KeepsSlots (r : RingBuffer) : Op → Prop
  | .put _ size _ =>
    r.size.toNat ∣ 2 ^ 32 ∨ r.outPos ≤ r.inPos ∨ size = 0 ∨ ringBufferLen r = r.size
  | .get size =>
    r.size.toNat ∣ 2 ^ 32 ∨ r.outPos.toNat + size.toNat < 2 ^ 32 ∨ ringBufferLen r ≤ size
  | .reset => True

instance (r : RingBuffer) (op : Op) : Decidable (KeepsSlots r op) := by
  cases op <;> unfold KeepsSlots <;> infer_instance

/-! ## The operations -/

section Represented

variable {capacity : ℕ} {r : RingBuffer} {q : Fifo UInt8 capacity}

theorem Represents.slot_lt (h : Represents r q) (pos : UInt32) :
    pos.toNat % capacity < r.buffer.length := by
  rw [h.length_buffer]
  exact Nat.mod_lt _ h.pos

theorem Represents.slot_toNat (h : Represents r q) (pos : UInt32) :
    (pos % r.size).toNat = pos.toNat % capacity := by
  rw [UInt32.toNat_mod, h.size]

/-- The length of the first piece of a copy of `n` bytes at index `pos`. -/
theorem Represents.piece (h : Represents r q) (pos n : UInt32) :
    (Word.min n (r.size - pos % r.size)).toNat =
      min n.toNat (r.buffer.length - pos.toNat % capacity) := by
  have hlt := h.slot_lt pos
  have hsize := h.size
  have := r.size.toNat_lt
  rw [Word.toNat_min, UInt32.toNat_sub, h.slot_toNat]
  rw [h.length_buffer] at hlt ⊢
  congr 1
  omega

theorem Represents.room (h : Represents r q) :
    (r.size - r.inPos + r.outPos).toNat = q.room := by
  have hbound := q.bounded
  have hlen := h.len
  rw [Word.toNat_free (by rw [hlen, h.size]; exact hbound), hlen, h.size, Fifo.room]

theorem Represents.reply_eq (h : Represents r q) (ret : UInt32) (bytes : List UInt8) :
    r.reply ret bytes = queueReply q ret.toNat bytes := by
  simp only [reply, queueReply, ringBufferLen, _ringBufferLen, h.len]

/-- A put writes what fits, circularly from the slot of `in` on. -/
theorem _ringBufferPut_eq (h : Represents r q) (buffer : List UInt8) (size : UInt32)
    (henough : size.toNat ≤ buffer.length) :
    ∃ mem n,
      _ringBufferPut r buffer size = some ({ r with buffer := mem, inPos := r.inPos + n }, n) ∧
      n.toNat = min size.toNat q.room ∧
      Pasted r.buffer (r.inPos.toNat % capacity) (buffer.take n.toNat) mem := by
  obtain ⟨n, hn⟩ : ∃ n, n = Word.min size (r.size - r.inPos + r.outPos) := ⟨_, rfl⟩
  have hstored : n.toNat = min size.toNat q.room := by rw [hn, Word.toNat_min, h.room]
  have hroom : q.room ≤ capacity := Nat.sub_le _ _
  obtain ⟨mem₁, mem₂, hcopy₁, hcopy₂, hpasted⟩ :=
    memcpy_wrap (h.slot_lt r.inPos) (show n.toNat ≤ buffer.length by omega)
      (by rw [h.length_buffer]; omega)
  rw [← h.piece, ← h.slot_toNat] at hcopy₁
  rw [← h.piece, ← Word.toNat_sub_min] at hcopy₂
  refine ⟨mem₂, n, ?_, hstored, hpasted⟩
  simp only [_ringBufferPut, ← hn, hcopy₁, hcopy₂, Option.bind_eq_bind, Option.bind_some]
  rfl

/-- A put appends what fits if its first byte goes to the slot behind the stored bytes. -/
theorem _ringBufferPut_spec (h : Represents r q) (buffer : List UInt8) (size : UInt32)
    (henough : size.toNat ≤ buffer.length) (hkeep : KeepsSlots r (.put buffer size henough)) :
    ∃ r' ret, _ringBufferPut r buffer size = some (r', ret) ∧
      Represents r' (q.fill (buffer.take size.toNat)) ∧ ret.toNat = min size.toNat q.room := by
  obtain ⟨mem, n, hrun, hstored, hpasted⟩ := _ringBufferPut_eq h buffer size henough
  have hroom : q.items.length + q.room = capacity := by
    have := q.bounded
    rw [Fifo.room]
    omega
  have htake : (buffer.take n.toNat).length = n.toNat := by
    rw [List.length_take]
    omega
  have hend : (buffer.take n.toNat).length ≠ 0 → r.inPos.toNat % capacity =
      (r.outPos.toNat % capacity + q.items.length) % r.buffer.length := by
    intro hne
    rw [h.length_buffer, ← h.len]
    apply (in_slot_iff r capacity).mpr
    rcases hkeep with hdvd | hle | hzero | hfull
    · exact Or.inl (h.size ▸ hdvd)
    · exact Or.inr hle
    · simp [hzero] at hstored
      omega
    · have hlen : (r.inPos - r.outPos).toNat = capacity := by
        rw [← h.size, ← hfull]
        rfl
      have := h.len
      omega
  have hholds := h.holds.pasted hpasted hend (by rw [h.length_buffer]; omega)
  have hitems : (q.fill (buffer.take size.toNat)).items = q.items ++ buffer.take n.toNat := by
    rw [Fifo.items_fill, List.take_take, hstored, Nat.min_comm]
  refine ⟨_, n, hrun, ?_, hstored⟩
  have hadv : (r.inPos + n - r.outPos).toNat = q.items.length + n.toNat := by
    have := r.size.toNat_lt
    have := h.size
    rw [← h.len]
    have := h.len
    exact Word.toNat_advance_head (by omega)
  refine ⟨h.pos, h.size, hpasted.length.trans h.length_buffer, ?_, ?_⟩
  · rw [hitems, List.length_append, htake]
    exact hadv
  · rw [hitems]
    exact hholds

/-- A get delivers the oldest bytes. -/
theorem _ringBufferGet_eq (h : Represents r q) (size : UInt32) :
    ∃ n, _ringBufferGet r size =
        some ({ r with outPos := r.outPos + n }, n, q.front size.toNat) ∧
      n.toNat = min size.toNat q.items.length := by
  obtain ⟨n, hn⟩ : ∃ n, n = Word.min size (r.inPos - r.outPos) := ⟨_, rfl⟩
  have htaken : n.toNat = min size.toNat q.items.length := by rw [hn, Word.toNat_min, h.len]
  obtain ⟨front, rest, hfront, hrest, happ⟩ :=
    h.holds.load (n := n.toNat) (h.slot_lt r.outPos) (by omega)
  rw [← h.piece] at hfront hrest
  rw [← h.slot_toNat] at hfront
  rw [← Word.toNat_sub_min] at hrest
  have hbytes : front ++ rest = q.front size.toNat := by
    rw [happ, htaken, Fifo.front, ← List.take_take, List.take_length]
  refine ⟨n, ?_, htaken⟩
  simp only [_ringBufferGet, ← hn, hfront, hrest, Option.bind_eq_bind, Option.bind_some,
    ← hbytes]
  rfl

/-- The rest is found again if `out` did not wrap into another slot. -/
theorem _ringBufferGet_spec (h : Represents r q) (size : UInt32)
    (hkeep : KeepsSlots r (.get size)) :
    ∃ r' ret, _ringBufferGet r size = some (r', ret, q.front size.toNat) ∧
      Represents r' (q.drop size.toNat) ∧ ret.toNat = (q.front size.toNat).length := by
  obtain ⟨n, hrun, htaken⟩ := _ringBufferGet_eq h size
  refine ⟨_, n, hrun, ?_, by rw [htaken, Fifo.front, List.length_take]⟩
  have hadv : (r.inPos - (r.outPos + n)).toNat = q.items.length - n.toNat := by
    rw [← h.len]
    have := h.len
    exact Word.toNat_advance_tail (by omega)
  refine ⟨h.pos, h.size, h.length_buffer, ?_, ?_⟩
  · rw [Fifo.items_drop, List.length_drop]
    exact hadv.trans (by omega)
  · by_cases hdrained : q.items.length ≤ size.toNat
    · rw [Fifo.items_drop, List.drop_of_length_le hdrained]
      exact holds_nil _ _
    · have hslot : (r.outPos + n).toNat % capacity =
          (r.outPos.toNat % capacity + n.toNat) % capacity := by
        rw [Nat.mod_add_mod]
        apply (Word.toNat_add_mod_iff r.outPos n capacity).mpr
        rcases hkeep with hdvd | hlt | hle
        · exact Or.inl (h.size ▸ hdvd)
        · exact Or.inr (by omega)
        · rw [ringBufferLen, _ringBufferLen, UInt32.le_iff_toNat_le, h.len] at hle
          omega
      have hdrop := h.holds.drop n.toNat
      rw [h.length_buffer, ← hslot, htaken, Window.drop_min_length] at hdrop
      exact hdrop

theorem represents_empty {r : RingBuffer} (hpos : 0 < capacity) (hsize : r.size.toNat = capacity)
    (hbuffer : r.buffer.length = capacity) (hempty : r.inPos = r.outPos) :
    Represents r (Fifo.empty : Fifo UInt8 capacity) :=
  ⟨hpos, hsize, hbuffer, by simp [hempty], holds_nil _ _⟩

/-- Returning both indices of an empty ring to zero does not change its queue. -/
theorem ringBufferGet_spec (h : Represents r q) (size : UInt32)
    (hkeep : KeepsSlots r (.get size)) :
    ∃ r' ret, ringBufferGet r size = some (r', ret, q.front size.toNat) ∧
      Represents r' (q.drop size.toNat) ∧ ret.toNat = (q.front size.toNat).length := by
  obtain ⟨r', ret, hget, hrep, hret⟩ := _ringBufferGet_spec h size hkeep
  by_cases hempty : r'.inPos = r'.outPos
  · refine ⟨{ r' with inPos := 0, outPos := 0 }, ret, by simp [ringBufferGet, hget, hempty], ?_,
      hret⟩
    have hnil : (q.drop size.toNat).items = [] := by
      rw [← List.length_eq_zero_iff, ← hrep.len, Word.toNat_sub_eq_zero_iff]
      exact hempty
    exact ⟨hrep.pos, hrep.size, hrep.length_buffer, by simp only [hnil, UInt32.sub_self]; rfl,
      hnil ▸ holds_nil _ _⟩
  · exact ⟨r', ret, by simp [ringBufferGet, hget, hempty], hrep, hret⟩

/-- One call on a ring and on the queue it stands for give the same reply. -/
theorem step_spec (h : Represents r q) (op : Op) (hkeep : KeepsSlots r op) :
    ∃ r', step r op = some (r', (queueStep q op).2) ∧ Represents r' (queueStep q op).1 := by
  cases op with
  | put buffer size henough =>
      obtain ⟨r', ret, hrun, hrep, hret⟩ := _ringBufferPut_spec h buffer size henough hkeep
      exact ⟨r', by simp [step, ringBufferPut, queueStep, hrun, hrep.reply_eq, hret], hrep⟩
  | get size =>
      obtain ⟨r', ret, hrun, hrep, hret⟩ := ringBufferGet_spec h size hkeep
      exact ⟨r', by simp [step, queueStep, hrun, hrep.reply_eq, hret], hrep⟩
  | reset =>
      have hrep : Represents (ringBufferReset r) (Fifo.empty : Fifo UInt8 capacity) :=
        represents_empty h.pos h.size h.length_buffer rfl
      exact ⟨ringBufferReset r, by simp [step, queueStep, hrep.reply_eq], hrep⟩

end Represented

/-! ## Runs -/

/-- A run whose calls all keep the slots gives the replies of a bounded byte queue. -/
theorem run_refines_queue_of_keepsSlots (buffer : List UInt8) (size : UInt32)
    (hpos : 1 ≤ size.toNat) (hbuffer : buffer.length = size.toNat) (ops : List Op)
    (hkeep : Admits KeepsSlots step (ringBufferInit buffer size) ops) :
    ∃ r', run step (ringBufferInit buffer size) ops =
        some (r', (runTotal queueStep (Fifo.empty : Fifo UInt8 size.toNat) ops).2) ∧
      Represents r' (runTotal queueStep (Fifo.empty : Fifo UInt8 size.toNat) ops).1 :=
  run_simulates KeepsSlots Represents (fun _ _ op h hop => step_spec h op hop)
    (represents_empty hpos rfl hbuffer rfl) hkeep

/-- A run on three slots that drains the ring between two puts. -/
theorem run_refines_queue_of_keepsSlots_three :
    ∃ r', run step (ringBufferInit [7, 8, 9] 3)
        [.put [1, 2] 2 (by decide), .get 1, .put [3, 4, 5] 3 (by decide), .get 9] =
        some (r', (runTotal queueStep (Fifo.empty : Fifo UInt8 (UInt32.toNat 3))
          [.put [1, 2] 2 (by decide), .get 1, .put [3, 4, 5] 3 (by decide), .get 9]).2) ∧
      Represents r' (runTotal queueStep (Fifo.empty : Fifo UInt8 (UInt32.toNat 3))
        [.put [1, 2] 2 (by decide), .get 1, .put [3, 4, 5] 3 (by decide), .get 9]).1 :=
  run_refines_queue_of_keepsSlots [7, 8, 9] 3 (by decide) rfl _ (by decide)

/-! ## A run that never drains

On three slots, one byte out and one byte in, over and over, brings `in` to the
wrap with bytes still stored. `2 ^ 32` leaves remainder one modulo three, so the
byte put after the wrap lands on one that is still to be read. -/

/-- A ring of three zero bytes, two of them stored, that has moved `i` bytes. -/
def zeros (i : UInt32) : RingBuffer := ⟨[0, 0, 0], 3, i + 2, i⟩

/-- `n` times one byte out and one byte in. -/
def rotations (n : ℕ) : List Op :=
  (List.replicate n [.get 1, .put [0] 1 (by decide)]).flatten

/-- One byte in, two out, two in across the wrap, three out. -/
def acrossWrap : List Op :=
  [.put [1] 1 (by decide), .get 2, .put [2] 1 (by decide), .put [3] 1 (by decide), .get 3]

/-- Two bytes in, `n` rotations, then `acrossWrap`. -/
def wrapOps (n : ℕ) : List Op :=
  (.put [0, 0] 2 (by decide) :: rotations n) ++ acrossWrap

theorem mod_three (i : UInt32) : i % 3 = 0 ∨ i % 3 = 1 ∨ i % 3 = 2 := by
  have hlt : (i % 3).toNat < 3 := by
    rw [UInt32.toNat_mod]
    exact Nat.mod_lt _ (by decide)
  rw [← UInt32.toNat_inj, ← UInt32.toNat_inj, ← UInt32.toNat_inj]
  change (i % 3).toNat = 0 ∨ (i % 3).toNat = 1 ∨ (i % 3).toNat = 2
  omega

theorem step_zeros_get (i : UInt32) :
    ∃ reply, step (zeros i) (.get 1) = some (⟨[0, 0, 0], 3, i + 2, i + 1⟩, reply) := by
  have hlen : i + 2 - i = 2 := by grind
  rcases mod_three i with h | h | h <;>
    simp [step, ringBufferGet, _ringBufferGet, zeros, hlen, h, Word.min, load]

theorem step_zeros_put (i : UInt32) :
    ∃ reply, step ⟨[0, 0, 0], 3, i + 2, i + 1⟩ (.put [0] 1 (by decide)) =
      some (zeros (i + 1), reply) := by
  have hroom : 3 - (i + 2) + (i + 1) = 2 := by grind
  have hin : i + 2 + 1 = i + 1 + 2 := by grind
  rcases mod_three (i + 2) with h | h | h <;>
    simp [step, ringBufferPut, _ringBufferPut, zeros, hroom, hin, h, Word.min, memcpy, load, store]

theorem run_rotations (n : ℕ) (i : UInt32) :
    ∃ replies, run step (zeros i) (rotations n) = some (zeros (i + UInt32.ofNat n), replies) := by
  induction n generalizing i with
  | zero => exact ⟨[], by simp [rotations, run]⟩
  | succ n ih =>
      obtain ⟨a, ha⟩ := step_zeros_get i
      obtain ⟨b, hb⟩ := step_zeros_put i
      obtain ⟨replies, hreplies⟩ := ih (i + 1)
      refine ⟨a :: b :: replies, ?_⟩
      have hsucc : i + 1 + UInt32.ofNat n = i + UInt32.ofNat (n + 1) := by
        rw [UInt32.ofNat_add]
        grind
      rw [rotations] at hreplies
      simp [rotations, List.replicate_succ, run, ha, hb, hreplies, hsucc]

theorem runTotal_rotations (n : ℕ) (q : Fifo UInt8 3) (hq : q.items = [0, 0]) :
    (runTotal queueStep q (rotations n)).1.items = [0, 0] := by
  induction n generalizing q with
  | zero => exact hq
  | succ n ih =>
      simp only [rotations, List.replicate_succ, List.flatten_cons, List.cons_append,
        List.nil_append, runTotal]
      apply ih
      simp [queueStep, Fifo.room, hq]

/-- After `2 ^ 32 - 4` rotations the last get delivers the byte put last in place
of the one before. -/
theorem run_wrapOps :
    ∃ r' replies, run step (ringBufferInit [0, 0, 0] 3) (wrapOps 4294967292) =
      some (r', replies ++ [⟨3, [1, 3, 0], 0⟩]) := by
  obtain ⟨replies, hreplies⟩ := run_rotations 4294967292 0
  have hstart : step (ringBufferInit [0, 0, 0] 3) (.put [0, 0] 2 (by decide)) =
      some (zeros 0, ⟨2, [], 2⟩) := by decide
  have htail : run step (zeros (0 + UInt32.ofNat 4294967292)) acrossWrap =
      some (⟨[3, 0, 1], 3, 0, 0⟩, [⟨1, [], 3⟩, ⟨2, [0, 0], 1⟩, ⟨1, [], 2⟩, ⟨1, [], 3⟩] ++
        [⟨3, [1, 3, 0], 0⟩]) := by decide
  rw [wrapOps, run_append, run, hstart, Option.bind_some, hreplies, Option.map_some,
    Option.bind_some, htail, Option.map_some, ← List.append_assoc]
  exact ⟨_, _, rfl⟩

theorem runTotal_wrapOps (n : ℕ) :
    ∃ replies, (runTotal queueStep (Fifo.empty : Fifo UInt8 3) (wrapOps n)).2 =
      replies ++ [⟨3, [1, 2, 3], 0⟩] := by
  have hstart : (queueStep (Fifo.empty : Fifo UInt8 3)
      (.put [0, 0] 2 (by decide))).1.items = [0, 0] := by decide
  have hitems := runTotal_rotations n _ hstart
  rw [wrapOps, runTotal_append, runTotal]
  dsimp only
  generalize (runTotal queueStep (queueStep (Fifo.empty : Fifo UInt8 3)
    (.put [0, 0] 2 (by decide))).1 (rotations n)).1 = q at hitems ⊢
  have htail : (runTotal queueStep q acrossWrap).2 =
      [⟨1, [], 3⟩, ⟨2, [0, 0], 1⟩, ⟨1, [], 2⟩, ⟨1, [], 3⟩] ++ [⟨3, [1, 2, 3], 0⟩] := by
    simp [acrossWrap, runTotal, queueStep, queueReply, Fifo.room, Fifo.front, hitems]
  rw [htail, ← List.append_assoc]
  exact ⟨_, rfl⟩

/-- The run does not give the replies of a queue of three bytes. -/
theorem run_wrapOps_ne_queue :
    ¬ ∃ r', run step (ringBufferInit [0, 0, 0] 3) (wrapOps 4294967292) =
      some (r', (runTotal queueStep (Fifo.empty : Fifo UInt8 3) (wrapOps 4294967292)).2) := by
  rintro ⟨r', hrun⟩
  obtain ⟨r'', replies, hring⟩ := run_wrapOps
  obtain ⟨replies', hqueue⟩ := runTotal_wrapOps 4294967292
  rw [hring, hqueue, Option.some.injEq, Prod.mk.injEq] at hrun
  have hlast := congrArg List.getLast? hrun.2
  simp at hlast

end ServerKit.RingBuffer
