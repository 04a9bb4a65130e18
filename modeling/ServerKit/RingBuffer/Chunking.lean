import ServerKit.RingBuffer.Refinement

/-! # Calls of `ring_buffer.c` in pieces

With a power-of-two size, a put of two strings one after the other is the put of their
concatenation, and two gets one after the other are a get of the sum. -/

namespace ServerKit.RingBuffer

open ServerKit.Memory ServerKit.Window

/-- A power-of-two size, an array of that many slots, and no more stored than fits. -/
structure Sound (r : RingBuffer) (k : ℕ) : Prop where
  size : r.size.toNat = 2 ^ k
  length_buffer : r.buffer.length = 2 ^ k
  fits : r.inPos - r.outPos ≤ r.size

section Sound

variable {k : ℕ} {r : RingBuffer}

/-- The ring stands for a queue, wherever its counters are. -/
theorem Sound.represents (h : r.Sound k) : ∃ q : Fifo UInt8 (2 ^ k), Represents r q := by
  have hle : (r.inPos - r.outPos).toNat ≤ 2 ^ k := h.size ▸ UInt32.le_iff_toNat_le.mp h.fits
  rcases exists_holds r.buffer (r.outPos.toNat % 2 ^ k) (h.length_buffer ▸ hle) with
    ⟨items, hlen, hholds⟩
  exact ⟨⟨items, hlen ▸ hle⟩, Nat.two_pow_pos k, h.size, h.length_buffer, hlen.symm, hholds⟩

theorem Sound.dvd (h : r.Sound k) : 2 ^ k ∣ 2 ^ 32 := by
  have hlt := r.size.toNat_lt
  rw [h.size] at hlt
  exact Nat.pow_dvd_pow 2 ((Nat.pow_lt_pow_iff_right (by decide)).mp hlt).le

theorem Sound.keepsSlots (h : r.Sound k) (op : Op) : KeepsSlots r op := by
  cases op with
  | put | get => exact Or.inl (h.size ▸ h.dvd)
  | reset => trivial

/-- What two strings store is the front of their concatenation. -/
theorem take_append_take {a b : List UInt8} {n₁ n₂ room : ℕ} (h₁ : n₁ = min a.length room)
    (h₂ : n₂ = min b.length (room - n₁)) :
    a.take n₁ ++ b.take n₂ = (a ++ b).take (n₁ + n₂) := by
  by_cases hall : a.length ≤ room
  · rw [h₁, Nat.min_eq_left hall, List.take_length, List.take_length_add_append]
  · have hfull : n₂ = 0 := by omega
    rw [hfull, List.take_zero, List.append_nil, Nat.add_zero,
      List.take_append_of_le_length (by omega)]

/-- Two puts one after the other are the put of the concatenation. -/
theorem Sound.put_append (h : r.Sound k) (a b : List UInt8) (hlen : a.length + b.length < 2 ^ 32) :
    ∃ r₁ n₁ r₂ n₂ n, _ringBufferPut r a (.ofNat a.length) = some (r₁, n₁) ∧
      _ringBufferPut r₁ b (.ofNat b.length) = some (r₂, n₂) ∧
      _ringBufferPut r (a ++ b) (.ofNat (a.length + b.length)) = some (r₂, n) ∧
      n.toNat = n₁.toNat + n₂.toNat := by
  have hlen_a : (UInt32.ofNat a.length).toNat = a.length :=
    UInt32.toNat_ofNat_of_lt' (lt_of_le_of_lt (Nat.le_add_right _ _) hlen)
  have hlen_b : (UInt32.ofNat b.length).toNat = b.length :=
    UInt32.toNat_ofNat_of_lt' (lt_of_le_of_lt (Nat.le_add_left _ _) hlen)
  have hlen_ab : (UInt32.ofNat (a.length + b.length)).toNat = a.length + b.length :=
    UInt32.toNat_ofNat_of_lt' hlen
  rcases h.represents with ⟨q, hq⟩
  rcases _ringBufferPut_eq hq a (.ofNat a.length) hlen_a.le with ⟨mem₁, n₁, hrun₁, hn₁, hpasted₁⟩
  rcases _ringBufferPut_spec hq a (.ofNat a.length) hlen_a.le (h.keepsSlots _) with
    ⟨r₁, ret, hspec, hq₁, -⟩
  rw [hrun₁] at hspec
  cases hspec
  rcases _ringBufferPut_eq hq₁ b (.ofNat b.length) hlen_b.le with
    ⟨mem₂, n₂, hrun₂, hn₂, hpasted₂⟩
  rcases _ringBufferPut_eq hq (a ++ b) (.ofNat (a.length + b.length))
    (by rw [hlen_ab, List.length_append]) with ⟨mem, n, hrun, hn, hpasted⟩
  have hroom : (q.fill (a.take (UInt32.ofNat a.length).toNat)).room = q.room - n₁.toNat := by
    rw [Fifo.room, Fifo.items_fill, List.length_append, List.length_take, List.length_take,
      Fifo.room, hn₁, Fifo.room]
    omega
  rw [hlen_a] at hn₁
  rw [hlen_b, hroom] at hn₂
  rw [hlen_ab] at hn
  have hsum : n.toNat = n₁.toNat + n₂.toNat := by omega
  have hcount : n = n₁ + n₂ := by
    rw [← UInt32.toNat_inj, UInt32.toNat_add, ← hsum]
    exact (Nat.mod_eq_of_lt n.toNat_lt).symm
  have htake : (a.take n₁.toNat).length = n₁.toNat := by
    rw [List.length_take]
    omega
  have hslot : (r.inPos + n₁).toNat % 2 ^ k % r.buffer.length =
      (r.inPos.toNat % 2 ^ k + (a.take n₁.toNat).length) % r.buffer.length := by
    rw [h.length_buffer, htake, Nat.mod_mod, Nat.mod_add_mod]
    exact (Word.toNat_add_mod_iff r.inPos n₁ (2 ^ k)).mpr (Or.inl h.dvd)
  have hfit : (a.take n₁.toNat).length + (b.take n₂.toNat).length ≤ r.buffer.length := by
    have hle : q.room ≤ 2 ^ k := Nat.sub_le _ _
    rw [htake, List.length_take, h.length_buffer]
    omega
  have hboth := hpasted₁.append hpasted₂ hslot hfit
  rw [take_append_take hn₁ hn₂, ← hsum] at hboth
  have hmem : mem = mem₂ := hpasted.unique hboth
  refine ⟨_, n₁, _, n₂, n, hrun₁, hrun₂, ?_, hsum⟩
  rw [hrun, hmem, hcount, ← UInt32.add_assoc]

/-- Two gets one after the other are the get of the sum. -/
theorem Sound.get_add (h : r.Sound k) (m n : UInt32) (hsum : m.toNat + n.toNat < 2 ^ 32) :
    ∃ r₁ n₁ xs r₂ n₂ ys c, _ringBufferGet r m = some (r₁, n₁, xs) ∧
      _ringBufferGet r₁ n = some (r₂, n₂, ys) ∧
      _ringBufferGet r (m + n) = some (r₂, c, xs ++ ys) ∧
      c.toNat = n₁.toNat + n₂.toNat := by
  have htotal : (m + n).toNat = m.toNat + n.toNat := by
    rw [UInt32.toNat_add, Nat.mod_eq_of_lt hsum]
  rcases h.represents with ⟨q, hq⟩
  rcases _ringBufferGet_eq hq m with ⟨n₁, hrun₁, hn₁⟩
  rcases _ringBufferGet_spec hq m (h.keepsSlots _) with ⟨r₁, ret, hspec, hq₁, -⟩
  rw [hrun₁] at hspec
  cases hspec
  rcases _ringBufferGet_eq hq₁ n with ⟨n₂, hrun₂, hn₂⟩
  rcases _ringBufferGet_eq hq (m + n) with ⟨c, hrun, hc⟩
  rw [Fifo.items_drop, List.length_drop] at hn₂
  rw [htotal] at hc
  have hcount : c.toNat = n₁.toNat + n₂.toNat := by omega
  have hadvance : c = n₁ + n₂ := by
    rw [← UInt32.toNat_inj, UInt32.toNat_add, ← hcount]
    exact (Nat.mod_eq_of_lt c.toNat_lt).symm
  have hbytes : q.front (m + n).toNat = q.front m.toNat ++ (q.drop m.toNat).front n.toNat := by
    rw [Fifo.front, Fifo.front, Fifo.front, Fifo.items_drop, htotal, List.take_add]
  refine ⟨_, n₁, _, _, n₂, _, c, hrun₁, hrun₂, ?_, hcount⟩
  rw [hrun, hadvance, hbytes, ← UInt32.add_assoc]

end Sound

/-- Chunking does not matter: neither to a put, also when the space runs out, nor to a get. -/
theorem ring_buffer_chunking {k : ℕ} {r : RingBuffer} (hsize : r.size.toNat = 2 ^ k)
    (hbuffer : r.buffer.length = 2 ^ k) (hfits : r.inPos - r.outPos ≤ r.size) :
    (∀ a b : List UInt8, a.length + b.length < 2 ^ 32 →
      ∃ r₁ n₁ r₂ n₂ n, _ringBufferPut r a (.ofNat a.length) = some (r₁, n₁) ∧
        _ringBufferPut r₁ b (.ofNat b.length) = some (r₂, n₂) ∧
        _ringBufferPut r (a ++ b) (.ofNat (a.length + b.length)) = some (r₂, n) ∧
        n.toNat = n₁.toNat + n₂.toNat) ∧
    ∀ m n : UInt32, m.toNat + n.toNat < 2 ^ 32 →
      ∃ r₁ n₁ xs r₂ n₂ ys c, _ringBufferGet r m = some (r₁, n₁, xs) ∧
        _ringBufferGet r₁ n = some (r₂, n₂, ys) ∧
        _ringBufferGet r (m + n) = some (r₂, c, xs ++ ys) ∧ c.toNat = n₁.toNat + n₂.toNat :=
  have h : r.Sound k := ⟨hsize, hbuffer, hfits⟩
  ⟨h.put_append, h.get_add⟩

/-- A put of three bytes, the second of them behind the end of the array, the third without
room. -/
theorem ring_buffer_chunking_full :
    ∃ r₁ n₁ r₂ n₂ n, _ringBufferPut ⟨[1, 2], 2, 0xffffffff, 0xffffffff⟩ [7] 1 = some (r₁, n₁) ∧
      _ringBufferPut r₁ [8, 9] 2 = some (r₂, n₂) ∧
      _ringBufferPut ⟨[1, 2], 2, 0xffffffff, 0xffffffff⟩ [7, 8, 9] 3 = some (r₂, n) ∧
      n.toNat = n₁.toNat + n₂.toNat :=
  (ring_buffer_chunking (k := 1) rfl rfl (by decide)).1 [7] [8, 9] (by decide)

end ServerKit.RingBuffer
