import ServerKit.Ringbuf.Interleaving
import ServerKit.Ringbuf.Refinement

/-! # Every interleaving delivers the published bytes in order

Positions in the byte stream are counted without wrapping, from the common value
`p` of both indices at the start. The consumer has released the first `R`
positions, the producer has published the first `W`. -/

namespace ServerKit.Ringbuf

open ServerKit.Memory ServerKit.Window ServerKit.System

/-- The bytes of the current `rb_read` that have been copied to the caller. -/
def Consumer.copied : Consumer → ℕ
  | .copyFront _ _ _ j => j
  | .copyRest _ i j => i.toNat + j
  | .loadPos n => n.toNat
  | .storePos n _ => n.toNat
  | _ => 0

/-- The first `m` bytes of `buf` are in the slots from stream position `W` on. -/
def Written (k p W : ℕ) (mem buf : List UInt8) (m : ℕ) : Prop :=
  ∀ x < m, mem[(p + W + x) % 2 ^ k]? = buf[x]?

/-- What the producer knows: the bytes it was granted fit behind stream position
`W` whatever the consumer releases later, and those copied so far are in place. -/
def Producer.Inv (k p R W : ℕ) (ring : Ringbuffer) : Producer → Prop
  | .idle => True
  | .remainWrite buf sz => sz.toNat ≤ buf.length
  | .remainRead buf sz w => sz.toNat ≤ buf.length ∧ w = ring.writePos
  | .compare buf sz => sz.toNat ≤ buf.length ∧ W + sz.toNat ≤ R + 2 ^ k
  | .select buf sz => sz.toNat ≤ buf.length ∧ W + sz.toNat ≤ R + 2 ^ k ∧
      2 ^ k - (p + W) % 2 ^ k ≤ sz.toNat
  | .dest buf sz i => sz.toNat ≤ buf.length ∧ W + sz.toNat ≤ R + 2 ^ k ∧
      i.toNat = min sz.toNat (2 ^ k - (p + W) % 2 ^ k)
  | .copyFront buf sz i dst j => sz.toNat ≤ buf.length ∧ W + sz.toNat ≤ R + 2 ^ k ∧
      i.toNat = min sz.toNat (2 ^ k - (p + W) % 2 ^ k) ∧ dst = (p + W) % 2 ^ k ∧
      j ≤ i.toNat ∧ Written k p W ring.buf buf j
  | .copyRest buf sz i j => sz.toNat ≤ buf.length ∧ W + sz.toNat ≤ R + 2 ^ k ∧
      i.toNat = min sz.toNat (2 ^ k - (p + W) % 2 ^ k) ∧
      i.toNat + j ≤ sz.toNat ∧ Written k p W ring.buf buf (i.toNat + j)
  | .loadPos buf sz => sz.toNat ≤ buf.length ∧ W + sz.toNat ≤ R + 2 ^ k ∧
      Written k p W ring.buf buf sz.toNat
  | .storePos buf sz w => sz.toNat ≤ buf.length ∧ W + sz.toNat ≤ R + 2 ^ k ∧
      w = ring.writePos ∧ Written k p W ring.buf buf sz.toNat

/-- What the consumer knows: a sample of `write_pos` is at most `W`, so the bytes
it is about to copy have been published. -/
def Consumer.Inv (k p R W : ℕ) (readPos : UInt32) : Consumer → Prop
  | .idle | .emptyRead _ | .lenWrite _ | .takeWrite _ => True
  | .emptyWrite _ r => r = readPos
  | .lenRead _ w | .takeRead _ w => (w - readPos).toNat ≤ W - R
  | .compare n => R + n.toNat ≤ W
  | .select n => R + n.toNat ≤ W ∧ 2 ^ k - (p + R) % 2 ^ k ≤ n.toNat
  | .source n i => R + n.toNat ≤ W ∧ i.toNat = min n.toNat (2 ^ k - (p + R) % 2 ^ k)
  | .copyFront n i src j => R + n.toNat ≤ W ∧
      i.toNat = min n.toNat (2 ^ k - (p + R) % 2 ^ k) ∧ src = (p + R) % 2 ^ k ∧ j ≤ i.toNat
  | .copyRest n i j => R + n.toNat ≤ W ∧
      i.toNat = min n.toNat (2 ^ k - (p + R) % 2 ^ k) ∧ i.toNat + j ≤ n.toNat
  | .loadPos n => R + n.toNat ≤ W
  | .storePos n r => R + n.toNat ≤ W ∧ r = readPos

/-- What the producer knows survives a release of positions. -/
theorem Producer.Inv.mono {k p R R' W : ℕ} {ring : Ringbuffer} {pc : Producer}
    (h : pc.Inv k p R W ring) (hle : R ≤ R') {readPos : UInt32} :
    pc.Inv k p R' W { ring with readPos := readPos } := by
  cases pc with
  | idle | remainWrite | remainRead => exact h
  | compare => exact ⟨h.1, h.2.trans (by omega)⟩
  | _ => exact ⟨h.1, h.2.1.trans (by omega), h.2.2⟩

/-- What the consumer knows survives a publication. -/
theorem Consumer.Inv.mono {k p R W W' : ℕ} {readPos : UInt32} {pc : Consumer}
    (h : pc.Inv k p R W readPos) (hle : W ≤ W') : pc.Inv k p R W' readPos := by
  cases pc with
  | lenRead | takeRead => exact h.trans (Nat.sub_le_sub_right hle R)
  | compare | loadPos => exact h.trans hle
  | select | source | copyFront | copyRest | storePos => exact ⟨h.1.trans hle, h.2⟩
  | _ => exact h

theorem Consumer.Inv.copied_le {k p R W : ℕ} {readPos : UInt32} {pc : Consumer}
    (h : pc.Inv k p R W readPos) (hle : R ≤ W) : R + pc.copied ≤ W := by
  cases pc <;> simp only [Consumer.Inv, Consumer.copied] at h ⊢ <;> omega

structure Threads.Inv (k p : ℕ) (s : Threads) (R : ℕ) : Prop where
  size : s.ring.size.toNat = 2 ^ k
  length_buf : s.ring.buf.length = 2 ^ k
  writePos : s.ring.writePos.toNat = (p + s.published.length) % 2 ^ 32
  readPos : s.ring.readPos.toNat = (p + R) % 2 ^ 32
  released : R ≤ s.published.length
  room : s.published.length ≤ R + 2 ^ k
  stored : ∀ i, R ≤ i → i < s.published.length →
    s.ring.buf[(p + i) % 2 ^ k]? = s.published[i]?
  delivered : s.delivered = s.published.take (R + s.cons.copied)
  prod : s.prod.Inv k p R s.published.length s.ring
  cons : s.cons.Inv k p R s.published.length s.ring.readPos

section Steps

variable {k p R : ℕ} {s s' : Threads}

theorem Threads.Inv.write_slot (h : s.Inv k p R) (hk : k ≤ 31) :
    (s.ring.slot s.ring.writePos).toNat = (p + s.published.length) % 2 ^ k := by
  rw [slot_toNat h.size, h.writePos, Nat.mod_mod_of_dvd _ (Nat.pow_dvd_pow 2 (by omega))]

theorem Threads.Inv.read_slot (h : s.Inv k p R) (hk : k ≤ 31) :
    (s.ring.slot s.ring.readPos).toNat = (p + R) % 2 ^ k := by
  rw [slot_toNat h.size, h.readPos, Nat.mod_mod_of_dvd _ (Nat.pow_dvd_pow 2 (by omega))]

/-- The rest of the array behind a slot, as the code computes it. -/
theorem Threads.Inv.behind_slot (h : s.Inv k p R) (pos : UInt32) :
    (s.ring.size - s.ring.slot pos).toNat = 2 ^ k - (s.ring.slot pos).toNat := by
  have hlt : (s.ring.slot pos).toNat < 2 ^ k := by
    rw [slot_toNat h.size]
    exact Nat.mod_lt _ (Nat.two_pow_pos k)
  have := s.ring.size.toNat_lt
  rw [UInt32.toNat_sub, h.size] at *
  omega

theorem Threads.Inv.gap (h : s.Inv k p R) (hk : k ≤ 31) :
    (s.ring.writePos - s.ring.readPos).toNat = s.published.length - R := by
  have hsize := Nat.pow_le_pow_right (n := 2) (by omega) hk
  have := h.released
  have := h.room
  rw [UInt32.toNat_sub, h.writePos, h.readPos]
  omega

/-- Copying byte `j` into its slot disturbs no published byte. -/
theorem Threads.Inv.stored_put (h : s.Inv k p R) {j : ℕ} {mem : List UInt8} {byte : UInt8}
    (hfit : s.published.length + j < R + 2 ^ k)
    (hput : store s.ring.buf ((p + s.published.length + j) % 2 ^ k) [byte] = some mem) :
    ∀ i, R ≤ i → i < s.published.length → mem[(p + i) % 2 ^ k]? = s.published[i]? := by
  intro i hlow hi
  rw [store_single_getElem? hput, if_neg (mod_ne_mod (by omega) (by omega))]
  exact h.stored i hlow hi

/-- Copying the next published byte extends the delivered prefix. -/
theorem Threads.Inv.delivered_get (h : s.Inv k p R) {j : ℕ} {byte : UInt8}
    (hdel : s.delivered = s.published.take (R + j)) (hj : R + j < s.published.length)
    (hbyte : s.ring.buf[(p + R + j) % 2 ^ k]? = some byte) :
    s.delivered ++ [byte] = s.published.take (R + (j + 1)) := by
  rw [Nat.add_assoc, h.stored _ (by omega) hj] at hbyte
  rw [hdel, ← Nat.add_assoc, List.take_add_one, hbyte]
  rfl

theorem Written.put {W j : ℕ} {mem mem' buf : List UInt8} {byte : UInt8}
    (h : Written k p W mem buf j) (hj : j < 2 ^ k) (hbyte : buf[j]? = some byte)
    (hput : store mem ((p + W + j) % 2 ^ k) [byte] = some mem') :
    Written k p W mem' buf (j + 1) := by
  intro x hx
  rw [store_single_getElem? hput]
  by_cases hlast : x = j
  · rw [if_pos (by rw [hlast]), hlast, hbyte]
  · rw [if_neg (mod_ne_mod (by omega) (by omega))]
    exact h x (by omega)

/-- The bytes in place behind the published ones are published by a new `write_pos`. -/
theorem Threads.Inv.publish (h : s.Inv k p R) {buf : List UInt8} {sz : UInt32}
    (hbuf : sz.toNat ≤ buf.length) (hfit : s.published.length + sz.toNat ≤ R + 2 ^ k)
    (hwritten : Written k p s.published.length s.ring.buf buf sz.toNat) :
    Threads.Inv k p
      { s with ring := { s.ring with writePos := s.ring.writePos + sz }
               prod := .idle
               published := s.published ++ buf.take sz.toNat } R := by
  have hlen : (s.published ++ buf.take sz.toNat).length = s.published.length + sz.toNat := by
    simp
    omega
  have hreleased := h.released
  have hcopied := h.cons.copied_le hreleased
  refine ⟨h.size, h.length_buf, ?_, h.readPos, ?_, ?_, ?_, ?_, trivial, ?_⟩
  · simp only [hlen]
    rw [UInt32.toNat_add, h.writePos]
    omega
  · change R ≤ (s.published ++ buf.take sz.toNat).length
    omega
  · change (s.published ++ buf.take sz.toNat).length ≤ R + 2 ^ k
    omega
  · intro i hlow hi
    simp only [hlen] at hi
    by_cases hold : i < s.published.length
    · rw [List.getElem?_append_left hold]
      exact h.stored i hlow hold
    · rw [List.getElem?_append_right (by omega), List.getElem?_take_of_lt (by omega),
        ← hwritten _ (by omega)]
      congr 2
      omega
  · rw [h.delivered, List.take_append_of_le_length (by omega)]
  · exact h.cons.mono (hlen ▸ Nat.le_add_right _ _)

/-- A new `read_pos` releases the positions of the bytes that have been copied. -/
theorem Threads.Inv.release (h : s.Inv k p R) {n : UInt32}
    (hn : R + n.toNat ≤ s.published.length)
    (hdel : s.delivered = s.published.take (R + n.toNat)) :
    Threads.Inv k p
      { s with ring := { s.ring with readPos := s.ring.readPos + n }, cons := .idle }
      (R + n.toNat) := by
  have hroom := h.room
  refine ⟨h.size, h.length_buf, h.writePos, ?_, hn, ?_, ?_, hdel, ?_, trivial⟩
  · rw [UInt32.toNat_add, h.readPos]
    omega
  · change s.published.length ≤ R + n.toNat + 2 ^ k
    omega
  · intro i hlow hi
    exact h.stored i (by omega) hi
  · exact h.prod.mono (by omega)

/-- A byte string that `rb_write` does not refuse fits behind the published bytes. -/
theorem Threads.Inv.fits_of_remain (h : s.Inv k p R) (hk : k ≤ 31) {sz : UInt32}
    (hroom : ¬ sz > s.ring.size - s.ring.writePos + s.ring.readPos) :
    s.published.length + sz.toNat ≤ R + 2 ^ k := by
  have := h.released
  have := h.room
  rw [gt_iff_lt, UInt32.lt_iff_toNat_lt,
    Word.toNat_free (by rw [h.gap hk, h.size]; omega), h.gap hk, h.size] at hroom
  omega

/-- The producer's step lemma: the consumer's view only grows. -/
theorem Threads.Inv.stepProducer (h : s.Inv k p R) (hk : k ≤ 31)
    (hstep : s.stepProducer = some s') : s'.Inv k p R := by
  have hpow := Nat.two_pow_pos k
  have hreleased := h.released
  have hprod := h.prod
  unfold Threads.stepProducer at hstep
  cases hpc : s.prod with
  | idle => simp [hpc] at hstep
  | remainWrite buf sz =>
      simp only [hpc, Option.some.injEq, Producer.Inv] at hstep hprod
      subst hstep
      exact { h with prod := ⟨hprod, rfl⟩ }
  | remainRead buf sz w =>
      simp only [hpc, Producer.Inv] at hstep hprod
      split at hstep
      · cases hstep
        exact { h with prod := trivial }
      · rename_i hroom
        cases hstep
        obtain ⟨hbuf, rfl⟩ := hprod
        exact { h with prod := ⟨hbuf, h.fits_of_remain hk hroom⟩ }
  | compare buf sz =>
      simp only [hpc, Producer.Inv] at hstep hprod
      split at hstep
      all_goals
        rename_i hlt
        cases hstep
        rw [UInt32.lt_iff_toNat_lt, h.behind_slot, h.write_slot hk] at hlt
      · exact { h with prod := ⟨hprod.1, hprod.2, (Nat.min_eq_left hlt.le).symm⟩ }
      · exact { h with prod := ⟨hprod.1, hprod.2, Nat.le_of_not_lt hlt⟩ }
  | select buf sz =>
      simp only [hpc, Option.some.injEq, Producer.Inv] at hstep hprod
      subst hstep
      refine { h with prod := ⟨hprod.1, hprod.2.1, ?_⟩ }
      rw [h.behind_slot, h.write_slot hk]
      exact (Nat.min_eq_right hprod.2.2).symm
  | dest buf sz i =>
      simp only [hpc, Option.some.injEq, Producer.Inv] at hstep hprod
      subst hstep
      exact { h with prod := ⟨hprod.1, hprod.2.1, hprod.2.2, h.write_slot hk, Nat.zero_le _,
        fun x hx => absurd hx (Nat.not_lt_zero x)⟩ }
  | copyFront buf sz i dst j =>
      simp only [hpc, Producer.Inv] at hstep hprod
      obtain ⟨hbuf, hfit, hi, rfl, hj, hwritten⟩ := hprod
      split at hstep
      · rename_i hlt
        obtain ⟨byte, hbyte, hstep⟩ := Option.bind_eq_some_iff.mp hstep
        obtain ⟨mem, hput, hstep⟩ := Option.bind_eq_some_iff.mp hstep
        cases hstep
        rw [← add_mod_of_front (by omega)] at hput
        exact { h with
          length_buf := (store_length hput).trans h.length_buf
          stored := h.stored_put (by omega) hput
          prod := ⟨hbuf, hfit, hi, rfl, hlt, hwritten.put (by omega) hbyte hput⟩ }
      · cases hstep
        have hdone : j = i.toNat := by omega
        exact { h with prod := ⟨hbuf, hfit, hi, by omega, hdone ▸ hwritten⟩ }
  | copyRest buf sz i j =>
      simp only [hpc, Producer.Inv] at hstep hprod
      obtain ⟨hbuf, hfit, hi, hj, hwritten⟩ := hprod
      have hrest := UInt32.toNat_sub_of_le sz i (UInt32.le_iff_toNat_le.mpr (by omega))
      split at hstep
      · rename_i hlt
        obtain ⟨byte, hbyte, hstep⟩ := Option.bind_eq_some_iff.mp hstep
        obtain ⟨mem, hput, hstep⟩ := Option.bind_eq_some_iff.mp hstep
        cases hstep
        -- the first piece was cut at the end of the array
        have hslot : (p + s.published.length + (i.toNat + j)) % 2 ^ k = j :=
          add_mod_of_rest (by omega) (by omega)
        rw [← hslot] at hput
        exact { h with
          length_buf := (store_length hput).trans h.length_buf
          stored := h.stored_put (by omega) hput
          prod := ⟨hbuf, hfit, hi, by omega, hwritten.put (by omega) hbyte hput⟩ }
      · cases hstep
        have hdone : i.toNat + j = sz.toNat := by omega
        exact { h with prod := ⟨hbuf, hfit, hdone ▸ hwritten⟩ }
  | loadPos buf sz =>
      simp only [hpc, Option.some.injEq, Producer.Inv] at hstep hprod
      subst hstep
      exact { h with prod := ⟨hprod.1, hprod.2.1, rfl, hprod.2.2⟩ }
  | storePos buf sz w =>
      simp only [hpc, Option.some.injEq, Producer.Inv] at hstep hprod
      obtain ⟨hbuf, hfit, rfl, hwritten⟩ := hprod
      subst hstep
      exact h.publish hbuf hfit hwritten

/-- The consumer's step lemma: it may release positions. -/
theorem Threads.Inv.stepConsumer (h : s.Inv k p R) (hk : k ≤ 31)
    (hstep : s.stepConsumer = some s') : ∃ R', s'.Inv k p R' := by
  have hpow := Nat.two_pow_pos k
  have hsize := Nat.pow_le_pow_right (n := 2) (by omega) hk
  have hcons := h.cons
  have hdel := h.delivered
  unfold Threads.stepConsumer at hstep
  cases hpc : s.cons with
  | idle => simp [hpc] at hstep
  | emptyRead sz =>
      simp only [hpc, Option.some.injEq, Consumer.Inv, Consumer.copied] at hstep hcons hdel
      subst hstep
      exact ⟨R, { h with delivered := hdel, cons := rfl }⟩
  | emptyWrite sz r =>
      simp only [hpc, Consumer.Inv, Consumer.copied] at hstep hcons hdel
      split at hstep
      all_goals
        cases hstep
        exact ⟨R, { h with delivered := hdel, cons := trivial }⟩
  | lenWrite sz =>
      simp only [hpc, Option.some.injEq, Consumer.Inv, Consumer.copied] at hstep hcons hdel
      subst hstep
      exact ⟨R, { h with delivered := hdel, cons := (h.gap hk).le }⟩
  | lenRead sz w =>
      simp only [hpc, Consumer.Inv, Consumer.copied] at hstep hcons hdel
      split at hstep
      · rename_i hlt
        cases hstep
        rw [UInt32.lt_iff_toNat_lt] at hlt
        have := h.released
        refine ⟨R, { h with delivered := hdel, cons := ?_ }⟩
        change R + sz.toNat ≤ s.published.length
        omega
      · cases hstep
        exact ⟨R, { h with delivered := hdel, cons := trivial }⟩
  | takeWrite sz =>
      simp only [hpc, Option.some.injEq, Consumer.Inv, Consumer.copied] at hstep hcons hdel
      subst hstep
      exact ⟨R, { h with delivered := hdel, cons := (h.gap hk).le }⟩
  | takeRead sz w =>
      simp only [hpc, Option.some.injEq, Consumer.Inv, Consumer.copied] at hstep hcons hdel
      subst hstep
      have := h.released
      refine ⟨R, { h with delivered := hdel, cons := ?_ }⟩
      change R + (w - s.ring.readPos).toNat ≤ s.published.length
      omega
  | compare n =>
      simp only [hpc, Consumer.Inv, Consumer.copied] at hstep hcons hdel
      split at hstep
      all_goals
        rename_i hlt
        cases hstep
        rw [UInt32.lt_iff_toNat_lt, h.behind_slot, h.read_slot hk] at hlt
      · exact ⟨R, { h with delivered := hdel, cons := ⟨hcons, (Nat.min_eq_left hlt.le).symm⟩ }⟩
      · exact ⟨R, { h with delivered := hdel, cons := ⟨hcons, Nat.le_of_not_lt hlt⟩ }⟩
  | select n =>
      simp only [hpc, Option.some.injEq, Consumer.Inv, Consumer.copied] at hstep hcons hdel
      subst hstep
      refine ⟨R, { h with delivered := hdel, cons := ⟨hcons.1, ?_⟩ }⟩
      rw [h.behind_slot, h.read_slot hk]
      exact (Nat.min_eq_right hcons.2).symm
  | source n i =>
      simp only [hpc, Option.some.injEq, Consumer.Inv, Consumer.copied] at hstep hcons hdel
      subst hstep
      exact ⟨R, { h with
        delivered := hdel, cons := ⟨hcons.1, hcons.2, h.read_slot hk, Nat.zero_le _⟩ }⟩
  | copyFront n i src j =>
      simp only [hpc, Consumer.Inv, Consumer.copied] at hstep hcons hdel
      obtain ⟨hn, hi, rfl, hj⟩ := hcons
      split at hstep
      · rename_i hlt
        obtain ⟨byte, hbyte, hstep⟩ := Option.bind_eq_some_iff.mp hstep
        cases hstep
        rw [← add_mod_of_front (by omega)] at hbyte
        exact ⟨R, { h with
          delivered := h.delivered_get hdel (by omega) hbyte, cons := ⟨hn, hi, rfl, hlt⟩ }⟩
      · cases hstep
        have hdone : j = i.toNat := by omega
        exact ⟨R, { h with
          delivered := hdel.trans (by rw [hdone]; rfl), cons := ⟨hn, hi, by omega⟩ }⟩
  | copyRest n i j =>
      simp only [hpc, Consumer.Inv, Consumer.copied] at hstep hcons hdel
      obtain ⟨hn, hi, hj⟩ := hcons
      have hrest := UInt32.toNat_sub_of_le n i (UInt32.le_iff_toNat_le.mpr (by omega))
      split at hstep
      · rename_i hlt
        obtain ⟨byte, hbyte, hstep⟩ := Option.bind_eq_some_iff.mp hstep
        cases hstep
        have hslot : (p + R + (i.toNat + j)) % 2 ^ k = j :=
          add_mod_of_rest (by omega) (by have := h.room; omega)
        rw [← hslot] at hbyte
        have hnext : R + (i.toNat + j) < s.published.length := by omega
        exact ⟨R, { h with
          delivered := h.delivered_get hdel hnext hbyte, cons := ⟨hn, hi, by omega⟩ }⟩
      · cases hstep
        have hdone : i.toNat + j = n.toNat := by omega
        exact ⟨R, { h with delivered := hdel.trans (by rw [hdone]; rfl), cons := hn }⟩
  | loadPos n =>
      simp only [hpc, Option.some.injEq, Consumer.Inv, Consumer.copied] at hstep hcons hdel
      subst hstep
      exact ⟨R, { h with delivered := hdel, cons := ⟨hcons, rfl⟩ }⟩
  | storePos n r =>
      simp only [hpc, Option.some.injEq, Consumer.Inv, Consumer.copied] at hstep hcons hdel
      obtain ⟨hn, rfl⟩ := hcons
      subst hstep
      exact ⟨R + n.toNat, h.release hn hdel⟩

end Steps

/-! ## Runs -/

theorem Threads.Start.inv {k : ℕ} {s : Threads} (h : s.Start k) :
    s.Inv k s.ring.readPos.toNat 0 := by
  have := s.ring.readPos.toNat_lt
  refine ⟨h.size, h.length_buf, ?_, ?_, ?_, ?_, ?_, ?_, ?_, ?_⟩
  · rw [h.published, h.empty]
    simp only [List.length_nil]
    omega
  · omega
  · omega
  · simp [h.published]
  · simp [h.published]
  · simp [h.delivered, h.published]
  · rw [h.prod]
    trivial
  · rw [h.cons]
    trivial

theorem Threads.Inv.next {k p R : ℕ} {s s' : Threads} {a : Action} (h : s.Inv k p R)
    (hk : k ≤ 31) (hstep : s.next a = some s') : ∃ R', s'.Inv k p R' := by
  cases a with
  | callWrite buf sz henough =>
      simp only [Threads.next] at hstep
      split at hstep
      · cases hstep
        exact ⟨R, { h with prod := henough }⟩
      · cases hstep
  | producer => exact ⟨R, h.stepProducer hk hstep⟩
  | callRead sz =>
      simp only [Threads.next] at hstep
      split at hstep
      · rename_i hidle
        cases hstep
        have hdel := h.delivered
        rw [hidle] at hdel
        exact ⟨R, { h with delivered := hdel, cons := trivial }⟩
      · cases hstep
  | consumer => exact h.stepConsumer hk hstep

theorem Threads.Start.reachable_inv {k : ℕ} (hk : k ≤ 31) {s : Threads}
    (h : Reachable Threads.next (Threads.Start k) anyStep s) : ∃ p R, s.Inv k p R := by
  apply h.invariant
  · exact fun s hs => ⟨_, _, hs.inv⟩
  · rintro s s' a ⟨p, R, hinv⟩ - hnext
    exact ⟨p, hinv.next hk hnext⟩

/-- The slot of a published byte, counted back from `write_pos`. -/
theorem Threads.Inv.slot_behind {k p R : ℕ} {s : Threads} (h : s.Inv k p R) (hk : k ≤ 31)
    {i : ℕ} (hlow : R ≤ i) (hi : i < s.published.length) :
    (s.ring.slot (s.ring.writePos - .ofNat (s.published.length - i))).toNat =
      (p + i) % 2 ^ k := by
  have hsize := Nat.pow_le_pow_right (n := 2) (by omega) hk
  have hroom := h.room
  have hdist := Nat.sub_le_sub_left hlow s.published.length
  have hback : (s.ring.writePos - .ofNat (s.published.length - i)).toNat = (p + i) % 2 ^ 32 := by
    rw [UInt32.toNat_sub, UInt32.toNat_ofNat', h.writePos]
    omega
  rw [slot_toNat h.size, hback, Nat.mod_mod_of_dvd _ (Nat.pow_dvd_pow 2 (by omega))]

/-- In every interleaving the bytes delivered so far are a prefix of the bytes
whose write has been published, and the others are still in their slots. -/
theorem delivered_prefix_published {k : ℕ} (hk : k ≤ 31) {s : Threads}
    (h : Reachable Threads.next (Threads.Start k) anyStep s) :
    s.delivered <+: s.published ∧
      ∀ i, s.delivered.length ≤ i → i < s.published.length →
        s.ring.buf[(s.ring.slot
          (s.ring.writePos - .ofNat (s.published.length - i))).toNat]? = s.published[i]? := by
  obtain ⟨p, R, hinv⟩ := Threads.Start.reachable_inv hk h
  have hcopied := hinv.cons.copied_le hinv.released
  rw [hinv.delivered]
  refine ⟨List.take_prefix _ _, ?_⟩
  intro i hlow hi
  rw [List.length_take] at hlow
  rw [hinv.slot_behind hk (by omega) hi]
  exact hinv.stored i (by omega) hi

/-- Two bytes written across the end of the array and the wrap of the indices,
the first of them copied to the consumer. -/
theorem delivered_prefix_published_wrapped :
    ∃ s, exec Threads.next ⟨⟨[0, 0], 2, 0xffffffff, 0xffffffff⟩, .idle, .idle, [], []⟩
        (.callWrite [5, 6] 2 (by decide) :: List.replicate 11 .producer ++
          .callRead 1 :: List.replicate 8 .consumer) = some s ∧
      s.published = [5, 6] ∧ s.delivered = [5] ∧ s.delivered <+: s.published ∧
        s.ring.buf[0]? = some 6 := by
  have hexec : exec Threads.next ⟨⟨[0, 0], 2, 0xffffffff, 0xffffffff⟩, .idle, .idle, [], []⟩
      (.callWrite [5, 6] 2 (by decide) :: List.replicate 11 .producer ++
        .callRead 1 :: List.replicate 8 .consumer) =
      some ⟨⟨[6, 5], 2, 1, 0xffffffff⟩, .idle, .copyFront 1 1 1 1, [5, 6], [5]⟩ := rfl
  have hprefix := delivered_prefix_published (k := 1) (by decide)
    (reachable_of_exec ⟨rfl, rfl, rfl, rfl, rfl, rfl, rfl⟩ (admits_anyStep _ _) hexec)
  exact ⟨_, hexec, rfl, rfl, hprefix.1, hprefix.2 1 (by decide) (by decide)⟩

/-! ## No access leaves the array -/

theorem Threads.Inv.producer_progress {k p R : ℕ} {s : Threads} (h : s.Inv k p R)
    (hcall : s.prod ≠ .idle) : s.stepProducer.isSome := by
  have hprod := h.prod
  have hlen := h.length_buf
  have hpow := Nat.two_pow_pos k
  have hreleased := h.released
  unfold Threads.stepProducer
  cases hpc : s.prod with
  | idle => exact absurd hpc hcall
  | remainRead | compare =>
      dsimp only
      split <;> rfl
  | copyFront buf sz i dst j =>
      simp only [hpc, Producer.Inv] at hprod
      dsimp only
      split
      · rw [List.getElem?_eq_getElem (by omega)]
        dsimp only [Option.bind_eq_bind, Option.bind_some]
        rw [store_eq_some (by simp only [List.length_singleton]; omega)]
        rfl
      · rfl
  | copyRest buf sz i j =>
      simp only [hpc, Producer.Inv] at hprod
      dsimp only
      split
      · rename_i hlt
        have hrest := UInt32.toNat_sub_of_le sz i (UInt32.le_iff_toNat_le.mpr (by omega))
        rw [List.getElem?_eq_getElem (by omega)]
        dsimp only [Option.bind_eq_bind, Option.bind_some]
        rw [store_eq_some (by simp only [List.length_singleton]; omega)]
        rfl
      · rfl
  | _ => rfl

theorem Threads.Inv.consumer_progress {k p R : ℕ} {s : Threads} (h : s.Inv k p R)
    (hcall : s.cons ≠ .idle) : s.stepConsumer.isSome := by
  have hcons := h.cons
  have hlen := h.length_buf
  have hpow := Nat.two_pow_pos k
  have hroom := h.room
  unfold Threads.stepConsumer
  cases hpc : s.cons with
  | idle => exact absurd hpc hcall
  | emptyWrite | lenRead | compare =>
      dsimp only
      split <;> rfl
  | copyFront n i src j =>
      simp only [hpc, Consumer.Inv] at hcons
      dsimp only
      split
      · rw [List.getElem?_eq_getElem (by omega)]
        rfl
      · rfl
  | copyRest n i j =>
      simp only [hpc, Consumer.Inv] at hcons
      dsimp only
      split
      · rename_i hlt
        have hrest := UInt32.toNat_sub_of_le n i (UInt32.le_iff_toNat_le.mpr (by omega))
        rw [List.getElem?_eq_getElem (by omega)]
        rfl
      · rfl
  | _ => rfl

/-- A thread inside a call can always take its next step: no copy of a byte
addresses a slot outside the array or a byte outside the caller's message. -/
theorem in_call_progress {k : ℕ} (hk : k ≤ 31) {s : Threads}
    (h : Reachable Threads.next (Threads.Start k) anyStep s) :
    (s.prod ≠ .idle → s.stepProducer.isSome) ∧ (s.cons ≠ .idle → s.stepConsumer.isSome) := by
  obtain ⟨p, R, hinv⟩ := Threads.Start.reachable_inv hk h
  exact ⟨hinv.producer_progress, hinv.consumer_progress⟩

end ServerKit.Ringbuf
