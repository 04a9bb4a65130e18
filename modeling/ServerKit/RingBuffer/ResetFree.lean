import ServerKit.RingBuffer.Refinement

/-! # The reset of an empty ring in `ring_buffer.c`

`ring_buffer_get` returns both indices to zero when the ring has become empty,
`__ring_buffer_get` never does. Each ring stands for a queue, wherever its bytes lie and
however far its indices have wrapped, and no caller can tell the two apart. -/

namespace ServerKit.RingBuffer

open ServerKit.Transducer

/-- A call of a user who never resets the ring. The caller of a put hands over at
least `size` bytes. -/
inductive UserCall where
  | put (buffer : List UInt8) (size : UInt32) (enough : size.toNat ≤ buffer.length)
  | get (size : UInt32)
  | len

/-- A way to take bytes out: the ring left behind, the count returned and the bytes. -/
abbrev Getter := RingBuffer → UInt32 → Option (RingBuffer × UInt32 × List UInt8)

/-- One call, answered with the returned value and the delivered bytes. -/
def userStep (get : Getter) (r : RingBuffer) :
    UserCall → Option (RingBuffer × UInt32 × List UInt8)
  | .put buffer size _ => (ringBufferPut r buffer size).map fun out => (out.1, out.2, [])
  | .get size => get r size
  | .len => some (r, ringBufferLen r, [])

/-- The answers of a bounded byte queue. -/
def queueAnswer {capacity : ℕ} (q : Fifo UInt8 capacity) :
    UserCall → Fifo UInt8 capacity × UInt32 × List UInt8
  | .put buffer size _ =>
    (q.fill (buffer.take size.toNat), UInt32.ofNat (min size.toNat q.room), [])
  | .get size =>
    (q.drop size.toNat, UInt32.ofNat (q.front size.toNat).length, q.front size.toNat)
  | .len => (q, UInt32.ofNat q.items.length, [])

/-- A get that takes the oldest bytes of every ring whose size divides the range of the
indices. -/
def TakesOldest (get : Getter) : Prop :=
  ∀ (capacity : ℕ) (r : RingBuffer) (q : Fifo UInt8 capacity) (size : UInt32),
    Represents r q → r.size.toNat ∣ 2 ^ 32 →
      ∃ r' ret, get r size = some (r', ret, q.front size.toNat) ∧ r'.size = r.size ∧
        Represents r' (q.drop size.toNat) ∧ ret.toNat = (q.front size.toNat).length

/-- The size is a fixed field of the ring that is represented. -/
theorem Represents.size_eq {capacity : ℕ} {r r' : RingBuffer} {q q' : Fifo UInt8 capacity}
    (h : Represents r q) (h' : Represents r' q') : r'.size = r.size := by
  apply UInt32.toNat_inj.mp
  rw [h.size, h'.size]

theorem rawGet_takesOldest : TakesOldest _ringBufferGet := by
  intro capacity r q size h hdvd
  rcases _ringBufferGet_spec h size (Or.inl hdvd) with ⟨r', ret, hget, hrep, hret⟩
  exact ⟨r', ret, hget, h.size_eq hrep, hrep, hret⟩

theorem resettingGet_takesOldest : TakesOldest ringBufferGet := by
  intro capacity r q size h hdvd
  rcases ringBufferGet_spec h size (Or.inl hdvd) with ⟨r', ret, hget, hrep, hret⟩
  exact ⟨r', ret, hget, h.size_eq hrep, hrep, hret⟩

/-- A ring of a power of two that stands for a queue. -/
def Simulates {capacity : ℕ} (r : RingBuffer) (q : Fifo UInt8 capacity) : Prop :=
  Represents r q ∧ r.size.toNat ∣ 2 ^ 32

theorem userStep_spec {get : Getter} (hget : TakesOldest get) {capacity : ℕ} {r : RingBuffer}
    {q : Fifo UInt8 capacity} (h : Simulates r q) (op : UserCall) :
    ∃ r', userStep get r op = some (r', (queueAnswer q op).2) ∧
      Simulates r' (queueAnswer q op).1 := by
  rcases h with ⟨hrep, hdvd⟩
  cases op with
  | put buffer size henough =>
      rcases _ringBufferPut_spec hrep buffer size henough (Or.inl hdvd) with
        ⟨r', ret, hput, hrep', hret⟩
      have hsize : r'.size = r.size := hrep.size_eq hrep'
      have hanswer : ret = UInt32.ofNat (min size.toNat q.room) := by
        rw [← hret, UInt32.ofNat_toNat]
      refine ⟨r', ?_, hrep', ?_⟩
      · simp only [userStep, ringBufferPut, hput, Option.map_some, queueAnswer, hanswer]
      · rw [hsize]
        exact hdvd
  | get size =>
      rcases hget capacity r q size hrep hdvd with ⟨r', ret, hrun, hsize, hrep', hret⟩
      have hanswer : ret = UInt32.ofNat (q.front size.toNat).length := by
        rw [← hret, UInt32.ofNat_toNat]
      refine ⟨r', ?_, hrep', ?_⟩
      · simp only [userStep, hrun, queueAnswer, hanswer]
      · rw [hsize]
        exact hdvd
  | len =>
      have hanswer : ringBufferLen r = UInt32.ofNat q.items.length := by
        rw [← hrep.len, UInt32.ofNat_toNat]
        rfl
      refine ⟨r, ?_, hrep, hdvd⟩
      simp only [userStep, queueAnswer, hanswer]

/-- Every run on a ring of a power of two gives the answers of the byte queue. -/
theorem run_userStep {get : Getter} (hget : TakesOldest get) (buffer : List UInt8)
    (size : UInt32) (hdvd : size.toNat ∣ 2 ^ 32) (hbuffer : buffer.length = size.toNat)
    (ops : List UserCall) :
    ∃ r', run (userStep get) (ringBufferInit buffer size) ops =
      some (r', (runTotal queueAnswer (Fifo.empty : Fifo UInt8 size.toNat) ops).2) := by
  have hpos : 0 < size.toNat := Nat.pos_of_dvd_of_pos hdvd (by decide)
  have hstart : Simulates (ringBufferInit buffer size) (Fifo.empty : Fifo UInt8 size.toNat) :=
    ⟨represents_empty hpos rfl hbuffer rfl, hdvd⟩
  rcases run_simulates (fun _ _ => True) Simulates
    (fun _ _ op h _ => userStep_spec hget h op) hstart
    (admits_of_forall (userStep get) (fun _ _ => trivial) _ ops) with ⟨r', hrun, -⟩
  exact ⟨r', hrun⟩

/-- On a ring of a power of two, a run with `ring_buffer_get` and the same run with
`__ring_buffer_get` return the same values and deliver the same bytes, call by call. -/
theorem reset_unobservable (buffer : List UInt8) (size : UInt32) (k : ℕ)
    (hsize : size.toNat = 2 ^ k) (hbuffer : buffer.length = size.toNat) (ops : List UserCall) :
    ∃ r r' answers,
      run (userStep ringBufferGet) (ringBufferInit buffer size) ops = some (r, answers) ∧
      run (userStep _ringBufferGet) (ringBufferInit buffer size) ops = some (r', answers) := by
  have hdvd : size.toNat ∣ 2 ^ 32 := by
    rw [hsize]
    apply Nat.pow_dvd_pow
    have hlt := size.toNat_lt
    rw [hsize] at hlt
    exact (Nat.pow_lt_pow_iff_right (by decide)).mp hlt |>.le
  rcases run_userStep resettingGet_takesOldest buffer size hdvd hbuffer ops with ⟨r, hreset⟩
  rcases run_userStep rawGet_takesOldest buffer size hdvd hbuffer ops with ⟨r', hkeep⟩
  exact ⟨r, r', _, hreset, hkeep⟩

/-- Two slots, emptied twice and filled across the end of the storage area. -/
theorem reset_unobservable_two :
    ∃ r r' answers,
      run (userStep ringBufferGet) (ringBufferInit [7, 8] 2)
        [.put [1] 1 (by decide), .get 1, .put [2, 3, 4] 3 (by decide), .len, .get 9] =
          some (r, answers) ∧
      run (userStep _ringBufferGet) (ringBufferInit [7, 8] 2)
        [.put [1] 1 (by decide), .get 1, .put [2, 3, 4] 3 (by decide), .len, .get 9] =
          some (r', answers) :=
  reset_unobservable [7, 8] 2 1 rfl rfl _

end ServerKit.RingBuffer
