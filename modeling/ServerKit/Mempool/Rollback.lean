import ServerKit.Mempool.Atomic
import ServerKit.Mempool.Failures

/-! # Calls that return `NULL`, in memory

As long as the pool does not write over its own data, a call that returns `NULL` leaves them as they
are, unless it has placed a block at the address 0. -/

namespace ServerKit.Mempool

open ServerKit.System ServerKit.SystemHeap ServerKit.WordMemory

/-- The calls that return a pointer. -/
def Call.Obtains : Call → Prop
  | .mpAlloc _ _ | .mpNalloc _ _ | .mpCalloc _ _ | .mpMemalign _ _ _ => True
  | .mpFree _ | .mpResetPool | .store _ _ => False

/-- If the call returns `NULL`, the memory holds the same pool as before, with `max`, `current`, the
records, and `last`, `end`, `next` and `failed` of every node, and every region obtained during the
call has been freed. -/
def Heap.Atomic (fuel pool : ℕ) (h : Heap) (c : Call) : Prop :=
  c.Obtains → ∀ h', h.call fuel pool c = some (h', 0) →
    ∃ s, h.Shows s ∧ s.pool.addr = pool ∧ Represents h'.mem s.pool ∧ live h'.trace = live h.trace

def State.Nonnull (s : State) : Op ⊕ ℕ → Prop
  | .inl op => Mempool.Nonnull s op
  | .inr _ => True

instance (s : State) : (x : Op ⊕ ℕ) → Decidable (s.Nonnull x)
  | .inl op => inferInstanceAs (Decidable (Mempool.Nonnull s op))
  | .inr _ => .isTrue trivial

/-- The call places no block at the address 0, or one without an effect. -/
def Heap.Nonnull (pool : ℕ) (h : Heap) (c : Call) : Prop :=
  ∃ s, h.Shows s ∧ s.pool.addr = pool ∧ s.Nonnull c.shape

variable {heap : Heap} {s : State} {calls : List Call} {c : Call} {contents : ℕ → ℕ}
  {fuel p size : ℕ}

/-! ## One call -/

/-- On the lists. -/
theorem nonnull_iff (hmax : sizeofLarge ≤ s.pool.max) (hbound : s.pool.max < 2 ^ 64)
    (hlawful : Lawful (s.after c.shape).1.trace) :
    s.Nonnull c.shape ↔ (c.Obtains → (s.after c.shape).2 = 0 →
      (s.after c.shape).1.pool = s.pool ∧ live (s.after c.shape).1.trace = live s.trace) := by
  have hiff : ∀ {op}, Lawful (step s op).1.trace → (Mempool.Nonnull s op ↔ Mempool.Atomic s op) :=
    fun h => (atomic_iff_nonnull hmax hbound h).symm
  cases c with
  | mpAlloc size grants => exact (hiff hlawful).trans ⟨fun h _ => h, fun h => h trivial⟩
  | mpNalloc size grants => exact (hiff hlawful).trans ⟨fun h _ => h, fun h => h trivial⟩
  | mpCalloc size grants => exact (hiff hlawful).trans ⟨fun h _ => h, fun h => h trivial⟩
  | mpMemalign size alignment grants =>
    exact (hiff hlawful).trans ⟨fun h _ => h, fun h => h trivial⟩
  | mpFree p => exact iff_of_true trivial fun h => h.elim
  | mpResetPool => exact iff_of_true trivial fun h => h.elim
  | store a v => exact iff_of_true trivial fun h => h.elim

/-- The memory shows the same pool as before exactly if the lists are the same. -/
theorem Heap.Holds.same_iff {heap' : Heap} {s' : State} (h : heap.Holds s [])
    (h' : heap'.Holds s' []) (haddr : s'.pool.addr = s.pool.addr) :
    (∃ t, heap.Shows t ∧ t.pool.addr = s.pool.addr ∧ Represents heap'.mem t.pool ∧
        live heap'.trace = live heap.trace) ↔
      s'.pool = s.pool ∧ live s'.trace = live s.trace := by
  rw [h.trace, h'.trace]
  constructor
  · rintro ⟨t, ht, htaddr, hsame, hlive⟩
    cases h.toShows.unique ht htaddr.symm
    exact ⟨h'.pool.unique hsame haddr, hlive⟩
  · rintro ⟨hpool, hlive⟩
    exact ⟨s, h.toShows, rfl, hpool ▸ h'.pool, hlive⟩

theorem Heap.Holds.atomic_iff (h : heap.Holds s []) (hchain : s.pool.chain.length < fuel)
    (hlarge : s.pool.large.length < fuel) (hcareful : heap.Careful s.pool.addr c)
    (hmax : sizeofLarge ≤ s.pool.max) (hbound : s.pool.max < 2 ^ 64) :
    (heap.call fuel s.pool.addr c).isSome ∧
      (heap.Atomic fuel s.pool.addr c ↔ heap.Nonnull s.pool.addr c) := by
  obtain ⟨hspared, hlawful⟩ := hcareful.of_shows h.toShows
  obtain ⟨heap', hcall, hheld⟩ := call_holds h hchain hlarge hspared hlawful
  have haddr := (after_grows h.intact.small c.shape).addr
  have hnonnull : heap.Nonnull s.pool.addr c ↔ s.Nonnull c.shape := by
    constructor
    · rintro ⟨t, ht, htaddr, hn⟩
      cases h.toShows.unique ht htaddr.symm
      exact hn
    · exact fun hn => ⟨s, h.toShows, rfl, hn⟩
  refine ⟨by rw [hcall]; rfl, ?_⟩
  rw [hnonnull, nonnull_iff hmax hbound hlawful, Heap.Atomic]
  refine forall_congr' fun _ => ?_
  rw [← h.same_iff hheld haddr, hcall]
  constructor
  · exact fun hatomic hret => hatomic heap' (by rw [hret])
  · intro hsame k hk
    obtain ⟨rfl, hret⟩ := Prod.mk.inj (Option.some.inj hk)
    exact hsame hret

/-! ## Runs -/

/-- **Failure atomicity.** After every run in which nothing is written over the pool's own data, a
call that does not write over them either comes to an end, and it is atomic exactly if it places no
block at the address 0. -/
theorem run_atomic_iff (hrecord : sizeofLarge ≤ size) (hsize : SizeFits size)
    (hnull : contents (p + 40) = 0) (hlawful : Lawful (createPool p size contents).trace)
    (hcareful : Admits (Heap.next fuel p) (Heap.Careful p) (createPool p size contents)
      (calls ++ [c]))
    (hfuel : calls.length + 1 < fuel)
    (hexec : exec (Heap.next fuel p) (createPool p size contents) calls = some heap) :
    (heap.call fuel p c).isSome ∧ (heap.Atomic fuel p c ↔ heap.Nonnull p c) := by
  obtain ⟨hbefore, hafter⟩ := hcareful.append
  have hbefore' : Admits (Source.mmpool.next fuel p) (Source.mmpool.Careful p)
      (createPool p size contents) calls := hbefore
  obtain ⟨s, hs, haddr, hmax, hchain, hlarge⟩ := Source.holds_exec (k := 0)
    (createPool_holds hsize hlawful hnull) (created_room p size hfuel) hbefore' hexec
  obtain ⟨hsmall, hbound⟩ := mpCreatePool_max (p := p) hrecord
  have hlast := (hafter heap hexec).1
  have hp : s.pool.addr = p := haddr
  rw [← hp] at hlast ⊢
  exact hs.atomic_iff hchain hlarge hlast (hmax ▸ hsmall) (hmax ▸ hbound)

/-- A large block whose record needs a node that the system does not have. -/
theorem run_atomic_iff_withoutNode :
    ∃ heap heap', exec (Heap.next 4 4096) (createPool 4096 104 fun _ => 0) [.mpNalloc 100 []] =
        some heap ∧
      heap.call 4 4096 (.mpAlloc 600 [some (262144, fun _ => 7), none]) = some (heap', 0) ∧
      heap.Atomic 4 4096 (.mpAlloc 600 [some (262144, fun _ => 7), none]) := by
  have hcreated : (createPool 4096 104 fun _ => 0).Holds (mpCreatePool 4096 104) [] :=
    createPool_holds (by decide) (by decide) rfl
  obtain ⟨heap, hexec, hheld⟩ : ∃ heap, exec (Heap.next 4 4096) (createPool 4096 104 fun _ => 0)
      [.mpNalloc 100 []] = some heap ∧ heap.Holds _ [] :=
    exec_of_shapes hcreated ⟨by decide, by decide⟩ (by decide +kernel) rfl
  have hcareful : Admits (Heap.next 4 4096) (Heap.Careful 4096) (createPool 4096 104 fun _ => 0)
      ([.mpNalloc 100 []] ++ [.mpAlloc 600 [some (262144, fun _ => 7), none]]) :=
    admits_of_shapes hcreated ⟨by decide, by decide⟩ (by decide +kernel)
  have hcall : ∃ heap', heap.call 4 4096 (.mpAlloc 600 [some (262144, fun _ => 7), none]) =
      some (heap', 0) := by
    cases hexec
    exact ⟨_, rfl⟩
  obtain ⟨heap', hcall⟩ := hcall
  exact ⟨heap, heap', hexec, hcall, (run_atomic_iff (by decide) (by decide) rfl (by decide) hcareful
    (by decide) hexec).2.mpr ⟨_, hheld.toShows, rfl, by decide⟩⟩

/-! ## Blocks at the address 0 -/

/-- The second node lies right behind the third one. -/
def overlaid : List Call :=
  [.mpAlloc 4064 [], .mpAlloc 4064 [some (135200, fun _ => 0)],
    .mpAlloc 4040 [some (131072, fun _ => 0)], .mpNalloc 32 [],
    .mpAlloc 8192 [some (65536, fun _ => 0)]]

/-- `mp_nalloc` fills the third node up, and the record of the large block lies over the header of
the second one, whose `last` is now the record's `next`: the next call returns `NULL` and moves
`last`. -/
theorem mpAlloc_null_moves :
    Lawful (createPool 4096 4072 fun _ => 0).trace ∧
      ∃ heap heap', exec (Heap.next 4 4096) (createPool 4096 4072 fun _ => 0) overlaid = some heap ∧
        heap.call 4 4096 (.mpAlloc 100 []) = some (heap', 0) ∧ Lawful heap'.trace ∧
        Linked heap.mem 16 4120 [4120, 135200, 131072] ∧ heap.mem 135200 = 0 ∧
        heap'.mem 135200 = 100 ∧ ¬ heap.Atomic 4 4096 (.mpAlloc 100 []) := by
  have hrun : ∃ heap ∈ exec (Heap.next 4 4096) (createPool 4096 4072 fun _ => 0) overlaid,
      ∃ r ∈ heap.call 4 4096 (.mpAlloc 100 []), r.2 = 0 ∧ Lawful r.1.trace ∧
        (heap.mem 4136 = 135200 ∧ heap.mem 135216 = 131072 ∧ heap.mem 131088 = 0) ∧
        heap.mem 135200 = 0 ∧ r.1.mem 135200 = 100 := by
    decide +kernel
  obtain ⟨heap, hexec, ⟨heap', _⟩, hcall, rfl, hlawful, ⟨hhead, hsecond, hthird⟩, hbefore,
    hafter⟩ := hrun
  have hchain : Linked heap.mem 16 4120 [4120, 135200, 131072] := by
    simp [linked_cons, linked_nil, hhead, hsecond, hthird]
  refine ⟨by decide, heap, heap', hexec, hcall, hlawful, hchain, hbefore, hafter, fun h => ?_⟩
  obtain ⟨s, hs, haddr, hsame, -⟩ := h trivial heap' hcall
  have hnodes := hs.pool.chain
  rw [hs.pool.head, haddr] at hnodes
  have hmem : 135200 ∈ s.pool.chain.map (·.addr) := by
    rw [hnodes.unique hchain]
    decide
  obtain ⟨n, hn, hat⟩ := List.mem_map.mp hmem
  have hlast := (hs.pool.nodes n hn).last.trans (hsame.nodes n hn).last.symm
  rw [hat, hbefore, hafter] at hlast
  cases hlast

/-- The pool of 4095 bytes at 4224, whose head has this `last`. -/
def overrun (last : ℕ) : State :=
  { mpCreatePool 4224 4095 with
    pool := { (mpCreatePool 4224 4095).pool with head := ⟨4248, last, 8375, 0⟩ } }

/-- Behind the end of the head, every request is served. -/
theorem after_overrun {last : ℕ} (hdvd : MP_ALIGNMENT ∣ last) (hlt : last < 2 ^ 64)
    (hbehind : 8375 < last) :
    (overrun last).after (.inl (.mpAlloc 4064 [])) = (overrun (add64 last 4064), last) := by
  have hround : mpAlignPtr last = last := mpAlignPtr_of_dvd hdvd hlt
  have htest : sub64 8375 last ≥ 4064 := by
    simp only [sub64]
    omega
  have htake : takeFrom mpAlignPtr 4064 [⟨4248, last, 8375, 0⟩] =
      some (last, [⟨4248, add64 last 4064, 8375, 0⟩]) := by
    simp only [takeFrom, hround, if_pos htest]
  have hsmall : 4064 ≤ (overrun last).pool.max := by
    show 4064 ≤ (mpCreatePool 4224 4095).pool.max
    decide
  have hdrop : (overrun last).pool.chain.drop (overrun last).pool.current =
      [⟨4248, last, 8375, 0⟩] := rfl
  simp only [State.after, step, mpAlloc, if_pos hsmall, allocSmall, hdrop, htake]
  rfl

/-- No record is needed, and no block cleared. -/
theorem careful_overrun {last : ℕ} (hdvd : MP_ALIGNMENT ∣ last) (hlt : last < 2 ^ 64)
    (hbehind : 8375 < last) : (overrun last).Careful (.inl (.mpAlloc 4064 [])) := by
  have hmax : (overrun last).pool.max = 4095 := rfl
  refine ⟨fun hlarge => ?_, ?_⟩
  · rw [hmax] at hlarge
    omega
  · rw [after_overrun hdvd hlt hbehind]
    show Lawful (mpCreatePool 4224 4095).trace
    decide

/-- `last` goes on by 4064 bytes with every call. -/
theorem run_overrun (n last : ℕ) (hdvd : MP_ALIGNMENT ∣ last) (hbehind : 8375 < last)
    (hn : last + 4064 * n < 2 ^ 64) :
    Admits State.next State.Careful (overrun last)
        (List.replicate n (.inl (.mpAlloc 4064 []))) ∧
      exec State.next (overrun last) (List.replicate n (.inl (.mpAlloc 4064 []))) =
        some (overrun (last + 4064 * n)) := by
  induction n generalizing last with
  | zero => exact ⟨trivial, rfl⟩
  | succ n ih =>
      have hsum : last + 4064 + 4064 * n = last + 4064 * (n + 1) := by omega
      rw [← hsum] at hn ⊢
      have hlt' : last + 4064 < 2 ^ 64 := Nat.lt_of_le_of_lt (Nat.le_add_right _ _) hn
      have hlt : last < 2 ^ 64 := Nat.lt_of_le_of_lt (Nat.le_add_right _ _) hlt'
      have hadd : add64 last 4064 = last + 4064 := Nat.mod_eq_of_lt hlt'
      have hafter := after_overrun hdvd hlt hbehind
      rw [hadd] at hafter
      obtain ⟨hadmits, hexec⟩ :=
        ih (last + 4064) (Nat.dvd_add hdvd (by decide)) (Nat.lt_add_right 4064 hbehind) hn
      rw [List.replicate_succ, exec, State.next, hafter, Option.bind_some, hexec]
      refine ⟨⟨careful_overrun hdvd hlt hbehind, fun t ht => ?_⟩, rfl⟩
      rw [State.next, hafter] at ht
      cases ht
      exact hadmits

/-- From `mp_create_pool` on until `last` has gone around. -/
theorem run_wrapped : ∃ n,
    Admits State.next State.Careful (mpCreatePool 4224 4095)
        ([.inl (.mpAlloc 4087 []), .inl (.mpAlloc 4064 [])] ++
          (List.replicate n (.inl (.mpAlloc 4064 [])) ++ [.inl (.mpAlloc 4064 [])])) ∧
      exec State.next (mpCreatePool 4224 4095)
        ([.inl (.mpAlloc 4087 []), .inl (.mpAlloc 4064 [])] ++
          (List.replicate n (.inl (.mpAlloc 4064 [])) ++ [.inl (.mpAlloc 4064 [])])) =
        some (overrun 0) := by
  obtain ⟨n, hn⟩ : ∃ n, 12448 + 4064 * n + 4064 = 2 ^ 64 := ⟨4539061041759236, rfl⟩
  have hlt : 12448 + 4064 * n < 2 ^ 64 := by omega
  have hdvd : MP_ALIGNMENT ∣ 12448 + 4064 * n := by
    rw [MP_ALIGNMENT]
    omega
  have hwrap : add64 (12448 + 4064 * n) 4064 = 0 := by rw [add64, hn, Nat.mod_self]
  obtain ⟨hadmits, hexec⟩ := run_overrun n 12448 (by decide) (by decide) hlt
  have hlast := after_overrun hdvd hlt (by omega)
  rw [hwrap] at hlast
  have hfirst : exec State.next (mpCreatePool 4224 4095)
      [.inl (.mpAlloc 4087 []), .inl (.mpAlloc 4064 [])] = some (overrun 12448) := rfl
  refine ⟨n, admits_append (by decide +kernel) fun s hs => ?_, ?_⟩
  · rw [hfirst] at hs
    cases hs
    refine admits_append hadmits fun s hs => ?_
    rw [hexec] at hs
    cases hs
    exact ⟨careful_overrun hdvd hlt (by omega), fun _ _ => trivial⟩
  · rw [exec_append, hfirst, Option.bind_some, exec_append, hexec, Option.bind_some, exec,
      State.next, hlast, Option.bind_some, exec]

/-- Also without a write over the pool's own data: after some 4.5 * 10 ^ 15 blocks `last` has gone
around, and the call that follows returns `NULL` and moves it. -/
theorem wrapped_null_moves :
    ∃ fuel calls heap, Admits (Heap.next fuel 4224) (Heap.Careful 4224)
        (createPool 4224 4095 fun _ => 0) (calls ++ [.mpAlloc 4064 []]) ∧
      exec (Heap.next fuel 4224) (createPool 4224 4095 fun _ => 0) calls = some heap ∧
      ¬ heap.Atomic fuel 4224 (.mpAlloc 4064 []) := by
  obtain ⟨n, hadmits, hexec⟩ := run_wrapped
  let calls : List Call := [.mpAlloc 4087 [], .mpAlloc 4064 []] ++
    (List.replicate n (.mpAlloc 4064 []) ++ [.mpAlloc 4064 []])
  have hshape : calls.map Call.shape = [.inl (.mpAlloc 4087 []), .inl (.mpAlloc 4064 [])] ++
      (List.replicate n (.inl (.mpAlloc 4064 [])) ++ [.inl (.mpAlloc 4064 [])]) := by
    rw [List.map_append, List.map_append, List.map_replicate]
    rfl
  have hcreated : (createPool 4224 4095 fun _ => 0).Holds (mpCreatePool 4224 4095) [] :=
    createPool_holds (by decide) (by decide) rfl
  have hroom := created_room 4224 4095 (Nat.lt_succ_self (calls.length + 1))
  obtain ⟨heap, hrun, hheld⟩ := exec_of_shapes hcreated hroom (hshape ▸ hadmits) (hshape ▸ hexec)
  have hlast : heap.Careful 4224 (.mpAlloc 4064 []) :=
    ⟨overrun 0, hheld.toShows, rfl, by decide +kernel⟩
  refine ⟨_, calls, heap, admits_append (admits_of_shapes hcreated hroom (hshape ▸ hadmits))
    fun t ht => ?_, hrun, fun hatomic => ?_⟩
  · obtain rfl : heap = t := Option.some.inj (hrun.symm.trans ht)
    exact ⟨hlast, fun _ _ => trivial⟩
  · have hchain : (overrun 0).pool.chain.length < (calls.length + 1).succ :=
      Nat.succ_lt_succ (Nat.succ_pos _)
    have hiff := (hheld.atomic_iff hchain (Nat.succ_pos _) hlast (by decide) (by decide)).2
    obtain ⟨s, hs, haddr, hnonnull⟩ := hiff.mp hatomic
    cases hs.unique hheld.toShows haddr
    exact absurd hnonnull (by decide)

end ServerKit.Mempool
