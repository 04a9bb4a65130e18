import ServerKit.Mempool.Nesting

/-! # Large blocks of `yzx_mempool.c`

A large block is put into a record, from which `mp_free` takes it. `mp_alloc` does not hand over
its address: the `else` branch drops the value of `mp_alloc_large`. -/

namespace ServerKit.Mempool

open ServerKit.System ServerKit.SystemHeap ServerKit.WordMemory

/-- The records of large blocks, with the blocks in them. -/
def Heap.Records (h : Heap) (pool : ℕ) (records : List (ℕ × ℕ)) : Prop :=
  Linked h.mem 0 (h.mem (pool + 16)) (records.map Prod.fst) ∧
    ∀ r ∈ records, h.mem (r.1 + 8) = r.2

/-- The block is in exactly one record. `mp_free` frees it and empties the record. -/
def Heap.Recorded (fuel : ℕ) (h : Heap) (pool p : ℕ) : Prop :=
  ∃ pre l post, h.Records pool (pre ++ (l, p) :: post) ∧ (∀ r ∈ pre ++ post, r.2 ≠ p) ∧
    ∃ freed, h.mpFree fuel pool p = some freed ∧ freed.trace = .free p :: h.trace ∧
      freed.Records pool (pre ++ (l, 0) :: post)

/-- `mp_alloc` returns `NULL` and leaves the records as they are, or a block that is recorded. -/
def Yzx.GivesBack (fuel : ℕ) (grants : Grants) (h : Heap) (pool size : ℕ) : Prop :=
  ∃ h' p, Yzx.mpAlloc fuel grants h pool size = some (h', some p) ∧
    if p = 0 then ∃ records, h.Records pool records ∧ h'.Records pool records
    else h'.Recorded fuel pool p

variable {heap heap' : Heap} {s : State} {grants : Grants} {contents : ℕ → ℕ}
  {fuel p pool size : ℕ} {ret : Option ℕ}

/-! ## The records -/

theorem Represents.records {state : Pool} (h : Represents heap.mem state) :
    heap.Records state.addr (state.large.map fun l => (l.addr, l.alloc)) := by
  constructor
  · rw [List.map_map]
    exact h.large
  · simpa using h.allocs

/-- A block that is in one record only. -/
theorem exists_record {large : List Large} (hp : p ≠ 0) (hnodup : (blocksOf large).Nodup)
    (hmem : p ∈ blocksOf large) :
    ∃ pre l post, large = pre ++ l :: post ∧ l.alloc = p ∧ ∀ k ∈ pre ++ post, k.alloc ≠ p := by
  induction large with
  | nil => cases hmem
  | cons k large ih =>
      by_cases hnull : k.alloc = 0
      · rw [blocksOf_cons_null hnull] at hnodup hmem
        obtain ⟨pre, l, post, rfl, hl, hne⟩ := ih hnodup hmem
        refine ⟨k :: pre, l, post, rfl, hl, ?_⟩
        rw [List.cons_append, List.forall_mem_cons]
        exact ⟨hnull ▸ hp.symm, hne⟩
      · rw [blocksOf_cons hnull] at hnodup hmem
        obtain ⟨hfirst, hnodup⟩ := List.nodup_cons.mp hnodup
        rcases List.mem_cons.mp hmem with rfl | hmem
        · refine ⟨[], k, large, rfl, rfl, fun l hl heq => hfirst ?_⟩
          rw [blocksOf, List.mem_filter]
          exact ⟨heq ▸ List.mem_map_of_mem hl, by simpa using hnull⟩
        · obtain ⟨pre, l, post, rfl, hl, hne⟩ := ih hnodup hmem
          refine ⟨k :: pre, l, post, rfl, hl, ?_⟩
          rw [List.cons_append, List.forall_mem_cons]
          exact ⟨fun heq => hfirst (heq ▸ hmem), hne⟩

/-- The first record of a block loses it. -/
theorem dropBlock_append {pre post : List Large} {l : Large}
    (hpre : ∀ k ∈ pre, k.alloc ≠ l.alloc) :
    dropBlock l.alloc (pre ++ l :: post) = some (pre ++ { l with alloc := 0 } :: post) := by
  induction pre with
  | nil => simp [dropBlock]
  | cons k pre ih =>
      have hne : l.alloc ≠ k.alloc := (hpre k List.mem_cons_self).symm
      simp [dropBlock, hne, ih fun n hn => hpre n (List.mem_cons_of_mem _ hn)]

/-- Every block of a pool is recorded. -/
theorem recorded_of_holds (h : heap.Holds s []) (hlarge : s.pool.large.length < fuel) (hp : p ≠ 0)
    (hmem : p ∈ blocksOf s.pool.large) : heap.Recorded fuel s.pool.addr p := by
  have hnodup : (blocksOf s.pool.large).Nodup := by
    have howned := h.intact.owns.bases.nodup_iff.mp h.intact.lawful.nodup
    exact (List.nodup_append.mp (List.nodup_append.mp howned).2.1).2.1
  obtain ⟨pre, l, post, hsplit, rfl, hne⟩ := exists_record hp hnodup hmem
  have hdrop : dropBlock l.alloc s.pool.large = some (pre ++ { l with alloc := 0 } :: post) := by
    rw [hsplit]
    exact dropBlock_append fun k hk => hne k (List.mem_append_left _ hk)
  obtain ⟨freed, hfree, hfreed⟩ := mpFree_holds (p := l.alloc) h hlarge
  rw [mpFree, hdrop] at hfreed
  refine ⟨pre.map fun k => (k.addr, k.alloc), l.addr, post.map fun k => (k.addr, k.alloc), ?_, ?_,
    freed, hfree, ?_, ?_⟩
  · have hrecords := h.pool.records
    rw [hsplit] at hrecords
    simpa using hrecords
  · simpa [or_imp, forall_and] using hne
  · rw [hfreed.trace, h.trace]
    rfl
  · simpa [State.log] using hfreed.pool.records

/-! ## The call -/

/-- A large block that `mp_alloc` has got is recorded when it ends. -/
theorem largeAfter_block {answers : Answers} (hp : p ≠ 0)
    (hrecord : reuseRecord p 0 s.pool.large = none → sizeofPool ≤ s.pool.max ∧
      (allocSmall mpAlignPtr answers (s.log (.obtain 16 ⟨p, size⟩)) sizeofPool).ret ≠ 0) :
    p ∈ blocksOf (Yzx.largeAfter (some p :: answers) s size).pool.large := by
  rw [Yzx.largeAfter]
  cases hreuse : reuseRecord p 0 (s.log (.obtain 16 ⟨p, size⟩)).pool.large with
  | some large => exact (reuseRecord_blocksOf hp hreuse).symm.subset List.mem_cons_self
  | none =>
      obtain ⟨hmax, hret⟩ := hrecord hreuse
      have hmax' : sizeofPool ≤ (s.log (.obtain 16 ⟨p, size⟩)).pool.max := hmax
      simp only [if_pos hmax', Yzx.recordAfter, if_neg hret, addRecord]
      rw [blocksOf_cons hp]
      exact List.mem_cons_self

/-- A call that ends with a new record has found memory for it. -/
theorem Yzx.mpAllocLarge_record {out : Heap × Option ℕ} (h : heap.Holds s [])
    (hchain : s.pool.chain.length < fuel) (hlarge : s.pool.large.length < fuel)
    (hlawful : Lawful (largeAfter (some p :: grants.addrs) s size).trace)
    (hcall : Yzx.mpAllocLarge fuel (some (p, contents) :: grants) heap s.pool.addr size = some out)
    (hnone : reuseRecord p 0 s.pool.large = none) :
    sizeofPool ≤ s.pool.max ∧
      (allocSmall mpAlignPtr grants.addrs (s.log (.obtain 16 ⟨p, size⟩)) sizeofPool).ret ≠ 0 := by
  have hobtained := obtain_holds h contents (hlawful.of_suffix largeAfter_suffix).1
  have hfind : findSpare (heap.obtain 16 ⟨p, size⟩ contents).mem fuel
      ((heap.obtain 16 ⟨p, size⟩ contents).mem (s.pool.addr + 16)) 0 = some 0 := by
    rcases findSpare_eq (p := p) (n := 0) hobtained.pool.large hobtained.pool.allocs hlarge with
      ⟨-, hfind⟩ | ⟨pre, l, post, -, hreuse, -⟩
    · exact hfind
    · exact absurd (hnone.symm.trans hreuse) (by simp)
  have hmem : (heap.obtain 16 ⟨p, size⟩ contents).mem s.pool.addr = s.pool.max :=
    hobtained.pool.max
  simp only [Yzx.mpAllocLarge, hfind, hmem, Option.bind_some] at hcall
  by_cases hmax : sizeofPool ≤ s.pool.max
  · have hmax' : sizeofPool ≤ (s.log (.obtain 16 ⟨p, size⟩)).pool.max := hmax
    have hnone' : reuseRecord p 0 (s.log (.obtain 16 ⟨p, size⟩)).pool.large = none := hnone
    simp only [largeAfter, hnone', if_pos hmax'] at hlawful
    obtain ⟨r, hr, hholds⟩ := allocSmall_holds hobtained (Nat.le_of_lt hchain)
      (hlawful.of_suffix (recordAfter_suffix _))
    have hr' : (heap.obtain 16 ⟨p, size⟩ contents).allocSmall fuel mpAlignPtr grants s.pool.addr
        sizeofPool = some r := hr
    refine ⟨hmax, fun hret => ?_⟩
    rw [← hholds.ret] at hret
    simp [hmax, hr', hret] at hcall
  · simp [hmax] at hcall

/-- **The record.** In every careful state, a call of `mp_alloc` for a large block that ends leaves
the block of the system in exactly one record. -/
theorem Yzx.mpAlloc_recorded (h : heap.Holds s []) (hchain : s.pool.chain.length < fuel)
    (hlarge : s.pool.large.length + 1 < fuel) (hsize : s.pool.max < size)
    (hcareful : Yzx.Careful s.pool.addr heap (.mpAlloc size (some (p, contents) :: grants)))
    (hcall : Yzx.mpAlloc fuel (some (p, contents) :: grants) heap s.pool.addr size =
      some (heap', ret)) :
    heap'.Recorded fuel s.pool.addr p := by
  obtain ⟨hspared, hlawful⟩ := Careful.of_shows hcareful h.toShows
  have hheld := call_holds h hchain (Nat.lt_of_succ_lt hlarge) hspared hlawful hcall
  have hafter : after s (Call.mpAlloc size (some (p, contents) :: grants)).shape =
      largeAfter (some p :: grants.addrs) s size := if_neg (Nat.not_le.mpr hsize)
  rw [hafter] at hlawful hheld
  have hp : p ≠ 0 := (hlawful.of_suffix largeAfter_suffix).1.nonnull
  obtain ⟨haddr, -, hgrows⟩ : s.Grows (largeAfter (some p :: grants.addrs) s size) :=
    largeAfter_grows
  rw [Yzx.mpAlloc, h.pool.max, if_neg (Nat.not_le.mpr hsize)] at hcall
  obtain ⟨out, hserved, -⟩ := Option.map_eq_some_iff.mp hcall
  have hblock := largeAfter_block hp
    (mpAllocLarge_record h hchain (Nat.lt_of_succ_lt hlarge) hlawful hserved)
  rw [← haddr]
  exact recorded_of_holds hheld (Nat.lt_of_le_of_lt hgrows hlarge) hp hblock

/-- **Large blocks.** `mp_alloc` never gives back a large block. -/
theorem mpAlloc_loses_large (hsize : heap.mem pool < size) :
    ¬ Yzx.GivesBack fuel grants heap pool size := by
  rintro ⟨h', p, hcall, -⟩
  rw [Yzx.mpAlloc, if_neg (Nat.not_le.mpr hsize)] at hcall
  obtain ⟨_, -, hvalue⟩ := Option.map_eq_some_iff.mp hcall
  cases hvalue

theorem mpAlloc_loses_large_created :
    ¬ Yzx.GivesBack 4 [some (65536, fun _ => 0)] (Yzx.createPool 4096 4096 fun _ => 0) 4096 8192 :=
  mpAlloc_loses_large (by decide)

/-- A small block and a large one: the system has given 65536 for it, and there is memory for its
record. -/
theorem mpAlloc_loses_block :
    ∃ heap heap', exec (Source.yzxMempool.next 4 4096)
        (Source.yzxMempool.createPool 4096 4096 fun _ => 0) [.mpAlloc 64 []] = some heap ∧
      heap.mem 4096 = 4095 ∧
      Yzx.mpAlloc 4 [some (65536, fun _ => 0)] heap 4096 8192 = some (heap', none) ∧
      heap'.Records 4096 [(4192, 65536)] ∧
      ¬ Yzx.GivesBack 4 [some (65536, fun _ => 0)] heap 4096 8192 := by
  obtain ⟨heap, heap', hexec, hmax, hcall, hrecords⟩ : ∃ heap heap',
      exec (Source.yzxMempool.next 4 4096) (Source.yzxMempool.createPool 4096 4096 fun _ => 0)
        [.mpAlloc 64 []] = some heap ∧ heap.mem 4096 = 4095 ∧
      Yzx.mpAlloc 4 [some (65536, fun _ => 0)] heap 4096 8192 = some (heap', none) ∧
      heap'.Records 4096 [(4192, 65536)] :=
    ⟨_, _, rfl, rfl, rfl, ⟨rfl, by decide, rfl⟩, by simp; rfl⟩
  refine ⟨heap, heap', hexec, hmax, hcall, hrecords, ?_⟩
  rintro ⟨lost, p, hreturned, -⟩
  rw [hcall] at hreturned
  cases hreturned

end ServerKit.Mempool
