import ServerKit.Mempool.Failures

/-! # How deep `mp_alloc` nests

The record of a large block comes from `mp_alloc` itself. That call is for a small block if the
pool is for blocks of the size of a record at least, and for another large block otherwise. -/

namespace ServerKit.Mempool

open ServerKit.System ServerKit.SystemHeap ServerKit.WordMemory

/-! ## The recursion -/

/-- `mp_alloc_large`, with the call of `mp_alloc` for a record as `nested`. -/
def Heap.mpAllocLargeBy (nested : Grants → Heap → Option Served) (fuel : ℕ) (grants : Grants)
    (h : Heap) (pool size : ℕ) : Option Served :=
  match grants with
  | [] => some ⟨h, 0, []⟩
  | none :: grants => some ⟨h, 0, grants⟩
  | some (p, contents) :: grants =>
    let h := h.obtain 16 ⟨p, size⟩ contents
    (findSpare h.mem fuel (h.mem (pool + 16)) 0).bind fun large =>
      if large ≠ 0 then some ⟨h.write (large + 8) p, p, grants⟩
      else (nested grants h).map fun r => r.addRecord pool p

/-- `mp_alloc`; there is no result if it nests deeper than `levels`. -/
def Heap.mpAllocNested (fuel pool : ℕ) : ℕ → Grants → Heap → ℕ → Option Served
  | 0, grants, h, size =>
    if size ≤ h.mem pool then h.allocSmall fuel mpAlignPtr grants pool size
    else h.mpAllocLargeBy (fun _ _ => none) fuel grants pool size
  | levels + 1, grants, h, size =>
    if size ≤ h.mem pool then h.allocSmall fuel mpAlignPtr grants pool size
    else h.mpAllocLargeBy (fun grants h => mpAllocNested fuel pool levels grants h sizeofLarge) fuel
      grants pool size

/-- How a call ends: with a value or, in `yzx_mempool.c`, without one; or it uses a record at
`NULL`, or one that it has been given no value for. -/
inductive Outcome where
  | returned (h : Heap) (ret : Option ℕ)
  | undefined

/-- `mp_alloc_large` and the `else` branch of `mp_alloc`, which drops its value. -/
def Yzx.mpAllocLargeBy (nested : Grants → Heap → Option Outcome) (fuel : ℕ) (grants : Grants)
    (h : Heap) (pool size : ℕ) : Option Outcome :=
  match grants with
  | [] | none :: _ => some (.returned h none)
  | some (p, contents) :: grants =>
    let h := h.obtain 16 ⟨p, size⟩ contents
    (findSpare h.mem fuel (h.mem (pool + 16)) 0).bind fun large =>
      if large ≠ 0 then some (.returned (h.write (large + 8) p) none)
      else (nested grants h).map fun
        | .returned h (some large) =>
          if large = 0 then .undefined else .returned (newRecord h pool large p) none
        | _ => .undefined

def Yzx.mpAllocNested (fuel pool : ℕ) : ℕ → Grants → Heap → ℕ → Option Outcome
  | 0, grants, h, size =>
    if size ≤ h.mem pool then
      (h.allocSmall fuel mpAlignPtr grants pool size).map fun r => .returned r.heap (some r.ret)
    else mpAllocLargeBy (fun _ _ => none) fuel grants h pool size
  | levels + 1, grants, h, size =>
    if size ≤ h.mem pool then
      (h.allocSmall fuel mpAlignPtr grants pool size).map fun r => .returned r.heap (some r.ret)
    else mpAllocLargeBy (fun grants h => mpAllocNested fuel pool levels grants h sizeofPool) fuel
      grants h pool size

/-- `mp_alloc` of either file. -/
def Source.mpAllocNested (fuel pool levels : ℕ) (src : Source) (grants : Grants) (h : Heap)
    (size : ℕ) : Option Outcome :=
  match src with
  | .mmpool =>
    (h.mpAllocNested fuel pool levels grants size).map fun r => .returned r.heap (some r.ret)
  | .yzxMempool => Yzx.mpAllocNested fuel pool levels grants h size

/-- What `mp_alloc_large` asks for a record. -/
def Source.record : Source → ℕ
  | .mmpool => sizeofLarge
  | .yzxMempool => sizeofPool

/-- Whatever has been called before and whatever the system answers, as long as nothing is written
over the pool's own data, `mp_alloc` nests at most once and ends. -/
def Source.NestsOnce (src : Source) (size : ℕ) : Prop :=
  ∀ {fuel p : ℕ} {contents : ℕ → ℕ} {history : List Call} {request : ℕ} {grants : Grants}
    {heap : Heap}, (src.createPool p size contents).mem (p + 40) = 0 →
    Lawful (src.createPool p size contents).trace →
    Admits (src.next fuel p) (src.Careful p) (src.createPool p size contents)
      (history ++ [.mpAlloc request grants]) →
    history.length + 1 < fuel →
    exec (src.next fuel p) (src.createPool p size contents) history = some heap →
    ∃ out, src.mpAllocNested fuel p 1 grants heap request = some out

variable {src : Source} {heap : Heap} {s : State} {grants : Grants} {contents : ℕ → ℕ}
  {fuel p pool levels size request : ℕ}

theorem Heap.mpAllocLargeBy_eq {nested : Grants → Heap → Option Served}
    (hnested : ∀ grants h r, nested grants h = some r →
      Heap.mpAlloc fuel grants h pool sizeofLarge = some r) {r : Served}
    (h : heap.mpAllocLargeBy nested fuel grants pool size = some r) :
    heap.mpAllocLarge fuel grants pool size = some r := by
  rcases grants with - | ⟨- | ⟨p, contents⟩, grants⟩
  · exact h
  · exact h
  · obtain ⟨large, hfound, hlarge⟩ := Option.bind_eq_some_iff.mp h
    simp only [Heap.mpAllocLarge, hfound, Option.bind_some]
    split at hlarge
    · rename_i hspare
      rw [if_pos hspare]
      exact hlarge
    · rename_i hspare
      obtain ⟨served, hserved, hrecord⟩ := Option.map_eq_some_iff.mp hlarge
      rw [if_neg hspare]
      exact Option.map_eq_some_iff.mpr ⟨served, hnested _ _ _ hserved, hrecord⟩

/-- A call that does not nest deeper has the result of `mp_alloc`. -/
theorem Heap.mpAllocNested_eq {r : Served}
    (h : heap.mpAllocNested fuel pool levels grants size = some r) :
    heap.mpAlloc fuel grants pool size = some r := by
  induction levels generalizing heap grants size r with
  | zero =>
      rw [Heap.mpAllocNested] at h
      rw [Heap.mpAlloc]
      split at h
      · rename_i hsize
        rwa [if_pos hsize]
      · rename_i hsize
        rw [if_neg hsize]
        exact mpAllocLargeBy_eq (fun _ _ _ hnone => by cases hnone) h
  | succ levels ih =>
      rw [Heap.mpAllocNested] at h
      rw [Heap.mpAlloc]
      split at h
      · rename_i hsize
        rwa [if_pos hsize]
      · rename_i hsize
        rw [if_neg hsize]
        exact mpAllocLargeBy_eq (fun _ _ _ hnested => ih hnested) h

/-- A large block of `yzx_mempool.c` has no value. -/
theorem Yzx.mpAllocLargeBy_value {nested : Grants → Heap → Option Outcome} {out : Outcome}
    (h : Yzx.mpAllocLargeBy nested fuel grants heap pool size = some out) (heap' : Heap) (ret : ℕ) :
    out ≠ .returned heap' (some ret) := by
  rcases grants with - | ⟨- | ⟨p, contents⟩, grants⟩
  · cases h
    simp
  · cases h
    simp
  · obtain ⟨large, -, hlarge⟩ := Option.bind_eq_some_iff.mp h
    split at hlarge
    · cases hlarge
      simp
    · obtain ⟨served, -, rfl⟩ := Option.map_eq_some_iff.mp hlarge
      split
      · split <;> simp
      · simp

theorem Yzx.mpAllocNested_small (hsize : size ≤ heap.mem pool) :
    Yzx.mpAllocNested fuel pool levels grants heap size =
      (heap.allocSmall fuel mpAlignPtr grants pool size).map fun r =>
        .returned r.heap (some r.ret) := by
  cases levels <;> rw [Yzx.mpAllocNested, if_pos hsize]

/-- What `yzx_mempool.c` returns, if it is defined. -/
def Outcome.result : Outcome → Option (Heap × Option ℕ)
  | .returned h ret => some (h, ret)
  | .undefined => none

theorem Yzx.mpAllocLargeBy_eq {nested : Grants → Heap → Option Outcome}
    (hnested : ∀ grants h out, nested grants h = some out →
      (sizeofPool ≤ h.mem pool → (h.allocSmall fuel mpAlignPtr grants pool sizeofPool).map
        (fun r => .returned r.heap (some r.ret)) = some out) ∧
      (¬ sizeofPool ≤ h.mem pool → ∀ heap' ret, out ≠ .returned heap' (some ret)))
    {out : Outcome} (h : Yzx.mpAllocLargeBy nested fuel grants heap pool size = some out) :
    ((Yzx.mpAllocLarge fuel grants heap pool size).map fun (h, _) => (h, none)) = out.result := by
  rcases grants with - | ⟨- | ⟨p, contents⟩, grants⟩
  · cases h
    rfl
  · cases h
    rfl
  · obtain ⟨large, hfound, hlarge⟩ := Option.bind_eq_some_iff.mp h
    simp only [Yzx.mpAllocLarge, hfound, Option.bind_some]
    split at hlarge
    · rename_i hspare
      cases hlarge
      rw [if_pos hspare]
      rfl
    · rename_i hspare
      obtain ⟨served, hserved, rfl⟩ := Option.map_eq_some_iff.mp hlarge
      rw [if_neg hspare]
      obtain ⟨hsmall, hnovalue⟩ := hnested _ _ _ hserved
      by_cases hmax : sizeofPool ≤ (heap.obtain 16 ⟨p, size⟩ contents).mem pool
      · obtain ⟨r, hr, rfl⟩ := Option.map_eq_some_iff.mp (hsmall hmax)
        by_cases hret : r.ret = 0
        · simp [hmax, hr, hret, Outcome.result]
        · simp [hmax, hr, hret, Outcome.result]
      · rw [if_neg hmax]
        rcases served with ⟨heap', - | ret⟩ | -
        · rfl
        · exact absurd rfl (hnovalue hmax heap' ret)
        · rfl

theorem Yzx.mpAllocNested_eq {out : Outcome}
    (h : Yzx.mpAllocNested fuel pool levels grants heap size = some out) :
    Yzx.mpAlloc fuel grants heap pool size = out.result := by
  by_cases hsize : size ≤ heap.mem pool
  · rw [mpAllocNested_small hsize] at h
    obtain ⟨r, hr, rfl⟩ := Option.map_eq_some_iff.mp h
    rw [Yzx.mpAlloc, if_pos hsize, hr]
    rfl
  · rw [Yzx.mpAlloc, if_neg hsize]
    cases levels with
    | zero =>
        rw [Yzx.mpAllocNested, if_neg hsize] at h
        exact mpAllocLargeBy_eq (fun _ _ _ hnone => by cases hnone) h
    | succ levels =>
        rw [Yzx.mpAllocNested, if_neg hsize] at h
        refine mpAllocLargeBy_eq (fun grants h out hout => ⟨fun hmax => ?_, fun hmax => ?_⟩) h
        · rw [← hout, mpAllocNested_small hmax]
        · cases levels with
          | zero =>
              rw [Yzx.mpAllocNested, if_neg hmax] at hout
              exact mpAllocLargeBy_value hout
          | succ levels =>
              rw [Yzx.mpAllocNested, if_neg hmax] at hout
              exact mpAllocLargeBy_value hout

/-! ## Records that are small -/

/-- The search for a record ends, and so does the call for a new one that is small. -/
theorem record_ends {record : ℕ} (contents : ℕ → ℕ) (h : heap.Holds s [])
    (hchain : s.pool.chain.length < fuel) (hlarge : s.pool.large.length < fuel)
    (hrecord : record ≤ s.pool.max) (hfresh : Fresh 16 ⟨p, size⟩ (live s.trace))
    (hlawful : reuseRecord p 0 s.pool.large = none → Lawful (allocSmall mpAlignPtr grants.addrs
      (s.log (.obtain 16 ⟨p, size⟩)) record).state.trace) :
    (∃ large ≠ 0, findSpare (heap.obtain 16 ⟨p, size⟩ contents).mem fuel
        ((heap.obtain 16 ⟨p, size⟩ contents).mem (s.pool.addr + 16)) 0 = some large) ∨
      findSpare (heap.obtain 16 ⟨p, size⟩ contents).mem fuel
        ((heap.obtain 16 ⟨p, size⟩ contents).mem (s.pool.addr + 16)) 0 = some 0 ∧
      record ≤ (heap.obtain 16 ⟨p, size⟩ contents).mem s.pool.addr ∧
      ∃ r, (heap.obtain 16 ⟨p, size⟩ contents).allocSmall fuel mpAlignPtr grants s.pool.addr
        record = some r := by
  have hobtained := obtain_holds h contents hfresh
  have hmax : (heap.obtain 16 ⟨p, size⟩ contents).mem s.pool.addr = s.pool.max :=
    hobtained.pool.max
  rcases findSpare_eq (p := p) (n := 0) hobtained.pool.large hobtained.pool.allocs hlarge with
    ⟨hnone, hfind⟩ | ⟨pre, l, post, hsplit, -, hfind⟩
  · right
    obtain ⟨r, hsmall, -⟩ := allocSmall_holds hobtained (Nat.le_of_lt hchain) (hlawful hnone)
    exact ⟨hfind, hmax ▸ hrecord, r, hsmall⟩
  · left
    have hl : l ∈ s.pool.large := by
      rw [show s.pool.large = pre ++ l :: post from hsplit]
      exact List.mem_append_right _ List.mem_cons_self
    exact ⟨l.addr, hobtained.pool.large.nonnull _ (List.mem_map_of_mem hl), hfind⟩

theorem Heap.mpAllocNested_ends (h : heap.Holds s []) (hchain : s.pool.chain.length < fuel)
    (hlarge : s.pool.large.length < fuel) (hrecord : sizeofLarge ≤ s.pool.max)
    (hlawful : Lawful (Mempool.mpAlloc grants.addrs s request).state.trace) :
    ∃ r, heap.mpAllocNested fuel s.pool.addr 1 grants request = some r := by
  rw [Heap.mpAllocNested, h.pool.max]
  rw [Mempool.mpAlloc] at hlawful
  by_cases hsize : request ≤ s.pool.max
  · rw [if_pos hsize] at hlawful ⊢
    obtain ⟨r, hr, -⟩ := allocSmall_holds h (Nat.le_of_lt hchain) hlawful
    exact ⟨r, hr⟩
  · rw [if_neg hsize] at hlawful ⊢
    rcases grants with - | ⟨- | ⟨p, contents⟩, grants⟩
    · exact ⟨_, rfl⟩
    · exact ⟨_, rfl⟩
    · rw [Grants.addrs_some] at hlawful
      have hfresh := (hlawful.of_suffix mpAllocLarge_suffix_obtain).1
      have hsmall : reuseRecord p 0 s.pool.large = none → Lawful (Mempool.allocSmall mpAlignPtr
          (Grants.addrs grants) (s.log (.obtain 16 ⟨p, request⟩)) sizeofLarge).state.trace := by
        intro hnone
        have hnone' : reuseRecord p 0 (s.log (.obtain 16 ⟨p, request⟩)).pool.large = none := hnone
        have hmax : sizeofLarge ≤ (s.log (.obtain 16 ⟨p, request⟩)).pool.max := hrecord
        simp only [Mempool.mpAllocLarge, hnone', if_pos hmax] at hlawful
        exact hlawful.of_suffix (addRecord_suffix _)
      rw [Heap.mpAllocLargeBy]
      rcases record_ends contents h hchain hlarge hrecord hfresh hsmall with
        ⟨large, hne, hfind⟩ | ⟨hfind, hmax, r, hr⟩
      · simp only [hfind, Option.bind_some, if_pos hne]
        exact ⟨_, rfl⟩
      · simp only [hfind, Option.bind_some, Heap.mpAllocNested, if_pos hmax, hr]
        exact ⟨_, rfl⟩

theorem Yzx.mpAllocNested_ends (h : heap.Holds s []) (hchain : s.pool.chain.length < fuel)
    (hlarge : s.pool.large.length < fuel) (hrecord : sizeofPool ≤ s.pool.max)
    (hlawful : Lawful (serveAfter mpAlignPtr grants.addrs s request).trace) :
    ∃ out, Yzx.mpAllocNested fuel s.pool.addr 1 grants heap request = some out := by
  rw [Yzx.mpAllocNested, h.pool.max]
  rw [serveAfter] at hlawful
  by_cases hsize : request ≤ s.pool.max
  · rw [if_pos hsize] at hlawful ⊢
    obtain ⟨r, hr, -⟩ := allocSmall_holds h (Nat.le_of_lt hchain) hlawful
    exact ⟨_, congrArg (Option.map _) hr⟩
  · rw [if_neg hsize] at hlawful ⊢
    rcases grants with - | ⟨- | ⟨p, contents⟩, grants⟩
    · exact ⟨_, rfl⟩
    · exact ⟨_, rfl⟩
    · rw [Grants.addrs_some] at hlawful
      have hfresh := (hlawful.of_suffix largeAfter_suffix).1
      have hsmall : reuseRecord p 0 s.pool.large = none → Lawful (allocSmall mpAlignPtr
          (Grants.addrs grants) (s.log (.obtain 16 ⟨p, request⟩)) sizeofPool).state.trace := by
        intro hnone
        have hnone' : reuseRecord p 0 (s.log (.obtain 16 ⟨p, request⟩)).pool.large = none := hnone
        have hmax : sizeofPool ≤ (s.log (.obtain 16 ⟨p, request⟩)).pool.max := hrecord
        simp only [largeAfter, hnone', if_pos hmax] at hlawful
        exact hlawful.of_suffix (recordAfter_suffix _)
      rw [Yzx.mpAllocLargeBy]
      rcases record_ends contents h hchain hlarge hrecord hfresh hsmall with
        ⟨large, hne, hfind⟩ | ⟨hfind, hmax, r, hr⟩
      · simp only [hfind, Option.bind_some, if_pos hne]
        exact ⟨_, rfl⟩
      · simp only [hfind, Option.bind_some, Yzx.mpAllocNested, if_pos hmax, hr]
        exact ⟨_, rfl⟩

/-! ## The size of the pool -/

theorem Source.createPool_max (src : Source) (p size : ℕ) (contents : ℕ → ℕ) :
    (src.createPool p size contents).mem p =
      if size < MP_MAX_ALLOC_FROM_POOL then size else MP_MAX_ALLOC_FROM_POOL := by
  cases src <;>
    simp [Source.createPool, Mempool.createPool, Yzx.createPool, Heap.write, Nat.add_assoc]

/-- The answers to a request for a large block and to one for its record. -/
def twoLarge : Grants := [some (8192, fun _ => 0), some (12288, fun _ => 0)]

/-- The first call for a large block nests twice if a record is not small. -/
theorem Source.nests_twice (hsize : size < src.record) :
    (src.createPool 4096 size fun _ => 0).mem (4096 + 40) = 0 ∧
      Lawful (src.createPool 4096 size fun _ => 0).trace ∧
      Admits (src.next 3 4096) (src.Careful 4096) (src.createPool 4096 size fun _ => 0)
        [.mpAlloc (size + 1) twoLarge] ∧
      src.mpAllocNested 3 4096 1 twoLarge (src.createPool 4096 size fun _ => 0) (size + 1) =
        none := by
  cases src with
  | mmpool =>
      have hfits : SizeFits size := Nat.lt_trans (Nat.add_lt_add_right hsize 56) (by decide)
      have hlawful : ∀ size < sizeofLarge, Lawful (mpCreatePool 4096 size).trace := by
        decide +kernel
      have hcareful : ∀ size < sizeofLarge, State.Careful (mpCreatePool 4096 size)
          (Call.mpAlloc (size + 1) twoLarge).shape := by
        decide +kernel
      have hnested : ∀ size < sizeofLarge, (Source.mmpool.mpAllocNested 3 4096 1 twoLarge
          (Mempool.createPool 4096 size fun _ => 0) (size + 1)).isNone := by
        decide +kernel
      have hheld : (Mempool.createPool 4096 size fun _ => 0).Holds (mpCreatePool 4096 size) [] :=
        createPool_holds hfits (hlawful size hsize) rfl
      refine ⟨?_, ?_, ⟨⟨_, hheld.toShows, rfl, hcareful size hsize⟩, fun _ _ => trivial⟩,
        Option.isNone_iff_eq_none.mp (hnested size hsize)⟩
      · exact hheld.pool.chain.2.2
      · exact hheld.trace ▸ hlawful size hsize
  | yzxMempool =>
      have hfits : SizeFits size := Nat.lt_trans (Nat.add_lt_add_right hsize 56) (by decide)
      have hlawful : ∀ size < sizeofPool, Lawful (Yzx.mpCreatePool 4096 size).trace := by
        decide +kernel
      have hspared : ∀ size < sizeofPool, (Yzx.mpCreatePool 4096 size).Spared sizeofPool
          (Call.mpAlloc (size + 1) twoLarge).shape := by
        decide +kernel
      have hafter : ∀ size < sizeofPool, Lawful (Yzx.after (Yzx.mpCreatePool 4096 size)
          (Call.mpAlloc (size + 1) twoLarge).shape).trace := by
        decide +kernel
      have hnested : ∀ size < sizeofPool, (Source.yzxMempool.mpAllocNested 3 4096 1 twoLarge
          (Yzx.createPool 4096 size fun _ => 0) (size + 1)).isNone := by
        decide +kernel
      have hshown : (Yzx.createPool 4096 size fun _ => 0).Shows (Yzx.mpCreatePool 4096 size) :=
        Yzx.createPool_shows hfits (hlawful size hsize)
      refine ⟨?_, ?_, ⟨⟨_, hshown, rfl, hspared size hsize, hafter size hsize⟩, fun _ _ => trivial⟩,
        Option.isNone_iff_eq_none.mp (hnested size hsize)⟩
      · exact hshown.pool.chain.2.2
      · exact hshown.trace ▸ hlawful size hsize

/-- **The recursion.** As long as nothing is written over the pool's own data, `max` among them,
`mp_alloc` nests at most once exactly in the pools for blocks of the size of a record. -/
theorem nestsOnce_iff (hsize : SizeFits size) : src.NestsOnce size ↔ src.record ≤ size := by
  constructor
  · intro honce
    by_contra hlt
    obtain ⟨hnull, hlawful, hcareful, hnested⟩ := Source.nests_twice (Nat.not_le.mp hlt)
    obtain ⟨out, hout⟩ := @honce 3 4096 (fun _ => 0) [] (size + 1) twoLarge _ hnull hlawful
      hcareful (by decide) rfl
    rw [hnested] at hout
    cases hout
  · intro hrecord fuel p contents history request grants heap hnull hlawful hcareful hfuel hexec
    have hroomy : src.Roomy size := by
      cases src with
      | mmpool => trivial
      | yzxMempool => exact hrecord
    obtain ⟨s₀, hs₀, rfl, hchain₀, hlarge₀⟩ := Source.holds_created hsize hroomy hnull hlawful
    obtain ⟨hbefore, hafter⟩ := hcareful.append
    have hroom : s₀.Room fuel (history.length + 0) :=
      ⟨by rw [hchain₀]; omega, by rw [hlarge₀, List.length_nil]; omega⟩
    obtain ⟨s, hs, haddr, hmax, hchain, hlarge⟩ := Source.holds_exec hs₀ hroom hbefore hexec
    have hlast := (hafter heap hexec).1
    have hrecord : src.record ≤ s.pool.max := by
      rw [hmax, ← hs₀.pool.max, Source.createPool_max]
      split
      · exact hrecord
      · cases src <;> decide
    rw [← haddr] at hlast ⊢
    cases src with
    | mmpool =>
        have hcall := (Heap.Careful.of_shows hlast hs.toShows).2
        obtain ⟨r, hr⟩ := Heap.mpAllocNested_ends hs hchain hlarge hrecord hcall
        exact ⟨_, congrArg (Option.map _) hr⟩
    | yzxMempool =>
        have hcall := (Yzx.Careful.of_shows hlast hs.toShows).2
        exact Yzx.mpAllocNested_ends hs hchain hlarge hrecord hcall

theorem nestsOnce_iff_pages : Source.yzxMempool.NestsOnce 4096 ∧ ¬ Source.yzxMempool.NestsOnce 16 :=
  ⟨(nestsOnce_iff (by decide)).mpr (by decide), fun honce =>
    absurd ((nestsOnce_iff (by decide)).mp honce) (by decide)⟩

/-- A pool for blocks of 8 bytes: the record of 16 bytes is a large block as well. -/
theorem mpAlloc_nests_twice :
    Admits (Source.mmpool.next 3 4096) (Source.mmpool.Careful 4096)
        (Source.mmpool.createPool 4096 8 fun _ => 0) [.mpAlloc 9 twoLarge] ∧
      Source.mmpool.mpAllocNested 3 4096 1 twoLarge (Source.mmpool.createPool 4096 8 fun _ => 0) 9 =
        none ∧
      ¬ Source.mmpool.NestsOnce 8 := by
  have hsize : 8 < Source.mmpool.record := by decide
  obtain ⟨hnull, hlawful, hcareful, hnested⟩ := Source.nests_twice hsize
  refine ⟨hcareful, hnested, fun honce => ?_⟩
  obtain ⟨out, hout⟩ := @honce 3 4096 (fun _ => 0) [] 9 twoLarge _ hnull hlawful hcareful
    (by decide) rfl
  rw [hnested] at hout
  cases hout

end ServerKit.Mempool
