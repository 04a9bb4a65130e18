import ServerKit.Mempool.Calls

/-! # The memory pool of `yzx_mempool.c`

The file shares most of its code with `mmpool注释版本.c`. It sets `head->next`, takes
`sizeof(sizeof(struct mp_node_s))` bytes for the header of the head, does not reset the head, and
its `mp_alloc_large` asks for more memory than a record needs, does not check what it gets, and
ends without a result. The value of a call that ends so is `none`, and a call that uses such a
value has no result. -/

namespace ServerKit.Mempool.Yzx

open ServerKit.SystemHeap ServerKit.WordMemory

/-- `sizeof(sizeof(struct mp_node_s))`. -/
def sizeofSize : ℕ := 8

/-- `mp_create_pool` when `posix_memalign` answers `p`. -/
def createPool (p size : ℕ) (contents : ℕ → ℕ) : Heap :=
  let h := Heap.obtain ⟨fun _ => 0, []⟩ MP_ALIGNMENT ⟨p, add64 size (sizeofPool + sizeofNode)⟩
    contents
  let h := h.write p (if size < MP_MAX_ALLOC_FROM_POOL then size else MP_MAX_ALLOC_FROM_POOL)
  let h := (h.write (p + 8) (p + 24)).write (p + 16) 0
  let h := h.write (p + 24) (add64 p (sizeofPool + sizeofSize))
  let h := h.write (p + 24 + 8) (add64 (add64 p (sizeofPool + sizeofSize)) size)
  (h.write (p + 24 + 24) 0).write (p + 24 + 16) 0

/-- The last lines of `mp_alloc_large`. -/
def newRecord (h : Heap) (pool large p : ℕ) : Heap :=
  ((h.write large (h.mem (pool + 16))).write (pool + 16) large).write (large + 8) p

/-- `mp_alloc_large`. A record that is not small, or `NULL`, is used all the same. -/
def mpAllocLarge (fuel : ℕ) (grants : Grants) (h : Heap) (pool size : ℕ) :
    Option (Heap × Option ℕ) :=
  match grants with
  | [] | none :: _ => some (h, some 0)
  | some (p, contents) :: grants =>
    let h := h.obtain 16 ⟨p, size⟩ contents
    (findSpare h.mem fuel (h.mem (pool + 16)) 0).bind fun large =>
      if large ≠ 0 then some (h.write (large + 8) p, some p)
      else if sizeofPool ≤ h.mem pool then
        (h.allocSmall fuel mpAlignPtr grants pool sizeofPool).bind fun r =>
          if r.ret = 0 then none else some (newRecord r.heap pool r.ret p, none)
      else none

def mpAlloc (fuel : ℕ) (grants : Grants) (h : Heap) (pool size : ℕ) : Option (Heap × Option ℕ) :=
  if size ≤ h.mem pool then
    (h.allocSmall fuel mpAlignPtr grants pool size).map fun r => (r.heap, some r.ret)
  else (mpAllocLarge fuel grants h pool size).map fun (h, _) => (h, none)

def mpNalloc (fuel : ℕ) (grants : Grants) (h : Heap) (pool size : ℕ) : Option (Heap × Option ℕ) :=
  if size ≤ h.mem pool then
    (h.allocSmall fuel id grants pool size).map fun r => (r.heap, some r.ret)
  else mpAllocLarge fuel grants h pool size

def mpCalloc (fuel : ℕ) (grants : Grants) (h : Heap) (pool size : ℕ) : Option (Heap × Option ℕ) :=
  (mpAlloc fuel grants h pool size).bind fun (h, ret) =>
    ret.map fun p => (if p = 0 then h else h.clear p size, some p)

def mpMemalign (fuel : ℕ) (grants : Grants) (h : Heap) (pool size alignment : ℕ) :
    Option (Heap × Option ℕ) :=
  match grants with
  | [] | none :: _ => some (h, some 0)
  | some (p, contents) :: grants =>
    let h := h.obtain alignment ⟨p, size⟩ contents
    (mpAlloc fuel grants h pool sizeofLarge).bind fun (h, ret) =>
      ret.map fun large =>
        let r := Served.addRecord ⟨h, large, []⟩ pool p
        (r.heap, some r.ret)

/-- The loop over the nodes leaves out the head. -/
def mpResetPool (fuel : ℕ) (h : Heap) (pool : ℕ) : Option Heap :=
  (h.freeLarge fuel (h.mem (pool + 16))).bind fun h =>
    let h := h.write (pool + 16) 0
    h.resetNodes fuel (h.mem (pool + 24 + 16))

/-- The memory after a call, and its value. -/
def call (fuel : ℕ) (h : Heap) (pool : ℕ) : Call → Option (Heap × Option ℕ)
  | .mpAlloc size grants => mpAlloc fuel grants h pool size
  | .mpNalloc size grants => mpNalloc fuel grants h pool size
  | .mpCalloc size grants => mpCalloc fuel grants h pool size
  | .mpMemalign size alignment grants => mpMemalign fuel grants h pool size alignment
  | .mpFree p => (h.mpFree fuel pool p).map fun h => (h, none)
  | .mpResetPool => (mpResetPool fuel h pool).map fun h => (h, none)
  | .store a v => some (h.write a v, none)

/-! ## The calls on the lists -/

def mpCreatePool (p size : ℕ) : State where
  pool := {
    addr := p
    max := if size < MP_MAX_ALLOC_FROM_POOL then size else MP_MAX_ALLOC_FROM_POOL
    current := 0
    large := []
    head := {
      addr := add64 p sizeofPool
      last := add64 p (sizeofPool + sizeofSize)
      endPtr := add64 (add64 p (sizeofPool + sizeofSize)) size
      failed := 0 }
    nodes := [] }
  trace := [.obtain MP_ALIGNMENT ⟨p, add64 size (sizeofPool + sizeofNode)⟩]

/-- The record of `p`, without a check; the state in which a record at `NULL` goes wrong. -/
def recordAfter (p : ℕ) (r : Result) : State :=
  if r.ret = 0 then r.state else (addRecord p r).state

/-- Where the call has no result, the state is the one before it goes wrong. -/
def largeAfter (answers : Answers) (s : State) (size : ℕ) : State :=
  match answers with
  | [] | none :: _ => s
  | some p :: answers =>
    let s := s.log (.obtain 16 ⟨p, size⟩)
    match reuseRecord p 0 s.pool.large with
    | some large => { s with pool := { s.pool with large := large } }
    | none =>
      if sizeofPool ≤ s.pool.max then recordAfter p (allocSmall mpAlignPtr answers s sizeofPool)
      else s

def serveAfter (round : ℕ → ℕ) (answers : Answers) (s : State) (size : ℕ) : State :=
  if size ≤ s.pool.max then (allocSmall round answers s size).state else largeAfter answers s size

def memalignAfter (answers : Answers) (s : State) (size alignment : ℕ) : State :=
  match answers with
  | [] | none :: _ => s
  | some p :: answers =>
    let s := s.log (.obtain alignment ⟨p, size⟩)
    if sizeofLarge ≤ s.pool.max then
      (addRecord p (allocSmall mpAlignPtr answers s sizeofLarge)).state
    else s

def resetAfter (s : State) : State where
  pool := { s.pool with large := [], nodes := s.pool.nodes.map Node.reset }
  trace := (Mempool.freeLarge s s.pool.large).trace

def after (s : State) : Op ⊕ ℕ → State
  | .inl (.mpAlloc size answers) | .inl (.mpCalloc size answers) =>
    serveAfter mpAlignPtr answers s size
  | .inl (.mpNalloc size answers) => serveAfter id answers s size
  | .inl (.mpMemalign size alignment answers) => memalignAfter answers s size alignment
  | .inl (.mpFree p) => Mempool.mpFree s p
  | .inl .mpResetPool => resetAfter s
  | .inr _ => s

variable {heap heap' : Heap} {s : State} {pending : List Region} {grants : Grants}
  {out : Heap × Option ℕ} {fuel size p : ℕ}

/-- The arithmetic of `mp_create_pool` does not wrap around. -/
theorem created_bounds (hsize : SizeFits size) (hlawful : Lawful (mpCreatePool p size).trace) :
    add64 size (sizeofPool + sizeofNode) = size + 56 ∧ p + (size + 56) < 2 ^ 64 ∧
      add64 p sizeofPool = p + 24 := by
  have hlen : add64 size (sizeofPool + sizeofNode) = size + 56 := Nat.mod_eq_of_lt hsize
  have hbounded : p + add64 size (sizeofPool + sizeofNode) < 2 ^ 64 := hlawful.1.bounded
  rw [hlen] at hbounded
  exact ⟨hlen, hbounded, Nat.mod_eq_of_lt (by simp only [sizeofPool]; omega)⟩

/-- The size of the nodes behind the head. -/
theorem psize_created (hsize : SizeFits size) (hlawful : Lawful (mpCreatePool p size).trace) :
    (mpCreatePool p size).pool.psize = size + 8 := by
  obtain ⟨hlen, hbounded, hhead⟩ := created_bounds hsize hlawful
  have hlast : add64 p (sizeofPool + sizeofSize) = p + 32 :=
    Nat.mod_eq_of_lt (by simp only [sizeofPool, sizeofSize]; omega)
  have hend : add64 (p + 32) size = p + 32 + size := Nat.mod_eq_of_lt (by omega)
  show sub64 (add64 (add64 p (sizeofPool + sizeofSize)) size) (add64 p sizeofPool) = size + 8
  rw [hhead, hlast, hend]
  simp only [sub64]
  omega

theorem createPool_shows {contents : ℕ → ℕ} (hsize : SizeFits size)
    (hlawful : Lawful (mpCreatePool p size).trace) :
    (createPool p size contents).Shows (mpCreatePool p size) := by
  obtain ⟨hlen, hbounded, hhead⟩ := created_bounds hsize hlawful
  refine ⟨?_, by simp [createPool, Heap.write, Heap.obtain, mpCreatePool]⟩
  refine .created rfl rfl rfl hhead ?_ ?_ ?_ (Function.update_self _ _ _) ?_
  · simp [createPool, Heap.write, mpCreatePool, Nat.add_assoc]
  · simp [createPool, Heap.write, mpCreatePool]
  · simp [createPool, Heap.write, mpCreatePool]
  · simp only [mpCreatePool, hhead]
    refine ⟨?_, ?_, ?_⟩ <;> simp [createPool, Heap.write]

/-- A new pool with nodes that have room for a header. -/
theorem createPool_holds {contents : ℕ → ℕ} (hsize : SizeFits size) (hroomy : 24 ≤ size)
    (hlawful : Lawful (mpCreatePool p size).trace) :
    (createPool p size contents).Holds (mpCreatePool p size) [] := by
  obtain ⟨hlen, hbounded, hhead⟩ := created_bounds hsize hlawful
  refine ⟨createPool_shows hsize hlawful, ?_⟩
  refine intact_created rfl hlawful rfl rfl rfl hhead rfl ?_ ?_
  · rw [hlen]
    simp only [sizeofPool, sizeofNode]
    omega
  · rw [psize_created hsize hlawful]
    simp only [sizeofNode]
    omega

theorem newRecord_order {r : Result} (h : heap.Holds r.state (⟨p, size⟩ :: pending))
    (hret : r.ret ≠ 0) {a : ℕ} (hplace : r.Places a) :
    (newRecord heap a r.ret p).Holds (addRecord p r).state pending := by
  have hheader : r.ret + 16 ≤ a ∨ a + 24 ≤ r.ret := by
    rw [← hplace.addr]
    exact hplace.disjoint _ (header_mem_fixed _)
  refine newRecord_holds h hret hplace ?_ ?_ ?_ ?_
  · simp only [Heap.write]
    rw [Function.update_of_ne (by omega), Function.update_self]
  · simp only [Heap.write]
    rw [Function.update_of_ne (by omega), Function.update_of_ne (by omega), Function.update_self]
  · exact Function.update_self _ _ _
  · intro b hb hout
    simp only [sizeofLarge] at hout
    simp only [Heap.write]
    rw [Function.update_of_ne (by omega), Function.update_of_ne hb,
      Function.update_of_ne (by omega)]

theorem recordAfter_suffix (r : Result) : r.state.trace <:+ (recordAfter p r).trace := by
  rw [recordAfter]
  split
  · exact List.suffix_rfl
  · exact addRecord_suffix _

theorem largeAfter_suffix {answers : Answers} : (s.log (.obtain 16 ⟨p, size⟩)).trace <:+
    (largeAfter (some p :: answers) s size).trace := by
  rw [largeAfter]
  split
  · exact List.suffix_rfl
  · split
    · exact (allocSmall_suffix _).trans (recordAfter_suffix _)
    · exact List.suffix_rfl

/-- A call for the record of `p` that ends has a record. -/
theorem recordAfter_holds (h : heap.Holds s (⟨p, size⟩ :: pending))
    (hchain : s.pool.chain.length ≤ fuel) (hmax : sizeofPool ≤ s.pool.max)
    (hspares : s.Spares sizeofPool sizeofLarge)
    (hlawful : Lawful (recordAfter p (allocSmall mpAlignPtr grants.addrs s sizeofPool)).trace)
    (hcall : ((heap.allocSmall fuel mpAlignPtr grants s.pool.addr sizeofPool).bind fun r =>
      if r.ret = 0 then none else some (newRecord r.heap s.pool.addr r.ret p, none)) = some out) :
    out.1.Holds (recordAfter p (allocSmall mpAlignPtr grants.addrs s sizeofPool)) pending := by
  have hrecord := hlawful.of_suffix (recordAfter_suffix _)
  obtain ⟨r, hsmall, hr⟩ := allocSmall_holds h hchain hrecord
  rw [hsmall, Option.bind_some] at hcall
  obtain ⟨hret, hout⟩ := Option.ite_none_left_eq_some.mp hcall
  cases hout
  rw [hr.ret] at hret
  have hplace := allocSmall_places h (Nat.le_trans (by decide) hmax) hspares hrecord hret
  rw [recordAfter, if_neg hret, hr.ret]
  exact newRecord_order hr.heap hret hplace

theorem mpAllocLarge_holds (h : heap.Holds s pending) (hchain : s.pool.chain.length ≤ fuel)
    (hlarge : s.pool.large.length < fuel) (hspares : s.LargeSpares sizeofPool grants.addrs)
    (hlawful : Lawful (largeAfter grants.addrs s size).trace)
    (hcall : mpAllocLarge fuel grants heap s.pool.addr size = some out) :
    out.1.Holds (largeAfter grants.addrs s size) pending := by
  match grants with
  | [] =>
    cases hcall
    exact h
  | none :: grants =>
    cases hcall
    exact h
  | some (p, contents) :: grants =>
    rw [Grants.addrs_some] at hlawful hspares ⊢
    have hobtained := obtain_holds h contents (hlawful.of_suffix largeAfter_suffix).1
    simp only [mpAllocLarge] at hcall
    rw [largeAfter] at hlawful ⊢
    generalize heap.obtain 16 ⟨p, size⟩ contents = heap₁ at hcall hobtained
    generalize hs₁ : s.log (.obtain 16 ⟨p, size⟩) = s₁ at hlawful hobtained ⊢
    have hpool : s₁.pool = s.pool := hs₁ ▸ rfl
    rw [← hpool] at hchain hlarge hcall
    obtain ⟨large, hfound, hcall⟩ := Option.bind_eq_some_iff.mp hcall
    rcases findSpare_eq (p := p) (n := 0) hobtained.pool.large hobtained.pool.allocs hlarge with
      ⟨hnone, hfind⟩ | ⟨pre, l, post, hsplit, hreuse, hfind⟩
    · rw [hfind] at hfound
      cases hfound
      simp only [hnone] at hlawful ⊢
      rw [if_neg (by simp), hobtained.pool.max] at hcall
      by_cases hmax : sizeofPool ≤ s₁.pool.max
      · rw [if_pos hmax] at hlawful hcall ⊢
        have hspared : s.Spares sizeofPool sizeofLarge := hspares (hpool ▸ hnone) (hpool ▸ hmax)
        exact recordAfter_holds hobtained hchain hmax (hs₁ ▸ hspared.obtain) hlawful hcall
      · rw [if_neg hmax] at hcall
        cases hcall
    · rw [hfind] at hfound
      cases hfound
      have hnull : l.addr ≠ 0 :=
        hobtained.pool.large.nonnull _ (List.mem_map_of_mem (by simp [hsplit]))
      simp only [hreuse] at hlawful ⊢
      rw [if_pos hnull] at hcall
      cases hcall
      exact reuse_holds hobtained hsplit hreuse

theorem mpMemalign_holds {alignment : ℕ} (h : heap.Holds s pending)
    (hchain : s.pool.chain.length ≤ fuel)
    (hspares : grants.addrs.head?.join.isSome → sizeofLarge ≤ s.pool.max →
      s.Spares sizeofLarge sizeofLarge)
    (hlawful : Lawful (memalignAfter grants.addrs s size alignment).trace)
    (hcall : mpMemalign fuel grants heap s.pool.addr size alignment = some out) :
    out.1.Holds (memalignAfter grants.addrs s size alignment) pending := by
  match grants with
  | [] =>
    cases hcall
    exact h
  | none :: grants =>
    cases hcall
    exact h
  | some (p, contents) :: grants =>
    rw [Grants.addrs_some] at hlawful ⊢
    rw [memalignAfter] at hlawful ⊢
    have hfresh : Fresh alignment ⟨p, size⟩ (live s.trace) := by
      split at hlawful
      · exact (hlawful.of_suffix ((allocSmall_suffix _).trans (addRecord_suffix _))).1
      · exact hlawful.1
    have hobtained := obtain_holds h contents hfresh
    simp only [mpMemalign, mpAlloc] at hcall
    generalize heap.obtain alignment ⟨p, size⟩ contents = heap₁ at hcall hobtained
    generalize hs₁ : s.log (.obtain alignment ⟨p, size⟩) = s₁ at hlawful hobtained ⊢
    have hpool : s₁.pool = s.pool := hs₁ ▸ rfl
    rw [← hpool] at hchain hcall
    rw [hobtained.pool.max] at hcall
    by_cases hmax : sizeofLarge ≤ s₁.pool.max
    · rw [if_pos hmax] at hlawful hcall ⊢
      have hrecord := hlawful.of_suffix (addRecord_suffix _)
      have hspared : s.Spares sizeofLarge sizeofLarge := hspares rfl (hpool ▸ hmax)
      obtain ⟨r, hsmall, hr⟩ :=
        allocSmall_record hobtained hchain hmax (hs₁ ▸ hspared.obtain) hrecord
      rw [hsmall] at hcall
      cases hcall
      have hsame : (Served.addRecord ⟨r.heap, r.ret, []⟩ s₁.pool.addr p).heap =
          (r.addRecord s₁.pool.addr p).heap := by
        simp only [Served.addRecord]
        split <;> rfl
      simp only [hsame]
      exact hr.heap
    · rw [if_neg hmax] at hcall
      obtain ⟨_, hlarge, hcall⟩ := Option.bind_eq_some_iff.mp hcall
      obtain ⟨_, -, rfl⟩ := Option.map_eq_some_iff.mp hlarge
      cases hcall

/-- `mp_alloc` and `mp_nalloc`, which differ in their values. -/
theorem serve_holds {round : ℕ → ℕ} {ret : ℕ → Option ℕ} (h : heap.Holds s pending)
    (hchain : s.pool.chain.length ≤ fuel) (hlarge : s.pool.large.length < fuel)
    (hspares : s.pool.max < size → s.LargeSpares sizeofPool grants.addrs)
    (hlawful : Lawful (serveAfter round grants.addrs s size).trace)
    {large : Option (Heap × Option ℕ)} (hcall : (if size ≤ heap.mem s.pool.addr then
      (heap.allocSmall fuel round grants s.pool.addr size).map fun r => (r.heap, ret r.ret)
      else large) = some out)
    (hlast : large = some out → ∃ ret,
      mpAllocLarge fuel grants heap s.pool.addr size = some (out.1, ret)) :
    out.1.Holds (serveAfter round grants.addrs s size) pending := by
  rw [h.pool.max] at hcall
  rw [serveAfter] at hlawful ⊢
  by_cases hsize : size ≤ s.pool.max
  · rw [if_pos hsize] at hlawful hcall ⊢
    obtain ⟨r, hsmall, hr⟩ := allocSmall_holds h hchain hlawful
    rw [hsmall] at hcall
    cases hcall
    exact hr.heap
  · rw [if_neg hsize] at hlawful hcall ⊢
    obtain ⟨ret, hcall⟩ := hlast hcall
    have hholds := mpAllocLarge_holds h hchain hlarge (hspares (Nat.not_le.mp hsize)) hlawful hcall
    exact hholds

theorem mpAlloc_holds (h : heap.Holds s pending)
    (hchain : s.pool.chain.length ≤ fuel) (hlarge : s.pool.large.length < fuel)
    (hspares : s.pool.max < size → s.LargeSpares sizeofPool grants.addrs)
    (hlawful : Lawful (serveAfter mpAlignPtr grants.addrs s size).trace)
    (hcall : mpAlloc fuel grants heap s.pool.addr size = some out) :
    out.1.Holds (serveAfter mpAlignPtr grants.addrs s size) pending := by
  refine serve_holds h hchain hlarge hspares hlawful hcall fun hlast => ?_
  obtain ⟨⟨heap', ret⟩, hlarge, rfl⟩ := Option.map_eq_some_iff.mp hlast
  exact ⟨ret, hlarge⟩

theorem mpCalloc_holds (h : heap.Holds s pending)
    (hchain : s.pool.chain.length ≤ fuel) (hspares : size ≤ s.pool.max → s.Spares size size)
    (hlawful : Lawful (serveAfter mpAlignPtr grants.addrs s size).trace)
    (hcall : mpCalloc fuel grants heap s.pool.addr size = some out) :
    out.1.Holds (serveAfter mpAlignPtr grants.addrs s size) pending := by
  obtain ⟨⟨heap', ret⟩, hserve, hcall⟩ := Option.bind_eq_some_iff.mp hcall
  obtain ⟨p, rfl, rfl⟩ := Option.map_eq_some_iff.mp hcall
  rw [mpAlloc, h.pool.max] at hserve
  rw [serveAfter] at hlawful ⊢
  by_cases hsize : size ≤ s.pool.max
  · rw [if_pos hsize] at hlawful hserve ⊢
    obtain ⟨r, hsmall, hr⟩ := allocSmall_holds h hchain hlawful
    rw [hsmall] at hserve
    cases hserve
    by_cases hret : r.ret = 0
    · simp only [hret, if_true]
      exact hr.heap
    · simp only [hret, if_false]
      rw [hr.ret] at hret ⊢
      exact clear_holds hr.heap (allocSmall_spares h.intact (hspares hsize) hlawful hret).1
  · -- a large block has no value that could be compared with `NULL`
    rw [if_neg hsize] at hserve
    obtain ⟨_, -, hnone⟩ := Option.map_eq_some_iff.mp hserve
    cases hnone

theorem mpResetPool_holds (h : heap.Holds s []) (hchain : s.pool.chain.length < fuel)
    (hlarge : s.pool.large.length < fuel) :
    ∃ heap', mpResetPool fuel heap s.pool.addr = some heap' ∧ heap'.Holds (resetAfter s) [] := by
  have hlinked := h.pool.chain
  rw [Pool.chain, List.map_cons, linked_cons, h.pool.head] at hlinked
  have hfuel : s.pool.nodes.length < fuel := Nat.lt_of_succ_lt hchain
  have hsplit : s.pool.chain = [s.pool.head] ++ s.pool.nodes := rfl
  obtain ⟨heap', hloops, hholds⟩ : ∃ k : Heap, _ = some k ∧ k.Holds (resetAfter s) [] :=
    reset_holds h hsplit hlinked.2.2 hfuel hlarge rfl rfl rfl rfl rfl
  refine ⟨heap', ?_, hholds⟩
  rw [← hloops, mpResetPool, freeLarge_eq h.pool.large h.pool.allocs h.trace hlarge]
  simp only [Option.bind_some, Heap.write]
  rw [Function.update_of_ne (by omega)]

/-- **Refinement.** A call that has a result leaves the memory of the call on the lists. -/
theorem call_holds {c : Call} {ret : Option ℕ} (h : heap.Holds s [])
    (hchain : s.pool.chain.length < fuel) (hlarge : s.pool.large.length < fuel)
    (hspared : s.Spared sizeofPool c.shape) (hlawful : Lawful (after s c.shape).trace)
    (hcall : call fuel heap s.pool.addr c = some (heap', ret)) :
    heap'.Holds (after s c.shape) [] := by
  have hle := Nat.le_of_lt hchain
  cases c with
  | mpAlloc size grants => exact mpAlloc_holds h hle hlarge hspared hlawful hcall
  | mpNalloc size grants =>
    exact serve_holds h hle hlarge hspared hlawful hcall fun hlast => ⟨ret, hlast⟩
  | mpCalloc size grants => exact mpCalloc_holds h hle hspared.1 hlawful hcall
  | mpMemalign size alignment grants => exact mpMemalign_holds h hle hspared hlawful hcall
  | mpFree p =>
    obtain ⟨k, hfree, hk⟩ := mpFree_holds (p := p) h hlarge
    rw [call, hfree] at hcall
    cases hcall
    exact hk
  | mpResetPool =>
    obtain ⟨k, hreset, hk⟩ := mpResetPool_holds h hchain hlarge
    rw [call, hreset] at hcall
    cases hcall
    exact hk
  | store a v =>
    cases hcall
    refine ⟨⟨h.pool.congr fun b hb => Function.update_of_ne ?_ _ _, h.trace⟩, h.intact⟩
    rintro rfl
    exact hspared hb

/-! ### The place and the size of the pool -/

theorem largeAfter_grows {answers : Answers} : s.Grows (largeAfter answers s size) := by
  rcases answers with _ | ⟨_ | p, answers⟩
  · exact .same s _
  · exact .same s _
  · have hsmall := allocSmall_grows mpAlignPtr answers (s.log (.obtain 16 ⟨p, size⟩)) sizeofPool
    rw [largeAfter]
    split
    · rename_i large hreuse
      exact .records (reuseRecord_addr hreuse)
    · split
      · rw [recordAfter]
        split
        · exact ⟨hsmall.addr, hsmall.chain, hsmall.large⟩
        · obtain ⟨haddr, hchain, hlarge⟩ :=
            addRecord_grows hsmall fun _ => allocSmall_large _ _ _ _
          exact ⟨haddr, hchain, hlarge⟩
      · exact .same s _

theorem memalignAfter_grows {answers : Answers} {alignment : ℕ} :
    s.Grows (memalignAfter answers s size alignment) := by
  rcases answers with _ | ⟨_ | p, answers⟩
  · exact .same s _
  · exact .same s _
  · rw [memalignAfter]
    split
    · obtain ⟨haddr, hchain, hlarge⟩ := addRecord_grows
        (allocSmall_grows mpAlignPtr answers (s.log (.obtain alignment ⟨p, size⟩)) sizeofLarge)
        fun _ => allocSmall_large _ _ _ _
      exact ⟨haddr, hchain, hlarge⟩
    · exact .same s _

theorem serveAfter_grows (round : ℕ → ℕ) {answers : Answers} :
    s.Grows (serveAfter round answers s size) := by
  rw [serveAfter]
  split
  · exact allocSmall_grows _ _ _ _
  · exact largeAfter_grows

theorem after_grows (s : State) (x : Op ⊕ ℕ) : s.Grows (after s x) := by
  cases x with
  | inr a => exact .same s _
  | inl op =>
    cases op with
    | mpAlloc size answers => exact serveAfter_grows mpAlignPtr
    | mpNalloc size answers => exact serveAfter_grows id
    | mpCalloc size answers => exact serveAfter_grows mpAlignPtr
    | mpMemalign size alignment answers => exact memalignAfter_grows
    | mpFree p => exact Mempool.mpFree_grows
    | mpResetPool => exact ⟨rfl, by simp [after, resetAfter, Pool.chain], Nat.zero_le _⟩

theorem largeAfter_max {answers : Answers} :
    (largeAfter answers s size).pool.max = s.pool.max := by
  rcases answers with - | ⟨- | p, answers⟩
  · rfl
  · rfl
  · rw [largeAfter]
    split
    · rfl
    · split
      · rw [recordAfter]
        split
        · exact allocSmall_max mpAlignPtr
        · exact (addRecord_max _).trans (allocSmall_max mpAlignPtr)
      · rfl

theorem memalignAfter_max {answers : Answers} {alignment : ℕ} :
    (memalignAfter answers s size alignment).pool.max = s.pool.max := by
  rcases answers with - | ⟨- | p, answers⟩
  · rfl
  · rfl
  · rw [memalignAfter]
    split
    · exact (addRecord_max _).trans (allocSmall_max mpAlignPtr)
    · rfl

theorem serveAfter_max {round : ℕ → ℕ} {answers : Answers} :
    (serveAfter round answers s size).pool.max = s.pool.max := by
  rw [serveAfter]
  split
  · exact allocSmall_max round
  · exact largeAfter_max

theorem after_max (s : State) (x : Op ⊕ ℕ) : (after s x).pool.max = s.pool.max := by
  cases x with
  | inr a => rfl
  | inl op =>
    cases op with
    | mpAlloc size answers => exact serveAfter_max
    | mpNalloc size answers => exact serveAfter_max
    | mpCalloc size answers => exact serveAfter_max
    | mpMemalign size alignment answers => exact memalignAfter_max
    | mpFree p => exact step_max s (.mpFree p)
    | mpResetPool => rfl

/-! ## Runs -/

def next (fuel pool : ℕ) (h : Heap) (c : Call) : Option Heap := (call fuel h pool c).map Prod.fst

/-- Nothing is written over the pool's own data, and the system keeps its contract. -/
def Careful (pool : ℕ) (h : Heap) (c : Call) : Prop :=
  ∃ s, h.Shows s ∧ s.pool.addr = pool ∧ s.Spared sizeofPool c.shape ∧
    Lawful (after s c.shape).trace

theorem Careful.of_shows {c : Call} (h : Careful s.pool.addr heap c) (hs : heap.Shows s) :
    s.Spared sizeofPool c.shape ∧ Lawful (after s c.shape).trace := by
  obtain ⟨t, ht, haddr, hcareful⟩ := h
  rw [hs.unique ht haddr.symm]
  exact hcareful

end ServerKit.Mempool.Yzx
