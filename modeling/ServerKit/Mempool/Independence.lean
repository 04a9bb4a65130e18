import ServerKit.Mempool.Calls

/-! # The contents of fresh memory

`mp_create_pool` leaves `head->next` as it finds it. If the word is `NULL`, then what the pool
returns and frees does not depend on the contents of the memory that the system hands out, nor on
what the program writes into its blocks. -/

namespace ServerKit.Mempool

open ServerKit.SystemHeap ServerKit.System

/-- The memory after the calls, and their results. -/
def Heap.calls (fuel pool : ℕ) : Heap → List Call → Option (Heap × List ℕ)
  | h, [] => some (h, [])
  | h, c :: cs =>
    (h.call fuel pool c).bind fun (h, ret) =>
      (calls fuel pool h cs).map fun (h, rets) => (h, ret :: rets)

/-- The results of the calls from `mp_create_pool` to `mp_destory_pool`, and the history of the
system's memory. -/
def lifetime (fuel p size : ℕ) (contents : ℕ → ℕ) (calls : List Call) :
    Option (List ℕ × List Event) :=
  ((createPool p size contents).calls fuel p calls).bind fun (h, rets) =>
    (h.mpDestoryPool fuel p).map fun h => (rets, h.trace)

variable {heap heap' : Heap} {s : State} {calls calls' : List Call} {fuel p size : ℕ}
  {contents contents' : ℕ → ℕ}

/-- Two memories that hold the same state come to hold the same state, with the same results. -/
theorem calls_agree (h : heap.Holds s []) (h' : heap'.Holds s [])
    (hshape : calls.map Call.shape = calls'.map Call.shape)
    (hcareful : Admits (Heap.next fuel s.pool.addr) (Heap.Careful s.pool.addr) heap calls)
    (hroom : s.Room fuel calls.length) :
    ∃ k k' rets t, heap.calls fuel s.pool.addr calls = some (k, rets) ∧
      heap'.calls fuel s.pool.addr calls' = some (k', rets) ∧ k.Holds t [] ∧ k'.Holds t [] ∧
        t.pool.addr = s.pool.addr ∧ t.Room fuel 0 := by
  induction calls generalizing heap heap' s calls' with
  | nil =>
    rw [List.map_nil, eq_comm, List.map_eq_nil_iff] at hshape
    subst hshape
    exact ⟨heap, heap', [], s, rfl, rfl, h, h', rfl, hroom⟩
  | cons c cs ih =>
    cases calls' with
    | nil => simp at hshape
    | cons c' cs' =>
      obtain ⟨hc, hcs⟩ := List.cons.inj hshape
      obtain ⟨hguard, hrest⟩ := hcareful
      obtain ⟨hchain, hlarge⟩ := hroom
      rw [List.length_cons] at hchain hlarge
      have hltChain : s.pool.chain.length < fuel := by omega
      have hltLarge : s.pool.large.length < fuel := by omega
      have hs := hguard.of_shows h.toShows
      obtain ⟨k, hcall, hk⟩ := call_holds h hltChain hltLarge hs.1 hs.2
      have hs' := hs
      rw [hc] at hs'
      obtain ⟨k', hcall', hk'⟩ := call_holds h' hltChain hltLarge hs'.1 hs'.2
      rw [← hc] at hcall' hk'
      obtain ⟨haddr, hgrowsChain, hgrowsLarge⟩ := after_grows h.intact.small c.shape
      have hnext : Heap.next fuel s.pool.addr heap c = some k := by rw [Heap.next, hcall]; rfl
      have hadmits := hrest k hnext
      rw [← haddr] at hadmits
      obtain ⟨j, j', rets, t, hcalls, hcalls', hj, hj', ht, hroom⟩ :=
        ih hk hk' hcs hadmits ⟨by omega, by omega⟩
      rw [haddr] at hcalls hcalls' ht
      refine ⟨j, j', (s.after c.shape).2 :: rets, t, ?_, ?_, hj, hj', ht, hroom⟩
      · rw [Heap.calls, hcall, Option.bind_some]
        simp only [hcalls, Option.map_some]
      · rw [Heap.calls, hcall', Option.bind_some]
        simp only [hcalls', Option.map_some]

theorem created_room (p size : ℕ) {k : ℕ} (hfuel : k + 1 < fuel) :
    (mpCreatePool p size).Room fuel k :=
  ⟨by rw [Nat.add_comm]; exact hfuel, by rw [Nat.add_comm]; exact Nat.lt_of_succ_lt hfuel⟩

/-- `mp_destory_pool` after the calls. -/
theorem lifetime_eq {rets : List ℕ}
    (hcalls : (createPool p size contents).calls fuel p calls = some (heap, rets))
    (h : heap.Holds s []) (haddr : s.pool.addr = p) (hroom : s.Room fuel 0) :
    lifetime fuel p size contents calls = some (rets, mpDestoryPool s) := by
  have hdestroy := mpDestoryPool_eq h.toShows (Nat.le_of_lt hroom.chain) hroom.large
  rw [haddr] at hdestroy
  rw [lifetime, hcalls, Option.bind_some]
  simp only [hdestroy, Option.map_some]

/-- **Independence of fresh memory.** If `head->next` is `NULL` in two runs in which the system
gives the same addresses, and the pool's own data are not written over in the one, then both
return and free the same pointers. -/
theorem lifetime_independent (hsize : SizeFits size) (hnull : contents (p + 40) = 0)
    (hnull' : contents' (p + 40) = 0) (hlawful : Lawful (createPool p size contents).trace)
    (hshape : calls.map Call.shape = calls'.map Call.shape)
    (hcareful : Admits (Heap.next fuel p) (Heap.Careful p) (createPool p size contents) calls)
    (hfuel : calls.length + 1 < fuel) :
    ∃ out, lifetime fuel p size contents calls = some out ∧
      lifetime fuel p size contents' calls' = some out := by
  obtain ⟨k, k', rets, t, hcalls, hcalls', hk, hk', haddr, hroom⟩ :=
    calls_agree (createPool_holds hsize hlawful hnull) (createPool_holds hsize hlawful hnull')
      hshape hcareful (created_room p size hfuel)
  exact ⟨_, lifetime_eq hcalls hk haddr hroom, lifetime_eq hcalls' hk' haddr hroom⟩

/-- Blocks of all kinds, two of which the program writes, with the contents `v` of fresh memory. -/
def mixedCalls (v : ℕ) : List Call :=
  [.mpAlloc 100 [], .mpAlloc 1000 [some (65536, fun _ => v)], .mpCalloc 64 [],
    .mpMemalign 64 64 [some (131072, fun _ => v)], .mpFree 65536,
    .mpAlloc 200 [some (8192, fun _ => v)], .store 8224 v, .store 4160 v, .mpResetPool,
    .mpNalloc 10 []]

theorem lifetime_independent_mixedCalls :
    ∃ out, lifetime 12 4096 256 (fun _ => 0) (mixedCalls 0) = some out ∧
      lifetime 12 4096 256 (fun a => if a = 4136 then 0 else 7) (mixedCalls 7) = some out :=
  lifetime_independent (by decide) rfl rfl (by decide) rfl
    (admits_of_shapes (createPool_holds (by decide) (by decide) rfl) ⟨by decide, by decide⟩
      (by decide +kernel)) (by decide)

/-- A new pool is destroyed at once: with another word in `head->next`, this word is freed. -/
theorem lifetime_frees_garbage :
    Lawful (createPool 4096 64 fun a => if a = 4136 then 8192 else 0).trace ∧
      lifetime 3 4096 64 (fun _ => 0) [] =
        some ([], [.free 4096, .obtain 32 ⟨4096, 120⟩]) ∧
      lifetime 3 4096 64 (fun a => if a = 4136 then 8192 else 0) [] =
        some ([], [.free 4096, .free 8192, .obtain 32 ⟨4096, 120⟩]) :=
  ⟨by decide, rfl, rfl⟩

end ServerKit.Mempool
