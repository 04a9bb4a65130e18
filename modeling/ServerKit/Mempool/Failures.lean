import ServerKit.Mempool.Independence
import ServerKit.Mempool.Yzx

/-! # The nodes, their failures and `current` in memory

In both files the failures of the nodes and `current` follow from the length of the chain, as long
as the pool does not write over its own data. -/

namespace ServerKit.Mempool

open ServerKit.System ServerKit.SystemHeap ServerKit.WordMemory

/-- The failures of the nodes of a chain and `current`; at most seven nodes are inspected. -/
structure Heap.Failures (h : Heap) (pool : ℕ) (nodes : List ℕ) : Prop where
  chain : Linked h.mem 16 (pool + 24) nodes
  current : nodes[nodes.length - 7]? = some (h.mem (pool + 8))
  failed : ∀ i n, nodes[i]? = some n →
    h.mem (n + 24) = if i + 1 = nodes.length then 0 else min 6 (nodes.length - 2 - i)
  search : ∀ round size, ∃ found, findRoom h.mem round size 7 (h.mem (pool + 8)) = some found

/-- The two files. -/
inductive Source where
  | mmpool
  | yzxMempool
  deriving DecidableEq

def Source.createPool : Source → ℕ → ℕ → (ℕ → ℕ) → Heap
  | .mmpool => Mempool.createPool
  | .yzxMempool => Yzx.createPool

def Source.next (fuel pool : ℕ) : Source → Heap → Call → Option Heap
  | .mmpool => Heap.next fuel pool
  | .yzxMempool => Yzx.next fuel pool

def Source.Careful (pool : ℕ) : Source → Heap → Call → Prop
  | .mmpool => Heap.Careful pool
  | .yzxMempool => Yzx.Careful pool

/-- `yzx_mempool.c` leaves 24 bytes out of account. -/
def Source.Roomy (size : ℕ) : Source → Prop
  | .mmpool => True
  | .yzxMempool => 24 ≤ size

variable {src : Source} {heap heap' : Heap} {s : State} {calls : List Call} {c : Call}
  {contents : ℕ → ℕ} {fuel p size : ℕ}

theorem failures_of_holds (h : heap.Holds s []) :
    heap.Failures s.pool.addr (s.pool.chain.map (·.addr)) := by
  obtain ⟨hfailed, hcurrent⟩ := h.intact.ledger
  refine ⟨?_, ?_, ?_, ?_⟩
  · rw [← h.pool.head]
    exact h.pool.chain
  · rw [List.length_map, ← hcurrent]
    exact h.pool.current
  · intro i a ha
    rw [List.getElem?_map] at ha
    obtain ⟨n, hn, rfl⟩ := Option.map_eq_some_iff.mp ha
    obtain ⟨hlt, -⟩ := List.getElem?_eq_some_iff.mp hn
    have hentry := getElem?_ledger hlt
    rw [← hfailed, List.getElem?_map, hn] at hentry
    rw [List.length_map, (h.pool.nodes n (List.mem_of_getElem? hn)).failed]
    exact Option.some.inj hentry
  · intro round size
    refine ⟨_, h.pool.findRoom ?_⟩
    rw [List.length_drop, hcurrent]
    omega

/-- A new pool of either file. -/
theorem Source.holds_created (hsize : SizeFits size) (hroomy : src.Roomy size)
    (hnull : (src.createPool p size contents).mem (p + 40) = 0)
    (hlawful : Lawful (src.createPool p size contents).trace) :
    ∃ s, (src.createPool p size contents).Holds s [] ∧ s.pool.addr = p ∧
      s.pool.chain.length = 1 ∧ s.pool.large = [] := by
  cases src with
  | mmpool =>
    have hlen : add64 size (sizeofPool + sizeofNode) = size + 56 := Nat.mod_eq_of_lt hsize
    have hcontents : contents (p + 40) = 0 := by
      simpa [Source.createPool, Mempool.createPool, Heap.write, Heap.obtain, hlen] using hnull
    exact ⟨_, createPool_holds hsize hlawful hcontents, rfl, rfl, rfl⟩
  | yzxMempool => exact ⟨_, Yzx.createPool_holds hsize hroomy hlawful, rfl, rfl, rfl⟩

/-- A careful step of either file. -/
theorem Source.holds_step (h : heap.Holds s []) (hchain : s.pool.chain.length < fuel)
    (hlarge : s.pool.large.length < fuel) (hcareful : src.Careful s.pool.addr heap c)
    (hnext : src.next fuel s.pool.addr heap c = some heap') :
    ∃ s', heap'.Holds s' [] ∧ s.Grows s' ∧ s'.pool.max = s.pool.max := by
  cases src with
  | mmpool =>
    obtain ⟨hspared, hlawful⟩ := Heap.Careful.of_shows hcareful h.toShows
    obtain ⟨k, hcall, hk⟩ := call_holds h hchain hlarge hspared hlawful
    rw [Source.next, Heap.next, hcall] at hnext
    cases hnext
    exact ⟨_, hk, after_grows h.intact.small _, after_max _ _⟩
  | yzxMempool =>
    obtain ⟨hspared, hlawful⟩ := Yzx.Careful.of_shows hcareful h.toShows
    obtain ⟨⟨k, ret⟩, hcall, rfl⟩ := Option.map_eq_some_iff.mp hnext
    have hk := Yzx.call_holds h hchain hlarge hspared hlawful hcall
    exact ⟨_, hk, Yzx.after_grows _ _, Yzx.after_max _ _⟩

/-- A careful run of either file; there is room left for `k` more calls. -/
theorem Source.holds_exec (h : heap.Holds s []) {k : ℕ} (hroom : s.Room fuel (calls.length + k))
    (hcareful : Admits (src.next fuel s.pool.addr) (src.Careful s.pool.addr) heap calls)
    (hexec : exec (src.next fuel s.pool.addr) heap calls = some heap') :
    ∃ s', heap'.Holds s' [] ∧ s'.pool.addr = s.pool.addr ∧ s'.pool.max = s.pool.max ∧
      s'.Room fuel k := by
  induction calls generalizing heap s with
  | nil =>
    cases hexec
    exact ⟨s, h, rfl, rfl, by simpa using hroom⟩
  | cons c cs ih =>
    obtain ⟨hguard, hrest⟩ := hcareful
    obtain ⟨hchain, hlarge⟩ := hroom
    rw [List.length_cons] at hchain hlarge
    obtain ⟨k, hnext, hexec⟩ := Option.bind_eq_some_iff.mp hexec
    obtain ⟨t, hk, ⟨haddr, hgrowsChain, hgrowsLarge⟩, hmax⟩ :=
      Source.holds_step h (by omega) (by omega) hguard hnext
    have hadmits := hrest k hnext
    rw [← haddr] at hadmits hexec ⊢
    rw [← hmax]
    exact ih hk ⟨by omega, by omega⟩ hadmits hexec

/-- **The failures.** In every careful run of either file, from a pool whose `head->next` is
`NULL`, the failures and `current` follow from the length of the chain. -/
theorem failures_of_run (hsize : SizeFits size) (hroomy : src.Roomy size)
    (hnull : (src.createPool p size contents).mem (p + 40) = 0)
    (hlawful : Lawful (src.createPool p size contents).trace)
    (hcareful : Admits (src.next fuel p) (src.Careful p) (src.createPool p size contents) calls)
    (hfuel : calls.length + 1 < fuel)
    (hexec : exec (src.next fuel p) (src.createPool p size contents) calls = some heap) :
    ∃ nodes, heap.Failures p nodes := by
  obtain ⟨s, hs, rfl, hchain, hlarge⟩ := Source.holds_created hsize hroomy hnull hlawful
  have hroom : s.Room fuel (calls.length + 0) :=
    ⟨by rw [hchain]; omega, by rw [hlarge, List.length_nil]; omega⟩
  obtain ⟨t, ht, haddr, -, -⟩ := Source.holds_exec hs hroom hcareful hexec
  exact ⟨_, haddr ▸ failures_of_holds ht⟩

theorem failures_of_run_mixedCalls :
    ∃ heap, exec (Source.mmpool.next 12 4096) (Source.mmpool.createPool 4096 256 fun _ => 0)
        (mixedCalls 0) = some heap ∧ ∃ nodes, heap.Failures 4096 nodes := by
  obtain ⟨heap, hexec⟩ : ∃ heap, exec (Source.mmpool.next 12 4096)
      (Source.mmpool.createPool 4096 256 fun _ => 0) (mixedCalls 0) = some heap := ⟨_, rfl⟩
  have hroomy : Source.mmpool.Roomy 256 := trivial
  refine ⟨heap, hexec, failures_of_run (by decide) hroomy rfl (by decide) ?_ (by decide) hexec⟩
  exact admits_of_shapes (createPool_holds (by decide) (by decide) rfl) ⟨by decide, by decide⟩
    (by decide +kernel)

/-- A large block is the first one of a pool of `yzx_mempool.c`. Its record is laid over the header
of the head, and the block becomes a node of the chain, with the failures that are in it. -/
theorem record_over_head :
    Lawful (Source.yzxMempool.createPool 4096 4096 fun _ => 0).trace ∧
      ∃ heap, exec (Source.yzxMempool.next 3 4096)
          (Source.yzxMempool.createPool 4096 4096 fun _ => 0)
          [.mpAlloc 8192 [some (65536, fun a => if a = 65560 then 7 else 0)]] = some heap ∧
        Lawful heap.trace ∧ Linked heap.mem 16 4120 [4120, 65536] ∧ heap.mem 65560 = 7 ∧
          ∀ nodes, ¬ heap.Failures 4096 nodes := by
  have hrun : ∃ heap, exec (Source.yzxMempool.next 3 4096)
      (Source.yzxMempool.createPool 4096 4096 fun _ => 0)
      [.mpAlloc 8192 [some (65536, fun a => if a = 65560 then 7 else 0)]] = some heap ∧
        Lawful heap.trace ∧ Linked heap.mem 16 4120 [4120, 65536] ∧ heap.mem 65560 = 7 :=
    ⟨_, rfl, by decide +kernel, ⟨rfl, by decide, rfl, by decide, rfl⟩, rfl⟩
  obtain ⟨heap, hexec, hlawful, hchain, hfailed⟩ := hrun
  refine ⟨by decide, heap, hexec, hlawful, hchain, hfailed, fun nodes hfailures => ?_⟩
  cases hfailures.chain.unique hchain
  have hlast : heap.mem (65536 + 24) = 0 := hfailures.failed 1 65536 rfl
  rw [hfailed] at hlast
  cases hlast

end ServerKit.Mempool
