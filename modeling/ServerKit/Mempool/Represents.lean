import ServerKit.Lib.Linked
import ServerKit.Mempool.Intact
import ServerKit.Mempool.Memory

/-! # The pool that a memory holds

The lists of the model are the linked lists in the memory. As long as the headers and the records
lie apart from each other, every loop over a linked list is the one over the list. -/

namespace ServerKit.Mempool

open ServerKit.SystemHeap ServerKit.WordMemory

/-- The fields of a node besides its link. -/
structure NodeAt (mem : ℕ → ℕ) (n : Node) : Prop where
  last : mem n.addr = n.last
  endPtr : mem (n.addr + 8) = n.endPtr
  failed : mem (n.addr + 24) = n.failed

theorem NodeAt.congr {mem mem' : ℕ → ℕ} {n : Node} (h : NodeAt mem n)
    (hsame : ∀ c ≤ 24, mem' (n.addr + c) = mem (n.addr + c)) : NodeAt mem' n where
  last := (hsame 0 (by decide)).trans h.last
  endPtr := (hsame 8 (by decide)).trans h.endPtr
  failed := (hsame 24 (by decide)).trans h.failed

structure Represents (mem : ℕ → ℕ) (pool : Pool) : Prop where
  head : pool.head.addr = pool.addr + 24
  max : mem pool.addr = pool.max
  current : (pool.chain.map (·.addr))[pool.current]? = some (mem (pool.addr + 8))
  large : Linked mem 0 (mem (pool.addr + 16)) (pool.large.map (·.addr))
  allocs : ∀ l ∈ pool.large, mem (l.addr + 8) = l.alloc
  chain : Linked mem 16 pool.head.addr (pool.chain.map (·.addr))
  nodes : ∀ n ∈ pool.chain, NodeAt mem n

variable {mem mem' : ℕ → ℕ} {pool pool' : Pool} {fuel size p a : ℕ} {round : ℕ → ℕ}

/-! ## Words -/

/-- A word of the pool's own data. -/
def Pool.Word (pool : Pool) (a : ℕ) : Prop :=
  ∃ o ∈ pool.fixed, o.base ≤ a ∧ a + 8 ≤ o.base + o.len

instance (pool : Pool) (a : ℕ) : Decidable (pool.Word a) :=
  inferInstanceAs (Decidable (∃ o ∈ pool.fixed, _))

theorem header_mem_fixed (pool : Pool) : ⟨pool.addr, sizeofPool⟩ ∈ pool.fixed :=
  List.mem_cons_self

theorem node_mem_fixed {n : Node} (hn : n ∈ pool.chain) : ⟨n.addr, sizeofNode⟩ ∈ pool.fixed :=
  List.mem_append_left _
    (List.mem_cons_of_mem _ (List.mem_map_of_mem (f := Extent.header) (List.mem_map_of_mem hn)))

theorem record_mem_fixed {l : Large} (hl : l ∈ pool.large) : l.region ∈ pool.fixed :=
  List.mem_append_right _ (List.mem_map_of_mem hl)

theorem word_header (pool : Pool) {k : ℕ} (hk : k ≤ 16) : pool.Word (pool.addr + k) := by
  refine ⟨_, header_mem_fixed pool, Nat.le_add_right _ _, ?_⟩
  simp only [sizeofPool]
  omega

theorem word_node {n : Node} (hn : n ∈ pool.chain) {k : ℕ} (hk : k ≤ 24) :
    pool.Word (n.addr + k) := by
  refine ⟨_, node_mem_fixed hn, Nat.le_add_right _ _, ?_⟩
  simp only [sizeofNode]
  omega

theorem word_record {l : Large} (hl : l ∈ pool.large) {k : ℕ} (hk : k ≤ 8) :
    pool.Word (l.addr + k) := by
  refine ⟨_, record_mem_fixed hl, Nat.le_add_right _ _, ?_⟩
  simp only [Large.region, sizeofLarge]
  omega

/-- A pool with nothing but its head. -/
theorem Represents.created (hnodes : pool.nodes = []) (hlarge : pool.large = [])
    (hcurrent : pool.current = 0) (hhead : pool.head.addr = pool.addr + 24)
    (hmax : mem pool.addr = pool.max) (hfirst : mem (pool.addr + 8) = pool.addr + 24)
    (hrecords : mem (pool.addr + 16) = 0) (hnext : mem (pool.addr + 24 + 16) = 0)
    (hnode : NodeAt mem pool.head) : Represents mem pool where
  head := hhead
  max := hmax
  current := by simp [Pool.chain, hnodes, hcurrent, hhead, hfirst]
  large := by simp [hlarge, hrecords, linked_nil]
  allocs := by simp [hlarge]
  chain := by
    rw [Pool.chain, hnodes, List.map_singleton, linked_cons, hhead]
    exact ⟨rfl, by omega, hnext⟩
  nodes := by
    rw [Pool.chain, hnodes]
    exact fun n hn => List.mem_singleton.mp hn ▸ hnode

/-- A pool depends on its own words only. -/
theorem Represents.congr (h : Represents mem pool) (hsame : ∀ a, pool.Word a → mem' a = mem a) :
    Represents mem' pool where
  head := h.head
  max := (hsame _ (word_header pool (Nat.zero_le 16))).trans h.max
  current := by rw [hsame _ (word_header pool (by decide)), h.current]
  large := by
    rw [hsame _ (word_header pool (by decide))]
    exact h.large.congr (List.forall_mem_map.mpr fun l hl => hsame _ (word_record hl (by decide)))
  allocs := fun l hl => (hsame _ (word_record hl (by decide))).trans (h.allocs l hl)
  chain := by
    exact h.chain.congr (List.forall_mem_map.mpr fun n hn => hsame _ (word_node hn (by decide)))
  nodes := fun n hn => (h.nodes n hn).congr fun _ hc => hsame _ (word_node hn hc)

/-- The head stays the first of the chain. -/
theorem head_addr_of_chain {new : List ℕ}
    (h : pool'.chain.map (·.addr) = pool.chain.map (·.addr) ++ new) :
    pool'.head.addr = pool.head.addr := by
  rw [Pool.chain, Pool.chain, List.map_cons, List.map_cons, List.cons_append] at h
  exact (List.cons.inj h).1

/-- New values in the fields, with the same links. -/
theorem Represents.values (h : Represents mem pool) (haddr : pool'.addr = pool.addr)
    (hchain : pool'.chain.map (·.addr) = pool.chain.map (·.addr))
    (hlarge : pool'.large.map (·.addr) = pool.large.map (·.addr))
    (hcurrent : (pool.chain.map (·.addr))[pool'.current]? = some (mem' (pool.addr + 8)))
    (hlinks : mem' (pool.addr + 16) = mem (pool.addr + 16) ∧
      (∀ n ∈ pool.chain, mem' (n.addr + 16) = mem (n.addr + 16)) ∧
      ∀ l ∈ pool.large, mem' l.addr = mem l.addr)
    (hmax : mem' pool'.addr = pool'.max) (hnodes : ∀ n ∈ pool'.chain, NodeAt mem' n)
    (hallocs : ∀ l ∈ pool'.large, mem' (l.addr + 8) = l.alloc) : Represents mem' pool' := by
  obtain ⟨hfirst, hnext, hrecord⟩ := hlinks
  have hhead := head_addr_of_chain (hchain.trans (List.append_nil _).symm)
  refine ⟨by rw [hhead, haddr, h.head], hmax, ?_, ?_, hallocs, ?_, hnodes⟩
  · rw [hchain, haddr, hcurrent]
  · rw [hlarge, haddr, hfirst]
    exact h.large.congr (List.forall_mem_map.mpr hrecord)
  · rw [hchain, hhead]
    exact h.chain.congr (List.forall_mem_map.mpr hnext)

/-- The memory decides the pool at an address. -/
theorem Represents.unique (h : Represents mem pool) (h' : Represents mem pool')
    (haddr : pool.addr = pool'.addr) : pool = pool' := by
  have haddrs : pool.chain.map (·.addr) = pool'.chain.map (·.addr) := by
    have hchain := h'.chain
    rw [h'.head, ← haddr, ← h.head] at hchain
    exact h.chain.unique hchain
  have hnodes : ∀ {q : Pool}, Represents mem q → (q.chain.map (·.addr)).map
      (fun a => ⟨a, mem a, mem (a + 8), mem (a + 24)⟩) = q.chain := by
    intro q hq
    rw [List.map_map]
    refine (List.map_congr_left fun n hn => ?_).trans (List.map_id _)
    obtain ⟨hlast, hend, hfailed⟩ := hq.nodes n hn
    simp only [Function.comp_apply, hlast, hend, hfailed, id]
  have hrecords : ∀ {q : Pool}, Represents mem q → (q.large.map (·.addr)).map
      (fun a => ⟨a, mem (a + 8)⟩) = q.large := by
    intro q hq
    rw [List.map_map]
    refine (List.map_congr_left fun l hl => ?_).trans (List.map_id _)
    simp only [Function.comp_apply, hq.allocs l hl, id]
  have hchain : pool.chain = pool'.chain := by rw [← hnodes h, haddrs, hnodes h']
  have hlarge : pool.large = pool'.large := by
    have hlinked := h'.large
    rw [← haddr] at hlinked
    rw [← hrecords h, h.large.unique hlinked, hrecords h']
  have hcurrent : pool.current = pool'.current := by
    have hget := h'.current
    rw [← haddrs, ← haddr, ← h.current] at hget
    have hlt : pool.current < (pool.chain.map (·.addr)).length :=
      (List.getElem?_eq_some_iff.mp h.current).1
    exact (List.getElem?_inj hlt h.chain.nodup).mp hget.symm
  have hmax : pool.max = pool'.max := by rw [← h.max, ← h'.max, haddr]
  rw [Pool.chain, Pool.chain, List.cons.injEq] at hchain
  cases pool
  cases pool'
  simp_all only

/-! ## The pool's own data lie apart -/

structure Pool.Separate (pool : Pool) : Prop where
  headerNode : ∀ n ∈ pool.chain, pool.addr + 24 ≤ n.addr ∨ n.addr + 32 ≤ pool.addr
  headerRecord : ∀ l ∈ pool.large, pool.addr + 24 ≤ l.addr ∨ l.addr + 16 ≤ pool.addr
  nodes : pool.chain.Pairwise fun n k => n.addr + 32 ≤ k.addr ∨ k.addr + 32 ≤ n.addr
  nodeRecord : ∀ n ∈ pool.chain, ∀ l ∈ pool.large, n.addr + 32 ≤ l.addr ∨ l.addr + 16 ≤ n.addr
  records : pool.large.Pairwise fun l k => l.addr + 16 ≤ k.addr ∨ k.addr + 16 ≤ l.addr

theorem separate_of_packed (h : Packed pool.fixed) : pool.Separate := by
  rw [Pool.fixed_eq, List.map_map, List.map_map] at h
  obtain ⟨hfront, hrecords, hcross⟩ := List.pairwise_append.mp h
  obtain ⟨hheader, hnodes⟩ := List.pairwise_cons.mp hfront
  have hnode : ∀ n ∈ pool.chain, (⟨n.addr, sizeofNode⟩ : Region) ∈
      pool.chain.map ((fun a => (⟨a, sizeofNode⟩ : Region)) ∘ (·.addr)) :=
    fun n hn => List.mem_map_of_mem hn
  have hrecord : ∀ l ∈ pool.large, (⟨l.addr, sizeofLarge⟩ : Region) ∈
      pool.large.map ((fun a => (⟨a, sizeofLarge⟩ : Region)) ∘ (·.addr)) :=
    fun l hl => List.mem_map_of_mem hl
  exact {
    headerNode := fun n hn => hheader _ (hnode n hn)
    headerRecord := fun l hl => hcross _ List.mem_cons_self _ (hrecord l hl)
    nodes := List.pairwise_map.mp hnodes
    nodeRecord := fun n hn l hl => hcross _ (List.mem_cons_of_mem _ (hnode n hn)) _ (hrecord l hl)
    records := List.pairwise_map.mp hrecords }

theorem Pool.Separate.nodup (h : pool.Separate) : (pool.chain.map (·.addr)).Nodup := by
  rw [List.Nodup, List.pairwise_map]
  exact h.nodes.imp fun hapart => by omega

/-- Two nodes are the same one or lie apart. -/
theorem Pool.Separate.node (h : pool.Separate) {n k : Node} (hn : n ∈ pool.chain)
    (hk : k ∈ pool.chain) : n = k ∨ n.addr + 32 ≤ k.addr ∨ k.addr + 32 ≤ n.addr := by
  have hsymm : Std.Symm fun n k : Node => n.addr + 32 ≤ k.addr ∨ k.addr + 32 ≤ n.addr :=
    ⟨fun _ _ => Or.symm⟩
  by_cases heq : n = k
  · exact .inl heq
  · exact .inr (h.nodes.forall hn hk heq)

theorem Pool.Separate.record (h : pool.Separate) {l k : Large} (hl : l ∈ pool.large)
    (hk : k ∈ pool.large) : l = k ∨ l.addr + 16 ≤ k.addr ∨ k.addr + 16 ≤ l.addr := by
  have hsymm : Std.Symm fun l k : Large => l.addr + 16 ≤ k.addr ∨ k.addr + 16 ≤ l.addr :=
    ⟨fun _ _ => Or.symm⟩
  by_cases heq : l = k
  · exact .inl heq
  · exact .inr (h.records.forall hl hk heq)

end ServerKit.Mempool
