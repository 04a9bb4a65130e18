import ServerKit.Mempool.Loops

/-! # The pool in memory refines the pool of lists

A memory holds a state if its words are the fields of the pool and the pool's own data are intact.
Every call takes a memory that holds a state to one that holds the state after the call. -/

namespace ServerKit.Mempool

open ServerKit.SystemHeap ServerKit.WordMemory

/-- The fields and the history of a state. -/
structure Heap.Shows (h : Heap) (s : State) : Prop where
  pool : Represents h.mem s.pool
  trace : h.trace = s.trace

structure Heap.Holds (h : Heap) (s : State) (pending : List Region) : Prop extends h.Shows s where
  intact : s.Intact pending

/-- What a call leaves and returns is what the call on the lists does. -/
structure Served.Holds (r : Served) (r' : Result) (pending : List Region) : Prop where
  heap : r.heap.Holds r'.state pending
  ret : r.ret = r'.ret
  grants : r.grants.addrs = r'.answers

variable {heap : Heap} {s : State} {pending : List Region} {grants : Grants} {mem : ℕ → ℕ}
  {round : ℕ → ℕ} {pool : Pool} {r : Region} {fuel size p a : ℕ}

/-! ## Writing apart from the pool -/

/-- A word of the pool lies outside of what is apart from its own data. -/
theorem Pool.Word.outside (hword : pool.Word a) (hdisjoint : ∀ o ∈ pool.fixed, r.Disjoint o) :
    ¬ (r.base ≤ a ∧ a < r.base + r.len) := by
  obtain ⟨o, ho, hbase, hend⟩ := hword
  have hapart := hdisjoint o ho
  rw [Region.Disjoint] at hapart
  omega

theorem Heap.Holds.separate (h : heap.Holds s pending) : s.pool.Separate :=
  separate_of_packed h.intact.packed

theorem obtain_holds {alignment : ℕ} (h : heap.Holds s pending) (contents : ℕ → ℕ)
    (hfresh : Fresh alignment r (live s.trace)) :
    (heap.obtain alignment r contents).Holds (s.log (.obtain alignment r)) (r :: pending) where
  pool := by
    apply h.pool.congr
    intro a ha
    exact if_neg (ha.outside fun o ho => h.intact.fresh_disjoint hfresh ho)
  trace := congrArg (List.cons _) h.trace
  intact := h.intact.obtained hfresh

/-- `memset` on memory apart from the pool's own data. -/
theorem clear_holds (h : heap.Holds s pending)
    (hdisjoint : ∀ o ∈ s.pool.fixed, Region.Disjoint ⟨p, size⟩ o) :
    (heap.clear p size).Holds s pending where
  pool := by
    apply h.pool.congr
    intro a ha
    exact if_neg (ha.outside hdisjoint)
  trace := h.trace
  intact := h.intact

/-! ## Small blocks -/

/-- The nodes from `current` on. -/
theorem Represents.fromCurrent (h : Represents mem pool) :
    Linked mem 16 (mem (pool.addr + 8)) ((pool.chain.drop pool.current).map (·.addr)) ∧
      pool.chain.drop pool.current ≠ [] := by
  obtain ⟨hlt, hget⟩ := List.getElem?_eq_some_iff.mp h.current
  have hdrop := List.drop_eq_getElem_cons hlt
  have hchain := h.chain
  rw [← List.take_append_drop pool.current (pool.chain.map (·.addr)), hdrop, hget] at hchain
  rw [List.map_drop, hdrop, hget]
  refine ⟨hchain.suffix, ?_⟩
  rw [Ne, List.drop_eq_nil_iff, Nat.not_le]
  simpa using hlt

theorem Represents.findRoom (h : Represents mem pool)
    (hfuel : (pool.chain.drop pool.current).length ≤ fuel) :
    findRoom mem round size fuel (mem (pool.addr + 8)) =
      some ((pool.taker round size).map fun n => (n.addr, round n.last)) := by
  obtain ⟨hlinked, hne⟩ := h.fromCurrent
  exact findRoom_eq hlinked (fun n hn => h.nodes n (List.mem_of_mem_drop hn)) hne hfuel

/-- New values of `last`. -/
theorem Represents.lasts (h : Represents mem pool) (hapart : pool.Separate) {pool' : Pool}
    {mem' : ℕ → ℕ}
    (hsame : pool'.addr = pool.addr ∧ pool'.max = pool.max ∧ pool'.large = pool.large)
    (hcurrent : pool'.current = pool.current)
    (hchain : pool'.chain.map (·.addr) = pool.chain.map (·.addr))
    (hkeep : ∀ b, (∀ n ∈ pool.chain, b ≠ n.addr) → mem' b = mem b)
    (hnodes : ∀ n ∈ pool'.chain, NodeAt mem' n) : Represents mem' pool' := by
  obtain ⟨haddr, hmax, hlarge⟩ := hsame
  have hheader : ∀ c ≤ 16, mem' (pool.addr + c) = mem (pool.addr + c) := by
    intro c hc
    refine hkeep _ fun n hn => ?_
    have hn := hapart.headerNode n hn
    omega
  have hrecord : ∀ l ∈ pool.large, ∀ c ≤ 8, mem' (l.addr + c) = mem (l.addr + c) := by
    intro l hl c hc
    refine hkeep _ fun n hn => ?_
    have hn := hapart.nodeRecord n hn l hl
    omega
  refine h.values haddr hchain (by rw [hlarge]) ?_ ⟨hheader 16 (by decide), ?_,
    fun l hl => hrecord l hl 0 (by decide)⟩ ?_ hnodes ?_
  · rw [hcurrent, hheader 8 (by decide), h.current]
  · intro k hk
    refine hkeep _ fun n hn => ?_
    rcases hapart.node hk hn with rfl | hne <;> omega
  · rw [haddr, hmax]
    exact (hheader 0 (by decide)).trans h.max
  · rw [hlarge]
    exact fun l hl => (hrecord l hl 8 (by decide)).trans (h.allocs l hl)

/-- A new `last` of one node. -/
theorem Represents.setLast (h : Represents mem pool) (hapart : pool.Separate) {pool' : Pool}
    {pre post : List Node} {n : Node} {last : ℕ}
    (hsame : pool'.addr = pool.addr ∧ pool'.max = pool.max ∧ pool'.large = pool.large)
    (hcurrent : pool'.current = pool.current) (hchain : pool.chain = pre ++ n :: post)
    (hchain' : pool'.chain = pre ++ { n with last := last } :: post) :
    Represents (Function.update mem n.addr last) pool' := by
  have hn : n ∈ pool.chain := by simp [hchain]
  have hother : ∀ k ∈ pre ++ post, n.addr + 32 ≤ k.addr ∨ k.addr + 32 ≤ n.addr := by
    have hnodes := hapart.nodes
    rw [hchain, List.pairwise_middle fun h => Or.symm h] at hnodes
    exact fun k hk => List.rel_of_pairwise_cons hnodes hk
  have hkeep : ∀ b, b ≠ n.addr → Function.update mem n.addr last b = mem b :=
    fun b hb => Function.update_of_ne hb _ _
  refine h.lasts hapart hsame hcurrent (by simp [hchain, hchain'])
    (fun b hb => hkeep b (hb n hn)) fun k hk => ?_
  rw [hchain', List.mem_append, List.mem_cons] at hk
  rcases or_left_comm.mp hk with rfl | hk
  · exact ⟨Function.update_self _ _ _, (hkeep _ (by simp)).trans (h.nodes n hn).endPtr,
      (hkeep _ (by simp)).trans (h.nodes n hn).failed⟩
  · have happart := hother k (List.mem_append.mpr hk)
    have hmem : k ∈ pool.chain := by
      rw [hchain]
      exact List.mem_append.mpr (hk.imp_right (List.mem_cons_of_mem _))
    exact (h.nodes k hmem).congr fun c hc => hkeep _ (by omega)

theorem newNode_apart {node last endPtr : ℕ} (ha : ¬ (node ≤ a ∧ a < node + sizeofNode)) :
    (heap.newNode node last endPtr).mem a = heap.mem a := by
  simp only [sizeofNode] at ha
  simp only [Heap.newNode, Heap.write]
  rw [Function.update_of_ne (by omega), Function.update_of_ne (by omega),
    Function.update_of_ne (by omega), Function.update_of_ne (by omega)]

theorem newNode_at (heap : Heap) {node : Node} (hfailed : node.failed = 0) :
    NodeAt (heap.newNode node.addr node.last node.endPtr).mem node ∧
      (heap.newNode node.addr node.last node.endPtr).mem (node.addr + 16) = 0 := by
  simp only [Heap.newNode, Heap.write]
  refine ⟨⟨?_, ?_, ?_⟩, ?_⟩
  · rw [Function.update_self]
  · rw [Function.update_of_ne (by omega), Function.update_of_ne (by omega),
      Function.update_of_ne (by omega), Function.update_self]
  · rw [Function.update_of_ne (by omega), Function.update_self, hfailed]
  · rw [Function.update_of_ne (by omega), Function.update_of_ne (by omega), Function.update_self]

/-- The pool in which a failure is counted of every node from `current` on but the last. -/
def Pool.counted (pool : Pool) : Pool :=
  let counted := countFailures pool.current pool.current (pool.chain.drop pool.current)
  pool.replace counted.1 counted.2

theorem countFailures_ne_nil {i current : ℕ} {nodes : List Node} (hne : nodes ≠ []) :
    (countFailures i current nodes).1 ≠ [] := by
  have hmap := countFailures_map (f := Node.addr) (fun _ _ => rfl) i current nodes
  exact fun hnil => hne (by simpa [hnil] using hmap.symm)

theorem counted_addrs (hne : pool.chain.drop pool.current ≠ []) :
    pool.counted.chain.map (·.addr) = pool.chain.map (·.addr) := by
  rw [Pool.counted, replace_chain (countFailures_ne_nil hne), List.map_append,
    countFailures_map fun _ _ => rfl, ← List.map_append, List.take_append_drop]

/-- The memory after the loop of `mp_alloc_block`, once `current` is stored. -/
theorem Represents.count (h : Represents mem pool) (hapart : pool.Separate) {mem' : ℕ → ℕ}
    {last current : ℕ} (hcounted : Counted mem mem' (pool.chain.drop pool.current)
      (countFailures pool.current pool.current (pool.chain.drop pool.current))
      (pool.chain.map (·.addr)) last current) :
    Represents (Function.update mem' (pool.addr + 8) current) pool.counted := by
  obtain ⟨-, hne⟩ := h.fromCurrent
  obtain ⟨haddr, hmax, hlarge⟩ : pool.counted.addr = pool.addr ∧ pool.counted.max = pool.max ∧
      pool.counted.large = pool.large := replace_same _ _ _
  have hdrop : ∀ k ∈ pool.chain.drop pool.current, k ∈ pool.chain :=
    fun k hk => List.mem_of_mem_drop hk
  generalize hfinal : Function.update mem' (pool.addr + 8) current = final
  have hwrite : ∀ b, b ≠ pool.addr + 8 → final b = mem' b := by
    intro b hb
    rw [← hfinal, Function.update_of_ne hb]
  have hkeep : ∀ b, b ≠ pool.addr + 8 → (∀ k ∈ pool.chain.drop pool.current, b ≠ k.addr + 24) →
      final b = mem b := fun b hb hcount => (hwrite b hb).trans (hcounted.same b hcount)
  have hheader : ∀ c ≤ 16, c ≠ 8 → final (pool.addr + c) = mem (pool.addr + c) := by
    intro c hc hother
    refine hkeep _ (by omega) fun k hk => ?_
    have hk := hapart.headerNode k (hdrop k hk)
    omega
  have hrecord : ∀ l ∈ pool.large, ∀ c ≤ 8, final (l.addr + c) = mem (l.addr + c) := by
    intro l hl c hc
    have hhead := hapart.headerRecord l hl
    refine hkeep _ (by omega) fun k hk => ?_
    have hk := hapart.nodeRecord k (hdrop k hk) l hl
    omega
  have hnode : ∀ n ∈ pool.chain, ∀ c ≤ 24, (c = 24 → n ∉ pool.chain.drop pool.current) →
      final (n.addr + c) = mem (n.addr + c) := by
    intro n hn c hc hfailed
    have hhead := hapart.headerNode n hn
    refine hkeep _ (by omega) fun q hq => ?_
    rcases hapart.node hn (hdrop q hq) with rfl | hother
    · exact fun heq => hfailed (Nat.add_left_cancel heq) hq
    · omega
  refine h.values haddr (counted_addrs hne) (by rw [hlarge]) ?_
    ⟨hheader 16 (by decide) (by decide), fun n hn => hnode n hn 16 (by decide) (by simp),
      fun l hl => hrecord l hl 0 (by decide)⟩ ?_ ?_ ?_
  · rw [Pool.counted, replace_current (countFailures_ne_nil hne), hcounted.current, ← hfinal,
      Function.update_self]
  · rw [haddr, hmax]
    exact (hheader 0 (by decide) (by decide)).trans h.max
  · intro k hk
    rw [Pool.counted, replace_chain (countFailures_ne_nil hne), List.mem_append] at hk
    rcases hk with hold | hcount
    · -- before `current` nothing has been counted
      have hmem := List.mem_of_mem_take hold
      have hnotMem : k ∉ pool.chain.drop pool.current :=
        List.disjoint_take_drop (List.Nodup.of_map _ hapart.nodup) (Nat.le_refl _) hold
      exact (h.nodes k hmem).congr fun c hc => hnode k hmem c hc fun _ => hnotMem
    · obtain ⟨q, hq, hqk⟩ : ∃ q ∈ pool.chain.drop pool.current, q.addr = k.addr := by
        have hmem := List.mem_map_of_mem (f := Node.addr) hcount
        rw [countFailures_map fun _ _ => rfl] at hmem
        exact List.mem_map.mp hmem
      have hhead := hapart.headerNode q (hdrop q hq)
      exact (hcounted.nodes k hcount).congr fun c hc => hwrite _ (by omega)
  · rw [hlarge]
    exact fun l hl => (hrecord l hl 8 (by decide)).trans (h.allocs l hl)

/-- A new node behind the last one. -/
theorem Represents.link (h : Represents mem pool) (hapart : pool.Separate) {pool' : Pool}
    {node : Node} {last : ℕ}
    (hsame : pool'.addr = pool.addr ∧ pool'.max = pool.max ∧ pool'.large = pool.large)
    (hcurrent : pool'.current = pool.current) (hchain : pool'.chain = pool.chain ++ [node])
    (hlast : (pool.chain.map (·.addr)).getLast? = some last) (hnode : NodeAt mem node)
    (hnext : mem (node.addr + 16) = 0) (hnull : node.addr ≠ 0)
    (hfar : ∀ k ∈ pool.chain, node.addr + 32 ≤ k.addr ∨ k.addr + 32 ≤ node.addr) :
    Represents (Function.update mem (last + 16) node.addr) pool' := by
  obtain ⟨haddr, hmax, hlarge⟩ := hsame
  have haddrs : pool'.chain.map (·.addr) = pool.chain.map (·.addr) ++ [node.addr] := by
    rw [hchain, List.map_append, List.map_singleton]
  obtain ⟨pre, hpre⟩ := List.getLast?_eq_some_iff.mp hlast
  obtain ⟨n, hn, rfl⟩ := List.mem_map.mp (List.mem_of_getLast? hlast)
  have hheader := hapart.headerNode n hn
  have hlink := hfar n hn
  generalize hfinal : Function.update mem (n.addr + 16) node.addr = final
  have hkeep : ∀ b, b ≠ n.addr + 16 → final b = mem b := by
    intro b hb
    rw [← hfinal, Function.update_of_ne hb]
  have hrecord : ∀ l ∈ pool.large, ∀ c ≤ 8, final (l.addr + c) = mem (l.addr + c) := by
    intro l hl c hc
    have hl := hapart.nodeRecord n hn l hl
    exact hkeep _ (by omega)
  have hother : ∀ k ∈ pool.chain, ∀ c ≤ 24, (c = 16 → k ≠ n) →
      final (k.addr + c) = mem (k.addr + c) := by
    intro k hk c hc hne
    refine hkeep _ ?_
    rcases hapart.node hk hn with rfl | happart
    · exact fun heq => hne (Nat.add_left_cancel heq) rfl
    · omega
  refine {
    head := by rw [head_addr_of_chain haddrs, haddr, h.head]
    max := by rw [haddr, hmax, hkeep _ (by omega), h.max]
    current := ?_
    large := ?_
    allocs := ?_
    chain := ?_
    nodes := ?_ }
  · obtain ⟨hlt, -⟩ := List.getElem?_eq_some_iff.mp h.current
    rw [haddrs, hcurrent, List.getElem?_append_left hlt, haddr, hkeep _ (by omega), h.current]
  · rw [hlarge, haddr, hkeep _ (by omega)]
    exact h.large.congr (List.forall_mem_map.mpr fun l hl => hrecord l hl 0 (by decide))
  · rw [hlarge]
    exact fun l hl => (hrecord l hl 8 (by decide)).trans (h.allocs l hl)
  · have hlinked := h.chain
    have hnodup := hapart.nodup
    rw [hpre] at hlinked hnodup
    rw [head_addr_of_chain haddrs, haddrs, hpre, List.append_assoc]
    apply hlinked.extend
    · intro b hb
      have hmem : b ∈ pool.chain.map (·.addr) := hpre ▸ List.mem_append_left _ hb
      obtain ⟨k, hk, rfl⟩ := List.mem_map.mp hmem
      refine hother k hk 16 (by decide) fun _ heq => ?_
      rw [heq] at hb
      exact List.disjoint_of_nodup_append hnodup hb List.mem_cons_self
    · have hlast : final (n.addr + 16) = node.addr := by rw [← hfinal, Function.update_self]
      rw [hlast]
      exact ⟨rfl, hnull, (hkeep _ (by omega)).trans hnext⟩
  · intro k hk
    rw [hchain, List.mem_append, List.mem_singleton] at hk
    rcases hk with hk | rfl
    · obtain ⟨hlast, hend, hfailed⟩ := h.nodes k hk
      exact ⟨(hother k hk 0 (by decide) (by simp)).trans hlast,
        (hother k hk 8 (by decide) (by simp)).trans hend,
        (hother k hk 24 (by decide) (by simp)).trans hfailed⟩
    · exact hnode.congr fun c hc => hkeep _ (by omega)

/-- The links and the failures after `mp_alloc_block` are those with the new node. -/
theorem Represents.addNode (h : Represents mem pool) (hpacked : Packed pool.fixed) {node : Node}
    (hnode : NodeAt mem node) (hnext : mem (node.addr + 16) = 0) (hnull : node.addr ≠ 0)
    (hfar : ∀ o ∈ pool.fixed, Region.Disjoint ⟨node.addr, sizeofNode⟩ o) {mem' : ℕ → ℕ}
    {last current : ℕ} (hcounted : Counted mem mem' (pool.chain.drop pool.current)
      (countFailures pool.current pool.current (pool.chain.drop pool.current))
      (pool.chain.map (·.addr)) last current) :
    Represents (Function.update (Function.update mem' (last + 16) node.addr) (pool.addr + 8)
      (if current ≠ 0 then current else node.addr)) (pool.addNode node) := by
  obtain ⟨-, hne⟩ := h.fromCurrent
  have hapart := separate_of_packed hpacked
  have haddrs := counted_addrs hne
  have hfixed : pool.counted.fixed = pool.fixed :=
    Pool.fixed_of_addrs (replace_same _ _ _).1 haddrs (congrArg _ (replace_same _ _ _).2.2)
  have hlast : (pool.chain.map (·.addr)).getLast? = some last := by
    rw [← List.take_append_drop pool.current pool.chain, List.map_append,
      List.getLast?_append_of_ne_nil _ (by simpa using hne), hcounted.last]
  have hkeep : ∀ c ≤ 24,
      Function.update mem' (pool.addr + 8) current (node.addr + c) = mem (node.addr + c) := by
    intro c hc
    have hhead : node.addr + 32 ≤ pool.addr ∨ pool.addr + 24 ≤ node.addr :=
      hfar _ (header_mem_fixed pool)
    rw [Function.update_of_ne (by omega)]
    refine hcounted.same _ fun k hk => ?_
    have hk : node.addr + 32 ≤ k.addr ∨ k.addr + 32 ≤ node.addr :=
      hfar _ (node_mem_fixed (List.mem_of_mem_drop hk))
    omega
  have hset : current ≠ 0 := h.chain.nonnull _ (List.mem_of_getElem? hcounted.current)
  obtain ⟨n, hn, rfl⟩ := List.mem_map.mp (List.mem_of_getLast? hlast)
  have hheader := hapart.headerNode n hn
  rw [if_pos hset, Function.update_comm (by omega)]
  refine (h.count hapart hcounted).link (separate_of_packed (hfixed ▸ hpacked)) ?_ ?_ ?_
    (haddrs ▸ hlast) (hnode.congr hkeep) ((hkeep 16 (by decide)).trans hnext) hnull ?_
  · simp only [Pool.counted, replace_same, addNode_same, and_self]
  · rw [Pool.counted, replace_current (countFailures_ne_nil hne)]
    exact replace_current (by simp)
  · rw [Pool.counted, replace_chain (countFailures_ne_nil hne), List.append_assoc]
    exact replace_chain (by simp)
  · intro k hk
    have hmem := node_mem_fixed hk
    rw [hfixed] at hmem
    exact hfar _ hmem

theorem mpAllocBlock_holds (h : heap.Holds s pending) (hfuel : s.pool.chain.length ≤ fuel)
    (hlawful : Lawful (mpAllocBlock grants.addrs s size).state.trace) :
    ∃ r, heap.mpAllocBlock fuel grants s.pool.addr size = some r ∧
      r.Holds (mpAllocBlock grants.addrs s size) pending := by
  match grants with
  | [] => exact ⟨_, rfl, h, rfl, rfl⟩
  | none :: grants => exact ⟨_, rfl, h, rfl, rfl⟩
  | some (newNode, contents) :: grants =>
    have hfresh : Fresh MP_ALIGNMENT ⟨newNode, s.pool.psize⟩ (live s.trace) := hlawful.1
    have hpsize : sub64 (heap.mem (s.pool.addr + 24 + 8)) (s.pool.addr + 24) = s.pool.psize := by
      rw [← h.pool.head, (h.pool.nodes _ List.mem_cons_self).endPtr]
      rfl
    let node : Node := {
      addr := newNode
      last := add64 (mpAlignPtr (add64 newNode sizeofNode)) size
      endPtr := add64 newNode s.pool.psize
      failed := 0 }
    let heap₁ := (heap.obtain MP_ALIGNMENT ⟨newNode, s.pool.psize⟩ contents).newNode node.addr
      node.last node.endPtr
    have hfar : ∀ o ∈ s.pool.fixed, Region.Disjoint ⟨newNode, sizeofNode⟩ o := fun o ho =>
      (h.intact.fresh_disjoint hfresh ho).within
        ⟨Nat.le_refl _, Nat.add_le_add_left h.intact.roomy _⟩ (.refl o)
    have hpool : Represents heap₁.mem s.pool :=
      (obtain_holds h contents hfresh).pool.congr fun a ha =>
        newNode_apart (ha.outside hfar)
    obtain ⟨hnode, hnext⟩ : NodeAt heap₁.mem node ∧ heap₁.mem (node.addr + 16) = 0 :=
      newNode_at _ rfl
    obtain ⟨hlinked, hne⟩ := hpool.fromCurrent
    obtain ⟨mem', last, current, hloop, hcounted⟩ := countLoop_eq hlinked
      (fun n hn => hpool.nodes n (List.mem_of_mem_drop hn))
      (h.separate.nodes.sublist (List.drop_sublist _ _)) hne
      (Nat.le_trans (by simp) hfuel) List.map_drop.symm hpool.current
    refine ⟨_, by simp only [Heap.mpAllocBlock, hpsize]; rw [hloop]; rfl, ⟨⟨?_, ?_⟩, ?_⟩, rfl, rfl⟩
    · exact hpool.addNode h.intact.packed hnode hnext hfresh.nonnull hfar hcounted
    · exact congrArg (List.cons _) h.trace
    · exact h.intact.addNode rfl hfresh

/-- Serving a small block. -/
theorem allocSmall_holds (h : heap.Holds s pending) (hfuel : s.pool.chain.length ≤ fuel)
    (hlawful : Lawful (allocSmall round grants.addrs s size).state.trace) :
    ∃ r, heap.allocSmall fuel round grants s.pool.addr size = some r ∧
      r.Holds (allocSmall round grants.addrs s size) pending := by
  have hdrop : (s.pool.chain.drop s.pool.current).length ≤ fuel := Nat.le_trans (by simp) hfuel
  have hintact := allocSmall_intact h.intact round hlawful
  rw [Heap.allocSmall, h.pool.findRoom hdrop, Pool.taker]
  rw [allocSmall] at hlawful hintact ⊢
  rcases htake : takeFrom round size (s.pool.chain.drop s.pool.current) with _ | ⟨m, nodes⟩
  · rw [htake] at hlawful
    rw [takeFrom_eq_none_iff.mp htake]
    exact mpAllocBlock_holds h hfuel hlawful
  · rw [htake] at hintact
    obtain ⟨pre, n, post, hsplit, rfl, rfl, -, hfind⟩ := takeFrom_eq_some htake
    rw [hfind]
    have hchain : s.pool.chain = s.pool.chain.take s.pool.current ++ pre ++ n :: post := by
      rw [List.append_assoc, ← hsplit, List.take_append_drop]
    refine ⟨_, rfl, ⟨⟨?_, h.trace⟩, hintact⟩, rfl, rfl⟩
    apply h.pool.setLast h.separate (replace_same s.pool _ _) (replace_current (by simp)) hchain
    rw [replace_chain (by simp), List.append_assoc]

/-! ## Records -/

/-- A new block of one record. -/
theorem Represents.setAlloc (h : Represents mem pool) (hapart : pool.Separate)
    {pre post : List Large} {l : Large} (hlarge : pool.large = pre ++ l :: post) (alloc : ℕ) :
    Represents (Function.update mem (l.addr + 8) alloc)
      { pool with large := pre ++ { l with alloc := alloc } :: post } := by
  have hl : l ∈ pool.large := by simp [hlarge]
  have hheader := hapart.headerRecord l hl
  have hother : ∀ k ∈ pre ++ post, l.addr + 16 ≤ k.addr ∨ k.addr + 16 ≤ l.addr := by
    have hrecords := hapart.records
    rw [hlarge, List.pairwise_middle fun h => Or.symm h] at hrecords
    exact fun k hk => List.rel_of_pairwise_cons hrecords hk
  have hkeep : ∀ b, b ≠ l.addr + 8 → Function.update mem (l.addr + 8) alloc b = mem b :=
    fun b hb => Function.update_of_ne hb _ _
  have hnode : ∀ n ∈ pool.chain, ∀ c ≤ 24,
      Function.update mem (l.addr + 8) alloc (n.addr + c) = mem (n.addr + c) := by
    intro n hn c hc
    have hapart := hapart.nodeRecord n hn l hl
    exact hkeep _ (by omega)
  refine h.values rfl rfl (by simp [hlarge]) (by rw [hkeep _ (by omega), h.current])
    ⟨hkeep _ (by omega), fun n hn => hnode n hn 16 (by decide), ?_⟩ ?_ ?_ ?_
  · intro k hk
    rcases hapart.record hl hk with rfl | happart
    · exact hkeep _ (by omega)
    · exact hkeep _ (by omega)
  · exact (hkeep _ (by simp only; omega)).trans h.max
  · exact fun n hn => (h.nodes n hn).congr (hnode n hn)
  · intro k hk
    rw [List.mem_append, List.mem_cons] at hk
    rcases or_left_comm.mp hk with rfl | hk
    · exact Function.update_self _ _ _
    · have happart := hother k (List.mem_append.mpr hk)
      have hmem : k ∈ pool.large := by
        rw [hlarge]
        exact List.mem_append.mpr (hk.imp_right (List.mem_cons_of_mem _))
      exact (hkeep _ (by omega)).trans (h.allocs k hmem)

/-- A new record in front of the others, in memory apart from them. -/
theorem Represents.addRecord (h : Represents mem pool) (hapart : pool.Separate) {l : Large}
    (hnull : l.addr ≠ 0) (hfar : ∀ o ∈ pool.fixed, l.region.Disjoint o) {mem' : ℕ → ℕ}
    (hlarge : mem' (pool.addr + 16) = l.addr) (hnext : mem' l.addr = mem (pool.addr + 16))
    (halloc : mem' (l.addr + 8) = l.alloc)
    (hsame : ∀ b, b ≠ pool.addr + 16 → ¬ (l.addr ≤ b ∧ b < l.addr + sizeofLarge) →
      mem' b = mem b) :
    Represents mem' { pool with large := l :: pool.large } := by
  have hword : ∀ b, pool.Word b → b ≠ pool.addr + 16 → mem' b = mem b :=
    fun b hb hne => hsame b hne (hb.outside hfar)
  have hnode : ∀ n ∈ pool.chain, ∀ c ≤ 24, mem' (n.addr + c) = mem (n.addr + c) := by
    intro n hn c hc
    have hheader := hapart.headerNode n hn
    exact hword _ (word_node hn hc) (by omega)
  have hrecord : ∀ k ∈ pool.large, ∀ c ≤ 8, mem' (k.addr + c) = mem (k.addr + c) := by
    intro k hk c hc
    have hheader := hapart.headerRecord k hk
    exact hword _ (word_record hk hc) (by omega)
  refine {
    head := h.head
    max := (hword _ (word_header pool (Nat.zero_le 16)) (by omega)).trans h.max
    current := ?_
    large := ?_
    allocs := ?_
    chain := ?_
    nodes := ?_ }
  · rw [hword _ (word_header pool (by decide)) (by omega)]
    exact h.current
  · rw [List.map_cons, linked_cons, hlarge, Nat.add_zero, hnext]
    refine ⟨rfl, hnull, h.large.congr fun b hb => ?_⟩
    obtain ⟨k, hk, rfl⟩ := List.mem_map.mp hb
    exact hrecord k hk 0 (by decide)
  · intro k hk
    rcases List.mem_cons.mp hk with rfl | hk
    · exact halloc
    · exact (hrecord k hk 8 (by decide)).trans (h.allocs k hk)
  · exact h.chain.congr (List.forall_mem_map.mpr fun n hn => hnode n hn 16 (by decide))
  · exact fun n hn => (h.nodes n hn).congr (hnode n hn)

/-- A record that lost its block gets another one. -/
theorem reuse_holds (h : heap.Holds s (⟨p, size⟩ :: pending)) {n : ℕ} {pre post : List Large}
    {l : Large} (hlarge : s.pool.large = pre ++ l :: post)
    (hreuse : reuseRecord p n s.pool.large = some (pre ++ { l with alloc := p } :: post)) :
    (heap.write (l.addr + 8) p).Holds
      { s with pool := { s.pool with large := pre ++ { l with alloc := p } :: post } } pending where
  pool := h.pool.setAlloc h.separate hlarge p
  trace := h.trace
  intact := reuseRecord_intact h.intact hreuse

/-- Memory that the pool has handed out, apart from its own data, for a record. -/
structure Result.Places (r : Result) (a : ℕ) : Prop where
  addr : r.state.pool.addr = a
  max : sizeofLarge ≤ r.state.pool.max
  disjoint : ∀ o ∈ r.state.pool.fixed, Region.Disjoint ⟨r.ret, sizeofLarge⟩ o
  inChain : r.state.InChain ⟨r.ret, sizeofLarge⟩

/-- A new record, in whatever order its fields are written. -/
theorem newRecord_holds {r : Result} (h : heap.Holds r.state (⟨p, size⟩ :: pending))
    (hret : r.ret ≠ 0) (hplace : r.Places a) {mem' : ℕ → ℕ} (hlarge : mem' (a + 16) = r.ret)
    (hnext : mem' r.ret = heap.mem (a + 16)) (halloc : mem' (r.ret + 8) = p)
    (hsame : ∀ b, b ≠ a + 16 → ¬ (r.ret ≤ b ∧ b < r.ret + sizeofLarge) →
      mem' b = heap.mem b) : Heap.Holds ⟨mem', heap.trace⟩ (addRecord p r).state pending := by
  obtain ⟨rfl, hmax, hfar, hwithin⟩ := hplace
  have hintact := addRecord_intact h.intact (fun _ => hmax) fun _ => ⟨hfar, hwithin⟩
  rw [addRecord, if_neg hret] at hintact ⊢
  refine ⟨⟨?_, h.trace⟩, hintact⟩
  exact h.pool.addRecord h.separate (l := ⟨r.ret, p⟩) hret hfar hlarge hnext halloc hsame

/-- A new record, or the return of the block. -/
theorem addRecord_holds {r : Served} {r' : Result} (h : r.Holds r' (⟨p, size⟩ :: pending))
    (hplace : r'.ret ≠ 0 → r'.Places a) : (r.addRecord a p).Holds (addRecord p r') pending := by
  rw [Served.addRecord, h.ret]
  by_cases hret : r'.ret = 0
  · have hintact := addRecord_intact h.heap.intact (fun hne => absurd hret hne)
      fun hne => absurd hret hne
    rw [addRecord, if_pos hret] at hintact ⊢
    rw [if_pos hret]
    exact ⟨⟨⟨h.heap.pool, congrArg (List.cons _) h.heap.trace⟩, hintact⟩, rfl, h.grants⟩
  · have hheader : r'.ret + 16 ≤ a ∨ a + 24 ≤ r'.ret := by
      rw [← (hplace hret).addr]
      exact (hplace hret).disjoint _ (header_mem_fixed _)
    rw [if_neg hret]
    refine ⟨newRecord_holds h.heap hret (hplace hret) ?_ ?_ ?_ ?_, ?_, ?_⟩
    · exact Function.update_self _ _ _
    · simp only [Heap.write]
      rw [Function.update_of_ne (by omega), Function.update_self,
        Function.update_of_ne (by omega)]
    · simp only [Heap.write]
      rw [Function.update_of_ne (by omega), Function.update_of_ne (by omega),
        Function.update_self]
    · intro b hb hout
      simp only [sizeofLarge] at hout
      simp only [Heap.write]
      rw [Function.update_of_ne hb, Function.update_of_ne (by omega),
        Function.update_of_ne (by omega)]
    · rw [addRecord, if_neg hret]
    · rw [addRecord, if_neg hret]
      exact h.grants

/-! ## Large blocks -/

/-- A large block finds a record that lost its block, or memory for a new one that is spared. -/
def State.LargeSpares (s : State) (request : ℕ) : Answers → Prop
  | some p :: _ => reuseRecord p 0 s.pool.large = none → request ≤ s.pool.max →
      s.Spares request sizeofLarge
  | _ => True

theorem State.largeSpares_of_lt {request : ℕ} (hmax : s.pool.max < request) :
    {answers : Answers} → s.LargeSpares request answers
  | some _ :: _ => fun _ hle => absurd hle (Nat.not_le.mpr hmax)
  | none :: _ => trivial
  | [] => trivial

theorem State.Spares.obtain {request written alignment : ℕ} (h : s.Spares request written) :
    (s.log (.obtain alignment r)).Spares request written := by
  rw [State.Spares] at h ⊢
  split at h
  · rename_i n hfind
    rw [show (s.log (.obtain alignment r)).pool = s.pool from rfl, hfind]
    exact ⟨h.1, h.2.mono (fun q hq => List.mem_cons_of_mem _ hq) fun _ hb => hb⟩
  · rename_i hfind
    rw [show (s.log (.obtain alignment r)).pool = s.pool from rfl, hfind]
    exact h

theorem allocSmall_addr (round : ℕ → ℕ) {answers : Answers} :
    (allocSmall round answers s size).state.pool.addr = s.pool.addr := by
  rw [allocSmall]
  split
  · exact (replace_same _ _ _).1
  · rcases answers with _ | ⟨_ | newNode, answers⟩
    · rfl
    · rfl
    · exact (replace_same _ _ _).1

theorem allocSmall_places {request : ℕ} {answers : Answers} (h : heap.Holds s pending)
    (hmax : sizeofLarge ≤ s.pool.max) (hspares : s.Spares request sizeofLarge)
    (hlawful : Lawful (allocSmall mpAlignPtr answers s request).state.trace)
    (hret : (allocSmall mpAlignPtr answers s request).ret ≠ 0) :
    (allocSmall mpAlignPtr answers s request).Places s.pool.addr := by
  obtain ⟨hfar, hwithin⟩ := allocSmall_spares h.intact hspares hlawful hret
  exact ⟨allocSmall_addr _, by rwa [allocSmall_max], hfar, hwithin⟩

/-- The call of `mp_alloc` for a record that the nodes serve. -/
theorem allocSmall_record {request : ℕ} (h : heap.Holds s (⟨p, size⟩ :: pending))
    (hchain : s.pool.chain.length ≤ fuel) (hmax : sizeofLarge ≤ s.pool.max)
    (hspares : s.Spares request sizeofLarge)
    (hlawful : Lawful (allocSmall mpAlignPtr grants.addrs s request).state.trace) :
    ∃ r, heap.allocSmall fuel mpAlignPtr grants s.pool.addr request = some r ∧
      (r.addRecord s.pool.addr p).Holds
        (addRecord p (allocSmall mpAlignPtr grants.addrs s request)) pending := by
  obtain ⟨r, hsmall, hr⟩ := allocSmall_holds h hchain hlawful
  exact ⟨r, hsmall, addRecord_holds hr (allocSmall_places h hmax hspares hlawful)⟩

theorem mpAllocLarge_holds (h : heap.Holds s pending) (hchain : s.pool.chain.length ≤ fuel)
    (hlarge : s.pool.large.length < fuel) (hspares : s.LargeSpares sizeofLarge grants.addrs)
    (hlawful : Lawful (mpAllocLarge grants.addrs s size).state.trace) :
    ∃ r, Heap.mpAllocLarge fuel grants heap s.pool.addr size = some r ∧
      r.Holds (mpAllocLarge grants.addrs s size) pending := by
  induction grants generalizing heap s size pending with
  | nil => exact ⟨_, rfl, h, rfl, rfl⟩
  | cons grant grants ih =>
    cases grant with
    | none => exact ⟨_, rfl, h, rfl, rfl⟩
    | some grant =>
      obtain ⟨p, contents⟩ := grant
      rw [Grants.addrs_some] at hlawful hspares ⊢
      have hfresh := (hlawful.of_suffix mpAllocLarge_suffix_obtain).1
      have hobtained := obtain_holds h contents hfresh
      generalize hheap₁ : heap.obtain 16 ⟨p, size⟩ contents = heap₁ at hobtained
      generalize hs₁ : s.log (.obtain 16 ⟨p, size⟩) = s₁ at hobtained
      have hpool : s₁.pool = s.pool := hs₁ ▸ rfl
      rw [Heap.mpAllocLarge, hheap₁]
      rw [mpAllocLarge, hs₁] at hlawful ⊢
      rw [← hpool] at hchain hlarge ⊢
      rcases findSpare_eq (p := p) (n := 0) hobtained.pool.large hobtained.pool.allocs hlarge with
        ⟨hnone, hfind⟩ | ⟨pre, l, post, hsplit, hreuse, hfind⟩
      · simp only [hnone] at hlawful ⊢
        have hrecord := hlawful.of_suffix (addRecord_suffix _)
        suffices ∃ r, (if sizeofLarge ≤ heap₁.mem s₁.pool.addr then
            heap₁.allocSmall fuel mpAlignPtr grants s₁.pool.addr sizeofLarge
            else Heap.mpAllocLarge fuel grants heap₁ s₁.pool.addr sizeofLarge) = some r ∧
              (r.addRecord s₁.pool.addr p).Holds (addRecord p (if sizeofLarge ≤ s₁.pool.max then
                allocSmall mpAlignPtr (Grants.addrs grants) s₁ sizeofLarge
                else mpAllocLarge (Grants.addrs grants) s₁ sizeofLarge)) pending by
          obtain ⟨r, hr, hholds⟩ := this
          refine ⟨_, ?_, hholds⟩
          simp only [hfind, Option.bind_some, ne_eq, not_true_eq_false, if_false, hr,
            Option.map_some]
        rw [hobtained.pool.max]
        by_cases hmax : sizeofLarge ≤ s₁.pool.max
        · rw [if_pos hmax] at hrecord ⊢
          rw [if_pos hmax]
          have hspared : s.Spares sizeofLarge sizeofLarge :=
            hspares (hpool ▸ hnone) (hpool ▸ hmax)
          exact allocSmall_record hobtained hchain hmax (hs₁ ▸ hspared.obtain) hrecord
        · -- no record is small, and the next one is not obtained either
          have hlt := Nat.not_le.mp hmax
          rw [if_neg hmax] at hrecord ⊢
          rw [if_neg hmax]
          obtain ⟨r, hr, hholds⟩ := ih hobtained hchain hlarge (State.largeSpares_of_lt hlt) hrecord
          refine ⟨r, hr, addRecord_holds hholds fun hret => absurd ?_ hret⟩
          exact mpAllocLarge_null hlt (hobtained.intact.small hlt)
      · have hnull : l.addr ≠ 0 :=
          hobtained.pool.large.nonnull _ (List.mem_map_of_mem (by simp [hsplit]))
        simp only [hreuse] at hlawful ⊢
        refine ⟨⟨heap₁.write (l.addr + 8) p, p, grants⟩, ?_, reuse_holds hobtained hsplit hreuse,
          rfl, rfl⟩
        simp only [hfind, Option.bind_some, ne_eq, hnull, not_false_eq_true, if_true]

end ServerKit.Mempool
