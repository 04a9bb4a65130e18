import ServerKit.Mempool.Current
import ServerKit.Mempool.Spatial

/-! # The pool's own data stay intact

The pool writes into memory that it has just handed out when it makes a record of a large block
there, and when `mp_calloc` clears a block. If this memory lies in the pool's regions and apart
from the pool's own data, the headers and the records stay where they are. -/

namespace ServerKit.Mempool

open ServerKit.SystemHeap

/-- The size of a new node. -/
def Pool.psize (pool : Pool) : ℕ := sub64 pool.head.endPtr pool.head.addr

/-- The headers and the records lie in live regions, apart from each other. -/
structure State.Intact (s : State) (pending : List Region) : Prop where
  lawful : Lawful s.trace
  owns : s.Owns (pending.map (·.base))
  pending : ∀ r ∈ pending, r ∈ live s.trace
  packed : Packed s.pool.fixed
  fixed : ∀ o ∈ s.pool.fixed, s.InChain o
  small : s.pool.max < sizeofLarge → s.pool.large = []
  roomy : sizeofNode ≤ s.pool.psize
  ledger : s.pool.Ledger

/-- Where `mp_alloc` would serve `request` bytes, `written` bytes lie in the pool's regions and
apart from its own data. -/
def State.Spares (s : State) (request written : ℕ) : Prop :=
  match s.pool.taker mpAlignPtr request with
  | some n => (∀ o ∈ s.pool.fixed, Region.Disjoint ⟨mpAlignPtr n.last, written⟩ o) ∧
      s.InChain ⟨mpAlignPtr n.last, written⟩
  | none => sizeofNode + written ≤ s.pool.psize

instance (s : State) (o : Region) : Decidable (s.InChain o) :=
  inferInstanceAs (Decidable (∃ r ∈ live s.trace, _))

instance (s : State) (request written : ℕ) : Decidable (s.Spares request written) := by
  unfold State.Spares
  split <;> infer_instance

variable {s s' : State} {pending pending' : List Region} {o r : Region} {answers : Answers}
  {size p : ℕ}

/-! ## The addresses decide -/

theorem Pool.fixed_eq (pool : Pool) : pool.fixed =
    ⟨pool.addr, sizeofPool⟩ :: (pool.chain.map (·.addr)).map (fun a => ⟨a, sizeofNode⟩) ++
      (pool.large.map (·.addr)).map (fun a => ⟨a, sizeofLarge⟩) := by
  simp only [Pool.fixed, Pool.extents, Pool.header, List.map_map]
  rfl

theorem Pool.fixed_of_addrs {pool pool' : Pool} (haddr : pool'.addr = pool.addr)
    (hchain : pool'.chain.map (·.addr) = pool.chain.map (·.addr))
    (hlarge : pool'.large.map (·.addr) = pool.large.map (·.addr)) : pool'.fixed = pool.fixed := by
  rw [Pool.fixed_eq, Pool.fixed_eq, haddr, hchain, hlarge]

/-- The bases follow the chain. -/
theorem Pool.bases_of_chain {pool pool' : Pool} (haddr : pool'.addr = pool.addr) (new : List ℕ)
    (hchain : pool'.chain.map (·.addr) = pool.chain.map (·.addr) ++ new) :
    ∀ a ∈ pool.bases, a ∈ pool'.bases := by
  intro a ha
  rw [Pool.bases, haddr, nodes_addr_of_chain hchain]
  exact List.mem_append_left _ ha

/-- The header of the first node decides the size of the others. -/
theorem replace_psize {pool : Pool} {nodes : List Node} {current : ℕ}
    (h : nodes.head?.map (fun n => (n.endPtr, n.addr)) =
      (pool.chain.drop pool.current).head?.map (fun n => (n.endPtr, n.addr))) :
    (pool.replace nodes current).psize = pool.psize := by
  rw [Pool.replace]
  split
  · rfl
  · rename_i head rest hcons
    have hhead : (head.endPtr, head.addr) = (pool.head.endPtr, pool.head.addr) := by
      rcases Nat.eq_zero_or_pos pool.current with hzero | hpos
      · rw [hzero, List.take_zero, List.nil_append] at hcons
        rw [hcons, hzero, List.drop_zero] at h
        exact Option.some.inj h
      · obtain ⟨k, hk⟩ := Nat.exists_eq_succ_of_ne_zero (Nat.ne_of_gt hpos)
        rw [hk, Pool.chain, List.take_succ_cons, List.cons_append, List.cons.injEq] at hcons
        rw [hcons.1]
    rw [Prod.mk.injEq] at hhead
    simp only [Pool.psize, hhead]

/-! ## Changes -/

namespace State.Intact

/-- A fresh region lies apart from the pool's own data. -/
theorem fresh_disjoint {alignment : ℕ} (h : s.Intact pending)
    (hfresh : Fresh alignment r (live s.trace)) (ho : o ∈ s.pool.fixed) : r.Disjoint o := by
  obtain ⟨q, hq, -, hwithin⟩ := h.fixed o ho
  exact (hfresh.apart q hq).disjoint.within (.refl r) hwithin

theorem obtained {alignment : ℕ} (h : s.Intact pending)
    (hfresh : Fresh alignment r (live s.trace)) :
    (s.log (.obtain alignment r)).Intact (r :: pending) where
  lawful := ⟨hfresh, h.lawful⟩
  owns := h.owns.obtain alignment
  pending := by
    intro q hq
    rcases List.mem_cons.mp hq with rfl | hq
    · exact List.mem_cons_self
    · exact List.mem_cons_of_mem _ (h.pending q hq)
  packed := h.packed
  fixed := fun o ho => (h.fixed o ho).mono (fun q hq => List.mem_cons_of_mem _ hq) fun _ ha => ha
  small := h.small
  roomy := h.roomy
  ledger := h.ledger

/-- A step that frees regions, moves no header and no record, and may add some. -/
theorem change (h : s.Intact pending) (new : List Region) (hlawful : Lawful s'.trace)
    (howns : s'.Owns (pending'.map (·.base)))
    (hlive : ∀ q ∈ live s'.trace, q ∈ live s.trace)
    (hbases : ∀ a ∈ s.pool.bases, a ∈ s'.pool.bases)
    (hpending : ∀ r ∈ pending', r ∈ live s.trace)
    (hfixed : s'.pool.fixed.Subperm (new ++ s.pool.fixed)) (hpacked : Packed new)
    (hnew : ∀ o ∈ new, (∀ q ∈ s.pool.fixed, o.Disjoint q) ∧ s'.InChain o)
    (hsmall : s'.pool.max < sizeofLarge → s'.pool.large = [])
    (hpsize : s'.pool.psize = s.pool.psize) (hledger : s'.pool.Ledger) : s'.Intact pending' where
  lawful := hlawful
  owns := howns
  pending := fun r hr => h.lawful.mem_live_of_base hlive (hpending r hr)
    (howns.mem_live (List.mem_append_left _ (List.mem_map_of_mem hr)))
  packed := by
    have hall : Packed (new ++ s.pool.fixed) :=
      List.pairwise_append.mpr ⟨hpacked, h.packed, fun o ho => (hnew o ho).1⟩
    exact hall.subperm hfixed
  fixed := by
    intro o ho
    rcases List.mem_append.mp (hfixed.subset ho) with ho | ho
    · exact (hnew o ho).2
    · exact (h.fixed o ho).keep h.lawful howns hlive hbases
  small := hsmall
  roomy := hpsize ▸ h.roomy
  ledger := hledger

end State.Intact

/-! ## Small blocks -/

theorem takeFrom_eq_none_iff {round : ℕ → ℕ} {nodes : List Node} :
    takeFrom round size nodes = none ↔
      nodes.find? (fun p => sub64 p.endPtr (round p.last) ≥ size) = none := by
  induction nodes with
  | nil => simp [takeFrom]
  | cons p rest ih =>
    rw [takeFrom]
    by_cases htest : sub64 p.endPtr (round p.last) ≥ size
    · simp [htest]
    · rw [if_neg htest, List.find?_cons_of_neg (by simpa using htest), Option.map_eq_none_iff, ih]

theorem takeFrom_chain {pool : Pool} {round : ℕ → ℕ} {m : ℕ} {nodes : List Node}
    (htake : takeFrom round size (pool.chain.drop pool.current) = some (m, nodes)) :
    (pool.replace nodes pool.current).chain.map (·.addr) = pool.chain.map (·.addr) := by
  rw [replace_chain (takeFrom_ne_nil htake), List.map_append, takeFrom_addr htake,
    ← List.map_append, List.take_append_drop]

/-- Taking a block from a node leaves the headers where they are. -/
theorem State.Intact.take (h : s.Intact pending) {round : ℕ → ℕ} {m : ℕ} {nodes : List Node}
    (htake : takeFrom round size (s.pool.chain.drop s.pool.current) = some (m, nodes)) :
    State.Intact { s with pool := s.pool.replace nodes s.pool.current } pending := by
  obtain ⟨hpool, hmax, hlarge⟩ := replace_same s.pool nodes s.pool.current
  have hchain := takeFrom_chain htake
  have howned : (s.pool.replace nodes s.pool.current).owned.Perm s.pool.owned :=
    replace_owned [] (takeFrom_ne_nil htake) (by rw [takeFrom_addr htake, List.append_nil])
  refine h.change [] h.lawful ⟨h.owns.bases.trans (.append_left _ howned.symm), h.owns.frees⟩
    (fun _ hq => hq) (Pool.bases_of_chain hpool [] (by rw [hchain, List.append_nil]))
    h.pending ?_ .nil (fun o ho => absurd ho List.not_mem_nil) ?_ ?_
    (h.ledger.take htake)
  · rw [Pool.fixed_of_addrs hpool hchain (by rw [hlarge])]
    exact List.Subperm.refl _
  · rw [hmax, hlarge]
    exact h.small
  · have hheads := takeFrom_map (f := fun n => (n.endPtr, n.addr)) (fun _ _ => rfl) htake
    apply replace_psize
    rw [← List.head?_map, hheads, List.head?_map]

/-- The pool after `mp_alloc_block` has added a node. -/
def Pool.addNode (pool : Pool) (node : Node) : Pool :=
  let counted := countFailures pool.current pool.current (pool.chain.drop pool.current)
  pool.replace (counted.1 ++ [node]) counted.2

theorem addNode_same (pool : Pool) (node : Node) :
    (pool.addNode node).addr = pool.addr ∧ (pool.addNode node).max = pool.max ∧
      (pool.addNode node).large = pool.large :=
  replace_same _ _ _

theorem addNode_chain (pool : Pool) (node : Node) :
    (pool.addNode node).chain.map (·.addr) = pool.chain.map (·.addr) ++ [node.addr] := by
  rw [Pool.addNode, replace_chain (by simp), List.map_append, List.map_append,
    countFailures_map fun _ _ => rfl, ← List.append_assoc, ← List.map_append,
    List.take_append_drop, List.map_singleton]

theorem addNode_fixed (pool : Pool) (node : Node) :
    (pool.addNode node).fixed.Perm (⟨node.addr, sizeofNode⟩ :: pool.fixed) := by
  obtain ⟨haddr, -, hlarge⟩ := addNode_same pool node
  rw [Pool.fixed_eq, Pool.fixed_eq, haddr, addNode_chain, hlarge, List.map_append,
    List.map_singleton]
  apply List.perm_iff_count.mpr
  intro o
  simp only [List.count_cons, List.count_append, List.cons_append, List.count_nil]
  omega

theorem addNode_bases (pool : Pool) (node : Node) : node.addr ∈ (pool.addNode node).bases := by
  rw [Pool.bases, nodes_addr_of_chain (addNode_chain pool node)]
  simp

theorem addNode_psize {pool : Pool} (hledger : pool.Ledger) (node : Node) :
    (pool.addNode node).psize = pool.psize := by
  have hlength := hledger.current
  have hpos : 1 ≤ pool.chain.length := by simp [Pool.chain]
  apply replace_psize
  have hheads := congrArg List.head? (countFailures_map (f := fun n => (n.endPtr, n.addr))
    (fun _ _ => rfl) pool.current pool.current (pool.chain.drop pool.current))
  rw [List.head?_map, List.head?_map] at hheads
  have hne : (countFailures pool.current pool.current (pool.chain.drop pool.current)).1 ≠ [] := by
    intro hnil
    rw [hnil, List.head?_nil, Option.map_none, eq_comm, Option.map_eq_none_iff,
      List.head?_eq_none_iff, List.drop_eq_nil_iff] at hheads
    omega
  rw [List.head?_append_of_ne_nil _ hne, hheads]

/-- A fresh region becomes a node. -/
theorem State.Intact.addNode (h : s.Intact pending) {node : Node} (hfailed : node.failed = 0)
    (hfresh : Fresh MP_ALIGNMENT ⟨node.addr, s.pool.psize⟩ (live s.trace)) :
    State.Intact ({ s with pool := s.pool.addNode node }.log
      (.obtain MP_ALIGNMENT ⟨node.addr, s.pool.psize⟩)) pending := by
  have hlog := h.obtained hfresh
  obtain ⟨hpool, hmax, hlarge⟩ := addNode_same s.pool node
  have howned : (s.pool.addNode node).owned.Perm ([node.addr] ++ s.pool.owned) :=
    replace_owned _ (by simp) (by rw [List.map_append, countFailures_map fun _ _ => rfl,
      List.map_singleton])
  refine hlog.change [⟨node.addr, sizeofNode⟩] hlog.lawful ⟨?_, h.owns.frees⟩ (fun _ hq => hq)
    (Pool.bases_of_chain hpool _ (addNode_chain _ _))
    (fun r hr => List.mem_cons_of_mem _ (h.pending r hr))
    (addNode_fixed s.pool node).subperm (List.pairwise_singleton _ _) ?_ ?_
    (addNode_psize h.ledger node) (h.ledger.addNode hfailed)
  · refine (h.owns.bases.cons node.addr).trans (List.perm_middle.symm.trans ?_)
    exact .append_left _ howned.symm
  · intro o ho
    rw [List.mem_singleton.mp ho]
    have hwithin : Region.Within ⟨node.addr, sizeofNode⟩ ⟨node.addr, s.pool.psize⟩ :=
      ⟨Nat.le_refl _, Nat.add_le_add_left h.roomy _⟩
    refine ⟨fun q hq => (h.fresh_disjoint hfresh hq).within hwithin (.refl q), ?_⟩
    exact ⟨_, List.mem_cons_self, addNode_bases s.pool node, hwithin⟩
  · show (s.pool.addNode node).max < sizeofLarge → (s.pool.addNode node).large = []
    rw [hmax, hlarge]
    exact h.small

/-- Serving a small block. -/
theorem allocSmall_intact (h : s.Intact pending) (round : ℕ → ℕ)
    (hlawful : Lawful (allocSmall round answers s size).state.trace) :
    (allocSmall round answers s size).state.Intact pending := by
  rw [allocSmall] at hlawful ⊢
  split at hlawful
  · rename_i m nodes htake
    exact h.take htake
  · rcases answers with _ | ⟨_ | newNode, answers⟩
    · exact h
    · exact h
    · exact h.addNode rfl hlawful.1

/-- A block that `mp_alloc` serves where it spares the pool's own data. -/
theorem allocSmall_spares {request written : ℕ} (h : s.Intact pending)
    (hspares : s.Spares request written)
    (hlawful : Lawful (allocSmall mpAlignPtr answers s request).state.trace)
    (hret : (allocSmall mpAlignPtr answers s request).ret ≠ 0) :
    (∀ o ∈ (allocSmall mpAlignPtr answers s request).state.pool.fixed,
        Region.Disjoint ⟨(allocSmall mpAlignPtr answers s request).ret, written⟩ o) ∧
      (allocSmall mpAlignPtr answers s request).state.InChain
        ⟨(allocSmall mpAlignPtr answers s request).ret, written⟩ := by
  have hintact := allocSmall_intact h mpAlignPtr hlawful
  rw [State.Spares, Pool.taker] at hspares
  rw [allocSmall] at hlawful hret hintact ⊢
  rcases htake : takeFrom mpAlignPtr request (s.pool.chain.drop s.pool.current) with _ | ⟨m, nodes⟩
  · rw [takeFrom_eq_none_iff.mp htake] at hspares
    rw [htake] at hlawful hret hintact
    rcases answers with _ | ⟨_ | newNode, answers⟩
    · exact absurd rfl hret
    · exact absurd rfl hret
    · have hfresh : Fresh MP_ALIGNMENT ⟨newNode, s.pool.psize⟩ (live s.trace) := hlawful.1
      -- the block starts behind the header of the new node
      have hbounded : newNode + s.pool.psize < 2 ^ 64 := hfresh.bounded
      have hroomy : sizeofNode + written ≤ s.pool.psize := hspares
      have hm : mpAlignPtr (add64 newNode sizeofNode) = newNode + sizeofNode := by
        have hadd : add64 newNode sizeofNode = newNode + sizeofNode := Nat.mod_eq_of_lt (by omega)
        rw [hadd]
        exact mpAlignPtr_of_dvd (Nat.dvd_add hfresh.aligned (by decide)) (by omega)
      show (∀ o ∈ (s.pool.addNode _).fixed, Region.Disjoint ⟨mpAlignPtr _, written⟩ o) ∧
        State.InChain _ ⟨mpAlignPtr _, written⟩
      rw [hm]
      have hwithin : Region.Within ⟨newNode + sizeofNode, written⟩ ⟨newNode, s.pool.psize⟩ :=
        ⟨Nat.le_add_right _ _, by simp only; omega⟩
      refine ⟨?_, ⟨_, List.mem_cons_self, addNode_bases s.pool _, hwithin⟩⟩
      intro o ho
      rcases List.mem_cons.mp ((addNode_fixed s.pool _).subset ho) with rfl | ho
      · exact .inr (Nat.le_refl _)
      · exact (h.fresh_disjoint hfresh ho).within hwithin (.refl o)
  · obtain ⟨pre, n, post, -, -, hmn, -, hfind⟩ := takeFrom_eq_some htake
    rw [hfind] at hspares
    obtain ⟨hpool, -, hlarge⟩ := replace_same s.pool nodes s.pool.current
    have hchain := takeFrom_chain htake
    rw [hmn]
    refine ⟨?_, hspares.2.mono (fun _ hq => hq)
      (Pool.bases_of_chain hpool [] (by rw [hchain, List.append_nil]))⟩
    simp only [Pool.fixed_of_addrs hpool hchain (by rw [hlarge])]
    exact hspares.1

/-- Where rounding fits, a block is spared. -/
theorem State.Layout.spares {blocks : List Region} {request written : ℕ}
    (h : s.Layout pending blocks) (hfits : s.pool.Fits mpAlignPtr request)
    (hmax : request ≤ s.pool.max) (hwritten : written ≤ request) : s.Spares request written := by
  obtain ⟨cap, hcap, hlt, hholds⟩ := h.nodes
  rw [State.Spares]
  split
  · rename_i n hfind
    have hn : n.extent ∈ s.pool.extents :=
      List.mem_map_of_mem (List.mem_of_mem_drop (List.mem_of_find?_eq_some hfind))
    obtain ⟨hlast, hle⟩ := hfits n hfind
    have htest : sub64 n.endPtr (mpAlignPtr n.last) ≥ request := by
      simpa using List.find?_some hfind
    have hend := add_le_of_sub64 hle (h.end_lt hn) htest
    have hspan : Region.Within ⟨mpAlignPtr n.last, written⟩ n.extent.span := by
      have hlastEnd : n.last ≤ n.endPtr := (hholds _ hn).last_le
      simp only [Region.Within, Extent.span, Node.extent]
      omega
    refine ⟨fun o ho => ?_, (h.body_inChain hn).within (hspan.trans (hholds _ hn).span_within)⟩
    have hapart := (List.pairwise_append.mp h.pieces).2.2 o (List.mem_append_left _ ho) _
      (List.mem_map_of_mem hn)
    exact hapart.symm.within hspan (.refl o)
  · have hhead : s.pool.head.extent ∈ s.pool.extents := List.mem_cons_self
    have hend : s.pool.head.endPtr < 2 ^ 64 := h.end_lt hhead
    have hsize : s.pool.head.endPtr = s.pool.head.addr + sizeofNode + cap := (hholds _ hhead).size
    simp only [Pool.psize, sub64, sizeofNode] at hsize ⊢
    omega

/-! ## Records -/

/-- A change of the records that keeps their places or gives them up. -/
theorem State.Intact.records (h : s.Intact pending) {large : List Large} {trace : List Event}
    (hlawful : Lawful trace)
    (howns : State.Owns ⟨{ s.pool with large := large }, trace⟩ (pending'.map (·.base)))
    (hlive : ∀ q ∈ live trace, q ∈ live s.trace) (hpending : ∀ r ∈ pending', r ∈ live s.trace)
    (hsub : (large.map (·.addr)).Sublist (s.pool.large.map (·.addr)))
    (hsmall : s.pool.max < sizeofLarge → large = []) :
    State.Intact ⟨{ s.pool with large := large }, trace⟩ pending' := by
  refine h.change [] hlawful howns hlive (fun _ ha => ha) hpending ?_ .nil
    (fun o ho => absurd ho List.not_mem_nil) hsmall rfl ⟨h.ledger.failed, h.ledger.current⟩
  rw [List.nil_append, Pool.fixed_eq, Pool.fixed_eq]
  exact ((hsub.map _).append_left _).subperm

theorem State.Intact.small_of_addrs (h : s.Intact pending) {large : List Large}
    (haddr : large.map (·.addr) = s.pool.large.map (·.addr)) :
    s.pool.max < sizeofLarge → large = [] := by
  intro hsize
  rw [h.small hsize] at haddr
  exact List.map_eq_nil_iff.mp haddr

theorem reuseRecord_addr {n : ℕ} {large large' : List Large}
    (h : reuseRecord p n large = some large') :
    large'.map (·.addr) = large.map (·.addr) := by
  have hregion := congrArg (List.map Region.base) (reuseRecord_region h)
  simpa [Function.comp_def, Large.region] using hregion

theorem dropBlock_addr {large large' : List Large} (h : dropBlock p large = some large') :
    large'.map (·.addr) = large.map (·.addr) := by
  have hregion := congrArg (List.map Region.base) (dropBlock_region h)
  simpa [Function.comp_def, Large.region] using hregion

theorem reuseRecord_intact (h : s.Intact (⟨p, size⟩ :: pending)) {n : ℕ} {large : List Large}
    (hreuse : reuseRecord p n s.pool.large = some large) :
    State.Intact { s with pool := { s.pool with large := large } } pending := by
  have hp : p ≠ 0 := h.lawful.nonnull (h.pending _ List.mem_cons_self)
  have haddr := reuseRecord_addr hreuse
  exact h.records h.lawful (reuseRecord_owns h.owns hp hreuse) (fun _ hq => hq)
    (fun r hr => h.pending r (List.mem_cons_of_mem _ hr)) (haddr ▸ List.Sublist.refl _)
    (h.small_of_addrs haddr)

/-- A new record in memory that is spared, or the return of the block. -/
theorem addRecord_intact {r : Result} (h : r.state.Intact (⟨p, size⟩ :: pending))
    (hmax : r.ret ≠ 0 → sizeofLarge ≤ r.state.pool.max)
    (hplace : r.ret ≠ 0 → (∀ o ∈ r.state.pool.fixed, Region.Disjoint ⟨r.ret, sizeofLarge⟩ o) ∧
      r.state.InChain ⟨r.ret, sizeofLarge⟩) :
    (addRecord p r).state.Intact pending := by
  have hp : p ≠ 0 := h.lawful.nonnull (h.pending _ List.mem_cons_self)
  have howns := addRecord_owns h.owns hp
  have hpending : ∀ q ∈ pending, q ∈ live r.state.trace :=
    fun q hq => h.pending q (List.mem_cons_of_mem _ hq)
  rw [addRecord] at howns ⊢
  by_cases hret : r.ret = 0
  · rw [if_pos hret] at howns ⊢
    exact h.records h.lawful howns (fun _ => mem_of_mem_live_free) hpending
      (List.Sublist.refl _) h.small
  · rw [if_neg hret] at howns ⊢
    have hspared := hplace hret
    refine h.change [⟨r.ret, sizeofLarge⟩] h.lawful howns (fun _ hq => hq) (fun _ ha => ha)
      hpending ?_ (List.pairwise_singleton _ _) ?_ ?_ rfl
      ⟨h.ledger.failed, h.ledger.current⟩
    · refine (List.perm_iff_count.mpr ?_).subperm
      intro o
      simp only [Pool.fixed, Pool.header, Pool.extents, Pool.chain, Large.region, List.map_cons,
        List.cons_append, List.nil_append, List.count_append, List.count_cons]
      omega
    · intro o ho
      rw [List.mem_singleton.mp ho]
      exact ⟨hspared.1, hspared.2.mono (fun _ hq => hq) fun _ ha => ha⟩
    · intro hsize
      exact absurd (hmax hret) (Nat.not_le.mpr hsize)

theorem mpFree_intact (h : s.Intact []) (hlawful : Lawful (mpFree s p).trace) :
    (mpFree s p).Intact [] := by
  have howns := mpFree_owns h.owns hlawful
  rw [mpFree] at hlawful howns ⊢
  split at hlawful
  · exact h
  · rename_i large hdrop
    have haddr := dropBlock_addr hdrop
    rw [hdrop] at howns
    exact h.records hlawful howns (fun _ => mem_of_mem_live_free) h.pending
      (haddr ▸ List.Sublist.refl _) (h.small_of_addrs haddr)

/-! ## The whole pool -/

/-- A new pool. -/
theorem intact_created {len : ℕ} (htrace : s.trace = [.obtain MP_ALIGNMENT ⟨s.pool.addr, len⟩])
    (hlawful : Lawful s.trace) (hnodes : s.pool.nodes = []) (hlarge : s.pool.large = [])
    (hcurrent : s.pool.current = 0) (hhead : s.pool.head.addr = s.pool.addr + sizeofPool)
    (hfailed : s.pool.head.failed = 0) (hlen : sizeofPool + sizeofNode ≤ len)
    (hroomy : sizeofNode ≤ s.pool.psize) : s.Intact [] where
  lawful := hlawful
  owns := by
    refine ⟨?_, by rw [htrace]; trivial⟩
    simp [htrace, live, Pool.owned, hnodes, hlarge, blocksOf]
  pending := fun r hr => absurd hr List.not_mem_nil
  packed := by
    rw [Pool.fixed_eq, Pool.chain, hnodes, hlarge]
    refine packed_pair.mpr (.inl ?_)
    show s.pool.addr + sizeofPool ≤ s.pool.head.addr
    omega
  fixed := by
    intro o ho
    refine ⟨⟨s.pool.addr, len⟩, by rw [htrace]; exact List.mem_cons_self, List.mem_cons_self, ?_⟩
    rw [Pool.fixed_eq, Pool.chain, hnodes, hlarge] at ho
    rcases List.mem_pair.mp ho with rfl | rfl
    · refine ⟨Nat.le_refl _, ?_⟩
      simp only
      omega
    · refine ⟨?_, ?_⟩
      · simp only
        omega
      · simp only
        omega
  small := fun _ => hlarge
  roomy := hroomy
  ledger := ⟨by simp [Pool.chain, hnodes, hfailed]; rfl, by simp [Pool.chain, hnodes, hcurrent]⟩

/-- `mp_reset_pool` gives up the records and leaves the headers where they are. -/
theorem State.Intact.reset (h : s.Intact []) {pool' : Pool}
    (hlawful : Lawful (freeLarge s s.pool.large).trace) (haddr : pool'.addr = s.pool.addr)
    (hcurrent : pool'.current = s.pool.current) (hlarge : pool'.large = [])
    (hchain : pool'.chain.map (fun n => (n.addr, n.endPtr, n.failed)) =
      s.pool.chain.map fun n => (n.addr, n.endPtr, n.failed)) :
    State.Intact ⟨pool', (freeLarge s s.pool.large).trace⟩ [] := by
  have haddrs : pool'.chain.map (·.addr) = s.pool.chain.map (·.addr) := by
    simpa [Function.comp_def] using congrArg (List.map Prod.fst) hchain
  have hfailed : pool'.chain.map (·.failed) = s.pool.chain.map (·.failed) := by
    simpa [Function.comp_def] using congrArg (List.map fun n => n.2.2) hchain
  have hlength : pool'.chain.length = s.pool.chain.length := by
    simpa using congrArg List.length haddrs
  have hnodes : pool'.nodes.map (·.addr) = s.pool.nodes.map (·.addr) := by
    simpa [Pool.chain] using congrArg List.tail haddrs
  obtain ⟨hbases, hfrees⟩ := freeLarge_owns s.pool.large
    (s.pool.addr :: s.pool.nodes.map (·.addr)) (by simpa [Pool.owned] using h.owns.bases)
    h.owns.frees
  refine h.change [] hlawful ⟨?_, hfrees⟩ (fun _ => freeLarge_live)
    (Pool.bases_of_chain haddr [] (by rw [haddrs, List.append_nil])) h.pending
    ?_ .nil (fun o ho => absurd ho List.not_mem_nil) (fun _ => hlarge) ?_
    ⟨by rw [hfailed, hlength, h.ledger.failed], by rw [hcurrent, hlength, h.ledger.current]⟩
  · simpa [Pool.owned, haddr, hnodes, hlarge, blocksOf] using hbases
  · rw [List.nil_append, Pool.fixed_eq, Pool.fixed_eq, haddr, haddrs, hlarge]
    exact ((List.nil_sublist _).append_left _).subperm
  · simp only [Pool.chain, List.map_cons, List.cons.injEq, Prod.mk.injEq] at hchain
    simp only [Pool.psize, hchain.1.1, hchain.1.2.1]

end ServerKit.Mempool
