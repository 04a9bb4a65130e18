import ServerKit.Mempool.Ownership

/-! # Where the pool's data and the blocks lie

The header of the pool, the headers and the free ends of the nodes, the records and the
blocks are packed into the live regions. -/

namespace ServerKit.Mempool

open ServerKit.SystemHeap

/-- What of a node matters to the layout. -/
structure Extent where
  addr : ℕ
  last : ℕ
  endPtr : ℕ
  deriving DecidableEq

/-- A node with its header. -/
def Extent.body (e : Extent) : Region := ⟨e.addr, e.endPtr - e.addr⟩

def Extent.header (e : Extent) : Region := ⟨e.addr, sizeofNode⟩

/-- The free end of a node. -/
def Extent.span (e : Extent) : Region := ⟨e.last, e.endPtr - e.last⟩

def Extent.reset (e : Extent) : Extent := { e with last := e.addr + sizeofNode }

/-- The node has room for `cap` bytes, and `last` lies within it. -/
structure Extent.Holds (cap : ℕ) (e : Extent) : Prop where
  header_le : e.addr + sizeofNode ≤ e.last
  last_le : e.last ≤ e.endPtr
  size : e.endPtr = e.addr + sizeofNode + cap

def Node.extent (n : Node) : Extent := ⟨n.addr, n.last, n.endPtr⟩

def Large.region (l : Large) : Region := ⟨l.addr, sizeofLarge⟩

def Pool.extents (pool : Pool) : List Extent := pool.chain.map Node.extent

def Pool.header (pool : Pool) : Region := ⟨pool.addr, sizeofPool⟩

/-- The header of the pool and its nodes. -/
def Pool.bodies (pool : Pool) : List Region := pool.header :: pool.extents.map Extent.body

/-- The headers and the records. -/
def Pool.fixed (pool : Pool) : List Region :=
  pool.header :: pool.extents.map Extent.header ++ pool.large.map Large.region

/-- The pieces of the live regions, with those of a call and of the caller. -/
def Pool.pieces (pool : Pool) (pending blocks : List Region) : List Region :=
  pool.fixed ++ (pending ++ blocks) ++ pool.extents.map Extent.span

/-- The bases of the regions that hold the pool and its nodes. -/
def Pool.bases (pool : Pool) : List ℕ := pool.addr :: pool.nodes.map (·.addr)

/-- A piece of one of these regions. -/
def State.InChain (s : State) (o : Region) : Prop :=
  ∃ r ∈ live s.trace, r.base ∈ s.pool.bases ∧ o.Within r

/-- The layout of a pool, of the regions that a call has obtained and not yet recorded, and
of the blocks that the caller has. -/
structure State.Layout (s : State) (pending blocks : List Region) : Prop where
  lawful : Lawful s.trace
  owns : s.Owns (pending.map (·.base))
  nodes : ∃ cap, s.pool.max ≤ cap ∧ cap + sizeofNode < 2 ^ 64 ∧
    ∀ e ∈ s.pool.extents, e.Holds cap
  bodies : Packed s.pool.bodies
  chain : ∀ o ∈ s.pool.bodies, s.InChain o
  small : s.pool.max < sizeofLarge → s.pool.large = []
  pieces : Packed (s.pool.pieces pending blocks)
  records : ∀ l ∈ s.pool.large, s.InChain l.region
  pending : ∀ r ∈ pending, r ∈ live s.trace
  blocks : ∀ b ∈ blocks, s.InChain b ∨ b ∈ live s.trace ∧ b.base ∈ blocksOf s.pool.large

section Pieces

variable {s s' : State} {pending pending' blocks blocks' : List Region} {o r : Region}
  {e : Extent} {cap : ℕ}

theorem Extent.Holds.header_within (h : e.Holds cap) : e.header.Within e.body := by
  obtain ⟨hheader, hlast, -⟩ := h
  simp only [Region.Within, Extent.header, Extent.body]
  omega

theorem Extent.Holds.span_within (h : e.Holds cap) : e.span.Within e.body := by
  obtain ⟨hheader, hlast, -⟩ := h
  simp only [Region.Within, Extent.span, Extent.body]
  omega

theorem Extent.Holds.reset (h : e.Holds cap) : e.reset.Holds cap :=
  ⟨Nat.le_refl _, Nat.le_trans h.header_le h.last_le, h.size⟩

theorem State.InChain.within (h : s.InChain r) (ho : o.Within r) : s.InChain o := by
  obtain ⟨q, hq, hbase, hwithin⟩ := h
  exact ⟨q, hq, hbase, ho.trans hwithin⟩

theorem State.InChain.mono (h : s.InChain o) (hlive : ∀ q ∈ live s.trace, q ∈ live s'.trace)
    (hbases : ∀ a ∈ s.pool.bases, a ∈ s'.pool.bases) : s'.InChain o := by
  obtain ⟨q, hq, hbase, hwithin⟩ := h
  exact ⟨q, hlive q hq, hbases _ hbase, hwithin⟩

theorem Pool.bases_subset_owned (pool : Pool) : ∀ a ∈ pool.bases, a ∈ pool.owned :=
  fun _ ha => List.mem_append_left _ ha

/-- The bases follow the nodes. -/
theorem Pool.bases_of_extents {pool pool' : Pool} (haddr : pool'.addr = pool.addr)
    (new : List ℕ) (h : pool'.extents.map (·.addr) = pool.extents.map (·.addr) ++ new) :
    pool'.bases = pool.bases ++ new := by
  rw [Pool.extents, Pool.extents, List.map_map, List.map_map] at h
  rw [Pool.bases, haddr, nodes_addr_of_chain h, Pool.bases, List.cons_append]

theorem State.Owns.mem_live {pending : List ℕ} {a : ℕ} (h : s.Owns pending)
    (ha : a ∈ pending ++ s.pool.owned) : a ∈ (live s.trace).map (·.base) :=
  h.bases.symm.subset ha

/-- Freeing leaves alone what the pool still owns. -/
theorem State.InChain.keep {pending : List ℕ} (h : s.InChain o) (hlawful : Lawful s.trace)
    (howns : s'.Owns pending) (hsub : ∀ q ∈ live s'.trace, q ∈ live s.trace)
    (hbases : ∀ a ∈ s.pool.bases, a ∈ s'.pool.bases) : s'.InChain o := by
  obtain ⟨q, hq, hbase, hwithin⟩ := h
  have howned := s'.pool.bases_subset_owned _ (hbases _ hbase)
  have hlive := howns.mem_live (List.mem_append_right _ howned)
  exact ⟨q, hlawful.mem_live_of_base hsub hq hlive, hbases _ hbase, hwithin⟩

namespace State.Layout

theorem header_inChain (h : s.Layout pending blocks) : s.InChain s.pool.header :=
  h.chain _ List.mem_cons_self

theorem body_inChain (h : s.Layout pending blocks) (he : e ∈ s.pool.extents) :
    s.InChain e.body :=
  h.chain _ (List.mem_cons_of_mem _ (List.mem_map_of_mem he))

theorem fixed_inChain (h : s.Layout pending blocks) (ho : o ∈ s.pool.fixed) : s.InChain o := by
  obtain ⟨cap, -, -, hholds⟩ := h.nodes
  rcases List.mem_append.mp ho with ho | ho
  · rcases List.mem_cons.mp ho with rfl | ho
    · exact h.header_inChain
    · obtain ⟨e, he, rfl⟩ := List.mem_map.mp ho
      exact (h.body_inChain he).within (hholds e he).header_within
  · obtain ⟨l, hl, rfl⟩ := List.mem_map.mp ho
    exact h.records l hl

/-- Every piece lies in a live region. -/
theorem exists_live (h : s.Layout pending blocks) (ho : o ∈ s.pool.pieces pending blocks) :
    ∃ r ∈ live s.trace, o.Within r := by
  have hchain : s.InChain o → ∃ r ∈ live s.trace, o.Within r := by
    rintro ⟨r, hr, -, hwithin⟩
    exact ⟨r, hr, hwithin⟩
  obtain ⟨cap, -, -, hholds⟩ := h.nodes
  rcases List.mem_append.mp ho with ho | ho
  · rcases List.mem_append.mp ho with ho | ho
    · exact hchain (h.fixed_inChain ho)
    · rcases List.mem_append.mp ho with ho | ho
      · exact ⟨o, h.pending o ho, .refl o⟩
      · rcases h.blocks o ho with ho | ⟨ho, -⟩
        · exact hchain ho
        · exact ⟨o, ho, .refl o⟩
  · obtain ⟨e, he, rfl⟩ := List.mem_map.mp ho
    exact hchain ((h.body_inChain he).within (hholds e he).span_within)

theorem last_pos (h : s.Layout pending blocks) (he : e ∈ s.pool.extents) : 0 < e.last := by
  obtain ⟨cap, -, -, hholds⟩ := h.nodes
  have hheader := (hholds e he).header_le
  simp only [sizeofNode] at hheader
  omega

theorem end_lt (h : s.Layout pending blocks) (he : e ∈ s.pool.extents) :
    e.endPtr < 2 ^ 64 := by
  obtain ⟨cap, -, -, hholds⟩ := h.nodes
  obtain ⟨hheader, hlast, -⟩ := hholds e he
  obtain ⟨q, hq, -, hwithin⟩ := h.body_inChain he
  have hbounded := h.lawful.bounded hq
  simp only [Region.Within, Extent.body] at hwithin
  omega

/-- What is pending is not yet part of the chain. -/
theorem pending_disjoint (h : s.Layout (r :: pending) blocks) (ho : s.InChain o) :
    r.Disjoint o := by
  obtain ⟨q, hq, hbase, hwithin⟩ := ho
  have hnodup := h.owns.bases.nodup_iff.mp h.lawful.nodup
  have hnotMem := (List.nodup_cons.mp hnodup).1
  have hne : r ≠ q := by
    rintro rfl
    exact hnotMem (List.mem_append_right _ (s.pool.bases_subset_owned _ hbase))
  have hr := h.pending r List.mem_cons_self
  exact (h.lawful.apart hr hq hne).disjoint.within (.refl r) hwithin

/-! ## Regions come and go -/

/-- A fresh region is disjoint from everything before. -/
theorem obtained {alignment : ℕ} (h : s.Layout pending blocks)
    (hfresh : Fresh alignment r (live s.trace)) :
    (s.log (.obtain alignment r)).Layout (r :: pending) blocks := by
  have hchain : ∀ o, s.InChain o → (s.log (.obtain alignment r)).InChain o := by
    intro o ho
    exact ho.mono (fun q hq => List.mem_cons_of_mem _ hq) fun a ha => ha
  have hpieces : Packed (r :: s.pool.pieces pending blocks) := by
    apply List.Pairwise.cons _ h.pieces
    intro o ho
    obtain ⟨q, hq, hwithin⟩ := h.exists_live ho
    exact (hfresh.apart q hq).disjoint.within (.refl r) hwithin
  refine {
    lawful := ⟨hfresh, h.lawful⟩
    owns := h.owns.obtain alignment
    nodes := h.nodes
    bodies := h.bodies
    chain := fun o ho => hchain o (h.chain o ho)
    small := h.small
    pieces := hpieces.perm ?_
    records := fun l hl => hchain _ (h.records l hl)
    pending := fun q hq => ?_
    blocks := fun b hb =>
      (h.blocks b hb).imp (hchain b) (And.imp_left (List.mem_cons_of_mem _)) }
  · exact List.perm_middle.symm.append_right _
  · rcases List.mem_cons.mp hq with rfl | hq
    · exact List.mem_cons_self
    · exact List.mem_cons_of_mem _ (h.pending q hq)

/-- A change of the records that frees regions and gives up pieces. -/
theorem forget (h : s.Layout pending blocks) {large : List Large} {trace : List Event}
    (howns : State.Owns ⟨{ s.pool with large := large }, trace⟩ (pending'.map (·.base)))
    (hlawful : Lawful trace) (hsub : ∀ q ∈ live trace, q ∈ live s.trace)
    (hsmall : s.pool.max < sizeofLarge → large = [])
    (hpieces : (large.map Large.region ++ (pending' ++ blocks')).Subperm
      (s.pool.large.map Large.region ++ (pending ++ blocks)))
    (hrecords : ∀ l ∈ large, s.InChain l.region) (hpending : ∀ r ∈ pending', r ∈ live s.trace)
    (hblocks : ∀ b ∈ blocks', s.InChain b ∨ b ∈ live s.trace ∧ b.base ∈ blocksOf large) :
    State.Layout ⟨{ s.pool with large := large }, trace⟩ pending' blocks' := by
  have hchain : ∀ o, s.InChain o → State.InChain ⟨{ s.pool with large := large }, trace⟩ o := by
    intro o ho
    exact ho.keep h.lawful howns hsub fun a ha => ha
  refine {
    lawful := hlawful
    owns := howns
    nodes := h.nodes
    bodies := h.bodies
    chain := fun o ho => hchain o (h.chain o ho)
    small := hsmall
    pieces := h.pieces.subperm ?_
    records := fun l hl => hchain _ (hrecords l hl)
    pending := fun r hr => ?_
    blocks := fun b hb => ?_ }
  · rw [Pool.pieces, Pool.pieces, Pool.fixed, Pool.fixed, List.append_assoc _ _ (pending' ++ _),
      List.append_assoc _ _ (pending ++ _)]
    exact (List.subperm_append_right _).mpr ((List.subperm_append_left _).mpr hpieces)
  · exact h.lawful.mem_live_of_base hsub (hpending r hr)
      (howns.mem_live (List.mem_append_left _ (List.mem_map_of_mem hr)))
  · rcases hblocks b hb with hb | ⟨hb, hbase⟩
    · exact .inl (hchain b hb)
    · refine .inr ⟨h.lawful.mem_live_of_base hsub hb (howns.mem_live ?_), hbase⟩
      exact List.mem_append_right _ (List.mem_append_right _ hbase)

/-! ## Changes of the nodes -/

/-- A change of the nodes that leaves the records alone and keeps or adds nodes, and gives
the caller a block in the chain. -/
theorem renode (h : s.Layout pending' blocks) {pool' : Pool} {b : Region}
    (hpool : pool'.addr = s.pool.addr ∧ pool'.max = s.pool.max ∧ pool'.large = s.pool.large)
    (howns : State.Owns { s with pool := pool' } (pending.map (·.base)))
    (hbases : ∀ a ∈ s.pool.bases, a ∈ pool'.bases)
    (hholds : ∀ cap, (∀ e ∈ s.pool.extents, e.Holds cap) → ∀ e ∈ pool'.extents, e.Holds cap)
    (hbodies : Packed pool'.bodies)
    (hchain : ∀ o ∈ pool'.bodies, State.InChain { s with pool := pool' } o)
    (hpieces : Packed (pool'.pieces pending (b :: blocks)))
    (hpending : ∀ r ∈ pending, r ∈ pending')
    (hb : State.InChain { s with pool := pool' } b) :
    State.Layout { s with pool := pool' } pending (b :: blocks) := by
  obtain ⟨haddr, hmax, hlarge⟩ := hpool
  have hold : ∀ o, s.InChain o → State.InChain { s with pool := pool' } o := by
    intro o ho
    exact ho.mono (fun q hq => hq) hbases
  refine {
    lawful := h.lawful
    owns := howns
    nodes := ?_
    bodies := hbodies
    chain := hchain
    small := fun hsize => hlarge ▸ h.small (hmax ▸ hsize)
    pieces := hpieces
    records := fun l hl => hold _ (h.records l (hlarge ▸ hl))
    pending := fun r hr => h.pending r (hpending r hr)
    blocks := fun b' hb' => ?_ }
  · obtain ⟨cap, hle, hlt, hcap⟩ := h.nodes
    exact ⟨cap, hmax ▸ hle, hlt, hholds cap hcap⟩
  · rcases List.mem_cons.mp hb' with rfl | hb'
    · exact .inl hb
    · exact (h.blocks b' hb').imp (hold b') fun hb' => hlarge ▸ hb'

/-- A block is cut off the free end of a node. -/
theorem carve (h : s.Layout pending blocks) {pool' : Pool} {pre post : List Extent}
    {m size : ℕ} (hpool : pool'.addr = s.pool.addr ∧ pool'.max = s.pool.max ∧
      pool'.large = s.pool.large)
    (howns : State.Owns { s with pool := pool' } (pending.map (·.base)))
    (hbefore : s.pool.extents = pre ++ e :: post)
    (hafter : pool'.extents = pre ++ { e with last := m + size } :: post)
    (hlast : e.last ≤ m) (hend : m + size ≤ e.endPtr) :
    State.Layout { s with pool := pool' } pending (⟨m, size⟩ :: blocks) ∧
      State.InChain { s with pool := pool' } ⟨m, size⟩ := by
  have hbodies : pool'.bodies = s.pool.bodies := by
    simp [Pool.bodies, Pool.header, hpool.1, hbefore, hafter, Extent.body]
  have hbases : pool'.bases = s.pool.bases := by
    rw [Pool.bases_of_extents hpool.1 [] (by simp [hbefore, hafter]), List.append_nil]
  have hchain : ∀ o, s.InChain o → State.InChain { s with pool := pool' } o := by
    intro o ho
    exact ho.mono (fun q hq => hq) fun a ha => hbases ▸ ha
  have he : e ∈ s.pool.extents := hbefore ▸ List.mem_append_right _ List.mem_cons_self
  -- the span is cut in two
  set e' : Extent := { e with last := m + size } with he'
  have hblock : Region.Within ⟨m, size⟩ e.span := by
    simp only [Region.Within, Extent.span]
    omega
  have hspan : e'.span.Within e.span := by
    simp only [Region.Within, Extent.span, he']
    omega
  have hnew : State.InChain { s with pool := pool' } ⟨m, size⟩ := by
    obtain ⟨cap, -, -, hholds⟩ := h.nodes
    exact hchain _ ((h.body_inChain he).within (hblock.trans (hholds e he).span_within))
  have hpieces : Packed (pool'.pieces pending (⟨m, size⟩ :: blocks)) := by
    have hperm : (s.pool.pieces pending blocks).Perm
        (e.span :: (s.pool.fixed ++ (pending ++ blocks) ++ (pre ++ post).map Extent.span)) := by
      rw [Pool.pieces, hbefore, List.map_append, List.map_cons, List.map_append]
      exact (List.perm_middle.append_left _).trans List.perm_middle
    have hparts : Packed [⟨m, size⟩, e'.span] := packed_pair.mpr (.inl (Nat.le_refl _))
    apply ((h.pieces.perm hperm).split hparts (by simp [hblock, hspan])).perm
    apply List.perm_iff_count.mpr
    intro o
    simp only [Pool.pieces, Pool.fixed, Pool.header, hpool, hbefore, hafter, Extent.header, he',
      List.map_append, List.map_cons, List.count_append, List.count_cons, List.cons_append,
      List.nil_append]
    omega
  refine ⟨h.renode hpool howns (fun a ha => hbases ▸ ha) ?_ (hbodies ▸ h.bodies)
    (fun o ho => hchain o (h.chain o (hbodies ▸ ho))) hpieces (fun r hr => hr) hnew, hnew⟩
  intro cap hholds k hk
  rcases List.mem_cons.mp (List.perm_middle.subset (hafter ▸ hk)) with rfl | hk
  · exact ⟨Nat.le_trans (hholds e he).header_le (by simp only [he']; omega), hend,
      (hholds e he).size⟩
  · exact hholds k (hbefore ▸ List.perm_middle.symm.subset (List.mem_cons_of_mem _ hk))

/-- A pending region becomes a node with a first block. -/
theorem addNode (h : s.Layout (r :: pending) blocks) {pool' : Pool} {size : ℕ}
    (hpool : pool'.addr = s.pool.addr ∧ pool'.max = s.pool.max ∧ pool'.large = s.pool.large)
    (howns : State.Owns { s with pool := pool' } (pending.map (·.base)))
    (hlen : ∀ e ∈ s.pool.extents, e.endPtr = e.addr + r.len) (hsize : sizeofNode + size ≤ r.len)
    (hafter : pool'.extents =
      s.pool.extents ++ [⟨r.base, r.base + sizeofNode + size, r.base + r.len⟩]) :
    State.Layout { s with pool := pool' } pending (⟨r.base + sizeofNode, size⟩ :: blocks) ∧
      State.InChain { s with pool := pool' } ⟨r.base + sizeofNode, size⟩ := by
  set e : Extent := ⟨r.base, r.base + sizeofNode + size, r.base + r.len⟩ with he
  have hbodies : pool'.bodies = s.pool.bodies ++ [r] := by
    simp [Pool.bodies, Pool.header, hpool.1, hafter, he, Extent.body]
  have hbases : pool'.bases = s.pool.bases ++ [r.base] :=
    Pool.bases_of_extents hpool.1 [r.base] (by simp [hafter, he])
  have hchain : ∀ o, s.InChain o → State.InChain { s with pool := pool' } o := by
    intro o ho
    exact ho.mono (fun q hq => hq) fun a ha => hbases ▸ List.mem_append_left _ ha
  have hr : State.InChain { s with pool := pool' } r :=
    ⟨r, h.pending r List.mem_cons_self, hbases ▸ List.mem_append_right _ (.head _), .refl r⟩
  -- the region is cut into the header, the block and the free end
  have hheader : e.header.Within r := by
    simp only [Region.Within, he, Extent.header]
    omega
  have hblock : Region.Within ⟨r.base + sizeofNode, size⟩ r := by
    simp only [Region.Within]
    omega
  have hspan : e.span.Within r := by
    simp only [Region.Within, he, Extent.span]
    omega
  have hpieces : Packed (pool'.pieces pending (⟨r.base + sizeofNode, size⟩ :: blocks)) := by
    have hperm : (s.pool.pieces (r :: pending) blocks).Perm
        (r :: s.pool.pieces pending blocks) := List.perm_middle.append_right _
    have hparts : Packed [e.header, ⟨r.base + sizeofNode, size⟩, e.span] := by
      simp [Packed, Region.Disjoint, he, Extent.header, Extent.span]
    apply ((h.pieces.perm hperm).split hparts (by simp [hheader, hblock, hspan])).perm
    apply List.perm_iff_count.mpr
    intro o
    simp only [Pool.pieces, Pool.fixed, Pool.header, hpool, hafter, List.map_append,
      List.map_cons, List.map_nil, List.count_append, List.count_cons, List.count_nil,
      List.cons_append, List.nil_append]
    omega
  refine ⟨h.renode hpool howns (fun a ha => hbases ▸ List.mem_append_left _ ha) ?_ ?_ ?_ hpieces
    (fun q hq => List.mem_cons_of_mem _ hq) (hr.within hblock), hr.within hblock⟩
  · intro cap hholds k hk
    rcases List.mem_append.mp (hafter ▸ hk) with hk | hk
    · exact hholds k hk
    · have hhead : s.pool.head.extent ∈ s.pool.extents := List.mem_cons_self
      have hcap := (hholds _ hhead).size
      rw [hlen _ hhead] at hcap
      rw [List.mem_singleton.mp hk]
      exact ⟨Nat.le_add_right _ _, by simp only [he]; omega, by simp only [he]; omega⟩
  · rw [hbodies]
    apply List.pairwise_append.mpr ⟨h.bodies, List.pairwise_singleton _ _, ?_⟩
    intro o ho q hq
    rw [List.mem_singleton.mp hq]
    exact (h.pending_disjoint (h.chain o ho)).symm
  · intro o ho
    rcases List.mem_append.mp (hbodies ▸ ho) with ho | ho
    · exact hchain o (h.chain o ho)
    · rw [List.mem_singleton.mp ho]
      exact hr

/-- Every record and block is given up, and the nodes are free again. -/
theorem reset (h : s.Layout [] blocks) (hlawful : Lawful s'.trace)
    (hsub : ∀ q ∈ live s'.trace, q ∈ live s.trace) (howns : s'.Owns [])
    (hpool : s'.pool.addr = s.pool.addr ∧ s'.pool.max = s.pool.max ∧ s'.pool.large = [])
    (hextents : s'.pool.extents = s.pool.extents.map Extent.reset) : s'.Layout [] [] := by
  obtain ⟨haddr, hmax, hlarge⟩ := hpool
  obtain ⟨cap, hle, hlt, hholds⟩ := h.nodes
  have hbodies : s'.pool.bodies = s.pool.bodies := by
    simp [Pool.bodies, Pool.header, haddr, hextents, Function.comp_def, Extent.body, Extent.reset]
  have hbases : s'.pool.bases = s.pool.bases := by
    rw [Pool.bases_of_extents haddr [] (by
      simp [hextents, Function.comp_def, Extent.reset]), List.append_nil]
  -- every node is cut into its header and its free end
  have hpieces : Packed (s'.pool.pieces [] []) := by
    have hperm : s.pool.bodies.Perm (s.pool.extents.map Extent.body ++ [s.pool.header]) :=
      (List.perm_append_singleton _ _).symm
    have hflat : Packed (s.pool.extents.flatMap (fun e => [e.header] ++ [e.reset.span]) ++
        [s.pool.header]) := by
      apply Packed.flatMap (h.bodies.perm hperm)
      · intro e _
        exact packed_pair.mpr (.inl (Nat.le_refl _))
      · intro e he o ho
        rcases List.mem_pair.mp ho with rfl | rfl
        · exact (hholds e he).header_within
        · exact (hholds e he).reset.span_within
    apply hflat.perm
    apply ((List.flatMap_append_perm _ _ _).symm.append_right _).trans
    rw [← List.map_eq_flatMap, ← List.map_eq_flatMap]
    have hheader : (fun e : Extent => e.reset.header) = Extent.header := rfl
    apply List.perm_iff_count.mpr
    intro o
    simp only [Pool.pieces, Pool.fixed, Pool.header, haddr, hlarge, hextents, List.map_map,
      Function.comp_def, hheader, List.map_nil, List.append_nil, List.count_append,
      List.count_cons, List.count_nil]
    omega
  refine {
    lawful := hlawful
    owns := howns
    nodes := ⟨cap, hmax ▸ hle, hlt, ?_⟩
    bodies := hbodies ▸ h.bodies
    chain := fun o ho =>
      (h.chain o (hbodies ▸ ho)).keep h.lawful howns hsub fun a ha => hbases ▸ ha
    small := fun _ => hlarge
    pieces := hpieces
    records := fun l hl => absurd (hlarge ▸ hl) List.not_mem_nil
    pending := fun q hq => absurd hq List.not_mem_nil
    blocks := fun b hb => absurd hb List.not_mem_nil }
  intro k hk
  obtain ⟨e, he, rfl⟩ := List.mem_map.mp (hextents ▸ hk)
  exact (hholds e he).reset

end State.Layout

end Pieces

end ServerKit.Mempool
