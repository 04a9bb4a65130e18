import ServerKit.Mempool.Yzx

/-! # The nodes of `yzx_mempool.c`

The first block of a pool lies over the header of the head, and a node that `mp_alloc_block` adds
is 24 bytes too short for the largest requests. -/

namespace ServerKit.Mempool.Yzx

open ServerKit.System ServerKit.SystemHeap ServerKit.WordMemory

/-- The free end of every node lies behind its header and in the region of the node. -/
structure NodeLayout (h : Heap) (pool : ℕ) (nodes : List ℕ) : Prop where
  chain : Linked h.mem 16 (pool + 24) nodes
  header : ∀ n ∈ nodes, n + sizeofNode ≤ h.mem n
  last : ∀ n ∈ nodes, h.mem n ≤ h.mem (n + 8)
  region : ∀ n ∈ nodes, ∃ r ∈ live h.trace, r.base ≤ n ∧ h.mem (n + 8) ≤ r.base + r.len

variable {heap : Heap} {s : State} {contents : ℕ → ℕ} {fuel p size : ℕ}

/-- The head of a new pool has its `last` inside its header. -/
theorem last_in_header (p size : ℕ) (contents : ℕ → ℕ) :
    (createPool p size contents).mem (p + 24) < p + 24 + sizeofNode := by
  have hlast : (createPool p size contents).mem (p + 24) = add64 p (sizeofPool + sizeofSize) := by
    simp [createPool, Heap.write]
  have hle : add64 p (sizeofPool + sizeofSize) ≤ p + 32 := Nat.mod_le _ _
  rw [hlast]
  simp only [sizeofNode]
  omega

/-- The first block of a new pool. -/
theorem first_block (hsize : SizeFits size) (hlawful : Lawful (createPool p size contents).trace)
    {n : ℕ} (hn : n ≤ (createPool p size contents).mem p) (hfuel : 0 < fuel) :
    ∃ heap, call fuel (createPool p size contents) p (.mpAlloc n []) =
      some (heap, some (p + 32)) := by
  have hlen : add64 size (sizeofPool + sizeofNode) = size + 56 := Nat.mod_eq_of_lt hsize
  have hfresh : Fresh MP_ALIGNMENT ⟨p, add64 size (sizeofPool + sizeofNode)⟩ [] := hlawful.1
  have hbounded : p + add64 size (sizeofPool + sizeofNode) < 2 ^ 64 := hfresh.bounded
  rw [hlen] at hbounded
  have hlast : add64 p (sizeofPool + sizeofSize) = p + 32 :=
    Nat.mod_eq_of_lt (by simp only [sizeofPool, sizeofSize]; omega)
  have hend : add64 (p + 32) size = p + 32 + size := Nat.mod_eq_of_lt (by omega)
  have hround : mpAlignPtr (p + 32) = p + 32 :=
    mpAlignPtr_of_dvd (Nat.dvd_add hfresh.aligned (by decide)) (by omega)
  generalize hheap : createPool p size contents = heap at hn
  have hmax : heap.mem p = if size < MP_MAX_ALLOC_FROM_POOL then size else
      MP_MAX_ALLOC_FROM_POOL := by
    simp [← hheap, createPool, Heap.write, Nat.add_assoc]
  have hcurrent : heap.mem (p + 8) = p + 24 := by
    simp [← hheap, createPool, Heap.write]
  have hheadLast : heap.mem (p + 24) = p + 32 := by
    simp [← hheap, createPool, Heap.write, hlast]
  have hheadEnd : heap.mem (p + 24 + 8) = p + 32 + size := by
    simp [← hheap, createPool, Heap.write, hlast, hend]
  have hroom : sub64 (p + 32 + size) (p + 32) ≥ n := by
    have hle : n ≤ size := by
      rw [hmax] at hn
      split at hn <;> omega
    simp only [sub64]
    omega
  obtain ⟨fuel, rfl⟩ := Nat.exists_eq_add_one_of_ne_zero (Nat.ne_zero_of_lt hfuel)
  have hfind : findRoom heap.mem mpAlignPtr n (fuel + 1) (heap.mem (p + 8)) =
      some (some (p + 24, p + 32)) := by
    rw [findRoom, hcurrent, hheadEnd, hheadLast, hround, if_pos hroom]
  refine ⟨heap.write (p + 24) (add64 (p + 32) n), ?_⟩
  rw [call, mpAlloc, if_pos hn, Heap.allocSmall, hfind]
  rfl

/-- **The layout of the nodes.** No pool keeps it: the head breaks it from the beginning, and the
first block of every size is laid over its header. -/
theorem layout_never (hlawful : Lawful (createPool p size contents).trace) :
    (¬ ∀ fuel calls heap, exec (next fuel p) (createPool p size contents) calls = some heap →
      Lawful heap.trace → ∃ nodes, NodeLayout heap p nodes) ∧
    (SizeFits size → ∀ n, 0 < n → n ≤ (createPool p size contents).mem p →
      ∃ heap, call 1 (createPool p size contents) p (.mpAlloc n []) = some (heap, some (p + 32)) ∧
        ¬ Region.Disjoint ⟨p + 32, n⟩ ⟨p + 24, sizeofNode⟩) := by
  refine ⟨fun hall => ?_, fun hsize n hpos hn => ?_⟩
  · obtain ⟨nodes, hlayout⟩ := hall 0 [] _ rfl hlawful
    have hhead : p + 24 ∈ nodes := by
      have hchain := hlayout.chain
      cases nodes with
      | nil => exact absurd (linked_nil.mp hchain) (by omega)
      | cons n nodes =>
        rw [(linked_cons.mp hchain).1]
        exact List.mem_cons_self
    exact absurd (hlayout.header _ hhead) (Nat.not_le.mpr (last_in_header p size contents))
  · obtain ⟨heap, hcall⟩ := first_block hsize hlawful hn Nat.one_pos
    refine ⟨heap, hcall, ?_⟩
    simp only [Region.Disjoint, sizeofNode]
    omega

theorem layout_never_small :
    ¬ ∀ fuel calls heap, exec (next fuel 4096) (createPool 4096 64 fun _ => 0) calls = some heap →
      Lawful heap.trace → ∃ nodes, NodeLayout heap 4096 nodes :=
  (layout_never (by decide)).1

/-- Two blocks: the first one overlaps the header of the head, and the second one passes the end of
the node that `mp_alloc_block` has made for it. -/
theorem blocks_overrun :
    Lawful (createPool 4096 64 fun _ => 0).trace ∧
      (∀ nodes, ¬ NodeLayout (createPool 4096 64 fun _ => 0) 4096 nodes) ∧
      (call 2 (createPool 4096 64 fun _ => 0) 4096 (.mpAlloc 60 [])).map Prod.snd =
        some (some 4128) ∧
      ¬ Region.Disjoint ⟨4128, 60⟩ ⟨4120, sizeofNode⟩ ∧
      ((next 2 4096 (createPool 4096 64 fun _ => 0) (.mpAlloc 60 [])).bind fun h =>
        (call 2 h 4096 (.mpAlloc 60 [some (65536, fun _ => 0)])).map fun (h, ret) =>
          (ret, live h.trace)) = some (some 65568, [⟨65536, 72⟩, ⟨4096, 120⟩]) ∧
      ¬ Region.Within ⟨65568, 60⟩ ⟨65536, 72⟩ := by
  refine ⟨by decide, fun nodes hlayout => ?_, by decide +kernel, by decide, by decide +kernel,
    by decide⟩
  have hchain : Linked (createPool 4096 64 fun _ => 0).mem 16 4120 [4120] :=
    ⟨rfl, by decide, rfl⟩
  cases hlayout.chain.unique hchain
  have hheader := hlayout.header 4120 List.mem_cons_self
  revert hheader
  decide

/-- A block that `mp_alloc_block` serves lies in its node if it fits behind the header. -/
theorem block_within_iff {grants : Grants} {node n : ℕ} (h : heap.Holds s [])
    (hfuel : s.pool.chain.length ≤ fuel)
    (hlawful : Lawful
      (mpAllocBlock (Grants.addrs (some (node, contents) :: grants)) s n).state.trace) :
    ∃ r, heap.mpAllocBlock fuel (some (node, contents) :: grants) s.pool.addr n = some r ∧
      (Region.Within ⟨r.ret, n⟩ ⟨node, s.pool.psize⟩ ↔ sizeofNode + n ≤ s.pool.psize) := by
  obtain ⟨r, hcall, hr⟩ := mpAllocBlock_holds h hfuel hlawful
  have hfresh : Fresh MP_ALIGNMENT ⟨node, s.pool.psize⟩ (live s.trace) := hlawful.1
  have hbounded : node + s.pool.psize < 2 ^ 64 := hfresh.bounded
  have hroomy := h.intact.roomy
  have hret : r.ret = node + sizeofNode := by
    have hadd : add64 node sizeofNode = node + sizeofNode := Nat.mod_eq_of_lt (by omega)
    refine hr.ret.trans ((congrArg mpAlignPtr hadd).trans ?_)
    exact mpAlignPtr_of_dvd (Nat.dvd_add hfresh.aligned (by decide)) (by omega)
  refine ⟨r, hcall, ?_⟩
  rw [hret, Region.Within]
  simp only [sizeofNode]
  omega

end ServerKit.Mempool.Yzx
