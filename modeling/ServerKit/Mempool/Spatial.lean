import ServerKit.Lib.System
import ServerKit.Mempool.Layout

/-! # The blocks that the pool hands out -/

namespace ServerKit.Mempool

open ServerKit.SystemHeap ServerKit.System

/-- The block of `size` bytes at a returned pointer. -/
def returned (ret size : ℕ) : List Region := if ret = 0 then [] else [⟨ret, size⟩]

/-- The first node from `current` on that passes the test of the loop. -/
def Pool.taker (pool : Pool) (round : ℕ → ℕ) (size : ℕ) : Option Node :=
  (pool.chain.drop pool.current).find? fun p => sub64 p.endPtr (round p.last) ≥ size

/-- The `last` of this node, rounded, is still in its free end. -/
def Pool.Fits (pool : Pool) (round : ℕ → ℕ) (size : ℕ) : Prop :=
  ∀ p ∈ pool.taker round size, p.last ≤ round p.last ∧ round p.last ≤ p.endPtr

instance (pool : Pool) (round : ℕ → ℕ) (size : ℕ) : Decidable (pool.Fits round size) :=
  inferInstanceAs (Decidable (∀ p ∈ pool.taker round size, _))

/-- The condition for the call of `mp_alloc` for a record. -/
def Pool.RecordFits (pool : Pool) : Prop :=
  sizeofLarge ≤ pool.max → pool.Fits mpAlignPtr sizeofLarge

instance (pool : Pool) : Decidable pool.RecordFits := inferInstanceAs (Decidable (_ → _))

/-- The condition for a large block, which may find a record without a block. -/
def Pool.LargeFits (pool : Pool) : Answers → Prop
  | some p :: _ => reuseRecord p 0 pool.large = none → pool.RecordFits
  | _ => True

instance (pool : Pool) : (answers : Answers) → Decidable (pool.LargeFits answers)
  | some _ :: _ => inferInstanceAs (Decidable (_ → _))
  | none :: _ => .isTrue trivial
  | [] => .isTrue trivial

section Calls

variable {s : State} {pending blocks : List Region} {answers : Answers} {size p : ℕ}

@[simp] theorem returned_null : returned 0 size = [] := rfl

theorem returned_of_ne (h : p ≠ 0) : returned p size = [⟨p, size⟩] := if_neg h

/-! ## Small blocks -/

theorem takeFrom_eq_some {round : ℕ → ℕ} {nodes nodes' : List Node} {m : ℕ}
    (h : takeFrom round size nodes = some (m, nodes')) :
    ∃ pre n post, nodes = pre ++ n :: post ∧
      nodes' = pre ++ { n with last := add64 m size } :: post ∧ m = round n.last ∧
      sub64 n.endPtr m ≥ size ∧
      nodes.find? (fun p => sub64 p.endPtr (round p.last) ≥ size) = some n := by
  induction nodes generalizing nodes' with
  | nil => cases h
  | cons p rest ih =>
    rw [takeFrom] at h
    split at h
    · rename_i htest
      cases h
      exact ⟨[], p, rest, rfl, rfl, rfl, htest, List.find?_cons_of_pos (by simpa using htest)⟩
    · rename_i htest
      obtain ⟨⟨m', rest'⟩, hrest, heq⟩ := Option.map_eq_some_iff.mp h
      cases heq
      obtain ⟨pre, n, post, rfl, rfl, hm, hsize, hfind⟩ := ih hrest
      refine ⟨p :: pre, n, post, rfl, rfl, hm, hsize, ?_⟩
      rw [List.find?_cons_of_neg (by simpa using htest), hfind]

theorem mpAlignPtr_of_dvd (hdvd : MP_ALIGNMENT ∣ p) (hlt : p < 2 ^ 64) : mpAlignPtr p = p := by
  obtain ⟨c, rfl⟩ := hdvd
  simp only [mpAlignPtr, add64, MP_ALIGNMENT] at *
  omega

/-- Without an overflow, the test of the loop compares with the rest of the node. -/
theorem add_le_of_sub64 {m endPtr : ℕ} (hm : m ≤ endPtr) (hlt : endPtr < 2 ^ 64)
    (htest : sub64 endPtr m ≥ size) : m + size ≤ endPtr := by
  simp only [sub64] at htest
  omega

theorem replace_extents {pool : Pool} {nodes : List Node} {current : ℕ} {new : List Extent}
    (hne : nodes ≠ [])
    (h : nodes.map Node.extent = (pool.chain.drop pool.current).map Node.extent ++ new) :
    (pool.replace nodes current).extents = pool.extents ++ new := by
  rw [Pool.extents, replace_chain hne, List.map_append, h, ← List.append_assoc, ← List.map_append,
    List.take_append_drop, Pool.extents]

/-- The layout that a call for `size` bytes leaves. -/
def Result.Placed (r : Result) (pending blocks : List Region) (size : ℕ) : Prop :=
  r.state.Layout pending (returned r.ret size ++ blocks)

/-- The outcome of a call that serves `size` bytes from the nodes. -/
def Result.Small (r : Result) (pending blocks : List Region) (size : ℕ) : Prop :=
  r.Placed pending blocks size ∧ (r.ret ≠ 0 → r.state.InChain ⟨r.ret, size⟩)

theorem Result.Small.null (h : s.Layout pending blocks) :
    Result.Small ⟨s, 0, answers⟩ pending blocks size :=
  ⟨h, fun hne => absurd rfl hne⟩

/-- The node that `mp_alloc_block` adds when the system gives it a fresh region. -/
theorem mpAllocBlock_eq (h : s.Layout pending blocks) (hsize : size ≤ s.pool.max) {newNode : ℕ}
    (hlawful : Lawful (mpAllocBlock (some newNode :: answers) s size).state.trace) :
    ∃ cap pool', mpAllocBlock (some newNode :: answers) s size =
        ⟨{ s.log (.obtain MP_ALIGNMENT ⟨newNode, sizeofNode + cap⟩) with pool := pool' },
          newNode + sizeofNode, answers⟩ ∧
      Fresh MP_ALIGNMENT ⟨newNode, sizeofNode + cap⟩ (live s.trace) ∧ size ≤ cap ∧
      (∀ e ∈ s.pool.extents, e.endPtr = e.addr + (sizeofNode + cap)) ∧
      (pool'.addr = s.pool.addr ∧ pool'.max = s.pool.max ∧ pool'.large = s.pool.large) ∧
      pool'.extents = s.pool.extents ++ [⟨newNode, newNode + sizeofNode + size,
        newNode + (sizeofNode + cap)⟩] := by
  obtain ⟨cap, hle, hlt, hholds⟩ := h.nodes
  have hhead : s.pool.head.extent ∈ s.pool.extents := List.mem_cons_self
  have hpsize : sub64 s.pool.head.endPtr s.pool.head.addr = sizeofNode + cap := by
    have hend := h.end_lt hhead
    have hlen := (hholds _ hhead).size
    simp only [Node.extent] at hend hlen
    simp only [sub64, hlen, sizeofNode] at hend hlt ⊢
    omega
  have hfresh : Fresh MP_ALIGNMENT ⟨newNode, sizeofNode + cap⟩ (live s.trace) :=
    hpsize ▸ hlawful.1
  have hbounded : newNode + (sizeofNode + cap) < 2 ^ 64 := hfresh.bounded
  -- no sum of the function overflows
  have hadd : add64 newNode sizeofNode = newNode + sizeofNode := Nat.mod_eq_of_lt (by omega)
  have hlast : add64 (newNode + sizeofNode) size = newNode + sizeofNode + size :=
    Nat.mod_eq_of_lt (by omega)
  have hend : add64 newNode (sizeofNode + cap) = newNode + (sizeofNode + cap) :=
    Nat.mod_eq_of_lt hbounded
  have hm : mpAlignPtr (newNode + sizeofNode) = newNode + sizeofNode :=
    mpAlignPtr_of_dvd (Nat.dvd_add hfresh.aligned (by decide)) (by omega)
  let counted := countFailures s.pool.current s.pool.current (s.pool.chain.drop s.pool.current)
  let node : Node := ⟨newNode, newNode + sizeofNode + size, newNode + (sizeofNode + cap), 0⟩
  refine ⟨cap, s.pool.replace (counted.1 ++ [node]) counted.2, ?_, hfresh,
    Nat.le_trans hsize hle, fun e he => by rw [(hholds e he).size, Nat.add_assoc],
    replace_same s.pool _ _, replace_extents ?_ ?_⟩
  · simp only [mpAllocBlock, hpsize, hadd, hm, hlast, hend]
    rfl
  · simp
  · rw [List.map_append, countFailures_map fun _ _ => rfl]
    rfl

theorem mpAllocBlock_small (h : s.Layout pending blocks) (hsize : size ≤ s.pool.max)
    (hlawful : Lawful (mpAllocBlock answers s size).state.trace) :
    (mpAllocBlock answers s size).Small pending blocks size := by
  match answers with
  | [] => exact .null h
  | none :: answers => exact .null h
  | some newNode :: answers =>
    have howns : (mpAllocBlock (some newNode :: answers) s size).state.Owns _ :=
      mpAllocBlock_owns h.owns
    obtain ⟨cap, pool', heq, hfresh, hle, hlen, hsame, hextents⟩ := mpAllocBlock_eq h hsize hlawful
    rw [heq] at howns ⊢
    have hne : newNode + sizeofNode ≠ 0 := by simp [sizeofNode]
    have hnode := (h.obtained hfresh).addNode hsame howns hlen
      (Nat.add_le_add_left hle _) hextents
    rw [Result.Small, Result.Placed, returned_of_ne hne]
    exact ⟨hnode.1, fun _ => hnode.2⟩

/-- Serving a small block. -/
theorem allocSmall_small (h : s.Layout pending blocks) (hsize : size ≤ s.pool.max)
    {round : ℕ → ℕ} (hfits : s.pool.Fits round size)
    (hlawful : Lawful (allocSmall round answers s size).state.trace) :
    (allocSmall round answers s size).Small pending blocks size := by
  have howns : (allocSmall round answers s size).state.Owns _ := allocSmall_owns h.owns round
  rw [allocSmall] at hlawful howns ⊢
  rcases htake : takeFrom round size (s.pool.chain.drop s.pool.current) with _ | ⟨m, nodes⟩
  · rw [htake] at hlawful
    exact mpAllocBlock_small h hsize hlawful
  · rw [htake] at howns
    obtain ⟨pre, n, post, hdrop, hnodes, hm, htest, hfind⟩ := takeFrom_eq_some htake
    obtain ⟨hlast, hle⟩ := hfits n hfind
    have hextents : s.pool.extents = (s.pool.chain.take s.pool.current ++ pre).map Node.extent ++
        n.extent :: post.map Node.extent := by
      rw [← List.map_cons, ← List.map_append, List.append_assoc, ← hdrop, List.take_append_drop,
        Pool.extents]
    have hn : n.extent ∈ s.pool.extents :=
      hextents ▸ List.mem_append_right _ List.mem_cons_self
    have hlt : n.endPtr < 2 ^ 64 := h.end_lt hn
    have hpos : 0 < n.last := h.last_pos hn
    rw [← hm] at hlast hle
    have hend := add_le_of_sub64 hle hlt htest
    have hadd : add64 m size = m + size := Nat.mod_eq_of_lt (by omega)
    have hafter : (s.pool.replace nodes s.pool.current).extents =
        (s.pool.chain.take s.pool.current ++ pre).map Node.extent ++
          { n.extent with last := m + size } :: post.map Node.extent := by
      rw [Pool.extents, replace_chain (takeFrom_ne_nil htake), hnodes, hadd]
      simp [Node.extent]
    have hcarve := h.carve (replace_same s.pool nodes s.pool.current) howns hextents hafter
      hlast hend
    have hne : m ≠ 0 := by omega
    rw [Result.Small, Result.Placed, returned_of_ne hne]
    exact ⟨hcarve.1, fun _ => hcarve.2⟩

theorem allocSmall_max (round : ℕ → ℕ) :
    (allocSmall round answers s size).state.pool.max = s.pool.max := by
  rw [allocSmall]
  split
  · exact (replace_same _ _ _).2.1
  · rcases answers with _ | ⟨_ | newNode, answers⟩
    · rfl
    · rfl
    · exact (replace_same _ _ _).2.1

theorem addRecord_max (r : Result) : (addRecord p r).state.pool.max = r.state.pool.max := by
  rw [addRecord]
  split <;> rfl

theorem mpAllocLarge_max : (mpAllocLarge answers s size).state.pool.max = s.pool.max := by
  induction answers generalizing s size with
  | nil => rfl
  | cons answer answers ih =>
      cases answer with
      | none => rfl
      | some p =>
          rw [mpAllocLarge]
          split
          · rfl
          · rw [addRecord_max]
            split
            · exact allocSmall_max _
            · exact ih

theorem serve_max {round : ℕ → ℕ} : (if size ≤ s.pool.max then allocSmall round answers s size
    else mpAllocLarge answers s size).state.pool.max = s.pool.max := by
  split
  · exact allocSmall_max round
  · exact mpAllocLarge_max

/-- No call changes `max`. -/
theorem step_max (s : State) (op : Op) : (step s op).1.pool.max = s.pool.max := by
  cases op with
  | mpAlloc size answers => exact serve_max
  | mpNalloc size answers => exact serve_max
  | mpCalloc size answers => exact serve_max
  | mpMemalign size alignment answers =>
      rcases answers with - | ⟨- | p, answers⟩
      · rfl
      · rfl
      · exact (addRecord_max _).trans serve_max
  | mpFree p =>
      simp only [step, mpFree]
      split <;> rfl
  | mpResetPool =>
      show (freeLarge s s.pool.large).pool.max = s.pool.max
      rw [freeLarge_pool]

/-! ## Large blocks -/

theorem reuseRecord_region {n : ℕ} {large large' : List Large}
    (h : reuseRecord p n large = some large') :
    large'.map Large.region = large.map Large.region := by
  induction large generalizing n large' with
  | nil => cases h
  | cons l ls ih =>
    rw [reuseRecord] at h
    split at h
    · cases h
      rfl
    · split at h
      · cases h
      · obtain ⟨ls', hls, rfl⟩ := Option.map_eq_some_iff.mp h
        rw [List.map_cons, ih hls, List.map_cons]

theorem dropBlock_region {large large' : List Large} (h : dropBlock p large = some large') :
    large'.map Large.region = large.map Large.region := by
  induction large generalizing large' with
  | nil => cases h
  | cons l ls ih =>
    rw [dropBlock] at h
    split at h
    · cases h
      rfl
    · obtain ⟨ls', hls, rfl⟩ := Option.map_eq_some_iff.mp h
      rw [List.map_cons, ih hls, List.map_cons]

/-- The records lie where they lay. -/
theorem State.Layout.records_of_region (h : s.Layout pending blocks) {large : List Large}
    (hregion : large.map Large.region = s.pool.large.map Large.region) :
    ∀ l ∈ large, s.InChain l.region := by
  intro l hl
  obtain ⟨l', hl', heq⟩ := List.mem_map.mp (hregion ▸ List.mem_map_of_mem hl)
  exact heq ▸ h.records l' hl'

theorem State.Layout.small_of_region (h : s.Layout pending blocks) {large : List Large}
    (hregion : large.map Large.region = s.pool.large.map Large.region) :
    s.pool.max < sizeofLarge → large = [] := by
  intro hsize
  rw [h.small hsize] at hregion
  exact List.map_eq_nil_iff.mp hregion

/-- A record without a block takes the pending one, which becomes the caller's. -/
theorem reuseRecord_layout {q : Region} {n : ℕ} {large : List Large}
    (h : s.Layout (q :: pending) blocks)
    (hreuse : reuseRecord q.base n s.pool.large = some large) :
    State.Layout { s with pool := { s.pool with large := large } } pending (q :: blocks) := by
  have hq := h.pending q List.mem_cons_self
  have hne := h.lawful.nonnull hq
  have hblocks := reuseRecord_blocksOf hne hreuse
  have hregion := reuseRecord_region hreuse
  refine h.forget (reuseRecord_owns h.owns hne hreuse) h.lawful (fun _ hr => hr)
    (h.small_of_region hregion) ?_ (h.records_of_region hregion)
    (fun r hr => h.pending r (List.mem_cons_of_mem _ hr)) (fun b hb => ?_)
  · rw [hregion]
    exact ((List.Perm.append_left _ List.perm_middle)).subperm
  · rcases List.mem_cons.mp hb with rfl | hb
    · exact .inr ⟨hq, hblocks.symm.subset List.mem_cons_self⟩
    · exact (h.blocks b hb).imp_right (And.imp_right fun hbase =>
        hblocks.symm.subset (List.mem_cons_of_mem _ hbase))

/-- The pending block gets a record of its own, or is freed. -/
theorem addRecord_layout {r : Result} {q : Region} (h : r.Small (q :: pending) blocks sizeofLarge)
    (hmax : r.ret ≠ 0 → sizeofLarge ≤ r.state.pool.max) :
    (addRecord q.base r).Placed pending blocks q.len := by
  obtain ⟨hlayout, hchain⟩ := h
  have hq := hlayout.pending q List.mem_cons_self
  have hne := hlayout.lawful.nonnull hq
  have howns := addRecord_owns hlayout.owns hne
  rw [Result.Placed] at hlayout ⊢
  rw [addRecord] at howns ⊢
  by_cases hret : r.ret = 0
  · rw [if_pos hret] at howns ⊢
    rw [hret, returned_null, List.nil_append] at hlayout
    refine hlayout.forget howns hlayout.lawful (fun _ => mem_of_mem_live_free) hlayout.small ?_
      hlayout.records (fun r hr => hlayout.pending r (List.mem_cons_of_mem _ hr)) hlayout.blocks
    exact (List.subperm_append_left _).mpr (List.sublist_cons_self _ _).subperm
  · rw [if_neg hret] at howns ⊢
    rw [returned_of_ne hret] at hlayout
    rw [returned_of_ne hne]
    show State.Layout _ pending (q :: blocks)
    have hblocksOf : blocksOf (⟨r.ret, q.base⟩ :: r.state.pool.large) =
        q.base :: blocksOf r.state.pool.large := blocksOf_cons hne
    refine hlayout.forget howns hlayout.lawful (fun _ hr => hr)
      (fun hsize => absurd (hmax hret) (Nat.not_le.mpr hsize)) ?_ (fun l hl => ?_)
      (fun r hr => hlayout.pending r (List.mem_cons_of_mem _ hr)) (fun b hb => ?_)
    · refine (List.perm_iff_count.mpr fun o => ?_).subperm
      simp only [Large.region, List.map_cons, List.cons_append, List.nil_append,
        List.count_append, List.count_cons]
      omega
    · rcases List.mem_cons.mp hl with rfl | hl
      · exact hchain hret
      · exact hlayout.records l hl
    · rcases List.mem_cons.mp hb with rfl | hb
      · exact .inr ⟨hq, hblocksOf ▸ List.mem_cons_self⟩
      · exact (hlayout.blocks b (List.mem_cons_of_mem _ hb)).imp_right (And.imp_right fun hbase =>
          hblocksOf ▸ List.mem_cons_of_mem _ hbase)

/-- The two ways to a record, with what `mp_alloc_large` leaves when it is not small. -/
theorem mpAlloc_record (h : s.Layout pending blocks) (hfits : s.pool.RecordFits)
    (hlawful : Lawful (mpAlloc answers s sizeofLarge).state.trace)
    (hnested : s.pool.max < sizeofLarge →
      (mpAllocLarge answers s sizeofLarge).Placed pending blocks sizeofLarge ∧
        (mpAllocLarge answers s sizeofLarge).ret = 0) :
    (mpAlloc answers s sizeofLarge).Small pending blocks sizeofLarge ∧
      ((mpAlloc answers s sizeofLarge).ret ≠ 0 →
        sizeofLarge ≤ (mpAlloc answers s sizeofLarge).state.pool.max) := by
  rw [mpAlloc] at hlawful ⊢
  by_cases hmax : sizeofLarge ≤ s.pool.max
  · rw [if_pos hmax] at hlawful ⊢
    exact ⟨allocSmall_small h hmax (hfits hmax) hlawful, fun _ => by rwa [allocSmall_max]⟩
  · rw [if_neg hmax]
    obtain ⟨hplaced, hnull⟩ := hnested (Nat.not_le.mp hmax)
    exact ⟨⟨hplaced, fun hret => absurd hnull hret⟩, fun hret => absurd hnull hret⟩

theorem Pool.largeFits_of_lt {pool : Pool} (hmax : pool.max < sizeofLarge) :
    pool.LargeFits answers := by
  match answers with
  | [] => trivial
  | none :: answers => trivial
  | some p :: answers => exact fun _ hle => absurd hle (Nat.not_le.mpr hmax)

/-- Without room for a record there are no large blocks. -/
theorem mpAllocLarge_null (hmax : s.pool.max < sizeofLarge) (hlarge : s.pool.large = []) :
    (mpAllocLarge answers s size).ret = 0 := by
  induction answers generalizing s size with
  | nil => rfl
  | cons answer answers ih =>
    cases answer with
    | none => rfl
    | some p =>
      have hnot : ¬ sizeofLarge ≤ (s.log (.obtain 16 ⟨p, size⟩)).pool.max := Nat.not_le.mpr hmax
      rw [mpAllocLarge]
      split
      · rename_i hreuse
        rw [show (s.log (.obtain 16 ⟨p, size⟩)).pool.large = [] from hlarge] at hreuse
        cases hreuse
      · have hnested : (mpAllocLarge answers (s.log (.obtain 16 ⟨p, size⟩)) sizeofLarge).ret = 0 :=
          ih hmax hlarge
        rw [if_neg hnot, addRecord, if_pos hnested]

theorem mpAllocLarge_placed (h : s.Layout pending blocks) (hfits : s.pool.LargeFits answers)
    (hlawful : Lawful (mpAllocLarge answers s size).state.trace) :
    (mpAllocLarge answers s size).Placed pending blocks size := by
  induction answers generalizing s size pending with
  | nil => exact h
  | cons answer answers ih =>
    cases answer with
    | none => exact h
    | some p =>
      have hfresh := (hlawful.of_suffix mpAllocLarge_suffix_obtain).1
      have hobtained := h.obtained hfresh
      rw [mpAllocLarge] at hlawful ⊢
      split at hlawful
      · rename_i large hreuse
        rw [Result.Placed, returned_of_ne hfresh.nonnull]
        exact reuseRecord_layout hobtained hreuse
      · rename_i hreuse
        have hrecord := hlawful.of_suffix (addRecord_suffix (mpAlloc answers _ sizeofLarge))
        have hsmall := mpAlloc_record hobtained (hfits hreuse) hrecord fun hmax => by
          rw [mpAlloc, if_neg (Nat.not_le.mpr hmax)] at hrecord
          exact ⟨ih hobtained (Pool.largeFits_of_lt hmax) hrecord,
            mpAllocLarge_null hmax (h.small hmax)⟩
        exact addRecord_layout hsmall.1 hsmall.2

/-! ## Every call -/

theorem serve_placed (h : s.Layout pending blocks) {round : ℕ → ℕ}
    (hsmall : size ≤ s.pool.max → s.pool.Fits round size)
    (hlarge : s.pool.max < size → s.pool.LargeFits answers)
    (hlawful : Lawful (if size ≤ s.pool.max then
      allocSmall round answers s size else mpAllocLarge answers s size).state.trace) :
    (if size ≤ s.pool.max then
      allocSmall round answers s size else mpAllocLarge answers s size).Placed
        pending blocks size := by
  by_cases hsize : size ≤ s.pool.max
  · rw [if_pos hsize] at hlawful ⊢
    exact (allocSmall_small h hsize (hsmall hsize) hlawful).1
  · rw [if_neg hsize] at hlawful ⊢
    exact mpAllocLarge_placed h (hlarge (Nat.not_le.mp hsize)) hlawful

/-- Without rounding the blocks of the nodes always fit. -/
theorem fits_id (h : s.Layout pending blocks) : s.pool.Fits id size := by
  refine fun p hp => ⟨Nat.le_refl _, ?_⟩
  have hmem : p ∈ s.pool.chain := List.mem_of_mem_drop (List.mem_of_find?_eq_some hp)
  obtain ⟨cap, -, -, hholds⟩ := h.nodes
  exact (hholds _ (List.mem_map_of_mem hmem)).last_le

theorem mpMemalign_placed {alignment : ℕ} (h : s.Layout pending blocks)
    (hfits : answers.head?.join.isSome → s.pool.RecordFits)
    (hlawful : Lawful (mpMemalign answers s size alignment).state.trace) :
    (mpMemalign answers s size alignment).Placed pending blocks size := by
  match answers with
  | [] => exact h
  | none :: answers => exact h
  | some p :: answers =>
    have hrecord := hlawful.of_suffix (addRecord_suffix _)
    have hobtained := h.obtained (hrecord.of_suffix mpAlloc_suffix).1
    have hsmall := mpAlloc_record hobtained (hfits rfl) hrecord fun hmax => by
      rw [mpAlloc, if_neg (Nat.not_le.mpr hmax)] at hrecord
      exact ⟨mpAllocLarge_placed hobtained (Pool.largeFits_of_lt hmax) hrecord,
        mpAllocLarge_null hmax (h.small hmax)⟩
    exact addRecord_layout hsmall.1 hsmall.2

/-- `mp_free` takes the block `p` from the records, and no other. -/
theorem dropBlock_keeps {a : ℕ} {large large' : List Large}
    (h : dropBlock p large = some large') (ha : a ∈ blocksOf large) (hne : a ≠ p) :
    a ∈ blocksOf large' := by
  rcases eq_or_ne p 0 with rfl | hp
  · rwa [dropBlock_null h]
  · exact List.mem_of_ne_of_mem hne ((dropBlock_blocksOf hp h).subset ha)

theorem mpFree_layout (h : s.Layout [] blocks) (hlawful : Lawful (mpFree s p).trace) :
    (mpFree s p).Layout [] (blocks.filter (·.base ≠ p)) := by
  have howns : (mpFree s p).Owns _ := mpFree_owns h.owns hlawful
  rw [mpFree] at howns ⊢
  have hkept : ∀ b ∈ blocks.filter (·.base ≠ p), b ∈ blocks ∧ b.base ≠ p := fun b hb => by
    simpa using List.mem_filter.mp hb
  have hpieces : ∀ records : List Region, (records ++ blocks.filter (·.base ≠ p)).Subperm
      (records ++ blocks) := fun records =>
    (List.subperm_append_left records).mpr List.filter_sublist.subperm
  rcases hdrop : dropBlock p s.pool.large with _ | large
  · exact h.forget h.owns h.lawful (fun _ hr => hr) h.small (hpieces _) h.records h.pending
      fun b hb => h.blocks b (hkept b hb).1
  · rw [hdrop] at howns
    have hregion := dropBlock_region hdrop
    refine h.forget howns h.lawful (fun _ => mem_of_mem_live_free) (h.small_of_region hregion)
      (hregion ▸ hpieces _) (h.records_of_region hregion) h.pending fun b hb => ?_
    obtain ⟨hb, hne⟩ := hkept b hb
    exact (h.blocks b hb).imp_right (And.imp_right fun hbase => dropBlock_keeps hdrop hbase hne)

theorem State.Layout.reset_extent (h : s.Layout pending blocks) {n : Node}
    (hn : n ∈ s.pool.chain) : n.reset.extent = n.extent.reset := by
  have he : n.extent ∈ s.pool.extents := List.mem_map_of_mem hn
  obtain ⟨cap, -, -, hholds⟩ := h.nodes
  have hheader : n.addr + sizeofNode ≤ n.last := (hholds _ he).header_le
  have hlast : n.last ≤ n.endPtr := (hholds _ he).last_le
  have hlt : n.endPtr < 2 ^ 64 := h.end_lt he
  have hadd : add64 n.addr sizeofNode = n.addr + sizeofNode := Nat.mod_eq_of_lt (by omega)
  simp only [Node.reset, Node.extent, Extent.reset, hadd]

theorem mpResetPool_layout (h : s.Layout [] blocks) (hlawful : Lawful (mpResetPool s).trace) :
    (mpResetPool s).Layout [] [] := by
  refine h.reset hlawful (fun _ => freeLarge_live) (mpResetPool_owns h.owns) ?_ ?_
  · simp only [mpResetPool, freeLarge_pool]
    trivial
  · have hchain : (mpResetPool s).pool.chain = s.pool.chain.map Node.reset := by
      simp only [mpResetPool, freeLarge_pool, Pool.chain, List.map_cons]
    rw [Pool.extents, hchain, Pool.extents, List.map_map, List.map_map]
    exact List.map_congr_left fun n hn => h.reset_extent hn

theorem mpCreatePool_layout (hlt : size + sizeofPool + sizeofNode < 2 ^ 64)
    (hlawful : Lawful (mpCreatePool p size).trace) : (mpCreatePool p size).Layout [] [] := by
  have hlen : add64 size (sizeofPool + sizeofNode) = size + (sizeofPool + sizeofNode) :=
    Nat.mod_eq_of_lt (by omega)
  have hbounded : p + add64 size (sizeofPool + sizeofNode) < 2 ^ 64 := hlawful.1.bounded
  rw [hlen] at hbounded
  have haddr : add64 p sizeofPool = p + sizeofPool := Nat.mod_eq_of_lt (by omega)
  have hlast : add64 p (sizeofPool + sizeofNode) = p + (sizeofPool + sizeofNode) :=
    Nat.mod_eq_of_lt (by omega)
  have hend : add64 (p + (sizeofPool + sizeofNode)) size = p + (sizeofPool + sizeofNode) + size :=
    Nat.mod_eq_of_lt (by omega)
  have hextents : (mpCreatePool p size).pool.extents = [⟨p + sizeofPool,
      p + (sizeofPool + sizeofNode), p + (sizeofPool + sizeofNode) + size⟩] := by
    simp only [mpCreatePool, haddr, hlast, hend]
    rfl
  have hlive : live (mpCreatePool p size).trace = [⟨p, size + (sizeofPool + sizeofNode)⟩] := by
    simp only [mpCreatePool, hlen]
    rfl
  have hmax : (mpCreatePool p size).pool.max ≤ size := by
    simp only [mpCreatePool]
    split <;> omega
  have hbodies : (mpCreatePool p size).pool.bodies =
      [⟨p, sizeofPool⟩, ⟨p + sizeofPool, sizeofNode + size⟩] := by
    rw [Pool.bodies, hextents, List.map_singleton, Extent.body]
    congr 3
    simp only
    omega
  have hfixed : (mpCreatePool p size).pool.fixed =
      [⟨p, sizeofPool⟩, ⟨p + sizeofPool, sizeofNode⟩] := by
    rw [Pool.fixed, hextents]
    rfl
  refine {
    lawful := hlawful
    owns := mpCreatePool_owns p size
    nodes := ⟨size, hmax, by omega, fun e he => ?_⟩
    bodies := ?_
    chain := fun o ho => ?_
    small := fun _ => rfl
    pieces := ?_
    records := fun l hl => absurd hl List.not_mem_nil
    pending := fun r hr => absurd hr List.not_mem_nil
    blocks := fun b hb => absurd hb List.not_mem_nil }
  · rw [hextents, List.mem_singleton] at he
    rw [he]
    exact ⟨by simp only; omega, by simp only; omega, by simp only; omega⟩
  · rw [hbodies]
    exact packed_pair.mpr (.inl (Nat.le_refl _))
  · refine ⟨⟨p, size + (sizeofPool + sizeofNode)⟩, hlive ▸ List.mem_cons_self,
      List.mem_cons_self, ?_⟩
    rw [hbodies] at ho
    rw [Region.Within]
    rcases List.mem_pair.mp ho with rfl | rfl
    · exact ⟨Nat.le_refl _, by simp only; omega⟩
    · exact ⟨Nat.le_add_right _ _, by simp only; omega⟩
  · rw [Pool.pieces, hfixed, hextents]
    simp [Packed, Region.Disjoint, Extent.span]
    omega

end Calls

/-! ## Runs -/

/-- A pool and the blocks that have been returned since the last reset and not freed. -/
structure Config where
  state : State
  blocks : List Region
  deriving DecidableEq

/-- The blocks after a call that returns `ret`. -/
def Op.blocks (ret : ℕ) (blocks : List Region) : Op → List Region
  | .mpAlloc size _ | .mpNalloc size _ | .mpCalloc size _ | .mpMemalign size _ _ =>
    returned ret size ++ blocks
  | .mpFree p => blocks.filter (·.base ≠ p)
  | .mpResetPool => []

/-- A call to which the system gives answers that keep its contract. -/
def Config.next (c : Config) (op : Op) : Option Config :=
  let after := step c.state op
  if Lawful after.1.trace then some ⟨after.1, op.blocks after.2 c.blocks⟩ else none

/-- A new pool of one of some sizes. -/
def Created (sizes : ℕ → Prop) (c : Config) : Prop :=
  ∃ p size, sizes size ∧ Lawful (mpCreatePool p size).trace ∧ c = ⟨mpCreatePool p size, []⟩

/-- The size of the pool's region does not overflow. -/
def SizeFits (size : ℕ) : Prop := size + sizeofPool + sizeofNode < 2 ^ 64

instance (size : ℕ) : Decidable (SizeFits size) := inferInstanceAs (Decidable (_ < _))

/-- Where `mp_alloc` serves a block or a record from a node, rounding fits. -/
def Config.Fits (c : Config) : Op → Prop
  | .mpAlloc size answers | .mpCalloc size answers =>
    (size ≤ c.state.pool.max → c.state.pool.Fits mpAlignPtr size) ∧
      (c.state.pool.max < size → c.state.pool.LargeFits answers)
  | .mpNalloc size answers => c.state.pool.max < size → c.state.pool.LargeFits answers
  | .mpMemalign _ _ answers => answers.head?.join.isSome → c.state.pool.RecordFits
  | .mpFree _ | .mpResetPool => True

instance (c : Config) : (op : Op) → Decidable (c.Fits op)
  | .mpAlloc _ _ | .mpCalloc _ _ => inferInstanceAs (Decidable ((_ → _) ∧ (_ → _)))
  | .mpNalloc _ _ => inferInstanceAs (Decidable (_ → _))
  | .mpMemalign _ _ _ => inferInstanceAs (Decidable (_ → _))
  | .mpFree _ | .mpResetPool => .isTrue trivial

/-- Every block lies in a live region, apart from the pool's own data and the others. -/
structure Config.Safe (c : Config) : Prop where
  within : ∀ b ∈ c.blocks, ∃ r ∈ live c.state.trace, b.Within r
  header : ∀ b ∈ c.blocks, b.Disjoint c.state.pool.header
  nodes : ∀ b ∈ c.blocks, ∀ n ∈ c.state.pool.chain, b.Disjoint n.extent.header
  records : ∀ b ∈ c.blocks, ∀ l ∈ c.state.pool.large, b.Disjoint l.region
  blocks : c.blocks.Pairwise Region.Disjoint

section Runs

variable {c c' : Config} {op : Op}

theorem State.Layout.safe (h : c.state.Layout [] c.blocks) : c.Safe := by
  have hpieces := (List.pairwise_append.mp h.pieces).1
  obtain ⟨-, hblocks, hdisjoint⟩ := List.pairwise_append.mp hpieces
  have hfixed : ∀ o ∈ c.state.pool.fixed, ∀ b ∈ c.blocks, b.Disjoint o :=
    fun o ho b hb => (hdisjoint o ho b hb).symm
  refine {
    within := fun b hb => h.exists_live (List.mem_append_left _ (List.mem_append_right _ hb))
    header := fun b hb => hfixed _ List.mem_cons_self b hb
    nodes := fun b hb n hn => hfixed _ ?_ b hb
    records := fun b hb l hl =>
      hfixed _ (List.mem_append_right _ (List.mem_map_of_mem hl)) b hb
    blocks := hblocks }
  exact List.mem_append_left _
    (List.mem_cons_of_mem _ (List.mem_map_of_mem (List.mem_map_of_mem hn)))

/-- A call that fits keeps the layout. -/
theorem Config.next_layout (h : c.state.Layout [] c.blocks) (hfits : c.Fits op)
    (hnext : c.next op = some c') : c'.state.Layout [] c'.blocks := by
  rw [Config.next] at hnext
  split at hnext
  · rename_i hlawful
    cases hnext
    cases op with
    | mpAlloc size answers => exact serve_placed h hfits.1 hfits.2 hlawful
    | mpNalloc size answers => exact serve_placed h (fun _ => fits_id h) hfits hlawful
    | mpCalloc size answers => exact serve_placed h hfits.1 hfits.2 hlawful
    | mpMemalign size alignment answers => exact mpMemalign_placed h hfits hlawful
    | mpFree p => exact mpFree_layout h hlawful
    | mpResetPool => exact mpResetPool_layout h hlawful
  · cases hnext

/-- **Spatial safety.** As long as rounding fits, the blocks lie in the regions that the
system has given, apart from each other and from the pool's own data. -/
theorem blocks_safe (h : Reachable Config.next (Created SizeFits) Config.Fits c) : c.Safe := by
  have hlayout : c.state.Layout [] c.blocks := by
    refine h.invariant (P := fun c => c.state.Layout [] c.blocks) ?_
      fun c c' op h hfits hnext => Config.next_layout h hfits hnext
    rintro _ ⟨p, size, hlt, hlawful, rfl⟩
    exact mpCreatePool_layout hlt hlawful
  exact hlayout.safe

/-- Both kinds of small blocks, a record that is used again, and two more nodes. -/
def mixedBlocks : List Op :=
  [.mpNalloc 10 [], .mpAlloc 20 [], .mpAlloc 40 [some 8192], .mpAlloc 200 [some 16384],
    .mpMemalign 64 64 [some 32768], .mpFree 16384, .mpCalloc 300 [some 65536],
    .mpAlloc 30 [some 131072]]

theorem blocks_safe_mixedBlocks :
    ∃ c, exec Config.next ⟨mpCreatePool 4096 104, []⟩ mixedBlocks = some c ∧
      c.blocks.length = 6 ∧ c.Safe := by
  obtain ⟨c, hexec, hlength⟩ : ∃ c,
      exec Config.next ⟨mpCreatePool 4096 104, []⟩ mixedBlocks = some c ∧
        c.blocks.length = 6 := ⟨_, rfl, rfl⟩
  exact ⟨c, hexec, hlength, blocks_safe
    (reachable_of_exec ⟨4096, 104, by decide, by decide, rfl⟩ (by decide) hexec)⟩

/-- Two small blocks from a pool of 4096 bytes: the first leaves 8 bytes of the node, and the
second is placed behind its end. -/
theorem mpAlloc_overruns :
    ∃ c, Reachable Config.next (Created fun _ => True) anyStep c ∧ ⟨12352, 512⟩ ∈ c.blocks ∧
      live c.state.trace = [⟨8192, 4152⟩] ∧ ¬ c.Safe := by
  have hrun : ∃ c, exec Config.next ⟨mpCreatePool 8192 4096, []⟩
      [.mpAlloc 4080 [], .mpAlloc 512 []] = some c ∧ ⟨12352, 512⟩ ∈ c.blocks ∧
        live c.state.trace = [⟨8192, 4152⟩] := ⟨_, rfl, by decide, by decide⟩
  obtain ⟨c, hexec, hblock, hlive⟩ := hrun
  refine ⟨c, reachable_of_exec ⟨8192, 4096, trivial, by decide, rfl⟩ (admits_anyStep _ _) hexec,
    hblock, hlive, fun hsafe => ?_⟩
  obtain ⟨r, hr, hwithin⟩ := hsafe.within _ hblock
  rw [hlive, List.mem_singleton] at hr
  rw [hr] at hwithin
  revert hwithin
  decide

end Runs

end ServerKit.Mempool
