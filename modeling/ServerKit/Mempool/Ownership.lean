import ServerKit.Mempool.Model

/-! # What the pool has to free -/

namespace ServerKit.Mempool

open ServerKit.SystemHeap

/-- The blocks in the records. -/
def blocksOf (large : List Large) : List ℕ := (large.map (·.alloc)).filter (· ≠ 0)

/-- The addresses that the pool has to free. -/
def Pool.owned (pool : Pool) : List ℕ :=
  pool.addr :: pool.nodes.map (·.addr) ++ blocksOf pool.large

/-- The live regions are those of the pool and the pending ones, which a call has obtained
and not yet recorded. -/
structure State.Owns (s : State) (pending : List ℕ) : Prop where
  bases : ((live s.trace).map (·.base)).Perm (pending ++ s.pool.owned)
  frees : FreesLive s.trace

/-! ## Records -/

theorem blocksOf_cons {l : Large} {ls : List Large} (hl : l.alloc ≠ 0) :
    blocksOf (l :: ls) = l.alloc :: blocksOf ls := by
  rw [blocksOf, List.map_cons, List.filter_cons_of_pos (by simpa using hl), blocksOf]

theorem blocksOf_cons_null {l : Large} {ls : List Large} (hl : l.alloc = 0) :
    blocksOf (l :: ls) = blocksOf ls := by
  rw [blocksOf, List.map_cons, List.filter_cons_of_neg (by simpa using hl), blocksOf]

theorem reuseRecord_blocksOf {p n : ℕ} {large large' : List Large} (hp : p ≠ 0)
    (h : reuseRecord p n large = some large') : (blocksOf large').Perm (p :: blocksOf large) := by
  induction large generalizing n large' with
  | nil => cases h
  | cons l ls ih =>
    rw [reuseRecord] at h
    split at h
    · rename_i hl
      cases h
      rw [blocksOf_cons hp, blocksOf_cons_null hl]
    · rename_i hl
      split at h
      · cases h
      · obtain ⟨ls', hls, rfl⟩ := Option.map_eq_some_iff.mp h
        rw [blocksOf_cons hl, blocksOf_cons hl]
        exact ((ih hls).cons _).trans (.swap _ _ _)

theorem dropBlock_blocksOf {p : ℕ} {large large' : List Large} (hp : p ≠ 0)
    (h : dropBlock p large = some large') : (blocksOf large).Perm (p :: blocksOf large') := by
  induction large generalizing large' with
  | nil => cases h
  | cons l ls ih =>
    rw [dropBlock] at h
    split at h
    · rename_i hl
      cases h
      rw [blocksOf_cons (hl ▸ hp), blocksOf_cons_null rfl, hl]
    · obtain ⟨ls', hls, rfl⟩ := Option.map_eq_some_iff.mp h
      by_cases hnull : l.alloc = 0
      · rw [blocksOf_cons_null hnull, blocksOf_cons_null hnull]
        exact ih hls
      · rw [blocksOf_cons hnull, blocksOf_cons hnull]
        exact ((ih hls).cons _).trans (.swap _ _ _)

/-- `mp_free(NULL)` clears a record that is clear. -/
theorem dropBlock_null {large large' : List Large} (h : dropBlock 0 large = some large') :
    large' = large := by
  induction large generalizing large' with
  | nil => cases h
  | cons l ls ih =>
    rw [dropBlock] at h
    split at h
    · rename_i hl
      cases h
      rw [hl]
    · obtain ⟨ls', hls, rfl⟩ := Option.map_eq_some_iff.mp h
      rw [ih hls]

/-! ## Nodes -/

/-- The failures are counted, and nothing else of a node changes. -/
theorem countFailures_map {α : Type*} {f : Node → α}
    (hf : ∀ p failed, f { p with failed := failed } = f p) (i current : ℕ) (nodes : List Node) :
    (countFailures i current nodes).1.map f = nodes.map f := by
  induction nodes generalizing i current with
  | nil => rfl
  | cons p rest ih =>
    cases rest with
    | nil => rfl
    | cons q rest => rw [countFailures, List.map_cons, ih, hf, ← List.map_cons]

/-- The loops take the block from one node, of which nothing but `last` changes. -/
theorem takeFrom_map {α : Type*} {f : Node → α} (hf : ∀ p last, f { p with last := last } = f p)
    {round : ℕ → ℕ} {size m : ℕ} {nodes nodes' : List Node}
    (h : takeFrom round size nodes = some (m, nodes')) : nodes'.map f = nodes.map f := by
  induction nodes generalizing nodes' with
  | nil => cases h
  | cons p rest ih =>
    rw [takeFrom] at h
    split at h
    · cases h
      rw [List.map_cons, hf, List.map_cons]
    · obtain ⟨⟨m', rest'⟩, hrest, heq⟩ := Option.map_eq_some_iff.mp h
      cases heq
      rw [List.map_cons, ih hrest, List.map_cons]

theorem takeFrom_addr {round : ℕ → ℕ} {size m : ℕ} {nodes nodes' : List Node}
    (h : takeFrom round size nodes = some (m, nodes')) :
    nodes'.map (·.addr) = nodes.map (·.addr) :=
  takeFrom_map (fun _ _ => rfl) h

theorem replace_chain {pool : Pool} {nodes : List Node} {current : ℕ} (h : nodes ≠ []) :
    (pool.replace nodes current).chain = pool.chain.take pool.current ++ nodes := by
  rw [Pool.replace]
  split
  · rename_i hnil
    exact absurd (List.append_eq_nil_iff.mp hnil).2 h
  · rename_i hcons
    rw [hcons]
    rfl

theorem replace_current {pool : Pool} {nodes : List Node} {current : ℕ} (h : nodes ≠ []) :
    (pool.replace nodes current).current = current := by
  rw [Pool.replace]
  split
  · rename_i hnil
    exact absurd (List.append_eq_nil_iff.mp hnil).2 h
  · rfl

theorem replace_same (pool : Pool) (nodes : List Node) (current : ℕ) :
    (pool.replace nodes current).addr = pool.addr ∧
      (pool.replace nodes current).max = pool.max ∧
      (pool.replace nodes current).large = pool.large := by
  rw [Pool.replace]
  split <;> exact ⟨rfl, rfl, rfl⟩

/-- The nodes behind the head change with the chain. -/
theorem nodes_addr_of_chain {pool pool' : Pool} {new : List ℕ}
    (h : pool'.chain.map (·.addr) = pool.chain.map (·.addr) ++ new) :
    pool'.nodes.map (·.addr) = pool.nodes.map (·.addr) ++ new := by
  rw [Pool.chain, Pool.chain, List.map_cons, List.map_cons, List.cons_append] at h
  exact (List.cons.inj h).2

/-- What a change of the nodes from `current` on adds to the owned addresses. -/
theorem replace_owned {pool : Pool} {nodes : List Node} {current : ℕ} (new : List ℕ)
    (hne : nodes ≠ [])
    (h : nodes.map (·.addr) = (pool.chain.drop pool.current).map (·.addr) ++ new) :
    (pool.replace nodes current).owned.Perm (new ++ pool.owned) := by
  have hchain : (pool.replace nodes current).chain.map (·.addr) =
      pool.chain.map (·.addr) ++ new := by
    rw [replace_chain hne, List.map_append, h, ← List.append_assoc, ← List.map_append,
      List.take_append_drop]
  obtain ⟨haddr, -, hlarge⟩ := replace_same pool nodes current
  rw [Pool.owned, nodes_addr_of_chain hchain, hlarge, haddr, Pool.owned, ← List.cons_append,
    List.append_assoc]
  exact List.perm_append_comm_assoc _ _ _

/-! ## Calls -/

section Calls

variable {s : State} {pending : List ℕ} {answers : Answers} {size p : ℕ}

theorem State.Owns.obtain (h : s.Owns pending) (alignment : ℕ) :
    (s.log (.obtain alignment ⟨p, size⟩)).Owns (p :: pending) :=
  ⟨h.bases.cons p, h.frees⟩

theorem State.Owns.free (h : s.Owns (p :: pending)) : (s.log (.free p)).Owns pending := by
  refine ⟨?_, .inr (h.bases.symm.subset List.mem_cons_self), h.frees⟩
  rw [State.log, bases_free]
  simpa using h.bases.erase p

theorem mpAllocBlock_owns (h : s.Owns pending) :
    (mpAllocBlock answers s size).state.Owns pending := by
  match answers with
  | [] => exact h
  | none :: answers => exact h
  | some newNode :: answers =>
    refine ⟨?_, h.frees⟩
    refine (h.bases.cons newNode).trans (List.perm_middle.symm.trans ?_)
    exact .append_left pending (replace_owned [newNode] (by simp)
      (by simp [countFailures_map])).symm

theorem takeFrom_ne_nil {round : ℕ → ℕ} {nodes nodes' : List Node} {m : ℕ}
    (h : takeFrom round size nodes = some (m, nodes')) : nodes' ≠ [] := by
  rintro rfl
  have hnil := takeFrom_addr h
  rw [List.map_nil] at hnil
  rw [List.map_eq_nil_iff.mp hnil.symm] at h
  cases h

theorem allocSmall_owns (h : s.Owns pending) (round : ℕ → ℕ) :
    (allocSmall round answers s size).state.Owns pending := by
  rw [allocSmall]
  split
  · rename_i m nodes htake
    refine ⟨h.bases.trans (.append_left pending ?_), h.frees⟩
    exact (replace_owned [] (takeFrom_ne_nil htake)
      (by rw [takeFrom_addr htake, List.append_nil])).symm
  · exact mpAllocBlock_owns h

/-- A record without a block takes the pending one. -/
theorem reuseRecord_owns {n : ℕ} {large : List Large} (h : s.Owns (p :: pending)) (hp : p ≠ 0)
    (hreuse : reuseRecord p n s.pool.large = some large) :
    State.Owns { s with pool := { s.pool with large := large } } pending := by
  refine ⟨h.bases.trans ?_, h.frees⟩
  refine List.perm_middle.symm.trans (.append_left pending ?_)
  exact List.perm_middle.symm.trans (.append_left _ (reuseRecord_blocksOf hp hreuse).symm)

theorem addRecord_owns {r : Result} (h : r.state.Owns (p :: pending)) (hp : p ≠ 0) :
    (addRecord p r).state.Owns pending := by
  rw [addRecord]
  split
  · exact h.free
  · refine ⟨h.bases.trans ?_, h.frees⟩
    simp only [Pool.owned, blocksOf_cons (l := ⟨r.ret, p⟩) hp]
    rw [List.cons_append]
    refine List.perm_middle.symm.trans (.append_left pending ?_)
    exact List.perm_middle.symm

/-! ## Traces -/

theorem suffix_log (s : State) (event : Event) : s.trace <:+ (s.log event).trace :=
  List.suffix_cons _ _

theorem allocSmall_suffix (round : ℕ → ℕ) :
    s.trace <:+ (allocSmall round answers s size).state.trace := by
  rw [allocSmall]
  split
  · exact List.suffix_rfl
  · match answers with
    | [] => exact List.suffix_rfl
    | none :: answers => exact List.suffix_rfl
    | some newNode :: answers => exact List.suffix_cons _ _

theorem addRecord_suffix (r : Result) : r.state.trace <:+ (addRecord p r).state.trace := by
  rw [addRecord]
  split
  · exact suffix_log _ _
  · exact List.suffix_rfl

theorem mpAllocLarge_suffix : s.trace <:+ (mpAllocLarge answers s size).state.trace := by
  induction answers generalizing s size with
  | nil => exact List.suffix_rfl
  | cons answer answers ih =>
    cases answer with
    | none => exact List.suffix_rfl
    | some p =>
      rw [mpAllocLarge]
      apply (suffix_log s (.obtain 16 ⟨p, size⟩)).trans
      split
      · exact List.suffix_rfl
      · refine List.IsSuffix.trans ?_ (addRecord_suffix _)
        split
        · exact allocSmall_suffix _
        · exact ih

theorem mpAllocLarge_owns (h : s.Owns pending)
    (hlawful : Lawful (mpAllocLarge answers s size).state.trace) :
    (mpAllocLarge answers s size).state.Owns pending := by
  induction answers generalizing s size pending with
  | nil => exact h
  | cons answer answers ih =>
    cases answer with
    | none => exact h
    | some p =>
      rw [mpAllocLarge] at hlawful ⊢
      have hobtain : (s.log (.obtain 16 ⟨p, size⟩)).Owns (p :: pending) := h.obtain 16
      split at hlawful
      · rename_i large hreuse
        have hp : p ≠ 0 := hlawful.1.nonnull
        exact reuseRecord_owns hobtain hp hreuse
      · have hafter := hlawful.of_suffix (addRecord_suffix _)
        split at hlawful
        · rename_i hsmall
          rw [if_pos hsmall] at hafter ⊢
          have hp : p ≠ 0 := (hafter.of_suffix (allocSmall_suffix _)).1.nonnull
          exact addRecord_owns (allocSmall_owns hobtain _) hp
        · rename_i hlarge
          rw [if_neg hlarge] at hafter ⊢
          have hp : p ≠ 0 := (hafter.of_suffix mpAllocLarge_suffix).1.nonnull
          exact addRecord_owns (ih hobtain hafter) hp

/-- The common body of `mp_alloc` and `mp_nalloc`. -/
theorem serve_suffix (round : ℕ → ℕ) : s.trace <:+ (if size ≤ s.pool.max then
    allocSmall round answers s size else mpAllocLarge answers s size).state.trace := by
  split
  · exact allocSmall_suffix _
  · exact mpAllocLarge_suffix

theorem mpAlloc_suffix : s.trace <:+ (mpAlloc answers s size).state.trace :=
  serve_suffix mpAlignPtr

/-- The first event of `mp_alloc_large`. -/
theorem mpAllocLarge_suffix_obtain :
    (s.log (.obtain 16 ⟨p, size⟩)).trace <:+
      (mpAllocLarge (some p :: answers) s size).state.trace := by
  rw [mpAllocLarge]
  split
  · exact List.suffix_rfl
  · exact List.IsSuffix.trans mpAlloc_suffix (addRecord_suffix (mpAlloc answers _ sizeofLarge))

theorem serve_owns (h : s.Owns pending) (round : ℕ → ℕ)
    (hlawful : Lawful (if size ≤ s.pool.max then
      allocSmall round answers s size else mpAllocLarge answers s size).state.trace) :
    (if size ≤ s.pool.max then
      allocSmall round answers s size else mpAllocLarge answers s size).state.Owns pending := by
  by_cases hsize : size ≤ s.pool.max
  · rw [if_pos hsize]
    exact allocSmall_owns h _
  · rw [if_neg hsize] at hlawful ⊢
    exact mpAllocLarge_owns h hlawful

theorem mpAlloc_owns (h : s.Owns pending)
    (hlawful : Lawful (mpAlloc answers s size).state.trace) :
    (mpAlloc answers s size).state.Owns pending :=
  serve_owns h mpAlignPtr hlawful

theorem mpFree_owns (h : s.Owns pending) (hlawful : Lawful (mpFree s p).trace) :
    (mpFree s p).Owns pending := by
  rw [mpFree] at hlawful ⊢
  split
  · exact h
  · rename_i large hdrop
    by_cases hp : p = 0
    · subst hp
      rw [hdrop] at hlawful
      have hlawful : Lawful s.trace := hlawful
      have hnull : 0 ∉ (live s.trace).map (·.base) := fun h0 => hlawful.ne_zero_of_mem h0 rfl
      rw [dropBlock_null hdrop]
      refine ⟨?_, .inl rfl, h.frees⟩
      rw [State.log, bases_free, List.erase_of_not_mem hnull]
      exact h.bases
    · refine State.Owns.free ⟨h.bases.trans ?_, h.frees⟩
      refine (List.Perm.append_left pending ?_).trans List.perm_middle
      exact (List.Perm.append_left _ (dropBlock_blocksOf hp hdrop)).trans List.perm_middle

theorem freeLarge_pool (ls : List Large) : (freeLarge s ls).pool = s.pool := by
  induction ls generalizing s with
  | nil => rfl
  | cons l ls ih =>
    rw [freeLarge, ih]
    split <;> rfl

theorem freeLarge_live {ls : List Large} {r : Region} (h : r ∈ live (freeLarge s ls).trace) :
    r ∈ live s.trace := by
  induction ls generalizing s with
  | nil => exact h
  | cons l ls ih =>
    rw [freeLarge] at h
    split at h
    · exact ih h
    · exact mem_of_mem_live_free (ih h)

/-- The loop over the records frees their blocks, and nothing else. -/
theorem freeLarge_owns (ls : List Large) (rest : List ℕ)
    (hbases : ((live s.trace).map (·.base)).Perm (rest ++ blocksOf ls))
    (hfrees : FreesLive s.trace) :
    ((live (freeLarge s ls).trace).map (·.base)).Perm rest ∧ FreesLive (freeLarge s ls).trace := by
  induction ls generalizing s with
  | nil => exact ⟨by simpa [blocksOf, freeLarge] using hbases, hfrees⟩
  | cons l ls ih =>
    rw [freeLarge]
    by_cases hl : l.alloc = 0
    · rw [if_pos hl]
      rw [blocksOf_cons_null hl] at hbases
      exact ih hbases hfrees
    · rw [if_neg hl]
      rw [blocksOf_cons hl] at hbases
      have hmem : l.alloc ∈ (live s.trace).map (·.base) :=
        hbases.symm.subset (List.mem_append_right _ List.mem_cons_self)
      refine ih (s := s.log (.free l.alloc)) ?_ ⟨.inr hmem, hfrees⟩
      rw [State.log, bases_free]
      simpa using (hbases.trans List.perm_middle).erase l.alloc

theorem mpResetPool_owns (h : s.Owns pending) : (mpResetPool s).Owns pending := by
  obtain ⟨hbases, hfrees⟩ := freeLarge_owns s.pool.large
    (pending ++ s.pool.addr :: s.pool.nodes.map (·.addr))
    (by simpa [Pool.owned] using h.bases) h.frees
  refine ⟨?_, hfrees⟩
  simp only [mpResetPool, freeLarge_pool, Pool.owned]
  simpa [blocksOf, Function.comp_def, Node.reset] using hbases

/-! ## Creating and destroying -/

theorem mpCreatePool_owns (p size : ℕ) : (mpCreatePool p size).Owns [] :=
  ⟨.refl _, trivial⟩

/-- The loop of `mp_destory_pool` over the nodes. -/
theorem freeNodes_owns (nodes : List Node) (rest : List ℕ)
    (hbases : ((live s.trace).map (·.base)).Perm (rest ++ nodes.map (·.addr)))
    (hfrees : FreesLive s.trace) :
    let s' := nodes.foldl (fun s h => s.log (.free h.addr)) s
    ((live s'.trace).map (·.base)).Perm rest ∧ FreesLive s'.trace ∧ s'.pool = s.pool := by
  induction nodes generalizing s with
  | nil => exact ⟨by simpa using hbases, hfrees, rfl⟩
  | cons h nodes ih =>
    have hmem : h.addr ∈ (live s.trace).map (·.base) :=
      hbases.symm.subset (List.mem_append_right _ List.mem_cons_self)
    refine ih (s := s.log (.free h.addr)) ?_ ⟨.inr hmem, hfrees⟩
    rw [State.log, bases_free]
    simpa using (hbases.trans List.perm_middle).erase h.addr

theorem mpDestoryPool_frees (h : s.Owns []) :
    FreesLive (mpDestoryPool s) ∧ live (mpDestoryPool s) = [] := by
  obtain ⟨hbases₁, hfrees₁⟩ := freeLarge_owns s.pool.large
    (s.pool.addr :: s.pool.nodes.map (·.addr)) (by simpa [Pool.owned] using h.bases) h.frees
  obtain ⟨hbases₂, hfrees₂, hpool₂⟩ := freeNodes_owns s.pool.nodes [s.pool.addr] hbases₁
    hfrees₁
  simp only [mpDestoryPool, freeLarge_pool, hpool₂]
  refine ⟨⟨.inr (hbases₂.symm.subset (List.mem_singleton_self _)), hfrees₂⟩, ?_⟩
  have hnone := hbases₂.erase s.pool.addr
  rw [← bases_free, List.erase_cons_head] at hnone
  exact List.map_eq_nil_iff.mp hnone.eq_nil

end Calls

end ServerKit.Mempool
