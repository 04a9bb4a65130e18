import ServerKit.Mempool.Intact

/-! # Calls that return `NULL`

A large block takes two regions, the second one by way of the small blocks. A call that fails
gives back what it has obtained. It returns `NULL` without having failed when a block lies at the
address 0, which `last` reaches once it has run past the end of its node and around. -/

namespace ServerKit.Mempool

open ServerKit.SystemHeap

/-- If the call returns `NULL`, the pool is as before, and what it has obtained is freed. -/
def Result.Atomic (s : State) (r : Result) : Prop :=
  r.ret = 0 → r.state.pool = s.pool ∧ live r.state.trace = live s.trace

/-- The calls that return a pointer. -/
def Atomic (s : State) : Op → Prop
  | .mpAlloc size answers => (mpAlloc answers s size).Atomic s
  | .mpNalloc size answers => (mpNalloc answers s size).Atomic s
  | .mpCalloc size answers => (mpCalloc answers s size).Atomic s
  | .mpMemalign size alignment answers => (mpMemalign answers s size alignment).Atomic s
  | .mpFree _ | .mpResetPool => True

/-- The node that serves a small block, or the new one, does not place it at the address 0, or
is none the worse for it. -/
def Pool.Nonnull (pool : Pool) (round : ℕ → ℕ) (size : ℕ) (answers : Answers) : Prop :=
  (∀ n ∈ pool.taker round size, round n.last = 0 → n.last = size) ∧
    (pool.taker round size = none →
      ∀ newNode ∈ answers.head?.join, mpAlignPtr (add64 newNode sizeofNode) ≠ 0)

/-- The same for the record of a large block. -/
def Pool.RecordNonnull (pool : Pool) : Answers → Prop
  | some p :: answers =>
    reuseRecord p 0 pool.large = none → pool.Nonnull mpAlignPtr sizeofLarge answers
  | _ => True

/-- The condition for a call. -/
def Nonnull (s : State) : Op → Prop
  | .mpAlloc size answers | .mpCalloc size answers =>
    if size ≤ s.pool.max then s.pool.Nonnull mpAlignPtr size answers
    else s.pool.RecordNonnull answers
  | .mpNalloc size answers =>
    if size ≤ s.pool.max then s.pool.Nonnull id size answers else s.pool.RecordNonnull answers
  | .mpMemalign _ _ (some _ :: answers) => s.pool.Nonnull mpAlignPtr sizeofLarge answers
  | .mpMemalign _ _ _ | .mpFree _ | .mpResetPool => True

instance (pool : Pool) (round : ℕ → ℕ) (size : ℕ) (answers : Answers) :
    Decidable (pool.Nonnull round size answers) :=
  inferInstanceAs (Decidable ((∀ n ∈ pool.taker round size, _) ∧ (_ → ∀ _ ∈ _, _)))

instance (pool : Pool) : (answers : Answers) → Decidable (pool.RecordNonnull answers)
  | some _ :: _ => inferInstanceAs (Decidable (_ → _))
  | none :: _ => .isTrue trivial
  | [] => .isTrue trivial

instance (s : State) : (op : Op) → Decidable (Nonnull s op)
  | .mpAlloc _ _ | .mpCalloc _ _ | .mpNalloc _ _ => inferInstanceAs (Decidable (ite _ _ _))
  | .mpMemalign _ _ (some _ :: _) => inferInstanceAs (Decidable (Pool.Nonnull _ _ _ _))
  | .mpMemalign _ _ (none :: _) | .mpMemalign _ _ [] => .isTrue trivial
  | .mpFree _ | .mpResetPool => .isTrue trivial

variable {s : State} {answers : Answers} {size p : ℕ} {round : ℕ → ℕ}

/-! ## Small blocks -/

theorem replace_eq_iff {pool : Pool} {nodes : List Node} (hne : nodes ≠ []) :
    pool.replace nodes pool.current = pool ↔ nodes = pool.chain.drop pool.current := by
  constructor
  · intro heq
    have hchain : (pool.replace nodes pool.current).chain = _ := replace_chain hne
    rw [heq] at hchain
    nth_rewrite 1 [← List.take_append_drop pool.current pool.chain] at hchain
    exact (List.append_cancel_left hchain).symm
  · rintro rfl
    rw [Pool.replace, List.take_append_drop]
    rfl

/-- A new node changes the pool. -/
theorem replace_ne {pool : Pool} {nodes : List Node} {current : ℕ}
    (hlength : (pool.chain.drop pool.current).length < nodes.length) :
    pool.replace nodes current ≠ pool := by
  intro heq
  have hne : nodes ≠ [] := List.ne_nil_of_length_pos (by omega)
  have hchain : (pool.replace nodes current).chain.length = _ :=
    congrArg List.length (replace_chain hne)
  rw [heq, List.length_append] at hchain
  have hsplit := congrArg List.length (List.take_append_drop pool.current pool.chain)
  rw [List.length_append] at hsplit
  omega

theorem countFailures_length (i current : ℕ) (nodes : List Node) :
    (countFailures i current nodes).1.length = nodes.length := by
  have hmap := countFailures_map (f := fun _ => ()) (fun _ _ => rfl) i current nodes
  simpa using congrArg List.length hmap

/-- A small block at the address 0 changes the pool, as any other one. -/
theorem allocSmall_pool_iff (hsize : size < 2 ^ 64) :
    ((allocSmall round answers s size).ret = 0 →
        (allocSmall round answers s size).state.pool = s.pool) ↔
      s.pool.Nonnull round size answers := by
  rw [allocSmall]
  cases htake : takeFrom round size (s.pool.chain.drop s.pool.current) with
  | some taken =>
      obtain ⟨m, nodes⟩ := taken
      obtain ⟨pre, n, post, hdrop, rfl, rfl, -, hfind⟩ := takeFrom_eq_some htake
      have htaker : s.pool.taker round size = some n := hfind
      have hlast : ∀ m, m = 0 → ({ n with last := add64 m size } = n ↔ n.last = size) := by
        rintro m rfl
        have hadd : add64 0 size = size := by
          rw [add64, Nat.zero_add, Nat.mod_eq_of_lt hsize]
        rw [hadd]
        constructor
        · intro heq
          exact (congrArg Node.last heq).symm
        · rintro rfl
          rfl
      rw [Pool.Nonnull, htaker, replace_eq_iff (by simp), hdrop]
      constructor
      · intro h
        refine ⟨?_, fun hnone => by cases hnone⟩
        rintro _ ⟨⟩ hnull
        have hnodes := List.append_cancel_left (h hnull)
        exact (hlast _ hnull).mp (List.cons.inj hnodes).1
      · intro h hnull
        rw [(hlast _ hnull).mpr (h.1 n rfl hnull)]
  | none =>
      have htaker : s.pool.taker round size = none := takeFrom_eq_none_iff.mp htake
      rcases answers with - | ⟨- | newNode, answers⟩
      · simp [mpAllocBlock, Pool.Nonnull, htaker]
      · simp [mpAllocBlock, Pool.Nonnull, htaker]
      · rw [Pool.Nonnull, htaker]
        constructor
        · intro h
          refine ⟨fun _ hsome => (by cases hsome), fun _ => ?_⟩
          rintro _ ⟨⟩ hnull
          refine absurd (h hnull) (replace_ne ?_)
          simp [countFailures_length]
        · intro h hnull
          exact absurd hnull (h.2 rfl newNode rfl)

/-- Only a new node is obtained from the system. -/
theorem allocSmall_trace (hpool : (allocSmall round answers s size).state.pool = s.pool) :
    (allocSmall round answers s size).state.trace = s.trace := by
  rw [allocSmall] at hpool ⊢
  split at hpool
  · rfl
  · rcases answers with - | ⟨- | newNode, answers⟩
    · rfl
    · rfl
    · refine absurd hpool (replace_ne ?_)
      simp [countFailures_length]

theorem allocSmall_atomic_iff (hsize : size < 2 ^ 64) :
    (allocSmall round answers s size).Atomic s ↔ s.pool.Nonnull round size answers := by
  rw [← allocSmall_pool_iff hsize]
  constructor
  · intro h hnull
    exact (h hnull).1
  · intro h hnull
    exact ⟨h hnull, by rw [allocSmall_trace (h hnull)]⟩

/-! ## Large blocks -/

/-- A record for the region `p`, or its return to the system. -/
theorem addRecord_atomic_iff {t : State} {alignment : ℕ} (hp : p ≠ 0)
    (ht : t = s.log (.obtain alignment ⟨p, size⟩)) :
    (addRecord p (allocSmall mpAlignPtr answers t sizeofLarge)).Atomic s ↔
      s.pool.Nonnull mpAlignPtr sizeofLarge answers := by
  have hpool : t.pool = s.pool := by rw [ht, State.log]
  rw [← hpool, ← allocSmall_pool_iff (by decide), addRecord, hpool]
  split
  · rename_i hnull
    constructor
    · intro h _
      exact (h rfl).1
    · intro h _
      refine ⟨h hnull, ?_⟩
      rw [State.log, allocSmall_trace ((h hnull).trans hpool.symm), ht]
      simp [State.log, live]
  · rename_i hne
    constructor
    · intro _ hnull
      exact absurd hnull hne
    · intro _ hnull
      exact absurd hnull hp

theorem mpAllocLarge_atomic_iff (hmax : sizeofLarge ≤ s.pool.max)
    (hlawful : Lawful (mpAllocLarge answers s size).state.trace) :
    (mpAllocLarge answers s size).Atomic s ↔ s.pool.RecordNonnull answers := by
  rcases answers with - | ⟨- | p, answers⟩
  · simp [mpAllocLarge, Result.Atomic, Pool.RecordNonnull]
  · simp [mpAllocLarge, Result.Atomic, Pool.RecordNonnull]
  · have hp : p ≠ 0 := (hlawful.of_suffix mpAllocLarge_suffix_obtain).1.nonnull
    rw [mpAllocLarge, Pool.RecordNonnull]
    split
    · rename_i large hreuse
      refine iff_of_true (fun hnull => absurd hnull hp) ?_
      intro hnone
      rw [State.log] at hreuse
      rw [hreuse] at hnone
      cases hnone
    · rename_i hnone
      have hmax' : sizeofLarge ≤ (s.log (.obtain 16 ⟨p, size⟩)).pool.max := hmax
      rw [if_pos hmax', addRecord_atomic_iff hp rfl]
      exact ⟨fun h _ => h, fun h => h hnone⟩

/-! ## Calls -/

/-- The common body of `mp_alloc` and `mp_nalloc`. -/
theorem serve_atomic_iff (hmax : sizeofLarge ≤ s.pool.max) (hbound : s.pool.max < 2 ^ 64)
    (hlawful : Lawful (if size ≤ s.pool.max then allocSmall round answers s size
      else mpAllocLarge answers s size).state.trace) :
    (if size ≤ s.pool.max then allocSmall round answers s size
      else mpAllocLarge answers s size).Atomic s ↔
      if size ≤ s.pool.max then s.pool.Nonnull round size answers
      else s.pool.RecordNonnull answers := by
  split at hlawful
  · rename_i hsmall
    rw [if_pos hsmall, if_pos hsmall]
    exact allocSmall_atomic_iff (by omega)
  · rename_i hlarge
    rw [if_neg hlarge, if_neg hlarge]
    exact mpAllocLarge_atomic_iff hmax hlawful

theorem atomic_iff_nonnull (hmax : sizeofLarge ≤ s.pool.max) (hbound : s.pool.max < 2 ^ 64)
    {op : Op} (hlawful : Lawful (step s op).1.trace) : Atomic s op ↔ Nonnull s op := by
  cases op with
  | mpAlloc size answers => exact serve_atomic_iff hmax hbound hlawful
  | mpNalloc size answers => exact serve_atomic_iff hmax hbound hlawful
  | mpCalloc size answers => exact serve_atomic_iff hmax hbound hlawful
  | mpMemalign size alignment answers =>
      rcases answers with - | ⟨- | p, answers⟩
      · simp [Atomic, Nonnull, mpMemalign, Result.Atomic]
      · simp [Atomic, Nonnull, mpMemalign, Result.Atomic]
      · have hp : p ≠ 0 := by
          have hobtain : (s.log (.obtain alignment ⟨p, size⟩)).trace <:+
              (mpMemalign (some p :: answers) s size alignment).state.trace :=
            mpAlloc_suffix.trans (addRecord_suffix _)
          exact (hlawful.of_suffix hobtain).1.nonnull
        have hmax' : sizeofLarge ≤ (s.log (.obtain alignment ⟨p, size⟩)).pool.max := hmax
        simp only [Atomic, Nonnull, mpMemalign]
        rw [mpAlloc, if_pos hmax', addRecord_atomic_iff hp rfl]
  | mpFree p => exact Iff.rfl
  | mpResetPool => exact Iff.rfl

/-- The pool for blocks of the size of a record. -/
theorem mpCreatePool_max (hsize : sizeofLarge ≤ size) :
    sizeofLarge ≤ (mpCreatePool p size).pool.max ∧ (mpCreatePool p size).pool.max < 2 ^ 64 := by
  unfold mpCreatePool
  dsimp only
  split
  · rename_i hlt
    rw [MP_MAX_ALLOC_FROM_POOL, MP_PAGE_SIZE] at hlt
    omega
  · decide

end ServerKit.Mempool
