import ServerKit.Lib.System
import ServerKit.Mempool.Refinement

/-! # Every call of the pool in memory -/

namespace ServerKit.Mempool

open ServerKit.System ServerKit.SystemHeap ServerKit.WordMemory

variable {heap : Heap} {s : State} {pending : List Region} {grants : Grants} {mem mem' : ℕ → ℕ}
  {pool pool' : Pool} {fuel size p a : ℕ}

/-! ## Freeing -/

theorem freeLarge_lawful (large : List Large) (h : Lawful s.trace) :
    Lawful (freeLarge s large).trace := by
  induction large generalizing s with
  | nil => exact h
  | cons l large ih =>
    rw [freeLarge]
    split
    · exact ih h
    · exact ih (s := s.log (.free l.alloc)) h

theorem mpFree_holds (h : heap.Holds s []) (hfuel : s.pool.large.length < fuel) :
    ∃ heap', heap.mpFree fuel s.pool.addr p = some heap' ∧ heap'.Holds (mpFree s p) [] := by
  have hlawful : Lawful (mpFree s p).trace := by
    rw [mpFree]
    split
    · exact h.intact.lawful
    · exact h.intact.lawful
  have hintact := mpFree_intact h.intact hlawful
  rw [mpFree] at hintact ⊢
  rw [Heap.mpFree]
  rcases findBlock_eq (p := p) h.pool.large h.pool.allocs hfuel with
    ⟨hnone, hfind⟩ | ⟨pre, l, post, hsplit, rfl, hdrop, hfind⟩
  · rw [hnone] at hintact ⊢
    exact ⟨heap, by rw [hfind]; rfl, h⟩
  · rw [hdrop] at hintact ⊢
    have hnull : l.addr ≠ 0 := h.pool.large.nonnull _ (List.mem_map_of_mem (by simp [hsplit]))
    have halloc : heap.mem (l.addr + 8) = l.alloc := h.pool.allocs l (by simp [hsplit])
    refine ⟨(heap.free l.alloc).write (l.addr + 8) 0, ?_,
      ⟨h.pool.setAlloc h.separate hsplit 0, congrArg (List.cons _) h.trace⟩, hintact⟩
    rw [hfind, Option.map_some, if_neg hnull, halloc]

/-- The pool after the release of its records. -/
theorem Represents.dropLarge (h : Represents mem pool) (hapart : pool.Separate) :
    Represents (Function.update mem (pool.addr + 16) 0) { pool with large := [] } := by
  have hkeep : ∀ b, b ≠ pool.addr + 16 → Function.update mem (pool.addr + 16) 0 b = mem b :=
    fun b hb => Function.update_of_ne hb _ _
  have hnode : ∀ n ∈ pool.chain, ∀ c ≤ 24,
      Function.update mem (pool.addr + 16) 0 (n.addr + c) = mem (n.addr + c) := by
    intro n hn c hc
    have hheader := hapart.headerNode n hn
    exact hkeep _ (by omega)
  refine {
    head := h.head
    max := (hkeep _ (by simp)).trans h.max
    current := ?_
    large := Function.update_self _ _ _
    allocs := fun l hl => absurd hl List.not_mem_nil
    chain := ?_
    nodes := fun n hn => (h.nodes n hn).congr (hnode n hn) }
  · rw [hkeep _ (by simp)]
    exact h.current
  · exact h.chain.congr (List.forall_mem_map.mpr fun n hn => hnode n hn 16 (by decide))

/-- The loops of `mp_reset_pool`; the one over the nodes may leave out the first ones. -/
theorem reset_holds (h : heap.Holds s []) {pre nodes : List Node}
    (hsplit : s.pool.chain = pre ++ nodes) (hlinked : Linked heap.mem 16 a (nodes.map (·.addr)))
    (hfuel : nodes.length < fuel) (hlarge : s.pool.large.length < fuel)
    (haddr : pool'.addr = s.pool.addr) (hmax : pool'.max = s.pool.max)
    (hcurrent : pool'.current = s.pool.current) (hrecords : pool'.large = [])
    (hchain : pool'.chain = pre ++ nodes.map Node.reset) :
    ∃ heap', ((Heap.freeLarge fuel heap (heap.mem (s.pool.addr + 16))).bind fun h =>
        Heap.resetNodes fuel (h.write (s.pool.addr + 16) 0) a) = some heap' ∧
      heap'.Holds ⟨pool', (freeLarge s s.pool.large).trace⟩ [] := by
  have hapart := h.separate
  have hkept : ∀ {β : Type} (f : Node → β), (∀ n : Node, f n.reset = f n) →
      pool'.chain.map f = s.pool.chain.map f := by
    intro β f hf
    rw [hchain, hsplit, List.map_append, List.map_append, List.map_map]
    exact congrArg (_ ++ ·) (List.map_congr_left fun n _ => hf n)
  have hdropped := h.pool.dropLarge hapart
  have hapart' : Pool.Separate { s.pool with large := [] } :=
    ⟨hapart.headerNode, by simp, hapart.nodes, by simp, .nil⟩
  obtain ⟨-, hnodes, hcross⟩ := List.pairwise_append.mp (hsplit ▸ hapart.nodes)
  have hmem : ∀ n ∈ nodes, n ∈ s.pool.chain := fun n hn => hsplit ▸ List.mem_append_right _ hn
  have hlinked' : Linked (Function.update heap.mem (s.pool.addr + 16) 0) 16 a
      (nodes.map (·.addr)) := by
    apply hlinked.congr
    intro b hb
    obtain ⟨n, hn, rfl⟩ := List.mem_map.mp hb
    have hheader := hapart.headerNode n (hmem n hn)
    exact Function.update_of_ne (by omega) _ _
  obtain ⟨mem', hloop, hsame, hset⟩ : ∃ mem',
      Heap.resetNodes fuel (Heap.write ⟨heap.mem, (freeLarge s s.pool.large).trace⟩
        (s.pool.addr + 16) 0) a = some ⟨mem', (freeLarge s s.pool.large).trace⟩ ∧ _ ∧ _ :=
    resetNodes_eq hlinked' hnodes hfuel
  refine ⟨⟨mem', (freeLarge s s.pool.large).trace⟩, ?_, ⟨?_, rfl⟩, ?_⟩
  · rw [freeLarge_eq h.pool.large h.pool.allocs h.trace hlarge]
    exact hloop
  · refine hdropped.lasts hapart' ⟨haddr, hmax, hrecords⟩ hcurrent (hkept _ fun _ => rfl)
      (fun b hb => hsame b fun n hn => hb n (hmem n hn)) fun k hk => ?_
    rw [hchain, List.mem_append] at hk
    rcases hk with hk | hk
    · have hold := hdropped.nodes k (show k ∈ s.pool.chain from hsplit ▸ List.mem_append_left _ hk)
      refine hold.congr fun c hc => hsame _ fun n hn => ?_
      have happart := hcross k hk n hn
      omega
    · obtain ⟨n, hn, rfl⟩ := List.mem_map.mp hk
      obtain ⟨-, hend, hfailed⟩ := hdropped.nodes n (hmem n hn)
      have hother : ∀ c ≤ 24, c ≠ 0 →
          mem' (n.addr + c) = Function.update heap.mem (s.pool.addr + 16) 0 (n.addr + c) := by
        intro c hc hne
        refine hsame _ fun k hk => ?_
        rcases hapart.node (hmem n hn) (hmem k hk) with rfl | happart <;> omega
      exact ⟨hset n hn, (hother 8 (by decide) (by decide)).trans hend,
        (hother 24 (by decide) (by decide)).trans hfailed⟩
  · exact h.intact.reset (freeLarge_lawful _ h.intact.lawful) haddr hcurrent hrecords
      (hkept _ fun _ => rfl)

theorem mpResetPool_holds (h : heap.Holds s []) (hchain : s.pool.chain.length < fuel)
    (hlarge : s.pool.large.length < fuel) :
    ∃ heap', heap.mpResetPool fuel s.pool.addr = some heap' ∧ heap'.Holds (mpResetPool s) [] := by
  have hpool : (mpResetPool s).pool = { s.pool with
      large := []
      head := s.pool.head.reset
      nodes := s.pool.nodes.map Node.reset } := by
    simp only [mpResetPool, freeLarge_pool]
  have hnodes : (mpResetPool s).pool.chain = [] ++ s.pool.chain.map Node.reset := by
    rw [hpool]
    rfl
  have hreset := reset_holds h (List.nil_append _).symm h.pool.chain hchain hlarge
    (by rw [hpool]) (by rw [hpool]) (by rw [hpool]) (by rw [hpool]) hnodes
  rw [h.pool.head] at hreset
  exact hreset

/-! ## The beginning and the end -/

/-- A new pool, if the word at `head->next` is `NULL`. -/
theorem createPool_holds {contents : ℕ → ℕ} (hsize : SizeFits size)
    (hlawful : Lawful (mpCreatePool p size).trace) (hnull : contents (p + 40) = 0) :
    (createPool p size contents).Holds (mpCreatePool p size) [] := by
  have hlen : add64 size (sizeofPool + sizeofNode) = size + 56 := Nat.mod_eq_of_lt hsize
  have hfresh := hlawful.1
  have hbounded : p + add64 size (sizeofPool + sizeofNode) < 2 ^ 64 := hfresh.bounded
  rw [hlen] at hbounded
  have hhead : add64 p sizeofPool = p + 24 := Nat.mod_eq_of_lt (by simp only [sizeofPool]; omega)
  have hlast : add64 p (sizeofPool + sizeofNode) = p + 56 :=
    Nat.mod_eq_of_lt (by simp only [sizeofPool, sizeofNode]; omega)
  have hend : add64 (p + 56) size = p + 56 + size := Nat.mod_eq_of_lt (by omega)
  have hnext : (createPool p size contents).mem (p + 40) = 0 := by
    simp [createPool, Heap.write, Heap.obtain, hlen, hnull]
  refine ⟨⟨?_, by simp [createPool, Heap.write, Heap.obtain, mpCreatePool]⟩, ?_⟩
  · refine .created rfl rfl rfl hhead ?_ ?_ ?_ hnext ?_
    · simp [createPool, Heap.write, mpCreatePool, Nat.add_assoc]
    · simp [createPool, Heap.write, mpCreatePool]
    · simp [createPool, Heap.write, mpCreatePool]
    · simp only [mpCreatePool, hhead]
      refine ⟨?_, ?_, ?_⟩ <;> simp [createPool, Heap.write]
  · refine intact_created rfl hlawful rfl rfl rfl hhead rfl ?_ ?_
    · rw [hlen]
      simp only [sizeofPool, sizeofNode]
      omega
    · show sizeofNode ≤ sub64 (add64 (add64 p (sizeofPool + sizeofNode)) size) (add64 p sizeofPool)
      rw [hhead, hlast, hend]
      simp only [sub64, sizeofNode]
      omega

theorem freeNodes_pool (nodes : List Node) :
    (nodes.foldl (fun s h => s.log (.free h.addr)) s).pool = s.pool := by
  induction nodes generalizing s with
  | nil => rfl
  | cons h nodes ih => exact ih

theorem mpDestoryPool_eq (h : heap.Shows s) (hchain : s.pool.chain.length ≤ fuel)
    (hlarge : s.pool.large.length < fuel) :
    heap.mpDestoryPool fuel s.pool.addr = some ⟨heap.mem, mpDestoryPool s⟩ := by
  have hlinked := h.pool.chain
  rw [Pool.chain, List.map_cons, linked_cons, h.pool.head] at hlinked
  have hnodes : Heap.freeNodes fuel ⟨heap.mem, (freeLarge s s.pool.large).trace⟩
      (heap.mem (s.pool.addr + 24 + 16)) = some ⟨heap.mem, _⟩ :=
    freeNodes_eq hlinked.2.2 rfl hchain
  rw [Heap.mpDestoryPool, freeLarge_eq h.pool.large h.pool.allocs h.trace hlarge]
  simp only [Option.bind_some, hnodes, Option.map_some]
  have haddr : (s.pool.nodes.foldl (fun s h => s.log (.free h.addr))
      (freeLarge s s.pool.large)).pool.addr = s.pool.addr := by
    rw [freeNodes_pool, freeLarge_pool]
  simp only [mpDestoryPool, freeLarge_pool, haddr]
  rfl

/-! ## Allocating -/

/-- A block that has been obtained and recorded lies apart from the pool's own data. -/
theorem State.Intact.block_disjoint {q o : Region} (h : s.Intact pending)
    (hq : q ∈ live s.trace) (hblock : q.base ∈ blocksOf s.pool.large) (ho : s.InChain o) :
    q.Disjoint o := by
  obtain ⟨r, hr, hbase, hwithin⟩ := ho
  have hnodup := (List.nodup_append.mp (h.owns.bases.nodup_iff.mp h.lawful.nodup)).2.1
  have hne : q ≠ r := by
    rintro rfl
    exact List.disjoint_of_nodup_append hnodup hbase hblock
  exact (h.lawful.apart hq hr hne).disjoint.within (.refl q) hwithin

theorem allocSmall_live {round : ℕ → ℕ} {answers : Answers} {q : Region}
    (hq : q ∈ live s.trace) : q ∈ live (allocSmall round answers s size).state.trace := by
  rw [allocSmall]
  split
  · exact hq
  · rcases answers with _ | ⟨_ | newNode, answers⟩
    · exact hq
    · exact hq
    · exact List.mem_cons_of_mem _ hq

/-- A large block is live and recorded. -/
theorem mpAllocLarge_block {answers : Answers}
    (hsmall : s.pool.max < sizeofLarge → s.pool.large = [])
    (hret : (mpAllocLarge answers s size).ret ≠ 0) :
    ⟨(mpAllocLarge answers s size).ret, size⟩ ∈ live (mpAllocLarge answers s size).state.trace ∧
      (mpAllocLarge answers s size).ret ∈
        blocksOf (mpAllocLarge answers s size).state.pool.large := by
  match answers with
  | [] => exact absurd rfl hret
  | none :: answers => exact absurd rfl hret
  | some p :: answers =>
    rw [mpAllocLarge] at hret ⊢
    rcases hreuse : reuseRecord p 0 (s.log (.obtain 16 ⟨p, size⟩)).pool.large with _ | large
    · simp only [hreuse] at hret ⊢
      by_cases hmax : sizeofLarge ≤ (s.log (.obtain 16 ⟨p, size⟩)).pool.max
      · rw [if_pos hmax] at hret ⊢
        rw [addRecord] at hret ⊢
        split at hret
        · exact absurd rfl hret
        · rename_i hrecord
          rw [if_neg hrecord]
          refine ⟨allocSmall_live List.mem_cons_self, ?_⟩
          rw [blocksOf_cons (by exact hret)]
          exact List.mem_cons_self
      · have hlt := Nat.not_le.mp hmax
        have hnull : (mpAllocLarge answers (s.log (.obtain 16 ⟨p, size⟩)) sizeofLarge).ret = 0 :=
          mpAllocLarge_null hlt (hsmall hlt)
        rw [if_neg hmax, addRecord, if_pos hnull] at hret
        exact absurd rfl hret
    · simp only [hreuse] at hret ⊢
      exact ⟨List.mem_cons_self,
        (reuseRecord_blocksOf hret hreuse).symm.subset List.mem_cons_self⟩

/-- `mp_alloc` and `mp_nalloc`. -/
theorem serve_holds {round : ℕ → ℕ} (h : heap.Holds s pending)
    (hchain : s.pool.chain.length ≤ fuel) (hlarge : s.pool.large.length < fuel)
    (hspares : s.pool.max < size → s.LargeSpares sizeofLarge grants.addrs)
    (hlawful : Lawful (if size ≤ s.pool.max then allocSmall round grants.addrs s size
      else mpAllocLarge grants.addrs s size).state.trace) :
    ∃ r, (if size ≤ heap.mem s.pool.addr then
        heap.allocSmall fuel round grants s.pool.addr size
        else Heap.mpAllocLarge fuel grants heap s.pool.addr size) = some r ∧
      r.Holds (if size ≤ s.pool.max then allocSmall round grants.addrs s size
        else mpAllocLarge grants.addrs s size) pending := by
  rw [h.pool.max]
  by_cases hsize : size ≤ s.pool.max
  · rw [if_pos hsize] at hlawful ⊢
    rw [if_pos hsize]
    exact allocSmall_holds h hchain hlawful
  · rw [if_neg hsize] at hlawful ⊢
    rw [if_neg hsize]
    exact mpAllocLarge_holds h hchain hlarge (hspares (Nat.not_le.mp hsize)) hlawful

theorem mpCalloc_holds (h : heap.Holds s []) (hchain : s.pool.chain.length ≤ fuel)
    (hlarge : s.pool.large.length < fuel) (hspares : size ≤ s.pool.max → s.Spares size size)
    (hspares' : s.pool.max < size → s.LargeSpares sizeofLarge grants.addrs)
    (hlawful : Lawful (mpCalloc grants.addrs s size).state.trace) :
    ∃ r, heap.mpCalloc fuel grants s.pool.addr size = some r ∧
      r.Holds (mpCalloc grants.addrs s size) [] := by
  obtain ⟨r, hserve, hr⟩ := serve_holds h hchain hlarge hspares' hlawful
  have hfar : (mpCalloc grants.addrs s size).ret ≠ 0 →
      ∀ o ∈ (mpCalloc grants.addrs s size).state.pool.fixed,
        Region.Disjoint ⟨(mpCalloc grants.addrs s size).ret, size⟩ o := by
    have hintact : (mpCalloc grants.addrs s size).state.Intact [] := hr.heap.intact
    rw [mpCalloc, mpAlloc] at hlawful hintact ⊢
    intro hret o ho
    by_cases hsize : size ≤ s.pool.max
    · rw [if_pos hsize] at hlawful hret ho ⊢
      exact (allocSmall_spares h.intact (hspares hsize) hlawful hret).1 o ho
    · rw [if_neg hsize] at hret ho hintact ⊢
      obtain ⟨hlive, hblock⟩ := mpAllocLarge_block h.intact.small hret
      exact hintact.block_disjoint hlive hblock (hintact.fixed o ho)
  rw [Heap.mpCalloc, Heap.mpAlloc, hserve, Option.map_some]
  refine ⟨_, rfl, ?_⟩
  split
  · exact hr
  · rename_i hret
    have hret' : (mpCalloc grants.addrs s size).ret ≠ 0 := by
      rw [hr.ret] at hret
      exact hret
    refine ⟨?_, hr.ret, hr.grants⟩
    simp only [hr.ret]
    exact clear_holds hr.heap (hfar hret')

theorem mpMemalign_holds {alignment : ℕ} (h : heap.Holds s [])
    (hchain : s.pool.chain.length ≤ fuel) (hlarge : s.pool.large.length < fuel)
    (hspares : grants.addrs.head?.join.isSome → sizeofLarge ≤ s.pool.max →
      s.Spares sizeofLarge sizeofLarge)
    (hlawful : Lawful (mpMemalign grants.addrs s size alignment).state.trace) :
    ∃ r, heap.mpMemalign fuel grants s.pool.addr size alignment = some r ∧
      r.Holds (mpMemalign grants.addrs s size alignment) [] := by
  match grants with
  | [] => exact ⟨_, rfl, h, rfl, rfl⟩
  | none :: grants => exact ⟨_, rfl, h, rfl, rfl⟩
  | some (p, contents) :: grants =>
    rw [Grants.addrs_some, mpMemalign] at hlawful ⊢
    have hrecord := hlawful.of_suffix (addRecord_suffix _)
    have hobtained := obtain_holds h contents (hrecord.of_suffix mpAlloc_suffix).1
    generalize hheap₁ : heap.obtain alignment ⟨p, size⟩ contents = heap₁ at hobtained
    generalize hs₁ : s.log (.obtain alignment ⟨p, size⟩) = s₁ at hobtained
    have hpool : s₁.pool = s.pool := hs₁ ▸ rfl
    simp only [Heap.mpMemalign, hheap₁]
    rw [hs₁] at hrecord
    rw [← hpool] at hchain hlarge ⊢
    rw [mpAlloc] at hrecord ⊢
    rw [Heap.mpAlloc, hobtained.pool.max]
    by_cases hmax : sizeofLarge ≤ s₁.pool.max
    · rw [if_pos hmax] at hrecord ⊢
      rw [if_pos hmax]
      have hspared : s.Spares sizeofLarge sizeofLarge := hspares rfl (hpool ▸ hmax)
      obtain ⟨r, hr, hholds⟩ :=
        allocSmall_record hobtained hchain hmax (hs₁ ▸ hspared.obtain) hrecord
      exact ⟨_, by rw [hr]; rfl, hholds⟩
    · have hlt := Nat.not_le.mp hmax
      rw [if_neg hmax] at hrecord ⊢
      rw [if_neg hmax]
      obtain ⟨r, hr, hholds⟩ :=
        mpAllocLarge_holds hobtained hchain hlarge (State.largeSpares_of_lt hlt) hrecord
      refine ⟨_, by rw [hr]; rfl, addRecord_holds hholds fun hret => absurd ?_ hret⟩
      exact mpAllocLarge_null hlt (hobtained.intact.small hlt)

/-! ## Calls -/

/-- A call, or a write of the program. -/
inductive Call where
  | mpAlloc (size : ℕ) (grants : Grants)
  | mpNalloc (size : ℕ) (grants : Grants)
  | mpCalloc (size : ℕ) (grants : Grants)
  | mpMemalign (size alignment : ℕ) (grants : Grants)
  | mpFree (p : ℕ)
  | mpResetPool
  | store (a v : ℕ)

/-- The memory after a call, and its result. -/
def Heap.call (fuel : ℕ) (h : Heap) (pool : ℕ) : Call → Option (Heap × ℕ)
  | .mpAlloc size grants => (h.mpAlloc fuel grants pool size).map fun r => (r.heap, r.ret)
  | .mpNalloc size grants => (h.mpNalloc fuel grants pool size).map fun r => (r.heap, r.ret)
  | .mpCalloc size grants => (h.mpCalloc fuel grants pool size).map fun r => (r.heap, r.ret)
  | .mpMemalign size alignment grants =>
    (h.mpMemalign fuel grants pool size alignment).map fun r => (r.heap, r.ret)
  | .mpFree p => (h.mpFree fuel pool p).map fun h => (h, 0)
  | .mpResetPool => (h.mpResetPool fuel pool).map fun h => (h, 0)
  | .store a v => some (h.write a v, 0)

/-- A call without the contents of regions and words: an operation, or a write at an address. -/
def Call.shape : Call → Op ⊕ ℕ
  | .mpAlloc size grants => .inl (.mpAlloc size grants.addrs)
  | .mpNalloc size grants => .inl (.mpNalloc size grants.addrs)
  | .mpCalloc size grants => .inl (.mpCalloc size grants.addrs)
  | .mpMemalign size alignment grants => .inl (.mpMemalign size alignment grants.addrs)
  | .mpFree p => .inl (.mpFree p)
  | .mpResetPool => .inl .mpResetPool
  | .store a _ => .inr a

def State.after (s : State) : Op ⊕ ℕ → State × ℕ
  | .inl op => step s op
  | .inr _ => (s, 0)

/-- Nothing is written over the pool's own data: the records, for which `mp_alloc_large` takes
`request` bytes, and the blocks that `mp_calloc` clears are spared, and the program writes
elsewhere. -/
def State.Spared (s : State) (request : ℕ) : Op ⊕ ℕ → Prop
  | .inl (.mpAlloc size answers) | .inl (.mpNalloc size answers) =>
    s.pool.max < size → s.LargeSpares request answers
  | .inl (.mpCalloc size answers) =>
    (size ≤ s.pool.max → s.Spares size size) ∧
      (s.pool.max < size → s.LargeSpares request answers)
  | .inl (.mpMemalign _ _ answers) => answers.head?.join.isSome → sizeofLarge ≤ s.pool.max →
      s.Spares sizeofLarge sizeofLarge
  | .inl (.mpFree _) | .inl .mpResetPool => True
  | .inr a => ¬ s.pool.Word a

/-- The condition of spatial safety keeps the records and the cleared blocks apart from the pool's
own data. -/
theorem Config.spared {c : Config} {op : Op} (h : c.state.Layout [] c.blocks) (hfits : c.Fits op) :
    c.state.Spared sizeofLarge (.inl op) := by
  have hlarge : ∀ {answers}, c.state.pool.LargeFits answers →
      c.state.LargeSpares sizeofLarge answers
    | some p :: _, hfits => fun hreuse hmax => h.spares (hfits hreuse hmax) hmax (Nat.le_refl _)
    | none :: _, _ => trivial
    | [], _ => trivial
  cases op with
  | mpAlloc size answers => exact fun hsize => hlarge (hfits.2 hsize)
  | mpNalloc size answers => exact fun hsize => hlarge (hfits hsize)
  | mpCalloc size answers =>
    exact ⟨fun hsize => h.spares (hfits.1 hsize) hsize (Nat.le_refl _),
      fun hsize => hlarge (hfits.2 hsize)⟩
  | mpMemalign size alignment answers =>
    exact fun hanswer hmax => h.spares (hfits hanswer hmax) hmax (Nat.le_refl _)
  | mpFree p => trivial
  | mpResetPool => trivial

/-! ### The place and the size of the pool -/

/-- The pool stays at its address, and a call adds at most one node and one record. -/
structure State.Grows (s s' : State) : Prop where
  addr : s'.pool.addr = s.pool.addr
  chain : s'.pool.chain.length ≤ s.pool.chain.length + 1
  large : s'.pool.large.length ≤ s.pool.large.length + 1

theorem State.Grows.same (s : State) (trace : List Event) : s.Grows ⟨s.pool, trace⟩ :=
  ⟨rfl, Nat.le_succ _, Nat.le_succ _⟩

/-- A change of the records that keeps their places. -/
theorem State.Grows.records {large : List Large} {trace : List Event}
    (haddr : large.map (·.addr) = s.pool.large.map (·.addr)) :
    s.Grows ⟨{ s.pool with large := large }, trace⟩ := by
  have hlength := congrArg List.length haddr
  rw [List.length_map, List.length_map] at hlength
  exact ⟨rfl, Nat.le_succ _, Nat.le_trans (Nat.le_of_eq hlength) (Nat.le_succ _)⟩

theorem allocSmall_large (round : ℕ → ℕ) (answers : Answers) (s : State) (size : ℕ) :
    (allocSmall round answers s size).state.pool.large = s.pool.large := by
  rw [allocSmall]
  split
  · exact (replace_same _ _ _).2.2
  · rcases answers with _ | ⟨_ | newNode, answers⟩
    · rfl
    · rfl
    · exact (replace_same _ _ _).2.2

theorem allocSmall_grows (round : ℕ → ℕ) (answers : Answers) (s : State) (size : ℕ) :
    s.Grows (allocSmall round answers s size).state := by
  refine ⟨allocSmall_addr _, ?_, by rw [allocSmall_large]; exact Nat.le_succ _⟩
  rw [allocSmall]
  split
  · rename_i m nodes htake
    have hlength := congrArg List.length (takeFrom_chain htake)
    rw [List.length_map, List.length_map] at hlength
    exact Nat.le_trans (Nat.le_of_eq hlength) (Nat.le_succ _)
  · rcases answers with _ | ⟨_ | newNode, answers⟩
    · exact Nat.le_succ _
    · exact Nat.le_succ _
    · have hlength := fun node => congrArg List.length (addNode_chain s.pool node)
      simp only [List.length_append, List.length_map, List.length_singleton] at hlength
      exact Nat.le_of_eq (hlength _)

/-- One record, if there is memory for it and none has been added before. -/
theorem addRecord_grows {r : Result} (h : s.Grows r.state)
    (hlarge : r.ret ≠ 0 → r.state.pool.large = s.pool.large) : s.Grows (addRecord p r).state := by
  rw [addRecord]
  split
  · exact ⟨h.addr, h.chain, h.large⟩
  · rename_i hret
    refine ⟨h.addr, h.chain, ?_⟩
    simp only [List.length_cons, hlarge hret]
    exact Nat.le_refl _

/-- The call of `mp_alloc` for a record, and the record. -/
theorem record_grows (s : State) (p : ℕ) {answers : Answers}
    (hsmall : s.pool.max < sizeofLarge → s.pool.large = [])
    (hnested : s.pool.max < sizeofLarge → s.Grows (mpAllocLarge answers s sizeofLarge).state) :
    s.Grows (addRecord p (if sizeofLarge ≤ s.pool.max then
      allocSmall mpAlignPtr answers s sizeofLarge
      else mpAllocLarge answers s sizeofLarge)).state := by
  by_cases hmax : sizeofLarge ≤ s.pool.max
  · rw [if_pos hmax]
    exact addRecord_grows (allocSmall_grows _ _ _ _) fun _ => allocSmall_large _ _ _ _
  · have hlt := Nat.not_le.mp hmax
    rw [if_neg hmax]
    exact addRecord_grows (hnested hlt) fun hret =>
      absurd (mpAllocLarge_null hlt (hsmall hlt)) hret

theorem mpAllocLarge_grows {answers : Answers}
    (hsmall : s.pool.max < sizeofLarge → s.pool.large = []) :
    s.Grows (mpAllocLarge answers s size).state := by
  induction answers generalizing s size with
  | nil => exact .same s _
  | cons answer answers ih =>
    cases answer with
    | none => exact .same s _
    | some p =>
      rw [mpAllocLarge]
      split
      · rename_i large hreuse
        exact .records (reuseRecord_addr hreuse)
      · have hnested : s.pool.max < sizeofLarge → (s.log (.obtain 16 ⟨p, size⟩)).Grows
            (mpAllocLarge answers (s.log (.obtain 16 ⟨p, size⟩)) sizeofLarge).state :=
          fun _ => ih hsmall
        obtain ⟨haddr, hchain, hlarge⟩ :=
          record_grows (s.log (.obtain 16 ⟨p, size⟩)) p hsmall hnested
        exact ⟨haddr, hchain, hlarge⟩

theorem serve_grows (round : ℕ → ℕ) {answers : Answers}
    (hsmall : s.pool.max < sizeofLarge → s.pool.large = []) :
    s.Grows (if size ≤ s.pool.max then allocSmall round answers s size
      else mpAllocLarge answers s size).state := by
  split
  · exact allocSmall_grows _ _ _ _
  · exact mpAllocLarge_grows hsmall

theorem mpFree_grows : s.Grows (mpFree s p) := by
  rw [mpFree]
  split
  · exact .same s _
  · rename_i large hdrop
    exact .records (dropBlock_addr hdrop)

theorem after_grows (hsmall : s.pool.max < sizeofLarge → s.pool.large = []) (x : Op ⊕ ℕ) :
    s.Grows (s.after x).1 := by
  cases x with
  | inr a => exact .same s _
  | inl op =>
    cases op with
    | mpAlloc size answers => exact serve_grows mpAlignPtr hsmall
    | mpNalloc size answers => exact serve_grows id hsmall
    | mpCalloc size answers => exact serve_grows mpAlignPtr hsmall
    | mpMemalign size alignment answers =>
      rcases answers with _ | ⟨_ | p, answers⟩
      · exact .same s _
      · exact .same s _
      · have hnested : s.pool.max < sizeofLarge → (s.log (.obtain alignment ⟨p, size⟩)).Grows
            (mpAllocLarge answers (s.log (.obtain alignment ⟨p, size⟩)) sizeofLarge).state :=
          fun _ => mpAllocLarge_grows hsmall
        obtain ⟨haddr, hchain, hlarge⟩ :=
          record_grows (s.log (.obtain alignment ⟨p, size⟩)) p hsmall hnested
        exact ⟨haddr, hchain, hlarge⟩
    | mpFree p => exact mpFree_grows
    | mpResetPool =>
      show s.Grows (mpResetPool s)
      simp only [mpResetPool, freeLarge_pool]
      exact ⟨rfl, by simp [Pool.chain], Nat.zero_le _⟩

theorem after_max (s : State) (x : Op ⊕ ℕ) : (s.after x).1.pool.max = s.pool.max := by
  cases x with
  | inl op => exact step_max s op
  | inr a => rfl

/-- **Refinement.** A call on the memory has the result of the call on the lists. -/
theorem call_holds {c : Call} (h : heap.Holds s []) (hchain : s.pool.chain.length < fuel)
    (hlarge : s.pool.large.length < fuel) (hspared : s.Spared sizeofLarge c.shape)
    (hlawful : Lawful (s.after c.shape).1.trace) :
    ∃ heap', heap.call fuel s.pool.addr c = some (heap', (s.after c.shape).2) ∧
      heap'.Holds (s.after c.shape).1 [] := by
  have hle := Nat.le_of_lt hchain
  cases c with
  | mpAlloc size grants =>
    obtain ⟨r, hr, hholds⟩ := serve_holds h hle hlarge hspared hlawful
    exact ⟨r.heap, Option.map_eq_some_iff.mpr ⟨r, hr, Prod.ext rfl hholds.ret⟩, hholds.heap⟩
  | mpNalloc size grants =>
    obtain ⟨r, hr, hholds⟩ := serve_holds h hle hlarge hspared hlawful
    exact ⟨r.heap, Option.map_eq_some_iff.mpr ⟨r, hr, Prod.ext rfl hholds.ret⟩, hholds.heap⟩
  | mpCalloc size grants =>
    obtain ⟨r, hr, hholds⟩ := mpCalloc_holds h hle hlarge hspared.1 hspared.2 hlawful
    exact ⟨r.heap, Option.map_eq_some_iff.mpr ⟨r, hr, Prod.ext rfl hholds.ret⟩, hholds.heap⟩
  | mpMemalign size alignment grants =>
    obtain ⟨r, hr, hholds⟩ := mpMemalign_holds h hle hlarge hspared hlawful
    exact ⟨r.heap, Option.map_eq_some_iff.mpr ⟨r, hr, Prod.ext rfl hholds.ret⟩, hholds.heap⟩
  | mpFree p =>
    obtain ⟨heap', hfree, hholds⟩ := mpFree_holds (p := p) h hlarge
    exact ⟨heap', Option.map_eq_some_iff.mpr ⟨heap', hfree, rfl⟩, hholds⟩
  | mpResetPool =>
    obtain ⟨heap', hreset, hholds⟩ := mpResetPool_holds h hchain hlarge
    exact ⟨heap', Option.map_eq_some_iff.mpr ⟨heap', hreset, rfl⟩, hholds⟩
  | store a v =>
    refine ⟨_, rfl, ⟨h.pool.congr fun b hb => Function.update_of_ne ?_ _ _, h.trace⟩, h.intact⟩
    rintro rfl
    exact hspared hb

/-! ## Runs -/

/-- Nothing is written over the pool's own data, and the system keeps its contract. -/
def State.Careful (s : State) (x : Op ⊕ ℕ) : Prop :=
  s.Spared sizeofLarge x ∧ Lawful (s.after x).1.trace

instance (s : State) (request : ℕ) : (answers : Answers) →
    Decidable (s.LargeSpares request answers)
  | some _ :: _ => inferInstanceAs (Decidable (_ → _))
  | none :: _ => .isTrue trivial
  | [] => .isTrue trivial

instance (s : State) (request : ℕ) : (x : Op ⊕ ℕ) → Decidable (s.Spared request x)
  | .inl (.mpAlloc _ _) | .inl (.mpNalloc _ _) => inferInstanceAs (Decidable (_ → _))
  | .inl (.mpCalloc _ _) => inferInstanceAs (Decidable ((_ → _) ∧ (_ → _)))
  | .inl (.mpMemalign _ _ _) => inferInstanceAs (Decidable (_ → _))
  | .inl (.mpFree _) | .inl .mpResetPool => .isTrue trivial
  | .inr _ => inferInstanceAs (Decidable (¬ _))

instance (s : State) (x : Op ⊕ ℕ) : Decidable (s.Careful x) :=
  inferInstanceAs (Decidable (_ ∧ _))

/-- The state that the memory shows decides. -/
def Heap.Careful (pool : ℕ) (h : Heap) (c : Call) : Prop :=
  ∃ s, h.Shows s ∧ s.pool.addr = pool ∧ s.Careful c.shape

def State.next (s : State) (x : Op ⊕ ℕ) : Option State := some (s.after x).1

def Heap.next (fuel pool : ℕ) (h : Heap) (c : Call) : Option Heap :=
  (h.call fuel pool c).map Prod.fst

theorem Heap.Shows.unique {t : State} (h : heap.Shows s) (h' : heap.Shows t)
    (haddr : s.pool.addr = t.pool.addr) : s = t := by
  have hpool := h.pool.unique h'.pool haddr
  have htrace := h.trace.symm.trans h'.trace
  cases s
  cases t
  simp_all only

theorem Heap.Careful.of_shows {c : Call} (h : heap.Careful s.pool.addr c) (hs : heap.Shows s) :
    s.Careful c.shape := by
  obtain ⟨t, ht, haddr, hcareful⟩ := h
  rw [hs.unique ht haddr.symm]
  exact hcareful

/-- There is room for the nodes and the records of some more calls. -/
structure State.Room (s : State) (fuel calls : ℕ) : Prop where
  chain : s.pool.chain.length + calls < fuel
  large : s.pool.large.length + calls < fuel

/-- A careful run of the lists is one of the memory. -/
theorem admits_of_shapes {calls : List Call} (h : heap.Holds s [])
    (hroom : s.Room fuel calls.length)
    (hcareful : Admits State.next State.Careful s (calls.map Call.shape)) :
    Admits (Heap.next fuel s.pool.addr) (Heap.Careful s.pool.addr) heap calls := by
  induction calls generalizing heap s with
  | nil => trivial
  | cons c cs ih =>
    obtain ⟨hguard, hrest⟩ := hcareful
    obtain ⟨hchain, hlarge⟩ := hroom
    rw [List.length_cons] at hchain hlarge
    have hltChain : s.pool.chain.length < fuel := by omega
    have hltLarge : s.pool.large.length < fuel := by omega
    obtain ⟨k, hcall, hk⟩ := call_holds h hltChain hltLarge hguard.1 hguard.2
    obtain ⟨haddr, hgrowsChain, hgrowsLarge⟩ := after_grows h.intact.small c.shape
    refine ⟨⟨s, h.toShows, rfl, hguard⟩, fun k' hnext => ?_⟩
    rw [Heap.next, hcall] at hnext
    cases hnext
    rw [← haddr]
    exact ih hk ⟨by omega, by omega⟩ (hrest _ rfl)

/-- The memory holds what the run of the lists ends with. -/
theorem exec_of_shapes {calls : List Call} {t : State} (h : heap.Holds s [])
    (hroom : s.Room fuel calls.length)
    (hcareful : Admits State.next State.Careful s (calls.map Call.shape))
    (hexec : exec State.next s (calls.map Call.shape) = some t) :
    ∃ heap', exec (Heap.next fuel s.pool.addr) heap calls = some heap' ∧ heap'.Holds t [] := by
  induction calls generalizing heap s with
  | nil =>
    cases hexec
    exact ⟨heap, rfl, h⟩
  | cons c cs ih =>
    obtain ⟨hguard, hrest⟩ := hcareful
    obtain ⟨hchain, hlarge⟩ := hroom
    rw [List.length_cons] at hchain hlarge
    have hltChain : s.pool.chain.length < fuel := by omega
    have hltLarge : s.pool.large.length < fuel := by omega
    obtain ⟨k, hcall, hk⟩ := call_holds h hltChain hltLarge hguard.1 hguard.2
    obtain ⟨haddr, hgrowsChain, hgrowsLarge⟩ := after_grows h.intact.small c.shape
    have hroom : (s.after c.shape).1.Room fuel cs.length := ⟨by omega, by omega⟩
    obtain ⟨heap', hrun, hheld⟩ := ih hk hroom (hrest _ rfl) hexec
    refine ⟨heap', ?_, hheld⟩
    rw [haddr] at hrun
    rw [exec, Heap.next, hcall]
    exact hrun

end ServerKit.Mempool
