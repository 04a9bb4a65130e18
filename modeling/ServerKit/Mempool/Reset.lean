import ServerKit.Lib.FirstFit
import ServerKit.Lib.Transducer
import ServerKit.Mempool.Failures

/-! # What a reset gives back

Seen from the outside, a pool serves small blocks by first fit from its nodes. `mp_reset_pool`
empties the nodes, but leaves `current` where it is, and `yzx_mempool.c` leaves out the head. -/

namespace ServerKit.Mempool

open ServerKit.System ServerKit.SystemHeap ServerKit.WordMemory

/-! ## First fit -/

/-- A request for a small block: the rounding of `last`, the size, and the answers of the
system. -/
structure Small where
  round : ℕ → ℕ
  size : ℕ
  answers : Answers

/-- A block from a node. -/
def Extent.fit (request : Small) (e : Extent) : Option (ℕ × Extent) :=
  let m := request.round e.last
  if sub64 e.endPtr m ≥ request.size then some (m, { e with last := add64 m request.size })
  else none

/-- A block from a new node of the size of the first one. -/
def Extent.extend (request : Small) (nodes : List Extent) : Option (ℕ × Extent) :=
  request.answers.head?.join.bind fun newNode => nodes.head?.map fun head =>
    let m := mpAlignPtr (add64 newNode sizeofNode)
    (m, ⟨newNode, add64 m request.size, add64 newNode (sub64 head.endPtr head.addr)⟩)

/-- What the functions of the pool return. -/
def firstFit (nodes : List Extent) (request : Small) : List Extent × ℕ :=
  let served := FirstFit.step Extent.fit Extent.extend nodes request
  (served.1, served.2.getD 0)

variable {s : State} {request : Small}

theorem takeFrom_extents (nodes : List Node) :
    (takeFrom request.round request.size nodes).map
        (fun taken => (taken.1, taken.2.map Node.extent)) =
      FirstFit.serve Extent.fit request (nodes.map Node.extent) := by
  induction nodes with
  | nil => rfl
  | cons p rest ih =>
      rw [takeFrom, List.map_cons, FirstFit.serve, Extent.fit, ← ih]
      by_cases htest : sub64 p.endPtr (request.round p.last) ≥ request.size
      · simp [Node.extent, htest]
      · simp [Node.extent, htest, Function.comp_def]

/-- From `current` on, it is first fit as well when no node in front of it has room. -/
theorem allocSmall_firstFit
    (hfront : ∀ n ∈ s.pool.chain.take s.pool.current, n.extent.fit request = none) :
    ((allocSmall request.round request.answers s request.size).state.pool.extents,
        (allocSmall request.round request.answers s request.size).ret) =
      firstFit s.pool.extents request := by
  have hsplit : s.pool.extents = (s.pool.chain.take s.pool.current).map Node.extent ++
      (s.pool.chain.drop s.pool.current).map Node.extent := by
    rw [← List.map_append, List.take_append_drop]
    rfl
  have hserve : FirstFit.serve Extent.fit request s.pool.extents =
      ((takeFrom request.round request.size (s.pool.chain.drop s.pool.current)).map
        fun taken => (taken.1, taken.2.map Node.extent)).map fun served =>
          (served.1, (s.pool.chain.take s.pool.current).map Node.extent ++ served.2) := by
    rw [hsplit, FirstFit.serve_append (List.forall_mem_map.mpr hfront), takeFrom_extents]
  rw [firstFit, FirstFit.step, hserve, allocSmall]
  cases htake : takeFrom request.round request.size (s.pool.chain.drop s.pool.current) with
  | some taken =>
      have hchain : (s.pool.replace taken.2 s.pool.current).chain = _ :=
        replace_chain (takeFrom_ne_nil htake)
      simp [Pool.extents, hchain]
  | none =>
      rcases hanswers : request.answers with - | ⟨- | newNode, answers⟩
      · simp [mpAllocBlock, Extent.extend, hanswers]
      · simp [mpAllocBlock, Extent.extend, hanswers]
      · have hhead : s.pool.extents.head? = some s.pool.head.extent := rfl
        simp only [mpAllocBlock, Extent.extend, hanswers, hhead]
        refine Prod.ext (replace_extents (by simp) ?_) rfl
        rw [List.map_append, countFailures_map fun _ _ => rfl]
        rfl

/-! ## The two files -/

/-- A reset on the lists. -/
def Source.reset : Source → State → State
  | .mmpool => Mempool.mpResetPool
  | .yzxMempool => Yzx.resetAfter

/-- The functions that serve small blocks. -/
inductive Kind where
  | alloc
  | nalloc
  | calloc
  deriving DecidableEq

/-- A call of one of these. -/
structure Request where
  kind : Kind
  size : ℕ
  grants : Grants

def Request.call (r : Request) : Call :=
  match r.kind with
  | .alloc => .mpAlloc r.size r.grants
  | .nalloc => .mpNalloc r.size r.grants
  | .calloc => .mpCalloc r.size r.grants

def Request.small (r : Request) : Small where
  round := match r.kind with
    | .alloc | .calloc => mpAlignPtr
    | .nalloc => id
  size := r.size
  answers := r.grants.addrs

/-- A request and its result. -/
def Source.serve (fuel pool : ℕ) (src : Source) (h : Heap) (r : Request) : Option (Heap × ℕ) :=
  match src with
  | .mmpool => h.call fuel pool r.call
  | .yzxMempool => (Yzx.call fuel h pool r.call).bind fun (h, ret) => ret.map fun p => (h, p)

variable {src : Source} {heap heap' : Heap} {fuel p size : ℕ} {contents : ℕ → ℕ} {r : Request}

/-- A small block of either file. -/
theorem Source.serve_holds (h : heap.Holds s []) (hchain : s.pool.chain.length < fuel)
    (hlarge : s.pool.large.length < fuel) (hsize : r.size ≤ s.pool.max)
    (hcareful : src.Careful s.pool.addr heap r.call) :
    ∃ heap', src.serve fuel s.pool.addr heap r =
        some (heap', (allocSmall r.small.round r.small.answers s r.small.size).ret) ∧
      src.next fuel s.pool.addr heap r.call = some heap' ∧
      heap'.Holds (allocSmall r.small.round r.small.answers s r.small.size).state [] := by
  obtain ⟨kind, size, grants⟩ := r
  cases src with
  | mmpool =>
      obtain ⟨hspared, hlawful⟩ := Heap.Careful.of_shows hcareful h.toShows
      obtain ⟨k, hcall, hk⟩ := call_holds h hchain hlarge hspared hlawful
      have hafter : s.after (Request.call ⟨kind, size, grants⟩).shape =
          ((allocSmall (Request.small ⟨kind, size, grants⟩).round grants.addrs s size).state,
            (allocSmall (Request.small ⟨kind, size, grants⟩).round grants.addrs s size).ret) := by
        cases kind <;>
          simp [Request.call, Request.small, Call.shape, State.after, step, mpAlloc, mpNalloc,
            mpCalloc, show size ≤ s.pool.max from hsize]
      rw [hafter] at hcall hk
      refine ⟨k, hcall, ?_, hk⟩
      rw [Source.next, Heap.next, hcall]
      rfl
  | yzxMempool =>
      obtain ⟨hspared, hlawful⟩ := Yzx.Careful.of_shows hcareful h.toShows
      have hafter : Yzx.after s (Request.call ⟨kind, size, grants⟩).shape =
          (allocSmall (Request.small ⟨kind, size, grants⟩).round grants.addrs s size).state := by
        cases kind <;>
          simp [Request.call, Request.small, Call.shape, Yzx.after, Yzx.serveAfter,
            show size ≤ s.pool.max from hsize]
      have hserved := hlawful
      rw [hafter] at hserved
      obtain ⟨k, hk, hheld⟩ := allocSmall_holds h (Nat.le_of_lt hchain) hserved
      obtain ⟨heap', hcall⟩ : ∃ heap', Yzx.call fuel heap s.pool.addr
          (Request.call ⟨kind, size, grants⟩) = some (heap', some k.ret) := by
        have hmax : size ≤ heap.mem s.pool.addr := h.pool.max ▸ hsize
        cases kind with
        | alloc =>
            have halloc : heap.allocSmall fuel mpAlignPtr grants s.pool.addr size = some k := hk
            exact ⟨k.heap, by simp [Request.call, Yzx.call, Yzx.mpAlloc, hmax, halloc]⟩
        | nalloc =>
            have halloc : heap.allocSmall fuel id grants s.pool.addr size = some k := hk
            exact ⟨k.heap, by simp [Request.call, Yzx.call, Yzx.mpNalloc, hmax, halloc]⟩
        | calloc =>
            have halloc : heap.allocSmall fuel mpAlignPtr grants s.pool.addr size = some k := hk
            exact ⟨if k.ret = 0 then k.heap else k.heap.clear k.ret size,
              by simp [Request.call, Yzx.call, Yzx.mpCalloc, Yzx.mpAlloc, hmax, halloc]⟩
      have hholds := Yzx.call_holds h hchain hlarge hspared hlawful hcall
      rw [hafter] at hholds
      refine ⟨heap', ?_, ?_, hholds⟩
      · rw [Source.serve, hcall, hheld.ret]
        rfl
      · rw [Source.next, Yzx.next, hcall]
        rfl

/-- A reset of either file. -/
theorem Source.reset_holds (h : heap.Holds s []) (hchain : s.pool.chain.length < fuel)
    (hlarge : s.pool.large.length < fuel)
    (hnext : src.next fuel s.pool.addr heap .mpResetPool = some heap') :
    heap'.Holds (src.reset s) [] := by
  cases src with
  | mmpool =>
      obtain ⟨k, hreset, hk⟩ := mpResetPool_holds h hchain hlarge
      rw [Source.next, Heap.next, Heap.call, hreset] at hnext
      cases hnext
      exact hk
  | yzxMempool =>
      obtain ⟨k, hreset, hk⟩ := Yzx.mpResetPool_holds h hchain hlarge
      rw [Source.next, Yzx.next, Yzx.call, hreset] at hnext
      cases hnext
      exact hk

theorem Source.reset_grows (src : Source) (hsmall : s.pool.max < sizeofLarge → s.pool.large = []) :
    s.Grows (src.reset s) := by
  cases src with
  | mmpool => exact after_grows hsmall (.inl .mpResetPool)
  | yzxMempool => exact Yzx.after_grows s (.inl .mpResetPool)

/-! ## The requests behind a reset -/

/-- Where `last` is in a node without blocks: behind what `mp_create_pool` takes for the header
of the head, and behind the header of the other nodes. -/
def Source.emptyLast (pool a : ℕ) : Source → ℕ
  | .mmpool => add64 a sizeofNode
  | .yzxMempool =>
    if a = pool + 24 then add64 pool (sizeofPool + Yzx.sizeofSize) else add64 a sizeofNode

/-- These nodes as they lie in memory, and as they are without blocks. -/
def extentsAt (mem : ℕ → ℕ) (nodes : List ℕ) : List Extent :=
  nodes.map fun a => ⟨a, mem a, mem (a + 8)⟩

def Source.emptied (src : Source) (pool : ℕ) (mem : ℕ → ℕ) (nodes : List ℕ) : List Extent :=
  nodes.map fun a => ⟨a, src.emptyLast pool a, mem (a + 8)⟩

theorem Source.emptied_extents (src : Source) (pool : ℕ) (mem : ℕ → ℕ) (nodes : List ℕ) :
    src.emptied pool mem nodes =
      (extentsAt mem nodes).map fun e => { e with last := src.emptyLast pool e.addr } := by
  simp [Source.emptied, extentsAt]

/-- The requests are served as by first fit from the nodes of the chain, all of them empty. -/
def Source.Reclaims (fuel pool : ℕ) (src : Source) (heap : Heap) (requests : List Request) :
    Prop :=
  ∃ nodes heap' nodes', Linked heap.mem 16 (pool + 24) nodes ∧
    Linked heap'.mem 16 (pool + 24) nodes' ∧
    Transducer.run (src.serve fuel pool) heap requests =
      some (heap', (Transducer.runTotal firstFit (src.emptied pool heap.mem nodes)
        (requests.map Request.small)).2) ∧
    extentsAt heap'.mem nodes' =
      (Transducer.runTotal firstFit (src.emptied pool heap.mem nodes)
        (requests.map Request.small)).1

/-- No node in front of `current` has room for the request. -/
def Heap.FrontFull (pool : ℕ) (h : Heap) (r : Request) : Prop :=
  ∀ front rest, Linked h.mem 16 (pool + 24) (front ++ h.mem (pool + 8) :: rest) →
    ∀ e ∈ extentsAt h.mem front, e.fit r.small = none

/-- `mp_reset_pool` of `yzx_mempool.c` finds the head without blocks. -/
def Source.HeadEmpty (pool : ℕ) (h : Heap) : Source → Prop
  | .mmpool => True
  | .yzxMempool => h.mem (pool + 24) = Source.emptyLast pool (pool + 24) .yzxMempool

/-- The nodes of the state are those in memory. -/
theorem Represents.extents {mem : ℕ → ℕ} {pool : Pool} (h : Represents mem pool)
    {nodes : List Node} (hsub : ∀ n ∈ nodes, n ∈ pool.chain) :
    extentsAt mem (nodes.map (·.addr)) = nodes.map Node.extent := by
  rw [extentsAt, List.map_map]
  apply List.map_congr_left
  intro n hn
  obtain ⟨hlast, hend, -⟩ := h.nodes n (hsub n hn)
  simp only [Function.comp_apply, Node.extent, hlast, hend]

theorem Heap.FrontFull.of_holds (h : heap.FrontFull s.pool.addr r) (hs : heap.Holds s []) :
    ∀ n ∈ s.pool.chain.take s.pool.current, n.extent.fit r.small = none := by
  have hcurrent := hs.pool.current
  obtain ⟨hlt, hget⟩ := List.getElem?_eq_some_iff.mp hcurrent
  have hsplit : s.pool.chain.map (·.addr) =
      (s.pool.chain.take s.pool.current).map (·.addr) ++ heap.mem (s.pool.addr + 8) ::
        (s.pool.chain.map (·.addr)).drop (s.pool.current + 1) := by
    rw [← hget, List.getElem_cons_drop, List.map_take, List.take_append_drop]
  have hlinked := hs.pool.chain
  rw [hs.pool.head, hsplit] at hlinked
  have hfit := h _ _ hlinked
  rw [hs.pool.extents fun n hn => List.mem_of_mem_take hn] at hfit
  exact List.forall_mem_map.mp hfit

/-- While `current` is the head, there is nothing in front of it. -/
theorem frontFull_of_head (hhead : heap.mem (p + 8) = p + 24) (r : Request) :
    heap.FrontFull p r := by
  intro front rest hlinked
  rw [hhead] at hlinked
  cases front with
  | nil => exact fun e he => absurd he List.not_mem_nil
  | cons a front =>
      have hnodup := hlinked.nodup
      obtain ⟨rfl, -, -⟩ := hlinked
      simp at hnodup

/-- A reset empties the nodes. -/
theorem Source.reset_last (h : heap.Holds (src.reset s) [])
    (hhead : src.HeadEmpty (src.reset s).pool.addr heap) {n : Node}
    (hn : n ∈ (src.reset s).pool.chain) :
    n.last = src.emptyLast (src.reset s).pool.addr n.addr := by
  cases src with
  | mmpool =>
      have hchain : (Source.mmpool.reset s).pool.chain = s.pool.chain.map Node.reset := by
        simp only [Source.reset, mpResetPool, freeLarge_pool]
        rfl
      rw [hchain] at hn
      obtain ⟨k, -, rfl⟩ := List.mem_map.mp hn
      rfl
  | yzxMempool =>
      have hlinked := h.pool.chain.nodup
      rw [Pool.chain, List.map_cons, List.nodup_cons, h.pool.head] at hlinked
      rcases List.mem_cons.mp hn with rfl | hbehind
      · rw [← (h.pool.nodes _ hn).last, h.pool.head]
        exact hhead
      · have hne : n.addr ≠ (Source.yzxMempool.reset s).pool.addr + 24 := by
          intro heq
          exact hlinked.1 (heq ▸ List.mem_map_of_mem hbehind)
        obtain ⟨k, -, rfl⟩ := List.mem_map.mp hbehind
        rw [Source.emptyLast, if_neg hne]
        rfl

theorem Source.reset_extents (h : heap.Holds (src.reset s) [])
    (hhead : src.HeadEmpty (src.reset s).pool.addr heap) :
    (src.reset s).pool.extents =
      src.emptied (src.reset s).pool.addr heap.mem ((src.reset s).pool.chain.map (·.addr)) := by
  rw [Source.emptied, List.map_map]
  apply List.map_congr_left
  intro n hn
  simp only [Function.comp_apply, Node.extent, (h.pool.nodes n hn).endPtr,
    Source.reset_last h hhead hn]

/-- The requests of a careful run are served by first fit while no node in front of `current` has
room for them. -/
theorem Source.serve_run {requests : List Request} (h : heap.Holds s [])
    (hroom : s.Room fuel requests.length) (hsizes : ∀ r ∈ requests, r.size ≤ s.pool.max)
    (hcareful : Admits (src.next fuel s.pool.addr) (src.Careful s.pool.addr) heap
      (requests.map Request.call))
    (hfront : Transducer.Admits (Heap.FrontFull s.pool.addr) (src.serve fuel s.pool.addr) heap
      requests) :
    ∃ heap' t, Transducer.run (src.serve fuel s.pool.addr) heap requests =
        some (heap', (Transducer.runTotal firstFit s.pool.extents
          (requests.map Request.small)).2) ∧
      heap'.Holds t [] ∧ t.pool.addr = s.pool.addr ∧
      t.pool.extents =
        (Transducer.runTotal firstFit s.pool.extents (requests.map Request.small)).1 := by
  induction requests generalizing heap s with
  | nil => exact ⟨heap, s, rfl, h, rfl, rfl⟩
  | cons r requests ih =>
      obtain ⟨hguard, hrest⟩ := hcareful
      obtain ⟨hfull, hfulls⟩ := hfront
      obtain ⟨hchain, hlarge⟩ := hroom
      rw [List.length_cons] at hchain hlarge
      have hltChain : s.pool.chain.length < fuel := by omega
      have hltLarge : s.pool.large.length < fuel := by omega
      obtain ⟨k, hserve, hnext, hk⟩ :=
        Source.serve_holds h hltChain hltLarge (hsizes r List.mem_cons_self) hguard
      have hfit := allocSmall_firstFit (hfull.of_holds h)
      have hgrows := allocSmall_grows r.small.round r.small.answers s r.small.size
      have hmax : (allocSmall r.small.round r.small.answers s r.small.size).state.pool.max =
          s.pool.max := allocSmall_max r.small.round
      have hsizes' := fun q hq => hsizes q (List.mem_cons_of_mem r hq)
      have hadmits := hrest k hnext
      have hfulls' := hfulls _ hserve
      generalize allocSmall r.small.round r.small.answers s r.small.size = result at *
      obtain ⟨hsame, hgrowsChain, hgrowsLarge⟩ := hgrows
      rw [← hmax] at hsizes'
      rw [← hsame] at hadmits hfulls'
      have hroom : result.state.Room fuel requests.length := ⟨by omega, by omega⟩
      obtain ⟨heap', t, hrun, hheld, haddr, hextents⟩ := ih hk hroom hsizes' hadmits hfulls'
      rw [hsame] at hrun haddr
      refine ⟨heap', t, ?_, hheld, haddr, ?_⟩
      · simp [Transducer.run, Transducer.runTotal, hserve, hrun, ← hfit]
      · simpa [Transducer.runTotal, ← hfit] using hextents

/-- **The reset.** In every careful run of either file, the requests for small blocks behind a
reset are served as by first fit from empty nodes, as long as no node in front of `current` has
room for them; `yzx_mempool.c` must not have taken a block from the head. -/
theorem reset_reclaims {history : List Call} {requests : List Request} (hsize : SizeFits size)
    (hroomy : src.Roomy size) (hnull : (src.createPool p size contents).mem (p + 40) = 0)
    (hlawful : Lawful (src.createPool p size contents).trace)
    (hcareful : Admits (src.next fuel p) (src.Careful p) (src.createPool p size contents)
      (history ++ .mpResetPool :: requests.map Request.call))
    (hfuel : history.length + requests.length + 2 < fuel)
    (hexec : exec (src.next fuel p) (src.createPool p size contents)
      (history ++ [.mpResetPool]) = some heap)
    (hsizes : ∀ r ∈ requests, r.size ≤ heap.mem p) (hhead : src.HeadEmpty p heap)
    (hfront : Transducer.Admits (Heap.FrontFull p) (src.serve fuel p) heap requests) :
    src.Reclaims fuel p heap requests := by
  obtain ⟨s₀, hs₀, rfl, hchain₀, hlarge₀⟩ := Source.holds_created hsize hroomy hnull hlawful
  obtain ⟨hbefore, hafter⟩ := hcareful.append
  rw [exec_append] at hexec
  obtain ⟨mid, hmid, hreset⟩ := Option.bind_eq_some_iff.mp hexec
  obtain ⟨k, hnext, hend⟩ := Option.bind_eq_some_iff.mp hreset
  cases hend
  have hroom : s₀.Room fuel (history.length + (requests.length + 1)) :=
    ⟨by rw [hchain₀]; omega, by rw [hlarge₀, List.length_nil]; omega⟩
  obtain ⟨s, hs, haddr, -, hchain, hlarge⟩ := Source.holds_exec hs₀ hroom hbefore hmid
  obtain ⟨hguard, hrest⟩ := hafter mid hmid
  rw [← haddr] at hnext hguard
  have hk := Source.reset_holds hs (by omega) (by omega) hnext
  obtain ⟨hsame, hgrowsChain, hgrowsLarge⟩ := src.reset_grows hs.intact.small
  rw [haddr] at hsame
  have hmax : heap.mem s₀.pool.addr = (src.reset s).pool.max := by rw [← hsame, hk.pool.max]
  have hadmits := hrest heap (haddr ▸ hnext)
  rw [hmax] at hsizes
  rw [← hsame] at hadmits hfront hhead ⊢
  obtain ⟨heap', t, hrun, hheld, haddr', hextents⟩ :=
    Source.serve_run hk ⟨by omega, by omega⟩ hsizes hadmits hfront
  rw [Source.reset_extents hk hhead] at hrun hextents
  refine ⟨_, heap', t.pool.chain.map (·.addr), ?_, ?_, hrun, ?_⟩
  · rw [← hk.pool.head]
    exact hk.pool.chain
  · rw [← haddr', ← hheld.pool.head]
    exact hheld.pool.chain
  · rw [hheld.pool.extents fun n hn => hn]
    exact hextents

/-- Two blocks, the second one from a new node, a reset, and a block. -/
theorem reset_reclaims_twoNodes :
    ∃ heap, exec (Source.mmpool.next 12 4096) (Source.mmpool.createPool 4096 104 fun _ => 0)
        ([.mpAlloc 64 [], .mpAlloc 64 [some (8192, fun _ => 0)]] ++ [.mpResetPool]) = some heap ∧
      Source.mmpool.Reclaims 12 4096 heap [⟨.calloc, 100, [some (16384, fun _ => 0)]⟩] := by
  obtain ⟨heap, hexec, hmax, hcurrent⟩ : ∃ heap, exec (Source.mmpool.next 12 4096)
      (Source.mmpool.createPool 4096 104 fun _ => 0)
      ([.mpAlloc 64 [], .mpAlloc 64 [some (8192, fun _ => 0)]] ++ [.mpResetPool]) = some heap ∧
        heap.mem 4096 = 104 ∧ heap.mem (4096 + 8) = 4096 + 24 := ⟨_, rfl, rfl, rfl⟩
  have hroomy : Source.mmpool.Roomy 104 := trivial
  refine ⟨heap, hexec, reset_reclaims (by decide) hroomy rfl (by decide) ?_ (by decide) hexec ?_
    trivial ⟨frontFull_of_head hcurrent _, fun _ _ => trivial⟩⟩
  · exact admits_of_shapes (createPool_holds (by decide) (by decide) rfl) ⟨by decide, by decide⟩
      (by decide +kernel)
  · rw [hmax]
    decide

/-- Eight blocks, of which the last seven are from new nodes, and a reset. -/
def eightNodes : List Call :=
  .mpAlloc 64 [] ::
    ((List.range 7).map fun i => .mpAlloc 64 [some (8192 + 4096 * i, fun _ => 0)]) ++
    [.mpResetPool]

/-- What is left on the lists: the nodes, all of them empty, and the block that comes next. -/
theorem eightNodes_lists :
    (exec State.next (mpCreatePool 4096 104) (eightNodes.map Call.shape)).map (fun t =>
        (t.pool.addr, t.pool.max, t.pool.large, t.pool.extents,
          (allocSmall mpAlignPtr [] t 64).ret)) =
      some (4096, 104, [], ⟨4120, 4152, 4256⟩ :: (List.range 7).map fun i =>
        ⟨8192 + 4096 * i, 8224 + 4096 * i, 8328 + 4096 * i⟩, 8224) := by
  decide +kernel

theorem eightNodes_careful :
    Admits (Source.mmpool.next 12 4096) (Source.mmpool.Careful 4096)
      (Source.mmpool.createPool 4096 104 fun _ => 0)
      (eightNodes ++ [Request.call ⟨.alloc, 64, []⟩]) :=
  admits_of_shapes (createPool_holds (by decide) (by decide) rfl) ⟨by decide, by decide⟩
    (by decide +kernel)

theorem eightNodes_holds {t : State}
    (h : exec State.next (mpCreatePool 4096 104) (eightNodes.map Call.shape) = some t) :
    ∃ heap, exec (Source.mmpool.next 12 4096) (Source.mmpool.createPool 4096 104 fun _ => 0)
        eightNodes = some heap ∧ heap.Holds t [] := by
  have hcreated : (createPool 4096 104 fun _ => 0).Holds (mpCreatePool 4096 104) [] :=
    createPool_holds (by decide) (by decide) rfl
  have hroom : (mpCreatePool 4096 104).Room 12 eightNodes.length := ⟨by decide, by decide⟩
  have hcareful : Admits State.next State.Careful (mpCreatePool 4096 104)
      (eightNodes.map Call.shape) := by
    decide +kernel
  obtain ⟨heap, hrun, hheld⟩ := exec_of_shapes hcreated hroom hcareful h
  exact ⟨heap, hrun, hheld⟩

/-- The head is empty behind the reset, and is not searched. -/
theorem reset_misses_head :
    Admits (Source.mmpool.next 12 4096) (Source.mmpool.Careful 4096)
        (Source.mmpool.createPool 4096 104 fun _ => 0)
        (eightNodes ++ [Request.call ⟨.alloc, 64, []⟩]) ∧
      ∃ heap, exec (Source.mmpool.next 12 4096) (Source.mmpool.createPool 4096 104 fun _ => 0)
          eightNodes = some heap ∧
        ¬ Source.mmpool.Reclaims 12 4096 heap [⟨.alloc, 64, []⟩] := by
  obtain ⟨t, hexec, hlists⟩ := Option.map_eq_some_iff.mp eightNodes_lists
  obtain ⟨heap, hrun, hheld⟩ := eightNodes_holds hexec
  refine ⟨eightNodes_careful, heap, hrun, ?_⟩
  rintro ⟨nodes, heap', nodes', hlinked, -, hserve, -⟩
  simp only [Prod.mk.injEq] at hlists
  obtain ⟨haddr, hmax, hlarge, hextents, hret⟩ := hlists
  have hlength : t.pool.chain.length = 8 := by
    simpa [Pool.extents] using congrArg List.length hextents
  have hchain : t.pool.chain.length < 12 := by omega
  have hrecords : t.pool.large.length < 12 := by simp [hlarge]
  have hguard : Source.mmpool.Careful t.pool.addr heap (Request.call ⟨.alloc, 64, []⟩) := by
    rw [haddr]
    exact (eightNodes_careful.append.2 heap hrun).1
  obtain ⟨k, hcall, -, -⟩ := Source.serve_holds hheld hchain hrecords
    (show 64 ≤ t.pool.max by omega) hguard
  have hnodes : nodes = t.pool.chain.map (·.addr) := by
    have hlinked' := hheld.pool.chain
    rw [hheld.pool.head, haddr] at hlinked'
    exact hlinked.unique hlinked'
  have hempty : Source.mmpool.emptied 4096 heap.mem nodes = t.pool.extents := by
    rw [Source.emptied_extents, hnodes, hheld.pool.extents fun n hn => hn]
    show t.pool.extents.map _ = _
    rw [hextents]
    rfl
  rw [hempty, hextents] at hserve
  rw [haddr] at hcall
  have hreply : (allocSmall mpAlignPtr [] t 64).ret = 4160 := by
    simp only [Transducer.run, hcall, Option.bind_some, Option.map_some, Option.some.injEq,
      Prod.mk.injEq] at hserve
    have hreplies : [(allocSmall mpAlignPtr [] t 64).ret] = [4160] :=
      hserve.2.trans (by decide +kernel)
    exact List.head_eq_of_cons_eq hreplies
  omega

end ServerKit.Mempool
