import ServerKit.Lib.SystemHeap

/-! # The memory pool of `mmpool注释版本.c`

Addresses are natural numbers below `2 ^ 64`, and `NULL` is 0. The fields of the pool, of
its nodes and of its records of large blocks are kept apart from the memory that it hands
out, so that only the assignments of its own code change them; the memory of words, where the
pool's writes may meet its own fields, stands for the same lists as long as nothing is
overwritten. `malloc` and `posix_memalign` are answered by the environment: every call takes the
answers that it may use up, a missing one being a failure. -/

namespace ServerKit.Mempool

open ServerKit.SystemHeap

def MP_ALIGNMENT : ℕ := 32
def MP_PAGE_SIZE : ℕ := 4096
def MP_MAX_ALLOC_FROM_POOL : ℕ := MP_PAGE_SIZE - 1

/-- `sizeof(struct mp_large_s)`. -/
def sizeofLarge : ℕ := 16

/-- `sizeof(struct mp_node_s)`. -/
def sizeofNode : ℕ := 32

/-- `sizeof(struct mp_pool_s)`. -/
def sizeofPool : ℕ := 24

/-- A sum of pointers and sizes. -/
def add64 (a b : ℕ) : ℕ := (a + b) % 2 ^ 64

/-- A difference of pointers, as a `size_t`. -/
def sub64 (a b : ℕ) : ℕ := (a + 2 ^ 64 - b) % 2 ^ 64

/-- `mp_align_ptr(p, MP_ALIGNMENT)`. -/
def mpAlignPtr (p : ℕ) : ℕ := add64 p (MP_ALIGNMENT - 1) / MP_ALIGNMENT * MP_ALIGNMENT

/-- A `struct mp_large_s` at the address `addr`. -/
structure Large where
  addr : ℕ
  alloc : ℕ
  deriving DecidableEq, Repr

/-- A `struct mp_node_s` at the address `addr`. -/
structure Node where
  addr : ℕ
  last : ℕ
  endPtr : ℕ
  failed : ℕ
  deriving DecidableEq, Repr

/-- A `struct mp_pool_s` at the address `addr`: its lists `head` and `large` in the order
of their `next`, and the position of `current` in the former. -/
structure Pool where
  addr : ℕ
  max : ℕ
  current : ℕ
  large : List Large
  head : Node
  nodes : List Node
  deriving DecidableEq, Repr

/-- The pool and the history of the system's memory. -/
structure State where
  pool : Pool
  trace : List Event
  deriving DecidableEq, Repr

/-- The answers of the system; `none` is a failure. -/
abbrev Answers := List (Option ℕ)

/-- What a call leaves and returns, and the answers it has not used. -/
structure Result where
  state : State
  ret : ℕ
  answers : Answers
  deriving DecidableEq, Repr

def State.log (s : State) (event : Event) : State := { s with trace := event :: s.trace }

def Pool.chain (pool : Pool) : List Node := pool.head :: pool.nodes

/-! ## Creating and destroying -/

/-- `mp_create_pool` when `posix_memalign` answers `p`; `head->next` is read as `NULL`. -/
def mpCreatePool (p size : ℕ) : State where
  pool := {
    addr := p
    max := if size < MP_MAX_ALLOC_FROM_POOL then size else MP_MAX_ALLOC_FROM_POOL
    current := 0
    large := []
    head := {
      addr := add64 p sizeofPool
      last := add64 p (sizeofPool + sizeofNode)
      endPtr := add64 (add64 p (sizeofPool + sizeofNode)) size
      failed := 0 }
    nodes := [] }
  trace := [.obtain MP_ALIGNMENT ⟨p, add64 size (sizeofPool + sizeofNode)⟩]

/-- The loop over `large` that frees every block. -/
def freeLarge (s : State) : List Large → State
  | [] => s
  | l :: ls => freeLarge (if l.alloc = 0 then s else s.log (.free l.alloc)) ls

/-- The trace after `mp_destory_pool`. -/
def mpDestoryPool (s : State) : List Event :=
  let s := freeLarge s s.pool.large
  let s := s.pool.nodes.foldl (fun s h => s.log (.free h.addr)) s
  (s.log (.free s.pool.addr)).trace

def Node.reset (h : Node) : Node := { h with last := add64 h.addr sizeofNode }

def mpResetPool (s : State) : State :=
  let s := freeLarge s s.pool.large
  { s with
    pool := {
      s.pool with
      large := []
      head := s.pool.head.reset
      nodes := s.pool.nodes.map Node.reset } }

/-! ## Allocating -/

/-- The loop of `mp_alloc_block` from `current` on, at the position `i`: it counts a
failure of every node but the last, and moves `current` behind those with too many. -/
def countFailures (i current : ℕ) : List Node → List Node × ℕ
  | p :: q :: rest =>
    let current := if p.failed > 4 then i + 1 else current
    let (nodes, current) := countFailures (i + 1) current (q :: rest)
    ({ p with failed := add64 p.failed 1 } :: nodes, current)
  | nodes => (nodes, current)

/-- The nodes after a change of those from `current` on. -/
def Pool.replace (pool : Pool) (nodes : List Node) (current : ℕ) : Pool :=
  match pool.chain.take pool.current ++ nodes with
  | [] => pool
  | head :: nodes => { pool with head := head, nodes := nodes, current := current }

def mpAllocBlock (answers : Answers) (s : State) (size : ℕ) : Result :=
  let psize := sub64 s.pool.head.endPtr s.pool.head.addr
  match answers with
  | [] => ⟨s, 0, []⟩
  | none :: answers => ⟨s, 0, answers⟩
  | some newNode :: answers =>
    let m := mpAlignPtr (add64 newNode sizeofNode)
    let (nodes, current) := countFailures s.pool.current s.pool.current
      (s.pool.chain.drop s.pool.current)
    let node := {
      addr := newNode
      last := add64 m size
      endPtr := add64 newNode psize
      failed := 0 }
    ⟨{ s with pool := s.pool.replace (nodes ++ [node]) current }.log
      (.obtain MP_ALIGNMENT ⟨newNode, psize⟩), m, answers⟩

/-- The loops of `mp_alloc`, which rounds `last` up, and of `mp_nalloc`, which does not. -/
def takeFrom (round : ℕ → ℕ) (size : ℕ) : List Node → Option (ℕ × List Node)
  | [] => none
  | p :: rest =>
    let m := round p.last
    if sub64 p.endPtr m ≥ size then some (m, { p with last := add64 m size } :: rest)
    else (takeFrom round size rest).map fun (m, nodes) => (m, p :: nodes)

/-- `mp_alloc` and `mp_nalloc` for a size up to `max`. -/
def allocSmall (round : ℕ → ℕ) (answers : Answers) (s : State) (size : ℕ) : Result :=
  match takeFrom round size (s.pool.chain.drop s.pool.current) with
  | some (m, nodes) => ⟨{ s with pool := s.pool.replace nodes s.pool.current }, m, answers⟩
  | none => mpAllocBlock answers s size

/-- The loop of `mp_alloc_large`, which looks for a record without a block among the
first five. -/
def reuseRecord (p n : ℕ) : List Large → Option (List Large)
  | [] => none
  | l :: ls =>
    if l.alloc = 0 then some ({ l with alloc := p } :: ls)
    else if n > 3 then none
    else (reuseRecord p (n + 1) ls).map (l :: ·)

/-- What follows `mp_alloc(pool, sizeof(struct mp_large_s))` in `mp_alloc_large` and
`mp_memalign`: the new record, or the return of the block. -/
def addRecord (p : ℕ) (r : Result) : Result :=
  if r.ret = 0 then ⟨r.state.log (.free p), 0, r.answers⟩
  else
    ⟨{ r.state with
      pool := { r.state.pool with large := ⟨r.ret, p⟩ :: r.state.pool.large } }, p, r.answers⟩

/-- The call of `mp_alloc` for a record is written out: a record that is not small is
itself allocated by `mp_alloc_large`. -/
def mpAllocLarge : Answers → State → ℕ → Result
  | [], s, _ => ⟨s, 0, []⟩
  | none :: answers, s, _ => ⟨s, 0, answers⟩
  | some p :: answers, s, size =>
    let s := s.log (.obtain 16 ⟨p, size⟩)
    match reuseRecord p 0 s.pool.large with
    | some large => ⟨{ s with pool := { s.pool with large := large } }, p, answers⟩
    | none =>
      addRecord p (if sizeofLarge ≤ s.pool.max then allocSmall mpAlignPtr answers s sizeofLarge
        else mpAllocLarge answers s sizeofLarge)

def mpAlloc (answers : Answers) (s : State) (size : ℕ) : Result :=
  if size ≤ s.pool.max then allocSmall mpAlignPtr answers s size
  else mpAllocLarge answers s size

def mpNalloc (answers : Answers) (s : State) (size : ℕ) : Result :=
  if size ≤ s.pool.max then allocSmall id answers s size
  else mpAllocLarge answers s size

/-- Clearing the block changes none of the pool's data. -/
def mpCalloc (answers : Answers) (s : State) (size : ℕ) : Result := mpAlloc answers s size

def mpMemalign (answers : Answers) (s : State) (size alignment : ℕ) : Result :=
  match answers with
  | [] => ⟨s, 0, []⟩
  | none :: answers => ⟨s, 0, answers⟩
  | some p :: answers =>
    addRecord p (mpAlloc answers (s.log (.obtain alignment ⟨p, size⟩)) sizeofLarge)

/-- The loop of `mp_free`: the first record of `p` loses it. -/
def dropBlock (p : ℕ) : List Large → Option (List Large)
  | [] => none
  | l :: ls =>
    if p = l.alloc then some ({ l with alloc := 0 } :: ls)
    else (dropBlock p ls).map (l :: ·)

def mpFree (s : State) (p : ℕ) : State :=
  match dropBlock p s.pool.large with
  | none => s
  | some large => { s with pool := { s.pool with large := large } }.log (.free p)

/-! ## Runs -/

inductive Op where
  | mpAlloc (size : ℕ) (answers : Answers)
  | mpNalloc (size : ℕ) (answers : Answers)
  | mpCalloc (size : ℕ) (answers : Answers)
  | mpMemalign (size alignment : ℕ) (answers : Answers)
  | mpFree (p : ℕ)
  | mpResetPool
  deriving DecidableEq, Repr

/-- The state after a call, and its result. -/
def step (s : State) : Op → State × ℕ
  | .mpAlloc size answers => let r := Mempool.mpAlloc answers s size; (r.state, r.ret)
  | .mpNalloc size answers => let r := Mempool.mpNalloc answers s size; (r.state, r.ret)
  | .mpCalloc size answers => let r := Mempool.mpCalloc answers s size; (r.state, r.ret)
  | .mpMemalign size alignment answers =>
    let r := Mempool.mpMemalign answers s size alignment
    (r.state, r.ret)
  | .mpFree p => (Mempool.mpFree s p, 0)
  | .mpResetPool => (Mempool.mpResetPool s, 0)

end ServerKit.Mempool
