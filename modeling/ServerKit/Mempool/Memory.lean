import Mathlib.Logic.Function.Basic
import ServerKit.Mempool.Model

/-! # The memory pool in memory

The functions of `mmpool注释版本.c` on a memory of words, in which the pool's own data lie among
everything else. A `struct mp_pool_s` has `max`, `current`, `large` and `head` at the offsets
0, 8, 16 and 24, a `struct mp_node_s` has `last`, `end`, `next` and `failed` at 0, 8, 16 and 24,
and a `struct mp_large_s` has `next` and `alloc` at 0 and 8. A loop that does not come to an end
within `fuel` rounds has no result. -/

namespace ServerKit.Mempool

open ServerKit.SystemHeap

/-- The words of the memory by their addresses, multiples of eight, and the history of the
system's memory. -/
structure Heap where
  mem : ℕ → ℕ
  trace : List Event

/-- The answers of the system with the contents of the regions; `none` is a failure. -/
abbrev Grants := List (Option (ℕ × (ℕ → ℕ)))

def Grants.addrs (grants : Grants) : Answers := grants.map (Option.map Prod.fst)

theorem Grants.addrs_some (p : ℕ) (contents : ℕ → ℕ) (grants : Grants) :
    Grants.addrs (some (p, contents) :: grants) = some p :: grants.addrs := rfl

def Heap.write (h : Heap) (a v : ℕ) : Heap := { h with mem := Function.update h.mem a v }

/-- A region from the system, with whatever is in it. -/
def Heap.obtain (h : Heap) (alignment : ℕ) (r : Region) (contents : ℕ → ℕ) : Heap where
  mem := fun a => if r.base ≤ a ∧ a < r.base + r.len then contents a else h.mem a
  trace := .obtain alignment r :: h.trace

def Heap.free (h : Heap) (p : ℕ) : Heap := { h with trace := .free p :: h.trace }

/-- `memset(p, 0, size)` for a multiple `p` of eight: the words within, and the low bytes of the
last one. -/
def Heap.clear (h : Heap) (p size : ℕ) : Heap where
  mem := fun a =>
    if p ≤ a ∧ a < p + size then
      h.mem a / 256 ^ min 8 (p + size - a) * 256 ^ min 8 (p + size - a)
    else h.mem a
  trace := h.trace

/-- What a call leaves and returns, and the answers it has not used. -/
structure Served where
  heap : Heap
  ret : ℕ
  grants : Grants

/-! ## Small blocks -/

/-- The loop of `mp_alloc_block`: the memory, the last node and `current` afterwards. -/
def countLoop : ℕ → (ℕ → ℕ) → ℕ → ℕ → Option ((ℕ → ℕ) × ℕ × ℕ)
  | 0, _, _, _ => none
  | fuel + 1, mem, p, current =>
    if mem (p + 16) = 0 then some (mem, p, current)
    else
      countLoop fuel (Function.update mem (p + 24) (add64 (mem (p + 24)) 1)) (mem (p + 16))
        (if mem (p + 24) > 4 then mem (p + 16) else current)

/-- The header of a new node. -/
def Heap.newNode (h : Heap) (node last endPtr : ℕ) : Heap :=
  (((h.write (node + 8) endPtr).write (node + 16) 0).write (node + 24) 0).write node last

/-- `mp_alloc_block`; `yzx_mempool.c` writes `next` and `last` of the new node twice. -/
def Heap.mpAllocBlock (fuel : ℕ) (grants : Grants) (h : Heap) (pool size : ℕ) : Option Served :=
  let psize := sub64 (h.mem (pool + 24 + 8)) (pool + 24)
  match grants with
  | [] => some ⟨h, 0, []⟩
  | none :: grants => some ⟨h, 0, grants⟩
  | some (node, contents) :: grants =>
    let m := mpAlignPtr (add64 node sizeofNode)
    let h := (h.obtain MP_ALIGNMENT ⟨node, psize⟩ contents).newNode node (add64 m size)
      (add64 node psize)
    (countLoop fuel h.mem (h.mem (pool + 8)) (h.mem (pool + 8))).map fun (mem, p, current) =>
      ⟨({ h with mem := mem }.write (p + 16) node).write (pool + 8)
        (if current ≠ 0 then current else node), m, grants⟩

/-- The loops of `mp_alloc` and `mp_nalloc`: the node with room for the block, and the block. -/
def findRoom (mem : ℕ → ℕ) (round : ℕ → ℕ) (size : ℕ) : ℕ → ℕ → Option (Option (ℕ × ℕ))
  | 0, _ => none
  | fuel + 1, p =>
    if sub64 (mem (p + 8)) (round (mem p)) ≥ size then some (some (p, round (mem p)))
    else if mem (p + 16) = 0 then some none
    else findRoom mem round size fuel (mem (p + 16))

/-- `mp_alloc` and `mp_nalloc` for a size up to `max`. -/
def Heap.allocSmall (fuel : ℕ) (round : ℕ → ℕ) (grants : Grants) (h : Heap) (pool size : ℕ) :
    Option Served :=
  (findRoom h.mem round size fuel (h.mem (pool + 8))).bind fun
    | some (p, m) => some ⟨h.write p (add64 m size), m, grants⟩
    | none => h.mpAllocBlock fuel grants pool size

/-! ## Large blocks -/

/-- The loop of `mp_alloc_large`: the record that it takes, `NULL` if there is none. -/
def findSpare (mem : ℕ → ℕ) : ℕ → ℕ → ℕ → Option ℕ
  | 0, _, _ => none
  | fuel + 1, large, n =>
    if large = 0 then some 0
    else if mem (large + 8) = 0 then some large
    else if n > 3 then some 0
    else findSpare mem fuel (mem large) (n + 1)

/-- A new record for `p` at the front of `pool->large`. -/
def Heap.newRecord (h : Heap) (pool large p : ℕ) : Heap :=
  let h := h.write (large + 8) p
  (h.write large (h.mem (pool + 16))).write (pool + 16) large

/-- What follows the call of `mp_alloc` for a record in `mp_alloc_large` and `mp_memalign`. -/
def Served.addRecord (r : Served) (pool p : ℕ) : Served :=
  if r.ret = 0 then ⟨r.heap.free p, 0, r.grants⟩
  else ⟨r.heap.newRecord pool r.ret p, p, r.grants⟩

/-- `mp_alloc_large`, with the call of `mp_alloc` for a record written out. -/
def Heap.mpAllocLarge (fuel : ℕ) : Grants → Heap → ℕ → ℕ → Option Served
  | [], h, _, _ => some ⟨h, 0, []⟩
  | none :: grants, h, _, _ => some ⟨h, 0, grants⟩
  | some (p, contents) :: grants, h, pool, size =>
    let h := h.obtain 16 ⟨p, size⟩ contents
    (findSpare h.mem fuel (h.mem (pool + 16)) 0).bind fun large =>
      if large ≠ 0 then some ⟨h.write (large + 8) p, p, grants⟩
      else
        (if sizeofLarge ≤ h.mem pool then h.allocSmall fuel mpAlignPtr grants pool sizeofLarge
          else mpAllocLarge fuel grants h pool sizeofLarge).map fun r => r.addRecord pool p

/-! ## The functions of the pool -/

def Heap.mpAlloc (fuel : ℕ) (grants : Grants) (h : Heap) (pool size : ℕ) : Option Served :=
  if size ≤ h.mem pool then h.allocSmall fuel mpAlignPtr grants pool size
  else mpAllocLarge fuel grants h pool size

def Heap.mpNalloc (fuel : ℕ) (grants : Grants) (h : Heap) (pool size : ℕ) : Option Served :=
  if size ≤ h.mem pool then h.allocSmall fuel id grants pool size
  else mpAllocLarge fuel grants h pool size

def Heap.mpCalloc (fuel : ℕ) (grants : Grants) (h : Heap) (pool size : ℕ) : Option Served :=
  (h.mpAlloc fuel grants pool size).map fun r =>
    if r.ret = 0 then r else { r with heap := r.heap.clear r.ret size }

def Heap.mpMemalign (fuel : ℕ) (grants : Grants) (h : Heap) (pool size alignment : ℕ) :
    Option Served :=
  match grants with
  | [] => some ⟨h, 0, []⟩
  | none :: grants => some ⟨h, 0, grants⟩
  | some (p, contents) :: grants =>
    ((h.obtain alignment ⟨p, size⟩ contents).mpAlloc fuel grants pool sizeofLarge).map
      fun r => r.addRecord pool p

/-- The loop of `mp_free`: the record of `p`, `NULL` if there is none. -/
def findBlock (mem : ℕ → ℕ) (p : ℕ) : ℕ → ℕ → Option ℕ
  | 0, _ => none
  | fuel + 1, l =>
    if l = 0 then some 0
    else if p = mem (l + 8) then some l
    else findBlock mem p fuel (mem l)

def Heap.mpFree (fuel : ℕ) (h : Heap) (pool p : ℕ) : Option Heap :=
  (findBlock h.mem p fuel (h.mem (pool + 16))).map fun l =>
    if l = 0 then h else (h.free (h.mem (l + 8))).write (l + 8) 0

/-- The loop over the records that frees every block. -/
def Heap.freeLarge : ℕ → Heap → ℕ → Option Heap
  | 0, _, _ => none
  | fuel + 1, h, l =>
    if l = 0 then some h
    else freeLarge fuel (if h.mem (l + 8) = 0 then h else h.free (h.mem (l + 8))) (h.mem l)

/-- The loop of `mp_reset_pool` over the nodes. -/
def Heap.resetNodes : ℕ → Heap → ℕ → Option Heap
  | 0, _, _ => none
  | fuel + 1, heap, h =>
    if h = 0 then some heap
    else resetNodes fuel (heap.write h (add64 h sizeofNode)) (heap.mem (h + 16))

def Heap.mpResetPool (fuel : ℕ) (h : Heap) (pool : ℕ) : Option Heap :=
  (freeLarge fuel h (h.mem (pool + 16))).bind fun h =>
    resetNodes fuel (h.write (pool + 16) 0) (pool + 24)

/-- `mp_create_pool` when `posix_memalign` answers `p`; it leaves `head->next` as it is. -/
def createPool (p size : ℕ) (contents : ℕ → ℕ) : Heap :=
  let h := Heap.obtain ⟨fun _ => 0, []⟩ MP_ALIGNMENT ⟨p, add64 size (sizeofPool + sizeofNode)⟩
    contents
  let h := h.write p (if size < MP_MAX_ALLOC_FROM_POOL then size else MP_MAX_ALLOC_FROM_POOL)
  let h := (h.write (p + 8) (p + 24)).write (p + 16) 0
  let h := h.write (p + 24) (add64 p (sizeofPool + sizeofNode))
  let h := h.write (p + 24 + 8) (add64 (add64 p (sizeofPool + sizeofNode)) size)
  h.write (p + 24 + 24) 0

/-- The loop of `mp_destory_pool` over the nodes. -/
def Heap.freeNodes : ℕ → Heap → ℕ → Option Heap
  | 0, _, _ => none
  | fuel + 1, heap, h =>
    if h = 0 then some heap else freeNodes fuel (heap.free h) (heap.mem (h + 16))

def Heap.mpDestoryPool (fuel : ℕ) (h : Heap) (pool : ℕ) : Option Heap :=
  (freeLarge fuel h (h.mem (pool + 16))).bind fun h =>
    (freeNodes fuel h (h.mem (pool + 24 + 16))).map fun h => h.free pool

end ServerKit.Mempool
