import ServerKit.Lib.Linked
import ServerKit.Lib.SystemHeap
import ServerKit.Reactor.Event

/-! # The table of slots in memory

The functions of `reactor_singlecb_server.c` on a memory of words. A `struct eventblock` has
`next` and `events` at the offsets 0 and 8, and a `struct ntyevent` is 4136 bytes long. A loop
that does not come to an end within `fuel` rounds has no result. -/

namespace ServerKit.Reactor

open ServerKit.SystemHeap ServerKit.WordMemory

/-- `sizeof(struct ntyevent)` -/
def sizeofNtyevent : ℕ := 4136

/-- `sizeof(struct eventblock)` -/
def sizeofEventblock : ℕ := 16

/-- The size of the `events` of a block. -/
def sizeofEvents : ℕ := MAX_EPOLL_EVENTS * sizeofNtyevent

/-- The fields of `struct ntyreactor`, the words of the memory by their addresses, multiples of
eight, and the history of the system's memory. -/
structure Heap where
  blkcnt : ℕ
  evblk : ℕ
  mem : ℕ → ℕ
  trace : List Event

/-- The address that `malloc` returns after a history, for a size. -/
abbrev Malloc := List Event → ℕ → ℕ

/-- A region that `malloc` has returned at `p`, after the `memset` to zero. -/
def Heap.obtain (h : Heap) (p size : ℕ) : Heap :=
  { h with
    mem := fun a => if p ≤ a ∧ a < p + size then 0 else h.mem a
    trace := .obtain 16 ⟨p, size⟩ :: h.trace }

def Heap.write (h : Heap) (a v : ℕ) : Heap := { h with mem := Function.update h.mem a v }

section Functions

variable (malloc : Malloc)

/-- What `ntyreactor_init` and `ntyreactor_alloc` do for a new block, up to its own fields; the
block is `NULL` when a `malloc` fails. -/
def Heap.newBlock (h : Heap) : Heap × ℕ :=
  let evs := malloc h.trace sizeofEvents
  if evs = 0 then (h, 0)
  else
    let h := h.obtain evs sizeofEvents
    let block := malloc h.trace sizeofEventblock
    if block = 0 then (h, 0)
    else (((h.obtain block sizeofEventblock).write (block + 8) evs).write block 0, block)

/-- `ntyreactor_init` behind `epoll_create`, on the zeroed structure. -/
def Heap.ntyreactorInit (mem : ℕ → ℕ) (trace : List Event) : Heap × ℤ :=
  let (h, block) := Heap.newBlock malloc ⟨0, 0, mem, trace⟩
  if block = 0 then (h, -2) else ({ h with evblk := block, blkcnt := 1 }, 0)

/-- The loop `while (blk->next != NULL)`. -/
def lastBlock (mem : ℕ → ℕ) : ℕ → ℕ → Option ℕ
  | 0, _ => none
  | fuel + 1, blk => if mem blk = 0 then some blk else lastBlock mem fuel (mem blk)

def Heap.ntyreactorAlloc (fuel : ℕ) (h : Heap) : Option (Heap × ℤ) :=
  if h.evblk = 0 then some (h, -1)
  else
    (lastBlock h.mem fuel h.evblk).map fun blk =>
      let (h, block) := h.newBlock malloc
      if block = 0 then (h, -2)
      else ({ h.write blk block with blkcnt := h.blkcnt + 1 }, 0)

/-- The loop `while (blkidx >= reactor->blkcnt)`; the results of the calls are not looked at. -/
def Heap.growLoop (fuel blkidx : ℕ) : ℕ → Heap → Option Heap
  | 0, _ => none
  | rounds + 1, h =>
    if blkidx ≥ h.blkcnt then
      (h.ntyreactorAlloc malloc fuel).bind fun r => Heap.growLoop fuel blkidx rounds r.1
    else some h

/-- The loop `while(i ++ < blkidx && blk != NULL)`. -/
def walkBlocks (mem : ℕ → ℕ) : ℕ → ℕ → ℕ
  | 0, blk => blk
  | i + 1, blk => if blk ≠ 0 then walkBlocks mem i (mem blk) else blk

/-- `ntyreactor_idx`, without a result when it reads `blk->events` of `NULL`. -/
def Heap.ntyreactorIdx (fuel : ℕ) (h : Heap) (sockfd : ℕ) : Option (Heap × ℕ) :=
  let blkidx := sockfd / MAX_EPOLL_EVENTS
  (h.growLoop malloc fuel blkidx fuel).bind fun h =>
    let blk := walkBlocks h.mem blkidx h.evblk
    if blk = 0 then none
    else some (h, h.mem (blk + 8) + sockfd % MAX_EPOLL_EVENTS * sizeofNtyevent)

/-- A call of `ntyreactor_idx`, and what its caller writes through the pointer. -/
structure Access where
  sockfd : ℕ
  writes : List (Fin sizeofNtyevent × ℕ)

def Heap.store (h : Heap) (slot : ℕ) (writes : List (Fin sizeofNtyevent × ℕ)) : Heap :=
  writes.foldl (fun h w => h.write (slot + w.1) w.2) h

def Heap.access (fuel : ℕ) (h : Heap) (access : Access) : Option (Heap × ℕ) :=
  (h.ntyreactorIdx malloc fuel access.sockfd).map fun r => (r.1.store r.2 access.writes, r.2)

/-! ## The list of blocks -/

/-- The blocks of the list, each with its events, and the history behind them: what the first
`n` blocks take from `malloc`. -/
def growth (trace : List Event) : ℕ → List (ℕ × ℕ) × List Event
  | 0 => ([], trace)
  | n + 1 =>
    let (blocks, trace) := growth trace n
    let evs := malloc trace sizeofEvents
    let trace := .obtain 16 ⟨evs, sizeofEvents⟩ :: trace
    let block := malloc trace sizeofEventblock
    (blocks ++ [(block, evs)], .obtain 16 ⟨block, sizeofEventblock⟩ :: trace)

end Functions

/-- The slot of an fd: `fd % 1024` of block `fd / 1024`. -/
def slotAt (blocks : List (ℕ × ℕ)) (fd : ℕ) : Option ℕ :=
  (blocks[fd / MAX_EPOLL_EVENTS]?).map fun block =>
    block.2 + fd % MAX_EPOLL_EVENTS * sizeofNtyevent

/-- `blkcnt` counts the blocks of the list. -/
structure Heap.Chained (h : Heap) (blocks : List (ℕ × ℕ)) : Prop where
  blkcnt : h.blkcnt = blocks.length
  linked : Linked h.mem 0 h.evblk (blocks.map Prod.fst)
  events : ∀ block ∈ blocks, h.mem (block.1 + 8) = block.2

/-- The regions of a block. -/
def parts (block : ℕ × ℕ) : List Region :=
  [⟨block.2, sizeofEvents⟩, ⟨block.1, sizeofEventblock⟩]

variable {malloc : Malloc} {trace : List Event} {n m : ℕ} {h : Heap}

/-! ## What the blocks take from the system -/

theorem growth_length (malloc : Malloc) (trace : List Event) (n : ℕ) :
    (growth malloc trace n).1.length = n := by
  induction n with
  | zero => rfl
  | succ n ih => simp [growth, ih]

theorem growth_isPrefix (malloc : Malloc) (trace : List Event) (hle : n ≤ m) :
    (growth malloc trace n).1 <+: (growth malloc trace m).1 := by
  induction m, hle using Nat.le_induction with
  | base => exact List.prefix_refl _
  | succ m _ ih => exact ih.trans (List.prefix_append _ _)

theorem growth_suffix (hle : n ≤ m) : (growth malloc trace n).2 <:+ (growth malloc trace m).2 := by
  induction m, hle using Nat.le_induction with
  | base => exact List.suffix_refl _
  | succ m _ ih => exact ih.trans ((List.suffix_cons _ _).trans (List.suffix_cons _ _))

theorem live_growth (malloc : Malloc) (trace : List Event) (n : ℕ) :
    live (growth malloc trace n).2 =
      ((growth malloc trace n).1.flatMap parts).reverse ++ live trace := by
  induction n with
  | zero => rfl
  | succ n ih => simp [growth, live, ih, parts]

/-- The regions of all blocks are apart. -/
theorem growth_apart (hlawful : Lawful (growth malloc trace n).2) :
    ((growth malloc trace n).1.flatMap parts).Pairwise Region.Apart := by
  have hpairwise := hlawful.pairwise_apart
  rw [live_growth] at hpairwise
  have hreverse := (List.pairwise_append.mp hpairwise).1
  exact (List.pairwise_reverse.mp hreverse).imp Region.Apart.symm

theorem growth_block_ne_zero (hlawful : Lawful (growth malloc trace n).2) {block : ℕ × ℕ}
    (hblock : block ∈ (growth malloc trace n).1) : block.1 ≠ 0 := by
  have hmem : (⟨block.1, sizeofEventblock⟩ : Region) ∈ live (growth malloc trace n).2 := by
    rw [live_growth, List.mem_append, List.mem_reverse, List.mem_flatMap]
    exact .inl ⟨block, hblock, by simp [parts]⟩
  exact hlawful.nonnull hmem

/-! ## The loops -/

theorem lastBlock_linked {mem : ℕ → ℕ} {pre : List ℕ} {a b fuel : ℕ}
    (hlinked : Linked mem 0 a (pre ++ [b])) (hfuel : pre.length < fuel) :
    lastBlock mem fuel a = some b := by
  induction pre generalizing a fuel with
  | nil =>
      cases fuel with
      | zero => omega
      | succ fuel =>
          obtain ⟨rfl, -, hnull⟩ := hlinked
          rw [lastBlock, if_pos (show mem a = 0 from hnull)]
  | cons c pre ih =>
      cases fuel with
      | zero => omega
      | succ fuel =>
          obtain ⟨rfl, -, hrest⟩ := hlinked
          have hnext : mem a ≠ 0 := by
            cases pre with
            | nil => exact hrest.1 ▸ hrest.2.1
            | cons d pre => exact hrest.1 ▸ hrest.2.1
          rw [lastBlock, if_neg hnext]
          exact ih hrest (by simpa using hfuel)

theorem walkBlocks_linked {mem : ℕ → ℕ} {blocks : List ℕ} {a : ℕ}
    (hlinked : Linked mem 0 a blocks) (i : ℕ) :
    walkBlocks mem i a = (blocks[i]?).getD 0 := by
  induction i generalizing a blocks with
  | zero =>
      cases blocks with
      | nil => exact hlinked
      | cons b blocks => exact hlinked.1
  | succ i ih =>
      cases blocks with
      | nil => simp [walkBlocks, linked_nil.mp hlinked]
      | cons b blocks =>
          obtain ⟨rfl, hne, hrest⟩ := hlinked
          rw [walkBlocks, if_pos hne, List.getElem?_cons_succ]
          exact ih hrest

/-! ## A new block -/

/-- The address lies in one of the regions. -/
def Covers (regions : List Region) (a : ℕ) : Prop :=
  ∃ r ∈ regions, r.base ≤ a ∧ a < r.base + r.len

section Covers

variable {blocks : List (ℕ × ℕ)} {block : ℕ × ℕ} {a i : ℕ}

theorem covers_block (hblock : block ∈ blocks) (hi : i < sizeofEventblock) :
    Covers (blocks.flatMap parts) (block.1 + i) :=
  ⟨⟨block.1, sizeofEventblock⟩, List.mem_flatMap.mpr ⟨block, hblock, by simp [parts]⟩,
    Nat.le_add_right _ _, Nat.add_lt_add_left hi _⟩

theorem covers_events (hblock : block ∈ blocks) (hlow : block.2 ≤ a)
    (hhigh : a < block.2 + sizeofEvents) : Covers (blocks.flatMap parts) a :=
  ⟨⟨block.2, sizeofEvents⟩, List.mem_flatMap.mpr ⟨block, hblock, by simp [parts]⟩, hlow, hhigh⟩

/-- No word of the events is a word of a block. -/
theorem events_ne_block (hapart : (blocks.flatMap parts).Pairwise Region.Apart)
    (hblock : block ∈ blocks) (hlow : block.2 ≤ a) (hhigh : a < block.2 + sizeofEvents)
    {other : ℕ × ℕ} (hother : other ∈ blocks) (hi : i < sizeofEventblock) : a ≠ other.1 + i := by
  have hregions : Region.Apart ⟨block.2, sizeofEvents⟩ ⟨other.1, sizeofEventblock⟩ := by
    apply hapart.forall (List.mem_flatMap.mpr ⟨block, hblock, by simp [parts]⟩)
      (List.mem_flatMap.mpr ⟨other, hother, by simp [parts]⟩)
    intro heq
    have hlen : sizeofEvents = sizeofEventblock := congrArg Region.len heq
    exact absurd hlen (by decide)
  simp only [Region.Apart] at hregions
  omega

/-- A word of a block is a word of one block. -/
theorem block_ne_block (hapart : (blocks.flatMap parts).Pairwise Region.Apart)
    (hblock : block ∈ blocks) {other : ℕ × ℕ} (hother : other ∈ blocks) {j : ℕ}
    (hi : i < sizeofEventblock) (hj : j < sizeofEventblock) (hij : i ≠ j) :
    block.1 + i ≠ other.1 + j := by
  by_cases hne : block.1 = other.1
  · omega
  · have hregions : Region.Apart ⟨block.1, sizeofEventblock⟩ ⟨other.1, sizeofEventblock⟩ := by
      apply hapart.forall (List.mem_flatMap.mpr ⟨block, hblock, by simp [parts]⟩)
        (List.mem_flatMap.mpr ⟨other, hother, by simp [parts]⟩)
      intro heq
      exact hne (congrArg Region.base heq)
    simp only [Region.Apart] at hregions
    omega

end Covers

/-- The next block and its events. -/
def nextBlock (malloc : Malloc) (trace : List Event) : ℕ × ℕ :=
  let evs := malloc trace sizeofEvents
  (malloc (.obtain 16 ⟨evs, sizeofEvents⟩ :: trace) sizeofEventblock, evs)

theorem growth_succ (malloc : Malloc) (trace : List Event) (n : ℕ) :
    (growth malloc trace (n + 1)).1 =
      (growth malloc trace n).1 ++ [nextBlock malloc (growth malloc trace n).2] := rfl

/-- A new block changes nothing outside of its own regions. -/
theorem newBlock_spec {block : ℕ × ℕ} (hnext : nextBlock malloc h.trace = block)
    (hblock0 : block.1 ≠ 0) (hevs0 : block.2 ≠ 0) (hapart : (parts block).Pairwise Region.Apart) :
    ∃ h', h.newBlock malloc = (h', block.1) ∧ h'.blkcnt = h.blkcnt ∧ h'.evblk = h.evblk ∧
      h'.trace = .obtain 16 ⟨block.1, sizeofEventblock⟩ ::
        .obtain 16 ⟨block.2, sizeofEvents⟩ :: h.trace ∧
      h'.mem block.1 = 0 ∧ h'.mem (block.1 + 8) = block.2 ∧
      (∀ a, block.2 ≤ a → a < block.2 + sizeofEvents → h'.mem a = 0) ∧
      ∀ a, ¬ Covers (parts block) a → h'.mem a = h.mem a := by
  obtain ⟨block, evs⟩ := block
  obtain ⟨hblock, hevs⟩ := Prod.mk.inj hnext
  rw [hevs] at hblock
  replace hblock0 : block ≠ 0 := hblock0
  replace hevs0 : evs ≠ 0 := hevs0
  rw [parts, List.pairwise_pair] at hapart
  refine ⟨((((h.obtain evs sizeofEvents).obtain block sizeofEventblock).write (block + 8)
    evs).write block 0), ?_, rfl, rfl, rfl, ?_, ?_, ?_, ?_⟩
  · simp [Heap.newBlock, Heap.obtain, hevs, hblock, hevs0, hblock0]
  · simp [Heap.write]
  · simp [Heap.write]
  · intro a hlow hhigh
    simp only [Region.Apart, sizeofEventblock] at hapart
    have hblock8 : a ≠ block + 8 := by omega
    have hne : a ≠ block := by omega
    simp [Heap.write, Heap.obtain, hblock8, hne, hlow, hhigh]
  · intro a houtside
    have hne : ¬ (block ≤ a ∧ a < block + sizeofEventblock) := by
      intro hin
      exact houtside ⟨⟨block, sizeofEventblock⟩, by simp [parts], hin⟩
    have hne' : ¬ (evs ≤ a ∧ a < evs + sizeofEvents) := by
      intro hin
      exact houtside ⟨⟨evs, sizeofEvents⟩, by simp [parts], hin⟩
    have hblock8 : a ≠ block + 8 := by
      simp only [sizeofEventblock] at hne
      omega
    have hblock' : a ≠ block := by
      simp only [sizeofEventblock] at hne
      omega
    simp only [Heap.write, Heap.obtain, Function.update_of_ne hblock8,
      Function.update_of_ne hblock', if_neg hne, if_neg hne']

/-- The reactor has the first `n` blocks. -/
structure Heap.Table (malloc : Malloc) (trace : List Event) (n : ℕ) (h : Heap) : Prop where
  chained : h.Chained (growth malloc trace n).1
  trace : h.trace = (growth malloc trace n).2

/-- The words in these events are the same. -/
def Heap.Kept (blocks : List (ℕ × ℕ)) (h h' : Heap) : Prop :=
  ∀ block ∈ blocks, ∀ a, block.2 ≤ a → a < block.2 + sizeofEvents → h'.mem a = h.mem a

/-- The table has grown from `n` to `m` blocks: the new events are zero, the old ones as before. -/
structure Heap.Grown (malloc : Malloc) (trace : List Event) (n m : ℕ) (h h' : Heap) : Prop where
  kept : h.Kept (growth malloc trace n).1 h'
  zeroed : ∀ block ∈ (growth malloc trace m).1.drop n, ∀ a, block.2 ≤ a →
    a < block.2 + sizeofEvents → h'.mem a = 0

theorem Heap.Grown.refl (malloc : Malloc) (trace : List Event) (n : ℕ) (h : Heap) :
    h.Grown malloc trace n n h := by
  refine ⟨fun _ _ _ _ _ => rfl, ?_⟩
  intro block hblock
  rw [List.drop_eq_nil_of_le (growth_length malloc trace n).le] at hblock
  cases hblock

theorem Heap.Grown.trans {k : ℕ} {h' h'' : Heap} (hfirst : h.Grown malloc trace n k h')
    (hsecond : h'.Grown malloc trace k m h'') (hnk : n ≤ k) (hkm : k ≤ m) :
    h.Grown malloc trace n m h'' := by
  refine ⟨?_, ?_⟩
  · intro block hblock a hlow hhigh
    rw [hsecond.kept block ((growth_isPrefix malloc trace hnk).subset hblock) a hlow hhigh]
    exact hfirst.kept block hblock a hlow hhigh
  · intro block hblock a hlow hhigh
    obtain ⟨rest, hrest⟩ := growth_isPrefix malloc trace hkm
    have hlength := growth_length malloc trace k
    have hzeroed := hsecond.zeroed block
    rw [← hrest, List.drop_left' hlength] at hzeroed
    rw [← hrest, List.drop_append_of_le_length (by omega)] at hblock
    rcases List.mem_append.mp hblock with hblock | hblock
    · rw [hsecond.kept block (List.mem_of_mem_drop hblock) a hlow hhigh]
      exact hfirst.zeroed block hblock a hlow hhigh
    · exact hzeroed hblock a hlow hhigh

/-- Linking a further block behind the last one. -/
theorem Heap.Chained.extend {h' : Heap} {pre : List (ℕ × ℕ)} {last block : ℕ × ℕ}
    (hchained : h.Chained (pre ++ [last]))
    (hapart : ((pre ++ [last]).flatMap parts).Pairwise Region.Apart) (hblock0 : block.1 ≠ 0)
    (hblkcnt : h'.blkcnt = h.blkcnt + 1) (hevblk : h'.evblk = h.evblk)
    (hlast : h'.mem last.1 = block.1) (hnull : h'.mem block.1 = 0)
    (hevents : h'.mem (block.1 + 8) = block.2)
    (hsame : ∀ a, Covers ((pre ++ [last]).flatMap parts) a → a ≠ last.1 → h'.mem a = h.mem a) :
    h'.Chained (pre ++ [last] ++ [block]) := by
  have hlinked := hchained.linked
  rw [List.map_append] at hlinked
  have hnodup := hlinked.nodup
  refine ⟨?_, ?_, ?_⟩
  · rw [hblkcnt, hchained.blkcnt]
    simp
  · have hlong : Linked h'.mem 0 h.evblk (pre.map Prod.fst ++ last.1 :: [block.1]) := by
      apply hlinked.extend
      · intro c hc
        obtain ⟨x, hx, rfl⟩ := List.mem_map.mp hc
        apply hsame _ (covers_block (i := 0) (by simp [hx]) (by decide))
        intro heq
        rw [List.nodup_append] at hnodup
        exact hnodup.2.2 x.1 hc last.1 (by simp) heq
      · rw [Nat.add_zero, hlast]
        exact ⟨rfl, hblock0, hnull⟩
    simpa [hevblk] using hlong
  · intro x hx
    rcases List.mem_append.mp hx with hx | hx
    · rw [← hchained.events x hx]
      apply hsame _ (covers_block hx (by decide))
      exact block_ne_block (j := 0) hapart hx (by simp) (by decide) (by decide) (by decide)
    · rw [List.mem_singleton.mp hx]
      exact hevents

/-- The walk of `ntyreactor_alloc`. -/
theorem Heap.Chained.lastBlock {pre : List (ℕ × ℕ)} {last : ℕ × ℕ}
    (hchained : h.Chained (pre ++ [last])) {fuel : ℕ} (hfuel : pre.length < fuel) :
    h.evblk ≠ 0 ∧ lastBlock h.mem fuel h.evblk = some last.1 := by
  have hlinked := hchained.linked
  rw [List.map_append] at hlinked
  constructor
  · cases pre with
    | nil => exact hlinked.1 ▸ hlinked.2.1
    | cons x pre => exact hlinked.1 ▸ hlinked.2.1
  · apply lastBlock_linked hlinked
    rwa [List.length_map]

/-- The regions of the next block are apart from each other and from all that the list has. -/
theorem growth_next (hlawful : Lawful (growth malloc trace (n + 1)).2) :
    ∃ block, nextBlock malloc (growth malloc trace n).2 = block ∧ block.1 ≠ 0 ∧ block.2 ≠ 0 ∧
      (parts block).Pairwise Region.Apart ∧
      ∀ a, Covers ((growth malloc trace n).1.flatMap parts) a → ¬ Covers (parts block) a := by
  have hapart := growth_apart hlawful
  rw [growth_succ, List.flatMap_append, List.pairwise_append, List.flatMap_singleton] at hapart
  refine ⟨_, rfl, growth_block_ne_zero hlawful (by simp [growth_succ]), hlawful.2.1.nonnull,
    hapart.2.1, ?_⟩
  rintro a ⟨r, hr, hlow, hhigh⟩ ⟨q, hq, hlow', hhigh'⟩
  have hrq := hapart.2.2 r hr q hq
  simp only [Region.Apart] at hrq
  omega

theorem exists_growth_concat (malloc : Malloc) (trace : List Event) (hn : 0 < n) :
    ∃ pre last, (growth malloc trace n).1 = pre ++ [last] ∧ pre.length + 1 = n := by
  have hlength := growth_length malloc trace n
  rcases List.eq_nil_or_concat (growth malloc trace n).1 with hnil | ⟨pre, last, hblocks⟩
  · rw [hnil] at hlength
    simp at hlength
    omega
  · rw [List.concat_eq_append] at hblocks
    rw [hblocks] at hlength
    exact ⟨pre, last, hblocks, by simpa using hlength⟩

/-- `ntyreactor_alloc` links a zeroed block behind the last one; of the words of the list only the
link of the last block changes. -/
theorem ntyreactorAlloc_extend {pre : List (ℕ × ℕ)} {last block : ℕ × ℕ}
    (hchained : h.Chained (pre ++ [last]))
    (hapart : ((pre ++ [last]).flatMap parts).Pairwise Region.Apart)
    (hnext : nextBlock malloc h.trace = block) (hblock0 : block.1 ≠ 0) (hevs0 : block.2 ≠ 0)
    (hparts : (parts block).Pairwise Region.Apart)
    (hcovers : ∀ a, Covers ((pre ++ [last]).flatMap parts) a → ¬ Covers (parts block) a) {fuel : ℕ}
    (hfuel : pre.length < fuel) :
    ∃ h', h.ntyreactorAlloc malloc fuel = some (h', 0) ∧ h'.Chained (pre ++ [last] ++ [block]) ∧
      h'.trace = .obtain 16 ⟨block.1, sizeofEventblock⟩ ::
        .obtain 16 ⟨block.2, sizeofEvents⟩ :: h.trace ∧
      (∀ a, Covers ((pre ++ [last]).flatMap parts) a → a ≠ last.1 → h'.mem a = h.mem a) ∧
      ∀ a, block.2 ≤ a → a < block.2 + sizeofEvents → h'.mem a = 0 := by
  obtain ⟨hevblk0, hwalk⟩ := hchained.lastBlock hfuel
  obtain ⟨h₁, hnew, hblkcnt, hevblk, htrace, hnull, hevents, hzero, hsame⟩ :=
    newBlock_spec hnext hblock0 hevs0 hparts
  let h' : Heap := { h₁.write last.1 block.1 with blkcnt := h.blkcnt + 1 }
  have hold : ∀ a, Covers ((pre ++ [last]).flatMap parts) a → a ≠ last.1 →
      h'.mem a = h.mem a := by
    intro a ha hne
    exact (Function.update_of_ne hne _ _).trans (hsame a (hcovers a ha))
  have hnew' : ∀ a, Covers (parts block) a → h'.mem a = h₁.mem a := by
    intro a ha
    have hne : a ≠ last.1 := by
      rintro rfl
      exact hcovers _ (covers_block (i := 0) (by simp) (by decide)) ha
    exact Function.update_of_ne hne _ _
  have hblock : [block].flatMap parts = parts block := by simp
  refine ⟨h', ?_, ?_, htrace, hold, ?_⟩
  · rw [Heap.ntyreactorAlloc, if_neg hevblk0, hwalk, hnew]
    simp [hblock0, h', hblkcnt]
  · have hlink : h'.mem block.1 = h₁.mem block.1 :=
      hnew' _ (hblock ▸ covers_block (i := 0) (by simp) (by decide))
    have hfield : h'.mem (block.1 + 8) = h₁.mem (block.1 + 8) :=
      hnew' _ (hblock ▸ covers_block (by simp) (by decide))
    exact hchained.extend hapart hblock0 rfl hevblk (Function.update_self _ _ _)
      (hlink.trans hnull) (hfield.trans hevents) hold
  · intro a hlow hhigh
    exact (hnew' a (hblock ▸ covers_events (by simp) hlow hhigh)).trans (hzero a hlow hhigh)

/-- The table gets one block longer. -/
theorem ntyreactorAlloc_spec (hlawful : Lawful (growth malloc trace (n + 1)).2)
    (hn : 0 < n) (hh : h.Table malloc trace n) {fuel : ℕ} (hfuel : n ≤ fuel) :
    ∃ h', h.ntyreactorAlloc malloc fuel = some (h', 0) ∧ h'.Table malloc trace (n + 1) ∧
      h.Grown malloc trace n (n + 1) h' := by
  obtain ⟨pre, last, hblocks, hlength⟩ := exists_growth_concat malloc trace hn
  obtain ⟨block, hnext, hblock0, hevs0, hparts, hcovers⟩ := growth_next hlawful
  have hapart := growth_apart (hlawful.of_suffix (growth_suffix (Nat.le_succ n)))
  have hchained := hh.chained
  rw [hblocks] at hchained hapart hcovers
  have hnextBlock : nextBlock malloc h.trace = block := by rw [hh.trace, hnext]
  have hlt : pre.length < fuel := by omega
  obtain ⟨h', halloc, hextended, htrace, hold, hzero⟩ := ntyreactorAlloc_extend hchained hapart
    hnextBlock hblock0 hevs0 hparts hcovers hlt
  refine ⟨h', halloc, ⟨?_, ?_⟩, ⟨?_, ?_⟩⟩
  · rw [growth_succ, hblocks, hnext]
    exact hextended
  · rw [htrace, growth, hh.trace, ← hnext]
    rfl
  · intro x hx a hlow hhigh
    rw [hblocks] at hx
    exact hold a (covers_events hx hlow hhigh)
      (events_ne_block (i := 0) hapart hx hlow hhigh (by simp) (by decide))
  · intro x hx a hlow hhigh
    rw [growth_succ, List.drop_left' (growth_length malloc trace n), hnext,
      List.mem_singleton] at hx
    subst hx
    exact hzero a hlow hhigh

/-- `ntyreactor_init` makes the table of one block. -/
theorem ntyreactorInit_spec (mem : ℕ → ℕ) (hlawful : Lawful (growth malloc trace 1).2) :
    ∃ h, Heap.ntyreactorInit malloc mem trace = (h, 0) ∧ h.Table malloc trace 1 := by
  obtain ⟨block, hnext, hblock0, hevs0, hparts, -⟩ := growth_next (n := 0) hlawful
  obtain ⟨h₁, hnew, -, -, htrace, hnull, hevents, -, -⟩ :=
    newBlock_spec (h := ⟨0, 0, mem, trace⟩) hnext hblock0 hevs0 hparts
  refine ⟨{ h₁ with evblk := block.1, blkcnt := 1 }, ?_, ⟨?_, ?_⟩⟩
  · simp [Heap.ntyreactorInit, hnew, hblock0]
  · rw [growth_succ, hnext]
    refine ⟨rfl, ⟨rfl, hblock0, hnull⟩, ?_⟩
    simpa [growth] using hevents
  · show h₁.trace = _
    rw [htrace, growth, ← hnext]
    rfl

/-- The loop of `ntyreactor_idx` makes the table as long as the block needs. -/
theorem growLoop_spec {fuel blkidx rounds : ℕ}
    (hlawful : Lawful (growth malloc trace (max n (blkidx + 1))).2) (hn : 0 < n)
    (hh : h.Table malloc trace n) (hfuel : blkidx < fuel) (hrounds : blkidx + 1 - n < rounds) :
    ∃ h', h.growLoop malloc fuel blkidx rounds = some h' ∧
      h'.Table malloc trace (max n (blkidx + 1)) ∧
      h.Grown malloc trace n (max n (blkidx + 1)) h' := by
  induction rounds generalizing h n with
  | zero => omega
  | succ rounds ih =>
      have hblkcnt : h.blkcnt = n := by rw [hh.chained.blkcnt, growth_length]
      by_cases hshort : blkidx ≥ n
      · have hmax : max (n + 1) (blkidx + 1) = max n (blkidx + 1) := by omega
        have hnext : Lawful (growth malloc trace (n + 1)).2 :=
          hlawful.of_suffix (growth_suffix (by omega))
        have hle : n ≤ fuel := by omega
        obtain ⟨h₁, halloc, htable, hgrown⟩ := ntyreactorAlloc_spec hnext hn hh hle
        obtain ⟨h₂, hloop, htable₂, hgrown₂⟩ :=
          ih (h := h₁) (n := n + 1) (by rwa [hmax]) (by omega) htable (by omega)
        rw [hmax] at htable₂ hgrown₂
        refine ⟨h₂, ?_, htable₂, hgrown.trans hgrown₂ (by omega) (by omega)⟩
        rw [Heap.growLoop, hblkcnt, if_pos hshort, halloc]
        exact hloop
      · have hmax : max n (blkidx + 1) = n := by omega
        rw [hmax]
        refine ⟨h, ?_, hh, .refl malloc trace n h⟩
        rw [Heap.growLoop, hblkcnt, if_neg hshort]

end ServerKit.Reactor
