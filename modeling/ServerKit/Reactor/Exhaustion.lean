import Mathlib.Data.Nat.Count
import ServerKit.Reactor.Slots

/-! # The table when memory runs out

`ntyreactor_idx` does not look at the results of `ntyreactor_alloc`. Here each call of it gets its
own two results of `malloc`, so that a call may fail where a later one does not. -/

namespace ServerKit.Reactor

open ServerKit.SystemHeap ServerKit.WordMemory

/-- The addresses that `malloc` returns to one call of `ntyreactor_alloc`: of the events and, if
these are not `NULL`, of the block. -/
structure Attempt where
  evs : ℕ
  block : ℕ
  deriving DecidableEq, Repr

def Attempt.malloc (a : Attempt) : Malloc := fun _ size =>
  if size = sizeofEvents then a.evs else a.block

/-- The loop `while (blkidx >= reactor->blkcnt)`, with a `malloc` for each round. -/
def Heap.growLoopWith (fuel blkidx : ℕ) : ℕ → (ℕ → Malloc) → Heap → Option Heap
  | 0, _, _ => none
  | rounds + 1, mallocs, h =>
    if blkidx ≥ h.blkcnt then
      (h.ntyreactorAlloc (mallocs 0) fuel).bind fun r =>
        Heap.growLoopWith fuel blkidx rounds (fun k => mallocs (k + 1)) r.1
    else some h

/-- `ntyreactor_idx`, with a `malloc` for each call of `ntyreactor_alloc`. -/
def Heap.ntyreactorIdxWith (mallocs : ℕ → Malloc) (fuel : ℕ) (h : Heap) (sockfd : ℕ) :
    Option (Heap × ℕ) :=
  let blkidx := sockfd / MAX_EPOLL_EVENTS
  (Heap.growLoopWith fuel blkidx fuel mallocs h).bind fun h =>
    let blk := walkBlocks h.mem blkidx h.evblk
    if blk = 0 then none
    else some (h, h.mem (blk + 8) + sockfd % MAX_EPOLL_EVENTS * sizeofNtyevent)

/-- `Q` holds of every call of `ntyreactor_alloc` in the loop: of the reactor before, the one
afterwards, and the result. -/
def Heap.EveryAlloc (Q : Heap → Heap → ℤ → Prop) (fuel blkidx : ℕ) :
    ℕ → (ℕ → Malloc) → Heap → Prop
  | 0, _, _ => True
  | rounds + 1, mallocs, h =>
    blkidx ≥ h.blkcnt → ∀ r, h.ntyreactorAlloc (mallocs 0) fuel = some r →
      Q h r.1 r.2 ∧ Heap.EveryAlloc Q fuel blkidx rounds (fun k => mallocs (k + 1)) r.1

section Constant

variable {malloc : Malloc} {h : Heap}

theorem growLoopWith_const (fuel blkidx rounds : ℕ) :
    Heap.growLoopWith fuel blkidx rounds (fun _ => malloc) h =
      h.growLoop malloc fuel blkidx rounds := by
  induction rounds generalizing h with
  | zero => rfl
  | succ rounds ih =>
      rw [Heap.growLoopWith, Heap.growLoop]
      simp only [ih]

/-- With one `malloc` for all rounds this is `ntyreactor_idx`. -/
theorem ntyreactorIdxWith_const (fuel sockfd : ℕ) :
    h.ntyreactorIdxWith (fun _ => malloc) fuel sockfd = h.ntyreactorIdx malloc fuel sockfd := by
  rw [Heap.ntyreactorIdxWith, Heap.ntyreactorIdx, growLoopWith_const]

end Constant

/-! ## One call of `ntyreactor_alloc` -/

/-- The reactor has these blocks, in memory of its own. -/
structure Heap.Intact (h : Heap) (blocks : List (ℕ × ℕ)) : Prop where
  chained : h.Chained blocks
  lawful : Lawful h.trace
  live : ∀ r ∈ blocks.flatMap parts, r ∈ live h.trace
  apart : (blocks.flatMap parts).Pairwise Region.Apart

/-- Both calls of `malloc` give memory. -/
def Attempt.Succeeds (a : Attempt) : Prop := a.evs ≠ 0 ∧ a.block ≠ 0

/-- Only the first call of `malloc` gives memory. -/
def Attempt.Halfway (a : Attempt) : Prop := a.evs ≠ 0 ∧ a.block = 0

instance (a : Attempt) : Decidable a.Succeeds := inferInstanceAs (Decidable (_ ∧ _))

instance (a : Attempt) : Decidable a.Halfway := inferInstanceAs (Decidable (_ ∧ _))

/-- The history of the system's memory behind a call. -/
def Attempt.record (a : Attempt) (trace : List Event) : List Event :=
  if a.evs = 0 then trace
  else if a.block = 0 then .obtain 16 ⟨a.evs, sizeofEvents⟩ :: trace
  else .obtain 16 ⟨a.block, sizeofEventblock⟩ :: .obtain 16 ⟨a.evs, sizeofEvents⟩ :: trace

section Alloc

variable {h : Heap} {blocks : List (ℕ × ℕ)} {a : Attempt} {fuel : ℕ}

theorem nextBlock_attempt (a : Attempt) (trace : List Event) :
    nextBlock a.malloc trace = (a.block, a.evs) := by
  have hsize : ¬ sizeofEventblock = sizeofEvents := by decide
  simp [nextBlock, Attempt.malloc, hsize]

theorem newBlock_null (h : Heap) (hevs : a.evs = 0) : h.newBlock a.malloc = (h, 0) := by
  simp [Heap.newBlock, Attempt.malloc, hevs]

theorem newBlock_halfway (h : Heap) (ha : a.Halfway) :
    h.newBlock a.malloc = (h.obtain a.evs sizeofEvents, 0) := by
  have hsize : ¬ sizeofEventblock = sizeofEvents := by decide
  simp [Heap.newBlock, Attempt.malloc, ha.1, ha.2, hsize]

theorem lastBlock_mono {mem : ℕ → ℕ} {fuel fuel' blk last : ℕ} (hle : fuel ≤ fuel')
    (h : lastBlock mem fuel blk = some last) : lastBlock mem fuel' blk = some last := by
  induction fuel generalizing fuel' blk with
  | zero => cases h
  | succ fuel ih =>
      obtain ⟨fuel', rfl⟩ := Nat.exists_eq_add_of_le' (Nat.one_le_of_lt hle)
      rw [lastBlock] at h ⊢
      split at h
      · rename_i hnull
        rw [if_pos hnull]
        exact h
      · rename_i hnull
        rw [if_neg hnull]
        exact ih (Nat.le_of_succ_le_succ hle) h

/-- More rounds for the walk to the last block do not change a result. -/
theorem ntyreactorAlloc_mono {malloc : Malloc} {fuel fuel' : ℕ} (hle : fuel ≤ fuel')
    {r : Heap × ℤ} (hr : h.ntyreactorAlloc malloc fuel = some r) :
    h.ntyreactorAlloc malloc fuel' = some r := by
  rw [Heap.ntyreactorAlloc] at hr ⊢
  split at hr
  · rename_i hnull
    rw [if_pos hnull]
    exact hr
  · rename_i hnull
    obtain ⟨last, hlast, hr⟩ := Option.map_eq_some_iff.mp hr
    rw [if_neg hnull, lastBlock_mono hle hlast, Option.map_some, hr]

/-- New regions are apart from those of the blocks. -/
theorem Heap.Intact.apart_of_fresh (hh : h.Intact blocks) {r : Region}
    (hfresh : Fresh 16 r (SystemHeap.live h.trace)) {x : ℕ} (hx : Covers (blocks.flatMap parts) x) :
    ¬ (r.base ≤ x ∧ x < r.base + r.len) := by
  obtain ⟨q, hq, hlow, hhigh⟩ := hx
  have hapart := hfresh.apart q (hh.live q hq)
  simp only [Region.Apart] at hapart
  omega

/-- Memory that is obtained and not linked leaves the list as it is. -/
theorem Heap.Intact.obtain (hh : h.Intact blocks) {evs : ℕ}
    (hlawful : Lawful (.obtain 16 ⟨evs, sizeofEvents⟩ :: h.trace)) :
    (h.obtain evs sizeofEvents).Intact blocks := by
  have hsame : ∀ x, Covers (blocks.flatMap parts) x →
      (h.obtain evs sizeofEvents).mem x = h.mem x := by
    intro x hx
    exact if_neg (hh.apart_of_fresh hlawful.1 hx)
  refine ⟨⟨hh.chained.blkcnt, ?_, ?_⟩, hlawful, ?_, hh.apart⟩
  · apply hh.chained.linked.congr
    intro b hb
    obtain ⟨block, hblock, rfl⟩ := List.mem_map.mp hb
    exact hsame _ (covers_block (i := 0) hblock (by decide))
  · intro block hblock
    rw [hsame _ (covers_block hblock (by decide))]
    exact hh.chained.events block hblock
  · intro r hr
    exact List.mem_cons_of_mem _ (hh.live r hr)

/-- A call that gets both, with the block linked behind the last one. -/
theorem Heap.Intact.alloc_succeeds (hh : h.Intact blocks) (hne : blocks ≠ []) (ha : a.Succeeds)
    (hlawful : Lawful (a.record h.trace)) (hfuel : blocks.length ≤ fuel) :
    ∃ h', h.ntyreactorAlloc a.malloc fuel = some (h', 0) ∧
      h'.Intact (blocks ++ [(a.block, a.evs)]) ∧ h'.trace = a.record h.trace := by
  have hrecord : a.record h.trace = .obtain 16 ⟨a.block, sizeofEventblock⟩ ::
      .obtain 16 ⟨a.evs, sizeofEvents⟩ :: h.trace := by
    rw [Attempt.record, if_neg ha.1, if_neg ha.2]
  rw [hrecord] at hlawful ⊢
  obtain ⟨hfresh, hevs, -⟩ := hlawful
  have hblock : Fresh 16 ⟨a.block, sizeofEventblock⟩ (SystemHeap.live h.trace) :=
    ⟨hfresh.nonnull, hfresh.aligned, hfresh.bounded,
      fun q hq => hfresh.apart q (List.mem_cons_of_mem _ hq)⟩
  have hparts : (parts (a.block, a.evs)).Pairwise Region.Apart :=
    List.pairwise_pair.mpr (hfresh.apart _ List.mem_cons_self).symm
  have hcovers : ∀ x, Covers (blocks.flatMap parts) x → ¬ Covers (parts (a.block, a.evs)) x := by
    rintro x hx ⟨r, hr, hin⟩
    rcases List.mem_pair.mp hr with rfl | rfl
    · exact hh.apart_of_fresh hevs hx hin
    · exact hh.apart_of_fresh hblock hx hin
  obtain ⟨pre, last, rfl⟩ : ∃ pre last, blocks = pre ++ [last] :=
    ⟨_, _, (List.dropLast_append_getLast hne).symm⟩
  rw [List.length_append, List.length_singleton] at hfuel
  obtain ⟨h', halloc, hchained, htrace, -, -⟩ := ntyreactorAlloc_extend hh.chained hh.apart
    (nextBlock_attempt a h.trace) ha.2 ha.1 hparts hcovers (Nat.lt_of_succ_le hfuel)
  refine ⟨h', halloc, ⟨hchained, ?_, ?_, ?_⟩, htrace⟩
  · rw [htrace]
    exact ⟨hfresh, hevs, hh.lawful⟩
  · intro r hr
    rw [htrace]
    rw [List.flatMap_append, List.mem_append] at hr
    rcases hr with hr | hr
    · exact List.mem_cons_of_mem _ (List.mem_cons_of_mem _ (hh.live r hr))
    · rw [List.flatMap_singleton] at hr
      rcases List.mem_pair.mp hr with rfl | rfl
      · exact List.mem_cons_of_mem _ List.mem_cons_self
      · exact List.mem_cons_self
  · rw [List.flatMap_append, List.flatMap_singleton, List.pairwise_append]
    refine ⟨hh.apart, hparts, ?_⟩
    intro q hq r hr
    rcases List.mem_pair.mp hr with rfl | rfl
    · exact (hevs.apart q (hh.live q hq)).symm
    · exact (hblock.apart q (hh.live q hq)).symm

/-- A call that fails. What it keeps is what the first `malloc` has given. -/
theorem Heap.Intact.alloc_fails (hh : h.Intact blocks) (hne : blocks ≠ []) (ha : ¬ a.Succeeds)
    (hlawful : Lawful (a.record h.trace)) (hfuel : blocks.length ≤ fuel) :
    ∃ h', h.ntyreactorAlloc a.malloc fuel = some (h', -2) ∧ h'.Intact blocks ∧
      h'.trace = a.record h.trace ∧ (¬ a.Halfway → h' = h) := by
  obtain ⟨pre, last, rfl⟩ : ∃ pre last, blocks = pre ++ [last] :=
    ⟨_, _, (List.dropLast_append_getLast hne).symm⟩
  rw [List.length_append, List.length_singleton] at hfuel
  obtain ⟨hevblk, hlast⟩ := hh.chained.lastBlock (Nat.lt_of_succ_le hfuel)
  rw [Heap.ntyreactorAlloc, if_neg hevblk, hlast, Option.map_some]
  by_cases hevs : a.evs = 0
  · rw [newBlock_null h hevs, Attempt.record, if_pos hevs]
    exact ⟨h, rfl, hh, rfl, fun _ => rfl⟩
  · have hblock : a.block = 0 := by
      by_contra hblock
      exact ha ⟨hevs, hblock⟩
    rw [Attempt.record, if_neg hevs, if_pos hblock] at hlawful ⊢
    rw [newBlock_halfway h ⟨hevs, hblock⟩]
    exact ⟨_, rfl, hh.obtain hlawful, rfl, fun hhalfway => absurd ⟨hevs, hblock⟩ hhalfway⟩

end Alloc

/-- What a call of `ntyreactor_alloc` that fails leaves behind: the list and its length as they
were, and no further memory. -/
structure Heap.Unchanged (h h' : Heap) : Prop where
  blkcnt : h'.blkcnt = h.blkcnt
  list : ∀ blocks, h.Chained blocks → h'.Chained blocks
  memory : live h'.trace = live h.trace

/-- A failing call leaves nothing behind. -/
def FailsClean (h h' : Heap) (r : ℤ) : Prop := r ≠ 0 → h.Unchanged h'

/-- Memory of the first `malloc` alone shows in what the program has. -/
theorem live_record_of_halfway {a : Attempt} (ha : a.Halfway) (trace : List Event) :
    live (a.record trace) ≠ live trace := by
  rw [Attempt.record, if_neg ha.1, if_pos ha.2]
  intro hlive
  have hlen := congrArg List.length hlive
  simp [live] at hlen

theorem Heap.Unchanged.refl (h : Heap) : h.Unchanged h := ⟨rfl, fun _ h => h, rfl⟩

/-- A call fails without leaving anything behind, or succeeds, unless it gets halfway. -/
theorem Heap.Intact.alloc_clean {h : Heap} {blocks : List (ℕ × ℕ)} {a : Attempt} {fuel : ℕ}
    (hh : h.Intact blocks) (hne : blocks ≠ []) (hlawful : Lawful (a.record h.trace))
    (hfuel : blocks.length ≤ fuel) :
    ∃ h' r blocks', h.ntyreactorAlloc a.malloc fuel = some (h', r) ∧ h'.Intact blocks' ∧
      blocks <+: blocks' ∧ blocks'.length = blocks.length + (if a.Succeeds then 1 else 0) ∧
      h'.trace = a.record h.trace ∧ (FailsClean h h' r ↔ ¬ a.Halfway) := by
  by_cases ha : a.Succeeds
  · obtain ⟨h', halloc, hh', htrace⟩ := hh.alloc_succeeds hne ha hlawful hfuel
    refine ⟨h', 0, _, halloc, hh', List.prefix_append _ _, ?_, htrace, ?_⟩
    · rw [if_pos ha, List.length_append, List.length_singleton]
    · exact iff_of_true (fun hr => absurd rfl hr) fun hhalfway => ha.2 hhalfway.2
  · obtain ⟨h', halloc, hh', htrace, hsame⟩ := hh.alloc_fails hne ha hlawful hfuel
    refine ⟨h', -2, blocks, halloc, hh', List.prefix_refl _, by rw [if_neg ha, Nat.add_zero],
      htrace, ?_⟩
    constructor
    · intro hclean hhalfway
      apply live_record_of_halfway hhalfway h.trace
      rw [← htrace]
      exact (hclean (by decide)).memory
    · intro hhalfway _
      rw [hsame hhalfway]
      exact .refl h

/-! ## The loop of `ntyreactor_idx` -/

/-- The history of the system's memory behind the first `k` calls. -/
def history (pattern : ℕ → Attempt) (trace : List Event) : ℕ → List Event
  | 0 => trace
  | k + 1 => history (fun i => pattern (i + 1)) ((pattern 0).record trace) k

/-- The first `k` calls make the list long enough. -/
def Enough (blkidx len : ℕ) (pattern : ℕ → Attempt) (k : ℕ) : Prop :=
  blkidx < len + Nat.count (fun i => (pattern i).Succeeds) k

section Loop

variable {h h' : Heap} {blocks : List (ℕ × ℕ)} {pattern : ℕ → Attempt} {fuel blkidx : ℕ}

theorem enough_zero {len : ℕ} : Enough blkidx len pattern 0 ↔ blkidx < len := by
  rw [Enough, Nat.count_zero, Nat.add_zero]

theorem enough_succ {len k : ℕ} :
    Enough blkidx len pattern (k + 1) ↔
      Enough blkidx (len + if (pattern 0).Succeeds then 1 else 0) (fun i => pattern (i + 1)) k := by
  rw [Enough, Enough, Nat.count_succ']
  omega

/-- What is known of the history goes over to the calls behind the first. -/
theorem lawful_history_tail {trace trace₁ : List Event} {len len₁ : ℕ}
    (hlawful : ∀ k, ¬ Enough blkidx len pattern k → Lawful (history pattern trace (k + 1)))
    (hlen : len₁ = len + if (pattern 0).Succeeds then 1 else 0)
    (htrace : trace₁ = (pattern 0).record trace) (k : ℕ)
    (hk : ¬ Enough blkidx len₁ (fun i => pattern (i + 1)) k) :
    Lawful (history (fun i => pattern (i + 1)) trace₁ (k + 1)) := by
  rw [htrace]
  apply hlawful (k + 1)
  rwa [enough_succ, ← hlen]

/-- If the loop ends and no call leaves anything behind, then enough calls succeed, and none gets
halfway before. -/
theorem enough_of_growLoopWith (hh : h.Intact blocks) (hne : blocks ≠ [])
    (hlawful : ∀ k, ¬ Enough blkidx blocks.length pattern k →
      Lawful (history pattern h.trace (k + 1))) {rounds : ℕ}
    (hloop : Heap.growLoopWith fuel blkidx rounds (fun k => (pattern k).malloc) h = some h')
    (hclean : Heap.EveryAlloc FailsClean fuel blkidx rounds (fun k => (pattern k).malloc) h) :
    ∃ k, Enough blkidx blocks.length pattern k ∧ ∀ i < k, ¬ (pattern i).Halfway := by
  induction rounds generalizing h blocks pattern with
  | zero => cases hloop
  | succ rounds ih =>
      have hblkcnt := hh.chained.blkcnt
      by_cases hshort : blkidx ≥ h.blkcnt
      · have hfirst : ¬ Enough blkidx blocks.length pattern 0 := by
          rw [enough_zero]
          omega
        rw [Heap.growLoopWith, if_pos hshort] at hloop
        obtain ⟨r, hr, hloop⟩ := Option.bind_eq_some_iff.mp hloop
        obtain ⟨hclean₀, hclean⟩ := hclean hshort r hr
        obtain ⟨h₁, result, blocks₁, halloc, hh₁, hprefix, hlen, htrace, hiff⟩ :=
          hh.alloc_clean hne (hlawful 0 hfirst) (Nat.le_max_right fuel blocks.length)
        rw [ntyreactorAlloc_mono (Nat.le_max_left fuel blocks.length) hr] at halloc
        cases halloc
        have hlawful₁ := lawful_history_tail hlawful hlen htrace
        have hne₁ := hprefix.ne_nil hne
        obtain ⟨k, hk, hhalfway⟩ := ih hh₁ hne₁ hlawful₁ hloop hclean
        refine ⟨k + 1, ?_, ?_⟩
        · rwa [enough_succ, ← hlen]
        · intro i hi
          cases i with
          | zero => exact hiff.mp hclean₀
          | succ i => exact hhalfway i (Nat.lt_of_succ_lt_succ hi)
      · refine ⟨0, ?_, fun i hi => absurd hi (Nat.not_lt_zero i)⟩
        rw [enough_zero]
        omega

/-- The loop ends at once with a list that is long enough. -/
theorem growLoopWith_done (mallocs : ℕ → Malloc) {rounds : ℕ} (hdone : blkidx < h.blkcnt)
    (hrounds : 0 < rounds) :
    Heap.growLoopWith fuel blkidx rounds mallocs h = some h ∧
      Heap.EveryAlloc FailsClean fuel blkidx rounds mallocs h := by
  obtain ⟨rounds, rfl⟩ := Nat.exists_eq_add_of_le' hrounds
  constructor
  · rw [Heap.growLoopWith, if_neg (Nat.not_le.mpr hdone)]
  · intro hshort
    exact absurd hdone (Nat.not_lt.mpr hshort)

/-- If enough calls succeed, and none gets halfway before, then the loop ends. -/
theorem growLoopWith_of_enough (hh : h.Intact blocks) (hne : blocks ≠ [])
    (hlawful : ∀ k, ¬ Enough blkidx blocks.length pattern k →
      Lawful (history pattern h.trace (k + 1))) {k rounds : ℕ}
    (hk : Enough blkidx blocks.length pattern k) (hhalfway : ∀ i < k, ¬ (pattern i).Halfway)
    (hrounds : k < rounds) (hfuel : blocks.length + k ≤ fuel) :
    ∃ h' blocks', Heap.growLoopWith fuel blkidx rounds (fun k => (pattern k).malloc) h =
        some h' ∧ h'.Intact blocks' ∧ blocks <+: blocks' ∧ blkidx < blocks'.length ∧
      Heap.EveryAlloc FailsClean fuel blkidx rounds (fun k => (pattern k).malloc) h := by
  induction rounds generalizing h blocks pattern k with
  | zero => exact absurd hrounds (Nat.not_lt_zero k)
  | succ rounds ih =>
      by_cases hdone : blkidx < blocks.length
      · have hblkcnt : blkidx < h.blkcnt := hh.chained.blkcnt ▸ hdone
        obtain ⟨hloop, hclean⟩ := growLoopWith_done (fun k => (pattern k).malloc) hblkcnt
          rounds.succ_pos
        exact ⟨h, blocks, hloop, hh, List.prefix_refl _, hdone, hclean⟩
      · cases k with
        | zero => exact absurd (enough_zero.mp hk) hdone
        | succ k =>
            have hshort : blkidx ≥ h.blkcnt := by
              rw [hh.chained.blkcnt]
              exact Nat.not_lt.mp hdone
            have hfirst : ¬ Enough blkidx blocks.length pattern 0 := by rwa [enough_zero]
            obtain ⟨h₁, r, blocks₁, halloc, hh₁, hprefix, hlen, htrace, hiff⟩ :=
              hh.alloc_clean hne (hlawful 0 hfirst) (by omega : blocks.length ≤ fuel)
            have hlawful₁ := lawful_history_tail hlawful hlen htrace
            have hne₁ := hprefix.ne_nil hne
            have hfuel₁ : blocks₁.length + k ≤ fuel := by
              rw [hlen]
              split
              · omega
              · omega
            obtain ⟨h', blocks', hloop, hh', hprefix', hlt, hclean⟩ :=
              ih hh₁ hne₁ hlawful₁ (by rwa [hlen, ← enough_succ])
                (fun i hi => hhalfway (i + 1) (Nat.succ_lt_succ hi))
                (Nat.lt_of_succ_lt_succ hrounds) hfuel₁
            refine ⟨h', blocks', ?_, hh', hprefix.trans hprefix', hlt, ?_⟩
            · rw [Heap.growLoopWith, if_pos hshort, halloc]
              exact hloop
            · intro _ r' hr'
              rw [halloc] at hr'
              cases hr'
              exact ⟨hiff.mpr (hhalfway 0 k.succ_pos), hclean⟩

/-- A reactor without a block never gets one. -/
theorem growLoopWith_empty (hh : h.Intact []) (mallocs : ℕ → Malloc) (rounds : ℕ) :
    Heap.growLoopWith fuel blkidx rounds mallocs h = none := by
  induction rounds generalizing mallocs with
  | zero => rfl
  | succ rounds ih =>
      have hblkcnt : h.blkcnt = 0 := hh.chained.blkcnt
      have hevblk : h.evblk = 0 := linked_nil.mp hh.chained.linked
      rw [Heap.growLoopWith, if_pos (hblkcnt ▸ Nat.zero_le blkidx), Heap.ntyreactorAlloc,
        if_pos hevblk]
      exact ih _

/-- If `malloc` fails from some point on, the loop does not end. -/
theorem growLoopWith_exhausted (hh : h.Intact blocks) (hne : blocks ≠ [])
    (hshort : blocks.length ≤ blkidx) (rounds : ℕ) :
    Heap.growLoopWith fuel blkidx rounds (fun _ => (⟨0, 0⟩ : Attempt).malloc) h = none := by
  induction rounds with
  | zero => rfl
  | succ rounds ih =>
      have hguard : blkidx ≥ h.blkcnt := by
        rw [hh.chained.blkcnt]
        exact hshort
      rw [Heap.growLoopWith, if_pos hguard, Option.bind_eq_none_iff]
      intro r hr
      obtain ⟨h', halloc, -, -, hsame⟩ := hh.alloc_fails (a := ⟨0, 0⟩) hne (by decide) hh.lawful
        (Nat.le_max_right fuel blocks.length)
      rw [ntyreactorAlloc_mono (Nat.le_max_left fuel blocks.length) hr] at halloc
      cases halloc
      rw [hsame (by decide)]
      exact ih

end Loop

/-- The tables that `ntyreactor_init` and the loop make. -/
theorem Heap.Table.intact {malloc : Malloc} {trace : List Event} {n : ℕ} {h : Heap}
    (hlawful : Lawful (growth malloc trace n).2) (hh : h.Table malloc trace n) :
    h.Intact (growth malloc trace n).1 := by
  refine ⟨hh.chained, hh.trace ▸ hlawful, ?_, growth_apart hlawful⟩
  intro r hr
  rw [hh.trace, live_growth]
  exact List.mem_append_left _ (List.mem_reverse.mpr hr)

/-- `ntyreactor_idx` returns the slot of the fd in a list that has the old blocks in front. -/
def Heap.ReturnsSlot (mallocs : ℕ → Malloc) (fuel : ℕ) (h : Heap) (sockfd : ℕ)
    (blocks : List (ℕ × ℕ)) : Prop :=
  ∃ h' slot blocks', h.ntyreactorIdxWith mallocs fuel sockfd = some (h', slot) ∧
    h'.Intact blocks' ∧ blocks <+: blocks' ∧ slotAt blocks' sockfd = some slot

/-- **Exhaustion.** For any results of `malloc`, as long as they are regions of their own or `NULL`:
`ntyreactor_idx` returns a slot, with no call of `ntyreactor_alloc` that fails and leaves something
behind, exactly if the reactor has a block, and enough calls get both regions before one gets only
the first. -/
theorem ntyreactorIdx_iff_enough {h : Heap} {blocks : List (ℕ × ℕ)} (hh : h.Intact blocks)
    (pattern : ℕ → Attempt) (sockfd : ℕ)
    (hlawful : blocks ≠ [] → ∀ k, ¬ Enough (sockfd / MAX_EPOLL_EVENTS) blocks.length pattern k →
      Lawful (history pattern h.trace (k + 1))) :
    (∃ fuel, h.ReturnsSlot (fun k => (pattern k).malloc) fuel sockfd blocks ∧
      Heap.EveryAlloc FailsClean fuel (sockfd / MAX_EPOLL_EVENTS) fuel
        (fun k => (pattern k).malloc) h) ↔
      blocks ≠ [] ∧ ∃ k, Enough (sockfd / MAX_EPOLL_EVENTS) blocks.length pattern k ∧
        ∀ i < k, ¬ (pattern i).Halfway := by
  constructor
  · rintro ⟨fuel, ⟨h', slot, blocks', hidx, -⟩, hclean⟩
    obtain ⟨h₁, hloop, -⟩ := Option.bind_eq_some_iff.mp hidx
    have hne : blocks ≠ [] := by
      rintro rfl
      rw [growLoopWith_empty hh] at hloop
      cases hloop
    exact ⟨hne, enough_of_growLoopWith hh hne (hlawful hne) hloop hclean⟩
  · rintro ⟨hne, k, hk, hhalfway⟩
    have hrounds : k < blocks.length + k + 1 := by omega
    have hfuel : blocks.length + k ≤ blocks.length + k + 1 := Nat.le_succ _
    obtain ⟨h', blocks', hloop, hh', hprefix, hlt, hclean⟩ :=
      growLoopWith_of_enough hh hne (hlawful hne) hk hhalfway hrounds hfuel
    obtain ⟨blk, hwalk, hblk, hslot⟩ := hh'.chained.walk hlt
    refine ⟨blocks.length + k + 1, ⟨h', _, blocks', ?_, hh', hprefix, hslot⟩, hclean⟩
    simp [Heap.ntyreactorIdxWith, hloop, hwalk, hblk]

/-- `malloc` fails at first, and then gives what a block needs. -/
def late : ℕ → Attempt := fun k => if k = 1 then ⟨2 ^ 30, 2 ^ 40⟩ else ⟨0, 0⟩

theorem ntyreactorIdx_iff_enough_late :
    ∃ h, Heap.ntyreactorInit bump (fun _ => 9) [] = (h, 0) ∧
      ∃ fuel, h.ReturnsSlot (fun k => (late k).malloc) fuel 1030 (growth bump [] 1).1 ∧
        Heap.EveryAlloc FailsClean fuel 1 fuel (fun k => (late k).malloc) h := by
  have hone : Lawful (growth bump [] 1).2 := by decide
  obtain ⟨h, hinit, htable⟩ := ntyreactorInit_spec (fun _ => 9) hone
  have hlawful : ∀ k, ¬ Enough 1 1 late k → Lawful (history late h.trace (k + 1)) := by
    intro k hk
    have hlt : k < 2 := by
      by_contra hge
      apply hk
      have hmono := Nat.count_monotone (fun i => (late i).Succeeds) (Nat.not_lt.mp hge)
      exact Nat.lt_of_lt_of_le (by decide : 1 < 1 + Nat.count (fun i => (late i).Succeeds) 2)
        (Nat.add_le_add_left hmono 1)
    have hall : ∀ k < 2, Lawful (history late (growth bump [] 1).2 (k + 1)) := by decide
    rw [htable.trace]
    exact hall k hlt
  have henough : Enough 1 1 late 2 := by
    show 1 < 1 + Nat.count (fun i => (late i).Succeeds) 2
    decide
  exact ⟨h, hinit, (ntyreactorIdx_iff_enough (htable.intact hone) late 1030
    fun _ => hlawful).mpr ⟨by decide, 2, henough, by decide⟩⟩

/-- Without memory the call for fd 1024 does not end. With memory for the events only, these are
lost. -/
theorem ntyreactorIdx_exhausted :
    ∃ h, Heap.ntyreactorInit bump (fun _ => 9) [] = (h, 0) ∧
      (∀ fuel, h.ntyreactorIdxWith (fun _ => (⟨0, 0⟩ : Attempt).malloc) fuel 1024 = none) ∧
      ∃ h', h.ntyreactorAlloc (⟨2 ^ 30, 0⟩ : Attempt).malloc 1 = some (h', -2) ∧
        live h'.trace = ⟨2 ^ 30, sizeofEvents⟩ :: live h.trace := by
  have hone : Lawful (growth bump [] 1).2 := by decide
  obtain ⟨h, hinit, htable⟩ := ntyreactorInit_spec (fun _ => 9) hone
  have hintact := htable.intact hone
  refine ⟨h, hinit, ?_, ?_⟩
  · intro fuel
    rw [Heap.ntyreactorIdxWith, growLoopWith_exhausted hintact (by decide) (by decide)]
    rfl
  · have hlawful : Lawful ((⟨2 ^ 30, 0⟩ : Attempt).record h.trace) := by
      rw [htable.trace]
      decide
    have hfuel : (growth bump [] 1).1.length ≤ 1 := by decide
    obtain ⟨h', halloc, -, htrace, -⟩ :=
      hintact.alloc_fails (by decide) (by decide) hlawful hfuel
    exact ⟨h', halloc, congrArg live htrace⟩

end ServerKit.Reactor
