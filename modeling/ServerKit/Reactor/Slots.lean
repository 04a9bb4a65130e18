import ServerKit.Lib.Transducer
import ServerKit.Reactor.Blocks
import ServerKit.Reactor.Table

/-! # The slots in memory

A pointer that `ntyreactor_idx` has returned stays the slot of its fd: the list of blocks only
grows at its end. The table of the callbacks is what the words of the slots stand for. -/

namespace ServerKit.Reactor

open ServerKit.SystemHeap ServerKit.WordMemory

variable {malloc : Malloc} {trace : List Event} {n m : ℕ} {h : Heap}

/-! ## The slots -/

theorem slotAt_isPrefix {blocks blocks' : List (ℕ × ℕ)} (hgrown : blocks <+: blocks') {fd p : ℕ}
    (h : slotAt blocks fd = some p) : slotAt blocks' fd = some p := by
  obtain ⟨block, hblock, rfl⟩ := Option.map_eq_some_iff.mp h
  obtain ⟨hlt, -⟩ := List.getElem?_eq_some_iff.mp hblock
  obtain ⟨rest, rfl⟩ := hgrown
  rw [slotAt, List.getElem?_append_left hlt, hblock]
  rfl

/-- A slot lies in the events of its block. -/
theorem slotAt_within {blocks : List (ℕ × ℕ)} {fd p : ℕ} (h : slotAt blocks fd = some p) :
    ∃ block, blocks[fd / MAX_EPOLL_EVENTS]? = some block ∧ block.2 ≤ p ∧
      p + sizeofNtyevent ≤ block.2 + sizeofEvents := by
  obtain ⟨block, hblock, rfl⟩ := Option.map_eq_some_iff.mp h
  refine ⟨block, hblock, by omega, ?_⟩
  have hmod : fd % MAX_EPOLL_EVENTS < MAX_EPOLL_EVENTS := Nat.mod_lt _ (by decide)
  have hmul : (fd % MAX_EPOLL_EVENTS + 1) * sizeofNtyevent ≤ sizeofEvents :=
    Nat.mul_le_mul_right _ hmod
  rw [Nat.succ_mul] at hmul
  omega

/-- The events of blocks at different places are apart. -/
theorem events_apart {blocks : List (ℕ × ℕ)}
    (hapart : (blocks.flatMap parts).Pairwise Region.Apart) {i j : ℕ} (hne : i ≠ j)
    {block block' : ℕ × ℕ} (h : blocks[i]? = some block) (h' : blocks[j]? = some block') :
    Region.Apart ⟨block.2, sizeofEvents⟩ ⟨block'.2, sizeofEvents⟩ := by
  obtain ⟨hi, rfl⟩ := List.getElem?_eq_some_iff.mp h
  obtain ⟨hj, rfl⟩ := List.getElem?_eq_some_iff.mp h'
  have hpairwise := List.pairwise_iff_getElem.mp (List.pairwise_flatMap.mp hapart).2
  rcases Nat.lt_or_gt_of_ne hne with hlt | hlt
  · exact hpairwise i j hi hj hlt _ (by simp [parts]) _ (by simp [parts])
  · exact (hpairwise j i hj hi hlt _ (by simp [parts]) _ (by simp [parts])).symm

/-- The slots of different fds do not overlap. -/
theorem slotAt_apart {blocks : List (ℕ × ℕ)}
    (hapart : (blocks.flatMap parts).Pairwise Region.Apart) {fd fd' p p' : ℕ} (hne : fd ≠ fd')
    (h : slotAt blocks fd = some p) (h' : slotAt blocks fd' = some p') :
    p + sizeofNtyevent ≤ p' ∨ p' + sizeofNtyevent ≤ p := by
  obtain ⟨block, hblock, hlow, hhigh⟩ := slotAt_within h
  obtain ⟨block', hblock', hlow', hhigh'⟩ := slotAt_within h'
  by_cases hblk : fd / MAX_EPOLL_EVENTS = fd' / MAX_EPOLL_EVENTS
  · obtain ⟨block, hblock, rfl⟩ := Option.map_eq_some_iff.mp h
    rw [slotAt, ← hblk, hblock] at h'
    cases h'
    simp only [MAX_EPOLL_EVENTS, sizeofNtyevent] at *
    omega
  · have hevents := events_apart hapart hblk hblock hblock'
    simp only [Region.Apart] at hevents
    omega

/-- A caller that writes to its slot keeps the table. -/
theorem Heap.Table.store {slot : ℕ} (hlawful : Lawful (growth malloc trace n).2)
    (hh : h.Table malloc trace n) {fd : ℕ}
    (hslot : slotAt (growth malloc trace n).1 fd = some slot)
    (writes : List (Fin sizeofNtyevent × ℕ)) : (h.store slot writes).Table malloc trace n := by
  induction writes generalizing h with
  | nil => exact hh
  | cons w writes ih =>
      apply ih
      obtain ⟨block, hblock, hlow, hhigh⟩ := slotAt_within hslot
      have hsame : ∀ other ∈ (growth malloc trace n).1, ∀ i < sizeofEventblock,
          (h.write (slot + w.1) w.2).mem (other.1 + i) = h.mem (other.1 + i) := by
        intro other hother i hi
        have hw := w.1.isLt
        exact Function.update_of_ne (Ne.symm (events_ne_block (growth_apart hlawful)
          (List.mem_of_getElem? hblock) (by omega) (by omega) hother hi)) _ _
      refine ⟨⟨hh.chained.blkcnt, ?_, ?_⟩, hh.trace⟩
      · apply hh.chained.linked.congr
        intro b hb
        obtain ⟨other, hother, rfl⟩ := List.mem_map.mp hb
        exact hsame other hother 0 (by decide)
      · intro other hother
        rw [hsame other hother 8 (by decide)]
        exact hh.chained.events other hother

/-- The walk of `ntyreactor_idx` ends at the block of the fd. -/
theorem Heap.Chained.walk {blocks : List (ℕ × ℕ)} (hchained : h.Chained blocks) {sockfd : ℕ}
    (hlt : sockfd / MAX_EPOLL_EVENTS < blocks.length) :
    ∃ blk, walkBlocks h.mem (sockfd / MAX_EPOLL_EVENTS) h.evblk = blk ∧ blk ≠ 0 ∧
      slotAt blocks sockfd =
        some (h.mem (blk + 8) + sockfd % MAX_EPOLL_EVENTS * sizeofNtyevent) := by
  have hblock := List.getElem_mem hlt
  have hwalk := walkBlocks_linked hchained.linked (sockfd / MAX_EPOLL_EVENTS)
  rw [List.getElem?_map, List.getElem?_eq_getElem hlt] at hwalk
  refine ⟨_, hwalk, hchained.linked.nonnull _ (List.mem_map_of_mem hblock), ?_⟩
  rw [slotAt, List.getElem?_eq_getElem hlt]
  simp [hchained.events _ hblock]

/-- `ntyreactor_idx` finds the slot of the fd. -/
theorem Heap.ntyreactorIdx_spec {fuel sockfd : ℕ}
    (hlawful : Lawful (growth malloc trace (max n (sockfd / MAX_EPOLL_EVENTS + 1))).2)
    (hn : 0 < n) (hh : h.Table malloc trace n) (hfuel : sockfd / MAX_EPOLL_EVENTS < fuel) :
    ∃ h' p, h.ntyreactorIdx malloc fuel sockfd = some (h', p) ∧
      h'.Table malloc trace (max n (sockfd / MAX_EPOLL_EVENTS + 1)) ∧
      slotAt (growth malloc trace (max n (sockfd / MAX_EPOLL_EVENTS + 1))).1 sockfd = some p ∧
      h.Grown malloc trace n (max n (sockfd / MAX_EPOLL_EVENTS + 1)) h' := by
  have hrounds : sockfd / MAX_EPOLL_EVENTS + 1 - n < fuel := by
    generalize sockfd / MAX_EPOLL_EVENTS = blkidx at *
    omega
  obtain ⟨h', hloop, htable, hgrown⟩ := growLoop_spec hlawful hn hh hfuel hrounds
  have hlt : sockfd / MAX_EPOLL_EVENTS < max n (sockfd / MAX_EPOLL_EVENTS + 1) := by omega
  obtain ⟨blk, hwalk, hne, hslot⟩ := htable.chained.walk (by rwa [growth_length])
  refine ⟨h', _, ?_, htable, hslot, hgrown⟩
  simp [Heap.ntyreactorIdx, hloop, hwalk, hne]

/-- The caller of `ntyreactor_idx` writes to the slot it gets. -/
theorem Heap.access_spec {fuel : ℕ} {access : Access}
    (hlawful : Lawful (growth malloc trace (max n (access.sockfd / MAX_EPOLL_EVENTS + 1))).2)
    (hn : 0 < n) (hh : h.Table malloc trace n) (hfuel : access.sockfd / MAX_EPOLL_EVENTS < fuel) :
    ∃ h' p, h.access malloc fuel access = some (h', p) ∧
      h'.Table malloc trace (max n (access.sockfd / MAX_EPOLL_EVENTS + 1)) ∧
      slotAt (growth malloc trace (max n (access.sockfd / MAX_EPOLL_EVENTS + 1))).1
        access.sockfd = some p := by
  obtain ⟨h', p, hidx, htable, hslot, -⟩ := Heap.ntyreactorIdx_spec hlawful hn hh hfuel
  refine ⟨h'.store p access.writes, p, ?_, htable.store hlawful hslot _, hslot⟩
  simp [Heap.access, hidx]

/-- A run of accesses keeps the table, and the slots it has given out stay. -/
theorem Heap.access_run {fuel m : ℕ} (hlawful : Lawful (growth malloc trace m).2) (hfuel : m ≤ fuel)
    {accesses : List Access} (hfds : ∀ access ∈ accesses, access.sockfd / MAX_EPOLL_EVENTS < m)
    (hn : 0 < n) (hnm : n ≤ m) (hh : h.Table malloc trace n) :
    ∃ h' slots k, Transducer.run (Heap.access malloc fuel) h accesses = some (h', slots) ∧
      n ≤ k ∧ k ≤ m ∧ h'.Table malloc trace k ∧
      List.Forall₂ (fun access slot => slotAt (growth malloc trace k).1 access.sockfd = some slot)
        accesses slots := by
  induction accesses generalizing h n with
  | nil => exact ⟨h, [], n, rfl, Nat.le_refl n, hnm, hh, .nil⟩
  | cons access accesses ih =>
      have hlt := hfds access List.mem_cons_self
      have hle : max n (access.sockfd / MAX_EPOLL_EVENTS + 1) ≤ m := by omega
      obtain ⟨h₁, p, haccess, htable, hslot⟩ := Heap.access_spec
        (hlawful.of_suffix (growth_suffix hle)) hn hh (Nat.lt_of_lt_of_le hlt hfuel)
      obtain ⟨h₂, slots, k, hrun, hk, hkm, htable₂, hslots⟩ :=
        ih (fun access h => hfds access (List.mem_cons_of_mem _ h)) (by omega) hle htable
      refine ⟨h₂, p :: slots, k, ?_, by omega, hkm, htable₂, .cons ?_ hslots⟩
      · simp [Transducer.run, haccess, hrun]
      · exact slotAt_isPrefix (growth_isPrefix malloc trace hk) hslot

/-- What a call of `ntyreactor_idx` gives behind these accesses: `blkcnt` counts the blocks of a
list that has only been extended at its end, the slots of all calls are where the list has them,
slots of different fds do not overlap, and those that were there keep their contents. -/
structure Heap.Stable (h h' : Heap) (accesses : List Access) (slots : List ℕ) (sockfd p : ℕ)
    (blocks blocks' : List (ℕ × ℕ)) : Prop where
  chained : h.Chained blocks
  chained' : h'.Chained blocks'
  extended : blocks <+: blocks'
  slot : slotAt blocks' sockfd = some p
  slots : List.Forall₂ (fun access slot => slotAt blocks' access.sockfd = some slot) accesses slots
  apart : ∀ fd fd' q q', fd ≠ fd' → slotAt blocks' fd = some q → slotAt blocks' fd' = some q' →
    q + sizeofNtyevent ≤ q' ∨ q' + sizeofNtyevent ≤ q
  kept : ∀ fd q, slotAt blocks fd = some q → ∀ a, q ≤ a → a < q + sizeofNtyevent →
    h'.mem a = h.mem a

/-- As long as `malloc` gives what the blocks need, `ntyreactor_idx` maps the fds to slots of
their own that stay, in any run from `ntyreactor_init`. -/
theorem ntyreactorIdx_stable (malloc : Malloc) (trace : List Event) (mem : ℕ → ℕ)
    (accesses : List Access) (sockfd n fuel : ℕ)
    (hfds : ∀ fd ∈ sockfd :: accesses.map Access.sockfd, fd / MAX_EPOLL_EVENTS < n)
    (hlawful : Lawful (growth malloc trace n).2) (hfuel : n ≤ fuel) :
    ∃ h₀ h slots h' p blocks blocks',
      Heap.ntyreactorInit malloc mem trace = (h₀, 0) ∧
      Transducer.run (Heap.access malloc fuel) h₀ accesses = some (h, slots) ∧
      h.ntyreactorIdx malloc fuel sockfd = some (h', p) ∧
      h.Stable h' accesses slots sockfd p blocks blocks' := by
  have hlt := hfds sockfd List.mem_cons_self
  obtain ⟨h₀, hinit, htable₀⟩ :=
    ntyreactorInit_spec mem (hlawful.of_suffix (growth_suffix (Nat.one_le_of_lt hlt)))
  obtain ⟨h, slots, k, hrun, hk, hkn, htable, hslots⟩ := Heap.access_run hlawful hfuel
    (fun access h => hfds _ (List.mem_cons_of_mem _ (List.mem_map_of_mem h))) Nat.one_pos
    (Nat.one_le_of_lt hlt) htable₀
  have hlawful' : Lawful (growth malloc trace (max k (sockfd / MAX_EPOLL_EVENTS + 1))).2 :=
    hlawful.of_suffix (growth_suffix (Nat.max_le.mpr ⟨hkn, hlt⟩))
  obtain ⟨h', p, hidx, htable', hslot, hgrown⟩ :=
    Heap.ntyreactorIdx_spec hlawful' hk htable (Nat.lt_of_lt_of_le hlt hfuel)
  have hextends := growth_isPrefix malloc trace (Nat.le_max_left k (sockfd / MAX_EPOLL_EVENTS + 1))
  refine ⟨h₀, h, slots, h', p, _, _, hinit, hrun, hidx, htable.chained, htable'.chained, hextends,
    hslot, hslots.imp fun _ _ => slotAt_isPrefix hextends, ?_, ?_⟩
  · intro fd fd' q q' hne hq hq'
    exact slotAt_apart (growth_apart hlawful') hne hq hq'
  · intro fd q hq a hlow hhigh
    obtain ⟨block, hblock, hin, hend⟩ := slotAt_within hq
    exact hgrown.kept block (List.mem_of_getElem? hblock) a (by omega) (by omega)

/-- A system that has the regions lie one behind the other. -/
def bump : Malloc := fun trace _ => 4096 + trace.length * sizeofEvents

/-- A call that jumps over a block, and one that comes back. -/
def jump : List Access := [⟨2100, [(⟨0, by decide⟩, 7)]⟩, ⟨5, []⟩]

theorem ntyreactorIdx_stable_bump :
    ∃ h₀ h slots h' p blocks blocks',
      Heap.ntyreactorInit bump (fun _ => 9) [] = (h₀, 0) ∧
      Transducer.run (Heap.access bump 3) h₀ jump = some (h, slots) ∧
      h.ntyreactorIdx bump 3 1023 = some (h', p) ∧ h.Stable h' jump slots 1023 p blocks blocks' :=
  ntyreactorIdx_stable bump [] (fun _ => 9) jump 1023 3 3 (by decide) (by decide) (by decide)

/-! ## The table that the callbacks see -/

section Refinement

variable {M : Type} {zero : M}

/-- The words of a slot. -/
def Heap.words (h : Heap) (p : ℕ) (i : Fin sizeofNtyevent) : ℕ := h.mem (p + i)

/-- The slots of a block, as `decode` reads their words. -/
def Heap.events (decode : (Fin sizeofNtyevent → ℕ) → Ntyevent M) (h : Heap) (block : ℕ × ℕ)
    (i : Fin MAX_EPOLL_EVENTS) : Ntyevent M :=
  decode (h.words (block.2 + i * sizeofNtyevent))

def Heap.table (decode : (Fin sizeofNtyevent → ℕ) → Ntyevent M) (h : Heap)
    (blocks : List (ℕ × ℕ)) : Ntyreactor M :=
  ⟨h.blkcnt, blocks.map (h.events decode)⟩

/-- A word of a slot is a word of the events. -/
theorem slot_within (i : Fin MAX_EPOLL_EVENTS) (j : Fin sizeofNtyevent) :
    i * sizeofNtyevent + j < sizeofEvents := by
  have hmul : (i.val + 1) * sizeofNtyevent ≤ sizeofEvents := Nat.mul_le_mul_right _ i.isLt
  have hj := j.isLt
  rw [Nat.succ_mul] at hmul
  omega

theorem allocBlocks_eq (reactor : Ntyreactor M) (n : ℕ) :
    allocBlocks zero reactor n =
      ⟨reactor.blkcnt + n, reactor.evblk ++ List.replicate n fun _ => Ntyevent.zero zero⟩ := by
  rw [← allocBlocks_evblk, ← allocBlocks_blkcnt]

variable {decode : (Fin sizeofNtyevent → ℕ) → Ntyevent M}

theorem Heap.events_congr {h' : Heap} {block : ℕ × ℕ}
    (hsame : ∀ a, block.2 ≤ a → a < block.2 + sizeofEvents → h'.mem a = h.mem a) :
    h'.events decode block = h.events decode block := by
  funext i
  have hwords : h'.words (block.2 + i * sizeofNtyevent) =
      h.words (block.2 + i * sizeofNtyevent) := by
    funext j
    have hin := slot_within i j
    exact hsame _ (by omega) (by omega)
  rw [Heap.events, hwords, Heap.events]

theorem Heap.events_zero {block : ℕ × ℕ} (hzero : decode (fun _ => 0) = .zero zero)
    (hzeroed : ∀ a, block.2 ≤ a → a < block.2 + sizeofEvents → h.mem a = 0) :
    h.events decode block = fun _ => .zero zero := by
  funext i
  have hwords : h.words (block.2 + i * sizeofNtyevent) = fun _ => 0 := by
    funext j
    have hin := slot_within i j
    exact hzeroed _ (by omega) (by omega)
  rw [Heap.events, hwords, hzero]

/-- A table that has grown is one to which zeroed blocks have been added. -/
theorem Heap.Grown.table {h' : Heap} (hgrown : h.Grown malloc trace n m h') (hnm : n ≤ m)
    (hh : h.Table malloc trace n) (hh' : h'.Table malloc trace m)
    (hzero : decode (fun _ => 0) = .zero zero) :
    h'.table decode (growth malloc trace m).1 =
      allocBlocks zero (h.table decode (growth malloc trace n).1) (m - n) := by
  obtain ⟨rest, hrest⟩ := growth_isPrefix malloc trace hnm
  have hlength := growth_length malloc trace n
  have hlength' := growth_length malloc trace m
  rw [← hrest, List.length_append] at hlength'
  have hdrop : (growth malloc trace m).1.drop n = rest := by
    rw [← hrest, List.drop_left' hlength]
  have hold : (growth malloc trace n).1.map (h'.events decode) =
      (growth malloc trace n).1.map (h.events decode) := by
    apply List.map_congr_left
    intro block hblock
    exact Heap.events_congr (hgrown.kept block hblock)
  have hnew : rest.map (h'.events decode) = rest.map fun _ _ => .zero zero := by
    apply List.map_congr_left
    intro block hblock
    exact Heap.events_zero hzero (hgrown.zeroed block (hdrop ▸ hblock))
  have hblkcnt : h'.blkcnt = h.blkcnt + (m - n) := by
    rw [hh.chained.blkcnt, hh'.chained.blkcnt, growth_length, growth_length]
    omega
  rw [allocBlocks_eq, Heap.table, Heap.table, hblkcnt, ← hrest, List.map_append, hold, hnew,
    List.map_const', show rest.length = m - n by omega]

/-- `ntyreactor_idx` in memory does what it does on the list of blocks. -/
theorem Heap.ntyreactorIdx_refines {fuel sockfd : ℕ}
    (hlawful : Lawful (growth malloc trace (max n (sockfd / MAX_EPOLL_EVENTS + 1))).2)
    (hn : 0 < n) (hh : h.Table malloc trace n) (hfuel : sockfd / MAX_EPOLL_EVENTS < fuel)
    (hzero : decode (fun _ => 0) = .zero zero) :
    ∃ h' p blocks', h.ntyreactorIdx malloc fuel sockfd = some (h', p) ∧
      Reactor.ntyreactorIdx zero (h.table decode (growth malloc trace n).1) sockfd =
        some (h'.table decode blocks', slotOf sockfd) ∧
      (h'.table decode blocks').slot (slotOf sockfd) = some (decode (h'.words p)) := by
  obtain ⟨h', p, hidx, htable, hslot, hgrown⟩ := Heap.ntyreactorIdx_spec hlawful hn hh hfuel
  have hgrows := hgrown.table (Nat.le_max_left _ _) hh htable hzero
  have hmax : max n (sockfd / MAX_EPOLL_EVENTS + 1) - n =
      sockfd / MAX_EPOLL_EVENTS + 1 - (h.table decode (growth malloc trace n).1).blkcnt := by
    show _ = sockfd / MAX_EPOLL_EVENTS + 1 - h.blkcnt
    rw [hh.chained.blkcnt, growth_length]
    omega
  obtain ⟨block, hblock, rfl⟩ := Option.map_eq_some_iff.mp hslot
  obtain ⟨hlt, -⟩ := List.getElem?_eq_some_iff.mp hblock
  refine ⟨h', _, (growth malloc trace (max n (sockfd / MAX_EPOLL_EVENTS + 1))).1, hidx, ?_, ?_⟩
  · rw [Reactor.ntyreactorIdx, ← hmax, ← hgrows, if_pos]
    simpa [Heap.table] using hlt
  · simp [Ntyreactor.slot, Heap.table, slotOf, hblock, Heap.events]

end Refinement

end ServerKit.Reactor
