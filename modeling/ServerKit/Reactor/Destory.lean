import ServerKit.Reactor.Slots

/-! # The end of the table

`ntyreactor_destory` walks along the list of blocks and frees each with its events. -/

namespace ServerKit.Reactor

open ServerKit.SystemHeap ServerKit.WordMemory

/-- The loop `while (blk != NULL)`; the link is read before the block is freed. -/
def destoryLoop (mem : ℕ → ℕ) : ℕ → ℕ → List Event → Option (List Event)
  | 0, _, _ => none
  | fuel + 1, blk, trace =>
    if blk = 0 then some trace
    else destoryLoop mem fuel (mem blk) (.free blk :: .free (mem (blk + 8)) :: trace)

/-- `ntyreactor_destory` behind `close`. -/
def Heap.ntyreactorDestory (fuel : ℕ) (h : Heap) : Option Heap :=
  (destoryLoop h.mem fuel h.evblk h.trace).map fun trace => { h with trace := trace }

variable {trace : List Event}

/-- A live region is freed. -/
theorem live_perm_free (hlawful : Lawful trace) {r : Region} (hr : r ∈ live trace) :
    (live trace).Perm (r :: live (.free r.base :: trace)) := by
  obtain ⟨q, l₁, l₂, -, hq, hsplit, herase⟩ :=
    List.exists_of_eraseP (p := fun q => q.base == r.base) hr (beq_self_eq_true r.base)
  have hmem : q ∈ live trace := by
    rw [hsplit]
    exact List.mem_append_right _ List.mem_cons_self
  rw [live_free, herase, ← hlawful.eq_of_base_eq hmem hr (eq_of_beq hq), hsplit]
  exact List.perm_middle

/-- Freeing a region leaves those that are apart from it. -/
theorem mem_live_free (hlawful : Lawful trace) {r q : Region} (hr : r ∈ live trace)
    (hq : q ∈ live trace) (hapart : r.Apart q) : q ∈ live (.free r.base :: trace) := by
  have hmem := (live_perm_free hlawful hr).mem_iff.mp hq
  refine (List.mem_cons.mp hmem).resolve_left ?_
  rintro rfl
  exact hapart.base_ne rfl

/-- The blocks of the list are freed, and nothing else is. -/
theorem destoryLoop_linked {mem : ℕ → ℕ} {a fuel : ℕ} {blocks : List (ℕ × ℕ)}
    (hlinked : Linked mem 0 a (blocks.map Prod.fst))
    (hevents : ∀ block ∈ blocks, mem (block.1 + 8) = block.2) (hfuel : blocks.length < fuel)
    (hlawful : Lawful trace) (hapart : (blocks.flatMap parts).Pairwise Region.Apart)
    (hlive : ∀ r ∈ blocks.flatMap parts, r ∈ live trace) :
    ∃ trace', destoryLoop mem fuel a trace = some trace' ∧
      (live trace).Perm (blocks.flatMap parts ++ live trace') ∧
      (FreesLive trace → FreesLive trace') := by
  induction blocks generalizing a fuel trace with
  | nil =>
      obtain ⟨fuel, rfl⟩ := Nat.exists_eq_add_one_of_ne_zero (Nat.ne_zero_of_lt hfuel)
      exact ⟨trace, by rw [destoryLoop, if_pos (linked_nil.mp hlinked)], List.Perm.refl _, id⟩
  | cons block blocks ih =>
      obtain ⟨fuel, rfl⟩ := Nat.exists_eq_add_one_of_ne_zero (Nat.ne_zero_of_lt hfuel)
      obtain ⟨rfl, hne, hrest⟩ := hlinked
      rw [List.flatMap_cons] at hapart hlive ⊢
      obtain ⟨hparts, hapart', hcross⟩ := List.pairwise_append.mp hapart
      have hevs : (⟨block.2, sizeofEvents⟩ : Region) ∈ live trace := hlive _ (by simp [parts])
      have hown : (⟨block.1, sizeofEventblock⟩ : Region) ∈ live (.free block.2 :: trace) :=
        mem_live_free hlawful hevs (hlive _ (by simp [parts])) (List.pairwise_pair.mp hparts)
      have hlawful' : Lawful (.free block.2 :: trace) := hlawful
      have hlawful'' : Lawful (.free block.1 :: .free block.2 :: trace) := hlawful
      have hleft : ∀ r ∈ blocks.flatMap parts,
          r ∈ live (.free block.1 :: .free block.2 :: trace) := by
        intro r hr
        have hr' := mem_live_free hlawful hevs (hlive r (List.mem_append_right _ hr))
          (hcross _ (by simp [parts]) r hr)
        exact mem_live_free hlawful' hown hr' (hcross _ (by simp [parts]) r hr)
      obtain ⟨trace', hloop, hperm, hfrees⟩ := ih hrest
        (fun b hb => hevents b (List.mem_cons_of_mem _ hb)) (Nat.lt_of_succ_lt_succ hfuel) hlawful''
        hapart' hleft
      refine ⟨trace', ?_, ?_, ?_⟩
      · rw [destoryLoop, if_neg hne, hevents block List.mem_cons_self]
        exact hloop
      · have hfirst := live_perm_free hlawful hevs
        have hsecond := live_perm_free hlawful' hown
        exact hfirst.trans ((hsecond.trans (hperm.cons _)).cons _)
      · intro h
        refine hfrees ⟨.inr (List.mem_map_of_mem hown), .inr (List.mem_map_of_mem hevs), h⟩

theorem freesLive_growth {malloc : Malloc} (h : FreesLive trace) (n : ℕ) :
    FreesLive (growth malloc trace n).2 := by
  induction n with
  | zero => exact h
  | succ n ih => exact ih

/-- Whatever slots have been asked for and written to since `ntyreactor_init`,
`ntyreactor_destory` gives back all memory of the reactor, each region once, and no other. -/
theorem ntyreactorDestory_frees (malloc : Malloc) (trace : List Event) (mem : ℕ → ℕ)
    (accesses : List Access) (n fuel : ℕ) (hn : 0 < n)
    (hfds : ∀ access ∈ accesses, access.sockfd / MAX_EPOLL_EVENTS < n)
    (hlawful : Lawful (growth malloc trace n).2) (hfuel : n < fuel) :
    ∃ h₀ h slots h', Heap.ntyreactorInit malloc mem trace = (h₀, 0) ∧
      Transducer.run (Heap.access malloc fuel) h₀ accesses = some (h, slots) ∧
      h.ntyreactorDestory fuel = some h' ∧ (live h'.trace).Perm (live trace) ∧
      (FreesLive trace → FreesLive h'.trace) := by
  obtain ⟨h₀, hinit, htable₀⟩ := ntyreactorInit_spec mem (hlawful.of_suffix (growth_suffix hn))
  obtain ⟨h, slots, k, hrun, hk, hkn, htable, -⟩ :=
    Heap.access_run hlawful hfuel.le hfds Nat.one_pos hn htable₀
  have hlawful' : Lawful (growth malloc trace k).2 := hlawful.of_suffix (growth_suffix hkn)
  have hlive := live_growth malloc trace k
  have hlength : (growth malloc trace k).1.length < fuel := by
    rw [growth_length]
    exact Nat.lt_of_le_of_lt hkn hfuel
  have hparts : ∀ r ∈ (growth malloc trace k).1.flatMap parts,
      r ∈ live (growth malloc trace k).2 := by
    intro r hr
    rw [hlive]
    exact List.mem_append_left _ (List.mem_reverse.mpr hr)
  obtain ⟨trace', hloop, hperm, hfrees⟩ := destoryLoop_linked htable.chained.linked
    htable.chained.events hlength hlawful' (growth_apart hlawful') hparts
  refine ⟨h₀, h, slots, { h with trace := trace' }, hinit, hrun, ?_, ?_, ?_⟩
  · rw [Heap.ntyreactorDestory, htable.trace, hloop, Option.map_some]
  · rw [hlive] at hperm
    exact (List.perm_append_left_iff _).mp
      (hperm.symm.trans ((List.reverse_perm _).append_right _))
  · intro h
    exact hfrees (freesLive_growth h k)

theorem ntyreactorDestory_frees_bump :
    ∃ h₀ h slots h', Heap.ntyreactorInit bump (fun _ => 9) [] = (h₀, 0) ∧
      Transducer.run (Heap.access bump 4) h₀ jump = some (h, slots) ∧
      h.ntyreactorDestory 4 = some h' ∧ (live h'.trace).Perm [] ∧
      (FreesLive [] → FreesLive h'.trace) :=
  ntyreactorDestory_frees bump [] (fun _ => 9) jump 3 4 (by decide) (by decide) (by decide)
    (by decide)

end ServerKit.Reactor
