import ServerKit.Mempool.Independence

/-! # The pool frees what it has obtained, once

As long as it does not write over its own data: the records keep the blocks that are still to be
freed, and a record or a cleared block that lies over another record loses one of them. -/

namespace ServerKit.Mempool

open ServerKit.System ServerKit.SystemHeap

/-- **Ownership.** Whatever is called and whatever the system answers, as long as the pool's own
data are not written over, `mp_destory_pool` ends, every region that the pool has obtained is then
freed, each of them once, and nothing else but `NULL`. -/
theorem freed_exactly_once {calls : List Call} {fuel p size : ℕ} {contents : ℕ → ℕ}
    (hsize : SizeFits size) (hnull : contents (p + 40) = 0)
    (hlawful : Lawful (createPool p size contents).trace)
    (hcareful : Admits (Heap.next fuel p) (Heap.Careful p) (createPool p size contents) calls)
    (hfuel : calls.length + 1 < fuel) :
    ∃ rets trace, lifetime fuel p size contents calls = some (rets, trace) ∧ FreesLive trace ∧
      live trace = [] := by
  have hcreated := createPool_holds hsize hlawful hnull
  obtain ⟨heap, -, rets, s, hcalls, -, hheld, -, haddr, hroom⟩ :=
    calls_agree hcreated hcreated rfl hcareful (created_room p size hfuel)
  obtain ⟨hfrees, hnone⟩ := mpDestoryPool_frees hheld.intact.owns
  exact ⟨rets, mpDestoryPool s, lifetime_eq hcalls hheld haddr hroom, hfrees, hnone⟩

/-- A large block is recorded, freed and freed again, another one takes its record, a node is
added and written, and for the last block there is no record. -/
def mixedFrees : List Call :=
  [.mpAlloc 5000 [some (8192, fun _ => 7)], .mpFree 8192, .mpFree 8192, .mpFree 0,
    .mpNalloc 6000 [some (16384, fun _ => 7)], .mpAlloc 40 [none],
    .mpAlloc 40 [some (32768, fun _ => 7)], .store 32800 9, .mpFree 32800,
    .mpMemalign 100 64 [some (65536, fun _ => 7)],
    .mpMemalign 100 64 [some (131072, fun _ => 7), none]]

theorem freed_exactly_once_mixedFrees :
    ∃ rets trace, lifetime 13 4096 72 (fun _ => 0) mixedFrees = some (rets, trace) ∧
      FreesLive trace ∧ live trace = [] :=
  freed_exactly_once (by decide) rfl (by decide)
    (admits_of_shapes (createPool_holds (by decide) (by decide) rfl) ⟨by decide, by decide⟩
      (by decide +kernel)) (by decide)

/-- The head has 8 bytes left after the first block, and the second node lies right behind it.
`mp_nalloc` takes the 8 bytes, so that the next block, which `mp_calloc` clears, lies over the
header of the second node and the record in it: its large block is never freed. -/
theorem record_cleared :
    Lawful (createPool 4096 4080 fun _ => 0).trace ∧
      ∃ rets trace, lifetime 6 4096 4080 (fun _ => 0)
          [.mpAlloc 4064 [], .mpAlloc 8192 [some (65536, fun _ => 0), some (8256, fun _ => 0)],
            .mpNalloc 8 [], .mpCalloc 48 []] = some (rets, trace) ∧
        Lawful trace ∧ live trace = [⟨65536, 8192⟩] :=
  ⟨by decide, _, _, rfl, by decide +kernel, by decide +kernel⟩

end ServerKit.Mempool
