import ServerKit.Reactor.Run

/-! # The table of slots as a map from fds

A table whose `blkcnt` counts its blocks behaves like a map from fds to slots in which
`ntyreactor_idx` changes nothing: it only adds blocks of zeroed slots. -/

namespace ServerKit.Reactor

variable {M : Type} {zero : M}

/-- `blkcnt` is the number of blocks. -/
def Ntyreactor.Linked (reactor : Ntyreactor M) : Prop := reactor.blkcnt = reactor.evblk.length

/-- The slot of an fd; beyond the table, the zeroed slot it will get. -/
def Ntyreactor.event (zero : M) (reactor : Ntyreactor M) (fd : ℕ) : Ntyevent M :=
  (reactor.slot (slotOf fd)).getD (.zero zero)

/-- The block of the fd is there. -/
def Ntyreactor.Allocated (reactor : Ntyreactor M) (fd : ℕ) : Prop :=
  fd / MAX_EPOLL_EVENTS < reactor.evblk.length

/-- Different fds have different slots. -/
theorem slotOf_injective : Function.Injective slotOf := by
  intro a b h
  have hblk : a / MAX_EPOLL_EVENTS = b / MAX_EPOLL_EVENTS := congrArg SlotPtr.blk h
  have hoff : a % MAX_EPOLL_EVENTS = b % MAX_EPOLL_EVENTS :=
    congrArg Fin.val (congrArg SlotPtr.off h)
  rw [← Nat.div_add_mod a MAX_EPOLL_EVENTS, hblk, hoff, Nat.div_add_mod]

theorem slotOf_inj {a b : ℕ} : slotOf a = slotOf b ↔ a = b := slotOf_injective.eq_iff

/-- An allocated slot is there, and holds the value of the map. -/
theorem Ntyreactor.Allocated.slot {reactor : Ntyreactor M} {fd : ℕ}
    (h : reactor.Allocated fd) (zero : M) :
    reactor.slot (slotOf fd) = some (reactor.event zero fd) := by
  have hblk : reactor.evblk[(slotOf fd).blk]? = some (reactor.evblk.get ⟨_, h⟩) :=
    List.getElem?_eq_getElem h
  simp [Ntyreactor.event, Ntyreactor.slot, hblk]

/-! ## Growing -/

theorem allocBlocks_evblk (reactor : Ntyreactor M) (n : ℕ) :
    (allocBlocks zero reactor n).evblk =
      reactor.evblk ++ List.replicate n fun _ => Ntyevent.zero zero := by
  induction n generalizing reactor with
  | zero => simp [allocBlocks]
  | succ n ih => simp [allocBlocks, ih, ntyreactorAlloc, List.replicate_succ]

theorem allocBlocks_blkcnt (reactor : Ntyreactor M) (n : ℕ) :
    (allocBlocks zero reactor n).blkcnt = reactor.blkcnt + n := by
  induction n generalizing reactor with
  | zero => rfl
  | succ n ih =>
      rw [allocBlocks, ih]
      show reactor.blkcnt + 1 + n = reactor.blkcnt + (n + 1)
      omega

/-- A new block holds what the map had for its fds already. -/
theorem allocBlocks_event (reactor : Ntyreactor M) (n fd : ℕ) :
    (allocBlocks zero reactor n).event zero fd = reactor.event zero fd := by
  unfold Ntyreactor.event Ntyreactor.slot
  rw [allocBlocks_evblk, List.getElem?_append]
  split
  · rfl
  · rename_i hlong
    rw [List.getElem?_replicate, List.getElem?_eq_none (by omega)]
    split
    · rfl
    · rfl

/-- `ntyreactor_idx` finds the slot of the fd in a table that maps every fd to the same
contents as before. -/
theorem ntyreactorIdx_spec (zero : M) {reactor : Ntyreactor M} (hlinked : reactor.Linked) (fd : ℕ) :
    ∃ reactor', ntyreactorIdx zero reactor fd = some (reactor', slotOf fd) ∧
      reactor'.Linked ∧ reactor'.Allocated fd ∧
      (∀ fd', reactor.Allocated fd' → reactor'.Allocated fd') ∧
      ∀ fd', reactor'.event zero fd' = reactor.event zero fd' := by
  let n := fd / MAX_EPOLL_EVENTS + 1 - reactor.blkcnt
  have hlength : (allocBlocks zero reactor n).evblk.length = reactor.evblk.length + n := by
    rw [allocBlocks_evblk]
    simp
  have hblk : fd / MAX_EPOLL_EVENTS < (allocBlocks zero reactor n).evblk.length := by
    rw [hlength, ← hlinked]
    omega
  refine ⟨allocBlocks zero reactor n, if_pos hblk, ?_, hblk, ?_, allocBlocks_event reactor n⟩
  · unfold Ntyreactor.Linked
    rw [hlength, allocBlocks_blkcnt, hlinked]
  · intro fd' hfd'
    unfold Ntyreactor.Allocated at *
    omega

/-! ## Writing -/

theorem setSlot_length (reactor : Ntyreactor M) (p : SlotPtr) (ev : Ntyevent M) :
    (reactor.setSlot p ev).evblk.length = reactor.evblk.length :=
  List.length_modify _ _ _

/-- The slot of one fd changes, the others stay. -/
theorem setSlot_event {reactor : Ntyreactor M} {fd : ℕ} (halloc : reactor.Allocated fd)
    (ev : Ntyevent M) (fd' : ℕ) :
    (reactor.setSlot (slotOf fd) ev).event zero fd' =
      if fd' = fd then ev else reactor.event zero fd' := by
  unfold Ntyreactor.event Ntyreactor.slot Ntyreactor.setSlot
  rw [List.getElem?_modify]
  by_cases hblk : (slotOf fd).blk = (slotOf fd').blk
  · have hget : reactor.evblk[(slotOf fd').blk]? = some (reactor.evblk.get ⟨_, halloc⟩) := by
      rw [← hblk]
      exact List.getElem?_eq_getElem halloc
    rw [hget]
    simp only [if_pos hblk, Option.map_eq_map, Option.map_some, Option.getD_some]
    by_cases hfd : fd' = fd
    · subst hfd
      simp
    · have hoff : (slotOf fd').off ≠ (slotOf fd).off := by
        intro hoff
        apply hfd
        apply slotOf_injective
        cases hp : slotOf fd'
        cases hq : slotOf fd
        simp_all
      simp [hfd, Function.update_of_ne hoff]
  · have hfd : fd' ≠ fd := by
      intro hfd
      exact hblk (by rw [hfd])
    simp [if_neg hblk, if_neg hfd]

/-! ## Bodies run on a slot -/

/-- The effect of a body on the system: the slot of `fd` and the world outside. -/
structure Sys.Updated (zero : M) (s : Sys M) (fd : ℕ) (h : Host) (ev : Ntyevent M)
    (s' : Sys M) : Prop where
  host : s'.host = h
  ready : s'.ready = s.ready
  phase : s'.phase = s.phase
  linked : s'.reactor.Linked
  allocated : ∀ fd', fd' = fd ∨ s.reactor.Allocated fd' → s'.reactor.Allocated fd'
  event : ∀ fd', s'.reactor.event zero fd' = if fd' = fd then ev else s.reactor.event zero fd'

variable {server : Server M}

/-- A body runs on the slot of its fd. -/
theorem onSlot_updated {s : Sys M} (hlinked : s.reactor.Linked) (fd : ℕ)
    {body : SlotPtr → Host → Ntyevent M → Option (Host × Ntyevent M)} {h : Host}
    {ev : Ntyevent M}
    (hbody : body (slotOf fd) s.host (s.reactor.event server.zero fd) = some (h, ev)) :
    ∃ s', onSlot server fd body s = some s' ∧ s.Updated server.zero fd h ev s' := by
  rcases ntyreactorIdx_spec server.zero hlinked fd with
    ⟨reactor, hidx, hlinked', halloc, hmono, hevent⟩
  refine ⟨{ s with reactor := reactor.setSlot (slotOf fd) ev, host := h }, ?_, ?_⟩
  · unfold onSlot
    simp only [hidx, Option.bind_some, halloc.slot server.zero, hevent, hbody, Option.map_some]
  · refine ⟨rfl, rfl, rfl, ?_, ?_, ?_⟩
    · unfold Ntyreactor.Linked
      rw [setSlot_length]
      exact hlinked'
    · intro fd' hfd'
      unfold Ntyreactor.Allocated
      rw [setSlot_length]
      rcases hfd' with rfl | hfd'
      · exact halloc
      · exact hmono fd' hfd'
    · intro fd'
      rw [setSlot_event halloc, hevent]

/-- Conversely, a successful run comes from a successful body. -/
theorem onSlot_eq_some {s s' : Sys M} (hlinked : s.reactor.Linked) {fd : ℕ}
    {body : SlotPtr → Host → Ntyevent M → Option (Host × Ntyevent M)}
    (h : onSlot server fd body s = some s') :
    ∃ h ev, body (slotOf fd) s.host (s.reactor.event server.zero fd) = some (h, ev) ∧
      s.Updated server.zero fd h ev s' := by
  cases hbody : body (slotOf fd) s.host (s.reactor.event server.zero fd) with
  | none =>
      rcases ntyreactorIdx_spec server.zero hlinked fd with
        ⟨reactor, hidx, _, halloc, _, hevent⟩
      unfold onSlot at h
      simp only [hidx, Option.bind_some, halloc.slot server.zero, hevent, hbody,
        Option.map_none] at h
      cases h
  | some r =>
      rcases onSlot_updated hlinked fd hbody with ⟨t, ht, hupd⟩
      rw [h] at ht
      cases ht
      exact ⟨r.1, r.2, rfl, hupd⟩

end ServerKit.Reactor
