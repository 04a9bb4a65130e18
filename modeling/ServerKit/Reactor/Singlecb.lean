import ServerKit.Reactor.Loop

/-! # `reactor_singlecb_server.c`: the slots, their callbacks and epoll

The echo server adds nothing to the reactor. Its `recv_cb` takes the slot out of epoll
before it looks at the result of `recv`. -/

namespace ServerKit.Reactor

open ServerKit.System

/-- `recv_cb` of the echo server. -/
def Singlecb.recvCb (fd : ℕ) (p : SlotPtr) (result : RecvResult) (h : Host)
    (ev : Ntyevent Unit) : Host × Ntyevent Unit :=
  match result with
  | .data bytes =>
    let h := h.recv fd bytes
    let (h, ev, _) := ntyEventDel h p ev
    let ev := storeChunk ev bytes
    let ev := ntyEventSet ev fd .sendCb
    let (h, ev, _) := ntyEventAdd h EPOLLOUT p ev
    (h, ev)
  | .eof | .error =>
    let (h, ev, _) := ntyEventDel h p ev
    (h.close ev.fd, ev)

/-- A removal and a chunk do not touch the same fields. -/
theorem ntyEventDel_storeChunk {M : Type} (h : Host) (p : SlotPtr) (ev : Ntyevent M)
    (bytes : List UInt8) :
    ntyEventDel h p (storeChunk ev bytes) =
      ((ntyEventDel h p ev).1, storeChunk (ntyEventDel h p ev).2.1 bytes,
        (ntyEventDel h p ev).2.2) := by
  unfold ntyEventDel storeChunk
  by_cases hlen : bytes.length < BUFFER_LENGTH
  · by_cases hstatus : ev.status = 1
    · simp [hlen, hstatus]
    · simp [hlen, hstatus]
  · by_cases hstatus : ev.status = 1
    · simp [hlen, hstatus]
    · simp [hlen, hstatus]

theorem Singlecb.recvCb_eq (fd : ℕ) (p : SlotPtr) (result : RecvResult) (h : Host)
    (ev : Ntyevent Unit) :
    some (Singlecb.recvCb fd p result h ev) = Reactor.recvCb some fd p result h ev := by
  cases result with
  | data bytes =>
      simp only [Singlecb.recvCb, Reactor.recvCb, Option.map_some, armSend,
        ntyEventDel_storeChunk]
  | eof => rfl
  | error => rfl

/-- The echo server. -/
def singlecb : Server Unit where
  zero := ()
  reset := id
  request := some
  recvCb fd p result h ev := some (Singlecb.recvCb fd p result h ev)
  recvCb_eq := Singlecb.recvCb_eq
  request_frame := by
    intro ev ev' h
    cases h
    rfl
  request_length := by
    intro ev ev' h hlow hhigh
    cases h
    exact ⟨hlow, hhigh⟩

variable {M : Type} {server : Server M}

/-- For a registered fd `ntyreactor_idx` finds an allocated slot. -/
theorem ntyreactorIdx_event {s : Sys M} (hs : s.Consistent server.zero) (fd : ℕ) :
    ∃ reactor, ntyreactorIdx server.zero s.reactor fd = some (reactor, slotOf fd) ∧
      reactor.slot (slotOf fd) = some (s.reactor.event server.zero fd) := by
  rcases ntyreactorIdx_spec server.zero hs.linked fd with
    ⟨reactor, hidx, _, halloc, _, hevent⟩
  refine ⟨reactor, hidx, ?_⟩
  rw [halloc.slot server.zero, hevent]

/-- The fd of a call and what is known about it. -/
theorem Sys.Valid.calls {s : Sys M} (hs : s.Valid server.zero) {callback : Callback} {fd : ℕ}
    (hcall : s.call = some (callback, fd)) : s.Calls server.zero callback fd := by
  rcases hs with ⟨hs, fds, hp⟩
  cases fds with
  | nil =>
      have hready : s.ready = [] := by simpa using hp.slots
      simp [Sys.call, Sys.current, hready] at hcall
  | cons fd' fds =>
      rcases hp.calls hs hcall with ⟨heq, hcalls⟩
      rw [heq]
      exact hcalls

/-- A registered slot, in the words of the source. -/
theorem Sys.Consistent.slot_of_interest {s : Sys M} (hs : s.Consistent server.zero) {fd : ℕ}
    {i : Interest} (hi : s.host.interest fd = some i) :
    i.ptr = slotOf fd ∧ s.reactor.slot (slotOf fd) = some (s.reactor.event server.zero fd) ∧
      (s.reactor.event server.zero fd).fd = fd ∧
      i.mask = (s.reactor.event server.zero fd).events ∧
      (i.mask = EPOLLOUT ∧ (s.reactor.event server.zero fd).callback = .sendCb ∨
        i.mask = EPOLLIN ∧ ((s.reactor.event server.zero fd).callback = .recvCb ∨
          (s.reactor.event server.zero fd).callback = .acceptCb)) := by
  have halloc := hs.allocated fd (Option.isSome_iff_exists.mpr ⟨i, hi⟩)
  have hreg := (hs.fds fd).registered i hi
  refine ⟨hreg.ptr, halloc.slot server.zero, hreg.fd_eq, hreg.mask, ?_⟩
  rw [hreg.mask]
  rcases hreg.serves with ⟨sock, _, hserves⟩
  cases sock with
  | other => exact absurd hserves id
  | listener => exact .inr ⟨hserves.1, .inr hserves.2⟩
  | conn c =>
      rcases hserves with ⟨hevents, hrecv⟩ | ⟨hevents, hsend, _⟩
      · exact .inr ⟨hevents, .inl hrecv⟩
      · exact .inl ⟨hevents, hsend⟩

/-- The next callback belongs to an open fd. -/
theorem Sys.Calls.open {zero : M} {s : Sys M} {callback : Callback} {fd : ℕ}
    (h : s.Calls zero callback fd) : s.host.socket fd ≠ none ∧ callback ≠ .null := by
  rcases h.role with ⟨hcb, _, hsock⟩ | ⟨c, hsock, ⟨hcb, _⟩ | ⟨hcb, _⟩⟩
  · exact ⟨by simp [hsock], by simp [hcb]⟩
  · exact ⟨by simp [hsock], by simp [hcb]⟩
  · exact ⟨by simp [hsock], by simp [hcb]⟩

/-- `send_cb` has something to send, and it lies in the buffer. -/
theorem Sys.Calls.length {zero : M} {s : Sys M} {fd : ℕ} (h : s.Calls zero .sendCb fd) :
    1 ≤ (s.reactor.event zero fd).length ∧ (s.reactor.event zero fd).length ≤ BUFFER_LENGTH := by
  rcases h.role with ⟨hcb, _⟩ | ⟨c, _, ⟨hcb, _⟩ | ⟨_, _, hbounds⟩⟩
  · cases hcb
  · cases hcb
  · exact hbounds

/-- **Agreement with epoll.** Between two callbacks the slot that `ntyreactor_idx` finds for
an fd has status 1 exactly when the fd is registered, and then epoll holds a pointer to it
and its events, its fd is this one and its callback fits the event. No `nty_event_add` has
failed. The next callback belongs to an open fd, and `send_cb` has something to send that
lies in the buffer. -/
theorem slots_agree_with_epoll {s : Sys Unit}
    (h : Reachable (next singlecb) (Start singlecb) anyStep s) :
    (∀ fd, ∃ reactor p ev, ntyreactorIdx () s.reactor fd = some (reactor, p) ∧
      reactor.slot p = some ev ∧ (ev.status = 1 ↔ (s.host.interest fd).isSome) ∧
      ∀ i, s.host.interest fd = some i →
        i.ptr = p ∧ s.reactor.slot p = some ev ∧ ev.fd = fd ∧ i.mask = ev.events ∧
        (i.mask = EPOLLOUT ∧ ev.callback = .sendCb ∨
          i.mask = EPOLLIN ∧ (ev.callback = .recvCb ∨ ev.callback = .acceptCb))) ∧
    s.host.failedAdds = [] ∧
    ∀ callback fd, s.call = some (callback, fd) →
      s.host.socket fd ≠ none ∧ callback ≠ .null ∧
      (callback = .sendCb → ∀ reactor p ev, ntyreactorIdx () s.reactor fd = some (reactor, p) →
        reactor.slot p = some ev → 1 ≤ ev.length ∧ ev.length ≤ BUFFER_LENGTH) := by
  have hs : s.Valid singlecb.zero := valid_of_reachable h
  refine ⟨?_, hs.1.failedAdds, ?_⟩
  · intro fd
    rcases ntyreactorIdx_event hs.1 fd with ⟨reactor, hidx, hslot⟩
    refine ⟨reactor, slotOf fd, _, hidx, hslot, (hs.1.fds fd).status, ?_⟩
    intro i hi
    exact hs.1.slot_of_interest hi
  · intro callback fd hcall
    have hcalls := hs.calls hcall
    refine ⟨hcalls.open.1, hcalls.open.2, ?_⟩
    intro hsend reactor p ev hidx hslot
    subst hsend
    rcases ntyreactorIdx_event hs.1 fd with ⟨reactor', hidx', hslot'⟩
    have hpair := Prod.mk.inj (Option.some.inj (hidx.symm.trans hidx'))
    rw [hpair.1, hpair.2, hslot'] at hslot
    cases hslot
    exact hcalls.length

/-- A listener on fd 3 and a connection on fd 4 whose first chunk waits to be sent. -/
theorem slots_agree_with_epoll_twoFds :
    ∃ s, runFrom singlecb 3 [.epollWait [(3, EPOLLIN)], .test (.accept (some 4)),
        .test (.send 0), .epollWait [(4, EPOLLIN)], .test (.recv (.data [104, 105])),
        .test (.send 0), .epollWait [(4, EPOLLOUT)], .test (.send 0)] = some s ∧
      s.call = some (.sendCb, 4) ∧ s.host.failedAdds = [] := by
  have hcall : (runFrom singlecb 3 [.epollWait [(3, EPOLLIN)], .test (.accept (some 4)),
        .test (.send 0), .epollWait [(4, EPOLLIN)], .test (.recv (.data [104, 105])),
        .test (.send 0), .epollWait [(4, EPOLLOUT)], .test (.send 0)]).map Sys.call =
      some (some (.sendCb, 4)) := rfl
  rcases Option.map_eq_some_iff.mp hcall with ⟨s, hs, hcall⟩
  exact ⟨s, hs, hcall, (slots_agree_with_epoll (reachable_of_runFrom hs)).2.1⟩

end ServerKit.Reactor
