import ServerKit.Reactor.Table

/-! # The slots agree with epoll

A callback works on the slot of one fd. If the slot agrees with epoll's interest list
before it, it does so afterwards, and the other fds are left alone. The events that
`epoll_wait` has reported stay valid while the loop goes through them. -/

namespace ServerKit.Reactor

variable {M : Type} {server : Server M}

/-- How a registered slot treats what its fd refers to. -/
def Serves (ev : Ntyevent M) : Socket → Prop
  | .other => False
  | .listener => ev.events = EPOLLIN ∧ ev.callback = .acceptCb
  | .conn _ =>
    ev.events = EPOLLIN ∧ ev.callback = .recvCb ∨
      ev.events = EPOLLOUT ∧ ev.callback = .sendCb ∧ 1 ≤ ev.length ∧ ev.length ≤ BUFFER_LENGTH

/-- The entry `i` of epoll's list belongs to the slot of the open `fd`. -/
structure Registered (h : Host) (ev : Ntyevent M) (fd : ℕ) (i : Interest) : Prop where
  ptr : i.ptr = slotOf fd
  fd_eq : ev.fd = fd
  mask : i.mask = ev.events
  serves : ∃ sock, h.socket fd = some sock ∧ Serves ev sock

/-- A slot and epoll agree on an fd. -/
structure FdOk (h : Host) (ev : Ntyevent M) (fd : ℕ) : Prop where
  status : ev.status = 1 ↔ (h.interest fd).isSome
  registered : ∀ i, h.interest fd = some i → Registered h ev fd i

/-- Agreement on an fd depends on nothing else than its entries outside. -/
theorem FdOk.congr {h h' : Host} {ev : Ntyevent M} {fd : ℕ} (hok : FdOk h ev fd)
    (hinterest : h'.interest fd = h.interest fd) (hsocket : h'.socket fd = h.socket fd) :
    FdOk h' ev fd := by
  constructor
  · rw [hinterest]
    exact hok.status
  · intro i hi
    rw [hinterest] at hi
    have hreg := hok.registered i hi
    refine ⟨hreg.ptr, hreg.fd_eq, hreg.mask, ?_⟩
    rw [hsocket]
    exact hreg.serves

/-- A slot without an entry. -/
theorem FdOk.of_unregistered {h : Host} {ev : Ntyevent M} {fd : ℕ} (hstatus : ev.status ≠ 1)
    (hinterest : h.interest fd = none) : FdOk h ev fd := by
  constructor
  · simp [hstatus, hinterest]
  · intro i hi
    rw [hinterest] at hi
    cases hi

/-- What registered slots have in common with closed fds: nothing. -/
theorem FdOk.interest_eq_none {h : Host} {ev : Ntyevent M} {fd : ℕ} (hok : FdOk h ev fd)
    (hclosed : h.socket fd = none) : h.interest fd = none := by
  cases hi : h.interest fd with
  | none => rfl
  | some i =>
      rcases (hok.registered i hi).serves with ⟨sock, hsock, _⟩
      rw [hclosed] at hsock
      cases hsock

/-! ## What the pieces of the callbacks do -/

/-- Registering again: the slot is taken out of epoll, set and entered with the new event. -/
theorem del_set_add {h : Host} {ev : Ntyevent M} {fd : ℕ} {i : Interest} (p : SlotPtr)
    (callback : Callback) (events : ℕ) (hstatus : ev.status = 1) (hfd : ev.fd = fd)
    (hi : h.interest fd = some i) :
    ntyEventAdd (ntyEventDel h p ev).1 events p
        (ntyEventSet (ntyEventDel h p ev).2.1 fd callback) =
      ({ h with interest := Function.update h.interest fd (some ⟨events, p⟩) },
        { ev with fd := fd, callback := callback, events := events, status := 1 }, 0) := by
  subst hfd
  simp [ntyEventAdd, ntyEventDel, ntyEventSet, epollCtl, hstatus, hi]

/-- A new registration. -/
theorem set_add {h : Host} {ev : Ntyevent M} {fd : ℕ} (p : SlotPtr) (callback : Callback)
    (events : ℕ) (hstatus : ev.status ≠ 1) (hi : h.interest fd = none) :
    ntyEventAdd h events p (ntyEventSet ev fd callback) =
      ({ h with interest := Function.update h.interest fd (some ⟨events, p⟩) },
        { ev with fd := fd, callback := callback, events := events, status := 1 }, 0) := by
  simp [ntyEventAdd, ntyEventSet, epollCtl, hstatus, hi]

/-- Closing after the removal. -/
theorem delClose_eq {h : Host} {ev : Ntyevent M} {fd : ℕ} {i : Interest} (p : SlotPtr)
    (hstatus : ev.status = 1) (hfd : ev.fd = fd) (hi : h.interest fd = some i) :
    delClose h p ev = (h.close fd, { ev with status := 0 }) := by
  subst hfd
  simp [delClose, ntyEventDel, epollCtl, Host.close, hstatus, hi]

/-- Closing before the removal: `epoll_ctl` fails, with the same result. -/
theorem close_del {h : Host} {ev : Ntyevent M} {fd : ℕ} (p : SlotPtr) (hstatus : ev.status = 1)
    (hfd : ev.fd = fd) :
    ntyEventDel (h.close ev.fd) p ev = (h.close fd, { ev with status := 0 }, 0) := by
  subst hfd
  simp [ntyEventDel, epollCtl, Host.close, hstatus]

@[simp] theorem onConn_interest (h : Host) (fd : ℕ) (f : Conn → Conn) :
    (h.onConn fd f).interest = h.interest := by
  unfold Host.onConn
  split
  · rfl
  · rfl

@[simp] theorem onConn_socket (h : Host) (fd : ℕ) (f : Conn → Conn) :
    (h.onConn fd f).socket = h.socket := by
  unfold Host.onConn
  split
  · rfl
  · rfl

@[simp] theorem onConn_accepted (h : Host) (fd : ℕ) (f : Conn → Conn) :
    (h.onConn fd f).accepted = h.accepted := by
  unfold Host.onConn
  split
  · rfl
  · rfl

@[simp] theorem onConn_failedAdds (h : Host) (fd : ℕ) (f : Conn → Conn) :
    (h.onConn fd f).failedAdds = h.failedAdds := by
  unfold Host.onConn
  split
  · rfl
  · rfl

/-- The record of the connection of `fd` changes. -/
theorem onConn_eq {h : Host} {fd c : ℕ} (hsock : h.socket fd = some (.conn c))
    (f : Conn → Conn) :
    h.onConn fd f = { h with conns := Function.update h.conns c (f (h.conns c)) } := by
  unfold Host.onConn
  rw [hsock]

/-- A chunk in the buffer leaves the fields that epoll is about. -/
theorem storeChunk_frame (ev : Ntyevent M) (bytes : List UInt8) :
    storeChunk ev bytes = { ev with buffer := (storeChunk ev bytes).buffer
                                    length := (storeChunk ev bytes).length } := by
  unfold storeChunk
  simp only
  split
  · rfl
  · rfl

/-- The length is the one of the chunk: 4096 has a zero in its low byte. -/
theorem storeChunk_length (ev : Ntyevent M) {bytes : List UInt8}
    (hbytes : bytes.length ≤ BUFFER_LENGTH) : (storeChunk ev bytes).length = bytes.length := by
  unfold storeChunk
  simp only
  split
  · rfl
  · have hlen : bytes.length = 4096 := by
      unfold BUFFER_LENGTH at *
      omega
    simp [hlen]

/-- A slot with a chunk sends the chunk. -/
theorem storeChunk_pending (ev : Ntyevent M) {bytes : List UInt8}
    (hbytes : bytes.length ≤ BUFFER_LENGTH) : (storeChunk ev bytes).pending = bytes := by
  unfold Ntyevent.pending
  rw [storeChunk_length ev hbytes]
  unfold storeChunk
  simp only
  split
  · rw [List.take_set_of_le (Nat.le_refl _)]
    exact List.take_left
  · exact List.take_left

/-- The buffer holds the chunk, a zero byte and what was there before. -/
theorem storeChunk_buffer {ev : Ntyevent M} {bytes : List UInt8}
    (hbuffer : ev.buffer.length = BUFFER_LENGTH) (hlen : bytes.length < BUFFER_LENGTH) :
    (storeChunk ev bytes).buffer = bytes ++ 0 :: ev.buffer.drop (bytes.length + 1) := by
  have hdrop : (ev.buffer.drop bytes.length).set 0 0 =
      0 :: ev.buffer.drop (bytes.length + 1) := by
    rw [List.drop_eq_getElem_cons (by omega), List.set_cons_zero]
  unfold storeChunk
  simp only
  rw [if_pos hlen]
  simp only
  rw [List.set_append_right _ _ (Nat.le_refl _), Nat.sub_self, hdrop]

/-- A chunk that fills the buffer. -/
theorem storeChunk_buffer_full {ev : Ntyevent M} {bytes : List UInt8}
    (hbuffer : ev.buffer.length = BUFFER_LENGTH) (hlen : bytes.length = BUFFER_LENGTH) :
    (storeChunk ev bytes).buffer = bytes := by
  unfold storeChunk
  simp only
  rw [if_neg (by omega)]
  simp only
  rw [List.drop_eq_nil_of_le (by omega), List.append_nil]

/-! ## One fd -/

/-- A callback on `fd` leaves the other fds and the output alone. -/
structure HostStep (h h' : Host) (fd : ℕ) : Prop where
  interest : ∀ fd' ≠ fd, h'.interest fd' = h.interest fd'
  socket : ∀ fd' ≠ fd, h'.socket fd' = h.socket fd'
  failedAdds : h'.failedAdds = h.failedAdds

theorem HostStep.close (h : Host) (fd : ℕ) : HostStep h (h.close fd) fd :=
  ⟨fun _ hne => Function.update_of_ne hne _ _, fun _ hne => Function.update_of_ne hne _ _, rfl⟩

theorem HostStep.accept (h : Host) (fd : ℕ) : HostStep h (h.accept fd) fd :=
  ⟨fun _ _ => rfl, fun _ hne => Function.update_of_ne hne _ _, rfl⟩

theorem HostStep.onConn (h : Host) (fd : ℕ) (f : Conn → Conn) :
    HostStep h (h.onConn fd f) fd :=
  ⟨fun _ _ => by rw [onConn_interest], fun _ _ => by rw [onConn_socket],
    onConn_failedAdds h fd f⟩

theorem HostStep.trans {h h' h'' : Host} {fd : ℕ} (h₁ : HostStep h h' fd)
    (h₂ : HostStep h' h'' fd) : HostStep h h'' fd :=
  ⟨fun fd' hne => (h₂.interest fd' hne).trans (h₁.interest fd' hne),
    fun fd' hne => (h₂.socket fd' hne).trans (h₁.socket fd' hne),
    h₂.failedAdds.trans h₁.failedAdds⟩

/-! ## The outcomes of the callbacks -/

/-- The world after a registered fd has been entered with other events. -/
def Host.rearm (h : Host) (fd events : ℕ) : Host :=
  { h with interest := Function.update h.interest fd (some ⟨events, slotOf fd⟩) }

theorem HostStep.rearm (h : Host) (fd events : ℕ) : HostStep h (h.rearm fd events) fd :=
  ⟨fun _ hne => Function.update_of_ne hne _ _, fun _ _ => rfl, rfl⟩

/-- The slot after it. -/
def Ntyevent.rearm (ev : Ntyevent M) (fd : ℕ) (callback : Callback) (events : ℕ) : Ntyevent M :=
  { ev with fd := fd, callback := callback, events := events, status := 1 }

/-- `recv_cb` with a chunk. -/
theorem recvCb_data {h : Host} {ev : Ntyevent M} {fd : ℕ} {i : Interest} {bytes : List UInt8}
    (hstatus : ev.status = 1) (hfd : ev.fd = fd) (hi : h.interest fd = some i) :
    server.recvCb fd (slotOf fd) (.data bytes) h ev =
      (server.request (storeChunk ev bytes)).map fun ev' =>
        ((h.recv fd bytes).rearm fd EPOLLOUT, ev'.rearm fd .sendCb EPOLLOUT) := by
  rw [server.recvCb_eq]
  cases hreq : server.request (storeChunk ev bytes) with
  | none => simp [recvCb, hreq]
  | some ev' =>
      have hframe := server.request_frame _ _ hreq
      have hstatus' : ev'.status = 1 := by
        rw [hframe, storeChunk_frame]
        exact hstatus
      have hfd' : ev'.fd = fd := by
        rw [hframe, storeChunk_frame]
        exact hfd
      have hi' : (h.recv fd bytes).interest fd = some i := by
        rw [Host.recv, onConn_interest]
        exact hi
      simp only [recvCb, hreq, Option.map_some, armSend]
      rw [del_set_add (slotOf fd) .sendCb EPOLLOUT hstatus' hfd' hi']
      rfl

/-- `recv_cb` at the end of the stream or on an error. -/
theorem recvCb_close {h : Host} {ev : Ntyevent M} {fd : ℕ} {i : Interest} {result : RecvResult}
    (hstatus : ev.status = 1) (hfd : ev.fd = fd) (hi : h.interest fd = some i)
    (hresult : ∀ bytes, result ≠ .data bytes) :
    server.recvCb fd (slotOf fd) result h ev = some (h.close fd, { ev with status := 0 }) := by
  rw [server.recvCb_eq]
  cases result with
  | data bytes => exact absurd rfl (hresult bytes)
  | eof => simp only [recvCb, delClose_eq (slotOf fd) hstatus hfd hi]
  | error => simp only [recvCb, delClose_eq (slotOf fd) hstatus hfd hi]

/-- `send_cb` after `send` has taken something. -/
theorem sendCb_sent {h : Host} {ev : Ntyevent M} {fd : ℕ} {i : Interest} {len : ℤ}
    (hstatus : ev.status = 1) (hfd : ev.fd = fd) (hi : h.interest fd = some i)
    (hlen : len > 0) :
    sendCb fd (slotOf fd) len h ev =
      ((h.send fd ev.pending len).rearm fd EPOLLIN, ev.rearm fd .recvCb EPOLLIN) := by
  have hi' : (h.send fd ev.pending len).interest fd = some i := by
    rw [Host.send, onConn_interest]
    exact hi
  simp only [sendCb, if_pos hlen]
  rw [del_set_add (slotOf fd) .recvCb EPOLLIN hstatus hfd hi']
  rfl

/-- `send_cb` after an error. -/
theorem sendCb_failed {h : Host} {ev : Ntyevent M} {fd : ℕ} {len : ℤ}
    (hstatus : ev.status = 1) (hfd : ev.fd = fd) (hlen : ¬ len > 0) :
    sendCb fd (slotOf fd) len h ev =
      ((h.send fd ev.pending len).close fd, { ev with status := 0 }) := by
  simp only [sendCb, if_neg hlen, close_del (slotOf fd) hstatus hfd]

/-- `accept_cb` for a new fd. -/
theorem acceptCb_eq {h : Host} {ev : Ntyevent M} {fd : ℕ} (reset : M → M)
    (hstatus : ev.status ≠ 1) (hi : h.interest fd = none) :
    acceptCb reset fd (slotOf fd) h ev =
      ((h.accept fd).rearm fd EPOLLIN,
        { ev with own := reset ev.own }.rearm fd .recvCb EPOLLIN) := by
  have hstatus' : ({ ev with own := reset ev.own } : Ntyevent M).status ≠ 1 := hstatus
  have hi' : (h.accept fd).interest fd = none := hi
  simp only [acceptCb]
  rw [set_add (slotOf fd) .recvCb EPOLLIN hstatus' hi']
  rfl

/-- A slot that has been entered agrees with epoll. -/
theorem FdOk.rearm {h : Host} {ev : Ntyevent M} {fd events : ℕ} {callback : Callback}
    {sock : Socket} (hsock : h.socket fd = some sock)
    (hserves : Serves (ev.rearm fd callback events) sock) :
    FdOk (h.rearm fd events) (ev.rearm fd callback events) fd := by
  have hi : (h.rearm fd events).interest fd = some ⟨events, slotOf fd⟩ :=
    Function.update_self _ _ _
  constructor
  · simp [hi, Ntyevent.rearm]
  · intro i h'
    rw [hi] at h'
    cases h'
    exact ⟨rfl, rfl, rfl, sock, hsock, hserves⟩

theorem FdOk.close {h : Host} {ev : Ntyevent M} {fd : ℕ} :
    FdOk (h.close fd) { ev with status := 0 } fd :=
  .of_unregistered (by simp) (Function.update_self _ _ _)

/-! ## The table -/

/-- All slots agree with epoll, and no `nty_event_add` has failed. -/
structure Sys.Consistent (zero : M) (s : Sys M) : Prop where
  linked : s.reactor.Linked
  fds : ∀ fd, FdOk s.host (s.reactor.event zero fd) fd
  allocated : ∀ fd, (s.host.interest fd).isSome → s.reactor.Allocated fd
  failedAdds : s.host.failedAdds = []

/-- A change of one slot that keeps its agreement with epoll keeps all of them. -/
theorem Sys.Consistent.updated {zero : M} {s s' : Sys M} {fd : ℕ} {h : Host} {ev : Ntyevent M}
    (hs : s.Consistent zero) (hupd : s.Updated zero fd h ev s') (hstep : HostStep s.host h fd)
    (hok : FdOk h ev fd) : s'.Consistent zero := by
  refine ⟨hupd.linked, ?_, ?_, ?_⟩
  · intro fd'
    rw [hupd.host, hupd.event fd']
    by_cases hfd : fd' = fd
    · subst hfd
      rw [if_pos rfl]
      exact hok
    · rw [if_neg hfd]
      exact (hs.fds fd').congr (hstep.interest fd' hfd) (hstep.socket fd' hfd)
  · intro fd' hfd'
    apply hupd.allocated
    by_cases hfd : fd' = fd
    · exact .inl hfd
    · rw [hupd.host, hstep.interest fd' hfd] at hfd'
      exact .inr (hs.allocated fd' hfd')
  · rw [hupd.host, hstep.failedAdds]
    exact hs.failedAdds

/-- Entering the loop's events again leaves the table alone. -/
theorem Sys.Consistent.advance {zero : M} {s : Sys M} (hs : s.Consistent zero) :
    s.advance.Consistent zero := by
  unfold Sys.advance
  split
  · exact ⟨hs.linked, hs.fds, hs.allocated, hs.failedAdds⟩
  · exact ⟨hs.linked, hs.fds, hs.allocated, hs.failedAdds⟩

end ServerKit.Reactor
