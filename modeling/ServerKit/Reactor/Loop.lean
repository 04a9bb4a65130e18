import ServerKit.Reactor.Consistency

/-! # The loop keeps the slots in agreement with epoll

Between two callbacks the events still to be served belong to different fds, all of them
registered; only the fd whose first test has just been made may have been closed. -/

namespace ServerKit.Reactor

open ServerKit.System

variable {M : Type} {server : Server M}

/-- The fds of the events still to be served, the current one first. -/
structure Sys.Pending (zero : M) (s : Sys M) (fds : List ℕ) : Prop where
  slots : s.ready.map Prod.fst = fds.map slotOf
  nodup : fds.Nodup
  rest : ∀ fd ∈ fds.tail, (s.host.interest fd).isSome
  head : ∀ fd ∈ fds.head?, (s.host.interest fd).isSome ∨
    s.phase = .output ∧ s.reactor.Allocated fd ∧ (s.reactor.event zero fd).events = EPOLLIN

/-- The loop has arrived at the slot of the first of them. -/
theorem Sys.Pending.current {zero : M} {s : Sys M} {fd : ℕ} {fds : List ℕ}
    (hs : s.Consistent zero) (hp : s.Pending zero (fd :: fds)) :
    ∃ mask, s.current = some (s.reactor.event zero fd, mask) := by
  have hslots := hp.slots
  cases hready : s.ready with
  | nil => simp [hready] at hslots
  | cons e es =>
      rw [hready] at hslots
      have hptr : e.1 = slotOf fd := (List.cons.inj hslots).1
      have halloc : s.reactor.Allocated fd := by
        rcases hp.head fd rfl with hreg | ⟨_, halloc, _⟩
        · exact hs.allocated fd hreg
        · exact halloc
      refine ⟨e.2, ?_⟩
      simp [Sys.current, hready, hptr, halloc.slot zero]

/-- What the loop calls: the callback of a registered slot, fit for what the fd refers to. -/
structure Sys.Calls (zero : M) (s : Sys M) (callback : Callback) (fd : ℕ) : Prop where
  call : s.call = some (callback, fd)
  registered : ∃ i, s.host.interest fd = some i
  status : (s.reactor.event zero fd).status = 1
  fd_eq : (s.reactor.event zero fd).fd = fd
  callback_eq : (s.reactor.event zero fd).callback = callback
  head : (s.ready.map Prod.fst).head? = some (slotOf fd)
  role : (callback = .acceptCb ∧ s.phase = .input ∧ s.host.socket fd = some .listener) ∨
    ∃ c, s.host.socket fd = some (.conn c) ∧
      (callback = .recvCb ∧ s.phase = .input ∧ (s.reactor.event zero fd).events = EPOLLIN ∨
        callback = .sendCb ∧ s.phase = .output ∧ 1 ≤ (s.reactor.event zero fd).length ∧
          (s.reactor.event zero fd).length ≤ BUFFER_LENGTH)

/-- The event asked for tells the roles apart. -/
theorem event_and {phase : Phase} :
    (EPOLLIN &&& phase.event ≠ 0 ↔ phase = .input) ∧
      (EPOLLOUT &&& phase.event ≠ 0 ↔ phase = .output) := by
  cases phase with
  | input => decide
  | output => decide

/-- A call of the loop, with what is known about its fd. -/
theorem Sys.Pending.calls {zero : M} {s : Sys M} {fd : ℕ} {fds : List ℕ}
    (hs : s.Consistent zero) (hp : s.Pending zero (fd :: fds)) {callback : Callback} {fd' : ℕ}
    (hcall : s.call = some (callback, fd')) : fd' = fd ∧ s.Calls zero callback fd := by
  rcases hp.current hs with ⟨mask, hcur⟩
  have htest := hcall
  unfold Sys.call at htest
  rw [hcur, Option.bind_some] at htest
  simp only at htest
  split at htest
  · rename_i hmask
    have hpair := Prod.mk.inj (Option.some.inj htest)
    have hcb := hpair.1
    have hfd := hpair.2
    have hreg : (s.host.interest fd).isSome := by
      rcases hp.head fd rfl with hreg | ⟨hphase, _, hevents⟩
      · exact hreg
      · rw [hevents, event_and.1, hphase] at hmask
        cases hmask.2
    rcases Option.isSome_iff_exists.mp hreg with ⟨i, hi⟩
    have hok := hs.fds fd
    have hr := hok.registered i hi
    rcases hr.serves with ⟨sock, hsock, hserves⟩
    have hhead : (s.ready.map Prod.fst).head? = some (slotOf fd) := by
      rw [hp.slots]
      rfl
    have heq : fd' = fd := hfd.symm.trans hr.fd_eq
    rw [heq] at hcall
    refine ⟨heq, hcall, ⟨i, hi⟩, hok.status.mpr hreg, hr.fd_eq, hcb, hhead, ?_⟩
    cases sock with
    | other => exact absurd hserves id
    | listener =>
        rw [hserves.1, event_and.1] at hmask
        exact .inl ⟨hcb.symm.trans hserves.2, hmask.2, hsock⟩
    | conn c =>
        refine .inr ⟨c, hsock, ?_⟩
        rcases hserves with ⟨hevents, hrecv⟩ | ⟨hevents, hsend, hlow, hhigh⟩
        · rw [hevents, event_and.1] at hmask
          exact .inl ⟨hcb.symm.trans hrecv, hmask.2, hevents⟩
        · rw [hevents, event_and.2] at hmask
          exact .inr ⟨hcb.symm.trans hsend, hmask.2, hlow, hhigh⟩
  · cases htest

/-! ## What a step can do -/

/-- The action and the state after one step, for each way it can go. -/
inductive Outcome (server : Server M) (s : Sys M) : Action → Sys M → Prop where
  | wait {batch : List (ℕ × ℕ)} (hready : s.ready = []) (hreports : s.host.reports batch) :
      Outcome server s (.epollWait batch)
        { s with ready := s.host.events batch, phase := .input }
  | skip {answer : Answer} (hcall : s.call = none) : Outcome server s (.test answer) s.advance
  | refused {answer : Answer} {fd : ℕ} (hcall : s.Calls server.zero .acceptCb fd) :
      Outcome server s (.test answer) s.advance
  | accepted {fd clientfd : ℕ} {t : Sys M} (hcall : s.Calls server.zero .acceptCb fd)
      (hclosed : s.host.socket clientfd = none)
      (hupd : s.Updated server.zero clientfd ((s.host.accept clientfd).rearm clientfd EPOLLIN)
        ({ s.reactor.event server.zero clientfd with
            own := server.reset (s.reactor.event server.zero clientfd).own }.rearm
          clientfd .recvCb EPOLLIN) t) :
      Outcome server s (.test (.accept (some clientfd))) t.advance
  | received {fd c : ℕ} {bytes : List UInt8} {ev : Ntyevent M} {t : Sys M}
      (hcall : s.Calls server.zero .recvCb fd) (hsock : s.host.socket fd = some (.conn c))
      (hpos : 1 ≤ bytes.length) (hlen : bytes.length ≤ BUFFER_LENGTH)
      (hreq : server.request (storeChunk (s.reactor.event server.zero fd) bytes) = some ev)
      (hupd : s.Updated server.zero fd ((s.host.recv fd bytes).rearm fd EPOLLOUT)
        (ev.rearm fd .sendCb EPOLLOUT) t) :
      Outcome server s (.test (.recv (.data bytes))) t.advance
  | ended {answer : Answer} {fd c : ℕ} {t : Sys M} (hcall : s.Calls server.zero .recvCb fd)
      (hsock : s.host.socket fd = some (.conn c))
      (hupd : s.Updated server.zero fd (s.host.close fd)
        { s.reactor.event server.zero fd with status := 0 } t) :
      Outcome server s (.test answer) t.advance
  | sent {fd c : ℕ} {len : ℤ} {t : Sys M} (hcall : s.Calls server.zero .sendCb fd)
      (hsock : s.host.socket fd = some (.conn c)) (hlen : len > 0)
      (hle : len ≤ (s.reactor.event server.zero fd).length)
      (hupd : s.Updated server.zero fd
        ((s.host.send fd (s.reactor.event server.zero fd).pending len).rearm fd EPOLLIN)
        ((s.reactor.event server.zero fd).rearm fd .recvCb EPOLLIN) t) :
      Outcome server s (.test (.send len)) t.advance
  | failed {fd c : ℕ} {len : ℤ} {t : Sys M} (hcall : s.Calls server.zero .sendCb fd)
      (hsock : s.host.socket fd = some (.conn c)) (hlen : ¬ len > 0)
      (hupd : s.Updated server.zero fd
        ((s.host.send fd (s.reactor.event server.zero fd).pending len).close fd)
        { s.reactor.event server.zero fd with status := 0 } t) :
      Outcome server s (.test (.send len)) t.advance

/-- The outcome of a call for `acceptCb`. -/
theorem invoke_acceptCb {s s' : Sys M} (hs : s.Consistent server.zero) {fd : ℕ}
    {answer : Answer} (hcall : s.Calls server.zero .acceptCb fd)
    (hfits : answer.fits s (s.reactor.event server.zero fd) .acceptCb)
    (h : invoke server .acceptCb fd answer s = some s') :
    Outcome server s (.test answer) s'.advance := by
  cases answer with
  | recv result => cases hfits
  | send len => cases hfits
  | accept clientfd =>
      cases clientfd with
      | none =>
          cases h
          exact .refused hcall
      | some clientfd =>
          have hclosed : s.host.socket clientfd = none := by
            simpa [Answer.fits] using hfits
          have hi := (hs.fds clientfd).interest_eq_none hclosed
          have hstatus : (s.reactor.event server.zero clientfd).status ≠ 1 := by
            rw [Ne, (hs.fds clientfd).status, hi]
            simp
          simp only [invoke] at h
          rcases onSlot_eq_some hs.linked h with ⟨h', ev', hbody, hupd⟩
          rw [acceptCb_eq server.reset hstatus hi] at hbody
          cases hbody
          exact .accepted hcall hclosed hupd

theorem invoke_recvCb {s s' : Sys M} (hs : s.Consistent server.zero) {fd c : ℕ}
    {answer : Answer} (hcall : s.Calls server.zero .recvCb fd)
    (hsock : s.host.socket fd = some (.conn c))
    (hfits : answer.fits s (s.reactor.event server.zero fd) .recvCb)
    (h : invoke server .recvCb fd answer s = some s') :
    Outcome server s (.test answer) s'.advance := by
  rcases hcall.registered with ⟨i, hi⟩
  cases answer with
  | accept clientfd => cases hfits
  | send len => cases hfits
  | recv result =>
      simp only [invoke] at h
      rcases onSlot_eq_some hs.linked h with ⟨h', ev', hbody, hupd⟩
      cases result with
      | data bytes =>
          have hbytes : 1 ≤ bytes.length ∧ bytes.length ≤ BUFFER_LENGTH := by
            simpa [Answer.fits] using hfits
          rw [recvCb_data hcall.status hcall.fd_eq hi] at hbody
          rcases Option.map_eq_some_iff.mp hbody with ⟨ev, hreq, hpair⟩
          cases hpair
          exact .received hcall hsock hbytes.1 hbytes.2 hreq hupd
      | eof =>
          rw [recvCb_close hcall.status hcall.fd_eq hi (by simp)] at hbody
          cases hbody
          exact .ended hcall hsock hupd
      | error =>
          rw [recvCb_close hcall.status hcall.fd_eq hi (by simp)] at hbody
          cases hbody
          exact .ended hcall hsock hupd

theorem invoke_sendCb {s s' : Sys M} (hs : s.Consistent server.zero) {fd c : ℕ}
    {answer : Answer} (hcall : s.Calls server.zero .sendCb fd)
    (hsock : s.host.socket fd = some (.conn c))
    (hfits : answer.fits s (s.reactor.event server.zero fd) .sendCb)
    (h : invoke server .sendCb fd answer s = some s') :
    Outcome server s (.test answer) s'.advance := by
  rcases hcall.registered with ⟨i, hi⟩
  cases answer with
  | accept clientfd => cases hfits
  | recv result => cases hfits
  | send len =>
      simp only [invoke] at h
      rcases onSlot_eq_some hs.linked h with ⟨h', ev', hbody, hupd⟩
      by_cases hlen : len > 0
      · have hle : len ≤ (s.reactor.event server.zero fd).length := by
          simpa [Answer.fits] using hfits
        rw [sendCb_sent hcall.status hcall.fd_eq hi hlen] at hbody
        cases hbody
        exact .sent hcall hsock hlen hle hupd
      · rw [sendCb_failed hcall.status hcall.fd_eq hlen] at hbody
        cases hbody
        exact .failed hcall hsock hlen hupd

/-- Every step goes one of these ways. -/
theorem next_outcome {s s' : Sys M} {fds : List ℕ} {action : Action}
    (hs : s.Consistent server.zero) (hp : s.Pending server.zero fds)
    (h : next server s action = some s') : Outcome server s action s' := by
  cases action with
  | epollWait batch =>
      unfold next at h
      simp only at h
      split at h
      · rename_i hwait
        cases h
        exact .wait hwait.1 hwait.2
      · cases h
  | test answer =>
      cases fds with
      | nil =>
          have hready : s.ready = [] := by simpa using hp.slots
          simp [next, Sys.current, hready] at h
      | cons fd fds =>
          rcases hp.current hs with ⟨mask, hcur⟩
          unfold next at h
          simp only [hcur, Option.bind_some] at h
          cases hcall : s.call with
          | none =>
              rw [hcall] at h
              cases h
              exact .skip hcall
          | some call =>
              rw [hcall] at h
              simp only at h
              split at h
              · rename_i hfits
                rcases Option.map_eq_some_iff.mp h with ⟨t, hinvoke, hadvance⟩
                rcases hp.calls hs hcall with ⟨hfd, hcalls⟩
                subst hadvance
                rw [hfd] at hinvoke
                rcases hcalls.role with ⟨hcb, _, _⟩ | ⟨c, hsock, ⟨hcb, _, _⟩ | ⟨hcb, _, _⟩⟩
                · rw [hcb] at hinvoke hfits hcalls
                  exact invoke_acceptCb hs hcalls hfits hinvoke
                · rw [hcb] at hinvoke hfits hcalls
                  exact invoke_recvCb hs hcalls hsock hfits hinvoke
                · rw [hcb] at hinvoke hfits hcalls
                  exact invoke_sendCb hs hcalls hsock hfits hinvoke
              · cases h

/-- `recv_cb` has a result for a chunk exactly if the server has one. -/
theorem next_recv_isSome_iff {s : Sys M} {fds : List ℕ} (hs : s.Consistent server.zero)
    (hp : s.Pending server.zero fds) {fd : ℕ} (hcall : s.call = some (.recvCb, fd))
    {bytes : List UInt8} :
    (next server s (.test (.recv (.data bytes)))).isSome ↔
      (1 ≤ bytes.length ∧ bytes.length ≤ BUFFER_LENGTH) ∧
        (server.request (storeChunk (s.reactor.event server.zero fd) bytes)).isSome := by
  cases fds with
  | nil =>
      have hready : s.ready = [] := by simpa using hp.slots
      simp [Sys.call, Sys.current, hready] at hcall
  | cons fd' fds =>
      rcases hp.current hs with ⟨mask, hcur⟩
      rcases hp.calls hs hcall with ⟨rfl, hcalls⟩
      rcases hcalls.registered with ⟨i, hi⟩
      have hbody : server.recvCb fd (slotOf fd) (.data bytes) s.host
          (s.reactor.event server.zero fd) = _ := recvCb_data hcalls.status hcalls.fd_eq hi
      simp only [next, hcur, Option.bind_some, hcall, Answer.fits, decide_eq_true_eq]
      split
      · rename_i hfits
        rw [and_iff_right hfits, Option.isSome_map, invoke]
        cases hreq : server.request (storeChunk (s.reactor.event server.zero fd) bytes) with
        | none =>
            rw [hreq, Option.map_none] at hbody
            refine iff_of_false (fun h => ?_) Bool.false_ne_true
            rcases Option.isSome_iff_exists.mp h with ⟨t, ht⟩
            rcases onSlot_eq_some hs.linked ht with ⟨_, _, hsome, -⟩
            rw [hbody] at hsome
            cases hsome
        | some ev =>
            rw [hreq, Option.map_some] at hbody
            have hsome : ∃ t,
                onSlot server fd (fun p h ev => server.recvCb fd p (.data bytes) h ev) s = some t :=
              (onSlot_updated hs.linked fd hbody).imp fun _ ht => ht.1
            exact iff_of_true (Option.isSome_iff_exists.mpr hsome) rfl
      · rename_i hfits
        exact iff_of_false Bool.false_ne_true fun h => hfits h.1

/-! ## Steps keep the agreement -/

theorem Outcome.consistent {s s' : Sys M} {action : Action} (hs : s.Consistent server.zero)
    (h : Outcome server s action s') : s'.Consistent server.zero := by
  cases h with
  | wait hready hreports => exact ⟨hs.linked, hs.fds, hs.allocated, hs.failedAdds⟩
  | skip hcall => exact hs.advance
  | refused hcall => exact hs.advance
  | accepted hcall hclosed hupd =>
      apply Sys.Consistent.advance
      apply hs.updated hupd ((HostStep.accept s.host _).trans (.rearm _ _ _))
      exact FdOk.rearm (Function.update_self _ _ _) (.inl ⟨rfl, rfl⟩)
  | @received fd c bytes ev t hcall hsock hpos hlen hreq hupd =>
      have hlen' := storeChunk_length (s.reactor.event server.zero fd) hlen
      have hbound := server.request_length _ _ hreq (by omega) (by omega)
      have hsock' : (s.host.recv fd bytes).socket fd = some (.conn c) := by
        rw [Host.recv, onConn_socket]
        exact hsock
      apply Sys.Consistent.advance
      apply hs.updated hupd ((HostStep.onConn s.host fd _).trans (.rearm _ _ _))
      exact FdOk.rearm hsock' (.inr ⟨rfl, rfl, hbound⟩)
  | ended hcall hsock hupd =>
      exact (hs.updated hupd (.close _ _) .close).advance
  | @sent fd c len t hcall hsock hlen hle hupd =>
      have hsock' : (s.host.send fd (s.reactor.event server.zero fd).pending len).socket fd =
          some (.conn c) := by
        rw [Host.send, onConn_socket]
        exact hsock
      apply Sys.Consistent.advance
      apply hs.updated hupd ((HostStep.onConn s.host fd _).trans (.rearm _ _ _))
      exact FdOk.rearm hsock' (.inl ⟨rfl, rfl⟩)
  | failed hcall hsock hlen hupd =>
      exact (hs.updated hupd ((HostStep.onConn s.host _ _).trans (.close _ _)) .close).advance

/-- On to the next test: the current fd is still registered or has no second callback. -/
theorem Sys.Pending.advance {zero : M} {s t : Sys M} {fd : ℕ} {fds : List ℕ}
    (hp : s.Pending zero (fd :: fds)) (hready : t.ready = s.ready) (hphase : t.phase = s.phase)
    (hrest : ∀ fd' ∈ fds, (s.host.interest fd').isSome → (t.host.interest fd').isSome)
    (hhead : s.phase = .input → (t.host.interest fd).isSome ∨
      t.reactor.Allocated fd ∧ (t.reactor.event zero fd).events = EPOLLIN) :
    ∃ fds', t.advance.Pending zero fds' := by
  have hslots : t.ready.map Prod.fst = (fd :: fds).map slotOf := by
    rw [hready]
    exact hp.slots
  have hrest' : ∀ fd' ∈ fds, (t.host.interest fd').isSome := by
    intro fd' hfd'
    exact hrest fd' hfd' (hp.rest fd' hfd')
  unfold Sys.advance
  cases hin : t.phase with
  | input =>
      refine ⟨fd :: fds, hslots, hp.nodup, hrest', ?_⟩
      intro fd' hfd'
      cases hfd'
      rcases hhead (hphase.symm.trans hin) with hreg | hclosed
      · exact .inl hreg
      · exact .inr ⟨rfl, hclosed⟩
  | output =>
      refine ⟨fds, ?_, hp.nodup.of_cons, ?_, ?_⟩
      · simp [List.map_tail, hslots]
      · intro fd' hfd'
        exact hrest' fd' (List.mem_of_mem_tail hfd')
      · intro fd' hfd'
        exact .inl (hrest' fd' (List.mem_of_mem_head? hfd'))

/-- The slots that `epoll_wait` reports are those of the fds. -/
theorem events_slots {h : Host} {batch : List (ℕ × ℕ)} {slot : ℕ → Ntyevent M}
    (hok : ∀ fd, FdOk h (slot fd) fd)
    (hreg : ∀ report ∈ batch, (h.interest report.1).isSome) :
    (h.events batch).map Prod.fst = (batch.map Prod.fst).map slotOf := by
  induction batch with
  | nil => rfl
  | cons report batch ih =>
      have hhead := hreg report List.mem_cons_self
      rcases Option.isSome_iff_exists.mp hhead with ⟨i, hi⟩
      have hptr := ((hok report.1).registered i hi).ptr
      have hrest := ih fun r hr => hreg r (List.mem_cons_of_mem _ hr)
      simp only [Host.events, List.filterMap_cons, hi, Option.map_some, List.map_cons, hptr]
      exact congrArg _ hrest

/-- The fd of a call is the current one. -/
theorem Sys.Calls.eq_cons {zero : M} {s : Sys M} {callback : Callback} {fd : ℕ} {fds : List ℕ}
    (h : s.Calls zero callback fd) (hp : s.Pending zero fds) : ∃ fds', fds = fd :: fds' := by
  have hhead := h.head
  rw [hp.slots] at hhead
  cases fds with
  | nil => cases hhead
  | cons fd' fds =>
      have hslot : slotOf fd' = slotOf fd := Option.some.inj hhead
      rw [slotOf_inj] at hslot
      exact ⟨fds, by rw [hslot]⟩

/-- A call that changes the current fd only leaves valid events behind. -/
theorem Sys.Pending.updated {zero : M} {s t : Sys M} {callback : Callback} {fd : ℕ}
    {fds : List ℕ} {h : Host} {ev : Ntyevent M} (hp : s.Pending zero fds)
    (hcall : s.Calls zero callback fd) (hupd : s.Updated zero fd h ev t)
    (hstep : HostStep s.host h fd)
    (hhead : s.phase = .input → (h.interest fd).isSome ∨ ev.events = EPOLLIN) :
    ∃ fds', t.advance.Pending zero fds' := by
  rcases hcall.eq_cons hp with ⟨fds', hfds⟩
  subst hfds
  apply hp.advance hupd.ready hupd.phase
  · intro fd' hfd' hreg
    have hne : fd' ≠ fd := by
      intro heq
      exact (List.nodup_cons.mp hp.nodup).1 (heq ▸ hfd')
    rw [hupd.host, hstep.interest fd' hne]
    exact hreg
  · intro hin
    rw [hupd.host, hupd.event fd, if_pos rfl]
    rcases hhead hin with hreg | hevents
    · exact .inl hreg
    · exact .inr ⟨hupd.allocated fd (.inl rfl), hevents⟩

/-- Right after `epoll_wait` all the events are valid. -/
theorem Sys.Consistent.pending_wait {zero : M} {s : Sys M} {batch : List (ℕ × ℕ)}
    (hs : s.Consistent zero) (hreports : s.host.reports batch) :
    Sys.Pending zero { s with ready := s.host.events batch, phase := .input }
      (batch.map Prod.fst) := by
  have hb : batch.length ≤ MAX_EPOLL_EVENTS ∧ (batch.map Prod.fst).Nodup ∧
      ∀ report ∈ batch, (s.host.interest report.1).isSome := of_decide_eq_true hreports
  have hreg : ∀ fd ∈ batch.map Prod.fst, (s.host.interest fd).isSome := by
    intro fd hfd
    rcases List.mem_map.mp hfd with ⟨report, hreport, heq⟩
    rw [← heq]
    exact hb.2.2 report hreport
  refine ⟨events_slots hs.fds hb.2.2, hb.2.1, ?_, ?_⟩
  · intro fd hfd
    exact hreg fd (List.mem_of_mem_tail hfd)
  · intro fd hfd
    exact .inl (hreg fd (List.mem_of_mem_head? hfd))

/-- A test that does not succeed leaves everything as it is. -/
theorem Sys.Pending.skip {zero : M} {s : Sys M} {fds : List ℕ} (hp : s.Pending zero fds) :
    ∃ fds', s.advance.Pending zero fds' := by
  cases fds with
  | nil =>
      refine ⟨[], ?_, List.nodup_nil, by simp, by simp⟩
      have hready : s.ready = [] := by simpa using hp.slots
      unfold Sys.advance
      split
      · simp [hready]
      · simp [hready]
  | cons fd fds =>
      apply hp.advance rfl rfl (fun _ _ h => h)
      intro hin
      rcases hp.head fd rfl with hreg | ⟨hout, _⟩
      · exact .inl hreg
      · rw [hin] at hout
        cases hout

/-- A step leaves valid events behind. -/
theorem Outcome.pending {s s' : Sys M} {fds : List ℕ} {action : Action}
    (hs : s.Consistent server.zero) (hp : s.Pending server.zero fds)
    (h : Outcome server s action s') : ∃ fds', s'.Pending server.zero fds' := by
  cases h with
  | @wait batch hready hreports => exact ⟨_, hs.pending_wait hreports⟩
  | skip hcall => exact hp.skip
  | refused hcall => exact hp.skip
  | @accepted fd clientfd t hcall hclosed hupd =>
      rcases hcall.eq_cons hp with ⟨fds', hfds⟩
      subst hfds
      -- The new fd was closed, so it is none of those with an event.
      have hkeep : ∀ fd', (s.host.interest fd').isSome → (t.host.interest fd').isSome := by
        intro fd' hreg
        rw [hupd.host]
        by_cases hfd : fd' = clientfd
        · subst hfd
          simp [Host.rearm]
        · rw [((HostStep.accept s.host clientfd).trans (.rearm _ _ EPOLLIN)).interest fd' hfd]
          exact hreg
      apply hp.advance hupd.ready hupd.phase (fun fd' _ => hkeep fd')
      intro _
      exact .inl (hkeep fd (Option.isSome_iff_exists.mpr hcall.registered))
  | received hcall hsock hpos hlen hreq hupd =>
      apply hp.updated hcall hupd ((HostStep.onConn s.host _ _).trans (.rearm _ _ _))
      intro _
      exact .inl (by simp [Host.rearm])
  | ended hcall hsock hupd =>
      apply hp.updated hcall hupd (.close _ _)
      intro _
      rcases hcall.role with ⟨hcb, _⟩ | ⟨c, _, ⟨_, _, hevents⟩ | ⟨hcb, _⟩⟩
      · cases hcb
      · exact .inr hevents
      · cases hcb
  | sent hcall hsock hlen hle hupd =>
      apply hp.updated hcall hupd ((HostStep.onConn s.host _ _).trans (.rearm _ _ _))
      intro _
      exact .inl (by simp [Host.rearm])
  | failed hcall hsock hlen hupd =>
      apply hp.updated hcall hupd ((HostStep.onConn s.host _ _).trans (.close _ _))
      intro hin
      rcases hcall.role with ⟨hcb, _⟩ | ⟨c, _, ⟨hcb, _⟩ | ⟨_, hout, _⟩⟩
      · cases hcb
      · cases hcb
      · rw [hin] at hout
        cases hout

/-! ## Runs -/

/-- The slots agree with epoll, and the events still to be served are valid. -/
def Sys.Valid (zero : M) (s : Sys M) : Prop := s.Consistent zero ∧ ∃ fds, s.Pending zero fds

theorem Sys.Valid.next {s s' : Sys M} {action : Action} (hs : s.Valid server.zero)
    (h : next server s action = some s') : s'.Valid server.zero := by
  rcases hs with ⟨hs, fds, hp⟩
  have hout := next_outcome hs hp h
  exact ⟨hout.consistent hs, hout.pending hs hp⟩

/-- A listener of its own is entered. -/
theorem addlistener_updated {s s' : Sys M} (hs : s.Consistent server.zero) {fd : ℕ}
    (hsock : s.host.socket fd = some .listener) (hi : s.host.interest fd = none)
    (h : ntyreactorAddlistener server fd s = some s') :
    s'.Consistent server.zero ∧ s'.ready = s.ready ∧ s'.host = s.host.rearm fd EPOLLIN ∧
      ∀ fd', (s'.reactor.event server.zero fd').buffer =
        (s.reactor.event server.zero fd').buffer := by
  rcases onSlot_eq_some hs.linked h with ⟨h', ev', hbody, hupd⟩
  have hstatus : (s.reactor.event server.zero fd).status ≠ 1 := by
    rw [Ne, (hs.fds fd).status, hi]
    simp
  simp only at hbody
  rw [set_add (slotOf fd) .acceptCb EPOLLIN hstatus hi] at hbody
  cases hbody
  refine ⟨hs.updated hupd (.rearm _ _ _) ?_, hupd.ready, hupd.host, ?_⟩
  · exact FdOk.rearm hsock ⟨rfl, rfl⟩
  · intro fd'
    rw [hupd.event fd']
    split
    · rename_i hfd
      rw [hfd]
    · rfl

/-- Every slot is zeroed at first. -/
theorem init_event {zero : M} (fd : ℕ) : (ntyreactorInit zero).event zero fd = .zero zero := by
  unfold Ntyreactor.event Ntyreactor.slot ntyreactorInit
  cases hblk : (slotOf fd).blk with
  | zero => simp
  | succ n => simp

/-- The system before the first listener. -/
theorem consistent_init (zero : M) {h : Host} (hinterest : ∀ fd, h.interest fd = none)
    (hadds : h.failedAdds = []) :
    Sys.Consistent zero ⟨ntyreactorInit zero, h, [], .input⟩ := by
  refine ⟨rfl, ?_, ?_, hadds⟩
  · intro fd
    apply FdOk.of_unregistered _ (hinterest fd)
    rw [init_event]
    exact Nat.zero_ne_one
  · intro fd hfd
    simp [hinterest fd] at hfd

theorem foldlM_addlistener {s s' : Sys M} (hs : s.Consistent server.zero) {listeners : List ℕ}
    (hnodup : listeners.Nodup) (hsock : ∀ fd ∈ listeners, s.host.socket fd = some .listener)
    (hi : ∀ fd ∈ listeners, s.host.interest fd = none)
    (h : listeners.foldlM (fun s fd => ntyreactorAddlistener server fd s) s = some s') :
    s'.Consistent server.zero ∧ s'.ready = s.ready ∧ s'.host.socket = s.host.socket ∧
      s'.host.accepted = s.host.accepted ∧
      ∀ fd, (s'.reactor.event server.zero fd).buffer =
        (s.reactor.event server.zero fd).buffer := by
  induction listeners generalizing s with
  | nil =>
      cases h
      exact ⟨hs, rfl, rfl, rfl, fun _ => rfl⟩
  | cons fd listeners ih =>
      rcases Option.bind_eq_some_iff.mp h with ⟨t, ht, hrest⟩
      have hfd := (List.nodup_cons.mp hnodup).1
      rcases addlistener_updated hs (hsock fd List.mem_cons_self) (hi fd List.mem_cons_self) ht
        with ⟨htcons, htready, hthost, htbuffer⟩
      have hsock' : ∀ fd' ∈ listeners, t.host.socket fd' = some .listener := by
        intro fd' hfd'
        rw [hthost]
        exact hsock fd' (List.mem_cons_of_mem _ hfd')
      have hi' : ∀ fd' ∈ listeners, t.host.interest fd' = none := by
        intro fd' hfd'
        have hne : fd' ≠ fd := fun heq => hfd (heq ▸ hfd')
        rw [hthost, (HostStep.rearm s.host fd EPOLLIN).interest fd' hne]
        exact hi fd' (List.mem_cons_of_mem _ hfd')
      rcases ih htcons (List.nodup_cons.mp hnodup).2 hsock' hi' hrest with
        ⟨hcons, hready, hsockets, haccepted, hbuffer⟩
      rw [hthost] at hsockets haccepted
      exact ⟨hcons, hready.trans htready, hsockets, haccepted,
        fun fd' => (hbuffer fd').trans (htbuffer fd')⟩

/-- The loop is entered with all listeners registered and no connection. -/
theorem Start.spec {s : Sys M} (h : Start server s) :
    s.Valid server.zero ∧ s.host.accepted = 0 ∧ (∀ fd c, s.host.socket fd ≠ some (.conn c)) ∧
      ∀ fd, (s.reactor.event server.zero fd).buffer.length = BUFFER_LENGTH := by
  rcases h with ⟨h, listeners, hfresh, hnodup, hfold⟩
  have hinit := consistent_init server.zero hfresh.interest hfresh.failedAdds
  rcases foldlM_addlistener hinit hnodup hfresh.listening (fun fd _ => hfresh.interest fd) hfold
    with ⟨hcons, hready, hsockets, haccepted, hbuffer⟩
  refine ⟨⟨hcons, [], ?_, List.nodup_nil, by simp, by simp⟩, ?_, ?_, ?_⟩
  · rw [hready]
    rfl
  · exact haccepted.trans hfresh.accepted
  · rw [hsockets]
    exact hfresh.noConn
  · intro fd
    rw [hbuffer fd, init_event]
    exact List.length_replicate

theorem valid_of_reachable {guard : Sys M → Action → Prop} {s : Sys M}
    (h : Reachable (next server) (Start server) guard s) : s.Valid server.zero :=
  h.invariant (fun _ hstart => hstart.spec.1) fun _ _ _ hs _ hnext => hs.next hnext

end ServerKit.Reactor
