import ServerKit.Lib.System
import ServerKit.Reactor.Event

/-! # Callbacks and the loop of `ntyreactor_run`

The system calls of a callback are answered by the environment. A step of a run is
`epoll_wait` or one of the two tests that the loop makes for each reported event,
together with the callback it leads to. -/

namespace ServerKit.Reactor

/-- What `recv` answers. -/
inductive RecvResult where
  | data (bytes : List UInt8)
  | eof
  | error
  deriving DecidableEq, Repr

/-- The answer to the one call of `accept`, `recv` or `send` that a callback makes. -/
inductive Answer where
  | accept (clientfd : Option ℕ)
  | recv (result : RecvResult)
  | send (len : ℤ)
  deriving DecidableEq, Repr

section Callbacks

variable {M : Type}

/-- `recv` has filled `ev->buffer`. A chunk of `BUFFER_LENGTH` bytes puts the final `'\0'`
into the first byte of `length`. -/
def storeChunk (ev : Ntyevent M) (bytes : List UInt8) : Ntyevent M :=
  let len := bytes.length
  let buffer := bytes ++ ev.buffer.drop len
  if len < BUFFER_LENGTH then { ev with buffer := buffer.set len 0, length := len }
  else { ev with buffer := buffer, length := len - len % 256 }

/-- The end of `recv_cb` for a chunk. -/
def armSend (h : Host) (fd : ℕ) (p : SlotPtr) (ev : Ntyevent M) : Host × Ntyevent M :=
  let (h, ev, _) := ntyEventDel h p ev
  let ev := ntyEventSet ev fd .sendCb
  let (h, ev, _) := ntyEventAdd h EPOLLOUT p ev
  (h, ev)

/-- The end of `recv_cb` without a chunk. -/
def delClose (h : Host) (p : SlotPtr) (ev : Ntyevent M) : Host × Ntyevent M :=
  let (h, ev, _) := ntyEventDel h p ev
  (h.close ev.fd, ev)

/-- `recv_cb` with a function that treats the chunk before the slot is entered again. -/
def recvCb (request : Ntyevent M → Option (Ntyevent M)) (fd : ℕ) (p : SlotPtr)
    (result : RecvResult) (h : Host) (ev : Ntyevent M) : Option (Host × Ntyevent M) :=
  match result with
  | .data bytes =>
    (request (storeChunk ev bytes)).map fun ev => armSend (h.recv fd bytes) fd p ev
  | .eof => some (delClose h p ev)
  | .error => some (delClose h p ev)

def sendCb (fd : ℕ) (p : SlotPtr) (len : ℤ) (h : Host) (ev : Ntyevent M) :
    Host × Ntyevent M :=
  let h := h.send fd ev.pending len
  if len > 0 then
    let (h, ev, _) := ntyEventDel h p ev
    let ev := ntyEventSet ev fd .recvCb
    let (h, ev, _) := ntyEventAdd h EPOLLIN p ev
    (h, ev)
  else
    let h := h.close ev.fd
    let (h, ev, _) := ntyEventDel h p ev
    (h, ev)

/-- `accept_cb` from the slot of the new fd on; `reset` is what a server writes to its
own fields there. -/
def acceptCb (reset : M → M) (clientfd : ℕ) (p : SlotPtr) (h : Host) (ev : Ntyevent M) :
    Host × Ntyevent M :=
  let h := h.accept clientfd
  let ev := { ev with own := reset ev.own }
  let ev := ntyEventSet ev clientfd .recvCb
  let (h, ev, _) := ntyEventAdd h EPOLLIN p ev
  (h, ev)

end Callbacks

/-- A server is what it adds to the reactor: its own fields, their values in a zeroed slot and
after `accept`, and what it does with a chunk. That touches the payload fields only and
leaves a length that fits. -/
structure Server (M : Type) where
  zero : M
  reset : M → M
  request : Ntyevent M → Option (Ntyevent M)
  recvCb : ℕ → SlotPtr → RecvResult → Host → Ntyevent M → Option (Host × Ntyevent M)
  recvCb_eq : ∀ fd p result h ev, recvCb fd p result h ev =
    Reactor.recvCb request fd p result h ev
  request_frame : ∀ ev ev', request ev = some ev' →
    ev' = { ev with buffer := ev'.buffer, length := ev'.length, own := ev'.own }
  request_length : ∀ ev ev', request ev = some ev' → 1 ≤ ev.length → ev.length ≤ BUFFER_LENGTH →
    1 ≤ ev'.length ∧ ev'.length ≤ BUFFER_LENGTH

/-- Which of the two tests of the loop comes next. -/
inductive Phase where
  | input
  | output
  deriving DecidableEq, Repr

/-- The event the test asks for. -/
def Phase.event : Phase → ℕ
  | .input => EPOLLIN
  | .output => EPOLLOUT

/-- The process: its table, the world outside and `events[i .. nready)`, each with its
`data.ptr` and `events`. -/
structure Sys (M : Type) where
  reactor : Ntyreactor M
  host : Host
  ready : List (SlotPtr × ℕ)
  phase : Phase

section Run

variable {M : Type} (server : Server M)

/-- Runs a body on the slot that `ntyreactor_idx` finds for an fd. -/
def onSlot (sockfd : ℕ) (body : SlotPtr → Host → Ntyevent M → Option (Host × Ntyevent M))
    (s : Sys M) : Option (Sys M) :=
  (ntyreactorIdx server.zero s.reactor sockfd).bind fun (reactor, p) =>
    (reactor.slot p).bind fun ev =>
      (body p s.host ev).map fun (h, ev) =>
        { s with reactor := reactor.setSlot p ev, host := h }

/-- Whether the environment may give the answer to this callback: `recv` returns at most
`BUFFER_LENGTH` bytes, `accept` an fd that is not open, and `send` at most what is offered. -/
def Answer.fits (s : Sys M) (ev : Ntyevent M) : Callback → Answer → Bool
  | .acceptCb, .accept none => true
  | .acceptCb, .accept (some clientfd) => (s.host.socket clientfd).isNone
  | .recvCb, .recv (.data bytes) => 1 ≤ bytes.length ∧ bytes.length ≤ BUFFER_LENGTH
  | .recvCb, .recv _ => true
  | .sendCb, .send len => len ≤ ev.length
  | _, _ => false

/-- `callback(fd, ..)` with an answer. There is no result for a null pointer. -/
def invoke (callback : Callback) (fd : ℕ) (answer : Answer) (s : Sys M) : Option (Sys M) :=
  match callback, answer with
  | .acceptCb, .accept none => some s
  | .acceptCb, .accept (some clientfd) =>
    onSlot server clientfd (fun p h ev => some (acceptCb server.reset clientfd p h ev)) s
  | .recvCb, .recv result => onSlot server fd (fun p h ev => server.recvCb fd p result h ev) s
  | .sendCb, .send len => onSlot server fd (fun p h ev => some (sendCb fd p len h ev)) s
  | _, _ => none

/-- The slot of the event the loop has arrived at. -/
def Sys.current (s : Sys M) : Option (Ntyevent M × ℕ) :=
  (s.ready.head?).bind fun (p, mask) => (s.reactor.slot p).map fun ev => (ev, mask)

/-- The callback and its fd, if the next test of the loop succeeds. -/
def Sys.call (s : Sys M) : Option (Callback × ℕ) :=
  s.current.bind fun (ev, mask) =>
    if mask &&& s.phase.event ≠ 0 ∧ ev.events &&& s.phase.event ≠ 0 then
      some (ev.callback, ev.fd)
    else none

/-- On to the second test of an event and from there to the next event. -/
def Sys.advance (s : Sys M) : Sys M :=
  match s.phase with
  | .input => { s with phase := .output }
  | .output => { s with ready := s.ready.tail, phase := .input }

inductive Action where
  | epollWait (batch : List (ℕ × ℕ))
  | test (answer : Answer)
  deriving DecidableEq, Repr

/-- `epoll_wait` reports registered fds, each once, with any events. -/
def Host.reports (h : Host) (batch : List (ℕ × ℕ)) : Bool :=
  batch.length ≤ MAX_EPOLL_EVENTS ∧ (batch.map Prod.fst).Nodup ∧
    ∀ report ∈ batch, (h.interest report.1).isSome

/-- The array that `epoll_wait` fills. -/
def Host.events (h : Host) (batch : List (ℕ × ℕ)) : List (SlotPtr × ℕ) :=
  batch.filterMap fun (fd, mask) => (h.interest fd).map fun i => (i.ptr, mask)

def next (s : Sys M) : Action → Option (Sys M)
  | .epollWait batch =>
    if s.ready = [] ∧ s.host.reports batch then
      some { s with ready := s.host.events batch, phase := .input }
    else none
  | .test answer =>
    s.current.bind fun (ev, _) =>
      match s.call with
      | none => some s.advance
      | some (callback, fd) =>
        if answer.fits s ev callback then (invoke server callback fd answer s).map Sys.advance
        else none

/-- `ntyreactor_addlistener` with `accept_cb`. -/
def ntyreactorAddlistener (sockfd : ℕ) (s : Sys M) : Option (Sys M) :=
  onSlot server sockfd (fun p h ev =>
    let ev := ntyEventSet ev sockfd .acceptCb
    let (h, ev, _) := ntyEventAdd h EPOLLIN p ev
    some (h, ev)) s

/-- Before the first listener: nothing in epoll, no connection yet. -/
structure Host.Fresh (h : Host) (listeners : List ℕ) : Prop where
  interest : ∀ fd, h.interest fd = none
  noConn : ∀ fd c, h.socket fd ≠ some (.conn c)
  listening : ∀ fd ∈ listeners, h.socket fd = some .listener
  accepted : h.accepted = 0
  failedAdds : h.failedAdds = []

/-- `ntyreactor_run` is entered after `ntyreactor_init` and `ntyreactor_addlistener` for
distinct listening fds. -/
def Start (s : Sys M) : Prop :=
  ∃ (h : Host) (listeners : List ℕ), h.Fresh listeners ∧ listeners.Nodup ∧
    listeners.foldlM (fun s fd => ntyreactorAddlistener server fd s)
      ⟨ntyreactorInit server.zero, h, [], .input⟩ = some s

/-- A world with one listening socket. -/
def Host.listening (fd : ℕ) : Host :=
  ⟨fun x => if x = fd then some .listener else none, fun _ => none, fun _ => ⟨[], [], []⟩, 0, []⟩

/-- The system with one listener, before the loop. -/
def listening (sockfd : ℕ) : Option (Sys M) :=
  ntyreactorAddlistener server sockfd
    ⟨ntyreactorInit server.zero, Host.listening sockfd, [], .input⟩

theorem start_listening {server : Server M} {sockfd : ℕ} {s : Sys M}
    (h : listening server sockfd = some s) : Start server s := by
  refine ⟨Host.listening sockfd, [sockfd], ⟨fun _ => rfl, ?_, ?_, rfl, rfl⟩,
    List.nodup_cons.mpr ⟨List.not_mem_nil, List.nodup_nil⟩, ?_⟩
  · intro fd c
    unfold Host.listening
    simp only
    split
    · simp
    · simp
  · intro fd hfd
    simp [Host.listening, List.mem_singleton.mp hfd]
  · rw [List.foldlM_cons]
    exact Option.bind_eq_some_iff.mpr ⟨s, h, rfl⟩

/-- A run of the system with one listener. -/
def runFrom (sockfd : ℕ) (actions : List Action) : Option (Sys M) :=
  (listening server sockfd).bind fun s => System.exec (next server) s actions

theorem reachable_of_runFrom {server : Server M} {sockfd : ℕ} {actions : List Action}
    {s : Sys M} (h : runFrom server sockfd actions = some s) :
    System.Reachable (next server) (Start server) System.anyStep s := by
  rcases Option.bind_eq_some_iff.mp h with ⟨t, ht, hrun⟩
  exact System.reachable_of_exec (start_listening ht) (System.admits_anyStep _ _) hrun

end Run

end ServerKit.Reactor
