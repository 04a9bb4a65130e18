import Mathlib.Data.List.Basic
import Mathlib.Data.Int.Notation
import Mathlib.Logic.Function.Basic
import Mathlib.Tactic.Common

/-! # Events of the single-callback reactor

`reactor_singlecb_server.c` and `websocket_server.c` share the reactor: one
`struct ntyevent` for every fd, kept in blocks of 1024, and the functions that enter
it in epoll and take it out. What lies outside of the program is the state `Host`. -/

namespace ServerKit.Reactor

def BUFFER_LENGTH : ℕ := 4096

def MAX_EPOLL_EVENTS : ℕ := 1024

def EPOLLIN : ℕ := 1

def EPOLLOUT : ℕ := 4

/-- The functions a slot can hold in `callback`. -/
inductive Callback where
  | null
  | acceptCb
  | recvCb
  | sendCb
  deriving DecidableEq, Repr

/-- `struct ntyevent`; `own` stands for the fields that one of the servers adds. -/
structure Ntyevent (M : Type) where
  fd : ℕ
  events : ℕ
  callback : Callback
  status : ℕ
  buffer : List UInt8
  length : ℕ
  own : M

/-- A slot of a block from `malloc` and `memset`. -/
def Ntyevent.zero {M : Type} (own : M) : Ntyevent M :=
  ⟨0, 0, .null, 0, .replicate BUFFER_LENGTH 0, 0, own⟩

/-- The bytes that `send` gets to see. -/
def Ntyevent.pending {M : Type} (ev : Ntyevent M) : List UInt8 := ev.buffer.take ev.length

/-! ## The table of slots -/

/-- A `struct ntyevent*`: the block, counted along the list, and the place in it. -/
structure SlotPtr where
  blk : ℕ
  off : Fin MAX_EPOLL_EVENTS
  deriving DecidableEq

/-- `struct ntyreactor` with the blocks of its list `evblk`. -/
structure Ntyreactor (M : Type) where
  blkcnt : ℕ
  evblk : List (Fin MAX_EPOLL_EVENTS → Ntyevent M)

/-- The slot of an fd. -/
def slotOf (sockfd : ℕ) : SlotPtr :=
  ⟨sockfd / MAX_EPOLL_EVENTS, sockfd % MAX_EPOLL_EVENTS, Nat.mod_lt _ (by decide)⟩

section Table

variable {M : Type} (zero : M)

def ntyreactorInit : Ntyreactor M := ⟨1, [fun _ => .zero zero]⟩

/-- `ntyreactor_alloc` where both `malloc` calls succeed. -/
def ntyreactorAlloc (reactor : Ntyreactor M) : Ntyreactor M :=
  ⟨reactor.blkcnt + 1, reactor.evblk ++ [fun _ => .zero zero]⟩

/-- The loop `while (blkidx >= reactor->blkcnt)` of `ntyreactor_idx`. -/
def allocBlocks (reactor : Ntyreactor M) : ℕ → Ntyreactor M
  | 0 => reactor
  | n + 1 => allocBlocks (ntyreactorAlloc zero reactor) n

/-- `ntyreactor_idx`. The walk along the list ends on `NULL` when it is too short. -/
def ntyreactorIdx (reactor : Ntyreactor M) (sockfd : ℕ) : Option (Ntyreactor M × SlotPtr) :=
  let blkidx := sockfd / MAX_EPOLL_EVENTS
  let reactor := allocBlocks zero reactor (blkidx + 1 - reactor.blkcnt)
  if blkidx < reactor.evblk.length then some (reactor, slotOf sockfd) else none

/-- `*ev` for a pointer into the table. -/
def Ntyreactor.slot (reactor : Ntyreactor M) (p : SlotPtr) : Option (Ntyevent M) :=
  (reactor.evblk[p.blk]?).map fun block => block p.off

def Ntyreactor.setSlot (reactor : Ntyreactor M) (p : SlotPtr) (ev : Ntyevent M) : Ntyreactor M :=
  { reactor with evblk := reactor.evblk.modify p.blk fun block => Function.update block p.off ev }

end Table

/-! ## Outside of the program -/

/-- What an open fd refers to. -/
inductive Socket where
  | other
  | listener
  | conn (c : ℕ)
  deriving DecidableEq, Repr

/-- An entry of epoll's interest list. -/
structure Interest where
  mask : ℕ
  ptr : SlotPtr
  deriving DecidableEq

/-- What has passed over one connection: the chunks that `recv` returned, the byte strings
given to `send`, call by call, and the results of these calls. -/
structure Conn where
  received : List (List UInt8)
  offered : List (List UInt8)
  results : List ℤ
  deriving DecidableEq, Repr

/-- The open fds, epoll's interest list, the connections in the order of their `accept`,
and the lines `event add failed` on the standard output. -/
structure Host where
  socket : ℕ → Option Socket
  interest : ℕ → Option Interest
  conns : ℕ → Conn
  accepted : ℕ
  failedAdds : List (ℕ × ℕ)

inductive CtlOp where
  | add
  | mod
  | del
  deriving DecidableEq, Repr

/-- `epoll_ctl` fails for `ADD` of a registered fd and for `MOD` and `DEL` of another one. -/
def epollCtl (h : Host) (op : CtlOp) (fd : ℕ) (i : Interest) : Host × ℤ :=
  match op, h.interest fd with
  | .add, none => ({ h with interest := Function.update h.interest fd (some i) }, 0)
  | .mod, some _ => ({ h with interest := Function.update h.interest fd (some i) }, 0)
  | .del, some _ => ({ h with interest := Function.update h.interest fd none }, 0)
  | _, _ => (h, -1)

/-- `close` takes the fd out of epoll as well. -/
def Host.close (h : Host) (fd : ℕ) : Host :=
  { h with socket := Function.update h.socket fd none
           interest := Function.update h.interest fd none }

/-- The fd `clientfd` becomes the next connection. -/
def Host.accept (h : Host) (clientfd : ℕ) : Host :=
  { h with socket := Function.update h.socket clientfd (some (.conn h.accepted))
           conns := Function.update h.conns h.accepted ⟨[], [], []⟩
           accepted := h.accepted + 1 }

/-- Changes the record of the connection of an fd. -/
def Host.onConn (h : Host) (fd : ℕ) (f : Conn → Conn) : Host :=
  match h.socket fd with
  | some (.conn c) => { h with conns := Function.update h.conns c (f (h.conns c)) }
  | _ => h

def Host.recv (h : Host) (fd : ℕ) (bytes : List UInt8) : Host :=
  h.onConn fd fun c => { c with received := c.received ++ [bytes] }

def Host.send (h : Host) (fd : ℕ) (bytes : List UInt8) (len : ℤ) : Host :=
  h.onConn fd fun c => { c with offered := c.offered ++ [bytes], results := c.results ++ [len] }

/-! ## `nty_event_set`, `nty_event_add` and `nty_event_del` -/

section Events

variable {M : Type}

def ntyEventSet (ev : Ntyevent M) (fd : ℕ) (callback : Callback) : Ntyevent M :=
  { ev with fd := fd, callback := callback, events := 0 }

/-- `nty_event_add` on the slot `p`, whose contents are `ev`. -/
def ntyEventAdd (h : Host) (events : ℕ) (p : SlotPtr) (ev : Ntyevent M) :
    Host × Ntyevent M × ℤ :=
  let ev := { ev with events := events }
  let op := if ev.status = 1 then CtlOp.mod else .add
  let ev := { ev with status := 1 }
  let (h, ret) := epollCtl h op ev.fd ⟨events, p⟩
  if ret < 0 then ({ h with failedAdds := h.failedAdds ++ [(ev.fd, events)] }, ev, -1)
  else (h, ev, 0)

def ntyEventDel (h : Host) (p : SlotPtr) (ev : Ntyevent M) : Host × Ntyevent M × ℤ :=
  if ev.status ≠ 1 then (h, ev, -1)
  else
    let ev := { ev with status := 0 }
    ((epollCtl h .del ev.fd ⟨0, p⟩).1, ev, 0)

end Events

end ServerKit.Reactor
