import Mathlib.Data.List.Induction
import Mathlib.Data.List.Infix
import ServerKit.Reactor.Session
import ServerKit.Reactor.Singlecb

/-! # The echo of the single-callback server

`send_cb` goes back to reading after every `send` that has taken something, also when it
has taken a part of the buffer only. The rest is dropped. -/

namespace ServerKit.Reactor

open ServerKit.System

/-- The bytes that `send` has accepted on a connection. -/
def Conn.sentBytes (conn : Conn) : List UInt8 :=
  ((conn.offered.zip conn.results).map fun call => call.1.take call.2.toNat).flatten

/-- Every `send` so far has accepted all it was offered. -/
def Conn.Complete (conn : Conn) : Prop :=
  ∀ call ∈ conn.offered.zip conn.results, call.2 = call.1.length

instance (conn : Conn) : Decidable conn.Complete :=
  inferInstanceAs (Decidable (∀ call ∈ conn.offered.zip conn.results, call.2 = call.1.length))

/-- The connection on which the loop is about to call `send_cb`. -/
def Sys.sender {M : Type} (s : Sys M) : Option Conn :=
  s.call.bind fun call =>
    match call.1, s.host.socket call.2 with
    | .sendCb, some (.conn c) => some (s.host.conns c)
    | _, _ => none

/-- No `send` accepts bytes on a connection on which an earlier one has accepted a part of
its bytes only. -/
def Sys.SkipsNothing {M : Type} (s : Sys M) : Action → Prop
  | .test (.send len) => len > 0 → ∀ conn ∈ s.sender, conn.Complete
  | _ => True

instance {M : Type} (s : Sys M) : DecidablePred s.SkipsNothing
  | .test (.send len) =>
    inferInstanceAs (Decidable (len > 0 → ∀ conn ∈ s.sender, conn.Complete))
  | .test (.accept _) => .isTrue trivial
  | .test (.recv _) => .isTrue trivial
  | .epollWait _ => .isTrue trivial

theorem sentBytes_append {conn : Conn} (hresults : conn.results.length = conn.offered.length)
    (bytes : List UInt8) (len : ℤ) :
    Conn.sentBytes { conn with offered := conn.offered ++ [bytes]
                               results := conn.results ++ [len] } =
      conn.sentBytes ++ bytes.take len.toNat := by
  unfold Conn.sentBytes
  rw [List.zip_append hresults.symm]
  simp

/-- If every call was complete, all of the offered bytes are sent. -/
theorem Conn.Complete.sentBytes {conn : Conn} (h : conn.Complete)
    (hresults : conn.results.length = conn.offered.length) :
    conn.sentBytes = conn.offered.flatten := by
  have hmap : (conn.offered.zip conn.results).map (fun call => call.1.take call.2.toNat) =
      (conn.offered.zip conn.results).map Prod.fst := by
    apply List.map_congr_left
    intro call hcall
    rw [h call hcall]
    simp
  unfold Conn.sentBytes
  rw [hmap, List.map_fst_zip (by omega)]

/-- One more `send`. It continues the bytes sent so far if they are all that was offered, or
if it accepts nothing. -/
theorem sentBytes_prefix {conn : Conn} (hresults : conn.results.length = conn.offered.length)
    (hpre : conn.sentBytes <+: conn.offered.flatten) (bytes : List UInt8) {len : ℤ}
    (hlen : len > 0 → conn.Complete) :
    Conn.sentBytes { conn with offered := conn.offered ++ [bytes]
                               results := conn.results ++ [len] } <+:
      (conn.offered ++ [bytes]).flatten := by
  rw [sentBytes_append hresults, List.flatten_append, List.flatten_singleton]
  by_cases hpos : len > 0
  · rw [(hlen hpos).sentBytes hresults]
    exact (List.prefix_append_right_inj _).mpr (List.take_prefix _ _)
  · rw [Int.toNat_of_nonpos (by omega), List.take_zero, List.append_nil]
    exact hpre.trans (List.prefix_append _ _)

/-- The echo server answers a chunk with the chunk. -/
theorem singlecb_answers : singlecb.Answers () fun _ chunk => some ((), chunk) := by
  refine ⟨fun _ => rfl, ?_, ?_⟩
  · intro ev chunk hbuffer _ hlen
    show some ((), (storeChunk ev chunk).pending) = some ((), chunk)
    rw [storeChunk_pending ev hlen]
  · intro ev ev' h hbuffer
    cases h
    exact hbuffer

theorem replies_echo (chunks : List (List UInt8)) :
    replies () (fun _ chunk => some ((), chunk)) chunks = some (chunks, ()) := by
  induction chunks using List.reverseRecOn with
  | nil => rfl
  | append_singleton chunks chunk ih => exact replies_append ih rfl

/-- The chunks are offered to `send` as they have been received. -/
theorem offered_prefix_received {conn : Conn}
    (h : Session () (fun _ chunk => some ((), chunk)) conn) : conn.offered <+: conn.received := by
  rcases h.answers with ⟨answers, own, hanswers, hpre⟩
  rw [replies_echo] at hanswers
  cases hanswers
  exact hpre

/-- What has been sent on each connection is a beginning of what has been offered. -/
def Host.Faithful (h : Host) : Prop :=
  ∀ c < h.accepted, (h.conns c).sentBytes <+: (h.conns c).offered.flatten

/-- A record that changes for one connection. -/
theorem Host.Faithful.update {h h' : Host} {c : ℕ} {conn : Conn} (hs : h.Faithful)
    (hconns : h'.conns = Function.update h.conns c conn) (haccepted : h'.accepted = h.accepted)
    (hconn : conn.sentBytes <+: conn.offered.flatten) : h'.Faithful := by
  intro c' hc'
  rw [hconns]
  by_cases heq : c' = c
  · rw [heq, Function.update_self]
    exact hconn
  · rw [Function.update_of_ne heq]
    exact hs c' (haccepted ▸ hc')

theorem Host.Faithful.accept {h : Host} (hs : h.Faithful) (fd : ℕ) : (h.accept fd).Faithful := by
  intro c hc
  show (Function.update h.conns h.accepted _ c).sentBytes <+:
    (Function.update h.conns h.accepted _ c).offered.flatten
  by_cases heq : c = h.accepted
  · rw [heq, Function.update_self]
    exact List.prefix_rfl
  · rw [Function.update_of_ne heq]
    have hlt : c < h.accepted + 1 := hc
    exact hs c (by omega)

theorem advance_host {M : Type} (s : Sys M) : s.advance.host = s.host := by
  unfold Sys.advance
  split
  · rfl
  · rfl

section Steps

variable {s s' : Sys Unit} {action : Action}

/-- A call of `send` that skips nothing. -/
theorem Host.Faithful.send (hs : s.host.Faithful)
    (hsessions : s.Sessions () () fun _ chunk => some ((), chunk)) {fd c : ℕ}
    (hsock : s.host.socket fd = some (.conn c)) (bytes : List UInt8) {len : ℤ}
    (hlen : len > 0 → (s.host.conns c).Complete) : (s.host.send fd bytes len).Faithful := by
  have hknown := hsessions.known fd c hsock
  apply hs.update (send_conns hsock bytes len) (onConn_accepted _ _ _)
  exact sentBytes_prefix (hsessions.session c hknown).results (hs c hknown) bytes hlen

/-- The guard speaks about the connection that `send_cb` is called for. -/
theorem Sys.SkipsNothing.complete {fd c : ℕ} {len : ℤ}
    (hguard : s.SkipsNothing (.test (.send len))) (hcall : s.Calls () .sendCb fd)
    (hsock : s.host.socket fd = some (.conn c)) (hlen : len > 0) :
    (s.host.conns c).Complete := by
  apply hguard hlen
  simp [Sys.sender, hcall.call, hsock]

theorem Outcome.faithful (hsessions : s.Sessions () () fun _ chunk => some ((), chunk))
    (hs : s.host.Faithful) (hguard : s.SkipsNothing action)
    (h : Outcome singlecb s action s') : s'.host.Faithful := by
  cases h with
  | wait hready hreports => exact hs
  | skip hcall =>
      rw [advance_host]
      exact hs
  | refused hcall =>
      rw [advance_host]
      exact hs
  | @accepted fd clientfd t hcall hclosed hupd =>
      rw [advance_host, hupd.host]
      exact hs.accept clientfd
  | @received fd c bytes ev t hcall hsock hpos hlen hreq hupd =>
      rw [advance_host, hupd.host]
      have hconns : (s.host.recv fd bytes).conns = Function.update s.host.conns c
          { s.host.conns c with received := (s.host.conns c).received ++ [bytes] } := by
        rw [Host.recv, onConn_eq hsock]
      have hrecv : (s.host.recv fd bytes).Faithful :=
        hs.update hconns (onConn_accepted _ _ _) (hs c (hsessions.known fd c hsock))
      exact hrecv
  | ended hcall hsock hupd =>
      rw [advance_host, hupd.host]
      exact hs
  | @sent fd c len t hcall hsock hlen hle hupd =>
      rw [advance_host, hupd.host]
      have hsend := hs.send hsessions hsock (s.reactor.event () fd).pending
        (hguard.complete hcall hsock)
      exact hsend
  | @failed fd c len t hcall hsock hlen hupd =>
      rw [advance_host, hupd.host]
      have hsend := hs.send hsessions hsock (s.reactor.event () fd).pending
        (hguard.complete hcall hsock)
      exact hsend

end Steps

/-- **Faithful echo.** As long as no `send` follows a partial one, the bytes sent on a
connection are at every moment a beginning of the bytes received on it. -/
theorem echo_prefix {s : Sys Unit}
    (h : Reachable (next singlecb) (Start singlecb) Sys.SkipsNothing s) :
    ∀ c < s.host.accepted,
      (s.host.conns c).sentBytes <+: (s.host.conns c).received.flatten := by
  have hinv : s.host.Faithful := by
    have hall : s.Valid () ∧ s.Sessions () () (fun _ chunk => some ((), chunk)) ∧
        s.host.Faithful := by
      apply h.invariant
      · intro s hstart
        refine ⟨hstart.spec.1, hstart.sessions, ?_⟩
        intro c hc
        rw [hstart.spec.2.1] at hc
        exact absurd hc (Nat.not_lt_zero c)
      · intro s s' action hs hguard hnext
        rcases hs with ⟨⟨hcons, fds, hp⟩, hsessions, hfaithful⟩
        have hout := next_outcome hcons hp hnext
        exact ⟨Sys.Valid.next ⟨hcons, fds, hp⟩ hnext, hout.sessions singlecb_answers hsessions,
          hout.faithful hsessions hfaithful hguard⟩
    exact hall.2.2
  intro c hc
  have hsession := (sessions_of_reachable singlecb_answers h).session c hc
  exact (hinv c hc).trans (offered_prefix_received hsession).flatten

/-- A connection on fd 4 that sends three chunks. The first two come back, and of the last the
beginning. -/
def threeChunks : List Action :=
  [.epollWait [(3, EPOLLIN)], .test (.accept (some 4)), .test (.send 0),
    .epollWait [(4, EPOLLIN)], .test (.recv (.data [97, 98])), .test (.send 0),
    .epollWait [(4, EPOLLOUT)], .test (.send 0), .test (.send 2),
    .epollWait [(4, EPOLLIN)], .test (.recv (.data [99])), .test (.send 0),
    .epollWait [(4, EPOLLOUT)], .test (.send 0), .test (.send 1),
    .epollWait [(4, EPOLLIN)], .test (.recv (.data [100, 101, 102])), .test (.send 0),
    .epollWait [(4, EPOLLOUT)], .test (.send 0), .test (.send 2)]

/-- The echo server with a listener on fd 3. -/
def echoServer : Sys Unit := (listening singlecb 3).get rfl

theorem echo_prefix_threeChunks :
    ∃ s, exec (next singlecb) echoServer threeChunks = some s ∧ 0 < s.host.accepted ∧
      (s.host.conns 0).sentBytes = [97, 98, 99, 100, 101] ∧
      (s.host.conns 0).received.flatten = [97, 98, 99, 100, 101, 102] ∧
      (s.host.conns 0).sentBytes <+: (s.host.conns 0).received.flatten := by
  have hrun : (exec (next singlecb) echoServer threeChunks).map
      (fun s => (s.host.accepted, (s.host.conns 0).sentBytes,
        (s.host.conns 0).received.flatten)) =
        some (1, [97, 98, 99, 100, 101], [97, 98, 99, 100, 101, 102]) := rfl
  rcases Option.map_eq_some_iff.mp hrun with ⟨s, hs, hresult⟩
  have haccepted : s.host.accepted = 1 := congrArg Prod.fst hresult
  have hsent : (s.host.conns 0).sentBytes = [97, 98, 99, 100, 101] :=
    congrArg (fun r => r.2.1) hresult
  have hreceived : (s.host.conns 0).received.flatten = [97, 98, 99, 100, 101, 102] :=
    congrArg (fun r => r.2.2) hresult
  have hguard : Admits (next singlecb) Sys.SkipsNothing echoServer threeChunks := by decide
  have hstart : listening singlecb 3 = some echoServer := (Option.some_get _).symm
  have hreach := reachable_of_exec (start_listening hstart) hguard hs
  exact ⟨s, hs, by omega, hsent, hreceived, echo_prefix hreach 0 (by omega)⟩

/-- A partial `send`, then another chunk: the second byte of the first chunk is lost. -/
theorem partial_send_skips :
    ∃ s, Reachable (next singlecb) (Start singlecb) anyStep s ∧ 0 < s.host.accepted ∧
      (s.host.conns 0).sentBytes = [97, 99] ∧
      (s.host.conns 0).received.flatten = [97, 98, 99] ∧
      ¬ (s.host.conns 0).sentBytes <+: (s.host.conns 0).received.flatten := by
  have hrun : (runFrom singlecb 3 [.epollWait [(3, EPOLLIN)], .test (.accept (some 4)),
      .test (.send 0), .epollWait [(4, EPOLLIN)], .test (.recv (.data [97, 98])),
      .test (.send 0), .epollWait [(4, EPOLLOUT)], .test (.send 0), .test (.send 1),
      .epollWait [(4, EPOLLIN)], .test (.recv (.data [99])), .test (.send 0),
      .epollWait [(4, EPOLLOUT)], .test (.send 0), .test (.send 1)]).map
        (fun s => (s.host.accepted, (s.host.conns 0).sentBytes,
          (s.host.conns 0).received.flatten)) = some (1, [97, 99], [97, 98, 99]) := rfl
  rcases Option.map_eq_some_iff.mp hrun with ⟨s, hs, hresult⟩
  have haccepted : s.host.accepted = 1 := congrArg Prod.fst hresult
  have hsent : (s.host.conns 0).sentBytes = [97, 99] := congrArg (fun r => r.2.1) hresult
  have hreceived : (s.host.conns 0).received.flatten = [97, 98, 99] :=
    congrArg (fun r => r.2.2) hresult
  refine ⟨s, reachable_of_runFrom hs, by omega, hsent, hreceived, ?_⟩
  rw [hsent, hreceived]
  decide

end ServerKit.Reactor
