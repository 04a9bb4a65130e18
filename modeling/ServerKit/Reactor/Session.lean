import Mathlib.Data.List.Induction
import ServerKit.Reactor.Loop

/-! # Connections as sessions

What a server sends on a connection is a function of what it has received on it, if its
treatment of a chunk does not look at the rest of the buffer. The slot, its earlier
connections and the other fds then have no influence. -/

namespace ServerKit.Reactor

open ServerKit.System

variable {M : Type}

/-- A server that answers a chunk with `reply`: from its own fields and the chunk, whatever
else is in the slot, the own fields afterwards and the bytes to send. -/
structure Server.Answers (server : Server M) (first : M)
    (reply : M → List UInt8 → Option (M × List UInt8)) : Prop where
  reset : ∀ own, server.reset own = first
  request : ∀ (ev : Ntyevent M) (chunk : List UInt8), ev.buffer.length = BUFFER_LENGTH →
    1 ≤ chunk.length → chunk.length ≤ BUFFER_LENGTH →
    (server.request (storeChunk ev chunk)).map (fun ev' => (ev'.own, ev'.pending)) =
      reply ev.own chunk
  buffer : ∀ ev ev', server.request ev = some ev' → ev.buffer.length = BUFFER_LENGTH →
    ev'.buffer.length = BUFFER_LENGTH

/-- The answers to a sequence of chunks and the own fields after them. -/
def replies (first : M) (reply : M → List UInt8 → Option (M × List UInt8))
    (chunks : List (List UInt8)) : Option (List (List UInt8) × M) :=
  chunks.foldlM (fun (answers, own) chunk =>
    (reply own chunk).map fun (own, answer) => (answers ++ [answer], own)) ([], first)

theorem replies_append {first : M} {reply : M → List UInt8 → Option (M × List UInt8)}
    {chunks answers : List (List UInt8)} {chunk answer : List UInt8} {own own' : M}
    (h : replies first reply chunks = some (answers, own))
    (hreply : reply own chunk = some (own', answer)) :
    replies first reply (chunks ++ [chunk]) = some (answers ++ [answer], own') := by
  unfold replies at *
  rw [List.foldlM_append, h]
  simp [hreply]

/-- What has been offered to `send` is a beginning of the answers to what has been
received. -/
structure Session (first : M) (reply : M → List UInt8 → Option (M × List UInt8))
    (conn : Conn) : Prop where
  answers : ∃ answers own, replies first reply conn.received = some (answers, own) ∧
    conn.offered <+: answers
  results : conn.results.length = conn.offered.length

/-- For an open connection: a slot that waits for input has answered everything, one that
waits for output holds the last answer. -/
structure OpenSession (first : M) (reply : M → List UInt8 → Option (M × List UInt8))
    (conn : Conn) (ev : Ntyevent M) : Prop where
  reading : ev.callback = .recvCb →
    replies first reply conn.received = some (conn.offered, ev.own)
  writing : ev.callback = .sendCb →
    replies first reply conn.received = some (conn.offered ++ [ev.pending], ev.own)

/-- Every connection is a session. -/
structure Sys.Sessions (zero first : M) (reply : M → List UInt8 → Option (M × List UInt8))
    (s : Sys M) : Prop where
  buffer : ∀ fd, (s.reactor.event zero fd).buffer.length = BUFFER_LENGTH
  distinct : ∀ fd fd' c, s.host.socket fd = some (.conn c) → s.host.socket fd' = some (.conn c) →
    fd = fd'
  known : ∀ fd c, s.host.socket fd = some (.conn c) → c < s.host.accepted
  opened : ∀ fd c, s.host.socket fd = some (.conn c) →
    OpenSession first reply (s.host.conns c) (s.reactor.event zero fd)
  session : ∀ c < s.host.accepted, Session first reply (s.host.conns c)

section Steps

variable {server : Server M} {first : M} {reply : M → List UInt8 → Option (M × List UInt8)}

theorem storeChunk_buffer_length (ev : Ntyevent M) {bytes : List UInt8}
    (hbuffer : ev.buffer.length = BUFFER_LENGTH) (hbytes : bytes.length ≤ BUFFER_LENGTH) :
    (storeChunk ev bytes).buffer.length = BUFFER_LENGTH := by
  unfold storeChunk
  simp only
  split
  · simp
    omega
  · simp
    omega

@[simp] theorem rearm_pending (ev : Ntyevent M) (fd : ℕ) (callback : Callback) (events : ℕ) :
    (ev.rearm fd callback events).pending = ev.pending := rfl

/-- A step on one slot keeps the sessions, if it leaves the other fds alone and changes the
record of a connection `c` that belongs to no other fd. -/
theorem Sys.Sessions.replaced {zero : M} {s t : Sys M} {fd c : ℕ} {h : Host} {ev : Ntyevent M}
    {conn : Conn} (hs : s.Sessions zero first reply) (hupd : s.Updated zero fd h ev t)
    (hother : ∀ fd' ≠ fd, h.socket fd' = s.host.socket fd')
    (hafter : ∀ c', h.socket fd = some (.conn c') → c' = c)
    (howner : ∀ fd', s.host.socket fd' = some (.conn c) → fd' = fd)
    (hconns : h.conns = Function.update s.host.conns c conn)
    (haccepted : ∀ c', c' < h.accepted ↔ c' < s.host.accepted ∨ c' = c)
    (hbuffer : ev.buffer.length = BUFFER_LENGTH)
    (hopened : h.socket fd = some (.conn c) → OpenSession first reply conn ev)
    (hsession : Session first reply conn) :
    t.Sessions zero first reply := by
  have hthost := hupd.host
  -- the connection of another fd is another one
  have hapart : ∀ fd' c', fd' ≠ fd → h.socket fd' = some (.conn c') →
      s.host.socket fd' = some (.conn c') ∧ c' ≠ c := by
    intro fd' c' hfd hsock
    rw [hother fd' hfd] at hsock
    refine ⟨hsock, ?_⟩
    intro heq
    exact hfd (howner fd' (heq ▸ hsock))
  refine ⟨?_, ?_, ?_, ?_, ?_⟩
  · intro fd'
    rw [hupd.event fd']
    split
    · exact hbuffer
    · exact hs.buffer fd'
  · intro fd' fd'' c' h' h''
    rw [hthost] at h' h''
    by_cases hfd' : fd' = fd
    · by_cases hfd'' : fd'' = fd
      · rw [hfd', hfd'']
      · exact absurd (hafter c' (hfd' ▸ h')) (hapart fd'' c' hfd'' h'').2
    · by_cases hfd'' : fd'' = fd
      · exact absurd (hafter c' (hfd'' ▸ h'')) (hapart fd' c' hfd' h').2
      · exact hs.distinct fd' fd'' c' (hapart fd' c' hfd' h').1 (hapart fd'' c' hfd'' h'').1
  · intro fd' c' h'
    rw [hthost] at h' ⊢
    rw [haccepted]
    by_cases hfd : fd' = fd
    · exact .inr (hafter c' (hfd ▸ h'))
    · exact .inl (hs.known fd' c' (hapart fd' c' hfd h').1)
  · intro fd' c' h'
    rw [hthost] at h' ⊢
    rw [hupd.event fd', hconns]
    by_cases hfd : fd' = fd
    · subst hfd
      have heq := hafter c' h'
      subst heq
      rw [if_pos rfl, Function.update_self]
      exact hopened h'
    · rw [if_neg hfd, Function.update_of_ne (hapart fd' c' hfd h').2]
      exact hs.opened fd' c' (hapart fd' c' hfd h').1
  · intro c' hc'
    rw [hthost] at hc' ⊢
    rw [hconns]
    by_cases heq : c' = c
    · rw [heq, Function.update_self]
      exact hsession
    · rw [Function.update_of_ne heq]
      exact hs.session c' (((haccepted c').mp hc').resolve_right heq)

/-- A step on the slot of the open connection `c` keeps the sessions if it keeps this one. -/
theorem Sys.Sessions.updated {zero : M} {s t : Sys M} {fd c : ℕ} {h : Host} {ev : Ntyevent M}
    {conn : Conn} (hs : s.Sessions zero first reply) (hupd : s.Updated zero fd h ev t)
    (hstep : HostStep s.host h fd) (hsock : s.host.socket fd = some (.conn c))
    (hafter : h.socket fd = none ∨ h.socket fd = some (.conn c))
    (hconns : h.conns = Function.update s.host.conns c conn)
    (haccepted : h.accepted = s.host.accepted) (hbuffer : ev.buffer.length = BUFFER_LENGTH)
    (hopened : h.socket fd = some (.conn c) → OpenSession first reply conn ev)
    (hsession : Session first reply conn) :
    t.Sessions zero first reply := by
  apply hs.replaced hupd hstep.socket _ _ hconns _ hbuffer hopened hsession
  · intro c' hsock'
    rcases hafter with hnone | hconn
    · rw [hnone] at hsock'
      cases hsock'
    · rw [hconn] at hsock'
      cases hsock'
      rfl
  · intro fd' hsock'
    exact hs.distinct fd' fd c hsock' hsock
  · intro c'
    have hknown := hs.known fd c hsock
    omega

theorem Sys.Sessions.advance {zero : M} {s : Sys M} (hs : s.Sessions zero first reply) :
    s.advance.Sessions zero first reply := by
  unfold Sys.advance
  split
  · exact ⟨hs.buffer, hs.distinct, hs.known, hs.opened, hs.session⟩
  · exact ⟨hs.buffer, hs.distinct, hs.known, hs.opened, hs.session⟩

/-- The record of a connection after a call of `send`. -/
theorem send_conns {h : Host} {fd c : ℕ} (hsock : h.socket fd = some (.conn c))
    (bytes : List UInt8) (len : ℤ) :
    (h.send fd bytes len).conns = Function.update h.conns c
      { h.conns c with offered := (h.conns c).offered ++ [bytes]
                       results := (h.conns c).results ++ [len] } := by
  rw [Host.send, onConn_eq hsock]

/-- After `send` all of the answers have been offered. -/
theorem Sys.Sessions.offered {zero : M} {s : Sys M} (hs : s.Sessions zero first reply)
    {fd c : ℕ} (hcall : s.Calls zero .sendCb fd) (hsock : s.host.socket fd = some (.conn c))
    (len : ℤ) :
    Session first reply
      { s.host.conns c with
        offered := (s.host.conns c).offered ++ [(s.reactor.event zero fd).pending]
        results := (s.host.conns c).results ++ [len] } := by
  have hwriting := (hs.opened fd c hsock).writing hcall.callback_eq
  have hresults := (hs.session c (hs.known fd c hsock)).results
  refine ⟨⟨_, _, hwriting, List.prefix_rfl⟩, ?_⟩
  simp [hresults]

/-- A new connection has received and sent nothing, and its slot waits for input. -/
theorem Sys.Sessions.accepted {s t : Sys M} {clientfd : ℕ}
    (hs : s.Sessions server.zero first reply) (hreset : ∀ own, server.reset own = first)
    (hupd : s.Updated server.zero clientfd ((s.host.accept clientfd).rearm clientfd EPOLLIN)
      ({ s.reactor.event server.zero clientfd with
          own := server.reset (s.reactor.event server.zero clientfd).own }.rearm
        clientfd .recvCb EPOLLIN) t) :
    t.Sessions server.zero first reply := by
  have hstep : HostStep s.host ((s.host.accept clientfd).rearm clientfd EPOLLIN) clientfd :=
    (HostStep.accept s.host clientfd).trans (.rearm _ _ EPOLLIN)
  have hconns : ((s.host.accept clientfd).rearm clientfd EPOLLIN).conns =
      Function.update s.host.conns s.host.accepted ⟨[], [], []⟩ := rfl
  apply hs.replaced hupd hstep.socket _ _ hconns _ (hs.buffer clientfd)
  · intro _
    refine ⟨?_, fun hcb => absurd hcb (by simp [Ntyevent.rearm])⟩
    intro _
    show replies first reply [] = some ([], server.reset _)
    rw [hreset]
    rfl
  · exact ⟨⟨[], first, rfl, List.prefix_rfl⟩, rfl⟩
  · intro c' hsock
    simp only [Host.rearm, Host.accept, Function.update_self] at hsock
    cases hsock
    rfl
  · intro fd' hsock
    exact absurd (hs.known fd' _ hsock) (Nat.lt_irrefl _)
  · intro c'
    show c' < s.host.accepted + 1 ↔ _
    omega

/-- Steps keep the sessions. -/
theorem Outcome.sessions (hserver : server.Answers first reply) {s s' : Sys M} {action : Action}
    (hs : s.Sessions server.zero first reply) (h : Outcome server s action s') :
    s'.Sessions server.zero first reply := by
  cases h with
  | wait hready hreports => exact ⟨hs.buffer, hs.distinct, hs.known, hs.opened, hs.session⟩
  | skip hcall => exact hs.advance
  | refused hcall => exact hs.advance
  | @accepted fd clientfd t hcall hclosed hupd =>
      exact (hs.accepted hserver.reset hupd).advance
  | @received fd c bytes ev t hcall hsock hpos hlen hreq hupd =>
      have hbuffer := hs.buffer fd
      have hreading := (hs.opened fd c hsock).reading hcall.callback_eq
      have hreply := hserver.request _ bytes hbuffer hpos hlen
      rw [hreq, Option.map_some] at hreply
      have hanswers := replies_append hreading hreply.symm
      have hbuffer' : (ev.rearm fd .sendCb EPOLLOUT).buffer.length = BUFFER_LENGTH :=
        hserver.buffer _ ev hreq (storeChunk_buffer_length _ hbuffer hlen)
      have hsock' : (s.host.recv fd bytes).socket fd = some (.conn c) := by
        rw [Host.recv, onConn_socket]
        exact hsock
      have hconns : (s.host.recv fd bytes).conns = Function.update s.host.conns c
          { s.host.conns c with received := (s.host.conns c).received ++ [bytes] } := by
        rw [Host.recv, onConn_eq hsock]
      apply Sys.Sessions.advance
      apply hs.updated hupd ((HostStep.onConn s.host fd _).trans (.rearm _ _ _)) hsock
        (.inr hsock') hconns (onConn_accepted _ _ _) hbuffer'
      · intro _
        exact ⟨fun hcb => absurd hcb (by simp [Ntyevent.rearm]), fun _ => hanswers⟩
      · exact ⟨⟨_, _, hanswers, List.prefix_append _ _⟩,
          (hs.session c (hs.known fd c hsock)).results⟩
  | @ended answer fd c t hcall hsock hupd =>
      apply Sys.Sessions.advance
      apply hs.updated hupd (.close _ _) hsock (.inl (Function.update_self _ _ _))
        (Function.update_eq_self _ _).symm rfl (hs.buffer fd)
      · intro hopen
        simp [Host.close] at hopen
      · exact hs.session c (hs.known fd c hsock)
  | @sent fd c len t hcall hsock hlen hle hupd =>
      have hwriting := (hs.opened fd c hsock).writing hcall.callback_eq
      have hsock' : (s.host.send fd (s.reactor.event server.zero fd).pending len).socket fd =
          some (.conn c) := by
        rw [Host.send, onConn_socket]
        exact hsock
      apply Sys.Sessions.advance
      apply hs.updated hupd ((HostStep.onConn s.host fd _).trans (.rearm _ _ _)) hsock
        (.inr hsock') (send_conns hsock _ len) (onConn_accepted _ _ _) (hs.buffer fd)
      · intro _
        exact ⟨fun _ => hwriting, fun hcb => absurd hcb (by simp [Ntyevent.rearm])⟩
      · exact hs.offered hcall hsock len
  | @failed fd c len t hcall hsock hlen hupd =>
      apply Sys.Sessions.advance
      apply hs.updated hupd ((HostStep.onConn s.host fd _).trans (.close _ _)) hsock
        (.inl (Function.update_self _ _ _)) (send_conns hsock _ len) (onConn_accepted _ _ _)
        (hs.buffer fd)
      · intro hopen
        simp [Host.close] at hopen
      · exact hs.offered hcall hsock len

/-- Before the loop there are no connections. -/
theorem Start.sessions {s : Sys M} (h : Start server s) :
    s.Sessions server.zero first reply := by
  rcases h.spec with ⟨_, haccepted, hnoConn, hbuffer⟩
  refine ⟨hbuffer, ?_, ?_, ?_, ?_⟩
  · intro fd fd' c h'
    exact absurd h' (hnoConn fd c)
  · intro fd c h'
    exact absurd h' (hnoConn fd c)
  · intro fd c h'
    exact absurd h' (hnoConn fd c)
  · intro c hc
    rw [haccepted] at hc
    exact absurd hc (Nat.not_lt_zero c)

/-- In every run, every connection is a session. -/
theorem sessions_of_reachable (hserver : server.Answers first reply)
    {guard : Sys M → Action → Prop} {s : Sys M}
    (h : Reachable (next server) (Start server) guard s) :
    s.Sessions server.zero first reply := by
  have hinv : s.Valid server.zero ∧ s.Sessions server.zero first reply := by
    apply h.invariant
    · intro s hstart
      exact ⟨hstart.spec.1, hstart.sessions⟩
    · intro s s' action hs _ hnext
      rcases hs.1 with ⟨hcons, fds, hp⟩
      exact ⟨hs.1.next hnext, (next_outcome hcons hp hnext).sessions hserver hs.2⟩
  exact hinv.2

/-! ## Open connections -/

/-- The slot of an open connection waits for input or for output. -/
def Sys.Armed (zero : M) (s : Sys M) : Prop :=
  ∀ fd c, s.host.socket fd = some (.conn c) →
    (s.reactor.event zero fd).callback = .recvCb ∨ (s.reactor.event zero fd).callback = .sendCb

theorem Sys.Armed.updated {zero : M} {s t : Sys M} {fd : ℕ} {h : Host} {ev : Ntyevent M}
    (hs : s.Armed zero) (hupd : s.Updated zero fd h ev t) (hstep : HostStep s.host h fd)
    (hev : h.socket fd = none ∨ ev.callback = .recvCb ∨ ev.callback = .sendCb) :
    t.Armed zero := by
  intro fd' c hsock
  rw [hupd.host] at hsock
  rw [hupd.event fd']
  by_cases hfd : fd' = fd
  · subst hfd
    rw [if_pos rfl]
    rcases hev with hnone | hcallback
    · rw [hnone] at hsock
      cases hsock
    · exact hcallback
  · rw [if_neg hfd]
    rw [hstep.socket fd' hfd] at hsock
    exact hs fd' c hsock

theorem Sys.Armed.advance {zero : M} {s : Sys M} (hs : s.Armed zero) : s.advance.Armed zero := by
  unfold Sys.advance
  split
  · exact hs
  · exact hs

theorem Outcome.armed {s s' : Sys M} {action : Action} (hs : s.Armed server.zero)
    (h : Outcome server s action s') : s'.Armed server.zero := by
  cases h with
  | wait hready hreports => exact hs
  | skip hcall => exact hs.advance
  | refused hcall => exact hs.advance
  | @accepted fd clientfd t hcall hclosed hupd =>
      have hstep := (HostStep.accept s.host clientfd).trans (.rearm _ _ EPOLLIN)
      exact (hs.updated hupd hstep (.inr (.inl rfl))).advance
  | @received fd c bytes ev t hcall hsock hpos hlen hreq hupd =>
      apply Sys.Armed.advance
      exact hs.updated hupd ((HostStep.onConn s.host fd _).trans (.rearm _ _ _)) (.inr (.inr rfl))
  | @ended answer fd c t hcall hsock hupd =>
      exact (hs.updated hupd (.close _ _) (.inl (Function.update_self _ _ _))).advance
  | @sent fd c len t hcall hsock hlen hle hupd =>
      apply Sys.Armed.advance
      exact hs.updated hupd ((HostStep.onConn s.host fd _).trans (.rearm _ _ _)) (.inr (.inl rfl))
  | @failed fd c len t hcall hsock hlen hupd =>
      apply Sys.Armed.advance
      exact hs.updated hupd ((HostStep.onConn s.host fd _).trans (.close _ _))
        (.inl (Function.update_self _ _ _))

theorem armed_of_reachable {guard : Sys M → Action → Prop} {s : Sys M}
    (h : Reachable (next server) (Start server) guard s) : s.Armed server.zero := by
  have hinv : s.Valid server.zero ∧ s.Armed server.zero := by
    apply h.invariant
    · intro s hstart
      refine ⟨hstart.spec.1, ?_⟩
      intro fd c hsock
      exact absurd hsock (hstart.spec.2.2.1 fd c)
    · intro s s' action hs _ hnext
      rcases hs.1 with ⟨hcons, fds, hp⟩
      exact ⟨hs.1.next hnext, (next_outcome hcons hp hnext).armed hs.2⟩
  exact hinv.2

/-- The slot of an open connection is in the state that the chunks lead to; all answers but
perhaps the last one, which it then holds, have been offered. -/
theorem open_replies (hserver : server.Answers first reply) {guard : Sys M → Action → Prop}
    {s : Sys M} (h : Reachable (next server) (Start server) guard s) {fd c : ℕ}
    (hsock : s.host.socket fd = some (.conn c)) :
    ∃ answers, replies first reply (s.host.conns c).received =
        some (answers, (s.reactor.event server.zero fd).own) ∧
      (s.host.conns c).offered <+: answers := by
  have hopen := (sessions_of_reachable hserver h).opened fd c hsock
  rcases armed_of_reachable h fd c hsock with hreading | hwriting
  · exact ⟨_, hopen.reading hreading, List.prefix_rfl⟩
  · exact ⟨_, hopen.writing hwriting, List.prefix_append _ _⟩

/-! ## The lengths of the chunks -/

/-- The same answers, and none to a chunk that `recv` cannot return. -/
def fitting (reply : M → List UInt8 → Option (M × List UInt8)) (own : M) (chunk : List UInt8) :
    Option (M × List UInt8) :=
  if 1 ≤ chunk.length ∧ chunk.length ≤ BUFFER_LENGTH then reply own chunk else none

theorem Server.Answers.fitting (h : server.Answers first reply) :
    server.Answers first (fitting reply) := by
  refine ⟨h.reset, ?_, h.buffer⟩
  intro ev chunk hbuffer hpos hlen
  rw [Reactor.fitting, if_pos ⟨hpos, hlen⟩]
  exact h.request ev chunk hbuffer hpos hlen

theorem replies_fitting {chunks answers : List (List UInt8)} {own : M}
    (h : replies first (fitting reply) chunks = some (answers, own)) :
    replies first reply chunks = some (answers, own) ∧
      ∀ chunk ∈ chunks, 1 ≤ chunk.length ∧ chunk.length ≤ BUFFER_LENGTH := by
  induction chunks using List.reverseRecOn generalizing answers own with
  | nil => exact ⟨h, by simp⟩
  | append_singleton chunks chunk ih =>
      unfold replies at h
      rw [List.foldlM_append] at h
      rcases Option.bind_eq_some_iff.mp h with ⟨⟨before, own'⟩, hbefore, hlast⟩
      simp only [List.foldlM_cons, List.foldlM_nil] at hlast
      rcases Option.bind_eq_some_iff.mp hlast with ⟨_, hmap, hpure⟩
      rcases Option.map_eq_some_iff.mp hmap with ⟨⟨own'', answer⟩, hreply, heq⟩
      cases heq
      cases hpure
      rcases ih hbefore with ⟨hreplies, hlengths⟩
      unfold fitting at hreply
      split at hreply
      · rename_i hlen
        refine ⟨replies_append hreplies hreply, ?_⟩
        intro c hc
        rcases List.mem_append.mp hc with hold | hnew
        · exact hlengths c hold
        · rw [List.mem_singleton.mp hnew]
          exact hlen
      · cases hreply

end Steps

end ServerKit.Reactor
