import ServerKit.Websocket.Bounds

/-! # Runs in which `handshark` stays inside of its arrays

A chunk that overruns `linebuf`, `sec_data` or `sec_accept` has no result, on whichever connection
it comes. Reads of `ev->buffer[-1]` and of the byte behind the buffer meet the neighbouring fields
of the slot. -/

namespace ServerKit.Websocket

open ServerKit.Memory ServerKit.CString ServerKit.Reactor ServerKit.System

/-! ## Chunks -/

/-- From this line on no line fills `linebuf`, up to one with the key, which leaves room for the
GUID and has a digest to encode, or to an empty one. -/
def LinesHeld (openssl : OpenSSL) (line : List UInt8) : List (List UInt8) → Prop
  | [] => if keyText <:+: line then KeyFits openssl line else line.length ≤ 1023
  | next :: more =>
    if keyText <:+: line then KeyFits openssl line
    else line.length ≤ 1023 ∧ (next = [] ∧ more ≠ [] ∨ LinesHeld openssl next more)

/-- A chunk that `handshark` takes without leaving its arrays; only the first one of a connection
comes to it. -/
def Held (openssl : OpenSSL) (own : Machine) (chunk : List UInt8) : Prop :=
  own = .handshark → LinesHeld openssl (splitLines (text chunk)).1 (splitLines (text chunk)).2

instance (openssl : OpenSSL) (line : List UInt8) : Decidable (KeyFits openssl line) :=
  inferInstanceAs (Decidable (_ ∧ (_ → _)))

instance decidableLinesHeld (openssl : OpenSSL) (line : List UInt8) :
    (rest : List (List UInt8)) → Decidable (LinesHeld openssl line rest)
  | [] => inferInstanceAs (Decidable (ite _ _ _))
  | next :: more =>
    have := decidableLinesHeld openssl next more
    inferInstanceAs (Decidable (ite _ _ (_ ∧ (_ ∨ _))))

instance (openssl : OpenSSL) (own : Machine) (chunk : List UInt8) :
    Decidable (Held openssl own chunk) :=
  inferInstanceAs (Decidable (_ → _))

variable {openssl : OpenSSL} {ev : Event} {chunk line : List UInt8}

theorem linesHeld_of_key (hkey : keyText <:+: line) (rest : List (List UInt8)) :
    LinesHeld openssl line rest ↔ KeyFits openssl line := by
  cases rest with
  | nil => rw [LinesHeld, if_pos hkey]
  | cons next more => rw [LinesHeld, if_pos hkey]

theorem not_linesHeld_of_long (hlong : 1023 < line.length) (rest : List (List UInt8)) :
    ¬ LinesHeld openssl line rest := by
  intro h
  by_cases hkey : keyText <:+: line
  · have hfits := ((linesHeld_of_key hkey rest).mp h).1
    omega
  · cases rest with
    | nil =>
        rw [LinesHeld, if_neg hkey] at h
        omega
    | cons next more =>
        rw [LinesHeld, if_neg hkey] at h
        omega

theorem not_held_of_long {rest : List (List UInt8)}
    (hsplit : splitLines (text chunk) = (line, rest)) (hlong : 1023 < line.length) :
    ¬ Held openssl .handshark chunk := by
  intro h
  have hlines := h rfl
  rw [hsplit] at hlines
  exact not_linesHeld_of_long hlong rest hlines

theorem LinesFit.held {rest : List (List UInt8)} (h : LinesFit openssl line rest) :
    LinesHeld openssl line rest := by
  induction rest generalizing line with
  | nil =>
      rw [LinesHeld, if_pos h.1]
      exact h.2
  | cons next more ih =>
      rw [LinesFit] at h
      rw [LinesHeld]
      split at h
      · rename_i hkey
        rwa [if_pos hkey]
      · rename_i hkey
        rw [if_neg hkey]
        exact ⟨h.1, h.2.imp_right ih⟩

/-- Inside of all arrays is inside of those of `handshark`. -/
theorem StaysInside.held (h : StaysInside openssl ev chunk) : Held openssl ev.own chunk := by
  intro hown
  have hlines := h.2
  rw [hown] at hlines
  exact LinesFit.held hlines

/-- What the loop does with a line that fits. -/
theorem handsharkLoop_fit {pre suffix : List UInt8} {rest : List (List UInt8)}
    (htext : text ev.buffer = pre ++ suffix) (hsplit : splitLines suffix = (line, rest))
    (hfit : line.length ≤ 1023) :
    handsharkLoop openssl ev pre.length =
      if keyText <:+: line then respond openssl (line ++ 0 :: zeros (1023 - line.length)) ev
      else if (byteAt ev (readline ev.buffer pre.length).1 ≠ 13 ∨
          byteAt ev ((readline ev.buffer pre.length).1 + 1) ≠ 10) ∧
          (readline ev.buffer pre.length).1 ≠ -1 then
        handsharkLoop openssl ev (readline ev.buffer pre.length).1.toNat
      else some ev := by
  have hline : (readline ev.buffer pre.length).2 = line := by
    rw [readline_split htext, hsplit]
  have hzero : (0 : UInt8) ∉ line := by
    have hnot := zero_not_mem_line htext
    rwa [hsplit] at hnot
  rw [handsharkLoop_eq, hline, linebuf_eq hfit, Option.bind_some, strstr_append hzero,
    Option.bind_some]
  simp only [decide_eq_true_eq]

theorem handsharkLoop_full {pre suffix : List UInt8} {rest : List (List UInt8)}
    (htext : text ev.buffer = pre ++ suffix) (hsplit : splitLines suffix = (line, rest))
    (hlong : 1023 < line.length) : handsharkLoop openssl ev pre.length = none := by
  have hline : (readline ev.buffer pre.length).2 = line := by
    rw [readline_split htext, hsplit]
  have hzero : (0 : UInt8) ∉ line := by
    have hnot := zero_not_mem_line htext
    rwa [hsplit] at hnot
  rw [handsharkLoop_eq, hline]
  exact linebuf_full hzero hlong _

/-- A line that is too long, or has the key, decides. -/
theorem handsharkLoop_decides (hopenssl : openssl.Standard) {pre suffix : List UInt8}
    {rest : List (List UInt8)} (htext : text ev.buffer = pre ++ suffix)
    (hsplit : splitLines suffix = (line, rest))
    (h : ¬ (line.length ≤ 1023 ∧ ¬ keyText <:+: line)) :
    (handsharkLoop openssl ev pre.length).isSome ↔ LinesHeld openssl line rest := by
  by_cases hfit : line.length ≤ 1023
  · have hkey : keyText <:+: line := by
      by_contra hkey
      exact h ⟨hfit, hkey⟩
    have hzero : (0 : UInt8) ∉ line := by
      have hnot := zero_not_mem_line htext
      rwa [hsplit] at hnot
    rw [handsharkLoop_fit htext hsplit hfit, if_pos hkey, linesHeld_of_key hkey]
    exact respond_isSome hopenssl hzero hfit
  · rw [handsharkLoop_full htext hsplit (by omega)]
    exact iff_of_false Bool.false_ne_true (not_linesHeld_of_long (by omega) rest)

theorem handsharkLoop_isSome_iff (hopenssl : openssl.Standard)
    (hfinal : byteAt ev (text ev.buffer).length = 0) {pre suffix : List UInt8}
    {rest : List (List UInt8)} (htext : text ev.buffer = pre ++ suffix)
    (hsplit : splitLines suffix = (line, rest)) :
    (handsharkLoop openssl ev pre.length).isSome ↔ LinesHeld openssl line rest := by
  induction rest generalizing pre suffix line with
  | nil =>
      by_cases h : line.length ≤ 1023 ∧ ¬ keyText <:+: line
      · have hend : (readline ev.buffer pre.length).1 = -1 := by
          rw [readline_split htext, hsplit]
          rfl
        rw [handsharkLoop_fit htext hsplit h.1, if_neg h.2, hend, if_neg (by simp), LinesHeld,
          if_neg h.2]
        exact iff_of_true rfl h.1
      · exact handsharkLoop_decides hopenssl htext hsplit h
  | cons next more ih =>
      by_cases h : line.length ≤ 1023 ∧ ¬ keyText <:+: line
      · have hrest : (splitLines suffix).2 = next :: more := by rw [hsplit]
        have hgoes := goes_iff hfinal htext
        obtain ⟨pre', suffix', htext', hsplit', hidx⟩ := readline_next htext hrest
        rw [handsharkLoop_fit htext hsplit h.1, if_neg h.2, LinesHeld, if_neg h.2,
          and_iff_right h.1]
        split
        · rename_i hgo
          obtain ⟨_, _, hnext, hgoesOn⟩ := hgoes.mp hgo
          rw [hrest] at hnext
          cases hnext
          rw [or_iff_right hgoesOn, hidx, Int.toNat_natCast]
          exact ih htext' hsplit'
        · rename_i hstop
          refine iff_of_true rfl (.inl ?_)
          by_contra hgoesOn
          exact hstop (hgoes.mpr ⟨next, more, hrest, hgoesOn⟩)
      · exact handsharkLoop_decides hopenssl htext hsplit h

/-- The first line of a chunk. -/
theorem readline_storeChunk (hbuffer : ev.buffer.length = BUFFER_LENGTH)
    (hlen : chunk.length ≤ BUFFER_LENGTH) :
    (readline (storeChunk ev chunk).buffer 0).2 = (splitLines (text chunk)).1 := by
  have hsame : SameChunk chunk (storeChunk ev chunk) (storeChunk ev chunk) :=
    sameChunk_storeChunk rfl hbuffer hbuffer hlen
  have htext : text (storeChunk ev chunk).buffer = [] ++ text chunk := hsame.text₁
  exact congrArg Prod.snd (readline_split htext)

/-- `websocket_request` has a result exactly for these chunks. -/
theorem websocketRequest_isSome_iff (hopenssl : openssl.Standard)
    (hbuffer : ev.buffer.length = BUFFER_LENGTH) (hlen : chunk.length ≤ BUFFER_LENGTH) :
    (websocketRequest openssl (storeChunk ev chunk)).isSome ↔ Held openssl ev.own chunk := by
  have hown : (storeChunk ev chunk).own = ev.own := by rw [storeChunk_frame]
  unfold websocketRequest Held
  rw [hown]
  cases hstate : ev.own with
  | handshark =>
      let slot : Event := { storeChunk ev chunk with own := .tranmission }
      have hsame : SameChunk chunk (storeChunk ev chunk) (storeChunk ev chunk) :=
        sameChunk_storeChunk rfl hbuffer hbuffer hlen
      have hfinal : byteAt slot (text slot.buffer).length = 0 :=
        byteAt_behind_text ev hbuffer hlen
      have htext : text slot.buffer = [] ++ text chunk := hsame.text₁
      simp only [forall_const]
      exact handsharkLoop_isSome_iff hopenssl hfinal htext rfl
  | tranmission => exact iff_of_true rfl fun h => by cases h
  | ended => exact iff_of_true rfl fun h => by cases h

/-! ## Runs -/

/-- The chunk that `recv_cb` gets in this step stays inside of the arrays of `handshark`. -/
def Contained (openssl : OpenSSL) (s : Sys Machine) : Action → Prop
  | .test (.recv (.data chunk)) => ∀ call ∈ s.call, call.1 = .recvCb →
    Held openssl (s.reactor.event .handshark call.2).own chunk
  | _ => True

instance (openssl : OpenSSL) (s : Sys Machine) : (action : Action) →
    Decidable (Contained openssl s action)
  | .test (.recv (.data _)) => inferInstanceAs (Decidable (∀ call ∈ s.call, _ → _))
  | .test (.recv .eof) | .test (.recv .error) | .test (.accept _) | .test (.send _)
  | .epollWait _ => .isTrue trivial

theorem contained_recv_iff {s : Sys Machine} {fd : ℕ} (hcall : s.call = some (.recvCb, fd)) :
    Contained openssl s (.test (.recv (.data chunk))) ↔
      Held openssl (s.reactor.event .handshark fd).own chunk := by
  simp only [Contained, hcall, Option.mem_some_iff, forall_eq', forall_const]

/-- A chunk has a result exactly if it is contained. -/
theorem next_recv_iff_contained (hopenssl : openssl.Standard) {s : Sys Machine}
    (h : Reachable (next (websocket openssl)) (Start (websocket openssl)) anyStep s) {fd : ℕ}
    (hcall : s.call = some (.recvCb, fd)) :
    (next (websocket openssl) s (.test (.recv (.data chunk)))).isSome ↔
      (1 ≤ chunk.length ∧ chunk.length ≤ BUFFER_LENGTH) ∧
        Contained openssl s (.test (.recv (.data chunk))) := by
  obtain ⟨hconsistent, fds, hpending⟩ := valid_of_reachable h
  have hbuffer := (sessions_of_reachable (websocket_answers openssl) h).buffer fd
  rw [next_recv_isSome_iff hconsistent hpending hcall, contained_recv_iff hcall]
  refine and_congr_right fun hlen => ?_
  exact websocketRequest_isSome_iff hopenssl hbuffer hlen.2

/-- The runs of the model are those in which every chunk is contained. -/
theorem reachable_contained (hopenssl : openssl.Standard) {s : Sys Machine}
    (h : Reachable (next (websocket openssl)) (Start (websocket openssl)) anyStep s) :
    Reachable (next (websocket openssl)) (Start (websocket openssl)) (Contained openssl) s := by
  induction h with
  | start h => exact .start h
  | @step s s' action hreach _ hnext ih =>
      refine .step ih ?_ hnext
      unfold Contained
      split
      · rename_i chunk
        rintro ⟨callback, fd⟩ hcall rfl
        have hsome := Option.isSome_iff_exists.mpr ⟨s', hnext⟩
        exact ((next_recv_iff_contained hopenssl hreach hcall).mp hsome).2 _ hcall rfl
      · trivial

/-! ## Isolation -/

/-- **Isolation.** Two connections, in any two runs of the server in which every chunk of every
connection stays inside of the arrays of `handshark`, that have received the same chunks and got
the same results from `send` have passed the same bytes to every call of `send`, whatever else
happened on other connections or earlier on their fds. -/
theorem offered_eq {s₁ s₂ : Sys Machine}
    (h₁ : Reachable (next (websocket openssl)) (Start (websocket openssl)) (Contained openssl) s₁)
    (h₂ : Reachable (next (websocket openssl)) (Start (websocket openssl)) (Contained openssl) s₂)
    {c₁ c₂ : ℕ} (hc₁ : c₁ < s₁.host.accepted) (hc₂ : c₂ < s₂.host.accepted)
    (hreceived : (s₁.host.conns c₁).received = (s₂.host.conns c₂).received)
    (hresults : (s₁.host.conns c₁).results = (s₂.host.conns c₂).results) :
    (s₁.host.conns c₁).offered = (s₂.host.conns c₂).offered := by
  have hsession₁ := (sessions_of_reachable (websocket_answers openssl) h₁).session c₁ hc₁
  have hsession₂ := (sessions_of_reachable (websocket_answers openssl) h₂).session c₂ hc₂
  rcases hsession₁.answers with ⟨answers₁, own₁, hanswers₁, hpre₁⟩
  rcases hsession₂.answers with ⟨answers₂, own₂, hanswers₂, hpre₂⟩
  have heq : answers₁ = answers₂ := by
    rw [hreceived, hanswers₂] at hanswers₁
    cases hanswers₁
    rfl
  have hlen : (s₁.host.conns c₁).offered.length = (s₂.host.conns c₂).offered.length := by
    rw [← hsession₁.results, ← hsession₂.results, hresults]
  rw [List.prefix_iff_eq_take.mp hpre₁, List.prefix_iff_eq_take.mp hpre₂, heq, hlen]

/-- A first connection on fd 4 gets the response, and then the start of a frame back. -/
def firstOnFd : List Action :=
  firstChunk keyLine 129 ++
    [.epollWait [(4, EPOLLIN)], .test (.recv (.data [129, 130, 5])), .test (.send 0),
      .epollWait [(4, EPOLLOUT)], .test (.send 0), .test (.send 3)]

/-- The same connection after another one, which was not answered, has left eight bytes in the
slot. -/
def secondOnFd : List Action :=
  firstChunk [1, 2, 3, 4, 5, 6, 7, 8] (-1) ++ firstOnFd

theorem offered_eq_reusedFd :
    ∃ s₁ s₂ : Sys Machine, runFrom (websocket onesOpenssl) 3 firstOnFd = some s₁ ∧
      runFrom (websocket onesOpenssl) 3 secondOnFd = some s₂ ∧
      (s₁.host.conns 0).received = [keyLine, [129, 130, 5]] ∧
      (s₁.host.conns 0).results = [129, 3] ∧
      (s₁.host.conns 0).offered = (s₂.host.conns 1).offered := by
  have hfirst : (runFrom (websocket onesOpenssl) 3 firstOnFd).map
      (fun s => (s.host.accepted, (s.host.conns 0).received, (s.host.conns 0).results)) =
        some (1, [keyLine, [129, 130, 5]], [129, 3]) := by decide +kernel
  have hsecond : (runFrom (websocket onesOpenssl) 3 secondOnFd).map
      (fun s => (s.host.accepted, (s.host.conns 1).received, (s.host.conns 1).results)) =
        some (2, [keyLine, [129, 130, 5]], [129, 3]) := by decide +kernel
  rcases Option.map_eq_some_iff.mp hfirst with ⟨s₁, hs₁, hresult₁⟩
  rcases Option.map_eq_some_iff.mp hsecond with ⟨s₂, hs₂, hresult₂⟩
  have haccepted₁ : s₁.host.accepted = 1 := congrArg Prod.fst hresult₁
  have haccepted₂ : s₂.host.accepted = 2 := congrArg Prod.fst hresult₂
  have hreceived₁ : (s₁.host.conns 0).received = _ := congrArg (fun r => r.2.1) hresult₁
  have hreceived₂ : (s₂.host.conns 1).received = _ := congrArg (fun r => r.2.1) hresult₂
  have hresults₁ : (s₁.host.conns 0).results = _ := congrArg (fun r => r.2.2) hresult₁
  have hresults₂ : (s₂.host.conns 1).results = _ := congrArg (fun r => r.2.2) hresult₂
  have hstandard : onesOpenssl.Standard := standard_opensslFor _ _
  refine ⟨s₁, s₂, hs₁, hs₂, hreceived₁, hresults₁, ?_⟩
  apply offered_eq (reachable_contained hstandard (reachable_of_runFrom hs₁))
    (reachable_contained hstandard (reachable_of_runFrom hs₂)) (by omega) (by omega)
  · rw [hreceived₁, hreceived₂]
  · rw [hresults₁, hresults₂]

/-- Two connections, of which the second is about to receive something. -/
def twoConnections : List Action :=
  firstChunk keyLine 129 ++
    [.epollWait [(3, EPOLLIN)], .test (.accept (some 5)), .test (.send 0),
      .epollWait [(5, EPOLLIN)]]

/-- A line that does not fit into `linebuf`. -/
@[irreducible] def longLine : List UInt8 := List.replicate 2000 97

theorem splitLines_longLine : splitLines (text longLine) = (longLine, []) := by decide +kernel

/-- The first connection has got its response. A long line on the second one overruns `linebuf`,
and from there on the run is not defined. -/
theorem line_overruns :
    ∃ s : Sys Machine, runFrom (websocket onesOpenssl) 3 twoConnections = some s ∧
      s.host.socket 4 = some (.conn 0) ∧ (s.host.conns 0).received = [keyLine] ∧
      s.call = some (.recvCb, 5) ∧
      store (zeros 1024) 0
        (readline (storeChunk (s.reactor.event .handshark 5) longLine).buffer 0).2 = none ∧
      next (websocket onesOpenssl) s (.test (.recv (.data longLine))) = none := by
  have hrun : (runFrom (websocket onesOpenssl) 3 twoConnections).map
      (fun s => (s.host.socket 4, (s.host.conns 0).received, s.call)) =
        some (some (.conn 0), [keyLine], some (.recvCb, 5)) := by decide +kernel
  have hslot : (runFrom (websocket onesOpenssl) 3 twoConnections).map
      (fun s => (s.reactor.event .handshark 5).own) = some .handshark := by decide +kernel
  rcases Option.map_eq_some_iff.mp hrun with ⟨s, hs, hresult⟩
  rw [hs, Option.map_some] at hslot
  have hown : (s.reactor.event .handshark 5).own = .handshark := Option.some.inj hslot
  have hcall : s.call = some (.recvCb, 5) := congrArg (fun r => r.2.2) hresult
  have hreach := reachable_of_runFrom hs
  have hbuffer : (s.reactor.event .handshark 5).buffer.length = BUFFER_LENGTH :=
    (sessions_of_reachable (websocket_answers onesOpenssl) hreach).buffer 5
  have hlong : 1024 < longLine.length := by
    rw [longLine, List.length_replicate]
    decide
  have hlen : longLine.length ≤ BUFFER_LENGTH := by
    rw [longLine, List.length_replicate]
    decide
  refine ⟨s, hs, congrArg Prod.fst hresult, congrArg (fun r => r.2.1) hresult, hcall, ?_, ?_⟩
  · rw [readline_storeChunk hbuffer hlen, splitLines_longLine, store, if_neg]
    rw [Nat.zero_add, length_zeros]
    exact Nat.not_le.mpr hlong
  · have hstandard : onesOpenssl.Standard := standard_opensslFor _ _
    rw [← Option.not_isSome_iff_eq_none, next_recv_iff_contained hstandard hreach hcall]
    rintro ⟨-, hcontained⟩
    have hnot : ¬ Held onesOpenssl .handshark longLine :=
      not_held_of_long splitLines_longLine (Nat.lt_trans (by decide) hlong)
    rw [contained_recv_iff hcall, hown] at hcontained
    exact hnot hcontained

/-! ## Upgrades -/

/-- **Upgrade.** In a run in which every chunk stays inside of the arrays of `handshark`, an open
connection counts as upgraded only after the response, with nothing sent before, exactly if its
first chunk has the line with the key. On a connection that is closed by now the response came
first, too, if that chunk had the line. -/
theorem upgraded_iff_asksFirst {s : Sys Machine}
    (h : Reachable (next (websocket openssl)) (Start (websocket openssl)) (Contained openssl) s) :
    (∀ fd c, s.host.socket fd = some (.conn c) →
      (Upgraded openssl (s.host.conns c) (s.reactor.event .handshark fd).own ↔
        AsksFirst (s.host.conns c))) ∧
      ∀ c < s.host.accepted, AsksFirst (s.host.conns c) →
        RespondsFirst openssl (s.host.conns c) := by
  refine ⟨fun fd c hsock => open_upgraded_iff h hsock, ?_⟩
  intro c hc hasks
  have hanswers := (websocket_answers openssl).fitting
  rcases ((sessions_of_reachable hanswers h).session c hc).answers with
    ⟨answers, own, hreplies, hpre⟩
  rcases replies_fitting hreplies with ⟨hreplies', hlen⟩
  exact respondsFirst_of_asksFirst hreplies' (fun chunk hchunk => (hlen chunk hchunk).2) hpre
    hasks

theorem upgraded_iff_asksFirst_keyLine :
    ∃ s : Sys Machine, runFrom (websocket onesOpenssl) 3 (firstChunk keyLine 129) = some s ∧
      s.host.socket 4 = some (.conn 0) ∧ (s.host.conns 0).received = [keyLine] ∧
      (s.host.conns 0).results = [129] ∧
      Upgraded onesOpenssl (s.host.conns 0) (s.reactor.event .handshark 4).own := by
  have hrun : (runFrom (websocket onesOpenssl) 3 (firstChunk keyLine 129)).map
      (fun s => (s.host.socket 4, (s.host.conns 0).received, (s.host.conns 0).results)) =
        some (some (.conn 0), [keyLine], [129]) := by decide +kernel
  rcases Option.map_eq_some_iff.mp hrun with ⟨s, hs, hresult⟩
  have hsock : s.host.socket 4 = some (.conn 0) := congrArg Prod.fst hresult
  have hreceived : (s.host.conns 0).received = [keyLine] := congrArg (fun r => r.2.1) hresult
  refine ⟨s, hs, hsock, hreceived, congrArg (fun r => r.2.2) hresult, ?_⟩
  have hreach := reachable_contained (standard_opensslFor _ _) (reachable_of_runFrom hs)
  apply ((upgraded_iff_asksFirst hreach).1 4 0 hsock).mpr
  intro chunk hchunk
  rw [hreceived] at hchunk
  cases hchunk
  decide +kernel

end ServerKit.Websocket
