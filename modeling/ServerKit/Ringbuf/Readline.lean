import ServerKit.Ringbuf.Refinement
import Mathlib.Data.Nat.Find

/-! # Lines from the ring of `ringbuf.h`

`rb_readline` looks for a newline as long as the index is below the stored length or at most
`sz`, and so may look behind the stored bytes. Its caller's buffer is large enough. -/

namespace ServerKit.Ringbuf

open ServerKit.Window ServerKit.Transducer

/-! ## The calls -/

def newline : UInt8 := 10

/-- The byte `i` slots from the read position on. -/
def Ringbuffer.ahead (r : Ringbuffer) (i : ℕ) : Option UInt8 :=
  r.buf[(r.slot (r.readPos + .ofNat i)).toNat]?

/-- The loop of `rb_readline`; `i` is an `int`, and neither `i+1` nor `i++` has a value above
`2^31 - 1`. -/
def rbReadlineLoop (r : Ringbuffer) (sz : UInt32) (i : ℕ) (buf : List UInt8) :
    Option (Ringbuffer × UInt32 × List UInt8) :=
  if i < (rbLen r).toNat ∨ i ≤ sz.toNat then
    match r.ahead i with
    | none => none
    | some c =>
      if _h : i + 1 < 2 ^ 31 then
        if c = newline then
          some ({ r with readPos := r.readPos + .ofNat (i + 1) }, .ofNat (i + 1), buf ++ [c])
        else rbReadlineLoop r sz (i + 1) (buf ++ [c])
      else none
  else some (r, 0, buf)
termination_by 2 ^ 31 - i

/-- Returns the length of the line, or zero, and the bytes copied to the caller. -/
def rbReadline (r : Ringbuffer) (sz : UInt32) : Option (Ringbuffer × UInt32 × List UInt8) :=
  if rbIsempty r then some (r, 0, []) else rbReadlineLoop r sz 0 []

/-- A ring with all that was written to it and the lines that were returned. -/
structure Session where
  ring : Ringbuffer
  written : List UInt8
  returned : List (List UInt8)
  deriving DecidableEq, Repr

/-- A call of the writer, who hands over at least `sz` bytes, or of the reader. -/
inductive Call where
  | write (buf : List UInt8) (sz : UInt32) (enough : sz.toNat ≤ buf.length)
  | readline (sz : UInt32)

/-- The reader takes the bytes that the returned length counts, if it is not zero. -/
def Session.call (s : Session) : Call → Option (Session × UInt32 × List UInt8)
  | .write buf sz _ => (rbWrite s.ring buf sz).map fun out =>
    ({ s with ring := out.1, written := s.written ++ buf.take out.2.toNat }, out.2, [])
  | .readline sz => (rbReadline s.ring sz).map fun out =>
    ({ s with ring := out.1
              returned := s.returned ++
                if out.2.1 = (0 : UInt32) then [] else [out.2.2.take out.2.1.toNat] }, out.2)

/-! ## What a call should do -/

def Ringbuffer.byteAhead (r : Ringbuffer) (i : ℕ) : UInt8 := (r.ahead i).getD 0

/-- The first `n` bytes from the read position on. -/
def Ringbuffer.scan (r : Ringbuffer) (n : ℕ) : List UInt8 := (List.range n).map r.byteAhead

/-- The stored bytes, oldest first. -/
def Ringbuffer.stored (r : Ringbuffer) : List UInt8 := r.scan (rbLen r).toNat

/-- A call of `rb_readline` delivers and removes the first stored line; without a stored
newline, it returns zero and changes nothing. -/
def Framed (r : Ringbuffer) (out : Ringbuffer × UInt32 × List UInt8) : Prop :=
  if newline ∈ r.stored then
    ∃ line rest, r.stored = line ++ newline :: rest ∧ newline ∉ line ∧
      out.2.2.take out.2.1.toNat = line ++ [newline] ∧
      out.2.1.toNat = line.length + 1 ∧ out.1.stored = rest
  else out.2.1 = 0 ∧ out.1 = r

/-- The returned lines, without their newlines, are the first of the lines written, and what
follows them is stored. -/
def Session.InOrder (s : Session) : Prop :=
  s.returned.map List.dropLast ++ s.ring.stored.splitOn newline = s.written.splitOn newline

/-- What a call from `s` should lead to. -/
def Right (s : Session) (c : Call) (next : Session × UInt32 × List UInt8) : Prop :=
  (match c with
    | .write buf _ _ => next.1.ring.stored = s.ring.stored ++ buf.take next.2.1.toNat
    | .readline _ => Framed s.ring (next.1.ring, next.2)) ∧
  next.1.InOrder ∧ (rbLen next.1.ring).toNat ≤ next.1.ring.size.toNat

/-- A stored newline whose line has a length of type `int` ends the search, as does an empty ring.
Else no byte that the search meets behind the stored ones is a newline, and the index stays an
`int`. -/
def StopsInTime (r : Ringbuffer) (sz : UInt32) : Prop :=
  rbIsempty r ∨ newline ∈ r.stored.take (2 ^ 31 - 1) ∨
    (rbLen r).toNat < 2 ^ 31 ∧ sz.toNat + 1 < 2 ^ 31 ∧
      ∀ i ≤ sz.toNat, (rbLen r).toNat ≤ i → r.byteAhead i ≠ newline

/-- A writer may always call. -/
def Session.Searchable (s : Session) : Call → Prop
  | .write _ _ _ => True
  | .readline sz => StopsInTime s.ring sz

/-! ## The search -/

section Search

variable {k : ℕ} {r : Ringbuffer} {q : Fifo UInt8 (2 ^ k)}

theorem scan_succ (r : Ringbuffer) (n : ℕ) : r.scan (n + 1) = r.scan n ++ [r.byteAhead n] := by
  simp [Ringbuffer.scan, List.range_succ]

theorem scan_take (r : Ringbuffer) {m n : ℕ} (hle : m ≤ n) : (r.scan n).take m = r.scan m := by
  rw [Ringbuffer.scan, ← List.map_take, List.take_range, Nat.min_eq_left hle]
  rfl

/-- Every index has a slot. -/
theorem Ringbuffer.Sized.ahead_eq (h : r.Sized k) (hk : k ≤ 31) (i : ℕ) :
    r.ahead i = r.buf[(r.readPos.toNat % 2 ^ k + i) % r.buf.length]? := by
  have hslot : (r.slot (r.readPos + .ofNat i)).toNat = (r.readPos.toNat % 2 ^ k + i) % 2 ^ k := by
    have hdvd : 2 ^ k ∣ 2 ^ 32 := Nat.pow_dvd_pow 2 (by omega)
    rw [slot_toNat h.size, add_toNat_mod hk, UInt32.toNat_ofNat', Nat.add_mod,
      Nat.mod_mod_of_dvd i hdvd, ← Nat.add_mod]
  rw [Ringbuffer.ahead, hslot, h.length_buf]

theorem Ringbuffer.Sized.ahead (h : r.Sized k) (hk : k ≤ 31) (i : ℕ) :
    r.ahead i = some (r.byteAhead i) := by
  have hlt : (r.readPos.toNat % 2 ^ k + i) % r.buf.length < r.buf.length := by
    apply Nat.mod_lt
    rw [h.length_buf]
    exact Nat.two_pow_pos k
  have heq := h.ahead_eq hk i
  rw [List.getElem?_eq_getElem hlt] at heq
  rw [Ringbuffer.byteAhead, heq, Option.getD_some]

/-- The search comes back to the same slots after a turn. -/
theorem Ringbuffer.Sized.byteAhead_mod (h : r.Sized k) (hk : k ≤ 31) (i : ℕ) :
    r.byteAhead (i % 2 ^ k) = r.byteAhead i := by
  rw [Ringbuffer.byteAhead, Ringbuffer.byteAhead, h.ahead_eq hk, h.ahead_eq hk, h.length_buf,
    Nat.add_mod_mod]

theorem Represents.stored (h : Represents r q) (hk : k ≤ 31) : r.stored = q.items := by
  apply List.ext_getElem?
  intro i
  rw [Ringbuffer.stored, Ringbuffer.scan, h.len]
  by_cases hi : i < q.items.length
  · have hslot := h.holds.2 i hi
    rw [← h.sized.ahead_eq hk, h.sized.ahead hk] at hslot
    simp [hi, hslot]
  · rw [List.getElem?_eq_none (by simp; omega), List.getElem?_eq_none (by omega)]

/-- The first newline from the read position on is less than a turn ahead. -/
theorem Ringbuffer.Sized.first_newline (h : r.Sized k) (hk : k ≤ 31) {i : ℕ}
    (hi : r.byteAhead i = newline) :
    ∃ n ≤ i, n < 2 ^ k ∧ r.byteAhead n = newline ∧ ∀ j < n, r.byteAhead j ≠ newline := by
  have hex : ∃ i, r.byteAhead i = newline := ⟨i, hi⟩
  have hturn : Nat.find hex ≤ i % 2 ^ k :=
    Nat.find_min' hex ((h.byteAhead_mod hk i).trans hi)
  have hlt : i % 2 ^ k < 2 ^ k := Nat.mod_lt _ (Nat.two_pow_pos k)
  have hle : i % 2 ^ k ≤ i := Nat.mod_le _ _
  exact ⟨Nat.find hex, by omega, by omega, Nat.find_spec hex, fun j hj => Nat.find_min hex hj⟩

/-- The search goes on as long as it meets no newline. -/
theorem rbReadlineLoop_skip (h : r.Sized k) (hk : k ≤ 31) {sz : UInt32} {i : ℕ}
    (hscan : i < (rbLen r).toNat ∨ i ≤ sz.toNat) (hbyte : r.byteAhead i ≠ newline)
    (hint : i + 1 < 2 ^ 31) :
    rbReadlineLoop r sz i (r.scan i) = rbReadlineLoop r sz (i + 1) (r.scan (i + 1)) := by
  rw [rbReadlineLoop, if_pos hscan, h.ahead hk, scan_succ]
  simp only [dif_pos hint, if_neg hbyte]

theorem rbReadlineLoop_skips (h : r.Sized k) (hk : k ≤ 31) {sz : UInt32} {n : ℕ}
    (hscan : ∀ i < n, i < (rbLen r).toNat ∨ i ≤ sz.toNat)
    (hbytes : ∀ i < n, r.byteAhead i ≠ newline) (hint : n < 2 ^ 31) :
    rbReadlineLoop r sz 0 [] = rbReadlineLoop r sz n (r.scan n) := by
  induction n with
  | zero => rfl
  | succ n ih =>
      rw [ih (fun i hi => hscan i (by omega)) (fun i hi => hbytes i (by omega)) (by omega)]
      exact rbReadlineLoop_skip h hk (hscan n (by omega)) (hbytes n (by omega)) hint

/-- The search stops at the first newline it meets. -/
theorem rbReadlineLoop_found (h : r.Sized k) (hk : k ≤ 31) {sz : UInt32} {n : ℕ}
    (hscan : n < (rbLen r).toNat ∨ n ≤ sz.toNat) (hbytes : ∀ i < n, r.byteAhead i ≠ newline)
    (hfound : r.byteAhead n = newline) (hint : n + 1 < 2 ^ 31) :
    rbReadlineLoop r sz 0 [] =
      some ({ r with readPos := r.readPos + .ofNat (n + 1) }, .ofNat (n + 1), r.scan (n + 1)) := by
  rw [rbReadlineLoop_skips h hk (fun i hi => by omega) hbytes (by omega), rbReadlineLoop,
    if_pos hscan, h.ahead hk, scan_succ]
  simp only [dif_pos hint, if_pos hfound]

/-- Without a newline, the search comes to its end if the index stays an `int`. -/
theorem rbReadlineLoop_end (h : r.Sized k) (hk : k ≤ 31) {sz : UInt32}
    (hbytes : ∀ i, i < (rbLen r).toNat ∨ i ≤ sz.toNat → r.byteAhead i ≠ newline)
    (hlen : (rbLen r).toNat < 2 ^ 31) (hsz : sz.toNat + 1 < 2 ^ 31) :
    rbReadlineLoop r sz 0 [] = some (r, 0, r.scan (max (rbLen r).toNat (sz.toNat + 1))) := by
  rw [rbReadlineLoop_skips h hk (n := max (rbLen r).toNat (sz.toNat + 1))
    (fun i hi => by omega) (fun i hi => hbytes i (by omega)) (by omega)]
  rw [rbReadlineLoop, if_neg (by omega)]

/-- Else it leaves the range of the index. -/
theorem rbReadlineLoop_overflow (h : r.Sized k) (hk : k ≤ 31) {sz : UInt32}
    (hbytes : ∀ i, i + 1 < 2 ^ 31 → r.byteAhead i ≠ newline)
    (hlarge : 2 ^ 31 ≤ (rbLen r).toNat ∨ 2 ^ 31 ≤ sz.toNat + 1) :
    rbReadlineLoop r sz 0 [] = none := by
  have hskips : rbReadlineLoop r sz 0 [] =
      rbReadlineLoop r sz (2 ^ 31 - 1) (r.scan (2 ^ 31 - 1)) :=
    rbReadlineLoop_skips h hk (fun i hi => by omega) (fun i hi => hbytes i (by omega)) (by omega)
  rw [hskips, rbReadlineLoop, if_pos (by omega), h.ahead hk]
  exact dif_neg (Nat.lt_irrefl _)

/-- A line of the stored bytes is found and removed. -/
theorem rbReadlineLoop_line (h : Represents r q) (hk : k ≤ 31) (sz : UInt32)
    {line rest : List UInt8} (hitems : q.items = line ++ newline :: rest)
    (hline : newline ∉ line) (hint : line.length + 1 < 2 ^ 31) :
    rbReadlineLoop r sz 0 [] =
      some ({ r with readPos := r.readPos + .ofNat (line.length + 1) },
        .ofNat (line.length + 1), line ++ [newline]) := by
  have hlen : line.length < q.items.length := by
    rw [hitems, List.length_append, List.length_cons]
    omega
  have hbound : q.items.length ≤ 2 ^ 31 := q.bounded.trans (Nat.pow_le_pow_right (by omega) hk)
  have hscan : r.scan (line.length + 1) = line ++ [newline] := by
    have hstored := h.stored hk
    rw [Ringbuffer.stored, h.len] at hstored
    rw [← scan_take r (Nat.succ_le_of_lt hlen), hstored, hitems]
    exact List.take_length_add_append 1
  have hget : ∀ i < line.length + 1, r.byteAhead i = (line ++ [newline])[i]?.getD 0 := by
    intro i hi
    rw [← hscan, Ringbuffer.scan]
    simp [hi]
  have hbytes : ∀ i < line.length, r.byteAhead i ≠ newline := by
    intro i hi heq
    have hmem : newline ∈ line := by
      rw [hget i (by omega), List.getElem?_append_left hi, List.getElem?_eq_getElem hi] at heq
      exact List.mem_of_getElem heq
    exact hline hmem
  have hfound : r.byteAhead line.length = newline := by
    rw [hget _ (by omega)]
    simp
  have hlt : line.length < (rbLen r).toNat := by
    rw [h.len]
    exact hlen
  rw [rbReadlineLoop_found h.sized hk (Or.inl hlt) hbytes hfound hint, hscan]

theorem rbReadline_of_items (h : Represents r q) {sz : UInt32} (hitems : q.items ≠ []) :
    rbReadline r sz = rbReadlineLoop r sz 0 [] := by
  have hempty : rbIsempty r = false := by
    rw [h.isempty]
    simp [hitems]
  simp [rbReadline, hempty]

/-- A call that finds a line removes it. -/
theorem rbReadline_line (h : Represents r q) (hk : k ≤ 31) (sz : UInt32) {line rest : List UInt8}
    (hitems : q.items = line ++ newline :: rest) (hline : newline ∉ line)
    (hint : line.length + 1 < 2 ^ 31) :
    ∃ out, rbReadline r sz = some out ∧ Framed r out ∧
      ∃ q' : Fifo UInt8 (2 ^ k), Represents out.1 q' ∧
        q.items = out.2.2.take out.2.1.toNat ++ q'.items := by
  have hmem : newline ∈ q.items := by simp [hitems]
  have hstored := h.stored hk
  have hrun : rbReadline r sz = _ :=
    (rbReadline_of_items h (List.ne_nil_of_mem hmem)).trans
      (rbReadlineLoop_line h hk sz hitems hline hint)
  have hlen : q.items.length = line.length + 1 + rest.length := by
    rw [hitems, List.length_append, List.length_cons]
    omega
  have hret : (UInt32.ofNat (line.length + 1)).toNat = line.length + 1 := by
    have hbound : q.items.length ≤ 2 ^ 31 :=
      q.bounded.trans (Nat.pow_le_pow_right (by omega) hk)
    rw [UInt32.toNat_ofNat', Nat.mod_eq_of_lt (by omega)]
  have hadvance := h.advance hk (n := .ofNat (line.length + 1)) (by omega)
  have hdrop : (q.drop (line.length + 1)).items = rest := by
    rw [Fifo.items_drop, hitems, List.drop_length_add_append]
    rfl
  have htake : (line ++ [newline]).take (line.length + 1) = line ++ [newline] :=
    List.take_of_length_le (by simp)
  rw [hret] at hadvance
  refine ⟨_, hrun, ?_, _, hadvance, ?_⟩
  · rw [Framed, if_pos (hstored ▸ hmem)]
    refine ⟨line, rest, hstored.trans hitems, hline, ?_, hret, ?_⟩
    · rw [hret]
      exact htake
    · exact (hadvance.stored hk).trans hdrop
  · rw [hret, hdrop, htake, hitems]
    simp

theorem byteAhead_ne_of_stored (hmem : newline ∉ r.stored) {i : ℕ} (hi : i < (rbLen r).toNat) :
    r.byteAhead i ≠ newline := by
  intro heq
  exact hmem (heq ▸ List.mem_map_of_mem (List.mem_range.mpr hi))

/-- A call without a line leaves the ring as it is, if it stops in time. -/
theorem rbReadline_none (h : Represents r q) (hk : k ≤ 31) {sz : UInt32}
    (hmem : newline ∉ r.stored) (hstops : StopsInTime r sz) :
    ∃ buf, rbReadline r sz = some (r, 0, buf) := by
  by_cases hitems : q.items = []
  · have hempty : rbIsempty r = true := by
      rw [h.isempty, hitems]
      rfl
    exact ⟨[], by simp [rbReadline, hempty]⟩
  · have hempty : ¬ rbIsempty r := by
      rw [h.isempty]
      simp [hitems]
    rcases hstops with hstops | hstops | ⟨hlen, hsz, hbehind⟩
    · exact absurd hstops hempty
    · exact absurd (List.mem_of_mem_take hstops) hmem
    have hbytes : ∀ i, i < (rbLen r).toNat ∨ i ≤ sz.toNat → r.byteAhead i ≠ newline := by
      intro i hi
      by_cases hin : i < (rbLen r).toNat
      · exact byteAhead_ne_of_stored hmem hin
      · exact hbehind i (by omega) (by omega)
    rw [rbReadline_of_items h hitems]
    exact ⟨_, rbReadlineLoop_end h.sized hk hbytes hlen hsz⟩

/-- The length of the first line is an `int`. -/
theorem StopsInTime.line {sz : UInt32} (hstops : StopsInTime r sz) (hempty : ¬ rbIsempty r)
    {line rest : List UInt8} (hstored : r.stored = line ++ newline :: rest)
    (hline : newline ∉ line) : line.length + 1 < 2 ^ 31 := by
  have hlen : (rbLen r).toNat = line.length + (rest.length + 1) := by
    have hlength := congrArg List.length hstored
    rwa [Ringbuffer.stored, Ringbuffer.scan, List.length_map, List.length_range,
      List.length_append, List.length_cons] at hlength
  rcases hstops with hstops | hmem | ⟨hsmall, -, -⟩
  · exact absurd hstops hempty
  · by_contra hlong
    rw [hstored, List.take_append_of_le_length (by omega)] at hmem
    exact hline (List.mem_of_mem_take hmem)
  · omega

/-- A call that stops in time is right. -/
theorem rbReadline_spec (h : Represents r q) (hk : k ≤ 31) {sz : UInt32}
    (hstops : StopsInTime r sz) :
    ∃ out, rbReadline r sz = some out ∧ Framed r out ∧
      ∃ q' : Fifo UInt8 (2 ^ k), Represents out.1 q' ∧
        q.items = out.2.2.take out.2.1.toNat ++ q'.items := by
  by_cases hmem : newline ∈ q.items
  · rcases List.eq_append_cons_of_mem hmem with ⟨line, rest, hitems, hline⟩
    have hempty : ¬ rbIsempty r := by
      rw [h.isempty]
      simp [hitems]
    exact rbReadline_line h hk sz hitems hline
      (hstops.line hempty ((h.stored hk).trans hitems) hline)
  · have hmem : newline ∉ r.stored := by
      rw [h.stored hk]
      exact hmem
    rcases rbReadline_none h hk hmem hstops with ⟨buf, hrun⟩
    refine ⟨(r, 0, buf), hrun, ?_, q, h, rfl⟩
    rw [Framed, if_neg hmem]
    exact ⟨rfl, rfl⟩

/-- A call that does not stop in time is not right. -/
theorem stopsInTime_of_framed (h : Represents r q) (hk : k ≤ 31) {sz : UInt32}
    {out : Ringbuffer × UInt32 × List UInt8} (hrun : rbReadline r sz = some out)
    (hframed : Framed r out) : StopsInTime r sz := by
  by_cases hitems : q.items = []
  · refine Or.inl ?_
    rw [h.isempty, hitems]
    rfl
  rw [rbReadline_of_items h hitems] at hrun
  by_cases hstored : newline ∈ r.stored.take (2 ^ 31 - 1)
  · exact Or.inr (Or.inl hstored)
  refine Or.inr (Or.inr ?_)
  have hfront : ∀ i < (rbLen r).toNat, i + 1 < 2 ^ 31 → r.byteAhead i ≠ newline := by
    intro i hi hint heq
    apply hstored
    rw [Ringbuffer.stored, Ringbuffer.scan, ← List.map_take, List.take_range]
    exact heq ▸ List.mem_map_of_mem (List.mem_range.mpr (by omega))
  by_cases hbehind : ∃ i, i ≤ sz.toNat ∧ i + 1 < 2 ^ 31 ∧ r.byteAhead i = newline
  · -- the newline is met behind the stored bytes
    rcases hbehind with ⟨i, hi, hint, hnewline⟩
    rcases h.sized.first_newline hk hnewline with ⟨n, hn, hturn, hfound, hfirst⟩
    rw [rbReadlineLoop_found h.sized hk (Or.inr (hn.trans hi)) hfirst hfound (by omega)] at hrun
    cases hrun
    have hmem : newline ∉ r.stored := by
      intro hmem
      rcases List.mem_map.mp hmem with ⟨j, hj, heq⟩
      have hjlen := List.mem_range.mp hj
      have hjn : n ≤ j := by
        by_contra hlt
        exact hfirst j (by omega) heq
      exact hfront n (by omega) (by omega) hfound
    rw [Framed, if_neg hmem] at hframed
    have hret : (UInt32.ofNat (n + 1)).toNat = 0 := congrArg UInt32.toNat hframed.1
    rw [UInt32.toNat_ofNat'] at hret
    omega
  · by_cases hsmall : (rbLen r).toNat < 2 ^ 31 ∧ sz.toNat + 1 < 2 ^ 31
    · refine ⟨hsmall.1, hsmall.2, fun i hi _ heq => hbehind ⟨i, hi, by omega, heq⟩⟩
    · have hbytes : ∀ i, i + 1 < 2 ^ 31 → r.byteAhead i ≠ newline := by
        intro i hint heq
        by_cases hin : i < (rbLen r).toNat
        · exact hfront i hin hint heq
        · exact hbehind ⟨i, by omega, hint, heq⟩
      rw [rbReadlineLoop_overflow h.sized hk hbytes (by omega)] at hrun
      cases hrun

end Search

/-! ## Whole runs -/

section Sessions

variable {k : ℕ}

/-- The ring stands for a queue, and the lines returned are the front of what was written. -/
def Session.Delivers (k : ℕ) (s : Session) : Prop :=
  ∃ q : Fifo UInt8 (2 ^ k), Represents s.ring q ∧
    s.written = s.returned.flatten ++ q.items ∧
    ∀ bytes ∈ s.returned, ∃ line, bytes = line ++ [newline] ∧ newline ∉ line

/-- Lines that end in their newlines are found again by splitting at the newlines. -/
theorem splitOn_flatten {returned : List (List UInt8)} (rest : List UInt8)
    (hlines : ∀ bytes ∈ returned, ∃ line, bytes = line ++ [newline] ∧ newline ∉ line) :
    (returned.flatten ++ rest).splitOn newline =
      returned.map List.dropLast ++ rest.splitOn newline := by
  induction returned with
  | nil => rfl
  | cons bytes returned ih =>
      rcases hlines bytes List.mem_cons_self with ⟨line, rfl, hline⟩
      have htail := ih (fun bytes h => hlines bytes (List.mem_cons_of_mem _ h))
      rw [List.flatten_cons, List.append_assoc, List.append_assoc, List.singleton_append,
        List.splitOn_append_cons_self_of_not_mem hline, htail, List.map_cons,
        List.dropLast_concat, List.cons_append]

theorem Session.Delivers.inOrder {s : Session} (hk : k ≤ 31) (h : s.Delivers k) : s.InOrder := by
  rcases h with ⟨q, hrep, hwritten, hlines⟩
  rw [Session.InOrder, hrep.stored hk, hwritten, splitOn_flatten _ hlines]

theorem Session.Delivers.len_le {s : Session} (h : s.Delivers k) :
    (rbLen s.ring).toNat ≤ s.ring.size.toNat := by
  rcases h with ⟨q, hrep, -, -⟩
  rw [hrep.len, hrep.size]
  exact q.bounded

theorem Session.call_write (hk : k ≤ 31) {s : Session} (h : s.Delivers k) (buf : List UInt8)
    (sz : UInt32) (henough : sz.toNat ≤ buf.length) :
    ∃ next, s.call (.write buf sz henough) = some next ∧
      next.1.ring.stored = s.ring.stored ++ buf.take next.2.1.toNat ∧ next.1.Delivers k := by
  rcases h with ⟨q, hrep, hwritten, hlines⟩
  rcases rbWrite_spec hrep hk buf sz henough with ⟨r', ret, hrun, hrep', hret⟩
  have hitems : (q.offer (buf.take sz.toNat)).items = q.items ++ buf.take ret.toNat := by
    have hlen : (buf.take sz.toNat).length = sz.toNat := by
      rw [List.length_take]
      omega
    by_cases hfit : sz.toNat ≤ q.room
    · rw [hret, if_pos hfit, Fifo.offer_of_le (by omega)]
    · rw [hret, if_neg hfit, Fifo.offer_of_lt (by omega), List.take_zero, List.append_nil]
  refine ⟨_, by rw [Session.call, hrun, Option.map_some], ?_, _, hrep', ?_, hlines⟩
  · rw [hrep.stored hk]
    exact (hrep'.stored hk).trans hitems
  · rw [hitems, ← List.append_assoc, ← hwritten]

theorem Session.call_readline (hk : k ≤ 31) {s : Session} (h : s.Delivers k) {sz : UInt32}
    (hstops : StopsInTime s.ring sz) :
    ∃ next, s.call (.readline sz) = some next ∧
      Framed s.ring (next.1.ring, next.2) ∧ next.1.Delivers k := by
  rcases h with ⟨q, hrep, hwritten, hlines⟩
  rcases rbReadline_spec hrep hk hstops with ⟨out, hrun, hframed, q', hrep', hitems⟩
  refine ⟨_, by rw [Session.call, hrun, Option.map_some], hframed, q', hrep', ?_, ?_⟩
  · by_cases hret : out.2.1 = 0
    · rw [hret] at hitems
      simpa [hret, hitems] using hwritten
    · simp [hret, hwritten, hitems]
  · intro bytes hmem
    by_cases hret : out.2.1 = 0
    · apply hlines bytes
      simpa [hret] using hmem
    · simp only [if_neg hret, List.mem_append, List.mem_singleton] at hmem
      rcases hmem with hmem | rfl
      · exact hlines bytes hmem
      · rw [Framed] at hframed
        split at hframed
        · rcases hframed with ⟨line, rest, -, hline, hbytes, -⟩
          exact ⟨line, hbytes, hline⟩
        · exact absurd hframed.1 hret

/-- **Line framing.** From an empty ring, whatever its indices and old contents, every call
of a run is right if and only if every call of `rb_readline` stops in time. -/
theorem framed_iff_stopsInTime (hk : k ≤ 31) {r : Ringbuffer} (hsize : r.size.toNat = 2 ^ k)
    (hbuf : r.buf.length = 2 ^ k) (hempty : r.writePos = r.readPos) (calls : List Call) :
    Every Right Session.call ⟨r, [], []⟩ calls ↔
      Admits Session.Searchable Session.call ⟨r, [], []⟩ calls := by
  have hinit : Session.Delivers k ⟨r, [], []⟩ :=
    ⟨Fifo.empty, represents_empty hsize hbuf hempty, rfl, by simp⟩
  refine every_iff_admits (P := Session.Delivers k) ?_ ?_ hinit calls
  · intro s c h hguard
    cases c with
    | write buf sz henough =>
        rcases Session.call_write hk h buf sz henough with ⟨next, hcall, hstored, hnext⟩
        exact ⟨next, hcall, ⟨hstored, hnext.inOrder hk, hnext.len_le⟩, hnext⟩
    | readline sz =>
        rcases Session.call_readline hk h hguard with ⟨next, hcall, hframed, hnext⟩
        exact ⟨next, hcall, ⟨hframed, hnext.inOrder hk, hnext.len_le⟩, hnext⟩
  · intro s c next h hcall hright
    cases c with
    | write buf sz henough => trivial
    | readline sz =>
        rcases h with ⟨q, hrep, -, -⟩
        rcases Option.map_eq_some_iff.mp hcall with ⟨out, hrun, rfl⟩
        exact stopsInTime_of_framed hrep hk hrun hright.1

/-- Two lines through four slots, with a search that is told to look no further. -/
theorem framed_iff_stopsInTime_fourSlots :
    Every Right Session.call ⟨⟨[10, 10, 10, 10], 4, 7, 7⟩, [], []⟩
        [.write [97, 10, 98] 3 (by decide), .readline 0, .readline 0] ↔
      Admits Session.Searchable Session.call ⟨⟨[10, 10, 10, 10], 4, 7, 7⟩, [], []⟩
        [.write [97, 10, 98] 3 (by decide), .readline 0, .readline 0] :=
  framed_iff_stopsInTime (k := 2) (by decide) (by decide) (by decide) (by decide) _

/-- The newline of a line that was read before is found again behind the stored byte. -/
theorem stale_newline_found :
    ¬ Every Right Session.call ⟨⟨[0, 0, 0, 0], 4, 0, 0⟩, [], []⟩
        [.write [97, 10] 2 (by decide), .readline 5, .write [98] 1 (by decide), .readline 5] := by
  intro hevery
  rcases hevery with ⟨next₁, h₁, -, next₂, h₂, -, next₃, h₃, -, next₄, h₄, hright, -⟩
  cases h₁
  have hread : Session.call ⟨⟨[97, 10, 0, 0], 4, 2, 0⟩, [97, 10], []⟩ (.readline 5) =
      some (⟨⟨[97, 10, 0, 0], 4, 2, 2⟩, [97, 10], [[97, 10]]⟩, 2, [97, 10]) := by
    decide +kernel
  cases hread.symm.trans h₂
  cases h₃
  have hstale : Session.call ⟨⟨[97, 10, 98, 0], 4, 3, 2⟩, [97, 10, 98], [[97, 10]]⟩ (.readline 5) =
      some (⟨⟨[97, 10, 98, 0], 4, 3, 6⟩, [97, 10, 98], [[97, 10], [98, 0, 97, 10]]⟩, 4,
        [98, 0, 97, 10]) := by
    decide +kernel
  cases hstale.symm.trans h₄
  have hlen : ¬ (rbLen ⟨[97, 10, 98, 0], 4, 3, 6⟩).toNat ≤ (4 : UInt32).toNat := by decide
  exact hlen hright.2.2

end Sessions

end ServerKit.Ringbuf
