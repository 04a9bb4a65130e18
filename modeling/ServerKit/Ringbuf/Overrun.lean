import ServerKit.Ringbuf.Capacity
import ServerKit.Ringbuf.Readline
import ServerKit.Lib.System

/-! # How much `rb_readline` stores

The loop of `rb_readline` goes on while the index is below the stored length or at most `sz`.
Without a newline, it passes the end of a buffer of `sz` bytes. -/

namespace ServerKit.Ringbuf

open ServerKit.Memory ServerKit.System

/-! ## The states of a ring -/

/-- A call on a ring. -/
inductive Use where
  | op (op : Op)
  | readline (sz : UInt32)

def Ringbuffer.use (r : Ringbuffer) : Use → Option Ringbuffer
  | .op op => (step r op).map Prod.fst
  | .readline sz => (rbReadline r sz).map Prod.fst

/-- A ring that `rb_init` has made in the memory it asked for. -/
def Fresh (r : Ringbuffer) : Prop :=
  ∃ malloc sz, (∀ n : UInt32, (malloc n).length = n.toNat) ∧ rbInit malloc sz = some r

theorem Fresh.sized {r : Ringbuffer} (h : Fresh r) : ∃ k ≤ 31, r.Sized k := by
  rcases h with ⟨malloc, sz, hmalloc, hinit⟩
  rcases rbInit_capacity hinit with ⟨k, hk, hsize⟩
  refine ⟨k, hk, hsize, ?_⟩
  rw [(rbInit_spec hinit).1, hmalloc, hsize]

section Sized

variable {k : ℕ} {r r' : Ringbuffer}

theorem rbWrite_sized (h : r.Sized k) {buf : List UInt8} {sz ret : UInt32}
    (hrun : rbWrite r buf sz = some (r', ret)) : r'.Sized k := by
  unfold rbWrite at hrun
  split at hrun
  · cases hrun
    exact h
  · obtain ⟨front, hfront, hrun⟩ := Option.bind_eq_some_iff.mp hrun
    obtain ⟨mem, hmem, hrun⟩ := Option.bind_eq_some_iff.mp hrun
    cases hrun
    exact ⟨h.size, by rw [memcpy_length hmem, memcpy_length hfront, h.length_buf]⟩

theorem rbRead_sized (h : r.Sized k) {sz : UInt32} {out : UInt32 × List UInt8}
    (hrun : rbRead r sz = some (r', out)) : r'.Sized k := by
  unfold rbRead at hrun
  split at hrun
  · cases hrun
    exact h
  · obtain ⟨front, -, hrun⟩ := Option.bind_eq_some_iff.mp hrun
    obtain ⟨rest, -, hrun⟩ := Option.bind_eq_some_iff.mp hrun
    cases hrun
    exact ⟨h.size, h.length_buf⟩

theorem rbReadlineLoop_sized (h : r.Sized k) {sz : UInt32} {i : ℕ} {buf : List UInt8}
    {out : UInt32 × List UInt8} (hrun : rbReadlineLoop r sz i buf = some (r', out)) :
    r'.Sized k := by
  induction i, buf using rbReadlineLoop.induct r sz with
  | case1 i buf hscan hbyte =>
      rw [rbReadlineLoop, if_pos hscan, hbyte] at hrun
      cases hrun
  | case2 i buf hscan hint hbyte =>
      rw [rbReadlineLoop, if_pos hscan, hbyte] at hrun
      simp only [dif_pos hint, if_true] at hrun
      cases hrun
      exact ⟨h.size, h.length_buf⟩
  | case3 i buf hscan c hbyte hint hc ih =>
      rw [rbReadlineLoop, if_pos hscan, hbyte] at hrun
      simp only [dif_pos hint, if_neg hc] at hrun
      exact ih hrun
  | case4 i buf hscan c hbyte hint =>
      rw [rbReadlineLoop, if_pos hscan, hbyte] at hrun
      simp only [dif_neg hint] at hrun
      cases hrun
  | case5 i buf hscan =>
      rw [rbReadlineLoop, if_neg hscan] at hrun
      cases hrun
      exact h

theorem Ringbuffer.Sized.use {u : Use} (h : r.Sized k) (huse : r.use u = some r') :
    r'.Sized k := by
  rcases u with op | sz
  · rcases Option.map_eq_some_iff.mp huse with ⟨⟨r'', reply⟩, hstep, rfl⟩
    cases op with
    | write buf sz henough =>
        rcases Option.map_eq_some_iff.mp hstep with ⟨out, hrun, heq⟩
        cases heq
        exact rbWrite_sized h hrun
    | read sz =>
        rcases Option.map_eq_some_iff.mp hstep with ⟨out, hrun, heq⟩
        cases heq
        exact rbRead_sized h hrun
    | clear =>
        cases hstep
        exact ⟨h.size, h.length_buf⟩
  · rcases Option.map_eq_some_iff.mp huse with ⟨⟨r'', out⟩, hrun, rfl⟩
    unfold rbReadline at hrun
    split at hrun
    · cases hrun
      exact h
    · exact rbReadlineLoop_sized h hrun

end Sized

theorem reachable_sized {r : Ringbuffer} (h : Reachable Ringbuffer.use Fresh anyStep r) :
    ∃ k ≤ 31, r.Sized k := by
  refine h.invariant (fun r hr => hr.sized) ?_
  rintro r r' u ⟨k, hk, hsized⟩ - huse
  exact ⟨k, hk, hsized.use huse⟩

/-! ## The bytes stored -/

section Fits

variable {k : ℕ} {r : Ringbuffer} {sz : UInt32}

@[simp] theorem scan_length (r : Ringbuffer) (n : ℕ) : (r.scan n).length = n := by
  simp [Ringbuffer.scan]

/-- The first newline within the limits of the loop ends the search. -/
theorem Ringbuffer.Sized.readline_found (h : r.Sized k) (hk : k ≤ 31) (hempty : ¬ rbIsempty r)
    {i : ℕ} (hi : i < (rbLen r).toNat ∨ i ≤ sz.toNat) (hint : i + 1 < 2 ^ 31)
    (hnewline : r.byteAhead i = newline) :
    ∃ n ≤ i, r.byteAhead n = newline ∧
      ∃ out, rbReadline r sz = some out ∧ out.2.2.length = n + 1 := by
  rcases h.first_newline hk hnewline with ⟨n, hn, hturn, hfound, hfirst⟩
  have hrun : rbReadline r sz = _ :=
    (if_neg hempty).trans (rbReadlineLoop_found h hk (by omega) hfirst hfound (by omega))
  exact ⟨n, hn, hfound, _, hrun, scan_length r (n + 1)⟩

theorem Ringbuffer.Sized.readline_fits_iff (h : r.Sized k) (hk : k ≤ 31) :
    (∃ out, rbReadline r sz = some out ∧ out.2.2.length ≤ sz.toNat) ↔
      rbIsempty r ∨ ∃ i < sz.toNat, i + 1 < 2 ^ 31 ∧ r.byteAhead i = newline := by
  by_cases hempty : rbIsempty r
  · exact iff_of_true ⟨(r, 0, []), by rw [rbReadline, if_pos hempty], Nat.zero_le _⟩
      (Or.inl hempty)
  rw [or_iff_right hempty]
  constructor
  · rintro ⟨out, hrun, hfits⟩
    by_cases hany : ∃ i, (i < (rbLen r).toNat ∨ i ≤ sz.toNat) ∧ i + 1 < 2 ^ 31 ∧
        r.byteAhead i = newline
    · rcases hany with ⟨i, hi, hint, hnewline⟩
      rcases h.readline_found hk hempty hi hint hnewline with
        ⟨n, hn, hfound, out', hrun', hlen⟩
      rw [hrun] at hrun'
      cases hrun'
      exact ⟨n, by omega, by omega, hfound⟩
    · -- without a newline the search passes index `sz`
      rw [rbReadline, if_neg hempty] at hrun
      by_cases hsmall : (rbLen r).toNat < 2 ^ 31 ∧ sz.toNat + 1 < 2 ^ 31
      · have hbytes : ∀ i, i < (rbLen r).toNat ∨ i ≤ sz.toNat → r.byteAhead i ≠ newline :=
          fun i hi hnewline => hany ⟨i, hi, by omega, hnewline⟩
        rw [rbReadlineLoop_end h hk hbytes hsmall.1 hsmall.2] at hrun
        cases hrun
        rw [scan_length] at hfits
        omega
      · have hbytes : ∀ i, i + 1 < 2 ^ 31 → r.byteAhead i ≠ newline :=
          fun i hint hnewline => hany ⟨i, by omega, hint, hnewline⟩
        rw [rbReadlineLoop_overflow h hk hbytes (by omega)] at hrun
        cases hrun
  · rintro ⟨i, hi, hint, hnewline⟩
    rcases h.readline_found hk hempty (Or.inr hi.le) hint hnewline with
      ⟨n, hn, -, out, hrun, hlen⟩
    exact ⟨out, hrun, by omega⟩

end Fits

/-- In every reachable state, `rb_readline` comes to an end within its caller's buffer exactly
when the ring is empty or one of the first `sz` bytes from the read position on is a newline, but
not at an index whose successor is no `int`. -/
theorem rbReadline_fits_iff {r : Ringbuffer} (h : Reachable Ringbuffer.use Fresh anyStep r)
    (sz : UInt32) :
    (∃ out, rbReadline r sz = some out ∧ out.2.2.length ≤ sz.toNat) ↔
      rbIsempty r ∨ ∃ i < sz.toNat, i + 1 < 2 ^ 31 ∧ r.byteAhead i = newline := by
  rcases reachable_sized h with ⟨k, hk, hsized⟩
  exact hsized.readline_fits_iff hk

/-- A ring of two bytes in zeroed memory. -/
theorem fresh_pair : Fresh ⟨[0, 0], 2, 0, 0⟩ :=
  ⟨fun n => List.replicate n.toNat 0, 2, fun _ => List.length_replicate, rfl⟩

/-- One stored byte that is no newline, and a buffer of one byte: two are stored. -/
theorem rbReadline_overruns :
    ¬ ∀ r, Reachable Ringbuffer.use Fresh anyStep r → ∀ sz : UInt32,
      ∃ out, rbReadline r sz = some out ∧ out.2.2.length ≤ sz.toNat := by
  intro h
  have hreach : Reachable Ringbuffer.use Fresh anyStep ⟨[97, 0], 2, 1, 0⟩ :=
    .step (i := .op (.write [97] 1 (by decide))) (.start fresh_pair) trivial rfl
  have hsized : (⟨[97, 0], 2, 1, 0⟩ : Ringbuffer).Sized 1 := ⟨rfl, rfl⟩
  rcases (hsized.readline_fits_iff (by decide)).mp (h _ hreach 1) with hempty | hnewline
  · exact absurd hempty (by decide)
  · exact absurd hnewline (by decide)

/-- A line of one byte and its newline fits a buffer of two. -/
theorem rbReadline_fits_pair :
    ∃ out, rbReadline ⟨[97, 10], 2, 2, 0⟩ 2 = some out ∧ out.2.2.length ≤ 2 := by
  have hreach : Reachable Ringbuffer.use Fresh anyStep ⟨[97, 10], 2, 2, 0⟩ :=
    .step (i := .op (.write [97, 10] 2 (by decide))) (.start fresh_pair) trivial rfl
  exact (rbReadline_fits_iff hreach 2).mpr (Or.inr ⟨1, by decide, by decide, by decide⟩)

end ServerKit.Ringbuf
