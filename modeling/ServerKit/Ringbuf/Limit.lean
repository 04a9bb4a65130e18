import ServerKit.Ringbuf.Publication

/-! # How much a concurrent `rb_read` copies

The macro `min` loads `write_pos` once to compare and once more for its value. The producer
may publish in between, so that the value exceeds the size that was asked for. -/

namespace ServerKit.Ringbuf

open ServerKit.System

/-- The threads with the size that the last `rb_read` was called with, the number of bytes
delivered before it, and what it returned. -/
structure Reading where
  threads : Threads
  sz : UInt32
  before : ℕ
  returned : UInt32

/-- What the step that ends a call returns. -/
def Consumer.ret : Consumer → UInt32
  | .storePos n _ => n
  | _ => 0

/-- A step of the threads and the record of the call. -/
def Reading.next (s : Reading) (a : Action) : Option Reading :=
  (s.threads.next a).map fun t =>
    match a with
    | .callRead sz => ⟨t, sz, s.threads.delivered.length, 0⟩
    | .consumer => { s with threads := t, returned := s.threads.cons.ret }
    | _ => { s with threads := t }

structure Reading.Start (k : ℕ) (s : Reading) : Prop where
  threads : s.threads.Start k
  before : s.before = 0
  returned : s.returned = 0

/-- The call has copied and returned no more than its caller asked for. -/
structure Reading.Respects (s : Reading) : Prop where
  copies : s.threads.delivered.length ≤ s.before + s.sz.toNat
  returns : s.returned ≤ s.sz

/-- When `min` loads `write_pos` for its value, no more is stored than was asked for. -/
def Reading.Settles (s : Reading) : Action → Prop
  | .consumer =>
    match s.threads.cons with
    | .takeWrite sz => rbLen s.threads.ring ≤ sz
    | _ => True
  | _ => True

instance (s : Reading) (a : Action) : Decidable (s.Settles a) := by
  cases a with
  | consumer =>
      unfold Reading.Settles
      dsimp only
      split <;> infer_instance
  | _ => exact .isTrue trivial

/-! ## The number a call goes on with -/

/-- The size a call was made with, as long as `min` has not replaced it. -/
def Consumer.asked : Consumer → Option UInt32
  | .emptyRead sz | .emptyWrite sz _ | .lenWrite sz | .lenRead sz _ | .takeWrite sz => some sz
  | _ => none

/-- The number of bytes that `min` has replaced it by. -/
def Consumer.settled (readPos : UInt32) : Consumer → Option UInt32
  | .takeRead _ w => some (w - readPos)
  | .compare n | .select n | .source n _ | .copyFront n _ _ _ | .copyRest n _ _ | .loadPos n
  | .storePos n _ => some n
  | _ => none

/-- What one step of the consumer does to these numbers. -/
inductive Consumer.Settling (ring : Ringbuffer) : Consumer → Consumer → Prop where
  | empty (sz r : UInt32) : Settling ring (.emptyWrite sz r) .idle
  | asks {c c' : Consumer} {sz : UInt32} (hasked : c.asked = some sz) (hasked' : c'.asked = some sz)
      (hbefore : ∀ sz, c ≠ .takeWrite sz) : Settling ring c c'
  | enough {sz w : UInt32} (h : sz < w - ring.readPos) :
      Settling ring (.lenRead sz w) (.compare sz)
  | takes (sz : UInt32) : Settling ring (.takeWrite sz) (.takeRead sz ring.writePos)
  | keeps {c c' : Consumer} {n : UInt32} (h : c.settled ring.readPos = some n)
      (h' : c'.settled ring.readPos = some n) (hret : c.ret = 0) : Settling ring c c'
  | returns (n r : UInt32) : Settling ring (.storePos n r) .idle

theorem Consumer.asked_of_settled {c : Consumer} {readPos n : UInt32}
    (h : c.settled readPos = some n) : c.asked = none := by
  cases c <;> first | rfl | cases h

theorem Consumer.settled_of_asked {c : Consumer} {readPos sz : UInt32}
    (h : c.asked = some sz) : c.settled readPos = none := by
  cases c <;> first | rfl | cases h

theorem Consumer.ret_of_asked {c : Consumer} {sz : UInt32} (h : c.asked = some sz) :
    c.ret = 0 := by
  cases c <;> first | rfl | cases h

/-- The consumer's step, as far as these numbers are concerned. -/
theorem Threads.settling {s s' : Threads} (hstep : s.stepConsumer = some s') :
    s.cons.Settling s.ring s'.cons ∧
      (s'.cons ≠ .idle → s'.ring.readPos = s.ring.readPos) := by
  unfold Threads.stepConsumer at hstep
  cases hpc : s.cons with
  | idle => simp [hpc] at hstep
  | emptyRead sz | lenWrite sz =>
      simp only [hpc, Option.some.injEq] at hstep
      subst hstep
      exact ⟨.asks rfl rfl (fun sz h => by cases h), fun _ => rfl⟩
  | emptyWrite sz r =>
      simp only [hpc] at hstep
      split at hstep
      · cases hstep
        exact ⟨.empty sz r, fun _ => rfl⟩
      · cases hstep
        exact ⟨.asks rfl rfl (fun sz h => by cases h), fun _ => rfl⟩
  | lenRead sz w =>
      simp only [hpc] at hstep
      split at hstep
      · rename_i hlt
        cases hstep
        exact ⟨.enough hlt, fun _ => rfl⟩
      · cases hstep
        exact ⟨.asks rfl rfl (fun sz h => by cases h), fun _ => rfl⟩
  | takeWrite sz =>
      simp only [hpc, Option.some.injEq] at hstep
      subst hstep
      exact ⟨.takes sz, fun _ => rfl⟩
  | takeRead | select | source | loadPos =>
      simp only [hpc, Option.some.injEq] at hstep
      subst hstep
      exact ⟨.keeps rfl rfl rfl, fun _ => rfl⟩
  | compare n =>
      simp only [hpc] at hstep
      split at hstep
      all_goals
        cases hstep
        exact ⟨.keeps rfl rfl rfl, fun _ => rfl⟩
  | copyFront | copyRest =>
      simp only [hpc] at hstep
      split at hstep
      · obtain ⟨byte, -, hstep⟩ := Option.bind_eq_some_iff.mp hstep
        cases hstep
        exact ⟨.keeps rfl rfl rfl, fun _ => rfl⟩
      · cases hstep
        exact ⟨.keeps rfl rfl rfl, fun _ => rfl⟩
  | storePos n r =>
      simp only [hpc, Option.some.injEq] at hstep
      subst hstep
      exact ⟨.returns n r, fun hcall => absurd rfl hcall⟩

/-- The producer's step and the beginning of its call leave the consumer alone. -/
theorem Threads.stepProducer_cons {s s' : Threads} (hstep : s.stepProducer = some s') :
    s'.cons = s.cons ∧ s'.ring.readPos = s.ring.readPos ∧ s'.delivered = s.delivered := by
  unfold Threads.stepProducer at hstep
  cases hpc : s.prod with
  | idle => simp [hpc] at hstep
  | remainRead | compare =>
      simp only [hpc] at hstep
      split at hstep
      all_goals
        cases hstep
        exact ⟨rfl, rfl, rfl⟩
  | copyFront | copyRest =>
      simp only [hpc] at hstep
      split at hstep
      · obtain ⟨byte, -, hstep⟩ := Option.bind_eq_some_iff.mp hstep
        obtain ⟨mem, -, hstep⟩ := Option.bind_eq_some_iff.mp hstep
        cases hstep
        exact ⟨rfl, rfl, rfl⟩
      · cases hstep
        exact ⟨rfl, rfl, rfl⟩
  | _ =>
      simp only [hpc, Option.some.injEq] at hstep
      subst hstep
      exact ⟨rfl, rfl, rfl⟩

/-- Every byte delivered is counted by the call that copied it, until the call returns. -/
theorem Threads.Inv.stepConsumer_count {k p R : ℕ} {s s' : Threads} (h : s.Inv k p R)
    (hstep : s.stepConsumer = some s') :
    s'.delivered.length + s.cons.copied =
      s.delivered.length + s'.cons.copied + s.cons.ret.toNat := by
  have hcons := h.cons
  unfold Threads.stepConsumer at hstep
  cases hpc : s.cons with
  | idle => simp [hpc] at hstep
  | emptyWrite | lenRead | compare =>
      simp only [hpc] at hstep
      split at hstep
      all_goals
        cases hstep
        rfl
  | copyFront n i src j =>
      simp only [hpc, Consumer.Inv] at hstep hcons
      split at hstep
      · obtain ⟨byte, -, hstep⟩ := Option.bind_eq_some_iff.mp hstep
        cases hstep
        simp only [Consumer.copied, Consumer.ret, List.length_append, List.length_singleton,
          UInt32.toNat_zero]
        omega
      · cases hstep
        simp only [Consumer.copied, Consumer.ret, UInt32.toNat_zero]
        omega
  | copyRest n i j =>
      simp only [hpc, Consumer.Inv] at hstep hcons
      have hrest := UInt32.toNat_sub_of_le n i (UInt32.le_iff_toNat_le.mpr (by omega))
      split at hstep
      · obtain ⟨byte, -, hstep⟩ := Option.bind_eq_some_iff.mp hstep
        cases hstep
        simp only [Consumer.copied, Consumer.ret, List.length_append, List.length_singleton,
          UInt32.toNat_zero]
        omega
      · cases hstep
        simp only [Consumer.copied, Consumer.ret, UInt32.toNat_zero]
        omega
  | _ =>
      simp only [hpc, Option.some.injEq] at hstep
      subst hstep
      rfl

/-! ## The record of a call -/

/-- The record goes with the threads. -/
structure Reading.Kept (k : ℕ) (s : Reading) : Prop where
  inv : ∃ p R, s.threads.Inv k p R
  asked : ∀ sz, s.threads.cons.asked = some sz → sz = s.sz
  count : s.threads.delivered.length = s.before + s.threads.cons.copied + s.returned.toNat
  inCall : s.threads.cons ≠ .idle → s.returned = 0

/-- The number a call goes on with, and then returns, is at most what was asked for. -/
structure Reading.Fits (s : Reading) : Prop where
  settled : ∀ n, s.threads.cons.settled s.threads.ring.readPos = some n → n ≤ s.sz
  returns : s.returned ≤ s.sz

theorem Reading.Start.kept {k : ℕ} {s : Reading} (h : s.Start k) : s.Kept k where
  inv := ⟨_, _, h.threads.inv⟩
  asked := by simp [h.threads.cons, Consumer.asked]
  count := by simp [h.threads.cons, h.threads.delivered, h.before, h.returned, Consumer.copied]
  inCall := fun hcall => absurd h.threads.cons hcall

theorem Reading.Start.fits {k : ℕ} {s : Reading} (h : s.Start k) : s.Fits where
  settled := by simp [h.threads.cons, Consumer.settled]
  returns := by simp [h.returned]

/-- What is copied counts towards the number settled on. -/
theorem Consumer.Inv.copied_le_settled {k p R W : ℕ} {readPos n : UInt32} {c : Consumer}
    (h : c.Inv k p R W readPos) (hn : c.settled readPos = some n) : c.copied ≤ n.toNat := by
  cases c <;> simp only [Consumer.settled, Option.some.injEq, reduceCtorEq] at hn
  all_goals
    subst hn
    simp only [Consumer.Inv, Consumer.copied] at h ⊢
    omega

theorem Consumer.copied_of_settled_none {readPos : UInt32} {c : Consumer}
    (hn : c.settled readPos = none) : c.copied = 0 := by
  cases c <;> first | rfl | cases hn

theorem Reading.Kept.respects {k : ℕ} {s : Reading} (h : s.Kept k) (hfits : s.Fits) :
    s.Respects := by
  refine ⟨?_, hfits.returns⟩
  rw [h.count]
  have hreturns := UInt32.le_iff_toNat_le.mp hfits.returns
  cases hsettled : s.threads.cons.settled s.threads.ring.readPos with
  | none =>
      rw [Consumer.copied_of_settled_none hsettled]
      omega
  | some n =>
      rcases h.inv with ⟨p, R, hinv⟩
      have hcopied := hinv.cons.copied_le_settled hsettled
      have hn := UInt32.le_iff_toNat_le.mp (hfits.settled n hsettled)
      have hcall : s.threads.cons ≠ .idle := by
        intro hidle
        rw [hidle] at hsettled
        cases hsettled
      rw [h.inCall hcall, UInt32.toNat_zero]
      omega

/-! ## Steps -/

section Steps

variable {k : ℕ} {s s' : Reading} {a : Action}

/-- A step is a call of `rb_read`, a step of the consumer, or leaves the consumer alone. -/
theorem Reading.next_cases (hnext : s.next a = some s') :
    (∃ sz, a = .callRead sz ∧ s.threads.cons = .idle ∧ s'.threads.cons = .emptyRead sz ∧
      s'.threads.delivered = s.threads.delivered ∧ s'.sz = sz ∧
      s'.before = s.threads.delivered.length ∧ s'.returned = 0) ∨
    (a = .consumer ∧ s.threads.stepConsumer = some s'.threads ∧ s'.sz = s.sz ∧
      s'.before = s.before ∧ s'.returned = s.threads.cons.ret) ∨
    (a ≠ .consumer ∧ s'.threads.cons = s.threads.cons ∧
      s'.threads.ring.readPos = s.threads.ring.readPos ∧
      s'.threads.delivered = s.threads.delivered ∧ s'.sz = s.sz ∧ s'.before = s.before ∧
      s'.returned = s.returned) := by
  rcases Option.map_eq_some_iff.mp hnext with ⟨t, ht, rfl⟩
  cases a with
  | callWrite buf sz henough =>
      simp only [Threads.next] at ht
      split at ht
      · cases ht
        exact Or.inr (Or.inr ⟨fun h => (by cases h), rfl, rfl, rfl, rfl, rfl, rfl⟩)
      · cases ht
  | producer =>
      rcases Threads.stepProducer_cons ht with ⟨hcons, hread, hdel⟩
      exact Or.inr (Or.inr ⟨fun h => (by cases h), hcons, hread, hdel, rfl, rfl, rfl⟩)
  | callRead sz =>
      simp only [Threads.next] at ht
      split at ht
      · rename_i hidle
        cases ht
        exact Or.inl ⟨sz, rfl, hidle, rfl, rfl, rfl, rfl, rfl⟩
      · cases ht
  | consumer => exact Or.inr (Or.inl ⟨rfl, ht, rfl, rfl, rfl⟩)

theorem Reading.Kept.next (h : s.Kept k) (hk : k ≤ 31) (hnext : s.next a = some s') :
    s'.Kept k := by
  have hinv : ∃ p R, s'.threads.Inv k p R := by
    rcases h.inv with ⟨p, R, hinv⟩
    rcases Option.map_eq_some_iff.mp hnext with ⟨t, ht, rfl⟩
    rcases hinv.next hk ht with ⟨R', hinv'⟩
    refine ⟨p, R', ?_⟩
    cases a <;> exact hinv'
  rcases Reading.next_cases hnext with ⟨sz, -, -, hcons, hdel, hsz, hbefore, hret⟩ |
    ⟨-, hstep, hsz, hbefore, hret⟩ | ⟨-, hcons, -, hdel, hsz, hbefore, hret⟩
  · refine ⟨hinv, ?_, ?_, fun _ => hret⟩
    · rw [hcons, hsz]
      rintro _ ⟨⟩
      rfl
    · rw [hcons, hbefore, hret, hdel]
      rfl
  · rcases h.inv with ⟨p, R, hold⟩
    have hcall : s.threads.cons ≠ .idle := by
      intro hidle
      simp [Threads.stepConsumer, hidle] at hstep
    have hcount := hold.stepConsumer_count hstep
    rw [h.count, h.inCall hcall, UInt32.toNat_zero] at hcount
    refine ⟨hinv, ?_, by rw [hbefore, hret]; omega, ?_⟩
    · rw [hsz]
      intro sz hasked
      rcases Threads.settling hstep with ⟨hsettling, -⟩
      generalize hc : s.threads.cons = c at hsettling
      generalize hc' : s'.threads.cons = c' at hsettling hasked
      cases hsettling with
      | asks hbefore hafter =>
          rw [hafter] at hasked
          cases hasked
          exact h.asked _ (hc ▸ hbefore)
      | keeps _ hafter =>
          rw [Consumer.asked_of_settled hafter] at hasked
          cases hasked
      | _ => cases hasked
    · rw [hret]
      intro hcall'
      rcases Threads.settling hstep with ⟨hsettling, -⟩
      generalize s.threads.cons = c at hsettling
      generalize s'.threads.cons = c' at hsettling hcall'
      cases hsettling with
      | asks hbefore _ => exact Consumer.ret_of_asked hbefore
      | keeps _ _ hret => exact hret
      | returns => exact absurd rfl hcall'
      | _ => rfl
  · refine ⟨hinv, ?_, ?_, ?_⟩
    · rw [hcons, hsz]
      exact h.asked
    · rw [hcons, hdel, hbefore, hret]
      exact h.count
    · rw [hcons, hret]
      exact h.inCall

theorem Reading.settles_of_ne (h : ∀ sz, s.threads.cons ≠ .takeWrite sz) :
    s.Settles .consumer := by
  unfold Reading.Settles
  dsimp only
  split
  · rename_i sz htake
    exact absurd htake (h sz)
  · trivial

/-- The step that loads `write_pos` for its value decides whether the call fits. -/
theorem Reading.Kept.fits_iff (h : s.Kept k) (hk : k ≤ 31) (hfits : s.Fits)
    (hnext : s.next a = some s') :
    s'.Fits ↔ s.Settles a := by
  rcases Reading.next_cases hnext with ⟨sz, rfl, -, hcons, -, -, -, hret⟩ |
    ⟨rfl, hstep, hsz, -, hret⟩ | ⟨ha, hcons, hread, -, hsz, -, hret⟩
  · refine iff_of_true ⟨?_, ?_⟩ trivial
    · rw [hcons]
      rintro n ⟨⟩
    · rw [hret]
      exact UInt32.zero_le
  · rcases Threads.settling hstep with ⟨hsettling, hread⟩
    have hreturns : s'.threads.cons ≠ .idle → s'.returned ≤ s'.sz := by
      intro hcall'
      rw [(h.next hk hnext).inCall hcall']
      exact UInt32.zero_le
    generalize hc : s.threads.cons = c at hsettling
    generalize hc' : s'.threads.cons = c' at hsettling hread hreturns
    cases hsettling with
    | empty sz r =>
        refine iff_of_true ⟨by simp [hc', Consumer.settled], ?_⟩ (Reading.settles_of_ne ?_)
        · rw [hret, hc]
          exact UInt32.zero_le
        · simp [hc]
    | asks hbefore hafter hother =>
        have hcall' : c' ≠ .idle := fun hidle => (by simp [hidle, Consumer.asked] at hafter)
        refine iff_of_true ⟨?_, hreturns hcall'⟩ (Reading.settles_of_ne (hc ▸ hother))
        rw [hc', Consumer.settled_of_asked hafter]
        rintro n ⟨⟩
    | enough hlt =>
        refine iff_of_true ⟨?_, hreturns (fun h => (by cases h))⟩ (Reading.settles_of_ne ?_)
        · rw [hc', hsz]
          rintro n ⟨⟩
          exact UInt32.le_of_eq (h.asked _ (by rw [hc]; rfl))
        · simp [hc]
    | takes sz =>
        have hasked : sz = s.sz := h.asked sz (by rw [hc]; rfl)
        simp only [Reading.Settles, hc, hasked]
        constructor
        · intro hfits'
          have hn := hfits'.settled _ (by rw [hc']; rfl)
          rwa [hread (fun h => (by cases h)), hsz] at hn
        · intro hle
          refine ⟨?_, hreturns (fun h => (by cases h))⟩
          rw [hc', hsz, hread (fun h => (by cases h))]
          rintro n ⟨⟩
          exact hle
    | keeps hbefore hafter _ =>
        have hcall' : c' ≠ .idle := fun hidle => (by simp [hidle, Consumer.settled] at hafter)
        refine iff_of_true ⟨?_, hreturns hcall'⟩ (Reading.settles_of_ne ?_)
        · rw [hc', hread hcall', hafter, hsz]
          rintro _ ⟨⟩
          exact hfits.settled _ (by rw [hc]; exact hbefore)
        · rw [hc]
          rintro sz rfl
          cases hbefore
    | returns n r =>
        refine iff_of_true ⟨by simp [hc', Consumer.settled], ?_⟩ (Reading.settles_of_ne ?_)
        · rw [hret, hc, hsz]
          exact hfits.settled n (by rw [hc]; rfl)
        · simp [hc]
  · refine iff_of_true ⟨?_, ?_⟩ ?_
    · rw [hcons, hread, hsz]
      exact hfits.settled
    · rw [hret, hsz]
      exact hfits.returns
    · cases a with
      | consumer => exact absurd rfl ha
      | _ => trivial

/-- A call that goes on with too much keeps doing so, and then returns it. -/
theorem Reading.over_next {n : UInt32}
    (hn : s.threads.cons.settled s.threads.ring.readPos = some n) (hlt : s.sz < n)
    (hnext : s.next a = some s') :
    ¬ s'.Respects ∨
      s'.sz = s.sz ∧ s'.threads.cons.settled s'.threads.ring.readPos = some n := by
  rcases Reading.next_cases hnext with ⟨sz, -, hidle, -⟩ | ⟨-, hstep, hsz, -, hret⟩ |
    ⟨-, hcons, hread, -, hsz, -, -⟩
  · rw [hidle] at hn
    cases hn
  · rcases Threads.settling hstep with ⟨hsettling, hread⟩
    generalize hc : s.threads.cons = c at hsettling hn
    generalize hc' : s'.threads.cons = c' at hsettling hread
    cases hsettling with
    | asks hbefore _ _ =>
        rw [Consumer.settled_of_asked hbefore] at hn
        cases hn
    | keeps hbefore hafter _ =>
        have hcall' : c' ≠ .idle := fun hidle => (by simp [hidle, Consumer.settled] at hafter)
        rw [hread hcall', hafter, ← hbefore]
        exact Or.inr ⟨hsz, hn⟩
    | returns m r =>
        cases hn
        refine Or.inl fun hrespects => ?_
        have hreturns := hrespects.returns
        rw [hret, hc, hsz] at hreturns
        exact absurd hlt (UInt32.not_lt.mpr hreturns)
    | _ => cases hn
  · rw [hcons, hread, hsz]
    exact Or.inr ⟨rfl, hn⟩

end Steps

/-! ## Runs -/

section Runs

variable {k : ℕ} {s t : Reading} {actions : List Action}

/-- Calls that settle on enough respect their callers' buffers. -/
theorem Reading.Kept.respects_run (hk : k ≤ 31) (h : s.Kept k) (hfits : s.Fits)
    (hexec : exec Reading.next s actions = some t)
    (hsettles : Admits Reading.next Reading.Settles s actions) :
    Throughout Reading.next Reading.Respects s actions := by
  have hstep : ∀ s a s', s.Kept k ∧ s.Fits → Reading.next s a = some s' →
      (s'.Kept k ∧ s'.Fits ↔ s.Settles a) := by
    rintro s a s' ⟨hkept, hfits⟩ hnext
    rw [← hkept.fits_iff hk hfits hnext]
    exact and_iff_right (hkept.next hk hnext)
  have hthrough := (throughout_iff_admits hstep ⟨h, hfits⟩ hexec).mpr hsettles
  exact hthrough.mono fun s hs => hs.1.respects hs.2

/-- A call that goes on with too much comes to return it. -/
theorem Reading.over_run {n : UInt32}
    (hn : s.threads.cons.settled s.threads.ring.readPos = some n) (hlt : s.sz < n)
    (hexec : exec Reading.next s actions = some t) (hidle : t.threads.cons = .idle) :
    ¬ Throughout Reading.next Reading.Respects s actions := by
  induction actions generalizing s with
  | nil =>
      cases hexec
      rw [hidle] at hn
      cases hn
  | cons a actions ih =>
      rcases Option.bind_eq_some_iff.mp hexec with ⟨mid, hmid, hrest⟩
      intro hthrough
      have hafter := hthrough.2 mid hmid
      rcases Reading.over_next hn hlt hmid with hnot | ⟨hsz, hn'⟩
      · exact hnot hafter.head
      · exact ih hn' (hsz ▸ hlt) hrest hafter

theorem Reading.Kept.settles_run (hk : k ≤ 31) (h : s.Kept k) (hfits : s.Fits)
    (hexec : exec Reading.next s actions = some t) (hidle : t.threads.cons = .idle)
    (hthrough : Throughout Reading.next Reading.Respects s actions) :
    Admits Reading.next Reading.Settles s actions := by
  induction actions generalizing s with
  | nil => trivial
  | cons a actions ih =>
      rcases Option.bind_eq_some_iff.mp hexec with ⟨mid, hmid, hrest⟩
      have hafter := hthrough.2 mid hmid
      have hfits' : mid.Fits := by
        refine ⟨?_, hafter.head.returns⟩
        intro n hn
        by_contra hlt
        exact Reading.over_run hn (UInt32.not_le.mp hlt) hrest hidle hafter
      refine ⟨(h.fits_iff hk hfits hmid).mp hfits', ?_⟩
      intro s' hs'
      rw [hmid] at hs'
      cases hs'
      exact ih (h.next hk hmid) hfits' hrest hafter

/-- If no call finds more stored than it was asked for when it loads `write_pos` for its value,
then every call copies and returns at most what it was asked for; in a run that leaves no call
unfinished, only then. -/
theorem rbRead_limit_iff (hk : k ≤ 31) (hstart : s.Start k)
    (hexec : exec Reading.next s actions = some t) :
    (Admits Reading.next Reading.Settles s actions →
      Throughout Reading.next Reading.Respects s actions) ∧
    (t.threads.cons = .idle → Throughout Reading.next Reading.Respects s actions →
      Admits Reading.next Reading.Settles s actions) :=
  ⟨hstart.kept.respects_run hk hstart.fits hexec,
    hstart.kept.settles_run hk hstart.fits hexec⟩

end Runs

/-- A ring of two bytes before the first call. -/
def emptyPair : Reading := ⟨⟨⟨[0, 0], 2, 0, 0⟩, .idle, .idle, [], []⟩, 0, 0, 0⟩

theorem emptyPair_start : emptyPair.Start 1 := ⟨⟨rfl, rfl, rfl, rfl, rfl, rfl, rfl⟩, rfl, rfl⟩

/-- One byte is stored when `rb_read` of one byte compares, two when it loads the value. -/
def overtaken : List Action :=
  .callWrite [5] 1 (by decide) :: List.replicate 9 .producer ++
    .callRead 1 :: List.replicate 4 .consumer ++
    .callWrite [6] 1 (by decide) :: List.replicate 10 .producer ++ List.replicate 11 .consumer

theorem rbRead_overtaken :
    ¬ ∀ (k : ℕ) (s t : Reading) (actions : List Action), k ≤ 31 → s.Start k →
      exec Reading.next s actions = some t → t.Respects := by
  intro h
  have hexec : exec Reading.next emptyPair overtaken =
      some ⟨⟨⟨[5, 6], 2, 2, 2⟩, .idle, .idle, [5, 6], [5, 6]⟩, 1, 0, 2⟩ := rfl
  have hrespects := h 1 _ _ _ (by decide) emptyPair_start hexec
  exact absurd hrespects.returns (by decide)

/-- A read of one byte of two. -/
theorem rbRead_limit_one :
    ∃ t, exec Reading.next emptyPair
        (.callWrite [5, 6] 2 (by decide) :: List.replicate 11 .producer ++
          .callRead 1 :: List.replicate 11 .consumer) = some t ∧
      t.threads.delivered = [5] ∧ t.Respects := by
  have hexec : exec Reading.next emptyPair
      (.callWrite [5, 6] 2 (by decide) :: List.replicate 11 .producer ++
        .callRead 1 :: List.replicate 11 .consumer) =
      some ⟨⟨⟨[5, 6], 2, 2, 1⟩, .idle, .idle, [5, 6], [5]⟩, 1, 0, 1⟩ := rfl
  have hlimit := rbRead_limit_iff (k := 1) (by decide) emptyPair_start hexec
  exact ⟨_, hexec, rfl, (hlimit.1 (by decide)).final hexec⟩

end ServerKit.Ringbuf
