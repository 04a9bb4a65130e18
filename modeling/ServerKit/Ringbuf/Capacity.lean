import ServerKit.Ringbuf.Model
import Mathlib.Data.Nat.Size
import Mathlib.Order.Bounds.Basic

/-! # The capacity that `rb_init` chooses -/

namespace ServerKit.Ringbuf

/-- A power of two that holds what was asked for, and at least two bytes. -/
def Capacities (sz : UInt32) : Set ℕ := {m | m.isPowerOfTwo ∧ max sz.toNat 2 ≤ m}

/-! ## The bit tricks -/

/-- Half a number has one binary digit less. -/
theorem size_div_two {n : ℕ} (h : n ≠ 0) : n.size = (n / 2).size + 1 := by
  have hbit : Nat.bit n.bodd (n / 2) = n := by
    rw [← Nat.div2_val]
    exact Nat.bit_bodd_div2 n
  have hsize := Nat.size_bit (b := n.bodd) (n := n / 2) (hbit.symm ▸ h)
  rwa [hbit] at hsize

/-- The loop counts the binary digits. -/
theorem shifts_eq (num : UInt32) (i : ℕ) : shifts num i = i + num.toNat.size := by
  induction num, i using shifts.induct with
  | case1 i =>
      rw [shifts]
      simp
  | case2 num i hnum ih =>
      have hne : num.toNat ≠ 0 := fun h => hnum (UInt32.toNat_inj.mp h)
      have hhalf : (num >>> 1).toNat = num.toNat / 2 := by
        rw [UInt32.toNat_shiftRight]
        rfl
      rw [shifts, if_neg hnum, ih, hhalf, size_div_two hne]
      omega

theorem isPowerOfTwo_iff (num : UInt32) :
    isPowerOfTwo num ↔ 2 ≤ num.toNat ∧ num.toNat.isPowerOfTwo := by
  unfold isPowerOfTwo
  split
  · rename_i hlt
    rw [UInt32.lt_iff_toNat_lt] at hlt
    simp only [Bool.false_eq_true, false_iff, not_and]
    intro hle
    exact absurd hle (Nat.not_le.mpr hlt)
  · rename_i hge
    have hle : 2 ≤ num.toNat := by
      rw [UInt32.lt_iff_toNat_lt] at hge
      exact Nat.not_lt.mp hge
    have hpred : (num - 1).toNat = num.toNat - 1 := by
      apply UInt32.toNat_sub_of_le
      rw [UInt32.le_iff_toNat_le, UInt32.toNat_one]
      omega
    rw [and_iff_right hle, ← Nat.and_sub_one_eq_zero_iff_isPowerOfTwo (by omega), beq_iff_eq,
      ← UInt32.toNat_inj, UInt32.toNat_and, hpred, UInt32.toNat_zero]

/-- Rounding up goes to the next power of two, if the type has it. -/
theorem roundupPowerOfTwo_eq {num : UInt32} (hnum : num ≠ 0) (h : num.toNat < 2 ^ 31) :
    ∃ m, roundupPowerOfTwo num = some m ∧ m.toNat = 2 ^ num.toNat.size := by
  have hsize : num.toNat.size ≤ 31 := Nat.size_le.mpr h
  refine ⟨1 <<< UInt32.ofNat num.toNat.size, ?_, ?_⟩
  · unfold roundupPowerOfTwo
    dsimp only
    rw [if_neg hnum, shifts_eq, Nat.zero_add, if_pos (by omega)]
  · have hmod : num.toNat.size % 2 ^ 32 % 32 = num.toNat.size := by omega
    have hlt : 2 ^ num.toNat.size < 2 ^ 32 := Nat.pow_lt_pow_right (by decide) (by omega)
    rw [UInt32.toNat_shiftLeft, UInt32.toNat_ofNat', hmod, UInt32.toNat_one, Nat.one_shiftLeft,
      Nat.mod_eq_of_lt hlt]

theorem roundupPowerOfTwo_none {num : UInt32} (h : 2 ^ 31 ≤ num.toNat) :
    roundupPowerOfTwo num = none := by
  have hsize : 31 < num.toNat.size := Nat.lt_size.mpr h
  have hnum : num ≠ 0 := by
    rintro rfl
    exact absurd h (by decide)
  unfold roundupPowerOfTwo
  dsimp only
  rw [if_neg hnum, shifts_eq, Nat.zero_add, if_neg (by omega)]

/-! ## The least capacity -/

theorem isLeast_of_isPowerOfTwo {sz : UInt32} (hle : 2 ≤ sz.toNat) (h : sz.toNat.isPowerOfTwo) :
    IsLeast (Capacities sz) sz.toNat :=
  ⟨⟨h, max_le le_rfl hle⟩, fun _ hm => (le_max_left _ _).trans hm.2⟩

theorem isLeast_two {sz : UInt32} (hlt : sz.toNat < 2) : IsLeast (Capacities sz) 2 :=
  ⟨⟨⟨1, rfl⟩, max_le hlt.le le_rfl⟩, fun _ hm => (le_max_right _ _).trans hm.2⟩

/-- A number that is no power of two has as many digits as the next one has zeros. -/
theorem isLeast_two_pow_size {sz : UInt32} (hle : 2 ≤ sz.toNat) (h : ¬ sz.toNat.isPowerOfTwo) :
    IsLeast (Capacities sz) (2 ^ sz.toNat.size) := by
  have hlt : sz.toNat < 2 ^ sz.toNat.size := Nat.lt_size_self _
  refine ⟨⟨⟨_, rfl⟩, max_le hlt.le (hle.trans hlt.le)⟩, ?_⟩
  rintro _ ⟨⟨j, rfl⟩, hmax⟩
  have hsz : sz.toNat < 2 ^ j := by
    refine lt_of_le_of_ne ((le_max_left _ _).trans hmax) ?_
    intro heq
    exact h ⟨j, heq⟩
  exact Nat.pow_le_pow_right (by decide) (Nat.size_le.mpr hsz)

theorem roundupPowerOfTwo_least {sz : UInt32} (h : ¬ isPowerOfTwo sz) (hlt : sz.toNat < 2 ^ 31) :
    ∃ m, roundupPowerOfTwo sz = some m ∧ IsLeast (Capacities sz) m.toNat := by
  rw [isPowerOfTwo_iff, not_and] at h
  by_cases hzero : sz = 0
  · subst hzero
    exact ⟨2, rfl, isLeast_two (by decide)⟩
  rcases roundupPowerOfTwo_eq hzero hlt with ⟨m, hm, htoNat⟩
  refine ⟨m, hm, ?_⟩
  rw [htoNat]
  by_cases hle : 2 ≤ sz.toNat
  · exact isLeast_two_pow_size hle (h hle)
  · have hne : sz.toNat ≠ 0 := fun h => hzero (UInt32.toNat_inj.mp h)
    have hone : sz.toNat = 1 := by omega
    rw [hone]
    exact isLeast_two (by omega)

theorem rbInit_eq (malloc : UInt32 → List UInt8) (sz : UInt32) :
    rbInit malloc sz = (if isPowerOfTwo sz then some sz else roundupPowerOfTwo sz).map
      fun m => ⟨malloc m, m, 0, 0⟩ := by
  by_cases hpow : isPowerOfTwo sz <;> simp [rbInit, hpow, Option.map_eq_bind]

/-- The size of a new ring is the least capacity. -/
theorem rbInit_spec {malloc : UInt32 → List UInt8} {sz : UInt32} {r : Ringbuffer}
    (hinit : rbInit malloc sz = some r) :
    r.buf = malloc r.size ∧ IsLeast (Capacities sz) r.size.toNat := by
  rw [rbInit_eq] at hinit
  rcases Option.map_eq_some_iff.mp hinit with ⟨m, hm, rfl⟩
  refine ⟨rfl, ?_⟩
  by_cases hpow : isPowerOfTwo sz
  · rw [if_pos hpow] at hm
    cases hm
    rcases (isPowerOfTwo_iff sz).mp hpow with ⟨htwo, h⟩
    exact isLeast_of_isPowerOfTwo htwo h
  · rw [if_neg hpow] at hm
    by_cases hlt : sz.toNat < 2 ^ 31
    · rcases roundupPowerOfTwo_least hpow hlt with ⟨m', hm', hleast⟩
      rw [hm] at hm'
      cases hm'
      exact hleast
    · rw [roundupPowerOfTwo_none (Nat.not_lt.mp hlt)] at hm
      cases hm

/-- A capacity is a power of two up to half the range. -/
theorem rbInit_capacity {malloc : UInt32 → List UInt8} {sz : UInt32} {r : Ringbuffer}
    (hinit : rbInit malloc sz = some r) : ∃ k ≤ 31, r.size.toNat = 2 ^ k := by
  rcases (rbInit_spec hinit).2.1.1 with ⟨k, hk⟩
  have hbound := r.size.toNat_lt
  rw [hk] at hbound
  have hexp := (Nat.pow_lt_pow_iff_right (by decide)).mp hbound
  exact ⟨k, by omega, hk⟩

/-- `rb_init` chooses the least power of two that holds what was asked for, and at least two
bytes, as long as the type has that power. -/
theorem rbInit_least_iff (malloc : UInt32 → List UInt8) (sz : UInt32) :
    (∃ r, rbInit malloc sz = some r ∧ IsLeast (Capacities sz) r.size.toNat) ↔
      sz.toNat ≤ 2 ^ 31 := by
  constructor
  · rintro ⟨r, hinit, hleast⟩
    rcases rbInit_capacity hinit with ⟨k, hk, hsize⟩
    have hpow : 2 ^ k ≤ 2 ^ 31 := Nat.pow_le_pow_right (by decide) hk
    have hmax := hleast.1.2
    omega
  · intro hle
    suffices hsome : ∃ r, rbInit malloc sz = some r by
      rcases hsome with ⟨r, hinit⟩
      exact ⟨r, hinit, (rbInit_spec hinit).2⟩
    rw [rbInit_eq]
    by_cases hpow : isPowerOfTwo sz
    · exact ⟨_, by rw [if_pos hpow, Option.map_some]⟩
    · have hne : sz.toNat ≠ 2 ^ 31 := by
        intro heq
        apply hpow
        rw [isPowerOfTwo_iff, heq]
        exact ⟨by decide, 31, rfl⟩
      rcases roundupPowerOfTwo_least hpow (by omega) with ⟨m, hm, -⟩
      exact ⟨_, by rw [if_neg hpow, hm, Option.map_some]⟩

/-- One byte more than half the range has no capacity. -/
theorem rbInit_beyond :
    ¬ ∀ (malloc : UInt32 → List UInt8) (sz : UInt32),
      ∃ r, rbInit malloc sz = some r ∧ IsLeast (Capacities sz) r.size.toNat := by
  intro h
  rcases h (fun _ => []) 0x80000001 with ⟨r, hrun, -⟩
  rw [rbInit, if_neg (by decide), roundupPowerOfTwo_none (by decide)] at hrun
  cases hrun

end ServerKit.Ringbuf
