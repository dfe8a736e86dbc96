import Mathlib.Tactic.Basic
import Mathlib.Tactic.Ring

/-!
Signed machine words: two's complement arithmetic in a wide type whose
results are cut back to a narrower one.

C and C++ compute with narrow integers in a wider type, so an operation
first wraps at the wide type and is then converted. `Fits` is the range
of a width. What an overflow test has to find out is whether the exact
result fits, and the lemmas say what the sign of a wrapped sum, and the
quotient of a wrapped product, tell about that.
-/

namespace ScuDb.Foundations

/-- The integers a signed word of `w` bits holds. -/
def Fits (w : Nat) (e : Int) : Prop := -2 ^ (w - 1) ≤ e ∧ e < 2 ^ (w - 1)

instance (w : Nat) (e : Int) : Decidable (Fits w e) :=
  inferInstanceAs (Decidable (_ ∧ _))

variable {w m n p : Nat} {e : Int}

theorem two_pow_pred (hw : 0 < w) : (2 : Int) ^ w = 2 * 2 ^ (w - 1) := by
  obtain ⟨k, rfl⟩ := Nat.exists_eq_add_one.mpr hw
  rw [Nat.add_sub_cancel, pow_succ, mul_comm]

theorem two_pow_pos' (w : Nat) : (0 : Int) < 2 ^ w :=
  Int.pow_pos (by decide)

theorem two_pow_le (h : m ≤ n) : (2 : Int) ^ m ≤ 2 ^ n := by
  have := Nat.pow_le_pow_right (show 0 < 2 by decide) h
  exact_mod_cast this

/-! ### The range of a width -/

theorem fits_toInt (x : BitVec w) : Fits w x.toInt :=
  ⟨x.le_toInt, BitVec.toInt_lt⟩

theorem Fits.mono (h : Fits m e) (hmn : m ≤ n) : Fits n e := by
  have := two_pow_le (Nat.sub_le_sub_right hmn 1)
  exact ⟨(Int.neg_le_neg this).trans h.1, h.2.trans_le this⟩

/-- What fits is left alone by wrapping. -/
theorem Fits.bmod (h : Fits w e) (hw : 0 < w) : e.bmod (2 ^ w) = e := by
  have hpow := two_pow_pred hw
  obtain ⟨hlo, hhi⟩ := h
  rw [Int.bmod_eq_iff (Nat.two_pow_pos w)]
  push_cast
  refine ⟨?_, ?_, by simp⟩ <;> omega

/-- What wrapping makes the least word of. -/
theorem bmod_eq_min_iff (hw : 0 < w) :
    e.bmod (2 ^ w) = -2 ^ (w - 1) ↔ e % 2 ^ w = 2 ^ (w - 1) := by
  have hpow := two_pow_pred hw
  have hpos := two_pow_pos' (w - 1)
  have hmod := Int.emod_nonneg e (two_pow_pos' w).ne'
  rw [Int.bmod_def]
  push_cast
  split <;> omega

theorem toInt_ofInt_of_fits (h : Fits w e) (hw : 0 < w) : (BitVec.ofInt w e).toInt = e := by
  rw [BitVec.toInt_ofInt, h.bmod hw]

theorem toInt_setWidth_of_le (s : BitVec p) (hm : m ≤ p) :
    (s.setWidth m).toInt = s.toInt.bmod (2 ^ m) := by
  rw [← BitVec.signExtend_eq_setWidth_of_le s hm, BitVec.toInt_signExtend_eq_toInt_bmod_of_le s hm]

/-- A conversion to a narrower type keeps what fits. -/
theorem toInt_setWidth_of_fits {s : BitVec p} (h : Fits m s.toInt) (hm : 0 < m) (hmp : m ≤ p) :
    (s.setWidth m).toInt = s.toInt := by
  rw [toInt_setWidth_of_le s hmp, h.bmod hm]

/-- The comparison of a value with its converted copy. -/
theorem signExtend_setWidth_eq_iff {s : BitVec p} (hm : 0 < m) (hmp : m ≤ p) :
    (s.setWidth m).signExtend p = s ↔ Fits m s.toInt := by
  rw [← BitVec.toInt_inj, BitVec.toInt_signExtend_of_le hmp]
  constructor
  · intro heq
    rw [← heq]
    exact fits_toInt _
  · exact fun h => toInt_setWidth_of_fits h hm hmp

/-! ### Wrapped sums -/

/-- An integer that leaves the range of a width by less than the range
comes back at the other end. -/
theorem bmod_of_not_fits (hw : 0 < w) (hlo : -(2 ^ w : Int) ≤ e) (hhi : e < 2 ^ w)
    (h : ¬Fits w e) : e.bmod (2 ^ w) = if 0 ≤ e then e - 2 ^ w else e + 2 ^ w := by
  have hpow := two_pow_pred hw
  have hfits : ¬(-2 ^ (w - 1) ≤ e ∧ e < 2 ^ (w - 1)) := h
  rw [Int.bmod_eq_iff (Nat.two_pow_pos w)]
  push_cast
  split
  · refine ⟨by omega, by omega, ⟨-1, by ring⟩⟩
  · refine ⟨by omega, by omega, ⟨1, by ring⟩⟩

/-- Adding two integers of `w` bits in `p` bits: the sum is the exact one,
or its sign gives the overflow away. -/
theorem bmod_sum {a b : Int} (hw : 0 < w) (hp : p = w ∨ w < p)
    (ha : -2 ^ (w - 1) < a ∧ a < 2 ^ (w - 1)) (hb : -2 ^ (w - 1) < b ∧ b < 2 ^ (w - 1))
    (hs : Fits w ((a + b).bmod (2 ^ p))) :
    (0 < a ∧ 0 < b ∧ (a + b).bmod (2 ^ p) < 0 ∨ a < 0 ∧ b < 0 ∧ 0 < (a + b).bmod (2 ^ p)) ↔
      ¬Fits w (a + b) := by
  have hpow := two_pow_pred hw
  by_cases hfits : Fits w (a + b)
  · have hexact : (a + b).bmod (2 ^ p) = a + b := by
      refine (hfits.mono ?_).bmod ?_ <;> omega
    rw [hexact]
    simp only [hfits, not_true, iff_false, not_or, not_and]
    omega
  · have hrange : ¬(-2 ^ (w - 1) ≤ a + b ∧ a + b < 2 ^ (w - 1)) := hfits
    rcases hp with rfl | hlt
    · have hwrap := bmod_of_not_fits hw (e := a + b) (by omega) (by omega) hfits
      simp only [hfits, not_false_iff, iff_true]
      rw [hwrap]
      split <;> omega
    · -- in a wider type nothing wraps, and the sum cannot fit
      exfalso
      have hwide := two_pow_le (Nat.le_sub_one_of_lt hlt)
      have hexact : (a + b).bmod (2 ^ p) = a + b := by
        refine Fits.bmod ⟨?_, ?_⟩ ?_ <;> omega
      rw [hexact] at hs
      exact hfits hs

/-! ### Wrapped products -/

/-- If a wrapped product divided by one factor gives the other, it is the
exact product. -/
theorem eq_mul_of_tdiv_eq {a b s : Int} {k : Nat} (hb : b ≠ 0) (hlt : b.natAbs < k)
    (hs : s = (a * b).bmod k) (hdiv : s.tdiv b = a) : s = a * b := by
  obtain ⟨c, hc⟩ : (k : Int) ∣ s - a * b := by
    rw [hs]
    exact Int.dvd_bmod_sub_self
  have hrem : s - a * b = s.tmod b := by
    have := Int.mul_tdiv_add_tmod s b
    rw [hdiv] at this
    rw [mul_comm a b]
    omega
  have hsmall : (s - a * b).natAbs < k := by
    rw [hrem, Int.natAbs_tmod]
    exact (Nat.mod_lt _ (Int.natAbs_pos.mpr hb)).trans hlt
  have hzero : s - a * b = 0 :=
    Int.eq_zero_of_dvd_of_natAbs_lt_natAbs ⟨c, hc⟩ (by simpa using hsmall)
  omega

/-- The only quotient that does not fit is that of the least value and -1,
and it wraps to the least value. -/
theorem sdiv_eq_iff {s y x : BitVec w} (hw : 0 < w) (hx : -2 ^ (w - 1) < x.toInt) :
    s.sdiv y = x ↔ s.toInt.tdiv y.toInt = x.toInt := by
  have hpow := two_pow_pred hw
  have hsmall : (s.toInt.tdiv y.toInt).natAbs ≤ s.toInt.natAbs :=
    Int.natAbs_tdiv_le_natAbs _ _
  obtain ⟨hlo, hhi⟩ := fits_toInt s
  rw [← BitVec.toInt_inj, BitVec.toInt_sdiv]
  by_cases hfits : Fits w (s.toInt.tdiv y.toInt)
  · rw [hfits.bmod hw]
  · have hnot : ¬(-2 ^ (w - 1) ≤ s.toInt.tdiv y.toInt ∧ s.toInt.tdiv y.toInt < 2 ^ (w - 1)) :=
      hfits
    have hxlt := (fits_toInt x).2
    rw [bmod_of_not_fits hw (by omega) (by omega) hfits]
    constructor
    · intro heq
      split at heq <;> omega
    · intro heq
      omega

end ScuDb.Foundations
