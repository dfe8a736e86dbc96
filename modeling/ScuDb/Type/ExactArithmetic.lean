import ScuDb.Type.IntegerParentType

/-!
Integer arithmetic is exact where its result fits.

Each of the five operations returns the exact result in the wider of the
two types if it fits that type's C++ range, and throws otherwise. That
range has one value more than the SQL type: the mark of NULL.
-/

namespace ScuDb

open Foundations

namespace IntegerTypeId

theorem bits_pos (t : IntegerTypeId) : 0 < t.bits := by
  cases t <;> decide

/-- The wider of two types, the left one if they are equally wide. -/
def wider (l r : IntegerTypeId) : IntegerTypeId :=
  if l.getTypeSize ≥ r.getTypeSize then l else r

theorem bits_le_wider (l r : IntegerTypeId) :
    l.bits ≤ (wider l r).bits ∧ r.bits ≤ (wider l r).bits := by
  cases l <;> cases r <;> decide

/-- C++ computes in the wider type, or in one that is wider still. -/
theorem promoted_cases (l r : IntegerTypeId) :
    IntegerParentType.promoted l.bits r.bits = (wider l r).bits ∨
      2 * (wider l r).bits ≤ IntegerParentType.promoted l.bits r.bits := by
  cases l <;> cases r <;> decide

/-- The SQL range of a type is its C++ range without the mark of NULL. -/
theorem inRange_iff (t : IntegerTypeId) (e : Int) :
    t.min ≤ e ∧ e ≤ t.max ↔ Fits t.bits e ∧ e ≠ t.null := by
  simp only [IntegerTypeId.min, IntegerTypeId.max, null, Fits]
  omega

theorem fits_null (t : IntegerTypeId) : Fits t.bits t.null := by
  have := two_pow_pos' (t.bits - 1)
  exact ⟨le_rfl, by rw [null]; omega⟩

theorem bits_le_promoted (l r : IntegerTypeId) :
    (wider l r).bits ≤ IntegerParentType.promoted l.bits r.bits := by
  have := promoted_cases l r
  omega

end IntegerTypeId

open IntegerTypeId

/-- The exact result as a value of type `t`, if it is one of the C++ type. -/
def fitted (t : IntegerTypeId) (e : Int) : Except Exception IntegerValue :=
  if Fits t.bits e then .ok ⟨t, BitVec.ofInt _ e⟩ else IntegerParentType.outOfRange

namespace IntegerValue

theorem isNull_iff (v : IntegerValue) : v.isNull = true ↔ v.getAs = v.typeId.null :=
  decide_eq_true_iff

theorem getAs_bounds {v : IntegerValue} (h : v.isNull = false) {t : IntegerTypeId}
    (ht : v.typeId.bits ≤ t.bits) : -2 ^ (t.bits - 1) < v.getAs ∧ v.getAs < 2 ^ (t.bits - 1) := by
  have hne : v.getAs ≠ -2 ^ (v.typeId.bits - 1) := by
    intro heq
    rw [(isNull_iff v).mpr heq] at h
    cases h
  have hfits : Fits v.typeId.bits v.getAs := fits_toInt v.value
  have hpow := two_pow_le (Nat.sub_le_sub_right ht 1)
  obtain ⟨hlo, hhi⟩ := hfits
  omega

end IntegerValue

namespace IntegerParentType

variable {left right : IntegerValue}

theorem toInt_promotedLeft : (promotedLeft left right).toInt = left.getAs :=
  BitVec.toInt_signExtend_of_le (by simp only [promoted]; omega)

theorem toInt_promotedRight : (promotedRight left right).toInt = right.getAs :=
  BitVec.toInt_signExtend_of_le (by simp only [promoted]; omega)

/-- The first test of the templates finds out whether the promoted result
fits the wider type. -/
theorem ne_copies_iff (r : BitVec (promoted left.typeId.bits right.typeId.bits)) :
    (r ≠ (r.setWidth left.typeId.bits).signExtend _ ∧
      r ≠ (r.setWidth right.typeId.bits).signExtend _) ↔
      ¬Fits (wider left.typeId right.typeId).bits r.toInt := by
  obtain ⟨hl, hr⟩ := bits_le_wider left.typeId right.typeId
  have hle := bits_le_promoted left.typeId right.typeId
  rw [ne_comm, Ne, signExtend_setWidth_eq_iff (bits_pos _) (hl.trans hle), ne_comm, Ne,
    signExtend_setWidth_eq_iff (bits_pos _) (hr.trans hle)]
  constructor
  · rintro ⟨hnl, hnr⟩ hfits
    by_cases hsize : left.typeId.getTypeSize ≥ right.typeId.getTypeSize
    · rw [wider, if_pos hsize] at hfits
      exact hnl hfits
    · rw [wider, if_neg hsize] at hfits
      exact hnr hfits
  · exact fun hnot => ⟨fun h => hnot (h.mono hl), fun h => hnot (h.mono hr)⟩

/-- The templates return the exact result `e` if their second test finds
out whether it fits. -/
theorem checked_eq {r : BitVec (promoted left.typeId.bits right.typeId.bits)} {e : Int}
    {overflow : {k : Nat} → BitVec k → Bool}
    (hr : r.toInt = e.bmod (2 ^ promoted left.typeId.bits right.typeId.bits))
    (hover : Fits (wider left.typeId right.typeId).bits r.toInt → ∀ {k} (s : BitVec k),
      k ≤ promoted left.typeId.bits right.typeId.bits → s.toInt = r.toInt →
      (overflow s = true ↔ ¬Fits (wider left.typeId right.typeId).bits e)) :
    checked left right r overflow = fitted (wider left.typeId right.typeId) e := by
  have hle := bits_le_promoted left.typeId right.typeId
  have hexact : Fits (wider left.typeId right.typeId).bits e → r.toInt = e := fun h => by
    rw [hr, (h.mono hle).bmod]
    exact (bits_pos _).trans_le hle
  simp only [checked, ne_copies_iff, fitted]
  by_cases hfits : Fits (wider left.typeId right.typeId).bits r.toInt
  · rw [if_neg (not_not_intro hfits)]
    have hcopy : ∀ t, t = wider left.typeId right.typeId →
        (if overflow (r.setWidth t.bits) = true then outOfRange
          else .ok ⟨t, r.setWidth t.bits⟩) =
        if Fits (wider left.typeId right.typeId).bits e then
          Except.ok (⟨wider left.typeId right.typeId, BitVec.ofInt _ e⟩ : IntegerValue)
        else outOfRange := by
      rintro _ rfl
      have hcut := toInt_setWidth_of_fits hfits (bits_pos _) hle
      have hiff := hover hfits _ hle hcut
      by_cases he : Fits (wider left.typeId right.typeId).bits e
      · rw [if_neg (fun h => hiff.mp h he), if_pos he]
        have heq : r.setWidth (wider left.typeId right.typeId).bits = BitVec.ofInt _ e := by
          rw [← BitVec.toInt_inj, hcut, hexact he, toInt_ofInt_of_fits he (bits_pos _)]
        rw [heq]
      · rw [if_pos (hiff.mpr he), if_neg he]
    by_cases hsize : left.typeId.getTypeSize ≥ right.typeId.getTypeSize
    · rw [if_pos hsize]
      exact hcopy _ (if_pos hsize).symm
    · rw [if_neg hsize]
      exact hcopy _ (if_neg hsize).symm
  · rw [if_pos hfits, if_neg]
    intro he
    rw [hexact he] at hfits
    exact hfits he

theorem addValue_eq (hl : left.isNull = false) (hr : right.isNull = false) :
    addValue left right = fitted (wider left.typeId right.typeId) (left.getAs + right.getAs) := by
  obtain ⟨hlw, hrw⟩ := bits_le_wider left.typeId right.typeId
  have hcases := promoted_cases left.typeId right.typeId
  have hpos := bits_pos (wider left.typeId right.typeId)
  rw [addValue]
  refine checked_eq ?_ fun hfits k s _ hs => ?_
  · rw [BitVec.toInt_add, toInt_promotedLeft, toInt_promotedRight]
  · rw [BitVec.toInt_add, toInt_promotedLeft, toInt_promotedRight] at hfits hs
    rw [decide_eq_true_iff, hs]
    refine bmod_sum hpos ?_ (left.getAs_bounds hl hlw) (right.getAs_bounds hr hrw) hfits
    omega

/-- A difference is a sum with the negated operand. -/
theorem subtractValue_eq (hl : left.isNull = false) (hr : right.isNull = false) :
    subtractValue left right =
      fitted (wider left.typeId right.typeId) (left.getAs - right.getAs) := by
  obtain ⟨hlw, hrw⟩ := bits_le_wider left.typeId right.typeId
  have hcases := promoted_cases left.typeId right.typeId
  have hpos := bits_pos (wider left.typeId right.typeId)
  have hright := right.getAs_bounds hr hrw
  rw [subtractValue]
  refine checked_eq ?_ fun hfits k s _ hs => ?_
  · rw [BitVec.toInt_sub, toInt_promotedLeft, toInt_promotedRight]
  · rw [BitVec.toInt_sub, toInt_promotedLeft, toInt_promotedRight] at hfits hs
    rw [decide_eq_true_iff, hs]
    rw [Int.sub_eq_add_neg] at hfits ⊢
    have hsum := bmod_sum (b := -right.getAs) hpos (by omega) (left.getAs_bounds hl hlw)
      (by omega) hfits
    rw [← hsum]
    simp only [gt_iff_lt, Left.neg_pos_iff, Left.neg_neg_iff]

theorem multiplyValue_eq (hl : left.isNull = false) (hr : right.isNull = false) :
    multiplyValue left right =
      fitted (wider left.typeId right.typeId) (left.getAs * right.getAs) := by
  obtain ⟨hlw, hrw⟩ := bits_le_wider left.typeId right.typeId
  have hle := bits_le_promoted left.typeId right.typeId
  have hpos := bits_pos (wider left.typeId right.typeId)
  rw [multiplyValue]
  refine checked_eq ?_ fun hfits k s hk hs => ?_
  · rw [BitVec.toInt_mul, toInt_promotedLeft, toInt_promotedRight]
  · have hle := bits_le_promoted left.typeId right.typeId
    have hleft := left.getAs_bounds hl hlw
    have hright := right.getAs_bounds hr hrw
    have hpow := two_pow_le (Nat.sub_le_sub_right hle 1)
    have hwide := two_pow_pred (hpos.trans_le hle)
    have hprod : (s.signExtend (promoted left.typeId.bits right.typeId.bits)).toInt =
        (left.getAs * right.getAs).bmod (2 ^ promoted left.typeId.bits right.typeId.bits) := by
      rw [BitVec.toInt_signExtend_of_le hk, hs, BitVec.toInt_mul, toInt_promotedLeft,
        toInt_promotedRight]
    have hquot : (s.signExtend _).sdiv (promotedRight left right) = promotedLeft left right ↔
        (s.signExtend (promoted left.typeId.bits right.typeId.bits)).toInt.tdiv right.getAs =
          left.getAs := by
      rw [sdiv_eq_iff (hpos.trans_le hle), toInt_promotedLeft, toInt_promotedRight]
      rw [toInt_promotedLeft]
      omega
    have hzero : promotedRight left right = 0 ↔ right.getAs = 0 := by
      rw [← BitVec.toInt_inj, toInt_promotedRight, BitVec.ofNat_eq_ofNat, BitVec.toInt_zero]
    rw [decide_eq_true_iff, Ne, Ne, hzero, hquot, hprod]
    rw [BitVec.toInt_mul, toInt_promotedLeft, toInt_promotedRight] at hfits
    constructor
    · rintro ⟨hne, hdiv⟩ he
      rw [(he.mono hle).bmod (hpos.trans_le hle)] at hdiv
      exact hdiv (Int.mul_tdiv_cancel _ hne)
    · intro he
      refine ⟨fun hy => he ?_, fun hdiv => he ?_⟩
      · rw [hy, mul_zero]
        exact ⟨by omega, by omega⟩
      · by_cases hy : right.getAs = 0
        · rw [hy, mul_zero]
          exact ⟨by omega, by omega⟩
        · rw [← eq_mul_of_tdiv_eq (k := 2 ^ promoted left.typeId.bits right.typeId.bits) hy ?_ rfl
            hdiv]
          · exact hfits
          · have : (right.getAs.natAbs : Int) <
                2 ^ promoted left.typeId.bits right.typeId.bits := by omega
            exact_mod_cast this

/-- What division and remainder return needs no test. -/
theorem returned_eq {r : BitVec (promoted left.typeId.bits right.typeId.bits)}
    (h : Fits (wider left.typeId right.typeId).bits r.toInt) :
    (.ok (returned left right r) : Except Exception IntegerValue) =
      fitted (wider left.typeId right.typeId) r.toInt := by
  have hle := bits_le_promoted left.typeId right.typeId
  have hcopy : ∀ t, t = wider left.typeId right.typeId →
      (.ok ⟨t, r.setWidth t.bits⟩ : Except Exception IntegerValue) =
        fitted (wider left.typeId right.typeId) r.toInt := by
    rintro _ rfl
    have heq : r.setWidth (wider left.typeId right.typeId).bits = BitVec.ofInt _ r.toInt := by
      rw [← BitVec.toInt_inj, toInt_setWidth_of_fits h (bits_pos _) hle,
        toInt_ofInt_of_fits h (bits_pos _)]
    rw [fitted, if_pos h, heq]
  rw [returned]
  by_cases hsize : left.typeId.getTypeSize ≥ right.typeId.getTypeSize
  · rw [if_pos hsize]
    exact hcopy _ (if_pos hsize).symm
  · rw [if_neg hsize]
    exact hcopy _ (if_neg hsize).symm

/-- A result no greater in size than the left operand fits. -/
theorem fits_of_natAbs_le (right : IntegerValue) {e : Int} (hl : left.isNull = false)
    (he : e.natAbs ≤ left.getAs.natAbs) : Fits (wider left.typeId right.typeId).bits e := by
  have hleft := left.getAs_bounds hl (bits_le_wider left.typeId right.typeId).1
  exact ⟨by omega, by omega⟩

theorem divideValue_eq (hl : left.isNull = false) (hzero : right.getAs ≠ 0) :
    divideValue left right =
      fitted (wider left.typeId right.typeId) (left.getAs.tdiv right.getAs) := by
  have hle := bits_le_promoted left.typeId right.typeId
  have hfits := fits_of_natAbs_le right hl
    (Int.natAbs_tdiv_le_natAbs left.getAs right.getAs)
  have hquot : ((promotedLeft left right).sdiv (promotedRight left right)).toInt =
      left.getAs.tdiv right.getAs := by
    rw [BitVec.toInt_sdiv, toInt_promotedLeft, toInt_promotedRight]
    exact (hfits.mono hle).bmod ((bits_pos _).trans_le hle)
  rw [divideValue, if_neg hzero, returned_eq, hquot]
  rw [hquot]
  exact hfits

theorem moduloValue_eq (hl : left.isNull = false) (hzero : right.getAs ≠ 0) :
    moduloValue left right =
      fitted (wider left.typeId right.typeId) (left.getAs.tmod right.getAs) := by
  have hfits : Fits (wider left.typeId right.typeId).bits (left.getAs.tmod right.getAs) := by
    refine fits_of_natAbs_le _ hl ?_
    rw [Int.natAbs_tmod]
    exact Nat.mod_le _ _
  have hrem : ((promotedLeft left right).srem (promotedRight left right)).toInt =
      left.getAs.tmod right.getAs := by
    rw [BitVec.toInt_srem, toInt_promotedLeft, toInt_promotedRight]
  rw [moduloValue, if_neg hzero, returned_eq, hrem]
  rw [hrem]
  exact hfits

end IntegerParentType

/-! ### The five operations -/

/-- The arithmetic operations of a `Value`. -/
inductive Arithmetic
  | add
  | subtract
  | multiply
  | divide
  | modulo
  deriving DecidableEq, Repr

namespace Arithmetic

variable {op : Arithmetic} {left right : IntegerValue}

def run : Arithmetic → IntegerValue → IntegerValue → Except Exception IntegerValue
  | add => IntegerValue.add
  | subtract => IntegerValue.subtract
  | multiply => IntegerValue.multiply
  | divide => IntegerValue.divide
  | modulo => IntegerValue.modulo

/-- The mathematical result: division truncates, and the remainder has
the sign of the left operand. -/
def exact : Arithmetic → Int → Int → Int
  | add, x, y => x + y
  | subtract, x, y => x - y
  | multiply, x, y => x * y
  | divide, x, y => x.tdiv y
  | modulo, x, y => x.tmod y

/-- The operations a zero on the right is no operand of. -/
def divides : Arithmetic → Bool
  | divide => true
  | modulo => true
  | _ => false

/-- Every operation returns its exact result in the wider type, or throws
where that type of C++ cannot hold it. -/
theorem run_eq (op : Arithmetic) (hl : left.isNull = false) (hr : right.isNull = false)
    (hzero : op.divides = true → right.getAs ≠ 0) :
    op.run left right =
      fitted (wider left.typeId right.typeId) (op.exact left.getAs right.getAs) := by
  have hoperate : ∀ method, IntegerValue.operate method left right = method left right :=
    fun method => if_neg (by rw [hl, hr]; decide)
  have hnonzero : op.divides = true →
      ∀ method, IntegerValue.operateNonzero method left right = method left right := by
    intro hop method
    rw [IntegerValue.operateNonzero, hoperate, if_neg]
    simpa [IntegerValue.isZero] using hzero hop
  cases op with
  | add => exact (hoperate _).trans (IntegerParentType.addValue_eq hl hr)
  | subtract => exact (hoperate _).trans (IntegerParentType.subtractValue_eq hl hr)
  | multiply => exact (hoperate _).trans (IntegerParentType.multiplyValue_eq hl hr)
  | divide => exact (hnonzero rfl _).trans (IntegerParentType.divideValue_eq hl (hzero rfl))
  | modulo => exact (hnonzero rfl _).trans (IntegerParentType.moduloValue_eq hl (hzero rfl))

/-- The operation returns the exact result as a value of the wider type
that is not NULL, if the type has it, and throws that it is out of range
if not. -/
structure ExactOrOutOfRange (op : Arithmetic) (left right : IntegerValue) : Prop where
  returns : (wider left.typeId right.typeId).min ≤ op.exact left.getAs right.getAs →
    op.exact left.getAs right.getAs ≤ (wider left.typeId right.typeId).max →
    ∃ v, op.run left right = .ok v ∧ v.typeId = wider left.typeId right.typeId ∧
      v.isNull = false ∧ v.getAs = op.exact left.getAs right.getAs
  throws : ¬((wider left.typeId right.typeId).min ≤ op.exact left.getAs right.getAs ∧
      op.exact left.getAs right.getAs ≤ (wider left.typeId right.typeId).max) →
    ∃ message, op.run left right = .error ⟨.outOfRange, message⟩

/-- The operations are right but where the exact result is the mark of
NULL of the wider type: that is out of range, and is returned as a NULL. -/
theorem exactOrOutOfRange_iff (op : Arithmetic) (left right : IntegerValue)
    (hl : left.isNull = false) (hr : right.isNull = false)
    (hzero : op.divides = true → right.getAs ≠ 0) :
    ExactOrOutOfRange op left right ↔
      op.exact left.getAs right.getAs ≠ (wider left.typeId right.typeId).null := by
  have hrun := run_eq op hl hr hzero
  have hrange := (wider left.typeId right.typeId).inRange_iff (op.exact left.getAs right.getAs)
  constructor
  · rintro ⟨-, hthrows⟩ hnull
    obtain ⟨message, herror⟩ := hthrows fun h => (hrange.mp h).2 hnull
    rw [hrun, fitted, hnull, if_pos (wider _ _).fits_null] at herror
    cases herror
  · intro hne
    refine ⟨fun hmin hmax => ?_, fun hout => ?_⟩
    · obtain ⟨hfits, -⟩ := hrange.mp ⟨hmin, hmax⟩
      have hvalue := toInt_ofInt_of_fits hfits (bits_pos _)
      rw [hrun, fitted, if_pos hfits]
      refine ⟨_, rfl, rfl, ?_, hvalue⟩
      rw [Bool.eq_false_iff, Ne, IntegerValue.isNull_iff]
      exact fun hnull => hne (hvalue.symm.trans hnull)
    · have hnot : ¬Fits (wider left.typeId right.typeId).bits (op.exact left.getAs right.getAs) :=
        fun hfits => hout (hrange.mpr ⟨hfits, hne⟩)
      rw [hrun, fitted, if_neg hnot]
      exact ⟨_, rfl⟩

/-- A product of two widths. -/
theorem exactOrOutOfRange_smallint_integer :
    ExactOrOutOfRange .multiply ⟨.smallint, -300⟩ ⟨.integer, 7⟩ ↔
      Arithmetic.multiply.exact (-300) 7 ≠ IntegerTypeId.integer.null :=
  exactOrOutOfRange_iff .multiply ⟨.smallint, -300⟩ ⟨.integer, 7⟩ (by decide) (by decide)
    (by decide)

/-- The sum of -127 and -1 is no TINYINT, and is returned as a NULL. -/
theorem tinyint_sum_null : ¬∀ (op : Arithmetic) (left right : IntegerValue),
    left.isNull = false → right.isNull = false → (op.divides = true → right.getAs ≠ 0) →
    ExactOrOutOfRange op left right := by
  intro h
  obtain ⟨message, herror⟩ :=
    (h .add ⟨.tinyint, -127⟩ ⟨.tinyint, -1⟩ (by decide) (by decide) (by decide)).throws (by decide)
  have hnull : Arithmetic.add.run ⟨.tinyint, -127⟩ ⟨.tinyint, -1⟩ = .ok ⟨.tinyint, -128⟩ := by
    decide
  rw [hnull] at herror
  cases herror

end Arithmetic

end ScuDb
