import ScuDb.Type.Cast
import ScuDb.Type.Comparison

/-!
Comparing two values of any types.

The left operand's type decides how. An integer is compared with the
number that a VARCHAR on its right is cast to, a VARCHAR with the text
that an integer on its right is cast to. Either way one integer is found
whose sign all six comparisons look at; the two integers need not agree.
-/

namespace ScuDb

open Foundations

/-- The operator that the macros are given. -/
inductive RelOp
  | eq
  | ne
  | lt
  | le
  | gt
  | ge
  deriving DecidableEq, Repr

def RelOp.holds : RelOp → Int → Int → Bool
  | .eq, a, b => a = b
  | .ne, a, b => a ≠ b
  | .lt, a, b => a < b
  | .le, a, b => a ≤ b
  | .gt, a, b => a > b
  | .ge, a, b => a ≥ b

/-- `Value(TypeId::VARCHAR, data)`, of a `std::string`. The length, with
the NUL, is a `uint32_t`. -/
def Varlen.ofString (data : List UInt8) : Option Varlen :=
  let len := (data.length + 1) % 4294967296
  if short : ((data ++ [0]).take len).length < valueNull then some ⟨(data ++ [0]).take len, short⟩
  else none

/-- `ToString` of the integer types, for a value that is not NULL. -/
def IntegerValue.toString (v : IntegerValue) : List UInt8 := intText v.getAs

/-- `BooleanType::ToString` -/
def BooleanType.toString (b : BitVec 8) : List UInt8 :=
  let text := if b.toInt = 1 then "true" else if b.toInt = 0 then "false" else "boolean_null"
  text.toList.map fun c => c.toNat.toUInt8

/-- `CastAs`, to VARCHAR. -/
def Value.castAsVarchar : Value → Except TypeFault (Option Varlen)
  | .boolean b =>
      .ok (if (Value.boolean b).isNull then none else Varlen.ofString (BooleanType.toString b))
  | .int v => .ok (if v.isNull then none else Varlen.ofString v.toString)
  | .decimal _ => .error .floatingPoint
  | .varchar data => .ok data

/-- `VarlenType::CastAs`, to BOOLEAN. -/
def VarlenType.castAsBoolean (value : Option Varlen) : Except TypeFault (BitVec 8) :=
  let str := (VarlenType.toString value).map fun b => if 65 ≤ b ∧ b ≤ 90 then b + 32 else b
  let ascii (s : String) := s.toList.map fun c => c.toNat.toUInt8
  if str = ascii "true" ∨ str = ascii "1" ∨ str = ascii "t" then .ok 1
  else if str = ascii "false" ∨ str = ascii "0" ∨ str = ascii "f" then .ok 0
  else .error (.message "Boolean value format error.")

/-- `CheckComparable` -/
def Value.checkComparable : Value → Value → Bool
  | .boolean _, .boolean _ => true
  | .boolean _, .varchar _ => true
  | .boolean _, _ => false
  | .int _, .boolean _ => false
  | .int _, _ => true
  | .decimal _, .boolean _ => false
  | .decimal _, _ => true
  | .varchar _, _ => true

/-- `BOOLEAN_COMPARE_FUNC` -/
def BooleanType.compareFunc (op : RelOp) (left : BitVec 8) : Value → Except TypeFault CmpBool
  | .boolean right => .ok (getCmpBool (op.holds left.toInt right.toInt))
  | .varchar right => do
      let right ← VarlenType.castAsBoolean right
      .ok (getCmpBool (op.holds left.toInt right.toInt))
  | _ => .error .assertFailed

/-- `TINYINT_COMPARE_FUNC`, `SMALLINT_COMPARE_FUNC`, `INT_COMPARE_FUNC` and
`BIGINT_COMPARE_FUNC`: the type of the left value is that of the cast. -/
def IntegerParentType.compareFunc (op : RelOp) (left : IntegerValue) :
    Value → Except TypeFault CmpBool
  | .int right => .ok (getCmpBool (op.holds left.getAs right.getAs))
  | .decimal _ => .error .floatingPoint
  | .varchar right => do
      let right ← VarlenType.castAs right left.typeId
      .ok (getCmpBool (op.holds left.getAs right.getAs))
  | .boolean _ => .error (.message "type error")

namespace VarlenType

/-- `CompareStrings`, which asserts that there are strings. -/
def compareText (op : RelOp) : Option Varlen → Option Varlen → Except TypeFault CmpBool
  | some a, some b =>
      match TypeUtil.compareStrings a.bytes (wrap32 (a.bytes.length - 1))
          b.bytes (wrap32 (b.bytes.length - 1)) with
      | some ret => .ok (getCmpBool (op.holds ret 0))
      | none => .error .assertFailed
  | _, _ => .error .assertFailed

/-- `VARLEN_COMPARE_FUNC` -/
def compareFunc (op : RelOp) (left : Option Varlen) : Value → Except TypeFault CmpBool
  | .varchar right => compareText op left right
  | right => do
      let right ← right.castAsVarchar
      compareText op left right

end VarlenType

namespace Value

/-- The comparisons, which differ in their operator. The length that marks
the longest VARCHAR marks a NULL as well, so their test for it comes too
late. -/
def compareBy (op : RelOp) (left right : Value) : Except TypeFault CmpBool :=
  if ¬left.checkComparable right then .error .assertFailed
  else if left.isNull ∨ right.isNull then .ok .cmpNull
  else
    match left with
    | boolean a => BooleanType.compareFunc op a right
    | int a => IntegerParentType.compareFunc op a right
    | decimal _ => .error .floatingPoint
    | varchar a => VarlenType.compareFunc op a right

end Value

namespace TypeInstance

/-- `CompareEquals` -/
def compareEquals : Value → Value → Except TypeFault CmpBool := Value.compareBy .eq

/-- `CompareNotEquals` -/
def compareNotEquals : Value → Value → Except TypeFault CmpBool := Value.compareBy .ne

/-- `CompareLessThan` -/
def compareLessThan : Value → Value → Except TypeFault CmpBool := Value.compareBy .lt

/-- `CompareLessThanEquals` -/
def compareLessThanEquals : Value → Value → Except TypeFault CmpBool := Value.compareBy .le

/-- `CompareGreaterThan` -/
def compareGreaterThan : Value → Value → Except TypeFault CmpBool := Value.compareBy .gt

/-- `CompareGreaterThanEquals` -/
def compareGreaterThanEquals : Value → Value → Except TypeFault CmpBool := Value.compareBy .ge

end TypeInstance

open TypeInstance

/-- Exactly one of the three comparisons is true. -/
def ExactlyOneTrue (a b : Value) : Prop :=
  ∃ o : Ordering, (compareLessThan a b = .ok .cmpTrue ↔ o = .lt) ∧
    (compareEquals a b = .ok .cmpTrue ↔ o = .eq) ∧
    (compareGreaterThan a b = .ok .cmpTrue ↔ o = .gt)

/-- It does not matter which operand is on the left. -/
structure Symmetric (a b : Value) : Prop where
  equals : compareEquals a b = compareEquals b a
  lessThan : compareLessThan a b = compareGreaterThan b a
  lessThanEquals : compareLessThanEquals a b = compareGreaterThanEquals b a

/-- The six comparisons look at the sign of `s`. -/
def Decided (a b : Value) (s : Int) : Prop :=
  ∀ op, Value.compareBy op a b = .ok (getCmpBool (op.holds s 0))

/-- The values compared: integers and VARCHARs that are not NULL. -/
inductive Operand : Value → Prop
  | int (v : IntegerValue) (h : v.isNull = false) : Operand (.int v)
  | varchar (data : Varlen) (h : Value.Terminated data) : Operand (.varchar (some data))

/-- A VARCHAR on the right of an integer has the text of a number in the
range of the integer's type. -/
def Readable (a b : Value) : Prop :=
  ∀ v data, a = .int v → b = .varchar (some data) → ∃ n,
    IsDecimal (VarlenType.toString (some data)) n ∧ v.typeId.min ≤ n ∧ n ≤ v.typeId.max

/-- The first string is before the second, in the order of their bytes. -/
def TextBefore (a b : List UInt8) : Prop := byteRank a < byteRank b

variable {a b : Value} {s r : Int}

theorem RelOp.holds_sub (op : RelOp) (x y : Int) : op.holds (x - y) 0 = op.holds x y := by
  cases op <;> simp only [RelOp.holds, decide_eq_decide] <;> omega

theorem getCmpBool_inj {p q : Bool} : getCmpBool p = getCmpBool q ↔ p = q := by
  cases p <;> cases q <;> decide

theorem Decided.exactlyOneTrue (h : Decided a b s) : ExactlyOneTrue a b := by
  simp only [ExactlyOneTrue, compareLessThan, compareEquals, compareGreaterThan, h _,
    Except.ok.injEq, Value.getCmpBool_eq_true, RelOp.holds, decide_eq_true_eq]
  rcases lt_trichotomy s 0 with hlt | heq | hgt
  · exact ⟨.lt, by simp [hlt], by simp [hlt.ne], by simp [hlt.not_gt]⟩
  · exact ⟨.eq, by simp [heq], by simp [heq], by simp [heq]⟩
  · exact ⟨.gt, by simp [hgt.not_gt], by simp [hgt.ne'], by simp [hgt]⟩

theorem Decided.equals_iff (h : Decided a b s) (h' : Decided b a r) :
    compareEquals a b = compareEquals b a ↔ (s = 0 ↔ r = 0) := by
  simp only [compareEquals, h _, h' _, Except.ok.injEq, getCmpBool_inj, RelOp.holds,
    decide_eq_decide]

theorem Decided.symmetric_iff (h : Decided a b s) (h' : Decided b a r) :
    Symmetric a b ↔ (s < 0 ↔ 0 < r) ∧ (0 < s ↔ r < 0) := by
  have hlt : compareLessThan a b = compareGreaterThan b a ↔ (s < 0 ↔ 0 < r) := by
    simp only [compareLessThan, compareGreaterThan, h _, h' _, Except.ok.injEq, getCmpBool_inj,
      RelOp.holds, decide_eq_decide, gt_iff_lt]
  have hle : compareLessThanEquals a b = compareGreaterThanEquals b a ↔ (s ≤ 0 ↔ 0 ≤ r) := by
    simp only [compareLessThanEquals, compareGreaterThanEquals, h _, h' _, Except.ok.injEq,
      getCmpBool_inj, RelOp.holds, decide_eq_decide, ge_iff_le]
  have heq := h.equals_iff h'
  constructor
  · intro hsym
    have h₁ := hlt.mp hsym.lessThan
    have h₂ := hle.mp hsym.lessThanEquals
    omega
  · intro hsign
    exact ⟨heq.mpr (by omega), hlt.mpr (by omega), hle.mpr (by omega)⟩

/-- Two values of one type are compared as the values of a column are. -/
theorem compareBy_eq_compareFunc (op : RelOp) (htype : a.getTypeId = b.getTypeId)
    (hdecimal : a.getTypeId ≠ .decimal) :
    Value.compareBy op a b =
      (Value.compareFunc op.holds a b).elim (.error .assertFailed) .ok := by
  have hcomparable : a.checkComparable b = true := by
    cases a <;> cases b <;> first | rfl | cases htype
  by_cases hnull : a.isNull = true ∨ b.isNull = true
  · rw [Value.compareFunc_of_isNull hnull]
    simp [Value.compareBy, hcomparable, hnull]
  · simp only [Value.compareBy, Value.compareFunc, hcomparable, not_true, if_false, if_neg hnull]
    cases a with
    | boolean x =>
        cases b with
        | boolean y => rfl
        | int y => cases htype
        | decimal y => cases htype
        | varchar y => cases htype
    | int x =>
        cases b with
        | int y => rfl
        | boolean y => cases htype
        | decimal y => cases htype
        | varchar y => cases htype
    | decimal x => exact absurd rfl hdecimal
    | varchar x =>
        cases b with
        | boolean y => cases htype
        | int y => cases htype
        | decimal y => cases htype
        | varchar y =>
            cases x with
            | none => exact absurd (Or.inl rfl) hnull
            | some x =>
                cases y with
                | none => exact absurd (Or.inr rfl) hnull
                | some y =>
                    simp only [VarlenType.compareFunc, VarlenType.compareText]
                    cases TypeUtil.compareStrings x.bytes _ y.bytes _ <;> rfl

/-! ### What the comparisons look at -/

theorem decided_int_int {v w : IntegerValue} (hv : v.isNull = false) (hw : w.isNull = false) :
    Decided (.int v) (.int w) (v.getAs - w.getAs) := by
  intro op
  simp [Value.compareBy, Value.checkComparable, Value.isNull, hv, hw,
    IntegerParentType.compareFunc, op.holds_sub]

/-- An integer on the left of a VARCHAR: the numbers are compared. -/
theorem decided_int_varchar {v : IntegerValue} {data : Varlen} {n : Int} (hv : v.isNull = false)
    (hdata : IsDecimal (VarlenType.toString (some data)) n)
    (hrange : v.typeId.min ≤ n ∧ n ≤ v.typeId.max) :
    Decided (.int v) (.varchar (some data)) (v.getAs - n) := by
  intro op
  have hcast : CastExact (VarlenType.castAs (some data) v.typeId) n v.typeId :=
    (cast_exact_iff (.varchar data hdata) v.typeId).mpr fun hwide => hwide.2.2.2.1 hrange
  obtain ⟨r, hr, -, -, hget⟩ := hcast.inside hrange
  have hcompare : IntegerParentType.compareFunc op v (.varchar (some data)) =
      .ok (getCmpBool (op.holds v.getAs n)) := by
    rw [IntegerParentType.compareFunc, hr, ← hget]
    rfl
  simp [Value.compareBy, Value.checkComparable, Value.isNull, hv, hcompare, op.holds_sub]

theorem compareText_eq {x y : Varlen} (hx : Value.Terminated x) (hy : Value.Terminated y) :
    ∃ s, (∀ op, VarlenType.compareText op (some x) (some y) = .ok (getCmpBool (op.holds s 0))) ∧
      (s < 0 ↔ TextBefore (VarlenType.toString (some x)) (VarlenType.toString (some y))) ∧
      (0 < s ↔ TextBefore (VarlenType.toString (some y)) (VarlenType.toString (some x))) := by
  obtain ⟨ret, hret, hneg, hpos⟩ := Value.compareStrings_eq hx hy
  refine ⟨ret, fun op => ?_, hneg, hpos⟩
  simp only [VarlenType.compareText, hret]

theorem ofString_eq {text : List UInt8} (h : text.length + 1 < valueNull) :
    ∃ data, Varlen.ofString text = some data ∧ data.bytes = text ++ [0] := by
  have hmod : (text.length + 1) % 4294967296 = text.length + 1 :=
    Nat.mod_eq_of_lt (h.trans (by decide))
  have htake : (text ++ [0]).take (text.length + 1) = text ++ [0] :=
    List.take_of_length_le (by simp)
  have hshort : (text ++ [0]).length < valueNull := by
    rw [List.length_append, List.length_singleton]
    exact h
  refine ⟨⟨text ++ [0], hshort⟩, ?_, rfl⟩
  simp only [Varlen.ofString, hmod, htake, hshort, dif_pos]

theorem length_toString_le (v : IntegerValue) : v.toString.length ≤ 20 := by
  have hfits : Fits 64 v.getAs := (fits_toInt v.value).mono (by cases v.typeId <;> decide)
  have hbounds : -2 ^ 63 ≤ v.getAs ∧ v.getAs < 2 ^ 63 := hfits
  have habs : v.getAs.natAbs < 10 ^ 19 := by omega
  exact length_intText_le (by decide) habs

theorem ofString_toString (v : IntegerValue) : ∃ data, Varlen.ofString v.toString = some data ∧
    Value.Terminated data ∧ VarlenType.toString (some data) = intText v.getAs := by
  have hlength := length_toString_le v
  obtain ⟨data, hdata, hbytes⟩ := @ofString_eq v.toString (by rw [valueNull]; omega)
  refine ⟨data, hdata, ⟨?_, ?_⟩, ?_⟩
  · simp [hbytes]
  · rw [hbytes, List.length_append, List.length_singleton, int32Max]
    omega
  · have htext : VarlenType.toString (some data) = data.bytes.dropLast := rfl
    rw [htext, hbytes, List.dropLast_concat, IntegerValue.toString]

/-- A VARCHAR on the left: the texts are compared. -/
theorem decided_varchar {x : Varlen} (hx : Value.Terminated x) (hb : Operand b) :
    ∃ s text, Decided (.varchar (some x)) b s ∧
      (∀ v, b = .int v → text = intText v.getAs) ∧
      (∀ y, b = .varchar (some y) → text = VarlenType.toString (some y)) ∧
      (s < 0 ↔ TextBefore (VarlenType.toString (some x)) text) ∧
      (0 < s ↔ TextBefore text (VarlenType.toString (some x))) := by
  cases hb with
  | int v hv =>
      obtain ⟨y, hy, hyterm, hytext⟩ := ofString_toString v
      obtain ⟨s, hs, hneg, hpos⟩ := compareText_eq hx hyterm
      rw [hytext] at hneg hpos
      refine ⟨s, intText v.getAs, fun op => ?_, fun w hw => ?_, fun y hy => ?_, hneg, hpos⟩
      · have hcompare : VarlenType.compareFunc op (some x) (.int v) =
            .ok (getCmpBool (op.holds s 0)) := by
          rw [← hs op, VarlenType.compareFunc, Value.castAsVarchar, hv, hy]
          · rfl
          · intro data hdata
            cases hdata
        simp [Value.compareBy, Value.checkComparable, Value.isNull, hv, hcompare]
      · cases hw
        rfl
      · cases hy
  | varchar y hy =>
      obtain ⟨s, hs, hneg, hpos⟩ := compareText_eq hx hy
      refine ⟨s, _, fun op => ?_, fun v hv => ?_, fun z hz => ?_, hneg, hpos⟩
      · simp [Value.compareBy, Value.checkComparable, Value.isNull, VarlenType.compareFunc, hs]
      · cases hv
      · cases hz
        rfl

theorem Operand.decided (ha : Operand a) (hb : Operand b) (hab : Readable a b) :
    ∃ s, Decided a b s := by
  cases ha with
  | int v hv =>
      cases hb with
      | int w hw => exact ⟨_, decided_int_int hv hw⟩
      | varchar data hdata =>
          obtain ⟨n, hn, hrange⟩ := hab v data rfl rfl
          exact ⟨_, decided_int_varchar hv hn hrange⟩
  | varchar x hx =>
      obtain ⟨s, -, hs, -⟩ := decided_varchar hx hb
      exact ⟨s, hs⟩

/-! ### Which pairs are symmetric -/

theorem symmetric_int_int {v w : IntegerValue} (hv : v.isNull = false) (hw : w.isNull = false) :
    Symmetric (.int v) (.int w) := by
  rw [(decided_int_int hv hw).symmetric_iff (decided_int_int hw hv)]
  omega

theorem symmetric_varchar_varchar {x y : Varlen} (hx : Value.Terminated x)
    (hy : Value.Terminated y) : Symmetric (.varchar (some x)) (.varchar (some y)) := by
  obtain ⟨s, text, hs, -, htext, hneg, hpos⟩ := decided_varchar hx (.varchar y hy)
  obtain ⟨r, text', hr, -, htext', hneg', hpos'⟩ := decided_varchar hy (.varchar x hx)
  rw [htext y rfl] at hneg hpos
  rw [htext' x rfl] at hneg' hpos'
  rw [hs.symmetric_iff hr, hneg, hpos, hneg', hpos']
  exact ⟨Iff.rfl, Iff.rfl⟩

/-- An integer and the text of a number: the order of the texts has to be
the one of the numbers. -/
theorem symmetric_int_varchar_iff {v : IntegerValue} {data : Varlen} {n : Int}
    (hv : v.isNull = false) (hterm : Value.Terminated data)
    (hdata : IsDecimal (VarlenType.toString (some data)) n)
    (hrange : v.typeId.min ≤ n ∧ n ≤ v.typeId.max) :
    (Symmetric (.int v) (.varchar (some data)) ↔
      (v.getAs < n ↔ TextBefore (intText v.getAs) (VarlenType.toString (some data))) ∧
      (n < v.getAs ↔ TextBefore (VarlenType.toString (some data)) (intText v.getAs))) ∧
    (VarlenType.toString (some data) = intText n →
      compareEquals (.int v) (.varchar (some data)) =
        compareEquals (.varchar (some data)) (.int v)) := by
  have hs := decided_int_varchar hv hdata hrange
  obtain ⟨r, text, hr, htext, -, hneg, hpos⟩ := decided_varchar hterm (.int v hv)
  rw [htext v rfl] at hneg hpos
  refine ⟨?_, fun hcanonical => ?_⟩
  · rw [hs.symmetric_iff hr, hneg, hpos]
    have hlt : v.getAs - n < 0 ↔ v.getAs < n := by omega
    have hgt : 0 < v.getAs - n ↔ n < v.getAs := by omega
    rw [hlt, hgt]
  · rw [hs.equals_iff hr]
    rw [hcanonical] at hneg hpos
    constructor
    · intro heq
      have hvn : v.getAs = n := by omega
      rw [hvn] at hneg hpos
      have hirrefl : ¬TextBefore (intText n) (intText n) := lt_irrefl _
      have hge := mt hneg.mp hirrefl
      have hle := mt hpos.mp hirrefl
      omega
    · intro heq
      have hge : ¬TextBefore (intText n) (intText v.getAs) := mt hneg.mpr (by omega)
      have hle : ¬TextBefore (intText v.getAs) (intText n) := mt hpos.mpr (by omega)
      have htexts : intText n = intText v.getAs :=
        byteRank_inj (le_antisymm (not_lt.mp hle) (not_lt.mp hge))
      have hnumbers := (isDecimal_intText n).leadingInt_eq
      rw [htexts, (isDecimal_intText v.getAs).leadingInt_eq, Option.some_inj] at hnumbers
      omega

/-- Exactly one of the three comparisons is true. Two integers can be
exchanged, and so can two VARCHARs. An integer and a VARCHAR can be if
their texts are in the order of their numbers, and for equality if the
VARCHAR has the text that its number is printed as. -/
structure ByLeftOperand (a b : Value) : Prop where
  one : ExactlyOneTrue a b
  integers : ∀ v w, a = .int v → b = .int w → Symmetric a b
  varchars : ∀ x y, a = .varchar x → b = .varchar y → Symmetric a b
  mixed : ∀ v data n, a = .int v → b = .varchar (some data) →
    IsDecimal (VarlenType.toString (some data)) n →
    (Symmetric a b ↔
      (v.getAs < n ↔ TextBefore (intText v.getAs) (VarlenType.toString (some data))) ∧
      (n < v.getAs ↔ TextBefore (VarlenType.toString (some data)) (intText v.getAs))) ∧
    (VarlenType.toString (some data) = intText n → compareEquals a b = compareEquals b a)

theorem comparison_by_left_operand {a b : Value} (ha : Operand a) (hb : Operand b)
    (hab : Readable a b) : ByLeftOperand a b := by
  obtain ⟨s, hs⟩ := ha.decided hb hab
  refine ⟨hs.exactlyOneTrue, fun v w hv hw => ?_, fun x y hx hy => ?_, fun v data n hv hd hn => ?_⟩
  · subst hv hw
    cases ha with
    | int v hv =>
        cases hb with
        | int w hw => exact symmetric_int_int hv hw
  · subst hx hy
    cases ha with
    | varchar x hx =>
        cases hb with
        | varchar y hy => exact symmetric_varchar_varchar hx hy
  · obtain ⟨m, hm, hrange⟩ := hab v data hv hd
    have hmn : m = n := Option.some_inj.mp (hm.leadingInt_eq.symm.trans hn.leadingInt_eq)
    rw [hmn] at hrange
    subst hv hd
    cases ha with
    | int v hv =>
        cases hb with
        | varchar data hterm => exact symmetric_int_varchar_iff hv hterm hn hrange

/-- The text `9`. -/
def nine : Varlen := ⟨[57, 0], by decide⟩

theorem operand_nine : Operand (.varchar (some nine)) := .varchar nine ⟨by decide, by decide⟩

theorem operand_ten : Operand (.int (IntegerValue.ofInt .integer 10)) := .int _ (by decide)

theorem readable_ten_nine :
    Readable (.int (IntegerValue.ofInt .integer 10)) (.varchar (some nine)) := by
  intro v data hv hdata
  cases hv
  cases hdata
  have hdigits : ∀ b ∈ ([57] : List UInt8), isDigit b = true := List.all_eq_true.mp (by decide)
  exact ⟨9, .unsigned (List.cons_ne_nil _ _) hdigits, by decide, by decide⟩

theorem comparison_by_left_operand_ten_nine :
    ByLeftOperand (.int (IntegerValue.ofInt .integer 10)) (.varchar (some nine)) :=
  comparison_by_left_operand operand_ten operand_nine readable_ten_nine

/-- As numbers, 10 is above 9; as texts, it is below. And an empty VARCHAR
without a terminator is not compared at all. -/
theorem exists_comparison_not_symmetric :
    Operand (.int (IntegerValue.ofInt .integer 10)) ∧ Operand (.varchar (some nine)) ∧
      Readable (.int (IntegerValue.ofInt .integer 10)) (.varchar (some nine)) ∧
      compareLessThan (.int (IntegerValue.ofInt .integer 10)) (.varchar (some nine)) =
        .ok .cmpFalse ∧
      compareGreaterThan (.varchar (some nine)) (.int (IntegerValue.ofInt .integer 10)) =
        .ok .cmpTrue ∧
      compareEquals (.varchar (some ⟨[], by decide⟩)) (.varchar (some nine)) =
        .error .assertFailed := by
  refine ⟨operand_ten, operand_nine, readable_ten_nine, by decide, ?_, by decide⟩
  decide +kernel

end ScuDb
