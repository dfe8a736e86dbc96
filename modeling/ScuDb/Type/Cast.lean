import ScuDb.Foundations.DecimalText
import ScuDb.Type.ExactArithmetic
import ScuDb.Type.Value

/-!
Casts to integer types and to VARCHAR, `CastAs` of the types.

The integer types test the number against the range of a narrower type
before they convert it. A VARCHAR is read by `stoi`, or by `stoll` for a
BIGINT. For TINYINT and SMALLINT the number that `stoi` returns is
converted first and tested then, so that of the numbers outside the range
only those are rejected that are converted to the mark of NULL.
-/

namespace ScuDb

open Foundations

/-- How a cast or a comparison ends without a value: a failed assert, an
exception with a type or with a message only, a `std::invalid_argument`.
What is done with doubles is not modelled. -/
inductive TypeFault
  | assertFailed
  | thrown (e : Exception)
  | message (text : String)
  | invalidArgument
  | floatingPoint
  deriving DecidableEq, Repr

def TypeFault.outOfRange : TypeFault := .thrown ⟨.outOfRange, "Numeric value out of range."⟩

/-- The exceptions of `std::stoi` and `std::stoll`. -/
inductive NumberError
  | invalidArgument
  | outOfRange
  deriving DecidableEq, Repr

/-- `std::stoi` and `std::stoll`, for an `int` and a `long long` of `w`
bits. -/
def stringToInt (w : Nat) (text : List UInt8) : Except NumberError Int :=
  match leadingInt text with
  | none => .error .invalidArgument
  | some n => if Fits w n then .ok n else .error .outOfRange

def stoi (text : List UInt8) : Except NumberError Int := stringToInt 32 text

def stoll (text : List UInt8) : Except NumberError Int := stringToInt 64 text

/-- `Type::TypeIdToString` -/
def IntegerTypeId.toString : IntegerTypeId → String
  | .tinyint => "TINYINT"
  | .smallint => "SMALLINT"
  | .integer => "INTEGER"
  | .bigint => "BIGINT"

namespace IntegerValue

/-- `Value(type_id, i)`: the number as the type's C++ type has it. -/
def ofInt (t : IntegerTypeId) (i : Int) : IntegerValue := ⟨t, BitVec.ofInt _ i⟩

/-- The shape of `CastAs` of an integer type. The types in `tested` are
narrower. -/
def castTesting (tested : List IntegerTypeId) (val : IntegerValue) (t : IntegerTypeId) :
    Except TypeFault IntegerValue :=
  if val.isNull then .ok (ofInt t t.null)
  else if t ∈ tested ∧ (val.getAs > t.max ∨ val.getAs < t.min) then .error .outOfRange
  else .ok (ofInt t val.getAs)

end IntegerValue

/-- `TinyintType::CastAs` -/
def TinyintType.castAs : IntegerValue → IntegerTypeId → Except TypeFault IntegerValue :=
  IntegerValue.castTesting []

/-- `SmallintType::CastAs` -/
def SmallintType.castAs : IntegerValue → IntegerTypeId → Except TypeFault IntegerValue :=
  IntegerValue.castTesting [.tinyint]

/-- `IntegerType::CastAs` -/
def IntegerType.castAs : IntegerValue → IntegerTypeId → Except TypeFault IntegerValue :=
  IntegerValue.castTesting [.tinyint, .smallint]

/-- `BigintType::CastAs` -/
def BigintType.castAs : IntegerValue → IntegerTypeId → Except TypeFault IntegerValue :=
  IntegerValue.castTesting [.tinyint, .smallint, .integer]

def IntegerValue.castAs (val : IntegerValue) (t : IntegerTypeId) : Except TypeFault IntegerValue :=
  match val.typeId with
  | .tinyint => TinyintType.castAs val t
  | .smallint => SmallintType.castAs val t
  | .integer => IntegerType.castAs val t
  | .bigint => BigintType.castAs val t

namespace VarlenType

/-- `ToString` -/
def toString : Option Varlen → List UInt8
  | none => "varlen_null".toList.map fun c => c.toNat.toUInt8
  | some data => data.bytes.dropLast

/-- A number that has been read, or what `CastAs` throws in its place. -/
def caught : Except NumberError Int → Except TypeFault Int
  | .ok n => .ok n
  | .error .invalidArgument => .error .invalidArgument
  | .error .outOfRange => .error .outOfRange

/-- The cases TINYINT and SMALLINT of `CastAs`. -/
def castNarrow (str : List UInt8) (t : IntegerTypeId) : Except TypeFault IntegerValue := do
  let n ← caught (stoi str)
  let narrow := IntegerValue.ofInt t n
  if narrow.getAs < t.min then .error .outOfRange else .ok narrow

/-- The cases INTEGER and BIGINT of `CastAs`, with what they read by. -/
def castWide (read : List UInt8 → Except NumberError Int) (str : List UInt8) (t : IntegerTypeId) :
    Except TypeFault IntegerValue := do
  let n ← caught (read str)
  if n > t.max ∨ n < t.min then .error .outOfRange else .ok (IntegerValue.ofInt t n)

/-- `CastAs`, to an integer type. -/
def castAs (value : Option Varlen) (t : IntegerTypeId) : Except TypeFault IntegerValue :=
  match t with
  | .tinyint => castNarrow (toString value) .tinyint
  | .smallint => castNarrow (toString value) .smallint
  | .integer => castWide stoi (toString value) .integer
  | .bigint => castWide stoll (toString value) .bigint

end VarlenType

/-- `CastAs`, to an integer type. -/
def Value.castAs : Value → IntegerTypeId → Except TypeFault IntegerValue
  | .boolean _, t => .error (.message ("BOOLEAN is not coercable to " ++ t.toString))
  | .int v, t => v.castAs t
  | .decimal _, _ => .error .floatingPoint
  | .varchar data, t => VarlenType.castAs data t

/-! ### Exactness -/

/-- The number in a value: of an integer type and not NULL, or the text of
a number. -/
inductive Value.Holds : Value → Int → Prop
  | int (v : IntegerValue) (h : v.isNull = false) : Holds (.int v) v.getAs
  | varchar (data : Varlen) {n : Int} (h : IsDecimal (VarlenType.toString (some data)) n) :
      Holds (.varchar (some data)) n

/-- The number `n` is cast to a value that is not NULL and has this number,
or rejected if it is outside the range of the type. -/
structure CastExact (result : Except TypeFault IntegerValue) (n : Int) (t : IntegerTypeId) :
    Prop where
  inside : t.min ≤ n ∧ n ≤ t.max →
    ∃ r, result = .ok r ∧ r.typeId = t ∧ r.isNull = false ∧ r.getAs = n
  outside : ¬(t.min ≤ n ∧ n ≤ t.max) → result = .error .outOfRange

/-- The text of a number that `stoi` reads, but that is outside the range
of the narrow type it is cast to. The mark of NULL, `-2 ^ (bits - 1)`, is
what a number with these low bits becomes. -/
def ReadTooWide (v : Value) (n : Int) (t : IntegerTypeId) : Prop :=
  v.getTypeId = .varchar ∧ (t = .tinyint ∨ t = .smallint) ∧ Fits 32 n ∧
    ¬(t.min ≤ n ∧ n ≤ t.max) ∧ n % 2 ^ t.bits ≠ 2 ^ (t.bits - 1)

namespace IntegerValue

variable {t : IntegerTypeId} {n : Int}

theorem getAs_ofInt (h : Fits t.bits n) : (ofInt t n).getAs = n :=
  toInt_ofInt_of_fits h t.bits_pos

theorem ofInt_of_inRange (h : t.min ≤ n ∧ n ≤ t.max) :
    (ofInt t n).isNull = false ∧ (ofInt t n).getAs = n := by
  obtain ⟨hfits, hnull⟩ := (t.inRange_iff n).mp h
  have hget := getAs_ofInt hfits
  refine ⟨?_, hget⟩
  rw [isNull, hget]
  exact decide_eq_false hnull

/-- Of the values of a type, the mark of NULL is the one below its range. -/
theorem getAs_lt_min_iff (v : IntegerValue) : v.getAs < v.typeId.min ↔ v.getAs = v.typeId.null := by
  have hfits : -2 ^ (v.typeId.bits - 1) ≤ v.getAs := (fits_toInt v.value).1
  simp only [IntegerTypeId.min, IntegerTypeId.null]
  omega

/-- A cast that tests the range of every narrower type is exact. -/
theorem castTesting_exact {val : IntegerValue} (h : val.isNull = false)
    {tested : List IntegerTypeId} (hwide : t ∉ tested → val.typeId.bits ≤ t.bits) :
    CastExact (castTesting tested val t) val.getAs t := by
  have hnull : ¬val.isNull = true := by simp [h]
  by_cases hin : t.min ≤ val.getAs ∧ val.getAs ≤ t.max
  · have hpass : ¬(t ∈ tested ∧ (val.getAs > t.max ∨ val.getAs < t.min)) := by omega
    rw [castTesting, if_neg hnull, if_neg hpass]
    obtain ⟨hnonnull, hget⟩ := ofInt_of_inRange hin
    exact ⟨fun _ => ⟨_, rfl, rfl, hnonnull, hget⟩, fun hout => absurd hin hout⟩
  · have htested : t ∈ tested := by
      by_contra hnot
      obtain ⟨hlo, hhi⟩ := getAs_bounds h (hwide hnot)
      refine hin ?_
      simp only [IntegerTypeId.min, IntegerTypeId.max]
      omega
    have hfail : t ∈ tested ∧ (val.getAs > t.max ∨ val.getAs < t.min) := ⟨htested, by omega⟩
    rw [castTesting, if_neg hnull, if_pos hfail]
    exact ⟨fun h => absurd h hin, fun _ => rfl⟩

theorem castAs_exact {val : IntegerValue} (h : val.isNull = false) (t : IntegerTypeId) :
    CastExact (val.castAs t) val.getAs t := by
  rw [IntegerValue.castAs]
  split
  case h_1 htype =>
    exact castTesting_exact h fun _ => by rw [htype]; cases t <;> decide
  case h_2 htype | h_3 htype | h_4 htype =>
    -- a type whose limits are not tested is no narrower
    refine castTesting_exact h fun hnot => ?_
    rw [htype]
    cases t <;> first | decide | simp at hnot

end IntegerValue

namespace VarlenType

variable {str : List UInt8} {n : Int} {t : IntegerTypeId}

theorem caught_stringToInt (h : leadingInt str = some n) (w : Nat) :
    caught (stringToInt w str) = if Fits w n then .ok n else .error .outOfRange := by
  simp only [stringToInt, h]
  split <;> rfl

/-- A number that is tested as it was read is cast exactly. -/
theorem castWide_exact (h : leadingInt str = some n) {w : Nat} (hw : t.bits ≤ w) :
    CastExact (castWide (stringToInt w) str t) n t := by
  rw [castWide, caught_stringToInt h]
  by_cases hin : t.min ≤ n ∧ n ≤ t.max
  · have hfits := (((t.inRange_iff n).mp hin).1).mono hw
    have hpass : ¬(n > t.max ∨ n < t.min) := by omega
    obtain ⟨hnonnull, hget⟩ := IntegerValue.ofInt_of_inRange hin
    rw [if_pos hfits]
    exact ⟨fun _ => ⟨_, if_neg hpass, rfl, hnonnull, hget⟩, fun hout => absurd hin hout⟩
  · refine ⟨fun h => absurd h hin, fun _ => ?_⟩
    split
    · exact if_pos (by omega)
    · rfl

/-- What a number becomes that is converted before it is tested. -/
theorem castNarrow_eq (h : leadingInt str = some n) (t : IntegerTypeId) :
    castNarrow str t = if Fits 32 n ∧ n % 2 ^ t.bits ≠ 2 ^ (t.bits - 1) then
      .ok (IntegerValue.ofInt t n) else .error .outOfRange := by
  have hmark : (IntegerValue.ofInt t n).getAs < t.min ↔ n % 2 ^ t.bits = 2 ^ (t.bits - 1) := by
    rw [← bmod_eq_min_iff t.bits_pos, ← BitVec.toInt_ofInt]
    exact IntegerValue.getAs_lt_min_iff (IntegerValue.ofInt t n)
  rw [castNarrow, stoi, caught_stringToInt h]
  by_cases hfits : Fits 32 n
  · simp only [hfits, if_true, true_and, ne_eq, ← hmark, ite_not]
    rfl
  · simp only [hfits, if_false, false_and]
    rfl

/-- It is cast exactly unless it is read, outside the range, and not
converted to the mark of NULL. -/
theorem castNarrow_exact_iff (h : leadingInt str = some n) (ht : t.bits ≤ 32) :
    CastExact (castNarrow str t) n t ↔
      ¬(Fits 32 n ∧ ¬(t.min ≤ n ∧ n ≤ t.max) ∧ n % 2 ^ t.bits ≠ 2 ^ (t.bits - 1)) := by
  rw [castNarrow_eq h]
  by_cases hin : t.min ≤ n ∧ n ≤ t.max
  · obtain ⟨hfits, hnull⟩ := (t.inRange_iff n).mp hin
    obtain ⟨hnonnull, hget⟩ := IntegerValue.ofInt_of_inRange hin
    have hbits : n % 2 ^ t.bits ≠ 2 ^ (t.bits - 1) := by
      rw [ne_eq, ← bmod_eq_min_iff t.bits_pos, hfits.bmod t.bits_pos]
      exact hnull
    rw [if_pos ⟨hfits.mono ht, hbits⟩]
    exact ⟨fun _ hwide => hwide.2.1 hin, fun _ =>
      ⟨fun _ => ⟨_, rfl, rfl, hnonnull, hget⟩, fun hout => absurd hin hout⟩⟩
  · constructor
    · intro hexact hwide
      have hout := hexact.outside hin
      rw [if_pos ⟨hwide.1, hwide.2.2⟩] at hout
      cases hout
    · intro hnarrow
      have hfail : ¬(Fits 32 n ∧ n % 2 ^ t.bits ≠ 2 ^ (t.bits - 1)) :=
        fun h => hnarrow ⟨h.1, hin, h.2⟩
      rw [if_neg hfail]
      exact ⟨fun h => absurd h hin, fun _ => rfl⟩

end VarlenType

/-- The casts to integer types are exact but for the texts of numbers that
are too wide for a TINYINT or SMALLINT. -/
theorem cast_exact_iff {v : Value} {n : Int} (h : v.Holds n) (t : IntegerTypeId) :
    CastExact (v.castAs t) n t ↔ ¬ReadTooWide v n t := by
  cases h with
  | int v h =>
      have hint : ¬ReadTooWide (.int v) v.getAs t := fun hwide => by cases hwide.1
      exact ⟨fun _ => hint, fun _ => IntegerValue.castAs_exact h t⟩
  | varchar data h =>
      have hread := h.leadingInt_eq
      have hnarrow := fun ht : t.bits ≤ 32 => VarlenType.castNarrow_exact_iff hread ht
      simp only [ReadTooWide, Value.castAs, VarlenType.castAs, Value.getTypeId, true_and]
      cases t with
      | tinyint => simpa using hnarrow (by decide)
      | smallint => simpa using hnarrow (by decide)
      | integer =>
          have hexact : CastExact (VarlenType.castWide stoi _ .integer) n .integer :=
            VarlenType.castWide_exact hread (by decide)
          simpa using hexact
      | bigint =>
          have hexact : CastExact (VarlenType.castWide stoll _ .bigint) n .bigint :=
            VarlenType.castWide_exact hread (by decide)
          simpa using hexact

/-- The text `300`. -/
def threeHundred : Value := .varchar (some ⟨[51, 48, 48, 0], by decide⟩)

theorem holds_threeHundred : threeHundred.Holds 300 :=
  .varchar _ (.unsigned (List.cons_ne_nil _ _) (List.all_eq_true.mp (by decide)))

theorem cast_exact_iff_threeHundred :
    CastExact (threeHundred.castAs .tinyint) 300 .tinyint ↔
      ¬ReadTooWide threeHundred 300 .tinyint :=
  cast_exact_iff holds_threeHundred .tinyint

/-- It is cast to the TINYINT 44. -/
theorem exists_cast_not_exact : threeHundred.Holds 300 ∧
    threeHundred.castAs .tinyint = .ok (IntegerValue.ofInt .tinyint 44) ∧
    ¬CastExact (threeHundred.castAs .tinyint) 300 .tinyint := by
  have hcast : threeHundred.castAs .tinyint = .ok (IntegerValue.ofInt .tinyint 44) := by decide
  refine ⟨holds_threeHundred, hcast, fun hexact => ?_⟩
  have hout := hexact.outside (by decide)
  rw [hcast] at hout
  cases hout

end ScuDb
