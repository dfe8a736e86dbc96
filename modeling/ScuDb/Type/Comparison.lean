import ScuDb.Type.Value
import Mathlib.Data.List.Lex

/-!
Comparing two values of one column.

The comparisons are those of SQL: with a NULL they are neither true nor
false. Strings are compared without their last byte, which is the NUL of
a `std::string`. `rank` puts the values of a type into one order, in
which a comparison is true if it is true of the ranks.
-/

namespace ScuDb

open Foundations

inductive CmpBool
  | cmpFalse
  | cmpTrue
  | cmpNull
  deriving DecidableEq, Repr

/-- `GetCmpBool` -/
def getCmpBool (b : Bool) : CmpBool := if b then .cmpTrue else .cmpFalse

namespace TypeUtil

/-- `memcmp` of two pieces of memory of the same length. -/
def memcmp : List UInt8 → List UInt8 → Int
  | a :: as, b :: bs => if a = b then memcmp as bs else (a.toNat : Int) - b.toNat
  | _, _ => 0

/-- `CompareStrings`, which asserts that the lengths are not negative. -/
def compareStrings (str1 : List UInt8) (len1 : Int) (str2 : List UInt8) (len2 : Int) :
    Option Int :=
  if 0 ≤ len1 ∧ 0 ≤ len2 then
    let ret := memcmp (str1.take (min len1 len2).toNat) (str2.take (min len1 len2).toNat)
    some (if ret = 0 ∧ len1 ≠ len2 then len1 - len2 else ret)
  else none

end TypeUtil

namespace Value

/-- The macros `BOOLEAN_COMPARE_FUNC`, `INT_COMPARE_FUNC` and so on and
`VARLEN_COMPARE_FUNC`, for two values of one type. A length is decreased
as a `uint32_t` and passed as an `int`. The comparison of two doubles is
not modelled. -/
def compareFunc (op : Int → Int → Bool) (left right : Value) : Option CmpBool :=
  if left.isNull ∨ right.isNull then some .cmpNull
  else
    match left, right with
    | boolean a, boolean b => some (getCmpBool (op a.toInt b.toInt))
    | int a, int b => some (getCmpBool (op a.getAs b.getAs))
    | varchar (some a), varchar (some b) =>
        (TypeUtil.compareStrings a.bytes (wrap32 (a.bytes.length - 1))
          b.bytes (wrap32 (b.bytes.length - 1))).map fun ret => getCmpBool (op ret 0)
    | _, _ => none

/-- `CompareLessThan` -/
def compareLessThan (left right : Value) : Option CmpBool :=
  compareFunc (fun a b => a < b) left right

/-- `CompareGreaterThan` -/
def compareGreaterThan (left right : Value) : Option CmpBool :=
  compareFunc (fun a b => a > b) left right

end Value

/-! ### Strings in lexicographic order -/

def byteRank (bytes : List UInt8) : List Int := bytes.map fun b => (b.toNat : Int)

theorem byteRank_inj {a b : List UInt8} (h : byteRank a = byteRank b) : a = b := by
  refine List.map_injective_iff.mpr ?_ h
  intro x y hxy
  exact UInt8.toNat_inj.mp (Int.ofNat.inj hxy)

namespace TypeUtil

theorem memcmp_take (a b : List UInt8) {n : Nat} (h : min a.length b.length ≤ n) :
    memcmp (a.take n) (b.take n) = memcmp a b := by
  induction a generalizing b n with
  | nil => simp [memcmp]
  | cons x a ih =>
      cases b with
      | nil => cases n <;> rfl
      | cons y b =>
          cases n with
          | zero => simp at h
          | succ n =>
              simp only [List.length_cons] at h
              simp only [List.take_succ_cons, memcmp, ih b (n := n) (by omega)]

/-- The first difference decides, and after it the lengths. -/
theorem memcmp_sign (a b : List UInt8) :
    ((if memcmp a b = 0 ∧ (a.length : Int) ≠ b.length then (a.length : Int) - b.length
      else memcmp a b) < 0 ↔ byteRank a < byteRank b) ∧
    (0 < (if memcmp a b = 0 ∧ (a.length : Int) ≠ b.length then (a.length : Int) - b.length
      else memcmp a b) ↔ byteRank b < byteRank a) := by
  induction a generalizing b with
  | nil =>
      cases b with
      | nil => simp [memcmp, byteRank]
      | cons y b =>
          simp [memcmp, byteRank]
          omega
  | cons x a ih =>
      cases b with
      | nil =>
          simp [memcmp, byteRank]
          omega
      | cons y b =>
          have hrest := ih b
          simp only [byteRank, List.map_cons, List.cons_lt_cons_iff] at hrest ⊢
          by_cases hxy : x = y
          · subst hxy
            simp only [memcmp, if_true, List.length_cons, lt_irrefl, false_or, true_and]
            have hlen : (((a.length + 1 : Nat) : Int) ≠ ((b.length + 1 : Nat) : Int) ↔
                (a.length : Int) ≠ b.length) := by omega
            have hsub : ((a.length + 1 : Nat) : Int) - ((b.length + 1 : Nat) : Int) =
                (a.length : Int) - b.length := by omega
            simp only [hlen, hsub]
            exact hrest
          · have hne : (x.toNat : Int) ≠ y.toNat := fun heq => hxy (UInt8.toNat_inj.mp (by omega))
            have hmem : memcmp (x :: a) (y :: b) = (x.toNat : Int) - y.toNat := by
              rw [memcmp, if_neg hxy]
            have hnz : ¬((x.toNat : Int) - y.toNat = 0 ∧
                ((x :: a).length : Int) ≠ (y :: b).length) := by omega
            rw [hmem, if_neg hnz]
            simp only [hne, hne.symm, false_and, or_false]
            omega

end TypeUtil

namespace Value

/-- What of a value the comparisons look at. -/
def rank : Value → List Int
  | boolean b => [b.toInt]
  | int v => [v.getAs]
  | varchar (some data) => byteRank data.bytes.dropLast
  | _ => []

/-- A VARCHAR the comparisons can be applied to: its length less one is an
`int`. -/
structure Comparable (data : Varlen) : Prop where
  nonempty : data.bytes ≠ []
  short : (data.bytes.length : Int) ≤ int32Max

/-- A VARCHAR with a last byte, whose length without it is an `int`. -/
structure Terminated (data : Varlen) : Prop where
  nonempty : data.bytes ≠ []
  short : (data.bytes.length : Int) - 1 ≤ int32Max

theorem Comparable.terminated {data : Varlen} (h : Comparable data) : Terminated data :=
  ⟨h.nonempty, by have := h.short; omega⟩

theorem compareStrings_eq {a b : Varlen} (ha : Terminated a) (hb : Terminated b) :
    ∃ ret, TypeUtil.compareStrings a.bytes (wrap32 (a.bytes.length - 1))
        b.bytes (wrap32 (b.bytes.length - 1)) = some ret ∧
      (ret < 0 ↔ rank (varchar (some a)) < rank (varchar (some b))) ∧
      (0 < ret ↔ rank (varchar (some b)) < rank (varchar (some a))) := by
  have hlen : ∀ {d : Varlen}, Terminated d →
      wrap32 (d.bytes.length - 1) = (d.bytes.dropLast.length : Int) := by
    intro d hd
    have hpos := List.length_pos_of_ne_nil hd.nonempty
    have hshort := hd.short
    rw [wrap32_of_le (by omega) (by omega), List.length_dropLast]
    omega
  have htake : ∀ (d : Varlen) (n : Nat), n ≤ d.bytes.dropLast.length →
      d.bytes.take n = d.bytes.dropLast.take n := by
    intro d n hn
    rw [List.length_dropLast] at hn
    rw [List.dropLast_eq_take, List.take_take, min_eq_left hn]
  have hmem : TypeUtil.memcmp
      (a.bytes.take (min a.bytes.dropLast.length b.bytes.dropLast.length))
      (b.bytes.take (min a.bytes.dropLast.length b.bytes.dropLast.length)) =
        TypeUtil.memcmp a.bytes.dropLast b.bytes.dropLast := by
    rw [htake a _ (min_le_left _ _), htake b _ (min_le_right _ _), TypeUtil.memcmp_take _ _ le_rfl]
  have hnat : (min (a.bytes.dropLast.length : Int) b.bytes.dropLast.length).toNat =
      min a.bytes.dropLast.length b.bytes.dropLast.length := by omega
  have hsign := TypeUtil.memcmp_sign a.bytes.dropLast b.bytes.dropLast
  refine ⟨_, ?_, hsign⟩
  rw [TypeUtil.compareStrings, hlen ha, hlen hb,
    if_pos ⟨Int.natCast_nonneg _, Int.natCast_nonneg _⟩]
  simp only [hnat, hmem]

theorem compareFunc_of_isNull {op : Int → Int → Bool} {left right : Value}
    (h : left.isNull = true ∨ right.isNull = true) :
    compareFunc op left right = some .cmpNull := by
  unfold compareFunc
  exact if_pos h

theorem getCmpBool_eq_true {b : Bool} : getCmpBool b = .cmpTrue ↔ b = true := by
  cases b <;> decide

/-- Two values of one type that are not NULL compare as their ranks. -/
theorem compare_rank {left right : Value} (htype : left.getTypeId = right.getTypeId)
    (hdecimal : left.getTypeId ≠ .decimal) (hl : left.isNull = false) (hr : right.isNull = false)
    (hleft : ∀ data, left = varchar (some data) → Comparable data)
    (hright : ∀ data, right = varchar (some data) → Comparable data) :
    (∃ c, left.compareLessThan right = some c ∧ (c = .cmpTrue ↔ rank left < rank right)) ∧
      ∃ c, left.compareGreaterThan right = some c ∧ (c = .cmpTrue ↔ rank right < rank left) := by
  have hnull : ¬(left.isNull = true ∨ right.isNull = true) := by simp [hl, hr]
  have hint : ∀ x y : Int, ([x] < [y] ↔ x < y) := by
    intro x y
    simp [List.cons_lt_cons_iff]
  simp only [compareLessThan, compareGreaterThan, compareFunc, if_neg hnull]
  cases left with
  | boolean a =>
      cases right with
      | boolean b =>
          simp only [Option.some.injEq, exists_eq_left', getCmpBool_eq_true, decide_eq_true_iff,
            rank, hint, gt_iff_lt, and_self]
      | int b => cases htype
      | decimal b => cases htype
      | varchar b => cases htype
  | int a =>
      cases right with
      | int b =>
          simp only [Option.some.injEq, exists_eq_left', getCmpBool_eq_true, decide_eq_true_iff,
            rank, hint, gt_iff_lt, and_self]
      | boolean b => cases htype
      | decimal b => cases htype
      | varchar b => cases htype
  | decimal a => exact absurd rfl hdecimal
  | varchar a =>
      cases right with
      | boolean b => cases htype
      | int b => cases htype
      | decimal b => cases htype
      | varchar b =>
          cases a with
          | none => cases hl
          | some a =>
              cases b with
              | none => cases hr
              | some b =>
                  obtain ⟨ret, hret, hneg, hpos⟩ := compareStrings_eq (hleft a rfl).terminated
                      (hright b rfl).terminated
                  simp only [hret, Option.map_some, Option.some.injEq, exists_eq_left',
                    getCmpBool_eq_true, decide_eq_true_iff, gt_iff_lt, hneg, hpos, and_self]

end Value

end ScuDb
