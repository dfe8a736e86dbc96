import ScuDb.Foundations.SignedWord

/-!
Arithmetic on SQL integers: `integer_parent_type.h` and the four types
that derive from it.

The templates `AddValue<T1, T2>` and so on are instantiated with the C++
types of the two operands, whatever they are, so each is one definition
over the two widths. C++ computes in `int`, or in the wider of the two
types where that is wider than `int`. The least value of each width is
the mark of NULL: a `Value` constructed from it is a NULL.
-/

namespace ScuDb

open Foundations

/-- The integer members of `TypeId`, in its order. -/
inductive IntegerTypeId
  | tinyint
  | smallint
  | integer
  | bigint
  deriving DecidableEq, Repr

namespace IntegerTypeId

/-- `Type::GetTypeSize`, in bytes -/
def getTypeSize : IntegerTypeId → Nat
  | tinyint => 1
  | smallint => 2
  | integer => 4
  | bigint => 8

/-- The bits of the C++ type. -/
abbrev bits (t : IntegerTypeId) : Nat := 8 * t.getTypeSize

/-- `PELOTON_INT8_NULL` and so on -/
def null (t : IntegerTypeId) : Int := -2 ^ (t.bits - 1)

/-- `PELOTON_INT8_MIN` and so on -/
def min (t : IntegerTypeId) : Int := -2 ^ (t.bits - 1) + 1

/-- `PELOTON_INT8_MAX` and so on -/
def max (t : IntegerTypeId) : Int := 2 ^ (t.bits - 1) - 1

end IntegerTypeId

/-- The exceptions the arithmetic throws. -/
inductive ExceptionType
  | outOfRange
  | divideByZero
  deriving DecidableEq, Repr

structure Exception where
  type : ExceptionType
  message : String
  deriving DecidableEq, Repr

/-- A `Value` of an integer type: the member of the union that the type
says, and no length but the one that marks a NULL. -/
structure IntegerValue where
  typeId : IntegerTypeId
  value : BitVec typeId.bits
  deriving DecidableEq

namespace IntegerValue

/-- `GetAs<T>`, `T` being the C++ type of the value. -/
def getAs (v : IntegerValue) : Int := v.value.toInt

/-- `IsNull`: the constructors set the length that marks a NULL when they
are given the least value. -/
def isNull (v : IntegerValue) : Bool := v.getAs = v.typeId.null

/-- `IsZero` -/
def isZero (v : IntegerValue) : Bool := v.getAs = 0

end IntegerValue

namespace IntegerParentType

/-- The bits of the type C++ computes with for operands of `m` and `n`
bits. -/
def promoted (m n : Nat) : Nat := Max.max 32 (Max.max m n)

section Templates

variable (left right : IntegerValue)

/-- The operand `x` as C++ promotes it. -/
def promotedLeft : BitVec (promoted left.typeId.bits right.typeId.bits) :=
  left.value.signExtend _

/-- The operand `y` as C++ promotes it. -/
def promotedRight : BitVec (promoted left.typeId.bits right.typeId.bits) :=
  right.value.signExtend _

def outOfRange : Except Exception IntegerValue :=
  .error ⟨.outOfRange, "Numeric value out of range."⟩

/-- The template's shape: the result `r` in the promoted type is cut to
`T1` and to `T2`; where neither copy is equal to `r` it is out of range.
The copy of the wider type is tested again and returned. -/
def checked (r : BitVec (promoted left.typeId.bits right.typeId.bits))
    (overflow : {k : Nat} → BitVec k → Bool) : Except Exception IntegerValue :=
  let r1 := r.setWidth left.typeId.bits
  let r2 := r.setWidth right.typeId.bits
  if r ≠ r1.signExtend _ ∧ r ≠ r2.signExtend _ then outOfRange
  else if left.typeId.getTypeSize ≥ right.typeId.getTypeSize then
    if overflow r1 then outOfRange else .ok ⟨left.typeId, r1⟩
  else if overflow r2 then outOfRange
  else .ok ⟨right.typeId, r2⟩

/-- `AddValue<T1, T2>` -/
def addValue : Except Exception IntegerValue :=
  let x := left.getAs
  let y := right.getAs
  checked left right (promotedLeft left right + promotedRight left right) fun sum =>
    x > 0 ∧ y > 0 ∧ sum.toInt < 0 ∨ x < 0 ∧ y < 0 ∧ sum.toInt > 0

/-- `SubtractValue<T1, T2>` -/
def subtractValue : Except Exception IntegerValue :=
  let x := left.getAs
  let y := right.getAs
  checked left right (promotedLeft left right - promotedRight left right) fun diff =>
    x > 0 ∧ y < 0 ∧ diff.toInt < 0 ∨ x < 0 ∧ y > 0 ∧ diff.toInt > 0

/-- `MultiplyValue<T1, T2>`. The product is divided by `y` in the
promoted type. -/
def multiplyValue : Except Exception IntegerValue :=
  let y := promotedRight left right
  checked left right (promotedLeft left right * y) fun prod =>
    y ≠ 0 ∧ (prod.signExtend _).sdiv y ≠ promotedLeft left right

/-- What `DivideValue` and `ModuloValue` return: the copy of the result of
the wider type. -/
def returned (r : BitVec (promoted left.typeId.bits right.typeId.bits)) : IntegerValue :=
  if left.typeId.getTypeSize ≥ right.typeId.getTypeSize then
    ⟨left.typeId, r.setWidth left.typeId.bits⟩
  else ⟨right.typeId, r.setWidth right.typeId.bits⟩

/-- `DivideValue<T1, T2>` -/
def divideValue : Except Exception IntegerValue :=
  if right.getAs = 0 then .error ⟨.divideByZero, "Division by zero."⟩
  else .ok (returned left right ((promotedLeft left right).sdiv (promotedRight left right)))

/-- `ModuloValue<T1, T2>` -/
def moduloValue : Except Exception IntegerValue :=
  if right.getAs = 0 then .error ⟨.divideByZero, "Division by zero."⟩
  else .ok (returned left right ((promotedLeft left right).srem (promotedRight left right)))

end Templates

end IntegerParentType

namespace IntegerValue

open IntegerParentType

/-- The type of the NULL that `OperateNull` of the left type returns. -/
def operateNullType : IntegerTypeId → IntegerTypeId → IntegerTypeId
  | .tinyint, t => t
  | .smallint, .tinyint => .smallint
  | .smallint, t => t
  | .integer, .bigint => .bigint
  | .integer, _ => .integer
  | .bigint, _ => .bigint

/-- `OperateNull` -/
def operateNull (left right : IntegerValue) : IntegerValue :=
  ⟨operateNullType left.typeId right.typeId, BitVec.intMin _⟩

/-- `Add`, `Subtract` and `Multiply` of the four types: the operands are
comparable integers, so the asserts hold. -/
def operate (method : IntegerValue → IntegerValue → Except Exception IntegerValue)
    (left right : IntegerValue) : Except Exception IntegerValue :=
  if left.isNull ∨ right.isNull then .ok (operateNull left right) else method left right

/-- `Divide` and `Modulo` of the four types. -/
def operateNonzero (method : IntegerValue → IntegerValue → Except Exception IntegerValue)
    (left right : IntegerValue) : Except Exception IntegerValue :=
  operate (fun left right =>
    if right.isZero then .error ⟨.divideByZero, "Division by zero on right-hand side"⟩
    else method left right) left right

def add (left right : IntegerValue) : Except Exception IntegerValue :=
  operate addValue left right

def subtract (left right : IntegerValue) : Except Exception IntegerValue :=
  operate subtractValue left right

def multiply (left right : IntegerValue) : Except Exception IntegerValue :=
  operate multiplyValue left right

def divide (left right : IntegerValue) : Except Exception IntegerValue :=
  operateNonzero divideValue left right

def modulo (left right : IntegerValue) : Except Exception IntegerValue :=
  operateNonzero moduloValue left right

end IntegerValue

end ScuDb
