import ScuDb.Foundations.LittleEndian
import ScuDb.Type.IntegerParentType

/-!
SQL values and their bytes: `value.cpp`, and `SerializeTo` and
`DeserializeFrom` of the types.

A `Value` is a union with a length beside it. The length marks a NULL,
and the constructors of the fixed-size types set it by comparing the
number with the least one of the type; so for these the number alone
says whether the value is NULL. A double is its 64 bits.
-/

namespace ScuDb

open Foundations

/-- `TypeId`, for the types that a value can have. -/
inductive TypeId
  | boolean
  | int (type : IntegerTypeId)
  | decimal
  | varchar
  deriving DecidableEq, Repr

/-- `Type::GetTypeSize`, in bytes -/
def TypeId.getTypeSize : TypeId → Nat
  | boolean => 1
  | int type => type.getTypeSize
  | decimal => 8
  | varchar => 0

/-- `PELOTON_VALUE_NULL` and `PELOTON_VARCHAR_MAX_LEN` -/
def valueNull : Nat := 4294967295

/-- The bytes of a VARCHAR. Their number is a `uint32_t` that does not
mark a NULL. -/
structure Varlen where
  bytes : List UInt8
  short : bytes.length < valueNull
  deriving DecidableEq

inductive Value
  | boolean (value : BitVec 8)
  | int (value : IntegerValue)
  | decimal (value : BitVec 64)
  | varchar (data : Option Varlen)
  deriving DecidableEq

namespace Value

/-- `GetTypeId` -/
def getTypeId : Value → TypeId
  | boolean _ => .boolean
  | int v => .int v.typeId
  | decimal _ => .decimal
  | varchar _ => .varchar

/-- `IsNull` -/
def isNull : Value → Bool
  | boolean b => b.toInt = -128
  | int v => v.isNull
  | decimal d => d = 0xFFEFFFFFFFFFFFFF
  | varchar data => data.isNone

/-- `GetLength`, which the types other than VARCHAR do not have: they
throw. -/
def getLength : Value → Option Nat
  | varchar none => some valueNull
  | varchar (some data) => some data.bytes.length
  | _ => none

/-- The bytes `SerializeTo` stores. -/
def serialize : Value → List UInt8
  | boolean b => littleEndian 1 b.toNat
  | int v => littleEndian v.typeId.getTypeSize v.value.toNat
  | decimal d => littleEndian 8 d.toNat
  | varchar none => Memory.int32Bytes valueNull
  | varchar (some data) => Memory.int32Bytes data.bytes.length ++ data.bytes

/-- `DeserializeFrom`, of a value at `ptr` in a buffer of `size` bytes. -/
def deserializeFrom (m : Memory) (size ptr : Int) : TypeId → Option Value
  | .boolean => (m.readInside size ptr 1).map fun bytes =>
      boolean (BitVec.ofNat _ (ofLittleEndian bytes))
  | .int type => (m.readInside size ptr type.getTypeSize).map fun bytes =>
      int ⟨type, BitVec.ofNat _ (ofLittleEndian bytes)⟩
  | .decimal => (m.readInside size ptr 8).map fun bytes =>
      decimal (BitVec.ofNat _ (ofLittleEndian bytes))
  | .varchar => do
      let len := ofLittleEndian (← m.readInside size ptr 4)
      if len = valueNull then return varchar none
      let data ← m.readInside size (ptr + 4) len
      -- the constructor's `assert(len < PELOTON_VARCHAR_MAX_LEN)`
      if short : data.length < valueNull then return varchar (some ⟨data, short⟩)
      none

/-! ### Bytes and back -/

theorem serialize_pos (v : Value) : 0 < v.serialize.length := by
  cases v with
  | boolean b => simp [serialize]
  | int v => cases h : v.typeId <;> simp [serialize, h, IntegerTypeId.getTypeSize]
  | decimal d => simp [serialize]
  | varchar data => cases data <;> simp [serialize]

theorem length_serialize {v : Value} (h : v.getTypeId ≠ .varchar) :
    v.serialize.length = v.getTypeId.getTypeSize := by
  cases v with
  | boolean b => simp [serialize, getTypeId, TypeId.getTypeSize]
  | int v => simp [serialize, getTypeId, TypeId.getTypeSize]
  | decimal d => simp [serialize, getTypeId, TypeId.getTypeSize]
  | varchar data => exact absurd rfl h

theorem ofNat_littleEndian {n : Nat} (x : BitVec (8 * n)) :
    BitVec.ofNat (8 * n) (ofLittleEndian (littleEndian n x.toNat)) = x := by
  have hlt : x.toNat < 256 ^ n := by
    have := x.isLt
    rwa [pow_mul] at this
  rw [ofLittleEndian_littleEndian hlt, BitVec.ofNat_toNat, BitVec.setWidth_eq]

/-- A value is read back from where it was written, through whatever
other writes and whatever memory agrees on the buffer. -/
theorem deserializeFrom_store {m m' : Memory} {writes : List Write} {size room : Int} {w : Write}
    {v : Value} (hinside : ∀ w ∈ writes, w.Inside size) (hapart : writes.Pairwise Write.Apart)
    (hw : w ∈ writes) (hagree : ∀ i : Nat, (i : Int) < size → m' i = m.store writes i)
    (hroom : size ≤ room) (hbytes : w.bytes = v.serialize) :
    deserializeFrom m' room w.address v.getTypeId = some v := by
  have hread : ∀ before bytes after : List UInt8,
      v.serialize = before ++ bytes ++ after →
      m'.readInside room (w.address + before.length) bytes.length = some bytes :=
    fun _ _ _ heq => Memory.readInside_store hinside hapart hw hagree hroom _ _ _
      (hbytes.trans heq)
  have hwhole := hread [] v.serialize [] (by simp)
  rw [List.length_nil, Nat.cast_zero, add_zero] at hwhole
  cases v with
  | boolean b =>
      rw [serialize, length_littleEndian] at hwhole
      rw [getTypeId, deserializeFrom, hwhole, Option.map_some, ofNat_littleEndian (n := 1)]
  | int v =>
      rw [serialize, length_littleEndian] at hwhole
      rw [getTypeId, deserializeFrom, hwhole, Option.map_some, ofNat_littleEndian]
  | decimal d =>
      rw [serialize, length_littleEndian] at hwhole
      rw [getTypeId, deserializeFrom, hwhole, Option.map_some, ofNat_littleEndian (n := 8)]
  | varchar data =>
      cases data with
      | none =>
          rw [serialize, Memory.length_int32Bytes] at hwhole
          simp only [getTypeId, deserializeFrom, hwhole]
          rfl
      | some data =>
          have hlen := hread [] (Memory.int32Bytes data.bytes.length) data.bytes
            (by simp [serialize])
          have hdata := hread (Memory.int32Bytes data.bytes.length) data.bytes []
            (by simp [serialize])
          rw [List.length_nil, Nat.cast_zero, add_zero, Memory.length_int32Bytes] at hlen
          rw [Memory.length_int32Bytes] at hdata
          have hshort := data.short
          have hvalue : ((data.bytes.length : Int) % 4294967296).toNat = data.bytes.length := by
            unfold valueNull at hshort
            omega
          simp only [getTypeId, deserializeFrom, hlen, ofLittleEndian_int32Bytes, hvalue,
            Option.bind_eq_bind, Option.bind_some]
          rw [if_neg hshort.ne]
          change (m'.readInside room (w.address + 4) data.bytes.length).bind _ = _
          rw [show (4 : Int) = ((4 : Nat) : Int) from rfl, hdata, Option.bind_some, dif_pos hshort]
          rfl

end Value

end ScuDb
