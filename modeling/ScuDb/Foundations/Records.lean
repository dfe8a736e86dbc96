import Mathlib.Data.List.GetD
import Mathlib.Order.Basic
import ScuDb.Foundations.Memory

/-!
Records of a fixed width in a byte memory.

A `Codec` says in how many bytes a value is stored, and how. `Holds` says
that given bytes stand at an offset; for the bytes of a list of records it
is cut and joined as the list is, so that what a program does to an array
in place is compared with the lists before and after. Loops that copy the
records of an array one at a time are single moves of bytes.
-/

namespace ScuDb.Foundations

/-! ### Codecs -/

/-- How the values of a type are stored in a fixed number of bytes. Only
valid values are read back. -/
structure Codec (α : Type) where
  width : Nat
  Valid : α → Prop
  encode : α → List UInt8
  decode : List UInt8 → α
  length_encode : ∀ a, (encode a).length = width
  decode_encode : ∀ a, Valid a → decode (encode a) = a

namespace Codec

variable {α β : Type}

attribute [simp] length_encode

/-- The bytes of the records of a list. -/
def encodeAll (c : Codec α) (l : List α) : List UInt8 := l.flatMap c.encode

variable {c : Codec α} {a : α} {l l' : List α}

@[simp] theorem encodeAll_nil : c.encodeAll [] = [] := rfl

@[simp] theorem encodeAll_cons : c.encodeAll (a :: l) = c.encode a ++ c.encodeAll l := rfl

@[simp] theorem encodeAll_append : c.encodeAll (l ++ l') = c.encodeAll l ++ c.encodeAll l' :=
  List.flatMap_append

@[simp] theorem length_encodeAll : (c.encodeAll l).length = l.length * c.width := by
  induction l with
  | nil => simp
  | cons a l ih => simp [ih, Nat.succ_mul, Nat.add_comm]

/-- A pair, the first component in front. -/
def prod (c : Codec α) (d : Codec β) : Codec (α × β) where
  width := c.width + d.width
  Valid x := c.Valid x.1 ∧ d.Valid x.2
  encode x := c.encode x.1 ++ d.encode x.2
  decode bytes := (c.decode (bytes.take c.width), d.decode (bytes.drop c.width))
  length_encode x := by simp
  decode_encode x h := by
    have hlen := c.length_encode x.1
    rw [← hlen, List.take_left, List.drop_left, c.decode_encode _ h.1, d.decode_encode _ h.2]

@[simp] theorem width_prod (c : Codec α) (d : Codec β) : (c.prod d).width = c.width + d.width := rfl

/-- An `int32_t` -/
def int32 : Codec Int where
  width := 4
  Valid v := -2147483648 ≤ v ∧ v < 2147483648
  encode := Memory.int32Bytes
  decode bytes := (Memory.memcpy (fun _ => 0) 0 bytes).getInt32 0
  length_encode := Memory.length_int32Bytes
  decode_encode _ h := Memory.getInt32_setInt32 _ _ h.1 h.2

@[simp] theorem width_int32 : int32.width = 4 := rfl

/-- A value, with `n` unused bytes behind it. -/
def padded (c : Codec α) (n : Nat) : Codec α where
  width := c.width + n
  Valid := c.Valid
  encode a := c.encode a ++ List.replicate n 0
  decode bytes := c.decode (bytes.take c.width)
  length_encode a := by simp
  decode_encode a h := by rw [List.take_left' (c.length_encode a), c.decode_encode a h]

/-- The bytes themselves. -/
def bytes (n : Nat) : Codec {l : List UInt8 // l.length = n} where
  width := n
  Valid _ := True
  encode v := v.1
  decode l := ⟨(l ++ List.replicate n 0).take n, by simp⟩
  length_encode v := v.2
  decode_encode v _ := Subtype.ext (List.take_left' v.2)

@[simp] theorem width_bytes (n : Nat) : (bytes n).width = n := rfl

end Codec

namespace Memory

variable {m m' : Memory} {off off' dst n w : Nat} {a b : List UInt8}

/-! ### Bytes that stand in a memory -/

/-- The bytes stand at the offset. -/
def Holds (m : Memory) (off : Nat) (bytes : List UInt8) : Prop :=
  m.read off bytes.length = bytes

theorem holds_nil (m : Memory) (off : Nat) : m.Holds off [] := rfl

theorem holds_append : m.Holds off (a ++ b) ↔ m.Holds off a ∧ m.Holds (off + a.length) b := by
  rw [Holds, List.length_append, read_append]
  constructor
  · exact fun h => List.append_inj h (length_read m off a.length)
  · exact fun ⟨ha, hb⟩ => congrArg₂ _ ha hb

theorem Holds.congr (h : m.Holds off a) (hsame : ∀ i < a.length, m' (off' + i) = m (off + i)) :
    m'.Holds off' a :=
  (read_congr hsame).trans h

theorem holds_memcpy (m : Memory) (dst : Nat) (a : List UInt8) : (m.memcpy dst a).Holds dst a :=
  read_memcpy m dst a

theorem Holds.memmove (h : m.Holds off a) (dst : Nat) :
    (m.memmove dst off a.length).Holds dst a :=
  h.congr fun i hi => by rw [memmove_of_mem (by omega) (by omega), Nat.add_sub_cancel_left]

theorem Holds.memcpy_of_disjoint (h : m.Holds off a)
    (hapart : off + a.length ≤ dst ∨ dst + b.length ≤ off) : (m.memcpy dst b).Holds off a :=
  h.congr fun i hi => memcpy_of_not_mem (by omega)

theorem Holds.memmove_of_disjoint (h : m.Holds off a)
    (hapart : off + a.length ≤ dst ∨ dst + n ≤ off) : (m.memmove dst off' n).Holds off a :=
  h.congr fun i hi => memmove_of_not_mem (by omega)

/-- Bytes written behind others. -/
theorem Holds.append (h : m.Holds off a) (b : List UInt8) :
    (m.memcpy (off + a.length) b).Holds off (a ++ b) :=
  holds_append.mpr ⟨h.memcpy_of_disjoint (.inl (Nat.le_refl _)), holds_memcpy _ _ _⟩

/-- Bytes in the middle are overwritten. -/
theorem Holds.replace {c c' : List UInt8} (h : m.Holds off (a ++ (c ++ b)))
    (hlen : c'.length = c.length) : (m.memcpy (off + a.length) c').Holds off (a ++ (c' ++ b)) := by
  obtain ⟨ha, hrest⟩ := holds_append.mp h
  obtain ⟨-, hb⟩ := holds_append.mp hrest
  refine holds_append.mpr ⟨ha.memcpy_of_disjoint (.inl (Nat.le_refl _)), holds_append.mpr
    ⟨holds_memcpy _ _ _, ?_⟩⟩
  rw [hlen]
  exact hb.memcpy_of_disjoint (.inr (by omega))

/-- Bytes move up, and others are written in front of them. -/
theorem Holds.openGap (h : m.Holds off (a ++ b)) (c : List UInt8) :
    ((m.memmove (off + a.length + c.length) (off + a.length) b.length).memcpy
      (off + a.length) c).Holds off (a ++ (c ++ b)) := by
  obtain ⟨ha, hb⟩ := holds_append.mp h
  refine holds_append.mpr ⟨?_, holds_append.mpr ⟨holds_memcpy _ _ _, ?_⟩⟩
  · exact (ha.memmove_of_disjoint (.inl (by omega))).memcpy_of_disjoint (.inl (Nat.le_refl _))
  · exact (hb.memmove _).memcpy_of_disjoint (.inr (Nat.le_refl _))

/-- Bytes move down over those in front of them. -/
theorem Holds.closeGap {c : List UInt8} (h : m.Holds off (a ++ (c ++ b))) :
    (m.memmove (off + a.length) (off + a.length + c.length) b.length).Holds off (a ++ b) := by
  obtain ⟨ha, hrest⟩ := holds_append.mp h
  obtain ⟨-, hb⟩ := holds_append.mp hrest
  exact holds_append.mpr ⟨ha.memmove_of_disjoint (.inl (Nat.le_refl _)), hb.memmove _⟩

/-- A record of an array. -/
theorem Holds.getElem {α : Type} {c : Codec α} {l : List α} (h : m.Holds off (c.encodeAll l))
    {i : Nat} (hi : i < l.length) : m.Holds (off + i * c.width) (c.encode l[i]) := by
  have hsplit : l = l.take i ++ l[i] :: l.drop (i + 1) := by
    rw [List.getElem_cons_drop, List.take_append_drop]
  rw [hsplit, Codec.encodeAll_append, holds_append, Codec.encodeAll_cons, holds_append,
    Codec.length_encodeAll, List.length_take_of_le (Nat.le_of_lt hi)] at h
  exact h.2.1

/-- A record is read back. -/
theorem Holds.decode_read {α : Type} {c : Codec α} {x : α} (h : m.Holds off (c.encode x))
    (hvalid : c.Valid x) : c.decode (m.read off c.width) = x := by
  rw [Holds, c.length_encode] at h
  rw [h, c.decode_encode x hvalid]

/-! ### Copies that make one copy -/

theorem memmove_eq_memcpy (m : Memory) (dst off n : Nat) :
    m.memmove dst off n = m.memcpy dst (m.read off n) := by
  funext i
  rw [memmove, memcpy, length_read]
  by_cases hi : dst ≤ i ∧ i < dst + n
  · rw [if_pos hi, if_pos hi, List.getD_eq_getElem _ _ (by rw [length_read]; omega)]
    simp [read]
  · rw [if_neg hi, if_neg hi]

theorem memcpy_memcpy (m : Memory) (dst : Nat) (a b : List UInt8) :
    (m.memcpy dst a).memcpy (dst + a.length) b = m.memcpy dst (a ++ b) := by
  funext i
  by_cases hlo : dst ≤ i
  case neg =>
    rw [memcpy_of_not_mem (by omega), memcpy_of_not_mem (by omega), memcpy_of_not_mem (by omega)]
  case pos =>
    by_cases hmid : i < dst + a.length
    · rw [memcpy_of_not_mem (by omega), memcpy_of_mem hlo hmid,
        memcpy_of_mem hlo (by rw [List.length_append]; omega), List.getD_eq_getElem?_getD,
        List.getD_eq_getElem?_getD, List.getElem?_append_left (by omega)]
    · by_cases hhi : i < dst + a.length + b.length
      · rw [memcpy_of_mem (by omega) hhi, memcpy_of_mem hlo (by rw [List.length_append]; omega),
          List.getD_eq_getElem?_getD, List.getD_eq_getElem?_getD,
          List.getElem?_append_right (by omega), Nat.sub_sub]
      · rw [memcpy_of_not_mem (by omega), memcpy_of_not_mem (by omega),
          memcpy_of_not_mem (by rw [List.length_append]; omega)]

theorem memcpy_comm (m : Memory) {dst' : Nat}
    (hapart : dst + a.length ≤ dst' ∨ dst' + b.length ≤ dst) :
    (m.memcpy dst a).memcpy dst' b = (m.memcpy dst' b).memcpy dst a := by
  funext i
  by_cases hi : dst ≤ i ∧ i < dst + a.length
  · rw [memcpy_of_not_mem (by omega), memcpy_of_mem hi.1 hi.2, memcpy_of_mem hi.1 hi.2]
  · by_cases hi' : dst' ≤ i ∧ i < dst' + b.length
    · rw [memcpy_of_mem hi'.1 hi'.2, memcpy_of_not_mem (by omega), memcpy_of_mem hi'.1 hi'.2]
    · rw [memcpy_of_not_mem (by omega), memcpy_of_not_mem (by omega), memcpy_of_not_mem (by omega),
        memcpy_of_not_mem (by omega)]

/-- Bytes that go up by `w`, those at the upper end first. -/
theorem memmove_up (m : Memory) (off n w : Nat) :
    (m.memmove (off + n + w) (off + n) w).memmove (off + w) off n =
      m.memmove (off + w) off (n + w) := by
  funext i
  by_cases hlo : off + w ≤ i
  case neg =>
    rw [memmove_of_not_mem (by omega), memmove_of_not_mem (by omega),
      memmove_of_not_mem (by omega)]
  case pos =>
    by_cases hmid : i < off + w + n
    · rw [memmove_of_mem hlo hmid, memmove_of_not_mem (by omega), memmove_of_mem hlo (by omega)]
    · by_cases hhi : i < off + n + w + w
      · rw [memmove_of_not_mem (by omega), memmove_of_mem (by omega) hhi,
          memmove_of_mem hlo (by omega)]
        congr 1
        omega
      · rw [memmove_of_not_mem (by omega), memmove_of_not_mem (by omega),
          memmove_of_not_mem (by omega)]

/-- Bytes that go down by `w`, those at the lower end first. -/
theorem memmove_down (m : Memory) (off n w : Nat) :
    (m.memmove off (off + w) w).memmove (off + w) (off + w + w) n =
      m.memmove off (off + w) (w + n) := by
  funext i
  by_cases hlo : off ≤ i
  case neg =>
    rw [memmove_of_not_mem (by omega), memmove_of_not_mem (by omega),
      memmove_of_not_mem (by omega)]
  case pos =>
    by_cases hmid : i < off + w
    · rw [memmove_of_not_mem (by omega), memmove_of_mem hlo hmid, memmove_of_mem hlo (by omega)]
    · by_cases hhi : i < off + w + n
      · rw [memmove_of_mem (by omega) hhi, memmove_of_not_mem (by omega),
          memmove_of_mem hlo (by omega)]
        congr 1
        omega
      · rw [memmove_of_not_mem (by omega), memmove_of_not_mem (by omega),
          memmove_of_not_mem (by omega)]

end Memory

end ScuDb.Foundations
