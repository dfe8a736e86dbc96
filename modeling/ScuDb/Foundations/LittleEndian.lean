import ScuDb.Foundations.Layout

/-!
Little-endian numbers of any width, and reads that are checked against
the size of the buffer.
-/

namespace ScuDb.Foundations

/-- The low `n` bytes of a number, the least first. -/
def littleEndian : Nat → Nat → List UInt8
  | 0, _ => []
  | n + 1, v => UInt8.ofNat v :: littleEndian n (v / 256)

/-- The number in the bytes. -/
def ofLittleEndian : List UInt8 → Nat
  | [] => 0
  | b :: bytes => b.toNat + 256 * ofLittleEndian bytes

@[simp] theorem length_littleEndian (n v : Nat) : (littleEndian n v).length = n := by
  induction n generalizing v with
  | zero => rfl
  | succ n ih => simp [littleEndian, ih]

theorem ofLittleEndian_littleEndian {n v : Nat} (h : v < 256 ^ n) :
    ofLittleEndian (littleEndian n v) = v := by
  induction n generalizing v with
  | zero =>
      rw [pow_zero] at h
      simp only [littleEndian, ofLittleEndian]
      omega
  | succ n ih =>
      rw [pow_succ] at h
      simp only [littleEndian, ofLittleEndian, UInt8.toNat_ofNat']
      rw [ih (by omega)]
      omega

theorem ofLittleEndian_int32Bytes (v : Int) :
    ofLittleEndian (Memory.int32Bytes v) = (v % 4294967296).toNat := by
  simp only [Memory.int32Bytes, ofLittleEndian, UInt8.toNat_ofNat']
  omega

/-- An `int32_t` is read back as it was stored. -/
theorem wrap32_int32Bytes {v : Int} (hlo : 0 ≤ v) (hhi : v ≤ int32Max) :
    wrap32 (ofLittleEndian (Memory.int32Bytes v)) = v := by
  rw [ofLittleEndian_int32Bytes, Int.toNat_of_nonneg (by omega), Int.emod_eq_of_lt hlo,
    wrap32_of_le hlo hhi]
  simp only [int32Max] at hhi
  omega

namespace Memory

/-- `n` bytes from an address on, if they are inside the buffer. -/
def readInside (m : Memory) (size address : Int) (n : Nat) : Option (List UInt8) :=
  if 0 ≤ address ∧ address + n ≤ size then some (m.read address.toNat n) else none

theorem readInside_store {m m' : Memory} {writes : List Write} {size : Int} {w : Write}
    (hinside : ∀ w ∈ writes, w.Inside size) (hapart : writes.Pairwise Write.Apart)
    (hw : w ∈ writes) (hagree : ∀ i : Nat, (i : Int) < size → m' i = m.store writes i)
    {room : Int} (hroom : size ≤ room) (before bytes after : List UInt8)
    (hbytes : w.bytes = before ++ bytes ++ after) :
    m'.readInside room (w.address + before.length) bytes.length = some bytes := by
  have hwin := hinside w hw
  have hlen : w.bytes.length = before.length + bytes.length + after.length := by
    rw [hbytes]
    simp [Nat.add_assoc]
  rw [readInside, if_pos (by unfold Write.Inside at hwin; omega)]
  refine congrArg some (List.ext_getElem (by simp) fun i h₁ h₂ => ?_)
  have haddr : (w.address + before.length).toNat + i = w.address.toNat + (before.length + i) := by
    unfold Write.Inside at hwin
    omega
  simp only [read, List.getElem_map, List.getElem_range]
  rw [haddr, hagree _ (by unfold Write.Inside at hwin; omega),
    store_of_mem (fun u hu => (hinside u hu).1) hapart hw (by omega), hbytes]
  have hnot : ¬before.length + i < before.length := by omega
  simp [List.getElem?_append, h₂, hnot]

end Memory

end ScuDb.Foundations
