import Mathlib.Data.List.Basic
import Mathlib.Tactic.Basic

/-!
Byte memory with the C operations on it: `memcpy`, `memmove`, and
little-endian 32-bit integers.

A memory is a total function from addresses to bytes, so a copy is one
comparison per read instead of a rewritten array, and two memories are
compared where it matters by saying on which addresses they agree.
Whether an access is inside a buffer is for the caller to check; nothing
here depends on a buffer's length.
-/

namespace ScuDb.Foundations

/-- A byte at every address. -/
abbrev Memory := Nat → UInt8

namespace Memory

/-- `memcpy(m + dst, bytes, bytes.length)`. -/
def memcpy (m : Memory) (dst : Nat) (bytes : List UInt8) : Memory := fun i =>
  if dst ≤ i ∧ i < dst + bytes.length then bytes.getD (i - dst) 0 else m i

/-- `memmove(m + dst, m + src, n)`. -/
def memmove (m : Memory) (dst src n : Nat) : Memory := fun i =>
  if dst ≤ i ∧ i < dst + n then m (src + (i - dst)) else m i

/-- The `n` bytes from address `off` on. -/
def read (m : Memory) (off n : Nat) : List UInt8 :=
  (List.range n).map fun i => m (off + i)

/-- The four little-endian bytes of a 32-bit integer. -/
def int32Bytes (v : Int) : List UInt8 :=
  let n := (v % 4294967296).toNat
  [UInt8.ofNat n, UInt8.ofNat (n / 256), UInt8.ofNat (n / 65536), UInt8.ofNat (n / 16777216)]

/-- The unsigned number in the four bytes at `off`. -/
def uint32At (m : Memory) (off : Nat) : Nat :=
  (m off).toNat + 256 * (m (off + 1)).toNat + 65536 * (m (off + 2)).toNat +
    16777216 * (m (off + 3)).toNat

/-- `*reinterpret_cast<int32_t *>(m + off)`. -/
def getInt32 (m : Memory) (off : Nat) : Int :=
  if uint32At m off < 2147483648 then (uint32At m off : Int)
  else (uint32At m off : Int) - 4294967296

/-- `memcpy(m + off, &v, 4)`. -/
def setInt32 (m : Memory) (off : Nat) (v : Int) : Memory :=
  m.memcpy off (int32Bytes v)

/-- The two memories hold the same bytes in `[lo, hi)`. -/
def AgreeOn (lo hi : Nat) (m m' : Memory) : Prop :=
  ∀ i, lo ≤ i → i < hi → m i = m' i

/-! ### Where a copy writes -/

theorem memcpy_of_mem {m : Memory} {dst i : Nat} {bytes : List UInt8}
    (hlo : dst ≤ i) (hhi : i < dst + bytes.length) :
    m.memcpy dst bytes i = bytes.getD (i - dst) 0 := by
  simp [memcpy, hlo, hhi]

theorem memcpy_of_not_mem {m : Memory} {dst i : Nat} {bytes : List UInt8}
    (h : i < dst ∨ dst + bytes.length ≤ i) : m.memcpy dst bytes i = m i := by
  have : ¬(dst ≤ i ∧ i < dst + bytes.length) := by omega
  simp [memcpy, this]

theorem memmove_of_mem {m : Memory} {dst src n i : Nat}
    (hlo : dst ≤ i) (hhi : i < dst + n) : m.memmove dst src n i = m (src + (i - dst)) := by
  simp [memmove, hlo, hhi]

theorem memmove_of_not_mem {m : Memory} {dst src n i : Nat}
    (h : i < dst ∨ dst + n ≤ i) : m.memmove dst src n i = m i := by
  have : ¬(dst ≤ i ∧ i < dst + n) := by omega
  simp [memmove, this]

@[simp] theorem length_int32Bytes (v : Int) : (int32Bytes v).length = 4 := rfl

theorem setInt32_of_not_mem {m : Memory} {off i : Nat} {v : Int}
    (h : i < off ∨ off + 4 ≤ i) : m.setInt32 off v i = m i :=
  memcpy_of_not_mem h

/-! ### Reading back -/

@[simp] theorem length_read (m : Memory) (off n : Nat) : (m.read off n).length = n := by
  simp [read]

theorem read_congr {m m' : Memory} {off off' n : Nat}
    (h : ∀ i < n, m (off + i) = m' (off' + i)) : m.read off n = m'.read off' n := by
  simp only [read]
  exact List.map_congr_left fun i hi => h i (List.mem_range.mp hi)

theorem read_append (m : Memory) (off n k : Nat) :
    m.read off (n + k) = m.read off n ++ m.read (off + n) k := by
  simp only [read, List.range_add, List.map_append, List.map_map]
  congr 1
  refine List.map_congr_left fun i _ => ?_
  rw [Function.comp_apply, Nat.add_assoc]

theorem read_memcpy (m : Memory) (dst : Nat) (bytes : List UInt8) :
    (m.memcpy dst bytes).read dst bytes.length = bytes := by
  refine List.ext_getElem (by simp) fun i h₁ h₂ => ?_
  simp only [read, List.getElem_map, List.getElem_range]
  rw [memcpy_of_mem (by omega) (by omega)]
  simp [h₂]

/-- A buffer that is filled with the `k` bytes from `off` on, and with
zeros behind them. -/
theorem memcpy_read_fill (m m' : Memory) (off : Nat) {n k i : Nat} (hk : k ≤ n) (hi : i < n) :
    m.memcpy 0 (m'.read off k ++ List.replicate (n - k) 0) i =
      if i < k then m' (off + i) else 0 := by
  have hlen : (m'.read off k ++ List.replicate (n - k) 0).length = n := by
    rw [List.length_append, length_read, List.length_replicate]
    omega
  rw [memcpy_of_mem (Nat.zero_le _) (by omega), Nat.sub_zero, List.getD_eq_getElem?_getD,
    List.getElem?_append, length_read]
  split
  case isTrue hin => simp [read, hin]
  case isFalse hout =>
    rw [List.getElem?_replicate_of_lt (by omega)]
    rfl

theorem uint32At_congr {m m' : Memory} {off off' : Nat}
    (h : ∀ i < 4, m (off + i) = m' (off' + i)) : m.uint32At off = m'.uint32At off' := by
  have h0 := h 0 (by omega)
  simp only [Nat.add_zero] at h0
  simp only [uint32At, h0, h 1 (by omega), h 2 (by omega), h 3 (by omega)]

theorem getInt32_congr {m m' : Memory} {off off' : Nat}
    (h : ∀ i < 4, m (off + i) = m' (off' + i)) : m.getInt32 off = m'.getInt32 off' := by
  simp only [getInt32, uint32At_congr h]

theorem uint32At_lt (m : Memory) (off : Nat) : m.uint32At off < 4294967296 := by
  have h0 := (m off).toNat_lt
  have h1 := (m (off + 1)).toNat_lt
  have h2 := (m (off + 2)).toNat_lt
  have h3 := (m (off + 3)).toNat_lt
  simp only [uint32At]
  omega

theorem getInt32_bounds (m : Memory) (off : Nat) :
    -2147483648 ≤ m.getInt32 off ∧ m.getInt32 off < 2147483648 := by
  have := m.uint32At_lt off
  simp only [getInt32]
  split <;> omega

theorem uint32At_setInt32 (m : Memory) (off : Nat) (v : Int) :
    (m.setInt32 off v).uint32At off = (v % 4294967296).toNat := by
  have hlt : (v % 4294967296).toNat < 4294967296 := by omega
  have hbyte (k : Nat) (hk : k < 4) :
      m.setInt32 off v (off + k) = (int32Bytes v).getD k 0 := by
    rw [setInt32, memcpy_of_mem (by omega) (by simp; omega)]
    simp
  have h0 := hbyte 0 (by omega)
  simp only [Nat.add_zero] at h0
  simp only [uint32At, h0, hbyte 1 (by omega), hbyte 2 (by omega), hbyte 3 (by omega)]
  simp only [int32Bytes, List.getD_cons_zero, List.getD_cons_succ, UInt8.toNat_ofNat']
  omega

theorem getInt32_setInt32 (m : Memory) (off : Nat) {v : Int}
    (hlo : -2147483648 ≤ v) (hhi : v < 2147483648) :
    (m.setInt32 off v).getInt32 off = v := by
  simp only [getInt32, uint32At_setInt32]
  split <;> omega

theorem getInt32_setInt32_of_disjoint {m : Memory} {off off' : Nat} {v : Int}
    (h : off' + 4 ≤ off ∨ off + 4 ≤ off') :
    (m.setInt32 off v).getInt32 off' = m.getInt32 off' :=
  getInt32_congr fun i hi => setInt32_of_not_mem (by omega)

theorem getInt32_memcpy_of_disjoint {m : Memory} {off dst : Nat} {bytes : List UInt8}
    (h : off + 4 ≤ dst ∨ dst + bytes.length ≤ off) :
    (m.memcpy dst bytes).getInt32 off = m.getInt32 off :=
  getInt32_congr fun i hi => memcpy_of_not_mem (by omega)

theorem getInt32_memmove_of_disjoint {m : Memory} {off dst src n : Nat}
    (h : off + 4 ≤ dst ∨ dst + n ≤ off) :
    (m.memmove dst src n).getInt32 off = m.getInt32 off :=
  getInt32_congr fun i hi => memmove_of_not_mem (by omega)

end Memory

end ScuDb.Foundations
