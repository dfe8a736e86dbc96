import ScuDb.Disk.ReadAfterWrite

/-!
Where a page lies in the file.

Its offset is computed in `int`, and so is the length of the file it is
compared with. From page 2 ^ 22 on the offset is not that of the page any
more: a negative one fails the stream, and another one is the offset of a
page further to the front.
-/

namespace ScuDb

open Foundations

/-- What a program sees at a place of the file; behind its end there are
zeros. -/
def DbFile.byteAt (f : DbFile) (j : Nat) : UInt8 := if j < f.size then f.bytes j else 0

theorem DbFile.byteAt_write (f : DbFile) (offset n j : Nat) (data : Memory) :
    (f.write offset (data.read 0 n)).byteAt j =
      if offset ≤ j ∧ j < offset + n then data (j - offset) else f.byteAt j := by
  have hsize : (f.write offset (data.read 0 n)).size = max f.size (offset + n) := by
    rw [DbFile.write, Memory.length_read]
  rw [byteAt, DiskManager.write_bytes, hsize, byteAt]
  by_cases hin : offset ≤ j ∧ j < offset + n
  · rw [if_pos (hin.2.trans_le (le_max_right _ _)), if_pos hin]
  · simp only [if_neg hin]
    by_cases hold : j < f.size
    · rw [if_pos (hold.trans_le (le_max_left _ _))]
    · rw [if_neg hold, ite_self]

namespace DiskManager

variable {d : DiskManager} {p : Int}

/-- `WritePage` and `ReadPage` address the bytes of the page, whose
distance from the end of the file they know. -/
structure Addresses (d : DiskManager) (p : PageId) : Prop where
  writes : ∀ data i, i < pageSize →
    (d.writePage p data).file.byteAt (p.toNat * pageSize + i) = data i
  keeps : ∀ data j, ¬(p.toNat * pageSize ≤ j ∧ j < p.toNat * pageSize + pageSize) →
    (d.writePage p data).file.byteAt j = d.file.byteAt j
  others : ∀ q : Int, 0 ≤ q → q ≠ p → ∀ data i, i < pageSize →
    (d.writePage p data).file.byteAt (q.toNat * pageSize + i) =
      d.file.byteAt (q.toNat * pageSize + i)
  reads : ∀ data i, i < pageSize → (d.readPage p data).1 i =
    if p.toNat * pageSize ≤ d.file.size then d.file.byteAt (p.toNat * pageSize + i) else data i

theorem exists_toInt32 (z : Int) :
    ∃ k : Int, toInt32 z = z + 4294967296 * k ∧ toInt32 z < 2147483648 := by
  have hmod := Int.emod_add_mul_ediv z 4294967296
  simp only [toInt32, Int.bmod]
  split
  · exact ⟨-(z / 4294967296), by omega, by omega⟩
  · exact ⟨-(z / 4294967296) - 1, by omega, by omega⟩

/-- An offset that has wrapped around is another one. -/
theorem toInt32_offset_of_not_addressable (hp : 0 ≤ p) (h : ¬PageId.Addressable p) :
    ∃ k : Int, k ≠ 0 ∧ toInt32 (p * pageSize) = p * pageSize + 4294967296 * k := by
  have hge : 2147483648 ≤ p * pageSize := not_lt.mp fun hlt => h ⟨hp, hlt⟩
  obtain ⟨k, hk, hlt⟩ := exists_toInt32 (p * pageSize)
  refine ⟨k, ?_, hk⟩
  rintro rfl
  omega

/-- What `WritePage` writes where its offset is not that of the page. -/
theorem writePage_of_not_addressable (hp : 0 ≤ p) (h : ¬PageId.Addressable p) (data : Memory) :
    (d.writePage p data).file.byteAt (p.toNat * pageSize) =
      d.file.byteAt (p.toNat * pageSize) := by
  obtain ⟨k, hk, hoffset⟩ := toInt32_offset_of_not_addressable hp h
  simp only [writePage]
  split
  · rfl
  · split
    · rfl
    · rename_i hneg
      rw [DbFile.byteAt_write, if_neg]
      simp only [pageSize] at hoffset hneg ⊢
      rcases lt_or_gt_of_ne hk with hlt | hgt
      · omega
      · omega

theorem addresses_of_addressable (hfail : d.failbit = false) (hp : PageId.Addressable p)
    (hsize : p * pageSize ≤ d.getFileSize ↔ p.toNat * pageSize ≤ d.file.size) :
    d.Addresses p := by
  have hwrite : ∀ data, (d.writePage p data).file =
      d.file.write (p.toNat * pageSize) (data.read 0 pageSize) := by
    intro data
    rw [writePage_of_addressable data hp, if_neg (by simp [hfail])]
  have hkeeps : ∀ data j, ¬(p.toNat * pageSize ≤ j ∧ j < p.toNat * pageSize + pageSize) →
      (d.writePage p data).file.byteAt j = d.file.byteAt j := by
    intro data j hout
    rw [hwrite, DbFile.byteAt_write, if_neg hout]
  refine ⟨fun data i hi => ?_, hkeeps, fun q hq hne data i hi => hkeeps data _ ?_,
    fun data i hi => ?_⟩
  · rw [hwrite, DbFile.byteAt_write, if_pos ⟨by omega, by omega⟩, Nat.add_sub_cancel_left]
  · have hp0 : 0 ≤ p := hp.1
    have hne' : q.toNat ≠ p.toNat := by omega
    simp only [pageSize] at hi ⊢
    omega
  · rw [readPage_of_addressable data hp hi]
    simp only [hsize, hfail, true_and]
    rfl

/-- A page has its own bytes of the file exactly when the stream has not
failed, its offset is an `int`, and so is the length of the file, or the
page does not lie behind the end that its `int` value means. -/
theorem addresses_iff (hp : 0 ≤ p) (hlt : p < 2147483648) :
    d.Addresses p ↔ d.failbit = false ∧ p < 4194304 ∧
      (d.file.size < 2147483648 ∨ p * pageSize ≤ d.getFileSize) := by
  have haddr : PageId.Addressable p ↔ p < 4194304 := by
    change (0 ≤ p ∧ p * 512 < 2147483648) ↔ _
    omega
  rw [← haddr]
  constructor
  · intro h
    have hchanged := h.writes (fun _ => d.file.byteAt (p.toNat * pageSize) + 1) 0 (by decide)
    rw [Nat.add_zero] at hchanged
    have hne : d.file.byteAt (p.toNat * pageSize) ≠ d.file.byteAt (p.toNat * pageSize) + 1 := by
      simp
    have hp' : PageId.Addressable p := by
      by_contra hnot
      rw [writePage_of_not_addressable hp hnot] at hchanged
      exact hne hchanged
    have hfail : d.failbit = false := by
      rw [← Bool.not_eq_true]
      intro hfail
      rw [writePage_of_addressable _ hp', if_pos hfail] at hchanged
      exact hne hchanged
    refine ⟨hfail, hp', ?_⟩
    by_contra hnot
    obtain ⟨hlarge, hbehind⟩ := not_or.mp hnot
    -- the page is in the file, and `ReadPage` takes it to be behind its end
    have hread := h.reads (fun _ => d.file.byteAt (p.toNat * pageSize) + 1) 0 (by decide)
    rw [readPage_of_addressable _ hp' (by decide), if_neg hbehind, if_pos, Nat.add_zero] at hread
    · exact hne hread.symm
    · have hle : p * pageSize < 2147483648 := hp'.2
      simp only [pageSize] at hle ⊢
      omega
  · rintro ⟨hfail, hp', hsize⟩
    refine addresses_of_addressable hfail hp' ?_
    have hle : p * pageSize < 2147483648 := hp'.2
    have hcast : ((p.toNat * pageSize : Nat) : Int) = p * pageSize := by
      rw [Int.natCast_mul, Int.toNat_of_nonneg hp]
    rcases hsize with hsmall | hbefore
    · have htrue : d.getFileSize = d.file.size := toInt32_of_nonneg (by omega) (by omega)
      rw [htrue, ← hcast]
      exact Int.ofNat_le
    · refine iff_of_true hbefore ?_
      obtain hsmall | hlarge := Nat.lt_or_ge d.file.size 2147483648
      · have htrue : d.getFileSize = d.file.size := toInt32_of_nonneg (by omega) (by omega)
        rw [htrue] at hbefore
        omega
      · omega

/-- The second page of a new file. -/
theorem addresses_iff_second : (openFile .created).Addresses 1 ↔
    (openFile .created).failbit = false ∧ (1 : Int) < 4194304 ∧
      ((openFile .created).file.size < 2147483648 ∨
        (1 : Int) * pageSize ≤ (openFile .created).getFileSize) :=
  addresses_iff (by decide) (by decide)

/-- Page 2 ^ 23 is written over page 0. -/
theorem page_written_over_first :
    ((openFile .created).writePage 8388608 fun _ => 1).file.byteAt 0 = 1 ∧
      (openFile .created).file.byteAt 0 = 0 ∧ ¬(openFile .created).Addresses 8388608 := by
  refine ⟨?_, rfl, fun h => ?_⟩
  · have hoffset : toInt32 (8388608 * pageSize) = 0 := by decide
    have hwrite : ((openFile .created).writePage 8388608 fun _ => 1).file =
        DbFile.created.write 0 (Memory.read (fun _ => 1) 0 pageSize) := by
      simp [writePage, hoffset, openFile]
    rw [hwrite, DbFile.byteAt_write, if_pos (by decide)]
  · obtain ⟨-, hlt, -⟩ := (addresses_iff (by decide) (by decide)).mp h
    exact absurd hlt (by decide)

end DiskManager

end ScuDb
