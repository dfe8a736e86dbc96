import Mathlib.Data.List.Induction
import ScuDb.Disk.DiskManager

/-!
What `ReadPage` gives back after `WritePage`.

A sequence of page accesses is compared with the pages it wrote last. As
long as the stream has not failed, the file holds these pages, and zeros
elsewhere. A read that meets the end of the file is still answered with
zeros but leaves `failbit` set; nothing clears it, so that from then on
every write is lost and every read gives zeros. A read beyond the end
does not touch the caller's buffer.
-/

namespace ScuDb

open Foundations

/-- A page whose byte offset is a non-negative `int`. -/
def PageId.Addressable (p : PageId) : Prop := 0 ≤ p ∧ p * pageSize < 2147483648

/-- A call that reads or writes an addressable page. -/
def DiskOp.IsPageAccess : DiskOp → Prop
  | .writePage p _ => p.Addressable
  | .readPage p _ => p.Addressable
  | _ => False

namespace DiskManager

/-- The pages after one more operation. -/
def onPages (pages : PageId → Memory) : DiskOp → PageId → Memory
  | .writePage p data => Function.update pages p data
  | _ => pages

/-- What the last `WritePage` of a page wrote, zeros if there is none. -/
def lastWritten (ops : List DiskOp) : PageId → Memory := ops.foldl onPages fun _ _ => 0

/-- Every `ReadPage` fills its buffer with what was written last. -/
def ReadsBack (ops : List DiskOp) : Prop :=
  ∀ before p data rest, ops = before ++ .readPage p data :: rest →
    ((after before).readPage p data).1.AgreeOn 0 pageSize (lastWritten before p)

/-- A page is at or before the end of the file and the stream has not
failed; else the page is the one that the caller gets anyway: zeros from
a failed stream, its own buffer from a page beyond the end. -/
def Serves (d : DiskManager) (p : PageId) (data page : Memory) : Prop :=
  if p * pageSize ≤ d.getFileSize then
    d.failbit = false ∨ Memory.AgreeOn 0 pageSize (fun _ => 0) page
  else data.AgreeOn 0 pageSize page

/-- Every `ReadPage` is made when the disk manager serves it. -/
def ReadsServed (ops : List DiskOp) : Prop :=
  ∀ before p data rest, ops = before ++ .readPage p data :: rest →
    (after before).Serves p data (lastWritten before p)

/-- The file holds the pages `pages`. -/
def HoldsPages (d : DiskManager) (pages : PageId → Memory) : Prop :=
  ∀ p : PageId, 0 ≤ p → ∀ i < pageSize,
    pages p i = if p.toNat * pageSize + i < d.file.size
      then d.file.bytes (p.toNat * pageSize + i) else 0

/-! ### One access -/

theorem toInt32_of_nonneg {z : Int} (hlo : 0 ≤ z) (hhi : z < 2147483648) : toInt32 z = z := by
  rw [toInt32, Int.bmod_eq_of_le_mul_two]
  · omega
  · omega

theorem offset_nonneg {p : PageId} (hp : p.Addressable) : 0 ≤ p * pageSize :=
  Int.mul_nonneg hp.1 (Int.natCast_nonneg _)

theorem toInt32_offset {p : PageId} (hp : p.Addressable) :
    toInt32 (p * pageSize) = p * pageSize :=
  toInt32_of_nonneg (offset_nonneg hp) hp.2

theorem offset_toNat {p : PageId} (hp : p.Addressable) :
    (p * pageSize : Int).toNat = p.toNat * pageSize := by
  rw [Int.toNat_mul hp.1 (Int.natCast_nonneg _)]
  rfl

theorem writePage_of_addressable {d : DiskManager} {p : PageId} (data : Memory)
    (hp : p.Addressable) :
    d.writePage p data = if d.failbit then d else
      { d with file := d.file.write (p.toNat * pageSize) (data.read 0 pageSize) } := by
  simp only [writePage, toInt32_offset hp, offset_toNat hp, if_neg (offset_nonneg hp).not_gt]

theorem readPage_of_addressable {d : DiskManager} {p : PageId} (data : Memory)
    (hp : p.Addressable) {i : Nat} (hi : i < pageSize) :
    (d.readPage p data).1 i =
      if p * pageSize ≤ d.getFileSize then
        if d.failbit = false ∧ p.toNat * pageSize + i < d.file.size
        then d.file.bytes (p.toNat * pageSize + i) else 0
      else data i := by
  simp only [readPage, toInt32_offset hp, offset_toNat hp]
  by_cases hsize : p * pageSize ≤ d.getFileSize
  · rw [if_neg hsize.not_gt, if_pos hsize]
    simp only [(offset_nonneg hp).not_gt, or_false]
    cases hfail : d.failbit with
    | true => exact Memory.memcpy_read_fill _ _ _ (Nat.zero_le _) hi
    | false =>
        refine (Memory.memcpy_read_fill _ _ _ (Nat.min_le_left _ _) hi).trans ?_
        have hin : i < min pageSize (d.file.size - p.toNat * pageSize) ↔
            p.toNat * pageSize + i < d.file.size := by omega
        simp only [hin, true_and]
  · rw [if_pos (not_le.mp hsize), if_neg hsize]

theorem readPage_file (d : DiskManager) (p : PageId) (data : Memory) :
    (d.readPage p data).2.file = d.file := by
  simp only [readPage]
  split <;> rfl

/-- A read fails the stream when the file ends before the page does. A
stream that has failed stays so. -/
theorem readPage_failbit {d : DiskManager} {p : PageId} (data : Memory) (hp : p.Addressable) :
    (d.readPage p data).2.failbit = (d.failbit ||
      decide (p * pageSize ≤ d.getFileSize ∧ d.file.size < p.toNat * pageSize + pageSize)) := by
  simp only [readPage, toInt32_offset hp, offset_toNat hp, (offset_nonneg hp).not_gt, or_false]
  by_cases hsize : p * pageSize ≤ d.getFileSize
  · rw [if_neg hsize.not_gt]
    cases d.failbit with
    | true => rfl
    | false =>
        simp only [Bool.false_eq_true, if_false, Bool.false_or, hsize, true_and, decide_eq_decide]
        have hpos : 0 < pageSize := by decide
        omega
  · rw [if_pos (not_le.mp hsize)]
    simp only [hsize, false_and, decide_false, Bool.or_false]

theorem write_bytes (f : DbFile) (offset n j : Nat) (data : Memory) :
    (f.write offset (data.read 0 n)).bytes j =
      if offset ≤ j ∧ j < offset + n then data (j - offset)
      else if j < f.size then f.bytes j else 0 := by
  have hlen : (data.read 0 n).length = n := Memory.length_read _ _ _
  by_cases hin : offset ≤ j ∧ j < offset + n
  · rw [if_pos hin]
    apply (Memory.memcpy_of_mem hin.1 (by omega)).trans
    have hlt : j - offset < n := by omega
    simp [Memory.read, List.getD_eq_getElem?_getD, hlt]
  · rw [if_neg hin]
    apply Memory.memcpy_of_not_mem
    omega

/-- A write to a file that holds the pages leaves a file that holds the
pages after it. -/
theorem HoldsPages.write {d : DiskManager} {pages : PageId → Memory} (h : d.HoldsPages pages)
    {p : PageId} (hp : 0 ≤ p) (data : Memory) :
    HoldsPages { d with file := d.file.write (p.toNat * pageSize) (data.read 0 pageSize) }
      (Function.update pages p data) := by
  intro q hq i hi
  show _ = if q.toNat * pageSize + i <
      max d.file.size (p.toNat * pageSize + (data.read 0 pageSize).length)
    then (d.file.write (p.toNat * pageSize) (data.read 0 pageSize)).bytes _ else 0
  rw [write_bytes, Memory.length_read]
  by_cases hqp : q = p
  · subst hqp
    rw [Function.update_self, if_pos (by omega), if_pos ⟨by omega, by omega⟩,
      Nat.add_sub_cancel_left]
  · rw [Function.update_of_ne hqp, h q hq i hi]
    have hne : q.toNat ≠ p.toNat := fun heq => hqp (Int.toNat_of_nonneg hq ▸
      heq ▸ Int.toNat_of_nonneg hp)
    have hout : ¬(p.toNat * pageSize ≤ q.toNat * pageSize + i ∧
        q.toNat * pageSize + i < p.toNat * pageSize + pageSize) := by
      simp only [pageSize] at hi ⊢
      omega
    rw [if_neg hout]
    by_cases hold : q.toNat * pageSize + i < d.file.size
    · rw [if_pos hold, if_pos (hold.trans_le (le_max_left _ _))]
    · rw [if_neg hold, ite_self]

/-- While the stream has not failed, an access keeps the file and the
pages together. -/
theorem holdsPages_step {d : DiskManager} {pages : PageId → Memory} {op : DiskOp}
    (hop : op.IsPageAccess) (h : d.failbit = false → d.HoldsPages pages)
    (hfail : (step op d).2.failbit = false) : (step op d).2.HoldsPages (onPages pages op) := by
  cases op with
  | writePage p data =>
      simp only [step, writePage_of_addressable data hop] at hfail ⊢
      cases hold : d.failbit with
      | true => simp [hold] at hfail
      | false => exact (h hold).write hop.1 data
  | readPage p data =>
      have hold : d.failbit = false := by
        have hlast : (d.readPage p data).2.failbit = false := hfail
        rw [readPage_failbit data hop, Bool.or_eq_false_iff] at hlast
        exact hlast.1
      intro q hq i hi
      show pages q i = if _ < (d.readPage p data).2.file.size
        then (d.readPage p data).2.file.bytes _ else 0
      rw [readPage_file]
      exact h hold q hq i hi
  | reopen => exact hop.elim
  | allocatePage => exact hop.elim
  | deallocatePage id => exact hop.elim

theorem holdsPages_after {ops : List DiskOp} (hops : ∀ op ∈ ops, op.IsPageAccess)
    (hfail : (after ops).failbit = false) : (after ops).HoldsPages (lastWritten ops) := by
  induction ops using List.reverseRecOn with
  | nil =>
      intro p hp i hi
      rfl
  | append_singleton ops op ih =>
      have hafter : after (ops ++ [op]) = (step op (after ops)).2 := specAll_append _ _ _ _
      rw [hafter] at hfail ⊢
      rw [lastWritten, List.foldl_append]
      apply holdsPages_step (hops op (by simp)) _ hfail
      exact ih fun op' hop' => hops op' (List.mem_append_left _ hop')

/-- A read gives what was written last exactly when it is served. -/
theorem agreeOn_readPage_iff {d : DiskManager} {pages : PageId → Memory} {p : PageId}
    (hp : p.Addressable) (h : d.failbit = false → d.HoldsPages pages) (data : Memory) :
    (d.readPage p data).1.AgreeOn 0 pageSize (pages p) ↔ d.Serves p data (pages p) := by
  have hread : (d.readPage p data).1.AgreeOn 0 pageSize (pages p) ↔ ∀ i < pageSize,
      (if p * pageSize ≤ d.getFileSize then
        if d.failbit = false ∧ p.toNat * pageSize + i < d.file.size
        then d.file.bytes (p.toNat * pageSize + i) else 0
      else data i) = pages p i := by
    constructor
    · intro hagree i hi
      rw [← readPage_of_addressable data hp hi]
      exact hagree i (Nat.zero_le i) hi
    · intro hagree i _ hi
      rw [readPage_of_addressable data hp hi]
      exact hagree i hi
  rw [hread, Serves]
  split
  case isTrue =>
    cases hfail : d.failbit with
    | false =>
        refine iff_of_true (fun i hi => ?_) (Or.inl rfl)
        rw [h hfail p hp.1 i hi]
        simp only [true_and]
    | true =>
        simp only [Bool.true_eq_false, false_and, if_false, false_or]
        exact ⟨fun hz i _ hi => hz i hi, fun hz i hi => hz i (Nat.zero_le i) hi⟩
  case isFalse => exact ⟨fun hd i _ hi => hd i hi, fun hd i hi => hd i (Nat.zero_le i) hi⟩

/-- In a sequence of page accesses to a new file every read gives what was
written last exactly when every read is served. -/
theorem readsBack_iff {ops : List DiskOp} (hops : ∀ op ∈ ops, op.IsPageAccess) :
    ReadsBack ops ↔ ReadsServed ops := by
  apply forall_congr'
  intro before
  apply forall_congr'
  intro p
  apply forall_congr'
  intro data
  apply forall_congr'
  intro rest
  apply forall_congr'
  rintro rfl
  apply agreeOn_readPage_iff
  · exact hops (.readPage p data) (by simp)
  · exact holdsPages_after fun op hop => hops op (List.mem_append_left _ hop)

/-- A page is written and read. -/
theorem readsBack_written :
    ReadsBack [.writePage 0 (fun _ => 1), .readPage 0 (fun _ => 0)] ↔
      ReadsServed [.writePage 0 (fun _ => 1), .readPage 0 (fun _ => 0)] :=
  readsBack_iff (by simp [DiskOp.IsPageAccess, PageId.Addressable, pageSize])

/-- Between the two the page behind the end of the file is read. -/
theorem not_readsBack_after_end :
    ¬ReadsBack [.writePage 0 (fun _ => 1), .readPage 1 (fun _ => 0), .readPage 0 (fun _ => 0)] := by
  intro h
  have hback := h [.writePage 0 (fun _ => 1), .readPage 1 (fun _ => 0)] 0 (fun _ => 0) [] rfl 0
    le_rfl (by decide)
  have hzero : PageId.Addressable 0 := ⟨le_rfl, by decide⟩
  have hone : PageId.Addressable 1 := ⟨by decide, by decide⟩
  have hend : toInt32 512 = 512 := toInt32_of_nonneg (by decide) (by decide)
  -- page 1 starts at the end of the file
  have hfail : (after [.writePage 0 (fun _ => 1), .readPage 1 (fun _ => 0)]).failbit = true := by
    simp only [after, specAll_cons, specAll_nil, step, readPage_failbit _ hone,
      writePage_of_addressable _ hzero, DbFile.write, Memory.length_read]
    simp [openFile, DbFile.created, getFileSize, pageSize, hend]
  rw [readPage_of_addressable _ hzero (by decide), hfail] at hback
  simp [onPages, lastWritten] at hback

end DiskManager

end ScuDb
