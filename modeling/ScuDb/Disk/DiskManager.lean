import Mathlib.Data.Int.ModEq
import Mathlib.Data.Nat.ModEq
import ScuDb.Common.Config
import ScuDb.Foundations.Memory
import ScuDb.Foundations.Refinement

/-!
The disk manager, `disk_manager.cpp`, over the history of one database
file.

The bytes of the file are what outlives a session. The stream `db_io_`
and the counter `next_page_id_` belong to the session: the constructor
opens the stream on whatever the file holds and starts the counter at 0.
Arithmetic on `page_id_t` and on `int` offsets is taken modulo 2 ^ 32.
-/

namespace ScuDb

open Foundations

/-- The value of an `int` that the arithmetic result `z` is stored in. -/
def toInt32 (z : Int) : Int := z.bmod 4294967296

theorem toInt32_add_one (z : Int) : toInt32 (toInt32 z + 1) = toInt32 (z + 1) := by
  show ((z.bmod 4294967296) + 1).bmod 4294967296 = (z + 1).bmod 4294967296
  rw [Int.bmod_add_bmod]

@[simp] theorem toInt32_zero : toInt32 0 = 0 := by simp [toInt32]

theorem toInt32_natCast_eq_iff (m n : Nat) :
    toInt32 m = toInt32 n ↔ m ≡ n [MOD 4294967296] := by
  have hbmod : toInt32 m = toInt32 n ↔ (m : Int) % 4294967296 = (n : Int) % 4294967296 := by
    simp only [toInt32, Int.bmod]
    omega
  rw [hbmod]
  show _ ↔ m % 4294967296 = n % 4294967296
  omega

/-- The database file: its bytes and its length. -/
structure DbFile where
  bytes : Memory
  size : Nat

/-- A file that has just been created. -/
def DbFile.created : DbFile := ⟨fun _ => 0, 0⟩

/-- `write` at an offset; a gap between the old end and the offset reads
as zeros. -/
def DbFile.write (f : DbFile) (offset : Nat) (data : List UInt8) : DbFile where
  bytes := Memory.memcpy (fun i => if i < f.size then f.bytes i else 0) offset data
  size := max f.size (offset + data.length)

/-- A `DiskManager`. `failbit` is the state of `db_io_`: while it is set,
`seekp`, `read` and `write` do nothing. -/
structure DiskManager where
  file : DbFile
  failbit : Bool
  nextPageId : PageId

namespace DiskManager

/-- The constructor. -/
def openFile (file : DbFile) : DiskManager where
  file := file
  failbit := false
  nextPageId := 0

/-- `GetFileSize`, whose result is an `int` -/
def getFileSize (d : DiskManager) : Int := toInt32 d.file.size

/-- `WritePage` -/
def writePage (d : DiskManager) (pageId : PageId) (pageData : Memory) : DiskManager :=
  let offset := toInt32 (pageId * pageSize)
  if d.failbit then d
  else if offset < 0 then { d with failbit := true }
  else { d with file := d.file.write offset.toNat (pageData.read 0 pageSize) }

/-- `ReadPage`: what the caller's buffer holds afterwards. -/
def readPage (d : DiskManager) (pageId : PageId) (pageData : Memory) : Memory × DiskManager :=
  let offset := toInt32 (pageId * pageSize)
  if d.getFileSize < offset then (pageData, d)
  else
    -- a seek to a negative offset fails, and then nothing is read
    let readCount :=
      if d.failbit ∨ offset < 0 then 0 else min pageSize (d.file.size - offset.toNat)
    let pageData := pageData.memcpy 0
      (d.file.bytes.read offset.toNat readCount ++ List.replicate (pageSize - readCount) 0)
    -- end of file, like a failed seek, sets `failbit`; nothing clears it
    (pageData, { d with failbit := decide (readCount < pageSize) })

/-- `AllocatePage`: `return next_page_id_++` -/
def allocatePage (d : DiskManager) : PageId × DiskManager :=
  (d.nextPageId, { d with nextPageId := toInt32 (d.nextPageId + 1) })

/-- `DeallocatePage`, which has no effect -/
def deallocatePage (d : DiskManager) (_pageId : PageId) : DiskManager := d

end DiskManager

/-- What happens to a database file: the calls of a session, and the end
of a session followed by the constructor of the next. -/
inductive DiskOp
  | reopen
  | allocatePage
  | deallocatePage (pageId : PageId)
  | writePage (pageId : PageId) (pageData : Memory)
  | readPage (pageId : PageId) (pageData : Memory)

/-- What a call hands to its caller. -/
inductive DiskResult
  | none
  | pageId (id : PageId)
  | page (pageData : Memory)

namespace DiskManager

/-- The effect of one operation on the file and the session. -/
def step : DiskOp → DiskManager → DiskResult × DiskManager
  | .reopen, d => (.none, openFile d.file)
  | .allocatePage, d => (.pageId d.allocatePage.1, d.allocatePage.2)
  | .deallocatePage id, d => (.none, d.deallocatePage id)
  | .writePage id data, d => (.none, d.writePage id data)
  | .readPage id data, d => (.page (d.readPage id data).1, (d.readPage id data).2)

/-- The disk manager after a history that starts with a new file. -/
def after (ops : List DiskOp) : DiskManager := (specAll step ops (openFile .created)).2

/-- The id an `AllocatePage` after the history `ops` returns. -/
def allocated (ops : List DiskOp) : PageId := (after ops).allocatePage.1

/-- No `AllocatePage` of the history returns an id that an earlier one
returned and that has not been deallocated since. -/
def AllocatesFresh (ops : List DiskOp) : Prop :=
  ∀ before between rest,
    ops = before ++ .allocatePage :: (between ++ .allocatePage :: rest) →
    allocated (before ++ .allocatePage :: between) = allocated before →
    .deallocatePage (allocated before) ∈ between

/-- The number of `AllocatePage` calls one operation leaves the session
with, when it had `n` before. -/
def countCall (n : Nat) : DiskOp → Nat
  | .reopen => 0
  | .allocatePage => n + 1
  | _ => n

/-- The number of `AllocatePage` calls since the file was last opened. -/
def sessionCalls (ops : List DiskOp) : Nat := ops.foldl countCall 0

/-! ### The counter follows the calls of the session -/

theorem writePage_nextPageId (d : DiskManager) (id : PageId) (data : Memory) :
    (d.writePage id data).nextPageId = d.nextPageId := by
  simp only [writePage]
  split
  · rfl
  · split <;> rfl

theorem readPage_nextPageId (d : DiskManager) (id : PageId) (data : Memory) :
    (d.readPage id data).2.nextPageId = d.nextPageId := by
  simp only [readPage]
  split <;> rfl

theorem step_nextPageId {d : DiskManager} {n : Nat} (op : DiskOp)
    (h : d.nextPageId = toInt32 n) :
    (step op d).2.nextPageId = toInt32 (countCall n op : Nat) := by
  cases op with
  | reopen => exact toInt32_zero.symm
  | allocatePage =>
      show toInt32 (d.nextPageId + 1) = toInt32 ((n + 1 : Nat) : Int)
      rw [h, toInt32_add_one, Nat.cast_add, Nat.cast_one]
  | deallocatePage id => exact h
  | writePage id data => exact (d.writePage_nextPageId id data).trans h
  | readPage id data => exact (d.readPage_nextPageId id data).trans h

theorem specAll_nextPageId (ops : List DiskOp) {d : DiskManager} {n : Nat}
    (h : d.nextPageId = toInt32 n) :
    (specAll step ops d).2.nextPageId = toInt32 (ops.foldl countCall n : Nat) := by
  induction ops generalizing d n with
  | nil => exact h
  | cons op ops ih =>
      rw [specAll_cons, List.foldl_cons]
      exact ih (step_nextPageId op h)

/-- What `AllocatePage` returns is the number of its calls made in the
session so far, whatever earlier sessions allocated. -/
theorem allocated_eq (ops : List DiskOp) : allocated ops = toInt32 (sessionCalls ops : Nat) := by
  apply specAll_nextPageId ops
  exact toInt32_zero.symm

theorem allocated_of_first {ops : List DiskOp} (h : sessionCalls ops = 0) :
    allocated ops = headerPageId := by
  rw [allocated_eq, h]
  exact toInt32_zero

/-- Page ids are not given out twice exactly when, of two calls that are
the same in number, modulo 2 ^ 32, in their sessions, the page of the
first is deallocated before the second is made. -/
theorem allocatesFresh_iff (ops : List DiskOp) :
    AllocatesFresh ops ↔
      ∀ before between rest,
        ops = before ++ .allocatePage :: (between ++ .allocatePage :: rest) →
        sessionCalls (before ++ .allocatePage :: between) ≡ sessionCalls before
          [MOD 4294967296] →
        .deallocatePage (toInt32 (sessionCalls before : Nat)) ∈ between := by
  simp only [AllocatesFresh, allocated_eq, toInt32_natCast_eq_iff]

/-- The header page is created in a first session, and the first page of
a second session gets its id. -/
theorem header_allocated_twice :
    ¬AllocatesFresh
        [.allocatePage, .writePage headerPageId (fun _ => 0), .reopen, .allocatePage] ∧
      allocated [.allocatePage, .writePage headerPageId (fun _ => 0), .reopen] =
        headerPageId := by
  refine ⟨fun h => ?_, allocated_of_first rfl⟩
  have hfree := h [] [.writePage headerPageId (fun _ => 0), .reopen] [] rfl
    ((allocated_of_first rfl).trans (allocated_of_first rfl).symm)
  simp at hfree

/-! ### One session -/

theorem le_foldl_countCall {ops : List DiskOp} (hopen : .reopen ∉ ops) (n : Nat) :
    n ≤ ops.foldl countCall n := by
  induction ops generalizing n with
  | nil => exact le_rfl
  | cons op ops ih =>
      obtain ⟨hop, hrest⟩ := not_or.mp (List.mem_cons.not.mp hopen)
      have hstep : n ≤ countCall n op := by
        cases op with
        | reopen => exact absurd rfl hop
        | allocatePage => exact Nat.le_succ n
        | deallocatePage id => exact le_rfl
        | writePage id data => exact le_rfl
        | readPage id data => exact le_rfl
      exact hstep.trans (ih hrest _)

theorem sessionCalls_lt (before : List DiskOp) {rest : List DiskOp} (hopen : .reopen ∉ rest) :
    sessionCalls before < sessionCalls (before ++ .allocatePage :: rest) := by
  have hcount : sessionCalls (before ++ .allocatePage :: rest) =
      rest.foldl countCall (sessionCalls before + 1) := by
    rw [sessionCalls, List.foldl_append]
    rfl
  rw [hcount]
  exact le_foldl_countCall hopen _

/-- A session on a new file is given fresh ids as long as it makes no
more than 2 ^ 32 calls. -/
theorem allocatesFresh_of_one_session {ops : List DiskOp} (hopen : .reopen ∉ ops)
    (hcalls : sessionCalls ops ≤ 4294967296) : AllocatesFresh ops := by
  rw [allocatesFresh_iff]
  rintro before between rest rfl hmod
  simp only [List.mem_append, List.mem_cons, not_or] at hopen
  have hfirst := sessionCalls_lt before hopen.2.2.1
  have hsecond := sessionCalls_lt (before ++ .allocatePage :: between) hopen.2.2.2.2
  rw [List.append_assoc, List.cons_append] at hsecond
  -- the two counts differ and are less than 2 ^ 32 apart
  have hne := (Nat.modEq_iff_dvd' hfirst.le).mp hmod.symm
  have hle := Nat.le_of_dvd (by omega) hne
  omega

end DiskManager

end ScuDb
