import ScuDb.Buffer.LruReplacer
import ScuDb.Common.Config
import ScuDb.Foundations.Program
import ScuDb.Hash.ExtendibleHash

/-!
The buffer pool, `buffer_pool_manager.cpp`, with its four structures: the
frames, the free list, the replacer and the page table.

The disk under it keeps what was last written to a page, zeros before,
and gives out page ids by counting up. Frames are named by their index in
`pages_`, which stands for the pointer to them.
-/

namespace ScuDb

open Foundations

/-- The bytes of a page. -/
abbrev PageData := Fin pageSize → UInt8

/-- A page of zeros, what `ResetMemory` leaves. -/
def PageData.zero : PageData := fun _ => 0

/-- What the buffer pool sees of the disk manager. -/
structure Disk where
  pages : PageId → PageData
  nextPageId : PageId

/-- A disk on which nothing has been allocated or written. -/
def Disk.blank : Disk := ⟨fun _ => PageData.zero, 0⟩

/-- `WritePage` -/
def Disk.writePage (d : Disk) (id : PageId) (data : PageData) : Disk :=
  { d with pages := Function.update d.pages id data }

/-- `DeallocatePage`, which has no effect -/
def Disk.deallocatePage (d : Disk) (_id : PageId) : Disk := d

/-- A `Page`, which is a frame of the pool. -/
structure Page where
  data : PageData
  pageId : PageId
  pinCount : Int
  isDirty : Bool

/-- A `BufferPoolManager` -/
structure BufferPoolManager where
  poolSize : Nat
  pages : Nat → Page
  pageTable : ExtendibleHash PageId Nat
  replacer : LruReplacer Nat
  freeList : List Nat
  disk : Disk

/-- `BUCKET_SIZE` -/
def bucketSize : Nat := 50

/-- `std::hash<page_id_t>`: the id converted to `size_t`. -/
def hashPageId (id : PageId) : Nat :=
  if 0 ≤ id then id.toNat else (18446744073709551616 + id).toNat

namespace BufferPoolManager

/-- The constructor. -/
def create (poolSize : Nat) : BufferPoolManager where
  poolSize := poolSize
  pages := fun _ => ⟨PageData.zero, invalidPageId, 0, false⟩
  pageTable := ExtendibleHash.empty bucketSize
  replacer := LruReplacer.empty
  freeList := List.range poolSize
  disk := Disk.blank

/-- A computation of the buffer pool. -/
abbrev PoolM := Program Fault BufferPoolManager

/-- `page_table_->Find` -/
def find (b : BufferPoolManager) (id : PageId) : Option Nat := b.pageTable.find hashPageId id

/-- Write the fields of a frame. -/
def setPage (b : BufferPoolManager) (tar : Nat) (page : Page) : BufferPoolManager :=
  { b with pages := Function.update b.pages tar page }

/-- `GetVictimPage` -/
def getVictimPage : PoolM (Option Nat) := do
  let b ← get
  match b.freeList with
  | [] =>
      if b.replacer.size = 0 then pure none
      else
        set { b with replacer := b.replacer.victim.2 }
        match b.replacer.victim.1 with
        | none => pure none
        | some tar =>
            require ((b.pages tar).pinCount = 0) .assertFailed
            pure (some tar)
  | tar :: rest =>
      set { b with freeList := rest }
      require ((b.pages tar).pageId = invalidPageId) .assertFailed
      require ((b.pages tar).pinCount = 0) .assertFailed
      pure (some tar)

/-- Steps 2 and 3 of `FetchPage` and `NewPage`: write the old page back
when it is dirty, and give its frame to `id` in the page table. The keys
of the table are ids that have been allocated, so `Insert` splits buckets
no more often than there are such ids. -/
def rehash (id : PageId) (tar : Nat) : PoolM Unit := do
  let b ← get
  let old := b.pages tar
  let disk := if old.isDirty then b.disk.writePage old.pageId old.data else b.disk
  let table := (b.pageTable.remove hashPageId old.pageId).2
  match table.insert hashPageId (disk.nextPageId.toNat + 1) id tar with
  | none => throw .outOfFuel
  | some table => set { b with disk := disk, pageTable := table }

/-- `FetchPage` -/
def fetchPage (id : PageId) : PoolM (Option Nat) := do
  let b ← get
  match b.find id with
  | some tar =>
      let page := b.pages tar
      let b := b.setPage tar { page with pinCount := page.pinCount + 1 }
      set { b with replacer := (b.replacer.erase tar).2 }
      pure (some tar)
  | none =>
      match ← getVictimPage with
      | none => pure none
      | some tar =>
          rehash id tar
          modify fun b =>
            b.setPage tar { data := b.disk.pages id, pageId := id, pinCount := 1, isDirty := false }
          pure (some tar)

/-- `UnpinPage` -/
def unpinPage (id : PageId) (isDirty : Bool) : PoolM Bool := do
  let b ← get
  match b.find id with
  | none => pure false
  | some tar =>
      let page := b.pages tar
      let page := { page with isDirty := page.isDirty || isDirty }
      set (b.setPage tar page)
      require (0 < page.pinCount) .assertFailed
      let page := { page with pinCount := page.pinCount - 1 }
      let b := b.setPage tar page
      set (if page.pinCount = 0 then { b with replacer := b.replacer.insert tar } else b)
      pure true

/-- `FlushPage` -/
def flushPage (id : PageId) : PoolM Bool := do
  let b ← get
  match b.find id with
  | none => pure false
  | some tar =>
      let page := b.pages tar
      if page.pageId = invalidPageId then pure false
      else
        if page.isDirty then
          set { b.setPage tar { page with isDirty := false } with
            disk := b.disk.writePage id page.data }
        pure true

/-- `DeletePage` -/
def deletePage (id : PageId) : PoolM Bool := do
  let b ← get
  match b.find id with
  | some tar =>
      let page := b.pages tar
      if 0 < page.pinCount then pure false
      else
        let page :=
          { page with isDirty := false, data := PageData.zero, pageId := invalidPageId }
        let b := b.setPage tar page
        set { b with
          replacer := (b.replacer.erase tar).2
          pageTable := (b.pageTable.remove hashPageId id).2
          freeList := b.freeList ++ [tar]
          disk := b.disk.deallocatePage id }
        pure true
  | none =>
      set { b with disk := b.disk.deallocatePage id }
      pure true

/-- `NewPage`: the id and the frame of the new page. -/
def newPage : PoolM (Option (PageId × Nat)) := do
  match ← getVictimPage with
  | none => pure none
  | some tar =>
      let b ← get
      let id := b.disk.nextPageId
      set { b with disk := { b.disk with nextPageId := id + 1 } }
      rehash id tar
      modify fun b =>
        b.setPage tar { data := PageData.zero, pageId := id, pinCount := 1, isDirty := false }
      pure (some (id, tar))

end BufferPoolManager

end ScuDb
