import ScuDb.Buffer.BufferPoolManager

/-!
What holds of the buffer pool between its operations: every frame is
free, idle or pinned, and the page table leads from a page id to the
frame of the page.

`Consistent` is the invariant. It is stated for a pool from which a frame
may have been taken out and not been given a page yet, since that is what
`GetVictimPage` leaves; between operations no frame is out. What the
operations do to the pages is stated on a `Cache`, in which frames are
forgotten: which pages are resident, with which contents, and what the
disk holds.
-/

namespace ScuDb

open Foundations

/-- The pages in the pool and on disk, without the frames. -/
@[ext]
structure Cache where
  resident : PageId → Option Page
  disk : PageId → PageData

namespace Cache

/-- Page `id` is resident as `page`. -/
def load (c : Cache) (id : PageId) (page : Page) : Cache :=
  { c with resident := Function.update c.resident id (some page) }

/-- Page `id` is not resident any more. -/
def drop (c : Cache) (id : PageId) : Cache :=
  { c with resident := Function.update c.resident id none }

/-- The disk holds `data` for page `id`. -/
def write (c : Cache) (id : PageId) (data : PageData) : Cache :=
  { c with disk := Function.update c.disk id data }

/-- Page `id` gives up its frame; it is written back if it is dirty. -/
def evict (c : Cache) (id : PageId) : Cache :=
  match c.resident id with
  | none => c
  | some page => if page.isDirty then (c.write id page.data).drop id else c.drop id

theorem evict_of_absent {c : Cache} {id : PageId} (h : c.resident id = none) :
    c.evict id = c := by
  rw [evict, h]

theorem evict_of_ne (c : Cache) {id k : PageId} (hk : k ≠ id) :
    (c.evict id).resident k = c.resident k ∧ (c.evict id).disk k = c.disk k := by
  rw [evict]
  split
  · exact ⟨rfl, rfl⟩
  · split <;> simp [drop, write, hk]

theorem evict_self {c : Cache} {id : PageId} {page : Page} (h : c.resident id = some page) :
    (c.evict id).resident id = none ∧
      (c.evict id).disk id = if page.isDirty then page.data else c.disk id := by
  simp only [evict, h]
  split <;> simp [drop, write]

end Cache

namespace BufferPoolManager

variable {b : BufferPoolManager} {queue : List Nat} {out : Option Nat} {tar f : Nat}
  {id : PageId}

/-- The pages of the pool and of its disk. -/
def cache (b : BufferPoolManager) : Cache where
  resident := fun id => (b.find id).map b.pages
  disk := b.disk.pages

/-- Pages that are pinned stay in their frames. -/
def Keeps (b b' : BufferPoolManager) : Prop :=
  ∀ k f, b.find k = some f → 0 < (b.pages f).pinCount → b'.find k = some f

theorem Keeps.refl (b : BufferPoolManager) : b.Keeps b := fun _ _ hf _ => hf

/-- The structures of the pool agree. `queue` lists the frames in the
replacer, `out` is the frame that has been taken out of use, if any. -/
structure Consistent (b : BufferPoolManager) (queue : List Nat) (out : Option Nat) : Prop where
  replacer : b.replacer.Represents queue
  table : b.pageTable.Wf hashPageId
  size : 0 < b.pageTable.mBucketSize
  next : 0 ≤ b.disk.nextPageId
  freeNodup : b.freeList.Nodup
  free : ∀ f ∈ b.freeList, f < b.poolSize ∧ f ∉ queue ∧ (b.pages f).pinCount = 0 ∧
    (b.pages f).pageId = invalidPageId ∧ (b.pages f).isDirty = false
  idle : ∀ f ∈ queue, f < b.poolSize ∧ (b.pages f).pinCount = 0
  pinned : ∀ f < b.poolSize, f ∉ b.freeList → f ∉ queue → out ≠ some f →
    0 < (b.pages f).pinCount
  resident : ∀ f < b.poolSize, f ∉ b.freeList → out ≠ some f →
    b.find (b.pages f).pageId = some f
  found : ∀ id f, b.find id = some f → f < b.poolSize ∧ f ∉ b.freeList ∧
    (b.pages f).pageId = id ∧ 0 ≤ id ∧ id < b.disk.nextPageId
  taken : ∀ f, out = some f → f < b.poolSize ∧ f ∉ b.freeList ∧ f ∉ queue ∧
    (b.pages f).pinCount = 0 ∧
    (b.find (b.pages f).pageId = some f ∨
      (b.pages f).pageId = invalidPageId ∧ (b.pages f).isDirty = false)

theorem consistent_create (poolSize : Nat) : (create poolSize).Consistent [] none := by
  have hfind (id : PageId) : (create poolSize).find id = none := rfl
  constructor
  case replacer => exact LruReplacer.represents_empty
  case table => exact ExtendibleHash.Wf.empty bucketSize
  case size => exact (by decide : 0 < bucketSize)
  case next => exact le_rfl
  case freeNodup => exact List.nodup_range
  case free =>
    intro f hf
    exact ⟨List.mem_range.mp hf, List.not_mem_nil, rfl, rfl, rfl⟩
  case idle => simp
  case pinned =>
    intro f hf hfree
    exact absurd (List.mem_range.mpr hf) hfree
  case resident =>
    intro f hf hfree
    exact absurd (List.mem_range.mpr hf) hfree
  case found =>
    intro id f hf
    rw [hfind] at hf
    cases hf
  case taken => simp

/-! ### Taking a frame and giving it a page -/

theorem Consistent.take_free (h : b.Consistent queue none) {rest : List Nat}
    (hfree : b.freeList = tar :: rest) :
    Consistent { b with freeList := rest } queue (some tar) := by
  obtain ⟨hlt, hqueue, hpin, hid, hdirty⟩ := h.free tar (by simp [hfree])
  have hnodup := h.freeNodup
  rw [hfree] at hnodup
  have hmem (f : Nat) (hf : f ∉ rest) (hne : some tar ≠ some f) : f ∉ b.freeList := by
    rw [hfree, List.mem_cons, not_or]
    exact ⟨fun heq => hne (congrArg some heq.symm), hf⟩
  constructor
  case replacer => exact h.replacer
  case table => exact h.table
  case size => exact h.size
  case next => exact h.next
  case freeNodup => exact hnodup.of_cons
  case free =>
    intro f hf
    exact h.free f (by rw [hfree]; exact List.mem_cons_of_mem tar hf)
  case idle => exact h.idle
  case pinned =>
    intro f hlt hf hq hne
    exact h.pinned f hlt (hmem f hf hne) hq (by simp)
  case resident =>
    intro f hlt hf hne
    exact h.resident f hlt (hmem f hf hne) (by simp)
  case found =>
    intro id f hf
    obtain ⟨hlt, hout, hrest⟩ := h.found id f hf
    rw [hfree, List.mem_cons, not_or] at hout
    exact ⟨hlt, hout.2, hrest⟩
  case taken =>
    rintro f ⟨⟩
    exact ⟨hlt, (List.nodup_cons.mp hnodup).1, hqueue, hpin, Or.inr ⟨hid, hdirty⟩⟩

theorem Consistent.take_idle (h : b.Consistent (queue ++ [tar]) none)
    {r : LruReplacer Nat} (hr : r.Represents queue) :
    Consistent { b with replacer := r } queue (some tar) := by
  have hmem : tar ∈ queue ++ [tar] := by simp
  have hnodup := h.replacer.nodup
  obtain ⟨hlt, hpin⟩ := h.idle tar hmem
  have hfree : tar ∉ b.freeList := fun hf => (h.free tar hf).2.1 hmem
  constructor
  case replacer => exact hr
  case table => exact h.table
  case size => exact h.size
  case next => exact h.next
  case freeNodup => exact h.freeNodup
  case free =>
    intro f hf
    obtain ⟨hlt, hq, hrest⟩ := h.free f hf
    exact ⟨hlt, fun hin => hq (List.mem_append_left _ hin), hrest⟩
  case idle =>
    intro f hf
    exact h.idle f (List.mem_append_left _ hf)
  case pinned =>
    intro f hlt hf hq hne
    apply h.pinned f hlt hf _ (by simp)
    rw [List.mem_append, List.mem_singleton, not_or]
    exact ⟨hq, fun heq => hne (congrArg some heq.symm)⟩
  case resident =>
    intro f hlt hf _
    exact h.resident f hlt hf (by simp)
  case found => exact h.found
  case taken =>
    rintro f ⟨⟩
    have hqueue : tar ∉ queue := fun hin =>
      List.disjoint_of_nodup_append hnodup hin (List.mem_singleton_self tar)
    exact ⟨hlt, hfree, hqueue, hpin, Or.inl (h.resident tar hlt hfree (by simp))⟩

/-- Every frame is pinned. -/
def AllPinned (b : BufferPoolManager) : Prop := ∀ f < b.poolSize, 0 < (b.pages f).pinCount

/-- The frame comes from the free list, or, when that is empty, from the
end of the queue. -/
def Chooses (b : BufferPoolManager) (queue : List Nat) (tar : Nat) (queue' : List Nat) : Prop :=
  tar ∈ b.freeList ∧ queue' = queue ∨ b.freeList = [] ∧ queue = queue' ++ [tar]

/-- What `GetVictimPage` leaves: the frame it chose is out, or, when it
chose none, all frames are pinned and nothing has changed. No assertion
fails. -/
theorem wp_getVictimPage (h : b.Consistent queue none) :
    wp getVictimPage (fun r b' => match r with
      | none => b' = b ∧ b.AllPinned
      | some tar => ∃ queue', b'.Consistent queue' (some tar) ∧
          b'.poolSize = b.poolSize ∧ b'.pages = b.pages ∧ b'.pageTable = b.pageTable ∧
          b'.disk = b.disk ∧ b.Chooses queue tar queue') b := by
  rw [getVictimPage, wp_bind, wp_get]
  cases hfree : b.freeList with
  | cons tar rest =>
      obtain ⟨-, -, hpin, hid, -⟩ := h.free tar (by simp [hfree])
      simp only [wp_bind, wp_set, wp_require, wp_pure]
      refine ⟨hid, hpin, queue, h.take_free hfree, trivial, trivial, trivial, trivial,
        Or.inl ⟨?_, rfl⟩⟩
      simp [hfree]
  | nil =>
      have hsize : ¬b.replacer.size = 0 := Nat.one_ne_zero
      rw [if_neg hsize, wp_bind, wp_set, ← hfree]
      rcases List.eq_nil_or_concat' queue with rfl | ⟨rest, tar, rfl⟩
      · -- no frame is free or idle
        rw [h.replacer.victim_of_nil]
        simp only [wp_pure, true_and]
        exact fun f hf => h.pinned f hf (by simp [hfree]) (by simp) (by simp)
      · -- the least recent idle frame
        obtain ⟨hvictim, hrest⟩ := h.replacer.victim
        rw [List.getLast?_concat] at hvictim
        rw [List.dropLast_concat] at hrest
        rw [hvictim]
        simp only [wp_bind, wp_require, wp_pure]
        exact ⟨(h.idle tar (by simp)).2, rest, h.take_idle hrest, trivial, trivial, trivial,
          trivial, Or.inr ⟨hfree, rfl⟩⟩

/-- Two ids below a bound have different low bits in their hashes. -/
theorem hashPageId_apart {id id' next : PageId} (hlo : 0 ≤ id) (hhi : id < next)
    (hlo' : 0 ≤ id') (hhi' : id' < next)
    (hbits : hashPageId id ≡ hashPageId id' [MOD 2 ^ next.toNat]) : id = id' := by
  have hpow := Nat.lt_two_pow_self (n := next.toNat)
  rw [hashPageId, hashPageId, if_pos hlo, if_pos hlo'] at hbits
  have hlt (i : PageId) (h0 : 0 ≤ i) (h1 : i < next) : i.toNat < 2 ^ next.toNat :=
    ((Int.toNat_lt_toNat (lt_of_le_of_lt h0 h1)).mpr h1).trans hpow
  have heq := hbits.eq_of_lt_of_lt (hlt id hlo hhi) (hlt id' hlo' hhi')
  rw [← Int.toNat_of_nonneg hlo, heq, Int.toNat_of_nonneg hlo']

/-- The disk after the page in frame `tar` has been written back, if need be. -/
def writtenBack (b : BufferPoolManager) (tar : Nat) : Disk :=
  if (b.pages tar).isDirty then b.disk.writePage (b.pages tar).pageId (b.pages tar).data
  else b.disk

theorem writtenBack_nextPageId (b : BufferPoolManager) (tar : Nat) :
    (b.writtenBack tar).nextPageId = b.disk.nextPageId := by
  rw [writtenBack]
  split <;> rfl

theorem wp_rehash (h : b.Consistent queue (some tar)) (hlo : 0 ≤ id)
    (hhi : id < b.disk.nextPageId) (hnew : b.find id = none) :
    wp (rehash id tar) (fun _ b' => ∃ table, table.Wf hashPageId ∧ 0 < table.mBucketSize ∧
      (∀ k, table.find hashPageId k =
        if k = id then some tar else if k = (b.pages tar).pageId then none else b.find k) ∧
      b' = { b with disk := b.writtenBack tar, pageTable := table }) b := by
  obtain ⟨hwf, -, hremoved⟩ := h.table.remove (b.pages tar).pageId
  have hsize : 0 < (b.pageTable.remove hashPageId (b.pages tar).pageId).2.mBucketSize := by
    rw [ExtendibleHash.remove_mBucketSize]
    exact h.size
  have hinsert : ((b.pageTable.remove hashPageId (b.pages tar).pageId).2.insert hashPageId
      ((b.writtenBack tar).nextPageId.toNat + 1) id tar).isSome := by
    rw [writtenBack_nextPageId]
    apply hwf.insertLoop_isSome hsize _ (Nat.le_add_right _ _)
    intro k hk hbits
    rw [hremoved k] at hk
    split at hk
    case isTrue => cases hk
    case isFalse =>
      obtain ⟨f, hf⟩ := Option.isSome_iff_exists.mp hk
      obtain ⟨-, -, -, hlo', hhi'⟩ := h.found k f hf
      exact hashPageId_apart hlo' hhi' hlo hhi hbits
  obtain ⟨table, htable⟩ := Option.isSome_iff_exists.mp hinsert
  obtain ⟨hwf', hsize', hfind⟩ := hwf.insertLoop htable
  have htable' : (b.pageTable.remove hashPageId (b.pages tar).pageId).2.insert hashPageId
      ((if (b.pages tar).isDirty = true then
          b.disk.writePage (b.pages tar).pageId (b.pages tar).data
        else b.disk).nextPageId.toNat + 1) id tar = some table := htable
  simp only [rehash, wp_bind, wp_get, htable', wp_set]
  refine ⟨table, hwf', hsize' ▸ hsize, fun k => ?_, rfl⟩
  have hid : (b.pageTable.remove hashPageId (b.pages tar).pageId).2.find hashPageId id = none := by
    rw [hremoved id]
    split
    · rfl
    · exact hnew
  rw [hfind k, hid, Option.getD_none, hremoved k]
  rfl

theorem Consistent.not_found_invalid (h : b.Consistent queue out) :
    b.find invalidPageId = none := by
  cases hf : b.find invalidPageId with
  | none => rfl
  | some f =>
      obtain ⟨-, -, -, hlo, -⟩ := h.found _ _ hf
      exact absurd hlo (by decide)

/-- A frame in use whose page the frame that is out had before. -/
theorem Consistent.eq_of_old (h : b.Consistent queue (some tar))
    (hf : b.find (b.pages tar).pageId = some f) : f = tar := by
  obtain ⟨-, -, -, -, hold | ⟨hinvalid, -⟩⟩ := h.taken tar rfl
  · exact Option.some.inj (hf.symm.trans hold)
  · rw [hinvalid, h.not_found_invalid] at hf
    cases hf

section Install

variable {table : ExtendibleHash PageId Nat} {page : Page}

/-- The pool after a page has been put into the frame that was out. -/
def install (b : BufferPoolManager) (tar : Nat) (table : ExtendibleHash PageId Nat)
    (page : Page) : BufferPoolManager :=
  { b with disk := b.writtenBack tar, pageTable := table }.setPage tar page

theorem install_pages_self : (b.install tar table page).pages tar = page := by
  simp [install, setPage]

theorem install_pages_of_ne (hf : f ≠ tar) : (b.install tar table page).pages f = b.pages f := by
  simp [install, setPage, hf]

variable (h : b.Consistent queue (some tar)) (hlo : 0 ≤ page.pageId)
  (hhi : page.pageId < b.disk.nextPageId) (hnew : b.find page.pageId = none)
  (hfind : ∀ k, table.find hashPageId k =
    if k = page.pageId then some tar else if k = (b.pages tar).pageId then none else b.find k)
include h hfind

/-- Pages other than the new one and the old one stay in their frames. -/
theorem Consistent.found_install {k : PageId} (hk : k ≠ page.pageId) :
    table.find hashPageId k = some f ↔ b.find k = some f ∧ f ≠ tar := by
  rw [hfind k, if_neg hk]
  constructor
  · intro hf
    split at hf
    case isTrue => cases hf
    case isFalse hold =>
      refine ⟨hf, ?_⟩
      rintro rfl
      exact hold (h.found k f hf).2.2.1.symm
  · rintro ⟨hf, hne⟩
    rw [if_neg]
    · exact hf
    · rintro rfl
      exact hne (h.eq_of_old hf)

include hlo hhi hnew

theorem Consistent.install (hwf : table.Wf hashPageId) (hsize : 0 < table.mBucketSize)
    (hpin : 0 < page.pinCount) : (b.install tar table page).Consistent queue none := by
  obtain ⟨htar, hfree, hqueue, -, -⟩ := h.taken tar rfl
  have hnext : (b.install tar table page).disk.nextPageId = b.disk.nextPageId :=
    b.writtenBack_nextPageId tar
  have hself : table.find hashPageId page.pageId = some tar := by rw [hfind, if_pos rfl]
  constructor
  case replacer => exact h.replacer
  case table => exact hwf
  case size => exact hsize
  case next => exact hnext ▸ h.next
  case freeNodup => exact h.freeNodup
  case free =>
    intro f hf
    have hne : f ≠ tar := fun heq => hfree (heq ▸ hf)
    rw [install_pages_of_ne hne]
    exact h.free f hf
  case idle =>
    intro f hf
    have hne : f ≠ tar := fun heq => hqueue (heq ▸ hf)
    rw [install_pages_of_ne hne]
    exact h.idle f hf
  case pinned =>
    intro f hlt hf hq _
    by_cases hne : f = tar
    · rw [hne, install_pages_self]
      exact hpin
    · rw [install_pages_of_ne hne]
      exact h.pinned f hlt hf hq fun heq => hne (Option.some.inj heq).symm
  case resident =>
    intro f hlt hf _
    show table.find hashPageId _ = some f
    by_cases hne : f = tar
    · rw [hne, install_pages_self]
      exact hself
    · rw [install_pages_of_ne hne]
      have hold := h.resident f hlt hf fun heq => hne (Option.some.inj heq).symm
      have hk : (b.pages f).pageId ≠ page.pageId := by
        intro heq
        rw [heq, hnew] at hold
        cases hold
      exact (h.found_install hfind hk).mpr ⟨hold, hne⟩
  case found =>
    intro k f hf
    rw [hnext]
    by_cases hk : k = page.pageId
    · have hf' : table.find hashPageId k = some f := hf
      rw [hk, hself] at hf'
      cases hf'
      rw [hk, install_pages_self]
      exact ⟨htar, hfree, rfl, hlo, hhi⟩
    · obtain ⟨hold, hne⟩ := (h.found_install hfind hk).mp hf
      rw [install_pages_of_ne hne]
      exact h.found k f hold
  case taken => simp

omit hlo hhi hnew

omit hfind in
theorem Consistent.cache_evict : b.cache.evict (b.pages tar).pageId =
    { resident := fun k => if k = (b.pages tar).pageId then none else b.cache.resident k
      disk := (b.writtenBack tar).pages } := by
  obtain ⟨-, -, -, -, hold | ⟨hinvalid, hdirty⟩⟩ := h.taken tar rfl
  · have hres : b.cache.resident (b.pages tar).pageId = some (b.pages tar) := by
      simp [cache, hold]
    simp only [Cache.evict, hres, writtenBack]
    apply Cache.ext
    · ext1 k
      split <;> exact Function.update_apply b.cache.resident _ none k
    · split <;> rfl
  · have hres : b.cache.resident (b.pages tar).pageId = none := by
      simp [cache, hinvalid, h.not_found_invalid]
    have hsame : (fun k => if k = (b.pages tar).pageId then none else b.cache.resident k) =
        b.cache.resident := by
      ext1 k
      split
      case isTrue hk => rw [hk, hres]
      case isFalse => rfl
    rw [Cache.evict, hres, hsame, writtenBack, hdirty]
    rfl

/-- On the pages: the old page is evicted and the new one loaded. -/
theorem Consistent.cache_install :
    (b.install tar table page).cache =
      (b.cache.evict (b.pages tar).pageId).load page.pageId page := by
  rw [h.cache_evict]
  have hresident (k : PageId) : (table.find hashPageId k).map (b.install tar table page).pages =
      if k = page.pageId then some page
      else if k = (b.pages tar).pageId then none else (b.find k).map b.pages := by
    rw [hfind k]
    by_cases hk : k = page.pageId
    · rw [if_pos hk, if_pos hk, Option.map_some, install_pages_self]
    · rw [if_neg hk, if_neg hk]
      by_cases hold : k = (b.pages tar).pageId
      · rw [if_pos hold, if_pos hold, Option.map_none]
      · rw [if_neg hold, if_neg hold]
        cases hf : b.find k with
        | none => rfl
        | some f =>
            have hne : f ≠ tar := by
              rintro rfl
              exact hold (h.found k f hf).2.2.1.symm
            rw [Option.map_some, Option.map_some, install_pages_of_ne hne]
  apply Cache.ext
  · ext1 k
    apply (hresident k).trans
    simp only [Cache.load, Function.update_apply]
    rfl
  · rfl

end Install

/-- After `rehash`, whatever page with the new id is put into the frame,
the pool is consistent, and the old page has been evicted. -/
theorem wp_rehash_setPage (h : b.Consistent queue (some tar)) (hlo : 0 ≤ id)
    (hhi : id < b.disk.nextPageId) (hnew : b.find id = none) :
    wp (rehash id tar) (fun _ b' => b'.poolSize = b.poolSize ∧ b'.pages = b.pages ∧
      b'.disk.nextPageId = b.disk.nextPageId ∧
      b'.disk.pages = (b.cache.evict (b.pages tar).pageId).disk ∧ b'.find id = some tar ∧
      (∀ k f, b.find k = some f → f ≠ tar → b'.find k = some f) ∧
      ∀ page : Page, page.pageId = id → 0 < page.pinCount →
        (b'.setPage tar page).Consistent queue none ∧
        (b'.setPage tar page).cache =
          (b.cache.evict (b.pages tar).pageId).load id page) b := by
  apply wp_mono (wp_rehash h hlo hhi hnew)
  rintro _ b' ⟨table, hwf, hsize, hfind, rfl⟩
  refine ⟨rfl, rfl, b.writtenBack_nextPageId tar, ?_, ?_, ?_, ?_⟩
  · rw [h.cache_evict]
  · exact (hfind id).trans (if_pos rfl)
  · intro k f hf hne
    have hk : k ≠ id := by
      rintro rfl
      rw [hnew] at hf
      cases hf
    rw [find, hfind k, if_neg hk, if_neg]
    · exact hf
    · rintro rfl
      exact hne (h.eq_of_old hf)
  · rintro page rfl hpin
    exact ⟨h.install hlo hhi hnew hfind hwf hsize hpin, h.cache_install hfind⟩

/-! ### A frame in use -/

section InUse

variable (h : b.Consistent queue none) (hf : b.find id = some f) (page : Page)
include h hf

theorem Consistent.find_inj {k : PageId} (hk : b.find k = some f) : k = id :=
  (h.found k f hk).2.2.1.symm.trans (h.found id f hf).2.2.1

/-- A frame in use gets new contents and moves between the replacer and
the pinned frames as its pin count says. -/
theorem Consistent.update (hid : page.pageId = id) {r : LruReplacer Nat} {queue' : List Nat}
    (hr : r.Represents queue') (hqueue : ∀ g, g ≠ f → (g ∈ queue' ↔ g ∈ queue))
    (hclass : f ∈ queue' ∧ page.pinCount = 0 ∨ f ∉ queue' ∧ 0 < page.pinCount) :
    Consistent { b.setPage f page with replacer := r } queue' none := by
  obtain ⟨hlt, hfree, hpage, hlo, hhi⟩ := h.found id f hf
  have hself : (b.setPage f page).pages f = page := by simp [setPage]
  have hother (g : Nat) (hne : g ≠ f) : (b.setPage f page).pages g = b.pages g := by
    simp [setPage, hne]
  constructor
  case replacer => exact hr
  case table => exact h.table
  case size => exact h.size
  case next => exact h.next
  case freeNodup => exact h.freeNodup
  case free =>
    intro g hg
    have hne : g ≠ f := fun heq => hfree (heq ▸ hg)
    show _ ∧ _ ∧ ((b.setPage f page).pages g).pinCount = 0 ∧ _
    rw [hqueue g hne, hother g hne]
    exact h.free g hg
  case idle =>
    intro g hg
    show _ ∧ ((b.setPage f page).pages g).pinCount = 0
    by_cases hne : g = f
    · rw [hne, hself]
      rw [hne] at hg
      exact ⟨hlt, (hclass.resolve_right fun hc => hc.1 hg).2⟩
    · rw [hother g hne]
      exact h.idle g ((hqueue g hne).mp hg)
  case pinned =>
    intro g hlt hg hq _
    show 0 < ((b.setPage f page).pages g).pinCount
    by_cases hne : g = f
    · rw [hne, hself]
      rw [hne] at hq
      exact (hclass.resolve_left fun hc => hq hc.1).2
    · rw [hother g hne]
      exact h.pinned g hlt hg (fun hin => hq ((hqueue g hne).mpr hin)) (by simp)
  case resident =>
    intro g hlt hg _
    show b.find ((b.setPage f page).pages g).pageId = some g
    by_cases hne : g = f
    · rw [hne, hself, hid]
      exact hf
    · rw [hother g hne]
      exact h.resident g hlt hg (by simp)
  case found =>
    intro k g hg
    show _ ∧ _ ∧ ((b.setPage f page).pages g).pageId = k ∧ _
    have hold := h.found k g hg
    by_cases hne : g = f
    · rw [hne] at hg hold ⊢
      rw [hself, hid]
      exact ⟨hlt, hfree, (h.find_inj hf hg).symm, hold.2.2.2⟩
    · rw [hother g hne]
      exact hold
  case taken => simp

theorem Consistent.setPage (hid : page.pageId = id)
    (hpin : page.pinCount = (b.pages f).pinCount) : (b.setPage f page).Consistent queue none := by
  apply h.update hf page hid h.replacer (fun g _ => Iff.rfl)
  rw [hpin]
  by_cases hq : f ∈ queue
  · exact Or.inl ⟨hq, (h.idle f hq).2⟩
  · obtain ⟨hlt, hfree, -⟩ := h.found id f hf
    exact Or.inr ⟨hq, h.pinned f hlt hfree hq (by simp)⟩

theorem Consistent.cache_setPage : (b.setPage f page).cache = b.cache.load id page := by
  apply Cache.ext
  · ext1 k
    show (b.find k).map (Function.update b.pages f page) = Function.update b.cache.resident _ _ k
    rw [Function.update_apply]
    by_cases hk : k = id
    · rw [hk, hf, if_pos rfl, Option.map_some, Function.update_self]
    · rw [if_neg hk]
      cases hg : b.find k with
      | none => simp [cache, hg]
      | some g =>
          have hne : g ≠ f := by
            rintro rfl
            exact hk (h.find_inj hf hg)
          simp [cache, hg, hne]
  · rfl

end InUse

theorem Consistent.write (h : b.Consistent queue none) (tar : Nat)
    (g : PageData → PageData) :
    (b.setPage tar { b.pages tar with data := g (b.pages tar).data }).Consistent queue none := by
  have hsame (f : Nat) :
      let page := (b.setPage tar { b.pages tar with data := g (b.pages tar).data }).pages f
      page.pinCount = (b.pages f).pinCount ∧ page.pageId = (b.pages f).pageId ∧
        page.isDirty = (b.pages f).isDirty := by
    by_cases hf : f = tar
    · simp [BufferPoolManager.setPage, hf]
    · simp [BufferPoolManager.setPage, hf]
  constructor
  case replacer => exact h.replacer
  case table => exact h.table
  case size => exact h.size
  case next => exact h.next
  case freeNodup => exact h.freeNodup
  case free =>
    intro f hf
    rw [(hsame f).1, (hsame f).2.1, (hsame f).2.2]
    exact h.free f hf
  case idle =>
    intro f hf
    rw [(hsame f).1]
    exact h.idle f hf
  case pinned =>
    intro f hlt hf hq hne
    rw [(hsame f).1]
    exact h.pinned f hlt hf hq hne
  case resident =>
    intro f hlt hf hne
    rw [(hsame f).2.1]
    exact h.resident f hlt hf hne
  case found =>
    intro id f hf
    rw [(hsame f).2.1]
    exact h.found id f hf
  case taken => simp

/-! ### The operations -/

end BufferPoolManager

namespace Cache

/-- No client holds page `id`. -/
def Unpinned (c : Cache) (id : PageId) : Prop :=
  ∀ page, c.resident id = some page → page.pinCount = 0

/-- What a successful `FetchPage` does: it pins the page, or loads it
from the disk in the place of a page that is not pinned. -/
inductive Fetched (c : Cache) (id : PageId) : Cache → Prop
  | hit (page : Page) (hpage : c.resident id = some page) :
      Fetched c id (c.load id { page with pinCount := page.pinCount + 1 })
  | miss (old : PageId) (hid : c.resident id = none) (hold : c.Unpinned old) :
      Fetched c id ((c.evict old).load id
        { data := (c.evict old).disk id, pageId := id, pinCount := 1, isDirty := false })

end Cache

namespace BufferPoolManager

variable {b : BufferPoolManager} {queue : List Nat} {id : PageId}

theorem Consistent.unpinned {tar : Nat} (h : b.Consistent queue (some tar)) :
    b.cache.Unpinned (b.pages tar).pageId := by
  intro page hpage
  obtain ⟨f, hf, rfl⟩ := Option.map_eq_some_iff.mp hpage
  rw [h.eq_of_old hf]
  exact (h.taken tar rfl).2.2.2.1

theorem Consistent.ne_of_pinned {tar f : Nat} (h : b.Consistent queue (some tar))
    (hpin : 0 < (b.pages f).pinCount) : f ≠ tar := by
  rintro rfl
  exact hpin.ne' (h.taken f rfl).2.2.2.1

/-- The frames in the replacer stay in their order with their pages. Some
may be taken out, or one whose page has been pinned is put in front. -/
def Aged (b : BufferPoolManager) (queue : List Nat) (b' : BufferPoolManager)
    (queue' : List Nat) : Prop :=
  ∃ kept, kept.Sublist queue ∧ (∀ f ∈ kept, (b'.pages f).pageId = (b.pages f).pageId) ∧
    (queue' = kept ∨ ∃ f, queue' = f :: kept ∧ (b'.pages f).pageId = (b.pages f).pageId ∧
      b.find (b.pages f).pageId = some f ∧ 0 < (b.pages f).pinCount)

theorem Aged.refl (b : BufferPoolManager) (queue : List Nat) : b.Aged queue b queue :=
  ⟨queue, List.Sublist.refl _, fun _ _ => rfl, Or.inl rfl⟩

/-- A page that loses its frame is the one at the end of the queue, while
the free list is empty. -/
def EvictsOldest (b : BufferPoolManager) (queue : List Nat) (b' : BufferPoolManager) : Prop :=
  ∀ k f, b.find k = some f → b'.find k = none → b.freeList = [] ∧ ∃ rest, queue = rest ++ [f]

theorem Chooses.sublist {tar : Nat} {queue' : List Nat} (h : b.Chooses queue tar queue') :
    queue'.Sublist queue := by
  rcases h with ⟨-, rfl⟩ | ⟨-, rfl⟩
  · exact List.Sublist.refl _
  · exact List.sublist_append_left _ _

theorem Consistent.not_allPinned {tar : Nat} (h : b.Consistent queue (some tar)) :
    ¬b.AllPinned := fun hall => by
  obtain ⟨hlt, -, -, hpin, -⟩ := h.taken tar rfl
  exact (hall tar hlt).ne' hpin

/-- A page that is not where it was has been in the frame that was chosen. -/
theorem Chooses.evictsOldest {tar : Nat} {queue' : List Nat} {b' : BufferPoolManager}
    (hchoice : b.Chooses queue tar queue') (h : b.Consistent queue none)
    (hkeep : ∀ k f, b.find k = some f → f ≠ tar → b'.find k = some f) :
    b.EvictsOldest queue b' := by
  intro k f hk hnone
  have hf : f = tar := by
    by_contra hne
    rw [hkeep k f hk hne] at hnone
    cases hnone
  subst hf
  rcases hchoice with ⟨hfree, -⟩ | ⟨hfree, hqueue⟩
  · exact absurd hfree (h.found k f hk).2.1
  · exact ⟨hfree, queue', hqueue⟩

theorem wp_fetchPage (h : b.Consistent queue none) (hlo : 0 ≤ id)
    (hhi : id < b.disk.nextPageId) :
    wp (fetchPage id) (fun r b' =>
      (∃ queue', b'.Consistent queue' none ∧ b.Aged queue b' queue') ∧
      b'.poolSize = b.poolSize ∧ b.Keeps b' ∧ b'.disk.nextPageId = b.disk.nextPageId ∧
      match r with
      | none => b' = b ∧ b.find id = none ∧ b.AllPinned
      | some tar => b'.find id = some tar ∧ b.cache.Fetched id b'.cache ∧
          b.EvictsOldest queue b' ∧ ¬(b.find id = none ∧ b.AllPinned)) b := by
  rw [fetchPage, wp_bind, wp_get]
  cases hf : b.find id with
  | some tar =>
      obtain ⟨hlt, hfree, hid, -⟩ := h.found id tar hf
      obtain ⟨-, herased⟩ := h.replacer.erase tar
      have hpin : 0 < (b.pages tar).pinCount + 1 := by
        by_cases hq : tar ∈ queue
        · rw [(h.idle tar hq).2]
          exact Int.one_pos
        · exact lt_trans (h.pinned tar hlt hfree hq (by simp)) (Int.lt_succ _)
      have hnodup := h.replacer.nodup
      simp only [wp_bind, wp_set, wp_pure]
      refine ⟨⟨queue.erase tar, ?_, queue.erase tar, List.erase_sublist, fun f hmem => ?_,
        Or.inl rfl⟩, rfl, Keeps.refl b, rfl, hf, ?_, fun k f hk hnone => ?_, fun hno => ?_⟩
      · apply h.update hf { b.pages tar with pinCount := (b.pages tar).pinCount + 1 } hid herased
        · intro g hne
          exact List.mem_erase_of_ne hne
        · exact Or.inr ⟨hnodup.not_mem_erase, hpin⟩
      · have hne : f ≠ tar := fun heq => hnodup.not_mem_erase (heq ▸ hmem)
        show (Function.update b.pages tar _ f).pageId = _
        rw [Function.update_of_ne hne]
      · have hpage : b.cache.resident id = some (b.pages tar) := by simp [cache, hf]
        have hcache := h.cache_setPage hf
          { b.pages tar with pinCount := (b.pages tar).pinCount + 1 }
        exact hcache ▸ Cache.Fetched.hit (b.pages tar) hpage
      · have hstill : b.find k = none := hnone
        rw [hk] at hstill
        cases hstill
      · cases hno.1
  | none =>
      rw [wp_bind]
      apply wp_mono (wp_getVictimPage h)
      intro r b₁ hvictim
      cases r with
      | none =>
          obtain ⟨rfl, hall⟩ := hvictim
          simp only [wp_pure, true_and]
          exact ⟨⟨queue, h, Aged.refl _ _⟩, Keeps.refl _, hall⟩
      | some tar =>
          obtain ⟨queue', h₁, hpool, hpages, htable, hdisk, hchoice⟩ := hvictim
          have hsame : b₁.find = b.find := by
            ext1 k
            rw [find, htable]
            rfl
          have hcache : b₁.cache = b.cache := by simp only [cache, hsame, hpages, hdisk]
          have hrehash := wp_rehash_setPage h₁ hlo (hdisk ▸ hhi) (by rw [hsame, hf])
          rw [wp_bind]
          apply wp_mono hrehash
          rintro _ b₂ ⟨hpool₂, hpages₂, hnext, hread, hfind, hkeep, hput⟩
          simp only [wp_bind, wp_modify, wp_pure]
          obtain ⟨h₂, hcache₂⟩ := hput ⟨b₂.disk.pages id, id, 1, false⟩ rfl Int.one_pos
          have htar := (h₁.taken tar rfl).2.2.1
          refine ⟨⟨queue', h₂, queue', hchoice.sublist, fun f hmem => ?_, Or.inl rfl⟩,
            hpool₂.trans hpool, ?_, ?_, hfind, ?_, hchoice.evictsOldest h fun k f hk hne => ?_,
            fun hno => ?_⟩
          · have hne : f ≠ tar := fun heq => htar (heq ▸ hmem)
            show (Function.update b₂.pages tar _ f).pageId = _
            rw [Function.update_of_ne hne, hpages₂, hpages]
          · intro k f hk hpin
            rw [← hpages] at hpin
            exact hkeep k f (hsame ▸ hk) (h₁.ne_of_pinned hpin)
          · show b₂.disk.nextPageId = _
            rw [hnext, hdisk]
          · rw [hcache₂, hread, hcache]
            apply Cache.Fetched.miss
            · simp [cache, hf]
            · exact hcache ▸ h₁.unpinned
          · exact hkeep k f (hsame ▸ hk) hne
          · refine h₁.not_allPinned fun f hlt => ?_
            rw [hpages]
            exact hno.2 f (hpool ▸ hlt)

theorem Consistent.of_disk {out : Option Nat} (h : b.Consistent queue out) {disk : Disk}
    (hnext : disk.nextPageId = b.disk.nextPageId) :
    Consistent { b with disk := disk } queue out where
  replacer := h.replacer
  table := h.table
  size := h.size
  next := h.next.trans_eq hnext.symm
  freeNodup := h.freeNodup
  free := h.free
  idle := h.idle
  pinned := h.pinned
  resident := h.resident
  found := fun id f hf => by
    obtain ⟨hlt, hfree, hid, hlo, hhi⟩ := h.found id f hf
    exact ⟨hlt, hfree, hid, hlo, hhi.trans_eq hnext.symm⟩
  taken := h.taken

theorem Consistent.allocate {out : Option Nat} (h : b.Consistent queue out) :
    Consistent { b with disk := { b.disk with nextPageId := b.disk.nextPageId + 1 } }
      queue out where
  replacer := h.replacer
  table := h.table
  size := h.size
  next := le_trans h.next (Int.lt_succ _).le
  freeNodup := h.freeNodup
  free := h.free
  idle := h.idle
  pinned := h.pinned
  resident := h.resident
  found := fun id f hf => by
    obtain ⟨hlt, hfree, hid, hlo, hhi⟩ := h.found id f hf
    exact ⟨hlt, hfree, hid, hlo, lt_trans hhi (Int.lt_succ _)⟩
  taken := h.taken

/-- `NewPage`, which either finds all frames pinned or gives a frame to
the next page id. -/
theorem wp_newPage (h : b.Consistent queue none) :
    wp newPage (fun r b' =>
      (∃ queue', b'.Consistent queue' none ∧ b.Aged queue b' queue') ∧
      b'.poolSize = b.poolSize ∧ b.Keeps b' ∧
      match r with
      | none => b' = b ∧ b.AllPinned
      | some (id, tar) => id = b.disk.nextPageId ∧ b'.disk.nextPageId = id + 1 ∧
          b'.find id = some tar ∧ (∃ old, b.cache.Unpinned old ∧
            b'.cache = (b.cache.evict old).load id ⟨PageData.zero, id, 1, false⟩) ∧
          b.EvictsOldest queue b' ∧ ¬b.AllPinned) b := by
  rw [newPage, wp_bind]
  apply wp_mono (wp_getVictimPage h)
  intro r b₁ hvictim
  cases r with
  | none =>
      obtain ⟨rfl, hall⟩ := hvictim
      simp only [wp_pure, true_and]
      exact ⟨⟨queue, h, Aged.refl _ _⟩, Keeps.refl _, hall⟩
  | some tar =>
      obtain ⟨queue', h₁, hpool, hpages, htable, hdisk, hchoice⟩ := hvictim
      simp only [wp_bind, wp_get, wp_set]
      have hfind : b₁.find = b.find := by
        ext1 k
        rw [find, htable]
        rfl
      have hnew : b₁.find b₁.disk.nextPageId = none := by
        cases hf : b₁.find b₁.disk.nextPageId with
        | none => rfl
        | some f => exact absurd (h₁.found _ f hf).2.2.2.2 (lt_irrefl _)
      have hcache : b₁.cache = b.cache := by simp only [cache, hfind, hpages, hdisk]
      apply wp_mono (wp_rehash_setPage h₁.allocate h₁.next (Int.lt_succ _) hnew)
      rintro _ b₂ ⟨hpool₂, hpages₂, hnext, -, hfind₂, hkeep, hput⟩
      simp only [wp_modify, wp_pure]
      obtain ⟨h₂, hcache₂⟩ := hput ⟨PageData.zero, b₁.disk.nextPageId, 1, false⟩ rfl Int.one_pos
      have htar := (h₁.taken tar rfl).2.2.1
      refine ⟨⟨queue', h₂, queue', hchoice.sublist, fun f hmem => ?_, Or.inl rfl⟩,
        hpool₂.trans hpool, ?_, congrArg Disk.nextPageId hdisk, hnext, hfind₂,
        ⟨(b₁.pages tar).pageId, ?_, ?_⟩, hchoice.evictsOldest h fun k f hk hne => ?_, fun hno => ?_⟩
      · have hne : f ≠ tar := fun heq => htar (heq ▸ hmem)
        show (Function.update b₂.pages tar _ f).pageId = _
        rw [Function.update_of_ne hne, hpages₂]
        exact congrArg Page.pageId (congrFun hpages f)
      · intro k f hk hpin
        rw [← hpages] at hpin
        exact hkeep k f (hfind ▸ hk) (h₁.ne_of_pinned hpin)
      · exact hcache ▸ h₁.unpinned
      · rw [hcache₂, ← hcache]
        rfl
      · exact hkeep k f (hfind ▸ hk) hne
      · refine h₁.not_allPinned fun f hlt => ?_
        rw [hpages]
        exact hno f (hpool ▸ hlt)

theorem pageId_setPage {tar : Nat} {page : Page} (hpage : page.pageId = (b.pages tar).pageId)
    (f : Nat) : ((b.setPage tar page).pages f).pageId = (b.pages f).pageId := by
  by_cases hne : f = tar
  · rw [hne, ← hpage]
    simp [BufferPoolManager.setPage]
  · simp [BufferPoolManager.setPage, hne]

theorem wp_unpinPage {isDirty : Bool} (h : b.Consistent queue none)
    (hpinned : ∀ page, b.cache.resident id = some page → 0 < page.pinCount) :
    wp (unpinPage id isDirty) (fun r b' =>
      (∃ queue', b'.Consistent queue' none ∧ b.Aged queue b' queue') ∧
      b'.poolSize = b.poolSize ∧ b.Keeps b' ∧ b'.disk.nextPageId = b.disk.nextPageId ∧
      match b.cache.resident id with
      | none => r = false ∧ b' = b
      | some page => r = true ∧ b'.cache = b.cache.load id
          { page with pinCount := page.pinCount - 1, isDirty := page.isDirty || isDirty }) b := by
  rw [unpinPage, wp_bind, wp_get]
  cases hf : b.find id with
  | none =>
      have hres : b.cache.resident id = none := by simp [cache, hf]
      simp only [hres, wp_pure, and_true, true_and]
      exact ⟨⟨queue, h, Aged.refl b queue⟩, Keeps.refl b⟩
  | some tar =>
      have hres : b.cache.resident id = some (b.pages tar) := by simp [cache, hf]
      have hpin := hpinned _ hres
      obtain ⟨hlt, hfree, hid, -⟩ := h.found id tar hf
      have hqueue : tar ∉ queue := fun hq => by
        rw [(h.idle tar hq).2] at hpin
        exact lt_irrefl _ hpin
      let page : Page := { b.pages tar with
        pinCount := (b.pages tar).pinCount - 1
        isDirty := (b.pages tar).isDirty || isDirty }
      have hcache : (b.setPage tar page).cache = b.cache.load id page := h.cache_setPage hf page
      have hsame : ∀ f, ((b.setPage tar page).pages f).pageId = (b.pages f).pageId :=
        pageId_setPage rfl
      simp only [hres, wp_bind, wp_set, wp_require, wp_pure, true_and]
      refine ⟨hpin, ?_⟩
      by_cases hlast : (b.pages tar).pinCount - 1 = 0
      · -- the last pin: the frame goes to the replacer
        rw [if_pos hlast]
        refine ⟨⟨tar :: queue.erase tar, ?_, queue.erase tar, List.erase_sublist,
          fun f _ => hsame f, Or.inr ⟨tar, rfl, hsame tar, by rw [hid, hf], hpin⟩⟩, rfl,
          Keeps.refl b, rfl, hcache⟩
        apply h.update hf page hid (h.replacer.insert tar)
        · intro g hne
          rw [List.mem_cons, List.mem_erase_of_ne hne]
          exact or_iff_right hne
        · exact Or.inl ⟨List.mem_cons_self, hlast⟩
      · rw [if_neg hlast]
        refine ⟨⟨queue, ?_, queue, List.Sublist.refl _, fun f _ => hsame f, Or.inl rfl⟩, rfl,
          Keeps.refl b, rfl, hcache⟩
        apply h.update hf page hid h.replacer (fun g _ => Iff.rfl)
        have hmore : 0 < page.pinCount := by
          show 0 < (b.pages tar).pinCount - 1
          omega
        exact Or.inr ⟨hqueue, hmore⟩

theorem wp_flushPage (h : b.Consistent queue none) :
    wp (flushPage id) (fun r b' =>
      (∃ queue', b'.Consistent queue' none ∧ b.Aged queue b' queue') ∧
      b'.poolSize = b.poolSize ∧ b.Keeps b' ∧ b'.disk.nextPageId = b.disk.nextPageId ∧
      match b.cache.resident id with
      | none => r = false ∧ b' = b
      | some page => r = true ∧ b'.cache =
          if page.isDirty then
            (b.cache.load id { page with isDirty := false }).write id page.data
          else b.cache) b := by
  rw [flushPage, wp_bind, wp_get]
  cases hf : b.find id with
  | none =>
      have hres : b.cache.resident id = none := by simp [cache, hf]
      simp only [hres, wp_pure, and_true, true_and]
      exact ⟨⟨queue, h, Aged.refl b queue⟩, Keeps.refl b⟩
  | some tar =>
      have hres : b.cache.resident id = some (b.pages tar) := by simp [cache, hf]
      obtain ⟨hlt, hfree, hid, hlo, -⟩ := h.found id tar hf
      have hvalid : ¬(b.pages tar).pageId = invalidPageId := by
        rw [hid]
        rintro rfl
        exact absurd hlo (by decide)
      simp only [hres]
      rw [if_neg hvalid]
      by_cases hdirty : (b.pages tar).isDirty = true
      · rw [if_pos hdirty, if_pos hdirty]
        simp only [wp_bind, wp_set, wp_pure, true_and]
        have hclean := h.setPage hf { b.pages tar with isDirty := false } hid rfl
        have hsame : ∀ f, ((b.setPage tar { b.pages tar with isDirty := false }).pages f).pageId =
            (b.pages f).pageId := pageId_setPage rfl
        refine ⟨⟨queue, hclean.of_disk rfl, queue, List.Sublist.refl _, fun f _ => hsame f,
          Or.inl rfl⟩, rfl, Keeps.refl b, rfl, ?_⟩
        rw [← h.cache_setPage hf]
        rfl
      · rw [if_neg hdirty, if_neg hdirty]
        simp only [wp_pure, and_true, true_and]
        exact ⟨⟨queue, h, Aged.refl b queue⟩, Keeps.refl b⟩

theorem Consistent.release {f : Nat} (h : b.Consistent queue none) (hf : b.find id = some f)
    (hpin : (b.pages f).pinCount = 0) :
    Consistent { b.setPage f ⟨PageData.zero, invalidPageId, (b.pages f).pinCount, false⟩ with
      replacer := (b.replacer.erase f).2
      pageTable := (b.pageTable.remove hashPageId id).2
      freeList := b.freeList ++ [f] } (queue.erase f) none := by
  obtain ⟨hlt, hfree, -, -, -⟩ := h.found id f hf
  obtain ⟨hwf, -, hfind⟩ := h.table.remove id
  have hnodup := h.replacer.nodup
  have hother (g : Nat) (hne : g ≠ f) :
      Function.update b.pages f ⟨PageData.zero, invalidPageId, (b.pages f).pinCount, false⟩ g =
        b.pages g := Function.update_of_ne hne _ _
  have hmem (g : Nat) (hg : g ∉ b.freeList ++ [f]) : g ∉ b.freeList ∧ g ≠ f := by
    rwa [List.mem_append, List.mem_singleton, not_or] at hg
  constructor
  case replacer => exact (h.replacer.erase f).2
  case table => exact hwf
  case size => exact h.size.trans_eq (ExtendibleHash.remove_mBucketSize _ _).symm
  case next => exact h.next
  case freeNodup =>
    apply h.freeNodup.append (List.nodup_singleton f)
    exact List.disjoint_singleton.mpr hfree
  case free =>
    intro g hg
    show _ ∧ _ ∧ (Function.update b.pages f _ g).pinCount = 0 ∧
      (Function.update b.pages f _ g).pageId = invalidPageId ∧
      (Function.update b.pages f _ g).isDirty = false
    by_cases hne : g = f
    · rw [hne, Function.update_self]
      exact ⟨hlt, hnodup.not_mem_erase, hpin, rfl, rfl⟩
    · rw [hother g hne]
      obtain ⟨hlt, hq, hrest⟩ := h.free g ((List.mem_append.mp hg).resolve_right (by simp [hne]))
      exact ⟨hlt, fun hin => hq (List.mem_of_mem_erase hin), hrest⟩
  case idle =>
    intro g hg
    have hne : g ≠ f := fun heq => hnodup.not_mem_erase (heq ▸ hg)
    show _ ∧ (Function.update b.pages f _ g).pinCount = 0
    rw [hother g hne]
    exact h.idle g (List.mem_of_mem_erase hg)
  case pinned =>
    intro g hlt hg hq _
    obtain ⟨hg, hne⟩ := hmem g hg
    show 0 < (Function.update b.pages f _ g).pinCount
    rw [hother g hne]
    exact h.pinned g hlt hg (fun hin => hq ((List.mem_erase_of_ne hne).mpr hin)) (by simp)
  case resident =>
    intro g hlt hg _
    obtain ⟨hg, hne⟩ := hmem g hg
    show (b.pageTable.remove hashPageId id).2.find hashPageId
      (Function.update b.pages f _ g).pageId = some g
    have hold := h.resident g hlt hg (by simp)
    rw [hother g hne, hfind, if_neg]
    · exact hold
    · intro heq
      rw [heq, hf] at hold
      exact hne (Option.some.inj hold).symm
  case found =>
    intro k g hg
    have hg' : (b.pageTable.remove hashPageId id).2.find hashPageId k = some g := hg
    rw [hfind k] at hg'
    split at hg'
    case isTrue => cases hg'
    case isFalse hk =>
      obtain ⟨hlt, hfree, hid, hbounds⟩ := h.found k g hg'
      have hne : g ≠ f := by
        rintro rfl
        exact hk (h.find_inj hf hg')
      show _ ∧ g ∉ b.freeList ++ [f] ∧ (Function.update b.pages f _ g).pageId = k ∧ _
      rw [hother g hne, List.mem_append, List.mem_singleton, not_or]
      exact ⟨hlt, ⟨hfree, hne⟩, hid, hbounds⟩
  case taken => simp

theorem wp_deletePage (h : b.Consistent queue none) :
    wp (deletePage id) (fun r b' =>
      (∃ queue', b'.Consistent queue' none ∧ b.Aged queue b' queue') ∧
      b'.poolSize = b.poolSize ∧ b.Keeps b' ∧ b'.disk.nextPageId = b.disk.nextPageId ∧
      match b.cache.resident id with
      | none => r = true ∧ b' = b
      | some page =>
          if 0 < page.pinCount then r = false ∧ b' = b
          else r = true ∧ b'.cache = b.cache.drop id) b := by
  rw [deletePage, wp_bind, wp_get]
  cases hf : b.find id with
  | none =>
      have hres : b.cache.resident id = none := by simp [cache, hf]
      simp only [hres, wp_bind, wp_set, wp_pure, true_and]
      exact ⟨⟨queue, h, Aged.refl b queue⟩, Keeps.refl b, rfl, rfl⟩
  | some tar =>
      have hres : b.cache.resident id = some (b.pages tar) := by simp [cache, hf]
      obtain ⟨hlt, hfree, -⟩ := h.found id tar hf
      simp only [hres]
      by_cases hpinned : 0 < (b.pages tar).pinCount
      · simp only [if_pos hpinned, wp_pure, and_true, true_and]
        exact ⟨⟨queue, h, Aged.refl b queue⟩, Keeps.refl b⟩
      · have hidle : tar ∈ queue := by
          by_contra hq
          exact hpinned (h.pinned tar hlt hfree hq (by simp))
        simp only [if_neg hpinned, wp_bind, wp_set, wp_pure, true_and]
        obtain ⟨-, -, hfind⟩ := h.table.remove id
        refine ⟨⟨_, h.release hf (h.idle tar hidle).2, _, List.erase_sublist, fun f hmem => ?_,
          Or.inl rfl⟩, rfl, ?_, rfl, ?_⟩
        · have hne : f ≠ tar := fun heq => h.replacer.nodup.not_mem_erase (heq ▸ hmem)
          show (Function.update b.pages tar _ f).pageId = _
          rw [Function.update_of_ne hne]
        · intro k f hk hpin
          have hne : k ≠ id := by
            rintro rfl
            rw [hf] at hk
            cases hk
            exact hpinned hpin
          exact (hfind k).trans ((if_neg hne).trans hk)
        apply Cache.ext
        · ext1 k
          show ((b.pageTable.remove hashPageId id).2.find hashPageId k).map
              (Function.update b.pages tar _) = Function.update b.cache.resident id none k
          rw [hfind k, Function.update_apply]
          by_cases hk : k = id
          · rw [if_pos hk, if_pos hk]
            rfl
          · rw [if_neg hk, if_neg hk]
            show (b.find k).map _ = (b.find k).map b.pages
            cases hg : b.find k with
            | none => rfl
            | some g =>
                have hne : g ≠ tar := by
                  rintro rfl
                  exact hk (h.find_inj hf hg)
                rw [Option.map_some, Option.map_some, Function.update_of_ne hne]
        · rfl

end BufferPoolManager

end ScuDb
