import ScuDb.Buffer.FrameClasses
import ScuDb.Foundations.Refinement

/-!
The frames of the buffer pool over whole runs.

Every frame belongs to one of three classes, and the page table is a
bijection between the resident page ids and the frames of two of them.
`Consistent` says so in the terms its own proof needs; here it is said
of the four structures of the pool, for every pool that calls lead to.
-/

namespace ScuDb

open Foundations

/-- A call of the buffer pool, or a client that writes into the page its
pointer leads to. -/
inductive PoolOp
  | newPage
  | fetchPage (id : PageId)
  | unpinPage (id : PageId) (isDirty : Bool)
  | flushPage (id : PageId)
  | deletePage (id : PageId)
  | write (tar : Nat) (g : PageData → PageData)

/-- What a call returns. -/
inductive PoolResult
  | page (r : Option Nat)
  | newPage (r : Option (PageId × Nat))
  | success (r : Bool)
  | unit
  deriving DecidableEq

namespace PoolOp

open BufferPoolManager

/-- Execute a call. -/
def run : PoolOp → PoolM PoolResult
  | .newPage => PoolResult.newPage <$> BufferPoolManager.newPage
  | .fetchPage id => PoolResult.page <$> BufferPoolManager.fetchPage id
  | .unpinPage id isDirty => PoolResult.success <$> BufferPoolManager.unpinPage id isDirty
  | .flushPage id => PoolResult.success <$> BufferPoolManager.flushPage id
  | .deletePage id => PoolResult.success <$> BufferPoolManager.deletePage id
  | .write tar g => do
      modify fun b => b.setPage tar { b.pages tar with data := g (b.pages tar).data }
      pure .unit

/-- The calls clients may make: they fetch ids that `NewPage` has
returned and unpin pages whose pin count is positive. -/
def Allowed : PoolOp → BufferPoolManager → Prop
  | .fetchPage id, b => 0 ≤ id ∧ id < b.disk.nextPageId
  | .unpinPage id _, b => ∀ f, b.find id = some f → 0 < (b.pages f).pinCount
  | _, _ => True

instance : (op : PoolOp) → (b : BufferPoolManager) → Decidable (op.Allowed b)
  | .fetchPage _, _ => inferInstanceAs (Decidable (_ ∧ _))
  | .unpinPage id _, b => inferInstanceAs (Decidable (∀ f ∈ b.find id, _))
  | .newPage, _ | .flushPage _, _ | .deletePage _, _ | .write _ _, _ => isTrue trivial

end PoolOp

namespace BufferPoolManager

/-- What a frame is used for. -/
inductive FrameClass
  | free
  | idle
  | pinned

/-- Frame `f` is of a class, and of no other. -/
def HasClass (b : BufferPoolManager) (f : Nat) : FrameClass → Prop
  | .free => b.freeList.count f = 1 ∧ f ∉ b.replacer.mDataMap ∧ (b.pages f).pinCount = 0 ∧
      (b.pages f).pageId = invalidPageId ∧ (b.pages f).isDirty = false ∧
      ∀ id, b.find id ≠ some f
  | .idle => f ∉ b.freeList ∧ f ∈ b.replacer.mDataMap ∧ (b.pages f).pinCount = 0 ∧
      b.find (b.pages f).pageId = some f
  | .pinned => f ∉ b.freeList ∧ f ∉ b.replacer.mDataMap ∧ 0 < (b.pages f).pinCount ∧
      b.find (b.pages f).pageId = some f

/-- Every frame is of exactly one class, the free list and the replacer
hold frames of the pool, and the page table leads from an id exactly to
the frame in use whose page has this id. -/
structure Partitioned (b : BufferPoolManager) : Prop where
  oneClass : ∀ f < b.poolSize, ∃! c, b.HasClass f c
  frames : ∀ f, f ∈ b.freeList ∨ f ∈ b.replacer.mDataMap → f < b.poolSize
  table : ∀ id f, b.find id = some f ↔
    f < b.poolSize ∧ (b.pages f).pageId = id ∧ (b.HasClass f .idle ∨ b.HasClass f .pinned)

variable {b : BufferPoolManager} {queue : List Nat}

theorem Consistent.mem_replacer (h : b.Consistent queue none) (f : Nat) :
    f ∈ b.replacer.mDataMap ↔ f ∈ queue := by
  rw [← AList.lookup_isSome]
  exact h.replacer.lookup_isSome_iff

theorem Consistent.hasClass_inUse (h : b.Consistent queue none) {f : Nat} (hlt : f < b.poolSize)
    (hfree : f ∉ b.freeList) : b.HasClass f .idle ∨ b.HasClass f .pinned := by
  have hfound := h.resident f hlt hfree (by simp)
  have hmem := h.mem_replacer f
  by_cases hq : f ∈ queue
  · exact Or.inl ⟨hfree, hmem.mpr hq, (h.idle f hq).2, hfound⟩
  · exact Or.inr ⟨hfree, hmem.not.mpr hq, h.pinned f hlt hfree hq (by simp), hfound⟩

theorem Consistent.exists_hasClass (h : b.Consistent queue none) {f : Nat}
    (hlt : f < b.poolSize) : ∃ c, b.HasClass f c := by
  by_cases hfree : f ∈ b.freeList
  · obtain ⟨-, hq, hpin, hid, hdirty⟩ := h.free f hfree
    refine ⟨.free, List.count_eq_one_of_mem h.freeNodup hfree,
      (h.mem_replacer f).not.mpr hq, hpin, hid, hdirty, fun id hf => ?_⟩
    exact (h.found id f hf).2.1 hfree
  · exact (h.hasClass_inUse hlt hfree).elim (⟨_, ·⟩) (⟨_, ·⟩)

theorem HasClass.unique {f : Nat} {c c' : FrameClass} (h : b.HasClass f c)
    (h' : b.HasClass f c') : c = c' := by
  have hmem (hcount : b.freeList.count f = 1) : f ∈ b.freeList :=
    List.count_pos_iff.mp (hcount.symm ▸ Nat.one_pos)
  cases c <;> cases c'
  case free.free => rfl
  case idle.idle => rfl
  case pinned.pinned => rfl
  case free.idle => exact absurd (hmem h.1) h'.1
  case free.pinned => exact absurd (hmem h.1) h'.1
  case idle.free => exact absurd (hmem h'.1) h.1
  case pinned.free => exact absurd (hmem h'.1) h.1
  case idle.pinned => exact absurd h.2.1 h'.2.1
  case pinned.idle => exact absurd h'.2.1 h.2.1

theorem Consistent.partitioned (h : b.Consistent queue none) : b.Partitioned where
  oneClass f hlt := by
    obtain ⟨c, hc⟩ := h.exists_hasClass hlt
    exact ⟨c, hc, fun c' hc' => hc'.unique hc⟩
  frames f hf := by
    rw [h.mem_replacer] at hf
    exact hf.elim (fun hfree => (h.free f hfree).1) (fun hq => (h.idle f hq).1)
  table id f := by
    constructor
    · intro hf
      obtain ⟨hlt, hfree, hid, -⟩ := h.found id f hf
      exact ⟨hlt, hid, h.hasClass_inUse hlt hfree⟩
    · rintro ⟨hlt, rfl, hidle | hpinned⟩
      · exact hidle.2.2.2
      · exact hpinned.2.2.2

end BufferPoolManager

/-! ### Runs -/

open BufferPoolManager

variable {b : BufferPoolManager} {queue : List Nat}

/-- No call a client may make faults, and each keeps the pool consistent
and the order of its queue. -/
theorem PoolOp.wp_run (op : PoolOp) (h : b.Consistent queue none) (hop : op.Allowed b) :
    wp op.run (fun _ b' => ∃ queue', b'.Consistent queue' none ∧ b.Aged queue b' queue') b := by
  cases op with
  | newPage =>
      rw [PoolOp.run, wp_map]
      exact wp_mono (wp_newPage h) fun _ _ hpost => hpost.1
  | fetchPage id =>
      rw [PoolOp.run, wp_map]
      exact wp_mono (wp_fetchPage h hop.1 hop.2) fun _ _ hpost => hpost.1
  | unpinPage id isDirty =>
      have hpinned : ∀ page, b.cache.resident id = some page → 0 < page.pinCount := by
        intro page hpage
        obtain ⟨f, hf, rfl⟩ := Option.map_eq_some_iff.mp hpage
        exact hop f hf
      rw [PoolOp.run, wp_map]
      exact wp_mono (wp_unpinPage h hpinned) fun _ _ hpost => hpost.1
  | flushPage id =>
      rw [PoolOp.run, wp_map]
      exact wp_mono (wp_flushPage h) fun _ _ hpost => hpost.1
  | deletePage id =>
      rw [PoolOp.run, wp_map]
      exact wp_mono (wp_deletePage h) fun _ _ hpost => hpost.1
  | write tar g =>
      simp only [PoolOp.run, wp_bind, wp_modify, wp_pure]
      refine ⟨queue, h.write tar g, queue, List.Sublist.refl _, fun f _ => ?_, Or.inl rfl⟩
      by_cases hf : f = tar <;> simp [BufferPoolManager.setPage, hf]

/-- In every pool that calls lead to, the frames are partitioned, no call
a client may make fails an assertion, and `GetVictimPage` chooses no
frame that is pinned. -/
theorem frames_partitioned (poolSize : Nat) (b : BufferPoolManager)
    (hb : Reachable (· = create poolSize) PoolOp.Allowed PoolOp.run b) :
    b.Partitioned ∧ (∀ op : PoolOp, op.Allowed b → ∃ r b', op.run b = .ok (r, b')) ∧
      wp getVictimPage (fun r _ => ∀ f, r = some f → ¬b.HasClass f .pinned) b := by
  obtain ⟨queue, h⟩ : ∃ queue, b.Consistent queue none := by
    apply hb.invariant
    · rintro _ rfl
      exact ⟨[], consistent_create poolSize⟩
    · rintro op s ⟨queue, h⟩ hop
      exact wp_mono (op.wp_run h hop) fun _ _ ⟨queue', h', _⟩ => ⟨queue', h'⟩
  refine ⟨h.partitioned, ?_, ?_⟩
  · intro op hop
    obtain ⟨r, b', hrun, -⟩ := op.wp_run h hop
    exact ⟨r, b', hrun⟩
  · apply wp_mono (wp_getVictimPage h)
    rintro _ b' hvictim f rfl
    obtain ⟨queue', h', -, hpages, -⟩ := hvictim
    intro hpinned
    have hzero := (h'.taken f rfl).2.2.2.1
    rw [hpages] at hzero
    exact hpinned.2.2.1.ne' hzero

/-- Three pages fill a pool, a fourth one takes the frame of the first, and
the second one is deleted: then one frame is idle, one free and one
pinned. -/
theorem frames_partitioned_new : ∃ b, b.find 0 = none ∧ b.find 3 = some 0 ∧
    b.replacer.mDataMap.keys = [0] ∧ b.freeList = [1] ∧ (b.pages 2).pinCount = 1 ∧
    b.Partitioned ∧ ∃ r b', (PoolOp.fetchPage 0).run b = .ok (r, b') := by
  have heval : ((checkedRun (fun op b => decide (op.Allowed b)) PoolOp.run
      [.newPage, .newPage, .newPage, .unpinPage 0 true, .unpinPage 1 false, .newPage,
        .unpinPage 3 true, .deletePage 1] (create 3)).any fun b =>
      b.find 0 = none ∧ b.find 3 = some 0 ∧ b.replacer.mDataMap.keys = [0] ∧ b.freeList = [1] ∧
        (b.pages 2).pinCount = 1 ∧ (PoolOp.fetchPage 0).Allowed b) = true := by decide +kernel
  obtain ⟨b, hb, heval⟩ := exists_reachable_of_eval
    (.start rfl : Reachable (· = create 3) PoolOp.Allowed PoolOp.run (create 3)) _
    (fun _ _ => of_decide_eq_true) _ heval
  obtain ⟨hevicted, hthere, hidle, hfree, hpinned, hop⟩ := of_decide_eq_true heval
  obtain ⟨hpartitioned, hruns, -⟩ := frames_partitioned 3 b hb
  exact ⟨b, hevicted, hthere, hidle, hfree, hpinned, hpartitioned, hruns _ hop⟩

end ScuDb
