import ScuDb.Buffer.PoolInvariant

/-!
When the pool has no frame to give, and which page loses its frame.

Next to the pool runs a clock that counts its calls, and a record of
when the pin count of each page last dropped to zero. The record is kept
by looking at the pin counts alone; that the frames in the replacer are
in the order of these times, the latest in front, is what every call
preserves. A frame that is taken out of the replacer, whether it is
pinned again, deleted or chosen, does not disturb the order of the
others, and one that is put in is put in front, at the present time.
-/

namespace ScuDb

open Foundations BufferPoolManager

namespace BufferPoolManager

/-- The pin count of a resident page is positive in `b` and zero in `b'`. -/
def drops (b b' : BufferPoolManager) (id : PageId) : Bool :=
  (b.find id).any (fun f => 0 < (b.pages f).pinCount) &&
    (b'.find id).any fun f => (b'.pages f).pinCount = 0

theorem drops_iff {b b' : BufferPoolManager} {id : PageId} :
    b.drops b' id ↔ (∃ f, b.find id = some f ∧ 0 < (b.pages f).pinCount) ∧
      ∃ f, b'.find id = some f ∧ (b'.pages f).pinCount = 0 := by
  simp [drops, Option.any_eq_true]

variable {b : BufferPoolManager} {queue : List Nat}

theorem Consistent.find_of_mem (h : b.Consistent queue none) {f : Nat} (hf : f ∈ queue) :
    b.find (b.pages f).pageId = some f :=
  h.resident f (h.idle f hf).1 (fun hfree => (h.free f hfree).2.1 hf) (by simp)

theorem Consistent.mem_of_unpinned (h : b.Consistent queue none) {id : PageId} {f : Nat}
    (hf : b.find id = some f) (hpin : (b.pages f).pinCount = 0) : f ∈ queue := by
  obtain ⟨hlt, hfree, -⟩ := h.found id f hf
  by_contra hq
  exact (h.pinned f hlt hfree hq (by simp)).ne' hpin

end BufferPoolManager

/-- A pool, the number of calls that have been made, and after which of
them the pin count of each page last dropped to zero. -/
structure ClockedPool where
  pool : BufferPoolManager
  now : Nat
  droppedAt : PageId → Nat

namespace ClockedPool

/-- A new pool. -/
def start (poolSize : Nat) : ClockedPool := ⟨create poolSize, 0, fun _ => 0⟩

/-- One call later the pool is `b`. -/
def tick (s : ClockedPool) (b : BufferPoolManager) : ClockedPool where
  pool := b
  now := s.now + 1
  droppedAt id := if s.pool.drops b id then s.now + 1 else s.droppedAt id

/-- Execute a call and record it. -/
def run (op : PoolOp) : Program Fault ClockedPool PoolResult := fun s => do
  let (r, b) ← op.run s.pool
  pure (r, s.tick b)

theorem run_eq_ok {op : PoolOp} {s : ClockedPool} {r : PoolResult} {b : BufferPoolManager}
    (h : op.run s.pool = .ok (r, b)) : run op s = .ok (r, s.tick b) := by
  have hbind : run op s = (op.run s.pool >>= fun p => pure (p.1, s.tick p.2)) := rfl
  rw [hbind, h]
  rfl

theorem wp_run {op : PoolOp} {Q : PoolResult → ClockedPool → Prop} {s : ClockedPool}
    (h : wp op.run (fun r b => Q r (s.tick b)) s.pool) : wp (run op) Q s := by
  obtain ⟨r, b, hrun, hq⟩ := h
  exact ⟨r, s.tick b, run_eq_ok hrun, hq⟩

/-- A pool that calls of clients lead to, with its clock. -/
def Reached (poolSize : Nat) : ClockedPool → Prop :=
  Reachable (· = start poolSize) (fun op s => op.Allowed s.pool) run

/-- The clock does not restrict the calls: every pool they lead to has one. -/
theorem exists_reached {poolSize : Nat} {b : BufferPoolManager}
    (hb : Reachable (· = create poolSize) PoolOp.Allowed PoolOp.run b) :
    ∃ s, Reached poolSize s ∧ s.pool = b := by
  induction hb with
  | start hs =>
      subst hs
      exact ⟨start poolSize, .start rfl, rfl⟩
  | next _ hop hrun ih =>
      obtain ⟨s, hs, rfl⟩ := ih
      exact ⟨s.tick _, hs.next hop (run_eq_ok hrun), rfl⟩

/-- No drop is later than the present, and the frames of the queue are in
the order in which the pin counts of their pages dropped. -/
structure InOrder (s : ClockedPool) (queue : List Nat) : Prop where
  bound : ∀ id, s.droppedAt id ≤ s.now
  sorted : queue.Pairwise fun f g =>
    s.droppedAt (s.pool.pages g).pageId < s.droppedAt (s.pool.pages f).pageId

variable {s : ClockedPool} {b : BufferPoolManager} {queue queue' : List Nat}

theorem droppedAt_tick_of_mem (hpool : s.pool.Consistent queue none) {f : Nat} (hf : f ∈ queue) :
    (s.tick b).droppedAt (s.pool.pages f).pageId = s.droppedAt (s.pool.pages f).pageId := by
  apply if_neg
  rw [drops_iff]
  rintro ⟨⟨g, hg, hpin⟩, -⟩
  rw [hpool.find_of_mem hf] at hg
  cases hg
  exact hpin.ne' (hpool.idle f hf).2

/-- The step: a call that ages the queue keeps it in order. -/
theorem InOrder.tick (h : s.InOrder queue) (hpool : s.pool.Consistent queue none)
    (hpool' : b.Consistent queue' none) (haged : s.pool.Aged queue b queue') :
    (s.tick b).InOrder queue' := by
  obtain ⟨kept, hsub, hids, hqueue⟩ := haged
  have hsame (f : Nat) (hf : f ∈ kept) :
      (s.tick b).droppedAt (b.pages f).pageId = s.droppedAt (s.pool.pages f).pageId := by
    rw [hids f hf]
    exact droppedAt_tick_of_mem hpool (hsub.subset hf)
  have hsorted : kept.Pairwise fun f g =>
      (s.tick b).droppedAt (b.pages g).pageId < (s.tick b).droppedAt (b.pages f).pageId := by
    apply (h.sorted.sublist hsub).imp_of_mem
    intro f g hf hg hlt
    rw [hsame f hf, hsame g hg]
    exact hlt
  constructor
  case bound =>
    intro id
    show (if s.pool.drops b id then s.now + 1 else s.droppedAt id) ≤ s.now + 1
    split
    · exact le_rfl
    · exact (h.bound id).trans (Nat.le_succ _)
  case sorted =>
    rcases hqueue with rfl | ⟨f, rfl, hid, hfind, hpin⟩
    · exact hsorted
    · -- the page in front has dropped now, the others before
      have hmem : f ∈ f :: kept := List.mem_cons_self
      have hdrops : s.pool.drops b (b.pages f).pageId := by
        rw [drops_iff]
        refine ⟨⟨f, ?_, hpin⟩, f, hpool'.find_of_mem hmem, (hpool'.idle f hmem).2⟩
        rw [hid]
        exact hfind
      have hnow : (s.tick b).droppedAt (b.pages f).pageId = s.now + 1 := if_pos hdrops
      refine List.pairwise_cons.mpr ⟨fun g hg => ?_, hsorted⟩
      show (s.tick b).droppedAt (b.pages g).pageId < (s.tick b).droppedAt (b.pages f).pageId
      rw [hsame g hg, hnow]
      exact Nat.lt_succ_of_le (h.bound _)

/-- The run: in every pool that calls lead to, the queue is in order. -/
theorem Reached.inOrder {poolSize : Nat} (hs : Reached poolSize s) :
    ∃ queue, s.pool.Consistent queue none ∧ s.InOrder queue := by
  apply hs.invariant
  · rintro _ rfl
    exact ⟨[], consistent_create poolSize, fun _ => le_rfl, List.Pairwise.nil⟩
  · rintro op s ⟨queue, hpool, horder⟩ hop
    apply wp_run
    apply wp_mono (op.wp_run hpool hop)
    rintro r b ⟨queue', hpool', haged⟩
    exact ⟨queue', hpool', horder.tick hpool hpool' haged⟩

/-- A page that loses its frame when the pool becomes `b` is one that
nobody has pinned, the pin counts of all others of this kind have
dropped later, and there was no free frame. -/
def EvictsLongestIdle (s : ClockedPool) (b : BufferPoolManager) : Prop :=
  ∀ id f, s.pool.find id = some f → b.find id = none →
    s.pool.freeList = [] ∧ (s.pool.pages f).pinCount = 0 ∧
      ∀ id' f', s.pool.find id' = some f' → (s.pool.pages f').pinCount = 0 → id' ≠ id →
        s.droppedAt id < s.droppedAt id'

/-- What is at the end of a queue in order dropped first. -/
theorem InOrder.evictsLongestIdle (h : s.InOrder queue) (hpool : s.pool.Consistent queue none)
    (holdest : s.pool.EvictsOldest queue b) : s.EvictsLongestIdle b := by
  intro id f hf hnone
  obtain ⟨hfree, rest, rfl⟩ := holdest id f hf hnone
  refine ⟨hfree, (hpool.idle f (by simp)).2, fun id' f' hf' hpin hne => ?_⟩
  obtain ⟨-, -, hid, -⟩ := hpool.found id f hf
  obtain ⟨-, -, hid', -⟩ := hpool.found id' f' hf'
  have hff' : f' ≠ f := by
    rintro rfl
    exact hne (hid'.symm.trans hid)
  have hrest : f' ∈ rest := by
    have hmem := hpool.mem_of_unpinned hf' hpin
    rw [List.mem_append, List.mem_singleton] at hmem
    exact hmem.resolve_right hff'
  have hlater := (List.pairwise_append.mp h.sorted).2.2 f' hrest f (List.mem_singleton_self f)
  rwa [hid, hid'] at hlater

/-- A call gives no frame exactly when there is none, and leaves the pool
as it was; a call that gives one takes it from the page that has been
unpinned for longest, and from none while a frame is free. -/
theorem eviction_order (poolSize : Nat) (s : ClockedPool) (hs : Reached poolSize s) :
    wp newPage (fun r b => (r = none ↔ s.pool.AllPinned) ∧ (r = none → b = s.pool) ∧
      s.EvictsLongestIdle b) s.pool ∧
    ∀ id, (PoolOp.fetchPage id).Allowed s.pool →
      wp (fetchPage id) (fun r b =>
        (r = none ↔ s.pool.find id = none ∧ s.pool.AllPinned) ∧ (r = none → b = s.pool) ∧
        s.EvictsLongestIdle b) s.pool := by
  obtain ⟨queue, hpool, horder⟩ := hs.inOrder
  constructor
  · apply wp_mono (wp_newPage hpool)
    rintro r b ⟨-, -, -, hr⟩
    cases r with
    | none =>
        obtain ⟨rfl, hall⟩ := hr
        refine ⟨iff_of_true rfl hall, fun _ => rfl, fun id f hf hnone => ?_⟩
        rw [hf] at hnone
        cases hnone
    | some new =>
        obtain ⟨id, tar⟩ := new
        obtain ⟨-, -, -, -, holdest, hnot⟩ := hr
        exact ⟨iff_of_false nofun hnot, nofun, horder.evictsLongestIdle hpool holdest⟩
  · intro id hid
    apply wp_mono (wp_fetchPage hpool hid.1 hid.2)
    rintro r b ⟨-, -, -, -, hr⟩
    cases r with
    | none =>
        obtain ⟨rfl, habsent, hall⟩ := hr
        refine ⟨iff_of_true rfl ⟨habsent, hall⟩, fun _ => rfl, fun id f hf hnone => ?_⟩
        rw [hf] at hnone
        cases hnone
    | some tar =>
        obtain ⟨-, -, holdest, hnot⟩ := hr
        exact ⟨iff_of_false nofun hnot, nofun, horder.evictsLongestIdle hpool holdest⟩

/-- Page 1 is unpinned before page 0, and gives its frame to the next one. -/
theorem eviction_order_two : ∃ (s : ClockedPool) (b : BufferPoolManager),
    s.pool.find 0 = some 0 ∧ s.pool.find 1 = some 1 ∧
    newPage s.pool = .ok (some (2, 1), b) ∧ b.find 1 = none ∧ ¬s.pool.AllPinned ∧
    s.EvictsLongestIdle b := by
  obtain ⟨s₁, s₂, s₃, s, b, h₁, h₂, h₃, h₄, hunpin, hunpin', h₅, hzero, hone, hgone⟩ :
      ∃ (s₁ s₂ s₃ s : ClockedPool) (b : BufferPoolManager),
        run .newPage (start 2) = .ok (.newPage (some (0, 0)), s₁) ∧
        run .newPage s₁ = .ok (.newPage (some (1, 1)), s₂) ∧
        run (.unpinPage 1 false) s₂ = .ok (.success true, s₃) ∧
        run (.unpinPage 0 false) s₃ = .ok (.success true, s) ∧
        (PoolOp.unpinPage 1 false).Allowed s₂.pool ∧
        (PoolOp.unpinPage 0 false).Allowed s₃.pool ∧
        newPage s.pool = .ok (some (2, 1), b) ∧
        s.pool.find 0 = some 0 ∧ s.pool.find 1 = some 1 ∧ b.find 1 = none := by
    refine ⟨_, _, _, _, _, rfl, rfl, rfl, rfl, fun f hf => ?_, fun f hf => ?_, rfl, rfl, rfl, rfl⟩
    · cases hf
      exact Int.one_pos
    · cases hf
      exact Int.one_pos
  have hstart : Reached 2 (start 2) := Reachable.start rfl
  have hs₂ := (hstart.next (show PoolOp.newPage.Allowed _ from trivial) h₁).next
    (show PoolOp.newPage.Allowed _ from trivial) h₂
  have hs : Reached 2 s := (hs₂.next hunpin h₃).next hunpin' h₄
  obtain ⟨r, b', hrun, hiff, -, hevicts⟩ := (eviction_order 2 s hs).1
  rw [h₅] at hrun
  cases hrun
  have hnot : ¬s.pool.AllPinned := fun hall => nomatch hiff.mpr hall
  exact ⟨s, b, hzero, hone, h₅, hgone, hnot, hevicts⟩

end ClockedPool

end ScuDb
