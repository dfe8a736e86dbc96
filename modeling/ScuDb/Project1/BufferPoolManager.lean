import ScuDb.Buffer.Transparency
import ScuDb.Project1.LruReplacer

/-!
The buffer pool of `project1`.

It has the structures of its successor, and two of its calls do something
else: `UnpinPage` overwrites the dirty flag, and `DeletePage` leaves the
page id in the frame that it frees, which `GetVictimPage` does not expect.
While neither makes a difference, a client cannot tell the two pools
apart, so that what holds of the pool of `project2` holds here.
-/

namespace ScuDb

open Foundations

namespace Project1.BufferPoolManager

open ScuDb.BufferPoolManager (PoolM find setPage rehash)

/-! ### The calls -/

/-- `GetVictimPage` -/
def getVictimPage : PoolM (Option Nat) := do
  let b ← get
  match b.freeList with
  | [] =>
      if LruReplacer.size b.replacer = 0 then pure none
      else
        set { b with replacer := (LruReplacer.victim b.replacer).2 }
        match (LruReplacer.victim b.replacer).1 with
        | none => pure none
        | some tar =>
            require ((b.pages tar).pinCount = 0) .assertFailed
            pure (some tar)
  | tar :: rest =>
      set { b with freeList := rest }
      require ((b.pages tar).pageId = invalidPageId) .assertFailed
      require ((b.pages tar).pinCount = 0) .assertFailed
      pure (some tar)

/-- `FetchPage` -/
def fetchPage (id : PageId) : PoolM (Option Nat) := do
  let b ← get
  match b.find id with
  | some tar =>
      let page := b.pages tar
      let b := b.setPage tar { page with pinCount := page.pinCount + 1 }
      set { b with replacer := (LruReplacer.erase b.replacer tar).2 }
      pure (some tar)
  | none =>
      match ← getVictimPage with
      | none => pure none
      | some tar =>
          rehash id tar
          modify fun b =>
            b.setPage tar { data := b.disk.pages id, pageId := id, pinCount := 1, isDirty := false }
          pure (some tar)

/-- `UnpinPage` -/
def unpinPage (id : PageId) (isDirty : Bool) : PoolM Bool := do
  let b ← get
  match b.find id with
  | none => pure false
  | some tar =>
      let page := { b.pages tar with isDirty := isDirty }
      let b := b.setPage tar page
      set b
      if page.pinCount ≤ 0 then pure false
      else
        let page := { page with pinCount := page.pinCount - 1 }
        let b := b.setPage tar page
        set (if page.pinCount = 0 then { b with replacer := LruReplacer.insert b.replacer tar }
          else b)
        pure true

/-- `FlushPage` -/
def flushPage (id : PageId) : PoolM Bool := do
  let b ← get
  match b.find id with
  | none => pure false
  | some tar =>
      let page := b.pages tar
      if page.pageId = invalidPageId then pure false
      else
        if page.isDirty then
          set { b.setPage tar { page with isDirty := false } with
            disk := b.disk.writePage id page.data }
        pure true

/-- `DeletePage` -/
def deletePage (id : PageId) : PoolM Bool := do
  let b ← get
  match b.find id with
  | some tar =>
      let page := b.pages tar
      if 0 < page.pinCount then pure false
      else
        let b := b.setPage tar { page with isDirty := false, data := PageData.zero }
        set { b with
          replacer := (LruReplacer.erase b.replacer tar).2
          pageTable := (b.pageTable.remove hashPageId id).2
          freeList := b.freeList ++ [tar]
          disk := b.disk.deallocatePage id }
        pure true
  | none =>
      set { b with disk := b.disk.deallocatePage id }
      pure true

/-- `NewPage`: the id and the frame of the new page. -/
def newPage : PoolM (Option (PageId × Nat)) := do
  match ← getVictimPage with
  | none => pure none
  | some tar =>
      let b ← get
      let id := b.disk.nextPageId
      set { b with disk := { b.disk with nextPageId := id + 1 } }
      rehash id tar
      modify fun b =>
        b.setPage tar { data := PageData.zero, pageId := id, pinCount := 1, isDirty := false }
      pure (some (id, tar))

/-! ### Calls that are the same -/

variable {b : BufferPoolManager} {queue : List Nat} {id : PageId}

theorem bind_eq {α β : Type} {m m' : PoolM α} (h : m b = m' b) (f : α → PoolM β) :
    (m >>= f) b = (m' >>= f) b := by
  show (m b >>= fun p => f p.1 p.2) = (m' b >>= fun p => f p.1 p.2)
  rw [h]

theorem run_get {α : Type} (f : BufferPoolManager → PoolM α) : (get >>= f) b = f b b := rfl

/-- The size is 1 in `project2`, also when there is nothing to hand out. -/
theorem getVictimPage_eq (h : b.Consistent queue none) :
    getVictimPage b = ScuDb.BufferPoolManager.getVictimPage b := by
  rw [getVictimPage, ScuDb.BufferPoolManager.getVictimPage, run_get, run_get]
  cases hfree : b.freeList with
  | cons tar rest => rfl
  | nil =>
      have hsize : ¬b.replacer.size = 0 := Nat.one_ne_zero
      simp only [if_neg hsize, LruReplacer.size_eq h.replacer]
      cases queue with
      | nil =>
          rw [if_pos List.length_nil, h.replacer.victim_of_nil]
          rw [← hfree]
          rfl
      | cons f queue =>
          rw [if_neg (List.cons_ne_nil f queue ∘ List.length_eq_zero_iff.mp)]
          rfl

theorem fetchPage_eq (h : b.Consistent queue none) :
    fetchPage id b = ScuDb.BufferPoolManager.fetchPage id b := by
  rw [fetchPage, ScuDb.BufferPoolManager.fetchPage, run_get, run_get]
  cases hf : b.find id with
  | some tar =>
      have hsame (page : Page) : (b.setPage tar page).replacer.Represents queue := h.replacer
      simp only [LruReplacer.erase_eq (hsame _)]
  | none => exact bind_eq (getVictimPage_eq h) _

theorem newPage_eq (h : b.Consistent queue none) :
    newPage b = ScuDb.BufferPoolManager.newPage b := by
  rw [newPage, ScuDb.BufferPoolManager.newPage]
  exact bind_eq (getVictimPage_eq h) _

theorem flushPage_eq : flushPage id = ScuDb.BufferPoolManager.flushPage id := rfl

/-- `DeletePage` of a page that is not in a frame, or is pinned there. -/
theorem deletePage_of_absent (hf : b.find id = none) : deletePage id b = .ok (true, b) := by
  rw [deletePage, run_get, hf]
  rfl

theorem deletePage_of_pinned {tar : Nat} (hf : b.find id = some tar)
    (hpin : 0 < (b.pages tar).pinCount) : deletePage id b = .ok (false, b) := by
  rw [deletePage, run_get, hf]
  simp only [if_pos hpin]
  rfl

/-! ### `UnpinPage`

It marks the page first, and does then what its successor does. -/

/-- The pool in which a frame is marked. -/
def mark (b : BufferPoolManager) (tar : Nat) (isDirty : Bool) : BufferPoolManager :=
  b.setPage tar { b.pages tar with isDirty := isDirty }

theorem mark_pages_self (b : BufferPoolManager) (tar : Nat) (isDirty : Bool) :
    (mark b tar isDirty).pages tar = { b.pages tar with isDirty := isDirty } :=
  Function.update_self ..

variable {tar : Nat} {isDirty : Bool}

theorem unpinPage_of_absent (hf : b.find id = none) :
    unpinPage id isDirty b = .ok (false, b) := by
  rw [unpinPage, run_get, hf]
  rfl

theorem unpinPage_of_unpinned (hf : b.find id = some tar) (hpin : (b.pages tar).pinCount ≤ 0) :
    unpinPage id isDirty b = .ok (false, mark b tar isDirty) := by
  rw [unpinPage, run_get, hf]
  simp only [if_pos hpin]
  rfl

theorem unpinPage_of_pinned (h : b.Consistent queue none) (hf : b.find id = some tar)
    (hpin : 0 < (b.pages tar).pinCount) :
    unpinPage id isDirty b = ScuDb.BufferPoolManager.unpinPage id isDirty (mark b tar isDirty) := by
  have hf' : (mark b tar isDirty).find id = some tar := hf
  rw [unpinPage, ScuDb.BufferPoolManager.unpinPage, run_get, run_get, hf, hf']
  have hsame (page : Page) : ((mark b tar isDirty).setPage tar page).replacer.Represents queue :=
    h.replacer
  simp only [if_neg (not_le.mpr hpin), mark_pages_self, Bool.or_self, require, if_pos hpin,
    ← LruReplacer.insert_eq (hsame _)]
  rfl

end Project1.BufferPoolManager

/-! ### Clients of the pool -/

namespace Project1

/-- Execute a call. -/
def run : PoolOp → ScuDb.BufferPoolManager.PoolM PoolResult
  | .newPage => PoolResult.newPage <$> BufferPoolManager.newPage
  | .fetchPage id => PoolResult.page <$> BufferPoolManager.fetchPage id
  | .unpinPage id isDirty => PoolResult.success <$> BufferPoolManager.unpinPage id isDirty
  | .flushPage id => PoolResult.success <$> BufferPoolManager.flushPage id
  | .deletePage id => PoolResult.success <$> BufferPoolManager.deletePage id
  | .write tar g => do
      modify fun b => b.setPage tar { b.pages tar with data := g (b.pages tar).data }
      pure .unit

section Clients

variable {C : Type}

section Record

variable [DecidableEq C]

/-- The record of the clients after a call. A page that is deleted keeps
its bytes on the disk, so nothing changes for it. -/
def note (op : ClientOp C) (r : PoolResult) (u : PageId → PageUse C) : PageId → PageUse C :=
  match op with
  | .deletePage _ => u
  | _ => op.note r u

/-- Execute a call of a client and record it. -/
def runClient (op : ClientOp C) : Program Fault (Session C) PoolResult := fun s => do
  let (r, pool) ← run op.call s.pool
  pure (r, ⟨pool, note op r s.clients⟩)

/-- The rules clients keep to: they fetch pages that have been allocated,
they unpin pages that they hold, or that nobody holds, as dirty when they
have changed them since, and they write into pages while they hold them. -/
def Allowed : ClientOp C → Session C → Prop
  | .fetchPage _ id, s => 0 ≤ id ∧ id < s.pool.disk.nextPageId
  | .unpinPage c id isDirty, s =>
      ((∃ tar, (c, tar) ∈ (s.clients id).holders) ∨ (s.clients id).holders = []) ∧
        ((s.clients id).changed c = true → isDirty = true)
  | .write c id tar _, s => (c, tar) ∈ (s.clients id).holders
  | _, _ => True

end Record

/-- The free frames have no page; a page whose bytes are not those on the
disk is marked, unless a client has still to say that it has changed it;
and the bytes of a page that is in no frame are on the disk. -/
structure Sound (s : Session C) : Prop where
  free : ∀ f ∈ s.pool.freeList, (s.pool.pages f).pageId = invalidPageId
  marked : ∀ id page, s.pool.cache.resident id = some page →
    page.data ≠ s.pool.cache.disk id → (∀ c, (s.clients id).changed c = false) →
    page.isDirty = true
  written : ∀ id, s.pool.cache.resident id = none → s.pool.cache.disk id = (s.clients id).bytes

/-- A page is not unmarked, unless its bytes are those on the disk or a
client has still to say that it has changed it. No page is deleted that is
in a frame, unless it is pinned there. -/
def Harmless : ClientOp C → Session C → Prop
  | .unpinPage _ id isDirty, s => isDirty = false →
      ∀ page, s.pool.cache.resident id = some page →
        page.data = s.pool.cache.disk id ∨ ∃ c, (s.clients id).changed c = true
  | .deletePage id, s => ∀ page, s.pool.cache.resident id = some page → 0 < page.pinCount
  | _, _ => True

/-- What is known while all calls have been harmless. -/
structure Inv (s : Session C) : Prop where
  transparent : Transparent s
  undeleted : ∀ id, (s.clients id).deleted = false

variable {s : Session C}

theorem Inv.sound (h : Inv s) : Sound s where
  free f hf := by
    obtain ⟨queue, hpool⟩ := h.transparent.pool
    exact (hpool.free f hf).2.2.2.1
  marked id page hpage hne hchanged := by
    obtain ⟨-, -, hdata, hdisk⟩ := (h.transparent.page id).resident page hpage
    by_contra hdirty
    rw [Bool.not_eq_true] at hdirty
    exact hne (hdata.trans (hdisk hdirty hchanged).symm)
  written id hnone := ((h.transparent.page id).absent hnone).2 (h.undeleted id)

theorem inv_start (poolSize : Nat) : Inv (Session.start poolSize : Session C) :=
  ⟨transparent_create poolSize, fun _ => rfl⟩

/-- A page may be marked, and it may be unmarked while its bytes are those
on the disk or somebody has still to say that they are not. -/
theorem transparent_mark (h : Transparent s) {id : PageId} {tar : Nat}
    (hf : s.pool.find id = some tar) {isDirty : Bool}
    (hclean : isDirty = false → (s.pool.pages tar).data = s.pool.disk.pages id ∨
      ∃ c, (s.clients id).changed c = true) :
    Transparent (⟨BufferPoolManager.mark s.pool tar isDirty, s.clients⟩ : Session C) := by
  obtain ⟨queue, hpool⟩ := h.pool
  have hres : s.pool.cache.resident id = some (s.pool.pages tar) := by
    simp [ScuDb.BufferPoolManager.cache, hf]
  have hid := (hpool.found id tar hf).2.2.1
  have hself := h.page id
  rw [hf, hres] at hself
  have hmarked : PageOk (some tar) (some { s.pool.pages tar with isDirty := isDirty })
      (s.pool.cache.disk id) (s.clients id) := by
    obtain ⟨hheld, hchanged, hreleased, hresident, habsent⟩ := hself
    refine ⟨hheld, hchanged, hreleased, ?_, fun hnone => absurd hnone (Option.some_ne_none _)⟩
    rintro p ⟨⟩
    obtain ⟨hdel, hpins, hdata, hdisk⟩ := hresident _ rfl
    refine ⟨hdel, hpins, hdata, fun hfalse hall => ?_⟩
    obtain hsame | ⟨c, hc⟩ := hclean hfalse
    · exact hsame.symm.trans hdata
    · rw [hall c] at hc
      cases hc
  have hupdate : s.clients = Function.update s.clients id (s.clients id) :=
    (Function.update_eq_self id s.clients).symm
  rw [hupdate]
  refine Transparent.step_load id ⟨queue, hpool.setPage hf _ hid rfl⟩ (hpool.cache_setPage hf _)
    (fun k _ => h.page k) ?_ h.fresh
  have hfind : (BufferPoolManager.mark s.pool tar isDirty).find id = some tar := hf
  rw [hfind]
  exact hmarked

variable [DecidableEq C] {op : ClientOp C}

theorem wp_runClient {Q : PoolResult → Session C → Prop} :
    wp (runClient op) Q s ↔ wp (run op.call) (fun r b => Q r ⟨b, note op r s.clients⟩) s.pool := by
  have hbind : runClient op s = (run op.call s.pool >>= fun p =>
      pure (p.1, ⟨p.2, note op p.1 s.clients⟩)) := rfl
  constructor
  · rintro ⟨r, s', hrun, hq⟩
    rw [hbind] at hrun
    cases hcall : run op.call s.pool with
    | error e =>
        rw [hcall] at hrun
        cases hrun
    | ok p =>
        rw [hcall] at hrun
        cases hrun
        exact ⟨p.1, p.2, hcall, hq⟩
  · rintro ⟨r, b, hcall, hq⟩
    refine ⟨r, ⟨b, note op r s.clients⟩, ?_, hq⟩
    rw [hbind, hcall]
    rfl

theorem undeleted_note {u : PageId → PageUse C} (h : ∀ id, (u id).deleted = false)
    (op : ClientOp C) (r : PoolResult) (id : PageId) : (note op r u id).deleted = false := by
  have hupdate (k : PageId) (v : PageUse C) (hv : v.deleted = false) :
      (Function.update u k v id).deleted = false := by
    by_cases hid : id = k
    · rw [hid, Function.update_self]
      exact hv
    · rw [Function.update_of_ne hid]
      exact h id
  cases op with
  | deletePage k => exact h id
  | flushPage k => exact h id
  | write c k tar g => exact hupdate k _ (h k)
  | newPage c =>
      cases r with
      | newPage r =>
          cases r with
          | none => exact h id
          | some new => exact hupdate new.1 _ rfl
      | page r => exact h id
      | success r => exact h id
      | unit => exact h id
  | fetchPage c k =>
      cases r with
      | page r =>
          cases r with
          | none => exact h id
          | some tar => exact hupdate k _ (h k)
      | newPage r => exact h id
      | success r => exact h id
      | unit => exact h id
  | unpinPage c k isDirty =>
      cases r with
      | success r =>
          cases r with
          | false => exact h id
          | true => exact hupdate k _ (h k)
      | newPage r => exact h id
      | page r => exact h id
      | unit => exact h id

theorem Inv.of_transparent (h : Inv s)
    (hrun : wp (runClient op) (fun _ s' => Transparent s') s) :
    wp (runClient op) (fun _ s' => Inv s') s := by
  rw [wp_runClient] at hrun ⊢
  exact wp_mono hrun fun r b hb => ⟨hb, undeleted_note h.undeleted op r⟩

theorem wp_runClient_of_eq {Q : PoolResult → Session C → Prop}
    (hcall : run op.call s.pool = op.call.run s.pool)
    (hnote : ∀ r, note op r s.clients = op.note r s.clients) :
    wp (runClient op) Q s ↔ wp op.run Q s := by
  rw [wp_runClient, ClientOp.wp_run, wp, wp, hcall]
  simp only [hnote]

theorem map_eq {α β : Type} {b b' : BufferPoolManager} {m m' : ScuDb.BufferPoolManager.PoolM α}
    (h : m b = m' b') (f : α → β) : (f <$> m) b = (f <$> m') b' := by
  show (m b >>= fun p => pure (f p.1, p.2)) = (m' b' >>= fun p => pure (f p.1, p.2))
  rw [h]

theorem map_ok {α β : Type} {b b' : BufferPoolManager}
    {m : ScuDb.BufferPoolManager.PoolM α} {a : α} (h : m b = .ok (a, b')) (f : α → β) :
    (f <$> m) b = .ok (f a, b') := by
  show (m b >>= fun p => pure (f p.1, p.2)) = _
  rw [h]
  rfl

theorem runClient_ok {r : PoolResult} {b : BufferPoolManager}
    (h : run op.call s.pool = .ok (r, b)) :
    runClient op s = .ok (r, ⟨b, note op r s.clients⟩) := by
  show (run op.call s.pool >>= _) = _
  rw [h]
  rfl

theorem Inv.newPage (h : Inv s) (c : C) :
    wp (runClient (.newPage c)) (fun _ s' => Inv s') s := by
  obtain ⟨queue, hpool⟩ := h.transparent.pool
  refine h.of_transparent ((wp_runClient_of_eq ?_ fun _ => rfl).mpr ?_)
  · exact map_eq (BufferPoolManager.newPage_eq hpool) _
  · exact ClientOp.wp_transparent (.newPage c) h.transparent trivial

theorem Inv.fetchPage (h : Inv s) {c : C} {id : PageId}
    (hop : Allowed (ClientOp.fetchPage c id) s) :
    wp (runClient (.fetchPage c id)) (fun _ s' => Inv s') s := by
  obtain ⟨queue, hpool⟩ := h.transparent.pool
  refine h.of_transparent ((wp_runClient_of_eq ?_ fun _ => rfl).mpr ?_)
  · exact map_eq (BufferPoolManager.fetchPage_eq hpool) _
  · exact ClientOp.wp_transparent (.fetchPage c id) h.transparent
      ⟨hop.1, hop.2, h.undeleted id⟩

theorem Inv.flushPage (h : Inv s) (id : PageId) :
    wp (runClient (.flushPage id)) (fun _ s' => Inv s') s :=
  h.of_transparent ((wp_runClient_of_eq rfl fun _ => rfl).mpr
    (ClientOp.wp_transparent (.flushPage id) h.transparent trivial))

theorem Inv.write (h : Inv s) {c : C} {id : PageId} {tar : Nat} {g : PageData → PageData}
    (hop : Allowed (ClientOp.write c id tar g) s) :
    wp (runClient (.write c id tar g)) (fun _ s' => Inv s') s :=
  h.of_transparent ((wp_runClient_of_eq rfl fun _ => rfl).mpr
    (ClientOp.wp_transparent (.write c id tar g) h.transparent hop))

/-- `DeletePage` that finds no page in a frame, or a pinned one. -/
theorem Inv.deletePage (h : Inv s) {id : PageId}
    (hop : Harmless (ClientOp.deletePage id : ClientOp C) s) :
    wp (runClient (.deletePage id)) (fun _ s' => Inv s') s := by
  rw [wp_runClient]
  show wp (PoolResult.success <$> BufferPoolManager.deletePage id) _ _
  rw [wp_map]
  cases hf : s.pool.find id with
  | none => exact ⟨_, _, BufferPoolManager.deletePage_of_absent hf, h⟩
  | some tar =>
      have hpin := hop (s.pool.pages tar) (by simp [ScuDb.BufferPoolManager.cache, hf])
      exact ⟨_, _, BufferPoolManager.deletePage_of_pinned hf hpin, h⟩

/-- What `UnpinPage` does when a client calls it: nothing, a mark, or what
its successor does on the marked pool. -/
theorem run_unpinPage (h : Inv s) {c : C} {id : PageId} {isDirty : Bool}
    (hop : Allowed (ClientOp.unpinPage c id isDirty) s) :
    s.pool.find id = none ∧
        runClient (.unpinPage c id isDirty) s = .ok (.success false, s) ∨
      ∃ tar, s.pool.find id = some tar ∧
        (runClient (.unpinPage c id isDirty) s =
            .ok (.success false, ⟨BufferPoolManager.mark s.pool tar isDirty, s.clients⟩) ∨
          (∃ tar, (c, tar) ∈ (s.clients id).holders) ∧
          runClient (.unpinPage c id isDirty) s = (ClientOp.unpinPage c id isDirty).run
            ⟨BufferPoolManager.mark s.pool tar isDirty, s.clients⟩) := by
  obtain ⟨queue, hpool⟩ := h.transparent.pool
  have hbind {r : Bool} {b : BufferPoolManager}
      (hrun : BufferPoolManager.unpinPage id isDirty s.pool = .ok (r, b)) :
      runClient (.unpinPage c id isDirty) s =
        .ok (.success r, ⟨b, note (.unpinPage c id isDirty) (.success r) s.clients⟩) :=
    runClient_ok (map_ok hrun _)
  cases hf : s.pool.find id with
  | none => exact Or.inl ⟨rfl, hbind (BufferPoolManager.unpinPage_of_absent hf)⟩
  | some tar =>
      refine Or.inr ⟨tar, rfl, ?_⟩
      have hres : s.pool.cache.resident id = some (s.pool.pages tar) := by
        simp [ScuDb.BufferPoolManager.cache, hf]
      have hpins := ((h.transparent.page id).resident _ hres).2.1
      by_cases hpin : 0 < (s.pool.pages tar).pinCount
      · right
        have hne : (s.clients id).holders ≠ [] := by
          intro hnone
          rw [hpins, hnone] at hpin
          cases hpin
        refine ⟨hop.1.resolve_right hne, ?_⟩
        have hcall : run (ClientOp.unpinPage c id isDirty).call s.pool =
            (ClientOp.unpinPage c id isDirty).call.run
              (BufferPoolManager.mark s.pool tar isDirty) :=
          map_eq (BufferPoolManager.unpinPage_of_pinned hpool hf hpin) _
        show (run (ClientOp.unpinPage c id isDirty).call s.pool >>= _) = _
        rw [hcall]
        rfl
      · exact Or.inl (hbind (BufferPoolManager.unpinPage_of_unpinned hf (not_lt.mp hpin)))

theorem Inv.unpinPage (h : Inv s) {c : C} {id : PageId} {isDirty : Bool}
    (hop : Allowed (ClientOp.unpinPage c id isDirty) s)
    (hharmless : Harmless (ClientOp.unpinPage c id isDirty) s) :
    wp (runClient (.unpinPage c id isDirty)) (fun _ s' => Inv s') s := by
  refine h.of_transparent ?_
  obtain ⟨-, hrun⟩ | ⟨tar, hf, hrun⟩ := run_unpinPage h hop
  · exact ⟨_, _, hrun, h.transparent⟩
  · have hres : s.pool.cache.resident id = some (s.pool.pages tar) := by
      simp [ScuDb.BufferPoolManager.cache, hf]
    have hmark := transparent_mark h.transparent hf fun hfalse => hharmless hfalse _ hres
    obtain hrun | ⟨hheld, hrun⟩ := hrun
    · exact ⟨_, _, hrun, hmark⟩
    · obtain ⟨r, s', hok, ht, -⟩ :=
        ClientOp.wp_unpinPage hmark hheld fun hchanged => Or.inl (hop.2 hchanged)
      exact ⟨r, s', hrun.trans hok, ht⟩

theorem Inv.step (h : Inv s) (op : ClientOp C) (hop : Allowed op s) (hharmless : Harmless op s) :
    wp (runClient op) (fun _ s' => Inv s') s := by
  cases op with
  | newPage c => exact h.newPage c
  | fetchPage c id => exact h.fetchPage hop
  | unpinPage c id isDirty => exact h.unpinPage hop hharmless
  | flushPage id => exact h.flushPage id
  | deletePage id => exact h.deletePage hharmless
  | write c id tar g => exact h.write hop

/-! A call that is not harmless does its harm at once. -/

omit [DecidableEq C] in
theorem not_sound_of_unmarked {id : PageId} {page : Page}
    (hpage : s.pool.cache.resident id = some page) (hdirty : page.isDirty = false)
    (hne : page.data ≠ s.pool.cache.disk id)
    (hchanged : ∀ c, (s.clients id).changed c = false) : ¬Sound s := by
  intro hsound
  rw [hsound.marked id page hpage hne hchanged] at hdirty
  cases hdirty

theorem Inv.harm_unpinPage (h : Inv s) {c : C} {id : PageId} {isDirty : Bool}
    (hop : Allowed (ClientOp.unpinPage c id isDirty) s)
    (hharm : ¬Harmless (ClientOp.unpinPage c id isDirty) s) :
    wp (runClient (.unpinPage c id isDirty)) (fun _ s' => ¬Sound s') s := by
  obtain ⟨queue, hpool⟩ := h.transparent.pool
  simp only [Harmless, not_forall, not_or, not_exists, Bool.not_eq_true] at hharm
  obtain ⟨rfl, page, hres, hne, hchanged⟩ := hharm
  obtain ⟨hnone, -⟩ | ⟨tar, hf, hrun⟩ := run_unpinPage h hop
  · simp [ScuDb.BufferPoolManager.cache, hnone] at hres
  · have hpage : page = s.pool.pages tar := by
      simpa [ScuDb.BufferPoolManager.cache, hf, eq_comm] using hres
    subst hpage
    let marked : Page := { s.pool.pages tar with isDirty := false }
    have hcache : (BufferPoolManager.mark s.pool tar false).cache = s.pool.cache.load id marked :=
      hpool.cache_setPage hf marked
    have hmarked : (BufferPoolManager.mark s.pool tar false).cache.resident id = some marked := by
      rw [hcache]
      exact Function.update_self ..
    obtain hrun | ⟨⟨tar', hheld⟩, hrun⟩ := hrun
    · exact ⟨_, _, hrun, not_sound_of_unmarked hmarked rfl hne hchanged⟩
    · have hpins : ∀ page, (BufferPoolManager.mark s.pool tar false).cache.resident id = some page →
          0 < page.pinCount := by
        intro page hpage
        rw [hmarked] at hpage
        cases hpage
        show 0 < (s.pool.pages tar).pinCount
        rw [((h.transparent.page id).resident _ hres).2.1]
        exact_mod_cast List.length_pos_of_mem hheld
      have hconsistent := hpool.setPage hf marked (hpool.found id tar hf).2.2.1 rfl
      have hharm : wp (ClientOp.unpinPage c id false).run (fun _ s' => ¬Sound s')
          ⟨BufferPoolManager.mark s.pool tar false, s.clients⟩ := by
        rw [ClientOp.wp_run]
        show wp (PoolResult.success <$> ScuDb.BufferPoolManager.unpinPage id false) _ _
        rw [wp_map]
        refine wp_mono (ScuDb.BufferPoolManager.wp_unpinPage hconsistent hpins) ?_
        rintro r b ⟨-, -, -, -, hr⟩
        rw [hmarked] at hr
        obtain ⟨rfl, hload⟩ := hr
        rw [hcache] at hload
        have hresident : b.cache.resident id =
            some { marked with
              pinCount := marked.pinCount - 1, isDirty := marked.isDirty || false } := by
          rw [hload]
          exact Function.update_self ..
        refine not_sound_of_unmarked hresident rfl ?_ ?_
        · show _ ≠ b.cache.disk id
          rw [hload]
          exact hne
        · intro c'
          simp only [ClientOp.note, Function.update_self, Bool.false_eq_true, and_false, if_false]
          exact hchanged c'
      obtain ⟨r, s', hok, hnot⟩ := hharm
      exact ⟨r, s', hrun.trans hok, hnot⟩

theorem Inv.harm_deletePage (h : Inv s) {id : PageId}
    (hharm : ¬Harmless (ClientOp.deletePage id : ClientOp C) s) :
    wp (runClient (.deletePage id)) (fun _ s' => ¬Sound s') s := by
  obtain ⟨queue, hpool⟩ := h.transparent.pool
  simp only [Harmless, not_forall] at hharm
  obtain ⟨page, hres, hpin⟩ := hharm
  obtain ⟨tar, hf, rfl⟩ := Option.map_eq_some_iff.mp hres
  obtain ⟨-, -, hid, hlo, -⟩ := hpool.found id tar hf
  rw [wp_runClient]
  show wp (PoolResult.success <$> BufferPoolManager.deletePage id) _ _
  rw [wp_map, BufferPoolManager.deletePage, wp_bind, wp_get, hf]
  simp only [if_neg hpin, wp_bind, wp_set, wp_pure]
  intro hsound
  have hfree := hsound.free tar (List.mem_append_right _ List.mem_cons_self)
  have hpage : (Function.update s.pool.pages tar { s.pool.pages tar with
      isDirty := false, data := PageData.zero } tar).pageId = invalidPageId := hfree
  rw [Function.update_self] at hpage
  rw [← hid, hpage] at hlo
  exact absurd hlo (by decide)

theorem Inv.harm (h : Inv s) (op : ClientOp C) (hop : Allowed op s) (hharm : ¬Harmless op s) :
    wp (runClient op) (fun _ s' => ¬Sound s') s := by
  cases op with
  | newPage c => exact absurd trivial hharm
  | fetchPage c id => exact absurd trivial hharm
  | unpinPage c id isDirty => exact h.harm_unpinPage hop hharm
  | flushPage id => exact absurd trivial hharm
  | deletePage id => exact h.harm_deletePage hharm
  | write c id tar g => exact absurd trivial hharm

/-! ### Runs -/

/-- All calls of a run are allowed where they are made. -/
def AllAllowed (s : Session C) : List (ClientOp C) → Prop
  | [] => True
  | op :: ops => Allowed op s ∧ ∀ r s', runClient op s = .ok (r, s') → AllAllowed s' ops

/-- All calls of a run are harmless where they are made. -/
def AllHarmless (s : Session C) : List (ClientOp C) → Prop
  | [] => True
  | op :: ops => Harmless op s ∧ ∀ r s', runClient op s = .ok (r, s') → AllHarmless s' ops

/-- No assertion fails in a run, and all its states are sound. -/
def AllSound (s : Session C) : List (ClientOp C) → Prop
  | [] => Sound s
  | op :: ops => Sound s ∧ ∃ r s', runClient op s = .ok (r, s') ∧ AllSound s' ops

theorem AllSound.sound {ops : List (ClientOp C)} (h : AllSound s ops) : Sound s := by
  cases ops with
  | nil => exact h
  | cons op ops => exact h.1

theorem Inv.allSound_run_iff (h : Inv s) {ops : List (ClientOp C)} (hops : AllAllowed s ops) :
    AllSound s ops ↔ AllHarmless s ops := by
  induction ops generalizing s with
  | nil => exact iff_of_true h.sound trivial
  | cons op ops ih =>
      obtain ⟨hop, hrest⟩ := hops
      by_cases hharmless : Harmless op s
      · obtain ⟨r, s', hrun, hinv⟩ := h.step op hop hharmless
        have hnext := ih hinv (hrest r s' hrun)
        constructor
        · rintro ⟨-, r₁, s₁, hrun₁, hsound⟩
          rw [hrun] at hrun₁
          cases hrun₁
          refine ⟨hharmless, fun r₂ s₂ hrun₂ => ?_⟩
          rw [hrun] at hrun₂
          cases hrun₂
          exact hnext.mp hsound
        · rintro ⟨-, hall⟩
          exact ⟨h.sound, r, s', hrun, hnext.mpr (hall r s' hrun)⟩
      · obtain ⟨r, s', hrun, hnot⟩ := h.harm op hop hharmless
        refine iff_of_false ?_ fun hall => hharmless hall.1
        rintro ⟨-, r₁, s₁, hrun₁, hsound⟩
        rw [hrun] at hrun₁
        cases hrun₁
        exact hnot hsound.sound

theorem AllAllowed.cons {r : PoolResult} {s' : Session C} {ops : List (ClientOp C)}
    (hop : Allowed op s) (hrun : runClient op s = .ok (r, s')) (hops : AllAllowed s' ops) :
    AllAllowed s (op :: ops) := by
  refine ⟨hop, fun r₁ s₁ hrun₁ => ?_⟩
  rw [hrun] at hrun₁
  cases hrun₁
  exact hops

theorem AllHarmless.cons {r : PoolResult} {s' : Session C} {ops : List (ClientOp C)}
    (hop : Harmless op s) (hrun : runClient op s = .ok (r, s')) (hops : AllHarmless s' ops) :
    AllHarmless s (op :: ops) := by
  refine ⟨hop, fun r₁ s₁ hrun₁ => ?_⟩
  rw [hrun] at hrun₁
  cases hrun₁
  exact hops

theorem AllSound.tail {r : PoolResult} {s' : Session C} {ops : List (ClientOp C)}
    (h : AllSound s (op :: ops)) (hrun : runClient op s = .ok (r, s')) : AllSound s' ops := by
  obtain ⟨-, r₁, s₁, hrun₁, hsound⟩ := h
  rw [hrun] at hrun₁
  cases hrun₁
  exact hsound

/-- The states of a run are sound as long as no call takes away a mark
that is needed, and no call deletes a page that is in a frame. -/
theorem allSound_iff (poolSize : Nat) {ops : List (ClientOp C)}
    (hops : AllAllowed (Session.start poolSize) ops) :
    AllSound (Session.start poolSize : Session C) ops ↔
      AllHarmless (Session.start poolSize) ops :=
  (inv_start poolSize).allSound_run_iff hops

end Clients

/-! Two clients hold a page, and one of them has changed it. If the other
one unpins it first, nothing is lost. -/

theorem allSound_iff_in_turn : AllSound (Session.start 1 : Session Nat)
    [.newPage 0, .fetchPage 1 0, .write 0 0 0 fun _ => PageData.ones, .unpinPage 1 0 false,
      .unpinPage 0 0 true] := by
  obtain ⟨s₁, s₂, s₃, s₄, s₅, h₁, h₂, h₃, h₄, h₅, hfetch, hwrite, hunpin, hunpin', hharmless⟩ :
      ∃ s₁ s₂ s₃ s₄ s₅ : Session Nat,
        runClient (.newPage 0) (Session.start 1) = .ok (.newPage (some (0, 0)), s₁) ∧
        runClient (.fetchPage 1 0) s₁ = .ok (.page (some 0), s₂) ∧
        runClient (.write 0 0 0 fun _ => PageData.ones) s₂ = .ok (.unit, s₃) ∧
        runClient (.unpinPage 1 0 false) s₃ = .ok (.success true, s₄) ∧
        runClient (.unpinPage 0 0 true) s₄ = .ok (.success true, s₅) ∧
        Allowed (.fetchPage 1 0) s₁ ∧ (0, 0) ∈ (s₂.clients 0).holders ∧
        Allowed (.unpinPage 1 0 false) s₃ ∧ Allowed (.unpinPage 0 0 true) s₄ ∧
        (s₃.clients 0).changed 0 = true :=
    ⟨_, _, _, _, _, rfl, rfl, rfl, rfl, rfl, ⟨le_rfl, Int.one_pos⟩, .tail _ (.head _),
      ⟨Or.inl ⟨0, .head _⟩, fun h => absurd h Bool.false_ne_true⟩,
      ⟨Or.inl ⟨0, .head _⟩, fun _ => rfl⟩, rfl⟩
  have hops : AllAllowed (Session.start 1 : Session Nat) [.newPage 0, .fetchPage 1 0,
      .write 0 0 0 fun _ => PageData.ones, .unpinPage 1 0 false, .unpinPage 0 0 true] :=
    .cons trivial h₁ <| .cons hfetch h₂ <| .cons hwrite h₃ <| .cons hunpin h₄ <|
      .cons hunpin' h₅ trivial
  refine (allSound_iff 1 hops).mpr ?_
  refine .cons trivial h₁ (.cons trivial h₂ (.cons trivial h₃ (.cons ?_ h₄ (.cons ?_ h₅ trivial))))
  · exact fun _ _ _ => Or.inr ⟨0, hharmless⟩
  · exact fun h => absurd h (by decide)

/-- If the other one unpins it last, the mark is gone, and the frame goes to
the next page without a write. A frame whose page has been deleted cannot
be used again. -/
theorem exists_runs_not_sound :
    (AllAllowed (Session.start 1 : Session Nat) [.newPage 0, .fetchPage 1 0,
        .write 0 0 0 fun _ => PageData.ones, .unpinPage 0 0 true, .unpinPage 1 0 false,
        .newPage 0] ∧
      ¬AllSound (Session.start 1 : Session Nat) [.newPage 0, .fetchPage 1 0,
        .write 0 0 0 fun _ => PageData.ones, .unpinPage 0 0 true, .unpinPage 1 0 false,
        .newPage 0]) ∧
    ∃ s₁ s₂ s₃ : Session Nat,
      runClient (.newPage 0) (Session.start 1) = .ok (.newPage (some (0, 0)), s₁) ∧
      runClient (.unpinPage 0 0 true) s₁ = .ok (.success true, s₂) ∧
      runClient (.deletePage 0) s₂ = .ok (.success true, s₃) ∧
      runClient (.newPage 0) s₃ = .error .assertFailed := by
  refine ⟨?_, _, _, _, rfl, rfl, rfl, rfl⟩
  obtain ⟨s₁, s₂, s₃, s₄, s₅, s₆, h₁, h₂, h₃, h₄, h₅, h₆, hfetch, hwrite, hunpin, hunpin', habsent,
      hdisk, hbytes⟩ :
      ∃ s₁ s₂ s₃ s₄ s₅ s₆ : Session Nat,
        runClient (.newPage 0) (Session.start 1) = .ok (.newPage (some (0, 0)), s₁) ∧
        runClient (.fetchPage 1 0) s₁ = .ok (.page (some 0), s₂) ∧
        runClient (.write 0 0 0 fun _ => PageData.ones) s₂ = .ok (.unit, s₃) ∧
        runClient (.unpinPage 0 0 true) s₃ = .ok (.success true, s₄) ∧
        runClient (.unpinPage 1 0 false) s₄ = .ok (.success true, s₅) ∧
        runClient (.newPage 0) s₅ = .ok (.newPage (some (1, 0)), s₆) ∧
        Allowed (.fetchPage 1 0) s₁ ∧ (0, 0) ∈ (s₂.clients 0).holders ∧
        Allowed (.unpinPage 0 0 true) s₃ ∧ Allowed (.unpinPage 1 0 false) s₄ ∧
        s₆.pool.cache.resident 0 = none ∧ s₆.pool.cache.disk 0 = PageData.zero ∧
        (s₆.clients 0).bytes = PageData.ones :=
    ⟨_, _, _, _, _, _, rfl, rfl, rfl, rfl, rfl, rfl, ⟨le_rfl, Int.one_pos⟩, .tail _ (.head _),
      ⟨Or.inl ⟨0, .tail _ (.head _)⟩, fun _ => rfl⟩,
      ⟨Or.inl ⟨0, .head _⟩, fun h => absurd h Bool.false_ne_true⟩,
      rfl, rfl, rfl⟩
  constructor
  · exact .cons trivial h₁ (.cons hfetch h₂ (.cons hwrite h₃ (.cons hunpin h₄ (.cons hunpin' h₅
      (.cons trivial h₆ trivial)))))
  · intro hall
    have hsound : Sound s₆ :=
      (((((hall.tail h₁).tail h₂).tail h₃).tail h₄).tail h₅).tail h₆
    have hlost := hsound.written 0 habsent
    rw [hdisk, hbytes] at hlost
    have hbyte := congrFun hlost ⟨0, by decide⟩
    exact absurd hbyte (by decide)

end Project1

end ScuDb
