import ScuDb.Buffer.Transparency
import ScuDb.Page.TablePage

/-!
Closing the database, `VtabDisconnect` and the destructors it calls.

What a virtual table does between two SQL statements is a sequence of
calls of the buffer pool by its heap, its index and the header page, after
which it holds no page; a commit is one more such sequence, which applies
deletions. None of it calls `FlushPage`. The engine is then deleted, the
disk manager first, and the pool frees its frames whatever is in them. So
of the pages still in the pool the file keeps what it was last given.
-/

namespace ScuDb

open Foundations

/-- `~BufferPoolManager`: the frames are freed. -/
def BufferPoolManager.destroy (b : BufferPoolManager) : Disk := b.disk

/-- The part of a `StorageEngine` that holds pages. -/
structure StorageEngine where
  bufferPoolManager : BufferPoolManager

/-- `~StorageEngine`: what is in the file. Logging is off, so the flush
thread is not stopped. -/
def StorageEngine.destroy (e : StorageEngine) : Disk := e.bufferPoolManager.destroy

/-- `VtabDisconnect`: the table holds no pages when it is deleted. -/
def vtabDisconnect (e : StorageEngine) : Disk := e.destroy

variable {C : Type}

/-- A session and, for every page, the bytes it had when it was last
unpinned as dirty: zeros, when it never was. -/
structure WriteHistory (C : Type) where
  session : Session C
  lastDirty : PageId → PageData

theorem resident_of_find {b : BufferPoolManager} {id : PageId} {tar : Nat}
    (hfind : b.find id = some tar) : b.cache.resident id = some (b.pages tar) := by
  show (b.find id).map b.pages = _
  rw [hfind]
  rfl

namespace WriteHistory

def start (poolSize : Nat) : WriteHistory C := ⟨Session.start poolSize, fun _ => PageData.zero⟩

/-- The engine the calls of the session are made to. -/
def engine (s : WriteHistory C) : StorageEngine := ⟨s.session.pool⟩

/-- Nobody holds a page: no statement is being executed. -/
def Idle (s : WriteHistory C) : Prop := ∀ id, (s.session.clients id).holders = []

/-- Nobody holds a page that has been allocated. -/
def mayIdle (s : WriteHistory C) : Bool :=
  (List.range s.session.pool.disk.nextPageId.toNat).all fun n =>
    (s.session.clients n).holders.isEmpty

end WriteHistory

namespace ClientOp

variable [DecidableEq C]

/-- The call keeps to the rules. -/
def mayRun (op : ClientOp C) (s : Session C) : Bool :=
  match op with
  | .fetchPage _ id => 0 ≤ id ∧ id < s.pool.disk.nextPageId ∧ (s.clients id).deleted = false
  | .unpinPage c id isDirty =>
      ((s.clients id).holders.any fun x => x.1 = c) ∧
      ((s.clients id).changed c = true → isDirty = true)
  | .write c id tar _ => (c, tar) ∈ (s.clients id).holders
  | _ => true

theorem allowed_of_mayRun {op : ClientOp C} {s : Session C} (h : op.mayRun s = true) :
    op.Allowed s := by
  cases op with
  | fetchPage c id =>
      have hop : 0 ≤ id ∧ id < s.pool.disk.nextPageId ∧ (s.clients id).deleted = false :=
        of_decide_eq_true h
      exact hop
  | unpinPage c id isDirty =>
      obtain ⟨hany, hdirty⟩ := of_decide_eq_true h
      obtain ⟨⟨c', tar⟩, hmem, hc⟩ := List.any_eq_true.mp hany
      obtain rfl : c' = c := of_decide_eq_true hc
      exact ⟨⟨tar, hmem⟩, hdirty⟩
  | write c id tar g =>
      have hop : (c, tar) ∈ (s.clients id).holders := of_decide_eq_true h
      exact hop
  | newPage | flushPage | deletePage => trivial

/-- The bytes last unpinned as dirty, after a call that returned a result. -/
def noteDirty (op : ClientOp C) (r : PoolResult) (s : WriteHistory C) : PageId → PageData :=
  match op, r with
  | .newPage _, .newPage (some (id, _)) => Function.update s.lastDirty id PageData.zero
  | .unpinPage _ id true, .success true =>
      match s.session.pool.find id with
      | some tar => Function.update s.lastDirty id (s.session.pool.pages tar).data
      | none => s.lastDirty
  | _, _ => s.lastDirty

/-- Execute a call and record it. -/
def runHistory (op : ClientOp C) : Program Fault (WriteHistory C) PoolResult := fun s => do
  let (r, session) ← op.run s.session
  pure (r, ⟨session, op.noteDirty r s⟩)

theorem runHistory_ok {op : ClientOp C} {s s' : WriteHistory C} {r : PoolResult}
    (hrun : op.runHistory s = .ok (r, s')) :
    op.run s.session = .ok (r, s'.session) ∧ s'.lastDirty = op.noteDirty r s := by
  rw [runHistory] at hrun
  cases hop : op.run s.session with
  | error e =>
      rw [hop] at hrun
      cases hrun
  | ok p =>
      rw [hop] at hrun
      cases hrun
      exact ⟨rfl, rfl⟩

theorem run_ok {op : ClientOp C} {s s' : Session C} {r : PoolResult}
    (hrun : op.run s = .ok (r, s')) : s'.clients = op.note r s.clients := by
  have hwp : wp op.run (fun x y => x = r ∧ y = s') s := ⟨r, s', hrun, rfl, rfl⟩
  rw [wp_run] at hwp
  obtain ⟨r', b, -, rfl, rfl⟩ := hwp
  rfl

end ClientOp

namespace WriteHistory

variable {s s' : WriteHistory C} {op : ClientOp C} {r : PoolResult}

/-- A page that nobody has changed since has the bytes it was last
unpinned with as dirty. -/
def Agree (lastDirty : PageId → PageData) (u : PageId → PageUse C) : Prop :=
  ∀ id, (∀ c, (u id).changed c = false) → lastDirty id = (u id).bytes

theorem Agree.update {last : PageId → PageData} {u : PageId → PageUse C} (h : Agree last u)
    (k : PageId) {d : PageData} {v : PageUse C} (hv : (∀ c, v.changed c = false) → d = v.bytes) :
    Agree (Function.update last k d) (Function.update u k v) := by
  intro id
  by_cases hid : id = k
  · rw [hid, Function.update_self, Function.update_self]
    exact hv
  · rw [Function.update_of_ne hid, Function.update_of_ne hid]
    exact h id

theorem Agree.update_use {last : PageId → PageData} {u : PageId → PageUse C} (h : Agree last u)
    (k : PageId) {v : PageUse C} (hv : (∀ c, v.changed c = false) → last k = v.bytes) :
    Agree last (Function.update u k v) := by
  have hupdate := h.update k hv
  rwa [Function.update_eq_self] at hupdate

structure Recorded (s : WriteHistory C) : Prop where
  transparent : Transparent s.session
  agree : Agree s.lastDirty s.session.clients

theorem recorded_start (poolSize : Nat) : (start poolSize : WriteHistory C).Recorded :=
  ⟨transparent_create poolSize, fun _ _ => rfl⟩

theorem Recorded.frame (h : s.Recorded) {c : C} {tar : Nat} {id : PageId}
    (hmem : (c, tar) ∈ (s.session.clients id).holders) :
    s.session.pool.find id = some tar ∧
      (s.session.pool.pages tar).data = (s.session.clients id).bytes := by
  have hok := h.transparent.page id
  have hfind := hok.held c tar hmem
  exact ⟨hfind, (hok.resident _ (resident_of_find hfind)).2.2.1⟩

theorem Recorded.idle (h : s.Recorded)
    (hidle : ∀ n < s.session.pool.disk.nextPageId.toNat, (s.session.clients n).holders = []) :
    s.Idle := by
  intro id
  rw [List.eq_nil_iff_forall_not_mem]
  rintro ⟨c, tar⟩ hmem
  obtain ⟨queue, hpool⟩ := h.transparent.pool
  obtain ⟨hfind, -⟩ := h.frame hmem
  obtain ⟨-, -, -, hlo, hhi⟩ := hpool.found id tar hfind
  have hlt : id.toNat < s.session.pool.disk.nextPageId.toNat :=
    (Int.toNat_lt_toNat (hlo.trans_lt hhi)).mpr hhi
  have hnone := hidle id.toNat hlt
  rw [Int.toNat_of_nonneg hlo] at hnone
  rw [hnone] at hmem
  cases hmem

variable [DecidableEq C]

/-- The two records go on agreeing, whatever the call returned. -/
theorem Recorded.note (h : s.Recorded) (hop : op.Allowed s.session) (r : PoolResult) :
    Agree (op.noteDirty r s) (op.note r s.session.clients) := by
  cases op with
  | newPage c =>
      rcases r with _ | (_ | ⟨id, tar⟩) | _ | _
      case newPage.some => exact h.agree.update id fun _ => rfl
      all_goals exact h.agree
  | fetchPage c id =>
      rcases r with (_ | tar) | _ | _ | _
      case page.some => exact h.agree.update_use id (h.agree id)
      all_goals exact h.agree
  | unpinPage c id isDirty =>
      obtain ⟨⟨tar, hmem⟩, -⟩ := hop
      obtain ⟨hfind, hdata⟩ := h.frame hmem
      rcases r with _ | _ | (_ | _) | _
      case success.true =>
        cases isDirty with
        | true =>
            show Agree (match s.session.pool.find id with | some tar => _ | none => _) _
            rw [hfind]
            exact h.agree.update id fun _ => hdata
        | false =>
            apply h.agree.update_use id
            intro hunchanged
            apply h.agree id
            intro c'
            simpa using hunchanged c'
      all_goals cases isDirty <;> exact h.agree
  | flushPage id => exact h.agree
  | deletePage id =>
      rcases r with _ | _ | (_ | _) | _
      case success.true => exact h.agree.update_use id (h.agree id)
      all_goals exact h.agree
  | write c id tar g =>
      apply h.agree.update_use id
      intro hunchanged
      have hc := hunchanged c
      simp at hc

theorem Recorded.step (h : s.Recorded) (hop : op.Allowed s.session)
    (hrun : op.runHistory s = .ok (r, s')) : s'.Recorded := by
  obtain ⟨hrun, hdirty⟩ := ClientOp.runHistory_ok hrun
  obtain ⟨r', t, hrun', htransparent⟩ := op.wp_transparent h.transparent hop
  rw [hrun] at hrun'
  cases hrun'
  refine ⟨htransparent, ?_⟩
  rw [hdirty, ClientOp.run_ok hrun]
  exact h.note hop r

theorem recorded_of_reachable {poolSize : Nat}
    (hs : Reachable (· = start poolSize) (fun op s => op.Allowed s.session)
      ClientOp.runHistory s) : s.Recorded := by
  apply hs.invariant_of_ok
  · rintro _ rfl
    exact recorded_start poolSize
  · exact fun op s r s' hrec hop hrun => hrec.step hop hrun

/-- Every dirty page in the pool has the bytes that are on disk. -/
def WrittenBack (s : WriteHistory C) : Prop :=
  ∀ tar id, s.session.pool.find id = some tar → (s.session.pool.pages tar).isDirty = true →
    s.session.pool.disk.pages id = (s.session.pool.pages tar).data

omit [DecidableEq C] in
/-- What the file keeps of one page. -/
theorem Recorded.onDisk_iff (h : s.Recorded) {id : PageId}
    (hidle : (s.session.clients id).holders = [])
    (hdel : (s.session.clients id).deleted = false) :
    (vtabDisconnect s.engine).pages id = s.lastDirty id ↔
      ∀ tar, s.session.pool.find id = some tar → (s.session.pool.pages tar).isDirty = true →
        s.session.pool.disk.pages id = (s.session.pool.pages tar).data := by
  have hok := h.transparent.page id
  have hunchanged := hok.unchanged hidle
  rw [h.agree id hunchanged]
  change s.session.pool.disk.pages id = (s.session.clients id).bytes ↔ _
  cases hfind : s.session.pool.find id with
  | none =>
      have habsent : s.session.pool.cache.resident id = none := by
        show (s.session.pool.find id).map s.session.pool.pages = none
        rw [hfind]
        rfl
      refine ⟨fun _ tar htar => ?_, fun _ => (hok.absent habsent).2 hdel⟩
      cases htar
  | some tar =>
      obtain ⟨-, -, hdata, hclean⟩ := hok.resident _ (resident_of_find hfind)
      constructor
      · intro hdisk tar' htar' _
        cases htar'
        rw [hdisk, hdata]
      · intro hwritten
        cases hdirty : (s.session.pool.pages tar).isDirty with
        | true => rw [hwritten tar rfl hdirty, hdata]
        | false => exact hclean hdirty hunchanged

/-- When the database is closed after a statement, the file has of every
page what it was last unpinned with as dirty exactly if no dirty page of
the pool is out of date on disk. -/
theorem disconnect_durable_iff (poolSize : Nat) (s : WriteHistory C)
    (hs : Reachable (· = start poolSize) (fun op s => op.Allowed s.session) ClientOp.runHistory s)
    (hidle : s.Idle) :
    (∀ id, (s.session.clients id).deleted = false →
        (vtabDisconnect s.engine).pages id = s.lastDirty id) ↔ s.WrittenBack := by
  have h := recorded_of_reachable hs
  constructor
  · intro hdurable tar id hfind
    have hdel := ((h.transparent.page id).resident _ (resident_of_find hfind)).1
    exact (h.onDisk_iff (hidle id) hdel).mp (hdurable id hdel) tar hfind
  · intro hwritten id hdel
    exact (h.onDisk_iff (hidle id) hdel).mpr fun tar hfind => hwritten tar id hfind

theorem exists_history (poolSize : Nat) (ops : List (ClientOp C)) (f : WriteHistory C → Bool)
    (heval : ((checkedRun (fun op s => op.mayRun s.session) ClientOp.runHistory ops
      (start poolSize)).any fun s => f s && s.mayIdle) = true) :
    ∃ s : WriteHistory C, Reachable (· = start poolSize)
      (fun op s => op.Allowed s.session) ClientOp.runHistory s ∧ s.Idle ∧ f s = true := by
  have hstart : Reachable (· = start poolSize) (fun op s => op.Allowed s.session)
      ClientOp.runHistory (start poolSize : WriteHistory C) := .start rfl
  obtain ⟨s, hs, hf⟩ := exists_reachable_of_eval hstart _
    (fun op s hop => op.allowed_of_mayRun hop) _ heval
  obtain ⟨hf, hidle⟩ := Bool.and_eq_true_iff.mp hf
  refine ⟨s, hs, (recorded_of_reachable hs).idle ?_, hf⟩
  simpa [mayIdle] using hidle

end WriteHistory

/-! ### A row is inserted, committed and lost -/

/-- The bytes of a page, as a `TablePage` reads them. -/
def PageData.toMemory (d : PageData) : Memory := fun i => if h : i < pageSize then d ⟨i, h⟩ else 0

/-- A function of a page is called on the bytes of a frame. -/
def onMemory (f : Memory → Memory) (d : PageData) : PageData := fun i => f d.toMemory i

/-- `sqlite3_vtable_init` for a new file: the header page. -/
def vtableInit : List (ClientOp Unit) := [.newPage (), .unpinPage () 0 true]

/-- `VtabCreate` without an index, for a table called `foo`: the first page
of the heap, which is page 1, and its record in the header page. -/
def vtabCreate : List (ClientOp Unit) :=
  [.fetchPage () 0, .newPage (),
    .write () 1 1 (onMemory fun p => TablePage.init p 1 pageSize invalidPageId),
    .unpinPage () 1 true,
    .write () 0 0 (onMemory fun p =>
      ((p.memcpy 4 [102, 111, 111, 0]).setInt32 36 1).setInt32 0 1),
    .unpinPage () 0 true]

/-- `VtabUpdate` for a new row that fits in page 1. The commit after it has
nothing to delete, and calls the pool no more. -/
def vtabInsert (tuple : List UInt8) : List (ClientOp Unit) :=
  [.fetchPage () 1,
    .write () 1 1 (onMemory fun p =>
      match TablePage.insertTuple p tuple with
      | .ok (_, q) => q
      | .error _ => p),
    .unpinPage () 1 true]

theorem exists_inserted_row : ∃ s : WriteHistory Unit,
    Reachable (· = WriteHistory.start 10) (fun op s => op.Allowed s.session)
      ClientOp.runHistory s ∧ s.Idle ∧ (s.session.clients 1).deleted = false ∧
      (vtabDisconnect s.engine).pages 1 ⟨20, by decide⟩ = 0 ∧
      s.lastDirty 1 ⟨20, by decide⟩ = 1 := by
  obtain ⟨s, hs, hidle, hf⟩ := WriteHistory.exists_history 10
    (vtableInit ++ vtabCreate ++ vtabInsert [1, 2, 3])
    (fun s => (s.session.clients 1).deleted = false ∧
      (vtabDisconnect s.engine).pages 1 ⟨20, by decide⟩ = 0 ∧
      s.lastDirty 1 ⟨20, by decide⟩ = 1) (by decide +kernel)
  exact ⟨s, hs, hidle, of_decide_eq_true hf⟩

theorem disconnect_durable_inserted : ∃ s : WriteHistory Unit, s.Idle ∧
    ((∀ id, (s.session.clients id).deleted = false →
      (vtabDisconnect s.engine).pages id = s.lastDirty id) ↔ s.WrittenBack) := by
  obtain ⟨s, hs, hidle, -⟩ := exists_inserted_row
  exact ⟨s, hidle, WriteHistory.disconnect_durable_iff 10 s hs hidle⟩

/-- The page with the row has a tuple when it is unpinned, and is blank in
the file. -/
theorem disconnect_loses_row : ¬∀ s : WriteHistory Unit,
    Reachable (· = WriteHistory.start 10) (fun op s => op.Allowed s.session)
      ClientOp.runHistory s → s.Idle →
    ∀ id, (s.session.clients id).deleted = false →
      (vtabDisconnect s.engine).pages id = s.lastDirty id := by
  intro h
  obtain ⟨s, hs, hidle, hdel, hdisk, hdirty⟩ := exists_inserted_row
  have hpage := congrFun (h s hs hidle 1 hdel) ⟨20, by decide⟩
  rw [hdisk, hdirty] at hpage
  exact absurd hpage (by decide)

end ScuDb
