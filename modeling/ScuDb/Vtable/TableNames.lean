import ScuDb.Index.OtherRecords
import ScuDb.Table.TableHeap

/-!
The records of tables in the header page, over the sessions on a database
file: `VtabCreate`, `VtabConnect` and `VtabDisconnect` of
`virtual_table.cpp`.

Tables and indexes have their records under their names in one page, and
nothing takes a record away. A name that has a record keeps it when a
table is created under it, and a root of an index that moves is written to
the record with the name of the index, whatever that is. What a call says
about a record it could not insert is not looked at.
-/

namespace ScuDb

open Foundations

/-- The header page, and under each name the first page of the heap that
`VtabCreate` has made last, as far as the page has been there for it. -/
structure HeaderCopy where
  page : HeaderPage
  created : RecordName → Option PageId

/-- What a `VirtualTable` has to do with page ids. -/
structure NamedTable (K : Type) where
  firstPageId : PageId
  index : Option (IndexParams K × BPlusTree K (Option RID))

/-- The header page in the buffer pool, and the tables that have been
opened. -/
structure OpenEngine (K : Type) where
  header : HeaderCopy
  tables : List (NamedTable K)

/-- A database file with the header page as it was written last, the names
of the tables in the schema of SQLite, and the storage engine while there
is one. That `nextPageId` goes on from session to session is assumed here:
the `DiskManager` starts at 0 in each of them. -/
structure DatabaseFile (K : Type) where
  header : HeaderCopy
  schema : List RecordName
  nextPageId : PageId
  engine : Option (OpenEngine K)

variable {K : Type}

namespace DatabaseFile

/-- The engine through its global pointer. -/
def storageEngine : Program Fault (DatabaseFile K) (OpenEngine K) := do
  let s ← get
  match s.engine with
  | none => throw .noSuchPage
  | some engine => pure engine

/-- `VtabCreate`. The heap is made before its record. -/
def vtabCreate (name : RecordName) (index : Option (IndexParams K)) :
    Program Fault (DatabaseFile K) Unit := do
  let engine ← storageEngine
  let s ← get
  let heap ← MonadExcept.ofExcept (TableHeap.create s.nextPageId)
  let (_, page) ← MonadExcept.ofExcept
    (engine.header.page.insertRecord name heap.firstPageId)
  let table : NamedTable K :=
    ⟨heap.firstPageId, index.map fun params => (params, BPlusTree.empty page heap.nextPageId)⟩
  set { s with
    schema := name :: s.schema
    nextPageId := heap.nextPageId
    engine := some
      { header := ⟨page, Function.update engine.header.created name (some heap.firstPageId)⟩
        tables := engine.tables ++ [table] } }

/-- The index of a table that is opened again. A root id without a record
stays uninitialised; the pages are what the file has. -/
def openIndex (page : HeaderPage) (uninitialised : PageId)
    (pages : PageId → Option (TreePage K (Option RID))) :
    Option (IndexParams K) → Except Fault (Option (IndexParams K × BPlusTree K (Option RID)))
  | none => .ok none
  | some params => do
      let indexRootId ← page.getRootId params.indexName
      let tree : BPlusTree K (Option RID) := BPlusTree.empty page 0
      .ok (some (params,
        { tree with rootPageId := indexRootId.getD uninitialised, pages := pages }))

/-- `VtabConnect` -/
def vtabConnect (name : RecordName) (index : Option (IndexParams K)) (uninitialised : PageId)
    (pages : PageId → Option (TreePage K (Option RID))) : Program Fault (DatabaseFile K) Unit := do
  let engine ← storageEngine
  let s ← get
  let tableRootId ← MonadExcept.ofExcept (engine.header.page.getRootId name)
  let index ← MonadExcept.ofExcept (openIndex engine.header.page uninitialised pages index)
  let table : NamedTable K := ⟨tableRootId.getD uninitialised, index⟩
  if table.firstPageId ≠ invalidPageId then
    set { s with engine := some { engine with tables := engine.tables ++ [table] } }
  else do
    let heap ← MonadExcept.ofExcept (TableHeap.create s.nextPageId)
    let table := { table with firstPageId := heap.firstPageId }
    set { s with
      nextPageId := heap.nextPageId
      engine := some { engine with tables := engine.tables ++ [table] } }

/-- A call of the index of the `i`-th table. -/
def indexCall [Inhabited K] (i : Nat) (op : IndexOp K (Option RID)) :
    Program Fault (DatabaseFile K) Unit := do
  let engine ← storageEngine
  let s ← get
  match engine.tables[i]? with
  | some ⟨firstPageId, some (params, tree)⟩ => do
      let (_, tree) ← MonadExcept.ofExcept (op.run params
        { tree with headerPage := engine.header.page, nextPageId := s.nextPageId })
      set { s with
        nextPageId := tree.nextPageId
        engine := some
          { header := { engine.header with page := tree.headerPage }
            tables := engine.tables.set i ⟨firstPageId, some (params, tree)⟩ } }
  | _ => throw .noSuchPage

/-- `VtabDisconnect`, which deletes the engine; as `xDestroy`, of the table
`dropped`. -/
def vtabDisconnect (dropped : Option RecordName) : Program Fault (DatabaseFile K) Unit := do
  let _ ← storageEngine
  modify fun s => { s with
    schema := s.schema.filter fun name => some name ≠ dropped
    engine := none }

/-- `sqlite3_vtable_init` -/
def vtableInit : Program Fault (DatabaseFile K) Unit :=
  modify fun s => { s with engine := some ⟨s.header, []⟩ }

/-- The buffer pool writes the header page. -/
def writeHeader : Program Fault (DatabaseFile K) Unit := do
  let engine ← storageEngine
  modify fun s => { s with header := engine.header }

/-- A file that does not exist yet. -/
def absent : DatabaseFile K := ⟨⟨HeaderPage.init, fun _ => none⟩, [], 1, none⟩

end DatabaseFile

/-- What happens to a database file. -/
inductive FileOp (K : Type)
  | vtableInit
  | vtabCreate (name : RecordName) (index : Option (IndexParams K))
  | vtabConnect (name : RecordName) (index : Option (IndexParams K)) (uninitialised : PageId)
      (pages : PageId → Option (TreePage K (Option RID)))
  | indexCall (i : Nat) (op : IndexOp K (Option RID))
  | writeHeader
  | vtabDisconnect (dropped : Option RecordName)

namespace FileOp

def run [Inhabited K] : FileOp K → Program Fault (DatabaseFile K) Unit
  | vtableInit => DatabaseFile.vtableInit
  | vtabCreate name index => DatabaseFile.vtabCreate name index
  | vtabConnect name index uninitialised pages =>
      DatabaseFile.vtabConnect name index uninitialised pages
  | indexCall i op => DatabaseFile.indexCall i op
  | writeHeader => DatabaseFile.writeHeader
  | vtabDisconnect dropped => DatabaseFile.vtabDisconnect dropped

/-- SQLite does not create a table that its schema has. -/
def Allowed : FileOp K → DatabaseFile K → Prop
  | vtabCreate name _, s => name ∉ s.schema
  | _, _ => True

instance : (op : FileOp K) → (s : DatabaseFile K) → Decidable (op.Allowed s)
  | vtabCreate name _, s => inferInstanceAs (Decidable (name ∉ s.schema))
  | vtableInit, _ | vtabConnect _ _ _ _, _ | indexCall _ _, _ | writeHeader, _
  | vtabDisconnect _, _ => isTrue trivial

/-- The name of the index of a table. -/
def indexName (s : DatabaseFile K) (i : Nat) : Option RecordName := do
  let engine ← s.engine
  let table ← engine.tables[i]?
  let (params, _) ← table.index
  return params.indexName

/-- A table is created under a name that has no record, and an index that
is called does not have the name of a table. -/
def Careful : FileOp K → DatabaseFile K → Prop
  | vtabCreate name _, s => ∀ engine, s.engine = some engine →
      engine.header.page.recorded name = none
  | indexCall i _, s => ∀ engine name, s.engine = some engine → indexName s i = some name →
      engine.header.created name = none
  | _, _ => True

instance : (op : FileOp K) → (s : DatabaseFile K) → Decidable (op.Careful s)
  | vtabCreate _ _, s => inferInstanceAs (Decidable (∀ engine ∈ s.engine, _))
  | indexCall i _, s =>
      decidable_of_iff (∀ engine ∈ s.engine, ∀ name ∈ indexName s i,
          engine.header.created name = none)
        ⟨fun h engine name hengine => h engine hengine name,
          fun h engine hengine name => h engine name hengine⟩
  | vtableInit, _ | vtabConnect _ _ _ _, _ | writeHeader, _ | vtabDisconnect _, _ => isTrue trivial

end FileOp

/-- Every table that has been created has its first page on record. -/
def HeaderCopy.Registers (header : HeaderCopy) : Prop :=
  ∀ name id, header.created name = some id → header.page.recorded name = some id

namespace DatabaseFile

/-- The header page is right in the file and in the pool. -/
structure Registered (s : DatabaseFile K) : Prop where
  file : s.header.Registers
  pool : ∀ engine, s.engine = some engine → engine.header.Registers

variable {s : DatabaseFile K}

@[simp] theorem wlp_storageEngine {Q : OpenEngine K → DatabaseFile K → Prop} :
    wlp storageEngine Q s ↔ ∀ engine, s.engine = some engine → Q engine s := by
  simp only [storageEngine, wlp_bind, wlp_get]
  cases s.engine with
  | none => simp
  | some engine => simp

theorem registered_absent : (absent : DatabaseFile K).Registered := by
  refine ⟨?_, ?_⟩
  · rintro name id ⟨⟩
  · rintro engine ⟨⟩

theorem registers_create {header : HeaderCopy} (h : header.Registers) {name : RecordName}
    {rootId : PageId} {success : Bool} {page : HeaderPage}
    (hnew : header.page.recorded name = none)
    (hinsert : header.page.insertRecord name rootId = .ok (success, page)) :
    HeaderCopy.Registers ⟨page, Function.update header.created name (some rootId)⟩ := by
  intro other id hother
  change Function.update header.created name (some rootId) other = some id at hother
  have hrest := congrFun (HeaderPage.insertRecord_other hinsert) other
  by_cases heq : other = name
  · subst heq
    rw [Function.update_self] at hother
    unfold HeaderPage.insertRecord at hinsert
    have hfind := (HeaderPage.findRecord_eq_neg_one_iff header.page other).mpr hnew
    rw [hfind] at hinsert
    split_ifs at hinsert with _ _ habsent
    · exact absurd rfl habsent
    · cases hinsert
      rw [← hother]
      exact HeaderPage.recorded_append header.page other rootId hnew
  · rw [Function.update_of_ne heq] at hother
    unfold HeaderPage.recordedBut at hrest
    rw [if_neg heq, if_neg heq] at hrest
    exact hrest.trans (h other id hother)

theorem registers_call {header : HeaderCopy} (h : header.Registers) {name : RecordName}
    (hnot : header.created name = none) {page : HeaderPage}
    (hother : page.recordedBut name = header.page.recordedBut name) :
    HeaderCopy.Registers { header with page := page } := by
  intro other id hid
  have hne : other ≠ name := by
    rintro rfl
    rw [show header.created other = none from hnot] at hid
    cases hid
  have hrest := congrFun hother other
  unfold HeaderPage.recordedBut at hrest
  rw [if_neg hne, if_neg hne] at hrest
  exact hrest.trans (h other id hid)

section

variable [Inhabited K] {op : FileOp K}

theorem Registered.wlp_run (h : s.Registered) (hcare : op.Careful s) :
    wlp op.run (fun _ s' => s'.Registered) s := by
  cases op with
  | vtableInit =>
      rw [FileOp.run, vtableInit, wlp_modify]
      refine ⟨h.file, ?_⟩
      rintro engine ⟨⟩
      exact h.file
  | vtabCreate name index =>
      simp only [FileOp.run, vtabCreate, wlp_bind, wlp_storageEngine, wlp_get, wlp_ofExcept,
        wlp_set]
      rintro engine hengine heap - ⟨success, page⟩ hinsert
      refine ⟨h.file, ?_⟩
      rintro _ ⟨⟩
      exact registers_create (h.pool engine hengine) (hcare engine hengine) hinsert
  | vtabConnect name index uninitialised pages =>
      simp only [FileOp.run, vtabConnect, wlp_bind, wlp_storageEngine, wlp_get, wlp_ofExcept,
        wlp_ite, wlp_set]
      intro engine hengine tableRootId _ opened _
      refine ⟨fun _ => ⟨h.file, ?_⟩, fun _ heap _ => ⟨h.file, ?_⟩⟩
      · rintro _ ⟨⟩
        exact h.pool engine hengine
      · rintro _ ⟨⟩
        exact h.pool engine hengine
  | indexCall i call =>
      simp only [FileOp.run, indexCall, wlp_bind, wlp_storageEngine, wlp_get]
      intro engine hengine
      split
      · rename_i firstPageId params tree htable
        simp only [wlp_bind, wlp_ofExcept, wlp_set]
        rintro ⟨result, tree'⟩ hcall
        refine ⟨h.file, ?_⟩
        rintro _ ⟨⟩
        have hname : FileOp.indexName s i = some params.indexName := by
          simp [FileOp.indexName, hengine, htable]
        apply registers_call (h.pool engine hengine) (hcare engine _ hengine hname)
        exact BPlusTree.modest_run params call _ result tree' hcall
      · rw [wlp_throw]
        trivial
  | writeHeader =>
      simp only [FileOp.run, writeHeader, wlp_bind, wlp_storageEngine, wlp_modify]
      intro engine hengine
      exact ⟨h.pool engine hengine, h.pool⟩
  | vtabDisconnect dropped =>
      simp only [FileOp.run, vtabDisconnect, wlp_bind, wlp_storageEngine, wlp_modify]
      intro engine hengine
      refine ⟨h.file, ?_⟩
      rintro _ ⟨⟩

/-- What is noted for a name is the first page of the heap just made. -/
theorem vtabCreate_notes {s' : DatabaseFile K} {name : RecordName} {index : Option (IndexParams K)}
    (hrun : (FileOp.vtabCreate name index).run s = .ok ((), s')) :
    ∃ heap engine, TableHeap.create s.nextPageId = .ok heap ∧ s'.engine = some engine ∧
      engine.header.created name = some heap.firstPageId := by
  have hnotes : wlp (FileOp.vtabCreate name index).run (fun _ s' =>
      ∃ heap engine, TableHeap.create s.nextPageId = .ok heap ∧ s'.engine = some engine ∧
        engine.header.created name = some heap.firstPageId) s := by
    simp only [FileOp.run, vtabCreate, wlp_bind, wlp_storageEngine, wlp_get, wlp_ofExcept, wlp_set]
    intro engine hengine heap hheap result _
    exact ⟨heap, _, hheap, rfl, Function.update_self _ _ _⟩
  exact hnotes () s' hrun

/-- In every run in which tables are only created under names that have no
record, and no index that is called has the name of a table, the header
page has the first page of the heap made by each `VtabCreate`, from that
call on. -/
theorem tables_registered
    (hs : Reachable (· = absent) (fun op s => op.Allowed s ∧ op.Careful s) FileOp.run s) :
    s.Registered ∧ ∀ name index s', (FileOp.vtabCreate name index).Careful s →
      (FileOp.vtabCreate name index).run s = .ok ((), s') →
      ∃ heap engine, TableHeap.create s.nextPageId = .ok heap ∧ s'.engine = some engine ∧
        engine.header.page.recorded name = some heap.firstPageId := by
  have hregistered : s.Registered := by
    refine hs.invariant_of_ok (fun s h => h ▸ registered_absent) ?_
    rintro op s ⟨⟩ s' h ⟨-, hcare⟩ hrun
    exact h.wlp_run hcare () s' hrun
  refine ⟨hregistered, fun name index s' hcare hrun => ?_⟩
  have hregistered' := hregistered.wlp_run hcare () s' hrun
  obtain ⟨heap, engine, hheap, hengine, hnoted⟩ := vtabCreate_notes hrun
  exact ⟨heap, engine, hheap, hengine, hregistered'.pool engine hengine name _ hnoted⟩

end

/-! ### A table with the name of an index, and a name used again -/

/-- The record of `name` when the file is open. -/
def poolRecord (name : RecordName) (s : DatabaseFile Int) :
    Option (Option PageId × Option PageId) :=
  s.engine.map fun engine => (engine.header.created name, engine.header.page.recorded name)

/-- An index under the name `name`. -/
def indexNamed (name : RecordName) : IndexParams Int := ⟨name, .bytes8, fun a b => a - b⟩

theorem exists_file (ok : FileOp Int → DatabaseFile Int → Prop) [∀ op s, Decidable (ok op s)]
    (ops : List (FileOp Int)) (f : DatabaseFile Int → Bool)
    (heval : ((checkedRun (fun op s => decide (ok op s)) FileOp.run ops absent).any f) = true) :
    ∃ s, Reachable (· = absent) ok FileOp.run s ∧ f s = true := by
  refine exists_reachable_of_eval ?_ _ (fun _ _ => of_decide_eq_true) f heval
  exact .start rfl

/-- Two tables are created, one of them with an index that gets a root and
loses it. In the next session a third one is created. -/
theorem tables_registered_first : ∃ s s' : DatabaseFile Int,
    poolRecord [116] s = some (some 1, some 1) ∧ poolRecord [117] s = some (none, some (-1)) ∧
      poolRecord [118] s = some (some 3, some 3) ∧
      (FileOp.vtabCreate [119] none).run s = .ok ((), s') ∧
      ∃ heap engine, TableHeap.create s.nextPageId = .ok heap ∧ s'.engine = some engine ∧
        engine.header.page.recorded [119] = some heap.firstPageId := by
  obtain ⟨s, hs, heval⟩ := exists_file (fun op s => op.Allowed s ∧ op.Careful s)
    [.vtableInit, .vtabCreate [116] (some (indexNamed [117])), .indexCall 0 (.insert 1 none),
      .vtabCreate [118] none, .indexCall 0 (.remove 1), .writeHeader, .vtabDisconnect none,
      .vtableInit, .vtabConnect [118] none 0 fun _ => none]
    (fun s => poolRecord [116] s = some (some 1, some 1) ∧
      poolRecord [117] s = some (none, some (-1)) ∧ poolRecord [118] s = some (some 3, some 3) ∧
      (FileOp.vtabCreate [119] none).Careful s ∧
        ((FileOp.vtabCreate [119] none).run s).toOption.isSome)
    (by decide +kernel)
  obtain ⟨hfirst, hindex, hsecond, hcare, hrun⟩ := of_decide_eq_true heval
  obtain ⟨⟨_, s'⟩, hrun⟩ := exists_ok hrun
  exact ⟨s, s', hfirst, hindex, hsecond, hrun, (tables_registered hs).2 _ _ s' hcare hrun⟩

theorem Registered.poolRecord_eq {s : DatabaseFile Int} (h : s.Registered) {name : RecordName}
    {id : PageId} {rootId : Option PageId} (heq : poolRecord name s = some (some id, rootId)) :
    rootId = some id := by
  obtain ⟨engine, hengine, hpair⟩ := Option.map_eq_some_iff.mp heq
  obtain ⟨hcreated, hrecorded⟩ := Prod.mk.inj hpair
  rw [← hrecorded]
  exact h.pool engine hengine name id hcreated

/-- An index with the name of its table takes the record over, and a name
that is used again in a later session keeps its old record. -/
theorem not_registered :
    (¬∀ s : DatabaseFile Int, Reachable (· = absent) FileOp.Allowed FileOp.run s →
      s.Registered) ∧
    (∃ s : DatabaseFile Int, Reachable (· = absent) FileOp.Allowed FileOp.run s ∧
      poolRecord [116] s = some (some 1, some (-1))) ∧
    ∃ s : DatabaseFile Int, Reachable (· = absent) FileOp.Allowed FileOp.run s ∧
      poolRecord [116] s = some (some 2, some 1) := by
  obtain ⟨s, hs, htaken⟩ := exists_file FileOp.Allowed
    [.vtableInit, .vtabCreate [116] (some (indexNamed [116])), .indexCall 0 (.insert 1 none),
      .indexCall 0 (.remove 1)]
    (fun s => poolRecord [116] s = some (some 1, some (-1))) (by decide +kernel)
  obtain ⟨s', hs', hkept⟩ := exists_file FileOp.Allowed
    [.vtableInit, .vtabCreate [116] none, .writeHeader, .vtabDisconnect (some [116]),
      .vtableInit, .vtabCreate [116] none]
    (fun s => poolRecord [116] s = some (some 2, some 1)) (by decide +kernel)
  refine ⟨?_, ⟨s, hs, of_decide_eq_true htaken⟩, s', hs', of_decide_eq_true hkept⟩
  intro hall
  exact absurd ((hall s hs).poolRecord_eq (of_decide_eq_true htaken)) (by decide)

end DatabaseFile

end ScuDb
