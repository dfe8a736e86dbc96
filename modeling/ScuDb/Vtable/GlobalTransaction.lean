import ScuDb.Foundations.Refinement
import ScuDb.Vtable.VirtualTable

/-!
The transaction that all virtual tables share, `global_transaction_` of
`virtual_table.h`, under the calls SQLite makes to them.

SQLite opens its transaction at each table it writes to with `xBegin`,
and ends it at all of them with `xCommit`; cursors it opens and closes at
any time. `VtabBegin` replaces the transaction, and `VtabClose` commits
it. Neither looks at whether the transaction is needed by others.
-/

namespace ScuDb

open Foundations

/-- A transaction with writes to several tables. `writeSet` has the latest
record first. -/
structure GlobalTransaction (T : Type) where
  state : TransactionState
  writeSet : List (T × WriteRecord)

/-- The tables and their transaction; what SQLite remembers, which is the
tables its transaction is open at and the number of cursors; and a log of
the records ever made and of the write sets
`TransactionManager::Commit` has been called with, the latest first. -/
structure Database (T K : Type) where
  tableHeaps : T → TableHeap
  indexes : T → Option (BPlusTree K (Option RID))
  globalTransaction : Option (GlobalTransaction T)
  begun : List T
  cursors : Nat
  written : List (T × WriteRecord)
  commits : List (List (T × WriteRecord))

variable {T K : Type}

/-- The loop of `Commit`, for records of several tables. -/
def GlobalTransaction.applyDeletes [DecidableEq T] :
    List (T × WriteRecord) → (T → TableHeap) → Except Fault (T → TableHeap)
  | [], heaps => .ok heaps
  | (table, item) :: rest, heaps => do
      let heap ←
        if item.wtype = .delete then (heaps table).applyDelete item.rid else .ok (heaps table)
      applyDeletes rest (Function.update heaps table heap)

namespace Database

/-- What the current transaction has recorded. -/
def pending (s : Database T K) : List (T × WriteRecord) :=
  match s.globalTransaction with
  | none => []
  | some transaction => transaction.writeSet

/-! ### The calls -/

/-- `VtabBegin` -/
def vtabBegin : Program Fault (Database T K) Unit :=
  modify fun s => { s with globalTransaction := some ⟨.growing, []⟩ }

/-- `VtabOpen` -/
def vtabOpen : Program Fault (Database T K) Unit := do
  let s ← get
  if s.globalTransaction.isNone then vtabBegin

/-- `VtabCommit`, which deletes the transaction. -/
def vtabCommit [DecidableEq T] : Program Fault (Database T K) Unit := do
  let s ← get
  match s.globalTransaction with
  | none => pure ()
  | some transaction =>
      let tableHeaps ←
        MonadExcept.ofExcept (GlobalTransaction.applyDeletes transaction.writeSet s.tableHeaps)
      set { s with
        tableHeaps := tableHeaps
        globalTransaction := none
        commits := transaction.writeSet :: s.commits }

/-- `VtabClose` -/
def vtabClose [DecidableEq T] : Program Fault (Database T K) Unit := vtabCommit

variable [DecidableEq T] [Inhabited K] (params : T → IndexParams K) (keyOf : T → List UInt8 → K)

/-- `VtabUpdate` of one of the tables. Whatever the change is, it goes
through the pointer to the transaction. -/
def vtabUpdate (table : T) (change : RowChange) : Program Fault (Database T K) Unit := do
  let s ← get
  match s.globalTransaction with
  | none => throw .noSuchPage
  | some transaction =>
      let (_, t) ← MonadExcept.ofExcept (ScuDb.vtabUpdate (params table) (keyOf table) change
        ⟨s.tableHeaps table, s.indexes table, ⟨transaction.state, []⟩⟩)
      let records := t.transaction.writeSet.map fun record => (table, record)
      set { s with
        tableHeaps := Function.update s.tableHeaps table t.tableHeap
        indexes := Function.update s.indexes table t.index
        globalTransaction := some ⟨t.transaction.state, records ++ transaction.writeSet⟩
        written := records ++ s.written }

end Database

/-- A call SQLite makes. -/
inductive Callback (T : Type)
  | xBegin (table : T)
  | xOpen
  | xClose
  | xUpdate (table : T) (change : RowChange)
  | xCommit

namespace Callback

open Database

/-- The call, and what SQLite remembers of it. The end of a transaction is
a call for each table that it has been begun at. -/
def run [DecidableEq T] [Inhabited K] (params : T → IndexParams K) (keyOf : T → List UInt8 → K) :
    Callback T → Program Fault (Database T K) Unit
  | xBegin table => do
      vtabBegin
      modify fun s => { s with begun := table :: s.begun }
  | xOpen => do
      vtabOpen
      modify fun s => { s with cursors := s.cursors + 1 }
  | xClose => do
      vtabClose
      modify fun s => { s with cursors := s.cursors - 1 }
  | xUpdate table change => Database.vtabUpdate params keyOf table change
  | xCommit => do
      let s ← get
      forM s.begun fun _ => Database.vtabCommit
      modify fun s => { s with begun := [] }

/-- What SQLite keeps to: a transaction is begun once at a table, and
before the table is written to; only a cursor that is open is closed. -/
def Allowed : Callback T → Database T K → Prop
  | xBegin table, s => table ∉ s.begun
  | xOpen, _ => True
  | xClose, s => 0 < s.cursors
  | xUpdate table _, s => table ∈ s.begun
  | xCommit, s => s.begun ≠ []

instance (c : Callback T) (s : Database T K) [DecidableEq T] : Decidable (c.Allowed s) :=
  match c with
  | xBegin table => inferInstanceAs (Decidable (table ∉ s.begun))
  | xOpen => .isTrue trivial
  | xClose => inferInstanceAs (Decidable (0 < s.cursors))
  | xUpdate table _ => inferInstanceAs (Decidable (table ∈ s.begun))
  | xCommit => inferInstanceAs (Decidable (s.begun ≠ []))

/-- No cursor is closed inside a transaction, and the transaction is begun
at all its tables before anything is written. -/
def Careful : Callback T → Database T K → Prop
  | xBegin _, s => s.pending = []
  | xClose, s => s.begun = []
  | _, _ => True

instance (c : Callback T) (s : Database T K) [DecidableEq T] : Decidable (c.Careful s) :=
  match c with
  | xBegin _ => inferInstanceAs (Decidable (s.pending = []))
  | xClose => inferInstanceAs (Decidable (s.begun = []))
  | xOpen | xUpdate _ _ | xCommit => .isTrue trivial

end Callback

namespace Database

/-- Every record made is still in the write set of the transaction, or
`Commit` has been called with it. -/
def Kept (s : Database T K) : Prop := s.written = s.pending ++ s.commits.flatten

/-- An open transaction of SQLite has one of the engine. -/
def Backed (s : Database T K) : Prop := s.begun ≠ [] → s.globalTransaction ≠ none

/-- Nothing has been called yet. -/
def Untouched (s : Database T K) : Prop :=
  s.globalTransaction = none ∧ s.begun = [] ∧ s.cursors = 0 ∧ s.written = [] ∧ s.commits = []

variable {s s' : Database T K}

theorem pending_of_none (h : s.globalTransaction = none) : s.pending = [] := by
  rw [pending, h]

theorem pending_of_some {transaction : GlobalTransaction T}
    (h : s.globalTransaction = some transaction) : s.pending = transaction.writeSet := by
  rw [pending, h]

theorem Untouched.kept (h : s.Untouched) : s.Kept := by
  obtain ⟨hnone, -, -, hwritten, hcommits⟩ := h
  rw [Kept, hwritten, hcommits, pending_of_none hnone]
  rfl

/-! ### What the calls do -/

section

variable [DecidableEq T]

theorem wlp_vtabCommit (s : Database T K) :
    wlp vtabCommit (fun _ s' => s'.globalTransaction = none ∧ s'.begun = s.begun ∧
      s'.written = s.written ∧
      s'.commits = if s.globalTransaction = none then s.commits else s.pending :: s.commits) s := by
  unfold vtabCommit
  rw [wlp_bind, wlp_get]
  split
  · rename_i hnone
    rw [wlp_pure, if_pos hnone]
    exact ⟨hnone, rfl, rfl, rfl⟩
  · rename_i transaction hsome
    rw [wlp_bind, wlp_ofExcept]
    intro heaps _
    rw [wlp_set, if_neg (by simp [hsome]), pending_of_some hsome]
    exact ⟨rfl, rfl, rfl, rfl⟩

theorem Kept.commit (h : s.Kept) : wlp vtabCommit (fun _ s' => s'.Kept) s := by
  refine wlp_mono (wlp_vtabCommit s) fun _ s' hs => ?_
  obtain ⟨hnone, -, hwritten, hcommits⟩ := hs
  rw [Kept, hwritten, hcommits, pending_of_none hnone, h]
  split
  · rename_i hbefore
    rw [pending_of_none hbefore]
  · rw [List.flatten_cons, List.nil_append]

end

theorem wlp_vtabOpen (s : Database T K) :
    wlp vtabOpen (fun _ s' => s'.pending = s.pending ∧ s'.globalTransaction ≠ none ∧
      s'.begun = s.begun ∧ s'.written = s.written ∧ s'.commits = s.commits) s := by
  unfold vtabOpen vtabBegin
  rw [wlp_bind, wlp_get, wlp_ite, wlp_modify, wlp_pure]
  constructor
  · intro hnone
    exact ⟨(pending_of_none (Option.isNone_iff_eq_none.mp hnone)).symm, Option.some_ne_none _,
      rfl, rfl, rfl⟩
  · intro hsome
    exact ⟨rfl, fun h => hsome (Option.isNone_iff_eq_none.mpr h), rfl, rfl, rfl⟩

section

variable [DecidableEq T] [Inhabited K] {params : T → IndexParams K} {keyOf : T → List UInt8 → K}

theorem wlp_vtabUpdate (s : Database T K) (table : T) (change : RowChange) :
    wlp (vtabUpdate params keyOf table change) (fun _ s' => ∃ records,
      s'.pending = records ++ s.pending ∧ s'.written = records ++ s.written ∧
      s'.globalTransaction ≠ none ∧ s'.begun = s.begun ∧ s'.commits = s.commits) s := by
  unfold vtabUpdate
  rw [wlp_bind, wlp_get]
  split
  · rw [wlp_throw]
    trivial
  · rename_i transaction hsome
    rw [wlp_bind, wlp_ofExcept]
    rintro ⟨_, t⟩ -
    change wlp (set _) _ _
    rw [wlp_set]
    refine ⟨t.transaction.writeSet.map fun record => (table, record), ?_, rfl,
      Option.some_ne_none _, rfl, rfl⟩
    rw [pending_of_some hsome]
    rfl

end

/-! ### Runs -/

section

variable [DecidableEq T] [Inhabited K] {params : T → IndexParams K} {keyOf : T → List UInt8 → K}
  {c : Callback T}

/-- A call that is careful keeps the records and the engine's
transaction. -/
theorem Kept.run (hkept : s.Kept) (hcare : c.Careful s)
    (hrun : c.run params keyOf s = .ok ((), s')) :
    s'.Kept ∧ s'.Backed ∧ (s.begun ≠ [] → c ≠ .xCommit → s'.commits = s.commits) := by
  have hstep : wlp (c.run params keyOf) (fun _ s' => s'.Kept ∧ s'.Backed ∧
      (s.begun ≠ [] → c ≠ .xCommit → s'.commits = s.commits)) s := by
    unfold Callback.run
    cases c with
    | xBegin table =>
        rw [vtabBegin, wlp_bind, wlp_modify, wlp_modify]
        refine ⟨?_, fun _ => Option.some_ne_none _, fun _ _ => rfl⟩
        change s.pending = [] at hcare
        rw [Kept, hcare] at hkept
        exact hkept
    | xOpen =>
        rw [wlp_bind]
        refine wlp_mono (wlp_vtabOpen s) fun _ s₁ hs₁ => ?_
        obtain ⟨hpending, hsome, hbegun, hwritten, hcommits⟩ := hs₁
        rw [wlp_modify]
        refine ⟨?_, fun _ => hsome, fun _ _ => hcommits⟩
        change s₁.written = s₁.pending ++ s₁.commits.flatten
        rw [hwritten, hpending, hcommits]
        exact hkept
    | xClose =>
        rw [wlp_bind]
        have hcommit : wlp vtabCommit _ s := fun a s₁ hrun =>
          And.intro (hkept.commit a s₁ hrun) (wlp_vtabCommit s a s₁ hrun)
        refine wlp_mono hcommit fun _ s₁ hs₁ => ?_
        obtain ⟨hkept₁, -, hbegun, -, -⟩ := hs₁
        rw [wlp_modify]
        have hnone : s₁.begun = [] := hbegun.trans hcare
        exact ⟨hkept₁, fun h => absurd hnone h, fun h => absurd hcare h⟩
    | xUpdate table change =>
        refine wlp_mono (wlp_vtabUpdate s table change) fun _ s₁ hs₁ => ?_
        obtain ⟨records, hpending, hwritten, hsome, hbegun, hcommits⟩ := hs₁
        refine ⟨?_, fun _ => hsome, fun _ _ => hcommits⟩
        rw [Kept, hwritten, hpending, hcommits, List.append_assoc]
        exact congrArg _ hkept
    | xCommit =>
        rw [wlp_bind, wlp_get, wlp_bind]
        refine wlp_mono (wlp_forM (fun _ _ _ h => Kept.commit h) hkept) fun _ s₁ hs₁ => ?_
        rw [wlp_modify]
        exact ⟨hs₁, fun h => absurd rfl h, fun _ h => absurd rfl h⟩
  exact hstep () s' hrun

/-- A call that is not careful loses records or commits too early. -/
theorem Careful.of_kept (hkept : s.Kept) (hbacked : s.Backed)
    (hrun : c.run params keyOf s = .ok ((), s'))
    (hcommits : s.begun ≠ [] → c ≠ .xCommit → s'.commits = s.commits) (hkept' : s'.Kept) :
    c.Careful s := by
  cases c with
  | xBegin table =>
      cases hrun
      change s.written = [] ++ s.commits.flatten at hkept'
      rw [Kept, hkept', List.nil_append] at hkept
      exact List.self_eq_append_left.mp hkept
  | xClose =>
      by_contra hopen
      change s.begun ≠ [] at hopen
      have hlog : wlp ((Callback.xClose : Callback T).run params keyOf)
          (fun _ s' => s'.commits = s.pending :: s.commits) s := by
        unfold Callback.run
        rw [wlp_bind]
        refine wlp_mono (wlp_vtabCommit s) fun _ s₁ hs₁ => ?_
        obtain ⟨-, -, -, hlog⟩ := hs₁
        rw [wlp_modify]
        rwa [if_neg (hbacked hopen)] at hlog
      have hsame := (hlog () s' hrun).symm.trans (hcommits hopen (by simp))
      exact List.cons_ne_self _ _ hsame
  | xOpen => trivial
  | xUpdate => trivial
  | xCommit => trivial

/-- In every run in which no cursor is closed inside a transaction and the
transaction is begun at all its tables before anything is written, each
update has a transaction, only the end of SQLite's transaction commits
it, and every record is handed to the commit. The first call that is
otherwise breaks this. -/
theorem handed_to_commit
    (hs : Reachable Untouched (fun c s => c.Allowed s ∧ c.Careful s)
      (Callback.run params keyOf) s) :
    s.Kept ∧ ∀ c : Callback T, c.Allowed s →
      (∀ table change, c = .xUpdate table change → s.globalTransaction ≠ none) ∧
      ∀ s', c.run params keyOf s = .ok ((), s') →
        (((s.begun ≠ [] → c ≠ .xCommit → s'.commits = s.commits) ∧ s'.Kept) ↔ c.Careful s) := by
  have hinv : s.Kept ∧ s.Backed := by
    apply hs.invariant_of_ok (I := fun s => s.Kept ∧ s.Backed)
    · exact fun s h => ⟨h.kept, fun hopen => absurd h.2.1 hopen⟩
    · rintro c s ⟨⟩ s' ⟨hkept, -⟩ ⟨-, hcare⟩ hrun
      obtain ⟨hkept', hbacked', -⟩ := hkept.run hcare hrun
      exact ⟨hkept', hbacked'⟩
  obtain ⟨hkept, hbacked⟩ := hinv
  refine ⟨hkept, fun c hc => ⟨?_, fun s' hrun => ⟨?_, ?_⟩⟩⟩
  · rintro table change rfl
    exact hbacked (List.ne_nil_of_mem hc)
  · rintro ⟨hcommits, hkept'⟩
    exact Careful.of_kept hkept hbacked hrun hcommits hkept'
  · intro hcare
    obtain ⟨hkept', -, hcommits⟩ := hkept.run hcare hrun
    exact ⟨hcommits, hkept'⟩

end

/-! ### Two tables without indexes -/

section

/-- Tables with one page each, in which there is nothing. -/
def blank : Database Bool Int :=
  ⟨fun _ => ⟨1, fun id =>
      if id = 1 then some (TablePage.init (fun _ => 0) 1 pageSize invalidPageId) else none, 2⟩,
    fun _ => none, none, [], 0, [], []⟩

/-- A call to these tables. -/
def runBlank : Callback Bool → Program Fault (Database Bool Int) Unit :=
  Callback.run (fun _ => ⟨[110], .bytes8, fun a b => a - b⟩) fun _ _ => 0

theorem untouched_blank : blank.Untouched := ⟨rfl, rfl, rfl, rfl, rfl⟩

theorem exists_called (ok : Callback Bool → Database Bool Int → Prop)
    [∀ c s, Decidable (ok c s)] (calls : List (Callback Bool)) (f : Database Bool Int → Bool)
    (heval : ((checkedRun (fun c s => decide (ok c s)) runBlank calls blank).any f) = true) :
    ∃ s, Reachable Untouched ok runBlank s ∧ f s = true :=
  exists_reachable_of_eval (.start untouched_blank) _ (fun _ _ h => of_decide_eq_true h) f heval

/-- Two transactions write to two tables. The first one is committed when
it ends, with a row inserted and deleted again; the second one has not
ended. -/
theorem handed_to_commit_delete : ∃ s : Database Bool Int,
    s.commits = [[(true, ⟨⟨1, 0⟩, .delete, []⟩), (true, ⟨⟨1, 1⟩, .insert, []⟩),
      (false, ⟨⟨1, 0⟩, .insert, []⟩), (true, ⟨⟨1, 0⟩, .insert, []⟩)]] ∧
    s.pending = [(false, ⟨⟨1, 0⟩, .delete, []⟩)] ∧ s.cursors = 1 ∧
    (s.tableHeaps true).getTuple ⟨1, 0⟩ = none ∧
    (s.tableHeaps true).getTuple ⟨1, 1⟩ = some [5] ∧ s.Kept := by
  obtain ⟨s, hs, heval⟩ := exists_called (fun c s => c.Allowed s ∧ c.Careful s)
    [.xOpen, .xBegin true, .xBegin false, .xUpdate true (.insert [1, 2, 3]),
      .xUpdate false (.insert [4]), .xUpdate true (.insert [5]), .xUpdate true (.delete ⟨1, 0⟩),
      .xCommit, .xClose, .xOpen, .xBegin false, .xUpdate false (.delete ⟨1, 0⟩)]
    (fun s => s.commits = [[(true, ⟨⟨1, 0⟩, .delete, []⟩), (true, ⟨⟨1, 1⟩, .insert, []⟩),
        (false, ⟨⟨1, 0⟩, .insert, []⟩), (true, ⟨⟨1, 0⟩, .insert, []⟩)]] ∧
      s.pending = [(false, ⟨⟨1, 0⟩, .delete, []⟩)] ∧ s.cursors = 1 ∧
      (s.tableHeaps true).getTuple ⟨1, 0⟩ = none ∧
      (s.tableHeaps true).getTuple ⟨1, 1⟩ = some [5])
    (by decide +kernel)
  obtain ⟨hcommits, hpending, hcursors, hdeleted, hrow⟩ := of_decide_eq_true heval
  exact ⟨s, hcommits, hpending, hcursors, hdeleted, hrow, (handed_to_commit hs).1⟩

/-- A cursor that is closed commits the transaction, and an update after
it has none; and a second table takes the place of the transaction with
the writes of the first. -/
theorem not_handed_to_commit :
    (¬∀ s : Database Bool Int, Reachable Untouched Callback.Allowed runBlank s →
      ∀ table change, (Callback.xUpdate table change).Allowed s → s.globalTransaction ≠ none) ∧
    (¬∀ s : Database Bool Int, Reachable Untouched Callback.Allowed runBlank s →
      ∀ (c : Callback Bool) (s' : Database Bool Int), c.Allowed s → runBlank c s = .ok ((), s') →
        s.begun ≠ [] → c ≠ .xCommit → s'.commits = s.commits) ∧
    (¬∀ s : Database Bool Int, Reachable Untouched Callback.Allowed runBlank s → s.Kept) := by
  refine ⟨fun hall => ?_, fun hall => ?_, fun hall => ?_⟩
  · obtain ⟨s, hs, heval⟩ := exists_called Callback.Allowed [.xBegin true, .xOpen, .xClose]
      (fun s => true ∈ s.begun ∧ s.globalTransaction.isNone) (by decide)
    obtain ⟨hbegun, hnone⟩ := of_decide_eq_true heval
    exact hall s hs true (.delete ⟨1, 0⟩) hbegun (Option.isNone_iff_eq_none.mp hnone)
  · obtain ⟨s, hs, heval⟩ := exists_called Callback.Allowed [.xBegin true, .xOpen]
      (fun s => s.begun = [true] ∧ 0 < s.cursors ∧ s.commits = [] ∧
        (runBlank .xClose s).toOption.any fun y => y.2.commits = [[]]) (by decide)
    obtain ⟨hbegun, hcursors, hcommits, hclose⟩ := of_decide_eq_true heval
    obtain ⟨⟨_, s'⟩, hrun, hearly⟩ := exists_ok_of_any hclose
    have hsame := hall s hs .xClose s' hcursors hrun (by simp [hbegun]) (by simp)
    rw [of_decide_eq_true hearly, hcommits] at hsame
    exact absurd hsame (by decide)
  · obtain ⟨s, hs, heval⟩ := exists_called Callback.Allowed
      [.xBegin true, .xUpdate true (.insert [1, 2, 3]), .xBegin false]
      (fun s => s.written ≠ [] ∧ s.pending = [] ∧ s.commits = []) (by decide +kernel)
    obtain ⟨hwritten, hpending, hcommits⟩ := of_decide_eq_true heval
    have hkept := hall s hs
    rw [Kept, hpending, hcommits] at hkept
    exact hwritten hkept

end

end Database

end ScuDb
