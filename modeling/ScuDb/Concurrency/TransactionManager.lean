import ScuDb.Table.TableHeap

/-!
Committing and aborting a transaction, `transaction_manager.cpp`, on one
table. A commit makes the deletes real, an abort takes all operations
back; both go through the write set from its latest record on. Logging is
off and no locks are held.
-/

namespace ScuDb

namespace TransactionManager

/-- `Begin` -/
def start : Transaction := ⟨.growing, []⟩

/-- The loop of `Commit`. -/
def applyDeletes : List WriteRecord → TableHeap → Except Fault TableHeap
  | [], h => .ok h
  | item :: rest, h => do
      let h ← if item.wtype = .delete then h.applyDelete item.rid else .ok h
      applyDeletes rest h

/-- `Commit` -/
def commit (h : TableHeap) (txn : Transaction) : Except Fault (TableHeap × Transaction) := do
  let h ← applyDeletes txn.writeSet h
  .ok (h, ⟨.committed, []⟩)

/-- The body of the loop of `Abort`. What `UpdateTuple` returns is not
looked at. -/
def undo (txn : Transaction) (item : WriteRecord) (h : TableHeap) : Except Fault TableHeap :=
  match item.wtype with
  | .delete => h.rollbackDelete item.rid
  | .insert => h.applyDelete item.rid
  | .update => do
      let (_, h, _) ← h.updateTuple item.tuple item.rid txn
      .ok h

/-- The loop of `Abort`. -/
def rollback (txn : Transaction) : List WriteRecord → TableHeap → Except Fault TableHeap
  | [], h => .ok h
  | item :: rest, h => do
      let h ← undo txn item h
      rollback txn rest h

/-- `Abort` -/
def abort (h : TableHeap) (txn : Transaction) : Except Fault (TableHeap × Transaction) := do
  let h ← rollback (txn.setState .aborted) txn.writeSet h
  .ok (h, ⟨.aborted, []⟩)

end TransactionManager

end ScuDb
