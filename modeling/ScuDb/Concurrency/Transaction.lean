import ScuDb.Common.Config

/-!
The part of a transaction that the tables and the transaction manager use:
its state and its write set. Logging is off, so there are no locks.
-/

namespace ScuDb

/-- The address of a tuple. `RID(INVALID_PAGE_ID, -1)`, which addresses no
tuple, is `none` where it can occur. -/
structure RID where
  pageId : PageId
  slotNum : Nat
  deriving DecidableEq

inductive TransactionState
  | growing
  | shrinking
  | committed
  | aborted
  deriving DecidableEq

inductive WType
  | insert
  | delete
  | update
  deriving DecidableEq

/-- The tuple is only for an update. -/
structure WriteRecord where
  rid : RID
  wtype : WType
  tuple : List UInt8
  deriving DecidableEq

/-- `writeSet` has the latest record first. -/
structure Transaction where
  state : TransactionState
  writeSet : List WriteRecord
  deriving DecidableEq

namespace Transaction

def setState (txn : Transaction) (state : TransactionState) : Transaction :=
  { txn with state := state }

/-- `GetWriteSet()->emplace_back` -/
def emplaceBack (txn : Transaction) (rid : RID) (wtype : WType) (tuple : List UInt8) :
    Transaction :=
  { txn with writeSet := ⟨rid, wtype, tuple⟩ :: txn.writeSet }

end Transaction

end ScuDb
