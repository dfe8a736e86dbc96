import Mathlib.Tactic.Basic

/-!
Constants and identifiers shared by all layers of the database.
-/

namespace ScuDb

/-- `page_id_t`. Ids that name a page are non-negative; the allocator
counts up from the last one it gave out. -/
abbrev PageId := Int

/-- `INVALID_PAGE_ID` -/
def invalidPageId : PageId := -1

/-- `HEADER_PAGE_ID` -/
def headerPageId : PageId := 0

/-- `PAGE_SIZE`, in bytes -/
def pageSize : Nat := 512

/-- What ends an operation abnormally: a failed `assert`, an access
outside the memory of a page, a page that is not in the buffer pool or
is not of the kind its pointer is cast to, and, for the loops whose
number of rounds is bounded here by the number of pages, a loop that
does not end within that bound. -/
inductive Fault
  | assertFailed
  | outOfBounds
  | noSuchPage
  | wrongPageType
  | outOfFuel
  deriving DecidableEq, Repr

end ScuDb
