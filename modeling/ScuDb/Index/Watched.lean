import ScuDb.Foundations.Watching
import ScuDb.Index.BPlusTree

/-!
Insertion and removal under watch.

The functions of the tree, with what a descent has released written down.
A watched function stops when it fetches, reads or changes a page that has
been released, when it reads or changes `root_page_id_` after the root
lock has been given back, and when it changes a page of the tree that is
not in the page set. The parent pointer of a page may be changed all the
same: the source does not latch a page for that.

The functions are made from the accesses only, so that a run under watch
to its end shows that none of this has happened.
-/

namespace ScuDb

open Foundations

/-- What is written down about a call: the first page id that was not
given away before it, and what the descent has released because a page
was safe. -/
structure Watch where
  firstNew : PageId
  released : List PageId
  rootReleased : Bool

/-- How a watched call stops before its end: by a fault of the tree, or
by what it may not do. -/
inductive Watch.Stop
  | fault (e : Fault)
  | releasedPage (id : PageId)
  | releasedRoot
  | notInPageSet (id : PageId)

/-- A member function of the tree under watch. -/
def WatchedM (K V α : Type) : Type := Program Watch.Stop (BPlusTree K V × Watch) α

namespace Watched

variable {K V α : Type}

instance : Monad (WatchedM K V) :=
  inferInstanceAs (Monad (Program Watch.Stop (BPlusTree K V × Watch)))

def onTree (m : TreeM K V α) : WatchedM K V α := unwatched Watch.Stop.fault m

instance : MonadState (BPlusTree K V) (WatchedM K V) where
  get := onTree get
  set t := onTree (set t)
  modifyGet f := onTree (modifyGet f)

instance : MonadExcept Fault (WatchedM K V) where
  throw e := onTree (throw e)
  tryCatch m handle := fun w =>
    match m w with
    | .error (.fault e) => handle e w
    | r => r

/-! ### What is watched -/

/-- The page is looked at, or changed. -/
def touch (id : PageId) : WatchedM K V Unit :=
  check (fun w => id ∉ w.2.released) (.releasedPage id)

/-- `root_page_id_` is looked at, or changed. -/
def touchRoot : WatchedM K V Unit :=
  check (fun w => w.2.rootReleased = false) .releasedRoot

/-- A page of the tree is in the page set when its entries or its size are changed. -/
def hold (id : PageId) : WatchedM K V Unit :=
  check (fun w => id ∈ w.1.pageSet ∨ w.2.firstNew ≤ id) (.notInPageSet id)

/-- The pages of `ids` and the root lock have been given back. -/
def note (ids : List PageId) : WatchedM K V Unit :=
  (modify fun w => (w.1, { w.2 with released := ids ++ w.2.released, rootReleased := true }) :
    Program Watch.Stop (BPlusTree K V × Watch) Unit)

instance : BPlusTree.Access (WatchedM K V) K V where
  readPage id := do
    touch id
    onTree (BPlusTree.readPage id)
  writePage id page := do
    touch id
    hold id
    onTree (BPlusTree.writePage id page)
  setParentPageId id parent := do
    touch id
    onTree (BPlusTree.setParentPageId id parent)
  fetchPage id := do
    touch id
    onTree (BPlusTree.fetchPage id)
  fetchHeaderPage := onTree BPlusTree.fetchHeaderPage
  unpinPage id isDirty := onTree (BPlusTree.unpinPage id isDirty)
  newPage := onTree BPlusTree.newPage
  deletePage id := do
    touch id
    hold id
    onTree (BPlusTree.deletePage id)
  getRootPageId := do
    touchRoot
    onTree BPlusTree.getRootPageId
  setRootPageId id := do
    touchRoot
    onTree (BPlusTree.setRootPageId id)
  asserting fetch := fetch
  releasing free := do
    let t ← onTree get
    free
    note t.pageSet

end Watched

end ScuDb
