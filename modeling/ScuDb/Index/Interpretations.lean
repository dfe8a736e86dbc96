import ScuDb.Index.BPlusTree

/-!
Two interpretations of the accesses of a tree.

A relation between programs that is kept when programs are put together,
and that holds of each access, holds of every member function: the
functions are made from the accesses only. What differs from one function
to the other is said here once, and used for each relation of this kind.
-/

namespace ScuDb

open Foundations

namespace BPlusTree

variable {K V : Type}

section

variable {M N : Type → Type} [Monad M] [MonadState (BPlusTree K V) M] [MonadExcept Fault M]
  [Access M K V] [Monad N] [MonadState (BPlusTree K V) N] [MonadExcept Fault N] [Access N K V]

/-- The accesses of `M` and those of `N` are related, and so is what is
put together from related programs. Of the header page, only its change
by `UpdateRootPageId` counts. -/
structure Relates (params : IndexParams K) (R : ∀ α : Type, M α → N α → Prop) : Prop where
  pure {α : Type} (a : α) : R α (Pure.pure a) (Pure.pure a)
  bind {α β : Type} {m : M α} {n : N α} {f : α → M β} {g : α → N β} :
    R α m n → (∀ a, R β (f a) (g a)) → R β (m >>= f) (n >>= g)
  throw {α : Type} (e : Fault) : R α (MonadExcept.throw e) (MonadExcept.throw e)
  get : R (BPlusTree K V) MonadState.get MonadState.get
  modify (f : BPlusTree K V → BPlusTree K V) (h : ∀ t, (f t).headerPage = t.headerPage) :
    R PUnit (modify f) (modify f)
  readPage (id : PageId) : R (TreePage K V) (Access.readPage id) (Access.readPage id)
  writePage (id : PageId) (page : TreePage K V) :
    R Unit (Access.writePage id page) (Access.writePage id page)
  setParentPageId (id parent : PageId) :
    R Unit (Access.setParentPageId id parent) (Access.setParentPageId id parent)
  fetchPage (id : PageId) : R Unit (Access.fetchPage id) (Access.fetchPage id)
  unpinPage (id : PageId) (isDirty : Bool) :
    R Unit (Access.unpinPage id isDirty) (Access.unpinPage id isDirty)
  newPage : R PageId Access.newPage Access.newPage
  deletePage (id : PageId) : R Unit (Access.deletePage id) (Access.deletePage id)
  getRootPageId : R PageId Access.getRootPageId Access.getRootPageId
  setRootPageId (id : PageId) : R Unit (Access.setRootPageId id) (Access.setRootPageId id)
  asserting {m : M Unit} {n : N Unit} :
    R Unit m n → R Unit (Access.asserting m) (Access.asserting n)
  releasing {m : M Unit} {n : N Unit} :
    R Unit m n → R Unit (Access.releasing m) (Access.releasing n)
  updateRootPageId (insertRecord : Bool) : R Unit
    (BPlusTree.updateRootPageId params insertRecord)
    (BPlusTree.updateRootPageId params insertRecord)

namespace Relates

omit [Monad M] [MonadState (BPlusTree K V) M] [MonadExcept Fault M] [Access M K V] [Monad N]
  [MonadState (BPlusTree K V) N] [MonadExcept Fault N] [Access N K V] in
theorem ite {R : ∀ α : Type, M α → N α → Prop} {α : Type} {c : Prop} [Decidable c] {m m' : M α}
    {n n' : N α} (hm : R α m n) (hm' : R α m' n') :
    R α (if c then m else m') (if c then n else n') := by
  split
  · exact hm
  · exact hm'

variable {params : IndexParams K} {R : ∀ α : Type, M α → N α → Prop} (h : Relates params R)

include h

theorem ofExcept {α : Type} (x : Except Fault α) :
    R α (MonadExcept.ofExcept x) (MonadExcept.ofExcept x) := by
  cases x with
  | error e => exact h.throw e
  | ok a => exact h.pure a

theorem require {c : Prop} [Decidable c] (e : Fault) :
    R Unit (Foundations.require c e) (Foundations.require c e) :=
  ite (h.pure ()) (h.throw e)

theorem forM {α : Type} (l : List α) {f : α → M PUnit} {g : α → N PUnit}
    (hf : ∀ a, R PUnit (f a) (g a)) : R PUnit (ForM.forM l f) (ForM.forM l g) := by
  induction l with
  | nil => exact h.pure _
  | cons a l ih => exact h.bind (hf a) fun _ => ih

theorem record (call : PoolCall) :
    R Unit (BPlusTree.record call) (BPlusTree.record call) :=
  h.modify _ fun _ => rfl

theorem leafAt (id : PageId) : R (LeafPage K V) (BPlusTree.leafAt id) (BPlusTree.leafAt id) := by
  refine h.bind (h.readPage id) fun page => ?_
  cases page with
  | leaf page => exact h.pure page
  | internal page => exact h.throw _

theorem internalAt (id : PageId) :
    R (InternalPage K) (BPlusTree.internalAt id) (BPlusTree.internalAt id) := by
  refine h.bind (h.readPage id) fun page => ?_
  cases page with
  | leaf page => exact h.throw _
  | internal page => exact h.pure page

theorem lockRootPageId (exclusive : Bool) :
    R Unit (BPlusTree.lockRootPageId exclusive) (BPlusTree.lockRootPageId exclusive) :=
  h.modify _ fun _ => rfl

theorem tryUnlockRootPageId (exclusive : Bool) :
    R Unit (BPlusTree.tryUnlockRootPageId exclusive) (BPlusTree.tryUnlockRootPageId exclusive) := by
  refine h.modify _ fun t => ?_
  split <;> rfl

theorem addIntoPageSet (transaction : Bool) (id : PageId) :
    R Unit (BPlusTree.addIntoPageSet transaction id) (BPlusTree.addIntoPageSet transaction id) :=
  h.bind (h.require _) fun _ => h.modify _ fun _ => rfl

theorem addIntoDeletedPageSet (transaction : Bool) (id : PageId) :
    R Unit (BPlusTree.addIntoDeletedPageSet transaction id)
      (BPlusTree.addIntoDeletedPageSet transaction id) :=
  h.bind (h.require _) fun _ => h.modify _ fun _ => rfl

/-! ### Latches -/

theorem freePage (exclusive : Bool) (id : PageId) :
    R Unit (BPlusTree.freePage exclusive id) (BPlusTree.freePage exclusive id) := by
  refine h.bind (h.record _) fun _ => h.bind (h.unpinPage id exclusive) fun _ => ?_
  refine h.bind h.get fun t => ite ?_ (h.pure ())
  exact h.bind (h.deletePage id) fun _ => h.modify _ fun _ => rfl

theorem freePagesInTransaction (exclusive transaction : Bool) (cur : PageId) :
    R Unit (BPlusTree.freePagesInTransaction exclusive transaction cur)
      (BPlusTree.freePagesInTransaction exclusive transaction cur) := by
  refine h.bind (h.tryUnlockRootPageId exclusive) fun _ => ite ?_ ?_
  · refine h.bind (h.require _) fun _ => h.bind (h.fetchPage cur) fun _ => ?_
    refine h.bind (h.record _) fun _ => h.bind (h.unpinPage cur false) fun _ => ?_
    exact h.unpinPage cur false
  · refine h.bind h.get fun t => h.bind (h.forM t.pageSet (h.freePage exclusive)) fun _ => ?_
    exact h.bind h.get fun t => h.bind (h.require _) fun _ => h.modify _ fun _ => rfl

theorem crabingProtocalFetchPage (id : PageId) (op : OpType) (previous : PageId)
    (transaction : Bool) :
    R Unit (BPlusTree.crabingProtocalFetchPage id op previous transaction)
      (BPlusTree.crabingProtocalFetchPage id op previous transaction) := by
  refine h.bind (h.fetchPage id) fun _ => h.bind (h.record _) fun _ => ?_
  refine h.bind (h.readPage id) fun page => h.bind ?_ fun release => ?_
  · exact ite (ite (h.pure true) (h.ofExcept _)) (h.pure false)
  · refine h.bind (ite ?_ (h.pure ())) fun _ => ite (h.addIntoPageSet _ id) (h.pure ())
    exact h.releasing (h.freePagesInTransaction _ _ _)

theorem adoptChild (parent child : PageId) :
    R Unit (BPlusTree.adoptChild parent child) (BPlusTree.adoptChild parent child) :=
  h.bind (h.fetchPage child) fun _ => h.bind (h.setParentPageId child parent) fun _ =>
    h.unpinPage child true

theorem adoptChildren (parent : PageId) (entries : List (K × PageId)) :
    R Unit (BPlusTree.adoptChildren parent entries) (BPlusTree.adoptChildren parent entries) :=
  h.forM entries fun e => h.adoptChild parent e.2

/-! ### The descent -/

theorem findLeafFrom (key : K) (leftMost : Bool) (op : OpType) (transaction : Bool) (fuel : Nat)
    (cur : PageId) :
    R PageId (BPlusTree.findLeafFrom params key leftMost op transaction fuel cur)
      (BPlusTree.findLeafFrom params key leftMost op transaction fuel cur) := by
  induction fuel generalizing cur with
  | zero => exact h.throw _
  | succ fuel ih =>
      refine h.bind (h.readPage cur) fun page => ?_
      cases page with
      | leaf page => exact h.pure cur
      | internal page =>
          refine h.bind (h.ofExcept _) fun next => ?_
          exact h.bind (h.crabingProtocalFetchPage next op cur transaction) fun _ => ih next

theorem findLeafPage (key : K) (leftMost : Bool) (op : OpType) (transaction : Bool) :
    R (Option PageId) (BPlusTree.findLeafPage params key leftMost op transaction)
      (BPlusTree.findLeafPage params key leftMost op transaction) := by
  refine h.bind (h.lockRootPageId _) fun _ => h.bind h.getRootPageId fun rootPageId => ite ?_ ?_
  · exact h.bind (h.tryUnlockRootPageId _) fun _ => h.pure none
  · refine h.bind h.get fun t => ?_
    refine h.bind (h.crabingProtocalFetchPage rootPageId op (-1) transaction) fun _ => ?_
    exact h.bind (h.findLeafFrom key leftMost op transaction _ _) fun leaf => h.pure (some leaf)

theorem getValue [Inhabited V] (key : K) (result : List V) (transaction : Bool) :
    R (Bool × List V) (BPlusTree.getValue params key result transaction)
      (BPlusTree.getValue params key result transaction) := by
  refine h.bind (h.findLeafPage key false .read transaction) fun found => ?_
  cases found with
  | none => exact h.pure _
  | some id =>
      refine h.bind (h.leafAt id) fun page => ?_
      exact h.bind (h.freePagesInTransaction false transaction _) fun _ => h.pure _

/-! ### Insertion -/

theorem startNewTree (key : K) (value : V) :
    R Unit (BPlusTree.startNewTree params key value)
      (BPlusTree.startNewTree params key value) := by
  refine h.bind h.newPage fun id => h.bind (h.writePage id _) fun _ => ?_
  refine h.bind (h.setRootPageId id) fun _ => h.bind (h.updateRootPageId true) fun _ => ?_
  refine h.bind (h.leafAt id) fun root => h.bind (h.ofExcept _) fun root' => ?_
  exact h.bind (h.writePage id _) fun _ => h.unpinPage id true

theorem split (transaction : Bool) (node : PageId) :
    R PageId (BPlusTree.split params transaction node)
      (BPlusTree.split params transaction node) := by
  refine h.bind h.newPage fun newPageId => h.bind (h.record _) fun _ => ?_
  refine h.bind (h.addIntoPageSet transaction newPageId) fun _ => ?_
  refine h.bind (h.readPage node) fun page => ?_
  cases page with
  | leaf page =>
      refine h.bind (h.ofExcept _) fun halves => h.bind (h.writePage newPageId _) fun _ => ?_
      exact h.bind (h.writePage node _) fun _ => h.pure newPageId
  | internal page =>
      refine h.bind (h.ofExcept _) fun halves => h.bind (h.writePage newPageId _) fun _ => ?_
      refine h.bind (h.writePage node _) fun _ => ?_
      exact h.bind (h.adoptChildren newPageId _) fun _ => h.pure newPageId

theorem growRoot [Inhabited K] (oldNode : PageId) (key : K) (newNode : PageId) :
    R Unit (BPlusTree.growRoot params oldNode key newNode)
      (BPlusTree.growRoot params oldNode key newNode) := by
  refine h.bind h.newPage fun id => h.bind (h.setRootPageId id) fun _ => ?_
  refine h.bind (h.ofExcept _) fun newRoot => h.bind (h.writePage id _) fun _ => ?_
  refine h.bind (h.setParentPageId oldNode id) fun _ => ?_
  refine h.bind (h.setParentPageId newNode id) fun _ => ?_
  exact h.bind (h.updateRootPageId false) fun _ => h.unpinPage id true

theorem insertIntoParent [Inhabited K] (transaction : Bool) (fuel : Nat) (oldNode : PageId)
    (key : K) (newNode : PageId) :
    R Unit (BPlusTree.insertIntoParent params transaction fuel oldNode key newNode)
      (BPlusTree.insertIntoParent params transaction fuel oldNode key newNode) := by
  induction fuel generalizing oldNode key newNode with
  | zero => exact h.throw _
  | succ fuel ih =>
      refine h.bind (h.readPage oldNode) fun oldPage => ite (h.growRoot oldNode key newNode) ?_
      refine h.bind (h.fetchPage _) fun _ => h.bind (h.setParentPageId newNode _) fun _ => ?_
      refine h.bind (h.internalAt _) fun parent => h.bind (h.ofExcept _) fun parent' => ?_
      refine h.bind (h.writePage _ _) fun _ => ?_
      refine h.bind (ite ?_ (h.pure ())) fun _ => h.unpinPage _ true
      refine h.bind (h.split transaction _) fun newId => h.bind (h.internalAt newId) fun _ => ?_
      exact h.bind (h.ofExcept _) fun newKey => ih _ newKey newId

theorem insertIntoLeaf [Inhabited K] (key : K) (value : V) (transaction : Bool) :
    R Bool (BPlusTree.insertIntoLeaf params key value transaction)
      (BPlusTree.insertIntoLeaf params key value transaction) := by
  refine h.bind (h.findLeafPage key false .insert transaction) fun found => ?_
  cases found with
  | none => exact h.throw _
  | some id =>
      refine h.bind (h.leafAt id) fun leaf => ?_
      cases hlookup : leaf.lookup params.comparator key with
      | some v =>
          exact h.bind (h.freePagesInTransaction true transaction (-1)) fun _ => h.pure false
      | none =>
          refine h.bind (h.ofExcept _) fun leaf' => h.bind (h.writePage id _) fun _ => ?_
          refine h.bind (ite ?_ (h.pure ())) fun _ => ?_
          · refine h.bind (h.split transaction id) fun newId => h.bind (h.leafAt newId) fun _ => ?_
            refine h.bind (h.ofExcept _) fun newKey => h.bind h.get fun t => ?_
            exact h.insertIntoParent transaction _ id newKey newId
          · exact h.bind (h.freePagesInTransaction true transaction (-1)) fun _ => h.pure true

theorem insert [Inhabited K] (key : K) (value : V) (transaction : Bool) :
    R Bool (BPlusTree.insert params key value transaction)
      (BPlusTree.insert params key value transaction) := by
  refine h.bind (h.lockRootPageId true) fun _ => h.bind h.getRootPageId fun _ => ite ?_ ?_
  · refine h.bind (h.startNewTree key value) fun _ => ?_
    exact h.bind (h.tryUnlockRootPageId true) fun _ => h.pure true
  · exact h.bind (h.tryUnlockRootPageId true) fun _ => h.insertIntoLeaf key value transaction

/-! ### Removal -/

theorem adjustRoot (oldRoot : PageId) :
    R Bool (BPlusTree.adjustRoot params oldRoot) (BPlusTree.adjustRoot params oldRoot) := by
  refine h.bind (h.readPage oldRoot) fun page => ?_
  cases page with
  | leaf page =>
      refine h.bind (h.setRootPageId invalidPageId) fun _ => ?_
      exact h.bind (h.updateRootPageId false) fun _ => h.pure true
  | internal page =>
      refine ite ?_ (h.pure false)
      refine h.bind (h.ofExcept _) fun x => h.bind (h.writePage oldRoot _) fun _ => ?_
      refine h.bind (h.setRootPageId x.1) fun _ => h.bind (h.updateRootPageId false) fun _ => ?_
      exact h.bind (h.asserting (h.adoptChild invalidPageId x.1)) fun _ => h.pure true

theorem findLeftSibling (transaction : Bool) (node : PageId) :
    R (Bool × PageId) (BPlusTree.findLeftSibling transaction node)
      (BPlusTree.findLeftSibling transaction node) := by
  refine h.bind (h.readPage node) fun page => h.bind (h.fetchPage _) fun _ => ?_
  refine h.bind (h.internalAt _) fun parent => h.bind (h.ofExcept _) fun sibling => ?_
  refine h.bind (h.crabingProtocalFetchPage sibling .delete (-1) transaction) fun _ => ?_
  exact h.bind (h.unpinPage parent.pageId false) fun _ => h.pure _

theorem moveAllTo (node recipient : PageId) (indexInParent : Int) :
    R Unit (BPlusTree.moveAllTo node recipient indexInParent)
      (BPlusTree.moveAllTo node recipient indexInParent) := by
  refine h.bind (h.readPage node) fun page => ?_
  cases page with
  | leaf page =>
      refine h.bind (h.leafAt recipient) fun target => h.bind (h.ofExcept _) fun moved => ?_
      exact h.bind (h.writePage recipient _) fun _ => h.writePage node _
  | internal page =>
      refine h.bind (h.internalAt recipient) fun target => ?_
      refine h.bind (h.asserting (h.fetchPage page.parentPageId)) fun _ => ?_
      refine h.bind (h.internalAt _) fun parent => h.bind (h.ofExcept _) fun separator => ?_
      refine h.bind (h.unpinPage parent.pageId false) fun _ => h.bind (h.ofExcept _) fun moved => ?_
      refine h.bind (h.writePage recipient _) fun _ => h.bind (h.writePage node _) fun _ => ?_
      exact h.adoptChildren _ _

theorem setParentKeyAt (parentId : PageId) (index : InternalPage K → Int) (key : K) :
    R Unit (BPlusTree.setParentKeyAt parentId index key)
      (BPlusTree.setParentKeyAt parentId index key) := by
  refine h.bind (h.fetchPage parentId) fun _ => h.bind (h.internalAt parentId) fun parent => ?_
  refine h.bind (h.ofExcept _) fun parent' => h.bind (h.writePage parentId _) fun _ => ?_
  exact h.unpinPage parentId true

theorem moveFirstToEndOf (node recipient : PageId) :
    R Unit (BPlusTree.moveFirstToEndOf node recipient)
      (BPlusTree.moveFirstToEndOf node recipient) := by
  refine h.bind (h.readPage node) fun page => ?_
  cases page with
  | leaf page =>
      refine h.bind (h.leafAt recipient) fun target => h.bind (h.ofExcept _) fun moved => ?_
      refine h.bind (h.writePage node _) fun _ => h.bind (h.writePage recipient _) fun _ => ?_
      exact h.bind (h.ofExcept _) fun first => h.setParentKeyAt _ _ _
  | internal page =>
      refine h.bind (h.internalAt recipient) fun target => h.bind (h.ofExcept _) fun child => ?_
      refine h.bind (h.ofExcept _) fun moved => h.bind (h.writePage node _) fun _ => ?_
      refine h.bind (h.writePage recipient _) fun _ => ?_
      refine h.bind (h.asserting (h.adoptChild _ child)) fun _ => ?_
      exact h.bind (h.ofExcept _) fun first => h.setParentKeyAt _ _ _

theorem moveLastToFrontOf (node recipient : PageId) (parentIndex : Int) :
    R Unit (BPlusTree.moveLastToFrontOf node recipient parentIndex)
      (BPlusTree.moveLastToFrontOf node recipient parentIndex) := by
  refine h.bind (h.readPage node) fun page => ?_
  cases page with
  | leaf page =>
      refine h.bind (h.leafAt recipient) fun target => h.bind (h.ofExcept _) fun moved => ?_
      refine h.bind (h.writePage node _) fun _ => h.bind (h.writePage recipient _) fun _ => ?_
      exact h.bind (h.ofExcept _) fun first => h.setParentKeyAt _ _ _
  | internal page =>
      refine h.bind (h.internalAt recipient) fun target => h.bind (h.ofExcept _) fun child => ?_
      refine h.bind (h.ofExcept _) fun moved => h.bind (h.writePage node _) fun _ => ?_
      refine h.bind (h.writePage recipient _) fun _ => ?_
      refine h.bind (h.asserting (h.adoptChild _ child)) fun _ => ?_
      exact h.bind (h.ofExcept _) fun first => h.setParentKeyAt _ _ _

theorem redistribute (neighbor node : PageId) (index : Int) :
    R Unit (BPlusTree.redistribute neighbor node index)
      (BPlusTree.redistribute neighbor node index) :=
  ite (h.moveFirstToEndOf neighbor node) (h.moveLastToFrontOf neighbor node index)

/-- The call for the parent is whatever the one for the child is given. -/
theorem coalesce (transaction : Bool) {continueWith : PageId → M Bool}
    {continueWith' : PageId → N Bool} (hcontinue : ∀ id, R Bool (continueWith id)
      (continueWith' id)) (neighbor node parentId : PageId) (index : Int) :
    R Bool (BPlusTree.coalesce transaction continueWith neighbor node parentId index)
      (BPlusTree.coalesce transaction continueWith' neighbor node parentId index) := by
  refine h.bind (h.moveAllTo node neighbor index) fun _ => ?_
  refine h.bind (h.addIntoDeletedPageSet transaction node) fun _ => ?_
  refine h.bind (h.internalAt parentId) fun parent => h.bind (h.ofExcept _) fun parent' => ?_
  exact h.bind (h.writePage parentId _) fun _ => ite (hcontinue parentId) (h.pure false)

theorem coalesceOrRedistribute (transaction : Bool) (fuel : Nat) (node : PageId) :
    R Bool (BPlusTree.coalesceOrRedistribute params transaction fuel node)
      (BPlusTree.coalesceOrRedistribute params transaction fuel node) := by
  induction fuel generalizing node with
  | zero => exact h.throw _
  | succ fuel ih =>
      refine h.bind (h.readPage node) fun page => ite ?_ ?_
      · refine h.bind (h.adjustRoot node) fun delOldRoot => ?_
        refine h.bind (ite ?_ (h.pure ())) fun _ => h.pure delOldRoot
        exact h.addIntoDeletedPageSet transaction node
      · refine h.bind (h.findLeftSibling transaction node) fun sibling => ?_
        refine h.bind (h.fetchPage _) fun _ => h.bind (h.internalAt _) fun parent => ?_
        refine h.bind (h.readPage sibling.2) fun page2 => ite ?_ ?_
        · refine h.bind (h.coalesce transaction ih _ _ _ _) fun _ => ?_
          exact h.bind (h.unpinPage _ true) fun _ => h.pure true
        · refine h.bind (h.redistribute sibling.2 node _) fun _ => ?_
          exact h.bind (h.unpinPage _ false) fun _ => h.pure false

theorem remove (key : K) (transaction : Bool) :
    R Unit (BPlusTree.remove params key transaction)
      (BPlusTree.remove params key transaction) := by
  refine h.bind h.getRootPageId fun rootPageId => ite (h.pure ()) ?_
  refine h.bind (h.findLeafPage key false .delete transaction) fun found => ?_
  cases found with
  | none => exact h.throw _
  | some id =>
      refine h.bind (h.leafAt id) fun leaf => h.bind (h.writePage id _) fun _ => ?_
      refine h.bind (ite ?_ (h.pure ())) fun _ => h.freePagesInTransaction true transaction (-1)
      refine h.bind h.get fun t => ?_
      exact h.bind (h.coalesceOrRedistribute transaction _ id) fun _ => h.pure ()

end Relates

end

end BPlusTree

end ScuDb
