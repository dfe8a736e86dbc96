import ScuDb.Index.Moving
import ScuDb.Index.PinBalance

/-!
Removal with a test in front of every `Redistribute`.

When an internal page borrows a child, `MoveFirstToEndOf` and
`MoveLastToFrontOf` take the key out of the slot the child leaves; they
do not read the separator in the parent. `borrow` stops unless this key
is the separator of the child. `removeWith` is `Remove` with another
function in the place of `Redistribute`, so that `removeWith borrow` is
the removal of the source with these tests, and ends only where the
removal of the source ends.
-/

namespace ScuDb

open Foundations

variable {K V B : Type}

namespace BPlusTree

section Programs

/-- The separator of the child in slot `index` of a page: the key of the
slot, and for the first slot the separator of the page in its parent. -/
def separatorAt (parent page : InternalPage K) (index : Int) : Except Fault K :=
  if index = 0 then parent.keyAt (parent.valueIndex page.pageId) else page.keyAt index

/-- The child that `Redistribute` is about to move from `neighbor` to
`node` takes its separator with it. A child that is moved to the front
makes the first key of `node` the key of a second slot: this key has to
be a separator, too. -/
def testBorrow [DecidableEq K] (neighbor node : PageId) (index : Int) : TreeM K V Unit := do
  match ← readPage neighbor with
  | .leaf _ => pure ()
  | .internal page => do
      let recipient ← internalAt node
      let parent ← internalAt page.parentPageId
      let slot : Int := if index = 0 then 0 else (page.array.length : Int) - 1
      let key ← MonadExcept.ofExcept (page.keyAt slot)
      let separator ← MonadExcept.ofExcept (separatorAt parent page slot)
      require (key = separator) .assertFailed
      if index = 0 then pure ()
      else do
        let first ← MonadExcept.ofExcept (recipient.keyAt 0)
        let separator ← MonadExcept.ofExcept (separatorAt parent recipient 0)
        require (first = separator) .assertFailed

/-- `Redistribute` after the test. -/
def borrow [DecidableEq K] (neighbor node : PageId) (index : Int) : TreeM K V Unit := do
  testBorrow neighbor node index
  redistribute neighbor node index

variable (share : PageId → PageId → Int → TreeM K V Unit) (params : IndexParams K)

/-- `CoalesceOrRedistribute` with `share` in the place of `Redistribute`. -/
def coalesceOrRedistributeWith (transaction : Bool) : Nat → PageId → TreeM K V Bool
  | 0, _ => throw .outOfFuel
  | fuel + 1, node => do
      let page ← readPage node
      if page.isRootPage = true then do
        let delOldRoot ← adjustRoot params node
        (if delOldRoot = true then addIntoDeletedPageSet transaction node else pure ())
        pure delOldRoot
      else do
        let (isRightSibling, node2) ← findLeftSibling transaction node
        let parentId := page.getParentPageId
        fetchPage parentId
        let parent ← internalAt parentId
        let page2 ← readPage node2
        if page.getSize + page2.getSize ≤ page.getMaxSize then do
          let left := if isRightSibling = true then node else node2
          let right := if isRightSibling = true then node2 else node
          let _ ← coalesce transaction (coalesceOrRedistributeWith transaction fuel)
            left right parentId (parent.valueIndex right)
          unpinPage parentId true
          pure true
        else do
          share node2 node (parent.valueIndex node)
          unpinPage parentId false
          pure false

/-- `Remove` with `share` in the place of `Redistribute`. -/
def removeWith (key : K) (transaction : Bool) : TreeM K V Unit := do
  let rootPageId ← getRootPageId
  if rootPageId = invalidPageId then pure ()
  else do
    match ← findLeafPage params key false .delete transaction with
    | none => throw .noSuchPage
    | some id => do
        let leaf ← leafAt id
        let leaf := leaf.removeAndDeleteRecord params.comparator key
        writePage id (.leaf leaf)
        (if leaf.array.length < (TreePage.leaf leaf).getMinSize then do
          let t ← get
          let _ ← coalesceOrRedistributeWith share params transaction t.nextPageId.toNat id
          pure ()
        else pure ())
        freePagesInTransaction true transaction (-1)

end Programs

/-! ### The tests only stop runs -/

section Tests

variable {share share' : PageId → PageId → Int → TreeM K V Unit} (params : IndexParams K)

theorem coalesce_guards {transaction : Bool} {up up' : PageId → TreeM K V Bool}
    (hup : ∀ p, Guards (up' p) (up p)) (neighbor node parentId : PageId) (index : Int) :
    Guards (coalesce transaction up' neighbor node parentId index)
      (coalesce transaction up neighbor node parentId index) := by
  unfold coalesce
  refine .bind (.refl _) fun _ => .bind (.refl _) fun _ => .bind (.refl _) fun parent => ?_
  refine .bind (.refl _) fun parent => .bind (.refl _) fun _ => ?_
  exact .ite (hup parentId) (.refl _)

theorem coalesceOrRedistributeWith_guards
    (hshare : ∀ neighbor node index,
      Guards (share' neighbor node index) (share neighbor node index))
    (transaction : Bool) (fuel : Nat) (node : PageId) :
    Guards (coalesceOrRedistributeWith share' params transaction fuel node)
      (coalesceOrRedistributeWith share params transaction fuel node) := by
  induction fuel generalizing node with
  | zero => exact .refl _
  | succ fuel ih =>
      rw [coalesceOrRedistributeWith, coalesceOrRedistributeWith]
      refine .bind (.refl _) fun page => .ite (.refl _) ?_
      refine .bind (.refl _) fun (isRightSibling, node2) => .bind (.refl _) fun _ => ?_
      refine .bind (.refl _) fun parent => .bind (.refl _) fun page2 => .ite ?_ ?_
      · exact .bind (coalesce_guards ih _ _ _ _) fun _ => .refl _
      · exact .bind (hshare _ _ _) fun _ => .refl _

theorem neutral_coalesceOrRedistributeWith
    (hshare : ∀ neighbor node index, Neutral (share neighbor node index)) (fuel : Nat)
    (node : PageId) : Neutral (coalesceOrRedistributeWith share params true fuel node) := by
  induction fuel generalizing node with
  | zero => exact fun _ _ _ _ _ => wlp_throw.mpr trivial
  | succ fuel ih =>
      refine neutral_readPage.bind fun page => ?_
      refine Neutral.ite ?_ ?_
      · refine (neutral_adjustRoot params node).bind fun delOldRoot => ?_
        refine Neutral.bind ?_ fun _ => Neutral.pure delOldRoot
        exact neutral_addIntoDeletedPageSet.ite (Neutral.pure ())
      · refine (neutral_findLeftSibling node).bind fun ⟨isRightSibling, node2⟩ => ?_
        intro u₀ old extra t h
        have h₁ : Balanced u₀ old (addPin extra page.getParentPageId)
            { t with calls := .fetchPage page.getParentPageId :: t.calls } :=
          ⟨h.named, fun hn => (h.inHand hn).fetch _⟩
        simp only [wlp_bind, wlp_fetchPage, wlp_internalAt, wlp_readPage, wlp_ite, wlp_unpinPage,
          wlp_pure]
        intro _ _ parent _ page2 _
        refine ⟨fun _ => ?_, fun _ => ?_⟩
        · refine wlp_mono (neutral_coalesce ih _ _ _ _ u₀ old _ _ h₁) fun _ t₂ h₂ => ?_
          exact ⟨h₂.named, fun hn => (h₂.inHand hn).unpin⟩
        · refine wlp_mono (hshare _ _ _ u₀ old _ _ h₁) fun _ t₂ h₂ => ?_
          exact ⟨h₂.named, fun hn => (h₂.inHand hn).unpin⟩

theorem removeWith_guards
    (hshare : ∀ neighbor node index,
      Guards (share' neighbor node index) (share neighbor node index))
    (key : K) (transaction : Bool) :
    Guards (removeWith share' params key transaction)
      (removeWith share params key transaction) := by
  unfold removeWith
  refine .bind (.refl _) fun t => .ite (.refl _) (.bind (.refl _) fun found => ?_)
  cases found with
  | none => exact .refl _
  | some id =>
      refine .bind (.refl _) fun leaf => .bind (.refl _) fun _ => .bind ?_ fun _ => .refl _
      refine .ite (.bind (.refl _) fun t => .bind ?_ fun _ => .refl _) (.refl _)
      exact coalesceOrRedistributeWith_guards params hshare _ _ _

theorem coalesceOrRedistributeWith_redistribute (transaction : Bool) (fuel : Nat) (node : PageId) :
    coalesceOrRedistributeWith redistribute params transaction fuel node =
      (coalesceOrRedistribute params transaction fuel node : TreeM K V Bool) := by
  induction fuel generalizing node with
  | zero => rfl
  | succ fuel ih =>
      have hup : coalesceOrRedistributeWith redistribute params transaction fuel =
          (coalesceOrRedistribute params transaction fuel : PageId → TreeM K V Bool) := funext ih
      rw [coalesceOrRedistributeWith, coalesceOrRedistribute, hup]

theorem removeWith_redistribute (key : K) (transaction : Bool) :
    removeWith redistribute params key transaction =
      (remove params key transaction : TreeM K V Unit) := by
  have hup : coalesceOrRedistributeWith redistribute params transaction =
      (coalesceOrRedistribute params transaction : Nat → PageId → TreeM K V Bool) := by
    funext fuel node
    exact coalesceOrRedistributeWith_redistribute params transaction fuel node
  rw [removeWith, hup]
  rfl

variable [DecidableEq K]

theorem testBorrow_leaves (neighbor node : PageId) (index : Int) :
    Leaves id (testBorrow neighbor node index : TreeM K V Unit) := by
  have hread : ∀ y, Leaves id (readPage y : TreeM K V (TreePage K V)) := by
    intro y
    refine .bind .get fun t => ?_
    cases t.pages y with
    | none => exact .throw _
    | some page => exact .pure _
  have hinternal : ∀ y, Leaves id (internalAt y : TreeM K V (InternalPage K)) := by
    intro y
    refine .bind (hread y) fun page => ?_
    cases page with
    | leaf leaf => exact .throw _
    | internal q => exact .pure _
  refine .bind (hread neighbor) fun page => ?_
  cases page with
  | leaf leaf => exact .pure _
  | internal page =>
      refine .bind (hinternal _) fun recipient => .bind (hinternal _) fun parent => ?_
      refine .bind (.ofExcept _) fun key => .bind (.ofExcept _) fun separator => ?_
      refine .bind .require fun _ => .ite (.pure _) ?_
      exact .bind (.ofExcept _) fun first => .bind (.ofExcept _) fun separator => .require

theorem neutral_borrow (neighbor node : PageId) (index : Int) :
    Neutral (borrow neighbor node index : TreeM K V Unit) := by
  refine Neutral.bind (fun u₀ old extra t h => ?_) fun _ => neutral_redistribute neighbor node index
  refine wlp_mono (testBorrow_leaves neighbor node index t) fun _ t' (heq : t' = t) => ?_
  rw [heq]
  exact h

/-- A removal with the tests ends where the removal ends. -/
theorem removeWith_borrow_guards (key : K) (transaction : Bool) :
    Guards (removeWith borrow params key transaction)
      (remove params key transaction : TreeM K V Unit) := by
  rw [← removeWith_redistribute]
  refine removeWith_guards params (fun neighbor node index => ?_) key transaction
  exact .after (testBorrow_leaves neighbor node index) _

end Tests

/-! ### The tests are passed -/

section Passed

variable [LinearOrder B] [BoundedOrder B] (ω : OrderedIndex K B)

/-- Between the children of a page, `share` leads where `Redistribute` does. -/
def LikeRedistribute (share : PageId → PageId → Int → TreeM K V Unit) : Prop :=
  ∀ {t : BPlusTree K V} {G H p before k l s r after d q pl pr} {Q : Unit → BPlusTree K V → Prop},
    Pair ω t.pages G t.rootPageId H p before k l s r after d q pl pr →
      (before = [] → wp (redistribute r l (q.valueIndex l)) Q t →
        wp (share r l (q.valueIndex l)) Q t) ∧
      (1 < pl.getSize → wp (redistribute l r (q.valueIndex r)) Q t →
        wp (share l r (q.valueIndex r)) Q t)

theorem likeRedistribute_redistribute : LikeRedistribute ω (redistribute (K := K) (V := V)) :=
  fun _ => ⟨fun _ h => h, fun _ h => h⟩

variable {ω}

section Pairs

variable {t : BPlusTree K V} {G : Cells B} {H : Nat} {p : PageId} {before : List (K × PageId)}
  {k : K} {l : PageId} {s : K} {r : PageId} {after : List (K × PageId)} {d : Cell B}
  {q : InternalPage K}

/-- The first key of a right neighbour is its separator. -/
theorem Pair.first_separator {pl : TreePage K V} {R : InternalPage K}
    (pair : Pair ω t.pages G t.rootPageId H p before k l s r after d q pl (.internal R)) :
    R.keyAt 0 = .ok s ∧ separatorAt q R 0 = .ok s ∧ R.parentPageId = p := by
  obtain ⟨c, hc, hparent, -⟩ := pair.right_cell
  obtain ⟨page, hpage, hok⟩ := pair.shape.page hc
  cases pair.right.symm.trans hpage
  have hid : R.pageId = r := hok.pageId
  obtain ⟨e, rest, harr⟩ := (pair.neighbours none [] l (by simp)).right_head rfl pair.right
  refine ⟨InternalPage.keyAt_zero (by rw [harr]; rfl), ?_, hok.parent.trans hparent⟩
  rw [separatorAt, if_pos rfl, hid, pair.valueIndex_right]
  exact pair.keyAt_right

/-- The last key of a page with two children or more is a separator. -/
theorem last_separator (parent : InternalPage K) {L : InternalPage K} (htwo : 1 < L.array.length) :
    ∃ key, L.keyAt ((L.array.length : Int) - 1) = .ok key ∧
      separatorAt parent L ((L.array.length : Int) - 1) = .ok key := by
  rcases List.eq_nil_or_concat L.array with hnil | ⟨front, ⟨key, x⟩, harr⟩
  · rw [hnil] at htwo
    cases htwo
  · rw [List.concat_eq_append] at harr
    have hlen : (L.array.length : Int) - 1 = front.length := by simp [harr]
    have hfront : ¬(front.length : Int) = 0 := by omega
    have hkey : L.keyAt front.length = .ok key := InternalPage.keyAt_eq harr
    rw [hlen, separatorAt, if_neg hfront]
    exact ⟨key, hkey, hkey⟩

end Pairs

/-- The tests of a borrowing between siblings are passed. -/
theorem likeRedistribute_borrow [DecidableEq K] :
    LikeRedistribute ω (borrow (K := K) (V := V)) := by
  intro t G H p before k l s r after d q pl pr Q pair
  refine ⟨fun hbefore h => ?_, fun htwo h => ?_⟩
  · have hindex : q.valueIndex l = 0 := by
      rw [pair.valueIndex_left, hbefore]
      rfl
    rw [hindex] at h ⊢
    rw [borrow, wp_bind, testBorrow, wp_bind, wp_readPage]
    refine ⟨pr, pair.right, ?_⟩
    cases pr with
    | leaf R => exact wp_pure.mpr h
    | internal R =>
        cases pl with
        | leaf L => cases pair.sameKind
        | internal L =>
            obtain ⟨hkey, hseparator, hparent⟩ := pair.first_separator
            simp only [wp_bind, wp_internalAt, wp_ofExcept, wp_require, hparent, if_true, wp_pure]
            exact ⟨L, pair.left, q, pair.page, s, hkey, s, hseparator, rfl, h⟩
  · have hindex : ¬q.valueIndex r = 0 := by
      rw [pair.valueIndex_right]
      omega
    rw [borrow, wp_bind, testBorrow, wp_bind, wp_readPage]
    refine ⟨pl, pair.left, ?_⟩
    cases pl with
    | leaf L => exact wp_pure.mpr h
    | internal L =>
        cases pr with
        | leaf R => cases pair.sameKind
        | internal R =>
            obtain ⟨hkey, hseparator, -⟩ := pair.first_separator
            obtain ⟨key, hlast, hlast'⟩ := last_separator q htwo
            obtain ⟨c, hc, hcp, -⟩ := pair.left_cell
            obtain ⟨page, hpage, hok⟩ := pair.shape.page hc
            cases pair.left.symm.trans hpage
            have hparent : L.parentPageId = p := hok.parent.trans hcp
            simp only [wp_bind, wp_internalAt, wp_ofExcept, wp_require, hparent, if_neg hindex]
            exact ⟨R, pair.right, q, pair.page, key, hlast, key, hlast', rfl, s, hkey, s,
              hseparator, rfl, h⟩

end Passed

end BPlusTree

end ScuDb
