import ScuDb.Foundations.Refinement
import ScuDb.Concurrency.TransactionManager
import ScuDb.Table.HeapContents

/-!
The delete records of transactions and the tuples marked as deleted.

`TableHeap::MarkDelete` adds a record whatever the page says. As long as
every tuple is visible when it is deleted, each record stands for one tuple
that is marked as deleted, and no two records, of one or of two
transactions, for the same one. Then a commit removes the tuples its
records name and nothing else.
-/

namespace ScuDb

open Foundations

namespace TransactionManager

open TableHeap

/-- The `RID`s of the delete records. -/
def deleteRids (records : List WriteRecord) : List RID :=
  (records.filter fun item => item.wtype = .delete).map WriteRecord.rid

/-- The tuple is marked as deleted. -/
def Marked (h : TableHeap) (rid : RID) : Prop := ∃ bytes, h.contents rid = some ⟨true, bytes⟩

/-- Every `ApplyDelete` of a commit is for a tuple that is marked as
deleted when it is called, and does not fail. -/
def AppliesMarked : List WriteRecord → TableHeap → Prop
  | [], _ => True
  | item :: rest, h =>
      if item.wtype = .delete then
        Marked h item.rid ∧ ∃ h', h.applyDelete item.rid = .ok h' ∧ AppliesMarked rest h'
      else AppliesMarked rest h

theorem deleteRids_cons (item : WriteRecord) (rest : List WriteRecord) :
    deleteRids (item :: rest) =
      if item.wtype = .delete then item.rid :: deleteRids rest else deleteRids rest := by
  rw [deleteRids, List.filter_cons]
  by_cases hw : item.wtype = .delete
  · simp [hw, deleteRids]
  · simp [hw, deleteRids]

variable {h : TableHeap} {ids : List PageId}

/-- The loop of a commit removes the tuples its records name. -/
theorem applyDeletes_spec (records : List WriteRecord) : ∀ h : TableHeap, Chained h ids →
    (deleteRids records).Nodup → (∀ rid ∈ deleteRids records, Marked h rid) →
    AppliesMarked records h ∧ ∃ h', applyDeletes records h = .ok h' ∧ Chained h' ids ∧
      h'.contents = fun rid => if rid ∈ deleteRids records then none else h.contents rid := by
  induction records with
  | nil =>
      intro h hh _ _
      exact ⟨trivial, h, rfl, hh, by simp [deleteRids]⟩
  | cons item rest ih =>
      intro h hh hnodup hmarked
      rw [deleteRids_cons] at hnodup hmarked
      rw [AppliesMarked, applyDeletes, deleteRids_cons]
      by_cases hw : item.wtype = .delete
      · rw [if_pos hw] at hnodup hmarked ⊢
        obtain ⟨hfresh, hnodup⟩ := List.nodup_cons.mp hnodup
        obtain ⟨bytes, hitem⟩ := hmarked item.rid List.mem_cons_self
        obtain ⟨h₁, hrun⟩ := applyDelete_ok hh hitem
        obtain ⟨hh₁, hcontents⟩ := applyDelete_spec hh hrun
        have hmarked₁ (rid : RID) (hrid : rid ∈ deleteRids rest) : Marked h₁ rid := by
          obtain ⟨b, hb⟩ := hmarked rid (List.mem_cons_of_mem _ hrid)
          refine ⟨b, ?_⟩
          rw [hcontents, Function.update_of_ne]
          · exact hb
          · rintro rfl
            exact hfresh hrid
        obtain ⟨happlies, h', hrest, hh', hcontents'⟩ := ih h₁ hh₁ hnodup hmarked₁
        refine ⟨⟨⟨bytes, hitem⟩, h₁, hrun, happlies⟩, h', ?_, hh', ?_⟩
        · rw [if_pos hw, hrun]
          exact hrest
        · rw [hcontents', hcontents]
          funext rid
          rw [if_pos hw]
          by_cases heq : rid = item.rid
          · simp [heq]
          · simp [heq]
      · rw [if_neg hw] at hnodup hmarked ⊢
        rw [if_neg hw, if_neg hw]
        exact ih h hh hnodup hmarked

end TransactionManager

/-! ### Transactions on one table -/

/-- A table, the transactions that use it, and the `RID`s `InsertTuple` has
returned. -/
structure TableSystem where
  heap : TableHeap
  txns : Nat → Transaction
  returned : List RID

inductive TableOp
  | insertTuple (t : Nat) (tuple : List UInt8)
  | updateTuple (t : Nat) (tuple : List UInt8) (rid : RID)
  | markDelete (t : Nat) (rid : RID)
  | commit (t : Nat)

namespace TableOp

open TableHeap TransactionManager

def run : TableOp → Program Fault TableSystem Unit
  | insertTuple t tuple => fun s => do
      let (rid, heap, txn) ← s.heap.insertTuple tuple (s.txns t)
      pure ((), ⟨heap, Function.update s.txns t txn, rid.toList ++ s.returned⟩)
  | updateTuple t tuple rid => fun s => do
      let (_, heap, txn) ← s.heap.updateTuple tuple rid (s.txns t)
      pure ((), { s with heap := heap, txns := Function.update s.txns t txn })
  | markDelete t rid => fun s =>
      let (_, heap, txn) := s.heap.markDelete rid (s.txns t)
      .ok ((), { s with heap := heap, txns := Function.update s.txns t txn })
  | commit t => fun s => do
      let (heap, txn) ← TransactionManager.commit s.heap (s.txns t)
      pure ((), { s with heap := heap, txns := Function.update s.txns t txn })

/-- The `RID` was returned by an insertion. -/
def Allowed : TableOp → TableSystem → Prop
  | updateTuple _ _ rid, s => rid ∈ s.returned
  | markDelete _ rid, s => rid ∈ s.returned
  | _, _ => True

instance : (op : TableOp) → (s : TableSystem) → Decidable (op.Allowed s)
  | updateTuple _ _ rid, s => inferInstanceAs (Decidable (rid ∈ s.returned))
  | markDelete _ rid, s => inferInstanceAs (Decidable (rid ∈ s.returned))
  | insertTuple _ _, _ | commit _, _ => isTrue trivial

/-- A tuple that is deleted is visible, and no update leaves a tuple behind
that is marked as deleted. -/
def Careful : TableOp → TableSystem → Prop
  | updateTuple _ tuple rid, s => s.heap.KeepsOffsets tuple rid
  | markDelete _ rid, s => ∃ bytes, s.heap.getTuple rid = some bytes
  | _, _ => True

instance : (op : TableOp) → (s : TableSystem) → Decidable (op.Careful s)
  | updateTuple _ tuple rid, s => inferInstanceAs (Decidable (s.heap.KeepsOffsets tuple rid))
  | markDelete _ rid, s =>
      decidable_of_iff ((s.heap.getTuple rid).isSome = true) Option.isSome_iff_exists
  | insertTuple _ _, _ | commit _, _ => isTrue trivial

end TableOp

namespace TableSystem

open TableHeap TransactionManager

/-- What a commit in this state does. -/
structure CommitsEach (s : TableSystem) (t : Nat) : Prop where
  applies : AppliesMarked (s.txns t).writeSet s.heap
  once : (deleteRids (s.txns t).writeSet).Nodup
  others : ∀ t', t' ≠ t → ∀ rid ∈ deleteRids (s.txns t').writeSet,
    rid ∉ deleteRids (s.txns t).writeSet
  removed : ∃ h, commit s.heap (s.txns t) = .ok (h, ⟨.committed, []⟩) ∧
    h.contents = fun rid =>
      if rid ∈ deleteRids (s.txns t).writeSet then none else s.heap.contents rid

/-- The invariant: delete records and tuples marked as deleted. -/
structure DeletesTracked (s : TableSystem) (ids : List PageId) : Prop where
  chained : Chained s.heap ids
  returned : ∀ rid ∈ s.returned, rid.pageId ∈ ids
  once : ∀ t, (deleteRids (s.txns t).writeSet).Nodup
  others : ∀ t t', t' ≠ t → ∀ rid ∈ deleteRids (s.txns t').writeSet,
    rid ∉ deleteRids (s.txns t).writeSet
  marked : ∀ t, ∀ rid ∈ deleteRids (s.txns t).writeSet, Marked s.heap rid

variable {s : TableSystem} {ids ids' : List PageId} {heap : TableHeap} {txn : Transaction} {t : Nat}
  {returned : List RID}

/-- One transaction and the table change. -/
theorem DeletesTracked.next (hs : DeletesTracked s ids) (hchained : Chained heap ids')
    (hreturned : ∀ rid ∈ returned, rid.pageId ∈ ids') (honce : (deleteRids txn.writeSet).Nodup)
    (hothers : ∀ t', t' ≠ t → ∀ rid ∈ deleteRids (s.txns t').writeSet,
      rid ∉ deleteRids txn.writeSet)
    (hown : ∀ rid ∈ deleteRids txn.writeSet, Marked heap rid)
    (hmarked : ∀ t', t' ≠ t → ∀ rid ∈ deleteRids (s.txns t').writeSet, Marked heap rid) :
    DeletesTracked ⟨heap, Function.update s.txns t txn, returned⟩ ids' := by
  constructor
  case chained => exact hchained
  case returned => exact hreturned
  case once =>
    intro t₁
    simp only [Function.update_apply]
    split
    case isTrue => exact honce
    case isFalse => exact hs.once t₁
  case others =>
    intro t₁ t₂ hne rid
    simp only [Function.update_apply]
    by_cases h₂ : t₂ = t
    · have h₁ : t₁ ≠ t := fun heq => hne (h₂.trans heq.symm)
      rw [if_pos h₂, if_neg h₁]
      exact fun hrid hrid' => hothers t₁ h₁ rid hrid' hrid
    · rw [if_neg h₂]
      by_cases h₁ : t₁ = t
      · rw [if_pos h₁]
        exact hothers t₂ h₂ rid
      · rw [if_neg h₁]
        exact hs.others t₁ t₂ hne rid
  case marked =>
    intro t₁
    simp only [Function.update_apply]
    split
    case isTrue => exact hown
    case isFalse h₁ => exact hmarked t₁ h₁

theorem DeletesTracked.same (hs : DeletesTracked s ids) (hchained : Chained heap ids')
    (hreturned : ∀ rid ∈ returned, rid.pageId ∈ ids')
    (hrids : deleteRids txn.writeSet = deleteRids (s.txns t).writeSet)
    (hmarked : ∀ rid, Marked s.heap rid → Marked heap rid) :
    DeletesTracked ⟨heap, Function.update s.txns t txn, returned⟩ ids' := by
  apply hs.next hchained hreturned
  · rw [hrids]
    exact hs.once t
  · rw [hrids]
    exact hs.others t
  · rw [hrids]
    exact fun rid hrid => hmarked rid (hs.marked t rid hrid)
  · exact fun t' _ rid hrid => hmarked rid (hs.marked t' rid hrid)

theorem marked_of_update {h : TableHeap} {rid r : RID} {v : Option StoredTuple}
    (hcontents : heap.contents = Function.update h.contents r v) (hr : ¬Marked h r)
    (hrid : Marked h rid) : Marked heap rid := by
  obtain ⟨bytes, hbytes⟩ := hrid
  refine ⟨bytes, ?_⟩
  rw [hcontents, Function.update_of_ne]
  · exact hbytes
  · rintro rfl
    exact hr ⟨bytes, hbytes⟩

theorem deletesTracked_run {op : TableOp} {s' : TableSystem} (hs : DeletesTracked s ids)
    (hop : op.Allowed s) (hcare : op.Careful s) (hrun : op.run s = .ok ((), s')) :
    ∃ ids', DeletesTracked s' ids' := by
  have hh := hs.chained
  cases op with
  | insertTuple t tuple =>
      simp only [TableOp.run] at hrun
      cases hins : s.heap.insertTuple tuple (s.txns t) with
      | error e =>
          rw [hins] at hrun
          cases hrun
      | ok r =>
          rw [hins] at hrun
          cases hrun
          rcases insertTuple_ok hh hins with ⟨-, rfl⟩ | ⟨rid, h', ids', hne, rfl, hdone⟩
          · exact ⟨ids, hs.same hh hs.returned rfl fun _ h => h⟩
          · obtain ⟨hchained, hfree, hcontents⟩ := hdone.spec hh hne
            obtain ⟨h₁, p, q, hgrown, hid, -⟩ := hdone
            refine ⟨ids', hs.same hchained ?_ ?_ fun r hr => ?_⟩
            · intro r hr
              rcases List.mem_cons.mp hr with rfl | hr
              · exact hid
              · exact hgrown.ids.subset (hs.returned r hr)
            · exact deleteRids_cons _ _
            · apply marked_of_update hcontents _ hr
              rintro ⟨bytes, hbytes⟩
              rw [hfree] at hbytes
              cases hbytes
  | updateTuple t tuple rid =>
      simp only [TableOp.run] at hrun
      rcases updateTuple_cases hh (hs.returned rid hop) hcare (s.txns t) with
        href | ⟨p, old, q, hup, hmade⟩
      · rw [href] at hrun
        cases hrun
        exact ⟨ids, hs.same hh hs.returned rfl fun _ h => h⟩
      · rw [hmade] at hrun
        cases hrun
        obtain ⟨hchained, hold, hcontents⟩ := hup.spec hh
        refine ⟨ids, hs.same hchained hs.returned ?_ fun r hr => ?_⟩
        · split
          case isTrue => exact deleteRids_cons _ _
          case isFalse => rfl
        · apply marked_of_update hcontents _ hr
          rintro ⟨bytes, hbytes⟩
          rw [hold] at hbytes
          cases hbytes
  | markDelete t rid =>
      obtain ⟨p, hp⟩ := hh.exists_page (hs.returned rid hop)
      obtain ⟨hmark, hchained, hcontents⟩ := markDelete_spec hh hp (s.txns t)
      simp only [TableOp.run, hmark] at hrun
      cases hrun
      obtain ⟨bytes, hbytes⟩ := hcare
      have hlive := getTuple_eq_some_iff.mp hbytes
      have hnew : ¬Marked s.heap rid := by
        rintro ⟨b, hb⟩
        rw [hlive] at hb
        cases hb
      have hself : Marked (s.heap.setPage rid.pageId (p.markDelete rid.slotNum).2) rid :=
        ⟨bytes, by rw [hcontents, Function.update_self, hlive]; rfl⟩
      have hkeep (r : RID) (hr : Marked s.heap r) := marked_of_update hcontents hnew hr
      have hrids := deleteRids_cons ⟨rid, .delete, []⟩ (s.txns t).writeSet
      rw [if_pos rfl] at hrids
      refine ⟨ids, hs.next hchained hs.returned ?_ ?_ ?_ ?_⟩
      · show (deleteRids (_ :: _)).Nodup
        rw [hrids]
        exact List.nodup_cons.mpr ⟨fun hr => hnew (hs.marked t rid hr), hs.once t⟩
      · intro t' ht' r hr
        show r ∉ deleteRids (_ :: _)
        rw [hrids]
        intro hr'
        rcases List.mem_cons.mp hr' with rfl | hr'
        · exact hnew (hs.marked t' _ hr)
        · exact hs.others t t' ht' r hr hr'
      · intro r hr
        replace hr : r ∈ deleteRids (_ :: _) := hr
        rw [hrids] at hr
        rcases List.mem_cons.mp hr with rfl | hr
        · exact hself
        · exact hkeep r (hs.marked t r hr)
      · exact fun t' _ r hr => hkeep r (hs.marked t' r hr)
  | commit t =>
      obtain ⟨-, h', hdone, hchained, hcontents⟩ :=
        applyDeletes_spec _ s.heap hh (hs.once t) (hs.marked t)
      simp only [TableOp.run, commit, hdone] at hrun
      cases hrun
      refine ⟨ids, hs.next hchained hs.returned List.nodup_nil ?_ ?_ ?_⟩
      · exact fun _ _ _ _ => List.not_mem_nil
      · exact fun r hr => absurd hr List.not_mem_nil
      · intro t' ht' r hr
        obtain ⟨bytes, hbytes⟩ := hs.marked t' r hr
        refine ⟨bytes, ?_⟩
        rw [hcontents]
        simp only [if_neg (hs.others t t' ht' r hr), hbytes]

theorem DeletesTracked.commitsEach (hs : DeletesTracked s ids) (t : Nat) : CommitsEach s t := by
  obtain ⟨happlies, h', hdone, -, hcontents⟩ :=
    applyDeletes_spec _ s.heap hs.chained (hs.once t) (hs.marked t)
  constructor
  case applies => exact happlies
  case once => exact hs.once t
  case others => exact hs.others t
  case removed =>
    refine ⟨h', ?_, hcontents⟩
    rw [commit, hdone]
    rfl

/-- In every run in which a tuple that is deleted is visible and no update
leaves a tuple behind that is marked as deleted, every commit applies its
deletes once, to tuples that are marked and still there, and does not
fail. -/
theorem commits_apply_marked {n : PageId} (hn : 0 ≤ n) {s : TableSystem}
    (hs : Reachable
      (fun s => TableHeap.create n = .ok s.heap ∧
        s.txns = (fun _ => TransactionManager.start) ∧ s.returned = [])
      (fun op s => op.Allowed s ∧ op.Careful s) TableOp.run s) (t : Nat) : CommitsEach s t := by
  suffices hall : ∃ ids, DeletesTracked s ids by
    obtain ⟨ids, htracked⟩ := hall
    exact htracked.commitsEach t
  apply hs.invariant_of_ok
  · rintro s ⟨hcreate, htxns, hreturned⟩
    refine ⟨[n], (create_spec hn hcreate).1, ?_, ?_, ?_, ?_⟩
    · rw [hreturned]
      exact fun r hr => absurd hr List.not_mem_nil
    · rw [htxns]
      exact fun _ => List.nodup_nil
    · rw [htxns]
      exact fun _ _ _ r hr => absurd hr List.not_mem_nil
    · rw [htxns]
      exact fun _ r hr => absurd hr List.not_mem_nil
  · rintro op s ⟨⟩ s' ⟨ids, hs⟩ ⟨hop, hcare⟩ hrun
    exact deletesTracked_run hs hop hcare hrun

theorem exists_made (ops : List TableOp) (f : TableSystem → Bool)
    (heval : ((create 1).toOption.any fun h =>
      (checkedRun (fun op s => decide (op.Allowed s ∧ op.Careful s)) TableOp.run ops
        ⟨h, fun _ => TransactionManager.start, []⟩).any f) = true) :
    ∃ s, Reachable
      (fun s => create 1 = .ok s.heap ∧
        s.txns = (fun _ => TransactionManager.start) ∧ s.returned = [])
      (fun op s => op.Allowed s ∧ op.Careful s) TableOp.run s ∧ f s = true := by
  obtain ⟨h, hcreate⟩ : ∃ h, create 1 = .ok h := exists_ok (by decide)
  rw [hcreate] at heval
  exact exists_reachable_of_eval (.start ⟨hcreate, rfl, rfl⟩) _ (fun _ _ => of_decide_eq_true) f
    heval

/-- Three tuples of one transaction are committed. Of two others that run
at once, one updates a tuple on the second page and deletes one on each
page, the other one deletes the third. -/
theorem commits_apply_marked_once : ∃ s : TableSystem,
    s.heap.contents ⟨2, 0⟩ = some ⟨true, [9, 9]⟩ ∧
      deleteRids (s.txns 1).writeSet = [⟨2, 0⟩, ⟨1, 0⟩] ∧
      deleteRids (s.txns 2).writeSet = [⟨1, 1⟩] ∧ CommitsEach s 1 ∧ CommitsEach s 2 := by
  obtain ⟨s, hs, heval⟩ := exists_made
    [.insertTuple 0 [1, 2, 3], .insertTuple 0 [4], .insertTuple 0 (List.replicate 470 7),
      .commit 0, .markDelete 1 ⟨1, 0⟩, .updateTuple 1 [9, 9] ⟨2, 0⟩, .markDelete 2 ⟨1, 1⟩,
      .markDelete 1 ⟨2, 0⟩]
    (fun s => s.heap.contents ⟨2, 0⟩ = some ⟨true, [9, 9]⟩ ∧
      deleteRids (s.txns 1).writeSet = [⟨2, 0⟩, ⟨1, 0⟩] ∧
        deleteRids (s.txns 2).writeSet = [⟨1, 1⟩]) (by decide +kernel)
  obtain ⟨hmarked, hfirst, hsecond⟩ := of_decide_eq_true heval
  exact ⟨s, hmarked, hfirst, hsecond, commits_apply_marked (by decide) hs 1,
    commits_apply_marked (by decide) hs 2⟩

/-- A tuple is deleted twice: the page refuses the second time, and the
commit fails on the slot that its first `ApplyDelete` has made free. -/
theorem deleted_twice_fails :
    ¬∀ (n : PageId) (s : TableSystem) (t : Nat), 0 ≤ n →
      Reachable
        (fun s => create n = .ok s.heap ∧
          s.txns = (fun _ => TransactionManager.start) ∧ s.returned = [])
        TableOp.Allowed TableOp.run s → CommitsEach s t := by
  intro hall
  obtain ⟨s, hs, heval⟩ := exists_made [.insertTuple 0 [1, 2, 3], .markDelete 0 ⟨1, 0⟩]
    (fun s => (⟨1, 0⟩ : RID) ∈ s.returned ∧ ((TableOp.markDelete 0 ⟨1, 0⟩).run s).toOption.any
      fun y => (commit y.2.heap (y.2.txns 0)).toOption.isNone) (by decide +kernel)
  obtain ⟨hreturned, heval⟩ := of_decide_eq_true heval
  have hop : (TableOp.markDelete 0 ⟨1, 0⟩).Allowed s := hreturned
  cases hrun : (TableOp.markDelete 0 ⟨1, 0⟩).run s with
  | error e =>
      rw [hrun] at heval
      cases heval
  | ok y =>
      rw [hrun] at heval
      obtain ⟨h, hdone, -⟩ := (hall 1 y.2 0 (by decide)
        ((hs.mono fun _ _ h => h.1).next hop hrun)).removed
      have hfail : (commit y.2.heap (y.2.txns 0)).toOption.isNone = true := heval
      rw [hdone] at hfail
      cases hfail

end TableSystem

end ScuDb
