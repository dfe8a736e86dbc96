import ScuDb.Concurrency.Abort
import ScuDb.Concurrency.Commit
import ScuDb.Foundations.Ledger

/-!
Transactions that take turns on one table.

Their calls, commits and aborts come in any order. What is asked of them
is what locks held to the end would see to: a tuple that one of them has
written is left alone by the others as long as it is open. Updates keep
the size of the tuple, so that there is always room to put the old one
back. The ledger says what is to be read; the write sets say how to get
back to what was committed.
-/

namespace ScuDb

open Foundations

/-- A table and the transactions that use it. -/
structure SharedTable where
  heap : TableHeap
  txns : Nat → Transaction

/-- What a tuple is replaced by. -/
def TxnCall.value : TxnCall → Option (List UInt8)
  | insertTuple tuple => some tuple
  | updateTuple tuple _ => some tuple
  | markDelete _ => none

inductive TxnOp
  | call (t : Nat) (c : TxnCall)
  | commit (t : Nat)
  | abort (t : Nat)

/-- The writes of the transactions, with `none` for a deletion. -/
abbrev TableLedger := Ledger Nat RID (Option (List UInt8))

namespace TxnOp

def run : TxnOp → Program Fault SharedTable (Option RID)
  | call t c => fun s => do
      let (rid, (heap, txn)) ← c.run (s.heap, s.txns t)
      pure (rid, ⟨heap, Function.update s.txns t txn⟩)
  | commit t => fun s => do
      let (heap, txn) ← TransactionManager.commit s.heap (s.txns t)
      pure (none, ⟨heap, Function.update s.txns t txn⟩)
  | abort t => fun s => do
      let (heap, txn) ← TransactionManager.abort s.heap (s.txns t)
      pure (none, ⟨heap, Function.update s.txns t txn⟩)

/-- What the ledger learns. -/
def note : TxnOp → Option RID → TableLedger → TableLedger
  | call t c, some rid, L => L.write t rid c.value
  | call _ _, none, L => L
  | commit t, _, L => L.commit t
  | abort t, _, L => L.abort t

/-- No other transaction that is open has written the tuple. -/
def Untouched (s : SharedTable) (t : Nat) (rid : RID) : Prop :=
  ∀ t', t' ≠ t → ∀ item ∈ (s.txns t').writeSet, item.rid ≠ rid

/-- What is updated or deleted is visible and no other transaction has
written it; an update keeps the size, and is not made by a transaction
that an insertion has failed for. -/
def Allowed : TxnOp → SharedTable → Prop
  | call _ (.insertTuple _), _ => True
  | call t (.updateTuple tuple rid), s => (s.txns t).state ≠ .aborted ∧ Untouched s t rid ∧
      ∃ old, s.heap.getTuple rid = some old ∧ tuple.length = old.length
  | call t (.markDelete rid), s => Untouched s t rid ∧ ∃ old, s.heap.getTuple rid = some old
  | commit _, _ => True
  | abort _, _ => True

end TxnOp

namespace TransactionManager

open TableHeap

/-- The tuples stored in a table. -/
abbrev Tuples := RID → Option StoredTuple

/-! ### Taking records back -/

/-- What undoing the record makes of the tuple. -/
def undone (item : WriteRecord) (tuple : Option StoredTuple) : Option StoredTuple :=
  match item.wtype with
  | .insert => none
  | .delete => tuple.map fun t => { t with deleted := false }
  | .update => some ⟨false, item.tuple⟩

def takeBack (item : WriteRecord) (c : Tuples) : Tuples :=
  Function.update c item.rid (undone item (c item.rid))

def takeBackAll (items : List WriteRecord) (c : Tuples) : Tuples :=
  items.foldl (fun c item => takeBack item c) c

/-- The tuple is as the call that the record is about has left it. -/
def Fits (item : WriteRecord) : Option StoredTuple → Prop
  | none => False
  | some t =>
      match item.wtype with
      | .insert => t.deleted = false
      | .delete => t.deleted = true
      | .update => t.deleted = false ∧ t.bytes.length = item.tuple.length

/-- Every record fits when its turn comes. -/
def Ready : List WriteRecord → Tuples → Prop
  | [], _ => True
  | item :: rest, c => Fits item (c item.rid) ∧ Ready rest (takeBack item c)

theorem takeBack_of_ne {item : WriteRecord} {c : Tuples} {rid : RID} (h : rid ≠ item.rid) :
    takeBack item c rid = c rid := Function.update_of_ne h _ _

theorem takeBack_self {item : WriteRecord} {c : Tuples} :
    takeBack item c item.rid = undone item (c item.rid) := Function.update_self _ _ _

theorem takeBack_congr {item : WriteRecord} {c c' : Tuples} {rid : RID} (h : c rid = c' rid) :
    takeBack item c rid = takeBack item c' rid := by
  simp only [takeBack, Function.update_apply]
  split
  case isTrue heq => rw [← heq, h]
  case isFalse => exact h

theorem takeBackAll_congr {items : List WriteRecord} {c c' : Tuples} {rid : RID}
    (h : c rid = c' rid) : takeBackAll items c rid = takeBackAll items c' rid := by
  induction items generalizing c c' with
  | nil => exact h
  | cons item rest ih => exact ih (takeBack_congr h)

theorem takeBackAll_of_not_mem {items : List WriteRecord} {c : Tuples} {rid : RID}
    (h : ∀ item ∈ items, item.rid ≠ rid) : takeBackAll items c rid = c rid := by
  induction items generalizing c with
  | nil => rfl
  | cons item rest ih =>
      exact (ih fun x hx => h x (List.mem_cons_of_mem _ hx)).trans
        (takeBack_of_ne (h item List.mem_cons_self).symm)

theorem Ready.congr {items : List WriteRecord} {c c' : Tuples} (h : Ready items c)
    (hsame : ∀ item ∈ items, c item.rid = c' item.rid) : Ready items c' := by
  induction items generalizing c c' with
  | nil => trivial
  | cons item rest ih =>
      refine ⟨hsame item List.mem_cons_self ▸ h.1, ih h.2 fun x hx => ?_⟩
      exact takeBack_congr (hsame x (List.mem_cons_of_mem _ hx))

theorem Ready.exists_stored {items : List WriteRecord} {c : Tuples} (h : Ready items c)
    {item : WriteRecord} (hitem : item ∈ items) : ∃ t, c item.rid = some t := by
  induction items generalizing c with
  | nil => cases hitem
  | cons first rest ih =>
      have hfirst : ∃ t, c first.rid = some t := by
        have hfits := h.1
        cases hc : c first.rid with
        | none =>
            rw [hc] at hfits
            exact hfits.elim
        | some t => exact ⟨t, rfl⟩
      by_cases heq : item.rid = first.rid
      · rw [heq]
        exact hfirst
      · obtain ⟨t, ht⟩ := ih h.2 ((List.mem_cons.mp hitem).resolve_left
          fun hfirst => heq (congrArg WriteRecord.rid hfirst))
        exact ⟨t, (takeBack_of_ne heq).symm.trans ht⟩

theorem undone_visible {item : WriteRecord} {x : Option StoredTuple} {t : StoredTuple}
    (h : undone item x = some t) : t.deleted = false := by
  obtain ⟨rid, wtype, tuple⟩ := item
  cases wtype with
  | insert => cases h
  | update =>
      cases h
      rfl
  | delete =>
      obtain ⟨t', -, rfl⟩ := Option.map_eq_some_iff.mp h
      rfl

theorem mem_deleteRids {items : List WriteRecord} {rid : RID} (h : rid ∈ deleteRids items) :
    ∃ item ∈ items, item.rid = rid := by
  obtain ⟨item, hitem, rfl⟩ := List.mem_map.mp h
  exact ⟨item, List.mem_of_mem_filter hitem, rfl⟩

/-- The delete records of a write set are the tuples marked as deleted,
one for each. -/
theorem Ready.deleteRids {items : List WriteRecord} {c : Tuples} (h : Ready items c) :
    (deleteRids items).Nodup ∧ ∀ item ∈ items, ∃ t, c item.rid = some t ∧
      (t.deleted = true ↔ item.rid ∈ TransactionManager.deleteRids items) := by
  induction items generalizing c with
  | nil => exact ⟨List.nodup_nil, fun _ hitem => absurd hitem List.not_mem_nil⟩
  | cons first rest ih =>
      obtain ⟨hnodup, hrest⟩ := ih h.2
      -- What is taken back is not marked, so no earlier record deletes it.
      have hfresh : first.rid ∉ TransactionManager.deleteRids rest := by
        intro hmem
        obtain ⟨item, hitem, heq⟩ := mem_deleteRids hmem
        obtain ⟨t, ht, hiff⟩ := hrest item hitem
        rw [heq] at ht hiff
        have hvisible := undone_visible (takeBack_self.symm.trans ht)
        rw [hiff.mpr hmem] at hvisible
        cases hvisible
      have hself : first.rid ∈ TransactionManager.deleteRids (first :: rest) ↔
          first.wtype = .delete := by
        rw [deleteRids_cons]
        split
        case isTrue hw => exact ⟨fun _ => hw, fun _ => List.mem_cons_self⟩
        case isFalse hw => exact ⟨fun hmem => absurd hmem hfresh, fun hw' => absurd hw' hw⟩
      constructor
      · rw [deleteRids_cons]
        split
        · exact List.nodup_cons.mpr ⟨hfresh, hnodup⟩
        · exact hnodup
      · intro item hitem
        by_cases heq : item.rid = first.rid
        · have hfits := h.1
          rw [heq, hself]
          cases hc : c first.rid with
          | none =>
              rw [hc] at hfits
              exact hfits.elim
          | some t =>
              refine ⟨t, rfl, ?_⟩
              rw [hc, Fits] at hfits
              cases hw : first.wtype <;> simp_all
        · have hmem := (List.mem_cons.mp hitem).resolve_left
            fun hfirst => heq (congrArg WriteRecord.rid hfirst)
          obtain ⟨t, ht, hiff⟩ := hrest item hmem
          refine ⟨t, (takeBack_of_ne heq).symm.trans ht, ?_⟩
          rw [hiff, deleteRids_cons]
          split
          · simp [heq]
          · rfl

/-! ### The loops of `Commit` and `Abort` -/

variable {h : TableHeap} {ids : List PageId}

theorem rollbackDelete_ok {rid : RID} {t : StoredTuple} (hh : Chained h ids)
    (ht : h.contents rid = some t) : ∃ h', h.rollbackDelete rid = .ok h' := by
  obtain ⟨p, hp, hslot⟩ := exists_page_of_contents ht
  obtain ⟨q, hq, -⟩ :=
    TablePage.rollbackDelete_spec (hh.layout hp) (TablePage.occupied_of_slotAt hslot)
  exact ⟨h.setPage rid.pageId q, rollbackDelete_eq hp hq⟩

theorem updateTuple_ok {rid : RID} {old tuple : List UInt8} (hh : Chained h ids)
    (hold : h.contents rid = some ⟨false, old⟩) (hlen : tuple.length = old.length)
    (txn : Transaction) :
    ∃ h', h.updateTuple tuple rid txn = .ok (true, h',
        if txn.state ≠ .aborted then txn.emplaceBack rid .update old else txn) ∧
      Chained h' ids ∧ h'.contents = Function.update h.contents rid (some ⟨false, tuple⟩) := by
  obtain ⟨p, hp, hslot⟩ := exists_page_of_contents hold
  have hlayout := hh.layout hp
  have hsize := TablePage.slotAt_length hslot
  have hsign := (TablePage.slotAt_deleted hslot).not.mp Bool.false_ne_true
  have hocc := TablePage.occupied_of_slotAt hslot
  have hne := hocc.2
  simp only [TablePage.tupleLength] at hsize
  have hdir := hlayout.directory
  have hroom : (tuple.length : Int) ≤ p.getFreeSpaceSize + old.length := by
    rw [TablePage.getFreeSpaceSize]
    omega
  obtain ⟨q, hq, hlayoutq, -, hheader, hslotq⟩ :=
    TablePage.updateTuple_spec hlayout hslot hroom fun _ _ _ _ => by omega
  have hsome : tuple ≠ [] := by
    rintro rfl
    rw [List.length_nil] at hlen
    omega
  rw [if_neg hsome] at hslotq
  obtain ⟨hchained, hcontents⟩ := hh.replace hp hlayoutq hheader hslotq
  refine ⟨_, ?_, hchained, hcontents⟩
  rw [TableHeap.updateTuple, hp]
  simp only [hq, bind, Except.bind]

theorem undo_spec {item : WriteRecord} (hh : Chained h ids)
    (hfits : Fits item (h.contents item.rid)) (txn : Transaction) :
    ∃ h', undo txn item h = .ok h' ∧ Chained h' ids ∧
      h'.contents = takeBack item h.contents := by
  obtain ⟨rid, wtype, tuple⟩ := item
  cases hc : h.contents rid with
  | none =>
      rw [hc] at hfits
      exact hfits.elim
  | some t =>
      rw [hc, Fits] at hfits
      cases wtype with
      | insert =>
          obtain ⟨h', hrun⟩ := applyDelete_ok hh hc
          obtain ⟨hchained, hcontents⟩ := applyDelete_spec hh hrun
          exact ⟨h', hrun, hchained, hcontents⟩
      | delete =>
          obtain ⟨h', hrun⟩ := rollbackDelete_ok hh hc
          obtain ⟨hchained, hcontents⟩ := rollbackDelete_spec hh hrun
          exact ⟨h', hrun, hchained, hcontents⟩
      | update =>
          obtain ⟨deleted, bytes⟩ := t
          obtain ⟨rfl, hlen⟩ := hfits
          obtain ⟨h', hrun, hchained, hcontents⟩ := updateTuple_ok hh hc hlen.symm txn
          refine ⟨h', ?_, hchained, hcontents⟩
          simp only [undo, hrun, bind, Except.bind]

theorem rollback_ready {items : List WriteRecord} (hh : Chained h ids)
    (hready : Ready items h.contents) (txn : Transaction) :
    ∃ h', rollback txn items h = .ok h' ∧ Chained h' ids ∧
      h'.contents = takeBackAll items h.contents := by
  induction items generalizing h with
  | nil => exact ⟨h, rfl, hh, rfl⟩
  | cons item rest ih =>
      obtain ⟨h₁, hrun, hchained, hcontents⟩ := undo_spec hh hready.1 txn
      obtain ⟨h', hrest, hchained', hcontents'⟩ := ih hchained (hcontents ▸ hready.2)
      refine ⟨h', ?_, hchained', ?_⟩
      · rw [rollback, hrun]
        exact hrest
      · rw [hcontents', hcontents]
        rfl

theorem applyDeletes_ready {items : List WriteRecord} (hh : Chained h ids)
    (hready : Ready items h.contents) :
    ∃ h', applyDeletes items h = .ok h' ∧ Chained h' ids ∧
      h'.contents = fun rid => if rid ∈ deleteRids items then none else h.contents rid := by
  obtain ⟨hnodup, hmarked⟩ := hready.deleteRids
  refine (applyDeletes_spec items h hh hnodup fun rid hrid => ?_).2
  obtain ⟨item, hitem, rfl⟩ := mem_deleteRids hrid
  obtain ⟨⟨deleted, bytes⟩, ht, hiff⟩ := hmarked item hitem
  obtain rfl : deleted = true := hiff.mpr hrid
  exact ⟨bytes, ht⟩

end TransactionManager

/-! ### The table and the ledger -/

namespace SharedTable

open TableHeap TransactionManager TxnOp

/-- What is stored of a tuple that is visible, or not there. -/
def stored (v : Option (List UInt8)) : Option StoredTuple := v.map fun bytes => ⟨false, bytes⟩

/-- What the ledger says has been committed. -/
def committed (L : TableLedger) (rid : RID) : Option (List UInt8) := (L.committed rid).join

/-- The records of each transaction are the writes that the ledger lists,
they lead back to what has been committed, and no two transactions have
written the same tuple. -/
structure Accords (s : SharedTable) (L : TableLedger) (ids : List PageId) : Prop where
  chained : Chained s.heap ids
  touched : ∀ t rid, L.written t rid ≠ none ↔ ∃ item ∈ (s.txns t).writeSet, item.rid = rid
  apart : ∀ t, ∀ item ∈ (s.txns t).writeSet, Untouched s t item.rid
  ready : ∀ t, Ready (s.txns t).writeSet s.heap.contents
  back : ∀ t, ∀ item ∈ (s.txns t).writeSet,
    takeBackAll (s.txns t).writeSet s.heap.contents item.rid = stored (committed L item.rid)
  shown : ∀ t rid v, L.written t rid = some v → s.heap.getTuple rid = v
  rest : ∀ rid, (∀ t, ∀ item ∈ (s.txns t).writeSet, item.rid ≠ rid) →
    s.heap.contents rid = stored (committed L rid)

variable {s : SharedTable} {L L' : TableLedger} {ids ids' : List PageId} {heap : TableHeap}
  {txn : Transaction} {t : Nat} {item : WriteRecord} {x : Option StoredTuple}

theorem getTuple_congr {h h' : TableHeap} {rid : RID} (hsame : h'.contents rid = h.contents rid) :
    h'.getTuple rid = h.getTuple rid := by
  rw [TableHeap.getTuple_eq, TableHeap.getTuple_eq, hsame]

/-- A transaction has written one tuple. -/
theorem Accords.write (hs : Accords s L ids) (item : WriteRecord) (txn : Transaction)
    (hchained : Chained heap ids')
    (hcontents : heap.contents = Function.update s.heap.contents item.rid x)
    (htxn : txn.writeSet = item :: (s.txns t).writeSet) (hfits : Fits item x)
    (hundone : undone item x = s.heap.contents item.rid) (huntouched : Untouched s t item.rid) :
    Accords ⟨heap, Function.update s.txns t txn⟩
      (L.write t item.rid (heap.getTuple item.rid)) ids' := by
  have hback : takeBack item heap.contents = s.heap.contents := by
    rw [takeBack, hcontents, Function.update_self, hundone, Function.update_idem,
      Function.update_eq_self]
  have hself : heap.contents item.rid = x := by
    rw [hcontents, Function.update_self]
  have hother {rid : RID} (hne : rid ≠ item.rid) : heap.contents rid = s.heap.contents rid := by
    rw [hcontents, Function.update_of_ne hne]
  have hset (t' : Nat) : (Function.update s.txns t txn t').writeSet =
      if t' = t then item :: (s.txns t).writeSet else (s.txns t').writeSet := by
    rw [Function.update_apply]
    split
    · exact htxn
    · rfl
  constructor
  case chained => exact hchained
  case touched =>
    intro t' rid
    have hold := hs.touched t' rid
    rw [Ledger.written_write, hset]
    by_cases ht : t' = t
    · subst ht
      by_cases hrid : rid = item.rid
      · rw [if_pos ⟨rfl, hrid⟩, if_pos rfl]
        exact ⟨fun _ => ⟨item, List.mem_cons_self, hrid.symm⟩, fun _ => Option.some_ne_none _⟩
      · rw [if_neg fun h => hrid h.2, if_pos rfl, hold]
        simp [Ne.symm hrid]
    · rw [if_neg fun h => ht h.1, if_neg ht]
      exact hold
  case apart =>
    intro t₁ item₁ h₁ t₂ hne item₂ h₂
    simp only [hset] at h₁ h₂
    split at h₁
    case isTrue ht₁ =>
      rw [if_neg fun ht₂ => hne (ht₂.trans ht₁.symm)] at h₂
      rcases List.mem_cons.mp h₁ with rfl | h₁
      · exact huntouched t₂ (ht₁ ▸ hne) item₂ h₂
      · exact hs.apart t item₁ h₁ t₂ (ht₁ ▸ hne) item₂ h₂
    case isFalse ht₁ =>
      split at h₂
      case isTrue ht₂ =>
        rcases List.mem_cons.mp h₂ with rfl | h₂
        · exact (huntouched t₁ ht₁ item₁ h₁).symm
        · exact (hs.apart t item₂ h₂ t₁ ht₁ item₁ h₁).symm
      case isFalse => exact hs.apart t₁ item₁ h₁ t₂ hne item₂ h₂
  case ready =>
    intro t'
    simp only [hset]
    split
    case isTrue => exact ⟨hself ▸ hfits, hback ▸ hs.ready t⟩
    case isFalse ht =>
      exact (hs.ready t').congr fun it hit => (hother (huntouched t' ht it hit)).symm
  case back =>
    intro t' it hit
    simp only [hset] at hit ⊢
    split
    case isTrue ht =>
      rw [if_pos ht] at hit
      show takeBackAll (s.txns t).writeSet (takeBack item heap.contents) it.rid = _
      rw [hback]
      by_cases hold : ∃ it' ∈ (s.txns t).writeSet, it'.rid = it.rid
      · obtain ⟨it', hit', heq⟩ := hold
        rw [← heq]
        exact hs.back t it' hit'
      · have hnew : it = item := (List.mem_cons.mp hit).resolve_right fun h => hold ⟨it, h, rfl⟩
        rw [takeBackAll_of_not_mem fun it' hit' heq => hold ⟨it', hit', heq⟩]
        refine hs.rest it.rid fun t₁ it₁ hit₁ => ?_
        by_cases ht₁ : t₁ = t
        · subst ht₁
          exact fun heq => hold ⟨it₁, hit₁, heq⟩
        · rw [hnew]
          exact huntouched t₁ ht₁ it₁ hit₁
    case isFalse ht =>
      rw [if_neg ht] at hit
      rw [takeBackAll_congr (hother (huntouched t' ht it hit))]
      exact hs.back t' it hit
  case shown =>
    intro t' rid v hv
    rw [Ledger.written_write] at hv
    split at hv
    case isTrue h =>
      rw [h.2]
      exact Option.some.inj hv
    case isFalse h =>
      have hne : rid ≠ item.rid := by
        rintro rfl
        obtain ⟨it, hit, heq⟩ :=
          (hs.touched t' item.rid).mp (by rw [hv]; exact Option.some_ne_none v)
        exact huntouched t' (fun ht => h ⟨ht, rfl⟩) it hit heq
      rw [getTuple_congr (hother hne)]
      exact hs.shown t' rid v hv
  case rest =>
    intro rid hfree
    simp only [hset] at hfree
    have hne : rid ≠ item.rid := by
      refine (hfree t item ?_).symm
      rw [if_pos rfl]
      exact List.mem_cons_self
    show heap.contents rid = _
    rw [hother hne]
    refine hs.rest rid fun t' it hit => hfree t' it ?_
    split
    case isTrue ht => exact List.mem_cons_of_mem _ (ht ▸ hit)
    case isFalse => exact hit

/-- A transaction has ended. -/
theorem Accords.finish (hs : Accords s L ids) (hchained : Chained heap ids')
    (htxn : txn.writeSet = [])
    (hwritten : ∀ t' rid, L'.written t' rid = if t' = t then none else L.written t' rid)
    (hown : ∀ item ∈ (s.txns t).writeSet, heap.contents item.rid = stored (committed L' item.rid))
    (hother : ∀ rid, (∀ item ∈ (s.txns t).writeSet, item.rid ≠ rid) →
      heap.contents rid = s.heap.contents rid ∧ committed L' rid = committed L rid) :
    Accords ⟨heap, Function.update s.txns t txn⟩ L' ids' := by
  have hset (t' : Nat) : (Function.update s.txns t txn t').writeSet =
      if t' = t then [] else (s.txns t').writeSet := by
    rw [Function.update_apply]
    split
    · exact htxn
    · rfl
  have hmem {t' : Nat} {it : WriteRecord} (hit : it ∈ (Function.update s.txns t txn t').writeSet) :
      t' ≠ t ∧ it ∈ (s.txns t').writeSet := by
    rw [hset] at hit
    split at hit
    · cases hit
    case isFalse ht => exact ⟨ht, hit⟩
  -- What another transaction has written is as it was.
  have hsame {t' : Nat} (ht : t' ≠ t) {it : WriteRecord} (hit : it ∈ (s.txns t').writeSet) :
      heap.contents it.rid = s.heap.contents it.rid ∧
        committed L' it.rid = committed L it.rid :=
    hother it.rid fun it' hit' => hs.apart t' it hit t ht.symm it' hit'
  constructor
  case chained => exact hchained
  case touched =>
    intro t' rid
    rw [hwritten, hset]
    split
    · simp
    · exact hs.touched t' rid
  case apart =>
    intro t₁ item₁ h₁ t₂ hne item₂ h₂
    exact hs.apart t₁ item₁ (hmem h₁).2 t₂ hne item₂ (hmem h₂).2
  case ready =>
    intro t'
    simp only [hset]
    split
    · trivial
    case isFalse ht => exact (hs.ready t').congr fun it hit => (hsame ht hit).1.symm
  case back =>
    intro t' it hit
    obtain ⟨ht, hit⟩ := hmem hit
    simp only [hset, if_neg ht]
    obtain ⟨hcontents, hcommitted⟩ := hsame ht hit
    rw [takeBackAll_congr hcontents, hcommitted]
    exact hs.back t' it hit
  case shown =>
    intro t' rid v hv
    rw [hwritten] at hv
    split at hv
    · cases hv
    case isFalse ht =>
      obtain ⟨it, hit, rfl⟩ :=
        (hs.touched t' rid).mp (by rw [hv]; exact Option.some_ne_none v)
      rw [getTuple_congr (hsame ht hit).1]
      exact hs.shown t' it.rid v hv
  case rest =>
    intro rid hfree
    simp only [hset] at hfree
    by_cases hold : ∃ it ∈ (s.txns t).writeSet, it.rid = rid
    · obtain ⟨it, hit, rfl⟩ := hold
      exact hown it hit
    · obtain ⟨hcontents, hcommitted⟩ := hother rid fun it hit heq => hold ⟨it, hit, heq⟩
      show heap.contents rid = _
      rw [hcontents, hcommitted]
      refine hs.rest rid fun t' it hit => ?_
      by_cases ht : t' = t
      · subst ht
        exact fun heq => hold ⟨it, hit, heq⟩
      · refine hfree t' it ?_
        rw [if_neg ht]
        exact hit

theorem Accords.same (hs : Accords s L ids) (htxn : txn.writeSet = (s.txns t).writeSet) :
    Accords ⟨s.heap, Function.update s.txns t txn⟩ L ids := by
  have hset (t' : Nat) : (Function.update s.txns t txn t').writeSet = (s.txns t').writeSet := by
    rw [Function.update_apply]
    split
    case isTrue ht => rw [htxn, ht]
    case isFalse => rfl
  constructor
  case chained => exact hs.chained
  case touched => simpa only [hset] using hs.touched
  case apart => simpa only [Untouched, hset] using hs.apart
  case ready => simpa only [hset] using hs.ready
  case back => simpa only [hset] using hs.back
  case shown => exact hs.shown
  case rest => simpa only [hset] using hs.rest

/-! ### One operation -/

theorem insertTuple_accords {tuple : List UInt8} {r : Option RID} {s' : SharedTable}
    (hs : Accords s L ids) (hrun : (call t (.insertTuple tuple)).run s = .ok (r, s')) :
    ∃ ids', Accords s' ((call t (.insertTuple tuple)).note r L) ids' := by
  simp only [TxnOp.run, TxnCall.run] at hrun
  cases hins : s.heap.insertTuple tuple (s.txns t) with
  | error e =>
      rw [hins] at hrun
      cases hrun
  | ok y =>
      rw [hins] at hrun
      cases hrun
      rcases insertTuple_ok hs.chained hins with ⟨-, rfl⟩ | ⟨rid, h', ids', hne, rfl, hdone⟩
      · exact ⟨ids, hs.same rfl⟩
      · obtain ⟨hchained, hfree, hcontents⟩ := hdone.spec hs.chained hne
        have hvalue : h'.getTuple rid = some tuple := by
          rw [getTuple_eq_some_iff, hcontents, Function.update_self]
        have hwrite := hs.write ⟨rid, .insert, []⟩
          ((s.txns t).emplaceBack rid .insert []) hchained hcontents rfl rfl hfree.symm
          fun t' _ item hitem heq => by
            obtain ⟨x, hx⟩ := (hs.ready t').exists_stored hitem
            rw [heq, hfree] at hx
            cases hx
        rw [hvalue] at hwrite
        exact ⟨ids', hwrite⟩

theorem updateTuple_accords {tuple : List UInt8} {rid : RID} (hs : Accords s L ids)
    (hop : (call t (.updateTuple tuple rid)).Allowed s) :
    ∃ s', (call t (.updateTuple tuple rid)).run s = .ok (some rid, s') ∧
      Accords s' ((call t (.updateTuple tuple rid)).note (some rid) L) ids := by
  obtain ⟨hstate, huntouched, old, hold, hlen⟩ := hop
  have hstored := getTuple_eq_some_iff.mp hold
  obtain ⟨h', hrun, hchained, hcontents⟩ := updateTuple_ok hs.chained hstored hlen (s.txns t)
  rw [if_pos hstate] at hrun
  refine ⟨⟨h', Function.update s.txns t ((s.txns t).emplaceBack rid .update old)⟩, ?_, ?_⟩
  · simp only [TxnOp.run, TxnCall.run, hrun]
    rfl
  · have hvalue : h'.getTuple rid = some tuple := by
      rw [getTuple_eq_some_iff, hcontents, Function.update_self]
    have hwrite := hs.write ⟨rid, .update, old⟩
      ((s.txns t).emplaceBack rid .update old) hchained hcontents rfl ⟨rfl, hlen⟩
      hstored.symm huntouched
    rw [hvalue] at hwrite
    exact hwrite

theorem markDelete_accords {rid : RID} (hs : Accords s L ids)
    (hop : (call t (.markDelete rid)).Allowed s) :
    ∃ s', (call t (.markDelete rid)).run s = .ok (some rid, s') ∧
      Accords s' ((call t (.markDelete rid)).note (some rid) L) ids := by
  obtain ⟨huntouched, old, hold⟩ := hop
  have hstored := getTuple_eq_some_iff.mp hold
  obtain ⟨p, hp, -⟩ := exists_page_of_contents hstored
  obtain ⟨hrun, hchained, hcontents⟩ := TableHeap.markDelete_spec hs.chained hp (s.txns t)
  rw [hstored] at hcontents
  refine ⟨⟨s.heap.setPage rid.pageId (p.markDelete rid.slotNum).2,
    Function.update s.txns t ((s.txns t).emplaceBack rid .delete [])⟩, ?_, ?_⟩
  · simp only [TxnOp.run, TxnCall.run, hrun]
    rfl
  · have hvalue : (s.heap.setPage rid.pageId (p.markDelete rid.slotNum).2).getTuple rid = none := by
      rw [TableHeap.getTuple_eq, hcontents, Function.update_self]
      rfl
    have hwrite := hs.write ⟨rid, .delete, []⟩
      ((s.txns t).emplaceBack rid .delete []) hchained hcontents rfl rfl hstored.symm
      huntouched
    rw [hvalue] at hwrite
    exact hwrite

theorem commit_accords (hs : Accords s L ids) (t : Nat) :
    ∃ s', (TxnOp.commit t).run s = .ok (none, s') ∧ Accords s' (L.commit t) ids := by
  obtain ⟨h', hrun, hchained, hcontents⟩ := applyDeletes_ready hs.chained (hs.ready t)
  have hat (rid : RID) : h'.contents rid =
      if rid ∈ deleteRids (s.txns t).writeSet then none else s.heap.contents rid := by
    rw [hcontents]
  refine ⟨⟨h', Function.update s.txns t ⟨.committed, []⟩⟩, ?_, ?_⟩
  · simp only [TxnOp.run, TransactionManager.commit, hrun]
    rfl
  · refine hs.finish hchained rfl (fun t' rid => L.written_commit t t' rid) (fun item hitem => ?_)
      fun rid hfree => ⟨?_, ?_⟩
    · obtain ⟨v, hv⟩ := Option.ne_none_iff_exists'.mp
        ((hs.touched t item.rid).mpr ⟨item, hitem, rfl⟩)
      obtain ⟨⟨deleted, bytes⟩, ht, hiff⟩ := (hs.ready t).deleteRids.2 item hitem
      have hshown := hs.shown t item.rid v hv
      rw [TableHeap.getTuple_eq, ht] at hshown
      rw [hat, committed, Ledger.committed_commit, hv]
      cases deleted with
      | true =>
          rw [if_pos (hiff.mp rfl), ← hshown]
          rfl
      | false =>
          rw [if_neg fun hmem => Bool.false_ne_true (hiff.mpr hmem), ht, ← hshown]
          rfl
    · rw [hat, if_neg]
      intro hmem
      obtain ⟨item, hitem, heq⟩ := mem_deleteRids hmem
      exact hfree item hitem heq
    · have hnone : L.written t rid = none := by
        by_contra hsome
        obtain ⟨item, hitem, heq⟩ := (hs.touched t rid).mp hsome
        exact hfree item hitem heq
      rw [committed, Ledger.committed_commit, hnone]
      rfl

theorem abort_accords (hs : Accords s L ids) (t : Nat) :
    ∃ s', (TxnOp.abort t).run s = .ok (none, s') ∧ Accords s' (L.abort t) ids := by
  obtain ⟨h', hrun, hchained, hcontents⟩ :=
    rollback_ready hs.chained (hs.ready t) ((s.txns t).setState .aborted)
  refine ⟨⟨h', Function.update s.txns t ⟨.aborted, []⟩⟩, ?_, ?_⟩
  · simp only [TxnOp.run, TransactionManager.abort, hrun]
    rfl
  · refine hs.finish hchained rfl (fun t' rid => L.written_abort t t' rid) (fun item hitem => ?_)
      fun rid hfree => ⟨?_, rfl⟩
    · rw [hcontents]
      exact hs.back t item hitem
    · rw [hcontents, takeBackAll_of_not_mem hfree]

theorem accords_run {op : TxnOp} {r : Option RID} {s' : SharedTable} (hs : Accords s L ids)
    (hop : op.Allowed s) (hrun : op.run s = .ok (r, s')) :
    ∃ ids', Accords s' (op.note r L) ids' := by
  have hsame {r' : Option RID} {s'' : SharedTable} (h : op.run s = .ok (r', s'') ∧
      Accords s'' (op.note r' L) ids) : ∃ ids', Accords s' (op.note r L) ids' := by
    obtain ⟨hrun', hs'⟩ := h
    rw [hrun] at hrun'
    cases hrun'
    exact ⟨ids, hs'⟩
  cases op with
  | call t c =>
      cases c with
      | insertTuple tuple => exact insertTuple_accords hs hrun
      | updateTuple tuple rid =>
          obtain ⟨s'', h⟩ := updateTuple_accords hs hop
          exact hsame h
      | markDelete rid =>
          obtain ⟨s'', h⟩ := markDelete_accords hs hop
          exact hsame h
  | commit t =>
      obtain ⟨s'', h⟩ := commit_accords hs t
      exact hsame h
  | abort t =>
      obtain ⟨s'', h⟩ := abort_accords hs t
      exact hsame h

/-- A new table, before the first transaction. -/
def New (n : PageId) (w : SharedTable × TableLedger) : Prop :=
  create n = .ok w.1.heap ∧ w.1.txns = (fun _ => TransactionManager.start) ∧ w.2 = .empty

theorem accords_new {n : PageId} (hn : 0 ≤ n) {w : SharedTable × TableLedger} (hw : New n w) :
    Accords w.1 w.2 [n] := by
  obtain ⟨⟨h, txns⟩, L⟩ := w
  obtain ⟨hcreate, htxns, hempty⟩ := hw
  obtain ⟨hchained, hcontents⟩ := create_spec hn hcreate
  cases htxns
  cases hempty
  constructor
  case chained => exact hchained
  case touched => exact fun t rid => ⟨fun h => absurd rfl h, fun ⟨_, hitem, _⟩ => by cases hitem⟩
  case apart => exact fun _ _ hitem => absurd hitem List.not_mem_nil
  case ready => exact fun _ => trivial
  case back => exact fun _ _ hitem => absurd hitem List.not_mem_nil
  case shown => exact fun _ _ v hv => by cases hv
  case rest =>
    intro rid _
    rw [hcontents]
    rfl

/-- In every run in which no transaction touches a tuple that another open
one has written, and updates keep the size: a tuple that an open
transaction has written reads as that transaction has last written it,
every other one as the last transaction that wrote it and has committed
has left it, and a transaction that was aborted has left no trace.
Updates, deletions, commits and aborts do not fail. -/
theorem transactions_atomic {n : PageId} (hn : 0 ≤ n) {s : SharedTable} {L : TableLedger}
    (hs : Reachable (New n) (fun op w => op.Allowed w.1) (recorded TxnOp.run note) (s, L)) :
    (∀ t rid v, L.written t rid = some v → s.heap.getTuple rid = v) ∧
      (∀ rid, (∀ t, L.written t rid = none) →
        s.heap.getTuple rid = (L.committed rid).join) ∧
      (∀ t tuple rid, (call t (.updateTuple tuple rid)).Allowed s →
        ∃ s', (call t (.updateTuple tuple rid)).run s = .ok (some rid, s')) ∧
      (∀ t rid, (call t (.markDelete rid)).Allowed s →
        ∃ s', (call t (.markDelete rid)).run s = .ok (some rid, s')) ∧
      ∀ t, (∃ s', (TxnOp.commit t).run s = .ok (none, s')) ∧
        ∃ s', (TxnOp.abort t).run s = .ok (none, s') := by
  suffices hall : ∃ ids, Accords s L ids by
    obtain ⟨ids, h⟩ := hall
    refine ⟨h.shown, fun rid hfree => ?_, fun t tuple rid hop => ?_, fun t rid hop => ?_,
      fun t => ⟨?_, ?_⟩⟩
    · rw [TableHeap.getTuple_eq, h.rest rid fun t item hitem heq =>
        (h.touched t rid).mpr ⟨item, hitem, heq⟩ (hfree t)]
      rw [committed]
      cases (L.committed rid).join <;> rfl
    · obtain ⟨s', hrun, -⟩ := updateTuple_accords h hop
      exact ⟨s', hrun⟩
    · obtain ⟨s', hrun, -⟩ := markDelete_accords h hop
      exact ⟨s', hrun⟩
    · obtain ⟨s', hrun, -⟩ := commit_accords h t
      exact ⟨s', hrun⟩
    · obtain ⟨s', hrun, -⟩ := abort_accords h t
      exact ⟨s', hrun⟩
  refine Reachable.invariant_of_ok (I := fun w => ∃ ids, Accords w.1 w.2 ids)
    (fun w hw => ⟨[n], accords_new hn hw⟩) ?_ hs
  rintro op w r w' ⟨ids, h⟩ hop hrun
  obtain ⟨hstep, hnote⟩ := recorded_ok hrun
  rw [hnote]
  exact accords_run h hop hstep

/-! ### Three transactions -/

/-- The transaction an operation is part of. -/
def txnOf : TxnOp → Nat
  | .call t _ | .commit t | .abort t => t

theorem txns_run {op : TxnOp} {s s' : SharedTable} {r : Option RID}
    (hrun : op.run s = .ok (r, s')) {t : Nat} (ht : t ≠ txnOf op) : s'.txns t = s.txns t := by
  cases op with
  | call t₁ c =>
      obtain ⟨⟨r₁, h, txn⟩, -, hrest⟩ := except_bind_ok hrun
      cases hrest
      exact Function.update_of_ne ht _ _
  | commit t₁ | abort t₁ =>
      obtain ⟨⟨h, txn⟩, -, hrest⟩ := except_bind_ok hrun
      cases hrest
      exact Function.update_of_ne ht _ _

/-- Transactions that have made no operation have written nothing. -/
theorem writeSet_of_le {n : PageId} {k : Nat} {w : SharedTable × TableLedger}
    (hw : Reachable (New n) (fun op w => op.Allowed w.1 ∧ txnOf op < k)
      (recorded TxnOp.run note) w) {t : Nat} (ht : k ≤ t) : (w.1.txns t).writeSet = [] := by
  apply hw.invariant_of_ok (I := fun w => (w.1.txns t).writeSet = [])
  · rintro ⟨⟨h, txns⟩, L⟩ ⟨-, htxns, -⟩
    cases htxns
    rfl
  · rintro op w r w' hI ⟨-, hlt⟩ hrun
    rw [txns_run (recorded_ok hrun).1 (by omega)]
    exact hI

/-- What is asked of the first three transactions, evaluated. -/
def allowedOfThree : TxnOp → SharedTable → Bool
  | .call t (.updateTuple tuple rid), s => (s.txns t).state ≠ .aborted ∧
      (∀ t' ∈ List.range 3, t' ≠ t → ∀ item ∈ (s.txns t').writeSet, item.rid ≠ rid) ∧
      (s.heap.getTuple rid).map List.length = some tuple.length
  | .call t (.markDelete rid), s =>
      (∀ t' ∈ List.range 3, t' ≠ t → ∀ item ∈ (s.txns t').writeSet, item.rid ≠ rid) ∧
      (s.heap.getTuple rid).isSome
  | .call _ (.insertTuple _), _ | .commit _, _ | .abort _, _ => true

theorem allowed_of_three {op : TxnOp} {s : SharedTable}
    (hrest : ∀ t, 3 ≤ t → (s.txns t).writeSet = []) (heval : allowedOfThree op s = true) :
    op.Allowed s := by
  have huntouched {t : Nat} {rid : RID}
      (h : ∀ t' ∈ List.range 3, t' ≠ t → ∀ item ∈ (s.txns t').writeSet, item.rid ≠ rid) :
      Untouched s t rid := by
    intro t' ht' item hitem
    by_cases hlt : t' < 3
    · exact h t' (List.mem_range.mpr hlt) ht' item hitem
    · rw [hrest t' (by omega)] at hitem
      cases hitem
  cases op with
  | commit | abort => trivial
  | call t c =>
      cases c with
      | insertTuple => trivial
      | updateTuple tuple rid =>
          obtain ⟨hstate, hothers, hlength⟩ := of_decide_eq_true heval
          obtain ⟨old, hold, heq⟩ := Option.map_eq_some_iff.mp hlength
          exact ⟨hstate, huntouched hothers, old, hold, heq.symm⟩
      | markDelete rid =>
          obtain ⟨hothers, hlive⟩ := of_decide_eq_true heval
          exact ⟨huntouched hothers, Option.isSome_iff_exists.mp hlive⟩

/-- Of three committed tuples, one is updated by a transaction that is
aborted and then by one that is open, one is deleted, and the third one,
on the second page, is deleted by a transaction that is open. -/
theorem transactions_atomic_three : ∃ (s : SharedTable) (L : TableLedger),
    L.committed ⟨1, 0⟩ = some (some [1, 2, 3]) ∧ L.written 0 ⟨1, 0⟩ = some (some [9, 9, 9]) ∧
      L.committed ⟨1, 1⟩ = some none ∧ L.written 0 ⟨2, 0⟩ = some none ∧
      (∀ t rid v, L.written t rid = some v → s.heap.getTuple rid = v) ∧
      (∀ rid, (∀ t, L.written t rid = none) →
        s.heap.getTuple rid = (L.committed rid).join) ∧
      (∀ t tuple rid, (call t (.updateTuple tuple rid)).Allowed s →
        ∃ s', (call t (.updateTuple tuple rid)).run s = .ok (some rid, s')) ∧
      (∀ t rid, (call t (.markDelete rid)).Allowed s →
        ∃ s', (call t (.markDelete rid)).run s = .ok (some rid, s')) ∧
      ∀ t, (∃ s', (TxnOp.commit t).run s = .ok (none, s')) ∧
        ∃ s', (TxnOp.abort t).run s = .ok (none, s') := by
  obtain ⟨h, hcreate, heval⟩ := exists_ok_of_any (x := create 1) (f := fun h =>
    (checkedRun (fun op w => decide (txnOf op < 3) && allowedOfThree op w.1)
      (recorded TxnOp.run note)
      [.call 0 (.insertTuple [1, 2, 3]), .call 0 (.insertTuple [4]),
        .call 0 (.insertTuple (List.replicate 470 5)), .commit 0,
        .call 1 (.updateTuple [6, 6, 6] ⟨1, 0⟩), .call 2 (.markDelete ⟨1, 1⟩),
        .call 1 (.insertTuple [7]), .abort 1, .call 0 (.updateTuple [9, 9, 9] ⟨1, 0⟩), .commit 2,
        .call 0 (.markDelete ⟨2, 0⟩)]
      (⟨h, fun _ => TransactionManager.start⟩, Ledger.empty)).any fun w =>
        w.2.committed ⟨1, 0⟩ = some (some [1, 2, 3]) ∧
          w.2.written 0 ⟨1, 0⟩ = some (some [9, 9, 9]) ∧
          w.2.committed ⟨1, 1⟩ = some none ∧ w.2.written 0 ⟨2, 0⟩ = some none)
    (by decide +kernel)
  have hnew : New 1 (⟨h, fun _ => TransactionManager.start⟩, .empty) := ⟨hcreate, rfl, rfl⟩
  obtain ⟨⟨s, L⟩, hreached, hf⟩ := exists_reachable_of_check
    (.start hnew : Reachable (New 1) (fun op w => op.Allowed w.1 ∧ txnOf op < 3) _ _) _
    (fun op w hw hop => by
      obtain ⟨hlt, hallowed⟩ := Bool.and_eq_true_iff.mp hop
      exact ⟨allowed_of_three (fun t => writeSet_of_le hw) hallowed, of_decide_eq_true hlt⟩) _ heval
  obtain ⟨hcommitted, hwritten, hremoved, hdeleted⟩ := of_decide_eq_true hf
  exact ⟨s, L, hcommitted, hwritten, hremoved, hdeleted,
    transactions_atomic (by decide) (hreached.mono fun _ _ h => h.1)⟩

end SharedTable

end ScuDb
