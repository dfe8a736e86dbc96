import ScuDb.Table.HeapChain

/-!
What the operations of a table do to the tuples stored in it.

Each of them changes the tuple of one `RID`, whatever page it is on. For
`UpdateTuple` this is so as long as it moves no tuple that is marked as
deleted.
-/

namespace ScuDb

open Foundations

namespace TableHeap

open TablePage

variable {h h' : TableHeap} {ids ids' : List PageId} {rid : RID} {p q : TablePage}
  {tuple : List UInt8} {txn : Transaction}

theorem Chained.exists_page (hh : Chained h ids) (hid : rid.pageId ∈ ids) :
    ∃ p, h.pages rid.pageId = some p := by
  obtain ⟨p, next, hp, -⟩ := hh.chain.mem hid
  exact ⟨p, hp⟩

theorem Chained.layout {id : PageId} (hh : Chained h ids) (hp : h.pages id = some p) :
    Layout p := by
  obtain ⟨p', next, hp', hpage⟩ := hh.chain.mem (hh.only id p hp)
  rw [hp] at hp'
  cases hp'
  exact hpage.layout

theorem exists_page_of_contents {t : StoredTuple} (ht : h.contents rid = some t) :
    ∃ p, h.pages rid.pageId = some p ∧ p.slotAt rid.slotNum = some t :=
  Option.bind_eq_some_iff.mp ht

theorem getTuple_eq (h : TableHeap) (rid : RID) :
    h.getTuple rid = (h.contents rid).bind fun t => if t.deleted then none else some t.bytes := by
  rw [TableHeap.getTuple, contents]
  cases h.pages rid.pageId with
  | none => rfl
  | some p => exact TablePage.getTuple_eq p rid.slotNum

theorem getTuple_eq_some_iff {bytes : List UInt8} :
    h.getTuple rid = some bytes ↔ h.contents rid = some ⟨false, bytes⟩ := by
  rw [getTuple_eq, Option.bind_eq_some_iff]
  constructor
  · rintro ⟨⟨deleted, stored⟩, ht, hif⟩
    cases deleted with
    | true => cases hif
    | false =>
        cases hif
        exact ht
  · intro ht
    exact ⟨_, ht, rfl⟩

/-! ### InsertTuple -/

theorem slotAt_init (p : TablePage) (id prev : PageId) (i : Nat) :
    (p.init id pageSize prev).slotAt i = none := by
  apply slotAt_eq_none_iff.mpr
  rintro ⟨hlt, -⟩
  rw [getTupleCount_init] at hlt
  omega

/-- No tuple is added by making the chain longer. -/
theorem Grown.contents (hg : Grown h ids h' ids') (hh : Chained h ids) :
    h'.contents = h.contents := by
  funext rid
  cases hp : h.pages rid.pageId with
  | some p =>
      obtain ⟨p', hp', hbut⟩ := hg.old _ p hp
      rw [contents_of_pages hp, contents_of_pages hp', (hbut.sameTuples (hh.layout hp)).slotAt]
  | none =>
      rw [TableHeap.contents, TableHeap.contents, hp]
      cases hp' : h'.pages rid.pageId with
      | none => rfl
      | some p' =>
          obtain ⟨p, prev, rfl⟩ := hg.new _ p' hp hp'
          exact slotAt_init _ _ _ _

/-- The tuple is stored under a `RID` at which there was none. -/
theorem Inserted.spec (hins : Inserted h ids tuple rid h' ids') (hh : Chained h ids)
    (hne : tuple ≠ []) :
    Chained h' ids' ∧ h.contents rid = none ∧
      h'.contents = Function.update h.contents rid (some ⟨false, tuple⟩) := by
  obtain ⟨h₁, p, q, hgrown, hid, hp, hrun, rfl⟩ := hins
  have hlayout := hgrown.chained.layout hp
  rcases insertTuple_spec hlayout hne with ⟨hrefuse, -⟩ | ⟨i, q', hrun', hq, hfree, -, -, hheader,
    hslot⟩
  · rw [hrefuse] at hrun
    cases hrun
  · rw [hrun] at hrun'
    cases hrun'
    rw [← hgrown.contents hh]
    exact ⟨hgrown.chained.setPage hp hq hheader, (contents_of_pages hp).trans hfree,
      contents_setPage hp hslot⟩

/-- A tuple without bytes fails the assertion of the first page. -/
theorem insertTuple_nil (hh : Chained h ids) (txn : Transaction) :
    h.insertTuple [] txn = .error .assertFailed := by
  have hmem : h.firstPageId ∈ ids := List.mem_of_mem_head? hh.first
  obtain ⟨p, next, hp, -⟩ := hh.chain.mem hmem
  have hassert : p.insertTuple [] = .error .assertFailed := rfl
  rw [TableHeap.insertTuple, if_neg (by decide), hp]
  simp only [insertLoop, fetchPage_eq hp, hassert, bind, Except.bind]

/-- What `InsertTuple` has done when it ends. -/
theorem insertTuple_ok {r : Option RID × TableHeap × Transaction} (hh : Chained h ids)
    (hrun : h.insertTuple tuple txn = .ok r) :
    480 < tuple.length ∧ r = (none, h, txn.setState .aborted) ∨
      ∃ rid h' ids', tuple ≠ [] ∧ r = (some rid, h', txn.emplaceBack rid .insert []) ∧
        Inserted h ids tuple rid h' ids' := by
  by_cases hne : tuple = []
  · rw [hne, insertTuple_nil hh txn] at hrun
    cases hrun
  · rcases insertTuple_cases hh hne txn with ⟨hsize, href⟩ | herr | ⟨rid, h', ids', hins, hdone⟩
    · left
      rw [href] at hrun
      exact ⟨hsize, (Except.ok.inj hrun).symm⟩
    · rw [herr] at hrun
      cases hrun
    · right
      rw [hins] at hrun
      exact ⟨rid, h', ids', hne, (Except.ok.inj hrun).symm, hdone⟩

/-! ### Operations on one page -/

/-- Other bytes for a page, with the tuple of one slot changed. -/
theorem Chained.replace {v : Option StoredTuple} (hh : Chained h ids)
    (hp : h.pages rid.pageId = some p) (hq : Layout q) (hheader : ∀ x < 16, q x = p x)
    (hslot : q.slotAt = Function.update p.slotAt rid.slotNum v) :
    Chained (h.setPage rid.pageId q) ids ∧
      (h.setPage rid.pageId q).contents = Function.update h.contents rid v :=
  ⟨hh.setPage hp hq hheader, contents_setPage hp hslot⟩

theorem setPage_self {id : PageId} (hp : h.pages id = some p) : h.setPage id p = h := by
  rw [setPage, ← hp, Function.update_eq_self]

theorem markDelete_spec (hh : Chained h ids) (hp : h.pages rid.pageId = some p)
    (txn : Transaction) :
    h.markDelete rid txn = (true, h.setPage rid.pageId (p.markDelete rid.slotNum).2,
        txn.emplaceBack rid .delete []) ∧
      Chained (h.setPage rid.pageId (p.markDelete rid.slotNum).2) ids ∧
      (h.setPage rid.pageId (p.markDelete rid.slotNum).2).contents =
        Function.update h.contents rid
          ((h.contents rid).map fun t => { t with deleted := true }) := by
  obtain ⟨hq, -, hheader, hslot⟩ := TablePage.markDelete_spec (hh.layout hp) (s := rid.slotNum)
  rw [← contents_of_pages hp] at hslot
  refine ⟨?_, hh.replace hp hq hheader hslot⟩
  rw [TableHeap.markDelete, hp]

/-- `RollbackDelete` takes the mark away, if it does not fail. -/
theorem rollbackDelete_spec (hh : Chained h ids) (hrun : h.rollbackDelete rid = .ok h') :
    Chained h' ids ∧ h'.contents = Function.update h.contents rid
      ((h.contents rid).map fun t => { t with deleted := false }) := by
  rw [TableHeap.rollbackDelete] at hrun
  cases hp : h.pages rid.pageId with
  | none =>
      rw [hp] at hrun
      cases hrun
  | some p =>
      rw [hp] at hrun
      simp only [bind, Except.bind] at hrun
      cases hq : p.rollbackDelete rid.slotNum with
      | error e =>
          rw [hq] at hrun
          cases hrun
      | ok q =>
          rw [hq] at hrun
          cases hrun
          by_cases hocc : p.Occupied rid.slotNum
          · obtain ⟨q', hq', hlayout, -, hheader, hslot⟩ :=
              TablePage.rollbackDelete_spec (hh.layout hp) hocc
            rw [hq] at hq'
            cases hq'
            rw [← contents_of_pages hp] at hslot
            exact hh.replace hp hlayout hheader hslot
          · rw [rollbackDelete_free hocc hq, setPage_self hp, contents_of_pages hp,
              slotAt_eq_none_iff.mpr hocc, Option.map_none, ← slotAt_eq_none_iff.mpr hocc,
              ← contents_of_pages hp, Function.update_eq_self]
            exact ⟨hh, rfl⟩

/-- `ApplyDelete` removes the tuple, if it does not fail. -/
theorem applyDelete_spec (hh : Chained h ids) (hrun : h.applyDelete rid = .ok h') :
    Chained h' ids ∧ h'.contents = Function.update h.contents rid none := by
  rw [TableHeap.applyDelete] at hrun
  cases hp : h.pages rid.pageId with
  | none =>
      rw [hp] at hrun
      cases hrun
  | some p =>
      rw [hp] at hrun
      simp only [bind, Except.bind] at hrun
      cases hq : p.applyDelete rid.slotNum with
      | error e =>
          rw [hq] at hrun
          cases hrun
      | ok q =>
          rw [hq] at hrun
          cases hrun
          by_cases hocc : p.Occupied rid.slotNum
          · obtain ⟨t, ht⟩ := exists_slotAt hocc
            obtain ⟨q', hq', hlayout, -, hheader, hslot⟩ :=
              TablePage.applyDelete_spec (hh.layout hp) ht
            rw [hq] at hq'
            cases hq'
            exact hh.replace hp hlayout hheader hslot
          · obtain ⟨hlayout, hsame, -, hheader⟩ := applyDelete_free (hh.layout hp) hocc hq
            apply hh.replace hp hlayout hheader
            rw [hsame.slotAt, ← slotAt_eq_none_iff.mpr hocc, Function.update_eq_self]

theorem applyDelete_ok {t : StoredTuple} (hh : Chained h ids) (ht : h.contents rid = some t) :
    ∃ h', h.applyDelete rid = .ok h' := by
  obtain ⟨p, hp, hslot⟩ := exists_page_of_contents ht
  obtain ⟨q, hq, -⟩ := TablePage.applyDelete_spec (hh.layout hp) hslot
  refine ⟨h.setPage rid.pageId q, ?_⟩
  rw [TableHeap.applyDelete, hp]
  simp only [hq, bind, Except.bind]

/-- An update is not made above a tuple that is marked as deleted, unless
the size stays the same. -/
def KeepsOffsets (h : TableHeap) (tuple : List UInt8) (rid : RID) : Prop :=
  ∀ p, h.pages rid.pageId = some p → (TablePageOp.updateTuple tuple rid.slotNum).KeepsOffsets p

instance (h : TableHeap) (tuple : List UInt8) (rid : RID) : Decidable (h.KeepsOffsets tuple rid) :=
  inferInstanceAs (Decidable (∀ p ∈ h.pages rid.pageId, _))

/-- The update of the tuple `old` on page `p` has been made. -/
structure Updated (h : TableHeap) (tuple : List UInt8) (rid : RID) (p : TablePage)
    (old : List UInt8) (q : TablePage) : Prop where
  page : h.pages rid.pageId = some p
  live : p.slotAt rid.slotNum = some ⟨false, old⟩
  room : (tuple.length : Int) ≤ p.getFreeSpaceSize + old.length
  run : p.updateTuple tuple rid.slotNum = .ok (some old, q)
  layout : Layout q
  header : ∀ x < 16, q x = p x
  slotAt : q.slotAt = Function.update p.slotAt rid.slotNum
    (if tuple = [] then none else some ⟨false, tuple⟩)

/-- `UpdateTuple` replaces a tuple that is not marked as deleted, or
refuses to. -/
theorem updateTuple_cases (hh : Chained h ids) (hid : rid.pageId ∈ ids)
    (hkeep : h.KeepsOffsets tuple rid) (txn : Transaction) :
    h.updateTuple tuple rid txn = .ok (false, h, txn) ∨
      ∃ p old q, Updated h tuple rid p old q ∧
        h.updateTuple tuple rid txn = .ok (true, h.setPage rid.pageId q,
          if txn.state ≠ .aborted then txn.emplaceBack rid .update old else txn) := by
  obtain ⟨p, hp⟩ := hh.exists_page hid
  have hlayout := hh.layout hp
  rw [TableHeap.updateTuple, hp]
  by_cases hmade : ∃ old, p.slotAt rid.slotNum = some ⟨false, old⟩ ∧
      (tuple.length : Int) ≤ p.getFreeSpaceSize + old.length
  · right
    obtain ⟨old, hold, hroom⟩ := hmade
    obtain ⟨q, hrun, hq, -, hheader, hslot⟩ :=
      TablePage.updateTuple_spec hlayout hold hroom (hkeep p hp old hold hroom)
    refine ⟨p, old, q, ⟨hp, hold, hroom, hrun, hq, hheader, hslot⟩, ?_⟩
    simp only [hrun, bind, Except.bind]
  · left
    have hrefused : p.updateTuple tuple rid.slotNum = .ok (none, p) := by
      apply updateTuple_refused
      intro old hold
      by_contra hroom
      exact hmade ⟨old, hold, Int.not_lt.mp hroom⟩
    simp only [hrefused, bind, Except.bind]
    rw [setPage_self hp]

theorem Updated.spec {old : List UInt8} (hup : Updated h tuple rid p old q) (hh : Chained h ids) :
    Chained (h.setPage rid.pageId q) ids ∧ h.contents rid = some ⟨false, old⟩ ∧
      (h.setPage rid.pageId q).contents =
        Function.update h.contents rid (if tuple = [] then none else some ⟨false, tuple⟩) := by
  obtain ⟨hchained, hcontents⟩ := hh.replace hup.page hup.layout hup.header hup.slotAt
  exact ⟨hchained, (contents_of_pages hup.page).trans hup.live, hcontents⟩

/-! ### A new table -/

theorem create_eq {n : PageId} (hrun : create n = .ok h) :
    n < 2147483648 ∧ h.firstPageId = n ∧ h.nextPageId = n + 1 ∧ ∀ x, h.pages x =
      if x = n then some (TablePage.init (fun _ => 0) n pageSize invalidPageId) else none := by
  rw [create, newPage] at hrun
  by_cases hlt : n < 2147483648
  · rw [if_pos hlt] at hrun
    simp only [bind, Except.bind, fetchPage, setPage, Function.update_self] at hrun
    cases hrun
    refine ⟨hlt, rfl, rfl, fun x => ?_⟩
    simp only [Function.update_apply]
    split
    case isTrue => rfl
    case isFalse => rfl
  · rw [if_neg hlt] at hrun
    cases hrun

theorem create_spec {n : PageId} (hn : 0 ≤ n) (hrun : create n = .ok h) :
    Chained h [n] ∧ h.contents = fun _ => none := by
  obtain ⟨hlt, hfirst, hnext, hpages⟩ := create_eq hrun
  constructor
  · constructor
    case first => rw [hfirst, List.head?_cons]
    case chain => exact ⟨⟨_, (hpages n).trans (if_pos rfl), chainPage_init _ _ hn hlt⟩, trivial⟩
    case nodup => exact List.nodup_singleton n
    case known =>
      intro x hx
      rw [List.mem_singleton.mp hx, hnext]
      exact ⟨hn, Int.lt_succ n⟩
    case only =>
      intro x r hr
      rw [hpages] at hr
      split at hr
      case isTrue hx => exact List.mem_singleton.mpr hx
      case isFalse => cases hr
  · funext rid
    rw [contents, hpages]
    split
    case isTrue => exact slotAt_init _ _ _ _
    case isFalse => rfl

end TableHeap

end ScuDb
