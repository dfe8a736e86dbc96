import ScuDb.Concurrency.Commit
import ScuDb.Foundations.PartialInverse
import ScuDb.Index.Contract
import ScuDb.Vtable.VirtualTable

/-!
The index of a virtual table and the rows a scan of its heap shows.

`VtabUpdate` changes the two one after the other and by different names:
the heap by `RID`, the index by key. The index holds one `RID` for a key.
As long as no two visible rows have one key, index and heap are partial
inverses of each other, also in the middle of a transaction.
-/

namespace ScuDb

open Foundations TableHeap TransactionManager

variable {K B : Type} [LinearOrder B] [BoundedOrder B]

namespace VirtualTable

/-- The indexed columns of a visible row. -/
def keyAt (keyOf : List UInt8 → K) (h : TableHeap) (rid : RID) : Option K :=
  (h.getTuple rid).map keyOf

/-- The index leads from every key to the `RID` that has it. -/
def IndexHolds (ω : OrderedIndex K B) (s : VirtualTable K) (f : RID → Option K) : Prop :=
  ∃ m t, s.index = some t ∧ PartialInverse f m ∧
    BPlusTree.Represents ω False (fun k => (m k).map some) t

/-- The heap is a table whose tuples marked as deleted are those of the
transaction's delete records. -/
structure HeapOk (s : VirtualTable K) (ids : List PageId) : Prop where
  chained : Chained s.tableHeap ids
  once : (deleteRids s.transaction.writeSet).Nodup
  marked : ∀ rid ∈ deleteRids s.transaction.writeSet, Marked s.tableHeap rid

variable {ω : OrderedIndex K B} {keyOf : List UInt8 → K} {s s' : VirtualTable K}
  {f : RID → Option K} {ids : List PageId} {rid : RID} {tuple old : List UInt8}

/-! ### The index -/

theorem onIndex_ok {α : Type} {call : TreeM K (Option RID) α} {t : BPlusTree K (Option RID)}
    {Q : α → BPlusTree K (Option RID) → Prop} (ht : s.index = some t) (hcall : wp call Q t)
    (hrun : onIndex call s = .ok ((), s')) :
    ∃ a t', Q a t' ∧ s' = { s with index := some t' } := by
  obtain ⟨a, t', hok, hq⟩ := hcall
  have honIndex : onIndex call s = .ok ((), { s with index := some t' }) := by
    simp only [onIndex, ht, hok]
    rfl
  rw [honIndex] at hrun
  cases hrun
  exact ⟨a, t', hq, rfl⟩

section Index

variable [Inhabited K] [DecidableEq K]

theorem insertEntry_ok (h : s.IndexHolds ω f) (hkey : keyOf tuple ∈ ω.keys) (hfree : f rid = none)
    (hnew : ∀ r, f r ≠ some (keyOf tuple))
    (hrun : insertEntry ω.toIndexParams keyOf tuple (some rid) s = .ok ((), s')) :
    s'.IndexHolds ω (Function.update f rid (some (keyOf tuple))) ∧
      s'.tableHeap = s.tableHeap ∧ s'.transaction = s.transaction := by
  obtain ⟨m, t, ht, hinv, hrep⟩ := h
  have hnone : m (keyOf tuple) = none := hinv.eq_none_iff.mpr hnew
  obtain ⟨_, t', ⟨-, hrep', -⟩, rfl⟩ :=
    onIndex_ok ht (BPlusTree.wp_insert hrep hkey (some rid)) hrun
  refine ⟨⟨_, t', rfl, hinv.insert hfree hnone, ?_⟩, rfl, rfl⟩
  rw [hnone, Option.map_none, if_pos rfl] at hrep'
  have hmap : (fun k => (Function.update m (keyOf tuple) (some rid) k).map some) =
      Function.update (fun k => (m k).map some) (keyOf tuple) (some (some rid)) :=
    Function.comp_update (Option.map some) m (keyOf tuple) (some rid)
  rw [hmap]
  exact hrep'.mono False.elim

omit [Inhabited K] in
theorem deleteEntry_ok (h : s.IndexHolds ω f) (hold : s.tableHeap.getTuple rid = some old)
    (hf : f rid = some (keyOf old)) (hkey : keyOf old ∈ ω.keys)
    (hrun : deleteEntry ω.toIndexParams keyOf rid s = .ok ((), s')) :
    s'.IndexHolds ω (Function.update f rid none) ∧
      s'.tableHeap = s.tableHeap ∧ s'.transaction = s.transaction := by
  obtain ⟨m, t, ht, hinv, hrep⟩ := h
  have hcall : deleteEntry ω.toIndexParams keyOf rid s =
      onIndex (BPlusTree.remove ω.toIndexParams (keyOf old) true) s := by
    simp only [deleteEntry, bind, StateT.bind, get, getThe, MonadStateOf.get, StateT.get, pure,
      Except.pure, Except.bind, ht, hold]
  rw [hcall] at hrun
  obtain ⟨_, t', ⟨hrep', -⟩, rfl⟩ := onIndex_ok ht (BPlusTree.wp_remove hrep hkey) hrun
  refine ⟨⟨_, t', rfl, hinv.erase hf, ?_⟩, rfl, rfl⟩
  have hmap : (fun k => (Function.update m (keyOf old) none k).map some) =
      Function.update (fun k => (m k).map some) (keyOf old) none :=
    Function.comp_update (Option.map some) m (keyOf old) none
  rw [hmap]
  exact hrep'

end Index

/-! ### The heap -/

theorem getTuple_update {h h' : TableHeap} {v : Option StoredTuple}
    (hcontents : h'.contents = Function.update h.contents rid v) :
    h'.getTuple = Function.update h.getTuple rid
      (v.bind fun t => if t.deleted then none else some t.bytes) := by
  funext r
  rw [getTuple_eq, hcontents]
  by_cases hr : r = rid
  · rw [hr, Function.update_self, Function.update_self]
  · rw [Function.update_of_ne hr, Function.update_of_ne hr, getTuple_eq]

omit [LinearOrder B] [BoundedOrder B] in
theorem not_marked {h : TableHeap} (hnot : ∀ bytes, h.contents rid ≠ some ⟨true, bytes⟩) :
    ¬Marked h rid := by
  rintro ⟨bytes, hbytes⟩
  exact hnot bytes hbytes

/-- The delete records are the same after an operation on a tuple that is
not marked as deleted. -/
theorem HeapOk.next (h : s.HeapOk ids) {ids' : List PageId} {v : Option StoredTuple}
    (hchained : Chained s'.tableHeap ids')
    (hcontents : s'.tableHeap.contents = Function.update s.tableHeap.contents rid v)
    (hfree : ¬Marked s.tableHeap rid)
    (hrids : deleteRids s'.transaction.writeSet = deleteRids s.transaction.writeSet) :
    s'.HeapOk ids' := by
  constructor
  case chained => exact hchained
  case once =>
    rw [hrids]
    exact h.once
  case marked =>
    rw [hrids]
    intro r hr
    exact TableSystem.marked_of_update hcontents hfree (h.marked r hr)

theorem deleteTuple_ok {r : Bool} (h : s.HeapOk ids) (hold : s.tableHeap.getTuple rid = some old)
    (hrun : deleteTuple rid s = .ok (r, s')) :
    s'.HeapOk ids ∧ s'.index = s.index ∧
      s'.tableHeap.getTuple = Function.update s.tableHeap.getTuple rid none := by
  have hlive := getTuple_eq_some_iff.mp hold
  obtain ⟨p, hp, -⟩ := exists_page_of_contents hlive
  obtain ⟨hmark, hchained, hcontents⟩ := markDelete_spec h.chained hp s.transaction
  rw [deleteTuple, hmark] at hrun
  cases hrun
  rw [hlive, Option.map_some] at hcontents
  have hfree : ¬Marked s.tableHeap rid := not_marked fun bytes hbytes => by
    rw [hlive] at hbytes
    cases hbytes
  have hrids := deleteRids_cons ⟨rid, .delete, []⟩ s.transaction.writeSet
  rw [if_pos rfl] at hrids
  refine ⟨⟨hchained, ?_, ?_⟩, rfl, getTuple_update hcontents⟩
  · show (deleteRids (_ :: _)).Nodup
    rw [hrids]
    exact List.nodup_cons.mpr ⟨fun hr => hfree (h.marked rid hr), h.once⟩
  · intro r hr
    replace hr : r ∈ deleteRids (_ :: _) := hr
    rw [hrids] at hr
    rcases List.mem_cons.mp hr with rfl | hr
    · exact ⟨old, by rw [hcontents, Function.update_self]⟩
    · exact TableSystem.marked_of_update hcontents hfree (h.marked r hr)

theorem insertTuple_ok {r : Option RID} (h : s.HeapOk ids) (hsize : tuple.length ≤ 480)
    (hrun : insertTuple tuple s = .ok (r, s')) :
    ∃ rid ids', r = some rid ∧ s'.HeapOk ids' ∧ s'.index = s.index ∧
      s.tableHeap.getTuple rid = none ∧
      s'.tableHeap.getTuple = Function.update s.tableHeap.getTuple rid (some tuple) := by
  rw [insertTuple] at hrun
  cases hins : s.tableHeap.insertTuple tuple s.transaction with
  | error e =>
      rw [hins] at hrun
      cases hrun
  | ok x =>
      rw [hins] at hrun
      rcases TableHeap.insertTuple_ok h.chained hins with
        ⟨hlarge, -⟩ | ⟨rid, h', ids', hne, rfl, hdone⟩
      · exact absurd hsize (not_le.mpr hlarge)
      · cases hrun
        obtain ⟨hchained, hfree, hcontents⟩ := hdone.spec h.chained hne
        refine ⟨rid, ids', rfl, ?_, rfl, ?_, getTuple_update hcontents⟩
        · apply h.next hchained hcontents
          · exact not_marked fun bytes hbytes => by
              rw [hfree] at hbytes
              cases hbytes
          · exact deleteRids_cons _ _
        · rw [getTuple_eq, hfree]
          rfl

theorem updateTuple_ok {r : Bool} (h : s.HeapOk ids)
    (hold : s.tableHeap.getTuple rid = some old) (hkeep : s.tableHeap.KeepsOffsets tuple rid)
    (hne : tuple ≠ []) (hrun : updateTuple tuple rid s = .ok (r, s')) :
    r = false ∧ s' = s ∨ r = true ∧ s'.HeapOk ids ∧ s'.index = s.index ∧
      s'.tableHeap.getTuple = Function.update s.tableHeap.getTuple rid (some tuple) := by
  have hlive := getTuple_eq_some_iff.mp hold
  obtain ⟨p, hp, -⟩ := exists_page_of_contents hlive
  rw [updateTuple] at hrun
  rcases updateTuple_cases h.chained (h.chained.only _ p hp) hkeep s.transaction with
    href | ⟨p', old', q, hup, hmade⟩
  · left
    rw [href] at hrun
    cases hrun
    exact ⟨rfl, rfl⟩
  · right
    rw [hmade] at hrun
    cases hrun
    obtain ⟨hchained, -, hcontents⟩ := hup.spec h.chained
    rw [if_neg hne] at hcontents
    refine ⟨rfl, ?_, rfl, getTuple_update hcontents⟩
    apply h.next hchained hcontents
    · exact not_marked fun bytes hbytes => by
        rw [hlive] at hbytes
        cases hbytes
    · show deleteRids (Transaction.writeSet (if _ then _ else _)) = _
      split
      case isTrue => exact deleteRids_cons _ _
      case isFalse => rfl

/-- A commit changes no visible row. -/
theorem vtabCommit_ok (h : s.HeapOk ids) (hrun : vtabCommit s = .ok ((), s')) :
    s'.HeapOk ids ∧ s'.index = s.index ∧ s'.tableHeap.getTuple = s.tableHeap.getTuple := by
  obtain ⟨-, h', hdone, hchained, hcontents⟩ :=
    applyDeletes_spec _ s.tableHeap h.chained h.once h.marked
  rw [vtabCommit, commit, hdone] at hrun
  cases hrun
  refine ⟨⟨hchained, List.nodup_nil, ?_⟩, rfl, ?_⟩
  · intro r hr
    cases hr
  · funext r
    simp only [getTuple_eq, hcontents]
    by_cases hr : r ∈ deleteRids s.transaction.writeSet
    · obtain ⟨bytes, hbytes⟩ := h.marked r hr
      rw [if_pos hr, hbytes]
      rfl
    · rw [if_neg hr]

/-! ### Changes of rows -/

/-- Heap and index hold the same rows. -/
structure Agrees (ω : OrderedIndex K B) (keyOf : List UInt8 → K) (s : VirtualTable K) : Prop where
  heap : ∃ ids, s.HeapOk ids
  index : s.IndexHolds ω (keyAt keyOf s.tableHeap)
  keys : ∀ rid tuple, s.tableHeap.getTuple rid = some tuple → keyOf tuple ∈ ω.keys

theorem IndexHolds.congr (h : s.IndexHolds ω f) (hindex : s'.index = s.index) :
    s'.IndexHolds ω f := by
  obtain ⟨m, t, ht, hrest⟩ := h
  exact ⟨m, t, hindex.trans ht, hrest⟩

omit [LinearOrder B] [BoundedOrder B] in
theorem keyAt_update {h h' : TableHeap} {v : Option (List UInt8)}
    (hget : h'.getTuple = Function.update h.getTuple rid v) :
    keyAt keyOf h' = Function.update (keyAt keyOf h) rid (v.map keyOf) := by
  funext r
  rw [keyAt, hget]
  by_cases hr : r = rid
  · rw [hr, Function.update_self, Function.update_self]
  · rw [Function.update_of_ne hr, Function.update_of_ne hr, keyAt]

end VirtualTable

/-- Rows fit into a page and the keys of visible rows are different; no
update leaves a tuple behind that is marked as deleted. -/
def RowChange.Fits (keyOf : List UInt8 → K) (S : Set K) : RowChange → VirtualTable K → Prop
  | .delete _, _ => True
  | .insert tuple, s => tuple.length ≤ 480 ∧ keyOf tuple ∈ S ∧
      ∀ r old, s.tableHeap.getTuple r = some old → keyOf old ≠ keyOf tuple
  | .update rid tuple, s => tuple ≠ [] ∧ tuple.length ≤ 480 ∧ keyOf tuple ∈ S ∧
      (∀ r old, r ≠ rid → s.tableHeap.getTuple r = some old → keyOf old ≠ keyOf tuple) ∧
      s.tableHeap.KeepsOffsets tuple rid

def VtabOp.Fits (keyOf : List UInt8 → K) (S : Set K) : VtabOp → VirtualTable K → Prop
  | .update change, s => change.Fits keyOf S s
  | .commit, _ => True

namespace VirtualTable

variable {ω : OrderedIndex K B} {keyOf : List UInt8 → K} {s s' : VirtualTable K} {rid : RID}
  {tuple : List UInt8} [Inhabited K] [DecidableEq K]

omit [Inhabited K] [DecidableEq K] [LinearOrder B] [BoundedOrder B] in
theorem HeapOk.congr {ids : List PageId} (h : s.HeapOk ids) (hheap : s'.tableHeap = s.tableHeap)
    (htxn : s'.transaction = s.transaction) : s'.HeapOk ids := by
  constructor
  case chained =>
    rw [hheap]
    exact h.chained
  case once =>
    rw [htxn]
    exact h.once
  case marked =>
    rw [hheap, htxn]
    exact h.marked

omit [Inhabited K] [DecidableEq K] in
theorem deleteTuple_agrees {r : Bool} {ids : List PageId} {old : List UInt8} (hheap : s.HeapOk ids)
    (hindex : s.IndexHolds ω (Function.update (keyAt keyOf s.tableHeap) rid none))
    (hold : s.tableHeap.getTuple rid = some old) (hrun : deleteTuple rid s = .ok (r, s')) :
    s'.HeapOk ids ∧ s'.IndexHolds ω (keyAt keyOf s'.tableHeap) ∧
      s'.tableHeap.getTuple = Function.update s.tableHeap.getTuple rid none := by
  obtain ⟨hheap', hindex', hget⟩ := deleteTuple_ok hheap hold hrun
  refine ⟨hheap', ?_, hget⟩
  rw [keyAt_update hget]
  exact hindex.congr hindex'

theorem insertTuple_agrees {r : Option RID} {ids : List PageId} {s₁ : VirtualTable K}
    (hheap : s.HeapOk ids) (hindex : s.IndexHolds ω (keyAt keyOf s.tableHeap))
    (hsize : tuple.length ≤ 480) (hkey : keyOf tuple ∈ ω.keys)
    (hnew : ∀ x old, s.tableHeap.getTuple x = some old → keyOf old ≠ keyOf tuple)
    (hins : insertTuple tuple s = .ok (r, s₁)) :
    ∃ rid ids', r = some rid ∧
      ∀ s', insertEntry ω.toIndexParams keyOf tuple (some rid) s₁ = .ok ((), s') →
        s'.HeapOk ids' ∧ s'.IndexHolds ω (keyAt keyOf s'.tableHeap) ∧
          s'.tableHeap.getTuple = Function.update s.tableHeap.getTuple rid (some tuple) := by
  obtain ⟨rid, ids', hr, hheap₁, hindex₁, hfree, hget⟩ := insertTuple_ok hheap hsize hins
  refine ⟨rid, ids', hr, fun s' hentry => ?_⟩
  have hfree' : keyAt keyOf s.tableHeap rid = none := by rw [keyAt, hfree, Option.map_none]
  have hnew' (x : RID) : keyAt keyOf s.tableHeap x ≠ some (keyOf tuple) := by
    intro hx
    obtain ⟨old, hold, heq⟩ := Option.map_eq_some_iff.mp hx
    exact hnew x old hold heq
  obtain ⟨hindex', hheap', htxn'⟩ :=
    insertEntry_ok (hindex.congr hindex₁) hkey hfree' hnew' hentry
  refine ⟨hheap₁.congr hheap' htxn', ?_, ?_⟩
  · rw [hheap', keyAt_update hget]
    exact hindex'
  · rw [hheap', hget]

omit [Inhabited K] [DecidableEq K] in
/-- One row is changed, and its key is one of the keys. -/
theorem agrees_of_update {ids : List PageId} {v : Option (List UInt8)} (h : s.Agrees ω keyOf)
    (hheap : s'.HeapOk ids) (hindex : s'.IndexHolds ω (keyAt keyOf s'.tableHeap))
    (hget : s'.tableHeap.getTuple = Function.update s.tableHeap.getTuple rid v)
    (hv : ∀ tuple, v = some tuple → keyOf tuple ∈ ω.keys) : s'.Agrees ω keyOf := by
  refine ⟨⟨ids, hheap⟩, hindex, fun r row hrow => ?_⟩
  rw [hget] at hrow
  by_cases hr : r = rid
  · rw [hr, Function.update_self] at hrow
    exact hv row hrow
  · rw [Function.update_of_ne hr] at hrow
    exact h.keys r row hrow

theorem Agrees.delete (h : s.Agrees ω keyOf)
    (hvisible : ∃ tuple, s.tableHeap.getTuple rid = some tuple)
    (hrun : vtabUpdate ω.toIndexParams keyOf (.delete rid) s = .ok ((), s')) :
    s'.Agrees ω keyOf := by
  obtain ⟨old, hold⟩ := hvisible
  obtain ⟨ids, hheap⟩ := h.heap
  obtain ⟨_, s₁, hentry, hrun⟩ := bind_ok hrun
  obtain ⟨_, s₂, hdelete, hrun⟩ := bind_ok hrun
  cases hrun
  have hf : keyAt keyOf s.tableHeap rid = some (keyOf old) := by rw [keyAt, hold, Option.map_some]
  obtain ⟨hindex₁, hheap₁, htxn₁⟩ := deleteEntry_ok h.index hold hf (h.keys rid old hold) hentry
  rw [← hheap₁] at hold hindex₁
  obtain ⟨hheap₂, hindex₂, hget⟩ :=
    deleteTuple_agrees (hheap.congr hheap₁ htxn₁) hindex₁ hold hdelete
  rw [hheap₁] at hget
  apply agrees_of_update h hheap₂ hindex₂ hget
  rintro _ ⟨⟩

theorem Agrees.insert (h : s.Agrees ω keyOf)
    (hfits : (RowChange.insert tuple).Fits keyOf ω.keys s)
    (hrun : vtabUpdate ω.toIndexParams keyOf (.insert tuple) s = .ok ((), s')) :
    s'.Agrees ω keyOf := by
  obtain ⟨hsize, hkey, hnew⟩ := hfits
  obtain ⟨ids, hheap⟩ := h.heap
  obtain ⟨r, s₁, hins, hentry⟩ := bind_ok hrun
  obtain ⟨rid, ids', rfl, hdone⟩ := insertTuple_agrees hheap h.index hsize hkey hnew hins
  obtain ⟨hheap', hindex', hget⟩ := hdone s' hentry
  apply agrees_of_update h hheap' hindex' hget
  rintro _ ⟨⟩
  exact hkey

theorem Agrees.update (h : s.Agrees ω keyOf)
    (hvisible : ∃ tuple, s.tableHeap.getTuple rid = some tuple)
    (hfits : (RowChange.update rid tuple).Fits keyOf ω.keys s)
    (hrun : vtabUpdate ω.toIndexParams keyOf (.update rid tuple) s = .ok ((), s')) :
    s'.Agrees ω keyOf := by
  obtain ⟨old, hold⟩ := hvisible
  obtain ⟨hne, hsize, hkey, hnew, hkeep⟩ := hfits
  obtain ⟨ids, hheap⟩ := h.heap
  obtain ⟨_, s₁, hentry, hrest⟩ := bind_ok hrun
  obtain ⟨made, s₂, hupdate, hbranch⟩ := bind_ok hrest
  have hf : keyAt keyOf s.tableHeap rid = some (keyOf old) := by rw [keyAt, hold, Option.map_some]
  obtain ⟨hindex₁, hheap₁, htxn₁⟩ := deleteEntry_ok h.index hold hf (h.keys rid old hold) hentry
  have hheapOk₁ := hheap.congr hheap₁ htxn₁
  rw [← hheap₁] at hold hkeep
  rcases updateTuple_ok hheapOk₁ hold hkeep hne hupdate with
    ⟨rfl, rfl⟩ | ⟨rfl, hheap₂, hindex₂, hget⟩
  · -- there is no room for the row on its page
    rw [if_neg Bool.false_ne_true] at hbranch
    obtain ⟨_, s₃, hdelete, hinsert⟩ := bind_ok hbranch
    obtain ⟨r, s₄, hins, hentry'⟩ := bind_ok hinsert
    rw [← hheap₁] at hindex₁
    obtain ⟨hheap₃, hindex₃, hget₃⟩ := deleteTuple_agrees hheapOk₁ hindex₁ hold hdelete
    have hnew₃ (x : RID) (row : List UInt8) (hx : s₃.tableHeap.getTuple x = some row) :
        keyOf row ≠ keyOf tuple := by
      rw [hget₃] at hx
      by_cases hr : x = rid
      · rw [hr, Function.update_self] at hx
        cases hx
      · rw [Function.update_of_ne hr, hheap₁] at hx
        exact hnew x row hr hx
    obtain ⟨rid', ids', rfl, hdone⟩ := insertTuple_agrees hheap₃ hindex₃ hsize hkey hnew₃ hins
    obtain ⟨hheap', hindex', hget'⟩ := hdone s' hentry'
    have hgone : s₃.Agrees ω keyOf := by
      rw [hheap₁] at hget₃
      apply agrees_of_update h hheap₃ hindex₃ hget₃
      rintro _ ⟨⟩
    apply agrees_of_update hgone hheap' hindex' hget'
    rintro _ ⟨⟩
    exact hkey
  · -- the row has been changed in place
    have hnew₁ (x : RID) :
        Function.update (keyAt keyOf s.tableHeap) rid none x ≠ some (keyOf tuple) := by
      by_cases hr : x = rid
      · rw [hr, Function.update_self]
        exact (Option.some_ne_none _).symm
      · rw [Function.update_of_ne hr]
        intro hx
        obtain ⟨row, hrow, heq⟩ := Option.map_eq_some_iff.mp hx
        exact hnew x row hr hrow heq
    obtain ⟨hindex', hheap', htxn'⟩ :=
      insertEntry_ok (hindex₁.congr hindex₂) hkey (Function.update_self _ _ _) hnew₁ hbranch
    rw [Function.update_idem] at hindex'
    rw [hheap₁] at hget
    apply agrees_of_update h (hheap₂.congr hheap' htxn')
    · rw [hheap', keyAt_update hget]
      exact hindex'
    · rw [hheap']
      exact hget
    · rintro _ ⟨⟩
      exact hkey

/-- Every call SQLite makes to change rows. -/
theorem Agrees.run {op : VtabOp} (h : s.Agrees ω keyOf) (hop : op.Allowed s)
    (hfits : op.Fits keyOf ω.keys s) (hrun : op.run ω.toIndexParams keyOf s = .ok ((), s')) :
    s'.Agrees ω keyOf := by
  cases op with
  | commit =>
      obtain ⟨ids, hheap⟩ := h.heap
      obtain ⟨hheap', hindex', hget⟩ := vtabCommit_ok hheap hrun
      have hkeyAt : keyAt keyOf s'.tableHeap = keyAt keyOf s.tableHeap := by
        funext r
        rw [keyAt, keyAt, hget]
      refine ⟨⟨ids, hheap'⟩, ?_, ?_⟩
      · rw [hkeyAt]
        exact h.index.congr hindex'
      · rw [hget]
        exact h.keys
  | update change =>
      cases change with
      | delete rid => exact h.delete hop hrun
      | insert tuple => exact h.insert hfits hrun
      | update rid tuple => exact h.update hop hfits hrun

omit [Inhabited K] [DecidableEq K] in
theorem Agrees.scanKey (h : s.Agrees ω keyOf) (hrow : s.tableHeap.getTuple rid = some tuple)
    (result : List (Option RID)) :
    ∃ s', VirtualTable.scanKey ω.toIndexParams (keyOf tuple) result s = .ok ([some rid], s') := by
  obtain ⟨m, t, ht, hinv, hrep⟩ := h.index
  have hm : m (keyOf tuple) = some rid := by
    rw [hinv rid, keyAt, hrow, Option.map_some]
  obtain ⟨r, t', hget, -, hfound, -⟩ :=
    BPlusTree.wp_getValue hrep (h.keys rid tuple hrow) result false
  refine ⟨{ s with index := some t' }, ?_⟩
  have hr : r.2 = [some rid] := hfound (some rid) (by rw [hm, Option.map_some])
  rw [VirtualTable.scanKey, ht]
  show ((BPlusTree.getValue ω.toIndexParams (keyOf tuple) result false :
    TreeM K (Option RID) _) t >>= _) = _
  rw [hget, ← hr]
  rfl

omit [Inhabited K] [DecidableEq K] in
theorem Agrees.unique (h : s.Agrees ω keyOf) {rid' : RID} {tuple' : List UInt8}
    (hrow : s.tableHeap.getTuple rid = some tuple)
    (hrow' : s.tableHeap.getTuple rid' = some tuple') (hkey : keyOf tuple' = keyOf tuple) :
    rid' = rid := by
  obtain ⟨m, t, -, hinv, -⟩ := h.index
  have hf : keyAt keyOf s.tableHeap rid = some (keyOf tuple) := by
    rw [keyAt, hrow, Option.map_some]
  have hf' : keyAt keyOf s.tableHeap rid' = some (keyOf tuple) := by
    rw [keyAt, hrow', Option.map_some, hkey]
  exact hinv.unique hf' hf

omit [Inhabited K] [DecidableEq K] in
/-- A row that is not found under a key has another one. -/
theorem Agrees.keyOf_ne (h : s.Agrees ω keyOf) {key : K} {rids : List (Option RID)}
    (hscan : VirtualTable.scanKey ω.toIndexParams key [] s = .ok (rids, s'))
    (hrow : s.tableHeap.getTuple rid = some tuple) (hnot : some rid ∉ rids) :
    keyOf tuple ≠ key := by
  rintro rfl
  obtain ⟨s₁, hfound⟩ := h.scanKey hrow []
  rw [hfound] at hscan
  cases hscan
  exact hnot List.mem_cons_self

/-- A table created with an index. -/
def Created (n : PageId) (header : HeaderPage) (next : PageId) (s : VirtualTable K) : Prop :=
  TableHeap.create n = .ok s.tableHeap ∧ s.index = some (.empty header next) ∧
    s.transaction = TransactionManager.start

omit [Inhabited K] [DecidableEq K] in
theorem agrees_created {n next : PageId} {header : HeaderPage} (hn : 0 ≤ n) (hnext : 1 ≤ next)
    (hroom : header.recorded ω.indexName = none → header.getRecordCount < HeaderPage.capacity)
    (h : s.Created n header next) : s.Agrees ω keyOf := by
  obtain ⟨hcreate, hindex, htxn⟩ := h
  obtain ⟨hchained, hcontents⟩ := create_spec hn hcreate
  have hget (r : RID) : s.tableHeap.getTuple r = none := by
    rw [getTuple_eq, hcontents]
    rfl
  refine ⟨⟨[n], hchained, ?_, ?_⟩, ?_, ?_⟩
  · rw [htxn]
    exact List.nodup_nil
  · rw [htxn]
    exact fun r hr => absurd hr List.not_mem_nil
  · have hempty : keyAt keyOf s.tableHeap = fun _ => none := by
      funext r
      rw [keyAt, hget, Option.map_none]
    rw [hempty]
    exact ⟨fun _ => none, _, hindex, .empty, BPlusTree.represents_empty ω hnext hroom⟩
  · intro r row hrow
    rw [hget] at hrow
    cases hrow

theorem agrees_of_reachable {n next : PageId} {header : HeaderPage} (hn : 0 ≤ n) (hnext : 1 ≤ next)
    (hroom : header.recorded ω.indexName = none → header.getRecordCount < HeaderPage.capacity)
    (hs : Reachable (Created n header next) (fun op s => op.Allowed s ∧ op.Fits keyOf ω.keys s)
      (VtabOp.run ω.toIndexParams keyOf) s) : s.Agrees ω keyOf := by
  apply hs.invariant_of_ok
  · exact fun s hcreated => agrees_created hn hnext hroom hcreated
  · rintro op s ⟨⟩ s' hs ⟨hop, hfits⟩ hrun
    exact hs.run hop hfits hrun

/-- In every run in which rows fit into a page, visible rows have different
keys and no update leaves a tuple behind that is marked as deleted, the
index finds for every key of a visible row the `RID`s a scan of the heap
finds. -/
theorem scanKey_eq_scan (params : IndexParams K) (S : Set K)
    (hcmp : StrictTotalOrderOn params.comparator S) (hname : params.indexName.length < 32)
    (header : HeaderPage) (hroom : header.recorded params.indexName = none →
      header.getRecordCount < HeaderPage.capacity)
    (keyOf : List UInt8 → K) {n next : PageId} (hn : 0 ≤ n) (hnext : 1 ≤ next)
    {s : VirtualTable K} (hs : Reachable (Created n header next)
      (fun op s => op.Allowed s ∧ op.Fits keyOf S s) (VtabOp.run params keyOf) s)
    (key : K) (hheld : ∃ rid tuple, s.tableHeap.getTuple rid = some tuple ∧ keyOf tuple = key)
    (result : List (Option RID)) :
    ∃ rids s', VirtualTable.scanKey params key result s = .ok (rids, s') ∧
      ∀ x, x ∈ rids ↔ ∃ rid tuple, x = some rid ∧ s.tableHeap.getTuple rid = some tuple ∧
        keyOf tuple = key := by
  obtain ⟨B, hB, hB', ω, rfl, rfl⟩ := exists_orderedIndex params hcmp hname
  have hagrees := agrees_of_reachable hn hnext hroom hs
  obtain ⟨rid, tuple, hrow, rfl⟩ := hheld
  obtain ⟨s', hscan⟩ := hagrees.scanKey hrow result
  refine ⟨[some rid], s', hscan, fun x => ?_⟩
  rw [List.mem_singleton]
  constructor
  · rintro rfl
    exact ⟨rid, tuple, rfl, hrow, rfl⟩
  · rintro ⟨rid', tuple', rfl, hrow', hkey⟩
    rw [hagrees.unique hrow hrow' hkey]

end VirtualTable

/-! ### Two rows of one key

The indexed column is the first byte of a row. -/

def firstByte (tuple : List UInt8) : Int := (tuple.headD 0).toNat

/-- A new table with an index. -/
def newTable (h : TableHeap) : VirtualTable Int :=
  ⟨h, some (.empty HeaderPage.init 2), TransactionManager.start⟩

open VirtualTable

/-- The conditions on a call, evaluated: a key that the index does not find
is new. -/
def fitsIndex : VtabOp → VirtualTable Int → Bool
  | .update (.insert tuple), s => tuple.length ≤ 480 ∧
      (scanKey integerIndex (firstByte tuple) [] s).toOption.any fun y => ∀ x ∈ y.1, x = none
  | .update (.update rid tuple), s => tuple ≠ [] ∧ tuple.length ≤ 480 ∧
      ((scanKey integerIndex (firstByte tuple) [] s).toOption.any fun y =>
        ∀ x ∈ y.1, x = none ∨ x = some rid) ∧
      s.tableHeap.KeepsOffsets tuple rid
  | .update (.delete _), _ | .commit, _ => true

theorem fits_of_fitsIndex {B : Type} [LinearOrder B] [BoundedOrder B] {ω : OrderedIndex Int B}
    {s : VirtualTable Int} {op : VtabOp} (h : s.Agrees ω firstByte)
    (hparams : ω.toIndexParams = integerIndex) (heval : fitsIndex op s = true) :
    op.Fits firstByte Set.univ s := by
  cases op with
  | commit => trivial
  | update change =>
      cases change with
      | delete rid => trivial
      | insert tuple =>
          obtain ⟨hsize, hscan⟩ := of_decide_eq_true heval
          obtain ⟨⟨rids, s'⟩, hscan, hnone⟩ := exists_ok_of_any hscan
          rw [← hparams] at hscan
          refine ⟨hsize, Set.mem_univ _, fun r old hold => h.keyOf_ne hscan hold fun hmem => ?_⟩
          exact absurd (of_decide_eq_true hnone _ hmem) (Option.some_ne_none r)
      | update rid tuple =>
          obtain ⟨hne, hsize, hscan, hkeep⟩ := of_decide_eq_true heval
          obtain ⟨⟨rids, s'⟩, hscan, hown⟩ := exists_ok_of_any hscan
          rw [← hparams] at hscan
          refine ⟨hne, hsize, Set.mem_univ _, fun r old hr hold => h.keyOf_ne hscan hold ?_, hkeep⟩
          intro hmem
          exact hr (Option.some.inj ((of_decide_eq_true hown _ hmem).resolve_left (by simp)))

theorem exists_table (ok : VtabOp → VirtualTable Int → Prop)
    (check : VtabOp → VirtualTable Int → Bool)
    (hcheck : ∀ op s, Reachable (Created 1 HeaderPage.init 2) ok
      (VtabOp.run integerIndex firstByte) s → check op s = true → ok op s)
    (ops : List VtabOp) (f : VirtualTable Int → Bool)
    (heval : ((TableHeap.create 1).toOption.any fun h =>
      (checkedRun check (VtabOp.run integerIndex firstByte) ops (newTable h)).any f) = true) :
    ∃ s, Reachable (Created 1 HeaderPage.init 2) ok (VtabOp.run integerIndex firstByte) s ∧
      f s = true := by
  obtain ⟨h, hcreate, heval⟩ := exists_ok_of_any heval
  exact exists_reachable_of_check (.start ⟨hcreate, rfl, rfl⟩) check hcheck f heval

/-- Four rows are inserted on two pages. One of them gets another key, and
one is deleted and its slot taken by a row with the key the first row
had. -/
theorem scanKey_eq_scan_once : ∃ s : VirtualTable Int,
    s.tableHeap.getTuple ⟨1, 0⟩ = some [5, 2, 2] ∧ s.tableHeap.getTuple ⟨1, 1⟩ = some [1, 7] ∧
      s.tableHeap.getTuple ⟨1, 2⟩ = some [4] ∧
      (s.tableHeap.getTuple ⟨2, 0⟩).map firstByte = some 3 ∧
      ∀ key ∈ [1, 3, 4, 5], ∃ rids s', scanKey integerIndex key [] s = .ok (rids, s') ∧
        ∀ x, x ∈ rids ↔ ∃ rid tuple, x = some rid ∧ s.tableHeap.getTuple rid = some tuple ∧
          firstByte tuple = key := by
  obtain ⟨s, hs, heval⟩ := exists_table (fun op s => op.Allowed s ∧ op.Fits firstByte Set.univ s)
    (fun op s => decide (op.Allowed s) && fitsIndex op s) (fun op s hs hop => by
      obtain ⟨hallowed, hfits⟩ := Bool.and_eq_true_iff.mp hop
      obtain ⟨B, hB, hB', ω, hparams, hkeys⟩ := exists_orderedIndex integerIndex
        (S := Set.univ) strictTotalOrderOn_sub (by decide)
      rw [← hparams, ← hkeys] at hs
      have hagrees := agrees_of_reachable Int.one_pos.le (by decide) (fun _ => by decide) hs
      exact ⟨of_decide_eq_true hallowed, fits_of_fitsIndex hagrees hparams hfits⟩)
    [.update (.insert [1, 2]), .update (.insert [2, 9]), .update (.insert (List.replicate 470 3)),
      .update (.insert [4]), .commit, .update (.update ⟨1, 0⟩ [5, 2, 2]),
      .update (.delete ⟨1, 1⟩), .commit, .update (.insert [1, 7])]
    (fun s => s.tableHeap.getTuple ⟨1, 0⟩ = some [5, 2, 2] ∧
      s.tableHeap.getTuple ⟨1, 1⟩ = some [1, 7] ∧ s.tableHeap.getTuple ⟨1, 2⟩ = some [4] ∧
      (s.tableHeap.getTuple ⟨2, 0⟩).map firstByte = some 3) (by decide +kernel)
  obtain ⟨hfirst, hsecond, hthird, hfourth⟩ := of_decide_eq_true heval
  refine ⟨s, hfirst, hsecond, hthird, hfourth, fun key hkey => ?_⟩
  apply scanKey_eq_scan integerIndex Set.univ strictTotalOrderOn_sub (by decide) HeaderPage.init
    (fun _ => by decide) firstByte Int.one_pos.le (by decide) hs
  obtain ⟨bytes, hbytes, hthree⟩ := Option.map_eq_some_iff.mp hfourth
  simp only [List.mem_cons, List.not_mem_nil, or_false] at hkey
  obtain rfl | rfl | rfl | rfl := hkey
  · exact ⟨⟨1, 1⟩, _, hsecond, rfl⟩
  · exact ⟨⟨2, 0⟩, bytes, hbytes, hthree⟩
  · exact ⟨⟨1, 2⟩, _, hthird, rfl⟩
  · exact ⟨⟨1, 0⟩, _, hfirst, rfl⟩

/-- The index keeps the `RID` of the first of two rows with the same key. -/
theorem scanKey_misses_row :
    ¬∀ s : VirtualTable Int, Reachable (Created 1 HeaderPage.init 2) VtabOp.Allowed
      (VtabOp.run integerIndex firstByte) s → s.transaction.writeSet = [] →
      ∀ key, (∃ rid tuple, s.tableHeap.getTuple rid = some tuple ∧ firstByte tuple = key) →
      ∃ rids s', VirtualTable.scanKey integerIndex key [] s = .ok (rids, s') ∧
        ∀ x, x ∈ rids ↔ ∃ rid tuple, x = some rid ∧ s.tableHeap.getTuple rid = some tuple ∧
          firstByte tuple = key := by
  intro hall
  obtain ⟨s, hs, heval⟩ := exists_table VtabOp.Allowed (fun op s => decide (op.Allowed s))
    (fun _ _ _ => of_decide_eq_true)
    [.update (.insert [1, 2]), .update (.insert [1, 3]), .commit]
    (fun s => s.transaction.writeSet = [] ∧ s.tableHeap.getTuple ⟨1, 0⟩ = some [1, 2] ∧
      s.tableHeap.getTuple ⟨1, 1⟩ = some [1, 3] ∧
      (VirtualTable.scanKey integerIndex 1 [] s).toOption.any fun y => y.1 = [some ⟨1, 0⟩])
    (by decide +kernel)
  obtain ⟨hcommitted, hrow, hrow', hscan⟩ := of_decide_eq_true heval
  obtain ⟨⟨rids, s'⟩, hrun, hrids⟩ := exists_ok_of_any hscan
  have hfound : rids = [some ⟨1, 0⟩] := of_decide_eq_true hrids
  obtain ⟨rids', s₂, hrun', hiff⟩ := hall s hs hcommitted 1 ⟨⟨1, 0⟩, [1, 2], hrow, rfl⟩
  rw [hrun] at hrun'
  cases hrun'
  have hmissed := (hiff (some ⟨1, 1⟩)).mpr ⟨⟨1, 1⟩, [1, 3], rfl, hrow', rfl⟩
  rw [hfound] at hmissed
  exact absurd hmissed (by decide)

end ScuDb
