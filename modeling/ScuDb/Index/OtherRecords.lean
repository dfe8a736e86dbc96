import ScuDb.Index.Contract
import ScuDb.Index.Interpretations

/-!
The tables and indexes of a database share the header page. A tree
changes it in `UpdateRootPageId` only, and there the record with the name
of its index: whatever state a call starts in, the records with other
names are what they were.
-/

namespace ScuDb

open Foundations

variable {K V : Type}

namespace HeaderPage

/-- The table without what is recorded for one name. -/
def recordedBut (name : RecordName) (page : HeaderPage) : RecordName → Option PageId :=
  fun other => if other = name then none else page.recorded other

theorem recordedBut_append (page : HeaderPage) (name : RecordName) (rootId : PageId) :
    (⟨page.records ++ [(name, rootId)]⟩ : HeaderPage).recordedBut name =
      page.recordedBut name := by
  funext other
  unfold recordedBut recorded
  split
  · rfl
  · rename_i hne
    rw [List.find?_append]
    have hnot : ([(name, rootId)] : List (RecordName × PageId)).find? (fun r => r.1 = other) =
        none := by
      simp [Ne.symm hne]
    rw [hnot, Option.or_none]

theorem recordedBut_set (page : HeaderPage) (name : RecordName) (rootId : PageId) {i : Nat}
    {id : PageId} (hi : page.records[i]? = some (name, id)) :
    (⟨page.records.set i (name, rootId)⟩ : HeaderPage).recordedBut name =
      page.recordedBut name := by
  funext other
  unfold recordedBut recorded
  split
  · rfl
  · rename_i hne
    congr 1
    generalize page.records = records at hi
    induction records generalizing i with
    | nil => rfl
    | cons r rest ih =>
        cases i with
        | zero =>
            rw [List.getElem?_cons_zero, Option.some.injEq] at hi
            subst hi
            simp [Ne.symm hne]
        | succ i =>
            rw [List.getElem?_cons_succ] at hi
            rw [List.set_cons_succ, List.find?_cons, List.find?_cons, ih hi]

theorem insertRecord_other {page page' : HeaderPage} {name : RecordName} {rootId : PageId}
    {success : Bool} (h : page.insertRecord name rootId = .ok (success, page')) :
    page'.recordedBut name = page.recordedBut name := by
  unfold insertRecord at h
  split_ifs at h <;> cases h
  · rfl
  · exact recordedBut_append page name rootId

theorem updateRecord_other {page page' : HeaderPage} {name : RecordName} {rootId : PageId}
    {success : Bool} (h : page.updateRecord name rootId = .ok (success, page')) :
    page'.recordedBut name = page.recordedBut name := by
  unfold updateRecord at h
  split_ifs at h with _ hfind <;> cases h
  · rfl
  · rcases findRecord_eq page name with ⟨habsent, -⟩ | ⟨i, id, hi, hget, -⟩
    · exact absurd habsent hfind
    · rw [hi, Int.toNat_natCast]
      exact recordedBut_set page name rootId hget

end HeaderPage

namespace BPlusTree

/-- The records of others. -/
def otherRecords (name : RecordName) (t : BPlusTree K V) : RecordName → Option PageId :=
  t.headerPage.recordedBut name

/-- The program leaves the records of others alone. -/
abbrev Modest (name : RecordName) {α : Type} (m : TreeM K V α) : Prop :=
  Leaves (otherRecords name) m

variable (params : IndexParams K)

theorem modest_updateRootPageId (insertRecord : Bool) :
    Modest params.indexName (updateRootPageId params insertRecord : TreeM K V Unit) := by
  intro t
  simp only [updateRootPageId, wlp_bind, wlp_fetchHeaderPage, wlp_getRootPageId, wlp_get,
    wlp_ofExcept, wlp_modify, wlp_unpinPage]
  rintro ⟨success, header⟩ hheader
  change header.recordedBut params.indexName = t.headerPage.recordedBut params.indexName
  cases insertRecord with
  | true => exact HeaderPage.insertRecord_other hheader
  | false => exact HeaderPage.updateRecord_other hheader

/-- The accesses are modest, and what is made from them. -/
theorem relates_modest : Relates (M := TreeM K V) (N := TreeM K V) params fun _ m _ =>
    Modest params.indexName m where
  pure a := .pure a
  bind hm hf := hm.bind hf
  throw e := .throw e
  get := .get
  modify f h := .of_modify fun t => by rw [otherRecords, otherRecords, h]
  readPage _ _ := wlp_readPage.mpr fun _ _ => rfl
  writePage _ _ := .of_modify fun _ => rfl
  setParentPageId _ _ _ := wlp_setParentPageId.mpr fun _ _ => rfl
  fetchPage _ _ := wlp_fetchPage.mpr fun _ _ => rfl
  unpinPage _ _ := .of_modify fun _ => rfl
  newPage _ := wlp_newPage.mpr rfl
  deletePage _ := .of_modify fun _ => rfl
  getRootPageId _ := wlp_getRootPageId.mpr rfl
  setRootPageId _ := .of_modify fun _ => rfl
  asserting h := h
  releasing h := h
  updateRootPageId := modest_updateRootPageId params

/-- No call on a tree changes the record of another name. -/
theorem modest_run [Inhabited K] [Inhabited V] (op : IndexOp K V) :
    Modest params.indexName (op.run params) := by
  have h := relates_modest (V := V) params
  cases op with
  | insert key value => exact (h.insert key value true).bind fun _ => .pure _
  | remove key => exact (h.remove key true).bind fun _ => .pure _
  | getValue key result transaction =>
      exact (h.getValue key result transaction).bind fun _ => .pure _

end BPlusTree

end ScuDb
