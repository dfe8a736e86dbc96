import ScuDb.Common.Config
import ScuDb.Foundations.Program

/-!
The header page: the table from names of tables and indexes to the ids
of their root pages.

A page holds a record count and the records themselves, 36 bytes each:
a name of less than 32 bytes and a root id. The model keeps the list of
records in page order. What the byte layout adds to that list is its
capacity: a record written behind the last one that fits would leave the
page, and is a fault here.
-/

namespace ScuDb

/-- The name of a table or an index, as stored in a record. -/
abbrev RecordName := List UInt8

/-- The records of the header page, in page order. -/
structure HeaderPage where
  records : List (RecordName × PageId)
  deriving DecidableEq

namespace HeaderPage

/-- The number of 36-byte records behind the 4-byte count. -/
def capacity : Nat := (pageSize - 4) / 36

/-- `Init`: a page with record count zero. -/
def init : HeaderPage := ⟨[]⟩

def getRecordCount (page : HeaderPage) : Nat := page.records.length

/-- The index of the first record called `name`, `-1` when there is none. -/
def findRecord (page : HeaderPage) (name : RecordName) : Int :=
  match page.records.findIdx? (fun r => r.1 = name) with
  | some i => i
  | none => -1

def insertRecord (page : HeaderPage) (name : RecordName) (rootId : PageId) :
    Except Fault (Bool × HeaderPage) :=
  if ¬name.length < 32 then .error .assertFailed
  else if ¬rootId > invalidPageId then .error .assertFailed
  else if page.findRecord name ≠ -1 then .ok (false, page)
  else if page.getRecordCount < capacity then
    .ok (true, ⟨page.records ++ [(name, rootId)]⟩)
  else .error .outOfBounds

def deleteRecord (page : HeaderPage) (name : RecordName) :
    Except Fault (Bool × HeaderPage) :=
  if ¬page.getRecordCount > 0 then .error .assertFailed
  else if page.findRecord name = -1 then .ok (false, page)
  else .ok (true, ⟨page.records.eraseIdx (page.findRecord name).toNat⟩)

/-- Only the root id of the record is written. -/
def updateRecord (page : HeaderPage) (name : RecordName) (rootId : PageId) :
    Except Fault (Bool × HeaderPage) :=
  if ¬name.length < 32 then .error .assertFailed
  else if page.findRecord name = -1 then .ok (false, page)
  else .ok (true, ⟨page.records.set (page.findRecord name).toNat (name, rootId)⟩)

/-- `none` when the record does not exist. -/
def getRootId (page : HeaderPage) (name : RecordName) : Except Fault (Option PageId) :=
  if ¬name.length < 32 then .error .assertFailed
  else if page.findRecord name = -1 then .ok none
  else .ok (page.records[(page.findRecord name).toNat]?.map Prod.snd)

/-! ### The table a page stands for -/

/-- The id recorded for `name`. -/
def recorded (page : HeaderPage) (name : RecordName) : Option PageId :=
  (page.records.find? fun r => r.1 = name).map Prod.snd

theorem findIdx?_of_findRecord {page : HeaderPage} {name : RecordName} {i : Nat}
    (h : page.findRecord name = i) : page.records.findIdx? (fun r => r.1 = name) = some i := by
  unfold findRecord at h
  split at h
  · rename_i j hj
    rw [hj, Int.ofNat.inj h]
  · cases h

theorem findRecord_eq (page : HeaderPage) (name : RecordName) :
    page.findRecord name = -1 ∧ page.recorded name = none ∨
      ∃ (i : Nat) (id : PageId), page.findRecord name = i ∧
        page.records[i]? = some (name, id) ∧ page.recorded name = some id := by
  unfold findRecord recorded
  cases hfind : page.records.findIdx? (fun r => r.1 = name) with
  | none =>
      left
      rw [List.findIdx?_eq_none_iff] at hfind
      refine ⟨rfl, ?_⟩
      rw [List.find?_eq_none.mpr (fun r hr => by simpa using hfind r hr)]
      rfl
  | some i =>
      right
      obtain ⟨hlt, hname, hbefore⟩ := List.findIdx?_eq_some_iff_getElem.mp hfind
      have hname' : page.records[i].1 = name := by simpa using hname
      refine ⟨i, page.records[i].2, rfl, ?_, ?_⟩
      · rw [List.getElem?_eq_getElem hlt, ← hname']
      · have hsome : page.records.find? (fun r => r.1 = name) = some page.records[i] :=
          List.find?_eq_some_iff_getElem.mpr
            ⟨hname, i, hlt, rfl, fun j hj => by simpa using hbefore j hj⟩
        rw [hsome]
        rfl

theorem findRecord_eq_neg_one_iff (page : HeaderPage) (name : RecordName) :
    page.findRecord name = -1 ↔ page.recorded name = none := by
  rcases findRecord_eq page name with ⟨h, hr⟩ | ⟨i, id, h, -, hr⟩
  · simp [h, hr]
  · have : page.findRecord name ≠ -1 := by omega
    simp [this, hr]

theorem getRootId_eq {page : HeaderPage} {name : RecordName} (hname : name.length < 32) :
    page.getRootId name = .ok (page.recorded name) := by
  unfold getRootId
  rcases findRecord_eq page name with ⟨h, hr⟩ | ⟨i, id, h, hget, hr⟩
  · simp [hname, h, hr]
  · have hne : page.findRecord name ≠ -1 := by omega
    have hneg : ¬((i : Int) = -1) := by omega
    simp [hname, h, hneg, hget, hr]

/-- A name that is not there yet is recorded, in a page with room. -/
theorem insertRecord_new {page : HeaderPage} {name : RecordName} {rootId : PageId}
    (hname : name.length < 32) (hid : rootId > invalidPageId)
    (hnew : page.recorded name = none) (hroom : page.getRecordCount < capacity) :
    page.insertRecord name rootId = .ok (true, ⟨page.records ++ [(name, rootId)]⟩) := by
  have hfind := (findRecord_eq_neg_one_iff page name).mpr hnew
  simp [insertRecord, hname, hid, hfind, hroom]

/-- A name that is there already is refused, and the page stays as it is. -/
theorem insertRecord_old {page : HeaderPage} {name : RecordName} {rootId id : PageId}
    (hname : name.length < 32) (hid : rootId > invalidPageId)
    (hold : page.recorded name = some id) :
    page.insertRecord name rootId = .ok (false, page) := by
  have hfind : page.findRecord name ≠ -1 := fun h => by
    simp [(findRecord_eq_neg_one_iff page name).mp h] at hold
  simp [insertRecord, hname, hid, hfind]

theorem recorded_append (page : HeaderPage) (name : RecordName) (rootId : PageId)
    (hnew : page.recorded name = none) :
    (⟨page.records ++ [(name, rootId)]⟩ : HeaderPage).recorded name = some rootId := by
  have hnone : page.records.find? (fun r => r.1 = name) = none := by
    simpa [recorded] using hnew
  simp [recorded, List.find?_append, hnone]

/-- Updating a recorded name changes its id. -/
theorem updateRecord_spec {page : HeaderPage} {name : RecordName} (rootId : PageId)
    (hname : name.length < 32) {id : PageId} (hold : page.recorded name = some id) :
    ∃ page', page.updateRecord name rootId = .ok (true, page') ∧
      page'.recorded name = some rootId ∧ page'.getRecordCount = page.getRecordCount := by
  rcases findRecord_eq page name with ⟨-, hr⟩ | ⟨i, id', h, hget, -⟩
  · simp [hold] at hr
  · have hneg : ¬((i : Int) = -1) := by omega
    obtain ⟨hlt, hi⟩ := List.getElem?_eq_some_iff.mp hget
    refine ⟨⟨page.records.set i (name, rootId)⟩, ?_, ?_, ?_⟩
    · simp [updateRecord, hname, h, hneg]
    · obtain ⟨_, _, hbefore⟩ :=
        List.findIdx?_eq_some_iff_getElem.mp (findIdx?_of_findRecord h)
      have hsome : (page.records.set i (name, rootId)).find? (fun r => r.1 = name) =
          some (name, rootId) := by
        refine List.find?_eq_some_iff_getElem.mpr ⟨by simp, i, by simpa using hlt, by simp, ?_⟩
        intro j hj
        rw [List.getElem_set_ne (by omega)]
        simpa using hbefore j hj
      rw [recorded, hsome]
      rfl
    · simp [getRecordCount]

theorem updateRecord_absent {page : HeaderPage} {name : RecordName} (rootId : PageId)
    (hname : name.length < 32) (habsent : page.recorded name = none) :
    page.updateRecord name rootId = .ok (false, page) := by
  have hfind := (findRecord_eq_neg_one_iff page name).mpr habsent
  simp [updateRecord, hname, hfind]

end HeaderPage

end ScuDb
