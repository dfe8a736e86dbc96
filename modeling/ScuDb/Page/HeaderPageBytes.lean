import Mathlib.Data.List.TakeWhile
import ScuDb.Foundations.Memory
import ScuDb.Page.HeaderPage

/-!
The header page over its bytes, `header_page.cpp`.

Byte 0 holds the record count. Record `i` starts at byte `4 + i * 36`: a
name that ends with a NUL byte, over whatever an earlier record left in
the 32 bytes of the field, and the root id behind them. `Lays` connects
the bytes to the list of records, operation by operation.
-/

namespace ScuDb

open Foundations

/-- The bytes of a `HeaderPage`. -/
abbrev HeaderBytes := Memory

/-- The C string of a name ends before its first NUL byte. -/
def cStr (name : RecordName) : RecordName := name.takeWhile (· ≠ 0)

namespace HeaderBytes

/-- `memcpy` into the page; outside of it lie the fields of the frame. -/
def store (p : HeaderBytes) (offset : Nat) (bytes : List UInt8) : Except Fault HeaderBytes :=
  if offset + bytes.length ≤ pageSize then .ok (p.memcpy offset bytes) else .error .outOfBounds

def getRecordCount (p : HeaderBytes) : Int := p.getInt32 0

def setRecordCount (p : HeaderBytes) (recordCount : Int) : HeaderBytes := p.setInt32 0 recordCount

/-- `strcmp(raw_name, name.c_str()) == 0`: a comparison with the NUL byte
at the end of the name. -/
def nameEq (p : HeaderBytes) (offset : Nat) (name : RecordName) : Bool :=
  p.read offset ((cStr name).length + 1) = cStr name ++ [0]

def findRecord (p : HeaderBytes) (name : RecordName) : Int :=
  match (List.range p.getRecordCount.toNat).find? fun i => p.nameEq (4 + i * 36) name with
  | some i => i
  | none => -1

def insertRecord (p : HeaderBytes) (name : RecordName) (rootId : PageId) :
    Except Fault (Bool × HeaderBytes) :=
  if ¬name.length < 32 then .error .assertFailed
  else if ¬rootId > invalidPageId then .error .assertFailed
  else
    let recordNum := p.getRecordCount
    let offset := (4 + recordNum * 36).toNat
    if p.findRecord name ≠ -1 then .ok (false, p)
    else do
      let q ← p.store offset (name ++ [0])
      let q ← q.store (offset + 32) (Memory.int32Bytes rootId)
      .ok (true, q.setRecordCount (recordNum + 1))

def deleteRecord (p : HeaderBytes) (name : RecordName) : Except Fault (Bool × HeaderBytes) :=
  let recordNum := p.getRecordCount
  if ¬recordNum > 0 then .error .assertFailed
  else
    let index := p.findRecord name
    if index = -1 then .ok (false, p)
    else
      let offset := (index * 36 + 4).toNat
      let length := ((recordNum - index - 1) * 36).toNat
      if offset + 36 + length ≤ pageSize then
        let q : HeaderBytes := p.memmove offset (offset + 36) length
        .ok (true, q.setRecordCount (recordNum - 1))
      else .error .outOfBounds

def updateRecord (p : HeaderBytes) (name : RecordName) (rootId : PageId) :
    Except Fault (Bool × HeaderBytes) :=
  if ¬name.length < 32 then .error .assertFailed
  else
    let index := p.findRecord name
    if index = -1 then .ok (false, p)
    else do
      let q ← p.store ((index * 36 + 4).toNat + 32) (Memory.int32Bytes rootId)
      .ok (true, q)

/-- `none` when the record does not exist. -/
def getRootId (p : HeaderBytes) (name : RecordName) : Except Fault (Option PageId) :=
  if ¬name.length < 32 then .error .assertFailed
  else
    let index := p.findRecord name
    if index = -1 then .ok none
    else .ok (some (p.getInt32 ((index + 1) * 36).toNat))

/-! ### C strings -/

theorem cStr_length_le (name : RecordName) : (cStr name).length ≤ name.length :=
  (List.takeWhile_sublist _).length_le

theorem zero_not_mem_cStr (name : RecordName) : 0 ∉ cStr name := fun h => by
  simpa using List.mem_takeWhile_imp h

theorem cStr_of_no_nul {name : RecordName} (h : 0 ∉ name) : cStr name = name := by
  refine List.takeWhile_eq_self_iff.mpr fun b hb => ?_
  rw [decide_eq_true_eq]
  rintro rfl
  exact h hb

/-- What is copied of a name starts with its C string and a NUL byte. -/
theorem cStr_prefix (name : RecordName) : cStr name ++ [0] <+: name ++ [0] := by
  induction name with
  | nil => exact List.prefix_refl _
  | cons b name ih =>
      by_cases hb : b = 0
      · subst hb
        exact ⟨name ++ [0], rfl⟩
      · rw [cStr, List.takeWhile_cons_of_pos (by simpa using hb)]
        exact (List.prefix_cons_inj b).mpr ih

theorem cStr_concat_inj {name other : RecordName} (hname : 0 ∉ name) (hother : 0 ∉ other)
    {rest rest' : List UInt8} (h : name ++ 0 :: rest = other ++ 0 :: rest') : name = other := by
  induction name generalizing other with
  | nil =>
      cases other with
      | nil => rfl
      | cons b other =>
          rw [List.nil_append, List.cons_append, List.cons.injEq] at h
          exact absurd (h.1 ▸ List.mem_cons_self) hother
  | cons b name ih =>
      cases other with
      | nil =>
          rw [List.nil_append, List.cons_append, List.cons.injEq] at h
          exact absurd (h.1 ▸ List.mem_cons_self) hname
      | cons b' other =>
          rw [List.cons_append, List.cons_append, List.cons.injEq] at h
          rw [h.1, ih (fun h0 => hname (List.mem_cons_of_mem b h0))
            (fun h0 => hother (List.mem_cons_of_mem b' h0)) h.2]

/-! ### Records in the page -/

/-- The record that starts at `offset`. -/
structure RecordAt (p : HeaderBytes) (offset : Nat) (r : RecordName × PageId) : Prop where
  short : r.1.length < 32
  noNul : 0 ∉ r.1
  name : p.read offset (r.1.length + 1) = r.1 ++ [0]
  root : p.getInt32 (offset + 32) = r.2

/-- The bytes hold the records of the page, in page order. -/
structure Lays (p : HeaderBytes) (page : HeaderPage) : Prop where
  count : p.getRecordCount = page.records.length
  fits : page.records.length ≤ HeaderPage.capacity
  record : ∀ i r, page.records[i]? = some r → RecordAt p (4 + i * 36) r

variable {p q : HeaderBytes} {page : HeaderPage} {name : RecordName} {rootId : PageId}

theorem RecordAt.congr {offset offset' : Nat} {r : RecordName × PageId}
    (h : RecordAt p offset r) (hbytes : ∀ j < 36, q (offset' + j) = p (offset + j)) :
    RecordAt q offset' r := by
  have hshort := h.short
  refine ⟨h.short, h.noNul, ?_, ?_⟩
  · rw [← h.name]
    exact Memory.read_congr fun j hj => hbytes j (by omega)
  · rw [← h.root]
    refine Memory.getInt32_congr fun j hj => ?_
    rw [Nat.add_assoc, Nat.add_assoc]
    exact hbytes (32 + j) (by omega)

/-- A name is the one of a record when `strcmp` says so: both end with
their first NUL byte. -/
theorem RecordAt.nameEq_iff {offset : Nat} {r : RecordName × PageId} (h : RecordAt p offset r) :
    p.nameEq offset name = true ↔ r.1 = cStr name := by
  rw [nameEq, decide_eq_true_eq]
  constructor
  · intro hname
    have hrest := p.read_append offset (r.1.length + 1) ((cStr name).length + 1)
    have hrest' := p.read_append offset ((cStr name).length + 1) (r.1.length + 1)
    rw [h.name] at hrest
    rw [hname, Nat.add_comm, hrest, List.append_assoc, List.append_assoc] at hrest'
    exact cStr_concat_inj h.noNul (zero_not_mem_cStr name) hrest'
  · intro hname
    rw [← hname]
    exact h.name

theorem Lays.findRecord_eq (h : Lays p page) (name : RecordName) :
    p.findRecord name = page.findRecord (cStr name) := by
  have hsearch : ((List.range p.getRecordCount.toNat).find? fun i => p.nameEq (4 + i * 36) name) =
      page.records.findIdx? fun r => r.1 = cStr name := by
    rw [h.count, Int.toNat_natCast]
    cases hfind : page.records.findIdx? (fun r => r.1 = cStr name) with
    | none =>
        rw [List.findIdx?_eq_none_iff] at hfind
        refine List.find?_eq_none.mpr fun i hi hname => ?_
        have hlt := List.mem_range.mp hi
        have hrec := h.record i _ (List.getElem?_eq_getElem hlt)
        simpa [hrec.nameEq_iff.mp hname] using hfind _ (List.getElem_mem hlt)
    | some i =>
        obtain ⟨hlt, hname, hbefore⟩ := List.findIdx?_eq_some_iff_getElem.mp hfind
        refine List.find?_range_eq_some.mpr ⟨?_, by simpa using hlt, fun j hj => ?_⟩
        · exact (h.record i _ (List.getElem?_eq_getElem hlt)).nameEq_iff.mpr (by simpa using hname)
        · have hrec := h.record j _ (List.getElem?_eq_getElem (Nat.lt_trans hj hlt))
          have hne : page.records[j].1 ≠ cStr name := by simpa using hbefore j hj
          simpa using mt hrec.nameEq_iff.mp hne
  cases hfound : page.records.findIdx? fun r => r.1 = cStr name with
  | none => simp only [findRecord, HeaderPage.findRecord, hsearch, hfound]
  | some i => simp only [findRecord, HeaderPage.findRecord, hsearch, hfound]

/-! ### Operations -/

/-- The bytes and the list of records go through an operation alike. -/
def Agrees {α : Type} : Except Fault (α × HeaderBytes) → Except Fault (α × HeaderPage) → Prop
  | .ok (a, q), .ok (a', page) => a = a' ∧ Lays q page
  | .error e, .error e' => e = e'
  | _, _ => False

theorem store_inside {offset : Nat} {bytes : List UInt8} (h : offset + bytes.length ≤ pageSize) :
    p.store offset bytes = .ok (p.memcpy offset bytes) := if_pos h

theorem store_outside {offset : Nat} {bytes : List UInt8}
    (h : ¬offset + bytes.length ≤ pageSize) : p.store offset bytes = .error .outOfBounds := if_neg h

/-- A new record over whatever the bytes behind the last one are. -/
theorem Lays.append (h : Lays p page) (hroom : page.records.length < HeaderPage.capacity)
    (hname : name.length < 32) (hid : -2147483648 ≤ rootId ∧ rootId < 2147483648) :
    Lays (((p.memcpy (4 + page.records.length * 36) (name ++ [0])).setInt32
      (4 + page.records.length * 36 + 32) rootId).setInt32 0 (page.records.length + 1))
      ⟨page.records ++ [(cStr name, rootId)]⟩ := by
  have hcapacity : HeaderPage.capacity = 14 := rfl
  have hlen : (name ++ [0]).length = name.length + 1 := by
    rw [List.length_append, List.length_singleton]
  refine ⟨?_, ?_, fun i r hr => ?_⟩
  · rw [getRecordCount, Memory.getInt32_setInt32 _ _ (by omega) (by omega), List.length_append,
      List.length_singleton]
    rfl
  · rw [List.length_append, List.length_singleton]
    omega
  · rcases Nat.lt_or_ge i page.records.length with hlt | hge
    · -- an earlier record
      rw [List.getElem?_append_left hlt] at hr
      refine (h.record i r hr).congr fun j hj => ?_
      rw [Memory.setInt32_of_not_mem (by omega), Memory.setInt32_of_not_mem (by omega),
        Memory.memcpy_of_not_mem (by omega)]
    · rw [List.getElem?_append_right hge, List.getElem?_singleton] at hr
      split at hr
      · rename_i hi
        have hi : i = page.records.length := by omega
        cases hr
        subst hi
        have hle := cStr_length_le name
        refine ⟨by simp only; omega, zero_not_mem_cStr name, ?_, ?_⟩
        · obtain ⟨rest, hrest⟩ := cStr_prefix name
          have hlenrest := congrArg List.length hrest
          rw [List.length_append, List.length_append, List.length_singleton, hlen] at hlenrest
          have hread := Memory.read_memcpy p (4 + page.records.length * 36) (name ++ [0])
          rw [hlen, ← hlenrest, Memory.read_append, ← hrest] at hread
          rw [← List.append_inj_left hread (by simp)]
          refine Memory.read_congr fun j hj => ?_
          simp only at hj
          rw [Memory.setInt32_of_not_mem (by omega), Memory.setInt32_of_not_mem (by omega), hrest]
        · rw [Memory.getInt32_setInt32_of_disjoint (by omega),
            Memory.getInt32_setInt32 _ _ hid.1 hid.2]
      · cases hr

theorem Lays.insertRecord (h : Lays p page) (hname : name.length < 32)
    (hid : rootId < 2147483648) :
    Agrees (p.insertRecord name rootId) (page.insertRecord (cStr name) rootId) := by
  have hcapacity : HeaderPage.capacity = 14 := rfl
  have hpage : pageSize = 512 := rfl
  have hle := cStr_length_le name
  have hcstr : (cStr name).length < 32 := by omega
  unfold HeaderBytes.insertRecord HeaderPage.insertRecord
  simp only [hname, hcstr, not_true_eq_false, if_false, h.findRecord_eq, h.count]
  by_cases hneg : rootId > invalidPageId
  · by_cases hfound : page.findRecord (cStr name) = -1
    · simp only [hneg, hfound, not_true_eq_false, if_false, ne_eq]
      have hoffset : ((4 : Int) + page.records.length * 36).toNat =
          4 + page.records.length * 36 := by
        omega
      rw [hoffset]
      by_cases hroom : page.getRecordCount < HeaderPage.capacity
      · rw [if_pos hroom]
        rw [HeaderPage.getRecordCount] at hroom
        rw [store_inside (by simp; omega)]
        show Agrees (store _ _ _ >>= _) _
        rw [store_inside (by simp; omega)]
        have hvalid : (-2147483648 : Int) ≤ rootId :=
          Int.le_trans (by decide) (Int.le_of_lt hneg)
        exact ⟨rfl, h.append hroom hname ⟨hvalid, hid⟩⟩
      · rw [if_neg hroom]
        rw [HeaderPage.getRecordCount] at hroom
        by_cases hin : 4 + page.records.length * 36 + (name ++ [0]).length ≤ pageSize
        · rw [store_inside hin]
          show Agrees (store _ _ _ >>= _) _
          rw [store_outside (by simp; omega)]
          rfl
        · rw [store_outside hin]
          rfl
    · simp only [hneg, hfound, not_true_eq_false, if_false, ne_eq, not_false_eq_true, if_true]
      exact ⟨rfl, h⟩
  · simp only [hneg, not_false_eq_true, if_true]
    rfl

theorem Lays.eraseIdx (h : Lays p page) {i : Nat} (hi : i < page.records.length) :
    Lays ((p.memmove (i * 36 + 4) (i * 36 + 4 + 36) ((page.records.length - i - 1) * 36)).setInt32 0
      (page.records.length - 1)) ⟨page.records.eraseIdx i⟩ := by
  have hfits := h.fits
  have hcapacity : HeaderPage.capacity = 14 := rfl
  have hlen := List.length_eraseIdx_of_lt hi
  refine ⟨?_, ?_, fun j r hr => ?_⟩
  · rw [getRecordCount, Memory.getInt32_setInt32 _ _ (by omega) (by omega), hlen]
    omega
  · rw [hlen]
    omega
  · obtain ⟨hj, -⟩ := List.getElem?_eq_some_iff.mp hr
    rw [hlen] at hj
    rcases Nat.lt_or_ge j i with hlt | hge
    · rw [List.getElem?_eraseIdx_of_lt hlt] at hr
      refine (h.record j r hr).congr fun k hk => ?_
      rw [Memory.setInt32_of_not_mem (by omega), Memory.memmove_of_not_mem (by omega)]
    · rw [List.getElem?_eraseIdx_of_ge hge] at hr
      refine (h.record (j + 1) r hr).congr fun k hk => ?_
      rw [Memory.setInt32_of_not_mem (by omega), Memory.memmove_of_mem (by omega) (by omega)]
      congr 1
      omega

theorem Lays.deleteRecord (h : Lays p page) (name : RecordName) :
    Agrees (p.deleteRecord name) (page.deleteRecord (cStr name)) := by
  have hcapacity : HeaderPage.capacity = 14 := rfl
  have hpage : pageSize = 512 := rfl
  have hfits := h.fits
  unfold HeaderBytes.deleteRecord HeaderPage.deleteRecord
  simp only [h.findRecord_eq, h.count]
  by_cases hpos : page.getRecordCount > 0
  · rw [if_neg (not_not_intro hpos)]
    rw [HeaderPage.getRecordCount] at hpos
    rw [if_neg (by omega)]
    rcases HeaderPage.findRecord_eq page (cStr name) with ⟨hnone, -⟩ | ⟨i, id, hi, hget, -⟩
    · rw [if_pos hnone, if_pos hnone]
      exact ⟨rfl, h⟩
    · obtain ⟨hlt, -⟩ := List.getElem?_eq_some_iff.mp hget
      have hoffset : ((i : Int) * 36 + 4).toNat = i * 36 + 4 := by omega
      have hlength : (((page.records.length : Int) - i - 1) * 36).toNat =
          (page.records.length - i - 1) * 36 := by omega
      have hfound : ¬(i : Int) = -1 := by omega
      rw [hi, if_neg hfound, if_neg hfound, hoffset, hlength, if_pos (by omega)]
      exact ⟨rfl, h.eraseIdx hlt⟩
  · rw [if_pos hpos]
    rw [HeaderPage.getRecordCount] at hpos
    rw [if_pos (by omega)]
    rfl

theorem Lays.set (h : Lays p page) (hid : -2147483648 ≤ rootId ∧ rootId < 2147483648) {i : Nat}
    {id : PageId} (hi : page.records[i]? = some (name, id)) :
    Lays (p.setInt32 (i * 36 + 4 + 32) rootId) ⟨page.records.set i (name, rootId)⟩ := by
  obtain ⟨hlt, -⟩ := List.getElem?_eq_some_iff.mp hi
  refine ⟨?_, ?_, fun j r hr => ?_⟩
  · rw [getRecordCount, Memory.getInt32_setInt32_of_disjoint (by omega), List.length_set]
    exact h.count
  · rw [List.length_set]
    exact h.fits
  · rw [List.getElem?_set] at hr
    split at hr
    · rename_i hij
      subst hij
      cases hr
      have hold := h.record i _ hi
      refine ⟨hold.short, hold.noNul, ?_, ?_⟩
      · have hshort := hold.short
        rw [← hold.name]
        refine Memory.read_congr fun k hk => ?_
        simp only at hk hshort
        rw [Memory.setInt32_of_not_mem (by omega)]
      · rw [Nat.add_comm 4, Memory.getInt32_setInt32 _ _ hid.1 hid.2]
    · refine (h.record j r hr).congr fun k hk => ?_
      rw [Memory.setInt32_of_not_mem (by omega)]

theorem Lays.updateRecord (h : Lays p page) (hname : name.length < 32)
    (hid : -2147483648 ≤ rootId ∧ rootId < 2147483648) :
    Agrees (p.updateRecord name rootId) (page.updateRecord (cStr name) rootId) := by
  have hcapacity : HeaderPage.capacity = 14 := rfl
  have hpage : pageSize = 512 := rfl
  have hfits := h.fits
  have hle := cStr_length_le name
  have hcstr : (cStr name).length < 32 := by omega
  unfold HeaderBytes.updateRecord HeaderPage.updateRecord
  simp only [hname, hcstr, not_true_eq_false, if_false, h.findRecord_eq]
  rcases HeaderPage.findRecord_eq page (cStr name) with ⟨hnone, -⟩ | ⟨i, id, hi, hget, -⟩
  · rw [if_pos hnone, if_pos hnone]
    exact ⟨rfl, h⟩
  · obtain ⟨hlt, -⟩ := List.getElem?_eq_some_iff.mp hget
    have hoffset : ((i : Int) * 36 + 4).toNat = i * 36 + 4 := by omega
    have hfound : ¬(i : Int) = -1 := by omega
    rw [hi, if_neg hfound, if_neg hfound, hoffset, store_inside (by simp; omega)]
    exact ⟨rfl, h.set hid hget⟩

theorem Lays.getRootId (h : Lays p page) (hname : name.length < 32) :
    p.getRootId name = .ok (page.recorded (cStr name)) := by
  unfold HeaderBytes.getRootId
  simp only [hname, not_true_eq_false, if_false, h.findRecord_eq]
  rcases HeaderPage.findRecord_eq page (cStr name) with ⟨hnone, hr⟩ | ⟨i, id, hi, hget, hr⟩
  · rw [if_pos hnone, hr]
  · have hoffset : (((i : Int) + 1) * 36).toNat = 4 + i * 36 + 32 := by omega
    rw [hi, if_neg (by omega), hoffset, (h.record i _ hget).root, hr]

end HeaderBytes

end ScuDb
