import Mathlib.Data.List.AList
import Mathlib.Data.List.Perm.Basic
import ScuDb.Foundations.Refinement
import ScuDb.Page.HeaderPageBytes

/-!
The header page as a finite map from names to root ids, and where that
ends: an insertion behind the fourteenth record leaves the page.
-/

namespace ScuDb

open Foundations

/-- A call of the header page. -/
inductive HeaderOp
  | insertRecord (name : RecordName) (rootId : PageId)
  | updateRecord (name : RecordName) (rootId : PageId)
  | deleteRecord (name : RecordName)
  | getRootId (name : RecordName)

/-- What a call returns; `getRootId` also returns the id. -/
inductive HeaderResult
  | done (success : Bool)
  | root (rootId : Option PageId)
  deriving DecidableEq

/-- The names and their root ids. -/
abbrev RootIds := AList fun _ : RecordName => PageId

namespace HeaderOp

def name : HeaderOp → RecordName
  | insertRecord name _ | updateRecord name _ | deleteRecord name | getRootId name => name

/-- The call on the bytes of a page. -/
def run : HeaderOp → Program Fault HeaderBytes HeaderResult
  | insertRecord name rootId => fun p => do
      let (success, q) ← p.insertRecord name rootId
      pure (.done success, q)
  | updateRecord name rootId => fun p => do
      let (success, q) ← p.updateRecord name rootId
      pure (.done success, q)
  | deleteRecord name => fun p => do
      let (success, q) ← p.deleteRecord name
      pure (.done success, q)
  | getRootId name => fun p => do
      let rootId ← p.getRootId name
      pure (.root rootId, p)

/-- The call on a map. -/
def onMap : HeaderOp → RootIds → HeaderResult × RootIds
  | insertRecord name rootId, m =>
      if name ∈ m then (.done false, m) else (.done true, m.insert name rootId)
  | updateRecord name rootId, m =>
      if name ∈ m then (.done true, m.insert name rootId) else (.done false, m)
  | deleteRecord name, m => if name ∈ m then (.done true, m.erase name) else (.done false, m)
  | getRootId name, m => (.root (m.lookup name), m)

/-- The arguments are a name for the field and a `page_id_t`; a record is
not inserted without a valid root id. -/
def Typed : HeaderOp → Prop
  | insertRecord name rootId => name.length < 32 ∧ invalidPageId < rootId ∧ rootId < 2147483648
  | updateRecord name rootId =>
      name.length < 32 ∧ -2147483648 ≤ rootId ∧ rootId < 2147483648
  | deleteRecord name | getRootId name => name.length < 32

/-- The call is made with a name without NUL bytes, while there are no
more records than the page holds and some record to delete. -/
def May (op : HeaderOp) (m : RootIds) : Prop :=
  op.Typed ∧ 0 ∉ op.name ∧ match op with
  | insertRecord name _ => name ∈ m ∨ m.keys.length < 14
  | deleteRecord _ => 0 < m.keys.length
  | _ => True

instance : DecidablePred Typed := fun op => by
  cases op <;> (unfold Typed; infer_instance)

instance (op : HeaderOp) (m : RootIds) : Decidable (op.May m) := by
  cases op <;> (unfold May; infer_instance)

end HeaderOp

namespace HeaderPage

/-- A record as an entry of the map. -/
def entry (r : RecordName × PageId) : Sigma fun _ : RecordName => PageId := ⟨r.1, r.2⟩

/-- The records are the entries of the map, in some order. -/
def Represents (page : HeaderPage) (m : RootIds) : Prop :=
  (page.records.map entry).Perm m.entries

variable {page : HeaderPage} {m : RootIds} {name : RecordName} {rootId : PageId}

theorem Represents.length_eq (h : Represents page m) : page.records.length = m.keys.length := by
  have hlen := List.Perm.length_eq h
  rw [List.length_map] at hlen
  rw [hlen, AList.keys, List.keys, List.length_map]

theorem Represents.nodupKeys (h : Represents page m) : (page.records.map entry).NodupKeys :=
  (List.perm_nodupKeys h).mpr m.nodupKeys

theorem recorded_eq_dlookup (page : HeaderPage) (name : RecordName) :
    page.recorded name = (page.records.map entry).dlookup name := by
  unfold recorded
  induction page.records with
  | nil => rfl
  | cons r records ih =>
      rw [List.map_cons, List.find?_cons]
      by_cases hr : r.1 = name
      · subst hr
        rw [entry, List.dlookup_cons_eq]
        simp
      · rw [entry, List.dlookup_cons_ne _ _ (Ne.symm hr), ← ih]
        simp [hr]

theorem Represents.recorded_eq (h : Represents page m) (name : RecordName) :
    page.recorded name = m.lookup name := by
  rw [recorded_eq_dlookup]
  exact List.perm_dlookup name h.nodupKeys h

/-- A record is found exactly when its name is in the map. -/
theorem Represents.findRecord_cases (h : Represents page m) (name : RecordName) :
    name ∉ m ∧ page.findRecord name = -1 ∨
      name ∈ m ∧ ∃ i : Nat, i < page.records.length ∧ page.findRecord name = i ∧
        page.records.eraseIdx i = page.records.eraseP fun r => r.1 = name := by
  rcases findRecord_eq page name with ⟨hi, hr⟩ | ⟨i, id, hi, hget, hr⟩
  · rw [h.recorded_eq, AList.lookup_eq_none] at hr
    exact .inl ⟨hr, hi⟩
  · rw [h.recorded_eq] at hr
    obtain ⟨hlt, -⟩ := List.getElem?_eq_some_iff.mp hget
    refine .inr ⟨AList.lookup_isSome.mp (by rw [hr]; rfl), i, hlt, hi, ?_⟩
    rw [List.eraseP_eq_eraseIdx, findIdx?_of_findRecord hi]

theorem Represents.erase (h : Represents page m) (name : RecordName) :
    ((page.records.eraseP fun r => r.1 = name).map entry).Perm (m.entries.kerase name) := by
  have hmap : (page.records.eraseP fun r => r.1 = name).map entry =
      (page.records.map entry).kerase name := by
    induction page.records with
    | nil => rfl
    | cons r records ih =>
        by_cases hr : r.1 = name
        · subst hr
          simp [entry]
        · rw [List.eraseP_cons_of_neg (by simpa using hr), List.map_cons, List.map_cons, ih,
            List.kerase_cons_ne (Ne.symm hr)]
  rw [hmap]
  exact List.Perm.kerase h.nodupKeys h

theorem Represents.insertRecord (h : Represents page m) (hname : name.length < 32)
    (hid : invalidPageId < rootId) (hroom : name ∈ m ∨ m.keys.length < 14) :
    ∃ page', page.insertRecord name rootId = .ok (decide (name ∉ m), page') ∧
      Represents page' (HeaderOp.insertRecord name rootId |>.onMap m).2 := by
  have hvalid : rootId > invalidPageId := hid
  rcases h.findRecord_cases name with ⟨hnew, hi⟩ | ⟨hold, i, hlt, hi, -⟩
  · have hcapacity : page.getRecordCount < capacity := by
      rw [getRecordCount, h.length_eq]
      exact hroom.resolve_left hnew
    refine ⟨⟨page.records ++ [(name, rootId)]⟩, ?_, ?_⟩
    · simp [HeaderPage.insertRecord, hname, hvalid, hi, hcapacity, hnew]
    · rw [HeaderOp.onMap, if_neg hnew, Represents, List.map_append,
        AList.entries_insert_of_notMem hnew]
      exact (List.perm_append_singleton _ _).trans (List.Perm.cons _ h)
  · have hne : page.findRecord name ≠ -1 := by omega
    refine ⟨page, ?_, ?_⟩
    · simp [HeaderPage.insertRecord, hname, hvalid, hne, hold]
    · rw [HeaderOp.onMap, if_pos hold]
      exact h

theorem Represents.updateRecord (h : Represents page m) (rootId : PageId)
    (hname : name.length < 32) :
    ∃ page', page.updateRecord name rootId = .ok (decide (name ∈ m), page') ∧
      Represents page' (HeaderOp.updateRecord name rootId |>.onMap m).2 := by
  rcases h.findRecord_cases name with ⟨hnew, hi⟩ | ⟨hold, i, hlt, hi, herase⟩
  · refine ⟨page, ?_, ?_⟩
    · simp [HeaderPage.updateRecord, hname, hi, hnew]
    · rw [HeaderOp.onMap, if_neg hnew]
      exact h
  · have hne : ¬(i : Int) = -1 := by omega
    refine ⟨⟨page.records.set i (name, rootId)⟩, ?_, ?_⟩
    · simp [HeaderPage.updateRecord, hname, hi, hne, hold]
    · rw [HeaderOp.onMap, if_pos hold, Represents, AList.entries_insert]
      refine ((List.set_perm_cons_eraseIdx hlt _).map entry).trans ?_
      rw [herase, List.map_cons]
      exact List.Perm.cons _ (h.erase name)

theorem Represents.deleteRecord (h : Represents page m) (name : RecordName)
    (hpos : 0 < m.keys.length) :
    ∃ page', page.deleteRecord name = .ok (decide (name ∈ m), page') ∧
      Represents page' (HeaderOp.deleteRecord name |>.onMap m).2 := by
  have hcount : page.getRecordCount > 0 := by
    rw [getRecordCount, h.length_eq]
    exact hpos
  rcases h.findRecord_cases name with ⟨hnew, hi⟩ | ⟨hold, i, -, hi, herase⟩
  · refine ⟨page, ?_, ?_⟩
    · simp [HeaderPage.deleteRecord, hcount, hi, hnew]
    · rw [HeaderOp.onMap, if_neg hnew]
      exact h
  · have hne : ¬(i : Int) = -1 := by omega
    refine ⟨⟨page.records.eraseIdx i⟩, ?_, ?_⟩
    · simp [HeaderPage.deleteRecord, hcount, hi, hne, hold]
    · rw [HeaderOp.onMap, if_pos hold, Represents, herase]
      exact h.erase name

end HeaderPage

namespace HeaderBytes

/-- The bytes hold the entries of the map. -/
def Holds (p : HeaderBytes) (m : RootIds) : Prop := ∃ page, Lays p page ∧ page.Represents m

variable {p q : HeaderBytes} {page : HeaderPage} {m : RootIds} {name : RecordName}

theorem holds_empty (hp : p.getRecordCount = 0) : Holds p ∅ :=
  ⟨HeaderPage.init, ⟨hp, Nat.zero_le _, fun i r hr => by cases hr⟩, List.Perm.refl _⟩

theorem Holds.getRecordCount_eq (h : Holds p m) : p.getRecordCount = m.keys.length := by
  obtain ⟨page, hlays, hrep⟩ := h
  rw [hlays.count, hrep.length_eq]

theorem Holds.getRootId_eq (h : Holds p m) (hname : name.length < 32) (hnul : 0 ∉ name) :
    p.getRootId name = .ok (m.lookup name) := by
  obtain ⟨page, hlays, hrep⟩ := h
  rw [hlays.getRootId hname, cStr_of_no_nul hnul, hrep.recorded_eq]

/-- An operation of the bytes that agrees with one of the records. -/
theorem Agrees.exists_of_ok {α : Type} {r : Except Fault (α × HeaderBytes)} {a : α}
    (h : Agrees r (.ok (a, page))) : ∃ q, r = .ok (a, q) ∧ Lays q page := by
  match r, h with
  | .ok (_, q), h => exact ⟨q, by rw [h.1], h.2⟩

/-- A call that returns whether it was successful, on bytes that agree
with the records. -/
theorem Agrees.wp_done {f : HeaderBytes → Except Fault (Bool × HeaderBytes)} {success : Bool}
    (h : Agrees (f p) (.ok (success, page))) (hrep : page.Represents m) :
    wp (fun p => do
      let (success, q) ← f p
      pure (HeaderResult.done success, q)) (fun r q => r = .done success ∧ Holds q m) p := by
  obtain ⟨q, hq, hlays⟩ := h.exists_of_ok
  refine ⟨.done success, q, ?_, rfl, page, hlays, hrep⟩
  change (f p >>= fun r => pure (HeaderResult.done r.1, r.2)) = _
  rw [hq]
  rfl

theorem onMap_insertRecord (name : RecordName) (rootId : PageId) (m : RootIds) :
    ((HeaderOp.insertRecord name rootId).onMap m).1 = .done (decide (name ∉ m)) := by
  by_cases hmem : name ∈ m <;> simp [HeaderOp.onMap, hmem]

theorem onMap_updateRecord (name : RecordName) (rootId : PageId) (m : RootIds) :
    ((HeaderOp.updateRecord name rootId).onMap m).1 = .done (decide (name ∈ m)) := by
  by_cases hmem : name ∈ m <;> simp [HeaderOp.onMap, hmem]

theorem onMap_deleteRecord (name : RecordName) (m : RootIds) :
    ((HeaderOp.deleteRecord name).onMap m).1 = .done (decide (name ∈ m)) := by
  by_cases hmem : name ∈ m <;> simp [HeaderOp.onMap, hmem]

/-- A call on the bytes is the call on the map. -/
theorem refines_onMap : Refines Holds HeaderOp.May HeaderOp.run HeaderOp.onMap := by
  intro op p m ⟨page, hlays, hrep⟩ ⟨htyped, hnul, hmay⟩
  have hcstr : cStr op.name = op.name := cStr_of_no_nul hnul
  cases op with
  | insertRecord name rootId =>
      change cStr name = name at hcstr
      have hstep := hlays.insertRecord htyped.1 htyped.2.2
      obtain ⟨page', hpage, hrep'⟩ := hrep.insertRecord htyped.1 htyped.2.1 hmay
      rw [hcstr, hpage] at hstep
      rw [onMap_insertRecord]
      exact hstep.wp_done hrep'
  | updateRecord name rootId =>
      change cStr name = name at hcstr
      have hstep := hlays.updateRecord htyped.1 htyped.2
      obtain ⟨page', hpage, hrep'⟩ := hrep.updateRecord rootId htyped.1
      rw [hcstr, hpage] at hstep
      rw [onMap_updateRecord]
      exact hstep.wp_done hrep'
  | deleteRecord name =>
      change cStr name = name at hcstr
      have hstep := hlays.deleteRecord name
      obtain ⟨page', hpage, hrep'⟩ := hrep.deleteRecord name hmay
      rw [hcstr, hpage] at hstep
      rw [onMap_deleteRecord]
      exact hstep.wp_done hrep'
  | getRootId name =>
      have hroot := Holds.getRootId_eq ⟨page, hlays, hrep⟩ htyped hnul
      refine ⟨.root (m.lookup name), p, ?_, rfl, page, hlays, hrep⟩
      change (p.getRootId name >>= fun rootId => pure (HeaderResult.root rootId, p)) = _
      rw [hroot]
      rfl

theorem lookup_onMap {op : HeaderOp} {other : RecordName} (hne : other ≠ op.name) :
    (op.onMap m).2.lookup other = m.lookup other := by
  cases op with
  | insertRecord name rootId =>
      have hname : other ≠ name := hne
      rw [HeaderOp.onMap]
      split
      · rfl
      · exact AList.lookup_insert_ne hname
  | updateRecord name rootId =>
      have hname : other ≠ name := hne
      rw [HeaderOp.onMap]
      split
      · exact AList.lookup_insert_ne hname
      · rfl
  | deleteRecord name =>
      have hname : other ≠ name := hne
      rw [HeaderOp.onMap]
      split
      · exact AList.lookup_erase_ne hname
      · rfl
  | getRootId name => rfl

/-- From a page with record count 0, whatever its other bytes are, every
sequence of calls returns what the map returns; then the record count is
the number of names, the ids are those of the map, and a further call
changes no id of another name. -/
theorem header_page_is_map (p : HeaderBytes) (ops : List HeaderOp) (hp : p.getRecordCount = 0)
    (hops : Admissible HeaderOp.May HeaderOp.onMap ops ∅) :
    ∃ q, runAll HeaderOp.run ops p = .ok ((specAll HeaderOp.onMap ops ∅).1, q) ∧
      q.getRecordCount = (specAll HeaderOp.onMap ops ∅).2.keys.length ∧
      (∀ name : RecordName, name.length < 32 → 0 ∉ name →
        q.getRootId name = .ok ((specAll HeaderOp.onMap ops ∅).2.lookup name)) ∧
      ∀ op : HeaderOp, op.May (specAll HeaderOp.onMap ops ∅).2 →
        ∃ r q', op.run q = .ok (r, q') ∧
          ∀ other : RecordName, other.length < 32 → 0 ∉ other → other ≠ op.name →
            q'.getRootId other = q.getRootId other := by
  obtain ⟨rs, q, hrun, rfl, hq⟩ := refines_onMap.run (holds_empty hp) hops
  refine ⟨q, hrun, hq.getRecordCount_eq, fun name => hq.getRootId_eq, fun op hop => ?_⟩
  obtain ⟨r, q', hop', -, hq'⟩ := refines_onMap op q _ hq hop
  refine ⟨r, q', hop', fun other hlen hnul hne => ?_⟩
  rw [hq'.getRootId_eq hlen hnul, hq.getRootId_eq hlen hnul, lookup_onMap hne]

/-- Over bytes of earlier records, with a name that is deleted and
inserted again. -/
theorem header_page_is_map_over_stale_bytes :
    ∃ q, runAll HeaderOp.run
      [.insertRecord [116, 49] 1, .insertRecord [116] 2, .insertRecord [116] 3,
        .updateRecord [116, 49] 7, .deleteRecord [116, 49], .insertRecord [] 4, .getRootId [116]]
      (fun i => if i < 4 then 0 else 116) =
        .ok ([.done true, .done true, .done false, .done true, .done true, .done true,
          .root (some 2)], q) ∧ q.getRecordCount = 2 := by
  obtain ⟨q, hrun, hcount, -, -⟩ := header_page_is_map (fun i => if i < 4 then 0 else 116)
    [.insertRecord [116, 49] 1, .insertRecord [116] 2, .insertRecord [116] 3,
      .updateRecord [116, 49] 7, .deleteRecord [116, 49], .insertRecord [] 4, .getRootId [116]]
    (by decide) (by simp only [Admissible]; decide)
  exact ⟨q, hrun, hcount⟩

/-! ### The end of the page -/

/-- The pages that calls lead to, however many records there are and
whatever bytes the names have. -/
def Written (p : HeaderBytes) : Prop :=
  Reachable (fun p : HeaderBytes => p.getRecordCount = 0) (fun op _ => op.Typed) HeaderOp.run p

/-- `InsertRecord` writes inside the page, and the record count stays as
it is when it refuses. -/
def InsertsInside (p : HeaderBytes) (name : RecordName) (rootId : PageId) : Prop :=
  ∃ success q, p.insertRecord name rootId = .ok (success, q) ∧
    (success = false → q.getRecordCount = p.getRecordCount)

theorem Agrees.lays_of_ok {α : Type} {r : Except Fault (α × HeaderBytes)}
    {r' : Except Fault (α × HeaderPage)} {a : α} (h : Agrees r r') (hok : r = .ok (a, q)) :
    ∃ page, Lays q page := by
  subst hok
  match r', h with
  | .ok (_, page), h => exact ⟨page, h.2⟩

theorem Agrees.eq_error {α : Type} {r : Except Fault (α × HeaderBytes)} {e : Fault}
    (h : Agrees r (.error e)) : r = .error e := by
  match r, h with
  | .error _, h => exact congrArg Except.error h

theorem exists_of_done {f : HeaderBytes → Except Fault (Bool × HeaderBytes)} {r : HeaderResult}
    (h : (f p >>= fun a => pure (HeaderResult.done a.1, a.2)) = Except.ok (r, q)) :
    ∃ success, f p = .ok (success, q) := by
  cases hf : f p with
  | error e =>
      rw [hf] at h
      cases h
  | ok a =>
      rw [hf] at h
      cases h
      exact ⟨a.1, rfl⟩

/-- Every page that is written holds records, since a call that would
leave the page does not return. -/
theorem Written.lays (h : Written p) : ∃ page, Lays p page := by
  have hinit (p : HeaderBytes) (hp : p.getRecordCount = 0) : ∃ page, Lays p page :=
    ⟨HeaderPage.init, hp, Nat.zero_le _, fun i r hr => by cases hr⟩
  refine Reachable.invariant_of_ok hinit (fun op p r q hI htyped hrun => ?_) h
  obtain ⟨page, hlays⟩ := hI
  cases op with
  | insertRecord name rootId =>
      obtain ⟨success, hq⟩ := exists_of_done (f := fun p => p.insertRecord name rootId) hrun
      exact (hlays.insertRecord htyped.1 htyped.2.2).lays_of_ok hq
  | updateRecord name rootId =>
      obtain ⟨success, hq⟩ := exists_of_done (f := fun p => p.updateRecord name rootId) hrun
      exact (hlays.updateRecord htyped.1 htyped.2).lays_of_ok hq
  | deleteRecord name =>
      obtain ⟨success, hq⟩ := exists_of_done (f := fun p => p.deleteRecord name) hrun
      exact (hlays.deleteRecord name).lays_of_ok hq
  | getRootId name =>
      change (p.getRootId name >>= fun rootId => pure (HeaderResult.root rootId, p)) = _ at hrun
      rw [hlays.getRootId htyped] at hrun
      cases hrun
      exact ⟨page, hlays⟩

/-- An insertion stays inside the page exactly when its name is there or
fewer than fourteen records are. -/
theorem insertRecord_inside_iff {p : HeaderBytes} (hp : Written p) {name : RecordName}
    {rootId : PageId} (hop : (HeaderOp.insertRecord name rootId).Typed) :
    p.InsertsInside name rootId ↔ p.findRecord name ≠ -1 ∨ p.getRecordCount < 14 := by
  obtain ⟨page, hlays⟩ := hp.lays
  obtain ⟨hname, hvalid, hid⟩ := hop
  have hstep := hlays.insertRecord hname hid
  have hle := cStr_length_le name
  have hcstr : (cStr name).length < 32 := by omega
  have hcapacity : HeaderPage.capacity = 14 := rfl
  have hcount := hlays.count
  rw [hlays.findRecord_eq]
  by_cases hfound : page.findRecord (cStr name) = -1
  · by_cases hroom : page.getRecordCount < HeaderPage.capacity
    · rw [HeaderPage.insertRecord_new hcstr hvalid
        ((HeaderPage.findRecord_eq_neg_one_iff page _).mp hfound) hroom] at hstep
      obtain ⟨q, hq, -⟩ := hstep.exists_of_ok
      rw [HeaderPage.getRecordCount] at hroom
      exact ⟨fun _ => .inr (by omega), fun _ => ⟨true, q, hq, fun h => by cases h⟩⟩
    · have hfull : page.insertRecord (cStr name) rootId = .error .outOfBounds := by
        have hgt : rootId > invalidPageId := hvalid
        simp [HeaderPage.insertRecord, hcstr, hgt, hfound, hroom]
      rw [hfull] at hstep
      rw [HeaderPage.getRecordCount] at hroom
      constructor
      · intro hinside
        obtain ⟨success, q, hok, -⟩ := hinside
        rw [hstep.eq_error] at hok
        cases hok
      · intro h
        omega
  · obtain ⟨i, id, hi, -, hr⟩ := (HeaderPage.findRecord_eq page (cStr name)).resolve_left
      fun h => hfound h.1
    rw [HeaderPage.insertRecord_old hcstr hvalid hr] at hstep
    obtain ⟨q, hq, hlays'⟩ := hstep.exists_of_ok
    exact ⟨fun _ => .inl hfound, fun _ => ⟨false, q, hq, fun _ => by rw [hlays'.count, hcount]⟩⟩

/-- The calls that record the letters from `a` to `n`. -/
def letters : List HeaderOp :=
  (List.range 14).map fun i => .insertRecord [UInt8.ofNat (97 + i)] (i + 1)

/-- One of fourteen names is removed and another one takes its place: a
name that is there is refused, and there is no room for a new one. -/
theorem insertRecord_inside_iff_first : ∃ p, Written p ∧ p.getRecordCount = 14 ∧
    p.getRootId [98] = .ok (some 30) ∧ p.InsertsInside [98] 20 ∧ ¬p.InsertsInside [99] 3 := by
  have hrun : ((checkedRun (fun op _ => decide op.Typed) HeaderOp.run
      (letters ++ [.updateRecord [98] 30, .deleteRecord [99], .insertRecord [120] 24])
      (fun i => if i < 4 then 0 else 116 : HeaderBytes)).any fun p => p.getRecordCount = 14 ∧
        p.getRootId [98] = .ok (some 30) ∧ p.findRecord [98] ≠ -1 ∧ p.findRecord [99] = -1) =
      true := by
    decide +kernel
  have hempty : Written (fun i => if i < 4 then 0 else 116) := .start (by decide)
  obtain ⟨p, hp, heval⟩ := exists_reachable_of_eval hempty _
    (fun op p hop => of_decide_eq_true hop) _ hrun
  obtain ⟨hcount, hroot, hthere, hnew⟩ := of_decide_eq_true heval
  refine ⟨p, hp, hcount, hroot, (insertRecord_inside_iff hp (by decide)).mpr (.inl hthere), ?_⟩
  intro hinside
  rcases (insertRecord_inside_iff hp (by decide)).mp hinside with hfound | hroom
  · exact hfound hnew
  · omega

/-- Fourteen names fill the page, and the next is written behind its
end. -/
theorem fifteenth_record_outside :
    ∃ p, Written p ∧ (HeaderOp.insertRecord [111] 15).Typed ∧ ¬p.InsertsInside [111] 15 := by
  have hrun : ((checkedRun (fun op _ => decide op.Typed) HeaderOp.run letters
      (fun _ => 0 : HeaderBytes)).any fun p => !(p.insertRecord [111] 15).isOk) = true := by
    decide +kernel
  have hempty : Written (fun _ => 0) := .start (by decide)
  obtain ⟨p, hp, hfault⟩ := exists_reachable_of_eval hempty _
    (fun op p hop => of_decide_eq_true hop) _ hrun
  refine ⟨p, hp, by decide, fun hinside => ?_⟩
  obtain ⟨success, q, hok, -⟩ := hinside
  rw [hok] at hfault
  cases hfault

end HeaderBytes

end ScuDb
