import ScuDb.Foundations.Refinement
import ScuDb.Concurrency.TransactionManager
import ScuDb.Table.TableScan

/-!
Taking back what a transaction has done.

An abort undoes the calls from the last one on. What it cannot undo is the
growth of a slot directory, so before a call is undone every page holds the
tuples it held after the call, but may have more slots. This matters to
`UpdateTuple` only: it puts a longer tuple back only if the free space has
not been used up by those slots.
-/

namespace ScuDb

open Foundations

/-- A call of the transaction. -/
inductive TxnCall
  | insertTuple (tuple : List UInt8)
  | updateTuple (tuple : List UInt8) (rid : RID)
  | markDelete (rid : RID)

namespace TxnCall

open TablePage

/-- The `RID` of the tuple when the call succeeds. -/
def run : TxnCall → Program Fault (TableHeap × Transaction) (Option RID)
  | insertTuple tuple => fun s => do
      let (rid, h, txn) ← s.1.insertTuple tuple s.2
      pure (rid, (h, txn))
  | updateTuple tuple rid => fun s => do
      let (isUpdated, h, txn) ← s.1.updateTuple tuple rid s.2
      pure (if isUpdated then some rid else none, (h, txn))
  | markDelete rid => fun s =>
      let (isMarked, h, txn) := s.1.markDelete rid s.2
      .ok (if isMarked then some rid else none, (h, txn))

/-- A tuple to be stored is not empty, an update is of a `RID` of the
table, and a tuple that is deleted is visible. -/
def Allowed : TxnCall → TableHeap → Prop
  | insertTuple _, _ => True
  | updateTuple tuple rid, h => tuple ≠ [] ∧ ∃ p, h.pages rid.pageId = some p
  | markDelete rid, h => ∃ bytes, h.getTuple rid = some bytes

instance : (call : TxnCall) → (h : TableHeap) → Decidable (call.Allowed h)
  | insertTuple _, _ => isTrue trivial
  | updateTuple tuple rid, h =>
      decidable_of_iff (tuple ≠ [] ∧ (h.pages rid.pageId).isSome = true)
        (and_congr_right' Option.isSome_iff_exists)
  | markDelete rid, h =>
      decidable_of_iff ((h.getTuple rid).isSome = true) Option.isSome_iff_exists

/-- An update leaves no tuple behind that is marked as deleted. If it makes
a tuple shorter, the page has room for all slots that it gets until the
table is as `final`. -/
def Undoable : TxnCall → TableHeap → TableHeap → Prop
  | updateTuple tuple rid, h, final => h.KeepsOffsets tuple rid ∧
      ∀ p f old, h.pages rid.pageId = some p → final.pages rid.pageId = some f →
        p.slotAt rid.slotNum = some ⟨false, old⟩ → tuple.length < old.length →
        8 * (f.getTupleCount - p.getTupleCount) ≤ p.getFreeSpaceSize
  | _, _, _ => True

instance : (call : TxnCall) → (h final : TableHeap) → Decidable (call.Undoable h final)
  | updateTuple tuple rid, h, final =>
      decidable_of_iff (h.KeepsOffsets tuple rid ∧
        ∀ p ∈ h.pages rid.pageId, ∀ f ∈ final.pages rid.pageId, ∀ old,
          p.slotAt rid.slotNum = some ⟨false, old⟩ → tuple.length < old.length →
          8 * (f.getTupleCount - p.getTupleCount) ≤ p.getFreeSpaceSize)
        (and_congr_right' ⟨fun h p f old hp hf => h p hp f hf old,
          fun h p hp f hf old => h p f old hp hf⟩)
  | insertTuple _, _, _ | markDelete _, _, _ => isTrue trivial

end TxnCall

namespace TransactionManager

open TableHeap TablePage

/-- The page `q` is what the abort makes of the page there was, if there
was one. -/
def PageRestored : Option TablePage → TablePage → Prop
  | some p, q => SameTuples p q
  | none, q => q.slotAt = fun _ => none

/-- `g` holds the tuples of `h` and has the pages and slots of `final`. -/
structure Restored (h final g : TableHeap) (ids : List PageId) : Prop where
  chained : Chained g ids
  counts : ∀ id q, g.pages id = some q →
    ∃ f, final.pages id = some f ∧ q.getTupleCount = f.getTupleCount
  pages : ∀ id p, h.pages id = some p → ∃ q, g.pages id = some q
  restored : ∀ id q, g.pages id = some q → PageRestored (h.pages id) q

variable {h h₁ final g : TableHeap} {ids ids' : List PageId} {id : PageId} {p q gq : TablePage}

theorem Restored.refl (hh : Chained h ids) : Restored h h h ids := by
  constructor
  case chained => exact hh
  case counts => exact fun id q hq => ⟨q, hq, rfl⟩
  case pages => exact fun id p hp => ⟨p, hp⟩
  case restored =>
    intro id q hq
    rw [hq]
    exact SameTuples.refl q

theorem Restored.page (hr : Restored h final g ids) (hp : h.pages id = some p) :
    ∃ q, g.pages id = some q ∧ SameTuples p q := by
  obtain ⟨q, hq⟩ := hr.pages id p hp
  have hsame := hr.restored id q hq
  rw [hp] at hsame
  exact ⟨q, hq, hsame⟩

theorem Restored.page_self (hr : Restored (h.setPage id q) final g ids) :
    ∃ gq, g.pages id = some gq ∧ SameTuples q gq := by
  apply hr.page
  rw [setPage_pages, if_pos rfl]

theorem Restored.contents (hr : Restored h final g ids) : g.contents = h.contents := by
  funext rid
  cases hq : g.pages rid.pageId with
  | some q =>
      have hsame := hr.restored _ q hq
      rw [contents_of_pages hq]
      cases hp : h.pages rid.pageId with
      | some p =>
          rw [hp] at hsame
          rw [contents_of_pages hp, hsame.slotAt]
      | none =>
          rw [hp] at hsame
          rw [TableHeap.contents, hp, hsame]
          rfl
  | none =>
      cases hp : h.pages rid.pageId with
      | some p =>
          obtain ⟨q, hq'⟩ := hr.pages _ p hp
          rw [hq] at hq'
          cases hq'
      | none => rw [TableHeap.contents, TableHeap.contents, hp, hq]

/-- What was done to one page is undone. -/
theorem Restored.undo {g' : TablePage} (hr : Restored (h.setPage id q) final g ids)
    (hp : h.pages id = some p) (hg : g.pages id = some gq) (hlayout : Layout g')
    (hheader : ∀ x < 16, g' x = gq x) (hcount : g'.getTupleCount = gq.getTupleCount)
    (hsame : SameTuples p g') : Restored h final (g.setPage id g') ids := by
  constructor
  case chained => exact hr.chained.setPage hg hlayout hheader
  case counts =>
    intro x r hx
    rw [setPage_pages] at hx
    split at hx
    case isTrue heq =>
      cases hx
      rw [heq, hcount]
      exact hr.counts id gq hg
    case isFalse => exact hr.counts x r hx
  case pages =>
    intro x r hx
    rw [setPage_pages]
    split
    case isTrue => exact ⟨g', rfl⟩
    case isFalse heq =>
      apply hr.pages x r
      rw [setPage_pages, if_neg heq]
      exact hx
  case restored =>
    intro x r hx
    rw [setPage_pages] at hx
    split at hx
    case isTrue heq =>
      cases hx
      rw [heq, hp]
      exact hsame
    case isFalse heq =>
      have hother := hr.restored x r hx
      rw [setPage_pages, if_neg heq] at hother
      exact hother

/-- Pages that were added to the chain do no harm. -/
theorem Restored.grown (hr : Restored h₁ final g ids) (hh : Chained h ids')
    {ids₁ : List PageId} (hgrown : Grown h ids' h₁ ids₁) : Restored h final g ids := by
  constructor
  case chained => exact hr.chained
  case counts => exact hr.counts
  case pages =>
    intro x p hp
    obtain ⟨p', hp', -⟩ := hgrown.old x p hp
    exact hr.pages x p' hp'
  case restored =>
    intro x q hq
    have hsame := hr.restored x q hq
    cases hp : h.pages x with
    | some p =>
        obtain ⟨p', hp', hbut⟩ := hgrown.old x p hp
        rw [hp'] at hsame
        exact (hbut.sameTuples (hh.layout hp)).trans hsame
    | none =>
        cases hp' : h₁.pages x with
        | none =>
            rw [hp'] at hsame
            exact hsame
        | some p' =>
            rw [hp'] at hsame
            obtain ⟨p, prev, rfl⟩ := hgrown.new x p' hp hp'
            show q.slotAt = fun _ => none
            rw [hsame.slotAt]
            funext i
            exact slotAt_init _ _ _ i

/-! ### One call -/

/-- What one call does, and that it can be undone once everything after it
has been. -/
structure CallUndone (h final h₁ : TableHeap) (txn txn₁ : Transaction) (ids₁ : List PageId)
    (item : WriteRecord) : Prop where
  chained : Chained h₁ ids₁
  writeSet : txn₁.writeSet = item :: txn.writeSet
  state : txn₁.state = txn.state
  stays : ∀ rid, h₁.contents rid = none → h.contents rid = none
  inserted : item.wtype = .insert → h.contents item.rid = none
  undo : ∀ g idsF txnA, Restored h₁ final g idsF →
    ∃ g', undo txnA item g = .ok g' ∧ Restored h final g' idsF

variable {txn : Transaction} {rid : RID} {tuple : List UInt8}

theorem applyDelete_eq {i : Nat} {g' : TablePage} (hg : g.pages id = some gq)
    (hrun : gq.applyDelete i = .ok g') : g.applyDelete ⟨id, i⟩ = .ok (g.setPage id g') := by
  rw [TableHeap.applyDelete, hg]
  simp only [hrun, bind, Except.bind]

theorem rollbackDelete_eq {i : Nat} {g' : TablePage} (hg : g.pages id = some gq)
    (hrun : gq.rollbackDelete i = .ok g') : g.rollbackDelete ⟨id, i⟩ = .ok (g.setPage id g') := by
  rw [TableHeap.rollbackDelete, hg]
  simp only [hrun, bind, Except.bind]

theorem stays_of_update {v : Option StoredTuple}
    (hcontents : h₁.contents = Function.update h.contents rid v) (hv : v ≠ none) (r : RID)
    (hr : h₁.contents r = none) : h.contents r = none := by
  rw [hcontents, Function.update_apply] at hr
  split at hr
  case isTrue => exact absurd hr hv
  case isFalse => exact hr

theorem insertTuple_undone (hh : Chained h ids) (hne : tuple ≠ [])
    (hins : Inserted h ids tuple rid h₁ ids') :
    CallUndone h final h₁ txn (txn.emplaceBack rid .insert []) ids' ⟨rid, .insert, []⟩ := by
  obtain ⟨hchained, hfree, hcontents⟩ := hins.spec hh hne
  constructor
  case chained => exact hchained
  case writeSet => rfl
  case state => rfl
  case stays => exact stays_of_update hcontents (Option.some_ne_none _)
  case inserted => exact fun _ => hfree
  case undo =>
    intro g idsF txnA hr
    obtain ⟨h₂, p, q, hgrown, -, hp, hrun, rfl⟩ := hins
    have hlayout := hgrown.chained.layout hp
    obtain ⟨gq, hg, hsame⟩ := hr.page_self
    rcases TablePage.insertTuple_cases hlayout.count hlayout.free hne with ⟨hrefuse, -⟩ |
      ⟨i, q', hrun', hstored⟩
    · rw [hrefuse] at hrun
      cases hrun
    · rw [hrun] at hrun'
      cases hrun'
      obtain ⟨g', hundo, hlayout', hsame', hcount, hheader⟩ :=
        hstored.undo hlayout hne (hr.chained.layout hg) hsame
      refine ⟨g.setPage rid.pageId g', applyDelete_eq hg hundo, ?_⟩
      exact (hr.undo hp hg hlayout' hheader hcount hsame').grown hh hgrown

theorem markDelete_undone (hh : Chained h ids) (hp : h.pages rid.pageId = some p)
    (hlive : ∃ old, p.slotAt rid.slotNum = some ⟨false, old⟩) :
    CallUndone h final (h.setPage rid.pageId (p.markDelete rid.slotNum).2) txn
      (txn.emplaceBack rid .delete []) ids ⟨rid, .delete, []⟩ := by
  obtain ⟨-, hchained, hcontents⟩ := TableHeap.markDelete_spec hh hp txn
  constructor
  case chained => exact hchained
  case writeSet => rfl
  case state => rfl
  case stays =>
    obtain ⟨old, hold⟩ := hlive
    apply stays_of_update hcontents
    rw [contents_of_pages hp, hold]
    exact Option.some_ne_none _
  case inserted => exact fun hw => by cases hw
  case undo =>
    intro g idsF txnA hr
    obtain ⟨gq, hg, hsame⟩ := hr.page_self
    obtain ⟨g', hundo, hlayout', hsame', hcount, hheader⟩ :=
      markDelete_undo (hh.layout hp) hlive (hr.chained.layout hg) hsame
    exact ⟨g.setPage rid.pageId g', rollbackDelete_eq hg hundo,
      hr.undo hp hg hlayout' hheader hcount hsame'⟩

theorem updateTuple_undone {old : List UInt8} (hh : Chained h ids) (hne : tuple ≠ [])
    (hup : Updated h tuple rid p old q) (hundo : (TxnCall.updateTuple tuple rid).Undoable h final) :
    CallUndone h final (h.setPage rid.pageId q) txn (txn.emplaceBack rid .update old) ids
      ⟨rid, .update, old⟩ := by
  obtain ⟨hchained, hold, hcontents⟩ := hup.spec hh
  have hp := hup.page
  have hlayout := hh.layout hp
  have hocc := occupied_of_slotAt hup.live
  have hlen : old.length = p.tupleLength rid.slotNum := slotAt_length hup.live
  have hsign := (slotAt_deleted hup.live).not.mp Bool.false_ne_true
  have hmarked := hundo.1 p hp old hup.live hup.room
  have hslid : Slid p q rid.slotNum tuple := by
    have hsize : p.getTupleSize rid.slotNum = old.length := by
      rw [tupleLength] at hlen
      omega
    have hroom := hup.room
    have hneq := hocc.2
    obtain ⟨q', hrun, hslid⟩ := updateTuple_slid hlayout hocc (by omega) (by omega) hmarked
    rw [hup.run] at hrun
    cases hrun
    exact hslid
  constructor
  case chained => exact hchained
  case writeSet => rfl
  case state => rfl
  case stays =>
    apply stays_of_update hcontents
    rw [if_neg hne]
    exact Option.some_ne_none _
  case inserted => exact fun hw => by cases hw
  case undo =>
    intro g idsF txnA hr
    obtain ⟨gq, hg, hsame⟩ := hr.page_self
    obtain ⟨f, hf, hcountf⟩ := hr.counts _ gq hg
    have hlayoutg := hr.chained.layout hg
    have hroom : (old.length : Int) ≤ gq.getFreeSpaceSize + tuple.length := by
      have hfree := hslid.free
      have hfreeg := hsame.free
      have hdir := hlayoutg.directory
      rw [getFreeSpaceSize]
      by_cases hshort : tuple.length < old.length
      · have hslots := hundo.2 p f old hp hf hup.live hshort
        rw [getFreeSpaceSize] at hslots
        omega
      · omega
    obtain ⟨g', hrun, hlayout', hsame', hcount, hheader⟩ :=
      hslid.undo hlayout hup.live hne hmarked hup.layout hlayoutg hsame hroom
    refine ⟨g.setPage rid.pageId g', ?_, hr.undo hp hg hlayout' hheader hcount hsame'⟩
    show (do
      let (_, h, _) ← g.updateTuple old rid txnA
      .ok h : Except Fault TableHeap) = _
    rw [TableHeap.updateTuple, hg]
    simp only [hrun, bind, Except.bind]

theorem call_undone {call : TxnCall} {r : Option RID} {txn₁ : Transaction} (hh : Chained h ids)
    (hrun : call.run (h, txn) = .ok (r, (h₁, txn₁))) (hr : r.isSome = true)
    (hstate : txn.state ≠ .aborted) (hop : call.Allowed h) (hundo : call.Undoable h final) :
    ∃ ids₁ item, CallUndone h final h₁ txn txn₁ ids₁ item := by
  cases call with
  | insertTuple tuple =>
      simp only [TxnCall.run] at hrun
      cases hins : h.insertTuple tuple txn with
      | error e =>
          rw [hins] at hrun
          cases hrun
      | ok y =>
          rw [hins] at hrun
          cases hrun
          rcases insertTuple_ok hh hins with ⟨-, rfl⟩ | ⟨rid, h', ids', hne, rfl, hdone⟩
          · cases hr
          · exact ⟨ids', _, insertTuple_undone hh hne hdone⟩
  | updateTuple tuple rid =>
      obtain ⟨hne, p, hp⟩ := hop
      simp only [TxnCall.run] at hrun
      rcases updateTuple_cases hh (hh.only _ p hp) hundo.1 txn with
        href | ⟨p, old, q, hup, hmade⟩
      · rw [href] at hrun
        cases hrun
        cases hr
      · rw [hmade, if_pos hstate] at hrun
        cases hrun
        exact ⟨ids, _, updateTuple_undone hh hne hup hundo⟩
  | markDelete rid =>
      obtain ⟨bytes, hbytes⟩ := hop
      obtain ⟨p, hp, hlive⟩ := exists_page_of_contents (getTuple_eq_some_iff.mp hbytes)
      obtain ⟨hmark, -⟩ := TableHeap.markDelete_spec hh hp txn
      simp only [TxnCall.run, hmark] at hrun
      cases hrun
      exact ⟨ids, _, markDelete_undone hh hp ⟨bytes, hlive⟩⟩

/-! ### All calls -/

theorem rollback_append (txn : Transaction) (items items' : List WriteRecord) (h : TableHeap) :
    rollback txn (items ++ items') h = rollback txn items h >>= rollback txn items' := by
  induction items generalizing h with
  | nil => rfl
  | cons item items ih =>
      show (undo txn item h >>= fun h => rollback txn (items ++ items') h) =
        (undo txn item h >>= fun h => rollback txn items h) >>= rollback txn items'
      simp only [ih, bind_assoc]

/-- The conditions of a run, each in the state its call is made in. -/
def Conditions (final : TableHeap) (calls : List TxnCall) (s : TableHeap × Transaction) : Prop :=
  ∀ before call after rs s₁, calls = before ++ call :: after →
    runAll TxnCall.run before s = .ok (rs, s₁) → call.Allowed s₁.1 ∧ call.Undoable s₁.1 final

/-- The records of a run are undone, from the last one on. -/
theorem rollback_spec (calls : List TxnCall) :
    ∀ (h : TableHeap) (ids : List PageId) (txn txn' : Transaction) (rs : List (Option RID)),
      runAll TxnCall.run calls (h, txn) = .ok (rs, (final, txn')) → Chained h ids →
      txn.state ≠ .aborted → (∀ r ∈ rs, r.isSome = true) → Conditions final calls (h, txn) →
      ∃ items idsF, txn'.writeSet = items ++ txn.writeSet ∧ txn'.state = txn.state ∧
        (∀ item ∈ items, item.wtype = .insert → h.contents item.rid = none) ∧
        ∀ txnA, ∃ g, rollback txnA items final = .ok g ∧ Restored h final g idsF := by
  induction calls with
  | nil =>
      intro h ids txn txn' rs hrun hh _ _ _
      cases hrun
      exact ⟨[], ids, rfl, rfl, fun item hitem => absurd hitem List.not_mem_nil,
        fun txnA => ⟨_, rfl, Restored.refl hh⟩⟩
  | cons call calls ih =>
      intro h ids txn txn' rs hrun hh hstate hsucc hcond
      obtain ⟨r, ⟨h₁, txn₁⟩, rs', hcall, hrest, rfl⟩ := runAll_cons_ok hrun
      obtain ⟨hop, hundo⟩ := hcond [] call calls [] (h, txn) rfl rfl
      obtain ⟨ids₁, item, hdone⟩ :=
        call_undone hh hcall (hsucc r List.mem_cons_self) hstate hop hundo
      have hcond₁ : Conditions final calls (h₁, txn₁) := by
        intro before call' after rs₁ s₁ heq hbefore
        exact hcond (call :: before) call' after (r :: rs₁) s₁ (by rw [heq, List.cons_append])
          (runAll_cons_of_ok hcall hbefore)
      have hstate₁ : txn₁.state ≠ .aborted := by
        rw [hdone.state]
        exact hstate
      obtain ⟨items, idsF, hset, hstate', hinserted, hback⟩ := ih h₁ ids₁ txn₁ txn' rs' hrest
        hdone.chained hstate₁ (fun r' hr' => hsucc r' (List.mem_cons_of_mem r hr')) hcond₁
      refine ⟨items ++ [item], idsF, ?_, hstate'.trans hdone.state, ?_, fun txnA => ?_⟩
      · rw [hset, hdone.writeSet, List.append_assoc]
        rfl
      · intro item' hitem' hw
        rcases List.mem_append.mp hitem' with hitem' | hitem'
        · exact hdone.stays _ (hinserted item' hitem' hw)
        · rw [List.mem_singleton.mp hitem'] at hw ⊢
          exact hdone.inserted hw
      · obtain ⟨g, hg, hrestored⟩ := hback txnA
        obtain ⟨g', hg', hrestored'⟩ := hdone.undo g idsF txnA hrestored
        refine ⟨g', ?_, hrestored'⟩
        rw [rollback_append, hg]
        show (undo txnA item g >>= fun h => rollback txnA [] h) = _
        rw [hg']
        rfl

/-- An abort after calls that all succeeded and meet the conditions ends,
and leaves every tuple that was visible visible with the same bytes, and
none that the transaction has inserted. -/
theorem abort_restores {h final : TableHeap} {ids : List PageId} {calls : List TxnCall}
    {rs : List (Option RID)} {txn : Transaction} (hh : Chained h ids)
    (hrun : runAll TxnCall.run calls (h, start) = .ok (rs, (final, txn)))
    (hsucc : ∀ r ∈ rs, r.isSome = true) (hcond : Conditions final calls (h, start)) :
    ∃ g, abort final txn = .ok (g, ⟨.aborted, []⟩) ∧
      (∀ rid bytes, h.getTuple rid = some bytes → g.getTuple rid = some bytes) ∧
      ∀ item ∈ txn.writeSet, item.wtype = .insert → g.getTuple item.rid = none := by
  have hstate : start.state ≠ .aborted := by decide
  obtain ⟨items, idsF, hset, -, hinserted, hback⟩ :=
    rollback_spec calls h ids start txn rs hrun hh hstate hsucc hcond
  rw [show start.writeSet = [] from rfl, List.append_nil] at hset
  obtain ⟨g, hg, hrestored⟩ := hback (txn.setState .aborted)
  have hcontents := hrestored.contents
  refine ⟨g, ?_, ?_, ?_⟩
  · rw [abort, hset, hg]
    rfl
  · intro rid bytes hbytes
    rw [TableHeap.getTuple_eq, hcontents, ← TableHeap.getTuple_eq]
    exact hbytes
  · intro item hitem hw
    rw [hset] at hitem
    rw [TableHeap.getTuple_eq, hcontents, hinserted item hitem hw]
    rfl

theorem conditions_of_checkedRun {final : TableHeap} {calls : List TxnCall}
    {s : TableHeap × Transaction}
    (heval : (checkedRun (fun call s => decide (call.Allowed s.1 ∧ call.Undoable s.1 final))
      TxnCall.run calls s).isSome = true) : Conditions final calls s := by
  rintro before call after rs s₁ rfl hbefore
  have hmet := check_of_checkedRun heval hbefore
  exact of_decide_eq_true hmet

/-- In a table with a tuple on its first and two on its second page, the
first one is deleted, the others get longer and shorter, and a new one is
put next to them. -/
theorem abort_restores_inserted : ∃ (h final g : TableHeap) (txn : Transaction),
    (h.getTuple ⟨1, 0⟩).map List.length = some 470 ∧
    [⟨2, 0⟩, ⟨2, 1⟩, ⟨2, 2⟩].map h.getTuple = [some [1, 2, 3], some [4, 5, 6], none] ∧
    [⟨1, 0⟩, ⟨2, 0⟩, ⟨2, 1⟩, ⟨2, 2⟩].map final.getTuple =
      [none, some [7, 7, 7, 7], some [9], some [8, 8, 8]] ∧
    abort final txn = .ok (g, ⟨.aborted, []⟩) ∧
    [⟨1, 0⟩, ⟨2, 0⟩, ⟨2, 1⟩, ⟨2, 2⟩].map g.getTuple =
      [h.getTuple ⟨1, 0⟩, some [1, 2, 3], some [4, 5, 6], none] := by
  obtain ⟨calls, hcalls⟩ : ∃ calls : List TxnCall, calls =
    [.updateTuple [9] ⟨2, 1⟩, .insertTuple [8, 8, 8], .updateTuple [7, 7, 7, 7] ⟨2, 0⟩,
      .markDelete ⟨1, 0⟩] := ⟨_, rfl⟩
  obtain ⟨s, hs, heval⟩ := exists_made
    (fun op s => op.Allowed s.heap ∧ op.KeepsOffsets s.heap)
    [.insertTuple (List.replicate 470 7) ⟨.growing, []⟩, .insertTuple [1, 2, 3] ⟨.growing, []⟩,
      .insertTuple [4, 5, 6] ⟨.growing, []⟩]
    (fun s => (s.heap.getTuple ⟨1, 0⟩).map List.length = some 470 ∧
      [⟨2, 0⟩, ⟨2, 1⟩, ⟨2, 2⟩].map s.heap.getTuple = [some [1, 2, 3], some [4, 5, 6], none] ∧
      (runAll TxnCall.run calls (s.heap, start)).toOption.any fun y =>
        y.1.all Option.isSome ∧
        [⟨1, 0⟩, ⟨2, 0⟩, ⟨2, 1⟩, ⟨2, 2⟩].map y.2.1.getTuple =
          [none, some [7, 7, 7, 7], some [9], some [8, 8, 8]] ∧
        ⟨⟨2, 2⟩, .insert, []⟩ ∈ y.2.2.writeSet ∧
        (checkedRun (fun call s => decide (call.Allowed s.1 ∧ call.Undoable s.1 y.2.1)) TxnCall.run
          calls (s.heap, start)).isSome)
    (by rw [hcalls]; decide +kernel)
  obtain ⟨hlength, hbefore, heval⟩ := of_decide_eq_true heval
  obtain ⟨⟨rs, final, txn⟩, hrun, heval⟩ := exists_ok_of_any heval
  obtain ⟨hsucc, hfinal, hinserted, hchecked⟩ := of_decide_eq_true heval
  obtain ⟨ids, hh, -⟩ := HeapOp.holds_of_reachable (by decide) hs
  obtain ⟨g, hg, hback, hgone⟩ := abort_restores hh hrun (List.all_eq_true.mp hsucc)
    (conditions_of_checkedRun hchecked)
  refine ⟨s.heap, final, g, txn, hlength, hbefore, hfinal, hg, ?_⟩
  obtain ⟨bytes, hdeleted, -⟩ := Option.map_eq_some_iff.mp hlength
  simp only [List.map_cons, List.map_nil, List.cons.injEq, and_true] at hbefore ⊢
  obtain ⟨hlonger, hshorter, -⟩ := hbefore
  exact ⟨(hback _ _ hdeleted).trans hdeleted.symm, hback _ _ hlonger, hback _ _ hshorter,
    hgone _ hinserted rfl⟩

/-- A tuple that fills its page is made shorter, and another one is put
next to it: the slot of that one is missing when the first tuple has to be
put back. -/
theorem update_not_undone :
    ¬∀ (h final : TableHeap) (ids : List PageId) (calls : List TxnCall) (rs : List (Option RID))
      (txn : Transaction), Chained h ids → (∀ rid bytes, h.contents rid ≠ some ⟨true, bytes⟩) →
      runAll TxnCall.run calls (h, start) = .ok (rs, (final, txn)) →
      (∀ r ∈ rs, r.isSome = true) →
      (∀ before call after rs s₁, calls = before ++ call :: after →
        runAll TxnCall.run before (h, start) = .ok (rs, s₁) → call.Allowed s₁.1) →
      ∃ g, abort final txn = .ok (g, ⟨.aborted, []⟩) ∧
        (∀ rid bytes, h.getTuple rid = some bytes → g.getTuple rid = some bytes) ∧
        ∀ item ∈ txn.writeSet, item.wtype = .insert → g.getTuple item.rid = none := by
  intro hall
  have heval : ((create 1).toOption.any fun h₀ =>
      (h₀.insertTuple (List.replicate 480 1) start).toOption.any fun r =>
      (runAll TxnCall.run [.updateTuple (List.replicate 400 2) ⟨1, 0⟩,
        .insertTuple (List.replicate 72 3)] (r.2.1, start)).toOption.any fun y =>
      y.1.all Option.isSome ∧ (r.2.1.pages 1).isSome ∧
        (r.2.1.getTuple ⟨1, 0⟩).map List.length = some 480 ∧
        (abort y.2.1 y.2.2).toOption.any fun z =>
          (z.1.getTuple ⟨1, 0⟩).map List.length = some 400) = true := by decide +kernel
  obtain ⟨h₀, hcreate, heval⟩ := exists_ok_of_any heval
  obtain ⟨⟨rid, h, txn₀⟩, hins, heval⟩ := exists_ok_of_any heval
  obtain ⟨⟨rs, final, txn⟩, hrun, heval⟩ := exists_ok_of_any heval
  obtain ⟨hsucc, hpage, hold, heval⟩ := of_decide_eq_true heval
  obtain ⟨⟨g, txn'⟩, habort, heval⟩ := exists_ok_of_any heval
  have hnew := of_decide_eq_true heval
  obtain ⟨hh₀, hempty⟩ := create_spec (by decide) hcreate
  obtain ⟨bytes, hbytes, hlen⟩ := Option.map_eq_some_iff.mp hold
  rcases insertTuple_ok hh₀ hins with ⟨-, heq⟩ | ⟨rid', h', ids, hne, heq, hdone⟩
  · cases heq
    rw [getTuple_eq_some_iff, hempty] at hbytes
    cases hbytes
  · cases heq
    obtain ⟨hh, -, hcontents⟩ := hdone.spec hh₀ hne
    have hunmarked (r : RID) (b : List UInt8) : h.contents r ≠ some ⟨true, b⟩ := by
      rw [hcontents, hempty, Function.update_apply]
      split
      case isTrue => exact fun hb => by cases hb
      case isFalse => exact fun hb => by cases hb
    obtain ⟨g', hg', hkept, -⟩ := hall h final ids _ rs txn hh hunmarked hrun
      (List.all_eq_true.mp hsucc) (by
        intro before call after rs₁ s₁ heq hbefore
        cases before with
        | nil =>
            cases heq
            cases hbefore
            exact ⟨by decide, Option.isSome_iff_exists.mp hpage⟩
        | cons call' before =>
            cases before with
            | nil =>
                cases heq
                exact trivial
            | cons call'' before =>
                have hcount := congrArg List.length heq
                simp only [List.length_cons, List.length_append, List.length_nil] at hcount
                omega)
    rw [habort] at hg'
    cases hg'
    rw [hkept _ bytes hbytes, Option.map_some, hlen] at hnew
    cases hnew

end TransactionManager

end ScuDb
