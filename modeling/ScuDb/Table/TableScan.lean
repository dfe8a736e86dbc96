import ScuDb.Foundations.Refinement
import ScuDb.Table.HeapContents

/-!
What a scan of a table visits.

The iterator stands on a live tuple; what it has still to visit is the
rest of the live tuples of its page and those of the pages behind it.
`operator++` goes on to the first of them, over pages that have none.
`begin` looks at the first page only.
-/

namespace ScuDb

open Foundations

namespace TablePage

/-- The slots whose tuples are visible. -/
def live (p : TablePage) : List Nat := p.slots.filter fun i => p.getTupleSize i > 0

theorem getFirstTupleRid_eq (p : TablePage) : p.getFirstTupleRid = p.live.head? := by
  rw [live, List.head?_filter]
  rfl

theorem pairwise_live (p : TablePage) : p.live.Pairwise (· < ·) :=
  List.pairwise_lt_range.filter _

theorem filter_lt_of_pairwise {before after : List Nat} {i : Nat}
    (h : (before ++ i :: after).Pairwise (· < ·)) :
    (before ++ i :: after).filter (i < ·) = after := by
  obtain ⟨-, hafter, hbefore⟩ := List.pairwise_append.mp h
  obtain ⟨hi, -⟩ := List.pairwise_cons.mp hafter
  have hnone : before.filter (i < ·) = [] := by
    apply List.filter_eq_nil_iff.mpr
    intro j hj
    have hlt := hbefore j hj i List.mem_cons_self
    simp
    omega
  have hall : after.filter (i < ·) = after := by
    apply List.filter_eq_self.mpr
    intro j hj
    simpa using hi j hj
  rw [List.filter_append, hnone, List.filter_cons, hall]
  simp

theorem getNextTupleRid_eq {p : TablePage} {before after : List Nat} {i : Nat}
    (h : p.live = before ++ i :: after) : p.getNextTupleRid i = after.head? := by
  have hfilter : (p.slots.filter fun j => i < j ∧ p.getTupleSize j > 0) = after := by
    have hpairwise := p.pairwise_live
    rw [h] at hpairwise
    rw [← filter_lt_of_pairwise hpairwise, ← h, live, List.filter_filter]
    simp
  rw [getNextTupleRid, ← List.head?_filter, hfilter]

/-- Visible slots are the ones `GetTuple` succeeds for. -/
theorem getTuple_of_mem_live {p : TablePage} {i : Nat} (h : i ∈ p.live) :
    (i : Int) < p.getTupleCount ∧ ∃ bytes, p.getTuple i = some bytes := by
  obtain ⟨hslot, hpos⟩ := List.mem_filter.mp h
  have hpos : 0 < p.getTupleSize i := by simpa using hpos
  have hlt : i < p.getTupleCount.toNat := List.mem_range.mp hslot
  refine ⟨by omega, p.read (p.getTupleOffset i).toNat (p.getTupleSize i).toNat, ?_⟩
  rw [getTuple, if_neg (by omega)]
  simp only [if_neg (Int.not_le.mpr hpos)]

theorem mem_live_iff {p : TablePage} {i : Nat} :
    i ∈ p.live ↔ ∃ bytes, p.slotAt i = some ⟨false, bytes⟩ := by
  constructor
  · intro hi
    obtain ⟨-, bytes, hbytes⟩ := getTuple_of_mem_live hi
    rw [getTuple_eq, Option.bind_eq_some_iff] at hbytes
    obtain ⟨⟨deleted, stored⟩, ht, hif⟩ := hbytes
    cases deleted with
    | true => cases hif
    | false => exact ⟨stored, ht⟩
  · rintro ⟨bytes, ht⟩
    have hocc := occupied_of_slotAt ht
    have hsign := (slotAt_deleted ht).not.mp Bool.false_ne_true
    obtain ⟨hlt, hne⟩ := hocc
    apply List.mem_filter.mpr
    constructor
    · exact List.mem_range.mpr (by omega)
    · apply decide_eq_true
      omega

end TablePage

namespace TableIterator

open TableHeap TablePage

/-! ### The end -/

theorem getRid_ne_end {rid : RID} (h : rid.slotNum < 2147483648) :
    getRid (some rid) ≠ getRid none := by
  intro heq
  have hslot : rid.slotNum.testBit 31 = false := by
    apply Nat.testBit_lt_two_pow
    omega
  have hrid : (getRid (some rid)).getLsbD 31 = false := by
    show (BitVec.ofInt 64 rid.pageId <<< 32 ||| BitVec.ofNat 64 rid.slotNum).getLsbD 31 = false
    rw [BitVec.getLsbD_or, BitVec.getLsbD_shiftLeft, BitVec.getLsbD_ofNat, hslot]
    rfl
  have hend : (getRid none).getLsbD 31 = true := by decide
  rw [heq, hend] at hrid
  cases hrid

variable {h : TableHeap} {ids : List PageId} {id : PageId} {p : TablePage}

/-- A position on a visible tuple. -/
def entry (id : PageId) (p : TablePage) (i : Nat) : TableIterator :=
  ⟨some ⟨id, i⟩, (p.getTuple i).getD []⟩

/-- The visible tuples of a page. -/
def entries (h : TableHeap) (id : PageId) : List TableIterator :=
  match h.pages id with
  | some p => p.live.map (entry id p)
  | none => []

theorem entries_eq (hp : h.pages id = some p) : entries h id = p.live.map (entry id p) := by
  rw [entries, hp]

/-- The iterator stands on a visible tuple, before `rest`. -/
def Before (h : TableHeap) (ids : List PageId) (itr : TableIterator) (rest : List TableIterator) :
    Prop :=
  ∃ pages id pages' p slots i slots', ids = pages ++ id :: pages' ∧ h.pages id = some p ∧
    p.live = slots ++ i :: slots' ∧ itr = entry id p i ∧
    rest = slots'.map (entry id p) ++ pages'.flatMap (entries h)

theorem getTuple_entry {i : Nat} (hp : h.pages id = some p) (hi : i ∈ p.live) :
    h.getTuple ⟨id, i⟩ = some (entry id p i).tuple := by
  obtain ⟨-, bytes, hbytes⟩ := getTuple_of_mem_live hi
  rw [TableHeap.getTuple, hp, entry, hbytes]
  exact hbytes

/-- The tuple of a position is the one of its `RID`. -/
theorem Before.getTuple {itr : TableIterator} {rest : List TableIterator} {rid : RID}
    (hitr : Before h ids itr rest) (hrid : itr.rid = some rid) :
    h.getTuple rid = some itr.tuple := by
  obtain ⟨pages, id, pages', p, slots, i, slots', rfl, hp, hlive, rfl, -⟩ := hitr
  cases hrid
  apply getTuple_entry hp
  rw [hlive]
  exact List.mem_append_right _ List.mem_cons_self

theorem Before.not_end {itr : TableIterator} {rest : List TableIterator} (hh : Chained h ids)
    (hitr : Before h ids itr rest) : itr.isEqual (finish h) = false := by
  obtain ⟨pages, id, pages', p, slots, i, slots', rfl, hp, hlive, rfl, -⟩ := hitr
  obtain ⟨p', hp', hpage⟩ := hh.chain.at
  rw [hp] at hp'
  cases hp'
  have hmem : i ∈ p.live := by
    rw [hlive]
    exact List.mem_append_right _ List.mem_cons_self
  have hlt := (getTuple_of_mem_live hmem).1
  have hdir := hpage.layout.directory
  have hfree := hpage.layout.free
  apply decide_eq_false
  apply getRid_ne_end
  show i < 2147483648
  omega

/-- The loop over the pages that follow. -/
theorem firstOfNextPages_spec (hh : Chained h ids) :
    ∀ (after pages : List PageId) (p : TablePage) (fuel : Nat), ids = pages ++ after →
      p.getNextPageId = after.headD invalidPageId → after.length < fuel →
      (after.flatMap (entries h) = [] ∧ firstOfNextPages h fuel p = .ok none) ∨
        ∃ itr rest rid, after.flatMap (entries h) = itr :: rest ∧ Before h ids itr rest ∧
          itr.rid = some rid ∧ firstOfNextPages h fuel p = .ok (some rid) := by
  intro after
  induction after with
  | nil =>
      intro pages p fuel _ hnext hfuel
      obtain ⟨fuel, rfl⟩ : ∃ n, fuel = n + 1 := ⟨fuel - 1, by omega⟩
      have hlast : ¬p.getNextPageId ≠ invalidPageId := not_not.mpr hnext
      left
      refine ⟨rfl, ?_⟩
      rw [firstOfNextPages, if_neg hlast]
  | cons next after ih =>
      intro pages p fuel hids hnext hfuel
      obtain ⟨fuel, rfl⟩ : ∃ n, fuel = n + 1 := ⟨fuel - 1, by omega⟩
      have hnext : p.getNextPageId = next := hnext
      have hmem : next ∈ ids := by
        rw [hids]
        exact List.mem_append_right _ List.mem_cons_self
      have hvalid : p.getNextPageId ≠ invalidPageId := by
        rw [hnext]
        rintro rfl
        exact absurd (hh.known _ hmem).1 (by decide)
      have hchain := hh.chain
      rw [hids] at hchain
      obtain ⟨q, hq, hpage⟩ := hchain.at
      have hfetch : h.fetchPage p.getNextPageId = .ok q := by
        rw [hnext]
        exact fetchPage_eq hq
      rw [firstOfNextPages, if_pos hvalid, hfetch, List.flatMap_cons, entries_eq hq]
      simp only [bind, Except.bind, getFirstTupleRid_eq]
      cases hlive : q.live with
      | nil =>
          have hids' : ids = (pages ++ [next]) ++ after := by simp [hids]
          simp only [List.map_nil, List.nil_append, List.head?_nil]
          exact ih (pages ++ [next]) q fuel hids' hpage.nextPageId (by simp at hfuel; omega)
      | cons i slots =>
          right
          refine ⟨entry next q i, slots.map (entry next q) ++ after.flatMap (entries h), ⟨next, i⟩,
            rfl, ?_, rfl, ?_⟩
          · exact ⟨pages, next, after, q, [], i, slots, hids, hq, hlive, rfl, rfl⟩
          · rw [List.head?_cons]
            simp only [hpage.pageId]

/-- `operator++` goes on to the next visible tuple, or to the end. -/
theorem advance_spec {itr : TableIterator} {rest : List TableIterator} (hh : Chained h ids)
    (hitr : Before h ids itr rest) :
    (rest = [] ∧ ∃ last, advance h itr = .ok last ∧ last.rid = none) ∨
      ∃ next rest', rest = next :: rest' ∧ advance h itr = .ok next ∧ Before h ids next rest' := by
  obtain ⟨pages, id, pages', p, slots, i, slots', hids, hp, hlive, rfl, rfl⟩ := hitr
  have hchain := hh.chain
  rw [hids] at hchain
  obtain ⟨p', hp', hpage⟩ := hchain.at
  rw [hp] at hp'
  cases hp'
  have hadvance : advance h (entry id p i) =
      (slots'.head?.elim (firstOfNextPages h (h.nextPageId.toNat + 1) p) fun slot =>
        .ok (some ⟨id, slot⟩)) >>= fun next =>
          .ok ⟨next, (next.bind h.getTuple).getD (entry id p i).tuple⟩ := by
    have hid : ¬id ≠ id := not_not.mpr rfl
    simp only [advance, entry, bind, Except.bind, fetchPage_eq hp, getNextTupleRid_eq hlive,
      hpage.pageId, if_neg hid]
    cases slots'.head? <;> rfl
  rw [hadvance]
  cases slots' with
  | nil =>
      have hids' : ids = (pages ++ [id]) ++ pages' := by simp [hids]
      have hlen := hh.length_le
      rw [hids, List.length_append, List.length_cons] at hlen
      rcases firstOfNextPages_spec hh pages' (pages ++ [id]) p (h.nextPageId.toNat + 1) hids'
        hpage.nextPageId (by omega) with ⟨hnone, hrun⟩ | ⟨next, rest, rid, hnext, hat, hrid, hrun⟩
      · left
        refine ⟨hnone, ⟨none, (entry id p i).tuple⟩, ?_, rfl⟩
        rw [List.head?_nil]
        simp only [hrun]
        rfl
      · right
        refine ⟨next, rest, hnext, ?_, hat⟩
        rw [List.head?_nil]
        simp only [hrun]
        show Except.ok (⟨some rid, (h.getTuple rid).getD _⟩ : TableIterator) = _
        rw [hat.getTuple hrid, Option.getD_some, ← hrid]
  | cons j slots' =>
      right
      refine ⟨entry id p j, slots'.map (entry id p) ++ pages'.flatMap (entries h), rfl, ?_, ?_⟩
      · have hj : j ∈ p.live := by simp [hlive]
        show Except.ok (⟨some ⟨id, j⟩, (h.getTuple ⟨id, j⟩).getD _⟩ : TableIterator) = _
        rw [getTuple_entry hp hj, Option.getD_some]
        rfl
      · exact ⟨pages, id, pages', p, slots ++ [i], j, slots', hids, hp, by simp [hlive], rfl, rfl⟩

/-- What is visited from a position on. -/
theorem visit_spec (hh : Chained h ids) (fuel : Nat) :
    ∀ itr rest, Before h ids itr rest → rest.length + 1 < fuel →
      visit h fuel itr = .ok (itr :: rest) := by
  induction fuel with
  | zero => exact fun itr rest _ hfuel => absurd hfuel (Nat.not_lt_zero _)
  | succ fuel ih =>
      intro itr rest hitr hfuel
      rw [visit, if_neg (Bool.eq_false_iff.mp (hitr.not_end hh))]
      rcases advance_spec hh hitr with ⟨rfl, last, hrun, hlast⟩ | ⟨next, rest', rfl, hrun, hnext⟩
      · obtain ⟨fuel, rfl⟩ : ∃ n, fuel = n + 1 := ⟨fuel - 1, by simp at hfuel; omega⟩
        have hend : last.isEqual (finish h) = true := by
          apply decide_eq_true
          rw [hlast]
          rfl
        rw [hrun]
        simp only [bind, Except.bind]
        rw [visit, if_pos hend]
      · rw [hrun]
        simp only [bind, Except.bind]
        rw [ih next rest' hnext (by simp at hfuel; omega)]

theorem start_eq (hh : Chained h ids) :
    ∃ p pages', ids = h.firstPageId :: pages' ∧ h.pages h.firstPageId = some p ∧
      start h = .ok (ofRid h (p.live.head?.map (⟨h.firstPageId, ·⟩))) := by
  obtain ⟨pages', hids⟩ : ∃ pages', ids = h.firstPageId :: pages' := by
    cases ids with
    | nil => cases hh.first
    | cons id pages' => exact ⟨pages', by rw [Option.some.inj hh.first]⟩
  have hchain := hh.chain
  rw [hids] at hchain
  obtain ⟨p, hp, hpage⟩ := hchain.1
  refine ⟨p, pages', hids, hp, ?_⟩
  rw [start, fetchPage_eq hp]
  simp only [bind, Except.bind, getFirstTupleRid_eq, hpage.pageId]

/-- A scan visits the visible tuples of all pages if there is one on the
first page. -/
theorem scan_of_ne_nil (hh : Chained h ids) (hfirst : entries h h.firstPageId ≠ []) :
    scan h ((ids.flatMap (entries h)).length + 1) = .ok (ids.flatMap (entries h)) := by
  obtain ⟨p, pages', hids, hp, hstart⟩ := start_eq hh
  rw [entries_eq hp] at hfirst
  cases hlive : p.live with
  | nil =>
      rw [hlive] at hfirst
      exact absurd rfl hfirst
  | cons i slots =>
      have hi : i ∈ p.live := by simp [hlive]
      have hitr : ofRid h (some ⟨h.firstPageId, i⟩) = entry h.firstPageId p i := by
        rw [ofRid, Option.bind_some, getTuple_entry hp hi]
        rfl
      have hat : Before h ids (entry h.firstPageId p i)
          (slots.map (entry h.firstPageId p) ++ pages'.flatMap (entries h)) :=
        ⟨[], h.firstPageId, pages', p, [], i, slots, hids, hp, hlive, rfl, rfl⟩
      have hall : ids.flatMap (entries h) = entry h.firstPageId p i ::
          (slots.map (entry h.firstPageId p) ++ pages'.flatMap (entries h)) := by
        rw [hids, List.flatMap_cons, entries_eq hp, hlive]
        rfl
      rw [hlive, List.head?_cons, Option.map_some, hitr] at hstart
      rw [hall, scan, hstart]
      exact visit_spec hh _ _ _ hat (by simp)

/-- Otherwise it visits none. -/
theorem scan_of_nil (hh : Chained h ids) (hfirst : entries h h.firstPageId = []) :
    scan h 1 = .ok [] ∧ ∀ fuel visited, scan h fuel = .ok visited → visited = [] := by
  obtain ⟨p, pages', hids, hp, hstart⟩ := start_eq hh
  rw [entries_eq hp] at hfirst
  have hlive : p.live = [] := List.map_eq_nil_iff.mp hfirst
  rw [hlive, List.head?_nil, Option.map_none] at hstart
  have hend : (ofRid h none).isEqual (finish h) = true := decide_eq_true rfl
  have hscan (fuel : Nat) : scan h (fuel + 1) = .ok [] := by
    rw [scan, hstart]
    simp only [bind, Except.bind]
    rw [visit, if_pos hend]
  refine ⟨hscan 0, fun fuel visited hrun => ?_⟩
  cases fuel with
  | zero =>
      rw [scan, hstart] at hrun
      cases hrun
  | succ fuel =>
      rw [hscan fuel] at hrun
      exact (Except.ok.inj hrun).symm

end TableIterator

namespace TableHeap

/-! ### The visible tuples -/

/-- The pages of the chain from `id` on. -/
def chainFrom (h : TableHeap) : Nat → PageId → List PageId
  | 0, _ => []
  | fuel + 1, id =>
      match h.pages id with
      | none => []
      | some p => id :: h.chainFrom fuel p.getNextPageId

/-- All pages of the chain, in its order. -/
def pageIds (h : TableHeap) : List PageId := h.chainFrom h.nextPageId.toNat h.firstPageId

/-- The slots a directory has room for. -/
def maxSlots : Nat := (pageSize - 24) / 8

/-- The visible ones of the tuples that are stored, in the order of the
pages and slots. -/
def visible (ids : List PageId) (stored : RID → Option StoredTuple) : List TableIterator :=
  ids.flatMap fun id => (List.range maxSlots).filterMap fun i =>
    (stored ⟨id, i⟩).bind fun t => if t.deleted then none else some ⟨some ⟨id, i⟩, t.bytes⟩

variable {h : TableHeap} {ids : List PageId} {p : TablePage}

theorem chainFrom_eq (rest : List PageId) : ∀ (id : PageId) (fuel : Nat), h.Chain (id :: rest) →
    h.pages invalidPageId = none → rest.length < fuel → h.chainFrom fuel id = id :: rest := by
  induction rest with
  | nil =>
      intro id fuel hc hnone hfuel
      obtain ⟨fuel, rfl⟩ : ∃ n, fuel = n + 1 := ⟨fuel - 1, by omega⟩
      obtain ⟨⟨p, hp, hpage⟩, -⟩ := hc
      have hnext : p.getNextPageId = invalidPageId := hpage.nextPageId
      rw [chainFrom, hp]
      simp only [hnext]
      cases fuel with
      | zero => rfl
      | succ fuel => rw [chainFrom, hnone]
  | cons next rest ih =>
      intro id fuel hc hnone hfuel
      obtain ⟨fuel, rfl⟩ : ∃ n, fuel = n + 1 := ⟨fuel - 1, by omega⟩
      obtain ⟨⟨p, hp, hpage⟩, hrest⟩ := hc
      have hnext : p.getNextPageId = next := hpage.nextPageId
      rw [chainFrom, hp]
      simp only [hnext]
      rw [ih next fuel hrest hnone (by simp at hfuel; omega)]

theorem Chained.pageIds_eq (hh : Chained h ids) : h.pageIds = ids := by
  have hnone : h.pages invalidPageId = none := by
    cases hp : h.pages invalidPageId with
    | none => rfl
    | some p => exact absurd (hh.known _ (hh.only _ p hp)).1 (by decide)
  have hlen := hh.length_le
  cases ids with
  | nil => cases hh.first
  | cons id rest =>
      rw [pageIds, ← Option.some.inj hh.first]
      exact chainFrom_eq rest id _ hh.chain hnone (Nat.lt_of_succ_le hlen)

theorem filterMap_eq_map_filter {α β : Type} {P : α → Bool} {f : α → β} {g : α → Option β}
    (htrue : ∀ a, P a = true → g a = some (f a)) (hfalse : ∀ a, P a = false → g a = none)
    (l : List α) : l.filterMap g = (l.filter P).map f := by
  induction l with
  | nil => rfl
  | cons a l ih =>
      cases ha : P a with
      | true => simp [ha, htrue a ha, ih]
      | false => simp [ha, hfalse a ha, ih]

theorem visible_page (hp : TablePage.Layout p) (id : PageId) :
    ((List.range maxSlots).filterMap fun i => (p.slotAt i).bind fun t =>
      if t.deleted then none else some (⟨some ⟨id, i⟩, t.bytes⟩ : TableIterator)) =
      p.live.map (TableIterator.entry id p) := by
  have hdir := hp.directory
  have hfree := hp.free
  have hcount := hp.count
  have hentry (i : Nat) : ((p.slotAt i).bind fun t =>
      if t.deleted then none else some (⟨some ⟨id, i⟩, t.bytes⟩ : TableIterator)) =
      (p.getTuple i).map fun bytes => ⟨some ⟨id, i⟩, bytes⟩ := by
    rw [TablePage.getTuple_eq]
    cases p.slotAt i with
    | none => rfl
    | some t =>
        simp only [Option.bind_some]
        split
        case isTrue => rfl
        case isFalse => rfl
  simp only [hentry]
  obtain ⟨k, hk⟩ : ∃ k, maxSlots = p.getTupleCount.toNat + k :=
    ⟨maxSlots - p.getTupleCount.toNat, by
      have hmax : maxSlots = 61 := rfl
      omega⟩
  have hhigh : ((List.range k).map (p.getTupleCount.toNat + ·)).filterMap
      (fun i => (p.getTuple i).map fun bytes => (⟨some ⟨id, i⟩, bytes⟩ : TableIterator)) = [] := by
    apply List.filterMap_eq_nil_iff.mpr
    intro i hi
    obtain ⟨j, -, rfl⟩ := List.mem_map.mp hi
    rw [TablePage.getTuple, if_pos (by omega)]
    rfl
  rw [hk, List.range_add, List.filterMap_append, hhigh, List.append_nil]
  have hlive : p.live = (List.range p.getTupleCount.toNat).filter
      fun i => (p.getTuple i).isSome := by
    apply List.filter_congr
    intro i hi
    have hlt := List.mem_range.mp hi
    rw [TablePage.getTuple, if_neg (by omega)]
    by_cases hpos : p.getTupleSize i > 0
    · simp [hpos, Int.not_le.mpr hpos]
    · simp [hpos, Int.not_lt.mp hpos]
  rw [hlive]
  apply filterMap_eq_map_filter
  · intro i hi
    obtain ⟨bytes, hbytes⟩ := Option.isSome_iff_exists.mp hi
    rw [TableIterator.entry, hbytes]
    rfl
  · intro i hi
    rw [Option.isNone_iff_eq_none.mp (Option.isSome_eq_false_iff.mp hi)]
    rfl

theorem Chained.visible_eq (hh : Chained h ids) :
    visible ids h.contents = ids.flatMap (TableIterator.entries h) := by
  apply List.flatMap_congr
  intro id hid
  obtain ⟨p, hp⟩ := hh.exists_page (show (⟨id, 0⟩ : RID).pageId ∈ ids from hid)
  have hslot (i : Nat) : h.contents ⟨id, i⟩ = p.slotAt i := contents_of_pages hp
  simp only [hslot]
  rw [visible_page (hh.layout hp), TableIterator.entries_eq hp]

end TableHeap

/-! ### Runs -/

/-- A call on a table, by any transaction. -/
inductive HeapOp
  | insertTuple (tuple : List UInt8) (txn : Transaction)
  | updateTuple (tuple : List UInt8) (rid : RID) (txn : Transaction)
  | markDelete (rid : RID) (txn : Transaction)
  | rollbackDelete (rid : RID)
  | applyDelete (rid : RID)

/-- A table, and the tuples that should be stored in it by what has been
called and returned. -/
structure TrackedHeap where
  heap : TableHeap
  stored : RID → Option StoredTuple

namespace HeapOp

open TableHeap

def run : HeapOp → Program Fault TrackedHeap Unit
  | insertTuple tuple txn => fun s => do
      let (rid, heap, _) ← s.heap.insertTuple tuple txn
      pure ((), ⟨heap, match rid with
        | some rid => Function.update s.stored rid (some ⟨false, tuple⟩)
        | none => s.stored⟩)
  | updateTuple tuple rid txn => fun s => do
      let (isUpdated, heap, _) ← s.heap.updateTuple tuple rid txn
      pure ((), ⟨heap, if isUpdated
        then Function.update s.stored rid (if tuple = [] then none else some ⟨false, tuple⟩)
        else s.stored⟩)
  | markDelete rid txn => fun s =>
      let (_, heap, _) := s.heap.markDelete rid txn
      .ok ((), ⟨heap, Function.update s.stored rid
        ((s.stored rid).map fun t => { t with deleted := true })⟩)
  | rollbackDelete rid => fun s => do
      let heap ← s.heap.rollbackDelete rid
      pure ((), ⟨heap, Function.update s.stored rid
        ((s.stored rid).map fun t => { t with deleted := false })⟩)
  | applyDelete rid => fun s => do
      let heap ← s.heap.applyDelete rid
      pure ((), ⟨heap, Function.update s.stored rid none⟩)

/-- The `RID` names a page of the table. -/
def Allowed : HeapOp → TableHeap → Prop
  | insertTuple _ _, _ => True
  | updateTuple _ rid _, h => rid.pageId ∈ h.pageIds
  | markDelete rid _, h => rid.pageId ∈ h.pageIds
  | rollbackDelete rid, h => rid.pageId ∈ h.pageIds
  | applyDelete rid, h => rid.pageId ∈ h.pageIds

instance : (op : HeapOp) → (h : TableHeap) → Decidable (op.Allowed h)
  | insertTuple _ _, _ => isTrue trivial
  | updateTuple _ rid _, h => inferInstanceAs (Decidable (rid.pageId ∈ h.pageIds))
  | markDelete rid _, h => inferInstanceAs (Decidable (rid.pageId ∈ h.pageIds))
  | rollbackDelete rid, h => inferInstanceAs (Decidable (rid.pageId ∈ h.pageIds))
  | applyDelete rid, h => inferInstanceAs (Decidable (rid.pageId ∈ h.pageIds))

/-- No tuple that is marked as deleted is left behind by an update. -/
def KeepsOffsets : HeapOp → TableHeap → Prop
  | updateTuple tuple rid _, h => h.KeepsOffsets tuple rid
  | _, _ => True

instance : (op : HeapOp) → (h : TableHeap) → Decidable (op.KeepsOffsets h)
  | updateTuple tuple rid _, h => inferInstanceAs (Decidable (h.KeepsOffsets tuple rid))
  | insertTuple _ _, _ | markDelete _ _, _ | rollbackDelete _, _ | applyDelete _, _ =>
      isTrue trivial

/-- The pages are linked and hold what should be stored. -/
def Holds (s : TrackedHeap) : Prop := ∃ ids, Chained s.heap ids ∧ s.heap.contents = s.stored

theorem holds_run {op : HeapOp} {s s' : TrackedHeap} (hs : Holds s) (hop : op.Allowed s.heap)
    (hkeep : op.KeepsOffsets s.heap) (hrun : op.run s = .ok ((), s')) : Holds s' := by
  obtain ⟨ids, hh, hstored⟩ := hs
  cases op with
  | insertTuple tuple txn =>
      simp only [run] at hrun
      cases hins : s.heap.insertTuple tuple txn with
      | error e =>
          rw [hins] at hrun
          cases hrun
      | ok r =>
          rw [hins] at hrun
          cases hrun
          rcases insertTuple_ok hh hins with ⟨-, rfl⟩ | ⟨rid, h', ids', hne, rfl, hdone⟩
          · exact ⟨ids, hh, hstored⟩
          · obtain ⟨hchained, -, hcontents⟩ := hdone.spec hh hne
            exact ⟨ids', hchained, by rw [hcontents, hstored]⟩
  | updateTuple tuple rid txn =>
      have hid : rid.pageId ∈ ids := hh.pageIds_eq ▸ hop
      simp only [run] at hrun
      rcases updateTuple_cases hh hid hkeep txn with href | ⟨p, old, q, hup, hmade⟩
      · rw [href] at hrun
        cases hrun
        exact ⟨ids, hh, hstored⟩
      · rw [hmade] at hrun
        cases hrun
        obtain ⟨hchained, -, hcontents⟩ := hup.spec hh
        exact ⟨ids, hchained, by rw [hcontents, hstored]; rfl⟩
  | markDelete rid txn =>
      have hid : rid.pageId ∈ ids := hh.pageIds_eq ▸ hop
      obtain ⟨p, hp⟩ := hh.exists_page hid
      obtain ⟨hmark, hchained, hcontents⟩ := markDelete_spec hh hp txn
      simp only [run, hmark] at hrun
      cases hrun
      exact ⟨ids, hchained, by rw [hcontents, hstored]⟩
  | rollbackDelete rid =>
      simp only [run] at hrun
      cases hroll : s.heap.rollbackDelete rid with
      | error e =>
          rw [hroll] at hrun
          cases hrun
      | ok heap =>
          rw [hroll] at hrun
          cases hrun
          obtain ⟨hchained, hcontents⟩ := rollbackDelete_spec hh hroll
          exact ⟨ids, hchained, by rw [hcontents, hstored]⟩
  | applyDelete rid =>
      simp only [run] at hrun
      cases happly : s.heap.applyDelete rid with
      | error e =>
          rw [happly] at hrun
          cases hrun
      | ok heap =>
          rw [happly] at hrun
          cases hrun
          obtain ⟨hchained, hcontents⟩ := applyDelete_spec hh happly
          exact ⟨ids, hchained, by rw [hcontents, hstored]⟩

theorem holds_of_reachable {n : PageId} (hn : 0 ≤ n) {s : TrackedHeap}
    (hs : Reachable (fun s => TableHeap.create n = .ok s.heap ∧ s.stored = fun _ => none)
      (fun op s => op.Allowed s.heap ∧ op.KeepsOffsets s.heap) run s) : Holds s := by
  apply hs.invariant_of_ok
  · rintro s ⟨hcreate, hstored⟩
    obtain ⟨hchained, hcontents⟩ := create_spec hn hcreate
    exact ⟨[n], hchained, hcontents.trans hstored.symm⟩
  · rintro op s ⟨⟩ s' hs ⟨hop, hkeep⟩ hrun
    exact holds_run hs hop hkeep hrun

end HeapOp

namespace TableHeap

open TableIterator

/-- Something is visible on the first page exactly when something is
stored there and not marked as deleted. -/
theorem entries_ne_nil_iff {h : TableHeap} {ids : List PageId} {id : PageId} (hh : Chained h ids)
    (hid : id ∈ ids) :
    entries h id ≠ [] ↔ ∃ i bytes, h.contents ⟨id, i⟩ = some ⟨false, bytes⟩ := by
  obtain ⟨p, hp⟩ := hh.exists_page (show (⟨id, 0⟩ : RID).pageId ∈ ids from hid)
  have hslot (i : Nat) : h.contents ⟨id, i⟩ = p.slotAt i := contents_of_pages hp
  simp only [hslot, ← TablePage.mem_live_iff]
  rw [entries_eq hp, ne_eq, List.map_eq_nil_iff]
  exact ⟨List.exists_mem_of_ne_nil _, fun ⟨_, hi⟩ => List.ne_nil_of_mem hi⟩

/-- In every run in which no update leaves a tuple behind that is marked as
deleted, a scan ends and has visited all visible tuples, page by page and
slot by slot and with the bytes stored, exactly when one of them is on the
first page or there is none. -/
theorem scan_visits_visible_iff {n : PageId} (hn : 0 ≤ n) {s : TrackedHeap}
    (hs : Reachable (fun s => TableHeap.create n = .ok s.heap ∧ s.stored = fun _ => none)
      (fun op s => op.Allowed s.heap ∧ op.KeepsOffsets s.heap) HeapOp.run s) :
    (∃ fuel, scan s.heap fuel = .ok (visible s.heap.pageIds s.stored)) ↔
      (∃ i bytes, s.stored ⟨s.heap.firstPageId, i⟩ = some ⟨false, bytes⟩) ∨
        ∀ rid bytes, s.stored rid ≠ some ⟨false, bytes⟩ := by
  obtain ⟨ids, hh, hstored⟩ := HeapOp.holds_of_reachable hn hs
  have hmem : s.heap.firstPageId ∈ ids := List.mem_of_mem_head? hh.first
  rw [hh.pageIds_eq, ← hstored, hh.visible_eq, ← entries_ne_nil_iff hh hmem]
  constructor
  · rintro ⟨fuel, hrun⟩
    by_cases hfirst : entries s.heap s.heap.firstPageId = []
    · right
      have hnone := (scan_of_nil hh hfirst).2 fuel _ hrun
      intro rid bytes ht
      obtain ⟨p, hp, -⟩ := exists_page_of_contents ht
      have hid := hh.only _ p hp
      apply (entries_ne_nil_iff hh hid).mpr ⟨rid.slotNum, bytes, ht⟩
      exact List.flatMap_eq_nil_iff.mp hnone _ hid
    · exact Or.inl hfirst
  · rintro (hfirst | hnone)
    · exact ⟨_, scan_of_ne_nil hh hfirst⟩
    · have hall : ids.flatMap (entries s.heap) = [] := by
        apply List.flatMap_eq_nil_iff.mpr
        intro id hid
        by_contra hne
        obtain ⟨i, bytes, ht⟩ := (entries_ne_nil_iff hh hid).mp hne
        exact hnone _ bytes ht
      rw [hall]
      exact ⟨1, (scan_of_nil hh (List.flatMap_eq_nil_iff.mp hall _ hmem)).1⟩

theorem exists_made (ok : HeapOp → TrackedHeap → Prop) [∀ op s, Decidable (ok op s)]
    (ops : List HeapOp) (f : TrackedHeap → Bool)
    (heval : ((create 1).toOption.any fun h =>
      (checkedRun (fun op s => decide (ok op s)) HeapOp.run ops ⟨h, fun _ => none⟩).any f) = true) :
    ∃ s, Reachable (fun s => create 1 = .ok s.heap ∧ s.stored = fun _ => none) ok HeapOp.run s ∧
      f s = true := by
  obtain ⟨h, hcreate⟩ : ∃ h, create 1 = .ok h := exists_ok (by decide)
  rw [hcreate] at heval
  exact exists_reachable_of_eval (.start ⟨hcreate, rfl⟩) _ (fun _ _ => of_decide_eq_true) f heval

/-- The third tuple is on a second page and gets shorter there, while one
of the two on the first page is marked as deleted. -/
theorem scan_visits_inserted : ∃ s : TrackedHeap, s.heap.pageIds = [1, 2] ∧
    s.stored ⟨1, 0⟩ = some ⟨true, [1, 2, 3]⟩ ∧ s.stored ⟨1, 1⟩ = some ⟨false, [4]⟩ ∧
      s.stored ⟨2, 0⟩ = some ⟨false, [9, 9]⟩ ∧
        ∃ fuel, scan s.heap fuel = .ok (visible s.heap.pageIds s.stored) := by
  obtain ⟨s, hs, heval⟩ := exists_made
    (fun op s => op.Allowed s.heap ∧ op.KeepsOffsets s.heap)
    [.insertTuple [1, 2, 3] ⟨.growing, []⟩, .insertTuple [4] ⟨.growing, []⟩,
      .insertTuple (List.replicate 470 7) ⟨.growing, []⟩, .markDelete ⟨1, 0⟩ ⟨.growing, []⟩,
      .updateTuple [9, 9] ⟨2, 0⟩ ⟨.growing, []⟩]
    (fun s => s.heap.firstPageId = 1 ∧ s.heap.pageIds = [1, 2] ∧
      s.stored ⟨1, 0⟩ = some ⟨true, [1, 2, 3]⟩ ∧ s.stored ⟨1, 1⟩ = some ⟨false, [4]⟩ ∧
        s.stored ⟨2, 0⟩ = some ⟨false, [9, 9]⟩)
    (by decide +kernel)
  obtain ⟨hfirst, hids, hmarked, hlive, hshorter⟩ := of_decide_eq_true heval
  have hvisible : s.stored ⟨s.heap.firstPageId, 1⟩ = some ⟨false, [4]⟩ := by
    rw [hfirst]
    exact hlive
  exact ⟨s, hids, hmarked, hlive, hshorter,
    (scan_visits_visible_iff (by decide) hs).mpr (Or.inl ⟨1, [4], hvisible⟩)⟩

/-- The first page is filled by a tuple that is then marked as deleted: the
tuple on the second page is not visited. -/
theorem visible_tuple_not_visited :
    ¬∀ (n : PageId) (s : TrackedHeap), 0 ≤ n →
      Reachable (fun s => create n = .ok s.heap ∧ s.stored = fun _ => none)
        (fun op s => op.Allowed s.heap) HeapOp.run s →
      ∃ fuel, scan s.heap fuel = .ok (visible s.heap.pageIds s.stored) := by
  intro hall
  obtain ⟨s, hs, heval⟩ := exists_made (fun op s => op.Allowed s.heap)
    [.insertTuple (List.replicate 480 1) ⟨.growing, []⟩, .insertTuple [7] ⟨.growing, []⟩,
      .markDelete ⟨1, 0⟩ ⟨.growing, []⟩]
    (fun s => ((TableIterator.start s.heap).toOption.any fun itr => itr.isEqual (finish s.heap)) ∧
      visible s.heap.pageIds s.stored ≠ [])
    (by decide +kernel)
  obtain ⟨hstart, hvisible⟩ := of_decide_eq_true heval
  obtain ⟨fuel, hscan⟩ := hall 1 s (by decide) hs
  cases hitr : TableIterator.start s.heap with
  | error e =>
      rw [hitr] at hstart
      cases hstart
  | ok itr =>
      rw [hitr] at hstart
      have hend : itr.isEqual (finish s.heap) = true := hstart
      rw [scan, hitr] at hscan
      cases fuel with
      | zero => cases hscan
      | succ fuel =>
          simp only [bind, Except.bind] at hscan
          rw [visit, if_pos hend] at hscan
          exact hvisible (Except.ok.inj hscan).symm

end TableHeap

end ScuDb
