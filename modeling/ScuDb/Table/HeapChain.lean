import ScuDb.Table.TableHeap
import ScuDb.Page.SameTuples
import Mathlib.Data.List.Nodup
import Mathlib.Data.List.Perm.Subperm

/-!
The pages of a table as a chain and its tuples as a map.

`Chained h ids` says that the pages of the table are `ids`, linked in this
order and each laid out. `contents` maps every `RID` to the tuple stored
there. All operations but `InsertTuple` replace the bytes of one page and
keep its header; `InsertTuple` may have made the chain longer before it
does so.
-/

namespace ScuDb

namespace TableHeap

open Foundations TablePage

/-- A page that is laid out, with its own id and the next one in its
header. -/
structure ChainPage (p : TablePage) (id next : PageId) : Prop where
  layout : Layout p
  pageId : p.getPageId = id
  nextPageId : p.getNextPageId = next

/-- The pages `ids` are linked up to the last one. -/
def Chain (h : TableHeap) : List PageId → Prop
  | [] => True
  | id :: rest =>
      (∃ p, h.pages id = some p ∧ ChainPage p id (rest.headD invalidPageId)) ∧ h.Chain rest

/-- The pages of the table. -/
structure Chained (h : TableHeap) (ids : List PageId) : Prop where
  first : ids.head? = some h.firstPageId
  chain : h.Chain ids
  nodup : ids.Nodup
  known : ∀ id ∈ ids, 0 ≤ id ∧ id < h.nextPageId
  only : ∀ id p, h.pages id = some p → id ∈ ids

/-- The tuple stored under a `RID`. -/
def contents (h : TableHeap) (rid : RID) : Option StoredTuple :=
  (h.pages rid.pageId).bind fun p => p.slotAt rid.slotNum

variable {h : TableHeap} {ids : List PageId} {id : PageId} {p q : TablePage}

/-! ### Pages of a chain -/

theorem ChainPage.of_header {next : PageId} (hp : ChainPage p id next) (hq : Layout q)
    (hheader : ∀ x < 16, q x = p x) : ChainPage q id next := by
  constructor
  case layout => exact hq
  case pageId =>
    rw [← hp.pageId]
    exact Memory.getInt32_congr fun i hi => hheader (0 + i) (by omega)
  case nextPageId =>
    rw [← hp.nextPageId]
    exact Memory.getInt32_congr fun i hi => hheader (12 + i) (by omega)

theorem setPage_pages (h : TableHeap) (id : PageId) (q : TablePage) (x : PageId) :
    (h.setPage id q).pages x = if x = id then some q else h.pages x := by
  rw [setPage]
  exact Function.update_apply _ _ _ _

/-- A chain reads only its own pages. -/
theorem Chain.frame {h' : TableHeap} (hc : h.Chain ids)
    (hpages : ∀ x ∈ ids, h'.pages x = h.pages x) : h'.Chain ids := by
  induction ids with
  | nil => trivial
  | cons x rest ih =>
      obtain ⟨⟨p, hp, hpage⟩, hrest⟩ := hc
      constructor
      · exact ⟨p, (hpages x List.mem_cons_self).trans hp, hpage⟩
      · exact ih hrest fun y hy => hpages y (List.mem_cons_of_mem x hy)

/-- A page of the chain points to the one behind it. -/
theorem Chain.at {before after : List PageId} (hc : h.Chain (before ++ id :: after)) :
    ∃ p, h.pages id = some p ∧ ChainPage p id (after.headD invalidPageId) := by
  induction before with
  | nil => exact hc.1
  | cons x before ih => exact ih hc.2

theorem Chain.mem (hc : h.Chain ids) (hid : id ∈ ids) :
    ∃ p next, h.pages id = some p ∧ ChainPage p id next := by
  obtain ⟨before, after, rfl⟩ := List.append_of_mem hid
  obtain ⟨p, hp, hpage⟩ := hc.at
  exact ⟨p, _, hp, hpage⟩

theorem Chain.setPage (hc : h.Chain ids) (hp : h.pages id = some p) (hq : Layout q)
    (hheader : ∀ x < 16, q x = p x) : (h.setPage id q).Chain ids := by
  induction ids with
  | nil => trivial
  | cons x rest ih =>
      obtain ⟨⟨p', hp', hpage⟩, hrest⟩ := hc
      refine ⟨?_, ih hrest⟩
      rw [setPage_pages]
      by_cases hx : x = id
      · subst hx
        rw [hp] at hp'
        cases hp'
        exact ⟨q, if_pos rfl, hpage.of_header hq hheader⟩
      · exact ⟨p', (if_neg hx).trans hp', hpage⟩

theorem Chain.concat {before : List PageId} {newId : PageId} (hc : h.Chain (before ++ [id]))
    (hnodup : (before ++ [id, newId]).Nodup) (hp : ChainPage p id newId)
    (hq : ChainPage q newId invalidPageId) :
    ((h.setPage id p).setPage newId q).Chain (before ++ [id, newId]) := by
  induction before with
  | nil =>
      have hne : id ≠ newId := by
        rintro rfl
        simp at hnodup
      refine ⟨⟨p, ?_, hp⟩, ⟨q, ?_, hq⟩, trivial⟩
      · rw [setPage_pages, if_neg hne, setPage_pages, if_pos rfl]
      · rw [setPage_pages, if_pos rfl]
  | cons x before ih =>
      obtain ⟨hx, hnodup'⟩ := List.nodup_cons.mp hnodup
      obtain ⟨⟨p', hp', hpage⟩, hrest⟩ := hc
      refine ⟨⟨p', ?_, ?_⟩, ih hrest hnodup'⟩
      · have hxid : x ≠ id := by
          rintro rfl
          simp at hx
        have hxnew : x ≠ newId := by
          rintro rfl
          simp at hx
        rw [setPage_pages, if_neg hxnew, setPage_pages, if_neg hxid]
        exact hp'
      · cases before with
        | nil => exact hpage
        | cons y before => exact hpage

theorem Chained.setPage (hh : Chained h ids) (hp : h.pages id = some p) (hq : Layout q)
    (hheader : ∀ x < 16, q x = p x) : Chained (h.setPage id q) ids := by
  constructor
  case first => exact hh.first
  case chain => exact hh.chain.setPage hp hq hheader
  case nodup => exact hh.nodup
  case known => exact hh.known
  case only =>
    intro x r hr
    rw [setPage_pages] at hr
    split at hr
    case isTrue hx => exact hx ▸ hh.only id p hp
    case isFalse => exact hh.only x r hr

theorem Chained.fresh (hh : Chained h ids) : h.pages h.nextPageId = none := by
  cases hp : h.pages h.nextPageId with
  | none => rfl
  | some p => exact absurd (hh.known _ (hh.only _ p hp)).2 (Int.lt_irrefl _)

/-- There are no more pages in the chain than ids given out. -/
theorem Chained.length_le (hh : Chained h ids) : ids.length ≤ h.nextPageId.toNat := by
  have hinj : (ids.map Int.toNat).Nodup := by
    apply List.Nodup.map_on _ hh.nodup
    intro x hx y hy hxy
    rw [← Int.toNat_of_nonneg (hh.known x hx).1, hxy, Int.toNat_of_nonneg (hh.known y hy).1]
  have hsub : ids.map Int.toNat ⊆ List.range h.nextPageId.toNat := by
    intro n hn
    obtain ⟨x, hx, rfl⟩ := List.mem_map.mp hn
    have hx0 : (0 : Int) ≤ x := (hh.known x hx).1
    have hlt : (x : Int) < h.nextPageId := (hh.known x hx).2
    exact List.mem_range.mpr (by omega)
  have hlen := (List.subperm_of_subset hinj hsub).length_le
  rwa [List.length_map, List.length_range] at hlen

/-! ### Contents -/

theorem contents_of_pages {rid : RID} (hp : h.pages rid.pageId = some p) :
    h.contents rid = p.slotAt rid.slotNum := by
  rw [contents, hp, Option.bind_some]

theorem contents_setPage {rid : RID} {v : Option StoredTuple} (hp : h.pages rid.pageId = some p)
    (hslot : q.slotAt = Function.update p.slotAt rid.slotNum v) :
    (h.setPage rid.pageId q).contents = Function.update h.contents rid v := by
  funext r
  rw [contents, setPage_pages, Function.update_apply]
  by_cases hid : r.pageId = rid.pageId
  · rw [if_pos hid, Option.bind_some, hslot, Function.update_apply]
    have hiff : r = rid ↔ r.slotNum = rid.slotNum := by
      cases r
      cases rid
      simp_all
    simp only [hiff]
    split
    case isTrue => rfl
    case isFalse =>
      rw [contents, hid, hp]
      rfl
  · rw [if_neg hid, if_neg fun heq => hid (congrArg RID.pageId heq)]
    rfl

/-! ### What one operation does -/

/-- Pages that differ in the link only. -/
def SameButLink (p q : TablePage) : Prop := ∀ x : Nat, x < 12 ∨ 16 ≤ x → q x = p x

section SameButLink

variable (hpq : SameButLink p q)
include hpq

theorem SameButLink.getInt32 {a : Nat} (ha : a + 4 ≤ 12 ∨ 16 ≤ a) :
    Memory.getInt32 q a = Memory.getInt32 p a :=
  Memory.getInt32_congr fun i hi => hpq (a + i) (by omega)

theorem SameButLink.getTupleCount : q.getTupleCount = p.getTupleCount := hpq.getInt32 (by omega)

theorem SameButLink.sameTuples (hp : Layout p) : SameTuples p q := by
  have hdir := hp.count
  apply SameTuples.of_fields hp hpq.getTupleCount (hpq.getInt32 (by omega))
  · exact fun i => hpq.getInt32 (by omega)
  · exact fun i _ => hpq.getInt32 (by omega)
  · exact fun x hx => hpq x (Or.inr (by omega))

theorem SameButLink.layout (hp : Layout p) : Layout q := by
  have hcount := hpq.getTupleCount
  apply (hpq.sameTuples hp).layout hp
  · rw [hcount]
    exact hp.count
  · rw [hcount]
    exact hp.directory

end SameButLink

/-- The chain may have one more page, on which there is no tuple; on the
other pages nothing but the link has changed. -/
structure Grown (h : TableHeap) (ids : List PageId) (h' : TableHeap) (ids' : List PageId) :
    Prop where
  chained : Chained h' ids'
  ids : ids <+: ids'
  old : ∀ id p, h.pages id = some p → ∃ p', h'.pages id = some p' ∧ SameButLink p p'
  new : ∀ id p', h.pages id = none → h'.pages id = some p' →
    ∃ p prev, p' = TablePage.init p id pageSize prev

theorem Grown.refl (hh : Chained h ids) : Grown h ids h ids := by
  constructor
  case chained => exact hh
  case ids => exact List.prefix_rfl
  case old => exact fun id p hp => ⟨p, hp, fun _ _ => rfl⟩
  case new =>
    intro id p hnone hp
    rw [hnone] at hp
    cases hp

theorem fetchPage_eq (hp : h.pages id = some p) : h.fetchPage id = .ok p := by
  rw [fetchPage, hp]

theorem chainPage_init (p : TablePage) (prev : PageId) (hid : 0 ≤ id) (hlt : id < 2147483648) :
    ChainPage (p.init id pageSize prev) id invalidPageId := by
  constructor
  case layout => exact layout_init p id prev
  case pageId =>
    have hread : Memory.getInt32 (p.setInt32 0 id) 0 = id :=
      Memory.getInt32_setInt32 _ _ (Int.le_trans (by decide) hid) hlt
    refine Eq.trans ?_ hread
    refine (Memory.getInt32_setInt32_of_disjoint (by omega)).trans ?_
    refine (Memory.getInt32_setInt32_of_disjoint (by omega)).trans ?_
    refine (Memory.getInt32_setInt32_of_disjoint (by omega)).trans ?_
    exact Memory.getInt32_setInt32_of_disjoint (by omega)
  case nextPageId =>
    refine (Memory.getInt32_setInt32_of_disjoint (by omega)).trans ?_
    refine (Memory.getInt32_setInt32_of_disjoint (by omega)).trans ?_
    exact Memory.getInt32_setInt32 _ _ (by decide) (by decide)

theorem getFreeSpaceSize_init (p : TablePage) (id prev : PageId) :
    (p.init id pageSize prev).getFreeSpaceSize = 488 := by
  rw [getFreeSpaceSize, getFreeSpacePointer_init, getTupleCount_init]
  rfl

section Appending

variable {before : List PageId} {h' : TableHeap} {p' : TablePage}

theorem Chained.append (hh : Chained h (before ++ [id])) (hp' : ChainPage p' id h.nextPageId)
    (hq : ChainPage q h.nextPageId invalidPageId) (hfirst : h'.firstPageId = h.firstPageId)
    (hnext : h'.nextPageId = h.nextPageId + 1)
    (hpages : ∀ x, h'.pages x =
      if x = h.nextPageId then some q else if x = id then some p' else h.pages x) :
    Chained h' (before ++ [id, h.nextPageId]) := by
  have hmem : id ∈ before ++ [id] := List.mem_append_right _ List.mem_cons_self
  have hid := hh.known id hmem
  have hnew : h.nextPageId ∉ before ++ [id] := fun hx => Int.lt_irrefl _ (hh.known _ hx).2
  have hlist : before ++ [id, h.nextPageId] = before ++ [id] ++ [h.nextPageId] := by simp
  have hnodup : (before ++ [id, h.nextPageId]).Nodup := by
    rw [hlist, ← List.concat_eq_append]
    exact hh.nodup.concat hnew
  constructor
  case first =>
    rw [hfirst, ← hh.first]
    cases before with
    | nil => rfl
    | cons x before => rfl
  case chain =>
    apply (Chain.concat hh.chain hnodup hp' hq).frame
    intro x _
    rw [hpages, setPage_pages, setPage_pages]
  case nodup => exact hnodup
  case known =>
    intro x hx
    rw [hlist] at hx
    rw [hnext]
    rcases List.mem_append.mp hx with hx | hx
    · exact ⟨(hh.known x hx).1, Int.lt_trans (hh.known x hx).2 (Int.lt_succ _)⟩
    · rw [List.mem_singleton.mp hx]
      exact ⟨Int.le_trans hid.1 (Int.le_of_lt hid.2), Int.lt_succ _⟩
  case only =>
    intro x r hr
    rw [hpages] at hr
    rw [hlist]
    split at hr
    case isTrue hx => exact List.mem_append_right _ (List.mem_singleton.mpr hx)
    case isFalse =>
      apply List.mem_append_left
      split at hr
      case isTrue hx => exact hx ▸ hmem
      case isFalse => exact hh.only x r hr

/-- Nothing but a link changes when the page is a new one. -/
theorem Chained.grown_append (hh : Chained h (before ++ [id])) (hp : h.pages id = some p)
    (hbut : SameButLink p p') {prev : PageId}
    (hh' : Chained h' (before ++ [id, h.nextPageId]))
    (hpages : ∀ x, h'.pages x =
      if x = h.nextPageId then some (TablePage.init q h.nextPageId pageSize prev)
      else if x = id then some p' else h.pages x) :
    Grown h (before ++ [id]) h' (before ++ [id, h.nextPageId]) := by
  constructor
  case chained => exact hh'
  case ids =>
    have hlist : before ++ [id, h.nextPageId] = before ++ [id] ++ [h.nextPageId] := by simp
    rw [hlist]
    exact List.prefix_append _ _
  case old =>
    intro x r hr
    rw [hpages, if_neg]
    · by_cases hx : x = id
      · subst hx
        rw [hp] at hr
        cases hr
        exact ⟨p', if_pos rfl, hbut⟩
      · exact ⟨r, (if_neg hx).trans hr, fun _ _ => rfl⟩
    · rintro rfl
      rw [hh.fresh] at hr
      cases hr
  case new =>
    intro x r hnone hr
    rw [hpages] at hr
    split at hr
    case isTrue hx =>
      cases hr
      exact ⟨_, _, by rw [hx]⟩
    case isFalse =>
      split at hr
      case isTrue hx =>
        rw [hx, hp] at hnone
        cases hnone
      case isFalse =>
        rw [hnone] at hr
        cases hr

end Appending

/-- The last page gets a page behind it, while there is an id left. -/
theorem appendPage_ok {before : List PageId} (hh : Chained h (before ++ [id]))
    (hp : h.pages id = some p) (hpage : ChainPage p id invalidPageId)
    (hlt : h.nextPageId < 2147483648) :
    ∃ h', h.appendPage id p = .ok (h.nextPageId, h') ∧
      Grown h (before ++ [id]) h' (before ++ [id, h.nextPageId]) ∧
      h'.nextPageId = h.nextPageId + 1 ∧ ∀ x, h'.pages x =
        if x = h.nextPageId then
          some (TablePage.init (fun _ => 0) h.nextPageId pageSize p.getPageId)
        else if x = id then some (p.setNextPageId h.nextPageId) else h.pages x := by
  rw [appendPage, newPage]
  have hid := hh.known id (List.mem_append_right _ List.mem_cons_self)
  have hnonneg : 0 ≤ h.nextPageId := Int.le_trans hid.1 (Int.le_of_lt hid.2)
  rw [if_pos hlt]
  let h₁ : TableHeap := { h.setPage h.nextPageId (fun _ => 0) with nextPageId := h.nextPageId + 1 }
  have hpages₁ (x : PageId) : h₁.pages x =
      if x = h.nextPageId then some (fun _ => 0) else h.pages x := setPage_pages h _ _ x
  have hfetch : h₁.fetchPage h.nextPageId = .ok (fun _ => 0) :=
    fetchPage_eq ((hpages₁ _).trans (if_pos rfl))
  let p' : TablePage := p.setNextPageId h.nextPageId
  let q : TablePage := TablePage.init (fun _ => 0) h.nextPageId pageSize p.getPageId
  have hrun : (do
      let newPage ← h₁.fetchPage h.nextPageId
      .ok (h.nextPageId, (h₁.setPage id (p.setNextPageId h.nextPageId)).setPage h.nextPageId
        (newPage.init h.nextPageId pageSize p.getPageId)) : Except Fault (PageId × TableHeap)) =
      .ok (h.nextPageId, (h₁.setPage id p').setPage h.nextPageId q) := by
    rw [hfetch]
    rfl
  have hbut : SameButLink p p' := fun x hx => Memory.setInt32_of_not_mem (by omega)
  have hp' : ChainPage p' id h.nextPageId := by
    constructor
    case layout => exact hbut.layout hpage.layout
    case pageId => exact (hbut.getInt32 (by omega)).trans hpage.pageId
    case nextPageId =>
      exact Memory.getInt32_setInt32 _ _ (Int.le_trans (by decide) hnonneg) hlt
  have hpages (x : PageId) : ((h₁.setPage id p').setPage h.nextPageId q).pages x =
      if x = h.nextPageId then some q else if x = id then some p' else h.pages x := by
    rw [setPage_pages]
    split
    case isTrue => rfl
    case isFalse hx => rw [setPage_pages, hpages₁, if_neg hx]
  have hq : ChainPage q h.nextPageId invalidPageId := chainPage_init _ _ hnonneg hlt
  have hchained : Chained ((h₁.setPage id p').setPage h.nextPageId q)
      (before ++ [id, h.nextPageId]) := hh.append hp' hq rfl rfl hpages
  exact ⟨_, hrun, hh.grown_append hp hbut hchained hpages, rfl, hpages⟩

theorem appendPage_spec {before : List PageId} (hh : Chained h (before ++ [id]))
    (hp : h.pages id = some p) (hpage : ChainPage p id invalidPageId) :
    h.appendPage id p = .error .noSuchPage ∨
      ∃ h' q, h.appendPage id p = .ok (h.nextPageId, h') ∧
        Grown h (before ++ [id]) h' (before ++ [id, h.nextPageId]) ∧
        h'.pages h.nextPageId = some q ∧ q.getFreeSpaceSize = 488 := by
  by_cases hlt : h.nextPageId < 2147483648
  · right
    obtain ⟨h', hrun, hgrown, -, hpages⟩ := appendPage_ok hh hp hpage hlt
    exact ⟨h', _, hrun, hgrown, (hpages _).trans (if_pos rfl), getFreeSpaceSize_init _ _ _⟩
  · left
    rw [appendPage, newPage, if_neg hlt]
    rfl

/-- The chain may have grown, and then the page of `rid` has taken the
tuple. -/
def Inserted (h : TableHeap) (ids : List PageId) (tuple : List UInt8) (rid : RID) (h' : TableHeap)
    (ids' : List PageId) : Prop :=
  ∃ h₁ p q, Grown h ids h₁ ids' ∧ rid.pageId ∈ ids' ∧ h₁.pages rid.pageId = some p ∧
    p.insertTuple tuple = .ok (some rid.slotNum, q) ∧ h' = h₁.setPage rid.pageId q

section InsertLoop

variable {tuple : List UInt8}

theorem insertLoop_stored {fuel i : Nat} (hp : h.pages id = some p) (hid : p.getPageId = id)
    (htake : p.insertTuple tuple = .ok (some i, q)) :
    insertLoop tuple (fuel + 1) h id = .ok (⟨id, i⟩, h.setPage id q) := by
  simp only [insertLoop, fetchPage_eq hp, htake, bind, Except.bind, hid]

theorem insertLoop_refused {fuel : Nat} (hp : h.pages id = some p)
    (hrefuse : p.insertTuple tuple = .ok (none, p)) :
    insertLoop tuple (fuel + 1) h id =
      if p.getNextPageId ≠ invalidPageId then insertLoop tuple fuel h p.getNextPageId
      else h.appendPage id p >>= fun r => insertLoop tuple fuel r.2 r.1 := by
  simp only [insertLoop, fetchPage_eq hp, hrefuse, bind, Except.bind]

/-- The loop runs along the chain, and at its end makes a page, which has
room for any tuple that is not too large. -/
theorem insertLoop_spec (hne : tuple ≠ []) (hsize : tuple.length ≤ 480) (after : List PageId) :
    ∀ (before : List PageId) (id : PageId) (fuel : Nat), Chained h (before ++ id :: after) →
      after.length + 2 ≤ fuel →
      insertLoop tuple fuel h id = .error .noSuchPage ∨
        ∃ rid h' ids', insertLoop tuple fuel h id = .ok (rid, h') ∧
          Inserted h (before ++ id :: after) tuple rid h' ids' := by
  induction after with
  | nil =>
      intro before id fuel hh hfuel
      obtain ⟨fuel, rfl⟩ : ∃ n, fuel = n + 2 := ⟨fuel - 2, by simp at hfuel; omega⟩
      obtain ⟨p, hp, hpage⟩ := hh.chain.at
      rcases insertTuple_spec hpage.layout hne with ⟨hrefuse, -⟩ | ⟨i, q, htake, -⟩
      · have hlast : ¬p.getNextPageId ≠ invalidPageId := not_not.mpr hpage.nextPageId
        rw [insertLoop_refused hp hrefuse, if_neg hlast]
        rcases appendPage_spec hh hp hpage with herr | ⟨h₁, r, hrun, hgrown, hr, hroom⟩
        · left
          rw [herr]
          rfl
        · right
          rw [hrun]
          have hmem : h.nextPageId ∈ before ++ [id, h.nextPageId] := by simp
          obtain ⟨r', next, hr', hpage'⟩ := hgrown.chained.chain.mem hmem
          rw [hr] at hr'
          cases hr'
          rcases insertTuple_spec hpage'.layout hne with ⟨-, hsmall⟩ | ⟨i, q, htake, -⟩
          · rw [hroom] at hsmall
            omega
          · exact ⟨_, _, _, insertLoop_stored hr hpage'.pageId htake,
              h₁, r, q, hgrown, hmem, hr, htake, rfl⟩
      · right
        exact ⟨_, _, _, insertLoop_stored hp hpage.pageId htake,
          h, p, q, Grown.refl hh, List.mem_append_right _ List.mem_cons_self, hp, htake, rfl⟩
  | cons next after ih =>
      intro before id fuel hh hfuel
      obtain ⟨fuel, rfl⟩ : ∃ n, fuel = n + 1 := ⟨fuel - 1, by simp at hfuel; omega⟩
      obtain ⟨p, hp, hpage⟩ := hh.chain.at
      rcases insertTuple_spec hpage.layout hne with ⟨hrefuse, -⟩ | ⟨i, q, htake, -⟩
      · have hnext : next ∈ before ++ id :: next :: after := by simp
        have hvalid : p.getNextPageId ≠ invalidPageId := by
          rw [hpage.nextPageId]
          intro heq
          have hnonneg := (hh.known next hnext).1
          rw [show next = invalidPageId from heq] at hnonneg
          exact absurd hnonneg (by decide)
        rw [insertLoop_refused hp hrefuse, if_pos hvalid, hpage.nextPageId]
        have hlist : before ++ id :: next :: after = before ++ [id] ++ next :: after := by simp
        rw [hlist] at hh ⊢
        exact ih (before ++ [id]) next fuel hh (by simp at hfuel; omega)
      · right
        exact ⟨_, _, _, insertLoop_stored hp hpage.pageId htake,
          h, p, q, Grown.refl hh, List.mem_append_right _ List.mem_cons_self, hp, htake, rfl⟩

/-- `InsertTuple` refuses tuples that are too large and stores all others. -/
theorem insertTuple_cases (hh : Chained h ids) (hne : tuple ≠ []) (txn : Transaction) :
    (480 < tuple.length ∧ h.insertTuple tuple txn = .ok (none, h, txn.setState .aborted)) ∨
      h.insertTuple tuple txn = .error .noSuchPage ∨
      ∃ rid h' ids', h.insertTuple tuple txn = .ok (some rid, h', txn.emplaceBack rid .insert []) ∧
        Inserted h ids tuple rid h' ids' := by
  rw [TableHeap.insertTuple]
  by_cases hlarge : tuple.length + 32 > pageSize
  · left
    refine ⟨?_, if_pos hlarge⟩
    rw [pageSize] at hlarge
    omega
  · right
    have hsize : tuple.length ≤ 480 := by
      rw [pageSize] at hlarge
      omega
    obtain ⟨first, after, rfl⟩ : ∃ first after, ids = first :: after := by
      cases ids with
      | nil => cases hh.first
      | cons first after => exact ⟨first, after, rfl⟩
    have hfirst : first = h.firstPageId := Option.some.inj hh.first
    obtain ⟨⟨p, hp, -⟩, -⟩ := hh.chain
    have hlen := hh.length_le
    rw [if_neg hlarge, ← hfirst, hp]
    have hloop := insertLoop_spec hne hsize after [] first (h.nextPageId.toNat + 1) hh
      (by simp at hlen; omega)
    rcases hloop with herr | ⟨rid, h', ids', hrun, hins⟩
    · left
      show (insertLoop tuple (h.nextPageId.toNat + 1) h first >>= _) = _
      rw [herr]
      rfl
    · right
      refine ⟨rid, h', ids', ?_, hins⟩
      show (insertLoop tuple (h.nextPageId.toNat + 1) h first >>= _) = _
      rw [hrun]
      rfl

end InsertLoop

end TableHeap

end ScuDb
