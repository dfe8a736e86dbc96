import ScuDb.Index.Contract
import ScuDb.Table.TableHeap

/-!
Cursors of index scans, `virtual_table.h`.

A cursor goes by the vector of results alone. `GetValue` makes room for
one value before it looks the key up, and leaves it there when the key is
not stored: the cursor then stands on a `RID` nobody has put into it.
-/

namespace ScuDb

open Foundations

variable {K V : Type}

/-- `BPlusTreeIndex::ScanKey`: the vector of results. -/
def BPlusTreeIndex.scanKey [Inhabited V] (params : IndexParams K) (key : K) (result : List V) :
    TreeM K V (List V) := do
  let (_, result) ← BPlusTree.getValue params key result false
  pure result

structure Cursor (V : Type) where
  results : List V
  offset : Nat
  tableIterator : TableIterator
  isIndexScan : Bool

namespace Cursor

/-- The constructor; `itr` is the begin of the table. -/
def create (itr : TableIterator) : Cursor V := ⟨[], 0, itr, false⟩

def setScanFlag (c : Cursor V) (isIndexScan : Bool) : Cursor V :=
  { c with isIndexScan := isIndexScan }

def isEof (tableHeap : TableHeap) (c : Cursor V) : Bool :=
  if c.isIndexScan = true then c.offset = c.results.length
  else c.tableIterator.isEqual (TableIterator.finish tableHeap)

def scanKey [Inhabited V] (params : IndexParams K) (key : K) (c : Cursor V) :
    TreeM K V (Cursor V) := do
  let results ← BPlusTreeIndex.scanKey params key c.results
  pure { c with results := results }

/-- `VtabFilter` of a new cursor, for the key it makes of its arguments. -/
def filterNew [Inhabited V] (params : IndexParams K) (itr : TableIterator) (key : K) :
    TreeM K V (Cursor V) :=
  ((create itr).setScanFlag true).scanKey params key

end Cursor

namespace BPlusTree

/-- The boolean and the vector say what `stored` says, and so does a
cursor that is at its end where nothing is stored. -/
def AnswersQuery [Inhabited V] (params : IndexParams K) (t : BPlusTree K V) (key : K)
    (stored : Option V) : Prop :=
  (∀ transaction, ∃ t', (getValue params key [] transaction : TreeM K V _) t =
    .ok ((stored.isSome, stored.toList), t')) ∧
  (stored = none → ∀ itr tableHeap, ∃ c t', Cursor.filterNew params itr key t = .ok (c, t') ∧
    c.results = [] ∧ c.isEof tableHeap = true)

variable {B : Type} [LinearOrder B] [BoundedOrder B] [Inhabited V] {ω : OrderedIndex K B}
  {R : Prop} {m : K → Option V} {t : BPlusTree K V} {key : K}

theorem Represents.exists_getValue (h : Represents ω R m t) (hkey : key ∈ ω.keys)
    (transaction : Bool) :
    ∃ l t', (getValue ω.toIndexParams key [] transaction : TreeM K V _) t =
        .ok (((m key).isSome, l), t') ∧
      (∀ v, m key = some v → l = [v]) ∧
      (m key = none → l = if t.rootPageId = invalidPageId then [] else [default]) := by
  obtain ⟨⟨success, l⟩, t', hrun, ⟨hsuccess, hfound, -⟩, -, -, hnone⟩ :=
    wp_getValue_pages h hkey [] transaction
  cases hsuccess
  exact ⟨l, t', hrun, hfound, hnone⟩

/-- The answer is right unless the key is looked for in a leaf, in vain. -/
theorem Represents.answersQuery_iff (h : Represents ω R m t) (hkey : key ∈ ω.keys) :
    AnswersQuery ω.toIndexParams t key (m key) ↔
      m key ≠ none ∨ t.rootPageId = invalidPageId := by
  constructor
  · rintro ⟨hanswer, -⟩
    by_contra hnot
    obtain ⟨hm, hroot⟩ := not_or.mp hnot
    rw [not_not] at hm
    obtain ⟨l, t', hrun, -, hnone⟩ := h.exists_getValue hkey false
    obtain ⟨t'', hrun'⟩ := hanswer false
    rw [hrun, hm] at hrun'
    have hl := hnone hm
    rw [if_neg hroot] at hl
    rw [hl] at hrun'
    cases hrun'
  · intro hcond
    have hrun : ∀ transaction, ∃ t',
        (getValue ω.toIndexParams key [] transaction : TreeM K V _) t =
          .ok (((m key).isSome, (m key).toList), t') := by
      intro transaction
      obtain ⟨l, t', hrun, hfound, hnone⟩ := h.exists_getValue hkey transaction
      refine ⟨t', ?_⟩
      cases hm : m key with
      | some v => rw [hrun, hfound v hm, hm]; rfl
      | none =>
          have hroot := hcond.resolve_left fun hne => hne hm
          rw [hrun, hnone hm, if_pos hroot, hm]
          rfl
    refine ⟨hrun, fun hm itr tableHeap => ?_⟩
    obtain ⟨t', hget⟩ := hrun false
    rw [hm] at hget
    have hfilter : wp (Cursor.filterNew ω.toIndexParams itr key) (fun c _ =>
        c.results = [] ∧ c.isEof tableHeap = true) t := by
      simp only [Cursor.filterNew, Cursor.scanKey, BPlusTreeIndex.scanKey, wp_bind]
      exact ⟨_, t', hget, wp_pure.mpr (wp_pure.mpr ⟨rfl, rfl⟩)⟩
    obtain ⟨c, s, hrun, hc⟩ := hfilter
    exact ⟨c, s, hrun, hc⟩

end BPlusTree

/-- In every tree a run of calls leads to, a query for a key, with a
vector that is empty, answers what is stored exactly when the key is
stored or the tree is empty. -/
theorem query_answers_iff [Inhabited K] [DecidableEq K] [Inhabited V] (params : IndexParams K)
    (S : Set K) (hcmp : StrictTotalOrderOn params.comparator S)
    (hname : params.indexName.length < 32)
    (header : HeaderPage) (hroom : header.recorded params.indexName = none →
      header.getRecordCount < HeaderPage.capacity)
    (next : PageId) (hnext : 1 ≤ next) (ops : List (IndexOp K V))
    (hkeys : ∀ op ∈ ops, op.key ∈ S) (key : K) (hkey : key ∈ S) :
    ∃ rs t m, runAll (IndexOp.run params) ops (BPlusTree.empty header next) = .ok (rs, t) ∧
      m = (specAll IndexOp.spec ops fun _ => none).2 ∧
      (BPlusTree.AnswersQuery params t key (m key) ↔
        m key ≠ none ∨ t.rootPageId = invalidPageId) := by
  obtain ⟨B, hB, hB', ω, rfl, rfl⟩ := exists_orderedIndex params hcmp hname
  obtain ⟨rs, t, hrun, -, ht⟩ := (IndexOp.refines ω).run
    (BPlusTree.represents_empty (V := V) ω hnext hroom)
    (admissible_of_forall (fun op hop _ => hkeys op hop) _)
  exact ⟨rs, t, _, hrun, rfl, ht.answersQuery_iff hkey⟩

theorem query_answers_iff_integers :
    ∃ rs t, ∃ m : Int → Option Nat,
      runAll (IndexOp.run integerIndex) [.insert 1 (10 : Nat), .insert 2 20, .remove 2]
        (BPlusTree.empty HeaderPage.init 1) = .ok (rs, t) ∧
      m = (specAll IndexOp.spec [.insert 1 (10 : Nat), .insert 2 20, .remove 2]
        fun _ => none).2 ∧
      (BPlusTree.AnswersQuery integerIndex t 2 (m 2) ↔
        m 2 ≠ none ∨ t.rootPageId = invalidPageId) :=
  query_answers_iff integerIndex Set.univ strictTotalOrderOn_sub (by decide) HeaderPage.init
    (fun _ => by decide) 1 (by decide) _ (fun _ _ => Set.mem_univ _) 2 (Set.mem_univ _)

/-- The key 2 is looked for in a tree that holds the key 1 only. -/
theorem query_leaves_element : ∃ rs t, runAll (IndexOp.run integerIndex) [.insert 1 (10 : Nat)]
      (BPlusTree.empty HeaderPage.init 1) = .ok (rs, t) ∧
    (specAll IndexOp.spec [.insert 1 (10 : Nat)] fun _ => none).2 2 = none ∧
    (∃ t', (BPlusTree.getValue integerIndex 2 [] false : TreeM Int Nat _) t =
      .ok ((false, [0]), t')) ∧
    ¬BPlusTree.AnswersQuery integerIndex t 2 none := by
  refine ⟨_, _, rfl, rfl, ⟨_, rfl⟩, ?_⟩
  rintro ⟨hanswer, -⟩
  obtain ⟨t', hrun⟩ := hanswer false
  cases hrun

end ScuDb
