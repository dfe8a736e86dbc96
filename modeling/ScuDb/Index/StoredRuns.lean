import ScuDb.Index.RootRecord
import ScuDb.Index.StoredRemoval

/-!
The bytes of a tree hold a finite map.

Every run of calls over the bytes of the pages does what it does over the
pages, so that it answers as a finite map does. When a table is connected
again, a new tree object takes its root from the bytes of the header page.
-/

namespace ScuDb

open Foundations

variable {K V : Type} [Inhabited K]

theorem stores_construct (fmt : TreeFormat K V) {header : HeaderPage} {next : PageId}
    (hnext : 1 ≤ next) {pages : PageId → PageBytes}
    (hpages : HeaderBytes.Lays (pages headerPageId) header) :
    Stores fmt pages next (BPlusTree.empty header next)
      (StoredTree.construct invalidPageId pages next) where
  rootPageId := rfl
  validRoot := valid_invalidPageId
  page _ _ hpage := nomatch hpage
  header := hpages
  next := ⟨rfl, rfl⟩
  positive := hnext
  rootLockedCnt := rfl
  pageSet := rfl
  deletedPageSet := rfl
  calls := rfl
  written := rfl

namespace IndexOp

variable [Inhabited V]

/-- A call, over the bytes. -/
def runStored (fmt : TreeFormat K V) : IndexOp K V → StoredM (IndexResult V)
  | .insert key value => do
      let success ← StoredTree.insert fmt key value true
      pure (.inserted success)
  | .remove key => do
      StoredTree.remove fmt key true
      pure .removed
  | .getValue key result transaction => do
      let (success, result) ← StoredTree.getValue fmt key result transaction
      pure (.found success (if success = true then result.head? else none))

/-- What is inserted can be stored. -/
def Storable (fmt : TreeFormat K V) : IndexOp K V → Prop
  | .insert key value => fmt.key.Valid key ∧ fmt.value.Valid value
  | _ => True

theorem runStored_mirrors {fmt : TreeFormat K V} {base : PageId → PageBytes} {limit : PageId}
    {op : IndexOp K V} (hop : op.Storable fmt) :
    Mirrors fmt base (fun _ r r' => r = r') limit (op.runStored fmt)
      (op.run fmt.toIndexParams) := by
  cases op with
  | insert key value =>
      refine (StoredTree.insert_mirrors true hop.1 hop.2).bind fun _ _ _ _ h => .pure ?_
      rw [h]
  | remove key => exact (StoredTree.remove_mirrors key true).bind fun _ _ _ _ _ => .pure rfl
  | getValue key result transaction =>
      refine (StoredTree.getValue_mirrors key result transaction).bind fun _ _ _ _ h => ?_
      subst h
      exact .pure rfl

theorem runAll_mirrors {fmt : TreeFormat K V} {base : PageId → PageBytes} {limit : PageId}
    {ops : List (IndexOp K V)} (hops : ∀ op ∈ ops, op.Storable fmt) :
    Mirrors fmt base (fun _ rs rs' => rs = rs') limit (runAll (runStored fmt) ops)
      (runAll (run fmt.toIndexParams) ops) :=
  .runAll fun op hop _ => runStored_mirrors (hops op hop)

end IndexOp

section Runs

variable [DecidableEq K] [Inhabited V]

/-- Over the bytes of a tree every run of calls is free of faults and
answers as a finite map does, as long as there are page ids. -/
theorem IndexOp.runAll_runStored {B : Type} [LinearOrder B] [BoundedOrder B]
    {fmt : TreeFormat K V} {ω : OrderedIndex K B} (hω : ω.toIndexParams = fmt.toIndexParams)
    {base : PageId → PageBytes} {limit : PageId} {R : Prop} {m : K → Option V}
    {t : BPlusTree K V} {b : StoredTree} (ht : BPlusTree.Represents ω R m t)
    (hstores : Stores fmt base limit t b) {ops : List (IndexOp K V)}
    (hkeys : ∀ op ∈ ops, op.key ∈ ω.keys) (hstorable : ∀ op ∈ ops, op.Storable fmt) :
    runAll (runStored fmt) ops b = .error .noPageId ∨
    ∃ t' b', runAll (run fmt.toIndexParams) ops t = .ok ((specAll spec ops m).1, t') ∧
      runAll (runStored fmt) ops b = .ok ((specAll spec ops m).1, b') ∧
      Stores fmt base t'.nextPageId t' b' := by
  have hrefines := IndexOp.refines (V := V) ω
  rw [hω] at hrefines
  obtain ⟨rs, t', hrun, rfl, -⟩ := hrefines.run (ht.mono False.elim)
    (admissible_of_forall (fun op hop _ => hkeys op hop) _)
  rcases runAll_mirrors hstorable _ _ hstores _ t' hrun with hstop | h
  · exact .inl hstop
  · obtain ⟨rs', b', limit', hstored, -, hstores', rfl⟩ := h
    obtain ⟨rfl, -⟩ := hstores'.next
    exact .inr ⟨t', b', hrun, hstored, hstores'⟩

/-- Starting from an empty tree over any pages, every run of calls over
the bytes is free of faults and answers every call as a finite map does,
as long as there are page ids; no access leaves a page, and in the end the
bytes hold the pages of a tree. -/
theorem stored_tree_refines_map (fmt : TreeFormat K V) (S : Set K)
    (hcmp : StrictTotalOrderOn fmt.comparator S) (hname : fmt.indexName.length < 32)
    (header : HeaderPage) (hroom : header.recorded fmt.indexName = none →
      header.getRecordCount < HeaderPage.capacity)
    (next : PageId) (hnext : 1 ≤ next) (pages : PageId → PageBytes)
    (hpages : HeaderBytes.Lays (pages headerPageId) header) (ops : List (IndexOp K V))
    (hkeys : ∀ op ∈ ops, op.key ∈ S) (hstorable : ∀ op ∈ ops, op.Storable fmt) :
    runAll (IndexOp.runStored fmt) ops (.construct invalidPageId pages next) = .error .noPageId ∨
    ∃ t b, runAll (IndexOp.run fmt.toIndexParams) ops (BPlusTree.empty header next) =
        .ok ((specAll IndexOp.spec ops fun _ => none).1, t) ∧
      runAll (IndexOp.runStored fmt) ops (.construct invalidPageId pages next) =
        .ok ((specAll IndexOp.spec ops fun _ => none).1, b) ∧
      Stores fmt pages t.nextPageId t b := by
  obtain ⟨B, hB, hB', ω, hω, rfl⟩ := exists_orderedIndex fmt.toIndexParams hcmp hname
  rw [← hω] at hroom
  exact IndexOp.runAll_runStored hω (BPlusTree.represents_empty ω hnext hroom)
    (stores_construct fmt hnext hpages) hkeys hstorable

end Runs

/-- A run that has a result has not run out of page ids. -/
theorem not_noPageId {α : Type} {r : Except Halt α} (h : r.toOption.isSome = true) :
    r ≠ .error .noPageId := by
  rintro rfl
  cases h

/-- An index on 32-bit integers, called `n`, with pairs of them as values.
The keys take 64 bytes, so that a leaf holds five entries at most. -/
def integerFormat : TreeFormat Int (Int × Int) where
  indexName := [110]
  keySize := .bytes64
  comparator a b := a - b
  key := Codec.int32.padded 60
  value := Codec.int32.prod .int32
  key_width := rfl
  value_width := rfl
  valid_default := ⟨by decide, by decide⟩
  encode_default := rfl
  noNul := by decide

/-- Calls that split a leaf twice, merge two leaves, and move an entry
from one leaf to the other. -/
def threeLeaves : List (IndexOp Int (Int × Int)) :=
  ([1, 2, 3, 4, 5, 6, 7, 8, 9].map fun key => .insert key (0, 10 * key)) ++
    [.remove 9, .remove 8, .insert 8 (1, 80), .remove 3, .remove 2]

theorem threeLeaves_storable : ∀ op ∈ threeLeaves, op.Storable integerFormat := by
  simp [threeLeaves, IndexOp.Storable, integerFormat, Codec.int32, Codec.padded, Codec.prod]

theorem lays_zeros : HeaderBytes.Lays (fun _ => 0) HeaderPage.init where
  count := rfl
  fits := Nat.zero_le _
  record _ _ hr := nomatch hr

theorem stored_tree_refines_map_integers :
    ∃ t b, runAll (IndexOp.run integerFormat.toIndexParams) threeLeaves
        (BPlusTree.empty HeaderPage.init 1) =
        .ok (List.replicate 9 (.inserted true) ++
          [.removed, .removed, .inserted true, .removed, .removed], t) ∧
      runAll (IndexOp.runStored integerFormat) threeLeaves
        (.construct invalidPageId (fun _ _ => 0) 1) =
        .ok (List.replicate 9 (.inserted true) ++
          [.removed, .removed, .inserted true, .removed, .removed], b) ∧
      Stores integerFormat (fun _ _ => 0) t.nextPageId t b :=
  (stored_tree_refines_map integerFormat Set.univ strictTotalOrderOn_sub (by decide)
    HeaderPage.init (fun _ => by decide) 1 (by decide) _ lays_zeros threeLeaves
    (fun _ _ => Set.mem_univ _) threeLeaves_storable).resolve_left
    (not_noPageId (by decide +kernel))

end ScuDb
