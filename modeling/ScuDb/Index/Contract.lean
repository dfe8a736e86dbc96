import ScuDb.Foundations.Refinement
import ScuDb.Index.Removal

/-!
The tree behaves as a finite map from keys to values.

`IndexOp` are the calls a client of a tree makes. `IndexOp.run` is what
the tree does for one of them, `IndexOp.spec` what a finite map does. The
one refines the other, so a run of any length returns what the map
returns.
-/

namespace ScuDb

open Foundations

variable {K V B : Type} [LinearOrder B] [BoundedOrder B]

namespace BPlusTree

/-- A point query gives the value of the key, and leaves the pages as they
are. Without one, the vector has an element all the same, unless the tree
is empty. -/
theorem wp_getValue_pages [Inhabited V] {ω : OrderedIndex K B} {R : Prop} {m : K → Option V}
    {t : BPlusTree K V} (h : Represents ω R m t) {key : K} (hkey : key ∈ ω.keys)
    (result : List V) (transaction : Bool) :
    wp (getValue ω.toIndexParams key result transaction) (fun r t' =>
      (r.1 = (m key).isSome ∧ (∀ v, m key = some v → r.2 = [v]) ∧ Represents ω R m t' ∧
        (Quiet t → Settled t t')) ∧
        t'.pages = t.pages ∧ t'.nextPageId = t.nextPageId ∧
        (m key = none → r.2 = if t.rootPageId = invalidPageId then result
          else [result.headD default])) t := by
  rw [getValue, wp_bind]
  rcases h.tree with ⟨hempty, hm⟩ | ⟨G, H, hs⟩
  · simp only [findLeafPage, lockRootPageId, wp_bind, wp_modify, wp_getRootPageId]
    rw [if_pos hempty, wp_bind, tryUnlockRootPageId, wp_modify, if_pos (Nat.succ_pos _), wp_pure]
    simp only [wp_pure, hm, Option.isSome_none, reduceCtorEq, false_implies, implies_true,
      true_and]
    refine ⟨⟨⟨h.pageSet, h.deletedPageSet, h.nextPageId, h.header, Or.inl ⟨hempty, hm⟩⟩, ?_⟩,
      fun _ => by rw [if_pos hempty]⟩
    intro hquiet
    refine .of_read hquiet hquiet.unlocked rfl rfl fun u₀ old extra hold => ?_
    exact hold.lockRoot.unlockRoot
  · refine hs.wp_findLeafPage_reading h.pageSet h.deletedPageSet (b := ω.rank key)
      (by simpa using hkey) ?_
    intro p c leaf count pageSet calls hp hzero hleaf hlo hhi hset hread
    simp only [wp_bind, wp_leafAt]
    refine ⟨leaf, hleaf, ?_⟩
    obtain ⟨page, hpage, hok⟩ := hs.shape.page hp
    cases hleaf.symm.trans hpage
    have hid : leaf.pageId = p := hok.pageId
    rw [hid, hs.lookup_eq hp hleaf hkey hlo hhi]
    refine wp_freePagesInTransaction_reading (.leaf leaf) ?_ ?_ ?_ ?_ ?_
    · exact hleaf
    · exact hs.shape.positive hp
    · exact h.deletedPageSet
    · exact hset
    intro count' calls' hend
    have hrep : Represents ω R m { t with
        rootLockedCnt := count', pageSet := [], calls := calls' } := by
      refine ⟨rfl, h.deletedPageSet, h.nextPageId, h.header, Or.inr ?_⟩
      exact Stands.frame ⟨G, H, hs⟩ rfl rfl rfl rfl h.deletedPageSet
    have hsettled : Quiet t → Settled t { t with
        rootLockedCnt := count', pageSet := [], calls := calls' } := by
      intro hquiet
      have hback : ∀ u₀ old extra, InHand u₀ old false extra [] 0 t.calls →
          count' = 0 ∧ InHand u₀ old false extra [] 0 calls' := fun u₀ old extra hold =>
        hend u₀ old extra (hread hquiet.unlocked u₀ old extra hold)
      have hstart := hback (.start fun _ => 0) t.calls (fun _ => 0)
        ⟨_, .refl _ _, PoolUse.start_holds _ _⟩
      exact .of_read hquiet hstart.1 rfl rfl fun u₀ old extra hold => (hback u₀ old extra hold).2
    rw [wp_pure]
    cases hm : m key with
    | some v =>
        refine ⟨⟨rfl, ?_, hrep, hsettled⟩, rfl, rfl, fun hnone => by cases hnone⟩
        rintro _ ⟨⟩
        rfl
    | none =>
        refine ⟨⟨rfl, ?_, hrep, hsettled⟩, rfl, rfl, fun _ => by rw [if_neg hs.shape.root_ne]⟩
        rintro _ ⟨⟩

theorem wp_getValue [Inhabited V] {ω : OrderedIndex K B} {R : Prop} {m : K → Option V}
    {t : BPlusTree K V} (h : Represents ω R m t) {key : K} (hkey : key ∈ ω.keys)
    (result : List V) (transaction : Bool) :
    wp (getValue ω.toIndexParams key result transaction) (fun r t' =>
      r.1 = (m key).isSome ∧ (∀ v, m key = some v → r.2 = [v]) ∧ Represents ω R m t' ∧
        (Quiet t → Settled t t')) t :=
  wp_mono (wp_getValue_pages h hkey result transaction) fun _ _ hpost => hpost.1

end BPlusTree

/-! ### Calls and runs -/

/-- The calls of a client. `result` is the vector a query is given. -/
inductive IndexOp (K V : Type)
  | insert (key : K) (value : V)
  | remove (key : K)
  | getValue (key : K) (result : List V) (transaction : Bool)

/-- What a client sees of a call: the boolean and, if a query succeeds,
the first element of its vector. -/
inductive IndexResult (V : Type)
  | inserted (success : Bool)
  | removed
  | found (success : Bool) (value : Option V)
  deriving DecidableEq

namespace IndexOp

def key : IndexOp K V → K
  | .insert key _ => key
  | .remove key => key
  | .getValue key _ _ => key

def isInsert : IndexOp K V → Bool
  | .insert _ _ => true
  | _ => false

/-- What the tree does. Insertions and removals have a transaction. -/
def run [Inhabited K] [Inhabited V] (params : IndexParams K) :
    IndexOp K V → TreeM K V (IndexResult V)
  | .insert key value => do
      let success ← BPlusTree.insert params key value true
      pure (.inserted success)
  | .remove key => do
      BPlusTree.remove params key true
      pure .removed
  | .getValue key result transaction => do
      let (success, result) ← BPlusTree.getValue params key result transaction
      pure (.found success (if success = true then result.head? else none))

/-- What a finite map does. -/
def spec [DecidableEq K] : IndexOp K V → (K → Option V) → IndexResult V × (K → Option V)
  | .insert key value, m =>
      (.inserted (m key).isNone, if m key = none then Function.update m key (some value) else m)
  | .remove key, m => (.removed, Function.update m key none)
  | .getValue key _ _, m => (.found (m key).isSome (m key), m)

end IndexOp

/-- The parameters of a tree whose comparator orders the keys of `S`. -/
theorem exists_orderedIndex (params : IndexParams K) {S : Set K}
    (hcmp : StrictTotalOrderOn params.comparator S) (hname : params.indexName.length < 32) :
    ∃ (B : Type) (_ : LinearOrder B) (_ : BoundedOrder B) (ω : OrderedIndex K B),
      ω.toIndexParams = params ∧ ω.keys = S := by
  obtain ⟨B, hB, hB', rank, hranked⟩ := hcmp.exists_ranked
  exact ⟨B, hB, hB', ⟨params, S, rank, hranked, hname⟩, rfl, rfl⟩

section Runs

variable [Inhabited K] [DecidableEq K] [Inhabited V]

/-- Every call on a tree does what the call on its map does. The record
in the header is as good as before, unless an empty tree gets a key. -/
theorem IndexOp.wp_run {ω : OrderedIndex K B} {R : Prop} {m : K → Option V} {t : BPlusTree K V}
    (h : BPlusTree.Represents ω R m t) (op : IndexOp K V) (hkey : op.key ∈ ω.keys) :
    wp (op.run ω.toIndexParams) (fun r t' => r = (op.spec m).1 ∧
      BPlusTree.Represents ω (if op.isInsert = true ∧ t.rootPageId = invalidPageId then
        t.headerPage.recorded ω.indexName = none else R) (op.spec m).2 t' ∧
      (BPlusTree.Quiet t → BPlusTree.Settled t t')) t := by
  cases op with
  | insert key value =>
      rw [IndexOp.run, wp_bind]
      refine wp_mono (BPlusTree.wp_insert h hkey value) ?_
      rintro success t' ⟨rfl, ht', hsettled⟩
      rw [wp_pure]
      refine ⟨rfl, ht'.mono ?_, hsettled⟩
      simp only [IndexOp.isInsert, true_and]
      exact id
  | remove key =>
      rw [IndexOp.run, wp_bind]
      refine wp_mono (BPlusTree.wp_remove h hkey) ?_
      rintro _ t' ⟨ht', hsettled⟩
      rw [wp_pure]
      refine ⟨rfl, ht'.mono ?_, hsettled⟩
      simp only [IndexOp.isInsert, Bool.false_eq_true, false_and, if_false]
      exact id
  | getValue key result transaction =>
      rw [IndexOp.run, wp_bind]
      refine wp_mono (BPlusTree.wp_getValue h hkey result transaction) ?_
      rintro ⟨success, values⟩ t' ⟨hsuccess, hvalues, ht', hsettled⟩
      change success = (m key).isSome at hsuccess
      change ∀ v, m key = some v → values = [v] at hvalues
      subst hsuccess
      rw [wp_pure]
      refine ⟨?_, ht'.mono ?_, hsettled⟩
      · change IndexResult.found _ _ = .found (m key).isSome (m key)
        cases hm : m key with
        | some v => simp [hvalues v hm]
        | none => simp
      · simp only [IndexOp.isInsert, Bool.false_eq_true, false_and, if_false]
        exact id

theorem IndexOp.refines (ω : OrderedIndex K B) :
    Refines (fun (t : BPlusTree K V) m => BPlusTree.Represents ω False m t)
      (fun op _ => op.key ∈ ω.keys) (IndexOp.run ω.toIndexParams) IndexOp.spec := by
  intro op t m h hkey
  refine wp_mono (op.wp_run h hkey) ?_
  rintro r t' ⟨hr, ht', -⟩
  exact ⟨hr, ht'.mono False.elim⟩

/-- Starting from the empty tree, every run of calls is free of faults
and answers every call as a finite map does. -/
theorem tree_refines_map (params : IndexParams K) (S : Set K)
    (hcmp : StrictTotalOrderOn params.comparator S) (hname : params.indexName.length < 32)
    (header : HeaderPage) (hroom : header.recorded params.indexName = none →
      header.getRecordCount < HeaderPage.capacity)
    (next : PageId) (hnext : 1 ≤ next) (ops : List (IndexOp K V))
    (hkeys : ∀ op ∈ ops, op.key ∈ S) :
    ∃ t, runAll (IndexOp.run params) ops (BPlusTree.empty header next) =
      .ok ((specAll IndexOp.spec ops fun _ => none).1, t) := by
  obtain ⟨B, hB, hB', ω, rfl, rfl⟩ := exists_orderedIndex params hcmp hname
  have hstart := BPlusTree.represents_empty (V := V) ω hnext hroom
  obtain ⟨rs, t, hrun, rfl, -⟩ := (IndexOp.refines ω).run hstart
    (admissible_of_forall (fun op hop _ => hkeys op hop) _)
  exact ⟨t, hrun⟩

end Runs

/-- An index on integers, called `n`. -/
def integerIndex : IndexParams Int := ⟨[110], .bytes8, fun a b => a - b⟩

theorem tree_refines_map_integers :
    ∃ t, runAll (IndexOp.run integerIndex) [.insert 1 10, .insert 2 20, .insert 1 30, .remove 2,
        .getValue 1 [] true, .getValue 2 [] false] (BPlusTree.empty HeaderPage.init 1) =
      .ok ([.inserted true, .inserted true, .inserted false, .removed,
      .found true (some (10 : Nat)),
        .found false none], t) :=
  tree_refines_map integerIndex Set.univ strictTotalOrderOn_sub (by decide) HeaderPage.init
    (fun _ => by decide) 1 (by decide) _ fun _ _ => Set.mem_univ _

/-! ### A tree of three levels -/

/-- An index whose leaves hold five entries at most, and whose internal
pages six. -/
def wideIndex : IndexParams Int := ⟨[110], .bytes64, fun a b => a - b⟩

/-- Calls that split leaves and internal pages. Then two internal pages
and some leaves are merged, and an internal page takes a child from its
neighbour. -/
def splitsAndMerges (value : V) : List (IndexOp Int V) :=
  ((List.range 30).map fun n => .insert (n + 1) value) ++
    (List.range 10).map fun n => .remove (n + 1)

/-- The root has two children, and the first of them has four leaves. -/
theorem exists_splitsAndMerges :
    ∃ rs t root child, runAll (IndexOp.run wideIndex) (splitsAndMerges 10)
        (BPlusTree.empty HeaderPage.init 1 : BPlusTree Int Nat) = .ok (rs, t) ∧
      t.rootPageId = 10 ∧ t.pages 10 = some (.internal root) ∧
      root.array = [(0, 3), (22, 14)] ∧ t.pages 3 = some (.internal child) ∧
      child.array = [(0, 1), (13, 6), (16, 7), (19, 8)] := by
  let arrays : TreeM Int Nat (List (Int × PageId) × List (Int × PageId)) := do
    let root ← BPlusTree.internalAt 10
    let child ← BPlusTree.internalAt 3
    pure (root.array, child.array)
  have heval : ((runAll (IndexOp.run wideIndex) (splitsAndMerges 10)
      (BPlusTree.empty HeaderPage.init 1)).toOption.any fun r => r.2.rootPageId = 10 ∧
        (arrays r.2).toOption.any fun y =>
          y.1 = ([(0, 3), (22, 14)], [(0, 1), (13, 6), (16, 7), (19, 8)])) = true := by
    decide +kernel
  obtain ⟨⟨rs, t⟩, hrun, heval⟩ := exists_ok_of_any heval
  obtain ⟨hroot, harrays⟩ := of_decide_eq_true heval
  obtain ⟨⟨y, t'⟩, hread, hy⟩ := exists_ok_of_any harrays
  have hpages : wp arrays (fun y _ => y = ([(0, 3), (22, 14)],
      [(0, 1), (13, 6), (16, 7), (19, 8)])) t := ⟨y, t', hread, of_decide_eq_true hy⟩
  simp only [arrays, wp_bind, BPlusTree.wp_internalAt, wp_pure, Prod.mk.injEq] at hpages
  obtain ⟨root, hten, child, hthree, harray, hchild⟩ := hpages
  exact ⟨rs, t, root, child, hrun, hroot, hten, harray, hthree, hchild⟩

end ScuDb
