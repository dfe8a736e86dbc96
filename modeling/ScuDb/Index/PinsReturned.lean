import ScuDb.Index.Contract

/-!
Every call gives back what it takes from the buffer pool.

A call may find pages pinned by others. It leaves the pins as they were,
no page latched and the root unlocked, and the pages that have left the
tree have left the pool too, unless others have them pinned.
-/

namespace ScuDb

open Foundations

variable {K V B : Type} [LinearOrder B] [BoundedOrder B]

/-- A tree between two calls, none of which has kept anything. -/
structure BPlusTree.AtRest (ω : OrderedIndex K B) (m : K → Option V) (t : BPlusTree K V) :
    Prop where
  represents : Represents ω False m t
  quiet : Quiet t
  kept : InHand (.start fun _ => 0) [] true (fun _ => 0) [] 0 t.calls

theorem BPlusTree.atRest_empty (ω : OrderedIndex K B) {header : HeaderPage} {next : PageId}
    (hnext : 1 ≤ next) (hroom : header.recorded ω.indexName = none →
      header.getRecordCount < HeaderPage.capacity) :
    AtRest ω (fun _ => none) (BPlusTree.empty header next : BPlusTree K V) where
  represents := represents_empty ω hnext hroom
  quiet := ⟨rfl, fun _ _ hpage => by cases hpage⟩
  kept := ⟨_, .refl _ _, PoolUse.start_holds _ _⟩

section Runs

variable [Inhabited K] [DecidableEq K] [Inhabited V]

theorem IndexOp.refines_atRest (ω : OrderedIndex K B) :
    Refines (fun (t : BPlusTree K V) m => BPlusTree.AtRest ω m t)
      (fun op _ => op.key ∈ ω.keys) (IndexOp.run ω.toIndexParams) IndexOp.spec := by
  intro op t m h hkey
  refine wp_mono (op.wp_run h.represents hkey) ?_
  rintro r t' ⟨hr, ht', hsettled⟩
  have hafter := hsettled h.quiet
  obtain ⟨u, hu, hold, -⟩ := hafter.ledger _ _ _ h.kept
  exact ⟨hr, ht'.mono False.elim, hafter.quiet, u, hu, hold⟩

/-- What a call leaves of its dealings with the pool when others hold the
pins `others`. -/
structure IndexOp.Returns (others : PageId → Nat) (t t' : BPlusTree K V) (u : PoolUse) : Prop where
  replayed : ∃ recent, t'.calls = recent ++ t.calls ∧ (PoolUse.start others).replay recent = some u
  pins : ∀ y, u.pins y = others y
  latch : ∀ y, u.latch y = none
  rootLock : u.rootLock = none
  removed : ∀ y, BPlusTree.InTree t y → ¬BPlusTree.InTree t' y → others y = 0 → y ∈ u.removed

/-- In every tree a run of calls leads to, every call ends, leaves the
page set and the deleted-page set empty, and returns what it has taken.
The calls before it have kept no pin either. -/
theorem tree_returns_pins (params : IndexParams K) (S : Set K)
    (hcmp : StrictTotalOrderOn params.comparator S) (hname : params.indexName.length < 32)
    (header : HeaderPage) (hroom : header.recorded params.indexName = none →
      header.getRecordCount < HeaderPage.capacity)
    (next : PageId) (hnext : 1 ≤ next) (ops : List (IndexOp K V))
    (hkeys : ∀ op ∈ ops, op.key ∈ S) :
    ∃ rs t, runAll (IndexOp.run params) ops (BPlusTree.empty header next) = .ok (rs, t) ∧
      (∃ u, (PoolUse.start fun _ => 0).replay t.calls = some u ∧ ∀ y, u.pins y = 0) ∧
      ∀ op : IndexOp K V, op.key ∈ S → ∃ r t', op.run params t = .ok (r, t') ∧
        t'.pageSet = [] ∧ t'.deletedPageSet = [] ∧
          ∀ others, ∃ u, IndexOp.Returns others t t' u := by
  obtain ⟨B, hB, hB', ω, rfl, rfl⟩ := exists_orderedIndex params hcmp hname
  obtain ⟨rs, t, hrun, -, ht⟩ := (IndexOp.refines_atRest ω).run
    (BPlusTree.atRest_empty (V := V) ω hnext hroom)
    (admissible_of_forall (fun op hop _ => hkeys op hop) _)
  refine ⟨rs, t, hrun, ?_, fun op hkey => ?_⟩
  · obtain ⟨u, ⟨recent, hcalls, hreplay⟩, hold⟩ := ht.kept
    rw [List.append_nil] at hcalls
    exact ⟨u, hcalls ▸ hreplay, fun y => by rw [hold.pins]; rfl⟩
  · obtain ⟨r, t', hop, -, ht', hsettled⟩ := op.wp_run ht.represents hkey
    refine ⟨r, t', hop, ht'.pageSet, ht'.deletedPageSet, fun others => ?_⟩
    obtain ⟨u, hu, hold, hgone⟩ := (hsettled ht.quiet).ledger (.start others) t.calls others
      ⟨_, .refl _ _, PoolUse.start_holds _ _⟩
    exact ⟨u, hu, fun y => by rw [hold.pins]; rfl, fun y => by rw [hold.latch]; rfl,
      by rw [hold.rootLock]; rfl, hgone⟩

theorem tree_returns_pins_integers :
    ∃ rs t, runAll (IndexOp.run wideIndex) (splitsAndMerges (10 : Nat))
        (BPlusTree.empty HeaderPage.init 1) = .ok (rs, t) ∧
      (∃ u, (PoolUse.start fun _ => 0).replay t.calls = some u ∧ ∀ y, u.pins y = 0) ∧
      ∀ op : IndexOp Int Nat, op.key ∈ Set.univ → ∃ r t', op.run wideIndex t = .ok (r, t') ∧
        t'.pageSet = [] ∧ t'.deletedPageSet = [] ∧ ∀ others, ∃ u, IndexOp.Returns others t t' u :=
  tree_returns_pins wideIndex Set.univ strictTotalOrderOn_sub (by decide) HeaderPage.init
    (fun _ => by decide) 1 (by decide) _ fun _ _ => Set.mem_univ _

end Runs

end ScuDb
