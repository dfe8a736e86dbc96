import ScuDb.Index.FullScan
import ScuDb.Index.StoredRuns

/-!
Scans over the bytes.

The iterator reads size, next page id and entries of its leaf where they
are stored. After every run of calls a scan from `Begin()` yields what is
stored, and one from `Begin(key)` what is stored from the key on, provided
that the key is.
-/

namespace ScuDb

open Foundations

variable {K V : Type} [Inhabited K]

namespace StoredIterator

variable (fmt : TreeFormat K V)

def unlockAndUnPin (leafPage : PageId) : StoredM Unit := do
  let leaf ← StoredTree.readPage leafPage
  StoredTree.fetchPage leaf.getPageId
  StoredTree.record (.unlock false leaf.getPageId)
  StoredTree.unpinPage leaf.getPageId false
  StoredTree.unpinPage leaf.getPageId false

/-- `operator*` -/
def item (it : IndexIterator) : StoredM (K × V) :=
  match it.leafPage with
  | none => throw (.fault .noSuchPage)
  | some id => do
      let leaf ← StoredTree.readPage id
      StoredTree.access (LeafBytes.getItem fmt.leaf leaf it.index)

/-- `operator++` -/
def next (it : IndexIterator) : StoredM IndexIterator :=
  match it.leafPage with
  | none => throw (.fault .noSuchPage)
  | some id => do
      let leaf ← StoredTree.readPage id
      if (it.index : Int) + 1 ≥ leaf.getSize then do
        -- size and next page id are read before the leaf is released
        unlockAndUnPin id
        if leaf.getNextPageId = invalidPageId then pure ⟨it.index + 1, none⟩
        else do
          StoredTree.fetchPage leaf.getNextPageId
          StoredTree.record (.lock false leaf.getNextPageId)
          pure ⟨0, some leaf.getNextPageId⟩
      else pure ⟨it.index + 1, some id⟩

/-- The loop of a client: take the item and advance, until the end. -/
def scan : Nat → IndexIterator → StoredM (List (K × V))
  | 0, _ => throw (.fault .outOfFuel)
  | fuel + 1, it =>
      if it.isEnd = true then pure []
      else do
        let e ← item fmt it
        let it ← next it
        let rest ← scan fuel it
        pure (e :: rest)

end StoredIterator

namespace StoredTree

variable (fmt : TreeFormat K V)

/-- `Begin()` -/
def beginFirst : StoredM IndexIterator := do
  let startLeaf ← findLeafPage fmt default true .read false
  tryUnlockRootPageId false
  pure ⟨0, startLeaf⟩

/-- `Begin(key)` -/
def beginAt (key : K) : StoredM IndexIterator := do
  let startLeaf ← findLeafPage fmt key false .read false
  tryUnlockRootPageId false
  match startLeaf with
  | none => pure ⟨0, none⟩
  | some id => do
      let leaf ← readPage id
      let index ← access (LeafBytes.keyIndex fmt.leaf fmt.comparator leaf key)
      pure ⟨index.toNat, some id⟩

/-- What a scan from `Begin()` yields. -/
def scanFirst (fuel : Nat) : StoredM (List (K × V)) := do
  let it ← beginFirst fmt
  StoredIterator.scan fmt fuel it

/-- What a scan from `key` on yields. -/
def scanFrom (key : K) (fuel : Nat) : StoredM (List (K × V)) := do
  let it ← beginAt fmt key
  StoredIterator.scan fmt fuel it

end StoredTree

/-- What a scan from `Begin()` yields, over the pages. -/
def BPlusTree.scanFirst (params : IndexParams K) (fuel : Nat) : TreeM K V (List (K × V)) := do
  let it ← beginFirst params
  it.scan fuel

/-! ### The bytes and the pages -/

section Mirroring

variable {fmt : TreeFormat K V} {base : PageId → PageBytes} {limit : PageId}

namespace StoredIterator

open StoredTree

theorem unlockAndUnPin_mirrors (id : PageId) :
    Mirrors fmt base (fun _ _ _ => True) limit (unlockAndUnPin id)
      (IndexIterator.unlockAndUnPin id) := by
  refine leafAt_mirrors.bind fun _ leaf p _ hp => ?_
  rw [hp.2.lays.pageId]
  refine fetchPage_mirrors.bind fun _ _ _ _ _ => ?_
  refine (record_mirrors (by rfl) fun _ => by rfl).bind fun _ _ _ _ _ => ?_
  exact (unpinPage_mirrors _).bind fun _ _ _ _ _ => unpinPage_mirrors _

theorem item_mirrors (it : IndexIterator) :
    Mirrors fmt base (fun _ e e' => e = e') limit (item fmt it) it.item := by
  obtain ⟨index, leafPage⟩ := it
  cases leafPage with
  | none => exact .throw
  | some id =>
      refine leafAt_mirrors.bind fun _ leaf p _ hp => ?_
      by_cases hindex : index < leaf.array.length
      · rw [LeafBytes.getItem_eq hp.2 hindex, LeafPage.getItem,
          List.getElem?_eq_getElem hindex]
        exact .pure rfl
      · -- behind the entries the bytes are read all the same, the pages are not
        rw [LeafPage.getItem, List.getElem?_eq_none (not_lt.mp hindex)]
        exact .throw

theorem next_mirrors (it : IndexIterator) :
    Mirrors fmt base (fun _ a b => a = b) limit (next it) it.next := by
  obtain ⟨index, leafPage⟩ := it
  cases leafPage with
  | none => exact .throw
  | some id =>
      refine leafAt_mirrors.bind fun _ leaf p _ hp => ?_
      have hlast : index + 1 ≥ leaf.array.length ↔ (index : Int) + 1 ≥ p.getSize := by
        rw [hp.2.lays.size]
        omega
      refine .ite hlast (fun _ => ?_) fun _ => .pure rfl
      refine (unlockAndUnPin_mirrors id).bind fun _ _ _ _ _ => ?_
      rw [hp.2.next]
      refine .ite Iff.rfl (fun _ => .pure rfl) fun _ => ?_
      refine fetchPage_mirrors.bind fun _ _ _ _ _ => ?_
      exact (record_mirrors (by rfl) fun _ => by rfl).bind fun _ _ _ _ _ => .pure rfl

theorem scan_mirrors (fuel : Nat) (it : IndexIterator) :
    Mirrors fmt base (fun _ l l' => l = l') limit (scan fmt fuel it) (it.scan fuel) := by
  induction fuel generalizing it limit with
  | zero => exact .throw
  | succ fuel ih =>
      refine .ite Iff.rfl (fun _ => .pure rfl) fun _ => ?_
      refine (item_mirrors it).bind fun _ e _ _ he => ?_
      refine (next_mirrors it).bind fun _ it' _ _ hnext => ?_
      subst he hnext
      refine (ih it').bind fun _ l _ _ hl => .pure ?_
      rw [hl]

end StoredIterator

namespace StoredTree

theorem scanFirst_mirrors (fuel : Nat) :
    Mirrors fmt base (fun _ l l' => l = l') limit (scanFirst fmt fuel)
      (BPlusTree.scanFirst fmt.toIndexParams fuel) := by
  refine .bind (P := fun _ a b => a = b) ?_ fun _ it _ _ h => ?_
  · refine (findLeafPage_mirrors default true .read false).bind fun _ leaf _ _ h => ?_
    subst h
    exact (tryUnlockRootPageId_mirrors _).bind fun _ _ _ _ _ => .pure rfl
  · subst h
    exact StoredIterator.scan_mirrors fuel it

theorem scanFrom_mirrors (key : K) (fuel : Nat) :
    Mirrors fmt base (fun _ l l' => l = l') limit (scanFrom fmt key fuel)
      (BPlusTree.scanFrom fmt.toIndexParams key fuel) := by
  refine .bind (P := fun _ a b => a = b) ?_ fun _ it _ _ h => ?_
  · refine (findLeafPage_mirrors key false .read false).bind fun _ leaf _ _ h => ?_
    subst h
    refine (tryUnlockRootPageId_mirrors _).bind fun _ _ _ _ _ => ?_
    cases leaf with
    | none => exact .pure rfl
    | some id =>
        refine leafAt_mirrors.bind fun _ leaf p _ hp => ?_
        rw [LeafBytes.keyIndex_eq hp.2, access_ok, pure_bind, Int.toNat_natCast]
        exact .pure rfl
  · subst h
    exact StoredIterator.scan_mirrors fuel it

end StoredTree

end Mirroring

/-! ### Sessions -/

/-- A run of calls, and a scan of what it has stored. -/
def scanAfter [Inhabited V] (fmt : TreeFormat K V) (ops : List (IndexOp K V))
    (scan : StoredM (List (K × V))) : StoredM (List (IndexResult V) × List (K × V)) := do
  let rs ← runAll (IndexOp.runStored fmt) ops
  let l ← scan
  pure (rs, l)

/-- What a scan of the pages yields after a run of calls, the session over
the bytes yields. -/
theorem scanAfter_of_scan [Inhabited V] {fmt : TreeFormat K V} {base : PageId → PageBytes}
    {limit : PageId} {t₀ t t' : BPlusTree K V} {b₀ : StoredTree}
    (hstores : Stores fmt base limit t₀ b₀) {ops : List (IndexOp K V)}
    (hstorable : ∀ op ∈ ops, op.Storable fmt)
    {rs : List (IndexResult V)} (hrun : runAll (IndexOp.run fmt.toIndexParams) ops t₀ = .ok (rs, t))
    {scan : TreeM K V (List (K × V))} {scan' : StoredM (List (K × V))}
    (hscan : ∀ limit, Mirrors fmt base (fun _ l l' => l = l') limit scan' scan)
    {l : List (K × V)} (hl : scan t = .ok (l, t')) :
    scanAfter fmt ops scan' b₀ = .error .noPageId ∨
    ∃ b, scanAfter fmt ops scan' b₀ = .ok ((rs, l), b) := by
  have hbind : scanAfter fmt ops scan' b₀ = (runAll (IndexOp.runStored fmt) ops b₀ >>= fun p =>
    scan' p.2 >>= fun q => .ok ((p.1, q.1), q.2)) := rfl
  rw [hbind]
  rcases IndexOp.runAll_mirrors hstorable _ _ hstores _ t hrun with hstop | h
  · rw [hstop]
    exact .inl rfl
  · obtain ⟨rs', b, limit', hstored, -, hstores', rfl⟩ := h
    rw [hstored]
    change (scan' b >>= _) = _ ∨ ∃ b', (scan' b >>= _) = _
    rcases hscan limit' _ _ hstores' _ t' hl with hstop | h
    · rw [hstop]
      exact .inl rfl
    · obtain ⟨l', b', -, hscanned, -, -, rfl⟩ := h
      rw [hscanned]
      exact .inr ⟨b', rfl⟩

section Sessions

variable {B : Type} [LinearOrder B] [BoundedOrder B] {ω : OrderedIndex K B} {m : K → Option V}
  {t : BPlusTree K V} {key : K}

/-- A scan from `Begin()` yields what is stored, once and in order. -/
theorem BPlusTree.AtRest.wp_scanFirst (h : AtRest ω m t) :
    ∃ l : List (K × V), l.Pairwise (fun a b => ω.comparator a.1 b.1 < 0) ∧
      (∀ k v, (k, v) ∈ l ↔ m k = some v) ∧
      ∀ fuel, l.length < fuel → wp (scanFirst ω.toIndexParams fuel) (fun r _ => r = l) t := by
  have hbegin : wp (beginFirst ω.toIndexParams) (fun it t' => ∃ l, Ahead t.pages it l ∧
      t'.pages = t.pages ∧ SortedWithin ω.rank ω.keys ⊥ ⊤ l ∧
      ∀ k v, (k, v) ∈ l ↔ m k = some v) t :=
    h.represents.wp_beginFirst h.quiet.unlocked fun it l t' hahead hpages hsorted hmem _ =>
      ⟨l, hahead, hpages, hsorted, hmem⟩
  obtain ⟨start, begun, hstart, l, hahead, hpages, hsorted, hmem⟩ := hbegin
  refine ⟨l, ?_, hmem, fun fuel hfuel => ?_⟩
  · refine hsorted.sorted.imp_of_mem fun ha hb hab => ?_
    exact (ω.ranked.neg_iff (hsorted.mem _ ha).1 (hsorted.mem _ hb).1).mpr hab
  · rw [scanFirst, wp_bind]
    exact ⟨start, begun, hstart, hahead.wp_scan hfuel hpages⟩

omit [Inhabited K] in
/-- The search for a key that is stored leads to its entry. -/
theorem BPlusTree.Represents.reachesEntry {R : Prop} (h : Represents ω R m t)
    (hkey : key ∈ ω.keys) (hstored : m key ≠ none) : ReachesEntry ω.toIndexParams t key := by
  obtain ⟨v, hv⟩ := Option.ne_none_iff_exists'.mp hstored
  rcases h.tree with ⟨-, hm⟩ | ⟨G, H, hs⟩
  · exact absurd (hm key) hstored
  · have htop : ω.rank key < ⊤ := ω.ranked.lt_top hkey
    obtain ⟨z, hz⟩ := hs.shape.exists_searchPath hkey hs.shape.top rfl bot_le htop
    obtain ⟨d, hd, hzero, hlo, hhi⟩ := hs.shape.searchPath_cell hkey hz hs.shape.top bot_le htop
    obtain ⟨leaf, hleaf, -⟩ := hs.shape.leaf_of_zero hd hzero
    refine ⟨z, leaf, (key, v), hz, hleaf, (hs.holds_iff hd hleaf hlo hhi).mp hv, ?_⟩
    exact (ω.ranked.nonneg_iff hkey hkey).mpr le_rfl

end Sessions

section Runs

variable [DecidableEq K] [Inhabited V]

/-- Starting from an empty tree over any pages, the bytes after every run
of calls are scanned without a fault, as long as there are page ids: from
`Begin()` a scan yields what the finite map holds, once and in the order
of the keys, and from a key of the map on it yields the rest of it. -/
theorem stored_scan_lists_map (fmt : TreeFormat K V) (S : Set K)
    (hcmp : StrictTotalOrderOn fmt.comparator S) (hname : fmt.indexName.length < 32)
    (header : HeaderPage) (hroom : header.recorded fmt.indexName = none →
      header.getRecordCount < HeaderPage.capacity)
    (next : PageId) (hnext : 1 ≤ next) (pages : PageId → PageBytes)
    (hpages : HeaderBytes.Lays (pages headerPageId) header) (ops : List (IndexOp K V))
    (hkeys : ∀ op ∈ ops, op.key ∈ S) (hstorable : ∀ op ∈ ops, op.Storable fmt) :
    (∃ l : List (K × V), l.Pairwise (fun a b => fmt.comparator a.1 b.1 < 0) ∧
      (∀ k v, (k, v) ∈ l ↔ (specAll IndexOp.spec ops fun _ => none).2 k = some v) ∧
      ∀ fuel, l.length < fuel →
        scanAfter fmt ops (StoredTree.scanFirst fmt fuel) (.construct invalidPageId pages next) =
          .error .noPageId ∨
        ∃ b, scanAfter fmt ops (StoredTree.scanFirst fmt fuel)
            (.construct invalidPageId pages next) =
          .ok (((specAll IndexOp.spec ops fun _ => none).1, l), b)) ∧
    ∀ key ∈ S, (specAll IndexOp.spec ops fun _ => none).2 key ≠ none →
      ∃ (fuel : Nat) (l : List (K × V)), l.Pairwise (fun a b => fmt.comparator a.1 b.1 < 0) ∧
        (∀ k v, (k, v) ∈ l ↔ (specAll IndexOp.spec ops fun _ => none).2 k = some v ∧
          0 ≤ fmt.comparator k key) ∧
        (scanAfter fmt ops (StoredTree.scanFrom fmt key fuel)
            (.construct invalidPageId pages next) = .error .noPageId ∨
        ∃ b, scanAfter fmt ops (StoredTree.scanFrom fmt key fuel)
            (.construct invalidPageId pages next) =
          .ok (((specAll IndexOp.spec ops fun _ => none).1, l), b)) := by
  obtain ⟨B, hB, hB', ω, hω, rfl⟩ := exists_orderedIndex fmt.toIndexParams hcmp hname
  have hrefines := IndexOp.refines_atRest (V := V) ω
  rw [← hω] at hroom
  obtain ⟨rs, t, hrun, rfl, ht⟩ := hrefines.run (BPlusTree.atRest_empty ω hnext hroom)
    (admissible_of_forall (fun op hop _ => hkeys op hop) _)
  rw [hω] at hrun
  have hstores := stores_construct fmt hnext hpages
  constructor
  · obtain ⟨l, hsorted, hmem, hscan⟩ := ht.wp_scanFirst
    rw [hω] at hsorted hscan
    refine ⟨l, hsorted, hmem, fun fuel hfuel => ?_⟩
    obtain ⟨_, t', hl, rfl⟩ := hscan fuel hfuel
    exact scanAfter_of_scan hstores hstorable hrun (fun _ => StoredTree.scanFirst_mirrors fuel) hl
  · intro key hkey hstored
    obtain ⟨fuel, l, t', hl, hsorted, hmem⟩ := (ht.represents.scanFrom_iff hkey).mpr
      (.inr (ht.represents.reachesEntry hkey hstored))
    rw [hω] at hl hsorted hmem
    exact ⟨fuel, l, hsorted, hmem,
      scanAfter_of_scan hstores hstorable hrun (fun _ => StoredTree.scanFrom_mirrors key fuel) hl⟩

end Runs

theorem stored_scan_lists_map_integers :
    (∃ l : List (Int × Int × Int), l.Pairwise (fun a b => integerFormat.comparator a.1 b.1 < 0) ∧
      (∀ k v, (k, v) ∈ l ↔ (specAll IndexOp.spec threeLeaves fun _ => none).2 k = some v) ∧
      ∀ fuel, l.length < fuel →
        scanAfter integerFormat threeLeaves
            (StoredTree.scanFirst integerFormat fuel) (.construct invalidPageId (fun _ _ => 0) 1) =
          .error .noPageId ∨
        ∃ b, scanAfter integerFormat threeLeaves
            (StoredTree.scanFirst integerFormat fuel) (.construct invalidPageId (fun _ _ => 0) 1) =
          .ok ((List.replicate 9 (.inserted true) ++
            [.removed, .removed, .inserted true, .removed, .removed], l), b)) ∧
    ∃ (fuel : Nat) (l : List (Int × Int × Int)),
      l.Pairwise (fun a b => integerFormat.comparator a.1 b.1 < 0) ∧
      (∀ k v, (k, v) ∈ l ↔ (specAll IndexOp.spec threeLeaves fun _ => none).2 k = some v ∧
          0 ≤ integerFormat.comparator k 4) ∧
      (scanAfter integerFormat threeLeaves
          (StoredTree.scanFrom integerFormat 4 fuel) (.construct invalidPageId (fun _ _ => 0) 1) =
        .error .noPageId ∨
      ∃ b, scanAfter integerFormat threeLeaves
          (StoredTree.scanFrom integerFormat 4 fuel) (.construct invalidPageId (fun _ _ => 0) 1) =
        .ok ((List.replicate 9 (.inserted true) ++
          [.removed, .removed, .inserted true, .removed, .removed], l), b)) := by
  obtain ⟨hall, hfrom⟩ := stored_scan_lists_map integerFormat Set.univ strictTotalOrderOn_sub
    (by decide) HeaderPage.init (fun _ => by decide) 1 (by decide) (fun _ _ => 0) lays_zeros
    threeLeaves (fun _ _ => Set.mem_univ _) threeLeaves_storable
  exact ⟨hall, hfrom 4 (Set.mem_univ _) (by decide)⟩

end ScuDb
