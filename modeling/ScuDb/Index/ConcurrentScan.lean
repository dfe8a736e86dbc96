import ScuDb.Index.IndexIterator
import ScuDb.Index.LatchedLeaves

/-!
A scan while other threads insert and remove.

An iterator holds the latch of the leaf it stands on. At the end of the
leaf, `operator++` reads the id of the next one, releases the leaf, and
only then latches the next. A call that comes in between may merge the
next leaf into its left neighbour, and the iterator goes on with a page
that has left the tree, or it may move an entry that the scan has gone by
into the next leaf. And `Begin` of a key above all keys of its leaf stops
behind the last entry, where `operator*` reads a cell that is not in use.
Nothing else can go wrong: as long as this is avoided, the iterator stands
on leaves of the tree only, within their entries, and yields the keys in
order.
-/

namespace ScuDb

open Foundations

variable {T K V B : Type}

/-- What an iterator is about to do: to go on from an entry, which may
have been taken, or to latch the next leaf. -/
inductive ScanPlace
  | on (it : IndexIterator) (taken : Bool)
  | leaving (next : PageId)
  deriving DecidableEq

namespace IndexIterator

/-- `operator++` up to the release of the leaf. -/
def stepOff (it : IndexIterator) : TreeM K V ScanPlace :=
  match it.leafPage with
  | none => throw .noSuchPage
  | some id => do
      let leaf ← BPlusTree.leafAt id
      if it.index + 1 ≥ leaf.array.length then do
        unlockAndUnPin id
        if leaf.nextPageId = invalidPageId then pure (.on ⟨it.index + 1, none⟩ false)
        else pure (.leaving leaf.nextPageId)
      else pure (.on ⟨it.index + 1, some id⟩ false)

/-- The rest of `operator++`. The page is what the buffer pool returns for
the id, whether or not the tree still has it. -/
def latch (next : PageId) : TreeM K V IndexIterator := do
  BPlusTree.record (.fetchPage next)
  BPlusTree.record (.lock false next)
  pure ⟨0, some next⟩

/-- The two parts make up `operator++`. -/
theorem next_guards (it : IndexIterator) :
    Guards (it.next : TreeM K V IndexIterator) (do
      match ← it.stepOff with
      | .on it _ => pure it
      | .leaving next => latch next) := by
  obtain ⟨index, leafPage⟩ := it
  cases leafPage with
  | none =>
      intro t it' t' hrun
      cases hrun
  | some id =>
      simp only [next, stepOff, bind_assoc]
      refine Guards.bind (.refl _) fun leaf => ?_
      by_cases hlast : index + 1 ≥ leaf.array.length
      · rw [if_pos hlast, if_pos hlast, bind_assoc]
        refine Guards.bind (.refl _) fun _ => ?_
        by_cases hend : leaf.nextPageId = invalidPageId
        · rw [if_pos hend, if_pos hend, pure_bind]
          exact .refl _
        · rw [if_neg hend, if_neg hend, pure_bind]
          -- the page that is fetched is there
          intro t it' t' hrun
          obtain ⟨_, t₁, hfetch, hrest⟩ := bind_ok hrun
          have hcall : wlp (BPlusTree.fetchPage leaf.nextPageId) (fun _ t₁ =>
              t₁ = { t with calls := .fetchPage leaf.nextPageId :: t.calls }) t :=
            BPlusTree.wlp_fetchPage.mpr fun _ _ => rfl
          rw [hcall _ t₁ hfetch] at hrest
          exact hrest
      · rw [if_neg hlast, if_neg hlast, pure_bind]
        exact .refl _

end IndexIterator

/-- Threads that write, and one that scans. -/
structure ConcurrentScan (T K V : Type) where
  threads : ConcurrentTree T K V
  place : Option ScanPlace
  yielded : List K

/-- A step of one of the writers, or of the client of the iterator:
`Begin`, `operator*` and the two parts of `operator++`. -/
inductive ScanStep (T K V : Type)
  | call (step : TreeStep T K V)
  | begin (key : Option K)
  | item
  | advance
  | latch

namespace ConcurrentScan

/-- The tree the threads share. -/
def tree (s : ConcurrentScan T K V) : BPlusTree K V := s.threads.tree

/-- The leaf whose latch the iterator holds. -/
def held (s : ConcurrentScan T K V) : Option PageId :=
  match s.place with
  | some (.on it _) => it.leafPage
  | _ => none

def onThreads {α : Type} (m : Program Fault (ConcurrentTree T K V) α) :
    Program Fault (ConcurrentScan T K V) α := fun s =>
  match m s.threads with
  | .ok (a, c) => .ok (a, { s with threads := c })
  | .error e => .error e

def onTree {α : Type} (m : TreeM K V α) : Program Fault (ConcurrentScan T K V) α :=
  onThreads (ConcurrentTree.onTree m)

def setPlace (place : ScanPlace) : Program Fault (ConcurrentScan T K V) Unit :=
  modify fun s => { s with place := some place }

/-- The entry has been taken. -/
def yield (it : IndexIterator) (key : K) : Program Fault (ConcurrentScan T K V) Unit :=
  modify fun s => { s with place := some (.on it true), yielded := s.yielded ++ [key] }

end ConcurrentScan

/-- `Begin()`, or `Begin(key)`. -/
def BPlusTree.beginScan [Inhabited K] (params : IndexParams K) :
    Option K → TreeM K V IndexIterator
  | none => BPlusTree.beginFirst params
  | some key => BPlusTree.beginAt params key

namespace ScanStep

variable [DecidableEq T]

/-- What the step does. The client takes an entry once. -/
def run [Inhabited K] (params : IndexParams K) :
    ScanStep T K V → Program Fault (ConcurrentScan T K V) Unit
  | .call step => do
      let _ ← ConcurrentScan.onThreads (step.run params)
      pure ()
  | .begin key => do
      let s ← get
      require (s.place = none) .assertFailed
      let it ← ConcurrentScan.onTree (BPlusTree.beginScan params key)
      ConcurrentScan.setPlace (.on it false)
  | .item => do
      let s ← get
      match s.place with
      | some (.on it false) => do
          let e ← ConcurrentScan.onTree it.item
          ConcurrentScan.yield it e.1
      | _ => throw .assertFailed
  | .advance => do
      let s ← get
      match s.place with
      | some (.on it _) => do
          let place ← ConcurrentScan.onTree it.stepOff
          ConcurrentScan.setPlace place
      | _ => throw .assertFailed
  | .latch => do
      let s ← get
      match s.place with
      | some (.leaving next) => do
          let it ← ConcurrentScan.onTree (IndexIterator.latch next)
          ConcurrentScan.setPlace (.on it false)
      | _ => throw .assertFailed

/-- A thread makes one call at a time, and waits for the latch the
iterator holds. -/
def May [Inhabited K] (params : IndexParams K) (S : Set K) :
    ScanStep T K V → ConcurrentScan T K V → Prop
  | .call (.start thread op), s => s.threads.pending thread = none ∧ op.key ∈ S
  | .call (.descend thread), s => ∀ x ∈ s.held, ∀ r c,
      TreeStep.run params (.descend thread) s.threads = .ok (r, c) →
        ¬BPlusTree.Latched s.tree c.tree x
  | .begin key, _ => ∀ k ∈ key, k ∈ S
  | _, _ => True

/-- Between the two parts of `operator++`, the next leaf is not merged
into its left neighbour, and gets no entry from there that is not above
all keys the scan has yielded. `Begin` of a key finds an entry in the leaf
that the search for the key leads to, if the tree has one. -/
def Harmless (params : IndexParams K) : ScanStep T K V → ConcurrentScan T K V → Prop
  | .call (.descend thread), s => ∀ next key x, s.place = some (.leaving next) →
      s.threads.pending thread = some (.remove key) →
      BPlusTree.SearchPath params.comparator s.tree.pages key s.tree.rootPageId x →
      ¬BPlusTree.RemovalDisturbs params s.tree.pages key
        (fun k => ∃ y ∈ s.yielded, params.comparator k y ≤ 0) x next
  | .begin (some key), s =>
      s.tree.rootPageId = invalidPageId ∨ BPlusTree.ReachesEntry params s.tree key
  | _, _ => True

/-- A thread goes down for the call it has started, in a tree that is not
empty. The client begins one scan, and asks `isEnd` before each step. -/
def Ready : ScanStep T K V → ConcurrentScan T K V → Prop
  | .call (.start _ _), _ => True
  | .call (.descend thread), s =>
      s.threads.pending thread ≠ none ∧ s.tree.rootPageId ≠ invalidPageId
  | .begin _, s => s.place = none
  | .item, s => ∃ it, s.place = some (.on it false) ∧ it.isEnd = false
  | .advance, s => ∃ it taken, s.place = some (.on it taken) ∧ it.isEnd = false
  | .latch, s => ∃ next, s.place = some (.leaving next)

end ScanStep

/-- Where the iterator stands there is a leaf that is linked into the
tree, and the keys have come in order. -/
structure ConcurrentScan.Sound (params : IndexParams K) (s : ConcurrentScan T K V) : Prop where
  linked : ∀ x ∈ s.held, BPlusTree.InTree s.tree x ∧ ∃ leaf, s.tree.pages x = some (.leaf leaf)
  increasing : s.yielded.Pairwise fun a b => params.comparator a b < 0

/-! ### Where the iterator is -/

section Places

variable [LinearOrder B] [BoundedOrder B] {ω : OrderedIndex K B} {m m' : K → Option V}
  {t t' : BPlusTree K V} {yielded : List K} {place : Option ScanPlace}

/-- The iterator is within its leaf, and what has been yielded lies behind
it. When it has released its leaf, the next one is in the tree and starts
above that. -/
inductive Placed (ω : OrderedIndex K B) (m : K → Option V) (t : BPlusTree K V)
    (yielded : List K) : Option ScanPlace → Prop
  | outside (hnil : yielded = []) : Placed ω m t yielded none
  | atEnd {i : Nat} {taken : Bool} : Placed ω m t yielded (some (.on ⟨i, none⟩ taken))
  | onLeaf {i : Nat} {x : PageId} {taken : Bool} {leaf : LeafPage K V}
      (hx : BPlusTree.InTree t x) (hleaf : t.pages x = some (.leaf leaf))
      (hi : i < leaf.array.length)
      (hle : ∀ k ∈ yielded, ∃ e ∈ leaf.array, ω.rank k ≤ ω.rank e.1)
      (hlt : ∀ k ∈ yielded, ∀ e ∈ leaf.array.drop (if taken = true then i + 1 else i),
        ω.rank k < ω.rank e.1) :
      Placed ω m t yielded (some (.on ⟨i, some x⟩ taken))
  | leaving {next : PageId} {G : Cells B} {H : Nat}
      (hs : BPlusTree.Standing ω False m t G H []) (hnext : BPlusTree.Above G ⊥ next)
      (hlt : ∀ k ∈ yielded, BPlusTree.Above G (ω.rank k) next) :
      Placed ω m t yielded (some (.leaving next))

theorem Placed.of_locks (h : Placed ω m t yielded place) (hdel : t.deletedPageSet = [])
    (count : Nat) (calls : List PoolCall) :
    Placed ω m { t with rootLockedCnt := count, calls := calls } yielded place := by
  cases h with
  | outside hnil => exact .outside hnil
  | atEnd => exact .atEnd
  | onLeaf hx hleaf hi hle hlt => exact .onLeaf hx hleaf hi hle hlt
  | leaving hs hnext hlt =>
      refine .leaving (hs.frame rfl rfl rfl (fun _ _ _ => rfl) ?_) hnext hlt
      intro y hy
      rw [show _ = t.deletedPageSet from rfl, hdel] at hy
      cases hy

/-- In an empty tree an iterator is at its end, if there is one. -/
theorem Placed.of_empty (h : Placed ω m t yielded place)
    (hempty : t.rootPageId = invalidPageId) : Placed ω m' t' yielded place := by
  cases h with
  | outside hnil => exact .outside hnil
  | atEnd => exact .atEnd
  | onLeaf hx => exact absurd hempty hx.1
  | leaving hs => exact absurd hempty hs.shape.root_ne

/-! ### Steps of the iterator -/

/-- The descent for reading ends in the leaf responsible for the key, if
the tree is not empty. -/
theorem BPlusTree.Represents.wp_findLeafPage (h : BPlusTree.Represents ω False m t) {key : K}
    {leftMost : Bool} (hkey : leftMost = false → key ∈ ω.keys)
    {Q : Option PageId → BPlusTree K V → Prop}
    (hnone : ∀ count calls, Q none { t with rootLockedCnt := count, calls := calls })
    (hsome : ∀ G H p c leaf count calls, BPlusTree.Standing ω False m t G H [] → G p = some c →
      t.pages p = some (.leaf leaf) →
      (leftMost = false → c.lo ≤ ω.rank key ∧ ω.rank key < c.hi) →
      Q (some p) { t with rootLockedCnt := count, calls := calls }) :
    wp (BPlusTree.findLeafPage ω.toIndexParams key leftMost .read false) Q t := by
  rcases h.tree with ⟨hempty, -⟩ | ⟨G, H, hs⟩
  · simp only [BPlusTree.findLeafPage, BPlusTree.lockRootPageId, wp_bind, wp_modify,
      BPlusTree.wp_getRootPageId, if_pos hempty]
    exact BPlusTree.wp_tryUnlockRootPageId fun count calls => wp_pure.mpr (hnone count calls)
  · refine hs.wp_findLeafPage_reading h.pageSet h.deletedPageSet
      (b := if leftMost then ⊥ else ω.rank key) ?_ ?_
    · cases leftMost with
      | true => rfl
      | false => exact ⟨hkey rfl, rfl⟩
    · intro p c leaf count pageSet calls hp _ hleaf hlo hhi hset _
      rw [hset rfl, ← h.pageSet]
      refine hsome G H p c leaf count calls hs hp hleaf ?_
      rintro rfl
      exact ⟨hlo, hhi⟩

/-- A new iterator stands on an entry, if the tree has one and the key
reaches one. -/
theorem BPlusTree.Represents.wp_beginScan [Inhabited K] (h : BPlusTree.Represents ω False m t)
    {key : Option K} (hkey : ∀ k ∈ key, k ∈ ω.keys)
    (hreach : ∀ k ∈ key, t.rootPageId = invalidPageId ∨
      BPlusTree.ReachesEntry ω.toIndexParams t k) :
    wp (BPlusTree.beginScan ω.toIndexParams key) (fun it t' =>
      BPlusTree.Represents ω False m t' ∧ Placed ω m t' [] (some (.on it false))) t := by
  have hlocks : ∀ {it count calls}, Placed ω m t [] (some (.on it false)) →
      BPlusTree.Represents ω False m { t with rootLockedCnt := count, calls := calls } ∧
        Placed ω m { t with rootLockedCnt := count, calls := calls } [] (some (.on it false)) :=
    fun hit => ⟨h.of_locks _ _, hit.of_locks h.deletedPageSet _ _⟩
  have hstands : ∀ {G H p c leaf i}, BPlusTree.Standing ω False m t G H [] → G p = some c →
      t.pages p = some (.leaf leaf) → i < leaf.array.length →
      Placed ω m t [] (some (.on ⟨i, some p⟩ false)) := fun hs hc hleaf hi =>
    .onLeaf (hs.shape.inTree_iff.mpr (by simp [hc])) hleaf hi
      (fun _ hnot => absurd hnot List.not_mem_nil) fun _ hnot => absurd hnot List.not_mem_nil
  cases key with
  | none =>
      rw [BPlusTree.beginScan, BPlusTree.beginFirst, wp_bind]
      refine h.wp_findLeafPage ?_ (fun _ _ => ?_) fun G H p c leaf _ _ hs hc hleaf _ => ?_
      · rintro ⟨⟩
      · rw [wp_bind]
        exact BPlusTree.wp_tryUnlockRootPageId fun _ _ => wp_pure.mpr (hlocks .atEnd)
      · have hi := List.length_pos_of_ne_nil (hs.leaf_nonempty hc hleaf)
        rw [wp_bind]
        exact BPlusTree.wp_tryUnlockRootPageId fun _ _ =>
          wp_pure.mpr (hlocks (hstands hs hc hleaf hi))
  | some key =>
      rw [BPlusTree.beginScan, BPlusTree.beginAt, wp_bind]
      refine h.wp_findLeafPage (fun _ => hkey key rfl) (fun _ _ => ?_)
        fun G H p c leaf _ _ hs hc hleaf hwithin => ?_
      · rw [wp_bind]
        exact BPlusTree.wp_tryUnlockRootPageId fun _ _ => wp_pure.mpr (hlocks .atEnd)
      · obtain ⟨hlo, hhi⟩ := hwithin rfl
        have hi := hs.keyIndex_lt (hkey key rfl) ((hreach key rfl).resolve_left hs.shape.root_ne)
          hc hleaf hlo hhi
        rw [wp_bind]
        refine BPlusTree.wp_tryUnlockRootPageId fun _ _ => ?_
        rw [wp_bind, BPlusTree.wp_leafAt]
        exact ⟨leaf, hleaf, wp_pure.mpr (hlocks (hstands hs hc hleaf hi))⟩

theorem BPlusTree.Represents.exists_leafOk (h : BPlusTree.Represents ω False m t) {x : PageId}
    (hx : BPlusTree.InTree t x) {leaf : LeafPage K V} (hleaf : t.pages x = some (.leaf leaf)) :
    ∃ (G : Cells B) (H : Nat) (c : Cell B), BPlusTree.Standing ω False m t G H [] ∧
      G x = some c ∧ BPlusTree.LeafOk ω G c leaf := by
  rcases h.tree with ⟨hempty, -⟩ | ⟨G, H, hs⟩
  · exact absurd hempty hx.1
  · obtain ⟨c, hc⟩ := Option.ne_none_iff_exists'.mp (hs.shape.inTree_iff.mp hx)
    exact ⟨G, H, c, hs, hc, hs.shape.leafOk hc hleaf⟩

/-- `operator*` takes an entry that is above all others taken. -/
theorem Placed.wp_item (h : BPlusTree.Represents ω False m t) {it : IndexIterator}
    (hplaced : Placed ω m t yielded (some (.on it false))) (hend : it.isEnd = false) :
    wp it.item (fun e t' => t' = t ∧ e.1 ∈ ω.keys ∧ (∀ k ∈ yielded, ω.rank k < ω.rank e.1) ∧
      Placed ω m t (yielded ++ [e.1]) (some (.on it true))) t := by
  cases hplaced with
  | atEnd => cases hend
  | @onLeaf i x _ leaf hx hleaf hi hle hlt =>
      obtain ⟨G, H, c, hs, hc, hok⟩ := h.exists_leafOk hx hleaf
      obtain ⟨e, hget⟩ : ∃ e, leaf.array[i]? = some e := ⟨_, List.getElem?_eq_getElem hi⟩
      have hitem : leaf.getItem i = .ok e := by rw [LeafPage.getItem, hget]
      have hmem : e ∈ leaf.array := List.mem_of_getElem? hget
      have hdrop : leaf.array.drop i = e :: leaf.array.drop (i + 1) :=
        List.drop_eq_getElem?_toList_append ▸ by simp [hget]
      have hfirst : ∀ k ∈ yielded, ω.rank k < ω.rank e.1 := fun k hk =>
        hlt k hk e (by simp [hdrop])
      have hsorted := hok.entries.sorted.sublist (List.drop_sublist i leaf.array)
      rw [hdrop, List.pairwise_cons] at hsorted
      simp only [IndexIterator.item, wp_bind, BPlusTree.wp_leafAt, wp_ofExcept]
      refine ⟨leaf, hleaf, e, hitem, trivial, (hok.entries.mem e hmem).1, hfirst,
        .onLeaf hx hleaf hi ?_ ?_⟩
      · intro k hk
        rcases List.mem_append.mp hk with hk | hk
        · exact hle k hk
        · rw [List.mem_singleton.mp hk]
          exact ⟨e, hmem, le_rfl⟩
      · intro k hk f hf
        rw [if_pos rfl] at hf
        rcases List.mem_append.mp hk with hk | hk
        · exact hlt k hk f (by simp [hdrop, hf])
        · rw [List.mem_singleton.mp hk]
          exact hsorted.1 f hf

theorem Placed.wp_stepOff (h : BPlusTree.Represents ω False m t) {it : IndexIterator}
    {taken : Bool} (hplaced : Placed ω m t yielded (some (.on it taken)))
    (hend : it.isEnd = false) :
    wp it.stepOff (fun place t' => BPlusTree.Represents ω False m t' ∧
      Placed ω m t' yielded (some place)) t := by
  have hcalls : ∀ {place calls}, Placed ω m t yielded place →
      BPlusTree.Represents ω False m { t with calls := calls } ∧
        Placed ω m { t with calls := calls } yielded place :=
    fun hplace => ⟨h.of_locks t.rootLockedCnt _, hplace.of_locks h.deletedPageSet _ _⟩
  cases hplaced with
  | atEnd => cases hend
  | @onLeaf i x _ leaf hx hleaf _ hle hlt =>
      obtain ⟨G, H, c, hs, hc, hok⟩ := h.exists_leafOk hx hleaf
      simp only [IndexIterator.stepOff, wp_bind, BPlusTree.wp_leafAt]
      refine ⟨leaf, hleaf, ?_⟩
      rw [wp_ite]
      refine ⟨fun _ => ?_, fun hmore => ?_⟩
      · simp only [IndexIterator.unlockAndUnPin, wp_bind, BPlusTree.wp_leafAt,
          BPlusTree.wp_fetchPage, BPlusTree.wp_record, BPlusTree.wp_unpinPage, wp_ite, wp_pure]
        obtain ⟨page, hpage, hpok⟩ := hs.shape.page hc
        cases hleaf.symm.trans hpage
        refine ⟨leaf, hleaf, .leaf leaf, ?_, fun _ => hcalls .atEnd, fun hnext => ?_⟩
        · rw [show leaf.pageId = x from hpok.pageId]
          exact hleaf
        -- the next leaf starts where this one ends
        rcases hok.next with ⟨-, hlast⟩ | ⟨-, d, hd, hzero, hlo⟩
        · exact absurd hlast hnext
        · refine hcalls (.leaving hs ⟨d, hd, hzero, ?_⟩ fun k hk => ⟨d, hd, hzero, ?_⟩)
          · rw [hlo]
            exact bot_le.trans_lt (hs.shape.nonempty hc)
          · obtain ⟨e, he, hke⟩ := hle k hk
            rw [hlo]
            exact hke.trans_lt (hok.entries.mem e he).2.2
      · rw [wp_pure]
        refine ⟨h, .onLeaf hx hleaf (not_le.mp hmore) hle fun k hk e he => hlt k hk e ?_⟩
        rw [if_neg Bool.false_ne_true] at he
        cases taken with
        | true => exact he
        | false =>
            rw [← List.drop_drop] at he
            exact List.mem_of_mem_drop he

theorem Placed.wp_latch (h : BPlusTree.Represents ω False m t) {next : PageId}
    (hplaced : Placed ω m t yielded (some (.leaving next))) :
    wp (IndexIterator.latch next) (fun it t' => BPlusTree.Represents ω False m t' ∧
      Placed ω m t' yielded (some (.on it false))) t := by
  cases hplaced with
  | @leaving _ G H hs hnext hlt =>
      obtain ⟨c, hc, hzero, -⟩ := hnext
      obtain ⟨leaf, hleaf, -, hok⟩ := hs.shape.leaf_of_zero hc hzero
      have hx : BPlusTree.InTree t next := hs.shape.inTree_iff.mpr (by simp [hc])
      have hne : leaf.array ≠ [] := hs.leaf_nonempty hc hleaf
      -- the entries of the leaf are above all keys yielded
      have habove : ∀ k ∈ yielded, ∀ e ∈ leaf.array, ω.rank k < ω.rank e.1 := by
        intro k hk e he
        obtain ⟨c', hc', -, hlo⟩ := hlt k hk
        cases hc.symm.trans hc'
        exact hlo.trans_le (hok.entries.mem e he).2.1
      simp only [IndexIterator.latch, wp_bind, BPlusTree.wp_record, wp_pure]
      refine ⟨h.of_locks t.rootLockedCnt _, Placed.of_locks ?_ h.deletedPageSet t.rootLockedCnt _⟩
      refine .onLeaf hx hleaf (List.length_pos_of_ne_nil hne) (fun k hk => ?_)
        fun k hk e he => habove k hk e (List.mem_of_mem_drop he)
      obtain ⟨e, he⟩ := List.exists_mem_of_ne_nil _ hne
      exact ⟨e, he, (habove k hk e he).le⟩

/-! ### Calls of the other threads -/

variable [DecidableEq K] {call : TreeCall K V}

theorem TreeCall.wlp_test_placed (h : BPlusTree.Represents ω False m t)
    (hplaced : Placed ω m t yielded place) (hkey : call.key ∈ ω.keys) :
    wlp (call.test ω.toIndexParams) (fun _ t' => ∃ m', BPlusTree.Represents ω False m' t' ∧
      Placed ω m' t' yielded place) t := by
  by_cases hempty : t.rootPageId = invalidPageId
  · intro r t' hrun
    obtain ⟨-, h'⟩ := (wp_of_ok (TreeCall.wp_test h hkey) hrun).1 (h.empty_iff.mp hempty)
    exact ⟨_, h', hplaced.of_empty hempty⟩
  · have hlocks : ∀ count calls, ∃ m', BPlusTree.Represents ω False m' { t with
        rootLockedCnt := count, calls := calls } ∧ Placed ω m' { t with
        rootLockedCnt := count, calls := calls } yielded place := fun count calls =>
      ⟨m, h.of_locks count calls, hplaced.of_locks h.deletedPageSet count calls⟩
    cases call with
    | insert key value =>
        simp only [test, BPlusTree.insertTest, BPlusTree.lockRootPageId,
          BPlusTree.tryUnlockRootPageId, wlp_bind, wlp_modify, BPlusTree.wlp_getRootPageId,
          if_neg hempty, wlp_pure]
        split
        · exact hlocks _ _
        · exact hlocks _ _
    | remove key =>
        simp only [test, wlp_bind, BPlusTree.wlp_getRootPageId, wlp_pure]
        exact ⟨m, h, hplaced⟩

/-- What a call that goes down in a tree does to it and to its leaves. -/
theorem TreeCall.wp_descend_remains [Inhabited K] {G : Cells B} {H : Nat} {A : Set (B × PageId)}
    (hs : BPlusTree.Standing ω False m t G H []) (hset : t.pageSet = [])
    (hdel : t.deletedPageSet = []) (hkey : call.key ∈ ω.keys)
    (hA : ∀ b y, (b, y) ∈ A → BPlusTree.Above G b y)
    (hspare : ∀ key, call = .remove key → ∀ p c, G p = some c → c.height = 0 →
      c.lo ≤ ω.rank key → ω.rank key < c.hi → ∀ b y, (b, y) ∈ A →
        ¬BPlusTree.RemovalDisturbs ω.toIndexParams t.pages key (ω.UpTo b) p y) :
    wp (call.descend ω.toIndexParams) (fun _ t' =>
      BPlusTree.Represents ω False (call.perform m).2 t' ∧
        BPlusTree.Remains G A ω False (call.perform m).2 t') t := by
  cases call with
  | insert key value =>
      rw [descend, wp_bind]
      refine wp_mono (hs.wp_insertIntoLeaf hset hdel hkey value hA) ?_
      rintro success t' ⟨-, ht', -, hremains⟩
      exact wp_pure.mpr ⟨ht', hremains⟩
  | remove key =>
      have hremove := hs.wp_removeWith (BPlusTree.likeRedistribute_redistribute ω)
        BPlusTree.neutral_redistribute hset hdel hkey hA (hspare key rfl)
      rw [BPlusTree.removeWith_redistribute, BPlusTree.remove_eq, wp_bind,
        BPlusTree.wp_getRootPageId, if_neg hs.shape.root_ne] at hremove
      rw [descend, wp_bind]
      refine wp_mono hremove ?_
      rintro _ t' ⟨ht', -, hremains⟩
      exact wp_pure.mpr ⟨ht', hremains⟩

/-- A call that goes down leaves the iterator a place to stand on, unless
it latches its leaf or does harm to the next one. -/
theorem TreeCall.descend_placed [Inhabited K] {r : CallResult}
    (h : BPlusTree.Represents ω False m t) (hplaced : Placed ω m t yielded place)
    (hkey : call.key ∈ ω.keys) (hyielded : ∀ k ∈ yielded, k ∈ ω.keys)
    (hrun : call.descend ω.toIndexParams t = .ok (r, t'))
    (hlatched : ∀ i x taken, place = some (.on ⟨i, some x⟩ taken) →
      ¬BPlusTree.Latched t t' x)
    (hharmless : ∀ next key x, place = some (.leaving next) → call = .remove key →
      BPlusTree.SearchPath ω.comparator t.pages key t.rootPageId x →
      ¬BPlusTree.RemovalDisturbs ω.toIndexParams t.pages key
        (fun k => ∃ y ∈ yielded, ω.comparator k y ≤ 0) x next) :
    BPlusTree.Represents ω False (call.perform m).2 t' ∧
      Placed ω (call.perform m).2 t' yielded place := by
  rcases h.tree with ⟨hempty, -⟩ | ⟨G, H, hs⟩
  · obtain ⟨e, he⟩ := call.descend_of_empty ω.toIndexParams hempty
    cases hrun.symm.trans he
  · have hplain := wp_of_ok (TreeCall.wp_descend_remains (A := ∅) hs h.pageSet h.deletedPageSet
      hkey (fun _ _ hnot => absurd hnot (Set.notMem_empty _))
      fun _ _ _ _ _ _ _ _ _ _ hnot => absurd hnot (Set.notMem_empty _)) hrun
    cases hplaced with
    | outside hnil => exact ⟨hplain.1, .outside hnil⟩
    | atEnd => exact ⟨hplain.1, .atEnd⟩
    | @onLeaf i x taken leaf hx hleaf hi hle hlt =>
        have hmem : G x ≠ none := hs.shape.inTree_iff.mp hx
        obtain ⟨c, hc⟩ := Option.ne_none_iff_exists'.mp hmem
        obtain ⟨leaf', hleaf', hsame⟩ := call.leaves_of_not_latched ω.toIndexParams hrun
          h.pageSet (hs.fresh x c hc) hleaf (hlatched i x taken rfl)
        have hx' := (hplain.2.pages x hmem).resolve_right (by simp [hleaf'])
        refine ⟨hplain.1, .onLeaf hx' hleaf' ?_ ?_ ?_⟩
        · rw [hsame.array]
          exact hi
        · rw [hsame.array]
          exact hle
        · rw [hsame.array]
          exact hlt
    | @leaving next G H hs hnext hlt =>
        obtain ⟨A, hA⟩ : ∃ A : Set (B × PageId), A = { mark | mark.2 = next ∧
            (mark.1 = ⊥ ∨ ∃ k ∈ yielded, mark.1 = ω.rank k) } := ⟨_, rfl⟩
        have habove : ∀ b y, (b, y) ∈ A → BPlusTree.Above G b y := by
          rw [hA]
          rintro b y ⟨rfl, rfl | ⟨k, hk, rfl⟩⟩
          · exact hnext
          · exact hlt k hk
        have hspare : ∀ key, call = .remove key → ∀ p c, G p = some c → c.height = 0 →
            c.lo ≤ ω.rank key → ω.rank key < c.hi → ∀ b y, (b, y) ∈ A →
              ¬BPlusTree.RemovalDisturbs ω.toIndexParams t.pages key (ω.UpTo b) p y := by
          intro key hcall p c hp hzero hlo hhi b y hb hdisturbs
          rw [hcall] at hkey
          rw [hA] at hb
          obtain ⟨rfl, hb⟩ := hb
          -- the search for the key ends in the leaf that is responsible for it
          obtain ⟨z, hz⟩ := hs.shape.exists_searchPath hkey hs.shape.top rfl bot_le
            (ω.ranked.lt_top hkey)
          obtain ⟨d, hd, hdzero, hdlo, hdhi⟩ :=
            hs.shape.searchPath_cell hkey hz hs.shape.top bot_le (ω.ranked.lt_top hkey)
          have hzp := hs.shape.unique hd hp (hdzero.trans hzero.symm) ⟨hdlo, hdhi⟩ ⟨hlo, hhi⟩
          subst hzp
          refine hharmless y key z rfl hcall hz (hdisturbs.mono ?_)
          rintro k ⟨hk, hkb⟩
          rcases hb with rfl | ⟨k', hk', rfl⟩
          · exact absurd hkb (not_le.mpr (ω.ranked.bot_lt hk))
          · refine ⟨k', hk', not_lt.mp fun hpos => ?_⟩
            exact absurd ((ω.ranked.pos_iff hk (hyielded k' hk')).mp hpos) (not_lt.mpr hkb)
        obtain ⟨hrep, hremains⟩ := wp_of_ok (TreeCall.wp_descend_remains hs h.pageSet
          h.deletedPageSet hkey habove hspare) hrun
        obtain ⟨G', H', hs', habove'⟩ := hremains.marks ⟨(⊥, next), by rw [hA]; simp⟩
        refine ⟨hrep, .leaving hs' (habove' ⊥ next ?_) fun k hk => habove' (ω.rank k) next ?_⟩
        · rw [hA]
          exact ⟨rfl, Or.inl rfl⟩
        · rw [hA]
          exact ⟨rfl, Or.inr ⟨k, hk, rfl⟩⟩

end Places

/-! ### Runs -/

section Runs

variable [LinearOrder B] [BoundedOrder B]

/-- What holds in every state of a run that does no harm. -/
structure ConcurrentScan.Holds (ω : OrderedIndex K B) (s : ConcurrentScan T K V) : Prop where
  tree : ∃ m, BPlusTree.Represents ω False m s.tree ∧ Placed ω m s.tree s.yielded s.place
  pending : ∀ thread call, s.threads.pending thread = some call → call.key ∈ ω.keys
  yielded : ∀ k ∈ s.yielded, k ∈ ω.keys
  increasing : s.yielded.Pairwise fun a b => ω.rank a < ω.rank b

theorem ConcurrentScan.Holds.sound {ω : OrderedIndex K B} {s : ConcurrentScan T K V}
    (h : s.Holds ω) : s.Sound ω.toIndexParams where
  linked x hx := by
    obtain ⟨m, -, hplaced⟩ := h.tree
    rw [ConcurrentScan.held] at hx
    cases hplace : s.place with
    | none =>
        rw [hplace] at hx
        cases hx
    | some place =>
        rw [hplace] at hx hplaced
        cases hplaced with
        | atEnd => cases hx
        | onLeaf hx' hleaf =>
            cases hx
            exact ⟨hx', _, hleaf⟩
        | leaving => cases hx
  increasing := h.increasing.imp_of_mem fun ha hb hab =>
    (ω.ranked.neg_iff (h.yielded _ ha) (h.yielded _ hb)).mpr hab

omit [LinearOrder B] [BoundedOrder B] in
theorem ConcurrentScan.wp_onThreads {α : Type} {m : Program Fault (ConcurrentTree T K V) α}
    {Q : α → ConcurrentScan T K V → Prop} {s : ConcurrentScan T K V} :
    wp (ConcurrentScan.onThreads m) Q s ↔
      wp m (fun a c => Q a { s with threads := c }) s.threads := by
  constructor
  · rintro ⟨a, s', hrun, hQ⟩
    rw [onThreads] at hrun
    split at hrun
    case h_1 b c hm =>
      cases hrun
      exact ⟨a, c, hm, hQ⟩
    case h_2 => cases hrun
  · rintro ⟨a, c, hm, hQ⟩
    exact ⟨a, { s with threads := c }, by rw [onThreads, hm], hQ⟩

theorem ConcurrentScan.wp_bind_onTree {α : Type} {ω : OrderedIndex K B}
    {s : ConcurrentScan T K V} {m : TreeM K V α}
    {next : α → Program Fault (ConcurrentScan T K V) Unit}
    {P : α → BPlusTree K V → Prop} (hm : wp m P s.tree)
    (hnext : ∀ a t, P a t → wp (next a) (fun _ s' => s'.Holds ω)
      { s with threads := { s.threads with tree := t } }) :
    wp (ConcurrentScan.onTree m >>= next) (fun _ s' => s'.Holds ω) s := by
  rw [wp_bind, ConcurrentScan.onTree, ConcurrentScan.wp_onThreads, ConcurrentTree.wp_onTree]
  exact wp_mono hm hnext

variable [DecidableEq T] [DecidableEq K] [Inhabited K]

/-- A step of one of the other threads. -/
theorem TreeStep.wlp_run_holds {ω : OrderedIndex K B} {step : TreeStep T K V}
    {s : ConcurrentScan T K V} (h : s.Holds ω)
    (hmay : (ScanStep.call step).May ω.toIndexParams ω.keys s)
    (hharmless : (ScanStep.call step).Harmless ω.toIndexParams s) :
    wlp (step.run ω.toIndexParams)
      (fun _ c => ConcurrentScan.Holds ω { s with threads := c }) s.threads := by
  obtain ⟨m, hrep, hplaced⟩ := h.tree
  have hpending : ∀ {t : BPlusTree K V} {m' : K → Option V} (thread : T)
      (op : Option (TreeCall K V)), (∀ c ∈ op, c.key ∈ ω.keys) →
      BPlusTree.Represents ω False m' t → Placed ω m' t s.yielded s.place →
      ConcurrentScan.Holds ω { s with threads :=
        ⟨t, Function.update s.threads.pending thread op⟩ } := by
    intro t m' thread op hop hrep' hplaced'
    refine ⟨⟨m', hrep', hplaced'⟩, fun thread' c hc => ?_, h.yielded, h.increasing⟩
    by_cases hthread : thread' = thread
    · change Function.update s.threads.pending thread op thread' = some c at hc
      rw [hthread, Function.update_self] at hc
      exact hop c hc
    · change Function.update s.threads.pending thread op thread' = some c at hc
      rw [Function.update_of_ne hthread] at hc
      exact h.pending thread' c hc
  cases step with
  | start thread op =>
      obtain ⟨-, hkey⟩ := hmay
      rw [TreeStep.run, wlp_bind, ConcurrentTree.wlp_onTree]
      refine wlp_mono (TreeCall.wlp_test_placed hrep hplaced hkey) ?_
      rintro result t' ⟨m', hrep', hplaced'⟩
      cases result with
      | some r => exact wlp_pure.mpr ⟨⟨m', hrep', hplaced'⟩, h.pending, h.yielded, h.increasing⟩
      | none =>
          simp only [ConcurrentTree.setPending, wlp_bind, wlp_modify, wlp_pure]
          refine hpending thread (some op) ?_ hrep' hplaced'
          rintro c ⟨⟩
          exact hkey
  | descend thread =>
      intro r c hrun
      obtain ⟨call, t', hcall, hdescend, rfl⟩ := TreeStep.descend_ok hrun
      have hfree : ∀ i x taken, s.place = some (.on ⟨i, some x⟩ taken) →
          ¬BPlusTree.Latched s.tree t' x := by
        intro i x taken hplace
        refine hmay x ?_ r _ hrun
        rw [ConcurrentScan.held, hplace]
        rfl
      obtain ⟨hrep', hplaced'⟩ := TreeCall.descend_placed hrep hplaced
        (h.pending thread call hcall) h.yielded hdescend hfree
        fun next key x hplace hremove => hharmless next key x hplace (hremove ▸ hcall)
      exact hpending thread none (fun c hc => absurd hc (by simp)) hrep' hplaced'

/-- A thread that is ready makes its step. -/
theorem TreeStep.wp_run_holds {ω : OrderedIndex K B} {step : TreeStep T K V}
    {s : ConcurrentScan T K V} (h : s.Holds ω)
    (hmay : (ScanStep.call step).May ω.toIndexParams ω.keys s)
    (hharmless : (ScanStep.call step).Harmless ω.toIndexParams s)
    (hready : (ScanStep.call step).Ready s) :
    wp (step.run ω.toIndexParams)
      (fun _ c => ConcurrentScan.Holds ω { s with threads := c }) s.threads := by
  obtain ⟨m, hrep, -⟩ := h.tree
  have hfollows : ConcurrentTree.Follows ω s.threads ⟨m, s.threads.pending⟩ :=
    ⟨hrep, rfl, h.pending⟩
  have hruns : wp (step.run ω.toIndexParams) (fun _ _ => True) s.threads := by
    refine wp_mono (TreeStep.refines ω step _ _ hfollows ?_) fun _ _ _ => trivial
    cases step with
    | start thread op => exact ⟨hmay, trivial⟩
    | descend thread =>
        obtain ⟨hcall, hroot⟩ := hready
        refine ⟨hcall, ?_⟩
        -- a tree that is not empty has a key
        by_contra hnone
        exact hroot (hrep.empty_iff.mpr fun k => not_not.mp fun hk => hnone ⟨k, hk⟩)
  exact wp_mono (wp_and_wlp hruns (TreeStep.wlp_run_holds h hmay hharmless)) fun _ _ hs => hs.2

omit [LinearOrder B] [BoundedOrder B] [DecidableEq T] [DecidableEq K] [Inhabited K] in
theorem ConcurrentScan.isEnd_eq_false {α : Type} {it : IndexIterator}
    {s : ConcurrentScan T K V} {m : TreeM K V α}
    {next : α → Program Fault (ConcurrentScan T K V) Unit} {r : Unit × ConcurrentScan T K V}
    (hend : it.leafPage = none → m = throw .noSuchPage)
    (hrun : (ConcurrentScan.onTree m >>= next) s = .ok r) : it.isEnd = false := by
  obtain ⟨index, leafPage⟩ := it
  cases leafPage with
  | some id => rfl
  | none =>
      rw [hend rfl] at hrun
      cases hrun

omit [LinearOrder B] [BoundedOrder B] [DecidableEq K] in
/-- A step that goes through was ready. -/
theorem ScanStep.wlp_ready {params : IndexParams K} {step : ScanStep T K V}
    {s : ConcurrentScan T K V} : wlp (step.run params) (fun _ _ => step.Ready s) s := by
  cases step with
  | call step =>
      cases step with
      | start thread call => exact fun _ _ _ => trivial
      | descend thread =>
          rw [ScanStep.run]
          intro r s' hrun
          obtain ⟨result, s₁, hstep, -⟩ := bind_ok hrun
          rw [ConcurrentScan.onThreads] at hstep
          split at hstep
          case h_1 result' c hdown =>
            obtain ⟨call, t, hcall, hdescend, -⟩ := TreeStep.descend_ok hdown
            refine ⟨by simp [hcall], fun hempty => ?_⟩
            obtain ⟨e, he⟩ := call.descend_of_empty params hempty
            cases hdescend.symm.trans he
          case h_2 => cases hstep
  | begin key =>
      rw [ScanStep.run, wlp_bind, wlp_get, wlp_bind, wlp_require]
      exact fun hplace _ _ _ => hplace
  | item =>
      rw [ScanStep.run, wlp_bind, wlp_get]
      split
      · rename_i it hplace
        intro r s' hrun
        refine ⟨it, hplace, ConcurrentScan.isEnd_eq_false (fun hend => ?_) hrun⟩
        rw [IndexIterator.item, hend]
      · exact wlp_throw.mpr trivial
  | advance =>
      rw [ScanStep.run, wlp_bind, wlp_get]
      split
      · rename_i it taken hplace
        intro r s' hrun
        refine ⟨it, taken, hplace, ConcurrentScan.isEnd_eq_false (fun hend => ?_) hrun⟩
        rw [IndexIterator.stepOff, hend]
      · exact wlp_throw.mpr trivial
  | latch =>
      rw [ScanStep.run, wlp_bind, wlp_get]
      split
      · rename_i next hplace
        exact fun _ _ _ => ⟨next, hplace⟩
      · exact wlp_throw.mpr trivial

/-- A step that is ready goes through, and all that holds is kept. -/
theorem ScanStep.wp_run {ω : OrderedIndex K B} {step : ScanStep T K V} {s : ConcurrentScan T K V}
    (h : s.Holds ω) (hmay : step.May ω.toIndexParams ω.keys s)
    (hharmless : step.Harmless ω.toIndexParams s) (hready : step.Ready s) :
    wp (step.run ω.toIndexParams) (fun _ s' => s'.Holds ω) s := by
  obtain ⟨m, hrep, hplaced⟩ := h.tree
  cases step with
  | call step =>
      rw [ScanStep.run, wp_bind, ConcurrentScan.wp_onThreads]
      exact wp_mono (TreeStep.wp_run_holds h hmay hharmless hready) fun _ _ hs => wp_pure.mpr hs
  | begin key =>
      have hplace : s.place = none := hready
      have hreach : ∀ k ∈ key, s.tree.rootPageId = invalidPageId ∨
          BPlusTree.ReachesEntry ω.toIndexParams s.tree k := by
        rintro k ⟨⟩
        exact hharmless
      rw [hplace] at hplaced
      cases hplaced with
      | outside hnil =>
          rw [ScanStep.run, wp_bind, wp_get, wp_bind, wp_require]
          refine ⟨hplace, ConcurrentScan.wp_bind_onTree (hrep.wp_beginScan hmay hreach) ?_⟩
          rintro it t ⟨hrep', hplaced'⟩
          rw [ConcurrentScan.setPlace, wp_modify]
          exact ⟨⟨m, hrep', hnil ▸ hplaced'⟩, h.pending, h.yielded, h.increasing⟩
  | item =>
      obtain ⟨it, hplace, hend⟩ := hready
      rw [hplace] at hplaced
      rw [ScanStep.run, wp_bind, wp_get, hplace]
      refine ConcurrentScan.wp_bind_onTree (hplaced.wp_item hrep hend) ?_
      rintro e t ⟨rfl, hkey, hlt, hplaced'⟩
      rw [ConcurrentScan.yield, wp_modify]
      refine ⟨⟨m, hrep, hplaced'⟩, h.pending, ?_, ?_⟩
      · intro k hk
        rcases List.mem_append.mp hk with hk | hk
        · exact h.yielded k hk
        · rw [List.mem_singleton.mp hk]
          exact hkey
      · refine List.pairwise_append.mpr ⟨h.increasing, List.pairwise_singleton _ _, ?_⟩
        intro k hk k' hk'
        rw [List.mem_singleton.mp hk']
        exact hlt k hk
  | advance =>
      obtain ⟨it, taken, hplace, hend⟩ := hready
      rw [hplace] at hplaced
      rw [ScanStep.run, wp_bind, wp_get, hplace]
      refine ConcurrentScan.wp_bind_onTree (hplaced.wp_stepOff hrep hend) ?_
      rintro place t ⟨hrep', hplaced'⟩
      rw [ConcurrentScan.setPlace, wp_modify]
      exact ⟨⟨m, hrep', hplaced'⟩, h.pending, h.yielded, h.increasing⟩
  | latch =>
      obtain ⟨next, hplace⟩ := hready
      rw [hplace] at hplaced
      rw [ScanStep.run, wp_bind, wp_get, hplace]
      refine ConcurrentScan.wp_bind_onTree (hplaced.wp_latch hrep) ?_
      rintro it t ⟨hrep', hplaced'⟩
      rw [ConcurrentScan.setPlace, wp_modify]
      exact ⟨⟨m, hrep', hplaced'⟩, h.pending, h.yielded, h.increasing⟩

/-- A scan in a run that does no harm stands on leaves of the tree only, and
yields the keys in order. A step fails only if it is not ready, so that
`operator*` never leaves the entries of the leaf. -/
theorem scan_sound_of_harmless (params : IndexParams K) (S : Set K)
    (hcmp : StrictTotalOrderOn params.comparator S) (hname : params.indexName.length < 32)
    (header : HeaderPage) (hroom : header.recorded params.indexName = none →
      header.getRecordCount < HeaderPage.capacity) (next : PageId) (hnext : 1 ≤ next)
    (s : ConcurrentScan T K V)
    (hs : Reachable (· = ⟨⟨.empty header next, fun _ => none⟩, none, []⟩)
      (fun step s => ScanStep.May params S step s ∧ ScanStep.Harmless params step s)
      (ScanStep.run params) s) :
    s.Sound params ∧ ∀ step, ScanStep.May params S step s → ScanStep.Harmless params step s →
      ((∃ r, step.run params s = .ok r) ↔ step.Ready s) := by
  obtain ⟨B, hB, hB', ω, rfl, rfl⟩ := exists_orderedIndex params hcmp hname
  have hholds : s.Holds ω := by
    refine hs.invariant_of_ok (I := ConcurrentScan.Holds ω) ?_ ?_
    · rintro _ rfl
      refine ⟨⟨_, BPlusTree.represents_empty ω hnext hroom, .outside rfl⟩, ?_, ?_, .nil⟩
      · rintro thread call ⟨⟩
      · exact fun _ hnot => absurd hnot List.not_mem_nil
    · intro step s r s' hI hok hrun
      have hready : step.Ready s := ScanStep.wlp_ready r s' hrun
      have hkept := wp_of_ok (ScanStep.wp_run hI hok.1 hok.2 hready) hrun
      exact hkept
  refine ⟨hholds.sound, fun step hmay hharmless => ⟨?_, fun hready => ?_⟩⟩
  · rintro ⟨⟨r, s'⟩, hrun⟩
    exact ScanStep.wlp_ready r s' hrun
  · obtain ⟨r, s', hrun, -⟩ := ScanStep.wp_run hholds hmay hharmless hready
    exact ⟨(r, s'), hrun⟩

end Runs

/-! ### A leaf that is merged away -/

/-- An empty tree, and no iterator. -/
def noScan : ConcurrentScan Nat Int Nat := ⟨⟨.empty HeaderPage.init 1, fun _ => none⟩, none, []⟩

/-- A call that is not interrupted. -/
def wholeCall (call : TreeCall Int Nat) : List (ScanStep Nat Int Nat) :=
  [.call (.start 1 call), .call (.descend 1)]

/-- A scan of two leaves, up to the release of the first. -/
def firstLeaf : List (ScanStep Nat Int Nat) :=
  .call (.start 1 (.insert 1 10)) ::
    ([2, 3, 4, 5, 6].flatMap fun k => wholeCall (.insert k 10)) ++
    [.begin none, .item, .advance, .item, .advance, .item, .advance]

/-- A thread that goes down while the iterator holds no latch. -/
def maySurely : ScanStep Nat Int Nat → ConcurrentScan Nat Int Nat → Bool
  | .call (.start thread _), s => (s.threads.pending thread).isNone
  | .call (.descend _), s => s.held.isNone
  | _, _ => true

theorem may_of_maySurely {step : ScanStep Nat Int Nat} {s : ConcurrentScan Nat Int Nat}
    (h : maySurely step s = true) : step.May wideIndex Set.univ s := by
  cases step with
  | call step =>
      cases step with
      | start thread op => exact ⟨Option.isNone_iff_eq_none.mp h, Set.mem_univ _⟩
      | descend thread =>
          intro x hx
          rw [Option.isNone_iff_eq_none.mp h] at hx
          cases hx
  | begin key => exact fun _ _ => Set.mem_univ _
  | item => trivial
  | advance => trivial
  | latch => trivial

/-- A thread that goes down to insert does no harm, and neither does `Begin()`. -/
def surelyHarmless : ScanStep Nat Int Nat → ConcurrentScan Nat Int Nat → Bool
  | .call (.descend thread), s =>
      match s.threads.pending thread with
      | some (.remove _) => false
      | _ => true
  | .begin (some _), _ => false
  | _, _ => true

theorem harmless_of_surelyHarmless {step : ScanStep Nat Int Nat} {s : ConcurrentScan Nat Int Nat}
    (h : surelyHarmless step s = true) : step.Harmless wideIndex s := by
  cases step with
  | call step =>
      cases step with
      | start thread op => trivial
      | descend thread =>
          intro next key x _ hremove
          rw [surelyHarmless, hremove] at h
          cases h
  | begin key =>
      cases key with
      | none => trivial
      | some key => cases h
  | item => trivial
  | advance => trivial
  | latch => trivial

/-- Another thread inserts between the two parts of `operator++`. -/
theorem scan_sound_insertion_between :
    ∃ s : ConcurrentScan Nat Int Nat, s.place = some (.on ⟨0, some 2⟩ false) ∧
      s.yielded = [1, 2, 3] ∧ s.Sound wideIndex ∧ ∃ r, ScanStep.item.run wideIndex s = .ok r := by
  have hok : ∀ (step : ScanStep Nat Int Nat) s,
      (maySurely step s && surelyHarmless step s) = true →
        step.May wideIndex Set.univ s ∧ step.Harmless wideIndex s := by
    intro step s h
    rw [Bool.and_eq_true] at h
    exact ⟨may_of_maySurely h.1, harmless_of_surelyHarmless h.2⟩
  have heval : ((checkedRun (fun step s => maySurely step s && surelyHarmless step s)
      (ScanStep.run wideIndex) (firstLeaf ++ wholeCall (.insert 7 10) ++ [.latch]) noScan).any
        fun s => decide (s.place = some (.on ⟨0, some 2⟩ false) ∧ s.yielded = [1, 2, 3])) =
          true := by
    decide +kernel
  have hstart : Reachable (· = noScan)
      (fun step s => ScanStep.May wideIndex Set.univ step s ∧ ScanStep.Harmless wideIndex step s)
      (ScanStep.run wideIndex) noScan := .start rfl
  obtain ⟨s, hs, hplace⟩ := exists_reachable_of_eval hstart _ hok _ heval
  obtain ⟨hon, hyielded⟩ := of_decide_eq_true hplace
  obtain ⟨hsound, hruns⟩ := scan_sound_of_harmless wideIndex Set.univ strictTotalOrderOn_sub
    (by decide) HeaderPage.init (fun _ => by decide) 1 (by decide) s hs
  exact ⟨s, hon, hyielded, hsound, (hruns .item trivial trivial).mpr ⟨_, hon, rfl⟩⟩

/-- Another thread removes two keys in between, the next leaf is merged into
the one just released, and the iterator stands on a page that is gone. -/
theorem exists_scan_not_sound :
    ∃ s, Reachable (· = noScan) (ScanStep.May wideIndex Set.univ) (ScanStep.run wideIndex) s ∧
      ¬s.Sound wideIndex := by
  have heval : ((checkedRun maySurely (ScanStep.run wideIndex)
      (firstLeaf ++ wholeCall (.remove 4) ++ wholeCall (.remove 5) ++ [.latch]) noScan).any
        fun s => decide (s.held = some 2 ∧ (s.tree.pages 2).isNone = true)) = true := by
    decide +kernel
  have hstart : Reachable (· = noScan) (ScanStep.May wideIndex Set.univ)
      (ScanStep.run wideIndex) noScan := .start rfl
  obtain ⟨s, hs, hgone⟩ := exists_reachable_of_eval hstart maySurely
    (fun _ _ => may_of_maySurely) _ heval
  obtain ⟨hheld, hnone⟩ := of_decide_eq_true hgone
  refine ⟨s, hs, fun hsound => ?_⟩
  obtain ⟨-, leaf, hleaf⟩ := hsound.linked 2 hheld
  rw [hleaf] at hnone
  cases hnone

end ScuDb
