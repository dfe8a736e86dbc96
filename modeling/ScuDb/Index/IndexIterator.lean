import ScuDb.Index.Structure

/-!
Range scans: the iterator over the leaves, and `Begin(key)`.

`Begin` looks for the key in the one leaf its search ends in. When all
keys of that leaf are smaller, the iterator it returns points behind the
last entry of the leaf instead of at the first entry of the next one:
it is not at its end, and dereferencing it reads beyond the entries.
Otherwise a scan yields what is stored from the key on.
-/

namespace ScuDb

open Foundations

variable {K V : Type}

/-- A position in a leaf; `none` is the null pointer. -/
structure IndexIterator where
  index : Nat
  leafPage : Option PageId
  deriving DecidableEq, Repr

namespace IndexIterator

def isEnd (it : IndexIterator) : Bool := it.leafPage.isNone

def unlockAndUnPin (leafPage : PageId) : TreeM K V Unit := do
  let leaf ← BPlusTree.leafAt leafPage
  BPlusTree.fetchPage leaf.pageId
  BPlusTree.record (.unlock false leaf.pageId)
  BPlusTree.unpinPage leaf.pageId false
  BPlusTree.unpinPage leaf.pageId false

/-- `operator*` -/
def item (it : IndexIterator) : TreeM K V (K × V) :=
  match it.leafPage with
  | none => throw .noSuchPage
  | some id => do
      let leaf ← BPlusTree.leafAt id
      MonadExcept.ofExcept (leaf.getItem it.index)

/-- `operator++` -/
def next (it : IndexIterator) : TreeM K V IndexIterator :=
  match it.leafPage with
  | none => throw .noSuchPage
  | some id => do
      let leaf ← BPlusTree.leafAt id
      if it.index + 1 ≥ leaf.array.length then do
        unlockAndUnPin id
        if leaf.nextPageId = invalidPageId then pure ⟨it.index + 1, none⟩
        else do
          BPlusTree.fetchPage leaf.nextPageId
          BPlusTree.record (.lock false leaf.nextPageId)
          pure ⟨0, some leaf.nextPageId⟩
      else pure ⟨it.index + 1, some id⟩

/-- The destructor. -/
def destroy (it : IndexIterator) : TreeM K V Unit :=
  match it.leafPage with
  | none => pure ()
  | some id => unlockAndUnPin id

/-- The loop of a client: take the item and advance, until the end. -/
def scan : Nat → IndexIterator → TreeM K V (List (K × V))
  | 0, _ => throw .outOfFuel
  | fuel + 1, it =>
      if it.isEnd = true then pure []
      else do
        let e ← it.item
        let it ← it.next
        let rest ← scan fuel it
        pure (e :: rest)

end IndexIterator

namespace BPlusTree

/-- `Begin()` -/
def beginFirst [Inhabited K] (params : IndexParams K) : TreeM K V IndexIterator := do
  let startLeaf ← findLeafPage params default true .read false
  tryUnlockRootPageId false
  pure ⟨0, startLeaf⟩

/-- `Begin(key)` -/
def beginAt (params : IndexParams K) (key : K) : TreeM K V IndexIterator := do
  let startLeaf ← findLeafPage params key false .read false
  tryUnlockRootPageId false
  match startLeaf with
  | none => pure ⟨0, none⟩
  | some id => do
      let leaf ← leafAt id
      pure ⟨leaf.keyIndex params.comparator key, some id⟩

/-- What a scan from `key` on yields. -/
def scanFrom (params : IndexParams K) (key : K) (fuel : Nat) : TreeM K V (List (K × V)) := do
  let it ← beginAt params key
  it.scan fuel

/-- The leaf `z` is where a search for `key` from `y` on leads: on the
way, the separators of the slots taken enclose the key. -/
inductive SearchPath (cmp : K → K → Int) (pages : Pages K V) (key : K) : PageId → PageId → Prop
  | leaf {y : PageId} {leaf : LeafPage K V} (hy : pages y = some (.leaf leaf)) :
      SearchPath cmp pages key y y
  | child {y z : PageId} {q : InternalPage K} {i : Nat} {e : K × PageId}
      (hy : pages y = some (.internal q)) (he : q.array[i]? = some e)
      (hlo : 0 < i → 0 ≤ cmp key e.1) (hhi : ∀ f, q.array[i + 1]? = some f → cmp key f.1 < 0)
      (hz : SearchPath cmp pages key e.2 z) : SearchPath cmp pages key y z

/-- The leaf a search for the key leads to has an entry from the key on. -/
def ReachesEntry (params : IndexParams K) (t : BPlusTree K V) (key : K) : Prop :=
  ∃ z leaf e, SearchPath params.comparator t.pages key t.rootPageId z ∧
    t.pages z = some (.leaf leaf) ∧ e ∈ leaf.array ∧ 0 ≤ params.comparator e.1 key

section Rows

variable {B : Type} [LinearOrder B] [BoundedOrder B] {ω : OrderedIndex K B} {R : Prop}
  {m : K → Option V} {t : BPlusTree K V} {G : Cells B} {H : Nat} {pages : Pages K V}
  {root : PageId} {key : K}

/-- The entries of the leaves in a row. -/
def rowEntries (pages : Pages K V) (l : List PageId) : List (K × V) :=
  l.flatMap fun y => entries (pages y)

/-- The entries from the iterator on are those of `l`. -/
inductive Ahead (pages : Pages K V) : IndexIterator → List (K × V) → Prop
  | atEnd {i : Nat} : Ahead pages ⟨i, none⟩ []
  | onLeaf {i : Nat} {y : PageId} {rest : List PageId} {leaf : LeafPage K V} {l : List (K × V)}
      (hchain : LeafChain pages (y :: rest)) (hy : pages y = some (.leaf leaf))
      (hi : i < leaf.array.length)
      (hpages : ∀ z ∈ y :: rest, ∃ leaf, pages z = some (.leaf leaf) ∧ leaf.pageId = z ∧
        z ≠ invalidPageId ∧ leaf.array ≠ [])
      (hl : l = leaf.array.drop i ++ rowEntries pages rest) : Ahead pages ⟨i, some y⟩ l

namespace Ahead

variable {it : IndexIterator} {e : K × V} {l : List (K × V)}

theorem isEnd_iff (h : Ahead pages it l) : it.isEnd = true ↔ l = [] := by
  cases h with
  | atEnd => simp [IndexIterator.isEnd]
  | onLeaf _ _ hi _ hl =>
      have hne := List.drop_eq_nil_iff.not.mpr (not_le.mpr hi)
      simp [IndexIterator.isEnd, hl, hne]

theorem wp_item (h : Ahead pages it (e :: l)) (ht : t.pages = pages)
    {Q : K × V → BPlusTree K V → Prop} (hQ : Q e t) : wp it.item Q t := by
  cases h with
  | @onLeaf i y _ leaf _ hchain hy hi hpages hl =>
      have hget : leaf.getItem i = .ok leaf.array[i] := by
        simp [LeafPage.getItem, List.getElem?_eq_getElem hi]
      rw [List.drop_eq_getElem_cons hi, List.cons_append] at hl
      simp only [IndexIterator.item, wp_bind, wp_leafAt, wp_ofExcept]
      refine ⟨leaf, ht ▸ hy, _, hget, ?_⟩
      rw [← (List.cons.inj hl).1]
      exact hQ

theorem wp_unlockAndUnPin {y : PageId} {leaf : LeafPage K V} (hy : t.pages y = some (.leaf leaf))
    (hid : leaf.pageId = y) {Q : Unit → BPlusTree K V → Prop}
    (hQ : ∀ calls, (∀ u₀ old extra, InHand u₀ old false extra [y] 0 t.calls →
        InHand u₀ old false extra [] 0 calls) → Q () { t with calls := calls }) :
    wp (IndexIterator.unlockAndUnPin y) Q t := by
  simp only [IndexIterator.unlockAndUnPin, wp_bind, wp_leafAt, wp_fetchPage, wp_record,
    wp_unpinPage]
  refine ⟨leaf, hy, ?_⟩
  rw [hid]
  exact ⟨_, hy, hQ _ fun u₀ old extra hold => hold.unlockAndUnPin List.not_mem_nil⟩

/-- The iterator goes on to the entry behind, and takes its pin and its
latch along. -/
theorem wp_next (h : Ahead pages it (e :: l)) (ht : t.pages = pages)
    {Q : IndexIterator → BPlusTree K V → Prop}
    (hQ : ∀ it' calls, Ahead pages it' l →
      (∀ u₀ old extra, InHand u₀ old false extra it.leafPage.toList 0 t.calls →
        InHand u₀ old false extra it'.leafPage.toList 0 calls) →
      Q it' { t with calls := calls }) :
    wp it.next Q t := by
  cases h with
  | @onLeaf i y rest leaf _ hchain hy hi hpages hl =>
      obtain ⟨leaf', hleaf', hid, -⟩ := hpages y List.mem_cons_self
      cases hy.symm.trans hleaf'
      rw [List.drop_eq_getElem_cons hi, List.cons_append] at hl
      have htail := (List.cons.inj hl).2
      simp only [IndexIterator.next, wp_bind, wp_leafAt]
      refine ⟨leaf, ht ▸ hy, ?_⟩
      rw [wp_ite]
      constructor
      · intro hlast
        rw [List.drop_eq_nil_of_le hlast, List.nil_append] at htail
        rw [wp_bind]
        refine wp_unlockAndUnPin (ht ▸ hy) hid fun calls hcalls => ?_
        rw [wp_ite]
        cases rest with
        | nil =>
            obtain ⟨leaf', hleaf', hend⟩ := hchain
            cases hy.symm.trans hleaf'
            refine ⟨fun _ => ?_, fun hnot => absurd hend hnot⟩
            rw [wp_pure]
            exact hQ _ calls (htail ▸ .atEnd) hcalls
        | cons z rest =>
            obtain ⟨⟨leaf', hleaf', hnext⟩, hchain'⟩ := hchain
            cases hy.symm.trans hleaf'
            obtain ⟨leafz, hz, -, hzpos, hzne⟩ :=
              hpages z (List.mem_cons_of_mem y List.mem_cons_self)
            rw [hnext]
            refine ⟨fun hinv => absurd hinv hzpos, fun _ => ?_⟩
            simp only [wp_bind, wp_fetchPage, wp_record, wp_pure]
            refine ⟨_, ht ▸ hz, hQ _ _ (.onLeaf hchain' hz (List.length_pos_of_ne_nil hzne)
              (fun w hw => hpages w (List.mem_cons_of_mem y hw)) ?_) ?_⟩
            · rw [htail]
              simp [rowEntries, hz]
            · intro u₀ old extra hold
              exact ((hcalls u₀ old extra hold).fetch z).lock List.not_mem_nil
      · intro hmore
        rw [wp_pure]
        exact hQ _ t.calls (.onLeaf hchain hy (by omega) hpages htail) fun _ _ _ hold => hold

/-- A scan yields all entries from the iterator on. -/
theorem wp_scan {fuel : Nat} (h : Ahead pages it l) (hfuel : l.length < fuel)
    (ht : t.pages = pages) : wp (it.scan fuel) (fun r _ => r = l) t := by
  induction fuel generalizing it l t with
  | zero => omega
  | succ fuel ih =>
      cases l with
      | nil => simp [IndexIterator.scan, h.isEnd_iff]
      | cons e l =>
          have hend : it.isEnd ≠ true := by simp [h.isEnd_iff]
          rw [IndexIterator.scan, if_neg hend, wp_bind]
          refine h.wp_item ht ?_
          rw [wp_bind]
          refine h.wp_next ht fun it' calls h' _ => ?_
          rw [wp_bind]
          rw [List.length_cons] at hfuel
          refine wp_mono (ih h' (by omega) ht) ?_
          rintro r - rfl
          exact wp_pure.mpr rfl

end Ahead

theorem Shape.rowEntries (h : Shape ω pages G root H) {lo hi : B} {l : List PageId}
    (hl : Consecutive G hi lo l) :
    lo ≤ hi ∧ SortedWithin ω.rank ω.keys lo hi (rowEntries pages l) := by
  induction l generalizing lo with
  | nil =>
      change lo = hi at hl
      exact ⟨hl.le, SortedWithin.nil⟩
  | cons y rest ih =>
      obtain ⟨c, hc, hzero, rfl, hrest⟩ := hl
      obtain ⟨leaf, hleaf, -, hok⟩ := h.leaf_of_zero hc hzero
      obtain ⟨hle, hsorted⟩ := ih hrest
      have hlt := (h.nonempty hc).le
      refine ⟨hlt.trans hle, ?_⟩
      have hcons : BPlusTree.rowEntries pages (y :: rest) =
          leaf.array ++ BPlusTree.rowEntries pages rest := by
        simp [BPlusTree.rowEntries, hleaf]
      rw [hcons]
      exact hok.entries.append hsorted hlt hle

/-- The leaf a search leads to is the one responsible for the key. -/
theorem Shape.searchPath_cell (h : Shape ω pages G root H) (hkey : key ∈ ω.keys) {y z : PageId}
    (hpath : SearchPath ω.comparator pages key y z) {c : Cell B} (hy : G y = some c)
    (hlo : c.lo ≤ ω.rank key) (hhi : ω.rank key < c.hi) :
    ∃ d, G z = some d ∧ d.height = 0 ∧ d.lo ≤ ω.rank key ∧ ω.rank key < d.hi := by
  induction hpath generalizing c with
  | leaf hleaf => exact ⟨c, hy, (h.leafOk hy hleaf).height, hlo, hhi⟩
  | child hq he hlo' hhi' _ ih =>
      obtain ⟨d, hd, -, hiff⟩ := h.slot_interval hy hq he hkey hlo hhi
      obtain ⟨hdlo, hdhi⟩ := hiff.mpr ⟨hlo', hhi'⟩
      exact ih hd hdlo hdhi

theorem Shape.exists_searchPath (h : Shape ω pages G root H) (hkey : key ∈ ω.keys) {n : Nat}
    {y : PageId} {c : Cell B} (hy : G y = some c) (hheight : c.height = n)
    (hlo : c.lo ≤ ω.rank key) (hhi : ω.rank key < c.hi) :
    ∃ z, SearchPath ω.comparator pages key y z := by
  induction n generalizing y c with
  | zero =>
      obtain ⟨leaf, hleaf, -⟩ := h.leaf_of_zero hy hheight
      exact ⟨y, .leaf hleaf⟩
  | succ n ih =>
      obtain ⟨q, hq, -, hok⟩ := h.internal_of_pos hy (by omega)
      obtain ⟨x, hx, hxlo, hxhi⟩ := exists_span hok.nonempty hlo hhi
      obtain ⟨i, hi⟩ := List.getElem?_of_mem hx
      have hcell := hok.children x hx
      rw [getElem?_spans, Option.map_eq_some_iff] at hi
      obtain ⟨e, he, heq⟩ := hi
      have hex : e.2 = x.1 := congrArg Prod.fst heq
      obtain ⟨d, hd, hdheight, hiff⟩ := h.slot_interval hy hq he hkey hlo hhi
      rw [hex] at hd
      cases hcell.symm.trans hd
      obtain ⟨hlo', hhi'⟩ := hiff.mp ⟨hxlo, hxhi⟩
      obtain ⟨z, hz⟩ := ih hcell (by omega) hxlo hxhi
      exact ⟨z, .child hq he hlo' hhi' (hex ▸ hz)⟩

theorem Standing.wp_beginAt (h : Standing ω R m t G H []) (hdel : t.deletedPageSet = [])
    (hset : t.pageSet = []) (hkey : key ∈ ω.keys) {Q : IndexIterator → BPlusTree K V → Prop}
    (hQ : ∀ p c leaf t', G p = some c → t.pages p = some (.leaf leaf) → c.lo ≤ ω.rank key →
      ω.rank key < c.hi → t'.pages = t.pages →
      Q ⟨leaf.keyIndex ω.comparator key, some p⟩ t') :
    wp (beginAt ω.toIndexParams key) Q t := by
  rw [beginAt, wp_bind]
  refine h.wp_findLeafPage_reading hset hdel (b := ω.rank key) (by simpa using hkey) ?_
  intro p c leaf count pageSet calls hp hzero hleaf hlo hhi _ _
  rw [wp_bind]
  refine wp_tryUnlockRootPageId fun count' calls' => ?_
  simp only [wp_bind, wp_leafAt, wp_pure]
  exact ⟨leaf, hleaf, hQ p c leaf _ hp hleaf hlo hhi rfl⟩

/-- From a place in a leaf on come the other entries of this leaf and what
is stored above it. -/
theorem Standing.exists_ahead (h : Standing ω R m t G H []) {z : PageId} {c : Cell B}
    {leaf : LeafPage K V} (hc : G z = some c) (hleaf : t.pages z = some (.leaf leaf)) {i : Nat}
    (hi : i < leaf.array.length) :
    ∃ l, Ahead t.pages ⟨i, some z⟩ (leaf.array.drop i ++ l) ∧
      SortedWithin ω.rank ω.keys c.hi ⊤ l ∧
      ∀ k v, (k, v) ∈ l ↔ m k = some v ∧ c.hi ≤ ω.rank k := by
  have hzero := (h.shape.leafOk hc hleaf).height
  have hne := h.shape.nonempty hc
  -- the leaves from here on
  have hrow := h.shape.consecutive h.shape.top rfl
  have hmem : z ∈ leavesBelow t.pages H t.rootPageId := by
    obtain ⟨y, hy, d, hd, hzero', hdlo, hdhi⟩ := hrow.covers bot_le (hne.trans_le le_top)
    rwa [h.shape.unique hc hd (hzero.trans hzero'.symm) ⟨le_rfl, hne⟩ ⟨hdlo, hdhi⟩]
  obtain ⟨before, rest, hsplit⟩ := List.append_of_mem hmem
  rw [hsplit] at hrow
  obtain ⟨mid, hsuffix⟩ := hrow.suffix
  have hchain := h.shape.leafChain hsuffix (by simp)
  obtain ⟨c', hc', -, -, hrest⟩ := hsuffix
  cases hc.symm.trans hc'
  have hcells : ∀ {y}, y ∈ rest → ∃ d leaf', G y = some d ∧ c.hi ≤ d.lo ∧
      t.pages y = some (.leaf leaf') ∧ leaf'.pageId = y := by
    intro y hy
    obtain ⟨d, hd, hzero', hle⟩ := hrest.le_of_mem h.shape.nonempty hy
    obtain ⟨leaf', hleaf', hok, -⟩ := h.shape.leaf_of_zero hd hzero'
    exact ⟨d, leaf', hd, hle, hleaf', hok.pageId⟩
  have hok : ∀ {y d leaf'}, G y = some d → t.pages y = some (.leaf leaf') →
      y ≠ invalidPageId ∧ leaf'.array ≠ [] := by
    intro y d leaf' hd hleaf'
    refine ⟨?_, h.leaf_nonempty hd hleaf'⟩
    rintro rfl
    exact absurd (h.shape.positive hd) (by decide)
  refine ⟨rowEntries t.pages rest, .onLeaf hchain hleaf hi ?_ rfl, ?_, fun k v => ⟨?_, ?_⟩⟩
  · intro y hy
    rcases List.mem_cons.mp hy with rfl | hy
    · obtain ⟨page, hpage, hpok⟩ := h.shape.page hc
      cases hleaf.symm.trans hpage
      exact ⟨leaf, hleaf, hpok.pageId, hok hc hleaf⟩
    · obtain ⟨d, leaf', hd, -, hleaf', hid⟩ := hcells hy
      exact ⟨leaf', hleaf', hid, hok hd hleaf'⟩
  · exact (h.shape.rowEntries hrest).2
  · intro hin
    obtain ⟨y, hy, hin'⟩ := List.mem_flatMap.mp hin
    obtain ⟨d, -, hd, -⟩ := hcells hy
    exact ⟨(h.holds k v).mpr ⟨y, d, hd, hin'⟩, ((h.shape.rowEntries hrest).2.mem _ hin).2.1⟩
  · rintro ⟨hm, hge⟩
    obtain ⟨-, -, -, -, -, -, hk, -⟩ := h.exists_leaf hm
    obtain ⟨y, hy, d, hd, -, hdlo, hdhi⟩ := hrest.covers hge (ω.ranked.lt_top hk)
    obtain ⟨-, leaf', -, -, hleaf', -⟩ := hcells hy
    refine List.mem_flatMap.mpr ⟨y, hy, ?_⟩
    rw [hleaf']
    exact (h.holds_iff hd hleaf' hdlo hdhi).mp hm

/-- Where the search for a key leads to a leaf with an entry from the key
on, `Begin` stops at such an entry. -/
theorem Standing.keyIndex_lt (h : Standing ω R m t G H []) (hkey : key ∈ ω.keys)
    (hreach : ReachesEntry ω.toIndexParams t key) {p : PageId} {c : Cell B} {leaf : LeafPage K V}
    (hc : G p = some c) (hleaf : t.pages p = some (.leaf leaf)) (hlo : c.lo ≤ ω.rank key)
    (hhi : ω.rank key < c.hi) : leaf.keyIndex ω.comparator key < leaf.array.length := by
  obtain ⟨z, leaf', e, hpath, hleaf', he, hcmp⟩ := hreach
  obtain ⟨d, hd, hzero, hdlo, hdhi⟩ :=
    h.shape.searchPath_cell hkey hpath h.shape.top bot_le (ω.ranked.lt_top hkey)
  have hok := h.shape.leafOk hc hleaf
  have hpz : p = z := h.shape.unique hc hd (hok.height.trans hzero.symm) ⟨hlo, hhi⟩ ⟨hdlo, hdhi⟩
  subst hpz
  cases hleaf.symm.trans hleaf'
  obtain ⟨-, happend, hbelow, -⟩ := LeafPage.keyIndex_cut ω.ranked hok.entries hkey
  have hek := (ω.ranked.nonneg_iff (hok.entries.mem e he).1 hkey).mp hcmp
  -- otherwise all entries of the leaf are below the key, and `e` is not
  by_contra hge
  rw [List.drop_eq_nil_of_le (not_lt.mp hge), List.append_nil] at happend
  rw [happend] at he
  exact absurd (hbelow e he) (not_lt.mpr hek)

/-- The entries from a key on, where the leaf responsible for the key
has one. -/
theorem Standing.wp_scanFrom (h : Standing ω R m t G H []) (hdel : t.deletedPageSet = [])
    (hset : t.pageSet = []) (hkey : key ∈ ω.keys) (hreach : ReachesEntry ω.toIndexParams t key) :
    ∃ fuel, wp (scanFrom ω.toIndexParams key fuel) (fun l _ =>
      l.Pairwise (fun a b => ω.comparator a.1 b.1 < 0) ∧
      ∀ k v, (k, v) ∈ l ↔ m k = some v ∧ 0 ≤ ω.comparator k key) t := by
  have ⟨z, leaf, _, hpath, hleaf, _⟩ := hreach
  obtain ⟨c, hc, hzero, hlo, hhi⟩ :=
    h.shape.searchPath_cell hkey hpath h.shape.top bot_le (ω.ranked.lt_top hkey)
  have hentries := (h.shape.leafOk hc hleaf).entries
  have hlt := h.keyIndex_lt hkey hreach hc hleaf hlo hhi
  obtain ⟨-, hcut⟩ := LeafPage.keyIndex_cut ω.ranked hentries hkey
  obtain ⟨i, hi⟩ : ∃ i, i = leaf.keyIndex ω.comparator key := ⟨_, rfl⟩
  rw [← hi] at hcut hlt
  obtain ⟨happend, hbelow, habove⟩ := hcut
  obtain ⟨l, hahead, hsorted, hmem⟩ := h.exists_ahead hc hleaf hlt
  have hkeys : SortedWithin ω.rank ω.keys c.lo ⊤ (leaf.array.drop i ++ l) :=
    (hentries.sublist (List.drop_sublist _ _)).append hsorted (h.shape.nonempty hc).le le_top
  refine ⟨(leaf.array.drop i ++ l).length + 1, ?_⟩
  rw [scanFrom, wp_bind]
  refine h.wp_beginAt hdel hset hkey fun p d leaf' t' hp hleaf' hdlo hdhi hpages => ?_
  have hpz : p = z := by
    have hzero' := (h.shape.leafOk hp hleaf').height
    exact h.shape.unique hp hc (hzero'.trans hzero.symm) ⟨hdlo, hdhi⟩ ⟨hlo, hhi⟩
  subst hpz
  cases hleaf.symm.trans hleaf'
  rw [← hi]
  refine wp_mono (hahead.wp_scan (Nat.lt_succ_self _) hpages) ?_
  rintro r - rfl
  refine ⟨?_, fun k v => ?_⟩
  · refine hkeys.sorted.imp_of_mem fun ha hb hab => ?_
    exact (ω.ranked.neg_iff (hkeys.mem _ ha).1 (hkeys.mem _ hb).1).mpr hab
  · rw [List.mem_append, hmem]
    constructor
    · rintro (hin | ⟨hm, hge⟩)
      · have hin' := List.mem_of_mem_drop hin
        have hk := hentries.mem _ hin'
        refine ⟨(h.holds_iff hc hleaf hk.2.1 hk.2.2).mpr hin', ?_⟩
        exact (ω.ranked.nonneg_iff hk.1 hkey).mpr (habove _ hin)
      · obtain ⟨-, -, -, -, -, -, hk, -⟩ := h.exists_leaf hm
        exact ⟨hm, (ω.ranked.nonneg_iff hk hkey).mpr (hhi.le.trans hge)⟩
    · rintro ⟨hm, hge⟩
      obtain ⟨-, -, -, -, -, -, hk, -⟩ := h.exists_leaf hm
      have hle := (ω.ranked.nonneg_iff hk hkey).mp hge
      rcases lt_or_ge (ω.rank k) c.hi with hlt' | hge'
      · have hin := (h.holds_iff hc hleaf (hlo.trans hle) hlt').mp hm
        rw [happend, List.mem_append] at hin
        exact Or.inl (hin.resolve_left fun hin => absurd (hbelow _ hin) (not_lt.mpr hle))
      · exact Or.inr ⟨hm, hge'⟩

/-- Where the leaf responsible for the key has no entry from the key on,
the first dereference is out of bounds. -/
theorem Standing.not_wp_scanFrom (h : Standing ω R m t G H []) (hdel : t.deletedPageSet = [])
    (hset : t.pageSet = []) (hkey : key ∈ ω.keys)
    (hreach : ¬ReachesEntry ω.toIndexParams t key) (fuel : Nat)
    {Q : List (K × V) → BPlusTree K V → Prop} :
    ¬wp (scanFrom ω.toIndexParams key fuel) Q t := by
  intro hscan
  have hbegin : wp (beginAt ω.toIndexParams key)
      (fun it t' => ∃ p leaf, it = ⟨leaf.array.length, some p⟩ ∧
      t'.pages p = some (.leaf leaf)) t := by
    refine h.wp_beginAt hdel hset hkey fun p c leaf t' hp hleaf hlo hhi hpages => ?_
    refine ⟨p, leaf, ?_, hpages ▸ hleaf⟩
    have hentries := (h.shape.leafOk hp hleaf).entries
    obtain ⟨hle, happend, -, habove⟩ := LeafPage.keyIndex_cut ω.ranked hentries hkey
    obtain ⟨z, hz⟩ := h.shape.exists_searchPath hkey h.shape.top rfl bot_le (ω.ranked.lt_top hkey)
    obtain ⟨d, hd, hzero, hdlo, hdhi⟩ :=
      h.shape.searchPath_cell hkey hz h.shape.top bot_le (ω.ranked.lt_top hkey)
    have hzp : z = p := by
      have hzero' := (h.shape.leafOk hp hleaf).height
      exact h.shape.unique hd hp (hzero.trans hzero'.symm) ⟨hdlo, hdhi⟩ ⟨hlo, hhi⟩
    subst hzp
    have hnil : leaf.array.drop (leaf.keyIndex ω.comparator key) = [] := by
      refine List.eq_nil_iff_forall_not_mem.mpr fun e he => hreach ?_
      have hin := List.mem_of_mem_drop he
      refine ⟨z, leaf, e, hz, hleaf, hin, ?_⟩
      exact (ω.ranked.nonneg_iff (hentries.mem e hin).1 hkey).mpr (habove e he)
    rw [Nat.le_antisymm hle (List.drop_eq_nil_iff.mp hnil)]
  rw [scanFrom, wp_bind] at hscan
  obtain ⟨it, t', -, hrest, p, leaf, rfl, hleaf⟩ := wp_and hscan hbegin
  cases fuel with
  | zero => simp [IndexIterator.scan] at hrest
  | succ fuel =>
      simp only [IndexIterator.scan, IndexIterator.isEnd, Option.isNone_some, Bool.false_eq_true,
        if_false, IndexIterator.item, wp_bind, wp_leafAt, wp_ofExcept] at hrest
      obtain ⟨leaf', hleaf', e, he, -⟩ := hrest
      cases hleaf.symm.trans hleaf'
      simp [LeafPage.getItem] at he

/-- A scan of a tree at rest yields the entries from the key on exactly
when the tree is empty or the leaf its search leads to has one. -/
theorem Represents.scanFrom_iff (h : Represents ω R m t) (hkey : key ∈ ω.keys) :
    (∃ fuel l t', scanFrom ω.toIndexParams key fuel t = .ok (l, t') ∧
      l.Pairwise (fun a b => ω.comparator a.1 b.1 < 0) ∧
      ∀ k v, (k, v) ∈ l ↔ m k = some v ∧ 0 ≤ ω.comparator k key) ↔
    t.rootPageId = invalidPageId ∨ ReachesEntry ω.toIndexParams t key := by
  rcases h.tree with ⟨hempty, hm⟩ | ⟨G, H, hs⟩
  · refine ⟨fun _ => Or.inl hempty, fun _ => ⟨1, ?_⟩⟩
    have hscan : wp (scanFrom ω.toIndexParams key 1) (fun l _ => l = []) t := by
      simp only [scanFrom, beginAt, findLeafPage, lockRootPageId, wp_bind, wp_modify,
        wp_getRootPageId]
      rw [if_pos hempty, wp_bind]
      refine wp_tryUnlockRootPageId fun count calls => ?_
      rw [wp_pure]
      refine wp_tryUnlockRootPageId fun count' calls' => ?_
      simp [IndexIterator.scan, IndexIterator.isEnd]
    obtain ⟨l, t', hrun, rfl⟩ := hscan
    exact ⟨[], t', hrun, List.Pairwise.nil, fun k v => by simp [hm]⟩
  · have hpos := hs.shape.positive hs.shape.top
    have hne : t.rootPageId ≠ invalidPageId := by
      intro heq
      rw [heq] at hpos
      exact absurd hpos (by decide)
    constructor
    · rintro ⟨fuel, l, t', hrun, -⟩
      by_contra hnot
      rw [not_or] at hnot
      exact hs.not_wp_scanFrom h.deletedPageSet h.pageSet hkey hnot.2 fuel
        (Q := fun _ _ => True) ⟨l, t', hrun, trivial⟩
    · rintro (hempty | hreach)
      · exact absurd hempty hne
      · obtain ⟨fuel, l, t', hrun, hl⟩ := hs.wp_scanFrom h.deletedPageSet h.pageSet hkey hreach
        exact ⟨fuel, l, t', hrun, hl⟩

end Rows

end BPlusTree

/-- In every tree a run of calls leads to, and for every key: the scan
from the key on yields what is stored from the key on, once and in
order, exactly when the tree is empty or the leaf the search leads to
has an entry from the key on. -/
theorem scan_iff [Inhabited K] [DecidableEq K] [Inhabited V] (params : IndexParams K) (S : Set K)
    (hcmp : StrictTotalOrderOn params.comparator S) (hname : params.indexName.length < 32)
    (header : HeaderPage) (hroom : header.recorded params.indexName = none →
      header.getRecordCount < HeaderPage.capacity)
    (next : PageId) (hnext : 1 ≤ next) (ops : List (IndexOp K V))
    (hkeys : ∀ op ∈ ops, op.key ∈ S) (key : K) (hkey : key ∈ S) :
    ∃ rs t, runAll (IndexOp.run params) ops (BPlusTree.empty header next) = .ok (rs, t) ∧
      ((∃ fuel l t', BPlusTree.scanFrom params key fuel t = .ok (l, t') ∧
        l.Pairwise (fun a b => params.comparator a.1 b.1 < 0) ∧
        ∀ k v, (k, v) ∈ l ↔
          (specAll IndexOp.spec ops fun _ => none).2 k = some v ∧ 0 ≤ params.comparator k key) ↔
      t.rootPageId = invalidPageId ∨ BPlusTree.ReachesEntry params t key) := by
  obtain ⟨B, hB, hB', ω, rfl, rfl⟩ := exists_orderedIndex params hcmp hname
  have hstart := BPlusTree.represents_empty (V := V) ω hnext hroom
  obtain ⟨rs, t, hrun, -, ht⟩ := (IndexOp.refines ω).run hstart
    (admissible_of_forall (fun op hop _ => hkeys op hop) _)
  exact ⟨rs, t, hrun, ht.scanFrom_iff hkey⟩

theorem scan_iff_integers :
    ∃ rs t, runAll (IndexOp.run wideIndex) (splitsAndMerges (10 : Nat))
        (BPlusTree.empty HeaderPage.init 1) = .ok (rs, t) ∧
      ((∃ fuel l t', BPlusTree.scanFrom wideIndex 12 fuel t = .ok (l, t') ∧
        l.Pairwise (fun a b => wideIndex.comparator a.1 b.1 < 0) ∧
        ∀ k v, (k, v) ∈ l ↔
          (specAll IndexOp.spec (splitsAndMerges (10 : Nat)) fun _ => none).2 k = some v ∧
            0 ≤ wideIndex.comparator k 12) ↔
      t.rootPageId = invalidPageId ∨ BPlusTree.ReachesEntry wideIndex t 12) :=
  scan_iff wideIndex Set.univ strictTotalOrderOn_sub (by decide) HeaderPage.init
    (fun _ => by decide) 1 (by decide) _ (fun _ _ => Set.mem_univ _) 12 (Set.mem_univ _)

/-- `Begin(5)` on a tree that holds the key 1 only is not at its end, and
cannot be dereferenced. -/
theorem begin_out_of_bounds :
    ∃ rs t it t', runAll (IndexOp.run integerIndex) [.insert 1 (10 : Nat)]
        (BPlusTree.empty HeaderPage.init 1) = .ok (rs, t) ∧
      BPlusTree.beginAt integerIndex 5 t = .ok (it, t') ∧ it.isEnd = false ∧
      it.item t' = .error .outOfBounds :=
  ⟨_, _, _, _, rfl, rfl, rfl, rfl⟩

end ScuDb
