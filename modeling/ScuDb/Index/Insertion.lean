import ScuDb.Index.Releasing

/-!
Insertion keeps a tree standing and adds one entry to its map.

The work is in `wp_insertIntoParent`. Its precondition speaks of the tree
before the split: one page of it has an entry too many. The split and the
new slot in the parent together are a regrouping of that tree, after
which only the parent can have an entry too many, one level further up.
-/

namespace ScuDb

open Foundations

variable {K V B : Type} [LinearOrder B] [BoundedOrder B]

namespace BPlusTree

variable {ω : OrderedIndex K B} {R : Prop} {m : K → Option V} {t : BPlusTree K V}
  {G S : Cells B} {A : Set (B × PageId)} {H : Nat}

/-! ### The entries of one leaf -/

namespace Standing

variable {x : List PageId}

theorem storeLeaf {t' : BPlusTree K V} (h : Standing ω R m t G H x) {p : PageId} {c : Cell B}
    {leaf : LeafPage K V} (hp : G p = some c) (hleaf : t.pages p = some (.leaf leaf))
    {l : List (K × V)} (hl : SortedWithin ω.rank ω.keys c.lo c.hi l) {m' : K → Option V}
    (hm' : ∀ k v, m' k = some v ↔ (k, v) ∈ l ∨ m k = some v ∧ (k, v) ∉ leaf.array)
    (hpages : t'.pages = Function.update t.pages p (some (.leaf { leaf with array := l })))
    (hroot : t'.rootPageId = t.rootPageId) (hheader : t'.headerPage = t.headerPage)
    (hnext : t'.nextPageId = t.nextPageId) (hdel : t'.deletedPageSet = []) :
    Standing ω R m' t' G H (p :: x) := by
  have hat : t'.pages p = some (.leaf { leaf with array := l }) := by
    rw [hpages, Function.update_self]
  have hother : ∀ y, y ≠ p → t'.pages y = t.pages y := by
    intro y hy
    rw [hpages, Function.update_of_ne hy]
  obtain ⟨page, hpage, hok⟩ := h.shape.page hp
  cases hleaf.symm.trans hpage
  have hleafOk : LeafOk ω G c leaf := hok.body
  have hok' : PageOk ω G p c (.leaf { leaf with array := l } : TreePage K V) :=
    ⟨hok.pageId, hok.parent, hleafOk.height, hleafOk.maxSize, hl, hleafOk.next⟩
  refine ⟨?_, ?_, ?_, hnext ▸ h.fresh, hnext ▸ h.height, ?_, by simp [hdel]⟩
  · rw [hroot]
    exact h.shape.setLeaf hp hleafOk.height hok' hat hother
  · intro y d page hy hout hpage'
    simp only [List.mem_cons, not_or] at hout
    exact h.sized y d page hy hout.2 ((hother y hout.1).symm.trans hpage')
  · intro k v
    rw [hm']
    constructor
    · rintro (hmem | ⟨hk, hnot⟩)
      · refine ⟨p, c, hp, ?_⟩
        rw [hat]
        exact hmem
      · obtain ⟨y, d, hy, hmem⟩ := (h.holds k v).mp hk
        refine ⟨y, d, hy, ?_⟩
        rw [hother y]
        · exact hmem
        · rintro rfl
          rw [hleaf] at hmem
          exact hnot hmem
    · rintro ⟨y, d, hy, hmem⟩
      by_cases hyp : y = p
      · subst hyp
        rw [hat] at hmem
        exact Or.inl hmem
      · rw [hother y hyp] at hmem
        have hk := (h.holds k v).mpr ⟨y, d, hy, hmem⟩
        refine Or.inr ⟨hk, fun hin => hyp ?_⟩
        -- an entry of two leaves would put them at the same place
        obtain ⟨page, hpage', -⟩ := h.shape.page hy
        cases page with
        | internal q =>
            rw [hpage'] at hmem
            cases hmem
        | leaf leaf' =>
            rw [hpage'] at hmem
            have hok'' := h.shape.leafOk hy hpage'
            exact h.shape.unique hy hp (hok''.height.trans hleafOk.height.symm)
              (hok''.entries.lt_of_mem hmem) (hleafOk.entries.lt_of_mem hin)
  · unfold HeaderOk
    rw [hheader, hroot]
    exact h.header

end Standing

/-! ### Splits on the way up -/

section SplitPages

variable {pages : Pages K V} {root x r : PageId} {c : Cell B} {page : TreePage K V}

theorem splitPages_lower (h : Shape ω pages G root H) (hx : G x = some c)
    (hpage : pages x = some page) :
    splitPages pages x r page x = some (lowerHalf r page) := by
  have hnot : x ∉ childIds (upperHalf r page) := by
    intro hmem
    obtain ⟨d, hd, -, hheight⟩ := h.child_cell hx hpage (childIds_upperHalf_subset x hmem)
    cases hx.symm.trans hd
    omega
  simp [splitPages, adopted, hnot]

theorem splitPages_upper (h : Shape ω pages G root H) (hx : G x = some c)
    (hpage : pages x = some page) (hr : G r = none) :
    splitPages pages x r page r = some (upperHalf r page) := by
  have hnot : r ∉ childIds (upperHalf r page) := by
    intro hmem
    obtain ⟨d, hd, -⟩ := h.child_cell hx hpage (childIds_upperHalf_subset r hmem)
    rw [hr] at hd
    cases hd
  have hne : r ≠ x := by
    rintro rfl
    rw [hr] at hx
    cases hx
  simp [splitPages, adopted, hnot, Function.update_of_ne hne]

theorem splitPages_child {y : PageId} (hy : y ∈ childIds (upperHalf r page)) (hyx : y ≠ x)
    (hyr : y ≠ r) :
    splitPages pages x r page y = (pages y).map (·.setParentPageId r) := by
  simp [splitPages, adopted, hy, Function.update_of_ne hyx, Function.update_of_ne hyr]

theorem splitPages_other {y : PageId} (hy : y ∉ childIds (upperHalf r page)) (hyx : y ≠ x)
    (hyr : y ≠ r) : splitPages pages x r page y = pages y := by
  simp [splitPages, adopted, hy, Function.update_of_ne hyx, Function.update_of_ne hyr]

theorem setParentPageId_self {parent : PageId} (h : page.getParentPageId = parent) :
    page.setParentPageId parent = page := by
  subst h
  cases page <;> rfl

@[simp] theorem getParentPageId_upperHalf :
    (upperHalf r page).getParentPageId = page.getParentPageId := by
  cases page <;> rfl

end SplitPages

section Upward

variable {x : PageId} {c : Cell B} {page : TreePage K V} {key : K}

theorem entries_halves_iff {pages pages' : Pages K V} {r : PageId}
    (hpage : pages x = some page) (hl : pages' x = some (lowerHalf r page))
    (hu : pages' r = some (upperHalf r page)) (e : K × V) :
    e ∈ entries (pages' x) ∨ (some key : Option K) ≠ none ∧ e ∈ entries (pages' r) ↔
      e ∈ entries (pages x) ∨ (none : Option K) ≠ none ∧ e ∈ entries (pages r) := by
  rw [hl, hu, hpage]
  have hhalves := mem_entries_halves r page e
  simp only [ne_eq, reduceCtorEq, not_false_eq_true, true_and, not_true_eq_false, false_and,
    or_false]
  exact hhalves

/-- A split below the root, with the new slot in the parent. -/
theorem Standing.split {t' : BPlusTree K V} (h : Standing ω R m t G H [x])
    (hx : G x = some c) (hpage : t.pages x = some page)
    (hfull : page.getSize = page.getMaxSize + 1) (hroot : x ≠ t.rootPageId)
    {d : Cell B} {q : InternalPage K} {before after : List (K × PageId)} {k : K}
    (hd : G c.parent = some d) (hq : t.pages c.parent = some (.internal q))
    (harr : q.array = before ++ (k, x) :: after)
    (hkey : firstKey (upperHalf t.nextPageId page) = some key)
    (hpages : t'.pages = Function.update (splitPages t.pages x t.nextPageId page) c.parent
      (some (.internal { q with array := before ++ (k, x) :: (key, t.nextPageId) :: after })))
    (hroot' : t'.rootPageId = t.rootPageId) (hheader : t'.headerPage = t.headerPage)
    (hnext : t'.nextPageId = t.nextPageId + 1) (hdel : t'.deletedPageSet = []) :
    ∃ G' : Cells B, Standing ω R m t' G' H [c.parent] ∧ G' c.parent = some d ∧
      ∀ y e, G y = some e → ∃ e', G' y = some e' ∧ e'.height = e.height ∧ e'.lo = e.lo := by
  obtain ⟨hr, hpos⟩ := h.next_fresh
  have hcell : ∀ {y e}, G y = some e → y ≠ t.nextPageId := by
    rintro y e hy rfl
    rw [hr] at hy
    cases hy
  obtain ⟨-, d', -, hd', hheight, -⟩ := h.shape.linked hx hroot
  cases hd.symm.trans hd'
  have hpx : c.parent ≠ x := by
    intro heq
    rw [heq] at hd
    cases hx.symm.trans hd
    omega
  have hchild : ∀ {y}, y ∈ childIds (upperHalf t.nextPageId page) →
      ∃ e, G y = some e ∧ e.height + 1 = c.height := by
    intro y hy
    obtain ⟨e, he, -, heh⟩ := h.shape.child_cell hx hpage (childIds_upperHalf_subset y hy)
    exact ⟨e, he, heh⟩
  have hat : ∀ {y}, y ≠ c.parent →
      t'.pages y = splitPages t.pages x t.nextPageId page y := by
    intro y hy
    rw [hpages, Function.update_of_ne hy]
  have hl : t'.pages x = some (lowerHalf t.nextPageId page) := by
    rw [hat hpx.symm, splitPages_lower h.shape hx hpage]
  have hu : t'.pages t.nextPageId = some (upperHalf t.nextPageId page) := by
    rw [hat (hcell hd).symm, splitPages_upper h.shape hx hpage hr]
  have hat_parent : t'.pages c.parent =
      some (.internal { q with array := before ++ (k, x) :: (key, t.nextPageId) :: after }) := by
    rw [hpages, Function.update_self]
  have hcut := h.shape.split hx hpage hfull hr hpos hd hq harr hkey hat_parent hl hu
    (fun y hy => by
      obtain ⟨e, he, heh⟩ := hchild hy
      rw [hat, splitPages_child hy]
      · rintro rfl
        cases hx.symm.trans he
        omega
      · exact hcell he
      · rintro rfl
        cases hd.symm.trans he
        omega)
    (fun y e hy hyp hyx hyr hym => by rw [hat hyp, splitPages_other hym hyx hyr])
  have hnotroot : page.isRootPage = false := by
    rw [Bool.eq_false_iff]
    exact fun hisroot => hroot ((h.shape.isRootPage_iff hx hpage).mp hisroot)
  have hmax : 0 < page.getMaxSize := by
    obtain ⟨page', hpage', hok⟩ := h.shape.page hx
    cases hpage.symm.trans hpage'
    have hfive := LeafPage.five_le_initMaxSize ω.keySize
    have hsix := InternalPage.six_le_initMaxSize ω.keySize
    rw [hok.getMaxSize_eq]
    split <;> omega
  have hsizes := sizeOk_halves (r := t.nextPageId) hfull hmax hnotroot
  refine ⟨_, h.regroup hcut ?_ ?_ ?_ (entries_halves_iff hpage hl hu) hroot' hheader ?_ ?_ ?_,
    ?_, fun y e hy => hcut.cells_of_ne_right hy (hcell hy)⟩
  · simp [splitCut]
  · intro page' hpage'
    cases hl.symm.trans hpage'
    exact hsizes.1
  · intro s _ page' hpage'
    cases hu.symm.trans hpage'
    exact hsizes.2
  · rw [hnext]
    exact Int.le_add_one le_rfl
  · rw [hnext]
    exact Int.lt_add_one_of_le le_rfl
  · simp [hdel]
  · exact hcut.cells_parent

/-- A split of the root, with a new root above the two halves. -/
theorem Standing.splitRoot [Inhabited K] {t' : BPlusTree K V} (h : Standing ω R m t G H [x])
    (hpage : t.pages x = some page) (hfull : page.getSize = page.getMaxSize + 1)
    (hroot : x = t.rootPageId) (hkey : firstKey (upperHalf t.nextPageId page) = some key)
    {n : PageId} (hn : n = t.nextPageId + 1)
    (hpages : t'.pages = Function.update (Function.update (Function.update
        (splitPages t.pages x t.nextPageId page) n (some (.internal
          ⟨⟨n, invalidPageId, InternalPage.initMaxSize ω.keySize⟩,
            [(default, x), (key, t.nextPageId)]⟩)))
        x (some ((lowerHalf t.nextPageId page).setParentPageId n)))
        t.nextPageId (some ((upperHalf t.nextPageId page).setParentPageId n)))
    (hroot' : t'.rootPageId = n) (hheader : HeaderOk ω.toIndexParams R t')
    (hnext : t'.nextPageId = n + 1) (hdel : t'.deletedPageSet = []) (hS : Outlived S A G []) :
    StandsWith S A ω R m t' := by
  subst hroot
  obtain ⟨hr, hpos⟩ := h.next_fresh
  have hnr : t.nextPageId < n := by
    rw [hn]
    exact Int.lt_add_one_of_le le_rfl
  have hGn : G n = none := by
    cases hcell : G n with
    | none => rfl
    | some d => exact absurd (h.fresh _ _ hcell) (not_lt.mpr hnr.le)
  have hcell : ∀ {y e}, G y = some e → y ≠ t.nextPageId ∧ y ≠ n := by
    intro y e hy
    constructor
    · rintro rfl
      rw [hr] at hy
      cases hy
    · rintro rfl
      rw [hGn] at hy
      cases hy
  have hx := h.shape.top
  obtain ⟨hxr, hxn⟩ := hcell hx
  have hheader_n : (⟨⟨n, invalidPageId, InternalPage.initMaxSize ω.keySize⟩,
      [(default, t.rootPageId)]⟩ : InternalPage K).array = [] ++ (default, t.rootPageId) :: [] :=
    rfl
  -- first a new root with a single slot ...
  let v : BPlusTree K V := { t' with
    pages := Function.update (Function.update t.pages n (some (.internal
      ⟨⟨n, invalidPageId, InternalPage.initMaxSize ω.keySize⟩, [(default, t.rootPageId)]⟩)))
      t.rootPageId (some (page.setParentPageId n)) }
  have hvn : v.pages n = some (.internal
      ⟨⟨n, invalidPageId, InternalPage.initMaxSize ω.keySize⟩, [(default, t.rootPageId)]⟩) := by
    simp [v, Function.update_of_ne hxn.symm]
  have hvx : v.pages t.rootPageId = some (page.setParentPageId n) := by
    simp [v]
  have hv : Standing ω R m v (growCells G t.rootPageId n H) (H + 1)
      (n :: t.rootPageId :: [t.rootPageId]) := by
    refine h.grow hGn (lt_trans hpos hnr) hvn ?_ ?_ hroot' hheader ?_ ?_ hdel
    · rw [hvx, hpage]
      rfl
    · intro y e hy hyr
      simp [v, Function.update_of_ne hyr, Function.update_of_ne (hcell hy).2]
    · change n < t'.nextPageId
      rw [hnext]
      exact Int.lt_add_one_of_le le_rfl
    · change t.nextPageId < t'.nextPageId
      rw [hnext]
      exact lt_trans hnr (Int.lt_add_one_of_le le_rfl)
  -- ... then the split below it
  have hGx : growCells G t.rootPageId n H t.rootPageId = some ⟨H, ⊥, ⊤, n⟩ := by
    simp [growCells, hxn]
  have hGn' : growCells G t.rootPageId n H n = some ⟨H + 1, ⊥, ⊤, invalidPageId⟩ := by
    simp [growCells]
  have hGr : growCells G t.rootPageId n H t.nextPageId = none := by
    simp [growCells, hnr.ne, hxr.symm, hr]
  have hsame : ∀ {y}, y ≠ n → y ≠ t.rootPageId → y ≠ t.nextPageId →
      t'.pages y = splitPages t.pages t.rootPageId t.nextPageId page y := by
    intro y hyn hyx hyr
    rw [hpages, Function.update_of_ne hyr, Function.update_of_ne hyx, Function.update_of_ne hyn]
  have hl : t'.pages t.rootPageId =
      some (lowerHalf t.nextPageId (page.setParentPageId n)) := by
    rw [hpages, Function.update_of_ne hxr, Function.update_self, lowerHalf_setParentPageId]
  have hu : t'.pages t.nextPageId =
      some (upperHalf t.nextPageId (page.setParentPageId n)) := by
    rw [hpages, Function.update_self, upperHalf_setParentPageId]
  have hn' : t'.pages n = some (.internal
      ⟨⟨n, invalidPageId, InternalPage.initMaxSize ω.keySize⟩,
        [(default, t.rootPageId), (key, t.nextPageId)]⟩) := by
    rw [hpages, Function.update_of_ne hnr.ne', Function.update_of_ne hxn.symm,
      Function.update_self]
  have hchildren : childIds (upperHalf t.nextPageId (page.setParentPageId n)) =
      childIds (upperHalf t.nextPageId page) := by
    rw [upperHalf_setParentPageId, childIds_setParentPageId]
  have hfull' : (page.setParentPageId n).getSize = (page.setParentPageId n).getMaxSize + 1 := by
    rw [getSize_setParentPageId, hfull]
    simp [TreePage.getMaxSize]
  have hkey' : firstKey (upperHalf t.nextPageId (page.setParentPageId n)) = some key := by
    rw [upperHalf_setParentPageId, firstKey_setParentPageId, hkey]
  have hcut := hv.shape.split hGx hvx hfull' hGr hpos hGn' hvn hheader_n hkey' hn' hl hu
    (fun y hy => by
      rw [hchildren] at hy
      obtain ⟨e, he, -, heh⟩ := h.shape.child_cell hx hpage (childIds_upperHalf_subset y hy)
      have hyx : y ≠ t.rootPageId := by
        rintro rfl
        cases hx.symm.trans he
        simp at heh
      obtain ⟨hyr, hyn⟩ := hcell he
      rw [hsame hyn hyx hyr, splitPages_child hy hyx hyr]
      simp [v, Function.update_of_ne hyx, Function.update_of_ne hyn])
    (fun y e _ hyn hyx hyr hym => by
      rw [hchildren] at hym
      rw [hsame hyn hyx hyr, splitPages_other hym hyx hyr]
      simp [v, Function.update_of_ne hyx, Function.update_of_ne hyn])
  have hnotroot : (page.setParentPageId n).isRootPage = false := by
    have hne : n ≠ invalidPageId := by
      rintro rfl
      exact absurd (lt_trans hpos hnr) (by decide)
    simpa [TreePage.isRootPage] using hne
  have hsix := InternalPage.six_le_initMaxSize ω.keySize
  have hmax : 0 < (page.setParentPageId n).getMaxSize := by
    obtain ⟨page', hpage', hok⟩ := h.shape.page hx
    cases hpage.symm.trans hpage'
    have hfive := LeafPage.five_le_initMaxSize ω.keySize
    have hmax := hok.getMaxSize_eq
    simp only [TreePage.getMaxSize, header_setParentPageId] at hmax ⊢
    rw [hmax]
    split <;> omega
  have hsizes := sizeOk_halves (r := t.nextPageId) hfull' hmax hnotroot
  obtain ⟨G', hgrown, hkept⟩ : ∃ G' : Cells B, Standing ω R m t' G' (H + 1) [n] ∧
      Outlived S A G' t'.deletedPageSet := by
    have hgrow : ∀ y e, G y = some e → ∃ e', growCells G t.rootPageId n H y = some e' ∧
        e'.height = e.height ∧ e'.lo = e.lo := by
      intro y e hy
      by_cases hyx : y = t.rootPageId
      · subst hyx
        cases hx.symm.trans hy
        exact ⟨_, hGx, rfl, rfl⟩
      · exact ⟨e, by simp [growCells, (hcell hy).2, hyx, hy], rfl, rfl⟩
    have hS' : Outlived S A (growCells G t.rootPageId n H) t'.deletedPageSet :=
      hdel ▸ hS.of_cells hgrow
    refine ⟨_, hv.regroup hcut ?_ ?_ ?_ (entries_halves_iff hvx hl hu) rfl rfl le_rfl ?_ ?_,
      hS'.of_cells fun y e hy => hcut.cells_of_ne_right hy ?_⟩
    · simp [splitCut]
    · intro page' hpage'
      cases hl.symm.trans hpage'
      exact hsizes.1
    · intro s _ page' hpage'
      cases hu.symm.trans hpage'
      exact hsizes.2
    · change t.nextPageId < t'.nextPageId
      rw [hnext]
      exact lt_trans hnr (Int.lt_add_one_of_le le_rfl)
    · simp [hdel]
    · rintro rfl
      exact Option.some_ne_none e (hy.symm.trans hGr)
  refine ⟨G', H + 1, hgrown.narrow fun y hy => Or.inr fun _ page' _ hpage' => ?_, hkept⟩
  rw [List.mem_singleton] at hy
  subst hy
  cases hn'.symm.trans hpage'
  constructor
  · simp [TreePage.getMinSize, TreePage.isRootPage, TreePage.header, TreePage.isLeafPage,
      TreePage.getSize]
  · simp only [TreePage.getSize, TreePage.getMaxSize, TreePage.header, List.length_cons,
      List.length_nil]
    omega

theorem nodup_concat_next {set : List PageId} {next : PageId} (hnodup : set.Nodup)
    (hold : ∀ y ∈ set, y < next) :
    (set ++ [next]).Nodup ∧ ∀ y ∈ set ++ [next], y < next + 1 := by
  constructor
  · rw [List.nodup_append]
    refine ⟨hnodup, List.nodup_singleton next, fun y hy z hz heq => ?_⟩
    rw [heq, List.mem_singleton.mp hz] at hy
    exact absurd (hold next hy) (lt_irrefl next)
  · intro y hy
    rcases List.mem_append.mp hy with hy | hy
    · exact (hold y hy).trans (Int.lt_add_one_of_le le_rfl)
    · rw [List.mem_singleton.mp hy]
      exact Int.lt_add_one_of_le le_rfl

/-- `InsertIntoParent`, after `Split` has divided the root. -/
theorem wp_growRoot [Inhabited K] (h : Standing ω R m t G H [x]) (hpage : t.pages x = some page)
    (hfull : page.getSize = page.getMaxSize + 1) (hroot : x = t.rootPageId)
    (hdel : t.deletedPageSet = []) (hkey : firstKey (upperHalf t.nextPageId page) = some key)
    (hS : Outlived S A G []) {count : Nat} {pageSet : List PageId} (hnodup : pageSet.Nodup)
    {calls : List PoolCall} {Q : Unit → BPlusTree K V → Prop}
    (hQ : ∀ t', Ending S A ω R m t' → Q () t') :
    wp (growRoot ω.toIndexParams x key t.nextPageId) Q { t with
      pages := splitPages t.pages x t.nextPageId page, nextPageId := t.nextPageId + 1,
      rootLockedCnt := count, pageSet := pageSet, calls := calls } := by
  obtain ⟨hr, -⟩ := h.next_fresh
  have hx : G x = some ⟨H, ⊥, ⊤, invalidPageId⟩ := hroot ▸ h.shape.top
  have hlower := splitPages_lower (r := t.nextPageId) h.shape hx hpage
  have hupper := splitPages_upper (r := t.nextPageId) h.shape hx hpage hr
  have hxr : x ≠ t.nextPageId := by
    rintro rfl
    rw [hr] at hx
    cases hx
  have hsucc : t.nextPageId < t.nextPageId + 1 := Int.lt_add_one_of_le le_rfl
  have hxn : x ≠ t.nextPageId + 1 := by
    intro heq
    have hlt := h.fresh _ _ hx
    rw [heq] at hlt
    exact absurd (lt_trans hsucc hlt) (lt_irrefl _)
  have hsix := InternalPage.six_le_initMaxSize ω.keySize
  have hstore : (InternalPage.init ω.keySize (t.nextPageId + 1) invalidPageId
      : InternalPage K).populateNewRoot x key t.nextPageId =
      .ok ⟨⟨t.nextPageId + 1, invalidPageId, InternalPage.initMaxSize ω.keySize⟩,
        [(default, x), (key, t.nextPageId)]⟩ := by
    have hlen : 2 ≤ InternalPage.initMaxSize ω.keySize + 1 := by omega
    simp [InternalPage.populateNewRoot, InternalPage.store, InternalPage.init, hlen]
  simp only [growRoot, wp_bind, wp_newPage, wp_setRootPageId, wp_ofExcept, wp_writePage,
    wp_setParentPageId, wp_unpinPage]
  refine ⟨_, hstore, lowerHalf t.nextPageId page, ?_, upperHalf t.nextPageId page, ?_, ?_⟩
  · rw [Function.update_of_ne hxn, hlower]
  · rw [Function.update_of_ne hxr.symm, Function.update_of_ne hsucc.ne, hupper]
  · refine wp_updateRootPageId_update _ ω.name_short fun header calls' hrec hcount => ?_
    refine hQ _ ?_
    refine StandsWith.ending (h.splitRoot hpage hfull hroot hkey rfl rfl rfl
      (h.header.updated hrec hcount) rfl hdel hS) hnodup

/-- `InsertIntoParent`, after `Split` has divided a page of a standing
tree that had one entry too many. -/
theorem wp_insertIntoParent [Inhabited K] {fuel : Nat} (h : Standing ω R m t G H [x])
    (hx : G x = some c) (hpage : t.pages x = some page)
    (hfull : page.getSize = page.getMaxSize + 1) (hdel : t.deletedPageSet = [])
    (hkey : firstKey (upperHalf t.nextPageId page) = some key) (hfuel : H < c.height + fuel)
    (hS : Outlived S A G []) {count : Nat} {pageSet : List PageId}
    (hnodup : pageSet.Nodup) (hold : ∀ y ∈ pageSet, y < t.nextPageId + 1) {calls : List PoolCall}
    {Q : Unit → BPlusTree K V → Prop} (hQ : ∀ t', Ending S A ω R m t' → Q () t') :
    wp (insertIntoParent ω.toIndexParams true fuel x key t.nextPageId) Q { t with
      pages := splitPages t.pages x t.nextPageId page, nextPageId := t.nextPageId + 1,
      rootLockedCnt := count, pageSet := pageSet, calls := calls } := by
  induction fuel generalizing t G x c page key count pageSet calls Q with
  | zero =>
      have := h.shape.height_le hx
      omega
  | succ fuel ih =>
      obtain ⟨hr, -⟩ := h.next_fresh
      have hlower := splitPages_lower (r := t.nextPageId) h.shape hx hpage
      have hupper := splitPages_upper (r := t.nextPageId) h.shape hx hpage hr
      rw [insertIntoParent, wp_bind, wp_readPage]
      refine ⟨_, hlower, ?_⟩
      have hisroot := h.shape.isRootPage_iff hx hpage
      rw [isRootPage_lowerHalf]
      by_cases hroot : x = t.rootPageId
      · rw [if_pos (hisroot.mpr hroot)]
        exact wp_growRoot h hpage hfull hroot hdel hkey hS hnodup hQ
      · rw [if_neg (fun htrue => hroot (hisroot.mp htrue))]
        obtain ⟨d, q, before, k, after, hd, hheight, hq, harr, hfirst⟩ := h.shape.slot hx hroot
        obtain ⟨page', hpage', hok⟩ := h.shape.page hx
        cases hpage.symm.trans hpage'
        have hpx : c.parent ≠ x := by
          intro heq
          rw [heq] at hd
          cases hx.symm.trans hd
          omega
        have hpr : c.parent ≠ t.nextPageId := by
          intro heq
          rw [heq, hr] at hd
          cases hd
        have hpm : c.parent ∉ childIds (upperHalf t.nextPageId page) := by
          intro hmem
          obtain ⟨e, he, -, heh⟩ :=
            h.shape.child_cell hx hpage (childIds_upperHalf_subset _ hmem)
          cases hd.symm.trans he
          omega
        have hparent : splitPages t.pages x t.nextPageId page c.parent = some (.internal q) := by
          rw [splitPages_other hpm hpx hpr, hq]
        -- the new page has the right parent already
        have hself : Function.update (splitPages t.pages x t.nextPageId page) t.nextPageId
            (some ((upperHalf t.nextPageId page).setParentPageId c.parent)) =
            splitPages t.pages x t.nextPageId page := by
          rw [Function.update_eq_self_iff, hupper, setParentPageId_self]
          rw [getParentPageId_upperHalf]
          exact hok.parent
        have hqsize := h.sized c.parent d _ hd (by simpa using hpx) hq
        have hqmax := (h.shape.internalOk hd hq).maxSize
        have hinsert := InternalPage.insertNodeAfter_eq harr hfirst hqsize.2 key t.nextPageId
        have hpar : page.getParentPageId = c.parent := hok.parent
        simp only [getParentPageId_lowerHalf, hpar, wp_bind, wp_fetchPage, wp_setParentPageId]
        refine ⟨_, hparent, _, hupper, ?_⟩
        simp only [hself, wp_internalAt, wp_ofExcept, wp_writePage]
        refine ⟨q, hparent, _, hinsert, ?_⟩
        obtain ⟨q', hq'⟩ : ∃ q' : InternalPage K, q' = { q with
          array := before ++ (k, x) :: (key, t.nextPageId) :: after } := ⟨_, rfl⟩
        have hlen : q'.array.length = q.array.length + 1 := by
          rw [hq', harr]
          simp
          omega
        have hmax' : q'.maxSize = q.maxSize := by rw [hq']
        have hparent' : q'.parentPageId = q.parentPageId := by rw [hq']
        rw [← hq']
        -- the parent has its slot: the tree stands again, but for the parent's size
        have hrest : ∀ s : BPlusTree K V, (∃ G' : Cells B, Standing ω R m s G' H [c.parent] ∧
              G' c.parent = some d ∧ ∀ y e, G y = some e →
                ∃ e', G' y = some e' ∧ e'.height = e.height ∧ e'.lo = e.lo) →
            s.pages c.parent = some (.internal q') → s.deletedPageSet = [] → s.pageSet.Nodup →
            (∀ y ∈ s.pageSet, y < s.nextPageId) →
            wp (if q'.array.length > q'.maxSize then do
                let newId ← BPlusTree.split ω.toIndexParams true c.parent
                let newParent ← internalAt newId
                let newKey ← MonadExcept.ofExcept (newParent.keyAt 0)
                insertIntoParent ω.toIndexParams true fuel c.parent newKey newId
              else pure ())
              (fun _ s' => wp (unpinPage c.parent true) Q s') s := by
          rintro s ⟨G', h', hd', hkept⟩ hpage'' hdel' hnodup' hold'
          have hS' := hS.of_cells hkept
          rw [wp_ite]
          constructor
          · intro hover
            have hfull' : (TreePage.internal q' : TreePage K V).getSize =
                (TreePage.internal q' : TreePage K V).getMaxSize + 1 := by
              have hle := hqsize.2
              simp only [TreePage.getSize, TreePage.getMaxSize, TreePage.header] at hle ⊢
              omega
            obtain ⟨page₂, hpage₂, hok₂⟩ := h'.shape.page hd'
            cases hpage''.symm.trans hpage₂
            rw [wp_bind]
            refine wp_split hpage'' hfull' hok₂.getMaxSize_eq ?_ fun calls' => ?_
            · intro y hy
              obtain ⟨e, he, -⟩ := h'.shape.child_cell hd' hpage'' hy
              obtain ⟨p, hp, -⟩ := h'.shape.page he
              exact ⟨p, hp⟩
            · obtain ⟨newKey, hnewKey⟩ := exists_firstKey_upperHalf (r := s.nextPageId) hfull'
              simp only [wp_bind, wp_internalAt, wp_ofExcept]
              refine ⟨_, splitPages_upper h'.shape hd' hpage'' h'.next_fresh.1, newKey,
                InternalPage.keyAt_zero hnewKey, ?_⟩
              obtain ⟨hnodup₂, hold₂⟩ := nodup_concat_next hnodup' hold'
              refine ih h' hd' hpage'' hfull' hdel' hnewKey (by omega) hS' hnodup₂ hold₂ ?_
              intro s' hs'
              rw [wp_unpinPage]
              exact hQ _ (hs'.record rfl rfl rfl rfl rfl rfl)
          · intro hfits
            rw [wp_pure, wp_unpinPage]
            refine hQ _ (((h'.narrow fun y hy => Or.inr fun _ page' _ hpage₂ => ?_).ending hnodup'
              (hdel' ▸ hS')).record rfl rfl rfl rfl rfl rfl)
            rw [List.mem_singleton] at hy
            subst hy
            cases hpage''.symm.trans hpage₂
            refine ⟨?_, ?_⟩
            · have hmin := hqsize.1
              simp only [TreePage.getMinSize, TreePage.isRootPage, TreePage.getSize,
                TreePage.getMaxSize, TreePage.header, hmax', hparent', hlen] at hmin ⊢
              exact hmin.trans (Nat.le_succ _)
            · simp only [TreePage.getSize, TreePage.getMaxSize, TreePage.header]
              omega
        refine hrest _ ?_ ?_ hdel hnodup hold
        · refine h.split hx hpage hfull hroot hd hq harr hkey ?_ rfl rfl rfl hdel
          rw [hq']
        · exact Function.update_self _ _ _

end Upward

/-! ### The operation -/

section Operation

variable {key : K}

/-- The entry gets into the leaf its search ends in, and the pages on the
way up are split as far as they are too full. The leaves that are there
already start where they did. -/
theorem Standing.wp_insertIntoLeaf [Inhabited K] [DecidableEq K] (h : Standing ω R m t G H [])
    (hset : t.pageSet = []) (hdel : t.deletedPageSet = []) (hkey : key ∈ ω.keys) (value : V)
    (hA : ∀ b y, (b, y) ∈ A → Above G b y) :
    wp (insertIntoLeaf ω.toIndexParams key value true)
      (fun r t' => r = (m key).isNone ∧ Represents ω R
        (if m key = none then Function.update m key (some value) else m) t' ∧
          (Quiet t → Settled t t') ∧ Remains G A ω R
        (if m key = none then Function.update m key (some value) else m) t') t := by
  rw [insertIntoLeaf, wp_bind]
  refine h.wp_findLeafPage_write (by decide) hset hdel hkey ?_
  intro p c leaf count pageSet calls hp hzero hleaf hlo hhi _ hpath hcarry
  have htree : ∀ y, InTree t y → G y ≠ none := fun y => h.shape.inTree_iff.mp
  simp only [wp_bind, wp_leafAt]
  refine ⟨leaf, hleaf, ?_⟩
  have hok := h.shape.leafOk hp hleaf
  have hlookup := h.lookup_eq hp hleaf hkey hlo hhi
  rw [hlookup]
  cases hm : m key with
  | some v =>
      simp only [wp_bind, wp_pure]
      have hfound : Standing ω R m { t with
          rootLockedCnt := count, pageSet := pageSet, calls := calls } G H [] :=
        h.frame rfl rfl rfl (fun _ _ _ => rfl) (by simp [hdel])
      refine wp_release_settled (hfound.ending hpath.nodup (.refl hA)) htree hset hcarry
        fun t' ht' hsettled hremains => ⟨rfl, ?_, hsettled, ?_⟩
      · simpa using ht'
      · simpa using hremains
  | none =>
      have hsize := (h.sized p c _ hp (by simp) hleaf).2
      rw [hm] at hlookup
      obtain ⟨l, hinsert, hl, hlen, hmem⟩ :=
        LeafPage.insert_eq ω.ranked hok.entries hkey hlo hhi hlookup hsize value
      simp only [wp_bind, wp_ofExcept, wp_writePage, if_true]
      refine ⟨_, hinsert, ?_⟩
      have hm' : ∀ k v, Function.update m key (some value) k = some v ↔
          (k, v) ∈ l ∨ m k = some v ∧ (k, v) ∉ leaf.array := by
        intro k v
        rw [hmem]
        by_cases hk : k = key
        · subst hk
          have hnot : (k, v) ∉ leaf.array := fun hin => by
            rw [(h.holds_iff hp hleaf hlo hhi).mpr hin] at hm
            cases hm
          simp [hm, hnot, eq_comm]
        · have hin : (k, v) ∈ leaf.array → m k = some v := fun hin =>
            (h.holds k v).mpr ⟨p, c, hp, by rw [hleaf]; exact hin⟩
          simp only [Function.update_of_ne hk, Prod.mk.injEq, hk, false_and, false_or]
          tauto
      obtain ⟨leaf', hleaf'⟩ : ∃ leaf' : LeafPage K V, leaf' = { leaf with array := l } :=
        ⟨_, rfl⟩
      have hlen' : leaf'.array.length = leaf.array.length + 1 := by rw [hleaf', hlen]
      have hmax' : leaf'.maxSize = leaf.maxSize := by rw [hleaf']
      have hparent' : leaf'.parentPageId = leaf.parentPageId := by rw [hleaf']
      rw [← hleaf']
      -- the leaf has its entry: the tree stands again, but for the leaf's size
      have hrest : ∀ s : BPlusTree K V,
          Standing ω R (Function.update m key (some value)) s G H [p] →
          s.pages p = some (.leaf leaf') → s.deletedPageSet = [] → s.pageSet.Nodup →
          (∀ y ∈ s.pageSet, y < s.nextPageId) →
          wp (if leaf'.array.length > leaf'.maxSize then do
              let newId ← BPlusTree.split ω.toIndexParams true p
              let newLeaf ← leafAt newId
              let newKey ← MonadExcept.ofExcept (newLeaf.keyAt 0)
              let t ← get
              insertIntoParent ω.toIndexParams true t.nextPageId.toNat p newKey newId
            else pure ())
            (fun _ s' => Ending G A ω R (Function.update m key (some value)) s') s := by
        intro s h' hpage' hdel' hnodup' hold'
        rw [wp_ite]
        constructor
        · intro hover
          have hfull' : (TreePage.leaf leaf' : TreePage K V).getSize =
              (TreePage.leaf leaf' : TreePage K V).getMaxSize + 1 := by
            simp only [TreePage.getSize, TreePage.getMaxSize, TreePage.header] at hsize ⊢
            omega
          obtain ⟨page₂, hpage₂, hok₂⟩ := h'.shape.page hp
          cases hpage'.symm.trans hpage₂
          rw [wp_bind]
          refine wp_split hpage' hfull' hok₂.getMaxSize_eq (by simp [childIds]) fun calls' => ?_
          obtain ⟨newKey, hnewKey⟩ := exists_firstKey_upperHalf (r := s.nextPageId) hfull'
          simp only [wp_bind, wp_leafAt, wp_ofExcept, wp_get]
          refine ⟨_, splitPages_upper h'.shape hp hpage' h'.next_fresh.1, newKey,
            LeafPage.keyAt_zero hnewKey, ?_⟩
          obtain ⟨hnodup₂, hold₂⟩ := nodup_concat_next hnodup' hold'
          refine wp_insertIntoParent h' hp hpage' hfull' hdel' hnewKey ?_ (.refl hA) hnodup₂
            hold₂ ?_
          · have hheight := h'.height
            have hle : s.nextPageId.toNat ≤ (s.nextPageId + 1).toNat :=
              Int.toNat_le_toNat (Int.le_add_one le_rfl)
            omega
          · exact fun t' ht' => ht'
        · intro hfits
          rw [wp_pure]
          refine (h'.narrow fun y hy => Or.inr fun _ page' _ hpage₂ => ?_).ending hnodup'
            (.refl hA)
          rw [List.mem_singleton] at hy
          subst hy
          cases hpage'.symm.trans hpage₂
          have hmin := (h.sized y c _ hp (by simp) hleaf).1
          refine ⟨?_, ?_⟩
          · simp only [TreePage.getMinSize, TreePage.isRootPage, TreePage.getSize,
              TreePage.getMaxSize, TreePage.header, hmax', hparent', hlen'] at hmin ⊢
            exact hmin.trans (Nat.le_succ _)
          · simp only [TreePage.getSize, TreePage.getMaxSize, TreePage.header]
            omega
      have hid : (TreePage.leaf leaf' : TreePage K V).getPageId = p := by
        obtain ⟨page, hpage, hok⟩ := h.shape.page hp
        cases hleaf.symm.trans hpage
        rw [hleaf']
        exact hok.pageId
      have hneutral : Neutral (if leaf'.array.length > leaf'.maxSize then do
            let newId ← BPlusTree.split ω.toIndexParams true p
            let newLeaf ← leafAt newId
            let newKey ← MonadExcept.ofExcept (newLeaf.keyAt 0)
            let t ← get
            insertIntoParent ω.toIndexParams true t.nextPageId.toNat p newKey newId
          else pure () : TreeM K V Unit) := by
        refine Neutral.ite ((neutral_split _ p).bind fun newId => ?_) (Neutral.pure ())
        refine neutral_leafAt.bind fun newLeaf => (Neutral.ofExcept _).bind fun newKey => ?_
        exact Neutral.get.bind fun t => neutral_insertIntoParent _ _ _ _ _
      refine wp_mono (wp_and_wlp (hrest _ ?_ ?_ hdel hpath.nodup ?_) (hneutral.carries _)) ?_
      · rw [hleaf']
        exact h.storeLeaf hp hleaf hl hm' rfl rfl rfl rfl hdel
      · exact Function.update_self _ _ _
      · intro y hy
        obtain ⟨e, he, -⟩ := hpath.above y hy
        exact h.fresh y e he
      · rintro - s' ⟨hs', hs'carry⟩
        refine wp_release_settled hs' htree hset ?_ fun t' ht' hsettled hremains =>
          wp_pure.mpr ⟨rfl, ht', hsettled, hremains⟩
        exact fun hcount => ((hcarry hcount).trans (.store hid)).trans (hs'carry hs'.nodup)

theorem wp_insertIntoLeaf [Inhabited K] [DecidableEq K] (h : Stands ω R m t)
    (hset : t.pageSet = []) (hdel : t.deletedPageSet = []) (hkey : key ∈ ω.keys) (value : V) :
    wp (insertIntoLeaf ω.toIndexParams key value true)
      (fun r t' => r = (m key).isNone ∧ Represents ω R
        (if m key = none then Function.update m key (some value) else m) t' ∧
          (Quiet t → Settled t t')) t := by
  obtain ⟨G, H, h⟩ := h
  refine wp_mono (h.wp_insertIntoLeaf (A := ∅) hset hdel hkey value ?_) fun r t' hpost =>
    ⟨hpost.1, hpost.2.1, hpost.2.2.1⟩
  exact fun _ _ hnot => absurd hnot (Set.notMem_empty _)

theorem stands_of_leaf {leaf : LeafPage K V} (hpos : 0 < t.rootPageId)
    (hpage : t.pages t.rootPageId = some (.leaf leaf))
    (hheader : leaf.toPageHeader =
      ⟨t.rootPageId, invalidPageId, LeafPage.initMaxSize ω.keySize⟩)
    (hnext : leaf.nextPageId = invalidPageId)
    (hl : SortedWithin ω.rank ω.keys ⊥ ⊤ leaf.array) (hlen : leaf.array.length = 1)
    (hm : ∀ k v, m k = some v ↔ (k, v) ∈ leaf.array)
    (hfresh : t.nextPageId = t.rootPageId + 1) (hrec : HeaderOk ω.toIndexParams R t)
    (hdel : t.deletedPageSet = []) : Stands ω R m t := by
  obtain ⟨e, he⟩ : ∃ e, e ∈ leaf.array := List.exists_mem_of_length_pos (by omega)
  have hin := hl.lt_of_mem he
  have hfive := LeafPage.five_le_initMaxSize ω.keySize
  let G : Cells B := fun y => if y = t.rootPageId then some ⟨0, ⊥, ⊤, invalidPageId⟩ else none
  have hG : ∀ {y c}, G y = some c → y = t.rootPageId ∧ c = ⟨0, ⊥, ⊤, invalidPageId⟩ := by
    intro y c hy
    by_cases hyr : y = t.rootPageId
    · simp only [G, hyr, if_true, Option.some_inj] at hy
      exact ⟨hyr, hy.symm⟩
    · simp [G, hyr] at hy
  have hroot : G t.rootPageId = some ⟨0, ⊥, ⊤, invalidPageId⟩ := by simp [G]
  have hid : leaf.pageId = t.rootPageId := by rw [hheader]
  have hparent : leaf.parentPageId = invalidPageId := by rw [hheader]
  have hmax : leaf.maxSize = LeafPage.initMaxSize ω.keySize := by rw [hheader]
  refine ⟨G, 0, ⟨hroot, ?_, ?_, ?_, ?_⟩, ?_, ?_, ?_, ?_, hrec, by simp [hdel]⟩
  · intro y c hy
    obtain ⟨rfl, rfl⟩ := hG hy
    exact ⟨_, hpage, hid, hparent, rfl, hmax, hl, Or.inl ⟨rfl, hnext⟩⟩
  · intro y c hy
    obtain ⟨-, rfl⟩ := hG hy
    exact hin.1.trans_lt hin.2
  · intro y c hy
    obtain ⟨rfl, -⟩ := hG hy
    exact hpos
  · intro y c hy hyr
    exact absurd (hG hy).1 hyr
  · intro y c page hy _ hpage'
    obtain ⟨rfl, -⟩ := hG hy
    cases hpage.symm.trans hpage'
    simp only [SizeOk, TreePage.getMinSize, TreePage.isRootPage, TreePage.isLeafPage,
      TreePage.getSize, TreePage.getMaxSize, TreePage.header, hparent, decide_true, if_true,
      hmax, hlen]
    omega
  · intro k v
    rw [hm]
    constructor
    · intro hmem
      refine ⟨t.rootPageId, _, hroot, ?_⟩
      rw [hpage]
      exact hmem
    · rintro ⟨y, c, hy, hmem⟩
      obtain ⟨rfl, -⟩ := hG hy
      rw [hpage] at hmem
      exact hmem
  · intro y c hy
    obtain ⟨rfl, -⟩ := hG hy
    rw [hfresh]
    exact Int.lt_add_one_of_le le_rfl
  · have hlt : 0 < t.nextPageId := by
      rw [hfresh]
      exact lt_trans hpos (Int.lt_add_one_of_le le_rfl)
    exact Int.lt_toNat.mpr hlt

theorem wp_startNewTree [DecidableEq K] (h : Represents ω R m t)
    (hempty : t.rootPageId = invalidPageId) (hkey : key ∈ ω.keys) (value : V)
    {Q : Unit → BPlusTree K V → Prop}
    (hQ : ∀ t', Represents ω (t.headerPage.recorded ω.indexName = none)
        (Function.update m key (some value)) t' → t'.rootPageId = t.nextPageId →
      t'.headerPage.recorded ω.indexName =
        some ((t.headerPage.recorded ω.indexName).getD t.nextPageId) → Q () t') :
    wp (startNewTree ω.toIndexParams key value) Q t := by
  have hm : ∀ k, m k = none := by
    rcases h.tree with ⟨-, hm⟩ | ⟨G, H, hs⟩
    · exact hm
    · have hpos := hs.shape.positive hs.shape.top
      rw [hempty] at hpos
      exact absurd hpos (by decide)
  have hpos : 0 < t.nextPageId := h.nextPageId
  obtain ⟨leaf, hleaf⟩ : ∃ leaf : LeafPage K V,
      leaf = LeafPage.init ω.keySize t.nextPageId invalidPageId := ⟨_, rfl⟩
  have hnil : leaf.array = [] := by rw [hleaf]; rfl
  have hentries : SortedWithin ω.rank ω.keys (⊥ : B) ⊤ leaf.array := by
    rw [hnil]
    exact SortedWithin.nil
  have hlookup : leaf.lookup ω.comparator key = none := by
    rw [LeafPage.lookup_eq_none_iff ω.ranked hentries hkey]
    simp [hnil]
  obtain ⟨l, hinsert, hl, hlen, hmem⟩ := LeafPage.insert_eq ω.ranked hentries hkey bot_le
    (ω.ranked.lt_top hkey) hlookup (by simp [hnil]) value
  simp only [startNewTree, wp_bind, wp_newPage, wp_writePage, wp_setRootPageId]
  refine wp_updateRootPageId_insert _ ω.name_short ?_ ?_ ?_
  · exact lt_trans (show invalidPageId < 0 by decide) hpos
  · exact h.header.1
  · intro header calls hrec
    simp only [wp_leafAt, wp_ofExcept, wp_unpinPage]
    refine ⟨leaf, ?_, _, hinsert, hQ _ ?_ rfl hrec⟩
    · rw [hleaf]
      exact Function.update_self _ _ _
    · refine Stands.represents (stands_of_leaf hpos (Function.update_self _ _ _) ?_ ?_ hl ?_ ?_ rfl
        ?_ h.deletedPageSet) h.pageSet h.deletedPageSet
      · rw [hleaf]
        rfl
      · rw [hleaf]
        rfl
      · rw [hlen, hnil]
        rfl
      · intro k v
        rw [hmem, hnil]
        by_cases hk : k = key
        · simp [hk, eq_comm]
        · simp [hk, hm]
      · refine ⟨fun hnone => ?_, fun hnone => ?_⟩
        · rw [hrec] at hnone
          cases hnone
        · rw [hrec, hnone]
          rfl

/-- `Insert` adds the entry of a key that is not there yet, and says so. -/
theorem wp_insert [Inhabited K] [DecidableEq K] (h : Represents ω R m t) (hkey : key ∈ ω.keys)
    (value : V) :
    wp (insert ω.toIndexParams key value true)
      (fun r t' => r = (m key).isNone ∧
        Represents ω (if t.rootPageId = invalidPageId
          then t.headerPage.recorded ω.indexName = none else R)
          (if m key = none then Function.update m key (some value) else m) t' ∧
        (Quiet t → Settled t t')) t := by
  simp only [insert, lockRootPageId, wp_bind, wp_modify, wp_getRootPageId, wp_ite]
  have hlock : t.rootLockedCnt = 0 → Carries t { t with
      rootLockedCnt := t.rootLockedCnt + 1, calls := .lockRoot true :: t.calls } := by
    intro hcount u₀ old extra hn ht
    rw [hcount] at ht
    refine ⟨hn, ?_⟩
    change InHand u₀ old true extra t.pageSet (t.rootLockedCnt + 1) _
    rw [hcount]
    exact ht.lockRoot
  constructor
  · intro hempty
    have hm : m key = none := by
      rcases h.tree with ⟨-, hm⟩ | ⟨G, H, hs⟩
      · exact hm key
      · have hpos := hs.shape.positive hs.shape.top
        rw [hempty] at hpos
        exact absurd hpos (by decide)
    have h' : Represents ω R m { t with rootLockedCnt := t.rootLockedCnt + 1,
                                        calls := .lockRoot true :: t.calls } := by
      refine ⟨h.pageSet, h.deletedPageSet, h.nextPageId, h.header, ?_⟩
      exact h.tree.imp_right fun hs => hs.frame rfl rfl rfl rfl h.deletedPageSet
    have hstart := wp_startNewTree (Q := fun _ t' => Represents ω
      (t.headerPage.recorded ω.indexName = none) (Function.update m key (some value)) t') h'
      hempty hkey value fun t' ht' _ _ => ht'
    refine wp_mono (wp_and_wlp hstart ((neutral_startNewTree _ key value).carries _)) ?_
    rintro _ s ⟨hs, hcarry⟩
    have hnodup : s.pageSet.Nodup := by
      rw [hs.pageSet]
      exact List.nodup_nil
    refine wp_tryUnlockRootPageId_carries fun count calls hcount hunlock => ?_
    simp only [wp_pure, hm, Option.isNone_none, if_true, hempty]
    refine ⟨trivial, ⟨hs.pageSet, hs.deletedPageSet, hs.nextPageId, hs.header, ?_⟩, ?_⟩
    · exact hs.tree.imp_right fun hs' => hs'.frame rfl rfl rfl rfl hs.deletedPageSet
    · intro hquiet
      have hall := fun hzero => (hlock hzero).trans (hcarry hnodup)
      obtain ⟨-, hle, -⟩ := Carries.of_quiet hall hquiet h.pageSet
      exact Settled.of_carries (fun hzero => (hall hzero).trans hunlock) hquiet h.pageSet
        hs.pageSet (hcount hle) fun y hy => absurd hempty hy.1
  · intro hroot
    rw [tryUnlockRootPageId, wp_modify, if_pos (Nat.succ_pos _), if_neg hroot]
    rcases h.tree with ⟨hempty, -⟩ | hs
    · exact absurd hempty hroot
    · have hs' : Stands ω R m { t with rootLockedCnt := t.rootLockedCnt + 1 - 1,
                                       calls := .unlockRoot true :: .lockRoot true :: t.calls } :=
        hs.frame rfl rfl rfl rfl h.deletedPageSet
      refine wp_mono (wp_insertIntoLeaf hs' h.pageSet h.deletedPageSet hkey value) ?_
      rintro r t' ⟨hr, ht', hsettled⟩
      refine ⟨hr, ht', fun hquiet => ?_⟩
      refine (hsettled ⟨?_, hquiet.named⟩).after (fun u₀ old extra hold => ?_) fun y hy => hy
      · exact hquiet.unlocked
      · exact hold.lockRoot.unlockRoot

/-- The first key of a tree: the id of the new root is recorded only if
there was no record before. -/
theorem wp_insert_empty [Inhabited K] [DecidableEq K] (h : Represents ω R m t)
    (hempty : t.rootPageId = invalidPageId) (hkey : key ∈ ω.keys) (value : V) :
    wp (insert ω.toIndexParams key value true) (fun _ t' => 0 < t'.rootPageId ∧
      t'.headerPage.recorded ω.indexName =
        some ((t.headerPage.recorded ω.indexName).getD t'.rootPageId)) t := by
  simp only [insert, lockRootPageId, wp_bind, wp_modify, wp_getRootPageId]
  rw [if_pos hempty, wp_bind]
  have h' : Represents ω R m { t with rootLockedCnt := t.rootLockedCnt + 1,
                                      calls := .lockRoot true :: t.calls } := by
    refine ⟨h.pageSet, h.deletedPageSet, h.nextPageId, h.header, ?_⟩
    exact h.tree.imp_right fun hs => hs.frame rfl rfl rfl rfl h.deletedPageSet
  refine wp_startNewTree h' hempty hkey value fun t' _ hroot hrec => ?_
  rw [wp_bind]
  refine wp_tryUnlockRootPageId fun count calls => ?_
  rw [wp_pure]
  refine ⟨?_, ?_⟩
  · change 0 < t'.rootPageId
    rw [hroot]
    exact h.nextPageId
  · change t'.headerPage.recorded ω.indexName = _
    rw [hrec, hroot]

end Operation

end BPlusTree

end ScuDb
