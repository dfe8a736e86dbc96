import ScuDb.Index.Shape

/-!
Regrouping two neighbouring children of a page.

Splitting a page, merging two pages and moving an entry between two
neighbours are one change seen from the parent: the children `left` and
`right` share out what they hold anew, and the separator between them
changes. A split is the case where there was no right neighbour before,
a merge the case where there is none afterwards. `Regroups` collects
what has to be known of the pages that change; `Regroups.shape'` is the
conclusion that the whole store is still a tree.
-/

namespace ScuDb

open Foundations

variable {K V B : Type} [LinearOrder B] [BoundedOrder B]

/-- Two neighbouring slots of an internal page, the second of which may
be missing before or after the change, and the grandchildren that change
hands. -/
structure Regroup (K : Type) where
  parent : PageId
  before : List (K × PageId)
  key : K
  left : PageId
  right : PageId
  after : List (K × PageId)
  old : Option K
  new : Option K
  moved : List PageId
  target : PageId

namespace Regroup

variable (cut : Regroup K) (rank : K → B)

/-- The one or two slots, with or without a separator. -/
def slots (sep : Option K) : List (K × PageId) :=
  match sep with
  | none => [(cut.key, cut.left)]
  | some s => [(cut.key, cut.left), (s, cut.right)]

/-- The entries of the parent. -/
def array (sep : Option K) : List (K × PageId) :=
  cut.before ++ (cut.slots sep ++ cut.after)

/-- Where the interval of the two children starts, ... -/
def lower (d : Cell B) : B := start d.lo cut.before (rank cut.key)

/-- ... where it ends, ... -/
def upper (d : Cell B) : B := boundary rank cut.after d.hi

/-- ... and where that of the left one ends. -/
def middle (d : Cell B) (sep : Option K) : B := sep.elim (cut.upper rank d) rank

def leftCell (d : Cell B) (sep : Option K) : Cell B :=
  ⟨d.height - 1, cut.lower rank d, cut.middle rank d sep, cut.parent⟩

def rightCell (d : Cell B) (s : K) : Cell B :=
  ⟨d.height - 1, rank s, cut.upper rank d, cut.parent⟩

/-- The cells after the change, `d` being the cell of the parent. -/
def cells (d : Cell B) (G : Cells B) : Cells B := fun y =>
  if y = cut.left then some (cut.leftCell rank d cut.new)
  else if y = cut.right then cut.new.map (cut.rightCell rank d)
  else if y ∈ cut.moved then (G y).map fun c => { c with parent := cut.target }
  else G y

/-- The parent of a grandchild after the change. -/
def newParent (y : PageId) (c : Cell B) : PageId :=
  if y ∈ cut.moved then cut.target else c.parent

variable {rank}

omit [LinearOrder B] [BoundedOrder B] in
theorem spans_array (d : Cell B) (sep : Option K) :
    spans rank d.lo (cut.array sep) d.hi =
      spans rank d.lo cut.before (rank cut.key) ++
        (spans rank (cut.lower rank d) (cut.slots sep) (cut.upper rank d) ++
          spans rank (cut.upper rank d) cut.after d.hi) := by
  cases sep <;> simp [array, slots, spans_append_start, lower, upper]

omit [LinearOrder B] [BoundedOrder B] in
theorem spans_slots (d : Cell B) (sep : Option K) :
    spans rank (cut.lower rank d) (cut.slots sep) (cut.upper rank d) =
      (cut.left, cut.lower rank d, cut.middle rank d sep) ::
        (match sep with
          | none => []
          | some s => [(cut.right, rank s, cut.upper rank d)]) := by
  cases sep <;> simp [slots, middle]

end Regroup

namespace BPlusTree

variable (ω : OrderedIndex K B)

/-- Two neighbouring children of the page `q`, which stands in the cell
`d`, as they are before a regrouping. -/
structure Neighbours (pages : Pages K V) (G : Cells B) (root : PageId) (H : Nat)
    (cut : Regroup K) (d : Cell B) (q : InternalPage K) : Prop where
  shape : Shape ω pages G root H
  parent : G cut.parent = some d
  page : pages cut.parent = some (.internal q)
  array : q.array = cut.array cut.old
  fresh : cut.old = none → G cut.right = none
  right_pos : 0 < cut.right
  right_ne : cut.right ≠ cut.left
  moved : ∀ y ∈ cut.moved, ∃ c, G y = some c ∧ (c.parent = cut.left ∨ c.parent = cut.right)

/-- `pages'` arises from the tree `pages` by regrouping two neighbours. -/
structure Regroups (pages pages' : Pages K V) (G : Cells B) (root : PageId) (H : Nat)
    (cut : Regroup K) (d : Cell B) (q : InternalPage K) : Prop
    extends Neighbours ω pages G root H cut d q where
  separator : ∀ s ∈ cut.new, s ∈ ω.keys ∧ cut.lower ω.rank d < ω.rank s ∧
    ω.rank s < cut.upper ω.rank d
  parent' : pages' cut.parent = some (.internal { q with array := cut.array cut.new })
  left' : ∃ page, pages' cut.left = some page ∧
    PageOk ω (cut.cells ω.rank d G) cut.left (cut.leftCell ω.rank d cut.new) page
  right' : ∀ s ∈ cut.new, ∃ page, pages' cut.right = some page ∧
    PageOk ω (cut.cells ω.rank d G) cut.right (cut.rightCell ω.rank d s) page
  moved' : ∀ y ∈ cut.moved, pages' y = (pages y).map (·.setParentPageId cut.target)
  same : ∀ y c, G y = some c → y ≠ cut.parent → y ≠ cut.left → y ≠ cut.right →
    y ∉ cut.moved → pages' y = pages y
  grandchildren : ∀ y c, G y = some c → c.parent = cut.left ∨ c.parent = cut.right →
    ∃ e u, cut.cells ω.rank d G (cut.newParent y c) = some e ∧ e.height = c.height + 1 ∧
      pages' (cut.newParent y c) = some (.internal u) ∧
      (y, c.lo, c.hi) ∈ spans ω.rank e.lo u.array e.hi

namespace Neighbours

variable {ω} {pages : Pages K V} {G : Cells B} {root : PageId} {H : Nat}
  {cut : Regroup K} {d : Cell B} {q : InternalPage K}

/-! ### The cells before the change -/

theorem child (h : Neighbours ω pages G root H cut d q) {x : PageId × B × B}
    (hx : x ∈ spans ω.rank d.lo (cut.array cut.old) d.hi) :
    G x.1 = some ⟨d.height - 1, x.2.1, x.2.2, cut.parent⟩ :=
  (h.shape.internalOk h.parent h.page).children x (h.array ▸ hx)

theorem parent_height (h : Neighbours ω pages G root H cut d q) : 0 < d.height :=
  (h.shape.internalOk h.parent h.page).height

theorem left_mem (h : Neighbours ω pages G root H cut d q) :
    G cut.left = some (cut.leftCell ω.rank d cut.old) := by
  refine h.child (x := (cut.left, cut.lower ω.rank d, cut.middle ω.rank d cut.old)) ?_
  rw [cut.spans_array, cut.spans_slots]
  simp

theorem right_mem (h : Neighbours ω pages G root H cut d q) {s : K}
    (hs : cut.old = some s) : G cut.right = some (cut.rightCell ω.rank d s) := by
  refine h.child (x := (cut.right, ω.rank s, cut.upper ω.rank d)) ?_
  rw [cut.spans_array, cut.spans_slots, hs]
  simp

theorem right_cell (h : Neighbours ω pages G root H cut d q) {c : Cell B}
    (hc : G cut.right = some c) : ∃ s, cut.old = some s ∧ c = cut.rightCell ω.rank d s := by
  cases hold : cut.old with
  | none =>
      rw [h.fresh hold] at hc
      cases hc
  | some s =>
      rw [h.right_mem hold] at hc
      cases hc
      exact ⟨s, rfl, rfl⟩

/-- Whatever has one of the two children as its parent is two levels
below the regrouped page. -/
theorem grandchild_height (h : Neighbours ω pages G root H cut d q) {y : PageId}
    {c : Cell B} (hy : G y = some c) (hc : c.parent = cut.left ∨ c.parent = cut.right) :
    y ≠ root ∧ c.height + 2 = d.height := by
  have hroot : y ≠ root := by
    rintro rfl
    rw [h.shape.top] at hy
    cases hy
    have hneg : ¬(0 : PageId) < invalidPageId := by decide
    have hleft := h.shape.positive h.left_mem
    have hright := h.right_pos
    rcases hc with hc | hc
    · rw [← hc] at hleft
      exact hneg hleft
    · rw [← hc] at hright
      exact hneg hright
  refine ⟨hroot, ?_⟩
  have hpos := h.parent_height
  obtain ⟨-, e, -, he, hheight, -⟩ := h.shape.linked hy hroot
  rcases hc with hc | hc
  · rw [hc, h.left_mem] at he
    cases he
    simp only [Regroup.leftCell] at hheight
    omega
  · rw [hc] at he
    obtain ⟨s, -, rfl⟩ := h.right_cell he
    simp only [Regroup.rightCell] at hheight
    omega

theorem parent_ne_left (h : Neighbours ω pages G root H cut d q) :
    cut.parent ≠ cut.left := by
  intro heq
  have hleft := h.left_mem
  have hpos := h.parent_height
  rw [← heq, h.parent, Option.some_inj] at hleft
  have hheight : d.height = d.height - 1 := congrArg Cell.height hleft
  omega

theorem parent_ne_right (h : Neighbours ω pages G root H cut d q) :
    cut.parent ≠ cut.right := by
  intro heq
  have hpos := h.parent_height
  obtain ⟨s, -, hd⟩ := h.right_cell (heq ▸ h.parent)
  have hheight : d.height = d.height - 1 := congrArg Cell.height hd
  omega

theorem parent_not_moved (h : Neighbours ω pages G root H cut d q) :
    cut.parent ∉ cut.moved := by
  intro hmem
  obtain ⟨c, hc, hparent⟩ := h.moved _ hmem
  have := (h.grandchild_height hc hparent).2
  cases h.parent.symm.trans hc
  omega

theorem left_not_moved (h : Neighbours ω pages G root H cut d q) :
    cut.left ∉ cut.moved := by
  intro hmem
  obtain ⟨c, hc, hparent⟩ := h.moved _ hmem
  have hheight := (h.grandchild_height hc hparent).2
  cases h.left_mem.symm.trans hc
  simp only [Regroup.leftCell] at hheight
  omega

theorem right_not_moved (h : Neighbours ω pages G root H cut d q) :
    cut.right ∉ cut.moved := by
  intro hmem
  obtain ⟨c, hc, hparent⟩ := h.moved _ hmem
  have hheight := (h.grandchild_height hc hparent).2
  obtain ⟨s, -, rfl⟩ := h.right_cell hc
  simp only [Regroup.rightCell] at hheight
  omega

theorem outside (h : Neighbours ω pages G root H cut d q) {x : PageId × B × B}
    (hx : x ∈ spans ω.rank d.lo cut.before (ω.rank cut.key) ∨
      x ∈ spans ω.rank (cut.upper ω.rank d) cut.after d.hi) :
    G x.1 = some ⟨d.height - 1, x.2.1, x.2.2, cut.parent⟩ ∧ x.1 ≠ cut.left ∧
      x.1 ≠ cut.right := by
  have hmem : x ∈ spans ω.rank d.lo (cut.array cut.old) d.hi := by
    rw [cut.spans_array]
    rcases hx with hx | hx
    · exact List.mem_append_left _ hx
    · exact List.mem_append_right _ (List.mem_append_right _ hx)
  have hcell := h.child hmem
  have hnodup := h.shape.children_nodup h.parent h.page
  rw [h.array] at hnodup
  have hne : ∀ e ∈ cut.slots cut.old, x.1 ≠ e.2 := by
    intro e he
    simp only [Regroup.array, List.map_append] at hnodup
    rcases hx with hx | hx
    · obtain ⟨f, hf, hfx⟩ := exists_mem_of_span hx
      have hdis := (List.nodup_append.mp hnodup).2.2
      rw [← hfx]
      exact hdis _ (List.mem_map_of_mem hf) _ (List.mem_append_left _ (List.mem_map_of_mem he))
    · obtain ⟨f, hf, hfx⟩ := exists_mem_of_span hx
      have hdis := (List.nodup_append.mp (List.nodup_append.mp hnodup).2.1).2.2
      rw [← hfx]
      exact (hdis _ (List.mem_map_of_mem he) _ (List.mem_map_of_mem hf)).symm
  refine ⟨hcell, ?_, ?_⟩
  · refine hne (cut.key, cut.left) ?_
    cases cut.old <;> simp [Regroup.slots]
  · cases hold : cut.old with
    | none =>
        intro heq
        rw [heq, h.fresh hold] at hcell
        cases hcell
    | some s =>
        refine hne (s, cut.right) ?_
        simp [Regroup.slots, hold]

/-! ### The cells after the change -/

theorem cells_left : cut.cells ω.rank d G cut.left = some (cut.leftCell ω.rank d cut.new) := by
  simp [Regroup.cells]

theorem cells_right (h : Neighbours ω pages G root H cut d q) :
    cut.cells ω.rank d G cut.right = cut.new.map (cut.rightCell ω.rank d) := by
  simp [Regroup.cells, h.right_ne]

theorem cells_moved (h : Neighbours ω pages G root H cut d q) {y : PageId}
    (hy : y ∈ cut.moved) :
    cut.cells ω.rank d G y = (G y).map fun c => { c with parent := cut.target } := by
  have hl : y ≠ cut.left := fun heq => h.left_not_moved (heq ▸ hy)
  have hr : y ≠ cut.right := fun heq => h.right_not_moved (heq ▸ hy)
  simp [Regroup.cells, hl, hr, hy]

theorem cells_same {y : PageId} (hl : y ≠ cut.left) (hr : y ≠ cut.right)
    (hm : y ∉ cut.moved) : cut.cells ω.rank d G y = G y := by
  simp [Regroup.cells, hl, hr, hm]

theorem cells_parent (h : Neighbours ω pages G root H cut d q) :
    cut.cells ω.rank d G cut.parent = some d := by
  rw [cells_same h.parent_ne_left h.parent_ne_right h.parent_not_moved, h.parent]

/-- A page whose parent is neither of the two children and that is not
one of them keeps its cell. -/
theorem cells_of_parent (h : Neighbours ω pages G root H cut d q) {y : PageId} {c : Cell B}
    (hy : G y = some c) (hl : y ≠ cut.left) (hr : y ≠ cut.right)
    (hpl : c.parent ≠ cut.left) (hpr : c.parent ≠ cut.right) :
    cut.cells ω.rank d G y = some c := by
  rw [cells_same hl hr, hy]
  intro hm
  obtain ⟨c', hc', hparent⟩ := h.moved _ hm
  cases hy.symm.trans hc'
  rcases hparent with hp | hp
  · exact hpl hp
  · exact hpr hp

/-- Heights and lower ends stay, except that the right page may have
come, gone or moved its lower end. -/
theorem cells_of_ne_right (h : Neighbours ω pages G root H cut d q) {y : PageId}
    {c : Cell B} (hy : G y = some c) (hr : y ≠ cut.right) :
    ∃ c', cut.cells ω.rank d G y = some c' ∧ c'.height = c.height ∧ c'.lo = c.lo := by
  by_cases hl : y = cut.left
  · subst hl
    cases h.left_mem.symm.trans hy
    exact ⟨_, cells_left, rfl, rfl⟩
  · by_cases hm : y ∈ cut.moved
    · exact ⟨{ c with parent := cut.target }, by rw [h.cells_moved hm, hy]; rfl, rfl, rfl⟩
    · exact ⟨c, by rw [cells_same hl hr hm, hy], rfl, rfl⟩

/-- The right page is the only one that can leave the tree. -/
theorem cells_ne_none (h : Neighbours ω pages G root H cut d q) {y : PageId} (hy : G y ≠ none)
    (hr : y = cut.right → cut.new ≠ none) : cut.cells ω.rank d G y ≠ none := by
  obtain ⟨c, hc⟩ := Option.ne_none_iff_exists'.mp hy
  by_cases heq : y = cut.right
  · subst heq
    rw [h.cells_right]
    simpa using hr rfl
  · obtain ⟨c', hc', -⟩ := h.cells_of_ne_right hc heq
    simp [hc']

theorem body_of_ne (h : Neighbours ω pages G root H cut d q) {y : PageId} {c : Cell B}
    {page : TreePage K V} (hy : G y = some c) (hp : y ≠ cut.parent) (hl : y ≠ cut.left)
    (hr : y ≠ cut.right) (hbody : BodyOk ω G y c page) :
    BodyOk ω (cut.cells ω.rank d G) y c page := by
  refine hbody.congr (fun x e hx hparent _ => ?_) (fun x e hx hzero hczero hlo => ?_)
  · refine h.cells_of_parent hx ?_ ?_ (hparent ▸ hl) (hparent ▸ hr)
    · rintro rfl
      cases h.left_mem.symm.trans hx
      exact hp hparent.symm
    · rintro rfl
      obtain ⟨s, -, rfl⟩ := h.right_cell hx
      exact hp hparent.symm
  · -- the right page is linked to by the left one only
    have hxr : x ≠ cut.right := by
      rintro rfl
      obtain ⟨s, hold, rfl⟩ := h.right_cell hx
      refine hl (h.shape.unique_of_hi hy h.left_mem ?_ ?_)
      · simp only [Regroup.rightCell, Regroup.leftCell] at hzero ⊢
        omega
      · rw [← hlo]
        simp [Regroup.rightCell, Regroup.leftCell, Regroup.middle, hold]
    obtain ⟨e', he', hheight, hlo'⟩ := h.cells_of_ne_right hx hxr
    exact ⟨e', he', hheight.trans hzero, hlo'.trans hlo⟩

theorem parent_body (h : Neighbours ω pages G root H cut d q)
    (hsep : ∀ s ∈ cut.new, s ∈ ω.keys) :
    InternalOk ω (cut.cells ω.rank d G) cut.parent d
      { q with array := cut.array cut.new } := by
  have hok := h.shape.internalOk h.parent h.page
  have harr : ∀ sep, cut.array sep = cut.before ++ (cut.key, cut.left) ::
      ((cut.slots sep).tail ++ cut.after) := by
    intro sep
    cases sep <;> simp [Regroup.array, Regroup.slots]
  refine ⟨hok.height, hok.maxSize, ?_, ?_, ?_, ?_⟩
  · simp [harr]
  · intro hlo e he
    refine hok.head hlo e ?_
    rw [h.array, harr]
    rw [harr] at he
    cases hb : cut.before with
    | nil => simpa [hb] using he
    | cons f rest => simpa [hb] using he
  · intro e he
    have hold : ∀ f ∈ (cut.before ++ (cut.key, cut.left) :: cut.after).tail, f.1 ∈ ω.keys := by
      intro f hf
      refine hok.tail f ?_
      rw [h.array, harr]
      cases hb : cut.before with
      | nil =>
          simp only [hb, List.nil_append, List.tail_cons] at hf ⊢
          exact List.mem_append_right _ hf
      | cons g rest =>
          simp only [hb, List.cons_append, List.tail_cons, List.mem_append, List.mem_cons] at hf ⊢
          tauto
    have hnew : ∀ f ∈ (cut.slots cut.new).tail, f.1 ∈ ω.keys := by
      intro f hf
      cases hnew : cut.new with
      | none => simp [Regroup.slots, hnew] at hf
      | some s =>
          simp only [Regroup.slots, hnew, List.tail_cons, List.mem_singleton] at hf
          subst hf
          exact hsep s hnew
    simp only [harr] at he
    cases hb : cut.before with
    | nil =>
        simp only [hb, List.nil_append, List.tail_cons, List.mem_append] at he hold
        rcases he with he | he
        · exact hnew e he
        · exact hold e he
    | cons g rest =>
        simp only [hb, List.cons_append, List.tail_cons, List.mem_append, List.mem_cons]
          at he hold
        rcases he with he | he | he | he
        · exact hold e (Or.inl he)
        · exact hold e (Or.inr (Or.inl he))
        · exact hnew e he
        · exact hold e (Or.inr (Or.inr he))
  · intro x hx
    change x ∈ spans ω.rank d.lo (cut.array cut.new) d.hi at hx
    rw [cut.spans_array, List.mem_append, List.mem_append, cut.spans_slots] at hx
    have houtside : ∀ hx : x ∈ spans ω.rank d.lo cut.before (ω.rank cut.key) ∨
        x ∈ spans ω.rank (cut.upper ω.rank d) cut.after d.hi,
        cut.cells ω.rank d G x.1 = some ⟨d.height - 1, x.2.1, x.2.2, cut.parent⟩ := by
      intro hx
      obtain ⟨hcell, hl, hr⟩ := h.outside hx
      exact h.cells_of_parent hcell hl hr h.parent_ne_left h.parent_ne_right
    rcases hx with hx | hx | hx
    · exact houtside (Or.inl hx)
    · rcases List.mem_cons.mp hx with rfl | hx
      · exact cells_left
      · cases hnew : cut.new with
        | none => simp [hnew] at hx
        | some s =>
            simp only [hnew, List.mem_singleton] at hx
            subst hx
            rw [h.cells_right, hnew]
            rfl
    · exact houtside (Or.inr hx)

theorem parent_slot (h : Neighbours ω pages G root H cut d q) {y : PageId} {c c' : Cell B}
    (hy : G y = some c) (hy' : cut.cells ω.rank d G y = some c') (hparent : c.parent = cut.parent)
    (hl : y ≠ cut.left) (hr : y ≠ cut.right) :
    c' = c ∧ (y, c.lo, c.hi) ∈ spans ω.rank d.lo (cut.array cut.new) d.hi := by
  have hcell := h.cells_of_parent hy hl hr (hparent ▸ h.parent_ne_left)
    (hparent ▸ h.parent_ne_right)
  rw [hcell] at hy'
  cases hy'
  refine ⟨rfl, ?_⟩
  obtain ⟨hmem, -⟩ := h.shape.mem_spans h.parent h.page hy hparent
  rw [h.array, cut.spans_array, cut.spans_slots] at hmem
  rw [cut.spans_array]
  simp only [List.mem_append] at hmem ⊢
  rcases hmem with hmem | hmem | hmem
  · exact Or.inl hmem
  · exfalso
    rcases List.mem_cons.mp hmem with heq | hmem
    · exact hl (congrArg Prod.fst heq)
    · cases hold : cut.old with
      | none => simp [hold] at hmem
      | some s =>
          simp only [hold, List.mem_singleton] at hmem
          exact hr (congrArg Prod.fst hmem)
  · exact Or.inr (Or.inr hmem)

theorem root_ne (h : Neighbours ω pages G root H cut d q) :
    root ≠ cut.left ∧ root ≠ cut.right ∧ root ∉ cut.moved := by
  have hpos := h.shape.positive h.parent
  have hneg : ¬(0 : PageId) < invalidPageId := by decide
  refine ⟨?_, ?_, ?_⟩
  · intro heq
    have hleft := h.left_mem
    rw [← heq, h.shape.top, Option.some_inj] at hleft
    have hparent : invalidPageId = cut.parent := congrArg Cell.parent hleft
    exact hneg (hparent.symm ▸ hpos)
  · intro heq
    obtain ⟨s, -, hcell⟩ := h.right_cell (heq ▸ h.shape.top)
    have hparent : invalidPageId = cut.parent := congrArg Cell.parent hcell
    exact hneg (hparent.symm ▸ hpos)
  · intro hmem
    obtain ⟨c, hc, hparent⟩ := h.moved _ hmem
    exact (h.grandchild_height hc hparent).1 rfl

/-- Where a cell after the change comes from. -/
theorem cells_cases (h : Neighbours ω pages G root H cut d q) {y : PageId} {c' : Cell B}
    (hy : cut.cells ω.rank d G y = some c') :
    y = cut.left ∧ c' = cut.leftCell ω.rank d cut.new ∨
      (∃ s ∈ cut.new, y = cut.right ∧ c' = cut.rightCell ω.rank d s) ∨
      (y ≠ cut.left ∧ y ≠ cut.right ∧ ∃ c, G y = some c ∧
        (y ∈ cut.moved ∧ c' = { c with parent := cut.target } ∨ y ∉ cut.moved ∧ c' = c)) := by
  by_cases hl : y = cut.left
  · subst hl
    rw [cells_left] at hy
    cases hy
    exact Or.inl ⟨rfl, rfl⟩
  · by_cases hr : y = cut.right
    · subst hr
      rw [h.cells_right, Option.map_eq_some_iff] at hy
      obtain ⟨s, hs, rfl⟩ := hy
      exact Or.inr (Or.inl ⟨s, hs, rfl, rfl⟩)
    · refine Or.inr (Or.inr ⟨hl, hr, ?_⟩)
      by_cases hm : y ∈ cut.moved
      · rw [h.cells_moved hm, Option.map_eq_some_iff] at hy
        obtain ⟨c, hc, rfl⟩ := hy
        exact ⟨c, hc, Or.inl ⟨hm, rfl⟩⟩
      · rw [cells_same hl hr hm] at hy
        exact ⟨c', hy, Or.inr ⟨hm, rfl⟩⟩

theorem cells_grandchild (h : Neighbours ω pages G root H cut d q) {y : PageId} {c : Cell B}
    (hy : G y = some c) (hc : c.parent = cut.left ∨ c.parent = cut.right) :
    cut.cells ω.rank d G y = some { c with parent := cut.newParent y c } := by
  have hheight := (h.grandchild_height hy hc).2
  by_cases hm : y ∈ cut.moved
  · rw [h.cells_moved hm, hy]
    simp [Regroup.newParent, hm]
  · rw [cells_same _ _ hm, hy]
    · simp [Regroup.newParent, hm]
    · rintro rfl
      cases h.left_mem.symm.trans hy
      simp only [Regroup.leftCell] at hheight
      omega
    · rintro rfl
      obtain ⟨s, -, rfl⟩ := h.right_cell hy
      simp only [Regroup.rightCell] at hheight
      omega

end Neighbours

namespace Regroups

open Neighbours

variable {ω} {pages pages' : Pages K V} {G : Cells B} {root : PageId} {H : Nat}
  {cut : Regroup K} {d : Cell B} {q : InternalPage K}

theorem page' (h : Regroups ω pages pages' G root H cut d q) {y : PageId} {c' : Cell B}
    (hy : cut.cells ω.rank d G y = some c') :
    ∃ page, pages' y = some page ∧ PageOk ω (cut.cells ω.rank d G) y c' page := by
  rcases h.cells_cases hy with ⟨rfl, rfl⟩ | ⟨s, hs, rfl, rfl⟩ | ⟨hl, hr, c, hc, hmove⟩
  · exact h.left'
  · exact h.right' s hs
  · obtain ⟨page, hpage, hok⟩ := h.shape.page hc
    by_cases hp : y = cut.parent
    · subst hp
      cases h.parent.symm.trans hc
      cases h.page.symm.trans hpage
      rcases hmove with ⟨hm, -⟩ | ⟨-, rfl⟩
      · exact absurd hm h.parent_not_moved
      · exact ⟨_, h.parent', hok.pageId, hok.parent,
          h.parent_body fun s hs => (h.separator s hs).1⟩
    · have hbody := h.body_of_ne hc hp hl hr hok.body
      rcases hmove with ⟨hm, rfl⟩ | ⟨hm, rfl⟩
      · refine ⟨page.setParentPageId cut.target, ?_, ?_, ?_, ?_⟩
        · rw [h.moved' y hm, hpage]
          rfl
        · rw [getPageId_setParentPageId]
          exact hok.pageId
        · rw [getParentPageId_setParentPageId]
        · exact hbody.setParentPageId _ _
      · exact ⟨page, (h.same y _ hc hp hl hr hm).trans hpage, hok.pageId, hok.parent, hbody⟩

theorem nonempty' (h : Regroups ω pages pages' G root H cut d q) {y : PageId} {c' : Cell B}
    (hy : cut.cells ω.rank d G y = some c') : c'.lo < c'.hi := by
  rcases h.cells_cases hy with ⟨rfl, rfl⟩ | ⟨s, hs, rfl, rfl⟩ | ⟨-, -, c, hc, hmove⟩
  · cases hsep : cut.new with
    | none =>
        have hlt := h.shape.nonempty h.left_mem
        cases hold : cut.old with
        | none => simpa [Regroup.leftCell, Regroup.middle, hold] using hlt
        | some s =>
            have hlt' := h.shape.nonempty (h.right_mem hold)
            simp only [Regroup.leftCell, Regroup.middle, hold, Option.elim] at hlt
            exact hlt.trans hlt'
    | some s => exact (h.separator s (by simp [hsep])).2.1
  · exact (h.separator s hs).2.2
  · have hlt := h.shape.nonempty hc
    rcases hmove with ⟨-, rfl⟩ | ⟨-, rfl⟩
    · exact hlt
    · exact hlt

/-- A page in a slot of the regrouped page is linked to it. -/
theorem linked_parent (h : Regroups ω pages pages' G root H cut d q) {y : PageId} {c : Cell B}
    (hheight : c.height + 1 = d.height) (hparent : c.parent = cut.parent)
    (hmem : (y, c.lo, c.hi) ∈ spans ω.rank d.lo (cut.array cut.new) d.hi) :
    c.height < H ∧ ∃ e u, cut.cells ω.rank d G c.parent = some e ∧
      e.height = c.height + 1 ∧ pages' c.parent = some (.internal u) ∧
      (y, c.lo, c.hi) ∈ spans ω.rank e.lo u.array e.hi := by
  have hle := h.shape.height_le h.parent
  refine ⟨by omega, d, { q with array := cut.array cut.new }, ?_, hheight.symm, ?_, hmem⟩
  · rw [hparent, h.cells_parent]
  · rw [hparent]
    exact h.parent'

theorem linked' (h : Regroups ω pages pages' G root H cut d q) {y : PageId} {c' : Cell B}
    (hy : cut.cells ω.rank d G y = some c') (hroot : y ≠ root) :
    c'.height < H ∧ ∃ e u, cut.cells ω.rank d G c'.parent = some e ∧
      e.height = c'.height + 1 ∧ pages' c'.parent = some (.internal u) ∧
      (y, c'.lo, c'.hi) ∈ spans ω.rank e.lo u.array e.hi := by
  have hpos := h.parent_height
  rcases h.cells_cases hy with ⟨rfl, rfl⟩ | ⟨s, hs, rfl, rfl⟩ | ⟨hl, hr, c, hc, hmove⟩
  · refine h.linked_parent (Nat.sub_add_cancel hpos) rfl ?_
    rw [cut.spans_array, cut.spans_slots]
    simp [Regroup.leftCell]
  · refine h.linked_parent (Nat.sub_add_cancel hpos) rfl ?_
    rw [cut.spans_array, cut.spans_slots]
    rw [Option.mem_def] at hs
    simp [Regroup.rightCell, hs]
  · obtain ⟨hlt, e, u, he, hheight, hu, hmem⟩ := h.shape.linked hc hroot
    by_cases hgrand : c.parent = cut.left ∨ c.parent = cut.right
    · obtain ⟨e', u', he', hheight', hu', hmem'⟩ := h.grandchildren y c hc hgrand
      rcases hmove with ⟨hm, rfl⟩ | ⟨hm, rfl⟩
      · simp only [Regroup.newParent, hm, if_true] at he' hu'
        exact ⟨hlt, e', u', he', hheight', hu', hmem'⟩
      · simp only [Regroup.newParent, hm, if_false] at he' hu'
        exact ⟨hlt, e', u', he', hheight', hu', hmem'⟩
    · have hm : y ∉ cut.moved := by
        intro hm
        obtain ⟨c₂, hc₂, hparent⟩ := h.moved _ hm
        cases hc.symm.trans hc₂
        exact hgrand hparent
      rcases hmove with ⟨hm', -⟩ | ⟨-, rfl⟩
      · exact absurd hm' hm
      · by_cases hp : c'.parent = cut.parent
        · obtain ⟨-, hslot⟩ := h.parent_slot hc hy hp hl hr
          refine h.linked_parent ?_ hp hslot
          rw [hp, h.parent] at he
          cases he
          exact hheight.symm
        · -- the parent is some other page, whose entries have not changed
          have hpl : c'.parent ≠ cut.left := fun heq => hgrand (Or.inl heq)
          have hpr : c'.parent ≠ cut.right := fun heq => hgrand (Or.inr heq)
          refine ⟨hlt, ?_⟩
          by_cases hpm : c'.parent ∈ cut.moved
          · refine ⟨{ e with parent := cut.target },
              { u with parentPageId := cut.target }, ?_, hheight, ?_, hmem⟩
            · rw [h.cells_moved hpm, he]
              rfl
            · rw [h.moved' _ hpm, hu]
              rfl
          · exact ⟨e, u, by rw [cells_same hpl hpr hpm, he], hheight,
              (h.same _ _ he hp hpl hpr hpm).trans hu, hmem⟩

/-- Regrouping two children leaves a tree. -/
theorem shape' (h : Regroups ω pages pages' G root H cut d q) :
    Shape ω pages' (cut.cells ω.rank d G) root H where
  top := by
    obtain ⟨hl, hr, hm⟩ := h.root_ne
    rw [cells_same hl hr hm]
    exact h.shape.top
  page := h.page'
  nonempty := h.nonempty'
  positive hy := by
    rcases h.cells_cases hy with ⟨rfl, -⟩ | ⟨-, -, rfl, -⟩ | ⟨-, -, c, hc, -⟩
    · exact h.shape.positive h.left_mem
    · exact h.right_pos
    · exact h.shape.positive hc
  linked := h.linked'

end Regroups

end BPlusTree

end ScuDb
