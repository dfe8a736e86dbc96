import ScuDb.Index.TreeChecker
import ScuDb.Page.BPlusTreePageOutcome
import ScuDb.Page.InternalLookup
import Mathlib.Data.List.Nodup

/-!
What a tree is like that the checker has accepted.

From the leaves up: if the rest is in order, a page with keys in order
below each child, and separators on the right side of them, has its keys
in order and is searched correctly. From the root down: if all keys are
found, there is one way to each of them, so they are on the right side of
the separators on that way, and no page on the way has an only child.
-/

namespace ScuDb

open Foundations

namespace BPlusTree

variable {K V : Type}

/-! ### Keys and leaves below a page -/

section Below

variable {pages : Pages K V} {n : Nat} {p c q : PageId}

theorem not_finite_none (hp : pages p = none) : ¬Finite pages (n + 1) p := by
  simp [Finite, hp]

theorem finite_leaf {page : LeafPage K V} (hp : pages p = some (.leaf page)) :
    Finite pages (n + 1) p := by
  simp [Finite, hp]

theorem finite_internal_iff {page : InternalPage K} (hp : pages p = some (.internal page)) :
    (∀ e ∈ page.array, Finite pages n e.2) ↔ Finite pages (n + 1) p := by
  simp only [Finite, hp]

instance decidableFinite (pages : Pages K V) : (n : Nat) → (p : PageId) →
    Decidable (Finite pages n p)
  | 0, _ => isFalse not_false
  | n + 1, p =>
      match hp : pages p with
      | none => isFalse (not_finite_none hp)
      | some (.leaf _) => isTrue (finite_leaf hp)
      | some (.internal page) =>
          have (e : K × PageId) : Decidable (Finite pages n e.2) := decidableFinite pages n e.2
          decidable_of_iff (∀ e ∈ page.array, Finite pages n e.2) (finite_internal_iff hp)

theorem finite_succ (h : Finite pages n p) : Finite pages (n + 1) p := by
  induction n generalizing p with
  | zero => exact h.elim
  | succ n ih =>
      cases hp : pages p with
      | none => exact absurd h (not_finite_none hp)
      | some page =>
          cases page with
          | leaf page => exact finite_leaf hp
          | internal page =>
              rw [← finite_internal_iff hp] at h ⊢
              intro e he
              exact ih (h e he)

theorem Finite.child (h : Finite pages n p) (hc : IsChild pages p c) : Finite pages n c := by
  obtain ⟨page, hp, hmem⟩ := hc
  obtain ⟨e, he, rfl⟩ := List.mem_map.mp hmem
  cases n with
  | zero => exact h.elim
  | succ n => exact finite_succ ((finite_internal_iff hp).mpr h e he)

theorem Finite.reach (h : Finite pages n p) (hq : Relation.ReflTransGen (IsChild pages) p q) :
    Finite pages n q := by
  induction hq with
  | refl => exact h
  | tail _ hc ih => exact ih.child hc

/-- More levels than there are make no difference. -/
theorem keysBelow_succ (h : Finite pages n p) :
    keysBelow pages (n + 1) p = keysBelow pages n p := by
  induction n generalizing p with
  | zero => exact h.elim
  | succ n ih =>
      rw [keysBelow, keysBelow]
      cases hp : pages p with
      | none => rfl
      | some page =>
          cases page with
          | leaf page => rfl
          | internal page =>
              exact List.flatMap_congr fun e he => ih ((finite_internal_iff hp).mpr h e he)

theorem keysBelow_leaf {page : LeafPage K V} (h : Finite pages n p)
    (hp : pages p = some (.leaf page)) : keysBelow pages n p = page.array.map Prod.fst := by
  cases n with
  | zero => exact h.elim
  | succ n => simp only [keysBelow, hp]

theorem keysBelow_internal {page : InternalPage K} (h : Finite pages n p)
    (hp : pages p = some (.internal page)) :
    keysBelow pages n p = page.array.flatMap fun e => keysBelow pages n e.2 := by
  cases n with
  | zero => exact h.elim
  | succ n =>
      rw [← finite_internal_iff hp] at h
      simp only [keysBelow, hp]
      exact List.flatMap_congr fun e he => (keysBelow_succ (h e he)).symm

theorem keysBelow_none (hp : pages p = none) : keysBelow pages n p = [] := by
  cases n with
  | zero => rfl
  | succ n => simp only [keysBelow, hp]

theorem LeafAt.reach {d : Nat} (h : LeafAt pages p d q) :
    Relation.ReflTransGen (IsChild pages) p q := by
  induction h with
  | leaf _ => exact .refl
  | child hc _ ih => exact .head hc ih

theorem LeafAt.exists_of_reach {d : Nat} (hp : Relation.ReflTransGen (IsChild pages) p c)
    (hq : LeafAt pages c d q) : ∃ d', LeafAt pages p d' q := by
  induction hp using Relation.ReflTransGen.head_induction_on with
  | refl => exact ⟨d, hq⟩
  | head hc _ ih =>
      obtain ⟨d', hd'⟩ := ih
      exact ⟨d' + 1, .child hc hd'⟩

/-- The keys below a page are those in the leaves below it. -/
theorem mem_keysBelow (h : Finite pages n p) {k : K} : k ∈ keysBelow pages n p ↔
    ∃ d q page e, LeafAt pages p d q ∧ pages q = some (.leaf page) ∧ e ∈ page.array ∧ e.1 = k := by
  induction n generalizing p with
  | zero => exact h.elim
  | succ n ih =>
      cases hp : pages p with
      | none => exact absurd h (not_finite_none hp)
      | some page =>
          cases page with
          | leaf page =>
              rw [keysBelow_leaf h hp, List.mem_map]
              constructor
              · rintro ⟨e, he, hk⟩
                exact ⟨0, p, page, e, .leaf hp, hp, he, hk⟩
              · rintro ⟨d, q, page', e, hq, hpage', he, hk⟩
                cases hq with
                | leaf _ =>
                    rw [hp] at hpage'
                    cases hpage'
                    exact ⟨e, he, hk⟩
                | child hc _ =>
                    obtain ⟨_, hinternal, -⟩ := hc
                    rw [hp] at hinternal
                    cases hinternal
          | internal page =>
              rw [← finite_internal_iff hp] at h
              simp only [keysBelow, hp, List.mem_flatMap]
              constructor
              · rintro ⟨f, hf, hk⟩
                obtain ⟨d, q, page', e, hq, hpage', he, hk⟩ := (ih (h f hf)).mp hk
                exact ⟨d + 1, q, page', e, .child ⟨page, hp, List.mem_map_of_mem hf⟩ hq, hpage', he,
                  hk⟩
              · rintro ⟨d, q, page', e, hq, hpage', he, hk⟩
                cases hq with
                | leaf hleaf =>
                    rw [hp] at hleaf
                    cases hleaf
                | child hc hq =>
                    obtain ⟨_, hinternal, hmem⟩ := hc
                    rw [hp] at hinternal
                    cases hinternal
                    obtain ⟨f, hf, rfl⟩ := List.mem_map.mp hmem
                    exact ⟨f, hf, (ih (h f hf)).mpr ⟨_, q, page', e, hq, hpage', he, hk⟩⟩

end Below

/-! ### An accepted page with the rest in order -/

section Order

variable {B : Type} [LinearOrder B] [BoundedOrder B] {cmp : K → K → Int} {S : Set K}
  {rank : K → B} {pages : Pages K V} {n : Nat} {p : PageId}

theorem KeysWithin.child (h : KeysWithin pages S p) {c : PageId} (hc : IsChild pages p c) :
    KeysWithin pages S c where
  leaf q page hq := h.leaf q page (.head hc hq)
  separator q page hq := h.separator q page (.head hc hq)

theorem RestInOrder.child (h : RestInOrder cmp pages n p) {c : PageId} (hc : IsChild pages p c) :
    RestInOrder cmp pages n c where
  distinct q page hq := h.distinct q page (.head hc hq)
  single q page hq := h.single q page (.head hc hq)
  before q page i e f hq := h.before q page i e f (.head hc hq)
  behind q page i e f hq := h.behind q page i e f (.head hc hq)

theorem KeysWithin.mem (h : KeysWithin pages S p) (hfin : Finite pages n p) :
    ∀ k ∈ keysBelow pages n p, k ∈ S := by
  intro k hk
  obtain ⟨d, q, page, e, hq, hpage, he, rfl⟩ := (mem_keysBelow hfin).mp hk
  exact h.leaf q page hq.reach hpage e he

theorem mem_tail_of_get {α : Type} {l : List α} {i : Nat} {a : α} (h : l[i + 1]? = some a) :
    a ∈ l.tail := by
  refine List.mem_of_getElem? (i := i) ?_
  rw [List.getElem?_tail, h]

theorem isChild_of_get {page : InternalPage K} (hp : pages p = some (.internal page)) {i : Nat}
    {e : K × PageId} (he : page.array[i]? = some e) : IsChild pages p e.2 :=
  ⟨page, hp, List.mem_map_of_mem (List.mem_of_getElem? he)⟩

theorem pairwise_rank_of_isChain {α : Type} (hr : Ranked cmp S rank) {l : List (K × α)}
    (hmem : ∀ e ∈ l, e.1 ∈ S) (h : l.IsChain fun a b => cmp a.1 b.1 < 0) :
    l.Pairwise fun a b => rank a.1 < rank b.1 := by
  have hranks : (l.map fun e => rank e.1).IsChain (· < ·) := by
    rw [List.isChain_map]
    refine List.IsChain.imp_of_mem_imp ?_ h
    intro a b ha hb hlt
    exact (hr.neg_iff (hmem a ha) (hmem b hb)).mp hlt
  exact List.pairwise_map.mp (List.isChain_iff_pairwise.mp hranks)

omit [BoundedOrder B] in
theorem lt_of_last {l : List K} (hsorted : l.Pairwise fun a b => rank a < rank b) {x : B}
    (hlast : ∀ k ∈ l.getLast?, rank k < x) : ∀ k ∈ l, rank k < x := by
  intro k hk
  obtain rfl | ⟨init, last, rfl⟩ := List.eq_nil_or_concat' l
  · cases hk
  · have hx := hlast last (by simp)
    obtain hk | hk := List.mem_append.mp hk
    · exact ((List.pairwise_append.mp hsorted).2.2 k hk last List.mem_cons_self).trans hx
    · rwa [List.mem_singleton.mp hk]

omit [BoundedOrder B] in
theorem le_of_first {l : List K} (hsorted : l.Pairwise fun a b => rank a < rank b) {x : B}
    (hfirst : ∀ k ∈ l.head?, x ≤ rank k) : ∀ k ∈ l, x ≤ rank k := by
  intro k hk
  cases l with
  | nil => cases hk
  | cons a l =>
      have ha := hfirst a rfl
      obtain rfl | hk := List.mem_cons.mp hk
      · exact ha
      · exact ha.trans ((List.pairwise_cons.mp hsorted).1 k hk).le

/-- The last key below a page, if it is a leaf, is the one handed up. -/
theorem PageCorr.last_of_leaf {m : Nat} {low high : K} (h : PageCorr cmp pages m p low high)
    (hfin : Finite pages n p) {page : LeafPage K V} (hp : pages p = some (.leaf page)) :
    (keysBelow pages n p).head? = some low ∧ (keysBelow pages n p).getLast? = some high := by
  rw [keysBelow_leaf hfin hp]
  cases m with
  | zero => exact h.elim
  | succ m =>
      simp only [PageCorr, hp] at h
      exact ⟨h.1, h.2.1⟩

/-- A separator lies between the keys on its two sides, if these are
sorted: under a leaf by the checker, under an internal page by what is
asked in addition. -/
theorem RestInOrder.sides (h : RestInOrder cmp pages n p) (hr : Ranked cmp S rank)
    (hkeys : KeysWithin pages S p) (hfin : Finite pages n p) {page : InternalPage K}
    (hp : pages p = some (.internal page)) {m : Nat}
    (hslots : SlotsOk cmp (PageCorr cmp pages m) page.array)
    (hsorted : ∀ c, IsChild pages p c →
      (keysBelow pages n c).Pairwise fun a b => rank a < rank b)
    {i : Nat} {e f : K × PageId} (he : page.array[i]? = some e) (hf : page.array[i + 1]? = some f) :
    (∀ k ∈ keysBelow pages n e.2, rank k < rank f.1) ∧
      ∀ k ∈ keysBelow pages n f.2, rank f.1 ≤ rank k := by
  obtain ⟨low, high, low', high', hcorr, hcorr', habove, hbelow⟩ := hslots.pairs i e f he hf
  have hfS := hkeys.separator p page .refl hp f (mem_tail_of_get hf)
  have hce := isChild_of_get hp he
  have hcf := isChild_of_get hp hf
  have heS := (hkeys.child hce).mem (hfin.child hce)
  have hfkS := (hkeys.child hcf).mem (hfin.child hcf)
  constructor
  · refine lt_of_last (hsorted e.2 hce) fun k hk => ?_
    have hkS := heS k (List.mem_of_getLast? hk)
    cases hchild : pages e.2 with
    | none =>
        rw [keysBelow_none hchild] at hk
        cases hk
    | some child =>
        cases child with
        | leaf leaf =>
            rw [(hcorr.last_of_leaf (hfin.child hce) hchild).2] at hk
            cases hk
            exact (hr.pos_iff hfS hkS).mp habove
        | internal child =>
            have hbelow := h.before p page i e f .refl hp he hf ⟨child, hchild⟩ k hk
            exact (hr.neg_iff hkS hfS).mp hbelow
  · refine le_of_first (hsorted f.2 hcf) fun k hk => ?_
    have hkS := hfkS k (List.mem_of_head? hk)
    have hle : cmp f.1 k ≤ 0 := by
      cases hchild : pages f.2 with
      | none =>
        rw [keysBelow_none hchild] at hk
        cases hk
      | some child =>
          cases child with
          | leaf leaf =>
              rw [(hcorr'.last_of_leaf (hfin.child hcf) hchild).1] at hk
              cases hk
              exact hbelow
          | internal child => exact h.behind p page i e f .refl hp he hf ⟨child, hchild⟩ k hk
    exact not_lt.mp (mt (hr.pos_iff hfS hkS).mpr (not_lt.mpr hle))

theorem KeysWithin.sortedFromOne (hr : Ranked cmp S rank) (h : KeysWithin pages S p)
    {page : InternalPage K} (hp : pages p = some (.internal page)) {corr : PageId → K → K → Prop}
    (hslots : SlotsOk cmp corr page.array) : page.SortedFromOne cmp S where
  mem := h.separator p page .refl hp
  lt := by
    have hmem := h.separator p page .refl hp
    refine (pairwise_rank_of_isChain hr hmem hslots.chain).imp_of_mem ?_
    intro a b ha hb hlt
    exact (hr.neg_iff (hmem a ha) (hmem b hb)).mpr hlt

/-- Keys between the separators beside a slot. -/
theorem isSlot_of_sides (hr : Ranked cmp S rank) {page : InternalPage K}
    (hmem : ∀ e ∈ page.array.tail, e.1 ∈ S) {k : K} (hk : k ∈ S) {i : Nat} {e : K × PageId}
    (he : page.array[i]? = some e) (hlow : i ≠ 0 → rank e.1 ≤ rank k)
    (hhigh : ∀ f, page.array[i + 1]? = some f → rank k < rank f.1) :
    page.IsSlot cmp k i := by
  obtain ⟨hlt, -⟩ := List.getElem?_eq_some_iff.mp he
  refine ⟨hlt, ?_, ?_⟩
  · cases i with
    | zero => exact Or.inl rfl
    | succ i =>
        have heS := hmem e (mem_tail_of_get he)
        refine Or.inr ⟨e, he, not_lt.mp (mt (hr.pos_iff heS hk).mp ?_)⟩
        exact not_lt.mpr (hlow (Nat.succ_ne_zero i))
  · cases hf : page.array[i + 1]? with
    | none =>
        rw [List.getElem?_eq_none_iff] at hf
        exact Or.inl (by omega)
    | some f =>
        exact Or.inr ⟨f, rfl, (hr.neg_iff hk (hmem f (mem_tail_of_get hf))).mpr (hhigh f hf)⟩

theorem leaf_sorted (hr : Ranked cmp S rank) {array : List (K × V)} (hmem : ∀ e ∈ array, e.1 ∈ S)
    (hle : array.IsChain fun a b => cmp a.1 b.1 ≤ 0)
    (hne : array.IsChain fun a b => cmp a.1 b.1 ≠ 0) :
    (array.map Prod.fst).Pairwise fun a b => rank a < rank b := by
  rw [List.pairwise_map]
  refine pairwise_rank_of_isChain hr hmem (List.isChain_iff_getElem.mpr fun i hi => ?_)
  exact lt_of_le_of_ne (List.isChain_iff_getElem.mp hle i hi)
    (List.isChain_iff_getElem.mp hne i hi)

/-- The child at each slot of an accepted page has been accepted. -/
theorem SlotsOk.corr {corr : PageId → K → K → Prop} {array : List (K × PageId)}
    (h : SlotsOk cmp corr array) (hsize : 2 ≤ array.length) {e : K × PageId} (he : e ∈ array) :
    ∃ low high, corr e.2 low high := by
  obtain ⟨i, hi, rfl⟩ := List.mem_iff_getElem.mp he
  cases i with
  | zero =>
      obtain ⟨low, high, -, -, hcorr, -⟩ :=
        h.pairs 0 _ _ (List.getElem?_eq_getElem hi) (List.getElem?_eq_getElem hsize)
      exact ⟨low, high, hcorr⟩
  | succ i =>
      obtain ⟨-, -, low, high, -, hcorr, -⟩ :=
        h.pairs i _ _ (List.getElem?_eq_getElem (by omega)) (List.getElem?_eq_getElem hi)
      exact ⟨low, high, hcorr⟩

theorem internal_sorted (hr : Ranked cmp S rank) (hkeys : KeysWithin pages S p)
    (hfin : Finite pages n p) {page : InternalPage K} (hp : pages p = some (.internal page))
    {corr : PageId → K → K → Prop} (hslots : SlotsOk cmp corr page.array)
    (hsorted : ∀ c, IsChild pages p c →
      (keysBelow pages n c).Pairwise fun a b => rank a < rank b)
    (hsides : ∀ i e f, page.array[i]? = some e → page.array[i + 1]? = some f →
      (∀ k ∈ keysBelow pages n e.2, rank k < rank f.1) ∧
        ∀ k ∈ keysBelow pages n f.2, rank f.1 ≤ rank k) :
    (keysBelow pages n p).Pairwise fun a b => rank a < rank b := by
  have hmem := hkeys.separator p page .refl hp
  have hseps := pairwise_rank_of_isChain hr hmem hslots.chain
  rw [keysBelow_internal hfin hp, List.pairwise_flatMap]
  refine ⟨fun e he => hsorted e.2 ⟨page, hp, List.mem_map_of_mem he⟩, ?_⟩
  rw [List.pairwise_iff_getElem]
  intro i j hi hj hij k hk k' hk'
  obtain ⟨j, rfl⟩ : ∃ j', j = j' + 1 := ⟨j - 1, by omega⟩
  -- `k < K(i + 1) ≤ K(j + 1) ≤ k'`
  have hlt := (hsides i _ _ (List.getElem?_eq_getElem hi)
    (List.getElem?_eq_getElem (by omega))).1 k hk
  have hle := (hsides j _ _ (List.getElem?_eq_getElem (by omega))
    (List.getElem?_eq_getElem hj)).2 k' hk'
  refine lt_of_lt_of_le hlt (le_trans ?_ hle)
  obtain heq | hlt' := Nat.eq_or_lt_of_le (Nat.le_of_lt_succ hij)
  · subst heq
    exact le_rfl
  · have hi' : i < page.array.tail.length := by
      rw [List.length_tail]
      omega
    have hj' : j < page.array.tail.length := by
      rw [List.length_tail]
      omega
    have htail := List.pairwise_iff_getElem.mp hseps i j hi' hj' hlt'
    rw [List.getElem_tail, List.getElem_tail] at htail
    exact htail.le

/-- A search turns to the child that has the key below it. -/
theorem turns_of_sides (hcmp : StrictTotalOrderOn cmp S) (hr : Ranked cmp S rank)
    (hkeys : KeysWithin pages S p) (hfin : Finite pages n p) {page : InternalPage K}
    (hp : pages p = some (.internal page)) {corr : PageId → K → K → Prop}
    (hslots : SlotsOk cmp corr page.array) (hsize : 2 ≤ page.array.length)
    (hsides : ∀ i e f, page.array[i]? = some e → page.array[i + 1]? = some f →
      (∀ k ∈ keysBelow pages n e.2, rank k < rank f.1) ∧
        ∀ k ∈ keysBelow pages n f.2, rank f.1 ≤ rank k)
    {c : PageId} (hc : IsChild pages p c) {k : K} (hk : k ∈ keysBelow pages n c) :
    Turns cmp pages k p c := by
  have hkS := (hkeys.child hc).mem (hfin.child hc) k hk
  obtain ⟨page', hp', hmem⟩ := hc
  rw [hp] at hp'
  cases hp'
  obtain ⟨f, hf, rfl⟩ := List.mem_map.mp hmem
  obtain ⟨i, hi, rfl⟩ := List.mem_iff_getElem.mp hf
  have hget := List.getElem?_eq_getElem hi
  have hslot : page.IsSlot cmp k i := by
    refine isSlot_of_sides hr (hkeys.separator p page .refl hp) hkS hget ?_ ?_
    · intro hne
      obtain ⟨j, rfl⟩ := Nat.exists_eq_succ_of_ne_zero hne
      exact (hsides j _ _ (List.getElem?_eq_getElem (by omega)) hget).2 k hk
    · intro f hf
      exact (hsides i _ f hget hf).1 k hk
  exact ⟨page, hp, (hkeys.sortedFromOne hr hp hslots).lookup_of_isSlot hcmp hsize hkS hslot hget⟩

/-- What there is below an accepted page, by induction on the levels that
the checker has walked. -/
theorem PageCorr.searchable (hcmp : StrictTotalOrderOn cmp S) (hr : Ranked cmp S rank) {m : Nat}
    {low high : K} (h : PageCorr cmp pages m p low high) (hfin : Finite pages n p)
    (hkeys : KeysWithin pages S p) (hrest : RestInOrder cmp pages n p) :
    (keysBelow pages n p).Pairwise (fun a b => rank a < rank b) ∧
      ∀ d q page, LeafAt pages p d q → pages q = some (.leaf page) → ∀ e ∈ page.array,
        Relation.ReflTransGen (Turns cmp pages e.1) p q := by
  induction m generalizing p low high with
  | zero => exact h.elim
  | succ m ih =>
      cases hp : pages p with
      | none => simp [PageCorr, hp] at h
      | some page =>
          cases page with
          | leaf page =>
              simp only [PageCorr, hp] at h
              constructor
              · rw [keysBelow_leaf hfin hp]
                exact leaf_sorted hr (hkeys.leaf p page .refl hp) h.2.2
                  (hrest.distinct p page .refl hp)
              · intro d q page' hq hpage' e he
                cases hq with
                | leaf _ => exact .refl
                | child hc _ =>
                    obtain ⟨_, hinternal, -⟩ := hc
                    rw [hp] at hinternal
                    cases hinternal
          | internal page =>
              simp only [PageCorr, hp] at h
              by_cases hsize : 2 ≤ page.array.length
              · have hbelow (c : PageId) (hc : IsChild pages p c) :
                    (keysBelow pages n c).Pairwise (fun a b => rank a < rank b) ∧
                      ∀ d q page, LeafAt pages c d q → pages q = some (.leaf page) →
                        ∀ e ∈ page.array, Relation.ReflTransGen (Turns cmp pages e.1) c q := by
                  obtain ⟨page', hp', hmem⟩ := hc
                  rw [hp] at hp'
                  cases hp'
                  obtain ⟨e, he, rfl⟩ := List.mem_map.mp hmem
                  obtain ⟨low', high', hcorr⟩ := h.corr hsize he
                  have hc : IsChild pages p e.2 := ⟨page, hp, hmem⟩
                  exact ih hcorr (hfin.child hc) (hkeys.child hc) (hrest.child hc)
                have hsides (i : Nat) (e f : K × PageId) (he : page.array[i]? = some e)
                    (hf : page.array[i + 1]? = some f) :=
                  hrest.sides hr hkeys hfin hp h (fun c hc => (hbelow c hc).1) he hf
                refine ⟨internal_sorted hr hkeys hfin hp h (fun c hc => (hbelow c hc).1) hsides, ?_⟩
                intro d q page' hq hpage' e he
                cases hq with
                | leaf _ => exact .refl
                | @child _ c _ d hc hq =>
                    have hk := (mem_keysBelow (hfin.child hc)).mpr
                      ⟨d, q, page', e, hq, hpage', he, rfl⟩
                    exact .head (turns_of_sides hcmp hr hkeys hfin hp h hsize hsides hc hk)
                      ((hbelow c hc).2 d q page' hq hpage' e he)
              · -- under an only child there is nothing
                have hnone := hrest.single p page .refl hp (by omega)
                refine ⟨hnone ▸ List.Pairwise.nil, fun d q page' hq hpage' e he => ?_⟩
                have hmem := (mem_keysBelow hfin).mpr ⟨d, q, page', e, hq, hpage', he, rfl⟩
                rw [hnone] at hmem
                cases hmem

end Order

/-! ### A searchable tree -/

section Searchable

variable {cmp : K → K → Int} {S : Set K} {pages : Pages K V} {n : Nat} {root p c q : PageId}
  {k : K}

theorem Turns.isChild (h : Turns cmp pages k p c) : IsChild pages p c := by
  obtain ⟨page, hp, hlookup⟩ := h
  exact ⟨page, hp, InternalPage.lookup_ok hlookup⟩

theorem Turns.size {page : InternalPage K} (h : Turns cmp pages k p c)
    (hp : pages p = some (.internal page)) : 2 ≤ page.array.length := by
  obtain ⟨page', hp', hlookup⟩ := h
  rw [hp] at hp'
  cases hp'
  by_contra hsize
  rw [InternalPage.lookup, if_pos (by omega)] at hlookup
  cases hlookup

theorem reach_of_turns (h : Relation.ReflTransGen (Turns cmp pages k) p q) :
    Relation.ReflTransGen (IsChild pages) p q := by
  induction h with
  | refl => exact .refl
  | tail _ hturn ih => exact ih.tail hturn.isChild

/-- There is one way to a page, and a search that ends there takes it. -/
theorem IsTree.turns (h : IsTree pages n root) (hp : Relation.ReflTransGen (IsChild pages) root p)
    (hc : IsChild pages p c) (hq : Relation.ReflTransGen (IsChild pages) c q)
    (hsearch : Relation.ReflTransGen (Turns cmp pages k) root q) : Turns cmp pages k p c := by
  induction hq with
  | refl =>
      obtain heq | ⟨b, hb, hturn⟩ := hsearch.cases_tail
      · exact absurd (heq ▸ hc) (h.root_top p hp)
      · rwa [h.parent_unique p b c hp (reach_of_turns hb) hc hturn.isChild]
  | @tail y q hy hyq ih =>
      have hreach := (hp.tail hc).trans hy
      obtain heq | ⟨b, hb, hturn⟩ := hsearch.cases_tail
      · exact absurd (heq ▸ hyq) (h.root_top y hreach)
      · rw [← h.parent_unique y b q hreach (reach_of_turns hb) hyq hturn.isChild] at hb
        exact ih hb

theorem keysBelow_sublist (hfin : Finite pages n p)
    (hq : Relation.ReflTransGen (IsChild pages) p q) :
    (keysBelow pages n q).Sublist (keysBelow pages n p) := by
  induction hq with
  | refl => exact .refl _
  | tail hy hyq ih =>
      refine .trans ?_ ih
      have hfiny := hfin.reach hy
      obtain ⟨page, hpage, hmem⟩ := hyq
      obtain ⟨e, he, rfl⟩ := List.mem_map.mp hmem
      rw [keysBelow_internal hfiny hpage]
      exact List.sublist_flatten_of_mem (List.mem_map_of_mem he)

theorem Searchable.turns (h : Searchable cmp pages n root) (htree : IsTree pages n root)
    (hp : Relation.ReflTransGen (IsChild pages) root p) (hc : IsChild pages p c)
    (hk : k ∈ keysBelow pages n c) : Turns cmp pages k p c := by
  have hfin := htree.finite.reach (hp.tail hc)
  obtain ⟨d, q, page, e, hq, hpage, he, rfl⟩ := (mem_keysBelow hfin).mp hk
  obtain ⟨d', hleaf⟩ := LeafAt.exists_of_reach (hp.tail hc) hq
  exact htree.turns hp hc hq.reach (h.found d' q page hleaf hpage e he)

/-- Under an only child a search cannot find anything. -/
theorem Searchable.single (h : Searchable cmp pages n root) (htree : IsTree pages n root)
    (hp : Relation.ReflTransGen (IsChild pages) root p) {page : InternalPage K}
    (hpage : pages p = some (.internal page)) (hsize : page.array.length ≤ 1) :
    keysBelow pages n p = [] := by
  refine List.eq_nil_iff_forall_not_mem.mpr fun k hk => ?_
  rw [keysBelow_internal (htree.finite.reach hp) hpage, List.mem_flatMap] at hk
  obtain ⟨e, he, hk⟩ := hk
  have hturn := h.turns htree hp ⟨page, hpage, List.mem_map_of_mem he⟩ hk
  have := hturn.size hpage
  omega

/-- The checker has accepted every page below which there are keys. -/
theorem Searchable.corr (h : Searchable cmp pages n root) (htree : IsTree pages n root) {m : Nat}
    {low high : K} (hcorr : PageCorr cmp pages m root low high)
    (hp : Relation.ReflTransGen (IsChild pages) root p) :
    keysBelow pages n p = [] ∨ ∃ m low high, PageCorr cmp pages m p low high := by
  induction hp with
  | refl => exact Or.inr ⟨m, low, high, hcorr⟩
  | @tail y c hy hyc ih =>
      have hnil (hnil : keysBelow pages n y = []) : keysBelow pages n c = [] := by
        have hsub := keysBelow_sublist (htree.finite.reach hy) (.single hyc)
        rw [hnil] at hsub
        exact List.eq_nil_of_sublist_nil hsub
      obtain hnone | ⟨m', low', high', hcorr'⟩ := ih
      · exact Or.inl (hnil hnone)
      · obtain ⟨page, hpage, hmem⟩ := hyc
        by_cases hsize : 2 ≤ page.array.length
        · cases m' with
          | zero => exact hcorr'.elim
          | succ m' =>
              simp only [PageCorr, hpage] at hcorr'
              obtain ⟨e, he, rfl⟩ := List.mem_map.mp hmem
              exact Or.inr ⟨m', hcorr'.corr hsize he⟩
        · exact Or.inl (hnil (h.single htree hy hpage (by omega)))

theorem KeysWithin.reach (h : KeysWithin pages S root)
    (hp : Relation.ReflTransGen (IsChild pages) root p) : KeysWithin pages S p where
  leaf q page hq := h.leaf q page (hp.trans hq)
  separator q page hq := h.separator q page (hp.trans hq)

/-- A key below a child stands between the separators beside its slot. -/
theorem Searchable.isSlot (h : Searchable cmp pages n root) (hcmp : StrictTotalOrderOn cmp S)
    (htree : IsTree pages n root) (hkeys : KeysWithin pages S root) {m : Nat} {low high : K}
    (hcorr : PageCorr cmp pages m root low high)
    (hp : Relation.ReflTransGen (IsChild pages) root p) {page : InternalPage K}
    (hpage : pages p = some (.internal page)) {i : Nat} {e : K × PageId}
    (he : page.array[i]? = some e) (hk : k ∈ keysBelow pages n e.2) : page.IsSlot cmp k i := by
  have hc := isChild_of_get hpage he
  have hfin := htree.finite.reach hp
  have hkp := (keysBelow_sublist hfin (.single hc)).subset hk
  have hkS := (hkeys.reach hp).mem hfin k hkp
  obtain ⟨page', hpage', hlookup⟩ := h.turns htree hp hc hk
  rw [hpage] at hpage'
  cases hpage'
  obtain hnone | ⟨m', low', high', hcorr'⟩ := h.corr htree hcorr hp
  · rw [hnone] at hkp
    cases hkp
  · cases m' with
    | zero => exact hcorr'.elim
    | succ m' =>
        simp only [PageCorr, hpage] at hcorr'
        obtain ⟨B, _, _, rank, hr⟩ := hcmp.exists_ranked
        have hone := (hkeys.reach hp).sortedFromOne hr hpage hcorr'
        obtain ⟨j, f, hslot, hf, hchild⟩ := hone.isSlot_of_lookup hcmp hkS hlookup
        -- no other slot has this child
        have hnodup := htree.slot_unique p page hp hpage
        have heq : j = i := by
          obtain ⟨hj, rfl⟩ := List.getElem?_eq_some_iff.mp hf
          obtain ⟨hi, rfl⟩ := List.getElem?_eq_some_iff.mp he
          have hinj := @List.Nodup.getElem_inj_iff _ _ hnodup j (by simpa using hj) i
            (by simpa using hi)
          exact hinj.mp (by simpa using hchild)
        exact heq ▸ hslot

/-- In a searchable tree, what the checker does not look at is in order. -/
theorem Searchable.restInOrder (h : Searchable cmp pages n root)
    (hcmp : StrictTotalOrderOn cmp S) (htree : IsTree pages n root)
    (hkeys : KeysWithin pages S root) {m : Nat} {low high : K}
    (hcorr : PageCorr cmp pages m root low high) : RestInOrder cmp pages n root where
  distinct p page hp hpage := by
    have hsub := keysBelow_sublist htree.finite hp
    rw [keysBelow_leaf (htree.finite.reach hp) hpage] at hsub
    have hpairs := List.pairwise_map.mp (h.increasing.sublist hsub)
    exact hpairs.isChain.imp fun a b hlt => hlt.ne
  single p page hp hpage hsize := h.single htree hp hpage hsize
  before p page i e f hp hpage he hf _ k hk := by
    have hslot := h.isSlot hcmp htree hkeys hcorr hp hpage he (List.mem_of_getLast? hk)
    obtain hlast | ⟨f', hf', hlt⟩ := hslot.key_lt
    · obtain ⟨hlen, -⟩ := List.getElem?_eq_some_iff.mp hf
      omega
    · rw [hf] at hf'
      cases hf'
      exact hlt
  behind p page i e f hp hpage _ hf _ k hk := by
    have hslot := h.isSlot hcmp htree hkeys hcorr hp hpage hf (List.mem_of_head? hk)
    obtain hzero | ⟨f', hf', hle⟩ := hslot.le_key
    · omega
    · rw [hf] at hf'
      cases hf'
      exact hle

/-- With the rest in order, an accepted tree is searchable. -/
theorem RestInOrder.searchable (h : RestInOrder cmp pages n root)
    (hcmp : StrictTotalOrderOn cmp S) (hfin : Finite pages n root) (hkeys : KeysWithin pages S root)
    {m : Nat} {low high : K} (hcorr : PageCorr cmp pages m root low high)
    (hdepth : ∃ d, ∀ d' q, LeafAt pages root d' q → d' = d) : Searchable cmp pages n root := by
  obtain ⟨B, _, _, rank, hr⟩ := hcmp.exists_ranked
  obtain ⟨hsorted, hfound⟩ := hcorr.searchable hcmp hr hfin hkeys h
  have hmem := hkeys.mem hfin
  refine ⟨hdepth, hsorted.imp_of_mem fun {a b} ha hb hlt => ?_, hfound⟩
  exact (hr.neg_iff (hmem a ha) (hmem b hb)).mpr hlt

theorem eq_of_reach_none (hnone : pages root = none)
    (hp : Relation.ReflTransGen (IsChild pages) root p) : p = root := by
  obtain rfl | ⟨c, ⟨page, hpage, -⟩, -⟩ := hp.cases_head
  · rfl
  · rw [hnone] at hpage
    cases hpage

/-- Where there is no page, there is nothing to find, and nothing to
look at. -/
theorem searchable_iff_of_none (hnone : pages root = none) :
    Searchable cmp pages n root ↔ RestInOrder cmp pages n root := by
  have hno {page : TreePage K V} (p : PageId) (hp : Relation.ReflTransGen (IsChild pages) root p)
      (hpage : pages p = some page) : False := by
    rw [eq_of_reach_none hnone hp, hnone] at hpage
    cases hpage
  have hleaf (d : Nat) (q : PageId) (hq : LeafAt pages root d q) : False := by
    cases hq with
    | leaf hp => exact hno root .refl hp
    | child hc _ =>
        obtain ⟨page, hp, -⟩ := hc
        exact hno root .refl hp
  constructor
  · intro _
    exact ⟨fun p _ hp hpage => (hno p hp hpage).elim, fun p _ hp hpage => (hno p hp hpage).elim,
      fun p _ _ _ _ hp hpage => (hno p hp hpage).elim,
      fun p _ _ _ _ hp hpage => (hno p hp hpage).elim⟩
  · intro _
    refine ⟨⟨0, fun d q hq => (hleaf d q hq).elim⟩, ?_, fun d q _ hq => (hleaf d q hq).elim⟩
    rw [keysBelow_none hnone]
    exact List.Pairwise.nil

end Searchable

/-- Among the finite trees that the checker accepts, those that can be
searched are the ones in which what it does not look at is in order. -/
theorem checker_sound_iff [Inhabited K] {cmp : K → K → Int} {S : Set K}
    (hcmp : StrictTotalOrderOn cmp S) {n : Nat} {t : BPlusTree K V}
    (hinvalid : t.pages invalidPageId = none)
    (htree : t.rootPageId = invalidPageId ∨ IsTree t.pages n t.rootPageId)
    (hkeys : KeysWithin t.pages S t.rootPageId) (haccepted : Accepted cmp n t) :
    Searchable cmp t.pages n t.rootPageId ↔ RestInOrder cmp t.pages n t.rootPageId := by
  by_cases hroot : t.rootPageId = invalidPageId
  · rw [hroot]
    exact searchable_iff_of_none hinvalid
  · have htree := htree.resolve_left hroot
    obtain ⟨hpage, hbalanced⟩ := haccepted
    obtain ⟨r, -, -, hr, -, hcorr⟩ :=
      wp_and_wlp hpage (findsOut_isPageCorr hroot n t.rootPageId default t ⟨rfl, rfl⟩)
    have hcorr := hcorr hr
    obtain ⟨height, -, -, hpos, -, -, hheight⟩ :=
      wp_and_wlp hbalanced (findsHeight_isBalanced hroot n t.rootPageId t ⟨rfl, rfl⟩)
    constructor
    · intro hsearch
      exact hsearch.restInOrder hcmp htree hkeys hcorr
    · intro hrest
      refine hrest.searchable hcmp htree.finite hkeys hcorr ⟨height.toNat, fun d q hq => ?_⟩
      have hd := hheight hpos d q hq
      omega

/-! ### Trees given page by page -/

section Listed

/-- The tree with these pages. -/
def listed (root : PageId) (l : List (TreePage Int Nat)) : BPlusTree Int Nat :=
  { (empty HeaderPage.init 1 : BPlusTree Int Nat) with
    rootPageId := root
    pages := fun id => l.find? fun page => page.getPageId = id }

def children : TreePage K V → List PageId
  | .leaf _ => []
  | .internal page => page.array.map Prod.snd

variable {root : PageId} {l : List (TreePage Int Nat)} {n : Nat}

theorem mem_of_listed {p : PageId} {page : TreePage Int Nat}
    (h : (listed root l).pages p = some page) : page ∈ l ∧ page.getPageId = p := by
  have hfind : l.find? (fun page => page.getPageId = p) = some page := h
  have hid := List.find?_some hfind
  exact ⟨List.mem_of_find?_eq_some hfind, by simpa using hid⟩

theorem mem_of_isChild {p c : PageId} (h : IsChild (listed root l).pages p c) :
    ∃ page ∈ l, page.getPageId = p ∧ c ∈ children page := by
  obtain ⟨page, hp, hc⟩ := h
  obtain ⟨hmem, hid⟩ := mem_of_listed hp
  exact ⟨_, hmem, hid, hc⟩

theorem isTree_listed (hfin : Finite (listed root l).pages n root)
    (hroot : ∀ page ∈ l, root ∉ children page)
    (hparent : ∀ page ∈ l, ∀ page' ∈ l, ∀ c ∈ children page, c ∈ children page' →
      page.getPageId = page'.getPageId)
    (hslots : ∀ page ∈ l, (children page).Nodup) : IsTree (listed root l).pages n root where
  finite := hfin
  root_top p _ hc := by
    obtain ⟨page, hmem, -, hc⟩ := mem_of_isChild hc
    exact hroot page hmem hc
  parent_unique p p' c _ _ hc hc' := by
    obtain ⟨page, hmem, hid, hc⟩ := mem_of_isChild hc
    obtain ⟨page', hmem', hid', hc'⟩ := mem_of_isChild hc'
    rw [← hid, ← hid']
    exact hparent page hmem page' hmem' c hc hc'
  slot_unique p page _ hp := hslots _ (mem_of_listed hp).1

/-- The least sizes are those of pages with keys of 64 bytes. -/
def twoLeaves : List (TreePage Int Nat) :=
  [.internal ⟨⟨1, -1, 6⟩, [(0, 2), (3, 3)]⟩,
    .leaf ⟨⟨2, 1, 5⟩, 3, [(1, 0), (2, 0)]⟩, .leaf ⟨⟨3, 1, 5⟩, -1, [(3, 0), (4, 0)]⟩]

theorem checker_sound_iff_two :
    Searchable (fun a b : Int => a - b) (listed 1 twoLeaves).pages 2 1 := by
  have hfin : Finite (listed 1 twoLeaves).pages 2 1 := by decide
  have htree := isTree_listed hfin (by decide) (by decide) (by decide)
  have hacc : Accepted (fun a b => a - b) 2 (listed 1 twoLeaves) :=
    ⟨⟨_, _, rfl, rfl⟩, ⟨_, _, rfl, by decide⟩⟩
  refine (checker_sound_iff strictTotalOrderOn_sub (n := 2) (t := listed 1 twoLeaves) rfl
    (Or.inr htree) ⟨fun _ _ _ _ _ _ => Set.mem_univ _, fun _ _ _ _ _ _ => Set.mem_univ _⟩
    hacc).mpr ?_
  have hpages (p : PageId) (page : TreePage Int Nat)
      (hp : (listed 1 twoLeaves).pages p = some page) := (mem_of_listed hp).1
  -- the one internal page has two children, and they are leaves
  have hinternal (p : PageId) (page : InternalPage Int)
      (hp : (listed 1 twoLeaves).pages p = some (.internal page)) :
      page.array = [(0, 2), (3, 3)] := by
    have hmem := hpages p _ hp
    simp only [twoLeaves, List.mem_cons, TreePage.internal.injEq, reduceCtorEq, List.not_mem_nil,
      or_false] at hmem
    rw [hmem]
  have hleaf (i : Nat) (e : Int × PageId) (he : [((0 : Int), (2 : PageId)), (3, 3)][i]? = some e) :
      ¬∃ child, (listed 1 twoLeaves).pages e.2 = some (.internal child) := by
    have hmem := List.mem_of_getElem? he
    simp only [List.mem_cons, List.not_mem_nil, or_false] at hmem
    rintro ⟨child, hchild⟩
    obtain rfl | rfl := hmem <;> cases hchild
  refine ⟨fun p page _ hp => ?_, fun p page _ hp hsize => ?_,
    fun p page i e f _ hp he _ hchild => ?_, fun p page i e f _ hp _ hf hchild => ?_⟩
  · have hmem := hpages p _ hp
    simp only [twoLeaves, List.mem_cons, TreePage.leaf.injEq, reduceCtorEq, List.not_mem_nil,
      or_false, false_or] at hmem
    obtain rfl | rfl := hmem <;> decide
  · rw [hinternal p page hp] at hsize
    cases hsize with
    | step h => cases h
  · rw [hinternal p page hp] at he
    exact absurd hchild (hleaf i e he)
  · rw [hinternal p page hp] at hf
    exact absurd hchild (hleaf (i + 1) f hf)

/-- A tree of three levels. The largest key, 100, is in the left half. -/
def misplaced : List (TreePage Int Nat) :=
  [.internal ⟨⟨1, -1, 6⟩, [(0, 2), (7, 3)]⟩,
    .internal ⟨⟨2, 1, 6⟩, [(0, 11), (3, 12), (5, 13)]⟩,
    .internal ⟨⟨3, 1, 6⟩, [(7, 14), (9, 15), (11, 16)]⟩,
    .leaf ⟨⟨11, 2, 5⟩, 12, [(1, 0), (2, 0)]⟩, .leaf ⟨⟨12, 2, 5⟩, 13, [(3, 0), (4, 0)]⟩,
    .leaf ⟨⟨13, 2, 5⟩, 14, [(5, 0), (100, 0)]⟩, .leaf ⟨⟨14, 3, 5⟩, 15, [(7, 0), (8, 0)]⟩,
    .leaf ⟨⟨15, 3, 5⟩, 16, [(9, 0), (10, 0)]⟩, .leaf ⟨⟨16, 3, 5⟩, -1, [(11, 0), (12, 0)]⟩]

theorem exists_accepted_not_searchable : ∃ t : BPlusTree Int Nat,
    IsTree t.pages 3 t.rootPageId ∧ Accepted (fun a b => a - b) 3 t ∧
      ¬(keysBelow t.pages 3 t.rootPageId).Pairwise (fun a b => a - b < 0) ∧
      ¬Searchable (fun a b => a - b) t.pages 3 t.rootPageId := by
  have hfin : Finite (listed 1 misplaced).pages 3 1 := by decide
  have hkeys : ¬(keysBelow (listed 1 misplaced).pages 3 1).Pairwise (fun a b => a - b < 0) := by
    decide
  exact ⟨listed 1 misplaced, isTree_listed hfin (by decide) (by decide) (by decide),
    ⟨⟨_, _, rfl, rfl⟩, ⟨_, _, rfl, by decide⟩⟩, hkeys, fun h => hkeys h.increasing⟩

end Listed

end BPlusTree

end ScuDb
