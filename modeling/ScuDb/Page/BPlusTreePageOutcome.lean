import Mathlib.Tactic.Basic
import ScuDb.Foundations.Program
import ScuDb.Page.BPlusTreePage

/-!
What the member functions of the tree pages have done when they return.

The lemmas of `BPlusTreePageLemmas` say when a function succeeds. The
ones here ask for nothing: whatever the page looked like, if the function
has returned, then only the entries have changed, and this is how.
-/

namespace ScuDb

open Foundations

variable {K V : Type}

/-! ### Leaf pages -/

namespace LeafPage

variable {page recipient page' recipient' : LeafPage K V}

theorem store_ok {l : List (K × V)} (h : page.store l = .ok page') :
    page' = { page with array := l } := by
  unfold store at h
  split at h
  · cases h
    rfl
  · cases h

theorem insert_ok {cmp : K → K → Int} {key : K} {value : V}
    (h : page.insert cmp key value = .ok page') :
    ∃ l, page' = { page with array := l } ∧ l.length = page.array.length + 1 := by
  refine ⟨_, store_ok h, ?_⟩
  rw [List.length_append, List.length_cons, ← Nat.add_assoc, ← List.length_append,
    List.take_append_drop]

theorem removeAndDeleteRecord_outcome (cmp : K → K → Int) (page : LeafPage K V) (key : K) :
    ∃ l, page.removeAndDeleteRecord cmp key = { page with array := l } ∧
      page.array.length ≤ l.length + 1 := by
  unfold removeAndDeleteRecord
  dsimp only
  split
  · split
    · exact ⟨page.array, rfl, Nat.le_succ _⟩
    · refine ⟨_, rfl, ?_⟩
      simp only [List.length_append, List.length_take, List.length_drop]
      omega
  · exact ⟨page.array, rfl, Nat.le_succ _⟩

theorem moveHalfTo_ok (h : page.moveHalfTo recipient = .ok (page', recipient')) :
    ∃ l l', page' = { page with array := l, nextPageId := recipient.pageId } ∧
      recipient' = { recipient with array := l', nextPageId := page.nextPageId } := by
  unfold moveHalfTo at h
  simp only at h
  split at h
  · cases h
  · obtain ⟨r, hstore, h⟩ := except_bind_ok h
    cases store_ok hstore
    cases h
    exact ⟨_, _, rfl, rfl⟩

theorem moveAllTo_ok (h : page.moveAllTo recipient = .ok (page', recipient')) :
    page' = { page with array := [] } ∧ recipient' = { recipient with
      array := recipient.array ++ page.array, nextPageId := page.nextPageId } := by
  obtain ⟨r, hstore, h⟩ := except_bind_ok h
  cases store_ok hstore
  cases h
  exact ⟨rfl, rfl⟩

theorem moveFirstToEndOf_ok (h : page.moveFirstToEndOf recipient = .ok (page', recipient')) :
    ∃ l l', page' = { page with array := l } ∧ recipient' = { recipient with array := l' } := by
  obtain ⟨e, -, h⟩ := except_bind_ok h
  obtain ⟨r, hstore, h⟩ := except_bind_ok h
  cases store_ok hstore
  cases h
  exact ⟨_, _, rfl, rfl⟩

theorem moveLastToFrontOf_ok (h : page.moveLastToFrontOf recipient = .ok (page', recipient')) :
    ∃ l l', page' = { page with array := l } ∧ recipient' = { recipient with array := l' } := by
  obtain ⟨e, -, h⟩ := except_bind_ok h
  obtain ⟨r, hstore, h⟩ := except_bind_ok h
  cases store_ok hstore
  cases h
  exact ⟨_, _, rfl, rfl⟩

end LeafPage

/-! ### Internal pages -/

namespace InternalPage

variable {page recipient page' recipient' : InternalPage K} {index : Int}

theorem store_ok {l : List (K × PageId)} (h : page.store l = .ok page') :
    page' = { page with array := l } := by
  unfold store at h
  split at h
  · cases h
    rfl
  · cases h

theorem populateNewRoot_ok [Inhabited K] {oldValue newValue : PageId} {key : K}
    (h : page.populateNewRoot oldValue key newValue = .ok page') :
    page' = { page with array := [(default, oldValue), (key, newValue)] } :=
  store_ok h

theorem keyAt_ok {key : K} (h : page.keyAt index = .ok key) : ∃ e ∈ page.array, e.1 = key := by
  unfold keyAt at h
  split at h
  · cases h
  · split at h
    · rename_i e he
      cases h
      exact ⟨e, List.mem_of_getElem? he, rfl⟩
    · cases h

theorem valueAt_ok {id : PageId} (h : page.valueAt index = .ok id) :
    id ∈ page.array.map Prod.snd := by
  unfold valueAt at h
  split at h
  · cases h
  · split at h
    · rename_i e he
      cases h
      exact List.mem_map_of_mem (List.mem_of_getElem? he)
    · cases h

theorem lookup_ok {cmp : K → K → Int} {key : K} {id : PageId}
    (h : page.lookup cmp key = .ok id) : id ∈ page.array.map Prod.snd := by
  unfold lookup at h
  split at h
  · cases h
  · simp only at h
    split at h
    · rename_i e he
      cases h
      exact List.mem_map_of_mem (List.mem_of_getElem? he)
    · cases h

theorem setKeyAt_ok {key : K} (h : page.setKeyAt index key = .ok page') :
    ∃ l, page' = { page with array := l } ∧ l.map Prod.snd = page.array.map Prod.snd := by
  unfold setKeyAt at h
  split at h
  · cases h
  · split at h
    · rename_i e he
      cases h
      refine ⟨_, rfl, ?_⟩
      ext i : 1
      by_cases hi : i = index.toNat
      · subst hi
        obtain ⟨hlt, heq⟩ := List.getElem?_eq_some_iff.mp he
        simp [hlt, heq]
      · simp [List.getElem?_set_ne (Ne.symm hi)]
    · cases h

theorem insertNodeAfter_ok {oldValue newValue : PageId} {key : K}
    (h : page.insertNodeAfter oldValue key newValue = .ok page') :
    ∃ l, page' = { page with array := l } ∧ l.length = page.array.length + 1 ∧
      ∀ id ∈ l.map Prod.snd, id = newValue ∨ id ∈ page.array.map Prod.snd := by
  unfold insertNodeAfter at h
  simp only at h
  split at h
  · cases h
  · refine ⟨_, store_ok h, ?_, ?_⟩
    · rw [List.length_append, List.length_cons, ← Nat.add_assoc, ← List.length_append,
        List.take_append_drop]
    · intro id hid
      simp only [List.map_append, List.map_cons, List.mem_append, List.mem_cons] at hid
      rcases hid with hid | rfl | hid
      · exact Or.inr (List.map_subset _ (List.take_subset _ _) hid)
      · exact Or.inl rfl
      · exact Or.inr (List.map_subset _ (List.drop_subset _ _) hid)

theorem moveHalfTo_ok (h : page.moveHalfTo recipient = .ok (page', recipient')) :
    ∃ l l', page' = { page with array := l } ∧ recipient' = { recipient with array := l' } ∧
      page.array = l ++ l' := by
  unfold moveHalfTo at h
  simp only at h
  split at h
  · cases h
  · obtain ⟨r, hstore, h⟩ := except_bind_ok h
    cases store_ok hstore
    cases h
    exact ⟨_, _, rfl, rfl, (List.take_append_drop _ _).symm⟩

/-- The entries of the second page are the upper half of the first. -/
theorem moveHalfTo_children (h : page.moveHalfTo recipient = .ok (page', recipient')) :
    page.array.length = page.maxSize + 1 ∧
      recipient'.array = page.array.drop (page.array.length / 2) := by
  simp only [moveHalfTo] at h
  split at h
  case isTrue => cases h
  case isFalse htotal =>
    rw [not_not] at htotal
    obtain ⟨r, hstore, h⟩ := except_bind_ok h
    cases store_ok hstore
    cases h
    rw [htotal]
    exact ⟨rfl, rfl⟩

theorem remove_ok (h : page.remove index = .ok page') :
    ∃ l, page' = { page with array := l } ∧ l.length + 1 = page.array.length ∧
      l.map Prod.snd ⊆ page.array.map Prod.snd := by
  unfold remove at h
  split at h
  · cases h
  · cases h
    refine ⟨_, rfl, ?_, ?_⟩
    · simp only [List.length_append, List.length_take, List.length_drop]
      omega
    · exact List.map_subset _ (List.append_subset.mpr ⟨List.take_subset _ _, List.drop_subset _ _⟩)

theorem removeAndReturnOnlyChild_ok {id : PageId}
    (h : page.removeAndReturnOnlyChild = .ok (id, page')) :
    page' = { page with array := [] } ∧ id ∈ page.array.map Prod.snd := by
  obtain ⟨child, hchild, h⟩ := except_bind_ok h
  simp only at h
  split at h
  · cases h
  · cases h
    exact ⟨rfl, valueAt_ok hchild⟩

theorem moveAllTo_ok {separator : K}
    (h : page.moveAllTo recipient separator = .ok (page', recipient')) :
    page' = { page with array := [] } ∧ ∃ l, recipient' = { recipient with
      array := recipient.array ++ l } ∧ l.map Prod.snd = page.array.map Prod.snd := by
  obtain ⟨p, hset, h⟩ := except_bind_ok h
  obtain ⟨r, hstore, h⟩ := except_bind_ok h
  obtain ⟨l, rfl, hl⟩ := setKeyAt_ok hset
  cases store_ok hstore
  simp only at h
  split at h
  · cases h
  · cases h
    exact ⟨rfl, l, rfl, hl⟩

theorem copyLastFrom_ok {e : K × PageId} (h : page.copyLastFrom e = .ok page') :
    page' = { page with array := page.array ++ [e] } := by
  unfold copyLastFrom at h
  split at h
  · cases h
  · exact store_ok h

theorem copyFirstFrom_ok {e : K × PageId} (h : page.copyFirstFrom e = .ok page') :
    page' = { page with array := e :: page.array } := by
  unfold copyFirstFrom at h
  split at h
  · cases h
  · exact store_ok h

theorem moveFirstToEndOf_ok (h : page.moveFirstToEndOf recipient = .ok (page', recipient')) :
    page' = { page with array := page.array.drop 1 } ∧ ∃ e, recipient' = { recipient with
      array := recipient.array ++ [e] } ∧ e.2 ∈ page.array.map Prod.snd := by
  obtain ⟨key, -, h⟩ := except_bind_ok h
  obtain ⟨value, hvalue, h⟩ := except_bind_ok h
  obtain ⟨r, hcopy, h⟩ := except_bind_ok h
  cases copyLastFrom_ok hcopy
  cases h
  exact ⟨rfl, (key, value), rfl, valueAt_ok hvalue⟩

theorem moveLastToFrontOf_ok (h : page.moveLastToFrontOf recipient = .ok (page', recipient')) :
    page' = { page with array := page.array.take (page.array.length - 1) } ∧
      ∃ e, recipient' = { recipient with array := e :: recipient.array } ∧
        e.2 ∈ page.array.map Prod.snd := by
  obtain ⟨key, -, h⟩ := except_bind_ok h
  obtain ⟨value, hvalue, h⟩ := except_bind_ok h
  obtain ⟨r, hcopy, h⟩ := except_bind_ok h
  cases copyFirstFrom_ok hcopy
  cases h
  exact ⟨rfl, (key, value), rfl, valueAt_ok hvalue⟩

end InternalPage

end ScuDb
