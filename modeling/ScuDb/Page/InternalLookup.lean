import ScuDb.Page.BPlusTreePage
import ScuDb.Foundations.Comparator

/-!
The binary search of an internal page, read by read.

`InternalPage.lookup` is `bisect` under the code's test, which cannot say
which keys it looks at. `lookupLoop` is the loop as it is written, on the
closed interval `[begin, end]` of ints; it fails where it would read past
the page, and it returns the slots it has read. It ends on every page,
sorted or not.
-/

namespace ScuDb

open Foundations

namespace InternalPage

variable {K : Type} (cmp : K → K → Int) (page : InternalPage K) (key : K)

/-- `array[i]` -/
def slot (i : Int) : Except Fault (K × PageId) :=
  if i < 0 then .error .outOfBounds
  else match page.array[i.toNat]? with
    | some e => .ok e
    | none => .error .outOfBounds

/-- The loop of `Lookup`: the `begin` it ends with, and the slots whose keys
it has compared. -/
def lookupLoop (first last : Int) : Except Fault (Int × List Int) :=
  if first ≤ last then do
    let mid := (last - first) / 2 + first
    let e ← page.slot mid
    let (first, reads) ←
      if cmp e.1 key ≤ 0 then lookupLoop (mid + 1) last else lookupLoop first (mid - 1)
    pure (first, mid :: reads)
  else pure (first, [])
termination_by (last + 1 - first).toNat

/-- `Lookup`, with the slots whose keys it has compared. -/
def lookupReads : Except Fault (PageId × List Int) :=
  if ¬page.array.length > 1 then .error .assertFailed
  else do
    let (first, reads) ← lookupLoop cmp page key 1 (page.array.length - 1)
    let e ← page.slot (first - 1)
    pure (e.2, reads)

variable {cmp} {page} {key}

theorem slot_ok {i : Nat} (h : i < page.array.length) : page.slot i = .ok page.array[i] := by
  simp [slot, h]

/-- The loop is the bisection of `[lo, hi)`, and it reads nowhere else. -/
theorem lookupLoop_eq {fuel lo hi : Nat} (hfuel : hi - lo ≤ fuel) (hle : lo ≤ hi)
    (hhi : hi ≤ page.array.length) :
    ∃ reads, lookupLoop cmp page key lo (hi - 1) =
        .ok ((bisect (holdsAt (fun e => decide (¬cmp e.1 key ≤ 0)) page.array) fuel lo hi : Int),
          reads) ∧
      ∀ j ∈ reads, (lo : Int) ≤ j ∧ j < hi := by
  induction fuel generalizing lo hi with
  | zero =>
      have hend : ¬(lo : Int) ≤ hi - 1 := by omega
      rw [lookupLoop, if_neg hend]
      exact ⟨[], rfl, by simp⟩
  | succ fuel ih =>
      rw [lookupLoop, bisect]
      by_cases hlt : lo < hi
      · -- the middle of the closed interval is the middle of the half-open one
        have hmid : ((hi : Int) - 1 - lo) / 2 + lo = ((hi - 1 - lo) / 2 + lo : Nat) := by omega
        have hlo : lo ≤ (hi - 1 - lo) / 2 + lo := Nat.le_add_left ..
        have hmidhi : (hi - 1 - lo) / 2 + lo < hi := by omega
        rw [if_pos (by omega), if_pos hlt, hmid]
        generalize (hi - 1 - lo) / 2 + lo = mid at hlo hmidhi
        have hmidlen : mid < page.array.length := hmidhi.trans_le hhi
        simp only [slot_ok hmidlen, holdsAt, List.getElem?_eq_getElem hmidlen, decide_eq_true_eq,
          Bind.bind, Except.bind]
        by_cases hcmp : cmp page.array[mid].1 key ≤ 0
        · have hnext : ((mid + 1 : Nat) : Int) = mid + 1 := rfl
          obtain ⟨reads, hloop, hreads⟩ : ∃ reads, _ ∧ _ := ih (by omega) hmidhi hhi
          rw [hnext] at hloop hreads
          rw [if_pos hcmp, if_neg (not_not.mpr hcmp), hloop]
          refine ⟨mid :: reads, rfl, fun j hj => ?_⟩
          rcases List.mem_cons.mp hj with rfl | hj
          · omega
          · have := hreads j hj
            omega
        · obtain ⟨reads, hloop, hreads⟩ : ∃ reads, _ ∧ _ := ih (by omega) hlo hmidlen.le
          rw [if_neg hcmp, if_pos hcmp, hloop]
          refine ⟨mid :: reads, rfl, fun j hj => ?_⟩
          rcases List.mem_cons.mp hj with rfl | hj
          · omega
          · have := hreads j hj
            omega
      · have hend : ¬(lo : Int) ≤ hi - 1 := by omega
        rw [if_neg hend, if_neg hlt]
        exact ⟨[], rfl, by simp⟩

/-- The slot for `key`: its own key, unless it is slot 0, is not above
`key`, and the key of the next slot, if there is one, is. -/
structure IsSlot (cmp : K → K → Int) (page : InternalPage K) (key : K) (i : Nat) : Prop where
  lt : i < page.array.length
  le_key : i = 0 ∨ ∃ e, page.array[i]? = some e ∧ cmp e.1 key ≤ 0
  key_lt : i = page.array.length - 1 ∨ ∃ e, page.array[i + 1]? = some e ∧ cmp key e.1 < 0

section Sorted

variable {S : Set K}

/-- The keys from slot 1 on are keys of `S` and strictly increase. -/
structure SortedFromOne (cmp : K → K → Int) (S : Set K) (page : InternalPage K) : Prop where
  mem : ∀ e ∈ page.array.tail, e.1 ∈ S
  lt : page.array.tail.Pairwise fun a b => cmp a.1 b.1 < 0

theorem SortedFromOne.mem_of_get (h : SortedFromOne cmp S page) {i : Nat} {e : K × PageId}
    (hi : 1 ≤ i) (he : page.array[i]? = some e) : e.1 ∈ S := by
  refine h.mem e (List.mem_of_getElem? (i := i - 1) ?_)
  rw [List.getElem?_tail, Nat.sub_add_cancel hi, he]

theorem SortedFromOne.lt_of_get (h : SortedFromOne cmp S page) {i j : Nat} {e f : K × PageId}
    (hi : 1 ≤ i) (hij : i < j) (he : page.array[i]? = some e) (hf : page.array[j]? = some f) :
    cmp e.1 f.1 < 0 := by
  have he' : page.array.tail[i - 1]? = some e := by
    rw [List.getElem?_tail, Nat.sub_add_cancel hi, he]
  have hf' : page.array.tail[j - 1]? = some f := by
    rw [List.getElem?_tail, Nat.sub_add_cancel (hi.trans hij.le), hf]
  obtain ⟨hil, rfl⟩ := List.getElem?_eq_some_iff.mp he'
  obtain ⟨hjl, rfl⟩ := List.getElem?_eq_some_iff.mp hf'
  exact List.pairwise_iff_getElem.mp h.lt (i - 1) (j - 1) hil hjl (by omega)

/-- Of two slots for the key, neither is before the other. -/
theorem SortedFromOne.not_lt_of_isSlot (h : SortedFromOne cmp S page)
    (hcmp : StrictTotalOrderOn cmp S) (hkey : key ∈ S) {i j : Nat} (hi : IsSlot cmp page key i)
    (hj : IsSlot cmp page key j) : ¬i < j := by
  intro hij
  have hjlt := hj.lt
  obtain hlast | ⟨e, he, hkeye⟩ := hi.key_lt
  · omega
  obtain hzero | ⟨f, hf, hfkey⟩ := hj.le_key
  · omega
  -- `key < K(i + 1) ≤ K(j) ≤ key`
  have heS := h.mem_of_get (Nat.le_add_left 1 i) he
  have hfS := h.mem_of_get (Nat.one_le_of_lt hij) hf
  have hkeyf : cmp key f.1 < 0 := by
    obtain hlt | heq := Nat.lt_or_eq_of_le (Nat.succ_le_of_lt hij)
    · exact hcmp.trans _ hkey _ heS _ hfS hkeye
        (h.lt_of_get (Nat.le_add_left 1 i) hlt he hf)
    · rw [← heq, he, Option.some_inj] at hf
      exact hf ▸ hkeye
  have hpos := (hcmp.neg_iff_pos _ hkey _ hfS).mp hkeyf
  omega

theorem SortedFromOne.upward (h : SortedFromOne cmp S page) (hcmp : StrictTotalOrderOn cmp S)
    (hkey : key ∈ S) : Upward (fun e => decide (¬cmp e.1 key ≤ 0)) (page.array.drop 1) := by
  rw [List.drop_one]
  refine h.lt.imp_of_mem fun {a b} ha hb hlt => ?_
  simp only [decide_eq_true_eq, not_le]
  intro hpos
  have hneg := (hcmp.neg_iff_pos _ hkey _ (h.mem a ha)).mpr hpos
  exact (hcmp.neg_iff_pos _ hkey _ (h.mem b hb)).mp
    (hcmp.trans _ hkey _ (h.mem a ha) _ (h.mem b hb) hneg hlt)

/-- The bisection ends behind a slot for the key. -/
theorem SortedFromOne.isSlot_bisect (h : SortedFromOne cmp S page)
    (hcmp : StrictTotalOrderOn cmp S) (hsize : 2 ≤ page.array.length) (hkey : key ∈ S) {first : Nat}
    (hfirst : bisect (holdsAt (fun e => decide (¬cmp e.1 key ≤ 0)) page.array) page.array.length 1
      page.array.length = first) :
    1 ≤ first ∧ IsSlot cmp page key (first - 1) := by
  obtain ⟨hone, hle, hbelow, habove⟩ :=
    bisect_holdsAt (h.upward hcmp hkey) page.array.length (by omega) (by omega)
  rw [hfirst] at hone hle hbelow habove
  have hlt : first - 1 < page.array.length := by omega
  refine ⟨hone, hlt, ?_, ?_⟩
  · obtain heq | hlt' := Nat.eq_or_lt_of_le hone
    · exact Or.inl (by omega)
    · have hnotpos := hbelow (first - 1) _ (by omega) (by omega) (List.getElem?_eq_getElem hlt)
      exact Or.inr ⟨_, List.getElem?_eq_getElem hlt, by simpa using hnotpos⟩
  · obtain heq | hlt' := Nat.eq_or_lt_of_le hle
    · exact Or.inl (by omega)
    · have hget : page.array[first - 1 + 1]? = some page.array[first] := by
        rw [Nat.sub_add_cancel hone, List.getElem?_eq_getElem]
      have hpos := habove first _ le_rfl (List.getElem?_eq_getElem hlt')
      refine Or.inr ⟨_, hget, ?_⟩
      rw [hcmp.neg_iff_pos _ hkey _ (h.mem_of_get hone (List.getElem?_eq_getElem hlt'))]
      simpa using hpos

/-- `Lookup` returns the child at a slot for the key. -/
theorem SortedFromOne.isSlot_of_lookup (h : SortedFromOne cmp S page)
    (hcmp : StrictTotalOrderOn cmp S) (hkey : key ∈ S) {child : PageId}
    (hlookup : page.lookup cmp key = .ok child) :
    ∃ i e, IsSlot cmp page key i ∧ page.array[i]? = some e ∧ e.2 = child := by
  rw [lookup] at hlookup
  split at hlookup
  · cases hlookup
  · rename_i hsize
    obtain ⟨hone, hslot⟩ := h.isSlot_bisect hcmp (by omega) hkey rfl
    refine ⟨_, _, hslot, List.getElem?_eq_getElem hslot.lt, ?_⟩
    simp only [List.getElem?_eq_getElem hslot.lt] at hlookup
    cases hlookup
    rfl

theorem SortedFromOne.lookup_of_isSlot (h : SortedFromOne cmp S page)
    (hcmp : StrictTotalOrderOn cmp S) (hsize : 2 ≤ page.array.length) (hkey : key ∈ S) {i : Nat}
    {e : K × PageId} (hi : IsSlot cmp page key i) (he : page.array[i]? = some e) :
    page.lookup cmp key = .ok e.2 := by
  have hnot : ¬¬page.array.length > 1 := by omega
  obtain ⟨hone, hslot⟩ := h.isSlot_bisect hcmp hsize hkey rfl
  have heq := le_antisymm (not_lt.mp (h.not_lt_of_isSlot hcmp hkey hi hslot))
    (not_lt.mp (h.not_lt_of_isSlot hcmp hkey hslot hi))
  simp only [lookup, if_neg hnot, heq, he]

end Sorted

/-- The search of a sorted page finds the child at the one slot for the key,
and all the keys it compares are those of slots from 1 on. -/
theorem lookup_at_slot {S : Set K} (hcmp : StrictTotalOrderOn cmp S) (page : InternalPage K)
    (hsize : 2 ≤ page.array.length) (h : SortedFromOne cmp S page) (hkey : key ∈ S) :
    ∃ i e reads, IsSlot cmp page key i ∧ (∀ j, IsSlot cmp page key j → j = i) ∧
      page.array[i]? = some e ∧ lookupReads cmp page key = .ok (e.2, reads) ∧
      (∀ j ∈ reads, 1 ≤ j ∧ j < page.array.length) ∧ page.lookup cmp key = .ok e.2 := by
  have hnot : ¬¬page.array.length > 1 := by omega
  obtain ⟨reads, hloop, hreads⟩ := @lookupLoop_eq K cmp page key page.array.length 1
    page.array.length (Nat.sub_le _ _) (by omega) le_rfl
  obtain ⟨hone, hslot⟩ := h.isSlot_bisect hcmp hsize hkey rfl
  rw [Int.natCast_one] at hloop
  simp only [lookupReads, if_neg hnot, hloop]
  generalize bisect _ page.array.length 1 page.array.length = first at hone hslot
  have hcast : (first : Int) - 1 = (first - 1 : Nat) := by omega
  have hget := List.getElem?_eq_getElem hslot.lt
  refine ⟨first - 1, page.array.get ⟨first - 1, hslot.lt⟩, reads, hslot, fun j hj => ?_, hget,
    ?_, hreads, h.lookup_of_isSlot hcmp hsize hkey hslot hget⟩
  · exact le_antisymm (not_lt.mp (h.not_lt_of_isSlot hcmp hkey hslot hj))
      (not_lt.mp (h.not_lt_of_isSlot hcmp hkey hj hslot))
  · simp only [Bind.bind, Except.bind, hcast, slot_ok hslot.lt]
    rfl

/-- Slot 0 holds a key that is out of order. -/
def fourChildren : InternalPage Int :=
  ⟨⟨1, -1, 5⟩, [(99, 10), (2, 11), (4, 12), (6, 13)]⟩

theorem lookup_at_slot_four : ∃ i e reads, IsSlot (fun a b => a - b) fourChildren 4 i ∧
    (∀ j, IsSlot (fun a b => a - b) fourChildren 4 j → j = i) ∧
    fourChildren.array[i]? = some e ∧
    lookupReads (fun a b => a - b) fourChildren 4 = .ok (e.2, reads) ∧
    (∀ j ∈ reads, 1 ≤ j ∧ j < fourChildren.array.length) ∧
    fourChildren.lookup (fun a b => a - b) 4 = .ok e.2 :=
  lookup_at_slot strictTotalOrderOn_sub fourChildren (by decide) ⟨by simp, by decide⟩
    (Set.mem_univ 4)

end InternalPage

end ScuDb
