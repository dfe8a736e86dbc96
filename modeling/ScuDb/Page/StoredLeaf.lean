import Mathlib.Order.Bounds.Basic
import ScuDb.Foundations.Cells
import ScuDb.Foundations.Comparator
import ScuDb.Page.BPlusTreePageLemmas

/-!
A leaf page as it is stored, changed in place.

`LeafPage` has the entries of a leaf as a list. In the page they are the
first `size` cells of an array whose other cells hold what they happen
to hold, and the member functions search, shift and overwrite these
cells. What they do is what the functions of `LeafPage` do, and the cells
behind the entries stay as they were.
-/

namespace ScuDb

open Foundations

/-- A leaf page with all the cells of its memory. -/
structure StoredLeaf (K V : Type) extends PageHeader where
  size : Nat
  nextPageId : PageId
  array : List (K × V)
  deriving DecidableEq, Repr

namespace StoredLeaf

variable {K V : Type} (cmp : K → K → Int) (page : StoredLeaf K V) (key : K)

/-- The loop of `KeyIndex`, on the closed interval `[first, last]`. -/
def keyIndexLoop (first last : Int) : Except Fault Int :=
  if first ≤ last then do
    let mid := (last - first) / 2 + first
    let e ← readCell .outOfBounds page.array mid
    if cmp e.1 key ≥ 0 then keyIndexLoop first (mid - 1) else keyIndexLoop (mid + 1) last
  else pure (last + 1)
termination_by (last + 1 - first).toNat

def keyIndex : Except Fault Int := keyIndexLoop cmp page key 0 (page.size - 1)

def keyAt (index : Int) : Except Fault K :=
  if ¬(0 ≤ index ∧ index < page.size) then .error .assertFailed
  else do
    let e ← readCell .outOfBounds page.array index
    pure e.1

/-- The page and the size that is returned. -/
def insert (value : V) : Except Fault (StoredLeaf K V × Nat) := do
  let index ← page.keyIndex cmp key
  if ¬index ≥ 0 then .error .assertFailed
  else do
    let curSize := page.size + 1
    let array ← shiftUp .outOfBounds index (curSize - 1) page.array
    let array ← writeCell .outOfBounds array index (key, value)
    pure ({ page with size := curSize, array := array }, curSize)

/-- The answer, and what is then in `value`. -/
def lookup (value : V) : Except Fault (Bool × V) := do
  let index ← page.keyIndex cmp key
  if index < page.size then do
    let e ← readCell .outOfBounds page.array index
    pure (if cmp e.1 key = 0 then (true, e.2) else (false, value))
  else pure (false, value)

/-- The page and the size that is returned. -/
def removeAndDeleteRecord : Except Fault (StoredLeaf K V × Nat) := do
  let tarKey ← page.keyIndex cmp key
  if tarKey ≥ page.size then pure (page, page.size)
  else do
    let found ← page.keyAt tarKey
    if cmp key found ≠ 0 then pure (page, page.size)
    else do
      let array ← moveCells .outOfBounds page.array tarKey (tarKey + 1) (page.size - tarKey - 1)
      pure ({ page with size := page.size - 1, array := array }, page.size - 1)

/-! ### The entries -/

def entries : List (K × V) := page.array.take page.size

/-- The leaf page that is stored here. -/
def contents : LeafPage K V where
  toPageHeader := page.toPageHeader
  nextPageId := page.nextPageId
  array := page.entries

/-- The page with other entries. The cells behind them keep what they hold. -/
def withEntries (l : List (K × V)) : StoredLeaf K V :=
  { page with size := l.length, array := l ++ page.array.drop l.length }

variable {cmp} {page} {key}

theorem length_entries (h : page.size ≤ page.array.length) : page.entries.length = page.size :=
  List.length_take_of_le h

@[simp] theorem entries_withEntries (l : List (K × V)) : (page.withEntries l).entries = l :=
  List.take_left

theorem size_le_withEntries (page : StoredLeaf K V) (l : List (K × V)) :
    (page.withEntries l).size ≤ (page.withEntries l).array.length := by
  change l.length ≤ (l ++ page.array.drop l.length).length
  rw [List.length_append]
  exact Nat.le_add_right _ _

theorem readCell_entry (h : page.size ≤ page.array.length) {i : Nat}
    (hi : i < page.entries.length) :
    readCell Fault.outOfBounds page.array i = .ok page.entries[i] := by
  have hsize : i < page.size := length_entries h ▸ hi
  rw [readCell_eq (hsize.trans_le h)]
  simp [entries]

/-! ### The code computes what `LeafPage` says -/

/-- The loop is the bisection of `[lo, hi)`. -/
theorem keyIndexLoop_eq (h : page.size ≤ page.array.length) {fuel lo hi : Nat}
    (hfuel : hi - lo ≤ fuel) (hle : lo ≤ hi) (hhi : hi ≤ page.entries.length) :
    keyIndexLoop cmp page key lo (hi - 1) =
      .ok (bisect (holdsAt (fun e => decide (0 ≤ cmp e.1 key)) page.entries) fuel lo hi : Int) := by
  induction fuel generalizing lo hi with
  | zero =>
      have hend : ¬(lo : Int) ≤ hi - 1 := by omega
      have heq : (hi : Int) - 1 + 1 = lo := by omega
      rw [keyIndexLoop, if_neg hend, heq]
      rfl
  | succ fuel ih =>
      rw [keyIndexLoop, bisect]
      by_cases hlt : lo < hi
      · -- the middle of the closed interval is the middle of the half-open one
        have hmid : ((hi : Int) - 1 - lo) / 2 + lo = ((hi - 1 - lo) / 2 + lo : Nat) := by omega
        have hlo : lo ≤ (hi - 1 - lo) / 2 + lo := Nat.le_add_left ..
        have hmidhi : (hi - 1 - lo) / 2 + lo < hi := by omega
        rw [if_pos (by omega), if_pos hlt, hmid]
        generalize (hi - 1 - lo) / 2 + lo = mid at hlo hmidhi
        have hmidlen : mid < page.entries.length := hmidhi.trans_le hhi
        simp only [readCell_entry h hmidlen, holdsAt, List.getElem?_eq_getElem hmidlen,
          decide_eq_true_eq, Bind.bind, Except.bind, ge_iff_le]
        by_cases hcmp : 0 ≤ cmp page.entries[mid].1 key
        · rw [if_pos hcmp, if_pos hcmp]
          exact ih (by omega) hlo hmidlen.le
        · have hnext : (mid : Int) + 1 = (mid + 1 : Nat) := rfl
          rw [if_neg hcmp, if_neg hcmp, hnext]
          exact ih (by omega) hmidhi hhi
      · have hend : ¬(lo : Int) ≤ hi - 1 := by omega
        have heq : (hi : Int) - 1 + 1 = lo := by omega
        rw [if_neg hend, if_neg hlt, heq]
        rfl

theorem keyIndex_eq (h : page.size ≤ page.array.length) :
    page.keyIndex cmp key = .ok (page.contents.keyIndex cmp key : Int) := by
  have hloop : keyIndexLoop cmp page key (0 : Nat) ((page.entries.length : Nat) - 1) = _ :=
    keyIndexLoop_eq h (Nat.sub_le _ _) (Nat.zero_le _) le_rfl
  rw [length_entries h] at hloop
  rw [keyIndex, LeafPage.keyIndex]
  change _ = Except.ok (bisect _ page.entries.length 0 page.entries.length : Int)
  rw [length_entries h]
  exact hloop

theorem keyIndex_le (page : StoredLeaf K V) :
    page.contents.keyIndex cmp key ≤ page.entries.length :=
  bisect_le _ _ _ (Nat.zero_le _)

theorem lookup_eq (h : page.size ≤ page.array.length) (value : V) :
    page.lookup cmp key value = .ok
      (match page.contents.lookup cmp key with
        | some v => (true, v)
        | none => (false, value)) := by
  have hlen := length_entries h
  have harray : page.contents.array = page.entries := rfl
  simp only [lookup, keyIndex_eq h, LeafPage.lookup, harray, bind, Except.bind]
  generalize page.contents.keyIndex cmp key = i
  by_cases hi : i < page.entries.length
  · have hsize : (i : Int) < page.size := by omega
    rw [if_pos hsize, readCell_entry h hi, List.getElem?_eq_getElem hi]
    by_cases hz : cmp page.entries[i].1 key = 0
    · simp only [if_pos hz]
      rfl
    · simp only [if_neg hz]
      rfl
  · have hsize : ¬(i : Int) < page.size := by omega
    rw [if_neg hsize, List.getElem?_eq_none (not_lt.mp hi)]
    rfl

theorem insert_ok (h : page.size < page.array.length) (value : V) :
    page.insert cmp key value =
      .ok (page.withEntries (page.entries.take (page.contents.keyIndex cmp key) ++
        (key, value) :: page.entries.drop (page.contents.keyIndex cmp key)), page.size + 1) := by
  have hlen := length_entries h.le
  have hle : page.contents.keyIndex cmp key ≤ page.entries.length := keyIndex_le page
  -- `a` is the cell behind the entries, which is overwritten.
  obtain ⟨a, rest, hrest⟩ := List.exists_cons_of_length_pos
    (l := page.array.drop page.size) (by rw [List.length_drop]; omega)
  simp only [insert, keyIndex_eq h.le, bind, Except.bind]
  generalize page.contents.keyIndex cmp key = i at hle
  have hi : (page.entries.take i).length = i := List.length_take_of_le hle
  have hend : ((page.size + 1 : Nat) : Int) - 1 =
      (page.entries.take i ++ page.entries.drop i).length := by
    rw [List.take_append_drop, hlen]
    omega
  have hcells : page.array =
      page.entries.take i ++ page.entries.drop i ++ a :: rest := by
    rw [List.take_append_drop, ← hrest, entries, List.take_append_drop]
  obtain ⟨x, hx⟩ := @shiftUp_middle Fault (K × V) .outOfBounds (page.entries.take i)
    (page.entries.drop i) rest a
  rw [hi] at hx
  rw [if_neg (by omega), hend, hcells, hx]
  simp only [writeCell_middle hi.symm]
  have hnew : (page.entries.take i ++ (key, value) :: page.entries.drop i).length =
      page.size + 1 := by
    rw [List.length_append, List.length_cons, hi, List.length_drop, hlen]
    omega
  have htail : page.array.drop (page.size + 1) = rest := by
    rw [← List.drop_drop, hrest, List.drop_one, List.tail_cons]
  rw [withEntries, hnew, htail, List.append_assoc, List.cons_append]
  rfl

theorem insert_eq (h : page.size < page.array.length) (hroom : page.size ≤ page.maxSize)
    (value : V) :
    ∃ l, page.insert cmp key value = .ok (page.withEntries l, page.size + 1) ∧
      page.contents.insert cmp key value = .ok { page.contents with array := l } := by
  refine ⟨_, insert_ok h value, ?_⟩
  have hlen := length_entries h.le
  rw [LeafPage.insert]
  refine if_pos ?_
  change _ ≤ page.maxSize + 1
  rw [List.length_append, List.length_cons, ← Nat.add_assoc, ← List.length_append,
    List.take_append_drop]
  exact Nat.succ_le_succ (hlen.trans_le hroom)

/-- Where the entry that is removed stands, the entries behind it move up. -/
theorem removeAndDeleteRecord_found (h : page.size ≤ page.array.length) {i : Nat}
    (hindex : page.contents.keyIndex cmp key = i) (hi : i < page.entries.length)
    (hz : cmp key page.entries[i].1 = 0) :
    page.removeAndDeleteRecord cmp key =
      .ok (page.withEntries (page.entries.take i ++ page.entries.drop (i + 1)),
        (page.entries.take i ++ page.entries.drop (i + 1)).length) := by
  have hlen := length_entries h
  have htake : (page.entries.take i).length = i := List.length_take_of_le hi.le
  have hnot : ¬(i : Int) ≥ page.size := by omega
  have hbound : ¬¬(0 ≤ (i : Int) ∧ (i : Int) < page.size) := by omega
  have hcells : page.array = page.entries.take i ++ page.entries[i] ::
      (page.entries.drop (i + 1) ++ page.array.drop page.size) := by
    rw [← List.cons_append, List.getElem_cons_drop, ← List.append_assoc, List.take_append_drop,
      entries, List.take_append_drop]
  have hcount : (page.size : Int) - i - 1 = (page.entries.drop (i + 1)).length := by
    rw [List.length_drop]
    omega
  have hnext : (i : Int) + 1 = (i + 1 : Nat) := rfl
  have hnew : (page.entries.take i ++ page.entries.drop (i + 1)).length = page.size - 1 := by
    rw [List.length_append, htake, List.length_drop]
    omega
  have hmove := @moveCells_middle Fault (K × V) .outOfBounds (page.entries.take i)
    (page.entries.drop (i + 1)) (page.array.drop page.size) page.entries[i]
  rw [← hcells, htake, hnew] at hmove
  simp only [removeAndDeleteRecord, keyIndex_eq h, hindex, keyAt, if_neg hnot, if_neg hbound,
    readCell_entry h hi, bind, Except.bind, pure, Except.pure]
  rw [if_neg (not_not.mpr hz), hcount, hnext, hmove, withEntries, hnew]

theorem removeAndDeleteRecord_not_found (h : page.size ≤ page.array.length)
    (habsent : ∀ e, page.entries[page.contents.keyIndex cmp key]? = some e → cmp key e.1 ≠ 0) :
    page.removeAndDeleteRecord cmp key = .ok (page, page.size) := by
  have hlen := length_entries h
  simp only [removeAndDeleteRecord, keyIndex_eq h, bind, Except.bind]
  generalize page.contents.keyIndex cmp key = i at habsent
  by_cases hi : i < page.entries.length
  · have hnot : ¬(i : Int) ≥ page.size := by omega
    have hbound : ¬¬(0 ≤ (i : Int) ∧ (i : Int) < page.size) := by omega
    simp only [if_neg hnot, keyAt, if_neg hbound, readCell_entry h hi, bind, Except.bind, pure,
      Except.pure]
    exact if_pos (habsent _ (List.getElem?_eq_getElem hi))
  · have hge : (i : Int) ≥ page.size := by omega
    rw [if_pos hge]
    rfl

theorem withEntries_entries (h : page.size ≤ page.array.length) :
    page.withEntries page.entries = page := by
  rw [withEntries, length_entries h, entries, List.take_append_drop]

theorem removeAndDeleteRecord_eq (h : page.size ≤ page.array.length) :
    ∃ l, page.removeAndDeleteRecord cmp key = .ok (page.withEntries l, l.length) ∧
      page.contents.removeAndDeleteRecord cmp key = { page.contents with array := l } := by
  have harray : page.contents.array = page.entries := rfl
  have hunchanged : (∀ e, page.entries[page.contents.keyIndex cmp key]? = some e →
      cmp key e.1 ≠ 0) → page.removeAndDeleteRecord cmp key =
        .ok (page.withEntries page.entries, page.entries.length) := by
    intro habsent
    rw [withEntries_entries h, length_entries h]
    exact removeAndDeleteRecord_not_found h habsent
  obtain ⟨i, hindex⟩ : ∃ i, page.contents.keyIndex cmp key = i := ⟨_, rfl⟩
  rw [hindex] at hunchanged
  simp only [LeafPage.removeAndDeleteRecord, hindex, harray]
  cases hget : page.entries[i]? with
  | none => exact ⟨page.entries, hunchanged (by simp [hget]), rfl⟩
  | some e =>
      obtain ⟨hi, rfl⟩ := List.getElem?_eq_some_iff.mp hget
      by_cases hz : cmp key page.entries[i].1 = 0
      · refine ⟨_, removeAndDeleteRecord_found h hindex hi hz, ?_⟩
        exact if_neg (not_not.mpr hz)
      · refine ⟨page.entries, hunchanged fun e he => ?_, if_pos hz⟩
        rw [hget, Option.some_inj] at he
        rw [← he]
        exact hz

/-! ### Sorted pages -/

/-- What the search looks for: the keys before the index are smaller than
`key`, and the one there, if any, is not. -/
structure IsKeyIndex (cmp : K → K → Int) (l : List (K × V)) (key : K) (i : Nat) : Prop where
  le : i ≤ l.length
  below : ∀ e ∈ l.take i, cmp e.1 key < 0
  above : ∀ e, l[i]? = some e → 0 ≤ cmp e.1 key

/-- The entries are within the memory of the page, and their keys are
keys of `S` and strictly increase. -/
structure Sorted (cmp : K → K → Int) (S : Set K) (page : StoredLeaf K V) : Prop where
  size_le : page.size ≤ page.array.length
  mem : ∀ e ∈ page.entries, e.1 ∈ S
  lt : page.entries.Pairwise fun a b => cmp a.1 b.1 < 0

theorem IsKeyIndex.le_of_isKeyIndex {l : List (K × V)} {i j : Nat} (hi : IsKeyIndex cmp l key i)
    (hj : IsKeyIndex cmp l key j) : i ≤ j := by
  by_contra hlt
  have hjl : j < l.length := (not_le.mp hlt).trans_le hi.le
  have hmem : l[j] ∈ l.take i := List.mem_take_iff_getElem.mpr ⟨j, by omega, rfl⟩
  have hneg := hi.below _ hmem
  have hnonneg := hj.above _ (List.getElem?_eq_getElem hjl)
  omega

section Sorted

variable {S : Set K}

/-- The comparator can be replaced by a rank, as for `LeafPage`. -/
theorem Sorted.exists_sortedWithin (h : page.Sorted cmp S) (hcmp : StrictTotalOrderOn cmp S) :
    ∃ (B : Type) (_ : LinearOrder B) (_ : BoundedOrder B) (rank : K → B),
      Ranked cmp S rank ∧ SortedWithin rank S ⊥ ⊤ page.contents.array := by
  obtain ⟨B, hB, hB', rank, hr⟩ := hcmp.exists_ranked
  refine ⟨B, hB, hB', rank, hr, fun e he => ⟨h.mem e he, bot_le, hr.lt_top (h.mem e he)⟩, ?_⟩
  exact h.lt.imp_of_mem fun ha hb hlt => (hr.neg_iff (h.mem _ ha) (h.mem _ hb)).mp hlt

theorem Sorted.of_sortedWithin {B : Type} [LinearOrder B] [BoundedOrder B] {rank : K → B}
    {l : List (K × V)} (hr : Ranked cmp S rank) (hl : SortedWithin rank S ⊥ ⊤ l) :
    (page.withEntries l).Sorted cmp S := by
  have hentries : (page.withEntries l).entries = l := entries_withEntries l
  refine ⟨size_le_withEntries page l, ?_, ?_⟩
  · rw [hentries]
    exact fun e he => (hl.mem e he).1
  · rw [hentries]
    exact hl.sorted.imp_of_mem fun ha hb hlt =>
      (hr.neg_iff (hl.mem _ ha).1 (hl.mem _ hb).1).mpr hlt

theorem Sorted.isKeyIndex (h : page.Sorted cmp S) (hcmp : StrictTotalOrderOn cmp S)
    (hkey : key ∈ S) : IsKeyIndex cmp page.entries key (page.contents.keyIndex cmp key) := by
  obtain ⟨B, _, _, rank, hr, hwithin⟩ := h.exists_sortedWithin hcmp
  obtain ⟨hle, hcut⟩ := LeafPage.keyIndex_cut hr hwithin hkey
  refine ⟨hle, fun e he => ?_, fun e he => ?_⟩
  · have hmem := h.mem e (List.mem_of_mem_take he)
    exact (hr.neg_iff hmem hkey).mpr (hcut.below_lt e he)
  · have hget : (page.entries.drop (page.contents.keyIndex cmp key))[0]? = some e := by
      rw [List.getElem?_drop]
      exact he
    have hdrop := List.mem_of_getElem? hget
    have hmem := h.mem e (List.mem_of_mem_drop hdrop)
    exact (hr.nonneg_iff hmem hkey).mpr (hcut.le_above e hdrop)

/-- An entry for the key stands where the search ends. -/
theorem Sorted.getElem?_keyIndex (h : page.Sorted cmp S) (hcmp : StrictTotalOrderOn cmp S)
    (hkey : key ∈ S) {v : V} (hmem : (key, v) ∈ page.entries) :
    page.entries[page.contents.keyIndex cmp key]? = some (key, v) := by
  obtain ⟨B, _, _, rank, hr, hwithin⟩ := h.exists_sortedWithin hcmp
  obtain ⟨-, hcut⟩ := LeafPage.keyIndex_cut hr hwithin hkey
  obtain ⟨rest, hdrop⟩ := LeafPage.head_of_cut hwithin hcut hmem
  have hhead : (page.entries.drop (page.contents.keyIndex cmp key)).head? = some (key, v) := by
    change (page.contents.array.drop _).head? = _
    rw [hdrop, List.head?_cons]
  rwa [List.head?_drop] at hhead

theorem Sorted.insert (h : page.Sorted cmp S) (hcmp : StrictTotalOrderOn cmp S) (hkey : key ∈ S)
    (hroom : page.size < page.array.length) (habsent : ∀ e ∈ page.entries, e.1 ≠ key) (value : V) :
    ∃ l, l = page.entries.take (page.contents.keyIndex cmp key) ++
        (key, value) :: page.entries.drop (page.contents.keyIndex cmp key) ∧
      page.insert cmp key value = .ok (page.withEntries l, page.size + 1) ∧
      (page.withEntries l).Sorted cmp S := by
  obtain ⟨B, _, _, rank, hr, hwithin⟩ := h.exists_sortedWithin hcmp
  obtain ⟨-, hcut⟩ := LeafPage.keyIndex_cut hr hwithin hkey
  refine ⟨_, rfl, insert_ok hroom value, .of_sortedWithin hr ?_⟩
  refine hwithin.insert hcut hkey bot_le (hr.lt_top hkey) fun e he heq => ?_
  exact habsent e he (hr.inj (h.mem e he) hkey heq)

theorem Sorted.remove (h : page.Sorted cmp S) (hcmp : StrictTotalOrderOn cmp S) (hkey : key ∈ S)
    {v : V} {i : Nat} (hindex : page.contents.keyIndex cmp key = i)
    (hget : page.entries[i]? = some (key, v)) :
    ∃ l, page.entries = page.entries.take i ++ (key, v) :: page.entries.drop (i + 1) ∧
      l = page.entries.take i ++ page.entries.drop (i + 1) ∧
      page.removeAndDeleteRecord cmp key = .ok (page.withEntries l, page.size - 1) ∧
      (page.withEntries l).Sorted cmp S := by
  obtain ⟨B, _, _, rank, hr, hwithin⟩ := h.exists_sortedWithin hcmp
  have hlen := length_entries h.size_le
  obtain ⟨hi, hentry⟩ := List.getElem?_eq_some_iff.mp hget
  have hz : cmp key page.entries[i].1 = 0 := by
    rw [hentry]
    exact hcmp.refl_zero hkey
  have hsplit : page.entries =
      page.entries.take i ++ (key, v) :: page.entries.drop (i + 1) := by
    rw [← hentry, List.getElem_cons_drop, List.take_append_drop]
  have hsub : (page.entries.take i ++ page.entries.drop (i + 1)).Sublist page.entries := by
    nth_rewrite 3 [hsplit]
    exact (List.Sublist.refl _).append (List.sublist_cons_self _ _)
  have hlength : (page.entries.take i ++ page.entries.drop (i + 1)).length = page.size - 1 := by
    rw [List.length_append, List.length_take_of_le hi.le, List.length_drop]
    omega
  refine ⟨_, hsplit, rfl, ?_, .of_sortedWithin hr (hwithin.sublist hsub)⟩
  rw [removeAndDeleteRecord_found h.size_le hindex hi hz, hlength]

/-- What the operations do with `key`, where the search ends at `i`. An
insertion takes the cell behind the entries, which a page always has: it
has more cells than it may keep entries, and is split once it has too many. -/
structure Serves (cmp : K → K → Int) (S : Set K) (page : StoredLeaf K V) (key : K) (i : Nat) :
    Prop where
  keyIndex : page.keyIndex cmp key = .ok (i : Int)
  least : IsLeast {j | IsKeyIndex cmp page.entries key j} i
  lookup_stored : ∀ v value, (key, v) ∈ page.entries →
    page.lookup cmp key value = .ok (true, v)
  lookup_absent : ∀ value, (∀ e ∈ page.entries, e.1 ≠ key) →
    page.lookup cmp key value = .ok (false, value)
  insert_absent : ∀ value, page.size < page.array.length → (∀ e ∈ page.entries, e.1 ≠ key) →
    ∃ l, l = page.entries.take i ++ (key, value) :: page.entries.drop i ∧
      page.insert cmp key value = .ok (page.withEntries l, page.size + 1) ∧
      (page.withEntries l).Sorted cmp S
  remove_stored : ∀ v, (key, v) ∈ page.entries →
    ∃ l, page.entries = page.entries.take i ++ (key, v) :: page.entries.drop (i + 1) ∧
      l = page.entries.take i ++ page.entries.drop (i + 1) ∧
      page.removeAndDeleteRecord cmp key = .ok (page.withEntries l, page.size - 1) ∧
      (page.withEntries l).Sorted cmp S
  remove_absent : (∀ e ∈ page.entries, e.1 ≠ key) →
    page.removeAndDeleteRecord cmp key = .ok (page, page.size)

/-- On a sorted page the search finds the least index it can be asked for,
and the operations that rest on it change the entry for the key only. -/
theorem exists_serves (hcmp : StrictTotalOrderOn cmp S) (h : page.Sorted cmp S)
    (hkey : key ∈ S) : ∃ i, page.Serves cmp S key i := by
  obtain ⟨B, _, _, rank, hr, hwithin⟩ := h.exists_sortedWithin hcmp
  have hindex := h.isKeyIndex hcmp hkey
  refine ⟨page.contents.keyIndex cmp key, keyIndex_eq h.size_le,
    ⟨hindex, fun j hj => hindex.le_of_isKeyIndex hj⟩, fun v value hmem => ?_,
    fun value habsent => ?_,
    fun value hroom habsent => h.insert hcmp hkey hroom habsent value,
    fun v hmem => h.remove hcmp hkey rfl (h.getElem?_keyIndex hcmp hkey hmem),
    fun habsent => ?_⟩
  · have hlookup := (LeafPage.lookup_eq_some_iff hr hwithin hkey).mpr hmem
    rw [lookup_eq h.size_le, hlookup]
  · have hlookup := (LeafPage.lookup_eq_none_iff hr hwithin hkey).mpr
      fun v hmem => habsent _ hmem rfl
    rw [lookup_eq h.size_le, hlookup]
  · refine removeAndDeleteRecord_not_found h.size_le fun e he hz => ?_
    have hmem := List.mem_of_getElem? he
    exact habsent e hmem ((hcmp.eq_zero_iff key hkey e.1 (h.mem e hmem)).mp hz).symm

/-- Three entries, and two cells that hold something old. -/
def threeEntries : StoredLeaf Int Nat :=
  ⟨⟨1, -1, 4⟩, 3, -1, [(1, 10), (3, 30), (5, 50), (3, 99), (0, 0)]⟩

theorem exists_serves_three : ∃ i, threeEntries.Serves (fun a b => a - b) Set.univ 4 i :=
  exists_serves strictTotalOrderOn_sub
    ⟨by decide, fun _ _ => Set.mem_univ _, by decide⟩ (Set.mem_univ 4)

end Sorted

end StoredLeaf

end ScuDb
