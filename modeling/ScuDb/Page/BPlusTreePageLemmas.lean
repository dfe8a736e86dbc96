import ScuDb.Foundations.Comparator
import ScuDb.Foundations.Partition
import ScuDb.Foundations.SortedEntries
import ScuDb.Page.BPlusTreePage

/-!
What the member functions of tree pages do to well-formed pages.

The search functions are described in terms of the order of the keys:
the index a leaf search returns cuts the entries at the key, and the
child an internal search returns is the one whose piece of the interval
holds the key. The functions on slots are described by where the slot
stands in the list of entries.
-/

namespace ScuDb

open Foundations

variable {K V B : Type} [LinearOrder B] [BoundedOrder B]

/-! ### Sizes -/

theorem LeafPage.five_le_initMaxSize (keySize : KeySize) : 5 ≤ initMaxSize keySize := by
  cases keySize <;> decide

theorem InternalPage.six_le_initMaxSize (keySize : KeySize) : 6 ≤ initMaxSize keySize := by
  cases keySize <;> decide

/-! ### Leaf pages -/

namespace LeafPage

variable {cmp : K → K → Int} {S : Set K} {rank : K → B} {lo hi : B} {page : LeafPage K V}
  {key : K}

/-- The index found cuts the entries at the key. -/
theorem keyIndex_cut (hr : Ranked cmp S rank) (h : SortedWithin rank S lo hi page.array)
    (hkey : key ∈ S) :
    page.keyIndex cmp key ≤ page.array.length ∧
      CutAt rank (rank key) page.array (page.array.take (page.keyIndex cmp key))
        (page.array.drop (page.keyIndex cmp key)) := by
  have hup : Upward (fun e => decide (0 ≤ cmp e.1 key)) (page.array.drop 0) := by
    rw [List.drop_zero]
    refine h.sorted.imp_of_mem fun {a b} ha hb hlt => ?_
    simp only [decide_eq_true_eq, hr.nonneg_iff (h.mem a ha).1 hkey,
      hr.nonneg_iff (h.mem b hb).1 hkey]
    exact fun hle => hle.trans hlt.le
  obtain ⟨-, hle, hbelow, habove⟩ :=
    bisect_holdsAt hup page.array.length (by omega) (Nat.zero_le _)
  change page.keyIndex cmp key ≤ _ at hle
  change ∀ i a, 0 ≤ i → i < page.keyIndex cmp key → _ at hbelow
  change ∀ i a, page.keyIndex cmp key ≤ i → _ at habove
  refine ⟨hle, (List.take_append_drop _ _).symm, fun e he => ?_, fun e he => ?_⟩
  · obtain ⟨i, hi, rfl⟩ := List.mem_take_iff_getElem.mp he
    have hlt := hbelow i page.array[i] (Nat.zero_le i) (by omega)
      (List.getElem?_eq_getElem (by omega))
    simp only [decide_eq_false_iff_not,
      hr.nonneg_iff (h.mem _ (List.getElem_mem _)).1 hkey, not_le] at hlt
    exact hlt
  · obtain ⟨i, hi, rfl⟩ := List.mem_drop_iff_getElem.mp he
    have hi' : page.keyIndex cmp key + i < page.array.length := by omega
    have hge := habove (page.keyIndex cmp key + i) page.array[page.keyIndex cmp key + i]
      (Nat.le_add_right _ _) (List.getElem?_eq_getElem hi')
    simpa only [decide_eq_true_eq, hr.nonneg_iff (h.mem _ (List.getElem_mem _)).1 hkey] using hge

omit [BoundedOrder B] in
/-- An entry with the key that is searched for stands where the list is cut. -/
theorem head_of_cut (h : SortedWithin rank S lo hi page.array) {below above : List (K × V)}
    (hcut : CutAt rank (rank key) page.array below above) {v : V}
    (hmem : (key, v) ∈ page.array) : ∃ rest, above = (key, v) :: rest := by
  have habove : (key, v) ∈ above := by
    rw [hcut.eq_append] at hmem
    rcases List.mem_append.mp hmem with hb | ha
    · exact absurd (hcut.below_lt _ hb) (lt_irrefl _)
    · exact ha
  cases above with
  | nil => simp at habove
  | cons e rest =>
      refine ⟨rest, ?_⟩
      have hmem' : e ∈ page.array := by
        rw [hcut.eq_append]
        simp
      rcases List.mem_cons.mp habove with heq | hrest
      · rw [heq]
      · have hsorted := h.sorted
        rw [hcut.eq_append] at hsorted
        have hlt := (List.pairwise_cons.mp (List.pairwise_append.mp hsorted).2.1).1 _ hrest
        exact absurd hlt (not_lt.mpr (hcut.le_above e List.mem_cons_self))

theorem lookup_eq_some_iff (hr : Ranked cmp S rank) (h : SortedWithin rank S lo hi page.array)
    (hkey : key ∈ S) {v : V} : page.lookup cmp key = some v ↔ (key, v) ∈ page.array := by
  obtain ⟨hle, hcut⟩ := keyIndex_cut hr h hkey
  unfold lookup
  constructor
  · intro hsome
    cases hget : page.array[page.keyIndex cmp key]? with
    | none => simp [hget] at hsome
    | some e =>
        have hmem := List.mem_of_getElem? hget
        simp only [hget] at hsome
        by_cases hz : cmp e.1 key = 0
        · rw [if_pos hz, Option.some_inj] at hsome
          rw [← (hr.zero_iff (h.mem e hmem).1 hkey).mp hz, ← hsome]
          exact hmem
        · rw [if_neg hz] at hsome
          cases hsome
  · intro hmem
    obtain ⟨rest, hdrop⟩ := head_of_cut h hcut hmem
    have hget : page.array[page.keyIndex cmp key]? = some (key, v) := by
      have hhead := congrArg List.head? hdrop
      simpa [List.head?_drop] using hhead
    simp [hget, (hr.zero_iff hkey hkey).mpr rfl]

theorem lookup_eq_none_iff (hr : Ranked cmp S rank) (h : SortedWithin rank S lo hi page.array)
    (hkey : key ∈ S) : page.lookup cmp key = none ↔ ∀ v, (key, v) ∉ page.array := by
  rw [Option.eq_none_iff_forall_ne_some]
  simp only [ne_eq, lookup_eq_some_iff hr h hkey]

theorem insert_eq (hr : Ranked cmp S rank) (h : SortedWithin rank S lo hi page.array)
    (hkey : key ∈ S) (hlo : lo ≤ rank key) (hhi : rank key < hi)
    (hnew : page.lookup cmp key = none) (hroom : page.array.length ≤ page.maxSize) (v : V) :
    ∃ l, page.insert cmp key v = .ok { page with array := l } ∧
      SortedWithin rank S lo hi l ∧ l.length = page.array.length + 1 ∧
      ∀ e, e ∈ l ↔ e = (key, v) ∨ e ∈ page.array := by
  obtain ⟨hle, hcut⟩ := keyIndex_cut hr h hkey
  rw [lookup_eq_none_iff hr h hkey] at hnew
  refine ⟨page.array.take (page.keyIndex cmp key) ++
    (key, v) :: page.array.drop (page.keyIndex cmp key), ?_, h.insert hcut hkey hlo hhi ?_,
    ?_, ?_⟩
  · have hlen : page.keyIndex cmp key + (page.array.length - page.keyIndex cmp key + 1) ≤
        page.maxSize + 1 := by omega
    simp [insert, store, hle, hlen]
  · intro e he heq
    have := hr.inj (h.mem e he).1 hkey heq
    exact hnew e.2 (by rw [← this]; exact he)
  · simp
    omega
  · intro e
    nth_rewrite 3 [← List.take_append_drop (page.keyIndex cmp key) page.array]
    simp only [List.mem_append, List.mem_cons]
    tauto

theorem keyAt_zero {k : K} (h : page.array.head?.map Prod.fst = some k) :
    page.keyAt 0 = .ok k := by
  cases harr : page.array with
  | nil => simp [harr] at h
  | cons e rest =>
      rw [harr] at h
      simp only [List.head?_cons, Option.map_some, Option.some_inj] at h
      simp [keyAt, harr, h]

theorem removeAndDeleteRecord_eq (hr : Ranked cmp S rank)
    (h : SortedWithin rank S lo hi page.array) (hkey : key ∈ S) :
    ∃ l, page.removeAndDeleteRecord cmp key = { page with array := l } ∧
      SortedWithin rank S lo hi l ∧
      (l = page.array ∨ l.length + 1 = page.array.length) ∧
      ∀ e, e ∈ l ↔ e ∈ page.array ∧ e.1 ≠ key := by
  obtain ⟨hle, hcut⟩ := keyIndex_cut hr h hkey
  have habsent : (∀ v, (key, v) ∉ page.array) →
      ∀ e, e ∈ page.array ↔ e ∈ page.array ∧ e.1 ≠ key := by
    intro hnew e
    constructor
    · intro he
      refine ⟨he, ?_⟩
      rintro rfl
      exact hnew e.2 he
    · exact And.left
  cases hget : page.array[page.keyIndex cmp key]? with
  | none =>
      refine ⟨page.array, by simp [removeAndDeleteRecord, hget], h, Or.inl rfl,
        habsent fun v hmem => ?_⟩
      obtain ⟨rest, hdrop⟩ := head_of_cut h hcut hmem
      have hlen := List.getElem?_eq_none_iff.mp hget
      rw [List.drop_eq_nil_of_le hlen] at hdrop
      cases hdrop
  | some e =>
      have hmem := List.mem_of_getElem? hget
      obtain ⟨hlt, hi⟩ := List.getElem?_eq_some_iff.mp hget
      by_cases hz : cmp key e.1 = 0
      · have hek := (hr.zero_iff hkey (h.mem e hmem).1).mp hz
        have hsplit : page.array = page.array.take (page.keyIndex cmp key) ++
            e :: page.array.drop (page.keyIndex cmp key + 1) := by
          rw [← hi, List.getElem_cons_drop, List.take_append_drop]
        refine ⟨page.array.take (page.keyIndex cmp key) ++
          page.array.drop (page.keyIndex cmp key + 1), ?_, ?_, Or.inr ?_, ?_⟩
        · simp [removeAndDeleteRecord, hget, hz]
        · refine h.sublist ?_
          nth_rewrite 3 [hsplit]
          exact List.Sublist.append (List.Sublist.refl _) (List.sublist_cons_self _ _)
        · simp
          omega
        · intro f
          have hsorted := h
          rw [hsplit] at hsorted
          obtain ⟨hl, hr', hcross⟩ := List.pairwise_append.mp hsorted.sorted
          have hne : ∀ g, g ∈ page.array.take (page.keyIndex cmp key) ∨
              g ∈ page.array.drop (page.keyIndex cmp key + 1) → g.1 ≠ key := by
            rintro g (hg | hg) rfl
            · have := hcross g hg e List.mem_cons_self
              rw [hek] at this
              exact absurd this (lt_irrefl _)
            · have := (List.pairwise_cons.mp hr').1 g hg
              rw [hek] at this
              exact absurd this (lt_irrefl _)
          constructor
          · intro hf
            have hf' := List.mem_append.mp hf
            refine ⟨?_, hne f hf'⟩
            rw [hsplit, List.mem_append, List.mem_cons]
            tauto
          · rintro ⟨hf, hfk⟩
            rw [hsplit, List.mem_append, List.mem_cons] at hf
            rw [List.mem_append]
            rcases hf with hf | rfl | hf
            · exact Or.inl hf
            · exact absurd hek.symm hfk
            · exact Or.inr hf
      · refine ⟨page.array, by simp [removeAndDeleteRecord, hget, hz], h, Or.inl rfl,
          habsent fun v hmem' => ?_⟩
        obtain ⟨rest, hdrop⟩ := head_of_cut h hcut hmem'
        have hhead := congrArg List.head? hdrop
        rw [List.head?_drop, hget, List.head?_cons, Option.some_inj] at hhead
        rw [hhead] at hz
        exact hz ((hr.zero_iff hkey hkey).mpr rfl)

/-! Entries that change pages. -/

theorem store_eq {l : List (K × V)} (h : l.length ≤ page.maxSize + 1) :
    page.store l = .ok { page with array := l } := if_pos h

variable (recipient : LeafPage K V) {e : K × V} {rest : List (K × V)}

theorem moveAllTo_eq (page : LeafPage K V)
    (h : (recipient.array ++ page.array).length ≤ recipient.maxSize + 1) :
    page.moveAllTo recipient = .ok ({ page with array := [] },
      { recipient with array := recipient.array ++ page.array,
                       nextPageId := page.nextPageId }) := by
  rw [moveAllTo, store_eq h]
  rfl

theorem moveFirstToEndOf_eq (harr : page.array = e :: rest)
    (h : recipient.array.length + 1 ≤ recipient.maxSize + 1) :
    page.moveFirstToEndOf recipient = .ok ({ page with array := rest },
      { recipient with array := recipient.array ++ [e] }) := by
  have hitem : page.getItem 0 = .ok e := by simp [getItem, harr]
  have hstore : recipient.copyLastFrom e =
      .ok { recipient with array := recipient.array ++ [e] } := store_eq (by simpa using h)
  rw [moveFirstToEndOf, hitem]
  change (do let recipient ← recipient.copyLastFrom e; _) = _
  rw [hstore, harr]
  rfl

theorem moveLastToFrontOf_eq (harr : page.array = rest ++ [e])
    (h : recipient.array.length + 1 ≤ recipient.maxSize + 1) :
    page.moveLastToFrontOf recipient = .ok ({ page with array := rest },
      { recipient with array := e :: recipient.array }) := by
  have hitem : page.getItem (page.array.length - 1) = .ok e := by simp [getItem, harr]
  have hstore : recipient.copyFirstFrom e =
      .ok { recipient with array := e :: recipient.array } := store_eq (by simpa using h)
  rw [moveLastToFrontOf, hitem]
  change (do let recipient ← recipient.copyFirstFrom e; _) = _
  rw [hstore, harr]
  simp
  rfl

end LeafPage

/-! ### Internal pages -/

namespace InternalPage

variable {cmp : K → K → Int} {S : Set K} {rank : K → B} {lo hi : B} {page : InternalPage K}
  {key : K}

/-- The child found is the one whose piece holds the key. -/
theorem lookup_eq (hr : Ranked cmp S rank) (htail : ∀ e ∈ page.array.tail, e.1 ∈ S)
    (hpieces : ∀ x ∈ spans rank lo page.array hi, x.2.1 < x.2.2)
    (hsize : 1 < page.array.length) (hkey : key ∈ S) (hlo : lo ≤ rank key)
    (hhi : rank key < hi) :
    ∃ x ∈ spans rank lo page.array hi, page.lookup cmp key = .ok x.1 ∧
      x.2.1 ≤ rank key ∧ rank key < x.2.2 := by
  have hup : Upward (fun e => decide (¬cmp e.1 key ≤ 0)) (page.array.drop 1) := by
    rw [List.drop_one]
    refine (tail_pairwise_of_spans hpieces).imp_of_mem fun {a b} ha hb hlt => ?_
    simp only [decide_eq_true_eq, not_le, hr.pos_iff (htail a ha) hkey,
      hr.pos_iff (htail b hb) hkey]
    exact fun hlt' => hlt'.trans hlt
  obtain ⟨hone, hle, hbelow, habove⟩ :=
    bisect_holdsAt hup page.array.length (by omega) hsize.le
  obtain ⟨i, hi_eq⟩ : ∃ i, i = bisect
    (holdsAt (fun e => decide (¬cmp e.1 key ≤ 0)) page.array) page.array.length 1
    page.array.length := ⟨_, rfl⟩
  rw [← hi_eq] at hone hle hbelow habove
  have htail_mem : ∀ j, 1 ≤ j → (hj : j < page.array.length) → page.array[j].1 ∈ S := by
    intro j hj1 hj
    refine htail _ ?_
    rw [← List.drop_one]
    exact List.mem_drop_iff_getElem.mpr ⟨j - 1, by omega, by congr 1; omega⟩
  have hget : page.array[i - 1]? = some page.array[i - 1] := List.getElem?_eq_getElem _
  have hspan := getElem?_spans rank lo hi page.array (i - 1)
  rw [hget, Option.map_some] at hspan
  refine ⟨_, List.mem_of_getElem? hspan, ?_, ?_, ?_⟩
  · have hnot : ¬¬page.array.length > 1 := by omega
    simp only [lookup, if_neg hnot, ← hi_eq, hget]
  · by_cases hzero : i - 1 = 0
    · simpa [hzero] using hlo
    · have hnot := hbelow (i - 1) _ (by omega) (by omega) hget
      simp only [decide_eq_false_iff_not, not_not] at hnot
      simp only [hzero, if_false]
      exact not_lt.mp fun hlt => by
        have := (hr.pos_iff (htail_mem (i - 1) (by omega) (by omega)) hkey).mpr hlt
        omega
  · have hsucc : i - 1 + 1 = i := by omega
    simp only [hsucc]
    by_cases hend : i < page.array.length
    · rw [List.drop_eq_getElem_cons hend, boundary_cons]
      have hpos := habove i _ le_rfl (List.getElem?_eq_getElem hend)
      simp only [decide_eq_true_eq, not_le] at hpos
      exact (hr.pos_iff (htail_mem i hone hend) hkey).mp hpos
    · rw [List.drop_eq_nil_of_le (by omega), boundary_nil]
      exact hhi

/-! A slot that stands between `before` and `after`. -/

variable {before after : List (K × PageId)} {k : K} {id : PageId}

theorem valueIndex_eq (harr : page.array = before ++ (k, id) :: after)
    (hfirst : id ∉ before.map Prod.snd) : page.valueIndex id = before.length := by
  have hidx : page.array.findIdx? (fun e => e.2 = id) = some before.length := by
    rw [harr, List.findIdx?_append]
    have hnone : before.findIdx? (fun e => decide (e.2 = id)) = none := by
      rw [List.findIdx?_eq_none_iff]
      intro e he
      simp only [decide_eq_false_iff_not]
      rintro rfl
      exact hfirst (List.mem_map_of_mem he)
    simp [hnone, List.findIdx?_cons]
  simp [valueIndex, hidx]

theorem keyAt_eq (harr : page.array = before ++ (k, id) :: after) :
    page.keyAt before.length = .ok k := by
  have hneg : ¬(before.length : Int) < 0 := by omega
  simp [keyAt, hneg, harr]

theorem keyAt_zero (h : page.array.head?.map Prod.fst = some k) : page.keyAt 0 = .ok k := by
  cases harr : page.array with
  | nil => simp [harr] at h
  | cons e rest =>
      rw [harr] at h
      simp only [List.head?_cons, Option.map_some, Option.some_inj] at h
      simp [keyAt, harr, h]

theorem valueAt_eq (harr : page.array = before ++ (k, id) :: after) :
    page.valueAt before.length = .ok id := by
  have hneg : ¬(before.length : Int) < 0 := by omega
  simp [valueAt, hneg, harr]

theorem setKeyAt_eq (harr : page.array = before ++ (k, id) :: after) (k' : K) :
    page.setKeyAt before.length k' =
      .ok { page with array := before ++ (k', id) :: after } := by
  have hneg : ¬(before.length : Int) < 0 := by omega
  simp [setKeyAt, hneg, harr]

theorem remove_eq (harr : page.array = before ++ (k, id) :: after) :
    page.remove before.length = .ok { page with array := before ++ after } := by
  have hcond : (0 : Int) ≤ before.length ∧ (before.length : Int) < page.array.length := by
    rw [harr, List.length_append, List.length_cons]
    omega
  rw [remove, if_neg (not_not_intro hcond), Int.toNat_natCast, harr]
  simp

theorem insertNodeAfter_eq (harr : page.array = before ++ (k, id) :: after)
    (hfirst : id ∉ before.map Prod.snd) (hroom : page.array.length ≤ page.maxSize)
    (k' : K) (id' : PageId) :
    page.insertNodeAfter id k' id' =
      .ok { page with array := before ++ (k, id) :: (k', id') :: after } := by
  have hidx := valueIndex_eq harr hfirst
  have hpos : (before.length : Int) + 1 > 0 := by omega
  have hnat : ((before.length : Int) + 1).toNat = before.length + 1 := by omega
  simp only [insertNodeAfter, hidx, hpos, not_true_eq_false, if_false, hnat]
  have htake : page.array.take (before.length + 1) = before ++ [(k, id)] := by
    rw [harr, List.take_length_add_append]
    rfl
  have hdrop : page.array.drop (before.length + 1) = after := by
    simp [harr, List.drop_append]
  have hlen : (before ++ [(k, id)] ++ (k', id') :: after).length ≤ page.maxSize + 1 := by
    rw [harr] at hroom
    simp at hroom ⊢
    omega
  rw [htake, hdrop, store, if_pos hlen]
  simp

/-! Slots that change pages. -/

theorem store_eq {l : List (K × PageId)} (h : l.length ≤ page.maxSize + 1) :
    page.store l = .ok { page with array := l } := if_pos h

variable (recipient : InternalPage K) {e : K × PageId} {rest : List (K × PageId)}

/-- The separator is the key of the first slot already. -/
theorem moveAllTo_eq (harr : page.array = (k, id) :: rest)
    (h : (recipient.array ++ page.array).length ≤ recipient.maxSize)
    (hmax : recipient.maxSize = page.maxSize) :
    page.moveAllTo recipient k = .ok ({ page with array := [] },
      { recipient with array := recipient.array ++ page.array }) := by
  have hset : page.setKeyAt 0 k = .ok page := by
    have hslot : page.array = [] ++ (k, id) :: rest := harr
    have hset := setKeyAt_eq hslot k
    simp only [List.length_nil, List.nil_append, ← harr] at hset
    exact hset
  rw [moveAllTo, hset]
  change (do let recipient ← recipient.store (recipient.array ++ page.array); _) = _
  rw [store_eq (h.trans (Nat.le_succ _))]
  change (if ¬(recipient.array ++ page.array).length ≤ page.maxSize then _ else _) = _
  rw [if_neg (not_not.mpr (hmax ▸ h))]

theorem moveFirstToEndOf_eq (harr : page.array = e :: rest)
    (h : recipient.array.length + 1 ≤ recipient.maxSize) :
    page.moveFirstToEndOf recipient = .ok ({ page with array := rest },
      { recipient with array := recipient.array ++ [e] }) := by
  have hslot : page.array = [] ++ (e.1, e.2) :: rest := harr
  have hkey : page.keyAt 0 = .ok e.1 := keyAt_eq hslot
  have hvalue : page.valueAt 0 = .ok e.2 := valueAt_eq hslot
  have hstore : recipient.copyLastFrom e =
      .ok { recipient with array := recipient.array ++ [e] } := by
    rw [copyLastFrom, if_neg (not_not.mpr h), store_eq]
    simp
    omega
  rw [moveFirstToEndOf, hkey]
  change (do let value ← page.valueAt 0; _) = _
  rw [hvalue]
  change (do let recipient ← recipient.copyLastFrom e; _) = _
  rw [hstore, harr]
  rfl

theorem moveLastToFrontOf_eq (harr : page.array = rest ++ [e])
    (h : recipient.array.length + 1 < recipient.maxSize) :
    page.moveLastToFrontOf recipient = .ok ({ page with array := rest },
      { recipient with array := e :: recipient.array }) := by
  have hslot : page.array = rest ++ (e.1, e.2) :: [] := harr
  have hlen : ((page.array.length : Int) - 1) = rest.length := by simp [harr]
  have hkey := keyAt_eq hslot
  have hvalue := valueAt_eq hslot
  rw [← hlen] at hkey hvalue
  have hstore : recipient.copyFirstFrom e =
      .ok { recipient with array := e :: recipient.array } := by
    rw [copyFirstFrom, if_neg (not_not.mpr h), store_eq]
    simp
    omega
  rw [moveLastToFrontOf, hkey]
  change (do let value ← page.valueAt ((page.array.length : Int) - 1); _) = _
  rw [hvalue]
  change (do let recipient ← recipient.copyFirstFrom e; _) = _
  rw [hstore, harr]
  simp
  rfl

end InternalPage

end ScuDb
