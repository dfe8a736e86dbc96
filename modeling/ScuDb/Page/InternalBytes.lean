import ScuDb.Page.PageBytesArray

/-!
The member functions of an internal page, over its bytes.

Where a function of `InternalPage` does not fail, the function over the
bytes does not either, returns the same, and leaves bytes that hold the
page the other function leaves. The key of slot 0 is compared as well: a
new root keeps there what its bytes hold.
-/

namespace ScuDb

open Foundations PageBytes

variable {K : Type}

/-- The bytes hold the internal page. -/
abbrev InternalPage.StoredAt (f : EntryFormat K PageId) (p : PageBytes) (page : InternalPage K) :
    Prop :=
  Lays f internalPageType p page.toPageHeader page.array

theorem InternalPage.StoredAt.not_isLeafPage {f : EntryFormat K PageId} {p : PageBytes}
    {page : InternalPage K} (hp : StoredAt f p page) : ¬p.isLeafPage = true := by
  rw [PageBytes.isLeafPage, decide_eq_true_eq, hp.pageType]
  decide

namespace InternalBytes

open InternalPage

variable {f : EntryFormat K PageId} {cmp : K → K → Int} {p r : PageBytes}
  {page page' recipient recipient' : InternalPage K} {key : K} {value : PageId}

/-! ### Access to an entry -/

theorem keyAt_eq (hp : StoredAt f p page) (index : Int) : f.keyAt p index = page.keyAt index := by
  rw [EntryFormat.keyAt, hp.size, InternalPage.keyAt]
  by_cases hneg : index < 0
  · rw [if_pos (by omega), if_pos hneg]
  · obtain ⟨i, rfl⟩ := Int.eq_ofNat_of_zero_le (Int.not_lt.mp hneg)
    rw [if_neg hneg, Int.toNat_natCast]
    by_cases hi : i < page.array.length
    · rw [if_neg (by omega), hp.first_ok hi, List.getElem?_eq_getElem hi]
    · rw [if_pos (by omega), List.getElem?_eq_none (not_lt.mp hi)]

theorem valueAt_eq (hp : StoredAt f p page) (index : Int) :
    valueAt f p index = page.valueAt index := by
  rw [valueAt, hp.size, InternalPage.valueAt]
  by_cases hneg : index < 0
  · rw [if_pos (by omega), if_pos hneg]
  · obtain ⟨i, rfl⟩ := Int.eq_ofNat_of_zero_le (Int.not_lt.mp hneg)
    rw [if_neg hneg, Int.toNat_natCast]
    by_cases hi : i < page.array.length
    · rw [if_neg (by omega), hp.second_ok hi, List.getElem?_eq_getElem hi]
    · rw [if_pos (by omega), List.getElem?_eq_none (not_lt.mp hi)]

theorem setKeyAt_ok (hp : StoredAt f p page) (hkey : f.key.Valid key) {index : Int}
    (hrun : page.setKeyAt index key = .ok page') :
    ∃ q, setKeyAt f p index key = .ok q ∧ StoredAt f q page' := by
  rw [InternalPage.setKeyAt] at hrun
  by_cases hneg : index < 0
  · rw [if_pos hneg] at hrun
    cases hrun
  obtain ⟨i, rfl⟩ := Int.eq_ofNat_of_zero_le (Int.not_lt.mp hneg)
  rw [if_neg hneg, Int.toNat_natCast] at hrun
  by_cases hi : i < page.array.length
  case neg =>
    rw [List.getElem?_eq_none (not_lt.mp hi)] at hrun
    cases hrun
  case pos =>
    rw [List.getElem?_eq_getElem hi] at hrun
    cases hrun
    have hindex : (page.array.take i).length = i := List.length_take_of_le hi.le
    have hsplit : page.array = page.array.take i ++ page.array[i] :: page.array.drop (i + 1) := by
      rw [List.getElem_cons_drop, List.take_append_drop]
    have hset : page.array.set i (key, page.array[i].2) =
        page.array.take i ++ (key, page.array[i].2) :: page.array.drop (i + 1) :=
      List.set_eq_take_append_cons_drop.trans (if_pos hi)
    have hlays := hp
    rw [StoredAt, hsplit] at hlays
    obtain ⟨q, hq, hedits⟩ := hlays.setFirst_ok key
    rw [hindex] at hq
    rw [← hset] at hedits
    refine ⟨q, ?_, hp.edit hedits (fun e he => ?_) (by rw [List.length_set]; exact hp.fits)⟩
    · rw [setKeyAt, hp.size, if_neg (by omega), hq]
    · rcases List.mem_or_eq_of_mem_set he with he | rfl
      · exact hp.valid e he
      · exact ⟨hkey, (hp.valid _ (List.getElem_mem hi)).2⟩

/-! ### Search -/

/-- The loop of `ValueIndex` from `i` on. -/
theorem valueIndexLoop_eq (hp : StoredAt f p page) (value : PageId) (i : Nat) :
    valueIndexLoop f p value i = .ok
      (match (page.array.drop i).findIdx? (fun e => e.2 = value) with
        | some index => ((i + index : Nat) : Int)
        | none => -1) := by
  obtain ⟨n, hn⟩ : ∃ n, n = page.array.length - i := ⟨_, rfl⟩
  induction n generalizing i with
  | zero =>
      rw [valueIndexLoop, hp.size, if_neg (by omega), List.drop_of_length_le (by omega)]
      rfl
  | succ n ih =>
      have hi : i < page.array.length := by omega
      have hat : valueAt f p i = .ok page.array[i].2 := by
        rw [valueAt, hp.size, if_neg (by omega), hp.second_ok hi]
      have hnext : (i : Int) + 1 = (i + 1 : Nat) := rfl
      rw [valueIndexLoop, hp.size, if_pos (by omega), hat, List.drop_eq_getElem_cons hi,
        List.findIdx?_cons]
      simp only [bind, Except.bind]
      by_cases heq : value = page.array[i].2
      · rw [if_neg (not_not.mpr heq), if_pos (decide_eq_true heq.symm)]
        rfl
      · rw [if_pos heq, if_neg (by simpa using Ne.symm heq), hnext, ih (i + 1) (by omega)]
        cases (page.array.drop (i + 1)).findIdx? fun e => e.2 = value with
        | none => rfl
        | some j => simp [Nat.add_assoc, Nat.add_comm 1 j]

theorem valueIndex_eq (hp : StoredAt f p page) (value : PageId) :
    valueIndex f p value = .ok (page.valueIndex value) := by
  have hloop := valueIndexLoop_eq hp value 0
  simp only [Nat.zero_add, List.drop_zero] at hloop
  exact hloop

theorem valueIndex_lt (page : InternalPage K) (value : PageId) :
    page.valueIndex value < page.array.length := by
  rw [InternalPage.valueIndex]
  split
  case h_1 index hindex =>
    obtain ⟨hlt, -⟩ := List.findIdx?_eq_some_iff_getElem.mp hindex
    exact_mod_cast hlt
  case h_2 => omega

theorem lookup_eq (hp : StoredAt f p page) : lookup f cmp p key = page.lookup cmp key := by
  rw [lookup, hp.size, InternalPage.lookup]
  by_cases hshort : page.array.length > 1
  case neg => rw [if_pos (by omega), if_pos hshort]
  case pos =>
    have htest : ∀ i < page.array.length, isAbove f cmp p key i =
        .ok (holdsAt (fun e => decide (¬cmp e.1 key ≤ 0)) page.array i) := by
      intro i hi
      rw [isAbove, hp.first_ok hi, holdsAt, List.getElem?_eq_getElem hi]
      rfl
    have hloop := searchLoop_eq htest (Nat.sub_le page.array.length 1) hshort.le le_rfl
    rw [if_neg (by omega), if_neg (not_not.mpr hshort)]
    rw [Int.ofNat_one] at hloop
    simp only [hloop, bind, Except.bind]
    have hle := bisect_le (p := holdsAt (fun e => decide (¬cmp e.1 key ≤ 0)) page.array)
      page.array.length 1 page.array.length hshort.le
    have hone := le_bisect (p := holdsAt (fun e => decide (¬cmp e.1 key ≤ 0)) page.array)
      page.array.length 1 page.array.length
    generalize bisect (holdsAt (fun e => decide (¬cmp e.1 key ≤ 0)) page.array)
      page.array.length 1 page.array.length = b at hle hone
    have hslot : (b : Int) - 1 = (b - 1 : Nat) := by omega
    have hlt : b - 1 < page.array.length := by omega
    rw [hslot, hp.second_ok hlt, List.getElem?_eq_getElem hlt]

/-! ### Insertion and removal -/

/-- The page is new: the key bytes of slot 0 are those of a default key. -/
theorem populateNewRoot_ok [Inhabited K] (hp : StoredAt f p page)
    (hzero : p.Holds f.base (f.key.encode default)) (hdefault : f.key.Valid default)
    {oldValue newValue : PageId} (hkey : f.key.Valid key) (hold : f.value.Valid oldValue)
    (hnew : f.value.Valid newValue)
    (hrun : page.populateNewRoot oldValue key newValue = .ok page') :
    ∃ q, populateNewRoot f p oldValue key newValue = .ok q ∧ StoredAt f q page' := by
  rw [InternalPage.populateNewRoot, InternalPage.store] at hrun
  split at hrun
  case isFalse => cases hrun
  case isTrue hroom =>
    cases hrun
    have hone : f.offset (0 + 1) ≤ pageSize := hp.offset_le (Nat.le_of_succ_le hroom)
    have htwo : f.offset (1 + 1) ≤ pageSize := hp.offset_le hroom
    have hbase := f.base_le_offset 0
    have hnext := f.base_le_offset 1
    -- the bytes with the first value, and those with the second entry
    obtain ⟨m, hm⟩ : ∃ m : PageBytes,
        m = p.memcpy (f.offset 0 + f.key.width) (f.value.encode oldValue) := ⟨_, rfl⟩
    obtain ⟨m', hm'⟩ : ∃ m' : PageBytes,
        m' = m.memcpy (f.offset 1) (f.entry.encode (key, newValue)) := ⟨_, rfl⟩
    have hfirst : f.setSecond p 0 oldValue = .ok m := by
      rw [hm]
      exact EntryFormat.setSecond_ok (i := 0) hone oldValue
    have hsecond : f.setEntry m 1 key newValue = .ok m' := by
      rw [hm']
      exact EntryFormat.setEntry_ok (i := 1) htwo key newValue
    have hentry : m.Holds f.base (f.entry.encode (default, oldValue)) := by
      change m.Holds f.base (f.key.encode default ++ f.value.encode oldValue)
      have happend := hzero.append (f.value.encode oldValue)
      rw [Codec.length_encode, ← EntryFormat.offset_zero, ← hm, EntryFormat.offset_zero] at happend
      exact happend
    have hentries : m'.Holds f.base (f.entry.encodeAll [(default, oldValue), (key, newValue)]) := by
      rw [Codec.encodeAll_cons, Codec.encodeAll_cons, Codec.encodeAll_nil, List.append_nil, hm',
        f.offset_succ, EntryFormat.offset_zero, ← f.entry.length_encode (default, oldValue)]
      exact hentry.append _
    have hframe : ∀ x < f.base, m' x = p x := fun x hx => by
      rw [hm', Memory.memcpy_of_not_mem (.inl (by omega)), hm,
        Memory.memcpy_of_not_mem (.inl (by omega))]
    have hedits := hp.edits_setSize hframe hentries hroom
    refine ⟨m'.setSize 2, ?_, hp.edit hedits (fun e he => ?_) hroom⟩
    · simp only [populateNewRoot, hfirst, hsecond, bind, Except.bind]
      rfl
    · rcases List.mem_cons.mp he with rfl | he
      · exact ⟨hdefault, hold⟩
      · rw [List.mem_singleton.mp he]
        exact ⟨hkey, hnew⟩

theorem insertNodeAfter_ok (hp : StoredAt f p page) {oldValue newValue : PageId}
    (hkey : f.key.Valid key) (hnew : f.value.Valid newValue)
    (hrun : page.insertNodeAfter oldValue key newValue = .ok page') :
    ∃ q, insertNodeAfter f p oldValue key newValue = .ok (q, page'.array.length) ∧
      StoredAt f q page' := by
  simp only [InternalPage.insertNodeAfter, InternalPage.store] at hrun
  split at hrun
  case isTrue => cases hrun
  case isFalse hpos =>
  split at hrun
  case isFalse => cases hrun
  case isTrue hroom =>
    cases hrun
    have hlt := valueIndex_lt page oldValue
    obtain ⟨index, hindex⟩ :=
      Int.eq_ofNat_of_zero_le (show 0 ≤ page.valueIndex oldValue + 1 by omega)
    rw [hindex, Int.toNat_natCast] at hroom ⊢
    have hle : index ≤ page.array.length := by omega
    have hsplit := List.take_append_drop index page.array
    have htake : (page.array.take index).length = index := List.length_take_of_le hle
    have hlen : (page.array.take index ++ (key, newValue) :: page.array.drop index).length =
        page.array.length + 1 := by
      rw [List.length_append, List.length_cons, ← Nat.add_assoc, ← List.length_append, hsplit]
    have hlays := hp
    rw [StoredAt, ← hsplit] at hlays
    obtain ⟨q, hq, hedits⟩ := hlays.insertAt_ok (by rw [hsplit]; omega) key newValue
    rw [htake, hsplit, ← hlen] at hq
    refine ⟨q, ?_, hp.edit hedits (fun e he => ?_) hroom⟩
    · simp only [insertNodeAfter, valueIndex_eq hp, bind, Except.bind]
      rw [if_neg hpos, hindex]
      exact hq
    · rcases List.mem_append.mp he with he | he
      · exact hp.valid e (List.mem_of_mem_take he)
      · rcases List.mem_cons.mp he with rfl | he
        · exact ⟨hkey, hnew⟩
        · exact hp.valid e (List.mem_of_mem_drop he)

theorem remove_ok (hp : StoredAt f p page) {index : Int}
    (hrun : page.remove index = .ok page') :
    ∃ q, remove f p index = .ok q ∧ StoredAt f q page' := by
  rw [InternalPage.remove] at hrun
  split at hrun
  case isTrue => cases hrun
  case isFalse hin =>
    cases hrun
    rw [not_not] at hin
    obtain ⟨i, rfl⟩ := Int.eq_ofNat_of_zero_le hin.1
    have hi : i < page.array.length := by omega
    have hfits := hp.fits
    have htake : (page.array.take i).length = i := List.length_take_of_le hi.le
    have hdrop : (page.array.drop (i + 1)).length = page.array.length - (i + 1) := List.length_drop
    have hsplit : page.array = page.array.take i ++ page.array[i] :: page.array.drop (i + 1) := by
      rw [List.getElem_cons_drop, List.take_append_drop]
    have hsub : (page.array.take i ++ page.array.drop (i + 1)).Sublist page.array := by
      nth_rewrite 3 [hsplit]
      exact (List.Sublist.refl _).append (List.sublist_cons_self _ _)
    have hlays := hp
    rw [StoredAt, hsplit] at hlays
    have hedits := hlays.edits_removed
    rw [htake] at hedits
    have hend : (page.array.length : Int) = (i + (page.array.drop (i + 1)).length + 1 : Nat) := by
      omega
    have hdown := EntryFormat.shiftDown_ok (f := f) (p := p) (i := i)
      (n := (page.array.drop (i + 1)).length) (hp.offset_le (by omega))
    refine ⟨_, ?_, hp.edit hedits (fun e he => hp.valid e (hsub.subset he))
      (hsub.length_le.trans hfits)⟩
    rw [remove, hp.size, if_neg (not_not.mpr hin), hend,
      show (i : Int) + 1 = (i + 1 : Nat) from rfl, hdown]
    rfl

theorem removeAndReturnOnlyChild_ok (hp : StoredAt f p page)
    (hrun : page.removeAndReturnOnlyChild = .ok (value, page')) :
    ∃ q, removeAndReturnOnlyChild f p = .ok (value, q) ∧ StoredAt f q page' := by
  simp only [InternalPage.removeAndReturnOnlyChild] at hrun
  cases hat : page.valueAt 0 with
  | error e =>
      rw [hat] at hrun
      cases hrun
  | ok ret =>
      simp only [hat, bind, Except.bind] at hrun
      split at hrun
      case isTrue => cases hrun
      case isFalse hone =>
        cases hrun
        have hlen : page.array.length = 1 := by
          have hpos : page.array ≠ [] := by
            intro hnil
            rw [InternalPage.valueAt, if_neg (by decide), hnil] at hat
            cases hat
          have := List.length_pos_iff.mpr hpos
          omega
        have hsize : p.increaseSize (-1) = p.setSize (0 : Nat) := by
          rw [hp.increaseSize_eq, hlen]
          rfl
        have hzero := hp.getSize_setSize p (Nat.zero_le _)
        refine ⟨_, ?_, hp.edit (hp.edits_take (Nat.zero_le _))
          (fun e he => absurd he List.not_mem_nil) (Nat.zero_le _)⟩
        simp only [removeAndReturnOnlyChild, valueAt_eq hp, hat, hsize, hzero, bind, Except.bind]
        rfl

/-! ### Splitting and merging -/

theorem moveHalfTo_ok (hp : StoredAt f p page) (hr : StoredAt f r recipient)
    (hrun : page.moveHalfTo recipient = .ok (page', recipient')) :
    ∃ q s, moveHalfTo f p r = .ok (q, s) ∧ StoredAt f q page' ∧ StoredAt f s recipient' := by
  have hfits := hp.fits
  simp only [InternalPage.moveHalfTo, InternalPage.store] at hrun
  by_cases htotal : page.array.length = page.maxSize + 1
  case neg =>
    rw [if_pos htotal] at hrun
    cases hrun
  case pos =>
    rw [if_neg (not_not.mpr htotal), ← htotal] at hrun
    obtain ⟨mid, hmid⟩ : ∃ mid, mid = page.array.length / 2 := ⟨_, rfl⟩
    rw [← hmid] at hrun
    have hmidle : mid ≤ page.array.length := by omega
    by_cases hroom : (page.array.drop mid).length ≤ recipient.maxSize + 1
    case neg =>
      simp only [if_neg hroom, bind, Except.bind] at hrun
      cases hrun
    case pos =>
      simp only [if_pos hroom, bind, Except.bind] at hrun
      cases hrun
      obtain ⟨m, hm, -, hedits⟩ := hp.copyRange_edits [] hr hmidle
        (show (mid : Int) + -mid = 0 by omega) hroom
      have hmax : p.getMaxSize + 1 = page.array.length := by
        rw [hp.maxSize, htotal]
        rfl
      have hhalf : (page.array.length : Int).tdiv 2 = mid := by
        rw [hmid]
        rfl
      have hrest : (page.array.length : Int) - mid = (page.array.drop mid).length := by
        rw [List.length_drop]
        omega
      refine ⟨_, _, ?_, hp.edit (hp.edits_take hmidle)
        (fun e he => hp.valid e (List.mem_of_mem_take he))
        (by rw [List.length_take_of_le hmidle]; exact hmidle.trans hfits),
        hr.edit hedits (fun e he => hp.valid e (List.mem_of_mem_drop he)) hroom⟩
      simp only [moveHalfTo, hmax, hhalf, hp.size, hm, hrest, bind, Except.bind]
      exact if_neg (not_not.mpr rfl)

theorem moveAllTo_ok (hp : StoredAt f p page) (hr : StoredAt f r recipient)
    (hkey : f.key.Valid key)
    (hrun : page.moveAllTo recipient key = .ok (page', recipient')) :
    ∃ q s, moveAllTo f p r key = .ok (q, s) ∧ StoredAt f q page' ∧ StoredAt f s recipient' := by
  simp only [InternalPage.moveAllTo] at hrun
  cases hset : page.setKeyAt 0 key with
  | error e =>
      rw [hset] at hrun
      cases hrun
  | ok page₁ =>
      obtain ⟨q, hq, hstored⟩ := setKeyAt_ok hp hkey hset
      simp only [hset, InternalPage.store, bind, Except.bind] at hrun
      by_cases hroom : (recipient.array ++ page₁.array).length ≤ recipient.maxSize + 1
      case neg =>
        rw [if_neg hroom] at hrun
        cases hrun
      case pos =>
        simp only [if_pos hroom] at hrun
        split at hrun
        case isTrue => cases hrun
        case isFalse hmax =>
          cases hrun
          rw [not_not] at hmax
          have hlays := hr
          rw [StoredAt, ← List.append_nil recipient.array] at hlays
          obtain ⟨m, hm, -, hedits⟩ := hstored.copyRange_edits _ hlays (Nat.zero_le _)
            (show ((0 : Nat) : Int) + recipient.array.length = _ by omega) hroom
          rw [Int.ofNat_zero] at hm
          have hsum : (recipient.array.length : Int) + page₁.array.length =
              (recipient.array ++ page₁.array).length := by
            rw [List.length_append]
            rfl
          refine ⟨_, _, ?_, hstored.edit (hstored.edits_take (Nat.zero_le _))
            (fun e he => absurd he List.not_mem_nil) (Nat.zero_le _),
            hr.edit hedits (fun e he => ?_) hroom⟩
          · simp only [moveAllTo, hr.size, hq, hstored.size, hm, hsum, hstored.maxSize, bind,
              Except.bind]
            rw [hr.getSize_setSize m hroom, if_neg (by omega)]
            rfl
          · rcases List.mem_append.mp he with he | he
            · exact hr.valid e he
            · exact hstored.valid e he

/-! ### Borrowing -/

theorem copyLastFrom_ok {pair : K × PageId} (hr : StoredAt f r recipient)
    (hpair : f.entry.Valid pair) (hrun : recipient.copyLastFrom pair = .ok recipient') :
    ∃ s, copyLastFrom f r pair = .ok s ∧ StoredAt f s recipient' := by
  simp only [InternalPage.copyLastFrom, InternalPage.store] at hrun
  split at hrun
  case isTrue => cases hrun
  case isFalse hmax =>
  split at hrun
  case isFalse => cases hrun
  case isTrue hroom =>
    cases hrun
    have hlen : (recipient.array ++ [pair]).length = recipient.array.length + 1 := by simp
    obtain ⟨s, hs, hedits⟩ := hr.append_ok (by omega) pair
    refine ⟨s, ?_, hr.edit hedits (fun e he => ?_) hroom⟩
    · rw [copyLastFrom, hr.size, hr.maxSize, if_neg (by omega)]
      exact hs
    · rcases List.mem_append.mp he with he | he
      · exact hr.valid e he
      · rw [List.mem_singleton.mp he]
        exact hpair

theorem copyFirstFrom_ok {pair : K × PageId} (hr : StoredAt f r recipient)
    (hpair : f.entry.Valid pair) (hrun : recipient.copyFirstFrom pair = .ok recipient') :
    ∃ s, copyFirstFrom f r pair = .ok s ∧ StoredAt f s recipient' := by
  simp only [InternalPage.copyFirstFrom, InternalPage.store] at hrun
  split at hrun
  case isTrue => cases hrun
  case isFalse hmax =>
  split at hrun
  case isFalse => cases hrun
  case isTrue hroom =>
    cases hrun
    obtain ⟨s, hs, hedits⟩ := hr.prepend_ok (Nat.le_of_succ_le_succ hroom) pair
    refine ⟨s, ?_, hr.edit hedits (fun e he => ?_) hroom⟩
    · rw [copyFirstFrom, hr.size, hr.maxSize, if_neg (by omega)]
      exact hs
    · rcases List.mem_cons.mp he with rfl | he
      · exact hpair
      · exact hr.valid e he

theorem moveFirstToEndOf_ok (hp : StoredAt f p page) (hr : StoredAt f r recipient)
    (hrun : page.moveFirstToEndOf recipient = .ok (page', recipient')) :
    ∃ q s, moveFirstToEndOf f p r = .ok (q, s) ∧ StoredAt f q page' ∧ StoredAt f s recipient' := by
  obtain ⟨header, array⟩ := page
  cases array with
  | nil => cases hrun
  | cons x rest =>
      have hkey : InternalPage.keyAt ⟨header, x :: rest⟩ 0 = .ok x.1 := rfl
      have hvalue : InternalPage.valueAt ⟨header, x :: rest⟩ 0 = .ok x.2 := rfl
      simp only [InternalPage.moveFirstToEndOf, hkey, hvalue, bind, Except.bind] at hrun
      split at hrun
      case h_1 => cases hrun
      case h_2 recipient'' hcopy =>
        cases hrun
        have hvalid := hp.valid
        obtain ⟨s, hs, hstored⟩ := copyLastFrom_ok hr (hvalid x List.mem_cons_self) hcopy
        obtain ⟨q, hq, hedits⟩ := hp.dropFirst_ok
        have hfits : rest.length + 1 ≤ header.maxSize + 1 := hp.fits
        refine ⟨q, s, ?_, hp.edit hedits (fun e he => hvalid e (List.mem_cons_of_mem x he))
          (Nat.le_of_succ_le hfits), hstored⟩
        simp only [moveFirstToEndOf, keyAt_eq hp, valueAt_eq hp, hkey, hvalue, hq, hs, bind,
          Except.bind]
        rfl

theorem moveLastToFrontOf_ok (hp : StoredAt f p page) (hr : StoredAt f r recipient)
    (hrun : page.moveLastToFrontOf recipient = .ok (page', recipient')) :
    ∃ q s, moveLastToFrontOf f p r = .ok (q, s) ∧ StoredAt f q page' ∧
      StoredAt f s recipient' := by
  have hfits := hp.fits
  by_cases hlast : page.array.length - 1 < page.array.length
  case neg =>
    have hneg : (page.array.length : Int) - 1 < 0 := by omega
    simp only [InternalPage.moveLastToFrontOf, InternalPage.keyAt, if_pos hneg] at hrun
    cases hrun
  case pos =>
    have hindex : (page.array.length : Int) - 1 = (page.array.length - 1 : Nat) := by omega
    have hkey : page.keyAt ((page.array.length : Int) - 1) =
        .ok page.array[page.array.length - 1].1 := by
      rw [hindex, ← keyAt_eq hp, hp.keyAt_ok hlast]
    have hvalue : page.valueAt ((page.array.length : Int) - 1) =
        .ok page.array[page.array.length - 1].2 := by
      have hsize := hp.size
      rw [hindex, ← valueAt_eq hp, valueAt, if_neg (by omega), hp.second_ok hlast]
    simp only [InternalPage.moveLastToFrontOf, hkey, hvalue, bind, Except.bind] at hrun
    split at hrun
    case h_1 => cases hrun
    case h_2 recipient'' hcopy =>
      cases hrun
      obtain ⟨s, hs, hstored⟩ := copyFirstFrom_ok hr (hp.valid _ (List.getElem_mem hlast)) hcopy
      have hsize : p.increaseSize (-1) = p.setSize (page.array.length - 1 : Nat) := by
        rw [hp.increaseSize_eq, ← hindex]
        rfl
      refine ⟨_, s, ?_, hp.edit (hp.edits_take hlast.le)
        (fun e he => hp.valid e (List.mem_of_mem_take he)) ?_, hstored⟩
      · simp only [moveLastToFrontOf, hp.size, keyAt_eq hp, valueAt_eq hp, hkey, hvalue, hsize, hs,
          bind, Except.bind]
        rfl
      · rw [List.length_take_of_le hlast.le]
        omega

/-! ### A new page -/

theorem init_ok {keySize : KeySize} (hbase : f.base = 24) (hkey : f.key.width = keySize.bytes)
    (hvalue : f.value.width = 4) (p : PageBytes) {pageId parentId : PageId}
    (hpage : Codec.int32.Valid pageId) (hparent : Codec.int32.Valid parentId) :
    StoredAt f (init f p pageId parentId) (InternalPage.init keySize pageId parentId) := by
  have hwidth : f.entry.width = keySize.bytes + 4 := by rw [EntryFormat.entry_width, hkey, hvalue]
  have hmax : f.initMaxSize = (InternalPage.initMaxSize keySize : Nat) ∧
      0 < InternalPage.initMaxSize keySize ∧ InternalPage.initMaxSize keySize < 512 ∧
      24 + (InternalPage.initMaxSize keySize + 1) * (keySize.bytes + 4) ≤ pageSize := by
    rw [EntryFormat.initMaxSize, hbase, hwidth]
    cases keySize <;> decide
  obtain ⟨hinit, -, hlt, hroom⟩ := hmax
  have hfield {off : Nat} {v : Int} (q : PageBytes) (hv : Codec.int32.Valid v) :
      Memory.getInt32 (Memory.setInt32 q off v) off = v :=
    Memory.getInt32_setInt32 q off hv.1 hv.2
  simp only [init, setPageType, setSize, setPageId, PageBytes.setParentPageId, setMaxSize]
  constructor
  case pageType =>
    simp (disch := omega) only [Memory.getInt32_setInt32_of_disjoint]
    exact hfield _ ⟨by decide, by decide⟩
  case size =>
    simp (disch := omega) only [getSize, Memory.getInt32_setInt32_of_disjoint]
    exact hfield _ ⟨by decide, by decide⟩
  case maxSize =>
    simp only [getMaxSize]
    exact (hfield _ ⟨by omega, by omega⟩).trans hinit
  case parent =>
    simp (disch := omega) only [getParentPageId, Memory.getInt32_setInt32_of_disjoint]
    exact hfield _ hparent
  case pageId =>
    simp (disch := omega) only [getPageId, Memory.getInt32_setInt32_of_disjoint]
    exact hfield _ hpage
  case entries => exact Memory.holds_nil _ _
  case valid => exact fun e he => absurd he List.not_mem_nil
  case fits => exact Nat.zero_le _
  case room =>
    rw [EntryFormat.offset, hbase, hwidth]
    exact hroom
  case positive =>
    rw [hwidth]
    omega

end InternalBytes

end ScuDb
