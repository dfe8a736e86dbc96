import ScuDb.Page.PageBytesArray

/-!
The member functions of a leaf page, over its bytes.

`StoredAt` says that bytes hold a leaf. Where a function of `LeafPage` does
not fail, the function over the bytes does not either: it stays in the page,
returns the same, and leaves bytes that hold the leaf the other function
leaves.
-/

namespace ScuDb

open Foundations PageBytes

variable {K V : Type}

/-- The bytes hold the leaf. -/
structure LeafPage.StoredAt (f : EntryFormat K V) (p : PageBytes) (page : LeafPage K V) :
    Prop where
  lays : Lays f leafPageType p page.toPageHeader page.array
  next : p.getNextPageId = page.nextPageId
  base : 28 ≤ f.base

namespace LeafPage.StoredAt

variable {f : EntryFormat K V} {p : PageBytes} {page : LeafPage K V}

theorem isLeafPage (hp : StoredAt f p page) : p.isLeafPage = true :=
  decide_eq_true hp.lays.pageType

theorem congr {q : PageBytes} (hp : StoredAt f p page) (hsame : ∀ x < pageSize, q x = p x) :
    StoredAt f q page :=
  ⟨hp.lays.congr hsame, (Memory.getInt32_congr fun i hi => hsame _ (by rw [pageSize]; omega)).trans
    hp.next, hp.base⟩

theorem edit {q : PageBytes} {array' : List (K × V)} (hp : StoredAt f p page)
    (hq : Edits f p q array') (hvalid : ∀ e ∈ array', f.entry.Valid e)
    (hfits : array'.length ≤ page.maxSize + 1) : StoredAt f q { page with array := array' } := by
  have hbase := hp.base
  exact ⟨hp.lays.edit hq hvalid hfits, (hq.getInt32 (by omega) (by omega)).trans hp.next, hp.base⟩

theorem setNextPageId (hp : StoredAt f p page) {next : PageId}
    (hnext : Codec.int32.Valid next) :
    StoredAt f (p.setNextPageId next) { page with nextPageId := next } := by
  have hbase := hp.base
  refine ⟨hp.lays.update ?_ (fun x hx _ => ?_) ?_ hp.lays.valid hp.lays.fits, ?_, hp.base⟩
  · rw [← hp.lays.size]
    exact Memory.getInt32_setInt32_of_disjoint (by omega)
  · exact Memory.setInt32_of_not_mem (by omega)
  · exact hp.lays.entries.memcpy_of_disjoint (.inr (by rw [Memory.length_int32Bytes]; omega))
  · exact Memory.getInt32_setInt32 _ _ hnext.1 hnext.2

theorem setParentPageId (hp : StoredAt f p page) {parent : PageId}
    (hparent : Codec.int32.Valid parent) :
    StoredAt f (p.setParentPageId parent) { page with parentPageId := parent } :=
  ⟨hp.lays.setParentPageId hparent,
    (Memory.getInt32_setInt32_of_disjoint (by omega)).trans hp.next, hp.base⟩

/-- The link is set between the entries and the size. -/
theorem setNextPageId_setSize (p : PageBytes) (next : PageId) (n : Int) :
    (p.setNextPageId next).setSize n = (p.setSize n).setNextPageId next :=
  Memory.memcpy_comm p (.inr (by rw [Memory.length_int32Bytes]; omega))

/-- Only the size of the page is set, behind a copy above the header. -/
theorem linked {m : PageBytes} {array' : List (K × V)} {next : PageId}
    (hr : StoredAt f p page) (hedits : Edits f p (m.setSize array'.length) array')
    (hvalid : ∀ e ∈ array', f.entry.Valid e) (hfits : array'.length ≤ page.maxSize + 1)
    (hnext : Codec.int32.Valid next) :
    StoredAt f ((m.setNextPageId next).setSize array'.length)
      { page with array := array', nextPageId := next } := by
  rw [setNextPageId_setSize]
  exact (hr.edit hedits hvalid hfits).setNextPageId hnext

end LeafPage.StoredAt

namespace LeafBytes

open LeafPage

variable {f : EntryFormat K V} {cmp : K → K → Int} {p r : PageBytes}
  {page page' recipient recipient' : LeafPage K V} {key : K} {value : V}

/-- What is read from four bytes can be written to four bytes. -/
theorem valid_getInt32 (p : PageBytes) (off : Nat) : Codec.int32.Valid (p.getInt32 off) :=
  p.getInt32_bounds off

/-! ### Search -/

theorem keyIndex_eq (hp : StoredAt f p page) :
    keyIndex f cmp p key = .ok (page.keyIndex cmp key : Int) := by
  have htest : ∀ i < page.array.length, notBelow f cmp p key i =
      .ok (holdsAt (fun e => decide (0 ≤ cmp e.1 key)) page.array i) := by
    intro i hi
    rw [notBelow, hp.lays.first_ok hi, holdsAt, List.getElem?_eq_getElem hi]
    rfl
  have hloop := searchLoop_eq htest (Nat.sub_le page.array.length 0) (Nat.zero_le _) le_rfl
  rw [Int.ofNat_zero] at hloop
  rw [keyIndex, hp.lays.size, hloop]
  simp only [bind, Except.bind, pure, Except.pure, Int.sub_add_cancel]
  rfl

theorem keyIndex_le : page.keyIndex cmp key ≤ page.array.length :=
  bisect_le _ _ _ (Nat.zero_le _)

theorem lookup_eq (hp : StoredAt f p page) :
    lookup f cmp p key = .ok (page.lookup cmp key) := by
  simp only [lookup, keyIndex_eq hp, hp.lays.size, LeafPage.lookup, bind, Except.bind, pure,
    Except.pure]
  generalize page.keyIndex cmp key = i
  by_cases hi : i < page.array.length
  · rw [if_pos (by omega), hp.lays.first_ok hi, List.getElem?_eq_getElem hi]
    by_cases hz : cmp page.array[i].1 key = 0
    · simp only [if_pos hz, hp.lays.second_ok hi]
    · simp only [if_neg hz]
  · rw [if_neg (by omega), List.getElem?_eq_none (not_lt.mp hi)]

theorem getItem_eq (hp : StoredAt f p page) {i : Nat} (hi : i < page.array.length) :
    getItem f p i = .ok page.array[i] := by
  simp only [getItem, hp.lays.first_ok hi, hp.lays.second_ok hi, bind, Except.bind]
  rfl

/-! ### Insertion and removal -/

theorem insert_ok (hp : StoredAt f p page) (hkey : f.key.Valid key) (hvalue : f.value.Valid value)
    (hrun : page.insert cmp key value = .ok page') :
    ∃ q, insert f cmp p key value = .ok (q, page'.array.length) ∧ StoredAt f q page' := by
  have hle : page.keyIndex cmp key ≤ page.array.length := keyIndex_le
  simp only [LeafPage.insert, LeafPage.store] at hrun
  split at hrun
  case isFalse => cases hrun
  case isTrue hroom =>
    cases hrun
    have hindex : (page.array.take (page.keyIndex cmp key)).length = page.keyIndex cmp key :=
      List.length_take_of_le hle
    have hsplit := List.take_append_drop (page.keyIndex cmp key) page.array
    have hlen : (page.array.take (page.keyIndex cmp key) ++
        (key, value) :: page.array.drop (page.keyIndex cmp key)).length =
          page.array.length + 1 := by
      rw [List.length_append, List.length_cons, ← Nat.add_assoc, ← List.length_append, hsplit]
    have hlays := hp.lays
    rw [← hsplit] at hlays
    obtain ⟨q, hq, hedits⟩ := hlays.insertAt_ok (by rw [hsplit]; omega) key value
    rw [hindex, hsplit, ← hlen] at hq
    refine ⟨q, ?_, hp.edit hedits (fun e he => ?_) hroom⟩
    · simp only [insert, keyIndex_eq hp, bind, Except.bind]
      rw [if_neg (by omega)]
      exact hq
    · rcases List.mem_append.mp he with he | he
      · exact hp.lays.valid e (List.mem_of_mem_take he)
      · rcases List.mem_cons.mp he with rfl | he
        · exact ⟨hkey, hvalue⟩
        · exact hp.lays.valid e (List.mem_of_mem_drop he)

theorem removeAndDeleteRecord_ok (hp : StoredAt f p page) (cmp : K → K → Int) (key : K) :
    ∃ q, removeAndDeleteRecord f cmp p key =
        .ok (q, (page.removeAndDeleteRecord cmp key).array.length) ∧
      StoredAt f q (page.removeAndDeleteRecord cmp key) := by
  simp only [removeAndDeleteRecord, keyIndex_eq hp, hp.lays.size, LeafPage.removeAndDeleteRecord,
    bind, Except.bind, pure, Except.pure]
  generalize page.keyIndex cmp key = i
  by_cases hi : i < page.array.length
  case neg =>
    rw [if_pos (by omega), List.getElem?_eq_none (not_lt.mp hi)]
    exact ⟨p, rfl, hp⟩
  case pos =>
    rw [if_neg (by omega), hp.lays.keyAt_ok hi, List.getElem?_eq_getElem hi]
    by_cases hz : cmp key page.array[i].1 = 0
    case neg =>
      simp only [if_pos hz]
      exact ⟨p, rfl, hp⟩
    case pos =>
      have hfits := hp.lays.fits
      have hindex : (page.array.take i).length = i := List.length_take_of_le hi.le
      have hsplit : page.array = page.array.take i ++ page.array[i] :: page.array.drop (i + 1) := by
        rw [List.getElem_cons_drop, List.take_append_drop]
      have hsub : (page.array.take i ++ page.array.drop (i + 1)).Sublist page.array := by
        nth_rewrite 3 [hsplit]
        exact (List.Sublist.refl _).append (List.sublist_cons_self _ _)
      have hlays := hp.lays
      rw [hsplit] at hlays
      have hedits := hlays.edits_removed
      have hstored := hp.edit hedits (fun e he => hp.lays.valid e (hsub.subset he))
        (hsub.length_le.trans hfits)
      have hcount : (page.array.length : Int) - i - 1 = (page.array.drop (i + 1)).length := by
        rw [List.length_drop]
        omega
      have hrow : i + 1 + (page.array.drop (i + 1)).length ≤ page.maxSize + 1 := by
        rw [List.length_drop]
        omega
      have hmove : f.moveEntries p i (i + 1 : Nat) (page.array.drop (i + 1)).length = _ :=
        EntryFormat.moveEntries_ok i (i + 1) (hp.lays.offset_le hrow)
          (hp.lays.offset_le (by omega))
      rw [hindex] at hedits hstored
      simp only [if_neg (not_not.mpr hz), hcount]
      refine ⟨_, ?_, hstored⟩
      rw [show (i : Int) + 1 = (i + 1 : Nat) from rfl, hmove]
      simp only
      rw [hstored.lays.size]

/-! ### Splitting and merging -/

theorem moveHalfTo_ok (hp : StoredAt f p page) (hr : StoredAt f r recipient)
    (hrun : page.moveHalfTo recipient = .ok (page', recipient')) :
    ∃ q s, moveHalfTo f p r = .ok (q, s) ∧ StoredAt f q page' ∧ StoredAt f s recipient' := by
  have hbase := hp.base
  have hfits := hp.lays.fits
  simp only [LeafPage.moveHalfTo, LeafPage.store] at hrun
  by_cases hshort : page.array.length < page.maxSize + 1
  · rw [if_pos hshort] at hrun
    cases hrun
  rw [if_neg hshort] at hrun
  have htotal : page.array.length = page.maxSize + 1 := by omega
  rw [← htotal, List.take_length] at hrun
  obtain ⟨mid, hmid⟩ : ∃ mid, mid = page.array.length / 2 := ⟨_, rfl⟩
  rw [← hmid] at hrun
  have hmidle : mid ≤ page.array.length := by omega
  by_cases hroom : (page.array.drop mid).length ≤ recipient.maxSize + 1
  case neg =>
    simp only [if_neg hroom, bind, Except.bind] at hrun
    cases hrun
  case pos =>
    simp only [if_pos hroom, bind, Except.bind] at hrun
    cases hrun
    obtain ⟨m, hm, hframe, hedits⟩ := hp.lays.copyRange_edits [] hr.lays hmidle
      (show (mid : Int) + -mid = 0 by omega) hroom
    have hmax : p.getMaxSize + 1 = page.array.length := by
      rw [hp.lays.maxSize, htotal]
      rfl
    have hhalf : (page.array.length : Int).tdiv 2 = mid := by
      rw [hmid]
      rfl
    have hrest : (page.array.length : Int) - mid = (page.array.drop mid).length := by
      rw [List.length_drop]
      omega
    have hid : (m.setNextPageId page.nextPageId).getPageId = recipient.pageId := by
      rw [← hr.lays.pageId]
      refine Memory.getInt32_congr fun i hi => ?_
      rw [← hframe _ (by omega)]
      exact Memory.setInt32_of_not_mem (by omega)
    have hlink : Codec.int32.Valid recipient.pageId := hr.lays.pageId ▸ valid_getInt32 r 20
    have hlink' : Codec.int32.Valid page.nextPageId := hp.next ▸ valid_getInt32 p 24
    have hpage := hp.setNextPageId hlink
    refine ⟨_, _, ?_, hpage.edit (hpage.lays.edits_take hmidle)
      (fun e he => hp.lays.valid e (List.mem_of_mem_take he))
      (by rw [List.length_take_of_le hmidle]; exact hmidle.trans hfits), hr.linked hedits
        (fun e he => hp.lays.valid e (List.mem_of_mem_drop he)) hroom hlink'⟩
    simp only [moveHalfTo, hmax, hhalf, hm, hrest, hid, hp.next, bind, Except.bind]
    rfl

theorem moveAllTo_ok (hp : StoredAt f p page) (hr : StoredAt f r recipient)
    (hrun : page.moveAllTo recipient = .ok (page', recipient')) :
    ∃ q s, moveAllTo f p r = .ok (q, s) ∧ StoredAt f q page' ∧ StoredAt f s recipient' := by
  have hbase := hp.base
  simp only [LeafPage.moveAllTo, LeafPage.store] at hrun
  by_cases hroom : (recipient.array ++ page.array).length ≤ recipient.maxSize + 1
  case neg =>
    simp only [if_neg hroom, bind, Except.bind] at hrun
    cases hrun
  case pos =>
    simp only [if_pos hroom, bind, Except.bind] at hrun
    cases hrun
    have hlays := hr.lays
    rw [← List.append_nil recipient.array] at hlays
    obtain ⟨m, hm, hframe, hedits⟩ := hp.lays.copyRange_edits _ hlays (Nat.zero_le _)
      (show ((0 : Nat) : Int) + recipient.array.length = _ by omega) hroom
    have hsize : (m.setNextPageId page.nextPageId).increaseSize page.array.length =
        (m.setNextPageId page.nextPageId).setSize (recipient.array ++ page.array).length := by
      have hsame : (m.setNextPageId page.nextPageId).getSize = r.getSize := by
        refine Memory.getInt32_congr fun i hi => ?_
        rw [← hframe _ (by omega)]
        exact Memory.setInt32_of_not_mem (by omega)
      rw [increaseSize, hsame, hr.lays.size, List.length_append]
      rfl
    have hlink' : Codec.int32.Valid page.nextPageId := hp.next ▸ valid_getInt32 p 24
    refine ⟨_, _, ?_, hp.edit (hp.lays.edits_take (Nat.zero_le _))
      (fun e he => absurd he List.not_mem_nil) (Nat.zero_le _),
      hr.linked hedits (fun e he => ?_) hroom hlink'⟩
    · rw [Int.ofNat_zero] at hm
      simp only [moveAllTo, hr.lays.size, hp.lays.size, hm, hp.next, hsize, bind, Except.bind]
      rfl
    · rcases List.mem_append.mp he with he | he
      · exact hr.lays.valid e he
      · exact hp.lays.valid e he

/-! ### Borrowing -/

theorem copyLastFrom_ok {item : K × V} (hr : StoredAt f r recipient) (hitem : f.entry.Valid item)
    (hrun : recipient.copyLastFrom item = .ok recipient') :
    ∃ s, copyLastFrom f r item = .ok s ∧ StoredAt f s recipient' := by
  simp only [LeafPage.copyLastFrom, LeafPage.store] at hrun
  split at hrun
  case isFalse => cases hrun
  case isTrue hroom =>
    cases hrun
    rw [List.length_append, List.length_singleton] at hroom
    obtain ⟨s, hs, hedits⟩ := hr.lays.append_ok (Nat.le_of_succ_le_succ hroom) item
    refine ⟨s, hs, hr.edit hedits (fun e he => ?_) (by simpa using hroom)⟩
    rcases List.mem_append.mp he with he | he
    · exact hr.lays.valid e he
    · rw [List.mem_singleton.mp he]
      exact hitem

theorem copyFirstFrom_ok {item : K × V} (hr : StoredAt f r recipient) (hitem : f.entry.Valid item)
    (hrun : recipient.copyFirstFrom item = .ok recipient') :
    ∃ s, copyFirstFrom f r item = .ok s ∧ StoredAt f s recipient' := by
  simp only [LeafPage.copyFirstFrom, LeafPage.store] at hrun
  split at hrun
  case isFalse => cases hrun
  case isTrue hroom =>
    cases hrun
    obtain ⟨s, hs, hedits⟩ := hr.lays.prepend_ok (Nat.le_of_succ_le_succ hroom) item
    refine ⟨s, hs, hr.edit hedits (fun e he => ?_) hroom⟩
    rcases List.mem_cons.mp he with rfl | he
    · exact hitem
    · exact hr.lays.valid e he

theorem moveFirstToEndOf_ok (hp : StoredAt f p page) (hr : StoredAt f r recipient)
    (hrun : page.moveFirstToEndOf recipient = .ok (page', recipient')) :
    ∃ q s, moveFirstToEndOf f p r = .ok (q, s) ∧ StoredAt f q page' ∧ StoredAt f s recipient' := by
  obtain ⟨header, next, array⟩ := page
  cases array with
  | nil => cases hrun
  | cons x rest =>
      simp only [LeafPage.moveFirstToEndOf, LeafPage.getItem, List.getElem?_cons_zero, bind,
        Except.bind] at hrun
      split at hrun
      case h_1 => cases hrun
      case h_2 recipient'' hcopy =>
          cases hrun
          have hvalid := hp.lays.valid
          obtain ⟨s, hs, hstored⟩ := copyLastFrom_ok hr (hvalid x List.mem_cons_self) hcopy
          obtain ⟨q, hq, hedits⟩ := hp.lays.dropFirst_ok
          have hitem : getItem f p 0 = .ok x := getItem_eq hp (Nat.zero_lt_succ _)
          have hfits : rest.length + 1 ≤ header.maxSize + 1 := hp.lays.fits
          refine ⟨q, s, ?_, hp.edit hedits (fun e he => hvalid e (List.mem_cons_of_mem x he))
            (Nat.le_of_succ_le hfits), hstored⟩
          simp only [moveFirstToEndOf, hitem, hq, hs, bind, Except.bind]
          rfl

theorem moveLastToFrontOf_ok (hp : StoredAt f p page) (hr : StoredAt f r recipient)
    (hrun : page.moveLastToFrontOf recipient = .ok (page', recipient')) :
    ∃ q s, moveLastToFrontOf f p r = .ok (q, s) ∧ StoredAt f q page' ∧
      StoredAt f s recipient' := by
  have hfits := hp.lays.fits
  simp only [LeafPage.moveLastToFrontOf, LeafPage.getItem] at hrun
  by_cases hlast : page.array.length - 1 < page.array.length
  case neg =>
    rw [List.getElem?_eq_none (by omega)] at hrun
    cases hrun
  case pos =>
    rw [List.getElem?_eq_getElem hlast] at hrun
    simp only [bind, Except.bind] at hrun
    split at hrun
    case h_1 => cases hrun
    case h_2 recipient'' hcopy =>
      cases hrun
      obtain ⟨s, hs, hstored⟩ :=
        copyFirstFrom_ok hr (hp.lays.valid _ (List.getElem_mem hlast)) hcopy
      have hindex : (page.array.length : Int) - 1 = (page.array.length - 1 : Nat) := by omega
      have hsize : p.increaseSize (-1) = p.setSize (page.array.length - 1 : Nat) := by
        rw [hp.lays.increaseSize_eq, ← hindex]
        rfl
      have hitem : getItem f p (page.array.length - 1 : Nat) = .ok _ := getItem_eq hp hlast
      refine ⟨_, s, ?_, hp.edit (hp.lays.edits_take hlast.le)
        (fun e he => hp.lays.valid e (List.mem_of_mem_take he)) ?_, hstored⟩
      · simp only [moveLastToFrontOf, hp.lays.size, hindex, hitem, hsize, hs, bind, Except.bind]
        rfl
      · rw [List.length_take_of_le hlast.le]
        omega

/-! ### A new page -/

/-- The values of a leaf are record ids of eight bytes. -/
theorem init_ok {keySize : KeySize} (hbase : f.base = 28) (hkey : f.key.width = keySize.bytes)
    (hvalue : f.value.width = 8) (p : PageBytes) {pageId parentId : PageId}
    (hpage : Codec.int32.Valid pageId) (hparent : Codec.int32.Valid parentId) :
    StoredAt f (init f p pageId parentId) (LeafPage.init keySize pageId parentId) := by
  have hwidth : f.entry.width = keySize.bytes + 8 := by rw [EntryFormat.entry_width, hkey, hvalue]
  have hmax : f.initMaxSize = (LeafPage.initMaxSize keySize : Nat) ∧
      0 < LeafPage.initMaxSize keySize ∧ LeafPage.initMaxSize keySize < 512 ∧
      28 + (LeafPage.initMaxSize keySize + 1) * (keySize.bytes + 8) ≤ pageSize := by
    rw [EntryFormat.initMaxSize, hbase, hwidth]
    cases keySize <;> decide
  obtain ⟨hinit, -, hlt, hroom⟩ := hmax
  have hfield {off : Nat} {v : Int} (q : PageBytes) (hv : Codec.int32.Valid v) :
      Memory.getInt32 (Memory.setInt32 q off v) off = v :=
    Memory.getInt32_setInt32 q off hv.1 hv.2
  have hsizes : Codec.int32.Valid f.initMaxSize := ⟨by omega, by omega⟩
  simp only [init, setPageType, setSize, setPageId, PageBytes.setParentPageId,
    PageBytes.setNextPageId, setMaxSize]
  refine ⟨?_, ?_, hbase.ge⟩
  · constructor
    case pageType =>
      simp (disch := omega) only [Memory.getInt32_setInt32_of_disjoint]
      exact hfield _ ⟨by decide, by decide⟩
    case size =>
      simp (disch := omega) only [getSize, Memory.getInt32_setInt32_of_disjoint]
      exact hfield _ ⟨by decide, by decide⟩
    case maxSize =>
      simp only [getMaxSize]
      exact (hfield _ hsizes).trans hinit
    case parent =>
      simp (disch := omega) only [getParentPageId, Memory.getInt32_setInt32_of_disjoint]
      exact hfield _ hparent
    case pageId =>
      simp (disch := omega) only [getPageId, Memory.getInt32_setInt32_of_disjoint]
      exact hfield _ hpage
    case entries => exact Memory.holds_nil _ _
    case valid => exact fun e he => absurd he List.not_mem_nil
    case fits => exact Nat.zero_le _
    case room =>
      rw [EntryFormat.offset, hbase, hwidth]
      exact hroom
    case positive =>
      rw [hwidth]
      omega
  · simp (disch := omega) only [getNextPageId, Memory.getInt32_setInt32_of_disjoint]
    exact hfield _ ⟨by decide, by decide⟩

end LeafBytes

end ScuDb
