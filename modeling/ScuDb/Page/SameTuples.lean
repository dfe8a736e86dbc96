import ScuDb.Page.TablePageFrame

/-!
Pages with the same tuples at the same places, and taking an operation
back.

Two such pages may still differ in the number of slots, in free slots, in
the free space and in the header: an insertion that is taken back leaves
its slot in the directory. Taking back an operation that led from `p` to
`q`, on a page with the tuples of `q`, gives the tuples of `p`.
-/

namespace ScuDb

open Foundations

namespace TablePage

/-- The same tuples are stored under the same slots, and at the same
offsets. -/
structure SameTuples (p q : TablePage) : Prop where
  free : q.getFreeSpacePointer = p.getFreeSpacePointer
  slotAt : q.slotAt = p.slotAt
  offset : ∀ j, p.Occupied j → q.getTupleOffset j = p.getTupleOffset j

namespace SameTuples

variable {p q r : TablePage} {j : Nat}

theorem refl (p : TablePage) : SameTuples p p := ⟨rfl, rfl, fun _ _ => rfl⟩

theorem occupied_iff (h : SameTuples p q) : q.Occupied j ↔ p.Occupied j := by
  have hnone : q.slotAt j = none ↔ p.slotAt j = none := by rw [h.slotAt]
  rw [slotAt_eq_none_iff, slotAt_eq_none_iff] at hnone
  exact not_iff_not.mp hnone

theorem trans (h : SameTuples p q) (h' : SameTuples q r) : SameTuples p r := by
  constructor
  case free => exact h'.free.trans h.free
  case slotAt => exact h'.slotAt.trans h.slotAt
  case offset => exact fun j hj => (h'.offset j (h.occupied_iff.mpr hj)).trans (h.offset j hj)

theorem size (h : SameTuples p q) (hj : p.Occupied j) : q.getTupleSize j = p.getTupleSize j := by
  obtain ⟨t, ht⟩ := exists_slotAt hj
  have ht' : q.slotAt j = some t := by rw [h.slotAt, ht]
  have hsign := (slotAt_deleted ht').symm.trans (slotAt_deleted ht)
  have hlen := (slotAt_length ht').symm.trans (slotAt_length ht)
  rw [tupleLength, tupleLength] at hlen
  omega

theorem tupleLength (h : SameTuples p q) (hj : p.Occupied j) :
    q.tupleLength j = p.tupleLength j := by
  rw [TablePage.tupleLength, TablePage.tupleLength, h.size hj]

/-- A directory that does not reach into the tuples is all that a page
with the tuples of a page that is laid out needs. -/
theorem layout (h : SameTuples p q) (hp : Layout p) (hcount : 0 ≤ q.getTupleCount)
    (hdir : 24 + 8 * q.getTupleCount ≤ p.getFreeSpacePointer) : Layout q := by
  constructor
  case count => exact hcount
  case directory => rwa [h.free]
  case free =>
    rw [h.free]
    exact hp.free
  case inside =>
    intro i hi
    have hi' := h.occupied_iff.mp hi
    rw [h.free, h.offset i hi', h.tupleLength hi']
    exact hp.inside i hi'
  case apart =>
    intro i k hi hk
    have hi' := h.occupied_iff.mp hi
    have hk' := h.occupied_iff.mp hk
    rw [h.offset i hi', h.offset k hk', h.tupleLength hi', h.tupleLength hk']
    exact hp.apart i k hi' hk'

theorem of_fields (hp : Layout p) (hcount : q.getTupleCount = p.getTupleCount)
    (hfree : q.getFreeSpacePointer = p.getFreeSpacePointer)
    (hsize : ∀ i, q.getTupleSize i = p.getTupleSize i)
    (hoffset : ∀ i, p.Occupied i → q.getTupleOffset i = p.getTupleOffset i)
    (hbytes : ∀ x : Nat, 24 + 8 * p.getTupleCount ≤ x → q x = p x) : SameTuples p q := by
  refine ⟨hfree, funext fun i => ?_, hoffset⟩
  have hocc : q.Occupied i ↔ p.Occupied i := by rw [Occupied, Occupied, hcount, hsize]
  rw [TablePage.slotAt, TablePage.slotAt]
  by_cases hi : p.Occupied i
  · have hins := (hp.inside i hi).1
    have hdir := hp.directory
    have hnonneg := hp.count
    have hlen : q.tupleLength i = p.tupleLength i := by
      rw [TablePage.tupleLength, TablePage.tupleLength, hsize]
    rw [if_pos hi, if_pos (hocc.mpr hi), hsize, hoffset i hi, hlen]
    rw [Memory.read_congr fun k _ => hbytes _ (by omega)]
  · rw [if_neg hi, if_neg fun hq => hi (hocc.mp hq)]

end SameTuples

variable {p q g : TablePage} {s : Nat} {new : List UInt8}

/-! ### Free slots -/

/-- `ApplyDelete` of a free slot fails, or clears an offset that an update
to a tuple of no bytes left there. -/
theorem applyDelete_free (hp : Layout p) (hs : ¬p.Occupied s) (hrun : p.applyDelete s = .ok q) :
    Layout q ∧ SameTuples p q ∧ q.getTupleCount = p.getTupleCount ∧ ∀ x < 16, q x = p x := by
  have hcount := hp.count
  have hdir := hp.directory
  have hend := hp.free
  simp only [applyDelete] at hrun
  split at hrun
  case isTrue => cases hrun
  case isFalse hlt =>
    have hlt : (s : Int) < p.getTupleCount := not_not.mp hlt
    have hzero : p.getTupleSize s = 0 := by
      by_contra hne
      exact hs ⟨hlt, hne⟩
    have hmove (n : Nat) : p.memmove p.getFreeSpacePointer.toNat p.getFreeSpacePointer.toNat n =
        p := by
      funext x
      simp only [Memory.memmove]
      split
      · congr 1
        omega
      · rfl
    simp only [hzero, Int.lt_irrefl, if_false, Int.add_zero, hmove] at hrun
    split at hrun
    case isTrue => cases hrun
    case isFalse =>
      generalize hr : ((p.setFreeSpacePointer p.getFreeSpacePointer).setTupleSize
        s 0).setTupleOffset s 0 = r at hrun
      have hcountr : r.getTupleCount = p.getTupleCount := by simp [← hr]
      have hfreer : r.getFreeSpacePointer = p.getFreeSpacePointer := by
        rw [← hr, getFreeSpacePointer_setTupleOffset, getFreeSpacePointer_setTupleSize]
        exact getFreeSpacePointer_setFreeSpacePointer _ (by omega) (by omega)
      have hsizer (j : Nat) : r.getTupleSize j = p.getTupleSize j := by
        rw [← hr, getTupleSize_setTupleOffset,
          getTupleSize_setTupleSize _ _ _ (by decide) (by decide),
          getTupleSize_setFreeSpacePointer]
        split
        case isTrue hj => rw [hj, hzero]
        case isFalse => rfl
      have hoffsetr (j : Nat) (hj : j ≠ s) : r.getTupleOffset j = p.getTupleOffset j := by
        rw [← hr, getTupleOffset_setTupleOffset _ _ _ (by decide) (by decide), if_neg hj,
          getTupleOffset_setTupleSize, getTupleOffset_setFreeSpacePointer]
      have hbytesr (x : Nat) (hx : x < 16 ∨ 24 + 8 * p.getTupleCount ≤ x) : r x = p x := by
        rw [← hr]
        refine (Memory.setInt32_of_not_mem (by omega)).trans ?_
        refine (Memory.setInt32_of_not_mem (by omega)).trans ?_
        exact Memory.setInt32_of_not_mem (by omega)
      obtain ⟨hsizeq, hoffsetq, hbytesq⟩ := shiftOffsets_spec r
        (fun sizeI offsetI => sizeI ≠ 0 ∧ offsetI < p.getTupleOffset s) 0 fun i _ _ => by
          have hbounds := Memory.getInt32_bounds r (24 + 8 * i)
          rw [Int.add_zero]
          exact hbounds
      rw [Except.ok.inj hrun] at hsizeq hoffsetq hbytesq
      have hsame : SameTuples p q := by
        apply SameTuples.of_fields hp
        · rw [← hcountr]
          exact getInt32_eq_of_header (fun x hx => hbytesq x (Or.inl hx)) (by omega)
        · rw [← hfreer]
          exact getInt32_eq_of_header (fun x hx => hbytesq x (Or.inl hx)) (by omega)
        · exact fun i => (hsizeq i).trans (hsizer i)
        · intro i hi
          have his : i ≠ s := fun heq => hs (heq ▸ hi)
          rw [hoffsetq, Int.add_zero, ite_self, hoffsetr i his]
        · intro x hx
          rw [hbytesq x (Or.inr (by omega)), hbytesr x (Or.inr hx)]
      have hcountq : q.getTupleCount = p.getTupleCount := by
        rw [← hcountr]
        exact getInt32_eq_of_header (fun x hx => hbytesq x (Or.inl hx)) (by omega)
      refine ⟨hsame.layout hp (by omega) (by omega), hsame, hcountq, fun x hx => ?_⟩
      rw [hbytesq x (Or.inl (by omega)), hbytesr x (Or.inl hx)]

/-- `RollbackDelete` of a free slot fails or does nothing. -/
theorem rollbackDelete_free (hs : ¬p.Occupied s) (hrun : p.rollbackDelete s = .ok q) : q = p := by
  rw [rollbackDelete] at hrun
  split at hrun
  case isTrue => cases hrun
  case isFalse hlt =>
    have hzero : p.getTupleSize s = 0 := by
      by_contra hne
      exact hs ⟨not_not.mp hlt, hne⟩
    simp only [hzero, Int.lt_irrefl, if_false] at hrun
    cases hrun
    rfl

/-! ### Taking an operation back -/

/-- An insertion: the tuple is the lowest one. -/
theorem Stored.undo (h : Stored p q s new) (hp : Layout p) (hnew : new ≠ []) (hg : Layout g)
    (hsame : SameTuples q g) :
    ∃ g', g.applyDelete s = .ok g' ∧ Layout g' ∧ SameTuples p g' ∧
      g'.getTupleCount = g.getTupleCount ∧ ∀ x < 16, g' x = g x := by
  have hslotq : q.slotAt = Function.update p.slotAt s (some ⟨false, new⟩) := by
    funext j
    rw [h.slotAt hp hnew, Function.update_apply]
  have hs : q.Occupied s := (h.occupied_iff hnew s).mpr (Or.inl rfl)
  have hstored : g.slotAt s = some ⟨false, new⟩ := by
    rw [hsame.slotAt, hslotq, Function.update_self]
  obtain ⟨g', hrun, hslid⟩ := applyDelete_slid hg (hsame.occupied_iff.mpr hs)
  obtain ⟨g'', hrun', hlayout, -, hheader, hslot⟩ := applyDelete_spec hg hstored
  rw [hrun] at hrun'
  cases hrun'
  refine ⟨g', hrun, hlayout, ?_, hslid.count, hheader⟩
  constructor
  case free =>
    have hlen : new.length = g.tupleLength s := slotAt_length hstored
    have hfree := hslid.free
    have hfreeg := hsame.free
    have hfreeq := h.free
    rw [List.length_nil] at hfree
    omega
  case slotAt =>
    have hnone : p.slotAt s = none := slotAt_eq_none_iff.mpr h.free_slot
    rw [hslot, hsame.slotAt, hslotq, Function.update_idem, ← hnone, Function.update_eq_self]
  case offset =>
    intro j hj
    have hjs : j ≠ s := by
      rintro rfl
      exact h.free_slot hj
    have hjq : q.Occupied j := (h.occupied_iff hnew j).mpr (Or.inr hj)
    have hpos : 0 < new.length := List.length_pos_of_ne_nil hnew
    have hins := (hp.inside j hj).1
    have hfreeq := h.free
    have hoffs : g.getTupleOffset s = q.getFreeSpacePointer := by
      rw [hsame.offset s hs, h.offset s hs.1, if_pos rfl]
    have hoffj : g.getTupleOffset j = p.getTupleOffset j := by
      rw [hsame.offset j hjq, h.offset j hjq.1, if_neg hjs]
    rw [hslid.offset j (hsame.occupied_iff.mpr hjq) hjs, if_neg (by omega), hoffj]

theorem markDelete_eq (hlive : ∃ old, p.slotAt s = some ⟨false, old⟩) :
    (p.markDelete s).2 = p.setTupleSize s (-p.getTupleSize s) ∧ 0 < p.getTupleSize s := by
  obtain ⟨old, hold⟩ := hlive
  have hocc := occupied_of_slotAt hold
  have hsign := (slotAt_deleted hold).not.mp Bool.false_ne_true
  have hne := hocc.2
  have hpos : p.getTupleSize s > 0 := by omega
  rw [markDelete, if_neg (Int.not_le.mpr hocc.1)]
  simp only [if_neg hsign, if_pos hpos]
  exact ⟨trivial, hpos⟩

theorem markDelete_undo (hp : Layout p) (hlive : ∃ old, p.slotAt s = some ⟨false, old⟩)
    (hg : Layout g) (hsame : SameTuples (p.markDelete s).2 g) :
    ∃ g', g.rollbackDelete s = .ok g' ∧ Layout g' ∧ SameTuples p g' ∧
      g'.getTupleCount = g.getTupleCount ∧ ∀ x < 16, g' x = g x := by
  obtain ⟨hmark, -⟩ := markDelete_eq hlive
  obtain ⟨-, -, -, hslotq⟩ := markDelete_spec hp (s := s)
  obtain ⟨old, hold⟩ := hlive
  have hmarked : g.slotAt s = some ⟨true, old⟩ := by
    rw [hsame.slotAt, hslotq, Function.update_self, hold, Option.map_some]
  have hocc := occupied_of_slotAt hmarked
  have hneg : g.getTupleSize s < 0 := (slotAt_deleted hmarked).mp rfl
  obtain ⟨g', hrun, hlayout, -, hheader, hslot⟩ := rollbackDelete_spec hg hocc
  have hg' : g' = g.setTupleSize s (-g.getTupleSize s) := by
    rw [rollbackDelete, if_neg (not_not.mpr hocc.1)] at hrun
    simp only [if_pos hneg] at hrun
    exact (Except.ok.inj hrun).symm
  refine ⟨g', hrun, hlayout, ?_, ?_, hheader⟩
  · constructor
    case free =>
      rw [hg', getFreeSpacePointer_setTupleSize, hsame.free, hmark,
        getFreeSpacePointer_setTupleSize]
    case slotAt =>
      rw [hslot, hmarked, hsame.slotAt, hslotq, Function.update_idem, Option.map_some, ← hold,
        Function.update_eq_self]
    case offset =>
      intro j hj
      have hjq : (p.markDelete s).2.Occupied j := by
        by_cases hjs : j = s
        · rw [hjs]
          exact hsame.occupied_iff.mp hocc
        · obtain ⟨t, ht⟩ := exists_slotAt hj
          exact occupied_of_slotAt ((update_some_ne hslotq hjs).trans ht)
      rw [hg', getTupleOffset_setTupleSize, hsame.offset j hjq, hmark, getTupleOffset_setTupleSize]
  · rw [hg', getTupleCount_setTupleSize]

/-- An update, where there is room for the old tuple: the tuples below are
moved back. -/
theorem Slid.undo {old : List UInt8} (h : Slid p q s new) (hp : Layout p)
    (hold : p.slotAt s = some ⟨false, old⟩) (hnew : new ≠ []) (hmarked : p.NoMarkedBelow new s)
    (hq : Layout q) (hg : Layout g) (hsame : SameTuples q g)
    (hroom : (old.length : Int) ≤ g.getFreeSpaceSize + new.length) :
    ∃ g', g.updateTuple old s = .ok (some new, g') ∧ Layout g' ∧ SameTuples p g' ∧
      g'.getTupleCount = g.getTupleCount ∧ ∀ x < 16, g' x = g x := by
  have hs := occupied_of_slotAt hold
  have hlenp : old.length = p.tupleLength s := slotAt_length hold
  have hslotq : q.slotAt = Function.update p.slotAt s (some ⟨false, new⟩) := by
    have hdir := hq.directory
    have hcount := h.count
    have hfree := h.free
    funext j
    rw [h.slotAt hp hs (by omega), if_neg hnew, Function.update_apply]
  have hsq : q.Occupied s := by
    apply occupied_of_slotAt
    rw [hslotq, Function.update_self]
  have hstored : g.slotAt s = some ⟨false, new⟩ := by
    rw [hsame.slotAt, hslotq, Function.update_self]
  have hsg := occupied_of_slotAt hstored
  have hleng : new.length = g.tupleLength s := slotAt_length hstored
  have hjq (j : Nat) (hj : p.Occupied j) : q.Occupied j := (h.occupied_iff hs j).mpr (by
    split
    · exact hnew
    · exact hj)
  have hoffs : g.getTupleOffset s = p.getTupleOffset s + p.tupleLength s - new.length :=
    (hsame.offset s hsq).trans (h.offset_self hnew)
  -- the tuples below `s` are the same before and after the update
  have hbelow (j : Nat) (hj : p.Occupied j) (hjs : j ≠ s) :
      (g.getTupleOffset j < g.getTupleOffset s ↔ p.getTupleOffset j < p.getTupleOffset s) ∧
        g.getTupleOffset j = if p.getTupleOffset j < p.getTupleOffset s
          then p.getTupleOffset j + p.tupleLength s - new.length else p.getTupleOffset j := by
    have hoffj := (hsame.offset j (hjq j hj)).trans (h.offset j hj hjs)
    refine ⟨?_, hoffj⟩
    have hapart := hp.apart j s hj hs hjs
    have hposj : 0 < p.tupleLength j := Int.natAbs_pos.mpr hj.2
    rw [hoffj, hoffs]
    split <;> omega
  have hsizes : g.getTupleSize s = new.length := by
    rw [hsame.size hsq, h.size s hs.1, if_pos rfl]
  have hmarkedg : g.NoMarkedBelow old s := by
    intro j hj hneg hlt
    have hjs : j ≠ s := by
      rintro rfl
      exact Int.lt_irrefl _ hlt
    have hjp : p.Occupied j := by
      have hocc := (h.occupied_iff hs j).mp (hsame.occupied_iff.mp hj)
      rwa [if_neg hjs] at hocc
    have hsizej : g.getTupleSize j = p.getTupleSize j := by
      rw [hsame.size (hjq j hjp), h.size j hjp.1, if_neg hjs]
    have heq := hmarked j hjp (hsizej ▸ hneg) ((hbelow j hjp hjs).1.mp hlt)
    have hsize : (p.getTupleSize s).natAbs = old.length := hlenp.symm
    omega
  obtain ⟨g', hrun, hlayout, -, hheader, hslot⟩ := updateTuple_spec hg hstored hroom hmarkedg
  have hpos : 0 < new.length := List.length_pos_of_ne_nil hnew
  obtain ⟨g'', hrun', hslid⟩ := updateTuple_slid hg hsg (by omega) (by omega) hmarkedg
  rw [hrun] at hrun'
  cases hrun'
  refine ⟨g', hrun, hlayout, ?_, hslid.count, hheader⟩
  have hold' : old ≠ [] := by
    have hposp : 0 < p.tupleLength s := Int.natAbs_pos.mpr hs.2
    exact List.ne_nil_of_length_pos (by omega)
  constructor
  case free =>
    have hfree := hslid.free
    have hfreeg := hsame.free
    have hfreeq := h.free
    omega
  case slotAt =>
    rw [hslot, if_neg hold', hsame.slotAt, hslotq, Function.update_idem, ← hold,
      Function.update_eq_self]
  case offset =>
    intro j hj
    by_cases hjs : j = s
    · rw [hjs, hslid.offset_self hold', hoffs]
      omega
    · obtain ⟨hiff, hoffj⟩ := hbelow j hj hjs
      rw [hslid.offset j (hsame.occupied_iff.mpr (hjq j hj)) hjs]
      simp only [hoffj]
      split <;> omega

end TablePage

end ScuDb
