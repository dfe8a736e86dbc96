import Mathlib.Algebra.Order.BigOperators.Group.Finset
import ScuDb.Page.TablePageFrame

/-!
The free space of a page, which is stored nowhere: the free space pointer
and the sizes of the slots have to add up.

Only sizes and the slot count matter here. So the sums also hold on a page
whose slots have come to point at the wrong bytes; the tests on the free
space keep the data out of the directory wherever the offsets point.
-/

namespace ScuDb

open Foundations

/-- A tuple that is put into a page has bytes. -/
def TablePageOp.Sized : TablePageOp → Prop
  | insertTuple tuple => tuple ≠ []
  | updateTuple newTuple _ => newTuple ≠ []
  | _ => True

instance : DecidablePred TablePageOp.Sized := fun op => by
  cases op <;> (unfold TablePageOp.Sized; infer_instance)

namespace TablePage

/-- The number of bytes of all tuples. -/
def usedSpace (p : TablePage) : Nat := ∑ i ∈ Finset.range p.getTupleCount.toNat, p.tupleLength i

/-- The free space pointer and the sizes add up to the page, and the
directory ends before the tuples. -/
structure Accounted (p : TablePage) : Prop where
  count : 0 ≤ p.getTupleCount
  free : p.getFreeSpacePointer = 512 - p.usedSpace
  directory : 24 + 8 * p.getTupleCount ≤ p.getFreeSpacePointer

/-- Slot `s` has been given `n` bytes in place of those it had. -/
structure Resized (p q : TablePage) (s n : Nat) : Prop where
  slot : s < p.getTupleCount
  count : q.getTupleCount = p.getTupleCount
  free : q.getFreeSpacePointer = p.getFreeSpacePointer + p.tupleLength s - n
  length : ∀ j : Nat, j < p.getTupleCount → q.tupleLength j = if j = s then n else p.tupleLength j

variable {p q : TablePage} {s n : Nat} {new tuple : List UInt8}

theorem Accounted.free_le (h : Accounted p) : p.getFreeSpacePointer ≤ 512 := by
  rw [h.free]
  omega

theorem accounted_init (m : TablePage) (id prev : PageId) :
    Accounted (m.init id pageSize prev) := by
  have hcount := getTupleCount_init m id prev
  have hfree := getFreeSpacePointer_init m id prev
  refine ⟨hcount.ge, ?_, ?_⟩
  · rw [hfree, usedSpace, hcount]
    rfl
  · rw [hfree, hcount]
    decide

/-- The bytes of all tuples after one has been given another size. -/
theorem sum_range_replace {k : Nat} (f : Nat → Nat) (hs : s < k) :
    (∑ i ∈ Finset.range k, if i = s then n else f i) + f s = (∑ i ∈ Finset.range k, f i) + n := by
  have hmem := Finset.mem_range.mpr hs
  rw [← Finset.add_sum_erase _ _ hmem, ← Finset.add_sum_erase (Finset.range k) f hmem, if_pos rfl]
  have hrest : ∑ i ∈ (Finset.range k).erase s, (if i = s then n else f i) =
      ∑ i ∈ (Finset.range k).erase s, f i :=
    Finset.sum_congr rfl fun i hi => if_neg (Finset.ne_of_mem_erase hi)
  omega

theorem Accounted.length_le (h : Accounted p) (hs : (s : Int) < p.getTupleCount) :
    p.getFreeSpacePointer + p.tupleLength s ≤ 512 := by
  have hle : p.tupleLength s ≤ p.usedSpace :=
    Finset.single_le_sum (fun _ _ => Nat.zero_le _) (Finset.mem_range.mpr (by omega))
  rw [h.free]
  omega

theorem Resized.accounted (h : Resized p q s n) (hp : Accounted p)
    (hroom : 24 + 8 * p.getTupleCount + n ≤ p.getFreeSpacePointer + p.tupleLength s) :
    Accounted q := by
  have hslot := h.slot
  have hcount := h.count
  have hfree := h.free
  have hpfree := hp.free
  have hnonneg := hp.count
  have hused : q.usedSpace + p.tupleLength s = p.usedSpace + n := by
    rw [usedSpace, usedSpace, hcount,
      ← sum_range_replace p.tupleLength (show s < p.getTupleCount.toNat by omega)]
    congr 1
    refine Finset.sum_congr rfl fun j hj => h.length j ?_
    have hlt := Finset.mem_range.mp hj
    omega
  refine ⟨by omega, by omega, by omega⟩

/-! ### The operations -/

/-- The loop that corrects offsets changes nothing else. -/
theorem getInt32_shiftOffsets (p : TablePage) (moved : Int → Int → Bool) (delta : Int) {a : Nat}
    (ha : a + 4 ≤ 24 ∨ ∃ j, a = 28 + 8 * j) :
    Memory.getInt32 (p.shiftOffsets moved delta) a = p.getInt32 a := by
  unfold shiftOffsets
  induction p.slots using List.reverseRecOn with
  | nil => rfl
  | append_singleton slots i ih =>
      rw [List.foldl_append, List.foldl_cons, List.foldl_nil]
      split
      · refine (Memory.getInt32_setInt32_of_disjoint ?_).trans ih
        rcases ha with ha | ⟨j, rfl⟩
        · omega
        · omega
      · exact ih

theorem resized_markDelete (hp : Accounted p) (hs : (s : Int) < p.getTupleCount) :
    Resized p (p.setTupleSize s (-p.getTupleSize s)) s (p.tupleLength s) := by
  have hle := hp.length_le hs
  have hdir := hp.directory
  have hnonneg := hp.count
  have habs : p.tupleLength s = (p.getTupleSize s).natAbs := rfl
  refine ⟨hs, getTupleCount_setTupleSize _ _ _, ?_, fun j hj => ?_⟩
  · rw [getFreeSpacePointer_setTupleSize]
    omega
  · rw [tupleLength, getTupleSize_setTupleSize _ _ _ (by omega) (by omega)]
    split
    · rw [Int.natAbs_neg]
      rfl
    · rfl

theorem Accounted.markDelete (hp : Accounted p) (s : Nat) : Accounted (p.markDelete s).2 := by
  unfold TablePage.markDelete
  split
  · exact hp
  · rename_i hs
    have hdir := hp.directory
    simp only
    split
    · exact hp
    · split
      · exact (resized_markDelete hp (by omega)).accounted hp (by omega)
      · exact hp

theorem Accounted.rollbackDelete (hp : Accounted p) (hrun : p.rollbackDelete s = .ok q) :
    Accounted q := by
  unfold TablePage.rollbackDelete at hrun
  split at hrun
  · cases hrun
  · rename_i hs
    have hdir := hp.directory
    cases hrun
    split
    · exact (resized_markDelete hp (by omega)).accounted hp (by omega)
    · exact hp

theorem Accounted.updateTuple (hp : Accounted p) {old : Option (List UInt8)}
    (hrun : p.updateTuple new s = .ok (old, q)) : Accounted q := by
  have hdir := hp.directory
  have hend := hp.free_le
  have hnonneg := hp.count
  have hrun' := hrun
  simp only [TablePage.updateTuple] at hrun
  split at hrun
  · cases hrun
    exact hp
  · rename_i hslot
    split at hrun
    · cases hrun
      exact hp
    · rename_i hlive
      split at hrun
      · cases hrun
        exact hp
      · rename_i hroom
        split at hrun
        · cases hrun
        · rename_i hin
          have hs : (s : Int) < p.getTupleCount := by omega
          have hle := hp.length_le hs
          have hlen : p.getTupleSize s = p.tupleLength s := by
            rw [tupleLength]
            omega
          have hroom' : 24 + 8 * p.getTupleCount + new.length ≤
              p.getFreeSpacePointer + p.tupleLength s := by
            rw [getFreeSpaceSize] at hroom
            omega
          have hin : p.getFreeSpacePointer ≤ p.getTupleOffset s := not_not.mp hin
          rw [updateTuple_eq hs (by omega) hroom hin] at hrun'
          cases hrun'
          have hfield {a : Nat} := getInt32_slide hin hroom' (a := a)
          refine Resized.accounted (s := s) (n := new.length) ⟨hs, ?_, ?_, fun j hj => ?_⟩ hp hroom'
          · refine (getInt32_shiftOffsets _ _ _ (.inl (by omega))).trans ?_
            exact (getTupleCount_setTupleSize _ _ _).trans (hfield (by omega) (by omega))
          · refine (getInt32_shiftOffsets _ _ _ (.inl (by omega))).trans ?_
            refine (getFreeSpacePointer_setTupleSize _ _ _).trans ?_
            exact getFreeSpacePointer_slide hin hroom' hnonneg hle
          · have hsize : getTupleSize (((p.slide (p.getTupleOffset s) (p.tupleLength s)
                new).setTupleSize s new.length).shiftOffsets
                  (fun sizeI offsetI => sizeI > 0 ∧ offsetI < p.getTupleOffset s + p.tupleLength s)
                  (p.tupleLength s - new.length)) j =
                if j = s then (new.length : Int) else p.getTupleSize j := by
              refine (getInt32_shiftOffsets _ _ _ (.inr ⟨j, rfl⟩)).trans ?_
              refine (getTupleSize_setTupleSize _ _ _ (by omega) (by omega)).trans ?_
              split
              · rfl
              · exact hfield (by omega) (by omega)
            rw [tupleLength, hsize]
            split
            · exact Int.natAbs_natCast _
            · rfl

theorem Accounted.applyDelete (hp : Accounted p) (hrun : p.applyDelete s = .ok q) :
    Accounted q := by
  have hdir := hp.directory
  have hend := hp.free_le
  have hnonneg := hp.count
  have hrun' := hrun
  simp only [TablePage.applyDelete] at hrun
  split at hrun
  · cases hrun
  · rename_i hslot
    split at hrun
    · cases hrun
    · rename_i hin
      have hs : (s : Int) < p.getTupleCount := not_not.mp hslot
      have hin : p.getFreeSpacePointer ≤ p.getTupleOffset s := not_not.mp hin
      have hle := hp.length_le hs
      have hroom : 24 + 8 * p.getTupleCount + ([] : List UInt8).length ≤
          p.getFreeSpacePointer + p.tupleLength s := by
        rw [List.length_nil]
        omega
      rw [applyDelete_eq hs hin] at hrun'
      cases hrun'
      have hfield {a : Nat} := getInt32_slide hin hroom (a := a)
      refine Resized.accounted (s := s) (n := 0) ⟨hs, ?_, ?_, fun j hj => ?_⟩ hp hroom
      · refine (getInt32_shiftOffsets _ _ _ (.inl (by omega))).trans ?_
        refine (getTupleCount_setTupleOffset _ _ _).trans ?_
        exact (getTupleCount_setTupleSize _ _ _).trans (hfield (by omega) (by omega))
      · refine (getInt32_shiftOffsets _ _ _ (.inl (by omega))).trans ?_
        refine (getFreeSpacePointer_setTupleOffset _ _ _).trans ?_
        refine (getFreeSpacePointer_setTupleSize _ _ _).trans ?_
        exact getFreeSpacePointer_slide hin hroom hnonneg hle
      · have hsize : getTupleSize ((((p.slide (p.getTupleOffset s) (p.tupleLength s)
              []).setTupleSize s 0).setTupleOffset s 0).shiftOffsets
                (fun sizeI offsetI => sizeI ≠ 0 ∧ offsetI < p.getTupleOffset s)
                (p.tupleLength s)) j =
            if j = s then 0 else p.getTupleSize j := by
          refine (getInt32_shiftOffsets _ _ _ (.inr ⟨j, rfl⟩)).trans ?_
          refine (getTupleSize_setTupleOffset _ _ _ _).trans ?_
          refine (getTupleSize_setTupleSize _ _ _ (by omega) (by omega)).trans ?_
          split
          · rfl
          · exact hfield (by omega) (by omega)
        rw [tupleLength, hsize]
        split <;> rfl

/-- A slot that is free, or new, takes its tuple from the free space. -/
theorem Stored.accounted {i : Nat} (h : Stored p q i tuple) (hp : Accounted p) : Accounted q := by
  have hcount := h.count
  have hbound := h.bound
  have hnonneg := hp.count
  have hpfree := hp.free
  have hqfree := h.free
  have hcountq : 0 ≤ q.getTupleCount := by
    split at hcount <;> omega
  refine ⟨hcountq, ?_, h.room⟩
  have hlength : q.usedSpace = ∑ j ∈ Finset.range q.getTupleCount.toNat,
      if j = i then tuple.length else p.tupleLength j := by
    refine Finset.sum_congr rfl fun j hj => h.tupleLength ?_
    have hlt := Finset.mem_range.mp hj
    omega
  have hused : q.usedSpace = p.usedSpace + tuple.length := by
    rw [hlength, hcount]
    split
    · -- a slot behind the last one
      rename_i hi
      have hsucc : (p.getTupleCount + 1).toNat = p.getTupleCount.toNat + 1 := by omega
      rw [hsucc, Finset.sum_range_succ, if_pos (by omega)]
      congr 1
      refine Finset.sum_congr rfl fun j hj => if_neg ?_
      have hlt := Finset.mem_range.mp hj
      omega
    · rename_i hi
      have hslot : (i : Int) < p.getTupleCount := by omega
      have hzero : p.tupleLength i = 0 := by
        have hnot := h.free_slot
        rw [TablePage.tupleLength]
        by_contra hne
        exact hnot ⟨hslot, fun hsize => hne (by rw [hsize]; rfl)⟩
      have hsum := sum_range_replace (n := tuple.length) p.tupleLength
        (show i < p.getTupleCount.toNat by omega)
      rw [hzero] at hsum
      exact hsum
  omega

theorem Accounted.insertTuple (hp : Accounted p) (hnew : tuple ≠ []) {slot : Option Nat}
    (hrun : p.insertTuple tuple = .ok (slot, q)) : Accounted q := by
  rcases insertTuple_cases hp.count hp.free_le hnew with ⟨hrefused, -⟩ | ⟨i, q', hrun', hstored⟩
  · rw [hrefused] at hrun
    cases hrun
    exact hp
  · rw [hrun'] at hrun
    cases hrun
    exact hstored.accounted hp

/-- No operation that returns takes bytes that are not accounted for. -/
theorem Accounted.run {op : TablePageOp} {r : Unit} (hp : Accounted p) (hsized : op.Sized)
    (hrun : op.run p = .ok (r, q)) : Accounted q := by
  cases op with
  | insertTuple tuple =>
      obtain ⟨⟨slot, q'⟩, hins, heq⟩ := except_bind_ok hrun
      cases heq
      exact hp.insertTuple hsized hins
  | markDelete slot =>
      cases hrun
      exact hp.markDelete slot
  | rollbackDelete slot =>
      obtain ⟨q', hroll, heq⟩ := except_bind_ok hrun
      cases heq
      exact hp.rollbackDelete hroll
  | updateTuple newTuple slot =>
      obtain ⟨⟨old, q'⟩, hupd, heq⟩ := except_bind_ok hrun
      cases heq
      exact hp.updateTuple hupd
  | applyDelete slot =>
      obtain ⟨q', happ, heq⟩ := except_bind_ok hrun
      cases heq
      exact hp.applyDelete happ

/-! ### What is refused -/

theorem findFreeSlot_lt_iff (hcount : 0 ≤ p.getTupleCount) :
    (p.findFreeSlot : Int) < p.getTupleCount ↔
      ∃ i : Nat, i < p.getTupleCount ∧ p.getTupleSize i = 0 := by
  constructor
  · exact fun hlt => ⟨p.findFreeSlot, hlt, (p.findFreeSlot_spec hcount).2 hlt⟩
  · rintro ⟨i, hi, hzero⟩
    rw [findFreeSlot]
    cases hfind : p.slots.find? fun i => p.getTupleSize i = 0 with
    | none =>
        have hnone := List.find?_eq_none.mp hfind i (List.mem_range.mpr (by omega))
        rw [decide_eq_true_eq] at hnone
        exact absurd hzero hnone
    | some j =>
        have hmem := List.mem_range.mp (List.mem_of_find?_eq_some hfind)
        rw [Option.getD_some]
        omega

/-- The tuple fits, with eight bytes for its slot if there is no free
one. -/
def HasRoom (p : TablePage) (tuple : List UInt8) : Prop :=
  tuple.length ≤ p.getFreeSpaceSize ∧
    ((∃ i : Nat, i < p.getTupleCount ∧ p.getTupleSize i = 0) ∨
      tuple.length + 8 ≤ p.getFreeSpaceSize)

theorem insertTuple_iff (hcount : 0 ≤ p.getTupleCount) (hnew : tuple ≠ []) :
    ∃ slot q, p.insertTuple tuple = .ok (slot, q) ∧ (slot.isSome ↔ p.HasRoom tuple) ∧
      (slot = none → q = p) := by
  have hpos : 0 < tuple.length := List.length_pos_of_ne_nil hnew
  have hbound := (p.findFreeSlot_spec hcount).1
  simp only [TablePage.insertTuple, HasRoom, ← findFreeSlot_lt_iff hcount]
  rw [if_neg (by omega)]
  split
  · exact ⟨none, p, rfl, by simp; omega, fun _ => rfl⟩
  · split
    · exact ⟨none, p, rfl, by simp; omega, fun _ => rfl⟩
    · split
      · exact ⟨_, _, rfl, by simp; omega, fun h => by cases h⟩
      · exact ⟨_, _, rfl, by simp; omega, fun h => by cases h⟩

theorem markDelete_refused (h : (p.markDelete s).1 = false) : (p.markDelete s).2 = p := by
  unfold TablePage.markDelete at h ⊢
  split
  · rfl
  · rename_i hs
    rw [if_neg hs] at h
    simp only at h ⊢
    split
    · rfl
    · rename_i hlive
      rw [if_neg hlive] at h
      split at h <;> cases h

theorem updateTuple_none (h : p.updateTuple new s = .ok (none, q)) : q = p := by
  simp only [TablePage.updateTuple] at h
  split at h
  · cases h
    rfl
  · split at h
    · cases h
      rfl
    · split at h
      · cases h
        rfl
      · split at h <;> cases h

/-- On every page that operations lead to, the free space pointer is what
the sizes of all slots leave of the page, the directory does not run into
the tuples, an insertion succeeds exactly when there is room, and an
operation that returns false leaves the page as it is. -/
theorem space_accounted (m : TablePage) (id prev : PageId) (p : TablePage)
    (hp : Reachable (· = m.init id pageSize prev) (fun op _ => op.Sized) TablePageOp.run p) :
    p.getFreeSpacePointer = 512 - p.usedSpace ∧
      24 + 8 * p.getTupleCount ≤ p.getFreeSpacePointer ∧ p.getFreeSpacePointer ≤ 512 ∧
      (∀ tuple : List UInt8, tuple ≠ [] → ∃ slot q, p.insertTuple tuple = .ok (slot, q) ∧
        (slot.isSome ↔ p.HasRoom tuple) ∧ (slot = none → q = p)) ∧
      (∀ s, (p.markDelete s).1 = false → (p.markDelete s).2 = p) ∧
      ∀ new s q, p.updateTuple new s = .ok (none, q) → q = p := by
  have hacc : Accounted p := by
    apply hp.invariant_of_ok
    · rintro _ rfl
      exact accounted_init m id prev
    · exact fun op p r q hp hop hrun => hp.run hop hrun
  exact ⟨hacc.free, hacc.directory, hacc.free_le, fun tuple => insertTuple_iff hacc.count,
    fun s => markDelete_refused, fun new s q => updateTuple_none⟩

/-- After an insertion and an update on which a slot marked as deleted
keeps a wrong offset. -/
theorem space_accounted_stale : ∃ p : TablePage, p.getTupleCount = 2 ∧
    p.getFreeSpacePointer = 512 - p.usedSpace ∧ p.getFreeSpacePointer ≤ 512 := by
  have hrun : ((checkedRun (fun op _ => decide op.Sized) TablePageOp.run
      [.insertTuple [1, 2, 3, 4], .insertTuple [5, 6, 7, 8], .markDelete 1,
        .updateTuple [9, 9] 0, .rollbackDelete 1]
      (init (fun _ => 0) 1 pageSize invalidPageId)).any
        fun p => decide (p.getTupleCount = 2)) = true := by
    decide +kernel
  have hempty : Reachable (· = init (fun _ => 0) 1 pageSize invalidPageId)
      (fun op _ => op.Sized) TablePageOp.run (init (fun _ => 0) 1 pageSize invalidPageId) :=
    .start rfl
  obtain ⟨p, hp, hcount⟩ := exists_reachable_of_eval hempty _
    (fun op p hop => of_decide_eq_true hop) _ hrun
  obtain ⟨hfree, -, hend, -⟩ := space_accounted _ _ _ p hp
  exact ⟨p, of_decide_eq_true hcount, hfree, hend⟩

end TablePage

end ScuDb
