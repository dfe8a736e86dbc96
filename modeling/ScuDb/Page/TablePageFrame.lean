import ScuDb.Page.TablePageLayout

/-!
Operations on one slot of a page and the tuples of the others.

`ApplyDelete` corrects the offsets of all tuples it moves, `UpdateTuple`
only those of tuples that are not marked as deleted. So an update that
changes the size of a tuple above a marked one leaves the marked slot with
an offset at which its tuple is no longer. As long as no such update is
made, a page stays laid out and every operation leaves the tuples of all
other slots as they are.
-/

namespace ScuDb

open Foundations

/-- An operation on a page, addressed to a slot after the insertion. -/
inductive TablePageOp
  | insertTuple (tuple : List UInt8)
  | markDelete (slot : Nat)
  | rollbackDelete (slot : Nat)
  | updateTuple (newTuple : List UInt8) (slot : Nat)
  | applyDelete (slot : Nat)

namespace TablePageOp

open TablePage

def run : TablePageOp → Program Fault TablePage Unit
  | insertTuple tuple => fun p => do
      let (_, q) ← p.insertTuple tuple
      pure ((), q)
  | markDelete slot => fun p => .ok ((), (p.markDelete slot).2)
  | rollbackDelete slot => fun p => do
      let q ← p.rollbackDelete slot
      pure ((), q)
  | updateTuple newTuple slot => fun p => do
      let (_, q) ← p.updateTuple newTuple slot
      pure ((), q)
  | applyDelete slot => fun p => do
      let q ← p.applyDelete slot
      pure ((), q)

/-- A tuple to be stored is not empty, and the slot of the other
operations is occupied. -/
def Allowed : TablePageOp → TablePage → Prop
  | insertTuple tuple, _ => tuple ≠ []
  | markDelete slot, p => p.Occupied slot
  | rollbackDelete slot, p => p.Occupied slot
  | updateTuple _ slot, p => p.Occupied slot
  | applyDelete slot, p => p.Occupied slot

/-- If the operation is an update that is made and changes the size of the
tuple, no tuple marked as deleted has a smaller offset. -/
def KeepsOffsets : TablePageOp → TablePage → Prop
  | updateTuple newTuple slot, p =>
      ∀ old, p.slotAt slot = some ⟨false, old⟩ →
        (newTuple.length : Int) ≤ p.getFreeSpaceSize + old.length → p.NoMarkedBelow newTuple slot
  | _, _ => True

instance : (op : TablePageOp) → (p : TablePage) → Decidable (op.Allowed p)
  | insertTuple tuple, _ => inferInstanceAs (Decidable (tuple ≠ []))
  | markDelete slot, p => inferInstanceAs (Decidable (p.Occupied slot))
  | rollbackDelete slot, p => inferInstanceAs (Decidable (p.Occupied slot))
  | updateTuple _ slot, p => inferInstanceAs (Decidable (p.Occupied slot))
  | applyDelete slot, p => inferInstanceAs (Decidable (p.Occupied slot))

instance : (op : TablePageOp) → (p : TablePage) → Decidable (op.KeepsOffsets p)
  | updateTuple newTuple slot, p =>
      inferInstanceAs (Decidable (∀ old, p.slotAt slot = some ⟨false, old⟩ →
        (newTuple.length : Int) ≤ p.getFreeSpaceSize + old.length →
        p.NoMarkedBelow newTuple slot))
  | insertTuple _, _ => isTrue trivial
  | markDelete _, _ => isTrue trivial
  | rollbackDelete _, _ => isTrue trivial
  | applyDelete _, _ => isTrue trivial

/-- The operation is meant to change the bytes of the slot's tuple. -/
def Replaces : TablePageOp → Nat → Prop
  | updateTuple _ slot, t => slot = t
  | applyDelete slot, t => slot = t
  | _, _ => False

instance : (op : TablePageOp) → (t : Nat) → Decidable (op.Replaces t)
  | updateTuple _ slot, t => inferInstanceAs (Decidable (slot = t))
  | applyDelete slot, t => inferInstanceAs (Decidable (slot = t))
  | insertTuple _, _ => isFalse id
  | markDelete _, _ => isFalse id
  | rollbackDelete _, _ => isFalse id

end TablePageOp

namespace TablePage

/-- The slot `t` is still occupied and its tuple has the same size and
bytes. -/
def KeepsTuple (p q : TablePage) (t : Nat) : Prop :=
  q.Occupied t ∧ q.tupleLength t = p.tupleLength t ∧
    q.read (q.getTupleOffset t).toNat (q.tupleLength t) =
      p.read (p.getTupleOffset t).toNat (p.tupleLength t)

instance (p q : TablePage) (t : Nat) : Decidable (KeepsTuple p q t) :=
  inferInstanceAs (Decidable (_ ∧ _))

variable {p q : TablePage} {t : Nat}

theorem keepsTuple_of_slotAt {old new : StoredTuple} (hold : p.slotAt t = some old)
    (hnew : q.slotAt t = some new) (hbytes : new.bytes = old.bytes) : KeepsTuple p q t := by
  have hp := occupied_of_slotAt hold
  have hq := occupied_of_slotAt hnew
  have hlen : q.tupleLength t = p.tupleLength t := by
    rw [← slotAt_length hnew, ← slotAt_length hold, hbytes]
  rw [slotAt, if_pos hp] at hold
  rw [slotAt, if_pos hq] at hnew
  cases hold
  cases hnew
  exact ⟨hq, hlen, hbytes⟩

theorem getTupleCount_init (p : TablePage) (id prev : PageId) :
    (p.init id pageSize prev).getTupleCount = 0 :=
  getTupleCount_setTupleCount _ (by decide) (by decide)

theorem getFreeSpacePointer_init (p : TablePage) (id prev : PageId) :
    (p.init id pageSize prev).getFreeSpacePointer = 512 :=
  (getFreeSpacePointer_setTupleCount _ _).trans
    (getFreeSpacePointer_setFreeSpacePointer _ (by decide) (by decide))

theorem layout_init (p : TablePage) (id prev : PageId) : Layout (p.init id pageSize prev) := by
  have hcount := getTupleCount_init p id prev
  have hfree := getFreeSpacePointer_init p id prev
  have hnone (i : Nat) : ¬(p.init id pageSize prev).Occupied i := by
    rintro ⟨hlt, -⟩
    rw [hcount] at hlt
    omega
  constructor
  case count => exact Int.le_of_eq hcount.symm
  case directory =>
    rw [hcount, hfree]
    decide
  case free => exact Int.le_of_eq hfree
  case inside => exact fun i hi => absurd hi (hnone i)
  case apart => exact fun i j hi => absurd hi (hnone i)

theorem update_some_ne {s : Nat} {v : Option StoredTuple}
    (h : q.slotAt = Function.update p.slotAt s v)
    (hts : t ≠ s) : q.slotAt t = p.slotAt t := by
  rw [h, Function.update_of_ne hts]

/-- A mark is set or taken away, or slot `s` is not the one looked at. -/
theorem keepsTuple_of_map {s : Nat} {d : Bool} (ht : p.Occupied t)
    (h : q.slotAt = Function.update p.slotAt s
      ((p.slotAt s).map fun t => { t with deleted := d })) : KeepsTuple p q t := by
  obtain ⟨old, hold⟩ := exists_slotAt ht
  by_cases hts : t = s
  · subst hts
    have hnew : q.slotAt t = some { old with deleted := d } := by
      rw [h, Function.update_self, hold, Option.map_some]
    exact keepsTuple_of_slotAt hold hnew rfl
  · exact keepsTuple_of_slotAt hold ((update_some_ne h hts).trans hold) rfl

theorem keepsTuple_of_update {s : Nat} {v : Option StoredTuple} (ht : p.Occupied t) (hts : t ≠ s)
    (h : q.slotAt = Function.update p.slotAt s v) : KeepsTuple p q t := by
  obtain ⟨old, hold⟩ := exists_slotAt ht
  exact keepsTuple_of_slotAt hold ((update_some_ne h hts).trans hold) rfl

theorem KeepsTuple.refl (ht : p.Occupied t) : KeepsTuple p p t := ⟨ht, rfl, rfl⟩

theorem KeepsTuple.trans {r : TablePage} (h : KeepsTuple p q t) (h' : KeepsTuple q r t) :
    KeepsTuple p r t :=
  ⟨h'.1, h'.2.1.trans h.2.1, h'.2.2.trans h.2.2⟩

end TablePage

namespace TablePageOp

open TablePage

variable {p : TablePage}

theorem wp_run (hp : Layout p) (op : TablePageOp) (hop : op.Allowed p) (hkeep : op.KeepsOffsets p) :
    wp op.run (fun _ q => Layout q ∧
      ∀ t, p.Occupied t → ¬op.Replaces t → KeepsTuple p q t) p := by
  cases op with
  | insertTuple tuple =>
      rcases insertTuple_spec hp hop with ⟨hrun, -⟩ | ⟨i, q, hrun, hq, hfree, -, -, -, hslot⟩
      · refine ⟨(), p, ?_, hp, fun t ht _ => KeepsTuple.refl ht⟩
        simp only [run, hrun]
        rfl
      · refine ⟨(), q, ?_, hq, fun t ht _ => ?_⟩
        · simp only [run, hrun]
          rfl
        · apply keepsTuple_of_update ht _ hslot
          rintro rfl
          exact slotAt_eq_none_iff.mp hfree ht
  | markDelete slot =>
      obtain ⟨hq, -, -, hslot⟩ := markDelete_spec hp (s := slot)
      exact ⟨(), _, rfl, hq, fun t ht _ => keepsTuple_of_map ht hslot⟩
  | rollbackDelete slot =>
      obtain ⟨q, hrun, hq, -, -, hslot⟩ := rollbackDelete_spec hp hop
      refine ⟨(), q, ?_, hq, fun t ht _ => keepsTuple_of_map ht hslot⟩
      simp only [run, hrun]
      rfl
  | updateTuple new slot =>
      by_cases hmade : ∃ old, p.slotAt slot = some ⟨false, old⟩ ∧
          (new.length : Int) ≤ p.getFreeSpaceSize + old.length
      · obtain ⟨old, hold, hroom⟩ := hmade
        obtain ⟨q, hrun, hq, -, -, hslot⟩ :=
          updateTuple_spec hp hold hroom (hkeep old hold hroom)
        refine ⟨(), q, ?_, hq, fun t ht hts => ?_⟩
        · simp only [run, hrun]
          rfl
        · exact keepsTuple_of_update ht (fun heq => hts heq.symm) hslot
      · refine ⟨(), p, ?_, hp, fun t ht _ => KeepsTuple.refl ht⟩
        have hrefused : p.updateTuple new slot = .ok (none, p) := by
          apply updateTuple_refused
          intro old hold
          by_contra hroom
          exact hmade ⟨old, hold, Int.not_lt.mp hroom⟩
        simp only [run, hrefused]
        rfl
  | applyDelete slot =>
      obtain ⟨old, hold⟩ := exists_slotAt hop
      obtain ⟨q, hrun, hq, -, -, hslot⟩ := applyDelete_spec hp hold
      refine ⟨(), q, ?_, hq, fun t ht hts => ?_⟩
      · simp only [run, hrun]
        rfl
      · exact keepsTuple_of_update ht (fun heq => hts heq.symm) hslot

/-- A run of operations that do not replace the tuple of slot `t`. -/
theorem keepsTuple_of_reachable {t : Nat} {q : TablePage} (hp : Layout p) (ht : p.Occupied t)
    (hq : Reachable (· = p)
      (fun op q => op.Allowed q ∧ op.KeepsOffsets q ∧ ¬op.Replaces t) run q) :
    Layout q ∧ KeepsTuple p q t := by
  apply hq.invariant
  · rintro _ rfl
    exact ⟨hp, KeepsTuple.refl ht⟩
  · rintro op r ⟨hr, hkept⟩ ⟨hop, hkeep, hts⟩
    apply wp_mono (op.wp_run hr hop hkeep)
    rintro _ r' ⟨hr', hstep⟩
    exact ⟨hr', hkept.trans (hstep t hkept.1 hts)⟩

end TablePageOp

namespace TablePage

/-- In every run from `Init` in which no update that changes the size of a
tuple is made above a tuple marked as deleted, no operation faults, every
operation leaves the tuples of all other slots as they are, and a tuple
that is marked as deleted and later rolled back reads back what it was. -/
theorem tuples_kept (m : TablePage) (id prev : PageId) (p : TablePage)
    (hp : Reachable (· = m.init id pageSize prev)
      (fun op p => op.Allowed p ∧ op.KeepsOffsets p) TablePageOp.run p) :
    (∀ op : TablePageOp, op.Allowed p → op.KeepsOffsets p →
      wp op.run (fun _ q => ∀ t, p.Occupied t → ¬op.Replaces t → KeepsTuple p q t) p) ∧
    ∀ t tuple, p.getTuple t = some tuple → ∀ q r,
      Reachable (· = (p.markDelete t).2)
        (fun op q => op.Allowed q ∧ op.KeepsOffsets q ∧ ¬op.Replaces t) TablePageOp.run q →
      q.rollbackDelete t = .ok r → r.getTuple t = some tuple := by
  have hlayout : Layout p := by
    apply hp.invariant
    · rintro _ rfl
      exact layout_init m id prev
    · rintro op q hq ⟨hop, hkeep⟩
      exact wp_mono (op.wp_run hq hop hkeep) fun _ _ h => h.1
  constructor
  · intro op hop hkeep
    exact wp_mono (op.wp_run hlayout hop hkeep) fun _ _ h => h.2
  · intro t tuple ht q r hq hr
    obtain ⟨old, hold, hbytes⟩ : ∃ old, p.slotAt t = some old ∧ old.bytes = tuple := by
      rw [getTuple_eq, Option.bind_eq_some_iff] at ht
      obtain ⟨old, hold, hif⟩ := ht
      split at hif
      · cases hif
      · exact ⟨old, hold, Option.some.inj hif⟩
    have hocc := occupied_of_slotAt hold
    obtain ⟨hmarked, -, -, hslot⟩ := markDelete_spec hlayout (s := t)
    have hkept := keepsTuple_of_map hocc hslot
    obtain ⟨hlayoutq, hkept'⟩ := TablePageOp.keepsTuple_of_reachable hmarked hkept.1 hq
    obtain ⟨r', hrun, -, -, -, hslotr⟩ := rollbackDelete_spec hlayoutq hkept'.1
    rw [hrun] at hr
    cases hr
    have hall := hkept.trans hkept'
    obtain ⟨last, hlast⟩ := exists_slotAt hkept'.1
    rw [getTuple_eq, hslotr, Function.update_self, hlast, Option.map_some, Option.bind_some]
    rw [slotAt, if_pos hkept'.1] at hlast
    rw [slotAt, if_pos hocc] at hold
    cases hlast
    cases hold
    have hread : q.read (q.getTupleOffset t).toNat (q.tupleLength t) = tuple :=
      hall.2.2.trans hbytes
    rw [if_neg Bool.false_ne_true, hread]

theorem exists_written (ops : List TablePageOp) (f : TablePage → Bool)
    (heval : ((checkedRun (fun op p => decide (op.Allowed p ∧ op.KeepsOffsets p))
      TablePageOp.run ops (init (fun _ => 0) 1 pageSize invalidPageId)).any f) = true) :
    ∃ p, Reachable (· = init (fun _ => 0) 1 pageSize invalidPageId)
      (fun op p => op.Allowed p ∧ op.KeepsOffsets p) TablePageOp.run p ∧ f p = true := by
  refine exists_reachable_of_eval ?_ _ (fun _ _ => of_decide_eq_true) f heval
  exact .start rfl

/-- One of three tuples is marked as deleted. Then another one gets longer
and the third one is removed, before the first is rolled back. -/
theorem tuples_kept_once : ∃ p q r : TablePage, p.getTuple 0 = some [1, 2, 3] ∧
    q.getTuple 0 = none ∧ q.getTuple 1 = some [9, 9, 9, 9, 9] ∧ q.getTuple 2 = none ∧
    q.rollbackDelete 0 = .ok r ∧ r.getTuple 0 = some [1, 2, 3] := by
  obtain ⟨p, hp, heval⟩ := exists_written
    [.insertTuple [1, 2, 3], .insertTuple [4, 5, 6, 7], .insertTuple [8]]
    (fun p => p.getTuple 0 = some [1, 2, 3] ∧
      (checkedRun (fun op q => decide (op.Allowed q ∧ op.KeepsOffsets q ∧ ¬op.Replaces 0))
        TablePageOp.run [.updateTuple [9, 9, 9, 9, 9] 1, .applyDelete 2] (p.markDelete 0).2).any
          fun q => q.getTuple 0 = none ∧ q.getTuple 1 = some [9, 9, 9, 9, 9] ∧
            q.getTuple 2 = none ∧ (q.rollbackDelete 0).toOption.isSome) (by decide +kernel)
  obtain ⟨htuple, heval⟩ := of_decide_eq_true heval
  obtain ⟨q, hq, hchecked⟩ := exists_reachable_of_eval
    (show Reachable (· = (p.markDelete 0).2) _ TablePageOp.run _ from .start rfl) _
    (fun _ _ => of_decide_eq_true) _ heval
  obtain ⟨hmarked, hlonger, hremoved, hok⟩ := of_decide_eq_true hchecked
  obtain ⟨r, hr⟩ := exists_ok hok
  exact ⟨p, q, r, htuple, hmarked, hlonger, hremoved, hr,
    (tuples_kept _ _ _ p hp).2 0 _ htuple q r hq hr⟩

/-- A tuple marked as deleted lies below one that gets shorter: its slot
keeps the offset at which it is no longer. -/
theorem marked_tuple_lost :
    ¬∀ (m : TablePage) (id prev : PageId) (p : TablePage),
      Reachable (· = m.init id pageSize prev) TablePageOp.Allowed TablePageOp.run p →
      ∀ op : TablePageOp, op.Allowed p → ∀ q, op.run p = .ok ((), q) →
        ∀ t, p.Occupied t → ¬op.Replaces t → KeepsTuple p q t := by
  intro h
  obtain ⟨p, hp, heval⟩ := exists_written
    [.insertTuple [1, 2, 3, 4], .insertTuple [5, 6, 7, 8]]
    (fun p => p.Occupied 1 ∧ (p.markDelete 1).2.Occupied 1 ∧ (p.markDelete 1).2.Occupied 0 ∧
      ((p.markDelete 1).2.updateTuple [9, 9] 0).toOption.any fun y =>
        ¬KeepsTuple (p.markDelete 1).2 y.2 1) (by decide +kernel)
  obtain ⟨hocc, hmarked, hother, heval⟩ := of_decide_eq_true heval
  have hreach : Reachable (· = init (fun _ => 0) 1 pageSize invalidPageId)
      TablePageOp.Allowed TablePageOp.run (p.markDelete 1).2 := by
    refine Reachable.next ?_ (show (TablePageOp.markDelete 1).Allowed p from hocc) rfl
    exact hp.mono fun _ _ h => h.1
  cases hrun : (p.markDelete 1).2.updateTuple [9, 9] 0 with
  | error e =>
      rw [hrun] at heval
      cases heval
  | ok y =>
      rw [hrun] at heval
      have hlost : ¬KeepsTuple (p.markDelete 1).2 y.2 1 := of_decide_eq_true heval
      apply hlost
      apply h _ _ _ _ hreach (.updateTuple [9, 9] 0) hother
      · simp only [TablePageOp.run, hrun]
        rfl
      · exact hmarked
      · exact Nat.zero_ne_one

end TablePage

end ScuDb
