import Mathlib.Tactic.Basic
import Mathlib.Data.List.Nodup
import ScuDb.Index.BPlusTree

/-!
What a call on a tree takes from the buffer pool and what it gives back.

`BPlusTree` records the calls on the pool and on the locks without saying
what they do. `PoolUse` says it, for one thread: it counts the pins of
every page and keeps the latches the thread holds with their modes. A
call that must not happen has no next state: giving back a pin or a latch
that is not held, or asking for a latch that the thread holds already.
-/

namespace ScuDb

/-- The pool and the locks as one thread sees them. -/
structure PoolUse where
  pins : PageId → Nat
  latch : PageId → Option Bool
  rootLock : Option Bool
  removed : List PageId

/-- One pin more on the page `id`. -/
def addPin (pins : PageId → Nat) (id : PageId) : PageId → Nat :=
  Function.update pins id (pins id + 1)

theorem addPin_apply (pins : PageId → Nat) (id y : PageId) :
    addPin pins id y = pins y + [id].count y := by
  rw [addPin, List.count_singleton]
  by_cases hy : y = id
  · subst hy
    simp
  · simp [hy, Ne.symm hy]

namespace PoolUse

/-- A new page comes with its first pin. A page with a pin is not
deleted, and its caller is not stopped. -/
def step (u : PoolUse) : PoolCall → Option PoolUse
  | .newPage id => some { u with pins := addPin u.pins id }
  | .fetchPage id => some { u with pins := addPin u.pins id }
  | .unpinPage id _ =>
      if 0 < u.pins id then some { u with pins := Function.update u.pins id (u.pins id - 1) }
      else none
  | .deletePage id => some (if u.pins id = 0 then { u with removed := id :: u.removed } else u)
  | .store _ => some u
  | .lock exclusive id =>
      if u.latch id = none then
        some { u with latch := Function.update u.latch id (some exclusive) }
      else none
  | .unlock exclusive id =>
      if u.latch id = some exclusive then
        some { u with latch := Function.update u.latch id none }
      else none
  | .lockRoot exclusive =>
      if u.rootLock = none then some { u with rootLock := some exclusive } else none
  | .unlockRoot exclusive =>
      if u.rootLock = some exclusive then some { u with rootLock := none } else none

/-- The state after recorded calls, the latest of which comes first. -/
def replay (u : PoolUse) : List PoolCall → Option PoolUse
  | [] => some u
  | call :: earlier => (u.replay earlier).bind (·.step call)

/-- Before a call: some pages are pinned, and nothing is locked. -/
def start (pins : PageId → Nat) : PoolUse := ⟨pins, fun _ => none, none, []⟩

/-- The thread has latched the pages `held`, all in one mode, and pins
each of them once besides the pins `extra`. -/
structure Holds (u : PoolUse) (exclusive : Bool) (extra : PageId → Nat) (held : List PageId)
    (count : Nat) : Prop where
  pins : ∀ y, u.pins y = extra y + held.count y
  latch : ∀ y, u.latch y = if y ∈ held then some exclusive else none
  rootLock : u.rootLock = if count = 0 then none else some exclusive
  count_le : count ≤ 1

theorem start_holds (pins : PageId → Nat) (exclusive : Bool) :
    (start pins).Holds exclusive pins [] 0 :=
  ⟨fun _ => rfl, fun _ => rfl, rfl, Nat.zero_le 1⟩

namespace Holds

variable {u : PoolUse} {exclusive : Bool} {extra : PageId → Nat} {held : List PageId}
  {count : Nat} {id : PageId}

theorem addPin (h : u.Holds exclusive extra held count) :
    { u with pins := ScuDb.addPin u.pins id }.Holds exclusive (ScuDb.addPin extra id) held
      count := by
  refine ⟨fun y => ?_, h.latch, h.rootLock, h.count_le⟩
  change ScuDb.addPin u.pins id y = ScuDb.addPin extra id y + _
  rw [addPin_apply, addPin_apply, h.pins]
  omega

theorem unpin (h : u.Holds exclusive (ScuDb.addPin extra id) held count) (isDirty : Bool) :
    ∃ u', u.step (.unpinPage id isDirty) = some u' ∧ u'.Holds exclusive extra held count := by
  have hid : u.pins id = extra id + 1 + held.count id := by
    rw [h.pins, ScuDb.addPin, Function.update_self]
  refine ⟨_, if_pos (by omega), fun y => ?_, h.latch, h.rootLock, h.count_le⟩
  change Function.update u.pins id (u.pins id - 1) y = _
  by_cases hy : y = id
  · subst hy
    rw [Function.update_self, hid]
    omega
  · rw [Function.update_of_ne hy, h.pins, ScuDb.addPin, Function.update_of_ne hy]

theorem lock (h : u.Holds exclusive (ScuDb.addPin extra id) held count) (hid : id ∉ held) :
    ∃ u', u.step (.lock exclusive id) = some u' ∧
      u'.Holds exclusive extra (held ++ [id]) count := by
  have hfree : u.latch id = none := by rw [h.latch, if_neg hid]
  refine ⟨_, if_pos hfree, fun y => ?_, fun y => ?_, h.rootLock, h.count_le⟩
  · change u.pins y = _
    rw [h.pins, addPin_apply, List.count_append]
    omega
  · change Function.update u.latch id (some exclusive) y = _
    by_cases hy : y = id
    · subst hy
      simp
    · simp [h.latch, hy]

/-- A latch is given back, and the pin that went with it is left. -/
theorem unlock (h : u.Holds exclusive extra (id :: held) count) (hid : id ∉ held) :
    ∃ u', u.step (.unlock exclusive id) = some u' ∧
      u'.Holds exclusive (ScuDb.addPin extra id) held count := by
  have hlatch : u.latch id = some exclusive := by rw [h.latch, if_pos List.mem_cons_self]
  refine ⟨_, if_pos hlatch, fun y => ?_, fun y => ?_, h.rootLock, h.count_le⟩
  · change u.pins y = _
    rw [h.pins, addPin_apply, ← List.singleton_append, List.count_append]
    omega
  · change Function.update u.latch id none y = _
    by_cases hy : y = id
    · subst hy
      simp [hid]
    · simp [h.latch, hy]

theorem lockRoot (h : u.Holds exclusive extra held 0) :
    ∃ u', u.step (.lockRoot exclusive) = some u' ∧ u'.Holds exclusive extra held 1 :=
  ⟨_, if_pos h.rootLock, h.pins, h.latch, rfl, le_rfl⟩

theorem unlockRoot (h : u.Holds exclusive extra held 1) :
    ∃ u', u.step (.unlockRoot exclusive) = some u' ∧ u'.Holds exclusive extra held 0 :=
  ⟨_, if_pos h.rootLock, h.pins, h.latch, rfl, Nat.zero_le 1⟩

theorem deletePage (h : u.Holds exclusive extra held count) (hid : id ∉ held) :
    ∃ u', u.step (.deletePage id) = some u' ∧ u'.Holds exclusive extra held count ∧
      (extra id = 0 → id ∈ u'.removed) := by
  have hpins : u.pins id = extra id := by
    rw [h.pins, List.count_eq_zero_of_not_mem hid, Nat.add_zero]
  refine ⟨_, rfl, ?_, ?_⟩
  · split
    · exact ⟨h.pins, h.latch, h.rootLock, h.count_le⟩
    · exact h
  · intro hzero
    rw [hpins, if_pos hzero]
    exact List.mem_cons_self

/-- With nothing latched, the mode does not matter. -/
theorem of_nothing (h : u.Holds exclusive extra [] 0) (mode : Bool) : u.Holds mode extra [] 0 :=
  ⟨h.pins, h.latch, h.rootLock, h.count_le⟩

end Holds

theorem removed_subset {u u' : PoolUse} {call : PoolCall} (h : u.step call = some u') :
    u.removed ⊆ u'.removed := by
  cases call <;> simp only [step] at h
  case deletePage id =>
    cases h
    split
    · exact List.subset_cons_self id u.removed
    · exact List.Subset.refl _
  case newPage | fetchPage | store =>
    cases h
    exact List.Subset.refl _
  all_goals
    split at h
    · cases h
      exact List.Subset.refl _
    · cases h

/-- The calls since `old`, and what they have led to. -/
def Reached (u₀ : PoolUse) (old calls : List PoolCall) (u : PoolUse) : Prop :=
  ∃ recent, calls = recent ++ old ∧ u₀.replay recent = some u

theorem Reached.refl (u₀ : PoolUse) (old : List PoolCall) : u₀.Reached old old u₀ :=
  ⟨[], rfl, rfl⟩

theorem Reached.next {u₀ u u' : PoolUse} {old calls : List PoolCall} {call : PoolCall}
    (h : u₀.Reached old calls u) (hstep : u.step call = some u') :
    u₀.Reached old (call :: calls) u' := by
  obtain ⟨recent, rfl, hrun⟩ := h
  refine ⟨call :: recent, rfl, ?_⟩
  rw [replay, hrun]
  exact hstep

end PoolUse

/-- The calls since `old` were allowed, and have left the thread with the
latches on `held` and with the pins `extra` besides. -/
def InHand (u₀ : PoolUse) (old : List PoolCall) (exclusive : Bool) (extra : PageId → Nat)
    (held : List PageId) (count : Nat) (calls : List PoolCall) : Prop :=
  ∃ u, u₀.Reached old calls u ∧ u.Holds exclusive extra held count

namespace InHand

variable {u₀ : PoolUse} {old calls : List PoolCall} {exclusive : Bool} {extra : PageId → Nat}
  {held : List PageId} {count : Nat} {id : PageId}

theorem fetch (h : InHand u₀ old exclusive extra held count calls) (id : PageId) :
    InHand u₀ old exclusive (addPin extra id) held count (.fetchPage id :: calls) := by
  obtain ⟨u, hu, hold⟩ := h
  exact ⟨_, hu.next rfl, hold.addPin⟩

theorem new (h : InHand u₀ old exclusive extra held count calls) (id : PageId) :
    InHand u₀ old exclusive (addPin extra id) held count (.newPage id :: calls) := by
  obtain ⟨u, hu, hold⟩ := h
  exact ⟨_, hu.next rfl, hold.addPin⟩

theorem store (h : InHand u₀ old exclusive extra held count calls) :
    InHand u₀ old exclusive extra held count (.store id :: calls) := by
  obtain ⟨u, hu, hold⟩ := h
  exact ⟨_, hu.next rfl, hold⟩

theorem unpin (h : InHand u₀ old exclusive (addPin extra id) held count calls) {isDirty : Bool} :
    InHand u₀ old exclusive extra held count (.unpinPage id isDirty :: calls) := by
  obtain ⟨u, hu, hold⟩ := h
  obtain ⟨u', hstep, hold'⟩ := hold.unpin isDirty
  exact ⟨u', hu.next hstep, hold'⟩

theorem lock (h : InHand u₀ old exclusive (addPin extra id) held count calls) (hid : id ∉ held) :
    InHand u₀ old exclusive extra (held ++ [id]) count (.lock exclusive id :: calls) := by
  obtain ⟨u, hu, hold⟩ := h
  obtain ⟨u', hstep, hold'⟩ := hold.lock hid
  exact ⟨u', hu.next hstep, hold'⟩

theorem unlock (h : InHand u₀ old exclusive extra (id :: held) count calls) (hid : id ∉ held) :
    InHand u₀ old exclusive (addPin extra id) held count (.unlock exclusive id :: calls) := by
  obtain ⟨u, hu, hold⟩ := h
  obtain ⟨u', hstep, hold'⟩ := hold.unlock hid
  exact ⟨u', hu.next hstep, hold'⟩

theorem lockRoot (h : InHand u₀ old exclusive extra held 0 calls) :
    InHand u₀ old exclusive extra held 1 (.lockRoot exclusive :: calls) := by
  obtain ⟨u, hu, hold⟩ := h
  obtain ⟨u', hstep, hold'⟩ := hold.lockRoot
  exact ⟨u', hu.next hstep, hold'⟩

theorem unlockRoot (h : InHand u₀ old exclusive extra held 1 calls) :
    InHand u₀ old exclusive extra held 0 (.unlockRoot exclusive :: calls) := by
  obtain ⟨u, hu, hold⟩ := h
  obtain ⟨u', hstep, hold'⟩ := hold.unlockRoot
  exact ⟨u', hu.next hstep, hold'⟩

/-- A page is fetched once more on its release, and hence given back twice. -/
theorem unlockAndUnPin (h : InHand u₀ old exclusive extra (id :: held) count calls)
    (hid : id ∉ held) :
    InHand u₀ old exclusive extra held count (.unpinPage id false :: .unpinPage id false ::
      .unlock exclusive id :: .fetchPage id :: calls) :=
  ((h.fetch id).unlock hid).unpin.unpin

theorem of_nothing (h : InHand u₀ old exclusive extra [] 0 calls) (mode : Bool) :
    InHand u₀ old mode extra [] 0 calls := by
  obtain ⟨u, hu, hold⟩ := h
  exact ⟨u, hu, hold.of_nothing mode⟩

theorem count_le (h : InHand u₀ old exclusive extra held count calls) : count ≤ 1 := by
  obtain ⟨u, -, hold⟩ := h
  exact hold.count_le

end InHand

end ScuDb
