import Mathlib.Logic.Function.Basic

/-!
Two partial functions that are inverse to each other: a table with unique
keys and the index on them. Entries are added and removed on both sides at
once.
-/

namespace ScuDb.Foundations

variable {α β : Type}

/-- `g` leads from a value of `f` back to its only argument. -/
def PartialInverse (f : α → Option β) (g : β → Option α) : Prop :=
  ∀ a b, g b = some a ↔ f a = some b

namespace PartialInverse

variable {f : α → Option β} {g : β → Option α} {a : α} {b : β}

theorem empty : PartialInverse (fun _ : α => (none : Option β)) fun _ => none := fun a b => by
  simp

theorem unique (h : PartialInverse f g) {a' : α} (ha : f a = some b) (ha' : f a' = some b) :
    a = a' := by
  have hb := (h a b).mpr ha
  rw [(h a' b).mpr ha'] at hb
  exact (Option.some.inj hb).symm

theorem eq_none_iff (h : PartialInverse f g) : g b = none ↔ ∀ a, f a ≠ some b := by
  rw [Option.eq_none_iff_forall_ne_some]
  exact forall_congr' fun a => (h a b).not

variable [DecidableEq α] [DecidableEq β]

theorem insert (h : PartialInverse f g) (ha : f a = none) (hb : g b = none) :
    PartialInverse (Function.update f a (some b)) (Function.update g b (some a)) := by
  intro x y
  by_cases hx : x = a
  · by_cases hy : y = b
    · simp [hx, hy]
    · have hnot : g y ≠ some a := by
        intro hy'
        rw [(h a y).mp hy'] at ha
        cases ha
      simp [hx, hy, hnot, Ne.symm hy]
  · by_cases hy : y = b
    · have hnot : f x ≠ some b := (h.eq_none_iff.mp hb) x
      simp [hx, hy, hnot, Ne.symm hx]
    · simp [hx, hy, h x y]

theorem erase (h : PartialInverse f g) (ha : f a = some b) :
    PartialInverse (Function.update f a none) (Function.update g b none) := by
  intro x y
  by_cases hx : x = a
  · by_cases hy : y = b
    · simp [hx, hy]
    · have hnot : g y ≠ some a := by
        intro hy'
        rw [(h a y).mp hy'] at ha
        exact hy (Option.some.inj ha)
      simp [hx, hy, hnot]
  · by_cases hy : y = b
    · have hnot : f x ≠ some b := fun hx' => hx (h.unique hx' ha)
      simp [hx, hy, hnot]
    · simp [hx, hy, h x y]

end PartialInverse

end ScuDb.Foundations
