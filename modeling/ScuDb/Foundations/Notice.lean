import Mathlib.Logic.Function.Basic
import Mathlib.Data.Option.Basic

/-!
Condition variables.

Threads sleep in loops, each loop on a condition variable. A critical
section that ends gives a notice: to nobody, to all that sleep on a
variable, or to one of them, and then it is not up to the code which one
that is. What has to be shown of a monitor is that a thread sleeps only
while the condition of its loop holds; the rule here asks of every loop
that a critical section sets free that its sleepers are told.
-/

namespace ScuDb.Foundations

/-- What a critical section tells the threads that sleep on a condition
variable. -/
inductive Notice (κ : Type)
  | silent
  | one (c : κ)
  | all (c : κ)
  deriving DecidableEq

namespace Notice

variable {κ ι Loop σ : Type} [DecidableEq κ] [DecidableEq ι]

/-- Does the notice reach the thread `i`, which sleeps on `c`, when
`pick` is the one chosen of those a notice to one may go to? -/
def reaches (pick i : ι) (c : κ) : Notice κ → Bool
  | .silent => false
  | .one c' => c = c' ∧ i = pick
  | .all c' => c = c'

/-- A notice to one goes to a thread that sleeps on the variable, if there
is one. -/
def Picks (on : Loop → κ) (asleep : ι → Option Loop) (pick : ι) : Notice κ → Prop
  | .silent => True
  | .one c => (∃ i l, asleep i = some l ∧ on l = c) → ∃ l, asleep pick = some l ∧ on l = c
  | .all _ => True

/-- The threads asleep after the notice. -/
def wake (on : Loop → κ) (asleep : ι → Option Loop) (pick : ι) (n : Notice κ) :
    ι → Option Loop := fun i =>
  (asleep i).filter fun l => !n.reaches pick i (on l)

/-- Every thread asleep still has to wait. -/
def Accounted (blocked : Loop → σ → Prop) (asleep : ι → Option Loop) (s : σ) : Prop :=
  ∀ i l, asleep i = some l → blocked l s

/-- What sleeps on `c` is one thread at most. -/
def Alone (on : Loop → κ) (asleep : ι → Option Loop) (c : κ) : Prop :=
  ∀ i j l l', asleep i = some l → asleep j = some l' → on l = c → on l' = c → i = j

/-- The sleepers of every loop set free by the step from `s` to `s'` are
told. -/
def Covers (on : Loop → κ) (blocked : Loop → σ → Prop) (asleep : ι → Option Loop) (s s' : σ)
    (n : Notice κ) : Prop :=
  ∀ i l, asleep i = some l → blocked l s → ¬blocked l s' →
    n = .all (on l) ∨ n = .one (on l) ∧ Alone on asleep (on l)

variable {on : Loop → κ} {blocked : Loop → σ → Prop} {asleep : ι → Option Loop} {s s' : σ}
  {n : Notice κ} {pick : ι}

omit [DecidableEq κ] [DecidableEq ι] in
/-- A notice to one reaches a thread that sleeps alone. -/
theorem Alone.pick_eq {c : κ} (h : Alone on asleep c)
    (hpick : (Notice.one c).Picks on asleep pick) {i : ι} {l : Loop} (hi : asleep i = some l)
    (hl : on l = c) : pick = i := by
  obtain ⟨l', hpicked, hl'⟩ := hpick ⟨i, l, hi, hl⟩
  exact h pick i l' l hpicked hi hl' hl

theorem Accounted.wake (h : Accounted blocked asleep s) (hpick : n.Picks on asleep pick)
    (hcovers : n.Covers on blocked asleep s s') :
    Accounted blocked (n.wake on asleep pick) s' := by
  intro i l hi
  obtain ⟨hasleep, hunreached⟩ := Option.filter_eq_some_iff.mp hi
  by_contra hfree
  rcases hcovers i l hasleep (h i l hasleep) hfree with rfl | ⟨rfl, halone⟩
  · simp [reaches] at hunreached
  · have heq := halone.pick_eq hpick hasleep rfl
    simp [reaches, heq] at hunreached

end Notice

end ScuDb.Foundations
