import Mathlib.Data.List.TakeWhile
import Mathlib.Data.List.Lattice
import Mathlib.Tactic.Basic

/-!
Bisection for the least index at which a monotone test holds.

The two binary searches of a page differ only in the test they make at
the middle, so they are one function here. `bisect p fuel lo hi` looks
in `[lo, hi)`; every round shortens that range, so `hi - lo` rounds are
enough and the fuel is never what ends the search. `bisect_spec` says
what comes out on a test that, once true, stays true.
-/

namespace ScuDb.Foundations

/-- Bisection of `[lo, hi)` for the first index where `p` is true; `hi`
when there is none. The middle is the one of the closed interval
`[lo, hi - 1]`, rounded down. -/
def bisect (p : Nat → Bool) : Nat → Nat → Nat → Nat
  | 0, lo, _ => lo
  | fuel + 1, lo, hi =>
      if lo < hi then
        let mid := (hi - 1 - lo) / 2 + lo
        if p mid then bisect p fuel lo mid else bisect p fuel (mid + 1) hi
      else lo

theorem bisect_le {p : Nat → Bool} (fuel lo hi : Nat) (hle : lo ≤ hi) :
    bisect p fuel lo hi ≤ hi := by
  induction fuel generalizing lo hi with
  | zero => exact hle
  | succ fuel ih =>
      rw [bisect]
      split
      · rename_i hlt
        have hmid : (hi - 1 - lo) / 2 + lo < hi := by omega
        dsimp only
        split
        · exact (ih lo _ (Nat.le_add_left _ _)).trans hmid.le
        · exact ih _ hi hmid
      · exact hle

theorem le_bisect {p : Nat → Bool} (fuel lo hi : Nat) : lo ≤ bisect p fuel lo hi := by
  induction fuel generalizing lo hi with
  | zero => exact le_rfl
  | succ fuel ih =>
      rw [bisect]
      split
      · dsimp only
        split
        · exact ih lo _
        · exact (by omega : lo ≤ (hi - 1 - lo) / 2 + lo + 1).trans (ih _ hi)
      · exact le_rfl

/-- On a test monotone from `lo` on, bisection returns an index of the
range below which the test fails and from which on it holds. -/
theorem bisect_spec {p : Nat → Bool} (fuel lo hi : Nat)
    (hmono : ∀ i j, lo ≤ i → i ≤ j → p i = true → p j = true)
    (hfuel : hi - lo ≤ fuel) (hle : lo ≤ hi) :
    lo ≤ bisect p fuel lo hi ∧ bisect p fuel lo hi ≤ hi ∧
      (∀ i, lo ≤ i → i < bisect p fuel lo hi → p i = false) ∧
      (∀ i, bisect p fuel lo hi ≤ i → i < hi → p i = true) := by
  induction fuel generalizing lo hi with
  | zero =>
      have heq : lo = hi := by omega
      subst heq
      simp only [bisect]
      exact ⟨le_rfl, le_rfl, fun i _ _ => by omega, fun i _ _ => by omega⟩
  | succ fuel ih =>
      by_cases hlt : lo < hi
      · have hmid : lo ≤ (hi - 1 - lo) / 2 + lo ∧ (hi - 1 - lo) / 2 + lo < hi := by omega
        simp only [bisect, hlt, if_true]
        generalize (hi - 1 - lo) / 2 + lo = mid at hmid
        cases hp : p mid with
        | true =>
            obtain ⟨h₁, h₂, h₃, h₄⟩ := ih lo mid hmono (by omega) hmid.1
            simp only [if_true]
            refine ⟨h₁, by omega, h₃, fun i hi₁ hi₂ => ?_⟩
            by_cases him : i < mid
            · exact h₄ i hi₁ him
            · exact hmono mid i hmid.1 (by omega) hp
        | false =>
            obtain ⟨h₁, h₂, h₃, h₄⟩ := ih (mid + 1) hi
              (fun i j hi₁ hij => hmono i j (by omega) hij) (by omega) (by omega)
            simp only [Bool.false_eq_true, if_false]
            refine ⟨by omega, h₂, fun i hi₁ hi₂ => ?_, h₄⟩
            by_cases him : i ≤ mid
            · cases hpi : p i with
              | false => rfl
              | true => exact absurd (hmono i mid hi₁ him hpi) (by simp [hp])
            · exact h₃ i (by omega) hi₂
      · have heq : lo = hi := by omega
        subst heq
        simp only [bisect, lt_irrefl, if_false]
        exact ⟨le_rfl, le_rfl, fun i _ _ => by omega, fun i _ _ => by omega⟩

/-! ### Searching a list -/

section Lists

variable {α : Type} {q : α → Bool}

/-- The test "`q` holds at position `i`", true beyond the end of the list. -/
def holdsAt (q : α → Bool) (l : List α) (i : Nat) : Bool :=
  match l[i]? with
  | some a => q a
  | none => true

/-- `q` is monotone along `l`: once true it stays true. -/
def Upward (q : α → Bool) (l : List α) : Prop :=
  l.Pairwise fun a b => q a = true → q b = true

theorem Upward.holdsAt_mono {l : List α} {lo : Nat} (h : Upward q (l.drop lo)) :
    ∀ i j, lo ≤ i → i ≤ j → holdsAt q l i = true → holdsAt q l j = true := by
  intro i j hlo hij hi
  unfold holdsAt at hi ⊢
  cases hj : l[j]? with
  | none => rfl
  | some b =>
      obtain ⟨hjl, rfl⟩ := List.getElem?_eq_some_iff.mp hj
      rcases Nat.lt_or_eq_of_le hij with hlt | rfl
      · have hil : i < l.length := by omega
        rw [List.getElem?_eq_getElem hil] at hi
        have hpair := List.pairwise_iff_getElem.mp h (i - lo) (j - lo)
          (by simp; omega) (by simp; omega) (by omega)
        simp only [List.getElem_drop] at hpair
        have hi' : lo + (i - lo) = i := by omega
        have hj' : lo + (j - lo) = j := by omega
        simp only [hi', hj'] at hpair
        exact hpair hi
      · rw [hj] at hi
        exact hi

/-- Bisection of a list from position `lo` on, with a test monotone along
that part, cuts the list where the test becomes true. -/
theorem bisect_holdsAt {l : List α} {lo : Nat} (h : Upward q (l.drop lo)) (fuel : Nat)
    (hfuel : l.length - lo ≤ fuel) (hlo : lo ≤ l.length) :
    lo ≤ bisect (holdsAt q l) fuel lo l.length ∧
      bisect (holdsAt q l) fuel lo l.length ≤ l.length ∧
      (∀ i a, lo ≤ i → i < bisect (holdsAt q l) fuel lo l.length → l[i]? = some a →
        q a = false) ∧
      (∀ i a, bisect (holdsAt q l) fuel lo l.length ≤ i → l[i]? = some a → q a = true) := by
  obtain ⟨h₁, h₂, h₃, h₄⟩ :=
    bisect_spec fuel lo l.length h.holdsAt_mono hfuel hlo
  refine ⟨h₁, h₂, fun i a hi₁ hi₂ hia => ?_, fun i a hi hia => ?_⟩
  · have := h₃ i hi₁ hi₂
    simpa [holdsAt, hia] using this
  · obtain ⟨hil, -⟩ := List.getElem?_eq_some_iff.mp hia
    have := h₄ i hi hil
    simpa [holdsAt, hia] using this

end Lists

/-! ### The loop on a closed interval -/

section Loop

variable {ε : Type}

/-- The loop that halves `[first, last]`, going down where the test holds.
The bounds it ends with, the lower one above the upper one. -/
def searchLoop (test : Int → Except ε Bool) (first last : Int) : Except ε (Int × Int) :=
  if first ≤ last then do
    let mid := (last - first) / 2 + first
    if ← test mid then searchLoop test first (mid - 1) else searchLoop test (mid + 1) last
  else pure (first, last)
termination_by (last + 1 - first).toNat

/-- The loop is the bisection of `[lo, hi)`, if the test can be made there. -/
theorem searchLoop_eq {test : Int → Except ε Bool} {p : Nat → Bool} {fuel lo hi bound : Nat}
    (htest : ∀ i < bound, test i = .ok (p i)) (hfuel : hi - lo ≤ fuel) (hle : lo ≤ hi)
    (hhi : hi ≤ bound) :
    searchLoop test lo (hi - 1) = .ok (bisect p fuel lo hi, (bisect p fuel lo hi : Int) - 1) := by
  induction fuel generalizing lo hi with
  | zero =>
      have hend : ¬(lo : Int) ≤ hi - 1 := by omega
      have heq : hi = lo := by omega
      rw [searchLoop, if_neg hend, heq]
      rfl
  | succ fuel ih =>
      rw [searchLoop, bisect]
      by_cases hlt : lo < hi
      · -- the middle of the closed interval is the middle of the half-open one
        have hmid : ((hi : Int) - 1 - lo) / 2 + lo = ((hi - 1 - lo) / 2 + lo : Nat) := by omega
        have hlo : lo ≤ (hi - 1 - lo) / 2 + lo := Nat.le_add_left ..
        have hmidhi : (hi - 1 - lo) / 2 + lo < hi := by omega
        rw [if_pos (by omega), if_pos hlt, hmid]
        generalize (hi - 1 - lo) / 2 + lo = mid at hlo hmidhi
        simp only [htest mid (by omega), bind, Except.bind]
        cases p mid with
        | true =>
            rw [if_pos rfl, if_pos rfl]
            exact ih (by omega) hlo (by omega)
        | false =>
            have hnext : ((mid + 1 : Nat) : Int) = mid + 1 := rfl
            rw [if_neg Bool.false_ne_true, if_neg Bool.false_ne_true, ← hnext]
            exact ih (by omega) hmidhi hhi
      · have hend : ¬(lo : Int) ≤ hi - 1 := by omega
        have heq : hi = lo := by omega
        rw [if_neg hend, if_neg hlt, heq]
        rfl

end Loop

end ScuDb.Foundations
