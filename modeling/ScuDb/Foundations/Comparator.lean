import Mathlib.Order.WithBot
import Mathlib.Order.BoundedOrder.Basic
import Mathlib.Data.Set.Basic

/-!
Three-way comparators that are a strict total order on the keys in use.

A comparator is a function into the integers whose sign is the answer.
Nothing is asked of it outside a set `S` of keys: a page may hold bytes
that were never a key, and the comparator is not applied to them. Inside
`S`, `exists_ranked` replaces the comparator by a rank into a linear
order with a least and a greatest element strictly outside the ranks, so
that intervals of keys can be unbounded on either side without a special
case.
-/

namespace ScuDb.Foundations

variable {K B : Type}

/-- The comparator orders the keys of `S` strictly and totally, and
calls two of them equal only when they are. -/
structure StrictTotalOrderOn (cmp : K → K → Int) (S : Set K) : Prop where
  eq_zero_iff : ∀ a ∈ S, ∀ b ∈ S, cmp a b = 0 ↔ a = b
  neg_iff_pos : ∀ a ∈ S, ∀ b ∈ S, cmp a b < 0 ↔ 0 < cmp b a
  trans : ∀ a ∈ S, ∀ b ∈ S, ∀ c ∈ S, cmp a b < 0 → cmp b c < 0 → cmp a c < 0

/-- `rank` maps the keys of `S` into a linear order as `cmp` orders them. -/
structure Ranked [LinearOrder B] [BoundedOrder B] (cmp : K → K → Int) (S : Set K)
    (rank : K → B) : Prop where
  neg_iff : ∀ {a b}, a ∈ S → b ∈ S → (cmp a b < 0 ↔ rank a < rank b)
  pos_iff : ∀ {a b}, a ∈ S → b ∈ S → (0 < cmp a b ↔ rank b < rank a)
  inj : ∀ {a b}, a ∈ S → b ∈ S → rank a = rank b → a = b
  bot_lt : ∀ {a}, a ∈ S → ⊥ < rank a
  lt_top : ∀ {a}, a ∈ S → rank a < ⊤

namespace Ranked

variable [LinearOrder B] [BoundedOrder B] {cmp : K → K → Int} {S : Set K} {rank : K → B}

theorem zero_iff (h : Ranked cmp S rank) {a b : K} (ha : a ∈ S) (hb : b ∈ S) :
    cmp a b = 0 ↔ a = b := by
  constructor
  · intro hzero
    refine h.inj ha hb (le_antisymm ?_ ?_)
    · exact not_lt.mp fun hlt => by have := (h.pos_iff ha hb).mpr hlt; omega
    · exact not_lt.mp fun hlt => by have := (h.neg_iff ha hb).mpr hlt; omega
  · rintro rfl
    have hneg := mt (h.neg_iff ha ha).mp (lt_irrefl _)
    have hpos := mt (h.pos_iff ha ha).mp (lt_irrefl _)
    omega

theorem nonneg_iff (h : Ranked cmp S rank) {a b : K} (ha : a ∈ S) (hb : b ∈ S) :
    0 ≤ cmp a b ↔ rank b ≤ rank a := by
  rw [← not_lt, h.neg_iff ha hb, not_lt]

end Ranked

namespace StrictTotalOrderOn

variable {cmp : K → K → Int} {S : Set K}

theorem refl_zero (h : StrictTotalOrderOn cmp S) {a : K} (ha : a ∈ S) : cmp a a = 0 :=
  (h.eq_zero_iff a ha a ha).mpr rfl

/-- The order the comparator puts on the keys of `S`. -/
noncomputable abbrev linearOrder (h : StrictTotalOrderOn cmp S) : LinearOrder S where
  le a b := cmp a b ≤ 0
  lt a b := cmp a b < 0
  le_refl a := by rw [h.refl_zero a.2]
  le_trans a b c hab hbc := by
    rcases lt_or_eq_of_le hab with hab | hab
    · rcases lt_or_eq_of_le hbc with hbc | hbc
      · exact (h.trans a a.2 b b.2 c c.2 hab hbc).le
      · rw [← (h.eq_zero_iff b b.2 c c.2).mp hbc]
        exact hab.le
    · rw [(h.eq_zero_iff a a.2 b b.2).mp hab]
      exact hbc
  lt_iff_le_not_ge a b := by
    have := h.neg_iff_pos a a.2 b b.2
    constructor
    · intro hlt
      exact ⟨hlt.le, fun hle => by have := this.mp hlt; omega⟩
    · rintro ⟨-, hnle⟩
      exact this.mpr (by omega)
  le_antisymm a b hab hba := by
    refine Subtype.ext ((h.eq_zero_iff a a.2 b b.2).mp (le_antisymm hab ?_))
    by_contra hneg
    have := (h.neg_iff_pos a a.2 b b.2).mp (by omega)
    omega
  le_total a b := by
    have := h.neg_iff_pos b b.2 a a.2
    by_cases hab : cmp a b ≤ 0
    · exact Or.inl hab
    · exact Or.inr (this.mpr (by omega)).le
  toDecidableLE := Classical.decRel _

/-- The keys of `S`, ordered by the comparator, sit strictly inside a
bounded linear order. -/
theorem exists_ranked (h : StrictTotalOrderOn cmp S) :
    ∃ (B : Type) (_ : LinearOrder B) (_ : BoundedOrder B) (rank : K → B),
      Ranked cmp S rank := by
  classical
  let _ := h.linearOrder
  refine ⟨WithBot (WithTop S), inferInstance, inferInstance,
    fun k => if hk : k ∈ S then ((⟨k, hk⟩ : S) : WithTop S) else ⊥, ?_, ?_, ?_, ?_, ?_⟩
  · intro a b ha hb
    simp only [ha, hb, dif_pos, WithBot.coe_lt_coe, WithTop.coe_lt_coe]
    rfl
  · intro a b ha hb
    simp only [ha, hb, dif_pos, WithBot.coe_lt_coe, WithTop.coe_lt_coe]
    exact (h.neg_iff_pos b hb a ha).symm
  · intro a b ha hb hab
    simp only [ha, hb, dif_pos, WithBot.coe_inj, WithTop.coe_inj] at hab
    exact congrArg Subtype.val hab
  · intro a ha
    simp only [ha, dif_pos]
    exact WithBot.bot_lt_coe _
  · intro a ha
    simp only [ha, dif_pos]
    exact WithBot.coe_lt_coe.mpr (WithTop.coe_lt_top _)

end StrictTotalOrderOn

/-- Subtraction orders the integers. -/
theorem strictTotalOrderOn_sub : StrictTotalOrderOn (fun a b : Int => a - b) Set.univ where
  eq_zero_iff a _ b _ := Int.sub_eq_zero
  neg_iff_pos a _ b _ := by omega
  trans a _ b _ c _ hab hbc := by omega

/-! ### Lexicographic comparison -/

section Lexicographic

variable {α : Type} [LinearOrder α]

/-- The first place where the lists differ decides. -/
def lexCompare : List α → List α → Int
  | a :: as, b :: bs => if a < b then -1 else if b < a then 1 else lexCompare as bs
  | _, _ => 0

@[simp] theorem lexCompare_self (as : List α) : lexCompare as as = 0 := by
  induction as with
  | nil => rfl
  | cons a as ih => simp [lexCompare, ih]

theorem lexCompare_swap (as bs : List α) : lexCompare bs as = -lexCompare as bs := by
  induction as generalizing bs with
  | nil => cases bs <;> rfl
  | cons a as ih =>
      cases bs with
      | nil => rfl
      | cons b bs =>
          rcases lt_trichotomy a b with hlt | rfl | hlt
          · simp [lexCompare, hlt, hlt.not_gt]
          · simp [lexCompare, ih bs]
          · simp [lexCompare, hlt, hlt.not_gt]

theorem eq_of_lexCompare_eq_zero {as bs : List α} (hlen : as.length = bs.length)
    (h : lexCompare as bs = 0) : as = bs := by
  induction as generalizing bs with
  | nil => exact (List.length_eq_zero_iff.mp hlen.symm).symm
  | cons a as ih =>
      cases bs with
      | nil => cases hlen
      | cons b bs =>
          rcases lt_trichotomy a b with hlt | rfl | hlt
          · simp [lexCompare, hlt] at h
          · simp only [lexCompare, lt_irrefl, if_false] at h
            rw [ih (Nat.succ.inj hlen) h]
          · simp [lexCompare, hlt, hlt.not_gt] at h

theorem lexCompare_trans {as bs cs : List α} (hab : as.length = bs.length)
    (hbc : bs.length = cs.length) (h₁ : lexCompare as bs ≤ 0) (h₂ : lexCompare bs cs ≤ 0) :
    lexCompare as cs ≤ 0 := by
  induction as generalizing bs cs with
  | nil => cases cs <;> exact le_rfl
  | cons a as ih =>
      cases bs with
      | nil => cases hab
      | cons b bs =>
          cases cs with
          | nil => cases hbc
          | cons c cs =>
              have hle : ∀ {x y : α} {xs ys : List α}, lexCompare (x :: xs) (y :: ys) ≤ 0 →
                  x < y ∨ x = y ∧ lexCompare xs ys ≤ 0 := by
                intro x y xs ys h
                rcases lt_trichotomy x y with hlt | rfl | hlt
                · exact Or.inl hlt
                · exact Or.inr ⟨rfl, by simpa [lexCompare] using h⟩
                · simp [lexCompare, hlt, hlt.not_gt] at h
              have hlt : ∀ {x y : α} (xs ys : List α), x < y →
                  lexCompare (x :: xs) (y :: ys) ≤ 0 := by
                intro x y xs ys hxy
                simp [lexCompare, hxy]
              rcases hle h₁ with hab' | ⟨rfl, h₁'⟩
              · rcases hle h₂ with hbc' | ⟨rfl, -⟩
                · exact hlt _ _ (hab'.trans hbc')
                · exact hlt _ _ hab'
              · rcases hle h₂ with hbc' | ⟨rfl, h₂'⟩
                · exact hlt _ _ hbc'
                · have := ih (Nat.succ.inj hab) (Nat.succ.inj hbc) h₁' h₂'
                  simpa [lexCompare] using this

end Lexicographic

end ScuDb.Foundations
