import Mathlib.Order.Basic
import Mathlib.Data.List.Basic
import Mathlib.Data.Set.Basic
import Mathlib.Tactic.Basic

/-!
Lists of entries in strict key order, with all keys in an interval.

`rank` places the keys in a linear order and `S` is the set of keys in
use. A list is cut at a key into the entries before it and those from it
on; inserting, replacing and removing an entry are described by the cut.
-/

namespace ScuDb.Foundations

variable {K V B : Type} [LinearOrder B]

/-- The entries are in strict key order, and their keys are in use and
lie in `[lo, hi)`. -/
structure SortedWithin (rank : K → B) (S : Set K) (lo hi : B) (l : List (K × V)) : Prop where
  mem : ∀ e ∈ l, e.1 ∈ S ∧ lo ≤ rank e.1 ∧ rank e.1 < hi
  sorted : l.Pairwise fun a b => rank a.1 < rank b.1

/-- `l` is `below` followed by `above`, cut at the position `b`. -/
structure CutAt (rank : K → B) (b : B) (l below above : List (K × V)) : Prop where
  eq_append : l = below ++ above
  below_lt : ∀ e ∈ below, rank e.1 < b
  le_above : ∀ e ∈ above, b ≤ rank e.1

namespace SortedWithin

variable {rank : K → B} {S : Set K} {lo mid hi : B} {l l' : List (K × V)}

theorem nil : SortedWithin rank S lo hi ([] : List (K × V)) :=
  ⟨by simp, List.Pairwise.nil⟩

theorem append (h : SortedWithin rank S lo mid l) (h' : SortedWithin rank S mid hi l')
    (hlo : lo ≤ mid) (hhi : mid ≤ hi) : SortedWithin rank S lo hi (l ++ l') := by
  refine ⟨fun e he => ?_, List.pairwise_append.mpr ⟨h.sorted, h'.sorted, ?_⟩⟩
  · rcases List.mem_append.mp he with he | he
    · obtain ⟨hS, hle, hlt⟩ := h.mem e he
      exact ⟨hS, hle, hlt.trans_le hhi⟩
    · obtain ⟨hS, hle, hlt⟩ := h'.mem e he
      exact ⟨hS, hlo.trans hle, hlt⟩
  · intro a ha b hb
    exact (h.mem a ha).2.2.trans_le (h'.mem b hb).2.1

/-- Cutting a list in front of one of its entries. -/
theorem split {e : K × V} (h : SortedWithin rank S lo hi (l ++ e :: l')) :
    SortedWithin rank S lo (rank e.1) l ∧ SortedWithin rank S (rank e.1) hi (e :: l') := by
  obtain ⟨hl, hl', hcross⟩ := List.pairwise_append.mp h.sorted
  refine ⟨⟨fun a ha => ?_, hl⟩, ⟨fun a ha => ?_, hl'⟩⟩
  · obtain ⟨hS, hle, -⟩ := h.mem a (List.mem_append_left _ ha)
    exact ⟨hS, hle, hcross a ha e List.mem_cons_self⟩
  · obtain ⟨hS, -, hlt⟩ := h.mem a (List.mem_append_right _ ha)
    refine ⟨hS, ?_, hlt⟩
    rcases List.mem_cons.mp ha with rfl | ha
    · exact le_rfl
    · exact ((List.pairwise_cons.mp hl').1 a ha).le

theorem sublist (h : SortedWithin rank S lo hi l) (hsub : l'.Sublist l) :
    SortedWithin rank S lo hi l' :=
  ⟨fun e he => h.mem e (hsub.subset he), h.sorted.sublist hsub⟩

theorem lt_of_mem {e : K × V} (h : SortedWithin rank S lo hi l) (he : e ∈ l) :
    lo ≤ rank e.1 ∧ rank e.1 < hi := (h.mem e he).2

/-- An entry whose key is not there yet goes where the list is cut. -/
theorem insert {k : K} {v : V} {below above : List (K × V)} (h : SortedWithin rank S lo hi l)
    (hcut : CutAt rank (rank k) l below above) (hk : k ∈ S) (hlo : lo ≤ rank k)
    (hhi : rank k < hi) (hnew : ∀ e ∈ l, rank e.1 ≠ rank k) :
    SortedWithin rank S lo hi (below ++ (k, v) :: above) := by
  obtain ⟨rfl, hbelow, habove⟩ := hcut
  obtain ⟨hb, ha, hcross⟩ := List.pairwise_append.mp h.sorted
  refine ⟨fun e he => ?_, List.pairwise_append.mpr ⟨hb, List.pairwise_cons.mpr ⟨?_, ha⟩, ?_⟩⟩
  · rw [List.mem_append, List.mem_cons] at he
    rcases he with he | rfl | he
    · exact h.mem e (List.mem_append_left _ he)
    · exact ⟨hk, hlo, hhi⟩
    · exact h.mem e (List.mem_append_right _ he)
  · intro e he
    exact lt_of_le_of_ne (habove e he) (hnew e (List.mem_append_right _ he)).symm
  · intro a ha' e he
    rcases List.mem_cons.mp he with rfl | he
    · exact hbelow a ha'
    · exact hcross a ha' e he

end SortedWithin

end ScuDb.Foundations
