import Mathlib.Order.Lattice
import Mathlib.Data.List.Basic
import Mathlib.Tactic.Basic

/-!
A half-open interval cut into consecutive pieces by separators.

An internal node of a search tree is a list of slots, each a key and a
child. Over an interval `[lo, hi)` the first slot's child is responsible
for what lies below the second slot's key, and so on; the key of the
first slot plays no role. `spans` lists the children with their pieces.
All that is used of it is here: how it splits over an append, that the
pieces are disjoint and cover the interval when each is non-empty, and
which piece belongs to a position.
-/

namespace ScuDb.Foundations

variable {K B ι : Type} (rank : K → B)

/-- The bound at which the piece before the slots `l` ends. -/
def boundary (l : List (K × ι)) (hi : B) : B :=
  match l with
  | [] => hi
  | e :: _ => rank e.1

/-- The slots of a list, each with the piece of `[lo, hi)` it is
responsible for. -/
def spans : B → List (K × ι) → B → List (ι × B × B)
  | _, [], _ => []
  | lo, e :: rest, hi => (e.2, lo, boundary rank rest hi) :: spans (boundary rank rest hi) rest hi

variable {rank}

@[simp] theorem boundary_nil (hi : B) : boundary rank ([] : List (K × ι)) hi = hi := rfl

@[simp] theorem boundary_cons (e : K × ι) (l : List (K × ι)) (hi : B) :
    boundary rank (e :: l) hi = rank e.1 := rfl

theorem boundary_append (l l' : List (K × ι)) (hi : B) :
    boundary rank (l ++ l') hi = boundary rank l (boundary rank l' hi) := by
  cases l <;> rfl

@[simp] theorem spans_nil (lo hi : B) : spans rank lo ([] : List (K × ι)) hi = [] := rfl

@[simp] theorem spans_cons (lo hi : B) (e : K × ι) (l : List (K × ι)) :
    spans rank lo (e :: l) hi =
      (e.2, lo, boundary rank l hi) :: spans rank (boundary rank l hi) l hi := rfl

theorem spans_append {l : List (K × ι)} (hl : l ≠ []) (l' : List (K × ι)) (lo hi : B) :
    spans rank lo (l ++ l') hi =
      spans rank lo l (boundary rank l' hi) ++ spans rank (boundary rank l' hi) l' hi := by
  induction l generalizing lo with
  | nil => exact absurd rfl hl
  | cons e l ih =>
      rw [List.cons_append, spans_cons, spans_cons, boundary_append, List.cons_append]
      cases l with
      | nil => rfl
      | cons e' l => rw [ih (by simp)]

/-- Where the pieces behind the slots `l` start, when the next separator is `b`. -/
def start (lo : B) (l : List (K × ι)) (b : B) : B :=
  match l with
  | [] => lo
  | _ :: _ => b

@[simp] theorem start_nil (lo b : B) : start lo ([] : List (K × ι)) b = lo := rfl

@[simp] theorem start_cons (lo b : B) (e : K × ι) (l : List (K × ι)) :
    start lo (e :: l) b = b := rfl

/-- `spans_append` with nothing assumed of the first part. -/
theorem spans_append_start (l l' : List (K × ι)) (lo hi : B) :
    spans rank lo (l ++ l') hi =
      spans rank lo l (boundary rank l' hi) ++
        spans rank (start lo l (boundary rank l' hi)) l' hi := by
  cases l with
  | nil => rfl
  | cons e l => exact spans_append (by simp) l' lo hi

/-- A piece, with the slots before and after its own. -/
theorem exists_append_of_span {lo hi : B} {l : List (K × ι)} {x : ι × B × B}
    (h : x ∈ spans rank lo l hi) :
    ∃ before e after, l = before ++ e :: after ∧
      x = (e.2, start lo before (rank e.1), boundary rank after hi) := by
  induction l generalizing lo with
  | nil => simp at h
  | cons e l ih =>
      rcases List.mem_cons.mp h with rfl | h
      · exact ⟨[], e, l, rfl, rfl⟩
      · obtain ⟨before, f, after, rfl, rfl⟩ := ih h
        refine ⟨e :: before, f, after, rfl, ?_⟩
        cases before <;> rfl

theorem map_fst_spans (rank : K → B) (lo hi : B) (l : List (K × ι)) :
    (spans rank lo l hi).map Prod.fst = l.map Prod.snd := by
  induction l generalizing lo with
  | nil => rfl
  | cons e l ih => simp [ih]

theorem exists_span_of_mem (rank : K → B) (lo hi : B) {l : List (K × ι)} {e : K × ι} (h : e ∈ l) :
    ∃ x ∈ spans rank lo l hi, x.1 = e.2 := by
  have hmem : e.2 ∈ (spans rank lo l hi).map Prod.fst := by
    rw [map_fst_spans]
    exact List.mem_map_of_mem h
  obtain ⟨x, hx, heq⟩ := List.mem_map.mp hmem
  exact ⟨x, hx, heq⟩

theorem exists_mem_of_span {lo hi : B} {l : List (K × ι)} {x : ι × B × B}
    (h : x ∈ spans rank lo l hi) : ∃ e ∈ l, e.2 = x.1 := by
  have hmem : x.1 ∈ l.map Prod.snd := by
    rw [← map_fst_spans rank lo hi l]
    exact List.mem_map_of_mem h
  obtain ⟨e, he, heq⟩ := List.mem_map.mp hmem
  exact ⟨e, he, heq⟩

/-- The piece at a position: it starts at the slot's own key, the first
one at `lo`, and ends at the next slot's key, the last one at `hi`. -/
theorem getElem?_spans (rank : K → B) (lo hi : B) (l : List (K × ι)) (i : Nat) :
    (spans rank lo l hi)[i]? =
      l[i]?.map fun e =>
        (e.2, if i = 0 then lo else rank e.1, boundary rank (l.drop (i + 1)) hi) := by
  induction l generalizing lo i with
  | nil => rfl
  | cons e l ih =>
      cases i with
      | zero => rfl
      | succ i =>
          rw [spans_cons, List.getElem?_cons_succ, List.getElem?_cons_succ, ih]
          cases hi' : l[i]? with
          | none => rfl
          | some e' =>
              cases i with
              | zero =>
                  cases l with
                  | nil => simp at hi'
                  | cons e'' l => simp at hi'; simp [hi']
              | succ i => simp

/-- Behind the first slot, every piece starts at its slot's key. -/
theorem map_start_spans (hi : B) (l : List (K × ι)) :
    (spans rank (boundary rank l hi) l hi).map (fun x => x.2.1) = l.map fun e => rank e.1 := by
  induction l with
  | nil => rfl
  | cons e l ih => simp [ih]

section Order

variable [LinearOrder B]

/-- Non-empty pieces stay inside the interval. -/
theorem span_le {lo hi : B} {l : List (K × ι)}
    (h : ∀ x ∈ spans rank lo l hi, x.2.1 < x.2.2) :
    ∀ x ∈ spans rank lo l hi, lo ≤ x.2.1 ∧ x.2.2 ≤ hi := by
  induction l generalizing lo with
  | nil => simp
  | cons e l ih =>
      simp only [spans_cons, List.forall_mem_cons] at h ⊢
      have hrest := ih h.2
      have hle : boundary rank l hi ≤ hi := by
        cases l with
        | nil => exact le_rfl
        | cons e' l =>
            simp only [spans_cons, List.forall_mem_cons] at hrest h
            exact (h.2.1.trans_le hrest.1.2).le
      exact ⟨⟨le_rfl, hle⟩, fun x hx => ⟨h.1.le.trans (hrest x hx).1, (hrest x hx).2⟩⟩

/-- An interval with a slot is not empty when the pieces are not. -/
theorem lt_of_spans {lo hi : B} {l : List (K × ι)} (hl : l ≠ [])
    (h : ∀ x ∈ spans rank lo l hi, x.2.1 < x.2.2) : lo < hi := by
  cases l with
  | nil => exact absurd rfl hl
  | cons e l =>
      have hmem : (e.2, lo, boundary rank l hi) ∈ spans rank lo (e :: l) hi :=
        List.mem_cons_self
      exact (h _ hmem).trans_le (span_le h _ hmem).2

/-- The pieces come in order: an earlier one ends before a later one starts. -/
theorem spans_pairwise {lo hi : B} {l : List (K × ι)}
    (h : ∀ x ∈ spans rank lo l hi, x.2.1 < x.2.2) :
    (spans rank lo l hi).Pairwise fun x y => x.2.2 ≤ y.2.1 := by
  induction l generalizing lo with
  | nil => exact List.Pairwise.nil
  | cons e l ih =>
      simp only [spans_cons, List.forall_mem_cons] at h
      rw [spans_cons, List.pairwise_cons]
      refine ⟨fun y hy => ?_, ih h.2⟩
      exact (span_le h.2 y hy).1

theorem tail_pairwise_of_spans {lo hi : B} {l : List (K × ι)}
    (h : ∀ x ∈ spans rank lo l hi, x.2.1 < x.2.2) :
    l.tail.Pairwise fun a b => rank a.1 < rank b.1 := by
  cases l with
  | nil => exact List.Pairwise.nil
  | cons e l =>
      simp only [spans_cons, List.forall_mem_cons] at h
      rw [List.tail_cons]
      have hmap : (l.map fun e => rank e.1).Pairwise (· < ·) := by
        rw [← map_start_spans hi l, List.pairwise_map]
        exact (spans_pairwise h.2).imp_of_mem fun hx _ hle => (h.2 _ hx).trans_le hle
      exact List.pairwise_map.mp hmap

/-- The slots of non-empty pieces are different. -/
theorem spans_nodup {lo hi : B} {l : List (K × ι)}
    (h : ∀ x ∈ spans rank lo l hi, x.2.1 < x.2.2)
    (hone : ∀ x ∈ spans rank lo l hi, ∀ y ∈ spans rank lo l hi, x.1 = y.1 → x.2 = y.2) :
    (l.map Prod.snd).Nodup := by
  rw [← map_fst_spans rank lo hi l, List.Nodup, List.pairwise_map]
  refine (spans_pairwise h).imp_of_mem fun {x y} hx hy hle heq => ?_
  have hsame := hone x hx y hy heq
  have hlt := h x hx
  rw [hsame] at hlt hle
  exact absurd (hlt.trans_le hle) (lt_irrefl _)

/-- Two non-empty pieces with a common position are the same one. -/
theorem span_unique {lo hi : B} {l : List (K × ι)}
    (h : ∀ x ∈ spans rank lo l hi, x.2.1 < x.2.2) {x y : ι × B × B}
    (hx : x ∈ spans rank lo l hi) (hy : y ∈ spans rank lo l hi) {b : B}
    (hbx : x.2.1 ≤ b ∧ b < x.2.2) (hby : y.2.1 ≤ b ∧ b < y.2.2) : x = y := by
  by_contra hne
  have hpair : ∀ a ∈ spans rank lo l hi, ∀ c ∈ spans rank lo l hi, a ≠ c →
      a.2.2 ≤ c.2.1 ∨ c.2.2 ≤ a.2.1 :=
    fun a ha c hc hac => List.Pairwise.forall_of_forall_of_flip
      (R := fun a c => a ≠ c → a.2.2 ≤ c.2.1 ∨ c.2.2 ≤ a.2.1)
      (fun a _ hne => absurd rfl hne)
      ((spans_pairwise h).imp fun hle _ => Or.inl hle)
      ((spans_pairwise h).imp fun hle _ => Or.inr hle) ha hc hac
  rcases hpair x hx y hy hne with hle | hle
  · exact absurd ((hbx.2.trans_le hle).trans_le hby.1) (lt_irrefl b)
  · exact absurd ((hby.2.trans_le hle).trans_le hbx.1) (lt_irrefl b)

/-- Every position of the interval is in the piece of some slot. -/
theorem exists_span {lo hi b : B} {l : List (K × ι)} (hl : l ≠ []) (hlo : lo ≤ b)
    (hhi : b < hi) : ∃ x ∈ spans rank lo l hi, x.2.1 ≤ b ∧ b < x.2.2 := by
  induction l generalizing lo with
  | nil => exact absurd rfl hl
  | cons e l ih =>
      rcases lt_or_ge b (boundary rank l hi) with hlt | hge
      · exact ⟨_, List.mem_cons_self, hlo, hlt⟩
      · have hrest : l ≠ [] := by
          rintro rfl
          exact absurd hhi (not_lt.mpr hge)
        obtain ⟨x, hx, hb⟩ := ih hrest hge
        exact ⟨x, List.mem_cons_of_mem _ hx, hb⟩

end Order

end ScuDb.Foundations
