import Mathlib.Data.List.Basic
import Mathlib.Data.List.Induction
import Mathlib.Tactic.Basic

/-!
The cells of an array, shifted in place.

The memory of an array is the list of its cells. An index is an int, and
an access outside the memory stops. Both ways of moving a row of cells by
one are described by the list cut at the place in question: the loop that
goes down from the end and opens a gap, and `memmove`, which closes one.
-/

namespace ScuDb.Foundations

variable {ε α : Type} (stop : ε)

/-- `array[i]` -/
def readCell (cells : List α) (i : Int) : Except ε α :=
  if i < 0 then .error stop
  else match cells[i.toNat]? with
    | some a => .ok a
    | none => .error stop

/-- `array[i] = a` -/
def writeCell (cells : List α) (i : Int) (a : α) : Except ε (List α) :=
  if 0 ≤ i ∧ i < cells.length then .ok (cells.set i.toNat a) else .error stop

/-- `for (; i > index; i--) array[i] = array[i - 1];` -/
def shiftUp (index i : Int) (cells : List α) : Except ε (List α) :=
  if i > index then do
    let a ← readCell stop cells (i - 1)
    let cells ← writeCell stop cells i a
    shiftUp index (i - 1) cells
  else pure cells
termination_by (i - index).toNat

/-- `memmove(array + dst, array + src, n * sizeof(array[0]))` -/
def moveCells (cells : List α) (dst src n : Int) : Except ε (List α) :=
  if 0 ≤ dst ∧ 0 ≤ src ∧ 0 ≤ n ∧ dst + n ≤ cells.length ∧ src + n ≤ cells.length then
    .ok (cells.take dst.toNat ++ (cells.drop src.toNat).take n.toNat ++
      cells.drop (dst + n).toNat)
  else .error stop

variable {stop} {below mid above rest cells : List α} {a b : α} {i : Nat}

theorem readCell_eq (h : i < cells.length) : readCell stop cells i = .ok cells[i] := by
  simp [readCell, h]

theorem readCell_middle (hi : i = below.length) : readCell stop (below ++ a :: rest) i = .ok a := by
  subst hi
  simp [readCell]

theorem writeCell_middle (hi : i = below.length) :
    writeCell stop (below ++ a :: rest) i b = .ok (below ++ b :: rest) := by
  subst hi
  have hlt : (below.length : Int) < (below ++ a :: rest).length := by
    rw [List.length_append, List.length_cons]
    omega
  rw [writeCell, if_pos ⟨Int.natCast_nonneg _, hlt⟩]
  simp

/-- The cells of `mid` go one place up, over the cell behind them; what is
left in the gap is not said. -/
theorem shiftUp_middle :
    ∃ x, shiftUp stop below.length ((below ++ mid).length : Nat) (below ++ mid ++ a :: rest) =
      .ok (below ++ x :: (mid ++ rest)) := by
  -- The loop begins at the end of `mid`, and so does the induction.
  induction mid using List.reverseRecOn generalizing a rest with
  | nil =>
      refine ⟨a, ?_⟩
      rw [List.append_nil, shiftUp, if_neg (Int.lt_irrefl _)]
      rfl
  | append_singleton mid m ih =>
      have hlt : (below ++ (mid ++ [m])).length = (below ++ mid).length + 1 := by
        simp only [List.length_append, List.length_singleton]
        omega
      have hcells : below ++ (mid ++ [m]) ++ a :: rest = below ++ mid ++ m :: a :: rest := by simp
      have hcells' : below ++ mid ++ m :: a :: rest = below ++ mid ++ [m] ++ a :: rest := by simp
      have hlen : (below ++ mid).length + 1 = (below ++ mid ++ [m]).length := by
        rw [List.append_assoc, hlt]
      have hi : (((below ++ mid).length + 1 : Nat) : Int) - 1 = ((below ++ mid).length : Nat) := by
        omega
      have hgap : (below.length : Int) < ((below ++ mid).length + 1 : Nat) := by
        rw [List.length_append]
        omega
      obtain ⟨x, hx⟩ := @ih (m :: rest) m
      refine ⟨x, ?_⟩
      rw [hlt, shiftUp, if_pos hgap, hi, hcells, readCell_middle rfl]
      simp only [bind, Except.bind]
      rw [hcells', writeCell_middle hlen]
      simpa using hx

/-- The cells of `above` go one place down, over the cell in front of them. -/
theorem moveCells_middle :
    moveCells stop (below ++ a :: (above ++ rest)) below.length (below.length + 1 : Nat)
      above.length =
      .ok (below ++ above ++ (below ++ a :: (above ++ rest)).drop (below ++ above).length) := by
  have hlen : (below ++ a :: (above ++ rest)).length =
      below.length + above.length + rest.length + 1 := by
    simp only [List.length_append, List.length_cons]
    omega
  have hend : ((below.length : Int) + above.length).toNat = (below ++ above).length := by
    rw [List.length_append]
    omega
  have hfrom : (below ++ a :: (above ++ rest)).drop (below.length + 1) = above ++ rest := by
    rw [← List.drop_drop, List.drop_left, List.drop_one, List.tail_cons]
  rw [moveCells, if_pos (by rw [hlen]; omega), hend, Int.toNat_natCast, Int.toNat_natCast,
    Int.toNat_natCast, List.take_left, hfrom, List.take_left]

end ScuDb.Foundations
