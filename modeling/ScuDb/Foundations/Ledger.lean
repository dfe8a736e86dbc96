import Mathlib.Logic.Function.Basic
import Mathlib.Data.List.Basic
import ScuDb.Foundations.Refinement

/-!
What transactions have written.

A ledger lists the writes of the transactions that have ended well, and
for every transaction that is open those that it has made so far, the
latest first. A commit moves the writes of its transaction to the former,
an abort forgets them. Transactions that are open have written to
different places.

`recorded` runs a machine and keeps a second state along with it, which
learns of every operation and of its result.
-/

namespace ScuDb.Foundations

/-- Keep a record of the operations of a machine and of their results. -/
def recorded {ε σ τ Op Res : Type} (step : Op → Program ε σ Res) (note : Op → Res → τ → τ)
    (op : Op) : Program ε (σ × τ) Res := fun s => do
  let (r, s') ← step op s.1
  pure (r, (s', note op r s.2))

theorem recorded_ok {ε σ τ Op Res : Type} {step : Op → Program ε σ Res}
    {note : Op → Res → τ → τ} {op : Op} {s s' : σ × τ} {r : Res}
    (h : recorded step note op s = .ok (r, s')) :
    step op s.1 = .ok (r, s'.1) ∧ s'.2 = note op r s.2 := by
  rw [recorded] at h
  cases hrun : step op s.1 with
  | error e =>
      rw [hrun] at h
      cases h
  | ok x =>
      rw [hrun] at h
      cases h
      exact ⟨rfl, rfl⟩

structure Ledger (τ κ ν : Type) where
  done : List (κ × ν)
  pending : τ → List (κ × ν)

namespace Ledger

variable {τ κ ν : Type} [DecidableEq τ] [DecidableEq κ]

def empty : Ledger τ κ ν := ⟨[], fun _ => []⟩

def write (L : Ledger τ κ ν) (t : τ) (k : κ) (v : ν) : Ledger τ κ ν :=
  { L with pending := Function.update L.pending t ((k, v) :: L.pending t) }

def commit (L : Ledger τ κ ν) (t : τ) : Ledger τ κ ν :=
  ⟨L.pending t ++ L.done, Function.update L.pending t []⟩

def abort (L : Ledger τ κ ν) (t : τ) : Ledger τ κ ν :=
  { L with pending := Function.update L.pending t [] }

/-- What the last committed transaction that wrote to `k` has written
there. -/
def committed (L : Ledger τ κ ν) (k : κ) : Option ν := L.done.lookup k

/-- What the open transaction `t` has last written to `k`. -/
def written (L : Ledger τ κ ν) (t : τ) (k : κ) : Option ν := (L.pending t).lookup k

variable (L : Ledger τ κ ν) (t t' : τ) (k k' : κ) (v : ν)

@[simp] theorem committed_write : (L.write t k v).committed k' = L.committed k' := rfl

@[simp] theorem committed_abort : (L.abort t).committed k = L.committed k := rfl

theorem committed_commit :
    (L.commit t).committed k = (L.written t k).or (L.committed k) := List.lookup_append

theorem written_write :
    (L.write t k v).written t' k' = if t' = t ∧ k' = k then some v else L.written t' k' := by
  simp only [write, written, Function.update_apply]
  by_cases ht : t' = t
  · subst ht
    rw [if_pos rfl, List.lookup_cons]
    by_cases hk : k' = k
    · simp [hk]
    · simp [hk, beq_false_of_ne hk]
  · simp [ht]

theorem written_commit :
    (L.commit t).written t' k = if t' = t then none else L.written t' k := by
  simp only [commit, written, Function.update_apply]
  split <;> rfl

theorem written_abort : (L.abort t).written t' k = if t' = t then none else L.written t' k := by
  simp only [abort, written, Function.update_apply]
  split <;> rfl

end Ledger

end ScuDb.Foundations
