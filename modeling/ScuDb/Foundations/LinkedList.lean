import Mathlib.Data.List.Chain
import Mathlib.Data.List.Nodup
import Mathlib.Tactic.Basic

/-!
Doubly linked lists in a memory of links.

`Links α` holds the two pointers of every address, and `Linked k l` says
that the addresses of `l` are linked, in this order and in both
directions. The pointer assignments are `setNext` and `setPrev`. The
rules are what list code does: `prev_mem` and `next_mem` read a pointer,
`unlink` takes an address out and `insert` puts one in. All writing goes
through `join`, which links the last address of one list with the first
of another; that nothing else changes is read off the two lists having
no address in common.
-/

namespace ScuDb.Foundations

variable {α : Type}

/-- The two pointers stored at every address. -/
structure Links (α : Type) where
  next : α → α
  prev : α → α

namespace Links

section Assignments

variable [DecidableEq α]

/-- `a->next = b` -/
def setNext (k : Links α) (a b : α) : Links α := { k with next := Function.update k.next a b }

/-- `a->prev = b` -/
def setPrev (k : Links α) (a b : α) : Links α := { k with prev := Function.update k.prev a b }

@[simp] theorem setNext_next_self (k : Links α) (a b : α) : (k.setNext a b).next a = b := by
  simp [setNext]

theorem setNext_next_of_ne (k : Links α) {a c : α} (b : α) (h : c ≠ a) :
    (k.setNext a b).next c = k.next c := by
  simp [setNext, h]

@[simp] theorem setNext_prev (k : Links α) (a b : α) : (k.setNext a b).prev = k.prev := rfl

@[simp] theorem setPrev_prev_self (k : Links α) (a b : α) : (k.setPrev a b).prev a = b := by
  simp [setPrev]

theorem setPrev_prev_of_ne (k : Links α) {a c : α} (b : α) (h : c ≠ a) :
    (k.setPrev a b).prev c = k.prev c := by
  simp [setPrev, h]

@[simp] theorem setPrev_next (k : Links α) (a b : α) : (k.setPrev a b).next = k.next := rfl

end Assignments

/-- Neighbours in `l` point at each other. -/
def Linked (k : Links α) (l : List α) : Prop :=
  l.IsChain fun a b => k.next a = b ∧ k.prev b = a

namespace Linked

variable {k k' : Links α} {xs ys : List α} {a b x : α}

/-- What `x` points back to stands right before it. -/
theorem prev_mem (h : k.Linked (xs ++ x :: ys)) (hxs : xs ≠ []) : k.prev x ∈ xs := by
  obtain ⟨ws, w, rfl⟩ := (List.eq_nil_or_concat' xs).resolve_left hxs
  rw [List.append_assoc] at h
  rw [(List.isChain_append_cons_cons.mp h).2.1.2]
  simp

/-- The pointers of a list that matter to it: `next` of all but the last
address and `prev` of all but the first. -/
theorem frame (h : k.Linked xs) (hnext : ∀ c ∈ xs.dropLast, k'.next c = k.next c)
    (hprev : ∀ c ∈ xs.tail, k'.prev c = k.prev c) : k'.Linked xs := by
  induction xs with
  | nil => exact List.isChain_nil
  | cons c xs ih =>
      cases xs with
      | nil => exact List.isChain_singleton c
      | cons d xs =>
          obtain ⟨hcd, hrest⟩ := List.isChain_cons_cons.mp h
          apply List.isChain_cons_cons.mpr
          constructor
          · rw [hnext c (by simp), hprev d (by simp)]
            exact hcd
          · apply ih hrest
            · intro e he
              apply hnext
              rw [List.dropLast_cons_cons]
              exact List.mem_cons_of_mem c he
            · intro e he
              exact hprev e (List.mem_of_mem_tail he)

section Assignments

variable [DecidableEq α]

theorem join (hxs : k.Linked (xs ++ [a])) (hys : k.Linked (b :: ys))
    (hnodup : (xs ++ a :: b :: ys).Nodup) :
    ((k.setNext a b).setPrev b a).Linked (xs ++ a :: b :: ys) := by
  obtain ⟨-, hrest, hdisj⟩ := List.nodup_append.mp hnodup
  obtain ⟨ha, hbys⟩ := List.nodup_cons.mp hrest
  obtain ⟨hb, -⟩ := List.nodup_cons.mp hbys
  have hxa (c : α) (hc : c ∈ xs) : c ≠ a := hdisj c hc a List.mem_cons_self
  have hxb (c : α) (hc : c ∈ xs) : c ≠ b :=
    hdisj c hc b (List.mem_cons_of_mem a List.mem_cons_self)
  apply List.isChain_append_cons_cons.mpr
  refine ⟨?left, by simp, ?right⟩
  case left =>
    apply hxs.frame
    · intro c hc
      rw [List.dropLast_concat] at hc
      exact k.setNext_next_of_ne b (hxa c hc)
    · intro c hc
      apply setPrev_prev_of_ne
      rcases List.mem_append.mp (List.mem_of_mem_tail hc) with hc | hc
      · exact hxb c hc
      · rw [List.mem_singleton.mp hc]
        exact fun heq => ha (heq ▸ List.mem_cons_self)
  case right =>
    apply hys.frame
    · intro c hc
      apply setNext_next_of_ne
      exact fun heq => ha (heq ▸ List.dropLast_subset _ hc)
    · intro c hc
      apply setPrev_prev_of_ne
      exact fun heq => hb (heq ▸ hc)

/-- Take `x` out, from between its neighbours. -/
theorem unlink (h : k.Linked (xs ++ x :: ys)) (hnodup : (xs ++ x :: ys).Nodup)
    (hxs : xs ≠ []) (hys : ys ≠ []) :
    ((k.setNext (k.prev x) (k.next x)).setPrev (k.next x) (k.prev x)).Linked (xs ++ ys) := by
  obtain ⟨ws, a, rfl⟩ := (List.eq_nil_or_concat' xs).resolve_left hxs
  obtain ⟨b, zs, rfl⟩ := List.exists_cons_of_ne_nil hys
  have hsub : List.Sublist (ws ++ a :: b :: zs) (ws ++ [a] ++ x :: b :: zs) := by
    rw [List.append_assoc]
    exact ((List.sublist_cons_self x (b :: zs)).cons_cons a).append_left ws
  obtain ⟨hleft, hxb, hright⟩ := List.isChain_append_cons_cons.mp h
  rw [List.append_assoc] at hleft ⊢
  obtain ⟨hws, hax, -⟩ := List.isChain_append_cons_cons.mp hleft
  rw [hax.2, hxb.1]
  exact join hws hright (hsub.nodup hnodup)

/-- Put `x` in, between two neighbours. -/
theorem insert (h : k.Linked (xs ++ a :: b :: ys)) (hnodup : (xs ++ a :: x :: b :: ys).Nodup) :
    ((((k.setNext x b).setPrev b x).setPrev x a).setNext a x).Linked
      (xs ++ a :: x :: b :: ys) := by
  obtain ⟨hxs, -, hys⟩ := List.isChain_append_cons_cons.mp h
  have hleft : (xs ++ [a] ++ x :: b :: ys).Nodup := by
    rwa [List.append_assoc]
  obtain ⟨-, hright, hdisj⟩ := List.nodup_append.mp hleft
  have hxys : ((k.setNext x b).setPrev b x).Linked ([] ++ x :: b :: ys) :=
    join (List.isChain_singleton x) hys hright
  -- the first half is not touched by linking `x` to `b`
  have hxs' : ((k.setNext x b).setPrev b x).Linked (xs ++ [a]) := by
    apply frame hxs
    · intro c hc
      apply setNext_next_of_ne
      exact hdisj c (List.dropLast_subset _ hc) x List.mem_cons_self
    · intro c hc
      apply setPrev_prev_of_ne
      exact hdisj c (List.mem_of_mem_tail hc) b (List.mem_cons_of_mem x List.mem_cons_self)
  exact join hxs' hxys hnodup

end Assignments

end Linked

end Links

end ScuDb.Foundations
