import ScuDb.Foundations.Refinement
import ScuDb.Hash.ExtendibleHash

/-!
`ExtendibleHash` as a finite map.

A sequence of calls is followed on a map from keys to values, in which an
insertion replaces what is stored. `Insert` does not: `std::map::insert`
leaves a present key with its old value. So the table says what the map
says exactly as long as no call inserts a present key with another value.
-/

namespace ScuDb

open Foundations

/-- A call of the hash table. -/
inductive HashOp (K V : Type)
  | insert (key : K) (value : V)
  | remove (key : K)
  | find (key : K)

/-- What a call returns. -/
inductive HashResult (V : Type)
  | done
  | removed (present : Bool)
  | found (value : Option V)

variable {K V : Type} [DecidableEq K]

/-- The effect of a call on the table. An `Insert` that needs more than
`fuel` rounds does not end. -/
def HashOp.run (hashKey : K → Nat) (fuel : Nat) :
    HashOp K V → Program Unit (ExtendibleHash K V) (HashResult V)
  | .insert key value => fun t =>
      match t.insert hashKey fuel key value with
      | some s => .ok (.done, s)
      | none => .error ()
  | .remove key => fun t => .ok (.removed (t.remove hashKey key).1, (t.remove hashKey key).2)
  | .find key => fun t => .ok (.found (t.find hashKey key), t)

/-- The effect of a call on a map. -/
def HashOp.onMap : HashOp K V → (K → Option V) → HashResult V × (K → Option V)
  | .insert key value, m => (.done, Function.update m key (some value))
  | .remove key, m => (.removed (m key).isSome, Function.update m key none)
  | .find key, m => (.found (m key), m)

/-- The call does not insert a present key with another value. -/
def HashOp.KeepsValue : HashOp K V → (K → Option V) → Prop
  | .insert key value, m => ∀ w, m key = some w → w = value
  | _, _ => True

namespace ExtendibleHash

/-- What a sequence of calls leaves in a map that is empty at first. -/
def mapAfter (ops : List (HashOp K V)) : K → Option V :=
  (specAll HashOp.onMap ops fun _ => none).2

/-- After every prefix of the calls the results have been those of the
map, and `Find` gives for each key what the map holds. -/
def RefinesMap (hashKey : K → Nat) (size fuel : Nat) (ops : List (HashOp K V)) : Prop :=
  ∀ before, before <+: ops → ∀ rs t,
    runAll (HashOp.run hashKey fuel) before (empty size) = .ok (rs, t) →
    rs = (specAll HashOp.onMap before fun _ => none).1 ∧
      ∀ k, t.find hashKey k = mapAfter before k

/-- The table holds what the map holds. -/
def Holds (hashKey : K → Nat) (t : ExtendibleHash K V) (m : K → Option V) : Prop :=
  t.Wf hashKey ∧ ∀ k, t.find hashKey k = m k

variable {hashKey : K → Nat}

theorem insert_of_run {key : K} {value : V} {fuel : Nat} {t s : ExtendibleHash K V}
    {r : HashResult V} (hrun : (HashOp.insert key value).run hashKey fuel t = .ok (r, s)) :
    t.insert hashKey fuel key value = some s ∧ r = .done := by
  simp only [HashOp.run] at hrun
  split at hrun
  case h_1 s' hins =>
    cases hrun
    exact ⟨hins, rfl⟩
  case h_2 => cases hrun

theorem Wf.run {t s : ExtendibleHash K V} {op : HashOp K V} {fuel : Nat} {r : HashResult V}
    (h : t.Wf hashKey) (hrun : op.run hashKey fuel t = .ok (r, s)) : s.Wf hashKey := by
  cases op with
  | insert key value => exact (h.insertLoop (insert_of_run hrun).1).1
  | remove key =>
      cases hrun
      exact (h.remove key).1
  | find key =>
      cases hrun
      exact h

/-- A call that keeps a stored value does to the table what it does to the
map. -/
theorem follows_onMap (hashKey : K → Nat) (fuel : Nat) :
    Follows (Holds hashKey) HashOp.KeepsValue (HashOp.run (V := V) hashKey fuel)
      HashOp.onMap := by
  intro op t m r s hR hop hrun
  obtain ⟨hwf, hfind⟩ := hR
  cases op with
  | insert key value =>
      obtain ⟨hins, rfl⟩ := insert_of_run hrun
      obtain ⟨hs, -, hnew⟩ := hwf.insertLoop hins
      refine ⟨rfl, hs, fun k => ?_⟩
      show s.find hashKey k = Function.update m key (some value) k
      rw [hnew k, Function.update_apply, hfind, hfind]
      have hkept : (m key).getD value = value := by
        cases hm : m key with
        | none => rfl
        | some w => exact hop w hm
      rw [hkept]
  | remove key =>
      cases hrun
      obtain ⟨hs, hpresent, hnew⟩ := hwf.remove key
      refine ⟨?_, hs, fun k => ?_⟩
      · rw [hpresent, hfind]
        rfl
      · show _ = Function.update m key none k
        rw [hnew k, hfind, Function.update_apply]
  | find key =>
      cases hrun
      refine ⟨?_, hwf, hfind⟩
      rw [hfind]
      rfl

theorem wf_of_runAll {fuel size : Nat} {ops : List (HashOp K V)} {rs : List (HashResult V)}
    {t : ExtendibleHash K V}
    (hrun : runAll (HashOp.run hashKey fuel) ops (empty size) = .ok (rs, t)) : t.Wf hashKey := by
  suffices hall : ∀ {s : ExtendibleHash K V} {rs}, s.Wf hashKey →
      runAll (HashOp.run hashKey fuel) ops s = .ok (rs, t) → t.Wf hashKey from
    hall (Wf.empty size) hrun
  clear hrun
  induction ops with
  | nil =>
      intro s rs hs hrun
      cases hrun
      exact hs
  | cons op ops ih =>
      intro s rs hs hrun
      obtain ⟨r, s₁, rs', hop, hrest, -⟩ := runAll_cons_ok hrun
      exact ih (hs.run hop) hrest

/-- A sequence of calls that end is a sequence of operations on a finite
map exactly when none of them inserts a present key with another value. -/
theorem refinesMap_iff {size fuel : Nat} {ops : List (HashOp K V)} {rs : List (HashResult V)}
    {t : ExtendibleHash K V}
    (hrun : runAll (HashOp.run hashKey fuel) ops (empty size) = .ok (rs, t)) :
    RefinesMap hashKey size fuel ops ↔
      Admissible HashOp.KeepsValue HashOp.onMap ops fun _ => none := by
  constructor
  · intro h
    rw [admissible_iff]
    rintro before op after rfl
    obtain ⟨rs₁, t₁, rs₂, hbefore, hafter⟩ := runAll_append_ok hrun
    obtain ⟨r, t₂, rs₃, hop, -, -⟩ := runAll_cons_ok hafter
    obtain ⟨-, hfind⟩ := h before (List.prefix_append _ _) rs₁ t₁ hbefore
    cases op with
    | insert key value =>
        intro w hw
        -- the table keeps `w`, the map has `value` after this call
        obtain ⟨hins, -⟩ := insert_of_run hop
        have hkept := ((wf_of_runAll hbefore).insertLoop hins).2.2 key
        obtain ⟨-, hnew⟩ := h (before ++ [.insert key value])
          ⟨after, by rw [List.append_assoc]; rfl⟩ _ t₂ (runAll_concat hbefore hop)
        have hstored : mapAfter (before ++ [.insert key value]) key = some value := by
          rw [mapAfter, specAll_append]
          exact Function.update_self _ _ _
        rw [hnew key, hstored, if_pos rfl, hfind key, mapAfter, hw] at hkept
        exact (Option.some.inj hkept).symm
    | remove key => trivial
    | find key => trivial
  · rintro hok before ⟨after, rfl⟩ rs₁ t₁ hbefore
    have hprefix : Admissible HashOp.KeepsValue HashOp.onMap before
        (fun _ => none : K → Option V) := by
      rw [admissible_iff] at hok ⊢
      rintro first op rest rfl
      exact hok first op (rest ++ after) (by rw [List.append_assoc, List.cons_append])
    have hstart : Holds hashKey (empty size : ExtendibleHash K V) fun _ => none := by
      refine ⟨Wf.empty size, fun k => ?_⟩
      simp [find, ExtendibleHash.empty]
    obtain ⟨hrs, -, hfind⟩ := (follows_onMap hashKey fuel).run hstart hprefix hbefore
    exact ⟨hrs, hfind⟩

/-- A key is inserted, removed and inserted again. -/
theorem refinesMap_reinserted :
    RefinesMap (fun k : Nat => k) 2 1 [.insert 1 1, .remove 1, .insert 1 3, .find 1] ↔
      Admissible HashOp.KeepsValue HashOp.onMap
        [HashOp.insert 1 1, .remove 1, .insert 1 3, .find 1] fun _ => (none : Option Nat) :=
  refinesMap_iff (V := Nat) (K := Nat) (t := _) rfl

/-- A present key is inserted with another value: the calls end, but
`Find` still gives the first value. -/
theorem insert_present_not_refined :
    (∃ t, runAll (HashOp.run (fun k : Nat => k) 1) [.insert 1 1, .insert 1 3, .find 1]
      (empty 2) = .ok ([.done, .done, .found (some 1)], t)) ∧
    ¬RefinesMap (fun k : Nat => k) 2 1 [.insert 1 1, .insert 1 3, .find 1] := by
  have hrun : ∃ t, runAll (HashOp.run (fun k : Nat => k) 1) [.insert 1 1, .insert 1 3, .find 1]
      (empty 2) = .ok ([.done, .done, .found (some 1)], t) := ⟨_, rfl⟩
  refine ⟨hrun, fun h => ?_⟩
  obtain ⟨t, hrun⟩ := hrun
  obtain ⟨hrs, -⟩ := h _ (List.prefix_refl _) _ t hrun
  cases hrs

end ExtendibleHash

end ScuDb
