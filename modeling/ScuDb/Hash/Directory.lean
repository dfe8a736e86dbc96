import Mathlib.Data.Int.CardIntervalMod
import ScuDb.Hash.MapRefinement

/-!
The directory of a reachable hash table.

`Wf` says where the directory leads. Here the buckets are counted: a
bucket of local depth `d` has one index for each choice of the bits that
it does not use, `mBucketNum` is the number of buckets, and none of them
holds more than `mBucketSize` entries.
-/

namespace ScuDb

open Foundations

variable {K V : Type}

namespace ExtendibleHash

/-- The directory and the buckets of a table of bucket size `size`. -/
structure DirectoryInvariant (hashKey : K → Nat) (size : Nat) (t : ExtendibleHash K V) :
    Prop where
  length : t.mBuckets.length = 2 ^ t.mGlobalDepth
  depth : ∀ p ∈ t.mBuckets, (t.buckets p).localDepth ≤ t.mGlobalDepth
  indices : ∀ i < 2 ^ t.mGlobalDepth, ∀ j < 2 ^ t.mGlobalDepth,
    t.bucketAt j = t.bucketAt i ↔ j ≡ i [MOD 2 ^ (t.buckets (t.bucketAt i)).localDepth]
  references : ∀ p ∈ t.mBuckets,
    ((Finset.range (2 ^ t.mGlobalDepth)).filter fun j => t.bucketAt j = p).card =
      2 ^ (t.mGlobalDepth - (t.buckets p).localDepth)
  bits : ∀ i < 2 ^ t.mGlobalDepth, ∀ k ∈ (t.buckets (t.bucketAt i)).dataMap,
    hashKey k ≡ i [MOD 2 ^ (t.buckets (t.bucketAt i)).localDepth]
  found : ∀ p ∈ t.mBuckets, ∀ k ∈ (t.buckets p).dataMap,
    t.bucketAt (t.getBucketIndex hashKey k) = p
  room : ∀ p ∈ t.mBuckets, (t.buckets p).dataMap.entries.length ≤ size
  bucketNum : t.mBucketNum = t.mBuckets.toFinset.card

/-- The part of the invariant that `Wf` does not say. -/
structure Counted (size : Nat) (t : ExtendibleHash K V) : Prop where
  bucketSize : t.mBucketSize = size
  room : ∀ p ∈ t.mBuckets, (t.buckets p).dataMap.entries.length ≤ size
  bucketNum : t.mBucketNum = t.mBuckets.toFinset.card

/-! ### The buckets in the directory -/

variable {hashKey : K → Nat} {t : ExtendibleHash K V} {p i : Nat} {size : Nat}

theorem Routes.mem_mBuckets_iff (h : t.Routes) :
    p ∈ t.mBuckets ↔ ∃ i < 2 ^ t.mGlobalDepth, t.bucketAt i = p := by
  rw [List.mem_iff_getElem]
  constructor
  · rintro ⟨i, hi, rfl⟩
    refine ⟨i, h.length ▸ hi, ?_⟩
    rw [bucketAt, List.getD_eq_getElem _ _ hi]
  · rintro ⟨i, hi, rfl⟩
    refine ⟨i, h.length ▸ hi, ?_⟩
    rw [bucketAt, List.getD_eq_getElem]

theorem Routes.bucketAt_mem (h : t.Routes) (hi : i < 2 ^ t.mGlobalDepth) :
    t.bucketAt i ∈ t.mBuckets :=
  h.mem_mBuckets_iff.mpr ⟨i, hi, rfl⟩

/-- Both values of a bit that is free in a bucket occur in its indices. -/
theorem exists_modEq_testBit {d g : Nat} (hd : d < g) (i : Nat) (b : Bool) :
    ∃ j < 2 ^ g, j ≡ i [MOD 2 ^ d] ∧ j.testBit d = b := by
  have hlow : (i % 2 ^ d).testBit d = false := by simp
  have hlt : i % 2 ^ d < 2 ^ d := Nat.mod_lt _ (Nat.two_pow_pos d)
  have hpow : 2 ^ (d + 1) ≤ 2 ^ g := Nat.pow_le_pow_right (by omega) hd
  rw [pow_succ] at hpow
  cases b with
  | false => exact ⟨i % 2 ^ d, by omega, Nat.mod_modEq _ _, hlow⟩
  | true =>
      refine ⟨2 ^ d + i % 2 ^ d, by omega, ?_, ?_⟩
      · show (2 ^ d + i % 2 ^ d) % 2 ^ d = i % 2 ^ d
        rw [Nat.add_mod_left, Nat.mod_mod]
      · rw [Nat.testBit_two_pow_add_eq, hlow, Bool.not_false]

theorem Routes.toFinset_split_of_room (hashKey : K → Nat) (h : t.Routes) (hp : p ∈ t.mBuckets)
    (hd : (t.buckets p).localDepth < t.mGlobalDepth) [DecidableEq K] :
    (t.split hashKey p).mBuckets.toFinset = Insert.insert t.made t.mBuckets.toFinset := by
  obtain ⟨i, hi, rfl⟩ := h.mem_mBuckets_iff.mp hp
  have hreach (b : Bool) : ∃ j < 2 ^ t.mGlobalDepth, t.bucketAt j = t.bucketAt i ∧
      j.testBit (t.buckets (t.bucketAt i)).localDepth = b := by
    obtain ⟨j, hj, hmod, hbit⟩ := exists_modEq_testBit hd i b
    exact ⟨j, hj, (h.shared i hi j hj).mpr hmod, hbit⟩
  ext q
  rw [Finset.mem_insert, List.mem_toFinset, List.mem_toFinset,
    (h.split_of_room hashKey hd).mem_mBuckets_iff, split_mGlobalDepth_of_room hashKey hd]
  constructor
  · rintro ⟨j, hj, rfl⟩
    rw [h.bucketAt_split hashKey hd hj]
    split
    · exact Or.inl rfl
    · exact Or.inr (h.bucketAt_mem hj)
  · rintro (rfl | hq)
    · obtain ⟨j, hj, hat, hbit⟩ := hreach true
      exact ⟨j, hj, by rw [h.bucketAt_split hashKey hd hj, if_pos ⟨hat, hbit⟩]⟩
    · obtain ⟨j, hj, rfl⟩ := h.mem_mBuckets_iff.mp hq
      by_cases hat : t.bucketAt j = t.bucketAt i
      · obtain ⟨j', hj', hat', hbit⟩ := hreach false
        refine ⟨j', hj', ?_⟩
        rw [h.bucketAt_split hashKey hd hj', hbit, if_neg (by simp), hat', hat]
      · exact ⟨j, hj, (h.split_other hashKey hd hj hat).1⟩

/-- Splitting a bucket of the directory keeps it right and every key
findable, and adds the new bucket to those it leads to. -/
theorem Routes.split_of_mem [DecidableEq K] (hashKey : K → Nat) (h : t.Routes)
    (hp : p ∈ t.mBuckets) :
    (t.split hashKey p).Routes ∧
      (∀ k, (t.split hashKey p).find hashKey k = t.find hashKey k) ∧
      (t.split hashKey p).mBuckets.toFinset = Insert.insert t.made t.mBuckets.toFinset := by
  obtain ⟨i, hi, hat⟩ := h.mem_mBuckets_iff.mp hp
  rcases (h.depth i hi).lt_or_eq with hroom | hfull
  · rw [hat] at hroom
    exact ⟨h.split_of_room hashKey hroom, h.find_split_of_room hashKey hroom,
      h.toFinset_split_of_room hashKey hp hroom⟩
  · rw [hat] at hfull
    rw [split_eq_split_grow hfull]
    have hroom : (t.grow.buckets p).localDepth < t.grow.mGlobalDepth := by
      show (t.buckets p).localDepth < t.mGlobalDepth + 1
      omega
    have hmem : p ∈ t.grow.mBuckets := List.mem_append_left _ hp
    refine ⟨h.grow.split_of_room hashKey hroom, fun k => ?_, ?_⟩
    · rw [h.grow.find_split_of_room hashKey hroom, find, h.bucketAt_getBucketIndex_grow]
      rfl
    · rw [h.grow.toFinset_split_of_room hashKey hmem hroom]
      show Insert.insert t.made (t.mBuckets ++ t.mBuckets).toFinset = _
      rw [List.toFinset_append, Finset.union_self]

theorem Routes.made_notMem (h : t.Routes) : t.made ∉ t.mBuckets := by
  intro hmem
  obtain ⟨i, hi, hat⟩ := h.mem_mBuckets_iff.mp hmem
  exact (h.made i hi).ne hat

/-! ### Counting -/

theorem Counted.empty (size : Nat) : Counted size (empty size : ExtendibleHash K V) where
  bucketSize := rfl
  room := fun _ _ => Nat.zero_le _
  bucketNum := rfl

theorem entries_split_le (t : ExtendibleHash K V) (p q : Nat) :
    ((t.split hashKey p).buckets q).dataMap.entries.length ≤
      (t.buckets (if q = t.made then p else q)).dataMap.entries.length := by
  by_cases hmade : q = t.made
  · rw [if_pos hmade, hmade]
    simp only [split, Function.update_self]
    exact List.length_filter_le _ _
  · rw [if_neg hmade]
    simp only [split, Function.update_of_ne hmade]
    by_cases hp : q = p
    · rw [hp, Function.update_self]
      exact List.length_filter_le _ _
    · rw [Function.update_of_ne hp]

theorem Counted.split [DecidableEq K] (hc : Counted size t) (h : t.Routes)
    (hp : p ∈ t.mBuckets) : Counted size (t.split hashKey p) := by
  have hset := (h.split_of_mem hashKey hp).2.2
  constructor
  case bucketSize => exact hc.bucketSize
  case room =>
    intro q hq
    apply (entries_split_le t p q).trans
    apply hc.room
    rw [← List.mem_toFinset, hset, Finset.mem_insert] at hq
    split
    case isTrue => exact hp
    case isFalse hmade => exact List.mem_toFinset.mp (hq.resolve_left hmade)
  case bucketNum =>
    rw [hset, Finset.card_insert_of_notMem (mt List.mem_toFinset.mp h.made_notMem),
      ← hc.bucketNum]
    rfl

theorem Counted.setMap (hc : Counted size t) (p : Nat) {m : AList fun _ : K => V}
    (hm : p ∈ t.mBuckets → m.entries.length ≤ size) :
    Counted size { t with
      buckets := Function.update t.buckets p { t.buckets p with dataMap := m } } := by
  constructor
  case bucketSize => exact hc.bucketSize
  case room =>
    intro q hq
    show (Function.update t.buckets p _ q).dataMap.entries.length ≤ size
    by_cases hqp : q = p
    · rw [hqp, Function.update_self]
      exact hm (hqp ▸ hq)
    · rw [Function.update_of_ne hqp]
      exact hc.room q hq
  case bucketNum => exact hc.bucketNum

theorem Counted.remove [DecidableEq K] (hc : Counted size t) (key : K) :
    Counted size (t.remove hashKey key).2 := by
  rw [ExtendibleHash.remove]
  split
  · exact hc
  · apply hc.setMap
    intro hp
    exact (List.kerase_sublist _ _).length_le.trans (hc.room _ hp)

theorem Counted.insertLoop [DecidableEq K] (hc : Counted size t) (h : t.Routes) {key : K}
    {value : V} {fuel : Nat} {s : ExtendibleHash K V} (hp : p ∈ t.mBuckets)
    (hrun : t.insertLoop hashKey key value fuel p = some s) : Counted size s := by
  induction fuel generalizing t p with
  | zero => cases hrun
  | succ fuel ih =>
      simp only [ExtendibleHash.insertLoop] at hrun
      split at hrun
      case isTrue =>
        cases hrun
        exact hc
      case isFalse hout =>
        split at hrun
        case isTrue hroom =>
          cases hrun
          apply hc.setMap
          intro _
          have hnew : key ∉ (t.buckets p).dataMap := by
            rw [← AList.lookup_isSome]
            exact hout
          rw [AList.entries_insert_of_notMem hnew, List.length_cons, ← hc.bucketSize]
          exact hroom
        case isFalse =>
          have hs := (h.split_of_mem hashKey hp).1
          exact ih (hc.split h hp) hs (hs.bucketAt_mem (getBucketIndex_lt _ key)) hrun

/-! ### The invariant -/

theorem Routes.card_indices (h : t.Routes) (hp : p ∈ t.mBuckets) :
    ((Finset.range (2 ^ t.mGlobalDepth)).filter fun j => t.bucketAt j = p).card =
      2 ^ (t.mGlobalDepth - (t.buckets p).localDepth) := by
  obtain ⟨i, hi, rfl⟩ := h.mem_mBuckets_iff.mp hp
  have hdvd := Nat.pow_dvd_pow 2 (h.depth i hi)
  calc ((Finset.range (2 ^ t.mGlobalDepth)).filter fun j => t.bucketAt j = t.bucketAt i).card
      = ((Finset.range (2 ^ t.mGlobalDepth)).filter fun j =>
          j ≡ i [MOD 2 ^ (t.buckets (t.bucketAt i)).localDepth]).card := by
        congr 1
        apply Finset.filter_congr
        intro j hj
        exact h.shared i hi j (Finset.mem_range.mp hj)
    _ = 2 ^ t.mGlobalDepth / 2 ^ (t.buckets (t.bucketAt i)).localDepth := by
        rw [← Nat.count_eq_card_filter_range, Nat.count_modEq_card _ (Nat.two_pow_pos _),
          Nat.mod_eq_zero_of_dvd hdvd]
        simp
    _ = 2 ^ (t.mGlobalDepth - (t.buckets (t.bucketAt i)).localDepth) :=
        Nat.pow_div (h.depth i hi) (by omega)

theorem Wf.directoryInvariant (h : t.Wf hashKey) (hc : Counted size t) :
    DirectoryInvariant hashKey size t where
  length := h.length
  depth p hp := by
    obtain ⟨i, hi, rfl⟩ := h.routes.mem_mBuckets_iff.mp hp
    exact h.depth i hi
  indices := h.shared
  references _ hp := h.routes.card_indices hp
  bits := h.placed
  found p hp k hk := by
    obtain ⟨i, hi, rfl⟩ := h.routes.mem_mBuckets_iff.mp hp
    exact h.routes.bucketAt_getBucketIndex hi (h.placed i hi k hk)
  room := hc.room
  bucketNum := hc.bucketNum

/-- Every table that calls which end make from an empty one has the
invariant. -/
theorem reachable_directoryInvariant [DecidableEq K] (hashKey : K → Nat) (size fuel : Nat)
    (t : ExtendibleHash K V)
    (ht : Reachable (fun s => s = empty size) (fun _ _ => True) (HashOp.run hashKey fuel) t) :
    DirectoryInvariant hashKey size t := by
  have hinv : t.Wf hashKey ∧ Counted size t := by
    apply ht.invariant_of_ok (I := fun t => t.Wf hashKey ∧ Counted size t)
    case hinit =>
      rintro s rfl
      exact ⟨Wf.empty size, Counted.empty size⟩
    case hstep =>
      rintro op s r s' ⟨hwf, hc⟩ - hrun
      refine ⟨hwf.run hrun, ?_⟩
      cases op with
      | insert key value =>
          apply hc.insertLoop hwf.routes _ (insert_of_run hrun).1
          exact hwf.routes.bucketAt_mem (s.getBucketIndex_lt key)
      | remove key =>
          cases hrun
          exact hc.remove key
      | find key =>
          cases hrun
          exact hc
  exact hinv.1.directoryInvariant hinv.2

/-- Three keys whose hashes differ in the third bit first. -/
theorem directoryInvariant_of_three_splits :
    ∃ t : ExtendibleHash Nat String,
      DirectoryInvariant (fun k => k) 2 t ∧ t.mGlobalDepth = 3 ∧ t.mBucketNum = 4 := by
  have hrun : ∃ t, runAll (HashOp.run (fun k : Nat => k) 4)
      [.insert 6 "a", .insert 10 "b", .insert 14 "c"] (empty 2) =
        .ok ([.done, .done, .done], t) ∧ t.mGlobalDepth = 3 ∧ t.mBucketNum = 4 := by
    refine ⟨_, rfl, ?_, ?_⟩
    · rfl
    · rfl
  obtain ⟨t, hrun, hdepth, hnum⟩ := hrun
  refine ⟨t, reachable_directoryInvariant _ 2 4 t ?_, hdepth, hnum⟩
  apply Reachable.runAll _ hrun fun _ _ _ => trivial
  exact Reachable.start rfl

end ExtendibleHash

end ScuDb
