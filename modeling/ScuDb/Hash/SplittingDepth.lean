import ScuDb.Buffer.BufferPoolManager
import ScuDb.Hash.MapRefinement

/-!
How far `Insert` splits.

A full bucket of local depth `d` and the key that finds no room in it are
three keys at least whose hashes have the same low `d` bits. Among the
non-negative ints there are three such keys only for `d` up to 29, so no
bucket gets deeper than 30 and every shift of `1` stays below the sign bit
of an int.

The calls are repeated here with a test of every shift, which ends the
program where the sign bit is reached.
-/

namespace ScuDb

open Foundations

namespace ExtendibleHash

variable {K V : Type} [DecidableEq K]

/-- `1 << d` as an int, as long as it does not reach the sign bit. -/
def shiftOne (d : Nat) : Option Nat := if d < 31 then some (1 <<< d) else none

variable (hashKey : K → Nat)

/-- `getBucketIndex`, with its shift tested. -/
def bucketIndexTested (t : ExtendibleHash K V) (key : K) : Option Nat := do
  let bit ← shiftOne t.mGlobalDepth
  pure (hashKey key &&& (bit - 1))

/-- The loop of `Insert`, with the shift of the mask and the one of
`getBucketIndex` tested in each round. -/
def insertLoopTested (key : K) (value : V) :
    Nat → ExtendibleHash K V → Nat → Option (ExtendibleHash K V)
  | 0, _, _ => none
  | fuel + 1, t, cur =>
      let bucket := t.buckets cur
      if (bucket.dataMap.lookup key).isSome then some t
      else if bucket.dataMap.entries.length < t.mBucketSize then
        some { t with
          buckets := Function.update t.buckets cur
            { bucket with dataMap := bucket.dataMap.insert key value } }
      else do
        let _ ← shiftOne bucket.localDepth
        let t := t.split hashKey cur
        let index ← bucketIndexTested hashKey t key
        insertLoopTested key value fuel t (t.bucketAt index)

end ExtendibleHash

def HashOp.key {K V : Type} : HashOp K V → K
  | .insert key _ => key
  | .remove key => key
  | .find key => key

/-- A call with its shifts tested. -/
def HashOp.runTested {K V : Type} [DecidableEq K] (hashKey : K → Nat) (fuel : Nat) :
    HashOp K V → ExtendibleHash K V → Option (ExtendibleHash K V)
  | .insert key value, t => do
      let index ← ExtendibleHash.bucketIndexTested hashKey t key
      ExtendibleHash.insertLoopTested hashKey key value fuel t (t.bucketAt index)
  | .remove key, t => do
      let _ ← ExtendibleHash.bucketIndexTested hashKey t key
      pure (t.remove hashKey key).2
  | .find key, t => do
      let _ ← ExtendibleHash.bucketIndexTested hashKey t key
      pure t

/-- A sequence of calls with their shifts tested. -/
def HashOp.runAllTested {K V : Type} [DecidableEq K] (hashKey : K → Nat) (fuel : Nat) :
    List (HashOp K V) → ExtendibleHash K V → Option (ExtendibleHash K V)
  | [], t => some t
  | op :: ops, t => do
      let t ← op.runTested hashKey fuel t
      runAllTested hashKey fuel ops t

namespace ExtendibleHash

variable {K V : Type} [DecidableEq K] {hashKey : K → Nat} {S : Set K} {t : ExtendibleHash K V}

omit [DecidableEq K] in
theorem bucketIndexTested_eq (h : t.mGlobalDepth ≤ 30) (key : K) :
    bucketIndexTested hashKey t key = some (t.getBucketIndex hashKey key) := by
  have hlt : t.mGlobalDepth < 31 := Nat.lt_succ_of_le h
  simp [bucketIndexTested, shiftOne, hlt, getBucketIndex]

/-- The keys of `S` have hashes of their own, below the sign bit. -/
structure IntKeys (hashKey : K → Nat) (S : Set K) : Prop where
  inj : ∀ k ∈ S, ∀ l ∈ S, hashKey k = hashKey l → k = l
  lt : ∀ k ∈ S, hashKey k < 2 ^ 31

omit [DecidableEq K] in
/-- Three keys do not have the same low 30 bits. -/
theorem IntKeys.depth_lt (h : IntKeys hashKey S) {a b c : K} (ha : a ∈ S) (hb : b ∈ S)
    (hc : c ∈ S) (hab : a ≠ b) (hac : a ≠ c) (hbc : b ≠ c) {d : Nat}
    (hda : hashKey a ≡ hashKey c [MOD 2 ^ d]) (hdb : hashKey b ≡ hashKey c [MOD 2 ^ d]) :
    d < 30 := by
  by_contra hge
  have hdvd : 2 ^ 30 ∣ 2 ^ d := Nat.pow_dvd_pow 2 (not_lt.mp hge)
  have hab' := mt (h.inj a ha b hb) hab
  have hac' := mt (h.inj a ha c hc) hac
  have hbc' := mt (h.inj b hb c hc) hbc
  have hla := h.lt a ha
  have hlb := h.lt b hb
  have hlc := h.lt c hc
  have hma : hashKey a % 2 ^ 30 = hashKey c % 2 ^ 30 := hda.of_dvd hdvd
  have hmb : hashKey b % 2 ^ 30 = hashKey c % 2 ^ 30 := hdb.of_dvd hdvd
  omega

/-- What holds between two calls: the table is well formed, its keys are
keys of `S`, and it is not too deep. -/
structure Shallow (hashKey : K → Nat) (S : Set K) (t : ExtendibleHash K V) : Prop where
  wf : t.Wf hashKey
  keys : ∀ k, (t.find hashKey k).isSome → k ∈ S
  size : 2 ≤ t.mBucketSize
  depth : t.mGlobalDepth ≤ 30

/-- A bucket that is full is not too deep to be split. -/
theorem Shallow.localDepth_lt (h : t.Shallow hashKey S) (hS : IntKeys hashKey S) {key : K}
    (hkey : key ∈ S)
    (hout : ¬((t.buckets (t.bucketAt (t.getBucketIndex hashKey key))).dataMap.lookup key).isSome)
    (hfull : t.mBucketSize ≤
      (t.buckets (t.bucketAt (t.getBucketIndex hashKey key))).dataMap.entries.length) :
    (t.buckets (t.bucketAt (t.getBucketIndex hashKey key))).localDepth < 30 := by
  obtain ⟨cur, hcur⟩ : ∃ cur, cur = t.bucketAt (t.getBucketIndex hashKey key) := ⟨_, rfl⟩
  rw [← hcur] at hout hfull ⊢
  have hstored : ∀ {k}, k ∈ (t.buckets cur).dataMap → k ∈ S ∧
      hashKey k ≡ hashKey key [MOD 2 ^ (t.buckets cur).localDepth] ∧ k ≠ key := by
    intro k hk
    rw [hcur] at hk
    have hfind := h.wf.find_eq (t.getBucketIndex_lt key)
      (h.wf.placed _ (t.getBucketIndex_lt key) k hk)
    have hsome := AList.lookup_isSome.mpr hk
    refine ⟨h.keys k (hfind ▸ hsome), hcur ▸ h.wf.modEq_of_mem hk, ?_⟩
    rintro rfl
    exact hout (hcur ▸ hsome)
  obtain ⟨e, f, rest, hentries⟩ : ∃ e f rest, (t.buckets cur).dataMap.entries = e :: f :: rest := by
    have hlength := h.size.trans hfull
    cases hentries : (t.buckets cur).dataMap.entries with
    | nil => simp [hentries] at hlength
    | cons e entries =>
        cases entries with
        | nil => simp [hentries] at hlength
        | cons f rest => exact ⟨e, f, rest, rfl⟩
  have hne : e.1 ≠ f.1 := by
    have hnodup := (t.buckets cur).dataMap.nodupKeys
    rw [hentries, List.nodupKeys_cons] at hnodup
    intro heq
    exact hnodup.1 (by simp [List.keys, heq])
  obtain ⟨heS, heq, hek⟩ := hstored (k := e.1) (List.mem_keys_of_mem (by simp [hentries]))
  obtain ⟨hfS, hfq, hfk⟩ := hstored (k := f.1) (List.mem_keys_of_mem (by simp [hentries]))
  exact hS.depth_lt heS hfS hkey hne hek hfk heq hfq

/-- Splitting such a bucket makes the table deeper by one at most. -/
theorem Shallow.split (h : t.Shallow hashKey S) (key : K)
    (hlocal : (t.buckets (t.bucketAt (t.getBucketIndex hashKey key))).localDepth < 30) :
    (t.split hashKey (t.bucketAt (t.getBucketIndex hashKey key))).Shallow hashKey S where
  wf := (h.wf.split key).1
  keys k hk := by
    rw [(h.wf.split key).2.1] at hk
    exact h.keys k hk
  size := h.size
  depth := by
    have hdepth := h.depth
    simp only [ExtendibleHash.split]
    split
    · show t.mGlobalDepth + 1 ≤ 30
      omega
    · exact hdepth

/-- The loop ends, and all its shifts pass. -/
theorem Shallow.insertLoopTested (h : t.Shallow hashKey S) (hS : IntKeys hashKey S) {key : K}
    (hkey : key ∈ S) (value : V) {fuel : Nat}
    (hfuel : 31 ≤ (t.buckets (t.bucketAt (t.getBucketIndex hashKey key))).localDepth + fuel) :
    ∃ s, ExtendibleHash.insertLoopTested hashKey key value fuel t
        (t.bucketAt (t.getBucketIndex hashKey key)) = some s ∧
      t.insertLoop hashKey key value fuel (t.bucketAt (t.getBucketIndex hashKey key)) = some s ∧
      s.mGlobalDepth ≤ 30 := by
  induction fuel generalizing t with
  | zero =>
      have hlocal := h.wf.depth (t.getBucketIndex hashKey key) (t.getBucketIndex_lt key)
      have hdepth := h.depth
      omega
  | succ fuel ih =>
      rw [ExtendibleHash.insertLoopTested, ExtendibleHash.insertLoop]
      split
      case isTrue => exact ⟨t, rfl, rfl, h.depth⟩
      case isFalse hout =>
        split
        case isTrue => exact ⟨_, rfl, rfl, h.depth⟩
        case isFalse hfull =>
          -- a round that splits: the bucket of the key is one bit deeper then
          have hlocal := h.localDepth_lt hS hkey hout (not_lt.mp hfull)
          have hsplit := h.split key hlocal
          have hdeeper := (h.wf.split key).2.2
          obtain ⟨s, htested, hloop, hdepth⟩ := ih hsplit (by omega)
          refine ⟨s, ?_, hloop, hdepth⟩
          have hmask : (t.buckets (t.bucketAt (t.getBucketIndex hashKey key))).localDepth < 31 := by
            omega
          simp only [shiftOne, if_pos hmask, Option.bind_eq_bind, Option.bind_some,
            bucketIndexTested_eq hsplit.depth]
          exact htested

theorem Shallow.runTested (h : t.Shallow hashKey S) (hS : IntKeys hashKey S) {op : HashOp K V}
    (hkey : op.key ∈ S) : ∃ r s, op.run hashKey 31 t = .ok (r, s) ∧
      op.runTested hashKey 31 t = some s ∧ s.Shallow hashKey S := by
  have hindex : ∀ key, bucketIndexTested hashKey t key = some (t.getBucketIndex hashKey key) :=
    bucketIndexTested_eq h.depth
  cases op with
  | insert key value =>
      have hkey' : key ∈ S := hkey
      have hfuel : 31 ≤ (t.buckets (t.bucketAt (t.getBucketIndex hashKey key))).localDepth + 31 :=
        Nat.le_add_left ..
      obtain ⟨s, htested, hloop, hdepth⟩ := h.insertLoopTested hS hkey' value hfuel
      obtain ⟨hwf, hsize, hfind⟩ := h.wf.insertLoop hloop
      refine ⟨.done, s, ?_, ?_, hwf, fun k hk => ?_, hsize ▸ h.size, hdepth⟩
      · simp only [HashOp.run, ExtendibleHash.insert, hloop]
      · simp only [HashOp.runTested, hindex, Option.bind_eq_bind, Option.bind_some]
        exact htested
      · rw [hfind] at hk
        by_cases heq : k = key
        · rw [heq]
          exact hkey'
        · rw [if_neg heq] at hk
          exact h.keys k hk
  | remove key =>
      obtain ⟨hwf, -, hfind⟩ := h.wf.remove key
      refine ⟨_, _, rfl, ?_, hwf, fun k hk => ?_, ?_, ?_⟩
      · simp only [HashOp.runTested, hindex]
        rfl
      · rw [hfind] at hk
        by_cases heq : k = key
        · simp [heq] at hk
        · rw [if_neg heq] at hk
          exact h.keys k hk
      · rw [remove_mBucketSize]
        exact h.size
      · have hsame : (t.remove hashKey key).2.mGlobalDepth = t.mGlobalDepth := by
          rw [ExtendibleHash.remove]
          split <;> rfl
        rw [hsame]
        exact h.depth
  | find key =>
      refine ⟨_, _, rfl, ?_, h⟩
      simp only [HashOp.runTested, hindex]
      rfl

theorem Shallow.runAllTested (h : t.Shallow hashKey S) (hS : IntKeys hashKey S)
    {ops : List (HashOp K V)} (hkeys : ∀ op ∈ ops, op.key ∈ S) :
    ∃ rs s, runAll (HashOp.run hashKey 31) ops t = .ok (rs, s) ∧
      HashOp.runAllTested hashKey 31 ops t = some s ∧ s.Shallow hashKey S := by
  induction ops generalizing t with
  | nil => exact ⟨[], t, rfl, rfl, h⟩
  | cons op ops ih =>
      obtain ⟨r, t₁, hrun, htested, h₁⟩ := h.runTested hS (hkeys op List.mem_cons_self)
      obtain ⟨rs, s, hruns, htesteds, hs⟩ :=
        ih h₁ fun op' hop' => hkeys op' (List.mem_cons_of_mem op hop')
      refine ⟨r :: rs, s, runAll_cons_of_ok hrun hruns, ?_, hs⟩
      simp only [HashOp.runAllTested, htested, Option.bind_eq_bind, Option.bind_some]
      exact htesteds

theorem shallow_empty {size : Nat} (hsize : 2 ≤ size) :
    (empty size : ExtendibleHash K V).Shallow hashKey S where
  wf := Wf.empty size
  keys k hk := by
    simp [find, ExtendibleHash.empty] at hk
  size := hsize
  depth := Nat.zero_le _

end ExtendibleHash

open ExtendibleHash

theorem intKeys_hashPageId : IntKeys hashPageId {id : PageId | 0 ≤ id ∧ id < 2 ^ 31} where
  inj k hk l hl heq := by
    rw [hashPageId, hashPageId, if_pos hk.1, if_pos hl.1] at heq
    calc k = (k.toNat : Int) := (Int.toNat_of_nonneg hk.1).symm
      _ = (l.toNat : Int) := by rw [heq]
      _ = l := Int.toNat_of_nonneg hl.1
  lt k hk := by
    rw [hashPageId, if_pos hk.1]
    exact (Int.toNat_lt hk.1).mpr hk.2

/-- Every call ends after 31 rounds at most, none of its shifts reaches the
sign bit, and the table gets no deeper than 30. -/
theorem splitting_depth_le {V : Type} (size : Nat) (hsize : 2 ≤ size)
    (ops : List (HashOp PageId V)) (hkeys : ∀ op ∈ ops, 0 ≤ op.key ∧ op.key < 2 ^ 31) :
    ∃ rs t, runAll (HashOp.run hashPageId 31) ops (empty size) = .ok (rs, t) ∧
      HashOp.runAllTested hashPageId 31 ops (empty size) = some t ∧ t.mGlobalDepth ≤ 30 := by
  obtain ⟨rs, t, hrun, htested, ht⟩ :=
    (shallow_empty (V := V) hsize).runAllTested intKeys_hashPageId hkeys
  exact ⟨rs, t, hrun, htested, ht.depth⟩

/-- Three page ids whose low two bits are the same. -/
theorem splitting_depth_le_three : ∃ rs t,
    runAll (HashOp.run hashPageId 31) [.insert 1 (), .insert 5 (), .insert 9 ()] (empty 2) =
        .ok (rs, t) ∧
      HashOp.runAllTested hashPageId 31 [.insert 1 (), .insert 5 (), .insert 9 ()] (empty 2) =
        some t ∧ t.mGlobalDepth ≤ 30 :=
  splitting_depth_le 2 le_rfl _ (by simp [HashOp.key])

end ScuDb
