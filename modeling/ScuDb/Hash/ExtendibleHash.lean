import Mathlib.Data.List.AList
import Mathlib.Data.Nat.Bitwise
import Mathlib.Data.Nat.ModEq

/-!
The hash table of the buffer pool, `extendible_hash.cpp`.

A directory of 2 ^ `mGlobalDepth` pointers leads to the buckets. A bucket
of local depth `d` holds keys whose hashes have the same low `d` bits,
and the directory points to it from the indices with these bits. When a
bucket is full it is split on the next bit, and the directory is doubled
when it has no bit left.

Shifts of `1` are taken without a bound on the depth. A key is inserted
by splitting until there is room, which need not end when hashes
collide, so `insertLoop` is given the number of rounds it may take.
-/

namespace ScuDb

/-- A `sBucket` -/
structure Bucket (K V : Type) where
  localDepth : Nat
  dataMap : AList fun _ : K => V

/-- An `ExtendibleHash`. The buckets are named by addresses, `made` is
the address the next `make_shared` gives. -/
structure ExtendibleHash (K V : Type) where
  mBuckets : List Nat
  buckets : Nat → Bucket K V
  made : Nat
  mGlobalDepth : Nat
  mBucketSize : Nat
  mBucketNum : Nat

/-- The entries of a bucket whose key satisfies `p`. -/
def selectKeys {K V : Type} (p : K → Bool) (m : AList fun _ : K => V) : AList fun _ : K => V where
  entries := m.entries.filter fun e => p e.1
  nodupKeys := m.nodupKeys.sublist List.filter_sublist

namespace ExtendibleHash

variable {K V : Type}

/-- The constructor. -/
def empty (size : Nat) : ExtendibleHash K V where
  mBuckets := [0]
  buckets := fun _ => ⟨0, ∅⟩
  made := 1
  mGlobalDepth := 0
  mBucketSize := size
  mBucketNum := 1

variable (hashKey : K → Nat)

/-- `getBucketIndex` -/
def getBucketIndex (t : ExtendibleHash K V) (key : K) : Nat :=
  hashKey key &&& ((1 <<< t.mGlobalDepth) - 1)

/-- `mBuckets[i]` -/
def bucketAt (t : ExtendibleHash K V) (i : Nat) : Nat := t.mBuckets.getD i 0

/-- `Find` -/
def find [DecidableEq K] (t : ExtendibleHash K V) (key : K) : Option V :=
  (t.buckets (t.bucketAt (t.getBucketIndex hashKey key))).dataMap.lookup key

/-- `Remove` -/
def remove [DecidableEq K] (t : ExtendibleHash K V) (key : K) : Bool × ExtendibleHash K V :=
  let cur := t.bucketAt (t.getBucketIndex hashKey key)
  let bucket := t.buckets cur
  match bucket.dataMap.lookup key with
  | none => (false, t)
  | some _ =>
      (true, { t with
        buckets := Function.update t.buckets cur
          { bucket with dataMap := bucket.dataMap.erase key } })

/-- One round of the loop of `Insert` that finds the bucket `cur` full:
it is split on the bit after its local depth. -/
def split (t : ExtendibleHash K V) (cur : Nat) : ExtendibleHash K V :=
  let bucket := t.buckets cur
  let mask := 1 <<< bucket.localDepth
  let localDepth := bucket.localDepth + 1
  let (mBuckets, mGlobalDepth) :=
    if t.mGlobalDepth < localDepth then (t.mBuckets ++ t.mBuckets, t.mGlobalDepth + 1)
    else (t.mBuckets, t.mGlobalDepth)
  let moved (k : K) : Bool := hashKey k &&& mask ≠ 0
  let newBuc : Bucket K V := ⟨localDepth, selectKeys moved bucket.dataMap⟩
  let rest : Bucket K V := ⟨localDepth, selectKeys (fun k => !moved k) bucket.dataMap⟩
  { t with
    mBuckets := mBuckets.mapIdx fun i p => if p = cur ∧ i &&& mask ≠ 0 then t.made else p
    buckets := Function.update (Function.update t.buckets cur rest) t.made newBuc
    made := t.made + 1
    mGlobalDepth := mGlobalDepth
    mBucketNum := t.mBucketNum + 1 }

/-- The loop of `Insert`, with the bucket `cur` at the start of a round.
`std::map::insert` leaves a key that is there as it is. -/
def insertLoop [DecidableEq K] (key : K) (value : V) :
    Nat → ExtendibleHash K V → Nat → Option (ExtendibleHash K V)
  | 0, _, _ => none
  | fuel + 1, t, cur =>
      let bucket := t.buckets cur
      if (bucket.dataMap.lookup key).isSome then some t
      else if bucket.dataMap.entries.length < t.mBucketSize then
        some { t with
          buckets := Function.update t.buckets cur
            { bucket with dataMap := bucket.dataMap.insert key value } }
      else
        let t := t.split hashKey cur
        insertLoop key value fuel t (t.bucketAt (t.getBucketIndex hashKey key))

/-- `Insert`, for at most `fuel` rounds -/
def insert [DecidableEq K] (fuel : Nat) (t : ExtendibleHash K V) (key : K) (value : V) :
    Option (ExtendibleHash K V) :=
  t.insertLoop hashKey key value fuel (t.bucketAt (t.getBucketIndex hashKey key))

/-- The directory leads to a bucket of local depth `d` from all indices
that have its low `d` bits and from no others. -/
structure Routes (t : ExtendibleHash K V) : Prop where
  length : t.mBuckets.length = 2 ^ t.mGlobalDepth
  made : ∀ i < 2 ^ t.mGlobalDepth, t.bucketAt i < t.made
  depth : ∀ i < 2 ^ t.mGlobalDepth,
    (t.buckets (t.bucketAt i)).localDepth ≤ t.mGlobalDepth
  shared : ∀ i < 2 ^ t.mGlobalDepth, ∀ j < 2 ^ t.mGlobalDepth,
    t.bucketAt j = t.bucketAt i ↔ j ≡ i [MOD 2 ^ (t.buckets (t.bucketAt i)).localDepth]

/-- The directory and the buckets fit together. -/
structure Wf (t : ExtendibleHash K V) : Prop where
  length : t.mBuckets.length = 2 ^ t.mGlobalDepth
  made : ∀ i < 2 ^ t.mGlobalDepth, t.bucketAt i < t.made
  depth : ∀ i < 2 ^ t.mGlobalDepth,
    (t.buckets (t.bucketAt i)).localDepth ≤ t.mGlobalDepth
  shared : ∀ i < 2 ^ t.mGlobalDepth, ∀ j < 2 ^ t.mGlobalDepth,
    t.bucketAt j = t.bucketAt i ↔ j ≡ i [MOD 2 ^ (t.buckets (t.bucketAt i)).localDepth]
  placed : ∀ i < 2 ^ t.mGlobalDepth, ∀ k ∈ (t.buckets (t.bucketAt i)).dataMap,
    hashKey k ≡ i [MOD 2 ^ (t.buckets (t.bucketAt i)).localDepth]

/-! ### Low bits and selections -/

/-- Two numbers agree modulo 2 ^ `d` when they have the same low `d` bits. -/
theorem modEq_two_pow_iff {i j d : Nat} :
    i ≡ j [MOD 2 ^ d] ↔ ∀ b < d, i.testBit b = j.testBit b := by
  constructor
  · intro h b hb
    have hbit := congrArg (fun x => x.testBit b) h
    simpa [hb] using hbit
  · intro h
    apply Nat.eq_of_testBit_eq
    intro b
    simp only [Nat.testBit_mod_two_pow]
    by_cases hb : b < d
    · rw [h b hb]
    · simp [hb]

theorem modEq_two_pow_succ {i j d : Nat} :
    i ≡ j [MOD 2 ^ (d + 1)] ↔ i ≡ j [MOD 2 ^ d] ∧ i.testBit d = j.testBit d := by
  rw [modEq_two_pow_iff, modEq_two_pow_iff, Nat.forall_lt_succ_right]

theorem and_mask_ne_zero_iff {i d : Nat} : i &&& (1 <<< d) ≠ 0 ↔ i.testBit d = true := by
  rw [Nat.one_shiftLeft, Nat.and_two_pow]
  cases i.testBit d <;> simp

theorem lookup_selectKeys [DecidableEq K] (p : K → Bool) (m : AList fun _ : K => V) (k : K) :
    (selectKeys p m).lookup k = if p k then m.lookup k else none := by
  ext v
  have hmem (m : AList fun _ : K => V) : m.lookup k = some v ↔ ⟨k, v⟩ ∈ m.entries :=
    AList.mem_lookup_iff
  split
  case isTrue hp => simp [hmem, selectKeys, hp]
  case isFalse hp =>
    rw [hmem]
    simp [selectKeys, hp]

/-! ### The directory -/

section

variable {hashKey : K → Nat} {t : ExtendibleHash K V} {p i j : Nat} {k : K}

theorem getBucketIndex_eq (t : ExtendibleHash K V) (k : K) :
    t.getBucketIndex hashKey k = hashKey k % 2 ^ t.mGlobalDepth := by
  rw [getBucketIndex, Nat.one_shiftLeft, Nat.and_two_pow_sub_one_eq_mod]

theorem getBucketIndex_lt (t : ExtendibleHash K V) (k : K) :
    t.getBucketIndex hashKey k < 2 ^ t.mGlobalDepth := by
  rw [getBucketIndex_eq]
  exact Nat.mod_lt _ (Nat.two_pow_pos _)

theorem Wf.routes (h : t.Wf hashKey) : t.Routes :=
  ⟨h.length, h.made, h.depth, h.shared⟩

theorem Routes.getBucketIndex_modEq (h : t.Routes) (key : K) :
    t.getBucketIndex hashKey key ≡ hashKey key
      [MOD 2 ^ (t.buckets (t.bucketAt (t.getBucketIndex hashKey key))).localDepth] := by
  have hdvd := Nat.pow_dvd_pow 2 (h.depth (t.getBucketIndex hashKey key) (t.getBucketIndex_lt key))
  have hmod : t.getBucketIndex hashKey key ≡ hashKey key [MOD 2 ^ t.mGlobalDepth] := by
    rw [getBucketIndex_eq]
    exact Nat.mod_modEq _ _
  exact hmod.of_dvd hdvd

/-- A key leads to the bucket whose bits its hash has. -/
theorem Routes.bucketAt_getBucketIndex (h : t.Routes) (hi : i < 2 ^ t.mGlobalDepth)
    (hk : hashKey k ≡ i [MOD 2 ^ (t.buckets (t.bucketAt i)).localDepth]) :
    t.bucketAt (t.getBucketIndex hashKey k) = t.bucketAt i := by
  rw [h.shared i hi _ (t.getBucketIndex_lt k), getBucketIndex_eq]
  have hdvd := Nat.pow_dvd_pow 2 (h.depth i hi)
  exact ((Nat.mod_modEq _ _).of_dvd hdvd).trans hk

/-- The key of an entry leads `find` to the bucket the entry is in. -/
theorem Wf.find_eq [DecidableEq K] (h : t.Wf hashKey) (hi : i < 2 ^ t.mGlobalDepth)
    (hk : hashKey k ≡ i [MOD 2 ^ (t.buckets (t.bucketAt i)).localDepth]) :
    t.find hashKey k = (t.buckets (t.bucketAt i)).dataMap.lookup k := by
  rw [find, h.routes.bucketAt_getBucketIndex hi hk]

theorem Wf.empty (size : Nat) : (empty size : ExtendibleHash K V).Wf hashKey := by
  constructor
  case length => rfl
  case made =>
    intro i hi
    rw [Nat.lt_one_iff.mp hi]
    exact Nat.zero_lt_one
  case depth =>
    intro i hi
    exact le_rfl
  case shared =>
    intro i hi j hj
    simp only [ExtendibleHash.empty, pow_zero, Nat.lt_one_iff] at hi hj
    rw [hi, hj]
    exact ⟨fun _ => Nat.ModEq.refl _, fun _ => rfl⟩
  case placed => simp [ExtendibleHash.empty]

/-! ### Splitting -/

/-- The directory written twice. -/
def grow (t : ExtendibleHash K V) : ExtendibleHash K V :=
  { t with mBuckets := t.mBuckets ++ t.mBuckets, mGlobalDepth := t.mGlobalDepth + 1 }

theorem Routes.bucketAt_grow (h : t.Routes) (hi : i < 2 ^ (t.mGlobalDepth + 1)) :
    t.grow.bucketAt i = t.bucketAt (i % 2 ^ t.mGlobalDepth) := by
  show (t.mBuckets ++ t.mBuckets).getD i 0 = t.mBuckets.getD (i % 2 ^ t.mGlobalDepth) 0
  rw [pow_succ] at hi
  by_cases hlt : i < 2 ^ t.mGlobalDepth
  · rw [Nat.mod_eq_of_lt hlt, List.getD_append _ _ _ _ (h.length.symm ▸ hlt)]
  · have hmod : i % 2 ^ t.mGlobalDepth = i - 2 ^ t.mGlobalDepth := by
      rw [Nat.mod_eq_sub_mod (by omega), Nat.mod_eq_of_lt (by omega)]
    rw [hmod, List.getD_append_right _ _ _ _ (h.length.symm ▸ by omega), h.length]

/-- An index of the doubled directory has the bits of the one it was
copied from. -/
theorem Routes.mod_modEq (h : t.Routes) (i : Nat) :
    i % 2 ^ t.mGlobalDepth ≡ i
      [MOD 2 ^ (t.buckets (t.bucketAt (i % 2 ^ t.mGlobalDepth))).localDepth] := by
  have hlt : i % 2 ^ t.mGlobalDepth < 2 ^ t.mGlobalDepth := Nat.mod_lt _ (Nat.two_pow_pos _)
  exact (Nat.mod_modEq _ _).of_dvd (Nat.pow_dvd_pow 2 (h.depth _ hlt))

theorem Routes.grow (h : t.Routes) : t.grow.Routes := by
  have hmod (i : Nat) : i % 2 ^ t.mGlobalDepth < 2 ^ t.mGlobalDepth :=
    Nat.mod_lt _ (Nat.two_pow_pos _)
  constructor
  case length =>
    show (t.mBuckets ++ t.mBuckets).length = 2 ^ (t.mGlobalDepth + 1)
    rw [List.length_append, h.length, pow_succ, Nat.mul_two]
  case made =>
    intro i hi
    rw [h.bucketAt_grow hi]
    exact h.made _ (hmod i)
  case depth =>
    intro i hi
    rw [h.bucketAt_grow hi]
    exact (h.depth _ (hmod i)).trans (Nat.le_succ _)
  case shared =>
    intro i hi j hj
    rw [h.bucketAt_grow hi, h.bucketAt_grow hj, h.shared _ (hmod i) _ (hmod j)]
    show _ ↔ j ≡ i [MOD 2 ^ (t.buckets (t.bucketAt (i % 2 ^ t.mGlobalDepth))).localDepth]
    have hdvd := Nat.pow_dvd_pow 2 (h.depth _ (hmod i))
    have hj' := (Nat.mod_modEq j (2 ^ t.mGlobalDepth)).of_dvd hdvd
    constructor
    · intro hji
      exact hj'.symm.trans (hji.trans (h.mod_modEq i))
    · intro hji
      exact hj'.trans (hji.trans (h.mod_modEq i).symm)

theorem Wf.grow (h : t.Wf hashKey) : t.grow.Wf hashKey := by
  obtain ⟨hlength, hmade, hdepth, hshared⟩ := h.routes.grow
  refine ⟨hlength, hmade, hdepth, hshared, fun i hi k hk => ?_⟩
  rw [h.routes.bucketAt_grow hi] at hk ⊢
  exact (h.placed _ (Nat.mod_lt _ (Nat.two_pow_pos _)) k hk).trans (h.routes.mod_modEq i)

theorem Routes.bucketAt_getBucketIndex_grow (h : t.Routes) (hashKey : K → Nat) (k : K) :
    t.grow.bucketAt (t.grow.getBucketIndex hashKey k) =
      t.bucketAt (t.getBucketIndex hashKey k) := by
  rw [h.bucketAt_grow (t.grow.getBucketIndex_lt k), getBucketIndex_eq, getBucketIndex_eq]
  show t.bucketAt (hashKey k % 2 ^ (t.mGlobalDepth + 1) % _) = _
  rw [Nat.mod_mod_of_dvd _ (Nat.pow_dvd_pow 2 (Nat.le_succ _))]

/-- A bucket that uses all bits of the directory is split after the
directory has been doubled. -/
theorem split_eq_split_grow (hd : (t.buckets p).localDepth = t.mGlobalDepth) :
    t.split hashKey p = t.grow.split hashKey p := by
  have hfull : t.mGlobalDepth < (t.buckets p).localDepth + 1 := by omega
  have hroom : ¬t.grow.mGlobalDepth < (t.grow.buckets p).localDepth + 1 := by
    show ¬t.mGlobalDepth + 1 < (t.buckets p).localDepth + 1
    omega
  simp only [split, if_pos hfull, if_neg hroom]
  rfl

section Split

variable (hashKey : K → Nat) (h : t.Routes) (hd : (t.buckets p).localDepth < t.mGlobalDepth)
include h hd

theorem Routes.bucketAt_split (hi : i < 2 ^ t.mGlobalDepth) :
    (t.split hashKey p).bucketAt i =
      if t.bucketAt i = p ∧ i.testBit (t.buckets p).localDepth then t.made else t.bucketAt i := by
  have hlt : i < t.mBuckets.length := h.length ▸ hi
  have hgrow : ¬t.mGlobalDepth < (t.buckets p).localDepth + 1 := by omega
  simp only [bucketAt, split, if_neg hgrow, and_mask_ne_zero_iff]
  simp [List.getD_eq_getElem?_getD, hlt]

/-- Where the directory did not lead to `p`, nothing has changed. -/
theorem Routes.split_other (hi : i < 2 ^ t.mGlobalDepth) (hne : t.bucketAt i ≠ p) :
    (t.split hashKey p).bucketAt i = t.bucketAt i ∧
      (t.split hashKey p).buckets (t.bucketAt i) = t.buckets (t.bucketAt i) := by
  have hmade : t.bucketAt i ≠ t.made := (h.made i hi).ne
  constructor
  · rw [h.bucketAt_split hashKey hd hi, if_neg fun hc => hne hc.1]
  · simp [split, hmade, hne]

/-- Where it did, it leads to the half of the bucket that index `i`
stands for. -/
theorem Routes.split_self [DecidableEq K] (hi : i < 2 ^ t.mGlobalDepth) (hp : t.bucketAt i = p) :
    ((t.split hashKey p).buckets ((t.split hashKey p).bucketAt i)).localDepth =
        (t.buckets p).localDepth + 1 ∧
      ∀ k, ((t.split hashKey p).buckets ((t.split hashKey p).bucketAt i)).dataMap.lookup k =
        if (hashKey k).testBit (t.buckets p).localDepth = i.testBit (t.buckets p).localDepth
        then (t.buckets p).dataMap.lookup k else none := by
  have hmade : p ≠ t.made := hp ▸ (h.made i hi).ne
  rw [h.bucketAt_split hashKey hd hi, hp]
  cases hbit : i.testBit (t.buckets p).localDepth with
  | true =>
      constructor
      · simp [split]
      · intro k
        have hmoved : (decide (hashKey k &&& (1 <<< (t.buckets p).localDepth) ≠ 0) = true) ↔
            (hashKey k).testBit (t.buckets p).localDepth = true := by
          rw [decide_eq_true_iff, and_mask_ne_zero_iff]
        simp only [split, and_self, if_true, Function.update_self, lookup_selectKeys, hmoved]
  | false =>
      constructor
      · simp [split, hmade]
      · intro k
        have hkept : ((!decide (hashKey k &&& (1 <<< (t.buckets p).localDepth) ≠ 0)) = true) ↔
            (hashKey k).testBit (t.buckets p).localDepth = false := by
          rw [Bool.not_eq_true', decide_eq_false_iff_not, and_mask_ne_zero_iff,
            Bool.not_eq_true]
        simp only [split, Bool.false_eq_true, and_false, if_false, Function.update_of_ne hmade,
          Function.update_self, lookup_selectKeys, hkept]

omit h in
theorem split_mGlobalDepth_of_room : (t.split hashKey p).mGlobalDepth = t.mGlobalDepth := by
  have hgrow : ¬t.mGlobalDepth < (t.buckets p).localDepth + 1 := by omega
  simp only [split, if_neg hgrow]

omit h in
theorem getBucketIndex_split_of_room (k : K) :
    (t.split hashKey p).getBucketIndex hashKey k = t.getBucketIndex hashKey k := by
  rw [getBucketIndex_eq, getBucketIndex_eq, split_mGlobalDepth_of_room hashKey hd]

theorem Routes.find_split_of_room [DecidableEq K] (k : K) :
    (t.split hashKey p).find hashKey k = t.find hashKey k := by
  have hi : t.getBucketIndex hashKey k < 2 ^ t.mGlobalDepth := t.getBucketIndex_lt k
  rw [find, getBucketIndex_split_of_room hashKey hd, find]
  by_cases hp : t.bucketAt (t.getBucketIndex hashKey k) = p
  · rw [(h.split_self hashKey hd hi hp).2 k, if_pos, hp]
    rw [getBucketIndex_eq, Nat.testBit_mod_two_pow, decide_eq_true hd, Bool.true_and]
  · obtain ⟨hat, hbucket⟩ := h.split_other hashKey hd hi hp
    rw [hat, hbucket]

theorem Routes.split_of_room [DecidableEq K] : (t.split hashKey p).Routes := by
  have hdepth : (t.split hashKey p).mGlobalDepth = t.mGlobalDepth :=
    split_mGlobalDepth_of_room hashKey hd
  constructor
  case length =>
    have hgrow : ¬t.mGlobalDepth < (t.buckets p).localDepth + 1 := by omega
    rw [hdepth, ← h.length]
    simp [split, hgrow]
  case made =>
    intro i hi
    rw [hdepth] at hi
    rw [h.bucketAt_split hashKey hd hi]
    show _ < t.made + 1
    split
    · exact Nat.lt_succ_self _
    · exact (h.made i hi).trans (Nat.lt_succ_self _)
  case depth =>
    intro i hi
    rw [hdepth] at hi ⊢
    by_cases hp : t.bucketAt i = p
    · rw [(h.split_self hashKey hd hi hp).1]
      exact hd
    · obtain ⟨hat, hbucket⟩ := h.split_other hashKey hd hi hp
      rw [hat, hbucket]
      exact h.depth i hi
  case shared =>
    intro i hi j hj
    rw [hdepth] at hi hj
    by_cases hp : t.bucketAt i = p
    · rw [(h.split_self hashKey hd hi hp).1, modEq_two_pow_succ, h.bucketAt_split hashKey hd hi,
        h.bucketAt_split hashKey hd hj]
      have hold := h.shared i hi j hj
      have hnewi := (h.made i hi).ne
      have hnewj := (h.made j hj).ne
      rw [hp] at hold hnewi
      rw [← hold, hp]
      by_cases hj : t.bucketAt j = p
      · -- two indices of the bucket: the next bit decides
        cases i.testBit (t.buckets p).localDepth <;>
          cases j.testBit (t.buckets p).localDepth <;> simp [hj, hnewi, Ne.symm hnewi]
      · simp only [hj, false_and, if_false, iff_false]
        split
        · exact hnewj
        · exact hj
    · obtain ⟨hat, hbucket⟩ := h.split_other hashKey hd hi hp
      rw [hat, hbucket, ← h.shared i hi j hj, h.bucketAt_split hashKey hd hj]
      by_cases hj : t.bucketAt j = p
      · rw [hj]
        have hnei : p ≠ t.bucketAt i := Ne.symm hp
        have hnew : t.made ≠ t.bucketAt i := (h.made i hi).ne'
        cases j.testBit (t.buckets p).localDepth <;> simp [hnei, hnew]
      · simp [hj]

omit h in
theorem Wf.split_of_room [DecidableEq K] (h : t.Wf hashKey) :
    (t.split hashKey p).Wf hashKey := by
  obtain ⟨hlength, hmade, hdepth, hshared⟩ := h.routes.split_of_room hashKey hd
  refine ⟨hlength, hmade, hdepth, hshared, fun i hi k hk => ?_⟩
  rw [split_mGlobalDepth_of_room hashKey hd] at hi
  by_cases hp : t.bucketAt i = p
  · obtain ⟨hlocal, hlookup⟩ := h.routes.split_self hashKey hd hi hp
    rw [← AList.lookup_isSome, hlookup k] at hk
    rw [hlocal, modEq_two_pow_succ]
    split at hk
    case isTrue hbit =>
      have hplaced := h.placed i hi k
      rw [hp] at hplaced
      exact ⟨hplaced (AList.lookup_isSome.mp hk), hbit⟩
    case isFalse => cases hk
  · obtain ⟨hat, hbucket⟩ := h.routes.split_other hashKey hd hi hp
    rw [hat, hbucket] at hk ⊢
    exact h.placed i hi k hk

end Split

/-- Splitting the bucket of `key` keeps the directory right and every
key findable; `key` has a bucket one bit deeper then. -/
theorem Wf.split [DecidableEq K] (h : t.Wf hashKey) (key : K) :
    let s := t.split hashKey (t.bucketAt (t.getBucketIndex hashKey key))
    s.Wf hashKey ∧ (∀ k, s.find hashKey k = t.find hashKey k) ∧
      (s.buckets (s.bucketAt (s.getBucketIndex hashKey key))).localDepth =
        (t.buckets (t.bucketAt (t.getBucketIndex hashKey key))).localDepth + 1 := by
  have hi : t.getBucketIndex hashKey key < 2 ^ t.mGlobalDepth := t.getBucketIndex_lt key
  rcases (h.depth _ hi).lt_or_eq with hroom | hfull
  · refine ⟨h.split_of_room hashKey hroom, h.routes.find_split_of_room hashKey hroom, ?_⟩
    rw [getBucketIndex_split_of_room hashKey hroom]
    exact (h.routes.split_self hashKey hroom hi rfl).1
  · rw [split_eq_split_grow hfull]
    have hgrow := h.routes.bucketAt_getBucketIndex_grow hashKey key
    have hroom : (t.grow.buckets (t.bucketAt (t.getBucketIndex hashKey key))).localDepth <
        t.grow.mGlobalDepth := by
      show (t.buckets _).localDepth < t.mGlobalDepth + 1
      omega
    refine ⟨h.grow.split_of_room hashKey hroom, fun k => ?_, ?_⟩
    · rw [h.grow.routes.find_split_of_room hashKey hroom, find,
        h.routes.bucketAt_getBucketIndex_grow]
      rfl
    · rw [getBucketIndex_split_of_room hashKey hroom]
      exact (h.grow.routes.split_self hashKey hroom (t.grow.getBucketIndex_lt key) hgrow).1

/-! ### The operations as operations on a map -/

section Operations

variable [DecidableEq K]

omit [DecidableEq K] in
theorem Wf.modEq_of_mem (h : t.Wf hashKey) {key : K}
    (hk : k ∈ (t.buckets (t.bucketAt (t.getBucketIndex hashKey key))).dataMap) :
    hashKey k ≡ hashKey key
      [MOD 2 ^ (t.buckets (t.bucketAt (t.getBucketIndex hashKey key))).localDepth] :=
  (h.placed _ (t.getBucketIndex_lt key) k hk).trans (h.routes.getBucketIndex_modEq key)

theorem Wf.setMap (h : t.Wf hashKey) (key : K) {m : AList fun _ : K => V}
    (hm : ∀ k ∈ m, hashKey k ≡ hashKey key
      [MOD 2 ^ (t.buckets (t.bucketAt (t.getBucketIndex hashKey key))).localDepth]) :
    let cur := t.bucketAt (t.getBucketIndex hashKey key)
    let s : ExtendibleHash K V :=
      { t with buckets := Function.update t.buckets cur { t.buckets cur with dataMap := m } }
    s.Wf hashKey ∧ ∀ k, s.find hashKey k =
      if t.bucketAt (t.getBucketIndex hashKey k) = cur then m.lookup k
      else t.find hashKey k := by
  intro cur s
  have hdepth (q : Nat) : (s.buckets q).localDepth = (t.buckets q).localDepth := by
    by_cases hq : q = cur
    · simp [s, hq]
    · simp [s, hq]
  have hkey : t.getBucketIndex hashKey key < 2 ^ t.mGlobalDepth := t.getBucketIndex_lt key
  constructor
  · constructor
    case length => exact h.length
    case made => exact h.made
    case depth =>
      intro i hi
      rw [hdepth]
      exact h.depth i hi
    case shared =>
      intro i hi j hj
      rw [hdepth]
      exact h.shared i hi j hj
    case placed =>
      intro i hi k hk
      rw [hdepth]
      by_cases hcur : t.bucketAt i = cur
      · have hkm : k ∈ m := by
          have hmap : (s.buckets (t.bucketAt i)).dataMap = m := by simp [s, hcur]
          exact hmap ▸ hk
        have hindex := (h.shared i hi _ hkey).mp hcur.symm
        show _ ≡ i [MOD 2 ^ (t.buckets (t.bucketAt i)).localDepth]
        rw [hcur] at hindex ⊢
        exact (hm k hkm).trans ((h.routes.getBucketIndex_modEq key).symm.trans hindex)
      · have hsame : s.buckets (s.bucketAt i) = t.buckets (t.bucketAt i) :=
          Function.update_of_ne hcur _ _
        rw [hsame] at hk
        exact h.placed i hi k hk
  · intro k
    show (s.buckets (t.bucketAt (t.getBucketIndex hashKey k))).dataMap.lookup k = _
    split
    case isTrue hcur => simp [s, hcur]
    case isFalse hcur =>
      have hsame : s.buckets (t.bucketAt (t.getBucketIndex hashKey k)) = t.buckets _ :=
        Function.update_of_ne hcur _ _
      rw [hsame]
      rfl

/-- `Remove` takes the key out and says whether it was there. -/
theorem Wf.remove (h : t.Wf hashKey) (key : K) :
    (t.remove hashKey key).2.Wf hashKey ∧
      (t.remove hashKey key).1 = (t.find hashKey key).isSome ∧
      ∀ k, (t.remove hashKey key).2.find hashKey k =
        if k = key then none else t.find hashKey k := by
  cases hkey : (t.buckets (t.bucketAt (t.getBucketIndex hashKey key))).dataMap.lookup key with
  | none =>
      have hfind : t.find hashKey key = none := hkey
      rw [ExtendibleHash.remove, hkey, hfind]
      refine ⟨h, rfl, fun k => ?_⟩
      by_cases hk : k = key
      · rw [hk, if_pos rfl, hfind]
      · rw [if_neg hk]
  | some v =>
      have hfind : t.find hashKey key = some v := hkey
      rw [ExtendibleHash.remove, hkey, hfind]
      obtain ⟨hwf, hnew⟩ := h.setMap key (m := AList.erase key _) fun k hk =>
        h.modEq_of_mem (AList.mem_erase.mp hk).2
      refine ⟨hwf, rfl, fun k => ?_⟩
      rw [hnew k]
      by_cases hk : k = key
      · rw [hk, if_pos rfl, if_pos rfl, AList.lookup_erase]
      · rw [if_neg hk, AList.lookup_erase_ne hk, ite_eq_right_iff]
        intro hcur
        rw [find, hcur]

theorem remove_mBucketSize (t : ExtendibleHash K V) (key : K) :
    (t.remove hashKey key).2.mBucketSize = t.mBucketSize := by
  rw [ExtendibleHash.remove]
  split <;> rfl

/-- `Insert` stores the value unless the key is there. -/
theorem Wf.insertLoop (h : t.Wf hashKey) {key : K} {value : V} {fuel : Nat}
    {s : ExtendibleHash K V}
    (hrun : t.insertLoop hashKey key value fuel (t.bucketAt (t.getBucketIndex hashKey key)) =
      some s) :
    s.Wf hashKey ∧ s.mBucketSize = t.mBucketSize ∧ ∀ k, s.find hashKey k =
      if k = key then some ((t.find hashKey key).getD value) else t.find hashKey k := by
  induction fuel generalizing t with
  | zero => cases hrun
  | succ fuel ih =>
      simp only [ExtendibleHash.insertLoop] at hrun
      split at hrun
      case isTrue hthere =>
        obtain rfl : t = s := Option.some.inj hrun
        refine ⟨h, rfl, fun k => ?_⟩
        split
        case isTrue hk =>
          obtain ⟨v, hv⟩ := Option.isSome_iff_exists.mp hthere
          have hfind : t.find hashKey key = some v := hv
          rw [hk, hfind, Option.getD_some]
        case isFalse => rfl
      case isFalse hthere =>
        have hfind : t.find hashKey key = none := Option.not_isSome_iff_eq_none.mp hthere
        split at hrun
        case isTrue =>
          cases hrun
          obtain ⟨hwf, hnew⟩ := h.setMap key (m := AList.insert key value _) fun k hk => by
            rcases (AList.mem_insert _).mp hk with rfl | hk
            · exact Nat.ModEq.refl _
            · exact h.modEq_of_mem hk
          refine ⟨hwf, rfl, fun k => ?_⟩
          rw [hnew k, hfind, Option.getD_none]
          by_cases hk : k = key
          · rw [hk, if_pos rfl, if_pos rfl, AList.lookup_insert]
          · rw [if_neg hk, AList.lookup_insert_ne hk, ite_eq_right_iff]
            intro hcur
            rw [find, hcur]
        case isFalse =>
          obtain ⟨hwf, hsame, -⟩ := h.split key
          obtain ⟨hs, hsize, hnew⟩ := ih hwf hrun
          refine ⟨hs, hsize, fun k => ?_⟩
          rw [hnew k, hsame, hsame]

/-- A bucket that uses `n` bits or more has room for `key`, when the low
`n` bits of the hash set `key` apart from the keys in the table. -/
theorem Wf.lookup_isSome_of_full (h : t.Wf hashKey) {key : K} {n : Nat}
    (hsize : 0 < t.mBucketSize)
    (hapart : ∀ k, (t.find hashKey k).isSome → hashKey k ≡ hashKey key [MOD 2 ^ n] → k = key)
    (hdeep : n ≤ (t.buckets (t.bucketAt (t.getBucketIndex hashKey key))).localDepth)
    (hfull : t.mBucketSize ≤
      (t.buckets (t.bucketAt (t.getBucketIndex hashKey key))).dataMap.entries.length) :
    ((t.buckets (t.bucketAt (t.getBucketIndex hashKey key))).dataMap.lookup key).isSome := by
  obtain ⟨e, he⟩ := List.exists_mem_of_length_pos (hsize.trans_le hfull)
  have hmem : e.1 ∈ (t.buckets (t.bucketAt (t.getBucketIndex hashKey key))).dataMap :=
    List.mem_keys_of_mem he
  have hbits := h.modEq_of_mem hmem
  have hfind := h.find_eq (t.getBucketIndex_lt key) (h.placed _ (t.getBucketIndex_lt key) _ hmem)
  rw [← AList.lookup_isSome] at hmem
  have hkey := hapart e.1 (hfind ▸ hmem) (hbits.of_dvd (Nat.pow_dvd_pow 2 hdeep))
  rwa [hkey] at hmem

/-- The loop ends when the low `n` bits of the hash set `key` apart from
the keys in the table, and there is a round for each bit that the bucket
of `key` does not use yet. -/
theorem Wf.insertLoop_isSome (h : t.Wf hashKey) {key : K} {value : V} {fuel n : Nat}
    (hsize : 0 < t.mBucketSize)
    (hapart : ∀ k, (t.find hashKey k).isSome → hashKey k ≡ hashKey key [MOD 2 ^ n] → k = key)
    (hfuel : n ≤ fuel + (t.buckets (t.bucketAt (t.getBucketIndex hashKey key))).localDepth) :
    (t.insertLoop hashKey key value (fuel + 1)
      (t.bucketAt (t.getBucketIndex hashKey key))).isSome := by
  induction fuel generalizing t with
  | zero =>
      rw [ExtendibleHash.insertLoop]
      split
      case isTrue => rfl
      case isFalse hout =>
        rw [if_pos]
        · rfl
        · by_contra hfull
          exact hout (h.lookup_isSome_of_full hsize hapart (by omega) (by omega))
  | succ fuel ih =>
      rw [ExtendibleHash.insertLoop]
      split
      case isTrue => rfl
      case isFalse hout =>
        split
        case isTrue => rfl
        case isFalse hfull =>
          obtain ⟨hwf, hsame, hlocal⟩ := h.split key
          apply ih hwf hsize
          · intro k hk
            rw [hsame] at hk
            exact hapart k hk
          · rw [hlocal]
            omega

end Operations

end

end ExtendibleHash

end ScuDb
