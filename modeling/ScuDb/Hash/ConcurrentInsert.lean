import ScuDb.Hash.Directory

/-!
Calls of `Insert` by several threads.

A call takes `mLatch` to compute the index of its key, reads the bucket
at this index without a latch, and then makes the rounds of the loop, each
under the latch of the bucket it found. These are the atomic steps here; a
schedule says whose step is next. Between them the bucket may be split or
the directory be doubled, and the round does not look again. A round that
is made at a bucket the directory does not lead the key to any more is
harmless while the bucket is full, but where there is room, the key is
stored and `Find` misses it.
-/

namespace ScuDb

open Foundations

/-- Where a call of `Insert` is. -/
inductive InsertPhase
  | start
  | indexed (index : Nat)
  | round (cur : Nat)
  | returned
  deriving DecidableEq

/-- The table and the calls, one for each `T`. -/
structure Inserting (T K V : Type) where
  table : ExtendibleHash K V
  phase : T → InsertPhase

variable {T K V : Type}

namespace ExtendibleHash

variable (hashKey : K → Nat)

section

variable [DecidableEq K]

/-- One round of the loop of `Insert`, and the bucket of the next round if
there is one. -/
def insertRound (key : K) (value : V) (t : ExtendibleHash K V) (cur : Nat) :
    ExtendibleHash K V × Option Nat :=
  let bucket := t.buckets cur
  if (bucket.dataMap.lookup key).isSome then (t, none)
  else if bucket.dataMap.entries.length < t.mBucketSize then
    ({ t with
      buckets := Function.update t.buckets cur
        { bucket with dataMap := bucket.dataMap.insert key value } }, none)
  else
    let t := t.split hashKey cur
    (t, some (t.bucketAt (t.getBucketIndex hashKey key)))

/-- A round at `cur` is the last one. -/
def EndsAt (key : K) (t : ExtendibleHash K V) (cur : Nat) : Prop :=
  ((t.buckets cur).dataMap.lookup key).isSome ∨
    (t.buckets cur).dataMap.entries.length < t.mBucketSize

theorem insertLoop_succ (key : K) (value : V) (fuel : Nat) (t : ExtendibleHash K V) (cur : Nat) :
    t.insertLoop hashKey key value (fuel + 1) cur =
      match t.insertRound hashKey key value cur with
      | (s, none) => some s
      | (s, some next) => s.insertLoop hashKey key value fuel next := by
  rw [insertLoop, insertRound]
  split
  · rfl
  · split <;> rfl

end

variable {hashKey : K → Nat} {t : ExtendibleHash K V} {p cur : Nat} {key : K} {value : V}

theorem Routes.of_buckets {b : Nat → Bucket K V} (h : t.Routes)
    (hb : ∀ p, (b p).localDepth = (t.buckets p).localDepth) :
    Routes { t with buckets := b } where
  length := h.length
  made := h.made
  depth i hi := by
    show (b (t.bucketAt i)).localDepth ≤ _
    rw [hb]
    exact h.depth i hi
  shared i hi j hj := by
    show _ ↔ j ≡ i [MOD 2 ^ (b (t.bucketAt i)).localDepth]
    rw [hb]
    exact h.shared i hi j hj

theorem insertRound_of_full [DecidableEq K] (hfull : ¬EndsAt key t cur) :
    t.insertRound hashKey key value cur =
      (t.split hashKey cur, some ((t.split hashKey cur).bucketAt
        ((t.split hashKey cur).getBucketIndex hashKey key))) := by
  obtain ⟨hout, hroom⟩ := not_or.mp hfull
  rw [insertRound, if_neg hout, if_neg hroom]

theorem insertRound_of_endsAt [DecidableEq K] (hashKey : K → Nat) (value : V)
    (hend : EndsAt key t cur) :
    ∃ m : AList fun _ : K => V, t.insertRound hashKey key value cur =
        ({ t with buckets :=
            Function.update t.buckets cur { t.buckets cur with dataMap := m } }, none) ∧
      (m.lookup key).isSome ∧ ∀ k, k ≠ key → m.lookup k = (t.buckets cur).dataMap.lookup k := by
  by_cases hthere : ((t.buckets cur).dataMap.lookup key).isSome
  · refine ⟨(t.buckets cur).dataMap, ?_, hthere, fun _ _ => rfl⟩
    rw [insertRound, if_pos hthere, Function.update_eq_self]
  · refine ⟨(t.buckets cur).dataMap.insert key value, ?_, ?_, fun k hk => ?_⟩
    · rw [insertRound, if_neg hthere, if_pos (hend.resolve_left hthere)]
    · rw [AList.lookup_insert]
      rfl
    · exact AList.lookup_insert_ne hk

theorem find_update [DecidableEq K] (m : AList fun _ : K => V) (k : K) :
    ({ t with buckets := Function.update t.buckets cur { t.buckets cur with dataMap := m } } :
        ExtendibleHash K V).find hashKey k =
      if t.bucketAt (t.getBucketIndex hashKey k) = cur then m.lookup k
      else t.find hashKey k := by
  show (Function.update t.buckets cur _ (t.bucketAt (t.getBucketIndex hashKey k))).dataMap.lookup k
    = _
  rw [Function.update_apply]
  split
  · rfl
  · rfl

theorem mGlobalDepth_le_split (t : ExtendibleHash K V) (p : Nat) :
    t.mGlobalDepth ≤ (t.split hashKey p).mGlobalDepth := by
  simp only [split]
  split
  · exact Nat.le_succ _
  · exact le_rfl

/-- A round keeps the directory right and every bucket in it, and leads
to a bucket of it. -/
theorem Routes.insertRound [DecidableEq K] (h : t.Routes) (hcur : cur ∈ t.mBuckets)
    (hashKey : K → Nat) (key : K) (value : V) :
    let (s, next) := t.insertRound hashKey key value cur
    s.Routes ∧ t.mGlobalDepth ≤ s.mGlobalDepth ∧ t.mBuckets ⊆ s.mBuckets ∧
      ∀ p ∈ next, p ∈ s.mBuckets := by
  by_cases hend : EndsAt key t cur
  · obtain ⟨m, hround, -, -⟩ := insertRound_of_endsAt hashKey value hend
    rw [hround]
    refine ⟨h.of_buckets fun p => ?_, le_rfl, List.Subset.refl _, fun p hp => by cases hp⟩
    by_cases hp : p = cur
    · rw [hp, Function.update_self]
    · rw [Function.update_of_ne hp]
  · rw [insertRound_of_full hend]
    obtain ⟨hs, -, hset⟩ := h.split_of_mem hashKey hcur
    refine ⟨hs, mGlobalDepth_le_split t cur, fun p hp => ?_, ?_⟩
    · rw [← List.mem_toFinset, hset]
      exact Finset.mem_insert_of_mem (List.mem_toFinset.mpr hp)
    · rintro p hp
      cases hp
      exact hs.bucketAt_mem (getBucketIndex_lt _ key)

/-- After a round `Find` has the keys it had before, and `key` if this was
the last round and it was made where `Find` looks. -/
theorem Routes.find_insertRound [DecidableEq K] (h : t.Routes) (hcur : cur ∈ t.mBuckets)
    (hashKey : K → Nat) (key : K) (value : V) (k : K) :
    ((t.insertRound hashKey key value cur).1.find hashKey k).isSome ↔
      (t.find hashKey k).isSome ∨
        k = key ∧ EndsAt key t cur ∧ t.bucketAt (t.getBucketIndex hashKey key) = cur := by
  by_cases hend : EndsAt key t cur
  · obtain ⟨m, hround, hkey, hother⟩ :=
      insertRound_of_endsAt hashKey value hend
    rw [hround, find_update]
    split
    case isTrue hat =>
      have hfind : t.find hashKey k = (t.buckets cur).dataMap.lookup k := by rw [find, hat]
      by_cases hk : k = key
      · subst hk
        exact ⟨fun _ => Or.inr ⟨rfl, hend, hat⟩, fun _ => hkey⟩
      · rw [hother k hk, hfind]
        exact ⟨Or.inl, fun hor => hor.resolve_right fun hc => hk hc.1⟩
    case isFalse hat =>
      refine ⟨Or.inl, fun hor => hor.resolve_right ?_⟩
      rintro ⟨rfl, -, hc⟩
      exact hat hc
  · rw [insertRound_of_full hend, (h.split_of_mem hashKey hcur).2.1 k]
    exact ⟨Or.inl, fun hor => hor.resolve_right fun hc => hend hc.2.1⟩

theorem insertRound_snd_eq_none_iff [DecidableEq K] (key : K) (cur : Nat) (hashKey : K → Nat)
    (value : V) :
    (t.insertRound hashKey key value cur).2 = none ↔ EndsAt key t cur := by
  constructor
  · intro hnone
    by_contra hend
    rw [insertRound_of_full hend] at hnone
    cases hnone
  · intro hend
    obtain ⟨m, hround, -, -⟩ := insertRound_of_endsAt hashKey value hend
    rw [hround]

end ExtendibleHash

namespace Inserting

open ExtendibleHash

variable [DecidableEq K] [DecidableEq T]

/-- The next step of call `i`. -/
def step (hashKey : K → Nat) (key : T → K) (value : T → V) (i : T) (s : Inserting T K V) :
    Unit × Inserting T K V :=
  match s.phase i with
  | .start =>
      let index := s.table.getBucketIndex hashKey (key i)
      ((), { s with phase := Function.update s.phase i (.indexed index) })
  | .indexed index =>
      let cur := s.table.bucketAt index
      ((), { s with phase := Function.update s.phase i (.round cur) })
  | .round cur =>
      let (t, next) := s.table.insertRound hashKey (key i) (value i) cur
      let phase := match next with
        | none => .returned
        | some cur => .round cur
      ((), { table := t, phase := Function.update s.phase i phase })
  | .returned => ((), s)

/-- No call has made a step. -/
def starting (t : ExtendibleHash K V) : Inserting T K V where
  table := t
  phase := fun _ => .start

/-- The state that the schedule leads to. -/
def after (hashKey : K → Nat) (key : T → K) (value : T → V) (schedule : List T)
    (s : Inserting T K V) : Inserting T K V :=
  (specAll (step hashKey key value) schedule s).2

/-- If the next step of call `i` is its last round, it is made at the
bucket to which the directory leads the key now, or `Find` has the key
already. -/
def StoresInPlace (hashKey : K → Nat) (key : T → K) (i : T) (s : Inserting T K V) : Prop :=
  ∀ cur, s.phase i = .round cur → EndsAt (key i) s.table cur →
    s.table.bucketAt (s.table.getBucketIndex hashKey (key i)) = cur ∨
      (s.table.find hashKey (key i)).isSome

/-- What the calls have read is still an index and a bucket of the
directory. -/
structure Valid (s : Inserting T K V) : Prop where
  routes : s.table.Routes
  index : ∀ i index, s.phase i = .indexed index → index < 2 ^ s.table.mGlobalDepth
  cur : ∀ i cur, s.phase i = .round cur → cur ∈ s.table.mBuckets

variable (hashKey : K → Nat) (key : T → K) (value : T → V) {s : Inserting T K V} {i j : T}

theorem step_phase_of_ne (hij : i ≠ j) :
    (step hashKey key value j s).2.phase i = s.phase i := by
  unfold step
  split
  · exact Function.update_of_ne hij _ _
  · exact Function.update_of_ne hij _ _
  · exact Function.update_of_ne hij _ _
  · rfl

/-! ### One step -/

omit [DecidableEq K] in
theorem Valid.of_update (h : s.Valid) {t : ExtendibleHash K V} (ht : t.Routes)
    (hdepth : s.table.mGlobalDepth ≤ t.mGlobalDepth) (hsub : s.table.mBuckets ⊆ t.mBuckets)
    {phase : InsertPhase} (hindex : ∀ index, phase = .indexed index → index < 2 ^ t.mGlobalDepth)
    (hcur : ∀ cur, phase = .round cur → cur ∈ t.mBuckets) :
    Valid { table := t, phase := Function.update s.phase j phase } := by
  constructor
  case routes => exact ht
  case index =>
    intro i index hi
    by_cases hij : i = j
    · rw [hij] at hi
      exact hindex index ((Function.update_self j phase s.phase).symm.trans hi)
    · have hold := (Function.update_of_ne hij phase s.phase).symm.trans hi
      exact (h.index i index hold).trans_le (Nat.pow_le_pow_right (by omega) hdepth)
  case cur =>
    intro i cur hi
    by_cases hij : i = j
    · rw [hij] at hi
      exact hcur cur ((Function.update_self j phase s.phase).symm.trans hi)
    · exact hsub (h.cur i cur ((Function.update_of_ne hij phase s.phase).symm.trans hi))

theorem Valid.next (h : s.Valid) (j : T) : (step hashKey key value j s).2.Valid := by
  unfold step
  split
  case h_1 =>
    apply h.of_update h.routes le_rfl (List.Subset.refl _)
    · rintro index ⟨⟩
      exact getBucketIndex_lt _ _
    · rintro cur ⟨⟩
  case h_2 index hj =>
    apply h.of_update h.routes le_rfl (List.Subset.refl _)
    · rintro index ⟨⟩
    · rintro cur ⟨⟩
      exact h.routes.bucketAt_mem (h.index j index hj)
  case h_3 cur hj =>
    obtain ⟨hs, hdepth, hsub, hnext⟩ := h.routes.insertRound (h.cur j cur hj) hashKey
      (key j) (value j)
    apply h.of_update hs hdepth hsub
    · intro index hphase
      split at hphase <;> cases hphase
    · intro cur' hphase
      split at hphase
      · cases hphase
      · next hsome =>
          cases hphase
          exact hnext _ hsome
  case h_4 => exact h

/-- A call returns with its last round. -/
theorem phase_step_eq_returned_iff :
    (step hashKey key value j s).2.phase i = .returned ↔
      s.phase i = .returned ∨
        i = j ∧ ∃ cur, s.phase i = .round cur ∧ EndsAt (key i) s.table cur := by
  by_cases hij : i = j
  · subst hij
    cases hi : s.phase i with
    | start => simp [step, hi]
    | indexed index => simp [step, hi]
    | round cur =>
        have hnone := insertRound_snd_eq_none_iff (t := s.table) (key i) cur hashKey (value i)
        simp only [step, hi, Function.update_self, reduceCtorEq, false_or, true_and,
          InsertPhase.round.injEq, exists_eq_left', ← hnone]
        cases (s.table.insertRound hashKey (key i) (value i) cur).2 <;> simp
    | returned => simp [step, hi]
  · rw [step_phase_of_ne hashKey key value hij]
    simp [hij]

/-- `Find` has the key of a call after a step if it had it before, or if
the step was the last round of the call, where `Find` looks. -/
theorem Valid.found_step_iff (h : s.Valid) (hkey : Function.Injective key) :
    ((step hashKey key value j s).2.table.find hashKey (key i)).isSome ↔
      (s.table.find hashKey (key i)).isSome ∨ i = j ∧ ∃ cur, s.phase i = .round cur ∧
        EndsAt (key i) s.table cur ∧
        s.table.bucketAt (s.table.getBucketIndex hashKey (key i)) = cur := by
  cases hj : s.phase j with
  | round cur =>
      have hround := h.routes.find_insertRound (h.cur j cur hj) hashKey (key j) (value j) (key i)
      simp only [step, hj]
      rw [hround, hkey.eq_iff]
      constructor
      · rintro (hfound | ⟨rfl, hend, hat⟩)
        · exact Or.inl hfound
        · exact Or.inr ⟨rfl, cur, hj, hend, hat⟩
      · rintro (hfound | ⟨rfl, cur', hi, hend, hat⟩)
        · exact Or.inl hfound
        · rw [hj] at hi
          cases hi
          exact Or.inr ⟨rfl, hend, hat⟩
  | start =>
      simp only [step, hj]
      refine ⟨Or.inl, fun hor => hor.resolve_right ?_⟩
      rintro ⟨rfl, cur, hi, -⟩
      cases hj.symm.trans hi
  | indexed index =>
      simp only [step, hj]
      refine ⟨Or.inl, fun hor => hor.resolve_right ?_⟩
      rintro ⟨rfl, cur, hi, -⟩
      cases hj.symm.trans hi
  | returned =>
      simp only [step, hj]
      refine ⟨Or.inl, fun hor => hor.resolve_right ?_⟩
      rintro ⟨rfl, cur, hi, -⟩
      cases hj.symm.trans hi

/-! ### Schedules -/

omit [DecidableEq K] [DecidableEq T] in
theorem Valid.starting {t : ExtendibleHash K V} (h : t.Routes) :
    (starting t : Inserting T K V).Valid where
  routes := h
  index := by
    intro i index hi
    cases hi
  cur := by
    intro i cur hi
    cases hi

theorem Valid.run (h : s.Valid) (schedule : List T) :
    (after hashKey key value schedule s).Valid := by
  induction schedule generalizing s with
  | nil => exact h
  | cons j schedule ih => exact ih (h.next hashKey key value j)

/-- What `Find` says of the key of a call that has returned stays. -/
theorem Valid.found_after_iff (h : s.Valid) (hkey : Function.Injective key)
    (hi : s.phase i = .returned) (schedule : List T) :
    ((after hashKey key value schedule s).table.find hashKey (key i)).isSome ↔
      (s.table.find hashKey (key i)).isSome := by
  induction schedule generalizing s with
  | nil => rfl
  | cons j schedule ih =>
      have hstep := h.found_step_iff hashKey key value hkey (i := i) (j := j)
      show ((after hashKey key value schedule (step hashKey key value j s).2).table.find hashKey
        (key i)).isSome ↔ _
      rw [ih (h.next hashKey key value j) ((phase_step_eq_returned_iff hashKey key value).mpr
        (Or.inl hi)), hstep]
      refine ⟨fun hor => hor.resolve_right ?_, Or.inl⟩
      rintro ⟨-, cur, hround, -⟩
      cases hi.symm.trans hround

/-- When every call stores its key where `Find` looks, no call that
returns loses its key. -/
theorem Valid.found_of_storesInPlace (h : s.Valid) (hkey : Function.Injective key)
    (hfound : ∀ i, s.phase i = .returned → (s.table.find hashKey (key i)).isSome)
    {schedule : List T}
    (hplace : Admissible (StoresInPlace hashKey key) (step hashKey key value) schedule s)
    (hret : (after hashKey key value schedule s).phase i = .returned) :
    ((after hashKey key value schedule s).table.find hashKey (key i)).isSome := by
  induction schedule generalizing s with
  | nil => exact hfound i hret
  | cons j schedule ih =>
      apply ih (h.next hashKey key value j) _ hplace.2 hret
      intro i' hi'
      rw [h.found_step_iff hashKey key value hkey]
      rcases (phase_step_eq_returned_iff hashKey key value).mp hi' with hold |
        ⟨rfl, cur, hround, hend⟩
      · exact Or.inl (hfound i' hold)
      · rcases hplace.1 cur hround hend with hat | hthere
        · exact Or.inr ⟨rfl, cur, hround, hend, hat⟩
        · exact Or.inl hthere

/-- No insertion is lost exactly when every call stores its key in the
bucket to which the directory leads the key at that moment. -/
theorem all_found_iff {t : ExtendibleHash K V} (h : t.Wf hashKey) (hkey : Function.Injective key)
    {schedule : List T}
    (hret : ∀ i, (after hashKey key value schedule (starting t)).phase i = .returned) :
    (∀ i, ((after hashKey key value schedule (starting t)).table.find hashKey (key i)).isSome) ↔
      Admissible (StoresInPlace hashKey key) (step hashKey key value) schedule (starting t) := by
  have hvalid : (starting t : Inserting T K V).Valid := Valid.starting h.routes
  constructor
  · intro hfound
    rw [admissible_iff]
    rintro before i rest rfl cur hround hend
    have hbefore := hvalid.run hashKey key value before
    have hstep := hbefore.found_step_iff hashKey key value hkey (i := i) (j := i)
    -- the call returns with this step, so the key is found after it
    have hreturned := (phase_step_eq_returned_iff hashKey key value (j := i)).mpr
      (Or.inr ⟨rfl, cur, hround, hend⟩)
    have hlast := (hbefore.next hashKey key value i).found_after_iff hashKey key value hkey
        hreturned rest
    have hfinal : after hashKey key value (before ++ i :: rest) (starting t) =
        after hashKey key value rest (step hashKey key value i
          (after hashKey key value before (starting t))).2 := specAll_append _ _ _ _
    rw [← hfinal] at hlast
    rcases hstep.mp (hlast.mp (hfound i)) with hthere | ⟨-, cur', hround', -, hat⟩
    · exact Or.inr hthere
    · cases hround.symm.trans hround'
      exact Or.inl hat
  · intro hplace i
    apply hvalid.found_of_storesInPlace hashKey key value hkey _ hplace (hret i)
    intro i' hi'
    cases hi'

/-- Two calls, one after the other. -/
theorem all_found_of_two :
    (∀ i : Fin 2, ((after (fun k => k) (fun i : Fin 2 => i.val) (fun _ => ()) [0, 0, 0, 1, 1, 1]
        (starting (empty 2))).table.find (fun k => k) i.val).isSome) ↔
      Admissible (StoresInPlace (fun k => k) fun i : Fin 2 => i.val)
        (step (fun k => k) (fun i : Fin 2 => i.val) fun _ => ()) [0, 0, 0, 1, 1, 1]
        (starting (empty 2)) :=
  all_found_iff _ _ _ (Wf.empty 2) Fin.val_injective (by decide)

/-- Keys 1, 3 and 5 in buckets of one entry. Call 1 has read the only
bucket when call 2 splits it, and then stores the key 3 in the half of the
even hashes. -/
theorem insert_lost :
    let key (i : Fin 3) : Nat := 2 * i.val + 1
    let last := after (fun k => k) key (fun _ => ())
      [0, 0, 0, 1, 1, 2, 2, 2, 2, 2, 2, 1] (starting (empty 1))
    (∀ i, last.phase i = .returned) ∧ ¬∀ i, (last.table.find (fun k => k) (key i)).isSome := by
  intro key last
  constructor
  · decide
  · intro h
    exact absurd (h 1) (by decide)

end Inserting

end ScuDb
