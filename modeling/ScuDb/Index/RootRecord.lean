import ScuDb.Index.Structure

/-!
The header record of a tree names its root.

A tree that is opened again takes its root from the header page. The
record is inserted with the first key and updated with every change of
the root. A tree that has become empty keeps its record, with the invalid
page id in it; the next key inserts a record again, and that is refused.
The record is therefore right as long as no key is inserted into a tree
that has been emptied.
-/

namespace ScuDb

open Foundations

variable {K V : Type}

namespace BPlusTree

/-- The root id in the header page is that of the tree. -/
def RootRecorded (params : IndexParams K) (t : BPlusTree K V) : Prop :=
  t.headerPage.getRootId params.indexName = .ok (some t.rootPageId)

section Standing

variable {B : Type} [LinearOrder B] [BoundedOrder B] {ω : OrderedIndex K B} {R : Prop}
  {m : K → Option V} {t : BPlusTree K V} {G : Cells B} {H : Nat}

/-- A tree is empty exactly when its map is. -/
theorem Represents.root_invalid_iff (h : Represents ω R m t) :
    t.rootPageId = invalidPageId ↔ ∀ k, m k = none := by
  rcases h.tree with ⟨hempty, hm⟩ | ⟨G, H, hs⟩
  · exact ⟨fun _ => hm, fun _ => hempty⟩
  · have hpos := hs.shape.positive hs.shape.top
    obtain ⟨k, hk⟩ := hs.exists_key
    constructor
    · intro heq
      rw [heq] at hpos
      exact absurd hpos (by decide)
    · exact fun hm => absurd (hm k) hk

theorem rootRecorded_iff (ω : OrderedIndex K B) (t : BPlusTree K V) :
    RootRecorded ω.toIndexParams t ↔
      t.headerPage.recorded ω.indexName = some t.rootPageId := by
  rw [RootRecorded, HeaderPage.getRootId_eq ω.name_short, Except.ok.injEq]

end Standing

end BPlusTree

/-! ### Runs, with a note of whether a key has ever been inserted -/

section Runs

variable [Inhabited K] [DecidableEq K] [Inhabited V]

/-- What a finite map does, and whether there has been an insertion. -/
def notedSpec (op : IndexOp K V) (s : (K → Option V) × Bool) :
    IndexResult V × (K → Option V) × Bool :=
  ((op.spec s.1).1, (op.spec s.1).2, s.2 || op.isInsert)

omit [Inhabited K] [Inhabited V] in
theorem specAll_notedSpec (ops : List (IndexOp K V)) (m : K → Option V) (b : Bool) :
    (specAll notedSpec ops (m, b)).2 =
      ((specAll IndexOp.spec ops m).2, b || ops.any IndexOp.isInsert) := by
  induction ops generalizing m b with
  | nil => simp
  | cons op ops ih =>
      rw [specAll_cons, specAll_cons, List.any_cons]
      change (specAll notedSpec ops ((op.spec m).2, b || op.isInsert)).2 = _
      rw [ih, Bool.or_assoc]

/-- An insertion does not meet a tree that has been emptied. -/
def NoRefill (op : IndexOp K V) (s : (K → Option V) × Bool) : Prop :=
  op.isInsert = true → s.2 = true → ∃ k, s.1 k ≠ none

omit [Inhabited K] [Inhabited V] in
theorem notedSpec_keeps {op : IndexOp K V} {s : (K → Option V) × Bool} {key : K}
    (hkey : s.1 key ≠ none) (hop : op ≠ .remove key) : (notedSpec op s).2.1 key ≠ none := by
  cases op with
  | insert k v =>
      simp only [notedSpec, IndexOp.spec]
      split
      · by_cases hk : key = k
        · simp [hk]
        · rwa [Function.update_of_ne hk]
      · exact hkey
  | remove k =>
      have hk : key ≠ k := fun hk => hop (hk ▸ rfl)
      rwa [show (notedSpec (.remove k) s).2.1 = Function.update s.1 k none from rfl,
        Function.update_of_ne hk]
  | getValue k result transaction => exact hkey

omit [Inhabited K] [Inhabited V] in
/-- As long as one key stays, an insertion does not meet an emptied tree. -/
theorem admissible_noRefill {ops : List (IndexOp K V)} {s : (K → Option V) × Bool} (key : K)
    (hkey : s.1 key ≠ none) (hops : .remove key ∉ ops) : Admissible NoRefill notedSpec ops s := by
  induction ops generalizing s with
  | nil => trivial
  | cons op ops ih =>
      obtain ⟨hop, hrest⟩ := not_or.mp (mt List.mem_cons.mpr hops)
      exact ⟨fun _ _ => ⟨key, hkey⟩, ih (notedSpec_keeps hkey (Ne.symm hop)) hrest⟩

variable {B : Type} [LinearOrder B] [BoundedOrder B]

/-- The state of a tree whose record has been right all the time. -/
def Recorded (ω : OrderedIndex K B) (t : BPlusTree K V) (s : (K → Option V) × Bool) : Prop :=
  if s.2 = true then BPlusTree.Represents ω True s.1 t
  else BPlusTree.Represents ω False s.1 t ∧ (∀ k, s.1 k = none) ∧
    t.headerPage.recorded ω.indexName = none

omit [DecidableEq K] in
/-- A call that inserts nothing leaves the header of an empty tree alone. -/
theorem IndexOp.wp_run_empty (params : IndexParams K) {t : BPlusTree K V}
    (hempty : t.rootPageId = invalidPageId) {op : IndexOp K V} (hop : op.isInsert = false) :
    wp (op.run params) (fun _ t' => t'.headerPage = t.headerPage) t := by
  cases op with
  | insert key value => cases hop
  | remove key =>
      simp only [IndexOp.run, BPlusTree.remove, wp_bind, BPlusTree.wp_getRootPageId]
      rw [if_pos hempty, wp_pure, wp_pure]
  | getValue key result transaction =>
      simp only [IndexOp.run, BPlusTree.getValue, BPlusTree.findLeafPage, BPlusTree.lockRootPageId,
        wp_bind, wp_modify, BPlusTree.wp_getRootPageId]
      rw [if_pos hempty, wp_bind]
      refine BPlusTree.wp_tryUnlockRootPageId fun count calls => ?_
      simp only [wp_pure]

/-- As long as no emptied tree is filled again, the record stays right. -/
theorem IndexOp.refines_recorded (ω : OrderedIndex K B) :
    Refines (Recorded (V := V) ω) (fun op s => op.key ∈ ω.keys ∧ NoRefill op s)
      (IndexOp.run ω.toIndexParams) notedSpec := by
  rintro op t ⟨m, b⟩ h ⟨hkey, hok⟩
  cases b with
  | true =>
      have h' : BPlusTree.Represents ω True m t := h
      refine wp_mono (op.wp_run h' hkey) ?_
      rintro r t' ⟨hr, ht', -⟩
      refine ⟨hr, ?_⟩
      have hnot : ¬(op.isInsert = true ∧ t.rootPageId = invalidPageId) := by
        rintro ⟨hinsert, hempty⟩
        obtain ⟨k, hk⟩ := hok hinsert rfl
        exact hk (h'.root_invalid_iff.mp hempty k)
      rw [if_neg hnot] at ht'
      exact ht'
  | false =>
      obtain ⟨h', hm, hnone⟩ : BPlusTree.Represents ω False m t ∧ (∀ k, m k = none) ∧
        t.headerPage.recorded ω.indexName = none := h
      have hempty := h'.root_invalid_iff.mpr hm
      by_cases hinsert : op.isInsert = true
      · refine wp_mono (op.wp_run h' hkey) ?_
        rintro r t' ⟨hr, ht', -⟩
        refine ⟨hr, ?_⟩
        rw [if_pos ⟨hinsert, hempty⟩] at ht'
        simp only [Recorded, notedSpec, hinsert, Bool.or_true, if_true]
        exact ht'.mono fun _ => hnone
      · rw [Bool.not_eq_true] at hinsert
        refine wp_mono (wp_and (op.wp_run h' hkey)
          (op.wp_run_empty ω.toIndexParams hempty hinsert)) ?_
        rintro r t' ⟨⟨hr, ht', -⟩, hheader⟩
        refine ⟨hr, ?_⟩
        simp only [Recorded, notedSpec, hinsert, Bool.or_false, Bool.false_eq_true, if_false]
        refine ⟨ht'.mono False.elim, fun k => ?_, by rw [hheader, hnone]⟩
        cases op with
        | insert key value => cases hinsert
        | remove key =>
            simp only [IndexOp.spec]
            rw [Function.update_eq_self_iff.mpr (hm key).symm, hm]
        | getValue key result transaction => exact hm k

/-- The record names the root after every call from the first insertion
on, in exactly those runs in which no key is inserted into a tree that
has been emptied. -/
theorem root_recorded_iff (params : IndexParams K) (S : Set K)
    (hcmp : StrictTotalOrderOn params.comparator S) (hname : params.indexName.length < 32)
    (header : HeaderPage) (hnew : header.recorded params.indexName = none)
    (hroom : header.getRecordCount < HeaderPage.capacity) (next : PageId) (hnext : 1 ≤ next)
    (ops : List (IndexOp K V)) (hkeys : ∀ op ∈ ops, op.key ∈ S) :
    (∀ pre, pre <+: ops → pre.any IndexOp.isInsert = true →
      ∃ rs t, runAll (IndexOp.run params) pre (BPlusTree.empty header next) = .ok (rs, t) ∧
        BPlusTree.RootRecorded params t) ↔
    ∀ pre op post, ops = pre ++ op :: post → op.isInsert = true →
      pre.any IndexOp.isInsert = true →
        ∃ k, (specAll IndexOp.spec pre fun _ => none).2 k ≠ none := by
  obtain ⟨B, hB, hB', ω, rfl, rfl⟩ := exists_orderedIndex params hcmp hname
  have hstart := BPlusTree.represents_empty (V := V) ω hnext fun _ => hroom
  constructor
  · intro h pre op post hops hinsert hpre
    by_contra hnone
    push Not at hnone
    have hkeys' : ∀ op ∈ pre, op.key ∈ ω.keys := fun op hop => hkeys op (by simp [hops, hop])
    obtain ⟨rs, t, hrun, -, ht⟩ := (IndexOp.refines ω).run hstart
      (admissible_of_forall (fun op hop _ => hkeys' op hop) _)
    obtain ⟨rs', t', hrun', hrec⟩ := h pre ⟨op :: post, hops.symm⟩ hpre
    cases hrun.symm.trans hrun'
    have hempty := ht.root_invalid_iff.mpr hnone
    -- the record says that there is no root, and goes on saying so
    cases op with
    | remove key => cases hinsert
    | getValue key result transaction => cases hinsert
    | insert key value =>
        have hkey : key ∈ ω.keys := hkeys (.insert key value) (by simp [hops])
        obtain ⟨b, t₁, hinsert', hpos, hrec'⟩ :=
          BPlusTree.wp_insert_empty ht hempty hkey value
        obtain ⟨rs₂, t₂, hrun₂, hrec₂⟩ := h (pre ++ [.insert key value])
          ⟨post, by simp [hops]⟩ (by simp [IndexOp.isInsert])
        have hrun₁ : runAll (IndexOp.run ω.toIndexParams) (pre ++ [.insert key value])
            (BPlusTree.empty header next) = .ok (rs ++ [.inserted b], t₁) := by
          refine runAll_concat hrun ?_
          change ((BPlusTree.insert ω.toIndexParams key value true : TreeM K V Bool) t >>= _) = _
          rw [hinsert']
          rfl
        cases hrun₁.symm.trans hrun₂
        rw [BPlusTree.rootRecorded_iff] at hrec hrec₂
        rw [hrec, Option.getD_some, hempty] at hrec'
        rw [hrec', Option.some_inj] at hrec₂
        rw [← hrec₂] at hpos
        exact absurd hpos (by decide)
  · intro h pre hprefix hpre
    have hstart' : Recorded (V := V) ω (BPlusTree.empty header next) (fun _ => none, false) := by
      refine ⟨hstart, fun _ => rfl, hnew⟩
    have hok : Admissible (fun op s => op.key ∈ ω.keys ∧ NoRefill op s) notedSpec pre
        (fun _ => none, false) := by
      refine admissible_iff.mpr fun before op after heq => ?_
      obtain ⟨post, hpost⟩ := hprefix
      refine ⟨hkeys op (by simp [← hpost, heq]), fun hinsert hnoted => ?_⟩
      rw [specAll_notedSpec] at hnoted ⊢
      exact h before op (after ++ post) (by simp [← hpost, heq]) hinsert (by simpa using hnoted)
    obtain ⟨rs, t, hrun, -, ht⟩ := (IndexOp.refines_recorded ω).run hstart' hok
    refine ⟨rs, t, hrun, ?_⟩
    rw [specAll_notedSpec] at ht
    simp only [Recorded, Bool.false_or, hpre, if_true] at ht
    exact (BPlusTree.rootRecorded_iff ω t).mpr (ht.header.2 trivial)

end Runs

theorem root_recorded_integers :
    ∃ rs t, runAll (IndexOp.run integerIndex) [.insert 1 (10 : Nat), .insert 2 20, .remove 1]
        (BPlusTree.empty HeaderPage.init 1) = .ok (rs, t) ∧
      BPlusTree.RootRecorded integerIndex t := by
  refine (root_recorded_iff integerIndex Set.univ strictTotalOrderOn_sub (by decide)
    HeaderPage.init rfl (by decide) 1 (by decide) _ fun _ _ => Set.mem_univ _).mpr ?_ _
    (List.prefix_refl _) rfl
  intro pre op post hops hinsert hpre
  rcases pre with _ | ⟨a, _ | ⟨b, _ | ⟨c, pre⟩⟩⟩
  · cases hpre
  · cases hops
    exact ⟨1, by decide⟩
  · cases hops
    cases hinsert
  · simp at hops

/-- After a removal of the only key, the next one is not recorded. -/
theorem root_not_recorded :
    ∃ rs t, runAll (IndexOp.run integerIndex) [.insert 1 (10 : Nat), .remove 1, .insert 1 10]
        (BPlusTree.empty HeaderPage.init 1) = .ok (rs, t) ∧
      t.rootPageId = 2 ∧ t.headerPage.getRootId integerIndex.indexName = .ok (some (-1)) :=
  ⟨_, _, rfl, rfl, rfl⟩

end ScuDb
