import ScuDb.Index.Structure

/-!
Calls of `Insert` and `Remove` by several threads.

Both calls first ask whether the tree is empty and later, in another
critical section, go down from the root. The steps here are these two
parts; a schedule says whose step is next. Between them the tree may lose
its last key. Then `FindLeafPage` returns a null pointer, which both calls
dereference. As long as no call goes down in an empty tree, the calls of
any schedule do what they would do on a map.
-/

namespace ScuDb

open Foundations

variable {T K V B : Type}

/-- A call that writes. -/
inductive TreeCall (K V : Type)
  | insert (key : K) (value : V)
  | remove (key : K)

/-- What a thread sees of a step: that it has to go on, or what its call
returns. -/
inductive CallResult
  | waiting
  | inserted (success : Bool)
  | removed
  deriving DecidableEq

/-- The step a thread makes: it starts a call, or goes down the tree for
the call it has started. -/
inductive TreeStep (T K V : Type)
  | start (thread : T) (call : TreeCall K V)
  | descend (thread : T)

/-- A tree and the calls that have found it not empty. -/
structure ConcurrentTree (T K V : Type) where
  tree : BPlusTree K V
  pending : T → Option (TreeCall K V)

namespace BPlusTree

variable (params : IndexParams K)

/-! ### The two parts of a call -/

/-- The first critical section of `Insert`; `none` is a tree that is not
empty. -/
def insertTest (key : K) (value : V) : TreeM K V (Option Bool) := do
  lockRootPageId true
  let rootPageId ← getRootPageId
  if rootPageId = invalidPageId then do
    startNewTree params key value
    tryUnlockRootPageId true
    pure (some true)
  else do
    tryUnlockRootPageId true
    pure none

theorem insert_eq [Inhabited K] (key : K) (value : V) (transaction : Bool) :
    insert params key value transaction = (do
      match ← insertTest params key value with
      | some success => pure success
      | none => insertIntoLeaf params key value transaction) := by
  simp only [insert, insertTest, bind_assoc]
  congr 1
  funext _
  congr 1
  funext rootPageId
  split
  · simp
  · simp

/-- `Remove` after its test. -/
def removeFromLeaf (key : K) (transaction : Bool) : TreeM K V Unit := do
  match ← findLeafPage params key false .delete transaction with
  | none => throw .noSuchPage
  | some id => do
      let leaf ← leafAt id
      let leaf := leaf.removeAndDeleteRecord params.comparator key
      writePage id (.leaf leaf)
      (if leaf.array.length < (TreePage.leaf leaf).getMinSize then do
        let t ← get
        let _ ← coalesceOrRedistribute params transaction t.nextPageId.toNat id
        pure ()
      else pure ())
      freePagesInTransaction true transaction (-1)

theorem remove_eq (key : K) (transaction : Bool) :
    remove params key transaction = (do
      let rootPageId ← getRootPageId
      if rootPageId = invalidPageId then pure ()
      else removeFromLeaf params key transaction : TreeM K V Unit) := rfl

end BPlusTree

namespace TreeCall

def key : TreeCall K V → K
  | .insert key _ => key
  | .remove key => key

variable (params : IndexParams K)

/-- The part of a call up to its test, and what it returns if it ends there. -/
def test : TreeCall K V → TreeM K V (Option CallResult)
  | .insert key value => do
      let success ← BPlusTree.insertTest params key value
      pure (success.map .inserted)
  | .remove _ => do
      let rootPageId ← BPlusTree.getRootPageId
      pure (if rootPageId = invalidPageId then some .removed else none)

/-- The part of a call from the descent on. -/
def descend [Inhabited K] : TreeCall K V → TreeM K V CallResult
  | .insert key value => do
      let success ← BPlusTree.insertIntoLeaf params key value true
      pure (.inserted success)
  | .remove key => do
      BPlusTree.removeFromLeaf params key true
      pure .removed

/-- What the call does to a map. -/
def perform [DecidableEq K] : TreeCall K V → (K → Option V) → CallResult × (K → Option V)
  | .insert key value, m =>
      (.inserted (m key).isNone, if m key = none then Function.update m key (some value) else m)
  | .remove key, m => (.removed, Function.update m key none)

end TreeCall

/-! ### Schedules -/

namespace ConcurrentTree

/-- A step on the tree, which leaves the calls as they are. -/
def onTree {α : Type} (m : TreeM K V α) : Program Fault (ConcurrentTree T K V) α := fun s =>
  match m s.tree with
  | .ok (a, t) => .ok (a, { s with tree := t })
  | .error e => .error e

@[simp] theorem wp_onTree {α : Type} {m : TreeM K V α} {Q : α → ConcurrentTree T K V → Prop}
    {s : ConcurrentTree T K V} :
    wp (onTree m) Q s ↔ wp m (fun a t => Q a { s with tree := t }) s.tree := by
  constructor
  · rintro ⟨a, s', hrun, hQ⟩
    rw [onTree] at hrun
    split at hrun
    case h_1 b t hm =>
      cases hrun
      exact ⟨a, t, hm, hQ⟩
    case h_2 => cases hrun
  · rintro ⟨a, t, hm, hQ⟩
    exact ⟨a, { s with tree := t }, by rw [onTree, hm], hQ⟩

theorem wlp_onTree {α : Type} {m : TreeM K V α} {Q : α → ConcurrentTree T K V → Prop}
    {s : ConcurrentTree T K V} :
    wlp (onTree m) Q s ↔ wlp m (fun a t => Q a { s with tree := t }) s.tree := by
  constructor
  · intro h a t hrun
    exact h a _ (by rw [onTree, hrun])
  · intro h a s' hrun
    rw [onTree] at hrun
    split at hrun
    case h_1 b t hm =>
      cases hrun
      exact h _ _ hm
    case h_2 => cases hrun

variable [DecidableEq T]

def setPending (thread : T) (call : Option (TreeCall K V)) :
    Program Fault (ConcurrentTree T K V) Unit :=
  modify fun s => { s with pending := Function.update s.pending thread call }

end ConcurrentTree

/-- The threads of a map, as those of a `ConcurrentTree`. -/
structure ConcurrentMap (T K V : Type) where
  map : K → Option V
  pending : T → Option (TreeCall K V)

namespace ConcurrentMap

/-- No key, and no call. -/
def empty : ConcurrentMap T K V := ⟨fun _ => none, fun _ => none⟩

end ConcurrentMap

namespace TreeStep

variable [DecidableEq T]

/-- What the step does to the tree. A thread that goes down has a call. -/
def run [Inhabited K] (params : IndexParams K) :
    TreeStep T K V → Program Fault (ConcurrentTree T K V) CallResult
  | .start thread call => do
      match ← ConcurrentTree.onTree (call.test params) with
      | some r => pure r
      | none => do
          ConcurrentTree.setPending thread (some call)
          pure .waiting
  | .descend thread => do
      let s ← get
      match s.pending thread with
      | none => throw .assertFailed
      | some call => do
          let r ← ConcurrentTree.onTree (call.descend params)
          ConcurrentTree.setPending thread none
          pure r

theorem descend_ok [Inhabited K] {params : IndexParams K} {thread : T}
    {s s' : ConcurrentTree T K V} {r : CallResult}
    (hrun : run params (.descend thread) s = .ok (r, s')) :
    ∃ call t, s.pending thread = some call ∧ call.descend params s.tree = .ok (r, t) ∧
      s' = ⟨t, Function.update s.pending thread none⟩ := by
  rw [run] at hrun
  obtain ⟨_, _, hget, hrun⟩ := bind_ok hrun
  cases hget
  cases hcall : s.pending thread with
  | none =>
      rw [hcall] at hrun
      cases hrun
  | some call =>
      rw [hcall] at hrun
      have hend : wlp (ConcurrentTree.onTree (call.descend params) >>= fun r => do
            ConcurrentTree.setPending thread none
            pure r) (fun r s' => ∃ t, call.descend params s.tree = .ok (r, t) ∧
          s' = ⟨t, Function.update s.pending thread none⟩) s := by
        rw [wlp_bind, ConcurrentTree.wlp_onTree]
        intro r t hdescend
        simp only [ConcurrentTree.setPending, wlp_bind, wlp_modify, wlp_pure]
        exact ⟨t, hdescend, rfl⟩
      obtain ⟨t, hdescend, hs'⟩ := hend r s' hrun
      exact ⟨call, t, rfl, hdescend, hs'⟩

open Classical in
/-- What the step does to a map: a call that finds it empty ends at once,
any other takes effect when it goes down. -/
noncomputable def spec [DecidableEq K] :
    TreeStep T K V → ConcurrentMap T K V → CallResult × ConcurrentMap T K V
  | .start thread call, s =>
      if ∀ k, s.map k = none then ((call.perform s.map).1, ⟨(call.perform s.map).2, s.pending⟩)
      else (.waiting, ⟨s.map, Function.update s.pending thread (some call)⟩)
  | .descend thread, s =>
      match s.pending thread with
      | none => (.waiting, s)
      | some call =>
          ((call.perform s.map).1,
            ⟨(call.perform s.map).2, Function.update s.pending thread none⟩)

/-- A thread makes one call at a time. -/
def May (S : Set K) : TreeStep T K V → ConcurrentMap T K V → Prop
  | .start thread call, s => s.pending thread = none ∧ call.key ∈ S
  | .descend thread, s => s.pending thread ≠ none

/-- A thread that goes down finds a key. -/
def Grounded : TreeStep T K V → ConcurrentMap T K V → Prop
  | .start _ _, _ => True
  | .descend _, s => ∃ k, s.map k ≠ none

end TreeStep

/-! ### Refinement -/

section Refinement

variable [LinearOrder B] [BoundedOrder B] {ω : OrderedIndex K B} {m : K → Option V}
  {t : BPlusTree K V} {call : TreeCall K V}

theorem BPlusTree.Represents.empty_iff {R : Prop} (h : BPlusTree.Represents ω R m t) :
    t.rootPageId = invalidPageId ↔ ∀ k, m k = none := by
  rcases h.tree with ⟨hempty, hm⟩ | ⟨G, H, hs⟩
  · exact ⟨fun _ => hm, fun _ => hempty⟩
  · constructor
    · intro hempty
      have hpos := hs.shape.positive hs.shape.top
      rw [hempty] at hpos
      exact absurd hpos (by decide)
    · intro hm
      obtain ⟨k, hk⟩ := hs.exists_key
      exact absurd (hm k) hk

theorem BPlusTree.Represents.of_locks {R : Prop} (h : BPlusTree.Represents ω R m t) (count : Nat)
    (calls : List PoolCall) :
    BPlusTree.Represents ω R m { t with rootLockedCnt := count, calls := calls } := by
  refine ⟨h.pageSet, h.deletedPageSet, h.nextPageId, h.header, ?_⟩
  exact h.tree.imp_right fun hs => hs.frame rfl rfl rfl rfl h.deletedPageSet

namespace TreeCall

variable [DecidableEq K]

/-- A call whose test finds the map empty is over, any other has changed
nothing yet. -/
theorem wp_test (h : BPlusTree.Represents ω False m t) (hkey : call.key ∈ ω.keys) :
    wp (call.test ω.toIndexParams) (fun r t' =>
      ((∀ k, m k = none) → r = some (call.perform m).1 ∧
        BPlusTree.Represents ω False (call.perform m).2 t') ∧
      (¬(∀ k, m k = none) → r = none ∧ BPlusTree.Represents ω False m t')) t := by
  rw [← h.empty_iff]
  cases call with
  | insert key value =>
      simp only [test, BPlusTree.insertTest, BPlusTree.lockRootPageId, wp_bind, wp_modify,
        BPlusTree.wp_getRootPageId, wp_ite]
      constructor
      · intro hempty
        have hnone : m key = none := h.empty_iff.mp hempty key
        have h' := h.of_locks (t.rootLockedCnt + 1) (.lockRoot true :: t.calls)
        refine BPlusTree.wp_startNewTree h' hempty hkey value fun t' ht' _ _ => ?_
        refine BPlusTree.wp_tryUnlockRootPageId fun count calls => ?_
        simp only [wp_pure]
        refine ⟨fun _ => ⟨?_, ?_⟩, fun hnot => absurd hempty hnot⟩
        · simp [perform, hnone]
        · simp only [perform, hnone, if_true]
          exact (ht'.of_locks count calls).mono False.elim
      · intro hroot
        refine BPlusTree.wp_tryUnlockRootPageId fun count calls => ?_
        simp only [wp_pure]
        exact ⟨fun hempty => absurd hempty hroot, fun _ => ⟨rfl, h.of_locks count calls⟩⟩
  | remove key =>
      simp only [test, wp_bind, BPlusTree.wp_getRootPageId, wp_pure]
      refine ⟨fun hempty => ⟨by rw [if_pos hempty]; rfl, ?_⟩, fun hroot => ⟨if_neg hroot, h⟩⟩
      have hsame : Function.update m key none = m := by
        rw [Function.update_eq_self_iff, h.empty_iff.mp hempty]
      show BPlusTree.Represents ω False (Function.update m key none) t
      rw [hsame]
      exact h

/-- What a call does in a tree that is not empty. -/
theorem wp_descend [Inhabited K] (h : BPlusTree.Represents ω False m t)
    (hkey : call.key ∈ ω.keys) (hroot : t.rootPageId ≠ invalidPageId) :
    wp (call.descend ω.toIndexParams) (fun r t' => r = (call.perform m).1 ∧
      BPlusTree.Represents ω False (call.perform m).2 t') t := by
  cases call with
  | insert key value =>
      have hs : BPlusTree.Stands ω False m t := h.tree.resolve_left fun hempty => hroot hempty.1
      rw [descend, wp_bind]
      apply wp_mono (BPlusTree.wp_insertIntoLeaf hs h.pageSet h.deletedPageSet hkey value)
      rintro success t' ⟨rfl, ht', -⟩
      exact wp_pure.mpr ⟨rfl, ht'⟩
  | remove key =>
      have hremove := BPlusTree.wp_remove h hkey
      rw [BPlusTree.remove_eq, wp_bind, BPlusTree.wp_getRootPageId, if_neg hroot] at hremove
      rw [descend, wp_bind]
      apply wp_mono hremove
      exact fun _ t' ht' => wp_pure.mpr ⟨rfl, ht'.1⟩

omit [LinearOrder B] [BoundedOrder B] [DecidableEq K] in
theorem findLeafPage_of_empty (params : IndexParams K) (key : K) (op : OpType)
    (hempty : t.rootPageId = invalidPageId) :
    ∃ t', (BPlusTree.findLeafPage params key false op true : TreeM K V (Option PageId)) t =
      .ok (none, t') := by
  have hwp : wp (BPlusTree.findLeafPage params key false op true) (fun r _ => r = none) t := by
    simp only [BPlusTree.findLeafPage, BPlusTree.lockRootPageId, wp_bind, wp_modify,
      BPlusTree.wp_getRootPageId, if_pos hempty]
    exact BPlusTree.wp_tryUnlockRootPageId fun _ _ => wp_pure.mpr rfl
  obtain ⟨_, t', hrun, rfl⟩ := hwp
  exact ⟨t', hrun⟩

omit [LinearOrder B] [BoundedOrder B] [DecidableEq K] in
theorem descend_of_empty [Inhabited K] (params : IndexParams K)
    (hempty : t.rootPageId = invalidPageId) :
    ∃ e, call.descend params t = .error e := by
  cases call with
  | insert key value =>
      obtain ⟨t', hfind⟩ := findLeafPage_of_empty params key .insert hempty
      refine ⟨.noSuchPage, ?_⟩
      show (((BPlusTree.findLeafPage params key false .insert true : TreeM K V _) t >>=
        fun p => _) >>= _) = _
      rw [hfind]
      rfl
  | remove key =>
      obtain ⟨t', hfind⟩ := findLeafPage_of_empty params key .delete hempty
      refine ⟨.noSuchPage, ?_⟩
      show (((BPlusTree.findLeafPage params key false .delete true : TreeM K V _) t >>=
        fun p => _) >>= _) = _
      rw [hfind]
      rfl

end TreeCall

/-- The tree holds the map, and the threads make the same calls. -/
structure ConcurrentTree.Follows (ω : OrderedIndex K B) (s : ConcurrentTree T K V)
    (c : ConcurrentMap T K V) : Prop where
  tree : BPlusTree.Represents ω False c.map s.tree
  pending : s.pending = c.pending
  keys : ∀ thread call, c.pending thread = some call → call.key ∈ ω.keys

variable [DecidableEq T] [DecidableEq K]

omit [DecidableEq K] in
theorem ConcurrentTree.Follows.update {s : ConcurrentTree T K V} {c : ConcurrentMap T K V}
    (h : ConcurrentTree.Follows ω s c) (hm : BPlusTree.Represents ω False m t) (thread : T)
    {call : Option (TreeCall K V)} (hcall : ∀ x, call = some x → x.key ∈ ω.keys) :
    ConcurrentTree.Follows ω ⟨t, Function.update s.pending thread call⟩
      ⟨m, Function.update c.pending thread call⟩ := by
  refine ⟨hm, by rw [h.pending], ?_⟩
  intro thread' x hx
  change Function.update c.pending thread call thread' = some x at hx
  by_cases hthread : thread' = thread
  · rw [hthread, Function.update_self] at hx
    exact hcall x hx
  · rw [Function.update_of_ne hthread] at hx
    exact h.keys thread' x hx

theorem TreeStep.refines [Inhabited K] (ω : OrderedIndex K B) :
    Refines (ConcurrentTree.Follows ω)
      (fun (step : TreeStep T K V) c => step.May ω.keys c ∧ step.Grounded c)
      (TreeStep.run ω.toIndexParams) TreeStep.spec := by
  rintro step s c hR ⟨hmay, hgrounded⟩
  cases step with
  | start thread call =>
      obtain ⟨-, hkey⟩ := hmay
      rw [TreeStep.run, wp_bind, ConcurrentTree.wp_onTree, TreeStep.spec]
      apply wp_mono (TreeCall.wp_test hR.tree hkey)
      intro r t' ht'
      by_cases hempty : ∀ k, c.map k = none
      · obtain ⟨rfl, hrep⟩ := ht'.1 hempty
        rw [if_pos hempty]
        exact wp_pure.mpr ⟨rfl, hrep, hR.pending, hR.keys⟩
      · obtain ⟨rfl, hrep⟩ := ht'.2 hempty
        rw [if_neg hempty]
        simp only [ConcurrentTree.setPending, wp_bind, wp_modify, wp_pure]
        refine ⟨trivial, hR.update hrep thread ?_⟩
        rintro x ⟨⟩
        exact hkey
  | descend thread =>
      obtain ⟨call, hcall⟩ := Option.ne_none_iff_exists'.mp hmay
      obtain ⟨k, hk⟩ := hgrounded
      have hroot : s.tree.rootPageId ≠ invalidPageId := by
        intro hempty
        exact hk (hR.tree.empty_iff.mp hempty k)
      rw [TreeStep.run, TreeStep.spec, wp_bind, wp_get, hR.pending, hcall]
      simp only [wp_bind, ConcurrentTree.wp_onTree, ConcurrentTree.setPending, wp_modify, wp_pure]
      apply wp_mono (TreeCall.wp_descend hR.tree (hR.keys thread call hcall) hroot)
      rintro r t' ⟨rfl, hrep⟩
      refine ⟨rfl, hR.update hrep thread ?_⟩
      rintro x ⟨⟩

omit [DecidableEq K] in
/-- A thread that goes down in an empty tree faults. -/
theorem TreeStep.run_of_not_grounded [Inhabited K] {step : TreeStep T K V}
    {s : ConcurrentTree T K V} {c : ConcurrentMap T K V} (hR : ConcurrentTree.Follows ω s c)
    (hmay : step.May ω.keys c) (hnot : ¬step.Grounded c) :
    ∃ e, step.run ω.toIndexParams s = .error e := by
  cases step with
  | start thread call => exact absurd trivial hnot
  | descend thread =>
      obtain ⟨call, hcall⟩ := Option.ne_none_iff_exists'.mp hmay
      have hm : ∀ k, c.map k = none := by
        intro k
        apply Classical.byContradiction
        exact fun hk => hnot ⟨k, hk⟩
      obtain ⟨e, he⟩ := call.descend_of_empty ω.toIndexParams (hR.tree.empty_iff.mpr hm)
      have honTree : ConcurrentTree.onTree (call.descend ω.toIndexParams) s = .error e := by
        rw [ConcurrentTree.onTree, he]
      have hrun : TreeStep.run ω.toIndexParams (.descend thread) s =
          (ConcurrentTree.onTree (call.descend ω.toIndexParams) s >>= fun p =>
            .ok (p.1, { p.2 with pending := Function.update p.2.pending thread none })) := by
        show (match s.pending thread with | none => _ | some call => _ : Program _ _ _) s = _
        rw [hR.pending, hcall]
        rfl
      rw [hrun, honTree]
      exact ⟨e, rfl⟩

end Refinement

section Runs

variable [DecidableEq T] [DecidableEq K] [Inhabited K] [Inhabited V]

/-- `GetValue` finds what the map has. -/
def ConcurrentTree.Answers (params : IndexParams K) (S : Set K) (s : ConcurrentTree T K V)
    (m : K → Option V) : Prop :=
  ∀ key ∈ S, ∃ t, (IndexOp.getValue key [] false).run params s.tree =
    .ok (.found (m key).isSome (m key), t)

/-- Calls of any number of threads do what they do on a map, whatever the
order of their steps, exactly if every thread that goes down the tree finds
a key in it. -/
theorem concurrent_calls_iff (params : IndexParams K) (S : Set K)
    (hcmp : StrictTotalOrderOn params.comparator S) (hname : params.indexName.length < 32)
    (header : HeaderPage) (hroom : header.recorded params.indexName = none →
      header.getRecordCount < HeaderPage.capacity)
    (next : PageId) (hnext : 1 ≤ next) (steps : List (TreeStep T K V))
    (hmay : Admissible (TreeStep.May S) TreeStep.spec steps .empty) :
    (∃ rs s, runAll (TreeStep.run params) steps ⟨.empty header next, fun _ => none⟩ =
        .ok (rs, s) ∧
      rs = (specAll TreeStep.spec steps .empty).1 ∧
      s.Answers params S (specAll TreeStep.spec steps .empty).2.map) ↔
      Admissible TreeStep.Grounded TreeStep.spec steps .empty := by
  obtain ⟨B, hB, hB', ω, rfl, rfl⟩ := exists_orderedIndex params hcmp hname
  have hstart : ConcurrentTree.Follows (T := T) (V := V) ω
      ⟨.empty header next, fun _ => none⟩ .empty := by
    refine ⟨BPlusTree.represents_empty ω hnext hroom, rfl, ?_⟩
    rintro thread call ⟨⟩
  constructor
  · rintro ⟨rs, s, hrun, -⟩
    apply (TreeStep.refines ω).admissible_of_run _ hstart hmay hrun
    exact fun step s c hR hstep hnot => step.run_of_not_grounded hR hstep hnot
  · intro hgrounded
    obtain ⟨rs, s, hrun, hrs, hR⟩ := (TreeStep.refines ω).run hstart (hmay.and hgrounded)
    refine ⟨rs, s, hrun, hrs, ?_⟩
    intro key hkey
    obtain ⟨r, t, hget, rfl, -⟩ := (IndexOp.getValue key [] false).wp_run hR.tree hkey
    exact ⟨t, hget⟩

end Runs

/-- A second key is inserted by another thread. -/
def secondKey : List (TreeStep Nat Int Nat) :=
  [.start 1 (.insert 1 10), .start 2 (.insert 2 20), .descend 2]

theorem concurrent_calls_second_key :
    (∃ rs s, runAll (TreeStep.run integerIndex) secondKey
        ⟨.empty HeaderPage.init 1, fun _ => none⟩ = .ok (rs, s) ∧
      rs = (specAll TreeStep.spec secondKey .empty).1 ∧
      s.Answers integerIndex Set.univ (specAll TreeStep.spec secondKey .empty).2.map) ↔
      Admissible TreeStep.Grounded TreeStep.spec secondKey .empty := by
  apply concurrent_calls_iff integerIndex Set.univ strictTotalOrderOn_sub (by decide)
    HeaderPage.init (fun _ => by decide) 1 (by decide)
  simp [secondKey, Admissible, TreeStep.May, TreeStep.spec, ConcurrentMap.empty,
    TreeCall.perform, Function.update_apply]

/-- The last key is removed between the two parts of an insertion. -/
def lastKey : List (TreeStep Nat Int Nat) :=
  [.start 1 (.insert 1 10), .start 2 (.insert 2 20), .start 1 (.remove 1), .descend 1,
    .descend 2]

/-- The second insertion goes on with a null pointer. -/
theorem concurrent_calls_last_key :
    Admissible (TreeStep.May Set.univ) TreeStep.spec lastKey .empty ∧
      runAll (TreeStep.run integerIndex) lastKey ⟨.empty HeaderPage.init 1, fun _ => none⟩ =
        .error .noSuchPage := by
  constructor
  · simp [lastKey, Admissible, TreeStep.May, TreeStep.spec, ConcurrentMap.empty,
      TreeCall.perform, Function.update_apply]
  · rfl

end ScuDb
