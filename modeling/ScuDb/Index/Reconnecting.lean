import ScuDb.Index.StoredRuns

/-!
Connecting to a table again, the index part of `VtabConnect`.

A tree object is constructed with the root id that the header page has for
its name; the pages are those in the buffer pool. The new object goes on
where the old one was, provided that a key has been inserted before and
that none has been inserted into an emptied tree.
-/

namespace ScuDb

open Foundations

variable {K V : Type}

/-- `GetRootId` into a local variable, and `ConstructIndex`. Without a
record the variable stays uninitialised. -/
def BPlusTree.connect (params : IndexParams K) (uninitialised : PageId) : TreeM K V Unit := do
  record (.fetchPage headerPageId)
  let t ← get
  let rootId ← MonadExcept.ofExcept (t.headerPage.getRootId params.indexName)
  modify fun t => { t with rootPageId := rootId.getD uninitialised }
  unpinPage headerPageId false

/-- The same over the bytes of the header page. -/
def StoredTree.connect [Inhabited K] (fmt : TreeFormat K V) (uninitialised : PageId) :
    StoredM Unit := do
  fetchPage headerPageId
  let t ← get
  let header : HeaderBytes := t.pages headerPageId
  let rootId ← access (header.getRootId fmt.indexName)
  modify fun t => { t with rootPageId := rootId.getD uninitialised }
  unpinPage headerPageId false

/-- What happens to an index. -/
inductive SessionOp (K V : Type)
  | call (op : IndexOp K V)
  | connect (uninitialised : PageId)

namespace SessionOp

variable [Inhabited K] [Inhabited V]

def run (params : IndexParams K) : SessionOp K V → TreeM K V (Option (IndexResult V))
  | .call op => do
      let r ← op.run params
      pure (some r)
  | .connect uninitialised => do
      BPlusTree.connect params uninitialised
      pure none

def runStored (fmt : TreeFormat K V) : SessionOp K V → StoredM (Option (IndexResult V))
  | .call op => do
      let r ← op.runStored fmt
      pure (some r)
  | .connect uninitialised => do
      StoredTree.connect fmt uninitialised
      pure none

/-- What a finite map does, and whether there has been an insertion.
Connecting changes nothing. -/
def spec [DecidableEq K] (op : SessionOp K V) (s : (K → Option V) × Bool) :
    Option (IndexResult V) × (K → Option V) × Bool :=
  match op with
  | .call op => (some (notedSpec op s).1, (notedSpec op s).2)
  | .connect _ => (none, s)

/-- No key is inserted into an emptied tree, and a key has been inserted
before the table is connected again. -/
def Regular (S : Set K) (op : SessionOp K V) (s : (K → Option V) × Bool) : Prop :=
  match op with
  | .call op => op.key ∈ S ∧ NoRefill op s
  | .connect _ => s.2 = true

omit [Inhabited K] [Inhabited V] in
/-- As long as one key stays, calls and reconnections may come in any order. -/
theorem admissible_regular {S : Set K} [DecidableEq K] {ops : List (SessionOp K V)}
    {s : (K → Option V) × Bool} (key : K) (hkey : s.1 key ≠ none) (hnoted : s.2 = true)
    (hops : ∀ op, .call op ∈ ops → op.key ∈ S ∧ op ≠ .remove key) :
    Admissible (Regular S) spec ops s := by
  induction ops generalizing s with
  | nil => trivial
  | cons op ops ih =>
      have hrest : ∀ op, .call op ∈ ops → op.key ∈ S ∧ op ≠ .remove key := fun op hop =>
        hops op (List.mem_cons_of_mem _ hop)
      cases op with
      | connect uninitialised => exact ⟨hnoted, ih hkey hnoted hrest⟩
      | call op =>
          obtain ⟨hmem, hne⟩ := hops op List.mem_cons_self
          refine ⟨⟨hmem, fun _ _ => ⟨key, hkey⟩⟩, ih (notedSpec_keeps hkey hne) ?_ hrest⟩
          change (s.2 || op.isInsert) = true
          rw [hnoted, Bool.true_or]

/-- What is inserted can be stored, and a page id is four bytes. -/
def Storable (fmt : TreeFormat K V) : SessionOp K V → Prop
  | .call op => op.Storable fmt
  | .connect uninitialised => Codec.int32.Valid uninitialised

end SessionOp

section Standing

variable {B : Type} [LinearOrder B] [BoundedOrder B] {ω : OrderedIndex K B} {m : K → Option V}
  {t : BPlusTree K V}

/-- Where the record is right, the new object has the root of the old one. -/
theorem BPlusTree.Represents.wp_connect (h : Represents ω True m t) (uninitialised : PageId) :
    wp (connect ω.toIndexParams uninitialised) (fun _ t' => Represents ω True m t') t := by
  have hrecorded : t.headerPage.recorded ω.indexName = some t.rootPageId := h.header.2 trivial
  simp only [connect, wp_bind, wp_record, wp_get, wp_ofExcept, wp_modify, wp_unpinPage]
  refine ⟨some t.rootPageId, by rw [HeaderPage.getRootId_eq ω.name_short, hrecorded], ?_⟩
  exact ⟨h.pageSet, h.deletedPageSet, h.nextPageId, h.header,
    h.tree.imp_right fun hs => hs.frame rfl rfl rfl rfl h.deletedPageSet⟩

end Standing

/-! ### Runs -/

section Runs

variable [Inhabited K] [Inhabited V]

theorem SessionOp.refines [DecidableEq K] {B : Type} [LinearOrder B] [BoundedOrder B]
    (ω : OrderedIndex K B) :
    Refines (Recorded (V := V) ω) (SessionOp.Regular ω.keys) (SessionOp.run ω.toIndexParams)
      SessionOp.spec := by
  rintro op t ⟨m, b⟩ h hok
  cases op with
  | call op =>
      rw [SessionOp.run, wp_bind]
      refine wp_mono (IndexOp.refines_recorded ω op t (m, b) h hok) ?_
      rintro r t' ⟨rfl, ht'⟩
      exact wp_pure.mpr ⟨rfl, ht'⟩
  | connect uninitialised =>
      have hb : b = true := hok
      subst hb
      rw [SessionOp.run, wp_bind]
      refine wp_mono (BPlusTree.Represents.wp_connect h uninitialised) fun _ t' ht' => ?_
      exact wp_pure.mpr ⟨rfl, ht'⟩

/-- A recorded root id is four bytes of the header page. -/
theorem HeaderBytes.Lays.valid_recorded {p : HeaderBytes} {page : HeaderPage}
    (h : HeaderBytes.Lays p page) {name : RecordName} {rootId : PageId}
    (hroot : page.recorded name = some rootId) : Codec.int32.Valid rootId := by
  rcases page.findRecord_eq name with ⟨-, hnone⟩ | ⟨i, id, -, hget, hsome⟩
  · rw [hnone] at hroot
    cases hroot
  · rw [hsome, Option.some_inj] at hroot
    subst hroot
    have hbytes : p.getInt32 (4 + i * 36 + 32) = id := (h.record i _ hget).root
    rw [← hbytes]
    exact LeafBytes.valid_getInt32 p _

variable {fmt : TreeFormat K V} {base : PageId → PageBytes} {limit : PageId}

omit [Inhabited V] in
theorem StoredTree.connect_mirrors (hname : fmt.indexName.length < 32) {uninitialised : PageId}
    (hvalid : Codec.int32.Valid uninitialised) :
    Mirrors fmt base (fun _ _ _ => True) limit (StoredTree.connect fmt uninitialised)
      (BPlusTree.connect fmt.toIndexParams uninitialised) := by
  refine (record_mirrors (by rfl) fun _ => by rfl).bind fun _ _ _ _ _ => ?_
  refine .bind .get fun _ t b _ h => ?_
  have hstored := h.header.getRootId hname
  rw [HeaderBytes.cStr_of_no_nul fmt.noNul] at hstored
  simp only [hstored, HeaderPage.getRootId_eq hname, access_ok, pure_bind]
  refine .ofExcept_bind fun rootId hroot => ?_
  cases hroot
  refine (setRootPageId_mirrors ?_).bind fun _ _ _ _ _ => unpinPage_mirrors _
  -- without a record, the root is whatever the variable held
  cases hrecorded : t.headerPage.recorded fmt.indexName with
  | none => exact hvalid
  | some rootId => exact h.header.valid_recorded hrecorded

theorem SessionOp.runStored_mirrors (hname : fmt.indexName.length < 32) {op : SessionOp K V}
    (hop : op.Storable fmt) :
    Mirrors fmt base (fun _ r r' => r = r') limit (op.runStored fmt)
      (op.run fmt.toIndexParams) := by
  cases op with
  | call op =>
      refine (IndexOp.runStored_mirrors hop).bind fun _ _ _ _ h => .pure ?_
      rw [h]
  | connect uninitialised =>
      exact (StoredTree.connect_mirrors hname hop).bind fun _ _ _ _ _ => .pure rfl

/-- In a run in which no key is inserted into an emptied tree, connecting
again after the first insertion is not noticed: the calls over the bytes
are answered as one finite map answers them, as long as there are page
ids. -/
theorem reconnected_tree_refines_map [DecidableEq K] (fmt : TreeFormat K V) (S : Set K)
    (hcmp : StrictTotalOrderOn fmt.comparator S) (hname : fmt.indexName.length < 32)
    (header : HeaderPage) (hnew : header.recorded fmt.indexName = none)
    (hroom : header.getRecordCount < HeaderPage.capacity) (next : PageId) (hnext : 1 ≤ next)
    (pages : PageId → PageBytes) (hpages : HeaderBytes.Lays (pages headerPageId) header)
    (ops : List (SessionOp K V)) (hstorable : ∀ op ∈ ops, op.Storable fmt)
    (hregular : Admissible (SessionOp.Regular S) SessionOp.spec ops (fun _ => none, false)) :
    runAll (SessionOp.runStored fmt) ops (.construct invalidPageId pages next) =
      .error .noPageId ∨
    ∃ b, runAll (SessionOp.runStored fmt) ops (.construct invalidPageId pages next) =
      .ok ((specAll SessionOp.spec ops (fun _ => none, false)).1, b) := by
  obtain ⟨B, hB, hB', ω, hω, rfl⟩ := exists_orderedIndex fmt.toIndexParams hcmp hname
  have hrefines := SessionOp.refines (V := V) ω
  rw [← hω] at hnew
  rw [hω] at hrefines
  have hstart : Recorded (V := V) ω (BPlusTree.empty header next) (fun _ => none, false) :=
    ⟨BPlusTree.represents_empty ω hnext fun _ => hroom, fun _ => rfl, hnew⟩
  obtain ⟨rs, t, hrun, rfl, -⟩ := hrefines.run hstart hregular
  have hmirrors : Mirrors fmt pages (fun _ rs rs' => rs = rs') next
      (runAll (SessionOp.runStored fmt) ops) (runAll (SessionOp.run fmt.toIndexParams) ops) :=
    .runAll fun op hop _ => SessionOp.runStored_mirrors hname (hstorable op hop)
  rcases hmirrors _ _ (stores_construct fmt hnext hpages) _ t hrun with hstop | h
  · exact .inl hstop
  · obtain ⟨rs', b, -, hstored, -, -, rfl⟩ := h
    exact .inr ⟨b, hstored⟩

end Runs

theorem reconnected_tree_refines_map_integers :
    ∃ b, runAll (SessionOp.runStored integerFormat) (threeLeaves.map .call ++
        [.connect 7, .call (.insert 9 (2, 90)), .call (.remove 6), .connect 7,
          .call (.getValue 9 [] true)])
        (.construct invalidPageId (fun _ _ => 0) 1) =
      .ok (List.replicate 9 (some (.inserted true)) ++
        [some .removed, some .removed, some (.inserted true), some .removed, some .removed,
          none, some (.inserted true), some .removed, none,
          some (.found true (some (2, 90)))], b) := by
  refine (reconnected_tree_refines_map integerFormat Set.univ strictTotalOrderOn_sub (by decide)
    HeaderPage.init rfl (by decide) 1 (by decide) _ lays_zeros _ ?_ ?_).resolve_left
    (not_noPageId (by decide +kernel))
  · simp [threeLeaves, SessionOp.Storable, IndexOp.Storable, integerFormat, Codec.int32,
      Codec.padded, Codec.prod]
  · refine ⟨⟨Set.mem_univ _, fun _ hnoted => by cases hnoted⟩, ?_⟩
    -- the key 1 is never removed
    refine SessionOp.admissible_regular 1 (by decide) rfl fun op hop => ?_
    refine ⟨Set.mem_univ _, ?_⟩
    rintro rfl
    simp at hop

end ScuDb
