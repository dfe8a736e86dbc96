import ScuDb.Index.BPlusTree

/-!
Rules for the steps the tree operations are made of.

Each rule says which fields of the state a step changes and to what. The
record of calls and the lock count are read by nothing that matters
here, so a rule leaves them open: its premise has to hold for whatever
they have become.
-/

namespace ScuDb

open Foundations

variable {K V : Type}

namespace BPlusTree

variable {t : BPlusTree K V} {id : PageId} {page : TreePage K V}

/-! ### Pages -/

theorem wp_record {call : PoolCall} {Q : Unit → BPlusTree K V → Prop} :
    wp (record call : TreeM K V Unit) Q t ↔ Q () { t with calls := call :: t.calls } := by
  simp [record]

theorem wp_unpinPage {isDirty : Bool} {Q : Unit → BPlusTree K V → Prop} :
    wp (unpinPage id isDirty) Q t ↔ Q () { t with calls := .unpinPage id isDirty :: t.calls } :=
  wp_record

theorem wp_fetchHeaderPage {Q : Unit → BPlusTree K V → Prop} :
    wp fetchHeaderPage Q t ↔ Q () { t with calls := .fetchPage headerPageId :: t.calls } :=
  wp_record

theorem wp_getRootPageId {Q : PageId → BPlusTree K V → Prop} :
    wp getRootPageId Q t ↔ Q t.rootPageId t := by
  simp [getRootPageId]

theorem wp_setRootPageId {Q : Unit → BPlusTree K V → Prop} :
    wp (setRootPageId id) Q t ↔ Q () { t with rootPageId := id } := by
  simp [setRootPageId]

theorem wp_deletePage {Q : Unit → BPlusTree K V → Prop} :
    wp (deletePage id) Q t ↔
      Q () { t with pages := Function.update t.pages id none,
                    calls := .deletePage id :: t.calls } := by
  simp [deletePage]

theorem wp_asserting {m : TreeM K V Unit} {Q : Unit → BPlusTree K V → Prop} :
    wp (asserting m) Q t ↔ wp m Q t := Iff.rfl

theorem wp_readPage {Q : TreePage K V → BPlusTree K V → Prop} :
    wp (readPage id) Q t ↔ ∃ page, t.pages id = some page ∧ Q page t := by
  simp only [readPage, pageAt, wp_bind, wp_get]
  cases t.pages id with
  | none => simp
  | some page => simp

theorem wp_fetchPage {Q : Unit → BPlusTree K V → Prop} :
    wp (fetchPage id) Q t ↔
      ∃ page, t.pages id = some page ∧ Q () { t with calls := .fetchPage id :: t.calls } := by
  change wp (readPage id >>= fun _ => record (.fetchPage id)) Q t ↔ _
  simp only [wp_bind, wp_readPage, wp_record]

theorem wp_leafAt {Q : LeafPage K V → BPlusTree K V → Prop} :
    wp (leafAt id) Q t ↔ ∃ leaf, t.pages id = some (.leaf leaf) ∧ Q leaf t := by
  simp only [leafAt, wp_bind, wp_readPage]
  cases t.pages id with
  | none => simp
  | some page => cases page <;> simp

theorem wp_internalAt {Q : InternalPage K → BPlusTree K V → Prop} :
    wp (internalAt id) Q t ↔ ∃ q, t.pages id = some (.internal q) ∧ Q q t := by
  simp only [internalAt, wp_bind, wp_readPage]
  cases t.pages id with
  | none => simp
  | some page => cases page <;> simp

theorem wp_writePage {Q : Unit → BPlusTree K V → Prop} :
    wp (writePage id page) Q t ↔
      Q () { t with pages := Function.update t.pages id (some page),
                    calls := .store id :: t.calls } := by
  simp [writePage, storeAt]

theorem wp_newPage {Q : PageId → BPlusTree K V → Prop} :
    wp newPage Q t ↔
      Q t.nextPageId { t with nextPageId := t.nextPageId + 1,
                              calls := .newPage t.nextPageId :: t.calls } := by
  simp [newPage]

theorem wp_setParentPageId {parent : PageId} {Q : Unit → BPlusTree K V → Prop} :
    wp (setParentPageId id parent) Q t ↔
      ∃ page, t.pages id = some page ∧
        Q () { t with pages := Function.update t.pages id (some (page.setParentPageId parent)),
                      calls := .store id :: t.calls } := by
  change wp (readPage id >>= fun page => writePage id (page.setParentPageId parent)) Q t ↔ _
  simp only [wp_bind, wp_readPage, wp_writePage]

theorem wp_addIntoPageSet {transaction : Bool} (htx : transaction = true)
    {Q : Unit → BPlusTree K V → Prop} :
    wp (addIntoPageSet transaction id : TreeM K V Unit) Q t ↔
      Q () { t with pageSet := t.pageSet ++ [id] } := by
  simp [addIntoPageSet, htx]

theorem wp_addIntoDeletedPageSet {transaction : Bool} (htx : transaction = true)
    {Q : Unit → BPlusTree K V → Prop} :
    wp (addIntoDeletedPageSet transaction id : TreeM K V Unit) Q t ↔
      Q () { t with deletedPageSet := id :: t.deletedPageSet } := by
  simp [addIntoDeletedPageSet, htx]

/-! The same steps in a run of which it is only known that it ends. -/

theorem wlp_record {call : PoolCall} {Q : Unit → BPlusTree K V → Prop} :
    wlp (record call : TreeM K V Unit) Q t ↔ Q () { t with calls := call :: t.calls } := by
  simp [record]

theorem wlp_unpinPage {isDirty : Bool} {Q : Unit → BPlusTree K V → Prop} :
    wlp (unpinPage id isDirty) Q t ↔ Q () { t with calls := .unpinPage id isDirty :: t.calls } :=
  wlp_record

theorem wlp_fetchHeaderPage {Q : Unit → BPlusTree K V → Prop} :
    wlp fetchHeaderPage Q t ↔ Q () { t with calls := .fetchPage headerPageId :: t.calls } :=
  wlp_record

theorem wlp_getRootPageId {Q : PageId → BPlusTree K V → Prop} :
    wlp getRootPageId Q t ↔ Q t.rootPageId t := by
  simp [getRootPageId]

theorem wlp_setRootPageId {Q : Unit → BPlusTree K V → Prop} :
    wlp (setRootPageId id) Q t ↔ Q () { t with rootPageId := id } := by
  simp [setRootPageId]

theorem wlp_deletePage {Q : Unit → BPlusTree K V → Prop} :
    wlp (deletePage id) Q t ↔
      Q () { t with pages := Function.update t.pages id none,
                    calls := .deletePage id :: t.calls } := by
  simp [deletePage]

theorem wlp_asserting {m : TreeM K V Unit} {Q : Unit → BPlusTree K V → Prop} :
    wlp (asserting m) Q t ↔ wlp m Q t := Iff.rfl

theorem wlp_readPage {Q : TreePage K V → BPlusTree K V → Prop} :
    wlp (readPage id) Q t ↔ ∀ page, t.pages id = some page → Q page t := by
  simp only [readPage, pageAt, wlp_bind, wlp_get]
  cases t.pages id with
  | none => simp
  | some page => simp

theorem wlp_fetchPage {Q : Unit → BPlusTree K V → Prop} :
    wlp (fetchPage id) Q t ↔ ∀ page, t.pages id = some page →
      Q () { t with calls := .fetchPage id :: t.calls } := by
  change wlp (readPage id >>= fun _ => record (.fetchPage id)) Q t ↔ _
  simp only [wlp_bind, wlp_readPage, wlp_record]

theorem wlp_leafAt {Q : LeafPage K V → BPlusTree K V → Prop} :
    wlp (leafAt id) Q t ↔ ∀ leaf, t.pages id = some (.leaf leaf) → Q leaf t := by
  simp only [leafAt, wlp_bind, wlp_readPage]
  cases t.pages id with
  | none => simp
  | some page => cases page <;> simp

theorem wlp_internalAt {Q : InternalPage K → BPlusTree K V → Prop} :
    wlp (internalAt id) Q t ↔ ∀ q, t.pages id = some (.internal q) → Q q t := by
  simp only [internalAt, wlp_bind, wlp_readPage]
  cases t.pages id with
  | none => simp
  | some page => cases page <;> simp

theorem wlp_writePage {Q : Unit → BPlusTree K V → Prop} :
    wlp (writePage id page) Q t ↔
      Q () { t with pages := Function.update t.pages id (some page),
                    calls := .store id :: t.calls } := by
  simp [writePage, storeAt]

theorem wlp_newPage {Q : PageId → BPlusTree K V → Prop} :
    wlp newPage Q t ↔
      Q t.nextPageId { t with nextPageId := t.nextPageId + 1,
                              calls := .newPage t.nextPageId :: t.calls } := by
  simp [newPage]

theorem wlp_setParentPageId {parent : PageId} {Q : Unit → BPlusTree K V → Prop} :
    wlp (setParentPageId id parent) Q t ↔ ∀ page, t.pages id = some page →
      Q () { t with pages := Function.update t.pages id (some (page.setParentPageId parent)),
                    calls := .store id :: t.calls } := by
  change wlp (readPage id >>= fun page => writePage id (page.setParentPageId parent)) Q t ↔ _
  simp only [wlp_bind, wlp_readPage, wlp_writePage]

theorem wlp_addIntoPageSet {transaction : Bool} (htx : transaction = true)
    {Q : Unit → BPlusTree K V → Prop} :
    wlp (addIntoPageSet transaction id : TreeM K V Unit) Q t ↔
      Q () { t with pageSet := t.pageSet ++ [id] } := by
  simp [addIntoPageSet, htx]

theorem wlp_addIntoDeletedPageSet {transaction : Bool} (htx : transaction = true)
    {Q : Unit → BPlusTree K V → Prop} :
    wlp (addIntoDeletedPageSet transaction id : TreeM K V Unit) Q t ↔
      Q () { t with deletedPageSet := id :: t.deletedPageSet } := by
  simp [addIntoDeletedPageSet, htx]

theorem exists_page_update {pages : PageId → Option (TreePage K V)} {x y : PageId}
    {v : TreePage K V} (h : ∃ p, pages y = some p) :
    ∃ p, Function.update pages x (some v) y = some p := by
  by_cases hy : y = x
  · subst hy
    exact ⟨v, Function.update_self _ _ _⟩
  · rw [Function.update_of_ne hy]
    exact h

/-! ### Children that change hands -/

/-- The pages after those of `ids` have been given a new parent. -/
def adopted (pages : PageId → Option (TreePage K V)) (parent : PageId) (ids : List PageId) :
    PageId → Option (TreePage K V) := fun y =>
  if y ∈ ids then (pages y).map (·.setParentPageId parent) else pages y

theorem adopted_nil (pages : PageId → Option (TreePage K V)) (parent : PageId) :
    adopted pages parent [] = pages := by
  funext y
  simp [adopted]

theorem adopted_cons (pages : PageId → Option (TreePage K V)) (parent : PageId)
    (id : PageId) (ids : List PageId) (h : pages id = some page) :
    adopted (Function.update pages id (some (page.setParentPageId parent))) parent ids =
      adopted pages parent (id :: ids) := by
  have htwice : (page.setParentPageId parent).setParentPageId parent =
      page.setParentPageId parent := by
    cases page <;> rfl
  funext y
  by_cases hy : y = id
  · subst hy
    by_cases hmem : y ∈ ids <;> simp [adopted, hmem, h, htwice]
  · simp [adopted, hy]

theorem wp_adoptChild (page : TreePage K V) (h : t.pages id = some page) {parent : PageId}
    {Q : Unit → BPlusTree K V → Prop}
    (hQ : ∀ calls, Q () { t with pages := Function.update t.pages id
                                   (some (page.setParentPageId parent)), calls := calls }) :
    wp (adoptChild parent id) Q t := by
  simp only [adoptChild, wp_bind, wp_fetchPage, wp_setParentPageId, wp_unpinPage]
  exact ⟨page, h, page, h, hQ _⟩

theorem wp_adoptChildren {parent : PageId} {entries : List (K × PageId)}
    (h : ∀ e ∈ entries, ∃ page, t.pages e.2 = some page) {Q : Unit → BPlusTree K V → Prop}
    (hQ : ∀ calls, Q () { t with pages := adopted t.pages parent (entries.map Prod.snd),
                                 calls := calls }) :
    wp (adoptChildren parent entries) Q t := by
  unfold adoptChildren
  induction entries generalizing t with
  | nil =>
      rw [List.forM_nil, wp_pure]
      have hnil := hQ t.calls
      rw [List.map_nil, adopted_nil] at hnil
      exact hnil
  | cons e entries ih =>
      obtain ⟨page, hpage⟩ := h e List.mem_cons_self
      rw [List.forM_cons, wp_bind]
      refine wp_adoptChild page hpage fun calls => ?_
      refine ih (fun f hf => ?_) (fun calls' => ?_)
      · exact exists_page_update (h f (List.mem_cons_of_mem _ hf))
      · have hcons := hQ calls'
        rw [List.map_cons, ← adopted_cons _ _ _ _ hpage] at hcons
        exact hcons

/-! ### Releasing pages -/

/-- The pages after those of `ids` have been deleted. -/
def dropped (pages : PageId → Option (TreePage K V)) (ids : List PageId) :
    PageId → Option (TreePage K V) := fun y => if y ∈ ids then none else pages y

theorem wp_freePages {exclusive : Bool} {ids : List PageId} {Q : Unit → BPlusTree K V → Prop}
    (hQ : ∀ pages calls, (∀ y, pages y = if y ∈ t.deletedPageSet ∧ y ∈ ids then none
        else t.pages y) →
      Q () { t with pages := pages,
                    deletedPageSet := t.deletedPageSet.filter (· ∉ ids), calls := calls }) :
    wp (forM ids (freePage exclusive)) Q t := by
  induction ids generalizing t with
  | nil =>
      rw [List.forM_nil, wp_pure]
      have hnil := hQ t.pages t.calls (fun y => by simp)
      have hfilter : t.deletedPageSet.filter (· ∉ ([] : List PageId)) = t.deletedPageSet := by
        simp
      rw [hfilter] at hnil
      exact hnil
  | cons id ids ih =>
      rw [List.forM_cons, wp_bind]
      simp only [freePage, wp_bind, wp_record, wp_unpinPage, wp_get, wp_ite, wp_pure,
        wp_deletePage, wp_modify]
      constructor
      · intro hmem
        refine ih fun pages calls hpages => ?_
        have hfilter : (t.deletedPageSet.filter (· ≠ id)).filter (· ∉ ids) =
            t.deletedPageSet.filter (· ∉ id :: ids) := by
          rw [List.filter_filter]
          refine List.filter_congr fun y _ => ?_
          by_cases hy : y = id <;> simp [hy]
        rw [hfilter]
        refine hQ pages calls fun y => ?_
        rw [hpages]
        by_cases hy : y = id
        · subst hy
          simp [hmem]
        · simp [hy]
      · intro hmem
        refine ih fun pages calls hpages => ?_
        have hfilter : t.deletedPageSet.filter (· ∉ ids) =
            t.deletedPageSet.filter (· ∉ id :: ids) := by
          refine List.filter_congr fun y hy => ?_
          have hne : y ≠ id := fun heq => hmem (heq ▸ hy)
          simp [hne]
        rw [hfilter]
        refine hQ pages calls fun y => ?_
        rw [hpages]
        by_cases hy : y = id
        · subst hy
          simp [hmem]
        · simp [hy]

theorem wp_tryUnlockRootPageId {exclusive : Bool} {Q : Unit → BPlusTree K V → Prop}
    (hQ : ∀ count calls, Q () { t with rootLockedCnt := count, calls := calls }) :
    wp (tryUnlockRootPageId exclusive : TreeM K V Unit) Q t := by
  rw [tryUnlockRootPageId, wp_modify]
  split
  · exact hQ _ _
  · exact hQ t.rootLockedCnt t.calls

/-- With a transaction, the page set is emptied and the pages marked for
deletion, all of which must be in it, are gone. -/
theorem wp_freePagesInTransaction {exclusive : Bool} {cur : PageId}
    (hdel : ∀ y ∈ t.deletedPageSet, y ∈ t.pageSet) {Q : Unit → BPlusTree K V → Prop}
    (hQ : ∀ count calls, Q () { t with pages := dropped t.pages t.deletedPageSet,
                                       rootLockedCnt := count, pageSet := [],
                                       deletedPageSet := [], calls := calls }) :
    wp (freePagesInTransaction exclusive true cur) Q t := by
  rw [freePagesInTransaction, wp_bind]
  refine wp_tryUnlockRootPageId fun count calls => ?_
  simp only [Bool.true_eq_false, if_false, wp_bind, wp_get]
  refine wp_freePages fun pages calls' hpages => ?_
  have hfilter : t.deletedPageSet.filter (· ∉ t.pageSet) = [] := by
    rw [List.filter_eq_nil_iff]
    intro y hy
    simpa using hdel y hy
  have hdropped : pages = dropped t.pages t.deletedPageSet := by
    funext y
    rw [hpages]
    by_cases hy : y ∈ t.deletedPageSet
    · simp [dropped, hy, hdel y hy]
    · simp [dropped, hy]
  simp only [hfilter, wp_require, wp_modify, true_and]
  rw [hdropped]
  exact hQ count calls'

theorem dropped_nil (pages : PageId → Option (TreePage K V)) : dropped pages [] = pages := by
  funext y
  simp [dropped]

theorem wp_freePagesInTransaction_read {transaction : Bool} {cur : PageId}
    (hdel : t.deletedPageSet = []) (hcur : transaction = false →
      cur ≥ 0 ∧ ∃ page, t.pages cur = some page) {Q : Unit → BPlusTree K V → Prop}
    (hQ : ∀ count pageSet calls, (t.pageSet = [] → pageSet = []) →
      (transaction = true → pageSet = []) →
      Q () { t with rootLockedCnt := count, pageSet := pageSet, calls := calls }) :
    wp (freePagesInTransaction false transaction cur) Q t := by
  cases transaction with
  | true =>
      refine wp_freePagesInTransaction (by simp [hdel]) fun count calls => ?_
      rw [hdel, dropped_nil]
      have h := hQ count [] calls (fun _ => rfl) (fun _ => rfl)
      rw [hdel] at h
      exact h
  | false =>
      obtain ⟨hpos, page, hpage⟩ := hcur rfl
      rw [freePagesInTransaction, wp_bind]
      refine wp_tryUnlockRootPageId fun count calls => ?_
      simp only [if_true, wp_bind, wp_require, hpos, and_self, true_and]
      simp only [wp_fetchPage, wp_record, wp_unpinPage]
      exact ⟨page, hpage, hQ count t.pageSet _ id (fun h => by cases h)⟩

/-! ### Latching on the way down -/

/-- Latching with no page above to release. -/
theorem wp_crabingProtocalFetchPage (page : TreePage K V) {op : OpType} {previous : PageId}
    (hpage : t.pages id = some page) (hprev : ¬previous > 0)
    {Q : Unit → BPlusTree K V → Prop}
    (hQ : ∀ calls, Q () { t with pageSet := t.pageSet ++ [id], calls := calls }) :
    wp (crabingProtocalFetchPage id op previous true) Q t := by
  simp only [crabingProtocalFetchPage, wp_bind, wp_fetchPage, wp_record, wp_readPage, hprev,
    if_false, wp_pure, Bool.false_eq_true, if_true, wp_addIntoPageSet]
  exact ⟨page, hpage, page, hpage, hQ _⟩

/-- Latching a child: the pages above are released if the child is safe. -/
theorem wp_crabingProtocalFetchPage_write (page : TreePage K V) {op : OpType} (hop : op ≠ .read)
    {previous : PageId} (hpage : t.pages id = some page) (hdel : t.deletedPageSet = [])
    {Q : Unit → BPlusTree K V → Prop}
    (hQ : ∀ count pageSet calls, pageSet = t.pageSet ++ [id] ∨
        page.isSafe op = .ok true ∧ pageSet = [id] →
      Q () { t with rootLockedCnt := count, pageSet := pageSet, calls := calls }) :
    wp (crabingProtocalFetchPage id op previous true) Q t := by
  by_cases hprev : previous > 0
  · have hop' : decide (op ≠ .read) = true := by simpa using hop
    have hsafe : ∃ b, page.isSafe op = .ok b := by
      cases op with
      | read => exact absurd rfl hop
      | insert => exact ⟨_, rfl⟩
      | delete => exact ⟨_, rfl⟩
    obtain ⟨b, hb⟩ := hsafe
    simp only [crabingProtocalFetchPage, wp_bind, wp_fetchPage, wp_record, wp_readPage, hop',
      hprev, if_true, Bool.true_eq_false, if_false, wp_ofExcept]
    refine ⟨page, hpage, page, hpage, b, hb, ?_⟩
    cases b with
    | true =>
        simp only [if_true]
        refine wp_freePagesInTransaction (by simp [hdel]) fun count calls => ?_
        rw [wp_addIntoPageSet rfl]
        have h := hQ count [id] calls (Or.inr ⟨hb, rfl⟩)
        simp only [hdel, dropped_nil, List.nil_append] at h ⊢
        exact h
    | false =>
        simp only [Bool.false_eq_true, if_false, wp_pure]
        rw [wp_addIntoPageSet rfl]
        exact hQ _ _ _ (Or.inl rfl)
  · exact wp_crabingProtocalFetchPage page hpage hprev fun calls => hQ _ _ _ (Or.inl rfl)

theorem wp_crabingProtocalFetchPage_read (page : TreePage K V) {previous : PageId}
    {transaction : Bool}
    (hpage : t.pages id = some page) (hdel : t.deletedPageSet = [])
    (hprev : previous > 0 → ∃ page, t.pages previous = some page)
    {Q : Unit → BPlusTree K V → Prop}
    (hQ : ∀ count pageSet calls, (transaction = false → t.pageSet = [] → pageSet = []) →
      Q () { t with rootLockedCnt := count, pageSet := pageSet, calls := calls }) :
    wp (crabingProtocalFetchPage id .read previous transaction) Q t := by
  have hend : ∀ count pageSet calls, (transaction = false → t.pageSet = [] → pageSet = []) →
      wp (if transaction = true then addIntoPageSet transaction id else pure () : TreeM K V Unit) Q
        { t with rootLockedCnt := count, pageSet := pageSet, calls := calls } := by
    intro count pageSet calls hset
    cases transaction with
    | true =>
        simp only [if_true]
        rw [wp_addIntoPageSet rfl]
        exact hQ _ _ _ (fun h => by cases h)
    | false =>
        simp only [Bool.false_eq_true, if_false, wp_pure]
        exact hQ _ _ _ hset
  simp only [crabingProtocalFetchPage, wp_bind, wp_fetchPage, wp_record, wp_readPage]
  refine ⟨page, hpage, page, hpage, ?_⟩
  by_cases hpos : previous > 0
  · simp only [hpos, ne_eq, not_true_eq_false, decide_false, if_true, wp_pure]
    obtain ⟨pp, hpp⟩ := hprev hpos
    refine wp_freePagesInTransaction_read ?_ ?_ ?_
    · exact hdel
    · exact fun _ => ⟨Int.le_of_lt hpos, pp, hpp⟩
    · exact fun count pageSet calls hset _ => hend count pageSet calls fun _ => hset
  · simp only [hpos, if_false, wp_pure, Bool.false_eq_true]
    exact hend _ _ _ fun _ hempty => hempty

/-! ### The header record -/

/-- What `UpdateRootPageId` does to the header page: an update changes a
record that exists, an insertion adds one that does not. -/
theorem wp_updateRootPageId_update (params : IndexParams K)
    (hname : params.indexName.length < 32) {Q : Unit → BPlusTree K V → Prop}
    (hQ : ∀ header calls,
      header.recorded params.indexName =
        (t.headerPage.recorded params.indexName).map (fun _ => t.rootPageId) →
      header.getRecordCount = t.headerPage.getRecordCount →
      Q () { t with headerPage := header, calls := calls }) :
    wp (updateRootPageId params false) Q t := by
  simp only [updateRootPageId, wp_bind, wp_fetchHeaderPage, wp_getRootPageId, wp_get,
    Bool.false_eq_true, if_false,
    wp_ofExcept]
  cases hrec : t.headerPage.recorded params.indexName with
  | none =>
      refine ⟨_, HeaderPage.updateRecord_absent _ hname hrec, ?_⟩
      simp only [wp_modify, wp_unpinPage]
      exact hQ _ _ (by simp [hrec]) rfl
  | some old =>
      obtain ⟨page', hupd, hrec', hcount⟩ :=
        HeaderPage.updateRecord_spec t.rootPageId hname hrec
      refine ⟨_, hupd, ?_⟩
      simp only [wp_modify, wp_unpinPage]
      exact hQ _ _ (by simp [hrec, hrec']) hcount

theorem wp_updateRootPageId_insert (params : IndexParams K)
    (hname : params.indexName.length < 32) (hroot : t.rootPageId > invalidPageId)
    (hroom : t.headerPage.recorded params.indexName = none →
      t.headerPage.getRecordCount < HeaderPage.capacity)
    {Q : Unit → BPlusTree K V → Prop}
    (hQ : ∀ header calls,
      header.recorded params.indexName =
        some ((t.headerPage.recorded params.indexName).getD t.rootPageId) →
      Q () { t with headerPage := header, calls := calls }) :
    wp (updateRootPageId params true) Q t := by
  simp only [updateRootPageId, wp_bind, wp_fetchHeaderPage, wp_getRootPageId, wp_get, if_true,
    wp_ofExcept]
  cases hrec : t.headerPage.recorded params.indexName with
  | none =>
      refine ⟨_, HeaderPage.insertRecord_new hname hroot hrec (hroom hrec), ?_⟩
      simp only [wp_modify, wp_unpinPage]
      exact hQ _ _ (by simp [hrec, HeaderPage.recorded_append])
  | some old =>
      refine ⟨_, HeaderPage.insertRecord_old hname hroot hrec, ?_⟩
      simp only [wp_modify, wp_unpinPage]
      exact hQ _ _ (by simp [hrec])

end BPlusTree

end ScuDb
