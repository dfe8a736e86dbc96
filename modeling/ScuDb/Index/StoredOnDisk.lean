import ScuDb.Index.Reconnecting
import ScuDb.Index.WrittenBack

/-!
The finite map on the disk.

The requests a tree over bytes has made are replayed on the buffer pool,
every store with its bytes. No change is owed in the end, so that the disk
has the bytes of the tree once the frames have been given up; a new tree
object over the disk, with the root that the bytes of its header page
name, goes on as the map.
-/

namespace ScuDb

open Foundations

/-! ### Bytes in frames -/

/-- A page as a frame holds it. -/
def PageBytes.data (p : PageBytes) : PageData := fun i => p i

/-- The bytes of a frame; there is nothing behind them. -/
def PageData.bytes (d : PageData) : PageBytes := fun x =>
  if h : x < pageSize then d ⟨x, h⟩ else 0

theorem bytes_data (p : PageBytes) {x : Nat} (hx : x < pageSize) : p.data.bytes x = p x := by
  rw [PageData.bytes, dif_pos hx, PageBytes.data]

theorem HeaderBytes.Lays.congr {p q : HeaderBytes} {page : HeaderPage}
    (h : HeaderBytes.Lays p page) (hsame : ∀ x < pageSize, q x = p x) :
    HeaderBytes.Lays q page := by
  have hpage : pageSize = 512 := rfl
  have hcapacity : HeaderPage.capacity = 14 := rfl
  refine ⟨?_, h.fits, fun i r hr => ?_⟩
  · rw [← h.count]
    exact Memory.getInt32_congr fun i hi => hsame _ (by omega)
  · obtain ⟨hlt, -⟩ := List.getElem?_eq_some_iff.mp hr
    have hfits := h.fits
    exact (h.record i r hr).congr fun j hj => hsame _ (by omega)

theorem TreePage.StoredAt.congr {K V : Type} [Inhabited K] {fmt : TreeFormat K V}
    {p q : PageBytes} {page : TreePage K V} (h : page.StoredAt fmt p)
    (hsame : ∀ x < pageSize, q x = p x) : page.StoredAt fmt q := by
  cases page with
  | leaf page => exact LeafPage.StoredAt.congr h hsame
  | internal page => exact Lays.congr h hsame

/-! ### Requests on the pool -/

/-- One request, on a pool that has a frame for every page asked for. -/
inductive Grants : Request → Session Unit → Session Unit → Prop
  | store {s s' : Session Unit} {id : PageId} {bytes : PageBytes} {tar : Nat} {r : PoolResult}
      (hheld : ((), tar) ∈ (s.clients id).holders)
      (hrun : (ClientOp.write () id tar fun _ => bytes.data).run s = .ok (r, s')) :
      Grants (.store id bytes) s s'
  | other {s s' : Session Unit} {r : Request} (hstore : ∀ id bytes, r ≠ .store id bytes)
      (hcall : PlaysCall r.call s s') : Grants r s s'

/-- The requests of a run, the latest of which comes first. -/
inductive GrantsAll : List Request → Session Unit → Session Unit → Prop
  | nil {s : Session Unit} : GrantsAll [] s s
  | cons {s s₁ s' : Session Unit} {r : Request} {earlier : List Request}
      (hearlier : GrantsAll earlier s s₁) (hlast : Grants r s₁ s') :
      GrantsAll (r :: earlier) s s'

theorem Grants.playsCall {r : Request} {s s' : Session Unit} (h : Grants r s s') :
    PlaysCall r.call s s' := by
  cases h with
  | store hheld hrun => exact .store hheld hrun
  | other _ hcall => exact hcall

theorem GrantsAll.plays {requests : List Request} {s s' : Session Unit}
    (h : GrantsAll requests s s') : Plays (requests.map Request.call) s s' := by
  induction h with
  | nil => exact .nil
  | cons _ hlast ih => exact .cons ih hlast.playsCall

/-- Whoever may store to a page may store any bytes there. -/
theorem Grants.exists_of_playsCall {r : Request} {s s' : Session Unit} (hs : Transparent s)
    (h : PlaysCall r.call s s') : ∃ s'', Grants r s s'' := by
  cases r with
  | store id bytes =>
      cases h with
      | store hheld hrun =>
          obtain ⟨r, s'', hrun', -⟩ := ClientOp.wp_write hs (g := fun _ => bytes.data) hheld
          exact ⟨s'', .store hheld hrun'⟩
  | _ => exact ⟨s', .other (by simp) h⟩

/-- The pool has the bytes that the requests have left. -/
theorem Grants.bytes {r : Request} {s s' : Session Unit} (h : Grants r s s')
    {pages : PageId → PageBytes} (hbytes : ∀ id, (s.clients id).bytes = (pages id).data)
    (id : PageId) : (s'.clients id).bytes = (r.onPages pages id).data := by
  cases h with
  | @store _ _ id' bytes tar _ hheld hrun =>
      rw [ClientOp.clients_of_run hrun]
      by_cases hid : id = id'
      · subst hid
        simp only [ClientOp.note, Request.onPages, Function.update_self]
      · simp only [ClientOp.note, Request.onPages, Function.update_of_ne hid]
        exact hbytes id
  | other hstore hcall =>
      -- only a new page has other bytes than before, as the pool zeroes it
      have hkept (hnew : r.call ≠ .newPage id) : (s'.clients id).bytes = (pages id).data := by
        refine (hcall.bytes ?_ hnew).trans (hbytes id)
        intro heq
        cases r with
        | store id' bytes => exact hstore id' bytes rfl
        | _ => cases heq
      cases r with
      | newPage id' =>
          by_cases hid : id = id'
          · subst hid
            cases hcall with
            | newPage hrun =>
                rw [ClientOp.clients_of_run hrun]
                simp only [ClientOp.note, Request.onPages, Function.update_self]
                rfl
          · rw [Request.onPages, Function.update_of_ne hid]
            refine hkept fun heq => hid ?_
            cases heq
            rfl
      | store id' bytes => exact absurd rfl (hstore id' bytes)
      | _ => exact hkept (by simp [Request.call])

theorem GrantsAll.bytes {requests : List Request} {s s' : Session Unit}
    (h : GrantsAll requests s s') {base : PageId → PageBytes}
    (hbytes : ∀ id, (s.clients id).bytes = (base id).data) (id : PageId) :
    (s'.clients id).bytes = (requests.foldr Request.onPages base id).data := by
  induction h generalizing id with
  | nil => exact hbytes id
  | cons _ hlast ih => exact hlast.bytes (ih hbytes) id

/-- The pool has the bytes, in frames or on the disk, and no page is pinned. -/
structure BytesIn (next : PageId) (pages : PageId → PageBytes) (s : Session Unit) : Prop where
  transparent : Transparent s
  nextPageId : s.pool.disk.nextPageId = next
  unpinned : ∀ id, (s.clients id).holders = []
  bytes : ∀ id, (s.clients id).bytes = (pages id).data
  header : (s.clients headerPageId).deleted = false
  fresh : ∀ id, next ≤ id → (s.clients id).deleted = false

/-- What the disk has after the pages `ids` have given up their frames. -/
def diskAfter (s : Session Unit) (ids : List PageId) : PageId → PageBytes :=
  fun id => ((s.pool.cache.evictAll ids).disk id).bytes

section Replay

variable {K V : Type} [Inhabited K] {fmt : TreeFormat K V} {pages : PageId → PageBytes}
  {next : PageId} {header : HeaderPage} {t : BPlusTree K V} {b : StoredTree} {s s' : Session Unit}

theorem BytesIn.agrees (hs : BytesIn next pages s) :
    (DirtyUse.start (fun id => (s.clients id).deleted) next).Agrees s where
  transparent := hs.transparent
  next := hs.nextPageId
  pins id := by
    rw [hs.unpinned id]
    rfl
  changed id := (hs.transparent.page id).unchanged (hs.unpinned id) ()
  removed _ := rfl
  fresh id hid := ⟨rfl, rfl, hs.fresh id hid⟩

omit [Inhabited K] in
/-- The empty tree owes nothing, and pages that are gone are not its own. -/
theorem BytesIn.kept_empty (hs : BytesIn next pages s) (hnext : 1 ≤ next) :
    BPlusTree.Kept (DirtyUse.start (fun id => (s.clients id).deleted) next)
      (BPlusTree.empty header next : BPlusTree K V) (fun _ => 0) [] []
      (BPlusTree.empty header next) := by
  have hsound : (BPlusTree.empty header next : BPlusTree K V).Sound :=
    ⟨fun _ _ hpage => (nomatch hpage), fun _ _ hpage => (nomatch hpage),
      Int.lt_of_lt_of_le Int.one_pos hnext⟩
  refine hsound.kept _ fun id hdeleted => ⟨?_, ?_, rfl⟩
  · rintro rfl
    rw [hs.header] at hdeleted
    cases hdeleted
  · by_contra hlt
    rw [hs.fresh id (not_lt.mp hlt)] at hdeleted
    cases hdeleted

/-- Where every change has been accounted for, the next request is granted
unless the pool has no frame for it. -/
theorem Stores.goesOn {limit : PageId} {mine held : List PageId} {extra : PageId → Nat}
    (h : Stores fmt pages limit t b) (hs : BytesIn next pages s)
    (hkept : BPlusTree.Kept (DirtyUse.start (fun id => (s.clients id).deleted) next)
      (BPlusTree.empty header next) extra mine held t)
    {later earlier : List Request} {r : Request} (hcalls : b.calls = later ++ r :: earlier)
    {s₁ : Session Unit} (hgrants : GrantsAll earlier s s₁) :
    (∃ s₂, Grants r s₁ s₂) ∨ NoFrame r.call s₁ := by
  obtain ⟨u, ⟨recent, hrecent, hreplay⟩, -⟩ := hkept.ledger
  have hall : recent = later.map Request.call ++ r.call :: earlier.map Request.call := by
    rw [← List.map_cons, ← List.map_append, ← hcalls, h.calls, hrecent]
    exact (List.append_nil recent).symm
  rw [hall] at hreplay
  obtain ⟨v, hv⟩ := DirtyUse.replay_suffix hreplay
  obtain ⟨w, hw, hstep⟩ := DirtyUse.replay_cons hv
  have hagrees := hs.agrees.plays hw hgrants.plays
  refine (hagrees.exists_call hstep).imp_left ?_
  rintro ⟨s₂, hplays⟩
  exact Grants.exists_of_playsCall hagrees.transparent hplays

/-- Where nothing is owed, the disk has the bytes of the tree and of the
header page when all pages have given up their frames. -/
theorem Stores.disk (h : Stores fmt pages t.nextPageId t b) (hs : BytesIn next pages s)
    (hkept : BPlusTree.Kept (DirtyUse.start (fun id => (s.clients id).deleted) next)
      (BPlusTree.empty header next) (fun _ => 0) [] [] t)
    (hgrants : GrantsAll b.calls s s') {ids : List PageId}
    (hids : ∀ id, 0 ≤ id → id < t.nextPageId → id ∈ ids) {id : PageId} {x : Nat}
    (hid : id = headerPageId ∨ t.pages id ≠ none) (hx : x < pageSize) :
    diskAfter s' ids id x = b.pages id x := by
  obtain ⟨u, ⟨recent, hcalls, hreplay⟩, hcover, hlast, hremoved⟩ := hkept.ledger
  have hrecent : b.calls.map Request.call = recent := by
    rw [h.calls, hcalls]
    exact List.append_nil recent
  have hplays := hgrants.plays
  rw [hrecent] at hplays
  have hagrees := hs.agrees.plays hreplay hplays
  have hnone : (s'.clients id).holders = [] := by
    refine List.eq_nil_of_length_eq_zero ?_
    rw [hagrees.pins, hcover.pins]
    rfl
  -- the pages that have been deleted are not those of the tree
  have hlive : (s'.clients id).deleted = false := by
    rw [hagrees.removed]
    cases hgone : u.removed id with
    | false => rfl
    | true =>
        obtain ⟨hne, -, hpage, -⟩ := hremoved id hgone
        exact absurd hid (not_or.mpr ⟨hne, not_not.mpr hpage⟩)
  have hmem : id ∈ ids := by
    rcases hid with rfl | hpage
    · exact hids _ (Int.le_refl _) hkept.next
    · obtain ⟨page, hpage⟩ := Option.ne_none_iff_exists'.mp hpage
      obtain ⟨hpos, hlt⟩ := hkept.allocated id page hpage
      exact hids id hpos.le hlt
  have hbytes : (s'.clients id).bytes = (b.pages id).data := by
    rw [hgrants.bytes hs.bytes, h.written]
  rw [diskAfter, Cache.disk_evictAll hmem, hagrees.transparent.disk_evict hnone hlive, hbytes,
    bytes_data _ hx]

theorem Stores.reopen (h : Stores fmt pages t.nextPageId t b) {disk : PageId → PageBytes}
    (hdisk : ∀ id x, (id = headerPageId ∨ t.pages id ≠ none) → x < pageSize →
      disk id x = b.pages id x) :
    Stores fmt disk t.nextPageId
      { t with rootLockedCnt := 0, pageSet := [], deletedPageSet := [], calls := [] }
      (.construct t.rootPageId disk t.nextPageId) where
  rootPageId := rfl
  validRoot := h.validRoot
  page id page hpage := by
    obtain ⟨hid, hstored⟩ := h.page id page hpage
    have hpage' : t.pages id ≠ none := by
      intro hnone
      rw [hnone] at hpage
      cases hpage
    exact ⟨hid, hstored.congr fun x hx => hdisk id x (.inr hpage') hx⟩
  header := h.header.congr fun x hx => hdisk headerPageId x (.inl rfl) hx
  next := ⟨rfl, rfl⟩
  positive := h.positive
  rootLockedCnt := rfl
  pageSet := rfl
  deletedPageSet := rfl
  calls := rfl
  written := rfl

end Replay

/-! ### Runs -/

section Runs

variable {K V B : Type} [LinearOrder B] [BoundedOrder B] {ω : OrderedIndex K B}
  {t : BPlusTree K V}

theorem Recorded.pageSet {s : (K → Option V) × Bool} (h : Recorded ω t s) : t.pageSet = [] := by
  unfold Recorded at h
  split at h
  · exact h.pageSet
  · exact h.1.pageSet

/-- Another tree object over the pages of a tree. -/
theorem BPlusTree.Represents.reopen {R : Prop} {m : K → Option V} (h : Represents ω R m t) :
    Represents ω R m
      { t with rootLockedCnt := 0, pageSet := [], deletedPageSet := [], calls := [] } :=
  ⟨rfl, rfl, h.nextPageId, h.header, h.tree.imp_right fun hs => hs.frame rfl rfl rfl rfl rfl⟩

variable [Inhabited K] [DecidableEq K] [Inhabited V]

/-- Between insertions and removals, the record is right and nothing is
owed. -/
theorem IndexOp.refines_kept (ω : OrderedIndex K B) (u₀ : DirtyUse) (t₀ : BPlusTree K V) :
    Refines (fun t s => Recorded ω t s ∧ BPlusTree.Kept u₀ t₀ (fun _ => 0) [] [] t)
      (fun op s => (op.key ∈ ω.keys ∧ NoRefill op s) ∧ op.isQuery = false)
      (IndexOp.run ω.toIndexParams) notedSpec := by
  rintro op t s ⟨h, hkept⟩ ⟨hok, hop⟩
  refine wp_mono (wp_and_wlp (IndexOp.refines_recorded ω op t s h hok)
    (op.wlp_kept ω.toIndexParams hop hkept h.pageSet)) ?_
  rintro r t' ⟨⟨hr, ht'⟩, hkept'⟩
  exact ⟨hr, ht', hkept'⟩

end Runs

section OnDisk

variable {K V : Type} [Inhabited K] [DecidableEq K] [Inhabited V]

/-- The header page names the root, and a new tree object with this root
goes on as the map of the tree. -/
theorem Stores.reopened {B : Type} [LinearOrder B] [BoundedOrder B] {fmt : TreeFormat K V}
    {ω : OrderedIndex K B} (hω : ω.toIndexParams = fmt.toIndexParams)
    (hname : fmt.indexName.length < 32) {pages disk : PageId → PageBytes} {m : K → Option V}
    {t : BPlusTree K V} {b : StoredTree} (h : Stores fmt pages t.nextPageId t b)
    (ht : BPlusTree.Represents ω True m t)
    (hdisk : ∀ id x, (id = headerPageId ∨ t.pages id ≠ none) → x < pageSize →
      disk id x = b.pages id x) :
    HeaderBytes.getRootId (disk headerPageId) fmt.indexName = .ok (some t.rootPageId) ∧
    ∀ ops : List (IndexOp K V), (∀ op ∈ ops, op.key ∈ ω.keys ∧ op.Storable fmt) →
      runAll (IndexOp.runStored fmt) ops (.construct t.rootPageId disk t.nextPageId) =
        .error .noPageId ∨
      ∃ b', runAll (IndexOp.runStored fmt) ops (.construct t.rootPageId disk t.nextPageId) =
        .ok ((specAll IndexOp.spec ops m).1, b') := by
  have hreopen := h.reopen hdisk
  refine ⟨?_, fun ops hops => ?_⟩
  · have hheader : HeaderBytes.Lays (disk headerPageId) t.headerPage := hreopen.header
    have hrecorded : t.headerPage.recorded fmt.indexName = some t.rootPageId := by
      rw [← hω]
      exact ht.header.2 trivial
    rw [hheader.getRootId hname, HeaderBytes.cStr_of_no_nul fmt.noNul, hrecorded]
  · refine (IndexOp.runAll_runStored hω ht.reopen hreopen (fun op hop => (hops op hop).1)
      fun op hop => (hops op hop).2).imp_right ?_
    rintro ⟨t', b', -, hstored, -⟩
    exact ⟨b', hstored⟩

/-- The requests of a run of insertions and removals, replayed on a buffer
pool, go on until the pool has no frame. When all have been granted and the
pages have given up their frames, the disk holds the map: a new tree object
with the root that the bytes of the header page name answers as the map
does, as long as there are page ids. -/
theorem tree_on_disk_refines_map (fmt : TreeFormat K V) (S : Set K)
    (hcmp : StrictTotalOrderOn fmt.comparator S) (hname : fmt.indexName.length < 32)
    (header : HeaderPage) (hnew : header.recorded fmt.indexName = none)
    (hroom : header.getRecordCount < HeaderPage.capacity) (next : PageId) (hnext : 1 ≤ next)
    (pages : PageId → PageBytes) (hpages : HeaderBytes.Lays (pages headerPageId) header)
    (s : Session Unit) (hs : BytesIn next pages s) (ops : List (IndexOp K V))
    (hops : ∀ op ∈ ops, op.key ∈ S ∧ op.Storable fmt ∧ op.isQuery = false)
    (hinsert : ops.any IndexOp.isInsert = true)
    (hrefill : Admissible NoRefill notedSpec ops (fun _ => none, false)) :
    runAll (IndexOp.runStored fmt) ops (.construct invalidPageId pages next) = .error .noPageId ∨
    ∃ b, runAll (IndexOp.runStored fmt) ops (.construct invalidPageId pages next) =
        .ok ((specAll notedSpec ops (fun _ => none, false)).1, b) ∧
      (∀ later r earlier, b.calls = later ++ r :: earlier → ∀ s₁, GrantsAll earlier s s₁ →
        (∃ s₂, Grants r s₁ s₂) ∨ NoFrame r.call s₁) ∧
      ∀ s', GrantsAll b.calls s s' → ∀ ids, (∀ id, 0 ≤ id → id < b.nextPageId → id ∈ ids) →
        ∃ rootId, HeaderBytes.getRootId (diskAfter s' ids headerPageId) fmt.indexName =
            .ok (some rootId) ∧
          ∀ ops' : List (IndexOp K V), (∀ op ∈ ops', op.key ∈ S ∧ op.Storable fmt) →
            runAll (IndexOp.runStored fmt) ops'
              (.construct rootId (diskAfter s' ids) b.nextPageId) = .error .noPageId ∨
            ∃ b', runAll (IndexOp.runStored fmt) ops'
                (.construct rootId (diskAfter s' ids) b.nextPageId) =
              .ok ((specAll IndexOp.spec ops' (specAll IndexOp.spec ops fun _ => none).2).1,
                b') := by
  obtain ⟨B, hB, hB', ω, hω, rfl⟩ := exists_orderedIndex fmt.toIndexParams hcmp hname
  have hkept := IndexOp.refines_kept (V := V) ω
    (DirtyUse.start (fun id => (s.clients id).deleted) next) (BPlusTree.empty header next)
  have hnew' : header.recorded ω.indexName = none := by rw [hω, hnew]
  have hstart : Recorded (V := V) ω (BPlusTree.empty header next) (fun _ => none, false) :=
    ⟨BPlusTree.represents_empty ω hnext fun _ => hroom, fun _ => rfl, hnew'⟩
  rw [hω] at hkept
  have hok : Admissible
      (fun (op : IndexOp K V) s => (op.key ∈ ω.keys ∧ NoRefill op s) ∧ op.isQuery = false)
      notedSpec ops (fun _ => none, false) := by
    refine admissible_iff.mpr fun before op after heq => ?_
    obtain ⟨hkey, -, hop⟩ := hops op (by simp [heq])
    exact ⟨⟨hkey, admissible_iff.mp hrefill before op after heq⟩, hop⟩
  -- the run over the pages, and then the same run over the bytes
  obtain ⟨rs, t, hrun, rfl, hrec, hsettled⟩ :=
    hkept.run ⟨hstart, hs.kept_empty hnext⟩ hok
  rcases IndexOp.runAll_mirrors (fun op hop => (hops op hop).2.1) _ _
    (stores_construct fmt hnext hpages) _ t hrun with hstop | h
  · exact .inl hstop
  obtain ⟨rs', b, limit, hstored, -, hstores, rfl⟩ := h
  obtain ⟨rfl, hlimit⟩ := hstores.next
  refine .inr ⟨b, hstored, fun later r earlier hcalls s₁ hgrants =>
    hstores.goesOn hs hsettled hcalls hgrants, fun s' hgrants ids hids => ?_⟩
  rw [hlimit] at hids ⊢
  rw [specAll_notedSpec] at hrec
  simp only [Recorded, Bool.false_or, hinsert, if_true] at hrec
  have hdisk : ∀ id x, (id = headerPageId ∨ t.pages id ≠ none) → x < pageSize →
      diskAfter s' ids id x = b.pages id x :=
    fun id x hid hx => hstores.disk hs hsettled hgrants hids hid hx
  exact ⟨t.rootPageId, hstores.reopened hω hname hrec hdisk⟩

end OnDisk

theorem exists_bytesIn : ∃ s, BytesIn 1 (fun _ _ => 0) s := by
  obtain ⟨r, s, hrun, hs, hnew⟩ := ClientOp.wp_newPage (transparent_create 10) ()
  have hresult : ∃ s, (ClientOp.newPage ()).run (Session.start 10) =
      .ok (.newPage (some (0, 0)), s) := ⟨_, rfl⟩
  obtain ⟨s₁, hrun₁⟩ := hresult
  cases hrun.symm.trans hrun₁
  obtain ⟨-, hnext⟩ := hnew 0 0 rfl
  have hclients := ClientOp.clients_of_run hrun
  have hheld : ((), 0) ∈ (s.clients 0).holders := by
    rw [hclients]
    exact List.mem_singleton.mpr rfl
  -- the page is unpinned, so that its frame can be given up
  obtain ⟨r, s', hrun', hs', hnext', rfl⟩ : wp (ClientOp.unpinPage () 0 true).run _ s :=
    ClientOp.wp_unpinPage hs ⟨0, hheld⟩ fun _ => .inl rfl
  have hclients' : s'.clients = _ := ClientOp.clients_of_run hrun'
  have hpage : ∀ id, (s'.clients id).holders = [] ∧ (s'.clients id).bytes = PageData.zero ∧
      (s'.clients id).deleted = false := by
    intro id
    rw [hclients', hclients]
    by_cases hid : id = 0
    · subst hid
      exact ⟨rfl, rfl, rfl⟩
    · simp [ClientOp.note, Function.update_of_ne hid, PageUse.unused]
  exact ⟨s', hs', hnext'.trans hnext, fun id => (hpage id).1, fun id => (hpage id).2.1,
    (hpage headerPageId).2.2, fun id _ => (hpage id).2.2⟩

theorem tree_on_disk_refines_map_integers : ∃ s b,
    runAll (IndexOp.runStored integerFormat) threeLeaves
      (.construct invalidPageId (fun _ _ => 0) 1) =
      .ok (List.replicate 9 (.inserted true) ++
        [.removed, .removed, .inserted true, .removed, .removed], b) ∧
    ∀ s', GrantsAll b.calls s s' → ∀ ids, (∀ id, 0 ≤ id → id < b.nextPageId → id ∈ ids) →
      ∃ rootId, HeaderBytes.getRootId (diskAfter s' ids headerPageId) integerFormat.indexName =
          .ok (some rootId) ∧
        (runAll (IndexOp.runStored integerFormat) [.remove 6, .getValue 8 [] true]
          (.construct rootId (diskAfter s' ids) b.nextPageId) = .error .noPageId ∨
        ∃ b', runAll (IndexOp.runStored integerFormat) [.remove 6, .getValue 8 [] true]
          (.construct rootId (diskAfter s' ids) b.nextPageId) =
          .ok ([.removed, .found true (some (1, 80))], b')) := by
  obtain ⟨s, hs⟩ := exists_bytesIn
  have hops : ∀ op ∈ threeLeaves,
      op.key ∈ Set.univ ∧ op.Storable integerFormat ∧ op.isQuery = false := fun op hop =>
    ⟨Set.mem_univ _, threeLeaves_storable op hop, by
      revert op
      decide⟩
  have hrefill : Admissible NoRefill notedSpec threeLeaves (fun _ => none, false) := by
    refine And.intro (fun _ hnoted => by cases hnoted) ?_
    -- the key 1 is never removed
    exact admissible_noRefill 1 (by decide) (by simp)
  obtain ⟨b, hrun, -, hdisk⟩ := (tree_on_disk_refines_map integerFormat Set.univ
    strictTotalOrderOn_sub (by decide) HeaderPage.init rfl (by decide) 1 (by decide) _ lays_zeros s
    hs _ hops rfl hrefill).resolve_left (not_noPageId (by decide +kernel))
  refine ⟨s, b, hrun, fun s' hgrants ids hids => ?_⟩
  obtain ⟨rootId, hroot, hmap⟩ := hdisk s' hgrants ids hids
  exact ⟨rootId, hroot, hmap [.remove 6, .getValue 8 [] true] (by simp [IndexOp.Storable])⟩

end ScuDb
