import ScuDb.Buffer.Transparency
import ScuDb.Index.Contract
import ScuDb.Index.DirtyRelease

/-!
An operation on a tree, replayed on the buffer pool.

`Plays` executes recorded calls of one thread on the pool. `Agrees` ties
what `DirtyUse` says of the calls to what the pool knows, and a replay
keeps them tied: since no change is owed in the end, the disk has every
page of the tree once the frames have been given up.
-/

namespace ScuDb

open Foundations

/-! ### Evictions -/

namespace Cache

/-- The pages `ids` give up their frames, one after another. -/
def evictAll (c : Cache) (ids : List PageId) : Cache := ids.foldl evict c

theorem disk_evictAll_of_absent {c : Cache} {id : PageId} (h : c.resident id = none)
    (ids : List PageId) : (c.evictAll ids).disk id = c.disk id := by
  induction ids generalizing c with
  | nil => rfl
  | cons k ids ih =>
      change ((c.evict k).evictAll ids).disk id = _
      by_cases hk : id = k
      · subst hk
        rw [evict_of_absent h]
        exact ih h
      · obtain ⟨hres, hdisk⟩ := c.evict_of_ne hk
        rw [ih (hres.trans h), hdisk]

/-- A page that has been evicted is on the disk as its own eviction left it. -/
theorem disk_evictAll {c : Cache} {ids : List PageId} {id : PageId} (hid : id ∈ ids) :
    (c.evictAll ids).disk id = (c.evict id).disk id := by
  induction ids generalizing c with
  | nil => cases hid
  | cons k ids ih =>
      change ((c.evict k).evictAll ids).disk id = _
      by_cases hk : id = k
      · subst hk
        refine disk_evictAll_of_absent ?_ ids
        cases hres : c.resident id with
        | none => rw [evict_of_absent hres, hres]
        | some page => exact (evict_self hres).1
      · rw [ih ((List.mem_cons.mp hid).resolve_left hk)]
        obtain ⟨hres, hdisk⟩ := c.evict_of_ne hk
        cases hpage : c.resident id with
        | none => rw [evict_of_absent hpage, evict_of_absent (hres.trans hpage), hdisk]
        | some page => rw [(evict_self hpage).2, (evict_self (hres.trans hpage)).2, hdisk]

end Cache

theorem Transparent.disk_evict {s : Session Unit} (h : Transparent s) {id : PageId}
    (hnone : (s.clients id).holders = []) (hlive : (s.clients id).deleted = false) :
    (s.pool.cache.evict id).disk id = (s.clients id).bytes := by
  have hunpinned : s.pool.cache.Unpinned id := by
    intro page hpage
    rw [((h.page id).resident page hpage).2.1, hnone]
    rfl
  have hpage := h.evict (BufferPoolManager.Keeps.refl s.pool) hunpinned id
  refine (hpage.absent ?_).2 hlive
  cases hres : s.pool.cache.resident id with
  | none => rw [Cache.evict_of_absent hres, hres]
  | some page => exact (Cache.evict_self hres).1

/-! ### Recorded calls on the pool -/

/-- One recorded call, on a pool that has a frame for every page asked
for. What a store writes is left open. -/
inductive PlaysCall : PoolCall → Session Unit → Session Unit → Prop
  | newPage {s s' : Session Unit} {id : PageId} {tar : Nat}
      (hrun : (ClientOp.newPage ()).run s = .ok (.newPage (some (id, tar)), s')) :
      PlaysCall (.newPage id) s s'
  | fetchPage {s s' : Session Unit} {id : PageId} {tar : Nat}
      (hrun : (ClientOp.fetchPage () id).run s = .ok (.page (some tar), s')) :
      PlaysCall (.fetchPage id) s s'
  | unpinPage {s s' : Session Unit} {id : PageId} {isDirty : Bool} {r : PoolResult}
      (hrun : (ClientOp.unpinPage () id isDirty).run s = .ok (r, s')) :
      PlaysCall (.unpinPage id isDirty) s s'
  | deletePage {s s' : Session Unit} {id : PageId} {r : PoolResult}
      (hrun : (ClientOp.deletePage id).run s = .ok (r, s')) : PlaysCall (.deletePage id) s s'
  | store {s s' : Session Unit} {id : PageId} {tar : Nat} {g : PageData → PageData}
      {r : PoolResult} (hheld : ((), tar) ∈ (s.clients id).holders)
      (hrun : (ClientOp.write () id tar g).run s = .ok (r, s')) : PlaysCall (.store id) s s'
  | lock {s : Session Unit} {exclusive : Bool} {id : PageId} : PlaysCall (.lock exclusive id) s s
  | unlock {s : Session Unit} {exclusive : Bool} {id : PageId} :
      PlaysCall (.unlock exclusive id) s s
  | lockRoot {s : Session Unit} {exclusive : Bool} : PlaysCall (.lockRoot exclusive) s s
  | unlockRoot {s : Session Unit} {exclusive : Bool} : PlaysCall (.unlockRoot exclusive) s s

/-- Recorded calls, the latest of which comes first. -/
inductive Plays : List PoolCall → Session Unit → Session Unit → Prop
  | nil {s : Session Unit} : Plays [] s s
  | cons {s s₁ s' : Session Unit} {call : PoolCall} {earlier : List PoolCall}
      (hearlier : Plays earlier s s₁) (hcall : PlaysCall call s₁ s') :
      Plays (call :: earlier) s s'

/-- The pool finds no frame for the call. -/
def NoFrame (call : PoolCall) (s : Session Unit) : Prop :=
  (∃ id s', call = .newPage id ∧ (ClientOp.newPage ()).run s = .ok (.newPage none, s')) ∨
    ∃ id s', call = .fetchPage id ∧ (ClientOp.fetchPage () id).run s = .ok (.page none, s')

theorem ClientOp.clients_of_run {op : ClientOp Unit} {s s' : Session Unit} {r : PoolResult}
    (hrun : op.run s = .ok (r, s')) : s'.clients = op.note r s.clients := by
  have hwp : wp op.run (fun r' t => r' = r ∧ t = s') s := ⟨r, s', hrun, rfl, rfl⟩
  rw [ClientOp.wp_run] at hwp
  obtain ⟨r', b, -, rfl, rfl⟩ := hwp
  rfl

theorem ClientOp.newPage_result {s s' : Session Unit} {r : PoolResult}
    (hrun : (ClientOp.newPage ()).run s = .ok (r, s')) : ∃ x, r = .newPage x := by
  have hwp : wp (ClientOp.newPage ()).run (fun r' _ => r' = r) s := ⟨r, s', hrun, rfl⟩
  rw [ClientOp.wp_run] at hwp
  change wp (PoolResult.newPage <$> BufferPoolManager.newPage) _ _ at hwp
  rw [wp_map] at hwp
  obtain ⟨x, -, -, hx⟩ := hwp
  exact ⟨x, hx.symm⟩

theorem ClientOp.fetchPage_result {s s' : Session Unit} {id : PageId} {r : PoolResult}
    (hrun : (ClientOp.fetchPage () id).run s = .ok (r, s')) : ∃ x, r = .page x := by
  have hwp : wp (ClientOp.fetchPage () id).run (fun r' _ => r' = r) s := ⟨r, s', hrun, rfl⟩
  rw [ClientOp.wp_run] at hwp
  change wp (PoolResult.page <$> BufferPoolManager.fetchPage id) _ _ at hwp
  rw [wp_map] at hwp
  obtain ⟨x, -, -, hx⟩ := hwp
  exact ⟨x, hx.symm⟩

namespace DirtyUse

/-- The pool knows of every page what the recorded calls say. -/
structure Agrees (u : DirtyUse) (s : Session Unit) : Prop where
  transparent : Transparent s
  next : s.pool.disk.nextPageId = u.next
  pins : ∀ id, (s.clients id).holders.length = u.pins id
  changed : ∀ id, (s.clients id).changed () = u.changed id
  removed : ∀ id, (s.clients id).deleted = u.removed id
  fresh : ∀ id, u.next ≤ id → u.pins id = 0 ∧ u.changed id = false ∧ u.removed id = false

namespace Agrees

variable {u u' : DirtyUse} {s s' : Session Unit} {id : PageId}

theorem exists_holder (h : u.Agrees s) (hpos : 0 < u.pins id) :
    ∃ tar, ((), tar) ∈ (s.clients id).holders := by
  rw [← h.pins id] at hpos
  obtain ⟨⟨⟨⟩, tar⟩, hmem⟩ := List.exists_mem_of_length_pos hpos
  exact ⟨tar, hmem⟩

/-- The page may be unpinned: it has been changed and is unpinned as
dirty, or is held once more. -/
theorem owes (h : u.Agrees s) {isDirty : Bool}
    (hallowed : u.changed id = true → isDirty = true ∨ 1 < u.pins id)
    (hchanged : (s.clients id).changed () = true) :
    isDirty = true ∨ ∃ tar, ((), tar) ∈ (s.clients id).holders.eraseP (·.1 = ()) := by
  rw [h.changed] at hchanged
  refine (hallowed hchanged).imp_right fun htwo => ?_
  rw [← h.pins id] at htwo
  have hlen : ((s.clients id).holders.eraseP (·.1 = ())).length =
      (s.clients id).holders.length - 1 := by
    obtain ⟨x, hx⟩ := List.exists_mem_of_length_pos (Nat.zero_lt_of_lt htwo)
    exact List.length_eraseP_of_mem hx (by simp)
  obtain ⟨⟨⟨⟩, tar⟩, hmem⟩ := List.exists_mem_of_length_pos
    (show 0 < ((s.clients id).holders.eraseP (·.1 = ())).length by omega)
  exact ⟨tar, hmem⟩

theorem exists_call (h : u.Agrees s) {call : PoolCall} (hstep : u.step call = some u') :
    (∃ s', PlaysCall call s s') ∨ NoFrame call s := by
  cases call with
  | newPage id =>
      obtain ⟨r, s', hrun, -, hnew⟩ := ClientOp.wp_newPage h.transparent ()
      obtain ⟨x, rfl⟩ := ClientOp.newPage_result hrun
      cases x with
      | none => exact Or.inr (Or.inl ⟨id, s', rfl, hrun⟩)
      | some new =>
          obtain ⟨id', tar⟩ := new
          obtain ⟨hid', -⟩ := hnew id' tar rfl
          simp only [DirtyUse.step] at hstep
          split at hstep
          · rename_i heq
            have hsame : id' = id := by rw [hid', h.next, heq]
            exact Or.inl ⟨s', .newPage (hsame ▸ hrun)⟩
          · cases hstep
  | fetchPage id =>
      simp only [DirtyUse.step] at hstep
      split at hstep
      · rename_i hallowed
        have hop : (ClientOp.fetchPage () id).Allowed s :=
          ⟨hallowed.1, h.next ▸ hallowed.2.1, (h.removed id).trans hallowed.2.2⟩
        obtain ⟨r, s', hrun, -⟩ := ClientOp.wp_fetchPage h.transparent () hop
        obtain ⟨x, rfl⟩ := ClientOp.fetchPage_result hrun
        cases x with
        | none => exact Or.inr (Or.inr ⟨id, s', rfl, hrun⟩)
        | some tar => exact Or.inl ⟨s', .fetchPage hrun⟩
      · cases hstep
  | unpinPage id isDirty =>
      simp only [DirtyUse.step] at hstep
      split at hstep
      · rename_i hallowed
        obtain ⟨r, s', hrun, -⟩ := ClientOp.wp_unpinPage h.transparent
          (h.exists_holder hallowed.1) (h.owes hallowed.2)
        exact Or.inl ⟨s', .unpinPage hrun⟩
      · cases hstep
  | deletePage id =>
      have hdelete : wp (ClientOp.deletePage id).run _ _ := ClientOp.wp_deletePage h.transparent
      obtain ⟨r, s', hrun, -⟩ := hdelete
      exact Or.inl ⟨s', .deletePage hrun⟩
  | store id =>
      simp only [DirtyUse.step] at hstep
      split at hstep
      · rename_i hpos
        obtain ⟨tar, hheld⟩ := h.exists_holder hpos
        obtain ⟨r, s', hrun, -⟩ := ClientOp.wp_write (g := fun data => data) h.transparent hheld
        exact Or.inl ⟨s', .store hheld hrun⟩
      · cases hstep
  | lock => exact Or.inl ⟨s, .lock⟩
  | unlock => exact Or.inl ⟨s, .unlock⟩
  | lockRoot => exact Or.inl ⟨s, .lockRoot⟩
  | unlockRoot => exact Or.inl ⟨s, .unlockRoot⟩

theorem of_update (h : u.Agrees s) {v : PageUse Unit} (htransparent : Transparent s')
    (hclients : s'.clients = Function.update s.clients id v)
    (hnext : s'.pool.disk.nextPageId = u'.next) (hle : u.next ≤ u'.next) (hid : id < u'.next)
    (hself : v.holders.length = u'.pins id ∧ v.changed () = u'.changed id ∧
      v.deleted = u'.removed id)
    (hother : ∀ y, y ≠ id → u'.pins y = u.pins y ∧ u'.changed y = u.changed y ∧
      u'.removed y = u.removed y) : u'.Agrees s' := by
  refine ⟨htransparent, hnext, fun y => ?_, fun y => ?_, fun y => ?_, fun y hy => ?_⟩
  · by_cases hyid : y = id
    · rw [hclients, hyid, Function.update_self, hself.1]
    · rw [hclients, Function.update_of_ne hyid, h.pins, (hother y hyid).1]
  · by_cases hyid : y = id
    · rw [hclients, hyid, Function.update_self, hself.2.1]
    · rw [hclients, Function.update_of_ne hyid, h.changed, (hother y hyid).2.1]
  · by_cases hyid : y = id
    · rw [hclients, hyid, Function.update_self, hself.2.2]
    · rw [hclients, Function.update_of_ne hyid, h.removed, (hother y hyid).2.2]
  · have hyid : y ≠ id := by
      rintro rfl
      exact absurd hid (not_lt.mpr hy)
    obtain ⟨hpins, hchanged, hremoved⟩ := hother y hyid
    rw [hpins, hchanged, hremoved]
    exact h.fresh y (hle.trans hy)

theorem lt_next (h : u.Agrees s) (hpos : 0 < u.pins id) : id < u.next := by
  by_contra hle
  rw [(h.fresh id (not_lt.mp hle)).1] at hpos
  exact absurd hpos (lt_irrefl _)

theorem step (h : u.Agrees s) {call : PoolCall} (hstep : u.step call = some u')
    (hcall : PlaysCall call s s') : u'.Agrees s' := by
  cases hcall with
  | @newPage _ _ id tar hrun =>
      obtain ⟨htransparent, hnew⟩ := wp_of_ok (ClientOp.wp_newPage h.transparent ()) hrun
      obtain ⟨-, hnext⟩ := hnew id tar rfl
      simp only [DirtyUse.step] at hstep
      split at hstep
      · rename_i heq
        cases hstep
        obtain ⟨hpins, hchanged, hremoved⟩ := h.fresh id heq.ge
        refine h.of_update htransparent (ClientOp.clients_of_run hrun) ?_ ?_ ?_ ?_ ?_
        · rw [hnext, heq]
        · exact (Int.lt_succ _).le
        · rw [heq]
          exact Int.lt_succ _
        · refine ⟨?_, hchanged.symm, hremoved.symm⟩
          simp [addPin, hpins]
        · exact fun y hy => ⟨Function.update_of_ne hy _ _, rfl, rfl⟩
      · cases hstep
  | @fetchPage _ _ id tar hrun =>
      simp only [DirtyUse.step] at hstep
      split at hstep
      · rename_i hallowed
        cases hstep
        have hop : (ClientOp.fetchPage () id).Allowed s :=
          ⟨hallowed.1, h.next ▸ hallowed.2.1, (h.removed id).trans hallowed.2.2⟩
        obtain ⟨htransparent, hnext, -⟩ :=
          wp_of_ok (ClientOp.wp_fetchPage h.transparent () hop) hrun
        refine h.of_update htransparent (ClientOp.clients_of_run hrun) (hnext.trans h.next)
          le_rfl hallowed.2.1 ?_ fun y hy => ⟨Function.update_of_ne hy _ _, rfl, rfl⟩
        refine ⟨?_, h.changed id, h.removed id⟩
        simp [addPin, h.pins]
      · cases hstep
  | @unpinPage _ _ id isDirty r hrun =>
      simp only [DirtyUse.step] at hstep
      split at hstep
      · rename_i hallowed
        cases hstep
        obtain ⟨tar, hmem⟩ := h.exists_holder hallowed.1
        obtain ⟨htransparent, hnext, rfl⟩ := wp_of_ok (ClientOp.wp_unpinPage h.transparent
          ⟨tar, hmem⟩ (h.owes hallowed.2)) hrun
        refine h.of_update htransparent (ClientOp.clients_of_run hrun) (hnext.trans h.next)
          le_rfl (h.lt_next hallowed.1) ⟨?_, ?_, h.removed id⟩ fun y hy => ?_
        · change ((s.clients id).holders.eraseP _).length =
            Function.update u.pins id (u.pins id - 1) id
          rw [Function.update_self, ← h.pins id]
          exact List.length_eraseP_of_mem hmem (by simp)
        · cases isDirty <;> simp [h.changed]
        · refine ⟨Function.update_of_ne hy _ _, ?_, rfl⟩
          cases isDirty <;> simp [hy]
      · cases hstep
  | @deletePage _ _ id r hrun =>
      obtain ⟨htransparent, hnext, rfl⟩ := wp_of_ok (ClientOp.wp_deletePage h.transparent) hrun
      have hclients := ClientOp.clients_of_run hrun
      simp only [DirtyUse.step] at hstep
      split at hstep
      · rename_i hlt
        cases hstep
        split
        · rename_i hzero
          rw [List.eq_nil_of_length_eq_zero ((h.pins id).trans hzero)] at hclients
          refine h.of_update htransparent hclients (hnext.trans h.next) le_rfl hlt
            ⟨h.pins id, h.changed id, by simp⟩ fun y hy => ?_
          exact ⟨rfl, rfl, Function.update_of_ne hy _ _⟩
        · rename_i hpos
          have hheld : (s.clients id).holders.isEmpty = false := by
            rw [List.isEmpty_eq_false_iff]
            intro hnil
            rw [← h.pins id, hnil] at hpos
            exact hpos rfl
          rw [hheld] at hclients
          have hsame : s'.clients = Function.update s.clients id (s.clients id) := by
            rw [Function.update_eq_self]
            exact hclients
          exact h.of_update htransparent hsame (hnext.trans h.next) le_rfl hlt
            ⟨h.pins id, h.changed id, h.removed id⟩ fun y _ => ⟨rfl, rfl, rfl⟩
      · cases hstep
  | @store _ _ id tar g r hheld hrun =>
      obtain ⟨htransparent, hnext⟩ := wp_of_ok (ClientOp.wp_write h.transparent hheld) hrun
      simp only [DirtyUse.step] at hstep
      split at hstep
      · rename_i hpos
        cases hstep
        refine h.of_update htransparent (ClientOp.clients_of_run hrun) (hnext.trans h.next)
          le_rfl (h.lt_next hpos) ⟨h.pins id, by simp, h.removed id⟩ fun y hy => ?_
        exact ⟨rfl, Function.update_of_ne hy _ _, rfl⟩
      · cases hstep
  | lock | unlock | lockRoot | unlockRoot =>
      cases hstep
      exact h

/-- Recorded calls do to the pool what the record says. -/
theorem plays (h : u.Agrees s) {calls : List PoolCall} (hreplay : u.replay calls = some u')
    (hplays : Plays calls s s') : u'.Agrees s' := by
  induction hplays generalizing u' with
  | nil =>
      cases hreplay
      exact h
  | cons _ hcall ih =>
      obtain ⟨v, hv, hstep⟩ := replay_cons hreplay
      exact (ih h hv).step hstep hcall

end Agrees

end DirtyUse

theorem PlaysCall.bytes {s s' : Session Unit} {call : PoolCall} {id : PageId}
    (h : PlaysCall call s s') (hstore : call ≠ .store id) (hnew : call ≠ .newPage id) :
    (s'.clients id).bytes = (s.clients id).bytes := by
  have hupdate : ∀ y (v : PageUse Unit), (y = id → v.bytes = (s.clients id).bytes) →
      (Function.update s.clients y v id).bytes = (s.clients id).bytes := by
    intro y v hv
    by_cases hy : id = y
    · subst hy
      rw [Function.update_self, hv rfl]
    · rw [Function.update_of_ne hy]
  cases h with
  | @newPage _ _ y tar hrun =>
      rw [ClientOp.clients_of_run hrun]
      exact hupdate y _ fun hy => absurd (by rw [hy]) hnew
  | @fetchPage _ _ y tar hrun =>
      rw [ClientOp.clients_of_run hrun]
      exact hupdate y _ fun hy => by rw [hy]
  | @unpinPage _ _ y isDirty r hrun =>
      rw [ClientOp.clients_of_run hrun]
      cases r with
      | success b =>
          cases b with
          | false => rfl
          | true => exact hupdate y _ fun hy => by rw [hy]
      | page | newPage | unit => rfl
  | @deletePage _ _ y r hrun =>
      rw [ClientOp.clients_of_run hrun]
      cases r with
      | success b =>
          cases b with
          | false => rfl
          | true => exact hupdate y _ fun hy => by rw [hy]
      | page | newPage | unit => rfl
  | @store _ _ y tar g r hheld hrun =>
      rw [ClientOp.clients_of_run hrun]
      exact hupdate y _ fun hy => absurd (by rw [hy]) hstore
  | lock | unlock | lockRoot | unlockRoot => rfl

theorem Plays.bytes {calls : List PoolCall} {s s' : Session Unit} {id : PageId}
    (h : Plays calls s s') (hstore : .store id ∉ calls) (hnew : .newPage id ∉ calls) :
    (s'.clients id).bytes = (s.clients id).bytes := by
  induction h with
  | nil => rfl
  | cons _ hcall ih =>
      rw [List.mem_cons, not_or] at hstore hnew
      rw [hcall.bytes (Ne.symm hstore.1) (Ne.symm hnew.1), ih hstore.2 hnew.2]

/-! ### A tree in the pool -/

namespace BPlusTree

variable {K V B : Type}

/-- The pool has the pages of the tree and the header page, in frames or
on the disk, and no page is pinned. -/
structure StoredIn (enc : TreePage K V → PageData) (encHeader : HeaderPage → PageData)
    (t : BPlusTree K V) (s : Session Unit) : Prop where
  transparent : Transparent s
  next : s.pool.disk.nextPageId = t.nextPageId
  unpinned : ∀ id, (s.clients id).holders = []
  fresh : ∀ id, t.nextPageId ≤ id → (s.clients id).deleted = false
  page : ∀ id page, t.pages id = some page →
    (s.clients id).deleted = false ∧ (s.clients id).bytes = enc page
  header : (s.clients headerPageId).deleted = false ∧
    (s.clients headerPageId).bytes = encHeader t.headerPage

/-- What an operation that recorded the calls `recent` has done for the
pages it changed. Every change is a recorded store, and every page is
unpinned as dirty after its last one. A replay of the calls on the pool
does not stop but for want of a frame. After it, a page that gives up its
frame is on the disk as it is in the tree, if the stores to a page have
left in it what the tree has. -/
structure WrittenBack (recent : List PoolCall) (t t' : BPlusTree K V) : Prop where
  calls : t'.calls = recent ++ t.calls
  stores : ∀ id page, t'.pages id = some page → t.pages id = some page ∨ .store id ∈ recent
  headerStores : t'.headerPage = t.headerPage ∨ .store headerPageId ∈ recent
  unpins : ∀ id, .store id ∈ recent →
    ∃ later earlier, recent = later ++ .unpinPage id true :: earlier ∧ .store id ∉ later
  goesOn : ∀ later call earlier, recent = later ++ call :: earlier → ∀ enc encHeader s s',
    StoredIn enc encHeader t s → Plays earlier s s' →
      (∃ s'', PlaysCall call s' s'') ∨ NoFrame call s'
  stored : ∀ enc encHeader s s', StoredIn enc encHeader t s → Plays recent s s' →
    (∀ id page, t'.pages id = some page → .store id ∈ recent →
      (s'.clients id).bytes = enc page) →
    (.store headerPageId ∈ recent → (s'.clients headerPageId).bytes = encHeader t'.headerPage) →
    StoredIn enc encHeader t' s' ∧ ∀ ids,
      (∀ id page, t'.pages id = some page → id ∈ ids →
        (s'.pool.cache.evictAll ids).disk id = enc page) ∧
      (headerPageId ∈ ids →
        (s'.pool.cache.evictAll ids).disk headerPageId = encHeader t'.headerPage)

/-- The pool in which a tree is stored is where a replay starts. -/
theorem StoredIn.agrees {enc : TreePage K V → PageData} {encHeader : HeaderPage → PageData}
    {t : BPlusTree K V} {s : Session Unit} (h : StoredIn enc encHeader t s) :
    (DirtyUse.start (fun id => (s.clients id).deleted) t.nextPageId).Agrees s where
  transparent := h.transparent
  next := h.next
  pins id := by
    rw [h.unpinned id]
    rfl
  changed id := (h.transparent.page id).unchanged (h.unpinned id) ()
  removed _ := rfl
  fresh id hid := ⟨rfl, rfl, h.fresh id hid⟩

/-- Before an operation nothing is owed. -/
theorem Sound.kept {t : BPlusTree K V} (h : Sound t) (removed : PageId → Bool)
    (hremoved : ∀ y, removed y = true →
      y ≠ headerPageId ∧ y < t.nextPageId ∧ t.pages y = none) :
    Kept (DirtyUse.start removed t.nextPageId) t (fun _ => 0) [] [] t where
  toSound := h
  pinned y hy := nomatch hy
  bounds y hy := nomatch hy
  ledger := by
    refine ⟨_, .refl _ _, ⟨fun y => rfl, fun y hy => nomatch hy⟩, rfl, fun y hy => ?_⟩
    obtain ⟨hne, hlt, hnone⟩ := hremoved y hy
    exact ⟨hne, hlt, hnone, rfl⟩
  logged := .refl t

/-- After an operation nothing is owed, so its pages are written back. -/
theorem Kept.writtenBack {t t' : BPlusTree K V} (hsound : Sound t)
    (h : ∀ removed : PageId → Bool,
      (∀ y, removed y = true → y ≠ headerPageId ∧ y < t.nextPageId ∧ t.pages y = none) →
      Kept (DirtyUse.start removed t.nextPageId) t (fun _ => 0) [] [] t') :
    ∃ recent, WrittenBack recent t t' := by
  obtain ⟨recent, hcalls, hstores, hheader⟩ := (h (fun _ => false) fun _ hy => nomatch hy).logged
  have hreplay : ∀ removed : PageId → Bool,
      (∀ y, removed y = true → y ≠ headerPageId ∧ y < t.nextPageId ∧ t.pages y = none) →
      ∃ u, (DirtyUse.start removed t.nextPageId).replay recent = some u ∧
        (∀ y, u.pins y = 0) ∧ (∀ y, u.changed y = false) ∧ u.next = t'.nextPageId ∧
        ∀ y, u.removed y = true → y ≠ headerPageId ∧ t'.pages y = none := by
    intro removed hremoved
    obtain ⟨u, ⟨recent', hcalls', hrun⟩, hcover, hnext, hgone⟩ := (h removed hremoved).ledger
    rw [hcalls] at hcalls'
    obtain rfl := List.append_cancel_right hcalls'
    refine ⟨u, hrun, hcover.pins, fun y => ?_, hnext, fun y hy => ?_⟩
    · cases hy : u.changed y with
      | false => rfl
      | true =>
          rcases hcover.changed y hy with hmem | hmem
          · cases hmem
          · cases hmem
    · exact ⟨(hgone y hy).1, (hgone y hy).2.2.1⟩
  have hstart : ∀ {enc encHeader} {s : Session Unit}, StoredIn enc encHeader t s →
      ∀ y, (s.clients y).deleted = true →
        y ≠ headerPageId ∧ y < t.nextPageId ∧ t.pages y = none := by
    intro enc encHeader s hs y hy
    refine ⟨?_, ?_, ?_⟩
    · rintro rfl
      rw [hs.header.1] at hy
      cases hy
    · by_contra hlt
      rw [hs.fresh y (not_lt.mp hlt)] at hy
      cases hy
    · cases hpage : t.pages y with
      | none => rfl
      | some page =>
          rw [(hs.page y page hpage).1] at hy
          cases hy
  refine ⟨recent, hcalls, hstores, hheader, ?_, ?_, ?_⟩
  · intro id hstore
    obtain ⟨u, hrun, -, hchanged, -⟩ := hreplay (fun _ => false) fun _ hy => nomatch hy
    exact DirtyUse.exists_unpin_dirty hrun hstore (hchanged id)
  · rintro later call earlier rfl enc encHeader s s' hs hplays
    obtain ⟨u, hrun, -⟩ := hreplay _ (hstart hs)
    obtain ⟨v, hv⟩ := DirtyUse.replay_suffix hrun
    obtain ⟨w, hw, hstep⟩ := DirtyUse.replay_cons hv
    exact (hs.agrees.plays hw hplays).exists_call hstep
  · intro enc encHeader s s' hs hplays hbytes hbytesHeader
    obtain ⟨u, hrun, hpins, -, hnext, hgone⟩ := hreplay _ (hstart hs)
    have hagrees := hs.agrees.plays hrun hplays
    have hlive : ∀ id, (id = headerPageId ∨ t'.pages id ≠ none) →
        (s'.clients id).deleted = false := by
      intro id hid
      rw [hagrees.removed]
      cases hr : u.removed id with
      | false => rfl
      | true =>
          obtain ⟨hne, hnone⟩ := hgone id hr
          exact absurd hid (not_or.mpr ⟨hne, not_not.mpr hnone⟩)
    -- a page the operation has not stored to has been there before
    have hsame : ∀ id, id < t.nextPageId → .store id ∉ recent →
        (s'.clients id).bytes = (s.clients id).bytes := by
      intro id hlt hstore
      refine hplays.bytes hstore fun hnew => ?_
      exact absurd hlt (not_lt.mpr ((DirtyUse.next_le_of_replay hrun).2 hnew))
    have hstored : StoredIn enc encHeader t' s' := by
      refine ⟨hagrees.transparent, hagrees.next.trans hnext, fun id => ?_, fun id hid => ?_,
        fun id page hpage => ⟨hlive id (Or.inr (by simp [hpage])), ?_⟩,
        hlive headerPageId (Or.inl rfl), ?_⟩
      · exact List.eq_nil_of_length_eq_zero ((hagrees.pins id).trans (hpins id))
      · rw [hagrees.removed]
        exact (hagrees.fresh id (hnext ▸ hid)).2.2
      · by_cases hstore : .store id ∈ recent
        · exact hbytes id page hpage hstore
        · have hold := (hstores id page hpage).resolve_right hstore
          rw [hsame id (hsound.allocated id page hold).2 hstore]
          exact (hs.page id page hold).2
      · by_cases hstore : .store headerPageId ∈ recent
        · exact hbytesHeader hstore
        · rw [hsame headerPageId hsound.next hstore, hheader.resolve_right hstore]
          exact hs.header.2
    refine ⟨hstored, fun ids => ⟨fun id page hpage hid => ?_, fun hid => ?_⟩⟩
    · obtain ⟨hdel, henc⟩ := hstored.page id page hpage
      rw [Cache.disk_evictAll hid, hstored.transparent.disk_evict (hstored.unpinned id) hdel, henc]
    · obtain ⟨hdel, henc⟩ := hstored.header
      rw [Cache.disk_evictAll hid,
        hstored.transparent.disk_evict (hstored.unpinned headerPageId) hdel, henc]

end BPlusTree

/-! ### Runs -/

section Runs

variable {K V B : Type} [LinearOrder B] [BoundedOrder B] [Inhabited K] [DecidableEq K]
  [Inhabited V]

/-- The calls that leave the tree as it is. -/
def IndexOp.isQuery : IndexOp K V → Bool
  | .getValue _ _ _ => true
  | _ => false

omit [DecidableEq K] in
/-- An insertion or a removal owes nothing in the end. -/
theorem IndexOp.wlp_kept (params : IndexParams K) {u₀ : DirtyUse} {extra : PageId → Nat}
    {t₀ t : BPlusTree K V} (op : IndexOp K V) (hop : op.isQuery = false)
    (h : BPlusTree.Kept u₀ t₀ extra [] [] t) (hset : t.pageSet = []) :
    wlp (op.run params) (fun _ s => BPlusTree.Kept u₀ t₀ extra [] [] s) t := by
  have h' : BPlusTree.Kept u₀ t₀ extra [] t.pageSet t := by
    rw [hset]
    exact h
  cases op with
  | insert key value =>
      rw [IndexOp.run, wlp_bind]
      refine wlp_mono (h'.wlp_insert params key value hset) ?_
      rintro _ s ⟨hs, hsset⟩
      rw [wlp_pure]
      exact hsset ▸ hs
  | remove key =>
      rw [IndexOp.run, wlp_bind]
      refine wlp_mono (h'.wlp_remove params key hset) ?_
      rintro _ s ⟨hs, hsset⟩
      rw [wlp_pure]
      exact hsset ▸ hs
  | getValue key result transaction => cases hop

/-- The pages of a tree stay those that have been allocated. -/
theorem IndexOp.refines_sound (ω : OrderedIndex K B) :
    Refines (fun (t : BPlusTree K V) m => BPlusTree.Represents ω False m t ∧ t.Sound)
      (fun op _ => op.key ∈ ω.keys) (IndexOp.run ω.toIndexParams) IndexOp.spec := by
  rintro op t m ⟨h, hsound⟩ hkey
  cases hop : op.isQuery with
  | false =>
      have hkept := op.wlp_kept ω.toIndexParams hop (hsound.kept (fun _ => false) (by simp))
        h.pageSet
      refine wp_mono (wp_and_wlp (IndexOp.refines ω op t m h hkey) hkept) ?_
      rintro r t' ⟨⟨hr, ht'⟩, hkept'⟩
      exact ⟨hr, ht', hkept'.toSound⟩
  | true =>
      cases op with
      | insert key value => cases hop
      | remove key => cases hop
      | getValue key result transaction =>
          have hpages : wp ((IndexOp.getValue key result transaction).run ω.toIndexParams)
              (fun _ t' => t'.pages = t.pages ∧ t'.nextPageId = t.nextPageId) t := by
            rw [IndexOp.run, wp_bind]
            refine wp_mono (BPlusTree.wp_getValue_pages h hkey result transaction) ?_
            rintro _ t' ⟨-, hpages, hnext, -⟩
            exact wp_pure.mpr ⟨hpages, hnext⟩
          refine wp_mono (wp_and (IndexOp.refines ω _ t m h hkey) hpages) ?_
          rintro r t' ⟨⟨hr, ht'⟩, hpages, hnext⟩
          refine ⟨hr, ht', ?_, ?_, ?_⟩
          · rw [hpages]
            exact hsound.named
          · rw [hpages, hnext]
            exact hsound.allocated
          · rw [hnext]
            exact hsound.next

/-- An insertion or a removal in any state a run of calls leads to leaves
no page modified and clean. -/
theorem tree_written_back (params : IndexParams K) (S : Set K)
    (hcmp : StrictTotalOrderOn params.comparator S) (hname : params.indexName.length < 32)
    (header : HeaderPage) (hroom : header.recorded params.indexName = none →
      header.getRecordCount < HeaderPage.capacity)
    (next : PageId) (hnext : 1 ≤ next) (ops : List (IndexOp K V))
    (hkeys : ∀ op ∈ ops, op.key ∈ S) (op : IndexOp K V) (hop : op.isQuery = false)
    (hkey : op.key ∈ S) :
    ∃ rs t r t', runAll (IndexOp.run params) ops (BPlusTree.empty header next) = .ok (rs, t) ∧
      op.run params t = .ok (r, t') ∧ ∃ recent, BPlusTree.WrittenBack recent t t' := by
  obtain ⟨B, hB, hB', ω, rfl, rfl⟩ := exists_orderedIndex params hcmp hname
  have hstart := BPlusTree.represents_empty (V := V) ω hnext hroom
  have hempty : (BPlusTree.empty header next : BPlusTree K V).Sound := by
    refine ⟨fun _ _ hpage => (nomatch hpage), fun _ _ hpage => (nomatch hpage), ?_⟩
    exact Int.lt_of_lt_of_le Int.one_pos hnext
  obtain ⟨rs, t, hrun, -, ht, hsound⟩ := (IndexOp.refines_sound ω).run ⟨hstart, hempty⟩
    (admissible_of_forall (fun op hop _ => hkeys op hop) _)
  obtain ⟨r, t', hrun', -⟩ := IndexOp.refines ω op t _ ht hkey
  refine ⟨rs, t, r, t', hrun, hrun', BPlusTree.Kept.writtenBack hsound fun removed hremoved => ?_⟩
  exact op.wlp_kept ω.toIndexParams hop (hsound.kept removed hremoved) ht.pageSet r t' hrun'

/-- The removal merges two leaves. -/
theorem tree_written_back_integers :
    ∃ rs t r t', runAll (IndexOp.run wideIndex) (splitsAndMerges (10 : Nat))
        (BPlusTree.empty HeaderPage.init 1) = .ok (rs, t) ∧
      (IndexOp.remove 11).run wideIndex t = .ok (r, t') ∧
      ∃ recent, BPlusTree.WrittenBack recent t t' :=
  tree_written_back wideIndex Set.univ strictTotalOrderOn_sub (by decide) HeaderPage.init
    (fun _ => by decide) 1 (by decide) _ (fun _ _ => Set.mem_univ _) _ rfl (Set.mem_univ _)

end Runs

end ScuDb
