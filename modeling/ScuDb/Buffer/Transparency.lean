import ScuDb.Buffer.PoolInvariant

/-!
Clients of the buffer pool do not notice which pages are in frames.

Next to the pool runs a record of what its clients did: for every page
the bytes they have put into it, who holds it and through which pointer,
and who has changed it without having unpinned it as dirty. The clients
keep to the rules of the interface (`Allowed`). `PageOk` relates one page
of the pool and its bytes on disk to the record, and every operation
keeps it for every page: for the page it is about by a lemma of its own,
for a page that is evicted on the way by `PageOk.evict`, for all others
because nothing of them changes.
-/

namespace ScuDb

open Foundations

/-- What the clients have done with a page. -/
structure PageUse (C : Type) where
  bytes : PageData
  released : PageData
  holders : List (C × Nat)
  changed : C → Bool
  deleted : Bool

/-- A page nobody has used. -/
def PageUse.unused {C : Type} : PageUse C where
  bytes := PageData.zero
  released := PageData.zero
  holders := []
  changed := fun _ => false
  deleted := false

/-- The buffer pool and what its clients have done. -/
structure Session (C : Type) where
  pool : BufferPoolManager
  clients : PageId → PageUse C

/-- A call by a client, or a client that writes through the pointer `tar`
to a page it holds. -/
inductive ClientOp (C : Type)
  | newPage (c : C)
  | fetchPage (c : C) (id : PageId)
  | unpinPage (c : C) (id : PageId) (isDirty : Bool)
  | flushPage (id : PageId)
  | deletePage (id : PageId)
  | write (c : C) (id : PageId) (tar : Nat) (g : PageData → PageData)

namespace ClientOp

variable {C : Type} [DecidableEq C]

/-- The call of the pool. -/
def call : ClientOp C → PoolOp
  | .newPage _ => .newPage
  | .fetchPage _ id => .fetchPage id
  | .unpinPage _ id isDirty => .unpinPage id isDirty
  | .flushPage id => .flushPage id
  | .deletePage id => .deletePage id
  | .write _ _ tar g => .write tar g

/-- The record after a call that returned a result. -/
def note (op : ClientOp C) (r : PoolResult) (u : PageId → PageUse C) : PageId → PageUse C :=
  match op, r with
  | .newPage c, .newPage (some (id, tar)) =>
      Function.update u id { PageUse.unused with holders := [(c, tar)] }
  | .fetchPage c id, .page (some tar) =>
      Function.update u id { u id with holders := (c, tar) :: (u id).holders }
  | .unpinPage c id isDirty, .success true =>
      Function.update u id { u id with
        holders := (u id).holders.eraseP (·.1 = c)
        changed := fun c' => if c' = c ∧ isDirty then false else (u id).changed c'
        released := (u id).bytes }
  | .deletePage id, .success true => Function.update u id { u id with deleted := true }
  | .write c id _ g, _ =>
      Function.update u id { u id with
        bytes := g (u id).bytes
        changed := fun c' => if c' = c then true else (u id).changed c' }
  | _, _ => u

/-- Execute a call and record it. -/
def run (op : ClientOp C) : Program Fault (Session C) PoolResult := fun s => do
  let (r, pool) ← op.call.run s.pool
  pure (r, ⟨pool, op.note r s.clients⟩)

/-- The rules clients keep to: they fetch pages that have been allocated
and not deleted, they unpin pages they hold, as dirty when they have
changed them since, and they write into pages while they hold them. -/
def Allowed : ClientOp C → Session C → Prop
  | .fetchPage _ id, s =>
      0 ≤ id ∧ id < s.pool.disk.nextPageId ∧ (s.clients id).deleted = false
  | .unpinPage c id isDirty, s =>
      (∃ tar, (c, tar) ∈ (s.clients id).holders) ∧
        ((s.clients id).changed c = true → isDirty = true)
  | .write c id tar _, s => (c, tar) ∈ (s.clients id).holders
  | _, _ => True

instance : (op : ClientOp C) → (s : Session C) → Decidable (op.Allowed s)
  | .fetchPage _ _, _ => inferInstanceAs (Decidable (_ ∧ _ ∧ _))
  | .unpinPage c id isDirty, s =>
      decidable_of_iff ((∃ held ∈ (s.clients id).holders, held.1 = c) ∧
          ((s.clients id).changed c = true → isDirty = true))
        (and_congr_left' ⟨fun ⟨held, hmem, heq⟩ => ⟨held.2, heq ▸ hmem⟩,
          fun ⟨_, hmem⟩ => ⟨_, hmem, rfl⟩⟩)
  | .write _ _ _ _, _ => inferInstanceAs (Decidable (_ ∈ _))
  | .newPage _, _ | .flushPage _, _ | .deletePage _, _ => isTrue trivial

theorem wp_run {op : ClientOp C} {Q : PoolResult → Session C → Prop} {s : Session C} :
    wp op.run Q s ↔ wp op.call.run (fun r b => Q r ⟨b, op.note r s.clients⟩) s.pool := by
  have hbind : op.run s = (op.call.run s.pool >>= fun p =>
      pure (p.1, ⟨p.2, op.note p.1 s.clients⟩)) := rfl
  constructor
  · rintro ⟨r, s', hrun, hq⟩
    rw [hbind] at hrun
    cases hcall : op.call.run s.pool with
    | error e => rw [hcall] at hrun; cases hrun
    | ok p =>
        rw [hcall] at hrun
        cases hrun
        exact ⟨p.1, p.2, hcall, hq⟩
  · rintro ⟨r, b, hcall, hq⟩
    refine ⟨r, ⟨b, op.note r s.clients⟩, ?_, hq⟩
    rw [hbind, hcall]
    rfl

end ClientOp

variable {C : Type} {fr fr' : Option Nat} {page : Option Page} {p : Page} {disk : PageData}
  {u : PageUse C} {c : C} {tar : Nat}

/-- One page: the frame the page table leads to, the page in it and the
bytes on disk agree with what the clients did. -/
structure PageOk (fr : Option Nat) (page : Option Page) (disk : PageData) (u : PageUse C) :
    Prop where
  held : ∀ c tar, (c, tar) ∈ u.holders → fr = some tar
  changed : ∀ c, u.changed c = true → ∃ tar, (c, tar) ∈ u.holders
  released : u.holders = [] → u.released = u.bytes
  resident : ∀ p, page = some p → u.deleted = false ∧ p.pinCount = u.holders.length ∧
    p.data = u.bytes ∧ (p.isDirty = false → (∀ c, u.changed c = false) → disk = u.bytes)
  absent : page = none → u.holders = [] ∧ (u.deleted = false → disk = u.bytes)

namespace PageOk

theorem unused : PageOk none none PageData.zero (PageUse.unused : PageUse C) where
  held _ _ h := nomatch h
  changed _ h := nomatch h
  released _ := rfl
  resident _ h := nomatch h
  absent _ := ⟨rfl, fun _ => rfl⟩

theorem unchanged (h : PageOk fr page disk u) (hnone : u.holders = []) (c : C) :
    u.changed c = false := by
  cases hc : u.changed c with
  | false => rfl
  | true =>
      obtain ⟨tar, hmem⟩ := h.changed c hc
      rw [hnone] at hmem
      cases hmem

theorem holders_of_unpinned (h : PageOk fr (some p) disk u) (hpin : p.pinCount = 0) :
    u.holders = [] := by
  obtain ⟨-, hlen, -⟩ := h.resident p rfl
  rw [hpin] at hlen
  exact List.length_eq_zero_iff.mp (by exact_mod_cast hlen.symm)

theorem keep (h : PageOk fr page disk u)
    (hkeep : ∀ tar p, fr = some tar → page = some p → 0 < p.pinCount → fr' = some tar) :
    PageOk fr' page disk u where
  held c tar hmem := by
    cases hpage : page with
    | none =>
        rw [(h.absent hpage).1] at hmem
        cases hmem
    | some p =>
        apply hkeep tar p (h.held c tar hmem) hpage
        rw [(h.resident p hpage).2.1]
        exact_mod_cast List.length_pos_of_mem hmem
  changed := h.changed
  released := h.released
  resident := h.resident
  absent := h.absent

theorem evict (h : PageOk fr (some p) disk u) (hpin : p.pinCount = 0) :
    PageOk fr' none (if p.isDirty then p.data else disk) u := by
  have hnone := h.holders_of_unpinned hpin
  obtain ⟨-, -, hdata, hclean⟩ := h.resident p rfl
  constructor
  case held =>
    intro c tar hmem
    rw [hnone] at hmem
    cases hmem
  case changed => exact h.changed
  case released => exact h.released
  case resident => exact fun p hp => nomatch hp
  case absent =>
    refine fun _ => ⟨hnone, fun _ => ?_⟩
    split
    case isTrue => exact hdata
    case isFalse hdirty =>
      exact hclean (Bool.eq_false_iff.mpr hdirty) (h.unchanged hnone)

theorem hit (h : PageOk (some tar) (some p) disk u) (c : C) :
    PageOk (some tar) (some { p with pinCount := p.pinCount + 1 }) disk
      { u with holders := (c, tar) :: u.holders } := by
  obtain ⟨hdel, hlen, hdata, hclean⟩ := h.resident p rfl
  constructor
  case held =>
    intro c' tar' hmem
    rcases List.mem_cons.mp hmem with heq | hmem
    · cases heq
      rfl
    · exact h.held c' tar' hmem
  case changed =>
    intro c' hc'
    obtain ⟨tar', hmem⟩ := h.changed c' hc'
    exact ⟨tar', List.mem_cons_of_mem _ hmem⟩
  case released => exact fun hnone => nomatch hnone
  case resident =>
    rintro _ ⟨⟩
    refine ⟨hdel, ?_, hdata, hclean⟩
    simp [hlen]
  case absent => exact fun hnone => nomatch hnone

theorem load (h : PageOk fr none disk u) (hdel : u.deleted = false) (c : C) (id : PageId) :
    PageOk (some tar) (some ⟨disk, id, 1, false⟩) disk
      { u with holders := (c, tar) :: u.holders } := by
  obtain ⟨hnone, hdisk⟩ := h.absent rfl
  constructor
  case held =>
    intro c' tar' hmem
    rw [hnone] at hmem
    cases List.mem_singleton.mp hmem
    rfl
  case changed =>
    intro c' hc'
    rw [h.unchanged hnone] at hc'
    cases hc'
  case released => exact fun hnone => nomatch hnone
  case resident =>
    rintro _ ⟨⟩
    refine ⟨hdel, ?_, hdisk hdel, fun _ _ => hdisk hdel⟩
    simp [hnone]
  case absent => exact fun hnone => nomatch hnone

theorem create (c : C) (id : PageId) :
    PageOk (some tar) (some ⟨PageData.zero, id, 1, false⟩) PageData.zero
      { PageUse.unused with holders := [(c, tar)] } :=
  unused.load rfl c id

theorem write (h : PageOk fr (some p) disk u) (hmem : (c, tar) ∈ u.holders) [DecidableEq C]
    (g : PageData → PageData) :
    PageOk fr (some { p with data := g p.data }) disk { u with
      bytes := g u.bytes
      changed := fun c' => if c' = c then true else u.changed c' } := by
  obtain ⟨hdel, hlen, hdata, -⟩ := h.resident p rfl
  constructor
  case held => exact h.held
  case changed =>
    intro c' hc'
    by_cases heq : c' = c
    · rw [heq]
      exact ⟨tar, hmem⟩
    · have hold : u.changed c' = true := by simpa [heq] using hc'
      exact h.changed c' hold
  case released =>
    intro hnone
    have hnone' : u.holders = [] := hnone
    rw [hnone'] at hmem
    cases hmem
  case resident =>
    rintro _ ⟨⟩
    refine ⟨hdel, hlen, congrArg g hdata, fun _ hunchanged => ?_⟩
    -- the page counts as changed until its writer unpins it as dirty
    have hc := hunchanged c
    simp at hc
  case absent => exact fun hnone => nomatch hnone

/-- A client unpins a page it holds, as dirty if it has changed the page
and holds it no longer. -/
theorem unpin (h : PageOk fr (some p) disk u) (hmem : (c, tar) ∈ u.holders) [DecidableEq C]
    {isDirty : Bool} (hdirty : u.changed c = true → isDirty = true ∨
      ∃ tar', (c, tar') ∈ u.holders.eraseP (·.1 = c)) :
    PageOk fr (some { p with
        pinCount := p.pinCount - 1
        isDirty := p.isDirty || isDirty }) disk
      { u with
        holders := u.holders.eraseP (·.1 = c)
        changed := fun c' => if c' = c ∧ isDirty then false else u.changed c'
        released := u.bytes } := by
  obtain ⟨hdel, hlen, hdata, hclean⟩ := h.resident p rfl
  have hlength : (u.holders.eraseP (·.1 = c)).length = u.holders.length - 1 :=
    List.length_eraseP_of_mem hmem (by simp)
  have hpos := List.length_pos_of_mem hmem
  constructor
  case held => exact fun c' tar' hc' => h.held c' tar' (List.mem_of_mem_eraseP hc')
  case changed =>
    intro c' hc'
    have hold : (¬c' = c ∨ isDirty = false) ∧ u.changed c' = true := by simpa using hc'
    by_cases heq : c' = c
    · subst heq
      refine (hdirty hold.2).resolve_left fun htrue => ?_
      rcases hold.1 with hne | hclean
      · exact hne rfl
      · rw [htrue] at hclean
        cases hclean
    · obtain ⟨tar', htar⟩ := h.changed c' hold.2
      exact ⟨tar', (List.mem_eraseP_of_neg (by simpa using heq)).mpr htar⟩
  case released => exact fun _ => rfl
  case resident =>
    rintro _ ⟨⟩
    refine ⟨hdel, ?_, hdata, fun hd hunchanged => ?_⟩
    · show p.pinCount - 1 = ((u.holders.eraseP (·.1 = c)).length : Int)
      omega
    · obtain ⟨hd', rfl⟩ := Bool.or_eq_false_iff.mp hd
      apply hclean hd'
      intro c'
      simpa using hunchanged c'
  case absent => exact fun hnone => nomatch hnone

theorem flush (h : PageOk fr (some p) disk u) :
    PageOk fr (some { p with isDirty := false }) p.data u := by
  obtain ⟨hdel, hlen, hdata, -⟩ := h.resident p rfl
  constructor
  case held => exact h.held
  case changed => exact h.changed
  case released => exact h.released
  case resident =>
    rintro _ ⟨⟩
    exact ⟨hdel, hlen, hdata, fun _ _ => hdata⟩
  case absent => exact fun hnone => nomatch hnone

theorem delete (h : PageOk fr page disk u) (hnone : u.holders = []) :
    PageOk fr' none disk { u with deleted := true } := by
  constructor
  case held =>
    intro c tar hmem
    rw [show u.holders = [] from hnone] at hmem
    cases hmem
  case changed => exact h.changed
  case released => exact h.released
  case resident => exact fun p hp => nomatch hp
  case absent => exact fun _ => ⟨hnone, fun hdel => nomatch hdel⟩

end PageOk

/-! ### All pages -/

/-- Every page is as its clients left it. -/
structure Transparent (s : Session C) : Prop where
  pool : ∃ queue, s.pool.Consistent queue none
  page : ∀ id, PageOk (s.pool.find id) (s.pool.cache.resident id) (s.pool.cache.disk id)
    (s.clients id)
  fresh : ∀ id, s.pool.disk.nextPageId ≤ id → s.pool.disk.pages id = PageData.zero

open BufferPoolManager

theorem transparent_create (poolSize : Nat) :
    Transparent (⟨create poolSize, fun _ => PageUse.unused⟩ : Session C) where
  pool := ⟨[], consistent_create poolSize⟩
  page _ := PageOk.unused
  fresh _ _ := rfl

variable {s : Session C} {b' : BufferPoolManager} {id : PageId}

theorem Transparent.page_of_keeps (h : Transparent s) (hkeep : s.pool.Keeps b')
    (k : PageId) : PageOk (b'.find k) (s.pool.cache.resident k) (s.pool.cache.disk k)
      (s.clients k) := by
  apply (h.page k).keep
  intro tar p hframe hpage hpin
  have hp : s.pool.pages tar = p := by
    have hres : (s.pool.find k).map s.pool.pages = some p := hpage
    rw [hframe] at hres
    exact Option.some.inj hres
  exact hkeep k tar hframe (hp ▸ hpin)

theorem Transparent.evict (h : Transparent s) (hkeep : s.pool.Keeps b') {old : PageId}
    (hold : s.pool.cache.Unpinned old) (k : PageId) :
    PageOk (b'.find k) ((s.pool.cache.evict old).resident k) ((s.pool.cache.evict old).disk k)
      (s.clients k) := by
  have hsame := h.page_of_keeps hkeep k
  by_cases hk : k = old
  · rw [hk] at hsame ⊢
    cases hpage : s.pool.cache.resident old with
    | none =>
        rw [Cache.evict_of_absent hpage]
        exact hsame
    | some page =>
        obtain ⟨hres, hdisk⟩ := Cache.evict_self hpage
        rw [hres, hdisk]
        rw [hpage] at hsame
        exact hsame.evict (hold page hpage)
  · obtain ⟨hres, hdisk⟩ := s.pool.cache.evict_of_ne hk
    rw [hres, hdisk]
    exact hsame

/-- A page that has not been allocated is blank on the disk. -/
theorem Transparent.fresh_evict (h : Transparent s) {old k : PageId}
    (hk : s.pool.disk.nextPageId ≤ k) : (s.pool.cache.evict old).disk k = PageData.zero := by
  obtain ⟨queue, hpool⟩ := h.pool
  cases hpage : s.pool.cache.resident old with
  | none =>
      rw [Cache.evict_of_absent hpage]
      exact h.fresh k hk
  | some page =>
      obtain ⟨f, hf, -⟩ := Option.map_eq_some_iff.mp hpage
      have hne : k ≠ old := by
        rintro rfl
        exact absurd (hpool.found k f hf).2.2.2.2 (not_lt.mpr hk)
      rw [(s.pool.cache.evict_of_ne hne).2]
      exact h.fresh k hk

/-- An operation that puts page `id` into a frame. -/
theorem Transparent.step_load (id : PageId) {c₁ : Cache}
    (hpool : ∃ queue, b'.Consistent queue none) (hcache : b'.cache = c₁.load id p)
    (hother : ∀ k, k ≠ id → PageOk (b'.find k) (c₁.resident k) (c₁.disk k) (s.clients k))
    (hself : PageOk (b'.find id) (some p) (c₁.disk id) u)
    (hfresh : ∀ k, b'.disk.nextPageId ≤ k → c₁.disk k = PageData.zero) :
    Transparent ⟨b', Function.update s.clients id u⟩ where
  pool := hpool
  page k := by
    show PageOk (b'.find k) (b'.cache.resident k) (b'.cache.disk k)
      (Function.update s.clients id u k)
    rw [hcache]
    by_cases hk : k = id
    · rw [hk, Function.update_self]
      simpa [Cache.load] using hself
    · rw [Function.update_of_ne hk]
      simpa [Cache.load, hk] using hother k hk
  fresh k hk := (congrFun (congrArg Cache.disk hcache) k).trans (hfresh k hk)

section Operations

variable [DecidableEq C]

theorem ClientOp.wp_newPage (h : Transparent s) (c : C) :
    wp (ClientOp.newPage c).run (fun r s' => Transparent s' ∧
      ∀ id tar, r = .newPage (some (id, tar)) →
        id = s.pool.disk.nextPageId ∧ s'.pool.disk.nextPageId = id + 1) s := by
  obtain ⟨queue, hpool⟩ := h.pool
  rw [ClientOp.wp_run]
  show wp (PoolResult.newPage <$> BufferPoolManager.newPage) _ _
  rw [wp_map]
  apply wp_mono (BufferPoolManager.wp_newPage hpool)
  rintro r b' ⟨⟨queue', hpool', -⟩, -, hkeep, hr⟩
  cases r with
  | none =>
      obtain ⟨rfl, -⟩ := hr
      exact ⟨h, fun id tar htar => nomatch htar⟩
  | some new =>
      obtain ⟨id, tar⟩ := new
      obtain ⟨hid, hnext, hfind, ⟨old, hold, hcache⟩, -⟩ := hr
      constructor
      case right =>
        rintro _ _ ⟨⟩
        exact ⟨hid, hnext⟩
      apply Transparent.step_load id ⟨queue', hpool'⟩ hcache
      · exact fun k _ => h.evict hkeep hold k
      · rw [hfind, h.fresh_evict hid.ge]
        exact PageOk.create c id
      · intro k hk
        apply h.fresh_evict
        rw [hnext, hid] at hk
        exact (Int.lt_succ _).le.trans hk

theorem ClientOp.wp_fetchPage (h : Transparent s) (c : C)
    (hop : (ClientOp.fetchPage c id).Allowed s) :
    wp (ClientOp.fetchPage c id).run (fun r s' => Transparent s' ∧
      s'.pool.disk.nextPageId = s.pool.disk.nextPageId ∧
      ∀ tar, r = .page (some tar) → (s'.pool.pages tar).data = (s.clients id).bytes ∧
        (s'.pool.pages tar).pageId = id) s := by
  obtain ⟨queue, hpool⟩ := h.pool
  obtain ⟨hlo, hhi, hdel⟩ := hop
  rw [ClientOp.wp_run]
  show wp (PoolResult.page <$> BufferPoolManager.fetchPage id) _ _
  rw [wp_map]
  apply wp_mono (BufferPoolManager.wp_fetchPage hpool hlo hhi)
  rintro r b' ⟨⟨queue', hpool', -⟩, -, hkeep, hnext, hr⟩
  cases r with
  | none =>
      obtain ⟨rfl, -⟩ := hr
      exact ⟨h, rfl, fun tar htar => nomatch htar⟩
  | some tar =>
      obtain ⟨hfind, hfetched, -⟩ := hr
      have htransparent : Transparent ⟨b', (ClientOp.fetchPage c id).note (.page (some tar))
          s.clients⟩ := by
        generalize hcache : b'.cache = c' at hfetched
        cases hfetched with
        | hit page hpage =>
            apply Transparent.step_load id ⟨queue', hpool'⟩ hcache
            · exact fun k _ => h.page_of_keeps hkeep k
            · have hself := h.page_of_keeps hkeep id
              rw [hfind, hpage] at hself
              rw [hfind]
              exact hself.hit c
            · intro k hk
              exact h.fresh k (hnext ▸ hk)
        | miss old hid hold =>
            apply Transparent.step_load id ⟨queue', hpool'⟩ hcache
            · exact fun k _ => h.evict hkeep hold k
            · have hself := h.evict hkeep hold id
              have habsent : (s.pool.cache.evict old).resident id = none := by
                by_cases hne : id = old
                · rw [← hne, Cache.evict_of_absent hid, hid]
                · rw [(s.pool.cache.evict_of_ne hne).1, hid]
              rw [habsent] at hself
              rw [hfind]
              exact hself.load hdel c id
            · exact fun k hk => h.fresh_evict (hnext ▸ hk)
      refine ⟨htransparent, hnext, ?_⟩
      rintro _ ⟨⟩
      have hres : b'.cache.resident id = some (b'.pages tar) := by simp [cache, hfind]
      have hdata := ((htransparent.page id).resident _ hres).2.2.1
      refine ⟨hdata.trans ?_, (hpool'.found id tar hfind).2.2.1⟩
      simp [ClientOp.note]

/-- A page is unpinned by a client that owes nothing for it, or holds it
once more. -/
theorem ClientOp.wp_unpinPage (h : Transparent s) {c : C} {isDirty : Bool}
    (hheld : ∃ tar, (c, tar) ∈ (s.clients id).holders)
    (hdirty : (s.clients id).changed c = true → isDirty = true ∨
      ∃ tar, (c, tar) ∈ (s.clients id).holders.eraseP (·.1 = c)) :
    wp (ClientOp.unpinPage c id isDirty).run (fun r s' => Transparent s' ∧
      s'.pool.disk.nextPageId = s.pool.disk.nextPageId ∧ r = .success true) s := by
  obtain ⟨queue, hpool⟩ := h.pool
  obtain ⟨tar, hmem⟩ := hheld
  have hpinned : ∀ page, s.pool.cache.resident id = some page → 0 < page.pinCount := by
    intro page hpage
    rw [((h.page id).resident page hpage).2.1]
    exact_mod_cast List.length_pos_of_mem hmem
  rw [ClientOp.wp_run]
  show wp (PoolResult.success <$> BufferPoolManager.unpinPage id isDirty) _ _
  rw [wp_map]
  apply wp_mono (BufferPoolManager.wp_unpinPage hpool hpinned)
  rintro r b' ⟨⟨queue', hpool', -⟩, -, hkeep, hnext, hr⟩
  cases hres : s.pool.cache.resident id with
  | none =>
      rw [((h.page id).absent hres).1] at hmem
      cases hmem
  | some page =>
      rw [hres] at hr
      obtain ⟨rfl, hcache⟩ := hr
      refine ⟨?_, hnext, rfl⟩
      apply Transparent.step_load id ⟨queue', hpool'⟩ hcache
      · exact fun k _ => h.page_of_keeps hkeep k
      · have hself := h.page_of_keeps hkeep id
        rw [hres] at hself
        exact hself.unpin hmem hdirty
      · intro k hk
        exact h.fresh k (hnext ▸ hk)

theorem ClientOp.wp_flushPage (h : Transparent s) :
    wp (ClientOp.flushPage id : ClientOp C).run (fun _ s' => Transparent s') s := by
  obtain ⟨queue, hpool⟩ := h.pool
  rw [ClientOp.wp_run]
  show wp (PoolResult.success <$> BufferPoolManager.flushPage id) _ _
  rw [wp_map]
  apply wp_mono (BufferPoolManager.wp_flushPage hpool)
  rintro r b' ⟨⟨queue', hpool', -⟩, -, hkeep, hnext, hr⟩
  have hfresh (k : PageId) (hk : b'.disk.nextPageId ≤ k) : s.pool.disk.pages k = PageData.zero :=
    h.fresh k (hnext ▸ hk)
  show Transparent ⟨b', s.clients⟩
  cases hres : s.pool.cache.resident id with
  | none =>
      rw [hres] at hr
      rw [hr.2]
      exact h
  | some page =>
      rw [hres] at hr
      have hself := h.page_of_keeps hkeep id
      rw [hres] at hself
      by_cases hdirty : page.isDirty = true
      · have hcache := hr.2.trans (if_pos hdirty)
        have hsame : s.clients = Function.update s.clients id (s.clients id) := by simp
        rw [hsame]
        -- written first and cleaned then, the same cache
        apply Transparent.step_load id ⟨queue', hpool'⟩
          (show b'.cache = (s.pool.cache.write id page.data).load id _ from hcache)
        · intro k hk
          have hother := h.page_of_keeps hkeep k
          simpa [Cache.write, hk] using hother
        · simpa [Cache.write] using hself.flush
        · intro k hk
          by_cases hne : k = id
          · obtain ⟨f, hf, -⟩ := Option.map_eq_some_iff.mp hres
            rw [hne, hnext] at hk
            exact absurd (hpool.found id f hf).2.2.2.2 (not_lt.mpr hk)
          · show Function.update s.pool.disk.pages id page.data k = _
            rw [Function.update_of_ne hne]
            exact hfresh k hk
      · have hcache := hr.2.trans (if_neg hdirty)
        constructor
        case pool => exact ⟨queue', hpool'⟩
        case page =>
          intro k
          show PageOk (b'.find k) (b'.cache.resident k) (b'.cache.disk k) (s.clients k)
          rw [hcache]
          exact h.page_of_keeps hkeep k
        case fresh =>
          intro k hk
          exact (congrFun (congrArg Cache.disk hcache) k).trans (hfresh k hk)

theorem ClientOp.wp_deletePage (h : Transparent s) :
    wp (ClientOp.deletePage id : ClientOp C).run (fun r s' => Transparent s' ∧
      s'.pool.disk.nextPageId = s.pool.disk.nextPageId ∧
      r = .success (s.clients id).holders.isEmpty) s := by
  obtain ⟨queue, hpool⟩ := h.pool
  rw [ClientOp.wp_run]
  show wp (PoolResult.success <$> BufferPoolManager.deletePage id) _ _
  rw [wp_map]
  apply wp_mono (BufferPoolManager.wp_deletePage hpool)
  rintro r b' ⟨⟨queue', hpool', -⟩, -, hkeep, hnext, hr⟩
  -- the record after a deletion, when nobody holds the page
  have hdeleted (hnone : (s.clients id).holders = [])
      (hcache : b'.cache = s.pool.cache.drop id) :
      Transparent ⟨b', Function.update s.clients id { s.clients id with deleted := true }⟩ := by
    constructor
    case pool => exact ⟨queue', hpool'⟩
    case page =>
      intro k
      show PageOk (b'.find k) (b'.cache.resident k) (b'.cache.disk k)
        (Function.update s.clients id _ k)
      rw [hcache]
      have hk := h.page_of_keeps hkeep k
      by_cases hne : k = id
      · rw [hne] at hk ⊢
        simpa [Cache.drop] using hk.delete hnone
      · simpa [Cache.drop, hne] using hk
    case fresh =>
      intro k hk
      exact (congrFun (congrArg Cache.disk hcache) k).trans (h.fresh k (hnext ▸ hk))
  cases hres : s.pool.cache.resident id with
  | none =>
      rw [hres] at hr
      obtain ⟨rfl, rfl⟩ := hr
      have hnone := ((h.page id).absent hres).1
      refine ⟨?_, hnext, by rw [hnone]; rfl⟩
      apply hdeleted hnone
      apply Cache.ext
      · simp [Cache.drop, ← hres]
      · rfl
  | some page =>
      rw [hres] at hr
      by_cases hpin : 0 < page.pinCount
      · simp only [if_pos hpin] at hr
        obtain ⟨rfl, rfl⟩ := hr
        have hheld : (s.clients id).holders ≠ [] := by
          intro hnone
          rw [((h.page id).resident page hres).2.1, hnone] at hpin
          exact absurd hpin (lt_irrefl _)
        exact ⟨h, hnext, by rw [List.isEmpty_eq_false_iff.mpr hheld]⟩
      · simp only [if_neg hpin] at hr
        obtain ⟨rfl, hcache⟩ := hr
        have hself := h.page id
        rw [hres] at hself
        have hzero : page.pinCount = 0 := by
          have hlen := (hself.resident page rfl).2.1
          omega
        have hnone := hself.holders_of_unpinned hzero
        exact ⟨hdeleted hnone hcache, hnext, by rw [hnone]; rfl⟩

theorem ClientOp.wp_write (h : Transparent s) {c : C} {tar : Nat} {g : PageData → PageData}
    (hop : (ClientOp.write c id tar g).Allowed s) :
    wp (ClientOp.write c id tar g).run (fun _ s' => Transparent s' ∧
      s'.pool.disk.nextPageId = s.pool.disk.nextPageId) s := by
  obtain ⟨queue, hpool⟩ := h.pool
  have hmem : (c, tar) ∈ (s.clients id).holders := hop
  have hfind : s.pool.find id = some tar := (h.page id).held c tar hmem
  have hres : s.pool.cache.resident id = some (s.pool.pages tar) := by simp [cache, hfind]
  rw [ClientOp.wp_run]
  simp only [ClientOp.call, PoolOp.run, wp_bind, wp_modify, wp_pure]
  refine ⟨?_, rfl⟩
  apply Transparent.step_load id ⟨queue, hpool.write tar g⟩ (hpool.cache_setPage hfind _)
  · exact fun k _ => h.page k
  · have hself := h.page id
    rw [hres] at hself
    exact hself.write hmem g
  · exact h.fresh

/-- Every call a client may make keeps the pool transparent. -/
theorem ClientOp.wp_transparent (op : ClientOp C) (h : Transparent s) (hop : op.Allowed s) :
    wp op.run (fun _ s' => Transparent s') s := by
  cases op with
  | newPage c => exact wp_mono (ClientOp.wp_newPage h c) fun _ _ hpost => hpost.1
  | fetchPage c id => exact wp_mono (ClientOp.wp_fetchPage h c hop) fun _ _ hpost => hpost.1
  | unpinPage c id isDirty =>
      exact wp_mono (ClientOp.wp_unpinPage h hop.1 fun hc => Or.inl (hop.2 hc))
        fun _ _ hpost => hpost.1
  | flushPage id => exact ClientOp.wp_flushPage h
  | deletePage id => exact wp_mono (ClientOp.wp_deletePage h) fun _ _ hpost => hpost.1
  | write c id tar g => exact wp_mono (ClientOp.wp_write h hop) fun _ _ hpost => hpost.1

/-- A session that starts with a new pool. -/
def Session.start (poolSize : Nat) : Session C := ⟨create poolSize, fun _ => PageUse.unused⟩

/-- A page that is fetched holds the bytes its clients have put into it,
however it got into its frame; when nobody holds the page, these are the
bytes it had when it was last unpinned, or zeros. No call faults. -/
theorem fetchPage_transparent (poolSize : Nat) (s : Session C)
    (hs : Reachable (· = Session.start poolSize) ClientOp.Allowed ClientOp.run s) :
    (∀ op : ClientOp C, op.Allowed s → ∃ r s', op.run s = .ok (r, s')) ∧
    ∀ c id, (ClientOp.fetchPage c id).Allowed s → ∀ r s',
      (ClientOp.fetchPage c id).run s = .ok (r, s') → ∀ tar, r = .page (some tar) →
        (s'.pool.pages tar).pageId = id ∧ (s'.pool.pages tar).data = (s.clients id).bytes ∧
        ((s.clients id).holders = [] →
          (s'.pool.pages tar).data = (s.clients id).released) := by
  have h : Transparent s := by
    apply hs.invariant
    · rintro _ rfl
      exact transparent_create poolSize
    · exact fun op s hs hop => op.wp_transparent hs hop
  constructor
  · intro op hop
    obtain ⟨r, s', hrun, -⟩ := op.wp_transparent h hop
    exact ⟨r, s', hrun⟩
  · intro c id hop r s' hrun tar htar
    obtain ⟨r', s'', hrun', -, -, hbytes⟩ := ClientOp.wp_fetchPage h c hop
    rw [hrun] at hrun'
    cases hrun'
    obtain ⟨hdata, hid⟩ := hbytes tar htar
    refine ⟨hid, hdata, fun hnone => ?_⟩
    rw [hdata, (h.page id).released hnone]

end Operations

/-- A page of ones. -/
def PageData.ones : PageData := fun _ => 1

theorem exists_session (poolSize : Nat) (ops : List (ClientOp Nat)) (f : Session Nat → Bool)
    (heval : ((checkedRun (fun op s => decide (op.Allowed s)) ClientOp.run ops
      (Session.start poolSize)).any f) = true) :
    ∃ s, Reachable (· = Session.start poolSize) ClientOp.Allowed ClientOp.run s ∧ f s = true := by
  refine exists_reachable_of_eval ?_ _ (fun _ _ => of_decide_eq_true) f heval
  exact .start rfl

/-- Two pages fill the pool and are released, and a third one takes the
frame of the first. When the first page is fetched again, it comes back
from the disk into the frame of the second. -/
theorem fetchPage_transparent_again : ∃ s s' : Session Nat,
    s.pool.find 0 = none ∧ s.pool.find 2 = some 0 ∧ s.pool.find 1 = some 1 ∧
      (ClientOp.fetchPage 1 0).run s = .ok (.page (some 1), s') ∧
      (s'.pool.pages 1).data = PageData.ones := by
  obtain ⟨s, hs, heval⟩ := exists_session 2
    [.newPage 0, .write 0 0 0 fun _ => PageData.ones, .newPage 1, .unpinPage 0 0 true,
      .unpinPage 1 1 false, .newPage 0]
    (fun s => s.pool.find 0 = none ∧ s.pool.find 2 = some 0 ∧ s.pool.find 1 = some 1 ∧
      (∀ i, (s.clients 0).bytes i = PageData.ones i) ∧ (ClientOp.fetchPage 1 0).Allowed s ∧
        ((ClientOp.fetchPage 1 0).run s).toOption.any fun y => y.1 = .page (some 1))
    (by decide +kernel)
  obtain ⟨hevicted, hthird, hsecond, hbytes, hop, hfetch⟩ := of_decide_eq_true heval
  obtain ⟨⟨r, s'⟩, hrun, hr⟩ := exists_ok_of_any hfetch
  cases (of_decide_eq_true hr : r = .page (some 1))
  exact ⟨s, s', hevicted, hthird, hsecond, hrun,
    ((fetchPage_transparent 2 s hs).2 1 0 hop _ s' hrun 1 rfl).2.1.trans (funext hbytes)⟩

/-- A client fetches a page again and writes into it; another client that
fetches the page then sees what the first has not released, not the bytes
the page was last released with. -/
theorem fetchPage_sees_unreleased :
    ¬∀ poolSize, 1 ≤ poolSize → ∀ s : Session Nat,
      Reachable (· = Session.start poolSize) ClientOp.Allowed ClientOp.run s →
      ∀ c id, (ClientOp.fetchPage c id).Allowed s → ∀ r s',
        (ClientOp.fetchPage c id).run s = .ok (r, s') → ∀ tar, r = .page (some tar) →
          (s'.pool.pages tar).data = (s.clients id).released := by
  intro h
  obtain ⟨s, hs, heval⟩ := exists_session 1
    [.newPage 0, .unpinPage 0 0 false, .fetchPage 0 0, .write 0 0 0 fun _ => PageData.ones]
    (fun s => (ClientOp.fetchPage 1 0).Allowed s ∧
      ((ClientOp.fetchPage 1 0).run s).toOption.any fun y => y.1 = .page (some 0) ∧
        ¬∀ i, (y.2.pool.pages 0).data i = (s.clients 0).released i)
    (by decide +kernel)
  obtain ⟨hop, hfetch⟩ := of_decide_eq_true heval
  obtain ⟨⟨r, s'⟩, hrun, hr⟩ := exists_ok_of_any hfetch
  obtain ⟨hframe, hbyte⟩ := of_decide_eq_true hr
  exact hbyte (congrFun (h 1 le_rfl s hs 1 0 hop r s' hrun 0 hframe))

end ScuDb
