import ScuDb.Index.DirtyUse
import ScuDb.Index.PinBalance

/-!
Every page an operation changes is unpinned as dirty afterwards.

A page is changed while it is in the page set, which is unpinned as dirty
in the end, or between a fetch and an unpin as dirty in one function.
`Kept` says that nothing else is owed. As in the balance of the pins,
nothing is assumed about the shape of the tree, and each function is
looked at by itself: `Settles mine base` is for a function that may store
to the pages `mine`, pinned by its callers, and to the pages `base` of
the page set.
-/

namespace ScuDb

open Foundations

variable {K V : Type}

namespace BPlusTree

/-- The pages have been allocated, and store their own ids. -/
structure Sound (t : BPlusTree K V) : Prop where
  named : Named t.pages
  allocated : ∀ y page, t.pages y = some page → 0 < y ∧ y < t.nextPageId
  next : 0 < t.nextPageId

/-- The calls since the state `t₀` show every change of a page and of the
header. -/
def Logged (t₀ t : BPlusTree K V) : Prop :=
  ∃ recent, t.calls = recent ++ t₀.calls ∧
    (∀ id page, t.pages id = some page → t₀.pages id = some page ∨ .store id ∈ recent) ∧
    (t.headerPage = t₀.headerPage ∨ .store headerPageId ∈ recent)

/-- The calls since the state `t₀` have gone through. The thread pins the
pages of `held` and the pages `extra`, and owes changes to `held` and
`mine` only. -/
structure Kept (u₀ : DirtyUse) (t₀ : BPlusTree K V) (extra : PageId → Nat)
    (mine held : List PageId) (t : BPlusTree K V) : Prop extends Sound t where
  pinned : ∀ y ∈ mine, 0 < extra y
  bounds : ∀ y ∈ held, 0 < y ∧ y < t.nextPageId
  ledger : ∃ u, u₀.Reached t₀.calls t.calls u ∧ u.Covers extra mine held ∧ u.next = t.nextPageId ∧
    ∀ y, u.removed y = true →
      y ≠ headerPageId ∧ y < t.nextPageId ∧ t.pages y = none ∧ u.pins y = 0
  logged : Logged t₀ t

/-- The program may store to the pages `mine` and `base`, and leaves
changes owed to `mine` and to the page set only. -/
def Settles {α : Type} (mine base : List PageId) (m : TreeM K V α) : Prop :=
  ∀ u₀ t₀ extra t, Kept u₀ t₀ extra mine t.pageSet t → base ⊆ t.pageSet →
    wlp m (fun _ s => Kept u₀ t₀ extra mine s.pageSet s ∧ base ⊆ s.pageSet) t

namespace Logged

variable {t₀ t : BPlusTree K V} {id : PageId}

theorem refl (t : BPlusTree K V) : Logged t t :=
  ⟨[], rfl, fun _ _ hpage => Or.inl hpage, Or.inl rfl⟩

theorem call (h : Logged t₀ t) (call : PoolCall) {s : BPlusTree K V}
    (hcalls : s.calls = call :: t.calls)
    (hpages : ∀ y page, s.pages y = some page → t.pages y = some page)
    (hheader : s.headerPage = t.headerPage) : Logged t₀ s := by
  obtain ⟨recent, hrecent, hstores, hheader'⟩ := h
  refine ⟨call :: recent, by rw [hcalls, hrecent]; rfl, fun y page hpage => ?_, ?_⟩
  · exact (hstores y page (hpages y page hpage)).imp_right (List.mem_cons_of_mem _)
  · rw [hheader]
    exact hheader'.imp_right (List.mem_cons_of_mem _)

theorem store (h : Logged t₀ t) {s : BPlusTree K V} (hcalls : s.calls = .store id :: t.calls)
    (hpages : ∀ y, y ≠ id → s.pages y = t.pages y)
    (hheader : s.headerPage = t.headerPage ∨ id = headerPageId) : Logged t₀ s := by
  obtain ⟨recent, hrecent, hstores, hheader'⟩ := h
  refine ⟨.store id :: recent, by rw [hcalls, hrecent]; rfl, fun y page hpage => ?_, ?_⟩
  · by_cases hy : y = id
    · exact Or.inr (by rw [hy]; exact List.mem_cons_self)
    · rw [hpages y hy] at hpage
      exact (hstores y page hpage).imp_right (List.mem_cons_of_mem _)
  · rcases hheader with heq | rfl
    · rw [heq]
      exact hheader'.imp_right (List.mem_cons_of_mem _)
    · exact Or.inr List.mem_cons_self

end Logged

namespace Kept

variable {u₀ : DirtyUse} {t₀ : BPlusTree K V} {extra : PageId → Nat}
  {mine mine' held : List PageId} {t : BPlusTree K V} {id : PageId}

/-- What does not concern the pages and the pool does not matter. -/
theorem congr (h : Kept u₀ t₀ extra mine held t) {s : BPlusTree K V} (hpages : s.pages = t.pages)
    (hnext : s.nextPageId = t.nextPageId) (hcalls : s.calls = t.calls)
    (hheader : s.headerPage = t.headerPage) : Kept u₀ t₀ extra mine held s where
  named := hpages ▸ h.named
  allocated := by
    rw [hpages, hnext]
    exact h.allocated
  next := hnext ▸ h.next
  pinned := h.pinned
  bounds := hnext ▸ h.bounds
  ledger := by
    rw [hpages, hnext, hcalls]
    exact h.ledger
  logged := by
    unfold Logged
    rw [hpages, hcalls, hheader]
    exact h.logged

theorem latch (h : Kept u₀ t₀ extra mine held t) (call : PoolCall)
    (hcall : ∀ u : DirtyUse, u.step call = some u) :
    Kept u₀ t₀ extra mine held { t with calls := call :: t.calls } where
  toSound := ⟨h.named, h.allocated, h.next⟩
  pinned := h.pinned
  bounds := h.bounds
  ledger := by
    obtain ⟨u, hu, hcover, hnext, hremoved⟩ := h.ledger
    exact ⟨u, hu.next (hcall u), hcover, hnext, hremoved⟩
  logged := h.logged.call call rfl (fun _ _ hpage => hpage) rfl

/-- A fetch of a page that has not been deleted. -/
theorem fetch_live (h : Kept u₀ t₀ extra mine held t) (hlo : 0 ≤ id) (hhi : id < t.nextPageId)
    (hlive : id ≠ headerPageId → t.pages id ≠ none) :
    Kept u₀ t₀ (addPin extra id) mine held { t with calls := .fetchPage id :: t.calls } where
  toSound := ⟨h.named, h.allocated, h.next⟩
  pinned y hy := by
    have hpos := h.pinned y hy
    unfold addPin
    by_cases hyid : y = id
    · subst hyid
      rw [Function.update_self]
      omega
    · rwa [Function.update_of_ne hyid]
  bounds := h.bounds
  ledger := by
    obtain ⟨u, hu, hcover, hnext, hremoved⟩ := h.ledger
    have hnot : u.removed id = false := by
      cases hid : u.removed id with
      | false => rfl
      | true =>
          obtain ⟨hpos, -, hnone, -⟩ := hremoved id hid
          exact absurd hnone (hlive hpos)
    have hstep : u.step (.fetchPage id) = some { u with pins := addPin u.pins id } :=
      if_pos ⟨hlo, hnext ▸ hhi, hnot⟩
    refine ⟨_, hu.next hstep, ⟨hcover.pins_addPin id, hcover.changed⟩, hnext, fun y hy => ?_⟩
    obtain ⟨hpos, hlt, hnone, hzero⟩ := hremoved y hy
    refine ⟨hpos, hlt, hnone, ?_⟩
    have hyid : y ≠ id := by
      rintro rfl
      rw [hnot] at hy
      cases hy
    change addPin u.pins id y = 0
    rw [addPin, Function.update_of_ne hyid, hzero]
  logged := h.logged.call _ rfl (fun _ _ hpage => hpage) rfl

theorem fetch (h : Kept u₀ t₀ extra mine held t) {page : TreePage K V}
    (hpage : t.pages id = some page) :
    Kept u₀ t₀ (addPin extra id) mine held { t with calls := .fetchPage id :: t.calls } := by
  obtain ⟨hpos, hlt⟩ := h.allocated id page hpage
  exact h.fetch_live hpos.le hlt fun _ => by simp [hpage]

theorem fetch_header (h : Kept u₀ t₀ extra mine held t) :
    Kept u₀ t₀ (addPin extra headerPageId) mine held
      { t with calls := .fetchPage headerPageId :: t.calls } :=
  h.fetch_live le_rfl h.next fun hne => absurd rfl hne

/-- From here on the page that has been pinned may be stored to. -/
theorem own (h : Kept u₀ t₀ (addPin extra id) mine held t) :
    Kept u₀ t₀ (addPin extra id) (id :: mine) held t where
  toSound := ⟨h.named, h.allocated, h.next⟩
  pinned y hy := by
    rcases List.mem_cons.mp hy with rfl | hy
    · simp [addPin]
    · exact h.pinned y hy
  bounds := h.bounds
  ledger := by
    obtain ⟨u, hu, hcover, hnext, hremoved⟩ := h.ledger
    exact ⟨u, hu, ⟨hcover.pins, fun y hy =>
      (hcover.changed y hy).imp_right (List.mem_cons_of_mem id)⟩, hnext, hremoved⟩
  logged := h.logged

theorem unpin_dirty (h : Kept u₀ t₀ (addPin extra id) (id :: mine) held t)
    (hmine : ∀ y ∈ mine, 0 < extra y) :
    Kept u₀ t₀ extra mine held { t with calls := .unpinPage id true :: t.calls } where
  toSound := ⟨h.named, h.allocated, h.next⟩
  pinned := hmine
  bounds := h.bounds
  ledger := by
    obtain ⟨u, hu, hcover, hnext, hremoved⟩ := h.ledger
    obtain ⟨u', hstep, hcover', hremoved', hnext', hzero⟩ :=
      hcover.unpin_dirty fun y (hy : y ∈ id :: mine) => List.mem_cons.mp hy
    refine ⟨u', hu.next hstep, hcover', hnext'.trans hnext, fun y hy => ?_⟩
    obtain ⟨hpos, hlt, hnone, hpins⟩ := hremoved y (hremoved' ▸ hy)
    exact ⟨hpos, hlt, hnone, hzero y hpins⟩
  logged := h.logged.call _ rfl (fun _ _ hpage => hpage) rfl

theorem unpin_clean (h : Kept u₀ t₀ (addPin extra id) mine held t)
    (hmine : ∀ y ∈ mine, 0 < extra y) :
    Kept u₀ t₀ extra mine held { t with calls := .unpinPage id false :: t.calls } where
  toSound := ⟨h.named, h.allocated, h.next⟩
  pinned := hmine
  bounds := h.bounds
  ledger := by
    obtain ⟨u, hu, hcover, hnext, hremoved⟩ := h.ledger
    obtain ⟨u', hstep, hcover', hremoved', hnext', hzero⟩ := hcover.unpin_clean hmine
    refine ⟨u', hu.next hstep, hcover', hnext'.trans hnext, fun y hy => ?_⟩
    obtain ⟨hpos, hlt, hnone, hpins⟩ := hremoved y (hremoved' ▸ hy)
    exact ⟨hpos, hlt, hnone, hzero y hpins⟩
  logged := h.logged.call _ rfl (fun _ _ hpage => hpage) rfl

theorem store_pinned (h : Kept u₀ t₀ extra mine held t) (hid : id ∈ held ∨ id ∈ mine)
    {s : BPlusTree K V} (hs : Sound s) (hnext : s.nextPageId = t.nextPageId)
    (hcalls : s.calls = .store id :: t.calls) (hother : ∀ y, y ≠ id → s.pages y = t.pages y)
    (hheader : s.headerPage = t.headerPage ∨ id = headerPageId) :
    Kept u₀ t₀ extra mine held s where
  toSound := hs
  pinned := h.pinned
  bounds := hnext ▸ h.bounds
  ledger := by
    obtain ⟨u, hu, hcover, hnext', hremoved⟩ := h.ledger
    have hpos := hcover.pos h.pinned hid
    have hstep : u.step (.store id) =
        some { u with changed := Function.update u.changed id true } := if_pos hpos
    rw [hcalls, hnext]
    refine ⟨_, hu.next hstep, ⟨hcover.pins, fun y hy => ?_⟩, hnext', fun y hy => ?_⟩
    · by_cases hyid : y = id
      · rw [hyid]
        exact hid
      · exact hcover.changed y (by simpa [hyid] using hy)
    · obtain ⟨hpos', hlt, hnone, hzero⟩ := hremoved y hy
      have hyid : y ≠ id := by
        rintro rfl
        omega
      exact ⟨hpos', hlt, (hother y hyid).trans hnone, hzero⟩
  logged := h.logged.store hcalls hother hheader

theorem store (h : Kept u₀ t₀ extra mine held t) (hid : id ∈ held ∨ id ∈ mine)
    (hbounds : 0 < id ∧ id < t.nextPageId) {page : TreePage K V} (hname : page.getPageId = id) :
    Kept u₀ t₀ extra mine held { t with
      pages := Function.update t.pages id (some page), calls := .store id :: t.calls } := by
  refine h.store_pinned hid ⟨h.named.update hname, fun y page' hpage' => ?_, h.next⟩ rfl rfl
    (fun y hy => Function.update_of_ne hy _ _) (Or.inl rfl)
  by_cases hy : y = id
  · rw [hy]
    exact hbounds
  · exact h.allocated y page' ((Function.update_of_ne hy _ _).symm.trans hpage')

theorem update (h : Kept u₀ t₀ extra mine held t) (hid : id ∈ held ∨ id ∈ mine)
    {page : TreePage K V} (hpage : t.pages id = some page) (page' : TreePage K V)
    (hname : page'.getPageId = page.getPageId) :
    Kept u₀ t₀ extra mine held { t with
      pages := Function.update t.pages id (some page'), calls := .store id :: t.calls } :=
  h.store hid (h.allocated id page hpage) (hname.trans (h.named id page hpage))

theorem update_two (h : Kept u₀ t₀ extra mine held t) {id' : PageId}
    (hid : id ∈ held ∨ id ∈ mine) (hid' : id' ∈ held ∨ id' ∈ mine)
    {page₁ page₂ page₁' page₂' : TreePage K V} (hpage₁ : t.pages id = some page₁)
    (hpage₂ : t.pages id' = some page₂) (hname₁ : page₁'.getPageId = page₁.getPageId)
    (hname₂ : page₂'.getPageId = page₂.getPageId) :
    Kept u₀ t₀ extra mine held { t with
      pages := Function.update (Function.update t.pages id (some page₁')) id' (some page₂'),
      calls := .store id' :: .store id :: t.calls } :=
  (h.update hid hpage₁ _ hname₁).store hid' (h.allocated id' page₂ hpage₂)
    (hname₂.trans (h.named id' page₂ hpage₂))

theorem newPage (h : Kept u₀ t₀ extra mine held t) :
    Kept u₀ t₀ (addPin extra t.nextPageId) (t.nextPageId :: mine) held
      { t with nextPageId := t.nextPageId + 1, calls := .newPage t.nextPageId :: t.calls } where
  named := h.named
  allocated y page hpage := by
    obtain ⟨hpos, hlt⟩ := h.allocated y page hpage
    exact ⟨hpos, hlt.trans (Int.lt_succ _)⟩
  next := h.next.trans (Int.lt_succ _)
  pinned y hy := by
    unfold addPin
    by_cases hyid : y = t.nextPageId
    · subst hyid
      rw [Function.update_self]
      omega
    · rw [Function.update_of_ne hyid]
      exact h.pinned y ((List.mem_cons.mp hy).resolve_left hyid)
  bounds y hy := ⟨(h.bounds y hy).1, (h.bounds y hy).2.trans (Int.lt_succ _)⟩
  ledger := by
    obtain ⟨u, hu, hcover, hnext, hremoved⟩ := h.ledger
    have hstep : u.step (.newPage t.nextPageId) =
        some { u with pins := addPin u.pins t.nextPageId, next := u.next + 1 } := if_pos hnext.symm
    refine ⟨_, hu.next hstep, ⟨hcover.pins_addPin _, fun y hy =>
      (hcover.changed y hy).imp_right (List.mem_cons_of_mem _)⟩, by rw [hnext], fun y hy => ?_⟩
    obtain ⟨hpos, hlt, hnone, hzero⟩ := hremoved y hy
    refine ⟨hpos, hlt.trans (Int.lt_succ _), hnone, ?_⟩
    change addPin u.pins t.nextPageId y = 0
    rw [addPin, Function.update_of_ne hlt.ne, hzero]
  logged := h.logged.call _ rfl (fun _ _ hpage => hpage) rfl

theorem join (h : Kept u₀ t₀ (addPin extra id) mine' held t) (hmine : ∀ y ∈ mine, 0 < extra y)
    (hsub : ∀ y ∈ mine', y = id ∨ y ∈ mine) (hid : 0 < id ∧ id < t.nextPageId) :
    Kept u₀ t₀ extra mine (held ++ [id]) t where
  toSound := ⟨h.named, h.allocated, h.next⟩
  pinned := hmine
  bounds y hy := by
    rw [List.mem_append, List.mem_singleton] at hy
    rcases hy with hy | rfl
    · exact h.bounds y hy
    · exact hid
  ledger := by
    obtain ⟨u, hu, hcover, hnext, hremoved⟩ := h.ledger
    exact ⟨u, hu, hcover.join hsub, hnext, hremoved⟩
  logged := h.logged

/-- A page of the page set is unpinned. -/
theorem release (h : Kept u₀ t₀ extra mine (id :: held) t) :
    Kept u₀ t₀ extra mine held { t with calls := .unpinPage id true :: t.calls } := by
  have hleft : Kept u₀ t₀ (addPin extra id) (id :: mine) held t := by
    refine ⟨h.toSound, fun y hy => ?_, fun y hy => h.bounds y (List.mem_cons_of_mem id hy), ?_,
      h.logged⟩
    · unfold addPin
      by_cases hyid : y = id
      · subst hyid
        rw [Function.update_self]
        omega
      · rw [Function.update_of_ne hyid]
        exact h.pinned y ((List.mem_cons.mp hy).resolve_left hyid)
    · obtain ⟨u, hu, hcover, hnext, hremoved⟩ := h.ledger
      exact ⟨u, hu, hcover.leave, hnext, hremoved⟩
  exact hleft.unpin_dirty h.pinned

/-- A page is deleted, or kept in the pool if it is still pinned. -/
theorem delete (h : Kept u₀ t₀ extra mine held t) (hid : 0 < id ∧ id < t.nextPageId) :
    Kept u₀ t₀ extra mine held { t with
      pages := Function.update t.pages id none, calls := .deletePage id :: t.calls } where
  named y page hpage := by
    by_cases hy : y = id
    · subst hy
      simp at hpage
    · exact h.named y page (by simpa [hy] using hpage)
  allocated y page hpage := by
    by_cases hy : y = id
    · subst hy
      simp at hpage
    · exact h.allocated y page (by simpa [hy] using hpage)
  next := h.next
  pinned := h.pinned
  bounds := h.bounds
  ledger := by
    obtain ⟨u, hu, hcover, hnext, hremoved⟩ := h.ledger
    have hnone : ∀ y, t.pages y = none → Function.update t.pages id none y = none := by
      intro y hy
      by_cases hyid : y = id
      · rw [hyid, Function.update_self]
      · rw [Function.update_of_ne hyid, hy]
    refine ⟨_, hu.next (if_pos (hnext ▸ hid.2)), ?_⟩
    split
    · rename_i hzero
      refine ⟨⟨hcover.pins, hcover.changed⟩, hnext, fun y hy => ?_⟩
      by_cases hyid : y = id
      · subst hyid
        exact ⟨hid.1.ne', hid.2, Function.update_self _ _ _, hzero⟩
      · obtain ⟨hpos, hlt, hnone', hpins⟩ := hremoved y (by simpa [hyid] using hy)
        exact ⟨hpos, hlt, hnone y hnone', hpins⟩
    · refine ⟨hcover, hnext, fun y hy => ?_⟩
      obtain ⟨hpos, hlt, hnone', hpins⟩ := hremoved y hy
      exact ⟨hpos, hlt, hnone y hnone', hpins⟩
  logged := by
    refine h.logged.call _ rfl (fun y page hpage => ?_) rfl
    by_cases hy : y = id
    · subst hy
      simp at hpage
    · simpa [hy] using hpage

end Kept

/-! ### Programs that are put together -/

section Programs

variable {α β : Type} {mine base : List PageId} {id : PageId}

theorem Settles.pure (a : α) : Settles mine base (pure a : TreeM K V α) :=
  fun _ _ _ _ h hbase => wlp_pure.mpr ⟨h, hbase⟩

theorem Settles.bind {m : TreeM K V α} {f : α → TreeM K V β} (hm : Settles mine base m)
    (hf : ∀ a, Settles mine base (f a)) : Settles mine base (m >>= f) := by
  intro u₀ t₀ extra t h hbase
  rw [wlp_bind]
  exact wlp_mono (hm u₀ t₀ extra t h hbase) fun a t' h' => hf a u₀ t₀ extra t' h'.1 h'.2

theorem Settles.ite {c : Prop} [Decidable c] {m n : TreeM K V α} (hm : Settles mine base m)
    (hn : Settles mine base n) : Settles mine base (if c then m else n) := by
  intro u₀ t₀ extra t h hbase
  rw [wlp_ite]
  exact ⟨fun _ => hm u₀ t₀ extra t h hbase, fun _ => hn u₀ t₀ extra t h hbase⟩

theorem Settles.ofExcept (x : Except Fault α) :
    Settles mine base (MonadExcept.ofExcept x : TreeM K V α) :=
  fun _ _ _ _ h hbase => wlp_ofExcept.mpr fun _ _ => ⟨h, hbase⟩

theorem Settles.get : Settles mine base (get : TreeM K V (BPlusTree K V)) :=
  fun _ _ _ _ h hbase => wlp_get.mpr ⟨h, hbase⟩

theorem settles_leafAt : Settles mine base (leafAt id : TreeM K V (LeafPage K V)) :=
  fun _ _ _ _ h hbase => wlp_leafAt.mpr fun _ _ => ⟨h, hbase⟩

theorem settles_readPage : Settles mine base (readPage id : TreeM K V (TreePage K V)) :=
  fun _ _ _ _ h hbase => wlp_readPage.mpr fun _ _ => ⟨h, hbase⟩

theorem settles_internalAt : Settles mine base (internalAt id : TreeM K V (InternalPage K)) :=
  fun _ _ _ _ h hbase => wlp_internalAt.mpr fun _ _ => ⟨h, hbase⟩

/-- A program between the fetch of a page and its unpin as dirty. -/
theorem Settles.pinned {m : TreeM K V Unit} (hm : Settles (id :: mine) base m) :
    Settles mine base (do fetchPage id; m; unpinPage id true) := by
  intro u₀ t₀ extra t h hbase
  simp only [wlp_bind, wlp_fetchPage, wlp_unpinPage]
  intro page hpage
  refine wlp_mono (hm u₀ t₀ (addPin extra id) _ (h.fetch hpage).own hbase) ?_
  exact fun _ t' h' => ⟨h'.1.unpin_dirty h.pinned, h'.2⟩

/-! ### Children that change hands -/

theorem settles_setParentPageId {parent : PageId} (hid : id ∈ base ∨ id ∈ mine) :
    Settles mine base (setParentPageId id parent : TreeM K V Unit) := by
  intro u₀ t₀ extra t h hbase
  rw [wlp_setParentPageId]
  intro page hpage
  exact ⟨h.update (hid.imp_left (@hbase id)) hpage _ (getPageId_setParentPageId page parent), hbase⟩

theorem settles_adoptChild {parent : PageId} :
    Settles mine base (adoptChild parent id : TreeM K V Unit) :=
  (settles_setParentPageId (Or.inr List.mem_cons_self)).pinned

theorem settles_adoptChildren {parent : PageId} {entries : List (K × PageId)} :
    Settles mine base (adoptChildren parent entries : TreeM K V Unit) := by
  intro u₀ t₀ extra t h hbase
  exact wlp_forM (I := fun s => Kept u₀ t₀ extra mine s.pageSet s ∧ base ⊆ s.pageSet)
    (fun e _ s hs => settles_adoptChild u₀ t₀ extra s hs.1 hs.2) ⟨h, hbase⟩

theorem settles_addIntoDeletedPageSet :
    Settles mine base (addIntoDeletedPageSet true id : TreeM K V Unit) :=
  fun _ _ _ _ h hbase =>
    (wlp_addIntoDeletedPageSet rfl).mpr ⟨h.congr rfl rfl rfl rfl, hbase⟩

/-! ### The header record -/

theorem settles_updateRootPageId (params : IndexParams K) (insertRecord : Bool) :
    Settles mine base (updateRootPageId params insertRecord : TreeM K V Unit) := by
  intro u₀ t₀ extra t h hbase
  simp only [updateRootPageId, wlp_bind, wlp_fetchHeaderPage, wlp_getRootPageId, wlp_get,
    wlp_ofExcept, wlp_modify, wlp_unpinPage]
  intro result _
  have hpinned := h.fetch_header.own
  have hstored := hpinned.store_pinned (s := { t with
      headerPage := result.2, calls := .store headerPageId :: .fetchPage headerPageId :: t.calls })
    (Or.inr List.mem_cons_self) ⟨h.named, h.allocated, h.next⟩ rfl rfl (fun _ _ => rfl)
    (Or.inr rfl)
  exact ⟨hstored.unpin_dirty h.pinned, hbase⟩

end Programs

/-! ### Insertion -/

section Insertion

variable (params : IndexParams K) {mine base : List PageId}

theorem settles_split {node : PageId} (hnode : node ∈ base ∨ node ∈ mine) (u₀ : DirtyUse)
    (t₀ : BPlusTree K V) (extra : PageId → Nat) (t : BPlusTree K V)
    (h : Kept u₀ t₀ extra mine t.pageSet t) (hbase : base ⊆ t.pageSet) :
    wlp (split params true node) (fun id s =>
      Kept u₀ t₀ extra mine s.pageSet s ∧ id :: base ⊆ s.pageSet) t := by
  have hnew : 0 < t.nextPageId ∧ t.nextPageId < t.nextPageId + 1 := ⟨h.next, Int.lt_succ _⟩
  have hjoined := ((h.newPage.latch (.lock true t.nextPageId) fun _ => rfl).join h.pinned
    (fun y hy => List.mem_cons.mp hy) hnew).congr (s := { t with
      nextPageId := t.nextPageId + 1, pageSet := t.pageSet ++ [t.nextPageId],
      calls := .lock true t.nextPageId :: .newPage t.nextPageId :: t.calls }) rfl rfl rfl rfl
  have hmem : t.nextPageId ∈ t.pageSet ++ [t.nextPageId] := by simp
  have hsub : t.nextPageId :: base ⊆ t.pageSet ++ [t.nextPageId] := by
    intro y hy
    rcases List.mem_cons.mp hy with rfl | hy
    · exact hmem
    · exact List.mem_append_left _ (hbase hy)
  have hnode' : node ∈ t.pageSet ++ [t.nextPageId] ∨ node ∈ mine :=
    hnode.imp_left fun hb => List.mem_append_left _ (hbase hb)
  simp only [split, wlp_bind, wlp_newPage, wlp_record, wlp_addIntoPageSet, wlp_readPage]
  intro page hpage
  have hpageid := h.named node page hpage
  have hnodelt := h.allocated node page hpage
  cases page with
  | leaf leaf =>
      simp only [wlp_bind, wlp_ofExcept, wlp_writePage, wlp_pure]
      rintro ⟨page', newPage⟩ hmove
      obtain ⟨l, l', rfl, rfl⟩ := LeafPage.moveHalfTo_ok hmove
      exact ⟨(hjoined.store (Or.inl hmem) hnew rfl).store hnode'
        ⟨hnodelt.1, hnodelt.2.trans (Int.lt_succ _)⟩ hpageid, hsub⟩
  | internal q =>
      simp only [wlp_bind, wlp_ofExcept, wlp_writePage]
      rintro ⟨page', newPage⟩ hmove
      obtain ⟨l, l', rfl, rfl, -⟩ := InternalPage.moveHalfTo_ok hmove
      refine wlp_mono (settles_adoptChildren u₀ t₀ extra _
        ((hjoined.store (Or.inl hmem) hnew rfl).store hnode'
          ⟨hnodelt.1, hnodelt.2.trans (Int.lt_succ _)⟩ hpageid) hsub) ?_
      exact fun _ t' h' => wlp_pure.mpr h'

theorem settles_growRoot [Inhabited K] {oldNode newNode : PageId} (key : K)
    (hold : oldNode ∈ base ∨ oldNode ∈ mine) (hnewNode : newNode ∈ base ∨ newNode ∈ mine) :
    Settles mine base (growRoot params oldNode key newNode : TreeM K V Unit) := by
  intro u₀ t₀ extra t h hbase
  simp only [growRoot, wlp_bind, wlp_newPage, wlp_setRootPageId, wlp_ofExcept, wlp_writePage]
  intro newRoot hroot
  have hid : (TreePage.internal newRoot : TreePage K V).getPageId = t.nextPageId := by
    rw [InternalPage.populateNewRoot_ok hroot]
    rfl
  have hstored := (h.newPage.congr (s := { t with
      rootPageId := t.nextPageId, nextPageId := t.nextPageId + 1,
      calls := .newPage t.nextPageId :: t.calls }) rfl rfl rfl rfl).store
      (Or.inr List.mem_cons_self)
    ⟨h.next, Int.lt_succ _⟩ hid
  have hmine : ∀ {y}, y ∈ base ∨ y ∈ mine → y ∈ base ∨ y ∈ t.nextPageId :: mine :=
    fun hy => hy.imp_right (List.mem_cons_of_mem _)
  refine wlp_mono (settles_setParentPageId (hmine hold) u₀ t₀ _ _ hstored hbase) ?_
  intro _ t₂ h₂
  refine wlp_mono (settles_setParentPageId (hmine hnewNode) u₀ t₀ _ t₂ h₂.1 h₂.2) ?_
  intro _ t₃ h₃
  refine wlp_mono (settles_updateRootPageId params false u₀ t₀ _ t₃ h₃.1 h₃.2) fun _ t₄ h₄ => ?_
  rw [wlp_unpinPage]
  exact ⟨h₄.1.unpin_dirty h.pinned, h₄.2⟩

theorem settles_insertIntoParent [Inhabited K] (fuel : Nat) {oldNode newNode : PageId} (key : K)
    (hold : oldNode ∈ base ∨ oldNode ∈ mine) (hnewNode : newNode ∈ base ∨ newNode ∈ mine) :
    Settles mine base (insertIntoParent params true fuel oldNode key newNode : TreeM K V Unit) := by
  induction fuel generalizing oldNode key newNode mine base with
  | zero => exact fun _ _ _ _ _ _ => wlp_throw.mpr trivial
  | succ fuel ih =>
      refine settles_readPage.bind fun oldPage => ?_
      refine (settles_growRoot params key hold hnewNode).ite ?_
      intro u₀ t₀ extra t h hbase
      simp only [wlp_bind, wlp_fetchPage]
      intro page hpage
      have h₁ := (h.fetch hpage).own
      have hnewNode' : newNode ∈ base ∨ newNode ∈ oldPage.getParentPageId :: mine :=
        hnewNode.imp_right (List.mem_cons_of_mem _)
      refine wlp_mono (settles_setParentPageId hnewNode' u₀ t₀ _ _ h₁ hbase) fun _ t₂ h₂ => ?_
      simp only [wlp_internalAt, wlp_ofExcept, wlp_writePage]
      intro parent hparent parent' hinsert
      obtain ⟨l, rfl, -⟩ := InternalPage.insertNodeAfter_ok hinsert
      have h₃ := h₂.1.update (Or.inr List.mem_cons_self) hparent
        (.internal { parent with array := l }) rfl
      -- the parent stays pinned while the split goes on above it
      have hup : Settles (oldPage.getParentPageId :: mine) base
          (if l.length > parent.maxSize then do
            let newId ← split params true oldPage.getParentPageId
            let newParent ← internalAt newId
            let newKey ← MonadExcept.ofExcept (newParent.keyAt 0)
            insertIntoParent params true fuel oldPage.getParentPageId newKey newId
          else Pure.pure () : TreeM K V Unit) := by
        refine Settles.ite ?_ (Settles.pure ())
        intro u₀ t₀ extra s hs hsbase
        rw [wlp_bind]
        refine wlp_mono (settles_split params (Or.inr List.mem_cons_self) u₀ t₀ extra s hs
          hsbase) fun newId s' hs' => ?_
        have hrest : Settles (oldPage.getParentPageId :: mine) (newId :: base) (do
            let newParent ← internalAt newId
            let newKey ← MonadExcept.ofExcept (newParent.keyAt 0)
            insertIntoParent params true fuel oldPage.getParentPageId newKey newId :
              TreeM K V Unit) := by
          refine settles_internalAt.bind fun newParent => (Settles.ofExcept _).bind fun newKey => ?_
          exact ih newKey (Or.inr List.mem_cons_self) (Or.inl List.mem_cons_self)
        refine wlp_mono (hrest u₀ t₀ extra s' hs'.1 hs'.2) fun _ s'' hs'' => ⟨hs''.1, ?_⟩
        exact fun y hy => hs''.2 (List.mem_cons_of_mem _ hy)
      have hrun := hup u₀ t₀ _ { t₂ with
        pages := Function.update t₂.pages oldPage.getParentPageId
          (some (.internal { parent with array := l })),
        calls := .store oldPage.getParentPageId :: t₂.calls } h₃ h₂.2
      refine wlp_mono (by simpa only [wlp_bind, wlp_ite] using hrun) fun _ t₃ h₃ => ?_
      rw [wlp_unpinPage]
      exact ⟨h₃.1.unpin_dirty h.pinned, h₃.2⟩

end Insertion

/-! ### Removal -/

section Removal

variable {mine base : List PageId} {node recipient : PageId}

theorem settles_moveAllTo (hnode : node ∈ base ∨ node ∈ mine)
    (hrecipient : recipient ∈ base ∨ recipient ∈ mine) (indexInParent : Int) :
    Settles mine base (moveAllTo node recipient indexInParent : TreeM K V Unit) := by
  intro u₀ t₀ extra t h hbase
  have hnode' := hnode.imp_left (@hbase node)
  have hrecipient' := hrecipient.imp_left (@hbase recipient)
  simp only [moveAllTo, wlp_bind, wlp_readPage]
  intro page hpage
  cases page with
  | leaf leaf =>
      simp only [wlp_bind, wlp_leafAt, wlp_ofExcept, wlp_writePage]
      rintro target htarget ⟨page', target'⟩ hmove
      obtain ⟨rfl, rfl⟩ := LeafPage.moveAllTo_ok hmove
      exact ⟨h.update_two hrecipient' hnode' htarget hpage rfl rfl, hbase⟩
  | internal q =>
      simp only [wlp_bind, wlp_internalAt, wlp_asserting, wlp_fetchPage, wlp_ofExcept,
        wlp_unpinPage, wlp_writePage]
      rintro target htarget page hfetched parent hparent separator _ ⟨page', target'⟩ hmove
      obtain ⟨rfl, l, rfl, -⟩ := InternalPage.moveAllTo_ok hmove
      have hid : parent.pageId = q.parentPageId := h.named _ (.internal parent) hparent
      have hread := (h.fetch hfetched).unpin_clean h.pinned
      refine settles_adoptChildren u₀ t₀ extra _ ?_ hbase
      rw [hid]
      exact hread.update_two hrecipient' hnode' htarget hpage rfl rfl

theorem settles_setParentKeyAt (parentId : PageId) (index : InternalPage K → Int) (key : K) :
    Settles mine base (setParentKeyAt parentId index key : TreeM K V Unit) := by
  intro u₀ t₀ extra t h hbase
  simp only [setParentKeyAt, wlp_bind, wlp_fetchPage, wlp_internalAt, wlp_ofExcept,
    wlp_writePage, wlp_unpinPage]
  intro page hpage parent hparent parent' hset
  obtain ⟨l, rfl, -⟩ := InternalPage.setKeyAt_ok hset
  have hstored := (h.fetch hpage).own.update (Or.inr List.mem_cons_self) hparent
    (.internal { parent with array := l }) rfl
  exact ⟨hstored.unpin_dirty h.pinned, hbase⟩

theorem settles_moveFirstToEndOf (hnode : node ∈ base ∨ node ∈ mine)
    (hrecipient : recipient ∈ base ∨ recipient ∈ mine) :
    Settles mine base (moveFirstToEndOf node recipient : TreeM K V Unit) := by
  intro u₀ t₀ extra t h hbase
  have hnode' := hnode.imp_left (@hbase node)
  have hrecipient' := hrecipient.imp_left (@hbase recipient)
  simp only [moveFirstToEndOf, wlp_bind, wlp_readPage]
  intro page hpage
  cases page with
  | leaf leaf =>
      simp only [wlp_bind, wlp_leafAt, wlp_ofExcept, wlp_writePage]
      rintro target htarget ⟨page', target'⟩ hmove first _
      obtain ⟨l, l', rfl, rfl⟩ := LeafPage.moveFirstToEndOf_ok hmove
      refine settles_setParentKeyAt _ _ _ u₀ t₀ extra _ ?_ hbase
      exact h.update_two hnode' hrecipient' hpage htarget rfl rfl
  | internal q =>
      simp only [wlp_bind, wlp_internalAt, wlp_ofExcept, wlp_writePage]
      rintro target htarget child _ ⟨page', target'⟩ hmove
      obtain ⟨rfl, e, rfl, -⟩ := InternalPage.moveFirstToEndOf_ok hmove
      refine wlp_mono (settles_adoptChild u₀ t₀ extra _ (?_ : Kept _ _ _ mine _ _) hbase)
        fun _ t₁ h₁ first _ => ?_
      · exact h.update_two hnode' hrecipient' hpage htarget rfl rfl
      · exact settles_setParentKeyAt _ _ _ u₀ t₀ extra t₁ h₁.1 h₁.2

theorem settles_moveLastToFrontOf (hnode : node ∈ base ∨ node ∈ mine)
    (hrecipient : recipient ∈ base ∨ recipient ∈ mine) (parentIndex : Int) :
    Settles mine base (moveLastToFrontOf node recipient parentIndex : TreeM K V Unit) := by
  intro u₀ t₀ extra t h hbase
  have hnode' := hnode.imp_left (@hbase node)
  have hrecipient' := hrecipient.imp_left (@hbase recipient)
  simp only [moveLastToFrontOf, wlp_bind, wlp_readPage]
  intro page hpage
  cases page with
  | leaf leaf =>
      simp only [wlp_bind, wlp_leafAt, wlp_ofExcept, wlp_writePage]
      rintro target htarget ⟨page', target'⟩ hmove first _
      obtain ⟨l, l', rfl, rfl⟩ := LeafPage.moveLastToFrontOf_ok hmove
      refine settles_setParentKeyAt _ _ _ u₀ t₀ extra _ ?_ hbase
      exact h.update_two hnode' hrecipient' hpage htarget rfl rfl
  | internal q =>
      simp only [wlp_bind, wlp_internalAt, wlp_ofExcept, wlp_writePage]
      rintro target htarget child _ ⟨page', target'⟩ hmove
      obtain ⟨rfl, e, rfl, -⟩ := InternalPage.moveLastToFrontOf_ok hmove
      refine wlp_mono (settles_adoptChild u₀ t₀ extra _ (?_ : Kept _ _ _ mine _ _) hbase)
        fun _ t₁ h₁ first _ => ?_
      · exact h.update_two hnode' hrecipient' hpage htarget rfl rfl
      · exact settles_setParentKeyAt _ _ _ u₀ t₀ extra t₁ h₁.1 h₁.2

theorem settles_redistribute {neighbor : PageId} (hneighbor : neighbor ∈ base ∨ neighbor ∈ mine)
    (hnode : node ∈ base ∨ node ∈ mine) (index : Int) :
    Settles mine base (redistribute neighbor node index : TreeM K V Unit) :=
  (settles_moveFirstToEndOf hneighbor hnode).ite
    (settles_moveLastToFrontOf hneighbor hnode index)

theorem settles_findLeftSibling (node : PageId) (u₀ : DirtyUse) (t₀ : BPlusTree K V)
    (extra : PageId → Nat) (t : BPlusTree K V) (h : Kept u₀ t₀ extra mine t.pageSet t)
    (hbase : base ⊆ t.pageSet) :
    wlp (findLeftSibling true node) (fun r s =>
      Kept u₀ t₀ extra mine s.pageSet s ∧ r.2 :: base ⊆ s.pageSet) t := by
  have hprev : ¬(-1 : PageId) > 0 := by decide
  simp only [findLeftSibling, crabingProtocalFetchPage, wlp_bind, wlp_readPage, wlp_fetchPage,
    wlp_internalAt, wlp_ofExcept, wlp_record, hprev, if_false, wlp_pure, Bool.false_eq_true,
    if_true, wlp_addIntoPageSet, wlp_unpinPage]
  intro page _ page₂ hfetched parent hparent sibling _ page₃ hsibling _ _
  have hid : parent.pageId = page.getParentPageId := h.named _ (.internal parent) hparent
  rw [hid]
  have hparentPinned := h.fetch hfetched
  have hlatched := ((hparentPinned.fetch hsibling).latch (.lock true sibling)
    fun _ => rfl).join hparentPinned.pinned (fun y hy => Or.inr hy)
    (h.allocated _ _ hsibling)
  refine ⟨(hlatched.unpin_clean h.pinned).congr rfl rfl rfl rfl, fun y hy => ?_⟩
  rcases List.mem_cons.mp hy with rfl | hy
  · simp
  · exact List.mem_append_left _ (hbase hy)

theorem settles_adjustRoot (params : IndexParams K) {oldRoot : PageId}
    (hroot : oldRoot ∈ base ∨ oldRoot ∈ mine) :
    Settles mine base (adjustRoot params oldRoot : TreeM K V Bool) := by
  intro u₀ t₀ extra t h hbase
  simp only [adjustRoot, wlp_bind, wlp_readPage]
  intro page hpage
  cases page with
  | leaf leaf =>
      simp only [wlp_bind, wlp_setRootPageId]
      have h₁ := h.congr (s := { t with rootPageId := invalidPageId }) rfl rfl rfl rfl
      refine wlp_mono (settles_updateRootPageId params false u₀ t₀ extra _ h₁ hbase) ?_
      exact fun _ t₂ h₂ => wlp_pure.mpr h₂
  | internal q =>
      rw [wlp_ite]
      refine ⟨fun _ => ?_, fun _ => wlp_pure.mpr ⟨h, hbase⟩⟩
      simp only [wlp_bind, wlp_ofExcept, wlp_writePage, wlp_setRootPageId]
      rintro ⟨newRootId, page'⟩ hchild
      obtain ⟨rfl, -⟩ := InternalPage.removeAndReturnOnlyChild_ok hchild
      have h₁ := (h.update (hroot.imp_left (@hbase oldRoot)) hpage
        (.internal { q with array := [] }) rfl).congr (s := { t with
          rootPageId := newRootId,
          pages := Function.update t.pages oldRoot (some (.internal { q with array := [] })),
          calls := .store oldRoot :: t.calls }) rfl rfl rfl rfl
      refine wlp_mono (settles_updateRootPageId params false u₀ t₀ extra _ h₁ hbase) ?_
      intro _ t₂ h₂
      refine wlp_mono (settles_adoptChild u₀ t₀ extra t₂ h₂.1 h₂.2) fun _ t₃ h₃ => ?_
      exact wlp_pure.mpr h₃

theorem settles_coalesce {continueWith : PageId → TreeM K V Bool} {neighbor parentId : PageId}
    (hcontinue : Settles mine base (continueWith parentId))
    (hneighbor : neighbor ∈ base ∨ neighbor ∈ mine) (hnode : node ∈ base ∨ node ∈ mine)
    (hparent : parentId ∈ base ∨ parentId ∈ mine) (index : Int) :
    Settles mine base (coalesce true continueWith neighbor node parentId index) := by
  refine (settles_moveAllTo hnode hneighbor index).bind fun _ => ?_
  refine settles_addIntoDeletedPageSet.bind fun _ => ?_
  intro u₀ t₀ extra t h hbase
  simp only [wlp_bind, wlp_internalAt, wlp_ofExcept, wlp_writePage]
  intro parent hpage parent' hremove
  obtain ⟨l, rfl, -⟩ := InternalPage.remove_ok hremove
  exact hcontinue.ite (Settles.pure false) u₀ t₀ extra _
    (h.update (hparent.imp_left (@hbase parentId)) hpage _ rfl) hbase

theorem settles_coalesceOrRedistribute (params : IndexParams K) (fuel : Nat)
    (hnode : node ∈ base ∨ node ∈ mine) :
    Settles mine base (coalesceOrRedistribute params true fuel node : TreeM K V Bool) := by
  induction fuel generalizing node mine base with
  | zero => exact fun _ _ _ _ _ _ => wlp_throw.mpr trivial
  | succ fuel ih =>
      refine settles_readPage.bind fun page => ?_
      refine Settles.ite ?_ ?_
      · refine (settles_adjustRoot params hnode).bind fun delOldRoot => ?_
        refine Settles.bind ?_ fun _ => Settles.pure delOldRoot
        exact settles_addIntoDeletedPageSet.ite (Settles.pure ())
      · intro u₀ t₀ extra t h hbase
        rw [wlp_bind]
        refine wlp_mono (settles_findLeftSibling node u₀ t₀ extra t h hbase) ?_
        rintro ⟨isRightSibling, node2⟩ t₁ ⟨h₁, hbase₁⟩
        simp only [wlp_bind, wlp_fetchPage, wlp_internalAt, wlp_readPage, wlp_ite, wlp_unpinPage,
          wlp_pure]
        intro parentPage hfetched parent _ page2 _
        have hnode₁ : node ∈ node2 :: base ∨ node ∈ mine :=
          hnode.imp_left (List.mem_cons_of_mem _)
        have hnode2 : node2 ∈ node2 :: base := List.mem_cons_self
        refine ⟨fun _ => ?_, fun _ => ?_⟩
        · -- the parent is pinned, and is unpinned as dirty behind the merge
          have hnode₂ : node ∈ node2 :: base ∨ node ∈ page.getParentPageId :: mine :=
            hnode₁.imp_right (List.mem_cons_of_mem _)
          have hmerge : Settles (page.getParentPageId :: mine) (node2 :: base)
              (coalesce true (coalesceOrRedistribute params true fuel)
                (if isRightSibling = true then node else node2)
                (if isRightSibling = true then node2 else node) page.getParentPageId
                (parent.valueIndex (if isRightSibling = true then node2 else node)) :
                  TreeM K V Bool) := by
            refine settles_coalesce (ih (Or.inr List.mem_cons_self)) ?_ ?_
              (Or.inr List.mem_cons_self) _
            · split
              · exact hnode₂
              · exact Or.inl hnode2
            · split
              · exact Or.inl hnode2
              · exact hnode₂
          refine wlp_mono (hmerge u₀ t₀ _ _ (h₁.fetch hfetched).own hbase₁) fun _ t₂ h₂ => ?_
          exact ⟨h₂.1.unpin_dirty h.pinned, fun y hy => h₂.2 (List.mem_cons_of_mem _ hy)⟩
        · refine wlp_mono (settles_redistribute (Or.inl hnode2) hnode₁ _ u₀ t₀ _ _
            (h₁.fetch hfetched) hbase₁) fun _ t₂ h₂ => ?_
          exact ⟨h₂.1.unpin_clean h.pinned, fun y hy => h₂.2 (List.mem_cons_of_mem _ hy)⟩

end Removal

end BPlusTree

end ScuDb
