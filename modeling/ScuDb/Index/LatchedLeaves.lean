import ScuDb.Index.ConcurrentCalls

/-!
A leaf is changed only under its latch.

A writer may change the parent id of a leaf it has not latched, but no
entry of it and not its link, and it does not delete it. This holds of
every run of `Insert` and `Remove` from any state: a page that is written
as a leaf has been reached through `CrabingProtocalFetchPage`, which
latches it, or is new.
-/

namespace ScuDb

open Foundations

variable {K V α β : Type}

namespace BPlusTree

/-- Between the states `t₀` and `t` the page has been latched by a writer. -/
def Latched (t₀ t : BPlusTree K V) (y : PageId) : Prop :=
  ∃ recent, t.calls = recent ++ t₀.calls ∧ PoolCall.lock true y ∈ recent

/-- Two leaves that differ in their parent ids only. -/
structure SameLeaf (leaf leaf' : LeafPage K V) : Prop where
  array : leaf'.array = leaf.array
  nextPageId : leaf'.nextPageId = leaf.nextPageId

/-- What a writer that began in the state `t₀` has done so far: it has
latched the pages of its page set, and all leaves it has not latched are
there as they were. -/
structure Guarded (t₀ t : BPlusTree K V) : Prop where
  calls : t₀.calls <:+ t.calls
  pageSet : ∀ y ∈ t.pageSet, Latched t₀ t y
  nextPageId : t₀.nextPageId ≤ t.nextPageId
  leaves : ∀ y leaf, y < t₀.nextPageId → ¬Latched t₀ t y → t₀.pages y = some (.leaf leaf) →
    ∃ leaf', t.pages y = some (.leaf leaf') ∧ SameLeaf leaf leaf'

/-- The writer may write to the page: it has latched it, or the page is
new or was no leaf. -/
def Open (t₀ t : BPlusTree K V) (y : PageId) : Prop :=
  Latched t₀ t y ∨ t₀.nextPageId ≤ y ∨ ∀ leaf, t₀.pages y ≠ some (.leaf leaf)

/-- A part of what the writer does, which leads from `t` to `t'`. -/
structure Advances (t₀ t t' : BPlusTree K V) : Prop where
  guarded : Guarded t₀ t'
  calls : t.calls <:+ t'.calls

section Rules

variable {t₀ t t' t'' : BPlusTree K V} {y id : PageId}

theorem Latched.mono (h : Latched t₀ t y) (hcalls : t.calls <:+ t'.calls) : Latched t₀ t' y := by
  obtain ⟨recent, hrecent, hmem⟩ := h
  obtain ⟨more, hmore⟩ := hcalls
  refine ⟨more ++ recent, ?_, List.mem_append_right _ hmem⟩
  rw [← hmore, hrecent, List.append_assoc]

theorem Open.mono (h : Open t₀ t y) (hcalls : t.calls <:+ t'.calls) : Open t₀ t' y :=
  h.imp_left fun hlatched => hlatched.mono hcalls

theorem Guarded.refl (hset : t.pageSet = []) : Guarded t t where
  calls := List.suffix_rfl
  pageSet y hy := by
    rw [hset] at hy
    cases hy
  nextPageId := le_rfl
  leaves y leaf _ _ hleaf := ⟨leaf, hleaf, rfl, rfl⟩

theorem Guarded.advances (h : Guarded t₀ t) : Advances t₀ t t := ⟨h, List.suffix_rfl⟩

theorem Advances.trans (h : Advances t₀ t t') (h' : Advances t₀ t' t'') : Advances t₀ t t'' :=
  ⟨h'.guarded, h.calls.trans h'.calls⟩

/-- A page that is no leaf now may be written to. -/
theorem Guarded.isOpen (h : Guarded t₀ t) {q : InternalPage K}
    (hq : t.pages y = some (.internal q)) : Open t₀ t y := by
  by_cases hlatched : Latched t₀ t y
  · exact Or.inl hlatched
  · rcases lt_or_ge y t₀.nextPageId with hlt | hge
    · refine Or.inr (Or.inr fun leaf hleaf => ?_)
      obtain ⟨leaf', hleaf', -⟩ := h.leaves y leaf hlt hlatched hleaf
      cases hq.symm.trans hleaf'
    · exact Or.inr (Or.inl hge)

/-- A step that keeps the leaves that are not open. -/
theorem Guarded.next (h : Guarded t₀ t) (hcalls : t.calls <:+ t'.calls)
    (hset : ∀ y ∈ t'.pageSet, y ∈ t.pageSet ∨ Latched t₀ t y)
    (hnext : t.nextPageId ≤ t'.nextPageId)
    (hpages : ∀ y leaf, ¬Open t₀ t y → t.pages y = some (.leaf leaf) →
      ∃ leaf', t'.pages y = some (.leaf leaf') ∧ SameLeaf leaf leaf') : Advances t₀ t t' where
  guarded :=
    { calls := h.calls.trans hcalls
      pageSet := fun y hy => ((hset y hy).elim (h.pageSet y) id).mono hcalls
      nextPageId := h.nextPageId.trans hnext
      leaves := by
        intro y leaf hlt hlatched hleaf
        have hlatched' : ¬Latched t₀ t y := fun hl => hlatched (hl.mono hcalls)
        obtain ⟨leaf₁, hleaf₁, hsame₁⟩ := h.leaves y leaf hlt hlatched' hleaf
        have hclosed : ¬Open t₀ t y := by
          rintro (hl | hge | hnot)
          · exact hlatched' hl
          · exact absurd hlt (not_lt.mpr hge)
          · exact hnot leaf hleaf
        obtain ⟨leaf₂, hleaf₂, hsame₂⟩ := hpages y leaf₁ hclosed hleaf₁
        exact ⟨leaf₂, hleaf₂, hsame₂.array.trans hsame₁.array,
          hsame₂.nextPageId.trans hsame₁.nextPageId⟩ }
  calls := hcalls

/-- A step that changes no page. -/
theorem Guarded.keep (h : Guarded t₀ t) (hcalls : t.calls <:+ t'.calls)
    (hset : ∀ y ∈ t'.pageSet, y ∈ t.pageSet ∨ Latched t₀ t y)
    (hnext : t.nextPageId ≤ t'.nextPageId) (hpages : t'.pages = t.pages) : Advances t₀ t t' :=
  h.next hcalls hset hnext fun y leaf _ hleaf => ⟨leaf, by rw [hpages, hleaf], rfl, rfl⟩

/-- A step that writes to, or deletes, one open page. -/
theorem Guarded.write (h : Guarded t₀ t) (hopen : Open t₀ t id) {page : Option (TreePage K V)}
    (hcalls : t.calls <:+ t'.calls) (hset : t'.pageSet = t.pageSet)
    (hnext : t'.nextPageId = t.nextPageId)
    (hpages : t'.pages = Function.update t.pages id page) : Advances t₀ t t' := by
  refine h.next hcalls (fun y hy => Or.inl (hset ▸ hy)) hnext.ge fun y leaf hclosed hleaf => ?_
  have hne : y ≠ id := by
    rintro rfl
    exact hclosed hopen
  exact ⟨leaf, by rw [hpages, Function.update_of_ne hne, hleaf], rfl, rfl⟩

end Rules

/-- The program does a part of what the writer does. -/
def Respects (t₀ t : BPlusTree K V) (m : TreeM K V α) : Prop :=
  wlp m (fun _ t' => Advances t₀ t t') t

namespace Respects

variable {t₀ t t' : BPlusTree K V} {id : PageId}

theorem pure (h : Guarded t₀ t) (a : α) : Respects t₀ t (pure a : TreeM K V α) :=
  wlp_pure.mpr h.advances

theorem bind {m : TreeM K V α} {f : α → TreeM K V β} (hm : Respects t₀ t m)
    (hf : ∀ a t', Advances t₀ t t' → Respects t₀ t' (f a)) : Respects t₀ t (m >>= f) := by
  rw [Respects, wlp_bind]
  exact wlp_mono hm fun a t' h => wlp_mono (hf a t' h) fun _ _ h' => h.trans h'

/-- What the first part is known to return may be used for the second. -/
theorem bind_of {m : TreeM K V α} {f : α → TreeM K V β} {P : α → BPlusTree K V → Prop}
    (hm : wlp m (fun a t' => Advances t₀ t t' ∧ P a t') t)
    (hf : ∀ a t', Advances t₀ t t' → P a t' → Respects t₀ t' (f a)) : Respects t₀ t (m >>= f) := by
  rw [Respects, wlp_bind]
  exact wlp_mono hm fun a t' h => wlp_mono (hf a t' h.1 h.2) fun _ _ h' => h.1.trans h'

theorem ite {c : Prop} [Decidable c] {m n : TreeM K V α} (hm : c → Respects t₀ t m)
    (hn : ¬c → Respects t₀ t n) : Respects t₀ t (if c then m else n) :=
  wlp_ite.mpr ⟨hm, hn⟩

theorem throw {e : Fault} : Respects t₀ t (throw e : TreeM K V α) :=
  wlp_throw.mpr trivial

theorem get {f : BPlusTree K V → TreeM K V α} (hf : Respects t₀ t (f t)) :
    Respects t₀ t (get >>= f) := by
  rw [Respects, wlp_bind, wlp_get]
  exact hf

theorem ofExcept {x : Except Fault α} {f : α → TreeM K V β}
    (hf : ∀ a, x = .ok a → Respects t₀ t (f a)) :
    Respects t₀ t (MonadExcept.ofExcept x >>= f) := by
  rw [Respects, wlp_bind, wlp_ofExcept]
  exact hf

theorem value (h : Guarded t₀ t) (x : Except Fault α) :
    Respects t₀ t (MonadExcept.ofExcept x) :=
  wlp_ofExcept.mpr fun _ _ => h.advances

theorem readPage {f : TreePage K V → TreeM K V α}
    (hf : ∀ page, t.pages id = some page → Respects t₀ t (f page)) :
    Respects t₀ t (readPage id >>= f) := by
  rw [Respects, wlp_bind, wlp_readPage]
  exact hf

theorem leafAt {f : LeafPage K V → TreeM K V α}
    (hf : ∀ leaf, t.pages id = some (.leaf leaf) → Respects t₀ t (f leaf)) :
    Respects t₀ t (leafAt id >>= f) := by
  rw [Respects, wlp_bind, wlp_leafAt]
  exact hf

theorem internalAt {f : InternalPage K → TreeM K V α}
    (hf : ∀ q, t.pages id = some (.internal q) → Respects t₀ t (f q)) :
    Respects t₀ t (internalAt id >>= f) := by
  rw [Respects, wlp_bind, wlp_internalAt]
  exact hf

theorem record (h : Guarded t₀ t) (call : PoolCall) : Respects t₀ t (record call) := by
  rw [Respects, wlp_record]
  exact h.keep (List.suffix_cons _ _) (fun _ => Or.inl) le_rfl rfl

theorem unpinPage (h : Guarded t₀ t) (isDirty : Bool) : Respects t₀ t (unpinPage id isDirty) :=
  record h _

theorem fetchPage (h : Guarded t₀ t) : Respects t₀ t (fetchPage id) := by
  rw [Respects, wlp_fetchPage]
  exact fun _ _ => h.keep (List.suffix_cons _ _) (fun _ => Or.inl) le_rfl rfl

theorem writePage (h : Guarded t₀ t) (hopen : Open t₀ t id) (page : TreePage K V) :
    Respects t₀ t (writePage id page) := by
  rw [Respects, wlp_writePage]
  exact h.write hopen (List.suffix_cons _ _) rfl rfl rfl

theorem setParentPageId (h : Guarded t₀ t) (parent : PageId) :
    Respects t₀ t (setParentPageId id parent) := by
  rw [Respects, wlp_setParentPageId]
  intro page hpage
  refine h.next (List.suffix_cons _ _) (fun _ => Or.inl) le_rfl fun y leaf _ hleaf => ?_
  by_cases hy : y = id
  · subst hy
    cases hpage.symm.trans hleaf
    exact ⟨_, Function.update_self _ _ _, rfl, rfl⟩
  · exact ⟨leaf, (Function.update_of_ne hy _ _).trans hleaf, rfl, rfl⟩

theorem modify (h : Guarded t₀ t) {g : BPlusTree K V → BPlusTree K V}
    (hcalls : t.calls <:+ (g t).calls) (hset : (g t).pageSet = t.pageSet)
    (hnext : (g t).nextPageId = t.nextPageId) (hpages : (g t).pages = t.pages) :
    Respects t₀ t (modify g) := by
  rw [Respects, wlp_modify]
  exact h.keep hcalls (fun y hy => Or.inl (hset ▸ hy)) hnext.ge hpages

theorem getRootPageId {f : PageId → TreeM K V α} (hf : Respects t₀ t (f t.rootPageId)) :
    Respects t₀ t (getRootPageId >>= f) := by
  rw [Respects, wlp_bind, wlp_getRootPageId]
  exact hf

theorem setRootPageId (h : Guarded t₀ t) : Respects t₀ t (setRootPageId id) :=
  modify h List.suffix_rfl rfl rfl rfl

theorem newPage (h : Guarded t₀ t) :
    wlp newPage (fun id t' => Advances t₀ t t' ∧ Open t₀ t' id) t := by
  rw [wlp_newPage]
  refine ⟨h.keep (List.suffix_cons _ _) (fun _ => Or.inl) (Int.le_add_one le_rfl) rfl, ?_⟩
  exact Or.inr (Or.inl h.nextPageId)

theorem addIntoPageSet (h : Guarded t₀ t) (hlatched : Latched t₀ t id) {transaction : Bool} :
    Respects t₀ t (addIntoPageSet transaction id) := by
  rw [Respects, BPlusTree.addIntoPageSet, wlp_bind, wlp_require]
  rintro -
  rw [wlp_modify]
  refine h.keep List.suffix_rfl (fun y hy => ?_) le_rfl rfl
  rcases List.mem_append.mp hy with hy | hy
  · exact Or.inl hy
  · rw [List.mem_singleton.mp hy]
    exact Or.inr hlatched

theorem addIntoDeletedPageSet (h : Guarded t₀ t) {transaction : Bool} :
    Respects t₀ t (addIntoDeletedPageSet transaction id) := by
  rw [Respects, BPlusTree.addIntoDeletedPageSet, wlp_bind, wlp_require]
  rintro -
  exact modify h List.suffix_rfl rfl rfl rfl

theorem tryUnlockRootPageId (h : Guarded t₀ t) (exclusive : Bool) :
    Respects t₀ t (tryUnlockRootPageId exclusive) := by
  rw [Respects, BPlusTree.tryUnlockRootPageId, wlp_modify]
  split
  · exact h.keep (List.suffix_cons _ _) (fun _ => Or.inl) le_rfl rfl
  · exact h.advances

theorem adoptChild (h : Guarded t₀ t) (parent child : PageId) :
    Respects t₀ t (adoptChild parent child) := by
  refine (fetchPage h).bind fun _ t' h' => ?_
  exact (setParentPageId h'.guarded parent).bind fun _ t'' h'' => unpinPage h''.guarded true

theorem adoptChildren (h : Guarded t₀ t) (parent : PageId) (entries : List (K × PageId)) :
    Respects t₀ t (adoptChildren parent entries) := by
  induction entries generalizing t with
  | nil => exact pure h _
  | cons e entries ih => exact (adoptChild h parent e.2).bind fun _ t' h' => ih h'.guarded

/-! ### The descent -/

/-- A page of the page set is released, and deleted when it has left the tree. -/
theorem freePage (h : Guarded t₀ t) (hlatched : Latched t₀ t id) (exclusive : Bool) :
    Respects t₀ t (freePage exclusive id) := by
  refine (record h _).bind fun _ t₁ h₁ => (unpinPage h₁.guarded exclusive).bind fun _ t₂ h₂ => ?_
  have hopen : Open t₀ t₂ id := Or.inl ((hlatched.mono h₁.calls).mono h₂.calls)
  refine get (ite (fun _ => ?_) fun _ => pure h₂.guarded ())
  rw [Respects, wlp_bind, wlp_deletePage, wlp_modify]
  exact h₂.guarded.write hopen (List.suffix_cons _ _) rfl rfl rfl

theorem freePagesInTransaction (h : Guarded t₀ t) (exclusive transaction : Bool) (cur : PageId) :
    Respects t₀ t (freePagesInTransaction exclusive transaction cur) := by
  refine (tryUnlockRootPageId h exclusive).bind fun _ t₁ h₁ => ite (fun _ => ?_) fun _ => ?_
  · rw [Respects, wlp_bind, wlp_require]
    rintro -
    refine (fetchPage h₁.guarded).bind fun _ t₂ h₂ => ?_
    refine (record h₂.guarded _).bind fun _ t₃ h₃ => ?_
    exact (unpinPage h₃.guarded false).bind fun _ t₄ h₄ => unpinPage h₄.guarded false
  · refine get (bind (m := forM t₁.pageSet (BPlusTree.freePage exclusive)) ?_ fun _ t₂ h₂ => ?_)
    · refine wlp_forM (I := fun s => Advances t₀ t₁ s) (fun y hy s hs => ?_) h₁.guarded.advances
      have hlatched := (h₁.guarded.pageSet y hy).mono hs.calls
      exact wlp_mono (freePage hs.guarded hlatched exclusive) fun _ _ h' => hs.trans h'
    · refine get ?_
      rw [Respects, wlp_bind, wlp_require]
      rintro -
      rw [wlp_modify]
      refine h₂.guarded.keep List.suffix_rfl (fun y hy => ?_) le_rfl rfl
      cases hy

theorem crabingProtocalFetchPage (h : Guarded t₀ t) {op : OpType} (hop : op ≠ .read)
    (previous : PageId) (transaction : Bool) :
    wlp (crabingProtocalFetchPage id op previous transaction)
      (fun _ t' => Advances t₀ t t' ∧ Latched t₀ t' id) t := by
  have hexclusive : decide (op ≠ .read) = true := decide_eq_true hop
  simp only [BPlusTree.crabingProtocalFetchPage, hexclusive]
  rw [wlp_bind, wlp_fetchPage]
  intro page hpage
  rw [wlp_bind, wlp_record]
  have hlatched : Advances t₀ t { t with calls := .lock true id :: .fetchPage id :: t.calls } :=
    h.keep ((List.suffix_cons _ _).trans (List.suffix_cons _ _)) (fun _ => Or.inl) le_rfl rfl
  have hid : Latched t₀ { t with calls := .lock true id :: .fetchPage id :: t.calls } id := by
    obtain ⟨recent, hrecent⟩ := h.calls
    exact ⟨.lock true id :: .fetchPage id :: recent, by simp [hrecent], List.mem_cons_self⟩
  have hguarded := hlatched.guarded
  generalize { t with calls := .lock true id :: .fetchPage id :: t.calls } = s
    at hlatched hid hguarded
  refine wlp_mono (Q := fun _ t' => Advances t₀ s t') ?_
    fun _ t' h' => ⟨hlatched.trans h', hid.mono h'.calls⟩
  refine readPage fun page _ => bind ?_ fun release s₁ h₁ => bind ?_ fun _ s₂ h₂ => ?_
  · exact ite (fun _ => ite (fun _ => pure hguarded _) fun _ => value hguarded _)
      fun _ => pure hguarded _
  · exact ite (fun _ => freePagesInTransaction h₁.guarded _ _ _) fun _ => pure h₁.guarded _
  · refine ite (fun _ => addIntoPageSet h₂.guarded ?_) fun _ => pure h₂.guarded _
    exact (hid.mono h₁.calls).mono h₂.calls

variable (params : IndexParams K)

theorem findLeafFrom (h : Guarded t₀ t) (key : K) (leftMost : Bool) {op : OpType}
    (hop : op ≠ .read) (transaction : Bool) (fuel : Nat) (hlatched : Latched t₀ t id) :
    wlp (findLeafFrom params key leftMost op transaction fuel id)
      (fun y t' => Advances t₀ t t' ∧ Latched t₀ t' y) t := by
  induction fuel generalizing t id with
  | zero => exact wlp_throw.mpr trivial
  | succ fuel ih =>
      rw [BPlusTree.findLeafFrom, wlp_bind, wlp_readPage]
      intro page _
      cases page with
      | leaf leaf => exact wlp_pure.mpr ⟨h.advances, hlatched⟩
      | internal q =>
          rw [wlp_bind, wlp_ofExcept]
          intro next _
          rw [wlp_bind]
          refine wlp_mono (crabingProtocalFetchPage h hop id transaction) fun _ t₁ h₁ => ?_
          refine wlp_mono (ih h₁.1.guarded h₁.2) fun y t₂ h₂ => ⟨h₁.1.trans h₂.1, h₂.2⟩

/-- The leaf the descent ends in is latched. -/
theorem findLeafPage (h : Guarded t₀ t) (key : K) (leftMost : Bool) {op : OpType}
    (hop : op ≠ .read) (transaction : Bool) :
    wlp (findLeafPage params key leftMost op transaction)
      (fun r t' => Advances t₀ t t' ∧ ∀ y, r = some y → Latched t₀ t' y) t := by
  rw [BPlusTree.findLeafPage, wlp_bind, lockRootPageId, wlp_modify, wlp_bind, wlp_getRootPageId]
  have hlocked : Advances t₀ t { t with
      rootLockedCnt := t.rootLockedCnt + 1, calls := .lockRoot (op ≠ .read) :: t.calls } :=
    h.keep (List.suffix_cons _ _) (fun _ => Or.inl) le_rfl rfl
  rw [wlp_ite]
  refine ⟨fun _ => ?_, fun _ => ?_⟩
  · rw [wlp_bind]
    refine wlp_mono (tryUnlockRootPageId hlocked.guarded _) fun _ t₁ h₁ => ?_
    refine wlp_pure.mpr ⟨hlocked.trans h₁, ?_⟩
    rintro y ⟨⟩
  · rw [wlp_bind, wlp_get, wlp_bind]
    refine wlp_mono (crabingProtocalFetchPage hlocked.guarded hop _ transaction) fun _ t₁ h₁ => ?_
    rw [wlp_bind]
    refine wlp_mono (findLeafFrom params h₁.1.guarded key leftMost hop transaction _ h₁.2)
      fun y t₂ h₂ => ?_
    refine wlp_pure.mpr ⟨hlocked.trans (h₁.1.trans h₂.1), ?_⟩
    rintro y ⟨⟩
    exact h₂.2

/-! ### Insertion -/

theorem updateRootPageId (h : Guarded t₀ t) (insertRecord : Bool) :
    Respects t₀ t (updateRootPageId params insertRecord) := by
  refine (record h _).bind fun _ t₁ h₁ => getRootPageId (get (ofExcept fun header _ => ?_))
  have hstored := modify (g := fun t : BPlusTree K V => { t with
    headerPage := header.2, calls := .store headerPageId :: t.calls }) h₁.guarded
    (List.suffix_cons _ _) rfl rfl rfl
  exact hstored.bind fun _ t₂ h₂ => unpinPage h₂.guarded true

theorem split (h : Guarded t₀ t) (hopen : Open t₀ t id) (transaction : Bool) :
    wlp (split params transaction id) (fun y t' => Advances t₀ t t' ∧ Open t₀ t' y) t := by
  rw [BPlusTree.split, wlp_bind]
  refine wlp_mono (newPage h) ?_
  rintro newId t₁ ⟨h₁, hnew⟩
  have hlatched : Latched t₀ { t₁ with calls := .lock true newId :: t₁.calls } newId := by
    obtain ⟨recent, hrecent⟩ := h₁.guarded.calls
    exact ⟨.lock true newId :: recent, by simp [hrecent], List.mem_cons_self⟩
  have hlocked : Advances t₀ t₁ { t₁ with calls := .lock true newId :: t₁.calls } :=
    h₁.guarded.keep (List.suffix_cons _ _) (fun _ => Or.inl) le_rfl rfl
  rw [wlp_bind, wlp_record, wlp_bind]
  refine wlp_mono (addIntoPageSet hlocked.guarded hlatched) fun _ t₂ h₂ => ?_
  have hstart : Advances t₀ t t₂ := (h₁.trans hlocked).trans h₂
  have hnew₂ : Open t₀ t₂ newId := Or.inl (hlatched.mono h₂.calls)
  have hopen₂ : Open t₀ t₂ id := hopen.mono hstart.calls
  rw [wlp_bind]
  rw [wlp_readPage]
  intro page _
  cases page with
  | leaf leaf =>
      rw [wlp_bind, wlp_ofExcept]
      intro pages _
      rw [wlp_bind]
      refine wlp_mono (writePage hstart.guarded hnew₂ _) fun _ t₃ h₃ => ?_
      rw [wlp_bind]
      refine wlp_mono (writePage h₃.guarded (hopen₂.mono h₃.calls) _) fun _ t₄ h₄ => ?_
      rw [wlp_pure]
      exact ⟨hstart.trans (h₃.trans h₄), (hnew₂.mono h₃.calls).mono h₄.calls⟩
  | internal q =>
      rw [wlp_bind, wlp_ofExcept]
      intro pages _
      rw [wlp_bind]
      refine wlp_mono (writePage hstart.guarded hnew₂ _) fun _ t₃ h₃ => ?_
      rw [wlp_bind]
      refine wlp_mono (writePage h₃.guarded (hopen₂.mono h₃.calls) _) fun _ t₄ h₄ => ?_
      rw [wlp_bind]
      refine wlp_mono (adoptChildren h₄.guarded newId _) fun _ t₅ h₅ => ?_
      rw [wlp_pure]
      have hmoved := (h₃.trans h₄).trans h₅
      exact ⟨hstart.trans hmoved, hnew₂.mono hmoved.calls⟩

theorem growRoot [Inhabited K] (h : Guarded t₀ t) (oldNode : PageId) (key : K) (newNode : PageId) :
    Respects t₀ t (growRoot params oldNode key newNode) := by
  refine bind_of (newPage h) fun newId t₁ h₁ hnew => ?_
  refine (setRootPageId h₁.guarded).bind fun _ t₂ h₂ => ofExcept fun newRoot _ => ?_
  refine (writePage h₂.guarded (hnew.mono h₂.calls) _).bind fun _ t₃ h₃ => ?_
  refine (setParentPageId h₃.guarded newId).bind fun _ t₄ h₄ => ?_
  refine (setParentPageId h₄.guarded newId).bind fun _ t₅ h₅ => ?_
  refine (updateRootPageId params h₅.guarded false).bind fun _ t₆ h₆ => ?_
  exact unpinPage h₆.guarded true

theorem insertIntoParent [Inhabited K] (h : Guarded t₀ t) (transaction : Bool) (fuel : Nat)
    (oldNode : PageId) (key : K) (newNode : PageId) :
    Respects t₀ t (insertIntoParent params transaction fuel oldNode key newNode) := by
  induction fuel generalizing t oldNode key newNode with
  | zero => exact throw
  | succ fuel ih =>
      refine readPage fun oldPage _ => ite (fun _ => growRoot params h oldNode key newNode) ?_
      refine fun _ => (fetchPage h).bind fun _ t₁ h₁ => ?_
      refine (setParentPageId h₁.guarded _).bind fun _ t₂ h₂ => internalAt fun parent hparent => ?_
      -- the parent is no leaf
      have hopen := h₂.guarded.isOpen hparent
      refine ofExcept fun parent' _ => (writePage h₂.guarded hopen _).bind fun _ t₃ h₃ => ?_
      refine bind (ite (fun _ => ?_) fun _ => pure h₃.guarded ()) fun _ t₄ h₄ =>
        unpinPage h₄.guarded true
      refine bind_of (split params h₃.guarded (hopen.mono h₃.calls) transaction)
        fun newId t₄ h₄ _ => internalAt fun newParent _ => ofExcept fun newKey _ => ?_
      exact ih h₄.guarded _ newKey newId

theorem insertIntoLeaf [Inhabited K] (h : Guarded t₀ t) (key : K) (value : V)
    (transaction : Bool) : Respects t₀ t (insertIntoLeaf params key value transaction) := by
  refine bind_of (findLeafPage params h key false (by decide) transaction)
    fun found t₁ h₁ hfound => ?_
  cases found with
  | none => exact throw
  | some id =>
      have hopen : Open t₀ t₁ id := Or.inl (hfound id rfl)
      refine leafAt fun leaf _ => ?_
      split
      · exact (freePagesInTransaction h₁.guarded true transaction (-1)).bind fun _ t₂ h₂ =>
          pure h₂.guarded false
      · refine ofExcept fun leaf' _ => (writePage h₁.guarded hopen _).bind fun _ t₂ h₂ => ?_
        refine bind (ite (fun _ => ?_) fun _ => pure h₂.guarded ()) fun _ t₃ h₃ =>
          (freePagesInTransaction h₃.guarded true transaction (-1)).bind fun _ t₄ h₄ =>
            pure h₄.guarded true
        refine bind_of (split params h₂.guarded (hopen.mono h₂.calls) transaction)
          fun newId t₃ h₃ _ => leafAt fun newLeaf _ => ofExcept fun newKey _ => get ?_
        exact insertIntoParent params h₃.guarded transaction _ id newKey newId

/-! ### Removal -/

theorem adjustRoot (h : Guarded t₀ t) (oldRoot : PageId) :
    Respects t₀ t (adjustRoot params oldRoot) := by
  refine readPage fun page hpage => ?_
  cases page with
  | leaf leaf =>
      refine (setRootPageId h).bind fun _ t₁ h₁ => ?_
      exact (updateRootPageId params h₁.guarded false).bind fun _ t₂ h₂ => pure h₂.guarded true
  | internal q =>
      refine ite (fun _ => ofExcept fun result _ => ?_) fun _ => pure h false
      refine (writePage h (h.isOpen hpage) _).bind fun _ t₁ h₁ => ?_
      refine (setRootPageId h₁.guarded).bind fun _ t₂ h₂ => ?_
      refine (updateRootPageId params h₂.guarded false).bind fun _ t₃ h₃ => ?_
      exact (adoptChild h₃.guarded _ _).bind fun _ t₄ h₄ => pure h₄.guarded true

theorem findLeftSibling (h : Guarded t₀ t) (transaction : Bool) (node : PageId) :
    wlp (findLeftSibling transaction node)
      (fun r t' => Advances t₀ t t' ∧ Latched t₀ t' r.2) t := by
  rw [BPlusTree.findLeftSibling, wlp_bind, wlp_readPage]
  intro page _
  rw [wlp_bind]
  refine wlp_mono (fetchPage h) fun _ t₁ h₁ => ?_
  rw [wlp_bind, wlp_internalAt]
  intro parent _
  rw [wlp_bind, wlp_ofExcept]
  intro sibling _
  rw [wlp_bind]
  refine wlp_mono (crabingProtocalFetchPage h₁.guarded (by decide) _ transaction)
    fun _ t₂ h₂ => ?_
  rw [wlp_bind]
  refine wlp_mono (unpinPage h₂.1.guarded false) fun _ t₃ h₃ => ?_
  rw [wlp_pure]
  exact ⟨(h₁.trans h₂.1).trans h₃, h₂.2.mono h₃.calls⟩

theorem moveAllTo (h : Guarded t₀ t) {node recipient : PageId} (hnode : Open t₀ t node)
    (hrecipient : Open t₀ t recipient) (indexInParent : Int) :
    Respects t₀ t (moveAllTo node recipient indexInParent) := by
  refine readPage fun page _ => ?_
  cases page with
  | leaf leaf =>
      refine leafAt fun target _ => ofExcept fun pages _ => ?_
      refine (writePage h hrecipient _).bind fun _ t₁ h₁ => ?_
      exact writePage h₁.guarded (hnode.mono h₁.calls) _
  | internal q =>
      refine internalAt fun target _ => (fetchPage h).bind fun _ t₁ h₁ => ?_
      refine internalAt fun parent _ => ofExcept fun separator _ => ?_
      refine (unpinPage h₁.guarded false).bind fun _ t₂ h₂ => ofExcept fun pages _ => ?_
      have hcalls := h₁.calls.trans h₂.calls
      refine (writePage h₂.guarded (hrecipient.mono hcalls) _).bind fun _ t₃ h₃ => ?_
      refine (writePage h₃.guarded (hnode.mono (hcalls.trans h₃.calls)) _).bind fun _ t₄ h₄ => ?_
      exact adoptChildren h₄.guarded _ _

theorem setParentKeyAt (h : Guarded t₀ t) (parentId : PageId) (index : InternalPage K → Int)
    (key : K) : Respects t₀ t (setParentKeyAt parentId index key) := by
  refine (fetchPage h).bind fun _ t₁ h₁ => internalAt fun parent hparent => ?_
  refine ofExcept fun parent' _ => ?_
  refine (writePage h₁.guarded (h₁.guarded.isOpen hparent) _).bind fun _ t₂ h₂ => ?_
  exact unpinPage h₂.guarded true

theorem writePages (h : Guarded t₀ t) {node recipient : PageId} (hnode : Open t₀ t node)
    (hrecipient : Open t₀ t recipient) (page target : TreePage K V) {m : TreeM K V α}
    (hm : ∀ t', Advances t₀ t t' → Respects t₀ t' m) :
    Respects t₀ t (do BPlusTree.writePage node page; BPlusTree.writePage recipient target; m) := by
  refine (writePage h hnode page).bind fun _ t₁ h₁ => ?_
  refine (writePage h₁.guarded (hrecipient.mono h₁.calls) target).bind fun _ t₂ h₂ => ?_
  exact hm t₂ (h₁.trans h₂)

theorem moveFirstToEndOf (h : Guarded t₀ t) {node recipient : PageId} (hnode : Open t₀ t node)
    (hrecipient : Open t₀ t recipient) : Respects t₀ t (moveFirstToEndOf node recipient) := by
  refine readPage fun page _ => ?_
  cases page with
  | leaf leaf =>
      refine leafAt fun target _ => ofExcept fun pages _ => ?_
      refine writePages h hnode hrecipient _ _ fun t₁ h₁ => ofExcept fun first _ => ?_
      exact setParentKeyAt h₁.guarded _ _ first.1
  | internal q =>
      refine internalAt fun target _ => ofExcept fun child _ => ofExcept fun pages _ => ?_
      refine writePages h hnode hrecipient _ _ fun t₁ h₁ => ?_
      refine (adoptChild h₁.guarded _ child).bind fun _ t₂ h₂ => ofExcept fun first _ => ?_
      exact setParentKeyAt h₂.guarded _ _ first

theorem moveLastToFrontOf (h : Guarded t₀ t) {node recipient : PageId} (hnode : Open t₀ t node)
    (hrecipient : Open t₀ t recipient) (parentIndex : Int) :
    Respects t₀ t (moveLastToFrontOf node recipient parentIndex) := by
  refine readPage fun page _ => ?_
  cases page with
  | leaf leaf =>
      refine leafAt fun target _ => ofExcept fun pages _ => ?_
      refine writePages h hnode hrecipient _ _ fun t₁ h₁ => ofExcept fun first _ => ?_
      exact setParentKeyAt h₁.guarded _ _ first.1
  | internal q =>
      refine internalAt fun target _ => ofExcept fun child _ => ofExcept fun pages _ => ?_
      refine writePages h hnode hrecipient _ _ fun t₁ h₁ => ?_
      refine (adoptChild h₁.guarded _ child).bind fun _ t₂ h₂ => ofExcept fun first _ => ?_
      exact setParentKeyAt h₂.guarded _ _ first

theorem redistribute (h : Guarded t₀ t) {neighbor node : PageId} (hneighbor : Open t₀ t neighbor)
    (hnode : Open t₀ t node) (index : Int) : Respects t₀ t (redistribute neighbor node index) :=
  ite (fun _ => moveFirstToEndOf h hneighbor hnode)
    fun _ => moveLastToFrontOf h hneighbor hnode index

theorem coalesce (h : Guarded t₀ t) {neighbor node parentId : PageId} {transaction : Bool}
    {continueWith : PageId → TreeM K V Bool}
    (hcontinue : ∀ t', Guarded t₀ t' → Open t₀ t' parentId → Respects t₀ t' (continueWith parentId))
    (hneighbor : Open t₀ t neighbor) (hnode : Open t₀ t node) (index : Int) :
    Respects t₀ t (coalesce transaction continueWith neighbor node parentId index) := by
  refine (moveAllTo h hnode hneighbor index).bind fun _ t₁ h₁ => ?_
  refine (addIntoDeletedPageSet h₁.guarded).bind fun _ t₂ h₂ => internalAt fun parent hparent => ?_
  have hopen := h₂.guarded.isOpen hparent
  refine ofExcept fun parent' _ => (writePage h₂.guarded hopen _).bind fun _ t₃ h₃ => ?_
  exact ite (fun _ => hcontinue t₃ h₃.guarded (hopen.mono h₃.calls)) fun _ => pure h₃.guarded false

theorem coalesceOrRedistribute (h : Guarded t₀ t) (transaction : Bool) (fuel : Nat)
    {node : PageId} (hnode : Open t₀ t node) :
    Respects t₀ t (coalesceOrRedistribute params transaction fuel node) := by
  induction fuel generalizing t node with
  | zero => exact throw
  | succ fuel ih =>
      refine readPage fun page _ => ite (fun _ => ?_) fun _ => ?_
      · refine (adjustRoot params h node).bind fun delOldRoot t₁ h₁ => ?_
        refine bind (ite (fun _ => addIntoDeletedPageSet h₁.guarded) fun _ => pure h₁.guarded ())
          fun _ t₂ h₂ => pure h₂.guarded delOldRoot
      · refine bind_of (findLeftSibling h transaction node) fun sibling t₁ h₁ hsibling => ?_
        refine (fetchPage h₁.guarded).bind fun _ t₂ h₂ => internalAt fun parent _ => ?_
        have hopen : Open t₀ t₂ node := hnode.mono (h₁.calls.trans h₂.calls)
        have hopen2 : Open t₀ t₂ sibling.2 := Or.inl (hsibling.mono h₂.calls)
        refine readPage fun page2 _ => ite (fun _ => ?_) fun _ => ?_
        · refine bind (coalesce h₂.guarded (fun t' h' hparent => ih h' hparent) ?_ ?_ _)
            fun _ t₃ h₃ => (unpinPage h₃.guarded true).bind fun _ t₄ h₄ => pure h₄.guarded true
          · split
            · exact hopen
            · exact hopen2
          · split
            · exact hopen2
            · exact hopen
        · refine (redistribute h₂.guarded hopen2 hopen _).bind fun _ t₃ h₃ => ?_
          exact (unpinPage h₃.guarded false).bind fun _ t₄ h₄ => pure h₄.guarded false

theorem removeFromLeaf (h : Guarded t₀ t) (key : K) (transaction : Bool) :
    Respects t₀ t (removeFromLeaf params key transaction) := by
  refine bind_of (findLeafPage params h key false (by decide) transaction)
    fun found t₁ h₁ hfound => ?_
  cases found with
  | none => exact throw
  | some id =>
      have hopen : Open t₀ t₁ id := Or.inl (hfound id rfl)
      refine leafAt fun leaf _ => (writePage h₁.guarded hopen _).bind fun _ t₂ h₂ => ?_
      refine bind (ite (fun _ => get ?_) fun _ => pure h₂.guarded ()) fun _ t₃ h₃ =>
        freePagesInTransaction h₃.guarded true transaction (-1)
      refine (coalesceOrRedistribute params h₂.guarded transaction _ (hopen.mono h₂.calls)).bind ?_
      exact fun _ t₃ h₃ => pure h₃.guarded ()

end Respects

end BPlusTree

/-- A call leaves the leaves alone that it does not latch. -/
theorem TreeCall.leaves_of_not_latched [Inhabited K] (params : IndexParams K)
    {call : TreeCall K V} {r : CallResult} {t t' : BPlusTree K V}
    (hrun : call.descend params t = .ok (r, t')) (hset : t.pageSet = []) {y : PageId}
    {leaf : LeafPage K V} (hy : y < t.nextPageId) (hleaf : t.pages y = some (.leaf leaf))
    (hlatched : ¬BPlusTree.Latched t t' y) :
    ∃ leaf', t'.pages y = some (.leaf leaf') ∧ BPlusTree.SameLeaf leaf leaf' := by
  have hstart : BPlusTree.Guarded t t := .refl hset
  have hdescend : BPlusTree.Respects t t (call.descend params) := by
    cases call with
    | insert key value =>
        exact (BPlusTree.Respects.insertIntoLeaf params hstart key value true).bind
          fun success t₁ h₁ => .pure h₁.guarded (CallResult.inserted success)
    | remove key =>
        exact (BPlusTree.Respects.removeFromLeaf params hstart key true).bind
          fun _ t₁ h₁ => .pure h₁.guarded CallResult.removed
  exact (hdescend r t' hrun).guarded.leaves y leaf hy hlatched hleaf

end ScuDb
