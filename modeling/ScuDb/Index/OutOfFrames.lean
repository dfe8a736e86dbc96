import ScuDb.Buffer.BufferPoolManager
import ScuDb.Foundations.Asking
import ScuDb.Index.Interpretations
import ScuDb.Index.Structure

/-!
Insertion and removal over a buffer pool that may be out of frames.

The functions of the tree where `NewPage` and `FetchPage` may return a
null pointer. No place in them looks at what has been returned: it is
dereferenced, or, in four places, an assertion compares it. The comments
of `StartNewTree` and `Split` ask for an exception instead;
`Stop.outOfMemory` is there to say what that would be.

As long as there are frames, these functions are the ones of the tree.
-/

namespace ScuDb

open Foundations

/-- A buffer pool, by what it answers to a tree: whether it has a frame
for a page, and the pool after it. A new page is one with an id the disk
manager gives. -/
structure FramePool (ρ : Type) where
  newPage : PageId → ρ → Option ρ
  fetchPage : PageId → ρ → Option ρ
  unpinPage : PageId → Bool → ρ → ρ
  deletePage : PageId → ρ → ρ

/-- How an operation stops before its end: by a fault, because a null
pointer to a page is dereferenced, or with the exception, and then the
tree is what it leaves behind. -/
inductive Stop (K V : Type)
  | fault (e : Fault)
  | nullPage
  | outOfMemory (t : BPlusTree K V)

/-- A member function of the tree over a pool. -/
def FramedM {ρ : Type} (_ : FramePool ρ) (K V α : Type) : Type :=
  Asking (Stop K V) ρ (BPlusTree K V) α

namespace Framed

variable {ρ K V α : Type} {P : FramePool ρ}

instance : Monad (FramedM P K V) := inferInstanceAs (Monad (Asking (Stop K V) ρ (BPlusTree K V)))

/-- What needs no frame. -/
def onTree (m : TreeM K V α) : FramedM P K V α := Asking.lift Stop.fault m

/-- A null pointer that is returned is dereferenced. -/
def ask (answer : BPlusTree K V → ρ → Option ρ) : FramedM P K V Unit := Asking.ask answer .nullPage

instance : MonadState (BPlusTree K V) (FramedM P K V) where
  get := onTree get
  set t := onTree (set t)
  modifyGet f := onTree (modifyGet f)

instance : MonadExcept Fault (FramedM P K V) where
  throw e := onTree (throw e)
  tryCatch m handle := fun t p =>
    match m t p with
    | (.error (.fault e), p) => handle e t p
    | r => r

/-- A null pointer fails an assertion. -/
def asserted : Stop K V → Stop K V
  | .nullPage => .fault .assertFailed
  | e => e

instance : BPlusTree.Access (FramedM P K V) K V where
  readPage id := onTree (BPlusTree.readPage id)
  writePage id page := onTree (BPlusTree.writePage id page)
  setParentPageId id parent := onTree (BPlusTree.setParentPageId id parent)
  fetchPage id := do
    ask fun _ => P.fetchPage id
    onTree (BPlusTree.fetchPage id)
  fetchHeaderPage := do
    ask fun _ => P.fetchPage headerPageId
    onTree BPlusTree.fetchHeaderPage
  unpinPage id isDirty := do
    ask fun _ pool => some (P.unpinPage id isDirty pool)
    onTree (BPlusTree.unpinPage id isDirty)
  newPage := do
    ask fun t => P.newPage t.nextPageId
    onTree BPlusTree.newPage
  deletePage id := do
    ask fun _ pool => some (P.deletePage id pool)
    onTree (BPlusTree.deletePage id)
  getRootPageId := onTree BPlusTree.getRootPageId
  setRootPageId id := onTree (BPlusTree.setRootPageId id)
  asserting fetch := Asking.renamed asserted fetch
  releasing free := free

/-! ### The same functions, where there are frames -/

/-- A null pointer stops an operation in one of the two ways it is used. -/
def StopsAtNull : Stop K V → Prop
  | .nullPage => True
  | .fault e => e = .assertFailed
  | .outOfMemory _ => False

/-- The operation is that of the tree, unless a null pointer is returned. -/
abbrev Realizes (m' : FramedM P K V α) (m : TreeM K V α) : Prop :=
  Asking.Realizes Stop.fault StopsAtNull m' m

theorem realizes_ask {m' : FramedM P K V α} {m : TreeM K V α}
    (answer : BPlusTree K V → ρ → Option ρ) (h : Realizes m' m) :
    Realizes (ask answer >>= fun _ => m') m :=
  .ask answer trivial h

theorem stopsAtNull_asserted (e : Stop K V) (h : StopsAtNull e) : StopsAtNull (asserted e) := by
  cases e with
  | fault e => exact h
  | nullPage => rfl
  | outOfMemory t => exact h

theorem realizes_ofExcept (x : Except Fault α) :
    Realizes (MonadExcept.ofExcept x : FramedM P K V α) (MonadExcept.ofExcept x) := by
  cases x with
  | error e => exact .lift (throw e)
  | ok a => exact .pure a

/-- The accesses over a pool are those of the tree, where there are frames. -/
theorem relates_realizes (params : IndexParams K) :
    BPlusTree.Relates (M := FramedM P K V) (N := TreeM K V) params fun _ m' m => Realizes m' m where
  pure a := .pure a
  bind h hf := h.bind hf
  throw e := .lift (throw e)
  get := .lift get
  modify f _ := .lift (modify f)
  readPage id := .lift (BPlusTree.readPage id)
  writePage id page := .lift (BPlusTree.writePage id page)
  setParentPageId id parent := .lift (BPlusTree.setParentPageId id parent)
  fetchPage id := realizes_ask _ (.lift (BPlusTree.fetchPage id))
  unpinPage id isDirty := realizes_ask _ (.lift (BPlusTree.unpinPage id isDirty))
  newPage := realizes_ask _ (.lift BPlusTree.newPage)
  deletePage id := realizes_ask _ (.lift (BPlusTree.deletePage id))
  getRootPageId := .lift BPlusTree.getRootPageId
  setRootPageId id := .lift (BPlusTree.setRootPageId id)
  asserting h := h.renamed (fun _ => rfl) stopsAtNull_asserted
  releasing h := h
  updateRootPageId insertRecord := by
    refine (realizes_ask _ (.lift BPlusTree.fetchHeaderPage)).bind fun _ => ?_
    refine Asking.Realizes.bind (.lift BPlusTree.getRootPageId) fun rootPageId => ?_
    refine Asking.Realizes.bind (.lift get) fun t => (realizes_ofExcept _).bind fun header => ?_
    refine Asking.Realizes.bind (.lift (modify _)) fun _ => ?_
    exact realizes_ask _ (.lift (BPlusTree.unpinPage headerPageId true))

/-! ### What a refusal does to an operation -/

/-- `NewPage` or `FetchPage` returns a null pointer during a call. -/
def Refused (call : FramedM P K V α) (t : BPlusTree K V) (pool : ρ) : Prop :=
  (call t ⟨pool, false⟩).2.refused = true

/-- What a query for the key finds. -/
def found [Inhabited V] (params : IndexParams K) (t : BPlusTree K V) (key : K) :
    Except Fault (Bool × List V) :=
  ((BPlusTree.getValue params key [] true : TreeM K V _) t).map Prod.fst

/-- An operation has had no effect: the mapping, the root page id, the
header record and the structure of the tree are what they were. -/
structure Unchanged [Inhabited V] (params : IndexParams K) (t t' : BPlusTree K V) : Prop where
  mapping : ∀ key, found params t' key = found params t key
  rootPageId : t'.rootPageId = t.rootPageId
  header : t'.headerPage.recorded params.indexName = t.headerPage.recorded params.indexName
  wellFormed : ∀ depth, BPlusTree.WellFormed params t depth → BPlusTree.WellFormed params t' depth

/-- A call ends with the exception and has had no effect. -/
def Signals [Inhabited V] (params : IndexParams K) (call : FramedM P K V α) (t : BPlusTree K V)
    (pool : ρ) : Prop :=
  ∃ t', (call t ⟨pool, false⟩).1 = .error (.outOfMemory t') ∧ Unchanged params t t'

section

variable {call : FramedM P K V α} {m : TreeM K V α} {t : BPlusTree K V} {pool : ρ}

/-- A refused call stops where the null pointer is used. -/
theorem stops_of_refused (h : Realizes call m) (hrefused : Refused call t pool) :
    ∃ e, (call t ⟨pool, false⟩).1 = .error e ∧ StopsAtNull e :=
  (h t ⟨pool, false⟩ rfl).2 hrefused

theorem eq_of_not_refused (h : Realizes call m) (hserved : ¬ Refused call t pool) :
    (call t ⟨pool, false⟩).1 = (m t).mapError Stop.fault := by
  refine (h t ⟨pool, false⟩ rfl).1 ?_
  cases hrefused : (call t ⟨pool, false⟩).2.refused with
  | false => rfl
  | true => exact absurd hrefused hserved

theorem not_signals_of_refused [Inhabited V] {params : IndexParams K} (h : Realizes call m)
    (hrefused : Refused call t pool) : ¬ Signals params call t pool := by
  rintro ⟨t', hsignal, -⟩
  obtain ⟨e, hstop, hnull⟩ := stops_of_refused h hrefused
  rw [hstop] at hsignal
  cases hsignal
  exact hnull

end

end Framed

/-! ### Updates -/

/-- The calls that change a tree. -/
inductive TreeUpdate (K V : Type)
  | insert (key : K) (value : V)
  | remove (key : K)

namespace TreeUpdate

variable {ρ K V : Type} [Inhabited K]

def run (params : IndexParams K) : TreeUpdate K V → TreeM K V Unit
  | .insert key value => do
      let _ ← BPlusTree.insert params key value true
      pure ()
  | .remove key => BPlusTree.remove params key true

/-- The call over a pool. -/
def framed (P : FramePool ρ) (params : IndexParams K) : TreeUpdate K V → FramedM P K V Unit
  | .insert key value => do
      let _ ← BPlusTree.insert params key value true
      pure ()
  | .remove key => BPlusTree.remove params key true

theorem realizes_framed (P : FramePool ρ) (params : IndexParams K) (u : TreeUpdate K V) :
    Framed.Realizes (u.framed P params) (u.run params) := by
  have h := Framed.relates_realizes (P := P) (V := V) params
  cases u with
  | insert key value => exact h.bind (h.insert key value true) fun _ => h.pure ()
  | remove key => exact h.remove key true

/-- Over any pool, a tree is changed as it is in a pool without an end,
as long as there is a frame for every page an update asks for. -/
theorem framed_eq (P : FramePool ρ) (params : IndexParams K) (u : TreeUpdate K V)
    {t : BPlusTree K V} {pool : ρ} (hserved : ¬ Framed.Refused (u.framed P params) t pool) :
    (u.framed P params t ⟨pool, false⟩).1 = (u.run params t).mapError Stop.fault :=
  Framed.eq_of_not_refused (u.realizes_framed P params) hserved

/-- An update that is refused a frame never signals it: it stops where
the null pointer is dereferenced or fails an assertion. -/
theorem refused_never_signals [Inhabited V] (P : FramePool ρ) (params : IndexParams K)
    (u : TreeUpdate K V) (t : BPlusTree K V) (pool : ρ)
    (hrefused : Framed.Refused (u.framed P params) t pool) :
    (∃ e, (u.framed P params t ⟨pool, false⟩).1 = .error e ∧ Framed.StopsAtNull e) ∧
      ¬ Framed.Signals params (u.framed P params) t pool :=
  ⟨Framed.stops_of_refused (u.realizes_framed P params) hrefused,
    Framed.not_signals_of_refused (u.realizes_framed P params) hrefused⟩

end TreeUpdate

/-! ### The buffer pool of the system -/

/-- What the buffer pool answers. A fault of it is no null pointer, and
there is none while its frames are accounted for. -/
def BufferPoolManager.frames : FramePool BufferPoolManager where
  newPage _ b :=
    match BufferPoolManager.newPage b with
    | .ok (none, _) => none
    | .ok (some _, b) => some b
    | .error _ => some b
  fetchPage id b :=
    match BufferPoolManager.fetchPage id b with
    | .ok (none, _) => none
    | .ok (some _, b) => some b
    | .error _ => some b
  unpinPage id isDirty b :=
    match BufferPoolManager.unpinPage id isDirty b with
    | .ok (_, b) => b
    | .error _ => b
  deletePage id b :=
    match BufferPoolManager.deletePage id b with
    | .ok (_, b) => b
    | .error _ => b

namespace TreeUpdate

/-- The only frame holds the header page, which is pinned, and the first
key is inserted. -/
theorem refused_never_signals_insert : ∃ pool,
    BufferPoolManager.newPage (BufferPoolManager.create 1) = .ok (some (0, 0), pool) ∧
      (∃ e, ((insert 1 10 : TreeUpdate Int Nat).framed BufferPoolManager.frames integerIndex
          (BPlusTree.empty HeaderPage.init 1) ⟨pool, false⟩).1 = .error e ∧ Framed.StopsAtNull e) ∧
      ¬ Framed.Signals integerIndex ((insert 1 10 : TreeUpdate Int Nat).framed
        BufferPoolManager.frames integerIndex) (BPlusTree.empty HeaderPage.init 1) pool :=
  ⟨_, rfl, refused_never_signals _ _ _ _ _ rfl⟩

/-- The same call, which should have ended with the exception. -/
theorem exists_refused_not_signalled : ∃ pool,
    BufferPoolManager.newPage (BufferPoolManager.create 1) = .ok (some (0, 0), pool) ∧
      Framed.Refused ((insert 1 10 : TreeUpdate Int Nat).framed BufferPoolManager.frames
        integerIndex) (BPlusTree.empty HeaderPage.init 1) pool ∧
      ¬ Framed.Signals integerIndex ((insert 1 10 : TreeUpdate Int Nat).framed
        BufferPoolManager.frames integerIndex) (BPlusTree.empty HeaderPage.init 1) pool :=
  ⟨_, rfl, rfl, Framed.not_signals_of_refused (realizes_framed _ _ _) rfl⟩

end TreeUpdate

end ScuDb
