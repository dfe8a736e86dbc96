import ScuDb.Index.DirtyUse
import ScuDb.Page.FreeSpace
import ScuDb.Table.TableScan

/-!
Where `InsertTuple` puts a tuple, and what it takes from the buffer pool on
its way there.

The loop holds one page of the chain at a time, with its pin and its write
latch, and two while it links a new page behind the last one. The calls on
the pool are recorded the latest first, as those of a tree are.
-/

namespace ScuDb

open Foundations

namespace TableHeap

open TablePage

/-- The loop of `InsertTuple`, with the calls it makes. The page `id` has
been fetched and latched. -/
def insertLoopCalls (tuple : List UInt8) : Nat → TableHeap → PageId → List PoolCall →
    Except Fault (RID × TableHeap × List PoolCall)
  | 0, _, _, _ => .error .outOfFuel
  | fuel + 1, h, id, calls => do
      let curPage ← h.fetchPage id
      match ← curPage.insertTuple tuple with
      | (some slot, p) =>
          .ok (⟨curPage.getPageId, slot⟩, h.setPage id p,
            .unpinPage p.getPageId true :: .unlock true id :: .store id :: calls)
      | (none, _) =>
          if curPage.getNextPageId ≠ invalidPageId then
            insertLoopCalls tuple fuel h curPage.getNextPageId
              (.lock true curPage.getNextPageId :: .fetchPage curPage.getNextPageId ::
                .unpinPage curPage.getPageId false :: .unlock true id :: calls)
          else
            let (nextPageId, h) ← h.appendPage id curPage
            insertLoopCalls tuple fuel h nextPageId
              (.unpinPage curPage.getPageId true :: .unlock true id :: .store nextPageId ::
                .store id :: .lock true nextPageId :: .newPage nextPageId :: calls)

/-- `InsertTuple`, with the calls it makes. -/
def insertTupleCalls (h : TableHeap) (tuple : List UInt8) (txn : Transaction) :
    Except Fault (Option RID × TableHeap × Transaction × List PoolCall) :=
  if tuple.length + 32 > pageSize then .ok (none, h, txn.setState .aborted, [])
  else
    match h.pages h.firstPageId with
    | none => .ok (none, h, txn.setState .aborted, [])
    | some _ => do
        let (rid, h, calls) ← insertLoopCalls tuple (h.nextPageId.toNat + 1) h h.firstPageId
          [.lock true h.firstPageId, .fetchPage h.firstPageId]
        .ok (some rid, h, txn.emplaceBack rid .insert [], calls)

variable {h h' : TableHeap} {ids : List PageId} {id : PageId} {p q : TablePage}
  {tuple : List UInt8}

/-- Without the calls, the loop is the one of the model. -/
theorem insertLoopCalls_eq {fuel : Nat} (calls : List PoolCall) :
    insertLoop tuple fuel h id =
      (insertLoopCalls tuple fuel h id calls).map fun r => (r.1, r.2.1) := by
  induction fuel generalizing h id calls with
  | zero => rfl
  | succ fuel ih =>
      simp only [insertLoop, insertLoopCalls, bind, Except.bind]
      cases h.fetchPage id with
      | error e => rfl
      | ok curPage =>
          simp only
          cases curPage.insertTuple tuple with
          | error e => rfl
          | ok r =>
              obtain ⟨slot, page⟩ := r
              cases slot with
              | some slot => rfl
              | none =>
                  simp only
                  split
                  · exact ih _
                  · cases h.appendPage id curPage with
                    | error e => rfl
                    | ok s => exact ih _

theorem insertTupleCalls_eq (h : TableHeap) (tuple : List UInt8) (txn : Transaction) :
    h.insertTuple tuple txn =
      (h.insertTupleCalls tuple txn).map fun r => (r.1, r.2.1, r.2.2.1) := by
  simp only [TableHeap.insertTuple, insertTupleCalls]
  split
  · rfl
  · cases h.pages h.firstPageId with
    | none => rfl
    | some p =>
        simp only [bind, Except.bind]
        rw [insertLoopCalls_eq [.lock true h.firstPageId, .fetchPage h.firstPageId]]
        cases insertLoopCalls tuple (h.nextPageId.toNat + 1) h h.firstPageId
            [.lock true h.firstPageId, .fetchPage h.firstPageId] with
        | error e => rfl
        | ok r => rfl

/-! ### First fit -/

/-- The tuple fits on the page `id`. -/
def RoomOn (h : TableHeap) (tuple : List UInt8) (id : PageId) : Prop :=
  ∃ p, h.pages id = some p ∧ p.HasRoom tuple

/-- The first page with room takes the tuple, or a new page behind the last
one. -/
inductive FirstFit (h : TableHeap) (tuple : List UInt8) : List PageId → RID → TableHeap → Prop
  | found {rid : RID} {after : List PageId} {p q : TablePage} (hp : h.pages rid.pageId = some p)
      (hroom : p.HasRoom tuple) (htake : p.insertTuple tuple = .ok (some rid.slotNum, q)) :
      FirstFit h tuple (rid.pageId :: after) rid (h.setPage rid.pageId q)
  | passed {id next : PageId} {after : List PageId} {rid : RID} {h' : TableHeap}
      (hno : ¬h.RoomOn tuple id) (hrest : FirstFit h tuple (next :: after) rid h') :
      FirstFit h tuple (id :: next :: after) rid h'
  | appended {id : PageId} {p q r : TablePage} {h₁ : TableHeap} {rid : RID}
      (hno : ¬h.RoomOn tuple id) (hp : h.pages id = some p)
      (hlink : h.appendPage id p = .ok (rid.pageId, h₁)) (hid : rid.pageId = h.nextPageId)
      (hq : h₁.pages rid.pageId = some q)
      (htake : q.insertTuple tuple = .ok (some rid.slotNum, r)) :
      FirstFit h tuple [id] rid (h₁.setPage rid.pageId r)

/-- The pages that are passed have no room; either one of the others has,
or the list has come to its end. -/
theorem FirstFit.cases {rid : RID} (hf : FirstFit h tuple ids rid h') :
    (∃ before after p q, ids = before ++ rid.pageId :: after ∧
      (∀ x ∈ before, ¬h.RoomOn tuple x) ∧ h.pages rid.pageId = some p ∧ p.HasRoom tuple ∧
      p.insertTuple tuple = .ok (some rid.slotNum, q) ∧ h' = h.setPage rid.pageId q) ∨
    ∃ before id p h₁ q r, ids = before ++ [id] ∧ (∀ x ∈ ids, ¬h.RoomOn tuple x) ∧
      rid.pageId = h.nextPageId ∧ h.pages id = some p ∧
      h.appendPage id p = .ok (rid.pageId, h₁) ∧ h₁.pages rid.pageId = some q ∧
      q.insertTuple tuple = .ok (some rid.slotNum, r) ∧ h' = h₁.setPage rid.pageId r := by
  induction hf with
  | found hp hroom htake =>
      exact .inl ⟨[], _, _, _, rfl, fun x hx => absurd hx List.not_mem_nil, hp, hroom, htake, rfl⟩
  | passed hno hrest ih =>
      rcases ih with ⟨before, after, p, q, hids, hbefore, hrun⟩ | ⟨before, id, p, h₁, q, r, hids,
        hall, hrun⟩
      · refine .inl ⟨_ :: before, after, p, q, by rw [hids]; rfl, fun x hx => ?_, hrun⟩
        rcases List.mem_cons.mp hx with rfl | hx
        · exact hno
        · exact hbefore x hx
      · refine .inr ⟨_ :: before, id, p, h₁, q, r, by rw [hids]; rfl, fun x hx => ?_, hrun⟩
        rcases List.mem_cons.mp hx with rfl | hx
        · exact hno
        · exact hall x hx
  | appended hno hp hlink hid hq htake =>
      refine .inr ⟨[], _, _, _, _, _, rfl, fun x hx => ?_, hid, hp, hlink, hq, htake, rfl⟩
      rw [List.mem_singleton.mp hx]
      exact hno

end TableHeap

/-! ### What is owed to the pool -/

/-- The calls pin the pages `held`, and the changes to the pages `changed`
are still owed. -/
def Owes (n next : PageId) (held changed : List PageId) (calls : List PoolCall) : Prop :=
  ∃ v, (DirtyUse.start (fun _ => false) n).replay calls = some v ∧
    (∀ y, v.pins y = held.count y) ∧ (∀ y, v.changed y = decide (y ∈ changed)) ∧
    (∀ y, v.removed y = false) ∧ v.next = next

namespace Owes

variable {n next id : PageId} {held changed : List PageId} {calls : List PoolCall}

theorem start (n : PageId) : Owes n n [] [] [] :=
  ⟨_, rfl, fun _ => rfl, fun _ => rfl, fun _ => rfl, rfl⟩

theorem step {v v' : DirtyUse} {u : DirtyUse} {call : PoolCall}
    (hv : u.replay calls = some v) (hstep : v.step call = some v') :
    u.replay (call :: calls) = some v' := by
  rw [DirtyUse.replay, hv]
  exact hstep

theorem addPin_count {pins : PageId → Nat} (hpins : ∀ y, pins y = held.count y) (y : PageId) :
    addPin pins id y = (id :: held).count y := by
  rw [addPin, List.count_cons]
  by_cases hy : y = id
  · subst hy
    simp [hpins]
  · simp [hy, Ne.symm hy, hpins]

theorem fetch (h : Owes n next held changed calls) (hid : 0 ≤ id ∧ id < next) :
    Owes n next (id :: held) changed (.fetchPage id :: calls) := by
  obtain ⟨v, hv, hpins, hchanged, hremoved, rfl⟩ := h
  exact ⟨_, step hv (if_pos ⟨hid.1, hid.2, hremoved id⟩), addPin_count hpins, hchanged, hremoved,
    rfl⟩

theorem new (h : Owes n next held changed calls) :
    Owes n (next + 1) (next :: held) changed (.newPage next :: calls) := by
  obtain ⟨v, hv, hpins, hchanged, hremoved, rfl⟩ := h
  exact ⟨_, step hv (if_pos rfl), addPin_count hpins, hchanged, hremoved, rfl⟩

theorem lock (h : Owes n next held changed calls) (id : PageId) :
    Owes n next held changed (.lock true id :: calls) := by
  obtain ⟨v, hv, h⟩ := h
  exact ⟨v, step hv rfl, h⟩

theorem unlock (h : Owes n next held changed calls) (id : PageId) :
    Owes n next held changed (.unlock true id :: calls) := by
  obtain ⟨v, hv, h⟩ := h
  exact ⟨v, step hv rfl, h⟩

theorem store (h : Owes n next held changed calls) (id : PageId) (hid : id ∈ held) :
    Owes n next held (id :: changed) (.store id :: calls) := by
  obtain ⟨v, hv, hpins, hchanged, hrest⟩ := h
  have hpos : 0 < v.pins id := by
    rw [hpins]
    exact List.count_pos_iff.mpr hid
  refine ⟨_, step hv (if_pos hpos), hpins, fun y => ?_, hrest⟩
  by_cases hy : y = id
  · subst hy
    simp
  · simp [hy, hchanged]

/-- A page may be given back as clean when no change to it is owed; as
dirty, the change is not owed any more. -/
theorem unpin (h : Owes n next held changed calls) (id : PageId) (isDirty : Bool)
    (changed' : List PageId) (hid : id ∈ held) (hclean : isDirty = false → id ∉ changed)
    (hchanged' : ∀ y, y ∈ changed' ↔ y ∈ changed ∧ y ≠ id) :
    Owes n next (held.erase id) changed' (.unpinPage id isDirty :: calls) := by
  obtain ⟨v, hv, hpins, hchanged, hrest⟩ := h
  have hpos : 0 < v.pins id := by
    rw [hpins]
    exact List.count_pos_iff.mpr hid
  have hmay : v.changed id = true → isDirty = true ∨ 1 < v.pins id := fun hc => by
    left
    cases isDirty with
    | true => rfl
    | false =>
        rw [hchanged, decide_eq_true_eq] at hc
        exact absurd hc (hclean rfl)
  refine ⟨_, step hv (if_pos ⟨hpos, hmay⟩), fun y => ?_, fun y => ?_, hrest⟩
  · by_cases hy : y = id
    · subst hy
      simp [hpins]
    · simp [hy, hpins, List.count_erase_of_ne hy]
  · cases isDirty with
    | true =>
        by_cases hy : y = id
        · subst hy
          simp [hchanged']
        · simp [hy, hchanged, hchanged']
    | false =>
        by_cases hy : y = id
        · subst hy
          simp [hchanged, hchanged', hclean rfl]
        · simp [hy, hchanged, hchanged']

end Owes

namespace TableHeap

open TablePage

variable {h h' : TableHeap} {ids : List PageId} {id : PageId} {p q : TablePage}
  {tuple : List UInt8}

/-- What a call has taken from the pool, it has given back: every pin and
latch, and every changed page as dirty. -/
structure GivesBack (others : PageId → Nat) (h h' : TableHeap) (calls : List PoolCall) : Prop where
  pins : InHand (PoolUse.start others) [] true others [] 0 calls
  dirty : Owes h.nextPageId h'.nextPageId [] [] calls
  stored : ∀ y, h'.pages y ≠ h.pages y → .store y ∈ calls

theorem hasRoom_init (p : TablePage) (id prev : PageId) (hsize : tuple.length ≤ 480) :
    (p.init id pageSize prev).HasRoom tuple := by
  have hfree := getFreeSpaceSize_init p id prev
  exact ⟨by omega, .inr (by omega)⟩

theorem appendPage_error (p : TablePage) (hids : ¬h.nextPageId < 2147483648) :
    h.appendPage id p = .error .noSuchPage := by
  rw [appendPage, newPage, if_neg hids]
  rfl

/-- A page with room takes the tuple, and another one does not change. -/
theorem insertTuple_of_room (hp : Layout p) (hne : tuple ≠ []) :
    p.HasRoom tuple ∧ (∃ i q, p.insertTuple tuple = .ok (some i, q)) ∨
      ¬p.HasRoom tuple ∧ p.insertTuple tuple = .ok (none, p) := by
  obtain ⟨slot, q, hrun, hiff, hnone⟩ := insertTuple_iff hp.count hne
  cases slot with
  | some i => exact .inl ⟨hiff.mp rfl, i, q, hrun⟩
  | none =>
      rw [hnone rfl] at hrun
      exact .inr ⟨fun hroom => absurd (hiff.mpr hroom) Bool.false_ne_true, hrun⟩

theorem header_insertTuple {i : Nat} (hp : Layout p) (hne : tuple ≠ [])
    (htake : p.insertTuple tuple = .ok (some i, q)) : ∀ x < 16, q x = p x := by
  rcases insertTuple_spec hp hne with ⟨hrefuse, -⟩ | ⟨i', q', htake', -, -, -, -, hheader, -⟩
  · rw [hrefuse] at htake
    cases htake
  · rw [htake'] at htake
    cases htake
    exact hheader

section Loop

variable {others : PageId → Nat} {calls : List PoolCall} {n : PageId}

theorem insertLoopCalls_found (fuel : Nat) {i : Nat} {changed : List PageId}
    (hp : h.pages id = some p) (hpage : p.getPageId = id) (hlayout : Layout p) (hne : tuple ≠ [])
    (htake : p.insertTuple tuple = .ok (some i, q))
    (hhand : InHand (PoolUse.start others) [] true others [id] 0 calls)
    (howes : Owes n h.nextPageId [id] changed calls) (hchanged : ∀ y ∈ changed, y = id) :
    ∃ calls', insertLoopCalls tuple (fuel + 1) h id calls =
        .ok (⟨id, i⟩, h.setPage id q, calls') ∧
      InHand (PoolUse.start others) [] true others [] 0 calls' ∧
      Owes n h.nextPageId [] [] calls' ∧ .store id ∈ calls' ∧ ∀ c ∈ calls, c ∈ calls' := by
  have hq : q.getPageId = id := by
    rw [← hpage]
    exact Memory.getInt32_congr fun k hk => header_insertTuple hlayout hne htake (0 + k) (by omega)
  refine ⟨.unpinPage id true :: .unlock true id :: .store id :: calls, ?_, ?_, ?_, by simp, ?_⟩
  · simp only [insertLoopCalls, fetchPage_eq hp, htake, bind, Except.bind, hpage, hq]
  · exact (hhand.store.unlock List.not_mem_nil).unpin
  · have hstored := (howes.store id List.mem_cons_self).unlock id
    have hgiven := hstored.unpin id true [] List.mem_cons_self (fun hf => by cases hf) fun y => by
      constructor
      · exact fun hy => absurd hy List.not_mem_nil
      · rintro ⟨hy, hne'⟩
        rcases List.mem_cons.mp hy with hy | hy
        · exact absurd hy hne'
        · exact absurd (hchanged y hy) hne'
    rwa [List.erase_cons_head] at hgiven
  · intro c hc
    simp [hc]

/-- The page in hand is given back as clean, and the next one is fetched
and latched. -/
theorem handOver (hhand : InHand (PoolUse.start others) [] true others [id] 0 calls)
    (howes : Owes n h.nextPageId [id] [] calls) {next : PageId}
    (hnext : 0 ≤ next ∧ next < h.nextPageId) :
    InHand (PoolUse.start others) [] true others [next] 0
        (.lock true next :: .fetchPage next :: .unpinPage id false :: .unlock true id :: calls) ∧
      Owes n h.nextPageId [next] []
        (.lock true next :: .fetchPage next :: .unpinPage id false :: .unlock true id ::
          calls) := by
  constructor
  · exact ((hhand.unlock List.not_mem_nil).unpin.fetch next).lock List.not_mem_nil
  · have hgiven := (howes.unlock id).unpin id false [] List.mem_cons_self
      (fun _ => List.not_mem_nil) (by simp)
    rw [List.erase_cons_head] at hgiven
    exact (hgiven.fetch hnext).lock next

/-- A new page is linked behind the page in hand. -/
theorem handOver_new (hhand : InHand (PoolUse.start others) [] true others [id] 0 calls)
    (howes : Owes n h.nextPageId [id] [] calls) (hne : h.nextPageId ≠ id) :
    InHand (PoolUse.start others) [] true others [h.nextPageId] 0
        (.unpinPage id true :: .unlock true id :: .store h.nextPageId :: .store id ::
          .lock true h.nextPageId :: .newPage h.nextPageId :: calls) ∧
      Owes n (h.nextPageId + 1) [h.nextPageId] [h.nextPageId]
        (.unpinPage id true :: .unlock true id :: .store h.nextPageId :: .store id ::
          .lock true h.nextPageId :: .newPage h.nextPageId :: calls) := by
  constructor
  · have hlocked := (hhand.new h.nextPageId).lock (by simpa using hne)
    exact (hlocked.store.store.unlock (by simpa using hne.symm)).unpin
  · have hstored := ((howes.new.lock h.nextPageId).store id (by simp)).store h.nextPageId (by simp)
    have hgiven := (hstored.unlock id).unpin id true [h.nextPageId] (by simp)
      (fun hf => by cases hf) fun y => by
        simp only [List.mem_cons, List.not_mem_nil, or_false]
        constructor
        · rintro rfl
          exact ⟨.inl rfl, hne⟩
        · exact fun ⟨hy, hyid⟩ => hy.resolve_right hyid
    rwa [List.erase_cons_tail (by simpa using hne), List.erase_cons_head] at hgiven

theorem insertLoopCalls_refused {fuel : Nat} (hp : h.pages id = some p)
    (hrefuse : p.insertTuple tuple = .ok (none, p)) :
    insertLoopCalls tuple (fuel + 1) h id calls =
      if p.getNextPageId ≠ invalidPageId then
        insertLoopCalls tuple fuel h p.getNextPageId
          (.lock true p.getNextPageId :: .fetchPage p.getNextPageId ::
            .unpinPage p.getPageId false :: .unlock true id :: calls)
      else h.appendPage id p >>= fun r =>
        insertLoopCalls tuple fuel r.2 r.1
          (.unpinPage p.getPageId true :: .unlock true id :: .store r.1 :: .store id ::
            .lock true r.1 :: .newPage r.1 :: calls) := by
  simp only [insertLoopCalls, fetchPage_eq hp, hrefuse, bind, Except.bind]

theorem roomOn_iff (hp : h.pages id = some p) : h.RoomOn tuple id ↔ p.HasRoom tuple := by
  constructor
  · rintro ⟨p', hp', hroom⟩
    rw [hp] at hp'
    cases hp'
    exact hroom
  · exact fun hroom => ⟨p, hp, hroom⟩

theorem firstFit_found {i : Nat} {after : List PageId} (hp : h.pages id = some p)
    (hroom : p.HasRoom tuple) (htake : p.insertTuple tuple = .ok (some i, q)) :
    FirstFit h tuple (id :: after) ⟨id, i⟩ (h.setPage id q) :=
  @FirstFit.found h tuple ⟨id, i⟩ after p q hp hroom htake

theorem firstFit_appended {i : Nat} {h₁ : TableHeap} {r : TablePage} (hno : ¬h.RoomOn tuple id)
    (hp : h.pages id = some p) (hlink : h.appendPage id p = .ok (h.nextPageId, h₁))
    (hr : h₁.pages h.nextPageId = some r) (htake : r.insertTuple tuple = .ok (some i, q)) :
    FirstFit h tuple [id] ⟨h.nextPageId, i⟩ (h₁.setPage h.nextPageId q) :=
  @FirstFit.appended h tuple id p r q h₁ ⟨h.nextPageId, i⟩ hno hp hlink rfl hr htake

theorem insertLoopCalls_room (fuel : Nat) {i : Nat} {next : PageId} {after : List PageId}
    (hp : h.pages id = some p) (hpage : ChainPage p id next) (hroom : p.HasRoom tuple)
    (hne : tuple ≠ []) (htake : p.insertTuple tuple = .ok (some i, q))
    (hhand : InHand (PoolUse.start others) [] true others [id] 0 calls)
    (howes : Owes n h.nextPageId [id] [] calls) :
    ∃ rid h' calls', insertLoopCalls tuple (fuel + 1) h id calls = .ok (rid, h', calls') ∧
      FirstFit h tuple (id :: after) rid h' ∧
      InHand (PoolUse.start others) [] true others [] 0 calls' ∧
      Owes n h'.nextPageId [] [] calls' ∧ ∀ y, h'.pages y ≠ h.pages y → .store y ∈ calls' := by
  obtain ⟨calls', hrun, hhand', howes', hstore, -⟩ := insertLoopCalls_found fuel
    hp hpage.pageId hpage.layout hne htake hhand howes (by simp)
  refine ⟨⟨id, i⟩, h.setPage id q, calls', hrun, firstFit_found hp hroom htake,
    hhand', howes', fun y hy => ?_⟩
  by_cases hyid : y = id
  · rwa [hyid]
  · rw [setPage_pages, if_neg hyid] at hy
    exact absurd rfl hy

/-- The loop runs along the pages without room to the first one with room,
or past the last one. -/
theorem insertLoopCalls_spec (hne : tuple ≠ []) (hsize : tuple.length ≤ 480)
    (after : List PageId) :
    ∀ (before : List PageId) (id : PageId) (fuel : Nat) (calls : List PoolCall),
      Chained h (before ++ id :: after) → after.length + 2 ≤ fuel →
      InHand (PoolUse.start others) [] true others [id] 0 calls →
      Owes n h.nextPageId [id] [] calls →
      ¬h.nextPageId < 2147483648 ∧ insertLoopCalls tuple fuel h id calls = .error .noSuchPage ∨
      ∃ rid h' calls', insertLoopCalls tuple fuel h id calls = .ok (rid, h', calls') ∧
        FirstFit h tuple (id :: after) rid h' ∧
        InHand (PoolUse.start others) [] true others [] 0 calls' ∧
        Owes n h'.nextPageId [] [] calls' ∧ ∀ y, h'.pages y ≠ h.pages y → .store y ∈ calls' := by
  induction after with
  | nil =>
      intro before id fuel calls hh hfuel hhand howes
      obtain ⟨fuel, rfl⟩ : ∃ n, fuel = n + 2 := ⟨fuel - 2, by simp at hfuel; omega⟩
      obtain ⟨p, hp, hpage⟩ := hh.chain.at
      rcases insertTuple_of_room hpage.layout hne with ⟨hroom, i, q, htake⟩ | ⟨hno, hrefuse⟩
      · exact .inr (insertLoopCalls_room (fuel + 1) hp hpage hroom hne htake hhand howes)
      · have hlast : ¬p.getNextPageId ≠ invalidPageId := not_not.mpr hpage.nextPageId
        by_cases hids : h.nextPageId < 2147483648
        case neg =>
          refine .inl ⟨hids, ?_⟩
          rw [insertLoopCalls_refused hp hrefuse, if_neg hlast, appendPage_error p hids]
          rfl
        obtain ⟨h₁, hlink, hgrown, hnext, hpages⟩ := appendPage_ok hh hp hpage hids
        have hmem : h.nextPageId ∈ before ++ [id, h.nextPageId] := by simp
        have hold : id ∈ before ++ [id] := by simp
        have hnew : h.nextPageId ≠ id := fun heq => Int.lt_irrefl _ (heq ▸ (hh.known id hold).2)
        obtain ⟨r, next, hr, hpage'⟩ := hgrown.chained.chain.mem hmem
        have hinit := hr
        rw [hpages, if_pos rfl, Option.some_inj] at hinit
        have hroom : r.HasRoom tuple := hinit ▸ hasRoom_init _ _ _ hsize
        rcases insertTuple_of_room hpage'.layout hne with ⟨-, i, q, htake⟩ | ⟨hno', -⟩
        · obtain ⟨hhand₁, howes₁⟩ := handOver_new hhand howes hnew
          rw [← hnext] at howes₁
          obtain ⟨calls', hrun, hhand', howes', hstore, hkeep⟩ := insertLoopCalls_found
            fuel hr hpage'.pageId hpage'.layout hne htake hhand₁ howes₁ (by simp)
          refine .inr ⟨⟨h.nextPageId, i⟩, h₁.setPage h.nextPageId q, calls', ?_, ?_, hhand', howes',
            fun y hy => ?_⟩
          · rw [insertLoopCalls_refused hp hrefuse, if_neg hlast, hlink, hpage.pageId]
            exact hrun
          · exact firstFit_appended (mt (roomOn_iff hp).mp hno) hp hlink hr htake
          · by_cases hynext : y = h.nextPageId
            · rwa [hynext]
            · by_cases hyid : y = id
              · exact hkeep _ (by simp [hyid])
              · rw [setPage_pages, if_neg hynext, hpages, if_neg hynext, if_neg hyid] at hy
                exact absurd rfl hy
        · exact absurd hroom hno'
  | cons next after ih =>
      intro before id fuel calls hh hfuel hhand howes
      obtain ⟨fuel, rfl⟩ : ∃ n, fuel = n + 1 := ⟨fuel - 1, by simp at hfuel; omega⟩
      obtain ⟨p, hp, hpage⟩ := hh.chain.at
      rcases insertTuple_of_room hpage.layout hne with ⟨hroom, i, q, htake⟩ | ⟨hno, hrefuse⟩
      · exact .inr (insertLoopCalls_room fuel hp hpage hroom hne htake hhand howes)
      · have hnext : next ∈ before ++ id :: next :: after := by simp
        have hknown := hh.known next hnext
        have hvalid : p.getNextPageId ≠ invalidPageId := by
          rw [hpage.nextPageId]
          intro heq
          rw [show next = invalidPageId from heq] at hknown
          exact absurd hknown.1 (by decide)
        obtain ⟨hhand₁, howes₁⟩ := handOver hhand howes hknown
        have hlist : before ++ id :: next :: after = before ++ [id] ++ next :: after := by simp
        rw [hlist] at hh
        rw [insertLoopCalls_refused hp hrefuse, if_pos hvalid, hpage.nextPageId, hpage.pageId]
        rcases ih (before ++ [id]) next fuel _ hh (by simp at hfuel; omega) hhand₁ howes₁ with
          herr | ⟨rid, h', calls', hrun, hfit, hrest⟩
        · exact .inl herr
        · exact .inr ⟨rid, h', calls', hrun, .passed (mt (roomOn_iff hp).mp hno) hfit, hrest⟩

/-- `InsertTuple` refuses tuples that are too large; any other one it
stores, unless it needs a page and there is no id left. -/
theorem insertTupleCalls_spec (hh : Chained h ids) (hne : tuple ≠ []) (txn : Transaction)
    (others : PageId → Nat) :
    480 < tuple.length ∧ h.insertTupleCalls tuple txn = .ok (none, h, txn.setState .aborted, []) ∨
    ¬h.nextPageId < 2147483648 ∧ h.insertTupleCalls tuple txn = .error .noSuchPage ∨
    tuple.length ≤ 480 ∧ ∃ rid h' calls, h.insertTupleCalls tuple txn =
        .ok (some rid, h', txn.emplaceBack rid .insert [], calls) ∧
      FirstFit h tuple ids rid h' ∧ GivesBack others h h' calls := by
  rw [insertTupleCalls]
  by_cases hlarge : tuple.length + 32 > pageSize
  · refine .inl ⟨?_, if_pos hlarge⟩
    rw [pageSize] at hlarge
    omega
  · right
    have hsize : tuple.length ≤ 480 := by
      rw [pageSize] at hlarge
      omega
    obtain ⟨first, after, rfl⟩ : ∃ first after, ids = first :: after := by
      cases ids with
      | nil => cases hh.first
      | cons first after => exact ⟨first, after, rfl⟩
    have hfirst : first = h.firstPageId := Option.some.inj hh.first
    have hknown := hh.known first List.mem_cons_self
    obtain ⟨⟨p, hp, -⟩, -⟩ := hh.chain
    have hlen := hh.length_le
    rw [if_neg hlarge, ← hfirst, hp]
    have hhand : InHand (PoolUse.start others) [] true others [first] 0
        [.lock true first, .fetchPage first] := by
      have hnothing : InHand (PoolUse.start others) [] true others [] 0 [] :=
        ⟨_, .refl _ _, PoolUse.start_holds _ _⟩
      exact (hnothing.fetch first).lock List.not_mem_nil
    have howes : Owes h.nextPageId h.nextPageId [first] [] [.lock true first, .fetchPage first] :=
      ((Owes.start h.nextPageId).fetch hknown).lock first
    rcases insertLoopCalls_spec hne hsize after [] first (h.nextPageId.toNat + 1) _ hh
      (by simp at hlen; omega) hhand howes with ⟨hids, herr⟩ | ⟨rid, h', calls, hrun, hfit, hhand',
        howes', hstored⟩
    · refine .inl ⟨hids, ?_⟩
      simp only [herr, bind, Except.bind]
    · refine .inr ⟨hsize, rid, h', calls, ?_, hfit, hhand', howes', hstored⟩
      simp only [hrun, bind, Except.bind]

end Loop

/-! ### Both links -/

/-- Every page stores its own id and those of its neighbours; behind the
last page and before the first one there is none. -/
def Links (h : TableHeap) : PageId → List PageId → Prop
  | _, [] => True
  | prev, id :: rest =>
      (∃ p, h.pages id = some p ∧ p.getPageId = id ∧ p.getPrevPageId = prev ∧
        p.getNextPageId = rest.headD invalidPageId) ∧ h.Links id rest

theorem Links.setPage {prev : PageId} (hl : h.Links prev ids) (hp : h.pages id = some p)
    (hheader : ∀ x < 16, q x = p x) : (h.setPage id q).Links prev ids := by
  induction ids generalizing prev with
  | nil => trivial
  | cons x rest ih =>
      obtain ⟨⟨p', hp', hid, hprev, hnext⟩, hrest⟩ := hl
      refine ⟨?_, ih hrest⟩
      rw [setPage_pages]
      by_cases hx : x = id
      · subst hx
        rw [hp] at hp'
        cases hp'
        refine ⟨q, if_pos rfl, ?_, ?_, ?_⟩
        · rw [← hid]
          exact Memory.getInt32_congr fun k hk => hheader (0 + k) (by omega)
        · rw [← hprev]
          exact Memory.getInt32_congr fun k hk => hheader (8 + k) (by omega)
        · rw [← hnext]
          exact Memory.getInt32_congr fun k hk => hheader (12 + k) (by omega)
      · exact ⟨p', (if_neg hx).trans hp', hid, hprev, hnext⟩

theorem getPrevPageId_init (p : TablePage) (prev : PageId) (hlo : -2147483648 ≤ prev)
    (hhi : prev < 2147483648) : (p.init id pageSize prev).getPrevPageId = prev := by
  refine (Memory.getInt32_setInt32_of_disjoint (by omega)).trans ?_
  refine (Memory.getInt32_setInt32_of_disjoint (by omega)).trans ?_
  refine (Memory.getInt32_setInt32_of_disjoint (by omega)).trans ?_
  exact Memory.getInt32_setInt32 _ _ hlo hhi

/-- A page linked behind the last one points back to it. -/
theorem Links.concat {before : List PageId} {prev new : PageId} {h₁ : TableHeap}
    (hl : h.Links prev (before ++ [id])) (hold : ∀ x ∈ before, h₁.pages x = h.pages x)
    (hp : h.pages id = some p)
    (hp₁ : h₁.pages id = some q) (hbut : SameButLink p q) (hnext : q.getNextPageId = new)
    {r : TablePage} (hr : h₁.pages new = some r) (hid : r.getPageId = new)
    (hprev : r.getPrevPageId = id) (hlast : r.getNextPageId = invalidPageId) :
    h₁.Links prev (before ++ [id, new]) := by
  induction before generalizing prev with
  | nil =>
      obtain ⟨⟨p', hp', hid', hprev', -⟩, -⟩ := hl
      rw [hp] at hp'
      cases hp'
      refine ⟨⟨q, hp₁, ?_, ?_, hnext⟩, ⟨r, hr, hid, hprev, hlast⟩, trivial⟩
      · exact (hbut.getInt32 (by omega)).trans hid'
      · exact (hbut.getInt32 (by omega)).trans hprev'
  | cons x before ih =>
      obtain ⟨⟨p', hp', hid', hprev', hnext'⟩, hrest⟩ := hl
      refine ⟨⟨p', (hold x List.mem_cons_self).trans hp', hid', hprev', ?_⟩, ?_⟩
      · cases before with
        | nil => exact hnext'
        | cons y before => exact hnext'
      · exact ih hrest fun y hy => hold y (List.mem_cons_of_mem x hy)

/-- What the place of the tuple says about the table afterwards. -/
theorem FirstFit.linked {rid : RID} (hf : FirstFit h tuple ids rid h') (hh : Chained h ids)
    (hl : h.Links invalidPageId ids) (hne : tuple ≠ []) :
    ∃ ids', Inserted h ids tuple rid h' ids' ∧ h'.Links invalidPageId ids' ∧
      ((∃ before after, ids = before ++ rid.pageId :: after ∧
        (∀ x ∈ before, ¬h.RoomOn tuple x) ∧ h.RoomOn tuple rid.pageId ∧ ids' = ids ∧
        h'.nextPageId = h.nextPageId) ∨
      (∀ x ∈ ids, ¬h.RoomOn tuple x) ∧ rid.pageId = h.nextPageId ∧
        ids' = ids ++ [h.nextPageId] ∧ h'.nextPageId = h.nextPageId + 1) := by
  rcases hf.cases with ⟨before, after, p, q, rfl, hbefore, hp, hroom, htake, rfl⟩ |
    ⟨before, id, p, h₁, q, r, rfl, hall, hrid, hp, hlink, hq, htake, rfl⟩
  · have hmem : rid.pageId ∈ before ++ rid.pageId :: after := by simp
    refine ⟨_, ⟨h, p, q, Grown.refl hh, hmem, hp, htake, rfl⟩, ?_, .inl ⟨before, after, rfl,
      hbefore, ⟨p, hp, hroom⟩, rfl, rfl⟩⟩
    exact hl.setPage hp (header_insertTuple (hh.layout hp) hne htake)
  · have hlt : h.nextPageId < 2147483648 := by
      by_contra hnot
      rw [appendPage_error p hnot] at hlink
      cases hlink
    obtain ⟨p', hp', hpage⟩ := hh.chain.at
    rw [hp] at hp'
    cases hp'
    obtain ⟨h₂, hlink', hgrown, hnext, hpages⟩ := appendPage_ok hh hp hpage hlt
    rw [hlink] at hlink'
    obtain ⟨-, rfl⟩ := Prod.mk.inj (Except.ok.inj hlink')
    have hmem : id ∈ before ++ [id] := by simp
    have hknown := hh.known id hmem
    have hnonneg : 0 ≤ h.nextPageId := Int.le_trans hknown.1 (Int.le_of_lt hknown.2)
    have hlist : before ++ [id, h.nextPageId] = before ++ [id] ++ [h.nextPageId] := by simp
    have hnew (x : PageId) (hx : x ∈ before ++ [id]) : x ≠ h.nextPageId := fun heq =>
      Int.lt_irrefl _ (heq ▸ (hh.known x hx).2)
    have hlinks : h₁.Links invalidPageId (before ++ [id, h.nextPageId]) := by
      refine hl.concat (fun x hx => ?_) hp (q := p.setNextPageId h.nextPageId) ?_ ?_ ?_
        ((hpages _).trans (if_pos rfl)) ?_ ?_ ?_
      · have hxid : x ≠ id := by
          rintro rfl
          have hdisj := (List.nodup_append.mp hh.nodup).2.2 x hx x (by simp)
          exact hdisj rfl
        rw [hpages, if_neg (hnew x (List.mem_append_left _ hx)), if_neg hxid]
      · rw [hpages, if_neg (hnew id hmem), if_pos rfl]
      · exact fun x hx => Memory.setInt32_of_not_mem (by omega)
      · exact Memory.getInt32_setInt32 _ _ (Int.le_trans (by decide) hnonneg) hlt
      · exact (chainPage_init _ _ hnonneg hlt).pageId
      · rw [hpage.pageId]
        exact getPrevPageId_init _ _ (Int.le_trans (by decide) hknown.1)
          (Int.lt_trans hknown.2 hlt)
      · exact (chainPage_init _ _ hnonneg hlt).nextPageId
    refine ⟨_, ⟨h₁, q, r, hgrown, ?_, hq, htake, rfl⟩, ?_, .inr ⟨hall, hrid, hlist, hnext⟩⟩
    · rw [hrid]
      simp
    · obtain ⟨q', next, hq', hpage'⟩ := hgrown.chained.chain.mem
        (show rid.pageId ∈ before ++ [id, h.nextPageId] by rw [hrid]; simp)
      rw [hq] at hq'
      cases hq'
      exact hlinks.setPage hq (header_insertTuple hpage'.layout hne htake)

end TableHeap

/-! ### Runs -/

namespace HeapOp

open TableHeap TablePage

/-- The call inserts a tuple, or is made for a slot with a tuple and does
not update it. -/
def OnOccupied : HeapOp → TableHeap → Prop
  | insertTuple _ _, _ => True
  | updateTuple _ _ _, _ => False
  | markDelete rid _, h => h.contents rid ≠ none
  | rollbackDelete rid, h => h.contents rid ≠ none
  | applyDelete rid, h => h.contents rid ≠ none

instance : (op : HeapOp) → (h : TableHeap) → Decidable (op.OnOccupied h)
  | insertTuple _ _, _ => isTrue trivial
  | updateTuple _ _ _, _ => isFalse id
  | markDelete rid _, h => inferInstanceAs (Decidable (h.contents rid ≠ none))
  | rollbackDelete rid, h => inferInstanceAs (Decidable (h.contents rid ≠ none))
  | applyDelete rid, h => inferInstanceAs (Decidable (h.contents rid ≠ none))

/-- The pages of the table are linked in both directions. -/
def Linked (h : TableHeap) : Prop := ∃ ids, Chained h ids ∧ h.Links invalidPageId ids

variable {h h' : TableHeap} {rid : RID}

theorem Linked.setPage {p q : TablePage} {v : Option StoredTuple} (hl : Linked h)
    (hp : h.pages rid.pageId = some p) (hq : Layout q) (hheader : ∀ x < 16, q x = p x)
    (hslot : q.slotAt = Function.update p.slotAt rid.slotNum v) :
    Linked (h.setPage rid.pageId q) := by
  obtain ⟨ids, hh, hlinks⟩ := hl
  exact ⟨ids, (hh.replace hp hq hheader hslot).1, hlinks.setPage hp hheader⟩

theorem Linked.insertTuple {tuple : List UInt8} {txn : Transaction} (hl : Linked h)
    {r : Option RID × TableHeap × Transaction} (hrun : h.insertTuple tuple txn = .ok r) :
    Linked r.2.1 := by
  obtain ⟨ids, hh, hlinks⟩ := hl
  by_cases hne : tuple = []
  · rw [hne, insertTuple_nil hh txn] at hrun
    cases hrun
  · rw [insertTupleCalls_eq] at hrun
    rcases insertTupleCalls_spec hh hne txn (fun _ => 0) with ⟨-, hlarge⟩ | ⟨-, herr⟩ | ⟨-, rid, h',
      calls, hins, hfit, -⟩
    · rw [hlarge] at hrun
      cases hrun
      exact ⟨ids, hh, hlinks⟩
    · rw [herr] at hrun
      cases hrun
    · rw [hins] at hrun
      cases hrun
      obtain ⟨ids', hdone, hlinks', -⟩ := hfit.linked hh hlinks hne
      exact ⟨ids', (hdone.spec hh hne).1, hlinks'⟩

theorem Linked.run {op : HeapOp} {s s' : TrackedHeap} {r : Unit} (hl : Linked s.heap)
    (hop : op.OnOccupied s.heap) (hrun : op.run s = .ok (r, s')) : Linked s'.heap := by
  obtain ⟨ids, hh, -⟩ := id hl
  cases op with
  | insertTuple tuple txn =>
      simp only [HeapOp.run] at hrun
      cases hins : s.heap.insertTuple tuple txn with
      | error e =>
          rw [hins] at hrun
          cases hrun
      | ok r =>
          rw [hins] at hrun
          cases hrun
          exact hl.insertTuple hins
  | updateTuple tuple rid txn => exact hop.elim
  | markDelete rid txn =>
      obtain ⟨t, ht⟩ := Option.ne_none_iff_exists'.mp hop
      obtain ⟨p, hp, -⟩ := exists_page_of_contents ht
      obtain ⟨hq, -, hheader, hslot⟩ := TablePage.markDelete_spec (hh.layout hp) (s := rid.slotNum)
      simp only [HeapOp.run, (TableHeap.markDelete_spec hh hp txn).1] at hrun
      cases hrun
      exact hl.setPage hp hq hheader hslot
  | rollbackDelete rid =>
      obtain ⟨t, ht⟩ := Option.ne_none_iff_exists'.mp hop
      obtain ⟨p, hp, hslot⟩ := exists_page_of_contents ht
      obtain ⟨q, hq, hlayout, -, hheader, hslot'⟩ :=
        TablePage.rollbackDelete_spec (hh.layout hp) (occupied_of_slotAt hslot)
      simp only [HeapOp.run, TableHeap.rollbackDelete, hp, hq, bind, Except.bind] at hrun
      cases hrun
      exact hl.setPage hp hlayout hheader hslot'
  | applyDelete rid =>
      obtain ⟨t, ht⟩ := Option.ne_none_iff_exists'.mp hop
      obtain ⟨p, hp, hslot⟩ := exists_page_of_contents ht
      obtain ⟨q, hq, hlayout, -, hheader, hslot'⟩ :=
        TablePage.applyDelete_spec (hh.layout hp) hslot
      simp only [HeapOp.run, TableHeap.applyDelete, hp, hq, bind, Except.bind] at hrun
      cases hrun
      exact hl.setPage hp hlayout hheader hslot'

theorem Linked.create {n : PageId} (hn : 0 ≤ n) (hrun : TableHeap.create n = .ok h) :
    Linked h := by
  obtain ⟨hlt, -, -, hpages⟩ := create_eq hrun
  have hpage := chainPage_init (fun _ => 0) invalidPageId hn hlt
  refine ⟨[n], (create_spec hn hrun).1, ⟨_, (hpages n).trans (if_pos rfl), hpage.pageId, ?_,
    hpage.nextPageId⟩, trivial⟩
  exact getPrevPageId_init _ _ (by decide) (by decide)

theorem linked_of_reachable {n : PageId} (hn : 0 ≤ n) {s : TrackedHeap}
    (hs : Reachable (fun s => TableHeap.create n = .ok s.heap ∧ s.stored = fun _ => none)
      (fun op s => op.OnOccupied s.heap) HeapOp.run s) : Linked s.heap := by
  refine hs.invariant_of_ok (I := fun s => Linked s.heap) (fun s hs => Linked.create hn hs.1) ?_
  exact fun op s r s' hl hop hrun => hl.run hop hrun

end HeapOp

namespace TableHeap

variable {h h' : TableHeap} {ids ids' : List PageId} {rid : RID} {tuple : List UInt8}

theorem Inserted.getTuple (hdone : Inserted h ids tuple rid h' ids') (hh : Chained h ids)
    (hne : tuple ≠ []) :
    h'.getTuple rid = some tuple ∧ ∀ other, other ≠ rid → h'.getTuple other = h.getTuple other := by
  obtain ⟨-, -, hcontents⟩ := hdone.spec hh hne
  refine ⟨?_, fun other hother => ?_⟩
  · rw [getTuple_eq_some_iff, hcontents, Function.update_self]
  · rw [getTuple_eq, getTuple_eq, hcontents, Function.update_of_ne hother]

/-- In every table that calls on its tuples lead to, a tuple of at most 480
bytes goes into the first page with room, or into a new page when there is
none. It can be got back, no other tuple changes, the pages are linked in
both directions without repetition, and everything taken from the pool is
given back. -/
theorem insertTuple_firstFit {n : PageId} (hn : 0 ≤ n) {s : TrackedHeap}
    (hs : Reachable (fun s => create n = .ok s.heap ∧ s.stored = fun _ => none)
      (fun op s => op.OnOccupied s.heap) HeapOp.run s)
    (tuple : List UInt8) (hpos : 0 < tuple.length) (hsize : tuple.length ≤ 480)
    (hids : s.heap.nextPageId < 2147483648) (txn : Transaction) (others : PageId → Nat) :
    ∃ rid h' calls, s.heap.insertTupleCalls tuple txn =
        .ok (some rid, h', txn.emplaceBack rid .insert [], calls) ∧
      (h'.getTuple rid = some tuple ∧
        ∀ other, other ≠ rid → h'.getTuple other = s.heap.getTuple other) ∧
      ((∃ before after, s.heap.pageIds = before ++ rid.pageId :: after ∧
          (∀ x ∈ before, ¬s.heap.RoomOn tuple x) ∧ s.heap.RoomOn tuple rid.pageId ∧
          h'.pageIds = s.heap.pageIds) ∨
        (∀ x ∈ s.heap.pageIds, ¬s.heap.RoomOn tuple x) ∧
          h'.pageIds = s.heap.pageIds ++ [rid.pageId]) ∧
      (h'.pageIds.head? = some h'.firstPageId ∧ h'.pageIds.Nodup ∧
        h'.Links invalidPageId h'.pageIds) ∧
      GivesBack others s.heap h' calls := by
  have hne : tuple ≠ [] := List.ne_nil_of_length_pos hpos
  obtain ⟨ids, hh, hlinks⟩ := HeapOp.linked_of_reachable hn hs
  rcases insertTupleCalls_spec hh hne txn others with ⟨hlarge, -⟩ | ⟨hfull, -⟩ | ⟨-, rid, h', calls,
    hrun, hfit, hgives⟩
  · omega
  · exact absurd hids hfull
  · obtain ⟨ids', hdone, hlinks', hplace⟩ := hfit.linked hh hlinks hne
    have hh' := (hdone.spec hh hne).1
    refine ⟨rid, h', calls, hrun, hdone.getTuple hh hne, ?_, ?_, hgives⟩
    · rw [hh.pageIds_eq, hh'.pageIds_eq]
      rcases hplace with ⟨before, after, hlist, hbefore, hroom, heq, -⟩ | ⟨hall, hrid, heq, -⟩
      · exact .inl ⟨before, after, hlist, hbefore, hroom, heq⟩
      · exact .inr ⟨hall, by rw [heq, hrid]⟩
    · rw [hh'.pageIds_eq]
      exact ⟨hh'.first, hh'.nodup, hlinks'⟩

/-- The first of three pages is full. The second one has room above a tuple
that is marked as deleted, and is taken. -/
theorem insertTuple_firstFit_first : ∃ (s : TrackedHeap) (h' : TableHeap) (calls : List PoolCall),
    s.heap.pageIds = [1, 2, 3] ∧
      (s.heap.contents ⟨2, 0⟩).map StoredTuple.deleted = some true ∧
      s.heap.insertTupleCalls (List.replicate 100 4) ⟨.growing, []⟩ =
        .ok (some ⟨2, 1⟩, h', ⟨.growing, [⟨⟨2, 1⟩, .insert, []⟩]⟩, calls) ∧
      h'.getTuple ⟨2, 1⟩ = some (List.replicate 100 4) ∧
      (∀ other, other ≠ ⟨2, 1⟩ → h'.getTuple other = s.heap.getTuple other) ∧
      h'.Links invalidPageId h'.pageIds := by
  obtain ⟨s, hs, heval⟩ := exists_made (fun op s => op.OnOccupied s.heap)
    [.insertTuple (List.replicate 470 1) ⟨.growing, []⟩,
      .insertTuple (List.replicate 300 2) ⟨.growing, []⟩,
      .insertTuple (List.replicate 250 3) ⟨.growing, []⟩, .markDelete ⟨2, 0⟩ ⟨.growing, []⟩]
    (fun s => s.heap.pageIds = [1, 2, 3] ∧ s.heap.nextPageId = 4 ∧
      (s.heap.contents ⟨2, 0⟩).map StoredTuple.deleted = some true ∧
        (s.heap.insertTupleCalls (List.replicate 100 4) ⟨.growing, []⟩).toOption.any
          fun r => r.1 = some ⟨2, 1⟩)
    (by decide +kernel)
  obtain ⟨hids, hnext, hmarked, hplace⟩ := of_decide_eq_true heval
  obtain ⟨rid, h', calls, hrun, ⟨hget, hothers⟩, -, ⟨-, -, hlinks⟩, -⟩ := insertTuple_firstFit
    (by decide) hs (List.replicate 100 4) (by decide) (by decide) (by rw [hnext]; decide)
    ⟨.growing, []⟩ fun _ => 0
  rw [hrun] at hplace
  cases Option.some.inj (of_decide_eq_true hplace : some rid = some ⟨2, 1⟩)
  exact ⟨s, h', calls, hids, hmarked, hrun, hget, hothers, hlinks⟩

end TableHeap

end ScuDb
