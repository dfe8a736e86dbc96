import ScuDb.Index.Execution
import ScuDb.Index.Shape
import Mathlib.Data.List.Chain
import Mathlib.Logic.Relation

/-!
The checker that the tests call, `isBalanced` and `isPageCorr`, on any
finite tree of pages.

`isPageCorr` hands the first and the last key of a page to the parent.
Of a leaf these bound all keys below. Of an internal page they do not:
slot 0 holds no key of the order, and the last separator is not the last
key below. The repeated key in a leaf and the only child of an internal
page are two more things that it does not look at. `RestInOrder` says
that they are as they should be.
-/

namespace ScuDb

open Foundations

namespace BPlusTree

variable {K V : Type}

/-! ### The checker -/

/-- The loop of `isBalanced`, `isBalanced` being what `child` stands for. -/
def balancedLoop (child : PageId → TreeM K V Int) :
    Int → Int → List (K × PageId) → TreeM K V Int
  | _, ret, [] => pure ret
  | last, ret, e :: rest => do
      let cur ← child e.2
      if 0 ≤ cur ∧ last = -2 then balancedLoop child cur (cur + 1) rest
      else if last ≠ cur then pure (-1)
      else balancedLoop child last ret rest

/-- `isBalanced`: the height, or -1. -/
def isBalanced : Nat → PageId → TreeM K V Int
  | 0, _ => throw .outOfFuel
  | fuel + 1, pid => do
      let t ← get
      if t.rootPageId = invalidPageId then pure 1
      else do
        fetchPage pid
        let ret ← match ← readPage pid with
          | .leaf _ => pure 0
          | .internal page => balancedLoop (isBalanced fuel) (-2) 0 page.array
        unpinPage pid false
        pure ret

/-- The loop over a leaf: no key is above the next one. -/
def leafInOrder (cmp : K → K → Int) : List (K × V) → Bool
  | a :: b :: rest => if cmp a.1 b.1 > 0 then false else leafInOrder cmp (b :: rest)
  | _ => true

/-- The loop over an internal page from the slot of the first entry of the
list on, `prev` being the entry before it. `isPageCorr` is what `child`
stands for. -/
def slotsCorr (cmp : K → K → Int) (child : PageId → K × K → TreeM K V (Bool × K × K)) :
    Bool → K × PageId → Bool → K × K → K × K → List (K × PageId) → TreeM K V Bool
  | _, _, ret, _, _, [] => pure ret
  | first, prev, ret, left, right, e :: rest => do
      let (ret, left) ← if first && ret then child prev.2 left else pure (ret, left)
      let (ret, right) ← if ret then child e.2 right else pure (ret, right)
      let ret := ret && (decide (cmp e.1 left.2 > 0) && decide (cmp e.1 right.1 ≤ 0))
      let ret := ret && (first || decide (cmp prev.1 e.1 < 0))
      if !ret then pure ret
      else slotsCorr cmp child false e ret right right rest

/-- `isPageCorr`. `out` is where the caller wants the page's first and last
key. -/
def isPageCorr [Inhabited K] (cmp : K → K → Int) :
    Nat → PageId → K × K → TreeM K V (Bool × K × K)
  | 0, _, _ => throw .outOfFuel
  | fuel + 1, pid, out => do
      let t ← get
      if t.rootPageId = invalidPageId then pure (true, out)
      else do
        fetchPage pid
        let node ← readPage pid
        let ret := decide (node.getMinSize ≤ node.getSize ∧ node.getSize ≤ node.getMaxSize)
        let (ret, out) ← match node with
          | .leaf page => do
              let ret := ret && leafInOrder cmp page.array
              let low ← MonadExcept.ofExcept (page.keyAt 0)
              let high ← MonadExcept.ofExcept (page.keyAt (page.array.length - 1))
              pure (ret, low, high)
          | .internal page => do
              let ret ← match page.array with
                | [] => pure ret
                | e :: rest =>
                    slotsCorr cmp (isPageCorr cmp fuel) true e ret default default rest
              let low ← MonadExcept.ofExcept (page.keyAt 0)
              let high ← MonadExcept.ofExcept (page.keyAt ((page.array.length : Int) - 1))
              pure (ret, low, high)
        unpinPage pid false
        pure (ret, out)

/-- Both parts of the checker say yes. -/
def Accepted [Inhabited K] (cmp : K → K → Int) (fuel : Nat) (t : BPlusTree K V) : Prop :=
  wp (isPageCorr cmp fuel t.rootPageId default) (fun r _ => r.1 = true) t ∧
    wp (isBalanced fuel t.rootPageId) (fun r _ => 0 ≤ r) t

/-! ### Trees of pages -/

section Pages

variable (cmp : K → K → Int) (pages : Pages K V)

/-- `c` is a child of `p`. -/
def IsChild (p c : PageId) : Prop :=
  ∃ page, pages p = some (.internal page) ∧ c ∈ page.array.map Prod.snd

/-- There are pages behind all ids below, `n` levels at most. -/
def Finite : Nat → PageId → Prop
  | 0, _ => False
  | n + 1, p =>
      match pages p with
      | none => False
      | some (.leaf _) => True
      | some (.internal page) => ∀ e ∈ page.array, Finite n e.2

/-- The keys of the leaves below a page, from left to right. -/
def keysBelow : Nat → PageId → List K
  | 0, _ => []
  | n + 1, p =>
      match pages p with
      | none => []
      | some (.leaf page) => page.array.map Prod.fst
      | some (.internal page) => page.array.flatMap fun e => keysBelow n e.2

/-- `q` is a leaf, `d` levels below `p`. -/
inductive LeafAt : PageId → Nat → PageId → Prop
  | leaf {p : PageId} {page : LeafPage K V} (hp : pages p = some (.leaf page)) : LeafAt p 0 p
  | child {p c q : PageId} {d : Nat} (hc : IsChild pages p c) (hq : LeafAt c d q) :
      LeafAt p (d + 1) q

/-- A search for the key goes from `p` to `c`. -/
def Turns (key : K) (p c : PageId) : Prop :=
  ∃ page, pages p = some (.internal page) ∧ page.lookup cmp key = .ok c

/-- The pages below `root` are a finite tree. -/
structure IsTree (n : Nat) (root : PageId) : Prop where
  finite : Finite pages n root
  root_top : ∀ p, Relation.ReflTransGen (IsChild pages) root p → ¬IsChild pages p root
  parent_unique : ∀ p p' c, Relation.ReflTransGen (IsChild pages) root p →
    Relation.ReflTransGen (IsChild pages) root p' → IsChild pages p c → IsChild pages p' c → p = p'
  slot_unique : ∀ p page, Relation.ReflTransGen (IsChild pages) root p →
    pages p = some (.internal page) → (page.array.map Prod.snd).Nodup

/-- The keys of the leaves and the separators of the pages below `root`
are keys of `S`. -/
structure KeysWithin (S : Set K) (root : PageId) : Prop where
  leaf : ∀ p page, Relation.ReflTransGen (IsChild pages) root p →
    pages p = some (.leaf page) → ∀ e ∈ page.array, e.1 ∈ S
  separator : ∀ p page, Relation.ReflTransGen (IsChild pages) root p →
    pages p = some (.internal page) → ∀ e ∈ page.array.tail, e.1 ∈ S

/-- What a check of the tree is to find out. -/
structure Searchable (n : Nat) (root : PageId) : Prop where
  depth : ∃ d, ∀ d' q, LeafAt pages root d' q → d' = d
  increasing : (keysBelow pages n root).Pairwise fun a b => cmp a b < 0
  found : ∀ d q page, LeafAt pages root d q → pages q = some (.leaf page) →
    ∀ e ∈ page.array, Relation.ReflTransGen (Turns cmp pages e.1) root q

/-- What `isPageCorr` does not look at is in order: no leaf repeats a key,
no keys are under an only child, and the keys under an internal page are
on the right side of the separators beside it. -/
structure RestInOrder (n : Nat) (root : PageId) : Prop where
  distinct : ∀ p page, Relation.ReflTransGen (IsChild pages) root p →
    pages p = some (.leaf page) → page.array.IsChain fun a b => cmp a.1 b.1 ≠ 0
  single : ∀ p page, Relation.ReflTransGen (IsChild pages) root p →
    pages p = some (.internal page) → page.array.length ≤ 1 → keysBelow pages n p = []
  before : ∀ p page i e f, Relation.ReflTransGen (IsChild pages) root p →
    pages p = some (.internal page) → page.array[i]? = some e → page.array[i + 1]? = some f →
    (∃ child, pages e.2 = some (.internal child)) →
    ∀ k ∈ (keysBelow pages n e.2).getLast?, cmp k f.1 < 0
  behind : ∀ p page i e f, Relation.ReflTransGen (IsChild pages) root p →
    pages p = some (.internal page) → page.array[i]? = some e → page.array[i + 1]? = some f →
    (∃ child, pages f.2 = some (.internal child)) →
    ∀ k ∈ (keysBelow pages n f.2).head?, cmp f.1 k ≤ 0

end Pages

/-! ### What the checker finds out -/

section Checker

variable {cmp : K → K → Int} {pages : Pages K V} {root : PageId}

/-- What is known of two neighbours in a page, and of the separators. -/
structure SlotsOk (cmp : K → K → Int) (corr : PageId → K → K → Prop)
    (array : List (K × PageId)) : Prop where
  pairs : ∀ i e f, array[i]? = some e → array[i + 1]? = some f →
    ∃ low high low' high', corr e.2 low high ∧ corr f.2 low' high' ∧
      0 < cmp f.1 high ∧ cmp f.1 low' ≤ 0
  chain : array.tail.IsChain fun a b => cmp a.1 b.1 < 0

/-- What is known of a page that `isPageCorr` accepts. The bounds are those
of a leaf only. -/
def PageCorr (cmp : K → K → Int) (pages : Pages K V) : Nat → PageId → K → K → Prop
  | 0, _, _, _ => False
  | n + 1, p, low, high =>
      match pages p with
      | none => False
      | some (.leaf page) =>
          (page.array.map Prod.fst).head? = some low ∧
            (page.array.map Prod.fst).getLast? = some high ∧
            page.array.IsChain fun a b => cmp a.1 b.1 ≤ 0
      | some (.internal page) => SlotsOk cmp (PageCorr cmp pages n) page.array

theorem leafInOrder_iff {array : List (K × V)} :
    leafInOrder cmp array = true ↔ array.IsChain fun a b => cmp a.1 b.1 ≤ 0 := by
  induction array with
  | nil => simp [leafInOrder]
  | cons a array ih =>
      cases array with
      | nil => simp [leafInOrder]
      | cons b rest =>
          rw [leafInOrder, List.isChain_cons_cons, ← ih]
          by_cases hgt : cmp a.1 b.1 > 0
          · simp [hgt]
          · simp [hgt, not_lt.mp hgt]

/-- The state, as far as the checker reads it. -/
def Reads (pages : Pages K V) (root : PageId) (t : BPlusTree K V) : Prop :=
  t.pages = pages ∧ t.rootPageId = root

/-- `child` finds out `corr`. -/
def FindsOut (pages : Pages K V) (root : PageId) (corr : PageId → K → K → Prop)
    (child : PageId → K × K → TreeM K V (Bool × K × K)) : Prop :=
  ∀ pid out t, Reads pages root t → wlp (child pid out)
    (fun r t' => Reads pages root t' ∧ (r.1 = true → corr pid r.2.1 r.2.2)) t

theorem SlotsOk.cons {corr : PageId → K → K → Prop} {prev e : K × PageId}
    {rest : List (K × PageId)} {left right : K × K} (hleft : corr prev.2 left.1 left.2)
    (hright : corr e.2 right.1 right.2) (habove : 0 < cmp e.1 left.2)
    (hbelow : cmp e.1 right.1 ≤ 0)
    (hrest : ∀ i a b, (e :: rest)[i]? = some a → (e :: rest)[i + 1]? = some b →
      ∃ low high low' high', corr a.2 low high ∧ corr b.2 low' high' ∧
        0 < cmp b.1 high ∧ cmp b.1 low' ≤ 0)
    (hchain : (e :: rest).IsChain fun a b => cmp a.1 b.1 < 0) :
    SlotsOk cmp corr (prev :: e :: rest) where
  chain := hchain
  pairs i a b ha hb := by
    cases i with
    | zero =>
        cases ha
        cases hb
        exact ⟨_, _, _, _, hleft, hright, habove, hbelow⟩
    | succ i => exact hrest i a b ha hb

theorem wlp_slotsCorr_rest {corr : PageId → K → K → Prop}
    {child : PageId → K × K → TreeM K V (Bool × K × K)} (hchild : FindsOut pages root corr child)
    {prev : K × PageId} {left right : K × K} {rest : List (K × PageId)} {t : BPlusTree K V}
    (ht : Reads pages root t) (hleft : corr prev.2 left.1 left.2) :
    wlp (slotsCorr cmp child false prev true left right rest)
      (fun ret t' => Reads pages root t' ∧ (ret = true → SlotsOk cmp corr (prev :: rest) ∧
        (prev :: rest).IsChain fun a b => cmp a.1 b.1 < 0)) t := by
  induction rest generalizing prev left right t with
  | nil =>
      rw [slotsCorr, wlp_pure]
      refine ⟨ht, fun _ => ⟨⟨?_, List.isChain_nil⟩, List.isChain_singleton _⟩⟩
      intro i e f _ hf
      cases hf
  | cons e rest ih =>
      simp only [slotsCorr, Bool.false_and, Bool.false_eq_true, if_false, if_true, pure_bind,
        wlp_bind]
      refine wlp_mono (hchild e.2 right t ht) ?_
      rintro ⟨ret, right'⟩ t₁ ⟨ht₁, hright⟩
      simp only [Bool.false_or]
      generalize htest : (ret && (decide (cmp e.1 left.2 > 0) && decide (cmp e.1 right'.1 ≤ 0)) &&
        decide (cmp prev.1 e.1 < 0)) = ok
      cases ok with
      | false =>
          simp only [Bool.not_false, if_true, wlp_pure, Bool.false_eq_true]
          exact ⟨ht₁, False.elim⟩
      | true =>
          simp only [Bool.and_eq_true, decide_eq_true_eq] at htest
          obtain ⟨⟨hret, habove, hbelow⟩, hlt⟩ := htest
          have hright := hright hret
          simp only [Bool.not_true, Bool.false_eq_true, if_false]
          refine wlp_mono (ih ht₁ hright) ?_
          rintro ret' t₂ ⟨ht₂, hrest⟩
          refine ⟨ht₂, fun htrue => ?_⟩
          obtain ⟨hslots, hchain⟩ := hrest htrue
          exact ⟨.cons hleft hright habove hbelow hslots.pairs hchain,
            List.isChain_cons_cons.mpr ⟨hlt, hchain⟩⟩

theorem wlp_slotsCorr {corr : PageId → K → K → Prop}
    {child : PageId → K × K → TreeM K V (Bool × K × K)} (hchild : FindsOut pages root corr child)
    {prev : K × PageId} {ret : Bool} {left right : K × K} {rest : List (K × PageId)}
    {t : BPlusTree K V} (ht : Reads pages root t) :
    wlp (slotsCorr cmp child true prev ret left right rest)
      (fun ret t' => Reads pages root t' ∧ (ret = true → SlotsOk cmp corr (prev :: rest))) t := by
  cases rest with
  | nil =>
      rw [slotsCorr, wlp_pure]
      refine ⟨ht, fun _ => ⟨?_, List.isChain_nil⟩⟩
      intro i e f _ hf
      cases hf
  | cons e rest =>
      cases ret with
      | false =>
          simp only [slotsCorr, Bool.and_false, Bool.false_and, Bool.false_eq_true, if_false,
            pure_bind, Bool.not_false, if_true, wlp_pure]
          exact ⟨ht, False.elim⟩
      | true =>
          simp only [slotsCorr, Bool.and_true, if_true, Bool.true_or, wlp_bind]
          refine wlp_mono (hchild prev.2 left t ht) ?_
          rintro ⟨ret, left'⟩ t₁ ⟨ht₁, hleft⟩
          cases ret with
          | false =>
              simp only [Bool.false_eq_true, if_false, pure_bind, Bool.false_and, Bool.not_false,
                if_true, wlp_pure]
              exact ⟨ht₁, False.elim⟩
          | true =>
              simp only [if_true, wlp_bind]
              refine wlp_mono (hchild e.2 right t₁ ht₁) ?_
              rintro ⟨ret, right'⟩ t₂ ⟨ht₂, hright⟩
              simp only
              generalize htest :
                (ret && (decide (cmp e.1 left'.2 > 0) && decide (cmp e.1 right'.1 ≤ 0))) = ok
              cases ok with
              | false =>
                  simp only [Bool.not_false, if_true, wlp_pure, Bool.false_eq_true]
                  exact ⟨ht₂, False.elim⟩
              | true =>
                  simp only [Bool.and_eq_true, decide_eq_true_eq] at htest
                  obtain ⟨hret, habove, hbelow⟩ := htest
                  have hright := hright hret
                  simp only [Bool.not_true, Bool.false_eq_true, if_false]
                  refine wlp_mono (wlp_slotsCorr_rest hchild ht₂ hright) ?_
                  rintro ret' t₃ ⟨ht₃, hrest⟩
                  refine ⟨ht₃, fun htrue => ?_⟩
                  obtain ⟨hslots, hchain⟩ := hrest htrue
                  exact .cons (hleft rfl) hright habove hbelow hslots.pairs hchain

theorem leafKeyAt_ok {page : LeafPage K V} {i : Nat} {k : K} (h : page.keyAt i = .ok k) :
    (page.array.map Prod.fst)[i]? = some k := by
  rw [List.getElem?_map]
  rw [LeafPage.keyAt] at h
  cases he : page.array[i]? with
  | none =>
      rw [he] at h
      cases h
  | some e =>
      rw [he] at h
      cases h
      rfl

theorem findsOut_isPageCorr [Inhabited K] (hroot : root ≠ invalidPageId) (n : Nat) :
    FindsOut pages root (PageCorr cmp pages n)
      (isPageCorr cmp n : PageId → K × K → TreeM K V _) := by
  induction n with
  | zero =>
      intro pid out t _
      rw [isPageCorr, wlp_throw]
      trivial
  | succ n ih =>
      intro pid out t ht
      have hne : t.rootPageId ≠ invalidPageId := ht.2 ▸ hroot
      simp only [isPageCorr, wlp_bind, wlp_get, if_neg hne, wlp_fetchPage, wlp_readPage]
      rintro - - page hpage
      have hpages : pages pid = some page := ht.1 ▸ hpage
      have ht' (calls : List PoolCall) : Reads pages root { t with calls := calls } := ht
      cases page with
      | leaf page =>
          simp only [wlp_bind, wlp_ofExcept, wlp_pure, wlp_unpinPage]
          intro low hlow high hhigh
          refine ⟨ht' _, fun hret => ?_⟩
          rw [Bool.and_eq_true] at hret
          simp only [PageCorr, hpages]
          refine ⟨?_, ?_, leafInOrder_iff.mp hret.2⟩
          · rw [List.head?_eq_getElem?]
            exact leafKeyAt_ok hlow
          · rw [List.getLast?_eq_getElem?, List.length_map]
            exact leafKeyAt_ok hhigh
      | internal page =>
          simp only
          cases harray : page.array with
          | nil =>
              simp only [wlp_bind, wlp_ofExcept, wlp_pure, wlp_unpinPage]
              intro low hlow
              rw [InternalPage.keyAt, harray] at hlow
              cases hlow
          | cons e rest =>
              simp only [wlp_bind, wlp_ofExcept, wlp_pure, wlp_unpinPage]
              refine wlp_mono (wlp_slotsCorr ih (ht' _)) ?_
              rintro ret t₁ ⟨ht₁, hslots⟩ low - high -
              refine ⟨ht₁, fun hret => ?_⟩
              simp only [PageCorr, hpages, harray]
              exact hslots hret

/-- `child` finds out how far the leaves are, or that they are not all as
far. -/
def FindsHeight (pages : Pages K V) (root : PageId) (child : PageId → TreeM K V Int) : Prop :=
  ∀ pid t, Reads pages root t → wlp (child pid)
    (fun r t' => Reads pages root t' ∧ -1 ≤ r ∧
      (0 ≤ r → ∀ d q, LeafAt pages pid d q → (d : Int) = r)) t

theorem wlp_balancedLoop_rest {child : PageId → TreeM K V Int}
    (hchild : FindsHeight pages root child) {last : Int} (hlast : 0 ≤ last)
    {rest : List (K × PageId)} {t : BPlusTree K V} (ht : Reads pages root t) :
    wlp (balancedLoop child last (last + 1) rest)
      (fun r t' => Reads pages root t' ∧ -1 ≤ r ∧ (0 ≤ r → r = last + 1 ∧
        ∀ e ∈ rest, ∀ d q, LeafAt pages e.2 d q → (d : Int) = last)) t := by
  induction rest generalizing t with
  | nil =>
      rw [balancedLoop, wlp_pure]
      exact ⟨ht, by omega, fun _ => ⟨rfl, by simp⟩⟩
  | cons e rest ih =>
      rw [balancedLoop, wlp_bind]
      refine wlp_mono (hchild e.2 t ht) ?_
      rintro cur t₁ ⟨ht₁, -, hcur⟩
      rw [if_neg (by omega)]
      by_cases heq : last = cur
      · rw [if_neg (by omega)]
        refine wlp_mono (ih ht₁) ?_
        rintro r t₂ ⟨ht₂, hr, hrest⟩
        refine ⟨ht₂, hr, fun hpos => ⟨(hrest hpos).1, ?_⟩⟩
        rw [List.forall_mem_cons]
        subst heq
        exact ⟨hcur hlast, (hrest hpos).2⟩
      · rw [if_pos heq, wlp_pure]
        exact ⟨ht₁, le_rfl, by omega⟩

theorem wlp_balancedLoop {child : PageId → TreeM K V Int}
    (hchild : FindsHeight pages root child) {array : List (K × PageId)} {t : BPlusTree K V}
    (ht : Reads pages root t) :
    wlp (balancedLoop child (-2) 0 array)
      (fun r t' => Reads pages root t' ∧ -1 ≤ r ∧ (0 ≤ r →
        ∀ e ∈ array, ∀ d q, LeafAt pages e.2 d q → (d : Int) + 1 = r)) t := by
  cases array with
  | nil =>
      rw [balancedLoop, wlp_pure]
      exact ⟨ht, by omega, by simp⟩
  | cons e rest =>
      rw [balancedLoop, wlp_bind]
      refine wlp_mono (hchild e.2 t ht) ?_
      rintro cur t₁ ⟨ht₁, hge, hcur⟩
      by_cases hpos : 0 ≤ cur
      · rw [if_pos ⟨hpos, rfl⟩]
        refine wlp_mono (wlp_balancedLoop_rest hchild hpos ht₁) ?_
        rintro r t₂ ⟨ht₂, hr, hrest⟩
        refine ⟨ht₂, hr, fun hrpos => ?_⟩
        obtain ⟨hreq, hall⟩ := hrest hrpos
        rw [List.forall_mem_cons]
        refine ⟨fun d q hq => ?_, fun f hf d q hq => ?_⟩
        · rw [hcur hpos d q hq, hreq]
        · rw [hall f hf d q hq, hreq]
      · rw [if_neg (by omega), if_pos (by omega), wlp_pure]
        exact ⟨ht₁, le_rfl, by omega⟩

theorem findsHeight_isBalanced (hroot : root ≠ invalidPageId) (n : Nat) :
    FindsHeight pages root (isBalanced n) := by
  induction n with
  | zero =>
      intro pid t _
      rw [isBalanced, wlp_throw]
      trivial
  | succ n ih =>
      intro pid t ht
      have hne : t.rootPageId ≠ invalidPageId := ht.2 ▸ hroot
      simp only [isBalanced, wlp_bind, wlp_get, if_neg hne, wlp_fetchPage, wlp_readPage]
      rintro - - page hpage
      have hpages : pages pid = some page := ht.1 ▸ hpage
      have ht' (calls : List PoolCall) : Reads pages root { t with calls := calls } := ht
      cases page with
      | leaf page =>
          simp only [wlp_bind, wlp_pure, wlp_unpinPage]
          refine ⟨ht' _, by omega, fun _ d q hq => ?_⟩
          cases hq with
          | leaf _ => rfl
          | child hc _ =>
              obtain ⟨page', hpage', -⟩ := hc
              rw [hpages] at hpage'
              cases hpage'
      | internal page =>
          simp only [wlp_bind, wlp_pure, wlp_unpinPage]
          refine wlp_mono (wlp_balancedLoop ih (ht' _)) ?_
          rintro r t₁ ⟨ht₁, hge, hall⟩
          refine ⟨ht₁, hge, fun hpos d q hq => ?_⟩
          cases hq with
          | leaf hp =>
              rw [hpages] at hp
              cases hp
          | child hc hq =>
              obtain ⟨page', hpage', hmem⟩ := hc
              rw [hpages] at hpage'
              cases hpage'
              obtain ⟨e, he, rfl⟩ := List.mem_map.mp hmem
              have hd := hall hpos e he _ q hq
              push_cast
              exact hd

end Checker

end BPlusTree

end ScuDb
