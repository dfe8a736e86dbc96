import Mathlib.Data.List.GetD
import ScuDb.Foundations.Refinement
import ScuDb.Page.TablePage

/-!
Where the tuples of a slotted page lie.

In a page that is laid out, the directory ends before the free space
pointer and the tuples of the occupied slots lie between the free space
pointer and the end of the page, without overlap. `slotAt` reads the tuple
of a slot, and every operation has a lemma that says what it does to the
slots: it changes its own and leaves the tuples of the others as they are,
wherever it moves them.
-/

namespace ScuDb

open Foundations

/-- What a slot that is not free holds. -/
structure StoredTuple where
  deleted : Bool
  bytes : List UInt8
  deriving DecidableEq

instance (t : Option StoredTuple) (P : List UInt8 → Prop) [DecidablePred P] :
    Decidable (∀ old, t = some ⟨false, old⟩ → P old) :=
  match t with
  | none => isTrue (by simp)
  | some ⟨true, _⟩ => isTrue (by simp)
  | some ⟨false, old⟩ => decidable_of_iff (P old) (by simp)

namespace TablePage

/-- The slot is in the directory and not free. -/
def Occupied (p : TablePage) (i : Nat) : Prop := i < p.getTupleCount ∧ p.getTupleSize i ≠ 0

instance (p : TablePage) (i : Nat) : Decidable (p.Occupied i) :=
  inferInstanceAs (Decidable (_ ∧ _))

/-- The number of bytes of the tuple of a slot. -/
def tupleLength (p : TablePage) (i : Nat) : Nat := (p.getTupleSize i).natAbs

/-- The tuple of a slot. -/
def slotAt (p : TablePage) (i : Nat) : Option StoredTuple :=
  if p.Occupied i then
    some ⟨decide (p.getTupleSize i < 0), p.read (p.getTupleOffset i).toNat (p.tupleLength i)⟩
  else none

/-- The directory and the tuples have room beside each other. -/
structure Layout (p : TablePage) : Prop where
  count : 0 ≤ p.getTupleCount
  directory : 24 + 8 * p.getTupleCount ≤ p.getFreeSpacePointer
  free : p.getFreeSpacePointer ≤ 512
  inside : ∀ i, p.Occupied i → p.getFreeSpacePointer ≤ p.getTupleOffset i ∧
    p.getTupleOffset i + p.tupleLength i ≤ 512
  apart : ∀ i j, p.Occupied i → p.Occupied j → i ≠ j →
    p.getTupleOffset i + p.tupleLength i ≤ p.getTupleOffset j ∨
      p.getTupleOffset j + p.tupleLength j ≤ p.getTupleOffset i

/-! ### The loop that corrects offsets -/

theorem foldl_shift (p : TablePage) (moved : Int → Int → Bool) (delta : Int) (n : Nat)
    (hrange : ∀ i < n, moved (p.getTupleSize i) (p.getTupleOffset i) = true →
      -2147483648 ≤ p.getTupleOffset i + delta ∧ p.getTupleOffset i + delta < 2147483648) :
    let q : TablePage := (List.range n).foldl (fun q i =>
      if moved (q.getTupleSize i) (q.getTupleOffset i)
      then q.setTupleOffset i (q.getTupleOffset i + delta) else q) p
    (∀ j, q.getTupleSize j = p.getTupleSize j) ∧
      (∀ j, q.getTupleOffset j =
        if j < n ∧ moved (p.getTupleSize j) (p.getTupleOffset j) = true
        then p.getTupleOffset j + delta else p.getTupleOffset j) ∧
      ∀ x, x < 24 ∨ 24 + 8 * n ≤ x → q x = p x := by
  induction n with
  | zero => simp
  | succ n ih =>
      obtain ⟨hsize, hoffset, hbytes⟩ := ih fun i hi => hrange i (by omega)
      have hlast : (List.foldl (fun q i => if moved (q.getTupleSize i) (q.getTupleOffset i)
          then q.setTupleOffset i (q.getTupleOffset i + delta) else q) p
            (List.range n)).getTupleOffset n = p.getTupleOffset n := by
        rw [hoffset, if_neg (by omega)]
      rw [List.range_succ, List.foldl_append]
      simp only [List.foldl_cons, List.foldl_nil, hsize, hlast]
      split
      case isTrue hmoved =>
        obtain ⟨hlo, hhi⟩ := hrange n (by omega) hmoved
        refine ⟨fun j => ?_, fun j => ?_, fun x hx => ?_⟩
        · rw [getTupleSize_setTupleOffset, hsize]
        · rw [getTupleOffset_setTupleOffset _ _ _ hlo hhi, hoffset]
          by_cases hj : j = n
          · subst hj
            rw [if_pos rfl, if_pos ⟨by omega, hmoved⟩]
          · rw [if_neg hj]
            have hlt : j < n + 1 ↔ j < n := by omega
            simp only [hlt]
        · rw [← hbytes x (by omega)]
          exact Memory.setInt32_of_not_mem (by omega)
      case isFalse hmoved =>
        refine ⟨hsize, fun j => ?_, fun x hx => hbytes x (by omega)⟩
        rw [hoffset]
        by_cases hj : j = n
        · subst hj
          rw [if_neg (by omega), if_neg fun hc => hmoved hc.2]
        · have hlt : j < n + 1 ↔ j < n := by omega
          simp only [hlt]

/-- The offsets of the slots that are chosen are corrected, nothing else
changes. -/
theorem shiftOffsets_spec (p : TablePage) (moved : Int → Int → Bool) (delta : Int)
    (hrange : ∀ i : Nat, i < p.getTupleCount →
      moved (p.getTupleSize i) (p.getTupleOffset i) = true →
      -2147483648 ≤ p.getTupleOffset i + delta ∧ p.getTupleOffset i + delta < 2147483648) :
    let q := p.shiftOffsets moved delta
    (∀ j, q.getTupleSize j = p.getTupleSize j) ∧
      (∀ j : Nat, q.getTupleOffset j =
        if j < p.getTupleCount ∧ moved (p.getTupleSize j) (p.getTupleOffset j) = true
        then p.getTupleOffset j + delta else p.getTupleOffset j) ∧
      ∀ x : Nat, x < 24 ∨ 24 + 8 * p.getTupleCount ≤ x → q x = p x := by
  obtain ⟨hsize, hoffset, hbytes⟩ := foldl_shift p moved delta p.getTupleCount.toNat
    fun i hi => hrange i (by omega)
  refine ⟨hsize, fun j => ?_, fun x hx => hbytes x (by omega)⟩
  refine (hoffset j).trans ?_
  have hlt : j < p.getTupleCount.toNat ↔ (j : Int) < p.getTupleCount := by omega
  simp only [hlt]

/-- A field before the directory is read from bytes that are the same. -/
theorem getInt32_eq_of_header {p q : TablePage} (h : ∀ x < 24, q x = p x) {a : Nat}
    (ha : a + 4 ≤ 24) : q.getInt32 a = p.getInt32 a :=
  Memory.getInt32_congr fun i hi => h (a + i) (by omega)

/-! ### Sliding tuples -/

/-- The tuple of slot `s` has been replaced by `new`, and the tuples below
it have been moved by the difference of the sizes. -/
structure Slid (p q : TablePage) (s : Nat) (new : List UInt8) : Prop where
  count : q.getTupleCount = p.getTupleCount
  free : q.getFreeSpacePointer = p.getFreeSpacePointer + p.tupleLength s - new.length
  size : ∀ j : Nat, j < p.getTupleCount →
    q.getTupleSize j = if j = s then (new.length : Int) else p.getTupleSize j
  offset : ∀ j, p.Occupied j → j ≠ s → q.getTupleOffset j =
    if p.getTupleOffset j < p.getTupleOffset s
    then p.getTupleOffset j + p.tupleLength s - new.length else p.getTupleOffset j
  offset_self : new ≠ [] →
    q.getTupleOffset s = p.getTupleOffset s + p.tupleLength s - new.length
  below : ∀ x y : Nat, q.getFreeSpacePointer ≤ x →
    x < p.getTupleOffset s + p.tupleLength s - new.length →
    (y : Int) = x - p.tupleLength s + new.length → q x = p y
  new : ∀ i < new.length, ∀ x : Nat,
    (x : Int) = p.getTupleOffset s + p.tupleLength s - new.length + i → q x = new.getD i 0
  above : ∀ x : Nat, p.getTupleOffset s + p.tupleLength s ≤ x → q x = p x
  header : ∀ x < 16, q x = p x

namespace Slid

variable {p q : TablePage} {s : Nat} {new : List UInt8}

theorem tupleLength (h : Slid p q s new) {j : Nat} (hj : j < p.getTupleCount) :
    q.tupleLength j = if j = s then new.length else p.tupleLength j := by
  simp only [TablePage.tupleLength, h.size j hj]
  split
  · exact Int.natAbs_natCast _
  · rfl

theorem occupied_iff (h : Slid p q s new) (hs : p.Occupied s) (j : Nat) :
    q.Occupied j ↔ if j = s then new ≠ [] else p.Occupied j := by
  rw [Occupied, h.count]
  split
  case isTrue hj =>
    subst hj
    have hpos : (new.length : Int) ≠ 0 ↔ new ≠ [] := by simp
    rw [h.size j hs.1, if_pos rfl, hpos]
    exact ⟨And.right, fun hne => ⟨hs.1, hne⟩⟩
  case isFalse hj =>
    refine and_congr_right fun hlt => ?_
    rw [h.size j hlt, if_neg hj]

/-- The room that is left was enough for the difference. -/
theorem layout (h : Slid p q s new) (hp : Layout p) (hs : p.Occupied s)
    (hroom : 24 + 8 * p.getTupleCount + new.length ≤ p.getFreeSpacePointer + p.tupleLength s) :
    Layout q := by
  obtain ⟨hins, hend⟩ := hp.inside s hs
  have hfree := h.free
  constructor
  case count =>
    rw [h.count]
    exact hp.count
  case directory =>
    rw [h.count]
    omega
  case free => omega
  case inside =>
    intro i hi
    have hlen := h.tupleLength (h.count ▸ hi.1)
    rw [h.occupied_iff hs] at hi
    by_cases his : i = s
    · subst his
      rw [if_pos rfl] at hi hlen
      have hoff := h.offset_self hi
      omega
    · rw [if_neg his] at hi hlen
      have hoff := h.offset i hi his
      have hapart := hp.apart i s hi hs his
      have hini := hp.inside i hi
      have hpos : 0 < p.tupleLength i := Int.natAbs_pos.mpr hi.2
      split at hoff <;> omega
  case apart =>
    intro i j hi hj hij
    have hleni := h.tupleLength (h.count ▸ hi.1)
    have hlenj := h.tupleLength (h.count ▸ hj.1)
    rw [h.occupied_iff hs] at hi hj
    by_cases his : i = s
    · subst his
      rw [if_pos rfl] at hi hleni
      rw [if_neg hij.symm] at hj hlenj
      have hoffi := h.offset_self hi
      have hoffj := h.offset j hj hij.symm
      have hapart := hp.apart i j hs hj hij
      have hpos : 0 < p.tupleLength j := Int.natAbs_pos.mpr hj.2
      split at hoffj <;> omega
    · rw [if_neg his] at hi hleni
      have hoffi := h.offset i hi his
      have hposi : 0 < p.tupleLength i := Int.natAbs_pos.mpr hi.2
      by_cases hjs : j = s
      · subst hjs
        rw [if_pos rfl] at hj hlenj
        have hoffj := h.offset_self hj
        have hapart := hp.apart i j hi hs hij
        split at hoffi <;> omega
      · rw [if_neg hjs] at hj hlenj
        have hoffj := h.offset j hj hjs
        have hposj : 0 < p.tupleLength j := Int.natAbs_pos.mpr hj.2
        have hapart := hp.apart i j hi hj hij
        have hapartis := hp.apart i s hi hs his
        have hapartjs := hp.apart j s hj hs hjs
        split at hoffi <;> split at hoffj <;> omega

/-- The other slots hold what they held, slot `s` holds `new`. -/
theorem slotAt (h : Slid p q s new) (hp : Layout p) (hs : p.Occupied s)
    (hroom : 24 + 8 * p.getTupleCount + new.length ≤ p.getFreeSpacePointer + p.tupleLength s)
    (j : Nat) :
    q.slotAt j = if j = s then (if new = [] then none else some ⟨false, new⟩)
      else p.slotAt j := by
  have hocc := h.occupied_iff hs j
  obtain ⟨hins, hend⟩ := hp.inside s hs
  have hcount := hp.count
  have hdir := hp.directory
  by_cases hj : j = s
  · subst hj
    have hlen := h.tupleLength hs.1
    rw [if_pos rfl] at hocc hlen ⊢
    by_cases hnew : new = []
    · rw [if_pos hnew, TablePage.slotAt, if_neg]
      rw [hocc]
      exact fun hne => hne hnew
    · rw [if_neg hnew, TablePage.slotAt, if_pos (hocc.mpr hnew)]
      have hsize : q.getTupleSize j = new.length := (h.size j hs.1).trans (if_pos rfl)
      have hoff := h.offset_self hnew
      congr 2
      · rw [hsize]
        simp
      · rw [hlen]
        apply List.ext_getElem (by simp)
        intro i hi hi'
        simp only [Memory.read, List.getElem_map, List.getElem_range]
        rw [h.new i hi' _ (by omega), List.getD_eq_getElem _ _ hi']
  · rw [if_neg hj] at hocc ⊢
    rw [TablePage.slotAt, TablePage.slotAt]
    by_cases hocc' : p.Occupied j
    · have hlen := h.tupleLength hocc'.1
      have hsize := h.size j hocc'.1
      rw [if_neg hj] at hlen hsize
      rw [if_pos (hocc.mpr hocc'), if_pos hocc', hsize, hlen]
      congr 2
      have hoff := h.offset j hocc' hj
      have hfree := h.free
      have hapart := hp.apart j s hocc' hs hj
      obtain ⟨hinj, hendj⟩ := hp.inside j hocc'
      have hpos : 0 < p.tupleLength j := Int.natAbs_pos.mpr hocc'.2
      apply Memory.read_congr
      intro i hi
      by_cases hbelow : p.getTupleOffset j < p.getTupleOffset s
      · rw [if_pos hbelow] at hoff
        exact h.below _ _ (by omega) (by omega) (by omega)
      · rw [if_neg hbelow] at hoff
        rw [hoff]
        exact h.above _ (by omega)
    · rw [if_neg (mt hocc.mp hocc'), if_neg hocc']

end Slid

/-- The moving and copying of `UpdateTuple`, and of `ApplyDelete` with no
new tuple: the block of tuples below the one at `offset` slides by the
difference of the sizes, and `new` is put behind it. -/
def slide (p : TablePage) (offset size : Int) (new : List UInt8) : TablePage :=
  let free := p.getFreeSpacePointer
  let q : TablePage := p.memmove (free + size - new.length).toNat free.toNat (offset - free).toNat
  let q := q.setFreeSpacePointer (free + size - new.length)
  Memory.memcpy q (offset + size - new.length).toNat new

section Slide

variable {p : TablePage} {s : Nat} {new : List UInt8} {offset size : Int}

/-- A field of the header or the directory is not in the bytes that are
moved. -/
theorem getInt32_slide (hin : p.getFreeSpacePointer ≤ offset)
    (hroom : 24 + 8 * p.getTupleCount + new.length ≤ p.getFreeSpacePointer + size)
    {a : Nat} (ha : a + 4 ≤ 16 ∨ 20 ≤ a) (hdir : a + 4 ≤ 24 + 8 * p.getTupleCount) :
    Memory.getInt32 (p.slide offset size new) a = p.getInt32 a := by
  rw [slide, Memory.getInt32_memcpy_of_disjoint (by omega)]
  refine (Memory.getInt32_setInt32_of_disjoint (by omega)).trans ?_
  exact Memory.getInt32_memmove_of_disjoint (by omega)

theorem getFreeSpacePointer_slide (hin : p.getFreeSpacePointer ≤ offset)
    (hroom : 24 + 8 * p.getTupleCount + new.length ≤ p.getFreeSpacePointer + size)
    (hcount : 0 ≤ p.getTupleCount) (hend : p.getFreeSpacePointer + size ≤ 512) :
    (p.slide offset size new).getFreeSpacePointer =
      p.getFreeSpacePointer + size - new.length := by
  refine (Memory.getInt32_memcpy_of_disjoint (by omega)).trans ?_
  exact getFreeSpacePointer_setFreeSpacePointer _ (by omega) (by omega)

theorem updateTuple_eq (hs : (s : Int) < p.getTupleCount) (hlive : 0 < p.getTupleSize s)
    (hroom : ¬p.getFreeSpaceSize < new.length - p.getTupleSize s)
    (hin : p.getFreeSpacePointer ≤ p.getTupleOffset s) :
    p.updateTuple new s =
      .ok (some (p.read (p.getTupleOffset s).toNat (p.getTupleSize s).toNat),
        ((p.slide (p.getTupleOffset s) (p.tupleLength s) new).setTupleSize
          s new.length).shiftOffsets
          (fun sizeI offsetI => sizeI > 0 ∧ offsetI < p.getTupleOffset s + p.tupleLength s)
          (p.tupleLength s - new.length)) := by
  have hlen : p.getTupleSize s = p.tupleLength s := by
    rw [TablePage.tupleLength]
    omega
  simp only [updateTuple, Int.not_le.mpr hs, if_false, Int.not_le.mpr hlive,
    hroom, ge_iff_le, hin, not_true_eq_false]
  rw [slide, ← hlen]

theorem applyDelete_eq (hs : (s : Int) < p.getTupleCount)
    (hin : p.getFreeSpacePointer ≤ p.getTupleOffset s) :
    p.applyDelete s = .ok
      ((((p.slide (p.getTupleOffset s) (p.tupleLength s) []).setTupleSize s 0).setTupleOffset s
        0).shiftOffsets (fun sizeI offsetI => sizeI ≠ 0 ∧ offsetI < p.getTupleOffset s)
          (p.tupleLength s)) := by
  have hlen : (if p.getTupleSize s < 0 then -p.getTupleSize s else p.getTupleSize s) =
      p.tupleLength s := by
    rw [TablePage.tupleLength]
    omega
  have hcopy (m : Memory) (n : Nat) : m.memcpy n [] = m := by
    funext x
    exact Memory.memcpy_of_not_mem (by simp; omega)
  have hnil : ((([] : List UInt8).length : Nat) : Int) = 0 := rfl
  simp only [applyDelete, hs, not_true_eq_false, if_false, ge_iff_le, hin, hlen, slide, hcopy,
    hnil, Int.sub_zero]

variable (hp : Layout p) (hs : p.Occupied s)
  (hroom : 24 + 8 * p.getTupleCount + new.length ≤ p.getFreeSpacePointer + p.tupleLength s)
include hp hs hroom

/-- The directory of a page with the slid bytes, in which slot `s` has its
new size, is corrected by a loop that chooses the slots of the tuples that
have been moved. -/
theorem slid_of_shift {q : TablePage} {moved : Int → Int → Bool}
    (hcount : q.getTupleCount = p.getTupleCount)
    (hfree : q.getFreeSpacePointer = p.getFreeSpacePointer + p.tupleLength s - new.length)
    (hsize : ∀ j : Nat, j < p.getTupleCount →
      q.getTupleSize j = if j = s then (new.length : Int) else p.getTupleSize j)
    (hoffset : ∀ j : Nat, j < p.getTupleCount → j ≠ s → q.getTupleOffset j = p.getTupleOffset j)
    (hself : moved new.length (q.getTupleOffset s) = true ↔ new ≠ [])
    (hself' : new ≠ [] → q.getTupleOffset s = p.getTupleOffset s)
    (hfreed : ∀ j : Nat, moved 0 (p.getTupleOffset j) = false)
    (hmoved : ∀ j, p.Occupied j → j ≠ s →
      moved (p.getTupleSize j) (p.getTupleOffset j) =
        decide (p.getTupleOffset j < p.getTupleOffset s) ∨ (new.length : Int) = p.tupleLength s)
    (hbytes : ∀ x : Nat, x < 24 ∨ 24 + 8 * p.getTupleCount ≤ x →
      q x = p.slide (p.getTupleOffset s) (p.tupleLength s) new x) :
    Slid p (q.shiftOffsets moved (p.tupleLength s - new.length)) s new := by
  obtain ⟨hins, hend⟩ := hp.inside s hs
  have hdir := hp.directory
  have hnonneg := hp.count
  have hfreePage := hp.free
  obtain ⟨hsize', hoffset', hbytes'⟩ := shiftOffsets_spec q moved (p.tupleLength s - new.length)
    fun i hi hi' => by
      rw [hcount] at hi
      rw [hsize i hi] at hi'
      by_cases his : i = s
      · subst his
        rw [if_pos rfl] at hi'
        rw [hself' (hself.mp hi')]
        omega
      · rw [if_neg his, hoffset i hi his] at hi'
        rw [hoffset i hi his]
        have hocc : p.Occupied i := by
          refine ⟨hi, fun hzero => ?_⟩
          rw [hzero, hfreed] at hi'
          cases hi'
        have hini := hp.inside i hocc
        omega
  rw [hcount] at hbytes'
  -- from here on `q'` is the page after the loop
  generalize q.shiftOffsets moved _ = q' at hsize' hoffset' hbytes' ⊢
  have hq' (x : Nat) (hx : x < 24 ∨ 24 + 8 * p.getTupleCount ≤ x) :
      q' x = p.slide (p.getTupleOffset s) (p.tupleLength s) new x :=
    (hbytes' x hx).trans (hbytes x hx)
  have hfree' : q'.getFreeSpacePointer =
      p.getFreeSpacePointer + p.tupleLength s - new.length := by
    rw [← hfree]
    exact getInt32_eq_of_header (fun x hx => hbytes' x (Or.inl hx)) (by omega)
  constructor
  case count =>
    rw [← hcount]
    exact getInt32_eq_of_header (fun x hx => hbytes' x (Or.inl hx)) (by omega)
  case free => exact hfree'
  case size =>
    intro j hj
    rw [hsize', hsize j hj]
  case offset =>
    intro j hj hjs
    rw [hoffset', hcount, hsize j hj.1, hoffset j hj.1 hjs, if_neg hjs]
    rcases hmoved j hj hjs with hdec | hsame
    · rw [hdec]
      by_cases hbelow : p.getTupleOffset j < p.getTupleOffset s
      · rw [if_pos hbelow, if_pos ⟨hj.1, decide_eq_true hbelow⟩]
        omega
      · rw [if_neg hbelow, if_neg fun hc => hbelow (of_decide_eq_true hc.2)]
    · split <;> split <;> omega
  case offset_self =>
    intro hnew
    rw [hoffset', hcount, hsize s hs.1, if_pos rfl, if_pos ⟨hs.1, hself.mpr hnew⟩, hself' hnew]
    omega
  case below =>
    intro x y hlo hhi hxy
    rw [hq' x (by omega), slide, Memory.memcpy_of_not_mem (by omega)]
    refine (Memory.setInt32_of_not_mem (by omega)).trans ?_
    rw [Memory.memmove_of_mem (by omega) (by omega)]
    congr 1
    omega
  case new =>
    intro i hi x hx
    rw [hq' x (by omega), slide, Memory.memcpy_of_mem (by omega) (by omega)]
    congr 1
    omega
  case above =>
    intro x hx
    rw [hq' x (by omega), slide, Memory.memcpy_of_not_mem (by omega)]
    refine (Memory.setInt32_of_not_mem (by omega)).trans ?_
    exact Memory.memmove_of_not_mem (by omega)
  case header =>
    intro x hx
    rw [hq' x (by omega), slide, Memory.memcpy_of_not_mem (by omega)]
    refine (Memory.setInt32_of_not_mem (by omega)).trans ?_
    exact Memory.memmove_of_not_mem (by omega)

end Slide

section Operations

variable {p : TablePage} {s : Nat} {new : List UInt8}

/-- An update that is made slides the tuples below the updated one, when
none of them is marked as deleted or the size stays the same. -/
theorem updateTuple_slid (hp : Layout p) (hs : p.Occupied s) (hlive : 0 < p.getTupleSize s)
    (hroom : ¬p.getFreeSpaceSize < new.length - p.getTupleSize s)
    (hmarked : ∀ t, p.Occupied t → p.getTupleSize t < 0 →
      p.getTupleOffset t < p.getTupleOffset s → (new.length : Int) = p.getTupleSize s) :
    ∃ q, p.updateTuple new s =
        .ok (some (p.read (p.getTupleOffset s).toNat (p.getTupleSize s).toNat), q) ∧
      Slid p q s new := by
  obtain ⟨hins, hend⟩ := hp.inside s hs
  have hdir := hp.directory
  have hnonneg := hp.count
  have hlen : p.getTupleSize s = p.tupleLength s := by
    rw [TablePage.tupleLength]
    omega
  have hroom' : 24 + 8 * p.getTupleCount + new.length ≤
      p.getFreeSpacePointer + p.tupleLength s := by
    rw [getFreeSpaceSize] at hroom
    omega
  have hfield {a : Nat} := getInt32_slide hins hroom' (a := a)
  refine ⟨_, updateTuple_eq hs.1 hlive hroom hins,
    slid_of_shift hp hs hroom' ?_ ?_ ?_ ?_ ?_ ?_ ?_ ?_ ?_⟩
  · rw [getTupleCount_setTupleSize]
    exact hfield (by omega) (by omega)
  · rw [getFreeSpacePointer_setTupleSize]
    exact getFreeSpacePointer_slide hins hroom' hnonneg (by have := hp.free; omega)
  · intro j hj
    rw [getTupleSize_setTupleSize _ _ _ (by omega) (by omega)]
    split
    · rfl
    · exact hfield (by omega) (by omega)
  · intro j hj _
    rw [getTupleOffset_setTupleSize]
    exact hfield (by omega) (by omega)
  · rw [getTupleOffset_setTupleSize]
    have hoff : getTupleOffset (p.slide (p.getTupleOffset s) (p.tupleLength s) new) s =
        p.getTupleOffset s := hfield (by omega) (by have := hs.1; omega)
    rw [hoff, decide_eq_true_iff, ← List.length_pos_iff]
    omega
  · intro _
    rw [getTupleOffset_setTupleSize]
    exact hfield (by omega) (by have := hs.1; omega)
  · intro j
    exact decide_eq_false fun hc => Int.lt_irrefl _ hc.1
  · intro j hj hjs
    have hapart := hp.apart j s hj hs hjs
    have hpos : 0 < p.tupleLength j := Int.natAbs_pos.mpr hj.2
    by_cases hj0 : 0 < p.getTupleSize j
    · left
      rw [decide_eq_decide]
      omega
    · -- a tuple that is marked as deleted is not moved
      by_cases hbelow : p.getTupleOffset j < p.getTupleOffset s
      · right
        rw [← hlen]
        have hne := hj.2
        exact hmarked j hj (by omega) hbelow
      · left
        rw [decide_eq_decide]
        omega
  · intro x hx
    have hslot := hs.1
    exact Memory.setInt32_of_not_mem (by omega)

/-- Applying a delete slides the tuples below the deleted one. -/
theorem applyDelete_slid (hp : Layout p) (hs : p.Occupied s) :
    ∃ q, p.applyDelete s = .ok q ∧ Slid p q s [] := by
  obtain ⟨hins, hend⟩ := hp.inside s hs
  have hdir := hp.directory
  have hnonneg := hp.count
  have hroom : 24 + 8 * p.getTupleCount + ([] : List UInt8).length ≤
      p.getFreeSpacePointer + p.tupleLength s := by
    rw [List.length_nil]
    omega
  have hfield {a : Nat} := getInt32_slide hins hroom (a := a)
  have hnil : ((([] : List UInt8).length : Nat) : Int) = 0 := rfl
  have hrun := applyDelete_eq hs.1 hins
  rw [← Int.sub_zero (p.tupleLength s : Int), ← hnil] at hrun
  refine ⟨_, hrun, slid_of_shift hp hs hroom ?_ ?_ ?_ ?_ ?_ ?_ ?_ ?_ ?_⟩
  · rw [getTupleCount_setTupleOffset, getTupleCount_setTupleSize]
    exact hfield (by omega) (by omega)
  · rw [getFreeSpacePointer_setTupleOffset, getFreeSpacePointer_setTupleSize]
    exact getFreeSpacePointer_slide hins hroom hnonneg (by have := hp.free; omega)
  · intro j hj
    rw [getTupleSize_setTupleOffset, getTupleSize_setTupleSize _ _ _ (by omega) (by omega)]
    split
    · rfl
    · exact hfield (by omega) (by omega)
  · intro j hj hjs
    rw [getTupleOffset_setTupleOffset _ _ _ (by omega) (by omega), if_neg hjs,
      getTupleOffset_setTupleSize]
    exact hfield (by omega) (by omega)
  · rw [hnil]
    simp
  · exact fun hne => absurd rfl hne
  · intro j
    simp
  · intro j hj hjs
    left
    have hne := hj.2
    simp [hne]
  · intro x hx
    have hslot := hs.1
    refine (Memory.setInt32_of_not_mem (by omega)).trans ?_
    exact Memory.setInt32_of_not_mem (by omega)

/-- A slot that is marked or unmarked keeps its tuple. -/
theorem setTupleSize_neg (hp : Layout p) (hs : p.Occupied s) :
    Layout (p.setTupleSize s (-p.getTupleSize s)) ∧
      (p.setTupleSize s (-p.getTupleSize s)).getFreeSpaceSize = p.getFreeSpaceSize ∧
      ∀ j, (p.setTupleSize s (-p.getTupleSize s)).slotAt j =
        if j = s then (p.slotAt s).map fun t => { t with deleted := !t.deleted }
        else p.slotAt j := by
  obtain ⟨hins, hend⟩ := hp.inside s hs
  have hnonneg := hp.count
  have hdir := hp.directory
  have hlt := hs.1
  have hne := hs.2
  have hbound : p.getTupleSize s = p.tupleLength s ∨ p.getTupleSize s = -p.tupleLength s := by
    rw [tupleLength]
    omega
  generalize hq : p.setTupleSize s (-p.getTupleSize s) = q
  have hcount : q.getTupleCount = p.getTupleCount := by rw [← hq, getTupleCount_setTupleSize]
  have hfree : q.getFreeSpacePointer = p.getFreeSpacePointer := by
    rw [← hq, getFreeSpacePointer_setTupleSize]
  have hoffset (j : Nat) : q.getTupleOffset j = p.getTupleOffset j := by
    rw [← hq, getTupleOffset_setTupleSize]
  have hsize (j : Nat) : q.getTupleSize j =
      if j = s then -p.getTupleSize s else p.getTupleSize j := by
    rw [← hq, getTupleSize_setTupleSize _ _ _ (by omega) (by omega)]
  have hlen (j : Nat) : q.tupleLength j = p.tupleLength j := by
    rw [tupleLength, tupleLength, hsize]
    split
    case isTrue hj => rw [hj, Int.natAbs_neg]
    case isFalse => rfl
  have hocc (j : Nat) : q.Occupied j ↔ p.Occupied j := by
    rw [Occupied, Occupied, hcount, hsize]
    split
    case isTrue hj => rw [hj, Int.neg_ne_zero]
    case isFalse => rfl
  refine ⟨?_, ?_, fun j => ?_⟩
  · constructor
    case count => rw [hcount]; exact hp.count
    case directory => rw [hcount, hfree]; exact hp.directory
    case free => rw [hfree]; exact hp.free
    case inside =>
      intro i hi
      rw [hfree, hoffset, hlen]
      exact hp.inside i ((hocc i).mp hi)
    case apart =>
      intro i j hi hj hij
      rw [hoffset, hoffset, hlen, hlen]
      exact hp.apart i j ((hocc i).mp hi) ((hocc j).mp hj) hij
  · rw [getFreeSpaceSize, getFreeSpaceSize, hcount, hfree]
  · have hread (h : p.Occupied j) :
        q.read (q.getTupleOffset j).toNat (q.tupleLength j) =
          p.read (p.getTupleOffset j).toNat (p.tupleLength j) := by
      rw [hoffset, hlen]
      obtain ⟨hinj, hendj⟩ := hp.inside j h
      apply Memory.read_congr
      intro i hi
      rw [← hq]
      exact Memory.setInt32_of_not_mem (by omega)
    by_cases hj : p.Occupied j
    · rw [slotAt, if_pos ((hocc j).mpr hj), hread hj, hsize]
      by_cases hjs : j = s
      · subst hjs
        rw [if_pos rfl, if_pos rfl, slotAt, if_pos hj, Option.map_some]
        congr 2
        rw [← decide_not, decide_eq_decide]
        omega
      · rw [if_neg hjs, if_neg hjs, slotAt, if_pos hj]
    · have hjs : j ≠ s := fun heq => hj (heq ▸ hs)
      rw [slotAt, if_neg (mt (hocc j).mp hj), if_neg hjs, slotAt, if_neg hj]

theorem findFreeSlot_spec (p : TablePage) (hcount : 0 ≤ p.getTupleCount) :
    p.findFreeSlot ≤ p.getTupleCount ∧
      (p.findFreeSlot < p.getTupleCount → p.getTupleSize p.findFreeSlot = 0) := by
  rw [findFreeSlot]
  cases hfind : p.slots.find? fun i => p.getTupleSize i = 0 with
  | none =>
      rw [Option.getD_none]
      omega
  | some i =>
      have hmem := List.mem_of_find?_eq_some hfind
      have hsize := List.find?_some hfind
      rw [slots, List.mem_range] at hmem
      rw [Option.getD_some]
      exact ⟨by omega, fun _ => of_decide_eq_true hsize⟩

/-- Slot `i`, free or new, has been given a tuple at the new free space
pointer. -/
structure Stored (p q : TablePage) (i : Nat) (tuple : List UInt8) : Prop where
  free_slot : ¬p.Occupied i
  count : q.getTupleCount = if (i : Int) = p.getTupleCount then p.getTupleCount + 1
    else p.getTupleCount
  bound : i ≤ p.getTupleCount
  free : q.getFreeSpacePointer = p.getFreeSpacePointer - tuple.length
  room : 24 + 8 * q.getTupleCount ≤ q.getFreeSpacePointer
  size : ∀ j : Nat, j < q.getTupleCount →
    q.getTupleSize j = if j = i then (tuple.length : Int) else p.getTupleSize j
  offset : ∀ j : Nat, j < q.getTupleCount →
    q.getTupleOffset j = if j = i then q.getFreeSpacePointer else p.getTupleOffset j
  stored : q.read q.getFreeSpacePointer.toNat tuple.length = tuple
  above : ∀ x : Nat, p.getFreeSpacePointer ≤ x → q x = p x
  header : ∀ x < 16, q x = p x

namespace Stored

variable {q : TablePage} {i : Nat} {tuple : List UInt8}

theorem occupied_iff (h : Stored p q i tuple) (hnew : tuple ≠ []) (j : Nat) :
    q.Occupied j ↔ j = i ∨ p.Occupied j := by
  have hcount := h.count
  have hbound := h.bound
  have hpos : 0 < tuple.length := List.length_pos_of_ne_nil hnew
  constructor
  · rintro ⟨hlt, hne⟩
    rw [h.size j hlt] at hne
    by_cases hj : j = i
    · exact Or.inl hj
    · rw [if_neg hj] at hne
      refine Or.inr ⟨?_, hne⟩
      split at hcount <;> omega
  · rintro (rfl | ⟨hlt, hne⟩)
    · have hin : (j : Int) < q.getTupleCount := by split at hcount <;> omega
      refine ⟨hin, ?_⟩
      rw [h.size j hin, if_pos rfl]
      omega
    · have hj : j ≠ i := by
        rintro rfl
        exact h.free_slot ⟨hlt, hne⟩
      have hin : (j : Int) < q.getTupleCount := by split at hcount <;> omega
      refine ⟨hin, ?_⟩
      rw [h.size j hin, if_neg hj]
      exact hne

theorem tupleLength (h : Stored p q i tuple) {j : Nat} (hj : j < q.getTupleCount) :
    q.tupleLength j = if j = i then tuple.length else p.tupleLength j := by
  simp only [TablePage.tupleLength, h.size j hj]
  split
  · exact Int.natAbs_natCast _
  · rfl

theorem layout (h : Stored p q i tuple) (hp : Layout p) (hnew : tuple ≠ []) : Layout q := by
  have hfree := h.free
  have hend := hp.free
  have hnonneg := hp.count
  have hcount := h.count
  constructor
  case count => split at hcount <;> omega
  case directory => exact h.room
  case free => omega
  case inside =>
    intro j hj
    have hlen := h.tupleLength hj.1
    rw [h.offset j hj.1, hlen]
    rw [h.occupied_iff hnew] at hj
    by_cases hji : j = i
    · rw [if_pos hji, if_pos hji]
      omega
    · rw [if_neg hji, if_neg hji]
      have hin := hp.inside j (hj.resolve_left hji)
      omega
  case apart =>
    intro j k hj hk hjk
    have hlenj := h.tupleLength hj.1
    have hlenk := h.tupleLength hk.1
    rw [h.offset j hj.1, h.offset k hk.1, hlenj, hlenk]
    rw [h.occupied_iff hnew] at hj hk
    by_cases hji : j = i
    · subst hji
      have hin := hp.inside k (hk.resolve_left hjk.symm)
      rw [if_pos rfl, if_pos rfl, if_neg hjk.symm, if_neg hjk.symm]
      omega
    · have hj' := hj.resolve_left hji
      have hin := hp.inside j hj'
      rw [if_neg hji, if_neg hji]
      by_cases hki : k = i
      · rw [if_pos hki, if_pos hki]
        omega
      · rw [if_neg hki, if_neg hki]
        exact hp.apart j k hj' (hk.resolve_left hki) hjk

theorem slotAt (h : Stored p q i tuple) (hp : Layout p) (hnew : tuple ≠ []) (j : Nat) :
    q.slotAt j = if j = i then some ⟨false, tuple⟩ else p.slotAt j := by
  have hocc := h.occupied_iff hnew j
  by_cases hj : j = i
  · subst hj
    have hin := (hocc.mpr (Or.inl rfl)).1
    rw [if_pos rfl, TablePage.slotAt, if_pos (hocc.mpr (Or.inl rfl)), h.offset j hin,
      h.size j hin, h.tupleLength hin, if_pos rfl, if_pos rfl, if_pos rfl, h.stored]
    simp
  · rw [if_neg hj, TablePage.slotAt, TablePage.slotAt]
    by_cases hp' : p.Occupied j
    · have hin := (hocc.mpr (Or.inr hp')).1
      have hlow := (hp.inside j hp').1
      rw [if_pos (hocc.mpr (Or.inr hp')), if_pos hp', h.offset j hin, h.size j hin,
        h.tupleLength hin, if_neg hj, if_neg hj, if_neg hj]
      congr 2
      exact Memory.read_congr fun k _ => h.above _ (by omega)
    · rw [if_neg fun hc => hp' ((hocc.mp hc).resolve_left hj), if_neg hp']

end Stored

/-- The tuple is in the memory of the page `q` and slot `i` points to it,
whether or not the slot is counted yet. -/
structure Written (p q : TablePage) (i : Nat) (tuple : List UInt8) : Prop where
  count : q.getTupleCount = p.getTupleCount
  free : q.getFreeSpacePointer = p.getFreeSpacePointer - tuple.length
  size : ∀ j : Nat, (j ≠ i → j < p.getTupleCount) →
    q.getTupleSize j = if j = i then (tuple.length : Int) else p.getTupleSize j
  offset : ∀ j : Nat, (j ≠ i → j < p.getTupleCount) → q.getTupleOffset j =
    if j = i then p.getFreeSpacePointer - tuple.length else p.getTupleOffset j
  stored : q.read (p.getFreeSpacePointer - tuple.length).toNat tuple.length = tuple
  above : ∀ x : Nat, p.getFreeSpacePointer ≤ x → q x = p x
  header : ∀ x < 16, q x = p x

/-- The tuple is copied in front of the others, and then the slot written. -/
theorem written_slot (hnonneg : 0 ≤ p.getTupleCount) (hfree : p.getFreeSpacePointer ≤ 512)
    {i : Nat} {tuple : List UInt8}
    (hslot : 24 + 8 * (i : Int) + 8 ≤ p.getFreeSpacePointer - tuple.length)
    (hdir : 24 + 8 * p.getTupleCount ≤ p.getFreeSpacePointer - tuple.length) :
    Written p (setTupleSize (setTupleOffset
      (Memory.memcpy (p.setFreeSpacePointer (p.getFreeSpacePointer - tuple.length))
        (p.getFreeSpacePointer - tuple.length).toNat tuple : TablePage) i
        (p.getFreeSpacePointer - tuple.length)) i tuple.length) i tuple := by
  -- the page after the tuple has been copied
  generalize hp₂ : (Memory.memcpy (p.setFreeSpacePointer (p.getFreeSpacePointer - tuple.length))
    (p.getFreeSpacePointer - tuple.length).toNat tuple : TablePage) = p₂
  have hfree₂ : getFreeSpacePointer p₂ = p.getFreeSpacePointer - tuple.length := by
    rw [← hp₂]
    refine (Memory.getInt32_memcpy_of_disjoint (by omega)).trans ?_
    exact getFreeSpacePointer_setFreeSpacePointer _ (by omega) (by omega)
  have hfield {a : Nat} (ha : 20 ≤ a)
      (hlow : (a : Int) + 4 ≤ p.getFreeSpacePointer - tuple.length) :
      Memory.getInt32 p₂ a = p.getInt32 a := by
    rw [← hp₂, Memory.getInt32_memcpy_of_disjoint (by omega)]
    exact Memory.getInt32_setInt32_of_disjoint (by omega)
  have hbytes (x : Nat) (hx : x < 16 ∨ p.getFreeSpacePointer ≤ x) : p₂ x = p x := by
    rw [← hp₂, Memory.memcpy_of_not_mem (by omega)]
    exact Memory.setInt32_of_not_mem (by omega)
  have hread : Memory.read p₂ (p.getFreeSpacePointer - tuple.length).toNat tuple.length =
      tuple := by
    rw [← hp₂]
    exact Memory.read_memcpy _ _ _
  -- writing the slot changes nothing outside of it
  have hdirectory (x : Nat) (hx : x < 24 ∨ 24 + 8 * (i : Int) + 8 ≤ x) :
      setTupleSize (setTupleOffset p₂ i (p.getFreeSpacePointer - tuple.length)) i tuple.length x =
        p₂ x := by
    refine (Memory.setInt32_of_not_mem (by omega)).trans ?_
    exact Memory.setInt32_of_not_mem (by omega)
  constructor
  case count =>
    rw [getTupleCount_setTupleSize, getTupleCount_setTupleOffset]
    exact hfield (by omega) (by omega)
  case free => rw [getFreeSpacePointer_setTupleSize, getFreeSpacePointer_setTupleOffset, hfree₂]
  case size =>
    intro j hj
    rw [getTupleSize_setTupleSize _ _ _ (by omega) (by omega), getTupleSize_setTupleOffset]
    split
    case isTrue => rfl
    case isFalse hji =>
      have hlt := hj hji
      exact hfield (by omega) (by omega)
  case offset =>
    intro j hj
    rw [getTupleOffset_setTupleSize, getTupleOffset_setTupleOffset _ _ _ (by omega) (by omega)]
    split
    case isTrue => rfl
    case isFalse hji =>
      have hlt := hj hji
      exact hfield (by omega) (by omega)
  case stored =>
    refine Eq.trans (Memory.read_congr fun k _ => ?_) hread
    exact hdirectory _ (by omega)
  case above =>
    intro x hx
    rw [hdirectory x (by omega), hbytes x (Or.inr hx)]
  case header =>
    intro x hx
    rw [hdirectory x (by omega), hbytes x (Or.inl hx)]

section Written

variable {q : TablePage} {i : Nat} {tuple : List UInt8}

/-- A slot that was emptied before is counted already. -/
theorem Written.stored_reused (h : Written p q i tuple) (hslot : ¬p.Occupied i)
    (hlt : (i : Int) < p.getTupleCount)
    (hdir : 24 + 8 * p.getTupleCount ≤ p.getFreeSpacePointer - tuple.length) :
    Stored p q i tuple := by
  constructor
  case free_slot => exact hslot
  case count => rw [h.count, if_neg (Int.ne_of_lt hlt)]
  case bound => exact Int.le_of_lt hlt
  case free => exact h.free
  case room =>
    rw [h.free, h.count]
    exact hdir
  case size =>
    intro j hj
    rw [h.count] at hj
    exact h.size j fun _ => hj
  case offset =>
    intro j hj
    rw [h.count] at hj
    rw [h.free, h.offset j fun _ => hj]
  case stored =>
    rw [h.free]
    exact h.stored
  case above => exact h.above
  case header => exact h.header

theorem Written.stored_last (h : Written p q i tuple) (hslot : ¬p.Occupied i)
    (hlast : (i : Int) = p.getTupleCount) (hfree : p.getFreeSpacePointer ≤ 512)
    (hdir : 24 + 8 * (i : Int) + 8 ≤ p.getFreeSpacePointer - tuple.length) :
    Stored p (q.setTupleCount (p.getTupleCount + 1)) i tuple := by
  have hcount : (q.setTupleCount (p.getTupleCount + 1)).getTupleCount = p.getTupleCount + 1 :=
    getTupleCount_setTupleCount _ (by omega) (by omega)
  have hbytes (x : Nat) (hx : x < 16 ∨ p.getFreeSpacePointer - tuple.length ≤ x) :
      q.setTupleCount (p.getTupleCount + 1) x = q x := Memory.setInt32_of_not_mem (by omega)
  constructor
  case free_slot => exact hslot
  case count => rw [hcount, if_pos hlast]
  case bound => exact Int.le_of_eq hlast
  case free => rw [getFreeSpacePointer_setTupleCount, h.free]
  case room =>
    rw [getFreeSpacePointer_setTupleCount, h.free, hcount]
    omega
  case size =>
    intro j hj
    rw [hcount] at hj
    rw [getTupleSize_setTupleCount, h.size j (by omega)]
  case offset =>
    intro j hj
    rw [hcount] at hj
    rw [getTupleOffset_setTupleCount, getFreeSpacePointer_setTupleCount, h.free,
      h.offset j (by omega)]
  case stored =>
    rw [getFreeSpacePointer_setTupleCount, h.free]
    refine Eq.trans (Memory.read_congr fun k _ => ?_) h.stored
    exact hbytes _ (by omega)
  case above =>
    intro x hx
    rw [hbytes x (by omega), h.above x hx]
  case header =>
    intro x hx
    rw [hbytes x (Or.inl hx), h.header x hx]

end Written

/-- An insertion is refused for lack of space, or stores the tuple in a
slot that was free. -/
theorem insertTuple_cases (hnonneg : 0 ≤ p.getTupleCount) (hfree : p.getFreeSpacePointer ≤ 512)
    {tuple : List UInt8} (hnew : tuple ≠ []) :
    (p.insertTuple tuple = .ok (none, p) ∧ p.getFreeSpaceSize < tuple.length + 8) ∨
      ∃ i q, p.insertTuple tuple = .ok (some i, q) ∧ Stored p q i tuple := by
  have hpos : 0 < tuple.length := List.length_pos_of_ne_nil hnew
  obtain ⟨hbound, hzero⟩ := p.findFreeSlot_spec hnonneg
  have hsize : ¬¬(tuple.length : Int) > 0 := by omega
  by_cases hsmall : p.getFreeSpaceSize < tuple.length
  · left
    simp only [insertTuple, if_neg hsize, if_pos hsmall, true_and]
    omega
  by_cases hfull : (p.findFreeSlot : Int) = p.getTupleCount ∧ p.getFreeSpaceSize < tuple.length + 8
  · left
    simp only [insertTuple, if_neg hsize, if_neg hsmall, if_pos hfull, true_and]
    exact hfull.2
  right
  have hslot : 24 + 8 * (p.findFreeSlot : Int) + 8 ≤ p.getFreeSpacePointer - tuple.length := by
    rw [getFreeSpaceSize] at hsmall hfull
    omega
  have hdir : 24 + 8 * p.getTupleCount ≤ p.getFreeSpacePointer - tuple.length := by
    rw [getFreeSpaceSize] at hsmall
    omega
  have hfreeSlot : ¬p.Occupied p.findFreeSlot := fun hocc => hocc.2 (hzero hocc.1)
  have hpointer : getFreeSpacePointer (p.setFreeSpacePointer (p.getFreeSpacePointer -
      tuple.length)) = p.getFreeSpacePointer - tuple.length :=
    getFreeSpacePointer_setFreeSpacePointer _ (by omega) (by omega)
  have hwritten := written_slot hnonneg hfree hslot hdir
  have hcopied : getFreeSpacePointer (Memory.memcpy (p.setFreeSpacePointer
      (p.getFreeSpacePointer - tuple.length)) (p.getFreeSpacePointer - tuple.length).toNat tuple) =
      p.getFreeSpacePointer - tuple.length :=
    (Memory.getInt32_memcpy_of_disjoint (by omega)).trans hpointer
  simp only [insertTuple, if_neg hsize, if_neg hsmall, if_neg hfull]
  rw [hpointer, hcopied, hwritten.count]
  by_cases hlast : (p.findFreeSlot : Int) = p.getTupleCount
  · rw [if_pos hlast]
    exact ⟨_, _, rfl, hwritten.stored_last hfreeSlot hlast hfree hslot⟩
  · rw [if_neg hlast]
    have hlt := Int.lt_iff_le_and_ne.mpr ⟨hbound, hlast⟩
    exact ⟨_, _, rfl, hwritten.stored_reused hfreeSlot hlt hdir⟩

end Operations

/-! ### What the operations do to the slots -/

section Effects

variable {p : TablePage} {s : Nat}

theorem occupied_of_slotAt {t : StoredTuple} (h : p.slotAt s = some t) : p.Occupied s := by
  by_contra hocc
  rw [slotAt, if_neg hocc] at h
  cases h

theorem exists_slotAt (h : p.Occupied s) : ∃ t, p.slotAt s = some t := by
  rw [slotAt, if_pos h]
  exact ⟨_, rfl⟩

theorem slotAt_eq_none_iff : p.slotAt s = none ↔ ¬p.Occupied s := by
  rw [slotAt]
  split
  case isTrue h => simp [h]
  case isFalse h => simp [h]

theorem slotAt_deleted {t : StoredTuple} (h : p.slotAt s = some t) :
    t.deleted = true ↔ p.getTupleSize s < 0 := by
  rw [slotAt, if_pos (occupied_of_slotAt h)] at h
  cases h
  exact decide_eq_true_iff

theorem slotAt_length {t : StoredTuple} (h : p.slotAt s = some t) :
    t.bytes.length = p.tupleLength s := by
  rw [slotAt, if_pos (occupied_of_slotAt h)] at h
  cases h
  exact Memory.length_read _ _ _

/-- `GetTuple` gives the tuples that are not marked as deleted. -/
theorem getTuple_eq (p : TablePage) (s : Nat) :
    p.getTuple s = (p.slotAt s).bind fun t => if t.deleted then none else some t.bytes := by
  rw [getTuple]
  by_cases hlt : (s : Int) < p.getTupleCount
  · rw [if_neg (Int.not_le.mpr hlt)]
    by_cases hpos : 0 < p.getTupleSize s
    · have hlen : (p.getTupleSize s).toNat = p.tupleLength s := by
        rw [tupleLength]
        omega
      have hocc : p.Occupied s := ⟨hlt, by omega⟩
      have hsign : ¬p.getTupleSize s < 0 := by omega
      simp only [Int.not_le.mpr hpos, if_false, slotAt, if_pos hocc, Option.bind_some, hsign,
        decide_false, hlen, Bool.false_eq_true]
    · rw [if_pos (Int.not_lt.mp hpos), slotAt]
      split
      case isTrue hocc =>
        have hneg : p.getTupleSize s < 0 := by
          have := hocc.2
          omega
        simp [hneg]
      case isFalse => rfl
  · rw [if_pos (Int.not_lt.mp hlt), slotAt, if_neg fun hocc => hlt hocc.1]
    rfl

theorem header_setTupleSize (p : TablePage) (v : Int) : ∀ x < 16, p.setTupleSize s v x = p x :=
  fun _ _ => Memory.setInt32_of_not_mem (by omega)

/-- What `MarkDelete` does, also where it is refused. -/
theorem markDelete_spec (hp : Layout p) :
    let q := (p.markDelete s).2
    Layout q ∧ q.getFreeSpaceSize = p.getFreeSpaceSize ∧ (∀ x < 16, q x = p x) ∧
      q.slotAt = Function.update p.slotAt s
        ((p.slotAt s).map fun t => { t with deleted := true }) := by
  have hsame (h : (p.slotAt s).map (fun t => { t with deleted := true }) = p.slotAt s) :
      p.slotAt = Function.update p.slotAt s
        ((p.slotAt s).map fun t => { t with deleted := true }) := by
    rw [h, Function.update_eq_self]
  rw [markDelete]
  by_cases hlt : (s : Int) < p.getTupleCount
  · rw [if_neg (Int.not_le.mpr hlt)]
    by_cases hneg : p.getTupleSize s < 0
    · simp only [if_pos hneg]
      refine ⟨hp, trivial, fun _ _ => trivial, hsame ?_⟩
      cases ht : p.slotAt s with
      | none => rfl
      | some t =>
          have hdel := (slotAt_deleted ht).mpr hneg
          rw [Option.map_some, ← hdel]
    · by_cases hpos : p.getTupleSize s > 0
      · have hocc : p.Occupied s := ⟨hlt, by omega⟩
        simp only [if_neg hneg, if_pos hpos]
        obtain ⟨hq, hfree, hslot⟩ := setTupleSize_neg hp hocc
        refine ⟨hq, hfree, header_setTupleSize p _, ?_⟩
        funext j
        rw [hslot j, Function.update_apply]
        split
        case isTrue hj =>
          obtain ⟨t, ht⟩ := exists_slotAt hocc
          have hdel : t.deleted = false := by
            rw [← Bool.not_eq_true, slotAt_deleted ht]
            exact hneg
          rw [ht, Option.map_some, Option.map_some, hdel, Bool.not_false]
        case isFalse => rfl
      · simp only [if_neg hneg, if_neg hpos]
        refine ⟨hp, trivial, fun _ _ => trivial, hsame ?_⟩
        have hfree : p.slotAt s = none := by
          rw [slotAt_eq_none_iff]
          exact fun hocc => hocc.2 (by omega)
        rw [hfree, Option.map_none]
  · rw [if_pos (Int.not_lt.mp hlt)]
    refine ⟨hp, rfl, fun _ _ => rfl, hsame ?_⟩
    rw [slotAt_eq_none_iff.mpr fun hocc => hlt hocc.1, Option.map_none]

theorem rollbackDelete_spec (hp : Layout p) (hs : p.Occupied s) :
    ∃ q, p.rollbackDelete s = .ok q ∧ Layout q ∧ q.getFreeSpaceSize = p.getFreeSpaceSize ∧
      (∀ x < 16, q x = p x) ∧
      q.slotAt = Function.update p.slotAt s
        ((p.slotAt s).map fun t => { t with deleted := false }) := by
  have hlt : ¬¬(s : Int) < p.getTupleCount := not_not.mpr hs.1
  simp only [rollbackDelete, if_neg hlt]
  refine ⟨_, rfl, ?_⟩
  obtain ⟨t, ht⟩ := exists_slotAt hs
  by_cases hneg : p.getTupleSize s < 0
  · rw [if_pos hneg]
    obtain ⟨hq, hfree, hslot⟩ := setTupleSize_neg hp hs
    refine ⟨hq, hfree, header_setTupleSize p _, ?_⟩
    funext j
    rw [hslot j, Function.update_apply, ht, Option.map_some, Option.map_some,
      (slotAt_deleted ht).mpr hneg, Bool.not_true]
  · rw [if_neg hneg]
    refine ⟨hp, rfl, fun _ _ => rfl, ?_⟩
    have hdel : t.deleted = false := by
      rw [← Bool.not_eq_true, slotAt_deleted ht]
      exact hneg
    rw [ht, Option.map_some, ← hdel, ← ht, Function.update_eq_self]

theorem applyDelete_spec (hp : Layout p) {t : StoredTuple} (ht : p.slotAt s = some t) :
    ∃ q, p.applyDelete s = .ok q ∧ Layout q ∧
      q.getFreeSpaceSize = p.getFreeSpaceSize + t.bytes.length ∧ (∀ x < 16, q x = p x) ∧
      q.slotAt = Function.update p.slotAt s none := by
  have hs := occupied_of_slotAt ht
  obtain ⟨q, hrun, hslid⟩ := applyDelete_slid hp hs
  have hroom : 24 + 8 * p.getTupleCount + ([] : List UInt8).length ≤
      p.getFreeSpacePointer + p.tupleLength s := by
    have hdir := hp.directory
    rw [List.length_nil]
    omega
  refine ⟨q, hrun, hslid.layout hp hs hroom, ?_, hslid.header, ?_⟩
  · have hfree := hslid.free
    rw [List.length_nil] at hfree
    rw [getFreeSpaceSize, getFreeSpaceSize, hslid.count, slotAt_length ht]
    omega
  · funext j
    rw [hslid.slotAt hp hs hroom, Function.update_apply]
    rfl

/-- No tuple marked as deleted lies below the tuple of slot `s`, or the
new tuple has the size of the old one. -/
def NoMarkedBelow (p : TablePage) (new : List UInt8) (s : Nat) : Prop :=
  ∀ t, p.Occupied t → p.getTupleSize t < 0 → p.getTupleOffset t < p.getTupleOffset s →
    (new.length : Int) = p.getTupleSize s

instance (p : TablePage) (new : List UInt8) (s : Nat) : Decidable (p.NoMarkedBelow new s) :=
  decidable_of_iff (∀ t < p.getTupleCount.toNat, p.Occupied t → p.getTupleSize t < 0 →
      p.getTupleOffset t < p.getTupleOffset s → (new.length : Int) = p.getTupleSize s)
    ⟨fun h t ht => h t (by have := ht.1; omega) ht, fun h t _ => h t⟩

theorem updateTuple_spec (hp : Layout p) {old new : List UInt8}
    (ht : p.slotAt s = some ⟨false, old⟩)
    (hroom : (new.length : Int) ≤ p.getFreeSpaceSize + old.length)
    (hmarked : p.NoMarkedBelow new s) :
    ∃ q, p.updateTuple new s = .ok (some old, q) ∧ Layout q ∧
      q.getFreeSpaceSize = p.getFreeSpaceSize + old.length - new.length ∧ (∀ x < 16, q x = p x) ∧
      q.slotAt = Function.update p.slotAt s (if new = [] then none else some ⟨false, new⟩) := by
  have hs := occupied_of_slotAt ht
  have hlen := slotAt_length ht
  have hne := hs.2
  have hpos : 0 < p.getTupleSize s := by
    have hsign := (slotAt_deleted ht).not.mp Bool.false_ne_true
    omega
  have hsize : (p.getTupleSize s : Int) = old.length := by
    have hlen' : old.length = (p.getTupleSize s).natAbs := hlen
    omega
  obtain ⟨q, hrun, hslid⟩ := updateTuple_slid hp hs hpos (by omega) hmarked
  have hroom' : 24 + 8 * p.getTupleCount + new.length ≤
      p.getFreeSpacePointer + p.tupleLength s := by
    rw [getFreeSpaceSize] at hroom
    have hlen' : old.length = p.tupleLength s := hlen
    omega
  have hold : p.read (p.getTupleOffset s).toNat (p.getTupleSize s).toNat = old := by
    rw [slotAt, if_pos hs] at ht
    have hbytes := congrArg StoredTuple.bytes (Option.some.inj ht)
    have hnat : (p.getTupleSize s).toNat = p.tupleLength s := by
      rw [tupleLength]
      omega
    rw [hnat]
    exact hbytes
  rw [hold] at hrun
  refine ⟨q, hrun, hslid.layout hp hs hroom', ?_, hslid.header, ?_⟩
  · have hfree := hslid.free
    have hlen' : old.length = p.tupleLength s := hlen
    rw [getFreeSpaceSize, getFreeSpaceSize, hslid.count]
    omega
  · funext j
    rw [hslid.slotAt hp hs hroom', Function.update_apply]

theorem updateTuple_refused {new : List UInt8}
    (h : ∀ old, p.slotAt s = some ⟨false, old⟩ → p.getFreeSpaceSize + old.length < new.length) :
    p.updateTuple new s = .ok (none, p) := by
  simp only [updateTuple]
  split
  case isTrue => rfl
  case isFalse hlt =>
    split
    case isTrue => rfl
    case isFalse hpos =>
      have hocc : p.Occupied s := ⟨Int.not_le.mp hlt, by omega⟩
      have hneg : ¬p.getTupleSize s < 0 := by omega
      have hslot : p.slotAt s =
          some ⟨false, p.read (p.getTupleOffset s).toNat (p.tupleLength s)⟩ := by
        rw [slotAt, if_pos hocc, decide_eq_false hneg]
      have hsmall := h _ hslot
      rw [Memory.length_read, tupleLength] at hsmall
      rw [if_pos (by omega)]

theorem insertTuple_spec (hp : Layout p) {tuple : List UInt8} (hnew : tuple ≠ []) :
    (p.insertTuple tuple = .ok (none, p) ∧ p.getFreeSpaceSize < tuple.length + 8) ∨
      ∃ i q, p.insertTuple tuple = .ok (some i, q) ∧ Layout q ∧ p.slotAt i = none ∧
        p.getFreeSpaceSize - tuple.length - 8 ≤ q.getFreeSpaceSize ∧
        (i < p.getTupleCount → q.getFreeSpaceSize = p.getFreeSpaceSize - tuple.length) ∧
        (∀ x < 16, q x = p x) ∧
        q.slotAt = Function.update p.slotAt i (some ⟨false, tuple⟩) := by
  rcases insertTuple_cases hp.count hp.free hnew with hrefused | ⟨i, q, hrun, hstored⟩
  · exact Or.inl hrefused
  · right
    have hfree := hstored.free
    have hcount := hstored.count
    refine ⟨i, q, hrun, hstored.layout hp hnew, slotAt_eq_none_iff.mpr hstored.free_slot, ?_, ?_,
      hstored.header, ?_⟩
    · rw [getFreeSpaceSize, getFreeSpaceSize]
      split at hcount <;> omega
    · intro hlt
      rw [if_neg (by omega)] at hcount
      rw [getFreeSpaceSize, getFreeSpaceSize]
      omega
    · funext j
      rw [hstored.slotAt hp hnew, Function.update_apply]

end Effects

end TablePage

end ScuDb
