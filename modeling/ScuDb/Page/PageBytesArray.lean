import ScuDb.Page.PageBytes

/-!
What the loops over the array of a page do to its bytes.

Every loop moves a row of entries as one move of bytes would, and stays in
the page as long as the row does. `Lays` says that the bytes of a page hold
a header and a list of entries; what is behind the entries is not said.
-/

namespace ScuDb

open Foundations

variable {K V : Type} {f : EntryFormat K V} {p q recipient : PageBytes}

namespace PageBytes

theorem load_ok {address n : Nat} (h : address + n ≤ pageSize) :
    p.load address n = .ok (p.read address n) :=
  if_pos ⟨Int.natCast_nonneg _, by exact_mod_cast h⟩

theorem store_ok {address : Nat} {bytes : List UInt8} (h : address + bytes.length ≤ pageSize) :
    p.store address bytes = .ok (p.memcpy address bytes) :=
  if_pos ⟨Int.natCast_nonneg _, by exact_mod_cast h⟩

/-- The size is in front of the array. -/
theorem holds_setSize {off : Nat} {bytes : List UInt8} (h : p.Holds off bytes) (hoff : 12 ≤ off)
    (n : Int) : (p.setSize n).Holds off bytes :=
  h.memcpy_of_disjoint (.inr (by rw [Memory.length_int32Bytes]; omega))

end PageBytes

open PageBytes

namespace EntryFormat

/-- Where an entry starts. -/
def offset (f : EntryFormat K V) (i : Nat) : Nat := f.base + i * f.entry.width

@[simp] theorem address_natCast (f : EntryFormat K V) (i : Nat) : f.address i = f.offset i := by
  simp [address, offset]

theorem offset_add (f : EntryFormat K V) (i j : Nat) :
    f.offset (i + j) = f.offset i + j * f.entry.width := by
  rw [offset, offset, Nat.add_mul, Nat.add_assoc]

theorem offset_succ (f : EntryFormat K V) (i : Nat) :
    f.offset (i + 1) = f.offset i + f.entry.width := by
  rw [offset_add, Nat.one_mul]

theorem offset_zero (f : EntryFormat K V) : f.offset 0 = f.base := by
  rw [offset, Nat.zero_mul, Nat.add_zero]

theorem offset_le_offset (f : EntryFormat K V) {i j : Nat} (h : i ≤ j) :
    f.offset i ≤ f.offset j :=
  Nat.add_le_add_left (Nat.mul_le_mul_right _ h) _

theorem base_le_offset (f : EntryFormat K V) (i : Nat) : f.base ≤ f.offset i :=
  Nat.le_add_right _ _

theorem entry_width (f : EntryFormat K V) : f.entry.width = f.key.width + f.value.width := rfl

/-! ### One entry -/

/-- The entry behind which the page has still room is inside. -/
theorem inside {i : Nat} (h : f.offset (i + 1) ≤ pageSize) :
    f.offset i + f.key.width + f.value.width ≤ pageSize := by
  rw [offset_succ, entry_width] at h
  omega

theorem setEntry_ok {i : Nat} (h : f.offset (i + 1) ≤ pageSize) (key : K) (value : V) :
    f.setEntry p i key value = .ok (p.memcpy (f.offset i) (f.entry.encode (key, value))) := by
  have hin := inside h
  have hsecond : (f.offset i : Int) + f.key.width = (f.offset i + f.key.width : Nat) := rfl
  rw [setEntry, setFirst, address_natCast, store_ok (by rw [Codec.length_encode]; omega)]
  simp only [bind, Except.bind]
  rw [setSecond, address_natCast, hsecond, store_ok (by rw [Codec.length_encode]; omega)]
  have hlen := f.key.length_encode key
  rw [← hlen, Memory.memcpy_memcpy]
  rfl

theorem setSecond_ok {i : Nat} (h : f.offset (i + 1) ≤ pageSize) (value : V) :
    f.setSecond p i value =
      .ok (p.memcpy (f.offset i + f.key.width) (f.value.encode value)) := by
  have hin := inside h
  have hsecond : (f.offset i : Int) + f.key.width = (f.offset i + f.key.width : Nat) := rfl
  rw [setSecond, address_natCast, hsecond, store_ok (by rw [Codec.length_encode]; omega)]

theorem setFirst_ok {i : Nat} (h : f.offset (i + 1) ≤ pageSize) (key : K) :
    f.setFirst p i key = .ok (p.memcpy (f.offset i) (f.key.encode key)) := by
  have hin := inside h
  rw [setFirst, address_natCast, store_ok (by rw [Codec.length_encode]; omega)]

theorem copyTo_ok {i j : Nat} (hi : f.offset (i + 1) ≤ pageSize)
    (hj : f.offset (j + 1) ≤ pageSize) :
    f.copyTo p recipient i j =
      .ok (recipient.memcpy (f.offset i) (p.read (f.offset j) f.entry.width)) := by
  have hin := inside hi
  have hin' := inside hj
  have hsecond (k : Nat) : (f.offset k : Int) + f.key.width = (f.offset k + f.key.width : Nat) :=
    rfl
  rw [copyTo, address_natCast, address_natCast, load_ok (by omega)]
  simp only [bind, Except.bind]
  rw [store_ok (by rw [Memory.length_read]; omega), hsecond, hsecond, load_ok (by omega)]
  simp only
  rw [store_ok (by rw [Memory.length_read]; omega), entry_width, Memory.read_append,
    ← Memory.memcpy_memcpy, Memory.length_read]

theorem copyWithin_ok {i j : Nat} (hij : i ≠ j) (hi : f.offset (i + 1) ≤ pageSize)
    (hj : f.offset (j + 1) ≤ pageSize) :
    f.copyWithin p i j = .ok (p.memmove (f.offset i) (f.offset j) f.entry.width) := by
  have hin := inside hi
  have hin' := inside hj
  have hsecond (k : Nat) : (f.offset k : Int) + f.key.width = (f.offset k + f.key.width : Nat) :=
    rfl
  -- the value is read after the key has been written, which is in another entry
  have hapart : f.offset j + f.entry.width ≤ f.offset i ∨
      f.offset i + f.entry.width ≤ f.offset j := by
    rw [← offset_succ, ← offset_succ]
    rcases Nat.lt_or_gt_of_ne hij with h | h
    · exact .inr (f.offset_le_offset h)
    · exact .inl (f.offset_le_offset h)
  rw [entry_width] at hapart
  have hread : (p.memcpy (f.offset i) (p.read (f.offset j) f.key.width)).read
      (f.offset j + f.key.width) f.value.width = p.read (f.offset j + f.key.width) f.value.width :=
    Memory.read_congr fun k hk =>
      Memory.memcpy_of_not_mem (by rw [Memory.length_read]; omega)
  rw [copyWithin, address_natCast, address_natCast, load_ok (by omega)]
  simp only [bind, Except.bind]
  rw [store_ok (by rw [Memory.length_read]; omega), hsecond, hsecond]
  simp only
  rw [load_ok (by omega), hread]
  simp only
  rw [store_ok (by rw [Memory.length_read]; omega), Memory.memmove_eq_memcpy, entry_width,
    Memory.read_append, ← Memory.memcpy_memcpy, Memory.length_read]

/-! ### Rows of entries -/

theorem shiftUp_ok {index n : Nat} (h : f.offset (index + n + 1) ≤ pageSize) :
    f.shiftUp index (index + n : Nat) p =
      .ok (p.memmove (f.offset (index + 1)) (f.offset index) (n * f.entry.width)) := by
  induction n generalizing p with
  | zero =>
      rw [shiftUp, if_neg (by omega)]
      refine congrArg Except.ok ?_
      funext i
      rw [Memory.memmove_of_not_mem (by omega)]
  | succ n ih =>
      have hle := f.offset_le_offset (Nat.le_succ (index + n + 1))
      have hprev : ((index + (n + 1) : Nat) : Int) - 1 = (index + n : Nat) := by omega
      rw [shiftUp, if_pos (by omega), hprev, copyWithin_ok (by omega) h (hle.trans h)]
      simp only [bind, Except.bind]
      rw [ih (hle.trans h), offset_succ, ← Nat.add_assoc index n 1, offset_succ, offset_add,
        Memory.memmove_up, Nat.succ_mul]

theorem shiftDown_ok {i n : Nat} (h : f.offset (i + n + 1) ≤ pageSize) :
    f.shiftDown (i + 1 : Nat) (i + n + 1 : Nat) p =
      .ok (p.memmove (f.offset i) (f.offset (i + 1)) (n * f.entry.width)) := by
  induction n generalizing i p with
  | zero =>
      rw [shiftDown, if_neg (by omega)]
      refine congrArg Except.ok ?_
      funext i
      rw [Memory.memmove_of_not_mem (by omega)]
  | succ n ih =>
      have hprev : ((i + 1 : Nat) : Int) - 1 = i := by omega
      have hnext : ((i + 1 : Nat) : Int) + 1 = (i + 1 + 1 : Nat) := rfl
      have hend : i + (n + 1) + 1 = i + 1 + n + 1 := by omega
      have hfirst : f.offset (i + 1 + 1) ≤ pageSize := (f.offset_le_offset (by omega)).trans h
      have hprevious := (f.offset_le_offset (Nat.le_succ (i + 1))).trans hfirst
      rw [shiftDown, if_pos (by omega), hprev, copyWithin_ok (by omega) hprevious hfirst]
      simp only [bind, Except.bind]
      rw [hnext, hend, ih (hend ▸ h), offset_succ, offset_succ, offset_succ, Memory.memmove_down,
        Nat.succ_mul, Nat.add_comm (n * _)]

theorem copyRange_ok {delta : Int} {i n dst : Nat} (hdst : (i : Int) + delta = dst)
    (hsource : f.offset (i + n) ≤ pageSize) (htarget : f.offset (dst + n) ≤ pageSize) :
    f.copyRange p delta i (i + n : Nat) recipient =
      .ok (recipient.memcpy (f.offset dst) (p.read (f.offset i) (n * f.entry.width))) := by
  induction n generalizing i dst recipient with
  | zero =>
      rw [copyRange, if_neg (by omega), Nat.zero_mul]
      refine congrArg Except.ok ?_
      funext j
      rw [Memory.memcpy_of_not_mem (by rw [Memory.length_read]; omega)]
  | succ n ih =>
      have hnext : ((i : Nat) : Int) + 1 = (i + 1 : Nat) := rfl
      have hend : i + (n + 1) = i + 1 + n := by omega
      have hend' : dst + (n + 1) = dst + 1 + n := by omega
      rw [copyRange, if_pos (by omega), hdst,
        copyTo_ok ((f.offset_le_offset (by omega)).trans htarget)
          ((f.offset_le_offset (by omega)).trans hsource)]
      simp only [bind, Except.bind]
      rw [hnext, hend, ih (by omega) (hend ▸ hsource) (hend' ▸ htarget), offset_succ, offset_succ,
        Nat.succ_mul, Nat.add_comm (n * _), Memory.read_append, ← Memory.memcpy_memcpy,
        Memory.length_read]

theorem moveEntries_ok (dst src : Nat) {n : Nat} (hsource : f.offset (src + n) ≤ pageSize)
    (htarget : f.offset (dst + n) ≤ pageSize) :
    f.moveEntries p dst src n =
      .ok (p.memmove (f.offset dst) (f.offset src) (n * f.entry.width)) := by
  rw [offset_add] at hsource htarget
  have hlen : ((n : Int) * f.entry.width).toNat = n * f.entry.width := by
    rw [← Int.natCast_mul, Int.toNat_natCast]
  rw [moveEntries, if_neg (by omega), address_natCast, address_natCast, hlen, load_ok hsource]
  simp only [bind, Except.bind]
  rw [store_ok (by rw [Memory.length_read]; exact htarget), Memory.memmove_eq_memcpy]

end EntryFormat

/-! ### What a page holds -/

/-- The bytes of a page hold the header `h` and the entries `array`, and
the page has room for one entry more than it may keep. -/
structure Lays (f : EntryFormat K V) (pageType : Int) (p : PageBytes) (h : PageHeader)
    (array : List (K × V)) : Prop where
  pageType : p.getInt32 0 = pageType
  size : p.getSize = array.length
  maxSize : p.getMaxSize = h.maxSize
  parent : p.getParentPageId = h.parentPageId
  pageId : p.getPageId = h.pageId
  entries : p.Holds f.base (f.entry.encodeAll array)
  valid : ∀ e ∈ array, f.entry.Valid e
  fits : array.length ≤ h.maxSize + 1
  room : f.offset (h.maxSize + 1) ≤ pageSize
  positive : 0 < f.entry.width

namespace Lays

variable {pageType : Int} {h : PageHeader} {array array' : List (K × V)}

theorem offset_le (hp : Lays f pageType p h array) {i : Nat} (hi : i ≤ h.maxSize + 1) :
    f.offset i ≤ pageSize :=
  (f.offset_le_offset hi).trans hp.room

theorem maxSize_lt (hp : Lays f pageType p h array) : h.maxSize + 1 ≤ 512 := by
  have hroom := hp.room
  have hpos := Nat.le_mul_of_pos_right (h.maxSize + 1) hp.positive
  rw [EntryFormat.offset, pageSize] at hroom
  omega

theorem getSize_setSize (hp : Lays f pageType p h array) (q : PageBytes) {n : Nat}
    (hn : n ≤ h.maxSize + 1) : (q.setSize n).getSize = n := by
  have hmax := hp.maxSize_lt
  exact Memory.getInt32_setInt32 _ _ (by omega) (by omega)

theorem update (hp : Lays f pageType p h array) (hsize : q.getSize = array'.length)
    (hheader : ∀ x < 24, x < 8 ∨ 12 ≤ x → q x = p x)
    (hentries : q.Holds f.base (f.entry.encodeAll array')) (hvalid : ∀ e ∈ array', f.entry.Valid e)
    (hfits : array'.length ≤ h.maxSize + 1) : Lays f pageType q h array' := by
  have hfield {off : Nat} (hoff : off + 4 ≤ 8 ∨ 12 ≤ off) (hlt : off + 4 ≤ 24) :
      q.getInt32 off = p.getInt32 off :=
    Memory.getInt32_congr fun i hi => hheader _ (by omega) (by omega)
  constructor
  case pageType => exact (hfield (by omega) (by omega)).trans hp.pageType
  case size => exact hsize
  case maxSize => exact (hfield (by omega) (by omega)).trans hp.maxSize
  case parent => exact (hfield (by omega) (by omega)).trans hp.parent
  case pageId => exact (hfield (by omega) (by omega)).trans hp.pageId
  case entries => exact hentries
  case valid => exact hvalid
  case fits => exact hfits
  case room => exact hp.room
  case positive => exact hp.positive

theorem setParentPageId (hp : Lays f pageType p h array) {parent : PageId}
    (hparent : Codec.int32.Valid parent) :
    Lays f pageType (p.setParentPageId parent) { h with parentPageId := parent } array := by
  have hfield {off : Nat} (hoff : off + 4 ≤ 16 ∨ 20 ≤ off) :
      (p.setParentPageId parent).getInt32 off = p.getInt32 off :=
    Memory.getInt32_setInt32_of_disjoint (by omega)
  constructor
  case pageType => exact (hfield (by omega)).trans hp.pageType
  case size => exact (hfield (by omega)).trans hp.size
  case maxSize => exact (hfield (by omega)).trans hp.maxSize
  case parent => exact Memory.getInt32_setInt32 _ _ hparent.1 hparent.2
  case pageId => exact (hfield (by omega)).trans hp.pageId
  case entries =>
    have hbase := f.header_le
    exact hp.entries.memcpy_of_disjoint (.inr (by rw [Memory.length_int32Bytes]; omega))
  case valid => exact hp.valid
  case fits => exact hp.fits
  case room => exact hp.room
  case positive => exact hp.positive

/-- What lies behind the end of the page does not count. -/
theorem congr (hp : Lays f pageType p h array) (hsame : ∀ x < pageSize, q x = p x) :
    Lays f pageType q h array := by
  have hlast := hp.offset_le (i := array.length) hp.fits
  have hbase := f.header_le
  have hpage : pageSize = 512 := rfl
  have hfield {off : Nat} (hoff : off + 4 ≤ 24) : q.getInt32 off = p.getInt32 off :=
    Memory.getInt32_congr fun i hi => hsame _ (by omega)
  refine hp.update ((hfield (by omega)).trans hp.size) (fun x hx _ => hsame x (by omega)) ?_
    hp.valid hp.fits
  refine hp.entries.congr fun i hi => hsame _ ?_
  rw [Codec.length_encodeAll] at hi
  rw [EntryFormat.offset] at hlast
  omega

/-! What is read. -/

theorem first_ok (hp : Lays f pageType p h array) {i : Nat} (hi : i < array.length) :
    f.first p i = .ok array[i].1 := by
  have hle : i + 1 ≤ h.maxSize + 1 := by have := hp.fits; omega
  have hin := EntryFormat.inside (hp.offset_le hle)
  have hentry := hp.entries.getElem hi
  have hkey := (Memory.holds_append.mp hentry).1
  have hvalid := hp.valid _ (List.getElem_mem hi)
  rw [EntryFormat.first, EntryFormat.address_natCast, PageBytes.load_ok (by omega)]
  exact congrArg Except.ok (hkey.decode_read hvalid.1)

theorem second_ok (hp : Lays f pageType p h array) {i : Nat} (hi : i < array.length) :
    f.second p i = .ok array[i].2 := by
  have hle : i + 1 ≤ h.maxSize + 1 := by have := hp.fits; omega
  have hin := EntryFormat.inside (hp.offset_le hle)
  have hentry := hp.entries.getElem hi
  have hvalue := (Memory.holds_append.mp hentry).2
  rw [Codec.length_encode] at hvalue
  have hvalid := hp.valid _ (List.getElem_mem hi)
  have hsecond : (f.offset i : Int) + f.key.width = (f.offset i + f.key.width : Nat) := rfl
  rw [EntryFormat.second, EntryFormat.address_natCast, hsecond, PageBytes.load_ok (by omega)]
  exact congrArg Except.ok (hvalue.decode_read hvalid.2)

theorem keyAt_ok (hp : Lays f pageType p h array) {i : Nat} (hi : i < array.length) :
    f.keyAt p i = .ok array[i].1 := by
  have hsize := hp.size
  rw [EntryFormat.keyAt, if_neg (not_not.mpr ⟨by omega, by omega⟩), hp.first_ok hi]

end Lays

/-! ### Changes of the array -/

/-- The page `q` has the entries `array'`, and but for the size the header
of `p`. -/
structure Edits (f : EntryFormat K V) (p q : PageBytes) (array' : List (K × V)) : Prop where
  size : q.getSize = array'.length
  header : ∀ x < f.base, x < 8 ∨ 12 ≤ x → q x = p x
  entries : q.Holds f.base (f.entry.encodeAll array')

theorem Edits.getInt32 {array' : List (K × V)} (hq : Edits f p q array') {off : Nat}
    (hlo : 12 ≤ off) (hhi : off + 4 ≤ f.base) : q.getInt32 off = p.getInt32 off :=
  Memory.getInt32_congr fun i hi => hq.header _ (by omega) (by omega)

namespace Lays

variable {pageType : Int} {h : PageHeader} {array array' below above : List (K × V)}

theorem edit (hp : Lays f pageType p h array) (hq : Edits f p q array')
    (hvalid : ∀ e ∈ array', f.entry.Valid e) (hfits : array'.length ≤ h.maxSize + 1) :
    Lays f pageType q h array' :=
  hp.update hq.size (fun x hx => hq.header x (hx.trans_le f.header_le)) hq.entries hvalid hfits

/-- The size is set, and nothing else changes below the array. -/
theorem edits_of_frame (hp : Lays f pageType p h array)
    (hframe : ∀ x < f.base, q x = p.setSize array'.length x)
    (hentries : q.Holds f.base (f.entry.encodeAll array')) (hfits : array'.length ≤ h.maxSize + 1) :
    Edits f p q array' := by
  have hbase := f.header_le
  refine ⟨?_, fun x hx hout => ?_, hentries⟩
  · rw [← hp.getSize_setSize p hfits]
    exact Memory.getInt32_congr fun i hi => hframe _ (by omega)
  · rw [hframe x hx]
    exact Memory.setInt32_of_not_mem (by omega)

theorem edits_setSize (hp : Lays f pageType p h array) (hframe : ∀ x < f.base, q x = p x)
    (hentries : q.Holds f.base (f.entry.encodeAll array')) (hfits : array'.length ≤ h.maxSize + 1) :
    Edits f p (q.setSize array'.length) array' := by
  have hbase := f.header_le
  refine hp.edits_of_frame (fun x hx => ?_) ?_ hfits
  · rw [PageBytes.setSize, Memory.setInt32, Memory.memcpy, hframe x hx]
    rfl
  · exact holds_setSize hentries (by omega) _

theorem increaseSize_eq (hp : Lays f pageType p h array) (n : Int) :
    p.increaseSize n = p.setSize (array.length + n) := by
  rw [PageBytes.increaseSize, hp.size]

/-- The last entries are given up. -/
theorem edits_take (hp : Lays f pageType p h array) {n : Nat} (hn : n ≤ array.length) :
    Edits f p (p.setSize n) (array.take n) := by
  have hlen := List.length_take_of_le hn
  have hfits := hp.fits
  have hsplit : f.entry.encodeAll array =
      f.entry.encodeAll (array.take n) ++ f.entry.encodeAll (array.drop n) := by
    rw [← Codec.encodeAll_append, List.take_append_drop]
  have hentries := hp.entries
  rw [hsplit] at hentries
  have hedit := hp.edits_setSize (fun _ _ => rfl) (Memory.holds_append.mp hentries).1 (by omega)
  rwa [hlen] at hedit

theorem offset_eq (f : EntryFormat K V) (l : List (K × V)) :
    f.offset l.length = f.base + (f.entry.encodeAll l).length := by
  rw [Codec.length_encodeAll, EntryFormat.offset]

theorem insertAt_ok (hp : Lays f pageType p h (below ++ above))
    (hroom : (below ++ above).length ≤ h.maxSize) (key : K) (value : V) :
    ∃ q, f.insertAt p below.length key value = .ok (q, ((below ++ above).length + 1 : Nat)) ∧
      Edits f p q (below ++ (key, value) :: above) := by
  have hlen : (below ++ above).length = below.length + above.length := List.length_append
  have hlen' : (below ++ (key, value) :: above).length = (below ++ above).length + 1 := by
    rw [List.length_append, List.length_cons, hlen, Nat.add_assoc]
  have hbase := f.header_le
  have hlast : f.offset (below.length + above.length + 1) ≤ pageSize := hp.offset_le (by omega)
  have hindex : f.offset (below.length + 1) ≤ pageSize := hp.offset_le (by omega)
  have hend : (((below ++ above).length + 1 : Nat) : Int) - 1 =
      (below.length + above.length : Nat) := by omega
  have hsize : p.increaseSize 1 = p.setSize ((below ++ above).length + 1 : Nat) :=
    hp.increaseSize_eq 1
  refine ⟨Memory.memcpy (Memory.memmove (p.setSize ((below ++ above).length + 1 : Nat))
    (f.offset (below.length + 1)) (f.offset below.length) (above.length * f.entry.width))
    (f.offset below.length) (f.entry.encode (key, value)), ?_, ?_⟩
  · simp only [EntryFormat.insertAt, hsize, hp.getSize_setSize p (Nat.succ_le_succ hroom), hend,
      EntryFormat.shiftUp_ok hlast, EntryFormat.setEntry_ok hindex, bind, Except.bind]
    rfl
  · have hentries := holds_setSize hp.entries (by omega) ((below ++ above).length + 1 : Nat)
    rw [Codec.encodeAll_append] at hentries
    have hgap := hentries.openGap (f.entry.encode (key, value))
    rw [← offset_eq, Codec.length_encode, ← EntryFormat.offset_succ, Codec.length_encodeAll] at hgap
    refine hp.edits_of_frame (fun x hx => ?_) ?_ (by omega)
    · rw [Memory.memcpy_of_not_mem (.inl (hx.trans_le (f.base_le_offset _))),
        Memory.memmove_of_not_mem (.inl (hx.trans_le (f.base_le_offset _))), hlen']
    · rw [Codec.encodeAll_append, Codec.encodeAll_cons]
      exact hgap

theorem append_ok (hp : Lays f pageType p h array) (hroom : array.length ≤ h.maxSize)
    (item : K × V) :
    ∃ q, f.append p item = .ok q ∧ Edits f p q (array ++ [item]) := by
  have hoff : f.offset (array.length + 1) ≤ pageSize := hp.offset_le (by omega)
  have hlen : (array ++ [item]).length = array.length + 1 := by simp
  -- the bytes with the new entry, before the size is set
  obtain ⟨m, hm⟩ : ∃ m : PageBytes,
      m = p.memcpy (f.offset array.length) (f.entry.encode item) := ⟨_, rfl⟩
  have hframe : ∀ x < f.base, m x = p x := fun x hx => by
    rw [hm, Memory.memcpy_of_not_mem (.inl (hx.trans_le (f.base_le_offset _)))]
  have hholds : m.Holds f.base (f.entry.encodeAll (array ++ [item])) := by
    rw [Codec.encodeAll_append, Codec.encodeAll_cons, Codec.encodeAll_nil, List.append_nil, hm,
      offset_eq]
    exact hp.entries.append _
  have hsize : m.getSize = array.length := by
    rw [← hp.size]
    have hbase := f.header_le
    exact Memory.getInt32_congr fun i hi => hframe _ (by omega)
  refine ⟨m.setSize (array.length + 1 : Nat), ?_, ?_⟩
  · rw [EntryFormat.append, hp.size, EntryFormat.setEntry_ok hoff]
    simp only [bind, Except.bind, pure, Except.pure]
    rw [← hm, PageBytes.increaseSize, hsize]
    rfl
  · rw [← hlen]
    exact hp.edits_setSize hframe hholds (by omega)

theorem prepend_ok (hp : Lays f pageType p h array) (hroom : array.length ≤ h.maxSize)
    (item : K × V) :
    ∃ q, f.prepend p item = .ok q ∧ Edits f p q (item :: array) := by
  have hbase := f.header_le
  have hlast : f.offset (1 + array.length) ≤ pageSize := hp.offset_le (by omega)
  have hlast' : f.offset (0 + array.length) ≤ pageSize := hp.offset_le (by omega)
  have hone : f.offset (0 + 1) ≤ pageSize := hp.offset_le (by omega)
  -- the bytes with the gap, before the size is set
  obtain ⟨m, hm⟩ : ∃ m : PageBytes,
      m = p.memmove (f.offset 1) (f.offset 0) (array.length * f.entry.width) := ⟨_, rfl⟩
  have hframe : ∀ x < f.base, m x = p x := fun x hx => by
    rw [hm, Memory.memmove_of_not_mem (.inl (hx.trans_le (f.base_le_offset _)))]
  have hsize : m.increaseSize 1 = m.setSize (array.length + 1 : Nat) := by
    have hsame : m.getSize = p.getSize := Memory.getInt32_congr fun i hi => hframe _ (by omega)
    rw [PageBytes.increaseSize, hsame, hp.size]
    rfl
  have hmove : f.moveEntries p 1 0 array.length = .ok m := by
    rw [hm]
    exact EntryFormat.moveEntries_ok 1 0 hlast' hlast
  refine ⟨Memory.memcpy (m.setSize (array.length + 1 : Nat)) (f.offset 0) (f.entry.encode item),
    ?_, ?_⟩
  · simp only [EntryFormat.prepend, hp.size, hmove, hsize, bind, Except.bind]
    exact EntryFormat.setEntry_ok (i := 0) hone item.1 item.2
  · refine hp.edits_of_frame (fun x hx => ?_) ?_ (Nat.succ_le_succ hroom)
    · rw [Memory.memcpy_of_not_mem (.inl (hx.trans_le (f.base_le_offset _))), PageBytes.setSize,
        Memory.setInt32, Memory.memcpy, hframe x hx]
      rfl
    · have hmoved : m.Holds (f.offset 1) (f.entry.encodeAll array) := by
        have hentries := hp.entries.memmove (f.offset 1)
        rw [Codec.length_encodeAll, ← EntryFormat.offset_zero] at hentries
        rw [hm]
        exact hentries
      have hbelow := f.base_le_offset 1
      rw [Codec.encodeAll_cons, Memory.holds_append, Codec.length_encode, ← EntryFormat.offset_zero,
        ← EntryFormat.offset_succ]
      refine ⟨Memory.holds_memcpy _ _ _,
        (holds_setSize hmoved (by omega) _).memcpy_of_disjoint (.inr ?_)⟩
      rw [Codec.length_encode, ← EntryFormat.offset_succ]

/-- The bytes behind an entry move down over it. -/
theorem holds_removed (below : List (K × V)) {x : K × V} {m : PageBytes}
    (hm : m.Holds f.base (f.entry.encodeAll (below ++ x :: above))) :
    Memory.Holds (m.memmove (f.offset below.length) (f.offset (below.length + 1))
      (above.length * f.entry.width)) f.base (f.entry.encodeAll (below ++ above)) := by
  rw [Codec.encodeAll_append, Codec.encodeAll_cons] at hm
  have hclosed := hm.closeGap
  rw [← offset_eq, Codec.length_encode, ← EntryFormat.offset_succ, Codec.length_encodeAll,
    ← Codec.encodeAll_append] at hclosed
  exact hclosed

theorem dropFirst_ok {x : K × V} (hp : Lays f pageType p h (x :: array)) :
    ∃ q, f.dropFirst p = .ok q ∧ Edits f p q array := by
  have hbase := f.header_le
  have hfits : array.length + 1 ≤ h.maxSize + 1 := hp.fits
  have hlast : f.offset (1 + array.length) ≤ pageSize := hp.offset_le (by omega)
  have hlast' : f.offset (0 + array.length) ≤ pageSize := hp.offset_le (by omega)
  have hsize : p.increaseSize (-1) = p.setSize array.length := by
    rw [hp.increaseSize_eq, List.length_cons]
    congr 1
    omega
  refine ⟨Memory.memmove (p.setSize array.length) (f.offset 0) (f.offset 1)
    (array.length * f.entry.width), ?_, ?_⟩
  · rw [EntryFormat.dropFirst, hsize, hp.getSize_setSize p (by omega)]
    exact EntryFormat.moveEntries_ok 0 1 hlast hlast'
  · refine hp.edits_of_frame (fun x hx => ?_) ?_ (by omega)
    · rw [Memory.memmove_of_not_mem (.inl (hx.trans_le (f.base_le_offset _)))]
    · exact holds_removed [] (holds_setSize hp.entries (by omega) _)

/-- The entries behind the one that is removed move down, and the size is
set in the end. -/
theorem edits_removed {x : K × V} (hp : Lays f pageType p h (below ++ x :: above)) :
    Edits f p (PageBytes.increaseSize (Memory.memmove p (f.offset below.length)
      (f.offset (below.length + 1)) (above.length * f.entry.width)) (-1)) (below ++ above) := by
  have hbase := f.header_le
  have hfits := hp.fits
  have hlen : (below ++ x :: above).length = (below ++ above).length + 1 := by
    rw [List.length_append, List.length_cons, List.length_append, Nat.add_assoc]
  have hframe : ∀ y < f.base, Memory.memmove p (f.offset below.length)
      (f.offset (below.length + 1)) (above.length * f.entry.width) y = p y := fun y hy =>
    Memory.memmove_of_not_mem (.inl (hy.trans_le (f.base_le_offset _)))
  have hsame : PageBytes.getSize (Memory.memmove p (f.offset below.length)
      (f.offset (below.length + 1)) (above.length * f.entry.width)) = p.getSize :=
    Memory.getInt32_congr fun i hi => hframe _ (by omega)
  have hsize : ((below ++ x :: above).length : Int) + -1 = (below ++ above).length := by omega
  rw [PageBytes.increaseSize, hsame, hp.size, hsize]
  exact hp.edits_setSize hframe (holds_removed below hp.entries) (by omega)

/-- The key of an entry is overwritten. -/
theorem setFirst_ok {x : K × V} (hp : Lays f pageType p h (below ++ x :: above)) (key : K) :
    ∃ q, f.setFirst p below.length key = .ok q ∧ Edits f p q (below ++ (key, x.2) :: above) := by
  have hbase := f.header_le
  have hfits := hp.fits
  have hlen : (below ++ x :: above).length = below.length + above.length + 1 := by
    rw [List.length_append, List.length_cons, Nat.add_assoc]
  have hlen' : (below ++ (key, x.2) :: above).length = (below ++ x :: above).length := by
    rw [List.length_append, List.length_cons, List.length_append, List.length_cons]
  have hframe : ∀ y < f.base, Memory.memcpy p (f.offset below.length) (f.key.encode key) y = p y :=
    fun y hy => Memory.memcpy_of_not_mem (.inl (hy.trans_le (f.base_le_offset _)))
  have hentries := hp.entries
  rw [Codec.encodeAll_append, Codec.encodeAll_cons] at hentries
  change Memory.Holds p f.base
    (_ ++ ((f.key.encode x.1 ++ f.value.encode x.2) ++ f.entry.encodeAll above)) at hentries
  rw [List.append_assoc] at hentries
  have hreplaced := hentries.replace
    (show (f.key.encode key).length = (f.key.encode x.1).length by simp)
  rw [← offset_eq, ← List.append_assoc (f.key.encode key)] at hreplaced
  refine ⟨_, EntryFormat.setFirst_ok (hp.offset_le (by omega)) key, ?_,
    fun y hy _ => hframe y hy, ?_⟩
  · rw [hlen', ← hp.size]
    exact Memory.getInt32_congr fun i hi => hframe _ (by omega)
  · rw [Codec.encodeAll_append, Codec.encodeAll_cons]
    exact hreplaced

theorem holds_drop (hp : Lays f pageType p h array) {i : Nat} (hi : i ≤ array.length) :
    p.Holds (f.offset i) (f.entry.encodeAll (array.drop i)) := by
  have hentries := hp.entries
  rw [← List.take_append_drop i array, Codec.encodeAll_append, Memory.holds_append, ← offset_eq,
    List.length_take_of_le hi] at hentries
  exact hentries.2

/-- The entries of `p` from `i` on are copied behind the entries `below` of
the recipient, whose size is still to be set. -/
theorem copyRange_edits (below : List (K × V)) {pageType' : Int} {h' : PageHeader}
    (hp : Lays f pageType' p h' array) (hr : Lays f pageType recipient h (below ++ above))
    {i : Nat} (hi : i ≤ array.length) {delta : Int} (hdelta : i + delta = below.length)
    (hfits : (below ++ array.drop i).length ≤ h.maxSize + 1) :
    ∃ m, f.copyRange p delta i array.length recipient = .ok m ∧
      (∀ x < f.base, m x = recipient x) ∧
      Edits f recipient (m.setSize (below ++ array.drop i).length) (below ++ array.drop i) := by
  have hpfits := hp.fits
  obtain ⟨n, hn⟩ : ∃ n, array.length = i + n := ⟨array.length - i, by omega⟩
  have hdrop : (array.drop i).length = n := by
    rw [List.length_drop]
    omega
  rw [List.length_append, hdrop] at hfits
  have hsource := hp.holds_drop hi
  have hread : p.read (f.offset i) (n * f.entry.width) = f.entry.encodeAll (array.drop i) := by
    rw [← hdrop, ← Codec.length_encodeAll]
    exact hsource
  have hentries := hr.entries
  rw [Codec.encodeAll_append] at hentries
  have hframe : ∀ x < f.base, Memory.memcpy recipient (f.offset below.length)
      (f.entry.encodeAll (array.drop i)) x = recipient x := fun x hx =>
    Memory.memcpy_of_not_mem (.inl (hx.trans_le (f.base_le_offset _)))
  refine ⟨_, ?_, hframe,
    hr.edits_setSize hframe ?_ (by rw [List.length_append, hdrop]; exact hfits)⟩
  · rw [← hread, hn]
    exact EntryFormat.copyRange_ok hdelta (hp.offset_le (by omega)) (hr.offset_le (by omega))
  · rw [Codec.encodeAll_append, offset_eq]
    exact (Memory.holds_append.mp hentries).1.append _

end Lays

end ScuDb
