import ScuDb.Index.GenericKey
import ScuDb.Table.HeapInsertion
import ScuDb.Vtable.BestIndex
import ScuDb.Vtable.VirtualTable

/-!
Whether the key of a row fits in the keys of its index, `ConstructIndex`
of `virtual_table.cpp` against `InsertEntry` and `DeleteEntry` of
`virtual_table.h`.

The size of the keys is chosen once, from the key schema: the fixed-size
parts, and sixteen bytes for each VARCHAR. The size of a key tuple is the
fixed-size parts, and for each VARCHAR its length field and its bytes.
So the question is what a row's strings take of what the choice allows
for them, and that is the answer for each of the three functions that
make key tuples.
-/

namespace ScuDb

open Foundations

/-- `GetUnlinedColumnCount` -/
def Schema.getUnlinedColumnCount (schema : Schema) : Nat :=
  schema.columns.countP fun column => !column.isInlined

/-- The `GenericKey` that is taken for keys of `keySize` bytes. -/
def genericKeySize (keySize : Int) : Nat :=
  if keySize ≤ 4 then 4
  else if keySize ≤ 8 then 8
  else if keySize ≤ 16 then 16
  else if keySize ≤ 32 then 32
  else 64

/-- `ConstructIndex`: the size of the keys. -/
def constructIndex (keySchema : Schema) : Nat :=
  genericKeySize
    (wrap32 (keySchema.getLength + wrap32 (16 * keySchema.getUnlinedColumnCount)))

namespace Tuple

/-- The bytes of the tuple. -/
def bytes (t : Tuple) : List UInt8 := t.data.read 0 t.size.toNat

/-- The tuple `GetTuple` fills with the bytes of a row. -/
def ofBytes (heap : Memory) (bytes : List UInt8) : Tuple := ⟨bytes.length, heap.memcpy 0 bytes⟩

end Tuple

namespace IndexMetadata

variable (index : IndexMetadata)

/-- The size of the keys of the index. -/
def keySize : Nat := constructIndex index.keySchema

/-- The key tuple in `InsertEntry`. -/
def insertEntryKey (tuple : Tuple) (heap : Memory) : Option Tuple := do
  let keyValues ← index.keyAttrs.mapM fun attr : Fin _ => tuple.getValue index.tupleSchema attr
  Tuple.ofValues heap keyValues index.keySchema

/-- The key tuple in `DeleteEntry`. -/
def deleteEntryKey (h : TableHeap) (rid : RID) (deleted heap : Memory) : Option Tuple := do
  let bytes ← h.getTuple rid
  index.insertEntryKey (Tuple.ofBytes deleted bytes) heap

/-- The key tuple in `VtabFilter`. -/
def filterKey (argv : List SqliteValue) (heap : Memory) : Option Tuple := do
  let keyValues ← (constructTuple index.keySchema argv).toOption
  Tuple.ofValues heap keyValues index.keySchema

/-- An index and a table as `ParseIndexStatement` and
`ParseCreateStatement` make them: the inlined columns are as long as
their types, and the key has no more columns than the table. -/
structure Parsed : Prop where
  declared : ∀ column ∈ index.tupleSchema.columns, column.isInlined = true →
    column.columnLength = column.columnType.getTypeSize
  few : index.keyAttrs.length ≤ index.tupleSchema.columns.length

/-- SQLite's values of a row, the tuple that is made of them, and that
`InsertTuple` takes it. -/
structure Takes (argv : List SqliteValue) (values : List Value) (t : Tuple) : Prop where
  constructed : constructTuple index.tupleSchema argv = .ok values
  built : ∃ heap, Tuple.ofValues heap values index.tupleSchema = some t
  inserted : ∃ (s s' : VirtualTable GenericKey) (rid : RID),
    VirtualTable.insertTuple t.bytes s = .ok (some rid, s')

/-- The values of a row in the columns of the key. -/
def keyValues (values : List Value) : List Value :=
  index.keyAttrs.filterMap fun attr : Fin _ => values[(attr : Nat)]?

/-- However the new bytes are filled, the key tuple can be made and copied
into a key, and the values are read back from it. -/
def KeyFits (key : Memory → Option Tuple) (values : List Value) : Prop :=
  ∀ heap, ∃ t k, key heap = some t ∧ t.getLength ≤ index.keySize ∧
    GenericKey.setFromKey index.keySize t = some k ∧
    ∀ j value, values[j]? = some value →
      GenericKey.toValue index.keySize k index.keySchema j = some value

/-- The bytes of a string, with the terminator. -/
def stringBytes : Value → Nat
  | .varchar (some data) => data.bytes.length
  | _ => 0

/-- What `ConstructIndex` expects a key tuple to take. -/
def expected : Int :=
  (index.keySchema.columns.map Column.getFixedLength).sum +
    16 * index.keySchema.getUnlinedColumnCount

/-- The strings take no more than twelve bytes each, on average, and what
the keys have beyond what is expected; if they are shorter than that, the
strings have to make up for it. -/
def StringsFit (values : List Value) : Prop :=
  ((values.map stringBytes).sum : Int) ≤
    12 * index.keySchema.getUnlinedColumnCount + (genericKeySize index.expected - index.expected)

instance (values : List Value) : Decidable (index.StringsFit values) :=
  inferInstanceAs (Decidable (_ ≤ _))

end IndexMetadata

namespace Tuple

theorem length_bytes (t : Tuple) : t.bytes.length = t.size.toNat := Memory.length_read _ _ _

theorem ofBytes_bytes {t : Tuple} (hpos : 0 ≤ t.size) (heap : Memory) :
    (ofBytes heap t.bytes).size = t.size ∧
      ∀ i : Nat, (i : Int) < t.size → (ofBytes heap t.bytes).data i = t.data i := by
  have hlen := t.length_bytes
  refine ⟨?_, fun i hi => ?_⟩
  · show (t.bytes.length : Int) = t.size
    omega
  · show heap.memcpy 0 t.bytes i = t.data i
    rw [Memory.memcpy_of_mem (Nat.zero_le _) (by omega), Nat.sub_zero]
    have hlt : i < t.size.toNat := by omega
    simp [bytes, Memory.read, hlt]

/-- The columns are read from any tuple with its bytes. -/
theorem getValue_of_bytes {schema : Schema} {values : List Value} {heap : Memory} {t t' : Tuple}
    (h : Matches schema values) (hfits : EncodingFits schema values)
    (ht : ofValues heap values schema = some t) (hsize : t'.size = t.size)
    (hbytes : ∀ i : Nat, (i : Int) < t.size → t'.data i = t.data i)
    {i : Nat} {value : Value} (hvalue : values[i]? = some value) :
    t'.getValue schema i = some value := by
  obtain ⟨size, stores, hmax, hwrites, hbuilt, hfit, -⟩ := exists_layout h
  obtain ⟨hinside, hapart⟩ := hfit.mpr hfits
  obtain ⟨-, -, rfl⟩ := (hbuilt heap t).mp ht
  exact valueAt_eq h hwrites hinside hapart hmax hsize.ge hbytes hvalue

end Tuple

/-! ### The values -/

theorem constructValue_spec {type : TypeId} {v : SqliteValue} {value : Value}
    (h : constructValue type v = .ok value) : type = value.getTypeId ∧ value ≠ .varchar none := by
  cases type with
  | boolean =>
      cases h
      exact ⟨rfl, by simp⟩
  | decimal =>
      cases h
      exact ⟨rfl, by simp⟩
  | int type => cases type <;> cases h <;> exact ⟨rfl, by simp⟩
  | varchar =>
      rw [constructValue] at h
      cases htext : v.text with
      | none =>
          rw [htext] at h
          cases h
      | some text =>
          rw [htext] at h
          cases h
          exact ⟨rfl, by simp⟩

theorem constructValues_spec {columns : List Column} {argv : List SqliteValue}
    {values : List Value} (h : constructValues columns argv = .ok values) :
    List.Forall₂ (fun column value => column.columnType = Value.getTypeId value)
      columns values ∧ .varchar none ∉ values := by
  induction columns, argv using constructValues.induct generalizing values with
  | case1 argv =>
      rw [constructValues] at h
      cases h
      exact ⟨.nil, List.not_mem_nil⟩
  | case2 first columns => cases h
  | case3 first columns w argv ih =>
      rw [constructValues] at h
      cases hfirst : constructValue first.columnType w with
      | error e => simp [hfirst, Bind.bind, Except.bind] at h
      | ok x =>
          cases hrest : constructValues columns argv with
          | error e => simp [hfirst, hrest, Bind.bind, Except.bind] at h
          | ok xs =>
              simp only [hfirst, hrest, Bind.bind, Except.bind, Except.ok.injEq] at h
              subst h
              obtain ⟨htype, hnull⟩ := constructValue_spec hfirst
              obtain ⟨htypes, hnulls⟩ := ih hrest
              refine ⟨.cons htype htypes, fun hmem => ?_⟩
              exact (List.mem_cons.mp hmem).elim (fun heq => hnull heq.symm) hnulls

theorem mapM_eq_some_of_forall₂ {α β : Type} {f : α → Option β} {l : List α} {l' : List β}
    (h : List.Forall₂ (fun a b => f a = some b) l l') : l.mapM f = some l' := by
  induction h with
  | nil => rfl
  | cons hab _ ih => simp [hab, ih]

/-! ### Sizes -/

/-- Offsets that an `int32_t` can hold add up. -/
theorem Schema.place_snd_of_le {start : Int} {columns : List Column} (hstart : 0 ≤ start)
    (hle : start + (columns.map Column.getFixedLength).sum ≤ int32Max) :
    (Schema.place start columns).2 = start + (columns.map Column.getFixedLength).sum := by
  induction columns generalizing start with
  | nil => simp [Schema.place]
  | cons column columns ih =>
      have hpos := column.getFixedLength_bounds.1
      have hrest := Tuple.fixedLength_sum_nonneg columns
      rw [List.map_cons, List.sum_cons] at hle ⊢
      have hwrap : wrap32 (start + column.getFixedLength) = start + column.getFixedLength :=
        wrap32_of_le (by omega) (by omega)
      simp only [Schema.place, hwrap]
      rw [ih (by omega) (by omega)]
      omega

/-- The size of a tuple: the fixed-size parts, the length fields of the
strings, and their bytes. -/
theorem encodedSize_eq {schema : Schema} {values : List Value}
    (h : Tuple.Matches schema values) (hnull : .varchar none ∉ values) :
    Tuple.encodedSize schema values = (schema.columns.map Column.getFixedLength).sum +
      4 * schema.getUnlinedColumnCount + (values.map IndexMetadata.stringBytes).sum := by
  obtain ⟨columns⟩ := schema
  change List.Forall₂ _ columns values at h
  have hpayloads : (values.map Tuple.payloadSize).sum =
      4 * ((columns.countP fun column => !column.isInlined : Nat) : Int) +
        ((values.map IndexMetadata.stringBytes).sum : Nat) := by
    induction h with
    | nil => rfl
    | @cons column value columns values htype _ ih =>
        have ih := ih fun hmem => hnull (List.mem_cons_of_mem _ hmem)
        have hne : value ≠ .varchar none := fun heq => hnull (heq ▸ List.mem_cons_self)
        rw [List.map_cons, List.sum_cons, List.map_cons, List.sum_cons, List.countP_cons, ih]
        cases value with
        | varchar data =>
            have hinl : column.isInlined = false := by
              rw [Column.isInlined, htype]
              rfl
            cases data with
            | none => exact absurd rfl hne
            | some data =>
                simp only [Tuple.payloadSize, IndexMetadata.stringBytes, hinl, Bool.not_false,
                  if_true]
                omega
        | boolean _ | int _ | decimal _ =>
            have hinl : column.isInlined = true := by
              rw [Column.isInlined, htype]
              rfl
            simp [Tuple.payloadSize, IndexMetadata.stringBytes, hinl]
  simp only [Tuple.encodedSize, hpayloads, Schema.getUnlinedColumnCount]
  omega

namespace IndexMetadata

variable {index : IndexMetadata} {argv : List SqliteValue} {values : List Value} {t : Tuple}

theorem Takes.size_le (h : index.Takes argv values t) : t.size ≤ 480 := by
  obtain ⟨s, s', rid, hrun⟩ := h.inserted
  have hlen := t.length_bytes
  have hfits : ¬pageSize < t.bytes.length + 32 := by
    intro hlarge
    rw [VirtualTable.insertTuple, TableHeap.insertTuple, if_pos hlarge] at hrun
    cases hrun
  rw [hlen] at hfits
  have hpage : pageSize = 512 := rfl
  omega

theorem Takes.spec (h : index.Takes argv values t) :
    Tuple.Matches index.tupleSchema values ∧ .varchar none ∉ values :=
  constructValues_spec h.constructed

/-- A row that is taken makes the round trip. -/
theorem Takes.encodingFits (h : index.Takes argv values t) (hparsed : index.Parsed) :
    Tuple.EncodingFits index.tupleSchema values ∧
      t.size = Tuple.encodedSize index.tupleSchema values := by
  obtain ⟨heap, ht⟩ := h.built
  exact Tuple.encodingFits_of_built h.spec.1 hparsed.declared h.spec.2 ht

theorem Takes.columns_le (h : index.Takes argv values t) (hparsed : index.Parsed) :
    index.tupleSchema.columns.length ≤ 480 := by
  have hsize := (h.encodingFits hparsed).2
  have hle := h.size_le
  rw [encodedSize_eq h.spec.1 h.spec.2] at hsize
  have hcolumns (columns : List Column) :
      (columns.length : Int) ≤ (columns.map Column.getFixedLength).sum := by
    induction columns with
    | nil => exact le_rfl
    | cons column columns ih =>
        have hpos := column.getFixedLength_bounds.1
        rw [List.map_cons, List.sum_cons, List.length_cons]
        omega
  have hlen := hcolumns index.tupleSchema.columns
  omega

theorem exists_takes (hvalues : constructTuple index.tupleSchema argv = .ok values)
    (hfits : Tuple.EncodingFits index.tupleSchema values)
    (hpos : 0 < Tuple.encodedSize index.tupleSchema values)
    (hle : Tuple.encodedSize index.tupleSchema values ≤ 480) :
    ∃ t, index.Takes argv values t := by
  obtain ⟨htypes, -⟩ := constructValues_spec hvalues
  have hle' : Tuple.encodedSize index.tupleSchema values ≤ (480 : Nat) := hle
  obtain ⟨t, -, ht, hlen, -⟩ := exists_setFromKey htypes hfits hle' fun _ => 0
  have hbytes := t.length_bytes
  rw [Tuple.getLength] at hlen
  have hne : t.bytes ≠ [] := List.ne_nil_of_length_pos (by omega)
  obtain ⟨h, hcreate⟩ : ∃ h, TableHeap.create 1 = .ok h := exists_ok (by decide)
  have hchained := (TableHeap.create_spec Int.one_pos.le hcreate).1
  have hids : h.nextPageId < 2147483648 := by
    rw [(TableHeap.create_eq hcreate).2.2.1]
    decide
  refine ⟨t, hvalues, ⟨_, ht⟩, ?_⟩
  rcases TableHeap.insertTupleCalls_spec hchained hne TransactionManager.start fun _ => 0 with
    ⟨hlarge, -⟩ | ⟨hnone, -⟩ | ⟨-, rid, h', calls, hrun, -⟩
  · omega
  · exact absurd hids hnone
  · have hinsert := TableHeap.insertTupleCalls_eq h t.bytes TransactionManager.start
    rw [hrun] at hinsert
    have htable : VirtualTable.insertTuple t.bytes
        (⟨h, none, TransactionManager.start⟩ : VirtualTable GenericKey) = .ok (some rid,
          ⟨h', none, TransactionManager.start.emplaceBack rid .insert []⟩) := by
      show (h.insertTuple t.bytes TransactionManager.start >>= _) = _
      rw [hinsert]
      rfl
    exact ⟨_, _, rid, htable⟩

theorem Parsed.keySchema_declared (hparsed : index.Parsed) :
    ∀ column ∈ index.keySchema.columns, column.isInlined = true →
      column.columnLength = column.columnType.getTypeSize := by
  intro column hcolumn
  obtain ⟨i, -, rfl⟩ := List.mem_map.mp hcolumn
  exact hparsed.declared _ (List.get_mem _ i)

/-- The size of the keys is the one for the bytes that are expected. -/
theorem keySize_eq (hparsed : index.Parsed) (hfew : index.keyAttrs.length ≤ 480) :
    index.keySize = genericKeySize index.expected := by
  have hlength (columns : List Column) (hdeclared : ∀ column ∈ columns, column.isInlined = true →
      column.columnLength = column.columnType.getTypeSize) :
      (columns.map Column.getFixedLength).sum ≤ 8 * columns.length := by
    induction columns with
    | nil => exact le_rfl
    | cons column columns ih =>
        have hrest := ih fun c hc => hdeclared c (List.mem_cons_of_mem _ hc)
        have hcolumn : column.getFixedLength ≤ 8 := by
          rw [Column.getFixedLength]
          split
          case isTrue hinl =>
            rw [hdeclared column List.mem_cons_self hinl]
            cases column.columnType with
            | boolean => decide
            | decimal => decide
            | varchar => decide
            | int type => cases type <;> decide
          case isFalse => decide
        rw [List.map_cons, List.sum_cons, List.length_cons]
        omega
  have hsum := hlength index.keySchema.columns hparsed.keySchema_declared
  have hcount : index.keySchema.getUnlinedColumnCount ≤ index.keySchema.columns.length :=
    List.countP_le_length
  have hcolumns : index.keySchema.columns.length = index.keyAttrs.length := List.length_map _
  have hnonneg := Tuple.fixedLength_sum_nonneg index.keySchema.columns
  have hget : index.keySchema.getLength =
      (index.keySchema.columns.map Column.getFixedLength).sum := by
    have hmax : 0 + (index.keySchema.columns.map Column.getFixedLength).sum ≤ int32Max := by
      simp only [int32Max]
      omega
    exact (Schema.place_snd_of_le le_rfl hmax).trans (zero_add _)
  have hstrings : wrap32 (16 * (index.keySchema.getUnlinedColumnCount : Int)) =
      16 * index.keySchema.getUnlinedColumnCount :=
    wrap32_of_le (by omega) (by simp only [int32Max]; omega)
  rw [keySize, constructIndex, expected, hstrings, hget,
    wrap32_of_le (by omega) (by simp only [int32Max]; omega)]

/-- The strings fit exactly if the tuple does. -/
theorem stringsFit_iff (hparsed : index.Parsed) (hfew : index.keyAttrs.length ≤ 480)
    (h : Tuple.Matches index.keySchema values) (hnull : .varchar none ∉ values) :
    index.StringsFit values ↔ Tuple.encodedSize index.keySchema values ≤ index.keySize := by
  rw [encodedSize_eq h hnull, keySize_eq hparsed hfew, StringsFit, expected]
  omega

theorem genericKeySize_le (keySize : Int) : genericKeySize keySize ≤ 64 := by
  unfold genericKeySize
  split_ifs <;> decide

/-- What the choice is meant for: no more than 64 bytes are expected, and
no string takes more than twelve. -/
theorem stringsFit_of_short (hexpected : index.expected ≤ 64)
    (h : Tuple.Matches index.keySchema values) (hshort : ∀ value ∈ values, stringBytes value ≤ 12) :
    index.StringsFit values := by
  have hroom : index.expected ≤ genericKeySize index.expected := by
    unfold genericKeySize
    split_ifs <;> simp only [Nat.cast_ofNat] <;> omega
  have hsum : (values.map stringBytes).sum ≤ 12 * index.keySchema.getUnlinedColumnCount := by
    rw [Schema.getUnlinedColumnCount]
    change List.Forall₂ _ index.keySchema.columns values at h
    generalize index.keySchema.columns = columns at h ⊢
    induction h with
    | nil => exact Nat.zero_le _
    | @cons column value columns values htype _ ih =>
        have ih := ih fun w hw => hshort w (List.mem_cons_of_mem _ hw)
        rw [List.map_cons, List.sum_cons, List.countP_cons]
        by_cases hinl : column.isInlined = true
        · have hzero : stringBytes value = 0 := by
            have hne := (Column.isInlined_iff column).mp hinl
            rw [htype] at hne
            cases value with
            | varchar data => exact absurd rfl hne
            | boolean b => rfl
            | int v => rfl
            | decimal d => rfl
          omega
        · have hle := hshort value List.mem_cons_self
          rw [Bool.not_eq_true] at hinl
          simp only [hinl, Bool.not_false, if_true]
          omega
  rw [StringsFit]
  omega

/-- Key tuples of values of the key's types fit exactly if the strings do. -/
theorem keyFits_ofValues_iff (hparsed : index.Parsed) (hfew : index.keyAttrs.length ≤ 480)
    (h : Tuple.Matches index.keySchema values) (hnull : .varchar none ∉ values) :
    index.KeyFits (Tuple.ofValues · values index.keySchema) values ↔ index.StringsFit values := by
  rw [stringsFit_iff hparsed hfew h hnull]
  constructor
  · intro hkey
    obtain ⟨t, k, ht, hlen, -⟩ := hkey fun _ => 0
    have hsize := (Tuple.encodingFits_of_built h hparsed.keySchema_declared hnull ht).2
    rwa [Tuple.getLength, hsize] at hlen
  · intro hle heap
    have hwide : ∀ column ∈ index.keySchema.columns, column.isInlined = true →
        (column.columnType.getTypeSize : Int) ≤ column.columnLength :=
      fun column hcolumn hinl => (hparsed.keySchema_declared column hcolumn hinl).ge
    have hmax : Tuple.encodedSize index.keySchema values ≤ int32Max := by
      have hkeySize : index.keySize ≤ 64 := genericKeySize_le _
      simp only [int32Max]
      omega
    obtain ⟨t, k, ht, hlen, hk, hread⟩ := exists_setFromKey h ⟨hwide, hnull, hmax⟩ hle heap
    exact ⟨t, k, ht, hlen.trans_le hle, hk, hread⟩

/-! ### The key tuples -/

theorem Takes.getValue (h : index.Takes argv values t) (hparsed : index.Parsed) {t' : Tuple}
    (hsize : t'.size = t.size) (hbytes : ∀ i : Nat, (i : Int) < t.size → t'.data i = t.data i)
    {i : Nat} {value : Value} (hvalue : values[i]? = some value) :
    t'.getValue index.tupleSchema i = some value := by
  obtain ⟨heap, ht⟩ := h.built
  exact Tuple.getValue_of_bytes h.spec.1 (h.encodingFits hparsed).1 ht hsize hbytes hvalue

/-- The key tuple of any tuple with the bytes of the row is made of the
row's values, which have the types of the key. -/
theorem Takes.insertEntryKey_eq (h : index.Takes argv values t) (hparsed : index.Parsed)
    {t' : Tuple} (hsize : t'.size = t.size)
    (hbytes : ∀ i : Nat, (i : Int) < t.size → t'.data i = t.data i) :
    index.insertEntryKey t' = (Tuple.ofValues · (index.keyValues values) index.keySchema) := by
  have hread : List.Forall₂
      (fun (i : Fin _) value => t'.getValue index.tupleSchema i = some value)
      index.keyAttrs (index.keyValues values) := by
    rw [keyValues]
    have hlen := h.spec.1.length_eq
    induction index.keyAttrs with
    | nil => exact .nil
    | cons i attrs ih =>
        obtain ⟨value, hvalue⟩ : ∃ value, values[(i : Nat)]? = some value :=
          ⟨_, List.getElem?_eq_getElem (hlen ▸ i.isLt)⟩
        rw [List.filterMap_cons, hvalue]
        exact .cons (h.getValue hparsed hsize hbytes hvalue) ih
  funext heap
  rw [insertEntryKey, mapM_eq_some_of_forall₂ hread]
  rfl

theorem Takes.keyValues_spec (h : index.Takes argv values t) :
    Tuple.Matches index.keySchema (index.keyValues values) ∧
      .varchar none ∉ index.keyValues values := by
  obtain ⟨htypes, hnull⟩ := h.spec
  constructor
  · change List.Forall₂ _ (index.keyAttrs.map index.tupleSchema.columns.get)
      (index.keyValues values)
    rw [keyValues]
    induction index.keyAttrs with
    | nil => exact .nil
    | cons i attrs ih =>
        have hi : (i : Nat) < values.length := htypes.length_eq ▸ i.isLt
        rw [List.map_cons, List.filterMap_cons, List.getElem?_eq_getElem hi]
        exact .cons (List.forall₂_iff_get.mp htypes |>.2 i i.isLt hi) ih
  · intro hmem
    obtain ⟨i, -, hi⟩ := List.mem_filterMap.mp hmem
    exact hnull (List.mem_of_getElem? hi)

/-- A key fits in the keys of its index exactly if its strings do: the key
of a row that was taken, when its entry is inserted and when it is
deleted, and the key of a scan. -/
theorem keyFits_iff (index : IndexMetadata) (hparsed : index.Parsed) (argv : List SqliteValue)
    (values : List Value) (t : Tuple) (hrow : index.Takes argv values t) :
    (index.KeyFits (index.insertEntryKey t) (index.keyValues values) ↔
      index.StringsFit (index.keyValues values)) ∧
    (∀ (h : TableHeap) (rid : RID) (deleted : Memory), h.getTuple rid = some t.bytes →
      (index.KeyFits (index.deleteEntryKey h rid deleted) (index.keyValues values) ↔
        index.StringsFit (index.keyValues values))) ∧
    ∀ args keys, constructTuple index.keySchema args = .ok keys →
      (index.KeyFits (index.filterKey args) keys ↔ index.StringsFit keys) := by
  have hfew : index.keyAttrs.length ≤ 480 := hparsed.few.trans (hrow.columns_le hparsed)
  obtain ⟨htypes, hnull⟩ := hrow.keyValues_spec
  refine ⟨?_, fun h rid deleted hget => ?_, fun args keys hkeys => ?_⟩
  · rw [hrow.insertEntryKey_eq hparsed rfl fun _ _ => rfl]
    exact keyFits_ofValues_iff hparsed hfew htypes hnull
  · -- the tuple the heap gives has the bytes of the row
    have hpos : 0 ≤ t.size := by
      rw [(hrow.encodingFits hparsed).2]
      exact Tuple.encodedSize_nonneg _ _
    obtain ⟨hsize, hbytes⟩ := Tuple.ofBytes_bytes hpos deleted
    have hsame : index.deleteEntryKey h rid deleted =
        index.insertEntryKey (Tuple.ofBytes deleted t.bytes) := by
      funext heap
      rw [deleteEntryKey, hget]
      rfl
    rw [hsame, hrow.insertEntryKey_eq hparsed hsize hbytes]
    exact keyFits_ofValues_iff hparsed hfew htypes hnull
  · obtain ⟨htypes', hnull'⟩ := constructValues_spec hkeys
    have hsame : index.filterKey args = (Tuple.ofValues · keys index.keySchema) := by
      funext heap
      rw [filterKey, hkeys]
      rfl
    rw [hsame]
    exact keyFits_ofValues_iff hparsed hfew htypes' hnull'

/-! ### A column of texts

The keys of an index on one VARCHAR column are expected to take twenty
bytes, and have thirty-two: four for the offset, four for the length, and
twenty-four for a text with its terminator. -/

/-- An index on the one column of a table, `a varchar(64)`. -/
def textIndex : IndexMetadata := ⟨⟨[⟨.varchar, 64, by decide, by decide⟩]⟩, [⟨0, by decide⟩]⟩

theorem textIndex_parsed : textIndex.Parsed := ⟨by decide, by decide⟩

theorem length_text (n : Fin 100) :
    (List.replicate n.val (97 : UInt8)).length + 1 < valueNull := by
  rw [List.length_replicate, valueNull]
  omega

/-- A text of `n` letters. -/
def textOf (n : Fin 100) : SqliteValue :=
  ⟨0#32, 0#64, 0#64, some ⟨List.replicate n.val 97, length_text n⟩⟩

theorem length_terminated (n : Fin 100) :
    (List.replicate n.val (97 : UInt8) ++ [0]).length < valueNull := by
  rw [List.length_append]
  exact length_text n

/-- The value in the column. -/
def valueOf (n : Fin 100) : Value :=
  .varchar (some ⟨List.replicate n.val 97 ++ [0], length_terminated n⟩)

theorem textIndex_takes (n : Fin 100) : ∃ t, textIndex.Takes [textOf n] [valueOf n] t := by
  have hsize : Tuple.encodedSize textIndex.tupleSchema [valueOf n] = n + 9 := by
    simp [Tuple.encodedSize, textIndex, valueOf, Tuple.payloadSize, Column.getFixedLength,
      Column.isInlined]
    omega
  apply exists_takes rfl ⟨by decide, by simp [valueOf], by rw [hsize, int32Max]; omega⟩
  · omega
  · omega

/-- A text of twenty-three letters fits. -/
theorem keyFits_text : ∃ t, textIndex.Takes [textOf 23] [valueOf 23] t ∧
    textIndex.KeyFits (textIndex.insertEntryKey t) [valueOf 23] := by
  obtain ⟨t, ht⟩ := textIndex_takes 23
  refine ⟨t, ht, (keyFits_iff textIndex textIndex_parsed _ _ t ht).1.mpr ?_⟩
  exact (by decide : textIndex.StringsFit [valueOf 23])

/-- A text of twenty-four letters is copied past the end of the key. -/
theorem not_keyFits_text : ¬∀ (index : IndexMetadata) (argv : List SqliteValue)
    (values : List Value) (t : Tuple), index.Parsed → index.Takes argv values t →
      index.KeyFits (index.insertEntryKey t) (index.keyValues values) := by
  intro h
  obtain ⟨t, ht⟩ := textIndex_takes 24
  have hfits := h textIndex _ _ t textIndex_parsed ht
  rw [ht.insertEntryKey_eq textIndex_parsed rfl fun _ _ => rfl] at hfits
  obtain ⟨htypes, hnull⟩ := ht.keyValues_spec
  have hstrings := (keyFits_ofValues_iff textIndex_parsed (by decide) htypes hnull).mp hfits
  exact absurd hstrings (by decide : ¬textIndex.StringsFit (textIndex.keyValues [valueOf 24]))

end IndexMetadata

end ScuDb
