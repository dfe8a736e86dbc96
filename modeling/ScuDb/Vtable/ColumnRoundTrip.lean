import ScuDb.Type.ExactArithmetic
import ScuDb.Vtable.KeySize

/-!
What SQLite reads of the integers it has written, `ConstructTuple` and
`VtabColumn` of `virtual_table.cpp` with the table in between.

Nothing on the way tests a number against the range of its column: the
constructor of `Value` keeps the low bits, and the rest of the way is
exact. So a number comes back if it has no other bits. The least number
of a column comes back too, but what is stored is a NULL.
-/

namespace ScuDb

open Foundations

/-- What `VtabColumn` gives to SQLite. A text ends at its first NUL. -/
inductive SqliteResult
  | int (i : BitVec 32)
  | int64 (i : BitVec 64)
  | double (d : BitVec 64)
  | text (bytes : List UInt8)
  | null
  deriving DecidableEq

/-- The integer that SQLite has then. -/
def SqliteResult.integer : SqliteResult → Option Int
  | .int i => some i.toInt
  | .int64 i => some i.toInt
  | _ => none

/-- `VtabColumn`, of the value at the cursor, which has the type of its
column. -/
def vtabColumn : Value → SqliteResult
  | .boolean b => .int (BitVec.ofInt 32 b.toInt)
  | .int v =>
      match v.typeId with
      | .tinyint => .int (BitVec.ofInt 32 v.getAs)
      | .smallint => .int (BitVec.ofInt 32 v.getAs)
      | .integer => .int (BitVec.ofInt 32 v.getAs)
      | .bigint => .int64 (BitVec.ofInt 64 v.getAs)
  | .decimal d => .double d
  | .varchar (some data) => .text (data.bytes.takeWhile (· ≠ 0))
  | .varchar none => .null

/-- `GetCurrentValue`: the tuple of the cursor's row is fetched into new
bytes. -/
def getCurrentValue (h : TableHeap) (rid : RID) (fresh : Memory) (schema : Schema) (column : Nat) :
    Option Value := do
  let bytes ← h.getTuple rid
  (Tuple.ofBytes fresh bytes).getValue schema column

/-- `VtabUpdate` for a new row, as far as the table goes: the tuple is
constructed and given to `InsertTuple`. -/
def insertRow (schema : Schema) (argv : List SqliteValue) (fresh : Memory) (h : TableHeap)
    (txn : Transaction) : Except Fault (Option RID × TableHeap × Transaction) := do
  let values ← constructTuple schema argv
  match Tuple.ofValues fresh values schema with
  | some tuple => h.insertTuple tuple.bytes txn
  | none => .error .outOfBounds

/-- The columns are BOOLEAN or of an integer type, as the statement that
creates the table declares them. -/
structure IntegerSchema (schema : Schema) : Prop where
  integer : ∀ c ∈ schema.columns, c.columnType = .boolean ∨ ∃ t, c.columnType = .int t
  declared : ∀ c ∈ schema.columns, c.columnLength = c.columnType.getTypeSize

/-- What SQLite's accessors say of the integer `x`. -/
structure SqliteValue.IsInteger (v : SqliteValue) (x : BitVec 64) : Prop where
  int : v.int = x.setWidth 32
  int64 : v.int64 = x

/-- The column reads as the integer `x`. -/
def ReadsAs (v : Option Value) (x : BitVec 64) : Prop :=
  ∃ value, v = some value ∧ (vtabColumn value).integer = some x.toInt

/-- And it is not NULL. -/
def ReadsNotNullAs (v : Option Value) (x : BitVec 64) : Prop :=
  ∃ value, v = some value ∧ (vtabColumn value).integer = some x.toInt ∧ value.isNull = false

/-- The row was rejected, or each of its columns reads as the integer that
was supplied for it. -/
def RowKept (reads : Option Value → BitVec 64 → Prop) (schema : Schema) (row : List (BitVec 64))
    (fresh : Memory) (r : Option RID × TableHeap × Transaction) : Prop :=
  r.1 = none ∨ ∃ rid, r.1 = some rid ∧
    ∀ i x, row[i]? = some x → reads (getCurrentValue r.2.1 rid fresh schema i) x

/-- Every integer of the row satisfies `p` for the bits of its column. -/
def InColumns (p : Nat → Int → Prop) (schema : Schema) (row : List (BitVec 64)) : Prop :=
  ∀ (i : Nat) (column : Column) (x : BitVec 64), schema.columns[i]? = some column →
    row[i]? = some x → p (8 * column.columnType.getTypeSize) x.toInt

/-- The bytes of a row without strings. -/
def Schema.fixedLength (schema : Schema) : Int := (schema.columns.map Column.getFixedLength).sum

theorem integer_vtabColumn (v : IntegerValue) : (vtabColumn (.int v)).integer = some v.getAs := by
  have hfits : Fits v.typeId.bits v.getAs := fits_toInt v.value
  rw [vtabColumn]
  cases htype : v.typeId with
  | bigint =>
      rw [htype] at hfits
      exact congrArg some (toInt_ofInt_of_fits hfits (by decide))
  | tinyint =>
      rw [htype] at hfits
      exact congrArg some (toInt_ofInt_of_fits (hfits.mono (by decide)) (by decide))
  | smallint =>
      rw [htype] at hfits
      exact congrArg some (toInt_ofInt_of_fits (hfits.mono (by decide)) (by decide))
  | integer =>
      rw [htype] at hfits
      exact congrArg some (toInt_ofInt_of_fits hfits (by decide))

theorem constructValue_int {v : SqliteValue} {x : BitVec 64} (hv : v.IsInteger x)
    (t : IntegerTypeId) : constructValue (.int t) v = .ok (.int ⟨t, x.setWidth _⟩) := by
  have hnarrow : ∀ w, w ≤ 32 → v.int.setWidth w = x.setWidth w := fun w hw => by
    rw [hv.int, BitVec.setWidth_setWidth_of_le x hw]
  cases t with
  | tinyint => simp only [constructValue, hnarrow _
      (show IntegerTypeId.tinyint.bits ≤ 32 by decide)]
  | smallint =>
      simp only [constructValue, hnarrow _ (show IntegerTypeId.smallint.bits ≤ 32 by decide)]
  | integer => simp only [constructValue, hnarrow _
      (show IntegerTypeId.integer.bits ≤ 32 by decide)]
  | bigint =>
      have hwide : x.setWidth 64 = v.int64 := (BitVec.setWidth_eq x).trans hv.int64.symm
      exact congrArg (fun b => Except.ok (Value.int ⟨.bigint, b⟩)) hwide.symm

theorem constructValue_integer {type : TypeId} {v : SqliteValue} {x : BitVec 64}
    (htype : type = .boolean ∨ ∃ t, type = .int t) (hv : v.IsInteger x) :
    ∃ value, constructValue type v = .ok value ∧
      (vtabColumn value).integer = some (x.toInt.bmod (2 ^ (8 * type.getTypeSize))) ∧
      (value.isNull = true ↔
        x.toInt.bmod (2 ^ (8 * type.getTypeSize)) = -2 ^ (8 * type.getTypeSize - 1)) := by
  obtain rfl | ⟨t, rfl⟩ := htype
  · have hbits : (v.int.setWidth 8).toInt = x.toInt.bmod (2 ^ 8) := by
      rw [hv.int, BitVec.setWidth_setWidth_of_le x (by decide), toInt_setWidth_of_le x (by decide)]
    refine ⟨_, rfl, ?_, ?_⟩
    · rw [vtabColumn, SqliteResult.integer,
        toInt_ofInt_of_fits ((fits_toInt _).mono (by decide)) (by decide), hbits]
      rfl
    · rw [Value.isNull, hbits]
      exact decide_eq_true_iff
  · have hle : t.bits ≤ 64 := by cases t <;> decide
    have hbits : (⟨t, x.setWidth _⟩ : IntegerValue).getAs = x.toInt.bmod (2 ^ t.bits) :=
      toInt_setWidth_of_le x hle
    refine ⟨_, constructValue_int hv t, ?_, ?_⟩
    · rw [integer_vtabColumn, hbits]
      rfl
    · rw [Value.isNull, IntegerValue.isNull_iff, hbits]
      rfl

theorem bmod_eq_self_iff {type : TypeId} (htype : type = .boolean ∨ ∃ t, type = .int t) {e : Int} :
    e.bmod (2 ^ (8 * type.getTypeSize)) = e ↔ Fits (8 * type.getTypeSize) e := by
  have hpos : 0 < 8 * type.getTypeSize := by
    obtain rfl | ⟨t, rfl⟩ := htype
    · decide
    · exact t.bits_pos
  refine ⟨fun heq => ?_, fun h => h.bmod hpos⟩
  rw [← heq, ← BitVec.toInt_ofInt]
  exact fits_toInt _

/-- A column reads as the integer that fits in it. -/
theorem readsAs_iff {type : TypeId} {v : SqliteValue} {x : BitVec 64} {value : Value}
    (htype : type = .boolean ∨ ∃ t, type = .int t) (hv : v.IsInteger x)
    (hvalue : constructValue type v = .ok value) :
    ReadsAs (some value) x ↔ Fits (8 * type.getTypeSize) x.toInt := by
  obtain ⟨value', hvalue', hint, -⟩ := constructValue_integer htype hv
  cases hvalue.symm.trans hvalue'
  rw [← bmod_eq_self_iff htype]
  simp [ReadsAs, hint]

/-- And it is NULL only for the least of these. -/
theorem readsNotNullAs_iff {type : TypeId} {v : SqliteValue} {x : BitVec 64} {value : Value}
    (htype : type = .boolean ∨ ∃ t, type = .int t) (hv : v.IsInteger x)
    (hvalue : constructValue type v = .ok value) :
    ReadsNotNullAs (some value) x ↔ Fits (8 * type.getTypeSize) x.toInt ∧
      x.toInt ≠ -2 ^ (8 * type.getTypeSize - 1) := by
  obtain ⟨value', hvalue', hint, hnull⟩ := constructValue_integer htype hv
  cases hvalue.symm.trans hvalue'
  rw [← bmod_eq_self_iff htype]
  constructor
  · rintro ⟨_, heq, hreads, hnonnull⟩
    cases heq
    rw [hint, Option.some_inj] at hreads
    refine ⟨hreads, fun hmin => ?_⟩
    rw [hnull.mpr (hreads.trans hmin)] at hnonnull
    cases hnonnull
  · rintro ⟨hreads, hmin⟩
    refine ⟨value, rfl, by rw [hint, hreads], ?_⟩
    by_contra hnonnull
    rw [Bool.not_eq_false, hnull, hreads] at hnonnull
    exact hmin hnonnull

/-! ### The way through the table -/

section Rows

variable {schema : Schema} {argv : List SqliteValue} {row : List (BitVec 64)} {fresh : Memory}
  {h : TableHeap} {txn : Transaction} {r : Option RID × TableHeap × Transaction}

theorem insertRow_ok (hrun : insertRow schema argv fresh h txn = .ok r) :
    ∃ values tuple, constructTuple schema argv = .ok values ∧
      Tuple.ofValues fresh values schema = some tuple ∧ h.insertTuple tuple.bytes txn = .ok r := by
  rw [insertRow] at hrun
  obtain ⟨values, hvalues, hrun⟩ := except_bind_ok hrun
  cases htuple : Tuple.ofValues fresh values schema with
  | none =>
      rw [htuple] at hrun
      cases hrun
  | some tuple =>
      rw [htuple] at hrun
      exact ⟨values, tuple, hvalues, htuple, hrun⟩

theorem IntegerSchema.encodedSize_eq (hschema : IntegerSchema schema) {values : List Value}
    (htypes : Tuple.Matches schema values) :
    Tuple.encodedSize schema values = schema.fixedLength := by
  have hpayload : ∀ size ∈ values.map Tuple.payloadSize, size = 0 := by
    intro size hsize
    obtain ⟨value, hvalue, rfl⟩ := List.mem_map.mp hsize
    obtain ⟨i, hi, rfl⟩ := List.mem_iff_getElem.mp hvalue
    have hlen : i < schema.columns.length := htypes.length_eq ▸ hi
    have htype := (List.forall₂_iff_get.mp htypes).2 i hlen hi
    simp only [List.get_eq_getElem] at htype
    have hcolumn := hschema.integer _ (List.getElem_mem hlen)
    rw [htype] at hcolumn
    cases hv : values[i] with
    | varchar data => simp [hv, Value.getTypeId] at hcolumn
    | boolean b => rfl
    | int v => rfl
    | decimal d => rfl
  rw [Tuple.encodedSize, List.sum_eq_zero hpayload, add_zero, Schema.fixedLength]

theorem getCurrentValue_eq (hschema : IntegerSchema schema) {ids : List PageId}
    (hh : h.Chained ids) {values : List Value} {tuple : Tuple}
    (hvalues : constructTuple schema argv = .ok values)
    (htuple : Tuple.ofValues fresh values schema = some tuple)
    (hrun : h.insertTuple tuple.bytes txn = .ok r) :
    480 < schema.fixedLength ∧ r.1 = none ∨
      ¬480 < schema.fixedLength ∧ ∃ rid, r.1 = some rid ∧ ∀ fresh' i value,
        values[i]? = some value → getCurrentValue r.2.1 rid fresh' schema i = some value := by
  obtain ⟨htypes, hnull⟩ := constructValues_spec hvalues
  obtain ⟨hfits, hsize⟩ := Tuple.encodingFits_of_built htypes
    (fun c hc _ => hschema.declared c hc) hnull htuple
  rw [hschema.encodedSize_eq htypes] at hsize
  have hpos : 0 ≤ tuple.size := by
    rw [hsize, ← hschema.encodedSize_eq htypes]
    exact Tuple.encodedSize_nonneg schema values
  have hlen := tuple.length_bytes
  rcases TableHeap.insertTuple_ok hh hrun with ⟨hlarge, rfl⟩ | ⟨rid, h', ids', hne, rfl, hdone⟩
  · exact Or.inl ⟨by omega, rfl⟩
  · have hsmall : ¬480 < tuple.bytes.length := by
      intro hlarge
      rw [TableHeap.insertTuple, if_pos (by rw [pageSize]; omega)] at hrun
      cases hrun
    refine Or.inr ⟨by omega, rid, rfl, fun fresh' i value hvalue => ?_⟩
    obtain ⟨hofsize, hofbytes⟩ := Tuple.ofBytes_bytes hpos fresh'
    rw [getCurrentValue, (hdone.getTuple hh hne).1]
    exact Tuple.getValue_of_bytes htypes hfits htuple hofsize hofbytes hvalue

/-- What is asked of each column of a row is asked of its integers. -/
theorem rowKept_iff_inColumns (hschema : IntegerSchema schema)
    (hlength : row.length = schema.columns.length)
    (hargv : List.Forall₂ SqliteValue.IsInteger argv row) {ids : List PageId} (hh : h.Chained ids)
    (hrun : insertRow schema argv fresh h txn = .ok r) (fresh' : Memory)
    {reads : Option Value → BitVec 64 → Prop} {p : Nat → Int → Prop}
    (hcolumn : ∀ {type v x value}, (type = .boolean ∨ ∃ t, type = .int t) →
      SqliteValue.IsInteger v x → constructValue type v = .ok value →
      (reads (some value) x ↔ p (8 * type.getTypeSize) x.toInt)) :
    RowKept reads schema row fresh' r ↔
      480 < schema.fixedLength ∨ InColumns p schema row := by
  obtain ⟨values, tuple, hvalues, htuple, hinsert⟩ := insertRow_ok hrun
  -- a column, the integer supplied for it, and the value made of this
  have hplace : ∀ (i : Nat) (column : Column) (x : BitVec 64), schema.columns[i]? = some column →
      row[i]? = some x → ∃ value, values[i]? = some value ∧
        (reads (some value) x ↔ p (8 * column.columnType.getTypeSize) x.toInt) := by
    intro i column x hi hx
    obtain ⟨hrow, rfl⟩ := List.getElem?_eq_some_iff.mp hx
    have harg : i < argv.length := hargv.length_eq ▸ hrow
    have hv := (List.forall₂_iff_get.mp hargv).2 i harg hrow
    obtain ⟨value, hvalue, hget⟩ := constructValues_get hvalues hi (List.getElem?_eq_getElem harg)
    exact ⟨value, hget, hcolumn (hschema.integer column (List.mem_of_getElem? hi)) hv hvalue⟩
  rcases getCurrentValue_eq hschema hh hvalues htuple hinsert with
    ⟨hlarge, hnone⟩ | ⟨hsmall, rid, hrid, hreads⟩
  · exact ⟨fun _ => Or.inl hlarge, fun _ => Or.inl hnone⟩
  · constructor
    · rintro (hnone | ⟨rid', hrid', hkept⟩)
      · rw [hrid] at hnone
        cases hnone
      · rw [hrid, Option.some_inj] at hrid'
        subst hrid'
        refine Or.inr fun i column x hi hx => ?_
        obtain ⟨value, hvalue, hiff⟩ := hplace i column x hi hx
        have hkept := hkept i x hx
        rw [hreads fresh' i value hvalue] at hkept
        exact hiff.mp hkept
    · rintro (hlarge | hin)
      · exact absurd hlarge hsmall
      · refine Or.inr ⟨rid, hrid, fun i x hx => ?_⟩
        obtain ⟨hi, -⟩ := List.getElem?_eq_some_iff.mp hx
        have hcol := List.getElem?_eq_getElem (hlength ▸ hi)
        obtain ⟨value, hvalue, hiff⟩ := hplace i _ x hcol hx
        rw [hreads fresh' i value hvalue]
        exact hiff.mpr (hin i _ x hcol hx)

end Rows

/-- In every table that calls on its tuples lead to, the integers of a row
come back if they fit in their columns. Where one is the least number of
its column, a NULL is stored. -/
theorem integers_read_back_iff {n : PageId} (hn : 0 ≤ n) {s : TrackedHeap}
    (hs : Reachable (fun s => TableHeap.create n = .ok s.heap ∧ s.stored = fun _ => none)
      (fun op s => op.OnOccupied s.heap) HeapOp.run s)
    {schema : Schema} (hschema : IntegerSchema schema) {row : List (BitVec 64)}
    (hlength : row.length = schema.columns.length) {argv : List SqliteValue}
    (hargv : List.Forall₂ SqliteValue.IsInteger argv row) {fresh : Memory} {txn : Transaction}
    {r : Option RID × TableHeap × Transaction}
    (hrun : insertRow schema argv fresh s.heap txn = .ok r) (fresh' : Memory) :
    (RowKept ReadsAs schema row fresh' r ↔
      480 < schema.fixedLength ∨ InColumns Fits schema row) ∧
    (RowKept ReadsNotNullAs schema row fresh' r ↔
      480 < schema.fixedLength ∨
        InColumns (fun w e => Fits w e ∧ e ≠ -2 ^ (w - 1)) schema row) := by
  obtain ⟨ids, hh, -⟩ := HeapOp.linked_of_reachable hn hs
  exact ⟨rowKept_iff_inColumns hschema hlength hargv hh hrun fresh' readsAs_iff,
    rowKept_iff_inColumns hschema hlength hargv hh hrun fresh' readsNotNullAs_iff⟩

/-! ### Rows that are inserted -/

theorem exists_constructValues_integers {columns : List Column} {argv : List SqliteValue}
    {row : List (BitVec 64)}
    (hcolumns : ∀ c ∈ columns, c.columnType = .boolean ∨ ∃ t, c.columnType = .int t)
    (hlength : row.length = columns.length) (hargv : List.Forall₂ SqliteValue.IsInteger argv row) :
    ∃ values, constructValues columns argv = .ok values := by
  induction columns generalizing argv row with
  | nil => exact ⟨[], by rw [constructValues]⟩
  | cons column columns ih =>
      cases hargv with
      | nil => cases hlength
      | @cons v x argv row hv hargv =>
          obtain ⟨value, hvalue, -⟩ := constructValue_integer (hcolumns _ List.mem_cons_self) hv
          obtain ⟨values, hvalues⟩ := ih (fun c hc => hcolumns c (List.mem_cons_of_mem _ hc))
            (Nat.succ.inj hlength) hargv
          refine ⟨value :: values, ?_⟩
          simp [constructValues, hvalue, hvalues, Bind.bind, Except.bind]

theorem exists_insertRow {n : PageId} (hn : 0 ≤ n) {s : TrackedHeap}
    (hs : Reachable (fun s => TableHeap.create n = .ok s.heap ∧ s.stored = fun _ => none)
      (fun op s => op.OnOccupied s.heap) HeapOp.run s) (hids : s.heap.nextPageId < 2147483648)
    {schema : Schema} (hschema : IntegerSchema schema) {row : List (BitVec 64)}
    (hlength : row.length = schema.columns.length) {argv : List SqliteValue}
    (hargv : List.Forall₂ SqliteValue.IsInteger argv row) (hpos : 0 < schema.fixedLength)
    (hle : schema.fixedLength ≤ 480) (fresh : Memory) (txn : Transaction) :
    ∃ rid h', insertRow schema argv fresh s.heap txn =
      .ok (some rid, h', txn.emplaceBack rid .insert []) := by
  obtain ⟨values, hvalues⟩ := exists_constructValues_integers hschema.integer hlength hargv
  obtain ⟨htypes, hnull⟩ := constructValues_spec hvalues
  have hsize := hschema.encodedSize_eq htypes
  have hfits : Tuple.EncodingFits schema values := by
    refine ⟨fun c hc _ => (hschema.declared c hc).ge, hnull, ?_⟩
    rw [hsize]
    exact hle.trans (by decide)
  obtain ⟨tuple, htuple⟩ := ((Tuple.roundTrips_iff fresh schema values htypes).mpr hfits).built
  obtain ⟨-, htuplesize⟩ := Tuple.encodingFits_of_built htypes
    (fun c hc _ => hschema.declared c hc) hnull htuple
  rw [hsize] at htuplesize
  have hlen := tuple.length_bytes
  obtain ⟨rid, h', calls, hrun, -⟩ := TableHeap.insertTuple_firstFit hn hs tuple.bytes (by omega)
    (by omega) hids txn fun _ => 0
  have hinsert := TableHeap.insertTupleCalls_eq s.heap tuple.bytes txn
  rw [hrun] at hinsert
  refine ⟨rid, h', ?_⟩
  simp only [insertRow, constructTuple, hvalues, Bind.bind, Except.bind, htuple, hinsert]
  rfl

/-- The column that a statement declares with an integer type. -/
theorem IntegerTypeId.size_bounds (t : IntegerTypeId) :
    (t.getTypeSize : Int) ≤ int32Max ∧ 0 < (t.getTypeSize : Int) := by
  cases t <;> decide

def IntegerTypeId.column (t : IntegerTypeId) : Column where
  columnType := .int t
  columnLength := t.getTypeSize
  length_le := t.size_bounds.1
  length_pos := fun _ => t.size_bounds.2

/-- An integer with an arbitrary reading as anything else. -/
def SqliteValue.ofInteger (x : BitVec 64) : SqliteValue := ⟨x.setWidth 32, x, 0, none⟩

theorem SqliteValue.isInteger_ofInteger (x : BitVec 64) : (ofInteger x).IsInteger x := ⟨rfl, rfl⟩

theorem integerSchema_tinyint : IntegerSchema ⟨[IntegerTypeId.tinyint.column]⟩ where
  integer c hc := by
    rw [List.mem_singleton.mp hc]
    exact Or.inr ⟨.tinyint, rfl⟩
  declared c hc := by
    rw [List.mem_singleton.mp hc]
    rfl

theorem exists_insertRow_tinyint : ∃ h r, TableHeap.create 1 = .ok h ∧
    insertRow ⟨[IntegerTypeId.tinyint.column]⟩ [.ofInteger 300] (fun _ => 0) h ⟨.growing, []⟩ =
      .ok r := by
  obtain ⟨h, hcreate⟩ : ∃ h, TableHeap.create 1 = .ok h := exists_ok (by decide)
  have hids : h.nextPageId < 2147483648 := by
    rw [(TableHeap.create_eq hcreate).2.2.1]
    decide
  have hs : Reachable (fun s => TableHeap.create 1 = .ok s.heap ∧ s.stored = fun _ => none)
      (fun op s => op.OnOccupied s.heap) HeapOp.run (⟨h, fun _ => none⟩ : TrackedHeap) :=
    .start ⟨hcreate, rfl⟩
  have hlength : [(300 : BitVec 64)].length = [IntegerTypeId.tinyint.column].length := rfl
  obtain ⟨rid, h', hrun⟩ := exists_insertRow (by decide) hs hids integerSchema_tinyint
    hlength (.cons (SqliteValue.isInteger_ofInteger 300) .nil) (by decide) (by decide)
    (fun _ => 0) ⟨.growing, []⟩
  exact ⟨h, _, hcreate, hrun⟩

theorem integers_read_back_iff_tinyint : ∃ h r, TableHeap.create 1 = .ok h ∧
    insertRow ⟨[IntegerTypeId.tinyint.column]⟩ [.ofInteger 300] (fun _ => 0) h ⟨.growing, []⟩ =
      .ok r ∧
    (RowKept ReadsAs ⟨[IntegerTypeId.tinyint.column]⟩ [300] (fun _ => 0) r ↔
      480 < Schema.fixedLength ⟨[IntegerTypeId.tinyint.column]⟩ ∨
        InColumns Fits ⟨[IntegerTypeId.tinyint.column]⟩ [300]) := by
  obtain ⟨h, r, hcreate, hrun⟩ := exists_insertRow_tinyint
  exact ⟨h, r, hcreate, hrun, (integers_read_back_iff (s := ⟨h, fun _ => none⟩) Int.one_pos.le
    (.start ⟨hcreate, rfl⟩) integerSchema_tinyint rfl
    (.cons (SqliteValue.isInteger_ofInteger 300) .nil) hrun fun _ => 0).1⟩

/-- It is not rejected, and it does not read as 300. -/
theorem exists_integer_not_read_back : ∃ h r, TableHeap.create 1 = .ok h ∧
    insertRow ⟨[IntegerTypeId.tinyint.column]⟩ [.ofInteger 300] (fun _ => 0) h ⟨.growing, []⟩ =
      .ok r ∧
    ¬RowKept ReadsAs ⟨[IntegerTypeId.tinyint.column]⟩ [300] (fun _ => 0) r := by
  obtain ⟨h, r, hcreate, hrun⟩ := exists_insertRow_tinyint
  obtain ⟨ids, hh, -⟩ := HeapOp.linked_of_reachable (s := ⟨h, fun _ => none⟩) Int.one_pos.le
    (.start ⟨hcreate, rfl⟩)
  refine ⟨h, r, hcreate, hrun, ?_⟩
  rw [rowKept_iff_inColumns integerSchema_tinyint rfl
    (.cons (SqliteValue.isInteger_ofInteger 300) .nil) hh hrun (fun _ => 0) readsAs_iff]
  rintro (hlarge | hin)
  · exact absurd hlarge (by decide)
  · exact absurd (hin 0 IntegerTypeId.tinyint.column 300 rfl rfl) (by decide)

end ScuDb
