import ScuDb.Table.Tuple

/-!
When a tuple holds what it was built from.

The stores of the constructor are, in another order, a layout of the
fixed-size parts followed by the payloads. So they are inside the tuple
and apart exactly if every part has room, and that is a condition on the
column lengths and the values. What is stored apart can be read back.
-/

namespace ScuDb

open Foundations

namespace Tuple

/-- The values have the types of the columns. -/
abbrev Matches (schema : Schema) (values : List Value) : Prop :=
  List.Forall₂ (fun column value => column.columnType = Value.getTypeId value)
    schema.columns values

/-! ### The stores as a layout -/

/-- By how much a payload moves the offset of the next one. -/
def payloadStep (value : Value) : Int := ((value.getLength.getD 0 + 4) % 4294967296 : Nat)

def fixedSegments (offset : Int) : List (Column × Value) → List Segment
  | [] => []
  | (column, value) :: rest =>
      if column.isInlined then
        ⟨value.serialize, column.getFixedLength⟩ :: fixedSegments offset rest
      else
        ⟨Memory.int32Bytes offset, column.getFixedLength⟩ ::
          fixedSegments (wrap32 (offset + payloadStep value)) rest

def payloadSegments : List (Column × Value) → List Segment
  | [] => []
  | (column, value) :: rest =>
      if column.isInlined then payloadSegments rest
      else ⟨value.serialize, payloadStep value⟩ :: payloadSegments rest

theorem wrap32_payloadStep {value : Value} {len : Nat} (h : value.getLength = some len)
    (offset : Int) : wrap32 (offset + (len + 4)) = wrap32 (offset + payloadStep value) := by
  simp only [wrap32, payloadStep, h, Option.getD_some, Int.bmod]
  omega

theorem exists_getLength {value : Value} (h : value.getTypeId = .varchar) :
    ∃ len, value.getLength = some len := by
  cases value with
  | varchar data => cases data <;> exact ⟨_, rfl⟩
  | boolean b => cases h
  | int v => cases h
  | decimal d => cases h

/-- The fixed-size parts lie where the schema says. -/
theorem place_snd (start offset : Int) {columns : List Column} {values : List Value}
    (h : columns.length = values.length) :
    (Schema.place start columns).2 =
      Segment.finish start (fixedSegments offset (columns.zip values)) := by
  induction columns generalizing start offset values with
  | nil => rfl
  | cons column columns ih =>
      cases values with
      | nil => cases h
      | cons value values =>
          simp only [Schema.place, List.zip_cons_cons, fixedSegments]
          split <;> exact ih _ _ (Nat.succ.inj h)

/-- The stores are those of the fixed-size parts and those of the payloads. -/
theorem writes_perm (start offset : Int) {columns : List Column} {values : List Value}
    (h : List.Forall₂ (fun column value => column.columnType = Value.getTypeId value)
      columns values) :
    ∃ stores, writes offset ((Schema.place start columns).1.zip values) = some stores ∧
      stores.Perm (Segment.place start (fixedSegments offset (columns.zip values)) ++
        Segment.place offset (payloadSegments (columns.zip values))) := by
  induction h generalizing start offset with
  | nil => exact ⟨[], rfl, List.Perm.refl _⟩
  | @cons column value columns values htype _ ih =>
      simp only [Schema.place, List.zip_cons_cons, writes, fixedSegments, payloadSegments]
      by_cases hinl : column.isInlined = true
      · obtain ⟨stores, heq, hperm⟩ := ih (wrap32 (start + column.getFixedLength)) offset
        simp only [hinl, if_true, heq]
        exact ⟨_, rfl, hperm.cons _⟩
      · have hvarchar : value.getTypeId = .varchar := by
          rw [Column.isInlined_iff, not_ne_iff] at hinl
          rw [← htype, hinl]
        obtain ⟨len, hlen⟩ := exists_getLength hvarchar
        obtain ⟨stores, heq, hperm⟩ := ih (wrap32 (start + column.getFixedLength))
          (wrap32 (offset + payloadStep value))
        simp only [hinl, Bool.false_eq_true, if_false, hlen, Option.bind_eq_bind,
          Option.bind_some, wrap32_payloadStep hlen, heq]
        refine ⟨_, rfl, ?_⟩
        simp only [Segment.place, List.cons_append]
        refine List.Perm.cons _ ?_
        exact (hperm.cons _).trans List.perm_middle.symm

theorem tupleSize_eq {schema : Schema} {values : List Value} (h : Matches schema values) :
    tupleSize schema values =
      some (Segment.finish schema.getLength (payloadSegments (schema.columns.zip values))) := by
  rw [tupleSize]
  generalize schema.getLength = size
  obtain ⟨columns⟩ := schema
  change List.Forall₂ _ columns values at h
  induction h generalizing size with
  | nil => rfl
  | @cons column value columns values htype _ ih =>
      simp only [List.zip_cons_cons, List.foldlM_cons, payloadSegments]
      by_cases hinl : column.isInlined = true
      · simp only [hinl, if_true]
        exact ih size
      · have hvarchar : value.getTypeId = .varchar := by
          rw [Column.isInlined_iff, not_ne_iff] at hinl
          rw [← htype, hinl]
        obtain ⟨len, hlen⟩ := exists_getLength hvarchar
        simp only [hinl, Bool.false_eq_true, if_false, hlen, Option.map_some,
          Option.bind_eq_bind, Option.bind_some, wrap32_payloadStep hlen, Segment.finish]
        exact ih _

/-! ### Room -/

/-- The bytes of a value that are not in the fixed-size part. -/
def payloadSize : Value → Int
  | .varchar none => 4
  | .varchar (some data) => 4 + data.bytes.length
  | _ => 0

/-- The bytes of all columns. -/
def encodedSize (schema : Schema) (values : List Value) : Int :=
  (schema.columns.map Column.getFixedLength).sum + (values.map payloadSize).sum

/-- The inlined columns are as long as their types, no VARCHAR is NULL,
and the size of the tuple is an `int32_t`. -/
structure EncodingFits (schema : Schema) (values : List Value) : Prop where
  wide : ∀ column ∈ schema.columns, column.isInlined = true →
    (column.columnType.getTypeSize : Int) ≤ column.columnLength
  notNull : .varchar none ∉ values
  size : encodedSize schema values ≤ int32Max

theorem payloadSize_nonneg (value : Value) : 0 ≤ payloadSize value := by
  cases value with
  | varchar data =>
      cases data <;> simp only [payloadSize]
      · decide
      · omega
  | boolean b => exact le_rfl
  | int v => exact le_rfl
  | decimal d => exact le_rfl

theorem plain_payload {value : Value} (h : value.getTypeId = .varchar) :
    Segment.Plain ⟨value.serialize, payloadStep value⟩ := by
  refine ⟨value.serialize_pos, ?_⟩
  cases value with
  | varchar data =>
      cases data with
      | none => exact Or.inl ⟨by decide, by decide⟩
      | some data =>
          have hshort := data.short
          simp only [payloadStep, Value.getLength, Option.getD_some, Value.serialize,
            List.length_append, Memory.length_int32Bytes, int32Max, valueNull] at *
          omega
  | boolean b => cases h
  | int v => cases h
  | decimal d => cases h

/-- A payload has room unless it is a NULL, or too long for the step. -/
theorem roomy_payload_iff {value : Value} (h : value.getTypeId = .varchar) :
    Segment.Roomy ⟨value.serialize, payloadStep value⟩ ↔
      value ≠ .varchar none ∧ payloadStep value = payloadSize value := by
  cases value with
  | varchar data =>
      cases data with
      | none =>
          simp only [ne_eq, not_true, false_and, iff_false, Segment.Roomy]
          decide
      | some data =>
          simp only [Segment.Roomy, payloadStep, payloadSize, Value.getLength, Option.getD_some,
            Value.serialize, List.length_append, Memory.length_int32Bytes, ne_eq,
            Value.varchar.injEq,
            reduceCtorEq, not_false_iff, true_and]
          omega
  | boolean b => cases h
  | int v => cases h
  | decimal d => cases h

theorem plain_segments {columns : List Column} {values : List Value} (offset : Int)
    (h : List.Forall₂ (fun column value => column.columnType = Value.getTypeId value)
      columns values) :
    ∀ s ∈ fixedSegments offset (columns.zip values) ++ payloadSegments (columns.zip values),
      Segment.Plain s := by
  induction h generalizing offset with
  | nil => exact fun s hs => absurd hs List.not_mem_nil
  | @cons column value columns values htype _ ih =>
      intro s hs
      simp only [List.zip_cons_cons, fixedSegments, payloadSegments] at hs
      by_cases hinl : column.isInlined = true
      · simp only [hinl, if_true, List.cons_append, List.mem_cons] at hs
        rcases hs with rfl | hs
        · exact ⟨value.serialize_pos, Or.inl column.getFixedLength_bounds⟩
        · exact ih offset s hs
      · have hvarchar : value.getTypeId = .varchar := by
          rw [Column.isInlined_iff, not_ne_iff] at hinl
          rw [← htype, hinl]
        simp only [hinl, Bool.false_eq_true, if_false, List.cons_append, List.mem_cons,
          List.mem_append] at hs
        rcases hs with rfl | hs | rfl | hs
        · exact ⟨by simp, Or.inl column.getFixedLength_bounds⟩
        · exact ih _ s (List.mem_append_left _ hs)
        · exact plain_payload hvarchar
        · exact ih 0 s (List.mem_append_right _ hs)

/-- No payload is a NULL or too long for its step. -/
def Stepped (values : List Value) : Prop :=
  ∀ value ∈ values, value.getTypeId = .varchar →
    value ≠ .varchar none ∧ payloadStep value = payloadSize value

theorem roomy_segments_iff {columns : List Column} {values : List Value} (offset : Int)
    (h : List.Forall₂ (fun column value => column.columnType = Value.getTypeId value)
      columns values) :
    (∀ s ∈ fixedSegments offset (columns.zip values) ++ payloadSegments (columns.zip values),
      Segment.Roomy s) ↔
      (∀ column ∈ columns, column.isInlined = true →
        (column.columnType.getTypeSize : Int) ≤ column.columnLength) ∧ Stepped values := by
  induction h generalizing offset with
  | nil => simp [fixedSegments, payloadSegments, Stepped]
  | @cons column value columns values htype _ ih =>
      simp only [List.zip_cons_cons, fixedSegments, payloadSegments]
      by_cases hinl : column.isInlined = true
      · have hne : value.getTypeId ≠ .varchar := by
          rw [← htype]
          exact (Column.isInlined_iff column).mp hinl
        have hroomy : Segment.Roomy ⟨value.serialize, column.getFixedLength⟩ ↔
            (column.columnType.getTypeSize : Int) ≤ column.columnLength := by
          rw [Segment.Roomy, Value.length_serialize hne, ← htype, Column.getFixedLength,
            if_pos hinl]
        simp only [hinl, if_true, List.cons_append, List.forall_mem_cons, hroomy, ih offset,
          Stepped, hne, false_implies, true_and, forall_const, and_assoc]
      · have hvarchar : value.getTypeId = .varchar := by
          rw [Column.isInlined_iff, not_ne_iff] at hinl
          rw [← htype, hinl]
        have hoffset : Segment.Roomy ⟨Memory.int32Bytes offset, column.getFixedLength⟩ := by
          rw [Segment.Roomy, Column.getFixedLength, if_neg hinl, Memory.length_int32Bytes]
          exact le_refl (4 : Int)
        have hrest := ih (wrap32 (offset + payloadStep value))
        simp only [List.forall_mem_append] at hrest
        simp only [hinl, Bool.false_eq_true, if_false, List.cons_append, List.forall_mem_cons,
          List.forall_mem_append, hoffset, true_and, false_implies, roomy_payload_iff hvarchar,
          Stepped, hvarchar, forall_const]
        rw [Stepped] at hrest
        tauto

theorem total_segments {columns : List Column} {values : List Value} (offset : Int)
    (h : List.Forall₂ (fun column value => column.columnType = Value.getTypeId value)
      columns values) (hstep : Stepped values) :
    Segment.total (fixedSegments offset (columns.zip values) ++
        payloadSegments (columns.zip values)) =
      (columns.map Column.getFixedLength).sum + (values.map payloadSize).sum := by
  induction h generalizing offset with
  | nil => rfl
  | @cons column value columns values htype _ ih =>
      have hrest := fun offset => ih offset fun v hv => hstep v (List.mem_cons_of_mem value hv)
      simp only [Segment.total_append] at hrest
      simp only [List.zip_cons_cons, fixedSegments, payloadSegments, List.map_cons, List.sum_cons]
      by_cases hinl : column.isInlined = true
      · have hne : value.getTypeId ≠ .varchar := by
          rw [← htype]
          exact (Column.isInlined_iff column).mp hinl
        have hzero : payloadSize value = 0 := by
          cases value with
          | varchar data => exact absurd rfl hne
          | boolean b => rfl
          | int v => rfl
          | decimal d => rfl
        have := hrest offset
        simp only [hinl, if_true, Segment.total_append, Segment.total_cons, hzero]
        omega
      · have hvarchar : value.getTypeId = .varchar := by
          rw [Column.isInlined_iff, not_ne_iff] at hinl
          rw [← htype, hinl]
        have hsize := (hstep value List.mem_cons_self hvarchar).2
        have := hrest (wrap32 (offset + payloadStep value))
        simp only [hinl, Bool.false_eq_true, if_false, Segment.total_append, Segment.total_cons,
          hsize] at this ⊢
        omega

theorem stepped_of_size {values : List Value} (hnull : .varchar none ∉ values)
    (hsize : (values.map payloadSize).sum ≤ int32Max) : Stepped values := by
  intro value hv hvarchar
  have hne : value ≠ .varchar none := fun heq => hnull (heq ▸ hv)
  refine ⟨hne, ?_⟩
  have hle : payloadSize value ≤ int32Max := by
    refine le_trans (List.single_le_sum ?_ _ (List.mem_map_of_mem hv)) hsize
    intro size hmem
    obtain ⟨v, -, rfl⟩ := List.mem_map.mp hmem
    exact payloadSize_nonneg v
  cases value with
  | varchar data =>
      cases data with
      | none => exact absurd rfl hne
      | some data =>
          simp only [payloadStep, payloadSize, Value.getLength, Option.getD_some, int32Max] at *
          omega
  | boolean b => cases hvarchar
  | int v => cases hvarchar
  | decimal d => cases hvarchar

theorem fixedLength_sum_nonneg (columns : List Column) :
    0 ≤ (columns.map Column.getFixedLength).sum := by
  refine List.sum_nonneg fun length hmem => ?_
  obtain ⟨column, -, rfl⟩ := List.mem_map.mp hmem
  exact column.getFixedLength_bounds.1.le

theorem encodedSize_nonneg (schema : Schema) (values : List Value) :
    0 ≤ encodedSize schema values := by
  refine add_nonneg (fixedLength_sum_nonneg _) (List.sum_nonneg fun size hmem => ?_)
  obtain ⟨value, -, rfl⟩ := List.mem_map.mp hmem
  exact payloadSize_nonneg value

theorem stepped_of_encodingFits {schema : Schema} {values : List Value}
    (h : EncodingFits schema values) : Stepped values := by
  have hsize := h.size
  have hnonneg := fixedLength_sum_nonneg schema.columns
  rw [encodedSize] at hsize
  exact stepped_of_size h.notNull (by omega)

theorem encodingFits_iff {schema : Schema} {values : List Value} (h : Matches schema values)
    (offset : Int) :
    ((∀ s ∈ fixedSegments offset (schema.columns.zip values) ++
        payloadSegments (schema.columns.zip values), Segment.Roomy s) ∧
      Segment.total (fixedSegments offset (schema.columns.zip values) ++
        payloadSegments (schema.columns.zip values)) ≤ int32Max) ↔
      EncodingFits schema values := by
  rw [roomy_segments_iff offset h]
  constructor
  · rintro ⟨⟨hwide, hstep⟩, htotal⟩
    rw [total_segments offset h hstep] at htotal
    exact ⟨hwide, fun hmem => (hstep _ hmem rfl).1 rfl, htotal⟩
  · intro hfits
    have hstep := stepped_of_encodingFits hfits
    exact ⟨⟨hfits.wide, hstep⟩, (total_segments offset h hstep).trans_le hfits.size⟩

/-! ### Reading back -/

/-- The stores have the value of the column where the column says. -/
def StoredAs (column : PlacedColumn) (value : Value) (stores : List Write) : Prop :=
  if column.isInlined then ⟨column.columnOffset, value.serialize⟩ ∈ stores
  else ∃ payload, ⟨column.columnOffset, Memory.int32Bytes payload⟩ ∈ stores ∧
    ⟨payload, value.serialize⟩ ∈ stores

theorem StoredAs.mono {column : PlacedColumn} {value : Value} {stores stores' : List Write}
    (h : StoredAs column value stores) (hsub : ∀ w ∈ stores, w ∈ stores') :
    StoredAs column value stores' := by
  by_cases hinl : column.isInlined = true
  · rw [StoredAs, if_pos hinl] at h ⊢
    exact hsub _ h
  · rw [StoredAs, if_neg hinl] at h ⊢
    obtain ⟨payload, hfixed, hpayload⟩ := h
    exact ⟨payload, hsub _ hfixed, hsub _ hpayload⟩

theorem storedAs_of_mem {offset : Int} {rows : List (PlacedColumn × Value)} {stores : List Write}
    (h : writes offset rows = some stores) {column : PlacedColumn} {value : Value}
    (hrow : (column, value) ∈ rows) : StoredAs column value stores := by
  induction rows generalizing offset stores with
  | nil => exact absurd hrow List.not_mem_nil
  | cons row rows ih =>
      obtain ⟨first, firstValue⟩ := row
      simp only [writes] at h
      by_cases hinl : first.isInlined = true
      · simp only [hinl, if_true, Option.bind_eq_bind, Option.bind_eq_some_iff,
          Option.pure_def, Option.some.injEq] at h
        obtain ⟨rest, hrest, rfl⟩ := h
        rcases List.mem_cons.mp hrow with heq | hmem
        · cases heq
          rw [StoredAs, if_pos hinl]
          exact List.mem_cons_self
        · exact (ih hrest hmem).mono fun w hw => List.mem_cons_of_mem _ hw
      · simp only [hinl, Bool.false_eq_true, if_false, Option.bind_eq_bind,
          Option.bind_eq_some_iff, Option.pure_def, Option.some.injEq] at h
        obtain ⟨len, -, rest, hrest, rfl⟩ := h
        rcases List.mem_cons.mp hrow with heq | hmem
        · cases heq
          rw [StoredAs, if_neg hinl]
          exact ⟨offset, List.mem_cons_self, List.mem_cons_of_mem _ List.mem_cons_self⟩
        · exact (ih hrest hmem).mono fun w hw =>
            List.mem_cons_of_mem _ (List.mem_cons_of_mem _ hw)

theorem exists_placedColumn (start : Int) {columns : List Column} {values : List Value}
    (h : List.Forall₂ (fun column value => column.columnType = Value.getTypeId value)
      columns values) {i : Nat} {value : Value} (hvalue : values[i]? = some value) :
    ∃ column, (Schema.place start columns).1[i]? = some column ∧
      column.columnType = value.getTypeId := by
  induction h generalizing start i with
  | nil => cases hvalue
  | @cons first firstValue columns values htype _ ih =>
      cases i with
      | zero =>
          cases hvalue
          exact ⟨_, rfl, htype⟩
      | succ i => exact ih _ hvalue

/-- A column of a tuple is read back, in the tuple or in any memory that
agrees with it on its bytes. -/
theorem valueAt_eq {heap m : Memory} {schema : Schema} {values : List Value}
    {stores : List Write} {size room : Int} {i : Nat} {value : Value}
    (h : Matches schema values)
    (hwrites : writes schema.getLength (schema.placedColumns.zip values) = some stores)
    (hinside : ∀ w ∈ stores, w.Inside size) (hapart : stores.Pairwise Write.Apart)
    (hsize : size ≤ int32Max) (hroom : size ≤ room)
    (hagree : ∀ i : Nat, (i : Int) < size → m i = heap.store stores i)
    (hvalue : values[i]? = some value) : schema.valueAt m room i = some value := by
  obtain ⟨column, hcolumn, htype⟩ := exists_placedColumn 0 h hvalue
  change schema.placedColumns[i]? = some column at hcolumn
  have hrow : (column, value) ∈ schema.placedColumns.zip values := by
    refine List.mem_of_getElem? (i := i) ?_
    rw [List.getElem?_zip_eq_some]
    exact ⟨hcolumn, hvalue⟩
  have hmem := storedAs_of_mem hwrites hrow
  simp only [Schema.valueAt, hcolumn, Option.bind_eq_bind, Option.bind_some, htype]
  by_cases hinl : column.isInlined = true
  · rw [StoredAs, if_pos hinl] at hmem
    rw [if_pos hinl]
    exact Value.deserializeFrom_store (w := ⟨_, _⟩) hinside hapart hmem hagree hroom rfl
  · rw [StoredAs, if_neg hinl] at hmem
    rw [if_neg hinl]
    obtain ⟨payload, hfixed, hpayload⟩ := hmem
    have hread := Memory.readInside_store hinside hapart hfixed hagree hroom []
      (Memory.int32Bytes payload) [] (by simp)
    rw [List.length_nil, Nat.cast_zero, add_zero, Memory.length_int32Bytes] at hread
    have hin := hinside _ hpayload
    simp only [Write.Inside] at hin
    rw [hread, Option.bind_some, wrap32_int32Bytes hin.1 (by omega)]
    exact Value.deserializeFrom_store (w := ⟨_, _⟩) hinside hapart hpayload hagree hroom rfl

theorem deserializeFrom_serializeTo (t : Tuple) (heap storage : Memory) (hpos : 0 ≤ t.size)
    (hsize : t.size ≤ int32Max) :
    (deserializeFrom heap (t.serializeTo storage)).size = t.size ∧
      Memory.AgreeOn 0 t.size.toNat (deserializeFrom heap (t.serializeTo storage)).data
        t.data := by
  have hget : (t.serializeTo storage).getInt32 0 = t.size := by
    rw [serializeTo, Memory.getInt32_memcpy_of_disjoint (by omega), Memory.getInt32_setInt32]
    · omega
    · simp only [int32Max] at hsize
      omega
  have hread : (t.serializeTo storage).read 4 t.size.toNat = t.data.read 0 t.size.toNat := by
    have := Memory.read_memcpy (storage.setInt32 0 t.size) 4 (t.data.read 0 t.size.toNat)
    rwa [Memory.length_read] at this
  refine ⟨hget, fun i _ hi => ?_⟩
  simp only [deserializeFrom, hget, hread]
  rw [Memory.memcpy_of_mem (Nat.zero_le _) (by simpa using hi), Nat.sub_zero]
  simp [Memory.read, hi]

/-! ### The round trip -/

/-- The tuple is built, with all stores inside its bytes and apart from
each other; every column reads as the value it was built from; and the
tuple comes back from storage as it was. -/
structure RoundTrips (heap : Memory) (values : List Value) (schema : Schema) : Prop where
  built : ∃ t, ofValues heap values schema = some t
  apart : ∀ stores, writes schema.getLength (schema.placedColumns.zip values) = some stores →
    stores.Pairwise Write.Apart
  getValue : ∀ t, ofValues heap values schema = some t →
    ∀ i value, values[i]? = some value → t.getValue schema i = some value
  copied : ∀ t, ofValues heap values schema = some t → ∀ heap' storage,
    (deserializeFrom heap' (t.serializeTo storage)).size = t.size ∧
      Memory.AgreeOn 0 t.size.toNat (deserializeFrom heap' (t.serializeTo storage)).data t.data

/-- The fixed-size parts, and behind them the payloads. -/
def segments (schema : Schema) (values : List Value) : List Segment :=
  fixedSegments schema.getLength (schema.columns.zip values) ++
    payloadSegments (schema.columns.zip values)

theorem exists_stores {schema : Schema} {values : List Value} (h : Matches schema values) :
    ∃ stores, writes schema.getLength (schema.placedColumns.zip values) = some stores ∧
      stores.Perm (Segment.place 0 (segments schema values)) := by
  obtain ⟨stores, hwrites, hperm⟩ := writes_perm 0 schema.getLength h
  have hlength := place_snd 0 schema.getLength h.length_eq
  change schema.getLength = _ at hlength
  refine ⟨stores, hwrites, ?_⟩
  rw [segments, Segment.place_append, ← hlength]
  exact hperm

/-- The size and the stores of the constructor, and what it makes of them. -/
theorem exists_layout {schema : Schema} {values : List Value} (h : Matches schema values) :
    ∃ size stores, size ≤ int32Max ∧
      writes schema.getLength (schema.placedColumns.zip values) = some stores ∧
      (∀ heap t, ofValues heap values schema = some t ↔
        0 ≤ size ∧ (∀ w ∈ stores, w.Inside size) ∧ t = ⟨size, heap.store stores⟩) ∧
      ((∀ w ∈ stores, w.Inside size) ∧ stores.Pairwise Write.Apart ↔
        EncodingFits schema values) ∧
      (EncodingFits schema values → size = encodedSize schema values) := by
  obtain ⟨stores, hwrites, hplace⟩ := exists_stores h
  have hlength := place_snd 0 schema.getLength h.length_eq
  change schema.getLength = _ at hlength
  have hsize := tupleSize_eq h
  rw [hlength, ← Segment.finish_append] at hsize
  rw [segments] at hplace
  have hplain := plain_segments schema.getLength h
  have hfit := encodingFits_iff h schema.getLength
  have htotals := fun hfits : EncodingFits schema values =>
    total_segments schema.getLength h (stepped_of_encodingFits hfits)
  revert hplace hsize hplain hfit htotals
  generalize fixedSegments schema.getLength (schema.columns.zip values) ++
    payloadSegments (schema.columns.zip values) = segments
  intro hplace hsize hplain hfit htotals
  have hzero : (0 : Int) ≤ int32Max := by decide
  refine ⟨Segment.finish 0 segments, stores, Segment.finish_le hzero _, hwrites, ?_, ?_, ?_⟩
  · intro heap t
    have hcount : values.length = schema.columns.length := h.length_eq.symm
    change writes schema.getLength (schema.placedColumns.zip values) = some stores at hwrites
    simp only [ofValues, hcount, hsize, hwrites, Option.bind_eq_bind, Option.bind_some, guard,
      if_true, Option.pure_def]
    split
    · rename_i hpos
      simp only [hpos, true_and, Option.bind_some]
      split
      · rename_i hinside
        simp only [Option.bind_some, Option.some.injEq]
        exact ⟨fun heq => ⟨hinside, heq.symm⟩, fun heq => heq.2.symm⟩
      · rename_i hinside
        simp [hinside]
    · rename_i hneg
      simp [hneg]
  · rw [← hfit, ← Segment.writes_fit_iff hplain,
      hplace.pairwise_iff fun hvw => Write.Apart.symm hvw]
    simp only [hplace.mem_iff]
  · intro hfits
    obtain ⟨hroomy, htotal⟩ := hfit.mpr hfits
    obtain ⟨hfinish, -⟩ := Segment.place_of_roomy le_rfl hroomy (by rwa [zero_add])
    rw [hfinish, zero_add]
    exact htotals hfits

/-- The parts of values whose columns are as long as their types step over
their bytes. -/
theorem exact_segments {columns : List Column} {values : List Value} (offset : Int)
    (h : List.Forall₂ (fun column value => column.columnType = Value.getTypeId value)
      columns values)
    (hdeclared : ∀ column ∈ columns, column.isInlined = true →
      column.columnLength = column.columnType.getTypeSize)
    (hnull : .varchar none ∉ values) :
    ∀ s ∈ fixedSegments offset (columns.zip values) ++ payloadSegments (columns.zip values),
      Segment.Exact s := by
  induction h generalizing offset with
  | nil => exact fun s hs => absurd hs List.not_mem_nil
  | @cons column value columns values htype _ ih =>
      have hrest := fun offset => ih offset (fun c hc => hdeclared c (List.mem_cons_of_mem _ hc))
        fun hmem => hnull (List.mem_cons_of_mem _ hmem)
      intro s hs
      simp only [List.zip_cons_cons, fixedSegments, payloadSegments] at hs
      by_cases hinl : column.isInlined = true
      · simp only [hinl, if_true, List.cons_append, List.mem_cons] at hs
        rcases hs with rfl | hs
        · have hne : value.getTypeId ≠ .varchar := by
            rw [← htype]
            exact (Column.isInlined_iff column).mp hinl
          intro _
          show column.getFixedLength = (value.serialize.length : Int)
          rw [Value.length_serialize hne, ← htype, Column.getFixedLength, if_pos hinl]
          exact hdeclared column List.mem_cons_self hinl
        · exact hrest offset s hs
      · simp only [hinl, Bool.false_eq_true, if_false, List.cons_append, List.mem_cons,
          List.mem_append] at hs
        rcases hs with rfl | hs | rfl | hs
        · intro _
          show column.getFixedLength = _
          rw [Column.getFixedLength, if_neg hinl]
          rfl
        · exact hrest _ s (List.mem_append_left _ hs)
        · -- a string is stored behind its length
          have hvarchar : value.getTypeId = .varchar := by
            rw [Column.isInlined_iff, not_ne_iff] at hinl
            rw [← htype, hinl]
          cases value with
          | varchar data =>
              cases data with
              | none => exact absurd List.mem_cons_self hnull
              | some data =>
                  simp only [Segment.Exact, payloadStep, Value.getLength, Option.getD_some,
                    Value.serialize, List.length_append, Memory.length_int32Bytes, int32Max]
                  omega
          | boolean b => cases hvarchar
          | int v => cases hvarchar
          | decimal d => cases hvarchar
        · exact hrest 0 s (List.mem_append_right _ hs)

/-- Where the columns are as long as their types and no VARCHAR is NULL, a
tuple that can be built is one that makes the round trip. -/
theorem encodingFits_of_built {heap : Memory} {schema : Schema} {values : List Value} {t : Tuple}
    (h : Matches schema values)
    (hdeclared : ∀ column ∈ schema.columns, column.isInlined = true →
      column.columnLength = column.columnType.getTypeSize)
    (hnull : .varchar none ∉ values) (ht : ofValues heap values schema = some t) :
    EncodingFits schema values ∧ t.size = encodedSize schema values := by
  obtain ⟨size, stores, hmax, hwrites, hbuilt, -, hsize⟩ := exists_layout h
  obtain ⟨stores', hwrites', hperm⟩ := exists_stores h
  cases hwrites.symm.trans hwrites'
  obtain ⟨hpos, hinside, rfl⟩ := (hbuilt heap t).mp ht
  obtain ⟨hroomy, htotal⟩ := Segment.roomy_of_inside ⟨le_rfl, hpos⟩ hmax
    (exact_segments schema.getLength h hdeclared hnull)
    fun w hw => hinside w (hperm.mem_iff.mpr hw)
  rw [zero_add] at htotal
  have hfits := (encodingFits_iff h schema.getLength).mp ⟨hroomy, htotal.trans hmax⟩
  exact ⟨hfits, hsize hfits⟩

/-- A tuple makes the round trip exactly if its inlined columns are as
long as their types, none of its VARCHARs is NULL, and its size is an
`int32_t`. -/
theorem roundTrips_iff (heap : Memory) (schema : Schema) (values : List Value)
    (h : Matches schema values) :
    RoundTrips heap values schema ↔ EncodingFits schema values := by
  obtain ⟨size, stores, hmax, hwrites, hbuilt, hfit, hsize⟩ := exists_layout h
  constructor
  · rintro ⟨⟨t, ht⟩, hapart, -, -⟩
    obtain ⟨-, hinside, -⟩ := (hbuilt heap t).mp ht
    exact hfit.mp ⟨hinside, hapart stores hwrites⟩
  · intro hfits
    obtain ⟨hinside, hapart⟩ := hfit.mpr hfits
    have hpos : 0 ≤ size := by
      rw [hsize hfits]
      exact encodedSize_nonneg schema values
    refine ⟨⟨_, (hbuilt heap _).mpr ⟨hpos, hinside, rfl⟩⟩, ?_, ?_, ?_⟩
    · intro stores' hwrites'
      cases hwrites.symm.trans hwrites'
      exact hapart
    · intro t ht i value hvalue
      obtain ⟨-, -, rfl⟩ := (hbuilt heap t).mp ht
      exact valueAt_eq h hwrites hinside hapart hmax le_rfl (fun _ _ => rfl) hvalue
    · intro t ht heap' storage
      obtain ⟨hnonneg, -, rfl⟩ := (hbuilt heap t).mp ht
      exact deserializeFrom_serializeTo _ heap' storage hnonneg hmax

/-- An INTEGER column and a VARCHAR column. -/
theorem roundTrips_integer_varchar :
    RoundTrips (fun _ => 0) [.int ⟨.integer, 7⟩, .varchar (some ⟨[97, 98, 0], by decide⟩)]
        ⟨[⟨.int .integer, 4, by decide, by decide⟩, ⟨.varchar, 16, by decide, by decide⟩]⟩ ↔
      EncodingFits
        ⟨[⟨.int .integer, 4, by decide, by decide⟩, ⟨.varchar, 16, by decide, by decide⟩]⟩
        [.int ⟨.integer, 7⟩, .varchar (some ⟨[97, 98, 0], by decide⟩)] :=
  roundTrips_iff _ _ _ (.cons rfl (.cons rfl .nil))

/-- A NULL in a VARCHAR column: the size counts three bytes for it, and
four are stored. -/
theorem not_roundTrips_null_varchar : ¬∀ (heap : Memory) (schema : Schema) (values : List Value),
    Matches schema values → RoundTrips heap values schema := by
  intro h
  obtain ⟨t, ht⟩ := (h (fun _ => 0) ⟨[⟨.varchar, 16, by decide, by decide⟩]⟩ [.varchar none]
    (.cons rfl .nil)).built
  have hnone : ofValues (fun _ => 0) [.varchar none]
      ⟨[⟨.varchar, 16, by decide, by decide⟩]⟩ = none := rfl
  rw [hnone] at ht
  cases ht

end Tuple

end ScuDb
