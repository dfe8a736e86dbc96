import ScuDb.Foundations.Comparator
import ScuDb.Table.TupleRoundTrip
import ScuDb.Type.Comparison

/-!
Index keys and their comparator, `generic_key.h`.

A key is a fixed number of bytes that a tuple of the key schema is copied
into. The comparator reads the columns back and compares them one by one;
a column with a NULL is passed over.
-/

namespace ScuDb

open Foundations

/-- The bytes of a `GenericKey`. -/
abbrev GenericKey := Memory

namespace GenericKey

variable (keySize : Nat)

/-- `SetFromKey`. The tuple has to fit. -/
def setFromKey (tuple : Tuple) : Option GenericKey :=
  if tuple.getLength ≤ keySize then
    some (Memory.memcpy (fun _ => 0) 0 (tuple.data.read 0 tuple.getLength.toNat))
  else none

/-- `ToValue` -/
def toValue (key : GenericKey) (schema : Schema) (columnId : Nat) : Option Value :=
  schema.valueAt key keySize columnId

end GenericKey

namespace GenericComparator

variable (keySchema : Schema) (keySize : Nat)

/-- The comparator's loop, over the columns that are left. -/
def compareColumns (lhs rhs : GenericKey) : List Nat → Option Int
  | [] => some 0
  | i :: rest => do
      let lhsValue ← lhs.toValue keySize keySchema i
      let rhsValue ← rhs.toValue keySize keySchema i
      if (← lhsValue.compareLessThan rhsValue) = .cmpTrue then return -1
      if (← lhsValue.compareGreaterThan rhsValue) = .cmpTrue then return 1
      compareColumns lhs rhs rest

/-- `operator()` -/
def compare (lhs rhs : GenericKey) : Option Int :=
  compareColumns keySchema keySize lhs rhs (List.range keySchema.columns.length)

end GenericComparator

/-! ### The keys in use -/

/-- The key schema of an index: its inlined columns are declared with the
lengths of their types. -/
structure KeySchema extends Schema where
  declared : ∀ column ∈ columns, column.isInlined = true →
    (column.columnType.getTypeSize : Int) ≤ column.columnLength
  noDecimal : ∀ column ∈ columns, column.columnType ≠ .decimal

/-- The key of a tuple of the given values; `heap` is what the bytes of the
tuple held before. -/
def keyOf (schema : KeySchema) (keySize : Nat) (heap : Memory) (values : List Value) :
    Option GenericKey :=
  (Tuple.ofValues heap values schema.toSchema).bind (GenericKey.setFromKey keySize)

/-- A tuple of the schema with values of `D` that fits in a key. -/
structure KeyTuple (D : Set Value) (schema : KeySchema) (keySize : Nat)
    (values : List Value) : Prop where
  types : Tuple.Matches schema.toSchema values
  mem : ∀ value ∈ values, value ∈ D
  fits : Tuple.encodedSize schema.toSchema values ≤ keySize
  size : Tuple.encodedSize schema.toSchema values ≤ int32Max

/-- What a comparator owes to three keys, built from `x`, `y` and `z`. -/
structure OrderLaws (cmp : GenericKey → GenericKey → Option Int) (x y : List Value)
    (kx ky kz : GenericKey) : Prop where
  refl : cmp kx kx = some 0
  swap : ∃ a, cmp kx ky = some a ∧ cmp ky kx = some (-a)
  trans : ∀ a b, cmp kx ky = some a → cmp ky kz = some b → a ≤ 0 → b ≤ 0 →
    ∃ c, cmp kx kz = some c ∧ c ≤ 0
  agree : cmp kx ky = some 0 → x = y

/-- The keys of tuples with values of `D` can be built, and are totally
preordered by the comparator, with no two equal but those of one tuple. -/
def TotallyOrders (D : Set Value) : Prop :=
  ∀ (schema : KeySchema) (keySize : Nat) (x y z : List Value) (hx hy hz : Memory),
    KeyTuple D schema keySize x → KeyTuple D schema keySize y → KeyTuple D schema keySize z →
    ∃ kx ky kz, keyOf schema keySize hx x = some kx ∧ keyOf schema keySize hy y = some ky ∧
      keyOf schema keySize hz z = some kz ∧
      OrderLaws (GenericComparator.compare schema.toSchema keySize) x y kx ky kz

/-- The values the comparator can tell apart: no NULL VARCHAR and no empty
one, no two VARCHARs that differ in the last byte only, and a NULL of
another type only where it is the one value of its type. -/
structure Distinguishable (D : Set Value) : Prop where
  notNull : .varchar none ∉ D
  nonempty : ∀ data, .varchar (some data) ∈ D → data.bytes ≠ []
  lastByte : ∀ a b, .varchar (some a) ∈ D → .varchar (some b) ∈ D →
    a.bytes.dropLast = b.bytes.dropLast → a = b
  alone : ∀ v ∈ D, ∀ w ∈ D, v.isNull = true → w.getTypeId = v.getTypeId → w = v

/-- A value that can be in a key. -/
structure KeyValue (value : Value) : Prop where
  noDecimal : value.getTypeId ≠ .decimal
  fits : 4 + Tuple.payloadSize value ≤ int32Max

/-! ### Reading a key -/

section Reading

variable {D : Set Value} {schema : KeySchema} {keySize : Nat} {values : List Value}

theorem KeyTuple.encodingFits (h : KeyTuple D schema keySize values)
    (hnull : .varchar none ∉ values) : Tuple.EncodingFits schema.toSchema values :=
  ⟨schema.declared, hnull, h.size⟩

/-- A tuple that fits has a key, and its values are read back from it. -/
theorem exists_setFromKey {schema : Schema} (htypes : Tuple.Matches schema values)
    (hfits : Tuple.EncodingFits schema values)
    (hkey : Tuple.encodedSize schema values ≤ keySize) (heap : Memory) :
    ∃ t key, Tuple.ofValues heap values schema = some t ∧
      t.getLength = Tuple.encodedSize schema values ∧
      GenericKey.setFromKey keySize t = some key ∧
      ∀ i value, values[i]? = some value →
        GenericKey.toValue keySize key schema i = some value := by
  obtain ⟨size, stores, hmax, hwrites, hbuilt, hfit, hsize⟩ := Tuple.exists_layout htypes
  obtain ⟨hinside, hapart⟩ := hfit.mpr hfits
  have hpos : 0 ≤ size := by
    rw [hsize hfits]
    exact Tuple.encodedSize_nonneg _ _
  have hroom : size ≤ keySize := by
    rw [hsize hfits]
    exact hkey
  have htuple := (hbuilt heap _).mpr ⟨hpos, hinside, rfl⟩
  have hset : GenericKey.setFromKey keySize ⟨size, heap.store stores⟩ =
      some (Memory.memcpy (fun _ => 0) 0 ((heap.store stores).read 0 size.toNat)) := by
    rw [GenericKey.setFromKey, Tuple.getLength, if_pos hroom]
  refine ⟨_, _, htuple, hsize hfits, hset, fun i value hvalue => ?_⟩
  have hagree : ∀ i : Nat, (i : Int) < size →
      Memory.memcpy (fun _ => 0) 0 ((heap.store stores).read 0 size.toNat) i =
        heap.store stores i := by
    intro i hi
    rw [Memory.memcpy_of_mem (Nat.zero_le _) (by rw [Memory.length_read]; omega), Nat.sub_zero]
    have hlt : i < size.toNat := by omega
    simp [Memory.read, hlt]
  exact Tuple.valueAt_eq htypes hwrites hinside hapart hmax hroom hagree hvalue

/-- A tuple without NULL VARCHARs has a key, and its values are read back
from it. -/
theorem exists_keyOf (h : KeyTuple D schema keySize values) (hnull : .varchar none ∉ values)
    (heap : Memory) : ∃ key, keyOf schema keySize heap values = some key ∧
      ∀ i value, values[i]? = some value →
        GenericKey.toValue keySize key schema.toSchema i = some value := by
  obtain ⟨t, key, htuple, -, hkey, hvalues⟩ :=
    exists_setFromKey h.types (h.encodingFits hnull) h.fits heap
  refine ⟨key, ?_, hvalues⟩
  rw [keyOf, htuple, Option.bind_some, hkey]

end Reading

/-! ### Comparing keys -/

section Comparing

variable {schema : Schema} {keySize : Nat} {lhs rhs : GenericKey} {x y : List Value}

/-- The comparisons of the two values are those of their ranks. -/
def RankedAlike (v w : Value) : Prop :=
  (∃ c, v.compareLessThan w = some c ∧ (c = .cmpTrue ↔ v.rank < w.rank)) ∧
    ∃ c, v.compareGreaterThan w = some c ∧ (c = .cmpTrue ↔ w.rank < v.rank)

/-- The loop over the columns is a lexicographic comparison of ranks. -/
theorem compareColumns_eq {ids : List Nat} (h : List.Forall₂ RankedAlike x y)
    (hx : List.Forall₂ (fun i v => lhs.toValue keySize schema i = some v) ids x)
    (hy : List.Forall₂ (fun i v => rhs.toValue keySize schema i = some v) ids y) :
    GenericComparator.compareColumns schema keySize lhs rhs ids =
      some (lexCompare (x.map Value.rank) (y.map Value.rank)) := by
  induction h generalizing ids with
  | nil =>
      cases hx
      rfl
  | @cons v w x y hvw _ ih =>
      cases hx with
      | @cons i _ ids _ hv hx =>
          cases hy with
          | cons hw hy =>
              obtain ⟨⟨c, hlt, hc⟩, ⟨d, hgt, hd⟩⟩ := hvw
              simp only [GenericComparator.compareColumns, hv, hw, Option.bind_eq_bind,
                Option.bind_some, hlt, hgt, List.map_cons, lexCompare, ih hx hy]
              by_cases hless : v.rank < w.rank
              · simp [hc.mpr hless, hless]
              · have hcne : c ≠ .cmpTrue := fun heq => hless (hc.mp heq)
                by_cases hmore : w.rank < v.rank
                · simp [hcne, hless, hd.mpr hmore, hmore]
                · have hdne : d ≠ .cmpTrue := fun heq => hmore (hd.mp heq)
                  simp [hcne, hless, hdne, hmore]

theorem forall₂_range {α : Type} {p : Nat → α → Prop} {l : List α}
    (h : ∀ i a, l[i]? = some a → p i a) : List.Forall₂ p (List.range l.length) l := by
  rw [List.forall₂_iff_get]
  refine ⟨by simp, fun i h₁ h₂ => ?_⟩
  simp only [List.get_eq_getElem, List.getElem_range]
  exact h i _ (List.getElem?_eq_getElem h₂)

/-- The comparison of two keys whose columns read as `x` and `y`. -/
theorem compare_eq (h : List.Forall₂ RankedAlike x y) (hlen : x.length = schema.columns.length)
    (hx : ∀ i v, x[i]? = some v → lhs.toValue keySize schema i = some v)
    (hy : ∀ i v, y[i]? = some v → rhs.toValue keySize schema i = some v) :
    GenericComparator.compare schema keySize lhs rhs =
      some (lexCompare (x.map Value.rank) (y.map Value.rank)) := by
  rw [GenericComparator.compare, ← hlen]
  refine compareColumns_eq h (forall₂_range hx) ?_
  rw [h.length_eq]
  exact forall₂_range hy

end Comparing

/-! ### Values that can be told apart -/

section Sufficient

variable {D : Set Value} (hD : ∀ v ∈ D, KeyValue v) (h : Distinguishable D)
include hD h

theorem Distinguishable.comparable {data : Varlen} (hv : .varchar (some data) ∈ D) :
    Value.Comparable data := by
  refine ⟨h.nonempty data hv, ?_⟩
  have hfits := (hD _ hv).fits
  simp only [Tuple.payloadSize] at hfits
  omega

theorem Distinguishable.rankedAlike {v w : Value} (hv : v ∈ D) (hw : w ∈ D)
    (htype : v.getTypeId = w.getTypeId) : RankedAlike v w := by
  by_cases hnull : v.isNull = true ∨ w.isNull = true
  · -- a NULL is the only value of its type
    have heq : w = v := by
      rcases hnull with hv' | hw'
      · exact h.alone v hv w hw hv' htype.symm
      · exact (h.alone w hw v hv hw' htype).symm
    subst heq
    have hc : ∀ op, Value.compareFunc op w w = some .cmpNull :=
      fun op => Value.compareFunc_of_isNull hnull
    exact ⟨⟨_, hc _, by simp⟩, ⟨_, hc _, by simp⟩⟩
  · rw [not_or, Bool.not_eq_true, Bool.not_eq_true] at hnull
    refine Value.compare_rank htype (hD v hv).noDecimal hnull.1 hnull.2 ?_ ?_
    · rintro data rfl
      exact h.comparable hD hv
    · rintro data rfl
      exact h.comparable hD hw

omit hD in
theorem Distinguishable.rank_inj {v w : Value} (hv : v ∈ D) (hw : w ∈ D)
    (htype : v.getTypeId = w.getTypeId) (hdecimal : v.getTypeId ≠ .decimal)
    (hrank : v.rank = w.rank) : v = w := by
  cases v with
  | boolean a =>
      cases w with
      | boolean b =>
          simp only [Value.rank, List.cons.injEq, and_true] at hrank
          rw [BitVec.toInt_inj.mp hrank]
      | int b => cases htype
      | decimal b => cases htype
      | varchar b => cases htype
  | int a =>
      cases w with
      | int b =>
          obtain ⟨ta, a⟩ := a
          obtain ⟨tb, b⟩ := b
          cases htype
          simp only [Value.rank, IntegerValue.getAs, List.cons.injEq, and_true] at hrank
          rw [BitVec.toInt_inj.mp hrank]
      | boolean b => cases htype
      | decimal b => cases htype
      | varchar b => cases htype
  | decimal a => exact absurd rfl hdecimal
  | varchar a =>
      cases w with
      | boolean b => cases htype
      | int b => cases htype
      | decimal b => cases htype
      | varchar b =>
          cases a with
          | none => exact absurd hv h.notNull
          | some a =>
              cases b with
              | none => exact absurd hw h.notNull
              | some b => rw [h.lastByte a b hv hw (byteRank_inj hrank)]

theorem Distinguishable.forall₂ {columns : List Column} {x y : List Value}
    (hx : List.Forall₂ (fun c v => c.columnType = Value.getTypeId v) columns x)
    (hy : List.Forall₂ (fun c v => c.columnType = Value.getTypeId v) columns y)
    (hxD : ∀ v ∈ x, v ∈ D) (hyD : ∀ v ∈ y, v ∈ D) :
    List.Forall₂ RankedAlike x y ∧ (x.map Value.rank = y.map Value.rank → x = y) := by
  induction hx generalizing y with
  | nil =>
      cases hy
      exact ⟨.nil, fun _ => rfl⟩
  | @cons c v columns x hv _ ih =>
      cases hy with
      | @cons _ w _ y hw hy =>
          rw [List.forall_mem_cons] at hxD hyD
          have htype : v.getTypeId = w.getTypeId := hv.symm.trans hw
          obtain ⟨hrest, hinj⟩ := ih hy hxD.2 hyD.2
          refine ⟨.cons (h.rankedAlike hD hxD.1 hyD.1 htype) hrest, fun heq => ?_⟩
          rw [List.map_cons, List.map_cons, List.cons.injEq] at heq
          rw [h.rank_inj hxD.1 hyD.1 htype (hD v hxD.1).noDecimal heq.1, hinj heq.2]

theorem Distinguishable.totallyOrders : TotallyOrders D := by
  intro schema keySize x y z hx hy hz tx ty tz
  have hnull : ∀ {values}, KeyTuple D schema keySize values → .varchar none ∉ values :=
    fun ht hmem => h.notNull (ht.mem _ hmem)
  obtain ⟨kx, hkx, hreadx⟩ := exists_keyOf tx (hnull tx) hx
  obtain ⟨ky, hky, hready⟩ := exists_keyOf ty (hnull ty) hy
  obtain ⟨kz, hkz, hreadz⟩ := exists_keyOf tz (hnull tz) hz
  have hcompare : ∀ {a b : List Value} {ka kb : GenericKey}, KeyTuple D schema keySize a →
      KeyTuple D schema keySize b →
      (∀ i v, a[i]? = some v → GenericKey.toValue keySize ka schema.toSchema i = some v) →
      (∀ i v, b[i]? = some v → GenericKey.toValue keySize kb schema.toSchema i = some v) →
      GenericComparator.compare schema.toSchema keySize ka kb =
        some (lexCompare (a.map Value.rank) (b.map Value.rank)) :=
    fun ta tb ha hb => compare_eq (h.forall₂ hD ta.types tb.types ta.mem tb.mem).1
      ta.types.length_eq.symm ha hb
  have hlen : ∀ {a b : List Value}, KeyTuple D schema keySize a → KeyTuple D schema keySize b →
      (a.map Value.rank).length = (b.map Value.rank).length := by
    intro a b ta tb
    rw [List.length_map, List.length_map, ← ta.types.length_eq, ← tb.types.length_eq]
  have hxy := hcompare tx ty hreadx hready
  refine ⟨kx, ky, kz, hkx, hky, hkz, ?_, ⟨_, hxy, ?_⟩, ?_, ?_⟩
  · rw [hcompare tx tx hreadx hreadx, lexCompare_self]
  · rw [hcompare ty tx hready hreadx, lexCompare_swap]
  · intro a b ha hb hapos hbpos
    cases hxy.symm.trans ha
    cases (hcompare ty tz hready hreadz).symm.trans hb
    exact ⟨_, hcompare tx tz hreadx hreadz,
      lexCompare_trans (hlen tx ty) (hlen ty tz) hapos hbpos⟩
  · intro hzero
    have heq := Option.some.inj (hxy.symm.trans hzero)
    exact (h.forall₂ hD tx.types ty.types tx.mem ty.mem).2
      (eq_of_lexCompare_eq_zero (hlen tx ty) heq)

end Sufficient

section Necessary

/-- The schema of a key of one column. -/
def singleColumn (t : TypeId) (h : t ≠ .decimal) : KeySchema where
  columns := [{
    columnType := t
    columnLength := t.getTypeSize
    length_le := by cases t with
      | int type => cases type <;> decide
      | _ => decide
    length_pos := by cases t with
      | int type => cases type <;> decide
      | varchar => exact fun hne => absurd rfl hne
      | _ => decide }]
  declared := by
    intro column hmem _
    rw [List.mem_singleton.mp hmem]
  noDecimal := by
    intro column hmem
    rw [List.mem_singleton.mp hmem]
    exact h

variable {D : Set Value}

theorem keyTuple_singleColumn {t : TypeId} {h : t ≠ .decimal} {v : Value} (hmem : v ∈ D)
    (hv : KeyValue v) (htype : v.getTypeId = t) :
    KeyTuple D (singleColumn t h) 2147483647 [v] := by
  have hsize : Tuple.encodedSize (singleColumn t h).toSchema [v] ≤ int32Max := by
    have hfits := hv.fits
    have heq : Tuple.encodedSize (singleColumn t h).toSchema [v] =
        (if t = .varchar then 4 else (t.getTypeSize : Int)) + Tuple.payloadSize v := by
      by_cases ht : t = .varchar <;>
        simp [Tuple.encodedSize, singleColumn, Column.getFixedLength, Column.isInlined, ht]
    rw [heq]
    subst htype
    cases v with
    | int v =>
        obtain ⟨type, value⟩ := v
        cases type <;>
          simp [Value.getTypeId, TypeId.getTypeSize, IntegerTypeId.getTypeSize, Tuple.payloadSize,
            int32Max]
    | boolean b => simp [Value.getTypeId, TypeId.getTypeSize, Tuple.payloadSize, int32Max]
    | decimal d => exact absurd rfl h
    | varchar data => simpa [Value.getTypeId] using hfits
  refine ⟨.cons htype.symm .nil, ?_, hsize, hsize⟩
  intro w hw
  rw [List.mem_singleton.mp hw]
  exact hmem

theorem compare_singleColumn {t : TypeId} {h : t ≠ .decimal} {kx ky : GenericKey} {n : Nat}
    {v w : Value} (hx : kx.toValue n (singleColumn t h).toSchema 0 = some v)
    (hy : ky.toValue n (singleColumn t h).toSchema 0 = some w) :
    GenericComparator.compare (singleColumn t h).toSchema n kx ky = (do
      if (← v.compareLessThan w) = .cmpTrue then return -1
      if (← v.compareGreaterThan w) = .cmpTrue then return 1
      some 0) := by
  have hrange : List.range (singleColumn t h).toSchema.columns.length = [0] := rfl
  simp only [GenericComparator.compare, hrange, GenericComparator.compareColumns, hx, hy,
    Option.bind_eq_bind, Option.bind_some]

/-- Two values of one type whose comparisons are not true are the same. -/
theorem TotallyOrders.eq_of_not_less (h : TotallyOrders D) {v w : Value} (hv : v ∈ D) (hw : w ∈ D)
    (hkv : KeyValue v) (hkw : KeyValue w) (htype : w.getTypeId = v.getTypeId)
    (hnv : v ≠ .varchar none) (hnw : w ≠ .varchar none) {c d : CmpBool}
    (hlt : v.compareLessThan w = some c) (hc : c ≠ .cmpTrue)
    (hgt : v.compareGreaterThan w = some d) (hd : d ≠ .cmpTrue) : v = w := by
  have tv := keyTuple_singleColumn (h := hkv.noDecimal) hv hkv rfl
  have tw := keyTuple_singleColumn (h := hkv.noDecimal) hw hkw htype
  obtain ⟨kx, ky, kz, hkx, hky, -, hlaws⟩ :=
    h _ _ [v] [w] [v] (fun _ => 0) (fun _ => 0) (fun _ => 0) tv tw tv
  obtain ⟨kx', hkx', hreadx⟩ := exists_keyOf tv
    (fun hmem => hnv (List.mem_singleton.mp hmem).symm) fun _ => 0
  obtain ⟨ky', hky', hready⟩ := exists_keyOf tw
    (fun hmem => hnw (List.mem_singleton.mp hmem).symm) fun _ => 0
  cases hkx.symm.trans hkx'
  cases hky.symm.trans hky'
  have hzero := compare_singleColumn (hreadx 0 v rfl) (hready 0 w rfl)
  simp only [hlt, hgt, Option.bind_eq_bind, Option.bind_some, hc, hd, if_false] at hzero
  exact (List.cons.inj (hlaws.agree hzero)).1

theorem TotallyOrders.distinguishable (hD : ∀ v ∈ D, KeyValue v) (h : TotallyOrders D) :
    Distinguishable D := by
  have hnull : .varchar none ∉ D := by
    intro hmem
    have ht := keyTuple_singleColumn (t := .varchar) (h := by decide) hmem (hD _ hmem) rfl
    obtain ⟨kx, -, -, hkx, -⟩ :=
      h _ _ [.varchar none] [.varchar none] [.varchar none] (fun _ => 0) (fun _ => 0) (fun _ => 0)
        ht ht ht
    have hnone : keyOf (singleColumn .varchar (by decide)) 2147483647 (fun _ => 0)
        [.varchar none] = none := rfl
    rw [hnone] at hkx
    cases hkx
  have hempty : ∀ data, .varchar (some data) ∈ D → data.bytes ≠ [] := by
    intro data hmem hnil
    have ht := keyTuple_singleColumn (t := .varchar) (h := by decide) hmem (hD _ hmem) rfl
    obtain ⟨kx, _, _, hkx, -, -, hlaws⟩ := h _ _ [.varchar (some data)] [.varchar (some data)]
      [.varchar (some data)] (fun _ => 0) (fun _ => 0) (fun _ => 0) ht ht ht
    obtain ⟨kx', hkx', hread⟩ := exists_keyOf ht (by simp) fun _ => 0
    cases hkx.symm.trans hkx'
    have hrefl := hlaws.refl
    rw [compare_singleColumn (hread 0 _ rfl) (hread 0 _ rfl)] at hrefl
    -- the comparison asserts that the length less one is not negative
    have hassert : (Value.varchar (some data)).compareLessThan (.varchar (some data)) = none := by
      simp [Value.compareLessThan, Value.compareFunc, Value.isNull, TypeUtil.compareStrings, hnil,
        wrap32]
    rw [hassert] at hrefl
    cases hrefl
  refine ⟨hnull, hempty, ?_, ?_⟩
  · intro a b ha hb heq
    have hcomparable : ∀ {data}, .varchar (some data) ∈ D → Value.Comparable data := by
      intro data hmem
      have hfits := (hD _ hmem).fits
      simp only [Tuple.payloadSize] at hfits
      exact ⟨hempty data hmem, by omega⟩
    obtain ⟨⟨c, hlt, hc⟩, ⟨d, hgt, hd⟩⟩ := Value.compare_rank
      (show (Value.varchar (some a)).getTypeId = (Value.varchar (some b)).getTypeId from rfl)
      (by simp [Value.getTypeId]) rfl rfl
      (fun data hdata => by cases hdata; exact hcomparable ha)
      (fun data hdata => by cases hdata; exact hcomparable hb)
    have hrank : (Value.varchar (some a)).rank = (Value.varchar (some b)).rank := by
      simp only [Value.rank, heq]
    rw [hrank] at hc hd
    have hsame := h.eq_of_not_less ha hb (hD _ ha) (hD _ hb) rfl (by simp) (by simp) hlt
      (fun htrue => lt_irrefl _ (hc.mp htrue)) hgt (fun htrue => lt_irrefl _ (hd.mp htrue))
    cases hsame
    rfl
  · intro v hv w hw hvnull htype
    have hc : ∀ op, Value.compareFunc op v w = some .cmpNull :=
      fun op => Value.compareFunc_of_isNull (Or.inl hvnull)
    refine (h.eq_of_not_less hv hw (hD v hv) (hD w hw) htype ?_ ?_ (hc _) (by decide) (hc _)
      (by decide)).symm
    · rintro rfl
      exact hnull hv
    · rintro rfl
      exact hnull hw

end Necessary

/-- The comparator orders the keys over a set of values totally exactly if
it can tell the values apart. -/
theorem totallyOrders_iff (D : Set Value) (hD : ∀ v ∈ D, KeyValue v) :
    TotallyOrders D ↔ Distinguishable D :=
  ⟨fun h => h.distinguishable hD, fun h => h.totallyOrders hD⟩

/-- Two integers and the string "a". -/
theorem totallyOrders_integers_and_string :
    TotallyOrders {.int ⟨.integer, 1⟩, .int ⟨.integer, -5⟩, .varchar (some ⟨[97, 0], by decide⟩)} ↔
      Distinguishable
        {.int ⟨.integer, 1⟩, .int ⟨.integer, -5⟩, .varchar (some ⟨[97, 0], by decide⟩)} := by
  refine totallyOrders_iff _ ?_
  rintro v (rfl | rfl | rfl) <;> exact ⟨by simp [Value.getTypeId], by decide⟩

/-- The least INTEGER is a NULL, and compares as equal to any other. -/
theorem not_totallyOrders_null_integer :
    ¬∀ D : Set Value, (∀ v ∈ D, KeyValue v) → TotallyOrders D := by
  intro h
  have hkey : ∀ v ∈ ({.int ⟨.integer, BitVec.intMin 32⟩, .int ⟨.integer, 0⟩} : Set Value),
      KeyValue v := by
    rintro v (rfl | rfl) <;> exact ⟨by simp [Value.getTypeId], by decide⟩
  have heq := (h _ hkey).eq_of_not_less (v := .int ⟨.integer, BitVec.intMin 32⟩)
    (w := .int ⟨.integer, 0⟩) (Or.inl rfl) (Or.inr rfl) (hkey _ (Or.inl rfl)) (hkey _ (Or.inr rfl))
    rfl (by decide) (by decide) (c := .cmpNull) (d := .cmpNull) (by decide) (by decide) (by decide)
    (by decide)
  exact absurd heq (by decide)

end ScuDb
