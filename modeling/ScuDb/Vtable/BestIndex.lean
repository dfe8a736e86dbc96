import Mathlib.Data.List.Nodup
import ScuDb.Catalog.Schema
import ScuDb.Common.Config

/-!
Planning a point query and running it, `VtabBestIndex`, `VtabFilter` and
`ConstructTuple` of `virtual_table.cpp`.

The planner numbers the arguments it wants in the order of the
constraints, the filter reads them in the order of the key. The two
orders agree if the predicate lists the columns of the key one by one, as
the index does; the planner takes any order and any repetition.
-/

namespace ScuDb

/-- A text as `sqlite3_value_text` gives it, without its terminator. -/
structure SqliteText where
  bytes : List UInt8
  short : bytes.length + 1 < valueNull

/-- An `sqlite3_value`, by what the four functions make of it that
`ConstructTuple` reads values with. A NULL has no text. -/
structure SqliteValue where
  int : BitVec 32
  int64 : BitVec 64
  double : BitVec 64
  text : Option SqliteText

/-- What the planner uses of an `IndexMetadata`. The columns of the key
are columns of the table. -/
structure IndexMetadata where
  tupleSchema : Schema
  keyAttrs : List (Fin tupleSchema.columns.length)

/-- `GetKeySchema()`, which `CopySchema` makes -/
def IndexMetadata.keySchema (index : IndexMetadata) : Schema :=
  ⟨index.keyAttrs.map index.tupleSchema.columns.get⟩

/-- An entry of `aConstraint`. The column of the rowid is -1. -/
structure IndexConstraint where
  iColumn : Int
  op : UInt8
  usable : UInt8
  deriving DecidableEq

/-- `SQLITE_INDEX_CONSTRAINT_EQ` -/
def sqliteIndexConstraintEq : UInt8 := 2

/-- An `sqlite3_index_info`: the constraints, and with `aConstraintUsage`
and `idxNum` what the planner answers. -/
structure IndexInfo where
  aConstraint : List IndexConstraint
  argvIndex : List Nat
  idxNum : Nat

/-- What SQLite calls the planner with. -/
def IndexInfo.ofConstraints (constraints : List IndexConstraint) : IndexInfo :=
  ⟨constraints, List.replicate constraints.length 0, 0⟩

/-! ### The planner -/

/-- The local variables of `VtabBestIndex` in its loop. -/
structure Examined where
  argvIndex : List Nat
  counter : Nat
  isIndexScan : Bool

/-- The loop of `VtabBestIndex`, from constraint `i` on. -/
def examine (keyAttrs : List Int) : List IndexConstraint → Nat → Examined → Examined
  | [], _, s => s
  | constraint :: rest, i, s =>
      if constraint.usable = 0 then examine keyAttrs rest (i + 1) s
      else if constraint.iColumn ∈ keyAttrs then
        if constraint.op ≠ sqliteIndexConstraintEq then { s with isIndexScan := false }
        else
          examine keyAttrs rest (i + 1)
            { s with argvIndex := s.argvIndex.set i (i + 1), counter := s.counter + 1 }
      else examine keyAttrs rest (i + 1) s

/-- `GetKeyAttrs()` -/
def IndexMetadata.getKeyAttrs (index : IndexMetadata) : List Int :=
  index.keyAttrs.map fun attr => (attr.val : Int)

def vtabBestIndex (index : Option IndexMetadata) (info : IndexInfo) : IndexInfo :=
  match index with
  | none => info
  | some index =>
      if info.aConstraint.length ≠ index.keyAttrs.length then info
      else
        let s := examine index.getKeyAttrs info.aConstraint 0 ⟨info.argvIndex, 0, true⟩
        { info with
          argvIndex := s.argvIndex
          idxNum := if s.counter = index.keyAttrs.length ∧ s.isIndexScan then 1 else info.idxNum }

/-! ### The filter -/

/-- The value `ConstructTuple` makes for a column of a type, as the
constructor of `Value` stores it. A `std::string` is not made from a null
pointer. -/
def constructValue (type : TypeId) (v : SqliteValue) : Except Fault Value :=
  match type with
  | .boolean => .ok (.boolean (v.int.setWidth 8))
  | .int .bigint => .ok (.int ⟨.bigint, v.int64⟩)
  | .int type => .ok (.int ⟨type, v.int.setWidth _⟩)
  | .decimal => .ok (.decimal v.double)
  | .varchar =>
      match v.text with
      | none => .error .outOfBounds
      | some text => .ok (.varchar (some ⟨text.bytes ++ [0], by simpa using text.short⟩))

/-- The loop of `ConstructTuple`, from a column and an argument on. -/
def constructValues : List Column → List SqliteValue → Except Fault (List Value)
  | [], _ => .ok []
  | _ :: _, [] => .error .outOfBounds
  | column :: columns, v :: argv => do
      let value ← constructValue column.columnType v
      let values ← constructValues columns argv
      .ok (value :: values)

/-- `ConstructTuple`: the values the tuple is made from. -/
def constructTuple (schema : Schema) (argv : List SqliteValue) : Except Fault (List Value) :=
  constructValues schema.columns argv

/-- `VtabFilter`: the key it scans for, if it uses the index. -/
def vtabFilter (index : IndexMetadata) (idxNum : Nat) (argv : List SqliteValue) :
    Except Fault (Option (List Value)) :=
  if idxNum = 1 then do
    let scanTuple ← constructTuple index.keySchema argv
    .ok (some scanTuple)
  else .ok none

theorem constructValues_get {columns : List Column} {argv : List SqliteValue} {values : List Value}
    (h : constructValues columns argv = .ok values) {j : Nat} {column : Column} {v : SqliteValue}
    (hcolumn : columns[j]? = some column) (hv : argv[j]? = some v) :
    ∃ value, constructValue column.columnType v = .ok value ∧ values[j]? = some value := by
  induction columns, argv using constructValues.induct generalizing values j with
  | case1 argv => simp at hcolumn
  | case2 first columns => simp at hv
  | case3 first columns w argv ih =>
      rw [constructValues] at h
      cases hfirst : constructValue first.columnType w with
      | error e => simp [hfirst, Bind.bind, Except.bind] at h
      | ok x =>
          cases hrest : constructValues columns argv with
          | error e => simp [hfirst, hrest, Bind.bind, Except.bind] at h
          | ok xs =>
              simp only [hfirst, hrest, Bind.bind, Except.bind, Except.ok.injEq] at h
              subst h
              cases j with
              | zero =>
                  rw [List.getElem?_cons_zero, Option.some.injEq] at hcolumn hv
                  subst hcolumn hv
                  exact ⟨x, hfirst, rfl⟩
              | succ j =>
                  rw [List.getElem?_cons_succ] at hcolumn hv ⊢
                  exact ih hrest hcolumn hv

theorem exists_constructValue (type : TypeId) {v : SqliteValue} (h : v.text ≠ none) :
    ∃ value, constructValue type v = .ok value := by
  obtain ⟨text, htext⟩ := Option.ne_none_iff_exists'.mp h
  unfold constructValue
  split <;> simp [htext]

theorem exists_constructValues {columns : List Column} {argv : List SqliteValue}
    (hlen : columns.length ≤ argv.length) (htext : ∀ v ∈ argv, v.text ≠ none) :
    ∃ values, constructValues columns argv = .ok values := by
  induction columns, argv using constructValues.induct with
  | case1 argv => exact ⟨[], by rw [constructValues]⟩
  | case2 first columns => simp at hlen
  | case3 first columns w argv ih =>
      rw [List.forall_mem_cons] at htext
      obtain ⟨x, hx⟩ := exists_constructValue first.columnType htext.1
      obtain ⟨xs, hxs⟩ := ih (by simpa using hlen) htext.2
      exact ⟨x :: xs, by simp [constructValues, hx, hxs, Bind.bind, Except.bind]⟩

/-! ### What the planner asks for -/

/-- A constraint the loop counts. -/
def IndexConstraint.IsKeyEquality (constraint : IndexConstraint) (keyAttrs : List Int) : Prop :=
  constraint.usable ≠ 0 ∧ constraint.iColumn ∈ keyAttrs ∧
    constraint.op = sqliteIndexConstraintEq

theorem examine_counter_le (keyAttrs : List Int) (constraints : List IndexConstraint) (i : Nat)
    (s : Examined) :
    (examine keyAttrs constraints i s).counter ≤ s.counter + constraints.length := by
  induction constraints generalizing i s with
  | nil => exact le_rfl
  | cons constraint rest ih =>
      have hskip := ih (i + 1) s
      have hcount := ih (i + 1)
        { s with argvIndex := s.argvIndex.set i (i + 1), counter := s.counter + 1 }
      simp only [examine, List.length_cons]
      split_ifs
      · omega
      · exact Nat.le_add_right _ _
      · simp only at hcount
        omega
      · omega

/-- The counter reaches the number of constraints only if every one of
them counts. -/
theorem examine_all_iff (keyAttrs : List Int) (constraints : List IndexConstraint) (i : Nat)
    (s : Examined) (hscan : s.isIndexScan = true) :
    ((examine keyAttrs constraints i s).counter = s.counter + constraints.length ∧
        (examine keyAttrs constraints i s).isIndexScan = true) ↔
      ∀ c ∈ constraints, c.IsKeyEquality keyAttrs := by
  induction constraints generalizing i s with
  | nil => simp [examine, hscan]
  | cons constraint rest ih =>
      have hskip := examine_counter_le keyAttrs rest (i + 1) s
      have hcount := ih (i + 1)
        { s with argvIndex := s.argvIndex.set i (i + 1), counter := s.counter + 1 } hscan
      rw [List.forall_mem_cons, ← hcount]
      simp only [examine, List.length_cons, IndexConstraint.IsKeyEquality]
      split_ifs with husable hcolumn hop
      · exact ⟨fun h => absurd h.1 (by omega), fun h => absurd husable h.1.1⟩
      · exact ⟨fun h => absurd h.2 id, fun h => absurd h.1.2.2 hop⟩
      · rw [not_not] at hop
        rw [show s.counter + (rest.length + 1) = s.counter + 1 + rest.length by omega]
        exact ⟨fun h => ⟨⟨husable, hcolumn, hop⟩, h⟩, fun h => h.2⟩
      · exact ⟨fun h => absurd h.1 (by omega), fun h => absurd h.1.2.1 hcolumn⟩

/-- Constraints that all count have the arguments in their own order. -/
theorem examine_argvIndex {keyAttrs : List Int} {constraints : List IndexConstraint}
    (h : ∀ c ∈ constraints, c.IsKeyEquality keyAttrs) (i : Nat) (s : Examined)
    (hlen : i + constraints.length = s.argvIndex.length) (k : Nat) :
    (examine keyAttrs constraints i s).argvIndex[k]? =
      if i ≤ k ∧ k < s.argvIndex.length then some (k + 1) else s.argvIndex[k]? := by
  induction constraints generalizing i s with
  | nil =>
      rw [List.length_nil] at hlen
      rw [examine, if_neg (by omega)]
  | cons constraint rest ih =>
      rw [List.forall_mem_cons] at h
      obtain ⟨⟨husable, hcolumn, hop⟩, hrest⟩ := h
      rw [List.length_cons] at hlen
      simp only [examine, if_neg husable, if_pos hcolumn, hop, ne_eq, not_true, if_false]
      rw [ih hrest (i + 1) _ (by rw [List.length_set]; omega)]
      simp only [List.length_set, List.getElem?_set]
      split_ifs <;> first | rfl | omega | (congr 1; omega)

namespace IndexMetadata

variable (index : IndexMetadata) (constraints : List IndexConstraint)

/-- What SQLite gets from the planner for a list of constraints. -/
def plan : IndexInfo := vtabBestIndex (some index) (IndexInfo.ofConstraints constraints)

/-- The constraints the planner takes: as many as the key has columns,
each of them a usable equality on one of these. -/
def Answers : Prop :=
  constraints.length = index.keyAttrs.length ∧
    ∀ c ∈ constraints, c.IsKeyEquality index.getKeyAttrs

@[simp] theorem length_getKeyAttrs : index.getKeyAttrs.length = index.keyAttrs.length := by
  rw [getKeyAttrs, List.length_map]

@[simp] theorem length_keySchema : index.keySchema.columns.length = index.keyAttrs.length := by
  rw [keySchema, List.length_map]

theorem plan_idxNum : (index.plan constraints).idxNum = 1 ↔ index.Answers constraints := by
  have hall := examine_all_iff index.getKeyAttrs constraints 0
    ⟨List.replicate constraints.length 0, 0, true⟩ rfl
  rw [Nat.zero_add] at hall
  unfold plan vtabBestIndex IndexInfo.ofConstraints Answers
  dsimp only
  split_ifs with hlen hscan
  · exact ⟨fun h => h.elim, fun h => absurd h.1 hlen⟩
  · rw [not_not] at hlen
    rw [← hlen] at hscan
    exact ⟨fun _ => ⟨hlen, hall.mp hscan⟩, fun _ => rfl⟩
  · rw [not_not] at hlen
    rw [← hlen] at hscan
    exact ⟨fun h => h.elim, fun h => absurd (hall.mpr h.2) hscan⟩

theorem plan_argvIndex (h : index.Answers constraints) (k : Nat) :
    (index.plan constraints).argvIndex[k]? =
      if k < constraints.length then some (k + 1) else none := by
  unfold plan vtabBestIndex IndexInfo.ofConstraints
  dsimp only
  rw [if_neg (not_not.mpr h.1)]
  dsimp only
  rw [examine_argvIndex h.2 0 _ (by simp)]
  split_ifs <;> simp_all

/-! ### Where planner and filter agree -/

/-- SQLite's part: `argv[k - 1]` is the right-hand value of the constraint
whose `argvIndex` is `k`. -/
def Passes (argvIndex : List Nat) (rhs : Nat → SqliteValue) (argv : List SqliteValue) : Prop :=
  ∀ i k, argvIndex[i]? = some (k + 1) → argv[k]? = some (rhs i)

/-- A usable equality on the column that has position `j` in the key. -/
def Constrains (j : Fin index.keyAttrs.length) (c : IndexConstraint) : Prop :=
  c.usable ≠ 0 ∧ c.op = sqliteIndexConstraintEq ∧ c.iColumn = ((index.keyAttrs.get j : Nat) : Int)

/-- In a key the filter builds, position `j` holds the value of
constraint `i`, whatever the values are. -/
def Holds (j : Fin index.keyAttrs.length) (i : Nat) : Prop :=
  ∀ rhs argv key, Passes (index.plan constraints).argvIndex rhs argv →
    vtabFilter index (index.plan constraints).idxNum argv = .ok (some key) →
    ∃ value, constructValue (index.tupleSchema.columns.get (index.keyAttrs.get j)).columnType
      (rhs i) = .ok value ∧ key[(j : Nat)]? = some value

/-- Planner and filter agree on the key: when the index is used, each
position of the key has exactly one usable equality on its column, and
holds the value of that one. -/
def KeyAgrees : Prop :=
  (index.plan constraints).idxNum = 1 → ∀ j : Fin index.keyAttrs.length,
    ∃ i, (∀ k (c : IndexConstraint), constraints[k]? = some c → (index.Constrains j c ↔ k = i)) ∧
      i < constraints.length ∧ index.Holds constraints j i

section

variable {index constraints}

/-- Constraints in the order of the key: the filter finds at a position of
the key what the planner asked for there. -/
theorem KeyAgrees.of_ordered
    (h : constraints.map (·.iColumn) = index.getKeyAttrs ∧ index.keyAttrs.Nodup) :
    index.KeyAgrees constraints := by
  obtain ⟨hordered, hnodup⟩ := h
  intro hplan j
  have hanswers := (plan_idxNum index constraints).mp hplan
  have hj : (j : Nat) < constraints.length := hanswers.1.symm ▸ j.isLt
  have hcolumn : ∀ k c, constraints[k]? = some c →
      ∃ hk : k < index.keyAttrs.length, c.iColumn = ((index.keyAttrs[k] : Nat) : Int) := by
    intro k c hc
    have hk : k < index.keyAttrs.length := by
      rw [← hanswers.1]
      exact (List.getElem?_eq_some_iff.mp hc).1
    have hmap : (constraints.map (·.iColumn))[k]? = some c.iColumn := by simp [hc]
    rw [hordered, getKeyAttrs, List.getElem?_map, List.getElem?_eq_getElem hk] at hmap
    exact ⟨hk, by simpa using hmap.symm⟩
  refine ⟨j, fun k c hc => ?_, hj, ?_⟩
  · obtain ⟨hk, hkey⟩ := hcolumn k c hc
    have hcounted := hanswers.2 c (List.mem_of_getElem? hc)
    constructor
    · rintro ⟨-, -, hsame⟩
      rw [hkey, Int.natCast_inj, Fin.val_inj] at hsame
      exact (List.Nodup.getElem_inj_iff hnodup).mp hsame
    · rintro rfl
      exact ⟨hcounted.1, hcounted.2.2, hkey⟩
  · intro rhs argv key hpasses hfilter
    have hv := hpasses j j ((plan_argvIndex index constraints hanswers j).trans (if_pos hj))
    rw [hplan, vtabFilter, if_pos rfl] at hfilter
    cases htuple : constructTuple index.keySchema argv with
    | error e => simp [htuple, Bind.bind, Except.bind] at hfilter
    | ok values =>
        simp only [htuple, Bind.bind, Except.bind, Except.ok.injEq, Option.some.injEq] at hfilter
        subst hfilter
        exact constructValues_get htuple (by simp [keySchema]) hv

end

end IndexMetadata

/-! ### Values that tell positions apart -/

/-- A value that is different, for each type, for each of the numbers zero
and one. -/
def SqliteValue.ofBit (b : Bool) : SqliteValue :=
  ⟨if b then 1 else 0, if b then 1 else 0, if b then 1 else 0,
    some ⟨if b then [1] else [], by cases b <;> decide⟩⟩

theorem constructValue_ofBit_inj (type : TypeId) {b c : Bool}
    (h : constructValue type (.ofBit b) = constructValue type (.ofBit c)) : b = c := by
  cases b <;> cases c <;> first
    | rfl
    | (exfalso; revert h; cases type with
        | int t => cases t <;> decide
        | _ => decide)

namespace IndexMetadata

section

variable {index : IndexMetadata} {constraints : List IndexConstraint}

theorem eq_of_holds (h : index.Answers constraints) {j : Fin index.keyAttrs.length} {i : Nat}
    (hholds : index.Holds constraints j i) : i = j := by
  let rhs : Nat → SqliteValue := fun k => .ofBit (decide (k = (j : Nat)))
  let argv := (List.range constraints.length).map rhs
  have hget : ∀ k, k < constraints.length → argv[k]? = some (rhs k) := fun k hk => by
    simp [argv, hk]
  have hpasses : Passes (index.plan constraints).argvIndex rhs argv := by
    intro k m hk
    rw [plan_argvIndex index constraints h] at hk
    split_ifs at hk with hlt
    rw [Option.some.injEq, Nat.add_right_cancel_iff] at hk
    subst hk
    exact hget k hlt
  have hlen : index.keySchema.columns.length ≤ argv.length := by simp [argv, h.1]
  have htext : ∀ v ∈ argv, v.text ≠ none := by simp [argv, rhs, SqliteValue.ofBit]
  obtain ⟨values, hvalues⟩ := exists_constructValues hlen htext
  have hfilter : vtabFilter index (index.plan constraints).idxNum argv = .ok (some values) := by
    rw [(plan_idxNum index constraints).mpr h, vtabFilter, if_pos rfl, constructTuple, hvalues]
    rfl
  obtain ⟨value, hmade, hheld⟩ := hholds rhs argv values hpasses hfilter
  have hj : (j : Nat) < constraints.length := h.1.symm ▸ j.isLt
  have hcolumn : index.keySchema.columns[(j : Nat)]? =
      some (index.tupleSchema.columns.get (index.keyAttrs.get j)) := by simp [keySchema]
  obtain ⟨value', hmade', hheld'⟩ := constructValues_get hvalues hcolumn (hget j hj)
  rw [hheld, Option.some.injEq] at hheld'
  subst hheld'
  have hbit := constructValue_ofBit_inj _ (hmade.trans hmade'.symm)
  simpa using hbit

/-- Where they agree, and the index is used, the constraints are in the
order of the key. -/
theorem KeyAgrees.ordered (hagrees : index.KeyAgrees constraints)
    (hanswers : index.Answers constraints) :
    constraints.map (·.iColumn) = index.getKeyAttrs ∧ index.keyAttrs.Nodup := by
  have hplan := (plan_idxNum index constraints).mpr hanswers
  have hiff : ∀ (j : Fin index.keyAttrs.length) (k : Nat) (c : IndexConstraint),
      constraints[k]? = some c → (index.Constrains j c ↔ k = j) := by
    intro j
    obtain ⟨i, hiff, -, hholds⟩ := hagrees hplan j
    rwa [eq_of_holds hanswers hholds] at hiff
  have hown : ∀ (j : Fin index.keyAttrs.length) (c : IndexConstraint),
      constraints[(j : Nat)]? = some c → index.Constrains j c :=
    fun j c hc => (hiff j j c hc).mpr rfl
  constructor
  · refine List.ext_getElem (by simp [hanswers.1]) fun k hk hk' => ?_
    rw [length_getKeyAttrs] at hk'
    have hconstrains := hown ⟨k, hk'⟩ _ (List.getElem?_eq_getElem (by simpa using hk))
    simpa [getKeyAttrs] using hconstrains.2.2
  · rw [List.nodup_iff_injective_get]
    intro j j' hsame
    have hj' : (j' : Nat) < constraints.length := hanswers.1.symm ▸ j'.isLt
    have hconstrains := hown j' _ (List.getElem?_eq_getElem hj')
    rw [Constrains, ← hsame] at hconstrains
    have := (hiff j j' _ (List.getElem?_eq_getElem hj')).mp hconstrains
    exact Fin.ext this.symm

end

/-- Planner and filter agree on the key exactly if the planner does not
take the constraints, or they are on the columns of the key in the order
of the key and the key has no column twice. -/
theorem keyAgrees_iff (index : IndexMetadata) (constraints : List IndexConstraint) :
    index.KeyAgrees constraints ↔
      (index.Answers constraints →
        constraints.map (·.iColumn) = index.getKeyAttrs ∧ index.keyAttrs.Nodup) := by
  constructor
  · exact KeyAgrees.ordered
  · intro h hplan
    exact KeyAgrees.of_ordered (h ((plan_idxNum index constraints).mp hplan)) hplan

/-- An index on two columns `a` and `b` of integers. -/
def onTwoColumns : IndexMetadata where
  tupleSchema :=
    let column : Column := ⟨.int .integer, 4, by decide, fun _ => by decide⟩
    ⟨[column, column]⟩
  keyAttrs := [⟨0, by decide⟩, ⟨1, by decide⟩]

/-- `WHERE b = ? AND a = ?` looks for the value of `b` under `a`. -/
theorem not_keyAgrees_swapped : ¬onTwoColumns.KeyAgrees [⟨1, 2, 1⟩, ⟨0, 2, 1⟩] := by
  intro h
  have hanswers : onTwoColumns.Answers [⟨1, 2, 1⟩, ⟨0, 2, 1⟩] := by
    refine ⟨rfl, ?_⟩
    simp [IndexConstraint.IsKeyEquality, sqliteIndexConstraintEq, getKeyAttrs, onTwoColumns]
  have hordered := (h.ordered hanswers).1
  simp [getKeyAttrs, onTwoColumns] at hordered

end IndexMetadata

end ScuDb
