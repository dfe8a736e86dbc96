import ScuDb.Catalog.Schema
import ScuDb.Foundations.Fields
import ScuDb.Type.Cast

/-!
The columns of a table as its statement declares them,
`ParseCreateStatement` of `virtual_table.cpp`.

A declaration is cut at its first space, and what follows the space is
taken for the type as it stands. So one space between name and type is
read, and nothing else: behind a second one, or behind a tab, there is no
type of that name.
-/

namespace ScuDb

open Foundations

/-- The bytes of a text. -/
def ascii (text : String) : List UInt8 := text.toList.map fun c => c.toNat.toUInt8

/-- A `Column` with its name. -/
structure NamedColumn extends Column where
  columnName : List UInt8

/-- What its constructor has been given. -/
def NamedColumn.entry (column : NamedColumn) : List UInt8 × TypeId × Int :=
  (column.columnName, column.columnType, column.columnLength)

/-- The `Schema` of a table, with the names of its columns. -/
structure NamedSchema where
  columns : List NamedColumn

def NamedSchema.toSchema (schema : NamedSchema) : Schema :=
  ⟨schema.columns.map NamedColumn.toColumn⟩

/-- The constructor's loop, from a column on: the positions of the columns
that are not inlined. -/
def Schema.uninlinedFrom (index : Nat) : List Column → List Nat
  | [] => []
  | column :: rest =>
      if column.isInlined = false then index :: uninlinedFrom (index + 1) rest
      else uninlinedFrom (index + 1) rest

/-- `GetUnlinedColumns` -/
def Schema.getUnlinedColumns (schema : Schema) : List Nat := uninlinedFrom 0 schema.columns

/-- What `ParseCreateStatement` throws: for an unknown type, for a column
that cannot be, or a number that `stoi` does not read. -/
inductive ParseFault
  | unknownType (message : String)
  | constraint (message : String)
  | number (e : NumberError)
  deriving DecidableEq, Repr

namespace ParseCreateStatement

/-- `::tolower` -/
def toLower (b : UInt8) : UInt8 := if 65 ≤ b ∧ b ≤ 90 then b + 32 else b

/-- `StringUtility::Split` -/
def split (s : List UInt8) (delim : UInt8) : List (List UInt8) :=
  (fields delim s).map (trim isSpace)

/-- The type of a name. -/
def typeNamed (columnType : List UInt8) : Option TypeId :=
  if columnType = ascii "bool" ∨ columnType = ascii "boolean" then some .boolean
  else if columnType = ascii "tinyint" then some (.int .tinyint)
  else if columnType = ascii "smallint" then some (.int .smallint)
  else if columnType = ascii "int" ∨ columnType = ascii "integer" then some (.int .integer)
  else if columnType = ascii "bigint" then some (.int .bigint)
  else if columnType = ascii "double" ∨ columnType = ascii "float" then some .decimal
  else if columnType = ascii "varchar" ∨ columnType = ascii "char" then some .varchar
  else none

/-- The constructor of `Column`. The length is an `int32_t`. -/
def makeColumn (type : TypeId) (length : Int) (name : List UInt8) :
    Except ParseFault NamedColumn :=
  if h : length ≤ int32Max ∧ (type ≠ .varchar → 0 < length) then
    .ok ⟨⟨type, length, h.1, h.2⟩, name⟩
  else .error (.constraint "inline type must pass in column_length")

/-- The length in parentheses behind the name of a type, 0 if there is
none, and the name without it. -/
def splitLength (columnType : List UInt8) : Except ParseFault (Int × List UInt8) :=
  match columnType.findIdx? (· = 40) with
  | none => .ok (0, columnType)
  | some n =>
      match stoi (columnType.drop (n + 1)) with
      | .ok columnLength => .ok (columnLength, columnType.take n)
      | .error e => .error (.number e)

/-- The column of a name and of what is taken for its type. -/
def columnOf (columnName columnType : List UInt8) : Except ParseFault NamedColumn := do
  let (columnLength, columnType) ← splitLength columnType
  match typeNamed columnType with
  | none => .error (.unknownType "unknown type for create table")
  | some .varchar => makeColumn .varchar (if columnLength = 0 then 32 else columnLength) columnName
  | some type => makeColumn type type.getTypeSize columnName

/-- A round of the loop. Where there is no space, `n` is `npos`: the name is
the whole, and so is the type, as `npos + 1` is 0. -/
def parseColumn (t : List UInt8) : Except ParseFault NamedColumn :=
  match t.findIdx? (· = 32) with
  | some n => columnOf (t.take n) (t.drop (n + 1))
  | none => columnOf t t

/-- The loop. -/
def parseColumns : List (List UInt8) → Except ParseFault (List NamedColumn)
  | [] => .ok []
  | t :: tok => do
      let column ← parseColumn t
      let columns ← parseColumns tok
      .ok (column :: columns)

end ParseCreateStatement

open ParseCreateStatement

/-- `ParseCreateStatement` -/
def parseCreateStatement (sql : List UInt8) : Except ParseFault NamedSchema := do
  let columns ← parseColumns (split (sql.map toLower) 44)
  .ok ⟨columns⟩

/-! ### Statements -/

/-- A declaration as it is written: a name and the name of a type, with
the digits of a length behind it or not, and the white space before,
between and after. -/
structure Declaration where
  before : List UInt8
  name : List UInt8
  separator : List UInt8
  typeName : List UInt8
  size : Option (List UInt8)
  after : List UInt8
  deriving DecidableEq

/-- A letter in lower case, a digit or an underscore. -/
def isWord (b : UInt8) : Bool := 97 ≤ b ∧ b ≤ 122 ∨ isDigit b ∨ b = 95

namespace Declaration

variable (d : Declaration)

/-- The length in parentheses. -/
def sizeText : List UInt8 :=
  match d.size with
  | some digits => 40 :: (digits ++ [41])
  | none => []

/-- The declaration without the white space around it. -/
def core : List UInt8 := d.name ++ d.separator ++ (d.typeName ++ d.sizeText)

def text : List UInt8 := d.before ++ d.core ++ d.after

/-- What is asked of a declaration. -/
structure WellFormed : Prop where
  before : ∀ b ∈ d.before, isSpace b = true
  after : ∀ b ∈ d.after, isSpace b = true
  name : d.name ≠ [] ∧ ∀ b ∈ d.name, isWord b = true
  separator : d.separator ≠ [] ∧ ∀ b ∈ d.separator, b = 32 ∨ b = 9
  typeName : d.typeName ≠ [] ∧ ∀ b ∈ d.typeName, isWord b = true
  size : ∀ digits, d.size = some digits →
    digits ≠ [] ∧ (∀ b ∈ digits, isDigit b = true) ∧ 1 ≤ readDigits 0 digits

/-- The length of the column: the one of the declaration, or 32, for a
VARCHAR, and the size of the type for any other. -/
def columnLength (type : TypeId) : Int :=
  if type = .varchar then
    match d.size with
    | some digits => readDigits 0 digits
    | none => 32
  else type.getTypeSize

/-- The name, the type and the length that the column is to have. -/
def entry : Option (List UInt8 × TypeId × Int) :=
  (typeNamed d.typeName).map fun type => (d.name, type, d.columnLength type)

/-- The size of the column in a tuple. -/
def fixedLength : Int :=
  match typeNamed d.typeName with
  | none => 0
  | some .varchar => 4
  | some type => type.getTypeSize

theorem fixedLength_nonneg : 0 ≤ d.fixedLength := by
  rw [fixedLength]
  split
  · exact le_refl _
  · decide
  · exact Int.natCast_nonneg _

/-- `stoi` can read the length. -/
def SizeFits : Prop := ∀ digits, d.size = some digits → (readDigits 0 digits : Int) ≤ int32Max

end Declaration

/-- The statement: the declarations with commas between them. -/
def createStatement (ds : List Declaration) : List UInt8 :=
  joinFields 44 (ds.map Declaration.text)

/-! ### One declaration -/

theorem isWord_iff {b : UInt8} : isWord b = true ↔
    97 ≤ b.toNat ∧ b.toNat ≤ 122 ∨ (48 ≤ b.toNat ∧ b.toNat ≤ 57) ∨ b.toNat = 95 := by
  simp [isWord, isDigit, UInt8.le_iff_toNat_le, ← UInt8.toNat_inj]

theorem isSpace_iff {b : UInt8} :
    isSpace b = true ↔ b.toNat = 32 ∨ 9 ≤ b.toNat ∧ b.toNat ≤ 13 := by
  simp [isSpace, UInt8.le_iff_toNat_le, ← UInt8.toNat_inj]

theorem toLower_of_not_upper {b : UInt8} (h : ¬(65 ≤ b.toNat ∧ b.toNat ≤ 90)) : toLower b = b := by
  refine if_neg ?_
  simpa [UInt8.le_iff_toNat_le] using h

theorem ne_of_toNat_ne {a b : UInt8} (h : a.toNat ≠ b.toNat) : a ≠ b := mt (congrArg _) h

namespace ParseCreateStatement

theorem isWord_of_typeNamed {columnType : List UInt8} {type : TypeId}
    (h : typeNamed columnType = some type) : ∀ b ∈ columnType, isWord b = true := by
  have hwords : ∀ name ∈ ["bool", "boolean", "tinyint", "smallint", "int", "integer", "bigint",
      "double", "float", "varchar", "char"], (ascii name).all isWord = true := by decide
  suffices hname : ∃ name ∈ ["bool", "boolean", "tinyint", "smallint", "int", "integer", "bigint",
      "double", "float", "varchar", "char"], columnType = ascii name by
    obtain ⟨name, hmem, rfl⟩ := hname
    exact List.all_eq_true.mp (hwords name hmem)
  by_contra hnot
  simp only [List.mem_cons, List.not_mem_nil, or_false, exists_eq_or_imp, exists_eq_left,
    not_or] at hnot
  simp [typeNamed, hnot] at h

variable {d : Declaration} {pre columnName : List UInt8}

theorem stoi_of_leadingInt {text : List UInt8} {n : Int} (h : leadingInt text = some n) :
    stoi text = if Fits 32 n then .ok n else .error .outOfRange := by
  rw [stoi, stringToInt, h]

theorem splitLength_of_no_parenthesis (hpre : 40 ∉ pre) : splitLength pre = .ok (0, pre) := by
  rw [splitLength, findIdx?_no_sep hpre]

theorem splitLength_of_parenthesis (hpre : 40 ∉ pre) (rest : List UInt8) :
    splitLength (pre ++ 40 :: rest) =
      match stoi rest with
      | .ok columnLength => .ok (columnLength, pre)
      | .error e => .error (.number e) := by
  rw [splitLength, findIdx?_sep hpre]
  simp only [drop_sep, List.take_left]

theorem stoi_digits {digits : List UInt8} (hne : digits ≠ [])
    (hdigits : ∀ b ∈ digits, isDigit b = true) :
    stoi (digits ++ [41]) =
      if (readDigits 0 digits : Int) ≤ int32Max then .ok (readDigits 0 digits : Int)
      else .error .outOfRange := by
  have hread : leadingInt (digits ++ [41]) = some (readDigits 0 digits : Int) :=
    (IsDecimal.unsigned hne hdigits).leadingInt_append (by simp [isDigit])
  rw [stoi_of_leadingInt hread]
  refine if_congr ?_ rfl rfl
  simp only [Fits, int32Max]
  omega

/-- What `splitLength` makes of the type of a declaration. -/
theorem splitLength_declaration (h : d.WellFormed) (hpre : 40 ∉ pre) :
    (∃ n : Int, splitLength (pre ++ (d.typeName ++ d.sizeText)) = .ok (n, pre ++ d.typeName) ∧
      d.SizeFits ∧ (if n = 0 then 32 else n) = d.columnLength .varchar ∧ n ≤ int32Max) ∨
    ∃ e, splitLength (pre ++ (d.typeName ++ d.sizeText)) = .error e ∧ ¬d.SizeFits := by
  have hname : 40 ∉ pre ++ d.typeName := by
    intro hmem
    obtain hmem | hmem := List.mem_append.mp hmem
    · exact hpre hmem
    · exact absurd (h.typeName.2 40 hmem) (by decide)
  rw [← List.append_assoc]
  cases hsize : d.size with
  | none =>
      have htext : d.sizeText = [] := by rw [Declaration.sizeText, hsize]
      have hfits : d.SizeFits := by
        intro digits hdigits
        rw [hsize] at hdigits
        cases hdigits
      have hlength : d.columnLength .varchar = 32 := by rw [Declaration.columnLength, hsize]; rfl
      rw [htext, List.append_nil, splitLength_of_no_parenthesis hname, hlength]
      exact Or.inl ⟨0, rfl, hfits, rfl, by decide⟩
  | some digits =>
      obtain ⟨hne, hdigits, hpos⟩ := h.size digits hsize
      have htext : d.sizeText = 40 :: (digits ++ [41]) := by rw [Declaration.sizeText, hsize]
      have hlength : d.columnLength .varchar = readDigits 0 digits := by
        rw [Declaration.columnLength, hsize]
        rfl
      have hfits : d.SizeFits ↔ (readDigits 0 digits : Int) ≤ int32Max := by
        rw [Declaration.SizeFits, hsize]
        simp
      rw [htext, splitLength_of_parenthesis hname, stoi_digits hne hdigits, hlength, hfits]
      by_cases hle : (readDigits 0 digits : Int) ≤ int32Max
      · rw [if_pos hle]
        exact Or.inl ⟨_, rfl, hle, if_neg (by omega), hle⟩
      · rw [if_neg hle]
        exact Or.inr ⟨_, rfl, hle⟩

theorem columnOf_unknown (h : d.WellFormed) (hpre : 40 ∉ pre)
    (hunknown : typeNamed (pre ++ d.typeName) = none) :
    ∃ e, columnOf columnName (pre ++ (d.typeName ++ d.sizeText)) = .error e := by
  obtain ⟨n, hsplit, -, -, -⟩ | ⟨e, hsplit, -⟩ := splitLength_declaration h hpre
  · rw [columnOf, hsplit]
    simp only [bind, Except.bind, hunknown]
    exact ⟨_, rfl⟩
  · rw [columnOf, hsplit]
    exact ⟨e, rfl⟩

theorem makeColumn_ok {type : TypeId} {length : Int} (hle : length ≤ int32Max)
    (hpos : type ≠ .varchar → 0 < length) :
    ∃ column, makeColumn type length columnName = .ok column ∧
      column.entry = (columnName, type, length) := by
  rw [makeColumn, dif_pos ⟨hle, hpos⟩]
  exact ⟨_, rfl, rfl⟩

theorem getTypeSize_bounds {type : TypeId} (h : type ≠ .varchar) :
    0 < (type.getTypeSize : Int) ∧ (type.getTypeSize : Int) ≤ int32Max := by
  cases type with
  | boolean => decide
  | int t => cases t <;> decide
  | decimal => decide
  | varchar => exact absurd rfl h

/-- A known type: the column is made, unless the length cannot be read. -/
theorem columnOf_known (h : d.WellFormed) {type : TypeId}
    (htype : typeNamed d.typeName = some type) :
    (d.SizeFits ∧ ∃ column, columnOf columnName (d.typeName ++ d.sizeText) = .ok column ∧
      column.entry = (columnName, type, d.columnLength type)) ∨
    ¬d.SizeFits ∧ ∃ e, columnOf columnName (d.typeName ++ d.sizeText) = .error e := by
  obtain ⟨n, hsplit, hfits, hlength, hle⟩ | ⟨e, hsplit, hfits⟩ :=
    splitLength_declaration h (List.not_mem_nil (a := 40))
  · refine Or.inl ⟨hfits, ?_⟩
    rw [List.nil_append] at hsplit
    rw [columnOf, hsplit]
    simp only [bind, Except.bind, List.nil_append, htype]
    by_cases hvarchar : type = .varchar
    · subst hvarchar
      rw [← hlength]
      refine makeColumn_ok ?_ (fun hne => absurd rfl hne)
      split
      · decide
      · exact hle
    · have hlen : d.columnLength type = type.getTypeSize := if_neg hvarchar
      obtain ⟨hpos, hmax⟩ := getTypeSize_bounds hvarchar
      rw [hlen]
      cases type with
      | varchar => exact absurd rfl hvarchar
      | boolean => exact makeColumn_ok hmax fun _ => hpos
      | int t => exact makeColumn_ok hmax fun _ => hpos
      | decimal => exact makeColumn_ok hmax fun _ => hpos
  · refine Or.inr ⟨hfits, e, ?_⟩
    rw [List.nil_append] at hsplit
    rw [columnOf, hsplit]
    rfl

theorem typeNamed_of_mem {columnType : List UInt8} {b : UInt8} (hmem : b ∈ columnType)
    (hspace : b = 32 ∨ b = 9) : typeNamed columnType = none := by
  cases htype : typeNamed columnType with
  | none => rfl
  | some type =>
      have hword := isWord_of_typeNamed htype b hmem
      obtain rfl | rfl := hspace <;> cases hword

/-- The separator of a declaration: white space without a space, or what
is before and behind its first space. -/
theorem separator_cases (separator : List UInt8) :
    32 ∉ separator ∨ ∃ tabs rest, separator = tabs ++ 32 :: rest ∧ 32 ∉ tabs := by
  by_cases hmem : 32 ∈ separator
  · exact Or.inr (List.eq_append_cons_of_mem hmem)
  · exact Or.inl hmem

theorem not_mem_name {b : UInt8} (h : d.WellFormed) (hb : isWord b = false) : b ∉ d.name := by
  intro hmem
  rw [h.name.2 b hmem] at hb
  cases hb

theorem mem_sizeText {b : UInt8} (h : d.WellFormed) (hb : b ∈ d.sizeText) :
    isWord b = true ∨ b = 40 ∨ b = 41 := by
  rw [Declaration.sizeText] at hb
  split at hb
  · rename_i digits hsize
    rw [List.mem_cons, List.mem_append, List.mem_singleton] at hb
    obtain hopen | hdigit | hclose := hb
    · exact Or.inr (Or.inl hopen)
    · have hdigit := isDigit_iff.mp ((h.size digits hsize).2.1 b hdigit)
      exact Or.inl (isWord_iff.mpr (Or.inr (Or.inl hdigit)))
    · exact Or.inr (Or.inr hclose)
  · cases hb

theorem mem_typeText {b : UInt8} (h : d.WellFormed) (hb : b ∈ d.typeName ++ d.sizeText) :
    isWord b = true ∨ b = 40 ∨ b = 41 := by
  obtain hname | hsize := List.mem_append.mp hb
  · exact Or.inl (h.typeName.2 b hname)
  · exact mem_sizeText h hsize

/-- Where the separator is a space, the declaration's type is what it
says. -/
theorem parseColumn_space (h : d.WellFormed) (hsep : d.separator = [32]) :
    parseColumn d.core = columnOf d.name (d.typeName ++ d.sizeText) := by
  have hcore : d.core = d.name ++ 32 :: (d.typeName ++ d.sizeText) := by
    simp [Declaration.core, hsep]
  rw [hcore, parseColumn, findIdx?_sep (not_mem_name h rfl)]
  simp only [List.take_left, drop_sep]

/-- Any other separator gets into the name of the column or into what is
taken for its type. -/
theorem parseColumn_other (h : d.WellFormed) (hsep : d.separator ≠ [32]) :
    (∃ e, parseColumn d.core = .error e) ∨
      ∃ tabs, tabs ≠ [] ∧
        parseColumn d.core = columnOf (d.name ++ tabs) (d.typeName ++ d.sizeText) := by
  have hblank : ∀ b ∈ d.separator, b = 32 ∨ b = 9 := h.separator.2
  have hno : ∀ b ∈ d.separator, b ≠ 40 := by
    intro b hb
    obtain rfl | rfl := hblank b hb <;> decide
  obtain hspace | ⟨tabs, rest, heq, htabs⟩ := separator_cases d.separator
  · -- No space at all: the type is the whole declaration.
    left
    have hnone : 32 ∉ d.core := by
      intro hmem
      rw [Declaration.core, List.mem_append, List.mem_append] at hmem
      obtain (hmem | hmem) | hmem := hmem
      · exact not_mem_name h rfl hmem
      · exact hspace hmem
      · obtain hword | hparen := mem_typeText h hmem
        · cases hword
        · exact absurd hparen (by decide)
    have hcore : d.core = (d.name ++ d.separator) ++ (d.typeName ++ d.sizeText) := rfl
    obtain ⟨b, hb⟩ := List.exists_mem_of_ne_nil _ h.separator.1
    rw [parseColumn, findIdx?_no_sep hnone, hcore]
    refine columnOf_unknown h ?_ (typeNamed_of_mem (b := b) ?_ (hblank b hb))
    · intro hmem
      obtain hmem | hmem := List.mem_append.mp hmem
      · exact not_mem_name h rfl hmem
      · exact hno 40 hmem rfl
    · exact List.mem_append_left _ (List.mem_append_right _ hb)
  · have hcore : d.core = (d.name ++ tabs) ++ 32 :: (rest ++ (d.typeName ++ d.sizeText)) := by
      simp [Declaration.core, heq]
    have hname : 32 ∉ d.name ++ tabs := by
      intro hmem
      obtain hmem | hmem := List.mem_append.mp hmem
      · exact not_mem_name h rfl hmem
      · exact htabs hmem
    have hparse : parseColumn d.core =
        columnOf (d.name ++ tabs) (rest ++ (d.typeName ++ d.sizeText)) := by
      rw [hcore, parseColumn, findIdx?_sep hname]
      simp only [List.take_left, drop_sep]
    rw [hparse]
    cases rest with
    | nil =>
        refine Or.inr ⟨tabs, ?_, rfl⟩
        rintro rfl
        exact hsep heq
    | cons b rest =>
        -- The type begins with a space or a tab.
        left
        have hmem (c : UInt8) (hc : c ∈ b :: rest) : c ∈ d.separator := by
          rw [heq]
          exact List.mem_append_right _ (List.mem_cons_of_mem _ hc)
        refine columnOf_unknown h (fun hparen => hno 40 (hmem 40 hparen) rfl)
          (typeNamed_of_mem (b := b) (List.mem_append_left _ List.mem_cons_self) ?_)
        exact hblank b (hmem b List.mem_cons_self)

/-- A declaration is read when one space separates its parts, its type is
known and its length fits. -/
theorem parseColumn_reads_iff (h : d.WellFormed) :
    (∃ column, parseColumn d.core = .ok column ∧ some column.entry = d.entry) ↔
      d.entry ≠ none ∧ d.separator = [32] ∧ d.SizeFits := by
  cases htype : typeNamed d.typeName with
  | none =>
      have hentry : d.entry = none := by rw [Declaration.entry, htype]; rfl
      rw [hentry]
      simp
  | some type =>
      have hentry : d.entry = some (d.name, type, d.columnLength type) := by
        rw [Declaration.entry, htype]
        rfl
      rw [hentry]
      by_cases hsep : d.separator = [32]
      · rw [parseColumn_space h hsep]
        obtain ⟨hfits, column, hok, hcolumn⟩ | ⟨hfits, e, herror⟩ :=
          @columnOf_known d d.name h type htype
        · simp [hok, hcolumn, hsep, hfits]
        · simp [herror, hfits]
      · obtain ⟨e, herror⟩ | ⟨tabs, htabs, heq⟩ := parseColumn_other h hsep
        · simp [herror, hsep]
        · rw [heq]
          obtain ⟨hfits, column, hok, hcolumn⟩ | ⟨hfits, e, herror⟩ :=
            @columnOf_known d (d.name ++ tabs) h type htype
          · simp [hok, hcolumn, hsep, htabs]
          · simp [herror, hfits]

theorem parseColumn_unknown (h : d.WellFormed) (htype : d.entry = none) :
    ∃ e, parseColumn d.core = .error e := by
  have hnamed : typeNamed d.typeName = none := by simpa [Declaration.entry] using htype
  have hunknown (name : List UInt8) : ∃ e, columnOf name (d.typeName ++ d.sizeText) = .error e :=
    @columnOf_unknown d [] name h List.not_mem_nil hnamed
  by_cases hsep : d.separator = [32]
  · rw [parseColumn_space h hsep]
    exact hunknown _
  · obtain herror | ⟨tabs, -, heq⟩ := parseColumn_other h hsep
    · exact herror
    · rw [heq]
      exact hunknown _

/-! ### The statement in pieces -/

theorem isSpace_of_isWord {b : UInt8} (h : isWord b = true) : isSpace b = false := by
  by_contra hspace
  rw [Bool.not_eq_false, isSpace_iff] at hspace
  rw [isWord_iff] at h
  omega

theorem mem_core {b : UInt8} (h : d.WellFormed) (hb : b ∈ d.core) :
    isWord b = true ∨ isSpace b = true ∨ b = 40 ∨ b = 41 := by
  rw [Declaration.core, List.mem_append, List.mem_append] at hb
  obtain (hb | hb) | hb := hb
  · exact Or.inl (h.name.2 b hb)
  · obtain rfl | rfl := h.separator.2 b hb
    · exact Or.inr (Or.inl rfl)
    · exact Or.inr (Or.inl rfl)
  · obtain hword | hparen := mem_typeText h hb
    · exact Or.inl hword
    · exact Or.inr (Or.inr hparen)

theorem mem_text {b : UInt8} (h : d.WellFormed) (hb : b ∈ d.text) :
    isWord b = true ∨ isSpace b = true ∨ b = 40 ∨ b = 41 := by
  rw [Declaration.text, List.mem_append, List.mem_append] at hb
  obtain (hb | hb) | hb := hb
  · exact Or.inr (Or.inl (h.before b hb))
  · exact mem_core h hb
  · exact Or.inr (Or.inl (h.after b hb))

theorem plain_of_mem_text {b : UInt8} (h : d.WellFormed) (hb : b ∈ d.text) :
    toLower b = b ∧ b ≠ 44 := by
  have htext := mem_text h hb
  rw [isWord_iff, isSpace_iff, ← UInt8.toNat_inj, ← UInt8.toNat_inj] at htext
  have hopen : UInt8.toNat 40 = 40 := rfl
  have hclose : UInt8.toNat 41 = 41 := rfl
  have hcomma : UInt8.toNat 44 = 44 := rfl
  refine ⟨toLower_of_not_upper ?_, ne_of_toNat_ne ?_⟩
  · omega
  · omega

theorem core_head (h : d.WellFormed) : ∀ b ∈ d.core.head?, isSpace b = false := by
  intro b hb
  have hmem : b ∈ d.name := by
    cases hname : d.name with
    | nil => exact absurd hname h.name.1
    | cons c name =>
        rw [Declaration.core, hname] at hb
        cases hb
        exact List.mem_cons_self
  exact isSpace_of_isWord (h.name.2 b hmem)

theorem core_last (h : d.WellFormed) : ∀ b ∈ d.core.getLast?, isSpace b = false := by
  intro b hb
  have hne : d.typeName ++ d.sizeText ≠ [] := by
    simp [h.typeName.1]
  rw [Declaration.core, List.getLast?_append_of_ne_nil _ hne] at hb
  obtain hword | rfl | rfl := mem_typeText h (List.mem_of_getLast? hb)
  · exact isSpace_of_isWord hword
  · rfl
  · rfl

theorem core_ne_nil (h : d.WellFormed) : d.core ≠ [] := by
  simp [Declaration.core, h.name.1]

theorem split_createStatement {ds : List Declaration} (h : ∀ d ∈ ds, d.WellFormed) :
    split ((createStatement ds).map toLower) 44 = ds.map Declaration.core := by
  have hlower : (createStatement ds).map toLower = createStatement ds := by
    refine (List.map_congr_left fun b hb => ?_).trans (List.map_id _)
    obtain rfl | ⟨text, htext, hmem⟩ := mem_joinFields hb
    · rfl
    · obtain ⟨d, hd, rfl⟩ := List.mem_map.mp htext
      exact (plain_of_mem_text (h d hd) hmem).1
  have hcomma : ∀ text ∈ ds.map Declaration.text, 44 ∉ text := by
    intro text htext hmem
    obtain ⟨d, hd, rfl⟩ := List.mem_map.mp htext
    exact (plain_of_mem_text (h d hd) hmem).2 rfl
  have hlast : ∀ text ∈ (ds.map Declaration.text).getLast?, text ≠ [] := by
    intro text htext
    obtain ⟨d, hd, rfl⟩ := List.mem_map.mp (List.mem_of_getLast? htext)
    simp [Declaration.text, core_ne_nil (h d hd)]
  rw [hlower, createStatement, split, fields_joinFields hcomma hlast, List.map_map]
  refine List.map_congr_left fun d hd => ?_
  exact trim_append (h d hd).before (h d hd).after (core_head (h d hd)) (core_last (h d hd))
    (core_ne_nil (h d hd))

/-- The loop reads a list of declarations when it reads each of them. -/
theorem parseColumns_reads_iff {ds : List Declaration} (h : ∀ d ∈ ds, d.WellFormed) :
    (∃ columns, parseColumns (ds.map Declaration.core) = .ok columns ∧
      columns.map (fun column => some column.entry) = ds.map Declaration.entry) ↔
      ∀ d ∈ ds, d.entry ≠ none ∧ d.separator = [32] ∧ d.SizeFits := by
  induction ds with
  | nil => simp [parseColumns]
  | cons d ds ih =>
      have hd := parseColumn_reads_iff (h d List.mem_cons_self)
      have hds := ih fun d' hd' => h d' (List.mem_cons_of_mem d hd')
      rw [List.forall_mem_cons, ← hd, ← hds, List.map_cons, List.map_cons, parseColumns]
      cases hcolumn : parseColumn d.core with
      | error e => simp [bind, Except.bind]
      | ok column =>
          cases hcolumns : parseColumns (ds.map Declaration.core) with
          | error e => simp [bind, Except.bind]
          | ok columns => simp [bind, Except.bind]

theorem parseColumns_unknown {ds : List Declaration} (h : ∀ d ∈ ds, d.WellFormed)
    (hunknown : ∃ d ∈ ds, d.entry = none) :
    ∃ e, parseColumns (ds.map Declaration.core) = .error e := by
  induction ds with
  | nil => simp at hunknown
  | cons d ds ih =>
      rw [List.map_cons, parseColumns]
      cases hcolumn : parseColumn d.core with
      | error e => exact ⟨e, rfl⟩
      | ok column =>
          have hrest : ∃ d ∈ ds, d.entry = none := by
            obtain ⟨d', hmem, hentry⟩ := hunknown
            obtain rfl | hmem := List.mem_cons.mp hmem
            · obtain ⟨e, herror⟩ := parseColumn_unknown (h d' List.mem_cons_self) hentry
              rw [herror] at hcolumn
              cases hcolumn
            · exact ⟨d', hmem, hentry⟩
          obtain ⟨e, herror⟩ := ih (fun d' hd' => h d' (List.mem_cons_of_mem d hd')) hrest
          simp only [bind, Except.bind, herror]
          exact ⟨e, rfl⟩

end ParseCreateStatement

/-! ### The schema -/

namespace Schema

theorem mem_uninlinedFrom {k i : Nat} {columns : List Column} : i ∈ uninlinedFrom k columns ↔
    ∃ j column, i = k + j ∧ columns[j]? = some column ∧ column.columnType = .varchar := by
  induction columns generalizing k with
  | nil => simp [uninlinedFrom]
  | cons column columns ih =>
      have hhead : (∃ j c, i = k + j ∧ (column :: columns)[j]? = some c ∧ c.columnType = .varchar) ↔
          i = k ∧ column.columnType = .varchar ∨
            ∃ j c, i = k + 1 + j ∧ columns[j]? = some c ∧ c.columnType = .varchar := by
        constructor
        · rintro ⟨j, c, hi, hget, hc⟩
          cases j with
          | zero =>
              cases hget
              exact Or.inl ⟨hi, hc⟩
          | succ j => exact Or.inr ⟨j, c, by omega, hget, hc⟩
        · rintro (⟨hi, hc⟩ | ⟨j, c, hi, hget, hc⟩)
          · exact ⟨0, column, hi, rfl, hc⟩
          · exact ⟨j + 1, c, by omega, hget, hc⟩
      rw [hhead, ← ih, uninlinedFrom]
      by_cases hvarchar : column.columnType = .varchar
      · simp [Column.isInlined, hvarchar]
      · simp [Column.isInlined, hvarchar]

theorem uninlinedFrom_sorted (k : Nat) (columns : List Column) :
    (uninlinedFrom k columns).Pairwise (· < ·) := by
  induction columns generalizing k with
  | nil => exact List.Pairwise.nil
  | cons column columns ih =>
      rw [uninlinedFrom]
      split
      · refine List.pairwise_cons.mpr ⟨?_, ih (k + 1)⟩
        intro i hi
        obtain ⟨j, -, rfl, -⟩ := mem_uninlinedFrom.mp hi
        omega
      · exact ih (k + 1)

end Schema

/-- The schema is the one that the declarations describe. -/
structure Declares (ds : List Declaration) (schema : NamedSchema) : Prop where
  columns : schema.columns.map (fun column => some column.entry) = ds.map Declaration.entry
  offsets : schema.toSchema.placedColumns.map PlacedColumn.columnOffset =
    (List.range ds.length).map fun i => ((ds.take i).map Declaration.fixedLength).sum
  unlined : ∀ i, i ∈ schema.toSchema.getUnlinedColumns ↔
    ∃ d, ds[i]? = some d ∧ typeNamed d.typeName = some .varchar
  sorted : schema.toSchema.getUnlinedColumns.Pairwise (· < ·)

/-- No offset is too large for an `int32_t`. -/
def OffsetsFit (ds : List Declaration) : Prop :=
  ∀ i < ds.length, ((ds.take i).map Declaration.fixedLength).sum ≤ int32Max

section Columns

variable {ds : List Declaration} {schema : NamedSchema}

theorem entry_eq {d : Declaration} {column : NamedColumn} (h : some column.entry = d.entry) :
    typeNamed d.typeName = some column.columnType ∧
      column.columnLength = d.columnLength column.columnType := by
  obtain ⟨type, htype, hentry⟩ := Option.map_eq_some_iff.mp h.symm
  obtain ⟨-, htype', hlength⟩ := Prod.mk.inj hentry |>.imp_right Prod.mk.inj
  subst htype'
  exact ⟨htype, hlength.symm⟩

theorem fixedLength_eq {d : Declaration} {column : NamedColumn} (h : some column.entry = d.entry) :
    column.getFixedLength = d.fixedLength := by
  obtain ⟨htype, hlength⟩ := entry_eq h
  rw [Column.getFixedLength, Declaration.fixedLength, htype]
  by_cases hvarchar : column.columnType = .varchar
  · simp [Column.isInlined, hvarchar]
  · have hsize : column.columnLength = column.columnType.getTypeSize :=
      hlength.trans (if_neg hvarchar)
    simp only [Column.isInlined, hvarchar, ne_eq, not_false_eq_true, decide_true, if_true, hsize]

theorem entries_getElem? (h : schema.columns.map (fun column => some column.entry) =
    ds.map Declaration.entry) (i : Nat) :
    (schema.columns[i]?).map (fun column => some column.entry) =
      (ds[i]?).map Declaration.entry := by
  rw [← List.getElem?_map, ← List.getElem?_map, h]

theorem fixedLengths_eq
    (h : schema.columns.map (fun column => some column.entry) = ds.map Declaration.entry) :
    schema.toSchema.columns.map Column.getFixedLength = ds.map Declaration.fixedLength := by
  rw [NamedSchema.toSchema, List.map_map]
  refine List.ext_getElem? fun i => ?_
  have hi := entries_getElem? h i
  rw [List.getElem?_map, List.getElem?_map]
  cases hcolumn : schema.columns[i]? with
  | none =>
      rw [hcolumn] at hi
      cases hd : ds[i]? with
      | none => rfl
      | some d =>
          rw [hd] at hi
          cases hi
  | some column =>
      rw [hcolumn] at hi
      obtain ⟨d, hd, hentry⟩ := Option.map_eq_some_iff.mp hi.symm
      rw [hd]
      exact congrArg some (fixedLength_eq hentry.symm)

/-- The columns decide everything but whether the offsets are right. -/
theorem declares_iff
    (h : schema.columns.map (fun column => some column.entry) = ds.map Declaration.entry) :
    Declares ds schema ↔ OffsetsFit ds := by
  have hlengths := fixedLengths_eq h
  have hlen : schema.toSchema.columns.length = ds.length := by
    simpa using congrArg List.length hlengths
  have hoffsets : schema.toSchema.placedColumns.map PlacedColumn.columnOffset =
      (List.range ds.length).map fun i =>
        wrap32 ((ds.take i).map Declaration.fixedLength).sum := by
    rw [Schema.placedColumns_offsets, hlen]
    refine List.map_congr_left fun i _ => ?_
    rw [List.map_take, hlengths, List.map_take]
  constructor
  · intro hdeclares i hi
    have heq := hdeclares.offsets
    rw [hoffsets] at heq
    have hwrap := List.map_inj_left.mp heq i (List.mem_range.mpr hi)
    rw [← hwrap]
    exact wrap32_le _
  · intro hfit
    refine ⟨h, ?_, ?_, Schema.uninlinedFrom_sorted 0 _⟩
    · rw [hoffsets]
      refine List.map_congr_left fun i hi => wrap32_of_le ?_ (hfit i (List.mem_range.mp hi))
      refine List.sum_nonneg fun n hn => ?_
      obtain ⟨d, -, rfl⟩ := List.mem_map.mp hn
      exact d.fixedLength_nonneg
    · intro i
      have hi := entries_getElem? h i
      have hcolumn : schema.toSchema.columns[i]? =
          (schema.columns[i]?).map NamedColumn.toColumn := List.getElem?_map
      rw [Schema.getUnlinedColumns, Schema.mem_uninlinedFrom]
      simp only [zero_add]
      constructor
      · rintro ⟨j, placed, rfl, hplaced, hvarchar⟩
        obtain ⟨column, hget, rfl⟩ := Option.map_eq_some_iff.mp (hcolumn.symm.trans hplaced)
        rw [hget] at hi
        obtain ⟨d, hd, hentry⟩ := Option.map_eq_some_iff.mp hi.symm
        refine ⟨d, hd, ?_⟩
        rw [(entry_eq hentry.symm).1, hvarchar]
      · rintro ⟨d, hd, hvarchar⟩
        rw [hd] at hi
        obtain ⟨column, hget, hentry⟩ := Option.map_eq_some_iff.mp hi
        refine ⟨i, column.toColumn, rfl, ?_, ?_⟩
        · rw [hcolumn, hget]
          rfl
        · have htype := (entry_eq hentry).1
          rw [hvarchar] at htype
          exact (Option.some.inj htype).symm

end Columns

/-- What `ParseCreateStatement` makes of a statement: the schema that is
declared when there is one space in each declaration, and no schema when a
type is not known. -/
theorem parses_iff {ds : List Declaration} (h : ∀ d ∈ ds, d.WellFormed) :
    ((∀ d ∈ ds, d.entry ≠ none) →
      ((∃ schema, parseCreateStatement (createStatement ds) = .ok schema ∧ Declares ds schema) ↔
        (∀ d ∈ ds, d.separator = [32] ∧ d.SizeFits) ∧ OffsetsFit ds)) ∧
    ((∃ d ∈ ds, d.entry = none) →
      ∃ e, parseCreateStatement (createStatement ds) = .error e) := by
  have hsplit := split_createStatement h
  constructor
  · intro hknown
    have hreads := parseColumns_reads_iff h
    constructor
    · rintro ⟨schema, hparse, hdeclares⟩
      rw [parseCreateStatement, hsplit] at hparse
      cases hcolumns : parseColumns (ds.map Declaration.core) with
      | error e =>
          rw [hcolumns] at hparse
          cases hparse
      | ok columns =>
          rw [hcolumns] at hparse
          cases hparse
          have hall := hreads.mp ⟨columns, hcolumns, hdeclares.columns⟩
          exact ⟨fun d hd => (hall d hd).2, (declares_iff hdeclares.columns).mp hdeclares⟩
    · rintro ⟨hall, hfit⟩
      obtain ⟨columns, hcolumns, hentries⟩ := hreads.mpr fun d hd => ⟨hknown d hd, hall d hd⟩
      refine ⟨⟨columns⟩, ?_, (@declares_iff ds ⟨columns⟩ hentries).mpr hfit⟩
      rw [parseCreateStatement, hsplit, hcolumns]
      rfl
  · intro hunknown
    obtain ⟨e, herror⟩ := parseColumns_unknown h hunknown
    refine ⟨e, ?_⟩
    rw [parseCreateStatement, hsplit, herror]
    rfl

theorem Declaration.wellFormed_of_all {d : Declaration} (hbefore : d.before.all isSpace = true)
    (hafter : d.after.all isSpace = true) (hname : d.name ≠ [] ∧ d.name.all isWord = true)
    (hseparator : d.separator ≠ [] ∧ d.separator.all (fun b => b = 32 ∨ b = 9) = true)
    (htype : d.typeName ≠ [] ∧ d.typeName.all isWord = true)
    (hsize : ∀ digits, d.size = some digits →
      digits ≠ [] ∧ digits.all isDigit = true ∧ 1 ≤ readDigits 0 digits) : d.WellFormed where
  before := List.all_eq_true.mp hbefore
  after := List.all_eq_true.mp hafter
  name := ⟨hname.1, List.all_eq_true.mp hname.2⟩
  separator := ⟨hseparator.1, by simpa using hseparator.2⟩
  typeName := ⟨htype.1, List.all_eq_true.mp htype.2⟩
  size digits hd :=
    have ⟨hne, hdigits, hone⟩ := hsize digits hd
    ⟨hne, List.all_eq_true.mp hdigits, hone⟩

theorem parses_iff_two : ∃ ds schema, createStatement ds = ascii "a varchar(16) , b int" ∧
    parseCreateStatement (createStatement ds) = .ok schema ∧ Declares ds schema := by
  have ha : Declaration.WellFormed
      ⟨[], ascii "a", [32], ascii "varchar", some (ascii "16"), [32]⟩ := by
    refine Declaration.wellFormed_of_all rfl rfl (by decide) (by decide) (by decide) ?_
    intro digits hdigits
    cases hdigits
    decide
  have hb : Declaration.WellFormed ⟨[32], ascii "b", [32], ascii "int", none, []⟩ := by
    refine Declaration.wellFormed_of_all rfl rfl (by decide) (by decide) (by decide) ?_
    intro digits hdigits
    cases hdigits
  have hds := List.forall_mem_cons.mpr ⟨ha, List.forall_mem_singleton.mpr hb⟩
  have hfit : OffsetsFit [⟨[], ascii "a", [32], ascii "varchar", some (ascii "16"), [32]⟩,
      ⟨[32], ascii "b", [32], ascii "int", none, []⟩] := by
    unfold OffsetsFit
    decide
  obtain ⟨schema, hparse, hdeclares⟩ := ((parses_iff hds).1 (by decide)).mpr (by
    refine ⟨List.forall_mem_cons.mpr ⟨⟨rfl, ?_⟩, List.forall_mem_singleton.mpr ⟨rfl, ?_⟩⟩, hfit⟩
    · intro digits hdigits
      cases hdigits
      decide
    · intro digits hdigits
      cases hdigits)
  exact ⟨_, schema, by decide, hparse, hdeclares⟩

/-- With two spaces, the type is not found. -/
theorem exists_statement_not_read : ∃ d : Declaration, d.WellFormed ∧ d.entry ≠ none ∧
    createStatement [d] = ascii "a  int" ∧
    ¬∃ schema, parseCreateStatement (createStatement [d]) = .ok schema ∧ Declares [d] schema := by
  refine ⟨⟨[], ascii "a", [32, 32], ascii "int", none, []⟩, ?_, by decide, by decide, ?_⟩
  · refine Declaration.wellFormed_of_all rfl rfl (by decide) (by decide) (by decide) ?_
    intro digits hdigits
    cases hdigits
  · rintro ⟨schema, hparse, -⟩
    have herror : (parseCreateStatement (createStatement
        [⟨[], ascii "a", [32, 32], ascii "int", none, []⟩])).isOk = false := by decide
    rw [hparse] at herror
    cases herror

end ScuDb
