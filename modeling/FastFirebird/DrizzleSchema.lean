import FastFirebird.DrizzleNames
import FastFirebird.Scanner

/-! `introspect.ts`: the schema module that is written for introspected tables. A piece of its text
that a name has been pasted into is kept by itself, together with the name. -/
namespace FastFirebird.Drizzle

/-- A row of the system tables. -/
structure RawColumn where
  col : Text
  notnull : Option Int := none
  domNotnull : Option Int := none
  ident : Option Int := none
  defsrc : Option Text := none
  ftype : Int
  fsub : Option Int := none
  fscale : Option Int := none
  fprec : Option Int := none
  fchars : Option Int := none
  deriving Repr, DecidableEq

/-- The call of a builder: the function, the name that is its first argument, and what comes behind
that. -/
structure Builder where
  fn : Text
  col : Text
  options : Text
  deriving Repr, DecidableEq

structure MappedType where
  sqlType : Text
  builder : Text → Builder

def quoted (name : Text) : Text := '\'' :: (name ++ ['\''])

/-- `${n}` -/
def number (n : Int) : Text := (toString n).toList

def call (fn options : String) (col : Text) : Builder := ⟨fn.toList, col, options.toList⟩

section
variable (c : RawColumn)

def scale : Int := -c.fscale.getD 0

/-- `prec || 18` -/
def precision : Int := if c.fprec.getD 0 = 0 then 18 else c.fprec.getD 0

def numeric (bits : String) : MappedType :=
  let sub := c.fsub.getD 0
  if 0 < scale c ∨ sub = 1 ∨ sub = 2 then
    { sqlType := (if sub = 2 then "DECIMAL" else "NUMERIC").toList ++ '(' :: number (precision c) ++
        ',' :: number (scale c) ++ [')']
      builder := fun col =>
        { fn := (if sub = 2 then "decimal" else "numeric").toList
          col := col
          options := ", \x7b precision: ".toList ++ number (precision c) ++ ", scale: ".toList ++
            number (scale c) ++ " \x7d)".toList } }
  else if bits = "SMALLINT" then ⟨"SMALLINT".toList, call "smallint" ")"⟩
  else if bits = "INTEGER" then ⟨"INTEGER".toList, call "integer" ")"⟩
  else ⟨bits.toList, call "bigint" ", \x7b mode: 'bigint' \x7d)"⟩

/-- `CHAR` and `VARCHAR` -/
def characters (sqlType fn : String) : MappedType :=
  let length := number (c.fchars.getD 1)
  { sqlType := sqlType.toList ++ '(' :: length ++ [')']
    builder := fun col => ⟨fn.toList, col, ", \x7b length: ".toList ++ length ++ " \x7d)".toList⟩ }

def mapType : MappedType :=
  match c.ftype with
  | 7 => numeric c "SMALLINT"
  | 8 => numeric c "INTEGER"
  | 16 => numeric c "BIGINT"
  | 26 => numeric c "INT128"
  | 10 => ⟨"FLOAT".toList, call "real" ")"⟩
  | 27 => ⟨"DOUBLE PRECISION".toList, call "doublePrecision" ")"⟩
  | 12 => ⟨"DATE".toList, call "date" ")"⟩
  | 13 => ⟨"TIME".toList, call "time" ")"⟩
  | 35 => ⟨"TIMESTAMP".toList, call "timestamp" ")"⟩
  | 28 => ⟨"TIME WITH TIME ZONE".toList, call "time" ") /* WITH TIME ZONE */"⟩
  | 29 => ⟨"TIMESTAMP WITH TIME ZONE".toList, call "timestamp" ") /* WITH TIME ZONE */"⟩
  | 14 => characters c "CHAR" "char"
  | 37 => characters c "VARCHAR" "varchar"
  | 23 => ⟨"BOOLEAN".toList, call "boolean" ")"⟩
  | 24 => ⟨"DECFLOAT(16)".toList, call "numeric" ") /* DECFLOAT(16) */"⟩
  | 25 => ⟨"DECFLOAT(34)".toList, call "numeric" ") /* DECFLOAT(34) */"⟩
  | 261 =>
    if c.fsub.getD 0 = 1 then ⟨"BLOB SUB_TYPE TEXT".toList, call "blobText" ")"⟩
    else ⟨"BLOB SUB_TYPE BINARY".toList, call "blob" ")"⟩
  | _ =>
    { sqlType := "UNKNOWN(".toList ++ number c.ftype ++ [')']
      builder := fun col =>
        ⟨"varchar".toList, col, ") /* unmapped RDB$FIELD_TYPE ".toList ++ number c.ftype ++
          " */".toList⟩ }

end

structure IntrospectedColumn where
  name : Text
  sqlType : Text
  builder : Builder
  nullable : Bool
  identity : Bool
  defaultSource : Option Text
  deriving Repr, DecidableEq

structure IntrospectedTable where
  name : Text
  columns : List IntrospectedColumn
  primaryKey : List Text
  deriving Repr, DecidableEq

/-- What `introspectDatabase` makes of a row. -/
def introspectColumn (c : RawColumn) : IntrospectedColumn :=
  { name := c.col
    sqlType := (mapType c).sqlType
    builder := (mapType c).builder c.col
    nullable := !(c.notnull = some 1 || c.domNotnull = some 1)
    identity := c.ident.isSome
    defaultSource := (c.defsrc.map trim).filter fun source => !source.isEmpty }

/-- A table as `introspectDatabase` returns it: its columns come from rows, and its primary key is
an index on columns of its own. -/
structure Introspected (t : IntrospectedTable) : Prop where
  columns : ∀ c ∈ t.columns, ∃ raw, c = introspectColumn raw
  primaryKey : ∀ name ∈ t.primaryKey, name ∈ t.columns.map (·.name)

/-! The parts of an export -/

structure ColumnLine where
  column : Text
  key : Text
  fn : Text
  literal : Text
  rest : Text
  deriving Repr, DecidableEq

structure Reference where
  column : Text
  text : Text
  deriving Repr, DecidableEq

structure Export where
  identifier : Text
  literal : Text
  columns : List ColumnLine
  references : List Reference
  deriving Repr, DecidableEq

def notes (c : IntrospectedColumn) : List Text :=
  (if c.identity then ["identity".toList] else []) ++ c.defaultSource.toList

section
variable (cases : LowerCase)

def line (singlePk : Option Text) (c : IntrospectedColumn) : ColumnLine :=
  { column := c.name
    key := camel cases c.name
    fn := c.builder.fn
    literal := quoted c.builder.col
    rest := c.builder.options ++
      (if singlePk = some c.name then ".primaryKey()".toList else []) ++
      (if c.nullable = false ∧ singlePk ≠ some c.name then ".notNull()".toList else []) ++ [','] ++
      if notes c = [] then [] else " // ".toList ++ List.intercalate "; ".toList (notes c) }

def exportOf (t : IntrospectedTable) : Export :=
  let singlePk := if t.primaryKey.length = 1 then t.primaryKey.head? else none
  { identifier := camel cases t.name
    literal := quoted t.name
    columns := t.columns.map (line cases singlePk)
    references := if 1 < t.primaryKey.length then
      t.primaryKey.map fun c => ⟨c, camel cases c⟩ else [] }

end

def ColumnLine.text (l : ColumnLine) : Text :=
  "  ".toList ++ l.key ++ ": ".toList ++ l.fn ++ ['('] ++ l.literal ++ l.rest

def Export.text (e : Export) : Text :=
  "export const ".toList ++ e.identifier ++ " = firebirdTable(".toList ++ e.literal ++
    ", \x7b\n".toList ++ List.intercalate ['\n'] (e.columns.map ColumnLine.text) ++ "\n\x7d".toList ++
    if e.references = [] then ");".toList
    else ", (t) => [primaryKey(\x7b columns: [".toList ++
      List.intercalate ", ".toList (e.references.map fun r => "t.".toList ++ r.text) ++
      "] \x7d)]);".toList

/-- The functions that the module uses, in the order of `sort`. -/
def used (exports : List Export) : List Text :=
  let names := exports.flatMap fun e =>
    e.columns.map (·.fn) ++ if e.references = [] then [] else ["primaryKey".toList]
  names.eraseDups.mergeSort fun a b => !decide (b < a)

def generateDrizzleSchema (cases : LowerCase) (tables : List IntrospectedTable) : Text :=
  let exports := tables.map (exportOf cases)
  "// Generated by @fast-firebird/drizzle introspection — review before use.\nimport \x7b ".toList ++
    List.intercalate ", ".toList ("firebirdTable".toList :: used exports) ++
    " \x7d from '@fast-firebird/drizzle';\n\n".toList ++
    List.intercalate "\n\n".toList (exports.map Export.text) ++ ['\n']

end FastFirebird.Drizzle
