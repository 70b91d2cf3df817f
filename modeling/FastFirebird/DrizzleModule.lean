import FastFirebird.DrizzleSchema
import FastFirebird.JsTokens
import Mathlib.Data.List.Forall2

/-! The module that a schema should be: its tokens, and what they have to do with the tables. -/
namespace FastFirebird.Drizzle

open Utf16 (units)
open Js (IdChars Token Run)

def word (name : String) : Token := .ident name.toList

def commas (items : List (List Token)) : List Token := List.intercalate [.punct ','] items

inductive OptionValue where
  | int (n : Int)
  | string (value : List UInt16)

def OptionValue.tokens : OptionValue → List Token
  | .int (.ofNat n) => [.number (toString n).toList]
  | .int (.negSucc n) => [.punct '-', .number (toString (n + 1)).toList]
  | .string value => [.string value]

/-- `, { name: 1 }` -/
def optionTokens : List (Text × OptionValue) → List Token
  | [] => []
  | options =>
    [.punct ',', .punct '\x7b'] ++
      commas (options.map fun option => .ident option.1 :: .punct ':' :: option.2.tokens) ++
      [.punct '\x7d']

/-- `.name()` -/
def callTokens (name : Text) : List Token := [.punct '.', .ident name, .punct '(', .punct ')']

/-- `key: fn('NAME', { name: 1 }).call()` -/
structure Column where
  key : Token
  fn : Text
  literal : List UInt16
  options : List (Text × OptionValue)
  calls : List Text

def Column.tail (c : Column) : List Token :=
  optionTokens c.options ++ .punct ')' :: c.calls.flatMap callTokens

def Column.tokens (c : Column) : List Token :=
  [c.key, .punct ':', .ident c.fn, .punct '(', .string c.literal] ++ c.tail

/-- `, (t) => [primaryKey({ columns: [t.a, t.b] })]` -/
def referenceTokens : List Text → List Token
  | [] => []
  | references =>
    [.punct ',', .punct '(', word "t", .punct ')', .arrow, .punct '[', word "primaryKey", .punct '(',
        .punct '\x7b', word "columns", .punct ':', .punct '['] ++
      commas (references.map fun name => [word "t", .punct '.', .ident name]) ++
      [.punct ']', .punct '\x7d', .punct ')', .punct ']']

/-- `export const identifier = firebirdTable('NAME', { columns }, references);` -/
structure Table where
  identifier : Text
  literal : List UInt16
  columns : List Column
  references : List Text

def Table.tokens (t : Table) : List Token :=
  [word "export", word "const", .ident t.identifier, .punct '=', word "firebirdTable", .punct '(',
      .string t.literal, .punct ',', .punct '\x7b'] ++
    (t.columns.flatMap fun c => c.tokens ++ [.punct ',']) ++ .punct '\x7d' ::
    referenceTokens t.references ++ [.punct ')', .punct ';']

/-- `import { imports } from '@fast-firebird/drizzle'; tables` -/
structure Module where
  imports : List Text
  tables : List Table

def importTokens (imports : List Text) : List Token :=
  [word "import", .punct '\x7b'] ++ commas (imports.map fun name => [.ident name]) ++
    [.punct '\x7d', word "from", .string (units "@fast-firebird/drizzle".toList)]

def Module.tokens (m : Module) : List Token :=
  importTokens m.imports ++ .punct ';' :: m.tables.flatMap Table.tokens

/-! What the tokens have to do with the tables -/

structure Column.Valid (imports : List Text) (c : IntrospectedColumn) (col : Column) : Prop where
  key : col.key.property ≠ none
  fn : col.fn ∈ imports
  literal : col.literal = units c.name

/-- The columns that a primary key of several columns is made of. -/
def IntrospectedTable.references (t : IntrospectedTable) : List Text :=
  if 1 < t.primaryKey.length then t.primaryKey else []

/-- The reference is the key of the column of that name. -/
def Table.Resolves (t : IntrospectedTable) (table : Table) (name reference : Text) : Prop :=
  ∃ pair ∈ t.columns.zip table.columns,
    pair.1.name = name ∧ pair.2.key.property = some (units reference)

structure Table.Valid (imports : List Text) (t : IntrospectedTable) (table : Table) : Prop where
  literal : table.literal = units t.name
  columns : List.Forall₂ (Column.Valid imports) t.columns table.columns
  distinct : (table.columns.map (·.key.property)).Nodup
  references : List.Forall₂ (table.Resolves t) t.references table.references
  primaryKey : table.references ≠ [] → "primaryKey".toList ∈ imports

/-- The names that the module binds. -/
def Module.bindings (m : Module) : List Text := m.imports ++ m.tables.map (·.identifier)

structure Module.Valid (ids : IdChars) (tables : List IntrospectedTable) (m : Module) : Prop where
  binding : ∀ name ∈ m.bindings, Js.isBinding ids name = true
  distinct : m.bindings.Nodup
  firebirdTable : "firebirdTable".toList ∈ m.imports
  tables : List.Forall₂ (Table.Valid m.imports) tables m.tables

/-- The text is a module that exports the tables. -/
def WellFormed (ids : IdChars) (tables : List IntrospectedTable) (text : Text) : Prop :=
  ∃ m : Module, Run ids text m.tokens [] ∧ m.Valid ids tables

end FastFirebird.Drizzle
