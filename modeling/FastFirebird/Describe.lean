import FastFirebird.Octets
import FastFirebird.Utf8

/-! `protocol/info.ts`: how the description of a prepared statement is read from the clumplets of
its describe response. -/
namespace FastFirebird.Describe

/-- The items that occur in a describe response. -/
inductive SqlInfo where
  | end_
  | truncated
  | select
  | bind
  | describe_vars
  | describe_end
  | sqlda_seq
  | type
  | sub_type
  | scale
  | length
  | null_ind
  | field
  | relation
  | owner
  | alias_
  | stmt_type
  | relation_alias
  deriving Repr, DecidableEq

namespace SqlInfo

def code : SqlInfo → UInt8
  | end_ => 1
  | truncated => 2
  | select => 4
  | bind => 5
  | describe_vars => 7
  | describe_end => 8
  | sqlda_seq => 9
  | type => 11
  | sub_type => 12
  | scale => 13
  | length => 14
  | null_ind => 15
  | field => 16
  | relation => 17
  | owner => 18
  | alias_ => 19
  | stmt_type => 21
  | relation_alias => 25

def all : List SqlInfo :=
  [end_, truncated, select, bind, describe_vars, describe_end, sqlda_seq, type, sub_type, scale,
    length, null_ind, field, relation, owner, alias_, stmt_type, relation_alias]

def ofCode (b : UInt8) : Option SqlInfo := all.find? fun item => item.code = b

theorem ofCode_code (item : SqlInfo) : ofCode item.code = some item := by
  cases item <;> rfl

end SqlInfo

/-- `DESCRIBE_INFO_ITEMS` -/
def describeInfoItems : List SqlInfo :=
  [.stmt_type,
    .select, .describe_vars, .sqlda_seq, .type, .sub_type, .scale, .length, .field, .relation,
    .relation_alias, .owner, .alias_, .describe_end,
    .bind, .describe_vars, .sqlda_seq, .type, .sub_type, .scale, .length, .field, .relation,
    .owner, .alias_, .describe_end]

structure SqlVarDesc where
  type : Int := 0
  nullable : Bool := false
  subType : Int := 0
  scale : Int := 0
  length : Int := 0
  field : Option Text := none
  relation : Option Text := none
  owner : Option Text := none
  aliasName : Option Text := none
  relationAlias : Option Text := none
  deriving Repr, DecidableEq

/-- An array: what was never assigned is a hole. -/
abbrev Vars := List (Option SqlVarDesc)

structure StatementDescription where
  stmtType : Int := 0
  inputs : Vars := []
  outputs : Vars := []
  deriving Repr, DecidableEq

/-! The clumplet reader: what is left of the buffer -/

def outOfBounds : FirebirdError :=
  ⟨.other, "The value of \"offset\" is out of range", none⟩

def readUInt16LE : Bytes → Except FirebirdError (Nat × Bytes)
  | low :: high :: rest => .ok (low.toNat + 256 * high.toNat, rest)
  | _ => .error outOfBounds

def readInt (bytes : Bytes) : Except FirebirdError (Int × Bytes) := do
  let (len, rest) ← readUInt16LE bytes
  if len = 0 then .ok (0, rest)
  else if len = 1 ∨ len = 2 ∨ len = 4 then
    if rest.length < len then .error outOfBounds
    else .ok (signedLE (rest.take len), rest.drop len)
  else .error ⟨.protocol, "Unexpected info integer length " ++ toString len, none⟩

/-- A length that exceeds the buffer is read to its end. -/
def readString (bytes : Bytes) : Except FirebirdError (Text × Bytes) := do
  let (len, rest) ← readUInt16LE bytes
  return (Utf8.decode (rest.take len), rest.drop len)

/-! `parseDescribe` -/

inductive Side where
  | outputs
  | inputs
  deriving Repr, DecidableEq

/-- The variables of the parser: `vars` is the array that columns are assigned to, `current` where
the current column was. -/
structure Parsing where
  desc : StatementDescription := {}
  vars : Side := .outputs
  current : Option (Side × Int) := none
  deriving Repr, DecidableEq

def StatementDescription.of (desc : StatementDescription) : Side → Vars
  | .outputs => desc.outputs
  | .inputs => desc.inputs

def StatementDescription.withVars (desc : StatementDescription) (vars : Vars) :
    Side → StatementDescription
  | .outputs => { desc with outputs := vars }
  | .inputs => { desc with inputs := vars }

/-- `vars[index] = v`; a negative index is no element. -/
def Vars.assign (vars : Vars) (index : Int) (v : SqlVarDesc) : Vars :=
  if index < 0 then vars
  else if index.toNat < vars.length then vars.set index.toNat (some v)
  else vars ++ List.replicate (index.toNat - vars.length) none ++ [some v]

namespace Parsing

def startColumn (s : Parsing) (seq : Int) : Parsing :=
  { s with
    desc := s.desc.withVars (Vars.assign (s.desc.of s.vars) (seq - 1) {}) s.vars
    current := some (s.vars, seq - 1) }

/-- Assigns a property of `current!`. -/
def modify (s : Parsing) (f : SqlVarDesc → SqlVarDesc) : Except FirebirdError Parsing :=
  match s.current with
  | none => .error ⟨.other, "Cannot set properties of null", none⟩
  | some (side, index) =>
    .ok (if index < 0 then s
      else { s with
        desc := s.desc.withVars ((s.desc.of side).modify index.toNat (Option.map f)) side })

/-- `current!.property = r.readInt()` -/
def readProperty (s : Parsing) (bytes : Bytes) (f : Int → SqlVarDesc → SqlVarDesc) :
    Except FirebirdError (Parsing × Bytes) := do
  let (v, rest) ← readInt bytes
  return (← s.modify (f v), rest)

/-- `current!.property = r.readString()` -/
def readName (s : Parsing) (bytes : Bytes) (f : Text → SqlVarDesc → SqlVarDesc) :
    Except FirebirdError (Parsing × Bytes) := do
  let (name, rest) ← readString bytes
  return (← s.modify (f name), rest)

end Parsing

def truncatedError : FirebirdError :=
  ⟨.protocol, "Statement describe info truncated (too many columns)", none⟩

/-- One item, what follows it in the buffer, and what is left then. -/
def parseItem (item : SqlInfo) (s : Parsing) (bytes : Bytes) :
    Except FirebirdError (Parsing × Bytes) :=
  match item with
  | .stmt_type => do
    let (stmtType, rest) ← readInt bytes
    return ({ s with desc := { s.desc with stmtType := stmtType } }, rest)
  | .select => .ok ({ s with vars := .outputs }, bytes)
  | .bind => .ok ({ s with vars := .inputs }, bytes)
  | .describe_vars => do
    -- the declared count; the columns come from their own items
    let (_, rest) ← readInt bytes
    return (s, rest)
  | .describe_end => .ok ({ s with current := none }, bytes)
  | .sqlda_seq => do
    let (seq, rest) ← readInt bytes
    return (s.startColumn seq, rest)
  | .type => s.readProperty bytes fun t v => { v with type := t - t % 2, nullable := t % 2 = 1 }
  | .sub_type => s.readProperty bytes fun n v => { v with subType := n }
  | .scale => s.readProperty bytes fun n v => { v with scale := n }
  | .length => s.readProperty bytes fun n v => { v with length := n }
  | .null_ind => s.readProperty bytes fun n v => { v with nullable := n ≠ 0 }
  | .field => s.readName bytes fun name v => { v with field := some name }
  | .relation => s.readName bytes fun name v => { v with relation := some name }
  | .relation_alias => s.readName bytes fun name v => { v with relationAlias := some name }
  | .owner => s.readName bytes fun name v => { v with owner := some name }
  | .alias_ => s.readName bytes fun name v => { v with aliasName := some name }
  | .truncated => .error truncatedError
  | .end_ => .ok (s, bytes)

/-- `while (!r.done)`; every item takes at least one octet, `fuel` is how many there are. -/
def parseItems : (fuel : Nat) → Parsing → Bytes → Except FirebirdError StatementDescription
  | 0, s, _ => .ok s.desc
  | _, s, [] => .ok s.desc
  | fuel + 1, s, b :: bytes =>
    match SqlInfo.ofCode b with
    -- an unknown item: the parser stops
    | none => .ok s.desc
    | some .end_ => .ok s.desc
    | some item => do
      let (s', rest) ← parseItem item s bytes
      parseItems fuel s' rest

def parseDescribe (buf : Bytes) : Except FirebirdError StatementDescription :=
  parseItems buf.length {} buf

end FastFirebird.Describe
