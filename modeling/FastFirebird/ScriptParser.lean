import FastFirebird.Scanner

/-! `script/parser.ts`: statements and client commands. -/
namespace FastFirebird

/-- `toLowerCase` and `toUpperCase` of single characters. -/
structure CaseMap where
  lower : Char → Text
  upper : Char → Text
  lower_ascii : ∀ c, c.toNat < 128 → lower c = [c.toLower]
  lower_space : ∀ c, isSpace c = true → lower c = [c]
  lower_ne_nil : ∀ c, lower c ≠ []
  lower_other : ∀ c, 128 ≤ c.toNat → ∀ d ∈ lower c, d.toNat < 128 → d = 'i' ∨ d = 'k'

/-- The letters beyond ASCII whose lower case is an ASCII letter, and no other. -/
def basicCase : CaseMap where
  lower c :=
    if c.toNat < 128 then [c.toLower]
    else if c = '\u0130' then ['i', '\u0307']
    else if c = '\u212A' then ['k']
    else [c]
  upper c := [c.toUpper]
  lower_ascii c h := if_pos h
  lower_space c h := by
    have hc : c ≠ '\u0130' ∧ c ≠ '\u212A' := by
      constructor
      · rintro rfl
        exact absurd h (by decide)
      · rintro rfl
        exact absurd h (by decide)
    rw [if_neg hc.1, if_neg hc.2]
    split
    · exact congrArg (fun d => [d]) (isSpace_toLower h)
    · rfl
  lower_ne_nil c := by
    split
    · simp
    · split
      · simp
      · split <;> simp
  lower_other c hc d hd hlow := by
    rw [if_neg (by omega)] at hd
    split at hd
    · rcases List.mem_cons.mp hd with rfl | hd
      · exact .inl rfl
      · rw [List.mem_singleton] at hd
        subst hd
        exact absurd hlow (by decide)
    · split at hd
      · exact .inr (List.mem_singleton.mp hd)
      · rw [List.mem_singleton] at hd
        subst hd
        omega

inductive Isolation where
  | snapshot
  | serializable
  | readCommitted
  | readCommittedNoRecVersion
  deriving Repr, DecidableEq

inductive LockWait where
  | forever
  | never
  | seconds (n : Nat)
  deriving Repr, DecidableEq

structure TransactionOptions where
  isolation : Option Isolation := none
  readOnly : Option Bool := none
  wait : Option LockWait := none
  autoCommit : Option Bool := none
  autoUpgradeReadOnly : Option Bool := none
  deriving Repr, DecidableEq

inductive StatementKind where
  | ddl
  | dml
  | other
  | client
  deriving Repr, DecidableEq

inductive ClientCommand where
  | reconnect
  | commit (retain : Bool)
  | rollback (retain : Bool)
  | setTransaction (options : TransactionOptions) (raw : Text)
  | setAutoDdl (on : Bool)
  | unsupported (reason : Text)
  deriving Repr, DecidableEq

structure ParsedStatement where
  sql : Text
  position : Position
  kind : StatementKind
  client : Option ClientCommand
  deriving Repr, DecidableEq

def isDigit (c : Char) : Bool := '0' ≤ c && c ≤ '9'

/-- `[a-z$_]`, as the text is in lower case where it is used. -/
def isWordStart (c : Char) : Bool := ('a' ≤ c && c ≤ 'z') || c == '$' || c == '_'

/-- `\w` -/
def isWordChar (c : Char) : Bool :=
  ('a' ≤ c && c ≤ 'z') || ('A' ≤ c && c ≤ 'Z') || isDigit c || c == '_'

def isNameChar (c : Char) : Bool := isWordChar c || c == '$'

/-- The matches of `/[a-z$_][\w$]*|\d+|\S/g`; every round takes a character. -/
def tokensFrom : Nat → Text → List Text
  | 0, _ => []
  | _ + 1, [] => []
  | fuel + 1, c :: rest =>
    if isSpace c then tokensFrom fuel rest
    else if isWordStart c then
      (c :: rest.takeWhile isNameChar) :: tokensFrom fuel (rest.dropWhile isNameChar)
    else if isDigit c then
      (c :: rest.takeWhile isDigit) :: tokensFrom fuel (rest.dropWhile isDigit)
    else [c] :: tokensFrom fuel rest

def tokens (text : Text) : List Text := tokensFrom text.length text

/-- `.replace(/;+\s*$/, '')` -/
def dropTerminators (text : Text) : Text :=
  match text.reverse.dropWhile isSpace with
  | ';' :: rest => (rest.dropWhile (· == ';')).reverse
  | _ => text

variable (cases : CaseMap)

def toLowerCase (text : Text) : Text := text.flatMap cases.lower

def toUpperCase (text : Text) : Text := text.flatMap cases.upper

/-- `(t2 ?? '<end>').toUpperCase()` -/
def upperOrEnd (token : Option Text) : Text := toUpperCase cases (token.getD "<end>".toList)

def unsupportedClause (clause : Text) : ClientCommand :=
  .unsupported ("SET TRANSACTION: unsupported clause ".toList ++ clause ++
    " — the driver cannot map it to TransactionOptions".toList)

/-- A decimal number, as `Number` reads a token of digits. -/
def digitsValue (token : Text) : Nat :=
  token.foldl (fun n c => 10 * n + (c.toNat - '0'.toNat)) 0

/-- The loop of `parseSetTransaction`. -/
def setTransactionFrom (raw : Text) : Nat → List Text → TransactionOptions → ClientCommand
  | 0, _, options => .setTransaction options raw
  | _ + 1, [], options => .setTransaction options raw
  | fuel + 1, t :: rest, options =>
    let next := rest.head?
    let next₂ := rest.tail.head?
    if t = "read".toList then
      if next = some "write".toList then
        setTransactionFrom raw fuel rest.tail { options with readOnly := some false }
      else if next = some "only".toList then
        setTransactionFrom raw fuel rest.tail { options with readOnly := some true }
      else if next = some "committed".toList ∨ next = some "uncommitted".toList then
        -- a bare READ COMMITTED has no record version
        setTransactionFrom raw fuel rest.tail
          { options with isolation := some .readCommittedNoRecVersion }
      else if next = some "consistency".toList then unsupportedClause "READ CONSISTENCY".toList
      else unsupportedClause ("READ ".toList ++ upperOrEnd cases next)
    else if t = "wait".toList then
      setTransactionFrom raw fuel rest { options with wait := some .forever }
    else if t = "no".toList then
      if next = some "wait".toList then
        setTransactionFrom raw fuel rest.tail { options with wait := some .never }
      else if next = some "version".toList ∨ next = some "record_version".toList then
        setTransactionFrom raw fuel rest.tail
          { options with isolation := some .readCommittedNoRecVersion }
      else if next = some "auto".toList then unsupportedClause "NO AUTO UNDO".toList
      else unsupportedClause ("NO ".toList ++ upperOrEnd cases next)
    else if t = "version".toList ∨ t = "record_version".toList then
      setTransactionFrom raw fuel rest { options with isolation := some .readCommitted }
    else if t = "isolation".toList then
      setTransactionFrom raw fuel (if next = some "level".toList then rest.tail else rest) options
    else if t = "snapshot".toList then
      if next = some "table".toList then
        setTransactionFrom raw fuel
          (if next₂ = some "stability".toList then rest.tail.tail else rest.tail)
          { options with isolation := some .serializable }
      else if next = some "at".toList then
        unsupportedClause "SNAPSHOT AT NUMBER (shared snapshots)".toList
      else setTransactionFrom raw fuel rest { options with isolation := some .snapshot }
    else if t = "lock".toList then
      if next = some "timeout".toList ∧ next₂.any (fun d => d ≠ [] ∧ d.all isDigit) then
        setTransactionFrom raw fuel rest.tail.tail
          { options with wait := some (.seconds (digitsValue (next₂.getD []))) }
      else unsupportedClause "LOCK (expected LOCK TIMEOUT <seconds>)".toList
    else if t = "auto".toList then
      if next = some "commit".toList then
        setTransactionFrom raw fuel rest.tail { options with autoCommit := some true }
      else unsupportedClause "AUTO RELEASE TEMP BLOBID".toList
    else if t = "reserving".toList then unsupportedClause "RESERVING (table reservation)".toList
    else if t = "ignore".toList then unsupportedClause "IGNORE LIMBO".toList
    else if t = "restart".toList then unsupportedClause "RESTART REQUESTS".toList
    else unsupportedClause ("starting at \"".toList ++ toUpperCase cases t ++ "\"".toList)

def parseSetTransaction (words : List Text) (raw : Text) : ClientCommand :=
  setTransactionFrom cases raw words.length words {}

/-- `COMMIT|ROLLBACK [WORK] [RETAIN [SNAPSHOT]]`, behind the head. -/
def parseFinish (w₁ : Text) (rest : List Text) : Option ClientCommand :=
  let rest := if rest.head? = some "work".toList then rest.tail else rest
  if w₁ = "rollback".toList ∧ rest.head? = some "to".toList then none
  else
    let retain : Bool := rest.head? = some "retain".toList
    let rest := if retain then
      if rest.tail.head? = some "snapshot".toList then rest.tail.tail else rest.tail
    else rest
    match rest with
    | t :: _ => some (.unsupported (toUpperCase cases w₁ ++ ": unexpected \"".toList ++
        toUpperCase cases t ++ "\" — expected [WORK] [RETAIN [SNAPSHOT]]".toList))
    | [] => some (if w₁ = "rollback".toList then .rollback retain else .commit retain)

/-- The classification of a statement by its tokens. -/
def classifyTokens (sql : Text) (words : List Text) : Option ClientCommand :=
  match words with
  | [] => none
  | w₁ :: rest =>
    if w₁ = "reconnect".toList then if rest = [] then some .reconnect else none
    else if w₁ = "commit".toList ∨ w₁ = "rollback".toList then parseFinish cases w₁ rest
    else if w₁ = "set".toList then
      if rest.head? = some "transaction".toList then some (parseSetTransaction cases rest.tail sql)
      else if rest.head? = some "autoddl".toList ∨ rest.head? = some "auto".toList then
        if rest.tail = ["on".toList] then some (.setAutoDdl true)
        else if rest.tail = ["off".toList] then some (.setAutoDdl false)
        else some (.unsupported ("SET AUTODDL requires an explicit ON or OFF ".toList ++
          "(the bare isql toggle depends on invisible state)".toList))
      else none
    else none

def classifyClientCommand (sql : Text) : Option ClientCommand :=
  match stripComments sql with
  | .error _ => none
  | .ok stripped =>
    classifyTokens cases sql (tokens (toLowerCase cases (dropTerminators stripped)))

/-- Every comment replaced by one blank; a block comment may end with the text. -/
def blankComments : Nat → Text → Text
  | 0, _ => []
  | _ + 1, [] => []
  | fuel + 1, c :: rest =>
    if c = '-' ∧ rest.head? = some '-' then
      ' ' :: blankComments fuel ((rest.drop 1).dropWhile (· ≠ '\n'))
    else if c = '/' ∧ rest.head? = some '*' then
      match pairAt '*' '/' (rest.drop 1) with
      | some k => ' ' :: blankComments fuel (rest.drop (k + 3))
      | none => [' ']
    else c :: blankComments fuel rest

/-- The matches of `/[a-z$_][\w$]*/g`. -/
def wordsFrom : Nat → Text → List Text
  | 0, _ => []
  | _ + 1, [] => []
  | fuel + 1, c :: rest =>
    if isWordStart c then
      (c :: rest.takeWhile isNameChar) :: wordsFrom fuel (rest.dropWhile isNameChar)
    else wordsFrom fuel rest

def ddlHeads : List Text :=
  ["create", "alter", "drop", "recreate", "comment", "grant", "revoke", "declare"].map (·.toList)

def dmlHeads : List Text := ["insert", "update", "delete", "merge"].map (·.toList)

def classifyServerStatement (sql : Text) : StatementKind :=
  let head := sql.take 400
  let text := toLowerCase cases (blankComments head.length head)
  let words := wordsFrom text.length text
  let w₁ := words.head?.getD []
  let w₂ := words.tail.head?.getD []
  if w₁ ∈ ddlHeads then .ddl
  else if w₁ = "set".toList then if w₂ = "generator".toList then .ddl else .other
  else if w₁ ∈ dmlHeads then .dml
  else if w₁ = "execute".toList then if w₂ = "procedure".toList then .dml else .other
  else .other

def classifyStatement (sql : Text) : StatementKind :=
  match classifyClientCommand cases sql with
  | some _ => .client
  | none => classifyServerStatement cases sql

/-- Whether two texts agree but for the case of their ASCII letters. -/
def sameLetters (a b : Text) : Bool := a.map Char.toLower == b.map Char.toLower

/-- What is behind a match of `/^set\s+term\b/i`. -/
def afterSetTerm (text : Text) : Option Text :=
  if sameLetters (text.take 3) "set".toList then
    let gap := (text.drop 3).takeWhile isSpace
    let rest := (text.drop 3).dropWhile isSpace
    if gap ≠ [] ∧ sameLetters (rest.take 4) "term".toList ∧
        !(rest.drop 4).head?.any isWordChar then some (rest.drop 4)
    else none
  else none

/-- The text from the first terminator on, and what is before it. -/
def splitAtTerminator (terminator : Text) : Text → Option (Text × Text)
  | [] => none
  | c :: rest =>
    if terminator.isPrefixOf (c :: rest) then some ([], c :: rest)
    else (splitAtTerminator terminator rest).map fun (before, at') => (c :: before, at')

def unterminated (type : RegionType) (p : Position) : ScriptParseError :=
  ⟨unterminatedMessage type, p⟩

/-- `skipTrivia` -/
def skipTrivia : Nat → Position → Text → Except ScriptParseError (Position × Text)
  | 0, p, text => .ok (p, text)
  | _ + 1, p, [] => .ok (p, [])
  | fuel + 1, p, c :: rest =>
    if isSpace c then skipTrivia fuel (p.advance [c]) rest
    else
      match regionAt (c :: rest) with
      | some r =>
        if r.type.isComment then
          if r.terminated then
            skipTrivia fuel (p.advance ((c :: rest).take r.length)) ((c :: rest).drop r.length)
          else .error ⟨"Unterminated block comment", p⟩
        else .ok (p, c :: rest)
      | none => .ok (p, c :: rest)

/-- The body of a statement, whether it has content, and the text behind its terminator. -/
structure StatementBody where
  text : Text := []
  sawContent : Bool := false
  position : Position
  rest : Text
  deriving Repr, DecidableEq

def StatementBody.prepend (taken : Text) (content : Bool) (b : StatementBody) : StatementBody :=
  { b with text := taken ++ b.text, sawContent := content || b.sawContent }

/-- The scan of a statement body, up to an unquoted terminator or the end. -/
def scanBody (terminator : Text) : Nat → Position → Text → Except ScriptParseError StatementBody
  | 0, p, text => .ok { position := p, rest := text }
  | _ + 1, p, [] => .ok { position := p, rest := [] }
  | fuel + 1, p, c :: rest =>
    match regionAt (c :: rest) with
    | some r =>
      if r.terminated then
        let taken := (c :: rest).take r.length
        (scanBody terminator fuel (p.advance taken) ((c :: rest).drop r.length)).map
          (StatementBody.prepend taken (!r.type.isComment))
      else .error (unterminated r.type p)
    | none =>
      if terminator ≠ [] ∧ terminator.isPrefixOf (c :: rest) then
        .ok { position := p.advance terminator, rest := (c :: rest).drop terminator.length }
      else (scanBody terminator fuel (p.advance [c]) rest).map (StatementBody.prepend [c] (!isSpace c))

/-- `tryConsumeSetTerm`: the new terminator, and the text behind the old one. -/
def consumeSetTerm (terminator : Text) (p : Position) (text : Text) :
    Except ScriptParseError (Text × Position × Text) :=
  match splitAtTerminator terminator text with
  | none => .error ⟨"SET TERM without a terminator", p⟩
  | some (command, rest) =>
    let new := trim ((afterSetTerm command).getD command)
    if new = [] then .error ⟨"SET TERM requires a new terminator", p⟩
    else .ok (new, p.advance (command ++ terminator), rest.drop terminator.length)

def statement (sql : Text) (p : Position) : ParsedStatement :=
  match classifyClientCommand cases sql with
  | some client => ⟨sql, p, .client, some client⟩
  | none => ⟨sql, p, classifyServerStatement cases sql, none⟩

/-- The loop of `parseScript`; every round takes a character. -/
def parseFrom : Nat → Text → Position → Text → Except ScriptParseError (List ParsedStatement)
  | 0, _, _, _ => .ok []
  | fuel + 1, terminator, p, text => do
    let (p, text) ← skipTrivia text.length p text
    if text = [] then return []
    if (afterSetTerm (text.take 12)).isSome then
      let (terminator, p, text) ← consumeSetTerm terminator p text
      parseFrom fuel terminator p text
    else
      let body ← scanBody terminator text.length p text
      let sql := trim body.text
      let rest ← parseFrom fuel terminator body.position body.rest
      return if body.sawContent ∧ sql ≠ [] then statement cases sql p :: rest else rest

def parseScript (script : Text) (terminator : Text) :
    Except ScriptParseError (List ParsedStatement) :=
  parseFrom cases script.length terminator ⟨1, 1⟩ script

end FastFirebird
