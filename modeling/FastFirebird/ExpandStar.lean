import FastFirebird.Scanner
import FastFirebird.Packet

/-! `api/expand-star.ts`: the stars of a select list, written out as columns. A position in
a text is the rest of the text from there. -/
namespace FastFirebird

/-- `gap` is what the lexer skipped ahead of the token. -/
structure Tok where
  gap : Text
  text : Text
  lower : Text
  start : Text
  stop : Text
  depth : Int
  deriving Repr, DecidableEq

def isIdStart (c : Char) : Bool :=
  ('A' ≤ c && c ≤ 'Z') || ('a' ≤ c && c ≤ 'z') || c == '_' || c == '$' || 0x80 ≤ c.toNat

def isIdPart (c : Char) : Bool := isIdStart c || ('0' ≤ c && c ≤ '9')

def isNumPart (c : Char) : Bool := ('0' ≤ c && c ≤ '9') || c == '.'

/-- What the lexer does next, with the number of characters it takes. -/
inductive LexStep where
  | skip (length : Nat)
  | token (length : Nat)
  deriving Repr, DecidableEq

def LexStep.length : LexStep → Nat
  | .skip n | .token n => n

/-- Up to the end of the line, which goes with it. -/
def lineLength : Text → Nat
  | [] => 0
  | c :: rest => if c = '\n' then 1 else lineLength rest + 1

def lexStep (text : Text) : LexStep :=
  match text with
  | [] => .skip 0
  | c :: rest =>
    if isSpace c then .skip 1
    else if c = '-' ∧ rest.head? = some '-' then .skip (1 + lineLength rest)
    else if c = '/' ∧ rest.head? = some '*' then
      .skip (((pairAt '*' '/' (rest.drop 1)).map (· + 4)).getD text.length)
    else if c = '\'' then .skip (((quotedLength c rest).map (· + 1)).getD text.length)
    else if (c = 'q' ∨ c = 'Q') ∧ rest.head? = some '\'' ∧ 2 < text.length then
      .skip (((pairAt (qCloser (rest.getD 1 c)) '\'' (rest.drop 2)).map (· + 5)).getD text.length)
    else if c = '"' then .token (((quotedLength c rest).map (· + 1)).getD text.length)
    else if isIdStart c then .token (1 + (rest.takeWhile isIdPart).length)
    else if '0' ≤ c ∧ c ≤ '9' then .token (1 + (rest.takeWhile isNumPart).length)
    else .token 1

/-- The case mappings of strings. -/
structure CaseMaps where
  lower : Text → Text
  upper : Text → Text

section Lexer

variable (maps : CaseMaps)

/-- Words are compared in lower case, everything else as it is written. -/
def tokLower (text : Text) : Text :=
  if text.head?.any isIdStart then maps.lower text else text

/-- Every step takes a character, so that the length of the text is fuel enough. -/
def tokenizeFrom : Nat → Text → Int → Text → List Tok
  | 0, _, _, _ => []
  | fuel + 1, gap, depth, text =>
    match lexStep text with
    | .skip n =>
      if text.isEmpty then []
      else tokenizeFrom fuel (gap ++ text.take n) depth (text.drop n)
    | .token n =>
      let word := text.take n
      let depth := if word = [')'] then depth - 1 else depth
      ⟨gap, word, tokLower maps word, text, text.drop n, depth⟩ ::
        tokenizeFrom fuel [] (if word = ['('] then depth + 1 else depth) (text.drop n)

def tokenize (sql : Text) : List Tok := tokenizeFrom maps sql.length [] 0 sql

end Lexer

structure StarItem where
  qualifierText : Option Text
  qualifierKey : Option Text
  start : Text
  stop : Text
  deriving Repr, DecidableEq

/-- `.replace(/""/g, '"')` -/
def undouble : Text → Text
  | '"' :: '"' :: rest => '"' :: undouble rest
  | c :: rest => c :: undouble rest
  | [] => []

def double (text : Text) : Text := text.flatMap fun c => if c = '"' then ['"', '"'] else [c]

def unquote (maps : CaseMaps) (ident : Text) : Text :=
  if ident.head? = some '"' then undouble (ident.drop 1).dropLast else maps.upper ident

def quoteIdent (name : Text) : Text := '"' :: double name ++ ['"']

def expandStarError (message : Text) : FirebirdError :=
  { message := String.ofList ("expandStar: ".toList ++ message) }

/-- A keyword outside of all parentheses. -/
def Tok.isTop (word : String) (t : Tok) : Bool := t.depth == 0 && t.lower == word.toList

/-- The tokens from SELECT to FROM, both left out. -/
def selectTokens (toks : List Tok) : Option (List Tok) :=
  match toks.dropWhile (!Tok.isTop "select" ·) with
  | [] => none
  | _ :: rest =>
    if rest.any (Tok.isTop "from") then some (rest.takeWhile (!Tok.isTop "from" ·)) else none

/-- FIRST and SKIP with a number, a parameter, or an expression in parentheses. -/
def skipLimits : Nat → List Tok → List Tok
  | 0, list => list
  | _ + 1, [] => []
  | fuel + 1, t :: list =>
    if t.lower = "first".toList ∨ t.lower = "skip".toList then
      match list with
      | [] => []
      | u :: rest =>
        if u.lower = ['('] then skipLimits fuel ((rest.dropWhile (!Tok.isTop ")" ·)).drop 1)
        else skipLimits fuel rest
    else t :: list

def skipQuantifier : List Tok → List Tok
  | [] => []
  | t :: list =>
    if t.lower = "distinct".toList ∨ t.lower = "all".toList then list else t :: list

/-- What is left of the list without FIRST, SKIP, DISTINCT and ALL. -/
def skipPrefixes (list : List Tok) : List Tok := skipQuantifier (skipLimits list.length list)

/-- The select items between the commas outside of all parentheses. -/
def splitItems : List Tok → List (List Tok)
  | [] => [[]]
  | t :: list =>
    if t.isTop "," then [] :: splitItems list
    else
      match splitItems list with
      | [] => [[t]]
      | item :: items => (t :: item) :: items

section Rewrite

variable (maps : CaseMaps)

/-- `none` for a plain expression. -/
def classify (item : List Tok) : Option StarItem :=
  match item with
  | [t] => if t.text = ['*'] then some ⟨none, none, t.start, t.stop⟩ else none
  | [q, dot, t] =>
    if dot.text = ['.'] ∧ t.text = ['*'] ∧ q.text ≠ [')'] then
      some ⟨some q.text, some (unquote maps q.text), q.start, t.stop⟩
    else none
  | _ => none

/-- `outputs[cursor]` -/
def outputAt (outputs : List SqlVarDesc) (cursor : Int) : Option SqlVarDesc :=
  if cursor < 0 then none else outputs[cursor.toNat]?

/-- A slice bound; a negative one counts from the end. -/
def sliceBound (length : Nat) (i : Int) : Nat :=
  if i < 0 then (length + i).toNat else min i.toNat length

/-- `outputs.slice(start, stop)` -/
def sliceOutputs (outputs : List SqlVarDesc) (start stop : Int) : List SqlVarDesc :=
  (outputs.take (sliceBound outputs.length stop)).drop (sliceBound outputs.length start)

/-- The alias that a described column carries. -/
def fromAlias (d : SqlVarDesc) : Text := ((d.relationAlias.or d.relation).getD "").toList

def carries (key : Text) (d : SqlVarDesc) : Bool := fromAlias d == key

/-- How many outputs in a row carry the alias. -/
def runLength (key : Text) (outputs : List SqlVarDesc) : Nat := (outputs.takeWhile (carries key)).length

/-- Each star with the outputs that it is mapped to, and the cursor behind the last item.
`items` is the number of all items. -/
def mapOutputs (outputs : List SqlVarDesc) (items : Nat) :
    List (Option StarItem) → Int → Except FirebirdError (List (StarItem × List SqlVarDesc) × Int)
  | [], cursor => .ok ([], cursor)
  | none :: rest, cursor => mapOutputs outputs items rest (cursor + 1)
  | some item :: rest, cursor =>
    match item.qualifierKey with
    | none =>
      let run : Int := outputs.length - (items - 1 : Int)
      if run < 1 then throw (expandStarError "could not map * to the described columns".toList)
      else do
        let (stars, stop) ← mapOutputs outputs items rest (cursor + run)
        pure ((item, sliceOutputs outputs cursor (cursor + run)) :: stars, stop)
    | some key =>
      if (outputAt outputs cursor).any (carries key) then
        let stop := cursor + runLength key (outputs.drop cursor.toNat)
        -- leave enough outputs for the remaining items
        let stop := if outputs.length - stop < rest.length then
          (outputs.length - rest.length : Int) else stop
        let run := sliceOutputs outputs cursor stop
        if run.isEmpty then
          throw (expandStarError ("'".toList ++ item.qualifierText.getD [] ++
            ".*' matched no columns".toList))
        else do
          let (stars, last) ← mapOutputs outputs items rest stop
          pure ((item, run) :: stars, last)
      else
        throw (expandStarError ("'".toList ++ item.qualifierText.getD [] ++
          ".*' did not match the described columns (alias '".toList ++ key ++ "')".toList))

structure StarQuery where
  only : Option (List Text) := none
  exclude : Option (List Text) := none

/-- `only` first, then `exclude`; entries are bare or qualified. -/
def starKept (query : StarQuery) (d : SqlVarDesc) (qualKey : Option Text) : Bool :=
  let field := maps.upper (d.field.getD "").toList
  let qualified := match qualKey.filter (· ≠ []) with
    | some key => maps.upper key ++ '.' :: field
    | none => field
  let only := query.only.map (·.map maps.upper)
  let exclude := (query.exclude.getD []).map maps.upper
  only.all (fun only => only.contains field || only.contains qualified) &&
    !exclude.contains field && !exclude.contains qualified

/-- `d.field!`: a column without a name has nothing to replace quotes in. -/
def fieldName (d : SqlVarDesc) : Except FirebirdError Text :=
  match d.field with
  | some field => .ok field.toList
  | none =>
    .error { kind := .other
             message := "Cannot read properties of undefined (reading 'replace')" }

def columnText (star : StarItem) (d : SqlVarDesc) : Except FirebirdError Text := do
  let field ← fieldName d
  match star.qualifierText with
  | some q => pure (q ++ '.' :: quoteIdent field)
  | none =>
    -- qualified by the FROM alias when it is known
    match d.relationAlias.filter (· ≠ "") with
    | some a => pure (quoteIdent a.toList ++ '.' :: quoteIdent field)
    | none => pure (quoteIdent field)

structure Replacement where
  start : Text
  stop : Text
  text : Text

def keptColumns (query : StarQuery) (star : StarItem) (outputs : List SqlVarDesc) : List SqlVarDesc :=
  outputs.filter fun d =>
    starKept maps query d (star.qualifierKey.or (d.relationAlias.map String.toList))

def replacement (query : StarQuery) (star : StarItem) (outputs : List SqlVarDesc) :
    Except FirebirdError Replacement :=
  match keptColumns maps query star outputs with
  | [] =>
    throw (expandStarError ("exclude/only removed every column of '".toList ++
      star.qualifierText.getD ['*'] ++ "' — nothing left to select".toList))
  | cols => do
    let texts ← cols.mapM (columnText star)
    pure ⟨star.start, star.stop, (texts.intersperse ", ".toList).flatten⟩

def upTo (start stop : Text) : Text := start.take (start.length - stop.length)

/-- The text from a position on, with the replacements made. -/
def splice : Text → List Replacement → Text
  | pos, [] => pos
  | pos, r :: rs => upTo pos r.start ++ r.text ++ splice r.stop rs

def StarItem.isBare (s : StarItem) : Bool := s.qualifierKey.isNone

/-- What the rewrite of the stars comes to, once they are mapped to these outputs. -/
def replaceStars (sql : Text) (query : StarQuery) (stars : List (StarItem × List SqlVarDesc)) :
    Except FirebirdError Text := do
  let replacements ← stars.mapM fun (star, outputs) => replacement maps query star outputs
  pure (splice sql (replacements.mergeSort fun a b => b.start.length ≤ a.start.length))

def mapStars (parsed : List (Option StarItem)) (outputs : List SqlVarDesc) :
    Except FirebirdError (List (StarItem × List SqlVarDesc)) := do
  let (stars, cursor) ← mapOutputs outputs parsed.length parsed 0
  if cursor ≠ outputs.length then
    throw (expandStarError ("described ".toList ++ (toString outputs.length).toList ++
      " columns but the select list mapped ".toList ++ (toString cursor).toList ++
      " — leaving the statement untouched would be unsafe".toList))
  else pure stars

/-- `none` when there is nothing to do. -/
def expandStarSql (sql : Text) (outputs : List SqlVarDesc) (query : StarQuery) :
    Except FirebirdError (Option Text) :=
  let toks := tokenize maps sql
  match selectTokens toks with
  | none => .ok none
  | some list =>
    let parsed := (splitItems (skipPrefixes list)).map (classify maps)
    let stars := parsed.filterMap id
    if stars.isEmpty then .ok none
    else if 1 < (toks.filter (Tok.isTop "select")).length then
      .error (expandStarError
        "top-level UNION queries are not supported — list the columns explicitly".toList)
    else if 1 < stars.length ∧ stars.any StarItem.isBare then
      .error (expandStarError "bare * cannot be combined with qualified star items".toList)
    else do
      let mapped ← mapStars parsed outputs
      some <$> replaceStars maps sql query mapped

end Rewrite

end FastFirebird
