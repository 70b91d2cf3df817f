import Mathlib.Data.List.TakeWhile

/-! `script/scanner.ts`: the regions of a script text, and the text helpers the parser shares. A
position in a text is the rest of the text from there. -/
namespace FastFirebird

/-- A text. For the scanner, the parser and the lexers a string of the language is a text with one
character for each of its UTF-16 units (`Utf16.ofUnits`), so that lengths, offsets and columns count
units. -/
abbrev Text := List Char

instance : LawfulBEq Text := inferInstanceAs (LawfulBEq (List Char))

inductive RegionType where
  | lineComment
  | blockComment
  | string
  | quotedIdentifier
  | qLiteral
  deriving Repr, DecidableEq

/-- `length` is the source's `end - start`. -/
structure Region where
  type : RegionType
  length : Nat
  terminated : Bool
  deriving Repr, DecidableEq

/-- What the regular expressions call white space. -/
def isSpace (c : Char) : Bool :=
  c == ' ' || (9 ≤ c.toNat && c.toNat ≤ 13) || c.toNat == 0xA0 || c.toNat == 0x1680 ||
    (0x2000 ≤ c.toNat && c.toNat ≤ 0x200A) || c.toNat == 0x2028 || c.toNat == 0x2029 ||
    c.toNat == 0x202F || c.toNat == 0x205F || c.toNat == 0x3000 || c.toNat == 0xFEFF

theorem isSpace_toNat {c : Char} (h : isSpace c = true) : c.toNat ≤ 32 ∨ 0xA0 ≤ c.toNat := by
  simp only [isSpace, Bool.or_eq_true, beq_iff_eq, Bool.and_eq_true, decide_eq_true_eq] at h
  by_cases hc : c = ' '
  · left
    rw [hc]
    decide
  · simp only [hc, false_or] at h
    omega

theorem toLower_self {c : Char} (h : ¬ (65 ≤ c.toNat ∧ c.toNat ≤ 90)) : c.toLower = c := by
  have hupper : ¬ (c.val ≥ 'A'.val ∧ c.val ≤ 'Z'.val) := fun hupper =>
    h ⟨UInt32.le_iff_toNat_le.mp hupper.1, UInt32.le_iff_toNat_le.mp hupper.2⟩
  exact dif_neg hupper

theorem toLower_upper {c : Char} (hlow : 65 ≤ c.toNat) (hhigh : c.toNat ≤ 90) :
    c.toLower.toNat = c.toNat + 32 := by
  have hupper : c.val ≥ 'A'.val ∧ c.val ≤ 'Z'.val :=
    ⟨UInt32.le_iff_toNat_le.mpr hlow, UInt32.le_iff_toNat_le.mpr hhigh⟩
  have hlower : c.toLower.toNat = (c.toNat + 32) % 4294967296 := congrArg Char.toNat (dif_pos hupper)
  rw [hlower]
  exact Nat.mod_eq_of_lt (by omega)

theorem isSpace_toLower {c : Char} (h : isSpace c = true) : c.toLower = c := by
  have hbounds := isSpace_toNat h
  exact toLower_self (by omega)

def isEol (c : Char) : Bool := c == '\n' || c == '\r'

/-- How far `a` followed by `b` is away. -/
def pairAt (a b : Char) : Text → Option Nat
  | c :: d :: rest => if c = a ∧ d = b then some 0 else (pairAt a b (d :: rest)).map (· + 1)
  | _ => none

/-- The length of what is quoted, with the closing quote; a doubled quote stands for itself. -/
def quotedLength (quote : Char) : Text → Option Nat
  | [] => none
  | c :: rest =>
    if c = quote then
      match rest with
      | d :: rest => if d = quote then (quotedLength quote rest).map (· + 2) else some 1
      | [] => some 1
    else (quotedLength quote rest).map (· + 1)

def qCloser (opener : Char) : Char :=
  if opener = '\x7b' then '\x7d'
  else if opener = '[' then ']'
  else if opener = '(' then ')'
  else if opener = '<' then '>'
  else opener

/-- A region that ends behind `body`, or with the text. -/
def region (type : RegionType) (text : Text) : Option Nat → Region
  | some length => ⟨type, length, true⟩
  | none => ⟨type, text.length, false⟩

/-- The region that starts here, if one does. -/
def regionAt (text : Text) : Option Region :=
  match text with
  | [] => none
  | c :: rest =>
    if c = '-' ∧ rest.head? = some '-' then
      some ⟨.lineComment, 2 + ((rest.drop 1).takeWhile (!isEol ·)).length, true⟩
    else if c = '/' ∧ rest.head? = some '*' then
      some (region .blockComment text ((pairAt '*' '/' (rest.drop 1)).map (· + 4)))
    else if (c = 'q' ∨ c = 'Q') ∧ rest.head? = some '\'' then
      match rest.drop 1 with
      | [] => some (region .qLiteral text none)
      | opener :: body =>
        some (region .qLiteral text ((pairAt (qCloser opener) '\'' body).map (· + 5)))
    else if c = '\'' then some (region .string text ((quotedLength c rest).map (· + 1)))
    else if c = '"' then some (region .quotedIdentifier text ((quotedLength c rest).map (· + 1)))
    else none

def unterminatedMessage : RegionType → String
  | .blockComment => "Unterminated block comment"
  | .string => "Unterminated string"
  | .quotedIdentifier => "Unterminated quoted identifier"
  | .qLiteral => "Unterminated q-literal"
  | .lineComment => ""

def RegionType.isComment : RegionType → Bool
  | .lineComment | .blockComment => true
  | .string | .quotedIdentifier | .qLiteral => false

def trimEnd (text : Text) : Text := (text.reverse.dropWhile isSpace).reverse

def trim (text : Text) : Text := trimEnd (text.dropWhile isSpace)

/-- Line and column, counted from 1. -/
structure Position where
  line : Nat
  column : Nat
  deriving Repr, DecidableEq

namespace Position

def advance : Position → Text → Position
  | p, [] => p
  | p, c :: rest => advance (if c = '\n' then ⟨p.line + 1, 1⟩ else ⟨p.line, p.column + 1⟩) rest

end Position

structure ScriptParseError where
  message : String
  position : Position
  deriving Repr, DecidableEq

/-- A comment blanked out, but for its line ends. -/
def blank (comment : Text) : Text := comment.map fun c => if isEol c then c else ' '

/-- `stripComments`, with the position it has come to. Every round takes a character, so that
the length of the text is fuel enough. -/
def stripFrom : Nat → Position → Text → Except ScriptParseError Text
  | 0, _, _ => .ok []
  | _ + 1, _, [] => .ok []
  | fuel + 1, p, c :: rest =>
    match regionAt (c :: rest) with
    | none => (stripFrom fuel (p.advance [c]) rest).map (c :: ·)
    | some r =>
      if r.terminated then
        let taken := (c :: rest).take r.length
        (stripFrom fuel (p.advance taken) ((c :: rest).drop r.length)).map
          ((if r.type.isComment then blank taken else taken) ++ ·)
      else .error ⟨unterminatedMessage r.type, p⟩

def stripComments (text : Text) : Except ScriptParseError Text :=
  stripFrom text.length ⟨1, 1⟩ text

example : (stripComments "a--b\nc".toList) = .ok "a   \nc".toList := by decide

end FastFirebird
