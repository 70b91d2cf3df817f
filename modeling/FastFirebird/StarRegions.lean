import FastFirebird.Cuts
import FastFirebird.Regions
import FastFirebird.StarLexemes

/-! The lexer of `api/expand-star.ts` beside the walk with `regionAt`: both cut a text into pieces. -/
namespace FastFirebird

open Cut (total chop chop_cons total_chop Cuts)

/-! The two walks -/

/-- A region, or one character outside of all of them. -/
def regionStep (text : Text) : Option Region × Nat :=
  match regionAt text with
  | none => (none, 1)
  | some r => (some r, r.length)

/-- The text as a walk with `regionAt` goes through it. -/
def walk (text : Text) : List (Option Region × Nat) := chop regionStep text

def LexStep.isToken : LexStep → Bool
  | .skip _ => false
  | .token _ => true

/-- The tokens, and what is skipped between them. -/
def lexed (text : Text) : List (Bool × Nat) :=
  chop (fun text => ((lexStep text).isToken, (lexStep text).length)) text

theorem lexStep_cuts :
    Cuts fun text : Text => ((lexStep text).isToken, (lexStep text).length) :=
  lexStep_bounds

theorem regionStep_cuts : Cuts regionStep := by
  intro c rest
  cases h : regionAt (c :: rest) with
  | none =>
    rw [regionStep, h]
    exact ⟨le_rfl, Nat.le_add_left 1 _⟩
  | some r =>
    rw [regionStep, h]
    exact regionAt_length h

theorem walk_char {c : Char} {rest : Text} (h : regionAt (c :: rest) = none) :
    walk (c :: rest) = (none, 1) :: walk rest := by
  have hwalk := chop_cons regionStep_cuts c rest
  rw [regionStep, h] at hwalk
  exact hwalk

theorem walk_region {text : Text} {r : Region} (h : regionAt text = some r) :
    walk text = (some r, r.length) :: walk (text.drop r.length) := by
  cases text with
  | nil => cases h
  | cons c rest =>
    have hwalk := chop_cons regionStep_cuts c rest
    rw [regionStep, h] at hwalk
    exact hwalk

theorem lexed_cons (c : Char) (rest : Text) : lexed (c :: rest) =
    ((lexStep (c :: rest)).isToken, (lexStep (c :: rest)).length) ::
      lexed ((c :: rest).drop (lexStep (c :: rest)).length) :=
  chop_cons lexStep_cuts c rest

theorem total_lexed (text : Text) : total (lexed text) = text.length :=
  total_chop lexStep_cuts text

/-! A step of the lexer where a region starts, and where none does -/

/-- The characters of the identifier or the number that starts here, or the one character. -/
def wordLength : Text → Nat
  | [] => 0
  | c :: rest =>
    if isSpace c then 1
    else if isIdStart c then 1 + (rest.takeWhile isIdPart).length
    else if '0' ≤ c ∧ c ≤ '9' then 1 + (rest.takeWhile isNumPart).length
    else 1

theorem lexStep_char {c : Char} {rest : Text} (h : regionAt (c :: rest) = none) :
    lexStep (c :: rest) = if isSpace c then .skip 1 else .token (wordLength (c :: rest)) := by
  obtain ⟨hdash, hslash, hq, happos, hquote⟩ := regionAt_eq_none.mp h
  have hstep := lexStep_stepsAs c rest
  generalize lexStep (c :: rest) = step at hstep
  simp only [wordLength]
  cases hstep with
  | space hs => rw [if_pos hs]
  | line hc hr => exact absurd ⟨hc, hr⟩ hdash
  | block hc hr => exact absurd ⟨hc, hr⟩ hslash
  | string hc => exact absurd hc happos
  | qLiteral hc hr => exact absurd ⟨hc, hr⟩ hq
  | quoted hc => exact absurd hc hquote
  | word hs hc =>
    rw [if_neg (Bool.eq_false_iff.mp hs), if_neg (Bool.eq_false_iff.mp hs), if_pos hc]
  | number hs hc =>
    have hword : ¬ isIdStart c = true := Bool.eq_false_iff.mp (isDigitChar_not_idStart hc)
    rw [if_neg (Bool.eq_false_iff.mp hs), if_neg (Bool.eq_false_iff.mp hs), if_neg hword]
    exact congrArg LexStep.token (if_pos hc).symm
  | other hs hd hb ha hq' hi hn =>
    rw [if_neg (Bool.eq_false_iff.mp hs), if_neg (Bool.eq_false_iff.mp hs),
      if_neg (Bool.eq_false_iff.mp hi)]
    exact congrArg LexStep.token (if_neg hn).symm

theorem region_length (type : RegionType) (text : Text) (length : Option Nat) :
    (region type text length).length = length.getD text.length := by
  cases length <;> rfl

theorem region_type (type : RegionType) (text : Text) (length : Option Nat) :
    (region type text length).type = type := by
  cases length <;> rfl

/-- A line comment goes on to a line feed; `q'` at the end of the text is no literal; every other
region is one step. -/
theorem lexStep_region {c : Char} {rest : Text} {r : Region} (h : regionAt (c :: rest) = some r) :
    lexStep (c :: rest) =
      if r.type = .lineComment then .skip (1 + lineLength rest)
      else if r.type = .qLiteral ∧ rest.length = 1 then .token 1
      else if r.type = .quotedIdentifier then .token r.length
      else .skip r.length := by
  rw [regionAt] at h
  split at h
  · rename_i hc
    cases h
    exact (StepsAs.line hc.1 hc.2).eq
  split at h
  · rename_i hc
    cases h
    rw [region_length, region_type, (StepsAs.block hc.1 hc.2).eq]
    rfl
  split at h
  · rename_i hc
    split at h
    · -- `q'` and nothing behind it: the lexer takes the `q` for a word
      rename_i hbody
      cases h
      have hrest := head_cons hc.2
      rw [hbody] at hrest
      have hstart : isSpace c = false ∧ isIdStart c = true := by
        rcases hc.1 with rfl | rfl <;> decide
      have hstep : StepsAs c rest _ := .word hstart.1 hstart.2 fun _ _ => by
        rw [hrest]
        exact Nat.lt_succ_self 1
      rw [hstep.eq, hrest]
      rfl
    · rename_i opener body hbody
      cases h
      have hrest := head_cons hc.2
      rw [hbody] at hrest
      have hlen : 2 ≤ rest.length := by
        rw [hrest]
        exact Nat.le_add_left 2 _
      have hstep := (StepsAs.qLiteral hc.1 hc.2 hlen).eq
      rw [region_length, region_type, if_neg (by decide), if_neg (by omega), if_neg (by decide),
        hstep, hrest]
      rfl
  split at h
  · rename_i hc
    cases h
    subst hc
    rw [region_length, region_type, (StepsAs.string rfl).eq]
    rfl
  split at h
  · rename_i hc
    cases h
    subst hc
    rw [region_length, region_type, (StepsAs.quoted rfl).eq]
    rfl
  · cases h

end FastFirebird
