import FastFirebird.ScriptComments
import FastFirebird.Utf16
import Mathlib.Data.List.Forall2
import Mathlib.Data.List.Induction

/-! The places of the statements in a script, and what lies outside them. -/
namespace FastFirebird

/-! ### Positions -/

/-- Earlier in a text: a line before, or on the line and to the left. -/
def Position.Before (p q : Position) : Prop :=
  p.line < q.line ∨ (p.line = q.line ∧ p.column < q.column)

theorem Position.Before.trans {p q r : Position} (h : p.Before q) (h' : q.Before r) :
    p.Before r := by
  unfold Position.Before at *
  omega

theorem Position.before_advance (p : Position) (c : Char) (text : Text) :
    p.Before (p.advance (c :: text)) := by
  have hstep : ∀ (q : Position) (d : Char),
      q.Before (if d = '\n' then ⟨q.line + 1, 1⟩ else ⟨q.line, q.column + 1⟩) := by
    intro q d
    split
    · exact .inl (Nat.lt_succ_self _)
    · exact .inr ⟨rfl, Nat.lt_succ_self _⟩
  induction text generalizing p c with
  | nil => exact hstep p c
  | cons d text ih => exact (hstep p c).trans (ih _ d)

/-- Two offsets in a text have different positions. -/
theorem Position.advance_take_inj {p : Position} {text : Text} {i j : Nat} (hi : i ≤ text.length)
    (hj : j ≤ text.length) (h : p.advance (text.take i) = p.advance (text.take j)) : i = j := by
  have hlt : ∀ {a b : Nat}, a < b → b ≤ text.length →
      (p.advance (text.take a)).Before (p.advance (text.take b)) := by
    intro a b hab hb
    have hsplit : text.take b = text.take a ++ (text.drop a).take (b - a) := by
      rw [← List.take_add]
      congr 1
      omega
    obtain ⟨c, rest, hrest⟩ : ∃ c rest, (text.drop a).take (b - a) = c :: rest := by
      apply List.exists_cons_of_length_pos
      rw [List.length_take, List.length_drop]
      omega
    rw [hsplit, hrest, Position.advance_append]
    exact Position.before_advance _ c rest
  have hirrefl : ∀ q : Position, ¬ q.Before q := by
    intro q hq
    unfold Position.Before at hq
    omega
  rcases Nat.lt_trichotomy i j with hij | hij | hij
  · exact absurd (h ▸ hlt hij hj) (hirrefl _)
  · exact hij
  · exact absurd (h ▸ hlt hij hi) (hirrefl _)

/-! ### The places of the statements -/

/-- The offset of each statement and its text, of which the items from offset `o` on are given. -/
def places : Nat → List Item → List (Nat × Text)
  | _, [] => []
  | o, .body pieces closing :: items =>
    let rest := places (o + (piecesText pieces ++ closing).length) items
    let sql := trim (piecesText pieces)
    if pieces.any Piece.content ∧ sql ≠ [] then (o, sql) :: rest else rest
  | o, item :: items => places (o + item.text.length) items

/-- What the parser takes a character as part of. -/
inductive Role where
  | space
  | comment
  | terminator
  | setTerm
  | code
  deriving Repr, DecidableEq

def Piece.roles : Piece → List Role
  | char c => [if isSpace c then .space else .code]
  | region type text => List.replicate text.length (if type.isComment then .comment else .code)

def Item.roles : Item → List Role
  | trivia pieces => pieces.flatMap Piece.roles
  | setTerm command terminator _ => List.replicate (command ++ terminator).length .setTerm
  | body pieces closing => pieces.flatMap Piece.roles ++ List.replicate closing.length .terminator

def roles (items : List Item) : List Role := items.flatMap Item.roles

/-- The place of a statement in a text: it stands there, and its line and column denote that offset
and no other. -/
structure StandsAt (script : Text) (s : ParsedStatement) (place : Nat × Text) : Prop where
  sql : place.2 = s.sql
  fits : place.1 + s.sql.length ≤ script.length
  stands : (script.drop place.1).take s.sql.length = s.sql
  denotes : (⟨1, 1⟩ : Position).advance (script.take place.1) = s.position
  only : ∀ o, o ≤ script.length → (⟨1, 1⟩ : Position).advance (script.take o) = s.position →
    o = place.1

/-- Places one behind the other. -/
def InOrder {α : Type} (ps : List (Nat × List α)) : Prop :=
  ps.Pairwise fun p q => p.1 + p.2.length ≤ q.1

def Outside {α : Type} (ps : List (Nat × List α)) (i : Nat) : Prop :=
  ∀ p ∈ ps, ¬ (p.1 ≤ i ∧ i < p.1 + p.2.length)

/-- White space, or part of a comment, of a terminator or of a SET TERM command. -/
def Ignored (script : Text) (items : List Item) (i : Nat) : Prop :=
  script[i]?.any isSpace = true ∨ (roles items)[i]? = some .comment ∨
    (roles items)[i]? = some .terminator ∨ (roles items)[i]? = some .setTerm

/-! ### The text of a body -/

theorem trim_eq_trimEnd {c : Char} {text : Text} (h : isSpace c = false) :
    trim (c :: text) = trimEnd (c :: text) := by
  rw [trim, List.dropWhile_cons_of_neg (by rw [h]; exact Bool.false_ne_true)]

theorem trimEnd_blanks (text : Text) :
    ∃ blanks, text = trimEnd text ++ blanks ∧ ∀ c ∈ blanks, isSpace c = true := by
  refine ⟨(text.reverse.takeWhile isSpace).reverse, ?_, ?_⟩
  · rw [trimEnd, ← List.reverse_append, List.takeWhile_append_dropWhile, List.reverse_reverse]
  · intro c hc
    rw [List.mem_reverse] at hc
    exact List.mem_takeWhile_imp hc

/-- A body starts at its code, so that only blanks at its end are trimmed. -/
theorem BodyScan.trimmed {terminator text closing rest : Text} {pieces : List Piece}
    (h : BodyScan terminator text pieces closing rest) (hstart : StartsCode text) :
    ∃ blanks, piecesText pieces = trim (piecesText pieces) ++ blanks ∧
      ∀ c ∈ blanks, isSpace c = true := by
  cases hpieces : piecesText pieces with
  | nil => exact ⟨[], rfl, by simp⟩
  | cons c body =>
    have htext := h.text_eq
    rw [hpieces] at htext
    rw [htext] at hstart
    rw [trim_eq_trimEnd hstart.1]
    exact trimEnd_blanks _

/-- Where a body is not a statement, it is empty. -/
theorem BodyScan.no_content {terminator text closing rest : Text} {pieces : List Piece}
    (h : BodyScan terminator text pieces closing rest) (hstart : StartsCode text)
    (hcontent : ¬ (pieces.any Piece.content = true ∧ trim (piecesText pieces) ≠ [])) :
    pieces = [] := by
  have htrim : ∀ c body, isSpace c = false → trim (c :: body) ≠ [] := by
    intro c body hc hnil
    rw [trim_eq_trimEnd hc] at hnil
    obtain ⟨blanks, hblanks, hspace⟩ := trimEnd_blanks (c :: body)
    rw [hnil, List.nil_append] at hblanks
    rw [hspace c (by rw [← hblanks]; exact List.mem_cons_self)] at hc
    cases hc
  cases h with
  | done => rfl
  | closed _ _ => rfl
  | @region text closing rest r pieces hopens hrest =>
    obtain ⟨c, body, rfl⟩ : ∃ c body, text = c :: body := by
      cases text with
      | nil => cases hopens
      | cons c body => exact ⟨c, body, rfl⟩
    have hpos := hopens.length_pos
    have htake : (c :: body).take r.length = c :: body.take (r.length - 1) := by
      obtain ⟨k, hk⟩ := Nat.exists_eq_add_of_le' (Nat.le_of_succ_le hpos.1)
      rw [hk]
      rfl
    refine absurd ⟨?_, ?_⟩ hcontent
    · rw [List.any_cons, Piece.content, hstart.2 r hopens.regionAt.1]
      rfl
    · rw [piecesText_cons, Piece.text, htake]
      exact htrim c _ hstart.1
  | @char c text closing rest pieces hnone _ hrest =>
    refine absurd ⟨?_, ?_⟩ hcontent
    · rw [List.any_cons, Piece.content, hstart.1]
      rfl
    · exact htrim c _ hstart.1

/-! ### Roles, character by character -/

theorem pieces_roles_length (pieces : List Piece) :
    (pieces.flatMap Piece.roles).length = (piecesText pieces).length := by
  induction pieces with
  | nil => rfl
  | cons piece pieces ih =>
    have hpiece : piece.roles.length = piece.text.length := by
      cases piece with
      | char c => rfl
      | region type text => exact List.length_replicate
    rw [List.flatMap_cons, List.length_append, ih, hpiece, piecesText_cons, List.length_append]

theorem item_roles_length (item : Item) : item.roles.length = item.text.length := by
  cases item with
  | trivia pieces => exact pieces_roles_length pieces
  | setTerm command terminator new => exact List.length_replicate
  | body pieces closing =>
    rw [Item.roles, Item.text, List.length_append, List.length_append, pieces_roles_length,
      List.length_replicate]

theorem Ignored.append_left {taken text : Text} {item : Item} {items : List Item} {i : Nat}
    (h : Ignored taken [item] i) : Ignored (taken ++ text) (item :: items) i := by
  have hkeep : ∀ role, (roles [item])[i]? = some role → (roles (item :: items))[i]? = some role := by
    intro role hrole
    have hi := (List.getElem?_eq_some_iff.mp hrole).1
    have hone : roles [item] = item.roles := List.append_nil _
    rw [hone] at hrole hi
    have hcons : roles (item :: items) = item.roles ++ roles items := rfl
    rw [hcons, List.getElem?_append_left hi, hrole]
  rcases h with hspace | hcomment | hterminator | hset
  · left
    cases hc : taken[i]? with
    | none =>
      rw [hc] at hspace
      cases hspace
    | some c =>
      have hi := (List.getElem?_eq_some_iff.mp hc).1
      rw [List.getElem?_append_left hi]
      exact hspace
  · exact .inr (.inl (hkeep _ hcomment))
  · exact .inr (.inr (.inl (hkeep _ hterminator)))
  · exact .inr (.inr (.inr (hkeep _ hset)))

theorem Ignored.append_right {taken text : Text} {item : Item} {items : List Item} {i : Nat}
    (h : Ignored text items i) (hroles : item.roles.length = taken.length) :
    Ignored (taken ++ text) (item :: items) (taken.length + i) := by
  have hcons : roles (item :: items) = item.roles ++ roles items := rfl
  rw [Ignored, hcons, List.getElem?_append_right (by omega), List.getElem?_append_right (by omega),
    hroles, Nat.add_sub_cancel_left]
  exact h

/-- Trivia are white space and comments. -/
theorem Trivia.ignored {text behind : Text} {pieces : List Piece} (h : Trivia text pieces behind)
    {i : Nat} (hi : i < (piecesText pieces).length) :
    (piecesText pieces)[i]?.any isSpace = true ∨
      (pieces.flatMap Piece.roles)[i]? = some .comment := by
  induction h generalizing i with
  | stop _ => simp [piecesText] at hi
  | @space c rest behind pieces hspace _ ih =>
    cases i with
    | zero => exact .inl hspace
    | succ i => exact ih (Nat.lt_of_succ_lt_succ hi)
  | @comment text behind r pieces hopens hcomment _ ih =>
    have hroles : (Piece.region r.type (text.take r.length)).roles =
        List.replicate (text.take r.length).length .comment := by
      rw [Piece.roles, if_pos hcomment]
    rw [piecesText_cons, List.length_append] at hi
    rw [piecesText_cons, List.flatMap_cons, hroles]
    by_cases hregion : i < (text.take r.length).length
    · right
      rw [List.getElem?_append_left (by rwa [List.length_replicate]), List.getElem?_replicate,
        if_pos hregion]
    · obtain ⟨j, rfl⟩ := Nat.exists_eq_add_of_le (Nat.le_of_not_lt hregion)
      have hj : j < (piecesText pieces).length := by
        rw [Piece.text] at hi
        omega
      have hrest := ih hj
      rw [Piece.text, List.getElem?_append_right (Nat.le_add_right _ _), Nat.add_sub_cancel_left,
        List.getElem?_append_right (by rw [List.length_replicate]; omega), List.length_replicate,
        Nat.add_sub_cancel_left]
      exact hrest

/-! ### The items from some offset on -/

section From

variable (cases : CaseMap)

/-- What holds of the items behind `before`: the statements are at their places, and the rest is
ignored. -/
structure Placed (before text : Text) (items : List Item) : Prop where
  statements : (assemble cases ((⟨1, 1⟩ : Position).advance before) items).map
      (fun s => (s.sql, s.position)) =
    (places before.length items).map
      fun p => (p.2, (⟨1, 1⟩ : Position).advance ((before ++ text).take p.1))
  low : ∀ p ∈ places before.length items, before.length ≤ p.1
  stands : ∀ p ∈ places before.length items, p.1 + p.2.length ≤ (before ++ text).length ∧
    ((before ++ text).drop p.1).take p.2.length = p.2
  inOrder : InOrder (places before.length items)
  rest : ∀ i, i < text.length → Outside (places before.length items) (before.length + i) →
    Ignored text items i

theorem statement_sql (sql : Text) (p : Position) :
    (statement cases sql p).sql = sql ∧ (statement cases sql p).position = p := by
  unfold statement
  split <;> exact ⟨rfl, rfl⟩

variable {cases}

/-- Behind an item without a statement. -/
theorem Placed.skip {before taken text : Text} {item : Item} {items : List Item}
    (h : Placed cases (before ++ taken) text items) (htext : item.text = taken)
    (hplaces : ∀ o, places o (item :: items) = places (o + taken.length) items)
    (hassemble : ∀ p, assemble cases p (item :: items) = assemble cases (p.advance taken) items)
    (hignored : ∀ i, i < taken.length → Ignored taken [item] i) :
    Placed cases before (taken ++ text) (item :: items) := by
  have hlen : before.length + taken.length = (before ++ taken).length := by
    rw [List.length_append]
  have hroles : item.roles.length = taken.length := by
    rw [← htext]
    exact item_roles_length item
  refine ⟨?_, ?_, ?_, ?_, ?_⟩
  · rw [hassemble, ← Position.advance_append, h.statements, hplaces, hlen, ← List.append_assoc]
  · intro p hp
    rw [hplaces, hlen] at hp
    have hlow := h.low p hp
    rw [List.length_append] at hlow
    omega
  · intro p hp
    rw [hplaces, hlen] at hp
    rw [← List.append_assoc]
    exact h.stands p hp
  · rw [hplaces, hlen]
    exact h.inOrder
  · intro i hi hout
    rw [hplaces, hlen] at hout
    by_cases htaken : i < taken.length
    · exact (hignored i htaken).append_left
    · obtain ⟨j, rfl⟩ := Nat.exists_eq_add_of_le (Nat.le_of_not_lt htaken)
      have hj : j < text.length := by
        rw [List.length_append] at hi
        omega
      rw [← Nat.add_assoc, hlen] at hout
      exact (h.rest j hj hout).append_right hroles

/-- Behind a statement. -/
theorem Placed.emit {before sql blanks closing text : Text} {pieces : List Piece}
    {items : List Item}
    (h : Placed cases (before ++ (piecesText pieces ++ closing)) text items)
    (hcontent : pieces.any Piece.content = true ∧ trim (piecesText pieces) ≠ [])
    (hsql : trim (piecesText pieces) = sql) (hbody : piecesText pieces = sql ++ blanks)
    (hblanks : ∀ c ∈ blanks, isSpace c = true) :
    Placed cases before (piecesText pieces ++ closing ++ text) (.body pieces closing :: items) := by
  have hlen : before.length + (piecesText pieces ++ closing).length =
      (before ++ (piecesText pieces ++ closing)).length := by
    rw [@List.length_append _ before _]
  have hbodyLength : (piecesText pieces).length = sql.length + blanks.length := by
    rw [hbody, List.length_append]
  have hplaces : places before.length (.body pieces closing :: items) = (before.length, sql) ::
      places (before ++ (piecesText pieces ++ closing)).length items := by
    rw [places, if_pos hcontent, hsql, hlen]
  have hassemble : ∀ p, assemble cases p (.body pieces closing :: items) =
      statement cases sql p :: assemble cases (p.advance (piecesText pieces ++ closing)) items := by
    intro p
    rw [assemble, if_pos hcontent, hsql]
  refine ⟨?_, ?_, ?_, ?_, ?_⟩
  · obtain ⟨hstatement, hposition⟩ :=
      statement_sql cases sql ((⟨1, 1⟩ : Position).advance before)
    rw [hassemble, hplaces, ← Position.advance_append, List.map_cons, List.map_cons, h.statements,
      hstatement, hposition, List.take_left, List.append_assoc before]
  · intro p hp
    rw [hplaces] at hp
    rcases List.mem_cons.mp hp with rfl | hp
    · exact Nat.le_refl _
    · have hlow := h.low p hp
      rw [List.length_append] at hlow
      omega
  · intro p hp
    rw [hplaces] at hp
    rcases List.mem_cons.mp hp with rfl | hp
    · refine ⟨?_, ?_⟩
      · simp only [List.length_append]
        omega
      · rw [List.drop_left, hbody, List.append_assoc, List.append_assoc, List.take_left]
    · rw [← List.append_assoc before]
      exact h.stands p hp
  · rw [hplaces]
    apply List.pairwise_cons.mpr
    refine ⟨fun p hp => ?_, h.inOrder⟩
    have hlow := h.low p hp
    simp only [List.length_append] at hlow
    show before.length + sql.length ≤ p.1
    omega
  · intro i hi hout
    rw [hplaces] at hout
    have hbehind : Outside (places (before ++ (piecesText pieces ++ closing)).length items)
        (before.length + i) := fun p hp => hout p (List.mem_cons_of_mem _ hp)
    have hsqlEnd : sql.length ≤ i := by
      have hhead := hout (before.length, sql) List.mem_cons_self
      dsimp only at hhead
      omega
    by_cases htaken : i < (piecesText pieces ++ closing).length
    · apply Ignored.append_left
      by_cases htext : i < (piecesText pieces).length
      · -- blanks that are trimmed
        left
        obtain ⟨j, rfl⟩ := Nat.exists_eq_add_of_le hsqlEnd
        have hj : j < blanks.length := by omega
        rw [List.getElem?_append_left htext, hbody, List.getElem?_append_right hsqlEnd,
          Nat.add_sub_cancel_left, List.getElem?_eq_getElem hj]
        exact hblanks _ (List.getElem_mem hj)
      · right
        right
        left
        have hone : roles [Item.body pieces closing] =
            pieces.flatMap Piece.roles ++ List.replicate closing.length .terminator :=
          List.append_nil _
        rw [List.length_append] at htaken
        rw [hone, List.getElem?_append_right (by rw [pieces_roles_length]; omega),
          List.getElem?_replicate, if_pos (by rw [pieces_roles_length]; omega)]
    · obtain ⟨j, rfl⟩ := Nat.exists_eq_add_of_le (Nat.le_of_not_lt htaken)
      have hj : j < text.length := by
        rw [@List.length_append _ _ text] at hi
        omega
      rw [← Nat.add_assoc, hlen] at hbehind
      exact (h.rest j hj hbehind).append_right (item_roles_length _)

/-- Every layout has its statements at their places, wherever the text stands. -/
theorem Layout.placed {terminator text : Text} {items : List Item}
    (h : Layout terminator text items) : ∀ before, Placed cases before text items := by
  -- the trivia in front of a command, a body or the end
  have htrivia : ∀ {before text behind : Text} {pieces : List Piece} {items : List Item},
      Trivia text pieces behind → Placed cases (before ++ piecesText pieces) behind items →
        Placed cases before text (.trivia pieces :: items) := by
    intro before text behind pieces items htrivia hplaced
    rw [htrivia.text_eq]
    refine hplaced.skip rfl (fun _ => rfl) (fun _ => rfl) fun i hi => ?_
    have hone : roles [Item.trivia pieces] = pieces.flatMap Piece.roles := List.append_nil _
    rcases htrivia.ignored hi with hspace | hcomment
    · exact .inl hspace
    · exact .inr (.inl (by rw [hone]; exact hcomment))
  induction h with
  | done h =>
    intro before
    apply htrivia h
    refine ⟨rfl, ?_, ?_, .nil, ?_⟩
    · intro p hp
      cases hp
    · intro p hp
      cases hp
    · intro i hi
      cases hi
  | @setTerm terminator text behind command rest trivia items h _ _ hsplit _ hrest ih =>
    intro before
    apply htrivia h
    rw [(splitAtTerminator_eq hsplit).1, ← List.append_assoc]
    refine (ih _).skip rfl (fun _ => rfl) (fun _ => rfl) fun i hi => ?_
    have hone : roles [Item.setTerm command terminator (newTerminator command)] =
        List.replicate (command ++ terminator).length .setTerm := List.append_nil _
    exact .inr (.inr (.inr (by rw [hone, List.getElem?_replicate, if_pos hi])))
  | @body terminator text behind closing rest trivia pieces items h hne _ hbody hrest ih =>
    intro before
    apply htrivia h
    rw [hbody.text_eq]
    by_cases hcontent : pieces.any Piece.content = true ∧ trim (piecesText pieces) ≠ []
    · obtain ⟨blanks, htext, hblanks⟩ := hbody.trimmed h.startsCode
      exact (ih _).emit hcontent rfl htext hblanks
    · have hplaces : ∀ o, places o (.body pieces closing :: items) =
          places (o + (piecesText pieces ++ closing).length) items := by
        intro o
        rw [places, if_neg hcontent]
      have hassemble : ∀ p, assemble cases p (.body pieces closing :: items) =
          assemble cases (p.advance (piecesText pieces ++ closing)) items := by
        intro p
        rw [assemble, if_neg hcontent]
      refine (ih _).skip rfl hplaces hassemble fun i hi => ?_
      have hempty := hbody.no_content h.startsCode hcontent
      subst hempty
      have hone : roles [Item.body [] closing] = List.replicate closing.length .terminator :=
        List.append_nil _
      have hclosing : i < closing.length := hi
      exact .inr (.inr (.inl (by rw [hone, List.getElem?_replicate, if_pos hclosing])))

end From

/-! ### The parser comes to an end -/

theorem skipTrivia_shrinks {p p' : Position} {text behind : Text}
    (h : skipTrivia text.length p text = .ok (p', behind)) : behind.length ≤ text.length := by
  obtain ⟨pieces, htrivia, -⟩ := skipTrivia_trivia le_rfl h
  have hlen := congrArg List.length htrivia.text_eq
  rw [List.length_append] at hlen
  omega

variable (cases : CaseMap)

/-- Every round of the loop takes a character, so that as many rounds as there are characters come
to the end of every text, accepted or not. -/
theorem parseFrom_fuel : ∀ {m n : Nat} {terminator text : Text} {p : Position}, text.length ≤ m →
    text.length ≤ n → parseFrom cases m terminator p text = parseFrom cases n terminator p text := by
  intro m
  induction m with
  | zero =>
    intro n terminator text p hm _
    obtain rfl : text = [] := List.eq_nil_of_length_eq_zero (by omega)
    cases n <;> rfl
  | succ m ih =>
    intro n terminator text p hm hn
    obtain _ | n := n
    · obtain rfl : text = [] := List.eq_nil_of_length_eq_zero (by omega)
      rfl
    rw [parseFrom, parseFrom]
    cases hskip : skipTrivia text.length p text with
    | error e => rfl
    | ok skipped =>
      obtain ⟨p', behind⟩ := skipped
      have hshrinks := skipTrivia_shrinks hskip
      show (if behind = [] then _ else if startsSetTerm behind = true then _ else _) =
        (if behind = [] then _ else if startsSetTerm behind = true then _ else _)
      by_cases hend : behind = []
      · rw [if_pos hend, if_pos hend]
      rw [if_neg hend, if_neg hend]
      split
      · cases hterm : consumeSetTerm terminator p' behind with
        | error e => rfl
        | ok consumed =>
          obtain ⟨new, p'', rest⟩ := consumed
          have hrest : rest.length < behind.length := by
            unfold consumeSetTerm at hterm
            split at hterm
            · cases hterm
            · rename_i command at' hsplit
              obtain ⟨htext, ⟨rest', rfl⟩, -⟩ := splitAtTerminator_eq hsplit
              dsimp only at hterm
              split at hterm
              · cases hterm
              · rename_i hnew
                cases hterm
                have hcommand := newTerminator_command hnew
                have hlength := congrArg List.length htext
                simp only [List.length_append] at hlength
                rw [List.drop_left]
                omega
          exact ih (by omega) (by omega)
      · cases hbody : scanBody terminator behind.length p' behind with
        | error e => rfl
        | ok b =>
          obtain ⟨pieces, closing, hscan, -⟩ := scanBody_body le_rfl hbody
          have hrest := hscan.progress hend
          show (parseFrom cases m terminator b.position b.rest >>= _) =
            (parseFrom cases n terminator b.position b.rest >>= _)
          rw [ih (n := n) (by omega) (by omega)]

/-- The statements of an accepted text stand in it one behind the other, and what is outside them is
white space, comments, terminators in force and SET TERM commands. -/
theorem parseScript_places (script terminator : Text) :
    (∀ fuel, script.length ≤ fuel →
      parseFrom cases fuel terminator ⟨1, 1⟩ script = parseScript cases script terminator) ∧
    ∀ statements, parseScript cases script terminator = .ok statements →
      ∃ items ps, Layout terminator script items ∧ List.Forall₂ (StandsAt script) statements ps ∧
        InOrder ps ∧ ∀ i, i < script.length → Outside ps i → Ignored script items i := by
  refine ⟨fun fuel hfuel => parseFrom_fuel cases hfuel le_rfl, fun statements h => ?_⟩
  obtain ⟨items, hlayout, rfl⟩ := (parseScript_ok cases).mp h
  have hplaced := @Layout.placed cases _ _ _ hlayout []
  refine ⟨items, places 0 items, hlayout, ?_, hplaced.inOrder, fun i hi hout => ?_⟩
  · have hmap : (assemble cases ⟨1, 1⟩ items).map (fun s => (s.sql, s.position)) =
        (places 0 items).map fun p => (p.2, (⟨1, 1⟩ : Position).advance (script.take p.1)) :=
      hplaced.statements
    have hstands : ∀ p ∈ places 0 items, p.1 + p.2.length ≤ script.length ∧
        (script.drop p.1).take p.2.length = p.2 := hplaced.stands
    have hlength := congrArg List.length hmap
    rw [List.length_map, List.length_map] at hlength
    apply List.forall₂_iff_get.mpr
    refine ⟨hlength, fun k hk hk' => ?_⟩
    have hpair : ((assemble cases ⟨1, 1⟩ items).get ⟨k, hk⟩).sql = ((places 0 items).get ⟨k, hk'⟩).2 ∧
        ((assemble cases ⟨1, 1⟩ items).get ⟨k, hk⟩).position =
          (⟨1, 1⟩ : Position).advance (script.take ((places 0 items).get ⟨k, hk'⟩).1) := by
      have hk₁ := congrArg (fun l => l[k]?) hmap
      simp only [List.getElem?_map, List.getElem?_eq_getElem hk, List.getElem?_eq_getElem hk',
        Option.map_some, Option.some.injEq, Prod.mk.injEq] at hk₁
      exact hk₁
    obtain ⟨hsql, hposition⟩ := hpair
    obtain ⟨hfits, htext⟩ := hstands _ (List.get_mem _ ⟨k, hk'⟩)
    refine ⟨hsql.symm, by rw [hsql]; exact hfits, by rw [hsql]; exact htext, hposition.symm, ?_⟩
    intro o ho hdenotes
    rw [hposition] at hdenotes
    exact Position.advance_take_inj ho (by omega) hdenotes
  · have hrest := hplaced.rest i hi
    rw [List.length_nil, Nat.zero_add] at hrest
    exact hrest hout

/-! ### Strings of the language -/

/-- Line and column behind so many units of a string. -/
def unitPosition (before : List UInt16) : Position :=
  ⟨1 + before.count 10, 1 + (before.reverse.takeWhile (· != 10)).length⟩

/-- The place of a statement in a string: it stands there, and its line and column denote that offset
and no other. -/
structure Located (script : List UInt16) (s : ParsedStatement) (place : Nat × List UInt16) : Prop where
  sql : Utf16.ofUnits place.2 = s.sql
  fits : place.1 + place.2.length ≤ script.length
  stands : (script.drop place.1).take place.2.length = place.2
  denotes : unitPosition (script.take place.1) = s.position
  only : ∀ o, o ≤ script.length → unitPosition (script.take o) = s.position → o = place.1

theorem unitMark_eol (u : UInt16) : Utf16.unitMark u = '\n' ↔ u = 10 := by
  have hmark : Utf16.unitMark 10 = '\n' := by decide
  rw [← hmark]
  exact ⟨Utf16.unitMark_inj, congrArg Utf16.unitMark⟩

/-- Advancing over a text counts the lines and the units of the string. -/
theorem advance_ofUnits (before : List UInt16) :
    (⟨1, 1⟩ : Position).advance (Utf16.ofUnits before) = unitPosition before := by
  induction before using List.reverseRecOn with
  | nil => rfl
  | append_singleton before u ih =>
    have hsplit : Utf16.ofUnits (before ++ [u]) = Utf16.ofUnits before ++ [Utf16.unitMark u] :=
      List.map_append
    rw [hsplit, Position.advance_append, ih, Position.advance, Position.advance]
    unfold unitPosition
    by_cases hu : u = 10
    · rw [if_pos ((unitMark_eol u).mpr hu), hu]
      simp [Nat.add_assoc]
    · rw [if_neg fun h => hu ((unitMark_eol u).mp h)]
      simp [hu, Nat.add_comm]

theorem forall₂_right {α β : Type} {R : α → β → Prop} {l : List α} {l' : List β}
    (h : List.Forall₂ R l l') {b : β} (hb : b ∈ l') : ∃ a, R a b := by
  induction h with
  | nil => cases hb
  | @cons a b' l l' hab _ ih =>
    rcases List.mem_cons.mp hb with rfl | hb
    · exact ⟨a, hab⟩
    · exact ih hb

theorem forall₂_right_mem {α β : Type} {R S : α → β → Prop} {l : List α} {l' : List β}
    (h : List.Forall₂ R l l') (hRS : ∀ a, ∀ b ∈ l', R a b → S a b) : List.Forall₂ S l l' := by
  induction h with
  | nil => exact .nil
  | @cons a b l l' hab _ ih =>
    exact .cons (hRS a b List.mem_cons_self hab) (ih fun a b hb => hRS a b (List.mem_cons_of_mem _ hb))

end FastFirebird
