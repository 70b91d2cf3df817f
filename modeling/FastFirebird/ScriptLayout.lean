import FastFirebird.LeadingWords

/-! The layout of a script: what `parseScript` takes a text apart into, as a relation between the
text and its items. The parser accepts a script exactly when it has a layout, and the statements are
read off the items. -/
namespace FastFirebird

/-- What a round of `skipTrivia` or of the scan of a body takes. -/
inductive Piece where
  | char (c : Char)
  | region (type : RegionType) (text : Text)
  deriving Repr, DecidableEq

def Piece.text : Piece → Text
  | char c => [c]
  | region _ text => text

def Piece.isComment : Piece → Bool
  | char _ => false
  | region type _ => type.isComment

def Piece.content : Piece → Bool
  | char c => !isSpace c
  | region type _ => !type.isComment

def piecesText (pieces : List Piece) : Text := pieces.flatMap Piece.text

/-- What the loop of `parseScript` takes: trivia, a SET TERM command with the terminator behind it
and the one it sets, or a body with the terminator that ends it, if one does. -/
inductive Item where
  | trivia (pieces : List Piece)
  | setTerm (command terminator new : Text)
  | body (pieces : List Piece) (closing : Text)
  deriving Repr, DecidableEq

def Item.text : Item → Text
  | trivia pieces => piecesText pieces
  | setTerm command terminator _ => command ++ terminator
  | body pieces closing => piecesText pieces ++ closing

def itemsText (items : List Item) : Text := items.flatMap Item.text

/-! ### The relation -/

/-- Neither white space nor a comment starts here. -/
def StartsCode : Text → Prop
  | [] => True
  | c :: rest => isSpace c = false ∧ ∀ r, regionAt (c :: rest) = some r → r.type.isComment = false

/-- White space and comments at the start of a text, and the rest of it. -/
inductive Trivia : Text → List Piece → Text → Prop where
  | stop {text : Text} : StartsCode text → Trivia text [] text
  | space {c : Char} {rest behind : Text} {pieces : List Piece} : isSpace c = true →
    Trivia rest pieces behind → Trivia (c :: rest) (.char c :: pieces) behind
  | comment {text behind : Text} {r : Region} {pieces : List Piece} : Opens text r →
    r.type.isComment = true → Trivia (text.drop r.length) pieces behind →
    Trivia text (.region r.type (text.take r.length) :: pieces) behind

/-- A body, up to the terminator that is found outside every region, or the end. -/
inductive BodyScan (terminator : Text) : Text → List Piece → Text → Text → Prop where
  | done : BodyScan terminator [] [] [] []
  | closed {rest : Text} : terminator ≠ [] → regionAt (terminator ++ rest) = none →
    BodyScan terminator (terminator ++ rest) [] terminator rest
  | region {text closing rest : Text} {r : Region} {pieces : List Piece} : Opens text r →
    BodyScan terminator (text.drop r.length) pieces closing rest →
    BodyScan terminator text (.region r.type (text.take r.length) :: pieces) closing rest
  | char {c : Char} {text closing rest : Text} {pieces : List Piece} :
    regionAt (c :: text) = none → ¬ (terminator ≠ [] ∧ terminator <+: c :: text) →
    BodyScan terminator text pieces closing rest →
    BodyScan terminator (c :: text) (.char c :: pieces) closing rest

/-- Where `SET TERM` is recognised. -/
def startsSetTerm (text : Text) : Bool := (afterSetTerm (text.take 12)).isSome

/-- The terminator a `SET TERM` command sets. -/
def newTerminator (command : Text) : Text := trim ((afterSetTerm command).getD command)

/-- A script under a terminator, and its items. -/
inductive Layout : Text → Text → List Item → Prop where
  | done {terminator text : Text} {trivia : List Piece} : Trivia text trivia [] →
    Layout terminator text [.trivia trivia]
  | setTerm {terminator text behind command rest : Text} {trivia : List Piece} {items : List Item} :
    Trivia text trivia behind → behind ≠ [] → startsSetTerm behind = true →
    splitAtTerminator terminator behind = some (command, terminator ++ rest) →
    newTerminator command ≠ [] → Layout (newTerminator command) rest items →
    Layout terminator text
      (.trivia trivia :: .setTerm command terminator (newTerminator command) :: items)
  | body {terminator text behind closing rest : Text} {trivia pieces : List Piece}
    {items : List Item} :
    Trivia text trivia behind → behind ≠ [] → startsSetTerm behind = false →
    BodyScan terminator behind pieces closing rest → Layout terminator rest items →
    Layout terminator text (.trivia trivia :: .body pieces closing :: items)

/-- The statements of a script, of which the items from `p` on are given. -/
def assemble (cases : CaseMap) : Position → List Item → List ParsedStatement
  | _, [] => []
  | p, .body pieces closing :: items =>
    let rest := assemble cases (p.advance (piecesText pieces ++ closing)) items
    let sql := trim (piecesText pieces)
    if pieces.any Piece.content ∧ sql ≠ [] then statement cases sql p :: rest else rest
  | p, item :: items => assemble cases (p.advance item.text) items

/-! ### The items make up the text -/

theorem Position.advance_append (p : Position) (a b : Text) :
    p.advance (a ++ b) = (p.advance a).advance b := by
  induction a generalizing p with
  | nil => rfl
  | cons c a ih => exact ih _

@[simp] theorem piecesText_cons (piece : Piece) (pieces : List Piece) :
    piecesText (piece :: pieces) = piece.text ++ piecesText pieces := rfl

@[simp] theorem itemsText_cons (item : Item) (items : List Item) :
    itemsText (item :: items) = item.text ++ itemsText items := rfl

theorem Trivia.text_eq {text behind : Text} {pieces : List Piece} (h : Trivia text pieces behind) :
    text = piecesText pieces ++ behind := by
  induction h with
  | stop _ => rfl
  | space _ _ ih =>
    rw [ih]
    rfl
  | @comment text behind r pieces _ _ _ ih =>
    rw [piecesText_cons, List.append_assoc, ← ih]
    exact (List.take_append_drop _ _).symm

theorem Trivia.startsCode {text behind : Text} {pieces : List Piece}
    (h : Trivia text pieces behind) : StartsCode behind := by
  induction h with
  | stop h => exact h
  | space _ _ ih => exact ih
  | comment _ _ _ ih => exact ih

theorem BodyScan.text_eq {terminator text closing rest : Text} {pieces : List Piece}
    (h : BodyScan terminator text pieces closing rest) : text = piecesText pieces ++ closing ++ rest := by
  induction h with
  | done => rfl
  | closed _ _ => rfl
  | @region text closing rest r pieces _ _ ih =>
    rw [piecesText_cons, List.append_assoc, List.append_assoc, ← List.append_assoc _ _ rest, ← ih]
    exact (List.take_append_drop _ _).symm
  | char _ _ _ ih =>
    rw [ih]
    rfl

theorem BodyScan.progress {terminator text closing rest : Text} {pieces : List Piece}
    (h : BodyScan terminator text pieces closing rest) (htext : text ≠ []) :
    rest.length < text.length := by
  have hwhole := congrArg List.length h.text_eq
  simp only [List.length_append] at hwhole
  have hpos : 0 < (piecesText pieces).length + closing.length := by
    cases h with
    | done => exact absurd rfl htext
    | closed hne _ =>
      have hlen := List.length_pos_iff.mpr hne
      omega
    | region hopens _ =>
      have hlen := hopens.length_pos
      rw [piecesText_cons, Piece.text, List.length_append, List.length_take]
      omega
    | char _ _ _ =>
      rw [piecesText_cons, Piece.text, List.length_append, List.length_singleton]
      omega
  omega

theorem splitAtTerminator_eq {terminator text command at' : Text}
    (h : splitAtTerminator terminator text = some (command, at')) :
    text = command ++ at' ∧ terminator <+: at' ∧ at' ≠ [] := by
  induction text generalizing command with
  | nil => cases h
  | cons c rest ih =>
    rw [splitAtTerminator] at h
    split at h
    · rename_i hstarts
      cases h
      exact ⟨rfl, List.isPrefixOf_iff_prefix.mp hstarts, List.cons_ne_nil _ _⟩
    · obtain ⟨⟨before, behind⟩, hsplit, heq⟩ := Option.map_eq_some_iff.mp h
      cases heq
      obtain ⟨htext, hstarts, hne⟩ := ih hsplit
      exact ⟨by rw [htext]; rfl, hstarts, hne⟩

/-- Layouts cut the text up, and leave nothing out. -/
theorem Layout.text_eq {terminator text : Text} {items : List Item}
    (h : Layout terminator text items) : itemsText items = text := by
  induction h with
  | done htrivia =>
    rw [htrivia.text_eq]
    rfl
  | setTerm htrivia _ _ hsplit _ _ ih =>
    rw [htrivia.text_eq, (splitAtTerminator_eq hsplit).1, itemsText_cons, itemsText_cons, ih]
    simp [Item.text]
  | body htrivia _ _ hbody _ ih =>
    rw [htrivia.text_eq, hbody.text_eq, itemsText_cons, itemsText_cons, ih]
    simp [Item.text]

/-! ### What the parser finds is a layout -/

theorem skipTrivia_trivia {fuel : Nat} {p p' : Position} {text behind : Text}
    (hlen : text.length ≤ fuel) (h : skipTrivia fuel p text = .ok (p', behind)) :
    ∃ pieces, Trivia text pieces behind ∧ p' = p.advance (piecesText pieces) := by
  induction fuel generalizing p text with
  | zero =>
    obtain rfl : text = [] := List.eq_nil_of_length_eq_zero (by omega)
    rw [skipTrivia] at h
    cases h
    exact ⟨[], .stop trivial, rfl⟩
  | succ fuel ih =>
    cases text with
    | nil =>
      rw [skipTrivia] at h
      cases h
      exact ⟨[], .stop trivial, rfl⟩
    | cons c rest =>
      simp only [List.length_cons] at hlen
      rw [skipTrivia] at h
      split at h
      · rename_i hspace
        obtain ⟨pieces, htrivia, hp⟩ := ih (Nat.le_of_succ_le_succ hlen) h
        exact ⟨.char c :: pieces, .space hspace htrivia, hp⟩
      · rename_i hspace
        have hc : isSpace c = false := Bool.eq_false_iff.mpr hspace
        split at h
        · rename_i r hr
          split at h
          · rename_i hcomment
            split at h
            · rename_i hterminated
              have hopens := Opens.of_regionAt hr hterminated
              have hpos := hopens.length_pos
              have hdrop : ((c :: rest).drop r.length).length ≤ fuel := by
                rw [List.length_drop, List.length_cons]
                omega
              obtain ⟨pieces, htrivia, hp⟩ := ih hdrop h
              refine ⟨_, .comment hopens hcomment htrivia, ?_⟩
              rw [hp, piecesText_cons, Position.advance_append]
              rfl
            · cases h
          · rename_i hcomment
            cases h
            refine ⟨[], .stop ⟨hc, fun r' hr' => ?_⟩, rfl⟩
            rw [hr] at hr'
            cases hr'
            exact Bool.eq_false_iff.mpr hcomment
        · rename_i hr
          cases h
          exact ⟨[], .stop ⟨hc, fun r' hr' => by rw [hr] at hr'; cases hr'⟩, rfl⟩

theorem scanBody_body {terminator : Text} {fuel : Nat} {p : Position} {text : Text}
    {b : StatementBody} (hlen : text.length ≤ fuel)
    (h : scanBody terminator fuel p text = .ok b) :
    ∃ pieces closing, BodyScan terminator text pieces closing b.rest ∧ b.text = piecesText pieces ∧
      b.sawContent = pieces.any Piece.content ∧
      b.position = p.advance (piecesText pieces ++ closing) := by
  induction fuel generalizing p text b with
  | zero =>
    obtain rfl : text = [] := List.eq_nil_of_length_eq_zero (by omega)
    rw [scanBody] at h
    cases h
    exact ⟨[], [], .done, rfl, rfl, rfl⟩
  | succ fuel ih =>
    cases text with
    | nil =>
      rw [scanBody] at h
      cases h
      exact ⟨[], [], .done, rfl, rfl, rfl⟩
    | cons c rest =>
      simp only [List.length_cons] at hlen
      rw [scanBody] at h
      split at h
      · rename_i r hr
        split at h
        · rename_i hterminated
          have hopens := Opens.of_regionAt hr hterminated
          have hpos := hopens.length_pos
          obtain ⟨b', hb', rfl⟩ := map_ok h
          have hdrop : ((c :: rest).drop r.length).length ≤ fuel := by
            rw [List.length_drop, List.length_cons]
            omega
          obtain ⟨pieces, closing, hbody, htext, hcontent, hp⟩ := ih hdrop hb'
          refine ⟨_, closing, .region hopens hbody, ?_, ?_, ?_⟩
          · rw [StatementBody.prepend, htext]
            rfl
          · rw [StatementBody.prepend, hcontent]
            rfl
          · rw [StatementBody.prepend, hp, ← Position.advance_append, ← List.append_assoc]
            rfl
        · cases h
      · rename_i hnone
        split at h
        · rename_i hterminator
          cases h
          obtain ⟨behind, hbehind⟩ := List.isPrefixOf_iff_prefix.mp hterminator.2
          rw [← hbehind] at hnone ⊢
          refine ⟨[], terminator, ?_, rfl, rfl, rfl⟩
          rw [List.drop_left]
          exact .closed hterminator.1 hnone
        · rename_i hterminator
          obtain ⟨b', hb', rfl⟩ := map_ok h
          obtain ⟨pieces, closing, hbody, htext, hcontent, hp⟩ :=
            ih (Nat.le_of_succ_le_succ hlen) hb'
          refine ⟨_, closing, .char hnone ?_ hbody, ?_, ?_, ?_⟩
          · exact fun hmatch => hterminator ⟨hmatch.1, List.isPrefixOf_iff_prefix.mpr hmatch.2⟩
          · rw [StatementBody.prepend, htext]
            rfl
          · rw [StatementBody.prepend, hcontent]
            rfl
          · rw [StatementBody.prepend, hp, ← Position.advance_append, ← List.append_assoc]
            rfl

/-- A command that sets a terminator is not empty. -/
theorem newTerminator_command {command : Text} (h : newTerminator command ≠ []) :
    0 < command.length := by
  cases command with
  | nil => exact absurd rfl h
  | cons c rest => exact Nat.succ_pos _

variable (cases : CaseMap)

theorem parseFrom_layout {fuel : Nat} {terminator text : Text} {p : Position}
    {statements : List ParsedStatement} (hlen : text.length ≤ fuel)
    (h : parseFrom cases fuel terminator p text = .ok statements) :
    ∃ items, Layout terminator text items ∧ statements = assemble cases p items := by
  induction fuel generalizing terminator text p statements with
  | zero =>
    obtain rfl : text = [] := List.eq_nil_of_length_eq_zero (by omega)
    rw [parseFrom] at h
    cases h
    exact ⟨[.trivia []], .done (.stop trivial), rfl⟩
  | succ fuel ih =>
    rw [parseFrom] at h
    obtain ⟨⟨p', behind⟩, hskip, h⟩ := bind_ok h
    obtain ⟨trivia, htrivia, rfl⟩ := skipTrivia_trivia le_rfl hskip
    have hwhole := congrArg List.length htrivia.text_eq
    rw [List.length_append] at hwhole
    simp only at h
    split at h
    · rename_i hend
      subst hend
      cases h
      exact ⟨_, .done htrivia, rfl⟩
    · rename_i hbehind
      split at h
      · rename_i hset
        obtain ⟨⟨new, p', rest⟩, hterm, h⟩ := bind_ok h
        unfold consumeSetTerm at hterm
        split at hterm
        · cases hterm
        · rename_i command at' hsplit
          obtain ⟨htext, ⟨rest', rfl⟩, hne⟩ := splitAtTerminator_eq hsplit
          dsimp only at hterm
          split at hterm
          · cases hterm
          · rename_i hnew
            cases hterm
            dsimp only at h
            rw [List.drop_left] at h
            have hlength := congrArg List.length htext
            simp only [List.length_append] at hlength
            have hcommand := newTerminator_command hnew
            obtain ⟨items, hlayout, rfl⟩ := ih (by omega) h
            refine ⟨_, .setTerm htrivia hbehind hset hsplit hnew hlayout, ?_⟩
            rfl
      · rename_i hset
        obtain ⟨b, hb, h⟩ := bind_ok h
        obtain ⟨pieces, closing, hbody, htext, hcontent, hp⟩ := scanBody_body le_rfl hb
        obtain ⟨rest, hrest, h⟩ := bind_ok h
        have hprogress := hbody.progress hbehind
        obtain ⟨items, hlayout, rfl⟩ := ih (by omega) hrest
        refine ⟨_, .body htrivia hbehind (Bool.eq_false_iff.mpr hset) hbody hlayout, ?_⟩
        cases h
        rw [hp, htext, hcontent]
        rfl

/-! ### A layout is what the parser finds -/

theorem Trivia.skips {text behind : Text} {pieces : List Piece} (h : Trivia text pieces behind) :
    ∀ {fuel : Nat} {p : Position}, text.length ≤ fuel →
      skipTrivia fuel p text = .ok (p.advance (piecesText pieces), behind) := by
  induction h with
  | @stop text hstop =>
    intro fuel p hlen
    cases text with
    | nil => cases fuel <;> rfl
    | cons c rest =>
      obtain _ | fuel := fuel
      · simp at hlen
      rw [skipTrivia, if_neg (by rw [hstop.1]; exact Bool.false_ne_true)]
      split
      · rename_i r hr
        rw [if_neg (by rw [hstop.2 r hr]; exact Bool.false_ne_true)]
        rfl
      · rfl
  | @space c rest behind pieces hspace _ ih =>
    intro fuel p hlen
    obtain _ | fuel := fuel
    · simp at hlen
    rw [skipTrivia, if_pos hspace, ih (Nat.le_of_succ_le_succ hlen)]
    rfl
  | @comment text behind r pieces hopens hcomment _ ih =>
    intro fuel p hlen
    have hpos := hopens.length_pos
    obtain _ | fuel := fuel
    · omega
    cases text with
    | nil => cases hopens
    | cons c rest =>
      have hspace : isSpace c = false := by
        cases hopens with
        | lineComment => rfl
        | blockComment => rfl
        | qLiteral => cases hcomment
        | string => cases hcomment
        | quotedIdentifier => cases hcomment
      have hdrop : ((c :: rest).drop r.length).length ≤ fuel := by
        rw [List.length_drop]
        omega
      rw [skipTrivia, if_neg (by rw [hspace]; exact Bool.false_ne_true), hopens.regionAt.1]
      simp only [hcomment, hopens.regionAt.2, if_true]
      rw [ih hdrop, piecesText_cons, Position.advance_append]
      rfl

theorem BodyScan.scans {terminator text closing rest : Text} {pieces : List Piece}
    (h : BodyScan terminator text pieces closing rest) :
    ∀ {fuel : Nat} {p : Position}, text.length ≤ fuel →
      scanBody terminator fuel p text = .ok ⟨piecesText pieces, pieces.any Piece.content,
        p.advance (piecesText pieces ++ closing), rest⟩ := by
  induction h with
  | done =>
    intro fuel p _
    cases fuel <;> rfl
  | @closed rest hne hnone =>
    intro fuel p hlen
    have hpos := List.length_pos_iff.mpr hne
    obtain _ | fuel := fuel
    · rw [List.length_append] at hlen
      omega
    obtain ⟨c, t, rfl⟩ := List.exists_cons_of_ne_nil hne
    rw [List.cons_append] at hnone ⊢
    rw [scanBody, hnone]
    simp only
    rw [if_pos ⟨hne, List.isPrefixOf_iff_prefix.mpr ⟨rest, rfl⟩⟩, ← List.cons_append,
      List.drop_left]
    rfl
  | @region text closing rest r pieces hopens _ ih =>
    intro fuel p hlen
    have hpos := hopens.length_pos
    obtain _ | fuel := fuel
    · omega
    cases text with
    | nil => cases hopens
    | cons c body =>
      have hdrop : ((c :: body).drop r.length).length ≤ fuel := by
        rw [List.length_drop]
        omega
      rw [scanBody, hopens.regionAt.1]
      simp only [hopens.regionAt.2, if_true]
      rw [ih hdrop, piecesText_cons, List.append_assoc, Position.advance_append p _ (_ ++ closing)]
      rfl
  | @char c text closing rest pieces hnone hmatch _ ih =>
    intro fuel p hlen
    obtain _ | fuel := fuel
    · simp at hlen
    rw [scanBody, hnone]
    simp only
    rw [if_neg fun h => hmatch ⟨h.1, List.isPrefixOf_iff_prefix.mp h.2⟩,
      ih (Nat.le_of_succ_le_succ hlen)]
    rfl

theorem Layout.parses {terminator text : Text} {items : List Item}
    (h : Layout terminator text items) : ∀ {fuel : Nat} {p : Position}, text.length ≤ fuel →
      parseFrom cases fuel terminator p text = .ok (assemble cases p items) := by
  induction h with
  | @done terminator text trivia htrivia =>
    intro fuel p hlen
    obtain _ | fuel := fuel
    · rfl
    rw [parseFrom, htrivia.skips le_rfl]
    rfl
  | @setTerm terminator text behind command rest trivia items htrivia hne hset hsplit hnew _ ih =>
    intro fuel p hlen
    have hwhole := congrArg List.length htrivia.text_eq
    have hbehind := congrArg List.length (splitAtTerminator_eq hsplit).1
    have hcommand := newTerminator_command hnew
    rw [List.length_append] at hwhole
    simp only [List.length_append] at hbehind
    obtain _ | fuel := fuel
    · omega
    have hterm : consumeSetTerm terminator (p.advance (piecesText trivia)) behind =
        .ok (newTerminator command, (p.advance (piecesText trivia)).advance (command ++ terminator),
          rest) := by
      have hset : trim ((afterSetTerm command).getD command) ≠ [] := hnew
      rw [consumeSetTerm, hsplit]
      simp only
      rw [if_neg hset, List.drop_left]
      rfl
    have hrest := @ih fuel ((p.advance (piecesText trivia)).advance (command ++ terminator)) (by omega)
    rw [parseFrom, htrivia.skips le_rfl]
    show (if behind = [] then _ else if startsSetTerm behind = true then _ else _) = _
    rw [if_neg hne, if_pos hset, hterm]
    exact hrest
  | @body terminator text behind closing rest trivia pieces items htrivia hne hset hbody _ ih =>
    intro fuel p hlen
    have hwhole := congrArg List.length htrivia.text_eq
    have hprogress := hbody.progress hne
    rw [List.length_append] at hwhole
    obtain _ | fuel := fuel
    · omega
    have hrest := @ih fuel
      ((p.advance (piecesText trivia)).advance (piecesText pieces ++ closing)) (by omega)
    rw [parseFrom, htrivia.skips le_rfl]
    show (if behind = [] then _ else if startsSetTerm behind = true then _ else _) = _
    rw [if_neg hne, if_neg (by rw [hset]; exact Bool.false_ne_true), hbody.scans le_rfl]
    show (parseFrom cases fuel terminator _ rest >>= _) = _
    rw [hrest]
    rfl

/-- A script is accepted exactly when it has a layout, and its statements are those of the
layout. -/
theorem parseScript_ok {script terminator : Text} {statements : List ParsedStatement} :
    parseScript cases script terminator = .ok statements ↔
      ∃ items, Layout terminator script items ∧ statements = assemble cases ⟨1, 1⟩ items := by
  constructor
  · exact parseFrom_layout cases le_rfl
  · rintro ⟨items, hlayout, rfl⟩
    exact hlayout.parses cases le_rfl

end FastFirebird
