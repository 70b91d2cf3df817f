import FastFirebird.Cuts
import FastFirebird.StarLists

/-! Columns in the place of the stars of a list, and how the new text is read. -/
namespace FastFirebird

/-- White space and comments alone; the lexer skips strings like these. -/
def noString (gap : Text) : Bool :=
  (Cut.chop (fun text : Text => (text.head?.any ['\'', 'q', 'Q'].contains, (lexStep text).length)) gap).all
    (!·.1)

theorem noString_nil : noString [] = true := rfl

theorem noString_space : noString [' '] = true := by decide

attribute [local irreducible] lexStep

/-- Nothing stands in an item but its lexemes. -/
def ListItem.bare (i : ListItem) : Bool := i.lexemes.all (noString ·.gap) && noString i.stop.gap

/-- What the lexemes of a star are: with its qualifier, or bare. -/
def starTexts (texts : List Text) : Option (Option Text) :=
  match texts with
  | [t] => if t = ['*'] then some none else none
  | [q, dot, t] => if dot = ['.'] ∧ t = ['*'] ∧ q ≠ [')'] then some (some q) else none
  | _ => none

/-- The star that an item is. -/
def ListItem.star (i : ListItem) : Option (Option Text) :=
  if i.bare then starTexts (i.lexemes.map Lexeme.text) else none

/-- What is skipped ahead of an item. -/
def ListItem.gap (i : ListItem) : Text := (i.lexemes.head?.map Lexeme.gap).getD []

/-- The text of an item from its first token, with what is behind it. -/
def ListItem.textFrom (i : ListItem) (behind : Text) : Text :=
  (renderLexemes i.lexemes behind).drop i.gap.length

/-- The alias that a qualified star names. -/
def ListItem.key (maps : CaseMaps) (i : ListItem) : Option Text := i.star.join.map (unquote maps)

/-- A column by its name, with a qualifier in front of it. -/
abbrev Column := Option Text × Text

def Column.text : Column → Text
  | (some q, field) => q ++ '.' :: quoteIdent field
  | (none, field) => quoteIdent field

def columnsText (cols : List Column) : Text := ((cols.map Column.text).intersperse ", ".toList).flatten

/-- An item for each column, with the separator of the star behind the last one. -/
def columnItems (stop : Lexeme) : Text → List Column → List ListItem
  | _, [] => []
  | gap, [col] => [⟨columnLexemes gap col, stop⟩]
  | gap, col :: cols => ⟨columnLexemes gap col, ⟨[], [',']⟩⟩ :: columnItems stop [' '] cols

def ListItem.expand (i : ListItem) (cols : List Column) : List ListItem :=
  if i.star.isSome then columnItems i.stop i.gap cols else [i]

def expandItems (rows : List (ListItem × List Column)) : List ListItem :=
  rows.flatMap fun r => r.1.expand r.2

/-- The columns that can stand for an item. -/
structure Fits (i : ListItem) (cols : List Column) : Prop where
  ne_nil : i.star.isSome = true → cols ≠ []
  qualified : ∀ q, i.star = some (some q) → IsName q ∧ ∀ col ∈ cols, col.1 = some q
  bare : i.star = some none → ∀ col ∈ cols, ∀ q ∈ col.1, ∃ a, q = quoteIdent a

theorem star_texts {i : ListItem} {q : Option Text} (h : i.star = some q) :
    i.bare = true ∧ starTexts (i.lexemes.map Lexeme.text) = some q := by
  rw [ListItem.star] at h
  split at h
  · rename_i hbare
    exact ⟨hbare, h⟩
  · cases h

theorem star_bare {i : ListItem} (h : i.star = some none) :
    ∃ star : Lexeme, i.lexemes = [star] ∧ star.text = ['*'] := by
  have htexts := (star_texts h).2
  obtain ⟨lexemes, stop⟩ := i
  match lexemes with
  | [] => cases htexts
  | [star] =>
    refine ⟨star, rfl, ?_⟩
    by_contra hne
    simp [starTexts, hne] at htexts
  | [_, _] => cases htexts
  | [q, dot, t] =>
    simp only [starTexts, List.map_cons, List.map_nil] at htexts
    split at htexts <;> simp at htexts
  | _ :: _ :: _ :: _ :: _ => cases htexts

theorem star_qualified {i : ListItem} {qualifier : Text} (h : i.star = some (some qualifier)) :
    ∃ q dot star : Lexeme, i.lexemes = [q, dot, star] ∧ q.text = qualifier ∧ dot.text = ['.'] ∧
      star.text = ['*'] ∧ q.text ≠ [')'] := by
  have htexts := (star_texts h).2
  obtain ⟨lexemes, stop⟩ := i
  match lexemes with
  | [] => cases htexts
  | [star] =>
    simp only [starTexts, List.map_cons, List.map_nil] at htexts
    split at htexts <;> simp at htexts
  | [_, _] => cases htexts
  | [q, dot, t] =>
    simp only [starTexts, List.map_cons, List.map_nil] at htexts
    split at htexts
    · rename_i hc
      exact ⟨q, dot, t, rfl, Option.some.inj (Option.some.inj htexts), hc.1, hc.2.1, hc.2.2⟩
    · cases htexts
  | _ :: _ :: _ :: _ :: _ => cases htexts

/-! ### The items of the new list -/

section Items

variable {maps : CaseMaps}

theorem joinItems_append (a b : List ListItem) : joinItems (a ++ b) = joinItems a ++ joinItems b :=
  List.flatMap_append

theorem joinItems_cons (i : ListItem) (items : List ListItem) :
    joinItems (i :: items) = i.lexemes ++ i.stop :: joinItems items := by
  rw [joinItems, List.flatMap_cons, List.append_assoc]
  rfl

theorem columnItems_cons (stop : Lexeme) (gap : Text) (col col' : Column) (cols : List Column) :
    columnItems stop gap (col :: col' :: cols) =
      ⟨columnLexemes gap col, ⟨[], [',']⟩⟩ :: columnItems stop [' '] (col' :: cols) := rfl

theorem columnsLexemes_cons (gap : Text) (col col' : Column) (cols : List Column) :
    columnsLexemes gap (col :: col' :: cols) =
      columnLexemes gap col ++ ⟨[], [',']⟩ :: columnsLexemes [' '] (col' :: cols) := rfl

theorem columnItems_join (stop : Lexeme) (gap : Text) {cols : List Column} (hne : cols ≠ []) :
    joinItems (columnItems stop gap cols) = columnsLexemes gap cols ++ [stop] := by
  induction cols generalizing gap with
  | nil => exact absurd rfl hne
  | cons col cols ih =>
    cases cols with
    | nil => rw [columnItems, joinItems_cons, columnsLexemes]; rfl
    | cons col' cols =>
      have hrest := ih [' '] (by simp)
      rw [columnItems_cons, joinItems_cons, hrest, columnsLexemes_cons, List.append_assoc,
        List.cons_append]

theorem columnItems_ne_nil (stop : Lexeme) (gap : Text) {cols : List Column} (hne : cols ≠ []) :
    columnItems stop gap cols ≠ [] := by
  match cols with
  | [] => exact absurd rfl hne
  | [_] => exact List.cons_ne_nil _ _
  | _ :: _ :: _ => exact List.cons_ne_nil _ _

/-- A word that neither ends an item nor is a parenthesis or a bracket. -/
structure InnerWord (maps : CaseMaps) (text : Text) : Prop where
  comma : tokLower maps text ≠ ",".toList
  frm : tokLower maps text ≠ "from".toList
  opens : text ≠ ['(']
  closes : text ≠ [')']
  bracket : text ≠ ['['] ∧ text ≠ [']']

theorem InnerWord.depthBehind {l : Lexeme} (h : InnerWord maps l.text) (depth : Int) :
    l.depthBehind depth = depth := by
  rw [Lexeme.depthBehind, if_neg h.opens, Lexeme.depthAt, if_neg h.closes]

theorem InnerWord.noTop {l : Lexeme} (h : InnerWord maps l.text) (depth : Int) :
    l.isTopAt maps depth "," = false ∧ l.isTopAt maps depth "from" = false := by
  rw [Lexeme.isTopAt, Lexeme.isTopAt, Bool.and_eq_false_iff, Bool.and_eq_false_iff]
  exact ⟨Or.inr (beq_eq_false_iff_ne.mpr h.comma), Or.inr (beq_eq_false_iff_ne.mpr h.frm)⟩

theorem noTop_of_inner {ls : List Lexeme} (h : ∀ l ∈ ls, InnerWord maps l.text) (depth : Int) :
    NoTop maps "," depth ls ∧ NoTop maps "from" depth ls ∧ depthAfter depth ls = depth := by
  induction ls with
  | nil => exact ⟨trivial, trivial, rfl⟩
  | cons l ls ih =>
    obtain ⟨hl, hls⟩ := List.forall_mem_cons.mp h
    obtain ⟨hcomma, hfrm⟩ := hl.noTop depth
    obtain ⟨hc, hf, hd⟩ := ih hls
    rw [NoTop, NoTop, hl.depthBehind, depthAfter, List.foldl_cons, hl.depthBehind]
    exact ⟨⟨hcomma, hc⟩, ⟨hfrm, hf⟩, hd⟩

theorem quoteIdent_inner (field : Text) : InnerWord maps (quoteIdent field) := by
  have hlower : tokLower maps (quoteIdent field) = quoteIdent field := tokLower_of_not_word rfl
  constructor
  · rw [hlower]; simp [quoteIdent]
  · rw [hlower]; simp [quoteIdent]
  · simp [quoteIdent]
  · simp [quoteIdent]
  · simp [quoteIdent]

theorem dot_inner : InnerWord maps ['.'] := by
  have hlower : tokLower maps ['.'] = ['.'] := tokLower_of_not_word (by decide)
  constructor
  · rw [hlower]; decide
  · rw [hlower]; decide
  · decide
  · decide
  · decide

theorem columnLexemes_inner {gap : Text} {col : Column} (h : ∀ q ∈ col.1, InnerWord maps q) :
    ∀ l ∈ columnLexemes gap col, InnerWord maps l.text := by
  obtain ⟨q, field⟩ := col
  cases q with
  | none =>
    intro l hl
    obtain rfl := List.mem_singleton.mp hl
    exact quoteIdent_inner field
  | some q =>
    intro l hl
    simp only [columnLexemes, List.mem_cons, List.not_mem_nil, or_false] at hl
    rcases hl with rfl | rfl | rfl
    · exact h q rfl
    · exact dot_inner
    · exact quoteIdent_inner field

theorem columnItem_at {gap : Text} {col : Column} (h : ∀ q ∈ col.1, InnerWord maps q) {word : String}
    {stop : Lexeme} (hs : stop.isTopAt maps 0 word = true) :
    ItemAt maps 0 word ⟨columnLexemes gap col, stop⟩ := by
  obtain ⟨hc, hf, hd⟩ := noTop_of_inner (columnLexemes_inner h) 0
  exact ⟨hc, hf, by rw [hd]; exact hs⟩

theorem comma_isTopAt : (⟨[], [',']⟩ : Lexeme).isTopAt maps 0 "," = true := by
  have hlower : tokLower maps [','] = [','] := tokLower_of_not_word (by decide)
  rw [Lexeme.isTopAt, hlower]
  decide

/-- Columns in front of other items, and at the end of the list. -/
theorem columnItems_at {stop : Lexeme} {gap : Text} {cols : List Column} (hne : cols ≠ [])
    (h : ∀ col ∈ cols, ∀ q ∈ col.1, InnerWord maps q) :
    (stop.isTopAt maps 0 "from" = true → ItemsAt maps 0 (columnItems stop gap cols)) ∧
      (stop.isTopAt maps 0 "," = true → ∀ items, ItemsAt maps 0 items →
        ItemsAt maps 0 (columnItems stop gap cols ++ items)) := by
  induction cols generalizing gap with
  | nil => exact absurd rfl hne
  | cons col cols ih =>
    obtain ⟨hcol, hcols⟩ := List.forall_mem_cons.mp h
    cases cols with
    | nil =>
      refine ⟨fun hs => columnItem_at hcol hs, fun hs items hitems => ?_⟩
      obtain ⟨i, items, rfl⟩ := List.exists_cons_of_ne_nil hitems.ne_nil
      exact ⟨columnItem_at hcol hs, hitems⟩
    | cons col' cols =>
      obtain ⟨hlast, hmore⟩ := @ih [' '] (by simp) hcols
      rw [columnItems_cons]
      obtain ⟨i, rest, hrest⟩ := List.exists_cons_of_ne_nil
        (@columnItems_ne_nil stop [' '] (col' :: cols) (by simp))
      rw [hrest] at hlast hmore ⊢
      exact ⟨fun hs => ⟨columnItem_at hcol comma_isTopAt, hlast hs⟩,
        fun hs items hitems => ⟨columnItem_at hcol comma_isTopAt, hmore hs items hitems⟩⟩

theorem IsName.not_paren {q : Text} (h : IsName q) : q ≠ ['('] ∧ q ≠ ['['] ∧ q ≠ [']'] := by
  cases h with
  | @word c w hs hc hw =>
    refine ⟨?_, ?_, ?_⟩
    all_goals
      intro he
      rw [(List.cons.inj he).1] at hc
      exact absurd hc (by decide)
  | quoted hw => simp

/-- A star stands outside of all parentheses, and its qualifier is an ordinary word there. -/
theorem ItemAt.star {depth : Int} {word : String} {i : ListItem} (h : ItemAt maps depth word i)
    (hw : word ≠ "(" ∧ word ≠ ")") {cols : List Column} (hf : Fits i cols) (hs : i.star.isSome = true) :
    depth = 0 ∧ i.stop.isTopAt maps 0 word = true ∧ ∀ col ∈ cols, ∀ q ∈ col.1, InnerWord maps q := by
  obtain ⟨qualifier, hstar⟩ := Option.isSome_iff_exists.mp hs
  cases qualifier with
  | none =>
    obtain ⟨star, hlexemes, htext⟩ := star_bare hstar
    have hafter : depthAfter depth i.lexemes = depth := by
      rw [hlexemes]
      simp [depthAfter, Lexeme.depthBehind, Lexeme.depthAt, htext]
    have hstop := h.stop
    rw [hafter] at hstop
    obtain rfl := (depthBehind_of_isTop hstop hw).1
    refine ⟨rfl, hstop, fun col hcol q hq => ?_⟩
    obtain ⟨a, rfl⟩ := hf.bare hstar col hcol q hq
    exact quoteIdent_inner a
  | some qualifier =>
    obtain ⟨q, dot, star, hlexemes, rfl, hdot, htext, hclose⟩ := star_qualified hstar
    obtain ⟨hname, hcols⟩ := hf.qualified _ hstar
    have hopen := hname.not_paren.1
    have hafter : depthAfter depth i.lexemes = depth := by
      rw [hlexemes]
      simp [depthAfter, Lexeme.depthBehind, Lexeme.depthAt, htext, hdot, hopen, hclose]
    have hstop := h.stop
    rw [hafter] at hstop
    obtain rfl := (depthBehind_of_isTop hstop hw).1
    refine ⟨rfl, hstop, fun col hcol q' hq' => ?_⟩
    rw [hcols col hcol] at hq'
    obtain rfl := Option.some.inj hq'
    have hcomma := h.comma
    have hfrm := h.frm
    rw [hlexemes, NoTop, Lexeme.isTopAt, Lexeme.depthAt, if_neg hclose] at hcomma hfrm
    refine ⟨?_, ?_, hopen, hclose, hname.not_paren.2⟩
    · simpa using hcomma.1
    · simpa using hfrm.1

theorem expandItems_cons (r : ListItem × List Column) (rows : List (ListItem × List Column)) :
    expandItems (r :: rows) = r.1.expand r.2 ++ expandItems rows := rfl

/-- The new list is a list of items in the place of the old one. -/
theorem expandItems_at {rows : List (ListItem × List Column)} (hf : ∀ r ∈ rows, Fits r.1 r.2)
    {depth : Int} (h : ItemsAt maps depth (rows.map Prod.fst)) :
    ItemsAt maps depth (expandItems rows) := by
  induction rows generalizing depth with
  | nil => exact h.elim
  | cons r rows ih =>
    obtain ⟨hr, hrows⟩ := List.forall_mem_cons.mp hf
    rw [expandItems_cons, ListItem.expand]
    cases rows with
    | nil =>
      have hi : ItemAt maps depth "from" r.1 := h
      rw [expandItems, List.flatMap_nil, List.append_nil]
      split
      · rename_i hs
        obtain ⟨rfl, hstop, hcols⟩ := hi.star (by decide) hr hs
        exact (columnItems_at (hr.ne_nil hs) hcols).1 hstop
      · exact hi
    | cons r' rows =>
      obtain ⟨hi, hrest⟩ := h
      have hnew := ih hrows hrest
      split
      · rename_i hs
        obtain ⟨rfl, hstop, hcols⟩ := hi.star (by decide) hr hs
        exact (columnItems_at (hr.ne_nil hs) hcols).2 hstop _ hnew
      · obtain ⟨i, items, hitems⟩ := List.exists_cons_of_ne_nil hnew.ne_nil
        rw [hitems] at hnew ⊢
        exact ⟨hi, hnew⟩

/-! The same for the reader of lists -/

theorem InnerWord.behind {l : Lexeme} (h : InnerWord maps l.text) (p : Place) :
    p.behind maps l = ⟨p.parens, p.brackets, tokLower maps l.text == "distinct".toList⟩ := by
  rw [Place.behind, h.depthBehind, if_neg h.bracket.1, if_neg h.bracket.2]

theorem InnerWord.within {l : Lexeme} (h : InnerWord maps l.text) (p : Place) :
    p.ends maps l = false ∧ p.parts l = false := by
  refine ⟨Bool.eq_false_iff.mpr fun he => h.frm (Place.ends_iff.mp he).2.1,
    Bool.eq_false_iff.mpr fun hp => h.comma ?_⟩
  rw [(Place.parts_iff.mp hp).2, comma_lower]
  rfl

theorem within_of_inner {ls : List Lexeme} (h : ∀ l ∈ ls, InnerWord maps l.text) (p : Place) :
    Within maps p ls := by
  induction ls generalizing p with
  | nil => trivial
  | cons l ls ih =>
    obtain ⟨hl, hls⟩ := List.forall_mem_cons.mp h
    exact ⟨(hl.within p).1, (hl.within p).2, ih hls _⟩

/-- Behind a row of such words that does not end with DISTINCT, one is where an item starts. -/
theorem after_of_inner {ls : List Lexeme} {last : Lexeme}
    (h : ∀ l ∈ ls ++ [last], InnerWord maps l.text) (hlast : tokLower maps last.text ≠ "distinct".toList)
    (distinct : Bool) : (⟨0, 0, distinct⟩ : Place).after maps (ls ++ [last]) = .start := by
  induction ls generalizing distinct with
  | nil =>
    rw [List.nil_append, Place.after, List.foldl_cons, List.foldl_nil,
      (h last List.mem_cons_self).behind, beq_eq_false_iff_ne.mpr hlast]
    rfl
  | cons l ls ih =>
    obtain ⟨hl, hls⟩ := List.forall_mem_cons.mp h
    rw [List.cons_append, Place.after, List.foldl_cons, hl.behind]
    exact ih hls _

theorem not_distinct {text : Text} (h : text.head?.any isIdStart = false) :
    tokLower maps text ≠ "distinct".toList := by
  intro hd
  rw [tokLower_of_not_word h] at hd
  rw [hd] at h
  exact absurd h (by decide)

theorem columnLexemes_after {gap : Text} {col : Column} (h : ∀ q ∈ col.1, InnerWord maps q) :
    Place.start.after maps (columnLexemes gap col) = .start := by
  have hinner := @columnLexemes_inner maps gap col h
  obtain ⟨q, field⟩ := col
  have hfield : tokLower maps (quoteIdent field) ≠ "distinct".toList := not_distinct rfl
  cases q with
  | none => exact @after_of_inner maps [] ⟨gap, quoteIdent field⟩ hinner hfield false
  | some q => exact @after_of_inner maps [⟨gap, q⟩, ⟨[], ['.']⟩] ⟨[], quoteIdent field⟩ hinner hfield false

theorem columnItem_listed {gap : Text} {col : Column} (h : ∀ q ∈ col.1, InnerWord maps q)
    {stop : Lexeme} : (Place.start.ends maps stop = true → Listed maps .start [⟨columnLexemes gap col, stop⟩]) ∧
      (Place.start.parts stop = true → ∀ items, Listed maps .start items →
        Listed maps .start (⟨columnLexemes gap col, stop⟩ :: items)) := by
  have hwithin := within_of_inner (@columnLexemes_inner maps gap col h) .start
  have hafter := @columnLexemes_after maps gap col h
  refine ⟨fun hs => ⟨hwithin, by rw [hafter]; exact hs⟩, fun hs items hitems => ?_⟩
  obtain ⟨i, items, rfl⟩ := List.exists_cons_of_ne_nil hitems.ne_nil
  exact ⟨hwithin, by rw [hafter]; exact hs, hitems⟩

theorem columnItems_listed {stop : Lexeme} {gap : Text} {cols : List Column} (hne : cols ≠ [])
    (h : ∀ col ∈ cols, ∀ q ∈ col.1, InnerWord maps q) :
    (Place.start.ends maps stop = true → Listed maps .start (columnItems stop gap cols)) ∧
      (Place.start.parts stop = true → ∀ items, Listed maps .start items →
        Listed maps .start (columnItems stop gap cols ++ items)) := by
  induction cols generalizing gap with
  | nil => exact absurd rfl hne
  | cons col cols ih =>
    obtain ⟨hcol, hcols⟩ := List.forall_mem_cons.mp h
    cases cols with
    | nil => exact columnItem_listed hcol
    | cons col' cols =>
      obtain ⟨hlast, hmore⟩ := @ih [' '] (by simp) hcols
      have hcomma := (@columnItem_listed maps gap col hcol ⟨[], [',']⟩).2 (by decide)
      rw [columnItems_cons]
      exact ⟨fun hs => hcomma _ (hlast hs), fun hs items hitems => hcomma _ (hmore hs items hitems)⟩

/-- Behind a star one is where an item starts. -/
theorem star_after {i : ListItem} (hs : i.star.isSome = true)
    (hname : ∀ q, i.star = some (some q) → IsName q) : Place.start.after maps i.lexemes = .start := by
  have hstar {l : Lexeme} (h : l.text = ['*']) (p : Place) : p.behind maps l = ⟨p.parens, p.brackets, false⟩ := by
    have hd : tokLower maps l.text ≠ "distinct".toList := not_distinct (by rw [h]; decide)
    rw [Place.behind, beq_eq_false_iff_ne.mpr hd]
    simp [Lexeme.depthBehind, Lexeme.depthAt, h]
  obtain ⟨q, hq⟩ := Option.isSome_iff_exists.mp hs
  cases q with
  | none =>
    obtain ⟨star, hlexemes, htext⟩ := star_bare hq
    rw [hlexemes, Place.after, List.foldl_cons, List.foldl_nil, hstar htext]
    rfl
  | some q =>
    obtain ⟨l, dot, star, hlexemes, rfl, hdot, htext, hclose⟩ := star_qualified hq
    obtain ⟨hopen, hbracket, hbracket'⟩ := (hname _ hq).not_paren
    rw [hlexemes, Place.after, List.foldl_cons, List.foldl_cons, List.foldl_cons, List.foldl_nil,
      hstar htext]
    simp [Place.behind, Place.start, Lexeme.depthBehind, Lexeme.depthAt, hdot, hopen, hclose, hbracket,
      hbracket']

/-- The new list is a list of items for the reader too. -/
theorem expandItems_listed {rows : List (ListItem × List Column)} (hf : ∀ r ∈ rows, Fits r.1 r.2)
    (hat : ItemsAt maps 0 (rows.map Prod.fst)) (h : Listed maps .start (rows.map Prod.fst)) :
    Listed maps .start (expandItems rows) := by
  induction rows with
  | nil => exact h.elim
  | cons r rows ih =>
    obtain ⟨hr, hrows⟩ := List.forall_mem_cons.mp hf
    have hafter (hs : r.1.star.isSome = true) : Place.start.after maps r.1.lexemes = .start :=
      star_after hs fun q hq => (hr.qualified q hq).1
    rw [expandItems_cons, ListItem.expand]
    cases rows with
    | nil =>
      have hi : ItemAt maps 0 "from" r.1 := hat
      rw [expandItems, List.flatMap_nil, List.append_nil]
      split
      · rename_i hs
        obtain ⟨-, -, hcols⟩ := hi.star (by decide) hr hs
        have hstop := h.2
        rw [hafter hs] at hstop
        exact (columnItems_listed (hr.ne_nil hs) hcols).1 hstop
      · exact h
    | cons r' rows =>
      obtain ⟨hi, hrest⟩ := hat
      obtain ⟨hwithin, hstop, hlater⟩ := h
      have hnew := ih hrows hrest hlater
      split
      · rename_i hs
        obtain ⟨-, -, hcols⟩ := hi.star (by decide) hr hs
        rw [hafter hs] at hstop
        exact (columnItems_listed (hr.ne_nil hs) hcols).2 hstop _ hnew
      · obtain ⟨i, items, hitems⟩ := List.exists_cons_of_ne_nil hnew.ne_nil
        rw [hitems] at hnew ⊢
        exact ⟨hwithin, hstop, hnew⟩

theorem ItemsAt.parted {items : List ListItem} (h : ItemsAt maps 0 items) :
    ∀ i ∈ items, NoTop maps "," 0 i.lexemes ∧ NoTop maps "from" 0 i.lexemes := by
  induction items with
  | nil => exact h.elim
  | cons i items ih =>
    cases items with
    | nil =>
      have hi : ItemAt maps 0 "from" i := h
      exact List.forall_mem_cons.mpr ⟨⟨hi.comma, hi.frm⟩, by simp⟩
    | cons j items => exact List.forall_mem_cons.mpr ⟨⟨h.1.comma, h.1.frm⟩, ih h.2⟩

/-! What stands in the new items -/

theorem columnItems_bare {stop : Lexeme} (hstop : noString stop.gap = true) {gap : Text}
    (hgap : noString gap = true) (cols : List Column) : ∀ i ∈ columnItems stop gap cols, i.bare = true := by
  have hone {gap : Text} (hgap : noString gap = true) (col : Column) {stop : Lexeme}
      (hstop : noString stop.gap = true) : (⟨columnLexemes gap col, stop⟩ : ListItem).bare = true := by
    obtain ⟨q, field⟩ := col
    cases q <;> simp [ListItem.bare, columnLexemes, hgap, hstop, noString_nil]
  induction cols generalizing gap with
  | nil => simp [columnItems]
  | cons col cols ih =>
    cases cols with
    | nil => exact List.forall_mem_cons.mpr ⟨hone hgap col hstop, by simp⟩
    | cons col' cols =>
      rw [columnItems_cons]
      exact List.forall_mem_cons.mpr ⟨hone hgap col noString_nil, ih noString_space⟩

theorem star_gaps {i : ListItem} (hs : i.star.isSome = true) :
    noString i.stop.gap = true ∧ noString i.gap = true := by
  obtain ⟨q, hq⟩ := Option.isSome_iff_exists.mp hs
  have hbare := (star_texts hq).1
  rw [ListItem.bare, Bool.and_eq_true, List.all_eq_true] at hbare
  refine ⟨hbare.2, ?_⟩
  rw [ListItem.gap]
  cases hl : i.lexemes.head? with
  | none => rfl
  | some l => exact hbare.1 l (List.mem_of_mem_head? hl)

end Items

/-! ### The new row of lexemes -/

theorem Respell.refl (a : List Lexeme) : Respell a a := by
  induction a with
  | nil => exact .nil
  | cons l a ih => exact .keep l (fun _ => rfl) ih

theorem Respell.append {ls a b : List Lexeme}
    (h : ∀ l ∈ ls.getLast?, l.text.head? = some '"' → a.head? = b.head?) (hab : Respell a b) :
    Respell (ls ++ a) (ls ++ b) := by
  induction ls with
  | nil => exact hab
  | cons l ls ih =>
    cases ls with
    | nil => exact .keep l (h l rfl) hab
    | cons l' ls =>
      have hrest := ih (by simpa [List.getLast?_cons_cons] using h)
      exact .keep l (fun _ => rfl) hrest

theorem expand_star {i : ListItem} {cols : List Column} (hs : i.star.isSome = true) (hne : cols ≠ []) :
    joinItems (i.expand cols) = columnsLexemes i.gap cols ++ [i.stop] := by
  rw [ListItem.expand, if_pos hs, columnItems_join i.stop i.gap hne]

theorem expand_plain {i : ListItem} (hs : i.star = none) (cols : List Column) : i.expand cols = [i] := by
  rw [ListItem.expand, hs]
  rfl

/-- Every star of a list becomes its columns, and all the rest stays. -/
theorem respell_expand {rows : List (ListItem × List Column)} (hf : ∀ r ∈ rows, Fits r.1 r.2)
    (hstop : ∀ r ∈ rows, r.1.stop.text.head? ≠ some '"') (behind : List Lexeme) :
    Respell (joinItems (rows.map Prod.fst) ++ behind) (joinItems (expandItems rows) ++ behind) := by
  induction rows with
  | nil => exact .refl behind
  | cons r rows ih =>
    obtain ⟨hr, hrows⟩ := List.forall_mem_cons.mp hf
    obtain ⟨hs, hstops⟩ := List.forall_mem_cons.mp hstop
    have hrest := ih hrows hstops
    have hkeep := Respell.keep r.1.stop (fun hq => absurd hq hs) hrest
    rw [List.map_cons, joinItems_cons, List.append_assoc, expandItems_cons, joinItems_append,
      List.append_assoc]
    cases hstar : r.1.star with
    | none =>
      rw [expand_plain hstar, joinItems_cons, List.append_assoc]
      exact .append (fun _ _ _ => rfl) hkeep
    | some qualifier =>
      have hsome : r.1.star.isSome = true := by rw [hstar]; rfl
      rw [expand_star hsome (hr.ne_nil hsome), List.append_assoc]
      cases qualifier with
      | none =>
        obtain ⟨star, hlexemes, htext⟩ := star_bare hstar
        rw [ListItem.gap, hlexemes]
        exact .bare htext hs (hr.ne_nil hsome) (hr.bare hstar) hkeep
      | some qualifier =>
        obtain ⟨q, dot, star, hlexemes, rfl, hdot, htext, -⟩ := star_qualified hstar
        obtain ⟨hname, hcols⟩ := hr.qualified _ hstar
        have hfields : r.2 = (r.2.map Prod.snd).map fun f => (some q.text, f) := by
          rw [List.map_map]
          refine (List.map_id r.2).symm.trans (List.map_congr_left fun col hcol => ?_)
          exact Prod.ext (hcols col hcol) rfl
        rw [ListItem.gap, hlexemes, hfields]
        exact .qualified hname hdot htext hs (by simpa using hr.ne_nil hsome) hkeep

theorem columnsLexemes_head (gap : Text) (col : Column) (cols : List Column) :
    (columnsLexemes gap (col :: cols)).head? = some ⟨gap, col.1.getD (quoteIdent col.2)⟩ := by
  obtain ⟨q, field⟩ := col
  cases cols <;> cases q <;> rfl

/-- The new list starts as the old one does, unless that starts with a bare star. -/
theorem expandItems_head {r : ListItem × List Column} {rows : List (ListItem × List Column)}
    (hr : Fits r.1 r.2) :
    (joinItems (expandItems (r :: rows))).head? = (joinItems ((r :: rows).map Prod.fst)).head? ∨
      r.1.star = some none ∧
        ∀ l ∈ (joinItems (expandItems (r :: rows))).head?, l.text.head? = some '"' := by
  rw [List.map_cons, joinItems_cons, expandItems_cons, joinItems_append]
  cases hstar : r.1.star with
  | none =>
    left
    rw [expand_plain hstar, joinItems_cons, List.append_assoc]
    cases r.1.lexemes <;> rfl
  | some qualifier =>
    have hsome : r.1.star.isSome = true := by rw [hstar]; rfl
    obtain ⟨col, cols, hcons⟩ := List.exists_cons_of_ne_nil (hr.ne_nil hsome)
    have hhead : (columnsLexemes r.1.gap r.2 ++ [r.1.stop] ++ joinItems (expandItems rows)).head? =
        some ⟨r.1.gap, col.1.getD (quoteIdent col.2)⟩ := by
      rw [hcons, List.append_assoc, List.head?_append, columnsLexemes_head]
      rfl
    have hmem : col ∈ r.2 := by rw [hcons]; exact List.mem_cons_self
    rw [expand_star hsome (hr.ne_nil hsome), hhead]
    cases qualifier with
    | none =>
      refine Or.inr ⟨rfl, fun l hl => ?_⟩
      obtain rfl := Option.some.inj hl
      cases hq : col.1 with
      | none => rfl
      | some q =>
        obtain ⟨a, rfl⟩ := hr.bare hstar col hmem q hq
        rfl
    | some qualifier =>
      left
      obtain ⟨q, dot, star, hlexemes, rfl, -⟩ := star_qualified hstar
      rw [(hr.qualified _ hstar).2 col hmem, ListItem.gap, hlexemes]
      rfl

/-! ### The replacements in the text -/

theorem renderLexemes_split (ls : List Lexeme) (tail : Text) :
    renderLexemes ls tail = renderLexemes ls [] ++ tail := by
  induction ls with
  | nil => rfl
  | cons l ls ih => rw [renderLexemes, ih, renderLexemes, List.append_assoc, List.append_assoc]

theorem star_textFrom {i : ListItem} (hs : i.star.isSome = true) (behind : Text) :
    renderLexemes i.lexemes behind = i.gap ++ i.textFrom behind := by
  have hstarts : i.gap <+: renderLexemes i.lexemes behind := by
    obtain ⟨lexemes, stop⟩ := i
    cases lexemes with
    | nil => exact absurd hs (by simp [ListItem.star, starTexts])
    | cons l ls => exact List.prefix_append _ _
  obtain ⟨t, ht⟩ := hstarts
  rw [ListItem.textFrom, ← ht, List.drop_left]

def ListItem.starItem (maps : CaseMaps) (i : ListItem) (behind : Text) : Option StarItem :=
  i.star.map fun q => ⟨q, q.map (unquote maps), i.textFrom behind, behind⟩

/-- What looks like a star to the code is one. -/
def ListItem.Seen (i : ListItem) : Prop := i.star = starTexts (i.lexemes.map Lexeme.text)

instance (i : ListItem) : Decidable i.Seen :=
  inferInstanceAs (Decidable (i.star = starTexts (i.lexemes.map Lexeme.text)))

/-- A list that the code reads as it is written: no comma of a subscript and no FROM of IS
DISTINCT FROM outside of parentheses, no name FIRST or SKIP where a limit could be, and no
product of two strings. -/
structure SelectText.AsWritten (maps : CaseMaps) (t : SelectText) : Prop extends t.Plain maps where
  seen : ∀ i ∈ t.items, i.Seen

/-- A star is classified with the text from its first token, and from behind it. -/
theorem classify_layout {maps : CaseMaps} (depth : Int) {i : ListItem} (h : i.Seen) (behind : Text) :
    classify maps (layout maps depth i.lexemes behind) = i.starItem maps behind := by
  rw [ListItem.starItem, h]
  obtain ⟨lexemes, stop⟩ := i
  match lexemes with
  | [] => rfl
  | [t] =>
    by_cases ht : t.text = ['*']
    · simp [layout, classify, starTexts, ListItem.textFrom, ListItem.gap, Lexeme.tok, renderLexemes, ht]
    · simp [layout, classify, starTexts, Lexeme.tok, ht]
  | [_, _] => rfl
  | [q, dot, t] =>
    by_cases hc : dot.text = ['.'] ∧ t.text = ['*'] ∧ q.text ≠ [')']
    · simp [layout, classify, starTexts, ListItem.textFrom, ListItem.gap, Lexeme.tok, renderLexemes, hc]
    · simp only [layout, classify, starTexts, Lexeme.tok, List.map_cons, List.map_nil, if_neg hc,
        Option.map_none]
  | _ :: _ :: _ :: _ :: _ => rfl

/-- The text behind an item, with the items that follow it. -/
def behindItem (i : ListItem) (items : List ListItem) (behind : List Lexeme) (tail : Text) : Text :=
  renderLexemes (i.stop :: (joinItems items ++ behind)) tail

/-- The replacements for the stars of a list, in order. -/
def replacementsOf (behind : List Lexeme) (tail : Text) : List (ListItem × List Column) → List Replacement
  | [] => []
  | (i, cols) :: rows =>
    let rest := behindItem i (rows.map Prod.fst) behind tail
    if i.star.isSome then ⟨i.textFrom rest, rest, columnsText cols⟩ :: replacementsOf behind tail rows
    else replacementsOf behind tail rows

theorem splice_append (u x : Text) {rs : List Replacement}
    (h : ∀ r ∈ rs.head?, r.start.length ≤ x.length) : splice (u ++ x) rs = u ++ splice x rs := by
  cases rs with
  | nil => rfl
  | cons r rs =>
    have hr := h r rfl
    have hlen : (u ++ x).length - r.start.length = u.length + (x.length - r.start.length) := by
      rw [List.length_append]
      omega
    rw [splice, splice, upTo, upTo, hlen, List.take_length_add_append]
    simp only [List.append_assoc]

section Replacements

variable {behind : List Lexeme} {tail : Text}

theorem render_item (i : ListItem) (items : List ListItem) :
    renderLexemes (joinItems (i :: items) ++ behind) tail =
      renderLexemes i.lexemes (behindItem i items behind tail) := by
  rw [joinItems_cons, List.append_assoc, renderLexemes_append]
  rfl

theorem behindItem_eq (i : ListItem) (items : List ListItem) :
    behindItem i items behind tail =
      i.stop.gap ++ i.stop.text ++ renderLexemes (joinItems items ++ behind) tail := by
  rw [behindItem, renderLexemes, List.append_assoc]

/-- Every star starts within the list, and behind the stars ahead of it. -/
theorem replacementsOf_start (rows : List (ListItem × List Column)) :
    (∀ r ∈ replacementsOf behind tail rows,
      r.start.length ≤ (renderLexemes (joinItems (rows.map Prod.fst) ++ behind) tail).length) ∧
    (replacementsOf behind tail rows).Pairwise fun a b => b.start.length ≤ a.start.length := by
  induction rows with
  | nil => exact ⟨fun r hr => absurd hr (by simp [replacementsOf]), .nil⟩
  | cons row rows ih =>
    obtain ⟨i, cols⟩ := row
    obtain ⟨hle, hpair⟩ := ih
    have hrest := @behindItem_eq behind tail i (rows.map Prod.fst)
    have hbehind : (renderLexemes (joinItems (rows.map Prod.fst) ++ behind) tail).length ≤
        (behindItem i (rows.map Prod.fst) behind tail).length := by
      rw [hrest, List.length_append]
      omega
    have hitem := renderLexemes_split i.lexemes (behindItem i (rows.map Prod.fst) behind tail)
    rw [List.map_cons, render_item, replacementsOf]
    dsimp only
    split
    · rename_i hs
      have htext := star_textFrom hs (behindItem i (rows.map Prod.fst) behind tail)
      have hlater : (behindItem i (rows.map Prod.fst) behind tail).length ≤
          (i.textFrom (behindItem i (rows.map Prod.fst) behind tail)).length := by
        obtain ⟨qualifier, hstar⟩ := Option.isSome_iff_exists.mp hs
        cases qualifier with
        | none =>
          obtain ⟨star, hlexemes, -⟩ := star_bare hstar
          rw [ListItem.textFrom, ListItem.gap, hlexemes]
          simp [renderLexemes]
        | some qualifier =>
          obtain ⟨q, dot, star, hlexemes, -⟩ := star_qualified hstar
          rw [ListItem.textFrom, ListItem.gap, hlexemes]
          simp only [List.head?_cons, Option.map_some, Option.getD_some, renderLexemes,
            List.drop_left, List.length_append]
          omega
      refine ⟨?_, List.pairwise_cons.mpr ⟨?_, hpair⟩⟩
      · rintro r (_ | ⟨_, hr⟩)
        · rw [htext, List.length_append]
          exact Nat.le_add_left _ _
        · have hr' := hle r hr
          rw [htext, List.length_append]
          omega
      · intro r hr
        have hr' := hle r hr
        dsimp only
        omega
    · refine ⟨fun r hr => ?_, hpair⟩
      have hr' := hle r hr
      rw [hitem, List.length_append]
      omega

theorem columnLexemes_render (gap : Text) (col : Column) (b : List Lexeme) :
    renderLexemes (columnLexemes gap col ++ b) tail = gap ++ (col.text ++ renderLexemes b tail) := by
  obtain ⟨q, field⟩ := col
  cases q with
  | none => rfl
  | some q =>
    simp only [columnLexemes, Column.text, List.cons_append, List.nil_append, renderLexemes,
      List.append_assoc]

theorem columnsLexemes_text (gap : Text) {cols : List Column} (hne : cols ≠ []) (b : List Lexeme) :
    renderLexemes (columnsLexemes gap cols ++ b) tail =
      gap ++ (columnsText cols ++ renderLexemes b tail) := by
  induction cols generalizing gap with
  | nil => exact absurd rfl hne
  | cons col cols ih =>
    cases cols with
    | nil =>
      have htext : columnsText [col] = col.text := by simp [columnsText]
      rw [columnsLexemes, columnLexemes_render, htext]
    | cons col' cols =>
      have hrest := ih [' '] (by simp)
      have htext : columnsText (col :: col' :: cols) =
          col.text ++ (", ".toList ++ columnsText (col' :: cols)) := rfl
      rw [columnsLexemes_cons, List.append_assoc, columnLexemes_render, List.cons_append,
        renderLexemes, hrest, htext]
      simp

/-- The text with the replacements made is the row with the columns in it. -/
theorem splice_expand {rows : List (ListItem × List Column)} (hf : ∀ r ∈ rows, Fits r.1 r.2) :
    splice (renderLexemes (joinItems (rows.map Prod.fst) ++ behind) tail)
        (replacementsOf behind tail rows) =
      renderLexemes (joinItems (expandItems rows) ++ behind) tail := by
  induction rows with
  | nil => rfl
  | cons row rows ih =>
    obtain ⟨i, cols⟩ := row
    obtain ⟨hr, hrows⟩ := List.forall_mem_cons.mp hf
    have hstart := (@replacementsOf_start behind tail rows).1
    have hrest : splice (behindItem i (rows.map Prod.fst) behind tail)
        (replacementsOf behind tail rows) =
        renderLexemes (i.stop :: (joinItems (expandItems rows) ++ behind)) tail := by
      rw [behindItem_eq, splice_append _ _ fun r hr => hstart r (List.mem_of_mem_head? hr), ih hrows,
        renderLexemes, List.append_assoc]
    rw [List.map_cons, render_item, replacementsOf, expandItems_cons, joinItems_append,
      List.append_assoc]
    dsimp only
    split
    · rename_i hs
      have htext := star_textFrom hs (behindItem i (rows.map Prod.fst) behind tail)
      have hupTo : upTo (i.gap ++ i.textFrom (behindItem i (rows.map Prod.fst) behind tail))
          (i.textFrom (behindItem i (rows.map Prod.fst) behind tail)) = i.gap := by
        rw [upTo, List.length_append, Nat.add_sub_cancel, List.take_left]
      have hcols := @columnsLexemes_text tail i.gap cols (hr.ne_nil hs)
        (i.stop :: (joinItems (expandItems rows) ++ behind))
      rw [htext, splice, hupTo, hrest, expand_star hs (hr.ne_nil hs), List.append_assoc,
        List.append_assoc]
      exact hcols.symm
    · rename_i hs
      have hnone : i.star = none := by simpa using hs
      have hbehind := @behindItem_eq behind tail i (rows.map Prod.fst)
      rw [expand_plain hnone, joinItems_cons, List.append_assoc, renderLexemes_append,
        renderLexemes_split, splice_append, hrest]
      · exact (renderLexemes_split _ _).symm
      · intro r hr
        have hle := hstart r (List.mem_of_mem_head? hr)
        rw [hbehind, List.length_append]
        omega

end Replacements

end FastFirebird
