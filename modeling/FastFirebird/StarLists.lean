import FastFirebird.StarItems

/-! The select list of a text as SQL has it. A comma parts its items outside of parentheses
and subscripts, and FROM ends it there, but for the FROM of IS DISTINCT FROM. -/
namespace FastFirebird
attribute [local irreducible] lexStep

/-- How deep a place of a list is, and whether it is directly behind the word DISTINCT. -/
structure Place where
  parens : Int
  brackets : Int
  distinct : Bool
  deriving Repr, DecidableEq

/-- What is ahead of the items, the items, and what is behind FROM. -/
structure SelectText where
  ahead : List Lexeme
  items : List ListItem
  behind : Text
  deriving Repr, DecidableEq

/-- FIRST and SKIP with a number, a parameter, or an expression in parentheses; elsewhere the
two words are names. -/
def behindLimits : Nat → List Tok → List Tok
  | fuel + 1, t :: u :: list =>
    if t.IsLimit then
      if u.text = ['('] then behindLimits fuel ((list.dropWhile (!Tok.isTop ")" ·)).drop 1)
      else if u.isCount then behindLimits fuel list
      else t :: u :: list
    else t :: u :: list
  | _, list => list

section Reading

variable (maps : CaseMaps)

namespace Place

/-- Where a select item starts. -/
def start : Place := ⟨0, 0, false⟩

def behind (p : Place) (l : Lexeme) : Place where
  parens := l.depthBehind p.parens
  brackets :=
    if l.text = ['['] then p.brackets + 1 else if l.text = [']'] then p.brackets - 1 else p.brackets
  distinct := tokLower maps l.text == "distinct".toList

/-- Neither in parentheses nor in a subscript. -/
def isOutside (p : Place) : Bool := p.parens == 0 && p.brackets == 0

def parts (p : Place) (l : Lexeme) : Bool := p.isOutside && l.text == [',']

/-- Behind DISTINCT there is no FROM clause. -/
def ends (p : Place) (l : Lexeme) : Bool :=
  p.isOutside && tokLower maps l.text == "from".toList && !p.distinct

def after (p : Place) (ls : List Lexeme) : Place := ls.foldl (behind maps) p

end Place

/-- The items up to FROM, and the text behind it. -/
def listFrom : Place → List Tok → Option (List ListItem × Text)
  | _, [] => none
  | p, t :: toks =>
    if p.ends maps t.lexeme then some ([⟨[], t.lexeme⟩], t.stop)
    else if p.parts t.lexeme then
      (listFrom .start toks).map fun (items, rest) => (⟨[], t.lexeme⟩ :: items, rest)
    else
      match listFrom (p.behind maps t.lexeme) toks with
      | some (i :: items, rest) => some (⟨t.lexeme :: i.lexemes, i.stop⟩ :: items, rest)
      | _ => none

/-- The select list behind the first SELECT that is in no parentheses. -/
def readList (sql : Text) : Option SelectText :=
  let toks := tokenize maps sql
  match toks.dropWhile (!Tok.isTop "select" ·) with
  | [] => none
  | _ :: rest =>
    let list := skipQuantifier (behindLimits rest.length rest)
    (listFrom maps .start list).map fun (items, behind) =>
      ⟨(toks.take (toks.length - list.length)).map Tok.lexeme, items, behind⟩

/-- No lexeme parts the list or ends it. -/
def Within : Place → List Lexeme → Prop
  | _, [] => True
  | p, l :: ls => p.ends maps l = false ∧ p.parts l = false ∧ Within (p.behind maps l) ls

/-- Items with a comma behind each, and FROM behind the last. -/
def Listed : Place → List ListItem → Prop
  | _, [] => False
  | p, [i] => Within maps p i.lexemes ∧ (p.after maps i.lexemes).ends maps i.stop = true
  | p, i :: items =>
    Within maps p i.lexemes ∧ (p.after maps i.lexemes).parts i.stop = true ∧ Listed .start items

end Reading

section Lists

variable {maps : CaseMaps}

theorem Listed.ne_nil {p : Place} {items : List ListItem} (h : Listed maps p items) : items ≠ [] := by
  rintro rfl
  exact h

theorem Place.isOutside_iff {p : Place} : p.isOutside = true ↔ p.parens = 0 ∧ p.brackets = 0 := by
  rw [isOutside, Bool.and_eq_true, beq_iff_eq, beq_iff_eq]

theorem Place.parts_iff {p : Place} {l : Lexeme} :
    p.parts l = true ↔ p.isOutside = true ∧ l.text = [','] := by
  rw [parts, Bool.and_eq_true, beq_iff_eq]

theorem Place.ends_iff {p : Place} {l : Lexeme} : p.ends maps l = true ↔
    p.isOutside = true ∧ tokLower maps l.text = "from".toList ∧ p.distinct = false := by
  rw [ends, Bool.and_eq_true, Bool.and_eq_true, beq_iff_eq, Bool.not_eq_true', and_assoc]

theorem comma_lower : tokLower maps [','] = [','] := tokLower_of_not_word (by decide)

theorem Place.ends_of_parts {p : Place} {l : Lexeme} (h : p.parts l = true) :
    p.ends maps l = false := by
  apply Bool.eq_false_iff.mpr
  intro he
  obtain ⟨-, htext⟩ := parts_iff.mp h
  obtain ⟨-, hword, -⟩ := ends_iff.mp he
  rw [htext, comma_lower] at hword
  exact absurd hword (by decide)

theorem listed_step {p : Place} {l stop : Lexeme} {ls : List Lexeme} {items : List ListItem} :
    Listed maps p (⟨l :: ls, stop⟩ :: items) ↔ p.ends maps l = false ∧ p.parts l = false ∧
      Listed maps (p.behind maps l) (⟨ls, stop⟩ :: items) := by
  cases items <;> simp only [Listed, Within, Place.after, List.foldl_cons, and_assoc]

theorem listed_part {p : Place} {stop : Lexeme} {i : ListItem} {items : List ListItem} :
    Listed maps p (⟨[], stop⟩ :: i :: items) ↔
      p.parts stop = true ∧ Listed maps .start (i :: items) :=
  ⟨fun h => h.2, fun h => ⟨trivial, h⟩⟩

theorem listed_end {p : Place} {stop : Lexeme} :
    Listed maps p [⟨[], stop⟩] ↔ p.ends maps stop = true :=
  ⟨fun h => h.2, fun h => ⟨trivial, h⟩⟩

/-- A list starts with FROM, with a comma, or with a lexeme of its first item. -/
theorem listed_cases {p : Place} {l : Lexeme} {ls behind : List Lexeme} {items : List ListItem}
    (h : Listed maps p items) (hls : l :: ls = joinItems items ++ behind) :
    (p.ends maps l = true ∧ items = [⟨[], l⟩] ∧ ls = behind) ∨
    (p.parts l = true ∧ ∃ rest, items = ⟨[], l⟩ :: rest ∧ Listed maps .start rest ∧
      ls = joinItems rest ++ behind) ∨
    (p.ends maps l = false ∧ p.parts l = false ∧ ∃ i rest, items = ⟨l :: i.lexemes, i.stop⟩ :: rest ∧
      Listed maps (p.behind maps l) (i :: rest) ∧ ls = joinItems (i :: rest) ++ behind) := by
  obtain ⟨⟨lexemes, stop⟩, items, rfl⟩ := List.exists_cons_of_ne_nil h.ne_nil
  cases lexemes with
  | nil =>
    obtain ⟨rfl, hrest⟩ := List.cons.inj hls
    cases items with
    | nil => exact Or.inl ⟨listed_end.mp h, rfl, hrest⟩
    | cons i items =>
      obtain ⟨hparts, hlater⟩ := listed_part.mp h
      exact Or.inr (Or.inl ⟨hparts, _, rfl, hlater, hrest⟩)
  | cons l' lexemes =>
    obtain ⟨rfl, hrest⟩ := List.cons.inj hls
    obtain ⟨hends, hparts, hlater⟩ := listed_step.mp h
    exact Or.inr (Or.inr ⟨hends, hparts, ⟨lexemes, stop⟩, items, rfl, hlater, hrest⟩)

/-- The reader finds exactly the items that are written. -/
theorem listFrom_layout {depth : Int} {ls : List Lexeme} {tail b : Text} {items : List ListItem}
    {p : Place} : listFrom maps p (layout maps depth ls tail) = some (items, b) ↔
      ∃ behind, ls = joinItems items ++ behind ∧ b = renderLexemes behind tail ∧
        Listed maps p items := by
  induction ls generalizing p depth items with
  | nil =>
    refine ⟨fun h => (by cases h), ?_⟩
    rintro ⟨behind, hls, -, hlisted⟩
    obtain ⟨i, items, rfl⟩ := List.exists_cons_of_ne_nil hlisted.ne_nil
    rw [joinItems, List.flatMap_cons] at hls
    exact absurd hls (by simp)
  | cons l ls ih =>
    rw [layout_cons, listFrom]
    change (if p.ends maps l then some ([(⟨[], l⟩ : ListItem)], renderLexemes ls tail)
      else if p.parts l then
        (listFrom maps .start (layout maps (l.depthBehind depth) ls tail)).map
          fun (items, rest) => (⟨[], l⟩ :: items, rest)
      else
        match listFrom maps (p.behind maps l) (layout maps (l.depthBehind depth) ls tail) with
        | some (i :: items, rest) => some (⟨l :: i.lexemes, i.stop⟩ :: items, rest)
        | _ => none) = _ ↔ _
    constructor
    · intro h
      split at h
      · rename_i hends
        obtain ⟨rfl, rfl⟩ := Prod.mk.inj (Option.some.inj h)
        exact ⟨ls, rfl, rfl, listed_end.mpr hends⟩
      · rename_i hends
        split at h
        · rename_i hparts
          obtain ⟨⟨later, rest⟩, hfrom, heq⟩ := Option.map_eq_some_iff.mp h
          obtain ⟨rfl, rfl⟩ := Prod.mk.inj heq
          obtain ⟨behind, rfl, rfl, hlisted⟩ := ih.mp hfrom
          obtain ⟨j, later, rfl⟩ := List.exists_cons_of_ne_nil hlisted.ne_nil
          exact ⟨behind, rfl, rfl, listed_part.mpr ⟨hparts, hlisted⟩⟩
        · rename_i hparts
          split at h
          · rename_i i later rest hfrom
            obtain ⟨rfl, rfl⟩ := Prod.mk.inj (Option.some.inj h)
            obtain ⟨behind, rfl, rfl, hlisted⟩ := ih.mp hfrom
            exact ⟨behind, rfl, rfl, listed_step.mpr
              ⟨Bool.eq_false_iff.mpr hends, Bool.eq_false_iff.mpr hparts, hlisted⟩⟩
          · cases h
    · rintro ⟨behind, hls, rfl, hlisted⟩
      rcases listed_cases hlisted hls with ⟨hends, rfl, rfl⟩ | ⟨hparts, rest, rfl, hlater, hrest⟩ |
        ⟨hends, hparts, i, rest, rfl, hlater, hrest⟩
      · rw [if_pos hends]
      · rw [Place.ends_of_parts hparts, if_neg (by simp), if_pos hparts,
          ih.mpr ⟨behind, hrest, rfl, hlater⟩]
        rfl
      · rw [hends, hparts, if_neg (by simp), if_neg (by simp),
          ih.mpr ⟨behind, hrest, rfl, hlater⟩]

/-! ### FIRST, SKIP, DISTINCT and ALL -/

variable (maps) in
/-- FIRST and SKIP, with what belongs to them. -/
inductive Limits : List Lexeme → Prop where
  | nil : Limits []
  | number {l m : Lexeme} {ls : List Lexeme} (hl : (l.tok maps 0 []).IsLimit)
    (hm : (m.tok maps 0 []).isCount = true) (h : Limits ls) : Limits (l :: m :: ls)
  | paren {l m c : Lexeme} {inner ls : List Lexeme} (hl : (l.tok maps 0 []).IsLimit)
    (hm : m.text = ['(']) (hinner : NoTop maps ")" 1 inner)
    (hc : c.isTopAt maps (depthAfter 1 inner) ")" = true) (h : Limits ls) :
    Limits (l :: m :: (inner ++ c :: ls))

theorem isTopAt_false {depth : Int} {l : Lexeme} {word : String}
    (h : tokLower maps l.text ≠ word.toList) : l.isTopAt maps depth word = false := by
  rw [Lexeme.isTopAt, Bool.and_eq_false_iff]
  exact Or.inr (beq_eq_false_iff_ne.mpr h)

theorem paren_lower {text : Text} (h : text = ['('] ∨ text = [')']) : tokLower maps text = text := by
  rcases h with rfl | rfl <;> exact tokLower_of_not_word (by decide)

/-- A word or a number leaves the depth as it is. -/
theorem depthBehind_of_lower {l : Lexeme} (ho : tokLower maps l.text ≠ ['('])
    (hc : tokLower maps l.text ≠ [')']) (depth : Int) : l.depthBehind depth = depth := by
  have hopen : l.text ≠ ['('] := fun h => ho (by rw [h, paren_lower (Or.inl rfl)])
  have hclose : l.text ≠ [')'] := fun h => hc (by rw [h, paren_lower (Or.inr rfl)])
  rw [Lexeme.depthBehind, if_neg hopen, Lexeme.depthAt, if_neg hclose]

theorem limit_word {l : Lexeme} (h : (l.tok maps 0 []).IsLimit) :
    l.isTopAt maps 0 "from" = false ∧ l.depthBehind 0 = 0 := by
  have hlower : tokLower maps l.text = "first".toList ∨ tokLower maps l.text = "skip".toList := h
  refine ⟨isTopAt_false ?_, @depthBehind_of_lower maps l ?_ ?_ 0⟩ <;>
    rcases hlower with hword | hword <;> rw [hword] <;> decide

theorem count_lower {l : Lexeme} (h : (l.tok maps 0 []).isCount = true) :
    tokLower maps l.text = l.text := by
  obtain ⟨c, hc, hcount⟩ := (Option.any_eq_true _ _).mp h
  change l.text.head? = some c at hc
  apply tokLower_of_not_word
  rw [hc]
  rw [Bool.or_eq_true, beq_iff_eq] at hcount
  rcases hcount with rfl | hdigit
  · decide
  · exact isDigitChar_not_idStart (by simpa [isDigitChar] using hdigit)

theorem count_not {l : Lexeme} (h : (l.tok maps 0 []).isCount = true) {text : Text}
    (hno : text.head?.any (fun c => c == '?' || ('0' ≤ c && c ≤ '9')) = false) : l.text ≠ text := by
  rintro rfl
  change l.text.head?.any _ = true at h
  rw [hno] at h
  cases h

theorem count_word {l : Lexeme} (h : (l.tok maps 0 []).isCount = true) :
    l.isTopAt maps 0 "from" = false ∧ l.depthBehind 0 = 0 := by
  have hlower := count_lower h
  refine ⟨isTopAt_false ?_, @depthBehind_of_lower maps l ?_ ?_ 0⟩ <;>
    rw [hlower] <;> exact count_not h (by decide)

/-- Until a parenthesis is closed, nothing is outside of it. -/
theorem inner_layout {ls : List Lexeme} {depth : Int} (hd : 1 ≤ depth) (h : NoTop maps ")" depth ls) :
    NoTop maps "from" depth ls ∧ 1 ≤ depthAfter depth ls := by
  induction ls generalizing depth with
  | nil => exact ⟨trivial, hd⟩
  | cons l ls ih =>
    have hat : 1 ≤ l.depthAt depth := by
      unfold Lexeme.depthAt
      split
      · rename_i hl
        have hclose := h.1
        rw [Lexeme.isTopAt, hl, paren_lower (Or.inr rfl), Lexeme.depthAt, if_pos hl,
          Bool.and_eq_false_iff, beq_eq_false_iff_ne] at hclose
        have hne : depth - 1 ≠ 0 := hclose.resolve_right (by decide)
        omega
      · exact hd
    have hbehind : 1 ≤ l.depthBehind depth := by
      unfold Lexeme.depthBehind
      split <;> omega
    have hrest := ih hbehind h.2
    refine ⟨⟨?_, hrest.1⟩, hrest.2⟩
    rw [Lexeme.isTopAt, Bool.and_eq_false_iff, beq_eq_false_iff_ne]
    exact Or.inl (by omega)

/-- The closing parenthesis of a limit. -/
theorem close_word {l : Lexeme} {depth : Int} (hd : 1 ≤ depth) (h : l.isTopAt maps depth ")" = true) :
    l.text = [')'] ∧ l.depthBehind depth = 0 := by
  rw [Lexeme.isTopAt, Bool.and_eq_true, beq_iff_eq] at h
  have htext : l.text = [')'] := by
    by_contra hne
    rw [Lexeme.depthAt, if_neg hne] at h
    omega
  refine ⟨htext, ?_⟩
  rw [Lexeme.depthBehind, if_neg (by rw [htext]; decide), h.1]

/-- A lexeme that is neither DISTINCT nor ALL, and no quoted name. -/
def Lexeme.EndsLimits (maps : CaseMaps) (l : Lexeme) : Prop :=
  ¬ (l.tok maps 0 []).IsQuantifier ∧ l.text.head? ≠ some '"'

theorem endsLimits_of {l : Lexeme} (h : tokLower maps l.text = l.text)
    (hd : l.text ≠ "distinct".toList) (ha : l.text ≠ "all".toList) (hq : l.text.head? ≠ some '"') :
    l.EndsLimits maps := by
  refine ⟨?_, hq⟩
  rintro (hword | hword)
  · exact hd (h.symm.trans hword)
  · exact ha (h.symm.trans hword)

/-- Behind FIRST and SKIP one is outside of all parentheses, and still in front of FROM. -/
theorem Limits.lexemes {ls : List Lexeme} (h : Limits maps ls) : NoTop maps "from" 0 ls ∧
    depthAfter 0 ls = 0 ∧ ∀ l ∈ ls.getLast?, l.EndsLimits maps := by
  induction h with
  | nil => exact ⟨trivial, rfl, by simp⟩
  | @number l m ls hl hm _ ih =>
    obtain ⟨hfrom, hdepth⟩ := limit_word hl
    obtain ⟨hfrom', hdepth'⟩ := count_word hm
    obtain ⟨hrest, hafter, hlast⟩ := ih
    refine ⟨⟨hfrom, ?_⟩, ?_, ?_⟩
    · rw [hdepth]
      refine ⟨hfrom', ?_⟩
      rwa [hdepth']
    · change depthAfter (m.depthBehind (l.depthBehind 0)) ls = 0
      rw [hdepth, hdepth', hafter]
    · intro k hk
      cases ls with
      | nil =>
        obtain rfl : m = k := by simpa using hk
        refine endsLimits_of (count_lower hm) (count_not hm (by decide)) (count_not hm (by decide)) ?_
        intro hquote
        change m.text.head?.any _ = true at hm
        rw [hquote] at hm
        exact absurd hm (by decide)
      | cons n ls => exact hlast k (by simpa [List.getLast?_cons_cons] using hk)
  | @paren l m c inner ls hl hm hinner hc _ ih =>
    obtain ⟨hfrom, hdepth⟩ := limit_word hl
    obtain ⟨hfrom', hpos⟩ := inner_layout (Int.le_refl 1) hinner
    obtain ⟨hclose, hdepth'⟩ := close_word hpos hc
    obtain ⟨hrest, hafter, hlast⟩ := ih
    have hopen : m.depthBehind 0 = 1 := by simp [Lexeme.depthBehind, Lexeme.depthAt, hm]
    have hmlower : tokLower maps m.text = ['('] := by rw [hm, paren_lower (Or.inl rfl)]
    have hclower : tokLower maps c.text = c.text := by rw [hclose, paren_lower (Or.inr rfl)]
    refine ⟨⟨hfrom, ?_⟩, ?_, ?_⟩
    · rw [hdepth]
      refine ⟨isTopAt_false (by rw [hmlower]; decide), ?_⟩
      rw [hopen, noTop_append]
      refine ⟨hfrom', isTopAt_false (by rw [hclower, hclose]; decide), ?_⟩
      rwa [hdepth']
    · change depthAfter (m.depthBehind (l.depthBehind 0)) (inner ++ c :: ls) = 0
      rw [hdepth, hopen, depthAfter_append]
      change depthAfter (c.depthBehind (depthAfter 1 inner)) ls = 0
      rw [hdepth', hafter]
    · have hlasts : (l :: m :: (inner ++ c :: ls)).getLast? = (c :: ls).getLast? := by
        rw [show l :: m :: (inner ++ c :: ls) = (l :: m :: inner) ++ c :: ls from rfl,
          List.getLast?_append, List.getLast?_cons]
        rfl
      intro k hk
      rw [hlasts] at hk
      cases ls with
      | nil =>
        obtain rfl : c = k := by simpa using hk
        exact endsLimits_of hclower (by rw [hclose]; decide) (by rw [hclose]; decide)
          (by rw [hclose]; decide)
      | cons n ls => exact hlast k (by simpa [List.getLast?_cons_cons] using hk)

theorem tok_text (l : Lexeme) (depth : Int) (behind : Text) :
    (l.tok maps depth behind).text = l.text := rfl

theorem behindLimits_limit (fuel : Nat) {t u : Tok} (ht : t.IsLimit) (list : List Tok) :
    behindLimits (fuel + 1) (t :: u :: list) =
      if u.text = ['('] then behindLimits fuel ((list.dropWhile (!Tok.isTop ")" ·)).drop 1)
      else if u.isCount then behindLimits fuel list
      else t :: u :: list := if_pos ht

theorem behindLimits_done {list : List Tok} (h : ∀ t ∈ list.head?, ¬ t.IsLimit) (fuel : Nat) :
    behindLimits fuel list = list := by
  cases fuel with
  | zero => simp [behindLimits]
  | succ fuel =>
    match list with
    | [] => simp [behindLimits]
    | [t] => simp [behindLimits]
    | t :: u :: list => exact if_neg (h t rfl)

theorem close_found {inner ls : List Lexeme} {c : Lexeme} {depth : Int} {tail : Text} {list : List Tok}
    (h : NoTop maps ")" depth inner) (hc : c.isTopAt maps (depthAfter depth inner) ")" = true) :
    (layout maps depth (inner ++ c :: ls) tail ++ list).dropWhile (!Tok.isTop ")" ·) =
      c.tok maps (depthAfter depth inner) (renderLexemes ls tail) ::
        (layout maps (c.depthBehind (depthAfter depth inner)) ls tail ++ list) := by
  rw [layout_append, List.append_assoc, List.dropWhile_append_of_pos (noTop_iff.mp h), layout_cons,
    List.cons_append, List.dropWhile_cons, tok_isTop, hc]
  rfl

/-- The limits are skipped, by the reader and by the code. -/
theorem Limits.skip {ls : List Lexeme} (h : Limits maps ls) {l : List Tok}
    (hl : ∀ t ∈ l.head?, ¬ t.IsLimit) {tail : Text} {fuel : Nat} (hf : (ls.length + l.length) ≤ fuel) :
    behindLimits fuel (layout maps 0 ls tail ++ l) = l ∧
      skipLimits fuel (layout maps 0 ls tail ++ l) = l := by
  induction h generalizing fuel with
  | nil => exact ⟨behindLimits_done hl fuel, skipLimits_done hl fuel⟩
  | @number k m ls hk hm _ ih =>
    simp only [List.length_cons] at hf
    obtain ⟨n, rfl⟩ : ∃ n, fuel = n + 1 := ⟨fuel - 1, by omega⟩
    obtain ⟨-, hdepth⟩ := limit_word hk
    obtain ⟨-, hdepth'⟩ := count_word hm
    obtain ⟨hbehind, hskip⟩ := @ih n (by omega)
    have hopen : m.text ≠ ['('] := count_not hm (by decide)
    have hlower := count_lower hm
    have hk' (x : Text) : (k.tok maps 0 x).IsLimit := hk
    have hm' (x : Text) : (m.tok maps 0 x).isCount = true := hm
    rw [layout_cons, hdepth, layout_cons, hdepth', List.cons_append, List.cons_append]
    refine ⟨?_, ?_⟩
    · rw [behindLimits_limit n (hk' _), tok_text, if_neg hopen, if_pos (hm' _), hbehind]
    · rw [skipLimits_cons, if_pos (hk' _)]
      dsimp only
      rw [if_neg (by rw [Lexeme.tok, hlower]; exact hopen), hskip]
  | @paren k m c inner ls hk hm hinner hc _ ih =>
    simp only [List.length_cons, List.length_append] at hf
    obtain ⟨n, rfl⟩ : ∃ n, fuel = n + 1 := ⟨fuel - 1, by omega⟩
    obtain ⟨-, hdepth⟩ := limit_word hk
    obtain ⟨-, hdepth'⟩ := close_word (inner_layout (Int.le_refl 1) hinner).2 hc
    obtain ⟨hbehind, hskip⟩ := @ih n (by omega)
    have hopen : m.depthBehind 0 = 1 := by simp [Lexeme.depthBehind, Lexeme.depthAt, hm]
    have hlower : tokLower maps m.text = ['('] := by rw [hm, paren_lower (Or.inl rfl)]
    have hk' (x : Text) : (k.tok maps 0 x).IsLimit := hk
    have hlower' (x : Text) : (m.tok maps 0 x).lower = ['('] := hlower
    rw [layout_cons, hdepth, layout_cons, hopen, List.cons_append, List.cons_append]
    refine ⟨?_, ?_⟩
    · rw [behindLimits_limit n (hk' _), tok_text, if_pos hm, close_found hinner hc, hdepth', List.drop_succ_cons,
        List.drop_zero, hbehind]
    · rw [skipLimits_cons, if_pos (hk' _)]
      dsimp only
      rw [if_pos (hlower' _), close_found hinner hc, hdepth', List.drop_succ_cons, List.drop_zero, hskip]

/-- What the reader takes for limits is one limit behind the other. -/
theorem behindLimits_layout : ∀ (fuel : Nat) (ls : List Lexeme) (tail : Text),
    (layout maps 0 ls tail).length ≤ fuel → behindLimits fuel (layout maps 0 ls tail) ≠ [] →
    ∃ limits rest, ls = limits ++ rest ∧ Limits maps limits ∧
      behindLimits fuel (layout maps 0 ls tail) = layout maps 0 rest tail
  | 0, ls, tail, _, _ => ⟨[], ls, rfl, .nil, by simp [behindLimits]⟩
  | fuel + 1, [], tail, _, _ => ⟨[], [], rfl, .nil, by simp [behindLimits, layout]⟩
  | fuel + 1, [l], tail, _, _ => ⟨[], [l], rfl, .nil, by simp [behindLimits, layout]⟩
  | fuel + 1, l :: m :: ls, tail, hf, hne => by
    have hnone : ∃ limits rest, l :: m :: ls = limits ++ rest ∧ Limits maps limits ∧
        layout maps 0 (l :: m :: ls) tail = layout maps 0 rest tail := ⟨[], _, rfl, .nil, rfl⟩
    rw [layout_length] at hf
    simp only [List.length_cons] at hf
    by_cases hl : (l.tok maps 0 []).IsLimit
    · obtain ⟨-, hdepth⟩ := limit_word hl
      have hl' (x : Text) : (l.tok maps 0 x).IsLimit := hl
      rw [layout_cons, hdepth, layout_cons] at hne hnone ⊢
      rw [behindLimits_limit fuel (hl' _), tok_text] at hne ⊢
      by_cases hm : m.text = ['(']
      · have hopen : m.depthBehind 0 = 1 := by simp [Lexeme.depthBehind, Lexeme.depthAt, hm]
        rw [if_pos hm, hopen] at hne ⊢
        have hsplit := List.takeWhile_append_dropWhile (p := (!Tok.isTop ")" ·)) (l := layout maps 1 ls tail)
        have hclose := List.head?_dropWhile_not (!Tok.isTop ")" ·) (layout maps 1 ls tail)
        have hinner : ∀ x ∈ (layout maps 1 ls tail).takeWhile (!Tok.isTop ")" ·), (!x.isTop ")") = true :=
          fun x hx => List.mem_takeWhile_imp (p := fun x => !Tok.isTop ")" x) hx
        cases hb : (layout maps 1 ls tail).dropWhile (!Tok.isTop ")" ·) with
        | nil =>
          rw [hb, List.drop_nil, behindLimits_done (by simp)] at hne
          exact absurd rfl hne
        | cons c list =>
          rw [hb] at hsplit hne hclose
          rw [List.drop_succ_cons, List.drop_zero] at hne ⊢
          obtain ⟨inner, later, rfl, htake, hlater⟩ := layout_eq_append hsplit.symm
          obtain ⟨k, later, rfl, rfl, rfl⟩ := layout_eq_cons hlater.symm
          rw [htake] at hinner
          have hnoTop := noTop_iff.mpr hinner
          have hk : k.isTopAt maps (depthAfter 1 inner) ")" = true := by simpa using hclose
          have hdepth' := (close_word (inner_layout (Int.le_refl 1) hnoTop).2 hk).2
          rw [hdepth'] at hne ⊢
          simp only [List.length_append, List.length_cons] at hf
          obtain ⟨limits, rest, rfl, hlimits, hrest⟩ :=
            behindLimits_layout fuel later tail (by rw [layout_length]; omega) hne
          exact ⟨_, rest, by simp, .paren hl hm hnoTop hk hlimits, hrest⟩
      · rw [if_neg hm] at hne ⊢
        by_cases hcount : (m.tok maps 0 []).isCount = true
        · have hdepth' := (count_word hcount).2
          have hcount' (x : Text) : (m.tok maps 0 x).isCount = true := hcount
          rw [if_pos (hcount' _), hdepth'] at hne ⊢
          obtain ⟨limits, rest, rfl, hlimits, hrest⟩ :=
            behindLimits_layout fuel ls tail (by rw [layout_length]; omega) hne
          exact ⟨l :: m :: limits, rest, rfl, .number hl hcount hlimits, hrest⟩
        · have hcount' (x : Text) : ¬ (m.tok maps 0 x).isCount = true := hcount
          rw [if_neg (hcount' _)]
          exact hnone
    · rw [behindLimits_done]
      · exact hnone
      · rintro x hx
        obtain rfl := Option.some.inj hx
        exact hl

theorem quantifier_word {l : Lexeme} (h : (l.tok maps 0 []).IsQuantifier) :
    ¬ (l.tok maps 0 []).IsLimit ∧ l.isTopAt maps 0 "from" = false ∧ l.depthBehind 0 = 0 := by
  have hlower : tokLower maps l.text = "distinct".toList ∨ tokLower maps l.text = "all".toList := h
  refine ⟨?_, isTopAt_false ?_, @depthBehind_of_lower maps l ?_ ?_ 0⟩
  · intro hl
    have hlimit : tokLower maps l.text = "first".toList ∨ tokLower maps l.text = "skip".toList := hl
    rcases hlower with hword | hword <;> rw [hword] at hlimit <;> exact absurd hlimit (by decide)
  all_goals rcases hlower with hword | hword <;> rw [hword] <;> decide

variable (maps) in
/-- What stands between SELECT and the items, in front of the first lexeme behind it. -/
def Introduces (limits : List Lexeme) (first : Option Lexeme) : Prop :=
  ∃ lp lq, limits = lp ++ lq ∧ Limits maps lp ∧
    (lq = [] ∧ (∀ l ∈ first, (l.tok maps 0 []).Plain) ∨
      ∃ l, lq = [l] ∧ (l.tok maps 0 []).IsQuantifier)

theorem Introduces.lexemes {limits : List Lexeme} {first : Option Lexeme} (h : Introduces maps limits first) :
    NoTop maps "from" 0 limits ∧ depthAfter 0 limits = 0 ∧
      ∀ l ∈ limits.getLast?, l.text.head? ≠ some '"' := by
  obtain ⟨lp, lq, rfl, hp, hq⟩ := h
  obtain ⟨hfrom, hafter, hlast⟩ := hp.lexemes
  rcases hq with ⟨rfl, -⟩ | ⟨l, rfl, hl⟩
  · rw [List.append_nil]
    exact ⟨hfrom, hafter, fun l hl => (hlast l hl).2⟩
  · obtain ⟨-, hl', hdepth⟩ := quantifier_word hl
    refine ⟨?_, ?_, ?_⟩
    · rw [noTop_append, hafter]
      exact ⟨hfrom, hl', trivial⟩
    · rw [depthAfter_append, hafter]
      exact hdepth
    · intro k hk hquote
      obtain rfl : l = k := by simpa using hk
      have hlower : tokLower maps l.text = "distinct".toList ∨ tokLower maps l.text = "all".toList := hl
      rw [tokLower_of_not_word (by rw [hquote]; decide)] at hlower
      rcases hlower with hword | hword <;> rw [hword] at hquote <;> exact absurd hquote (by decide)

theorem Introduces.mono {limits : List Lexeme} {first first' : Option Lexeme}
    (h : Introduces maps limits first) (hfirst : ∀ l ∈ first', l ∈ first) :
    Introduces maps limits first' := by
  obtain ⟨lp, lq, hlimits, hp, hq⟩ := h
  refine ⟨lp, lq, hlimits, hp, ?_⟩
  rcases hq with ⟨hq, hplain⟩ | hq
  · exact Or.inl ⟨hq, fun l hl => hplain l (hfirst l hl)⟩
  · exact Or.inr hq

/-- Another first lexeme, with the same text or one that is no word. -/
theorem Introduces.respell {limits : List Lexeme} {first first' : Option Lexeme}
    (h : Introduces maps limits first)
    (hfirst : ∀ l ∈ first', (∃ l' ∈ first, l'.text = l.text) ∨ l.text.head?.any isIdStart = false) :
    Introduces maps limits first' := by
  obtain ⟨lp, lq, hlimits, hp, hq⟩ := h
  refine ⟨lp, lq, hlimits, hp, ?_⟩
  rcases hq with ⟨hq, hplain⟩ | hq
  · refine Or.inl ⟨hq, fun l hl => ?_⟩
    rcases hfirst l hl with ⟨l', hl', htext⟩ | hword
    · have hlower : (l.tok maps 0 []).lower = (l'.tok maps 0 []).lower :=
        congrArg (tokLower maps) htext.symm
      rw [Tok.Plain, Tok.IsLimit, Tok.IsQuantifier, hlower]
      exact hplain l' hl'
    · have hlower : (l.tok maps 0 []).lower = l.text := tokLower_of_not_word hword
      have hno (word : Text) (hw : word.head?.any isIdStart = true) : (l.tok maps 0 []).lower ≠ word := by
        rw [hlower]
        rintro rfl
        rw [hword] at hw
        cases hw
      exact ⟨not_or.mpr ⟨hno _ (by decide), hno _ (by decide)⟩,
        not_or.mpr ⟨hno _ (by decide), hno _ (by decide)⟩⟩
  · exact Or.inr hq

theorem skipQuantifier_plain {list : List Tok} (h : ∀ t ∈ list.head?, ¬ t.IsQuantifier) :
    skipQuantifier list = list := by
  cases list with
  | nil => rfl
  | cons t list => exact if_neg (h t rfl)

/-- All that is between SELECT and the items is skipped. -/
theorem Introduces.skip {limits ls : List Lexeme} (h : Introduces maps limits ls.head?) {x tail : Text}
    {fuel : Nat} (hf : limits.length + ls.length ≤ fuel) :
    skipQuantifier (behindLimits fuel (layout maps 0 limits x ++ layout maps 0 ls tail)) =
        layout maps 0 ls tail ∧
      skipQuantifier (skipLimits fuel (layout maps 0 limits x ++ layout maps 0 ls tail)) =
        layout maps 0 ls tail := by
  obtain ⟨lp, lq, rfl, hp, hq⟩ := h
  have hafter := hp.lexemes.2.1
  rw [List.length_append] at hf
  rcases hq with ⟨rfl, hplain⟩ | ⟨q, rfl, hq⟩
  · rw [List.append_nil]
    have hhead : ∀ t ∈ (layout maps 0 ls tail).head?, t.Plain := by
      intro t ht
      cases ls with
      | nil => cases ht
      | cons l ls =>
        obtain rfl := Option.some.inj ht
        exact hplain l rfl
    obtain ⟨hbehind, hskip⟩ := @Limits.skip maps lp hp (layout maps 0 ls tail)
      (fun t ht => (hhead t ht).1) x fuel (by rw [layout_length]; omega)
    rw [hbehind, hskip, skipQuantifier_plain fun t ht => (hhead t ht).2]
    exact ⟨rfl, rfl⟩
  · obtain ⟨hlimit, -, hdepth⟩ := quantifier_word hq
    have hlayout : layout maps 0 (lp ++ [q]) x ++ layout maps 0 ls tail =
        layout maps 0 lp (renderLexemes [q] x) ++ q.tok maps 0 x :: layout maps 0 ls tail := by
      rw [layout_append, hafter, layout_cons, hdepth, List.append_assoc]
      rfl
    have hquantifier (list : List Tok) : skipQuantifier (q.tok maps 0 x :: list) = list := if_pos hq
    obtain ⟨hbehind, hskip⟩ := @Limits.skip maps lp hp (q.tok maps 0 x :: layout maps 0 ls tail)
      (by rintro t ht; obtain rfl := Option.some.inj ht; exact hlimit) (renderLexemes [q] x) fuel
      (by rw [List.length_cons, layout_length]; simp only [List.length_singleton] at hf; omega)
    rw [hlayout, hbehind, hskip, hquantifier]
    exact ⟨rfl, rfl⟩

/-- DISTINCT or ALL, or nothing of that. -/
theorem skipQuantifier_layout (ls : List Lexeme) (tail : Text) : ∃ lq lx, ls = lq ++ lx ∧
    skipQuantifier (layout maps 0 ls tail) = layout maps 0 lx tail ∧
    (lq = [] ∧ (∀ l ∈ lx.head?, ¬ (l.tok maps 0 []).IsQuantifier) ∨
      ∃ l, lq = [l] ∧ (l.tok maps 0 []).IsQuantifier) := by
  cases ls with
  | nil => exact ⟨[], [], rfl, rfl, Or.inl ⟨rfl, by simp⟩⟩
  | cons l ls =>
    by_cases hl : (l.tok maps 0 []).IsQuantifier
    · refine ⟨[l], ls, rfl, ?_, Or.inr ⟨l, rfl, hl⟩⟩
      rw [layout_cons, (quantifier_word hl).2.2]
      exact if_pos hl
    · refine ⟨[], l :: ls, rfl, skipQuantifier_plain ?_, Or.inl ⟨rfl, ?_⟩⟩
      · rintro t ht
        obtain rfl := Option.some.inj ht
        exact hl
      · rintro k hk
        obtain rfl := Option.some.inj hk
        exact hl

/-! ### The items of the code -/

theorem Place.after_parens (p : Place) (ls : List Lexeme) :
    (p.after maps ls).parens = depthAfter p.parens ls := by
  induction ls generalizing p with
  | nil => rfl
  | cons l ls ih => exact ih (p.behind maps l)

theorem isTopAt_of {depth : Int} {l : Lexeme} {word : String} (hd : depth = 0)
    (hw : tokLower maps l.text = word.toList) (hne : word ≠ ")") : l.isTopAt maps depth word = true := by
  have hclose : l.text ≠ [')'] := by
    intro h
    rw [h, paren_lower (Or.inr rfl)] at hw
    exact hne (String.toList_inj.mp hw.symm)
  rw [Lexeme.isTopAt, Lexeme.depthAt, if_neg hclose, hd, hw]
  simp

theorem isTopAt_ends {p : Place} {l : Lexeme} (h : p.ends maps l = true) :
    l.isTopAt maps p.parens "from" = true := by
  obtain ⟨hout, hword, -⟩ := Place.ends_iff.mp h
  exact isTopAt_of (Place.isOutside_iff.mp hout).1 hword (by decide)

theorem isTopAt_parts {p : Place} {l : Lexeme} (h : p.parts l = true) :
    l.isTopAt maps p.parens "," = true := by
  obtain ⟨hout, htext⟩ := Place.parts_iff.mp h
  exact isTopAt_of (Place.isOutside_iff.mp hout).1 (by rw [htext, comma_lower]; rfl) (by decide)

/-- Without a comma or FROM in an item, the code sees the same items. -/
theorem Listed.itemsAt {p : Place} {items : List ListItem} (h : Listed maps p items)
    (hp : p.parens = 0)
    (hparted : ∀ i ∈ items, NoTop maps "," 0 i.lexemes ∧ NoTop maps "from" 0 i.lexemes) :
    ItemsAt maps 0 items := by
  induction items generalizing p with
  | nil => exact h.elim
  | cons i items ih =>
    obtain ⟨hi, hrest⟩ := List.forall_mem_cons.mp hparted
    have hafter := @Place.after_parens maps p i.lexemes
    rw [hp] at hafter
    cases items with
    | nil =>
      have hstop := isTopAt_ends h.2
      rw [hafter] at hstop
      exact ⟨hi.1, hi.2, hstop⟩
    | cons j items =>
      have hstop := @isTopAt_parts maps _ _ h.2.1
      rw [hafter] at hstop
      exact ⟨⟨hi.1, hi.2, hstop⟩, ih h.2.2 rfl hrest⟩

/-! ### A text with its select list -/

variable (maps) in
/-- A list that has no comma and no FROM in an item outside of parentheses, and no name FIRST
or SKIP where a limit could be. -/
structure SelectText.Plain (t : SelectText) : Prop where
  parted : ∀ i ∈ t.items, NoTop maps "," 0 i.lexemes ∧ NoTop maps "from" 0 i.lexemes
  named : ∀ l ∈ (joinItems t.items).head?, (l.tok maps 0 []).IsLimit →
    ∃ q ∈ t.ahead.getLast?, (q.tok maps 0 []).IsQuantifier

/-- A text with its select list: what is ahead of SELECT, SELECT, what belongs to it, the
items with the FROM behind them, and the rest. -/
structure Select where
  before : List Lexeme
  select : Lexeme
  limits : List Lexeme
  items : List ListItem
  behind : List Lexeme
  tail : Text

namespace Select

def ahead (s : Select) : List Lexeme := s.before ++ s.select :: s.limits

def lexemes (s : Select) : List Lexeme := s.ahead ++ (joinItems s.items ++ s.behind)

def text (s : Select) : Text := renderLexemes s.lexemes s.tail

/-- The text behind the last item. -/
def rest (s : Select) : Text := renderLexemes (lastStop s.items :: s.behind) s.tail

/-- The list is one, and the code reads it as such. -/
structure Ok (maps : CaseMaps) (s : Select) : Prop where
  lexed : ReadAs s.lexemes s.tail
  before : NoTop maps "select" 0 s.before
  select : s.select.isTopAt maps (depthAfter 0 s.before) "select" = true
  introduced : Introduces maps s.limits (joinItems s.items ++ s.behind).head?
  listed : Listed maps .start s.items
  parted : ∀ i ∈ s.items, NoTop maps "," 0 i.lexemes ∧ NoTop maps "from" 0 i.lexemes

theorem Ok.items {s : Select} (h : s.Ok maps) : ItemsAt maps 0 s.items := h.listed.itemsAt rfl h.parted

/-- What stands ahead of the items is no quoted name. -/
theorem Ok.ahead_last {s : Select} (h : s.Ok maps) : ∀ l ∈ s.ahead.getLast?, l.text.head? ≠ some '"' := by
  intro l hl
  rw [ahead, List.getLast?_append, List.getLast?_cons] at hl
  obtain rfl := Option.some.inj hl
  cases hlast : s.limits.getLast? with
  | none => exact isTopAt_not_quoted h.select (by decide)
  | some l => exact h.introduced.lexemes.2.2 l hlast

theorem takeWhile_split {α : Type} {p : α → Bool} {a b : List α} {c : α}
    (ha : ∀ x ∈ a, p x = true) (hc : p c = false) :
    (a ++ c :: b).takeWhile p = a ∧ (a ++ c :: b).dropWhile p = c :: b := by
  rw [List.takeWhile_append_of_pos ha, List.dropWhile_append_of_pos ha, List.takeWhile_cons,
    List.dropWhile_cons, hc]
  simp

/-- The tokens of such a text, up to SELECT and behind it. -/
theorem Ok.tokenize {s : Select} (h : s.Ok maps) : ∃ ahead sel,
    FastFirebird.tokenize maps s.text = ahead ++ sel :: layout maps 0 (s.limits ++
      (joinItems s.items ++ s.behind)) s.tail ∧
    (∀ t ∈ ahead, (!t.isTop "select") = true) ∧ sel.isTop "select" = true := by
  have hsel := depthBehind_of_isTop h.select (by decide)
  refine ⟨layout maps 0 s.before (renderLexemes (s.select :: (s.limits ++
    (joinItems s.items ++ s.behind))) s.tail), s.select.tok maps (depthAfter 0 s.before)
    (renderLexemes (s.limits ++ (joinItems s.items ++ s.behind)) s.tail), ?_, noTop_iff.mp h.before,
    h.select⟩
  rw [text, tokenize_layout h.lexed, lexemes, ahead, List.append_assoc, layout_append,
    List.cons_append, layout_cons, hsel.2]

/-- What the reader finds in such a text. -/
theorem Ok.read {s : Select} (h : s.Ok maps) :
    readList maps s.text = some ⟨s.ahead, s.items, renderLexemes s.behind s.tail⟩ := by
  obtain ⟨ahead, sel, htoks, hahead, hsel⟩ := h.tokenize
  obtain ⟨-, hdrop⟩ := takeWhile_split (p := fun t => !Tok.isTop "select" t) (c := sel)
    (b := layout maps 0 (s.limits ++ (joinItems s.items ++ s.behind)) s.tail) hahead (by simp [hsel])
  have hafter := h.introduced.lexemes.2.1
  have hlayout : layout maps 0 (s.limits ++ (joinItems s.items ++ s.behind)) s.tail =
      layout maps 0 s.limits (renderLexemes (joinItems s.items ++ s.behind) s.tail) ++
        layout maps 0 (joinItems s.items ++ s.behind) s.tail := by
    rw [layout_append, hafter]
  have hskip := (@Introduces.skip maps s.limits (joinItems s.items ++ s.behind) h.introduced
    (renderLexemes (joinItems s.items ++ s.behind) s.tail) s.tail
    (layout maps 0 (s.limits ++ (joinItems s.items ++ s.behind)) s.tail).length
    (by rw [layout_length, ← List.length_append])).1
  rw [← hlayout] at hskip
  have hlist := (@listFrom_layout maps 0 (joinItems s.items ++ s.behind) s.tail _ s.items .start).mpr
    ⟨s.behind, rfl, rfl, h.listed⟩
  have hread : (FastFirebird.tokenize maps s.text).map Tok.lexeme = s.lexemes := by
    rw [text, tokenize_layout h.lexed, layout_lexemes]
  have hlen : (FastFirebird.tokenize maps s.text).length -
      (layout maps 0 (joinItems s.items ++ s.behind) s.tail).length = s.ahead.length := by
    rw [← List.length_map Tok.lexeme, hread, layout_length, lexemes, List.length_append]
    omega
  rw [readList]
  dsimp only
  rw [htoks, hdrop]
  dsimp only
  rw [hskip, hlist, ← htoks, hlen, List.map_take, hread, lexemes, List.take_left]
  rfl

/-- What the code takes for the items of such a text. -/
theorem Ok.selectTokens {s : Select} (h : s.Ok maps) : ∃ list,
    FastFirebird.selectTokens (FastFirebird.tokenize maps s.text) = some list ∧
      skipPrefixes list = layout maps 0 (joinInner s.items) s.rest := by
  obtain ⟨ahead, sel, htoks, hahead, hsel⟩ := h.tokenize
  obtain ⟨hnoFrom, hafter, -⟩ := h.introduced.lexemes
  obtain ⟨hinner, hlast⟩ := h.items.inner
  have hdepth := (depthBehind_of_isTop hlast (by decide)).1
  have hjoin := joinItems_eq h.items.ne_nil
  rw [hdepth] at hlast
  have hlayout : layout maps 0 (s.limits ++ (joinItems s.items ++ s.behind)) s.tail =
      layout maps 0 (s.limits ++ joinInner s.items) s.rest ++
        (lastStop s.items).tok maps 0 (renderLexemes s.behind s.tail) ::
          layout maps ((lastStop s.items).depthBehind 0) s.behind s.tail := by
    rw [hjoin, List.append_assoc, ← List.append_assoc, layout_append, depthAfter_append, hafter, hdepth,
      List.singleton_append, layout_cons]
    rfl
  have hlist : ∀ t ∈ layout maps 0 (s.limits ++ joinInner s.items) s.rest, (!t.isTop "from") = true := by
    apply noTop_iff.mp
    rw [noTop_append, hafter]
    exact ⟨hnoFrom, hinner⟩
  obtain ⟨-, hdrop⟩ := takeWhile_split (p := fun t => !Tok.isTop "select" t) (c := sel)
    (b := layout maps 0 (s.limits ++ (joinItems s.items ++ s.behind)) s.tail) hahead (by simp [hsel])
  obtain ⟨htake, -⟩ := takeWhile_split (p := fun t => !Tok.isTop "from" t)
    (c := (lastStop s.items).tok maps 0 (renderLexemes s.behind s.tail))
    (b := layout maps ((lastStop s.items).depthBehind 0) s.behind s.tail) hlist
    (by rw [tok_isTop, hlast]; rfl)
  refine ⟨layout maps 0 (s.limits ++ joinInner s.items) s.rest, ?_, ?_⟩
  · rw [FastFirebird.selectTokens, htoks, hdrop]
    dsimp only
    rw [hlayout, htake, if_pos]
    rw [List.any_append, List.any_cons, tok_isTop, hlast]
    simp
  · have hintro : Introduces maps s.limits (joinInner s.items).head? := by
      refine h.introduced.mono fun l hl => ?_
      rw [hjoin, List.append_assoc, List.head?_append, Option.mem_def.mp hl]
      rfl
    rw [skipPrefixes, layout_length, layout_append, hafter]
    exact (hintro.skip (by rw [List.length_append])).2

/-- A text in which a plain list is found, taken apart. -/
theorem exists_ok {sql : Text} {t : SelectText} (h : readList maps sql = some t) (hplain : t.Plain maps) :
    ∃ s : Select, s.Ok maps ∧ s.text = sql ∧ s.items = t.items ∧ s.ahead = t.ahead ∧
      renderLexemes s.behind s.tail = t.behind := by
  obtain ⟨ls, tail, rfl, hread⟩ := exists_lexemes sql
  have htoks := @tokenize_layout maps ls tail hread
  rw [readList, htoks] at h
  dsimp only at h
  split at h
  · cases h
  rename_i sel rest hsel
  have hsplit := List.takeWhile_append_dropWhile (p := (!Tok.isTop "select" ·)) (l := layout maps 0 ls tail)
  have hselTop := List.head?_dropWhile_not (!Tok.isTop "select" ·) (layout maps 0 ls tail)
  rw [hsel] at hsplit hselTop
  obtain ⟨la, lb, rfl, hbefore, hlb⟩ := layout_eq_append hsplit.symm
  obtain ⟨l, lb, rfl, hl, hrest⟩ := layout_eq_cons hlb.symm
  have hltop : l.isTopAt maps (depthAfter 0 la) "select" = true := by
    rw [List.head?_cons, hl] at hselTop
    simpa using hselTop
  have hnoSelect : NoTop maps "select" 0 la := by
    refine (@noTop_iff maps _ _ _ (renderLexemes (l :: lb) tail)).mpr ?_
    rw [← hbefore]
    exact fun x hx => List.mem_takeWhile_imp (p := fun x => !Tok.isTop "select" x) hx
  rw [(depthBehind_of_isTop hltop (by decide)).2] at hrest
  obtain ⟨⟨items, b⟩, hfrom, rfl⟩ := Option.map_eq_some_iff.mp h
  have hne : behindLimits rest.length rest ≠ [] := by
    intro he
    rw [he] at hfrom
    cases hfrom
  rw [hrest] at hne hfrom
  obtain ⟨lp, lr, rfl, hlimits, hbehind⟩ := behindLimits_layout _ _ _ (Nat.le_refl _) hne
  obtain ⟨lq, lx, rfl, hlist, hquantifier⟩ := @skipQuantifier_layout maps lr tail
  rw [hbehind, hlist] at hfrom
  obtain ⟨behind, rfl, rfl, hlisted⟩ := listFrom_layout.mp hfrom
  have hahead : ((layout maps 0 (la ++ l :: (lp ++ (lq ++ (joinItems items ++ behind)))) tail).take
      ((layout maps 0 (la ++ l :: (lp ++ (lq ++ (joinItems items ++ behind)))) tail).length -
        (skipQuantifier (behindLimits rest.length rest)).length)).map Tok.lexeme =
      la ++ l :: (lp ++ lq) := by
    rw [hrest, hbehind, hlist, List.map_take, layout_lexemes, layout_length, layout_length]
    have hsplit : la ++ l :: (lp ++ (lq ++ (joinItems items ++ behind))) =
        (la ++ l :: (lp ++ lq)) ++ (joinItems items ++ behind) := by simp
    rw [hsplit, List.length_append, Nat.add_sub_cancel, List.take_left]
  rw [hahead] at hplain ⊢
  refine ⟨⟨la, l, lp ++ lq, items, behind, tail⟩, ⟨?_, hnoSelect, hltop, ⟨lp, lq, rfl, hlimits, ?_⟩,
    hlisted, hplain.parted⟩, ?_, rfl, rfl, rfl⟩
  · simpa [lexemes, ahead] using hread
  · rcases hquantifier with ⟨rfl, hnone⟩ | hquantifier
    · refine Or.inl ⟨rfl, fun k hk => ⟨fun hlimit => ?_, hnone k hk⟩⟩
      have hhead : (joinItems items ++ behind).head? = (joinItems items).head? := by
        obtain ⟨m, ls, hm⟩ : ∃ m ls, joinItems items = m :: ls := by
          rw [joinItems_eq hlisted.ne_nil]
          exact List.exists_cons_of_ne_nil (by simp)
        rw [hm]
        rfl
      rw [hhead] at hk
      obtain ⟨q, hq, hquantifier⟩ := hplain.named k hk hlimit
      rw [List.append_nil] at hq
      cases lp with
      | nil =>
        obtain rfl : l = q := by simpa using hq
        have hlower := hltop
        rw [Lexeme.isTopAt, Bool.and_eq_true, beq_iff_eq, beq_iff_eq] at hlower
        have hword : tokLower maps l.text = "distinct".toList ∨ tokLower maps l.text = "all".toList :=
          hquantifier
        rw [hlower.2] at hword
        exact absurd hword (by decide)
      | cons m lp =>
        refine (hlimits.lexemes.2.2 q ?_).1 hquantifier
        rw [List.getLast?_append, List.getLast?_cons_cons] at hq
        cases hlast : (m :: lp).getLast? with
        | none => simp at hlast
        | some k =>
          rw [hlast] at hq
          exact hq
    · exact Or.inr hquantifier
  · simp [text, lexemes, ahead]

end Select

end Lists

end FastFirebird
