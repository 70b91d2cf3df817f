import FastFirebird.StarLexemes

/-! The items of a select list, and what the code makes of their tokens. -/
namespace FastFirebird
attribute [local irreducible] lexStep

/-- A select item, and the comma or FROM behind it. -/
structure ListItem where
  lexemes : List Lexeme
  stop : Lexeme
  deriving Repr, DecidableEq

def Tok.lexeme (t : Tok) : Lexeme := ⟨t.gap, t.text⟩

def joinItems (items : List ListItem) : List Lexeme := items.flatMap fun i => i.lexemes ++ [i.stop]

section Depth

variable {maps : CaseMaps}

theorem layout_append (depth : Int) (a b : List Lexeme) (tail : Text) :
    layout maps depth (a ++ b) tail =
      layout maps depth a (renderLexemes b tail) ++ layout maps (depthAfter depth a) b tail := by
  induction a generalizing depth with
  | nil => rfl
  | cons l a ih =>
    rw [List.cons_append, layout, layout, ih, renderLexemes_append]
    rfl

theorem depthAfter_append (depth : Int) (a b : List Lexeme) :
    depthAfter depth (a ++ b) = depthAfter (depthAfter depth a) b := List.foldl_append

theorem layout_length (depth : Int) (ls : List Lexeme) (tail : Text) :
    (layout maps depth ls tail).length = ls.length := by
  induction ls generalizing depth with
  | nil => rfl
  | cons l ls ih => exact congrArg Nat.succ (ih _)

theorem layout_lexemes (depth : Int) (ls : List Lexeme) (tail : Text) :
    (layout maps depth ls tail).map Tok.lexeme = ls := by
  induction ls generalizing depth with
  | nil => rfl
  | cons l ls ih =>
    rw [layout, List.map_cons, ih]
    rfl

/-- A keyword, a comma or a parenthesis outside of all parentheses. -/
def Lexeme.isTopAt (maps : CaseMaps) (depth : Int) (word : String) (l : Lexeme) : Bool :=
  l.depthAt depth == 0 && tokLower maps l.text == word.toList

@[simp] theorem tok_isTop (l : Lexeme) (depth : Int) (behind : Text) (word : String) :
    (l.tok maps depth behind).isTop word = l.isTopAt maps depth word := rfl

/-- The word is at no place of the row that is outside of all parentheses. -/
def NoTop (maps : CaseMaps) (word : String) : Int → List Lexeme → Prop
  | _, [] => True
  | depth, l :: ls => l.isTopAt maps depth word = false ∧ NoTop maps word (l.depthBehind depth) ls

instance decidableNoTop (word : String) : (depth : Int) → (ls : List Lexeme) →
    Decidable (NoTop maps word depth ls)
  | _, [] => .isTrue trivial
  | depth, l :: ls =>
    have := decidableNoTop word (l.depthBehind depth) ls
    inferInstanceAs (Decidable (_ ∧ _))

theorem noTop_iff {word : String} {depth : Int} {ls : List Lexeme} {tail : Text} :
    NoTop maps word depth ls ↔ ∀ t ∈ layout maps depth ls tail, (!t.isTop word) = true := by
  induction ls generalizing depth with
  | nil => simp [NoTop, layout]
  | cons l ls ih =>
    rw [NoTop, layout, List.forall_mem_cons, ← ih, tok_isTop, Bool.not_eq_true']

theorem noTop_append {word : String} {depth : Int} {a b : List Lexeme} :
    NoTop maps word depth (a ++ b) ↔
      NoTop maps word depth a ∧ NoTop maps word (depthAfter depth a) b := by
  induction a generalizing depth with
  | nil => simp [NoTop, depthAfter]
  | cons l a ih => rw [List.cons_append, NoTop, NoTop, ih, and_assoc]; rfl

/-- What is not a word is compared as it is written. -/
theorem tokLower_of_not_word {text : Text} (h : text.head?.any isIdStart = false) :
    tokLower maps text = text := by
  rw [tokLower, h]
  rfl

/-- Behind a comma or a keyword outside of all parentheses, one is still outside. -/
theorem depthBehind_of_isTop {depth : Int} {word : String} {l : Lexeme}
    (h : l.isTopAt maps depth word = true) (hw : word ≠ "(" ∧ word ≠ ")") :
    depth = 0 ∧ l.depthBehind depth = 0 := by
  rw [Lexeme.isTopAt, Bool.and_eq_true, beq_iff_eq, beq_iff_eq] at h
  have hopen : l.text ≠ ['('] := by
    intro ht
    rw [ht, tokLower_of_not_word (by decide)] at h
    exact hw.1 (String.toList_inj.mp h.2.symm)
  have hclose : l.text ≠ [')'] := by
    intro ht
    rw [ht, tokLower_of_not_word (by decide)] at h
    exact hw.2 (String.toList_inj.mp h.2.symm)
  have hd := h.1
  rw [Lexeme.depthAt, if_neg hclose] at hd
  refine ⟨hd, ?_⟩
  rw [Lexeme.depthBehind, if_neg hopen, Lexeme.depthAt, if_neg hclose, hd]

/-- A comma or a keyword is not quoted. -/
theorem isTopAt_not_quoted {depth : Int} {word : String} {l : Lexeme}
    (h : l.isTopAt maps depth word = true) (hw : word.toList.head? ≠ some '"') :
    l.text.head? ≠ some '"' := by
  rw [Lexeme.isTopAt, Bool.and_eq_true, beq_iff_eq, beq_iff_eq] at h
  intro hq
  rw [tokLower_of_not_word (by rw [hq]; decide)] at h
  rw [h.2] at hq
  exact hw hq

end Depth

/-! ### Items and their lexemes -/

/-- The lexemes of a list without the FROM behind it. -/
def joinInner : List ListItem → List Lexeme
  | [] => []
  | [i] => i.lexemes
  | i :: items => i.lexemes ++ i.stop :: joinInner items

def lastStop : List ListItem → Lexeme
  | [] => ⟨[], []⟩
  | [i] => i.stop
  | _ :: items => lastStop items

/-- The tokens of each item. -/
def itemToks (maps : CaseMaps) (tail : Text) : Int → List ListItem → List (List Tok)
  | _, [] => []
  | depth, [i] => [layout maps depth i.lexemes tail]
  | depth, i :: items =>
    layout maps depth i.lexemes (renderLexemes (i.stop :: joinInner items) tail) ::
      itemToks maps tail 0 items

/-- An item that starts at this depth and ends with a comma or FROM. -/
structure ItemAt (maps : CaseMaps) (depth : Int) (word : String) (i : ListItem) : Prop where
  comma : NoTop maps "," depth i.lexemes
  frm : NoTop maps "from" depth i.lexemes
  stop : i.stop.isTopAt maps (depthAfter depth i.lexemes) word = true

def ItemsAt (maps : CaseMaps) : Int → List ListItem → Prop
  | _, [] => False
  | depth, [i] => ItemAt maps depth "from" i
  | depth, i :: items => ItemAt maps depth "," i ∧ ItemsAt maps 0 items

section Items

variable {maps : CaseMaps}

theorem joinInner_cons (i j : ListItem) (items : List ListItem) :
    joinInner (i :: j :: items) = i.lexemes ++ i.stop :: joinInner (j :: items) := rfl

theorem lastStop_cons (i j : ListItem) (items : List ListItem) :
    lastStop (i :: j :: items) = lastStop (j :: items) := rfl

theorem joinItems_eq {items : List ListItem} (h : items ≠ []) :
    joinItems items = joinInner items ++ [lastStop items] := by
  induction items with
  | nil => exact absurd rfl h
  | cons i items ih =>
    cases items with
    | nil => simp [joinItems, joinInner, lastStop]
    | cons j items =>
      have hi := ih (by simp)
      rw [joinItems, List.flatMap_cons, ← joinItems, hi, joinInner_cons, lastStop_cons]
      simp

theorem ItemsAt.ne_nil {depth : Int} {items : List ListItem} (h : ItemsAt maps depth items) :
    items ≠ [] := by
  rintro rfl
  exact h

theorem itemsAt_cons {depth : Int} {i j : ListItem} {items : List ListItem} :
    ItemsAt maps depth (i :: j :: items) ↔
      ItemAt maps depth "," i ∧ ItemsAt maps 0 (j :: items) := Iff.rfl

/-- A row of lexemes in front of FROM is a list of items. -/
theorem exists_items {depth : Int} {inner : List Lexeme} {stop : Lexeme}
    (h : NoTop maps "from" depth inner)
    (hs : stop.isTopAt maps (depthAfter depth inner) "from" = true) :
    ∃ items, ItemsAt maps depth items ∧ joinItems items = inner ++ [stop] := by
  induction inner generalizing depth with
  | nil => exact ⟨[⟨[], stop⟩], ⟨trivial, trivial, hs⟩, rfl⟩
  | cons l inner ih =>
    obtain ⟨items, hitems, hjoin⟩ := ih h.2 hs
    by_cases hc : l.isTopAt maps depth "," = true
    · have hd := depthBehind_of_isTop hc (by decide)
      rw [hd.2] at hitems
      obtain ⟨i, rest, rfl⟩ := List.exists_cons_of_ne_nil hitems.ne_nil
      refine ⟨⟨[], l⟩ :: i :: rest, itemsAt_cons.mpr ⟨⟨trivial, trivial, hc⟩, hitems⟩, ?_⟩
      rw [joinItems, List.flatMap_cons, ← joinItems, hjoin]
      rfl
    · have hc' := Bool.eq_false_iff.mpr hc
      obtain ⟨i, rest, rfl⟩ := List.exists_cons_of_ne_nil hitems.ne_nil
      have hitem {word : String} (hi : ItemAt maps (l.depthBehind depth) word i) :
          ItemAt maps depth word ⟨l :: i.lexemes, i.stop⟩ :=
        ⟨⟨hc', hi.comma⟩, ⟨h.1, hi.frm⟩, hi.stop⟩
      refine ⟨⟨l :: i.lexemes, i.stop⟩ :: rest, ?_, ?_⟩
      · cases rest with
        | nil => exact hitem hitems
        | cons j rest => exact ⟨hitem hitems.1, hitems.2⟩
      · rw [joinItems, List.flatMap_cons] at hjoin ⊢
        rw [List.cons_append, List.cons_append, hjoin, List.cons_append]

theorem ItemAt.behind {depth : Int} {i : ListItem} (h : ItemAt maps depth "," i) :
    depthAfter depth i.lexemes = 0 ∧ i.stop.depthBehind 0 = 0 := by
  have hd := depthBehind_of_isTop h.stop (by decide)
  rw [hd.1] at hd
  exact ⟨(depthBehind_of_isTop h.stop (by decide)).1, hd.2⟩

theorem isTopAt_word {depth : Int} {word word' : String} {l : Lexeme}
    (h : l.isTopAt maps depth word = true) (hne : word ≠ word') :
    l.isTopAt maps depth word' = false := by
  apply Bool.eq_false_iff.mpr
  intro h'
  rw [Lexeme.isTopAt, Bool.and_eq_true, beq_iff_eq, beq_iff_eq] at h h'
  exact hne (String.toList_inj.mp (h.2.symm.trans h'.2))

/-- Between SELECT and FROM there is no other FROM, and behind the list there is one. -/
theorem ItemsAt.inner {depth : Int} {items : List ListItem} (h : ItemsAt maps depth items) :
    NoTop maps "from" depth (joinInner items) ∧
      (lastStop items).isTopAt maps (depthAfter depth (joinInner items)) "from" = true := by
  induction items generalizing depth with
  | nil => exact h.elim
  | cons i items ih =>
    cases items with
    | nil =>
      have hi : ItemAt maps depth "from" i := h
      exact ⟨hi.frm, hi.stop⟩
    | cons j items =>
      obtain ⟨hi, hrest⟩ := h
      obtain ⟨hd, hb⟩ := hi.behind
      obtain ⟨hn, hl⟩ := ih hrest
      have hstop := hi.stop
      rw [hd] at hstop
      have hjoin := joinInner_cons i j items
      have hafter : depthAfter depth (joinInner (i :: j :: items)) =
          depthAfter 0 (joinInner (j :: items)) := by
        rw [hjoin, depthAfter_append, hd, depthAfter, List.foldl_cons, hb]
        rfl
      refine ⟨?_, ?_⟩
      · rw [hjoin, noTop_append, hd, NoTop, hb]
        exact ⟨hi.frm, isTopAt_word hstop (by decide), hn⟩
      · rw [hafter, lastStop_cons]
        exact hl

theorem splitItems_append {ts : List Tok} (hts : ∀ t ∈ ts, (!t.isTop ",") = true)
    (list : List Tok) (item : List Tok) (items : List (List Tok))
    (h : splitItems list = item :: items) : splitItems (ts ++ list) = (ts ++ item) :: items := by
  induction ts with
  | nil => exact h
  | cons t ts ih =>
    have ht : t.isTop "," = false := by simpa using hts t List.mem_cons_self
    rw [List.cons_append, splitItems, ht, ih fun t ht => hts t (List.mem_cons_of_mem _ ht)]
    rfl

theorem layout_cons (depth : Int) (l : Lexeme) (ls : List Lexeme) (tail : Text) :
    layout maps depth (l :: ls) tail =
      l.tok maps depth (renderLexemes ls tail) :: layout maps (l.depthBehind depth) ls tail := rfl

/-- The code splits a list into the tokens of its items. -/
theorem ItemsAt.split {depth : Int} {items : List ListItem} (h : ItemsAt maps depth items)
    (tail : Text) :
    splitItems (layout maps depth (joinInner items) tail) = itemToks maps tail depth items := by
  induction items generalizing depth with
  | nil => exact h.elim
  | cons i items ih =>
    cases items with
    | nil =>
      have hi : ItemAt maps depth "from" i := h
      have hts := (@noTop_iff maps _ _ _ tail).mp hi.comma
      have hs := splitItems_append hts [] [] [] rfl
      rw [List.append_nil] at hs
      exact hs
    | cons j items =>
      obtain ⟨hi, hrest⟩ := h
      obtain ⟨hd, hb⟩ := hi.behind
      have hs := ih hrest
      have hstop := hi.stop
      rw [hd] at hstop
      have hjoin := joinInner_cons i j items
      have hts := (@noTop_iff maps _ _ _ (renderLexemes (i.stop :: joinInner (j :: items)) tail)).mp hi.comma
      rw [hjoin, layout_append, hd, layout_cons, hb]
      have hcomma : splitItems
          (i.stop.tok maps 0 (renderLexemes (joinInner (j :: items)) tail) ::
            layout maps 0 (joinInner (j :: items)) tail) = [] :: itemToks maps tail 0 (j :: items) := by
        rw [splitItems, tok_isTop, hstop, if_pos rfl, hs]
      have happ := splitItems_append hts _ _ _ hcomma
      rw [List.append_nil] at happ
      exact happ

end Items

/-! ### FIRST, SKIP, DISTINCT and ALL -/

def Tok.IsLimit (t : Tok) : Prop := t.lower = "first".toList ∨ t.lower = "skip".toList

def Tok.IsQuantifier (t : Tok) : Prop := t.lower = "distinct".toList ∨ t.lower = "all".toList

instance (t : Tok) : Decidable t.IsLimit := inferInstanceAs (Decidable (_ ∨ _))

instance (t : Tok) : Decidable t.IsQuantifier := inferInstanceAs (Decidable (_ ∨ _))

/-- A number or a parameter. -/
def Tok.isCount (t : Tok) : Bool := t.text.head?.any fun c => c == '?' || ('0' ≤ c && c ≤ '9')

theorem skipLimits_cons (fuel : Nat) (t : Tok) (list : List Tok) :
    skipLimits (fuel + 1) (t :: list) =
      if t.IsLimit then
        match list with
        | [] => []
        | u :: rest =>
          if u.lower = ['('] then skipLimits fuel ((rest.dropWhile (!Tok.isTop ")" ·)).drop 1)
          else skipLimits fuel rest
      else t :: list := rfl

theorem skipLimits_nil (fuel : Nat) : skipLimits fuel [] = [] := by cases fuel <;> rfl

theorem skipLimits_done {list : List Tok} (h : ∀ t ∈ list.head?, ¬ t.IsLimit) (fuel : Nat) :
    skipLimits fuel list = list := by
  cases fuel with
  | zero => rfl
  | succ fuel =>
    cases list with
    | nil => rfl
    | cons t list => rw [skipLimits_cons, if_neg (h t rfl)]

/-- Nothing that a list can start with, but for its items. -/
def Tok.Plain (t : Tok) : Prop := ¬ t.IsLimit ∧ ¬ t.IsQuantifier

section Layout

variable {maps : CaseMaps}

theorem layout_eq_append {depth : Int} {ls : List Lexeme} {tail : Text} {a b : List Tok}
    (h : layout maps depth ls tail = a ++ b) :
    ∃ la lb, ls = la ++ lb ∧ a = layout maps depth la (renderLexemes lb tail) ∧
      b = layout maps (depthAfter depth la) lb tail := by
  induction a generalizing depth ls with
  | nil => exact ⟨[], ls, rfl, rfl, h.symm⟩
  | cons t a ih =>
    cases ls with
    | nil => exact absurd h (by simp [layout])
    | cons l ls =>
      rw [layout_cons, List.cons_append] at h
      obtain ⟨ht, hrest⟩ := List.cons.inj h
      obtain ⟨la, lb, rfl, rfl, rfl⟩ := ih hrest
      refine ⟨l :: la, lb, rfl, ?_, rfl⟩
      rw [layout_cons, ← ht, renderLexemes_append]

theorem layout_eq_cons {depth : Int} {ls : List Lexeme} {tail : Text} {t : Tok} {b : List Tok}
    (h : layout maps depth ls tail = t :: b) :
    ∃ l lb, ls = l :: lb ∧ t = l.tok maps depth (renderLexemes lb tail) ∧
      b = layout maps (l.depthBehind depth) lb tail := by
  cases ls with
  | nil => exact absurd h (by simp [layout])
  | cons l ls =>
    obtain ⟨ht, hb⟩ := List.cons.inj h
    exact ⟨l, ls, rfl, ht.symm, hb.symm⟩

end Layout

end FastFirebird
