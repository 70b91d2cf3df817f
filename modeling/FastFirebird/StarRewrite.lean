import FastFirebird.StarRuns
import Mathlib.Data.List.Forall2

/-! What the rewrite of a select list gives: every explicit item as it was, and for every
star the columns that the filters keep, by the alias and the field they were described with. -/
namespace FastFirebird
attribute [local irreducible] lexStep

/-- What the rewritten list has at some place. -/
inductive Wanted where
  | item (i : ListItem)
  | column (alias' : Option Text) (field : Text)
  deriving Repr, DecidableEq

section Spec

variable (maps : CaseMaps)

/-- The alias to name a column of a star with; a column of a bare star may have none. -/
def aliasOf (i : ListItem) (d : SqlVarDesc) : Option Text :=
  match i.key maps with
  | some _ => some (fromAlias d)
  | none => (d.relationAlias.filter (· ≠ "")).map String.toList

/-- The outputs of a star that the filters do not reject. -/
def keptOutputs (query : StarQuery) (i : ListItem) (run : List SqlVarDesc) : List SqlVarDesc :=
  run.filter fun d => starKept maps query d ((i.key maps).or (d.relationAlias.map String.toList))

/-- The original sequence of outputs without the columns that the filters reject. -/
def wanted (query : StarQuery) (rows : List SelectRow) : List Wanted :=
  rows.flatMap fun (i, run) =>
    if i.star.isSome then
      (keptOutputs maps query i run).map fun d => .column (aliasOf maps i d) (d.field.getD "").toList
    else [.item i]

/-- An item of the rewritten list is what it has to be. -/
def Stands : Wanted → ListItem → Prop
  | .item i, i' => i' = i
  | .column (some a) field, i' => i'.bare = true ∧
    ∃ q f, i'.lexemes.map Lexeme.text = [q, ['.'], f] ∧ unquote maps q = a ∧ unquote maps f = field
  | .column none field, i' => i'.bare = true ∧
    ∃ f, i'.lexemes.map Lexeme.text = [f] ∧ unquote maps f = field

/-- The rewritten text has the same text around its list, and in the list what is wanted. -/
def Preserves (query : StarQuery) (ahead : List Lexeme) (behind : Text) (rows : List SelectRow)
    (rewritten : Text) : Prop :=
  ∃ items, readList maps rewritten = some ⟨ahead, items, behind⟩ ∧
    List.Forall₂ (Stands maps) (wanted maps query rows) items

/-- Outputs as a server describes them for a list that mixes qualified stars of different
aliases with explicit items, or that has one bare star. -/
structure Consistent (rows : List SelectRow) : Prop where
  described : ∀ r ∈ rows, SelectRowOk maps r
  names : ∀ r ∈ rows, ∀ q, r.1.star = some (some q) → IsName q ∧ unquote maps q ≠ []
  -- a column of a relation has a name
  fields : ∀ r ∈ rows, ∀ d ∈ r.2, r.1.star.isSome = true ∨ fromAlias d ≠ [] → d.field.isSome = true
  stars : (∀ r ∈ rows, r.1.star ≠ some none) ∧ rows.filterMap (·.1.key maps) ≠ [] ∧
      (rows.filterMap (·.1.key maps)).Nodup ∨
    rows.filterMap (·.1.star) = [none]

def IsUnion (sql : Text) : Prop := 1 < ((tokenize maps sql).filter (Tok.isTop "select")).length

end Spec

/-! ### The columns of a star, and the text they make -/

/-- What a column of a star is named by in the new text. -/
def columnOf (q : Option Text) (d : SqlVarDesc) : Column :=
  match q with
  | some q => (some q, (d.field.getD "").toList)
  | none => ((d.relationAlias.filter (· ≠ "")).map fun a => quoteIdent a.toList,
      (d.field.getD "").toList)

def columnRows (maps : CaseMaps) (query : StarQuery) (rows : List SelectRow) : List (ListItem × List Column) :=
  rows.map fun r => (r.1, (keptOutputs maps query r.1 r.2).map (columnOf r.1.star.join))

section Rewriting

variable {maps : CaseMaps}

theorem columnText_ok {star : StarItem} {d : SqlVarDesc} {text : Text} :
    columnText star d = .ok text ↔
      d.field.isSome = true ∧ text = (columnOf star.qualifierText d).text := by
  unfold columnText fieldName columnOf
  cases d.field with
  | none => simp [bind, Except.bind]
  | some field =>
    cases star.qualifierText with
    | some q => simp [bind, Except.bind, pure, Except.pure, Column.text, eq_comm]
    | none =>
      cases d.relationAlias.filter (· ≠ "") with
      | none => simp [bind, Except.bind, pure, Except.pure, Column.text, eq_comm]
      | some a => simp [bind, Except.bind, pure, Except.pure, Column.text, eq_comm]

theorem columnTexts_ok {star : StarItem} {cols : List SqlVarDesc} {texts : List Text} :
    cols.mapM (columnText star) = .ok texts ↔ (∀ d ∈ cols, d.field.isSome = true) ∧
      texts = cols.map fun d => (columnOf star.qualifierText d).text := by
  induction cols generalizing texts with
  | nil => exact ⟨fun h => ⟨by simp, (Except.ok.inj h).symm⟩, fun h => congrArg Except.ok h.2.symm⟩
  | cons d cols ih =>
    rw [List.mapM_cons, List.forall_mem_cons, List.map_cons]
    constructor
    · intro h
      cases hd : columnText star d with
      | error err => rw [hd] at h; cases h
      | ok text =>
        rw [hd] at h
        cases hcols : cols.mapM (columnText star) with
        | error err => rw [hcols] at h; cases h
        | ok rest =>
          rw [hcols] at h
          obtain ⟨hfield, htext⟩ := columnText_ok.mp hd
          obtain ⟨hfields, hrest⟩ := ih.mp hcols
          have htexts : texts = text :: rest := (Except.ok.inj h).symm
          exact ⟨⟨hfield, hfields⟩, by rw [htexts, htext, hrest]⟩
    · rintro ⟨⟨hfield, hfields⟩, rfl⟩
      rw [columnText_ok.mpr ⟨hfield, rfl⟩, ih.mpr ⟨hfields, rfl⟩]
      rfl

/-- A star has a replacement if the filters leave something of it, and all that has a name. -/
theorem replacement_ok {query : StarQuery} {star : StarItem} {run : List SqlVarDesc} {r : Replacement} :
    replacement maps query star run = .ok r ↔ keptColumns maps query star run ≠ [] ∧
      (∀ d ∈ keptColumns maps query star run, d.field.isSome = true) ∧
      r = ⟨star.start, star.stop,
        columnsText ((keptColumns maps query star run).map (columnOf star.qualifierText))⟩ := by
  rw [replacement]
  cases hkept : keptColumns maps query star run with
  | nil => simp [throw, throwThe, MonadExceptOf.throw]
  | cons d cols =>
    dsimp only
    constructor
    · intro h
      cases htexts : (d :: cols).mapM (columnText star) with
      | error err => rw [htexts] at h; cases h
      | ok texts =>
        rw [htexts] at h
        obtain ⟨hfields, rfl⟩ := columnTexts_ok.mp htexts
        refine ⟨by simp, hfields, ?_⟩
        rw [columnsText, List.map_map]
        exact (Except.ok.inj h).symm
    · rintro ⟨-, hfields, rfl⟩
      rw [columnTexts_ok.mpr ⟨hfields, rfl⟩, columnsText, List.map_map]
      rfl

theorem starItem_of_star {i : ListItem} {q : Option Text} (h : i.star = some q) (behind : Text) :
    i.starItem maps behind = some ⟨q, i.key maps, i.textFrom behind, behind⟩ := by
  rw [ListItem.starItem, ListItem.key, h]
  rfl

theorem columnRows_items (query : StarQuery) (rows : List SelectRow) :
    (columnRows maps query rows).map Prod.fst = rows.map Prod.fst := by
  rw [columnRows, List.map_map]
  rfl

/-- The replacements of all stars. -/
theorem replacements_ok {query : StarQuery} {behind : List Lexeme} {tail : Text} {rows : List SelectRow}
    {rs : List Replacement} :
    ((starsOf maps behind tail rows).mapM fun (star, outputs) => replacement maps query star outputs) =
        .ok rs ↔
      (∀ r ∈ rows, r.1.star.isSome = true → keptOutputs maps query r.1 r.2 ≠ [] ∧
        ∀ d ∈ keptOutputs maps query r.1 r.2, d.field.isSome = true) ∧
      rs = replacementsOf behind tail (columnRows maps query rows) := by
  induction rows generalizing rs with
  | nil => exact ⟨fun h => ⟨by simp, (Except.ok.inj h).symm⟩, fun h => congrArg Except.ok h.2.symm⟩
  | cons row rows ih =>
    obtain ⟨i, run⟩ := row
    have hrows : columnRows maps query ((i, run) :: rows) =
      (i, (keptOutputs maps query i run).map (columnOf i.star.join)) :: columnRows maps query rows := rfl
    rw [starsOf, hrows, replacementsOf, columnRows_items, List.forall_mem_cons]
    cases hstar : i.star with
    | none =>
      have hitem : i.starItem maps (behindItem i (rows.map Prod.fst) behind tail) = none := by
        rw [ListItem.starItem, hstar]
        rfl
      rw [hitem]
      simpa using ih
    | some q =>
      rw [starItem_of_star hstar]
      dsimp only
      rw [List.mapM_cons]
      have hone := @replacement_ok maps query ⟨q, i.key maps,
        i.textFrom (behindItem i (rows.map Prod.fst) behind tail),
        behindItem i (rows.map Prod.fst) behind tail⟩ run
      have hkept : ∀ start stop, keptColumns maps query ⟨q, i.key maps, start, stop⟩ run =
          keptOutputs maps query i run := fun _ _ => rfl
      rw [hkept] at hone
      constructor
      · intro h
        cases hr : replacement maps query ⟨q, i.key maps,
            i.textFrom (behindItem i (rows.map Prod.fst) behind tail),
            behindItem i (rows.map Prod.fst) behind tail⟩ run with
        | error err => dsimp only at h; rw [hr] at h; cases h
        | ok r =>
          dsimp only at h
          rw [hr] at h
          cases hrs : (starsOf maps behind tail rows).mapM fun (star, outputs) =>
              replacement maps query star outputs with
          | error err => rw [hrs] at h; cases h
          | ok rest =>
            rw [hrs] at h
            obtain ⟨hne, hfields, rfl⟩ := hone.mp hr
            obtain ⟨hrest, rfl⟩ := ih.mp hrs
            exact ⟨⟨fun _ => ⟨hne, hfields⟩, hrest⟩, (Except.ok.inj h).symm⟩
      · rintro ⟨⟨hfirst, hrest⟩, rfl⟩
        obtain ⟨hne, hfields⟩ := hfirst rfl
        dsimp only
        rw [hone.mpr ⟨hne, hfields, rfl⟩, ih.mpr ⟨hrest, rfl⟩]
        rfl

theorem columnRows_fit {query : StarQuery} {rows : List SelectRow}
    (hnames : ∀ r ∈ rows, ∀ q, r.1.star = some (some q) → IsName q)
    (hkept : ∀ r ∈ rows, r.1.star.isSome = true → keptOutputs maps query r.1 r.2 ≠ []) :
    ∀ r ∈ columnRows maps query rows, Fits r.1 r.2 := by
  intro r hr
  obtain ⟨row, hrow, rfl⟩ := List.mem_map.mp hr
  refine ⟨fun hs => ?_, fun q hq => ⟨hnames row hrow q hq, ?_⟩, fun hbare => ?_⟩
  · simpa using hkept row hrow hs
  · intro col hcol
    obtain ⟨d, -, rfl⟩ := List.mem_map.mp hcol
    change row.1.star = some (some q) at hq
    rw [hq]
    rfl
  · intro col hcol q hq
    obtain ⟨d, -, rfl⟩ := List.mem_map.mp hcol
    change row.1.star = some none at hbare
    rw [hbare] at hq
    obtain ⟨a, -, rfl⟩ := Option.map_eq_some_iff.mp hq
    exact ⟨a.toList, rfl⟩

/-! ### Reading the new text -/

theorem ItemsAt.stops {depth : Int} {items : List ListItem} (h : ItemsAt maps depth items) :
    ∀ i ∈ items, i.stop.text.head? ≠ some '"' := by
  induction items generalizing depth with
  | nil => exact h.elim
  | cons i items ih =>
    cases items with
    | nil =>
      have hi : ItemAt maps depth "from" i := h
      exact List.forall_mem_cons.mpr ⟨isTopAt_not_quoted hi.stop (by decide), by simp⟩
    | cons j items =>
      obtain ⟨hi, hrest⟩ := h
      exact List.forall_mem_cons.mpr ⟨isTopAt_not_quoted hi.stop (by decide), ih hrest⟩

/-- The text with the columns in it is a text with a select list of its own. -/
theorem Select.Ok.expand {s : Select} (h : s.Ok maps) {rows : List (ListItem × List Column)}
    (hrows : rows.map Prod.fst = s.items) (hf : ∀ r ∈ rows, Fits r.1 r.2) :
    splice s.text (replacementsOf s.behind s.tail rows) =
        ({ s with items := expandItems rows } : Select).text ∧
      ({ s with items := expandItems rows } : Select).Ok maps := by
  have hstops := h.items.stops
  have hitems := h.items
  have hlisted := h.listed
  rw [← hrows] at hitems hlisted
  have hnew := expandItems_at hf hitems
  have hrespell := respell_expand hf (fun r hr => hstops _ (hrows ▸ List.mem_map_of_mem hr)) s.behind
  rw [hrows] at hrespell
  obtain ⟨r, rows, rfl⟩ : ∃ r rs, rows = r :: rs := by
    cases rows with
    | nil => exact absurd hrows.symm h.items.ne_nil
    | cons r rs => exact ⟨r, rs, rfl⟩
  have hhead := @expandItems_head r rows (hf r List.mem_cons_self)
  rw [hrows] at hhead
  have hnonempty {items : List ListItem} (hne : items ≠ []) :
      (joinItems items ++ s.behind).head? = (joinItems items).head? := by
    obtain ⟨l, ls, hls⟩ : ∃ l ls, joinItems items = l :: ls := by
      rw [joinItems_eq hne]
      exact List.exists_cons_of_ne_nil (by simp)
    rw [hls]
    rfl
  have hread : ReadAs (s.ahead ++ (joinItems (expandItems (r :: rows)) ++ s.behind)) s.tail := by
    refine (Respell.append ?_ hrespell).read h.lexed |>.1
    intro l hl hquoted
    exact absurd hquoted (h.ahead_last l hl)
  refine ⟨?_, ⟨hread, h.before, h.select, h.introduced.respell ?_, expandItems_listed hf hitems hlisted,
    hnew.parted⟩⟩
  · have hstart := (@replacementsOf_start s.behind s.tail (r :: rows)).1
    have hsplice := @splice_expand s.behind s.tail (r :: rows) hf
    rw [hrows] at hstart hsplice
    rw [Select.text, Select.text, Select.lexemes, Select.lexemes, renderLexemes_append,
      renderLexemes_split, splice_append, hsplice]
    · change _ = renderLexemes (s.ahead ++ (joinItems (expandItems (r :: rows)) ++ s.behind)) s.tail
      rw [renderLexemes_append s.ahead]
      exact (renderLexemes_split _ _).symm
    · intro x hx
      exact hstart x (List.mem_of_mem_head? hx)
  · intro l hl
    rw [hnonempty hnew.ne_nil] at hl
    rw [hnonempty h.items.ne_nil]
    rcases hhead with hsame | ⟨-, hquoted⟩
    · exact Or.inl ⟨l, hsame ▸ hl, rfl⟩
    · right
      rw [hquoted l hl]
      decide

/-! ### The rewrite of a whole text -/

theorem itemToks_classify {behind : List Lexeme} {tail : Text} {items : List ListItem} (depth : Int)
    (hne : items ≠ []) (hseen : ∀ i ∈ items, i.Seen) :
    (itemToks maps (renderLexemes (lastStop items :: behind) tail) depth items).map (classify maps) =
      parsedItems maps behind tail items := by
  induction items generalizing depth with
  | nil => exact absurd rfl hne
  | cons i items ih =>
    obtain ⟨hi, hitems⟩ := List.forall_mem_cons.mp hseen
    cases items with
    | nil =>
      rw [itemToks, List.map_cons, List.map_nil, classify_layout _ hi, parsedItems, parsedItems]
      rfl
    | cons j items =>
      have hrest := ih 0 (by simp) hitems
      have hjoin := joinItems_eq (List.cons_ne_nil j items)
      have hbehind : renderLexemes (i.stop :: joinInner (j :: items))
          (renderLexemes (lastStop (j :: items) :: behind) tail) =
          behindItem i (j :: items) behind tail := by
        rw [behindItem, hjoin, List.append_assoc, List.singleton_append, ← renderLexemes_append]
        rfl
      change classify maps (layout maps depth i.lexemes (renderLexemes (i.stop :: joinInner (j :: items))
        (renderLexemes (lastStop (j :: items) :: behind) tail))) ::
        (itemToks maps (renderLexemes (lastStop (j :: items) :: behind) tail) 0 (j :: items)).map
          (classify maps) = _
      rw [classify_layout _ hi, hrest, hbehind]
      rfl

theorem parsedItems_stars (behind : List Lexeme) (tail : Text) (items : List ListItem) :
    ((parsedItems maps behind tail items).filterMap id).map StarItem.qualifierText =
      items.filterMap ListItem.star := by
  induction items with
  | nil => rfl
  | cons i items ih =>
    rw [parsedItems, List.filterMap_cons, List.filterMap_cons]
    cases hstar : i.star with
    | none =>
      rw [ListItem.starItem, hstar]
      exact ih
    | some q =>
      rw [starItem_of_star hstar]
      exact congrArg (q :: ·) ih

theorem parsedItems_bare {behind : List Lexeme} {tail : Text} {items : List ListItem} {star : StarItem}
    (h : star ∈ (parsedItems maps behind tail items).filterMap id) :
    star.isBare = star.qualifierText.isNone := by
  obtain ⟨o, ho, rfl⟩ := List.mem_filterMap.mp h
  induction items with
  | nil => exact absurd ho (by simp [parsedItems])
  | cons i items ih =>
    rw [parsedItems] at ho
    rcases List.mem_cons.mp ho with he | hrest
    · obtain ⟨q, hq, rfl⟩ := Option.map_eq_some_iff.mp he.symm
      rw [StarItem.isBare, Option.isNone_map]
    · exact ih (List.mem_filterMap.mpr ⟨_, hrest, rfl⟩) hrest

/-- What the code does with a text whose list has stars. -/
theorem expandStarSql_eq {s : Select} (h : s.Ok maps) (hseen : ∀ i ∈ s.items, i.Seen)
    (outputs : List SqlVarDesc) (query : StarQuery)
    (hstars : s.items.filterMap ListItem.star ≠ [])
    (hbare : (s.items.filterMap ListItem.star).length ≤ 1 ∨ ∀ i ∈ s.items, i.star ≠ some none) :
    (IsUnion maps s.text → ∃ err, expandStarSql maps s.text outputs query = .error err) ∧
    (¬ IsUnion maps s.text → expandStarSql maps s.text outputs query = (do
      let mapped ← mapStars (parsedItems maps s.behind s.tail s.items) outputs
      some <$> replaceStars maps s.text query mapped)) := by
  obtain ⟨list, hlist, hskip⟩ := h.selectTokens
  have hparsed : (splitItems (skipPrefixes list)).map (classify maps) =
      parsedItems maps s.behind s.tail s.items := by
    rw [hskip, h.items.split s.rest]
    exact itemToks_classify 0 h.items.ne_nil hseen
  have htexts := @parsedItems_stars maps s.behind s.tail s.items
  have hsome : ((parsedItems maps s.behind s.tail s.items).filterMap id).isEmpty = false := by
    rw [List.isEmpty_eq_false_iff]
    intro he
    rw [he] at htexts
    exact hstars htexts.symm
  have hmixed : ¬ (1 < ((parsedItems maps s.behind s.tail s.items).filterMap id).length ∧
      ((parsedItems maps s.behind s.tail s.items).filterMap id).any StarItem.isBare = true) := by
    rintro ⟨hmany, hany⟩
    rcases hbare with hone | hnone
    · rw [← htexts, List.length_map] at hone
      omega
    · obtain ⟨star, hstar, hb⟩ := List.any_eq_true.mp hany
      rw [parsedItems_bare hstar] at hb
      have hmem : star.qualifierText ∈ s.items.filterMap ListItem.star := by
        rw [← htexts]
        exact List.mem_map_of_mem hstar
      obtain ⟨i, hi, heq⟩ := List.mem_filterMap.mp hmem
      rw [Option.isNone_iff_eq_none.mp hb] at heq
      exact hnone i hi heq
  rw [expandStarSql, hlist]
  dsimp only
  rw [hparsed, hsome, if_neg (by simp), if_neg hmixed]
  refine ⟨fun hunion => ⟨_, if_pos hunion⟩, fun hunion => if_neg hunion⟩

theorem filterMap_singleton {rows : List SelectRow} (h : rows.filterMap (·.1.star) = [none]) :
    (∀ r ∈ rows, r.1.key maps = none) ∧
      ((∀ r ∈ rows, SelectRowOk maps r) → ∀ r ∈ rows, r.1.star.isSome = true →
        (outputsOf rows).length + 1 = r.2.length + rows.length) := by
  induction rows with
  | nil => cases h
  | cons r rows ih =>
    rw [List.filterMap_cons] at h
    cases hstar : r.1.star with
    | none =>
      rw [hstar] at h
      obtain ⟨hkeys, hlens⟩ := ih h
      refine ⟨List.forall_mem_cons.mpr ⟨key_none hstar, hkeys⟩, fun hrows => ?_⟩
      obtain ⟨hr, hrest⟩ := List.forall_mem_cons.mp hrows
      have hone := hr.plain hstar
      refine List.forall_mem_cons.mpr ⟨fun hs => absurd hs (by simp [hstar]), fun r' hr' hs => ?_⟩
      have hlen := hlens hrest r' hr' hs
      rw [outputsOf_cons, List.length_append, List.length_cons]
      omega
    | some q =>
      rw [hstar] at h
      obtain ⟨rfl, hnil⟩ := List.cons.inj h
      have hnone : ∀ r' ∈ rows, r'.1.star = none := by
        intro r' hr'
        cases hs : r'.1.star with
        | none => rfl
        | some q =>
          have hmem : q ∈ rows.filterMap (·.1.star) := List.mem_filterMap.mpr ⟨r', hr', hs⟩
          rw [hnil] at hmem
          exact absurd hmem (by simp)
      have hkey : r.1.key maps = none := by
        rw [ListItem.key, hstar]
        rfl
      refine ⟨List.forall_mem_cons.mpr ⟨hkey, fun r' hr' => key_none (hnone r' hr')⟩, fun hrows => ?_⟩
      obtain ⟨hr, hrest⟩ := List.forall_mem_cons.mp hrows
      have hones := (lengths_one hrest).mpr fun r' hr' => (hrest r' hr').plain (hnone r' hr')
      have hle := outputsOf_length hrest
      refine List.forall_mem_cons.mpr ⟨fun _ => ?_, fun r' hr' hs => ?_⟩
      · rw [outputsOf_cons, List.length_append, List.length_cons]
        omega
      · rw [hnone r' hr'] at hs
        cases hs

theorem assigned_keyless {rows : List SelectRow} (h : ∀ r ∈ rows, r.1.key maps = none) :
    assigned maps 0 rows = rows ∧ Unambiguous maps rows := by
  induction rows with
  | nil => exact ⟨rfl, trivial⟩
  | cons r rows ih =>
    obtain ⟨i, run⟩ := r
    obtain ⟨hk, hks⟩ := List.forall_mem_cons.mp h
    obtain ⟨hassigned, hunamb⟩ := ih hks
    dsimp only at hk
    rw [assigned, hk, Unambiguous, hk]
    exact ⟨congrArg _ hassigned, ⟨fun key hkey => (by cases hkey), hunamb⟩⟩

/-- The mapping of a consistent list. -/
theorem mapStars_rows {rows : List SelectRow} (h : Consistent maps rows)
    (behind : List Lexeme) (tail : Text) :
    (Stranded maps 0 rows → ∃ err,
      mapStars (parsedItems maps behind tail (rows.map Prod.fst)) (outputsOf rows) = .error err) ∧
    (¬ Stranded maps 0 rows →
      mapStars (parsedItems maps behind tail (rows.map Prod.fst)) (outputsOf rows) =
        .ok (starsOf maps behind tail (assigned maps 0 rows))) := by
  rw [mapStars, parsedItems_length, List.length_map]
  rcases h.stars with ⟨hbare, -, -⟩ | hone
  · have hmap := @mapOutputs_rows maps behind tail rows.length rows h.described hbare [] 0 (Nat.zero_le _)
    rw [List.nil_append] at hmap
    change (_ → ∃ err, mapOutputs _ _ _ (0 : Int) = .error err) ∧
      (_ → mapOutputs _ _ _ (0 : Int) = _) at hmap
    refine ⟨fun hs => ?_, fun hs => ?_⟩
    · obtain ⟨err, herr⟩ := hmap.1 hs
      refine ⟨err, ?_⟩
      rw [herr]
      rfl
    · rw [hmap.2 hs]
      simp [bind, Except.bind, pure, Except.pure]
  · obtain ⟨hkeys, hlens⟩ := @filterMap_singleton maps rows hone
    obtain ⟨hassigned, hunamb⟩ := assigned_keyless hkeys
    have hstranded := (hunamb.exact h.described).2
    have hmap := @mapOutputs_bare maps behind tail rows.length (outputsOf rows) rows h.described hkeys
      (hlens h.described) [] rfl
    refine ⟨fun hs => absurd hs hstranded, fun _ => ?_⟩
    change mapOutputs _ _ _ (0 : Int) = _ at hmap
    rw [hmap, hassigned]
    simp [bind, Except.bind, pure, Except.pure]

/-- The text that the replacements of the assigned outputs make. -/
theorem replaceStars_ok {query : StarQuery} {behind : List Lexeme} {tail sql rewritten : Text}
    {rows : List SelectRow} :
    replaceStars maps sql query (starsOf maps behind tail rows) = .ok rewritten ↔
      (∀ r ∈ rows, r.1.star.isSome = true → keptOutputs maps query r.1 r.2 ≠ [] ∧
        ∀ d ∈ keptOutputs maps query r.1 r.2, d.field.isSome = true) ∧
      rewritten = splice sql (replacementsOf behind tail (columnRows maps query rows)) := by
  have hsorted := (@replacementsOf_start behind tail (columnRows maps query rows)).2
  have hsort : (replacementsOf behind tail (columnRows maps query rows)).mergeSort
      (fun a b => b.start.length ≤ a.start.length) =
      replacementsOf behind tail (columnRows maps query rows) := by
    apply List.mergeSort_of_pairwise
    exact hsorted.imp fun hle => by simpa using hle
  rw [replaceStars]
  constructor
  · intro h
    cases hrs : (starsOf maps behind tail rows).mapM fun (star, outputs) =>
        replacement maps query star outputs with
    | error err => rw [hrs] at h; cases h
    | ok rs =>
      rw [hrs] at h
      obtain ⟨hkept, rfl⟩ := replacements_ok.mp hrs
      refine ⟨hkept, ?_⟩
      have htext := (Except.ok.inj h).symm
      rw [hsort] at htext
      exact htext
  · rintro ⟨hkept, rfl⟩
    rw [replacements_ok.mpr ⟨hkept, rfl⟩]
    exact congrArg (fun rs => Except.ok (splice sql rs)) hsort

/-! ### What the new items stand for -/

theorem undouble_double (field : Text) : undouble (double field) = field := by
  induction field with
  | nil => rfl
  | cons c field ih =>
    by_cases hc : c = '"'
    · have hd : double (c :: field) = '"' :: '"' :: double field := by simp [double, hc]
      rw [hd, undouble, ih, hc]
    · have hd : double (c :: field) = c :: double field := by simp [double, hc]
      rw [hd, undouble, ih]
      intro rest hquote
      exact absurd hquote hc

theorem unquote_quoteIdent (name : Text) : unquote maps (quoteIdent name) = name := by
  rw [unquote, quoteIdent, List.cons_append, List.head?_cons, if_pos rfl, List.drop_succ_cons,
    List.drop_zero, List.dropLast_concat, undouble_double]

theorem column_stands {i : ListItem} {d : SqlVarDesc} (hs : i.star.isSome = true)
    (hd : ∀ key ∈ i.key maps, carries key d = true) {gap : Text} {stop : Lexeme}
    (hbare : (⟨columnLexemes gap (columnOf i.star.join d), stop⟩ : ListItem).bare = true) :
    Stands maps (.column (aliasOf maps i d) (d.field.getD "").toList)
      ⟨columnLexemes gap (columnOf i.star.join d), stop⟩ := by
  obtain ⟨q, hstar⟩ := Option.isSome_iff_exists.mp hs
  cases q with
  | none =>
    have hkey : i.key maps = none := by
      rw [ListItem.key, hstar]
      rfl
    rw [hstar] at hbare ⊢
    rw [aliasOf, hkey]
    change ListItem.bare ⟨columnLexemes gap
      ((d.relationAlias.filter (· ≠ "")).map (fun a => quoteIdent a.toList), _), stop⟩ = true at hbare
    change Stands maps (.column ((d.relationAlias.filter (· ≠ "")).map String.toList) _)
      ⟨columnLexemes gap ((d.relationAlias.filter (· ≠ "")).map (fun a => quoteIdent a.toList), _), stop⟩
    cases halias : d.relationAlias.filter (· ≠ "") with
    | none =>
      rw [halias] at hbare
      exact ⟨hbare, _, rfl, unquote_quoteIdent _⟩
    | some a =>
      rw [halias] at hbare
      exact ⟨hbare, _, _, rfl, unquote_quoteIdent _, unquote_quoteIdent _⟩
  | some q =>
    have hkey : i.key maps = some (unquote maps q) := key_of_star hstar
    have halias : fromAlias d = unquote maps q := by simpa [carries] using hd _ hkey
    rw [hstar] at hbare ⊢
    rw [aliasOf, hkey]
    exact ⟨hbare, q, _, rfl, halias.symm, unquote_quoteIdent _⟩

theorem columnItems_stand {i : ListItem} (hs : i.star.isSome = true) {cols : List SqlVarDesc}
    (hd : ∀ d ∈ cols, ∀ key ∈ i.key maps, carries key d = true) (gap : Text)
    (hbare : ∀ j ∈ columnItems i.stop gap (cols.map (columnOf i.star.join)), j.bare = true) :
    List.Forall₂ (Stands maps)
      (cols.map fun d => .column (aliasOf maps i d) (d.field.getD "").toList)
      (columnItems i.stop gap (cols.map (columnOf i.star.join))) := by
  induction cols generalizing gap with
  | nil => exact .nil
  | cons d cols ih =>
    obtain ⟨hfirst, hrest⟩ := List.forall_mem_cons.mp hd
    cases cols with
    | nil => exact .cons (column_stands hs hfirst (hbare _ List.mem_cons_self)) .nil
    | cons d' cols =>
      obtain ⟨hone, hmore⟩ := List.forall_mem_cons.mp hbare
      exact .cons (column_stands hs hfirst hone) (ih hrest [' '] hmore)

/-- The new items stand for the outputs that the stars were mapped to. -/
theorem expandItems_stand {query : StarQuery} {rows : List SelectRow}
    (h : ∀ r ∈ rows, ∀ key ∈ r.1.key maps, ∀ d ∈ r.2, carries key d = true) :
    List.Forall₂ (Stands maps) (wanted maps query rows) (expandItems (columnRows maps query rows)) := by
  induction rows with
  | nil => exact .nil
  | cons r rows ih =>
    obtain ⟨i, run⟩ := r
    obtain ⟨hr, hrest⟩ := List.forall_mem_cons.mp h
    have hnext := ih hrest
    refine List.rel_append ?_ hnext
    dsimp only
    rw [ListItem.expand]
    split
    · rename_i hs
      obtain ⟨hstop, hgap⟩ := star_gaps hs
      apply columnItems_stand hs
      · intro d hd key hkey
        exact hr key hkey d (List.mem_of_mem_filter hd)
      · exact columnItems_bare hstop hgap _
    · exact .cons rfl .nil

/-- The items that name an alias, counted: no list stands for two different counts. -/
def wantsAlias (maps : CaseMaps) (key : Text) : Wanted → Bool
  | .item i =>
    match i.lexemes.map Lexeme.text with
    | [q, dot, _] => dot == ['.'] && unquote maps q == key
    | _ => false
  | .column (some a) _ => a == key
  | .column none _ => false

theorem stands_alias {w : Wanted} {i : ListItem} (h : Stands maps w i) (key : Text) :
    wantsAlias maps key w = wantsAlias maps key (.item i) := by
  match w with
  | .item i' =>
    obtain rfl : i = i' := h
    rfl
  | .column (some a) field =>
    obtain ⟨-, q, f, htexts, rfl, -⟩ := h
    rw [wantsAlias, wantsAlias, htexts]
    rfl
  | .column none field =>
    obtain ⟨-, f, htexts, -⟩ := h
    rw [wantsAlias, wantsAlias, htexts]

theorem stands_count {ws : List Wanted} {items : List ListItem} (h : List.Forall₂ (Stands maps) ws items)
    (key : Text) :
    ws.countP (wantsAlias maps key) = (items.map Wanted.item).countP (wantsAlias maps key) := by
  induction h with
  | nil => rfl
  | cons hw _ ih => rw [List.map_cons, List.countP_cons, List.countP_cons, ih, stands_alias hw]

theorem keptOutputs_all (i : ListItem) (run : List SqlVarDesc) : keptOutputs maps {} i run = run := by
  rw [keptOutputs, List.filter_eq_self]
  intro d _
  simp [starKept]

theorem wanted_cons (query : StarQuery) (i : ListItem) (run : List SqlVarDesc) (rows : List SelectRow) :
    wanted maps query ((i, run) :: rows) =
      (if i.star.isSome then
        (keptOutputs maps query i run).map fun d => .column (aliasOf maps i d) (d.field.getD "").toList
      else [.item i]) ++ wanted maps query rows := rfl

/-- How often a row of a qualified star names an alias. -/
theorem star_count {i : ListItem} {key : Text} (hkey : i.key maps = some key) {run : List SqlVarDesc}
    (hd : ∀ d ∈ run, carries key d = true) (rows : List SelectRow) (alias' : Text) :
    (wanted maps {} ((i, run) :: rows)).countP (wantsAlias maps alias') =
      (if key = alias' then run.length else 0) +
        (wanted maps {} rows).countP (wantsAlias maps alias') := by
  have hs : i.star.isSome = true := by
    cases hstar : i.star with
    | none => rw [key_none hstar] at hkey; cases hkey
    | some q => rfl
  rw [wanted_cons, if_pos hs, keptOutputs_all, List.countP_append, List.countP_map]
  congr 1
  have halias : ∀ d ∈ run, (wantsAlias maps alias' ∘ fun d =>
      Wanted.column (aliasOf maps i d) (d.field.getD "").toList) d = decide (key = alias') := by
    intro d hmem
    have hfrom : fromAlias d = key := by simpa [carries] using hd d hmem
    have hcol : aliasOf maps i d = some key := by rw [aliasOf, hkey, hfrom]
    rw [Function.comp, hcol, wantsAlias, beq_eq_decide]
  rw [List.countP_congr fun d hmem => by rw [halias d hmem]]
  by_cases h : key = alias' <;> simp [h]

theorem plain_count {i : ListItem} (hs : i.star = none) (run : List SqlVarDesc) (rows : List SelectRow)
    (alias' : Text) :
    (wanted maps {} ((i, run) :: rows)).countP (wantsAlias maps alias') =
      [Wanted.item i].countP (wantsAlias maps alias') +
        (wanted maps {} rows).countP (wantsAlias maps alias') := by
  rw [wanted_cons, hs, List.countP_append]
  rfl

/-! ### When the rewrite preserves the query -/

theorem plain_or_qualified {i : ListItem} (hbare : i.star ≠ some none) :
    i.star = none ∧ i.key maps = none ∨ ∃ key, i.key maps = some key := by
  cases hstar : i.star with
  | none => exact Or.inl ⟨rfl, key_none hstar⟩
  | some q =>
    cases q with
    | none => exact absurd hstar hbare
    | some q => exact Or.inr ⟨_, key_of_star hstar⟩

/-- An alias that no star of the rows has is named as often as before, at least. -/
theorem count_le {rows : List SelectRow} (hrows : ∀ r ∈ rows, SelectRowOk maps r)
    (hbare : ∀ r ∈ rows, r.1.star ≠ some none) {alias' : Text}
    (hkey : alias' ∉ rows.filterMap (·.1.key maps)) (e : Nat) :
    (wanted maps {} rows).countP (wantsAlias maps alias') ≤
      (wanted maps {} (assigned maps e rows)).countP (wantsAlias maps alias') := by
  induction rows generalizing e with
  | nil => exact Nat.le_refl _
  | cons r rows ih =>
    obtain ⟨i, run⟩ := r
    obtain ⟨hr, hrest⟩ := List.forall_mem_cons.mp hrows
    obtain ⟨hb, hbares⟩ := List.forall_mem_cons.mp hbare
    rcases @plain_or_qualified maps i hb with ⟨hs, hk⟩ | ⟨key, hk⟩
    · rw [List.filterMap_cons, hk] at hkey
      have hle := ih hrest hbares hkey e
      rw [assigned, hk]
      dsimp only
      rw [plain_count hs, plain_count hs]
      omega
    · rw [List.filterMap_cons, hk] at hkey
      obtain ⟨hne, hnot⟩ := not_or.mp (List.mem_cons.not.mp hkey)
      have hle := ih hrest hbares hnot (overshoot key e run rows)
      rw [star_count hk (hr.carried key hk), if_neg (Ne.symm hne), assigned, hk]
      dsimp only
      rw [wanted_cons, List.countP_append]
      omega

/-- The first star that takes too much is named too often. -/
theorem count_lt {rows : List SelectRow} (hrows : ∀ r ∈ rows, SelectRowOk maps r)
    (hbare : ∀ r ∈ rows, r.1.star ≠ some none) (hkeys : (rows.filterMap (·.1.key maps)).Nodup)
    (hunamb : ¬ Unambiguous maps rows) : ∃ alias',
    (wanted maps {} rows).countP (wantsAlias maps alias') <
      (wanted maps {} (assigned maps 0 rows)).countP (wantsAlias maps alias') := by
  induction rows with
  | nil => exact absurd trivial hunamb
  | cons r rows ih =>
    obtain ⟨i, run⟩ := r
    obtain ⟨hr, hrest⟩ := List.forall_mem_cons.mp hrows
    obtain ⟨hb, hbares⟩ := List.forall_mem_cons.mp hbare
    rcases @plain_or_qualified maps i hb with ⟨hs, hk⟩ | ⟨key, hk⟩
    · rw [List.filterMap_cons, hk] at hkeys
      have hlater : ¬ Unambiguous maps rows := by
        intro h
        exact hunamb ⟨fun key hkey => absurd (hk.symm.trans hkey) (by simp), h⟩
      obtain ⟨alias', hlt⟩ := ih hrest hbares hkeys hlater
      refine ⟨alias', ?_⟩
      rw [assigned, hk]
      dsimp only
      rw [plain_count hs, plain_count hs]
      omega
    · rw [List.filterMap_cons, hk] at hkeys
      obtain ⟨hnew, hkeys'⟩ := List.nodup_cons.mp hkeys
      have hcarried := hr.carried key hk
      have hzero := @overshoot_eq_zero maps key run rows hrest
      have hspare := outputsOf_length hrest
      have hover := overshoot_le key 0 run rows
      have hpos := List.length_pos_iff.mpr hr.ne_nil
      dsimp only at hcarried hpos
      have hcols := assigned_carried hcarried (by omega) hspare (run_reached hr.ne_nil hcarried _)
      obtain ⟨hlen, -, hmore⟩ := hcols
      rw [assigned, hk]
      dsimp only
      by_cases h0 : overshoot key 0 run rows = 0
      · have hlater : ¬ Unambiguous maps rows := by
          intro h
          refine hunamb ⟨fun key' hkey' => ?_, h⟩
          rw [hk] at hkey'
          obtain rfl := Option.some.inj hkey'
          exact hzero.mp h0
        obtain ⟨alias', hlt⟩ := ih hrest hbares hkeys' hlater
        refine ⟨alias', ?_⟩
        rw [h0, Nat.add_zero, List.take_left, List.drop_zero, star_count hk hcarried,
          star_count hk hcarried]
        omega
      · have hle := count_le hrest hbares hnew (overshoot key 0 run rows)
        refine ⟨key, ?_⟩
        rw [star_count hk hcarried, star_count hk fun d hd => (hmore d hd).1, if_pos rfl, if_pos rfl]
        omega

/-- What is assigned to the stars are outputs of the list that carry their aliases. -/
theorem assigned_ok {rows : List SelectRow} (hrows : ∀ r ∈ rows, SelectRowOk maps r)
    (hbare : ∀ r ∈ rows, r.1.star ≠ some none) {e : Nat}
    (he : e ≤ (outputsOf rows).length - rows.length) (hwell : ¬ Stranded maps e rows) :
    ∀ r ∈ assigned maps e rows, ∀ key ∈ r.1.key maps, key ∈ rows.filterMap (·.1.key maps) ∧ r.2 ≠ [] ∧
      ∀ d ∈ r.2, carries key d = true ∧ d ∈ outputsOf rows := by
  induction rows generalizing e with
  | nil => exact fun r hr => absurd hr (by simp [assigned])
  | cons r rows ih =>
    obtain ⟨i, run⟩ := r
    obtain ⟨hr, hrest⟩ := List.forall_mem_cons.mp hrows
    obtain ⟨hb, hbares⟩ := List.forall_mem_cons.mp hbare
    have hspare := outputsOf_length hrest
    have hpos := List.length_pos_iff.mpr hr.ne_nil
    rw [outputsOf_cons, List.length_append, List.length_cons] at he
    dsimp only at he hpos
    have later {e' : Nat} (he' : e' ≤ (outputsOf rows).length - rows.length)
        (h : ¬ Stranded maps e' rows) : ∀ r ∈ assigned maps e' rows, ∀ key ∈ r.1.key maps,
        key ∈ ((i, run) :: rows).filterMap (·.1.key maps) ∧ r.2 ≠ [] ∧
          ∀ d ∈ r.2, carries key d = true ∧ d ∈ outputsOf ((i, run) :: rows) := by
      intro r hmem key hkey
      obtain ⟨hin, hne, hd⟩ := ih hrest hbares he' h r hmem key hkey
      refine ⟨?_, hne, fun d hmem => ⟨(hd d hmem).1, List.mem_append_right _ (hd d hmem).2⟩⟩
      rw [List.filterMap_cons]
      split
      · exact hin
      · exact List.mem_cons_of_mem _ hin
    rw [assigned]
    rw [Stranded] at hwell
    rcases @plain_or_qualified maps i hb with ⟨hs, hk⟩ | ⟨key, hk⟩
    · have hone := hr.plain hs
      rw [hk] at hwell ⊢
      dsimp only at hone
      refine List.forall_mem_cons.mpr ⟨fun key hkey => ?_, later (by omega) hwell⟩
      rw [hk] at hkey
      cases hkey
    · rw [hk] at hwell ⊢
      obtain ⟨hany, hwell'⟩ := not_or.mp hwell
      have hcols := @assigned_carried key e run rows (hr.carried key hk) (by omega) hspare
        (by simpa using hany)
      refine List.forall_mem_cons.mpr ⟨fun key' hkey' => ?_, later (overshoot_le _ _ _ _) hwell'⟩
      rw [hk] at hkey'
      obtain rfl := Option.some.inj hkey'
      exact ⟨by rw [List.filterMap_cons, hk]; exact List.mem_cons_self, hcols.2⟩

theorem Consistent.has_star {rows : List SelectRow} (h : Consistent maps rows) :
    rows.filterMap (·.1.star) ≠ [] := by
  rcases h.stars with ⟨-, hkeys, -⟩ | hone
  · intro he
    apply hkeys
    rw [List.filterMap_eq_nil_iff] at he ⊢
    exact fun r hr => key_none (he r hr)
  · rw [hone]
    simp

/-- The text that is rewritten, and what the rewrite comes to. -/
theorem expandStarSql_rows {sql : Text} {ahead : List Lexeme} {behind : Text} {rows : List SelectRow}
    (hread : readList maps sql = some ⟨ahead, rows.map Prod.fst, behind⟩)
    (hwritten : SelectText.AsWritten maps ⟨ahead, rows.map Prod.fst, behind⟩)
    (h : Consistent maps rows) : ∃ s : Select, s.Ok maps ∧ s.text = sql ∧
      s.items = rows.map Prod.fst ∧ s.ahead = ahead ∧ renderLexemes s.behind s.tail = behind ∧ ∀ query,
        (IsUnion maps sql ∨ Stranded maps 0 rows →
          ∃ err, expandStarSql maps sql (outputsOf rows) query = .error err) ∧
        (¬ IsUnion maps sql → ¬ Stranded maps 0 rows →
          expandStarSql maps sql (outputsOf rows) query = some <$>
            replaceStars maps sql query (starsOf maps s.behind s.tail (assigned maps 0 rows))) := by
  have hstar := h.has_star
  obtain ⟨s, hok, rfl, hitems, hahead, hbehind⟩ := Select.exists_ok hread hwritten.toPlain
  have hstars : s.items.filterMap ListItem.star = rows.filterMap (·.1.star) := by
    rw [hitems, List.filterMap_map]
    rfl
  have hbare : (s.items.filterMap ListItem.star).length ≤ 1 ∨ ∀ i ∈ s.items, i.star ≠ some none := by
    rcases h.stars with ⟨hnone, -, -⟩ | hone
    · right
      intro i hi
      rw [hitems] at hi
      obtain ⟨r, hr, rfl⟩ := List.mem_map.mp hi
      exact hnone r hr
    · left
      rw [hstars, hone]
      exact Nat.le_refl 1
  obtain ⟨hthrow, hmapped⟩ := mapStars_rows h s.behind s.tail
  refine ⟨s, hok, rfl, hitems, hahead, hbehind, fun query => ?_⟩
  have hseen : ∀ i ∈ s.items, i.Seen := by
    rw [hitems]
    exact hwritten.seen
  obtain ⟨hunion, heq⟩ := expandStarSql_eq hok hseen (outputsOf rows) query (by rw [hstars]; exact hstar) hbare
  rw [hitems] at heq
  refine ⟨fun hbad => ?_, fun hone hwell => ?_⟩
  · by_cases hu : IsUnion maps s.text
    · exact hunion hu
    · obtain ⟨err, herr⟩ := hthrow (hbad.resolve_left hu)
      refine ⟨err, ?_⟩
      rw [heq hu, herr]
      rfl
  · rw [heq hone, hmapped hwell]
    rfl

/-- What is read off a rewritten text. -/
theorem rewritten_reads {s : Select} (hok : s.Ok maps) {rows rows' : List SelectRow}
    (hitems : s.items = rows.map Prod.fst) (hsame : rows'.map Prod.fst = rows.map Prod.fst)
    (h : Consistent maps rows) {query : StarQuery} {rewritten : Text}
    (hr : replaceStars maps s.text query (starsOf maps s.behind s.tail rows') = .ok rewritten) :
    readList maps rewritten =
      some ⟨s.ahead, expandItems (columnRows maps query rows'), renderLexemes s.behind s.tail⟩ := by
  obtain ⟨hkept, rfl⟩ := replaceStars_ok.mp hr
  have hnames : ∀ r ∈ rows', ∀ q, r.1.star = some (some q) → IsName q := by
    intro r hr q hq
    have hmem : r.1 ∈ rows.map Prod.fst := hsame ▸ List.mem_map_of_mem hr
    obtain ⟨r', hr', heq⟩ := List.mem_map.mp hmem
    exact (h.names r' hr' q (by rw [heq]; exact hq)).1
  have hfit := columnRows_fit hnames fun r hr hs => (hkept r hr hs).1
  have hfst : (columnRows maps query rows').map Prod.fst = s.items := by
    rw [columnRows_items, hsame, hitems]
  obtain ⟨htext, hnew⟩ := hok.expand hfst hfit
  rw [htext]
  exact hnew.read

/-- A star that reaches into the items behind it makes the unfiltered rewrite another query. -/
theorem ambiguous_not_preserved {sql : Text} {ahead : List Lexeme} {behind : Text} {rows : List SelectRow}
    (hread : readList maps sql = some ⟨ahead, rows.map Prod.fst, behind⟩)
    (hwritten : SelectText.AsWritten maps ⟨ahead, rows.map Prod.fst, behind⟩)
    (hrows : Consistent maps rows) (hunion : ¬ IsUnion maps sql) (hwell : ¬ Stranded maps 0 rows)
    (hambiguous : ¬ Unambiguous maps rows) : ∃ rewritten,
      expandStarSql maps sql (outputsOf rows) {} = .ok (some rewritten) ∧
        ¬ Preserves maps {} ahead behind rows rewritten := by
  obtain ⟨s, hok, rfl, hitems, rfl, rfl, hcode⟩ := expandStarSql_rows hread hwritten hrows
  have hsame := @assigned_items maps 0 rows
  rcases hrows.stars with ⟨hbare, -, hkeys⟩ | hone
  · have hassigned := assigned_ok hrows.described hbare (Nat.zero_le _) hwell
    have hkept : ∀ r ∈ assigned maps 0 rows, r.1.star.isSome = true →
        keptOutputs maps {} r.1 r.2 ≠ [] ∧
          ∀ d ∈ keptOutputs maps {} r.1 r.2, d.field.isSome = true := by
      intro r hr hs
      obtain ⟨q, hq⟩ := Option.isSome_iff_exists.mp hs
      have hmem : r.1 ∈ rows.map Prod.fst := hsame ▸ List.mem_map_of_mem hr
      obtain ⟨r', hr', heq⟩ := List.mem_map.mp hmem
      cases q with
      | none => exact absurd (by rw [heq]; exact hq) (hbare r' hr')
      | some q =>
        obtain ⟨-, hcols, hd⟩ := hassigned r hr _ (key_of_star hq)
        rw [keptOutputs_all]
        refine ⟨hcols, fun d hmem => ?_⟩
        obtain ⟨hcarries, hout⟩ := hd d hmem
        have hkey := (hrows.names r' hr' q (by rw [heq]; exact hq)).2
        have halias : fromAlias d = unquote maps q := by simpa [carries] using hcarries
        obtain ⟨run, hrun, hdrun⟩ := List.mem_flatten.mp hout
        obtain ⟨r'', hr'', rfl⟩ := List.mem_map.mp hrun
        exact hrows.fields r'' hr'' d hdrun (Or.inr (by rw [halias]; exact hkey))
    obtain ⟨rewritten, hrep⟩ : ∃ rewritten, replaceStars maps s.text {}
        (starsOf maps s.behind s.tail (assigned maps 0 rows)) = .ok rewritten :=
      ⟨_, replaceStars_ok.mpr ⟨hkept, rfl⟩⟩
    have hresult := (hcode {}).2 hunion hwell
    rw [hrep] at hresult
    refine ⟨rewritten, hresult, ?_⟩
    rintro ⟨items, hitems', hstand⟩
    have hreads := rewritten_reads hok hitems hsame hrows hrep
    rw [hreads] at hitems'
    obtain rfl : expandItems (columnRows maps {} (assigned maps 0 rows)) = items :=
      (SelectText.mk.inj (Option.some.inj hitems')).2.1
    have hstand' := @expandItems_stand maps {} (assigned maps 0 rows) fun r hr key hkey d hd =>
      ((hassigned r hr key hkey).2.2 d hd).1
    -- an alias is named more often than by the items that are wanted
    obtain ⟨alias', hlt⟩ := count_lt hrows.described hbare hkeys hambiguous
    have hcount := stands_count hstand alias'
    have hcount' := stands_count hstand' alias'
    omega
  · exact absurd (assigned_keyless (filterMap_singleton hone).1).2 hambiguous

/-- Where no star runs out of outputs and each keeps a column, there is a rewritten query. -/
theorem expandStarSql_answers {sql : Text} {ahead : List Lexeme} {behind : Text}
    {rows : List SelectRow} {query : StarQuery}
    (hread : readList maps sql = some ⟨ahead, rows.map Prod.fst, behind⟩)
    (hwritten : SelectText.AsWritten maps ⟨ahead, rows.map Prod.fst, behind⟩)
    (hrows : Consistent maps rows) (hunion : ¬ IsUnion maps sql) (hwell : ¬ Stranded maps 0 rows)
    (hkept : ∀ r ∈ assigned maps 0 rows, r.1.star.isSome = true →
      keptOutputs maps query r.1 r.2 ≠ [] ∧
        ∀ d ∈ keptOutputs maps query r.1 r.2, d.field.isSome = true) :
    ∃ rewritten, expandStarSql maps sql (outputsOf rows) query = .ok (some rewritten) := by
  obtain ⟨s, hok, rfl, hitems, rfl, rfl, hcode⟩ := expandStarSql_rows hread hwritten hrows
  obtain ⟨rewritten, hrep⟩ : ∃ rewritten, replaceStars maps s.text query
      (starsOf maps s.behind s.tail (assigned maps 0 rows)) = .ok rewritten :=
    ⟨_, replaceStars_ok.mpr ⟨hkept, rfl⟩⟩
  have hresult := (hcode query).2 hunion hwell
  rw [hrep] at hresult
  exact ⟨rewritten, hresult⟩

end Rewriting

/-! ### An explicit column between two stars -/

def asciiCase : CaseMaps := ⟨List.map Char.toLower, List.map Char.toUpper⟩

def integerColumn (relation field : String) : SqlVarDesc :=
  { type := 496, nullable := true, subType := 0, scale := 0, length := 4, field := some field
    relation := some relation, relationAlias := some relation }

/-- `alias.column` in front of a separator. -/
def dotted (alias' column : String) (stop : Lexeme) : ListItem :=
  ⟨[⟨" ".toList, alias'.toList⟩, ⟨[], ".".toList⟩, ⟨[], column.toList⟩], stop⟩

def commaLexeme : Lexeme := ⟨[], ",".toList⟩

def fromLexeme : Lexeme := ⟨" ".toList, "from".toList⟩

def repeatedColumn : List SelectRow :=
  [(dotted "a" "*" commaLexeme, [integerColumn "A" "ID", integerColumn "A" "NAME"]),
   (dotted "a" "id" commaLexeme, [integerColumn "A" "ID"]),
   (dotted "b" "*" fromLexeme, [integerColumn "B" "X", integerColumn "B" "Y"])]

/-- `b.m[1]` between the stars. -/
def subscripted : List SelectRow :=
  [(dotted "a" "*" commaLexeme, [integerColumn "A" "ID", integerColumn "A" "NAME"]),
   (⟨(dotted "b" "m" commaLexeme).lexemes ++
      [⟨[], "[".toList⟩, ⟨[], "1".toList⟩, ⟨[], "]".toList⟩], commaLexeme⟩, [integerColumn "B" "M"]),
   (dotted "b" "*" fromLexeme, [integerColumn "B" "X", integerColumn "B" "Y"])]

theorem dotted_consistent {rows : List SelectRow}
    (h : ∀ r ∈ rows, r.2 ≠ [] ∧ (r.1.star = none → r.2.length = 1) ∧
      (∀ key ∈ r.1.key asciiCase, ∀ d ∈ r.2, carries key d = true) ∧
      (∀ d ∈ r.2, d.field.isSome = true) ∧ r.1.star ≠ some none ∧
      ∀ q ∈ r.1.star, q = some "a".toList ∨ q = some "b".toList)
    (hkeys : rows.filterMap (·.1.key asciiCase) ≠ [] ∧ (rows.filterMap (·.1.key asciiCase)).Nodup) :
    Consistent asciiCase rows where
  described r hr := ⟨(h r hr).1, (h r hr).2.1, (h r hr).2.2.1⟩
  names r hr q hq := by
    have hname (c : Char) (hs : isSpace c = false) (hc : isIdStart c = true) : IsName [c] :=
      .word hs hc (by simp)
    rcases (h r hr).2.2.2.2.2 _ hq with heq | heq
    · obtain rfl := Option.some.inj heq
      exact ⟨hname 'a' (by decide) (by decide), by decide⟩
    · obtain rfl := Option.some.inj heq
      exact ⟨hname 'b' (by decide) (by decide), by decide⟩
  fields r hr d hd _ := (h r hr).2.2.2.1 d hd
  stars := Or.inl ⟨fun r hr => (h r hr).2.2.2.2.1, hkeys⟩

/-- `select({ exclude: ['b.x'] })` -/
def withoutX : StarQuery := { exclude := some ["b.x".toList] }

/-- The FROM of IS DISTINCT FROM ends the list of the code, and the star behind it is not seen. -/
theorem distinct_from_not_rewritten :
    let rows : List SelectRow :=
      [(⟨(dotted "b" "x" commaLexeme).lexemes ++ [⟨" ".toList, "is".toList⟩, ⟨" ".toList, "distinct".toList⟩,
          ⟨" ".toList, "from".toList⟩, ⟨" ".toList, "1".toList⟩], commaLexeme⟩, [integerColumn "" "F"]),
       (dotted "a" "*" fromLexeme, [integerColumn "A" "ID", integerColumn "A" "NAME"])]
    let sql := "select b.x is distinct from 1, a.* from a, b".toList
    readList asciiCase sql = some ⟨[⟨[], "select".toList⟩], rows.map Prod.fst, " a, b".toList⟩ ∧
      Consistent asciiCase rows ∧ expandStarSql asciiCase sql (outputsOf rows) {} = .ok none :=
  ⟨by decide +kernel, dotted_consistent (by decide +kernel) (by decide +kernel), by decide +kernel⟩

end FastFirebird
