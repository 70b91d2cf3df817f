import FastFirebird.DrizzlePieces

/-! The lines of a table, as they are written and as they are read. -/
namespace FastFirebird.Drizzle

open Utf16 (units)
open Js (isLowerAlnum Bare IdChars Token Run Renders RendersName Trivial Closes Clean keyToken)

variable {ids : IdChars} {cases : LowerCase}

/-! Names -/

theorem keyValue_camel (name : Text) :
    Js.keyValue ids (camel cases name) = (form ids cases name).key :=
  (named ids cases name).keyValue

theorem key_eq_iff (name name' : Text) :
    (form ids cases name).key = (form ids cases name').key ↔
      form ids cases name = form ids cases name' := by
  constructor
  · exact (named ids cases name).form_eq (named ids cases name')
  · exact congrArg Form.key

/-- The name becomes a name or a literal. -/
def Pasteable (ids : IdChars) (cases : LowerCase) (name : Text) : Prop :=
  form ids cases name ≠ .value none

instance (name : Text) : Decidable (Pasteable ids cases name) :=
  inferInstanceAs (Decidable (_ ≠ _))

theorem Pasteable.key {name : Text} (h : Pasteable ids cases name) :
    ∃ value, (form ids cases name).key = some value := by
  unfold Pasteable at h
  cases hform : form ids cases name with
  | words list => exact ⟨_, rfl⟩
  | value v =>
    cases v with
    | none => exact absurd hform h
    | some v => exact ⟨v, rfl⟩

/-- The token that a name becomes. -/
def nameToken (ids : IdChars) (cases : LowerCase) (name : Text) : Token :=
  keyToken ids (camel cases name)

theorem nameToken_property {name : Text} (h : Pasteable ids cases name) :
    (nameToken ids cases name).property = (form ids cases name).key := by
  obtain ⟨value, hvalue⟩ := h.key
  rw [nameToken, hvalue]
  exact Js.keyToken_property ((keyValue_camel name).trans hvalue)

theorem renders_name {name : Text} (h : Pasteable ids cases name) :
    RendersName ids (camel cases name) [nameToken ids cases name] := by
  obtain ⟨value, hvalue⟩ := h.key
  exact Js.renders_key ((keyValue_camel name).trans hvalue)

theorem keyToken_ident {key name : Text} (h : keyToken ids key = .ident name) :
    Js.isIdentifierName ids key = true ∧ name = key := by
  unfold keyToken at h
  split at h
  · rename_i hname
    exact ⟨hname, (Token.ident.inj h).symm⟩
  · cases h

/-- A name that is pasted as code has no words. -/
theorem raw_of_not_pasteable {name : Text} (h : ¬ Pasteable ids cases name) :
    camel cases name = cases.lower name ∧ Bare (camel cases name) ∧
      ¬ Js.isIdentifierName ids (camel cases name) = true := by
  have hform := not_not.mp h
  have hkey := @keyValue_camel ids cases name
  rw [hform] at hkey
  have hparts : parts (cases.lower name) = [] := by
    unfold form at hform
    cases hparts : parts (cases.lower name) with
    | nil => rfl
    | cons first more =>
      rw [hparts] at hform
      dsimp only at hform
      split at hform <;> cases hform
  have hcamel : camel cases name = cases.lower name := by
    rw [camel, hparts]
  refine ⟨hcamel, ?_, fun hname => ?_⟩
  · rw [hcamel]
    exact parts_nil hparts
  · rw [Js.keyValue_identifier hname] at hkey
    cases hkey

/-- Nothing in the name can be taken for white space, a comment or a literal. -/
def Legible (ids : IdChars) (cases : LowerCase) (name : Text) : Prop :=
  Pasteable ids cases name ∨ Js.Solid (cases.lower name)

theorem Legible.pasteable {name x fn : Text} {key : Token} {p : Char} {tokens : List Token}
    (h : Legible ids cases name) (hx : ∀ token behind, Js.next ids x = some (token, behind) →
      token.property = none) (hkey : key.property ≠ none) (hlow : fn.head?.any isLowerAlnum = true)
    (hrun : Run ids (camel cases name ++ x) (key :: .punct p :: .ident fn :: tokens) []) :
    Pasteable ids cases name := by
  by_contra hno
  obtain ⟨hcamel, hbare, hname⟩ := raw_of_not_pasteable hno
  have hsolid : Js.Solid (camel cases name) := by
    rw [hcamel]
    exact h.resolve_left hno
  exact hrun.not_solid hsolid hbare hname hx hkey hlow

theorem nameToken_identifies {name : Text} (h : Identifies ids cases name) :
    nameToken ids cases name = .ident (camel cases name) := by
  rw [nameToken, keyToken, if_pos ((camel_identifier_iff name).mpr h)]

/-! Names as literals -/

theorem renders_quoted {name : Text} (h : Clean '\'' name) :
    Renders ids (quoted name) [.string (units name)] :=
  Js.renders_literal (Or.inl rfl) (Js.denotes_quoted (Or.inl rfl) h)

theorem read_quoted {name rest : Text} {b : List Token}
    (h : Run ids (quoted name ++ rest) (.string (units name) :: b) []) :
    Clean '\'' name ∧ Run ids rest b [] := by
  obtain ⟨behind, hnext, hrun⟩ := Run.cons_iff.mp h
  rw [quoted, List.cons_append, List.append_assoc, List.singleton_append,
    Js.next_literal (Or.inl rfl)] at hnext
  obtain ⟨⟨value, after⟩, hread, hpair⟩ := Option.map_eq_some_iff.mp hnext
  obtain ⟨hvalue, rfl⟩ := Prod.mk.inj hpair
  obtain rfl := Token.string.inj hvalue
  obtain ⟨hclean, rfl⟩ := Js.readLiteral_quoted hread
  exact ⟨hclean, hrun⟩

/-! A column -/

/-- A default source that stays in the comment that it is pasted into. -/
def Remark (source : Text) : Prop :=
  ∀ rest, Js.skip .line (source ++ '\n' :: rest) = Js.skip .code rest

theorem remark_of_line {source : Text} (h : (source.all fun c => !Js.isLineEnd c) = true) :
    Remark source := by
  intro rest
  refine Js.skip_line (fun c hc => ?_) rest
  have hnot := List.all_eq_true.mp h c hc
  rwa [Bool.not_eq_true'] at hnot

theorem trivial_notes {c : IntrospectedColumn} (h : ∀ source ∈ c.defaultSource, Remark source) :
    Trivial ((if notes c = [] then [] else " // ".toList ++ List.intercalate "; ".toList (notes c)) ++
      ['\n']) := by
  intro rest
  unfold notes
  cases hsource : c.defaultSource with
  | none => cases c.identity <;> rfl
  | some source =>
    have hremark := h source hsource rest
    cases c.identity with
    | false =>
      change Js.skip .code (" // ".toList ++ List.intercalate "; ".toList [source] ++ ['\n'] ++ rest) = _
      rw [List.intercalate_singleton, List.append_assoc, List.append_assoc]
      exact hremark
    | true =>
      change Js.skip .code (" // ".toList ++
        List.intercalate "; ".toList ["identity".toList, source] ++ ['\n'] ++ rest) = _
      rw [List.intercalate_cons_cons, List.intercalate_singleton, List.append_assoc,
        List.append_assoc, List.append_assoc, List.append_assoc]
      exact hremark

theorem numeric_col (c : RawColumn) (bits : String) (col : Text) :
    ((numeric c bits).builder col).col = col := by
  unfold numeric
  dsimp only
  split_ifs <;> rfl

theorem mapType_col (c : RawColumn) (col : Text) : ((mapType c).builder col).col = col := by
  unfold mapType
  split
  iterate 4 exact numeric_col c _ col
  iterate 12 rfl
  · split_ifs <;> rfl
  · rfl

/-- A column as it is read from a row, whose name and default source stay what they are in the text. -/
structure IntrospectedColumn.Regular (ids : IdChars) (cases : LowerCase) (c : IntrospectedColumn) :
    Prop where
  name : Pasteable ids cases c.name
  remark : ∀ source ∈ c.defaultSource, Remark source

/-- The name of the column can be told in the text, and its default source stays a comment. -/
structure IntrospectedColumn.Legible (ids : IdChars) (cases : LowerCase) (c : IntrospectedColumn) :
    Prop where
  name : Drizzle.Legible ids cases c.name
  remark : ∀ source ∈ c.defaultSource, Remark source

/-- The line up to the name, and behind it. -/
def ColumnLine.front (l : ColumnLine) : Text := "  ".toList ++ l.key ++ ": ".toList ++ l.fn ++ ['(']

def frontTokens (ids : IdChars) (cases : LowerCase) (c : IntrospectedColumn) : List Token :=
  [nameToken ids cases c.name, .punct ':', .ident c.builder.fn, .punct '(']

section
variable {c : IntrospectedColumn} (singlePk : Option Text)

theorem renders_front (hcolumn : ∃ raw, c = introspectColumn raw) (h : Pasteable ids cases c.name) :
    Renders ids (line cases singlePk c).front (frontTokens ids cases c) := by
  obtain ⟨raw, rfl⟩ := hcolumn
  have hblank : Renders ids "  ".toList [] := fun _ => .done rfl
  have hcolon : Renders ids ": ".toList [.punct ':'] := fun _ => .step rfl (.done rfl)
  have hparen : Renders ids ['('] [.punct '('] := fun _ => .step rfl (.done rfl)
  have hbinding := List.all_eq_true.mp (@imported_binding ids) _
    (List.mem_cons_of_mem _ (List.mem_cons_of_mem _ (mapType_fn raw raw.col)))
  have hfn := Js.renders_identifier (Bool.and_eq_true_iff.mp hbinding).1
  have hkey := ((renders_name h).after hblank).append hcolon rfl
  exact (hfn.after hkey).append hparen rfl

theorem renders_call (condition : Prop) [Decidable condition] {text name : Text}
    (h : Renders ids text (callTokens name)) : ∃ calls : List Text,
      Renders ids (if condition then text else []) (calls.flatMap callTokens) := by
  split
  · refine ⟨[name], ?_⟩
    rwa [List.flatMap_singleton]
  · exact ⟨[], fun _ => .done rfl⟩

theorem renders_behind (hcolumn : ∃ raw, c = introspectColumn raw)
    (h : ∀ source ∈ c.defaultSource, Remark source) : ∃ (options : _) (calls : List Text),
      Renders ids ((line cases singlePk c).rest ++ ['\n'])
        (optionTokens options ++ .punct ')' :: calls.flatMap callTokens ++ [.punct ',']) := by
  have hbuilder : Optional ids c.builder.options := by
    obtain ⟨raw, rfl⟩ := hcolumn
    exact optional_mapType raw raw.col
  obtain ⟨options, hoptions⟩ := hbuilder
  obtain ⟨keys, hkeys⟩ := @renders_call ids (singlePk = some c.name) _ ".primaryKey()".toList
    "primaryKey".toList fun _ => .step rfl (.step rfl (.step rfl (.step rfl (.done rfl))))
  obtain ⟨nulls, hnulls⟩ := @renders_call ids (c.nullable = false ∧ singlePk ≠ some c.name) _
    ".notNull()".toList "notNull".toList fun _ => .step rfl (.step rfl (.step rfl (.step rfl (.done rfl))))
  have hcomma : Renders ids [','] [.punct ','] := fun _ => .step rfl (.done rfl)
  have hnotes := @Trivial.renders ids _ (trivial_notes h)
  have hall := (((hoptions.append hkeys).append hnulls).append hcomma).append hnotes
  refine ⟨options, keys ++ nulls, ?_⟩
  simpa only [line, List.flatMap_append, List.append_assoc, List.cons_append, List.nil_append,
    List.append_nil] using hall

/-- The column is the one that is written. -/
structure Column.Reads (ids : IdChars) (cases : LowerCase) (c : IntrospectedColumn) (col : Column) :
    Prop where
  key : col.key = nameToken ids cases c.name
  fn : col.fn = c.builder.fn
  literal : col.literal = units c.name

theorem builder_col (h : ∃ raw, c = introspectColumn raw) : c.builder.col = c.name := by
  obtain ⟨raw, rfl⟩ := h
  exact mapType_col raw raw.col

theorem line_text (hcolumn : ∃ raw, c = introspectColumn raw) (x : Text) :
    (line cases singlePk c).text ++ '\n' :: x = (line cases singlePk c).front ++
      (quoted c.name ++ ((line cases singlePk c).rest ++ ['\n'] ++ x)) := by
  have hliteral : (line cases singlePk c).literal = quoted c.name := by
    rw [line, builder_col hcolumn]
  rw [ColumnLine.text, hliteral]
  simp only [ColumnLine.front, List.append_assoc, List.cons_append, List.nil_append]

theorem renders_line (hcolumn : ∃ raw, c = introspectColumn raw) (h : c.Regular ids cases)
    (hclean : Clean '\'' c.name) : ∃ col, Column.Reads ids cases c col ∧
      Renders ids ((line cases singlePk c).text ++ ['\n']) (col.tokens ++ [.punct ',']) := by
  obtain ⟨options, calls, hbehind⟩ := @renders_behind ids cases c singlePk hcolumn h.remark
  refine ⟨⟨nameToken ids cases c.name, c.builder.fn, units c.name, options, calls⟩, ⟨rfl, rfl, rfl⟩, ?_⟩
  have hall := (renders_front singlePk hcolumn h.name).append ((renders_quoted hclean).append hbehind)
  intro x
  have htext : (line cases singlePk c).text ++ ['\n'] ++ x = (line cases singlePk c).front ++
      (quoted c.name ++ ((line cases singlePk c).rest ++ ['\n'])) ++ x := by
    rw [List.append_assoc, List.singleton_append, line_text singlePk hcolumn]
    simp only [List.append_assoc]
  rw [htext]
  exact hall x

/-- Where a line is read as a column, its name can be pasted. -/
theorem pasteable_line (h : Legible ids cases c.name) {col : Column} {tokens : List Token} {x : Text}
    (hkey : col.key.property ≠ none) (hfn : col.fn.head?.any isLowerAlnum = true)
    (hrun : Run ids ((line cases singlePk c).front ++ x) (col.tokens ++ tokens) []) :
    Pasteable ids cases c.name := by
  have htext : (line cases singlePk c).front ++ x = "  ".toList ++ (camel cases c.name ++
      (": ".toList ++ (c.builder.fn ++ '(' :: x))) := by
    simp only [ColumnLine.front, line, List.append_assoc, List.cons_append, List.nil_append]
  have hcolon : ∀ token behind, Js.next ids (": ".toList ++ (c.builder.fn ++ '(' :: x)) =
      some (token, behind) → token.property = none := by
    intro token behind hnext
    have hpunct : Js.next ids (": ".toList ++ (c.builder.fn ++ '(' :: x)) =
        some (.punct ':', ' ' :: (c.builder.fn ++ '(' :: x)) := rfl
    obtain ⟨rfl, -⟩ := Prod.mk.inj (Option.some.inj (hpunct.symm.trans hnext))
    rfl
  rw [htext] at hrun
  exact h.pasteable hcolon hkey hfn (hrun.of_skip rfl)

theorem read_line (hcolumn : ∃ raw, c = introspectColumn raw) (h : c.Legible ids cases)
    {imports : List Text} (hlow : ∀ name ∈ imports, name.head?.any isLowerAlnum = true)
    {col : Column} (hvalid : col.Valid imports c) {b : List Token} {x : Text}
    (hrun : Run ids ((line cases singlePk c).text ++ '\n' :: x) (col.tokens ++ .punct ',' :: b) []) :
    c.Regular ids cases ∧ Clean '\'' c.name ∧ Column.Reads ids cases c col ∧ Run ids x b [] := by
  rw [line_text singlePk hcolumn] at hrun
  have hpaste := pasteable_line singlePk h.name hvalid.key (hlow _ hvalid.fn) hrun
  rw [Column.tokens, hvalid.literal] at hrun
  -- up to the literal the tokens are known; the literal denotes the name only if the name is clean
  have hfront := renders_front singlePk hcolumn hpaste
    (quoted c.name ++ ((line cases singlePk c).rest ++ ['\n'] ++ x))
  obtain ⟨hsame, hname⟩ := @Run.cancel ids _ _ _ _ [col.key, .punct ':', .ident col.fn, .punct '(']
    (.string (units c.name) :: (col.tail ++ .punct ',' :: b)) hfront hrun rfl
  obtain ⟨hkey, hrest⟩ := List.cons.inj hsame
  have hfn := Token.ident.inj (List.cons.inj (List.cons.inj hrest).2).1
  obtain ⟨hclean, htail⟩ := read_quoted hname
  -- behind it the call ends with the first comma outside of it, in both readings
  obtain ⟨options, calls, hbehind⟩ := @renders_behind ids cases c singlePk hcolumn h.remark
  obtain ⟨-, hlast⟩ := (hbehind x).closes (closes_tail options calls)
    (closes_tail col.options col.calls) htail
  exact ⟨⟨hpaste, h.remark⟩, hclean, ⟨hkey, hfn, hvalid.literal⟩, hlast⟩

/-! All columns -/

variable {columns : List IntrospectedColumn}

def linesOf (cases : LowerCase) (singlePk : Option Text) (columns : List IntrospectedColumn) : Text :=
  columns.flatMap fun c => (line cases singlePk c).text ++ ['\n']

def columnTokens (cols : List Column) : List Token := cols.flatMap fun col => col.tokens ++ [.punct ',']

theorem renders_lines (h : ∀ c ∈ columns, (∃ raw, c = introspectColumn raw) ∧ c.Regular ids cases ∧
    Clean '\'' c.name) : ∃ cols, List.Forall₂ (Column.Reads ids cases) columns cols ∧
      Renders ids (linesOf cases singlePk columns) (columnTokens cols) := by
  induction columns with
  | nil => exact ⟨[], .nil, fun _ => .done rfl⟩
  | cons c columns ih =>
    obtain ⟨⟨hcolumn, hregular, hclean⟩, hrest⟩ := List.forall_mem_cons.mp h
    obtain ⟨col, hreads, hline⟩ := renders_line singlePk hcolumn hregular hclean
    obtain ⟨cols, hall, hlines⟩ := ih hrest
    refine ⟨col :: cols, .cons hreads hall, ?_⟩
    rw [linesOf, columnTokens, List.flatMap_cons, List.flatMap_cons]
    exact hline.append hlines

theorem read_lines {imports : List Text}
    (hlow : ∀ name ∈ imports, name.head?.any isLowerAlnum = true) {cols : List Column}
    {b : List Token} {x : Text}
    (h : ∀ c ∈ columns, (∃ raw, c = introspectColumn raw) ∧ c.Legible ids cases)
    (hvalid : List.Forall₂ (Column.Valid imports) columns cols)
    (hrun : Run ids (linesOf cases singlePk columns ++ x) (columnTokens cols ++ b) []) :
    (∀ c ∈ columns, c.Regular ids cases ∧ Clean '\'' c.name) ∧
      List.Forall₂ (Column.Reads ids cases) columns cols ∧ Run ids x b [] := by
  induction hvalid with
  | nil => exact ⟨fun _ hc => absurd hc List.not_mem_nil, .nil, hrun⟩
  | @cons c col columns cols hfirst _ ih =>
    obtain ⟨⟨hcolumn, hlegible⟩, hrest⟩ := List.forall_mem_cons.mp h
    rw [linesOf, columnTokens, List.flatMap_cons, List.flatMap_cons, List.append_assoc,
      List.append_assoc, List.append_assoc, List.append_assoc] at hrun
    obtain ⟨hregular, hclean, hreads, hafter⟩ :=
      read_line singlePk hcolumn hlegible hlow hfirst hrun
    obtain ⟨hall, hcolumns, hlast⟩ := ih hrest hafter
    exact ⟨List.forall_mem_cons.mpr ⟨⟨hregular, hclean⟩, hall⟩, .cons hreads hcolumns, hlast⟩

/-- The lines end with a line break each, or there is none and a break all the same. -/
theorem run_lines {columns : List IntrospectedColumn} {tokens : List Token} {x rest : Text} :
    Run ids (List.intercalate ['\n'] (columns.map fun c => (line cases singlePk c).text) ++
      '\n' :: x) tokens rest ↔ Run ids (linesOf cases singlePk columns ++ x) tokens rest := by
  cases columns with
  | nil => exact ⟨fun h => h.of_skip rfl, fun h => h.of_skip rfl⟩
  | cons c columns =>
    have htext : List.intercalate ['\n'] ((c :: columns).map fun c => (line cases singlePk c).text) ++
        '\n' :: x = linesOf cases singlePk (c :: columns) ++ x := by
      induction columns generalizing c with
      | nil =>
        rw [List.map_singleton, List.intercalate_singleton, linesOf, List.flatMap_singleton,
          List.append_assoc]
        rfl
      | cons d columns ih =>
        have hrest := ih d
        rw [List.map_cons] at hrest
        rw [List.map_cons, List.map_cons, List.intercalate_cons_cons, List.append_assoc, hrest]
        exact (List.append_assoc _ (linesOf cases singlePk (d :: columns)) x).symm
    rw [htext]

end

end FastFirebird.Drizzle
