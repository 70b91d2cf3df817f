import FastFirebird.DrizzleLines

/-! The exports of a schema module, as they are written and as they are read. -/
namespace FastFirebird.Drizzle

open Utf16 (units)
open Js (isLowerAlnum IdChars Token Run Renders RendersName Clean)

variable {ids : IdChars} {cases : LowerCase}

/-! Lists with commas -/

theorem renders_list {text : Text → Text} {tokens : Text → List Token} : ∀ {names : List Text},
    names ≠ [] → (∀ name ∈ names, RendersName ids (text name) (tokens name)) →
      RendersName ids (List.intercalate ", ".toList (names.map text)) (commas (names.map tokens)) := by
  intro names
  have hcomma : Renders ids ", ".toList [.punct ','] := fun _ => .step rfl (.done rfl)
  induction names with
  | nil => exact fun h => absurd rfl h
  | cons name names ih =>
    intro _ h
    obtain ⟨hname, hnames⟩ := List.forall_mem_cons.mp h
    cases names with
    | nil =>
      rw [commas, List.map_singleton, List.map_singleton, List.intercalate_singleton,
        List.intercalate_singleton]
      exact hname
    | cons next names =>
      have hrest := ih (List.cons_ne_nil _ _) hnames
      rw [commas, List.map_cons, List.map_cons, List.map_cons, List.map_cons,
        List.intercalate_cons_cons, List.intercalate_cons_cons]
      exact hrest.after (hname.append hcomma rfl)

/-! References -/

theorem Identifies.pasteable {name : Text} (h : Identifies ids cases name) :
    Pasteable ids cases name := by
  intro hform
  have hkey := @keyValue_camel ids cases name
  rw [Js.keyValue_identifier ((camel_identifier_iff name).mpr h), hform] at hkey
  cases hkey

def referenceText (cases : LowerCase) (names : List Text) : Text :=
  List.intercalate ", ".toList (names.map fun name => "t.".toList ++ camel cases name)

def memberTokens (name : Text) : List Token := [word "t", .punct '.', .ident name]

theorem renders_member {name : Text} (h : Pasteable ids cases name) :
    RendersName ids ("t.".toList ++ camel cases name)
      [word "t", .punct '.', nameToken ids cases name] :=
  (renders_name h).after fun _ => .step rfl (.step rfl (.done rfl))

theorem renders_references {names : List Text} (hne : names ≠ [])
    (h : ∀ name ∈ names, Identifies ids cases name) : RendersName ids (referenceText cases names)
      (commas ((names.map (camel cases)).map memberTokens)) := by
  rw [List.map_map]
  apply renders_list hne
  intro name hname
  have hmember := renders_member (h name hname).pasteable
  rwa [nameToken_identifies (h name hname)] at hmember

theorem read_references {R : Text → Text → Prop} {names references : List Text} {x : Text}
    {b : List Token} (hall : List.Forall₂ R names references)
    (h : ∀ name ∈ names, Pasteable ids cases name)
    (hrun : Run ids (referenceText cases names ++ ']' :: x)
      (commas (references.map memberTokens) ++ .punct ']' :: b) []) :
    (∀ name ∈ names, Identifies ids cases name) ∧ references = names.map (camel cases) ∧
      Run ids (']' :: x) (.punct ']' :: b) [] := by
  induction hall with
  | nil => exact ⟨fun _ hname => absurd hname List.not_mem_nil, rfl, hrun⟩
  | @cons name reference names references _ hrest ih =>
    obtain ⟨hname, hnames⟩ := List.forall_mem_cons.mp h
    rw [referenceText, commas, List.map_cons, List.map_cons, intercalate_cons, intercalate_cons,
      List.append_assoc, List.append_assoc] at hrun
    -- what stands behind the name ends it
    have hends : ∀ c ∈ (((if names.map (fun name => "t.".toList ++ camel cases name) = [] then []
        else ", ".toList) ++ referenceText cases names) ++ ']' :: x).head?,
          Js.isIdPart ids c = false := by
      cases names with
      | nil => exact fun c hc => by obtain rfl := Option.some.inj hc; rfl
      | cons next names => exact fun c hc => by obtain rfl := Option.some.inj hc; rfl
    obtain ⟨hsame, hafter⟩ := @Run.cancel ids _ _ _ _ (memberTokens reference) _
      (renders_member hname _ hends) hrun rfl
    have htoken := (List.cons.inj (List.cons.inj (List.cons.inj hsame).2).2).1
    obtain ⟨hidentifier, rfl⟩ := keyToken_ident htoken.symm
    have hmore : Run ids (referenceText cases names ++ ']' :: x)
        (commas (references.map memberTokens) ++ .punct ']' :: b) [] := by
      cases hrest with
      | nil => exact hafter
      | cons _ _ =>
        have hcomma : Renders ids ", ".toList [.punct ','] := fun _ => .step rfl (.done rfl)
        exact hcomma.read hafter
    obtain ⟨hidentifies, hreferences, hlast⟩ := ih hnames hmore
    refine ⟨List.forall_mem_cons.mpr ⟨(camel_identifier_iff name).mp hidentifier, hidentifies⟩, ?_,
      hlast⟩
    rw [hreferences, List.map_cons]

/-! The end of an export -/

def keyText (cases : LowerCase) : List Text → Text
  | [] => ");".toList
  | names => ", (t) => [primaryKey(\x7b columns: [".toList ++ referenceText cases names ++
      "] \x7d)]);".toList

def openingTokens : List Token :=
  [.punct ',', .punct '(', word "t", .punct ')', .arrow, .punct '[', word "primaryKey", .punct '(',
    .punct '\x7b', word "columns", .punct ':', .punct '[']

def closingTokens : List Token :=
  [.punct '\x7d', .punct ')', .punct ']', .punct ')', .punct ';']

theorem renders_opening : Renders ids ", (t) => [primaryKey(\x7b columns: [".toList openingTokens := by
  intro rest
  iterate 12 apply Run.step rfl
  exact .done rfl

theorem renders_closing : Renders ids "] \x7d)]);".toList (.punct ']' :: closingTokens) := by
  intro rest
  iterate 6 apply Run.step rfl
  exact .done rfl

theorem renders_end : Renders ids ");".toList [.punct ')', .punct ';'] :=
  fun _ => .step rfl (.step rfl (.done rfl))

theorem referenceTokens_end (name : Text) (names : List Text) :
    referenceTokens (name :: names) ++ [.punct ')', .punct ';'] =
      openingTokens ++ (commas ((name :: names).map memberTokens) ++ .punct ']' :: closingTokens) := by
  rw [← List.append_assoc]
  exact List.append_assoc _ _ _

theorem renders_keyText {names : List Text} (h : ∀ name ∈ names, Identifies ids cases name) :
    Renders ids (keyText cases names)
      (referenceTokens (names.map (camel cases)) ++ [.punct ')', .punct ';']) := by
  cases names with
  | nil => exact renders_end
  | cons name names =>
    have hreferences := renders_references (List.cons_ne_nil name names) h
    have hall := (hreferences.after renders_opening).append renders_closing rfl
    rw [List.map_cons, referenceTokens_end, ← List.append_assoc]
    exact hall

theorem read_keyText {R : Text → Text → Prop} {names references : List Text} {x : Text}
    {b : List Token} (hall : List.Forall₂ R names references)
    (h : ∀ name ∈ names, Pasteable ids cases name)
    (hrun : Run ids (keyText cases names ++ x)
      (referenceTokens references ++ [.punct ')', .punct ';'] ++ b) []) :
    (∀ name ∈ names, Identifies ids cases name) ∧ references = names.map (camel cases) ∧
      Run ids x b [] := by
  cases hall with
  | nil =>
    exact ⟨fun _ hname => absurd hname List.not_mem_nil, rfl, renders_end.read hrun⟩
  | @cons name reference names references hfirst hrest =>
    rw [referenceTokens_end, keyText, List.append_assoc, List.append_assoc, List.append_assoc,
      List.append_assoc] at hrun
    · obtain ⟨hidentifies, hreferences, hclose⟩ :=
        read_references (.cons hfirst hrest) h (renders_opening.read hrun)
      exact ⟨hidentifies, hreferences, renders_closing.read hclose⟩
    · exact List.cons_ne_nil _ _

/-! A table -/

/-- The names and the default sources of the table stay what they are in the text. -/
structure IntrospectedTable.Regular (ids : IdChars) (cases : LowerCase) (t : IntrospectedTable) :
    Prop where
  name : Pasteable ids cases t.name
  columns : ∀ c ∈ t.columns, c.Regular ids cases

/-- The names of the table can be told in the text, and its default sources stay comments. -/
structure IntrospectedTable.Legible (ids : IdChars) (cases : LowerCase) (t : IntrospectedTable) :
    Prop where
  name : Drizzle.Legible ids cases t.name
  columns : ∀ c ∈ t.columns, c.Legible ids cases

/-- Where the names of the table are pasted, they are what they should be. -/
structure IntrospectedTable.Readable (ids : IdChars) (cases : LowerCase) (t : IntrospectedTable) :
    Prop where
  identifies : Identifies ids cases t.name
  references : ∀ name ∈ t.references, Identifies ids cases name
  plain : Clean '\'' t.name
  plainColumns : ∀ c ∈ t.columns, Clean '\'' c.name

/-- The table is the one that is written. -/
structure Table.Reads (ids : IdChars) (cases : LowerCase) (t : IntrospectedTable) (table : Table) :
    Prop where
  identifier : table.identifier = camel cases t.name
  literal : table.literal = units t.name
  columns : List.Forall₂ (Column.Reads ids cases) t.columns table.columns
  references : table.references = t.references.map (camel cases)

def singlePk (t : IntrospectedTable) : Option Text :=
  if t.primaryKey.length = 1 then t.primaryKey.head? else none

def openText (cases : LowerCase) (t : IntrospectedTable) : Text :=
  "export const ".toList ++ camel cases t.name ++ " = firebirdTable(".toList

def openTokens (name : Token) : List Token :=
  [word "export", word "const", name, .punct '=', word "firebirdTable", .punct '(']

section
variable {t : IntrospectedTable}

theorem exportOf_references :
    (exportOf cases t).references = t.references.map fun c => ⟨c, camel cases c⟩ := by
  rw [exportOf, IntrospectedTable.references]
  dsimp only
  split
  · rfl
  · rfl

theorem export_text (x : Text) : (exportOf cases t).text ++ x = openText cases t ++
    (quoted t.name ++ (", \x7b\n".toList ++
      (List.intercalate ['\n'] (t.columns.map fun c => (line cases (singlePk t) c).text) ++
        '\n' :: ('\x7d' :: (keyText cases t.references ++ x))))) := by
  have hlines : (exportOf cases t).columns.map ColumnLine.text =
      t.columns.map fun c => (line cases (singlePk t) c).text := List.map_map
  have hend (names : List Text) : (if names.map (fun c => Reference.mk c (camel cases c)) = [] then
      ");".toList else ", (t) => [primaryKey(\x7b columns: [".toList ++
        List.intercalate ", ".toList ((names.map fun c => Reference.mk c (camel cases c)).map
          fun r => "t.".toList ++ r.text) ++ "] \x7d)]);".toList) = keyText cases names := by
    cases names with
    | nil => exact if_pos rfl
    | cons name names =>
      refine (if_neg (List.cons_ne_nil _ _)).trans ?_
      rw [List.map_map]
      rfl
  have hbraces : "\n\x7d".toList = ['\n', '\x7d'] := rfl
  have hidentifier : (exportOf cases t).identifier = camel cases t.name := rfl
  have hliteral : (exportOf cases t).literal = quoted t.name := rfl
  unfold Export.text openText
  simp only [hlines, exportOf_references, hend, hidentifier, hliteral]
  simp only [hbraces, List.append_assoc, List.cons_append, List.nil_append]

theorem renders_const : Renders ids "export const ".toList [word "export", word "const"] :=
  fun _ => .step rfl (.step rfl (.done rfl))

theorem renders_open (h : Pasteable ids cases t.name) :
    Renders ids (openText cases t) (openTokens (nameToken ids cases t.name)) := by
  have hback : Renders ids " = firebirdTable(".toList
      [.punct '=', word "firebirdTable", .punct '('] :=
    fun _ => .step rfl (.step rfl (.step rfl (.done rfl)))
  exact ((renders_name h).after renders_const).append hback rfl

theorem Table.tokens_parts (table : Table) (b : List Token) : table.tokens ++ b =
    openTokens (.ident table.identifier) ++ (.string table.literal :: ([.punct ',', .punct '\x7b'] ++
      (columnTokens table.columns ++ (.punct '\x7d' ::
        (referenceTokens table.references ++ [.punct ')', .punct ';'] ++ b))))) := by
  simp only [Table.tokens, openTokens, columnTokens, List.append_assoc, List.cons_append,
    List.nil_append]

theorem renders_comma : Renders ids ", \x7b\n".toList [.punct ',', .punct '\x7b'] :=
  fun _ => .step rfl (.step rfl (.done rfl))

theorem renders_brace : Renders ids ['\x7d'] [.punct '\x7d'] := fun _ => .step rfl (.done rfl)

theorem renders_export (h : Introspected t) (hregular : t.Regular ids cases)
    (hreadable : t.Readable ids cases) : ∃ table, Table.Reads ids cases t table ∧
      Renders ids (exportOf cases t).text table.tokens := by
  obtain ⟨cols, hcols, hlines⟩ := @renders_lines ids cases (singlePk t) t.columns fun c hc =>
    ⟨h.columns c hc, hregular.columns c hc, hreadable.plainColumns c hc⟩
  refine ⟨⟨camel cases t.name, units t.name, cols, t.references.map (camel cases)⟩,
    ⟨rfl, rfl, hcols, rfl⟩, fun x => ?_⟩
  have hopen := renders_open hregular.name
  rw [nameToken_identifies hreadable.identifies] at hopen
  have hend := (renders_brace _).append (renders_keyText hreadable.references x)
  have hbody := (run_lines (singlePk t)).mpr ((hlines _).append hend)
  rw [export_text, ← List.append_nil (Table.tokens _), Table.tokens_parts, List.append_nil]
  exact (hopen _).append ((renders_quoted hreadable.plain _).append ((renders_comma _).append hbody))

theorem references_pasteable (h : Introspected t) (hregular : t.Regular ids cases) :
    ∀ name ∈ t.references, Pasteable ids cases name := by
  intro name hname
  unfold IntrospectedTable.references at hname
  split at hname
  · obtain ⟨c, hc, rfl⟩ := List.mem_map.mp (h.primaryKey name hname)
    exact (hregular.columns c hc).name
  · exact absurd hname List.not_mem_nil

/-- Where an export is read as a table, its name can be pasted. -/
theorem pasteable_open (h : Legible ids cases t.name) {identifier x : Text} {tokens : List Token}
    (hrun : Run ids (openText cases t ++ x) (openTokens (.ident identifier) ++ tokens) []) :
    Pasteable ids cases t.name := by
  have htext : openText cases t ++ x =
      "export const ".toList ++ (camel cases t.name ++ (" = firebirdTable(".toList ++ x)) :=
    (List.append_assoc _ _ _).trans (List.append_assoc _ _ _)
  rw [htext] at hrun
  have hname : Run ids (camel cases t.name ++ (" = firebirdTable(".toList ++ x))
      (.ident identifier :: .punct '=' :: word "firebirdTable" :: .punct '(' :: tokens) [] :=
    renders_const.read hrun
  have hequals : ∀ token behind, Js.next ids (" = firebirdTable(".toList ++ x) =
      some (token, behind) → token.property = none := by
    intro token behind hnext
    have hpunct : Js.next ids (" = firebirdTable(".toList ++ x) =
        some (.punct '=', " firebirdTable(".toList ++ x) := rfl
    obtain ⟨rfl, -⟩ := Prod.mk.inj (Option.some.inj (hpunct.symm.trans hnext))
    rfl
  refine h.pasteable hequals ?_ rfl hname
  exact Option.some_ne_none _

theorem read_export (h : Introspected t) (hlegible : t.Legible ids cases) {imports : List Text}
    (hlow : ∀ name ∈ imports, name.head?.any isLowerAlnum = true) {table : Table}
    (hvalid : table.Valid imports t) {x : Text} {b : List Token}
    (hrun : Run ids ((exportOf cases t).text ++ x) (table.tokens ++ b) []) :
    t.Regular ids cases ∧ t.Readable ids cases ∧ Table.Reads ids cases t table ∧ Run ids x b [] := by
  rw [export_text, table.tokens_parts, hvalid.literal] at hrun
  -- piece by piece: each piece is known once the one before it has been read as it should be
  have hpaste := pasteable_open hlegible.name hrun
  obtain ⟨hopen, hname⟩ := @Run.cancel ids _ _ _ _ (openTokens (.ident table.identifier)) _
    (renders_open hpaste _) hrun rfl
  have htoken := (List.cons.inj (List.cons.inj (List.cons.inj hopen).2).2).1
  obtain ⟨hidentifier, hsame⟩ := keyToken_ident htoken.symm
  obtain ⟨hplain, hcomma⟩ := read_quoted hname
  have hlines := (run_lines (singlePk t)).mp (renders_comma.read hcomma)
  obtain ⟨hcols, hcolumns, hbrace⟩ := read_lines (singlePk t) hlow
    (fun c hc => ⟨h.columns c hc, hlegible.columns c hc⟩) hvalid.columns hlines
  have hregular : t.Regular ids cases := ⟨hpaste, fun c hc => (hcols c hc).1⟩
  obtain ⟨hreferences, hkeys, hlast⟩ := read_keyText hvalid.references
    (references_pasteable h hregular) (renders_brace.read hbrace)
  have hreadable : t.Readable ids cases := ⟨(camel_identifier_iff t.name).mp hidentifier,
    hreferences, hplain, fun c hc => (hcols c hc).2⟩
  exact ⟨hregular, hreadable, ⟨hsame, hvalid.literal, hcolumns, hkeys⟩, hlast⟩

end

end FastFirebird.Drizzle
