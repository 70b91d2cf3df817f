import FastFirebird.DrizzleExports
import Mathlib.Data.List.Nodup

/-! The schema that is generated is a module exactly if the names of the tables fit into it. -/
namespace FastFirebird.Drizzle

open Utf16 (units)
open Js (isLowerAlnum IdChars Token Run Renders RendersName Trivial Clean)

/-! The condition -/

/-- The module imports the name. -/
def Imports (tables : List IntrospectedTable) (name : Text) : Prop :=
  name = "firebirdTable".toList ∨ (∃ t ∈ tables, name ∈ t.columns.map (·.builder.fn)) ∨
    ∃ t ∈ tables, t.references ≠ [] ∧ name = "primaryKey".toList

section
variable (ids : IdChars) (cases : LowerCase)

/-- The names of the table fit into the code. -/
structure IntrospectedTable.Fits (t : IntrospectedTable) : Prop extends
    IntrospectedTable.Readable ids cases t where
  regular : t.Regular ids cases
  reserved : ¬ IsReserved ids cases t.name
  distinct : (t.columns.map fun c => form ids cases c.name).Nodup

structure Fit (tables : List IntrospectedTable) : Prop where
  each : ∀ t ∈ tables, t.Fits ids cases
  distinct : (tables.map fun t => form ids cases t.name).Nodup
  imports : ∀ t ∈ tables, ∀ words, form ids cases t.name = .words words →
    ¬ Imports tables (humps words)

end

variable {ids : IdChars} {cases : LowerCase} {tables : List IntrospectedTable}

/-! Imports -/

def importsOf (cases : LowerCase) (tables : List IntrospectedTable) : List Text :=
  "firebirdTable".toList :: used (tables.map (exportOf cases))

theorem nodup_eraseDups {α : Type} [BEq α] [LawfulBEq α] (l : List α) : l.eraseDups.Nodup := by
  induction hn : l.length using Nat.strong_induction_on generalizing l with
  | h n ih =>
    cases l with
    | nil => exact List.nodup_nil
    | cons a l =>
      have hlength : (l.filter fun b => !b == a).length < n := by
        rw [← hn]
        exact Nat.lt_succ_of_le (List.length_filter_le _ _)
      rw [List.eraseDups_cons]
      refine List.nodup_cons.mpr ⟨fun ha => ?_, ih _ hlength _ rfl⟩
      have hfilter := (List.mem_filter.mp (List.mem_eraseDups.mp ha)).2
      rw [beq_self_eq_true] at hfilter
      cases hfilter

theorem mem_used {t : IntrospectedTable} {name : Text} :
    name ∈ (exportOf cases t).columns.map (·.fn) ++
        (if (exportOf cases t).references = [] then [] else ["primaryKey".toList]) ↔
      name ∈ t.columns.map (·.builder.fn) ∨ t.references ≠ [] ∧ name = "primaryKey".toList := by
  have hfns : (exportOf cases t).columns.map (·.fn) = t.columns.map (·.builder.fn) := List.map_map
  have hnil : (exportOf cases t).references = [] ↔ t.references = [] := by
    rw [exportOf_references]
    exact List.map_eq_nil_iff
  rw [List.mem_append, hfns]
  apply or_congr_right
  split
  · rename_i hempty
    exact ⟨fun h => absurd h List.not_mem_nil, fun h => absurd (hnil.mp hempty) h.1⟩
  · rename_i hmany
    rw [List.mem_singleton]
    exact ⟨fun h => ⟨mt hnil.mpr hmany, h⟩, fun h => h.2⟩

theorem mem_importsOf {name : Text} : name ∈ importsOf cases tables ↔ Imports tables name := by
  rw [importsOf, List.mem_cons, used, List.mem_mergeSort, List.mem_eraseDups, List.mem_flatMap,
    Imports]
  apply or_congr_right
  constructor
  · rintro ⟨e, he, hname⟩
    obtain ⟨t, ht, rfl⟩ := List.mem_map.mp he
    rcases mem_used.mp hname with hfn | hkey
    · exact Or.inl ⟨t, ht, hfn⟩
    · exact Or.inr ⟨t, ht, hkey⟩
  · rintro (⟨t, ht, hfn⟩ | ⟨t, ht, hkey⟩)
    · exact ⟨_, List.mem_map_of_mem ht, mem_used.mpr (Or.inl hfn)⟩
    · exact ⟨_, List.mem_map_of_mem ht, mem_used.mpr (Or.inr hkey)⟩

theorem fn_builders {t : IntrospectedTable} (h : Introspected t) {name : Text}
    (hname : name ∈ t.columns.map (·.builder.fn)) : name ∈ builders := by
  obtain ⟨c, hc, rfl⟩ := List.mem_map.mp hname
  obtain ⟨raw, rfl⟩ := h.columns c hc
  exact mapType_fn raw raw.col

theorem Imports.imported (h : ∀ t ∈ tables, Introspected t) {name : Text}
    (hname : Imports tables name) : name ∈ imported := by
  rcases hname with rfl | ⟨t, ht, hfn⟩ | ⟨t, -, -, rfl⟩
  · exact List.mem_cons_self
  · exact List.mem_cons_of_mem _ (List.mem_cons_of_mem _ (fn_builders (h t ht) hfn))
  · exact List.mem_cons_of_mem _ List.mem_cons_self

theorem Imports.binding (h : ∀ t ∈ tables, Introspected t) {name : Text}
    (hname : Imports tables name) : Js.isBinding ids name = true :=
  List.all_eq_true.mp imported_binding name (hname.imported h)

theorem nodup_importsOf (h : ∀ t ∈ tables, Introspected t) : (importsOf cases tables).Nodup := by
  refine List.nodup_cons.mpr ⟨fun hmem => ?_, ?_⟩
  · rw [used, List.mem_mergeSort, List.mem_eraseDups, List.mem_flatMap] at hmem
    obtain ⟨e, he, hname⟩ := hmem
    obtain ⟨t, ht, rfl⟩ := List.mem_map.mp he
    rcases mem_used.mp hname with hfn | ⟨-, hkey⟩
    · have hno : builders.contains "firebirdTable".toList = false := rfl
      rw [List.contains_iff_mem.mpr (fn_builders (h t ht) hfn)] at hno
      cases hno
    · exact absurd hkey (by decide)
  · exact (List.mergeSort_perm _ _).nodup_iff.mpr (nodup_eraseDups _)

theorem imported_low : (imported.all fun name => name.head?.any isLowerAlnum) = true := rfl

/-- Only a name with words may become a name that is imported. -/
theorem imports_camel (h : ∀ t ∈ tables, Introspected t) {name : Text}
    (hidentifies : Identifies ids cases name) : Imports tables (camel cases name) ↔
      ∃ words, form ids cases name = .words words ∧ Imports tables (humps words) := by
  have hidentifier := (camel_identifier_iff name).mpr hidentifies
  have hnamed := named ids cases name
  generalize camel cases name = key at hnamed hidentifier ⊢
  generalize form ids cases name = f at hnamed ⊢
  cases hnamed with
  | raw hparts =>
    constructor
    · intro himports
      have hhead := List.all_eq_true.mp imported_low _ (himports.imported h)
      have hbare := parts_nil hparts
      generalize cases.lower name = key at hhead hbare
      cases key with
      | nil => cases hhead
      | cons c key => exact Bool.noConfusion (hhead.symm.trans (hbare c List.mem_cons_self))
    · rintro ⟨words, hwords, -⟩
      cases hwords
  | quoted first more hparts hdigit => cases hidentifier
  | words first more hparts hdigit hwords =>
    constructor
    · exact fun himports => ⟨_, rfl, himports⟩
    · rintro ⟨words, hsame, himports⟩
      obtain rfl := Form.words.inj hsame
      exact himports

/-! The text of the module -/

def importText (names : List Text) : Text :=
  "// Generated by @fast-firebird/drizzle introspection — review before use.\nimport \x7b ".toList ++
    List.intercalate ", ".toList names ++ " \x7d from '@fast-firebird/drizzle';\n\n".toList

def exportText (cases : LowerCase) (tables : List IntrospectedTable) : Text :=
  List.intercalate "\n\n".toList (tables.map fun t => (exportOf cases t).text) ++ ['\n']

theorem schema_text : generateDrizzleSchema cases tables =
    importText (importsOf cases tables) ++ exportText cases tables := by
  unfold generateDrizzleSchema importText exportText importsOf
  simp only [List.map_map, List.append_assoc]
  rfl

theorem renders_imports {names : List Text} (hne : names ≠ [])
    (h : ∀ name ∈ names, name ∈ imported) :
    Renders ids (importText names) (importTokens names ++ [.punct ';']) := by
  have hopen : Renders ids
      "// Generated by @fast-firebird/drizzle introspection — review before use.\nimport \x7b ".toList
      [word "import", .punct '\x7b'] := fun _ => .step rfl (.step rfl (.done rfl))
  have hclose : Renders ids " \x7d from '@fast-firebird/drizzle';\n\n".toList
      [.punct '\x7d', word "from", .string (units "@fast-firebird/drizzle".toList), .punct ';'] :=
    fun _ => .step rfl (.step rfl (.step rfl (.step rfl (.done rfl))))
  have hlist : RendersName ids (List.intercalate ", ".toList (names.map id))
      (commas (names.map fun name => [.ident name])) := by
    apply renders_list hne
    intro name hname
    have hbinding := List.all_eq_true.mp (@imported_binding ids) name (h name hname)
    exact Js.renders_identifier (Bool.and_eq_true_iff.mp hbinding).1
  rw [List.map_id] at hlist
  have hall := (hlist.after hopen).append hclose rfl
  rw [importTokens, List.append_assoc]
  exact hall

theorem trivial_gap (condition : Prop) [Decidable condition] :
    Trivial (if condition then [] else "\n\n".toList) := by
  intro rest
  split <;> rfl

theorem renders_exports (h : ∀ t ∈ tables, Introspected t ∧ t.Regular ids cases ∧
    t.Readable ids cases) : ∃ list, List.Forall₂ (Table.Reads ids cases) tables list ∧
      Run ids (exportText cases tables) (list.flatMap Table.tokens) [] := by
  induction tables with
  | nil => exact ⟨[], .nil, .done rfl⟩
  | cons t tables ih =>
    obtain ⟨⟨hintro, hregular, hreadable⟩, hrest⟩ := List.forall_mem_cons.mp h
    obtain ⟨table, hreads, hexport⟩ := renders_export hintro hregular hreadable
    obtain ⟨list, hall, hrun⟩ := ih hrest
    refine ⟨table :: list, .cons hreads hall, ?_⟩
    rw [exportText, List.map_cons, intercalate_cons, List.append_assoc, List.append_assoc]
    exact (hexport _).append (hrun.of_skip (trivial_gap _ _))

theorem read_exports {imports : List Text}
    (hlow : ∀ name ∈ imports, name.head?.any isLowerAlnum = true) {list : List Table}
    (h : ∀ t ∈ tables, Introspected t ∧ t.Legible ids cases)
    (hvalid : List.Forall₂ (Table.Valid imports) tables list)
    (hrun : Run ids (exportText cases tables) (list.flatMap Table.tokens) []) :
    (∀ t ∈ tables, t.Regular ids cases ∧ t.Readable ids cases) ∧
      List.Forall₂ (Table.Reads ids cases) tables list := by
  induction hvalid with
  | nil => exact ⟨fun _ ht => absurd ht List.not_mem_nil, .nil⟩
  | @cons t table tables list hfirst _ ih =>
    obtain ⟨⟨hintro, hlegible⟩, hrest⟩ := List.forall_mem_cons.mp h
    rw [exportText, List.map_cons, intercalate_cons, List.append_assoc, List.append_assoc] at hrun
    obtain ⟨hregular, hreadable, hreads, hafter⟩ := read_export hintro hlegible hlow hfirst hrun
    obtain ⟨hreadables, hall⟩ := ih hrest (hafter.of_skip (trivial_gap _ _).symm)
    exact ⟨List.forall_mem_cons.mpr ⟨⟨hregular, hreadable⟩, hreadables⟩, .cons hreads hall⟩

/-- No name that begins with anything but a small letter or a digit. -/
def isLow : Token → Bool
  | .ident name => name.head?.any isLowerAlnum
  | _ => true

theorem mem_commas {token : Token} {items : List (List Token)} (h : token ∈ commas items) :
    token = .punct ',' ∨ ∃ item ∈ items, token ∈ item := by
  induction items with
  | nil => cases h
  | cons item items ih =>
    rw [commas, intercalate_cons, List.mem_append, List.mem_append] at h
    rcases h with hitem | hsep | hrest
    · exact Or.inr ⟨item, List.mem_cons_self, hitem⟩
    · left
      split at hsep
      · cases hsep
      · exact List.mem_singleton.mp hsep
    · rcases ih hrest with hcomma | ⟨other, hother, hmem⟩
      · exact Or.inl hcomma
      · exact Or.inr ⟨other, List.mem_cons_of_mem _ hother, hmem⟩

theorem item_commas {token : Token} {item : List Token} {items : List (List Token)}
    (hitem : item ∈ items) (h : token ∈ item) : token ∈ commas items := by
  induction items with
  | nil => cases hitem
  | cons other items ih =>
    rw [commas, intercalate_cons, List.mem_append, List.mem_append]
    rcases List.mem_cons.mp hitem with rfl | hrest
    · exact Or.inl h
    · exact Or.inr (Or.inr (ih hrest))

/-- The tokens of an import statement: names, and what belongs to the statement. -/
theorem mem_importTokens {token : Token} {names : List Text} (h : token ∈ importTokens names) :
    (∃ name ∈ names, token = .ident name) ∨ token ∈ importTokens [] ∨ token = .punct ',' := by
  rw [importTokens, List.mem_append, List.mem_append] at h
  rcases h with (hopen | hnames) | hclose
  · exact Or.inr (Or.inl (List.mem_append_left _ hopen))
  · rcases mem_commas hnames with hcomma | ⟨item, hitem, hmem⟩
    · exact Or.inr (Or.inr hcomma)
    · obtain ⟨name, hname, rfl⟩ := List.mem_map.mp hitem
      exact Or.inl ⟨name, hname, List.mem_singleton.mp hmem⟩
  · exact Or.inr (Or.inl (List.mem_append_right _ hclose))

theorem importTokens_semicolon (names : List Text) : Token.punct ';' ∉ importTokens names := by
  intro h
  rcases mem_importTokens h with ⟨name, -, hident⟩ | hstatement | hcomma
  · cases hident
  · exact absurd hstatement (by decide)
  · exact absurd hcomma (by decide)

theorem append_cons_eq {α : Type} {x : α} {a a' b b' : List α} (ha : x ∉ a) (ha' : x ∉ a')
    (h : a ++ x :: b = a' ++ x :: b') : a = a' ∧ b = b' := by
  rcases List.append_eq_append_iff.mp h with ⟨c, rfl, hc⟩ | ⟨c, rfl, hc⟩
  · cases c with
    | nil => exact ⟨(List.append_nil a).symm, (List.cons.inj hc).2⟩
    | cons y c =>
      obtain ⟨rfl, -⟩ := List.cons.inj hc
      exact absurd (List.mem_append_right _ List.mem_cons_self) ha'
  · cases c with
    | nil => exact ⟨List.append_nil a', (List.cons.inj hc).2.symm⟩
    | cons y c =>
      obtain ⟨rfl, -⟩ := List.cons.inj hc
      exact absurd (List.mem_append_right _ List.mem_cons_self) ha

/-- The import statement is read as it is written, and the exports come behind it. -/
theorem read_imports (h : ∀ t ∈ tables, Introspected t) {imports : List Text} {tokens : List Token}
    (hrun : Run ids (generateDrizzleSchema cases tables)
      (importTokens imports ++ .punct ';' :: tokens) []) :
    (∀ name ∈ imports, name.head?.any isLowerAlnum = true) ∧
      Run ids (exportText cases tables) tokens [] := by
  rw [schema_text] at hrun
  have himported : ∀ name ∈ importsOf cases tables, name ∈ imported :=
    fun name hname => (mem_importsOf.mp hname).imported h
  have hwritten := @renders_imports ids (importsOf cases tables) (List.cons_ne_nil _ _) himported
  obtain ⟨more, hmore, hrest⟩ := (hwritten (exportText cases tables)).strip hrun
  rw [List.append_assoc] at hmore
  -- the first semicolon ends the statement in both readings
  obtain ⟨himports, rfl⟩ :=
    append_cons_eq (importTokens_semicolon _) (importTokens_semicolon _) hmore
  refine ⟨fun name hname => ?_, hrest⟩
  have hmem : Token.ident name ∈ importTokens imports := by
    refine List.mem_append_left _ (List.mem_append_right _ ?_)
    exact item_commas (List.mem_map_of_mem hname) List.mem_cons_self
  rw [himports] at hmem
  rcases mem_importTokens hmem with ⟨other, hother, hsame⟩ | hstatement | hcomma
  · rw [Token.ident.inj hsame]
    exact List.all_eq_true.mp imported_low _ (himported other hother)
  · have hall : (importTokens []).all isLow = true := rfl
    exact List.all_eq_true.mp hall _ hstatement
  · cases hcomma

/-! Both directions -/

/-- Two functions that agree on what they tell apart. -/
theorem nodup_map_iff {α β γ : Type} {l : List α} {f : α → β} {g : α → γ}
    (h : ∀ a ∈ l, ∀ b ∈ l, f a = f b ↔ g a = g b) : (l.map f).Nodup ↔ (l.map g).Nodup := by
  unfold List.Nodup
  rw [List.pairwise_map, List.pairwise_map]
  constructor
  · intro hf
    exact hf.imp_of_mem fun ha hb hne heq => hne ((h _ ha _ hb).mpr heq)
  · intro hg
    exact hg.imp_of_mem fun ha hb hne heq => hne ((h _ ha _ hb).mp heq)

theorem camel_eq_iff {name name' : Text} (h : Identifies ids cases name)
    (h' : Identifies ids cases name') :
    camel cases name = camel cases name' ↔ form ids cases name = form ids cases name' := by
  have hkey := Js.keyValue_identifier ((camel_identifier_iff name).mpr h)
  have hkey' := Js.keyValue_identifier ((camel_identifier_iff name').mpr h')
  rw [keyValue_camel] at hkey hkey'
  rw [← key_eq_iff, hkey, hkey']
  constructor
  · exact fun heq => congrArg _ (congrArg _ heq)
  · exact fun heq => Js.units_injective (Option.some.inj heq)

theorem nodup_identifiers (h : ∀ t ∈ tables, Identifies ids cases t.name) :
    (tables.map fun t => camel cases t.name).Nodup ↔
      (tables.map fun t => form ids cases t.name).Nodup :=
  nodup_map_iff fun a ha b hb => camel_eq_iff (h a ha) (h b hb)

/-- The properties of the columns are told apart as their names are. -/
theorem nodup_keys {t : IntrospectedTable} {table : Table} (hregular : t.Regular ids cases)
    (hreads : Table.Reads ids cases t table) : (table.columns.map (·.key.property)).Nodup ↔
      (t.columns.map fun c => form ids cases c.name).Nodup := by
  have hkeys : table.columns.map (·.key.property) =
      t.columns.map fun c => (form ids cases c.name).key := by
    have hall := hreads.columns
    have hcolumns := hregular.columns
    generalize t.columns = columns at hall hcolumns ⊢
    generalize table.columns = cols at hall ⊢
    induction hall with
    | nil => rfl
    | cons hcol _ ih =>
      obtain ⟨hc, hrest⟩ := List.forall_mem_cons.mp hcolumns
      rw [List.map_cons, List.map_cons, ih hrest, hcol.key, nameToken_property hc.name]
  rw [hkeys]
  exact nodup_map_iff fun a _ b _ => key_eq_iff a.name b.name

theorem identifiers_eq {list : List Table} (h : List.Forall₂ (Table.Reads ids cases) tables list) :
    list.map (·.identifier) = tables.map fun t => camel cases t.name := by
  induction h with
  | nil => rfl
  | cons hreads _ ih => rw [List.map_cons, List.map_cons, ih, hreads.identifier]

theorem exists_zip {α β : Type} {R : α → β → Prop} {l : List α} {l' : List β}
    (h : List.Forall₂ R l l') : ∀ a ∈ l, ∃ b, (a, b) ∈ l.zip l' := by
  induction h with
  | nil => exact fun _ ha => absurd ha List.not_mem_nil
  | @cons a b l l' _ _ ih =>
    refine List.forall_mem_cons.mpr ⟨⟨b, List.mem_cons_self⟩, fun a' ha' => ?_⟩
    obtain ⟨b', hb'⟩ := ih a' ha'
    exact ⟨b', List.mem_cons_of_mem _ hb'⟩

/-- What is imported stands in the module. -/
theorem mem_imports {imports : List Text} {list : List Table}
    (hvalid : List.Forall₂ (Table.Valid imports) tables list)
    (hreads : List.Forall₂ (Table.Reads ids cases) tables list)
    (htable : "firebirdTable".toList ∈ imports) {name : Text} (h : Imports tables name) :
    name ∈ imports := by
  rcases h with rfl | ⟨t, ht, hfn⟩ | ⟨t, ht, hne, rfl⟩
  · exact htable
  · obtain ⟨table, hmem⟩ := exists_zip hvalid t ht
    have hval := List.forall₂_zip hvalid hmem
    have hread := List.forall₂_zip hreads hmem
    obtain ⟨c, hc, rfl⟩ := List.mem_map.mp hfn
    obtain ⟨col, hcol⟩ := exists_zip hval.columns c hc
    rw [← (List.forall₂_zip hread.columns hcol).fn]
    exact (List.forall₂_zip hval.columns hcol).fn
  · obtain ⟨table, hmem⟩ := exists_zip hvalid t ht
    apply (List.forall₂_zip hvalid hmem).primaryKey
    rw [(List.forall₂_zip hreads hmem).references]
    exact fun hnil => hne (List.map_eq_nil_iff.mp hnil)

/-- A table that is written is valid where its names fit. -/
theorem Table.Reads.valid {t : IntrospectedTable} {table : Table} {imports : List Text}
    (h : Introspected t) (hregular : t.Regular ids cases) (hfits : t.Fits ids cases)
    (hreads : Table.Reads ids cases t table)
    (hfns : ∀ name ∈ t.columns.map (·.builder.fn), name ∈ imports)
    (hkey : t.references ≠ [] → "primaryKey".toList ∈ imports) : table.Valid imports t := by
  refine ⟨hreads.literal, ?_, (nodup_keys hregular hreads).mpr hfits.distinct, ?_, fun hne => ?_⟩
  · refine List.forall₂_iff_zip.mpr ⟨hreads.columns.length_eq, fun {c col} hmem => ?_⟩
    have hcol := List.forall₂_zip hreads.columns hmem
    have hc := (List.of_mem_zip hmem).1
    obtain ⟨value, hvalue⟩ := (hregular.columns c hc).name.key
    refine ⟨?_, ?_, hcol.literal⟩
    · rw [hcol.key, nameToken_property (hregular.columns c hc).name, hvalue]
      exact Option.some_ne_none _
    · rw [hcol.fn]
      exact hfns _ (List.mem_map_of_mem hc)
  · rw [hreads.references, List.forall₂_map_right_iff, List.forall₂_same]
    intro name hname
    have hidentifies := hfits.references name hname
    have hcolumn : name ∈ t.columns.map (·.name) := by
      unfold IntrospectedTable.references at hname
      split at hname
      · exact h.primaryKey name hname
      · cases hname
    obtain ⟨c, hc, rfl⟩ := List.mem_map.mp hcolumn
    obtain ⟨col, hcol⟩ := exists_zip hreads.columns c hc
    refine ⟨(c, col), hcol, rfl, ?_⟩
    rw [(List.forall₂_zip hreads.columns hcol).key, nameToken_identifies hidentifies]
    rfl
  · apply hkey
    rw [hreads.references] at hne
    exact fun hnil => hne (List.map_eq_nil_iff.mpr hnil)

/-- In a module the names fit. -/
theorem WellFormed.fit (h : ∀ t ∈ tables, Introspected t)
    (hlegible : ∀ t ∈ tables, t.Legible ids cases)
    (hw : WellFormed ids tables (generateDrizzleSchema cases tables)) : Fit ids cases tables := by
  obtain ⟨m, hrun, hvalid⟩ := hw
  rw [Module.tokens] at hrun
  obtain ⟨hlow, hexports⟩ := read_imports h hrun
  obtain ⟨hread, hreads⟩ := read_exports hlow (fun t ht => ⟨h t ht, hlegible t ht⟩) hvalid.tables
    hexports
  have hregular : ∀ t ∈ tables, t.Regular ids cases := fun t ht => (hread t ht).1
  have hidentifies : ∀ t ∈ tables, Identifies ids cases t.name :=
    fun t ht => (hread t ht).2.identifies
  have hidentifiers := identifiers_eq hreads
  have hbinding := hvalid.binding
  have hdistinct := hvalid.distinct
  rw [Module.bindings, hidentifiers] at hbinding hdistinct
  obtain ⟨-, hnames, hapart⟩ := List.nodup_append.mp hdistinct
  refine ⟨fun t ht => ⟨(hread t ht).2, hregular t ht, ?_, ?_⟩,
    (nodup_identifiers hidentifies).mp hnames, ?_⟩
  · have hcamel := hbinding _ (List.mem_append_right _ (List.mem_map_of_mem ht))
    exact ((camel_binding_iff t.name).mp hcamel).2
  · obtain ⟨table, hmem⟩ := exists_zip hreads t ht
    exact (nodup_keys (hregular t ht) (List.forall₂_zip hreads hmem)).mp
      (List.forall₂_zip hvalid.tables hmem).distinct
  · -- a name that the module imports stands in its imports, and no export has it
    intro t ht words hwords himports
    have hcamel := (imports_camel h (hidentifies t ht)).mpr ⟨words, hwords, himports⟩
    have hmem := mem_imports hvalid.tables hreads hvalid.firebirdTable hcamel
    exact hapart _ hmem _ (List.mem_map_of_mem ht) rfl

/-- Where the names fit, the schema is a module. -/
theorem Fit.wellFormed (h : ∀ t ∈ tables, Introspected t) (hfit : Fit ids cases tables) :
    WellFormed ids tables (generateDrizzleSchema cases tables) := by
  have hregular : ∀ t ∈ tables, t.Regular ids cases := fun t ht => (hfit.each t ht).regular
  obtain ⟨list, hreads, hrun⟩ := renders_exports fun t ht =>
    ⟨h t ht, hregular t ht, (hfit.each t ht).toReadable⟩
  have hidentifies : ∀ t ∈ tables, Identifies ids cases t.name :=
    fun t ht => (hfit.each t ht).identifies
  refine ⟨⟨importsOf cases tables, list⟩, ?_, ?_, ?_, List.mem_cons_self, ?_⟩
  · rw [schema_text, Module.tokens, List.append_cons]
    exact (renders_imports (List.cons_ne_nil _ _)
      (fun name hname => (mem_importsOf.mp hname).imported h) _).append hrun
  · intro name hname
    rw [Module.bindings, identifiers_eq hreads] at hname
    rcases List.mem_append.mp hname with himport | hidentifier
    · exact (mem_importsOf.mp himport).binding h
    · obtain ⟨t, ht, rfl⟩ := List.mem_map.mp hidentifier
      exact (camel_binding_iff t.name).mpr ⟨hidentifies t ht, (hfit.each t ht).reserved⟩
  · rw [Module.bindings, identifiers_eq hreads]
    refine List.nodup_append.mpr ⟨nodup_importsOf h, (nodup_identifiers hidentifies).mpr
      hfit.distinct, ?_⟩
    rintro name himport identifier hidentifier rfl
    obtain ⟨t, ht, rfl⟩ := List.mem_map.mp hidentifier
    obtain ⟨words, hwords, himports⟩ :=
      (imports_camel h (hidentifies t ht)).mp (mem_importsOf.mp himport)
    exact hfit.imports t ht words hwords himports
  · refine List.forall₂_iff_zip.mpr ⟨hreads.length_eq, fun {t table} hmem => ?_⟩
    have ht := (List.of_mem_zip hmem).1
    refine (List.forall₂_zip hreads hmem).valid (h t ht) (hregular t ht) (hfit.each t ht)
      (fun name hname => ?_) fun hne => ?_
    · exact mem_importsOf.mpr (Or.inr (Or.inl ⟨t, ht, hname⟩))
    · exact mem_importsOf.mpr (Or.inr (Or.inr ⟨t, ht, hne, rfl⟩))

/-- The schema is a module if the names fit. Where every name can be told in the text, and every
default source stays a comment, it is one only then. -/
theorem generateDrizzleSchema_wellFormed (h : ∀ t ∈ tables, Introspected t) :
    (Fit ids cases tables → WellFormed ids tables (generateDrizzleSchema cases tables)) ∧
      ((∀ t ∈ tables, t.Legible ids cases) →
        WellFormed ids tables (generateDrizzleSchema cases tables) → Fit ids cases tables) :=
  ⟨Fit.wellFormed h, WellFormed.fit h⟩

/-! Tables of ASCII names -/

def asciiIds : IdChars := ⟨fun _ => false, fun _ => false, fun _ _ => rfl⟩

def asciiCase : LowerCase := ⟨fun text => text.map Char.toLower, fun _ _ => rfl⟩

/-- A table of columns that are read from rows. -/
def tableOf (name : String) (rows : List RawColumn) (primaryKey : List Text) : IntrospectedTable :=
  ⟨name.toList, rows.map introspectColumn, primaryKey⟩

theorem introspected_tableOf {name : String} {rows : List RawColumn} {primaryKey : List Text}
    (h : (primaryKey.all fun key => (rows.map (·.col)).contains key) = true) :
    Introspected (tableOf name rows primaryKey) := by
  refine ⟨fun c hc => ?_, fun key hkey => ?_⟩
  · obtain ⟨raw, -, rfl⟩ := List.mem_map.mp hc
    exact ⟨raw, rfl⟩
  · have hmem := List.contains_iff_mem.mp (List.all_eq_true.mp h key hkey)
    rw [tableOf, List.map_map]
    exact hmem

/-- `create table orders (id integer generated by default as identity primary key, placed timestamp
with time zone)` -/
def orders : IntrospectedTable :=
  tableOf "ORDERS" [{ col := "ID".toList, notnull := some 1, ident := some 1, ftype := 8 },
    { col := "PLACED".toList, ftype := 29 }] ["ID".toList]

/-- `create table order_items (order_id integer, line_no smallint, price numeric(9, 2) default 0,
primary key (order_id, line_no))` -/
def orderItems : IntrospectedTable :=
  tableOf "ORDER_ITEMS" [{ col := "ORDER_ID".toList, notnull := some 1, ftype := 8 },
    { col := "LINE_NO".toList, notnull := some 1, ftype := 7 },
    { col := "PRICE".toList, defsrc := some "DEFAULT 0".toList, ftype := 8, fsub := some 1,
      fscale := some (-2), fprec := some 9 }] ["ORDER_ID".toList, "LINE_NO".toList]

theorem generateDrizzleSchema_wellFormed_two : WellFormed asciiIds [orders, orderItems]
    (generateDrizzleSchema asciiCase [orders, orderItems]) := by
  have hintro : ∀ t ∈ [orders, orderItems], Introspected t :=
    List.forall_mem_cons.mpr ⟨introspected_tableOf rfl,
      List.forall_mem_singleton.mpr (introspected_tableOf rfl)⟩
  have hremark : ∀ t ∈ [orders, orderItems], ∀ c ∈ t.columns,
      ∀ source ∈ c.defaultSource, Remark source := by
    have hlines : ([orders, orderItems].all fun t => t.columns.all fun c =>
        c.defaultSource.all fun source => source.all fun c => !Js.isLineEnd c) = true := by
      decide +kernel
    intro t ht c hc source hsource
    have hcolumns := List.all_eq_true.mp (List.all_eq_true.mp hlines t ht) c hc
    rw [hsource] at hcolumns
    exact remark_of_line hcolumns
  have hnames : ∀ t ∈ [orders, orderItems], Pasteable asciiIds asciiCase t.name ∧
      (∀ c ∈ t.columns, Pasteable asciiIds asciiCase c.name) := by decide +kernel
  have hreadable : ∀ t ∈ [orders, orderItems], Identifies asciiIds asciiCase t.name ∧
      (∀ name ∈ t.references, Identifies asciiIds asciiCase name) ∧ Clean '\'' t.name ∧
      (∀ c ∈ t.columns, Clean '\'' c.name) ∧ ¬ IsReserved asciiIds asciiCase t.name ∧
      (t.columns.map fun c => form asciiIds asciiCase c.name).Nodup := by decide +kernel
  have himports : ∀ t ∈ [orders, orderItems], camel asciiCase t.name ∉ imported := by decide +kernel
  refine (generateDrizzleSchema_wellFormed hintro).1 ⟨fun t ht => ?_, by decide +kernel, ?_⟩
  · obtain ⟨hname, hcolumns⟩ := hnames t ht
    obtain ⟨hidentifies, hreferences, hplain, hplains, hreserved, hdistinct⟩ := hreadable t ht
    exact ⟨⟨hidentifies, hreferences, hplain, hplains⟩,
      ⟨hname, fun c hc => ⟨hcolumns c hc, hremark t ht c hc⟩⟩, hreserved, hdistinct⟩
  · intro t ht words hwords hname
    have hcamel := (imports_camel hintro (hreadable t ht).1).mpr ⟨words, hwords, hname⟩
    exact himports t ht (hcamel.imported hintro)

/-- `create table t (a_b integer, a__b integer)`: both keys are `aB`. -/
def clashing : IntrospectedTable :=
  tableOf "T" [{ col := "A_B".toList, ftype := 8 }, { col := "A__B".toList, ftype := 8 }] []

theorem generateDrizzleSchema_clashes :
    ¬ WellFormed asciiIds [clashing] (generateDrizzleSchema asciiCase [clashing]) := by
  intro hw
  have hintro : ∀ t ∈ [clashing], Introspected t :=
    List.forall_mem_singleton.mpr (introspected_tableOf rfl)
  have hnames : Pasteable asciiIds asciiCase clashing.name ∧
      ∀ c ∈ clashing.columns, Pasteable asciiIds asciiCase c.name ∧ c.defaultSource = none := by
    decide +kernel
  have hlegible : ∀ t ∈ [clashing], t.Legible asciiIds asciiCase := by
    refine List.forall_mem_singleton.mpr ⟨Or.inl hnames.1, fun c hc => ?_⟩
    obtain ⟨hname, hsource⟩ := hnames.2 c hc
    refine ⟨Or.inl hname, fun source h => ?_⟩
    rw [hsource] at h
    cases h
  have hdistinct := ((WellFormed.fit hintro hlegible hw).each _ List.mem_cons_self).distinct
  exact absurd hdistinct (by decide +kernel)

end FastFirebird.Drizzle
