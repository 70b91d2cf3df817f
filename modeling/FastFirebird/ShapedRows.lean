import FastFirebird.Pipelines
import FastFirebird.RowShape

/-! When the shaped rows of a batch are usable. -/
namespace FastFirebird

section
variable {codec : Codec} {opts : Options} {query : QueryOptions} {outputs : List SqlVarDesc}
  {mapper : RowMapper}

/-! Columns -/

theorem columnKey_isSome (d : SqlVarDesc) (i : Nat) :
    (columnKey codec opts query d i).isSome = columnKept codec query d i := by
  unfold columnKey
  cases columnKept codec query d i <;> rfl

theorem columnKept_of_key {i : Nat} {d : SqlVarDesc} {key : String} (hd : outputs[i]? = some d)
    (hkey : (columnKeys codec opts query outputs)[i]? = some (some key)) :
    columnKept codec query d i = true := by
  rw [columnKeys, List.getElem?_mapIdx, hd] at hkey
  have hsome : columnKey codec opts query d i = some key := Option.some.inj hkey
  rw [← @columnKey_isSome codec opts query d i, hsome]
  rfl

theorem length_columnKeys : (columnKeys codec opts query outputs).length = outputs.length :=
  List.length_mapIdx

/-- A column that shows is kept. -/
theorem Shows.kept {i : Nat} {d : SqlVarDesc} (h : Shows codec opts query outputs i)
    (hd : outputs[i]? = some d) : columnKept codec query d i = true := by
  rcases h with harray | ⟨key, hkey, _, _⟩
  · rw [columnKept, harray]
    rfl
  · exact columnKept_of_key hd hkey

theorem rowScope_ne_none (tx : Nat) : rowScope codec opts query outputs tx ≠ none ↔
    ∃ (i : Nat) (d : SqlVarDesc), outputs[i]? = some d ∧
      keptBlob codec opts query true d i = true := by
  rw [rowScope, hasKeptLazyBlobs]
  split
  · rename_i hlazy
    exact ⟨fun _ => (any_mapIdx _ _).mp hlazy, fun _ => nofun⟩
  · rename_i hlazy
    exact ⟨fun h => absurd rfl h, fun h => absurd ((any_mapIdx _ _).mpr h) hlazy⟩

theorem map_columnInfo (d : SqlVarDesc) (i : Nat) :
    (columnInfo codec opts query d i).map (·.name) = columnKey codec opts query d i := by
  rw [columnInfo, Option.map_map]
  cases columnKey codec opts query d i <;> rfl

theorem map_filterMap_id {α β : Type} (f : α → β) (l : List (Option α)) :
    (l.filterMap id).map f = (l.map (Option.map f)).filterMap id := by
  rw [List.map_filterMap, List.filterMap_map]
  rfl

/-- The reported columns bear the keys of the kept ones, in order. -/
theorem rowColumns_names :
    (rowColumns codec opts query outputs).map (·.name) = keptNames codec opts query outputs := by
  have hkeys : (outputs.mapIdx fun i d => columnInfo codec opts query d i).map
      (Option.map (·.name)) = columnKeys codec opts query outputs := by
    apply List.ext_getElem?
    intro i
    rw [List.getElem?_map, List.getElem?_mapIdx, columnKeys, List.getElem?_mapIdx, Option.map_map]
    apply congrArg (fun f => Option.map f outputs[i]?)
    funext d
    exact map_columnInfo d i
  rw [rowColumns, map_filterMap_id, hkeys]
  rfl

theorem length_rowColumns (h : query.arrayMode = true) :
    (rowColumns codec opts query outputs).length = outputs.length := by
  have hnames : (rowColumns codec opts query outputs).length =
      (keptNames codec opts query outputs).length := by
    rw [← rowColumns_names, List.length_map]
  have hall : ∀ key ∈ columnKeys codec opts query outputs, (id key).isSome = true := by
    intro key hkey
    obtain ⟨i, hi, rfl⟩ := List.mem_mapIdx.mp hkey
    rw [id, columnKey_isSome, columnKept, h]
    rfl
  rw [hnames, keptNames, List.length_filterMap_eq_countP, List.countP_eq_length.mpr hall,
    length_columnKeys]

/-! Cells -/

theorem DecodedRow.column {row : Row} (h : DecodedRow outputs row) {i : Nat} {v : Value}
    (hv : row[i]? = some v) : ∃ d, outputs[i]? = some d ∧ CellOf d v := by
  have hlt : i < outputs.length := h.length ▸ (List.getElem?_eq_some_iff.mp hv).1
  have hd : outputs[i]? = some outputs[i] := List.getElem?_eq_getElem hlt
  exact ⟨outputs[i], hd, h.cells i _ v hd hv⟩

theorem DecodedRow.cons {d : SqlVarDesc} {v : Value} {row : Row} (hv : CellOf d v)
    (h : DecodedRow outputs row) : DecodedRow (d :: outputs) (v :: row) := by
  refine ⟨congrArg Nat.succ h.length, fun i e w he hw => ?_⟩
  cases i with
  | zero =>
    obtain rfl := Option.some.inj he
    obtain rfl := Option.some.inj hw
    exact hv
  | succ i => exact h.cells i e w he hw

/-- `readRow` yields decoded rows, if the readers are those of the columns. -/
theorem decodeRow_decoded {readers : List ColumnReader}
    (h : List.Forall₂ (fun d reader => ∀ bytes v, reader bytes = .ok v → CellOf d v)
      outputs readers) : ∀ {cells : List (Option Bytes)} {row : Row},
        cells.length = readers.length → decodeRow readers cells = .ok row →
          DecodedRow outputs row := by
  induction h with
  | nil =>
    intro cells row _ hrow
    rw [decodeRow] at hrow
    · obtain rfl := Except.ok.inj hrow
      exact ⟨rfl, fun _ _ _ hd => nomatch hd⟩
    · exact nofun
    · exact nofun
  | @cons d reader ds readers hreader _ ih =>
    intro cells row hlength hrow
    cases cells with
    | nil => cases hlength
    | cons cell cells =>
      have hrest := Nat.succ.inj hlength
      cases cell with
      | none =>
        rw [decodeRow] at hrow
        cases hcells : decodeRow readers cells with
        | error e =>
          rw [hcells] at hrow
          cases hrow
        | ok rest =>
          rw [hcells] at hrow
          obtain rfl := Except.ok.inj hrow
          exact DecodedRow.cons trivial (ih hrest hcells)
      | some bytes =>
        rw [decodeRow] at hrow
        cases hread : reader bytes with
        | error e =>
          rw [hread] at hrow
          cases hrow
        | ok v =>
          rw [hread] at hrow
          cases hcells : decodeRow readers cells with
          | error e =>
            rw [hcells] at hrow
            cases hrow
          | ok rest =>
            rw [hcells] at hrow
            obtain rfl := Except.ok.inj hrow
            exact DecodedRow.cons (hreader bytes v hread) (ih hrest hcells)

theorem CellOf.type {d : SqlVarDesc} {v : Value} (h : CellOf d v) (hv : v.isRef = true) :
    d.type = SqlType.blob ∨ d.type = SqlType.quad ∨ d.type = SqlType.array := by
  cases v with
  | null | scalar => cases hv
  | blobRef id subType =>
    have ⟨htype, _, _⟩ := h
    rw [isRefType, Bool.or_eq_true, Bool.or_eq_true, beq_iff_eq, beq_iff_eq, beq_iff_eq,
      or_assoc] at htype
    exact htype

/-- In a column of references, what is not null is one. -/
theorem CellOf.isRef {d : SqlVarDesc} {v : Value} (h : CellOf d v) (hd : isRefType d.type = true)
    (hv : v ≠ .null) : v.isRef = true := by
  cases v with
  | null => exact absurd rfl hv
  | blobRef => rfl
  | scalar =>
    have hnot : isRefType d.type = false := h
    rw [hd] at hnot
    cases hnot

theorem isRefType_array {d : SqlVarDesc} (h : d.type = SqlType.quad ∨ d.type = SqlType.array) :
    isRefType d.type = true := by
  rcases h with h | h
  · rw [h]; rfl
  · rw [h]; rfl

theorem blob_not_array {d : SqlVarDesc} (h : d.type = SqlType.quad ∨ d.type = SqlType.array) :
    d.type ≠ SqlType.blob := by
  rcases h with h | h
  · rw [h]; decide
  · rw [h]; decide

theorem takes_iff (h : MapperOf codec opts query outputs mapper) {i : Nat} {d : SqlVarDesc}
    (hd : outputs[i]? = some d) (v : Value) : mapper.takes i v = true ↔
      v.isRef = true ∧ columnKept codec query d i = true ∧
        columnLazy codec opts query d i = false := by
  cases v with
  | null | scalar => exact ⟨nofun, fun h => nomatch h.1⟩
  | blobRef id subType =>
    rw [RowMapper.takes, h.eager_eq hd, Bool.and_eq_true, Bool.not_eq_true']
    exact ⟨fun h => ⟨rfl, h⟩, fun h => h.2⟩

theorem keptBlob_false_iff (h : MapperOf codec opts query outputs mapper) :
    mapper.hasKeptEagerBlobs = false ↔ ∀ (i : Nat) (d : SqlVarDesc), outputs[i]? = some d →
      keptBlob codec opts query false d i = false := by
  rw [← Bool.not_eq_true, h.eager]
  constructor
  · intro hnone i d hd
    exact Bool.eq_false_iff.mpr fun hkept => hnone ⟨i, d, hd, hkept⟩
  · rintro hnone ⟨i, d, hd, hkept⟩
    rw [hnone i d hd] at hkept
    cases hkept

end

/-! What a shaped row consists of -/

section
variable {codec : Codec} {opts : Options} {query : QueryOptions} {outputs : List SqlVarDesc}
  {mapper : RowMapper}

theorem mem_cells (h : MapperOf codec opts query outputs mapper) (scope : Option BlobScope)
    {row : Row} (hlength : row.length = outputs.length) (cell : Shaped) :
    cell ∈ (mapper.shape scope query.arrayMode row).cells ↔ ∃ i v,
      Shows codec opts query outputs i ∧ row[i]? = some v ∧ cell = mapper.wrap scope i v := by
  rw [RowMapper.shape]
  cases harray : query.arrayMode with
  | true =>
    rw [if_pos rfl, ShapedRow.cells, List.mem_mapIdx]
    constructor
    · rintro ⟨i, hi, rfl⟩
      exact ⟨i, row[i], Or.inl harray, List.getElem?_eq_getElem hi, rfl⟩
    · rintro ⟨i, v, _, hv, rfl⟩
      obtain ⟨hi, rfl⟩ := List.getElem?_eq_some_iff.mp hv
      exact ⟨i, hi, rfl⟩
  | false =>
    rw [if_neg Bool.false_ne_true, ShapedRow.cells, List.mem_map, h.keys]
    have hcells (i : Nat) (key : String) (v : Value) :
        ((columnKeys codec opts query outputs).zip row)[i]? = some (some key, v) ↔
          (columnKeys codec opts query outputs)[i]? = some (some key) ∧ row[i]? = some v :=
      List.getElem?_zip_eq_some
    constructor
    · rintro ⟨p, hp, rfl⟩
      obtain ⟨i, v, hi, hcell, hproto, hlater⟩ := (RowMapper.mem_objectOf _ _).mp hp
      have ⟨hkey, hv⟩ := (hcells i p.1 v).mp hi
      refine ⟨i, v, Or.inr ⟨p.1, hkey, hproto, fun j hj hagain => ?_⟩, hv, hcell⟩
      -- the row is as long as the keys, so that a later column has a cell too
      have hlt : j < row.length := by
        rw [hlength, ← @length_columnKeys codec opts query outputs]
        exact (List.getElem?_eq_some_iff.mp hagain).1
      exact hlater j row[j] hj ((hcells j p.1 _).mpr ⟨hagain, List.getElem?_eq_getElem hlt⟩)
    · rintro ⟨i, v, hshows, hv, rfl⟩
      rcases hshows with htrue | ⟨key, hkey, hproto, hlater⟩
      · rw [harray] at htrue
        cases htrue
      · refine ⟨(key, mapper.wrap scope i v), ?_, rfl⟩
        refine (RowMapper.mem_objectOf _ _).mpr
          ⟨i, v, (hcells i key v).mpr ⟨hkey, hv⟩, rfl, hproto, fun j w hj hagain => ?_⟩
        exact hlater j hj ((hcells j key w).mp hagain).1

theorem wrap_usable (scope : Option BlobScope) (i : Nat) (v : Value) :
    (mapper.wrap scope i v).Usable ↔ (v.isRef = true → scope ≠ none) := by
  cases v with
  | null | scalar => exact ⟨fun _ => nofun, fun _ => trivial⟩
  | blobRef id subType => exact ⟨fun h _ => h, fun h => h rfl⟩

/-- The cells of a shaped row can be used if its references come with a scope. -/
theorem cells_usable_iff (h : MapperOf codec opts query outputs mapper) (scope : Option BlobScope)
    {row : Row} (hlength : row.length = outputs.length) :
    (∀ cell ∈ (mapper.shape scope query.arrayMode row).cells, cell.Usable) ↔
      ∀ (i : Nat) (v : Value), Shows codec opts query outputs i → row[i]? = some v →
        v.isRef = true → scope ≠ none := by
  constructor
  · intro husable i v hshows hv
    have hmem := (mem_cells h scope hlength _).mpr ⟨i, v, hshows, hv, rfl⟩
    exact (wrap_usable scope i v).mp (husable _ hmem)
  · intro hscope cell hcell
    obtain ⟨i, v, hshows, hv, rfl⟩ := (mem_cells h scope hlength cell).mp hcell
    exact (wrap_usable scope i v).mpr (hscope i v hshows hv)

theorem not_mem_proto (scope : Option BlobScope) (cells : List (Option String × Value)) :
    "__proto__" ∉ (mapper.objectOf scope cells).map (·.1) := by
  intro hmem
  obtain ⟨p, hp, hkey⟩ := List.mem_map.mp hmem
  obtain ⟨_, _, _, _, hne, _⟩ := (RowMapper.mem_objectOf cells p).mp hp
  exact hne hkey

/-- The reported columns are a row's positions, or its keys if no kept column is `__proto__`. -/
theorem columns_iff (h : MapperOf codec opts query outputs mapper) (scope : Option BlobScope)
    {row : Row} (hlength : row.length = outputs.length) :
    (match mapper.shape scope query.arrayMode row with
      | .array cells => (rowColumns codec opts query outputs).length = cells.length
      | .object props => (keptNames codec opts query outputs).Nodup →
        (props.map (·.1)).Perm ((rowColumns codec opts query outputs).map (·.name))) ↔
      query.arrayMode = true ∨ ¬ (keptNames codec opts query outputs).Nodup ∨
        "__proto__" ∉ keptNames codec opts query outputs := by
  rw [RowMapper.shape]
  cases harray : query.arrayMode with
  | true =>
    rw [if_pos rfl]
    refine iff_of_true ?_ (Or.inl rfl)
    dsimp only
    rw [length_rowColumns harray, List.length_mapIdx, hlength]
  | false =>
    rw [if_neg Bool.false_ne_true, h.keys, rowColumns_names]
    dsimp only
    have hkeys : ((columnKeys codec opts query outputs).zip row).map (·.1) =
        columnKeys codec opts query outputs :=
      List.map_fst_zip (Nat.le_of_eq (length_columnKeys.trans hlength.symm))
    constructor
    · intro hperm
      by_cases hnodup : (keptNames codec opts query outputs).Nodup
      · refine Or.inr (Or.inr fun hproto => ?_)
        exact not_mem_proto scope _ ((hperm hnodup).mem_iff.mpr hproto)
      · exact Or.inr (Or.inl hnodup)
    · rintro (hfalse | hrepeats | hproto) hnodup
      · cases hfalse
      · exact absurd hnodup hrepeats
      · have hobject := @RowMapper.objectOf_keys mapper scope
          ((columnKeys codec opts query outputs).zip row)
        rw [hkeys] at hobject
        rw [hobject hnodup hproto]
        exact List.Perm.refl _

end

/-! Batches -/

section
variable {link : Link} {codec : Codec} {opts : Options} {query : QueryOptions}
  {outputs : List SqlVarDesc} {mapper : RowMapper} {fuel tx : Nat} {rows : List Row} {c : Conn}

/-- Unless no column is eager, an array that comes along would be looked up too. -/
theorem looked_iff (h : MapperOf codec opts query outputs mapper)
    (hrows : ∀ row ∈ rows, DecodedRow outputs row) :
    (∀ row ∈ rows, ∀ (i : Nat) (d : SqlVarDesc) (v : Value), outputs[i]? = some d →
      row[i]? = some v → ((mapper.hasKeptEagerBlobs = true ∧ mapper.takes i v = true) ↔
        keptBlob codec opts query false d i = true ∧ v.isRef = true)) ↔
      NoArrays codec query outputs (fun _ => True) rows ∨ mapper.hasKeptEagerBlobs = false := by
  constructor
  · intro hlooked
    by_cases heager : mapper.hasKeptEagerBlobs = false
    · exact Or.inr heager
    · left
      intro row hrow i d v hd hv hkept _ htype
      by_contra hne
      have href := ((hrows row hrow).cells i d v hd hv).isRef (isRefType_array htype) hne
      have hlazy : columnLazy codec opts query d i = false :=
        Bool.eq_false_iff.mpr fun hlazy => blob_not_array htype (columnLazy_blob hlazy)
      have htakes := (takes_iff h hd v).mpr ⟨href, hkept, hlazy⟩
      have ⟨hblob, _⟩ := (hlooked row hrow i d v hd hv).mp
        ⟨(Bool.not_eq_false _).mp heager, htakes⟩
      exact blob_not_array htype ((keptBlob_iff false d i).mp hblob).2.1
  · intro hfit row hrow i d v hd hv
    constructor
    · rintro ⟨heager, htakes⟩
      have ⟨href, hkept, hlazy⟩ := (takes_iff h hd v).mp htakes
      refine ⟨(keptBlob_iff false d i).mpr ⟨hkept, ?_, hlazy⟩, href⟩
      rcases ((hrows row hrow).cells i d v hd hv).type href with hblob | harray
      · exact hblob
      · rcases hfit with hnone | hfalse
        · have hnull := hnone row hrow i d v hd hv hkept trivial harray
          rw [hnull] at href
          cases href
        · rw [heager] at hfalse
          cases hfalse
    · rintro ⟨hblob, href⟩
      have ⟨hkept, _, hlazy⟩ := (keptBlob_iff false d i).mp hblob
      exact ⟨h.eager.mpr ⟨i, d, hd, hblob⟩, (takes_iff h hd v).mpr ⟨href, hkept, hlazy⟩⟩

theorem mapM_getElem {α β ε : Type} {f : α → Except ε β} : ∀ {l : List α} {l' : List β},
    l.mapM f = .ok l' → ∀ {i : Nat} {a : α}, l[i]? = some a → ∃ b, f a = .ok b ∧ l'[i]? = some b := by
  intro l
  induction l with
  | nil =>
    intro l' _ i a ha
    cases ha
  | cons x l ih =>
    intro l' h i a ha
    rw [List.mapM_cons] at h
    cases hx : f x with
    | error e =>
      rw [hx] at h
      cases h
    | ok y =>
      cases hl : l.mapM f with
      | error e =>
        rw [hx, hl] at h
        cases h
      | ok ys =>
        rw [hx, hl] at h
        obtain rfl := Except.ok.inj h
        cases i with
        | zero =>
          obtain rfl := Option.some.inj ha
          exact ⟨y, hx, rfl⟩
        | succ i => exact ih hl ha

/-- The mapper decodes a cell as its column does. -/
theorem decodeCell_eq (h : MapperOf codec opts query outputs mapper) {i : Nat} {d : SqlVarDesc}
    (hd : outputs[i]? = some d) (data : Bytes) :
    mapper.decodeCell i d.subType data = blobCell codec d data := by
  obtain ⟨decode, hcodec, hcolumn⟩ := mapM_getElem h.blobCodec hd
  rw [RowMapper.decodeCell, blobCell, hcodec, List.getD_eq_getElem?_getD, hcolumn, Option.getD_some]
  cases decode with
  | none => rfl
  | some decode =>
    have htext : d.subType = 1 := by
      by_contra hne
      rw [columnBlobCodec, if_neg fun h => hne h.2] at hcodec
      cases hcodec
    dsimp only
    rw [if_pos htext]
    rfl

/-- What the mapper puts into a cell is what belongs there, if it looks up the right cells. -/
theorem filledCell (h : MapperOf codec opts query outputs mapper) {content : Bytes → Bytes} {i : Nat}
    {d : SqlVarDesc} {v v' : Value} (hd : outputs[i]? = some d) (hcell : CellOf d v)
    (hlooked : mapper.takes i v = true ↔ keptBlob codec opts query false d i = true ∧ v.isRef = true)
    (hfilled : mapper.CellFilled content i v v') : FilledCell codec opts query content d i v v' := by
  unfold FilledCell
  cases v with
  | null | scalar =>
    split
    · exact hfilled
    · exact hfilled
  | blobRef id subType =>
    rw [RowMapper.CellFilled] at hfilled
    split
    · rename_i hkept
      have htakes : mapper.eager i = true := hlooked.mpr ⟨hkept, rfl⟩
      rw [htakes, if_pos rfl, hcell.2.1, decodeCell_eq h hd] at hfilled
      exact hfilled
    · rename_i hkept
      have hstays : mapper.eager i = false :=
        Bool.eq_false_iff.mpr fun htakes => hkept (hlooked.mp htakes).1
      rwa [hstays, if_neg Bool.false_ne_true] at hfilled

theorem filledRow {content : Bytes → Bytes} : ∀ {row row' : Row} {i : Nat} {columns : List SqlVarDesc},
    row.length = columns.length → mapper.RowFilled content i row row' →
      (∀ (j : Nat) (d : SqlVarDesc) (v v' : Value), columns[j]? = some d → row[j]? = some v →
        mapper.CellFilled content (i + j) v v' → FilledCell codec opts query content d (i + j) v v') →
      FilledRow codec opts query content i columns row row' := by
  intro row
  induction row with
  | nil =>
    intro row' i columns hlength hfilled _
    obtain rfl := List.length_eq_zero_iff.mp hlength.symm
    exact hfilled
  | cons v row ih =>
    intro row' i columns hlength hfilled hcells
    cases columns with
    | nil => cases hlength
    | cons d columns =>
      obtain ⟨v', rest, rfl, hcell, hrest⟩ := hfilled
      refine ⟨v', rest, rfl, hcells 0 d v v' rfl rfl hcell, ih (Nat.succ.inj hlength) hrest ?_⟩
      intro j d' w w' hd' hw hfilled
      have hmore := hcells (j + 1) d' w w' hd' hw
      rw [← Nat.add_assoc, Nat.add_right_comm] at hmore
      exact hmore hfilled

theorem forall₂_mem {α β : Type} {R S : α → β → Prop} {l : List α} {l' : List β}
    (h : List.Forall₂ R l l') (hRS : ∀ a ∈ l, ∀ b, R a b → S a b) : List.Forall₂ S l l' := by
  induction h with
  | nil => exact .nil
  | @cons a b l l' hab _ ih =>
    exact .cons (hRS a List.mem_cons_self b hab) (ih fun a' ha' => hRS a' (List.mem_cons_of_mem _ ha'))

theorem filledRow_idle {content : Bytes → Bytes} : ∀ {row : Row} {i : Nat} {columns : List SqlVarDesc},
    (∀ (j : Nat) (d : SqlVarDesc), columns[j]? = some d → keptBlob codec opts query false d (i + j) = false) →
      FilledRow codec opts query content i columns row row := by
  intro row
  induction row with
  | nil =>
    intro i columns _
    cases columns <;> rfl
  | cons v row ih =>
    intro i columns hidle
    cases columns with
    | nil => rfl
    | cons d columns =>
      refine ⟨v, row, rfl, ?_, ih fun j d' hd' => ?_⟩
      · have hstays : keptBlob codec opts query false d i = false := hidle 0 d rfl
        unfold FilledCell
        rw [hstays, if_neg Bool.false_ne_true]
      · rw [Nat.add_right_comm, Nat.add_assoc]
        exact hidle (j + 1) d' hd'

/-- A kept reference that is not materialized belongs to a lazy BLOB column, or it is an array. -/
theorem lazy_or_array (h : MapperOf codec opts query outputs mapper) {row : Row}
    (hrow : DecodedRow outputs row) {i : Nat} {d : SqlVarDesc} {v : Value}
    (hd : outputs[i]? = some d) (hv : row[i]? = some v)
    (hkept : columnKept codec query d i = true) (href : v.isRef = true)
    (hstays : mapper.hasKeptEagerBlobs = false ∨ mapper.eager i = false) :
    keptBlob codec opts query true d i = true ∨ d.type = SqlType.quad ∨ d.type = SqlType.array := by
  rcases (hrow.cells i d v hd hv).type href with hblob | harray
  · left
    refine (keptBlob_iff true d i).mpr ⟨hkept, hblob, ?_⟩
    by_contra hlazy
    have hlazy := Bool.eq_false_iff.mpr hlazy
    rcases hstays with hnone | heager
    · have hfalse := (keptBlob_false_iff h).mp hnone i d hd
      rw [(keptBlob_iff false d i).mpr ⟨hkept, hblob, hlazy⟩] at hfalse
      cases hfalse
    · rw [h.eager_eq hd, hkept, hlazy] at heager
      cases heager
  · exact Or.inr harray

/-- No array among the cells that show: every reference that is left has a scope. -/
theorem usable_of_noArrays (h : MapperOf codec opts query outputs mapper)
    (hrows : ∀ row ∈ rows, DecodedRow outputs row)
    (hnone : NoArrays codec query outputs (Shows codec opts query outputs) rows)
    {row row' : Row} (hrow : row ∈ rows) (hlength : row'.length = row.length)
    (hrefs : ∀ (i : Nat) (v : Value), row'[i]? = some v → v.isRef = true → row[i]? = some v ∧
      (mapper.hasKeptEagerBlobs = false ∨ mapper.eager i = false)) :
    ∀ cell ∈ (mapper.shape (rowScope codec opts query outputs tx) query.arrayMode row').cells,
      cell.Usable := by
  have hdecoded := hrows row hrow
  apply (cells_usable_iff h _ (hlength.trans hdecoded.length)).mpr
  intro i v hshows hv' href
  have ⟨hv, hstays⟩ := hrefs i v hv' href
  obtain ⟨d, hd, _⟩ := hdecoded.column hv
  have hkept := hshows.kept hd
  rcases lazy_or_array h hdecoded hd hv hkept href hstays with hlazy | harray
  · exact (rowScope_ne_none tx).mpr ⟨i, d, hd, hlazy⟩
  · have hnull := hnone row hrow i d v hd hv hkept hshows harray
    rw [hnull] at href
    cases href

theorem NoArrays.mono {P Q : Nat → Prop} (h : NoArrays codec query outputs P rows)
    (hle : ∀ i, Q i → P i) : NoArrays codec query outputs Q rows :=
  fun row hrow i d v hd hv hkept hq => h row hrow i d v hd hv hkept (hle i hq)

/-- With nothing to materialize, the rows are shaped as they came. -/
theorem usable_idle_iff (h : MapperOf codec opts query outputs mapper)
    (hrows : ∀ row ∈ rows, DecodedRow outputs row) (hidle : mapper.hasKeptEagerBlobs = false) :
    (∀ row ∈ rows, ∀ cell ∈ (mapper.shape (rowScope codec opts query outputs tx) query.arrayMode
      row).cells, cell.Usable) ↔
      ((∃ (i : Nat) (d : SqlVarDesc), outputs[i]? = some d ∧
          keptBlob codec opts query true d i = true) ∨
        NoArrays codec query outputs (Shows codec opts query outputs) rows) := by
  constructor
  · intro husable
    by_cases hlazy : ∃ (i : Nat) (d : SqlVarDesc), outputs[i]? = some d ∧
        keptBlob codec opts query true d i = true
    · exact Or.inl hlazy
    · right
      intro row hrow i d v hd hv hkept hshows htype
      by_contra hne
      have hdecoded := hrows row hrow
      have href := (hdecoded.cells i d v hd hv).isRef (isRefType_array htype) hne
      have hscope := (cells_usable_iff h _ hdecoded.length).mp (husable row hrow) i v hshows hv href
      exact hlazy ((rowScope_ne_none tx).mp hscope)
  · rintro (hlazy | hnone) row hrow
    · apply (cells_usable_iff h _ (hrows row hrow).length).mpr
      intro i v _ _ _
      exact (rowScope_ne_none tx).mpr hlazy
    · exact usable_of_noArrays h hrows hnone hrow rfl fun i v hv _ => ⟨hv, Or.inl hidle⟩

/-- `shape` yields usable rows if and only if no array is taken for a BLOB, and no key for the
prototype. -/
theorem shape_usable_iff (hmapper : rowMapper codec opts query outputs = .ok mapper)
    (hrows : ∀ row ∈ rows, DecodedRow outputs row) :
    UsableRows link codec opts query outputs mapper fuel tx rows c ↔
      FitRows codec opts query outputs rows := by
  have h := mapperOf hmapper
  constructor
  · intro husable
    refine ⟨?_, ?_⟩
    · rcases (looked_iff h hrows).mp husable.looked with hnone | hidle
      · exact Or.inl hnone
      · have hcells := husable.usable rows _ (RowMapper.materialize_idle hidle)
        exact Or.inr ⟨(keptBlob_false_iff h).mp hidle, (usable_idle_iff h hrows hidle).mp hcells⟩
    · cases rows with
      | nil => exact Or.inl rfl
      | cons row rest =>
        have hlength := (hrows row List.mem_cons_self).length
        exact Or.inr ((columns_iff h _ hlength).mp (husable.columns row List.mem_cons_self))
  · intro hfit
    have hlooked := (looked_iff h hrows).mpr (hfit.arrays.imp_right fun ⟨hidle, _⟩ =>
      (keptBlob_false_iff h).mpr hidle)
    refine ⟨hlooked, ?_, ?_, ?_, ?_⟩
    · intro rows' c' hrun
      cases heager : mapper.hasKeptEagerBlobs with
      | true =>
        rw [if_pos rfl]
        exact RowMapper.materialize_filled heager hrun
      | false =>
        rw [if_neg Bool.false_ne_true]
        rw [RowMapper.materialize_idle heager] at hrun
        exact (Outcome.ok.inj (Prod.mk.inj hrun).1).symm
    · intro hu hsync segs content hcontent hinline rows' c' hrun hstored
      have hfilled := materialize_kept hu hcontent hsync (Nat.le_refl _) hrun hstored hinline
      rw [RowMapper.RowsFilled] at hfilled
      cases heager : mapper.hasKeptEagerBlobs with
      | true =>
        rw [heager, if_pos rfl] at hfilled
        refine forall₂_mem hfilled fun row hrow row' hrow' => ?_
        have hdecoded := hrows row hrow
        refine filledRow hdecoded.length hrow' fun i d v v' hd hv hcell => ?_
        rw [Nat.zero_add] at hcell ⊢
        have hcells := hlooked row hrow i d v hd hv
        rw [heager] at hcells
        exact filledCell h hd (hdecoded.cells i d v hd hv) ⟨fun ht => hcells.mp ⟨rfl, ht⟩,
          fun hk => (hcells.mpr hk).2⟩ hcell
      | false =>
        rw [heager, if_neg Bool.false_ne_true] at hfilled
        rw [hfilled]
        refine List.forall₂_same.mpr fun row _ => filledRow_idle fun j d hd => ?_
        rw [Nat.zero_add]
        exact (keptBlob_false_iff h).mp heager j d hd
    · intro rows' c' hrun
      cases heager : mapper.hasKeptEagerBlobs with
      | false =>
        rw [RowMapper.materialize_idle heager] at hrun
        obtain rfl := Outcome.ok.inj (Prod.mk.inj hrun).1
        apply (usable_idle_iff h hrows heager).mpr
        rcases hfit.arrays with hnone | ⟨_, hscope⟩
        · exact Or.inr (hnone.mono fun _ _ => trivial)
        · exact hscope
      | true =>
        have hnone : NoArrays codec query outputs (fun _ => True) rows := by
          rcases hfit.arrays with hnone | ⟨hidle, _⟩
          · exact hnone
          · rw [(keptBlob_false_iff h).mpr hidle] at heager
            cases heager
        obtain ⟨datas, hfilled⟩ := RowMapper.materialize_filled heager hrun
        intro row' hrow'
        obtain ⟨row, hrow, hlength, hrefs⟩ := mapper.fillRows_ref rows hfilled.fills row' hrow'
        refine usable_of_noArrays h hrows (hnone.mono fun _ _ => trivial) hrow hlength ?_
        intro i v hv href
        cases v with
        | null | scalar => cases href
        | blobRef id subType =>
          have ⟨hsame, hstays⟩ := hrefs i id subType hv
          exact ⟨hsame, Or.inr hstays⟩
    · intro row hrow
      apply (columns_iff h _ (hrows row hrow).length).mpr
      rcases hfit.proto with rfl | hproto
      · exact absurd hrow List.not_mem_nil
      · exact hproto

end

/-- A column `A` of some type. -/
def columnA (type : Nat) : SqlVarDesc :=
  { type, nullable := true, subType := 0, scale := 0, length := 8, aliasName := some "A" }

/-- What `columnA` decodes to where the type shares the wire format of blobs. -/
def refA : Row := [.blobRef [0, 0, 0, 1, 0, 0, 0, 2] 0]

def mapperA (eager : Bool) : RowMapper where
  keys := [some "A"]
  lazyCol := [false]
  blobCodec := [none]
  hasKeptEagerBlobs := eager

theorem decoded_refA {type : Nat} (h : isRefType type = true) :
    DecodedRow [columnA type] refA := by
  refine ⟨rfl, fun i d v hd hv => ?_⟩
  cases i with
  | zero =>
    obtain rfl := Option.some.inj hd
    obtain rfl := Option.some.inj hv
    exact ⟨h, rfl, rfl⟩
  | succ i => cases hd

/-- A column `B` whose blobs are lazy, behind an eager one. -/
def columnB : SqlVarDesc := { columnA SqlType.blob with aliasName := some "B" }

def lazyB : QueryOptions := { blobs := some (.columns none [] ["B"]) }

def mapperB : RowMapper where
  keys := [some "A", some "B"]
  lazyCol := [false, true]
  blobCodec := [none, none]
  hasKeptEagerBlobs := true

def rowsB : List Row :=
  [[.blobRef [0, 0, 0, 1, 0, 0, 0, 2] 0, .blobRef [0, 0, 0, 1, 0, 0, 0, 3] 0],
    [.null, .blobRef [0, 0, 0, 1, 0, 0, 0, 4] 0]]

theorem decoded_rowsB : ∀ row ∈ rowsB, DecodedRow [columnA SqlType.blob, columnB] row := by
  intro row hrow
  have hcells : ∀ row ∈ rowsB, row.length = 2 ∧
      ∀ v ∈ row, v = .null ∨ ∃ id, v = .blobRef id 0 ∧ id.length = 8 := by
    simp [rowsB]
  obtain ⟨hlength, hall⟩ := hcells row hrow
  refine ⟨hlength, fun i d v hd hv => ?_⟩
  have hcolumn : d.type = SqlType.blob ∧ d.subType = 0 := by
    rcases List.mem_cons.mp (List.mem_of_getElem? hd) with rfl | hd'
    · exact ⟨rfl, rfl⟩
    · obtain rfl := List.mem_singleton.mp hd'
      exact ⟨rfl, rfl⟩
  rcases hall v (List.mem_of_getElem? hv) with rfl | ⟨id, rfl, hid⟩
  · trivial
  · refine ⟨?_, hcolumn.2.symm, hid⟩
    rw [hcolumn.1]
    rfl

/-- Two rows with an eager blob, a null and two lazy blobs are usable. -/
theorem shape_usable_blob : UsableRows accepting plainCodec {} lazyB
    [columnA SqlType.blob, columnB] mapperB 8 1 rowsB fresh := by
  refine Iff.mpr (shape_usable_iff (by rfl) decoded_rowsB) ⟨Or.inl ?_, ?_⟩
  · intro row hrow i d v hd _ _ _ htype
    have hblob : d.type = SqlType.blob := by
      rcases List.mem_cons.mp (List.mem_of_getElem? hd) with rfl | hd'
      · rfl
      · obtain rfl := List.mem_singleton.mp hd'
        rfl
    rw [hblob] at htype
    rcases htype with htype | htype <;> cases htype
  · exact Or.inr (Or.inr (Or.inr (by decide)))

/-- An array that comes alone turns into a blob that has no scope. -/
theorem array_unscoped : rowMapper plainCodec {} {} [columnA SqlType.array] = .ok (mapperA false) ∧
    DecodedRow [columnA SqlType.array] refA ∧
      ¬ UsableRows accepting plainCodec {} {} [columnA SqlType.array] (mapperA false) 8 1
        [refA] fresh := by
  refine ⟨by rfl, decoded_refA rfl, fun husable => ?_⟩
  have hcells := husable.usable [refA] _ rfl refA List.mem_cons_self
    (.blob ⟨[0, 0, 0, 1, 0, 0, 0, 2], 0, none, none⟩)
  exact hcells List.mem_cons_self rfl

end FastFirebird
