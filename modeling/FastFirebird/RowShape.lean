import FastFirebird.BlobContents
import Mathlib.Data.List.Induction
import Mathlib.Data.List.Nodup

/-! The rows that a run returns: `RowMapper.shape`, and what it should yield after `materialize`. -/
namespace FastFirebird

/-- What a lazy blob reads with; the wire, the lock and the liveness are the run's. -/
structure BlobScope where
  txHandle : Nat
  chunkSize : Nat
  deriving Repr, DecidableEq

/-- A `Blob` of a shaped row. The source asserts that its scope is there. -/
structure BlobHandle where
  id : Bytes
  subType : Int
  scope : Option BlobScope
  textCodec : Option (Bytes → Except FirebirdError Bytes)

inductive Shaped where
  | plain (v : Value)
  | blob (b : BlobHandle)

inductive ShapedRow where
  | array (cells : List Shaped)
  | object (props : List (String × Shaped))

structure ColumnInfo where
  name : String
  field : Option String
  relation : Option String
  type : String
  nullable : Bool
  deriving Repr, DecidableEq

def sqlTypeNames : List (Nat × String) :=
  [(SqlType.text, "CHAR"), (SqlType.varying, "VARCHAR"), (SqlType.short, "SMALLINT"),
    (SqlType.long, "INTEGER"), (SqlType.float, "FLOAT"), (480, "DOUBLE PRECISION"),
    (530, "DOUBLE PRECISION"), (510, "TIMESTAMP"), (SqlType.blob, "BLOB"), (SqlType.array, "ARRAY"),
    (SqlType.quad, "QUAD"), (560, "TIME"), (570, "DATE"), (580, "BIGINT"),
    (SqlType.int128, "INT128"), (32754, "TIMESTAMP WITH TIME ZONE"),
    (32748, "TIMESTAMP WITH TIME ZONE"), (32756, "TIME WITH TIME ZONE"),
    (32750, "TIME WITH TIME ZONE"), (SqlType.dec16, "DECFLOAT(16)"), (SqlType.dec34, "DECFLOAT(34)"),
    (32764, "BOOLEAN"), (SqlType.null, "NULL")]

def sqlTypeName (d : SqlVarDesc) : String :=
  if d.scale < 0 ∧ (d.type = SqlType.short ∨ d.type = SqlType.long ∨ d.type = 580 ∨
      d.type = SqlType.int128) then
    if d.subType = 2 then "DECIMAL" else "NUMERIC"
  else if d.type = SqlType.blob ∧ d.subType = 1 then "BLOB SUB_TYPE TEXT"
  else (sqlTypeNames.lookup d.type).getD ("SQL_TYPE_" ++ toString d.type)

section
variable (codec : Codec) (opts : Options) (query : QueryOptions) (outputs : List SqlVarDesc)

def columnInfo (d : SqlVarDesc) (i : Nat) : Option ColumnInfo :=
  (columnKey codec opts query d i).map fun key =>
    { name := key
      field := d.field
      relation := d.relation
      type := sqlTypeName d
      nullable := d.nullable }

/-- `columns` -/
def rowColumns : List ColumnInfo := (outputs.mapIdx fun i d => columnInfo codec opts query d i).filterMap id

/-- `keys` -/
def columnKeys : List (Option String) := outputs.mapIdx fun i d => columnKey codec opts query d i

/-- The keys of the kept columns, in order. -/
def keptNames : List String := (columnKeys codec opts query outputs).filterMap id

/-- Column `i` is a kept BLOB column whose blobs are materialized, or one whose blobs are not. -/
def keptBlob (lazy : Bool) (d : SqlVarDesc) (i : Nat) : Bool :=
  columnKept codec query d i && d.type == SqlType.blob && columnLazy codec opts query d i == lazy

def hasKeptLazyBlobs : Bool := (outputs.mapIdx fun i d => keptBlob codec opts query true d i).any id

/-- `scope` -/
def rowScope (txHandle : Nat) : Option BlobScope :=
  if hasKeptLazyBlobs codec opts query outputs then some ⟨txHandle, opts.blobReadChunkSize⟩ else none

end

namespace RowMapper

variable (mapper : RowMapper) (scope : Option BlobScope)

def wrap (i : Nat) : Value → Shaped
  | .blobRef id subType => .blob ⟨id, subType, scope, mapper.blobCodec.getD i none⟩
  | v => .plain v

/-- `obj[key] = value` on an object literal. `__proto__` names its prototype, and no property.
The list is in the order of insertion. -/
def setProperty (props : List (String × Shaped)) (p : String × Shaped) : List (String × Shaped) :=
  if p.1 = "__proto__" then props
  else if p.1 ∈ props.map (·.1) then props.map fun q => if q.1 = p.1 then p else q
  else props ++ [p]

/-- A round of the loop over the columns. -/
def assign (props : List (String × Shaped)) (p : (Option String × Value) × Nat) :
    List (String × Shaped) :=
  match p.1.1 with
  | some key => setProperty props (key, mapper.wrap scope p.2 p.1.2)
  | none => props

/-- The object of some cells with the keys of their columns. -/
def objectOf (cells : List (Option String × Value)) : List (String × Shaped) :=
  cells.zipIdx.foldl (mapper.assign scope) []

def shape (arrayMode : Bool) (row : Row) : ShapedRow :=
  if arrayMode then .array (row.mapIdx fun i v => mapper.wrap scope i v)
  else .object (mapper.objectOf scope (mapper.keys.zip row))

end RowMapper

def ShapedRow.cells : ShapedRow → List Shaped
  | .array cells => cells
  | .object props => props.map (·.2)

/-- A plain value, or a blob that can be read. -/
def Shaped.Usable : Shaped → Prop
  | .plain _ => True
  | .blob b => b.scope ≠ none

/-! Decoded rows -/

def isRefType (type : Nat) : Bool :=
  type == SqlType.blob || type == SqlType.quad || type == SqlType.array

def Value.isRef : Value → Bool
  | .blobRef _ _ => true
  | .null | .scalar _ => false

/-- A cell as the reader of its column decodes it. -/
def CellOf (d : SqlVarDesc) : Value → Prop
  | .null => True
  | .blobRef id subType => isRefType d.type = true ∧ subType = d.subType ∧ id.length = 8
  | .scalar _ => isRefType d.type = false

structure DecodedRow (outputs : List SqlVarDesc) (row : Row) : Prop where
  length : row.length = outputs.length
  cells : ∀ (i : Nat) (d : SqlVarDesc) (v : Value),
    outputs[i]? = some d → row[i]? = some v → CellOf d v

section
variable (codec : Codec) (opts : Options) (query : QueryOptions) (content : Bytes → Bytes)

/-- The content of a blob, as a cell of its column. -/
def blobCell (d : SqlVarDesc) (data : Bytes) : Except FirebirdError Value := do
  match ← columnBlobCodec codec d with
  | some decode => .scalar <$> decode data
  | none => .ok (.scalar data)

/-- In a kept eager BLOB column a reference becomes what its blob holds; other cells stay. -/
def FilledCell (d : SqlVarDesc) (i : Nat) (v v' : Value) : Prop :=
  if keptBlob codec opts query false d i then
    match v with
    | .blobRef id _ => blobCell codec d (content id) = .ok v'
    | .null | .scalar _ => v' = v
  else v' = v

/-- The cells of a row, from column `i` on. -/
def FilledRow : Nat → List SqlVarDesc → Row → Row → Prop
  | i, d :: outputs, v :: row, row' =>
    ∃ v' rest, row' = v' :: rest ∧ FilledCell codec opts query content d i v v' ∧
      FilledRow (i + 1) outputs row rest
  | _, _, row, row' => row' = row

end

section
variable (link : Link) (codec : Codec) (opts : Options) (query : QueryOptions)
  (outputs : List SqlVarDesc)

/-- What a batch of decoded rows should become. -/
structure UsableRows (mapper : RowMapper) (fuel tx : Nat) (rows : List Row) (c : Conn) : Prop where
  /-- The cells of kept eager BLOB columns, and no others, are looked up in the inline cache and
  else sent to `readBlobs`. -/
  looked : ∀ row ∈ rows, ∀ (i : Nat) (d : SqlVarDesc) (v : Value), outputs[i]? = some d → row[i]? = some v →
    ((mapper.hasKeptEagerBlobs = true ∧ mapper.takes i v = true) ↔
      keptBlob codec opts query false d i = true ∧ v.isRef = true)
  /-- Each of them gets what was found for it by this call, decoded for its column. -/
  filled : ∀ rows' c', mapper.materialize link opts fuel tx rows c = (.ok rows', c') →
    if mapper.hasKeptEagerBlobs then
      ∃ datas, mapper.Filled link opts fuel tx rows (c.await link) c' datas rows'
    else rows' = rows
  /-- That is the content of its blob, whether it came inline or has been read. -/
  kept : link.Undisturbed → Sync [] c →
    ∀ segs content, HasContent segs content → InlineKept content tx (c.await link) →
      ∀ rows' c', mapper.materialize link opts fuel tx rows c = (.ok rows', c') →
        AsStored segs c.log.length c'.log →
          List.Forall₂ (FilledRow codec opts query content 0 outputs) rows rows'
  usable : ∀ rows' c', mapper.materialize link opts fuel tx rows c = (.ok rows', c') →
    ∀ row ∈ rows', ∀ cell ∈ (mapper.shape (rowScope codec opts query outputs tx) query.arrayMode
      row).cells, cell.Usable
  /-- The reported columns are the keys of a row, or its positions. -/
  columns : ∀ row ∈ rows,
    match mapper.shape (rowScope codec opts query outputs tx) query.arrayMode row with
    | .array cells => (rowColumns codec opts query outputs).length = cells.length
    | .object props => (keptNames codec opts query outputs).Nodup →
      (props.map (·.1)).Perm ((rowColumns codec opts query outputs).map (·.name))

/-- Column `i` shows in a row: no later column has its key. -/
def Shows (i : Nat) : Prop :=
  query.arrayMode = true ∨ ∃ key, (columnKeys codec opts query outputs)[i]? = some (some key) ∧
    key ≠ "__proto__" ∧
      ∀ j, i < j → (columnKeys codec opts query outputs)[j]? ≠ some (some key)

/-- The cells of kept ARRAY and QUAD columns are null, as far as `P` goes. -/
def NoArrays (P : Nat → Prop) (rows : List Row) : Prop :=
  ∀ row ∈ rows, ∀ (i : Nat) (d : SqlVarDesc) (v : Value), outputs[i]? = some d → row[i]? = some v →
    columnKept codec query d i = true → P i →
      d.type = SqlType.quad ∨ d.type = SqlType.array → v = .null

/-- The batches that become that. -/
structure FitRows (rows : List Row) : Prop where
  /-- No array comes along; or no kept BLOB column is eager, and one is lazy or no array shows. -/
  arrays : NoArrays codec query outputs (fun _ => True) rows ∨
    ((∀ (i : Nat) (d : SqlVarDesc), outputs[i]? = some d →
        keptBlob codec opts query false d i = false) ∧
      ((∃ (i : Nat) (d : SqlVarDesc), outputs[i]? = some d ∧
          keptBlob codec opts query true d i = true) ∨
        NoArrays codec query outputs (Shows codec opts query outputs) rows))
  proto : rows = [] ∨ query.arrayMode = true ∨ ¬ (keptNames codec opts query outputs).Nodup ∨
    "__proto__" ∉ keptNames codec opts query outputs

end

/-! The mapper of a run -/

section
variable {codec : Codec} {opts : Options} {query : QueryOptions} {outputs : List SqlVarDesc}
  {mapper : RowMapper}

theorem any_mapIdx {α : Type} (l : List α) (f : Nat → α → Bool) :
    (l.mapIdx f).any id = true ↔ ∃ i a, l[i]? = some a ∧ f i a = true := by
  rw [List.any_eq_true]
  constructor
  · rintro ⟨b, hb, hid⟩
    obtain ⟨i, hi⟩ := List.mem_iff_getElem?.mp hb
    rw [List.getElem?_mapIdx] at hi
    obtain ⟨a, ha, hf⟩ := Option.map_eq_some_iff.mp hi
    exact ⟨i, a, ha, hf.trans hid⟩
  · rintro ⟨i, a, ha, hf⟩
    refine ⟨true, List.mem_iff_getElem?.mpr ⟨i, ?_⟩, rfl⟩
    rw [List.getElem?_mapIdx, ha, Option.map_some, hf]

/-- The fields of the mapper, column by column. -/
structure MapperOf (codec : Codec) (opts : Options) (query : QueryOptions)
    (outputs : List SqlVarDesc) (mapper : RowMapper) : Prop where
  keys : mapper.keys = columnKeys codec opts query outputs
  blobCodec : outputs.mapM (columnBlobCodec codec) = .ok mapper.blobCodec
  lazyCol : mapper.lazyCol = outputs.mapIdx fun i d => columnLazy codec opts query d i
  eager : mapper.hasKeptEagerBlobs = true ↔
    ∃ (i : Nat) (d : SqlVarDesc), outputs[i]? = some d ∧ keptBlob codec opts query false d i = true

theorem mapperOf (h : rowMapper codec opts query outputs = .ok mapper) :
    MapperOf codec opts query outputs mapper := by
  unfold rowMapper at h
  dsimp only at h
  split at h
  · cases h
  · cases hcodecs : outputs.mapM (columnBlobCodec codec) with
    | error e =>
      rw [hcodecs] at h
      cases h
    | ok blobCodec =>
      rw [hcodecs] at h
      obtain rfl := Except.ok.inj h
      refine ⟨rfl, hcodecs, rfl, ?_⟩
      have hbool (d : SqlVarDesc) (i : Nat) :
          (columnKept codec query d i && d.type == SqlType.blob &&
            !columnLazy codec opts query d i) = keptBlob codec opts query false d i := by
        rw [keptBlob]
        cases columnLazy codec opts query d i <;> rfl
      dsimp only
      rw [any_mapIdx]
      constructor
      · rintro ⟨i, d, hd, hkept⟩
        exact ⟨i, d, hd, (hbool d i).symm.trans hkept⟩
      · rintro ⟨i, d, hd, hkept⟩
        exact ⟨i, d, hd, (hbool d i).trans hkept⟩

theorem MapperOf.eager_eq (h : MapperOf codec opts query outputs mapper) {i : Nat} {d : SqlVarDesc}
    (hd : outputs[i]? = some d) :
    mapper.eager i = (columnKept codec query d i && !columnLazy codec opts query d i) := by
  have hkey : (columnKey codec opts query d i).isSome = columnKept codec query d i := by
    unfold columnKey
    cases columnKept codec query d i <;> rfl
  rw [RowMapper.eager, h.keys, h.lazyCol, columnKeys, List.getD_eq_getElem?_getD, List.getD_eq_getElem?_getD,
    List.getElem?_mapIdx, List.getElem?_mapIdx, hd]
  dsimp only [Option.map_some, Option.getD_some]
  rw [hkey]

theorem columnLazy_blob {d : SqlVarDesc} {i : Nat} (h : columnLazy codec opts query d i = true) :
    d.type = SqlType.blob := by
  unfold columnLazy at h
  exact beq_iff_eq.mp (Bool.and_eq_true_iff.mp h).1

/-- A column that is not lazy, and not of type BLOB, is looked up like an eager one. -/
theorem keptBlob_iff (eager : Bool) (d : SqlVarDesc) (i : Nat) :
    keptBlob codec opts query eager d i = true ↔ columnKept codec query d i = true ∧
      d.type = SqlType.blob ∧ columnLazy codec opts query d i = eager := by
  rw [keptBlob, Bool.and_eq_true, Bool.and_eq_true, beq_iff_eq, beq_iff_eq, and_assoc]

end

/-! The object of a row -/

namespace RowMapper

variable {mapper : RowMapper} {scope : Option BlobScope}

theorem mem_setProperty {props : List (String × Shaped)} {p q : String × Shaped}
    (hq : q.1 ≠ "__proto__") :
    p ∈ setProperty props q ↔ p = q ∨ (p ∈ props ∧ p.1 ≠ q.1) := by
  rw [setProperty, if_neg hq]
  split
  · rename_i hkey
    rw [List.mem_map]
    constructor
    · rintro ⟨r, hr, rfl⟩
      split
      · exact Or.inl rfl
      · rename_i hne
        exact Or.inr ⟨hr, hne⟩
    · rintro (rfl | ⟨hp, hne⟩)
      · obtain ⟨r, hr, hrp⟩ := List.mem_map.mp hkey
        exact ⟨r, hr, if_pos hrp⟩
      · exact ⟨p, hp, if_neg hne⟩
  · rename_i hkey
    rw [List.mem_append, List.mem_singleton]
    constructor
    · rintro (hp | rfl)
      · exact Or.inr ⟨hp, fun heq => hkey (heq ▸ List.mem_map_of_mem hp)⟩
      · exact Or.inl rfl
    · rintro (rfl | ⟨hp, _⟩)
      · exact Or.inr rfl
      · exact Or.inl hp

theorem objectOf_append (cells : List (Option String × Value)) (key : Option String) (v : Value) :
    mapper.objectOf scope (cells ++ [(key, v)]) =
      mapper.assign scope (mapper.objectOf scope cells) ((key, v), cells.length) := by
  rw [objectOf, List.zipIdx_append, List.foldl_append, Nat.zero_add]
  rfl

/-- A property has the value of the last column with its key. -/
theorem mem_objectOf (cells : List (Option String × Value)) (p : String × Shaped) :
    p ∈ mapper.objectOf scope cells ↔
      ∃ i v, cells[i]? = some (some p.1, v) ∧ p.2 = mapper.wrap scope i v ∧ p.1 ≠ "__proto__" ∧
        ∀ j w, i < j → cells[j]? ≠ some (some p.1, w) := by
  induction cells using List.reverseRecOn with
  | nil => exact ⟨fun h => absurd h List.not_mem_nil, fun ⟨_, _, h, _⟩ => nomatch h⟩
  | append_singleton cells last ih =>
    obtain ⟨key, v⟩ := last
    rw [objectOf_append]
    have hold (i : Nat) (hi : i < cells.length) : (cells ++ [(key, v)])[i]? = cells[i]? :=
      List.getElem?_append_left hi
    have hnew : (cells ++ [(key, v)])[cells.length]? = some (key, v) := by
      rw [List.getElem?_append_right (Nat.le_refl _), Nat.sub_self]
      rfl
    have hbound {i : Nat} {x : Option String × Value} (hx : (cells ++ [(key, v)])[i]? = some x) :
        i ≤ cells.length := by
      have hlt := (List.getElem?_eq_some_iff.mp hx).1
      rw [List.length_append, List.length_singleton] at hlt
      omega
    have hinner {i : Nat} {x : Option String × Value} (hx : cells[i]? = some x) :
        i < cells.length := (List.getElem?_eq_some_iff.mp hx).1
    -- what comes of the earlier columns, if the last one has another key
    have hothers (hkey : key ≠ some p.1) : (p ∈ mapper.objectOf scope cells ↔
        ∃ i v', (cells ++ [(key, v)])[i]? = some (some p.1, v') ∧
          p.2 = mapper.wrap scope i v' ∧ p.1 ≠ "__proto__" ∧
            ∀ j w, i < j → (cells ++ [(key, v)])[j]? ≠ some (some p.1, w)) := by
      rw [ih]
      constructor
      · rintro ⟨i, v', hi, hv, hproto, hlater⟩
        refine ⟨i, v', (hold i (hinner hi)).trans hi, hv, hproto, fun j w hj hw => ?_⟩
        rcases Nat.lt_or_eq_of_le (hbound hw) with hlt | rfl
        · rw [hold j hlt] at hw
          exact hlater j w hj hw
        · rw [hnew] at hw
          exact hkey (Prod.mk.inj (Option.some.inj hw)).1
      · rintro ⟨i, v', hi, hv, hproto, hlater⟩
        rcases Nat.lt_or_eq_of_le (hbound hi) with hlt | rfl
        · rw [hold i hlt] at hi
          refine ⟨i, v', hi, hv, hproto, fun j w hj hw => ?_⟩
          exact hlater j w hj ((hold j (hinner hw)).trans hw)
        · rw [hnew] at hi
          exact absurd (Prod.mk.inj (Option.some.inj hi)).1 hkey
    cases key with
    | none => exact hothers nofun
    | some key =>
      rw [assign]
      dsimp only
      by_cases hproto : key = "__proto__"
      · rw [setProperty, if_pos hproto]
        by_cases hp : some key = some p.1
        · have hpkey := Option.some.inj hp
          constructor
          · intro hmem
            obtain ⟨_, _, _, _, hne, _⟩ := ih.mp hmem
            exact absurd (hpkey.symm.trans hproto) hne
          · rintro ⟨_, _, _, _, hne, _⟩
            exact absurd (hpkey.symm.trans hproto) hne
        · exact hothers hp
      · rw [mem_setProperty hproto]
        by_cases hp : some key = some p.1
        · obtain rfl := Option.some.inj hp
          constructor
          · rintro (heq | ⟨_, hne⟩)
            · refine ⟨cells.length, v, hnew, congrArg Prod.snd heq, hproto, fun j w hj hw => ?_⟩
              have hle := hbound hw
              omega
            · exact absurd rfl hne
          · rintro ⟨i, v', hi, hv, _, hlater⟩
            left
            rcases Nat.lt_or_eq_of_le (hbound hi) with hlt | rfl
            · exact absurd hnew (hlater _ v hlt)
            · rw [hnew] at hi
              have hsame := (Prod.mk.inj (Option.some.inj hi)).2
              subst hsame
              exact Prod.ext rfl hv
        · have hne : p.1 ≠ key := fun heq => hp (congrArg some heq.symm)
          rw [← hothers hp]
          constructor
          · rintro (rfl | ⟨hmem, _⟩)
            · exact absurd rfl hne
            · exact hmem
          · exact fun hmem => Or.inr ⟨hmem, hne⟩

/-- Keys that differ are the keys of the object, in the order of the columns. -/
theorem objectOf_keys (cells : List (Option String × Value)) :
    ((cells.map (·.1)).filterMap id).Nodup → "__proto__" ∉ (cells.map (·.1)).filterMap id →
      (mapper.objectOf scope cells).map (·.1) = (cells.map (·.1)).filterMap id := by
  induction cells using List.reverseRecOn with
  | nil => exact fun _ _ => rfl
  | append_singleton cells last ih =>
    obtain ⟨key, v⟩ := last
    rw [objectOf_append, List.map_append, List.filterMap_append]
    cases key with
    | none =>
      have hnone : ([((none : Option String), v)].map (·.1)).filterMap id = [] := rfl
      rw [hnone, List.append_nil]
      exact ih
    | some key =>
      have hone : ([(some key, v)].map (·.1)).filterMap id = [key] := rfl
      rw [hone]
      intro hnodup hproto
      have ⟨hrest, _, hdisjoint⟩ := List.nodup_append.mp hnodup
      have hnew : key ∉ (cells.map (·.1)).filterMap id :=
        fun hmem => hdisjoint key hmem key List.mem_cons_self rfl
      have hkeys := ih hrest fun hmem => hproto (List.mem_append_left _ hmem)
      have hkey : key ≠ "__proto__" := by
        rintro rfl
        exact hproto (List.mem_append_right _ List.mem_cons_self)
      rw [assign]
      dsimp only
      rw [setProperty, if_neg hkey, hkeys, if_neg hnew, List.map_append, hkeys]
      rfl

end RowMapper

end FastFirebird
