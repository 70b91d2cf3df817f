import FastFirebird.Blob

/-! `api/session.ts` and `api/statement-cache.ts`: one statement run under the
op-lock, from the cache lookup to handing the statement back. -/
namespace FastFirebird

def StmtType.isCacheable : StmtType → Bool
  | .select | .selectForUpd | .insert | .update | .delete | .execProcedure => true
  | _ => false

namespace StatementCache

def find (cache : StatementCache) (sql : String) : Option PreparedStatementInfo :=
  (cache.map.find? (·.1 == sql)).map (·.2)

def erase (cache : StatementCache) (sql : String) : StatementCache :=
  { cache with map := cache.map.filter (·.1 != sql) }

/-- Moves `sql` to the most recently used end. -/
def touch (cache : StatementCache) (sql : String) (info : PreparedStatementInfo) : StatementCache :=
  { cache with map := (cache.erase sql).map ++ [(sql, info)] }

/-- The entries beyond the capacity, oldest first. -/
def overflow (cache : StatementCache) : List (String × PreparedStatementInfo) :=
  cache.map.take (cache.map.length - cache.capacity)

def evict (cache : StatementCache) : StatementCache :=
  { cache with map := cache.map.drop (cache.map.length - cache.capacity) }

end StatementCache

namespace Conn

variable (link : Link)

def cacheFind (sql : String) (c : Conn) : Option PreparedStatementInfo :=
  c.cache.bind (·.find sql)

/-- `StatementCache.get`: refreshes the LRU position of a hit. -/
def cacheGet (sql : String) (c : Conn) : Conn :=
  match c.cache, c.cacheFind sql with
  | some cache, some info => { c with cache := some (cache.touch sql info) }
  | _, _ => c

/-- `StatementCache.put`: an entry it displaces, and the oldest beyond the
capacity, are dropped. -/
def cachePut (sql : String) (info : PreparedStatementInfo) (c : Conn) : Conn :=
  match c.cache with
  | none => c
  | some cache =>
    if cache.capacity = 0 then c
    else
      let displaced := ((cache.find sql).filter fun existing => existing.handle != info.handle).toList
      let c := c.freeAll link displaced
      let cache := cache.touch sql info
      { c.freeAll link (cache.overflow.map (·.2)) with cache := some cache.evict }

/-- `StatementCache.remove` -/
def cacheRemove (sql : String) (c : Conn) : Conn :=
  match c.cache, c.cacheFind sql with
  | some cache, some info =>
    { c.freeStatement link info.handle .drop with cache := some (cache.erase sql) }
  | _, _ => c

end Conn

/-- Claims a blob of the inline cache. -/
def inlineTake (tx : Nat) (id : Bytes) : M (Option Bytes) := do
  match (← get).inline.bind (·.take tx id) with
  | some (data, inline) => do
    modify fun c => { c with inline := some inline }
    pure (some data)
  | none => pure none

/-- Which columns a run keeps, and how it reads their blobs. -/
structure RowMapper where
  keys : List (Option String)
  lazyCol : List Bool
  blobCodec : List (Option (Bytes → Except FirebirdError Bytes))
  hasKeptEagerBlobs : Bool

def BlobMode.lazyFor (mode : BlobMode) (subType : Int) : Bool :=
  match mode with
  | .eager => false
  | .lazy => true
  | .lazyBinary => subType != 1
  | .lazyText => subType == 1

def BlobsOption.baseMode : BlobsOption → BlobMode
  | .mode m => m
  | .columns default _ _ => default.getD .eager

def BlobsOption.forceEager : BlobsOption → List String
  | .mode _ => []
  | .columns _ eager _ => eager

def BlobsOption.forceLazy : BlobsOption → List String
  | .mode _ => []
  | .columns _ _ lazy => lazy

section Mapper

variable (codec : Codec) (opts : Options) (query : QueryOptions)

/-- The names a column can be listed by: bare, and qualified by its FROM alias. -/
def columnNames (d : SqlVarDesc) (i : Nat) : String × Option String :=
  let raw := (d.aliasName.filter (· != "")).orElse fun _ => d.field.filter (· != "")
  let lower := codec.lowerCase (raw.getD ("F" ++ toString (i + 1)))
  (lower, (d.relationAlias.filter (· != "")).map fun a => codec.lowerCase a ++ "." ++ lower)

def listed (names : String × Option String) (list : List String) : Bool :=
  let list := list.map codec.lowerCase
  list.contains names.1 || (names.2.map list.contains).getD false

def columnKept (d : SqlVarDesc) (i : Nat) : Bool :=
  let names := columnNames codec d i
  query.arrayMode ||
    ((query.only.map (listed codec names)).getD true && !listed codec names (query.exclude.getD []))

def columnKey (d : SqlVarDesc) (i : Nat) : Option String :=
  if columnKept codec query d i then
    let raw := (d.aliasName.filter (· != "")).orElse fun _ => d.field.filter (· != "")
    let raw := raw.getD ("F" ++ toString (i + 1))
    some (if opts.lowercaseKeys then codec.lowerCase raw else raw)
  else none

def columnLazy (d : SqlVarDesc) (i : Nat) : Bool :=
  let blobs := query.blobs.getD opts.blobs
  let names := columnNames codec d i
  d.type == SqlType.blob &&
    (listed codec names blobs.forceLazy ||
      (!listed codec names blobs.forceEager && blobs.baseMode.lazyFor d.subType))

def columnBlobCodec (d : SqlVarDesc) :
    Except FirebirdError (Option (Bytes → Except FirebirdError Bytes)) :=
  if d.type = SqlType.blob ∧ d.subType = 1 then some <$> codec.blobDecoder d else .ok none

/-- The `RowMapper` constructor. -/
def rowMapper (outputs : List SqlVarDesc) : Except FirebirdError RowMapper := do
  let blobs := query.blobs.getD opts.blobs
  let both := (blobs.forceEager.map codec.lowerCase).filter
    (blobs.forceLazy.map codec.lowerCase).contains
  if !both.isEmpty then
    throw { message := "blobs: column '" ++ both.headD "" ++ "' is listed as both eager and lazy" }
  let blobCodec ← outputs.mapM (columnBlobCodec codec)
  pure
    { keys := outputs.mapIdx fun i d => columnKey codec opts query d i
      lazyCol := outputs.mapIdx fun i d => columnLazy codec opts query d i
      blobCodec
      hasKeptEagerBlobs := (outputs.mapIdx fun i d =>
        columnKept codec query d i && d.type == SqlType.blob && !columnLazy codec opts query d i).any id }

end Mapper

namespace RowMapper

/-- Column `i` is kept, and its blobs are materialized. -/
def eager (mapper : RowMapper) (i : Nat) : Bool :=
  (mapper.keys.getD i none).isSome && !mapper.lazyCol.getD i false

def decodeCell (mapper : RowMapper) (i : Nat) (subType : Int) (data : Bytes) :
    Except FirebirdError Value :=
  match mapper.blobCodec.getD i none with
  | some decode => if subType = 1 then .scalar <$> decode data else .ok (.scalar data)
  | none => .ok (.scalar data)

/-- Serves a cell whose blob came inline. -/
def claimCell (mapper : RowMapper) (tx i : Nat) : Value → M Value
  | .blobRef id subType =>
    if mapper.eager i then do
      match ← FastFirebird.inlineTake tx id with
      | some data => Async.lift (mapper.decodeCell i subType data)
      | none => pure (.blobRef id subType)
    else pure (.blobRef id subType)
  | v => pure v

def claimRow (mapper : RowMapper) (tx : Nat) : Nat → Row → M Row
  | _, [] => pure []
  | i, cell :: cells => do
    let cell ← mapper.claimCell tx i cell
    return cell :: (← claimRow mapper tx (i + 1) cells)

def claimRows (mapper : RowMapper) (tx : Nat) : List Row → M (List Row)
  | [] => pure []
  | row :: rows => do
    let row ← mapper.claimRow tx 0 row
    return row :: (← mapper.claimRows tx rows)

/-- The blobs a row still needs, from column `i` on. -/
def wantedRow (mapper : RowMapper) : Nat → Row → List Bytes
  | _, [] => []
  | i, .blobRef id _ :: cells =>
    (if mapper.eager i then [id] else []) ++ mapper.wantedRow (i + 1) cells
  | i, _ :: cells => mapper.wantedRow (i + 1) cells

/-- Puts the blobs read into the cells that wanted them. -/
def fillRow (mapper : RowMapper) : Nat → Row → List Bytes → Except FirebirdError (Row × List Bytes)
  | _, [], datas => .ok ([], datas)
  | i, .blobRef id subType :: cells, datas =>
    if mapper.eager i then do
      let cell ← mapper.decodeCell i subType (datas.headD [])
      let (row, datas) ← mapper.fillRow (i + 1) cells datas.tail
      pure (cell :: row, datas)
    else do
      let (row, datas) ← mapper.fillRow (i + 1) cells datas
      pure (.blobRef id subType :: row, datas)
  | i, cell :: cells, datas => do
    let (row, datas) ← mapper.fillRow (i + 1) cells datas
    pure (cell :: row, datas)

def fillRows (mapper : RowMapper) : List Row → List Bytes → Except FirebirdError (List Row)
  | [], _ => .ok []
  | row :: rows, datas => do
    let (row, datas) ← mapper.fillRow 0 row datas
    let rows ← mapper.fillRows rows datas
    pure (row :: rows)

variable (link : Link) (opts : Options)

/-- Reads the kept eager blobs of a batch of rows. -/
def materialize (mapper : RowMapper) (fuel tx : Nat) (rows : List Row) : M (List Row) := do
  modify (Conn.await link)
  if mapper.hasKeptEagerBlobs then
    let rows ← mapper.claimRows tx rows
    if (rows.flatMap (mapper.wantedRow 0)).isEmpty then pure rows
    else
      let datas ← readBlobs link fuel tx (rows.flatMap (mapper.wantedRow 0)) opts.blobReadChunkSize
      Async.lift (mapper.fillRows rows datas)
  else pure rows

end RowMapper

structure QueryResult where
  rows : List Row
  rowsAffected : Nat

def SqlVarDesc.isText (d : SqlVarDesc) : Bool :=
  d.type == SqlType.text || d.type == SqlType.varying || d.type == SqlType.null

variable (link : Link) (codec : Codec) (opts : Options)

/-- The column readers with their text codecs attached. -/
def attachTextCodecs : List SqlVarDesc → List ColumnReader → Except FirebirdError (List ColumnReader)
  | d :: ds, reader :: readers => do
    let reader ← if d.isText then codec.textColumnReader d else .ok reader
    let readers ← attachTextCodecs ds readers
    pure (reader :: readers)
  | _, readers => .ok readers

def prepareInfo (txHandle : Nat) (sql : String) : M PreparedStatementInfo := do
  let info ← allocateAndPrepare link codec txHandle sql
  let readers ← Async.lift (attachTextCodecs codec info.description.outputs info.columnReaders)
  pure { info with columnReaders := readers }

/-- The value to send for one parameter; blob values are uploaded. -/
def prepareParam (txHandle : Nat) (d : SqlVarDesc) (v : ParamValue) : M ParamValue :=
  match v with
  | .string s =>
    if d.type = SqlType.blob then do
      let encode ← Async.lift (codec.blobEncoder d)
      let bytes ← Async.lift (encode s)
      let id ← writeBlob link txHandle bytes opts.blobWriteChunkSize
      pure (.blobRef id d.subType)
    else Async.lift (codec.coerceParam d v)
  | .buffer bytes =>
    if d.type = SqlType.blob then do
      let id ← writeBlob link txHandle bytes opts.blobWriteChunkSize
      pure (.blobRef id d.subType)
    else Async.lift (codec.coerceParam d v)
  | .lazyBlob => throw { message := "a lazy Blob handle cannot be bound directly" }
  | .source chunks =>
    if d.type = SqlType.blob then do
      let encode ← Async.lift (codec.blobEncoder d)
      let id ← writeBlobStream link encode txHandle chunks opts.blobWriteChunkSize
      pure (.blobRef id d.subType)
    else throw { message := "streaming sources are only valid for BLOB columns" }
  | v => Async.lift (codec.coerceParam d v)

/-- The text codec of a string bound to a text column. -/
def paramCodec (d : SqlVarDesc) (v : ParamValue) :
    Except FirebirdError (Option (String → Except FirebirdError Bytes)) :=
  match v with
  | .string _ => if d.isText then some <$> codec.textEncoder d else .ok none
  | _ => .ok none

def prepareEach (txHandle : Nat) : List SqlVarDesc → List ParamValue →
    M (List (ParamValue × Option (String → Except FirebirdError Bytes)))
  | d :: ds, v :: vs => do
    let p ← prepareParam link codec opts txHandle d v
    let text ← Async.lift (paramCodec codec d v)
    let rest ← prepareEach txHandle ds vs
    pure ((p, text) :: rest)
  | _, _ => pure []

/-- Validates the arity, uploads blob parameters, and builds the text encoder. -/
def prepareParams (txHandle : Nat) (info : PreparedStatementInfo) (params : List ParamValue) :
    M (List ParamValue × EncodeText) := do
  if params.length ≠ info.description.inputs.length then
    throw { message := "Statement expects a different number of parameters" }
  else
    let prepared ← prepareEach link codec opts txHandle info.description.inputs params
    modify (Conn.await link)
    pure (prepared.map (·.1), fun i s =>
      match (prepared.map (·.2)).getD i none with
      | some encode => encode s
      | none => .ok (codec.utf8 s))

/-- The fetch ceiling of a run. -/
def fetchCeiling (query : QueryOptions) : Nat :=
  match query.fetchSize with
  | some n => if n = 0 then opts.fetchSize else min (max 1 n) 65535
  | none => opts.fetchSize

/-- The fetch batches behind the piggybacked one. -/
def fetchRest (info : PreparedStatementInfo) (maxRows fuel : Nat) :
    Nat → (fetchCount : Nat) → List Row → M (List Row)
  | 0, _, _ => Async.stall
  | n + 1, fetchCount, rows => do
    let count := nextFetchCount info.rowWidth maxRows fetchCount
    let batch ← fetchRows link fuel info count
    if batch.eof then pure (rows ++ batch.rows)
    else fetchRest info maxRows fuel n count (rows ++ batch.rows)

/-- The piggybacked fetch stream, and any follow-up batches. -/
def drainFetches (info : PreparedStatementInfo) (maxRows fuel fetchCount : Nat) : M (List Row) := do
  let batch ← readFetchBatch link info fuel []
  if batch.eof then pure batch.rows
  else fetchRest link info maxRows fuel fuel fetchCount batch.rows

def drainInfo (exec : ExecuteResult) : M Nat :=
  if exec.pendingInfo then readRecordCounts link codec else pure 0

def drainRows (info : PreparedStatementInfo) (maxRows fuel fetchCount : Nat) (exec : ExecuteResult) :
    M (List Row) :=
  if exec.pendingFetch then drainFetches link info maxRows fuel fetchCount
  else pure exec.procRow.toList

/-- Deferred; the statement can then be executed again. -/
def closeCursor (info : PreparedStatementInfo) (closeCursorAfter : Bool) : M Unit :=
  if closeCursorAfter && info.description.stmtType.isSelect then
    freeStatement link info.handle .close
  else pure ()

/-- Executes a prepared statement. Piggybacked responses are consumed before any
new request is issued. -/
def executePrepared (fuel txHandle : Nat) (info : PreparedStatementInfo) (params : List ParamValue)
    (closeCursorAfter : Bool) (query : QueryOptions) : M QueryResult := do
  let mapper ← Async.lift (rowMapper codec opts query info.description.outputs)
  let (prepared, encodeText) ← prepareParams link codec opts txHandle info params
  let stmtType := info.description.stmtType
  let maxRows := fetchCeiling opts query
  let fetchCount := if stmtType.isSelect then nextFetchCount info.rowWidth maxRows 0 else 0
  let exec ← executeStatement link codec info txHandle prepared encodeText
    { fetchSize := if stmtType.isSelect then some fetchCount else none
      recordCounts := stmtType.wantsRecordCounts }
  let rows ← drainRows link info maxRows fuel fetchCount exec
  let rowsAffected ← drainInfo link codec exec
  let rows ← mapper.materialize link opts fuel txHandle rows
  closeCursor link info closeCursorAfter
  pure ⟨rows, rowsAffected⟩

/-- The schema may have changed under every cached statement and star rewrite. -/
def Conn.forgetSchema (stmtType : StmtType) (c : Conn) : Conn :=
  if stmtType = .ddl then { c.clearCache link with starCache := [] } else c

/-- Hands a statement to the cache, or drops it. -/
def Conn.park (sql : String) (info : PreparedStatementInfo) (c : Conn) : Conn :=
  if (c.cache.any fun cache => 0 < cache.capacity) && info.description.stmtType.isCacheable then
    c.cachePut link sql info
  else c.freeStatement link info.handle .drop

def Conn.finishStatement (sql : String) (info : PreparedStatementInfo) (c : Conn) : Conn :=
  (c.forgetSchema link info.description.stmtType).park link sql info

def finishStatement (sql : String) (info : PreparedStatementInfo) : M Unit :=
  modify (Conn.finishStatement link sql info)

/-- `ctx.cache?.get(sql)` -/
def cacheGet (sql : String) : M (Option PreparedStatementInfo) := do
  let hit := (← get).cacheFind sql
  modify (Conn.cacheGet sql)
  pure hit

def cacheRemove (sql : String) : M Unit := modify (Conn.cacheRemove link sql)

def starKey (sql : String) (query : QueryOptions) : String :=
  let joined (names : Option (List String)) := codec.lowerCase (",".intercalate (names.getD []))
  sql ++ "\x00" ++ joined query.only ++ "\x00" ++ joined query.exclude

/-- A cached statement, or else a fresh one. -/
def orPrepare (txHandle : Nat) (sql : String) : Option PreparedStatementInfo → M PreparedStatementInfo
  | some info => pure info
  | none => prepareInfo link codec txHandle sql

/-- Only a statement that did not come from the cache is handed to it. -/
def finishFresh (sql : String) (info : PreparedStatementInfo) : Option PreparedStatementInfo → M Unit
  | some _ => pure ()
  | none => finishStatement link sql info

/-- Prepares the original once, lets its describe drive the expansion, and caches that. -/
def expandStar (txHandle : Nat) (sql key : String) (query : QueryOptions) : M String := do
  let cached ← cacheGet sql
  let info ← orPrepare link codec txHandle sql cached
  let rewritten ← Async.lift (codec.expandStarSql sql info.description.outputs query)
  finishFresh link sql info cached
  let rewritten := rewritten.getD sql
  modify fun c => { c with starCache := (key, rewritten) :: c.starCache.filter (·.1 != key) }
  pure rewritten

/-- The SQL to execute: with `expandStar`, stars are replaced by what the describe
of the original statement lists. -/
def resolveExpandStar (txHandle : Nat) (sql : String) (query : QueryOptions) : M String := do
  if query.expandStar then
    let key := starKey codec sql query
    match (← get).starCache.lookup key with
    | some hit => pure hit
    | none => expandStar link codec txHandle sql key query
  else pure sql

def isStaleStatementError (e : FirebirdError) : Bool :=
  e.gdsCode == some 335544343 || e.gdsCode == some 335544485

/-- A run on a statement prepared for it. -/
def runFresh (fuel txHandle : Nat) (sql : String) (params : List ParamValue) (query : QueryOptions) :
    M QueryResult := do
  let info ← prepareInfo link codec txHandle sql
  Async.handle
    (do
      let result ← executePrepared link codec opts fuel txHandle info params true query
      finishStatement link sql info
      pure result)
    fun e => do
      freeStatement link info.handle .drop
      throw e

/-- A run on a cached statement; `none` if it turned out stale. -/
def runCached (fuel txHandle : Nat) (sql : String) (cached : PreparedStatementInfo)
    (params : List ParamValue) (query : QueryOptions) : M (Option QueryResult) :=
  Async.handle
    (do
      let result ← executePrepared link codec opts fuel txHandle cached params true query
      finishStatement link sql cached
      pure (some result))
    fun e => do
      if isStaleStatementError e then
        cacheRemove link sql
        pure none
      else throw e

/-- Runs one SQL statement, on the statement cache where it can. -/
def runStatement (fuel txHandle : Nat) (sql : String) (rawParams : QueryParams)
    (query : QueryOptions) : M QueryResult := do
  let (sql, params) ← Async.lift (codec.normalizeParams sql rawParams)
  let sql ← resolveExpandStar link codec txHandle sql query
  match ← cacheGet sql with
  | some cached =>
    match ← runCached link codec opts fuel txHandle sql cached params query with
    | some result => pure result
    | none => runFresh link codec opts fuel txHandle sql params query
  | none => runFresh link codec opts fuel txHandle sql params query

end FastFirebird
