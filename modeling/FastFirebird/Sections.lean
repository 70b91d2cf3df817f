import FastFirebird.Batch

/-! What runs under the op-lock: one body for each use of `Attachment.withLock`, by
`attachment.ts`, `transaction.ts`, `prepared.ts`, `session.ts`, `blob.ts`,
`blob-prefetch.ts` and `events.ts`. -/
namespace FastFirebird

/-- The cursor of a lazy `Blob` that has been read with `head()`. -/
structure BlobCursor where
  cursorHandle : Option Nat := none
  consumed : List Bytes := []
  consumedBytes : Nat := 0
  atEof : Bool := false

def BlobCursor.consume (cur : BlobCursor) (chunks : List Bytes) : BlobCursor :=
  { cur with
    consumed := cur.consumed ++ chunks
    consumedBytes := cur.consumedBytes + (chunks.map (·.length)).sum }

/-- The state a `streamRows` generator carries from one lock section to the next. -/
structure StreamState where
  sql : String
  cached : Bool
  info : Option PreparedStatementInfo
  mapper : Option RowMapper := none
  cursorOpen : Bool := false
  failed : Bool := false
  eof : Bool := false
  fetchCount : Nat := 0

variable (link : Link) (codec : Codec) (opts : Options)

/-- The handle is done: its close rides the next packet. -/
def finishCursor (cur : BlobCursor) : M BlobCursor := do
  cur.cursorHandle.forM (closeBlobDeferred link)
  pure { cur with atEof := true, cursorHandle := none }

/-- Windows of `count` segments until `enough` has been consumed, or the blob ends. A read
that fails keeps what came before it. -/
def readCursor (chunkSize : Nat) (enough : BlobCursor → Bool) (count : BlobCursor → Nat) :
    Nat → BlobCursor → M (Except FirebirdError Unit × BlobCursor)
  | 0, _ => Async.stall
  | fuel + 1, cur =>
    if cur.atEof || enough cur then pure (.ok (), cur)
    else do
      match ← Async.attempt
          (readBlobWindow link (cur.cursorHandle.getD 0) chunkSize (count cur)) with
      | .error e => pure (.error e, cur)
      | .ok (chunks, true) => do
        let cur ← finishCursor link (cur.consume chunks)
        pure (.ok (), cur)
      | .ok (chunks, false) => readCursor chunkSize enough count fuel (cur.consume chunks)

def openCursor (txHandle : Nat) (blobId : Bytes) (cur : BlobCursor) :
    M (Except FirebirdError Unit × BlobCursor) :=
  if cur.cursorHandle.isSome then pure (.ok (), cur)
  else do
    match ← Async.attempt (openBlob link txHandle blobId) with
    | .ok handle => pure (.ok (), { cur with cursorHandle := some handle })
    | .error e => pure (.error e, cur)

/-- `Blob.head` -/
def blobHead (fuel txHandle : Nat) (blobId : Bytes) (chunkSize n : Nat) (cur : BlobCursor) :
    M (Except FirebirdError Unit × BlobCursor) :=
  if cur.atEof then pure (.ok (), cur)
  else do
    match ← openCursor link txHandle blobId cur with
    | (.error e, cur) => pure (.error e, cur)
    | (.ok (), cur) =>
      readCursor link chunkSize (fun cur => n ≤ cur.consumedBytes)
        (fun cur => min (max 1 ((n - cur.consumedBytes + chunkSize - 1) / chunkSize)) 32) fuel cur

/-- `Blob.buffer`: a whole read, or the rest behind a `head()` cursor. -/
def blobBuffer (fuel txHandle : Nat) (blobId : Bytes) (chunkSize : Nat) (cur : BlobCursor) : M Unit :=
  if cur.cursorHandle.isNone && cur.consumedBytes == 0 && !cur.atEof then do
    let _ ← readBlob link fuel txHandle blobId chunkSize
  else do
    let (r, _) ← readCursor link chunkSize (fun _ => false) (fun _ => 32) fuel cur
    Async.lift r

/-- `Blob.size` -/
def blobSize (txHandle : Nat) (blobId : Bytes) : M Nat := do
  let blob ← openBlob link txHandle blobId
  Async.ensure (blobTotalLength link blob) (closeBlobDeferred link blob)

/-- `handle ?? await openBlob(...)` -/
def orOpen (txHandle : Nat) (blobId : Bytes) : Option Nat → M Nat
  | some blob => pure blob
  | none => openBlob link txHandle blobId

/-- One pull of `Blob.stream`. -/
def blobPull (txHandle : Nat) (blobId : Bytes) (chunkSize : Nat) (handle : Option Nat) : M Segment := do
  let blob ← orOpen link txHandle blobId handle
  getBlobSegment link blob chunkSize

def closeBlobCursor (handle : Option Nat) : M Unit := handle.forM (closeBlobDeferred link)

/-- One slice of `BlobPrefetcher.fetch`. -/
def prefetchSlice (txHandle : Nat) (blobId : Bytes) (chunkSize : Nat) (handle : Option Nat) :
    M (Option Nat) := do
  let blob ← orOpen link txHandle blobId handle
  let (_, eof) ← readBlobWindow link blob chunkSize 8
  if eof then
    closeBlobDeferred link blob
    pure none
  else pure (some blob)

/-- `Attachment.clearStatementCache`: the deferred frees ride the ping. -/
def clearStatementCache : M Unit := do
  modify (Conn.clearCache link)
  let _ ← roundTrip link .ping

/-- The execute of a stream, with the first fetch behind it. -/
def streamStart (txHandle : Nat) (params : List ParamValue) (query : QueryOptions)
    (info : PreparedStatementInfo) : M (RowMapper × Nat × ExecuteResult) := do
  let mapper ← Async.lift (rowMapper codec opts query info.description.outputs)
  let (prepared, encodeText) ← prepareParams link codec opts txHandle info params
  let isSelect := info.description.stmtType.isSelect
  let fetchCount := if isSelect then nextFetchCount info.rowWidth (fetchCeiling opts query) 0 else 0
  let exec ← executeStatement link codec info txHandle prepared encodeText
    { fetchSize := if isSelect then some fetchCount else none, recordCounts := false }
  pure (mapper, fetchCount, exec)

def firstBatch (fuel : Nat) (info : PreparedStatementInfo) (exec : ExecuteResult) : M FetchBatch :=
  if exec.pendingFetch then readFetchBatch link info fuel []
  else pure ⟨exec.procRow.toList, true⟩

/-- A batch with its blobs. -/
def streamBatch (fuel txHandle : Nat) (mapper : RowMapper) (fetch : M FetchBatch) :
    M (List Row × Bool) := do
  let batch ← fetch
  let rows ← mapper.materialize link opts fuel txHandle batch.rows
  pure (rows, batch.eof)

def StreamState.fetched (st : StreamState) :
    Except FirebirdError (List Row × Bool) → Except FirebirdError (List Row) × StreamState
  | .error e => (.error e, { st with failed := true })
  | .ok (rows, eof) => (.ok rows, { st with eof })

/-- The first section behind the prepare; `cursorOpen` is set as soon as a fetch is
outstanding. -/
def streamExecute (fuel txHandle : Nat) (params : List ParamValue) (query : QueryOptions)
    (info : PreparedStatementInfo) (st : StreamState) :
    M (Except FirebirdError (List Row) × StreamState) := do
  let st := { st with info := some info }
  match ← Async.attempt (streamStart link codec opts txHandle params query info) with
  | .error e => pure (.error e, { st with failed := true })
  | .ok (mapper, fetchCount, exec) =>
    let st := { st with mapper := some mapper, fetchCount, cursorOpen := exec.pendingFetch }
    let batch ← Async.attempt (streamBatch link opts fuel txHandle mapper (firstBatch link fuel info exec))
    pure (st.fetched batch)

/-- `streamRows`, first section. -/
def streamFirst (fuel txHandle : Nat) (params : List ParamValue) (query : QueryOptions)
    (st : StreamState) : M (Except FirebirdError (List Row) × StreamState) := do
  match ← Async.attempt (orPrepare link codec txHandle st.sql st.info) with
  | .error e => pure (.error e, { st with failed := true })
  | .ok info => streamExecute link codec opts fuel txHandle params query info st

/-- `streamRows`, a later fetch. -/
def streamNext (fuel txHandle : Nat) (query : QueryOptions) (st : StreamState) :
    M (Except FirebirdError (List Row) × StreamState) :=
  match st.info, st.mapper with
  | some info, some mapper => do
    let count := nextFetchCount info.rowWidth (fetchCeiling opts query) st.fetchCount
    let batch ← Async.attempt (streamBatch link opts fuel txHandle mapper (fetchRows link fuel info count))
    pure ({ st with fetchCount := count }.fetched batch)
  | _, _ => pure (.ok [], st)

/-- `streamRows`, the last section: the cursor is closed, and the statement goes to the
cache, or is dropped if the stream failed. -/
def Conn.streamFinish (st : StreamState) (c : Conn) : Conn :=
  match st.info with
  | none => c
  | some info =>
    let c := if st.cursorOpen then c.freeStatement link info.handle .close else c
    if st.failed then
      let c := c.cacheRemove link st.sql
      if st.cached then c else c.freeStatement link info.handle .drop
    else c.finishStatement link st.sql info

/-- The sections that are one request and its response: starting and finishing
transactions, pings, event requests, and the detach of a reconnect. -/
inductive Control where
  | startTransaction (db : Nat)
  | commit (tx : Nat) (retain : Bool)
  | rollback (tx : Nat) (retain : Bool)
  | ping
  | connectRequest (db : Nat)
  | queEvents (db : Nat)
  | cancelEvents (db : Nat)
  | detach

def Control.request : Control → Request
  | .startTransaction db => .transaction db
  | .commit tx retain => .commit tx retain
  | .rollback tx retain => .rollback tx retain
  | .ping => .ping
  | .connectRequest db => .connectRequest db
  | .queEvents db => .queEvents db
  | .cancelEvents db => .cancelEvents db
  | .detach => .detach

/-- The uses of the op-lock, with whatever their callers pass in. -/
inductive Section where
  | control (op : Control)
  | clearStatementCache
  | runStatement (tx : Nat) (sql : String) (params : QueryParams) (query : QueryOptions)
  | executeBatch (tx : Nat) (sql : String) (rows : BatchRows) (batch : BatchOptions)
  | prepare (tx : Nat) (sql : String)
  | runPrepared (tx : Nat) (info : PreparedStatementInfo) (params : List ParamValue)
      (query : QueryOptions)
  | batchPrepared (tx : Nat) (info : PreparedStatementInfo) (rows : BatchRows) (names : List String)
      (batch : BatchOptions)
  | closePrepared (info : PreparedStatementInfo)
  | streamExpand (tx : Nat) (sql : String) (query : QueryOptions)
  | streamFirst (tx : Nat) (params : List ParamValue) (query : QueryOptions) (st : StreamState)
  | streamNext (tx : Nat) (query : QueryOptions) (st : StreamState)
  | streamFinish (st : StreamState)
  | blobHead (tx : Nat) (blobId : Bytes) (chunkSize n : Nat) (cur : BlobCursor)
  | blobBuffer (tx : Nat) (blobId : Bytes) (chunkSize : Nat) (cur : BlobCursor)
  | blobSize (tx : Nat) (blobId : Bytes)
  | blobPull (tx : Nat) (blobId : Bytes) (chunkSize : Nat) (handle : Option Nat)
  | blobPrefetch (tx : Nat) (blobIds : List Bytes) (chunkSize : Nat)
  | prefetchSlice (tx : Nat) (blobId : Bytes) (chunkSize : Nat) (handle : Option Nat)
  | closeBlob (handle : Option Nat)

def discard {α : Type} (x : M α) : M Unit := do
  let _ ← x

def Section.body (fuel : Nat) : Section → M Unit
  | .control op => discard (roundTrip link op.request)
  | .clearStatementCache => FastFirebird.clearStatementCache link
  | .runStatement tx sql params query =>
    discard (FastFirebird.runStatement link codec opts fuel tx sql params query)
  | .executeBatch tx sql rows batch => discard (executeBatchStatement link codec opts tx sql rows batch)
  | .prepare tx sql => discard (prepareInfo link codec tx sql)
  | .runPrepared tx info params query =>
    discard (executePrepared link codec opts fuel tx info params true query)
  | .batchPrepared tx info rows names batch =>
    discard (executeBatchPrepared link codec opts tx info rows names batch)
  | .closePrepared info => freeStatement link info.handle .drop
  | .streamExpand tx sql query => discard (resolveExpandStar link codec tx sql query)
  | .streamFirst tx params query st =>
    discard (FastFirebird.streamFirst link codec opts fuel tx params query st)
  | .streamNext tx query st => discard (FastFirebird.streamNext link opts fuel tx query st)
  | .streamFinish st => modify (Conn.streamFinish link st)
  | .blobHead tx id chunkSize n cur => discard (FastFirebird.blobHead link fuel tx id chunkSize n cur)
  | .blobBuffer tx id chunkSize cur => FastFirebird.blobBuffer link fuel tx id chunkSize cur
  | .blobSize tx id => discard (FastFirebird.blobSize link tx id)
  | .blobPull tx id chunkSize handle => discard (FastFirebird.blobPull link tx id chunkSize handle)
  | .blobPrefetch tx ids chunkSize => discard (readBlobs link fuel tx ids chunkSize)
  | .prefetchSlice tx id chunkSize handle =>
    discard (FastFirebird.prefetchSlice link tx id chunkSize handle)
  | .closeBlob handle => closeBlobCursor link handle

/-- The lock passes to the next section. -/
def Conn.nextTurn (c : Conn) : Conn := { c with turn := c.turn + 1 }

end FastFirebird
