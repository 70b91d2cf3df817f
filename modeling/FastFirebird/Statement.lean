import FastFirebird.Wire

/-! `protocol/statement.ts` and `protocol/fetch-plan.ts`: preparing, executing
and fetching, with several requests in one flush. -/
namespace FastFirebird

namespace SqlType

abbrev text := 452
abbrev varying := 448
abbrev short := 500
abbrev long := 496
abbrev float := 482
abbrev blob := 520
abbrev array := 540
abbrev quad := 550
abbrev int128 := 32752
abbrev dec16 := 32760
abbrev dec34 := 32762
abbrev null := 32766

end SqlType

/-- What an `AsyncIterable` source yields. -/
inductive Chunk where
  | text (s : String)
  | bytes (b : Bytes)
  | invalid
  deriving Repr, DecidableEq

/-- A parameter value; a streaming source is the chunks it yields until it ends
or throws. `other` is any value whose encoding needs no server. -/
inductive ParamValue where
  | null
  | string (s : String)
  | buffer (b : Bytes)
  | lazyBlob
  | source (chunks : List (Except FirebirdError Chunk))
  | blobRef (id : Bytes) (subType : Int)
  | other (data : Bytes)

abbrev Row := List Value

inductive QueryParams where
  | positional (values : List ParamValue)
  | named (values : List (String × ParamValue))

inductive BlobMode where
  | eager
  | lazy
  | lazyBinary
  | lazyText
  deriving Repr, DecidableEq

inductive BlobsOption where
  | mode (m : BlobMode)
  | columns (default : Option BlobMode) (eager lazy : List String)

structure QueryOptions where
  blobs : Option BlobsOption := none
  exclude : Option (List String) := none
  only : Option (List String) := none
  arrayMode : Bool := false
  fetchSize : Option Nat := none
  expandStar : Bool := false

structure Options where
  fetchSize : Nat := 400
  blobs : BlobsOption := .mode .eager
  blobReadChunkSize : Nat := 65535
  blobWriteChunkSize : Nat := 65535
  lowercaseKeys : Bool := false

structure BatchFormat where
  alignedStride : Nat
  blobIndices : List Nat

/-- Encodes the text bound to the parameter of that index. -/
abbrev EncodeText := Nat → String → Except FirebirdError Bytes

/-- The pure functions of the client that decide, next to the server's answers,
how a call goes. Each may throw where the source's may. -/
structure Codec where
  parseDescribe : Bytes → Except FirebirdError StatementDescription
  makeColumnReader : SqlVarDesc → Except FirebirdError ColumnReader
  textColumnReader : SqlVarDesc → Except FirebirdError ColumnReader
  buildOutputBlr : List SqlVarDesc → Except FirebirdError Bytes
  parseRecordCounts : Bytes → Except FirebirdError Nat
  encodeParams : List ParamValue → EncodeText → Except FirebirdError EncodedParams
  blobDecoder : SqlVarDesc → Except FirebirdError (Bytes → Except FirebirdError Bytes)
  blobEncoder : SqlVarDesc → Except FirebirdError (String → Except FirebirdError Bytes)
  textEncoder : SqlVarDesc → Except FirebirdError (String → Except FirebirdError Bytes)
  utf8 : String → Bytes
  coerceParam : SqlVarDesc → ParamValue → Except FirebirdError ParamValue
  lowerCase : String → String
  normalizeParams : String → QueryParams → Except FirebirdError (String × List ParamValue)
  expandStarSql : String → List SqlVarDesc → QueryOptions → Except FirebirdError (Option String)
  rewriteNamedParams : String → String × List String
  bindBatchRow : QueryParams → List String → Nat → Except FirebirdError (List ParamValue)
  buildBatchFormat : List SqlVarDesc → Except FirebirdError BatchFormat
  encodeBatchRow : BatchFormat → List ParamValue → EncodeText → Except FirebirdError Bytes

/-- Estimated wire bytes of one row. -/
def estimateRowWidth (descs : List SqlVarDesc) : Nat :=
  let width (d : SqlVarDesc) : Nat :=
    if d.type = SqlType.text ∨ d.type = SqlType.varying then 4 + d.length
    else if d.type = SqlType.short ∨ d.type = SqlType.long ∨ d.type = SqlType.float then 4
    else if d.type = SqlType.int128 ∨ d.type = SqlType.dec34 then 16
    else 8
  max (4 + (descs.length + 7) / 8 + (descs.map width).sum) 16

/-- Rows to request in the next fetch: a modest start, doubled up to the budget. -/
def nextFetchCount (rowWidth maxRows prevCount : Nat) : Nat :=
  let ceiling := min maxRows (max 10 (256 * 1024 / rowWidth))
  if prevCount = 0 then min 40 ceiling else min (prevCount * 2) ceiling

def StmtType.isSelect : StmtType → Bool
  | .select | .selectForUpd => true
  | _ => false

def StmtType.wantsRecordCounts : StmtType → Bool
  | .insert | .update | .delete | .execProcedure => true
  | _ => false

/-- Statements whose results come back via `op_execute2`. -/
def usesExecute2 (desc : StatementDescription) : Bool :=
  !desc.outputs.isEmpty && desc.stmtType.wantsRecordCounts

def executeRequest (stmt : PreparedStatementInfo) (tx : Nat) (encoded : Option EncodedParams) :
    Request :=
  if usesExecute2 stmt.description then .execute2 stmt tx encoded else .execute stmt tx encoded

structure ExecutePiggyback where
  fetchSize : Option Nat := none
  recordCounts : Bool := false

/-- Only an open cursor can be fetched from. -/
def piggybackedFetch (stmt : PreparedStatementInfo) (piggyback : ExecutePiggyback) : Option Nat :=
  if usesExecute2 stmt.description then none else piggyback.fetchSize

structure ExecuteResult where
  procRow : Option Row
  pendingFetch : Bool
  pendingInfo : Bool

structure FetchBatch where
  rows : List Row
  eof : Bool

/-- The columns of a row in order. A reader that throws has taken its own bytes;
the cells after it stay unread. -/
def decodeRow : List ColumnReader → List (Option Bytes) →
    Except (FirebirdError × List (Option Bytes)) Row
  | reader :: readers, some bytes :: cells =>
    match reader bytes with
    | .ok v => (v :: ·) <$> decodeRow readers cells
    | .error e => .error (e, cells)
  | _ :: readers, none :: cells => (.null :: ·) <$> decodeRow readers cells
  | _, _ => .ok []

/-- What a row leaves on the wire when reading stops before `cells`. -/
def Packet.rest (p : Packet) (cells : List (Option Bytes)) : List Packet :=
  if cells.any Option.isSome then [{ p with body := .row cells }] else []

variable (link : Link) (codec : Codec)

def readRow (readers : List ColumnReader) : M Row := fun c =>
  let c := c.await link
  match c.inbound with
  | [] => (.pending, c)
  | p :: ps =>
    match p.body with
    | .row cells =>
      match decodeRow readers cells with
      | .ok row => (.ok row, { c with inbound := ps })
      | .error (e, cells) => (.error e, { c with inbound := p.rest cells ++ ps })
    | _ => (.error garbled, c)

/-- Allocate and prepare in one flush; both responses are read in order. -/
def allocateAndPrepare (txHandle : Nat) (sql : String) : M PreparedStatementInfo := do
  let c ← get
  let alloc ← send link (.allocateStatement c.dbHandle)
  let _ ← send link (.prepareStatement txHandle sql)
  flush
  let allocResp ← readResponse link
  let handle : StmtHandle := ⟨allocResp.handle, alloc⟩
  let prepResp ← readResponse link
  let description ← Async.lift (codec.parseDescribe prepResp.data)
  let columnReaders ← Async.lift (description.outputs.mapM codec.makeColumnReader)
  let outputBlr ← Async.lift
    (if description.outputs.isEmpty then .ok [] else codec.buildOutputBlr description.outputs)
  pure ⟨handle, description, outputBlr, columnReaders, estimateRowWidth description.outputs⟩

/-- Writes an `op_fetch` without flushing. -/
def writeFetchRequest (stmt : PreparedStatementInfo) (fetchSize : Nat) (behind : Option Nat) :
    M Nat := send link (.fetch stmt fetchSize behind)

/-- Writes an `op_info_sql(records)` without flushing. -/
def writeInfoRequest (stmt : StmtHandle) (behind : Option Nat) : M Nat :=
  send link (.infoSql stmt behind)

def readProcRow (readers : List ColumnReader) (count : Nat) : M (Option Row) :=
  if 0 < count then some <$> readRow link readers else pure none

/-- What follows an `op_execute2`. -/
def readSqlResponse (stmt : PreparedStatementInfo) (p : Packet) : M (Option Row) :=
  match p.body with
  | .sqlResponse count => do
    modify (Conn.await link)
    let row ← readProcRow link stmt.columnReaders count
    let _ ← readResponse link
    pure row
  | .response r => do
    let _ ← parseResponseBody link r
    pure none
  | _ => unexpectedOp p

/-- The responses to the execute itself. -/
def readExecuteResponse (stmt : PreparedStatementInfo) : M (Option Row) :=
  if usesExecute2 stmt.description then do
    let p ← readOp link
    readSqlResponse link stmt p
  else do
    let _ ← readResponse link
    pure none

/-- If the execute fails, what rode behind it is left to the drain. -/
def awaitExecute (stmt : PreparedStatementInfo) (fetchReq infoReq : Option Nat) :
    M ExecuteResult := do
  let procRow ← Async.handle (readExecuteResponse link stmt) fun e => do
    fetchReq.forM markDeferred
    infoReq.forM markDeferred
    throw e
  pure ⟨procRow, fetchReq.isSome, infoReq.isSome⟩

/-- The parameter message; there is none without parameters. -/
def encodeValues (values : List ParamValue) (encodeText : EncodeText) :
    Except FirebirdError (Option EncodedParams) :=
  if values.isEmpty then .ok none else some <$> codec.encodeParams values encodeText

/-- `op_execute` or `op_execute2` with the piggybacked `op_fetch` and
`op_info_sql` in the same packet. -/
def executeStatement (stmt : PreparedStatementInfo) (txHandle : Nat) (values : List ParamValue)
    (encodeText : EncodeText) (piggyback : ExecutePiggyback) : M ExecuteResult := do
  let encoded ← Async.lift (encodeValues codec values encodeText)
  let exec ← send link (executeRequest stmt txHandle encoded)
  let fetchReq ← match piggybackedFetch stmt piggyback with
    | some n => some <$> writeFetchRequest link stmt n (some exec)
    | none => pure none
  let infoReq ←
    if piggyback.recordCounts then some <$> writeInfoRequest link stmt.handle (some exec)
    else pure none
  flush
  awaitExecute link stmt fetchReq infoReq

/-- One operation of a fetch-response stream; `next` reads on. -/
def readFetchOp (stmt : PreparedStatementInfo) (rows : List Row) (next : List Row → M FetchBatch)
    (p : Packet) : M FetchBatch :=
  match p.body with
  | .fetchResponse status count => do
    modify (Conn.await link)
    if status = 100 then pure ⟨rows, true⟩
    else if count = 0 then pure ⟨rows, false⟩
    else
      let row ← readRow link stmt.columnReaders
      next (rows ++ [row])
  | .response r => do
    let _ ← parseResponseBody link r
    pure ⟨rows, true⟩
  | _ => unexpectedOp p

/-- Consumes one fetch-response stream: rows until the batch terminator. -/
def readFetchBatch (stmt : PreparedStatementInfo) : Nat → List Row → M FetchBatch
  | 0, _ => Async.stall
  | fuel + 1, rows => do
    let p ← readOp link
    readFetchOp link stmt rows (readFetchBatch stmt fuel) p

def fetchRows (fuel : Nat) (stmt : PreparedStatementInfo) (fetchSize : Nat) : M FetchBatch := do
  let _ ← writeFetchRequest link stmt fetchSize none
  flush
  readFetchBatch link stmt fuel []

def readRecordCounts : M Nat := do
  let resp ← readResponse link
  Async.lift (codec.parseRecordCounts resp.data)

end FastFirebird
