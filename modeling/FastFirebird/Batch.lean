import FastFirebird.Session
import Mathlib.Algebra.Ring.Int.Defs

/-! `api/batch.ts`: many rows in one cycle of pipelined batch requests. -/
namespace FastFirebird

structure BatchOptions where
  continueOnError : Bool := false
  chunkBytes : Nat := 8 * 1024 * 1024

structure BatchResult where
  rowCount : Nat := 0
  rowsAffected : Int := 0
  updateCounts : List Int := []
  errors : List (Nat × Option FirebirdError) := []

/-- The rows a source yields until it ends or throws. -/
abbrev BatchRows := List (Except FirebirdError QueryParams)

/-- `created` says that the batch is open on the server; the rest but `combined`
belongs to the current cycle. -/
structure BatchState where
  combined : BatchResult := {}
  created : Bool := false
  rowBufs : List Bytes := []
  cycleBlobIds : List Bytes := []

variable (link : Link) (codec : Codec) (opts : Options)

/-- The requests of a cycle that go ahead of its exec. -/
def cyclePrefix (stmt : StmtHandle) (st : BatchState) : List Request :=
  (if st.created then [] else [.batchCreate stmt]) ++
    st.cycleBlobIds.map (.batchRegblob stmt) ++ [.batchMsg stmt st.rowBufs]

def sendEach : List Request → M Unit
  | [] => pure ()
  | req :: reqs => do
    let _ ← send link req
    sendEach reqs

def readBatchReply (p : Packet) : M BatchCompletion :=
  match p.body with
  | .response r => do
    let _ ← parseResponseBody link r
    throw { kind := .protocol, message := "op_batch_exec answered with a plain op_response" }
  | .batchCs c => do
    modify (Conn.await link)
    pure c
  | _ => unexpectedOp p

/-- Reads the `op_batch_exec` reply. -/
def readBatchCompletion : M BatchCompletion := do
  let p ← readOp link
  readBatchReply link p

/-- Numbers of the responses that are inbound behind a failed one, exec included. -/
def inboundBehind (first expected consumed : Nat) : List Nat :=
  List.range' (first + consumed + 1) (expected - consumed)

def markEach : List Nat → M Unit
  | [] => pure ()
  | n :: ns => do
    markDeferred n
    markEach ns

/-- The responses of a cycle; `consumed` of `expected` have been read. -/
def readCycle (first expected : Nat) : (remaining : Nat) → M BatchCompletion
  | 0 => readBatchCompletion link
  | remaining + 1 =>
    do
    match ← Async.attempt (readResponse link) with
    | .ok _ => readCycle first expected remaining
    | .error e =>
      markEach (inboundBehind first expected (expected - (remaining + 1)))
      throw e

/-- The writes and reads of one cycle. -/
def cycleWire (stmt : StmtHandle) (txHandle : Nat) (st : BatchState) : M BatchCompletion := do
  let first := (← get).requests
  let reqs := cyclePrefix stmt st
  sendEach link reqs
  let _ ← send link (.batchExec stmt txHandle)
  flush
  readCycle link first reqs.length reqs.length

def BatchResult.add (r : BatchResult) (rows : Nat) (c : BatchCompletion) : BatchResult where
  rowCount := r.rowCount + rows
  rowsAffected := r.rowsAffected + (c.updateCounts.filter (0 < ·)).sum
  updateCounts := r.updateCounts ++ c.updateCounts
  errors := r.errors ++ c.errors.map fun (i, e) => (r.rowCount + i, e)

def execCycle (stmt : StmtHandle) (txHandle : Nat) (batch : BatchOptions) (st : BatchState) :
    M (Except FirebirdError Unit × BatchState) := do
  match ← Async.attempt (cycleWire link stmt txHandle st) with
  | .error e => pure (.error e, { st with created := true })
  | .ok completion =>
    let combined := st.combined.add st.rowBufs.length completion
    let st : BatchState := { combined, created := true }
    match combined.errors with
    | (i, e) :: _ =>
      if batch.continueOnError then pure (.ok (), st)
      else
        let error : FirebirdError :=
          { kind := .batch
            message := "batch row " ++ toString i ++ " failed: " ++
              (e.map (·.message)).getD "unknown error"
            gdsCode := e.bind (·.gdsCode) }
        pure (.error error, st)
    | [] => pure (.ok (), st)

def ParamValue.blobId : ParamValue → Option Bytes
  | .blobRef id _ => some id
  | _ => none

/-- Binds and encodes one row; its blobs are uploaded first. -/
def encodeRow (txHandle : Nat) (info : PreparedStatementInfo) (format : BatchFormat)
    (names : List String) (index : Nat) (row : Except FirebirdError QueryParams) :
    M (List Bytes × Bytes) := do
  modify (Conn.await link)
  let row ← Async.lift row
  let values ← Async.lift (codec.bindBatchRow row names index)
  let (prepared, encodeText) ← prepareParams link codec opts txHandle info values
  let blobIds := format.blobIndices.filterMap fun i => prepared[i]?.bind ParamValue.blobId
  let buf ← Async.lift (codec.encodeBatchRow format prepared encodeText)
  pure (blobIds, buf)

/-- Blob ids are registered once a cycle. -/
def registerBlobs (seen ids : List Bytes) : List Bytes :=
  ids.foldl (fun seen id => if seen.contains id then seen else seen ++ [id]) seen

def BatchState.addRow (st : BatchState) (blobIds : List Bytes) (buf : Bytes) : BatchState :=
  { st with
    rowBufs := st.rowBufs ++ [buf]
    cycleBlobIds := registerBlobs st.cycleBlobIds blobIds }

/-- All the rows; a cycle runs whenever `chunkBytes` have accumulated. -/
def runRows (txHandle : Nat) (info : PreparedStatementInfo) (format : BatchFormat)
    (names : List String) (batch : BatchOptions) :
    BatchRows → Nat → BatchState → M (Except FirebirdError Unit × BatchState)
  | [], _, st => do
    modify (Conn.await link)
    if st.rowBufs.isEmpty then pure (.ok (), st)
    else execCycle link info.handle txHandle batch st
  | row :: rows, index, st => do
    match ← Async.attempt (encodeRow link codec opts txHandle info format names index row) with
    | .error e => pure (.error e, st)
    | .ok (blobIds, buf) =>
      let st := st.addRow blobIds buf
      if max format.alignedStride batch.chunkBytes ≤ st.rowBufs.length * format.alignedStride then
        match ← execCycle link info.handle txHandle batch st with
        | (.ok (), st) => runRows txHandle info format names batch rows (index + 1) st
        | (.error e, st) => pure (.error e, st)
      else runRows txHandle info format names batch rows (index + 1) st

/-- Deferred, rides the next packet. -/
def writeBatchRelease (stmt : StmtHandle) (created : Bool) : M Unit :=
  if created then sendDeferred link (.batchRls stmt) else pure ()

def runBatch (txHandle : Nat) (info : PreparedStatementInfo) (rows : BatchRows)
    (names : List String) (batch : BatchOptions) : M BatchResult := do
  let format ← Async.lift (codec.buildBatchFormat info.description.inputs)
  let (r, st) ← runRows link codec opts txHandle info format names batch rows 0 {}
  writeBatchRelease link info.handle st.created
  match r with
  | .ok () => pure st.combined
  | .error e => throw e

def tooOldForBatch : FirebirdError :=
  { message := "executeBatch requires Firebird 4+ (wire protocol 16)" }

/-- The caller owns the statement. -/
def executeBatchPrepared (txHandle : Nat) (info : PreparedStatementInfo) (rows : BatchRows)
    (names : List String) (batch : BatchOptions) : M BatchResult := do
  if (← get).protocolVersion < 16 then throw tooOldForBatch
  else if !info.description.stmtType.wantsRecordCounts then
    throw { message := "executeBatch supports INSERT/UPDATE/DELETE/EXECUTE PROCEDURE statements" }
  else if !info.description.outputs.isEmpty then
    throw { message := "executeBatch does not support RETURNING" }
  else if info.description.inputs.isEmpty then
    throw { message := "executeBatch requires a statement with parameters" }
  else runBatch link codec opts txHandle info rows names batch

/-- What becomes of the statement of a batch that failed. -/
def Conn.abandonBatch (sql : String) (cached : Bool) (info : PreparedStatementInfo) (c : Conn) : Conn :=
  let c := c.cacheRemove link sql
  if cached then c else c.freeStatement link info.handle .drop

def executeBatchStatement (txHandle : Nat) (sql : String) (rows : BatchRows) (batch : BatchOptions) :
    M BatchResult := do
  if (← get).protocolVersion < 16 then throw tooOldForBatch
  else
    let (sql, names) := codec.rewriteNamedParams sql
    let cached ← cacheGet sql
    let info ← orPrepare link codec txHandle sql cached
    Async.handle
      (do
        let result ← executeBatchPrepared link codec opts txHandle info rows names batch
        finishStatement link sql info
        pure result)
      fun e => do
        modify (Conn.abandonBatch link sql cached.isSome info)
        throw e

end FastFirebird
