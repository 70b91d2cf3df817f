import FastFirebird.Async

/-! The data that crosses the wire: requests as the client writes them, answers
as the server gives them, and the packets an answer reaches the reader in. -/
namespace FastFirebird

abbrev Bytes := List UInt8

inductive ErrorClass where
  | firebird
  | protocol
  | blob
  | batch
  | other
  deriving Repr, DecidableEq

/-- `FirebirdError` with its subclasses, and any other thrown value. -/
structure FirebirdError where
  kind : ErrorClass := .firebird
  message : String
  gdsCode : Option Nat := none
  deriving Repr, DecidableEq

inductive StmtType where
  | select
  | insert
  | update
  | delete
  | ddl
  | getSegment
  | putSegment
  | execProcedure
  | startTrans
  | commit
  | rollback
  | selectForUpd
  | setGenerator
  | savepoint
  deriving Repr, DecidableEq

/-- One described column or parameter. -/
structure SqlVarDesc where
  type : Nat
  nullable : Bool
  subType : Int
  scale : Int
  length : Nat
  field : Option String := none
  relation : Option String := none
  owner : Option String := none
  aliasName : Option String := none
  relationAlias : Option String := none
  deriving Repr, DecidableEq

structure StatementDescription where
  stmtType : StmtType
  inputs : List SqlVarDesc
  outputs : List SqlVarDesc
  deriving Repr, DecidableEq

/-- A decoded column value; blob columns decode to a reference. -/
inductive Value where
  | null
  | blobRef (id : Bytes) (subType : Int)
  | scalar (data : Bytes)
  deriving Repr, DecidableEq

/-- Decodes the bytes of one non-NULL column. A text column may run a transcode
adapter of the user's, which can throw. -/
abbrev ColumnReader := Bytes → Except FirebirdError Value

/-- The server hands out `id`, and may hand it out again once it is dropped;
`alloc` is the number of the request that allocated the handle. -/
structure StmtHandle where
  id : Nat
  alloc : Nat
  deriving Repr, DecidableEq

structure PreparedStatementInfo where
  handle : StmtHandle
  description : StatementDescription
  outputBlr : Bytes
  columnReaders : List ColumnReader
  rowWidth : Nat

/-- A parameter message: its BLR and its data. -/
structure EncodedParams where
  blr : Bytes
  message : Bytes
  deriving Repr, DecidableEq

inductive FreeStatement where
  | close
  | drop
  deriving Repr, DecidableEq

/-- The requests of an open attachment. `behind` is the execute a fetch or an
info request shares its packet with. -/
inductive Request where
  | allocateStatement (db : Nat)
  | prepareStatement (tx : Nat) (sql : String)
  | execute (stmt : PreparedStatementInfo) (tx : Nat) (params : Option EncodedParams)
  | execute2 (stmt : PreparedStatementInfo) (tx : Nat) (params : Option EncodedParams)
  | fetch (stmt : PreparedStatementInfo) (count : Nat) (behind : Option Nat)
  | infoSql (stmt : StmtHandle) (behind : Option Nat)
  | freeStatement (stmt : StmtHandle) (action : FreeStatement)
  | openBlob (tx : Nat) (blobId : Bytes)
  | getSegment (blob : Nat) (bufferLength : Nat)
  | closeBlob (blob : Nat)
  | createBlob (tx : Nat)
  | batchSegments (blob : Nat) (segment : Bytes)
  | infoBlob (blob : Nat)
  | batchCreate (stmt : StmtHandle)
  | batchRegblob (stmt : StmtHandle) (blobId : Bytes)
  | batchMsg (stmt : StmtHandle) (rows : List Bytes)
  | batchExec (stmt : StmtHandle) (tx : Nat)
  | batchRls (stmt : StmtHandle)
  | transaction (db : Nat)
  | commit (tx : Nat) (retain : Bool)
  | rollback (tx : Nat) (retain : Bool)
  | ping
  | connectRequest (db : Nat)
  | queEvents (db : Nat)
  | cancelEvents (db : Nat)
  | detach
  | dropDatabase (db : Nat)

/-- The body of an `op_response` without an error in its status vector. -/
structure Response where
  handle : Nat := 0
  oid : Bytes := []
  data : Bytes := []
  deriving Repr, DecidableEq

abbrev Reply := Except FirebirdError Response

def Reply.isOk : Reply → Bool
  | .ok _ => true
  | .error _ => false

/-- The columns of one row by position; `none` is a set bit of the null bitmap. -/
abbrev RowAnswer := Nat → Option Bytes

/-- `op_execute2`: a plain `op_response`, or an `op_sql_response` with at most
one row, closed by an `op_response`. -/
inductive SingletonAnswer where
  | plain (r : Reply)
  | row (cells : Option RowAnswer) (final : Reply)

inductive FetchEnd where
  | eof
  | more
  | error (e : FirebirdError)

/-- `op_fetch`: rows, then end of cursor, end of batch, or an error. -/
structure FetchAnswer where
  rows : List RowAnswer
  finish : FetchEnd

structure BatchCompletion where
  recCount : Nat
  updateCounts : List Int
  errors : List (Nat × Option FirebirdError)

/-- `op_batch_exec` -/
inductive BatchAnswer where
  | completed (c : BatchCompletion)
  | refused (e : FirebirdError)

inductive Answer where
  | reply (r : Reply)
  | singleton (a : SingletonAnswer)
  | rows (a : FetchAnswer)
  | batch (a : BatchAnswer)

/-- Keep-alives and inline blobs, which the server may send ahead of any
message. -/
inductive Volunteer where
  | dummy
  | inlineBlob (txId : Nat) (blobId : Bytes) (data : Bytes)
  deriving Repr, DecidableEq

/-- What the reader takes off the wire in one piece. A `row` follows the head
of its message; `torn` is a message of which only the op code has been read. -/
inductive Body where
  | volunteer (v : Volunteer)
  | response (r : Reply)
  | sqlResponse (count : Nat)
  | row (cells : List (Option Bytes))
  | fetchResponse (status count : Nat)
  | batchCs (c : BatchCompletion)
  | torn

/-- `request` numbers the request it answers, `turn` the turn of the op-lock
that wrote the request. -/
structure Packet where
  request : Nat
  turn : Nat
  body : Body

/-- The server, by the requests it gets and their numbers. Its choices are
arbitrary; only the shape of an answer is fixed by the request. -/
structure Server where
  reply : Request → Nat → Reply
  singleton : Request → Nat → SingletonAnswer
  fetch : Request → Nat → FetchAnswer
  batchExec : Request → Nat → BatchAnswer
  volunteers : Nat → Nat → List Volunteer

def Server.answer (server : Server) (req : Request) (n : Nat) : Answer :=
  match req with
  | .execute2 _ _ _ => .singleton (server.singleton req n)
  | .fetch _ _ _ => .rows (server.fetch req n)
  | .batchExec _ _ => .batch (server.batchExec req n)
  | _ => .reply (server.reply req n)

/-- Columns of the output message a request is answered with. -/
def Request.columns : Request → Nat
  | .execute2 stmt _ _ => stmt.columnReaders.length
  | .fetch stmt _ _ => stmt.columnReaders.length
  | _ => 0

def rowCells (columns : Nat) (cells : RowAnswer) : List (Option Bytes) :=
  (List.range columns).map cells

def FetchEnd.message : FetchEnd → List Body
  | .eof => [.fetchResponse 100 0]
  | .more => [.fetchResponse 0 0]
  | .error e => [.response (.error e)]

/-- The messages of an answer, each as the packets it is read in. -/
def Answer.messages (columns : Nat) : Answer → List (List Body)
  | .reply r => [[.response r]]
  | .singleton (.plain r) => [[.response r]]
  | .singleton (.row none final) => [[.sqlResponse 0], [.response final]]
  | .singleton (.row (some cells) final) =>
    [[.sqlResponse 1, .row (rowCells columns cells)], [.response final]]
  | .rows a =>
    a.rows.map (fun cells => [.fetchResponse 0 1, .row (rowCells columns cells)]) ++
      [a.finish.message]
  | .batch (.completed c) => [[.batchCs c]]
  | .batch (.refused e) => [[.response (.error e)]]

/-- Messages in sending order; `volunteers k` goes out ahead of the `k`-th. -/
def interleave (volunteers : Nat → List Volunteer) : List (List Body) → List Body
  | [] => []
  | m :: ms => (volunteers 0).map .volunteer ++ m ++ interleave (fun k => volunteers (k + 1)) ms

/-- The packets in which the answer to request `n`, written in `turn`, arrives. -/
def Server.packets (server : Server) (req : Request) (n turn : Nat) : List Packet :=
  (interleave (server.volunteers n) ((server.answer req n).messages req.columns)).map
    fun body => ⟨n, turn, body⟩

end FastFirebird
