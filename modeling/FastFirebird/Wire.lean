import FastFirebird.InlineCache

/-! `WireConnection`: one writer, one deferred-response counter, one reader.
A connection also carries the session's statement cache, because the pool may
clear it while a reader waits. -/
namespace FastFirebird

/-- Prepared statements by SQL text, least recently used first. -/
structure StatementCache where
  capacity : Nat
  map : List (String × PreparedStatementInfo) := []

/-- What has happened on a connection, for the properties to speak about.
`deferred` is a request written by a caller that leaves the response to the
drain in `readOp`. -/
inductive Event where
  | sent (request turn : Nat) (deferred : Bool) (req : Request) (answer : Answer)
  | marked (request : Nat)
  | drained (request : Nat)
  | returned (request turn reader : Nat)
  | cleared (entries deferredResponses : Nat) (owed : List Packet)

/-- `inbound` is what the server still has to deliver for the flushed requests,
`unflushed` what it will answer to the requests in the writer. -/
structure Conn where
  deferredResponses : Nat := 0
  inbound : List Packet := []
  unflushed : List Packet := []
  flushCount : Nat := 0
  requests : Nat := 0
  turn : Nat := 0
  awaits : Nat := 0
  log : List Event := []
  protocolVersion : Nat := 13
  dbHandle : Nat := 0
  cache : Option StatementCache := none
  starCache : List (String × String) := []
  inline : Option InlineBlobCache := none

/-- The other end of the wire, and the awaits during which the pool clears the
statement cache of this connection (`Pool.clearStatementCaches`). -/
structure Link where
  server : Server
  clearAt : Nat → Bool

abbrev M := Async Conn FirebirdError

namespace Conn

variable (link : Link)

/-- Writes a request into the packet buffer. -/
def send (deferred : Bool) (req : Request) (c : Conn) : Conn :=
  { c with
    unflushed := c.unflushed ++ link.server.packets req c.requests c.turn
    requests := c.requests + 1
    log := .sent c.requests c.turn deferred req (link.server.answer req c.requests) :: c.log }

/-- `markDeferred`; the counter does not know which request it was called for. -/
def markDeferred (request : Nat) (c : Conn) : Conn :=
  { c with
    deferredResponses := c.deferredResponses + 1
    log := .marked request :: c.log }

/-- A request written together with its `markDeferred`. -/
def sendDeferred (req : Request) (c : Conn) : Conn :=
  (c.send link true req).markDeferred c.requests

/-- `freeStatement` without an immediate flush. -/
def freeStatement (stmt : StmtHandle) (action : FreeStatement) (c : Conn) : Conn :=
  c.sendDeferred link (.freeStatement stmt action)

def flush (c : Conn) : Conn :=
  if c.unflushed.isEmpty then c
  else
    { c with
      inbound := c.inbound ++ c.unflushed
      unflushed := []
      flushCount := c.flushCount + 1 }

def freeAll (infos : List PreparedStatementInfo) (c : Conn) : Conn :=
  infos.foldl (fun c info => c.freeStatement link info.handle .drop) c

/-- `StatementCache.clear` -/
def clearCache (c : Conn) : Conn :=
  match c.cache with
  | none => c
  | some cache =>
    { c.freeAll link (cache.map.map (·.2)) with cache := some { cache with map := [] } }

def cachedStatements (c : Conn) : Nat := (c.cache.map (·.map.length)).getD 0

def noteClear (c : Conn) : Conn :=
  { c with log := .cleared c.cachedStatements c.deferredResponses (c.inbound ++ c.unflushed) ::
      c.log }

/-- `Pool.clearStatementCaches` on a borrowed connection: outside the op-lock. -/
def clearInUse (c : Conn) : Conn := c.noteClear.clearCache link

def tick (c : Conn) : Conn := { c with awaits := c.awaits + 1 }

/-- An await; other code runs meanwhile. -/
def await (c : Conn) : Conn := if link.clearAt c.awaits then c.tick.clearInUse link else c.tick

def onInlineBlob (txId : Nat) (blobId data : Bytes) (c : Conn) : Conn :=
  { c with inline := c.inline.map (·.store txId blobId data) }

/-- Waits until the head of `p :: ps` is there, and takes it off. -/
def receive (p : Packet) (ps : List Packet) (c : Conn) : Conn :=
  { { c with inbound := p :: ps }.await link with inbound := ps }

def drainOne (p : Packet) (c : Conn) : Conn :=
  { c with
    deferredResponses := c.deferredResponses - 1
    log := .drained p.request :: c.log }

def handOver (p : Packet) (c : Conn) : Conn :=
  { c with log := .returned p.request p.turn c.turn :: c.log }

/-- Gives the rest of a message back to the stream. -/
def putBack (p : Packet) (c : Conn) : Conn := { c with inbound := p :: c.inbound }

end Conn

variable (link : Link)

def garbled : FirebirdError := { kind := .protocol, message := "garbled" }

def readOpFrom : List Packet → Conn → Outcome FirebirdError Packet × Conn
  | [], c => (.pending, { c with inbound := [] }.await link)
  | p :: ps, c =>
    let c := c.receive link p ps
    match p.body with
    | .volunteer .dummy => readOpFrom ps c
    | .volunteer (.inlineBlob txId blobId data) => readOpFrom ps (c.onInlineBlob txId blobId data)
    | .response r =>
      if 0 < c.deferredResponses then
        match r with
        | .ok _ => readOpFrom ps (c.drainOne p)
        | .error e => (.error e, c.drainOne p) -- parseResponseBody throws, and nothing catches it
      else (.ok p, c.handOver p)
    | .row _ | .torn => (.error garbled, c.putBack p)
    | .sqlResponse _ | .fetchResponse _ _ | .batchCs _ => (.ok p, c.handOver p)

/-- The next operation that is neither volunteered nor deferred. -/
def readOp : M Packet := fun c => readOpFrom link c.inbound c

/-- Gives up on a message after reading its op code. -/
def unexpectedOp {α : Type} (p : Packet) : M α := do
  modify (Conn.putBack { p with body := .torn })
  throw { kind := .protocol, message := "unexpected op" }

def parseResponseBody (r : Reply) : M Response := do
  modify (Conn.await link)
  Async.lift r

def readResponse : M Response := do
  let p ← readOp link
  match p.body with
  | .response r => parseResponseBody link r
  | _ => unexpectedOp p

/-- Writes a request whose response the caller reads itself. -/
def send (req : Request) : M Nat := do
  let c ← get
  set (c.send link false req)
  pure c.requests

def sendDeferred (req : Request) : M Unit := modify (Conn.sendDeferred link req)

def freeStatement (stmt : StmtHandle) (action : FreeStatement) : M Unit :=
  modify (Conn.freeStatement link stmt action)

def markDeferred (request : Nat) : M Unit := modify (Conn.markDeferred request)

def flush : M Unit := modify Conn.flush

/-- Write, flush, and await the one response. -/
def roundTrip (req : Request) : M Response := do
  let _ ← send link req
  flush
  readResponse link

end FastFirebird
