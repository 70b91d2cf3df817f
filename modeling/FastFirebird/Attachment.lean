import FastFirebird.Machine
import Mathlib.Data.List.Basic

/-! The objects of one attachment over its reconnects: transactions, prepared statements,
streams and lazy blobs. An event is a call up to its first await, or what happens to the section
that holds the lock, or a call going on behind an await of another call. -/
namespace FastFirebird

namespace Attachment

/-- `id` is the server's number, which it may give again; `serial` tells the transactions of a
run apart, and `conn` is the connection they belong to. -/
structure TxHandle where
  conn : Nat
  serial : Nat
  id : Nat
  deriving Repr, DecidableEq

structure TxOptions where
  readOnly : Bool
  autoUpgradeReadOnly : Bool
  deriving Repr, DecidableEq

/-- `reopening` is no field of the source: a `restart` has finished the transaction and not yet
started the next one. -/
structure Tx where
  currentHandle : TxHandle
  options : TxOptions
  attGeneration : Nat
  finished : Bool := false
  generation : Nat := 0
  reopening : Bool := false
  deriving Repr, DecidableEq

/-- `conn` is the connection on which the statement has its handle. -/
structure Prepared where
  conn : Nat
  attGeneration : Nat
  closed : Bool := false
  deriving Repr, DecidableEq

/-- The `txAlive` closures: the one of `runContext`, and the one that `PreparedStatement.run`
and `Attachment.queryStream` pass. -/
inductive TxAlive where
  | runContext (tx generation : Nat)
  | notFinished (tx : Nat)
  deriving Repr, DecidableEq

/-- What a stream or a lazy blob has captured. The generations of its transaction and of the
attachment at that moment are kept for the record. -/
structure Scope where
  wire : Nat
  txHandle : TxHandle
  txAlive : TxAlive
  txGeneration : Nat
  attGeneration : Nat
  deriving Repr, DecidableEq

structure LazyBlob where
  id : Nat
  scope : Scope
  cached : Bool := false
  deriving Repr, DecidableEq

/-- What a call does behind the `startTransaction` of its own transaction. -/
inductive After where
  | nothing
  | stream
  | use (prepares : Bool)
  | exec (stmt : Nat)
  deriving Repr, DecidableEq

/-- The sections that take the lock. `use` is the statement of `Attachment.executeBatch`, or the
`prepareInfo` of `Attachment.prepare`; `finish` is `commit` or `rollback`. -/
inductive Job where
  | start (options : TxOptions) (after : After)
  | run (tx : Nat) (replay : Bool)
  | executeBatch (tx : Nat)
  | retaining (tx : Nat) (rollback : Bool)
  | finish (tx : Nat) (rollback : Bool)
  | restartFinish (tx : Nat) (rollback : Bool) (strategy : Option TxOptions) (upgrade : Bool)
  | restartStart (tx : Nat) (upgrade : Bool)
  | use (tx : Nat) (prepares : Bool)
  | prepared (stmt tx : Nat) (own : Bool)
  | closePrepared (stmt : Nat)
  | stream (scope : Scope)
  | blob (scope : Scope) (targets : List Nat) (checks : Bool)
  | reconnect
  deriving Repr, DecidableEq

/-- What a call goes on with once a call of its own has resolved. -/
inductive Continuation where
  | replay (tx : Nat)
  | use (tx : Nat) (prepares : Bool)
  | exec (stmt tx : Nat)
  | construct (conn attGeneration : Nat)
  deriving Repr, DecidableEq

/-- The handles in a request, and the connection it is written on. A database or a statement
handle is named by the connection it was obtained on. -/
structure Request where
  conn : Nat
  db : Option Nat
  tx : Option TxHandle
  stmt : Option Nat
  deriving Repr, DecidableEq

inductive Entry where
  | wrote (request : Request)
  | ended (serial : Nat)
  deriving Repr, DecidableEq

/-- A transaction of the server, and the object that started it. -/
structure Live where
  serial : Nat
  owner : Nat
  conn : Nat
  deriving Repr, DecidableEq

/-- The section that holds the lock. -/
structure Section where
  job : Job
  request : Request
  scope : Option Scope
  deriving Repr, DecidableEq

/-- What the response brings along: the handle of a new transaction, lazy blobs (`true` if the
server has sent the contents inline), or all of a blob. -/
structure Reply where
  txId : Nat := 0
  blobs : List (Nat × Bool) := []
  complete : Bool := false
  deriving Repr, DecidableEq

inductive ReadOutcome where
  | fromMemory
  | rejected
  | asked
  deriving Repr, DecidableEq

inductive Event where
  | startTransaction (options : TxOptions) (after : After)
  | run (tx : Nat)
  | executeBatch (tx : Nat)
  | queryStream (tx : Nat)
  | finish (tx : Nat) (rollback : Bool)
  | dispose (tx : Nat)
  | retaining (tx : Nat) (rollback : Bool)
  | restart (tx : Nat) (rollback : Bool) (strategy : Option TxOptions)
  | preparedRun (stmt tx : Nat)
  | preparedRunOwn (stmt : Nat) (options : TxOptions)
  | closePrepared (stmt : Nat)
  | streamNext (stream : Nat)
  | readBlob (blob : Nat)
  | pullBlob (blob : Nat)
  | prefetchSlice (blob : Nat)
  | prefetch (blobs : List Nat)
  | reconnect
  | begin
  | disconnected
  | ok (reply : Reply)
  | refused (readOnly : Bool)
  | resume (k : Nat)
  deriving Repr, DecidableEq

end Attachment

open Attachment in
/-- `inline` are the keys (connection, transaction id, blob id) in the inline-blob caches. -/
structure Attachment where
  generation : Nat := 0
  conn : Nat := 0
  isAlive : Bool := true
  txs : List Tx := []
  stmts : List Prepared := []
  streams : List Scope := []
  blobs : List LazyBlob := []
  inline : List (Nat × Nat × Nat) := []
  queue : List Job := []
  running : Option Section := none
  continuations : List Continuation := []
  live : List Live := []
  serials : Nat := 0
  trace : List Entry := []
  deriving Repr, DecidableEq

namespace Attachment

def enqueue (job : Job) (s : Attachment) : Attachment := { s with queue := s.queue ++ [job] }

def modifyTx (i : Nat) (f : Tx → Tx) (s : Attachment) : Attachment :=
  { s with txs := s.txs.modify i f }

def assertActive (s : Attachment) (t : Tx) : Bool :=
  t.attGeneration == s.generation && !t.finished

def assertOpen (s : Attachment) (p : Prepared) : Bool :=
  !p.closed && p.attGeneration == s.generation

def txAlive (s : Attachment) : TxAlive → Bool
  | .runContext tx generation =>
    s.txs[tx]?.any fun t => !t.finished && t.generation == generation &&
      s.generation == t.attGeneration && s.isAlive
  | .notFinished tx => s.txs[tx]?.any fun t => !t.finished && s.isAlive

/-- The transaction whose handle a section takes when it begins. -/
def Job.tx : Job → Option Nat
  | .run tx _ | .executeBatch tx | .retaining tx _ | .finish tx _ | .restartFinish tx _ _ _
  | .use tx _ | .prepared _ tx _ => some tx
  | .start _ _ | .restartStart _ _ | .closePrepared _ | .stream _ | .blob _ _ _ | .reconnect => none

/-- The `PreparedStatement` whose handle a section takes when it begins. -/
def Job.stmt : Job → Option Nat
  | .prepared stmt _ _ | .closePrepared stmt => some stmt
  | _ => none

/-- Whether a section allocates its statement on its own connection, or has it from the cache of the
session there. -/
def Job.allocates : Job → Bool
  | .run _ _ | .executeBatch _ | .use _ _ | .stream _ => true
  | _ => false

/-- What a section has captured before it begins. -/
def Job.captured : Job → Option Scope
  | .stream scope | .blob scope _ _ => some scope
  | _ => none

/-- Whether a section may send the database handle of its session. -/
def Job.db : Job → Bool
  | .start _ _ | .restartStart _ _ | .run _ _ | .executeBatch _ | .use _ _ | .stream _ => true
  | _ => false

def request (s : Attachment) (job : Job) : Request :=
  match job.captured with
  | some scope =>
    { conn := scope.wire
      db := if job.db then some scope.wire else none
      tx := some scope.txHandle
      stmt := if job.allocates then some scope.wire else none }
  | none =>
    { conn := s.conn
      db := if job.db then some s.conn else none
      tx := job.tx.bind fun i => s.txs[i]?.map (·.currentHandle)
      stmt :=
        if job.allocates then some s.conn
        else job.stmt.bind fun i => s.stmts[i]?.map (·.conn) }

/-- A scope on a transaction as it is now. -/
def scope (s : Attachment) (t : Tx) (txAlive : TxAlive) : Scope :=
  ⟨s.conn, t.currentHandle, txAlive, t.generation, s.generation⟩

def runContext (s : Attachment) (i : Nat) (t : Tx) : Scope :=
  s.scope t (.runContext i t.generation)

/-- What the lazy blobs of a section capture. -/
def sectionScope (s : Attachment) : Job → Option Scope
  | .run tx _ => s.txs[tx]?.map (s.runContext tx)
  | .prepared _ tx false => s.txs[tx]?.map fun t => s.scope t (.notFinished tx)
  | .stream scope => some scope
  | _ => none

/-- `fn` of the next call in the chain runs, up to its first response. -/
def begin (s : Attachment) : Option Attachment :=
  match s.running, s.queue with
  | none, .reconnect :: queue =>
    some { s with
      queue := queue
      generation := s.generation + 1
      inline := s.inline.filter (·.1 ≠ s.conn)
      running := some ⟨.reconnect, ⟨s.conn, none, none, none⟩, none⟩ }
  | none, job@(.blob scope _ true) :: queue =>
    if s.txAlive scope.txAlive then
      some { s with
        queue := queue
        running := some ⟨job, s.request job, none⟩
        trace := s.trace ++ [.wrote (s.request job)] }
    else some { s with queue := queue }
  | none, job :: queue =>
    some { s with
      queue := queue
      running := some ⟨job, s.request job, s.sectionScope job⟩
      trace := s.trace ++ [.wrote (s.request job)] }
  | _, _ => none

/-- The old connection is closed, and its transactions end with it. -/
def disconnected (s : Attachment) : Option Attachment :=
  match s.running with
  | some ⟨.reconnect, _, _⟩ =>
    some { s with
      isAlive := false
      live := s.live.filter (·.conn ≠ s.conn)
      trace := s.trace ++ (s.live.filter (·.conn = s.conn)).map (.ended ·.serial) }
  | _ => none

/-- `restart`, up to its first await. -/
def restart (i : Nat) (t : Tx) (rollback : Bool) (strategy : Option TxOptions) (upgrade : Bool)
    (s : Attachment) : Attachment :=
  if t.attGeneration ≠ s.generation then s
  else if t.finished then
    (s.modifyTx i fun t => { t with options := strategy.getD t.options }).enqueue
      (.restartStart i upgrade)
  else s.enqueue (.restartFinish i rollback strategy upgrade)

def shouldAutoUpgrade (t : Tx) (readOnlyViolation : Bool) : Bool :=
  !t.finished && t.options.readOnly && t.options.autoUpgradeReadOnly && readOnlyViolation

/-- The server has committed or rolled back the transaction of the request. -/
def ended (request : Request) (s : Attachment) : Attachment :=
  match request.tx with
  | some h => { s with
      live := s.live.filter (·.serial ≠ h.serial)
      trace := s.trace ++ [.ended h.serial] }
  | none => s

def clearTx (i : Nat) (s : Attachment) : Attachment :=
  match s.txs[i]? with
  | some t => { s with
      inline := s.inline.filter fun k => ¬(k.1 = s.conn ∧ k.2.1 = t.currentHandle.id) }
  | none => s

/-- The lazy blobs of a result. -/
def addBlobs (scope : Option Scope) (blobs : List (Nat × Bool)) (s : Attachment) : Attachment :=
  match scope with
  | some scope => { s with
      blobs := s.blobs ++ blobs.map fun b => ⟨b.1, scope, false⟩
      inline := s.inline ++ (blobs.filter (·.2)).map fun b => (scope.wire, scope.txHandle.id, b.1) }
  | none => s

/-- `startTransaction` has the handle: the new transaction is the `owner`'s. -/
def started (id owner : Nat) (s : Attachment) : TxHandle × Attachment :=
  (⟨s.conn, s.serials, id⟩,
    { s with serials := s.serials + 1, live := s.live ++ [⟨s.serials, owner, s.conn⟩] })

def newTransaction (options : TxOptions) (after : After) (id : Nat) (s : Attachment) : Attachment :=
  let tx := s.txs.length
  let (handle, s) := s.started id tx
  let t : Tx := { currentHandle := handle, options := options, attGeneration := s.generation }
  let s := { s with txs := s.txs ++ [t] }
  match after with
  | .nothing => s
  | .stream => { s with streams := s.streams ++ [s.scope t (.notFinished tx)] }
  | .use prepares => { s with continuations := s.continuations ++ [.use tx prepares] }
  | .exec stmt => { s with continuations := s.continuations ++ [.exec stmt tx] }

def restarted (i : Nat) (upgrade : Bool) (id : Nat) (s : Attachment) : Attachment :=
  let (handle, s) := s.started id i
  let s := s.modifyTx i fun t => { t with
    currentHandle := handle
    generation := t.generation + 1
    finished := false
    reopening := false }
  if upgrade then { s with continuations := s.continuations ++ [.replay i] } else s

/-- The section has its response, and the call goes on to its next await. -/
def ok (reply : Reply) (s : Attachment) : Option Attachment :=
  s.running.bind fun r =>
    let s := { s with running := none }
    match r.job with
    | .start options after => some (s.newTransaction options after reply.txId)
    | .run _ _ | .stream _ => some (s.addBlobs r.scope reply.blobs)
    | .prepared _ _ _ => some (s.addBlobs r.scope reply.blobs)
    | .executeBatch _ | .retaining _ _ | .closePrepared _ => some s
    | .finish tx _ => some ((s.ended r.request).clearTx tx)
    | .restartFinish tx _ strategy upgrade =>
      some (((s.ended r.request).modifyTx tx fun t => { t with
        options := strategy.getD t.options
        reopening := true }).enqueue (.restartStart tx upgrade))
    | .restartStart tx upgrade => some (s.restarted tx upgrade reply.txId)
    | .use _ prepares =>
      some (if prepares then
        { s with continuations := s.continuations ++ [.construct r.request.conn s.generation] }
      else s)
    | .blob _ targets _ =>
      some (if reply.complete then
        { s with blobs := s.blobs.mapIdx fun k b =>
          if targets.contains k then { b with cached := true } else b }
      else s)
    | .reconnect =>
      if s.isAlive then none else some { s with conn := s.conn + 1, isAlive := true }

/-- The server has refused the section's request. -/
def refused (readOnly : Bool) (s : Attachment) : Option Attachment :=
  s.running.bind fun r =>
    let s := { s with running := none }
    match r.job with
    | .run tx false =>
      match s.txs[tx]? with
      | some t =>
        some (if shouldAutoUpgrade t readOnly then
          s.restart tx t false (some { t.options with readOnly := false }) true
        else s)
      | none => some s
    | .finish tx _ => some (s.modifyTx tx fun t => { t with finished := false })
    | .reconnect => if s.isAlive then none else some s
    | _ => some s

/-- `commit` and `rollback`, up to their await. -/
def finish (i : Nat) (rollback : Bool) (s : Attachment) : Attachment :=
  (s.modifyTx i fun t => { t with finished := true }).enqueue (.finish i rollback)

def inlined (s : Attachment) (b : LazyBlob) : Bool :=
  s.inline.contains (b.scope.wire, b.scope.txHandle.id, b.id)

/-- A blob's bytes come from the inline cache. -/
def claim (k : Nat) (b : LazyBlob) (s : Attachment) : Attachment :=
  { s with
    blobs := s.blobs.modify k fun b => { b with cached := true }
    inline := s.inline.filter (· ≠ (b.scope.wire, b.scope.txHandle.id, b.id)) }

/-- `buffer`, `text`, `toFile`, `head`, `size` and `stream`, up to their first await. -/
def readBlob (k : Nat) (b : LazyBlob) (s : Attachment) : ReadOutcome × Attachment :=
  if b.cached then (.fromMemory, s)
  else if !s.txAlive b.scope.txAlive then (.rejected, s)
  else if s.inlined b then (.fromMemory, s.claim k b)
  else (.asked, s.enqueue (.blob b.scope [k] false))

/-- The blobs of a `Blob.prefetch` that have to be asked for; the others are in memory, or are
claimed from the inline cache here and now. -/
def prefetchClaims : List (Nat × LazyBlob) → Attachment → List (Nat × LazyBlob) × Attachment
  | [], s => ([], s)
  | (k, b) :: rest, s =>
    if b.cached then prefetchClaims rest s
    else if s.inlined b then prefetchClaims rest (s.claim k b)
    else
      let (group, s) := prefetchClaims rest s
      ((k, b) :: group, s)

/-- `Blob.prefetch` of blobs of one group, up to its await. -/
def prefetch (blobs : List (Nat × LazyBlob)) (s : Attachment) : ReadOutcome × Attachment :=
  match s.prefetchClaims blobs with
  | ([], s) => (.fromMemory, s)
  | ((k, b) :: group, s) =>
    if s.txAlive b.scope.txAlive then
      (.asked, s.enqueue (.blob b.scope (k :: group.map (·.1)) false))
    else (.rejected, s)

/-- Whether two blobs share the key under which `Blob.prefetch` groups them. -/
def sameGroup (b b' : LazyBlob) : Bool :=
  b.scope.wire == b'.scope.wire && b.scope.txHandle.id == b'.scope.txHandle.id

/-- A call that was awaiting a call of its own goes on. -/
def resume (k : Nat) (s : Attachment) : Option Attachment :=
  s.continuations[k]?.map fun c =>
    let s := { s with continuations := s.continuations.eraseIdx k }
    match c with
    | .replay tx => s.enqueue (.run tx true)
    | .use tx prepares => s.enqueue (.use tx prepares)
    | .exec stmt tx => s.enqueue (.prepared stmt tx true)
    | .construct conn _ => { s with stmts := s.stmts ++ [⟨conn, s.generation, false⟩] }

/-- A call that throws at once leaves the attachment as it is. -/
def step (s : Attachment) : Event → Option Attachment
  | .startTransaction options after =>
    match after with
    | .exec _ => none
    | _ => some (s.enqueue (.start options after))
  | .run tx => s.txs[tx]?.map fun t =>
    if s.assertActive t then s.enqueue (.run tx false) else s
  | .executeBatch tx => s.txs[tx]?.map fun t =>
    if s.assertActive t then s.enqueue (.executeBatch tx) else s
  | .queryStream tx => s.txs[tx]?.map fun t =>
    if s.assertActive t then { s with streams := s.streams ++ [s.runContext tx t] } else s
  | .finish tx rollback => s.txs[tx]?.map fun t =>
    if s.assertActive t then s.finish tx rollback else s
  | .dispose tx => s.txs[tx]?.map fun t =>
    if !t.finished && s.assertActive t then s.finish tx true else s
  | .retaining tx rollback => s.txs[tx]?.map fun t =>
    if s.assertActive t then s.enqueue (.retaining tx rollback) else s
  | .restart tx rollback strategy => s.txs[tx]?.map fun t =>
    s.restart tx t rollback strategy false
  | .preparedRun stmt tx =>
    if tx < s.txs.length then
      s.stmts[stmt]?.map fun p => if s.assertOpen p then s.enqueue (.prepared stmt tx false) else s
    else none
  | .preparedRunOwn stmt options => s.stmts[stmt]?.map fun p =>
    if s.assertOpen p then s.enqueue (.start options (.exec stmt)) else s
  | .closePrepared stmt => s.stmts[stmt]?.map fun p =>
    if p.closed then s
    else
      let s := { s with stmts := s.stmts.modify stmt fun p => { p with closed := true } }
      if p.attGeneration = s.generation then s.enqueue (.closePrepared stmt) else s
  | .streamNext k => s.streams[k]?.map fun scope => s.enqueue (.stream scope)
  | .readBlob k => s.blobs[k]?.map fun b => (s.readBlob k b).2
  | .pullBlob k => s.blobs[k]?.map fun b => s.enqueue (.blob b.scope [k] true)
  | .prefetchSlice k => s.blobs[k]?.map fun b => s.enqueue (.blob b.scope [k] false)
  | .prefetch ks =>
    let blobs := ks.filterMap fun k => s.blobs[k]?.map fun b => (k, b)
    if blobs.all fun b => blobs.all fun b' => sameGroup b.2 b'.2 then some (s.prefetch blobs).2
    else none
  | .reconnect => some (s.enqueue .reconnect)
  | .begin => s.begin
  | .disconnected => s.disconnected
  | .ok reply => s.ok reply
  | .refused readOnly => s.refused readOnly
  | .resume k => s.resume k

def machine : Machine Attachment Event := ⟨(· = {}), step⟩

end Attachment
end FastFirebird
