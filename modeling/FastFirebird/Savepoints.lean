import FastFirebird.Machine

/-! `Transaction.transaction`: nested scopes under savepoints, on one transaction that bodies may
also restart, commit or roll back. The state is that of one await after the other; the code of the
bodies is free to do what it likes. -/
namespace FastFirebird.NestedTx

/-- An error, and what `isReadOnlyViolation` says of it. -/
structure TxError where
  message : String
  isReadOnlyViolation : Bool := false
  deriving Repr, DecidableEq

inductive BodyStatement where
  | write (w : Nat)
  | read
  deriving Repr, DecidableEq

inductive Statement where
  | savepoint (name : Int)
  | release (name : Int)
  | rollbackTo (name : Int)
  | body (stmt : BodyStatement)
  deriving Repr, DecidableEq

/-! The server -/

/-- A savepoint, by the number behind `FF_SP_`, and the number of the writes that were there. -/
structure Savepoint where
  name : Int
  mark : Nat
  deriving Repr, DecidableEq

/-- The savepoints from the newest on. -/
structure ServerTx where
  readOnly : Bool
  writes : List Nat := []
  savepoints : List Savepoint := []
  deriving Repr, DecidableEq

/-- The transaction behind the handle of the client, and what earlier ones have committed. -/
structure Server where
  serial : Nat := 0
  committed : List Nat := []
  tx : Option ServerTx
  deriving Repr, DecidableEq

def readOnlyViolation : TxError :=
  ⟨"attempted update during read-only transaction", true⟩

def unknownSavepoint : TxError := { message := "Unable to find savepoint" }

def invalidHandle : TxError := { message := "invalid transaction handle" }

namespace ServerTx

/-- The savepoints from the one of a name on. -/
def downTo (name : Int) (t : ServerTx) : List Savepoint :=
  t.savepoints.dropWhile (·.name ≠ name)

def execute (t : ServerTx) : Statement → Except TxError ServerTx
  | .savepoint name =>
    .ok { t with savepoints :=
      ⟨name, t.writes.length⟩ :: t.savepoints.filter (·.name ≠ name) }
  | .release name =>
    match t.downTo name with
    | [] => .error unknownSavepoint
    | _ :: older => .ok { t with savepoints := older }
  | .rollbackTo name =>
    match t.downTo name with
    | [] => .error unknownSavepoint
    | p :: older => .ok { t with writes := t.writes.take p.mark, savepoints := p :: older }
  | .body (.write w) =>
    if t.readOnly then .error readOnlyViolation else .ok { t with writes := t.writes ++ [w] }
  | .body .read => .ok t

end ServerTx

namespace Server

def execute (server : Server) (refusal : Option TxError) (stmt : Statement) :
    Except TxError Server :=
  match server.tx, refusal with
  | none, _ => .error invalidHandle
  | some _, some err => .error err
  | some t, none => (t.execute stmt).map fun t => { server with tx := some t }

def finish (rollback : Bool) (server : Server) (refusal : Option TxError) :
    Except TxError Server :=
  match server.tx, refusal with
  | none, _ => .error invalidHandle
  | some _, some err => .error err
  | some t, none =>
    .ok { server with
      tx := none
      committed := if rollback then server.committed else server.committed ++ t.writes }

def start (readOnly : Bool) (server : Server) (refusal : Option TxError) :
    Except TxError Server :=
  match refusal with
  | some err => .error err
  | none => .ok { server with serial := server.serial + 1, tx := some { readOnly := readOnly } }

/-- The writes that are there to be seen. -/
def visible (server : Server) : List Nat :=
  server.committed ++ (server.tx.map (·.writes)).getD []

end Server

/-! The client -/

structure Options where
  readOnly : Bool := false
  autoUpgradeReadOnly : Bool := false
  deriving Repr, DecidableEq

/-- A scope whose body has not ended: the name of its savepoint, the transaction it was opened on,
whether its savepoint is set, and how many writes had been made before. -/
structure Scope where
  id : Nat
  name : Int
  serial : Nat
  set : Bool
  before : Nat
  deriving Repr, DecidableEq

/-- Who asks for a statement: the code of a body, or the innermost scope itself. -/
inductive Call where
  | body (stmt : BodyStatement)
  | savepoint
  | release
  | rollbackTo (err : TxError)
  deriving Repr, DecidableEq

/-- What the program waits for; `after` is the call for which `restart` upgrades. -/
inductive Awaits where
  | body
  | run (call : Call) (replay : Bool)
  | restartFinish (after : Option Call) (rollback : Bool) (strategy : Option Options)
  | restartStart (after : Option Call)
  | finish (rollback : Bool)
  deriving Repr, DecidableEq

/-- A write that the server has made, and the scopes that it was made in. -/
structure Wrote where
  write : Nat
  enclosing : List Nat
  deriving Repr, DecidableEq

/-- `scopes` are the open ones from the innermost on. The last fields are a record of the run: the
numbers of the names sent, the writes, the first error of a scope and how a scope ended. -/
structure State where
  options : Options
  spDepth : Int := 0
  finished : Bool := false
  server : Server
  awaits : Awaits := .body
  scopes : List Scope := []
  opened : Nat := 0
  sent : List Int := []
  wrote : List Wrote := []
  raised : List (Nat × TxError) := []
  settled : List (Nat × Option TxError) := []
  deriving Repr, DecidableEq

inductive Event where
  /-- a body calls `transaction` -/
  | enter
  | statement (stmt : BodyStatement)
  /-- the innermost body -/
  | returns
  | throws (err : TxError)
  | restart (rollback : Bool) (strategy : Option Options)
  | commit
  | rollback
  | answer (refusal : Option TxError)
  deriving Repr, DecidableEq

def alreadyFinished : TxError := { message := "Transaction already committed or rolled back" }

/-- The text of a statement; a scope's own has its name. -/
def Call.statement (name : Int) : Call → Statement
  | .body stmt => .body stmt
  | .savepoint => .savepoint name
  | .release => .release name
  | .rollbackTo _ => .rollbackTo name

def Call.names : Call → Bool
  | .body _ => false
  | _ => true

namespace State

/-- The name of the innermost scope. -/
def name (s : State) : Int := (s.scopes.head?.map (·.name)).getD 0

/-- One attempt of `run`. -/
def attempt (call : Call) (replay : Bool) (s : State) : State :=
  { s with
    awaits := .run call replay
    sent := if call.names then s.name :: s.sent else s.sent }

/-- The `finally` of the innermost scope, which hands `outcome` on to the enclosing body. -/
def leave (outcome : Option TxError) (s : State) : State :=
  match s.scopes with
  | [] => s
  | scope :: scopes =>
    { s with
      awaits := .body
      scopes := scopes
      spDepth := s.spDepth - 1
      settled := (scope.id, outcome) :: s.settled }

/-- The `catch` of the innermost scope. -/
def caught (err : TxError) (s : State) : State :=
  let s := { s with raised := s.scopes.head?.toList.map (fun scope : Scope => (scope.id, err)) ++ s.raised }
  if s.finished then s.leave (some err) else s.attempt (.rollbackTo err) false

/-- The savepoint of the innermost scope is there. -/
def established (s : State) : State :=
  match s.scopes with
  | [] => s
  | scope :: scopes => { s with scopes := { scope with set := true } :: scopes }

/-- The caller goes on behind a call of `execute`. -/
def settle (call : Call) (result : Except TxError Unit) (s : State) : State :=
  match call, result with
  | .body _, _ => { s with awaits := .body }
  | .savepoint, .ok _ => { s.established with awaits := .body }
  | .release, .ok _ => s.leave none
  | .rollbackTo err, _ => s.leave (some err)
  | _, .error err => s.caught err

/-- `run`, up to its first await. -/
def execute (call : Call) (s : State) : State :=
  if s.finished then s.settle call (.error alreadyFinished) else s.attempt call false

/-- `transaction`, up to its first await. -/
def enter (s : State) : State :=
  if s.finished then s
  else
    let s := { s with spDepth := s.spDepth + 1 }
    let scope : Scope :=
      { id := s.opened, name := s.spDepth, serial := s.server.serial, set := false,
        before := s.wrote.length }
    { s with scopes := scope :: s.scopes, opened := s.opened + 1 }.execute .savepoint

/-- `restart`, up to its first await. -/
def restart (after : Option Call) (rollback : Bool) (strategy : Option Options) (s : State) :
    State :=
  if s.finished then
    { s with options := strategy.getD s.options, awaits := .restartStart after }
  else { s with awaits := .restartFinish after rollback strategy }

def shouldAutoUpgrade (err : TxError) (s : State) : Bool :=
  !s.finished && s.options.readOnly && s.options.autoUpgradeReadOnly && err.isReadOnlyViolation

/-- A write that the server has made for the code of a body. -/
def recordWrite (call : Call) (s : State) : State :=
  match call with
  | .body (.write w) => { s with wrote := s.wrote ++ [⟨w, s.scopes.map (·.id)⟩] }
  | _ => s

/-- `run` behind an attempt; only the first one is replayed. -/
def answered (call : Call) (replay : Bool) (refusal : Option TxError) (s : State) : State :=
  match s.server.execute refusal (call.statement s.name) with
  | .ok server => ({ s with server := server }.recordWrite call).settle call (.ok ())
  | .error err =>
    if !replay && s.shouldAutoUpgrade err then
      s.restart (some call) false (some { s.options with readOnly := false })
    else s.settle call (.error err)

/-- `restart` rejects, and with it the `run` that upgrades. -/
def restartFailed (after : Option Call) (err : TxError) (s : State) : State :=
  match after with
  | none => { s with awaits := .body }
  | some call => s.settle call (.error err)

def restartFinished (after : Option Call) (rollback : Bool) (strategy : Option Options)
    (refusal : Option TxError) (s : State) : State :=
  match s.server.finish rollback refusal with
  | .ok server =>
    { s with
      server := server
      options := strategy.getD s.options
      awaits := .restartStart after }
  | .error err => s.restartFailed after err

def restartStarted (after : Option Call) (refusal : Option TxError) (s : State) : State :=
  match s.server.start s.options.readOnly refusal with
  | .ok server =>
    let s := { s with server := server, spDepth := 0, finished := false }
    match after with
    | none => { s with awaits := .body }
    | some call => s.attempt call true
  | .error err => s.restartFailed after err

/-- `commit` and `rollback`, up to their await. -/
def finish (rollback : Bool) (s : State) : State :=
  if s.finished then s else { s with finished := true, awaits := .finish rollback }

def finishAnswered (rollback : Bool) (refusal : Option TxError) (s : State) : State :=
  match s.server.finish rollback refusal with
  | .ok server => { s with server := server, awaits := .body }
  | .error _ => { s with finished := false, awaits := .body }

def step (s : State) (e : Event) : Option State :=
  match s.awaits, e with
  | .body, .enter => some s.enter
  | .body, .statement stmt => some (s.execute (.body stmt))
  | .body, .returns => if s.scopes = [] then none else some (s.execute .release)
  | .body, .throws err => if s.scopes = [] then none else some (s.caught err)
  | .body, .restart rollback strategy => some (s.restart none rollback strategy)
  | .body, .commit => some (s.finish false)
  | .body, .rollback => some (s.finish true)
  | .run call replay, .answer refusal => some (s.answered call replay refusal)
  | .restartFinish after rollback strategy, .answer refusal =>
    some (s.restartFinished after rollback strategy refusal)
  | .restartStart after, .answer refusal => some (s.restartStarted after refusal)
  | .finish rollback, .answer refusal => some (s.finishAnswered rollback refusal)
  | _, _ => none

end State

/-- A transaction that has just been started. -/
def begun (options : Options) : State :=
  { options := options, server := { tx := some { readOnly := options.readOnly } } }

def machine (options : Options) : Machine State Event := ⟨(· = begun options), State.step⟩

end FastFirebird.NestedTx
