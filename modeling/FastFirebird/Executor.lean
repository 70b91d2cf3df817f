import FastFirebird.Async
import FastFirebird.ScriptParser

/-! `script/execute.ts`: `executeScript` against an attachment whose calls answer as they like. -/
namespace FastFirebird

/-- An `Error`, and the codes of a `FirebirdError`. -/
structure ScriptFailure where
  message : Text
  codes : Option (Nat × Text) := none
  deriving Repr, DecidableEq

structure StatementResult where
  statement : ParsedStatement
  index : Nat
  rowsAffected : Nat
  rowCount : Nat
  error : Option ScriptFailure := none
  gdsCode : Option Nat := none
  sqlState : Option Text := none
  deriving Repr, DecidableEq

structure ScriptExecutionResult where
  statements : List StatementResult
  succeeded : Nat
  failed : Nat
  deriving Repr, DecidableEq

inductive TransactionMode where
  | perScript
  | perStatement
  | none
  | caller
  deriving Repr, DecidableEq

inductive ClientCommands where
  | process
  | error
  deriving Repr, DecidableEq

structure ExecuteScriptOptions where
  terminator : Option Text := none
  transaction : Option TransactionMode := none
  transactionOptions : Option TransactionOptions := none
  continueOnError : Option Bool := none
  clientCommands : Option ClientCommands := none
  deriving Repr, DecidableEq

/-- A `Transaction`: the caller's, or one of the executor's, in the order they were opened and
with the attachment's generation at that time. -/
inductive ScriptTx where
  | caller
  | own (id generation : Nat)
  deriving Repr, DecidableEq

/-- A call of a method of the attachment or of a transaction. A statement that runs on no
transaction runs on the attachment; `index` tells the statements of the script apart. -/
inductive Call where
  | startTransaction (options : Option TransactionOptions)
  | run (tx : Option ScriptTx) (index : Nat) (sql : Text)
  | commit (tx : ScriptTx) (retain : Bool)
  | rollback (tx : ScriptTx) (retain : Bool)
  | restart (tx : ScriptTx)
  | reconnect
  deriving Repr, DecidableEq

/-- The calls the executor makes for one place of the script, each at most once: `opening` is the
start before the first statement, `cleanup` the rollback of an error path. -/
inductive Action where
  | opening
  | start
  | commit
  | rollback
  | reconnect
  | cleanup
  deriving Repr, DecidableEq

/-- How the calls answer, by their place in the script, and what `onProgress` throws at each
report. -/
structure World where
  statement : Nat → Except ScriptFailure (Nat × Nat)
  answer : Nat → Action → Except ScriptFailure Unit
  progress : Nat → Except ScriptFailure Unit

/-- Everything goes well. -/
def World.fair : World := ⟨fun _ => .ok (1, 0), fun _ _ => .ok (), fun _ => .ok ()⟩

/-- Everything goes well but for one statement. -/
def World.failingAt (n : Nat) : World :=
  { World.fair with
    statement := fun i => if i = n then .error ⟨"Table unknown".toList, none⟩ else .ok (1, 0) }

/-- The executor's variables, and what it has called. The newest call is the first, with whether it
went well. -/
structure Executor where
  calls : List (Call × Bool) := []
  results : List StatementResult := []
  succeeded : Nat := 0
  failed : Nat := 0
  opened : Nat := 0
  finished : List Nat := []
  generation : Nat := 0
  tx : ScriptTx := .caller
  txOptions : Option TransactionOptions := none
  dirty : Bool := false
  autoDdl : Bool := false
  deriving Repr, DecidableEq

abbrev Script := Async Executor ScriptFailure

def ScriptTx.isFinished (tx : ScriptTx) (e : Executor) : Bool :=
  match tx with
  | .caller => false
  | .own id _ => e.finished.contains id

/-- `Transaction.assertActive`, for a transaction of the executor. -/
def ScriptTx.assertActive (tx : ScriptTx) (e : Executor) : Except ScriptFailure Unit :=
  match tx with
  | .caller => .ok ()
  | .own id generation =>
    if e.generation ≠ generation then
      .error ⟨("Transaction is no longer valid: the attachment was reconnected — " ++
        "start a new transaction").toList, none⟩
    else if e.finished.contains id then
      .error ⟨"Transaction already committed or rolled back".toList, none⟩
    else .ok ()

variable (cases : CaseMap) (w : World) (o : ExecuteScriptOptions)

namespace Executor

/-- A call, and its answer. -/
def invoke {α : Type} (c : Call) (answer : Executor → Except ScriptFailure α) : Script α := do
  let a := answer (← get)
  modify fun e => { e with calls := (c, a.isOk) :: e.calls }
  Async.lift a

def startTransaction (i : Nat) (action : Action) (options : Option TransactionOptions) :
    Script ScriptTx := do
  invoke (.startTransaction options) fun _ => w.answer i action
  modify fun e => { e with opened := e.opened + 1 }
  let e ← get
  return .own (e.opened - 1) e.generation

def commit (i : Nat) (tx : ScriptTx) (retain : Bool) : Script Unit := do
  invoke (.commit tx retain) fun e => do
    tx.assertActive e
    w.answer i .commit
  match tx, retain with
  | .own id _, false => modify fun e => { e with finished := id :: e.finished }
  | _, _ => pure ()

def rollback (i : Nat) (action : Action) (tx : ScriptTx) (retain : Bool) : Script Unit := do
  invoke (.rollback tx retain) fun e => do
    tx.assertActive e
    w.answer i action
  match tx, retain with
  | .own id _, false => modify fun e => { e with finished := id :: e.finished }
  | _, _ => pure ()

/-- `attachment.reconnect`: the generation counts the attempts. -/
def reconnect (i : Nat) : Script Unit := do
  modify fun e => { e with generation := e.generation + 1 }
  invoke .reconnect fun _ => w.answer i .reconnect

/-- `tx.run` and, without a transaction, `attachment.run`. -/
def runSql (tx : Option ScriptTx) (i : Nat) (sql : Text) : Script (Nat × Nat) :=
  invoke (.run tx i sql) fun e => do
    if let some tx := tx then tx.assertActive e
    w.statement i

def report (result : StatementResult) : Script Unit := do
  modify fun e => { e with results := e.results ++ [result] }
  let e ← get
  Async.lift (w.progress (e.results.length - 1))

def emitOk (stmt : ParsedStatement) (i rowsAffected rowCount : Nat) : Script Unit := do
  modify fun e => { e with succeeded := e.succeeded + 1 }
  report w { statement := stmt, index := i, rowsAffected, rowCount }

/-- Records a failure, and throws it again unless `continueOnError`. -/
def emitError (stmt : ParsedStatement) (i : Nat) (err : ScriptFailure) : Script Unit := do
  modify fun e => { e with failed := e.failed + 1 }
  report w
    { statement := stmt, index := i, rowsAffected := 0, rowCount := 0, error := some err
      gdsCode := err.codes.map Prod.fst, sqlState := err.codes.map Prod.snd }
  if o.continueOnError ≠ some true then throw err

/-- Sends one server statement; whether it succeeded. -/
def runOne (stmt : ParsedStatement) (i : Nat) (tx : Option ScriptTx) : Script Bool :=
  tryCatch
    (do
      let qr ← runSql w tx i stmt.sql
      emitOk w stmt i qr.1 qr.2
      return true)
    (fun err => do
      emitError w o stmt i err
      return false)

def rejectClient (stmt : ParsedStatement) (i : Nat) (why : Text) : Script Unit :=
  emitError w o stmt i ⟨"executeScript: ".toList ++ why, none⟩

def describeCommand : ClientCommand → Text
  | .reconnect => "RECONNECT".toList
  | .commit retain => if retain then "COMMIT RETAIN".toList else "COMMIT".toList
  | .rollback retain => if retain then "ROLLBACK RETAIN".toList else "ROLLBACK".toList
  | .setTransaction _ _ => "SET TRANSACTION".toList
  | .setAutoDdl on => "SET AUTODDL ".toList ++ if on then "ON".toList else "OFF".toList
  | .unsupported _ => "client command".toList

/-- What every mode rejects; true when the command was consumed. -/
def rejectCommon (stmt : ParsedStatement) (i : Nat) (c : ClientCommand) : Script Bool := do
  match c with
  | .unsupported reason =>
    rejectClient w o stmt i reason
    return true
  | _ =>
    if o.clientCommands = some .error then
      rejectClient w o stmt i ("client command ".toList ++ describeCommand c ++
        " encountered with clientCommands: 'error'".toList)
      return true
    else return false

/-- One statement on the caller's transaction. -/
def callerStatement (stmt : ParsedStatement) (i : Nat) : Script Unit := do
  match stmt.client with
  | some c =>
    if ← rejectCommon w o stmt i c then return
    rejectClient w o stmt i
      (if c = .reconnect then
        ("RECONNECT is not allowed with a caller-supplied Transaction — " ++
          "the caller owns the connection").toList
      else describeCommand c ++ (" is not allowed with a caller-supplied Transaction — " ++
        "the executor never finishes or replaces the caller's transaction").toList)
  | none => let _ ← runOne w o stmt i (some .caller)

def reopen (i : Nat) : Script Unit := do
  let tx ← startTransaction w i .start (← get).txOptions
  modify fun e => { e with tx, dirty := false }

/-- A client command on the executor's one transaction. -/
def perScriptCommand (i : Nat) (c : ClientCommand) : Script Unit := do
  match c with
  | .commit retain =>
    commit w i (← get).tx retain
    if !retain then reopen w i
    modify fun e => { e with dirty := false }
  | .rollback retain =>
    rollback w i .rollback (← get).tx retain
    if !retain then reopen w i
    modify fun e => { e with dirty := false }
  | .setTransaction options _ =>
    if (← get).dirty then
      throw ⟨("executeScript: SET TRANSACTION while the current transaction has executed " ++
        "statements — COMMIT or ROLLBACK first").toList, none⟩
    modify fun e => { e with txOptions := some options }
    commit w i (← get).tx false
    reopen w i
  | .reconnect =>
    let e ← get
    if !e.tx.isFinished e then commit w i e.tx false
    reconnect w i
    reopen w i
  | .setAutoDdl on => modify fun e => { e with autoDdl := on }
  | .unsupported _ => pure ()

def perScriptStatement (stmt : ParsedStatement) (i : Nat) : Script Unit := do
  match stmt.client with
  | some c =>
    if ← rejectCommon w o stmt i c then return
    tryCatch
      (do
        perScriptCommand w i c
        emitOk w stmt i 0 0)
      (emitError w o stmt i)
  | none =>
    let ok ← runOne w o stmt i (some (← get).tx)
    modify fun e => { e with dirty := true }
    let e ← get
    if ok && e.autoDdl && stmt.kind == .ddl then
      commit w i e.tx false
      reopen w i

/-- `for (let idx = 0; idx < parsed.length; idx++)` -/
def forEach (body : ParsedStatement → Nat → Script Unit) :
    Nat → List ParsedStatement → Script Unit
  | _, [] => pure ()
  | i, stmt :: rest => do
    body stmt i
    forEach body (i + 1) rest

def perScript (parsed : List ParsedStatement) : Script Unit := do
  modify fun e => { e with txOptions := o.transactionOptions }
  let tx ← startTransaction w 0 .opening o.transactionOptions
  modify fun e => { e with tx, dirty := false, autoDdl := false }
  tryCatch
    (do
      forEach (perScriptStatement w o) 0 parsed
      let e ← get
      if !e.tx.isFinished e then commit w parsed.length e.tx false)
    (fun err => do
      let e ← get
      if !e.tx.isFinished e then Async.ignoreErrors (rollback w parsed.length .cleanup e.tx false)
      throw err)

def perStatementStatement (stmt : ParsedStatement) (i : Nat) : Script Unit := do
  match stmt.client with
  | some c =>
    if ← rejectCommon w o stmt i c then return
    tryCatch
      (do
        match c with
        | .reconnect => reconnect w i
        | .setTransaction options _ => modify fun e => { e with txOptions := some options }
        | _ => pure ()
        emitOk w stmt i 0 0)
      (emitError w o stmt i)
  | none =>
    let tx ← startTransaction w i .start (← get).txOptions
    -- the flag of the source: whether `runOne` returned
    let ran ← Async.attempt (runOne w o stmt i (some tx))
    let e ← get
    match ran with
    | .ok _ => if !tx.isFinished e then commit w i tx false
    | .error err =>
      if !tx.isFinished e then Async.ignoreErrors (rollback w i .cleanup tx false)
      throw err

def perStatement (parsed : List ParsedStatement) : Script Unit := do
  modify fun e => { e with txOptions := o.transactionOptions }
  forEach (perStatementStatement w o) 0 parsed

def noneStatement (stmt : ParsedStatement) (i : Nat) : Script Unit := do
  match stmt.client with
  | some c =>
    if ← rejectCommon w o stmt i c then return
    match c with
    | .setTransaction _ _ =>
      rejectClient w o stmt i ("SET TRANSACTION is not configurable with transaction: 'none' — " ++
        "set the connection's defaultTransaction instead").toList
    | _ =>
      tryCatch
        (do
          if c = .reconnect then reconnect w i
          emitOk w stmt i 0 0)
        (emitError w o stmt i)
  | none => let _ ← runOne w o stmt i none

end Executor

def ScriptParseError.failure (e : ScriptParseError) : ScriptFailure :=
  ⟨(e.message ++ " (line " ++ toString e.position.line ++ ", column " ++
    toString e.position.column ++ ")").toList, none⟩

open Executor in
/-- The dispatch over the transaction mode. -/
def execute (mode : TransactionMode) (parsed : List ParsedStatement) :
    Script ScriptExecutionResult := do
  match mode with
  | .caller => forEach (callerStatement w o) 0 parsed
  | .perScript => perScript w o parsed
  | .perStatement => perStatement w o parsed
  | .none => forEach (noneStatement w o) 0 parsed
  let e ← get
  return ⟨e.results, e.succeeded, e.failed⟩

def executeScript (script : Text) : Script ScriptExecutionResult := do
  let mode := o.transaction.getD .perScript
  if o.transactionOptions.isSome then
    if mode = .none then
      throw ⟨("executeScript: transactionOptions is invalid with transaction: 'none' — the " ++
        "implicit per-statement transactions follow the connection's defaultTransaction").toList, none⟩
    else if mode = .caller then
      throw ⟨("executeScript: transactionOptions is invalid with a caller-supplied Transaction — " ++
        "its options are already fixed").toList, none⟩
  match parseScript cases script (o.terminator.getD ";".toList) with
  | .error err => throw err.failure
  | .ok parsed => execute w o mode parsed

end FastFirebird
