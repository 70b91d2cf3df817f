import FastFirebird.Machine
import FastFirebird.Transactions

/-! `api/transaction.ts`, `api/attachment.ts` and `api/prepared.ts`: the transactions an attachment
starts on the server, and the options each is started with. -/
namespace FastFirebird.Starts

inductive FinishAction where
  | commit
  | rollback
  deriving Repr, DecidableEq

structure RestartOptions where
  action : Option FinishAction := none
  strategy : TransactionOptions := {}
  deriving Repr, DecidableEq

/-- Whether any key of a transaction strategy is set. -/
def hasStrategy (o : TransactionOptions) : Bool :=
  o.isolation.isSome || o.readOnly.isSome || o.wait.isSome || o.autoCommit.isSome

/-- A `Transaction` object. -/
structure Transaction where
  options : TransactionOptions
  finished : Bool := false
  deriving Repr, DecidableEq

/-- What has happened to the `Transaction` objects, which are numbered as they are made: what the
caller has supplied for them, and what went to the server. -/
inductive Entry where
  | supplied (tx : Nat) (options : TransactionOptions)
  | upgraded (tx : Nat)
  | started (tx : Nat) (tpb : List UInt8) (batch : Bool)
  | finished (tx : Nat) (action : FinishAction)
  deriving Repr, DecidableEq

/-- `log` has the latest entry first. -/
structure Attachment where
  defaultTransaction : TransactionOptions := {}
  autoUpgradeReadOnly : Bool := false
  transactions : List Transaction := []
  log : List Entry := []
  deriving Repr, DecidableEq

namespace Attachment

/-- `batch` marks the transactions that are opened to run `executeBatch`. -/
def startTransaction (att : Attachment) (options : Option TransactionOptions)
    (batch accepted : Bool) : Attachment × Option Nat :=
  let merged := mergeTransactionOptions att.defaultTransaction options
  let tx := att.transactions.length
  if accepted then
    ({ att with
        transactions := att.transactions ++ [⟨merged, false⟩]
        log := .started tx (buildTpb merged) batch :: .supplied tx (options.getD {}) :: att.log },
      some tx)
  else (att, none)

/-- `commit` and `rollback`; a refused one leaves the transaction as it was. -/
def finish (att : Attachment) (i : Nat) (action : FinishAction) (accepted : Bool) :
    Attachment × Bool :=
  match att.transactions[i]? with
  | none => (att, false)
  | some tx =>
    if tx.finished then (att, false)
    else if accepted then
      ({ att with
          transactions := att.transactions.set i { tx with finished := true }
          log := .finished i action :: att.log }, true)
    else (att, false)

/-- `restart`; `entry` is what the log says of options that have a strategy. -/
def restartWith (att : Attachment) (i : Nat) (options : RestartOptions) (entry : Entry)
    (finishAccepted startAccepted : Bool) : Attachment × Bool :=
  match att.transactions[i]? with
  | none => (att, false)
  | some tx =>
    if !tx.finished && !finishAccepted then (att, false)
    else
      let log :=
        if tx.finished then att.log else .finished i (options.action.getD .commit) :: att.log
      let kept := if hasStrategy options.strategy then options.strategy else tx.options
      let log := if hasStrategy options.strategy then entry :: log else log
      if startAccepted then
        ({ att with
            transactions := att.transactions.set i { tx with options := kept, finished := false }
            log := .started i (buildTpb kept) false :: log }, true)
      else
        ({ att with
            transactions := att.transactions.set i { tx with options := kept }
            log := log }, false)

def restart (att : Attachment) (i : Nat) (options : RestartOptions)
    (finishAccepted startAccepted : Bool) : Attachment × Bool :=
  att.restartWith i options (.supplied i options.strategy) finishAccepted startAccepted

/-- How the server answers a statement; behind a write that a read-only transaction refuses are
the answers to the finish, the start and the replay of an upgrade. -/
inductive Answer where
  | accepted
  | refused
  | readOnlyViolation (finish start replay : Bool)
  deriving Repr, DecidableEq

/-- `Transaction.run`, and whether it has resolved. -/
def runIn (att : Attachment) (i : Nat) (answer : Answer) : Attachment × Bool :=
  match att.transactions[i]? with
  | none => (att, false)
  | some tx =>
    if tx.finished then (att, false)
    else
      match answer with
      | .accepted => (att, true)
      | .refused => (att, false)
      | .readOnlyViolation finish start replay =>
        if tx.options.readOnly = some true ∧
            tx.options.autoUpgradeReadOnly.getD att.autoUpgradeReadOnly = true then
          let (att, restarted) :=
            att.restartWith i ⟨none, { tx.options with readOnly := some false }⟩ (.upgraded i)
              finish start
          (att, restarted && replay)
        else (att, false)

/-- The answers to the start, the work, the commit and the rollback of a call. -/
structure Answers where
  start : Bool
  work : Bool
  commit : Bool
  rollback : Bool
  deriving Repr, DecidableEq

/-- A call in a transaction of its own: committed when its work is done, rolled back when the work
or the commit has failed. -/
def oneShot (att : Attachment) (options : Option TransactionOptions) (batch : Bool)
    (work : Attachment → Nat → Attachment × Bool) (answers : Answers) : Attachment :=
  match att.startTransaction options batch answers.start with
  | (att, none) => att
  | (att, some i) =>
    match work att i with
    | (att, false) => (att.finish i .rollback answers.rollback).1
    | (att, true) =>
      match att.finish i .commit answers.commit with
      | (att, true) => att
      | (att, false) => (att.finish i .rollback answers.rollback).1

/-- Work that is done on the handle of the transaction, and not by `Transaction.run`. -/
def plainWork (answers : Answers) (att : Attachment) (_ : Nat) : Attachment × Bool :=
  (att, answers.work)

/-- `Attachment.run`, `query` and `execute` -/
def run (att : Attachment) (answer : Answer) (answers : Answers) : Attachment :=
  att.oneShot none false (fun att i => att.runIn i answer) answers

/-- `Attachment.prepare` -/
def prepare (att : Attachment) (answers : Answers) : Attachment :=
  att.oneShot none false (plainWork answers) answers

/-- `Attachment.executeBatch` -/
def executeBatch (att : Attachment) (answers : Answers) : Attachment :=
  att.oneShot (some { readOnly := some false }) true (plainWork answers) answers

/-- `Attachment.queryStream`: a refused commit is not followed by a rollback. -/
def queryStream (att : Attachment) (answers : Answers) : Attachment :=
  match att.startTransaction none false answers.start with
  | (att, none) => att
  | (att, some i) =>
    if answers.work then (att.finish i .commit answers.commit).1
    else (att.finish i .rollback answers.rollback).1

/-- `PreparedStatement.run` without a transaction -/
def preparedRun (att : Attachment) (answers : Answers) : Attachment :=
  att.oneShot none false (plainWork answers) answers

/-- `PreparedStatement.executeBatch` without a transaction -/
def preparedExecuteBatch (att : Attachment) (answers : Answers) : Attachment :=
  att.oneShot none true (plainWork answers) answers

end Attachment

/-- The calls on an attachment, with the server's answers. What is done on the handle of a
transaction the caller has started leaves its options alone, and is no call here. -/
inductive Call where
  | startTransaction (options : Option TransactionOptions) (accepted : Bool)
  | finish (tx : Nat) (action : FinishAction) (accepted : Bool)
  | restart (tx : Nat) (options : RestartOptions) (finishAccepted startAccepted : Bool)
  | runIn (tx : Nat) (answer : Attachment.Answer)
  | run (answer : Attachment.Answer) (answers : Attachment.Answers)
  | prepare (answers : Attachment.Answers)
  | executeBatch (answers : Attachment.Answers)
  | queryStream (answers : Attachment.Answers)
  | preparedRun (answers : Attachment.Answers)
  | preparedExecuteBatch (answers : Attachment.Answers)
  deriving Repr, DecidableEq

def Call.next (att : Attachment) : Call → Attachment
  | startTransaction options accepted => (att.startTransaction options false accepted).1
  | finish tx action accepted => (att.finish tx action accepted).1
  | restart tx options finishAccepted startAccepted =>
    (att.restart tx options finishAccepted startAccepted).1
  | runIn tx answer => (att.runIn tx answer).1
  | run answer answers => att.run answer answers
  | prepare answers => att.prepare answers
  | executeBatch answers => att.executeBatch answers
  | queryStream answers => att.queryStream answers
  | preparedRun answers => att.preparedRun answers
  | preparedExecuteBatch answers => att.preparedExecuteBatch answers

/-- An attachment with its configuration, and every sequence of calls on it. -/
def machine : Machine Attachment Call where
  init att := att.transactions = [] ∧ att.log = []
  step att call := some (call.next att)

/-! ### The options a transaction should have -/

/-- The options most recently supplied for a `Transaction` object: an upgrade has set `readOnly`
to false in them. A restart whose finish is refused goes no further, and supplies nothing. -/
def suppliedFor (tx : Nat) : List Entry → TransactionOptions
  | [] => {}
  | .supplied t options :: past => if t = tx then options else suppliedFor tx past
  | .upgraded t :: past =>
    if t = tx then { suppliedFor tx past with readOnly := some false } else suppliedFor tx past
  | .started _ _ _ :: past | .finished _ _ :: past => suppliedFor tx past

def effectiveOptions (defaults : TransactionOptions) (tx : Nat) (log : List Entry) :
    TransactionOptions :=
  mergeTransactionOptions defaults (some (suppliedFor tx log))

/-- A reader of the buffer finds the transaction read-write. -/
def ReadWrite (tpb : List UInt8) : Prop :=
  ∃ items, readTpb tpb = some items ∧ ⟨Tpb.write, none⟩ ∈ items ∧ ⟨Tpb.read, none⟩ ∉ items

/-- Every transaction was started with the options in force for it at that moment, and read-write
if it was opened for a batch. -/
def Effective (defaults : TransactionOptions) : List Entry → Prop
  | [] => True
  | .started tx tpb batch :: past =>
    tpb = buildTpb (effectiveOptions defaults tx past) ∧ (batch = true → ReadWrite tpb) ∧
      Effective defaults past
  | .supplied _ _ :: past | .upgraded _ :: past | .finished _ _ :: past => Effective defaults past

end FastFirebird.Starts
