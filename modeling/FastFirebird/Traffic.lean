import FastFirebird.Machine
import FastFirebird.Transport

/-! Who reads from the transports of an attachment: the operations under its lock, `reconnect`,
and `disconnect` and `dropDatabase`, which do not take the lock. -/
namespace FastFirebird

/-- What the code that is suspended on a connection is about to do. `operation` is a section of
any method that takes the lock. `detach`, `connect` and `handshake` are the stages of a
`reconnect`; `leave` is `disconnect` or `dropDatabase`; `abandoned` is a handshake that the
connect deadline has cut off. -/
inductive Task where
  | operation
  | detach
  | connect
  | handshake
  | leave
  | abandoned
  deriving Repr, DecidableEq

structure Actor where
  id : Nat
  task : Task
  transport : Nat
  deriving Repr, DecidableEq

/-- A call in the op chain. An operation takes its transport when it is called (`some`), or
when its section begins. -/
inductive Job where
  | operation (transport : Option Nat)
  | reconnect
  deriving Repr, DecidableEq

/-- `opened` counts the transports there have been, `ids` the sections and calls. -/
structure Traffic where
  transports : Nat → Transport
  opened : Nat
  current : Nat
  detached : Bool
  queue : List Job
  holder : Option Actor
  outside : List Actor
  ids : Nat

inductive TrafficEvent where
  | call (captures : Bool)
  | reconnect
  | start
  | read (id n : Nat)
  | resume (id : Nat)
  | proceed (id : Nat)
  | connected
  | established
  | deadline
  | disconnect
  | dropDatabase
  | data (transport : Nat) (bytes : List UInt8)
  | broken (transport : Nat) (err : String)
  deriving Repr, DecidableEq

namespace Traffic

def setTransport (i : Nat) (t : Transport) (s : Traffic) : Traffic :=
  { s with transports := fun j => if j = i then t else s.transports j }

def actors (s : Traffic) : List Actor := s.holder.toList ++ s.outside

/-- The code that has work to do on a transport. -/
def users (s : Traffic) (i : Nat) : List Actor := s.actors.filter (·.transport = i)

def actor (s : Traffic) (id : Nat) : Option Actor := s.actors.find? (·.id = id)

def close (i : Nat) (s : Traffic) : Traffic := s.setTransport i (s.transports i).close

def jobTask : Job → Task
  | .operation _ => .operation
  | .reconnect => .detach

def jobTransport (s : Traffic) : Job → Nat
  | .operation transport => transport.getD s.current
  | .reconnect => s.current

/-- `fn` of the first call in the chain runs. -/
def start (s : Traffic) : Option Traffic :=
  match s.holder, s.queue with
  | none, job :: queue =>
    some { s with
      queue := queue
      ids := s.ids + 1
      holder := some ⟨s.ids, jobTask job, s.jobTransport job⟩ }
  | _, _ => none

/-- Whether code of this kind reads. -/
def Task.reads : Task → Bool
  | .connect => false
  | .operation | .detach | .handshake | .leave | .abandoned => true

def read (id n : Nat) (s : Traffic) : Option Traffic :=
  (s.actor id).bind fun a =>
    if Task.reads a.task ∧ ((s.transports a.transport).pending id).isNone then
      some (s.setTransport a.transport ((s.transports a.transport).read id n).2)
    else none

def resume (id : Nat) (s : Traffic) : Option Traffic :=
  (s.actor id).bind fun a =>
    ((s.transports a.transport).pending id).bind fun r =>
      if r.promise = .waiting then none
      else some (s.setTransport a.transport ((s.transports a.transport).resume r).2)

/-- What an actor does behind its last read, be it that the read has thrown. -/
def leaveBehind (a : Actor) (s : Traffic) : Traffic :=
  match a.task with
  | .operation | .connect => { s with holder := none }
  | .detach =>
    { s.close s.current with
      opened := s.opened + 1
      holder := some { a with task := .connect, transport := s.opened } }
  | .handshake => { s.close a.transport with holder := none }
  | .leave => { s.close s.current with outside := s.outside.erase a }
  | .abandoned => { s with outside := s.outside.erase a }

def proceed (id : Nat) (s : Traffic) : Option Traffic :=
  (s.actor id).bind fun a =>
    if ((s.transports a.transport).pending id).isNone then some (s.leaveBehind a) else none

/-- The socket of a reconnect has connected. -/
def connected (s : Traffic) : Option Traffic :=
  s.holder.bind fun a =>
    if a.task = .connect then some { s with holder := some { a with task := .handshake } } else none

/-- `establish` has resolved, and the attachment takes the new wire. -/
def established (s : Traffic) : Option Traffic :=
  s.holder.bind fun a =>
    if a.task = .handshake ∧ ((s.transports a.transport).pending a.id).isNone then
      some { s with current := a.transport, holder := none }
    else none

/-- The deadline of `withTimeout` wins its race against the handshake. -/
def deadline (s : Traffic) : Option Traffic :=
  s.holder.bind fun a =>
    if a.task = .handshake then
      some { s.close a.transport with
        holder := none
        outside := { a with task := .abandoned } :: s.outside }
    else none

/-- `disconnect` and `dropDatabase`, up to their first read. -/
def leave (s : Traffic) : Traffic :=
  { s with
    detached := true
    ids := s.ids + 1
    outside := ⟨s.ids, .leave, s.current⟩ :: s.outside }

/-- A socket that has been destroyed emits nothing more. -/
def step (s : Traffic) : TrafficEvent → Option Traffic
  | .call captures =>
    some { s with
      queue := s.queue ++ [.operation (if captures then some s.current else none)] }
  | .reconnect => if s.detached then none else some { s with queue := s.queue ++ [.reconnect] }
  | .start => s.start
  | .read id n => s.read id n
  | .resume id => s.resume id
  | .proceed id => s.proceed id
  | .connected => s.connected
  | .established => s.established
  | .deadline => s.deadline
  | .disconnect => some (if s.detached then s else s.leave)
  | .dropDatabase => if s.detached then none else some s.leave
  | .data i bytes =>
    if i < s.opened ∧ (s.transports i).closed = false then
      some (s.setTransport i ((s.transports i).enqueue bytes))
    else none
  | .broken i err =>
    if i < s.opened ∧ (s.transports i).closed = false then
      some (s.setTransport i ((s.transports i).fail err))
    else none

/-- An attachment that has just been opened. -/
def opened₀ : Traffic := ⟨fun _ => {}, 1, 0, false, [], none, [], 0⟩

def machine : Machine Traffic TrafficEvent := ⟨(· = opened₀), step⟩

end Traffic
end FastFirebird
