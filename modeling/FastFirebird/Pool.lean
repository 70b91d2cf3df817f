import FastFirebird.Machine

/-! `pool/pool.ts`, one event for each piece of code between two awaits. -/
namespace FastFirebird

/-- `min`, `max` and the timeouts as the constructor resolves them. -/
structure PoolConfig where
  min : Nat
  max : Nat
  idleTimeoutMs : Nat
  validateOnAcquire : Bool

structure IdleEntry where
  conn : Nat
  since : Nat
  deriving Repr, DecidableEq

/-- `idle` has the most recently pushed entry first. Connections and waiters are numbered
as they come; `dead` are the connections whose `isAlive` is false, `disconnected` those that the
pool has called `disconnect` on, and `borrowed` those that `acquire` has handed out. The calls in
flight are `pinging` (an acquire validating that
connection), `creating` (an acquire connecting) and `warming` (a `createInto`). -/
structure Pool where
  idle : List IdleEntry := []
  inUse : List Nat := []
  waiters : List Nat := []
  pendingCreates : Nat := 0
  closed : Bool := false
  pinging : List Nat := []
  creating : Nat := 0
  warming : Nat := 0
  borrowed : List Nat := []
  dead : List Nat := []
  disconnected : List Nat := []
  conns : Nat := 0
  waits : Nat := 0
  deriving Repr, DecidableEq

inductive PoolEvent where
  | acquire
  | pingOk (conn : Nat)
  | pingFailed (conn : Nat)
  | created
  | createFailed
  | release (conn now : Nat)
  | timeout (waiter : Nat)
  | sweep (now : Nat)
  | warmup
  | warmed (now : Nat)
  | warmFailed
  | dies (conn : Nat)
  | close
  deriving Repr, DecidableEq

namespace Pool

variable (cfg : PoolConfig)

/-- Physical connections that exist or are being created. -/
def size (p : Pool) : Nat := p.idle.length + p.inUse.length + p.pendingCreates

def isAlive (p : Pool) (conn : Nat) : Bool := !p.dead.contains conn

/-- `inUse.add` -/
def add (conn : Nat) (p : Pool) : Pool :=
  { p with inUse := if p.inUse.contains conn then p.inUse else p.inUse ++ [conn] }

/-- `inUse.delete` -/
def delete (conn : Nat) (p : Pool) : Pool := { p with inUse := p.inUse.erase conn }

/-- `conn.disconnect()`, which marks the connection detached at once. -/
def disconnect (conn : Nat) (p : Pool) : Pool :=
  { p with dead := conn :: p.dead, disconnected := conn :: p.disconnected }

/-- `acquire` resolves with this connection. -/
def lend (conn : Nat) (p : Pool) : Pool := { p with borrowed := conn :: p.borrowed }

/-- `acquire` behind its loop: connect, or wait for a release. -/
def acquireNew (p : Pool) : Pool :=
  if p.size < cfg.max then
    { p with pendingCreates := p.pendingCreates + 1, creating := p.creating + 1 }
  else { p with waiters := p.waiters ++ [p.waits], waits := p.waits + 1 }

/-- The loop of `acquire` over the idle entries, up to its first await. -/
def acquireLoop : List IdleEntry → Pool → Pool
  | [], p => acquireNew cfg { p with idle := [] }
  | e :: rest, p =>
    let p := { p with idle := rest }.add e.conn
    if p.isAlive e.conn then
      if cfg.validateOnAcquire then { p with pinging := e.conn :: p.pinging }
      else p.lend e.conn
    else acquireLoop rest ((p.delete e.conn).disconnect e.conn)

/-- A connection whose ping failed is replaced: the loop goes on. -/
def pingFailed (conn : Nat) (p : Pool) : Pool :=
  let p := ({ p with pinging := p.pinging.erase conn }.delete conn).disconnect conn
  acquireLoop cfg p.idle p

/-- `newConnection` has resolved within `acquire`. -/
def created (p : Pool) : Pool :=
  let conn := p.conns
  let p := { p with conns := p.conns + 1, creating := p.creating - 1 }
  { (p.add conn).lend conn with pendingCreates := p.pendingCreates - 1 }

def createFailed (p : Pool) : Pool :=
  { p with creating := p.creating - 1, pendingCreates := p.pendingCreates - 1 }

def release (conn now : Nat) (p : Pool) : Pool :=
  let p := { p with borrowed := p.borrowed.erase conn }
  if p.inUse.contains conn then
    let p := p.delete conn
    if p.closed || !p.isAlive conn then p.disconnect conn
    else
      match p.waiters with
      | _ :: waiters => ({ p with waiters := waiters }.add conn).lend conn
      | [] => { p with idle := ⟨conn, now⟩ :: p.idle }
  else p

def timeout (waiter : Nat) (p : Pool) : Pool := { p with waiters := p.waiters.erase waiter }

/-- The entries that stay, and the connections that are disconnected; `total` counts the
idle and the borrowed ones that are left. -/
def sweepFrom (now : Nat) (isAlive : Nat → Bool) : Nat → List IdleEntry → List IdleEntry × List Nat
  | _, [] => ([], [])
  | total, e :: rest =>
    if total ≤ cfg.min then (e :: rest, [])
    else if cfg.idleTimeoutMs ≤ now - e.since || !isAlive e.conn then
      let (kept, gone) := sweepFrom now isAlive (total - 1) rest
      (kept, e.conn :: gone)
    else
      let (kept, gone) := sweepFrom now isAlive total rest
      (e :: kept, gone)

def sweepIdle (now : Nat) (p : Pool) : Pool :=
  let (kept, gone) := sweepFrom cfg now p.isAlive (p.idle.length + p.inUse.length) p.idle
  { p with idle := kept, dead := gone ++ p.dead, disconnected := gone ++ p.disconnected }

/-- `warmup`, up to the awaits of its `createInto` calls. -/
def warmup (p : Pool) : Pool :=
  let need := cfg.min - p.size
  { p with pendingCreates := p.pendingCreates + need, warming := p.warming + need }

/-- `newConnection` has resolved within `createInto`. -/
def warmed (now : Nat) (p : Pool) : Pool :=
  { p with
    conns := p.conns + 1
    idle := ⟨p.conns, now⟩ :: p.idle
    warming := p.warming - 1
    pendingCreates := p.pendingCreates - 1 }

def warmFailed (p : Pool) : Pool :=
  { p with warming := p.warming - 1, pendingCreates := p.pendingCreates - 1 }

/-- `close`, up to its awaits. -/
def close (p : Pool) : Pool :=
  { p with
    closed := true
    waiters := []
    idle := []
    inUse := []
    dead := p.idle.map (·.conn) ++ p.inUse ++ p.dead
    disconnected := p.idle.map (·.conn) ++ p.inUse ++ p.disconnected }

/-- One piece of code, if its call is in flight. -/
def step (p : Pool) : PoolEvent → Option Pool
  | .acquire => if p.closed then none else some (acquireLoop cfg p.idle p)
  | .pingOk conn =>
    if p.pinging.contains conn then some ({ p with pinging := p.pinging.erase conn }.lend conn)
    else none
  | .pingFailed conn => if p.pinging.contains conn then some (p.pingFailed cfg conn) else none
  | .created => if 0 < p.creating then some p.created else none
  | .createFailed => if 0 < p.creating then some p.createFailed else none
  | .release conn now => some (p.release conn now)
  | .timeout waiter => if p.waiters.contains waiter then some (p.timeout waiter) else none
  | .sweep now => some (p.sweepIdle cfg now)
  | .warmup => some (p.warmup cfg)
  | .warmed now => if 0 < p.warming then some (p.warmed now) else none
  | .warmFailed => if 0 < p.warming then some p.warmFailed else none
  | .dies conn => some { p with dead := conn :: p.dead }
  | .close => some p.close

/-- A pool as `new Pool(options)` makes it, driven by its events. -/
def machine : Machine Pool PoolEvent := ⟨(· = {}), step cfg⟩

end Pool
end FastFirebird
