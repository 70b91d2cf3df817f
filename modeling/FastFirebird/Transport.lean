import Mathlib.Data.List.Basic

/-! The exact reads of `protocol/transport.ts`: one waiter slot, an error and a closed flag. -/
namespace FastFirebird

/-- The promise that a read awaits. -/
inductive Promise where
  | waiting
  | resolved
  | rejected (err : String)
  deriving Repr, DecidableEq

/-- A `read(n)` that is suspended. -/
structure SuspendedRead where
  id : Nat
  n : Nat
  promise : Promise
  deriving Repr, DecidableEq

/-- `rxWaiter` names the read whose promise is in the slot. -/
structure Transport where
  rx : List UInt8 := []
  rxWaiter : Option Nat := none
  error : Option String := none
  closed : Bool := false
  reads : List SuspendedRead := []
  deriving DecidableEq

/-- What a read has come to when it gives control back. -/
inductive ReadResult where
  | bytes (data : List UInt8)
  | thrown (err : String)
  | suspended
  deriving DecidableEq

namespace Transport

/-- The promise in the slot is settled, unless it was before. -/
def settle (promise : Promise) (t : Transport) : List SuspendedRead :=
  t.reads.map fun r =>
    if t.rxWaiter = some r.id ∧ r.promise = .waiting then { r with promise := promise } else r

def enqueue (data : List UInt8) (t : Transport) : Transport :=
  { t with rx := t.rx ++ data, reads := t.settle .resolved }

def fail (err : String) (t : Transport) : Transport :=
  match t.error with
  | some _ => t
  | none => { t with error := some err, reads := t.settle (.rejected err), rxWaiter := none }

/-- `read`, up to its first await. -/
def read (id n : Nat) (t : Transport) : ReadResult × Transport :=
  if t.rx.length < n then
    match t.error with
    | some err => (.thrown err, t)
    | none => (.suspended, { t with rxWaiter := some id, reads := ⟨id, n, .waiting⟩ :: t.reads })
  else (.bytes (t.rx.take n), { t with rx := t.rx.drop n })

/-- `read` behind its await, once the promise is settled: the loop starts over. -/
def resume (r : SuspendedRead) (t : Transport) : ReadResult × Transport :=
  let t := { t with reads := t.reads.erase r }
  match r.promise with
  | .rejected err => (.thrown err, t)
  | _ => { t with rxWaiter := none }.read r.id r.n

def close (t : Transport) : Transport := { t with closed := true }

def isOpen (t : Transport) : Bool := t.error.isNone && !t.closed

/-- The read that `id` has suspended. -/
def pending (id : Nat) (t : Transport) : Option SuspendedRead := t.reads.find? (·.id = id)

/-- The reads whose promise nobody has settled. -/
def waiting (t : Transport) : List SuspendedRead := t.reads.filter (·.promise = .waiting)

end Transport
end FastFirebird
