import FastFirebird.Packet
import FastFirebird.Machine
import Mathlib.Data.List.Basic
import Mathlib.Algebra.GroupWithZero.Nat

/-! `BlobPrefetcher`: lazy blobs that a stream reads ahead. The consumer registers rows, moves the
window, claims blobs and closes; one fetch at a time runs behind it, in slices under the op-lock. -/
namespace FastFirebird.Prefetch

inductive EntryState where
  | queued
  | fetching
  | done
  | error
  | aborted
  deriving Repr, DecidableEq

/-- The promise of an entry. -/
inductive Handover where
  | pending
  | resolved (bytes : Bytes)
  | rejected (err : String)
  deriving Repr, DecidableEq

/-- `tracked`: the map `entries` has it under its id. -/
structure Entry where
  id : Bytes
  rowIdx : Int
  state : EntryState := .queued
  chunks : List Bytes := []
  bytes : Nat := 0
  claimed : Bool := false
  error : Option String := none
  promise : Option Handover := none
  tracked : Bool := true
  deriving Repr, DecidableEq

/-- Where the running fetch stands: waiting for a slice, for the lock to give an abandoned handle
up, for the lock behind an error, or for its `finally`. -/
inductive Fetch where
  | idle
  | slicing (k : Nat)
  | abandoning (k : Nat)
  | failing (k : Nat) (err : String)
  | returned
  deriving Repr, DecidableEq

/-- The options, and the blobs of the server. -/
structure Config where
  depth : Nat
  maxBytes : Nat
  content : Bytes → Bytes

/-- `queue` has every entry that was ever added. The promises that were settled when `take` gave
them are in `handed`, by the entry. -/
structure Prefetcher where
  queue : List Entry := []
  usedBytes : Int := 0
  watermark : Int := -1
  running : Fetch := .idle
  closed : Bool := false
  handed : List (Nat × Except String Bytes) := []

inductive Event where
  | addRow (rowIdx : Nat) (ids : List Bytes)
  /-- `inlined` says whether the inline cache has the blob that is fetched next -/
  | advance (rowIdx : Nat) (inlined : Bool)
  | take (id : Bytes) (inlined : Bool)
  | close
  /-- a slice has read its window -/
  | slice (chunks : List Bytes) (eof : Bool)
  /-- the server has refused to open the blob, or a segment -/
  | refuse (err : String)
  /-- the lock section of the abandoned, or of the failed, fetch is over -/
  | released
  /-- the `finally` of `kick` -/
  | settled (inlined : Bool)

namespace Prefetcher

variable (cfg : Config)

def isTracked (p : Prefetcher) (id : Bytes) : Bool := p.queue.any fun e => e.tracked && e.id == id

def update (k : Nat) (f : Entry → Entry) (p : Prefetcher) : Prefetcher :=
  { p with queue := p.queue.modify k f }

/-- `entries.delete(id)` -/
def delete (id : Bytes) (p : Prefetcher) : Prefetcher :=
  { p with queue := p.queue.map fun e => if e.id = id then { e with tracked := false } else e }

def addRow (rowIdx : Nat) (ids : List Bytes) (p : Prefetcher) : Prefetcher :=
  if p.closed then p
  else ids.foldl (fun p id =>
    if p.isTracked id then p else { p with queue := p.queue ++ [{ id := id, rowIdx := rowIdx }] }) p

def eligible (p : Prefetcher) (e : Entry) : Bool :=
  e.state == .queued && (e.claimed ||
    (!p.closed && decide (e.rowIdx ≤ p.watermark) && decide (p.usedBytes < cfg.maxBytes)))

/-- The top of the loop of `fetch`. -/
def nextSlice (k : Nat) (e : Entry) (p : Prefetcher) : Prefetcher :=
  { p with running := if p.closed && !e.claimed then .abandoning k else .slicing k }

/-- `release` while a fetch runs, so that its `kick` does nothing. -/
def release (k : Nat) (e : Entry) (p : Prefetcher) : Prefetcher :=
  ({ p with usedBytes := p.usedBytes - e.bytes }.update k fun e => { e with chunks := [] }).delete
    e.id

/-- A fetch that has all the bytes: a promise is resolved behind `release`. -/
def finish (k : Nat) (e : Entry) (p : Prefetcher) : Prefetcher :=
  let p := { p with running := .returned }.update k fun e => { e with state := .done }
  if e.claimed && e.promise.isSome then
    (p.release k e).update k fun e' => { e' with promise := some (.resolved e.chunks.flatten) }
  else p

/-- `fetch`, up to its first await. -/
def fetch (k : Nat) (e : Entry) (inlined : Bool) (p : Prefetcher) : Prefetcher :=
  if inlined then
    let e := { e with
      state := .fetching, chunks := [cfg.content e.id], bytes := (cfg.content e.id).length }
    ({ p with usedBytes := p.usedBytes + e.bytes }.update k fun _ => e).finish k e
  else
    (p.update k fun e => { e with state := .fetching }).nextSlice k e

def kick (inlined : Bool) (p : Prefetcher) : Prefetcher :=
  if p.running = .idle then
    match p.queue.findIdx? (p.eligible cfg) with
    | some k =>
      match p.queue[k]? with
      | some e => p.fetch cfg k e inlined
      | none => p
    | none => p
  else p

def advance (rowIdx : Nat) (inlined : Bool) (p : Prefetcher) : Prefetcher :=
  { p with watermark := rowIdx + cfg.depth }.kick cfg inlined

/-- The entry that the map has under an id. -/
def tracked (p : Prefetcher) (id : Bytes) : Option Nat :=
  p.queue.findIdx? fun e => e.tracked && e.id == id

def take (id : Bytes) (inlined : Bool) (p : Prefetcher) : Prefetcher :=
  match p.tracked id with
  | none => p
  | some k =>
    match p.queue[k]? with
    | none => p
    | some e =>
      let p := p.update k fun e => { e with claimed := true }
      match e.state with
      | .aborted => p
      | .done =>
        { p.release k e with handed := p.handed ++ [(k, Except.ok e.chunks.flatten)] }.kick cfg inlined
      | .error => { p.delete e.id with handed := p.handed ++ [(k, Except.error (e.error.getD ""))] }
      | _ =>
        (p.update k fun e => { e with promise := some (e.promise.getD .pending) }).kick cfg inlined

/-- What `close` stops tracking. -/
def stopped (e : Entry) : Bool :=
  e.tracked && (e.state == .queued || (e.state == .done && !e.claimed))

def close (p : Prefetcher) : Prefetcher :=
  { p with
    closed := true
    queue := p.queue.map fun e =>
      if stopped e then { e with state := .aborted, chunks := [], tracked := false } else e }

/-- The chunks are the next bytes of the blob, to its end if `eof`. -/
def reads (e : Entry) (chunks : List Bytes) (eof : Bool) : Bool :=
  decide (chunks.flatten = ((cfg.content e.id).drop e.bytes).take chunks.flatten.length) &&
    (!eof || e.bytes + chunks.flatten.length == (cfg.content e.id).length)

def slice (k : Nat) (e : Entry) (chunks : List Bytes) (eof : Bool) (p : Prefetcher) : Prefetcher :=
  let e := { e with
    chunks := e.chunks ++ chunks, bytes := e.bytes + chunks.flatten.length }
  let p := { p with usedBytes := p.usedBytes + (chunks.flatten.length : Nat) }.update k fun _ => e
  if eof then p.finish k e else p.nextSlice k e

/-- The end of an abandoned fetch. -/
def abandoned (k : Nat) (e : Entry) (p : Prefetcher) : Prefetcher :=
  ({ p with usedBytes := p.usedBytes - e.bytes, running := .returned }.update k fun e =>
    { e with chunks := [], state := .aborted }).delete e.id

/-- The end of a fetch that has failed. -/
def failed (k : Nat) (e : Entry) (err : String) (p : Prefetcher) : Prefetcher :=
  let p := { p with usedBytes := p.usedBytes - e.bytes, running := .returned }.update k fun e =>
    { e with chunks := [], state := .error, error := some err }
  if e.claimed && e.promise.isSome then
    (p.delete e.id).update k fun e => { e with promise := some (.rejected err) }
  else p

def step (p : Prefetcher) : Event → Option Prefetcher
  | .addRow rowIdx ids => some (p.addRow rowIdx ids)
  | .advance rowIdx inlined => some (p.advance cfg rowIdx inlined)
  | .take id inlined => some (p.take cfg id inlined)
  | .close => some p.close
  | .slice chunks eof =>
    match p.running with
    | .slicing k =>
      p.queue[k]?.bind fun e => if reads cfg e chunks eof then some (p.slice k e chunks eof) else none
    | _ => none
  | .refuse err =>
    match p.running with
    | .slicing k => some { p with running := .failing k err }
    | _ => none
  | .released =>
    match p.running with
    | .abandoning k => p.queue[k]?.map fun e => p.abandoned k e
    | .failing k err => p.queue[k]?.map fun e => p.failed k e err
    | _ => none
  | .settled inlined =>
    match p.running with
    | .returned => some ({ p with running := .idle }.kick cfg inlined)
    | _ => none

def machine : Machine Prefetcher Event := ⟨(· = {}), step cfg⟩

end Prefetcher
end FastFirebird.Prefetch
