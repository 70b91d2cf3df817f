import FastFirebird.Machine
import FastFirebird.Packet
import FastFirebird.Scanner
import Mathlib.Algebra.GroupWithZero.Nat

/-! `events/events.ts`: event subscriptions, which are armed by one-shot requests on one socket and
answered on another. -/
namespace FastFirebird.Events

/-! ### Event parameter blocks -/

/-- A `Map<string, number>`, in the order of insertion. -/
abbrev Counts := List (Text × Nat)

def Counts.set (name : Text) (count : Nat) : Counts → Counts
  | [] => [(name, count)]
  | entry :: rest =>
    if entry.1 = name then (name, count) :: rest else entry :: Counts.set name count rest

/-- `this.counts.get(name) ?? 0` -/
def Counts.get (counts : Counts) (name : Text) : Nat := (counts.lookup name).getD 0

/-- `Buffer.from(name, 'latin1')`: the low octets of the UTF-16 units. -/
def latin1 (name : Text) : Bytes :=
  name.flatMap fun c =>
    if c.toNat < 0x10000 then [UInt8.ofNat c.toNat]
    else [UInt8.ofNat (0xD800 + (c.toNat - 0x10000) / 0x400),
      UInt8.ofNat (0xDC00 + (c.toNat - 0x10000) % 0x400)]

def ofLatin1 (bytes : Bytes) : Text := bytes.map fun b => Char.ofNat b.toNat

/-- The low one first. -/
def le32 (n : Nat) : Bytes :=
  [UInt8.ofNat n, UInt8.ofNat (n >>> 8), UInt8.ofNat (n >>> 16), UInt8.ofNat (n >>> 24)]

def epbVersion1 : UInt8 := 1
def maxEventName : Nat := 255

def buildEntries : Counts → Except String Bytes
  | [] => .ok []
  | (name, count) :: rest =>
    if maxEventName < (latin1 name).length then
      .error ("Event name too long: " ++ String.ofList name)
    else do
      let parts ← buildEntries rest
      return UInt8.ofNat (latin1 name).length :: (latin1 name ++ (le32 count ++ parts))

def buildEpb (counts : Counts) : Except String Bytes := do
  let parts ← buildEntries counts
  return epbVersion1 :: parts

/-- The entries of a block, from its first on; `fuel` is its length. -/
def parseEntries : Nat → Bytes → Counts → Except String Counts
  | _, [], counts => .ok counts
  | 0, _, _ => .error "Attempt to access memory outside buffer bounds"
  | fuel + 1, len :: buf, counts =>
    match buf.drop len.toNat with
    | b₀ :: b₁ :: b₂ :: b₃ :: rest =>
      parseEntries fuel rest (Counts.set (ofLatin1 (buf.take len.toNat))
        (b₀.toNat + 256 * (b₁.toNat + 256 * (b₂.toNat + 256 * b₃.toNat))) counts)
    | _ => .error "Attempt to access memory outside buffer bounds"

def parseEpb (buf : Bytes) : Except String Counts := parseEntries buf.length (buf.drop 1) []

/-! ### The channel and its listeners -/

/-- The events that an `EventEmitter` or a listener gives a meaning of their own. -/
def errorEvent : Text := ['e', 'r', 'r', 'o', 'r']
def postEvent : Text := ['p', 'o', 's', 't']

/-- A call of `emit`: `emit(name, count)` or `emit('post', name, count)`. -/
inductive Emission where
  | named (name : Text) (count : Nat)
  | post (name : Text) (count : Nat)
  deriving Repr, DecidableEq

def Emission.event : Emission → Text
  | .named name _ => name
  | .post _ _ => postEvent

/-- What the handlers are called with: a name, if there is one, and a count. -/
def Emission.args : Emission → Option Text × Nat
  | .named _ count => (none, count)
  | .post name count => (some name, count)

/-- An `EventListener`, and whether the user handles its `'error'`. `delivered` and `emitted` say what
the server has told it and what it has told the user. -/
structure Listener where
  counts : Counts
  baselined : List Text := []
  closed : Bool := false
  errorHandled : Bool := false
  delivered : List (Text × Nat) := []
  emitted : List Emission := []
  deriving Repr, DecidableEq

/-- Whether handlers of the user run in `deliver`, and for which `emit`. -/
inductive Handling where
  | idle
  | named (name : Text) (count : Nat)
  | post
  deriving Repr, DecidableEq

/-- One round of the loop of `EventListener.deliver`, up to the handlers of `emit(name, count)`; `none`
if that throws, as it does for an `'error'` without a handler. -/
def Listener.deliver (l : Listener) (name : Text) (count : Nat) : Listener × Option Handling :=
  let prev := l.counts.get name
  let l := { l with counts := l.counts.set name count, delivered := l.delivered ++ [(name, count)] }
  if name ∉ l.baselined then ({ l with baselined := l.baselined ++ [name] }, some .idle)
  else if prev < count then
    if name = errorEvent ∧ l.errorHandled = false then (l, none)
    else ({ l with emitted := l.emitted ++ [.named name count] }, some (.named name count))
  else (l, some .idle)

/-- The handlers of `emit(name, count)` are done: `emit('post', name, count)`. -/
def Listener.post (name : Text) (count : Nat) (l : Listener) : Listener :=
  { l with emitted := l.emitted ++ [.post name count] }

/-- What waits for the attachment's lock: the `que_events` of `subscribe` and of the read loop, and
the `cancel_events` of `unsubscribe`. -/
inductive Op where
  | arm (rid : Nat) (epb : Bytes)
  | rearm (rid : Nat) (epb : Bytes)
  | cancel (rid : Nat)
  deriving Repr, DecidableEq

inductive Request where
  | queEvents (rid : Nat) (epb : Bytes)
  | cancelEvents (rid : Nat)
  deriving Repr, DecidableEq

def Op.request : Op → Request
  | .arm rid epb => .queEvents rid epb
  | .rearm rid epb => .queEvents rid epb
  | .cancel rid => .cancelEvents rid

def Request.rid : Request → Nat
  | .queEvents rid _ => rid
  | .cancelEvents rid => rid

/-- Where the read loop is: between two packets, in `deliver` with what is left of the packet, in
`queEvents`, or at its end, where its `catch` tells the listeners if it did not expect to end. -/
inductive Loop where
  | reading
  | delivering (rid : Nat) (rest : Counts) (handling : Handling)
  | rearming (rid : Nat)
  | ended
  deriving Repr, DecidableEq

/-- An `EventChannel`, the lock of its attachment and the server. Listeners are known by their
request id, which is their place in the list. -/
structure Channel where
  listeners : List Listener := []
  subs : List Nat := []
  closed : Bool := false
  /-- the calls of `subscribe` that wait for `ensureStarted` -/
  starting : List (List Text) := []
  /-- the listeners that `subscribe` has returned -/
  returned : List Nat := []
  /-- the calls of `close` that have returned -/
  completed : List Nat := []
  /-- what waits for the lock, what has it, and what has read its response but not gone on yet -/
  waiting : List Op := []
  running : Option Op := none
  answered : List Op := []
  loop : Loop := .reading
  /-- the requests on the main socket so far -/
  written : List Request := []
  /-- the server: how often each event has been posted, the armed requests, and the packets on the
  other socket -/
  posted : List (Text × Nat) := []
  armed : List (Nat × Bytes) := []
  packets : List (Nat × Bytes) := []
  deriving Repr, DecidableEq

inductive Event where
  | subscribe (names : List Text)
  | registered (i : Nat)
  | close (rid : Nat)
  | write
  | answer
  | resume (i : Nat)
  | post (name : Text)
  | fire (i : Nat)
  | receive
  | deliver
  | handleError (rid : Nat) (handled : Bool)
  | handled
  | thrown
  | rearm
  deriving Repr, DecidableEq

namespace Channel

variable (s : Channel)

/-- No synchronous code runs. -/
def free : Bool :=
  match s.loop with
  | .delivering _ _ _ => false
  | _ => true

/-- Code of the user may run: by itself or in a handler. -/
def usersTurn : Bool :=
  match s.loop with
  | .delivering _ _ handling => handling ≠ .idle
  | _ => true

def update (rid : Nat) (f : Listener → Listener) : Channel :=
  { s with listeners := s.listeners.modify rid f }

/-- The constructor of `EventListener`. -/
def newListener (names : List Text) : Listener :=
  { counts := names.foldl (fun counts name => counts.set name 0) [] }

/-- `queEvents`, up to where it waits for the lock: what it throws, or whether it waits. -/
def queEvents (op : Bytes → Op) (counts : Counts) : Except String (Channel × Bool) :=
  if s.closed then .ok (s, false)
  else do
    let epb ← buildEpb counts
    return ({ s with waiting := s.waiting ++ [op epb] }, true)

/-- `subscribe`, behind `ensureStarted`. A listener that cannot be armed stays registered. -/
def registered (names : List Text) : Channel :=
  let rid := s.listeners.length
  let listener := newListener names
  let s := { s with listeners := s.listeners ++ [listener], subs := s.subs ++ [rid] }
  match s.queEvents (.arm rid) listener.counts with
  | .error _ => s
  | .ok (s, true) => s
  | .ok (s, false) => { s with returned := s.returned ++ [rid] }

/-- `EventListener.close` and `unsubscribe`, up to where it waits for the lock. -/
def close (rid : Nat) (listener : Listener) : Channel :=
  if listener.closed then { s with completed := s.completed ++ [rid] }
  else
    let s := s.update rid fun l => { l with closed := true }
    if rid ∈ s.subs then { s with subs := s.subs.erase rid, waiting := s.waiting ++ [.cancel rid] }
    else { s with completed := s.completed ++ [rid] }

/-- What the server does with a request. -/
def serve (request : Request) : Channel :=
  match request with
  | .queEvents rid epb => { s with armed := s.armed ++ [(rid, epb)] }
  | .cancelEvents rid => { s with armed := s.armed.filter fun a => a.1 ≠ rid }

/-- The caller of a request goes on. -/
def resumed (op : Op) : Channel :=
  match op with
  | .arm rid _ => { s with returned := s.returned ++ [rid] }
  | .rearm _ _ => { s with loop := if s.closed then .ended else .reading }
  | .cancel rid =>
    -- the last one shuts the channel down
    { s with closed := s.closed || s.subs.isEmpty, completed := s.completed ++ [rid] }

/-- The packet for an armed request: its events, with the counts of the server. -/
def packet (epb : Bytes) : Except String Bytes := do
  let counts ← parseEpb epb
  buildEpb (counts.map fun entry => (entry.1, Counts.get s.posted entry.1))

/-- A packet has been read to its end. -/
def received (rid : Nat) (epb : Bytes) : Channel :=
  if rid ∈ s.subs then
    match parseEpb epb with
    | .ok counts => { s with loop := .delivering rid counts .idle }
    | .error _ => { s with loop := .ended }
  else s

/-- `deliver` is done: the request is armed again. -/
def rearmed (rid : Nat) (listener : Listener) : Channel :=
  match s.queEvents (.rearm rid) listener.counts with
  | .error _ => { s with loop := .ended }
  | .ok (s, true) => { s with loop := .rearming rid }
  | .ok (s, false) => { s with loop := .ended }

def step (s : Channel) : Event → Option Channel
  | .subscribe names =>
    -- the attachment has let go of a closed channel
    if s.usersTurn && !s.closed && names ≠ [] then some { s with starting := s.starting ++ [names] }
    else none
  | .registered i =>
    if s.free then
      s.starting[i]?.map fun names => ({ s with starting := s.starting.eraseIdx i }).registered names
    else none
  | .close rid =>
    if s.usersTurn && s.returned.contains rid then s.listeners[rid]?.map (s.close rid) else none
  | .write =>
    match s.free, s.running, s.waiting with
    | true, none, op :: waiting =>
      some (({ s with running := some op, waiting, written := s.written ++ [op.request] }).serve
        op.request)
    | _, _, _ => none
  | .answer =>
    match s.free, s.running with
    | true, some op => some { s with running := none, answered := s.answered ++ [op] }
    | _, _ => none
  | .resume i =>
    if s.free then
      s.answered[i]?.map fun op => ({ s with answered := s.answered.eraseIdx i }).resumed op
    else none
  | .post name =>
    some { s with posted := Counts.set name ((Counts.get s.posted name + 1) % 2 ^ 32) s.posted }
  | .fire i =>
    s.armed[i]?.bind fun request =>
      match s.packet request.2 with
      | .ok epb =>
        some { s with armed := s.armed.eraseIdx i, packets := s.packets ++ [(request.1, epb)] }
      | .error _ => none
  | .receive =>
    match s.loop, s.packets with
    | .reading, packets =>
      if s.closed then some { s with loop := .ended }
      else
        match packets with
        | (rid, epb) :: packets => some (({ s with packets }).received rid epb)
        | [] => none
    | _, _ => none
  | .deliver =>
    match s.loop with
    | .delivering rid ((name, count) :: rest) .idle =>
      s.listeners[rid]?.map fun l =>
        { s.update rid fun l => (l.deliver name count).1 with
          loop := ((l.deliver name count).2.map (.delivering rid rest)).getD .ended }
    | _ => none
  | .handleError rid handled =>
    if s.usersTurn && s.returned.contains rid then
      some (s.update rid fun l => { l with errorHandled := handled })
    else none
  | .handled =>
    match s.loop with
    | .delivering rid rest (.named name count) =>
      some { s.update rid (Listener.post name count) with loop := .delivering rid rest .post }
    | .delivering rid rest .post => some { s with loop := .delivering rid rest .idle }
    | _ => none
  | .thrown =>
    -- what a handler throws leaves `emit`, `deliver` and the loop
    match s.loop with
    | .delivering _ _ (.named _ _) => some { s with loop := .ended }
    | .delivering _ _ .post => some { s with loop := .ended }
    | _ => none
  | .rearm =>
    match s.loop with
    | .delivering rid [] .idle => s.listeners[rid]?.map (s.rearmed rid)
    | _ => none

end Channel

/-- The events may have been posted before. -/
def machine : Machine Channel Event :=
  ⟨fun s => ∃ posted : Counts, (∀ entry ∈ posted, entry.2 < 2 ^ 32) ∧ s = { posted }, Channel.step⟩

end FastFirebird.Events
