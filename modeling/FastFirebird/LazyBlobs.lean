import FastFirebird.Blob
import FastFirebird.Machine

/-! `Blob`: a lazy handle that keeps what `head` has read and the cursor it has read it with. Calls
run in turns of the op-lock; what stands before, between and behind its awaits is a step. -/
namespace FastFirebird.LazyBlob

inductive SegmentReply where
  | data (bytes : Bytes) (eof : Bool)
  | refused (err : String)
  deriving Repr, DecidableEq

def SegmentReply.isRefused : SegmentReply → Bool
  | .refused _ => true
  | .data _ _ => false

/-- Where the cursor of the server is after the replies, if they are what a server that has the
blob can send: the next bytes, and the end only where it is. -/
def serve (content : Bytes) : Nat → List SegmentReply → Option Nat
  | pos, [] => some pos
  | pos, .refused _ :: replies => serve content pos replies
  | pos, .data bytes eof :: replies =>
    if bytes = (content.drop pos).take bytes.length ∧
        (eof = true → pos + bytes.length = content.length) then
      serve content (pos + bytes.length) replies
    else none

/-- Replies on a handle; one that is not open gets nothing but refusals. -/
def serveAt (content : Bytes) (cursors : List Nat) :
    Option Nat → List SegmentReply → Option (List Nat)
  | some handle, replies =>
    cursors[handle]?.bind fun pos => (serve content pos replies).map (cursors.set handle)
  | none, replies =>
    if replies.all SegmentReply.isRefused then some cursors else none

/-- The chunks of a window, and whether it has reached the end. Behind an error the rest is
drained. -/
def readBlobWindow : List SegmentReply → List Bytes → Bool → Except String (List Bytes × Bool)
  | [], chunks, eof => .ok (chunks, eof)
  | .refused err :: _, _, _ => .error err
  | .data bytes eof' :: replies, chunks, eof =>
    if eof then readBlobWindow replies chunks eof
    else readBlobWindow replies (if bytes.length > 0 then chunks ++ [bytes] else chunks) eof'

/-- The answers to `readBlob` behind its open: every one that is not the end tops the window up. -/
def readBlobLoop : List SegmentReply → (inFlight : Nat) → (eof : Bool) → (parts : Bytes) →
    Option (Except String Bytes)
  | [], 0, _, parts => some (.ok parts)
  | _, 0, _, _ => none
  | [], _ + 1, _, _ => none
  | .refused err :: replies, inFlight + 1, _, _ =>
    if replies.length = inFlight then some (.error err) else none
  | .data bytes eof' :: replies, inFlight + 1, eof, parts =>
    if eof then readBlobLoop replies inFlight eof parts
    else if eof' then readBlobLoop replies inFlight true (parts ++ bytes)
    else readBlobLoop replies (inFlight + 1) false (parts ++ bytes)

/-- `Buffer.concat(list, totalLength)`: cut to the length, or filled up with zeros; of an empty list
it is an empty buffer, whatever the length. -/
def bufferConcat (list : List Bytes) (totalLength : Nat) : Bytes :=
  if list.isEmpty then []
  else list.flatten.take totalLength ++ List.replicate (totalLength - list.flatten.length) 0

structure Blob where
  cached : Option Bytes := none
  consumed : List Bytes := []
  consumedBytes : Nat := 0
  cursorHandle : Option Nat := none
  atEof : Bool := false
  deriving Repr, DecidableEq

namespace Blob

/-- EOF reached on the cursor: the handle is done. -/
def finishCursor (b : Blob) : Blob := { b with atEof := true, cursorHandle := none }

def promoteIfComplete (b : Blob) : Blob :=
  if b.atEof ∧ b.cached = none then
    { b with cached := some (bufferConcat b.consumed b.consumedBytes), consumed := [] }
  else b

/-- What `head` returns at its end. -/
def kept (b : Blob) (n : Int) : Bytes :=
  (b.cached.getD (bufferConcat b.consumed b.consumedBytes)).take n.toNat

/-- What a window does behind its await. -/
def push (b : Blob) (chunks : List Bytes) (eof : Bool) : Blob :=
  let b := { b with
    consumed := b.consumed ++ chunks, consumedBytes := b.consumedBytes + chunks.flatten.length }
  if eof then b.finishCursor else b

/-- A cursor that is released, or that a stream has taken over. -/
def reset (b : Blob) : Blob :=
  { b with cursorHandle := none, consumed := [], consumedBytes := 0, atEof := false }

end Blob

inductive Call where
  | head (n : Int)
  | buffer
  | text
  | stream
  | close
  | prefetch
  deriving Repr, DecidableEq

/-- A call that has not returned. -/
structure Pending where
  serial : Nat
  call : Call
  deriving Repr, DecidableEq

/-- Who has the lock, and what it waits for. -/
inductive Turn where
  | idle
  /-- for the open, of the cursor or of the handle of `readBlob` -/
  | opening (c : Pending) (cursor : Bool)
  /-- for a window of the cursor -/
  | windowing (c : Pending)
  | reading (c : Pending) (handle : Nat)
  /-- the section is over; what stands behind its await comes before the next section -/
  | ended (c : Pending) (outcome : Except String Bytes)
  /-- a stream between two pulls -/
  | pulling (c : Pending) (handle : Option Nat) (emitted : List Bytes)

/-- `cursors` has the position of every handle that the server has opened, `awaiting` the calls that
wait for the read-ahead store. What `text` decodes stands for its result. -/
structure Scope where
  blob : Blob := {}
  cursors : List Nat := []
  started : Nat := 0
  waiting : List Pending := []
  running : Turn := .idle
  awaiting : List Pending := []
  results : List (Pending × Except String Bytes) := []

inductive Event where
  /-- `inlined` and `stored` say whether the inline cache, and the read-ahead store, have the
  blob -/
  | call (call : Call) (inlined stored : Bool)
  | begin
  | opened (refusal : Option String)
  | window (replies : List SegmentReply)
  | whole (replies : List SegmentReply)
  | resume
  | delivered (c : Pending) (failure : Option String)
  | segment (reply : SegmentReply)
  | destroyed

namespace Scope

def answer (c : Pending) (outcome : Except String Bytes) (s : Scope) : Scope :=
  { s with results := s.results ++ [(c, outcome)] }

def wait (c : Pending) (s : Scope) : Scope := { s with waiting := s.waiting ++ [c] }

def await (c : Pending) (s : Scope) : Scope := { s with awaiting := s.awaiting ++ [c] }

/-- No call is in progress. -/
def AtRest (s : Scope) : Prop :=
  (match s.running with | .idle => True | _ => False) ∧ s.waiting = [] ∧ s.awaiting = []

instance (s : Scope) : Decidable s.AtRest := by
  unfold AtRest
  cases s.running <;> infer_instance

variable (content : Bytes) (chunkSize : Nat)

/-- `head` behind its section, or without one. -/
def headEnd (c : Pending) (n : Int) (s : Scope) : Scope :=
  let b := s.blob.promoteIfComplete
  { s with blob := b }.answer c (.ok (b.kept n))

def head (c : Pending) (n : Int) (inlined stored : Bool) (s : Scope) : Scope :=
  if n ≤ 0 then s.answer c (.ok [])
  else match s.blob.cached with
    | some bytes => s.answer c (.ok (bytes.take n.toNat))
    | none =>
      if inlined then
        { s with blob := { s.blob with cached := some content } }.answer c (.ok (content.take n.toNat))
      else if stored then s.await c
      else if !s.blob.atEof ∧ (s.blob.consumedBytes : Int) < n then s.wait c
      else s.headEnd c n

def buffer (c : Pending) (inlined stored : Bool) (s : Scope) : Scope :=
  match s.blob.cached with
  | some bytes => s.answer c (.ok bytes)
  | none =>
    if inlined then
      { s with blob := { s.blob with cached := some content } }.answer c (.ok content)
    else if stored then s.await c
    else s.wait c

/-- A stream from memory is a `buffer`; any other takes the cursor over, and the bytes that it has
read come first. -/
def stream (c : Pending) (inlined stored : Bool) (s : Scope) : Scope :=
  let b := s.blob.promoteIfComplete
  let b := if b.cached = none ∧ inlined then { b with cached := some content } else b
  match b.cached with
  | some bytes => { s with blob := b }.answer c (.ok bytes)
  | none =>
    if stored then { s with blob := b }.await c
    else
      { s with
        blob := b.reset
        running := .pulling c b.cursorHandle
          (if b.consumedBytes > 0 then [bufferConcat b.consumed b.consumedBytes] else []) }

def prefetch (c : Pending) (inlined stored : Bool) (s : Scope) : Scope :=
  if s.blob.cached ≠ none ∨ s.blob.cursorHandle ≠ none ∨ s.blob.consumedBytes > 0 then
    s.answer c (.ok [])
  else if inlined then
    { s with blob := { s.blob with cached := some content } }.answer c (.ok [])
  else if stored then s.answer c (.ok [])
  else s.wait c

/-- A call up to its first await. -/
def start (c : Pending) (inlined stored : Bool) (s : Scope) : Scope :=
  match c.call with
  | .head n => s.head content c n inlined stored
  | .buffer => s.buffer content c inlined stored
  | .text => s.buffer content c inlined stored
  | .stream => s.stream content c inlined stored
  | .close => { s with blob := s.blob.reset }.answer c (.ok [])
  | .prefetch => s.prefetch content c inlined stored

/-- The top of the loops of the sections of `head` and `buffer`. -/
def loop (c : Pending) (s : Scope) : Scope :=
  match c.call with
  | .head n =>
    if !s.blob.atEof ∧ (s.blob.consumedBytes : Int) < n then { s with running := .windowing c }
    else { s with running := .ended c (.ok []) }
  | _ =>
    if s.blob.atEof then
      { s with running := .ended c (.ok (bufferConcat s.blob.consumed s.blob.consumedBytes)) }
    else { s with running := .windowing c }

/-- A section up to its first await. -/
def enter (c : Pending) (s : Scope) : Scope :=
  match c.call with
  | .head _ =>
    if s.blob.atEof then { s with running := .ended c (.ok []) }
    else if s.blob.cursorHandle = none then { s with running := .opening c true }
    else s.loop c
  | .prefetch => { s with running := .opening c false }
  | _ =>
    if s.blob.cursorHandle = none ∧ s.blob.consumedBytes = 0 ∧ !s.blob.atEof then
      { s with running := .opening c false }
    else s.loop c

/-- How many segments a window asks for. -/
def windowCount (c : Pending) (s : Scope) : Nat :=
  match c.call with
  | .head n =>
    let missing := (n - s.blob.consumedBytes).toNat
    if chunkSize = 0 then 32 else min (max 1 ((missing + chunkSize - 1) / chunkSize)) 32
  | _ => 32

def opened (c : Pending) (cursor : Bool) (refusal : Option String) (s : Scope) : Scope :=
  match refusal with
  | some err => { s with running := .ended c (.error err) }
  | none =>
    let handle := s.cursors.length
    let s := { s with cursors := s.cursors ++ [0] }
    if cursor then { s with blob := { s.blob with cursorHandle := some handle } }.loop c
    else { s with running := .reading c handle }

def window (c : Pending) (replies : List SegmentReply) (s : Scope) : Scope :=
  match readBlobWindow replies [] false with
  | .error err => { s with running := .ended c (.error err) }
  | .ok (chunks, eof) => { s with blob := s.blob.push chunks eof }.loop c

/-- What stands behind the section of a call. -/
def resume (c : Pending) (outcome : Except String Bytes) (s : Scope) : Scope :=
  let s := { s with running := .idle }
  match outcome with
  | .error err => s.answer c (.error err)
  | .ok data =>
    match c.call with
    | .head n => s.headEnd c n
    | .prefetch => { s with blob := { s.blob with cached := some data } }.answer c (.ok [])
    | _ => { s with blob := { s.blob with cached := some data, consumed := [] } }.answer c (.ok data)

/-- The promise of the read-ahead store has settled. -/
def delivered (c : Pending) (failure : Option String) (s : Scope) : Scope :=
  let s := { s with awaiting := s.awaiting.erase c }
  match failure with
  | some err => s.answer c (.error err)
  | none =>
    { s with blob := { s.blob with cached := some content } }.answer c
      (.ok (match c.call with | .head n => content.take n.toNat | _ => content))

/-- One `op_get_segment` of a stream. -/
def segment (c : Pending) (handle : Nat) (emitted : List Bytes) (reply : SegmentReply) (s : Scope) :
    Scope :=
  match reply with
  | .refused err => { s with running := .idle }.answer c (.error err)
  | .data bytes eof =>
    let emitted := if bytes.length > 0 then emitted ++ [bytes] else emitted
    if eof then { s with running := .idle }.answer c (.ok emitted.flatten)
    else { s with running := .pulling c (some handle) emitted }

def step (s : Scope) : Event → Option Scope
  | .call call inlined stored =>
    -- a stream has the handle to itself
    if call = .stream ∧ ¬ s.AtRest then none
    else some ({ s with started := s.started + 1 }.start content ⟨s.started, call⟩ inlined stored)
  | .begin =>
    match s.running, s.waiting with
    | .idle, c :: waiting => some ({ s with waiting := waiting }.enter c)
    | _, _ => none
  | .opened refusal =>
    match s.running with
    | .opening c cursor => some (s.opened c cursor refusal)
    | .pulling c none emitted =>
      match refusal with
      | some err => some ({ s with running := .idle }.answer c (.error err))
      | none =>
        some { s with
          cursors := s.cursors ++ [0], running := .pulling c (some s.cursors.length) emitted }
    | _ => none
  | .window replies =>
    match s.running with
    | .windowing c =>
      if replies.length = s.windowCount chunkSize c then
        (serveAt content s.cursors s.blob.cursorHandle replies).map fun cursors =>
          { s with cursors := cursors }.window c replies
      else none
    | _ => none
  | .whole replies =>
    match s.running with
    | .reading c handle =>
      (readBlobLoop replies pipelineDepth false []).bind fun outcome =>
        (serveAt content s.cursors (some handle) replies).map fun cursors =>
          { s with cursors := cursors, running := .ended c outcome }
    | _ => none
  | .resume =>
    match s.running with
    | .ended c outcome => some (s.resume c outcome)
    | _ => none
  | .delivered c failure => if c ∈ s.awaiting then some (s.delivered content c failure) else none
  | .segment reply =>
    match s.running with
    | .pulling c (some handle) emitted =>
      (serveAt content s.cursors (some handle) [reply]).map fun cursors =>
        { s with cursors := cursors }.segment c handle emitted reply
    | _ => none
  | .destroyed =>
    match s.running with
    | .pulling _ _ _ => some { s with running := .idle }
    | _ => none

def machine : Machine Scope Event := ⟨(· = {}), step content chunkSize⟩

end Scope
end FastFirebird.LazyBlob
