import FastFirebird.Statement

/-! `protocol/blob.ts`: blob transfers with a window of segment requests in
flight. Loops over what the server sends take fuel; out of fuel is still waiting. -/
namespace FastFirebird

def blobSegstrEofHandle : Nat := 2

def maxSegmentSize : Nat := 65535

def pipelineDepth : Nat := 32

def openAhead : Nat := 10

def rampStart : Nat := 4

def segmentBufferLength (chunkSize : Nat) : Nat := min (max chunkSize 1 + 2) maxSegmentSize

def segmentSize (chunkSize : Nat) : Nat := min (max chunkSize 1) (maxSegmentSize - 2)

structure Segment where
  data : Bytes
  eof : Bool
  deriving Repr, DecidableEq

variable (link : Link)

/-- Sends a request once for each unit of `n`. -/
def sendTimes (req : Request) : Nat → M Unit
  | 0 => pure ()
  | n + 1 => do
    let _ ← send link req
    sendTimes req n

/-- `await wire.readResponse().catch(() => undefined)`, `n` times. -/
def drainResponses : Nat → M Unit
  | 0 => pure ()
  | n + 1 => do
    let _ ← Async.attempt (readResponse link)
    drainResponses n

def openBlob (txHandle : Nat) (blobId : Bytes) : M Nat := do
  let resp ← roundTrip link (.openBlob txHandle blobId)
  pure resp.handle

/-- Parses one `op_get_segment` response body. -/
def readSegmentResponse : M Segment := do
  let resp ← readResponse link
  pure ⟨parseSegmentFrames resp.data, resp.handle == blobSegstrEofHandle⟩

def getBlobSegment (blob chunkSize : Nat) : M Segment := do
  let _ ← send link (.getSegment blob (segmentBufferLength chunkSize))
  flush
  readSegmentResponse link

/-- Rides with the next packet. -/
def closeBlobDeferred (blob : Nat) : M Unit := sendDeferred link (.closeBlob blob)

def littleEndian : Bytes → Nat
  | [] => 0
  | b :: bs => b.toNat + 256 * littleEndian bs

def blobTotalLength (blob : Nat) : M Nat := do
  let resp ← roundTrip link (.infoBlob blob)
  match resp.data with
  | item :: lo :: hi :: rest =>
    if item.toNat = 6 then pure (littleEndian (rest.take (lo.toNat + 256 * hi.toNat))) else pure 0
  | _ => pure 0

/-- `inFlight` segment requests are unanswered; each answer that is not the end
tops the window up again. -/
def readBlobLoop (blob bufferLength : Nat) : Nat → (inFlight : Nat) → (eof : Bool) → Bytes → M Bytes
  | _, 0, _, parts => do
    closeBlobDeferred link blob
    pure parts
  | 0, _ + 1, _, _ => Async.stall
  | fuel + 1, inFlight + 1, eof, parts => do
    match ← Async.attempt (readSegmentResponse link) with
    | .error e =>
      drainResponses link inFlight
      closeBlobDeferred link blob
      throw e
    | .ok seg =>
      if eof then readBlobLoop blob bufferLength fuel inFlight true parts
      else if seg.eof then readBlobLoop blob bufferLength fuel inFlight true (parts ++ seg.data)
      else
        let _ ← send link (.getSegment blob bufferLength)
        flush
        readBlobLoop blob bufferLength fuel (inFlight + 1) false (parts ++ seg.data)

def readBlob (fuel txHandle : Nat) (blobId : Bytes) (chunkSize : Nat) : M Bytes := do
  let blob ← openBlob link txHandle blobId
  let bufferLength := segmentBufferLength chunkSize
  sendTimes link (.getSegment blob bufferLength) pipelineDepth
  flush
  readBlobLoop link blob bufferLength fuel pipelineDepth false []

/-- All `remaining` responses of a window, also those behind a failed one. -/
def readWindowLoop : (remaining : Nat) → (eof : Bool) → List Bytes → M (List Bytes × Bool)
  | 0, eof, chunks => pure (chunks, eof)
  | remaining + 1, eof, chunks => do
    match ← Async.attempt (readSegmentResponse link) with
    | .error e =>
      drainResponses link remaining
      throw e
    | .ok seg =>
      if eof then readWindowLoop remaining true chunks
      else
        readWindowLoop remaining seg.eof
          (if seg.data.isEmpty then chunks else chunks ++ [seg.data])

/-- One window on an open blob: `count` requests in one flush, then all their
responses. -/
def readBlobWindow (blob chunkSize count : Nat) : M (List Bytes × Bool) := do
  sendTimes link (.getSegment blob (segmentBufferLength chunkSize)) count
  flush
  readWindowLoop link count false []

structure BlobState where
  handle : Option Nat := none
  parts : Bytes := []
  eof : Bool := false
  inFlight : Nat := 0
  cap : Nat := rampStart
  dataSegs : Nat := 0

inductive PendingRead where
  | open (idx : Nat)
  | seg (idx : Nat)
  | close

/-- `pending` are the requests flushed and unanswered, in order; `unflushed`
those still in the packet buffer. -/
structure BlobReads where
  blobs : List BlobState
  pending : List PendingRead := []
  unflushed : List PendingRead := []
  nextToOpen : Nat := 0
  head : Nat := 0
  totalInFlight : Nat := 0

def BlobReads.blob (st : BlobReads) (i : Nat) : BlobState := st.blobs.getD i {}

def BlobReads.setBlob (st : BlobReads) (i : Nat) (b : BlobState) : BlobReads :=
  { st with blobs := st.blobs.set i b }

def flushNow (st : BlobReads) : M BlobReads :=
  if st.unflushed.isEmpty then pure st
  else do
    flush
    pure { st with pending := st.pending ++ st.unflushed, unflushed := [] }

/-- A packet's worth has accumulated. -/
def flushFull (st : BlobReads) : M BlobReads :=
  if 8 ≤ st.unflushed.length then flushNow st else pure st

/-- Nothing is outstanding that could bring a response. -/
def flushIdle (st : BlobReads) : M BlobReads :=
  if st.pending.isEmpty then flushNow st else pure st

/-- Opens ahead of the first unfinished blob. -/
def pumpOpens (txHandle : Nat) (blobIds : List Bytes) : Nat → BlobReads → M BlobReads
  | 0, st => pure st
  | fuel + 1, st =>
    if st.nextToOpen < blobIds.length ∧ st.nextToOpen < st.head + openAhead then do
      let _ ← send link (.openBlob txHandle (blobIds.getD st.nextToOpen []))
      pumpOpens txHandle blobIds fuel
        { st with
          unflushed := st.unflushed ++ [.open st.nextToOpen]
          nextToOpen := st.nextToOpen + 1 }
    else pure st

/-- Fills blob `i`'s share of the window. -/
def pumpBlob (bufferLength i : Nat) (st : BlobReads) : M BlobReads :=
  match (st.blob i).handle with
  | some handle =>
    if (st.blob i).eof then pure st
    else do
      let b := st.blob i
      let more := min b.cap (b.inFlight + (pipelineDepth - st.totalInFlight)) - b.inFlight
      sendTimes link (.getSegment handle bufferLength) more
      pure
        { st with
          blobs := st.blobs.set i { b with inFlight := b.inFlight + more }
          unflushed := st.unflushed ++ List.replicate more (.seg i)
          totalInFlight := st.totalInFlight + more }
  | none => pure st

/-- One shared window of segment requests across the blobs, in order. -/
def pumpSegments (bufferLength : Nat) : List Nat → BlobReads → M BlobReads
  | [], st => pure st
  | i :: is, st =>
    if st.totalInFlight < pipelineDepth then do
      let st ← pumpBlob link bufferLength i st
      pumpSegments bufferLength is st
    else pure st

def pump (txHandle bufferLength : Nat) (blobIds : List Bytes) (st : BlobReads) : M BlobReads := do
  let st ← pumpOpens link txHandle blobIds blobIds.length st
  pumpSegments link bufferLength (List.range' st.head (st.blobs.length - st.head)) st

/-- The first blob at or behind `head` that is not read to its end. -/
def BlobReads.nextHead (st : BlobReads) : Nat :=
  st.head + ((st.blobs.drop st.head).takeWhile (·.eof)).length

/-- A segment has arrived for blob `i`. -/
def receiveSegment (i : Nat) (seg : Segment) (st : BlobReads) : M BlobReads :=
  let b := st.blob i
  if b.eof then pure st
  else if seg.eof then do
    let _ ← send link (.closeBlob (b.handle.getD 0))
    let st := st.setBlob i { b with parts := b.parts ++ seg.data, eof := true }
    pure { st with unflushed := st.unflushed ++ [.close], head := st.nextHead }
  else
    let segs := b.dataSegs + 1
    let cap := if b.cap ≤ segs then min (b.cap * 2) pipelineDepth else b.cap
    pure (st.setBlob i { b with parts := b.parts ++ seg.data, dataSegs := segs, cap := cap })

/-- The response to the request `p` at the head of the queue. -/
def readPending (p : PendingRead) (st : BlobReads) : M (Except FirebirdError BlobReads) :=
  match p with
  | .open i => do
    match ← Async.attempt (readResponse link) with
    | .ok resp => pure (.ok (st.setBlob i { st.blob i with handle := some resp.handle }))
    | .error e => pure (.error e)
  | .close => do
    let _ ← Async.attempt (readResponse link)
    pure (.ok st)
  | .seg i => do
    let b := st.blob i
    let st := st.setBlob i { b with inFlight := b.inFlight - 1 }
    let st := { st with totalInFlight := st.totalInFlight - 1 }
    match ← Async.attempt (readSegmentResponse link) with
    | .ok seg => .ok <$> receiveSegment link i seg st
    | .error e => pure (.error e)

def closeUnfinished (b : BlobState) : M Unit :=
  match b.handle with
  | some handle => if b.eof then pure () else closeBlobDeferred link handle
  | none => pure ()

def closeOpenBlobs : List BlobState → M Unit
  | [] => pure ()
  | b :: bs => do
    closeUnfinished link b
    closeOpenBlobs bs

/-- A read failed: everything written is flushed and its responses consumed. -/
def abandonReads (e : FirebirdError) (st : BlobReads) : M (List Bytes) := do
  let st ← flushNow st
  drainResponses link st.pending.length
  closeOpenBlobs link st.blobs
  throw e

def readBlobsLoop (txHandle bufferLength : Nat) (blobIds : List Bytes) :
    Nat → BlobReads → M (List Bytes)
  | 0, _ => Async.stall
  | fuel + 1, st => do
    let st ← pump link txHandle bufferLength blobIds st
    let st ← flushFull st
    let st ← flushIdle st
    match st.pending with
    | [] => pure (st.blobs.map (·.parts))
    | p :: pending =>
      let st := { st with pending := pending }
      match ← readPending link p st with
      | .ok st => readBlobsLoop txHandle bufferLength blobIds fuel st
      | .error e => abandonReads link e st

def readBlobs (fuel txHandle : Nat) (blobIds : List Bytes) (chunkSize : Nat) : M (List Bytes) :=
  match blobIds with
  | [] => pure []
  | [id] => do
    let data ← readBlob link fuel txHandle id chunkSize
    pure [data]
  | _ =>
    readBlobsLoop link txHandle (segmentBufferLength chunkSize) blobIds fuel
      { blobs := blobIds.map fun _ => {} }

def frame (segment : Bytes) : Bytes :=
  UInt8.ofNat segment.length :: UInt8.ofNat (segment.length / 256) :: segment

/-- Writes one framed segment; a full window waits for its oldest response. The
result is the number of requests then unanswered. -/
def sendSegment (blob inFlight : Nat) (chunk : Bytes) : M (Except FirebirdError Unit × Nat) := do
  let _ ← send link (.batchSegments blob (frame chunk))
  if pipelineDepth ≤ inFlight + 1 then
    flush
    match ← Async.attempt (readResponse link) with
    | .ok _ => pure (.ok (), inFlight)
    | .error e => pure (.error e, inFlight)
  else pure (.ok (), inFlight + 1)

/-- The responses of an upload; `recover` comes first when one of them fails. -/
def readAllResponses (recover : M Unit) : Nat → M Unit
  | 0 => pure ()
  | n + 1 => do
    match ← Async.attempt (readResponse link) with
    | .ok _ => readAllResponses recover n
    | .error e =>
      recover
      drainResponses link n
      throw e

/-- The upload failed before its close was sent. -/
def abandonUpload (recover : M Unit) (blob inFlight : Nat) (e : FirebirdError) : M Unit := do
  recover
  drainResponses link inFlight
  closeBlobDeferred link blob
  throw e

def finishUpload (recover : M Unit) (blob inFlight : Nat) : M Unit := do
  let _ ← send link (.closeBlob blob)
  flush
  readAllResponses link recover (inFlight + 1)

/-- What `writeBlob` slices `data` into; an empty blob is one empty segment. -/
def sliceSegments (segSize : Nat) : Nat → Bytes → List Bytes
  | 0, data => [data]
  | fuel + 1, data =>
    if data.length ≤ segSize then [data]
    else data.take segSize :: sliceSegments segSize fuel (data.drop segSize)

def writeSegments (blob : Nat) : List Bytes → Nat → M Unit
  | [], inFlight => finishUpload link (pure ()) blob inFlight
  | seg :: segs, inFlight => do
    let (r, inFlight) ← sendSegment link blob inFlight seg
    match r with
    | .ok () => writeSegments blob segs inFlight
    | .error e => abandonUpload link (pure ()) blob inFlight e

def writeBlob (txHandle : Nat) (data : Bytes) (chunkSize : Nat) : M Bytes := do
  let created ← roundTrip link (.createBlob txHandle)
  writeSegments link created.handle (sliceSegments (segmentSize chunkSize) data.length data) 0
  pure created.oid

/-- Sends the full segments there are in `pending`; what is left over stays. -/
def sendFull (blob segSize : Nat) : Nat → Nat → Bytes →
    M (Except FirebirdError Bytes × Nat)
  | 0, inFlight, pending => pure (.ok pending, inFlight)
  | fuel + 1, inFlight, pending =>
    if segSize ≤ pending.length then do
      let (r, inFlight) ← sendSegment link blob inFlight (pending.take segSize)
      match r with
      | .ok () => sendFull blob segSize fuel inFlight (pending.drop segSize)
      | .error e => pure (.error e, inFlight)
    else pure (.ok pending, inFlight)

def chunkBytes (encodeText : String → Except FirebirdError Bytes) : Chunk → Except FirebirdError Bytes
  | .text s => encodeText s
  | .bytes b => .ok b
  | .invalid => .error { message := "Streaming blob source must yield Buffers or strings" }

/-- Pulls the chunks of a source, which may take its time over each, and may throw
with segments still in the packet buffer. -/
def writeChunks (encodeText : String → Except FirebirdError Bytes) (blob segSize : Nat) :
    List (Except FirebirdError Chunk) → Nat → Bytes → M Unit
  | [], inFlight, pending => do
    modify (Conn.await link)
    if pending.isEmpty then finishUpload link flush blob inFlight
    else
      let (r, inFlight) ← sendSegment link blob inFlight pending
      match r with
      | .ok () => finishUpload link flush blob inFlight
      | .error e => abandonUpload link flush blob inFlight e
  | chunk :: chunks, inFlight, pending => do
    modify (Conn.await link)
    match chunk >>= chunkBytes encodeText with
    | .error e => abandonUpload link flush blob inFlight e
    | .ok bytes =>
      let all := pending ++ bytes
      let (r, inFlight) ← sendFull link blob segSize all.length inFlight all
      match r with
      | .ok pending => writeChunks encodeText blob segSize chunks inFlight pending
      | .error e => abandonUpload link flush blob inFlight e

def writeBlobStream (encodeText : String → Except FirebirdError Bytes) (txHandle : Nat)
    (source : List (Except FirebirdError Chunk)) (chunkSize : Nat) : M Bytes := do
  let created ← roundTrip link (.createBlob txHandle)
  writeChunks link encodeText created.handle (segmentSize chunkSize) source 0 []
  pure created.oid

end FastFirebird
