import FastFirebird.Talk
import FastFirebird.Blob

/-! The uploads of `protocol/blob.ts` as what they say to the server: the same programs as on a
connection, with every request, flush and read in view. -/
namespace FastFirebird

/-- What a program does to a connection. -/
def Talk.run {α : Type} (link : Link) : Talk Request Reply FirebirdError α → M α
  | .done a => pure a
  | .fail e => throw e
  | .write req next => do
    let _ ← send link req
    next.run link
  | .defer req next => do
    FastFirebird.sendDeferred link req
    next.run link
  | .flush next => do
    FastFirebird.flush
    next.run link
  | .pause next => do
    modify (Conn.await link)
    next.run link
  | .read next => do
    let r ← Async.attempt (readResponse link)
    (next r).run link

theorem Talk.run_bind {α β : Type} (link : Link) (t : Talk Request Reply FirebirdError α)
    (f : α → Talk Request Reply FirebirdError β) :
    (t >>= f).run link = t.run link >>= fun a => (f a).run link := by
  change (t.bind f).run link = _
  induction t with
  | done a => rfl
  | fail e => rfl
  | write req next ih => simp only [Talk.bind, Talk.run, ih, bind_assoc]
  | defer req next ih => simp only [Talk.bind, Talk.run, ih, bind_assoc]
  | flush next ih => simp only [Talk.bind, Talk.run, ih, bind_assoc]
  | pause next ih => simp only [Talk.bind, Talk.run, ih, bind_assoc]
  | read next ih => simp only [Talk.bind, Talk.run, ih, bind_assoc]

namespace Upload

abbrev Program := Talk Request Reply FirebirdError

def write (req : Request) : Program Unit := .write req (.done ())

def defer (req : Request) : Program Unit := .defer req (.done ())

def flush : Program Unit := .flush (.done ())

def pause : Program Unit := .pause (.done ())

def read : Program Reply := .read .done

def fail {α : Type} (e : FirebirdError) : Program α := .fail e

def drainResponses : Nat → Program Unit
  | 0 => pure ()
  | n + 1 => do
    let _ ← read
    drainResponses n

def sendSegment (blob inFlight : Nat) (chunk : Bytes) : Program (Except FirebirdError Unit × Nat) := do
  write (.batchSegments blob (frame chunk))
  if pipelineDepth ≤ inFlight + 1 then
    flush
    match ← read with
    | .ok _ => pure (.ok (), inFlight)
    | .error e => pure (.error e, inFlight)
  else pure (.ok (), inFlight + 1)

def readAllResponses (recover : Program Unit) : Nat → Program Unit
  | 0 => pure ()
  | n + 1 => do
    match ← read with
    | .ok _ => readAllResponses recover n
    | .error e =>
      recover
      drainResponses n
      fail e

def abandonUpload (recover : Program Unit) (blob inFlight : Nat) (e : FirebirdError) :
    Program Unit := do
  recover
  drainResponses inFlight
  defer (.closeBlob blob)
  fail e

def finishUpload (recover : Program Unit) (blob inFlight : Nat) : Program Unit := do
  write (.closeBlob blob)
  flush
  readAllResponses recover (inFlight + 1)

def writeSegments (blob : Nat) : List Bytes → Nat → Program Unit
  | [], inFlight => finishUpload (pure ()) blob inFlight
  | seg :: segs, inFlight => do
    let (r, inFlight) ← sendSegment blob inFlight seg
    match r with
    | .ok () => writeSegments blob segs inFlight
    | .error e => abandonUpload (pure ()) blob inFlight e

/-- Creates the blob and goes on with its handle. -/
def create (txHandle : Nat) (upload : Nat → Program Unit) : Program Bytes := do
  write (.createBlob txHandle)
  flush
  match ← read with
  | .error e => fail e
  | .ok created => do
    upload created.handle
    pure created.oid

def writeBlob (txHandle : Nat) (data : Bytes) (chunkSize : Nat) : Program Bytes :=
  create txHandle fun blob =>
    writeSegments blob (sliceSegments (segmentSize chunkSize) data.length data) 0

def sendFull (blob segSize : Nat) : Nat → Nat → Bytes → Program (Except FirebirdError Bytes × Nat)
  | 0, inFlight, pending => pure (.ok pending, inFlight)
  | fuel + 1, inFlight, pending =>
    if segSize ≤ pending.length then do
      let (r, inFlight) ← sendSegment blob inFlight (pending.take segSize)
      match r with
      | .ok () => sendFull blob segSize fuel inFlight (pending.drop segSize)
      | .error e => pure (.error e, inFlight)
    else pure (.ok pending, inFlight)

def writeChunks (encodeText : String → Except FirebirdError Bytes) (blob segSize : Nat) :
    List (Except FirebirdError Chunk) → Nat → Bytes → Program Unit
  | [], inFlight, pending => do
    pause
    if pending.isEmpty then finishUpload flush blob inFlight
    else
      let (r, inFlight) ← sendSegment blob inFlight pending
      match r with
      | .ok () => finishUpload flush blob inFlight
      | .error e => abandonUpload flush blob inFlight e
  | chunk :: chunks, inFlight, pending => do
    pause
    match chunk >>= chunkBytes encodeText with
    | .error e => abandonUpload flush blob inFlight e
    | .ok bytes =>
      let all := pending ++ bytes
      let (r, inFlight) ← sendFull blob segSize all.length inFlight all
      match r with
      | .ok pending => writeChunks encodeText blob segSize chunks inFlight pending
      | .error e => abandonUpload flush blob inFlight e

def writeBlobStream (encodeText : String → Except FirebirdError Bytes) (txHandle : Nat)
    (source : List (Except FirebirdError Chunk)) (chunkSize : Nat) : Program Bytes :=
  create txHandle fun blob => writeChunks encodeText blob (segmentSize chunkSize) source 0 []

/-! On a connection they are the functions of the client -/

variable {link : Link}

@[simp] theorem run_pure {α : Type} (a : α) : (pure a : Program α).run link = pure a := rfl

@[simp] theorem run_write (req : Request) :
    (write req).run link = (do let _ ← send link req : M Unit) := rfl

@[simp] theorem run_defer (req : Request) :
    (defer req).run link = FastFirebird.sendDeferred link req := rfl

@[simp] theorem run_flush : flush.run link = FastFirebird.flush := rfl

@[simp] theorem run_pause : pause.run link = (modify (Conn.await link) : M Unit) := rfl

@[simp] theorem run_read : read.run link = Async.attempt (readResponse link) := bind_pure _

@[simp] theorem run_fail {α : Type} (e : FirebirdError) : (fail e : Program α).run link = throw e :=
  rfl

/-- Two programs that begin alike. -/
theorem bind_congr {α β : Type} {x : M α} {f g : α → M β} (h : ∀ a, f a = g a) :
    x >>= f = x >>= g := congrArg (x >>= ·) (funext h)

theorem drainResponses_run (n : Nat) :
    (drainResponses n).run link = FastFirebird.drainResponses link n := by
  induction n with
  | zero => rfl
  | succ n ih =>
    rw [drainResponses, FastFirebird.drainResponses, Talk.run_bind, run_read]
    exact bind_congr fun _ => ih

theorem sendSegment_run (blob inFlight : Nat) (chunk : Bytes) :
    (sendSegment blob inFlight chunk).run link =
      FastFirebird.sendSegment link blob inFlight chunk := by
  rw [sendSegment, FastFirebird.sendSegment, Talk.run_bind, run_write, bind_assoc]
  refine bind_congr fun _ => ?_
  rw [pure_bind]
  split
  · rw [Talk.run_bind, run_flush]
    refine bind_congr fun _ => ?_
    rw [Talk.run_bind, run_read]
    refine bind_congr fun r => ?_
    cases r <;> rfl
  · rfl

theorem readAllResponses_run (recover : Program Unit) (n : Nat) :
    (readAllResponses recover n).run link =
      FastFirebird.readAllResponses link (recover.run link) n := by
  induction n with
  | zero => rfl
  | succ n ih =>
    rw [readAllResponses, FastFirebird.readAllResponses, Talk.run_bind, run_read]
    refine bind_congr fun r => ?_
    cases r with
    | ok _ => exact ih
    | error e =>
      dsimp only
      rw [Talk.run_bind]
      refine bind_congr fun _ => ?_
      rw [Talk.run_bind, drainResponses_run]
      rfl

theorem abandonUpload_run (recover : Program Unit) (blob inFlight : Nat) (e : FirebirdError) :
    (abandonUpload recover blob inFlight e).run link =
      FastFirebird.abandonUpload link (recover.run link) blob inFlight e := by
  rw [abandonUpload, FastFirebird.abandonUpload, Talk.run_bind]
  refine bind_congr fun _ => ?_
  rw [Talk.run_bind, drainResponses_run]
  refine bind_congr fun _ => ?_
  rw [Talk.run_bind]
  rfl

theorem finishUpload_run (recover : Program Unit) (blob inFlight : Nat) :
    (finishUpload recover blob inFlight).run link =
      FastFirebird.finishUpload link (recover.run link) blob inFlight := by
  rw [finishUpload, FastFirebird.finishUpload, Talk.run_bind, run_write, bind_assoc]
  refine bind_congr fun _ => ?_
  rw [pure_bind, Talk.run_bind, run_flush]
  exact bind_congr fun _ => readAllResponses_run recover _

theorem writeSegments_run (blob : Nat) (segs : List Bytes) (inFlight : Nat) :
    (writeSegments blob segs inFlight).run link =
      FastFirebird.writeSegments link blob segs inFlight := by
  induction segs generalizing inFlight with
  | nil => exact finishUpload_run (pure ()) blob inFlight
  | cons seg segs ih =>
    rw [writeSegments, FastFirebird.writeSegments, Talk.run_bind, sendSegment_run]
    refine bind_congr fun (r, inFlight) => ?_
    cases r with
    | ok _ => exact ih inFlight
    | error e => exact abandonUpload_run (pure ()) blob inFlight e

/-- Catching an error to throw it again. -/
theorem attempt_bind {α β : Type} {x : M α} {f : α → M β} {g : Except FirebirdError α → M β}
    (herror : ∀ e, g (.error e) = throw e) (hok : ∀ a, g (.ok a) = f a) :
    Async.attempt x >>= g = x >>= f := by
  funext c
  unfold Async.attempt
  change Async.bind (Async.handle (Async.bind x fun a => Async.pure (.ok a))
    fun e => Async.pure (.error e)) g c = Async.bind x f c
  unfold Async.bind Async.handle Async.pure
  dsimp only
  rcases x c with ⟨a | e | _, c'⟩
  · exact congrFun (hok a) c'
  · exact congrFun (herror e) c'
  · rfl

theorem create_run (txHandle : Nat) {upload : Nat → Program Unit} {upload' : Nat → M Unit}
    (h : ∀ blob, (upload blob).run link = upload' blob) :
    (create txHandle upload).run link = (do
      let created ← roundTrip link (.createBlob txHandle)
      upload' created.handle
      pure created.oid : M Bytes) := by
  rw [create, Talk.run_bind, run_write, roundTrip]
  simp only [bind_assoc, pure_bind]
  refine bind_congr fun _ => ?_
  rw [Talk.run_bind, run_flush]
  refine bind_congr fun _ => ?_
  rw [Talk.run_bind, run_read]
  refine attempt_bind (fun e => rfl) fun created => ?_
  dsimp only
  rw [Talk.run_bind, h]
  rfl

/-- `writeBlob` says to the server what the program says. -/
theorem writeBlob_run (txHandle : Nat) (data : Bytes) (chunkSize : Nat) :
    (writeBlob txHandle data chunkSize).run link =
      FastFirebird.writeBlob link txHandle data chunkSize := by
  rw [writeBlob, FastFirebird.writeBlob]
  exact create_run txHandle fun blob => writeSegments_run blob _ 0

theorem sendFull_run (blob segSize fuel : Nat) : ∀ (inFlight : Nat) (pending : Bytes),
    (sendFull blob segSize fuel inFlight pending).run link =
      FastFirebird.sendFull link blob segSize fuel inFlight pending := by
  induction fuel with
  | zero => exact fun _ _ => rfl
  | succ fuel ih =>
    intro inFlight pending
    rw [sendFull, FastFirebird.sendFull]
    split
    · rw [Talk.run_bind, sendSegment_run]
      refine bind_congr fun (r, inFlight) => ?_
      cases r with
      | ok _ => exact ih inFlight _
      | error e => rfl
    · rfl

theorem writeChunks_run (encodeText : String → Except FirebirdError Bytes) (blob segSize : Nat)
    (chunks : List (Except FirebirdError Chunk)) : ∀ (inFlight : Nat) (pending : Bytes),
    (writeChunks encodeText blob segSize chunks inFlight pending).run link =
      FastFirebird.writeChunks link encodeText blob segSize chunks inFlight pending := by
  induction chunks with
  | nil =>
    intro inFlight pending
    rw [writeChunks, FastFirebird.writeChunks, Talk.run_bind, run_pause]
    refine bind_congr fun _ => ?_
    split
    · exact finishUpload_run flush blob inFlight
    · rw [Talk.run_bind, sendSegment_run]
      refine bind_congr fun (r, inFlight) => ?_
      cases r with
      | ok _ => exact finishUpload_run flush blob inFlight
      | error e => exact abandonUpload_run flush blob inFlight e
  | cons chunk chunks ih =>
    intro inFlight pending
    rw [writeChunks, FastFirebird.writeChunks, Talk.run_bind, run_pause]
    refine bind_congr fun _ => ?_
    cases chunk >>= chunkBytes encodeText with
    | error e => exact abandonUpload_run flush blob inFlight e
    | ok bytes =>
      dsimp only
      rw [Talk.run_bind, sendFull_run]
      refine bind_congr fun (r, inFlight) => ?_
      cases r with
      | ok pending => exact ih inFlight pending
      | error e => exact abandonUpload_run flush blob inFlight e

theorem writeBlobStream_run (encodeText : String → Except FirebirdError Bytes) (txHandle : Nat)
    (source : List (Except FirebirdError Chunk)) (chunkSize : Nat) :
    (writeBlobStream encodeText txHandle source chunkSize).run link =
      FastFirebird.writeBlobStream link encodeText txHandle source chunkSize := by
  rw [writeBlobStream, FastFirebird.writeBlobStream]
  exact create_run txHandle fun blob => writeChunks_run encodeText blob _ source 0 []

end Upload

end FastFirebird
