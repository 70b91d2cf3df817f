import FastFirebird.BatchSync
import Mathlib.Algebra.Order.Ring.Rat

/-! `runBatch` over any way to encode a row and to carry out a cycle. The wire is
one such way, a server with a fixed outcome for every row is another. -/
namespace FastFirebird

/-- A row as it goes into a cycle, and the blobs it refers to. -/
structure EncodedRow where
  blobIds : List Bytes
  buf : Bytes
  deriving Repr, DecidableEq

/-- What ends a batch early: `FirebirdBatchError` names a row by its index in the
submitted sequence; anything else thrown is passed on. -/
inductive BatchStop where
  | failedRow (index : Nat) (cause : Option FirebirdError)
  | thrown (e : FirebirdError)
  deriving Repr, DecidableEq

def BatchStop.error : BatchStop → FirebirdError
  | .failedRow i cause =>
    { kind := .batch
      message := "batch row " ++ toString i ++ " failed: " ++
        (cause.map (·.message)).getD "unknown error"
      gdsCode := cause.bind (·.gdsCode) }
  | .thrown e => e

/-- The completion of a cycle, taken into the batch. -/
def BatchState.complete (st : BatchState) (continueOnError : Bool) (completion : BatchCompletion) :
    Except BatchStop Unit × BatchState :=
  let combined := st.combined.add st.rowBufs.length completion
  let st : BatchState := { combined, created := true }
  match combined.errors with
  | (i, e) :: _ => (if continueOnError then .ok () else .error (.failedRow i e), st)
  | [] => (.ok (), st)

section Loop

variable {m : Type → Type} [Monad m] {ρ : Type}
  (encode : Nat → ρ → m (Except FirebirdError EncodedRow)) (endOfRows : m Unit)
  (cycle : BatchState → m (Except FirebirdError BatchCompletion))
  (full : Nat → Bool) (continueOnError : Bool)

def execCycleWith (st : BatchState) : m (Except BatchStop Unit × BatchState) := do
  match ← cycle st with
  | .error e => pure (.error (.thrown e), { st with created := true })
  | .ok completion => pure (st.complete continueOnError completion)

def runRowsWith : List ρ → Nat → BatchState → m (Except BatchStop Unit × BatchState)
  | [], _, st => do
    endOfRows
    if st.rowBufs.isEmpty then pure (.ok (), st) else execCycleWith cycle continueOnError st
  | row :: rows, index, st => do
    match ← encode index row with
    | .error e => pure (.error (.thrown e), st)
    | .ok row =>
      let st := st.addRow row.blobIds row.buf
      if full st.rowBufs.length then
        match ← execCycleWith cycle continueOnError st with
        | (.ok (), st) => runRowsWith rows (index + 1) st
        | (.error stop, st) => pure (.error stop, st)
      else runRowsWith rows (index + 1) st

end Loop

section Wire

variable (link : Link) (codec : Codec) (opts : Options)

/-- A row encoded over the wire. -/
def encodeOverWire (txHandle : Nat) (info : PreparedStatementInfo) (format : BatchFormat)
    (names : List String) (index : Nat) (row : Except FirebirdError QueryParams) :
    M (Except FirebirdError EncodedRow) := do
  let r ← Async.attempt (encodeRow link codec opts txHandle info format names index row)
  pure (r.map fun (blobIds, buf) => ⟨blobIds, buf⟩)

def asFirebirdError (r : Except BatchStop Unit × BatchState) :
    Except FirebirdError Unit × BatchState := (r.1.mapError BatchStop.error, r.2)

theorem asFirebirdError_execCycleWith (txHandle : Nat) (stmt : StmtHandle) (batch : BatchOptions)
    (st : BatchState) :
    asFirebirdError <$> execCycleWith (fun st => Async.attempt (cycleWire link stmt txHandle st))
        batch.continueOnError st =
      execCycle link stmt txHandle batch st := by
  unfold execCycleWith execCycle
  rw [map_bind]
  refine bind_congr fun r => ?_
  cases r with
  | error e => rfl
  | ok completion =>
    rw [map_pure]
    rcases he : (st.combined.add st.rowBufs.length completion).errors with _ | ⟨⟨i, e⟩, errors⟩
    · simp only [BatchState.complete, asFirebirdError, he, Except.mapError]
    · cases batch.continueOnError <;>
        simp [BatchState.complete, asFirebirdError, he, Except.mapError, BatchStop.error]

theorem runRows_eq_runRowsWith (txHandle : Nat) (info : PreparedStatementInfo)
    (format : BatchFormat) (names : List String) (batch : BatchOptions) (rows : BatchRows)
    (index : Nat) (st : BatchState) :
    runRows link codec opts txHandle info format names batch rows index st =
      asFirebirdError <$> runRowsWith (encodeOverWire link codec opts txHandle info format names)
        (modify (Conn.await link)) (fun st => Async.attempt (cycleWire link info.handle txHandle st))
        (fun n => max format.alignedStride batch.chunkBytes ≤ n * format.alignedStride)
        batch.continueOnError rows index st := by
  induction rows generalizing index st with
  | nil =>
    unfold runRows runRowsWith
    rw [map_bind]
    refine bind_congr fun _ => ?_
    split
    · rfl
    · exact (asFirebirdError_execCycleWith link txHandle info.handle batch st).symm
  | cons row rows ih =>
    unfold runRows runRowsWith encodeOverWire
    simp only [map_bind, bind_assoc, pure_bind]
    refine bind_congr fun r => ?_
    cases r with
    | error e => rfl
    | ok row =>
      simp only [Except.map, decide_eq_true_eq]
      split
      · rw [← asFirebirdError_execCycleWith, map_bind, bind_map_left]
        refine bind_congr fun r => ?_
        rcases r with ⟨_ | _, st⟩
        · rfl
        · exact ih (index + 1) st
      · exact ih (index + 1) _

end Wire

end FastFirebird
