import FastFirebird.BatchLoop
import Mathlib.Data.List.Forall2
import Mathlib.Tactic.NormNum

/-! `executeBatch` against a server that has an outcome for every row: what becomes
of the batch does not depend on where its cycles end. -/
namespace FastFirebird

/-- What a row comes to on the server. A count of -2 stands for a success without one. -/
inductive RowOutcome where
  | done (updateCount : Int)
  | failed (e : FirebirdError)
  deriving Repr, DecidableEq

def executeFailed : Int := -1

namespace RowOutcome

def updateCount : RowOutcome → Int
  | .done n => n
  | .failed _ => executeFailed

def failure : RowOutcome → Option FirebirdError
  | .done _ => none
  | .failed e => some e

end RowOutcome

/-- What the server has been sent for one cycle. -/
structure Cycle where
  blobIds : List Bytes
  rows : List Bytes
  deriving Repr, DecidableEq

section Server

variable (outcome : Nat → RowOutcome)

def failureAt (i : Nat) : Option (Nat × FirebirdError) := (outcome i).failure.map (i, ·)

/-- The failing ones of the rows `first`, ..., `first + n - 1`. -/
def failures (first n : Nat) : List (Nat × FirebirdError) :=
  (List.range' first n).filterMap (failureAt outcome)

/-- Without TAG_MULTIERROR the server stops behind the first row that fails. -/
def processedRows (multiError : Bool) (n : Nat) : Nat :=
  if multiError then n
  else
    match failures outcome 0 n with
    | [] => n
    | (i, _) :: _ => i + 1

/-- Status vectors for the first `cap` failures, the index alone for the others. -/
def detailErrors (cap : Nat) (errors : List (Nat × FirebirdError)) :
    List (Nat × Option FirebirdError) :=
  errors.mapIdx fun k (i, e) => (i, if k < cap then some e else none)

/-- `op_batch_cs`, for a cycle of `n` rows whose outcomes count from 0. -/
def completionOf (multiError : Bool) (cap n : Nat) : BatchCompletion where
  recCount := processedRows outcome multiError n
  updateCounts := (List.range (processedRows outcome multiError n)).map fun i => (outcome i).updateCount
  errors := detailErrors cap (failures outcome 0 (processedRows outcome multiError n))

def rowsIn (cycles : List Cycle) : Nat := (cycles.map (·.rows.length)).sum

/-- The server knows the rows of earlier cycles, and answers for the new ones. -/
def serveCycle (multiError : Bool) (cap : Nat) (st : BatchState) :
    StateM (List Cycle) (Except FirebirdError BatchCompletion) := do
  let cycles ← get
  set (cycles ++ [⟨st.cycleBlobIds, st.rowBufs⟩])
  pure (.ok (completionOf (fun i => outcome (rowsIn cycles + i)) multiError cap st.rowBufs.length))

end Server

/-- The option is a double. -/
inductive ChunkBytes where
  | nan
  | negInfinity
  | finite (q : ℚ)
  | infinity

/-- `rowBufs.length * format.alignedStride >= chunkBytes`, the limit being at least one row. -/
def ChunkBytes.full (stride : Nat) : ChunkBytes → Nat → Bool
  | .nan, _ | .infinity, _ => false
  | .negInfinity, n => stride ≤ n * stride
  | .finite q, n => max (stride : ℚ) q ≤ (n * stride : Nat)

structure BatchRun where
  result : Except BatchStop BatchResult
  cycles : List Cycle

section Run

variable (outcome : Nat → RowOutcome) (cap : Nat) (continueOnError : Bool) (full : Nat → Bool)

/-- The loop against that server; a row that does not bind or encode is an error. -/
def chunkedRows (rows : List (Except FirebirdError EncodedRow)) (index : Nat) (st : BatchState) :
    StateM (List Cycle) (Except BatchStop Unit × BatchState) :=
  runRowsWith (fun _ row => pure row) (pure ()) (serveCycle outcome continueOnError cap) full
    continueOnError rows index st

def chunkedBatch (rows : List (Except FirebirdError EncodedRow)) : BatchRun :=
  let ((r, st), cycles) := (chunkedRows outcome cap continueOnError full rows 0 {}).run []
  { result := r.map fun _ => st.combined, cycles := cycles }

/-- `runBatch` with rows of `stride` bytes. -/
def batchRun (stride : Nat) (chunkBytes : ChunkBytes)
    (rows : List (Except FirebirdError EncodedRow)) : BatchRun :=
  chunkedBatch outcome cap continueOnError (chunkBytes.full stride) rows

end Run

/-- What the caller is told, the error vectors aside. -/
structure BatchReport where
  rowCount : Nat
  updateCounts : List Int
  rowsAffected : Int
  failedRows : List Nat
  deriving Repr, DecidableEq

def BatchResult.report (r : BatchResult) : BatchReport where
  rowCount := r.rowCount
  updateCounts := r.updateCounts
  rowsAffected := r.rowsAffected
  failedRows := r.errors.map (·.1)

section Failures

variable {outcome : Nat → RowOutcome}

theorem failures_zero (first : Nat) : failures outcome first 0 = [] := rfl

theorem failures_succ (first n : Nat) :
    failures outcome first (n + 1) = (failureAt outcome first).toList ++ failures outcome (first + 1) n := by
  unfold failures
  rw [List.range'_succ, List.filterMap_cons]
  cases failureAt outcome first <;> rfl

theorem failures_add (first n k : Nat) :
    failures outcome first (n + k) = failures outcome first n ++ failures outcome (first + n) k := by
  unfold failures
  rw [← List.range'_append_1, List.filterMap_append]

/-- The indexes of a cycle are relative to its first row. -/
theorem failures_shift (first n : Nat) :
    (failures (fun i => outcome (first + i)) 0 n).map (fun p => (first + p.1, p.2)) =
      failures outcome first n := by
  have hr : List.range' first n = (List.range' 0 n).map (first + ·) := by
    rw [List.map_add_range', Nat.add_zero]
  unfold failures
  rw [hr, List.map_filterMap, List.filterMap_map]
  congr 1
  funext i
  simp only [failureAt, Function.comp]
  cases (outcome (first + i)).failure <;> rfl

/-- Nothing fails ahead of the first failure. -/
theorem failures_head {first n i : Nat} {e : FirebirdError} {l : List (Nat × FirebirdError)}
    (h : failures outcome first n = (i, e) :: l) :
    first ≤ i ∧ i < first + n ∧ failures outcome first (i - first) = [] ∧
      (outcome i).failure = some e := by
  induction n generalizing first with
  | zero => exact absurd h (by simp [failures_zero])
  | succ n ih =>
    rw [failures_succ] at h
    cases hf : (outcome first).failure with
    | some e' =>
      simp only [failureAt, hf, Option.map_some, Option.toList_some, List.singleton_append,
        List.cons.injEq, Prod.mk.injEq] at h
      obtain ⟨⟨rfl, rfl⟩, -⟩ := h
      refine ⟨Nat.le_refl _, by omega, ?_, hf⟩
      rw [Nat.sub_self, failures_zero]
    | none =>
      have hn : failureAt outcome first = none := by rw [failureAt, hf, Option.map_none]
      rw [hn, Option.toList_none, List.nil_append] at h
      obtain ⟨hle, hlt, hq, he⟩ := ih h
      refine ⟨by omega, by omega, ?_, he⟩
      have hs : i - first = i - (first + 1) + 1 := by omega
      rw [hs, failures_succ, hn, hq]
      rfl

theorem detailErrors_indexes (cap : Nat) (errors : List (Nat × FirebirdError)) :
    (detailErrors cap errors).map (·.1) = errors.map (·.1) := by
  apply List.ext_getElem?
  intro i
  unfold detailErrors
  rw [List.getElem?_map, List.getElem?_mapIdx, List.getElem?_map]
  cases errors[i]? <;> rfl

theorem processedRows_of_quiet {n : Nat} (multiError : Bool)
    (h : multiError = false → failures outcome 0 n = []) : processedRows outcome multiError n = n := by
  unfold processedRows
  split
  · rfl
  · rename_i hm
    rw [h (Bool.eq_false_iff.mpr hm)]

/-- A server that stops does so with the first failure alone. -/
theorem completionOf_failing {n i : Nat} {e : FirebirdError} {l : List (Nat × FirebirdError)}
    (cap : Nat) (h : failures outcome 0 n = (i, e) :: l) :
    (completionOf outcome false cap n).errors = [(i, if 0 < cap then some e else none)] := by
  have hp : processedRows outcome false n = i + 1 := by
    simp only [processedRows, h, Bool.false_eq_true, ↓reduceIte]
  obtain ⟨-, -, hq, he⟩ := failures_head h
  have hf : failures outcome 0 (i + 1) = [(i, e)] := by
    rw [failures_add, Nat.sub_zero] at *
    rw [hq, Nat.zero_add, failures_succ, failures_zero]
    simp [failureAt, he]
  unfold completionOf
  dsimp only
  rw [hp, hf]
  rfl

end Failures

/-- What the batch has been told so far is what becomes of its first `n` rows. -/
structure RowsTold (outcome : Nat → RowOutcome) (n : Nat) (r : BatchResult) : Prop where
  rowCount : r.rowCount = n
  updateCounts : r.updateCounts = (List.range n).map fun i => (outcome i).updateCount
  rowsAffected : r.rowsAffected = (r.updateCounts.filter (0 < ·)).sum
  failedRows : r.errors.map (·.1) = (failures outcome 0 n).map (·.1)

namespace RowsTold

variable {outcome : Nat → RowOutcome} {n : Nat} {r r' : BatchResult}

theorem empty : RowsTold outcome 0 {} where
  rowCount := rfl
  updateCounts := rfl
  rowsAffected := rfl
  failedRows := rfl

theorem report_eq (h : RowsTold outcome n r) (h' : RowsTold outcome n r') : r.report = r'.report := by
  have hu : r.updateCounts = r'.updateCounts := h.updateCounts.trans h'.updateCounts.symm
  have ha : r.rowsAffected = r'.rowsAffected := by rw [h.rowsAffected, h'.rowsAffected, hu]
  unfold BatchResult.report
  rw [h.rowCount, h'.rowCount, hu, ha, h.failedRows, h'.failedRows]

theorem quiet (h : RowsTold outcome n r) (hq : failures outcome 0 n = []) : r.errors = [] := by
  have hf := h.failedRows
  rw [hq] at hf
  exact List.map_eq_nil_iff.mp hf

/-- A cycle that goes through all its rows; the server counts them from the cycle's first. -/
theorem add (h : RowsTold outcome n r) (multiError : Bool) (cap k : Nat)
    (hk : multiError = false → failures outcome n k = []) :
    RowsTold outcome (n + k)
      (r.add k (completionOf (fun i => outcome (n + i)) multiError cap k)) := by
  have hp : processedRows (fun i => outcome (n + i)) multiError k = k := by
    apply processedRows_of_quiet
    intro hm
    have hs := hk hm
    rw [← failures_shift] at hs
    exact List.map_eq_nil_iff.mp hs
  refine ⟨?_, ?_, ?_, ?_⟩
  · exact congrArg (· + k) h.rowCount
  · simp only [BatchResult.add, completionOf, hp]
    rw [h.updateCounts, List.range_add, List.map_append, List.map_map]
    rfl
  · simp only [BatchResult.add]
    rw [List.filter_append, List.sum_append, h.rowsAffected]
  · simp only [BatchResult.add, completionOf, hp, List.map_append, h.failedRows]
    rw [failures_add, List.map_append, Nat.zero_add]
    congr 1
    rw [← failures_shift n k, List.map_map, List.map_map, h.rowCount]
    have hd := detailErrors_indexes cap (failures (fun i => outcome (n + i)) 0 k)
    calc (detailErrors cap (failures (fun i => outcome (n + i)) 0 k)).map
          ((fun p => p.1) ∘ fun p => (n + p.1, p.2))
        = ((detailErrors cap (failures (fun i => outcome (n + i)) 0 k)).map (·.1)).map (n + ·) := by
          rw [List.map_map]
          rfl
      _ = _ := by
          rw [hd, List.map_map]
          rfl

end RowsTold

/-- Between two cycles: what is known of the rows sent, and without `continueOnError`
none of them has failed. -/
structure BetweenCycles (outcome : Nat → RowOutcome) (continueOnError : Bool) (st : BatchState)
    (cycles : List Cycle) : Prop where
  settled : RowsTold outcome (rowsIn cycles) st.combined
  quiet : continueOnError = false → failures outcome 0 (rowsIn cycles) = []

/-- The rows ahead of the first that does not bind or encode. -/
def sendableRows : List (Except FirebirdError EncodedRow) → List EncodedRow
  | [] => []
  | .ok row :: rows => row :: sendableRows rows
  | .error _ :: _ => []

/-- The error of the first row that does not bind or encode. -/
def rowError : List (Except FirebirdError EncodedRow) → Option FirebirdError
  | [] => none
  | .ok _ :: rows => rowError rows
  | .error e :: _ => some e

/-- How the loop ends with `n` rows still to send, behind those of the cycles so far. -/
inductive Ending (outcome : Nat → RowOutcome) (cap : Nat) (continueOnError : Bool) (first n : Nat)
    (bad : Option FirebirdError) : (Except BatchStop Unit × BatchState) × List Cycle → Prop where
  | failedRow {st : BatchState} {cycles : List Cycle} {i : Nat} {e : FirebirdError}
      {l : List (Nat × FirebirdError)} (hc : continueOnError = false)
      (hf : failures outcome first n = (i, e) :: l) :
      Ending outcome cap continueOnError first n bad
        ((.error (.failedRow i (if 0 < cap then some e else none)), st), cycles)
  | thrown {st : BatchState} {cycles : List Cycle} {e : FirebirdError} (hb : bad = some e) :
      Ending outcome cap continueOnError first n bad ((.error (.thrown e), st), cycles)
  | done {st : BatchState} {cycles : List Cycle} (hb : bad = none)
      (hs : BetweenCycles outcome continueOnError st cycles) (hn : rowsIn cycles = first + n) :
      Ending outcome cap continueOnError first n bad ((.ok (), st), cycles)

section Run

variable {outcome : Nat → RowOutcome} {cap : Nat} {continueOnError : Bool} {full : Nat → Bool}

/-- The completion of a cycle that follows these. -/
def completionAfter (outcome : Nat → RowOutcome) (cap : Nat) (continueOnError : Bool)
    (cycles : List Cycle) (n : Nat) : BatchCompletion :=
  completionOf (fun i => outcome (rowsIn cycles + i)) continueOnError cap n

/-- The state and the record behind a cycle. -/
def afterCycle (outcome : Nat → RowOutcome) (cap : Nat) (continueOnError : Bool) (st : BatchState)
    (cycles : List Cycle) : (Except BatchStop Unit × BatchState) × List Cycle :=
  (st.complete continueOnError (completionAfter outcome cap continueOnError cycles st.rowBufs.length),
    cycles ++ [⟨st.cycleBlobIds, st.rowBufs⟩])

theorem execCycleWith_run (st : BatchState) (cycles : List Cycle) :
    execCycleWith (serveCycle outcome continueOnError cap) continueOnError st cycles =
      afterCycle outcome cap continueOnError st cycles := rfl

theorem chunkedRows_nil (index : Nat) (st : BatchState) (cycles : List Cycle) :
    chunkedRows outcome cap continueOnError full [] index st cycles =
      if st.rowBufs.isEmpty then ((.ok (), st), cycles)
      else afterCycle outcome cap continueOnError st cycles := by
  unfold chunkedRows runRowsWith
  change (if st.rowBufs.isEmpty = true then _ else _ : StateM (List Cycle) _) cycles = _
  split <;> rfl

theorem chunkedRows_error (e : FirebirdError) (rows : List (Except FirebirdError EncodedRow))
    (index : Nat) (st : BatchState) (cycles : List Cycle) :
    chunkedRows outcome cap continueOnError full (.error e :: rows) index st cycles =
      ((.error (.thrown e), st), cycles) := rfl

theorem chunkedRows_ok (row : EncodedRow) (rows : List (Except FirebirdError EncodedRow))
    (index : Nat) (st : BatchState) (cycles : List Cycle) :
    chunkedRows outcome cap continueOnError full (.ok row :: rows) index st cycles =
      if full (st.addRow row.blobIds row.buf).rowBufs.length then
        match afterCycle outcome cap continueOnError (st.addRow row.blobIds row.buf) cycles with
        | ((.ok (), st), cycles) =>
          chunkedRows outcome cap continueOnError full rows (index + 1) st cycles
        | ((.error stop, st), cycles) => ((.error stop, st), cycles)
      else chunkedRows outcome cap continueOnError full rows (index + 1)
        (st.addRow row.blobIds row.buf) cycles := by
  unfold chunkedRows
  rw [runRowsWith]
  change (if full _ = true then _ else _ : StateM (List Cycle) _) cycles = _
  split
  · simp only [bind, StateT.bind, execCycleWith_run]
    rcases afterCycle outcome cap continueOnError (st.addRow row.blobIds row.buf) cycles with
      ⟨⟨_ | _, st⟩, cycles⟩ <;> rfl
  · rfl

theorem complete_ok {st : BatchState} {c : BatchCompletion}
    (h : continueOnError = false → (st.combined.add st.rowBufs.length c).errors = []) :
    st.complete continueOnError c =
      (.ok (), { combined := st.combined.add st.rowBufs.length c, created := true }) := by
  unfold BatchState.complete
  dsimp only
  split
  · rename_i he
    cases continueOnError with
    | true => rfl
    | false =>
      rw [h rfl] at he
      cases he
  · rfl

theorem complete_failed {st : BatchState} {c : BatchCompletion} {i : Nat} {e : Option FirebirdError}
    (h : (st.combined.add st.rowBufs.length c).errors = [(i, e)]) :
    st.complete false c = (.error (.failedRow i e),
      { combined := st.combined.add st.rowBufs.length c, created := true }) := by
  unfold BatchState.complete
  dsimp only
  rw [h]
  rfl

theorem rowsIn_append (cycles : List Cycle) (cycle : Cycle) :
    rowsIn (cycles ++ [cycle]) = rowsIn cycles + cycle.rows.length := by
  simp [rowsIn]

/-- A cycle in which no row fails, or in which a failed row may. -/
theorem afterCycle_done {st : BatchState} {cycles : List Cycle}
    (h : BetweenCycles outcome continueOnError st cycles)
    (hq : continueOnError = false → failures outcome (rowsIn cycles) st.rowBufs.length = []) :
    ∃ st', afterCycle outcome cap continueOnError st cycles =
        ((.ok (), st'), cycles ++ [⟨st.cycleBlobIds, st.rowBufs⟩]) ∧
      BetweenCycles outcome continueOnError st' (cycles ++ [⟨st.cycleBlobIds, st.rowBufs⟩]) ∧
      st'.rowBufs = [] ∧ st'.cycleBlobIds = [] := by
  have hs : RowsTold outcome (rowsIn cycles + st.rowBufs.length) (st.combined.add st.rowBufs.length
      (completionAfter outcome cap continueOnError cycles st.rowBufs.length)) :=
    h.settled.add continueOnError cap st.rowBufs.length hq
  have hall : continueOnError = false →
      failures outcome 0 (rowsIn cycles + st.rowBufs.length) = [] := by
    intro hc
    rw [failures_add, h.quiet hc, Nat.zero_add, hq hc]
    rfl
  refine ⟨{
      combined := st.combined.add st.rowBufs.length
        (completionAfter outcome cap continueOnError cycles st.rowBufs.length)
      created := true }, ?_, ⟨?_, ?_⟩, rfl, rfl⟩
  · unfold afterCycle
    rw [complete_ok fun hc => hs.quiet (hall hc)]
  · rw [rowsIn_append]
    exact hs
  · rw [rowsIn_append]
    exact hall

theorem afterCycle_failed {st : BatchState} {cycles : List Cycle}
    (h : BetweenCycles outcome false st cycles) {i : Nat} {e : FirebirdError}
    {l : List (Nat × FirebirdError)}
    (hf : failures outcome (rowsIn cycles) st.rowBufs.length = (i, e) :: l) :
    ∃ st', afterCycle outcome cap false st cycles =
      ((.error (.failedRow i (if 0 < cap then some e else none)), st'),
        cycles ++ [⟨st.cycleBlobIds, st.rowBufs⟩]) := by
  rw [← failures_shift] at hf
  cases hr : failures (fun i => outcome (rowsIn cycles + i)) 0 st.rowBufs.length with
  | nil =>
    rw [hr] at hf
    cases hf
  | cons p ps =>
    rw [hr] at hf
    obtain ⟨hp, -⟩ := List.cons.inj hf
    obtain ⟨rfl, rfl⟩ := Prod.mk.inj hp
    have herr : (st.combined.add st.rowBufs.length
        (completionAfter outcome cap false cycles st.rowBufs.length)).errors =
        [(rowsIn cycles + p.1, if 0 < cap then some p.2 else none)] := by
      simp only [BatchResult.add, completionAfter]
      rw [completionOf_failing cap hr, h.settled.quiet (h.quiet rfl), h.settled.rowCount]
      rfl
    refine ⟨{
      combined := st.combined.add st.rowBufs.length
        (completionAfter outcome cap false cycles st.rowBufs.length)
      created := true }, ?_⟩
    unfold afterCycle
    rw [complete_failed herr]

theorem addRow_length (st : BatchState) (row : EncodedRow) :
    (st.addRow row.blobIds row.buf).rowBufs.length = st.rowBufs.length + 1 := by
  simp [BatchState.addRow]

/-- Failures of a cycle are failures of the run. -/
theorem failures_weaken {first n k i : Nat} {e : FirebirdError} {l : List (Nat × FirebirdError)}
    (h : failures outcome first n = (i, e) :: l) :
    ∃ l', failures outcome first (n + k) = (i, e) :: l' := by
  rw [failures_add, h]
  exact ⟨_, rfl⟩

theorem Ending.shift {first n k : Nat} {bad : Option FirebirdError}
    {x : (Except BatchStop Unit × BatchState) × List Cycle}
    (h : Ending outcome cap continueOnError (first + n) k bad x)
    (hq : continueOnError = false → failures outcome first n = []) :
    Ending outcome cap continueOnError first (n + k) bad x := by
  cases h with
  | failedRow hc hf =>
    have hall := (failures_add first n k).trans (by rw [hq hc, hf, List.nil_append])
    exact .failedRow hc hall
  | thrown hb => exact .thrown hb
  | done hb hs hn => exact .done hb hs (hn.trans (Nat.add_assoc _ _ _))

theorem afterCycle_ending {st : BatchState} {cycles : List Cycle}
    (h : BetweenCycles outcome continueOnError st cycles) :
    Ending outcome cap continueOnError (rowsIn cycles) st.rowBufs.length none
      (afterCycle outcome cap continueOnError st cycles) := by
  by_cases hq : continueOnError = false → failures outcome (rowsIn cycles) st.rowBufs.length = []
  · obtain ⟨st', hx, hs, -, -⟩ := @afterCycle_done _ cap _ _ _ h hq
    rw [hx]
    exact .done rfl hs (rowsIn_append _ _)
  · obtain ⟨rfl, hf⟩ := Classical.not_imp.mp hq
    obtain ⟨⟨i, e⟩, l, hf⟩ := List.exists_cons_of_ne_nil hf
    obtain ⟨st', hx⟩ := @afterCycle_failed _ cap _ _ h _ _ _ hf
    rw [hx]
    exact .failedRow rfl hf

/-- Wherever the cycles end, the loop ends as the outcomes of all its rows say. -/
theorem chunkedRows_ending (rows : List (Except FirebirdError EncodedRow)) (index : Nat)
    {st : BatchState} {cycles : List Cycle} (h : BetweenCycles outcome continueOnError st cycles) :
    Ending outcome cap continueOnError (rowsIn cycles)
      (st.rowBufs.length + (sendableRows rows).length) (rowError rows)
      (chunkedRows outcome cap continueOnError full rows index st cycles) := by
  induction rows generalizing index st cycles with
  | nil =>
    rw [chunkedRows_nil]
    split
    · rename_i he
      rw [List.isEmpty_iff.mp he]
      exact .done rfl h rfl
    · exact afterCycle_ending h
  | cons row rows ih =>
    cases row with
    | error e => exact .thrown rfl
    | ok row =>
      have hst : BetweenCycles outcome continueOnError (st.addRow row.blobIds row.buf) cycles :=
        ⟨h.settled, h.quiet⟩
      have hlen : st.rowBufs.length + (sendableRows (.ok row :: rows)).length =
          (st.addRow row.blobIds row.buf).rowBufs.length + (sendableRows rows).length := by
        rw [addRow_length, sendableRows, List.length_cons]
        omega
      rw [chunkedRows_ok, hlen]
      split
      · by_cases hq : continueOnError = false →
            failures outcome (rowsIn cycles) (st.addRow row.blobIds row.buf).rowBufs.length = []
        · obtain ⟨st', hx, hs, hb, -⟩ := @afterCycle_done _ cap _ _ _ hst hq
          have hi := ih (index + 1) hs
          rw [rowsIn_append, hb, List.length_nil, Nat.zero_add] at hi
          rw [hx]
          exact hi.shift hq
        · obtain ⟨rfl, hf⟩ := Classical.not_imp.mp hq
          obtain ⟨⟨i, e⟩, l, hf⟩ := List.exists_cons_of_ne_nil hf
          obtain ⟨st', hx⟩ := @afterCycle_failed _ cap _ _ hst _ _ _ hf
          obtain ⟨l', hf'⟩ := @failures_weaken _ _ _ (sendableRows rows).length _ _ _ hf
          rw [hx]
          exact .failedRow rfl hf'
      · exact ih (index + 1) hst

/-- With no limit there is one cycle at most, behind the last row. -/
theorem chunkedRows_whole (rows : List (Except FirebirdError EncodedRow)) (index : Nat)
    (st : BatchState) (cycles : List Cycle) :
    (∀ e, rowError rows = some e →
      (chunkedRows outcome cap continueOnError (fun _ => false) rows index st cycles).1.1 =
        .error (.thrown e)) ∧
    (chunkedRows outcome cap continueOnError (fun _ => false) rows index st cycles).2.length ≤
      cycles.length + 1 := by
  induction rows generalizing index st with
  | nil =>
    rw [chunkedRows_nil]
    refine ⟨fun e he => absurd he (by simp [rowError]), ?_⟩
    split
    · exact Nat.le_succ _
    · simp [afterCycle]
  | cons row rows ih =>
    cases row with
    | error e =>
      rw [chunkedRows_error]
      refine ⟨?_, Nat.le_succ _⟩
      rintro e' he
      obtain rfl := Option.some.inj he
      rfl
    | ok row =>
      rw [chunkedRows_ok]
      exact ih (index + 1) _

end Run

/-- A cycle sends these rows, and registers the blobs they refer to, each once. -/
structure Cycle.Carries (cycle : Cycle) (part : List EncodedRow) : Prop where
  rows : cycle.rows = part.map (·.buf)
  once : cycle.blobIds.Nodup
  registered : ∀ id, id ∈ cycle.blobIds ↔ ∃ row ∈ part, id ∈ row.blobIds

theorem registerBlobs_nodup {seen : List Bytes} (h : seen.Nodup) (ids : List Bytes) :
    (registerBlobs seen ids).Nodup := by
  unfold registerBlobs
  induction ids generalizing seen with
  | nil => exact h
  | cons id ids ih =>
    rw [List.foldl_cons]
    apply ih
    split
    · exact h
    · rename_i hn
      have hid : id ∉ seen := by simpa using hn
      apply List.nodup_append.mpr
      exact ⟨h, List.pairwise_singleton _ id, fun a ha b hb hab => by
        obtain rfl := List.mem_singleton.mp hb
        exact hid (hab ▸ ha)⟩

theorem mem_registerBlobs {id : Bytes} (seen ids : List Bytes) :
    id ∈ registerBlobs seen ids ↔ id ∈ seen ∨ id ∈ ids := by
  unfold registerBlobs
  induction ids generalizing seen with
  | nil => simp
  | cons i ids ih =>
    rw [List.foldl_cons, ih]
    split
    · rename_i hi
      have hmem : i ∈ seen := by simpa using hi
      rw [List.mem_cons]
      constructor
      · rintro (h | h)
        · exact Or.inl h
        · exact Or.inr (Or.inr h)
      · rintro (h | rfl | h)
        · exact Or.inl h
        · exact Or.inl hmem
        · exact Or.inr h
    · rw [List.mem_append, List.mem_singleton, List.mem_cons, or_assoc]

theorem Cycle.Carries.empty : Cycle.Carries ⟨[], []⟩ [] where
  rows := rfl
  once := List.nodup_nil
  registered := by simp

theorem Cycle.Carries.addRow {st : BatchState} {rows : List EncodedRow}
    (h : Cycle.Carries ⟨st.cycleBlobIds, st.rowBufs⟩ rows) (row : EncodedRow) :
    Cycle.Carries ⟨(st.addRow row.blobIds row.buf).cycleBlobIds,
      (st.addRow row.blobIds row.buf).rowBufs⟩ (rows ++ [row]) where
  rows := by
    have hr : st.rowBufs = rows.map (·.buf) := h.rows
    simp only [BatchState.addRow, hr, List.map_append, List.map_cons, List.map_nil]
  once := registerBlobs_nodup h.once row.blobIds
  registered := by
    intro id
    have hi : id ∈ st.cycleBlobIds ↔ ∃ row ∈ rows, id ∈ row.blobIds := h.registered id
    rw [BatchState.addRow, mem_registerBlobs, hi]
    constructor
    · rintro (⟨r, hr, hid⟩ | hid)
      · exact ⟨r, List.mem_append_left _ hr, hid⟩
      · exact ⟨row, List.mem_append_right _ List.mem_cons_self, hid⟩
    · rintro ⟨r, hr, hid⟩
      rcases List.mem_append.mp hr with hr | hr
      · exact Or.inl ⟨r, hr, hid⟩
      · obtain rfl := List.mem_singleton.mp hr
        exact Or.inr hid

/-- The cycles of a run carry its rows in order: all of them when it succeeds, the
first of them when it does not. -/
def CarriesRows (rows : List EncodedRow) (succeeds : Bool) (cycles : List Cycle) : Prop :=
  ∃ parts rest, List.Forall₂ Cycle.Carries cycles parts ∧ rows = parts.flatten ++ rest ∧
    (succeeds = true → rest = [])

section Run

variable {outcome : Nat → RowOutcome} {cap : Nat} {continueOnError : Bool} {full : Nat → Bool}

theorem afterCycle_cycles (st : BatchState) (cycles : List Cycle) :
    (afterCycle outcome cap continueOnError st cycles).2 =
      cycles ++ [⟨st.cycleBlobIds, st.rowBufs⟩] := rfl

theorem afterCycle_state (st : BatchState) (cycles : List Cycle) :
    (afterCycle outcome cap continueOnError st cycles).1.2.rowBufs = [] ∧
      (afterCycle outcome cap continueOnError st cycles).1.2.cycleBlobIds = [] := by
  unfold afterCycle BatchState.complete
  dsimp only
  split <;> exact ⟨rfl, rfl⟩

theorem forall₂_snoc {cycles : List Cycle} {parts : List (List EncodedRow)} {cycle : Cycle}
    {part : List EncodedRow} (h : List.Forall₂ Cycle.Carries cycles parts)
    (hc : cycle.Carries part) :
    List.Forall₂ Cycle.Carries (cycles ++ [cycle]) (parts ++ [part]) :=
  List.rel_append h (.cons hc .nil)

theorem chunkedRows_carries (rows : List (Except FirebirdError EncodedRow)) (index : Nat)
    {st : BatchState} {cycles : List Cycle} {parts : List (List EncodedRow)}
    {pending : List EncodedRow} (hp : List.Forall₂ Cycle.Carries cycles parts)
    (hst : Cycle.Carries ⟨st.cycleBlobIds, st.rowBufs⟩ pending) :
    CarriesRows (parts.flatten ++ pending ++ sendableRows rows)
      (chunkedRows outcome cap continueOnError full rows index st cycles).1.1.isOk
      (chunkedRows outcome cap continueOnError full rows index st cycles).2 := by
  induction rows generalizing index st cycles parts pending with
  | nil =>
    rw [chunkedRows_nil, sendableRows, List.append_nil]
    split
    · rename_i he
      have hnil : st.rowBufs = pending.map (·.buf) := hst.rows
      rw [List.isEmpty_iff.mp he] at hnil
      refine ⟨parts, [], hp, ?_, fun _ => rfl⟩
      rw [List.map_eq_nil_iff.mp hnil.symm, List.append_nil]
    · refine ⟨parts ++ [pending], [], forall₂_snoc hp hst, ?_, fun _ => rfl⟩
      simp
  | cons row rows ih =>
    cases row with
    | error e =>
      refine ⟨parts, pending, hp, ?_, fun h => by cases h⟩
      simp [sendableRows]
    | ok row =>
      have hrow := hst.addRow row
      have hall : parts.flatten ++ pending ++ sendableRows (.ok row :: rows) =
          parts.flatten ++ (pending ++ [row]) ++ sendableRows rows := by
        simp [sendableRows]
      rw [chunkedRows_ok, hall]
      split
      · have hc := @afterCycle_cycles outcome cap continueOnError
          (st.addRow row.blobIds row.buf) cycles
        have hb := @afterCycle_state outcome cap continueOnError
          (st.addRow row.blobIds row.buf) cycles
        have hp' := forall₂_snoc hp hrow
        rcases hx : afterCycle outcome cap continueOnError (st.addRow row.blobIds row.buf) cycles with
          ⟨⟨stop | ⟨⟩, st'⟩, cycles'⟩ <;> rw [hx] at hc hb <;> dsimp only at hc hb ⊢
        · subst hc
          refine ⟨parts ++ [pending ++ [row]], sendableRows rows, hp', ?_, fun h => by cases h⟩
          simp
        · subst hc
          have hempty : Cycle.Carries ⟨st'.cycleBlobIds, st'.rowBufs⟩ [] := by
            rw [hb.1, hb.2]
            exact .empty
          have hi := ih (index + 1) hp' hempty
          rw [List.flatten_append, List.flatten_singleton, List.append_nil] at hi
          exact hi
      · exact ih (index + 1) hp hrow

theorem chunkedBatch_ending (rows : List (Except FirebirdError EncodedRow)) :
    Ending outcome cap continueOnError 0 (sendableRows rows).length (rowError rows)
      (chunkedRows outcome cap continueOnError full rows 0 {} []) := by
  have h := @chunkedRows_ending outcome cap continueOnError full rows 0 {} []
    ⟨.empty, fun _ => rfl⟩
  rwa [List.length_nil, Nat.zero_add] at h

end Run

/-- Row `i` is the first that fails on the server. -/
def FirstFailure (outcome : Nat → RowOutcome) (i : Nat) : Prop :=
  (outcome i).failure.isSome ∧ ∀ j < i, (outcome j).failure = none

/-- A run in cycles of any size, against the run that sends all rows in one. -/
structure ChunksInvisible (outcome : Nat → RowOutcome)
    (rows : List (Except FirebirdError EncodedRow)) (continueOnError : Bool)
    (run whole : BatchRun) : Prop where
  oneCycle : whole.cycles.length ≤ 1
  failsAlike : run.result.isOk = whole.result.isOk
  sameReport : (continueOnError = true ∨ rowError rows = none) →
    run.result.map BatchResult.report = whole.result.map BatchResult.report
  unsendable : ∀ e, rowError rows = some e → whole.result = .error (.thrown e) ∧
    (run.result = .error (.thrown e) ∨ ∃ i cause, run.result = .error (.failedRow i cause) ∧
      i < (sendableRows rows).length ∧ FirstFailure outcome i)
  carried : CarriesRows (sendableRows rows) run.result.isOk run.cycles

section Run

variable {outcome : Nat → RowOutcome} {cap : Nat} {continueOnError : Bool} {full : Nat → Bool}

theorem failures_eq_nil {n : Nat} (h : failures outcome 0 n = []) {j : Nat} (hj : j < n) :
    (outcome j).failure = none := by
  have hm : j ∈ List.range' 0 n := List.mem_range'_1.mpr ⟨Nat.zero_le j, by omega⟩
  have hf := List.filterMap_eq_nil_iff.mp h j hm
  simpa [failureAt] using hf

theorem firstFailure_of_head {n i : Nat} {e : FirebirdError} {l : List (Nat × FirebirdError)}
    (h : failures outcome 0 n = (i, e) :: l) : i < n ∧ FirstFailure outcome i := by
  obtain ⟨-, hlt, hq, he⟩ := failures_head h
  refine ⟨by omega, by rw [he]; rfl, fun j hj => failures_eq_nil hq (by omega)⟩

/-- The outcomes of the rows leave the loop one way to end, if none of them is in the way. -/
theorem Ending.report_eq {n : Nat} {x x' : Except BatchStop Unit × BatchState}
    {cycles cycles' : List Cycle} {bad : Option FirebirdError}
    (h : Ending outcome cap continueOnError 0 n bad (x, cycles))
    (h' : Ending outcome cap continueOnError 0 n bad (x', cycles'))
    (hb : continueOnError = true ∨ bad = none) :
    (x.1.map fun _ => x.2.combined).map BatchResult.report =
      (x'.1.map fun _ => x'.2.combined).map BatchResult.report := by
  cases h with
  | failedRow hc hf =>
    obtain rfl : bad = none := hb.resolve_left (by simp [hc])
    cases h' with
    | failedRow hc' hf' =>
      rw [hf] at hf'
      obtain ⟨hi, -⟩ := List.cons.inj hf'
      obtain ⟨rfl, rfl⟩ := Prod.mk.inj hi
      rfl
    | thrown hb' => exact absurd hb' (by simp)
    | done _ hs' hn' =>
      have hq := hs'.quiet hc
      rw [hn', Nat.zero_add, hf] at hq
      exact absurd hq (by simp)
  | thrown hbad =>
    have hc : continueOnError = true := hb.resolve_right (by simp [hbad])
    cases h' with
    | failedRow hc' _ => exact absurd hc (by simp [hc'])
    | thrown hb' =>
      rw [hbad] at hb'
      obtain rfl := Option.some.inj hb'
      rfl
    | done hb' => exact absurd hbad (by simp [hb'])
  | done hbad hs hn =>
    cases h' with
    | failedRow hc' hf' =>
      have hq := hs.quiet hc'
      rw [hn, Nat.zero_add, hf'] at hq
      exact absurd hq (by simp)
    | thrown hb' => exact absurd hbad (by simp [hb'])
    | done _ hs' hn' =>
      have hr := hs.settled
      have hr' := hs'.settled
      rw [hn] at hr
      rw [hn'] at hr'
      exact congrArg Except.ok (hr.report_eq hr')

theorem chunkedBatch_result (rows : List (Except FirebirdError EncodedRow)) :
    (chunkedBatch outcome cap continueOnError full rows).result =
      (chunkedRows outcome cap continueOnError full rows 0 {} []).1.1.map fun _ =>
        (chunkedRows outcome cap continueOnError full rows 0 {} []).1.2.combined := rfl

theorem isOk_map {ε α β : Type} (f : α → β) (r : Except ε α) : (r.map f).isOk = r.isOk := by
  cases r <;> rfl

theorem Ending.isOk_eq {n : Nat} {x x' : Except BatchStop Unit × BatchState}
    {cycles cycles' : List Cycle} {bad : Option FirebirdError}
    (h : Ending outcome cap continueOnError 0 n bad (x, cycles))
    (h' : Ending outcome cap continueOnError 0 n bad (x', cycles')) : x.1.isOk = x'.1.isOk := by
  by_cases hb : continueOnError = true ∨ bad = none
  · have hr := congrArg Except.isOk (h.report_eq h' hb)
    simpa only [isOk_map] using hr
  · obtain ⟨-, hbad⟩ := not_or.mp hb
    cases h with
    | done hn => exact absurd hn hbad
    | failedRow =>
      cases h' with
      | done hn => exact absurd hn hbad
      | failedRow => rfl
      | thrown => rfl
    | thrown =>
      cases h' with
      | done hn => exact absurd hn hbad
      | failedRow => rfl
      | thrown => rfl

theorem Ending.unsendable {n : Nat} {x : Except BatchStop Unit × BatchState}
    {cycles : List Cycle} {e : FirebirdError}
    (h : Ending outcome cap continueOnError 0 n (some e) (x, cycles)) :
    x.1 = .error (.thrown e) ∨ ∃ i cause, x.1 = .error (.failedRow i cause) ∧ i < n ∧
      FirstFailure outcome i := by
  cases h with
  | failedRow hc hf => exact Or.inr ⟨_, _, rfl, firstFailure_of_head hf⟩
  | thrown hb =>
    obtain rfl := Option.some.inj hb
    exact Or.inl rfl
  | done hn => exact absurd hn (by simp)

end Run

/-- Neither the cycles' sizes nor their number shows in what becomes of a batch. -/
theorem batchRun_chunksInvisible (outcome : Nat → RowOutcome) (cap stride : Nat)
    (chunkBytes : ChunkBytes) (continueOnError : Bool)
    (rows : List (Except FirebirdError EncodedRow)) :
    ChunksInvisible outcome rows continueOnError
      (batchRun outcome cap continueOnError stride chunkBytes rows)
      (batchRun outcome cap continueOnError stride .infinity rows) := by
  have hrun := @chunkedBatch_ending outcome cap continueOnError (chunkBytes.full stride) rows
  have hwhole := @chunkedBatch_ending outcome cap continueOnError (fun _ => false) rows
  have hone := @chunkedRows_whole outcome cap continueOnError rows 0 {} []
  refine ⟨?_, ?_, ?_, ?_, ?_⟩
  · have hcycles := hone.2
    exact hcycles
  · have hok := hrun.isOk_eq hwhole
    unfold batchRun
    rw [chunkedBatch_result, chunkedBatch_result, isOk_map, isOk_map]
    exact hok
  · intro hb
    exact hrun.report_eq hwhole hb
  · intro e he
    refine ⟨?_, ?_⟩
    · have hw := hone.1 e he
      unfold batchRun
      rw [chunkedBatch_result]
      exact congrArg (Except.map _) hw
    · rw [he] at hrun
      unfold batchRun
      rw [chunkedBatch_result]
      rcases hrun.unsendable with hx | ⟨i, cause, hx, hi, hfirst⟩
      · exact Or.inl (congrArg (Except.map _) hx)
      · exact Or.inr ⟨i, cause, congrArg (Except.map _) hx, hi, hfirst⟩
  · have hc := @chunkedRows_carries outcome cap continueOnError (chunkBytes.full stride) rows 0 {} []
      [] [] .nil .empty
    unfold batchRun
    rw [chunkedBatch_result, isOk_map]
    exact hc

def rowRefused : FirebirdError := { message := "violation of PRIMARY or UNIQUE KEY constraint" }

def rowUnbound : FirebirdError := { message := "batch row 1: missing parameter" }

/-- With a row that does not bind behind one that fails, cycles of one row end at the
failure, and a single cycle is never sent. -/
theorem unsendable_row_hides_failure :
    (batchRun (fun _ => .failed rowRefused) 64 false 8 (.finite 1)
        [.ok ⟨[], [1]⟩, .error rowUnbound]).result =
      .error (.failedRow 0 (some rowRefused)) ∧
    (batchRun (fun _ => .failed rowRefused) 64 false 8 .infinity
        [.ok ⟨[], [1]⟩, .error rowUnbound]).result =
      .error (.thrown rowUnbound) := by
  refine ⟨?_, rfl⟩
  unfold batchRun
  rw [chunkedBatch_result, chunkedRows_ok]
  rfl

end FastFirebird
