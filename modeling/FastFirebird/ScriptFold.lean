import FastFirebird.ExecutorRules
import Mathlib.Logic.Function.Basic

/-! In mode `perScript` the executor commits what a fold over the script commits. -/
namespace FastFirebird

/-- What the calls have done on the server: the statements whose effects are pending, by
transaction, and the committed ones. -/
structure Effects where
  pending : Nat → List Nat := fun _ => []
  committed : List Nat := []

def Effects.apply (s : Effects) : Call × Bool → Effects
  | (.run (some (.own id _)) i _, true) =>
    { s with pending := Function.update s.pending id (s.pending id ++ [i]) }
  | (.commit (.own id _) _, true) =>
    ⟨Function.update s.pending id [], s.committed ++ s.pending id⟩
  | (.rollback (.own id _) _, true) => { s with pending := Function.update s.pending id [] }
  | _ => s

/-- The newest call is the first of the list. -/
def effects (calls : List (Call × Bool)) : Effects := calls.foldr (fun c s => s.apply c) {}

/-- The state of the reference: the statements whose effects are pending and those committed,
whether a server statement was attempted since the last commit or rollback, the failed
statements, and whether the script has ended early. -/
structure Isql where
  pending : List Nat := []
  committed : List Nat := []
  attempted : Bool := false
  autoDdl : Bool := false
  errors : List Nat := []
  ended : Bool := false
  deriving Repr, DecidableEq

namespace Isql

def commit (f : Isql) : Isql :=
  { f with pending := [], committed := f.committed ++ f.pending, attempted := false }

def rollback (f : Isql) : Isql := { f with pending := [], attempted := false }

/-- Without `continueOnError` the first error discards what is pending and ends the script. -/
def error (o : ExecuteScriptOptions) (i : Nat) (f : Isql) : Isql :=
  if o.continueOnError = some true then { f with errors := f.errors ++ [i] }
  else { f with errors := f.errors ++ [i], pending := [], ended := true }

/-- A server statement, which succeeds or not. -/
def server (o : ExecuteScriptOptions) (i : Nat) (kind : StatementKind) (succeeds : Bool)
    (f : Isql) : Isql :=
  if succeeds then
    let f := { f with pending := f.pending ++ [i], attempted := true }
    if f.autoDdl && kind == .ddl then f.commit else f
  else ({ f with attempted := true }).error o i

def client (o : ExecuteScriptOptions) (i : Nat) (c : ClientCommand) (f : Isql) : Isql :=
  match c with
  | .unsupported _ => f.error o i
  | c =>
    if o.clientCommands = some .error then f.error o i
    else
      match c with
      | .commit _ => f.commit
      | .rollback _ => f.rollback
      | .reconnect => f.commit
      | .setTransaction _ _ => if f.attempted then f.error o i else f
      | .setAutoDdl on => { f with autoDdl := on }
      | .unsupported _ => f

def step (o : ExecuteScriptOptions) (succeeds : Nat → Bool) (i : Nat) (stmt : ParsedStatement)
    (f : Isql) : Isql :=
  match stmt.client with
  | some c => f.client o i c
  | none => f.server o i stmt.kind (succeeds i)

/-- The statements from the `i`-th on, up to the first error that ends the script. -/
def foldFrom (o : ExecuteScriptOptions) (succeeds : Nat → Bool) :
    Nat → List ParsedStatement → Isql → Isql
  | _, [], f => f.commit
  | i, stmt :: rest, f =>
    let f := f.step o succeeds i stmt
    if f.ended then f else foldFrom o succeeds (i + 1) rest f

end Isql

/-- The reference over a whole script. -/
def isql (o : ExecuteScriptOptions) (succeeds : Nat → Bool) (parsed : List ParsedStatement) : Isql :=
  Isql.foldFrom o succeeds 0 parsed {}

/-- The place of a statement that failed. -/
def StatementResult.failedIndex (r : StatementResult) : Option Nat := r.error.map fun _ => r.index

/-- The executor's own calls go well, and `onProgress` does not throw. -/
structure World.Obliging (w : World) : Prop where
  answer : ∀ i a, w.answer i a = .ok ()
  progress : ∀ n, w.progress n = .ok ()

namespace Executor

open Async

variable {w : World} {o : ExecuteScriptOptions} {e : Executor}

/-- The executor holds its last transaction, and has finished the others. -/
structure Holds (e : Executor) (id : Nat) : Prop where
  tx : e.tx = .own id e.generation
  opened : e.opened = id + 1
  finished : ∀ j, j ∈ e.finished ↔ j < id

/-- The executor and the reference agree on what is committed and what has failed. -/
structure Agrees (e : Executor) (f : Isql) : Prop where
  committed : (effects e.calls).committed = f.committed
  errors : e.results.filterMap StatementResult.failedIndex = f.errors

/-- While the script runs. -/
structure InStep (e : Executor) (f : Isql) (id : Nat) : Prop extends Holds e id, Agrees e f where
  pending : (effects e.calls).pending id = f.pending
  unopened : ∀ j, id < j → (effects e.calls).pending j = []
  autoDdl : e.autoDdl = f.autoDdl
  clean : f.attempted = false → f.pending = []
  running : f.ended = false

/-- On the way out, after the first error. -/
structure Thrown (e : Executor) (f : Isql) (id : Nat) : Prop extends Holds e id, Agrees e f where
  ended : f.ended = true

/-- Between two statements the flag is the reference's as well. -/
def Between (e : Executor) (f : Isql) : Prop := (∃ id, InStep e f id) ∧ e.dirty = f.attempted

/-- What a statement leaves, whether it returns or throws. -/
def After (f : Isql) : Post Executor ScriptFailure Unit where
  ok _ e := Between e f
  error _ e := ∃ id, Thrown e f id
  pending _ := False

/-- What a command leaves that does not throw. -/
def Accepted (f : Isql) : Post Executor ScriptFailure Unit where
  ok _ e := Between e f
  error _ _ := False
  pending _ := False

theorem Holds.assertActive {id : Nat} (h : Holds e id) : e.tx.assertActive e = .ok () := by
  have hid : id ∉ e.finished := by simp [h.finished]
  rw [h.tx, ScriptTx.assertActive, if_neg (by simp), if_neg (by simpa using hid)]

theorem Holds.not_finished {id : Nat} (h : Holds e id) : e.tx.isFinished e = false := by
  have hid : id ∉ e.finished := by simp [h.finished]
  rw [h.tx]
  simpa [ScriptTx.isFinished] using hid

variable (hw : w.Obliging)
include hw

/-! ### What each of them does to the agreement with the reference -/

theorem emitOk_inStep {stmt : ParsedStatement} {f : Isql} {i n m id : Nat} (h : InStep e f id) :
    wp (emitOk w stmt i n m) ⟨fun _ e' => InStep e' f id ∧ e'.dirty = e.dirty, fun _ _ => False,
      fun _ => False⟩ e := by
  unfold emitOk
  simp only [wp_bind, wp_modify, wp_report (hw.progress _)]
  refine ⟨{ h with errors := ?_ }, trivial⟩
  rw [List.filterMap_append, h.errors]
  exact List.append_nil _

theorem emitError_inStep {stmt : ParsedStatement} {f : Isql} {i id : Nat} {err : ScriptFailure}
    (h : InStep e f id) : wp (emitError w o stmt i err)
      ⟨fun _ e' => InStep e' (f.error o i) id ∧ e'.dirty = e.dirty,
        fun _ e' => Thrown e' (f.error o i) id, fun _ => False⟩ e := by
  unfold emitError
  simp only [wp_bind, wp_modify, wp_report (hw.progress _)]
  have herrors : ∀ r : StatementResult, r.failedIndex = some i →
      (e.results ++ [r]).filterMap StatementResult.failedIndex = f.errors ++ [i] := by
    intro r hr
    rw [List.filterMap_append, h.errors, List.filterMap_cons, hr]
    rfl
  rw [Isql.error]
  by_cases hc : o.continueOnError = some true
  · rw [if_neg (by simpa using hc), if_pos hc]
    exact ⟨{ h with errors := herrors _ rfl }, rfl⟩
  · rw [if_pos hc, if_neg hc]
    exact { h with errors := herrors _ rfl, ended := rfl }

theorem emitOk_after {stmt : ParsedStatement} {f : Isql} {i n m : Nat} (h : Between e f) :
    wp (emitOk w stmt i n m) (Accepted f) e := by
  obtain ⟨⟨id, h⟩, hdirty⟩ := h
  refine wp_mono (emitOk_inStep hw h) ?_ (fun _ _ h => h) fun _ h => h
  rintro - e' ⟨h', hd⟩
  exact ⟨⟨id, h'⟩, hd.trans hdirty⟩

omit hw in
theorem error_attempted (f : Isql) (i : Nat) : (f.error o i).attempted = f.attempted := by
  rw [Isql.error]
  split <;> rfl

theorem emitError_after {stmt : ParsedStatement} {f : Isql} {i : Nat} {err : ScriptFailure}
    (h : Between e f) : wp (emitError w o stmt i err) (After (f.error o i)) e := by
  obtain ⟨⟨id, h⟩, hdirty⟩ := h
  refine wp_mono (emitError_inStep hw h) ?_ ?_ fun _ h => h
  · rintro - e' ⟨h', hd⟩
    exact ⟨⟨id, h'⟩, by rw [hd, hdirty, error_attempted]⟩
  · intro _ e' h'
    exact ⟨id, h'⟩

/-! ### The transactions -/

omit hw

theorem Holds.finishing {id : Nat} (h : Holds e id) (c : Call) (j : Nat) :
    j ∈ (finishedBy e c id).finished ↔ j < id + 1 := by
  show j ∈ id :: e.finished ↔ j < id + 1
  rw [List.mem_cons, h.finished]
  omega

/-- A new transaction in the place of the last one, of which nothing is pending. -/
theorem InStep.renewed {e' : Executor} {f f' : Isql} {id : Nat} (h : InStep e f id)
    (hopened : e'.opened = e.opened) (hfinished : ∀ j, j ∈ e'.finished ↔ j < id + 1)
    (hcommitted : (effects e'.calls).committed = f'.committed)
    (hpending : ∀ j, id < j → (effects e'.calls).pending j = (effects e.calls).pending j)
    (hresults : e'.results = e.results) (hauto : e'.autoDdl = e.autoDdl)
    (hf : f' = { f with pending := [], committed := f'.committed, attempted := false }) :
    InStep (reopened e') f' (id + 1) where
  tx := by
    show ScriptTx.own e'.opened e'.generation = _
    rw [hopened, h.opened]
    rfl
  opened := by
    show e'.opened + 1 = _
    rw [hopened, h.opened]
  finished := hfinished
  committed := hcommitted
  errors := by
    show e'.results.filterMap _ = _
    rw [hresults, h.errors, hf]
  pending := by
    show (effects e'.calls).pending (id + 1) = _
    rw [hpending _ (by omega), h.unopened _ (by omega), hf]
  unopened j hj := by
    show (effects e'.calls).pending j = _
    rw [hpending _ (by omega), h.unopened _ (by omega)]
  autoDdl := by
    show e'.autoDdl = _
    rw [hauto, h.autoDdl, hf]
  clean _ := by rw [hf]
  running := by rw [hf, ← h.running]

theorem InStep.effects_commit {f : Isql} {id g : Nat} {retain : Bool} (h : InStep e f id) :
    (effects ((.commit (.own id g) retain, true) :: e.calls)).committed = f.commit.committed ∧
      (effects ((.commit (.own id g) retain, true) :: e.calls)).pending id = [] ∧
      ∀ j, id < j → (effects ((.commit (.own id g) retain, true) :: e.calls)).pending j
        = (effects e.calls).pending j := by
  refine ⟨?_, ?_, ?_⟩
  · show (effects e.calls).committed ++ (effects e.calls).pending id = _
    rw [h.committed, h.pending]
    rfl
  · exact Function.update_self ..
  · intro j hj
    exact Function.update_of_ne (by omega) ..

theorem InStep.effects_rollback {f : Isql} {id g : Nat} {retain : Bool} (h : InStep e f id) :
    (effects ((.rollback (.own id g) retain, true) :: e.calls)).committed = f.rollback.committed ∧
      (effects ((.rollback (.own id g) retain, true) :: e.calls)).pending id = [] ∧
      ∀ j, id < j → (effects ((.rollback (.own id g) retain, true) :: e.calls)).pending j
        = (effects e.calls).pending j := by
  refine ⟨h.committed, ?_, ?_⟩
  · exact Function.update_self ..
  · intro j hj
    exact Function.update_of_ne (by omega) ..

/-- `commitRetaining` and `rollbackRetaining`: the transaction stays, with nothing pending. -/
theorem InStep.retained {c : Call} {f f' : Isql} {id : Nat} (h : InStep e f id)
    (hcommitted : (effects ((c, true) :: e.calls)).committed = f'.committed)
    (hpending : (effects ((c, true) :: e.calls)).pending id = [])
    (hunopened : ∀ j, id < j →
      (effects ((c, true) :: e.calls)).pending j = (effects e.calls).pending j)
    (hf : f' = { f with pending := [], committed := f'.committed, attempted := false }) :
    InStep { e with calls := (c, true) :: e.calls, dirty := false } f' id where
  tx := h.tx
  opened := h.opened
  finished := h.finished
  committed := hcommitted
  errors := by
    rw [hf]
    exact h.errors
  pending := by
    rw [hf]
    exact hpending
  unopened j hj := by
    show (effects ((c, true) :: e.calls)).pending j = _
    rw [hunopened j hj, h.unopened j hj]
  autoDdl := by
    rw [hf]
    exact h.autoDdl
  clean _ := by rw [hf]
  running := by rw [hf, ← h.running]

theorem commit_clean {f : Isql} (ha : f.attempted = false) (hp : f.pending = []) :
    f.commit = f := by
  rcases f with ⟨pending, committed, attempted, autoDdl, errors, ended⟩
  simp only at ha hp
  rw [Isql.commit, ha, hp, List.append_nil]

include hw

/-- A commit and a new transaction. -/
theorem commit_reopen_after {f : Isql} {i id : Nat} {Q : Post Executor ScriptFailure Unit}
    (h : InStep e f id)
    (hQ : ∀ e', InStep e' f.commit (id + 1) ∧ e'.dirty = false → Q.ok () e') :
    wp (do commit w i e.tx false; reopen w i) Q e := by
  rw [wp_bind, h.tx, wp_commit (hw.answer _ _) (h.tx ▸ h.assertActive)]
  show wp (reopen w i) Q _
  rw [wp_reopen (hw.answer _ _)]
  apply hQ
  obtain ⟨hcommitted, -, hpending⟩ := @InStep.effects_commit _ _ _ e.generation false h
  exact ⟨h.renewed rfl (h.finishing _) hcommitted hpending rfl rfl rfl, rfl⟩

theorem commit_after {f : Isql} {i : Nat} (h : Between e f) (retain : Bool) :
    wp (perScriptCommand w i (.commit retain)) (Accepted f.commit) e := by
  obtain ⟨⟨id, h⟩, -⟩ := h
  have hactive := h.tx ▸ h.assertActive
  obtain ⟨hc, hcp, hcu⟩ := @InStep.effects_commit _ _ _ e.generation retain h
  cases retain with
  | true =>
    show wp (do commit w i e.tx true; modify fun e => { e with dirty := false } : Script PUnit) _ e
    rw [wp_bind, h.tx, wp_commit (hw.answer _ _) hactive]
    exact ⟨⟨id, h.retained hc hcp hcu rfl⟩, rfl⟩
  | false =>
    show wp (do
      commit w i e.tx false
      reopen w i
      modify fun e => { e with dirty := false } : Script PUnit) _ e
    rw [wp_bind, h.tx, wp_commit (hw.answer _ _) hactive]
    show wp (do reopen w i; modify fun e => { e with dirty := false } : Script PUnit) _ _
    rw [wp_bind, wp_reopen (hw.answer _ _)]
    have hnew := @InStep.renewed _ (finishedBy e (.commit (.own id e.generation) false) id) _ _ _ h rfl
      (h.finishing _) hc hcu rfl rfl rfl
    exact ⟨⟨id + 1, hnew⟩, rfl⟩

theorem rollback_after {f : Isql} {i : Nat} (h : Between e f) (retain : Bool) :
    wp (perScriptCommand w i (.rollback retain)) (Accepted f.rollback) e := by
  obtain ⟨⟨id, h⟩, -⟩ := h
  have hactive := h.tx ▸ h.assertActive
  obtain ⟨hc, hcp, hcu⟩ := @InStep.effects_rollback _ _ _ e.generation retain h
  cases retain with
  | true =>
    show wp (do
      rollback w i .rollback e.tx true
      modify fun e => { e with dirty := false } : Script PUnit) _ e
    rw [wp_bind, h.tx, wp_rollback (hw.answer _ _) hactive]
    exact ⟨⟨id, h.retained hc hcp hcu rfl⟩, rfl⟩
  | false =>
    show wp (do
      rollback w i .rollback e.tx false
      reopen w i
      modify fun e => { e with dirty := false } : Script PUnit) _ e
    rw [wp_bind, h.tx, wp_rollback (hw.answer _ _) hactive]
    show wp (do reopen w i; modify fun e => { e with dirty := false } : Script PUnit) _ _
    rw [wp_bind, wp_reopen (hw.answer _ _)]
    have hnew := @InStep.renewed _ (finishedBy e (.rollback (.own id e.generation) false) id) _ _ _ h rfl
      (h.finishing _) hc hcu rfl rfl rfl
    exact ⟨⟨id + 1, hnew⟩, rfl⟩

theorem setTransaction_after {f : Isql} {i : Nat} (h : Between e f)
    (options : TransactionOptions) (raw : Text) (ha : f.attempted = false) :
    wp (perScriptCommand w i (.setTransaction options raw)) (Accepted f) e := by
  obtain ⟨⟨id, h⟩, hdirty⟩ := h
  unfold perScriptCommand
  rw [wp_bind, wp_get]
  show wp (if e.dirty = true then _ else _) _ e
  rw [if_neg (by simp [hdirty, ha]), wp_bind, wp_modify]
  show wp (do
    commit w i e.tx false
    reopen w i) _ { e with txOptions := some options }
  have h' : InStep { e with txOptions := some options } f id := { h with }
  apply commit_reopen_after hw h'
  intro e' he'
  rw [commit_clean ha (h.clean ha)] at he'
  exact ⟨⟨id + 1, he'.1⟩, by rw [he'.2, ha]⟩

omit hw in
theorem setTransaction_refused {f : Isql} {i : Nat} (h : Between e f)
    (options : TransactionOptions) (raw : Text) (ha : f.attempted = true) :
    wp (perScriptCommand w i (.setTransaction options raw))
      ⟨fun _ _ => False, fun _ e' => e' = e, fun _ => False⟩ e := by
  unfold perScriptCommand
  rw [wp_bind, wp_get]
  show wp (if e.dirty = true then _ else _) _ e
  rw [if_pos (by rw [h.2, ha])]
  rfl

theorem reconnect_after {f : Isql} {i : Nat} (h : Between e f) :
    wp (perScriptCommand w i .reconnect) (Accepted f.commit) e := by
  obtain ⟨⟨id, h⟩, -⟩ := h
  have hactive := h.tx ▸ h.assertActive
  obtain ⟨hc, hcp, hcu⟩ := @InStep.effects_commit _ _ _ e.generation false h
  unfold perScriptCommand
  rw [wp_bind, wp_get]
  show wp (if (!e.tx.isFinished e) = true then _ else _) _ e
  rw [if_pos (by simp [h.not_finished]), wp_bind, h.tx, wp_commit (hw.answer _ _) hactive]
  show wp (do reconnect w i; reopen w i) _ _
  rw [wp_bind, wp_reconnect (hw.answer _ _)]
  show wp (reopen w i) _ _
  rw [wp_reopen (hw.answer _ _)]
  refine ⟨⟨id + 1, h.renewed rfl ?_ hc hcu rfl rfl rfl⟩, rfl⟩
  exact h.finishing (.commit (.own id e.generation) false)

theorem accepted_after {f : Isql} {i : Nat} {stmt : ParsedStatement} {c : ClientCommand}
    (h : wp (perScriptCommand w i c) (Accepted f) e) :
    wp (tryCatch (do perScriptCommand w i c; emitOk w stmt i 0 0) (emitError w o stmt i))
      (After f) e := by
  rw [wp_tryCatch, wp_bind]
  refine wp_mono h ?_ (fun _ _ h => h.elim) fun _ h => h.elim
  intro _ e' h'
  exact wp_mono (emitOk_after hw h') (fun _ _ h => h) (fun _ _ h => h.elim) fun _ h => h

theorem refused_after {f : Isql} {i : Nat} {stmt : ParsedStatement} {c : ClientCommand}
    (hin : Between e f)
    (h : wp (perScriptCommand w i c) ⟨fun _ _ => False, fun _ e' => e' = e, fun _ => False⟩ e) :
    wp (tryCatch (do perScriptCommand w i c; emitOk w stmt i 0 0) (emitError w o stmt i))
      (After (f.error o i)) e := by
  rw [wp_tryCatch, wp_bind]
  refine wp_mono h (fun _ _ h => h.elim) ?_ fun _ h => h
  rintro err e' rfl
  exact emitError_after hw hin

omit hw in
theorem client_rejected {f : Isql} {i : Nat} {c : ClientCommand} (hc : Rejected o c) :
    f.client o i c = f.error o i := by
  cases c with
  | unsupported reason => rfl
  | commit retain => exact if_pos (hc.resolve_left (by simp))
  | rollback retain => exact if_pos (hc.resolve_left (by simp))
  | reconnect => exact if_pos (hc.resolve_left (by simp))
  | setAutoDdl on => exact if_pos (hc.resolve_left (by simp))
  | setTransaction options raw => exact if_pos (hc.resolve_left (by simp))

theorem command_after {f : Isql} {i : Nat} {stmt : ParsedStatement} {c : ClientCommand}
    (h : Between e f) (hc : ¬ Rejected o c) :
    wp (tryCatch (do perScriptCommand w i c; emitOk w stmt i 0 0) (emitError w o stmt i))
      (After (f.client o i c)) e := by
  have hoptions : ¬ o.clientCommands = some .error := fun h => hc (.inr h)
  cases c with
  | unsupported reason => exact absurd (.inl ⟨reason, rfl⟩) hc
  | commit retain =>
    rw [Isql.client, if_neg hoptions]
    exact accepted_after hw (commit_after hw h retain)
  | rollback retain =>
    rw [Isql.client, if_neg hoptions]
    exact accepted_after hw (rollback_after hw h retain)
  | reconnect =>
    rw [Isql.client, if_neg hoptions]
    exact accepted_after hw (reconnect_after hw h)
  | setAutoDdl on =>
    rw [Isql.client, if_neg hoptions]
    apply accepted_after hw
    obtain ⟨⟨id, h⟩, hdirty⟩ := h
    exact ⟨⟨id, { h with autoDdl := rfl }⟩, hdirty⟩
  | setTransaction options raw =>
    rw [Isql.client, if_neg hoptions]
    cases ha : f.attempted with
    | true => exact refused_after hw h (setTransaction_refused h options raw ha)
    | false => exact accepted_after hw (setTransaction_after hw h options raw ha)

theorem client_after {f : Isql} {i : Nat} {stmt : ParsedStatement} {c : ClientCommand}
    (h : Between e f) (hc : stmt.client = some c) :
    wp (perScriptStatement w o stmt i) (After (f.client o i c)) e := by
  unfold perScriptStatement
  rw [hc]
  dsimp only
  by_cases hreject : Rejected o c
  · obtain ⟨why, hwhy⟩ := @rejectCommon_rejects w _ stmt i _ hreject
    rw [client_rejected hreject, hwhy, wp_bind, wp_bind]
    exact wp_mono (emitError_after hw h) (fun _ _ h => h) (fun _ _ h => h) fun _ h => h
  · rw [rejectCommon_passes hreject]
    exact command_after hw h hreject

omit hw in
/-- The statement's effect is pending on the transaction held. -/
theorem InStep.ran {f : Isql} {i id : Nat} {sql : Text} (h : InStep e f id) :
    InStep { e with calls := (.run (some e.tx) i sql, true) :: e.calls }
      { f with pending := f.pending ++ [i], attempted := true } id := by
  have hcalls : effects ((.run (some e.tx) i sql, true) :: e.calls) =
      ⟨Function.update (effects e.calls).pending id ((effects e.calls).pending id ++ [i]),
        (effects e.calls).committed⟩ := by
    rw [h.tx]
    rfl
  refine { h with committed := ?_, pending := ?_, unopened := ?_, clean := fun ha => by cases ha }
  · show (effects (_ :: e.calls)).committed = _
    rw [hcalls]
    exact h.committed
  · show (effects (_ :: e.calls)).pending id = _
    rw [hcalls]
    show Function.update (effects e.calls).pending id _ id = _
    rw [Function.update_self, h.pending]
  · intro j hj
    show (effects (_ :: e.calls)).pending j = _
    rw [hcalls]
    show Function.update (effects e.calls).pending id _ j = _
    rw [Function.update_of_ne (by omega), h.unopened j hj]

omit hw in
/-- A refused statement has no effect, but has been attempted. -/
theorem InStep.failed {f : Isql} {i id : Nat} {sql : Text} (h : InStep e f id) :
    InStep { e with calls := (.run (some e.tx) i sql, false) :: e.calls }
      { f with attempted := true } id := by
  have hcalls : effects ((.run (some e.tx) i sql, false) :: e.calls) = effects e.calls := by
    rw [h.tx]
    rfl
  refine { h with committed := ?_, pending := ?_, unopened := ?_, clean := fun ha => by cases ha }
  · show (effects (_ :: e.calls)).committed = _
    rw [hcalls, h.committed]
  · show (effects (_ :: e.calls)).pending id = _
    rw [hcalls, h.pending]
  · intro j hj
    show (effects (_ :: e.calls)).pending j = _
    rw [hcalls, h.unopened j hj]

theorem runOne_succeeds {f : Isql} {i id : Nat} {stmt : ParsedStatement} {qr : Nat × Nat}
    (h : InStep e f id) (hs : w.statement i = .ok qr) : wp (runOne w o stmt i (some e.tx))
      ⟨fun b e' => b = true ∧ InStep e' { f with pending := f.pending ++ [i], attempted := true } id,
        fun _ _ => False, fun _ => False⟩ e := by
  have hanswer : (do e.tx.assertActive e; w.statement i : Except ScriptFailure (Nat × Nat))
      = .ok qr := by
    rw [h.assertActive, hs]
    rfl
  unfold runOne runSql
  rw [wp_tryCatch, wp_bind, wp_invoke hanswer]
  show wp (emitOk w stmt i qr.1 qr.2 >>= fun _ => pure true) _ _
  rw [wp_bind]
  refine wp_mono (emitOk_inStep hw (InStep.ran h)) ?_ (fun _ _ h => h.elim) fun _ h => h
  exact fun _ _ h' => ⟨rfl, h'.1⟩

theorem runOne_fails {f : Isql} {i id : Nat} {stmt : ParsedStatement} {err : ScriptFailure}
    (h : InStep e f id) (hs : w.statement i = .error err) :
    wp (runOne w o stmt i (some e.tx))
      ⟨fun b e' => b = false ∧ InStep e' (({ f with attempted := true } : Isql).error o i) id,
        fun _ e' => Thrown e' (({ f with attempted := true } : Isql).error o i) id,
        fun _ => False⟩ e := by
  have hanswer : (do e.tx.assertActive e; w.statement i : Except ScriptFailure (Nat × Nat))
      = .error err := by
    rw [h.assertActive, hs]
    rfl
  unfold runOne runSql
  rw [wp_tryCatch, wp_bind, wp_invoke_error hanswer]
  show wp (emitError w o stmt i err >>= fun _ => pure false) _ _
  rw [wp_bind]
  refine wp_mono (emitError_inStep hw (InStep.failed h)) ?_ (fun _ _ h => h) fun _ h => h
  exact fun _ _ h' => ⟨rfl, h'.1⟩

theorem server_after {f : Isql} {i : Nat} {stmt : ParsedStatement}
    (h : Between e f) (hc : stmt.client = none) :
    wp (perScriptStatement w o stmt i) (After (f.server o i stmt.kind (w.statement i).isOk)) e := by
  obtain ⟨⟨id, h⟩, -⟩ := h
  unfold perScriptStatement
  rw [hc]
  dsimp only
  rw [wp_bind, wp_get]
  show wp (runOne w o stmt i (some e.tx) >>= _) _ e
  rw [wp_bind]
  cases hs : w.statement i with
  | ok qr =>
    refine wp_mono (runOne_succeeds hw h hs) ?_ (fun _ _ h => h.elim) fun _ h => h
    rintro b e' ⟨rfl, h'⟩
    have hran : InStep { e' with dirty := true }
      { f with pending := f.pending ++ [i], attempted := true } id := { h' with }
    show wp (if (true && e'.autoDdl && stmt.kind == .ddl) = true then _ else _)
      (After (if (f.autoDdl && stmt.kind == .ddl) = true then _ else _)) { e' with dirty := true }
    have hauto : (true && e'.autoDdl && stmt.kind == .ddl) = (f.autoDdl && stmt.kind == .ddl) := by
      rw [Bool.true_and, h'.autoDdl]
    by_cases hddl : (f.autoDdl && stmt.kind == .ddl) = true
    · rw [if_pos hddl, if_pos (hauto.trans hddl)]
      apply commit_reopen_after hw hran
      intro e'' h''
      exact ⟨⟨id + 1, h''.1⟩, h''.2⟩
    · rw [if_neg hddl, if_neg (fun h => hddl (hauto.symm.trans h))]
      exact ⟨⟨id, hran⟩, rfl⟩
  | error err =>
    refine wp_mono (runOne_fails hw h hs) ?_ (fun _ _ h => ⟨id, h⟩) fun _ h => h
    rintro b e' ⟨rfl, h'⟩
    have hdirty : InStep { e' with dirty := true }
      (({ f with attempted := true } : Isql).error o i) id := { h' with }
    have hattempted : (({ f with attempted := true } : Isql).error o i).attempted = true :=
      error_attempted _ i
    exact ⟨⟨id, hdirty⟩, hattempted.symm⟩

theorem statement_after {f : Isql} {i : Nat} {stmt : ParsedStatement} (h : Between e f) :
    wp (perScriptStatement w o stmt i)
      (After (f.step o (fun i => (w.statement i).isOk) i stmt)) e := by
  rw [Isql.step]
  cases hc : stmt.client with
  | some c => exact client_after hw h hc
  | none => exact server_after hw h hc

/-- When the executor settles: what is committed and what has failed is the reference's, and every
transaction it opened is finished. -/
structure Settles (e : Executor) (f : Isql) : Prop extends Agrees e f where
  finished : ∀ id < e.opened, id ∈ e.finished

/-- The statements and the last commit. -/
theorem forEach_after {n : Nat} : ∀ {parsed : List ParsedStatement} {i : Nat} {f : Isql}
    {e : Executor}, Between e f →
      wp (do
        forEach (perScriptStatement w o) i parsed
        let e ← get
        if !e.tx.isFinished e then commit w n e.tx false)
      ⟨fun _ e' => Settles e' (Isql.foldFrom o (fun i => (w.statement i).isOk) i parsed f) ∧
          (Isql.foldFrom o (fun i => (w.statement i).isOk) i parsed f).ended = false,
        fun _ e' => ∃ id,
          Thrown e' (Isql.foldFrom o (fun i => (w.statement i).isOk) i parsed f) id,
        fun _ => False⟩ e := by
  intro parsed
  induction parsed with
  | nil =>
    intro i f e h
    obtain ⟨⟨id, h⟩, -⟩ := h
    have hactive := h.tx ▸ h.assertActive
    have hcommitted := (@InStep.effects_commit _ _ _ e.generation false h).1
    show wp (if (!e.tx.isFinished e) = true then _ else _) _ e
    rw [if_pos (by simp [h.not_finished]), h.tx, wp_commit (hw.answer _ _) hactive]
    refine ⟨⟨⟨hcommitted, h.errors⟩, ?_⟩, h.running⟩
    intro j hj
    apply (h.finishing _ j).mpr
    rw [← h.opened]
    exact hj
  | cons stmt rest ih =>
    intro i f e h
    unfold forEach
    rw [Isql.foldFrom]
    rw [wp_bind, wp_bind]
    refine wp_mono (statement_after hw h) ?_ ?_ fun _ h => h
    · intro _ e' h'
      obtain ⟨id, h''⟩ := h'.1
      have hnext := ih (i := i + 1) h'
      rw [if_neg (by simp [h''.running])]
      rw [wp_bind] at hnext
      exact hnext
    · rintro err e' ⟨id, h'⟩
      rw [if_pos h'.ended]
      exact ⟨id, h'⟩

theorem perScript_after (parsed : List ParsedStatement) :
    wp (perScript w o parsed)
      ⟨fun _ e' => Settles e' (isql o (fun i => (w.statement i).isOk) parsed) ∧
          (isql o (fun i => (w.statement i).isOk) parsed).ended = false,
        fun _ e' => Settles e' (isql o (fun i => (w.statement i).isOk) parsed) ∧
          (isql o (fun i => (w.statement i).isOk) parsed).ended = true,
        fun _ => False⟩ {} := by
  unfold perScript
  rw [wp_bind, wp_modify]
  show wp (_ >>= _) _ _
  rw [wp_bind, wp_startTransaction (hw.answer _ _)]
  show wp (_ >>= _) _ _
  rw [wp_bind, wp_modify]
  show wp (tryCatch _ _) _ _
  rw [wp_tryCatch]
  have hstart : Between { ({} : Executor) with
      txOptions := o.transactionOptions
      calls := [(.startTransaction o.transactionOptions, true)], opened := 1
      tx := .own 0 0 } {} := by
    refine ⟨⟨0, ?_⟩, rfl⟩
    exact {
      tx := rfl, opened := rfl, finished := by simp, committed := rfl, errors := rfl
      pending := rfl, unopened := fun _ _ => rfl, autoDdl := rfl, clean := fun _ => rfl
      running := rfl }
  refine wp_mono (forEach_after hw hstart) ?_ ?_ fun _ h => h
  · exact fun _ _ h => h
  · rintro err e' ⟨id, h⟩
    have hactive := h.tx ▸ h.assertActive
    show wp (get >>= _) _ e'
    rw [wp_bind, wp_get]
    show wp (if (!e'.tx.isFinished e') = true then _ else _) _ e'
    rw [if_pos (by simp [h.not_finished]), wp_bind, wp_ignoreErrors, h.tx, wp_rollback (hw.answer _ _) hactive]
    refine ⟨⟨⟨h.committed, h.errors⟩, ?_⟩, h.ended⟩
    intro j hj
    apply (h.finishing _ j).mpr
    rw [← h.opened]
    exact hj

end Executor

open Executor Async

/-- The statements whose effects end up committed, those that fail and whether the script is
rejected are the reference's, and no transaction is left open. -/
theorem perScript_refines_isql (cases : CaseMap) (w : World) (o : ExecuteScriptOptions)
    (script : Text) (hmode : o.transaction.getD .perScript = .perScript)
    (hanswer : ∀ i a, w.answer i a = .ok ()) (hprogress : ∀ n, w.progress n = .ok ()) :
    let run := executeScript cases w o script {}
    match parseScript cases script (o.terminator.getD ";".toList) with
    | .error _ => run.2.opened = 0 ∧ run.2.calls = []
    | .ok parsed =>
      let f := isql o (fun i => (w.statement i).isOk) parsed
      (effects run.2.calls).committed = f.committed ∧
        run.2.results.filterMap StatementResult.failedIndex = f.errors ∧
        (f.ended = false ↔ ∃ result, run.1 = .ok result) ∧
        ∀ id < run.2.opened, id ∈ run.2.finished := by
  have hw : w.Obliging := ⟨hanswer, hprogress⟩
  have hrun : executeScript cases w o script {} =
      (match parseScript cases script (o.terminator.getD ";".toList) with
      | .error err => throw err.failure
      | .ok parsed => execute w o .perScript parsed : Script ScriptExecutionResult) {} := by
    unfold executeScript
    rw [hmode]
    cases o.transactionOptions <;> rfl
  rw [hrun]
  cases hparse : parseScript cases script (o.terminator.getD ";".toList) with
  | error err => exact ⟨rfl, rfl⟩
  | ok parsed =>
    dsimp only
    have hsettles : wp (execute w o .perScript parsed)
        ⟨fun _ e' => Settles e' (isql o (fun i => (w.statement i).isOk) parsed) ∧
            (isql o (fun i => (w.statement i).isOk) parsed).ended = false,
          fun _ e' => Settles e' (isql o (fun i => (w.statement i).isOk) parsed) ∧
            (isql o (fun i => (w.statement i).isOk) parsed).ended = true,
          fun _ => False⟩ {} := by
      unfold execute
      show wp (perScript w o parsed >>= _) _ _
      rw [wp_bind]
      exact wp_mono (perScript_after hw parsed) (fun _ _ h => h) (fun _ _ h => h) fun _ h => h
    rcases hr : execute w o .perScript parsed {} with ⟨result | err | _, e⟩
    · obtain ⟨h, hended⟩ := wp_eq_of_run hsettles hr
      exact ⟨h.committed, h.errors, ⟨fun _ => ⟨result, rfl⟩, fun _ => hended⟩, h.finished⟩
    · obtain ⟨h, hended⟩ := wp_eq_of_run hsettles hr
      refine ⟨h.committed, h.errors, ⟨fun hf => ?_, fun ⟨_, hok⟩ => by cases hok⟩, h.finished⟩
      rw [hended] at hf
      cases hf
    · exact (wp_eq_of_run hsettles hr).elim

theorem perScript_refines_isql_checkpoint :
    let w := World.failingAt 3
    let script := "insert into t values (1);commit;delete from t;delete from u".toList
    let run := executeScript basicCase w {} script {}
    (effects run.2.calls).committed = [0] ∧
      run.2.results.filterMap StatementResult.failedIndex = [3] ∧
      ∀ id < run.2.opened, id ∈ run.2.finished := by
  intro w script
  have href := perScript_refines_isql basicCase w {} script rfl (fun _ _ => rfl) fun _ => rfl
  have hfold : (parseScript basicCase script
      (({} : ExecuteScriptOptions).terminator.getD ";".toList)).toOption.map
        (fun parsed => isql {} (fun i => (w.statement i).isOk) parsed) =
          some { committed := [0], attempted := true, errors := [3], ended := true } := by
    decide +kernel
  generalize executeScript basicCase w {} script {} = run at href ⊢
  generalize parseScript basicCase script _ = parse at href hfold
  cases parse with
  | error err => cases hfold
  | ok parsed =>
    obtain ⟨hcommitted, herrors, -, hfinished⟩ := href
    have hisql := Option.some.inj hfold
    dsimp only at hisql
    rw [hisql] at hcommitted herrors
    exact ⟨hcommitted, herrors, hfinished⟩

end FastFirebird
