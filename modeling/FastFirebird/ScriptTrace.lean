import FastFirebird.ExecutorRules

/-! What a script reports: one result for each statement, in order, unless `onProgress` throws at the
report of a success. -/
namespace FastFirebird.ScriptTrace

open Executor Async

/-! ### How each statement goes by itself -/

/-- What the statements of a script depend on, as long as nothing throws in between: whether the
executor's transaction can be used, and its two flags. -/
structure Standing where
  active : Bool := true
  dirty : Bool := false
  autoDdl : Bool := false
  deriving Repr, DecidableEq

instance (o : ExecuteScriptOptions) (c : ClientCommand) : Decidable (Rejected o c) :=
  match c with
  | .unsupported reason => .isTrue (.inl ⟨reason, rfl⟩)
  | .commit _ | .rollback _ | .reconnect | .setAutoDdl _ | .setTransaction _ _ =>
    decidable_of_iff (o.clientCommands = some .error) ⟨.inr, fun h => h.resolve_left (by simp)⟩

section Verdict

variable (w : World) (o : ExecuteScriptOptions)

/-- A new transaction takes the place of one that is finished. -/
def Standing.renewed (i : Nat) (st : Standing) : Bool × Standing :=
  if (w.answer i .start).isOk then (true, { st with active := true, dirty := false })
  else (false, { st with active := false })

/-- Whether a client command succeeds on the executor's transaction, and what it leaves. -/
def Standing.command (i : Nat) (c : ClientCommand) (st : Standing) : Bool × Standing :=
  match c with
  | .commit retain =>
    if st.active && (w.answer i .commit).isOk then
      if retain then (true, { st with dirty := false }) else st.renewed w i
    else (false, st)
  | .rollback retain =>
    if st.active && (w.answer i .rollback).isOk then
      if retain then (true, { st with dirty := false }) else st.renewed w i
    else (false, st)
  | .setTransaction _ _ =>
    if st.dirty then (false, st)
    else if st.active && (w.answer i .commit).isOk then st.renewed w i
    else (false, st)
  | .reconnect =>
    if st.active && !(w.answer i .commit).isOk then (false, st)
    else if (w.answer i .reconnect).isOk then st.renewed w i
    else (false, { st with active := false })
  | .setAutoDdl on => (true, { st with autoDdl := on })
  | .unsupported _ => (true, st)

/-- What is reported of a statement, and where the script stands behind it, if it goes on: a failure
ends it without `continueOnError`. -/
def reported (r : Bool × Standing) : Bool × Option Standing :=
  (r.1, if r.1 = true ∨ o.continueOnError = some true then some r.2 else none)

def callerVerdict (stmt : ParsedStatement) (i : Nat) (st : Standing) : Bool × Option Standing :=
  reported o (stmt.client.isNone && (w.statement i).isOk, st)

def perScriptVerdict (stmt : ParsedStatement) (i : Nat) (st : Standing) : Bool × Option Standing :=
  match stmt.client with
  | some c => reported o (if Rejected o c then (false, st) else st.command w i c)
  | none =>
    let ok := st.active && (w.statement i).isOk
    if ok && st.autoDdl && stmt.kind == .ddl then
      -- the commit behind it is not the statement's: where it fails, the script ends
      (true, if (w.answer i .commit).isOk && (w.answer i .start).isOk then
        some { st with active := true, dirty := false } else none)
    else reported o (ok, { st with dirty := true })

/-- Without a transaction of the script's own there is nothing to commit. -/
def commandSucceeds (i : Nat) : ClientCommand → Bool
  | .reconnect => (w.answer i .reconnect).isOk
  | _ => true

/-- `none` where the statement's transaction does not start, so that nothing is reported. -/
def perStatementVerdict (stmt : ParsedStatement) (i : Nat) (st : Standing) :
    Option (Bool × Option Standing) :=
  match stmt.client with
  | some c => some (reported o (!decide (Rejected o c) && commandSucceeds w i c, st))
  | none =>
    if (w.answer i .start).isOk then
      let r := reported o ((w.statement i).isOk, st)
      some (r.1, if (w.answer i .commit).isOk then r.2 else none)
    else none

def noneVerdict (stmt : ParsedStatement) (i : Nat) (st : Standing) : Bool × Option Standing :=
  match stmt.client with
  | some (.setTransaction _ _) => reported o (false, st)
  | some c => reported o (!decide (Rejected o c) && commandSucceeds w i c, st)
  | none => reported o ((w.statement i).isOk, st)

def verdict (mode : TransactionMode) (stmt : ParsedStatement) (i : Nat) (st : Standing) :
    Option (Bool × Option Standing) :=
  match mode with
  | .caller => some (callerVerdict w o stmt i st)
  | .perScript => some (perScriptVerdict w o stmt i st)
  | .perStatement => perStatementVerdict w o stmt i st
  | .none => some (noneVerdict w o stmt i st)

/-- Whether each statement succeeds that is reached, from the `i`-th on. -/
def verdictsFrom (step : ParsedStatement → Nat → Standing → Option (Bool × Option Standing)) :
    Nat → Standing → List ParsedStatement → List Bool
  | _, _, [] => []
  | i, st, stmt :: rest =>
    match step stmt i st with
    | none => []
    | some (ok, none) => [ok]
    | some (ok, some st) => ok :: verdictsFrom step (i + 1) st rest

/-- The script is not begun: it does not parse, or the options contradict each other. -/
def statements (cases : CaseMap) (script : Text) : List ParsedStatement :=
  match parseScript cases script (o.terminator.getD ";".toList) with
  | .error _ => []
  | .ok parsed => parsed

/-- Whether each statement of a script succeeds that it reaches, if `onProgress` does not throw. -/
def verdicts (cases : CaseMap) (script : Text) : List Bool :=
  let mode := o.transaction.getD .perScript
  if o.transactionOptions.isSome ∧ (mode = .none ∨ mode = .caller) then []
  else if mode = .perScript ∧ (w.answer 0 .opening).isOk = false then []
  else verdictsFrom (verdict w o mode) 0 {} (statements o cases script)

end Verdict

/-- The results of a script are a trace of it. -/
structure Faithful (parsed : List ParsedStatement) (own : List Bool)
    (run : Outcome ScriptFailure ScriptExecutionResult × Executor) : Prop where
  statements : ∀ r ∈ run.2.results, parsed[r.index]? = some r.statement
  increasing : (run.2.results.map (·.index)).Pairwise (· < ·)
  errors : ∀ r ∈ run.2.results, r.error.isSome = true → own[r.index]? = some false
  counted : run.2.succeeded + run.2.failed = run.2.results.length
  resolved : ∀ result, run.1 = .ok result →
    result = ⟨run.2.results, run.2.succeeded, run.2.failed⟩ ∧
      result.statements.map (·.index) = List.range parsed.length

/-- The first call of `onProgress` that throws does not report a success. -/
def Unbroken (w : World) (own : List Bool) : Prop :=
  ∀ n, (∀ m < n, w.progress m = .ok ()) → own[n]? = some true → w.progress n = .ok ()

/-! ### What has been reported -/

/-- The executor's report so far. -/
structure Account where
  results : List StatementResult
  succeeded : Nat
  failed : Nat

def account (e : Executor) : Account := ⟨e.results, e.succeeded, e.failed⟩

/-- The first statements have been reported, as `vs` says. -/
structure Reports (parsed : List ParsedStatement) (vs : List Bool) (a : Account) : Prop where
  statements : a.results.map (·.statement) = parsed.take vs.length
  indexes : a.results.map (·.index) = List.range vs.length
  outcomes : a.results.map (·.error.isNone) = vs
  counted : a.succeeded + a.failed = a.results.length

/-- A statement has been reported twice. -/
def Doubled (a : Account) : Prop := ¬ (a.results.map (·.index)).Pairwise (· < ·)

theorem Reports.length {parsed : List ParsedStatement} {vs : List Bool} {a : Account}
    (h : Reports parsed vs a) : a.results.length = vs.length := by
  rw [← h.outcomes, List.length_map]

theorem Reports.add {parsed : List ParsedStatement} {vs : List Bool} {a : Account}
    (h : Reports parsed vs a) {r : StatementResult} {s f : Nat}
    (hstatement : parsed[vs.length]? = some r.statement) (hindex : r.index = vs.length)
    (hcounted : s + f = a.succeeded + a.failed + 1) :
    Reports parsed (vs ++ [r.error.isNone]) ⟨a.results ++ [r], s, f⟩ where
  statements := by
    rw [List.map_append, h.statements, List.length_append, List.length_singleton,
      List.take_add_one, hstatement]
    rfl
  indexes := by
    rw [List.map_append, h.indexes, List.length_append, List.length_singleton, List.range_succ,
      ← hindex]
    rfl
  outcomes := by
    rw [List.map_append, h.outcomes]
    rfl
  counted := by
    rw [hcounted, h.counted, List.length_append]
    rfl

theorem doubled_twice (results : List StatementResult) {r r' : StatementResult} {s f : Nat}
    (hindex : r'.index = r.index) : Doubled ⟨results ++ [r] ++ [r'], s, f⟩ := by
  intro hpairwise
  have hcut : (results ++ [r] ++ [r']).map (·.index) =
      results.map (·.index) ++ [r.index, r'.index] := by simp
  rw [hcut] at hpairwise
  have hlast := (List.pairwise_append.mp hpairwise).2.1
  rw [hindex] at hlast
  simp at hlast

theorem Doubled.mono {a a' : Account} (h : Doubled a) (hstarts : a.results <+: a'.results) :
    Doubled a' := by
  intro hpairwise
  obtain ⟨more, hmore⟩ := hstarts
  rw [← hmore, List.map_append] at hpairwise
  exact h (List.pairwise_append.mp hpairwise).1

/-! ### What does not report -/

/-- `x` does not wait, and what holds of the report still holds. -/
def Keeps {α : Type} (P : Account → Prop) (x : Script α) : Prop :=
  Triple (fun _ => False) (fun e => P (account e)) x (fun e => P (account e)) fun e => P (account e)

section Keeps

variable {w : World} {o : ExecuteScriptOptions} {P : Account → Prop}

theorem Keeps.pure {α : Type} (a : α) : Keeps P (Pure.pure a : Script α) := Triple.pure a

theorem Keeps.throw {α : Type} (err : ScriptFailure) : Keeps P (MonadExcept.throw err : Script α) :=
  Triple.throw err

theorem Keeps.get : Keeps P (MonadState.get : Script Executor) := fun _ h => h

theorem Keeps.update {g : Executor → Executor} (hg : ∀ e, account (g e) = account e) :
    Keeps P (modify g : Script PUnit) := by
  apply Triple.update
  intro e h
  rw [hg]
  exact h

theorem Keeps.bind {α β : Type} {x : Script α} {f : α → Script β} (hx : Keeps P x)
    (hf : ∀ a, Keeps P (f a)) : Keeps P (x >>= f) := Triple.bind hx hf

theorem Keeps.handle {α : Type} {x : Script α} {h : ScriptFailure → Script α} (hx : Keeps P x)
    (hh : ∀ err, Keeps P (h err)) : Keeps P (Async.handle x h) := Triple.handle hx hh

theorem Keeps.attempt {α : Type} {x : Script α} (hx : Keeps P x) : Keeps P (Async.attempt x) :=
  Triple.attempt hx

theorem Keeps.ignoreErrors {x : Script Unit} (hx : Keeps P x) : Keeps P (Async.ignoreErrors x) :=
  Keeps.handle hx fun _ => Keeps.pure _

theorem invoke_keeps {α : Type} (c : Call) (answer : Executor → Except ScriptFailure α) :
    Keeps P (invoke c answer) := by
  unfold invoke
  refine Keeps.bind Keeps.get fun e => ?_
  exact Keeps.bind (Keeps.update fun _ => rfl) fun _ => Triple.lift _

theorem startTransaction_keeps (i : Nat) (action : Action) (options : Option TransactionOptions) :
    Keeps P (startTransaction w i action options) := by
  unfold startTransaction
  refine Keeps.bind (invoke_keeps _ _) fun _ => ?_
  refine Keeps.bind (Keeps.update fun _ => rfl) fun _ => ?_
  exact Keeps.bind Keeps.get fun _ => Keeps.pure _

theorem commit_keeps (i : Nat) (tx : ScriptTx) (retain : Bool) : Keeps P (commit w i tx retain) := by
  unfold commit
  refine Keeps.bind (invoke_keeps _ _) fun _ => ?_
  split
  · exact Keeps.update fun _ => rfl
  · exact Keeps.pure _

theorem rollback_keeps (i : Nat) (action : Action) (tx : ScriptTx) (retain : Bool) :
    Keeps P (rollback w i action tx retain) := by
  unfold rollback
  refine Keeps.bind (invoke_keeps _ _) fun _ => ?_
  split
  · exact Keeps.update fun _ => rfl
  · exact Keeps.pure _

theorem reconnect_keeps (i : Nat) : Keeps P (reconnect w i) := by
  unfold reconnect
  exact Keeps.bind (Keeps.update fun _ => rfl) fun _ => invoke_keeps _ _

theorem reopen_keeps (i : Nat) : Keeps P (reopen w i) := by
  unfold reopen
  refine Keeps.bind Keeps.get fun _ => ?_
  refine Keeps.bind (startTransaction_keeps _ _ _) fun _ => ?_
  exact Keeps.update fun _ => rfl

theorem perScriptCommand_keeps (i : Nat) (c : ClientCommand) : Keeps P (perScriptCommand w i c) := by
  unfold perScriptCommand
  cases c with
  | commit retain =>
    refine Keeps.bind Keeps.get fun _ => Keeps.bind (commit_keeps _ _ _) fun _ => ?_
    cases retain with
    | true => exact Keeps.update fun _ => rfl
    | false => exact Keeps.bind (reopen_keeps _) fun _ => Keeps.update fun _ => rfl
  | rollback retain =>
    refine Keeps.bind Keeps.get fun _ => Keeps.bind (rollback_keeps _ _ _ _) fun _ => ?_
    cases retain with
    | true => exact Keeps.update fun _ => rfl
    | false => exact Keeps.bind (reopen_keeps _) fun _ => Keeps.update fun _ => rfl
  | setTransaction options raw =>
    refine Keeps.bind Keeps.get fun e => ?_
    have hrest : Keeps P (do
        modify fun e => { e with txOptions := some options }
        commit w i (← get).tx false
        reopen w i : Script Unit) := by
      refine Keeps.bind (Keeps.update fun _ => rfl) fun _ => Keeps.bind Keeps.get fun _ => ?_
      exact Keeps.bind (commit_keeps _ _ _) fun _ => reopen_keeps _
    dsimp only
    split
    · exact Keeps.bind (Keeps.throw _) fun _ => hrest
    · exact hrest
  | reconnect =>
    refine Keeps.bind Keeps.get fun e => ?_
    have hrest : Keeps P (do reconnect w i; reopen w i) :=
      Keeps.bind (reconnect_keeps _) fun _ => reopen_keeps _
    dsimp only
    split
    · exact Keeps.bind (commit_keeps _ _ _) fun _ => hrest
    · exact hrest
  | setAutoDdl on => exact Keeps.update fun _ => rfl
  | unsupported reason => exact Keeps.pure _

/-! ### What reports does not take back -/

/-- More reports do no harm to `P`. -/
def Grows (P : Account → Prop) : Prop :=
  ∀ a a' : Account, P a → a.results <+: a'.results → P a'

theorem report_keeps (hP : Grows P) (r : StatementResult) : Keeps P (report w r) := by
  unfold report
  refine Keeps.bind (Triple.update ?_) fun _ => Keeps.bind Keeps.get fun _ => Triple.lift _
  intro e h
  exact hP _ _ h (List.prefix_append _ _)

theorem emitOk_keeps (hP : Grows P) (stmt : ParsedStatement) (i n m : Nat) :
    Keeps P (emitOk w stmt i n m) := by
  unfold emitOk
  refine Keeps.bind (Triple.update ?_) fun _ => report_keeps hP _
  intro e h
  exact hP _ _ h (List.prefix_refl _)

theorem emitError_keeps (hP : Grows P) (stmt : ParsedStatement) (i : Nat) (err : ScriptFailure) :
    Keeps P (emitError w o stmt i err) := by
  unfold emitError
  refine Keeps.bind (Triple.update ?_) fun _ => Keeps.bind (report_keeps hP _) fun _ => ?_
  · intro e h
    exact hP _ _ h (List.prefix_refl _)
  · split
    · exact Keeps.throw err
    · exact Keeps.pure _

theorem runOne_keeps (hP : Grows P) (stmt : ParsedStatement) (i : Nat) (tx : Option ScriptTx) :
    Keeps P (runOne w o stmt i tx) := by
  unfold runOne
  refine Keeps.handle ?_ fun err => ?_
  · refine Keeps.bind (invoke_keeps _ _) fun qr => ?_
    exact Keeps.bind (emitOk_keeps hP _ _ _ _) fun _ => Keeps.pure _
  · exact Keeps.bind (emitError_keeps hP _ _ _) fun _ => Keeps.pure _

theorem rejectCommon_keeps (hP : Grows P) (stmt : ParsedStatement) (i : Nat) (c : ClientCommand) :
    Keeps P (rejectCommon w o stmt i c) := by
  unfold rejectCommon
  split
  · exact Keeps.bind (emitError_keeps hP _ _ _) fun _ => Keeps.pure _
  · split
    · exact Keeps.bind (emitError_keeps hP _ _ _) fun _ => Keeps.pure _
    · exact Keeps.pure _

/-- The answer of a client command is reported, whatever the command does. -/
theorem answered_keeps (hP : Grows P) {x : Script Unit} (hx : Keeps P x) (stmt : ParsedStatement)
    (i : Nat) : Keeps P (tryCatch (do x; emitOk w stmt i 0 0) (emitError w o stmt i)) :=
  Keeps.handle (Keeps.bind hx fun _ => emitOk_keeps hP _ _ _ _) fun err => emitError_keeps hP _ _ err

theorem callerStatement_keeps (hP : Grows P) (stmt : ParsedStatement) (i : Nat) :
    Keeps P (callerStatement w o stmt i) := by
  unfold callerStatement
  split
  · refine Keeps.bind (rejectCommon_keeps hP _ _ _) fun b => ?_
    split
    · exact Keeps.pure _
    · exact emitError_keeps hP _ _ _
  · exact Keeps.bind (runOne_keeps hP _ _ _) fun _ => Keeps.pure _

theorem perScriptStatement_keeps (hP : Grows P) (stmt : ParsedStatement) (i : Nat) :
    Keeps P (perScriptStatement w o stmt i) := by
  unfold perScriptStatement
  split
  · refine Keeps.bind (rejectCommon_keeps hP _ _ _) fun b => ?_
    split
    · exact Keeps.pure _
    · exact answered_keeps hP (perScriptCommand_keeps _ _) _ _
  · refine Keeps.bind Keeps.get fun _ => Keeps.bind (runOne_keeps hP _ _ _) fun ok => ?_
    refine Keeps.bind (Keeps.update fun _ => rfl) fun _ => Keeps.bind Keeps.get fun e => ?_
    split
    · exact Keeps.bind (commit_keeps _ _ _) fun _ => reopen_keeps _
    · exact Keeps.pure _

theorem perStatementStatement_keeps (hP : Grows P) (stmt : ParsedStatement) (i : Nat) :
    Keeps P (perStatementStatement w o stmt i) := by
  unfold perStatementStatement
  split
  · refine Keeps.bind (rejectCommon_keeps hP _ _ _) fun b => ?_
    split
    · exact Keeps.pure _
    · refine Keeps.handle ?_ fun err => emitError_keeps hP _ _ err
      split
      · exact Keeps.bind (reconnect_keeps _) fun _ => emitOk_keeps hP _ _ _ _
      · exact Keeps.bind (Keeps.update fun _ => rfl) fun _ => emitOk_keeps hP _ _ _ _
      · exact emitOk_keeps hP _ _ _ _
  · refine Keeps.bind Keeps.get fun _ => Keeps.bind (startTransaction_keeps _ _ _) fun tx => ?_
    refine Keeps.bind (Keeps.attempt (runOne_keeps hP _ _ _)) fun ran => Keeps.bind Keeps.get fun e => ?_
    split
    · split
      · exact commit_keeps _ _ _
      · exact Keeps.pure _
    · split
      · exact Keeps.bind (Keeps.ignoreErrors (rollback_keeps _ _ _ _)) fun _ => Keeps.throw _
      · exact Keeps.throw _

theorem noneStatement_keeps (hP : Grows P) (stmt : ParsedStatement) (i : Nat) :
    Keeps P (noneStatement w o stmt i) := by
  unfold noneStatement
  split
  · refine Keeps.bind (rejectCommon_keeps hP _ _ _) fun b => ?_
    split
    · exact Keeps.pure _
    · split
      · exact emitError_keeps hP _ _ _
      · refine Keeps.handle ?_ fun err => emitError_keeps hP _ _ err
        split
        · exact Keeps.bind (reconnect_keeps _) fun _ => emitOk_keeps hP _ _ _ _
        · exact emitOk_keeps hP _ _ _ _
  · exact Keeps.bind (runOne_keeps hP _ _ _) fun _ => Keeps.pure _

theorem forEach_keeps {body : ParsedStatement → Nat → Script Unit}
    (hbody : ∀ stmt i, Keeps P (body stmt i)) : ∀ (i : Nat) (rest : List ParsedStatement),
      Keeps P (forEach body i rest)
  | _, [] => Keeps.pure _
  | i, stmt :: rest => Keeps.bind (hbody stmt i) fun _ => forEach_keeps hbody (i + 1) rest

end Keeps

/-! ### One statement -/

section Statement

variable {w : World} {o : ExecuteScriptOptions} {parsed : List ParsedStatement} {vs : List Bool}
  {Inv : Executor → Standing → Prop} {e : Executor} {stmt : ParsedStatement}

/-- `Inv` is not about the report. -/
def Silent (Inv : Executor → Standing → Prop) : Prop :=
  ∀ e st results succeeded failed, Inv e st →
    Inv { e with results := results, succeeded := succeeded, failed := failed } st

/-- A program that reports nothing succeeds or not, as `r` says. -/
def Ran {α : Type} (Inv : Executor → Standing → Prop) (e : Executor) (r : Bool × Standing) :
    Post Executor ScriptFailure α where
  ok _ e' := (r.1 = true ∧ Inv e' r.2) ∧ account e' = account e
  error _ e' := (r.1 = false ∧ Inv e' r.2) ∧ account e' = account e
  pending _ := False

theorem Ran.of_keeps {α : Type} {x : Script α} {r : Bool × Standing}
    (hkeeps : Keeps (· = account e) x) (h : wp x ⟨fun _ e' => r.1 = true ∧ Inv e' r.2,
      fun _ e' => r.1 = false ∧ Inv e' r.2, fun _ => False⟩ e) : wp x (Ran Inv e r) e :=
  wp_mono (wp_and h (hkeeps e rfl)) (fun _ _ h => h) (fun _ _ h => h) fun _ h => h.1

/-- The statement is reported, and the script goes on. -/
structure Clear (w : World) (o : ExecuteScriptOptions) (parsed : List ParsedStatement)
    (vs : List Bool) (Inv : Executor → Standing → Prop) (r : Bool × Standing) (e : Executor) :
    Prop where
  quiet : w.progress vs.length = .ok ()
  reports : Reports parsed (vs ++ [r.1]) (account e)
  inv : Inv e r.2
  goes : r.1 = true ∨ o.continueOnError = some true

/-- A failure is reported, and the script ends with it. -/
structure Stopped (w : World) (o : ExecuteScriptOptions) (parsed : List ParsedStatement)
    (vs : List Bool) (r : Bool × Standing) (e : Executor) : Prop where
  failed : r.1 = false
  reports : Reports parsed (vs ++ [false]) (account e)
  ends : w.progress vs.length = .ok () → o.continueOnError ≠ some true

/-- The report of a success throws, and the statement is reported again as a failure. -/
structure Interrupted (w : World) (vs : List Bool) (r : Bool × Standing) (e : Executor) : Prop where
  succeeds : r.1 = true
  throws : w.progress vs.length ≠ .ok ()
  doubled : Doubled (account e)

theorem wp_report_error {r : StatementResult} {err : ScriptFailure}
    {Q : Post Executor ScriptFailure Unit} (hp : w.progress e.results.length = .error err) :
    wp (report w r) Q e ↔ Q.error err { e with results := e.results ++ [r] } := by
  have hlen : (e.results ++ [r]).length - 1 = e.results.length := by
    rw [List.length_append]
    rfl
  unfold report
  simp only [wp_bind, wp_get, wp_modify, hlen, hp]
  exact Iff.rfl

/-- The failure of a statement is reported. -/
theorem emitError_told {st : Standing} {err : ScriptFailure} (hreports : Reports parsed vs (account e))
    (hsilent : Silent Inv) (hinv : Inv e st) (hstmt : parsed[vs.length]? = some stmt) :
    wp (emitError w o stmt vs.length err) ⟨fun _ => Clear w o parsed vs Inv (false, st),
      fun _ => Stopped w o parsed vs (false, st), fun _ => False⟩ e := by
  have hlength : e.results.length = vs.length := hreports.length
  have hreports' : ∀ r : StatementResult, r.statement = stmt → r.index = vs.length →
      r.error.isNone = false →
        Reports parsed (vs ++ [false]) ⟨e.results ++ [r], e.succeeded, e.failed + 1⟩ := by
    intro r hr hindex herror
    have hadd := hreports.add (r := r) (s := e.succeeded) (f := e.failed + 1) (by rw [hr, hstmt])
      hindex rfl
    rwa [herror] at hadd
  unfold emitError
  simp only [wp_bind, wp_modify]
  cases hp : w.progress vs.length with
  | ok _ =>
    rw [wp_report (by rw [← hp, ← hlength])]
    by_cases hc : o.continueOnError = some true
    · rw [if_neg (by simpa using hc)]
      exact ⟨hp, hreports' _ rfl rfl rfl, hsilent e st _ _ _ hinv, .inr hc⟩
    · rw [if_pos hc]
      exact ⟨rfl, hreports' _ rfl rfl rfl, fun _ => hc⟩
  | error err' =>
    rw [wp_report_error (by rw [← hp, ← hlength])]
    exact ⟨rfl, hreports' _ rfl rfl rfl, fun hok => by rw [hp] at hok; cases hok⟩

/-- A statement is answered: what it does is reported, once if the report of a success returns. -/
theorem answered_told {α β : Type} {x : Script α} {n m : α → Nat} {b c : β} {r : Bool × Standing}
    (hx : wp x (Ran Inv e r) e) (hreports : Reports parsed vs (account e)) (hsilent : Silent Inv)
    (hstmt : parsed[vs.length]? = some stmt) :
    wp (tryCatch
        (do
          let a ← x
          emitOk w stmt vs.length (n a) (m a)
          return b)
        (fun err => do
          emitError w o stmt vs.length err
          return c))
      ⟨fun d e' => (Clear w o parsed vs Inv r e' ∧ d = if r.1 = true then b else c) ∨
          Interrupted w vs r e',
        fun _ e' => Stopped w o parsed vs r e' ∨ Interrupted w vs r e', fun _ => False⟩ e := by
  rw [wp_tryCatch, wp_bind]
  refine wp_mono hx ?_ ?_ fun _ h => h
  · rintro a e₁ ⟨⟨hok, hinv⟩, haccount⟩
    have hreports₁ : Reports parsed vs (account e₁) := by rw [haccount]; exact hreports
    have hlength : e₁.results.length = vs.length := hreports₁.length
    unfold emitOk
    simp only [wp_bind, wp_modify]
    cases hp : w.progress vs.length with
    | ok _ =>
      rw [wp_report (by rw [← hp, ← hlength])]
      left
      have hadd := hreports₁.add
        (r := { statement := stmt, index := vs.length, rowsAffected := n a, rowCount := m a })
        (s := e₁.succeeded + 1) (f := e₁.failed) (by rw [hstmt]) rfl (by simp only [account]; omega)
      refine ⟨⟨hp, ?_, hsilent e₁ _ _ _ _ hinv, .inl hok⟩, by rw [if_pos hok]⟩
      rw [hok]
      exact hadd
    | error err =>
      rw [wp_report_error (by rw [← hp, ← hlength])]
      -- the callback's error is caught, and reported for the same statement
      have hthrows : w.progress vs.length ≠ .ok () := by
        rw [hp]
        intro heq
        cases heq
      have hdoubled : ∀ (results : List StatementResult) (r r' : StatementResult) (s f : Nat),
          r'.index = r.index → Doubled ⟨results ++ [r] ++ [r'], s, f⟩ :=
        fun results _ _ _ _ => doubled_twice results
      unfold emitError report
      simp only [wp_bind, wp_modify, wp_get]
      refine wp_lift (fun _ _ => ?_) fun _ _ => ?_
      · split
        · exact .inr ⟨hok, hthrows, hdoubled _ _ _ _ _ rfl⟩
        · exact .inr ⟨hok, hthrows, hdoubled _ _ _ _ _ rfl⟩
      · exact .inr ⟨hok, hthrows, hdoubled _ _ _ _ _ rfl⟩
  · rintro err e₁ ⟨⟨hfail, hinv⟩, haccount⟩
    have hreports₁ : Reports parsed vs (account e₁) := by rw [haccount]; exact hreports
    obtain ⟨ok, st⟩ := r
    obtain rfl : ok = false := hfail
    simp only [wp_bind]
    refine wp_mono (emitError_told hreports₁ hsilent hinv hstmt) ?_ ?_ fun _ h => h
    · exact fun _ _ h => .inl ⟨h, rfl⟩
    · exact fun _ _ h => .inl h

/-- The report of a success throws. -/
structure Broken (w : World) (vs : List Bool) (v : Option (Bool × Option Standing)) (e : Executor) :
    Prop where
  succeeds : ∃ next, v = some (true, next)
  throws : w.progress vs.length ≠ .ok ()
  doubled : Doubled (account e)

/-- The last report of a script: it ends there, or the report of a failure throws. -/
def Last (w : World) (n : Nat) (ok : Bool) (next : Option Standing) : Prop :=
  (w.progress n = .ok () ∧ next = none) ∨ (ok = false ∧ w.progress n ≠ .ok ())

/-- What one statement comes to, against the verdict `v`. -/
def Told (w : World) (parsed : List ParsedStatement) (vs : List Bool)
    (Inv : Executor → Standing → Prop) (v : Option (Bool × Option Standing)) :
    Post Executor ScriptFailure Unit where
  ok _ e := (∃ ok st, v = some (ok, some st) ∧ Reports parsed (vs ++ [ok]) (account e) ∧ Inv e st ∧
    w.progress vs.length = .ok ()) ∨ Broken w vs v e
  error _ e := (v = none ∧ Reports parsed vs (account e)) ∨
    (∃ ok next, v = some (ok, next) ∧ Reports parsed (vs ++ [ok]) (account e) ∧
      Last w vs.length ok next) ∨ Broken w vs v e
  pending _ := False

theorem Clear.told {r : Bool × Standing} (h : Clear w o parsed vs Inv r e) :
    (Told w parsed vs Inv (some (reported o r))).ok () e :=
  .inl ⟨r.1, r.2, by rw [reported, if_pos h.goes], h.reports, h.inv, h.quiet⟩

theorem Stopped.last {r : Bool × Standing} {next : Option Standing} {err : ScriptFailure}
    {e' : Executor} (h : Stopped w o parsed vs r e) (haccount : account e' = account e)
    (hnext : o.continueOnError ≠ some true → next = none) :
    (Told w parsed vs Inv (some (r.1, next))).error err e' := by
  refine .inr (.inl ⟨r.1, next, rfl, by rw [h.failed, haccount]; exact h.reports, ?_⟩)
  by_cases hp : w.progress vs.length = .ok ()
  · exact .inl ⟨hp, hnext (h.ends hp)⟩
  · exact .inr ⟨h.failed, hp⟩

theorem Stopped.told {r : Bool × Standing} {err : ScriptFailure} (h : Stopped w o parsed vs r e) :
    (Told w parsed vs Inv (some (reported o r))).error err e := by
  apply h.last rfl
  intro hc
  rw [h.failed]
  exact if_neg (by simpa using hc)

theorem Interrupted.broken {r : Bool × Standing} {next : Option Standing} {e' : Executor}
    (h : Interrupted w vs r e) (hdoubled : Doubled (account e')) :
    Broken w vs (some (r.1, next)) e' :=
  ⟨⟨next, by rw [h.succeeds]⟩, h.throws, hdoubled⟩

/-- A rejected command is a failure. -/
theorem rejected_told {st : Standing} {err : ScriptFailure} (hreports : Reports parsed vs (account e))
    (hsilent : Silent Inv) (hinv : Inv e st) (hstmt : parsed[vs.length]? = some stmt) :
    wp (emitError w o stmt vs.length err) (Told w parsed vs Inv (some (reported o (false, st)))) e :=
  wp_mono (emitError_told hreports hsilent hinv hstmt) (fun _ _ h => h.told) (fun _ _ h => h.told)
    fun _ h => h

/-- A client command is answered. -/
theorem command_told {x : Script Unit} {r : Bool × Standing} (hx : wp x (Ran Inv e r) e)
    (hreports : Reports parsed vs (account e)) (hsilent : Silent Inv)
    (hstmt : parsed[vs.length]? = some stmt) :
    wp (tryCatch (do x; emitOk w stmt vs.length 0 0) (emitError w o stmt vs.length))
      (Told w parsed vs Inv (some (reported o r))) e := by
  have htold := @answered_told w o parsed vs Inv e stmt Unit Unit x (fun _ => 0) (fun _ => 0) () () r
    hx hreports hsilent hstmt
  have heq : (tryCatch
      (do
        let _ ← x
        emitOk w stmt vs.length 0 0
        return ())
      (fun err => do
        emitError w o stmt vs.length err
        return ()) : Script Unit) =
      tryCatch (do x; emitOk w stmt vs.length 0 0) (emitError w o stmt vs.length) := by
    simp
  rw [heq] at htold
  refine wp_mono htold ?_ ?_ fun _ h => h
  · rintro - e' (⟨h, -⟩ | h)
    · exact h.told
    · exact .inr (h.broken h.doubled)
  · rintro err e' (h | h)
    · exact h.told
    · exact .inr (.inr (h.broken h.doubled))

/-- What every mode does with a client command first. -/
theorem client_told {st : Standing} {c : ClientCommand} {x : Script Unit} {r : Bool × Standing}
    (hreports : Reports parsed vs (account e)) (hsilent : Silent Inv) (hinv : Inv e st)
    (hstmt : parsed[vs.length]? = some stmt)
    (hx : ¬ Rejected o c → wp x (Told w parsed vs Inv (some (reported o r))) e) :
    wp (do
        if ← rejectCommon w o stmt vs.length c then return
        x)
      (Told w parsed vs Inv (some (reported o (if Rejected o c then (false, st) else r)))) e := by
  by_cases hreject : Rejected o c
  · obtain ⟨why, hwhy⟩ := @rejectCommon_rejects w o stmt vs.length c hreject
    rw [hwhy, if_pos hreject]
    simp only [wp_bind]
    exact wp_mono (rejected_told hreports hsilent hinv hstmt) (fun _ _ h => h) (fun _ _ h => h)
      fun _ h => h
  · rw [rejectCommon_passes hreject, if_neg hreject]
    exact hx hreject

theorem runSql_ran {tx : Option ScriptTx} {st : Standing} {ok : Bool}
    (hactive : ok = true → ∀ tx', tx = some tx' → tx'.assertActive e = .ok ())
    (hinactive : ok = false → ∃ tx' err, tx = some tx' ∧ tx'.assertActive e = .error err)
    (hinv : ∀ calls, Inv { e with calls := calls } st) (i : Nat) (sql : Text) :
    wp (runSql w tx i sql) (Ran Inv e (ok && (w.statement i).isOk, st)) e := by
  refine Ran.of_keeps (invoke_keeps _ _) ?_
  cases ok with
  | true =>
    -- the check of the transaction passes, and the server answers
    have hactive' : ∀ tx', tx = some tx' → tx'.assertActive e = .ok () := hactive rfl
    cases tx with
    | none =>
      cases hs : w.statement i with
      | ok qr =>
        rw [runSql, wp_invoke hs]
        exact ⟨rfl, hinv _⟩
      | error err =>
        rw [runSql, wp_invoke_error hs]
        exact ⟨rfl, hinv _⟩
    | some tx =>
      have hanswer : (tx.assertActive e >>= fun _ => w.statement i) = w.statement i := by
        rw [hactive' tx rfl]
        rfl
      cases hs : w.statement i with
      | ok qr =>
        rw [runSql, wp_invoke (hanswer.trans hs)]
        exact ⟨rfl, hinv _⟩
      | error err =>
        rw [runSql, wp_invoke_error (hanswer.trans hs)]
        exact ⟨rfl, hinv _⟩
  | false =>
    obtain ⟨tx', err, rfl, herror⟩ := hinactive rfl
    have hanswer : (tx'.assertActive e >>= fun _ => w.statement i) = .error err := by
      rw [herror]
      rfl
    rw [runSql, wp_invoke_error hanswer]
    exact ⟨rfl, hinv _⟩

/-- A statement that is sent to the server. -/
theorem runOne_told {tx : Option ScriptTx} {r : Bool × Standing}
    (hx : wp (runSql w tx vs.length stmt.sql) (Ran Inv e r) e)
    (hreports : Reports parsed vs (account e)) (hsilent : Silent Inv)
    (hstmt : parsed[vs.length]? = some stmt) : wp (runOne w o stmt vs.length tx)
      ⟨fun b e' => (Clear w o parsed vs Inv r e' ∧ b = r.1) ∨ Interrupted w vs r e',
        fun _ e' => Stopped w o parsed vs r e' ∨ Interrupted w vs r e', fun _ => False⟩ e := by
  unfold runOne
  refine wp_mono (answered_told hx hreports hsilent hstmt) ?_ (fun _ _ h => h) fun _ h => h
  rintro b e' (⟨hclear, rfl⟩ | h)
  · exact .inl ⟨hclear, by cases r.1 <;> rfl⟩
  · exact .inr h

theorem sent_told {tx : Option ScriptTx} {r : Bool × Standing}
    (hx : wp (runSql w tx vs.length stmt.sql) (Ran Inv e r) e)
    (hreports : Reports parsed vs (account e)) (hsilent : Silent Inv)
    (hstmt : parsed[vs.length]? = some stmt) : wp (do let _ ← runOne w o stmt vs.length tx)
      (Told w parsed vs Inv (some (reported o r))) e := by
  rw [wp_bind]
  refine wp_mono (runOne_told hx hreports hsilent hstmt) ?_ ?_ fun _ h => h
  · rintro b e' (⟨h, -⟩ | h)
    · exact h.told
    · exact .inr (h.broken h.doubled)
  · rintro err e' (h | h)
    · show (Told w parsed vs Inv (some (reported o r))).error err e'
      exact h.told
    · exact .inr (.inr (h.broken h.doubled))

/-! ### The modes without a transaction of the script -/

/-- Nothing to keep. -/
def Free (_ : Executor) (_ : Standing) : Prop := True

theorem free_silent : Silent Free := fun _ _ _ _ _ _ => trivial

theorem callerStatement_told {st : Standing} (hreports : Reports parsed vs (account e))
    (hstmt : parsed[vs.length]? = some stmt) : wp (callerStatement w o stmt vs.length)
      (Told w parsed vs Free (some (callerVerdict w o stmt vs.length st))) e := by
  unfold callerStatement callerVerdict
  cases hc : stmt.client with
  | some c =>
    have hverdict : reported o ((some c).isNone && (w.statement vs.length).isOk, st) =
        reported o (if Rejected o c then (false, st) else (false, st)) := by
      rw [ite_self]
      rfl
    rw [hverdict]
    exact client_told hreports free_silent trivial hstmt fun _ =>
      rejected_told hreports free_silent trivial hstmt
  | none =>
    apply sent_told _ hreports free_silent hstmt
    have hran := @runSql_ran w Free e (some .caller) st true
      (fun _ tx htx => by rw [← Option.some.inj htx]; rfl) nofun (fun _ => trivial) vs.length stmt.sql
    exact hran

theorem reconnect_ran {st : Standing} {i : Nat}
    (hinv : ∀ calls generation, Inv { e with calls := calls, generation := generation } st) :
    wp (reconnect w i) (Ran Inv e ((w.answer i .reconnect).isOk, st)) e := by
  refine Ran.of_keeps (reconnect_keeps _) ?_
  cases ha : w.answer i .reconnect with
  | ok _ =>
    rw [wp_reconnect ha]
    exact ⟨rfl, hinv _ _⟩
  | error err =>
    rw [wp_reconnect_error ha]
    exact ⟨rfl, hinv _ _⟩

/-- A command that has nothing to do is answered at once. -/
theorem noOp_ran {st : Standing} (hinv : Inv e st) :
    wp (pure () : Script Unit) (Ran Inv e (true, st)) e := ⟨⟨rfl, hinv⟩, rfl⟩

theorem rejected_verdict (c : ClientCommand) (b : Bool) (st : Standing) :
    (!decide (Rejected o c) && b, st) = if Rejected o c then (false, st) else (b, st) := by
  by_cases h : Rejected o c
  · rw [if_pos h, decide_eq_true h]
    rfl
  · rw [if_neg h, decide_eq_false h]
    rfl

theorem noneStatement_told {st : Standing} (hreports : Reports parsed vs (account e))
    (hstmt : parsed[vs.length]? = some stmt) : wp (noneStatement w o stmt vs.length)
      (Told w parsed vs Free (some (noneVerdict w o stmt vs.length st))) e := by
  unfold noneStatement noneVerdict
  cases hc : stmt.client with
  | some c =>
    cases c with
    | setTransaction options raw =>
      have hverdict : reported o (false, st) = reported o
          (if Rejected o (.setTransaction options raw) then (false, st) else (false, st)) := by
        rw [ite_self]
      dsimp only
      rw [hverdict]
      exact client_told hreports free_silent trivial hstmt fun _ =>
        rejected_told hreports free_silent trivial hstmt
    | reconnect =>
      dsimp only
      rw [rejected_verdict]
      exact client_told hreports free_silent trivial hstmt fun _ =>
        command_told (reconnect_ran fun _ _ => trivial) hreports free_silent hstmt
    | commit retain =>
      dsimp only
      rw [rejected_verdict]
      exact client_told hreports free_silent trivial hstmt fun _ =>
        command_told (noOp_ran trivial) hreports free_silent hstmt
    | rollback retain =>
      dsimp only
      rw [rejected_verdict]
      exact client_told hreports free_silent trivial hstmt fun _ =>
        command_told (noOp_ran trivial) hreports free_silent hstmt
    | setAutoDdl on =>
      dsimp only
      rw [rejected_verdict]
      exact client_told hreports free_silent trivial hstmt fun _ =>
        command_told (noOp_ran trivial) hreports free_silent hstmt
    | unsupported reason =>
      dsimp only
      rw [rejected_verdict]
      exact client_told hreports free_silent trivial hstmt fun _ =>
        command_told (noOp_ran trivial) hreports free_silent hstmt
  | none =>
    apply sent_told _ hreports free_silent hstmt
    exact @runSql_ran w Free e none st true nofun nofun (fun _ => trivial) vs.length stmt.sql

/-! ### A transaction for each statement -/

/-- What is finished has been opened. -/
def Opened (e : Executor) (_ : Standing) : Prop := ∀ id ∈ e.finished, id < e.opened

theorem opened_silent : Silent Opened := fun _ _ _ _ _ h => h

/-- The statement's own transaction can be used. -/
def OpenedWith (tx : ScriptTx) (e : Executor) (_ : Standing) : Prop :=
  tx.assertActive e = .ok () ∧ ∃ id g, tx = .own id g ∧ id < e.opened ∧
    ∀ id ∈ e.finished, id < e.opened

theorem openedWith_silent (tx : ScriptTx) : Silent (OpenedWith tx) := by
  rintro e st results succeeded failed ⟨hactive, hopened⟩
  refine ⟨?_, hopened⟩
  cases tx with
  | caller => rfl
  | own id g => exact hactive

theorem assertActive_own {id g : Nat} :
    (ScriptTx.own id g).assertActive e = .ok () ↔ e.generation = g ∧ id ∉ e.finished := by
  rw [ScriptTx.assertActive]
  constructor
  · intro h
    split at h
    · cases h
    split at h
    · cases h
    · rename_i hg hid
      exact ⟨not_not.mp hg, by simpa using hid⟩
  · rintro ⟨hg, hid⟩
    rw [if_neg (not_not.mpr hg), if_neg (by simpa using hid)]

theorem assertActive_error {id g : Nat} (h : id ∈ e.finished) :
    ∃ err, (ScriptTx.own id g).assertActive e = .error err := by
  rw [ScriptTx.assertActive]
  split
  · exact ⟨_, rfl⟩
  · rw [if_pos (by simpa using h)]
    exact ⟨_, rfl⟩

/-- The statement has been reported: its transaction is committed. -/
theorem commit_opened {tx : ScriptTx} {st : Standing} {i : Nat} (h : OpenedWith tx e st) :
    wp (do
        let e ← get
        if !tx.isFinished e then commit w i tx false : Script Unit)
      ⟨fun _ e' => (w.answer i .commit).isOk = true ∧ Opened e' st ∧ account e' = account e,
        fun _ e' => (w.answer i .commit).isOk = false ∧ account e' = account e, fun _ => False⟩ e := by
  obtain ⟨hactive, id, g, rfl, hid, hfinished⟩ := h
  have hunfinished := (assertActive_own.mp hactive).2
  rw [wp_bind, wp_get]
  show wp (if (!(ScriptTx.own id g).isFinished e) = true then _ else _) _ e
  rw [if_pos (by simpa [ScriptTx.isFinished] using hunfinished)]
  cases ha : w.answer i .commit with
  | ok _ =>
    rw [wp_commit ha hactive]
    refine ⟨rfl, ?_, rfl⟩
    intro j hj
    rcases List.mem_cons.mp hj with rfl | hj
    · exact hid
    · exact hfinished j hj
  | error err =>
    rw [wp_commit_error ha hactive]
    exact ⟨rfl, rfl⟩

/-- The rollback of an error path does not report. -/
theorem cleanup_throws {P : Account → Prop} (h : P (account e)) (tx : ScriptTx) (i : Nat)
    (err : ScriptFailure) : wp (do
        let e ← get
        if !tx.isFinished e then ignoreErrors (rollback w i .cleanup tx false)
        throw err : Script Unit)
      ⟨fun _ _ => False, fun _ e' => P (account e'), fun _ => False⟩ e := by
  rw [wp_bind, wp_get]
  show wp (if (!tx.isFinished e) = true then _ else _) _ e
  split
  · rw [wp_bind, wp_ignoreErrors]
    exact wp_mono (rollback_keeps i .cleanup tx false e h) (fun _ _ h => h) (fun _ _ h => h)
      fun _ h => h
  · exact h

theorem perStatementStatement_told {st : Standing} (hreports : Reports parsed vs (account e))
    (hopened : Opened e st) (hstmt : parsed[vs.length]? = some stmt) :
    wp (perStatementStatement w o stmt vs.length)
      (Told w parsed vs Opened (perStatementVerdict w o stmt vs.length st)) e := by
  unfold perStatementStatement perStatementVerdict
  cases hc : stmt.client with
  | some c =>
    dsimp only
    rw [rejected_verdict]
    apply client_told hreports opened_silent hopened hstmt
    intro _
    cases c with
    | reconnect =>
      exact command_told (reconnect_ran fun _ _ => hopened) hreports opened_silent hstmt
    | setTransaction options raw =>
      have hran : wp (modify fun e => { e with txOptions := some options } : Script Unit)
          (Ran Opened e (true, st)) e := ⟨⟨rfl, hopened⟩, rfl⟩
      exact command_told hran hreports opened_silent hstmt
    | commit retain => exact command_told (noOp_ran hopened) hreports opened_silent hstmt
    | rollback retain => exact command_told (noOp_ran hopened) hreports opened_silent hstmt
    | setAutoDdl on => exact command_told (noOp_ran hopened) hreports opened_silent hstmt
    | unsupported reason => exact command_told (noOp_ran hopened) hreports opened_silent hstmt
  | none =>
    dsimp only
    simp only [wp_bind, wp_get]
    cases hstart : w.answer vs.length .start with
    | error err =>
      unfold startTransaction
      rw [wp_bind, wp_invoke_error hstart]
      exact .inl ⟨rfl, hreports⟩
    | ok _ =>
      rw [wp_startTransaction hstart, if_pos (by rfl)]
      dsimp only
      have hactive : OpenedWith (.own e.opened e.generation)
          { e with
            calls := (.startTransaction e.txOptions, true) :: e.calls, opened := e.opened + 1 } st := by
        refine ⟨assertActive_own.mpr ⟨rfl, fun h => Nat.lt_irrefl _ (hopened _ h)⟩, e.opened, _, rfl,
          Nat.lt_succ_self _, fun id hid => Nat.lt_succ_of_lt (hopened id hid)⟩
      generalize ScriptTx.own e.opened e.generation = tx at hactive ⊢
      generalize he₁ : ({ e with
        calls := (.startTransaction e.txOptions, true) :: e.calls, opened := e.opened + 1 } : Executor) =
          e₁ at hactive ⊢
      have hreports₁ : Reports parsed vs (account e₁) := by
        rw [← he₁]
        exact hreports
      have hran := @runSql_ran w (OpenedWith tx) e₁ (some tx) st true
        (fun _ tx' htx => by rw [← Option.some.inj htx]; exact hactive.1)
        (fun hno => absurd hno.symm Bool.false_ne_true)
        (fun calls => by
          obtain ⟨hassert, id, g, rfl, hid, hfinished⟩ := hactive
          exact ⟨hassert, id, g, rfl, hid, hfinished⟩) vs.length stmt.sql
      rw [Bool.true_and] at hran
      simp only [wp_bind, wp_attempt]
      refine wp_mono (runOne_told (o := o) hran hreports₁ (openedWith_silent tx) hstmt) ?_ ?_
        fun _ h => h
      · rintro b e₂ (⟨hclear, -⟩ | hbroken)
        · have hcommit := commit_opened (w := w) (i := vs.length) hclear.inv
          rw [wp_bind, wp_get] at hcommit
          refine wp_mono hcommit ?_ ?_ fun _ h => h
          · rintro _ e₃ ⟨hok, hopened₃, haccount⟩
            refine .inl ⟨_, st, ?_, by rw [haccount]; exact hclear.reports, hopened₃, hclear.quiet⟩
            rw [if_pos hok, reported, if_pos hclear.goes]
          · rintro err e₃ ⟨hno, haccount⟩
            refine .inr (.inl ⟨_, none, ?_, by rw [haccount]; exact hclear.reports, .inl ⟨hclear.quiet, rfl⟩⟩)
            rw [if_neg (by rw [hno]; exact Bool.false_ne_true)]
            rfl
        · have hrest : Keeps Doubled (if (!tx.isFinished e₂) = true then commit w vs.length tx false
              else pure ()) := by
            split
            · exact commit_keeps _ _ _
            · exact Keeps.pure _
          exact wp_mono (hrest e₂ hbroken.doubled) (fun _ _ h => .inr (hbroken.broken h))
            (fun _ _ h => .inr (.inr (hbroken.broken h))) fun _ h => h
      · rintro err e₂ (hstopped | hbroken)
        · have hthrow := cleanup_throws (w := w) (P := (· = account e₂)) rfl tx vs.length err
          rw [wp_bind, wp_get] at hthrow
          refine wp_mono hthrow (fun _ _ h => h.elim) ?_ fun _ h => h
          intro err' e₃ haccount
          apply hstopped.last haccount
          intro hc
          split
          · exact if_neg (by simpa [hc] using hstopped.failed)
          · rfl
        · have hthrow := cleanup_throws (w := w) hbroken.doubled tx vs.length err
          rw [wp_bind, wp_get] at hthrow
          exact wp_mono hthrow (fun _ _ h => h.elim) (fun _ _ h => .inr (.inr (hbroken.broken h)))
            fun _ h => h

/-! ### One transaction for the script -/

/-- The executor's variables, between two calls, are as `st` says. -/
structure Stands (e : Executor) (st : Standing) : Prop where
  dirty : e.dirty = st.dirty
  autoDdl : e.autoDdl = st.autoDdl
  finished : ∀ id ∈ e.finished, id < e.opened
  tx : ∃ id g, e.tx = .own id g ∧ id < e.opened ∧
    (st.active = true → e.generation = g ∧ id ∉ e.finished) ∧ (st.active = false → id ∈ e.finished)

theorem stands_silent : Silent Stands := fun _ _ _ _ _ h =>
  { dirty := h.dirty, autoDdl := h.autoDdl, finished := h.finished, tx := h.tx }

/-- A call leaves the variables alone. -/
theorem Stands.called {st : Standing} (h : Stands e st) (calls : List (Call × Bool)) :
    Stands { e with calls := calls } st :=
  { dirty := h.dirty, autoDdl := h.autoDdl, finished := h.finished, tx := h.tx }

theorem Stands.assertActive {st : Standing} (h : Stands e st) (hactive : st.active = true) :
    e.tx.assertActive e = .ok () := by
  obtain ⟨id, g, htx, -, hid, -⟩ := h.tx
  rw [htx]
  exact assertActive_own.mpr (hid hactive)

theorem Stands.assertActive_error {st : Standing} (h : Stands e st) (hactive : st.active = false) :
    ∃ err, e.tx.assertActive e = .error err := by
  obtain ⟨id, g, htx, -, -, hid⟩ := h.tx
  rw [htx]
  exact ScriptTrace.assertActive_error (hid hactive)

theorem Stands.isFinished {st : Standing} (h : Stands e st) : e.tx.isFinished e = !st.active := by
  obtain ⟨id, g, htx, -, hactive, hinactive⟩ := h.tx
  rw [htx, ScriptTx.isFinished]
  cases ha : st.active with
  | true => simpa using (hactive ha).2
  | false => simpa using hinactive ha

/-- A commit or a rollback of the transaction held. -/
theorem finish_stands {st : Standing} {c : Call} {answer : Except ScriptFailure Unit} {retain : Bool}
    (h : Stands e st) : wp (do
        invoke c fun e' => do
          e.tx.assertActive e'
          answer
        match e.tx, retain with
        | .own id _, false => modify fun e => { e with finished := id :: e.finished }
        | _, _ => pure () : Script Unit)
      ⟨fun _ e' => (st.active && answer.isOk) = true ∧
          Stands e' (if retain then st else { st with active := false }),
        fun _ e' => (st.active && answer.isOk) = false ∧ Stands e' st, fun _ => False⟩ e := by
  rw [wp_bind]
  cases hactive : st.active with
  | false =>
    obtain ⟨err, herr⟩ := h.assertActive_error hactive
    have hanswer : (do e.tx.assertActive e; answer : Except ScriptFailure Unit) = .error err := by
      rw [herr]
      rfl
    rw [wp_invoke_error hanswer]
    exact ⟨rfl, h.called _⟩
  | true =>
    have hanswer : (do e.tx.assertActive e; answer : Except ScriptFailure Unit) = answer := by
      rw [h.assertActive hactive]
      rfl
    cases answer with
    | error err =>
      rw [wp_invoke_error hanswer]
      exact ⟨rfl, h.called _⟩
    | ok _ =>
      rw [wp_invoke hanswer]
      cases retain with
      | true =>
        obtain ⟨id, g, htx, hrest⟩ := h.tx
        rw [htx]
        exact ⟨rfl, h.dirty, h.autoDdl, h.finished, id, g, rfl, hrest⟩
      | false =>
        obtain ⟨id, g, htx, hid, -⟩ := h.tx
        rw [htx]
        refine ⟨rfl, h.dirty, h.autoDdl, ?_, id, g, rfl, hid, nofun, fun _ => List.mem_cons_self⟩
        intro j hj
        rcases List.mem_cons.mp hj with rfl | hj
        · exact hid
        · exact h.finished j hj

theorem commit_stands {st : Standing} {retain : Bool} (h : Stands e st) (i : Nat) :
    wp (commit w i e.tx retain)
      ⟨fun _ e' => (st.active && (w.answer i .commit).isOk) = true ∧
          Stands e' (if retain then st else { st with active := false }),
        fun _ e' => (st.active && (w.answer i .commit).isOk) = false ∧ Stands e' st,
        fun _ => False⟩ e := finish_stands h

theorem rollback_stands {st : Standing} {retain : Bool} (h : Stands e st) (i : Nat)
    (action : Action) : wp (rollback w i action e.tx retain)
      ⟨fun _ e' => (st.active && (w.answer i action).isOk) = true ∧
          Stands e' (if retain then st else { st with active := false }),
        fun _ e' => (st.active && (w.answer i action).isOk) = false ∧ Stands e' st,
        fun _ => False⟩ e := finish_stands h

/-- A program on the executor's transaction that succeeds or not as `r` says. -/
def Goes (r : Bool × Standing) : Post Executor ScriptFailure Unit :=
  ⟨fun _ e' => r.1 = true ∧ Stands e' r.2, fun _ e' => r.1 = false ∧ Stands e' r.2, fun _ => False⟩

theorem reopen_goes {st : Standing} (h : Stands e { st with active := false }) (i : Nat) :
    wp (reopen w i) (Goes (st.renewed w i)) e := by
  unfold Standing.renewed
  cases ha : w.answer i .start with
  | ok _ =>
    rw [wp_reopen ha, if_pos (by rfl)]
    refine ⟨rfl, rfl, h.autoDdl, fun id hid => Nat.lt_succ_of_lt (h.finished id hid), e.opened,
      e.generation, rfl, Nat.lt_succ_self _, fun _ => ⟨rfl, ?_⟩, nofun⟩
    intro hid
    exact Nat.lt_irrefl _ (h.finished _ hid)
  | error err =>
    rw [if_neg (by exact Bool.false_ne_true)]
    unfold reopen startTransaction
    rw [wp_bind, wp_get]
    show wp ((invoke _ _ >>= _) >>= _) _ e
    rw [wp_bind, wp_bind, wp_invoke_error ha]
    exact ⟨rfl, h.called _⟩

theorem Stands.undirtied {st : Standing} (h : Stands e st) :
    Stands { e with dirty := false } { st with dirty := false } :=
  { dirty := rfl, autoDdl := h.autoDdl, finished := h.finished, tx := h.tx }

theorem renewed_undirtied {st : Standing} {i : Nat} (hok : (st.renewed w i).1 = true) :
    { (st.renewed w i).2 with dirty := false } = (st.renewed w i).2 := by
  unfold Standing.renewed at hok ⊢
  split
  · rfl
  · rename_i hno
    rw [if_neg hno] at hok
    cases hok

/-- A commit or a rollback, and unless it retains, a new transaction. -/
theorem checkpoint_goes {st : Standing} {x : Script Unit} {ok retain : Bool} {i : Nat}
    (hx : wp x ⟨fun _ e' => ok = true ∧ Stands e' (if retain then st else { st with active := false }),
      fun _ e' => ok = false ∧ Stands e' st, fun _ => False⟩ e) :
    wp (do
        x
        if !retain then reopen w i
        modify fun e => { e with dirty := false })
      (Goes (if ok then if retain then (true, { st with dirty := false }) else st.renewed w i
        else (false, st))) e := by
  rw [wp_bind]
  refine wp_mono hx ?_ ?_ fun _ h => h
  · rintro - e₁ ⟨rfl, hstands⟩
    rw [if_pos rfl]
    cases retain with
    | true => exact ⟨rfl, hstands.undirtied⟩
    | false =>
      show wp (do reopen w i; modify fun e => { e with dirty := false } : Script PUnit) _ e₁
      rw [wp_bind]
      refine wp_mono (reopen_goes hstands i) ?_ (fun _ _ h => h) fun _ h => h
      rintro - e₂ ⟨hok, hstands₂⟩
      have hclean := hstands₂.undirtied
      rw [renewed_undirtied hok] at hclean
      exact ⟨hok, hclean⟩
  · rintro err e₁ ⟨rfl, hstands⟩
    exact ⟨rfl, hstands⟩

theorem setTransaction_goes {st : Standing} (h : Stands e st) (i : Nat)
    (options : TransactionOptions) (raw : Text) :
    wp (perScriptCommand w i (.setTransaction options raw))
      (Goes (st.command w i (.setTransaction options raw))) e := by
  unfold perScriptCommand Standing.command
  rw [wp_bind, wp_get]
  dsimp only
  cases hdirty : st.dirty with
  | true =>
    show wp (if e.dirty = true then _ else _) _ e
    rw [if_pos (by rw [h.dirty, hdirty]), if_pos rfl]
    exact ⟨rfl, h⟩
  | false =>
    show wp (if e.dirty = true then _ else _) _ e
    rw [if_neg (by rw [h.dirty, hdirty]; exact Bool.false_ne_true),
      if_neg (by exact Bool.false_ne_true), wp_bind, wp_modify]
    have hstands : Stands { e with txOptions := some options } st :=
      { dirty := h.dirty, autoDdl := h.autoDdl, finished := h.finished, tx := h.tx }
    show wp (do commit w i e.tx false; reopen w i) _ { e with txOptions := some options }
    rw [wp_bind]
    refine wp_mono (@commit_stands _ _ _ false hstands i) ?_ ?_ fun _ h => h
    · rintro - e₁ ⟨hok, hstands₁⟩
      rw [if_pos hok]
      exact reopen_goes hstands₁ i
    · rintro err e₁ ⟨hno, hstands₁⟩
      rw [if_neg (by rw [hno]; exact Bool.false_ne_true)]
      exact ⟨rfl, hstands₁⟩

theorem reconnect_goes {st : Standing} (h : Stands e st) (i : Nat) :
    wp (perScriptCommand w i .reconnect) (Goes (st.command w i .reconnect)) e := by
  -- the transaction is finished, so that the new generation does not matter to it
  have hreconnect : ∀ e₁, Stands e₁ { st with active := false } →
      wp (do reconnect w i; reopen w i) (Goes (if (w.answer i .reconnect).isOk then st.renewed w i
        else (false, { st with active := false }))) e₁ := by
    intro e₁ h₁
    obtain ⟨id, g, htx, hid, -, hfinished⟩ := h₁.tx
    have hran := @reconnect_ran w Stands e₁ { st with active := false } i fun _ _ =>
      ⟨h₁.dirty, h₁.autoDdl, h₁.finished, id, g, htx, hid, nofun, hfinished⟩
    rw [wp_bind]
    refine wp_mono hran ?_ ?_ fun _ h => h
    · rintro - e₂ ⟨⟨hok, h₂⟩, -⟩
      rw [if_pos hok]
      exact reopen_goes h₂ i
    · rintro err e₂ ⟨⟨hno, h₂⟩, -⟩
      have hrefused : (w.answer i .reconnect).isOk = false := hno
      rw [hrefused]
      exact ⟨rfl, h₂⟩
  unfold perScriptCommand Standing.command
  rw [wp_bind, wp_get]
  dsimp only
  show wp (if (!e.tx.isFinished e) = true then _ else _) _ e
  rw [h.isFinished, Bool.not_not]
  cases hactive : st.active with
  | false =>
    rw [if_neg (by exact Bool.false_ne_true), Bool.false_and, if_neg (by exact Bool.false_ne_true)]
    apply hreconnect
    have hst : { st with active := false } = st := by rw [← hactive]
    rw [hst]
    exact h
  | true =>
    rw [if_pos rfl, wp_bind]
    refine wp_mono (@commit_stands _ _ _ false h i) ?_ ?_ fun _ h => h
    · rintro - e₁ ⟨hok, hstands₁⟩
      rw [hactive, Bool.true_and] at hok
      rw [hok]
      exact hreconnect e₁ hstands₁
    · rintro err e₁ ⟨hno, hstands₁⟩
      rw [hactive, Bool.true_and] at hno
      rw [hno]
      exact ⟨rfl, hstands₁⟩

theorem perScriptCommand_goes {st : Standing} (h : Stands e st) (i : Nat) (c : ClientCommand) :
    wp (perScriptCommand w i c) (Goes (st.command w i c)) e := by
  cases c with
  | commit retain =>
    unfold perScriptCommand Standing.command
    rw [wp_bind, wp_get]
    exact checkpoint_goes (commit_stands h i)
  | rollback retain =>
    unfold perScriptCommand Standing.command
    rw [wp_bind, wp_get]
    exact checkpoint_goes (rollback_stands h i .rollback)
  | setTransaction options raw => exact setTransaction_goes h i options raw
  | reconnect => exact reconnect_goes h i
  | setAutoDdl on => exact ⟨rfl, h.dirty, rfl, h.finished, h.tx⟩
  | unsupported reason => exact ⟨rfl, h⟩

theorem Stands.dirtied {st : Standing} (h : Stands e st) :
    Stands { e with dirty := true } { st with dirty := true } :=
  { dirty := rfl, autoDdl := h.autoDdl, finished := h.finished, tx := h.tx }

theorem runSql_stands {st : Standing} (h : Stands e st) (i : Nat) (sql : Text) :
    wp (runSql w (some e.tx) i sql) (Ran Stands e (st.active && (w.statement i).isOk, st)) e := by
  apply runSql_ran _ _ h.called
  · intro hactive tx htx
    rw [← Option.some.inj htx]
    exact h.assertActive hactive
  · intro hinactive
    obtain ⟨err, herr⟩ := h.assertActive_error hinactive
    exact ⟨_, err, rfl, herr⟩

/-- The commit behind a DDL statement. -/
theorem autoDdl_goes {st : Standing} (h : Stands e st) (hactive : st.active = true) (i : Nat) :
    wp (do commit w i e.tx false; reopen w i)
      ⟨fun _ e' => ((w.answer i .commit).isOk && (w.answer i .start).isOk) = true ∧
          Stands e' { st with active := true, dirty := false },
        fun _ _ => ((w.answer i .commit).isOk && (w.answer i .start).isOk) = false,
        fun _ => False⟩ e := by
  rw [wp_bind]
  refine wp_mono (@commit_stands _ _ _ false h i) ?_ ?_ fun _ h => h
  · rintro - e₁ ⟨hok, hstands⟩
    rw [hactive, Bool.true_and] at hok
    rw [hok]
    have hreopen := reopen_goes (w := w) hstands i
    rw [Standing.renewed] at hreopen
    by_cases hstart : (w.answer i .start).isOk = true
    · rw [if_pos hstart] at hreopen
      rw [hstart]
      exact wp_mono hreopen (fun _ _ h => ⟨rfl, h.2⟩) (fun _ _ h => absurd h.1.symm Bool.false_ne_true)
        fun _ h => h
    · rw [if_neg hstart] at hreopen
      rw [Bool.not_eq_true _ |>.mp hstart]
      exact wp_mono hreopen (fun _ _ h => absurd h.1 Bool.false_ne_true) (fun _ _ _ => rfl) fun _ h => h
  · rintro err e₁ ⟨hno, -⟩
    rw [hactive, Bool.true_and] at hno
    rw [hno]
    rfl

theorem perScriptStatement_told {st : Standing} (hreports : Reports parsed vs (account e))
    (h : Stands e st) (hstmt : parsed[vs.length]? = some stmt) :
    wp (perScriptStatement w o stmt vs.length)
      (Told w parsed vs Stands (some (perScriptVerdict w o stmt vs.length st))) e := by
  unfold perScriptStatement perScriptVerdict
  cases hc : stmt.client with
  | some c =>
    apply client_told hreports stands_silent h hstmt
    intro _
    apply command_told _ hreports stands_silent hstmt
    exact Ran.of_keeps (perScriptCommand_keeps _ _) (perScriptCommand_goes h _ c)
  | none =>
    dsimp only
    rw [wp_bind, wp_get]
    show wp (runOne w o stmt vs.length (some e.tx) >>= _) _ e
    rw [wp_bind]
    have hrun := runOne_told (o := o) (runSql_stands (w := w) h vs.length stmt.sql) hreports
      stands_silent hstmt
    generalize hok : (st.active && (w.statement vs.length).isOk) = ok at hrun ⊢
    have hafter : ∀ (P : Account → Prop) (b : Bool), Keeps P (do
        modify fun e => { e with dirty := true }
        let e ← get
        if b && e.autoDdl && stmt.kind == .ddl then
          commit w vs.length e.tx false
          reopen w vs.length) := by
      intro P b
      refine Keeps.bind (Keeps.update fun _ => rfl) fun _ => Keeps.bind Keeps.get fun e' => ?_
      split
      · exact Keeps.bind (commit_keeps _ _ _) fun _ => reopen_keeps _
      · exact Keeps.pure _
    have hverdict : ∃ next, (if (ok && st.autoDdl && stmt.kind == .ddl) = true then
        (true, if ((w.answer vs.length .commit).isOk && (w.answer vs.length .start).isOk) = true then
          some { st with active := true, dirty := false } else none)
        else reported o (ok, { st with dirty := true })) = (ok, next) := by
      cases ok with
      | true =>
        split
        · exact ⟨_, rfl⟩
        · exact ⟨_, rfl⟩
      | false => exact ⟨_, rfl⟩
    refine wp_mono hrun ?_ ?_ fun _ h => h
    · rintro b e₁ (⟨hclear, hb⟩ | hbroken)
      · obtain rfl : ok = b := hb.symm
        have hdirtied := hclear.inv.dirtied
        show wp (if (ok && e₁.autoDdl && stmt.kind == .ddl) = true
          then (do commit w vs.length e₁.tx false; reopen w vs.length) else pure ()) _
          { e₁ with dirty := true }
        have hauto : e₁.autoDdl = st.autoDdl := hclear.inv.autoDdl
        by_cases hddl : (ok && st.autoDdl && stmt.kind == .ddl) = true
        · obtain ⟨⟨rfl, -⟩, -⟩ : (ok = true ∧ st.autoDdl = true) ∧ (stmt.kind == .ddl) = true := by
            simpa using hddl
          have hactive : st.active = true := (Bool.and_eq_true _ _ ▸ hok).1
          rw [if_pos hddl, if_pos (by rw [hauto]; exact hddl)]
          have hkeeps : Keeps (· = account e₁) (do commit w vs.length e₁.tx false; reopen w vs.length) :=
            Keeps.bind (commit_keeps _ _ _) fun _ => reopen_keeps _
          refine wp_mono (wp_and (autoDdl_goes hdirtied hactive vs.length)
            (hkeeps { e₁ with dirty := true } rfl)) ?_ ?_ fun _ h => h.1
          · rintro _ e₂ ⟨⟨hanswers, hstands⟩, haccount⟩
            have hreports₂ : Reports parsed (vs ++ [true]) (account e₂) := by
              rw [haccount]
              exact hclear.reports
            rw [if_pos hanswers]
            exact .inl ⟨true, _, rfl, hreports₂, hstands, hclear.quiet⟩
          · rintro err e₂ ⟨hno, haccount⟩
            have hreports₂ : Reports parsed (vs ++ [true]) (account e₂) := by
              rw [haccount]
              exact hclear.reports
            rw [hno]
            exact .inr (.inl ⟨true, none, rfl, hreports₂, .inl ⟨hclear.quiet, rfl⟩⟩)
        · rw [if_neg hddl, if_neg (by rw [hauto]; exact hddl)]
          refine .inl ⟨ok, _, ?_, hclear.reports, hdirtied, hclear.quiet⟩
          rw [reported, if_pos hclear.goes]
      · obtain ⟨next, hnext⟩ := hverdict
        rw [hnext]
        exact wp_mono (hafter Doubled b e₁ hbroken.doubled) (fun _ _ h => .inr (hbroken.broken h))
          (fun _ _ h => .inr (.inr (hbroken.broken h))) fun _ h => h
    · rintro err e₁ (hstopped | hbroken)
      · obtain rfl : ok = false := hstopped.failed
        show (Told w parsed vs Stands (some (false, _))).error err e₁
        apply hstopped.last rfl
        intro hc
        exact if_neg (by simpa using hc)
      · obtain ⟨next, hnext⟩ := hverdict
        rw [hnext]
        exact .inr (.inr (hbroken.broken hbroken.doubled))

end Statement

/-! ### The whole script -/

section Run

variable {w : World} {o : ExecuteScriptOptions} {parsed : List ParsedStatement}
  {step : ParsedStatement → Nat → Standing → Option (Bool × Option Standing)}

theorem unbroken_of_quiet {own : List Bool} (h : ∀ m < own.length, w.progress m = .ok ()) :
    Unbroken w own := by
  intro n _ hn
  exact h n (List.getElem?_eq_some_iff.mp hn).1

/-- The first report that throws is that of a failure. -/
theorem unbroken_of_failure {vs more : List Bool} (hthrows : w.progress vs.length ≠ .ok ())
    (hquiet : ∀ m < vs.length, w.progress m = .ok ()) : Unbroken w (vs ++ false :: more) := by
  intro n hbefore hn
  rcases Nat.lt_trichotomy n vs.length with hlt | rfl | hgt
  · exact hquiet n hlt
  · rw [List.getElem?_append_right (Nat.le_refl _), Nat.sub_self] at hn
    cases hn
  · exact absurd (hbefore _ hgt) hthrows

theorem broken_of_success {vs more : List Bool} (hthrows : w.progress vs.length ≠ .ok ())
    (hquiet : ∀ m < vs.length, w.progress m = .ok ()) : ¬ Unbroken w (vs ++ true :: more) := by
  intro h
  apply hthrows (h vs.length hquiet _)
  rw [List.getElem?_append_right (Nat.le_refl _), Nat.sub_self]
  rfl

/-- A script has ended early, against the verdicts `own`. -/
def Ends (w : World) (parsed : List ParsedStatement) (own : List Bool) (a : Account) : Prop :=
  (∃ told, told <+: own ∧ Reports parsed told a ∧ Unbroken w own) ∨ (Doubled a ∧ ¬ Unbroken w own)

/-- What a script comes to, against the verdicts `own`. -/
def Settled (w : World) (parsed : List ParsedStatement) (own : List Bool) :
    Post Executor ScriptFailure Unit where
  ok _ e := (Reports parsed own (account e) ∧ own.length = parsed.length ∧ Unbroken w own) ∨
    (Doubled (account e) ∧ ¬ Unbroken w own)
  error _ e := Ends w parsed own (account e)
  pending _ := False

theorem verdictsFrom_cons {i : Nat} {st : Standing} {stmt : ParsedStatement} {ok : Bool}
    {next : Option Standing} (h : step stmt i st = some (ok, next)) (rest : List ParsedStatement) :
    ∃ more, verdictsFrom step i st (stmt :: rest) = ok :: more ∧
      (next = none → more = []) ∧
      ∀ st', next = some st' → more = verdictsFrom step (i + 1) st' rest := by
  rw [verdictsFrom, h]
  cases next with
  | none => exact ⟨_, rfl, fun _ => rfl, nofun⟩
  | some st' =>
    refine ⟨_, rfl, nofun, ?_⟩
    intro st'' heq
    rw [Option.some.inj heq]

theorem forEach_told {Inv : Executor → Standing → Prop} {body : ParsedStatement → Nat → Script Unit}
    (hbody : ∀ (e : Executor) (vs : List Bool) (stmt : ParsedStatement) (st : Standing),
      Reports parsed vs (account e) → Inv e st → parsed[vs.length]? = some stmt →
        wp (body stmt vs.length) (Told w parsed vs Inv (step stmt vs.length st)) e)
    (hkeeps : ∀ stmt i, Keeps Doubled (body stmt i)) :
    ∀ {rest : List ParsedStatement} {vs : List Bool} {st : Standing} {e : Executor},
      Reports parsed vs (account e) → Inv e st → parsed.drop vs.length = rest →
        (∀ m < vs.length, w.progress m = .ok ()) →
          wp (forEach body vs.length rest)
            (Settled w parsed (vs ++ verdictsFrom step vs.length st rest)) e := by
  intro rest
  induction rest with
  | nil =>
    intro vs st e hreports _ hrest hquiet
    have hle : vs.length ≤ parsed.length := by
      have hlength := congrArg List.length hreports.statements
      rw [List.length_map, hreports.length, List.length_take] at hlength
      omega
    have hge : parsed.length ≤ vs.length := List.drop_eq_nil_iff.mp hrest
    rw [verdictsFrom, List.append_nil]
    exact .inl ⟨hreports, Nat.le_antisymm hle hge, unbroken_of_quiet hquiet⟩
  | cons stmt rest ih =>
    intro vs st e hreports hinv hrest hquiet
    have hstmt : parsed[vs.length]? = some stmt := by
      rw [← List.head?_drop, hrest]
      rfl
    unfold forEach
    rw [wp_bind]
    refine wp_mono (hbody e vs stmt st hreports hinv hstmt) ?_ ?_ fun _ h => h
    · rintro _ e₁ (⟨ok, st', hv, hreports₁, hinv₁, hprogress⟩ | ⟨⟨next, hv⟩, hthrows, hdoubled⟩)
      · -- the script goes on, and so does the trace
        obtain ⟨more, hmore, -, hgoes⟩ := verdictsFrom_cons hv rest
        have hlength : (vs ++ [ok]).length = vs.length + 1 := by simp
        have hrest₁ : parsed.drop (vs ++ [ok]).length = rest := by
          rw [hlength, ← List.tail_drop, hrest]
          rfl
        have hquiet₁ : ∀ m < (vs ++ [ok]).length, w.progress m = .ok () := by
          intro m hm
          rcases Nat.lt_or_eq_of_le (Nat.le_of_lt_succ (hlength ▸ hm)) with hlt | rfl
          · exact hquiet m hlt
          · exact hprogress
        have hnext := ih hreports₁ hinv₁ hrest₁ hquiet₁
        rw [hlength, List.append_assoc, List.singleton_append, ← hgoes st' rfl, ← hmore] at hnext
        exact hnext
      · obtain ⟨more, hmore, -⟩ := verdictsFrom_cons hv rest
        have hbroken := @broken_of_success _ _ more hthrows hquiet
        rw [hmore]
        exact wp_mono (forEach_keeps hkeeps (vs.length + 1) rest e₁ hdoubled)
          (fun _ _ h => .inr ⟨h, hbroken⟩) (fun _ _ h => .inr ⟨h, hbroken⟩) fun _ h => h
    · rintro err e₁ (⟨hv, hreports₁⟩ | ⟨ok, next, hv, hreports₁, hlast⟩ |
        ⟨⟨next, hv⟩, hthrows, hdoubled⟩)
      · have hnone : verdictsFrom step vs.length st (stmt :: rest) = [] := by rw [verdictsFrom, hv]
        rw [hnone, List.append_nil]
        exact .inl ⟨vs, List.prefix_refl _, hreports₁, unbroken_of_quiet hquiet⟩
      · obtain ⟨more, hmore, hends, -⟩ := verdictsFrom_cons hv rest
        rw [hmore]
        refine .inl ⟨vs ++ [ok], ⟨more, by simp⟩, hreports₁, ?_⟩
        rcases hlast with ⟨hprogress, hnone⟩ | ⟨rfl, hthrows⟩
        · rw [hends hnone]
          apply unbroken_of_quiet
          intro m hm
          rw [List.length_append, List.length_singleton] at hm
          rcases Nat.lt_or_eq_of_le (Nat.le_of_lt_succ hm) with hlt | rfl
          · exact hquiet m hlt
          · exact hprogress
        · exact unbroken_of_failure hthrows hquiet
      · obtain ⟨more, hmore, -⟩ := verdictsFrom_cons hv rest
        rw [hmore]
        exact .inr ⟨hdoubled, broken_of_success hthrows hquiet⟩

theorem reports_nil (parsed : List ParsedStatement) : Reports parsed [] ⟨[], 0, 0⟩ :=
  ⟨rfl, rfl, rfl, rfl⟩

theorem doubled_grows : Grows Doubled := fun _ _ h hstarts => h.mono hstarts

/-- A script that has gone through all statements may still end with an error. -/
theorem Settled.ends {own : List Bool} {e : Executor} {u : Unit} (h : (Settled w parsed own).ok u e) :
    Ends w parsed own (account e) :=
  h.imp (fun h => ⟨own, List.prefix_refl _, h.1, h.2.2⟩) id

theorem perScript_told : wp (perScript w o parsed) (Settled w parsed
    (if (w.answer 0 .opening).isOk = false then [] else
      verdictsFrom (verdict w o .perScript) 0 {} parsed)) {} := by
  unfold perScript
  simp only [wp_bind, wp_modify]
  cases hopening : w.answer 0 .opening with
  | error err =>
    unfold startTransaction
    rw [wp_bind, wp_invoke_error hopening, if_pos (by rfl)]
    exact .inl ⟨[], List.prefix_refl _, reports_nil parsed, unbroken_of_quiet (by simp)⟩
  | ok _ =>
    rw [wp_startTransaction hopening, if_neg (by exact Bool.false_ne_true ∘ Eq.symm)]
    dsimp only
    generalize he₀ : ({ ({} : Executor) with
      calls := [(.startTransaction o.transactionOptions, true)], opened := 1, tx := .own 0 0
      txOptions := o.transactionOptions } : Executor) = e₀
    have hstands : Stands e₀ {} := by
      rw [← he₀]
      exact ⟨rfl, rfl, by simp, 0, 0, rfl, Nat.one_pos, fun _ => ⟨rfl, by simp⟩, by simp⟩
    have hreports : Reports parsed [] (account e₀) := by
      rw [← he₀]
      exact reports_nil parsed
    have hrun := @forEach_told w parsed (verdict w o .perScript) Stands (perScriptStatement w o)
      (fun _ _ _ _ hreports hinv hstmt => perScriptStatement_told hreports hinv hstmt)
      (fun stmt i => perScriptStatement_keeps doubled_grows stmt i) parsed [] {} e₀ hreports hstands
      rfl (by simp)
    rw [List.length_nil, List.nil_append] at hrun
    rw [wp_bind, wp_modify]
    show wp (tryCatch
      (do
        forEach (perScriptStatement w o) 0 parsed
        let e ← get
        if !e.tx.isFinished e then commit w parsed.length e.tx false)
      (fun err => do
        let e ← get
        if !e.tx.isFinished e then Async.ignoreErrors (rollback w parsed.length .cleanup e.tx false)
        throw err)) _ _
    rw [he₀, wp_tryCatch, wp_bind]
    have hcleanup : ∀ e₁ err, Ends w parsed (verdictsFrom (verdict w o .perScript) 0 {} parsed)
        (account e₁) → wp (do
          let e ← get
          if !e.tx.isFinished e then Async.ignoreErrors (rollback w parsed.length .cleanup e.tx false)
          throw err : Script Unit)
          (Settled w parsed (verdictsFrom (verdict w o .perScript) 0 {} parsed)) e₁ := by
      intro e₁ err hends
      exact wp_mono (cleanup_throws hends e₁.tx parsed.length err) (fun _ _ h => h.elim)
        (fun _ _ h => h) fun _ h => h
    refine wp_mono hrun ?_ (fun err e₁ h => hcleanup e₁ err h) fun _ h => h
    intro _ e₁ hsettled
    have hlast : Keeps (· = account e₁) (do
        let e ← get
        if !e.tx.isFinished e then commit w parsed.length e.tx false) := by
      refine Keeps.bind Keeps.get fun e => ?_
      split
      · exact commit_keeps _ _ _
      · exact Keeps.pure _
    refine wp_mono (hlast e₁ rfl) ?_ ?_ fun _ h => h
    · intro _ e₂ haccount
      show (Reports parsed _ (account e₂) ∧ _) ∨ (Doubled (account e₂) ∧ _)
      have heq : account e₂ = account e₁ := haccount
      rw [heq]
      exact hsettled
    · intro err e₂ haccount
      apply hcleanup
      have heq : account e₂ = account e₁ := haccount
      rw [heq]
      exact Settled.ends (u := ()) hsettled

/-- The results are returned. -/
theorem collect_told {x : Script Unit} {own : List Bool} {e : Executor}
    (hx : wp x (Settled w parsed own) e) : wp (do
        x
        let e ← get
        return ⟨e.results, e.succeeded, e.failed⟩ : Script ScriptExecutionResult)
      ⟨fun result e' => result = ⟨e'.results, e'.succeeded, e'.failed⟩ ∧
          (Settled w parsed own).ok () e',
        fun _ e' => Ends w parsed own (account e'), fun _ => False⟩ e := by
  rw [wp_bind]
  exact wp_mono hx (fun _ _ h => ⟨rfl, h⟩) (fun _ _ h => h) fun _ h => h

theorem execute_told (mode : TransactionMode) : wp (execute w o mode parsed)
    ⟨fun result e => result = ⟨e.results, e.succeeded, e.failed⟩ ∧ (Settled w parsed
        (if mode = .perScript ∧ (w.answer 0 .opening).isOk = false then [] else
          verdictsFrom (verdict w o mode) 0 {} parsed)).ok () e,
      fun _ e => Ends w parsed
        (if mode = .perScript ∧ (w.answer 0 .opening).isOk = false then [] else
          verdictsFrom (verdict w o mode) 0 {} parsed) (account e), fun _ => False⟩ {} := by
  have hreports := reports_nil parsed
  cases mode with
  | perScript =>
    simp only [true_and]
    exact collect_told perScript_told
  | caller =>
    simp only [reduceCtorEq, false_and, if_false]
    exact collect_told (@forEach_told w parsed (verdict w o .caller) Free (callerStatement w o)
      (fun _ _ _ _ hreports _ hstmt => callerStatement_told hreports hstmt)
      (fun stmt i => callerStatement_keeps doubled_grows stmt i) parsed [] {} {} hreports trivial
      rfl nofun)
  | none =>
    simp only [reduceCtorEq, false_and, if_false]
    exact collect_told (@forEach_told w parsed (verdict w o .none) Free (noneStatement w o)
      (fun _ _ _ _ hreports _ hstmt => noneStatement_told hreports hstmt)
      (fun stmt i => noneStatement_keeps doubled_grows stmt i) parsed [] {} {} hreports trivial
      rfl nofun)
  | perStatement =>
    simp only [reduceCtorEq, false_and, if_false]
    have hrun := @forEach_told w parsed (verdict w o .perStatement) Opened (perStatementStatement w o)
      (fun _ _ _ _ hreports hinv hstmt => perStatementStatement_told hreports hinv hstmt)
      (fun stmt i => perStatementStatement_keeps doubled_grows stmt i) parsed [] {}
      { txOptions := o.transactionOptions } hreports nofun rfl nofun
    have hperStatement : wp (perStatement w o parsed)
        (Settled w parsed (verdictsFrom (verdict w o .perStatement) 0 {} parsed)) {} := by
      unfold perStatement
      rw [wp_bind, wp_modify]
      exact hrun
    exact collect_told hperStatement

end Run

theorem Reports.at {parsed : List ParsedStatement} {told : List Bool} {a : Account}
    (h : Reports parsed told a) {r : StatementResult} (hr : r ∈ a.results) :
    parsed[r.index]? = some r.statement ∧ told[r.index]? = some r.error.isNone := by
  obtain ⟨j, hj, rfl⟩ := List.getElem_of_mem hr
  have hlt : j < told.length := h.length ▸ hj
  have hget : a.results[j]? = some a.results[j] := List.getElem?_eq_getElem hj
  have hindex : a.results[j].index = j := by
    have hmap := congrArg (·[j]?) h.indexes
    simp only [List.getElem?_map, hget, List.getElem?_range hlt] at hmap
    exact Option.some.inj hmap
  have hstatement : parsed[j]? = some a.results[j].statement := by
    have hmap := congrArg (·[j]?) h.statements
    simp only [List.getElem?_map, hget, List.getElem?_take_of_lt hlt] at hmap
    exact hmap.symm
  have houtcome : told[j]? = some a.results[j].error.isNone := by
    have hmap := congrArg (·[j]?) h.outcomes
    simp only [List.getElem?_map, hget] at hmap
    exact hmap.symm
  rw [hindex]
  exact ⟨hstatement, houtcome⟩

/-- What has been reported is a trace, for a script that is rejected. -/
theorem Reports.faithful {parsed : List ParsedStatement} {told own : List Bool} {e : Executor}
    {outcome : Outcome ScriptFailure ScriptExecutionResult} (h : Reports parsed told (account e))
    (hstarts : told <+: own) (hresolved : ∀ result, outcome = .ok result →
      result = ⟨e.results, e.succeeded, e.failed⟩ ∧ told.length = parsed.length) :
    Faithful parsed own (outcome, e) where
  statements r hr := (h.at hr).1
  increasing := by
    have hindexes : e.results.map (·.index) = List.range told.length := h.indexes
    rw [hindexes]
    exact List.pairwise_lt_range
  errors r hr herror := by
    have htold := (h.at hr).2
    have hsome : r.error.isNone = false := by
      cases hr : r.error with
      | none =>
        rw [hr] at herror
        cases herror
      | some err => rfl
    rw [hsome] at htold
    obtain ⟨more, rfl⟩ := hstarts
    rw [List.getElem?_append_left (List.getElem?_eq_some_iff.mp htold).1]
    exact htold
  counted := h.counted
  resolved result hresult := by
    obtain ⟨rfl, hlength⟩ := hresolved result hresult
    refine ⟨rfl, ?_⟩
    rw [← hlength]
    exact h.indexes

theorem Doubled.not_faithful {parsed : List ParsedStatement} {own : List Bool} {e : Executor}
    {outcome : Outcome ScriptFailure ScriptExecutionResult} (h : Doubled (account e)) :
    ¬ Faithful parsed own (outcome, e) := fun hfaithful => h hfaithful.increasing

/-- A script that is not begun. -/
theorem unstarted_traces {parsed : List ParsedStatement} {w : World} {err : ScriptFailure} :
    Faithful parsed [] ((throw err : Script ScriptExecutionResult) {}) ↔ Unbroken w [] :=
  iff_of_true ((reports_nil parsed).faithful (List.prefix_refl _) nofun) (unbroken_of_quiet nofun)

/-- The results of a script are a trace of it exactly if the first call of `onProgress` that throws,
if any does, does not report a success. -/
theorem executeScript_traces (cases : CaseMap) (w : World) (o : ExecuteScriptOptions)
    (script : Text) :
    Faithful (statements o cases script) (verdicts w o cases script) (executeScript cases w o script {})
      ↔ Unbroken w (verdicts w o cases script) := by
  by_cases hoptions : o.transactionOptions.isSome ∧
      (o.transaction.getD .perScript = .none ∨ o.transaction.getD .perScript = .caller)
  · have hverdicts : verdicts w o cases script = [] := if_pos hoptions
    have hthrows : ∃ err, executeScript cases w o script = throw err := by
      unfold executeScript
      dsimp only
      rw [if_pos hoptions.1]
      rcases hoptions.2 with hmode | hmode
      · rw [if_pos hmode]
        exact ⟨_, rfl⟩
      · rw [if_neg (by rw [hmode]; exact nofun), if_pos hmode]
        exact ⟨_, rfl⟩
    obtain ⟨err, hthrow⟩ := hthrows
    rw [hverdicts, hthrow]
    exact unstarted_traces
  have hrun : executeScript cases w o script =
      match parseScript cases script (o.terminator.getD ";".toList) with
      | .error err => throw err.failure
      | .ok parsed => execute w o (o.transaction.getD .perScript) parsed := by
    unfold executeScript
    dsimp only
    split
    · rename_i hsome
      refine Eq.trans (if_neg fun h => hoptions ⟨hsome, .inl h⟩) ?_
      exact if_neg fun h => hoptions ⟨hsome, .inr h⟩
    · rfl
  rw [hrun]
  have hverdicts : verdicts w o cases script =
      if o.transaction.getD .perScript = .perScript ∧ (w.answer 0 .opening).isOk = false then []
      else verdictsFrom (verdict w o (o.transaction.getD .perScript)) 0 {}
        (statements o cases script) := if_neg hoptions
  rw [hverdicts]
  unfold statements
  cases parseScript cases script (o.terminator.getD ";".toList) with
  | error err =>
    have hnil : (if o.transaction.getD .perScript = .perScript ∧
        (w.answer 0 .opening).isOk = false then ([] : List Bool)
        else verdictsFrom (verdict w o (o.transaction.getD .perScript)) 0 {} []) = [] := by
      split
      · rfl
      · rfl
    dsimp only
    rw [hnil]
    exact unstarted_traces
  | ok parsed =>
    dsimp only
    have htold := @execute_told w o parsed (o.transaction.getD .perScript)
    generalize (if o.transaction.getD .perScript = .perScript ∧ (w.answer 0 .opening).isOk = false
      then ([] : List Bool) else verdictsFrom (verdict w o (o.transaction.getD .perScript)) 0 {}
        parsed) = own at htold ⊢
    rcases hr : execute w o (o.transaction.getD .perScript) parsed {} with ⟨result | err | _, e⟩
    · obtain ⟨hresult, ⟨hreports, hlength, hunbroken⟩ | ⟨hdoubled, hbroken⟩⟩ := wp_eq_of_run htold hr
      · refine iff_of_true (hreports.faithful (List.prefix_refl _) ?_) hunbroken
        intro result' heq
        cases heq
        exact ⟨hresult, hlength⟩
      · exact iff_of_false hdoubled.not_faithful hbroken
    · rcases wp_eq_of_run htold hr with ⟨told, hstarts, hreports, hunbroken⟩ | ⟨hdoubled, hbroken⟩
      · exact iff_of_true (hreports.faithful hstarts nofun) hunbroken
      · exact iff_of_false hdoubled.not_faithful hbroken
    · exact (wp_eq_of_run htold hr).elim

/-- The callback throws when the only statement has succeeded, which is then reported again as a
failure; the script resolves. -/
theorem progress_doubles :
    let w := { World.fair with
      progress := fun n => if n = 0 then .error ⟨"stop".toList, none⟩ else .ok () }
    let run := executeScript basicCase w { continueOnError := some true } "delete from t".toList {}
    run.1 = .ok ⟨run.2.results, 1, 1⟩ ∧
      run.2.results.map (fun r => (r.index, r.error.isSome)) = [(0, false), (0, true)] ∧
      ∀ parsed own, ¬ Faithful parsed own run := by
  intro w run
  have hresolves : run.1 = .ok ⟨run.2.results, 1, 1⟩ := by decide +kernel
  have hresults : run.2.results.map (fun r => (r.index, r.error.isSome)) = [(0, false), (0, true)] := by
    decide +kernel
  refine ⟨hresolves, hresults, fun parsed own hfaithful => ?_⟩
  have hindexes : run.2.results.map (·.index) = [0, 0] := by
    have hfirst := congrArg (List.map Prod.fst) hresults
    rw [List.map_map] at hfirst
    exact hfirst
  have hincreasing := hfaithful.increasing
  rw [hindexes] at hincreasing
  exact absurd hincreasing (by decide)

end FastFirebird.ScriptTrace
