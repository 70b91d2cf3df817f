import FastFirebird.Executor
import FastFirebird.LeadingWords

/-! Transaction control never reaches the wire from a script: what the parser lets through is no
transaction control, and the executor runs nothing else. -/
namespace FastFirebird

variable {cases : CaseMap} {w : World} {o : ExecuteScriptOptions}

/-! ### What the parser hands over -/

/-- What the classifier leaves to the server is no transaction control. -/
def ParsedStatement.Guarded (cases : CaseMap) (s : ParsedStatement) : Prop :=
  s.client = none → ¬ TransactionControl cases s.sql

theorem statement_guarded {sql : Text} {p : Position} (h : Lexes sql) :
    (statement cases sql p).Guarded cases := by
  rw [ParsedStatement.Guarded, statement]
  split
  · intro hnone
    cases hnone
  · rename_i hnone
    exact fun _ => classifyClientCommand_none h hnone

theorem parseFrom_guarded : ∀ {fuel : Nat} {terminator : Text} {p : Position} {text : Text}
    {parsed : List ParsedStatement}, parseFrom cases fuel terminator p text = .ok parsed →
      ∀ s ∈ parsed, s.Guarded cases := by
  intro fuel
  induction fuel with
  | zero =>
    intro terminator p text parsed h s hs
    cases h
    cases hs
  | succ fuel ih =>
    intro terminator p text parsed h s hs
    rw [parseFrom] at h
    obtain ⟨⟨p', text'⟩, -, h⟩ := bind_ok h
    dsimp only at h
    split at h
    · cases h
      cases hs
    split at h
    · obtain ⟨⟨terminator', p'', text''⟩, -, h⟩ := bind_ok h
      exact ih h s hs
    · obtain ⟨body, hbody, h⟩ := bind_ok h
      obtain ⟨rest, hrest, h⟩ := bind_ok h
      have hlexes := (scanBody_slice le_rfl hbody).1
      have hparsed := Except.ok.inj h
      split at hparsed
      · rw [← hparsed] at hs
        rcases List.mem_cons.mp hs with rfl | hs
        · exact statement_guarded hlexes.trim
        · exact ih hrest s hs
      · rw [← hparsed] at hs
        exact ih hrest s hs

/-! ### What the executor calls -/

namespace Executor

/-- Every call that has been added meets `P`. -/
def Adds (P : Call → Prop) (e e' : Executor) : Prop := ∀ c ∈ e'.calls, c ∈ e.calls ∨ P c.1

instance (P : Call → Prop) : Async.Frame (Adds P) where
  refl _ _ h := .inl h
  trans h h' c hc := by
    rcases h' c hc with hc | hc
    · exact h c hc
    · exact .inr hc

open Async

variable {P : Call → Prop}

theorem Adds.of_calls {e e' : Executor} (h : e'.calls = e.calls) : Adds P e e' := by
  intro c hc
  exact .inl (h ▸ hc)

theorem push_adds {c : Call} {ok : Bool} (hc : P c) (e : Executor) :
    Adds P e { e with calls := (c, ok) :: e.calls } := by
  intro c' hc'
  rcases List.mem_cons.mp hc' with rfl | hc'
  · exact .inr hc
  · exact .inl hc'

theorem invoke_adds {α : Type} {c : Call} {answer : Executor → Except ScriptFailure α} (hc : P c) :
    Along (Adds P) (invoke c answer) :=
  Along.get.bind fun _ => (Along.update (push_adds hc)).bind fun _ => Along.lift _

theorem update_adds {f : Executor → Executor} (h : ∀ e, (f e).calls = e.calls) :
    Along (Adds P) (modify f : Script PUnit) := Along.update fun e => Adds.of_calls (h e)

theorem report_adds (r : StatementResult) : Along (Adds P) (report w r) := by
  unfold report
  refine Along.bind (update_adds fun _ => rfl) fun _ => ?_
  exact Along.bind Along.get fun _ => Along.lift _

theorem emitOk_adds (stmt : ParsedStatement) (i n m : Nat) :
    Along (Adds P) (emitOk w stmt i n m) := by
  unfold emitOk
  refine Along.bind (update_adds fun _ => rfl) fun _ => ?_
  exact report_adds _

theorem emitError_adds (stmt : ParsedStatement) (i : Nat) (err : ScriptFailure) :
    Along (Adds P) (emitError w o stmt i err) := by
  unfold emitError
  refine Along.bind (update_adds fun _ => rfl) fun _ => ?_
  refine Along.bind (report_adds _) fun _ => ?_
  split
  · exact Along.throw err
  · exact Along.pure _

theorem runOne_adds {stmt : ParsedStatement} {i : Nat} {tx : Option ScriptTx}
    (h : P (.run tx i stmt.sql)) : Along (Adds P) (runOne w o stmt i tx) := by
  unfold runOne
  refine Along.handle ?_ fun err => ?_
  · refine Along.bind (invoke_adds h) fun qr => ?_
    exact Along.bind (emitOk_adds _ _ _ _) fun _ => Along.pure _
  · exact Along.bind (emitError_adds _ _ _) fun _ => Along.pure _

theorem rejectCommon_adds (stmt : ParsedStatement) (i : Nat) (c : ClientCommand) :
    Along (Adds P) (rejectCommon w o stmt i c) := by
  unfold rejectCommon
  split
  · exact Along.bind (emitError_adds _ _ _) fun _ => Along.pure _
  · split
    · exact Along.bind (emitError_adds _ _ _) fun _ => Along.pure _
    · exact Along.pure _

theorem forEach_adds {body : ParsedStatement → Nat → Script Unit} : ∀ {i : Nat}
    {parsed : List ParsedStatement}, (∀ s ∈ parsed, ∀ i, Along (Adds P) (body s i)) →
      Along (Adds P) (forEach body i parsed)
  | _, [], _ => Along.pure _
  | _, _ :: _, h => by
    unfold forEach
    refine Along.bind (h _ List.mem_cons_self _) fun _ => ?_
    exact forEach_adds fun s hs => h s (List.mem_cons_of_mem _ hs)

theorem callerStatement_adds {stmt : ParsedStatement} {i : Nat}
    (h : stmt.client = none → P (.run (some .caller) i stmt.sql)) :
    Along (Adds P) (callerStatement w o stmt i) := by
  unfold callerStatement
  split
  · refine Along.bind (rejectCommon_adds _ _ _) fun rejected => ?_
    split
    · exact Along.pure _
    · exact emitError_adds _ _ _
  · rename_i hnone
    exact Along.bind (runOne_adds (h hnone)) fun _ => Along.pure _

/-! The modes that hold transactions of their own call what they need to. -/

section Own

variable (hown : ∀ c, (∀ tx i sql, c ≠ .run tx i sql) → P c)
include hown

theorem startTransaction_adds (i : Nat) (action : Action) (options : Option TransactionOptions) :
    Along (Adds P) (startTransaction w i action options) := by
  unfold startTransaction
  refine Along.bind (invoke_adds (hown _ (by simp))) fun _ => ?_
  refine Along.bind (update_adds fun _ => rfl) fun _ => ?_
  exact Along.bind Along.get fun _ => Along.pure _

theorem commit_adds (i : Nat) (tx : ScriptTx) (retain : Bool) :
    Along (Adds P) (commit w i tx retain) := by
  unfold commit
  refine Along.bind (invoke_adds (hown _ (by simp))) fun _ => ?_
  split
  · exact update_adds fun _ => rfl
  · exact Along.pure _

theorem rollback_adds (i : Nat) (action : Action) (tx : ScriptTx) (retain : Bool) :
    Along (Adds P) (rollback w i action tx retain) := by
  unfold rollback
  refine Along.bind (invoke_adds (hown _ (by simp))) fun _ => ?_
  split
  · exact update_adds fun _ => rfl
  · exact Along.pure _

theorem reconnect_adds (i : Nat) : Along (Adds P) (reconnect w i) := by
  unfold reconnect
  refine Along.bind (update_adds fun _ => rfl) fun _ => ?_
  exact invoke_adds (hown _ (by simp))

theorem reopen_adds (i : Nat) : Along (Adds P) (reopen w i) := by
  unfold reopen
  refine Along.bind Along.get fun _ => ?_
  refine Along.bind (startTransaction_adds hown _ _ _) fun _ => ?_
  exact update_adds fun _ => rfl

/-- What follows a commit or a rollback. -/
theorem reopened_adds (i : Nat) (retain : Bool) : Along (Adds P) (do
    if !retain then reopen w i
    modify fun e => { e with dirty := false } : Script PUnit) := by
  cases retain with
  | true => exact update_adds fun _ => rfl
  | false =>
    refine Along.bind (reopen_adds hown i) fun _ => ?_
    exact update_adds fun _ => rfl

theorem perScriptCommand_adds (i : Nat) (c : ClientCommand) :
    Along (Adds P) (perScriptCommand w i c) := by
  unfold perScriptCommand
  split
  · refine Along.bind Along.get fun _ => ?_
    exact Along.bind (commit_adds hown _ _ _) fun _ => reopened_adds hown _ _
  · refine Along.bind Along.get fun _ => ?_
    exact Along.bind (rollback_adds hown _ _ _ _) fun _ => reopened_adds hown _ _
  · refine Along.bind Along.get fun e => ?_
    dsimp only
    split
    · exact Along.throw _
    · refine Along.bind (update_adds fun _ => rfl) fun _ => ?_
      refine Along.bind Along.get fun _ => ?_
      exact Along.bind (commit_adds hown _ _ _) fun _ => reopen_adds hown _
  · refine Along.bind Along.get fun e => ?_
    dsimp only
    split
    · refine Along.bind (commit_adds hown _ _ _) fun _ => ?_
      exact Along.bind (reconnect_adds hown _) fun _ => reopen_adds hown _
    · exact Along.bind (reconnect_adds hown _) fun _ => reopen_adds hown _
  · exact update_adds fun _ => rfl
  · exact Along.pure _

omit hown in
/-- The branch of a client command that the mode has not rejected. -/
theorem command_adds {command : Script Unit} {stmt : ParsedStatement} {i : Nat}
    (h : Along (Adds P) command) : Along (Adds P)
      (tryCatch (do command; emitOk w stmt i 0 0) (emitError w o stmt i)) := by
  refine Along.handle ?_ fun err => ?_
  · exact Along.bind h fun _ => emitOk_adds _ _ _ _
  · exact emitError_adds _ _ _

theorem perScriptStatement_adds {stmt : ParsedStatement} {i : Nat}
    (h : stmt.client = none → ∀ tx, P (.run tx i stmt.sql)) :
    Along (Adds P) (perScriptStatement w o stmt i) := by
  unfold perScriptStatement
  split
  · refine Along.bind (rejectCommon_adds _ _ _) fun rejected => ?_
    split
    · exact Along.pure _
    · exact command_adds (perScriptCommand_adds hown _ _)
  · rename_i hnone
    refine Along.bind Along.get fun e => ?_
    refine Along.bind (runOne_adds (h hnone _)) fun ok => ?_
    refine Along.bind (update_adds fun _ => rfl) fun _ => ?_
    refine Along.bind Along.get fun e => ?_
    split
    · exact Along.bind (commit_adds hown _ _ _) fun _ => reopen_adds hown _
    · exact Along.pure _

theorem perScript_adds {parsed : List ParsedStatement}
    (h : ∀ s ∈ parsed, s.client = none → ∀ tx i, P (.run tx i s.sql)) :
    Along (Adds P) (perScript w o parsed) := by
  unfold perScript
  refine Along.bind (update_adds fun _ => rfl) fun _ => ?_
  refine Along.bind (startTransaction_adds hown _ _ _) fun tx => ?_
  refine Along.bind (update_adds fun _ => rfl) fun _ => ?_
  refine Along.handle ?_ fun err => ?_
  · refine Along.bind (forEach_adds fun s hs i => ?_) fun _ => ?_
    · exact perScriptStatement_adds hown fun hnone tx => h s hs hnone tx i
    · refine Along.bind Along.get fun e => ?_
      split
      · exact commit_adds hown _ _ _
      · exact Along.pure _
  · refine Along.bind Along.get fun e => ?_
    dsimp only
    split
    · refine Along.bind ?_ fun _ => Along.throw err
      exact Along.handle (rollback_adds hown _ _ _ _) fun _ => Along.pure _
    · exact Along.throw err

theorem perStatementStatement_adds {stmt : ParsedStatement} {i : Nat}
    (h : stmt.client = none → ∀ tx, P (.run tx i stmt.sql)) :
    Along (Adds P) (perStatementStatement w o stmt i) := by
  unfold perStatementStatement
  split
  · refine Along.bind (rejectCommon_adds _ _ _) fun rejected => ?_
    split
    · exact Along.pure _
    · refine Along.handle ?_ fun err => emitError_adds _ _ _
      split
      · exact Along.bind (reconnect_adds hown _) fun _ => emitOk_adds _ _ _ _
      · exact Along.bind (update_adds fun _ => rfl) fun _ => emitOk_adds _ _ _ _
      · exact emitOk_adds _ _ _ _
  · rename_i hnone
    refine Along.bind Along.get fun e => ?_
    refine Along.bind (startTransaction_adds hown _ _ _) fun tx => ?_
    refine Along.bind (Along.attempt (runOne_adds (h hnone _))) fun ran => ?_
    refine Along.bind Along.get fun e => ?_
    dsimp only
    split
    · split
      · exact commit_adds hown _ _ _
      · exact Along.pure _
    · split
      · refine Along.bind ?_ fun _ => Along.throw _
        exact Along.handle (rollback_adds hown _ _ _ _) fun _ => Along.pure _
      · exact Along.throw _

theorem noneStatement_adds {stmt : ParsedStatement} {i : Nat}
    (h : stmt.client = none → ∀ tx, P (.run tx i stmt.sql)) :
    Along (Adds P) (noneStatement w o stmt i) := by
  unfold noneStatement
  split
  · refine Along.bind (rejectCommon_adds _ _ _) fun rejected => ?_
    split
    · exact Along.pure _
    · split
      · exact emitError_adds _ _ _
      · refine Along.handle ?_ fun err => emitError_adds _ _ _
        split
        · exact Along.bind (reconnect_adds hown _) fun _ => emitOk_adds _ _ _ _
        · exact emitOk_adds _ _ _ _
  · rename_i hnone
    exact Along.bind (runOne_adds (h hnone _)) fun _ => Along.pure _

end Own

end Executor

open Executor Async

/-- Whatever holds of the guarded statements' runs, and of the other calls unless the transaction is
the caller's, holds of every call. -/
theorem execute_adds {P : Call → Prop} {parsed : List ParsedStatement} {mode : TransactionMode}
    (hrun : ∀ s ∈ parsed, s.client = none → ∀ tx i, (mode = .caller → tx = some .caller) →
      P (.run tx i s.sql))
    (hown : mode ≠ .caller → ∀ c, (∀ tx i sql, c ≠ .run tx i sql) → P c) :
    Along (Adds P) (execute w o mode parsed) := by
  have hdone : Along (Adds P) (do
      let e ← get
      return ⟨e.results, e.succeeded, e.failed⟩ : Script ScriptExecutionResult) :=
    Along.bind Along.get fun _ => Along.pure _
  have hserver : mode ≠ .caller → ∀ s ∈ parsed, s.client = none → ∀ tx i, P (.run tx i s.sql) :=
    fun hmode s hs hnone tx i => hrun s hs hnone tx i fun h => absurd h hmode
  unfold execute
  cases mode with
  | perScript =>
    exact Along.bind (perScript_adds (hown (by simp)) (hserver (by simp))) fun _ => hdone
  | perStatement =>
    refine Along.bind ?_ fun _ => hdone
    refine Along.bind (update_adds fun _ => rfl) fun _ => ?_
    refine forEach_adds fun s hs i => ?_
    exact perStatementStatement_adds (hown (by simp)) fun hnone tx =>
      hserver (by simp) s hs hnone tx i
  | none =>
    refine Along.bind (forEach_adds fun s hs i => ?_) fun _ => hdone
    exact noneStatement_adds (hown (by simp)) fun hnone tx => hserver (by simp) s hs hnone tx i
  | caller =>
    refine Along.bind (forEach_adds fun s hs i => ?_) fun _ => hdone
    exact callerStatement_adds fun hnone => hrun s hs hnone (some .caller) i fun _ => rfl

theorem executeScript_adds {P : Call → Prop} (script : Text)
    (hrun : ∀ tx i sql, ¬ TransactionControl cases sql →
      (o.transaction = some .caller → tx = some .caller) → P (.run tx i sql))
    (hown : o.transaction ≠ some .caller → ∀ c, (∀ tx i sql, c ≠ .run tx i sql) → P c) :
    Along (Adds P) (executeScript cases w o script) := by
  have hmode : o.transaction = some .caller → o.transaction.getD .perScript = .caller := by
    intro h
    rw [h]
    rfl
  -- the options are checked before the script's parse is looked at
  have hexecute : ∀ parsed, parseScript cases script (o.terminator.getD ";".toList) = .ok parsed →
      Along (Adds P) (execute w o (o.transaction.getD .perScript) parsed) := by
    intro parsed hparsed
    apply execute_adds
    · intro s hs hnone tx i htx
      exact hrun tx i s.sql (parseFrom_guarded hparsed s hs hnone) fun h => htx (hmode h)
    · exact fun hne => hown fun h => hne (hmode h)
  unfold executeScript
  cases hparsed : parseScript cases script (o.terminator.getD ";".toList) with
  | error err =>
    dsimp only
    split
    · split
      · exact Along.throw _
      · split
        · exact Along.throw _
        · exact Along.throw _
    · exact Along.throw _
  | ok parsed =>
    dsimp only
    split
    · split
      · exact Along.throw _
      · split
        · exact Along.throw _
        · exact hexecute parsed hparsed
    · exact hexecute parsed hparsed

/-- No transaction control reaches the wire, and on the caller's transaction the executor only
runs statements. -/
theorem script_never_controls_transaction (cases : CaseMap) (w : World) (o : ExecuteScriptOptions)
    (script : Text) :
    (∀ tx i sql ok, (Call.run tx i sql, ok) ∈ (executeScript cases w o script {}).2.calls →
      ¬ TransactionControl cases sql) ∧
    (o.transaction = some .caller → ∀ c ∈ (executeScript cases w o script {}).2.calls,
      ∀ tx retain, c.1 ≠ .commit tx retain ∧ c.1 ≠ .rollback tx retain ∧ c.1 ≠ .restart tx ∧
        c.1 ≠ .reconnect) := by
  constructor
  · intro tx i sql ok hc
    have h := executeScript_adds (P := fun c => ∀ tx i sql, c = .run tx i sql →
      ¬ TransactionControl cases sql) (w := w) (o := o) script ?_ ?_ {} _ hc
    · rcases h with h | h
      · cases h
      · exact h tx i sql rfl
    · rintro tx i sql hsql - tx' i' sql' heq
      cases heq
      exact hsql
    · intro _ c hc tx i sql heq
      exact absurd heq (hc tx i sql)
  · intro hmode c hc tx retain
    have h := executeScript_adds (P := fun c => ∃ i sql, c = .run (some .caller) i sql)
      (w := w) (o := o) script ?_ ?_ {} _ hc
    · rcases h with h | ⟨i, sql, h⟩
      · cases h
      · rw [h]
        simp
    · intro tx i sql _ htx
      rw [htx hmode]
      exact ⟨i, sql, rfl⟩
    · exact fun hne => absurd hmode hne

theorem script_never_controls_transaction_caller :
    let o : ExecuteScriptOptions := { transaction := some .caller, continueOnError := some true }
    let script := "Commit;delete from t;/**/Rollback;rollback to s".toList
    let calls := (executeScript basicCase World.fair o script {}).2.calls
    calls = [(.run (some .caller) 3 "rollback to s".toList, true),
      (.run (some .caller) 1 "delete from t".toList, true)] ∧
    (∀ tx i sql ok, (Call.run tx i sql, ok) ∈ calls → ¬ TransactionControl basicCase sql) ∧
    ∀ c ∈ calls, ∀ tx retain, c.1 ≠ .commit tx retain ∧ c.1 ≠ .rollback tx retain ∧
      c.1 ≠ .restart tx ∧ c.1 ≠ .reconnect :=
  ⟨by decide +kernel,
    (script_never_controls_transaction basicCase World.fair _ _).1,
    (script_never_controls_transaction basicCase World.fair _ _).2 rfl⟩

end FastFirebird
