import FastFirebird.Executor

/-! What the executor's calls leave behind, as rules for the programs built from them. -/
namespace FastFirebird.Executor

open Async

variable {w : World} {o : ExecuteScriptOptions} {e : Executor} {i : Nat}

theorem wp_invoke {α : Type} {c : Call} {answer : Executor → Except ScriptFailure α} {a : α}
    {Q : Post Executor ScriptFailure α} (h : answer e = .ok a) :
    wp (invoke c answer) Q e ↔ Q.ok a { e with calls := (c, true) :: e.calls } := by
  unfold invoke
  simp only [wp_bind, wp_get, wp_modify, h]
  exact Iff.rfl

theorem wp_invoke_error {α : Type} {c : Call} {answer : Executor → Except ScriptFailure α}
    {err : ScriptFailure} {Q : Post Executor ScriptFailure α} (h : answer e = .error err) :
    wp (invoke c answer) Q e ↔ Q.error err { e with calls := (c, false) :: e.calls } := by
  unfold invoke
  simp only [wp_bind, wp_get, wp_modify, h]
  exact Iff.rfl

/-- The state behind a commit or a rollback of the transaction held. -/
def finishedBy (e : Executor) (c : Call) (id : Nat) : Executor :=
  { e with calls := (c, true) :: e.calls, finished := id :: e.finished }

/-- The state behind a new transaction. -/
def reopened (e : Executor) : Executor :=
  { e with
    calls := (.startTransaction e.txOptions, true) :: e.calls, opened := e.opened + 1
    tx := .own e.opened e.generation, dirty := false }

theorem wp_commit {id g : Nat} {retain : Bool} {Q : Post Executor ScriptFailure Unit}
    (ha : w.answer i .commit = .ok ()) (h : (ScriptTx.own id g).assertActive e = .ok ()) :
    wp (commit w i (.own id g) retain) Q e ↔ Q.ok ()
      (if retain then { e with calls := (.commit (.own id g) retain, true) :: e.calls }
      else finishedBy e (.commit (.own id g) retain) id) := by
  have hanswer : (do (ScriptTx.own id g).assertActive e; w.answer i .commit :
      Except ScriptFailure Unit) = .ok () := by
    rw [h, ha]
    rfl
  unfold commit
  rw [wp_bind, wp_invoke hanswer]
  cases retain with
  | true => exact Iff.rfl
  | false => exact Iff.rfl

theorem wp_commit_error {id g : Nat} {retain : Bool} {err : ScriptFailure}
    {Q : Post Executor ScriptFailure Unit} (ha : w.answer i .commit = .error err)
    (h : (ScriptTx.own id g).assertActive e = .ok ()) :
    wp (commit w i (.own id g) retain) Q e ↔
      Q.error err { e with calls := (.commit (.own id g) retain, false) :: e.calls } := by
  have hanswer : (do (ScriptTx.own id g).assertActive e; w.answer i .commit :
      Except ScriptFailure Unit) = .error err := by
    rw [h, ha]
    rfl
  unfold commit
  rw [wp_bind, wp_invoke_error hanswer]

theorem wp_rollback {id g : Nat} {action : Action} {retain : Bool}
    {Q : Post Executor ScriptFailure Unit} (ha : w.answer i action = .ok ())
    (h : (ScriptTx.own id g).assertActive e = .ok ()) :
    wp (rollback w i action (.own id g) retain) Q e ↔ Q.ok ()
      (if retain then { e with calls := (.rollback (.own id g) retain, true) :: e.calls }
      else finishedBy e (.rollback (.own id g) retain) id) := by
  have hanswer : (do (ScriptTx.own id g).assertActive e; w.answer i action :
      Except ScriptFailure Unit) = .ok () := by
    rw [h, ha]
    rfl
  unfold rollback
  rw [wp_bind, wp_invoke hanswer]
  cases retain with
  | true => exact Iff.rfl
  | false => exact Iff.rfl

theorem wp_startTransaction {action : Action} {options : Option TransactionOptions}
    {Q : Post Executor ScriptFailure ScriptTx} (ha : w.answer i action = .ok ()) :
    wp (startTransaction w i action options) Q e ↔ Q.ok (.own e.opened e.generation)
      { e with calls := (.startTransaction options, true) :: e.calls, opened := e.opened + 1 } := by
  unfold startTransaction
  rw [wp_bind, wp_invoke ha]
  exact Iff.rfl

theorem wp_reopen {Q : Post Executor ScriptFailure Unit} (ha : w.answer i .start = .ok ()) :
    wp (reopen w i) Q e ↔ Q.ok () (reopened e) := by
  unfold reopen
  simp only [wp_bind, wp_get, wp_startTransaction ha, wp_modify]
  exact Iff.rfl

theorem wp_reconnect {Q : Post Executor ScriptFailure Unit} (ha : w.answer i .reconnect = .ok ()) :
    wp (reconnect w i) Q e ↔ Q.ok ()
      { e with generation := e.generation + 1, calls := (.reconnect, true) :: e.calls } := by
  unfold reconnect
  rw [wp_bind, wp_modify]
  exact wp_invoke ha

theorem wp_reconnect_error {err : ScriptFailure} {Q : Post Executor ScriptFailure Unit}
    (ha : w.answer i .reconnect = .error err) : wp (reconnect w i) Q e ↔ Q.error err
      { e with generation := e.generation + 1, calls := (.reconnect, false) :: e.calls } := by
  unfold reconnect
  rw [wp_bind, wp_modify]
  exact wp_invoke_error ha

theorem wp_report {r : StatementResult} {Q : Post Executor ScriptFailure Unit}
    (hp : w.progress e.results.length = .ok ()) :
    wp (report w r) Q e ↔ Q.ok () { e with results := e.results ++ [r] } := by
  have hlen : (e.results ++ [r]).length - 1 = e.results.length := by
    rw [List.length_append]
    rfl
  unfold report
  simp only [wp_bind, wp_get, wp_modify, hlen, hp]
  exact Iff.rfl

/-- What every mode rejects. -/
def Rejected (o : ExecuteScriptOptions) (c : ClientCommand) : Prop :=
  (∃ reason, c = .unsupported reason) ∨ o.clientCommands = some .error

theorem rejectCommon_passes {stmt : ParsedStatement} {i : Nat} {c : ClientCommand}
    (hc : ¬ Rejected o c) : rejectCommon w o stmt i c = pure false := by
  have hoptions : ¬ o.clientCommands = some .error := fun h => hc (.inr h)
  cases c with
  | unsupported reason => exact absurd (.inl ⟨reason, rfl⟩) hc
  | commit retain => exact if_neg hoptions
  | rollback retain => exact if_neg hoptions
  | reconnect => exact if_neg hoptions
  | setAutoDdl on => exact if_neg hoptions
  | setTransaction options raw => exact if_neg hoptions

theorem rejectCommon_rejects {stmt : ParsedStatement} {i : Nat} {c : ClientCommand}
    (hc : Rejected o c) : ∃ why, rejectCommon w o stmt i c =
      (do emitError w o stmt i why; return true) := by
  cases c with
  | unsupported reason => exact ⟨_, rfl⟩
  | commit retain => exact ⟨_, if_pos (hc.resolve_left (by simp))⟩
  | rollback retain => exact ⟨_, if_pos (hc.resolve_left (by simp))⟩
  | reconnect => exact ⟨_, if_pos (hc.resolve_left (by simp))⟩
  | setAutoDdl on => exact ⟨_, if_pos (hc.resolve_left (by simp))⟩
  | setTransaction options raw => exact ⟨_, if_pos (hc.resolve_left (by simp))⟩

end FastFirebird.Executor
