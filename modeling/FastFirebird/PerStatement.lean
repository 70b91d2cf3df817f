import FastFirebird.ExecutorRules

/-! In mode `perStatement` with `continueOnError`: when the reported outcomes are those of the
transactions. -/
namespace FastFirebird

/-- The transactions a statement ran in. -/
def RanIn (calls : List (Call × Bool)) (i : Nat) (tx : ScriptTx) : Prop :=
  ∃ sql ok, (Call.run (some tx) i sql, ok) ∈ calls

def Committed (calls : List (Call × Bool)) (tx : ScriptTx) : Prop :=
  (Call.commit tx false, true) ∈ calls

def RolledBack (calls : List (Call × Bool)) (tx : ScriptTx) : Prop :=
  (Call.rollback tx false, true) ∈ calls

/-- One result for each statement, in order; a server statement is reported without an error
exactly if its transaction was committed, and the transaction of a failed one was rolled back. -/
structure Truthful (calls : List (Call × Bool)) (parsed : List ParsedStatement)
    (results : List StatementResult) : Prop where
  statements : results.map (·.statement) = parsed
  order : results.map (·.index) = List.range parsed.length
  outcome : ∀ r ∈ results, r.statement.client = none → ∃ tx, RanIn calls r.index tx ∧
    (r.error = none ↔ Committed calls tx) ∧ (r.error ≠ none → RolledBack calls tx)

/-- Every server statement succeeds, and so does the commit of its transaction. -/
def World.Smooth (w : World) (parsed : List ParsedStatement) : Prop :=
  ∀ i stmt, parsed[i]? = some stmt → stmt.client = none →
    (w.statement i).isOk = true ∧ (w.answer i .commit).isOk = true

namespace Executor

open Async

variable {w : World} {o : ExecuteScriptOptions} {e : Executor}

/-- What the statements from the `i`-th on have added, once all of them are done. -/
structure Done (w : World) (e e' : Executor) (i : Nat) (rest : List ParsedStatement) : Prop where
  results : ∃ new, e'.results = e.results ++ new ∧ new.map (·.statement) = rest ∧
    new.map (·.index) = List.range' i rest.length ∧
    ∀ r ∈ new, r.statement.client = none →
      (r.error = none ↔ (w.statement r.index).isOk = true) ∧ ∃ tx, RanIn e'.calls r.index tx
  kept : ∀ c ∈ e.calls, c ∈ e'.calls
  committed : ∀ j tx, RanIn e'.calls j tx → RanIn e.calls j tx ∨ Committed e'.calls tx
  commits : ∀ j stmt, rest[j]? = some stmt → stmt.client = none →
    (w.answer (i + j) .commit).isOk = true
  finished : ∀ id ∈ e'.finished, id < e'.opened

/-- The commit of a server statement's transaction is refused. -/
def Refused (w : World) (i : Nat) (rest : List ParsedStatement) : Prop :=
  ∃ j stmt, rest[j]? = some stmt ∧ stmt.client = none ∧ (w.answer (i + j) .commit).isOk = false

variable (hcontinue : o.continueOnError = some true) (hprogress : ∀ n, w.progress n = .ok ())

include hprogress in
theorem wp_emitOk {stmt : ParsedStatement} {i n m : Nat} {Q : Post Executor ScriptFailure Unit} :
    wp (emitOk w stmt i n m) Q e ↔ Q.ok ()
      { e with
        succeeded := e.succeeded + 1
        results := e.results ++ [{ statement := stmt, index := i, rowsAffected := n, rowCount := m }] } := by
  unfold emitOk
  rw [wp_bind, wp_modify]
  exact wp_report (hprogress _)

include hcontinue hprogress in
theorem wp_emitError {stmt : ParsedStatement} {i : Nat} {err : ScriptFailure}
    {Q : Post Executor ScriptFailure Unit} :
    wp (emitError w o stmt i err) Q e ↔ Q.ok ()
      { e with
        failed := e.failed + 1
        results := e.results ++ [{
          statement := stmt, index := i, rowsAffected := 0, rowCount := 0, error := some err
          gdsCode := err.codes.map Prod.fst, sqlState := err.codes.map Prod.snd }] } := by
  unfold emitError
  simp only [wp_bind, wp_modify, wp_report (hprogress _), hcontinue]
  exact Iff.rfl

/-- What a client command adds: its result, and a reconnect at most. -/
structure Quiet (e e' : Executor) (i : Nat) (stmt : ParsedStatement) : Prop where
  results : ∃ r : StatementResult, e'.results = e.results ++ [r] ∧ r.statement = stmt ∧ r.index = i
  kept : ∀ c ∈ e.calls, c ∈ e'.calls
  calls : ∀ c ∈ e'.calls, c ∈ e.calls ∨ c.1 = .reconnect
  finished : e'.finished = e.finished
  opened : e'.opened = e.opened

/-- With the result reported, whatever has been called. -/
theorem Quiet.reported {e₁ e' : Executor} {i : Nat} {stmt : ParsedStatement} {r : StatementResult}
    (hcalls : e₁.calls = e.calls ∨ ∃ ok, e₁.calls = (.reconnect, ok) :: e.calls)
    (hfinished : e₁.finished = e.finished) (hopened : e₁.opened = e.opened)
    (hresults : e₁.results = e.results) (h : e'.calls = e₁.calls ∧ e'.finished = e₁.finished ∧
      e'.opened = e₁.opened ∧ e'.results = e₁.results ++ [r])
    (hr : r.statement = stmt ∧ r.index = i) : Quiet e e' i stmt where
  results := ⟨r, by rw [h.2.2.2, hresults], hr⟩
  kept c hc := by
    rw [h.1]
    rcases hcalls with heq | ⟨ok, heq⟩
    · rwa [heq]
    · rw [heq]
      exact List.mem_cons_of_mem _ hc
  calls c hc := by
    rw [h.1] at hc
    rcases hcalls with heq | ⟨ok, heq⟩
    · exact .inl (heq ▸ hc)
    · rw [heq] at hc
      rcases List.mem_cons.mp hc with rfl | hc
      · exact .inr rfl
      · exact .inl hc
  finished := by rw [h.2.1, hfinished]
  opened := by rw [h.2.2.1, hopened]

include hcontinue hprogress in
theorem client_quiet {i : Nat} {stmt : ParsedStatement} {c : ClientCommand}
    (hc : stmt.client = some c) : wp (perStatementStatement w o stmt i)
      ⟨fun _ e' => Quiet e e' i stmt, fun _ _ => False, fun _ => False⟩ e := by
  have hok : ∀ e₁ : Executor,
      (e₁.calls = e.calls ∨ ∃ ok, e₁.calls = (.reconnect, ok) :: e.calls) →
      e₁.finished = e.finished → e₁.opened = e.opened → e₁.results = e.results →
        wp (emitOk w stmt i 0 0) ⟨fun _ e' => Quiet e e' i stmt,
          fun err => wp (emitError w o stmt i err)
            ⟨fun _ e' => Quiet e e' i stmt, fun _ _ => False, fun _ => False⟩,
          fun _ => False⟩ e₁ := by
    intro e₁ hcalls hfinished hopened hresults
    rw [wp_emitOk hprogress]
    exact Quiet.reported hcalls hfinished hopened hresults ⟨rfl, rfl, rfl, rfl⟩ ⟨rfl, rfl⟩
  have herror : ∀ (e₁ : Executor) (err : ScriptFailure),
      (e₁.calls = e.calls ∨ ∃ ok, e₁.calls = (.reconnect, ok) :: e.calls) →
      e₁.finished = e.finished → e₁.opened = e.opened → e₁.results = e.results →
        wp (emitError w o stmt i err) ⟨fun _ e' => Quiet e e' i stmt, fun _ _ => False,
          fun _ => False⟩ e₁ := by
    intro e₁ err hcalls hfinished hopened hresults
    rw [wp_emitError hcontinue hprogress]
    exact Quiet.reported hcalls hfinished hopened hresults ⟨rfl, rfl, rfl, rfl⟩ ⟨rfl, rfl⟩
  unfold perStatementStatement
  rw [hc]
  dsimp only
  by_cases hreject : Rejected o c
  · obtain ⟨why, hwhy⟩ := @rejectCommon_rejects w _ stmt i _ hreject
    rw [hwhy, wp_bind, wp_bind]
    exact herror e why (.inl rfl) rfl rfl rfl
  · rw [rejectCommon_passes hreject]
    show wp (tryCatch _ _) _ _
    rw [wp_tryCatch]
    split
    · rw [wp_bind]
      cases ha : w.answer i .reconnect with
      | ok _ =>
        rw [wp_reconnect ha]
        exact hok _ (.inr ⟨true, rfl⟩) rfl rfl rfl
      | error err =>
        rw [wp_reconnect_error ha]
        exact herror _ err (.inr ⟨false, rfl⟩) rfl rfl rfl
    · exact hok _ (.inl rfl) rfl rfl rfl
    · exact hok _ (.inl rfl) rfl rfl rfl

variable (hstart : ∀ i, w.answer i .start = .ok ())

include hcontinue hprogress in
/-- Whether it succeeds or not, `runOne` returns. -/
theorem runOne_returns {i id g : Nat} {stmt : ParsedStatement}
    (h : (ScriptTx.own id g).assertActive e = .ok ()) :
    wp (runOne w o stmt i (some (.own id g)))
      ⟨fun _ e' => ∃ r ok, e'.results = e.results ++ [r] ∧ r.statement = stmt ∧ r.index = i ∧
          (r.error = none ↔ (w.statement i).isOk = true) ∧
          e'.calls = (.run (some (.own id g)) i stmt.sql, ok) :: e.calls ∧
          e'.finished = e.finished ∧ e'.opened = e.opened ∧ e'.generation = e.generation,
        fun _ _ => False, fun _ => False⟩ e := by
  cases hs : w.statement i with
  | ok qr =>
    have hanswer : (do (ScriptTx.own id g).assertActive e; w.statement i :
        Except ScriptFailure (Nat × Nat)) = .ok qr := by
      rw [h, hs]
      rfl
    unfold runOne runSql
    rw [wp_tryCatch, wp_bind, wp_invoke hanswer]
    show wp (emitOk w stmt i qr.1 qr.2 >>= fun _ => pure true) _ _
    rw [wp_bind, wp_emitOk hprogress]
    exact ⟨_, true, rfl, rfl, rfl, by simp [Except.isOk, Except.toBool], rfl, rfl, rfl, rfl⟩
  | error err =>
    have hanswer : (do (ScriptTx.own id g).assertActive e; w.statement i :
        Except ScriptFailure (Nat × Nat)) = .error err := by
      rw [h, hs]
      rfl
    unfold runOne runSql
    rw [wp_tryCatch, wp_bind, wp_invoke_error hanswer]
    show wp (emitError w o stmt i err >>= fun _ => pure false) _ _
    rw [wp_bind, wp_emitError hcontinue hprogress]
    exact ⟨_, false, rfl, rfl, rfl, by simp [Except.isOk, Except.toBool], rfl, rfl, rfl, rfl⟩

include hcontinue hprogress hstart in
theorem server_done {i : Nat} {stmt : ParsedStatement} (hc : stmt.client = none)
    (hfinished : ∀ id ∈ e.finished, id < e.opened) : wp (perStatementStatement w o stmt i)
      ⟨fun _ e' => Done w e e' i [stmt], fun _ _ => Executor.Refused w i [stmt], fun _ => False⟩ e := by
  unfold perStatementStatement
  rw [hc]
  dsimp only
  rw [wp_bind, wp_get]
  show wp (startTransaction w i .start e.txOptions >>= _) _ e
  rw [wp_bind, wp_startTransaction (hstart i)]
  dsimp only
  have hnot : e.opened ∉ e.finished := fun h => Nat.lt_irrefl _ (hfinished _ h)
  have hactive : (ScriptTx.own e.opened e.generation).assertActive
      { e with
        calls := (.startTransaction e.txOptions, true) :: e.calls, opened := e.opened + 1 } =
        .ok () := by
    rw [ScriptTx.assertActive, if_neg (by simp), if_neg (by simpa using hnot)]
  rw [wp_bind, wp_attempt]
  refine wp_mono (runOne_returns hcontinue hprogress hactive) ?_ (fun _ _ h => h.elim)
    fun _ h => h.elim
  rintro ran e₁ ⟨r, ok, hresults, hstmt, hindex, herror, hcalls, hfin, hopened, hgen⟩
  have hunfinished : (ScriptTx.own e.opened e.generation).isFinished e₁ = false := by
    rw [ScriptTx.isFinished, hfin]
    simpa using hnot
  have hactive₁ : (ScriptTx.own e.opened e.generation).assertActive e₁ = .ok () := by
    rw [ScriptTx.assertActive, hgen, hfin, if_neg (by simp), if_neg (by simpa using hnot)]
  show wp (if (!(ScriptTx.own e.opened e.generation).isFinished e₁) = true then _ else _) _ e₁
  rw [if_pos (by simp [hunfinished])]
  cases ha : w.answer i .commit with
  | error err =>
    rw [wp_commit_error ha hactive₁]
    exact ⟨0, stmt, rfl, hc, by rw [Nat.add_zero, ha]; rfl⟩
  | ok _ =>
    rw [wp_commit ha hactive₁]
    exact {
      results := ⟨[r], hresults, by rw [← hstmt]; rfl, by rw [← hindex]; rfl, by
        intro r' hr' hc'
        rw [List.mem_singleton] at hr'
        rw [hr', hindex]
        refine ⟨herror, .own e.opened e.generation, stmt.sql, ok, ?_⟩
        show _ ∈ _ :: e₁.calls
        rw [hcalls]
        exact List.mem_cons_of_mem _ List.mem_cons_self⟩
      kept := by
        intro c' hc'
        show _ ∈ _ :: e₁.calls
        rw [hcalls]
        simp [hc']
      committed := by
        rintro j tx ⟨sql, ok', hrun⟩
        have hrun' : (Call.run (some tx) j sql, ok') ∈ (Call.commit (.own e.opened e.generation)
          false, true) :: e₁.calls := hrun
        rw [hcalls] at hrun'
        simp only [List.mem_cons, Prod.mk.injEq, reduceCtorEq, false_and, false_or] at hrun'
        rcases hrun' with ⟨heq, -⟩ | hrun'
        · right
          cases heq
          exact List.mem_cons_self
        · exact .inl ⟨sql, ok', hrun'⟩
      commits := by
        intro j stmt' hj hc'
        have hj0 : j = 0 := by
          have hlt := (List.getElem?_eq_some_iff.mp hj).1
          simpa using hlt
        rw [hj0, Nat.add_zero, ha]
        rfl
      finished := by
        intro id hid
        have hid' : id ∈ e.opened :: e₁.finished := hid
        show id < e₁.opened
        rw [hopened]
        show id < e.opened + 1
        rw [hfin] at hid'
        rcases List.mem_cons.mp hid' with rfl | hid'
        · omega
        · exact Nat.lt_succ_of_lt (hfinished id hid') }

theorem Quiet.done {e' : Executor} {i : Nat} {stmt : ParsedStatement} {c : ClientCommand}
    (h : Quiet e e' i stmt) (hc : stmt.client = some c)
    (hfinished : ∀ id ∈ e.finished, id < e.opened) : Done w e e' i [stmt] where
  results := by
    obtain ⟨r, hr, hstmt, hindex⟩ := h.results
    refine ⟨[r], hr, by rw [← hstmt]; rfl, by rw [← hindex]; rfl, ?_⟩
    intro r' hr' hc'
    rw [List.mem_singleton.mp hr', hstmt, hc] at hc'
    cases hc'
  kept := h.kept
  committed j tx := by
    rintro ⟨sql, ok, hrun⟩
    rcases h.calls _ hrun with hrun | hrun
    · exact .inl ⟨sql, ok, hrun⟩
    · cases hrun
  commits j stmt' hj hc' := by
    cases j with
    | zero =>
      cases hj
      rw [hc] at hc'
      cases hc'
    | succ j => cases hj
  finished id hid := by
    rw [h.finished] at hid
    rw [h.opened]
    exact hfinished id hid

theorem Done.trans {e₁ e₂ : Executor} {i : Nat} {stmt : ParsedStatement}
    {rest : List ParsedStatement} (h : Done w e e₁ i [stmt]) (h' : Done w e₁ e₂ (i + 1) rest) :
    Done w e e₂ i (stmt :: rest) where
  results := by
    obtain ⟨new, hnew, hstmts, hindexes, hr⟩ := h.results
    obtain ⟨new', hnew', hstmts', hindexes', hr'⟩ := h'.results
    refine ⟨new ++ new', by rw [hnew', hnew, List.append_assoc], ?_, ?_, ?_⟩
    · rw [List.map_append, hstmts, hstmts']
      rfl
    · rw [List.map_append, hindexes, hindexes']
      rfl
    · intro r hmem hc
      rcases List.mem_append.mp hmem with hmem | hmem
      · obtain ⟨herror, tx, sql, ok, hrun⟩ := hr r hmem hc
        exact ⟨herror, tx, sql, ok, h'.kept _ hrun⟩
      · exact hr' r hmem hc
  kept c hc := h'.kept c (h.kept c hc)
  committed j tx hrun := by
    rcases h'.committed j tx hrun with hrun | hcommit
    · rcases h.committed j tx hrun with hrun | hcommit
      · exact .inl hrun
      · exact .inr (h'.kept _ hcommit)
    · exact .inr hcommit
  commits j stmt' hj hc := by
    cases j with
    | zero => exact h.commits 0 stmt' hj hc
    | succ j =>
      rw [show i + (j + 1) = i + 1 + j by omega]
      exact h'.commits j stmt' hj hc
  finished := h'.finished

include hcontinue hprogress hstart in
/-- Every statement is done, or the commit of one is refused. -/
theorem forEach_done : ∀ {rest : List ParsedStatement} {i : Nat} {e : Executor},
    (∀ id ∈ e.finished, id < e.opened) → wp (forEach (perStatementStatement w o) i rest)
      ⟨fun _ e' => Done w e e' i rest, fun _ _ => Executor.Refused w i rest, fun _ => False⟩ e := by
  intro rest
  induction rest with
  | nil =>
    intro i e h
    exact {
      results := ⟨[], by simp, rfl, rfl, by simp⟩, kept := fun _ h => h
      committed := fun _ _ h => .inl h, commits := by simp, finished := h }
  | cons stmt rest ih =>
    intro i e h
    have hstep : wp (perStatementStatement w o stmt i)
        ⟨fun _ e' => Done w e e' i [stmt], fun _ _ => Executor.Refused w i [stmt], fun _ => False⟩ e := by
      cases hc : stmt.client with
      | none => exact server_done hcontinue hprogress hstart hc h
      | some c =>
        exact wp_mono (client_quiet hcontinue hprogress hc) (fun _ _ hq => hq.done hc h)
          (fun _ _ h => h.elim) fun _ h => h
    unfold forEach
    rw [wp_bind]
    refine wp_mono hstep ?_ ?_ fun _ h => h
    · intro _ e₁ h₁
      refine wp_mono (ih h₁.finished) (fun _ _ h₂ => h₁.trans h₂) ?_ fun _ h => h
      rintro err e₂ ⟨j, stmt', hj, hc, hrefused⟩
      refine ⟨j + 1, stmt', hj, hc, ?_⟩
      rw [show i + (j + 1) = i + 1 + j by omega]
      exact hrefused
    · rintro err e₁ ⟨j, stmt', hj, hc, hrefused⟩
      cases j with
      | zero => exact ⟨0, stmt', hj, hc, hrefused⟩
      | succ j => cases hj

/-- Over a whole script, the results are truthful exactly if no server statement has failed. -/
theorem Done.truthful_iff {e' : Executor} {parsed : List ParsedStatement}
    (h : Done w e e' 0 parsed) (hresults : e.results = []) (hcalls : e.calls = []) :
    Truthful e'.calls parsed e'.results ↔ ∀ i stmt, parsed[i]? = some stmt →
      stmt.client = none → (w.statement i).isOk = true := by
  obtain ⟨new, hnew, hstmts, hindexes, hr⟩ := h.results
  rw [hresults, List.nil_append] at hnew
  have hcommitted : ∀ i tx, RanIn e'.calls i tx → Committed e'.calls tx := by
    intro i tx hran
    rcases h.committed i tx hran with ⟨sql, ok, hrun⟩ | hcommit
    · rw [hcalls] at hrun
      cases hrun
    · exact hcommit
  have hplace : ∀ (i : Nat) (r : StatementResult), new[i]? = some r → parsed[i]? = some r.statement ∧ r.index = i := by
    intro i r hi
    have hlt := (List.getElem?_eq_some_iff.mp hi).1
    have hlen : new.length = parsed.length := by rw [← hstmts, List.length_map]
    constructor
    · rw [← hstmts, List.getElem?_map, hi]
      rfl
    · have hindex : (new.map (·.index))[i]? = some i := by
        rw [hindexes, List.getElem?_range' (by omega)]
        simp
      rw [List.getElem?_map, hi] at hindex
      exact Option.some.inj hindex
  constructor
  · intro ht i stmt hi hc
    have hlt := (List.getElem?_eq_some_iff.mp hi).1
    have hlen : new.length = parsed.length := by rw [← hstmts, List.length_map]
    have hget : new[i]? = some new[i] := List.getElem?_eq_getElem (by omega)
    obtain ⟨hstmt, hindex⟩ := hplace i _ hget
    rw [hi] at hstmt
    have hmem : new[i] ∈ new := List.getElem_mem _
    have hc' : new[i].statement.client = none := by rw [← Option.some.inj hstmt, hc]
    obtain ⟨tx, hran, houtcome, -⟩ := ht.outcome new[i] (by rw [hnew]; exact hmem) hc'
    have herror := houtcome.mpr (hcommitted _ tx hran)
    rw [← hindex]
    exact (hr _ hmem hc').1.mp herror
  · intro hok
    refine ⟨by rw [hnew, hstmts], by rw [hnew, hindexes, List.range_eq_range'], ?_⟩
    intro r hmem hc
    rw [hnew] at hmem
    obtain ⟨i, hi⟩ := List.mem_iff_getElem?.mp hmem
    obtain ⟨hstmt, hindex⟩ := hplace i r hi
    obtain ⟨herror, tx, hran⟩ := hr r hmem hc
    have hnone : r.error = none := by
      apply herror.mpr
      rw [hindex]
      exact hok i _ hstmt hc
    exact ⟨tx, hran, ⟨fun _ => hcommitted _ tx hran, fun _ => hnone⟩, fun hne => absurd hnone hne⟩

end Executor

open Executor Async

variable {w : World} {o : ExecuteScriptOptions}

section

variable {cases : CaseMap} {script : Text} {parsed : List ParsedStatement}
  (hparse : parseScript cases script (o.terminator.getD ";".toList) = .ok parsed)
  (hmode : o.transaction = some .perStatement) (hcontinue : o.continueOnError = some true)
  (hprogress : ∀ n, w.progress n = .ok ()) (hstart : ∀ i, w.answer i .start = .ok ())
include hparse hmode hcontinue hprogress hstart

/-- The script is done, or rejected because a commit is refused. -/
theorem executeScript_done : wp (executeScript cases w o script)
    ⟨fun result e' => result.statements = e'.results ∧
      ∃ e, e.results = [] ∧ e.calls = [] ∧ Done w e e' 0 parsed,
      fun _ _ => Executor.Refused w 0 parsed, fun _ => False⟩ {} := by
  have hexecute : executeScript cases w o script = execute w o .perStatement parsed := by
    unfold executeScript
    rw [hmode, hparse]
    cases o.transactionOptions <;> rfl
  rw [hexecute]
  unfold execute
  show wp (perStatement w o parsed >>= _) _ _
  unfold perStatement
  rw [wp_bind, wp_bind, wp_modify]
  refine wp_mono (forEach_done hcontinue hprogress hstart (by simp)) ?_ (fun _ _ h => h)
    fun _ h => h
  intro _ e' h
  exact ⟨rfl, _, rfl, rfl, h⟩

theorem executed_truthful_iff :
    (∃ result, (executeScript cases w o script {}).1 = .ok result ∧
      Truthful (executeScript cases w o script {}).2.calls parsed result.statements) ↔
        w.Smooth parsed := by
  have hdone := executeScript_done hparse hmode hcontinue hprogress hstart
  rcases hr : executeScript cases w o script {} with ⟨result | err | _, e'⟩
  · obtain ⟨hresult, e, hresults, hcalls, hd⟩ := wp_eq_of_run hdone hr
    have hiff := hd.truthful_iff hresults hcalls
    constructor
    · rintro ⟨result', hok, ht⟩
      cases hok
      rw [hresult] at ht
      refine fun i stmt hi hc => ⟨hiff.mp ht i stmt hi hc, ?_⟩
      have hcommit := hd.commits i stmt hi hc
      rwa [Nat.zero_add] at hcommit
    · intro hsmooth
      refine ⟨result, rfl, ?_⟩
      rw [hresult]
      exact hiff.mpr fun i stmt hi hc => (hsmooth i stmt hi hc).1
  · obtain ⟨j, stmt, hj, hc, hrefused⟩ := wp_eq_of_run hdone hr
    constructor
    · rintro ⟨result', hok, -⟩
      cases hok
    · intro hsmooth
      have hcommit := (hsmooth j stmt hj hc).2
      rw [Nat.zero_add] at hrefused
      rw [hrefused] at hcommit
      cases hcommit
  · exact (wp_eq_of_run hdone hr).elim

end

/-- The outcomes are truthful exactly if every server statement and every commit succeeds. -/
theorem perStatement_truthful_iff (cases : CaseMap) (w : World) (o : ExecuteScriptOptions)
    (script : Text) (hmode : o.transaction = some .perStatement)
    (hcontinue : o.continueOnError = some true) (hprogress : ∀ n, w.progress n = .ok ())
    (hstart : ∀ i, w.answer i .start = .ok ()) :
    let run := executeScript cases w o script {}
    let parse := parseScript cases script (o.terminator.getD ";".toList)
    (∃ parsed result, parse = .ok parsed ∧ run.1 = .ok result ∧
      Truthful run.2.calls parsed result.statements) ↔
    ∃ parsed, parse = .ok parsed ∧ w.Smooth parsed := by
  intro run parse
  constructor
  · rintro ⟨parsed, result, hparse, hrest⟩
    have hiff := executed_truthful_iff hparse hmode hcontinue hprogress hstart
    exact ⟨parsed, hparse, hiff.mp ⟨result, hrest⟩⟩
  · rintro ⟨parsed, hparse, hsmooth⟩
    have hiff := executed_truthful_iff hparse hmode hcontinue hprogress hstart
    obtain ⟨result, hrest⟩ := hiff.mpr hsmooth
    exact ⟨parsed, result, hparse, hrest⟩

theorem perStatement_truthful_iff_fair :
    let o : ExecuteScriptOptions :=
      { transaction := some .perStatement, continueOnError := some true }
    let script := "delete from t;commit".toList
    let run := executeScript basicCase World.fair o script {}
    ∃ parsed result, parseScript basicCase script ";".toList = .ok parsed ∧ run.1 = .ok result ∧
      Truthful run.2.calls parsed result.statements := by
  intro o script
  have hparse : parseScript basicCase script ";".toList = .ok
      [⟨"delete from t".toList, ⟨1, 1⟩, .dml, none⟩,
        ⟨"commit".toList, ⟨1, 15⟩, .client, some (.commit false)⟩] := by
    decide +kernel
  apply (perStatement_truthful_iff basicCase World.fair o script rfl rfl (fun _ => rfl)
    fun _ => rfl).mpr
  exact ⟨_, hparse, fun _ _ _ _ => ⟨rfl, rfl⟩⟩

/-- The transaction of a failed statement is committed. -/
theorem failed_statement_committed :
    let o : ExecuteScriptOptions :=
      { transaction := some .perStatement, continueOnError := some true }
    let script := "delete from u".toList
    let run := executeScript basicCase (World.failingAt 0) o script {}
    ¬ ∃ parsed result, parseScript basicCase script ";".toList = .ok parsed ∧ run.1 = .ok result ∧
      Truthful run.2.calls parsed result.statements := by
  intro o script
  have hparse : parseScript basicCase script (o.terminator.getD ";".toList) = .ok
      [⟨"delete from u".toList, ⟨1, 1⟩, .dml, none⟩] := by
    decide +kernel
  have hiff := executed_truthful_iff (w := World.failingAt 0) hparse rfl rfl (fun _ => rfl)
    fun _ => rfl
  generalize executeScript basicCase (World.failingAt 0) o script {} = run at hiff ⊢
  rintro _ ⟨parsed, result, hparsed, hrest⟩
  have hsame := Except.ok.inj (hparsed.symm.trans hparse)
  rw [hsame] at hrest
  have hsmooth := hiff.mp ⟨result, hrest⟩ 0 _ rfl rfl
  exact absurd hsmooth.1 (by decide)

end FastFirebird
