import FastFirebird.Savepoints
import Mathlib.Data.List.Basic

/-! The depth counter of `Transaction.transaction` and the names of the savepoints. -/
namespace FastFirebird.NestedTx

/-- The call that the program is in, `restart` included. -/
def Awaits.call : Awaits → Option Call
  | .run call _ => some call
  | .restartFinish after _ _ => after
  | .restartStart after => after
  | _ => none

/-- No `restart` and no automatic upgrade gets its new transaction while a scope is open. -/
def Uncut (s : State) (e : Event) : Prop :=
  ∀ after, s.awaits = .restartStart after → e = .answer none → s.scopes = []

/-- The scopes are numbered from the outermost on. -/
def Stacked : List Scope → Prop
  | [] => True
  | scope :: scopes => scope.name = scopes.length + 1 ∧ Stacked scopes

/-- The counter and the names, whatever the program waits for. -/
structure Counted (s : State) : Prop where
  depth : s.spDepth = s.scopes.length
  stacked : Stacked s.scopes
  serials : ∀ scope ∈ s.scopes, scope.serial = s.server.serial
  sent : ∀ k ∈ s.sent, 1 ≤ k

/-- A scope's own call has a scope. -/
def Asked (s : State) : Prop := ∀ call ∈ s.awaits.call, call.names = true → s.scopes ≠ []

theorem stacked_name {scopes : List Scope} (h : Stacked scopes) :
    ∀ scope ∈ scopes, 1 ≤ scope.name ∧ scope.name ≤ scopes.length := by
  induction scopes with
  | nil => exact fun scope hmem => absurd hmem List.not_mem_nil
  | cons scope scopes ih =>
    obtain ⟨hname, hrest⟩ := h
    intro other hmem
    have hlength : (scope :: scopes).length = scopes.length + 1 := rfl
    rcases List.mem_cons.mp hmem with rfl | hmem
    · omega
    · have hother := ih hrest other hmem
      omega

theorem stacked_pairwise {scopes : List Scope} (h : Stacked scopes) :
    scopes.Pairwise fun outer inner => outer.name ≠ inner.name := by
  induction scopes with
  | nil => exact List.Pairwise.nil
  | cons scope scopes ih =>
    obtain ⟨hname, hrest⟩ := h
    apply List.Pairwise.cons _ (ih hrest)
    intro other hmem heq
    have hother := stacked_name hrest other hmem
    omega

namespace State

variable {s s' : State} {call : Call}

theorem name_pos (h : Counted s) (hopen : s.scopes ≠ []) : 1 ≤ s.name := by
  obtain ⟨scope, scopes, hscopes⟩ := List.exists_cons_of_ne_nil hopen
  have hname := stacked_name h.stacked scope (by rw [hscopes]; exact List.mem_cons_self)
  unfold name
  rw [hscopes]
  exact hname.1

theorem counted_attempt (h : Counted s) (hopen : call.names = true → s.scopes ≠ [])
    (replay : Bool) : Counted (s.attempt call replay) ∧ Asked (s.attempt call replay) := by
  constructor
  · refine ⟨h.depth, h.stacked, h.serials, ?_⟩
    intro k hk
    unfold attempt at hk
    dsimp only at hk
    split at hk
    · rename_i hnames
      rcases List.mem_cons.mp hk with rfl | hk
      · exact name_pos h (hopen hnames)
      · exact h.sent k hk
    · exact h.sent k hk
  · intro asking hasking hnames
    obtain rfl := Option.mem_some.mp hasking
    exact hopen hnames

theorem counted_leave (h : Counted s) (hopen : s.scopes ≠ []) (outcome : Option TxError) :
    Counted (s.leave outcome) ∧ Asked (s.leave outcome) := by
  obtain ⟨scope, scopes, hscopes⟩ := List.exists_cons_of_ne_nil hopen
  obtain ⟨hdepth, hstacked, hserials, hsent⟩ := h
  unfold leave
  rw [hscopes] at hdepth hstacked hserials ⊢
  have hlength : (scope :: scopes).length = scopes.length + 1 := rfl
  refine ⟨⟨?_, hstacked.2, ?_, hsent⟩, ?_⟩
  · show s.spDepth - 1 = scopes.length
    omega
  · intro other hmem
    exact hserials other (List.mem_cons_of_mem _ hmem)
  · intro asking hasking
    cases hasking

theorem counted_caught (h : Counted s) (hopen : s.scopes ≠ []) (err : TxError) :
    Counted (s.caught err) ∧ Asked (s.caught err) := by
  unfold caught
  dsimp only
  split
  · apply counted_leave
    · exact ⟨h.depth, h.stacked, h.serials, h.sent⟩
    · exact hopen
  · apply counted_attempt
    · exact ⟨h.depth, h.stacked, h.serials, h.sent⟩
    · exact fun _ => hopen

theorem asked_body (h : s.awaits = .body) : Asked s := by
  intro asking hasking
  rw [h] at hasking
  cases hasking

theorem counted_body (h : Counted s) :
    Counted { s with awaits := .body } ∧ Asked { s with awaits := .body } :=
  ⟨⟨h.depth, h.stacked, h.serials, h.sent⟩, asked_body rfl⟩

theorem counted_established (h : Counted s) : Counted s.established := by
  obtain ⟨hdepth, hstacked, hserials, hsent⟩ := h
  unfold established
  split
  · exact ⟨hdepth, hstacked, hserials, hsent⟩
  · rename_i scope scopes hscopes
    rw [hscopes] at hdepth hstacked hserials
    refine ⟨hdepth, hstacked, ?_, hsent⟩
    intro other hmem
    rcases List.mem_cons.mp hmem with rfl | hmem
    · exact hserials scope List.mem_cons_self
    · exact hserials other (List.mem_cons_of_mem _ hmem)

theorem counted_settle (h : Counted s) (hopen : call.names = true → s.scopes ≠ [])
    (result : Except TxError Unit) :
    Counted (s.settle call result) ∧ Asked (s.settle call result) := by
  cases call with
  | body stmt => exact counted_body h
  | savepoint =>
    cases result with
    | ok => exact counted_body (counted_established h)
    | error err => exact counted_caught h (hopen rfl) err
  | release =>
    cases result with
    | ok => exact counted_leave h (hopen rfl) none
    | error err => exact counted_caught h (hopen rfl) err
  | rollbackTo err => exact counted_leave h (hopen rfl) (some err)

theorem counted_execute (h : Counted s) (hopen : call.names = true → s.scopes ≠ []) :
    Counted (s.execute call) ∧ Asked (s.execute call) := by
  unfold execute
  split
  · exact counted_settle h hopen _
  · exact counted_attempt h hopen false

theorem counted_enter (h : Counted s) (ha : Asked s) : Counted s.enter ∧ Asked s.enter := by
  unfold enter
  split
  · exact ⟨h, ha⟩
  · apply counted_execute
    · refine ⟨?_, ⟨?_, h.stacked⟩, ?_, h.sent⟩
      · show s.spDepth + 1 = ((s.scopes.length + 1 : Nat) : Int)
        have hdepth := h.depth
        omega
      · show s.spDepth + 1 = s.scopes.length + 1
        rw [h.depth]
      · intro other hmem
        rcases List.mem_cons.mp hmem with rfl | hmem
        · rfl
        · exact h.serials other hmem
    · exact fun _ => List.cons_ne_nil _ _

theorem counted_restart (h : Counted s) {after : Option Call}
    (hopen : ∀ call ∈ after, call.names = true → s.scopes ≠ []) (rollback : Bool)
    (strategy : Option Options) :
    Counted (s.restart after rollback strategy) ∧ Asked (s.restart after rollback strategy) := by
  unfold restart
  split
  · exact ⟨⟨h.depth, h.stacked, h.serials, h.sent⟩, hopen⟩
  · exact ⟨⟨h.depth, h.stacked, h.serials, h.sent⟩, hopen⟩

/-! The server -/

theorem execute_serial {server server' : Server} {refusal : Option TxError} {stmt : Statement}
    (h : server.execute refusal stmt = .ok server') : server'.serial = server.serial := by
  unfold Server.execute at h
  split at h
  · cases h
  · cases h
  · rename_i t _
    cases hrun : t.execute stmt with
    | error err =>
      rw [hrun] at h
      cases h
    | ok t' =>
      rw [hrun] at h
      obtain rfl := Except.ok.inj h
      rfl

theorem finish_ok {server server' : Server} {rollback : Bool} {refusal : Option TxError}
    (h : server.finish rollback refusal = .ok server') :
    ∃ t, server.tx = some t ∧ refusal = none ∧ server' = { server with
      tx := none
      committed := if rollback then server.committed else server.committed ++ t.writes } := by
  unfold Server.finish at h
  split at h
  · cases h
  · cases h
  · rename_i t htx
    exact ⟨t, htx, rfl, (Except.ok.inj h).symm⟩

theorem start_ok {server server' : Server} {readOnly : Bool} {refusal : Option TxError}
    (h : server.start readOnly refusal = .ok server') :
    refusal = none ∧ server' = { server with
      serial := server.serial + 1, tx := some { readOnly := readOnly } } := by
  unfold Server.start at h
  split at h
  · cases h
  · exact ⟨rfl, (Except.ok.inj h).symm⟩

theorem counted_server (h : Counted s) {server : Server} (hserial : server.serial = s.server.serial) :
    Counted { s with server := server } := by
  refine ⟨h.depth, h.stacked, ?_, h.sent⟩
  intro scope hmem
  exact (h.serials scope hmem).trans hserial.symm

theorem counted_recordWrite (h : Counted s) (call : Call) : Counted (s.recordWrite call) := by
  unfold recordWrite
  split
  · exact ⟨h.depth, h.stacked, h.serials, h.sent⟩
  · exact h

theorem recordWrite_scopes (call : Call) : (s.recordWrite call).scopes = s.scopes := by
  unfold recordWrite
  split <;> rfl

theorem counted_answered (h : Counted s) (hopen : call.names = true → s.scopes ≠ [])
    (replay : Bool) (refusal : Option TxError) :
    Counted (s.answered call replay refusal) ∧ Asked (s.answered call replay refusal) := by
  unfold answered
  split
  · rename_i server hrun
    apply counted_settle (counted_recordWrite (counted_server h (execute_serial hrun)) call)
    rw [recordWrite_scopes]
    exact hopen
  · split
    · apply counted_restart h
      intro asking hasking
      obtain rfl := Option.mem_some.mp hasking
      exact hopen
    · exact counted_settle h hopen _

theorem counted_restartFailed (h : Counted s) {after : Option Call}
    (hopen : ∀ call ∈ after, call.names = true → s.scopes ≠ []) (err : TxError) :
    Counted (s.restartFailed after err) ∧ Asked (s.restartFailed after err) := by
  unfold restartFailed
  cases after with
  | none => exact counted_body h
  | some call => exact counted_settle h (hopen call rfl) _

theorem counted_restartFinished (h : Counted s) {after : Option Call}
    (hopen : ∀ call ∈ after, call.names = true → s.scopes ≠ []) (rollback : Bool)
    (strategy : Option Options) (refusal : Option TxError) :
    Counted (s.restartFinished after rollback strategy refusal) ∧
      Asked (s.restartFinished after rollback strategy refusal) := by
  unfold restartFinished
  split
  · rename_i server hfinish
    obtain ⟨t, -, -, rfl⟩ := finish_ok hfinish
    exact ⟨⟨h.depth, h.stacked, h.serials, h.sent⟩, hopen⟩
  · exact counted_restartFailed h hopen _

theorem counted_restartStarted (h : Counted s) {after : Option Call}
    (hopen : ∀ call ∈ after, call.names = true → s.scopes ≠ []) (refusal : Option TxError)
    (huncut : refusal = none → s.scopes = []) :
    Counted (s.restartStarted after refusal) ∧ Asked (s.restartStarted after refusal) := by
  unfold restartStarted
  split
  · rename_i server hstart
    obtain ⟨hrefusal, rfl⟩ := start_ok hstart
    have hnone := huncut hrefusal
    have hfresh : Counted { s with
        server := { s.server with
          serial := s.server.serial + 1, tx := some { readOnly := s.options.readOnly } }
        spDepth := 0, finished := false } := by
      refine ⟨?_, h.stacked, ?_, h.sent⟩
      · show (0 : Int) = s.scopes.length
        rw [hnone]
        rfl
      · intro scope hmem
        rw [show s.scopes = [] from hnone] at hmem
        cases hmem
    cases after with
    | none => exact counted_body hfresh
    | some call => exact counted_attempt hfresh (hopen call rfl) true
  · exact counted_restartFailed h hopen _

theorem counted_finish (h : Counted s) (ha : Asked s) (rollback : Bool) :
    Counted (s.finish rollback) ∧ Asked (s.finish rollback) := by
  unfold finish
  split
  · exact ⟨h, ha⟩
  · refine ⟨⟨h.depth, h.stacked, h.serials, h.sent⟩, ?_⟩
    intro asking hasking
    cases hasking

theorem counted_finishAnswered (h : Counted s) (rollback : Bool) (refusal : Option TxError) :
    Counted (s.finishAnswered rollback refusal) ∧ Asked (s.finishAnswered rollback refusal) := by
  unfold finishAnswered
  split
  · rename_i server hfinish
    obtain ⟨t, -, -, rfl⟩ := finish_ok hfinish
    exact ⟨⟨h.depth, h.stacked, h.serials, h.sent⟩, asked_body rfl⟩
  · exact ⟨⟨h.depth, h.stacked, h.serials, h.sent⟩, asked_body rfl⟩

theorem counted_step {e : Event} (h : Counted s) (ha : Asked s) (hok : Uncut s e)
    (hs : s.step e = some s') : Counted s' ∧ Asked s' := by
  unfold step at hs
  split at hs
  · obtain rfl := Option.some.inj hs
    exact counted_enter h ha
  · obtain rfl := Option.some.inj hs
    apply counted_execute h
    intro hnames
    cases hnames
  · split at hs
    · cases hs
    · rename_i hopen
      obtain rfl := Option.some.inj hs
      exact counted_execute h fun _ => hopen
  · split at hs
    · cases hs
    · rename_i hopen
      obtain rfl := Option.some.inj hs
      exact counted_caught h hopen _
  · obtain rfl := Option.some.inj hs
    apply counted_restart h
    intro call hcall
    cases hcall
  · obtain rfl := Option.some.inj hs
    exact counted_finish h ha false
  · obtain rfl := Option.some.inj hs
    exact counted_finish h ha true
  · rename_i call replay refusal hawaits
    obtain rfl := Option.some.inj hs
    unfold Asked at ha
    rw [hawaits] at ha
    exact counted_answered h (ha call rfl) replay refusal
  · rename_i after rollback strategy refusal hawaits
    obtain rfl := Option.some.inj hs
    unfold Asked at ha
    rw [hawaits] at ha
    exact counted_restartFinished h ha rollback strategy refusal
  · rename_i after refusal hawaits
    obtain rfl := Option.some.inj hs
    unfold Asked at ha
    rw [hawaits] at ha
    apply counted_restartStarted h ha refusal
    rintro rfl
    exact hok after hawaits rfl
  · rename_i rollback refusal hawaits
    obtain rfl := Option.some.inj hs
    exact counted_finishAnswered h rollback refusal
  · cases hs

end State

theorem reachable_counted {options : Options} {s : State}
    (h : (machine options).Reachable Uncut s) : Counted s ∧ Asked s := by
  refine h.invariant (fun s => Counted s ∧ Asked s) ?_
    fun s e s' hc hok hs => State.counted_step hc.1 hc.2 hok hs
  rintro s rfl
  refine ⟨⟨rfl, trivial, ?_, ?_⟩, ?_⟩
  · exact fun scope hmem => absurd hmem List.not_mem_nil
  · exact fun k hk => absurd hk List.not_mem_nil
  · exact State.asked_body rfl

/-- Where no new transaction begins under an open scope, the counter counts the open scopes, and
each has a name of its own that begins with one. -/
theorem savepoint_depth_counts {options : Options} {s : State}
    (h : (machine options).Reachable Uncut s) :
    0 ≤ s.spDepth ∧
      s.spDepth = (s.scopes.filter (·.serial = s.server.serial)).length ∧
      (∀ k ∈ s.sent, 1 ≤ k) ∧
      s.scopes.Pairwise fun inner outer =>
        inner.serial = outer.serial → inner.name ≠ outer.name := by
  obtain ⟨hc, -⟩ := reachable_counted h
  have hall : s.scopes.filter (·.serial = s.server.serial) = s.scopes := by
    apply List.filter_eq_self.mpr
    intro scope hmem
    exact decide_eq_true (hc.serials scope hmem)
  have hdepth := hc.depth
  refine ⟨by omega, ?_, hc.sent, ?_⟩
  · rw [hall]
    exact hdepth
  · apply (stacked_pairwise hc.stacked).imp
    intro inner outer hne _
    exact hne

/-- One scope inside another. -/
def twoScopes : State where
  options := {}
  spDepth := 2
  server := { tx := some { readOnly := false, savepoints := [⟨2, 0⟩, ⟨1, 0⟩] } }
  scopes := [⟨1, 2, 0, true, 0⟩, ⟨0, 1, 0, true, 0⟩]
  opened := 2
  sent := [2, 1]

theorem savepoint_depth_counts_two :
    twoScopes.spDepth =
      (twoScopes.scopes.filter (·.serial = twoScopes.server.serial)).length := by
  have hbody {s : State} {e : Event} (h : s.awaits = .body) : Uncut s e := by
    intro after hafter
    rw [h] at hafter
    cases hafter
  have hrun {s : State} {e : Event} {call : Call} {replay : Bool}
      (h : s.awaits = .run call replay) : Uncut s e := by
    intro after hafter
    rw [h] at hafter
    cases hafter
  have h₀ : (machine {}).Reachable Uncut (begun {}) := .init rfl
  have h₁ := h₀.step (e := Event.enter) (hbody rfl) rfl
  have h₂ := h₁.step (e := Event.answer none) (hrun rfl) rfl
  have h₃ := h₂.step (e := Event.enter) (hbody rfl) rfl
  have h₄ : (machine {}).Reachable Uncut twoScopes :=
    h₃.step (e := Event.answer none) (hrun rfl) rfl
  exact (savepoint_depth_counts h₄).2.1

/-- The body of a scope restarts the transaction and returns. -/
def restartInScope : List Event :=
  [.enter, .answer none, .restart false none, .answer none, .answer none, .returns, .answer none,
    .answer none]

theorem restart_in_scope_depth :
    ¬ ∀ s : State, (machine {}).Reachable (fun _ _ => True) s → 0 ≤ s.spDepth := by
  intro hall
  have hrun : ∃ s, (machine {}).run (begun {}) restartInScope = some s ∧ s.spDepth = -1 :=
    ⟨_, rfl, rfl⟩
  obtain ⟨s, hrun, hdepth⟩ := hrun
  have hs := hall s (Machine.Reachable.run (.init rfl) hrun)
  omega

end FastFirebird.NestedTx
