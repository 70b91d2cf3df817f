import FastFirebird.TransactionStarts

/-! Every transaction has the defaults of its attachment, overridden by what the caller supplied
for it, as long as no restart leaves out a default and no batch is prepared under read-only
defaults. -/
namespace FastFirebird.Starts

/-- Options that say the same of every part of the buffer. -/
structure SameParts (a b : TransactionOptions) : Prop where
  isolation : tpbIsolation a = tpbIsolation b
  access : tpbAccess a = tpbAccess b
  wait : tpbWait a = tpbWait b
  autoCommit : tpbAutoCommit a = tpbAutoCommit b

/-- Every field is set in which the defaults are not what the driver takes for an unset field. -/
structure NamesDefaults (defaults options : TransactionOptions) : Prop where
  isolation : options.isolation.isSome = true ∨ tpbIsolation defaults = tpbIsolation {}
  readOnly : options.readOnly.isSome = true ∨ tpbAccess defaults = tpbAccess {}
  wait : options.wait.isSome = true ∨ tpbWait defaults = tpbWait {}
  autoCommit : options.autoCommit.isSome = true ∨ tpbAutoCommit defaults = tpbAutoCommit {}

/-- The calls that give their transactions the defaults: a restart that supplies options names the
fields of the defaults, and a batch is prepared under defaults that are not read-only. -/
def Call.Covers (defaults : TransactionOptions) : Call → Prop
  | restart _ options _ _ => hasStrategy options.strategy = true → NamesDefaults defaults options.strategy
  | preparedExecuteBatch _ => defaults.readOnly ≠ some true
  | startTransaction _ _ | finish _ _ _ | runIn _ _ | run _ _ | prepare _ | executeBatch _
  | queryStream _ | preparedRun _ => True

/-- The log is as it should be, and so are the options of every object, which the next restart
will use. -/
structure Sound (defaults : TransactionOptions) (att : Attachment) : Prop where
  defaults_eq : att.defaultTransaction = defaults
  effective : Effective defaults att.log
  options : ∀ i tx, att.transactions[i]? = some tx →
    SameParts tx.options (effectiveOptions defaults i att.log)

theorem SameParts.refl (a : TransactionOptions) : SameParts a a := ⟨rfl, rfl, rfl, rfl⟩

theorem NamesDefaults.sameParts {defaults options : TransactionOptions} (h : NamesDefaults defaults options) :
    SameParts options (mergeTransactionOptions defaults (some options)) := by
  obtain ⟨hisolation, hreadOnly, hwait, hautoCommit⟩ := h
  obtain ⟨isolation, readOnly, wait, autoCommit, upgrade⟩ := options
  refine ⟨?_, ?_, ?_, ?_⟩
  · cases isolation with
    | some isolation => rfl
    | none => exact (hisolation.resolve_left Bool.false_ne_true).symm
  · cases readOnly with
    | some readOnly => rfl
    | none => exact (hreadOnly.resolve_left Bool.false_ne_true).symm
  · cases wait with
    | some wait => rfl
    | none => exact (hwait.resolve_left Bool.false_ne_true).symm
  · cases autoCommit with
    | some autoCommit => rfl
    | none => exact (hautoCommit.resolve_left Bool.false_ne_true).symm

theorem SameParts.buildTpb {a b : TransactionOptions} (h : SameParts a b) :
    buildTpb a = buildTpb b := by
  rw [FastFirebird.buildTpb, h.isolation, h.access, h.wait, h.autoCommit]
  rfl

/-- An upgrade sets the access mode, and leaves the other parts. -/
theorem SameParts.upgrade {defaults a supplied : TransactionOptions}
    (h : SameParts a (mergeTransactionOptions defaults (some supplied))) :
    SameParts { a with readOnly := some false }
      (mergeTransactionOptions defaults (some { supplied with readOnly := some false })) :=
  ⟨h.isolation, rfl, h.wait, h.autoCommit⟩

theorem merge_none (defaults : TransactionOptions) :
    mergeTransactionOptions defaults none = mergeTransactionOptions defaults (some {}) := rfl

theorem merge_getD (defaults : TransactionOptions) (options : Option TransactionOptions) :
    mergeTransactionOptions defaults options =
      mergeTransactionOptions defaults (some (options.getD {})) := by
  cases options with
  | none => exact merge_none defaults
  | some o => rfl

theorem readWrite_buildTpb {opts : TransactionOptions} (h : opts.readOnly.getD false = false) :
    ReadWrite (buildTpb opts) := by
  have haccess : accessItems opts = [⟨Tpb.write, none⟩] := by
    rw [accessItems, tpbAccess, h]
    rfl
  have hisolation : ⟨Tpb.read, none⟩ ∉ isolationItems opts := by
    unfold isolationItems tpbIsolation
    split <;> decide
  have hwait : ⟨Tpb.read, none⟩ ∉ waitItems opts := by
    unfold waitItems
    split
    · decide
    · decide
    · simp [Tpb.read, Tpb.wait]
  have hauto : ⟨Tpb.read, none⟩ ∉ autoCommitItems opts := by
    unfold autoCommitItems tpbAutoCommit
    split <;> decide
  refine ⟨_, readTpb_buildTpb opts, ?_, ?_⟩
  · simp [haccess]
  · rw [haccess]
    simp only [List.mem_append, hisolation, hwait, hauto, false_or, or_false]
    decide

/-! ### What a call keeps -/

section Keeps

variable {defaults : TransactionOptions} {att : Attachment}

theorem effectiveOptions_other {i j : Nat} (h : i ≠ j) (options : TransactionOptions)
    (log : List Entry) : effectiveOptions defaults i (.supplied j options :: log) =
      effectiveOptions defaults i log := by
  rw [effectiveOptions, suppliedFor, if_neg (Ne.symm h)]
  rfl

/-- What `entry` says of the options of object `i`, which are `kept` from there on. -/
structure Says (defaults : TransactionOptions) (i : Nat) (entry : Entry)
    (kept : TransactionOptions) (log : List Entry) : Prop where
  own : SameParts kept (effectiveOptions defaults i (entry :: log))
  others : ∀ j, j ≠ i → effectiveOptions defaults j (entry :: log) = effectiveOptions defaults j log
  effective : Effective defaults log → Effective defaults (entry :: log)

theorem says_supplied (i : Nat) {options : TransactionOptions} (log : List Entry)
    (h : SameParts options (mergeTransactionOptions defaults (some options))) :
    Says defaults i (.supplied i options) options log where
  own := by
    rw [effectiveOptions, suppliedFor, if_pos rfl]
    exact h
  others j hj := effectiveOptions_other hj options log
  effective h := h

theorem says_upgraded {i : Nat} {options : TransactionOptions} {log : List Entry}
    (h : SameParts options (effectiveOptions defaults i log)) :
    Says defaults i (.upgraded i) { options with readOnly := some false } log where
  own := by
    rw [effectiveOptions, suppliedFor, if_pos rfl]
    exact h.upgrade
  others j hj := by
    rw [effectiveOptions, suppliedFor, if_neg (Ne.symm hj)]
    rfl
  effective h := h

theorem Sound.startTransaction (h : Sound defaults att) (options : Option TransactionOptions)
    (batch accepted : Bool)
    (hbatch : batch = true → (mergeTransactionOptions defaults options).readOnly.getD false = false) :
    Sound defaults (att.startTransaction options batch accepted).1 := by
  obtain rfl := h.defaults_eq
  cases accepted with
  | false => exact h
  | true =>
    have hown : effectiveOptions att.defaultTransaction att.transactions.length
        (.supplied att.transactions.length (options.getD {}) :: att.log) =
        mergeTransactionOptions att.defaultTransaction options := by
      rw [effectiveOptions, suppliedFor, if_pos rfl, ← merge_getD]
    show Sound att.defaultTransaction { att with
      transactions := att.transactions ++ [⟨mergeTransactionOptions att.defaultTransaction options,
        false⟩]
      log := _ }
    refine ⟨rfl, ⟨congrArg _ hown.symm, fun hb => readWrite_buildTpb (hbatch hb), h.effective⟩,
      fun i tx hi => ?_⟩
    rw [List.getElem?_append] at hi
    split at hi
    · rename_i hlt
      have hsame := h.options i tx hi
      rw [← effectiveOptions_other (Nat.ne_of_lt hlt) (options.getD {})] at hsame
      exact hsame
    · rename_i hge
      obtain ⟨hzero, htx⟩ := List.getElem?_eq_some_iff.mp hi
      have hlast : i = att.transactions.length := by
        rw [List.length_singleton] at hzero
        omega
      rw [List.getElem_singleton] at htx
      rw [← htx, hlast]
      show SameParts (mergeTransactionOptions att.defaultTransaction options)
        (effectiveOptions att.defaultTransaction _
          (.supplied att.transactions.length (options.getD {}) :: att.log))
      rw [hown]
      exact .refl _

/-- Object `i` gets `kept`, and the log an entry that says so. -/
theorem Sound.set (h : Sound defaults att) {i : Nat} {tx : Transaction} {log : List Entry}
    (heffective : Effective defaults log)
    (hown : SameParts tx.options (effectiveOptions defaults i log))
    (hothers : ∀ j, j ≠ i → effectiveOptions defaults j log = effectiveOptions defaults j att.log) :
    Sound defaults { att with transactions := att.transactions.set i tx, log := log } := by
  refine ⟨h.defaults_eq, heffective, fun j other hj => ?_⟩
  rw [List.getElem?_set] at hj
  split at hj
  · rename_i heq
    split at hj
    · obtain rfl := Option.some.inj hj
      rw [← heq]
      exact hown
    · cases hj
  · rename_i hne
    show SameParts other.options (effectiveOptions defaults j log)
    rw [hothers j (Ne.symm hne)]
    exact h.options j other hj

theorem Sound.finish (h : Sound defaults att) (i : Nat) (action : FinishAction) (accepted : Bool) :
    Sound defaults (att.finish i action accepted).1 := by
  unfold Attachment.finish
  split
  · exact h
  · rename_i tx hi
    split
    · exact h
    · split
      · exact @Sound.set _ _ h i { tx with finished := true } _ h.effective (h.options i tx hi)
          fun _ _ => rfl
      · exact h

/-- A restart keeps the options it has, or those that its entry stands for. -/
theorem Sound.restartWith (h : Sound defaults att) (i : Nat) (options : RestartOptions)
    (entry : Entry) (finishAccepted startAccepted : Bool)
    (hentry : hasStrategy options.strategy = true → ∀ log,
      effectiveOptions defaults i log = effectiveOptions defaults i att.log →
        Says defaults i entry options.strategy log) :
    Sound defaults (att.restartWith i options entry finishAccepted startAccepted).1 := by
  unfold Attachment.restartWith
  split
  · exact h
  · rename_i tx hi
    split
    · exact h
    · dsimp only
      generalize hlog : (if tx.finished = true then att.log
        else .finished i (options.action.getD .commit) :: att.log) = log
      generalize hkept : (if hasStrategy options.strategy = true then options.strategy
        else tx.options) = kept
      generalize hafter : (if hasStrategy options.strategy = true then entry :: log else log) = after
      have hsame : ∀ j, effectiveOptions defaults j log = effectiveOptions defaults j att.log := by
        intro j
        rw [← hlog]
        split <;> rfl
      have heffective : Effective defaults log := by
        rw [← hlog]
        split <;> exact h.effective
      have hstep : Effective defaults after ∧
          SameParts kept (effectiveOptions defaults i after) ∧
          ∀ j, j ≠ i → effectiveOptions defaults j after = effectiveOptions defaults j att.log := by
        rw [← hafter, ← hkept]
        split
        · have hsaid := hentry ‹_› log (hsame i)
          exact ⟨hsaid.effective heffective, hsaid.own,
            fun j hj => (hsaid.others j hj).trans (hsame j)⟩
        · refine ⟨heffective, ?_, fun j _ => hsame j⟩
          rw [hsame i]
          exact h.options i tx hi
      obtain ⟨hafterEffective, hown, hothers⟩ := hstep
      cases startAccepted with
      | true =>
        refine @Sound.set _ _ h i { tx with options := kept, finished := false } _
          ⟨hown.buildTpb, fun hb => absurd hb Bool.false_ne_true, hafterEffective⟩ hown hothers
      | false => exact @Sound.set _ _ h i { tx with options := kept } _ hafterEffective hown hothers

theorem Sound.runIn (h : Sound defaults att) (i : Nat) (answer : Attachment.Answer) :
    Sound defaults (att.runIn i answer).1 := by
  unfold Attachment.runIn
  split
  · exact h
  · rename_i tx hi
    split
    · exact h
    · cases answer with
      | accepted => exact h
      | refused => exact h
      | readOnlyViolation finish start replay =>
        simp only
        split
        · apply h.restartWith
          intro _ log hlog
          apply says_upgraded
          rw [hlog]
          exact h.options i tx hi
        · exact h

theorem Sound.oneShot (h : Sound defaults att) {options : Option TransactionOptions}
    {batch : Bool} {work : Attachment → Nat → Attachment × Bool} {answers : Attachment.Answers}
    (hbatch : batch = true → (mergeTransactionOptions defaults options).readOnly.getD false = false)
    (hwork : ∀ att i, Sound defaults att → Sound defaults (work att i).1) :
    Sound defaults (att.oneShot options batch work answers) := by
  have hstart := h.startTransaction options batch answers.start hbatch
  unfold Attachment.oneShot
  split
  · rename_i att₁ heq
    rwa [heq] at hstart
  · rename_i att₁ i heq
    rw [heq] at hstart
    have hdone := hwork att₁ i hstart
    split
    · rename_i att₂ hfailed
      rw [hfailed] at hdone
      exact hdone.finish i .rollback answers.rollback
    · rename_i att₂ hsucceeded
      rw [hsucceeded] at hdone
      have hcommit := hdone.finish i .commit answers.commit
      split
      · rename_i att₃ hcommitted
        rwa [hcommitted] at hcommit
      · rename_i att₃ hrefused
        rw [hrefused] at hcommit
        exact hcommit.finish i .rollback answers.rollback

theorem Sound.queryStream (h : Sound defaults att) (answers : Attachment.Answers) :
    Sound defaults (att.queryStream answers) := by
  have hstart := h.startTransaction none false answers.start (fun hb => absurd hb Bool.false_ne_true)
  unfold Attachment.queryStream
  split
  · rename_i att₁ heq
    rwa [heq] at hstart
  · rename_i att₁ i heq
    rw [heq] at hstart
    split
    · exact hstart.finish i .commit answers.commit
    · exact hstart.finish i .rollback answers.rollback

/-- One call. -/
theorem Sound.next (h : Sound defaults att) {call : Call} (hcall : call.Covers defaults) :
    Sound defaults (call.next att) := by
  have hnever : ∀ {p : Prop}, false = true → p := fun hb => absurd hb Bool.false_ne_true
  cases call with
  | startTransaction options accepted => exact h.startTransaction options false accepted hnever
  | finish tx action accepted => exact h.finish tx action accepted
  | restart tx options finishAccepted startAccepted =>
    exact h.restartWith tx options _ finishAccepted startAccepted
      fun hstrategy log _ => says_supplied tx log (hcall hstrategy).sameParts
  | runIn tx answer => exact h.runIn tx answer
  | run answer answers => exact h.oneShot hnever fun att i h => h.runIn i answer
  | prepare answers => exact h.oneShot hnever fun _ _ h => h
  | executeBatch answers => exact h.oneShot (fun _ => rfl) fun _ _ h => h
  | queryStream answers => exact h.queryStream answers
  | preparedRun answers => exact h.oneShot hnever fun _ _ h => h
  | preparedExecuteBatch answers =>
    refine h.oneShot (fun _ => ?_) fun _ _ h => h
    show defaults.readOnly.getD false = false
    cases hread : defaults.readOnly with
    | none => rfl
    | some readOnly =>
      cases readOnly with
      | false => rfl
      | true => exact absurd hread hcall

end Keeps

/-- In every run whose restarts and prepared batches leave out no default, every transaction is
started with the options in force for it. -/
theorem started_with_effective_options {att : Attachment}
    (h : machine.Reachable (fun att call => call.Covers att.defaultTransaction) att) :
    Effective att.defaultTransaction att.log := by
  have hsound : Sound att.defaultTransaction att := by
    apply h.invariant (fun att => Sound att.defaultTransaction att)
    · rintro att ⟨hempty, hlog⟩
      refine ⟨rfl, ?_, ?_⟩
      · rw [hlog]
        trivial
      · intro i tx hi
        rw [hempty] at hi
        cases hi
    · intro att call att' hinv hcovers hstep
      obtain rfl := Option.some.inj hstep
      have hnext := hinv.next hcovers
      rw [hnext.defaults_eq]
      exact hnext
  exact hsound.effective

/-- An attachment under the defaults of the documentation. -/
def configured : Attachment where
  defaultTransaction := { isolation := some .readCommitted, readOnly := some true }
  autoUpgradeReadOnly := true

def allAccepted : Attachment.Answers := ⟨true, true, true, true⟩

/-- An upgrade, a restart that names both fields of the defaults, and a batch. -/
theorem started_with_effective_options_upgrade : ∃ att,
    machine.run configured [.startTransaction none true,
      .runIn 0 (.readOnlyViolation true true true),
      .restart 0 ⟨none, { isolation := some .serializable, readOnly := some true }⟩ true true,
      .executeBatch allAccepted] = some att ∧
    Effective att.defaultTransaction att.log := by
  refine ⟨_, rfl, started_with_effective_options ?_⟩
  refine .step (.step (.step (.step (.init ⟨rfl, rfl⟩)
    (e := .startTransaction none true) trivial rfl)
    (e := .runIn 0 (.readOnlyViolation true true true)) trivial rfl)
    (e := .restart 0 ⟨none, { isolation := some .serializable, readOnly := some true }⟩ true true)
    (fun _ => ⟨.inl rfl, .inl rfl, .inr rfl, .inr rfl⟩) rfl) (e := .executeBatch allAccepted) trivial rfl

/-- `restart({ readOnly: false })` falls back to a snapshot, whatever the defaults say, and the
batch of a prepared statement is opened read-only. -/
theorem restart_and_batch_forget :
    (∃ att, machine.run configured [.startTransaction none true,
        .restart 0 ⟨none, { readOnly := some false }⟩ true true] = some att ∧
      ¬ Effective att.defaultTransaction att.log) ∧
    (∃ att, machine.run configured [.preparedExecuteBatch allAccepted] = some att ∧
      ¬ Effective att.defaultTransaction att.log) := by
  refine ⟨⟨_, rfl, fun h => absurd h.1 (by decide)⟩, ⟨_, rfl, fun h => ?_⟩⟩
  obtain ⟨items, hread, hwrite, -⟩ := h.2.1 rfl
  obtain rfl := Option.some.inj hread
  exact absurd hwrite (by decide)

end FastFirebird.Starts
