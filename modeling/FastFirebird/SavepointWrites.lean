import FastFirebird.SavepointDepth
import Mathlib.Data.List.Nodup
import Mathlib.Data.List.TakeWhile

/-! What is left of the writes of nested scopes: those all of whose enclosing scopes succeed. -/
namespace FastFirebird.NestedTx

/-- The writes that no failed scope encloses. -/
def keepers (failed : Nat → Bool) (l : List Wrote) : List Nat :=
  (l.filter fun w => !w.enclosing.any failed).map (·.write)

namespace State

/-- The scope has ended with an error. -/
def failed (s : State) (i : Nat) : Bool := s.settled.any fun p => p.1 == i && p.2.isSome

/-- The writes all of whose enclosing scopes are open or have succeeded. -/
def kept (s : State) : List Nat := keepers s.failed s.wrote

/-- The transaction has no savepoint by the name of the innermost scope. -/
def Lacks (s : State) : Prop :=
  ∀ t ∈ s.server.tx, ∀ p ∈ t.savepoints, p.name ≠ s.name

end State

def Event.plain : Event → Bool
  | .restart _ _ | .commit | .rollback => false
  | _ => true

/-- The bodies leave the transaction alone, none is upgraded under an open scope, and a `SAVEPOINT`
is refused only where there is none of its name. The server refuses to roll back to a savepoint
only if it does not have it. -/
structure Orderly (s : State) (e : Event) : Prop where
  plain : e.plain = true
  uncut : Uncut s e
  savepoint : ∀ replay err, s.awaits = .run .savepoint replay → e = .answer (some err) → s.Lacks
  rollbackTo : ∀ original replay err, s.awaits = .run (.rollbackTo original) replay →
    e = .answer (some err) → s.Lacks

/-! Keeping -/

theorem keepers_append (failed : Nat → Bool) (l l' : List Wrote) :
    keepers failed (l ++ l') = keepers failed l ++ keepers failed l' := by
  unfold keepers
  rw [List.filter_append, List.map_append]

theorem keepers_congr {failed failed' : Nat → Bool} {l : List Wrote}
    (h : ∀ w ∈ l, ∀ i ∈ w.enclosing, failed i = failed' i) :
    keepers failed l = keepers failed' l := by
  have hfilter : (l.filter fun w => !w.enclosing.any failed) =
      l.filter fun w => !w.enclosing.any failed' := by
    apply List.filter_congr
    intro w hw
    have hany : w.enclosing.any failed = w.enclosing.any failed' := by
      rw [Bool.eq_iff_iff, List.any_eq_true, List.any_eq_true]
      constructor
      · rintro ⟨i, hi, hfail⟩
        exact ⟨i, hi, (h w hw i hi).symm.trans hfail⟩
      · rintro ⟨i, hi, hfail⟩
        exact ⟨i, hi, (h w hw i hi).trans hfail⟩
    rw [hany]
  unfold keepers
  rw [hfilter]

theorem keepers_enclosed {failed : Nat → Bool} {l : List Wrote} {i : Nat} (hi : failed i = true)
    (h : ∀ w ∈ l, i ∈ w.enclosing) : keepers failed l = [] := by
  have hnone : (l.filter fun w => !w.enclosing.any failed) = [] := by
    apply List.filter_eq_nil_iff.mpr
    intro w hw hkeep
    have hany : w.enclosing.any failed = true := List.any_eq_true.mpr ⟨i, h w hw, hi⟩
    rw [hany] at hkeep
    cases hkeep
  unfold keepers
  rw [hnone]
  rfl

/-! The invariant -/

/-- The scopes whose savepoint is set. -/
def settings (scopes : List Scope) : List Scope := scopes.filter (·.set)

namespace State

variable {s s' : State}

/-- How many of the writes before a scope are kept. -/
def mark (s : State) (scope : Scope) : Nat := (keepers s.failed (s.wrote.take scope.before)).length

/-- The savepoint that a scope has set. -/
def point (s : State) (scope : Scope) : Savepoint := ⟨scope.name, s.mark scope⟩

/-- The server has the savepoints of the scopes, and at most one that an ended scope has left
behind, of the name that comes next. -/
def Points (s : State) (t : ServerTx) : Prop :=
  ∃ stale : List Savepoint, t.savepoints = stale ++ (settings s.scopes).map s.point ∧
    stale.length ≤ 1 ∧ ∀ p ∈ stale, p.name = (settings s.scopes).length + 1

structure Ledger (s : State) : Prop where
  committed : s.server.committed = []
  readOnly : s.options.readOnly = true → s.wrote = []
  txReadOnly : ∀ t ∈ s.server.tx, t.readOnly = s.options.readOnly
  dead : s.server.tx = none → s.wrote = []
  writes : ∀ t ∈ s.server.tx, t.writes = s.kept
  points : ∀ t ∈ s.server.tx, s.Points t

/-- The scopes lie one in another, and so do their writes. -/
structure Nesting (s : State) : Prop where
  ids : (s.settled.map (·.1) ++ s.scopes.map (·.id)).Perm (List.range s.opened)
  enclosed : ∀ w ∈ s.wrote, ∀ i ∈ w.enclosing, i < s.opened
  before : ∀ scope ∈ s.scopes, scope.before ≤ s.wrote.length
  outside : ∀ scope ∈ s.scopes, ∀ w ∈ s.wrote.take scope.before, scope.id ∉ w.enclosing
  inside : ∀ scope ∈ s.scopes, ∀ w ∈ s.wrote.drop scope.before, scope.id ∈ w.enclosing
  nested : s.scopes.Pairwise fun inner outer => outer.before ≤ inner.before
  outer : ∀ scope ∈ s.scopes.tail, scope.set = true

/-- The innermost scope has its savepoint. -/
def TopSet (s : State) : Prop := ∀ scope ∈ s.scopes.head?, scope.set = true

/-- The innermost scope has no savepoint and no writes yet. -/
def TopUnset (s : State) : Prop :=
  ∃ scope ∈ s.scopes.head?, scope.set = false ∧ scope.before = s.wrote.length

/-- What holds while a call is under way. -/
def Standing (s : State) : Option Call → Prop
  | some .savepoint => s.TopUnset
  | some (.rollbackTo _) => s.TopSet ∨ s.TopUnset ∧ s.Lacks
  | _ => s.TopSet

/-- What is known once the first attempt of a call was refused. -/
def Refused (s : State) : Call → Prop
  | .savepoint | .rollbackTo _ => s.Lacks
  | _ => True

structure Phase (s : State) : Prop where
  finished : s.finished = false
  idle : ∀ rollback, s.awaits ≠ .finish rollback
  standing : s.Standing s.awaits.call
  upgrading : ∀ after rollback strategy, s.awaits = .restartFinish after rollback strategy →
    s.options.readOnly = true ∧ ∀ call ∈ after, s.Refused call
  starting : ∀ after, s.awaits = .restartStart after → s.server.tx = none

/-- A scope has one error, and ends with it. -/
structure Errors (s : State) : Prop where
  raised : ∀ i err, (i, err) ∈ s.raised → (i, some err) ∈ s.settled ∨
    s.awaits.call = some (.rollbackTo err) ∧ ∃ scope ∈ s.scopes.head?, scope.id = i
  settled : ∀ i err, (i, some err) ∈ s.settled → (i, err) ∈ s.raised
  raising : ∀ err, s.awaits.call = some (.rollbackTo err) →
    ∃ scope ∈ s.scopes.head?, (scope.id, err) ∈ s.raised

/-- What does not depend on where the program waits. -/
structure Core (s : State) : Prop extends Ledger s, Nesting s

theorem failed_iff {i : Nat} : s.failed i = true ↔ ∃ err, (i, some err) ∈ s.settled := by
  unfold failed
  rw [List.any_eq_true]
  constructor
  · rintro ⟨⟨j, outcome⟩, hmem, hp⟩
    simp only [Bool.and_eq_true, beq_iff_eq] at hp
    obtain ⟨rfl, hsome⟩ := hp
    obtain ⟨err, rfl⟩ := Option.isSome_iff_exists.mp hsome
    exact ⟨err, hmem⟩
  · rintro ⟨err, hmem⟩
    exact ⟨_, hmem, by simp⟩

/-- An open scope has not ended. -/
theorem open_not_settled (h : s.Nesting) {scope : Scope} (hmem : scope ∈ s.scopes)
    (outcome : Option TxError) : (scope.id, outcome) ∉ s.settled := by
  intro hsettled
  have hnodup : (s.settled.map (·.1) ++ s.scopes.map (·.id)).Nodup :=
    h.ids.nodup_iff.mpr List.nodup_range
  have hdisjoint := (List.nodup_append.mp hnodup).2.2
  exact hdisjoint scope.id (List.mem_map.mpr ⟨_, hsettled, rfl⟩) scope.id
    (List.mem_map.mpr ⟨scope, hmem, rfl⟩) rfl

theorem open_not_failed (h : s.Nesting) {scope : Scope} (hmem : scope ∈ s.scopes) :
    s.failed scope.id = false := by
  rw [← Bool.not_eq_true, failed_iff]
  rintro ⟨err, hsettled⟩
  exact open_not_settled h hmem _ hsettled

theorem settled_unique (h : s.Nesting) {i : Nat} {x y : Option TxError} (hx : (i, x) ∈ s.settled)
    (hy : (i, y) ∈ s.settled) : x = y := by
  have hnodup : (s.settled.map (·.1) ++ s.scopes.map (·.id)).Nodup :=
    h.ids.nodup_iff.mpr List.nodup_range
  have hkeys := (List.nodup_append.mp hnodup).1
  exact (Prod.mk.inj (List.inj_on_of_nodup_map hkeys hx hy rfl)).2

/-! The scopes open and end -/

theorem core_frame (h : s.Core) (hserver : s'.server = s.server) (hoptions : s'.options = s.options)
    (hwrote : s'.wrote = s.wrote) (hsettled : s'.settled = s.settled)
    (hscopes : s'.scopes = s.scopes) (hopened : s'.opened = s.opened) : s'.Core := by
  cases s
  cases s'
  dsimp only at hserver hoptions hwrote hsettled hscopes hopened
  subst hserver hoptions hwrote hsettled hscopes hopened
  exact ⟨⟨h.committed, h.readOnly, h.txReadOnly, h.dead, h.writes, h.points⟩,
    ⟨h.ids, h.enclosed, h.before, h.outside, h.inside, h.nested, h.outer⟩⟩

theorem all_set (h : s.Nesting) (ht : s.TopSet) : ∀ scope ∈ s.scopes, scope.set = true := by
  intro scope hmem
  unfold TopSet at ht
  have houter := h.outer
  cases hscopes : s.scopes with
  | nil =>
    rw [hscopes] at hmem
    cases hmem
  | cons top rest =>
    rw [hscopes] at hmem ht houter
    rcases List.mem_cons.mp hmem with rfl | hmem
    · exact ht scope rfl
    · exact houter scope hmem

/-- The scope that `enter` opens. -/
def newScope (s : State) : Scope :=
  { id := s.opened, name := s.spDepth + 1, serial := s.server.serial, set := false,
    before := s.wrote.length }

theorem core_push (h : s.Core) (ht : s.TopSet) :
    ({ s with
      spDepth := s.spDepth + 1
      scopes := s.newScope :: s.scopes
      opened := s.opened + 1 } : State).Core := by
  have hlt {w : Wrote} (hw : w ∈ s.wrote) : s.opened ∉ w.enclosing := fun hmem =>
    Nat.lt_irrefl _ (h.enclosed w hw _ hmem)
  refine ⟨⟨h.committed, h.readOnly, h.txReadOnly, h.dead, h.writes, h.points⟩, ?_⟩
  refine ⟨?_, ?_, ?_, ?_, ?_, ?_, all_set h.toNesting ht⟩
  · have hperm : (s.settled.map (·.1) ++ (s.opened :: s.scopes.map (·.id))).Perm
        (s.opened :: (s.settled.map (·.1) ++ s.scopes.map (·.id))) := List.perm_middle
    apply hperm.trans
    show List.Perm _ (List.range (s.opened + 1))
    rw [List.range_succ]
    exact (h.ids.cons s.opened).trans (@List.perm_append_comm _ [s.opened] _)
  · intro w hw i hi
    exact Nat.lt_succ_of_lt (h.enclosed w hw i hi)
  · intro scope hmem
    rcases List.mem_cons.mp hmem with rfl | hmem
    · exact Nat.le_refl _
    · exact h.before scope hmem
  · intro scope hmem w hw
    rcases List.mem_cons.mp hmem with rfl | hmem
    · exact hlt (List.mem_of_mem_take hw)
    · exact h.outside scope hmem w hw
  · intro scope hmem w hw
    rcases List.mem_cons.mp hmem with rfl | hmem
    · have hnone : s.wrote.drop s.wrote.length = [] := List.drop_length
      have hw : w ∈ s.wrote.drop s.wrote.length := hw
      rw [hnone] at hw
      cases hw
    · exact h.inside scope hmem w hw
  · apply List.Pairwise.cons _ h.nested
    intro outer hmem
    exact h.before outer hmem

variable {scope : Scope} {rest : List Scope}

theorem leave_eq (hscopes : s.scopes = scope :: rest) (outcome : Option TxError) :
    s.leave outcome = { s with
      awaits := .body
      scopes := rest
      spDepth := s.spDepth - 1
      settled := (scope.id, outcome) :: s.settled } := by
  unfold leave
  rw [hscopes]

theorem nesting_leave (h : s.Nesting) (hscopes : s.scopes = scope :: rest)
    (outcome : Option TxError) : (s.leave outcome).Nesting := by
  obtain ⟨hids, henclosed, hbefore, houtside, hinside, hnested, houter⟩ := h
  rw [hscopes] at hids hbefore houtside hinside hnested houter
  rw [leave_eq hscopes]
  refine ⟨?_, henclosed, ?_, ?_, ?_, ?_, ?_⟩
  · exact (List.perm_middle.symm).trans hids
  · exact fun inner hmem => hbefore inner (List.mem_cons_of_mem _ hmem)
  · exact fun inner hmem => houtside inner (List.mem_cons_of_mem _ hmem)
  · exact fun inner hmem => hinside inner (List.mem_cons_of_mem _ hmem)
  · exact (List.pairwise_cons.mp hnested).2
  · exact fun inner hmem => houter inner (List.mem_of_mem_tail hmem)

theorem failed_leave_none (hscopes : s.scopes = scope :: rest) :
    (s.leave none).failed = s.failed := by
  funext i
  rw [leave_eq hscopes, Bool.eq_iff_iff, failed_iff, failed_iff]
  constructor
  · rintro ⟨err, hmem⟩
    rcases List.mem_cons.mp hmem with heq | hmem
    · cases heq
    · exact ⟨err, hmem⟩
  · rintro ⟨err, hmem⟩
    exact ⟨err, List.mem_cons_of_mem _ hmem⟩

theorem failed_leave_some (hscopes : s.scopes = scope :: rest) (err : TxError) (i : Nat) :
    (s.leave (some err)).failed i = true ↔ i = scope.id ∨ s.failed i = true := by
  rw [leave_eq hscopes, failed_iff, failed_iff]
  constructor
  · rintro ⟨err', hmem⟩
    rcases List.mem_cons.mp hmem with heq | hmem
    · exact .inl (Prod.mk.inj heq).1
    · exact .inr ⟨err', hmem⟩
  · rintro (rfl | ⟨err', hmem⟩)
    · exact ⟨err, List.mem_cons_self⟩
    · exact ⟨err', List.mem_cons_of_mem _ hmem⟩

/-- A scope that fails takes nothing from before it. -/
theorem keepers_before (h : s.Nesting) (hscopes : s.scopes = scope :: rest) (err : TxError)
    {n : Nat} (hn : n ≤ scope.before) :
    keepers (s.leave (some err)).failed (s.wrote.take n) = keepers s.failed (s.wrote.take n) := by
  apply keepers_congr
  intro w hw i hi
  have hmem : scope ∈ s.scopes := by rw [hscopes]; exact List.mem_cons_self
  have hout := h.outside scope hmem w (List.take_subset_take_left _ hn hw)
  rw [Bool.eq_iff_iff, failed_leave_some hscopes]
  constructor
  · rintro (rfl | hfail)
    · exact absurd hi hout
    · exact hfail
  · exact .inr

/-- What is kept of the writes when a scope fails is what was kept before it. -/
theorem kept_leave_some (h : s.Nesting) (hscopes : s.scopes = scope :: rest) (err : TxError) :
    (s.leave (some err)).kept = keepers s.failed (s.wrote.take scope.before) := by
  have hwrote : (s.leave (some err)).wrote = s.wrote := by rw [leave_eq hscopes]
  have hmem : scope ∈ s.scopes := by rw [hscopes]; exact List.mem_cons_self
  have hdrop : keepers (s.leave (some err)).failed (s.wrote.drop scope.before) = [] := by
    apply keepers_enclosed (i := scope.id)
    · exact (failed_leave_some hscopes err _).mpr (.inl rfl)
    · exact h.inside scope hmem
  unfold kept
  rw [hwrote]
  conv_lhs => rw [← List.take_append_drop scope.before s.wrote]
  rw [keepers_append, hdrop, List.append_nil, keepers_before h hscopes err (Nat.le_refl _)]

theorem kept_take (s : State) (scope : Scope) :
    s.kept.take (s.mark scope) = keepers s.failed (s.wrote.take scope.before) := by
  have hsplit : s.kept = keepers s.failed (s.wrote.take scope.before) ++
      keepers s.failed (s.wrote.drop scope.before) := by
    rw [← keepers_append, List.take_append_drop]
    rfl
  rw [hsplit]
  exact List.take_left

theorem point_leave_some (h : s.Nesting) (hscopes : s.scopes = scope :: rest) (err : TxError)
    {outer : Scope} (hmem : outer ∈ rest) : (s.leave (some err)).point outer = s.point outer := by
  have hwrote : (s.leave (some err)).wrote = s.wrote := by rw [leave_eq hscopes]
  have hnested := h.nested
  rw [hscopes] at hnested
  have hle := (List.pairwise_cons.mp hnested).1 outer hmem
  unfold point mark
  rw [hwrote, keepers_before h hscopes err hle]

theorem point_leave_none (hscopes : s.scopes = scope :: rest) (outer : Scope) :
    (s.leave none).point outer = s.point outer := by
  unfold point mark
  rw [failed_leave_none hscopes, leave_eq hscopes]

/-! The savepoints of the server -/

theorem settings_set (h : s.Nesting) (hscopes : s.scopes = scope :: rest) (hset : scope.set = true) :
    settings s.scopes = scope :: rest := by
  have houter := h.outer
  rw [hscopes] at houter ⊢
  apply List.filter_eq_self.mpr
  intro other hmem
  rcases List.mem_cons.mp hmem with rfl | hmem
  · exact hset
  · exact houter other hmem

theorem settings_unset (h : s.Nesting) (hscopes : s.scopes = scope :: rest)
    (hset : scope.set = false) : settings s.scopes = rest := by
  have houter := h.outer
  rw [hscopes] at houter ⊢
  unfold settings
  rw [List.filter_cons_of_neg (by simp [hset])]
  exact List.filter_eq_self.mpr houter

theorem name_eq (hscopes : s.scopes = scope :: rest) : s.name = scope.name := by
  unfold name
  rw [hscopes]
  rfl

theorem scope_name (h : Counted s) (hscopes : s.scopes = scope :: rest) :
    scope.name = rest.length + 1 := by
  have hstacked := h.stacked
  rw [hscopes] at hstacked
  exact hstacked.1

theorem rest_name (h : Counted s) (hscopes : s.scopes = scope :: rest) :
    ∀ outer ∈ rest, outer.name ≠ scope.name := by
  have hstacked := h.stacked
  rw [hscopes] at hstacked
  intro outer hmem heq
  have hle := stacked_name hstacked.2 outer hmem
  have hname := hstacked.1
  omega

variable {t : ServerTx}

theorem downTo_set (hc : Counted s) (h : s.Nesting) (hp : s.Points t)
    (hscopes : s.scopes = scope :: rest) (hset : scope.set = true) :
    t.downTo scope.name = s.point scope :: rest.map s.point := by
  obtain ⟨stale, hsavepoints, -, hstale⟩ := hp
  rw [settings_set h hscopes hset] at hsavepoints hstale
  have hname := scope_name hc hscopes
  unfold ServerTx.downTo
  rw [hsavepoints, List.dropWhile_append_of_pos]
  · exact List.dropWhile_cons_of_neg (by simp [point])
  · intro p hmem
    have hother := hstale p hmem
    rw [List.length_cons] at hother
    rw [decide_eq_true_eq]
    omega

/-- The savepoint of an open scope is there as long as its transaction is. -/
theorem dead_of_lacks (hc : Counted s) (h : s.Core) (hl : s.Lacks)
    (hscopes : s.scopes = scope :: rest) (hset : scope.set = true) : s.server.tx = none := by
  cases htx : s.server.tx with
  | none => rfl
  | some t =>
    have hdown := downTo_set hc h.toNesting (h.points t htx) hscopes hset
    have hmem : s.point scope ∈ t.savepoints := by
      apply (List.dropWhile_suffix fun p : Savepoint => decide (p.name ≠ scope.name)).mem
      show s.point scope ∈ t.downTo scope.name
      rw [hdown]
      exact List.mem_cons_self
    exact absurd (name_eq hscopes).symm (hl t htx _ hmem)

theorem core_savepoint (hc : Counted s) (h : s.Core) (htx : s.server.tx = some t)
    (hscopes : s.scopes = scope :: rest) (hset : scope.set = false)
    (hbefore : scope.before = s.wrote.length) :
    ({ s with
      server := { s.server with tx := some { t with
        savepoints := ⟨scope.name, t.writes.length⟩ ::
          t.savepoints.filter (·.name ≠ scope.name) } }
      scopes := { scope with set := true } :: rest } : State).Core := by
  obtain ⟨⟨hcommitted, hreadOnly, htxReadOnly, hdead, hwrites, hpoints⟩, hn⟩ := h
  obtain ⟨stale, hsavepoints, -, hstale⟩ := hpoints t htx
  rw [settings_unset hn hscopes hset] at hsavepoints hstale
  have hname := scope_name hc hscopes
  have hfilter : t.savepoints.filter (·.name ≠ scope.name) = rest.map s.point := by
    have hgone : stale.filter (·.name ≠ scope.name) = [] := by
      apply List.filter_eq_nil_iff.mpr
      intro p hmem hne
      have hother := hstale p hmem
      rw [decide_eq_true_eq] at hne
      omega
    have hstay : (rest.map s.point).filter (·.name ≠ scope.name) = rest.map s.point := by
      apply List.filter_eq_self.mpr
      intro p hmem
      obtain ⟨outer, houter, rfl⟩ := List.mem_map.mp hmem
      exact decide_eq_true (rest_name hc hscopes outer houter)
    rw [hsavepoints, List.filter_append, hgone, hstay, List.nil_append]
  have hmark : t.writes.length = s.mark scope := by
    unfold mark
    rw [hwrites t htx, hbefore, List.take_length]
    rfl
  have hnesting := hn
  obtain ⟨hids, henclosed, hbefores, houtside, hinside, hnested, houter⟩ := hn
  rw [hscopes] at hids hbefores houtside hinside hnested houter
  constructor
  · refine ⟨hcommitted, hreadOnly, ?_, (fun hnone => nomatch hnone), ?_, ?_⟩
    · intro t' ht'
      obtain rfl := Option.mem_some.mp ht'
      exact htxReadOnly t htx
    · intro t' ht'
      obtain rfl := Option.mem_some.mp ht'
      exact hwrites t htx
    · intro t' ht'
      obtain rfl := Option.mem_some.mp ht'
      have hsettings : settings ({ scope with set := true } :: rest) =
          { scope with set := true } :: rest := by
        apply List.filter_eq_self.mpr
        intro other hmem
        rcases List.mem_cons.mp hmem with rfl | hmem
        · rfl
        · exact houter other hmem
      refine ⟨[], ?_, Nat.zero_le 1, fun p hmem => absurd hmem List.not_mem_nil⟩
      show (⟨scope.name, t.writes.length⟩ : Savepoint) :: t.savepoints.filter _ =
        [] ++ (settings ({ scope with set := true } :: rest)).map _
      rw [hsettings, hfilter, hmark]
      rfl
  · refine ⟨hids, henclosed, ?_, ?_, ?_, ?_, houter⟩
    · intro other hmem
      rcases List.mem_cons.mp hmem with rfl | hmem
      · exact hbefores scope List.mem_cons_self
      · exact hbefores other (List.mem_cons_of_mem _ hmem)
    · intro other hmem
      rcases List.mem_cons.mp hmem with rfl | hmem
      · exact houtside scope List.mem_cons_self
      · exact houtside other (List.mem_cons_of_mem _ hmem)
    · intro other hmem
      rcases List.mem_cons.mp hmem with rfl | hmem
      · exact hinside scope List.mem_cons_self
      · exact hinside other (List.mem_cons_of_mem _ hmem)
    · obtain ⟨hfirst, hothers⟩ := List.pairwise_cons.mp hnested
      exact List.Pairwise.cons hfirst hothers

theorem opened_of_open (h : s.Nesting) (hmem : scope ∈ s.scopes) : scope.id < s.opened := by
  apply List.mem_range.mp
  apply h.ids.mem_iff.mp
  exact List.mem_append_right _ (List.mem_map.mpr ⟨scope, hmem, rfl⟩)

theorem core_write (h : s.Core) (htx : s.server.tx = some t) (hro : t.readOnly = false) (w : Nat) :
    ({ s with
      server := { s.server with tx := some { t with writes := t.writes ++ [w] } }
      wrote := s.wrote ++ [⟨w, s.scopes.map (·.id)⟩] } : State).Core := by
  have hnone : keepers s.failed [⟨w, s.scopes.map (·.id)⟩] = [w] := by
    unfold keepers
    rw [List.filter_cons_of_pos, List.filter_nil]
    · rfl
    · rw [Bool.not_eq_true', ← Bool.not_eq_true, List.any_eq_true]
      rintro ⟨i, hi, hfail⟩
      obtain ⟨scope, hmem, rfl⟩ := List.mem_map.mp hi
      rw [open_not_failed h.toNesting hmem] at hfail
      cases hfail
  have htake {scope : Scope} (hmem : scope ∈ s.scopes) :
      (s.wrote ++ [(⟨w, s.scopes.map (·.id)⟩ : Wrote)]).take scope.before =
        s.wrote.take scope.before := List.take_append_of_le_length (h.before scope hmem)
  constructor
  · refine ⟨h.committed, ?_, ?_, (fun hnone => nomatch hnone), ?_, ?_⟩
    · intro hoptions
      have hsame := h.txReadOnly t htx
      rw [hro, hoptions] at hsame
      cases hsame
    · intro t' ht'
      obtain rfl := Option.mem_some.mp ht'
      exact h.txReadOnly t htx
    · intro t' ht'
      obtain rfl := Option.mem_some.mp ht'
      show t.writes ++ [w] = keepers s.failed (s.wrote ++ [_])
      rw [keepers_append, hnone, h.writes t htx]
      rfl
    · intro t' ht'
      obtain rfl := Option.mem_some.mp ht'
      obtain ⟨stale, hsavepoints, hlength, hstale⟩ := h.points t htx
      refine ⟨stale, ?_, hlength, hstale⟩
      have hpoints : (settings s.scopes).map s.point = (settings s.scopes).map fun scope =>
          ⟨scope.name, (keepers s.failed ((s.wrote ++
            [(⟨w, s.scopes.map (·.id)⟩ : Wrote)]).take scope.before)).length⟩ := by
        apply List.map_congr_left
        intro scope hmem
        rw [htake (List.mem_of_mem_filter hmem)]
        rfl
      show t.savepoints = stale ++ _
      rw [hsavepoints, hpoints]
      rfl
  · refine ⟨h.ids, ?_, ?_, ?_, ?_, h.nested, h.outer⟩
    · intro w' hw' i hi
      rcases List.mem_append.mp hw' with hw' | hw'
      · exact h.enclosed w' hw' i hi
      · obtain rfl := List.mem_singleton.mp hw'
        obtain ⟨scope, hmem, rfl⟩ := List.mem_map.mp hi
        exact opened_of_open (s := s) h.toNesting hmem
    · intro scope hmem
      have hle := h.before scope hmem
      show scope.before ≤ (s.wrote ++ [_]).length
      rw [List.length_append]
      omega
    · intro scope hmem w' hw'
      apply h.outside scope hmem w'
      rw [← htake hmem]
      exact hw'
    · intro scope hmem w' hw'
      have hdrop : (s.wrote ++ [(⟨w, s.scopes.map (·.id)⟩ : Wrote)]).drop scope.before =
          s.wrote.drop scope.before ++ [⟨w, s.scopes.map (·.id)⟩] :=
        List.drop_append_of_le_length (h.before scope hmem)
      have hw' : w' ∈ (s.wrote ++ [(⟨w, s.scopes.map (·.id)⟩ : Wrote)]).drop scope.before := hw'
      rw [hdrop] at hw'
      rcases List.mem_append.mp hw' with hw' | hw'
      · exact h.inside scope hmem w' hw'
      · obtain rfl := List.mem_singleton.mp hw'
        exact List.mem_map.mpr ⟨scope, hmem, rfl⟩

/-- The points of a state in which the innermost scope has ended. -/
theorem points_leave (h : s.Nesting) (hscopes : s.scopes = scope :: rest) (outcome : Option TxError)
    (hpoint : ∀ outer ∈ rest, (s.leave outcome).point outer = s.point outer)
    {stale : List Savepoint} (hsavepoints : t.savepoints = stale ++ rest.map s.point)
    (hlength : stale.length ≤ 1) (hstale : ∀ p ∈ stale, p.name = rest.length + 1) :
    (s.leave outcome).Points t := by
  have hrest : (s.leave outcome).scopes = rest := by rw [leave_eq hscopes]
  have houter := h.outer
  rw [hscopes] at houter
  have hsettings : settings rest = rest := List.filter_eq_self.mpr houter
  refine ⟨stale, ?_, hlength, ?_⟩
  · rw [hrest, hsettings, hsavepoints, List.map_congr_left hpoint]
  · rw [hrest, hsettings]
    exact hstale

theorem core_release (h : s.Core) (htx : s.server.tx = some t)
    (hscopes : s.scopes = scope :: rest) :
    ({ s with server := { s.server with
      tx := some { t with savepoints := rest.map s.point } } }.leave none).Core := by
  have hleave := @leave_eq { s with server := { s.server with
    tx := some { t with savepoints := rest.map s.point } } } scope rest hscopes none
  have hfailed := @failed_leave_none { s with server := { s.server with
    tx := some { t with savepoints := rest.map s.point } } } scope rest hscopes
  have hn : ({ s with server := { s.server with
      tx := some { t with savepoints := rest.map s.point } } } : State).Nesting :=
    ⟨h.ids, h.enclosed, h.before, h.outside, h.inside, h.nested, h.outer⟩
  refine ⟨⟨?_, ?_, ?_, ?_, ?_, ?_⟩, nesting_leave hn hscopes none⟩
  · rw [hleave]
    exact h.committed
  · rw [hleave]
    exact h.readOnly
  · rw [hleave]
    intro t' ht'
    obtain rfl := Option.mem_some.mp ht'
    exact h.txReadOnly t htx
  · rw [hleave]
    exact fun hnone => nomatch hnone
  · intro t' ht'
    unfold kept
    rw [hfailed]
    rw [hleave] at ht' ⊢
    obtain rfl := Option.mem_some.mp ht'
    exact h.writes t htx
  · intro t' ht'
    rw [hleave] at ht'
    obtain rfl := Option.mem_some.mp ht'
    have halone : ∀ outer ∈ rest, ({ s with server := { s.server with
        tx := some { t with savepoints := rest.map s.point } } }.leave none).point outer =
          ({ s with server := { s.server with
            tx := some { t with savepoints := rest.map s.point } } } : State).point outer := by
      intro outer _
      apply point_leave_none
      exact hscopes
    apply @points_leave _ _ _ _ hn hscopes none halone []
    · rfl
    · exact Nat.zero_le 1
    · exact fun p hmem => absurd hmem List.not_mem_nil

theorem core_rollback (hc : Counted s) (h : s.Core) (htx : s.server.tx = some t)
    (hscopes : s.scopes = scope :: rest) (err : TxError) :
    ({ s with server := { s.server with
      tx := some { t with
        writes := t.writes.take (s.mark scope)
        savepoints := s.point scope :: rest.map s.point } } }.leave (some err)).Core := by
  have hleave := @leave_eq { s with server := { s.server with
    tx := some { t with
      writes := t.writes.take (s.mark scope)
      savepoints := s.point scope :: rest.map s.point } } } scope rest hscopes (some err)
  have hn : ({ s with server := { s.server with
      tx := some { t with
        writes := t.writes.take (s.mark scope)
        savepoints := s.point scope :: rest.map s.point } } } : State).Nesting :=
    ⟨h.ids, h.enclosed, h.before, h.outside, h.inside, h.nested, h.outer⟩
  refine ⟨⟨?_, ?_, ?_, ?_, ?_, ?_⟩, nesting_leave hn hscopes _⟩
  · rw [hleave]
    exact h.committed
  · rw [hleave]
    exact h.readOnly
  · rw [hleave]
    intro t' ht'
    obtain rfl := Option.mem_some.mp ht'
    exact h.txReadOnly t htx
  · rw [hleave]
    exact fun hnone => nomatch hnone
  · intro t' ht'
    rw [kept_leave_some hn hscopes err]
    rw [hleave] at ht'
    obtain rfl := Option.mem_some.mp ht'
    show t.writes.take (s.mark scope) = keepers s.failed (s.wrote.take scope.before)
    rw [h.writes t htx, kept_take]
  · intro t' ht'
    rw [hleave] at ht'
    obtain rfl := Option.mem_some.mp ht'
    apply @points_leave _ _ _ _ hn hscopes (some err)
      (fun outer hmem => point_leave_some hn hscopes err hmem) [s.point scope] rfl
      (Nat.le_refl 1)
    intro p hmem
    obtain rfl := List.mem_singleton.mp hmem
    exact scope_name hc hscopes

/-- A scope whose savepoint the server does not have ends. -/
theorem core_refused (hc : Counted s) (h : s.Core) (hl : s.Lacks)
    (hscopes : s.scopes = scope :: rest)
    (htop : scope.set = true ∨ scope.set = false ∧ scope.before = s.wrote.length) (err : TxError) :
    (s.leave (some err)).Core := by
  have hleave := leave_eq hscopes (some err)
  have hn := nesting_leave h.toNesting hscopes (some err)
  have hdead : scope.set = true → s.server.tx = none := dead_of_lacks hc h hl hscopes
  refine ⟨⟨?_, ?_, ?_, ?_, ?_, ?_⟩, hn⟩
  · rw [hleave]
    exact h.committed
  · rw [hleave]
    exact h.readOnly
  · rw [hleave]
    exact h.txReadOnly
  · rw [hleave]
    exact h.dead
  · intro t ht
    rw [kept_leave_some h.toNesting hscopes err]
    rw [hleave] at ht
    rcases htop with hset | ⟨-, hbefore⟩
    · have hnone := hdead hset
      rw [show s.server.tx = some t from ht] at hnone
      cases hnone
    · rw [hbefore, List.take_length]
      exact h.writes t ht
  · intro t ht
    rw [hleave] at ht
    rcases htop with hset | ⟨hset, hbefore⟩
    · have hnone := hdead hset
      rw [show s.server.tx = some t from ht] at hnone
      cases hnone
    · obtain ⟨stale, hsavepoints, hlength, hstale⟩ := h.points t ht
      rw [settings_unset h.toNesting hscopes hset] at hsavepoints hstale
      exact points_leave h.toNesting hscopes (some err)
        (fun outer hmem => point_leave_some h.toNesting hscopes err hmem) hsavepoints hlength hstale

/-! Where the program waits -/

theorem phase_attempt {call : Call} (hfinished : s.finished = false)
    (h : s.Standing (some call)) (replay : Bool) : (s.attempt call replay).Phase := by
  refine ⟨hfinished, (fun _ => Awaits.noConfusion), ?_, ?_, ?_⟩
  · exact h
  · exact fun after rollback strategy heq => nomatch heq
  · exact fun after heq => nomatch heq

theorem phase_body (hbody : s.awaits = .body) (hfinished : s.finished = false) (h : s.TopSet) :
    s.Phase := by
  refine ⟨hfinished, ?_, ?_, ?_, ?_⟩
  · intro rollback heq
    rw [hbody] at heq
    cases heq
  · rw [hbody]
    exact h
  · intro after rollback strategy heq
    rw [hbody] at heq
    cases heq
  · intro after heq
    rw [hbody] at heq
    cases heq

theorem phase_leave (h : s.Nesting) (hfinished : s.finished = false)
    (hscopes : s.scopes = scope :: rest) (outcome : Option TxError) :
    (s.leave outcome).Phase := by
  have houter := h.outer
  rw [hscopes] at houter
  have htop : ∀ top ∈ rest.head?, top.set = true := fun top hmem =>
    houter top (List.mem_of_mem_head? hmem)
  rw [leave_eq hscopes]
  exact phase_body rfl hfinished htop

/-! The errors of the scopes -/

/-- The scopes that have raised an error have ended. -/
def Quiet (s : State) : Prop := ∀ i err, (i, err) ∈ s.raised → (i, some err) ∈ s.settled

theorem quiet_of_call (h : s.Errors) (hcall : ∀ err, s.awaits.call ≠ some (.rollbackTo err)) :
    s.Quiet := by
  intro i err hmem
  rcases h.raised i err hmem with hsettled | ⟨hback, -⟩
  · exact hsettled
  · exact absurd hback (hcall err)

theorem errors_of_quiet (h : s.Errors) (hquiet : s.Quiet) (hraised : s'.raised = s.raised)
    (hsettled : s'.settled = s.settled)
    (hcall : ∀ err, s'.awaits.call ≠ some (.rollbackTo err)) : s'.Errors := by
  refine ⟨?_, ?_, ?_⟩
  · intro i err hmem
    rw [hraised] at hmem
    rw [hsettled]
    exact .inl (hquiet i err hmem)
  · intro i err hmem
    rw [hsettled] at hmem
    rw [hraised]
    exact h.settled i err hmem
  · intro err hback
    exact absurd hback (hcall err)

theorem errors_caught (h : s.Errors) (hquiet : s.Quiet) (hscopes : s.scopes = scope :: rest)
    (err : TxError) (replay : Bool) :
    ({ s with raised := (scope.id, err) :: s.raised }.attempt (.rollbackTo err) replay).Errors := by
  have hhead : scope ∈ s.scopes.head? := by
    rw [hscopes]
    rfl
  refine ⟨?_, ?_, ?_⟩
  · intro i err' hmem
    rcases List.mem_cons.mp hmem with heq | hmem
    · obtain ⟨rfl, rfl⟩ := Prod.mk.inj heq
      exact .inr ⟨rfl, scope, hhead, rfl⟩
    · exact .inl (hquiet i err' hmem)
  · intro i err' hmem
    exact List.mem_cons_of_mem _ (h.settled i err' hmem)
  · intro err' hback
    obtain rfl := Call.rollbackTo.inj (Option.some.inj hback)
    exact ⟨scope, hhead, List.mem_cons_self⟩

theorem errors_leave_none (h : s.Errors) (hquiet : s.Quiet) (hscopes : s.scopes = scope :: rest) :
    (s.leave none).Errors := by
  rw [leave_eq hscopes]
  refine ⟨?_, ?_, ?_⟩
  · intro i err hmem
    exact .inl (List.mem_cons_of_mem _ (hquiet i err hmem))
  · intro i err hmem
    rcases List.mem_cons.mp hmem with heq | hmem
    · cases heq
    · exact h.settled i err hmem
  · exact fun err hback => nomatch hback

theorem errors_leave_some (h : s.Errors) (hscopes : s.scopes = scope :: rest) {err : TxError}
    (hcall : s.awaits.call = some (.rollbackTo err)) : (s.leave (some err)).Errors := by
  obtain ⟨top, htop, hraising⟩ := h.raising err hcall
  rw [hscopes] at htop
  obtain rfl := Option.some.inj htop
  rw [leave_eq hscopes]
  refine ⟨?_, ?_, ?_⟩
  · intro i err' hmem
    rcases h.raised i err' hmem with hsettled | ⟨hback, top, htop, rfl⟩
    · exact .inl (List.mem_cons_of_mem _ hsettled)
    · rw [hcall] at hback
      obtain rfl := Call.rollbackTo.inj (Option.some.inj hback)
      rw [hscopes] at htop
      obtain rfl := Option.some.inj htop
      exact .inl List.mem_cons_self
  · intro i err' hmem
    rcases List.mem_cons.mp hmem with heq | hmem
    · obtain ⟨rfl, herr⟩ := Prod.mk.inj heq
      obtain rfl := Option.some.inj herr
      exact hraising
    · exact h.settled i err' hmem
  · exact fun err' hback => nomatch hback

theorem errors_server (h : s.Errors) (server : Server) :
    ({ s with server := server } : State).Errors := ⟨h.raised, h.settled, h.raising⟩

/-! The steps -/

/-- All of it. -/
structure Layered (s : State) : Prop extends Core s, Phase s, Errors s

theorem layered_caught (h : s.Core) (hfinished : s.finished = false) (he : s.Errors)
    (hquiet : s.Quiet) (hopen : s.scopes ≠ []) (err : TxError)
    (htop : s.TopSet ∨ s.TopUnset ∧ s.Lacks) : (s.caught err).Layered := by
  obtain ⟨scope, rest, hscopes⟩ := List.exists_cons_of_ne_nil hopen
  have hcaught : s.caught err =
      { s with raised := (scope.id, err) :: s.raised }.attempt (.rollbackTo err) false := by
    unfold caught
    rw [hscopes]
    dsimp only
    rw [hfinished]
    rfl
  rw [hcaught]
  refine ⟨core_frame h rfl rfl rfl rfl rfl rfl, ?_, errors_caught he hquiet hscopes err false⟩
  apply phase_attempt
  · exact hfinished
  · exact htop

theorem layered_body (h : s.Layered) (hcall : ∀ err, s.awaits.call ≠ some (.rollbackTo err))
    (htop : s.TopSet) : ({ s with awaits := .body } : State).Layered := by
  refine ⟨core_frame h.toCore rfl rfl rfl rfl rfl rfl, phase_body rfl h.finished htop, ?_⟩
  exact errors_of_quiet h.toErrors (quiet_of_call h.toErrors hcall) rfl rfl
    fun err hback => nomatch hback

/-- A call that was refused. -/
theorem layered_settle_error (hc : Counted s) (ha : Asked s) (h : s.Layered) {call : Call}
    (hcall : s.awaits.call = some call) (hrefused : s.Refused call) (err : TxError) :
    (s.settle call (.error err)).Layered := by
  have hstanding := h.standing
  rw [hcall] at hstanding
  unfold Asked at ha
  rw [hcall] at ha
  cases call with
  | body stmt =>
    apply layered_body h _ hstanding
    intro err' hback
    rw [hcall] at hback
    cases hback
  | savepoint =>
    have hquiet := quiet_of_call h.toErrors (by
      intro err' hback
      rw [hcall] at hback
      cases hback)
    exact layered_caught h.toCore h.finished h.toErrors hquiet (ha _ rfl rfl) err
      (.inr ⟨hstanding, hrefused⟩)
  | release =>
    have hquiet := quiet_of_call h.toErrors (by
      intro err' hback
      rw [hcall] at hback
      cases hback)
    exact layered_caught h.toCore h.finished h.toErrors hquiet (ha _ rfl rfl) err (.inl hstanding)
  | rollbackTo original =>
    obtain ⟨scope, rest, hscopes⟩ := List.exists_cons_of_ne_nil (ha _ rfl rfl)
    have htop : scope.set = true ∨ scope.set = false ∧ scope.before = s.wrote.length := by
      rcases hstanding with hset | ⟨⟨top, hhead, hunset⟩, -⟩
      · exact .inl (hset scope (by rw [hscopes]; rfl))
      · rw [hscopes] at hhead
        obtain rfl := Option.some.inj hhead
        exact .inr hunset
    exact ⟨core_refused hc h.toCore hrefused hscopes htop original,
      phase_leave h.toNesting h.finished hscopes _, errors_leave_some h.toErrors hscopes hcall⟩

theorem execute_ok {server server' : Server} {refusal : Option TxError} {stmt : Statement}
    (h : server.execute refusal stmt = .ok server') :
    ∃ t t', server.tx = some t ∧ t.execute stmt = .ok t' ∧
      server' = { server with tx := some t' } := by
  unfold Server.execute at h
  split at h
  · cases h
  · cases h
  · rename_i t htx
    cases hrun : t.execute stmt with
    | error err =>
      rw [hrun] at h
      cases h
    | ok t' =>
      rw [hrun] at h
      exact ⟨t, t', htx, hrun, (Except.ok.inj h).symm⟩

theorem downTo_nil {name : Int} (h : t.downTo name = []) : ∀ p ∈ t.savepoints, p.name ≠ name := by
  intro p hmem
  have hall := List.dropWhile_eq_nil_iff.mp h p hmem
  exact of_decide_eq_true hall

theorem downTo_cons {name : Int} {p : Savepoint} {older : List Savepoint}
    (h : t.downTo name = p :: older) : p ∈ t.savepoints ∧ p.name = name := by
  constructor
  · apply (List.dropWhile_suffix fun p : Savepoint => decide (p.name ≠ name)).mem
    show p ∈ t.downTo name
    rw [h]
    exact List.mem_cons_self
  · have hhead := List.head_dropWhile_not (fun p : Savepoint => decide (p.name ≠ name))
      (l := t.savepoints) (by
        show t.downTo name ≠ []
        rw [h]
        exact List.cons_ne_nil _ _)
    have hp : (List.dropWhile (fun p : Savepoint => decide (p.name ≠ name)) t.savepoints) =
      p :: older := h
    simp only [hp, List.head_cons] at hhead
    simpa using hhead

theorem layered_answered_ok (hc : Counted s) (ha : Asked s) (h : s.Layered) {call : Call}
    (hcall : s.awaits.call = some call) {refusal : Option TxError} {server : Server}
    (hrun : s.server.execute refusal (call.statement s.name) = .ok server) :
    (({ s with server := server }.recordWrite call).settle call (.ok ())).Layered := by
  obtain ⟨t, t', htx, hexec, rfl⟩ := execute_ok hrun
  clear hrun
  have hstanding := h.standing
  rw [hcall] at hstanding
  unfold Asked at ha
  rw [hcall] at ha
  have hq (hother : ∀ err, call ≠ .rollbackTo err) : s.Quiet := by
    apply quiet_of_call h.toErrors
    intro err hback
    rw [hcall] at hback
    exact hother err (Option.some.inj hback)
  cases call with
  | body stmt =>
    have hquiet := hq fun err => Call.noConfusion
    cases stmt with
    | write w =>
      have hwrite : (if t.readOnly then Except.error readOnlyViolation
          else Except.ok { t with writes := t.writes ++ [w] }) = .ok t' := hexec
      split at hwrite
      · cases hwrite
      · rename_i hro
        obtain rfl := Except.ok.inj hwrite
        have hcore := core_write h.toCore htx (Bool.not_eq_true _ ▸ hro) w
        refine ⟨core_frame hcore rfl rfl rfl rfl rfl rfl, phase_body rfl h.finished hstanding, ?_⟩
        exact errors_of_quiet h.toErrors hquiet rfl rfl fun err hback => nomatch hback
    | read =>
      obtain rfl := Except.ok.inj hexec
      have hserver : ({ s.server with tx := some t } : Server) = s.server := by
        rw [← htx]
      rw [hserver]
      apply layered_body h _ hstanding
      intro err hback
      rw [hcall] at hback
      cases hback
  | savepoint =>
    obtain ⟨scope, hhead, hset, hbefore⟩ := hstanding
    obtain ⟨rest, hscopes⟩ : ∃ rest, s.scopes = scope :: rest := by
      obtain ⟨top, rest, hscopes⟩ := List.exists_cons_of_ne_nil (ha _ rfl rfl)
      rw [hscopes] at hhead
      obtain rfl := Option.some.inj hhead
      exact ⟨rest, hscopes⟩
    rw [name_eq hscopes] at hexec
    obtain rfl := Except.ok.inj hexec
    have hcore := core_savepoint hc h.toCore htx hscopes hset hbefore
    have hsettled (server : Server) : ({ s with server := server }.recordWrite .savepoint).settle
        .savepoint (.ok ()) =
        { s with server := server, scopes := { scope with set := true } :: rest, awaits := .body } := by
      show { ({ s with server := server } : State).established with awaits := .body } = _
      unfold established
      rw [hscopes]
    rw [hsettled]
    refine ⟨core_frame hcore rfl rfl rfl rfl rfl rfl, phase_body rfl h.finished ?_, ?_⟩
    · intro top htop
      obtain rfl := Option.some.inj htop
      rfl
    · exact errors_of_quiet h.toErrors (hq fun err => Call.noConfusion) rfl rfl
        fun err hback => nomatch hback
  | release =>
    obtain ⟨scope, rest, hscopes⟩ := List.exists_cons_of_ne_nil (ha _ rfl rfl)
    have hset : scope.set = true := hstanding scope (by rw [hscopes]; rfl)
    have hdown := downTo_set hc h.toNesting (h.points t htx) hscopes hset
    rw [name_eq hscopes] at hexec
    simp only [Call.statement, ServerTx.execute, hdown] at hexec
    obtain rfl := Except.ok.inj hexec
    have hquiet := hq fun err => Call.noConfusion
    have hn : ({ s with server := { s.server with
        tx := some { t with savepoints := rest.map s.point } } } : State).Nesting :=
      ⟨h.ids, h.enclosed, h.before, h.outside, h.inside, h.nested, h.outer⟩
    refine ⟨core_release h.toCore htx hscopes, phase_leave hn h.finished hscopes none, ?_⟩
    exact errors_leave_none (errors_server h.toErrors _) hquiet hscopes
  | rollbackTo err =>
    obtain ⟨scope, rest, hscopes⟩ := List.exists_cons_of_ne_nil (ha _ rfl rfl)
    rw [name_eq hscopes] at hexec
    have hset : scope.set = true := by
      rcases hstanding with hset | ⟨-, hlacks⟩
      · exact hset scope (by rw [hscopes]; rfl)
      · simp only [Call.statement, ServerTx.execute] at hexec
        split at hexec
        · cases hexec
        · rename_i p older hdown
          obtain ⟨hmem, hname⟩ := downTo_cons hdown
          exact absurd (hname.trans (name_eq hscopes).symm) (hlacks t htx p hmem)
    have hdown := downTo_set hc h.toNesting (h.points t htx) hscopes hset
    simp only [Call.statement, ServerTx.execute, hdown] at hexec
    obtain rfl := Except.ok.inj hexec
    have hn : ({ s with server := { s.server with
        tx := some { t with
          writes := t.writes.take (s.mark scope)
          savepoints := s.point scope :: rest.map s.point } } } : State).Nesting :=
      ⟨h.ids, h.enclosed, h.before, h.outside, h.inside, h.nested, h.outer⟩
    refine ⟨core_rollback hc h.toCore htx hscopes err, phase_leave hn h.finished hscopes _, ?_⟩
    exact errors_leave_some (errors_server h.toErrors { s.server with
      tx := some { t with
        writes := t.writes.take (s.mark scope)
        savepoints := s.point scope :: rest.map s.point } }) hscopes hcall

theorem execute_error {server : Server} {refusal : Option TxError} {stmt : Statement}
    {err : TxError} (h : server.execute refusal stmt = .error err) :
    server.tx = none ∨ refusal.isSome ∨ ∃ t err', server.tx = some t ∧ t.execute stmt = .error err' := by
  unfold Server.execute at h
  split at h
  · rename_i htx
    exact .inl htx
  · exact .inr (.inl rfl)
  · rename_i t htx
    cases hexec : t.execute stmt with
    | error err' => exact .inr (.inr ⟨t, err', htx, hexec⟩)
    | ok t' =>
      rw [hexec] at h
      cases h

theorem refused_of_dead (htx : s.server.tx = none) (call : Call) : s.Refused call := by
  have hlacks : s.Lacks := by
    intro t ht
    rw [htx] at ht
    cases ht
  cases call with
  | body stmt => trivial
  | savepoint => exact hlacks
  | release => trivial
  | rollbackTo err => exact hlacks

/-- A refused `SAVEPOINT` or `ROLLBACK TO` finds no savepoint of its name. -/
theorem refused_of_error {call : Call} {replay : Bool} {refusal : Option TxError}
    (hawaits : s.awaits = .run call replay) (hok : Orderly s (.answer refusal)) {err : TxError}
    (hexec : s.server.execute refusal (call.statement s.name) = .error err) : s.Refused call := by
  rcases execute_error hexec with hdead | hrefusal | ⟨t, err', htx, hfail⟩
  · exact refused_of_dead hdead call
  · obtain ⟨err', hrefusal⟩ := Option.isSome_iff_exists.mp hrefusal
    cases call with
    | body stmt => trivial
    | savepoint => exact hok.savepoint replay err' hawaits (by rw [hrefusal])
    | release => trivial
    | rollbackTo original => exact hok.rollbackTo original replay err' hawaits (by rw [hrefusal])
  · cases call with
    | body stmt => trivial
    | savepoint => cases hfail
    | release => trivial
    | rollbackTo original =>
      have hdown : t.downTo s.name = [] := by
        simp only [Call.statement, ServerTx.execute] at hfail
        split at hfail
        · rename_i hdown
          exact hdown
        · cases hfail
      intro t' ht'
      rw [htx] at ht'
      obtain rfl := Option.some.inj ht'
      exact downTo_nil hdown

theorem restart_eq (hfinished : s.finished = false) (after : Option Call) (rollback : Bool)
    (strategy : Option Options) : s.restart after rollback strategy =
      { s with awaits := .restartFinish after rollback strategy } := by
  unfold restart
  rw [if_neg (by simp [hfinished])]

theorem execute_eq (hfinished : s.finished = false) (call : Call) :
    s.execute call = s.attempt call false := by
  unfold execute
  rw [if_neg (by simp [hfinished])]

theorem enter_eq (hfinished : s.finished = false) :
    s.enter = { s with
      spDepth := s.spDepth + 1
      scopes := s.newScope :: s.scopes
      opened := s.opened + 1 }.attempt .savepoint false := by
  unfold enter
  rw [if_neg (by simp [hfinished])]
  apply execute_eq
  exact hfinished

theorem layered_answered (hc : Counted s) (ha : Asked s) (h : s.Layered) {call : Call}
    {replay : Bool} {refusal : Option TxError} (hawaits : s.awaits = .run call replay)
    (hok : Orderly s (.answer refusal)) : (s.answered call replay refusal).Layered := by
  have hcall : s.awaits.call = some call := by
    rw [hawaits]
    rfl
  unfold answered
  split
  · rename_i server hexec
    exact layered_answered_ok hc ha h hcall hexec
  · rename_i err hexec
    have hrefused := refused_of_error hawaits hok hexec
    split
    · rename_i hupgrade
      have hreadOnly : s.options.readOnly = true := by
        unfold shouldAutoUpgrade at hupgrade
        simp only [Bool.and_eq_true] at hupgrade
        exact hupgrade.2.1.1.2
      have hstanding := h.standing
      rw [hcall] at hstanding
      rw [restart_eq h.finished]
      refine ⟨core_frame h.toCore rfl rfl rfl rfl rfl rfl, ⟨h.finished, ?_, hstanding, ?_, ?_⟩, ?_⟩
      · exact fun _ => Awaits.noConfusion
      · intro after rollback strategy heq
        injection heq with hafter
        refine ⟨hreadOnly, ?_⟩
        intro asking hasking
        rw [← hafter] at hasking
        obtain rfl := Option.mem_some.mp hasking
        exact hrefused
      · exact fun after heq => nomatch heq
      · obtain ⟨hraised, hsettled, hraising⟩ := h.toErrors
        rw [hcall] at hraised hraising
        exact ⟨hraised, hsettled, hraising⟩
    · exact layered_settle_error hc ha h hcall hrefused err

theorem layered_restartFailed (hc : Counted s) (ha : Asked s) (h : s.Layered) {after : Option Call}
    (hafter : s.awaits.call = after) (hrefused : ∀ call ∈ after, s.Refused call) (err : TxError) :
    (s.restartFailed after err).Layered := by
  unfold restartFailed
  cases after with
  | none =>
    have hstanding := h.standing
    rw [hafter] at hstanding
    apply layered_body h _ hstanding
    intro err' hback
    rw [hafter] at hback
    cases hback
  | some call => exact layered_settle_error hc ha h hafter (hrefused call rfl) err

theorem layered_restartFinished (hc : Counted s) (ha : Asked s) (h : s.Layered)
    {after : Option Call} {rollback : Bool} {strategy : Option Options}
    (hawaits : s.awaits = .restartFinish after rollback strategy) (refusal : Option TxError) :
    (s.restartFinished after rollback strategy refusal).Layered := by
  obtain ⟨hreadOnly, hrefused⟩ := h.upgrading after rollback strategy hawaits
  have hafter : s.awaits.call = after := by
    rw [hawaits]
    rfl
  unfold restartFinished
  split
  · rename_i server hfinish
    obtain ⟨t, htx, -, rfl⟩ := finish_ok hfinish
    -- a transaction that is upgraded has written nothing
    have hwrote := h.readOnly hreadOnly
    have hwrites : t.writes = [] := by
      rw [h.writes t htx]
      unfold kept
      rw [hwrote]
      rfl
    have hstanding := h.standing
    rw [hafter] at hstanding
    refine ⟨⟨⟨?_, fun _ => hwrote, ?_, fun _ => hwrote, ?_, ?_⟩, ?_⟩, ⟨h.finished, ?_, ?_, ?_, ?_⟩,
      ?_⟩
    · show (if rollback then s.server.committed else s.server.committed ++ t.writes) = []
      rw [hwrites, h.committed]
      split <;> rfl
    · exact fun t ht => nomatch ht
    · exact fun t ht => nomatch ht
    · exact fun t ht => nomatch ht
    · exact ⟨h.ids, h.enclosed, h.before, h.outside, h.inside, h.nested, h.outer⟩
    · exact fun _ => Awaits.noConfusion
    · show State.Standing _ after
      rcases after with _ | ⟨stmt | _ | _ | err⟩
      · exact hstanding
      · exact hstanding
      · exact hstanding
      · exact hstanding
      · rcases hstanding with hset | ⟨hunset, -⟩
        · exact .inl hset
        · exact .inr ⟨hunset, fun t ht => nomatch ht⟩
    · exact fun after rollback strategy heq => nomatch heq
    · exact fun after _ => rfl
    · obtain ⟨hraised, hsettled, hraising⟩ := h.toErrors
      rw [hafter] at hraised hraising
      exact ⟨hraised, hsettled, hraising⟩
  · exact layered_restartFailed hc ha h hafter hrefused _

theorem layered_restartStarted (hc : Counted s) (ha : Asked s) (h : s.Layered)
    {after : Option Call} (hawaits : s.awaits = .restartStart after) {refusal : Option TxError}
    (hok : Orderly s (.answer refusal)) : (s.restartStarted after refusal).Layered := by
  have htx := h.starting after hawaits
  have hafter : s.awaits.call = after := by
    rw [hawaits]
    rfl
  unfold restartStarted
  split
  · rename_i server hstart
    obtain ⟨rfl, rfl⟩ := start_ok hstart
    have hnone : s.scopes = [] := hok.uncut after hawaits rfl
    have hwrote := h.dead htx
    have hcall : ∀ err, s.awaits.call ≠ some (.rollbackTo err) := by
      intro err hback
      exact ha _ hback rfl hnone
    have hquiet := quiet_of_call h.toErrors hcall
    have hcore : ({ s with
        server := { s.server with
          serial := s.server.serial + 1, tx := some { readOnly := s.options.readOnly } }
        spDepth := 0, finished := false } : State).Core := by
      refine ⟨⟨h.committed, fun _ => hwrote, ?_, (fun hno => nomatch hno), ?_, ?_⟩,
        ⟨h.ids, h.enclosed, h.before, h.outside, h.inside, h.nested, h.outer⟩⟩
      · intro t ht
        obtain rfl := Option.mem_some.mp ht
        rfl
      · intro t ht
        obtain rfl := Option.mem_some.mp ht
        show [] = keepers s.failed s.wrote
        rw [hwrote]
        rfl
      · intro t ht
        obtain rfl := Option.mem_some.mp ht
        refine ⟨[], ?_, Nat.zero_le 1, fun p hmem => absurd hmem List.not_mem_nil⟩
        show [] = [] ++ (settings s.scopes).map _
        rw [hnone]
        rfl
    have htop : s.TopSet := by
      intro scope hmem
      rw [hnone] at hmem
      cases hmem
    cases after with
    | none =>
      refine ⟨core_frame hcore rfl rfl rfl rfl rfl rfl, phase_body rfl rfl htop, ?_⟩
      exact errors_of_quiet h.toErrors hquiet rfl rfl fun err hback => nomatch hback
    | some call =>
      cases call with
      | body stmt =>
        refine ⟨core_frame hcore rfl rfl rfl rfl rfl rfl, ?_, ?_⟩
        · apply phase_attempt
          · rfl
          · exact htop
        · exact errors_of_quiet h.toErrors hquiet rfl rfl fun err hback => nomatch hback
      | savepoint => exact absurd hnone (ha _ hafter rfl)
      | release => exact absurd hnone (ha _ hafter rfl)
      | rollbackTo err => exact absurd hnone (ha _ hafter rfl)
  · exact layered_restartFailed hc ha h hafter (fun call _ => refused_of_dead htx call) _

theorem layered_execute (h : s.Layered) (hbody : s.awaits = .body) {call : Call}
    (hback : ∀ err, call ≠ .rollbackTo err) (hstanding : s.Standing (some call)) :
    (s.execute call).Layered := by
  rw [execute_eq h.finished]
  have hquiet := quiet_of_call h.toErrors (by
    intro err hcall
    rw [hbody] at hcall
    cases hcall)
  refine ⟨core_frame h.toCore rfl rfl rfl rfl rfl rfl, phase_attempt h.finished hstanding false, ?_⟩
  apply @errors_of_quiet _ (s.attempt call false) h.toErrors hquiet rfl rfl
  intro err hcall
  exact hback err (Option.some.inj hcall)

theorem layered_enter (h : s.Layered) (hbody : s.awaits = .body) : s.enter.Layered := by
  have htop := h.standing
  rw [hbody] at htop
  have hquiet := quiet_of_call h.toErrors (by
    intro err hcall
    rw [hbody] at hcall
    cases hcall)
  have hcore := core_push h.toCore htop
  rw [enter_eq h.finished]
  refine ⟨core_frame hcore rfl rfl rfl rfl rfl rfl, ?_, ?_⟩
  · apply phase_attempt
    · exact h.finished
    · exact ⟨s.newScope, rfl, rfl, rfl⟩
  · exact errors_of_quiet h.toErrors hquiet rfl rfl fun err hback => nomatch hback

theorem layered_step {e : Event} (hc : Counted s) (ha : Asked s) (h : s.Layered)
    (hok : Orderly s e) (hs : s.step e = some s') : s'.Layered := by
  have htop (hbody : s.awaits = .body) : s.TopSet := by
    have hstanding := h.standing
    rw [hbody] at hstanding
    exact hstanding
  unfold step at hs
  split at hs
  · rename_i hbody
    obtain rfl := Option.some.inj hs
    exact layered_enter h hbody
  · rename_i stmt hbody
    obtain rfl := Option.some.inj hs
    exact layered_execute h hbody (fun _ => Call.noConfusion) (htop hbody)
  · rename_i hbody
    split at hs
    · cases hs
    · obtain rfl := Option.some.inj hs
      exact layered_execute h hbody (fun _ => Call.noConfusion) (htop hbody)
  · rename_i err hbody
    split at hs
    · cases hs
    · rename_i hopen
      obtain rfl := Option.some.inj hs
      have hquiet := quiet_of_call h.toErrors (by
        intro err hcall
        rw [hbody] at hcall
        cases hcall)
      exact layered_caught h.toCore h.finished h.toErrors hquiet hopen err (.inl (htop hbody))
  · exact absurd hok.plain Bool.noConfusion
  · exact absurd hok.plain Bool.noConfusion
  · exact absurd hok.plain Bool.noConfusion
  · rename_i call replay refusal hawaits
    obtain rfl := Option.some.inj hs
    exact layered_answered hc ha h hawaits hok
  · rename_i after rollback strategy refusal hawaits
    obtain rfl := Option.some.inj hs
    exact layered_restartFinished hc ha h hawaits refusal
  · rename_i after refusal hawaits
    obtain rfl := Option.some.inj hs
    exact layered_restartStarted hc ha h hawaits hok
  · rename_i rollback refusal hawaits
    exact absurd hawaits (h.idle rollback)
  · cases hs

end State

theorem reachable_layered {options : Options} {s : State}
    (h : (machine options).Reachable Orderly s) : (Counted s ∧ Asked s) ∧ s.Layered := by
  refine h.invariant (fun s => (Counted s ∧ Asked s) ∧ s.Layered) ?_ ?_
  · rintro s rfl
    refine ⟨reachable_counted (.init rfl), ⟨⟨⟨rfl, fun _ => rfl, ?_, fun _ => rfl, ?_, ?_⟩,
      ⟨List.Perm.refl _, ?_, ?_, ?_, ?_, List.Pairwise.nil, ?_⟩⟩, ?_, ?_⟩⟩
    · intro t ht
      obtain rfl := Option.mem_some.mp ht
      rfl
    · intro t ht
      obtain rfl := Option.mem_some.mp ht
      rfl
    · intro t ht
      obtain rfl := Option.mem_some.mp ht
      exact ⟨[], rfl, Nat.zero_le 1, fun p hmem => absurd hmem List.not_mem_nil⟩
    · exact fun w hw => absurd hw List.not_mem_nil
    · exact fun scope hmem => absurd hmem List.not_mem_nil
    · exact fun scope hmem => absurd hmem List.not_mem_nil
    · exact fun scope hmem => absurd hmem List.not_mem_nil
    · exact fun scope hmem => absurd hmem List.not_mem_nil
    · exact State.phase_body rfl rfl fun scope hmem => nomatch hmem
    · refine ⟨?_, ?_, ?_⟩
      · exact fun i err hmem => absurd hmem List.not_mem_nil
      · exact fun i err hmem => absurd hmem List.not_mem_nil
      · exact fun err hback => nomatch hback
  · rintro s e s' ⟨⟨hc, ha⟩, hl⟩ hok hs
    exact ⟨State.counted_step hc ha hok.uncut hs, State.layered_step hc ha hl hok hs⟩

/-- In every state of a run the writes that are there are those that no failed scope encloses, so
at its end those all of whose scopes have succeeded; and a scope ends with the one error that it
has raised. -/
theorem nested_scopes_keep {options : Options} {s : State}
    (h : (machine options).Reachable Orderly s) :
    s.server.visible = (s.wrote.filter fun w => !w.enclosing.any s.failed).map (·.write) ∧
      (s.scopes = [] → s.server.visible =
        (s.wrote.filter fun w => w.enclosing.all fun i => (i, none) ∈ s.settled).map (·.write)) ∧
      ∀ i err, (i, some err) ∈ s.settled → ∀ err', (i, err') ∈ s.raised ↔ err' = err := by
  obtain ⟨-, hl⟩ := reachable_layered h
  have hvisible : s.server.visible = s.kept := by
    unfold Server.visible
    rw [hl.committed, List.nil_append]
    cases htx : s.server.tx with
    | none =>
      unfold State.kept
      rw [hl.dead htx]
      rfl
    | some t => exact hl.writes t htx
  refine ⟨hvisible, ?_, ?_⟩
  · intro hnone
    rw [hvisible]
    apply congrArg (List.map _)
    apply List.filter_congr
    intro w hw
    have hended {i : Nat} (hi : i ∈ w.enclosing) :
        s.failed i = false ↔ (i, none) ∈ s.settled := by
      have hopened : i ∈ List.range s.opened := List.mem_range.mpr (hl.enclosed w hw i hi)
      have hids := hl.ids.mem_iff.mpr hopened
      rw [hnone, List.map_nil, List.append_nil] at hids
      obtain ⟨⟨j, outcome⟩, hmem, rfl⟩ := List.mem_map.mp hids
      rw [← Bool.not_eq_true, State.failed_iff]
      constructor
      · intro hfail
        cases outcome with
        | none => exact hmem
        | some err => exact absurd ⟨err, hmem⟩ hfail
      · rintro hnone ⟨err, herr⟩
        cases State.settled_unique hl.toNesting hnone herr
    rw [Bool.eq_iff_iff, Bool.not_eq_true', List.any_eq_false, List.all_eq_true]
    constructor
    · intro hkeep i hi
      exact decide_eq_true ((hended hi).mp (Bool.not_eq_true _ ▸ hkeep i hi))
    · intro hall i hi hfail
      have hok := (hended hi).mpr (of_decide_eq_true (hall i hi))
      rw [hok] at hfail
      cases hfail
  · intro i err hmem err'
    constructor
    · intro hraised
      rcases hl.raised i err' hraised with hsettled | ⟨-, scope, hhead, rfl⟩
      · exact Option.some.inj (State.settled_unique hl.toNesting hsettled hmem)
      · have hopen := List.mem_of_mem_head? hhead
        exact absurd hmem (State.open_not_settled hl.toNesting hopen _)
    · rintro rfl
      exact hl.settled i err' hmem

/-- One write of the transaction, and one of a scope that throws. -/
def oneFailed : State where
  options := {}
  server := { tx := some { readOnly := false, writes := [7], savepoints := [⟨1, 1⟩] } }
  opened := 1
  sent := [1, 1]
  wrote := [⟨7, []⟩, ⟨8, [0]⟩]
  raised := [(0, { message := "undo" })]
  settled := [(0, some { message := "undo" })]

theorem orderly_of_body {s : State} {e : Event} (hbody : s.awaits = .body) (hplain : e.plain = true) :
    Orderly s e := by
  refine ⟨hplain, ?_, ?_, ?_⟩
  · intro after hawaits
    rw [hbody] at hawaits
    cases hawaits
  · intro replay err hawaits
    rw [hbody] at hawaits
    cases hawaits
  · intro original replay err hawaits
    rw [hbody] at hawaits
    cases hawaits

theorem orderly_of_accepted {s : State} {call : Call} {replay : Bool}
    (hrun : s.awaits = .run call replay) : Orderly s (.answer none) := by
  refine ⟨rfl, ?_, (fun _ _ _ heq => nomatch heq), (fun _ _ _ _ heq => nomatch heq)⟩
  intro after hawaits
  rw [hrun] at hawaits
  cases hawaits

theorem nested_scopes_keep_one :
    oneFailed.server.visible = [7] ∧
      ∀ err', (0, err') ∈ oneFailed.raised ↔ err' = { message := "undo" } := by
  have h₀ : (machine {}).Reachable Orderly (begun {}) := .init rfl
  have h₁ := h₀.step (e := Event.statement (.write 7)) (orderly_of_body rfl rfl) rfl
  have h₂ := h₁.step (e := Event.answer none) (orderly_of_accepted rfl) rfl
  have h₃ := h₂.step (e := Event.enter) (orderly_of_body rfl rfl) rfl
  have h₄ := h₃.step (e := Event.answer none) (orderly_of_accepted rfl) rfl
  have h₅ := h₄.step (e := Event.statement (.write 8)) (orderly_of_body rfl rfl) rfl
  have h₆ := h₅.step (e := Event.answer none) (orderly_of_accepted rfl) rfl
  have h₇ := h₆.step (e := Event.throws { message := "undo" }) (orderly_of_body rfl rfl) rfl
  have hrun : (machine {}).Reachable Orderly oneFailed :=
    h₇.step (e := Event.answer none) (orderly_of_accepted rfl) rfl
  have hkeep := nested_scopes_keep hrun
  exact ⟨hkeep.1.trans (by decide), hkeep.2.2 0 { message := "undo" } (by decide)⟩

/-- A scope fails and leaves its savepoint behind; the `SAVEPOINT` of the next one is refused. -/
def staleSavepoint : List Event :=
  [.statement (.write 1), .answer none, .enter, .answer none, .throws { message := "undo" },
    .answer none, .statement (.write 2), .answer none, .enter,
    .answer (some { message := "refused" }), .answer none]

theorem stale_savepoint_undoes :
    ¬ ∀ s : State, (machine {}).Reachable (fun _ e => e.plain = true) s → s.scopes = [] →
      s.server.visible =
        (s.wrote.filter fun w => w.enclosing.all fun i => (i, none) ∈ s.settled).map (·.write) := by
  intro hall
  have hrun : ∃ s, (machine {}).run (begun {}) staleSavepoint = some s ∧ s.scopes = [] ∧
      s.server.visible = [1] ∧ s.wrote = [⟨1, []⟩, ⟨2, []⟩] := ⟨_, rfl, rfl, rfl, rfl⟩
  obtain ⟨s, hrun, hscopes, hvisible, hwrote⟩ := hrun
  have hplain : ∀ e ∈ staleSavepoint, e.plain = true := by decide
  have hs := hall s (Machine.Reachable.run_of (.init rfl) (fun e he _ => hplain e he) hrun) hscopes
  rw [hvisible, hwrote] at hs
  have htwo : [1] = [1, 2] := hs
  exact absurd htwo (by decide)

end FastFirebird.NestedTx
