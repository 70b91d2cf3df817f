import FastFirebird.Readers
import Mathlib.Algebra.BigOperators.Group.List.Basic
import Mathlib.Algebra.GroupWithZero.Nat

/-! `Attachment.roundTrips` over the sections, reconnects and farewells of an attachment. -/
namespace FastFirebird

/-- `flushCount` belongs to the wire of a transport. `adopted` is kept for the record: the wires
that have been the attachment's. -/
structure RoundTrips where
  traffic : Traffic
  flushCount : Nat → Nat
  roundTripsBase : Nat := 0
  adopted : List Nat

/-- A flush that has something to send, by the code that is on its way. -/
inductive RoundTripEvent where
  | traffic (e : TrafficEvent)
  | flush (id : Nat)
  deriving Repr, DecidableEq

namespace RoundTrips

def roundTrips (s : RoundTrips) : Nat := s.roundTripsBase + s.flushCount s.traffic.current

/-- `WireConnection.flush` -/
def flush (i : Nat) (s : RoundTrips) : RoundTrips :=
  { s with flushCount := fun j => if j = i then s.flushCount j + 1 else s.flushCount j }

/-- The first part of the section of `reconnect`, up to its first await: `detachDatabase` sends
its request at once. -/
def retire (s : RoundTrips) : RoundTrips :=
  { s with roundTripsBase := s.roundTripsBase + s.flushCount s.traffic.current }.flush
    s.traffic.current

/-- What an event of the attachment counts, before it happens. -/
def count (s : RoundTrips) : TrafficEvent → RoundTrips
  | .start => if s.traffic.queue.head? = some .reconnect then s.retire else s
  -- `performHandshake` begins with `op_connect`
  | .connected => s.traffic.holder.elim s fun a => s.flush a.transport
  | .established => s.traffic.holder.elim s fun a => { s with adopted := s.adopted ++ [a.transport] }
  -- `disconnect` detaches, `dropDatabase` sends its own request
  | .disconnect | .dropDatabase => if s.traffic.detached then s else s.flush s.traffic.current
  | _ => s

def step (s : RoundTrips) : RoundTripEvent → Option RoundTrips
  | .traffic e => (s.traffic.step e).map fun t => { s.count e with traffic := t }
  | .flush id => (s.traffic.actor id).bind fun a =>
    if Traffic.Task.reads a.task ∧ ((s.traffic.transports a.transport).pending id).isNone then
      some (s.flush a.transport)
    else none

/-- `Attachment.open` has sent `op_connect` and `op_attach` at least. -/
def opened (more : Nat) : RoundTrips :=
  { traffic := Traffic.opened₀
    flushCount := fun i => if i = 0 then more + 2 else 0
    adopted := [0] }

/-- The flushes on all wires that have been the attachment's. -/
def flushes (s : RoundTrips) : Nat := (s.adopted.map s.flushCount).sum

/-- In every state of the run the flushes are counted, and the count never falls. -/
def Accounts : RoundTrips → List RoundTripEvent → Prop
  | s, [] => s.roundTrips = s.flushes
  | s, e :: es => s.roundTrips = s.flushes ∧
    ∀ s', s.step e = some s' → s.roundTrips ≤ s'.roundTrips ∧ Accounts s' es

/-- The section of a reconnect begins with this event. -/
def Retires (s : RoundTrips) (e : RoundTripEvent) : Prop :=
  e = .traffic .start ∧ s.traffic.holder = none ∧ s.traffic.queue.head? = some .reconnect

/-- No reconnect gets the lock in the run. -/
def Quiet : RoundTrips → List RoundTripEvent → Prop
  | _, [] => True
  | s, e :: es => ¬ s.Retires e ∧ ∀ s', s.step e = some s' → Quiet s' es

end RoundTrips

/-! Without a reconnect under the lock -/

namespace Traffic

variable {s s' : Traffic}

/-- Nobody is at a stage of a reconnect. -/
def Calm (s : Traffic) : Prop := ∀ a ∈ s.actors, a.task = .operation ∨ a.task = .leave

theorem Calm.subset (h : s.Calm) (hsub : s'.actors ⊆ s.actors) : s'.Calm := fun a ha => h a (hsub ha)

theorem Calm.start (h : s.Calm) (hs : s.start = some s')
    (hjob : s.queue.head? ≠ some .reconnect) : s'.current = s.current ∧ s'.Calm := by
  unfold Traffic.start at hs
  split at hs
  · rename_i job queue hholder hqueue
    obtain rfl := Option.some.inj hs
    refine ⟨rfl, fun a ha => ?_⟩
    rcases List.mem_append.mp ha with hnew | hout
    · have ha : a = ⟨s.ids, jobTask job, s.jobTransport job⟩ := by
        simpa only [Option.toList, List.mem_singleton] using hnew
      cases job with
      | operation transport => exact Or.inl (congrArg Actor.task ha)
      | reconnect => exact absurd (by rw [hqueue, List.head?_cons]) hjob
    · exact h a (List.mem_append_right _ hout)
  · cases hs

theorem Calm.proceed (h : s.Calm) {id : Nat} (hs : s.proceed id = some s') :
    s'.current = s.current ∧ s'.Calm := by
  obtain ⟨a, ha, hs⟩ := Option.bind_eq_some_iff.mp hs
  split at hs
  · obtain rfl := Option.some.inj hs
    have hmem := (actor_some ha).1
    rcases h a hmem with htask | htask
    · rw [leaveBehind, htask]
      exact ⟨rfl, h.subset (List.subset_append_right _ _)⟩
    · rw [leaveBehind, htask]
      refine ⟨rfl, h.subset ?_⟩
      intro b hb
      rcases List.mem_append.mp hb with hholder | hout
      · exact List.mem_append_left _ hholder
      · exact List.mem_append_right _ (List.mem_of_mem_erase hout)
  · cases hs

/-- What needs the holder at a stage of a reconnect does not happen. -/
theorem Calm.not_staged (h : s.Calm) {task : Task} (hstage : task = .connect ∨ task = .handshake)
    {P : Actor → Prop} [DecidablePred P] {f : Actor → Traffic} (hP : ∀ a, P a → a.task = task) :
    (s.holder.bind fun a => if P a then some (f a) else none) ≠ some s' := by
  intro hs
  obtain ⟨a, ha, hs⟩ := Option.bind_eq_some_iff.mp hs
  have hmem : a ∈ s.actors := by
    rw [actors_holder ha]
    exact List.mem_cons_self
  split at hs
  · rename_i hp
    have htask := hP a hp
    rcases h a hmem with hcalm | hcalm <;> rcases hstage with rfl | rfl <;>
      exact Task.noConfusion (htask.symm.trans hcalm)
  · cases hs

theorem Calm.leave (h : s.Calm) : s.leave.Calm := by
  intro a ha
  rcases List.mem_append.mp ha with hholder | hout
  · exact h a (List.mem_append_left _ hholder)
  · rcases List.mem_cons.mp hout with rfl | hout
    · exact Or.inr rfl
    · exact h a (List.mem_append_right _ hout)

/-- An event that does not give the lock to a reconnect keeps the wire. -/
theorem Calm.step (h : s.Calm) {e : TrafficEvent} (hs : s.step e = some s')
    (hstart : e = .start → s.queue.head? ≠ some .reconnect) :
    s'.current = s.current ∧ s'.Calm ∧ e ≠ .connected ∧ e ≠ .established := by
  cases e with
  | call captures =>
    obtain rfl := Option.some.inj hs
    exact ⟨rfl, h, by simp, by simp⟩
  | reconnect =>
    simp only [Traffic.step] at hs
    split at hs
    · cases hs
    · obtain rfl := Option.some.inj hs
      exact ⟨rfl, h, by simp, by simp⟩
  | start =>
    obtain ⟨hcurrent, hcalm⟩ := h.start hs (hstart rfl)
    exact ⟨hcurrent, hcalm, by simp, by simp⟩
  | read id n =>
    obtain ⟨a, _, hs⟩ := Option.bind_eq_some_iff.mp hs
    split at hs
    · obtain rfl := Option.some.inj hs
      exact ⟨rfl, h, by simp, by simp⟩
    · cases hs
  | resume id =>
    obtain ⟨a, _, hs⟩ := Option.bind_eq_some_iff.mp hs
    obtain ⟨r, _, hs⟩ := Option.bind_eq_some_iff.mp hs
    split at hs
    · cases hs
    · obtain rfl := Option.some.inj hs
      exact ⟨rfl, h, by simp, by simp⟩
  | proceed id =>
    obtain ⟨hcurrent, hcalm⟩ := h.proceed hs
    exact ⟨hcurrent, hcalm, by simp, by simp⟩
  | connected => exact absurd hs (h.not_staged (Or.inl rfl) fun _ hp => hp)
  | established => exact absurd hs (h.not_staged (Or.inr rfl) fun _ hp => hp.1)
  | deadline => exact absurd hs (h.not_staged (Or.inr rfl) fun _ hp => hp)
  | disconnect =>
    obtain rfl := Option.some.inj hs
    split
    · exact ⟨rfl, h, by simp, by simp⟩
    · exact ⟨rfl, h.leave, by simp, by simp⟩
  | dropDatabase =>
    simp only [Traffic.step] at hs
    split at hs
    · cases hs
    · obtain rfl := Option.some.inj hs
      exact ⟨rfl, h.leave, by simp, by simp⟩
  | data i bytes =>
    simp only [Traffic.step] at hs
    split at hs
    · obtain rfl := Option.some.inj hs
      exact ⟨rfl, h, by simp, by simp⟩
    · cases hs
  | broken i err =>
    simp only [Traffic.step] at hs
    split at hs
    · obtain rfl := Option.some.inj hs
      exact ⟨rfl, h, by simp, by simp⟩
    · cases hs

end Traffic

namespace RoundTrips

variable {s s' : RoundTrips}

/-- The attachment has its first wire, and no reconnect is under way. -/
structure Fresh (s : RoundTrips) : Prop where
  base : s.roundTripsBase = 0
  adopted : s.adopted = [s.traffic.current]
  flushed : 0 < s.flushCount s.traffic.current
  calm : s.traffic.Calm

theorem opened_fresh (more : Nat) : (opened more).Fresh :=
  ⟨rfl, rfl, Nat.succ_pos _, fun _ h => absurd h List.not_mem_nil⟩

theorem Fresh.counted (h : s.Fresh) : s.roundTrips = s.flushes := by
  rw [roundTrips, flushes, h.base, h.adopted, List.map_singleton, List.sum_singleton, Nat.zero_add]

theorem flushCount_flush (i j : Nat) : s.flushCount j ≤ (s.flush i).flushCount j := by
  simp only [flush]
  split <;> omega

theorem Fresh.flush (h : s.Fresh) (i : Nat) :
    (s.flush i).Fresh ∧ s.roundTrips ≤ (s.flush i).roundTrips := by
  have hle : s.flushCount s.traffic.current ≤ (s.flush i).flushCount s.traffic.current :=
    flushCount_flush i _
  exact ⟨⟨h.base, h.adopted, Nat.lt_of_lt_of_le h.flushed hle, h.calm⟩, Nat.add_le_add_left hle _⟩

theorem Fresh.traffic (h : s.Fresh) {t : Traffic} (hcurrent : t.current = s.traffic.current)
    (hcalm : t.Calm) : ({ s with traffic := t } : RoundTrips).Fresh ∧
      s.roundTrips ≤ ({ s with traffic := t } : RoundTrips).roundTrips := by
  have hcount : ({ s with traffic := t } : RoundTrips).roundTrips = s.roundTrips := by
    rw [roundTrips, roundTrips, hcurrent]
  have hadopted : s.adopted = [t.current] := by rw [hcurrent, h.adopted]
  have hflushed : 0 < s.flushCount t.current := by rw [hcurrent]; exact h.flushed
  exact ⟨⟨h.base, hadopted, hflushed, hcalm⟩, Nat.le_of_eq hcount.symm⟩

/-- What an event counts that is no stage of a reconnect. -/
theorem Fresh.count (h : s.Fresh) {e : TrafficEvent}
    (hstart : e = .start → s.traffic.queue.head? ≠ some .reconnect)
    (hstage : e ≠ .connected ∧ e ≠ .established) :
    (s.count e).Fresh ∧ s.roundTrips ≤ (s.count e).roundTrips ∧
      (s.count e).traffic = s.traffic := by
  have hself : s.Fresh ∧ s.roundTrips ≤ s.roundTrips ∧ s.traffic = s.traffic :=
    ⟨h, Nat.le_refl _, rfl⟩
  have hleave : (if s.traffic.detached then s else s.flush s.traffic.current).Fresh ∧
      s.roundTrips ≤ (if s.traffic.detached then s else s.flush s.traffic.current).roundTrips ∧
      (if s.traffic.detached then s else s.flush s.traffic.current).traffic = s.traffic := by
    split
    · exact hself
    · exact ⟨(h.flush _).1, (h.flush _).2, rfl⟩
  cases e with
  | start =>
    rw [RoundTrips.count, if_neg (hstart rfl)]
    exact hself
  | connected => exact absurd rfl hstage.1
  | established => exact absurd rfl hstage.2
  | disconnect | dropDatabase => exact hleave
  | call | reconnect | read | resume | proceed | deadline | data | broken => exact hself

theorem Fresh.step (h : s.Fresh) {e : RoundTripEvent} (hquiet : ¬ s.Retires e)
    (hs : s.step e = some s') : s'.Fresh ∧ s.roundTrips ≤ s'.roundTrips := by
  cases e with
  | flush id =>
    obtain ⟨a, _, hs⟩ := Option.bind_eq_some_iff.mp hs
    split at hs
    · obtain rfl := Option.some.inj hs
      exact h.flush _
    · cases hs
  | traffic e =>
    obtain ⟨t, ht, rfl⟩ := Option.map_eq_some_iff.mp hs
    have hstart : e = .start → s.traffic.queue.head? ≠ some .reconnect := by
      rintro rfl hhead
      -- a section begins only when the lock is free
      have hholder : s.traffic.holder = none := by
        simp only [Traffic.step, Traffic.start] at ht
        split at ht
        · assumption
        · cases ht
      exact hquiet ⟨rfl, hholder, hhead⟩
    obtain ⟨hcurrent, hcalm, hstage⟩ := h.calm.step ht hstart
    obtain ⟨hcount, hle, htraffic⟩ := h.count hstart hstage
    obtain ⟨hfresh, hle'⟩ := hcount.traffic (hcurrent.trans (congrArg _ htraffic.symm)) hcalm
    exact ⟨hfresh, Nat.le_trans hle hle'⟩

/-- The base gets what the wire of the attachment has counted, and that wire is still the
attachment's. -/
theorem Fresh.retires (h : s.Fresh) {e : RoundTripEvent} (hretires : s.Retires e) :
    ∃ s', s.step e = some s' ∧ s'.roundTrips ≠ s'.flushes := by
  obtain ⟨rfl, hholder, hhead⟩ := hretires
  obtain ⟨queue, hqueue⟩ := List.head?_eq_some_iff.mp hhead
  have hflushed := h.flushed
  refine ⟨{ s.retire with traffic := { s.traffic with
    queue := queue
    ids := s.traffic.ids + 1
    holder := some ⟨s.traffic.ids, .detach, s.traffic.current⟩ } }, ?_, ?_⟩
  · rw [RoundTrips.step, Traffic.step, Traffic.start, hholder, hqueue, RoundTrips.count, if_pos hhead]
    rfl
  · simp only [roundTrips, flushes, retire, RoundTrips.flush, h.base, h.adopted, List.map_cons, List.map_nil,
      List.sum_cons, List.sum_nil, if_true]
    omega

theorem Fresh.accounts_iff (es : List RoundTripEvent) : ∀ {s : RoundTrips}, s.Fresh →
    (s.Accounts es ↔ s.Quiet es) := by
  induction es with
  | nil => exact fun h => ⟨fun _ => trivial, fun _ => h.counted⟩
  | cons e es ih =>
    intro s h
    by_cases hretires : s.Retires e
    · obtain ⟨s', hs, hne⟩ := h.retires hretires
      refine ⟨fun haccounts => ?_, fun hquiet => absurd hretires hquiet.1⟩
      have hafter := (haccounts.2 s' hs).2
      cases es with
      | nil => exact absurd hafter hne
      | cons _ _ => exact absurd hafter.1 hne
    · constructor
      · intro haccounts
        refine ⟨hretires, fun s' hs => ?_⟩
        exact (ih (h.step hretires hs).1).mp (haccounts.2 s' hs).2
      · intro hquiet
        refine ⟨h.counted, fun s' hs => ?_⟩
        have ⟨hfresh, hle⟩ := h.step hretires hs
        exact ⟨hle, (ih hfresh).mpr (hquiet.2 s' hs)⟩

/-- Every flush on a wire of the attachment is counted once, in all states of a run, exactly if no
reconnect gets the lock in it. -/
theorem roundTrips_accounts_iff (more : Nat) (es : List RoundTripEvent) :
    (opened more).Accounts es ↔ (opened more).Quiet es :=
  (opened_fresh more).accounts_iff es

/-- With the new wire the count falls from 5 to 4, where 5 flushes have been made: the base has the
first wire's 2, and not the one of its detach. -/
theorem reconnect_miscounts : ¬ (opened 0).Accounts
    [.traffic .reconnect, .traffic .start, .traffic (.proceed 0), .traffic .connected, .flush 0,
      .traffic .established] := by
  intro h
  have hqueued := (h.2 _ rfl).2
  have hdetaching := (hqueued.2 _ rfl).2
  have hclosed := (hdetaching.2 _ rfl).2
  have hconnected := (hclosed.2 _ rfl).2
  have hattaching := (hconnected.2 _ rfl).2
  have hfalls := (hattaching.2 _ rfl).1
  exact absurd hfalls (by decide)

end RoundTrips
end FastFirebird
