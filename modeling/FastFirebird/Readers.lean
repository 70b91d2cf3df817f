import FastFirebird.Traffic
import Mathlib.Data.List.Nodup

/-! At most one read waits on a transport, and none on one that is closed or has failed. -/
namespace FastFirebird

namespace Transport

/-- A transport that at most one piece of code reads from while it works; `users` are those that
may read from it. -/
structure Tidy (t : Transport) (users : List Actor) : Prop where
  slot : ∀ r ∈ t.reads, r.promise = .waiting → t.rxWaiter = some r.id ∧ t.error = none
  nodup : (t.reads.map (·.id)).Nodup
  owned : ∀ r ∈ t.reads, ∃ a ∈ users, a.id = r.id
  alone : t.error = none → users.length ≤ 1
  unused : t.closed = true → t.error = none → users = []

variable {t : Transport} {users : List Actor}

theorem pending_none {id : Nat} (h : (t.pending id).isNone) : ∀ r ∈ t.reads, r.id ≠ id := by
  intro r hr heq
  have hnone := List.find?_eq_none.mp (Option.isNone_iff_eq_none.mp h) r hr
  exact hnone (by simpa using heq)

theorem pending_some {id : Nat} {r : SuspendedRead} (h : t.pending id = some r) :
    r ∈ t.reads ∧ r.id = id :=
  ⟨List.mem_of_find?_eq_some h, by simpa using List.find?_some h⟩

/-- The reads after `settle` are the old ones, one of them perhaps with its promise settled. -/
theorem mem_settle {promise : Promise} {r : SuspendedRead} (h : r ∈ t.settle promise) :
    ∃ r₀ ∈ t.reads, r.id = r₀.id ∧
      (r = r₀ ∧ ¬(t.rxWaiter = some r₀.id ∧ r₀.promise = .waiting) ∨ r.promise = promise) := by
  obtain ⟨r₀, hr₀, rfl⟩ := List.mem_map.mp h
  refine ⟨r₀, hr₀, ?_⟩
  split
  · exact ⟨rfl, .inr rfl⟩
  · rename_i hno
    exact ⟨rfl, .inl ⟨rfl, hno⟩⟩

theorem ids_settle (promise : Promise) : (t.settle promise).map (·.id) = t.reads.map (·.id) := by
  simp only [settle, List.map_map]
  refine List.map_congr_left fun r _ => ?_
  simp only [Function.comp_apply]
  split <;> rfl

theorem Tidy.enqueue (h : Tidy t users) (data : List UInt8) : Tidy (t.enqueue data) users := by
  refine ⟨fun r hr hw => ?_, ?_, fun r hr => ?_, h.alone, h.unused⟩
  · obtain ⟨r₀, hr₀, -, ⟨rfl, hno⟩ | hp⟩ := mem_settle hr
    · exact absurd ⟨(h.slot r hr₀ hw).1, hw⟩ hno
    · rw [hp] at hw
      cases hw
  · change ((t.settle .resolved).map (·.id)).Nodup
    rw [ids_settle]
    exact h.nodup
  · obtain ⟨r₀, hr₀, hid, -⟩ := mem_settle hr
    rw [hid]
    exact h.owned r₀ hr₀

theorem Tidy.fail (h : Tidy t users) (err : String) : Tidy (t.fail err) users := by
  unfold Transport.fail
  cases he : t.error with
  | some _ => exact h
  | none =>
    refine ⟨fun r hr hw => ?_, ?_, fun r hr => ?_, ?_, ?_⟩
    · obtain ⟨r₀, hr₀, -, ⟨rfl, hno⟩ | hp⟩ := mem_settle hr
      · exact absurd ⟨(h.slot r hr₀ hw).1, hw⟩ hno
      · rw [hp] at hw
        cases hw
    · change ((t.settle (.rejected err)).map (·.id)).Nodup
      rw [ids_settle]
      exact h.nodup
    · obtain ⟨r₀, hr₀, hid, -⟩ := mem_settle hr
      rw [hid]
      exact h.owned r₀ hr₀
    · intro hne
      cases hne
    · intro _ hne
      cases hne

/-- The user of a transport that works finds no other read on it. -/
theorem Tidy.no_reads (h : Tidy t users) (he : t.error = none) {a : Actor} (ha : a ∈ users)
    (hno : ∀ r ∈ t.reads, r.id ≠ a.id) : t.reads = [] := by
  have hone := h.alone he
  refine List.eq_nil_iff_forall_not_mem.mpr fun r hr => ?_
  obtain ⟨b, hb, hid⟩ := h.owned r hr
  have hba : b = a := by
    match users, hone, ha, hb with
    | [c], _, ha, hb => rw [List.mem_singleton.mp ha, List.mem_singleton.mp hb]
  exact hno r hr (by rw [← hid, hba])

theorem Tidy.read (h : Tidy t users) {a : Actor} (ha : a ∈ users)
    (hno : ∀ r ∈ t.reads, r.id ≠ a.id) (n : Nat) : Tidy (t.read a.id n).2 users := by
  unfold Transport.read
  split
  · cases he : t.error with
    | some err => exact h
    | none =>
      have hnil := h.no_reads he ha hno
      refine ⟨fun r hr _ => ?_, ?_, fun r hr => ?_, fun _ => h.alone he, fun hc _ => h.unused hc he⟩
      · rw [hnil] at hr
        obtain rfl := List.mem_singleton.mp hr
        exact ⟨rfl, rfl⟩
      · rw [hnil]
        exact List.pairwise_singleton _ _
      · rw [hnil] at hr
        obtain rfl := List.mem_singleton.mp hr
        exact ⟨a, ha, rfl⟩
  · exact ⟨h.slot, h.nodup, h.owned, h.alone, h.unused⟩

/-- A read that goes on leaves the list, and may enter it again. -/
theorem Tidy.resume (h : Tidy t users) {r : SuspendedRead} (hr : r ∈ t.reads) :
    Tidy (t.resume r).2 users := by
  have hrest : Tidy { t with reads := t.reads.erase r } users :=
    ⟨fun q hq => h.slot q (List.mem_of_mem_erase hq), h.nodup.sublist (List.erase_sublist.map _),
      fun q hq => h.owned q (List.mem_of_mem_erase hq), h.alone, h.unused⟩
  have hother : ∀ q ∈ t.reads.erase r, q.id ≠ r.id := by
    intro q hq hid
    have hnd := h.nodup
    have hperm := (List.perm_cons_erase hr).map (·.id)
    rw [hperm.nodup_iff, List.map_cons, List.nodup_cons] at hnd
    exact hnd.1 (hid ▸ List.mem_map_of_mem hq)
  obtain ⟨a, ha, hid⟩ := h.owned r hr
  unfold Transport.resume
  split
  · exact hrest
  · have hclear : Tidy { t with reads := t.reads.erase r, rxWaiter := none } users := by
      refine ⟨fun q hq hw => ?_, hrest.nodup, hrest.owned, hrest.alone, hrest.unused⟩
      -- a read that still waits has the slot, so the transport works and has one user
      have he := (hrest.slot q hq hw).2
      have hnil := hrest.no_reads he ha (fun p hp => by rw [hid]; exact hother p hp)
      rw [hnil] at hq
      cases hq
    have hread := hclear.read ha (fun p hp => by rw [hid]; exact hother p hp) r.n
    rw [hid] at hread
    exact hread

theorem Tidy.close (h : Tidy t users) (hclose : t.error = none → users = []) :
    Tidy t.close users :=
  ⟨h.slot, h.nodup, h.owned, h.alone, fun _ he => hclose he⟩

theorem Tidy.join (h : Tidy t users) {a : Actor} {users' : List Actor}
    (hperm : users'.Perm (a :: users))
    (hfree : t.error ≠ none ∨ t.closed = false ∧ users = []) : Tidy t users' := by
  refine ⟨h.slot, h.nodup, fun r hr => ?_, fun he => ?_, fun hc he => ?_⟩
  · obtain ⟨b, hb, hid⟩ := h.owned r hr
    exact ⟨b, hperm.mem_iff.mpr (List.mem_cons_of_mem _ hb), hid⟩
  · have hnil := (hfree.resolve_left (fun hne => hne he)).2
    rw [hperm.length_eq, hnil]
    exact Nat.le_refl 1
  · have hopen := (hfree.resolve_left (fun hne => hne he)).1
    exact absurd (hc.symm.trans hopen) (by decide)

/-- Code that has no read in flight goes away. -/
theorem Tidy.part (h : Tidy t users) {a : Actor} {users' : List Actor}
    (hperm : users.Perm (a :: users')) (hno : ∀ r ∈ t.reads, r.id ≠ a.id) : Tidy t users' := by
  have hlen := hperm.length_eq
  rw [List.length_cons] at hlen
  refine ⟨h.slot, h.nodup, fun r hr => ?_, fun he => ?_, fun hc he => ?_⟩
  · obtain ⟨b, hb, hid⟩ := h.owned r hr
    rcases List.mem_cons.mp (hperm.mem_iff.mp hb) with rfl | hb
    · exact absurd hid.symm (hno r hr)
    · exact ⟨b, hb, hid⟩
  · have := h.alone he
    omega
  · rw [h.unused hc he] at hlen
    cases hlen

/-- If it was alone, the transport may be closed behind it. -/
theorem Tidy.part_close (h : Tidy t users) {a : Actor} {users' : List Actor}
    (hperm : users.Perm (a :: users')) (hno : ∀ r ∈ t.reads, r.id ≠ a.id) :
    Tidy t.close users' := by
  refine (h.part hperm hno).close fun he => ?_
  have hone := h.alone he
  rw [hperm.length_eq, List.length_cons] at hone
  exact List.length_eq_zero_iff.mp (by omega)

/-- Code goes on in another role. -/
theorem Tidy.rename (h : Tidy t users) {a a' : Actor} {rest users' : List Actor}
    (hperm : users.Perm (a :: rest)) (hperm' : users'.Perm (a' :: rest)) (hid : a'.id = a.id) :
    Tidy t users' := by
  have hlen : users'.length = users.length := by
    rw [hperm'.length_eq, hperm.length_eq, List.length_cons, List.length_cons]
  refine ⟨h.slot, h.nodup, fun r hr => ?_, fun he => hlen ▸ h.alone he, fun hc he => ?_⟩
  · obtain ⟨b, hb, hbid⟩ := h.owned r hr
    rcases List.mem_cons.mp (hperm.mem_iff.mp hb) with rfl | hb
    · exact ⟨a', hperm'.mem_iff.mpr List.mem_cons_self, hid.trans hbid⟩
    · exact ⟨b, hperm'.mem_iff.mpr (List.mem_cons_of_mem _ hb), hbid⟩
  · rw [h.unused hc he] at hlen
    exact List.length_eq_zero_iff.mp hlen

theorem Tidy.perm (h : Tidy t users) {users' : List Actor} (hperm : users'.Perm users) :
    Tidy t users' := by
  refine ⟨h.slot, h.nodup, fun r hr => ?_, fun he => hperm.length_eq ▸ h.alone he,
    fun hc he => ?_⟩
  · obtain ⟨b, hb, hid⟩ := h.owned r hr
    exact ⟨b, hperm.mem_iff.mpr hb, hid⟩
  · rw [h.unused hc he] at hperm
    exact hperm.eq_nil

theorem Tidy.waiting_le_one (h : Tidy t users) : t.waiting.length ≤ 1 := by
  have hnd : (t.waiting.map (·.id)).Nodup := h.nodup.sublist (List.filter_sublist.map _)
  have hmem : ∀ r ∈ t.waiting, t.rxWaiter = some r.id := fun r hr => by
    obtain ⟨hr, hw⟩ := List.mem_filter.mp hr
    exact (h.slot r hr (by simpa using hw)).1
  match hl : t.waiting with
  | [] => exact Nat.zero_le 1
  | [_] => exact Nat.le_refl 1
  | a :: b :: rest =>
    rw [hl] at hnd hmem
    have hab := (hmem a (by simp)).symm.trans (hmem b (by simp))
    simp only [List.map_cons, List.nodup_cons, List.mem_cons, not_or] at hnd
    exact absurd (Option.some.inj hab) hnd.1.1

theorem Tidy.waiting_nil (h : Tidy t users) (hdown : t.closed = true ∨ t.error ≠ none) :
    t.waiting = [] := by
  refine List.eq_nil_iff_forall_not_mem.mpr fun r hr => ?_
  obtain ⟨hr, hw⟩ := List.mem_filter.mp hr
  have hw : r.promise = .waiting := by simpa using hw
  have he := (h.slot r hr hw).2
  rcases hdown with hc | hne
  · obtain ⟨a, ha, -⟩ := h.owned r hr
    rw [h.unused hc he] at ha
    cases ha
  · exact hne he

/-- Who still works on a transport that is down will hear of it. -/
theorem Tidy.failed_of_used (h : Tidy t users) (hdown : t.closed = true ∨ t.error ≠ none)
    {a : Actor} (ha : a ∈ users) : t.error ≠ none := by
  rcases hdown with hc | hne
  · intro he
    rw [h.unused hc he] at ha
    cases ha
  · exact hne

theorem read_failed (he : t.error ≠ none) {id n : Nat} : (t.read id n).1 ≠ .suspended := by
  unfold Transport.read
  split
  · cases herr : t.error with
    | some err => simp
    | none => exact absurd herr he
  · simp

theorem resume_failed (he : t.error ≠ none) {r : SuspendedRead} : (t.resume r).1 ≠ .suspended := by
  unfold Transport.resume
  split
  · simp
  · exact @read_failed { t with reads := t.reads.erase r, rxWaiter := none } he r.id r.n

/-- A read that waits on a closed transport; nothing will settle its promise. -/
structure Orphaned (t : Transport) (r : SuspendedRead) : Prop where
  closed : t.closed = true
  working : t.error = none
  mem : r ∈ t.reads
  waiting : r.promise = .waiting

variable {r : SuspendedRead}

theorem Orphaned.read (h : Orphaned t r) (id n : Nat) : Orphaned (t.read id n).2 r := by
  unfold Transport.read
  split
  · rw [h.working]
    exact ⟨h.closed, rfl, List.mem_cons_of_mem _ h.mem, h.waiting⟩
  · exact ⟨h.closed, h.working, h.mem, h.waiting⟩

theorem Orphaned.resume (h : Orphaned t r) {q : SuspendedRead} (hq : q.promise ≠ .waiting) :
    Orphaned (t.resume q).2 r := by
  have hne : r ≠ q := fun heq => hq (heq ▸ h.waiting)
  have hmem : r ∈ t.reads.erase q := (List.mem_erase_of_ne hne).mpr h.mem
  unfold Transport.resume
  split
  · exact ⟨h.closed, h.working, hmem, h.waiting⟩
  · exact @Orphaned.read { t with reads := t.reads.erase q, rxWaiter := none } r
      ⟨h.closed, h.working, hmem, h.waiting⟩ q.id q.n

end Transport

namespace Traffic

/-- The transport has failed, so that nothing waits on it, or it works and nobody uses it. -/
def Usable (s : Traffic) (i : Nat) : Prop :=
  (s.transports i).error ≠ none ∨ (s.transports i).closed = false ∧ s.users i = []

/-- No `reconnect` is queued or runs. -/
structure Steady (s : Traffic) : Prop where
  queue : Job.reconnect ∉ s.queue
  holder : ∀ a, s.holder = some a → a.task = .operation

/-- Calls that find the connection whole and to themselves. -/
def Orderly (s : Traffic) : TrafficEvent → Prop
  | .start => ∀ job queue, s.queue = job :: queue → s.Usable (s.jobTransport job)
  | .disconnect | .dropDatabase => s.detached = true ∨ s.Steady ∧ s.Usable s.current
  | .deadline => ∀ a, s.holder = some a → (s.transports a.transport).error ≠ none
  | _ => True

structure Sound (s : Traffic) : Prop where
  tidy : ∀ i, (s.transports i).Tidy (s.users i)
  fresh : ∀ i, s.opened ≤ i → s.transports i = {}
  current : s.current < s.opened
  actors : ∀ a ∈ s.actors, a.transport < s.opened
  captured : ∀ i, Job.operation (some i) ∈ s.queue → i < s.opened
  holder : ∀ a, s.holder = some a → a.task ≠ .leave ∧ a.task ≠ .abandoned
  detach : ∀ a, s.holder = some a → a.task = .detach → a.transport = s.current
  outside : ∀ a ∈ s.outside, a.task = .leave ∨ a.task = .abandoned
  leave : ∀ a ∈ s.outside, a.task = .leave →
    s.detached = true ∧ s.Steady ∧ a.transport = s.current

variable {s s' : Traffic}

theorem users_perm {a : Actor} (h : s.actors.Perm (a :: s'.actors)) (i : Nat) :
    (s.users i).Perm (if a.transport = i then a :: s'.users i else s'.users i) := by
  have hf := h.filter (fun b => decide (b.transport = i))
  unfold users
  by_cases hi : a.transport = i
  · simpa only [List.filter_cons, hi, decide_true, if_true] using hf
  · simpa only [List.filter_cons, hi, decide_false, Bool.false_eq_true, if_false] using hf

theorem mem_actors {a : Actor} (h : s.actor a.id = some a) : a ∈ s.actors :=
  List.mem_of_find?_eq_some h

theorem actor_some {id : Nat} {a : Actor} (h : s.actor id = some a) : a ∈ s.actors ∧ a.id = id :=
  ⟨List.mem_of_find?_eq_some h, by simpa using List.find?_some h⟩

theorem mem_users {a : Actor} (h : a ∈ s.actors) : a ∈ s.users a.transport :=
  List.mem_filter.mpr ⟨h, by simp⟩

theorem holder_or_outside {a : Actor} (h : a ∈ s.actors) : s.holder = some a ∨ a ∈ s.outside := by
  rcases List.mem_append.mp h with h | h
  · exact .inl (by simpa using h)
  · exact .inr h

theorem actors_holder {a : Actor} (h : s.holder = some a) : s.actors = a :: s.outside := by
  simp only [actors, h, Option.toList_some, List.singleton_append]

theorem actors_idle (h : s.holder = none) : s.actors = s.outside := by
  simp only [actors, h, Option.toList_none, List.nil_append]

/-- Traffic on one transport. -/
theorem Sound.setTransport (h : Sound s) {i : Nat} {t : Transport} (hi : i < s.opened)
    (ht : t.Tidy (s.users i)) : Sound (s.setTransport i t) := by
  refine ⟨fun j => ?_, fun j hj => ?_, h.current, h.actors, h.captured, h.holder, h.detach,
    h.outside, fun a ha hl => ?_⟩
  · change (if j = i then t else s.transports j).Tidy (s.users j)
    split
    · rename_i hji
      rw [hji]
      exact ht
    · exact h.tidy j
  · change (if j = i then t else s.transports j) = {}
    rw [if_neg (by change s.opened ≤ j at hj; omega)]
    exact h.fresh j hj
  · obtain ⟨hd, hs, ht⟩ := h.leave a ha hl
    exact ⟨hd, ⟨hs.queue, hs.holder⟩, ht⟩

theorem Sound.read (h : Sound s) {id n : Nat} (hs : s.read id n = some s') : Sound s' := by
  obtain ⟨a, ha, hs⟩ := Option.bind_eq_some_iff.mp hs
  obtain ⟨hmem, rfl⟩ := actor_some ha
  split at hs
  · rename_i hread
    obtain rfl := Option.some.inj hs
    exact h.setTransport (h.actors a hmem)
      ((h.tidy _).read (mem_users hmem) (Transport.pending_none hread.2) n)
  · cases hs

theorem Sound.resume (h : Sound s) {id : Nat} (hs : s.resume id = some s') : Sound s' := by
  obtain ⟨a, ha, hs⟩ := Option.bind_eq_some_iff.mp hs
  obtain ⟨r, hr, hs⟩ := Option.bind_eq_some_iff.mp hs
  split at hs
  · cases hs
  · obtain rfl := Option.some.inj hs
    exact h.setTransport (h.actors a (actor_some ha).1)
      ((h.tidy _).resume (Transport.pending_some hr).1)

theorem Sound.start (h : Sound s) (hok : s.Orderly .start) (hs : s.start = some s') :
    Sound s' := by
  unfold Traffic.start at hs
  split at hs
  · rename_i job queue hholder hqueue
    obtain rfl := Option.some.inj hs
    have hfree := hok job queue hqueue
    have hon : s.jobTransport job < s.opened := by
      cases job with
      | reconnect => exact h.current
      | operation transport =>
        cases transport with
        | none => exact h.current
        | some i => exact h.captured i (by rw [hqueue]; exact List.mem_cons_self)
    have hactors := actors_idle hholder
    refine ⟨fun i => ?_, h.fresh, h.current, fun a ha => ?_, fun i hi => ?_, fun a ha => ?_,
      fun a ha htask => ?_, h.outside, fun a ha hl => ?_⟩
    · have hperm := @users_perm
        { s with queue := queue, ids := s.ids + 1,
                 holder := some ⟨s.ids, jobTask job, s.jobTransport job⟩ } s
        ⟨s.ids, jobTask job, s.jobTransport job⟩ (by rw [hactors, actors_holder rfl]) i
      split at hperm
      · rename_i hi
        obtain rfl : s.jobTransport job = i := hi
        exact (h.tidy _).join hperm hfree
      · exact (h.tidy i).perm hperm
    · rw [actors_holder rfl] at ha
      rcases List.mem_cons.mp ha with rfl | ha
      · exact hon
      · exact h.actors a (by rw [hactors]; exact ha)
    · exact h.captured i (by rw [hqueue]; exact List.mem_cons_of_mem _ hi)
    · obtain rfl := Option.some.inj ha
      cases job <;> exact ⟨by simp [jobTask], by simp [jobTask]⟩
    · obtain rfl := Option.some.inj ha
      cases job with
      | reconnect => rfl
      | operation _ => cases htask
    · obtain ⟨hd, hst, ht⟩ := h.leave a ha hl
      refine ⟨hd, ⟨fun hm => hst.queue ?_, fun b hb => ?_⟩, ht⟩
      · rw [hqueue]
        exact List.mem_cons_of_mem _ hm
      · obtain rfl := Option.some.inj hb
        cases job with
        | reconnect =>
          exact absurd (by rw [hqueue]; exact List.mem_cons_self) hst.queue
        | operation _ => rfl
  · cases hs

/-- The code that holds the lock gives it back. -/
theorem Sound.release (h : Sound s) {a : Actor} (hholder : s.holder = some a)
    (hno : ∀ r ∈ (s.transports a.transport).reads, r.id ≠ a.id) :
    Sound { s with holder := none } := by
  have hactors := actors_holder hholder
  refine ⟨fun i => ?_, h.fresh, h.current, fun b hb => ?_, h.captured, fun b hb => (by cases hb),
    fun b hb => (by cases hb), h.outside, fun b hb hl => ?_⟩
  · have hperm := @users_perm s { s with holder := none } a (by rw [hactors, actors_idle rfl]) i
    split at hperm
    · rename_i hi
      obtain rfl := hi
      exact (h.tidy _).part hperm hno
    · exact (h.tidy i).perm hperm.symm
  · refine h.actors b ?_
    rw [hactors]
    exact List.mem_cons_of_mem _ (by rwa [actors_idle rfl] at hb)
  · obtain ⟨hd, hst, ht⟩ := h.leave b hb hl
    exact ⟨hd, ⟨hst.queue, fun c hc => by cases hc⟩, ht⟩

/-- A `disconnect`, or a handshake that was cut off, comes to its end. -/
theorem Sound.dismiss (h : Sound s) {a : Actor} (ha : a ∈ s.outside)
    (hno : ∀ r ∈ (s.transports a.transport).reads, r.id ≠ a.id) :
    Sound { s with outside := s.outside.erase a } := by
  have hperm : s.actors.Perm (a :: ({ s with outside := s.outside.erase a } : Traffic).actors) :=
    ((List.perm_cons_erase ha).append_left _).trans List.perm_middle
  refine ⟨fun i => ?_, h.fresh, h.current, fun b hb => ?_, h.captured, h.holder, h.detach,
    fun b hb => h.outside b (List.mem_of_mem_erase hb), fun b hb hl => ?_⟩
  · have hperm := users_perm hperm i
    split at hperm
    · rename_i hi
      obtain rfl := hi
      exact (h.tidy _).part hperm hno
    · exact (h.tidy i).perm hperm.symm
  · exact h.actors b (hperm.mem_iff.mpr (List.mem_cons_of_mem _ hb))
  · obtain ⟨hd, hst, ht⟩ := h.leave b (List.mem_of_mem_erase hb) hl
    exact ⟨hd, ⟨hst.queue, hst.holder⟩, ht⟩

theorem Sound.close (h : Sound s) {i : Nat} (hi : i < s.opened)
    (hfree : (s.transports i).error = none → s.users i = []) : Sound (s.close i) :=
  h.setTransport hi ((h.tidy i).close hfree)

/-- Behind the only user of a transport that works there is nobody. -/
theorem Sound.users_nil (h : Sound s) {a : Actor} (hperm : s.actors.Perm (a :: s'.actors))
    (he : (s.transports a.transport).error = none) : s'.users a.transport = [] := by
  have hone := (h.tidy a.transport).alone he
  have hu := (users_perm hperm a.transport).length_eq
  rw [if_pos rfl, List.length_cons] at hu
  exact List.length_eq_zero_iff.mp (by omega)

/-- While a `reconnect` runs nobody leaves. -/
theorem Sound.nobody_leaves (h : Sound s) {a : Actor} (hholder : s.holder = some a)
    (htask : a.task ≠ .operation) : ∀ b ∈ s.outside, b.task ≠ .leave := fun b hb hl =>
  htask ((h.leave b hb hl).2.1.holder a hholder)

/-- A `reconnect` goes on to a transport of its own. -/
theorem Sound.enter (h : Sound s) (hholder : s.holder = none) (id : Nat)
    (hstay : ∀ b ∈ s.outside, b.task ≠ .leave) :
    Sound { s with opened := s.opened + 1, holder := some ⟨id, .connect, s.opened⟩ } := by
  have hactors := actors_idle hholder
  have hnew : s.transports s.opened = {} := h.fresh _ (Nat.le_refl _)
  have hnone : s.users s.opened = [] := by
    refine List.filter_eq_nil_iff.mpr fun b hb => ?_
    have := h.actors b hb
    simp only [decide_eq_true_eq]
    omega
  refine ⟨fun i => ?_, fun i hi => h.fresh i (Nat.le_of_succ_le hi), Nat.lt_succ_of_lt h.current,
    fun b hb => ?_, fun i hi => Nat.lt_succ_of_lt (h.captured i hi), fun b hb => ?_,
    fun b hb ht => ?_, h.outside, fun b hb hl => absurd hl (hstay b hb)⟩
  · have hperm := @users_perm
      { s with opened := s.opened + 1, holder := some ⟨id, .connect, s.opened⟩ } s
      ⟨id, .connect, s.opened⟩ (by rw [hactors, actors_holder rfl]) i
    split at hperm
    · rename_i hi
      obtain rfl : s.opened = i := hi
      exact (h.tidy _).join hperm (.inr ⟨by rw [hnew], hnone⟩)
    · exact (h.tidy i).perm hperm
  · rw [actors_holder rfl] at hb
    rcases List.mem_cons.mp hb with rfl | hb
    · exact Nat.lt_succ_self _
    · exact Nat.lt_succ_of_lt (h.actors b (by rw [hactors]; exact hb))
  · obtain rfl := Option.some.inj hb
    exact ⟨by simp, by simp⟩
  · obtain rfl := Option.some.inj hb
    cases ht

theorem Sound.leaveBehind (h : Sound s) {a : Actor} (ha : a ∈ s.actors)
    (hno : ∀ r ∈ (s.transports a.transport).reads, r.id ≠ a.id) : Sound (s.leaveBehind a) := by
  have hi := h.actors a ha
  rcases holder_or_outside ha with hholder | hout
  · have hrel := h.release hholder hno
    have hperm : s.actors.Perm (a :: ({ s with holder := none } : Traffic).actors) := by
      rw [actors_holder hholder, actors_idle rfl]
    have hnil := h.users_nil hperm
    unfold Traffic.leaveBehind
    cases htask : a.task with
    | operation => exact hrel
    | connect => exact hrel
    | detach =>
      have hcur := h.detach a hholder htask
      rw [hcur] at hnil
      have hstay := h.nobody_leaves hholder (by rw [htask]; simp)
      exact (hrel.close h.current hnil).enter rfl a.id hstay
    | handshake => exact hrel.close hi hnil
    | leave => exact absurd htask (h.holder a hholder).1
    | abandoned => exact absurd htask (h.holder a hholder).2
  · have hdis := h.dismiss hout hno
    have hperm : s.actors.Perm (a :: ({ s with outside := s.outside.erase a } : Traffic).actors) :=
      ((List.perm_cons_erase hout).append_left _).trans List.perm_middle
    have hnil := h.users_nil hperm
    unfold Traffic.leaveBehind
    rcases h.outside a hout with htask | htask
    · rw [htask]
      have hcur := (h.leave a hout htask).2.2
      rw [hcur] at hnil
      exact hdis.close h.current hnil
    · rw [htask]
      exact hdis

theorem Sound.proceed (h : Sound s) {id : Nat} (hs : s.proceed id = some s') : Sound s' := by
  obtain ⟨a, ha, hs⟩ := Option.bind_eq_some_iff.mp hs
  obtain ⟨hmem, rfl⟩ := actor_some ha
  split at hs
  · rename_i hno
    obtain rfl := Option.some.inj hs
    exact h.leaveBehind hmem (Transport.pending_none hno)
  · cases hs

/-- Code goes on in another role, on the transport it has. -/
theorem Sound.rename (h : Sound s) {a a' : Actor} {rest : List Actor} (hs : s.actors = a :: rest)
    (hs' : s'.actors = a' :: rest) (hid : a'.id = a.id) (ht : a'.transport = a.transport) (i : Nat) :
    (s.transports i).Tidy (s'.users i) := by
  unfold users
  rw [hs']
  have htidy := h.tidy i
  unfold users at htidy
  rw [hs] at htidy
  by_cases hi : a.transport = i
  · simp only [List.filter_cons, hi, ht, decide_true, if_true] at htidy ⊢
    exact htidy.rename (List.Perm.refl _) (List.Perm.refl _) hid
  · simp only [List.filter_cons, hi, ht, decide_false, Bool.false_eq_true, if_false] at htidy ⊢
    exact htidy

theorem Sound.connected (h : Sound s) (hs : s.connected = some s') : Sound s' := by
  obtain ⟨a, hholder, hs⟩ := Option.bind_eq_some_iff.mp hs
  split at hs
  · rename_i htask
    obtain rfl := Option.some.inj hs
    have hactors := actors_holder hholder
    have hstay := h.nobody_leaves hholder (by rw [htask]; simp)
    refine ⟨h.rename hactors (actors_holder rfl) rfl rfl, h.fresh, h.current, fun b hb => ?_,
      h.captured, fun b hb => ?_, fun b hb ht => ?_, h.outside,
      fun b hb hl => absurd hl (hstay b hb)⟩
    · rw [actors_holder rfl] at hb
      rcases List.mem_cons.mp hb with rfl | hb
      · exact h.actors a (by rw [hactors]; exact List.mem_cons_self)
      · exact h.actors b (by rw [hactors]; exact List.mem_cons_of_mem _ hb)
    · obtain rfl := Option.some.inj hb
      exact ⟨by simp, by simp⟩
    · obtain rfl := Option.some.inj hb
      cases ht
  · cases hs

theorem Sound.established (h : Sound s) (hs : s.established = some s') : Sound s' := by
  obtain ⟨a, hholder, hs⟩ := Option.bind_eq_some_iff.mp hs
  split at hs
  · rename_i hread
    obtain rfl := Option.some.inj hs
    have ha : a ∈ s.actors := by rw [actors_holder hholder]; exact List.mem_cons_self
    have hrel := h.release hholder (Transport.pending_none hread.2)
    have hstay := h.nobody_leaves hholder (by rw [hread.1]; simp)
    exact ⟨hrel.tidy, hrel.fresh, h.actors a ha, hrel.actors, hrel.captured, hrel.holder,
      fun b hb => (by cases hb), hrel.outside, fun b hb hl => absurd hl (hstay b hb)⟩
  · cases hs

theorem Sound.deadline (h : Sound s) (hok : s.Orderly .deadline) (hs : s.deadline = some s') :
    Sound s' := by
  obtain ⟨a, hholder, hs⟩ := Option.bind_eq_some_iff.mp hs
  split at hs
  · rename_i htask
    obtain rfl := Option.some.inj hs
    have hactors := actors_holder hholder
    have hstay := h.nobody_leaves hholder (by rw [htask]; simp)
    have hi := h.actors a (by rw [hactors]; exact List.mem_cons_self)
    have hfailed := hok a hholder
    have hclosed : Sound (s.close a.transport) := h.close hi fun he => absurd he hfailed
    refine ⟨hclosed.rename hactors (actors_idle rfl) rfl rfl, hclosed.fresh, h.current,
      fun b hb => ?_, h.captured, fun b hb => (by cases hb), fun b hb => (by cases hb),
      fun b hb => ?_, fun b hb hl => ?_⟩
    · rw [actors_idle rfl] at hb
      rcases List.mem_cons.mp hb with rfl | hb
      · exact hi
      · exact h.actors b (by rw [hactors]; exact List.mem_cons_of_mem _ hb)
    · rcases List.mem_cons.mp hb with rfl | hb
      · exact .inr rfl
      · exact h.outside b hb
    · rcases List.mem_cons.mp hb with rfl | hb
      · cases hl
      · exact absurd hl (hstay b hb)
  · cases hs

theorem Sound.left (h : Sound s) (hst : s.Steady) (hfree : s.Usable s.current) :
    Sound s.leave := by
  have hperm : s.leave.actors.Perm (⟨s.ids, .leave, s.current⟩ :: s.actors) := List.perm_middle
  refine ⟨fun i => ?_, h.fresh, h.current, fun b hb => ?_, h.captured, h.holder, h.detach,
    fun b hb => ?_, fun b hb hl => ⟨rfl, ⟨hst.queue, hst.holder⟩, ?_⟩⟩
  · have hperm := users_perm hperm i
    split at hperm
    · rename_i hi
      obtain rfl : s.current = i := hi
      exact (h.tidy _).join hperm hfree
    · exact (h.tidy i).perm hperm
  · rcases List.mem_cons.mp (hperm.mem_iff.mp hb) with rfl | hb
    · exact h.current
    · exact h.actors b hb
  · rcases List.mem_cons.mp hb with rfl | hb
    · exact .inl rfl
    · exact h.outside b hb
  · rcases List.mem_cons.mp hb with rfl | hb
    · rfl
    · exact (h.leave b hb hl).2.2

/-- A call joins the op chain. -/
theorem Sound.queued (h : Sound s) (job : Job)
    (hcap : ∀ i, job = .operation (some i) → i < s.opened)
    (hrec : job = .reconnect → s.detached = false) :
    Sound { s with queue := s.queue ++ [job] } := by
  refine ⟨h.tidy, h.fresh, h.current, h.actors, fun i hi => ?_, h.holder, h.detach, h.outside,
    fun b hb hl => ?_⟩
  · rcases List.mem_append.mp hi with hi | hi
    · exact h.captured i hi
    · exact hcap i (List.mem_singleton.mp hi).symm
  · obtain ⟨hd, hst, ht⟩ := h.leave b hb hl
    refine ⟨hd, ⟨fun hm => ?_, hst.holder⟩, ht⟩
    rcases List.mem_append.mp hm with hm | hm
    · exact hst.queue hm
    · exact absurd (hd.symm.trans (hrec (List.mem_singleton.mp hm).symm)) (by decide)

/-- One step of orderly calls. -/
theorem sound_step {e : TrafficEvent} (h : Sound s) (hok : s.Orderly e) (hs : s.step e = some s') :
    Sound s' := by
  cases e with
  | call captures =>
    obtain rfl := Option.some.inj hs
    refine h.queued _ (fun i hi => ?_) (fun hc => by cases hc)
    cases captures with
    | true =>
      obtain rfl : s.current = i := by simpa using hi
      exact h.current
    | false => cases hi
  | reconnect =>
    obtain ⟨hd, rfl⟩ := by simpa [Traffic.step] using hs
    exact h.queued _ (fun i hi => by cases hi) (fun _ => hd)
  | start => exact h.start hok hs
  | read id n => exact h.read hs
  | resume id => exact h.resume hs
  | proceed id => exact h.proceed hs
  | connected => exact h.connected hs
  | established => exact h.established hs
  | deadline => exact h.deadline hok hs
  | disconnect =>
    obtain rfl := Option.some.inj hs
    split
    · exact h
    · rename_i hd
      obtain ⟨hst, hfree⟩ := hok.resolve_left hd
      exact h.left hst hfree
  | dropDatabase =>
    obtain ⟨hd, rfl⟩ := by simpa [Traffic.step] using hs
    obtain ⟨hst, hfree⟩ := hok.resolve_left (by rw [hd]; decide)
    exact h.left hst hfree
  | data i bytes =>
    obtain ⟨⟨hi, -⟩, rfl⟩ := by simpa [Traffic.step] using hs
    exact h.setTransport hi ((h.tidy i).enqueue bytes)
  | broken i err =>
    obtain ⟨⟨hi, -⟩, rfl⟩ := by simpa [Traffic.step] using hs
    exact h.setTransport hi ((h.tidy i).fail err)

theorem sound_opened : Sound opened₀ := by
  refine ⟨fun i => ?_, fun i _ => rfl, Nat.zero_lt_one, ?_, ?_, ?_, ?_, ?_, ?_⟩
  · exact ⟨fun _ hr => absurd hr List.not_mem_nil, List.nodup_nil,
      fun _ hr => absurd hr List.not_mem_nil, fun _ => Nat.zero_le 1, fun _ _ => rfl⟩
  all_goals
    intro a ha
    cases ha

theorem reachable_sound (h : machine.Reachable Orderly s) : Sound s := by
  refine h.invariant Sound ?_ fun s e s' hs hok hstep => sound_step hs hok hstep
  rintro s rfl
  exact sound_opened

/-- A connection whose calls are orderly has at most one read waiting on each of its transports.
On one that is closed or has failed nothing waits, and no read that is in flight or begins is
suspended again. -/
theorem no_orphaned_reader (h : machine.Reachable Orderly s) (i : Nat) :
    (s.transports i).waiting.length ≤ 1 ∧
      ((s.transports i).closed = true ∨ (s.transports i).error ≠ none →
        (s.transports i).waiting = [] ∧
        (∀ r ∈ (s.transports i).reads, ((s.transports i).resume r).1 ≠ .suspended) ∧
        ∀ a ∈ s.users i, ∀ n, ((s.transports i).read a.id n).1 ≠ .suspended) := by
  have htidy := (reachable_sound h).tidy i
  refine ⟨htidy.waiting_le_one, fun hdown => ⟨htidy.waiting_nil hdown, fun r hr => ?_,
    fun a ha n => ?_⟩⟩
  · obtain ⟨a, ha, -⟩ := htidy.owned r hr
    exact Transport.resume_failed (htidy.failed_of_used hdown ha)
  · exact Transport.read_failed (htidy.failed_of_used hdown ha)

theorem orphaned_set {i j : Nat} {t : Transport} {r : SuspendedRead}
    (h : (s.transports i).Orphaned r) (ht : j = i → t.Orphaned r) :
    ((s.setTransport j t).transports i).Orphaned r := by
  change (if i = j then t else s.transports i).Orphaned r
  split
  · rename_i hij
    exact ht hij.symm
  · exact h

theorem orphaned_close {i j : Nat} {r : SuspendedRead} (h : (s.transports i).Orphaned r) :
    ((s.close j).transports i).Orphaned r :=
  orphaned_set h fun hj => by
    subst hj
    exact ⟨rfl, h.working, h.mem, h.waiting⟩

/-- Whatever happens next, an orphaned read goes on waiting. -/
theorem orphaned_step {e : TrafficEvent} {i : Nat} {r : SuspendedRead}
    (h : (s.transports i).Orphaned r) (hs : s.step e = some s') :
    (s'.transports i).Orphaned r := by
  cases e with
  | call captures =>
    obtain rfl := Option.some.inj hs
    exact h
  | reconnect =>
    obtain ⟨-, rfl⟩ := by simpa [Traffic.step] using hs
    exact h
  | start =>
    simp only [Traffic.step, Traffic.start] at hs
    split at hs
    · obtain rfl := Option.some.inj hs
      exact h
    · cases hs
  | read id n =>
    obtain ⟨a, -, hs⟩ := Option.bind_eq_some_iff.mp hs
    split at hs
    · obtain rfl := Option.some.inj hs
      exact orphaned_set h fun hj => hj ▸ h.read id n
    · cases hs
  | resume id =>
    obtain ⟨a, -, hs⟩ := Option.bind_eq_some_iff.mp hs
    obtain ⟨q, -, hs⟩ := Option.bind_eq_some_iff.mp hs
    split at hs
    · cases hs
    · rename_i hq
      obtain rfl := Option.some.inj hs
      exact orphaned_set h fun hj => hj ▸ h.resume hq
  | proceed id =>
    obtain ⟨a, -, hs⟩ := Option.bind_eq_some_iff.mp hs
    split at hs
    · obtain rfl := Option.some.inj hs
      unfold Traffic.leaveBehind
      cases a.task with
      | operation | connect | abandoned => exact h
      | detach | handshake | leave => exact orphaned_close h
    · cases hs
  | connected =>
    obtain ⟨a, -, hs⟩ := Option.bind_eq_some_iff.mp hs
    split at hs
    · obtain rfl := Option.some.inj hs
      exact h
    · cases hs
  | established =>
    obtain ⟨a, -, hs⟩ := Option.bind_eq_some_iff.mp hs
    split at hs
    · obtain rfl := Option.some.inj hs
      exact h
    · cases hs
  | deadline =>
    obtain ⟨a, -, hs⟩ := Option.bind_eq_some_iff.mp hs
    split at hs
    · obtain rfl := Option.some.inj hs
      exact orphaned_close h
    · cases hs
  | disconnect =>
    obtain rfl := Option.some.inj hs
    split <;> exact h
  | dropDatabase =>
    obtain ⟨-, rfl⟩ := by simpa [Traffic.step] using hs
    exact h
  | data j bytes =>
    obtain ⟨⟨-, hj⟩, rfl⟩ := by simpa [Traffic.step] using hs
    refine orphaned_set h fun hji => ?_
    rw [hji, h.closed] at hj
    cases hj
  | broken j err =>
    obtain ⟨⟨-, hj⟩, rfl⟩ := by simpa [Traffic.step] using hs
    refine orphaned_set h fun hji => ?_
    rw [hji, h.closed] at hj
    cases hj

theorem orphaned_run {es : List TrafficEvent} {i : Nat} {r : SuspendedRead}
    (h : (s.transports i).Orphaned r) (hrun : machine.run s es = some s') :
    (s'.transports i).Orphaned r :=
  @Machine.run_invariant _ _ machine (fun s => (s.transports i).Orphaned r)
    (fun _ _ _ h hs => orphaned_step h hs) _ _ _ h hrun

/-- An operation awaits its answer. -/
def awaiting : Traffic :=
  ({ opened₀ with holder := some ⟨0, .operation, 0⟩, ids := 1 } : Traffic).setTransport 0
    { rxWaiter := some 0, reads := [⟨0, 4, .waiting⟩] }

/-- The server goes away. -/
def brokenOff : Traffic :=
  awaiting.setTransport 0
    { error := some "Connection closed by remote end",
      reads := [⟨0, 4, .rejected "Connection closed by remote end"⟩] }

theorem no_orphaned_reader_brokenOff :
    (brokenOff.transports 0).waiting.length ≤ 1 ∧ (brokenOff.transports 0).waiting = [] := by
  have hrun : machine.Reachable Orderly brokenOff := by
    have h₀ : machine.Reachable Orderly opened₀ := .init rfl
    have h₁ := h₀.step (e := TrafficEvent.call false) trivial rfl
    have h₂ := h₁.step (e := TrafficEvent.start)
      (fun job queue hq => by cases hq; exact .inr ⟨rfl, rfl⟩) rfl
    have h₃ : machine.Reachable Orderly awaiting :=
      h₂.step (e := TrafficEvent.read 0 4) trivial rfl
    exact h₃.step (e := TrafficEvent.broken 0 "Connection closed by remote end") trivial rfl
  have h := no_orphaned_reader hrun 0
  exact ⟨h.1, (h.2 (.inr (by simp [brokenOff, setTransport]))).1⟩

/-- `disconnect` beside an operation takes its place in the slot and reads its answer, and then
closes the socket under it. -/
theorem disconnect_orphans_reader :
    ¬ ∀ s : Traffic, machine.Reachable (fun _ _ => True) s → ∀ i,
      (s.transports i).waiting.length ≤ 1 ∧
        ((s.transports i).closed = true ∨ (s.transports i).error ≠ none →
          (s.transports i).waiting = []) := by
  intro h
  obtain ⟨s, hrun, hclosed, hwait⟩ : ∃ s, machine.run opened₀ [.call false, .start, .read 0 4,
      .disconnect, .read 1 4, .data 0 [0, 0, 0, 9], .resume 1, .proceed 1] = some s ∧
      (s.transports 0).closed = true ∧ (s.transports 0).waiting = [⟨0, 4, .waiting⟩] :=
    ⟨_, rfl, rfl, rfl⟩
  have hnone := (h s (Machine.Reachable.run (.init rfl) hrun) 0).2 (.inl hclosed)
  exact absurd (hwait.symm.trans hnone) (by decide)

end Traffic
end FastFirebird
