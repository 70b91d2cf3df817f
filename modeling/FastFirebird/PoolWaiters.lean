import FastFirebird.Pool
import Mathlib.Order.Nat

/-! Who waits for a pooled connection, and when the pool has none to give. -/
namespace FastFirebird.Pool

variable {cfg : PoolConfig}

/-- A caller waits only while there is no capacity. -/
def Served (cfg : PoolConfig) (p : Pool) : Prop :=
  p.waiters ≠ [] → p.idle = [] ∧ p.size = cfg.max

/-- Events that give capacity back without looking at the waiters. -/
def Prompt (p : Pool) : PoolEvent → Prop
  | .createFailed | .warmed _ | .warmFailed => p.waiters = []
  | .release conn _ => p.isAlive conn = true ∨ p.inUse.contains conn = false ∨ p.waiters = []
  | _ => True

instance (p : Pool) : (e : PoolEvent) → Decidable (Prompt p e)
  | .createFailed | .warmed _ | .warmFailed => inferInstanceAs (Decidable (p.waiters = []))
  | .release _ _ => inferInstanceAs (Decidable (_ ∨ _ ∨ _))
  | .acquire | .pingOk _ | .pingFailed _ | .created | .timeout _ | .sweep _ | .warmup | .dies _
  | .close => isTrue trivial

/-- What holds whether or not the waiters are served in time. -/
structure Bounded (cfg : PoolConfig) (p : Pool) : Prop where
  size : p.size ≤ cfg.max
  creates : p.pendingCreates = p.creating + p.warming

theorem size_add_le (conn : Nat) (p : Pool) : (p.add conn).size ≤ p.size + 1 := by
  unfold add
  split
  · exact Nat.le_succ _
  · simp only [size, List.length_append, List.length_singleton]
    omega

theorem size_delete_le (conn : Nat) (p : Pool) : (p.delete conn).size ≤ p.size := by
  have hd : (p.inUse.erase conn).length ≤ p.inUse.length := List.length_erase_le
  simp only [size, delete]
  omega

theorem size_delete {conn : Nat} {p : Pool} (h : p.inUse.contains conn = true) :
    (p.delete conn).size + 1 = p.size := by
  have hmem := List.contains_iff_mem.mp h
  have hl := List.length_erase_of_mem hmem
  have hpos := List.length_pos_of_mem hmem
  simp only [size, delete]
  omega

theorem acquireNew_bounded {p : Pool} (hb : Bounded cfg p) : Bounded cfg (acquireNew cfg p) := by
  have hs := hb.size
  have hc := hb.creates
  unfold acquireNew
  split
  · refine ⟨?_, by dsimp only; omega⟩
    simp only [size] at *
    omega
  · exact ⟨hs, hc⟩

theorem bounded_pop {e : IdleEntry} {rest : List IdleEntry} {p : Pool} (hi : p.idle = e :: rest)
    (hb : Bounded cfg p) : Bounded cfg (({ p with idle := rest } : Pool).add e.conn) := by
  have hs := hb.size
  have hadd := size_add_le e.conn { p with idle := rest }
  refine ⟨hadd.trans ?_, hb.creates⟩
  simp only [size, hi, List.length_cons] at hs ⊢
  omega

theorem bounded_discard {conn : Nat} {p : Pool} (hb : Bounded cfg p) :
    Bounded cfg ((p.delete conn).disconnect conn) :=
  ⟨(size_delete_le conn p).trans hb.size, hb.creates⟩

/-- By induction on the idle entries. -/
theorem acquireLoop_bounded {l : List IdleEntry} {p : Pool} (hi : p.idle = l) (hb : Bounded cfg p) :
    Bounded cfg (acquireLoop cfg l p) := by
  induction l generalizing p with
  | nil =>
    have hp : ({ p with idle := [] } : Pool) = p := by rw [← hi]
    unfold acquireLoop
    rw [hp]
    exact acquireNew_bounded hb
  | cons e rest ih =>
    have hb' := bounded_pop hi hb
    unfold acquireLoop
    dsimp only
    split
    · split <;> exact ⟨hb'.size, hb'.creates⟩
    · exact ih rfl (bounded_discard hb')

/-- Behind the loop an acquire takes the free slot there is, or waits without one. -/
theorem acquireNew_served {p : Pool} (hb : Bounded cfg p) (hi : p.idle = [])
    (hw : p.waiters ≠ [] → cfg.max ≤ p.size + 1) : Served cfg (acquireNew cfg p) := by
  have hs := hb.size
  unfold acquireNew
  split
  · refine fun hne => ⟨hi, ?_⟩
    have := hw hne
    simp only [size] at *
    omega
  · refine fun _ => ⟨hi, ?_⟩
    simp only [size] at *
    omega

/-- With waiters the loop has nothing to pop, and takes the slot its caller has freed. -/
theorem acquireLoop_served {l : List IdleEntry} {p : Pool} (hi : p.idle = l) (hb : Bounded cfg p)
    (hw : p.waiters ≠ [] → l = [] ∧ cfg.max ≤ p.size + 1) : Served cfg (acquireLoop cfg l p) := by
  induction l generalizing p with
  | nil =>
    have hp : ({ p with idle := [] } : Pool) = p := by rw [← hi]
    unfold acquireLoop
    rw [hp]
    exact acquireNew_served hb hi fun h => (hw h).2
  | cons e rest ih =>
    have hnone : p.waiters = [] := by
      by_contra h
      exact absurd (hw h).1 (by simp)
    have hb' := bounded_pop hi hb
    unfold acquireLoop
    dsimp only
    split
    · split <;> exact fun h => absurd hnone h
    · exact ih rfl (bounded_discard hb') fun h => absurd hnone h

theorem sweepFrom_length (now total : Nat) (isAlive : Nat → Bool) (l : List IdleEntry) :
    (sweepFrom cfg now isAlive total l).1.length ≤ l.length := by
  induction l generalizing total with
  | nil => exact Nat.le_refl 0
  | cons e rest ih =>
    unfold sweepFrom
    split
    · exact Nat.le_refl _
    · split
      · exact (ih _).trans (Nat.le_succ _)
      · exact Nat.succ_le_succ (ih _)

/-- What `release` does with a connection that is borrowed. -/
theorem release_cases {conn now : Nat} {p : Pool} (hc : p.inUse.contains conn = true) :
    ∃ q : Pool, q = { p.delete conn with borrowed := p.borrowed.erase conn } ∧
      ((p.closed = true ∨ p.isAlive conn = false) ∧ p.release conn now = q.disconnect conn ∨
        (p.closed = false ∧ p.isAlive conn = true) ∧
          (∃ w ws, p.waiters = w :: ws ∧
            p.release conn now = (({ q with waiters := ws }).add conn).lend conn) ∨
        (p.closed = false ∧ p.isAlive conn = true) ∧ p.waiters = [] ∧
          p.release conn now = { q with idle := ⟨conn, now⟩ :: p.idle }) := by
  refine ⟨_, rfl, ?_⟩
  by_cases hdead : (p.closed || !p.isAlive conn) = true
  · have hrelease : p.release conn now =
        ({ p.delete conn with borrowed := p.borrowed.erase conn } : Pool).disconnect conn := by
      simp only [release, hc, if_true]
      exact if_pos hdead
    exact .inl ⟨by simpa using hdead, hrelease⟩
  · have hlive : p.closed = false ∧ p.isAlive conn = true := by simpa using hdead
    cases hw : p.waiters with
    | cons w ws =>
      have hwaiters : (({ p with borrowed := p.borrowed.erase conn } : Pool).delete conn).waiters =
          w :: ws := hw
      refine .inr (.inl ⟨hlive, w, ws, rfl, ?_⟩)
      simp only [release, hc, if_true]
      refine (if_neg hdead).trans ?_
      rw [hwaiters]
      rfl
    | nil =>
      have hwaiters : (({ p with borrowed := p.borrowed.erase conn } : Pool).delete conn).waiters =
          [] := hw
      refine .inr (.inr ⟨hlive, rfl, ?_⟩)
      simp only [release, hc, if_true]
      refine (if_neg hdead).trans ?_
      rw [hwaiters]
      simp only [delete, hw]

theorem release_other {conn now : Nat} {p : Pool} (hc : p.inUse.contains conn = false) :
    p.release conn now = { p with borrowed := p.borrowed.erase conn } := by
  simp only [release, hc, Bool.false_eq_true, if_false]

theorem release_bounded (conn now : Nat) {p : Pool} (hb : Bounded cfg p) :
    Bounded cfg (p.release conn now) := by
  have hs := hb.size
  cases hc : p.inUse.contains conn with
  | false =>
    rw [release_other hc]
    exact ⟨hs, hb.creates⟩
  | true =>
    have hd := size_delete hc
    obtain ⟨q, rfl, ⟨-, h⟩ | ⟨-, w, ws, -, h⟩ | ⟨-, -, h⟩⟩ := @release_cases conn now p hc
    · rw [h]
      exact ⟨(size_delete_le conn p).trans hs, hb.creates⟩
    · rw [h]
      have hadd := size_add_le conn { p.delete conn with waiters := ws }
      exact ⟨hadd.trans ((Nat.le_of_eq hd).trans hs), hb.creates⟩
    · rw [h]
      refine ⟨?_, hb.creates⟩
      simp only [size, delete, List.length_cons] at hd hs ⊢
      omega

/-- Capacity is never exceeded, whatever fails. -/
theorem bounded_step (hmin : cfg.min ≤ cfg.max) {p p' : Pool} {e : PoolEvent} (hb : Bounded cfg p)
    (hs : p.step cfg e = some p') : Bounded cfg p' := by
  have hsize := hb.size
  have hcreates := hb.creates
  cases e with
  | acquire =>
    obtain ⟨-, rfl⟩ := by simpa [step] using hs
    exact acquireLoop_bounded rfl hb
  | pingOk conn =>
    obtain ⟨-, rfl⟩ := by simpa [step] using hs
    exact ⟨hsize, hcreates⟩
  | pingFailed conn =>
    obtain ⟨-, rfl⟩ := by simpa [step] using hs
    exact acquireLoop_bounded rfl (bounded_discard ⟨hsize, hcreates⟩)
  | created =>
    obtain ⟨hpos, rfl⟩ := by simpa [step] using hs
    have hadd := size_add_le p.conns p
    refine ⟨?_, ?_⟩
    · simp only [created, lend, add, size] at hsize hadd ⊢
      omega
    · simp only [created, lend, add]
      omega
  | createFailed =>
    obtain ⟨hpos, rfl⟩ := by simpa [step] using hs
    constructor <;> simp only [createFailed, size] at * <;> omega
  | release conn now =>
    obtain rfl := by simpa [step] using hs
    exact release_bounded conn now hb
  | timeout waiter =>
    obtain ⟨-, rfl⟩ := by simpa [step] using hs
    exact ⟨hsize, hcreates⟩
  | sweep now =>
    obtain rfl := by simpa [step] using hs
    have hl := @sweepFrom_length cfg now (p.idle.length + p.inUse.length) p.isAlive p.idle
    refine ⟨?_, hcreates⟩
    simp only [sweepIdle, size] at *
    omega
  | warmup =>
    obtain rfl := by simpa [step] using hs
    constructor <;> simp only [warmup, size] at * <;> omega
  | warmed now =>
    obtain ⟨hpos, rfl⟩ := by simpa [step] using hs
    constructor <;> simp only [warmed, size, List.length_cons] at * <;> omega
  | warmFailed =>
    obtain ⟨hpos, rfl⟩ := by simpa [step] using hs
    constructor <;> simp only [warmFailed, size] at * <;> omega
  | dies conn =>
    obtain rfl := by simpa [step] using hs
    exact ⟨hsize, hcreates⟩
  | close =>
    obtain rfl := by simpa [step] using hs
    refine ⟨?_, hcreates⟩
    simp only [close, size, List.length_nil] at *
    omega

/-- Connections are borrowed once, and numbered as they come. -/
structure Tracked (p : Pool) : Prop where
  nodup : p.inUse.Nodup
  inUse : ∀ conn ∈ p.inUse, conn < p.conns
  idle : ∀ e ∈ p.idle, e.conn < p.conns

theorem mem_add {c conn : Nat} {p : Pool} (h : c ∈ (p.add conn).inUse) : c = conn ∨ c ∈ p.inUse := by
  unfold add at h
  dsimp only at h
  split at h
  · exact .inr h
  · rcases List.mem_append.mp h with h | h
    · exact .inr h
    · exact .inl (List.mem_singleton.mp h)

theorem nodup_add {conn : Nat} {p : Pool} (h : p.inUse.Nodup) : (p.add conn).inUse.Nodup := by
  unfold add
  dsimp only
  split
  · exact h
  · rename_i hc
    have hc : conn ∉ p.inUse := fun hm => hc (List.contains_iff_mem.mpr hm)
    exact List.nodup_append.mpr ⟨h, List.pairwise_singleton _ _, fun a ha b hb hab =>
      hc (List.mem_singleton.mp hb ▸ hab ▸ ha)⟩

theorem tracked_add {conn : Nat} {p : Pool} (hconn : conn < p.conns) (ht : Tracked p) :
    Tracked (p.add conn) := by
  refine ⟨nodup_add ht.nodup, fun c hc => ?_, ht.idle⟩
  rcases mem_add hc with rfl | hc
  · exact hconn
  · exact ht.inUse c hc

theorem tracked_delete (conn : Nat) {p : Pool} (ht : Tracked p) : Tracked (p.delete conn) :=
  ⟨ht.nodup.erase conn, fun c hc => ht.inUse c (List.mem_of_mem_erase hc), ht.idle⟩

theorem tracked_acquireLoop {l : List IdleEntry} {p : Pool} (hl : ∀ e ∈ l, e.conn < p.conns)
    (ht : Tracked p) : Tracked (acquireLoop cfg l p) := by
  induction l generalizing p with
  | nil =>
    unfold acquireLoop acquireNew
    split <;> exact ⟨ht.nodup, ht.inUse, fun e he => absurd he (List.not_mem_nil)⟩
  | cons e rest ih =>
    have hrest : ∀ e ∈ rest, e.conn < p.conns := fun e he => hl e (List.mem_cons_of_mem _ he)
    have hpop : Tracked (({ p with idle := rest } : Pool).add e.conn) :=
      tracked_add (hl e List.mem_cons_self) ⟨ht.nodup, ht.inUse, hrest⟩
    unfold acquireLoop
    dsimp only
    split
    · split <;> exact ⟨hpop.nodup, hpop.inUse, hpop.idle⟩
    · have hdel := tracked_delete e.conn hpop
      exact ih hrest ⟨hdel.nodup, hdel.inUse, hdel.idle⟩

theorem mem_sweepFrom {now total : Nat} {isAlive : Nat → Bool} {l : List IdleEntry} {e : IdleEntry}
    (h : e ∈ (sweepFrom cfg now isAlive total l).1) : e ∈ l := by
  induction l generalizing total with
  | nil => exact h
  | cons e' rest ih =>
    unfold sweepFrom at h
    split at h
    · exact h
    · split at h
      · exact List.mem_cons_of_mem _ (ih h)
      · rcases List.mem_cons.mp h with rfl | h
        · exact List.mem_cons_self
        · exact List.mem_cons_of_mem _ (ih h)

theorem tracked_release (conn now : Nat) {p : Pool} (ht : Tracked p) :
    Tracked (p.release conn now) := by
  cases hc : p.inUse.contains conn with
  | false =>
    rw [release_other hc]
    exact ⟨ht.nodup, ht.inUse, ht.idle⟩
  | true =>
    have hconn := ht.inUse conn (List.contains_iff_mem.mp hc)
    have hdel := tracked_delete conn ht
    obtain ⟨q, rfl, ⟨-, h⟩ | ⟨-, w, ws, -, h⟩ | ⟨-, -, h⟩⟩ := @release_cases conn now p hc
    · rw [h]
      exact ⟨hdel.nodup, hdel.inUse, hdel.idle⟩
    · rw [h]
      have hadd := @tracked_add conn { p.delete conn with waiters := ws } hconn
        ⟨hdel.nodup, hdel.inUse, hdel.idle⟩
      exact ⟨hadd.nodup, hadd.inUse, hadd.idle⟩
    · rw [h]
      refine ⟨hdel.nodup, hdel.inUse, fun e he => ?_⟩
      rcases List.mem_cons.mp he with rfl | he
      · exact hconn
      · exact hdel.idle e he

theorem tracked_step {p p' : Pool} {e : PoolEvent} (ht : Tracked p) (hs : p.step cfg e = some p') :
    Tracked p' := by
  cases e with
  | acquire =>
    obtain ⟨-, rfl⟩ := by simpa [step] using hs
    exact tracked_acquireLoop ht.idle ht
  | pingFailed conn =>
    obtain ⟨-, rfl⟩ := by simpa [step] using hs
    have hdel := tracked_delete conn ht
    exact tracked_acquireLoop hdel.idle ⟨hdel.nodup, hdel.inUse, hdel.idle⟩
  | created =>
    obtain ⟨hpos, rfl⟩ := by simpa [step] using hs
    have hnext : Tracked { p with conns := p.conns + 1 } :=
      ⟨ht.nodup, fun c hc => (ht.inUse c hc).trans (Nat.lt_succ_self _),
        fun e he => (ht.idle e he).trans (Nat.lt_succ_self _)⟩
    have hadd := tracked_add (Nat.lt_succ_self p.conns) hnext
    exact ⟨hadd.nodup, hadd.inUse, hadd.idle⟩
  | warmed now =>
    obtain ⟨hpos, rfl⟩ := by simpa [step] using hs
    refine ⟨ht.nodup, fun c hc => (ht.inUse c hc).trans (Nat.lt_succ_self _), fun e he => ?_⟩
    rcases List.mem_cons.mp he with rfl | he
    · exact Nat.lt_succ_self _
    · exact (ht.idle e he).trans (Nat.lt_succ_self _)
  | release conn now =>
    obtain rfl := by simpa [step] using hs
    exact tracked_release conn now ht
  | sweep now =>
    obtain rfl := by simpa [step] using hs
    exact ⟨ht.nodup, ht.inUse, fun e he => ht.idle e (mem_sweepFrom he)⟩
  | close =>
    obtain rfl := by simpa [step] using hs
    exact ⟨List.nodup_nil, fun c hc => absurd hc List.not_mem_nil,
      fun e he => absurd he List.not_mem_nil⟩
  | pingOk _ | createFailed | timeout _ | warmup | warmFailed | dies _ =>
    simp only [step] at hs
    first
      | split at hs
        · obtain rfl := Option.some.inj hs
          exact ⟨ht.nodup, ht.inUse, ht.idle⟩
        · cases hs
      | obtain rfl := Option.some.inj hs
        exact ⟨ht.nodup, ht.inUse, ht.idle⟩

theorem size_add {conn : Nat} {p : Pool} (h : conn ∉ p.inUse) : (p.add conn).size = p.size + 1 := by
  have hc : p.inUse.contains conn = false := by simpa using h
  simp only [size, add, hc, Bool.false_eq_true, if_false, List.length_append, List.length_singleton]
  omega

theorem size_le_delete (conn : Nat) (p : Pool) : p.size ≤ (p.delete conn).size + 1 := by
  by_cases hc : p.inUse.contains conn = true
  · exact Nat.le_of_eq (size_delete hc).symm
  · have hd : p.inUse.erase conn = p.inUse :=
      List.erase_of_not_mem fun hm => hc (List.contains_iff_mem.mpr hm)
    simp only [size, delete, hd]
    omega

/-- A live connection goes to the first waiter, and the pool stays as full as it is. -/
theorem served_release_iff (conn now : Nat) {p : Pool} (ht : Tracked p) (hopen : p.closed = false)
    (hsv : Served cfg p) :
    Served cfg (p.release conn now) ↔ Prompt p (.release conn now) := by
  cases hc : p.inUse.contains conn with
  | false =>
    rw [release_other hc]
    exact ⟨fun _ => .inr (.inl hc), fun _ => hsv⟩
  | true =>
    have hd := size_delete hc
    obtain ⟨q, rfl, ⟨hdead, h⟩ | ⟨hlive, w, ws, hwait, h⟩ | ⟨hlive, hnone, h⟩⟩ :=
      @release_cases conn now p hc
    · rw [h]
      have hdead : p.isAlive conn = false := hdead.resolve_left (by simp [hopen])
      constructor
      · intro hserved
        refine .inr (.inr ?_)
        by_contra hw
        have hfull : (p.delete conn).size = cfg.max := (hserved hw).2
        have := (hsv hw).2
        omega
      · rintro (halive | hno | hnone)
        · exact absurd (hdead.symm.trans halive) (by decide)
        · exact absurd (hc.symm.trans hno) (by decide)
        · exact fun hw => absurd hnone hw
    · rw [h]
      refine ⟨fun _ => .inl hlive.2, fun _ _ => ?_⟩
      have hne : conn ∉ p.inUse.erase conn := ht.nodup.not_mem_erase
      obtain ⟨hidle, hsize⟩ := hsv (by rw [hwait]; exact List.cons_ne_nil _ _)
      have hadd := @size_add conn { p.delete conn with waiters := ws } hne
      exact ⟨hidle, hadd.trans (hd.trans hsize)⟩
    · rw [h]
      exact ⟨fun _ => .inl hlive.2, fun _ hw => absurd hnone hw⟩

theorem closed_acquireLoop (l : List IdleEntry) (p : Pool) :
    (acquireLoop cfg l p).closed = p.closed := by
  induction l generalizing p with
  | nil =>
    unfold acquireLoop acquireNew
    split <;> rfl
  | cons e rest ih =>
    unfold acquireLoop
    dsimp only
    split
    · split <;> rfl
    · exact ih _

theorem closed_release (conn now : Nat) (p : Pool) : (p.release conn now).closed = p.closed := by
  cases hc : p.inUse.contains conn with
  | false => rw [release_other hc]
  | true =>
    obtain ⟨q, rfl, ⟨-, h⟩ | ⟨-, w, ws, -, h⟩ | ⟨-, -, h⟩⟩ := @release_cases conn now p hc
    all_goals
      rw [h]
      rfl

/-- A pool is never opened again. -/
theorem closed_step {p p' : Pool} {e : PoolEvent} (hs : p.step cfg e = some p')
    (hopen : p'.closed = false) : p.closed = false := by
  cases e with
  | acquire =>
    obtain ⟨h, -⟩ := by simpa [step] using hs
    exact h
  | pingFailed conn =>
    obtain ⟨-, rfl⟩ := by simpa [step] using hs
    have hclosed : (p.pingFailed cfg conn).closed = p.closed := closed_acquireLoop _ _
    exact hclosed.symm.trans hopen
  | release conn now =>
    obtain rfl := by simpa [step] using hs
    exact (closed_release conn now p).symm.trans hopen
  | close =>
    obtain rfl := by simpa [step] using hs
    cases hopen
  | pingOk _ | created | createFailed | timeout _ | sweep _ | warmup | warmed _ | warmFailed
  | dies _ =>
    simp only [step] at hs
    first
      | split at hs
        · obtain rfl := Option.some.inj hs
          exact hopen
        · cases hs
      | obtain rfl := Option.some.inj hs
        exact hopen

/-- One step of an open pool keeps the waiters served exactly if it is prompt. -/
theorem served_step_iff (hmin : cfg.min ≤ cfg.max) {p p' : Pool} {e : PoolEvent}
    (hb : Bounded cfg p) (ht : Tracked p) (hsv : Served cfg p) (hs : p.step cfg e = some p')
    (hopen : p'.closed = false) : Served cfg p' ↔ Prompt p e := by
  have hcreates := hb.creates
  cases e with
  | acquire =>
    obtain ⟨-, rfl⟩ := by simpa [step] using hs
    refine iff_of_true (acquireLoop_served rfl hb fun hw => ?_) trivial
    exact ⟨(hsv hw).1, (hsv hw).2 ▸ Nat.le_succ _⟩
  | pingOk conn =>
    obtain ⟨-, rfl⟩ := by simpa [step] using hs
    exact iff_of_true hsv trivial
  | pingFailed conn =>
    obtain ⟨-, rfl⟩ := by simpa [step] using hs
    refine iff_of_true (acquireLoop_served rfl (bounded_discard ⟨hb.size, hb.creates⟩)
      fun hw => ?_) trivial
    exact ⟨(hsv hw).1, (hsv hw).2 ▸ size_le_delete conn p⟩
  | created =>
    obtain ⟨hpos, rfl⟩ := by simpa [step] using hs
    refine iff_of_true (fun hw => ?_) trivial
    obtain ⟨hidle, hsize⟩ := hsv hw
    have hnew : p.conns ∉ p.inUse := fun hm => (ht.inUse _ hm).false
    have hadd := size_add hnew
    refine ⟨hidle, ?_⟩
    simp only [created, lend, add, size] at hsize hadd ⊢
    omega
  | createFailed =>
    obtain ⟨hpos, rfl⟩ := by simpa [step] using hs
    refine ⟨fun hserved => ?_, fun hnone hw => absurd hnone hw⟩
    by_contra hw
    have hfull := (hserved hw).2
    have hsize := (hsv hw).2
    simp only [createFailed, size] at hfull hsize
    omega
  | release conn now =>
    obtain rfl := by simpa [step] using hs
    exact served_release_iff conn now ht ((closed_release conn now p).symm.trans hopen) hsv
  | timeout waiter =>
    obtain ⟨-, rfl⟩ := by simpa [step] using hs
    refine iff_of_true (fun hw => ?_) trivial
    exact hsv fun hnone => hw (by simp [timeout, hnone])
  | sweep now =>
    obtain rfl := by simpa [step] using hs
    refine iff_of_true (fun hw => ?_) trivial
    obtain ⟨hidle, hsize⟩ := hsv hw
    have hkept : (p.sweepIdle cfg now).idle = [] := by
      simp only [sweepIdle, hidle, sweepFrom]
    refine ⟨hkept, ?_⟩
    simp only [size, hidle, hkept] at hsize ⊢
    exact hsize
  | warmup =>
    obtain rfl := by simpa [step] using hs
    refine iff_of_true (fun hw => ?_) trivial
    obtain ⟨hidle, hsize⟩ := hsv hw
    refine ⟨hidle, ?_⟩
    simp only [warmup, size] at hsize ⊢
    omega
  | warmed now =>
    obtain ⟨hpos, rfl⟩ := by simpa [step] using hs
    refine ⟨fun hserved => ?_, fun hnone hw => absurd hnone hw⟩
    by_contra hw
    exact absurd (hserved hw).1 (List.cons_ne_nil _ _)
  | warmFailed =>
    obtain ⟨hpos, rfl⟩ := by simpa [step] using hs
    refine ⟨fun hserved => ?_, fun hnone hw => absurd hnone hw⟩
    by_contra hw
    have hfull := (hserved hw).2
    have hsize := (hsv hw).2
    simp only [warmFailed, size] at hfull hsize
    omega
  | dies conn =>
    obtain rfl := by simpa [step] using hs
    exact iff_of_true hsv trivial
  | close =>
    obtain rfl := by simpa [step] using hs
    cases hopen

/-- What every run keeps of a pool, open or closed. -/
structure Sound (cfg : PoolConfig) (p : Pool) : Prop extends Bounded cfg p, Tracked p

theorem sound_step (hmin : cfg.min ≤ cfg.max) {p p' : Pool} {e : PoolEvent} (h : Sound cfg p)
    (hs : p.step cfg e = some p') : Sound cfg p' :=
  ⟨bounded_step hmin h.toBounded hs, tracked_step h.toTracked hs⟩

theorem sound_empty : Sound cfg {} :=
  ⟨⟨Nat.zero_le _, rfl⟩, ⟨List.nodup_nil, fun _ hc => absurd hc List.not_mem_nil,
    fun _ he => absurd he List.not_mem_nil⟩⟩

/-- A run that gives capacity back only while nobody waits never keeps a caller waiting beside
free capacity. -/
theorem waiters_served (hmin : cfg.min ≤ cfg.max) {p : Pool}
    (h : (machine cfg).Reachable Prompt p) (hopen : p.closed = false) (hw : p.waiters ≠ []) :
    p.idle = [] ∧ p.idle.length + p.inUse.length + p.pendingCreates = cfg.max := by
  have hall : Sound cfg p ∧ (p.closed = false → Served cfg p) := by
    refine h.invariant (fun p => Sound cfg p ∧ (p.closed = false → Served cfg p)) ?_ ?_
    · rintro p rfl
      exact ⟨sound_empty, fun _ hw => absurd rfl hw⟩
    · rintro p e p' ⟨hp, hsv⟩ hok hs
      refine ⟨sound_step hmin hp hs, fun hopen => ?_⟩
      have hserved := hsv (closed_step hs hopen)
      exact (served_step_iff hmin hp.toBounded hp.toTracked hserved hs hopen).mpr hok
  exact hall.2 hopen hw

/-- A pool of one connection. -/
def single : PoolConfig := ⟨0, 1, 60000, true⟩

/-- The second caller waits while the first one holds the connection. -/
def oneWaiting : Pool := { inUse := [0], waiters := [0], borrowed := [0], conns := 1, waits := 1 }

theorem waiters_served_single :
    oneWaiting.idle = [] ∧
      oneWaiting.idle.length + oneWaiting.inUse.length + oneWaiting.pendingCreates = 1 := by
  have hrun : (machine single).Reachable Prompt oneWaiting := by
    have h₀ : (machine single).Reachable Prompt {} := .init rfl
    have h₁ := h₀.step (e := PoolEvent.acquire) trivial rfl
    have h₂ := h₁.step (e := PoolEvent.created) trivial rfl
    exact h₂.step (e := PoolEvent.acquire) trivial rfl
  exact @waiters_served single (by decide) oneWaiting hrun rfl (by decide)

/-- Two callers, and the connect of the first one fails: the second goes on waiting for a
connection that nobody opens. -/
theorem failed_create_stalls :
    ¬ ∀ p : Pool, (machine single).Reachable (fun _ _ => True) p → p.closed = false →
      p.waiters ≠ [] →
      p.idle = [] ∧ p.idle.length + p.inUse.length + p.pendingCreates = single.max := by
  intro h
  have hrun : (machine single).run {} [.acquire, .acquire, .createFailed] =
      some { waiters := [0], waits := 1 } := rfl
  have hp := h _ (Machine.Reachable.run (.init rfl) hrun) rfl (by decide)
  exact absurd hp.2 (by decide)

end FastFirebird.Pool
