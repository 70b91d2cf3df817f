import FastFirebird.PoolWaiters
import Mathlib.Data.List.Nodup

/-! Where each pooled connection is: idle, or in use by one caller. -/
namespace FastFirebird.Pool

variable {cfg : PoolConfig}

/-- Every borrower gives its connection back once, and the pool stays open. -/
def Borrows (p : Pool) : PoolEvent → Prop
  | .release conn _ => conn ∈ p.borrowed
  | .close => False
  | _ => True

/-- How often a connection is in the idle list. -/
def idleCount (c : Nat) (l : List IdleEntry) : Nat := (l.map (·.conn)).count c

/-- Counted for each connection: it is in one place at most, and what is in use is being
validated or is borrowed. -/
structure Exclusive (p : Pool) : Prop where
  once : ∀ c, idleCount c p.idle + p.inUse.count c ≤ 1
  held : ∀ c, p.inUse.count c = p.pinging.count c + p.borrowed.count c
  fresh : ∀ c, p.conns ≤ c → idleCount c p.idle + p.inUse.count c = 0

theorem idleCount_cons (c : Nat) (e : IdleEntry) (l : List IdleEntry) :
    idleCount c (e :: l) = idleCount c l + if e.conn = c then 1 else 0 := by
  simp only [idleCount, List.map_cons, List.count_cons, beq_iff_eq]

theorem idleCount_push (c conn now : Nat) (l : List IdleEntry) :
    idleCount c (⟨conn, now⟩ :: l) = idleCount c l + if conn = c then 1 else 0 :=
  idleCount_cons c ⟨conn, now⟩ l

theorem count_cons_conn (c conn : Nat) (l : List Nat) :
    (conn :: l).count c = l.count c + if conn = c then 1 else 0 := by
  simp only [List.count_cons, beq_iff_eq]

theorem count_erase_conn {conn : Nat} {l : List Nat} (h : conn ∈ l) (c : Nat) :
    (l.erase conn).count c + (if conn = c then 1 else 0) = l.count c := by
  rw [← count_cons_conn]
  exact ((List.perm_cons_erase h).count_eq c).symm

/-- A connection that nobody uses is taken into use. -/
theorem count_add {conn : Nat} {p : Pool} (h : p.inUse.count conn = 0) (c : Nat) :
    (p.add conn).inUse.count c = p.inUse.count c + if conn = c then 1 else 0 := by
  have hno : p.inUse.contains conn = false := by
    simpa using List.count_eq_zero.mp h
  simp only [add, hno, Bool.false_eq_true, if_false, List.count_append, count_cons_conn,
    List.count_nil]
  omega

theorem sweepFrom_idleCount (now total : Nat) (isAlive : Nat → Bool) (c : Nat)
    (l : List IdleEntry) :
    idleCount c (sweepFrom cfg now isAlive total l).1 ≤ idleCount c l := by
  induction l generalizing total with
  | nil => exact Nat.le_refl _
  | cons e rest ih =>
    unfold sweepFrom
    split
    · exact Nat.le_refl _
    · split
      · have hrest := ih (total - 1)
        dsimp only
        rw [idleCount_cons]
        omega
      · have hrest := ih total
        dsimp only
        rw [idleCount_cons, idleCount_cons]
        omega

theorem acquireNew_exclusive {p : Pool} (h : Exclusive p) : Exclusive (acquireNew cfg p) := by
  unfold acquireNew
  split <;> exact ⟨h.once, h.held, h.fresh⟩

/-- By induction on the idle entries: the first one that is alive is taken, the dead ones before
it are in no place any more. -/
theorem acquireLoop_exclusive {l : List IdleEntry} {p : Pool} (hi : p.idle = l)
    (h : Exclusive p) : Exclusive (acquireLoop cfg l p) := by
  induction l generalizing p with
  | nil =>
    have hp : ({ p with idle := [] } : Pool) = p := by rw [← hi]
    unfold acquireLoop
    rw [hp]
    exact acquireNew_exclusive h
  | cons e rest ih =>
    have hidle : ∀ c, idleCount c p.idle = idleCount c rest + if e.conn = c then 1 else 0 :=
      fun c => by rw [hi, idleCount_cons]
    have hunused : p.inUse.count e.conn = 0 := by
      have honce := h.once e.conn
      rw [hidle, if_pos rfl] at honce
      omega
    have hadd := @count_add e.conn { p with idle := rest } hunused
    unfold acquireLoop
    dsimp only
    split
    · have honce : ∀ c, idleCount c rest + (({ p with idle := rest } : Pool).add e.conn).inUse.count c
          ≤ 1 := fun c => by
        have hc := h.once c
        rw [hidle] at hc
        rw [hadd]
        dsimp only
        omega
      have hfresh : ∀ c, p.conns ≤ c → idleCount c rest +
          (({ p with idle := rest } : Pool).add e.conn).inUse.count c = 0 := fun c hle => by
        have hc := h.fresh c hle
        rw [hidle] at hc
        rw [hadd]
        dsimp only
        omega
      split
      · refine ⟨honce, fun c => ?_, hfresh⟩
        have hheld := h.held c
        have hc := hadd c
        dsimp only [lend, add] at hc hheld ⊢
        rw [count_cons_conn]
        omega
      · refine ⟨honce, fun c => ?_, hfresh⟩
        have hheld := h.held c
        have hc := hadd c
        dsimp only [lend, add] at hc hheld ⊢
        rw [count_cons_conn]
        omega
    · have hdel : ∀ c, ((({ p with idle := rest } : Pool).add e.conn).inUse.erase e.conn).count c =
          p.inUse.count c := fun c => by
        have hc := hadd c
        have herase := @count_erase_conn e.conn (({ p with idle := rest } : Pool).add e.conn).inUse
          (List.count_pos_iff.mp (by rw [hadd, if_pos rfl]; omega)) c
        dsimp only at hc
        omega
      refine ih rfl ⟨fun c => ?_, fun c => ?_, fun c hle => ?_⟩
      · have hc := h.once c
        rw [hidle] at hc
        dsimp only [disconnect, delete]
        rw [hdel]
        dsimp only [add]
        omega
      · dsimp only [disconnect, delete]
        rw [hdel]
        exact h.held c
      · have hc := h.fresh c hle
        rw [hidle] at hc
        dsimp only [disconnect, delete]
        rw [hdel]
        dsimp only [add]
        omega

theorem mem_inUse_of_pinging {conn : Nat} {p : Pool} (h : Exclusive p)
    (hp : p.pinging.contains conn = true) : conn ∈ p.inUse := by
  have hpos := List.count_pos_iff.mpr (List.contains_iff_mem.mp hp)
  have hheld := h.held conn
  exact List.count_pos_iff.mp (by omega)

/-- A connection whose ping has failed is in no place any more. -/
theorem pingFailed_exclusive {conn : Nat} {p : Pool} (h : Exclusive p)
    (hp : p.pinging.contains conn = true) : Exclusive (p.pingFailed cfg conn) := by
  have huse := fun c => count_erase_conn (mem_inUse_of_pinging h hp) c
  have hping := fun c => count_erase_conn (List.contains_iff_mem.mp hp) c
  refine acquireLoop_exclusive rfl ⟨fun c => ?_, fun c => ?_, fun c hle => ?_⟩
  · have honce := h.once c
    have hc := huse c
    dsimp only [disconnect, delete]
    omega
  · have hheld := h.held c
    have hc := huse c
    have hc' := hping c
    dsimp only [disconnect, delete]
    omega
  · have hfresh := h.fresh c hle
    have hc := huse c
    dsimp only [disconnect, delete]
    omega

theorem created_exclusive {p : Pool} (h : Exclusive p) : Exclusive p.created := by
  have hunused : p.inUse.count p.conns = 0 := by
    have hfresh := h.fresh p.conns (Nat.le_refl _)
    omega
  have hadd : ∀ c, p.created.inUse.count c = p.inUse.count c + if p.conns = c then 1 else 0 :=
    fun c => @count_add p.conns { p with conns := p.conns + 1, creating := p.creating - 1 } hunused c
  refine ⟨fun c => ?_, fun c => ?_, fun c hle => ?_⟩
  · change idleCount c p.idle + p.created.inUse.count c ≤ 1
    have honce := h.once c
    have hfresh := h.fresh c
    rw [hadd]
    split <;> omega
  · change p.created.inUse.count c = p.pinging.count c + (p.conns :: p.borrowed).count c
    have hheld := h.held c
    rw [hadd, count_cons_conn]
    omega
  · change idleCount c p.idle + p.created.inUse.count c = 0
    have hlt : p.conns < c := hle
    have hfresh := h.fresh c (Nat.le_of_lt hlt)
    rw [hadd, if_neg (Nat.ne_of_lt hlt)]
    omega

theorem release_exclusive {conn now : Nat} {p : Pool} (h : Exclusive p)
    (hborrowed : conn ∈ p.borrowed) : Exclusive (p.release conn now) := by
  have hback := fun c => count_erase_conn hborrowed c
  have huse : conn ∈ p.inUse := by
    have hheld := h.held conn
    have hpos := List.count_pos_iff.mpr hborrowed
    exact List.count_pos_iff.mp (by omega)
  have hdel := fun c => count_erase_conn huse c
  have hunused : (p.inUse.erase conn).count conn = 0 := by
    have honce := h.once conn
    have hc := hdel conn
    rw [if_pos rfl] at hc
    omega
  obtain ⟨q, rfl, ⟨-, hq⟩ | ⟨-, w, ws, -, hq⟩ | ⟨-, -, hq⟩⟩ :=
    @release_cases conn now p (List.contains_iff_mem.mpr huse)
  · rw [hq]
    refine ⟨fun c => ?_, fun c => ?_, fun c hle => ?_⟩
    · have honce := h.once c
      have hc := hdel c
      dsimp only [disconnect, delete]
      omega
    · have hheld := h.held c
      have hc := hdel c
      have hc' := hback c
      dsimp only [disconnect, delete]
      omega
    · have hfresh := h.fresh c hle
      have hc := hdel c
      dsimp only [disconnect, delete]
      omega
  · rw [hq]
    have hadd := fun c => @count_add conn
      { p.delete conn with borrowed := p.borrowed.erase conn, waiters := ws } hunused c
    refine ⟨fun c => ?_, fun c => ?_, fun c hle => ?_⟩
    · have honce := h.once c
      have hc := hdel c
      have hc' := hadd c
      dsimp only [lend, add, delete] at hc' ⊢
      omega
    · have hheld := h.held c
      have hc := hdel c
      have hb := hback c
      have hc' := hadd c
      dsimp only [lend, add, delete] at hc' ⊢
      rw [count_cons_conn]
      omega
    · have hfresh := h.fresh c hle
      have hc := hdel c
      have hc' := hadd c
      dsimp only [lend, add, delete] at hc' ⊢
      omega
  · rw [hq]
    refine ⟨fun c => ?_, fun c => ?_, fun c hle => ?_⟩
    · have honce := h.once c
      have hc := hdel c
      dsimp only [delete]
      rw [idleCount_push]
      omega
    · have hheld := h.held c
      have hc := hdel c
      have hb := hback c
      dsimp only [delete]
      omega
    · have hfresh := h.fresh c hle
      have hc := hdel c
      dsimp only [delete]
      rw [idleCount_push]
      omega

/-- One step of an open pool. -/
theorem exclusive_step {p p' : Pool} {e : PoolEvent} (h : Exclusive p) (hok : Borrows p e)
    (hs : p.step cfg e = some p') : Exclusive p' := by
  cases e with
  | acquire =>
    obtain ⟨-, rfl⟩ := by simpa [step] using hs
    exact acquireLoop_exclusive rfl h
  | pingOk conn =>
    obtain ⟨hp, rfl⟩ := by simpa [step] using hs
    have hping := fun c => count_erase_conn hp c
    refine ⟨h.once, fun c => ?_, h.fresh⟩
    have hheld := h.held c
    have hc := hping c
    dsimp only [lend]
    rw [count_cons_conn]
    omega
  | pingFailed conn =>
    obtain ⟨hp, rfl⟩ := by simpa [step] using hs
    exact pingFailed_exclusive h (by simpa using hp)
  | created =>
    obtain ⟨-, rfl⟩ := by simpa [step] using hs
    exact created_exclusive h
  | release conn now =>
    obtain rfl := by simpa [step] using hs
    exact release_exclusive h hok
  | sweep now =>
    obtain rfl := by simpa [step] using hs
    have hkept := fun c => @sweepFrom_idleCount cfg now (p.idle.length + p.inUse.length) p.isAlive c
      p.idle
    refine ⟨fun c => ?_, h.held, fun c hle => ?_⟩
    · have honce := h.once c
      have hc := hkept c
      dsimp only [sweepIdle]
      omega
    · have hfresh := h.fresh c hle
      have hc := hkept c
      dsimp only [sweepIdle]
      omega
  | warmed now =>
    obtain ⟨-, rfl⟩ := by simpa [step] using hs
    refine ⟨fun c => ?_, h.held, fun c hle => ?_⟩
    · have honce := h.once c
      have hfresh := h.fresh c
      dsimp only [warmed]
      rw [idleCount_push]
      split <;> omega
    · have hlt : p.conns < c := hle
      have hfresh := h.fresh c (Nat.le_of_lt hlt)
      dsimp only [warmed]
      rw [idleCount_push, if_neg (Nat.ne_of_lt hlt)]
      omega
  | close => exact absurd hok (by simp [Borrows])
  | createFailed | timeout _ | warmup | warmFailed | dies _ =>
    simp only [step] at hs
    first
      | split at hs
        · obtain rfl := Option.some.inj hs
          exact ⟨h.once, h.held, h.fresh⟩
        · cases hs
      | obtain rfl := Option.some.inj hs
        exact ⟨h.once, h.held, h.fresh⟩

/-- On a pool whose borrowers give back what they have, once, there are never more connections
than `max`, and each is idle once, or held by one caller. -/
theorem pool_exclusive (hmin : cfg.min ≤ cfg.max) {p : Pool}
    (h : (machine cfg).Reachable Borrows p) :
    p.idle.length + p.inUse.length + p.pendingCreates ≤ cfg.max ∧
      (p.idle.map (·.conn) ++ p.inUse).Nodup ∧ p.borrowed.Nodup := by
  have hall : Bounded cfg p ∧ Exclusive p := by
    refine h.invariant (fun p => Bounded cfg p ∧ Exclusive p) ?_ ?_
    · rintro p rfl
      exact ⟨sound_empty.toBounded, fun c => Nat.zero_le 1, fun c => rfl, fun c _ => rfl⟩
    · rintro p e p' ⟨hb, he⟩ hok hs
      exact ⟨bounded_step hmin hb hs, exclusive_step he hok hs⟩
  obtain ⟨hb, he⟩ := hall
  refine ⟨hb.size, List.nodup_iff_count_le_one.mpr fun c => ?_,
    List.nodup_iff_count_le_one.mpr fun c => ?_⟩
  · have honce := he.once c
    rw [List.count_append]
    exact honce
  · have honce := he.once c
    have hheld := he.held c
    omega

/-- Two callers, one after the other, on one connection. -/
theorem pool_exclusive_single :
    oneWaiting.borrowed.Nodup ∧ (oneWaiting.idle.map (·.conn) ++ oneWaiting.inUse).Nodup := by
  have h₀ : (machine single).Reachable Borrows {} := .init rfl
  have h₁ := h₀.step (e := PoolEvent.acquire) trivial rfl
  have h₂ := h₁.step (e := PoolEvent.created) trivial rfl
  have h₃ : (machine single).Reachable Borrows oneWaiting :=
    h₂.step (e := PoolEvent.acquire) trivial rfl
  have h := @pool_exclusive single (by decide) oneWaiting h₃
  exact ⟨h.2.2, h.2.1⟩

end FastFirebird.Pool
