import FastFirebird.PoolExclusive

/-! What a pool holds once it has been closed. -/
namespace FastFirebird.Pool

variable {cfg : PoolConfig}

/-- Behind `close` no connect that was in flight succeeds, no ping succeeds, and no ping fails
while the pool has room for another connection. -/
def Quiet (cfg : PoolConfig) (p : Pool) : PoolEvent → Prop
  | .pingOk _ | .created | .warmed _ => p.closed = false
  | .pingFailed _ => p.closed = false ∨ cfg.max ≤ p.size
  | _ => True

/-- Every connection there has been is idle, in use or disconnected. -/
def Accounted (p : Pool) : Prop :=
  ∀ c < p.conns, c ∈ p.idle.map (·.conn) ∨ c ∈ p.inUse ∨ c ∈ p.disconnected

theorem mem_inUse_add (conn : Nat) (p : Pool) : conn ∈ (p.add conn).inUse := by
  unfold add
  dsimp only
  split
  · rename_i h
    exact List.contains_iff_mem.mp h
  · exact List.mem_append_right _ List.mem_cons_self

theorem subset_inUse_add {c conn : Nat} {p : Pool} (h : c ∈ p.inUse) : c ∈ (p.add conn).inUse := by
  unfold add
  dsimp only
  split
  · exact h
  · exact List.mem_append_left _ h

/-- What leaves `inUse` to be disconnected stays accounted for. -/
theorem mem_discard {c conn : Nat} {p : Pool} (h : c ∈ p.inUse ∨ c ∈ p.disconnected) :
    c ∈ ((p.delete conn).disconnect conn).inUse ∨
      c ∈ ((p.delete conn).disconnect conn).disconnected := by
  by_cases hc : c = conn
  · exact .inr (hc ▸ List.mem_cons_self)
  · rcases h with h | h
    · exact .inl ((List.mem_erase_of_ne hc).mpr h)
    · exact .inr (List.mem_cons_of_mem _ h)

theorem acquireLoop_accounted {l : List IdleEntry} {p : Pool} (hi : p.idle = l)
    (h : Accounted p) : Accounted (acquireLoop cfg l p) := by
  induction l generalizing p with
  | nil =>
    have hp : ({ p with idle := [] } : Pool) = p := by rw [← hi]
    unfold acquireLoop acquireNew
    rw [hp]
    split <;> exact h
  | cons e rest ih =>
    have hpop : ∀ c < p.conns, c ∈ rest.map (·.conn) ∨
        c ∈ (({ p with idle := rest } : Pool).add e.conn).inUse ∨ c ∈ p.disconnected := by
      intro c hc
      rcases h c hc with hm | hm | hm
      · rw [hi, List.map_cons] at hm
        rcases List.mem_cons.mp hm with rfl | hm
        · exact .inr (.inl (mem_inUse_add _ _))
        · exact .inl hm
      · exact .inr (.inl (subset_inUse_add hm))
      · exact .inr (.inr hm)
    unfold acquireLoop
    dsimp only
    split
    · split <;> exact hpop
    · refine ih rfl fun c hc => ?_
      rcases hpop c hc with hm | hm
      · exact .inl hm
      · exact .inr (mem_discard hm)

theorem mem_sweepFrom_or {now total : Nat} {isAlive : Nat → Bool} {l : List IdleEntry} {c : Nat}
    (h : c ∈ l.map (·.conn)) :
    c ∈ (sweepFrom cfg now isAlive total l).1.map (·.conn) ∨
      c ∈ (sweepFrom cfg now isAlive total l).2 := by
  induction l generalizing total with
  | nil => cases h
  | cons e rest ih =>
    unfold sweepFrom
    split
    · exact .inl h
    · rw [List.map_cons] at h
      split
      · rcases List.mem_cons.mp h with rfl | h
        · exact .inr List.mem_cons_self
        · exact (ih h).imp_right (List.mem_cons_of_mem _)
      · rcases List.mem_cons.mp h with rfl | h
        · exact .inl List.mem_cons_self
        · exact (ih h).imp_left (List.mem_cons_of_mem _)

theorem release_accounted (conn now : Nat) {p : Pool} (h : Accounted p) :
    Accounted (p.release conn now) := by
  cases hc : p.inUse.contains conn with
  | false =>
    rw [release_other hc]
    exact h
  | true =>
    obtain ⟨q, rfl, ⟨-, hq⟩ | ⟨-, w, ws, -, hq⟩ | ⟨-, -, hq⟩⟩ := @release_cases conn now p hc
    · rw [hq]
      exact fun c hc => (h c hc).imp_right mem_discard
    · rw [hq]
      intro c hc
      by_cases hcc : c = conn
      · exact .inr (.inl (hcc ▸ mem_inUse_add _ _))
      · refine (h c hc).imp_right (Or.imp_left fun hm => ?_)
        exact subset_inUse_add ((List.mem_erase_of_ne hcc).mpr hm)
    · rw [hq]
      intro c hc
      by_cases hcc : c = conn
      · exact .inl (hcc ▸ List.mem_cons_self)
      · rcases h c hc with hm | hm | hm
        · exact .inl (List.mem_cons_of_mem _ hm)
        · exact .inr (.inl ((List.mem_erase_of_ne hcc).mpr hm))
        · exact .inr (.inr hm)

/-- No step loses a connection. -/
theorem accounted_step {p p' : Pool} {e : PoolEvent} (h : Accounted p)
    (hs : p.step cfg e = some p') : Accounted p' := by
  cases e with
  | acquire =>
    obtain ⟨-, rfl⟩ := by simpa [step] using hs
    exact acquireLoop_accounted rfl h
  | pingFailed conn =>
    obtain ⟨-, rfl⟩ := by simpa [step] using hs
    exact acquireLoop_accounted rfl fun c hc => (h c hc).imp_right mem_discard
  | created =>
    obtain ⟨-, rfl⟩ := by simpa [step] using hs
    intro c hc
    rcases Nat.lt_succ_iff_lt_or_eq.mp hc with hc | rfl
    · exact (h c hc).imp_right (Or.imp_left fun hm => subset_inUse_add hm)
    · exact .inr (.inl (mem_inUse_add _ _))
  | warmed now =>
    obtain ⟨-, rfl⟩ := by simpa [step] using hs
    intro c hc
    rcases Nat.lt_succ_iff_lt_or_eq.mp hc with hc | rfl
    · exact (h c hc).imp_left fun hm => List.mem_cons_of_mem _ hm
    · exact .inl List.mem_cons_self
  | release conn now =>
    obtain rfl := by simpa [step] using hs
    exact release_accounted conn now h
  | sweep now =>
    obtain rfl := by simpa [step] using hs
    intro c hc
    rcases h c hc with hm | hm | hm
    · exact (mem_sweepFrom_or hm).imp_right fun hm => .inr (List.mem_append_left _ hm)
    · exact .inr (.inl hm)
    · exact .inr (.inr (List.mem_append_right _ hm))
  | close =>
    obtain rfl := by simpa [step] using hs
    intro c hc
    refine .inr (.inr ?_)
    rcases h c hc with hm | hm | hm
    · exact List.mem_append_left _ (List.mem_append_left _ hm)
    · exact List.mem_append_left _ (List.mem_append_right _ hm)
    · exact List.mem_append_right _ hm
  | pingOk _ | createFailed | timeout _ | warmup | warmFailed | dies _ =>
    simp only [step] at hs
    first
      | split at hs
        · obtain rfl := Option.some.inj hs
          exact h
        · cases hs
      | obtain rfl := Option.some.inj hs
        exact h

/-- A closed pool that has let go of what it had: `q` is the pool when it was closed. -/
structure Emptied (q p : Pool) : Prop where
  closed : p.closed = true
  idle : p.idle = []
  inUse : p.inUse = []
  conns : p.conns = q.conns
  creating : p.creating ≤ q.creating
  borrowed : p.borrowed.Sublist q.borrowed

theorem emptied_step {q p p' : Pool} {e : PoolEvent} (h : Emptied q p) (hok : Quiet cfg p e)
    (hs : p.step cfg e = some p') : Emptied q p' := by
  have hc := h.closed
  cases e with
  | acquire => simp [step, hc] at hs
  | pingOk _ | created | warmed _ => exact absurd hc (by simp only [Quiet] at hok; simp [hok])
  | pingFailed conn =>
    obtain ⟨-, rfl⟩ := by simpa [step] using hs
    have hfull : cfg.max ≤ p.size := by
      rcases hok with hopen | hfull
      · exact absurd (hc.symm.trans hopen) (by decide)
      · exact hfull
    have hsize : ¬ p.pendingCreates < cfg.max := by
      simp only [size, h.idle, h.inUse, List.length_nil] at hfull
      omega
    have hp : p.pingFailed cfg conn = { p with
        pinging := p.pinging.erase conn
        dead := conn :: p.dead
        disconnected := conn :: p.disconnected
        waiters := p.waiters ++ [p.waits]
        waits := p.waits + 1 } := by
      simp only [pingFailed, disconnect, delete, h.idle, h.inUse, acquireLoop, acquireNew, size,
        List.erase_nil, List.length_nil, Nat.zero_add, if_neg hsize]
    rw [hp]
    exact ⟨hc, h.idle, h.inUse, h.conns, h.creating, h.borrowed⟩
  | createFailed =>
    obtain ⟨-, rfl⟩ := by simpa [step] using hs
    exact ⟨hc, h.idle, h.inUse, h.conns, (Nat.sub_le _ _).trans h.creating, h.borrowed⟩
  | release conn now =>
    obtain rfl := by simpa [step] using hs
    have hno : p.inUse.contains conn = false := by rw [h.inUse]; rfl
    rw [release_other hno]
    exact ⟨hc, h.idle, h.inUse, h.conns, h.creating, List.erase_sublist.trans h.borrowed⟩
  | sweep now =>
    obtain rfl := by simpa [step] using hs
    have hkept : (p.sweepIdle cfg now).idle = [] := by
      simp only [sweepIdle, h.idle, sweepFrom]
    exact ⟨hc, hkept, h.inUse, h.conns, h.creating, h.borrowed⟩
  | close =>
    obtain rfl := by simpa [step] using hs
    exact ⟨rfl, rfl, rfl, h.conns, h.creating, h.borrowed⟩
  | timeout _ | warmup | warmFailed | dies _ =>
    simp only [step] at hs
    first
      | split at hs
        · obtain rfl := Option.some.inj hs
          exact ⟨hc, h.idle, h.inUse, h.conns, h.creating, h.borrowed⟩
        · cases hs
      | obtain rfl := Option.some.inj hs
        exact ⟨hc, h.idle, h.inUse, h.conns, h.creating, h.borrowed⟩

/-- Only `close` closes a pool, and it empties it. -/
theorem emptied_close {p p' : Pool} {e : PoolEvent} (hopen : p.closed = false)
    (hs : p.step cfg e = some p') (hc : p'.closed = true) : Emptied p' p' := by
  cases e with
  | close =>
    obtain rfl := by simpa [step] using hs
    exact ⟨rfl, rfl, rfl, rfl, Nat.le_refl _, List.Sublist.refl _⟩
  | acquire =>
    obtain ⟨-, rfl⟩ := by simpa [step] using hs
    exact absurd (hc.symm.trans ((closed_acquireLoop _ _).trans hopen)) (by decide)
  | pingFailed conn =>
    obtain ⟨-, rfl⟩ := by simpa [step] using hs
    have hkeep : (p.pingFailed cfg conn).closed = p.closed := closed_acquireLoop _ _
    exact absurd (hc.symm.trans (hkeep.trans hopen)) (by decide)
  | release conn now =>
    obtain rfl := by simpa [step] using hs
    exact absurd (hc.symm.trans ((closed_release conn now p).trans hopen)) (by decide)
  | pingOk _ | created | createFailed | timeout _ | sweep _ | warmup | warmed _ | warmFailed
  | dies _ =>
    simp only [step] at hs
    first
      | split at hs
        · obtain rfl := Option.some.inj hs
          exact absurd (hc.symm.trans hopen) (by decide)
        · cases hs
      | obtain rfl := Option.some.inj hs
        exact absurd (hc.symm.trans hopen) (by decide)

/-- From a closed pool on, if nothing that was in flight succeeds: no connection becomes idle,
none is opened or handed out, and every one there has been is disconnected. -/
theorem closed_pool_holds_nothing {p : Pool} (h : (machine cfg).Reachable (Quiet cfg) p)
    (hc : p.closed = true) :
    (∀ p', ((machine cfg).resumed p).Reachable (Quiet cfg) p' →
      p'.idle = [] ∧ p'.conns = p.conns ∧ p'.creating ≤ p.creating ∧
        p'.borrowed.Sublist p.borrowed) ∧
    ∀ c < p.conns, c ∈ p.disconnected := by
  have hall : Accounted p ∧ (p.closed = true → Emptied p p) := by
    refine h.invariant (fun p => Accounted p ∧ (p.closed = true → Emptied p p)) ?_ ?_
    · rintro p rfl
      exact ⟨fun c hc => absurd hc (Nat.not_lt_zero c), fun hc => by cases hc⟩
    · rintro p e p' ⟨ha, he⟩ hok hs
      refine ⟨accounted_step ha hs, fun hc' => ?_⟩
      cases hc : p.closed with
      | false => exact emptied_close hc hs hc'
      | true =>
        have he' := emptied_step (he hc) hok hs
        exact ⟨he'.closed, he'.idle, he'.inUse, rfl, Nat.le_refl _, List.Sublist.refl _⟩
  obtain ⟨ha, he⟩ := hall
  refine ⟨fun p' h' => ?_, fun c hc' => ?_⟩
  · have he' : Emptied p p' := by
      refine h'.invariant (Emptied p) ?_ fun s e s' hs hok hstep => emptied_step hs hok hstep
      rintro s rfl
      exact he hc
    exact ⟨he'.idle, he'.conns, he'.creating, he'.borrowed⟩
  · rcases ha c hc' with hm | hm | hm
    · rw [(he hc).idle] at hm
      cases hm
    · rw [(he hc).inUse] at hm
      cases hm
    · exact hm

/-- The pool is closed while one connection is borrowed. -/
def closedSingle : Pool := Pool.close { inUse := [0], borrowed := [0], conns := 1 }

theorem closed_single_holds_nothing :
    closedSingle.disconnected = [0] ∧ ∀ c < closedSingle.conns, c ∈ closedSingle.disconnected := by
  have hrun : (machine single).Reachable (Quiet single) closedSingle := by
    have h₀ : (machine single).Reachable (Quiet single) {} := .init rfl
    have h₁ := h₀.step (e := PoolEvent.acquire) trivial rfl
    have h₂ := h₁.step (e := PoolEvent.created) rfl rfl
    exact h₂.step (e := PoolEvent.close) trivial rfl
  exact ⟨rfl, (@closed_pool_holds_nothing single closedSingle hrun rfl).2⟩

/-- A pool that keeps one connection warm. -/
def warm : PoolConfig := ⟨1, 1, 60000, true⟩

/-- `warmup` is connecting when the pool is closed: its connection becomes idle afterwards, and
stays connected when nothing is in flight any more. -/
theorem warmed_after_close :
    ¬ ∀ p : Pool, (machine warm).Reachable (fun _ _ => True) p → p.closed = true →
      p.idle = [] ∧
        (p.pinging = [] → p.creating = 0 → p.warming = 0 → p.borrowed = [] →
          ∀ c < p.conns, c ∈ p.disconnected) := by
  intro h
  have hrun : (machine warm).run {} [.warmup, .close, .warmed 0] =
      some { idle := [⟨0, 0⟩], closed := true, conns := 1 } := rfl
  have hp := h _ (Machine.Reachable.run (.init rfl) hrun) rfl
  exact absurd hp.1 (by decide)

end FastFirebird.Pool
