import Mathlib.Logic.Basic

/-! What a history makes of a state: every event since some moment is seen in turn, and one that does
not fit ends the account. Histories are lists, newest first. -/
namespace FastFirebird

variable {σ ε : Type} (see : σ → ε → Option σ) (start : σ) (base : Nat)

/-- The state by the events since the history had `base` of them, if each of them fits. -/
def since : List ε → Option σ
  | [] => some start
  | e :: log => if log.length < base then some start else (since log).bind (see · e)

variable {see start base} {e : ε} {log : List ε}

theorem since_start (h : log.length ≤ base) : since see start base log = some start := by
  cases log with
  | nil => rfl
  | cons e log => exact if_pos h

theorem since_cons (h : base ≤ log.length) :
    since see start base (e :: log) = (since see start base log).bind (see · e) :=
  if_neg (Nat.not_lt.mpr h)

/-- An event of no account leaves the state as it is. -/
theorem since_skip (h : base ≤ log.length) (he : ∀ s, see s e = some s) :
    since see start base (e :: log) = since see start base log := by
  rw [since_cons h]
  cases since see start base log with
  | none => rfl
  | some s => exact he s

/-- A history that fits has only such histories before it. -/
theorem since_earlier (h : (since see start base (e :: log)).isSome) :
    (since see start base log).isSome := by
  rcases Nat.lt_or_ge log.length base with hlt | hge
  · rw [since_start (Nat.le_of_lt hlt)]
    rfl
  · rw [since_cons hge] at h
    cases hs : since see start base log with
    | none =>
      rw [hs] at h
      cases h
    | some s => rfl

/-- The last event of a history that fits: the state before it, and the one after. -/
theorem since_last (hbase : base ≤ log.length) (h : (since see start base (e :: log)).isSome) :
    ∃ s s', since see start base log = some s ∧ see s e = some s' ∧
      since see start base (e :: log) = some s' := by
  obtain ⟨s', hs'⟩ := Option.isSome_iff_exists.mp h
  have hlast := hs'
  rw [since_cons hbase] at hlast
  obtain ⟨s, hs, hsee⟩ := Option.bind_eq_some_iff.mp hlast
  exact ⟨s, s', hs, hsee, hs'⟩

/-- What none of the events behind a history changes. -/
theorem since_stays {α : Type} (f : σ → α) {new log : List ε} (hbase : base ≤ log.length)
    (hnew : ∀ e ∈ new, ∀ s s', see s e = some s' → f s' = f s) {s s' : σ}
    (hs : since see start base log = some s) (hs' : since see start base (new ++ log) = some s') :
    f s' = f s := by
  induction new generalizing s' with
  | nil => rw [Option.some.inj (hs'.symm.trans hs)]
  | cons e new ih =>
    have hlen : base ≤ (new ++ log).length := by
      rw [List.length_append]
      omega
    obtain ⟨s₁, s₂, hs₁, hsee, hs₂⟩ := since_last hlen (Option.isSome_iff_exists.mpr ⟨s', hs'⟩)
    obtain rfl : s₂ = s' := Option.some.inj (hs₂.symm.trans hs')
    have hbefore : f s₁ = f s := ih (fun e he => hnew e (List.mem_cons_of_mem _ he)) hs₁
    exact (hnew e List.mem_cons_self s₁ s₂ hsee).trans hbefore

end FastFirebird
