import Mathlib.Logic.Basic

/-! State machines driven by events, and what holds along their runs. -/
namespace FastFirebird

/-- `step s e` is the state after `e`, if `e` can happen in `s`. -/
structure Machine (σ ε : Type) where
  init : σ → Prop
  step : σ → ε → Option σ

namespace Machine

variable {σ ε : Type} (m : Machine σ ε)

/-- The states of the runs all of whose events are as `ok` wants them. -/
inductive Reachable (ok : σ → ε → Prop) : σ → Prop
  | init {s : σ} (h : m.init s) : Reachable ok s
  | step {s s' : σ} {e : ε} (h : Reachable ok s) (hok : ok s e) (hs : m.step s e = some s') :
      Reachable ok s'

variable {m} {ok : σ → ε → Prop}

/-- An invariant of the first states and of every step is one of the reachable states. -/
theorem Reachable.invariant (inv : σ → Prop) {s : σ} (h : m.Reachable ok s)
    (hinit : ∀ s, m.init s → inv s)
    (hstep : ∀ s e s', inv s → ok s e → m.step s e = some s' → inv s') : inv s := by
  induction h with
  | init h => exact hinit _ h
  | step _ hok hs ih => exact hstep _ _ _ ih hok hs

theorem Reachable.mono {ok' : σ → ε → Prop} {s : σ} (h : m.Reachable ok s)
    (hok : ∀ s e, ok s e → ok' s e) : m.Reachable ok' s := by
  induction h with
  | init h => exact .init h
  | step _ he hs ih => exact ih.step (hok _ _ he) hs

variable (m)

/-- The state after a whole list of events. -/
def run : σ → List ε → Option σ
  | s, [] => some s
  | s, e :: es => (m.step s e).bind fun s' => run s' es

variable {m}

/-- What every step keeps, every run keeps. -/
theorem run_invariant {inv : σ → Prop} (hstep : ∀ s e s', inv s → m.step s e = some s' → inv s')
    {s s' : σ} {es : List ε} (h : inv s) (hr : m.run s es = some s') : inv s' := by
  induction es generalizing s with
  | nil =>
    obtain rfl := Option.some.inj hr
    exact h
  | cons e es ih =>
    obtain ⟨s₁, hs, hr⟩ := Option.bind_eq_some_iff.mp hr
    exact ih (hstep _ _ _ h hs) hr

theorem Reachable.run {s s' : σ} {es : List ε} (h : m.Reachable (fun _ _ => True) s)
    (hr : m.run s es = some s') : m.Reachable (fun _ _ => True) s' :=
  run_invariant (fun _ _ _ h hs => h.step trivial hs) h hr

theorem Reachable.run_of {s s' : σ} {es : List ε} (h : m.Reachable ok s)
    (hok : ∀ e ∈ es, ∀ s, ok s e) (hr : m.run s es = some s') : m.Reachable ok s' := by
  induction es generalizing s with
  | nil =>
    obtain rfl := Option.some.inj hr
    exact h
  | cons e es ih =>
    obtain ⟨s₁, hs, hr⟩ := Option.bind_eq_some_iff.mp hr
    have h₁ := h.step (hok e List.mem_cons_self s) hs
    exact ih h₁ (fun e he => hok e (List.mem_cons_of_mem _ he)) hr

variable (m)

/-- The machine that goes on from a state of `m`. -/
def resumed (s : σ) : Machine σ ε := ⟨(· = s), m.step⟩

end Machine
end FastFirebird
