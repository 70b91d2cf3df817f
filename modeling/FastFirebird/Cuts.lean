import Mathlib.Data.List.Basic
import Mathlib.Order.Basic
import Mathlib.Data.Nat.Init
import Mathlib.Algebra.GroupWithZero.Nat

/-! Pieces that stand one behind the other, and the places they take. -/
namespace FastFirebird.Cut

variable {α : Type}

/-! A list cut by steps from its start -/

section Chop

variable {γ : Type}

/-- What a step finds at the start of a list that is not empty, and how much of it. -/
def chopFrom (step : List γ → α × Nat) : Nat → List γ → List (α × Nat)
  | 0, _ => []
  | _ + 1, [] => []
  | fuel + 1, c :: rest =>
    step (c :: rest) :: chopFrom step fuel ((c :: rest).drop (step (c :: rest)).2)

/-- The length of the list is fuel enough when every step takes something. -/
def chop (step : List γ → α × Nat) (list : List γ) : List (α × Nat) :=
  chopFrom step list.length list

/-- A step takes something, and no more than there is. -/
def Cuts (step : List γ → α × Nat) : Prop :=
  ∀ (c : γ) (rest : List γ), 1 ≤ (step (c :: rest)).2 ∧ (step (c :: rest)).2 ≤ rest.length + 1

variable {step : List γ → α × Nat}

theorem chopFrom_fuel (hstep : Cuts step) : ∀ {m n : Nat} {list : List γ}, list.length ≤ m →
    list.length ≤ n → chopFrom step m list = chopFrom step n list := by
  intro m
  induction m with
  | zero =>
    intro n list hm _
    rw [List.eq_nil_of_length_eq_zero (Nat.le_zero.mp hm)]
    cases n <;> rfl
  | succ m ih =>
    intro n list hm hn
    cases list with
    | nil => cases n <;> rfl
    | cons c rest =>
      simp only [List.length_cons] at hm hn
      obtain ⟨n, rfl⟩ : ∃ k, n = k + 1 := ⟨n - 1, by omega⟩
      have htakes := (hstep c rest).1
      have hshort : ((c :: rest).drop (step (c :: rest)).2).length ≤ rest.length := by
        rw [List.length_drop, List.length_cons]
        omega
      rw [chopFrom, chopFrom, @ih n _ (by omega) (by omega)]

theorem chop_cons (hstep : Cuts step) (c : γ) (rest : List γ) : chop step (c :: rest) =
    step (c :: rest) :: chop step ((c :: rest).drop (step (c :: rest)).2) := by
  have htakes := (hstep c rest).1
  have hshort : ((c :: rest).drop (step (c :: rest)).2).length ≤ rest.length := by
    rw [List.length_drop, List.length_cons]
    omega
  rw [chop, List.length_cons, chopFrom, chop, chopFrom_fuel hstep hshort (Nat.le_refl _)]

/-- What holds of the empty list, and of a list when it holds of what a step leaves of it. -/
theorem chop_induction (hstep : Cuts step) {P : List γ → Prop} (nil : P [])
    (cons : ∀ c rest, P ((c :: rest).drop (step (c :: rest)).2) → P (c :: rest)) :
    ∀ list, P list := by
  suffices h : ∀ n (list : List γ), list.length ≤ n → P list from fun list => h _ list (Nat.le_refl _)
  intro n
  induction n with
  | zero =>
    intro list hlen
    rw [List.eq_nil_of_length_eq_zero (Nat.le_zero.mp hlen)]
    exact nil
  | succ n ih =>
    intro list hlen
    cases list with
    | nil => exact nil
    | cons c rest =>
      have htakes := (hstep c rest).1
      apply cons
      apply ih
      rw [List.length_drop]
      rw [List.length_cons] at hlen ⊢
      omega

end Chop

/-! Places -/

/-- A piece from `start` up to `stop`. -/
structure Placed (α : Type) where
  label : α
  start : Nat
  stop : Nat
  deriving Repr, DecidableEq

/-- The pieces with their lengths, the first of them at `k`. -/
def places : (k : Nat) → List (α × Nat) → List (Placed α)
  | _, [] => []
  | k, (a, n) :: pieces => ⟨a, k, k + n⟩ :: places (k + n) pieces

def total (pieces : List (α × Nat)) : Nat := (pieces.map Prod.snd).sum

def Placed.covers (p : Placed α) (i : Nat) : Bool := p.start ≤ i && i < p.stop

/-- They have a position in common. -/
def Placed.meets {β : Type} (p : Placed α) (q : Placed β) : Bool :=
  p.start < q.stop && q.start < p.stop

theorem Placed.covers_iff {p : Placed α} {i : Nat} : p.covers i = true ↔ p.start ≤ i ∧ i < p.stop := by
  simp [Placed.covers]

theorem total_append (pieces more : List (α × Nat)) :
    total (pieces ++ more) = total pieces + total more := by
  simp [total]

theorem total_chop {γ : Type} {step : List γ → α × Nat} (hstep : Cuts step) (list : List γ) :
    total (chop step list) = list.length := by
  induction list using chop_induction hstep with
  | nil => rfl
  | cons c rest ih =>
    have htakes := (hstep c rest).2
    rw [chop_cons hstep, total, List.map_cons, List.sum_cons, ← total, ih, List.length_drop,
      List.length_cons]
    omega

theorem places_append (pieces more : List (α × Nat)) : ∀ k : Nat,
    places k (pieces ++ more) = places k pieces ++ places (k + total pieces) more := by
  induction pieces with
  | nil => exact fun _ => rfl
  | cons piece pieces ih =>
    intro k
    have hsum : k + piece.2 + total pieces = k + total (piece :: pieces) := by
      simp only [total, List.map_cons, List.sum_cons]
      omega
    rw [List.cons_append, places, places, ih, hsum, List.cons_append]

theorem places_bounds : ∀ {pieces : List (α × Nat)} {k : Nat} {p : Placed α},
    p ∈ places k pieces → k ≤ p.start ∧ p.start ≤ p.stop ∧ p.stop ≤ k + total pieces
  | [], _, _, h => absurd h List.not_mem_nil
  | (a, n) :: pieces, k, p, h => by
    have htotal : total ((a, n) :: pieces) = n + total pieces := by
      simp [total]
    rcases List.mem_cons.mp h with rfl | h
    · dsimp only
      omega
    · have hbounds := places_bounds h
      omega

/-- What holds of a place and of nothing in front of it or behind it holds of that place only. -/
theorem filter_only {f : Placed α → Bool} {p : Placed α} (hp : f p = true)
    (hbefore : ∀ q : Placed α, q.stop ≤ p.start → f q = false)
    (hbehind : ∀ q : Placed α, p.stop ≤ q.start → f q = false) :
    ∀ {pieces : List (α × Nat)} {k : Nat}, p ∈ places k pieces →
      (places k pieces).filter f = [p]
  | [], _, h => absurd h List.not_mem_nil
  | (a, n) :: pieces, k, h => by
    rw [places]
    rcases List.mem_cons.mp h with rfl | h
    · have hrest : (places (k + n) pieces).filter f = [] := by
        apply List.filter_eq_nil_iff.mpr
        intro q hq
        rw [hbehind q (places_bounds hq).1]
        exact Bool.false_ne_true
      rw [List.filter_cons_of_pos hp, hrest]
    · have hfirst : ¬ f ⟨a, k, k + n⟩ = true := by
        rw [hbefore ⟨a, k, k + n⟩ (places_bounds h).1]
        exact Bool.false_ne_true
      rw [List.filter_cons_of_neg hfirst]
      exact filter_only hp hbefore hbehind h

theorem filter_covers {pieces : List (α × Nat)} {k i : Nat} {p : Placed α}
    (h : p ∈ places k pieces) (hi : p.covers i = true) :
    (places k pieces).filter (·.covers i) = [p] := by
  have hbounds := Placed.covers_iff.mp hi
  refine @filter_only α (·.covers i) p hi ?_ ?_ pieces k h
  · intro q hq
    rw [← Bool.not_eq_true, Placed.covers_iff]
    omega
  · intro q hq
    rw [← Bool.not_eq_true, Placed.covers_iff]
    omega

theorem filter_meets {β : Type} {pieces : List (α × Nat)} {k : Nat} {p : Placed α} {q : Placed β}
    (h : p ∈ places k pieces) (hstart : p.start = q.start) (hstop : p.stop = q.stop)
    (hnonempty : q.start < q.stop) : (places k pieces).filter (·.meets q) = [p] := by
  have hself : p.meets q = true := by
    simp only [Placed.meets, Bool.and_eq_true, decide_eq_true_eq]
    omega
  refine @filter_only α (·.meets q) p hself ?_ ?_ pieces k h
  · intro r hr
    simp [Placed.meets]
    omega
  · intro r hr
    simp [Placed.meets]
    omega

/-- No two places hold the same position. -/
theorem covers_unique {pieces : List (α × Nat)} {k i : Nat} {p q : Placed α}
    (hp : p ∈ places k pieces) (hq : q ∈ places k pieces) (hpi : p.covers i = true)
    (hqi : q.covers i = true) : p = q := by
  have hmem : p ∈ (places k pieces).filter (·.covers i) := List.mem_filter.mpr ⟨hp, hpi⟩
  rw [filter_covers hq hqi] at hmem
  exact List.mem_singleton.mp hmem

/-- Every position is in a place. -/
theorem exists_covers : ∀ {pieces : List (α × Nat)} {k i : Nat}, k ≤ i → i < k + total pieces →
    ∃ p ∈ places k pieces, p.covers i = true
  | [], k, i, hlow, hhigh => by
    simp only [total, List.map_nil, List.sum_nil] at hhigh
    omega
  | (a, n) :: pieces, k, i, hlow, hhigh => by
    have htotal : total ((a, n) :: pieces) = n + total pieces := by
      simp [total]
    by_cases hfirst : i < k + n
    · exact ⟨⟨a, k, k + n⟩, List.mem_cons_self, Placed.covers_iff.mpr ⟨hlow, hfirst⟩⟩
    · obtain ⟨p, hp, hcovers⟩ := @exists_covers pieces (k + n) i (by omega) (by omega)
      exact ⟨p, List.mem_cons_of_mem _ hp, hcovers⟩

end FastFirebird.Cut
