import Mathlib.Logic.Basic

/-! Machines that turn one symbol after another into a symbol, and keep a state between them. -/
namespace FastFirebird

variable {σ α β : Type}

def transduce (step : σ → α → β × σ) : σ → List α → List β × σ
  | s, [] => ([], s)
  | s, a :: rest =>
    let (b, t) := step s a
    let (out, t) := transduce step t rest
    (b :: out, t)

/-- The input comes in pieces, and every piece is answered by itself. -/
def transducePieces (step : σ → α → β × σ) : σ → List (List α) → List (List β) × σ
  | s, [] => ([], s)
  | s, piece :: pieces =>
    let (out, t) := transduce step s piece
    let (outs, t) := transducePieces step t pieces
    (out :: outs, t)

theorem transduce_append (step : σ → α → β × σ) (xs ys : List α) : ∀ s : σ,
    transduce step s (xs ++ ys) =
      ((transduce step s xs).1 ++ (transduce step (transduce step s xs).2 ys).1,
        (transduce step (transduce step s xs).2 ys).2) := by
  induction xs with
  | nil => exact fun _ => rfl
  | cons a xs ih =>
    intro s
    rw [List.cons_append, transduce, transduce]
    dsimp only
    rw [ih]
    rfl

/-- The pieces do not show in what comes out. -/
theorem transducePieces_flatten (step : σ → α → β × σ) (pieces : List (List α)) : ∀ s : σ,
    (transducePieces step s pieces).1.flatten = (transduce step s pieces.flatten).1 ∧
      (transducePieces step s pieces).2 = (transduce step s pieces.flatten).2 := by
  induction pieces with
  | nil => exact fun _ => ⟨rfl, rfl⟩
  | cons piece pieces ih =>
    intro s
    have hflat : (piece :: pieces).flatten = piece ++ pieces.flatten := List.flatten_cons
    have ⟨hout, hstate⟩ := ih (transduce step s piece).2
    rw [hflat, transduce_append, transducePieces]
    dsimp only
    rw [List.flatten_cons, hout, hstate]
    exact ⟨rfl, rfl⟩

/-- A machine that undoes each step of another, and goes on from the same state, undoes all of it. -/
theorem transduce_inverse {step : σ → α → β × σ} {back : σ → β → α × σ}
    (h : ∀ s a, back s (step s a).1 = (a, (step s a).2)) (xs : List α) : ∀ s : σ,
    transduce back s (transduce step s xs).1 = (xs, (transduce step s xs).2) := by
  induction xs with
  | nil => exact fun _ => rfl
  | cons a xs ih =>
    intro s
    rw [transduce]
    dsimp only
    rw [transduce, h]
    dsimp only
    rw [ih]

/-- What every step keeps holds after every symbol. -/
theorem transduce_keeps {step : σ → α → β × σ} {P : σ → Prop} (h : ∀ s a, P s → P (step s a).2)
    (xs : List α) : ∀ {s : σ}, P s → P (transduce step s xs).2 := by
  induction xs with
  | nil => exact fun hs => hs
  | cons a xs ih => exact fun hs => ih (h _ a hs)

end FastFirebird
