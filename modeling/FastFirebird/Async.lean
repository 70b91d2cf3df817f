import Mathlib.Logic.Basic
import Mathlib.Tactic.ByContra

/-! Awaiting programs over a shared state, observed up to some moment: a program
has settled (with a value or an error) or is still pending. The predicate `wp`
reads a program as a transformer of postconditions. -/
namespace FastFirebird

/-- How a call stands when it is observed. -/
inductive Outcome (ε α : Type) where
  | ok (a : α)
  | error (e : ε)
  | pending
  deriving Repr, DecidableEq

def Outcome.settled {ε α : Type} : Outcome ε α → Bool
  | .ok _ | .error _ => true
  | .pending => false

def Async (σ ε α : Type) : Type := σ → Outcome ε α × σ

namespace Async

variable {σ ε α β : Type}

protected def pure (a : α) : Async σ ε α := fun s => (.ok a, s)

protected def bind (x : Async σ ε α) (f : α → Async σ ε β) : Async σ ε β := fun s =>
  match x s with
  | (.ok a, s') => f a s'
  | (.error e, s') => (.error e, s')
  | (.pending, s') => (.pending, s')

instance : Monad (Async σ ε) where
  pure := Async.pure
  bind := Async.bind

theorem bind_assoc' (x : Async σ ε α) (f : α → Async σ ε β) {γ : Type} (g : β → Async σ ε γ) :
    Async.bind (Async.bind x f) g = Async.bind x fun a => Async.bind (f a) g := by
  funext s
  unfold Async.bind
  rcases x s with ⟨_ | _ | _, t⟩ <;> rfl

instance : LawfulMonad (Async σ ε) := LawfulMonad.mk' _
  (fun x => by
    funext s
    change Async.bind x Async.pure s = x s
    unfold Async.bind
    rcases x s with ⟨_ | _ | _, t⟩ <;> rfl)
  (fun _ _ => rfl) fun x f g => bind_assoc' x f g

def fail (e : ε) : Async σ ε α := fun s => (.error e, s)

/-- Waits for something that has not happened by the time of the observation. -/
def stall : Async σ ε α := fun s => (.pending, s)

/-- `try x catch e => h e` -/
def handle (x : Async σ ε α) (h : ε → Async σ ε α) : Async σ ε α := fun s =>
  match x s with
  | (.ok a, s') => (.ok a, s')
  | (.error e, s') => h e s'
  | (.pending, s') => (.pending, s')

instance : MonadExceptOf ε (Async σ ε) where
  throw := fail
  tryCatch := handle

instance : MonadStateOf σ (Async σ ε) where
  get := fun s => (.ok s, s)
  set s := fun _ => (.ok (), s)
  modifyGet f := fun s => (.ok (f s).1, (f s).2)

/-- `try x finally y`: an error of `y` replaces the outcome of `x`. -/
def ensure (x : Async σ ε α) (y : Async σ ε Unit) : Async σ ε α := fun s =>
  match x s with
  | (.ok a, s') => Async.bind y (fun _ => Async.pure a) s'
  | (.error e, s') => Async.bind y (fun _ => fail e) s'
  | (.pending, s') => (.pending, s')

/-- `x.catch(() => undefined)` -/
def ignoreErrors (x : Async σ ε Unit) : Async σ ε Unit := handle x fun _ => pure ()

/-- The outcome of `x`, for a caller that goes on by its own state. -/
def attempt (x : Async σ ε α) : Async σ ε (Except ε α) :=
  handle (x >>= fun a => pure (.ok a)) fun e => pure (.error e)

/-- A computation that cannot wait and does not touch the state. -/
def lift : Except ε α → Async σ ε α
  | .ok a => pure a
  | .error e => fail e

/-- What is claimed of a program: on success, on an error, while it waits. -/
structure Post (σ ε α : Type) where
  ok : α → σ → Prop
  error : ε → σ → Prop
  pending : σ → Prop

def Post.holds (Q : Post σ ε α) : Outcome ε α × σ → Prop
  | (.ok a, s) => Q.ok a s
  | (.error e, s) => Q.error e s
  | (.pending, s) => Q.pending s

/-- Running `x` from `s` meets `Q`. -/
def wp (x : Async σ ε α) (Q : Post σ ε α) (s : σ) : Prop := Q.holds (x s)

variable {x : Async σ ε α} {f : α → Async σ ε β} {s : σ}

theorem wp_eq_of_run {o : Outcome ε α} {s' : σ} {Q : Post σ ε α} (h : wp x Q s)
    (hr : x s = (o, s')) : Q.holds (o, s') := by
  unfold wp at h
  rwa [hr] at h

theorem wp_mono {Q Q' : Post σ ε α} (h : wp x Q s)
    (hok : ∀ a s', Q.ok a s' → Q'.ok a s') (herr : ∀ e s', Q.error e s' → Q'.error e s')
    (hpend : ∀ s', Q.pending s' → Q'.pending s') : wp x Q' s := by
  unfold wp at h ⊢
  rcases hx : x s with ⟨_ | _ | _, s'⟩ <;> rw [hx] at h
  · exact hok _ _ h
  · exact herr _ _ h
  · exact hpend _ h

theorem wp_and {Q Q' : Post σ ε α} (h : wp x Q s) (h' : wp x Q' s) :
    wp x ⟨fun a t => Q.ok a t ∧ Q'.ok a t, fun e t => Q.error e t ∧ Q'.error e t,
      fun t => Q.pending t ∧ Q'.pending t⟩ s := by
  unfold wp at h h' ⊢
  rcases hx : x s with ⟨_ | _ | _, s'⟩ <;> rw [hx] at h h' <;> exact ⟨h, h'⟩

theorem wp_trivial : wp x ⟨fun _ _ => True, fun _ _ => True, fun _ => True⟩ s := by
  unfold wp
  rcases x s with ⟨_ | _ | _, s'⟩ <;> trivial

@[simp] theorem wp_pure {a : α} {Q : Post σ ε α} : wp (pure a) Q s ↔ Q.ok a s := Iff.rfl

@[simp] theorem wp_bind {Q : Post σ ε β} :
    wp (x >>= f) Q s ↔ wp x ⟨fun a => wp (f a) Q, Q.error, Q.pending⟩ s := by
  change Q.holds (Async.bind x f s) ↔ Post.holds _ (x s)
  unfold Async.bind
  rcases x s with ⟨_ | _ | _, s'⟩ <;> exact Iff.rfl

@[simp] theorem wp_fail {e : ε} {Q : Post σ ε α} : wp (fail e) Q s ↔ Q.error e s := Iff.rfl

@[simp] theorem wp_throw {e : ε} {Q : Post σ ε α} : wp (throw e) Q s ↔ Q.error e s := Iff.rfl

@[simp] theorem wp_stall {Q : Post σ ε α} : wp stall Q s ↔ Q.pending s := Iff.rfl

@[simp] theorem wp_get {Q : Post σ ε σ} : wp get Q s ↔ Q.ok s s := Iff.rfl

@[simp] theorem wp_set {s' : σ} {Q : Post σ ε PUnit} : wp (set s') Q s ↔ Q.ok ⟨⟩ s' := Iff.rfl

@[simp] theorem wp_modify {g : σ → σ} {Q : Post σ ε PUnit} :
    wp (modify g) Q s ↔ Q.ok ⟨⟩ (g s) := Iff.rfl

@[simp] theorem wp_handle {h : ε → Async σ ε α} {Q : Post σ ε α} :
    wp (handle x h) Q s ↔ wp x ⟨Q.ok, fun e => wp (h e) Q, Q.pending⟩ s := by
  unfold wp handle
  rcases x s with ⟨_ | _ | _, s'⟩ <;> exact Iff.rfl

@[simp] theorem wp_tryCatch {h : ε → Async σ ε α} {Q : Post σ ε α} :
    wp (tryCatch x h) Q s ↔ wp x ⟨Q.ok, fun e => wp (h e) Q, Q.pending⟩ s := wp_handle

@[simp] theorem wp_ensure {y : Async σ ε Unit} {Q : Post σ ε α} :
    wp (ensure x y) Q s ↔
      wp x ⟨fun a => wp y ⟨fun _ => Q.ok a, Q.error, Q.pending⟩,
        fun e => wp y ⟨fun _ => Q.error e, Q.error, Q.pending⟩, Q.pending⟩ s := by
  unfold wp ensure
  rcases x s with ⟨_ | _ | _, s'⟩
  · exact wp_bind (x := y) (f := fun _ => Async.pure _)
  · exact wp_bind (x := y) (f := fun _ => fail _)
  · exact Iff.rfl

@[simp] theorem wp_ignoreErrors {y : Async σ ε Unit} {Q : Post σ ε Unit} :
    wp (ignoreErrors y) Q s ↔ wp y ⟨fun _ => Q.ok (), fun _ => Q.ok (), Q.pending⟩ s :=
  wp_handle

@[simp] theorem wp_attempt {Q : Post σ ε (Except ε α)} :
    wp (attempt x) Q s ↔ wp x ⟨fun a => Q.ok (.ok a), fun e => Q.ok (.error e), Q.pending⟩ s := by
  unfold attempt
  rw [wp_handle, wp_bind]
  exact Iff.rfl

theorem wp_lift {r : Except ε α} {Q : Post σ ε α} (hok : ∀ a, r = .ok a → Q.ok a s)
    (herr : ∀ e, r = .error e → Q.error e s) : wp (lift r) Q s := by
  cases r with
  | ok a => exact hok a rfl
  | error e => exact herr e rfl

/-- From `P`, a return of `x` leaves `Q`, an error `E`, and a wait `R`. -/
def Triple (R P : σ → Prop) (x : Async σ ε α) (Q E : σ → Prop) : Prop :=
  ∀ s, P s → wp x ⟨fun _ => Q, fun _ => E, R⟩ s

namespace Triple

variable {R P Q E S : σ → Prop}

theorem pure (a : α) : Triple R P (Pure.pure a : Async σ ε α) P E := fun _ h => h

theorem throw (e : ε) : Triple R P (MonadExcept.throw e : Async σ ε α) Q P := fun _ h => h

theorem stall (h : ∀ s, P s → R s) : Triple R P (Async.stall : Async σ ε α) Q E :=
  fun s hs => h s hs

theorem update {g : σ → σ} (hg : ∀ s, P s → Q (g s)) :
    Triple R P (modify g : Async σ ε PUnit) Q E := fun s hs => hg s hs

theorem lift (r : Except ε α) : Triple R P (Async.lift r : Async σ ε α) P P := fun _ h =>
  wp_lift (fun _ _ => h) fun _ _ => h

theorem mono {P' Q' E' : σ → Prop} (hx : Triple R P x Q E) (hP : ∀ s, P' s → P s)
    (hQ : ∀ s, Q s → Q' s) (hE : ∀ s, E s → E' s) : Triple R P' x Q' E' := fun s hs =>
  wp_mono (hx s (hP s hs)) (fun _ s' h => hQ s' h) (fun _ s' h => hE s' h) fun _ h => h

theorem post {Q' : σ → Prop} (hx : Triple R P x Q E) (hQ : ∀ s, Q s → Q' s) :
    Triple R P x Q' E := hx.mono (fun _ h => h) hQ fun _ h => h

theorem error {E' : σ → Prop} (hx : Triple R P x Q E) (hE : ∀ s, E s → E' s) :
    Triple R P x Q E' := hx.mono (fun _ h => h) (fun _ h => h) hE

theorem of_settled (hx : Triple R P x Q Q) (hs : P s) (h : (x s).1.settled = true) : Q (x s).2 := by
  have hq := hx s hs
  unfold wp at hq
  rcases hr : x s with ⟨_ | _ | _, t⟩ <;> rw [hr] at hq h
  · exact hq
  · exact hq
  · exact absurd h (by simp [Outcome.settled])

theorem of_pending (hx : Triple R P x Q E) (hs : P s) (h : (x s).1.settled = false) : R (x s).2 := by
  have hq := hx s hs
  unfold wp at hq
  rcases hr : x s with ⟨_ | _ | _, t⟩ <;> rw [hr] at hq h
  · exact absurd h (by simp [Outcome.settled])
  · exact absurd h (by simp [Outcome.settled])
  · exact hq

theorem bind (hx : Triple R P x Q E) (hf : ∀ a, Triple R Q (f a) S E) :
    Triple R P (x >>= f) S E := by
  intro s hs
  rw [wp_bind]
  exact wp_mono (hx s hs) (fun a s' h => hf a s' h) (fun _ _ h => h) fun _ h => h

theorem handle {h : ε → Async σ ε α} (hx : Triple R P x Q S)
    (hh : ∀ e, Triple R S (h e) Q E) : Triple R P (Async.handle x h) Q E := by
  intro s hs
  rw [wp_handle]
  exact wp_mono (hx s hs) (fun _ _ h => h) (fun e s' h' => hh e s' h') fun _ h => h

theorem ensure {y : Async σ ε Unit} {E' : σ → Prop} (hx : Triple R P x Q E)
    (hok : Triple R Q y S E') (herr : Triple R E y E' E') :
    Triple R P (Async.ensure x y) S E' := by
  intro s hs
  rw [wp_ensure]
  exact wp_mono (hx s hs) (fun _ s' h => hok s' h) (fun _ s' h => herr s' h) fun _ h => h

theorem attempt (hx : Triple R P x Q Q) : Triple R P (Async.attempt x) Q E := by
  intro s hs
  rw [wp_attempt]
  exact wp_mono (hx s hs) (fun _ _ h => h) (fun _ _ h => h) fun _ h => h

end Triple

/-- A reflexive and transitive account of what happens to the state. -/
class Frame (r : σ → σ → Prop) : Prop where
  refl : ∀ s, r s s
  trans : ∀ {s t u}, r s t → r t u → r s u

/-- Whatever `x` does to the state, and however far it gets, `r` accounts for it. -/
def Along (r : σ → σ → Prop) (x : Async σ ε α) : Prop := ∀ s, r s (x s).2

namespace Along

variable {r : σ → σ → Prop} [Frame r]

theorem pure (a : α) : Along r (Pure.pure a : Async σ ε α) := fun s => Frame.refl s

theorem throw (e : ε) : Along r (MonadExcept.throw e : Async σ ε α) := fun s => Frame.refl s

theorem stall : Along r (Async.stall : Async σ ε α) := fun s => Frame.refl s

theorem get : Along r (MonadState.get : Async σ ε σ) := fun s => Frame.refl s

omit [Frame r] in
theorem update {g : σ → σ} (hg : ∀ s, r s (g s)) : Along r (modify g : Async σ ε PUnit) := hg

theorem lift (x : Except ε α) : Along r (Async.lift x : Async σ ε α) := by
  intro s
  cases x <;> exact Frame.refl s

theorem bind (hx : Along r x) (hf : ∀ a, Along r (f a)) : Along r (x >>= f) := by
  intro s
  change r s (Async.bind x f s).2
  unfold Async.bind
  have h := hx s
  rcases hr : x s with ⟨a | _ | _, t⟩ <;> rw [hr] at h
  · exact Frame.trans h (hf a t)
  · exact h
  · exact h

theorem handle {h : ε → Async σ ε α} (hx : Along r x) (hh : ∀ e, Along r (h e)) :
    Along r (Async.handle x h) := by
  intro s
  unfold Async.handle
  have hs := hx s
  rcases hr : x s with ⟨_ | e | _, t⟩ <;> rw [hr] at hs
  · exact hs
  · exact Frame.trans hs (hh e t)
  · exact hs

theorem ensure {y : Async σ ε Unit} (hx : Along r x) (hy : Along r y) :
    Along r (Async.ensure x y) := by
  intro s
  unfold Async.ensure
  have hs := hx s
  rcases hr : x s with ⟨a | e | _, t⟩ <;> rw [hr] at hs
  · exact Frame.trans hs (hy.bind (fun _ => pure a) t)
  · exact Frame.trans hs (hy.bind (fun _ => throw e) t)
  · exact hs

theorem attempt (hx : Along r x) : Along r (Async.attempt x) :=
  (hx.bind fun _ => pure _).handle fun _ => pure _

omit [Frame r] in
theorem with_wp {Q : Post σ ε α} (hx : Along r x) (h : wp x Q s) :
    wp x ⟨fun a t => r s t ∧ Q.ok a t, fun e t => r s t ∧ Q.error e t,
      fun t => r s t ∧ Q.pending t⟩ s := by
  have hg : wp x ⟨fun _ t => r s t, fun _ t => r s t, fun t => r s t⟩ s := by
    have hs := hx s
    unfold wp
    rcases hr : x s with ⟨_ | _ | _, t⟩ <;> rw [hr] at hs <;> exact hs
  exact wp_and hg h

end Along

end Async
end FastFirebird
