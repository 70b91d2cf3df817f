import Mathlib.Logic.Basic

/-! Programs of one party of a channel on which requests are answered in their order, and the
account of the answers they are owed. -/
namespace FastFirebird

/-- Requests go into a buffer until it is flushed; a read takes the next answer, whatever it is.
The answer to a deferred request is left to others. -/
inductive Talk (Req Rep ε α : Type) where
  | done (a : α)
  | fail (e : ε)
  | write (req : Req) (next : Talk Req Rep ε α)
  | defer (req : Req) (next : Talk Req Rep ε α)
  | flush (next : Talk Req Rep ε α)
  | pause (next : Talk Req Rep ε α)
  | read (next : Rep → Talk Req Rep ε α)

/-- What has been sent, how many answers are owed, and how many of them to requests that have been
flushed. Nothing more is said on a channel once a request on it is deferred. -/
structure Account (Req : Type) where
  sent : List Req := []
  owed : Nat := 0
  flushed : Nat := 0
  deferred : Bool := false

namespace Talk

variable {Req Rep ε α β : Type}

protected def bind (t : Talk Req Rep ε α) (f : α → Talk Req Rep ε β) : Talk Req Rep ε β :=
  match t with
  | done a => f a
  | fail e => fail e
  | write req next => write req (next.bind f)
  | defer req next => defer req (next.bind f)
  | flush next => flush (next.bind f)
  | pause next => pause (next.bind f)
  | read next => read fun rep => (next rep).bind f

instance : Monad (Talk Req Rep ε) where
  pure := done
  bind := Talk.bind

/-- Whatever the answers are: only what is allowed is sent, at most `bound` answers are owed, an
answer is read only if it is owed and its request has been flushed, and a request is deferred when
nothing is owed. -/
def Holds (allowed : Req → Prop) (bound : Nat) (Q : α → Account Req → Prop)
    (E : ε → Account Req → Prop) : Talk Req Rep ε α → Account Req → Prop
  | done a, s => Q a s
  | fail e, s => E e s
  | write req next, s => allowed req ∧ s.deferred = false ∧ s.owed < bound ∧
      next.Holds allowed bound Q E { s with sent := s.sent ++ [req], owed := s.owed + 1 }
  | defer req next, s => allowed req ∧ s.deferred = false ∧ s.owed = 0 ∧
      next.Holds allowed bound Q E { s with sent := s.sent ++ [req], deferred := true }
  | flush next, s => s.deferred = false ∧ next.Holds allowed bound Q E { s with flushed := s.owed }
  | pause next, s => s.deferred = false ∧ next.Holds allowed bound Q E s
  | read next, s => s.deferred = false ∧ 0 < s.flushed ∧ ∀ rep,
      (next rep).Holds allowed bound Q E { s with owed := s.owed - 1, flushed := s.flushed - 1 }

variable {allowed : Req → Prop} {bound : Nat} {Q : β → Account Req → Prop}
  {E : ε → Account Req → Prop}

theorem holds_bind {t : Talk Req Rep ε α} {f : α → Talk Req Rep ε β} {s : Account Req} :
    (t >>= f).Holds allowed bound Q E s ↔
      t.Holds allowed bound (fun a => (f a).Holds allowed bound Q E) E s := by
  change (t.bind f).Holds allowed bound Q E s ↔ _
  induction t generalizing s with
  | done a => exact Iff.rfl
  | fail e => exact Iff.rfl
  | write req next ih =>
    apply and_congr_right'
    apply and_congr_right'
    exact and_congr_right' ih
  | defer req next ih =>
    apply and_congr_right'
    apply and_congr_right'
    exact and_congr_right' ih
  | flush next ih => exact and_congr_right' ih
  | pause next ih => exact and_congr_right' ih
  | read next ih =>
    apply and_congr_right'
    apply and_congr_right'
    exact forall_congr' fun rep => ih rep

theorem Holds.mono {P : α → Account Req → Prop} {P' : α → Account Req → Prop}
    {E' : ε → Account Req → Prop} {t : Talk Req Rep ε α} {s : Account Req}
    (h : t.Holds allowed bound P E s) (hP : ∀ a s', P a s' → P' a s')
    (hE : ∀ e s', E e s' → E' e s') : t.Holds allowed bound P' E' s := by
  induction t generalizing s with
  | done a => exact hP a s h
  | fail e => exact hE e s h
  | write req next ih =>
    obtain ⟨hreq, hopen, hbound, hnext⟩ := h
    exact ⟨hreq, hopen, hbound, ih hnext⟩
  | defer req next ih =>
    obtain ⟨hreq, hopen, howed, hnext⟩ := h
    exact ⟨hreq, hopen, howed, ih hnext⟩
  | flush next ih => exact ⟨h.1, ih h.2⟩
  | pause next ih => exact ⟨h.1, ih h.2⟩
  | read next ih => exact ⟨h.1, h.2.1, fun rep => ih rep (h.2.2 rep)⟩

end Talk

end FastFirebird
