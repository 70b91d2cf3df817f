import FastFirebird.Wire

/-! When the reader and the server agree: what is still to arrive is a run of
successful deferred responses, and then exactly what the caller will read. -/
namespace FastFirebird

/-- `readOp` gets through these packets as `d` deferred responses (and whatever
is volunteered), without an error and without returning. -/
def drainable : Nat → List Packet → Bool
  | d, [] => d == 0
  | d, p :: ps =>
    match p.body with
    | .volunteer _ => drainable d ps
    | .response (.ok _) => 0 < d && drainable (d - 1) ps
    | _ => false

theorem drainable_append {d : Nat} {pre l : List Packet} (h : drainable d pre = true) (e : Nat) :
    drainable (d + e) (pre ++ l) = drainable e l := by
  induction pre generalizing d with
  | nil =>
    have hd : d = 0 := by simpa [drainable] using h
    simp [hd]
  | cons p ps ih =>
    simp only [drainable, List.cons_append] at h ⊢
    split at h
    · exact ih h
    · simp only [Bool.and_eq_true, decide_eq_true_eq] at h
      have he : d + e - 1 = d - 1 + e := by omega
      rw [he, ih h.2]
      simp only [show 0 < d + e by omega, decide_true, Bool.true_and]
    · exact absurd h (by simp)

theorem drainable_zero_append {d : Nat} {pre l : List Packet} (h : drainable d pre = true) :
    drainable d (pre ++ l) = drainable 0 l := drainable_append h 0

/-- Neither volunteered nor a successful response: nothing `readOp` skips. -/
def Packet.blocks (p : Packet) : Prop :=
  (∀ v, p.body ≠ .volunteer v) ∧ ∀ r, p.body ≠ .response (.ok r)

theorem not_drainable_of_blocks {p : Packet} {ps : List Packet} (hp : p ∈ ps) (hb : p.blocks)
    (d : Nat) : drainable d ps = false := by
  induction ps generalizing d with
  | nil => cases hp
  | cons q qs ih =>
    rcases List.mem_cons.mp hp with rfl | hq
    · simp only [drainable]
      split
      · exact absurd ‹_› (hb.1 _)
      · exact absurd ‹_› (hb.2 _)
      · rfl
    · simp only [drainable]
      split <;> simp [ih hq]

/-- Against the history before it: a drained response belongs to a request that has been
marked deferred, and a response a caller gets was asked for in the caller's own turn. -/
def Event.inOrder (log : List Event) : Event → Prop
  | .drained n => .marked n ∈ log
  | .returned _ turn reader => turn = reader
  | _ => True

/-- At every moment of the history. -/
def Fifo : List Event → Prop
  | [] => True
  | e :: log => e.inOrder log ∧ Fifo log

instance decidableMarked (n : Nat) : (log : List Event) → Decidable (.marked n ∈ log)
  | [] => isFalse List.not_mem_nil
  | .marked m :: log =>
    have := decidableMarked n log
    decidable_of_iff (m = n ∨ .marked n ∈ log) (by simp [eq_comm])
  | .sent _ _ _ _ _ :: log | .drained _ :: log | .returned _ _ _ :: log | .cleared _ _ _ :: log =>
    have := decidableMarked n log
    decidable_of_iff (.marked n ∈ log) (by simp)

instance (log : List Event) : (e : Event) → Decidable (e.inOrder log)
  | .drained n => inferInstanceAs (Decidable (.marked n ∈ log))
  | .returned _ turn reader => inferInstanceAs (Decidable (turn = reader))
  | .sent _ _ _ _ _ | .marked _ | .cleared _ _ _ => isTrue trivial

instance decidableFifo : (log : List Event) → Decidable (Fifo log)
  | [] => isTrue trivial
  | e :: log =>
    have := decidableFifo log
    inferInstanceAs (Decidable (e.inOrder log ∧ Fifo log))

def Packet.isResponse (p : Packet) : Bool :=
  match p.body with
  | .response _ => true
  | _ => false

/-- After the deferred responses, exactly `l` is still to arrive, all of it
asked for in this turn. -/
def Sync (l : List Packet) (c : Conn) : Prop :=
  ∃ pre, c.inbound ++ c.unflushed = pre ++ l ∧ drainable c.deferredResponses pre = true ∧
    (∀ p ∈ pre, p.isResponse → .marked p.request ∈ c.log) ∧
    (∀ p ∈ l, p.turn = c.turn) ∧ Fifo c.log

theorem Sync.fifo {l : List Packet} {c : Conn} (h : Sync l c) : Fifo c.log := by
  obtain ⟨_, _, _, _, _, hf⟩ := h
  exact hf

/-- The predicate reads the wire, the turn and the log only. -/
theorem Sync.congr {l : List Packet} {c c' : Conn} (h : Sync l c)
    (hq : c'.inbound ++ c'.unflushed = c.inbound ++ c.unflushed)
    (hd : c'.deferredResponses = c.deferredResponses) (ht : c'.turn = c.turn)
    (hl : c'.log = c.log) : Sync l c' := by
  obtain ⟨pre, hs, hdr, hm, ho, hf⟩ := h
  exact ⟨pre, hq.trans hs, hd ▸ hdr, hl ▸ hm, ht ▸ ho, hl ▸ hf⟩

theorem sync_drainable {l : List Packet} {c : Conn} (h : Sync l c) :
    drainable c.deferredResponses (c.inbound ++ c.unflushed) = drainable 0 l := by
  obtain ⟨pre, hs, hd, _⟩ := h
  rw [hs, drainable_zero_append hd]

namespace Conn

variable (link : Link)

@[simp] theorem flush_queue (c : Conn) :
    c.flush.inbound ++ c.flush.unflushed = c.inbound ++ c.unflushed := by
  unfold flush
  split
  · rfl
  · simp

@[simp] theorem flush_log (c : Conn) : c.flush.log = c.log := by
  unfold flush; split <;> rfl

@[simp] theorem flush_deferredResponses (c : Conn) :
    c.flush.deferredResponses = c.deferredResponses := by
  unfold flush; split <;> rfl

@[simp] theorem flush_turn (c : Conn) : c.flush.turn = c.turn := by
  unfold flush; split <;> rfl

@[simp] theorem flush_requests (c : Conn) : c.flush.requests = c.requests := by
  unfold flush; split <;> rfl

end Conn

theorem Sync.flush {l : List Packet} {c : Conn} (h : Sync l c) : Sync l c.flush :=
  h.congr (by simp) (by simp) (by simp) (by simp)

theorem Fifo.cons {log : List Event} (h : Fifo log) {e : Event}
    (hd : ∀ n, e = .drained n → .marked n ∈ log)
    (hr : ∀ n turn reader, e = .returned n turn reader → turn = reader) : Fifo (e :: log) := by
  refine ⟨?_, h⟩
  cases e with
  | drained n => exact hd n rfl
  | returned n turn reader => exact hr n turn reader rfl
  | _ => trivial

theorem packets_turn {link : Link} {req : Request} {n turn : Nat} {p : Packet}
    (hp : p ∈ link.server.packets req n turn) : p.turn = turn := by
  obtain ⟨body, _, rfl⟩ := List.mem_map.mp hp
  rfl

variable {link : Link}

theorem Sync.send {l : List Packet} {c : Conn} (h : Sync l c) (d : Bool) (req : Request) :
    Sync (l ++ link.server.packets req c.requests c.turn) (c.send link d req) := by
  obtain ⟨pre, hs, hd, hm, ho, hf⟩ := h
  refine ⟨pre, ?_, hd, ?_, ?_, ?_⟩
  · simp only [Conn.send, ← List.append_assoc, hs]
  · intro p hp hr
    exact List.mem_cons_of_mem _ (hm p hp hr)
  · intro p hp
    rcases List.mem_append.mp hp with hp | hp
    · exact ho p hp
    · exact packets_turn hp
  · exact hf.cons (by simp) (by simp)

/-- Giving up on successful responses: they join the deferred ones. -/
theorem Sync.markDeferred {l l' : List Packet} {c : Conn} (h : Sync (l ++ l') c) {n : Nat}
    (hl : drainable 1 l = true) (hn : ∀ p ∈ l, p.request = n) :
    Sync l' (c.markDeferred n) := by
  obtain ⟨pre, hs, hd, hm, ho, hf⟩ := h
  refine ⟨pre ++ l, ?_, ?_, ?_, fun p hp => ho p (List.mem_append_right _ hp), ?_⟩
  · simp only [Conn.markDeferred, hs, List.append_assoc]
  · simp only [Conn.markDeferred]
    rw [drainable_append hd]
    exact hl
  · intro p hp hr
    rcases List.mem_append.mp hp with hp | hp
    · exact List.mem_cons_of_mem _ (hm p hp hr)
    · rw [hn p hp]
      exact List.mem_cons_self
  · exact hf.cons (by simp) (by simp)

end FastFirebird
