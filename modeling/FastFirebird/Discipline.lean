import FastFirebird.FetchSync
import FastFirebird.Blob

/-! One account of how many plain responses are outstanding, kept by every blob
transfer, however the requests fail. It is stated for an abstract invariant `J`, so
that a transfer is followed once: `J k` says that `k` responses are outstanding. -/
namespace FastFirebird

variable {link : Link}

/-- Requests that move blobs about; the client copes with any answer to them. -/
def Request.isBlobOp : Request → Bool
  | .openBlob _ _ | .getSegment _ _ | .closeBlob _ | .createBlob _ | .batchSegments _ _
  | .infoBlob _ => true
  | _ => false

/-- What the wire does to the account. `R` is all that is claimed of a call that is
still waiting, `D` picks out the requests that may be left to the drain. -/
structure Discipline (link : Link) (D : Request → Prop) (J : Nat → Conn → Prop) (R : Conn → Prop) :
    Prop where
  send : ∀ k c req, req.isBlobOp = true → J k c → J (k + 1) (c.send link false req)
  flush : ∀ k c, J k c → J k c.flush
  await : ∀ k c, J k c → J k (c.await link)
  inline : ∀ k c inline, J k c → J k { c with inline := inline }
  read : ∀ k c, J (k + 1) c →
    Async.wp (readResponse link) ⟨fun _ => J k, fun _ => J k, R⟩ c
  waiting : ∀ k c, J k c → R c
  closeBlob : ∀ blob, D (.closeBlob blob)

def Conn.sendAllDeferred (link : Link) (reqs : List Request) (c : Conn) : Conn :=
  reqs.foldl (fun c req => c.sendDeferred link req) c

/-- Nothing is outstanding but the responses to `reqs`, which are all deferred. -/
def Left (link : Link) (D : Request → Prop) (J : Nat → Conn → Prop) (c : Conn) : Prop :=
  ∃ c₀ reqs, J 0 c₀ ∧ (∀ req ∈ reqs, D req) ∧ c = c₀.sendAllDeferred link reqs

variable {D : Request → Prop} {J : Nat → Conn → Prop} {R : Conn → Prop}

theorem Left.of_settled {c : Conn} (h : J 0 c) : Left link D J c := ⟨c, [], h, by simp, rfl⟩

theorem Left.deferred {c : Conn} (h : Left link D J c) {req : Request} (hp : D req) :
    Left link D J (c.sendDeferred link req) := by
  obtain ⟨c₀, reqs, h₀, hr, rfl⟩ := h
  refine ⟨c₀, reqs ++ [req], h₀, ?_, by simp [Conn.sendAllDeferred]⟩
  intro q hq
  rcases List.mem_append.mp hq with hq | hq
  · exact hr q hq
  · rw [List.mem_singleton.mp hq]
    exact hp

namespace Discipline

variable (hJ : Discipline link D J R)

include hJ

theorem closeBlobDeferred_triple {blob : Nat} {E : Conn → Prop} :
    Async.Triple R (Left link D J) (closeBlobDeferred link blob) (Left link D J) E :=
  .update fun _ h => h.deferred (hJ.closeBlob blob)

theorem send_triple {k : Nat} {req : Request} (hr : req.isBlobOp = true) {E : Conn → Prop} :
    Async.Triple R (J k) (FastFirebird.send link req) (J (k + 1)) E :=
  fun c h => hJ.send k c req hr h

theorem flush_triple {k : Nat} {E : Conn → Prop} :
    Async.Triple R (J k) FastFirebird.flush (J k) E := fun c h => hJ.flush k c h

theorem await_triple {k : Nat} {E : Conn → Prop} :
    Async.Triple R (J k) (modify (Conn.await link) : M PUnit) (J k) E := .update fun c h => hJ.await k c h

theorem readResponse_triple {k : Nat} :
    Async.Triple R (J (k + 1)) (readResponse link) (J k) (J k) := fun c h => hJ.read k c h

theorem readSegmentResponse_triple {k : Nat} :
    Async.Triple R (J (k + 1)) (readSegmentResponse link) (J k) (J k) :=
  hJ.readResponse_triple.bind fun _ => .pure _

theorem roundTrip_triple {req : Request} (hr : req.isBlobOp = true) :
    Async.Triple R (J 0) (roundTrip link req) (J 0) (J 0) :=
  (hJ.send_triple hr).bind fun _ => hJ.flush_triple.bind fun _ => hJ.readResponse_triple

theorem sendTimes_triple {req : Request} (hr : req.isBlobOp = true) {E : Conn → Prop} (n k : Nat) :
    Async.Triple R (J k) (sendTimes link req n) (J (k + n)) E := by
  induction n generalizing k with
  | zero => exact .pure ()
  | succ n ih =>
    refine (hJ.send_triple hr).bind fun _ => ?_
    have hn := ih (k + 1)
    rwa [show k + 1 + n = k + (n + 1) by omega] at hn

/-- Draining as many responses as are outstanding settles the account. -/
theorem drainResponses_triple {E : Conn → Prop} (n : Nat) :
    Async.Triple R (J n) (drainResponses link n) (J 0) E := by
  induction n with
  | zero => exact .pure ()
  | succ n ih => exact hJ.readResponse_triple.attempt.bind fun _ => ih

theorem openBlob_triple (tx : Nat) (id : Bytes) :
    Async.Triple R (J 0) (openBlob link tx id) (J 0) (J 0) :=
  (hJ.roundTrip_triple rfl).bind fun _ => .pure _

theorem getBlobSegment_triple (blob chunkSize : Nat) :
    Async.Triple R (J 0) (getBlobSegment link blob chunkSize) (J 0) (J 0) :=
  (hJ.send_triple rfl).bind fun _ => hJ.flush_triple.bind fun _ => hJ.readSegmentResponse_triple

end Discipline

end FastFirebird
