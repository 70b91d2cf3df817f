import FastFirebird.WireSync

/-! What one read does to a wire that is in step, for any notion `K` of a
history under which waiting is harmless. -/
namespace FastFirebird

variable {link : Link}

namespace Conn

theorem freeStatement_extends (stmt : StmtHandle) (action : FreeStatement) (c : Conn) :
    c.log <:+ (c.freeStatement link stmt action).log := by
  simp only [freeStatement, sendDeferred, markDeferred, send]
  exact (List.suffix_cons _ _).trans (List.suffix_cons _ _)

theorem freeAll_extends (infos : List PreparedStatementInfo) (c : Conn) :
    c.log <:+ (c.freeAll link infos).log := by
  unfold freeAll
  induction infos generalizing c with
  | nil => exact List.suffix_refl _
  | cons info infos ih =>
    exact (freeStatement_extends info.handle .drop c).trans (ih _)

theorem clearCache_extends (c : Conn) : c.log <:+ (c.clearCache link).log := by
  unfold clearCache
  split
  · exact List.suffix_refl _
  · exact freeAll_extends _ c

theorem clearInUse_extends (c : Conn) : c.log <:+ (c.clearInUse link).log :=
  (List.suffix_cons _ _).trans (clearCache_extends c.noteClear)

theorem await_extends (c : Conn) : c.log <:+ (c.await link).log := by
  unfold await
  split
  · exact clearInUse_extends c.tick
  · exact List.suffix_refl _

theorem freeStatement_inbound (stmt : StmtHandle) (action : FreeStatement) (c : Conn) :
    (c.freeStatement link stmt action).inbound = c.inbound := rfl

theorem freeAll_inbound (infos : List PreparedStatementInfo) (c : Conn) :
    (c.freeAll link infos).inbound = c.inbound := by
  unfold freeAll
  induction infos generalizing c with
  | nil => rfl
  | cons info infos ih => exact (ih _).trans rfl

theorem clearCache_inbound (c : Conn) : (c.clearCache link).inbound = c.inbound := by
  unfold clearCache
  split
  · rfl
  · exact freeAll_inbound _ c

theorem await_inbound (c : Conn) : (c.await link).inbound = c.inbound := by
  unfold await
  split
  · exact clearCache_inbound c.tick.noteClear
  · rfl

end Conn

/-- The history only grows. -/
def Extends (c c' : Conn) : Prop := c.log <:+ c'.log

instance : Async.Frame Extends where
  refl _ := List.suffix_refl _
  trans h h' := List.IsSuffix.trans h h'

/-- A program that meets `Q` meets it with the history extended. -/
theorem with_history {α : Type} {x : M α} {Q : Async.Post Conn FirebirdError α} {c : Conn}
    (hx : Async.Along Extends x) (h : Async.wp x Q c) :
    Async.wp x ⟨fun a c' => c.log <:+ c'.log ∧ Q.ok a c', fun e c' => c.log <:+ c'.log ∧ Q.error e c',
      fun c' => c.log <:+ c'.log ∧ Q.pending c'⟩ c := hx.with_wp h

/-- An account of the connection that takes in whatever reading does to it. -/
class Reads (link : Link) (r : Conn → Conn → Prop) : Prop extends Async.Frame r where
  await : ∀ c, r c (c.await link)
  inbound : ∀ c ps, r c { c with inbound := ps }
  inline : ∀ c inline, r c { c with inline := inline }
  drained : ∀ c p, r c (c.drainOne p)
  handedOver : ∀ c p, r c (c.handOver p)

instance : Reads link Extends where
  await c := Conn.await_extends c
  inbound _ _ := List.suffix_refl _
  inline _ _ := List.suffix_refl _
  drained _ _ := List.suffix_cons _ _
  handedOver _ _ := List.suffix_cons _ _

section Along

variable {r : Conn → Conn → Prop} [hr : Reads link r]

include hr

theorem along_receive (p : Packet) (ps : List Packet) (c : Conn) : r c (c.receive link p ps) :=
  hr.trans (hr.inbound c (p :: ps)) (hr.trans (hr.await _) (hr.inbound _ ps))

theorem along_readOpFrom_cons (p : Packet) (ps : List Packet) (c : Conn)
    (ih : ∀ c, r c (readOpFrom link ps c).2) :
    r (c.receive link p ps) (readOpFrom link (p :: ps) c).2 := by
  have hd := hr.drained (c.receive link p ps) p
  have hh := hr.handedOver (c.receive link p ps) p
  have hb : r (c.receive link p ps) ((c.receive link p ps).putBack p) := hr.inbound _ _
  simp only [readOpFrom]
  split
  · exact ih _
  · exact hr.trans (hr.inline _ _) (ih _)
  · split
    · split
      · exact hr.trans hd (ih _)
      · exact hd
    · exact hh
  · exact hb
  · exact hb
  · exact hh
  · exact hh
  · exact hh

theorem along_readOpFrom (ps : List Packet) (c : Conn) : r c (readOpFrom link ps c).2 := by
  induction ps generalizing c with
  | nil => exact hr.trans (hr.inbound c []) (hr.await _)
  | cons p ps ih => exact hr.trans (along_receive p ps c) (along_readOpFrom_cons p ps c ih)

theorem along_readOp : Async.Along r (readOp link) := fun c => along_readOpFrom c.inbound c

theorem along_await : Async.Along r (modify (Conn.await link) : M PUnit) := .update hr.await

theorem along_unexpectedOp {α : Type} (p : Packet) : Async.Along r (unexpectedOp p : M α) :=
  (Async.Along.update fun c => hr.inbound c _).bind fun _ => .throw _

theorem along_parseResponseBody (reply : Reply) : Async.Along r (parseResponseBody link reply) :=
  along_await.bind fun _ => .lift reply

theorem along_readResponse : Async.Along r (readResponse link) := by
  refine along_readOp.bind fun p => ?_
  split
  · exact along_parseResponseBody _
  · exact @along_unexpectedOp link r hr _ p

end Along

/-- Exactly `l` is still to arrive, and nothing is deferred: the reader is in the
middle of an answer. -/
def Front (l : List Packet) (c : Conn) : Prop :=
  c.inbound ++ c.unflushed = l ∧ c.deferredResponses = 0 ∧ (∀ p ∈ l, p.turn = c.turn) ∧
    Fifo c.log

theorem Front.sync {l : List Packet} {c : Conn} (h : Front l c) : Sync l c :=
  ⟨[], h.1, by simp [drainable, h.2.1], by simp, h.2.2.1, h.2.2.2⟩

/-- Nothing is left to read, or something `readOp` returns. -/
def Readable (l : List Packet) : Prop := l = [] ∨ drainable 0 l = false

/-- A predicate on histories that holds of every earlier one, and under which
awaiting keeps the wire in step. -/
structure History (link : Link) (K : List Event → Prop) : Prop where
  earlier : ∀ e log, K (e :: log) → K log
  await : ∀ l c, Sync l c → Readable l → K (c.await link).log → Sync l (c.await link)
  front : ∀ l c, Front l c → drainable 0 l = false → K (c.await link).log → Front l (c.await link)

theorem History.of_suffix {K : List Event → Prop} (hK : History link K) {log log' : List Event}
    (h : log <:+ log') (hk : K log') : K log := by
  obtain ⟨new, rfl⟩ := h
  induction new with
  | nil => exact hk
  | cons e new ih => exact ih (hK.earlier _ _ hk)

def Packet.Volunteered (p : Packet) : Prop := ∃ v, p.body = .volunteer v

/-- An operation code with its body, as the reader returns it. -/
def Packet.IsOp (p : Packet) : Prop :=
  match p.body with
  | .response _ | .sqlResponse _ | .fetchResponse _ _ | .batchCs _ => True
  | _ => False

theorem not_drainable_zero_of_op {vs l : List Packet} {p : Packet}
    (hvs : ∀ v ∈ vs, v.Volunteered) (hp : p.IsOp) : drainable 0 (vs ++ p :: l) = false := by
  induction vs with
  | nil =>
    simp only [List.nil_append, drainable]
    split
    · simp [Packet.IsOp, *] at hp
    · rfl
    · rfl
  | cons v vs ih =>
    obtain ⟨w, hw⟩ := hvs v List.mem_cons_self
    simp only [List.cons_append, drainable, hw]
    exact ih fun v hv => hvs v (List.mem_cons_of_mem _ hv)

/-- What reading the next operation achieves: it returns `p` and leaves `l`. -/
def readPost (K : List Event → Prop) (p : Packet) (l : List Packet) :
    Async.Post Conn FirebirdError Packet where
  ok q c' := K c'.log → q = p ∧ Front l c'
  error _ c' := ¬ K c'.log
  pending c' := K c'.log → Fifo c'.log

/-- The same, with what holds while the operation has not arrived. -/
def waitPost (K : List Event → Prop) (p : Packet) (l : List Packet) :
    Async.Post Conn FirebirdError Packet where
  ok := (readPost K p l).ok
  error := (readPost K p l).error
  pending c' := K c'.log → c'.inbound = [] ∧
    ∃ vs, (∀ v ∈ vs, v.Volunteered) ∧ Sync (vs ++ p :: l) c'

theorem waitPost_of_not {K : List Event → Prop} {p : Packet} {l : List Packet}
    {r : Outcome FirebirdError Packet × Conn} (h : ¬ K r.2.log) : (waitPost K p l).holds r := by
  rcases r with ⟨_ | _ | _, c⟩
  · exact fun hk => absurd hk h
  · exact h
  · exact fun hk => absurd hk h

theorem readOpFrom_not {K : List Event → Prop} (hK : History link K) (ps : List Packet) {c : Conn}
    {p : Packet} {l : List Packet} (h : ¬ K c.log) : (waitPost K p l).holds (readOpFrom link ps c) :=
  waitPost_of_not fun hk => h (hK.of_suffix (along_readOpFrom ps c : Extends _ _) hk)

/-- Taking the head off a queue that is in step. -/
theorem Sync.receive {K : List Event → Prop} (hK : History link K) {l ps : List Packet} {p : Packet}
    {c : Conn} (h : Sync l { c with inbound := p :: ps }) (hl : Readable l)
    (hk : K (c.receive link p ps).log) :
    Sync l { c.receive link p ps with inbound := p :: ps } := by
  have hs := hK.await l _ h hl hk
  have hi : ({ c with inbound := p :: ps }.await link).inbound = p :: ps := Conn.await_inbound _
  exact hs.congr (by simp only [Conn.receive, hi]) rfl rfl rfl

/-- What can be at the head of a queue that is in step: a volunteered packet, a
deferred response, or the packet the caller is owed. -/
theorem sync_cons_cases {vs l ps : List Packet} {p q : Packet} {c : Conn}
    (hvs : ∀ v ∈ vs, v.Volunteered) (h : Sync (vs ++ p :: l) { c with inbound := q :: ps }) :
    (q.Volunteered ∧ ∃ vs', (∀ v ∈ vs', v.Volunteered) ∧
      Sync (vs' ++ p :: l) { c with inbound := ps }) ∨
    ((∃ r, q.body = .response (.ok r)) ∧ 0 < c.deferredResponses ∧
      Sync (vs ++ p :: l) { c.drainOne q with inbound := ps }) ∨
    (q = p ∧ c.deferredResponses = 0 ∧ Front l { c.handOver q with inbound := ps }) := by
  obtain ⟨pre, hs, hd, hm, ho, hf⟩ := h
  simp only [List.cons_append] at hs
  cases pre with
  | nil =>
    cases vs with
    | nil =>
      obtain ⟨rfl, hps⟩ := List.cons.inj hs
      have hd0 : c.deferredResponses = 0 := by simpa [drainable] using hd
      refine Or.inr (Or.inr ⟨rfl, hd0, hps, hd0, fun p' hp' => ?_, ?_⟩)
      · exact ho p' (List.mem_cons_of_mem _ hp')
      · refine hf.cons (by simp) fun n turn reader he => ?_
        obtain ⟨-, rfl, rfl⟩ := Event.returned.inj he
        exact ho q List.mem_cons_self
    | cons v vs =>
      obtain ⟨rfl, hps⟩ := List.cons.inj hs
      exact Or.inl ⟨hvs q List.mem_cons_self, vs, fun v hv => hvs v (List.mem_cons_of_mem _ hv), [],
        hps, hd, hm, fun p' hp' => ho p' (List.mem_cons_of_mem _ hp'), hf⟩
  | cons a pre =>
    obtain ⟨rfl, hps⟩ := List.cons.inj hs
    have hm' : ∀ p' ∈ pre, p'.isResponse → .marked p'.request ∈ c.log :=
      fun p' hp' => hm p' (List.mem_cons_of_mem _ hp')
    simp only [drainable] at hd
    split at hd
    · rename_i v hv
      exact Or.inl ⟨⟨v, hv⟩, vs, hvs, pre, hps, hd, hm', ho, hf⟩
    · rename_i r hr
      simp only [Bool.and_eq_true, decide_eq_true_eq] at hd
      have hq : .marked q.request ∈ c.log :=
        hm q List.mem_cons_self (by simp [Packet.isResponse, hr])
      refine Or.inr (Or.inl ⟨⟨r, hr⟩, hd.1, pre, hps, hd.2, ?_, ho, ?_⟩)
      · exact fun p' hp' hr' => List.mem_cons_of_mem _ (hm' p' hp' hr')
      · refine hf.cons (fun n he => ?_) (by simp)
        obtain rfl := Event.drained.inj he
        exact hq
    · exact absurd hd (by simp)

/-- With a history that keeps `K`, the reader skips the deferred responses and
the volunteered packets, and returns the packet the caller is owed. -/
theorem readOpFrom_waits {K : List Event → Prop} (hK : History link K) (ps : List Packet) (c : Conn)
    (vs l : List Packet) (p : Packet) (hvs : ∀ v ∈ vs, v.Volunteered) (hp : p.IsOp)
    (h : K c.log → Sync (vs ++ p :: l) { c with inbound := ps }) :
    (waitPost K p l).holds (readOpFrom link ps c) := by
  induction ps generalizing c vs with
  | nil =>
    by_cases hk : K c.log
    · intro hk'
      have hs := hK.await _ _ (h hk) (Or.inr (not_drainable_zero_of_op hvs hp)) hk'
      exact ⟨Conn.await_inbound _, vs, hvs, hs⟩
    · exact readOpFrom_not hK [] hk
  | cons q ps ih =>
    by_cases hk : K (c.receive link q ps).log
    · have hs := (h (hK.of_suffix (along_receive q ps c : Extends c _) hk)).receive hK
        (Or.inr (not_drainable_zero_of_op hvs hp)) hk
      simp only [readOpFrom]
      rcases sync_cons_cases hvs hs with ⟨⟨v, hv⟩, vs', hvs', hs'⟩ | ⟨⟨r, hr⟩, hd, hs'⟩ | ⟨rfl, hd, hs'⟩
      · rw [hv]
        cases v with
        | dummy => exact ih _ vs' hvs' fun _ => hs'
        | inlineBlob txId blobId data =>
          exact ih _ vs' hvs' fun _ => hs'.congr rfl rfl rfl rfl
      · simp only [hr, hd, ↓reduceIte]
        exact ih _ vs hvs fun _ => hs'
      · have hret : (waitPost K q l).holds (.ok q, (c.receive link q ps).handOver q) :=
          fun _ => ⟨rfl, hs'⟩
        unfold Packet.IsOp at hp
        split at hp <;> rename_i hb <;> first | exact hp.elim | simpa only [hb, hd, Nat.lt_irrefl, ↓reduceIte] using hret
    · refine waitPost_of_not fun hk' => hk (hK.of_suffix ?_ hk')
      exact (along_readOpFrom_cons q ps c fun c => along_readOpFrom ps c : Extends _ _)

theorem readOp_waits {K : List Event → Prop} (hK : History link K) {c : Conn} {vs l : List Packet}
    {p : Packet} (hvs : ∀ v ∈ vs, v.Volunteered) (hp : p.IsOp) (h : K c.log → Sync (vs ++ p :: l) c) :
    Async.wp (readOp link) (waitPost K p l) c :=
  readOpFrom_waits hK c.inbound c vs l p hvs hp h

theorem readOp_sync {K : List Event → Prop} (hK : History link K) {c : Conn} {vs l : List Packet}
    {p : Packet} (hvs : ∀ v ∈ vs, v.Volunteered) (hp : p.IsOp) (h : K c.log → Sync (vs ++ p :: l) c) :
    Async.wp (readOp link) (readPost K p l) c := by
  refine Async.wp_mono (readOp_waits hK hvs hp h) (fun _ _ h => h) (fun _ _ h => h) ?_
  intro c' h' hk
  obtain ⟨_, _, _, hs⟩ := h' hk
  exact hs.fifo

theorem History.await_sync {K : List Event → Prop} (hK : History link K) {l : List Packet} {c : Conn}
    (hl : Readable l) (h : K c.log → Sync l c) : K (c.await link).log → Sync l (c.await link) :=
  fun hk => hK.await l c (h (hK.of_suffix (Conn.await_extends c) hk)) hl hk

/-- One response: the caller gets the reply that was due, and `l` is left. -/
theorem readResponse_waits {K : List Event → Prop} (hK : History link K) {c : Conn}
    {vs l : List Packet} {n turn : Nat} {r : Reply} (hvs : ∀ v ∈ vs, v.Volunteered)
    (hl : Readable l) (h : K c.log → Sync (vs ++ ⟨n, turn, .response r⟩ :: l) c) :
    Async.wp (readResponse link)
      ⟨fun a c' => K c'.log → r = .ok a ∧ Sync l c', fun e c' => K c'.log → r = .error e ∧ Sync l c',
        (waitPost K ⟨n, turn, .response r⟩ l).pending⟩ c := by
  unfold readResponse
  rw [Async.wp_bind]
  refine Async.wp_mono (readOp_waits hK hvs (by simp [Packet.IsOp]) h) ?_ ?_ (fun _ h => h)
  · intro p c₁ h₁
    by_cases hk : K c₁.log
    · obtain ⟨rfl, hs⟩ := h₁ hk
      simp only [parseResponseBody, Async.wp_bind, Async.wp_modify]
      have ha := hK.await_sync hl fun _ => hs.sync
      exact Async.wp_lift (fun a hr hk' => ⟨hr, ha hk'⟩) fun e hr hk' => ⟨hr, ha hk'⟩
    · have hn : ¬ K (c₁.await link).log := fun hk' => hk (hK.of_suffix (Conn.await_extends c₁) hk')
      dsimp only
      split
      · exact Async.wp_lift (fun a _ hk' => absurd hk' hn) fun e _ hk' => absurd hk' hn
      · exact fun hk' => absurd hk' hk
  · exact fun e c₁ h₁ hk => absurd hk h₁

theorem readResponse_sync {K : List Event → Prop} (hK : History link K) {c : Conn}
    {vs l : List Packet} {n turn : Nat} {r : Reply} (hvs : ∀ v ∈ vs, v.Volunteered)
    (hl : Readable l) (h : K c.log → Sync (vs ++ ⟨n, turn, .response r⟩ :: l) c) :
    Async.wp (readResponse link)
      ⟨fun a c' => K c'.log → r = .ok a ∧ Sync l c', fun e c' => K c'.log → r = .error e ∧ Sync l c',
        fun c' => K c'.log → Fifo c'.log⟩ c := by
  refine Async.wp_mono (readResponse_waits hK hvs hl h) (fun _ _ h => h) (fun _ _ h => h) ?_
  intro c' h' hk
  obtain ⟨_, _, _, hs⟩ := h' hk
  exact hs.fifo

end FastFirebird
