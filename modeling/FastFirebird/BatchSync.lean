import FastFirebird.ExecuteSync
import FastFirebird.Batch

/-! What one cycle of batch requests leaves on a wire that was in step. -/
namespace FastFirebird

variable {link : Link}

/-- None of the requests from number `n` on is refused. -/
def accepted (server : Server) : Nat → List Request → Bool
  | _, [] => true
  | n, req :: reqs => (server.reply req n).isOk && accepted server (n + 1) reqs

theorem packets_batchExec {server : Server} {stmt : StmtHandle} {tx : Nat} (n turn : Nat) :
    ∃ body, server.packets (.batchExec stmt tx) n turn =
        stamp n turn ((server.volunteers n 0).map .volunteer) ++ [⟨n, turn, body⟩] ∧
      ((∃ c, body = .batchCs c ∧ server.batchExec (.batchExec stmt tx) n = .completed c) ∨
        ∃ e, body = .response (.error e)) := by
  unfold Server.packets Server.answer
  cases server.batchExec (.batchExec stmt tx) n with
  | completed c =>
    exact ⟨.batchCs c, by simp [Answer.messages, interleave, stamp], Or.inl ⟨c, rfl, rfl⟩⟩
  | refused e =>
    exact ⟨.response (.error e), by simp [Answer.messages, interleave, stamp], Or.inr ⟨e, rfl⟩⟩

/-- The reply to an exec is never a successful response. -/
theorem batchExec_blocks {server : Server} {stmt : StmtHandle} {tx : Nat} (n turn : Nat) :
    ∃ p ∈ server.packets (.batchExec stmt tx) n turn, p.blocks := by
  obtain ⟨body, hp, hb⟩ := @packets_batchExec server stmt tx n turn
  refine ⟨⟨n, turn, body⟩, by simp [hp], ?_⟩
  rcases hb with ⟨c, rfl, -⟩ | ⟨e, rfl⟩ <;> exact ⟨by simp, by simp⟩

theorem along_readBatchReply {r : Conn → Conn → Prop} [Reads link r] (p : Packet) :
    Async.Along r (readBatchReply link p) := by
  unfold readBatchReply
  split
  · exact (along_parseResponseBody _).bind fun _ => .throw _
  · exact along_await.bind fun _ => .pure _
  · exact @along_unexpectedOp link r _ _ p

theorem readBatchCompletion_sync {K : List Event → Prop} (hK : History link K) {c : Conn}
    {stmt : StmtHandle} {tx n turn : Nat}
    (h : Guarded K (link.server.packets (.batchExec stmt tx) n turn) c) :
    Async.wp (readBatchCompletion link)
      ⟨fun a c' => K c'.log →
          link.server.batchExec (.batchExec stmt tx) n = .completed a ∧ Sync [] c',
        fun _ c' => K c'.log → Sync [] c',
        fun c' => K c'.log → Fifo c'.log⟩ c := by
  obtain ⟨body, hp, hb⟩ := @packets_batchExec link.server stmt tx n turn
  rw [hp] at h
  have hop : (⟨n, turn, body⟩ : Packet).IsOp := by
    rcases hb with ⟨c, rfl, -⟩ | ⟨e, rfl⟩ <;> simp [Packet.IsOp]
  refine Async.wp_bind.mpr (Async.wp_mono (readOp_sync hK stamp_volunteered hop h) ?_
    (fun _ _ h hk => absurd hk h) fun _ h => h)
  intro p c₁ h₁
  by_cases hk : K c₁.log
  · obtain ⟨rfl, hf⟩ := h₁ hk
    have hs : Guarded K [] c₁ := fun _ => hf.sync
    rcases hb with ⟨completion, rfl, hserver⟩ | ⟨e, rfl⟩
    · simp only [readBatchReply, Async.wp_bind, Async.wp_modify, Async.wp_pure]
      exact fun hk' => ⟨hserver, hK.await_sync (Or.inl rfl) hs hk'⟩
    · simp only [readBatchReply, Async.wp_bind]
      refine Async.wp_mono (parseResponseBody_sync hK (Or.inl rfl) hs) ?_ ?_ fun _ h => h.elim
      · exact fun _ _ h => absurd h.1 (by simp)
      · exact fun _ _ h => h.2
  · exact hK.wp_of_not (along_readBatchReply p) hk (fun _ _ hn hk => absurd hk hn)
      (fun _ _ hn hk => absurd hk hn) fun _ hn hk => absurd hk hn

theorem wp_markEach {ns : List Nat} {Q : Async.Post Conn FirebirdError Unit} {c : Conn} :
    Async.wp (markEach ns) Q c ↔ Q.ok () (c.markAll ns) := by
  induction ns generalizing c with
  | nil => exact Iff.rfl
  | cons n ns ih => exact Async.wp_bind.trans ih

theorem along_readCycle {r : Conn → Conn → Prop} [Reads link r]
    (hm : ∀ c n, r c (c.markDeferred n)) (first expected remaining : Nat) :
    Async.Along r (readCycle link first expected remaining) := by
  have hmark : ∀ ns, Async.Along r (markEach ns) := by
    intro ns
    induction ns with
    | nil => exact .pure ()
    | cons n ns ih => exact (Async.Along.update fun c => hm c n).bind fun _ => ih
  induction remaining with
  | zero => exact along_readOp.bind fun p => along_readBatchReply p
  | succ remaining ih =>
    refine along_readResponse.attempt.bind fun a => ?_
    split
    · exact ih
    · exact (hmark _).bind fun _ => .throw _

/-- How a cycle fails: in its exec, with every response consumed, or before it, with
the reply to the exec marked deferred. -/
def CycleFailed (K : List Event → Prop) (start : Conn) (ok : Bool) (c : Conn) : Prop :=
  ∃ c₀ ns, start.log <:+ c₀.log ∧ c = c₀.markAll ns ∧ (K c₀.log →
    (ok = true ∧ ns = [] ∧ Sync [] c₀) ∨
    (ok = false ∧ ∃ junk, (∃ p ∈ junk, p.blocks) ∧ Sync junk c₀))

theorem readCycle_sync {K : List Event → Prop} (hK : History link K) {stmt : StmtHandle}
    {tx turn : Nat} (first expected last : Nat) {reqs : List Request}
    (hp : ∀ req ∈ reqs, req.isPlain = true) {n : Nat} {c : Conn}
    (h : Guarded K (packetsFrom link.server turn n reqs ++
      link.server.packets (.batchExec stmt tx) last turn) c) :
    Async.wp (readCycle link first expected reqs.length)
      ⟨fun a c' => K c'.log → accepted link.server n reqs = true ∧
          link.server.batchExec (.batchExec stmt tx) last = .completed a ∧ Sync [] c',
        fun _ => CycleFailed K c (accepted link.server n reqs),
        fun c' => K c'.log → Fifo c'.log⟩ c := by
  induction reqs generalizing n c with
  | nil =>
    have hr : Async.Along Extends (readBatchCompletion link) :=
      along_readOp.bind fun p => along_readBatchReply p
    refine Async.wp_mono (with_history hr (readBatchCompletion_sync hK h)) ?_ ?_ fun _ h => h.2
    · exact fun _ _ h hk => ⟨rfl, h.2 hk⟩
    · exact fun _ c' h => ⟨c', [], h.1, rfl, fun hk => Or.inl ⟨rfl, rfl, h.2 hk⟩⟩
  | cons req reqs ih =>
    have hreq := hp req List.mem_cons_self
    rw [packetsFrom, List.append_assoc] at h
    obtain ⟨p, hpm, hb⟩ := @batchExec_blocks link.server stmt tx last turn
    have hl : Readable (packetsFrom link.server turn (n + 1) reqs ++
        link.server.packets (.batchExec stmt tx) last turn) := by
      refine Or.inr (not_drainable_of_blocks (List.mem_append_right _ hpm) hb 0)
    refine Async.wp_bind.mpr (Async.wp_attempt.mpr (Async.wp_mono
      (with_history along_readResponse (readResponse_plain hK hreq hl h)) ?_ ?_ fun _ h => h.2))
    · rintro a c₁ ⟨hg₁, h₁⟩
      have hnext := with_history
        (along_readCycle (fun _ _ => List.suffix_cons _ _) first expected reqs.length)
        (ih (fun req hr => hp req (List.mem_cons_of_mem _ hr)) fun hk => (h₁ hk).2)
      have hfirst : K c₁.log → accepted link.server n (req :: reqs) =
          accepted link.server (n + 1) reqs := fun hk => by
        simp [accepted, (h₁ hk).1, Reply.isOk]
      refine Async.wp_mono hnext ?_ ?_ fun _ h => h.2
      · rintro completion c₂ ⟨hg, h₂⟩ hk
        rw [hfirst (hK.of_suffix hg hk)]
        exact h₂ hk
      · rintro e c₂ ⟨-, c₀, ns, hg, rfl, h₀⟩
        refine ⟨c₀, ns, hg₁.trans hg, rfl, fun hk => ?_⟩
        rw [hfirst (hK.of_suffix hg hk)]
        exact h₀ hk
    · rintro e c₁ ⟨hg₁, h₁⟩
      refine Async.wp_bind.mpr (wp_markEach.mpr ?_)
      refine ⟨c₁, _, hg₁, rfl, fun hk => Or.inr ⟨?_, _, ⟨p, List.mem_append_right _ hpm, hb⟩, (h₁ hk).2⟩⟩
      simp [accepted, (h₁ hk).1, Reply.isOk]

theorem wp_sendEach {reqs : List Request} {Q : Async.Post Conn FirebirdError Unit} {c : Conn} :
    Async.wp (sendEach link reqs) Q c ↔ Q.ok () (c.sendAll link reqs) := by
  induction reqs generalizing c with
  | nil => exact Iff.rfl
  | cons req reqs ih => exact Async.wp_bind.trans ih

theorem cyclePrefix_plain (stmt : StmtHandle) (st : BatchState) :
    ∀ req ∈ cyclePrefix stmt st, req.isPlain = true := by
  intro req hr
  simp only [cyclePrefix, List.append_assoc, List.mem_append, List.mem_map, List.mem_singleton] at hr
  rcases hr with hr | ⟨id, -, rfl⟩ | rfl
  · split at hr
    · exact absurd hr List.not_mem_nil
    · rw [List.mem_singleton.mp hr]
      rfl
  · rfl
  · rfl

/-- The connection once the requests of a cycle are on their way. -/
def Conn.cycle (link : Link) (stmt : StmtHandle) (tx : Nat) (st : BatchState) (c : Conn) : Conn :=
  ((c.sendAll link (cyclePrefix stmt st)).send link false (.batchExec stmt tx)).flush

theorem cycleWire_along {r : Conn → Conn → Prop} [Reads link r]
    (hm : ∀ c n, r c (c.markDeferred n)) {c : Conn} {stmt : StmtHandle} {tx : Nat} {st : BatchState} :
    Async.wp (cycleWire link stmt tx st)
      ⟨fun _ => r (c.cycle link stmt tx st), fun _ => r (c.cycle link stmt tx st),
        fun _ => True⟩ c := by
  simp only [cycleWire, Async.wp_bind, Async.wp_get, wp_sendEach, wp_send, wp_flush]
  have hx := @along_readCycle link r _ hm c.requests (cyclePrefix stmt st).length
    (cyclePrefix stmt st).length
  have ht : Async.wp (readCycle link c.requests (cyclePrefix stmt st).length
      (cyclePrefix stmt st).length) ⟨fun _ _ => True, fun _ _ => True, fun _ => True⟩
      (c.cycle link stmt tx st) := Async.wp_trivial
  exact Async.wp_mono (hx.with_wp ht) (fun _ _ h => h.1) (fun _ _ h => h.1) fun _ _ => trivial

theorem sendAll_turn (reqs : List Request) (c : Conn) : (c.sendAll link reqs).turn = c.turn := by
  unfold Conn.sendAll
  induction reqs generalizing c with
  | nil => rfl
  | cons req reqs ih => exact (ih _).trans rfl

/-- A cycle consumes all its responses, unless one ahead of the exec is refused; its
completion is the server's answer to the exec. -/
theorem cycleWire_sync {K : List Event → Prop} (hK : History link K) {c : Conn}
    (h : Guarded K [] c) (stmt : StmtHandle) (tx : Nat) (st : BatchState) :
    Async.wp (cycleWire link stmt tx st)
      ⟨fun a c' => (c.cycle link stmt tx st).log <:+ c'.log ∧ (K c'.log →
          accepted link.server c.requests (cyclePrefix stmt st) = true ∧
          link.server.batchExec (.batchExec stmt tx) (c.sendAll link (cyclePrefix stmt st)).requests =
            .completed a ∧ Sync [] c'),
        fun _ => CycleFailed K (c.cycle link stmt tx st)
          (accepted link.server c.requests (cyclePrefix stmt st)),
        fun c' => K c'.log → Fifo c'.log⟩ c := by
  have hs : Guarded K _ (c.cycle link stmt tx st) :=
    ((h.sendAll hK (cyclePrefix stmt st)).send hK (.batchExec stmt tx)).flush
  simp only [List.nil_append, sendAll_turn] at hs
  simp only [cycleWire, Async.wp_bind, Async.wp_get, wp_sendEach, wp_send, wp_flush]
  have hr := readCycle_sync hK c.requests (cyclePrefix stmt st).length _
    (cyclePrefix_plain stmt st) hs
  refine Async.wp_mono (with_history (along_readCycle (fun _ _ => List.suffix_cons _ _) _ _ _) hr)
    ?_ ?_ fun _ h => h.2
  · exact fun _ _ h => h
  · exact fun _ _ h => h.2

end FastFirebird
