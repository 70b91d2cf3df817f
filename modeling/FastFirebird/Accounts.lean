import FastFirebird.SessionSync
import FastFirebird.BatchSync

/-! The account of outstanding responses, kept in two ways: as long as the history is
clean, on any link, and exactly, on a link the pool leaves alone. -/
namespace FastFirebird

variable {link : Link} {codec : Codec}

/-- Responses to `k` plain requests. -/
def Owed (server : Server) : Nat → List Packet → Prop
  | 0, l => l = []
  | k + 1, l => ∃ req n turn l', req.isPlain = true ∧ l = server.packets req n turn ++ l' ∧
      Owed server k l'

theorem Owed.readable {server : Server} {k : Nat} {l : List Packet} (h : Owed server k l) :
    Readable l := by
  cases k with
  | zero => exact Or.inl h
  | succ k =>
    obtain ⟨req, n, turn, l', -, rfl, -⟩ := h
    exact readable_packets server req n turn l'

theorem Owed.one {server : Server} {req : Request} (hp : req.isPlain = true) (n turn : Nat) :
    Owed server 1 (server.packets req n turn) :=
  ⟨req, n, turn, [], hp, by simp, rfl⟩

theorem Owed.send {server : Server} {k : Nat} {l : List Packet} (h : Owed server k l)
    {req : Request} (hp : req.isPlain = true) (n turn : Nat) :
    Owed server (k + 1) (l ++ server.packets req n turn) := by
  induction k generalizing l with
  | zero =>
    obtain rfl : l = [] := h
    exact Owed.one hp n turn
  | succ k ih =>
    obtain ⟨req', n', turn', l', hp', rfl, h'⟩ := h
    exact ⟨req', n', turn', _, hp', List.append_assoc _ _ _, ih h'⟩

theorem isPlain_of_isBlobOp {req : Request} (h : req.isBlobOp = true) : req.isPlain = true := by
  cases req <;> first | rfl | simp [Request.isBlobOp] at h

theorem tolerates_blobOp {req : Request} (h : req.isBlobOp = true) (answer : Answer)
    (log : List Event) : req.tolerates answer log = true := by
  cases req <;> first | rfl | simp [Request.isBlobOp] at h

theorem clean_send_blobOp {req : Request} (h : req.isBlobOp = true) (c : Conn) :
    Clean (c.send link false req).log ↔ Clean c.log := by
  simp [Conn.send, Clean, Event.harmless, tolerates_blobOp h]

theorem tolerates_executeRequest {server : Server} {stmt : PreparedStatementInfo} {tx : Nat}
    {encoded : Option EncodedParams} {n : Nat} {log : List Event} :
    (executeRequest stmt tx encoded).tolerates (server.answer (executeRequest stmt tx encoded) n) log =
      (server.answer (executeRequest stmt tx encoded) n).decodes stmt.columnReaders := by
  unfold executeRequest
  split <;> rfl

theorem refusedIn_send {c : Conn} {req : Request} :
    refusedIn c.requests (c.send link false req).log = (link.server.answer req c.requests).refused := by
  simp [Conn.send, refusedIn]

theorem refusedIn_send_of_ne {c : Conn} {req : Request} {n : Nat} (h : c.requests ≠ n) :
    refusedIn n (c.send link false req).log = refusedIn n c.log := by
  simp [Conn.send, refusedIn, h]

theorem clean_send_fetch {c : Conn} {stmt : PreparedStatementInfo} {count n : Nat} :
    Clean (c.send link false (.fetch stmt count (some n))).log ↔ Clean c.log ∧
      (link.server.answer (.fetch stmt count (some n)) c.requests).decodes stmt.columnReaders = true ∧
        refusedIn n c.log = false := by
  simp [Conn.send, Clean, Event.harmless, Request.tolerates, and_comm]

theorem clean_send_info {c : Conn} {stmt : StmtHandle} {n : Nat} :
    Clean (c.send link false (.infoSql stmt (some n))).log ↔ Clean c.log ∧
      (refusedIn n c.log = true →
        (link.server.reply (.infoSql stmt (some n)) c.requests).isOk = true) := by
  simp [Conn.send, Clean, Event.harmless, Request.tolerates, Server.answer, Answer.refused, and_comm,
    imp_iff_not_or]

/-- What the client copes with in the answers to an execute, request `n`, and to what
rides behind it: a row that decodes and, if the execute is refused, no fetch behind it
and an info request that succeeds. -/
structure PipelineTolerated (server : Server) (stmt : PreparedStatementInfo) (tx : Nat)
    (encoded : Option EncodedParams) (piggyback : ExecutePiggyback) (n : Nat) : Prop where
  decodes : (server.answer (executeRequest stmt tx encoded) n).decodes stmt.columnReaders = true
  fetch : ∀ count, piggybackedFetch stmt piggyback = some count →
    (server.answer (.fetch stmt count (some n)) (n + 1)).decodes stmt.columnReaders = true ∧
      (server.answer (executeRequest stmt tx encoded) n).refused = false
  info : piggyback.recordCounts = true →
    (server.answer (executeRequest stmt tx encoded) n).refused = true →
      (server.reply (.infoSql stmt.handle (some n))
        (n + 1 + (piggybackedFetch stmt piggyback).toList.length)).isOk = true

theorem pipelineTolerated_iff {server : Server} {stmt : PreparedStatementInfo} {tx : Nat}
    {encoded : Option EncodedParams} {piggyback : ExecutePiggyback} {n : Nat} :
    PipelineTolerated server stmt tx encoded piggyback n ↔
      (server.answer (executeRequest stmt tx encoded) n).decodes stmt.columnReaders = true ∧
      (∀ count, piggybackedFetch stmt piggyback = some count →
        (server.answer (.fetch stmt count (some n)) (n + 1)).decodes stmt.columnReaders = true ∧
          (server.answer (executeRequest stmt tx encoded) n).refused = false) ∧
      (piggyback.recordCounts = true →
        (server.answer (executeRequest stmt tx encoded) n).refused = true →
          (server.reply (.infoSql stmt.handle (some n))
            (n + 1 + (piggybackedFetch stmt piggyback).toList.length)).isOk = true) :=
  ⟨fun h => ⟨h.decodes, h.fetch, h.info⟩, fun h => ⟨h.1, h.2.1, h.2.2⟩⟩

theorem clean_pipeline_iff {c : Conn} {stmt : PreparedStatementInfo} {tx : Nat}
    {encoded : Option EncodedParams} {piggyback : ExecutePiggyback} :
    Clean (c.pipeline link stmt tx encoded piggyback).log ↔
      Clean c.log ∧ PipelineTolerated link.server stmt tx encoded piggyback c.requests := by
  rw [pipelineTolerated_iff]
  have hexec : Clean (c.send link false (executeRequest stmt tx encoded)).log ↔ Clean c.log ∧
      (link.server.answer (executeRequest stmt tx encoded) c.requests).decodes
        stmt.columnReaders = true := by
    simp [Conn.send, Clean, Event.harmless, tolerates_executeRequest, and_comm]
  have hnext : (c.send link false (executeRequest stmt tx encoded)).requests = c.requests + 1 := rfl
  have hne : (c.send link false (executeRequest stmt tx encoded)).requests ≠ c.requests := by
    rw [hnext]
    exact Nat.succ_ne_self _
  unfold Conn.pipeline aheadRequests
  rw [Conn.flush_log]
  cases hf : piggybackedFetch stmt piggyback <;> cases hr : piggyback.recordCounts <;>
    simp only [Option.map_none, Option.map_some, Option.toList_none, Option.toList_some,
      List.nil_append, List.append_nil, List.cons_append, Bool.false_eq_true, ↓reduceIte,
      Conn.sendAll, List.foldl_cons, List.foldl_nil, clean_send_info, clean_send_fetch, hexec,
      refusedIn_send_of_ne hne, refusedIn_send]
  · simp
  · simp [hnext, and_assoc]
  · simp [hnext, and_assoc]
  · have hlast : ∀ req, ((c.send link false (executeRequest stmt tx encoded)).send link false req).requests =
        c.requests + 2 := fun _ => rfl
    simp [hnext, hlast, and_assoc]

/-- A cycle is clean if nothing ahead of its exec is refused. -/
theorem clean_cycle_iff {c : Conn} {stmt : StmtHandle} {tx : Nat} {st : BatchState} :
    Clean (c.cycle link stmt tx st).log ↔
      Clean c.log ∧ accepted link.server c.requests (cyclePrefix stmt st) = true := by
  have hstarts : ∀ (reqs : List Request) (c : Conn),
      (∀ req ∈ reqs, req.isPlain = true ∧ ∀ answer log, req.tolerates answer log = !answer.refused) →
      (Clean (c.sendAll link reqs).log ↔
        Clean c.log ∧ accepted link.server c.requests reqs = true) := by
    intro reqs
    induction reqs with
    | nil => simp [Conn.sendAll, accepted]
    | cons req reqs ih =>
      intro c hr
      obtain ⟨hp, ht⟩ := hr req List.mem_cons_self
      have hc := ih (c.send link false req) fun q hq => hr q (List.mem_cons_of_mem _ hq)
      simp only [Conn.sendAll, List.foldl_cons, accepted] at hc ⊢
      rw [hc]
      have hs : Clean (c.send link false req).log ↔
          (link.server.reply req c.requests).isOk = true ∧ Clean c.log := by
        simp [Conn.send, Clean, Event.harmless, ht, answer_plain hp, Answer.refused]
      rw [hs, and_assoc, and_left_comm]
      simp [Conn.send, answer_plain hp]
  have hall : ∀ req ∈ cyclePrefix stmt st, req.isPlain = true ∧
      ∀ answer log, req.tolerates answer log = !answer.refused := by
    intro req hr
    refine ⟨cyclePrefix_plain stmt st req hr, ?_⟩
    simp only [cyclePrefix, List.append_assoc, List.mem_append, List.mem_map, List.mem_singleton] at hr
    rcases hr with hr | ⟨id, -, rfl⟩ | rfl
    · split at hr
      · exact absurd hr List.not_mem_nil
      · rw [List.mem_singleton.mp hr]
        exact fun _ _ => rfl
    · exact fun _ _ => rfl
    · exact fun _ _ => rfl
  rw [← hstarts _ c hall]
  simp [Conn.cycle, Conn.send, Clean, Event.harmless, Request.tolerates]

theorem clean_markAll (ns : List Nat) (c : Conn) : Clean (c.markAll ns).log ↔ Clean c.log := by
  induction ns generalizing c with
  | nil => exact Iff.rfl
  | cons n ns ih => exact (ih (c.markDeferred n)).trans (by simp [Conn.markDeferred, Clean, Event.harmless])

/-- With `k` responses outstanding, if the history is clean. -/
def Guard (link : Link) (k : Nat) (c : Conn) : Prop :=
  Clean c.log → ∃ l, Owed link.server k l ∧ Sync l c

/-- With a fetch answer outstanding, if the history is clean. -/
def GuardFetch (stmt : PreparedStatementInfo) (c : Conn) : Prop :=
  Clean c.log → ∃ n turn volunteers rows finish, rows.all (decodes stmt.columnReaders) = true ∧
    Sync (stamp n turn (interleave volunteers (fetchMessages stmt.columnReaders rows finish))) c

def GuardWaiting (c : Conn) : Prop := Clean c.log → Fifo c.log

theorem guard_zero {c : Conn} : Guard link 0 c ↔ Guarded Clean [] c := by
  constructor
  · intro h hc
    obtain ⟨l, rfl, hs⟩ := h hc
    exact hs
  · exact fun h hc => ⟨[], rfl, h hc⟩

theorem guard_of_not {k : Nat} {c : Conn} (h : ¬ Clean c.log) : Guard link k c :=
  fun hc => absurd hc h

theorem guard_discipline :
    Discipline link (fun req => req.isPlain = true) (Guard link) GuardWaiting where
  closeBlob := fun _ => rfl
  send := by
    intro k c req hr h hc
    obtain ⟨l, ho, hs⟩ := h ((clean_send_blobOp hr c).mp hc)
    exact ⟨_, ho.send (isPlain_of_isBlobOp hr) _ _, hs.send false req⟩
  flush := by
    intro k c h hc
    obtain ⟨l, ho, hs⟩ := h (by simpa using hc)
    exact ⟨l, ho, hs.flush⟩
  await := by
    intro k c h hc
    obtain ⟨l, ho, hs⟩ := h (hc.of_suffix (Conn.await_extends c))
    exact ⟨l, ho, (@history_clean link).await l c hs ho.readable hc⟩
  inline := by
    intro k c inline h hc
    obtain ⟨l, ho, hs⟩ := h hc
    exact ⟨l, ho, hs.congr rfl rfl rfl rfl⟩
  read := by
    intro k c h
    by_cases hc : Clean c.log
    · obtain ⟨_, ⟨req, n, turn, l, hp, rfl, ho⟩, hs⟩ := h hc
      refine Async.wp_mono (readResponse_plain (@history_clean link) hp ho.readable fun _ => hs) ?_ ?_ ?_
      · exact fun a c' h' hc' => ⟨l, ho, (h' hc').2⟩
      · exact fun e c' h' hc' => ⟨l, ho, (h' hc').2⟩
      · exact fun c' h' => h'
    · exact (@history_clean link).wp_of_not along_readResponse hc (fun _ _ hn => guard_of_not hn)
        (fun _ _ hn => guard_of_not hn) fun _ hn hc => absurd hc hn
  waiting := by
    intro k c h hc
    obtain ⟨l, -, hs⟩ := h hc
    exact hs.fifo

/-- What a failed execute leaves, when the history is clean. -/
theorem sync_of_executeFailed {c c₀ : Conn} {stmt : PreparedStatementInfo} {tx : Nat}
    {encoded : Option EncodedParams} {piggyback : ExecutePiggyback}
    (hc : Clean (c.pipeline link stmt tx encoded piggyback).log)
    (h : ExecuteOutcome stmt.columnReaders
        (link.server.answer (executeRequest stmt tx encoded) c.requests)
        (packetsFrom link.server c.turn (c.requests + 1) (aheadRequests stmt piggyback c.requests)) true c₀ ∨
      Undecoded stmt.columnReaders (link.server.answer (executeRequest stmt tx encoded) c.requests)
        (packetsFrom link.server c.turn (c.requests + 1) (aheadRequests stmt piggyback c.requests)) c₀) :
    Sync [] (c₀.markAll (List.range' (c.requests + 1)
      (aheadRequests stmt piggyback c.requests).length)) := by
  obtain ⟨-, hd, hfetch, hinfo⟩ := clean_pipeline_iff.mp hc
  rcases h with ho | ⟨hd', -⟩
  · refine (sync_markAll_iff ho.sync packetsFrom_request).mpr ?_
    rw [List.length_range', drainable_ahead_iff]
    cases hf : piggybackedFetch stmt piggyback with
    | none => exact ⟨rfl, fun hr => by simpa [hf] using hinfo hr ho.refused⟩
    | some count => exact absurd ((hfetch count hf).2.symm.trans ho.refused) (by simp)
  · exact absurd (hd.symm.trans hd') (by simp)

theorem guard_execute {c : Conn} (h : Guard link 0 c) (stmt : PreparedStatementInfo) (tx : Nat)
    (values : List ParamValue) (encodeText : EncodeText) (piggyback : ExecutePiggyback)
    (hx : piggyback.recordCounts = true → piggybackedFetch stmt piggyback = none) :
    Async.wp (executeStatement link codec stmt tx values encodeText piggyback)
      ⟨fun r c' => r.pendingInfo = piggyback.recordCounts ∧
          (if r.pendingFetch then r.pendingInfo = false ∧ GuardFetch stmt c'
          else Guard link (if r.pendingInfo then 1 else 0) c'),
        fun _ => Guard link 0, GuardWaiting⟩ c := by
  cases he : encodeValues codec values encodeText with
  | error e => exact (wp_executeStatement_error he).mpr h
  | ok encoded =>
  refine Async.wp_mono (executeStatement_sync (@history_clean link) (r := Extends) (guard_zero.mp h) he)
    ?_ ?_ fun _ h => h
  · rintro r c' ⟨hpf, hpi, hg, h'⟩
    refine ⟨hpi, ?_⟩
    simp only [hpf, hpi]
    cases hf : piggybackedFetch stmt piggyback with
    | some count =>
      have hr : piggyback.recordCounts = false := by
        by_contra hn
        exact absurd (hx (by simpa using hn)) (by simp [hf])
      refine ⟨hr, fun hc => ?_⟩
      obtain ⟨-, -, hfetch, -⟩ := clean_pipeline_iff.mp (hc.of_suffix hg)
      have hs := (h' hc).sync
      simp only [aheadRequests, hf, hr, Option.map_some, Option.toList_some, Bool.false_eq_true,
        ↓reduceIte, List.append_nil, packetsFrom, packets_fetch] at hs
      exact ⟨_, _, _, _, _, (hfetch count hf).1, hs⟩
    | none =>
      intro hc
      have hs := (h' hc).sync
      cases hr : piggyback.recordCounts with
      | false =>
        simp only [aheadRequests, hf, hr, Option.map_none, Option.toList_none, Bool.false_eq_true,
          ↓reduceIte, List.append_nil, packetsFrom] at hs
        exact ⟨[], rfl, hs⟩
      | true =>
        simp only [aheadRequests, hf, hr, Option.map_none, Option.toList_none, ↓reduceIte,
          List.nil_append, packetsFrom, List.append_nil] at hs
        exact ⟨_, Owed.one rfl _ _, hs⟩
  · rintro e c' ⟨c₀, hg, rfl, h₀⟩
    refine guard_zero.mpr fun hc => ?_
    have hc₀ := (clean_markAll _ c₀).mp hc
    exact sync_of_executeFailed (hc₀.of_suffix hg) (h₀ hc₀)

theorem guard_statementDiscipline :
    StatementDiscipline link codec (fun _ => True) (fun req => req.isPlain = true) (Guard link)
      GuardFetch (fun c => ¬ Clean c.log) GuardWaiting where
  toDiscipline := guard_discipline
  cursor := fun _ _ => rfl
  release := fun _ _ => rfl
  broken := fun c req _ h hc => h (hc.of_suffix
    ((List.suffix_cons _ _).trans (List.suffix_cons _ _)))
  sendFetch := by
    intro c stmt count _ h hc
    have hc' : Clean (c.send link false (.fetch stmt count none)).log := by simpa using hc
    have hs := (guard_zero.mp h).send (@history_clean link) (.fetch stmt count none) hc'
    have hd : (link.server.answer (.fetch stmt count none) c.requests).decodes stmt.columnReaders =
        true := by
      simpa [Event.harmless, Request.tolerates] using hc'.1
    exact ⟨_, _, _, _, _, hd, by simpa [packets_fetch] using hs.flush⟩
  readFetch := by
    intro c stmt fuel _ h
    by_cases hc : Clean c.log
    · obtain ⟨n, turn, volunteers, rows, finish, hd, hs⟩ := h hc
      have hr := readFetchBatch_sync (@history_clean link) (Or.inl rfl) fuel [] volunteers rows
        (fun _ => by simpa using hs : Guarded Clean _ c)
      refine Async.wp_mono hr ?_ ?_ fun _ h => h
      · exact fun b c' h' => guard_zero.mpr fun hc' => (h' hc').2.2
      · intro e c' h'
        refine Or.inl (.of_settled (guard_zero.mpr fun hc' => ?_))
        rcases h' hc' with ⟨-, -, hs'⟩ | ⟨hd', -⟩
        · exact hs'
        · exact absurd (hd.symm.trans hd') (by simp)
    · exact (@history_clean link).wp_of_not (along_readFetchBatch stmt fuel []) hc
        (fun _ _ hn => guard_of_not hn) (fun _ _ hn => Or.inr hn) fun _ hn hc => absurd hc hn
  execute := by
    intro c stmt tx values encodeText piggyback _ h hx
    exact Async.wp_mono (guard_execute h stmt tx values encodeText piggyback hx) (fun _ _ h => h)
      (fun _ _ h => Or.inl (.of_settled h)) fun _ h => h
  cycle := by
    intro c stmt tx st _ h
    refine Async.wp_mono (cycleWire_sync (@history_clean link) (guard_zero.mp h) stmt tx st) ?_ ?_ fun _ h => h
    · exact fun _ c' h' => guard_zero.mpr fun hc' => (h'.2 hc').2.2
    · rintro e c' ⟨c₀, ns, hg, rfl, h₀⟩
      refine Or.inl (.of_settled (guard_zero.mpr fun hc => ?_))
      have hc₀ := (clean_markAll _ c₀).mp hc
      rcases h₀ hc₀ with ⟨-, rfl, hs⟩ | ⟨hn, -⟩
      · exact hs
      · have hok := (clean_cycle_iff.mp (hc₀.of_suffix hg)).2
        exact absurd (hok.symm.trans hn) (by simp)

/-- Deferred responses that a clean history leaves behind are ones the drain gets
through. -/
theorem guard_of_left {c : Conn} (h : Left link (fun req => req.isPlain = true) (Guard link) c) : Guard link 0 c := by
  obtain ⟨c₀, reqs, h₀, hp, rfl⟩ := h
  induction reqs generalizing c₀ with
  | nil => exact h₀
  | cons req reqs ih =>
    refine ih (c₀.sendDeferred link req) ?_ fun q hq => hp q (List.mem_cons_of_mem _ hq)
    refine guard_zero.mpr fun hc => ?_
    have hh : (link.server.answer req c₀.requests).refused = false := by
      have := hc.2.1
      simp only [Event.harmless, Bool.not_true, Bool.false_or, Bool.and_eq_true] at this
      simpa using this.1
    exact (guard_zero.mp h₀ hc.2.2).sendDeferred (hp req List.mem_cons_self) hh

theorem guard_of_settled {c : Conn}
    (h : Settled link (fun req => req.isPlain = true) (Guard link) (fun c => ¬ Clean c.log) c) :
    Guard link 0 c := by
  rcases h with h | h
  · exact guard_of_left h
  · exact guard_of_not h

end FastFirebird
