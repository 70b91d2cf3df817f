import FastFirebird.Accounts

/-! The exact account, on a connection the pool leaves alone: a clean history and a wire
in step, or neither. -/
namespace FastFirebird

variable {link : Link} {codec : Codec}

/-- More responses than are deferred, or one the drain does not get through. -/
def Off (c : Conn) : Prop :=
  c.deferredResponses < replies (c.inbound ++ c.unflushed) ∨
    ∃ p ∈ c.inbound ++ c.unflushed, p.blocks

theorem Off.not_sync {c : Conn} (h : Off c) : ¬ Sync [] c := by
  intro hs
  have hd : drainable c.deferredResponses (c.inbound ++ c.unflushed) = true := sync_drainable hs
  rcases h with h | ⟨p, hp, hb⟩
  · rw [drainable_replies hd] at h
    exact absurd h (Nat.lt_irrefl _)
  · exact absurd (hd.symm.trans (not_drainable_of_blocks hp hb _)) (by simp)

theorem Off.of_blocks {l : List Packet} {c : Conn} (h : Sync l c) {p : Packet} (hp : p ∈ l)
    (hb : p.blocks) : Off c := by
  obtain ⟨pre, hq, -⟩ := h
  exact Or.inr ⟨p, hq ▸ List.mem_append_right _ hp, hb⟩

theorem Off.of_replies {l : List Packet} {c : Conn} (h : Sync l c) (hl : 0 < replies l) : Off c := by
  obtain ⟨pre, hq, hd, -⟩ := h
  refine Or.inl ?_
  rw [hq, replies_append, drainable_replies hd]
  omega

theorem Off.markAll_of_blocks {c : Conn} (ns : List Nat)
    (h : ∃ p ∈ c.inbound ++ c.unflushed, p.blocks) : Off (c.markAll ns) := by
  rw [← (c.markAll_spec ns).1] at h
  exact Or.inr h

theorem replies_packets_plain {server : Server} {req : Request} (hp : req.isPlain = true)
    (n turn : Nat) : replies (server.packets req n turn) = 1 := by
  have hv : replies (stamp n turn ((server.volunteers n 0).map .volunteer)) = 0 := by
    refine drainable_replies ?_
    rw [← List.append_nil (stamp n turn _), drainable_volunteered stamp_volunteered]
    rfl
  rw [packets_plain hp, replies_append, hv]
  rfl

/-- An error response is not one the drain gets through. -/
theorem refused_blocks {server : Server} {req : Request} (hp : req.isPlain = true) {n : Nat}
    (h : (server.reply req n).isOk = false) (turn : Nat) :
    ∃ p ∈ server.packets req n turn, p.blocks := by
  refine ⟨⟨n, turn, .response (server.reply req n)⟩, by simp [packets_plain hp], ?_⟩
  cases hr : server.reply req n with
  | ok r => simp [hr, Reply.isOk] at h
  | error e => exact ⟨by simp, by simp⟩

theorem Off.sendDeferred {c : Conn} (h : Off c) {req : Request} (hp : req.isPlain = true) :
    Off (c.sendDeferred link req) := by
  have hq : (c.sendDeferred link req).inbound ++ (c.sendDeferred link req).unflushed =
      (c.inbound ++ c.unflushed) ++ link.server.packets req c.requests c.turn := by
    simp [Conn.sendDeferred, Conn.send, Conn.markDeferred]
  unfold Off at h ⊢
  rw [hq, replies_append, replies_packets_plain hp]
  rcases h with h | ⟨p, hpm, hb⟩
  · exact Or.inl (Nat.add_lt_add_right h 1)
  · exact Or.inr ⟨p, List.mem_append_left _ hpm, hb⟩

/-- Reading leaves the history as clean, or as little clean, as it was. -/
def SameClean (c c' : Conn) : Prop := Clean c'.log ↔ Clean c.log

theorem reads_sameClean (hu : link.Undisturbed) : Reads link SameClean where
  refl _ := Iff.rfl
  trans h h' := Iff.trans h' h
  await c := by simp [SameClean, Conn.await, hu c.awaits, Conn.tick]
  inbound _ _ := Iff.rfl
  inline _ _ := Iff.rfl
  drained c p := by simp [SameClean, Conn.drainOne, Clean, Event.harmless]
  handedOver c p := by simp [SameClean, Conn.handOver, Clean, Event.harmless]

/-- `k` plain responses are outstanding, and the history is clean. -/
def Exact (link : Link) (k : Nat) (c : Conn) : Prop :=
  Clean c.log ∧ ∃ l, Owed link.server k l ∧ Sync l c

/-- A fetch answer is outstanding, and it decides whether the history is clean. -/
def ExactFetch (stmt : PreparedStatementInfo) (c : Conn) : Prop :=
  ∃ n turn volunteers rows finish,
    Sync (stamp n turn (interleave volunteers (fetchMessages stmt.columnReaders rows finish))) c ∧
    (Clean c.log ↔ rows.all (decodes stmt.columnReaders) = true)

def Astray (c : Conn) : Prop := ¬ Clean c.log ∧ Off c

theorem exact_zero {c : Conn} : Exact link 0 c ↔ Clean c.log ∧ Sync [] c := by
  constructor
  · rintro ⟨hc, l, rfl, hs⟩
    exact ⟨hc, hs⟩
  · exact fun ⟨hc, hs⟩ => ⟨hc, [], rfl, hs⟩

theorem harmless_deferred {req : Request} (hp : req.isPlain = true) {n turn : Nat}
    {log : List Event} :
    (Event.sent n turn true req (link.server.answer req n)).harmless log =
      (link.server.reply req n).isOk := by
  cases req <;> simp_all [Event.harmless, Request.isPlain, Server.answer, Answer.refused,
    Request.tolerates]

theorem clean_sendDeferred {c : Conn} {req : Request} (hp : req.isPlain = true) :
    Clean (c.sendDeferred link req).log ↔
      Clean c.log ∧ (link.server.reply req c.requests).isOk = true := by
  simp only [Conn.sendDeferred, Conn.markDeferred, Conn.send, Clean, harmless_deferred hp]
  simp [Event.harmless, and_comm]

/-- A deferred request is right if it succeeds, and otherwise leads astray. -/
theorem exact_or_astray_sendDeferred {c : Conn} (h : Exact link 0 c ∨ Astray c) {req : Request}
    (hp : req.isPlain = true) :
    Exact link 0 (c.sendDeferred link req) ∨ Astray (c.sendDeferred link req) := by
  rcases h with h | ⟨hn, ho⟩
  · obtain ⟨hc, hs⟩ := exact_zero.mp h
    cases hok : (link.server.reply req c.requests).isOk with
    | true =>
      refine Or.inl (exact_zero.mpr ⟨(clean_sendDeferred hp).mpr ⟨hc, hok⟩, ?_⟩)
      exact hs.sendDeferred hp (by simp [answer_plain hp, Answer.refused, hok])
    | false =>
      refine Or.inr ⟨fun h' => ?_, ?_⟩
      · exact absurd (hok.symm.trans ((clean_sendDeferred hp).mp h').2) (by simp)
      · obtain ⟨p, hpm, hb⟩ := refused_blocks hp hok c.turn
        refine Or.inr ⟨p, ?_, hb⟩
        simpa [Conn.sendDeferred, Conn.send, Conn.markDeferred, ← List.append_assoc] using Or.inr hpm
  · exact Or.inr ⟨fun h' => hn ((clean_sendDeferred hp).mp h').1, ho.sendDeferred hp⟩

theorem exact_or_astray_of_settled {c : Conn}
    (h : Settled link (fun req => req.isPlain = true) (Exact link) Astray c) :
    Exact link 0 c ∨ Astray c := by
  rcases h with ⟨c₀, reqs, h₀, hp, rfl⟩ | h
  · have hall : ∀ (reqs : List Request) (c : Conn), Exact link 0 c ∨ Astray c →
        (∀ req ∈ reqs, req.isPlain = true) →
        Exact link 0 (c.sendAllDeferred link reqs) ∨ Astray (c.sendAllDeferred link reqs) := by
      intro reqs
      induction reqs with
      | nil => exact fun c h _ => h
      | cons req reqs ih =>
        intro c h hp
        exact ih _ (exact_or_astray_sendDeferred h (hp req List.mem_cons_self)) fun q hq =>
          hp q (List.mem_cons_of_mem _ hq)
    exact hall reqs c₀ (Or.inl h₀) hp
  · exact Or.inr h

/-- However it got there: in step exactly if the history is clean. -/
theorem sync_iff_clean {c : Conn} (h : Exact link 0 c ∨ Astray c) : Sync [] c ↔ Clean c.log := by
  rcases h with h | ⟨hn, ho⟩
  · obtain ⟨hc, hs⟩ := exact_zero.mp h
    exact ⟨fun _ => hc, fun _ => hs⟩
  · exact ⟨fun hs => absurd hs ho.not_sync, fun hc => absurd hc hn⟩

/-- Something behind a refused execute that cannot be left to the drain. -/
theorem ahead_blocks {server : Server} {stmt : PreparedStatementInfo} {piggyback : ExecutePiggyback}
    {n turn : Nat}
    (h : drainable (aheadRequests stmt piggyback n).length
      (packetsFrom server turn (n + 1) (aheadRequests stmt piggyback n)) = false) :
    ∃ p ∈ packetsFrom server turn (n + 1) (aheadRequests stmt piggyback n), p.blocks := by
  unfold aheadRequests at h ⊢
  cases hf : piggybackedFetch stmt piggyback with
  | some count =>
    obtain ⟨p, hp, hb⟩ := @fetch_blocks server stmt count (some n) (n + 1) turn
    exact ⟨p, List.mem_append_left _ hp, hb⟩
  | none =>
    cases hr : piggyback.recordCounts with
    | false => simp [hf, hr, packetsFrom, drainable] at h
    | true =>
      have hp : (Request.infoSql stmt.handle (some n)).isPlain = true := rfl
      simp only [hf, hr, Option.map_none, Option.toList_none, ↓reduceIte, List.nil_append,
        List.length_singleton, packetsFrom, List.append_nil, drainable_packets_plain hp] at h ⊢
      exact refused_blocks hp h turn

theorem clean_pipeline_of_drainable {c : Conn} {stmt : PreparedStatementInfo} {tx : Nat}
    {encoded : Option EncodedParams} {piggyback : ExecutePiggyback} (hc : Clean c.log)
    (hd : (link.server.answer (executeRequest stmt tx encoded) c.requests).decodes
      stmt.columnReaders = true)
    (h : drainable (aheadRequests stmt piggyback c.requests).length (packetsFrom link.server c.turn
      (c.requests + 1) (aheadRequests stmt piggyback c.requests)) = true) :
    Clean (c.pipeline link stmt tx encoded piggyback).log := by
  obtain ⟨hf, hi⟩ := drainable_ahead_iff.mp h
  refine clean_pipeline_iff.mpr ⟨hc, hd, fun count hn => ?_, fun hr _ => by simpa [hf] using hi hr⟩
  exact absurd (hf.symm.trans hn) (by simp)

/-- What a failed execute leaves. -/
theorem exact_executeFailed {c c₀ : Conn} {stmt : PreparedStatementInfo} {tx : Nat}
    {encoded : Option EncodedParams} {piggyback : ExecutePiggyback} (hc : Clean c.log)
    (hg : SameClean (c.pipeline link stmt tx encoded piggyback) c₀)
    (h : ExecuteOutcome stmt.columnReaders
        (link.server.answer (executeRequest stmt tx encoded) c.requests)
        (packetsFrom link.server c.turn (c.requests + 1) (aheadRequests stmt piggyback c.requests)) true c₀ ∨
      Undecoded stmt.columnReaders (link.server.answer (executeRequest stmt tx encoded) c.requests)
        (packetsFrom link.server c.turn (c.requests + 1) (aheadRequests stmt piggyback c.requests)) c₀) :
    Exact link 0 (c₀.markAll (List.range' (c.requests + 1)
        (aheadRequests stmt piggyback c.requests).length)) ∨
      Astray (c₀.markAll (List.range' (c.requests + 1)
        (aheadRequests stmt piggyback c.requests).length)) := by
  by_cases hp : Clean (c.pipeline link stmt tx encoded piggyback).log
  · refine Or.inl (exact_zero.mpr ⟨(clean_markAll _ c₀).mpr (hg.mpr hp), sync_of_executeFailed hp h⟩)
  · refine Or.inr ⟨fun h' => hp (hg.mp ((clean_markAll _ c₀).mp h')), ?_⟩
    rcases h with ho | ⟨hd, junk, hj, hs⟩
    · have hb := ahead_blocks (Bool.eq_false_iff.mpr fun hdr =>
        hp (clean_pipeline_of_drainable hc ho.decodes hdr))
      obtain ⟨p, hpm, hb⟩ := hb
      obtain ⟨pre, hq, -⟩ := ho.sync
      exact Off.markAll_of_blocks _ ⟨p, hq ▸ List.mem_append_right _ hpm, hb⟩
    · obtain ⟨pre, hq, hpre, -⟩ := hs
      cases hdr : drainable (aheadRequests stmt piggyback c.requests).length (packetsFrom link.server
          c.turn (c.requests + 1) (aheadRequests stmt piggyback c.requests)) with
      | false =>
        obtain ⟨p, hpm, hb⟩ := ahead_blocks hdr
        refine Off.markAll_of_blocks _ ⟨p, ?_, hb⟩
        rw [hq]
        exact List.mem_append_right _ (List.mem_append_right _ hpm)
      | true =>
        -- one response more than the client has marked
        refine Or.inl ?_
        obtain ⟨hq', hd', -⟩ := c₀.markAll_spec (List.range' (c.requests + 1)
          (aheadRequests stmt piggyback c.requests).length)
        rw [hq', hd', hq, replies_append, replies_append, hj, drainable_replies hpre,
          drainable_replies hdr, List.length_range']
        omega

section Undisturbed

variable (hu : link.Undisturbed)

include hu

theorem await_sync_of_undisturbed {l : List Packet} {c : Conn} (h : Sync l c) :
    Sync l (c.await link) := by
  simpa [Conn.await, hu c.awaits] using (h.congr rfl rfl rfl rfl : Sync l c.tick)

theorem exact_discipline :
    Discipline link (fun req => req.isPlain = true) (Exact link) fun _ => True where
  closeBlob := fun _ => rfl
  send := by
    rintro k c req hr ⟨hc, l, ho, hs⟩
    exact ⟨(clean_send_blobOp hr c).mpr hc, _, ho.send (isPlain_of_isBlobOp hr) _ _, hs.send false req⟩
  flush := fun k c ⟨hc, l, ho, hs⟩ => ⟨by simpa using hc, l, ho, hs.flush⟩
  await := fun k c ⟨hc, l, ho, hs⟩ =>
    ⟨((reads_sameClean hu).await c).mpr hc, l, ho, await_sync_of_undisturbed hu hs⟩
  inline := fun k c inline ⟨hc, l, ho, hs⟩ => ⟨hc, l, ho, hs.congr rfl rfl rfl rfl⟩
  read := by
    rintro k c ⟨hc, _, ⟨req, n, turn, l, hp, rfl, ho⟩, hs⟩
    have hr := reads_sameClean hu
    have hx : Async.Along SameClean (readResponse link) := along_readResponse
    refine Async.wp_mono (hx.with_wp (readResponse_plain (history_undisturbed hu) hp ho.readable
      fun _ => hs)) ?_ ?_ fun _ _ => trivial
    · exact fun a c' h' => ⟨h'.1.mpr hc, l, ho, (h'.2 trivial).2⟩
    · exact fun e c' h' => ⟨h'.1.mpr hc, l, ho, (h'.2 trivial).2⟩
  waiting := fun _ _ _ => trivial

theorem exact_execute {c : Conn} (h : Exact link 0 c) (stmt : PreparedStatementInfo) (tx : Nat)
    {values : List ParamValue} {encodeText : EncodeText} (piggyback : ExecutePiggyback)
    {encoded : Option EncodedParams} (he : encodeValues codec values encodeText = .ok encoded) :
    Async.wp (executeStatement link codec stmt tx values encodeText piggyback)
      ⟨fun a c' => a.pendingFetch = (piggybackedFetch stmt piggyback).isSome ∧
          a.pendingInfo = piggyback.recordCounts ∧
          Sync (packetsFrom link.server c.turn (c.requests + 1) (aheadRequests stmt piggyback c.requests)) c' ∧
          (Clean c'.log ↔ ∀ count, piggybackedFetch stmt piggyback = some count →
            (link.server.answer (.fetch stmt count (some c.requests)) (c.requests + 1)).decodes
              stmt.columnReaders = true),
        fun _ c' => (Exact link 0 c' ∨ Astray c') ∧
          (Clean c'.log ↔ PipelineTolerated link.server stmt tx encoded piggyback c.requests),
        fun _ => True⟩ c := by
  obtain ⟨hc, hs⟩ := exact_zero.mp h
  have hr := reads_sameClean hu
  refine Async.wp_mono (executeStatement_sync (history_undisturbed hu) (r := SameClean) (fun _ => hs) he)
    ?_ ?_ fun _ _ => trivial
  · rintro a c' ⟨hpf, hpi, hg, h'⟩
    obtain ⟨hd, ha, hs'⟩ := h' trivial
    refine ⟨hpf, hpi, hs', hg.trans (clean_pipeline_iff.trans ⟨fun h => ?_, fun h => ?_⟩)⟩
    · exact fun count hcount => (h.2.fetch count hcount).1
    · exact ⟨hc, hd, fun count hcount => ⟨h count hcount, ha⟩, fun _ hn => absurd (ha.symm.trans hn) (by simp)⟩
  · rintro e c' ⟨c₀, hg, rfl, h₀⟩
    refine ⟨exact_executeFailed hc hg (h₀ trivial), ?_⟩
    rw [clean_markAll]
    exact hg.trans (clean_pipeline_iff.trans ⟨fun h => h.2, fun h => ⟨hc, h⟩⟩)

theorem exact_readFetch {c : Conn} {stmt : PreparedStatementInfo} (fuel : Nat)
    (h : ExactFetch stmt c) :
    Async.wp (readFetchBatch link stmt fuel [])
      ⟨fun _ c' => SameClean c c' ∧ Exact link 0 c',
        fun _ c' => SameClean c c' ∧ (Exact link 0 c' ∨ Astray c'), fun _ => True⟩ c := by
  obtain ⟨n, turn, volunteers, rows, finish, hs, hd⟩ := h
  have hr := reads_sameClean hu
  have hx : Async.Along SameClean (readFetchBatch link stmt fuel []) := along_readFetchBatch stmt fuel []
  refine Async.wp_mono (hx.with_wp (readFetchBatch_sync (history_undisturbed hu) (Or.inl rfl) fuel []
    volunteers rows fun _ => (by simpa using hs))) ?_ ?_ fun _ _ => trivial
  · rintro b c' ⟨hg, h'⟩
    obtain ⟨hall, -, hs'⟩ := h' trivial
    exact ⟨hg, exact_zero.mpr ⟨(hg.trans hd).mpr hall, hs'⟩⟩
  · rintro e c' ⟨hg, h'⟩
    refine ⟨hg, ?_⟩
    rcases h' trivial with ⟨hall, -, hs'⟩ | ⟨hall, junk, ⟨p, hp, hb⟩, hs'⟩
    · exact Or.inl (exact_zero.mpr ⟨(hg.trans hd).mpr hall, hs'⟩)
    · refine Or.inr ⟨fun hc => ?_, Off.of_blocks hs' (List.mem_append_left _ hp) hb⟩
      exact absurd (hall.symm.trans ((hg.trans hd).mp hc)) (by simp)

omit hu in
theorem clean_sendFetch {c : Conn} {stmt : PreparedStatementInfo} {count : Nat} :
    Clean (c.send link false (.fetch stmt count none)).flush.log ↔ Clean c.log ∧
      (link.server.answer (.fetch stmt count none) c.requests).decodes stmt.columnReaders = true := by
  rw [Conn.flush_log]
  simp [Conn.send, Clean, Event.harmless, Request.tolerates, and_comm]

omit hu in
theorem exactFetch_send {c : Conn} (h : Exact link 0 c) (stmt : PreparedStatementInfo) (count : Nat) :
    ExactFetch stmt (c.send link false (.fetch stmt count none)).flush := by
  obtain ⟨hc, hs⟩ := exact_zero.mp h
  have hs' := (@Sync.send link _ _ hs false (.fetch stmt count none)).flush
  rw [List.nil_append, packets_fetch] at hs'
  refine ⟨_, _, _, _, _, hs', ?_⟩
  rw [clean_sendFetch]
  simp [hc, Server.answer, Answer.decodes]

theorem exact_cycle {c : Conn} (h : Exact link 0 c) (stmt : StmtHandle) (tx : Nat) (st : BatchState) :
    Async.wp (cycleWire link stmt tx st)
      ⟨fun _ => Exact link 0, fun _ c' => Exact link 0 c' ∨ Astray c', fun _ => True⟩ c := by
  obtain ⟨hc, hs⟩ := exact_zero.mp h
  have hr := reads_sameClean hu
  refine Async.wp_mono (Async.wp_and (cycleWire_sync (history_undisturbed hu) (fun _ => hs) stmt tx st)
    (cycleWire_along (r := SameClean) fun c n => clean_markAll [n] c)) ?_ ?_ fun _ _ => trivial
  · rintro a c' ⟨⟨-, h'⟩, hg⟩
    obtain ⟨hok, hs'⟩ := h' trivial
    exact exact_zero.mpr ⟨hg.mpr (clean_cycle_iff.mpr ⟨hc, hok⟩), hs'.2⟩
  · rintro e c' ⟨⟨c₀, ns, -, rfl, h₀⟩, hg⟩
    rcases h₀ trivial with ⟨hok, rfl, hs'⟩ | ⟨hok, junk, ⟨p, hp, hb⟩, hs'⟩
    · exact Or.inl (exact_zero.mpr ⟨hg.mpr (clean_cycle_iff.mpr ⟨hc, hok⟩), hs'⟩)
    · refine Or.inr ⟨fun hc' => ?_, ?_⟩
      · exact absurd (hok.symm.trans (clean_cycle_iff.mp (hg.mp hc')).2) (by simp)
      · obtain ⟨pre, hq, -⟩ := hs'
        exact Off.markAll_of_blocks ns ⟨p, hq ▸ List.mem_append_right _ hp, hb⟩

omit hu in
theorem settled_of_exact {c : Conn} (h : Exact link 0 c ∨ Astray c) :
    Settled link (fun req => req.isPlain = true) (Exact link) Astray c := h.imp Left.of_settled id

theorem exact_statementDiscipline :
    StatementDiscipline link codec (fun _ => True) (fun req => req.isPlain = true) (Exact link)
      ExactFetch Astray fun _ => True where
  toDiscipline := exact_discipline hu
  cursor := fun _ _ => rfl
  release := fun _ _ => rfl
  broken := fun c req hp ⟨hn, ho⟩ =>
    ⟨fun h' => hn ((clean_sendDeferred hp).mp h').1, ho.sendDeferred hp⟩
  sendFetch := fun c stmt count _ h => exactFetch_send h stmt count
  readFetch := fun c stmt fuel _ h => Async.wp_mono (exact_readFetch hu fuel h) (fun _ _ h => h.2)
    (fun _ _ h => settled_of_exact h.2) fun _ h => h
  execute := by
    intro c stmt tx values encodeText piggyback _ h hx
    cases he : encodeValues codec values encodeText with
    | error e => exact (wp_executeStatement_error he).mpr (settled_of_exact (Or.inl h))
    | ok encoded =>
    refine Async.wp_mono (exact_execute hu h stmt tx piggyback he) ?_
      (fun _ _ h => settled_of_exact h.1) fun _ h => h
    rintro a c' ⟨hpf, hpi, hs, hc⟩
    refine ⟨hpi, ?_⟩
    simp only [hpf, hpi]
    cases hf : piggybackedFetch stmt piggyback with
    | some count =>
      have hr : piggyback.recordCounts = false := by
        by_contra hn
        exact absurd (hx (by simpa using hn)) (by simp [hf])
      simp only [aheadRequests, hf, hr, Option.map_some, Option.toList_some, Bool.false_eq_true,
        ↓reduceIte, List.append_nil, packetsFrom, packets_fetch] at hs
      refine ⟨hr, _, _, _, _, _, hs, ?_⟩
      simpa [hf, Server.answer, Answer.decodes] using hc
    | none =>
      have hc' : Clean c'.log := hc.mpr fun _ hn => absurd (hf.symm.trans hn) (by simp)
      cases hr : piggyback.recordCounts with
      | false =>
        simp only [aheadRequests, hf, hr, Option.map_none, Option.toList_none, Bool.false_eq_true,
          ↓reduceIte, List.append_nil, packetsFrom] at hs
        exact ⟨hc', [], rfl, hs⟩
      | true =>
        simp only [aheadRequests, hf, hr, Option.map_none, Option.toList_none, ↓reduceIte,
          List.nil_append, packetsFrom, List.append_nil] at hs
        exact ⟨hc', _, Owed.one rfl _ _, hs⟩
  cycle := fun c stmt tx st _ h => Async.wp_mono (exact_cycle hu h stmt tx st) (fun _ _ h => h)
    (fun _ _ h => settled_of_exact h) fun _ h => h

end Undisturbed

end FastFirebird
