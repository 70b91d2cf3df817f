import FastFirebird.RoundTrip

/-! What allocate-and-prepare and an execute with its piggybacked requests leave on
a wire that was in step. -/
namespace FastFirebird

variable {link : Link} {codec : Codec}

/-- If the allocation is refused, the response to the prepare is left behind. -/
theorem allocateAndPrepare_sync {K : List Event → Prop} (hK : History link K) {c : Conn}
    (h : Guarded K [] c) (tx : Nat) (sql : String) :
    Async.wp (allocateAndPrepare link codec tx sql)
      ⟨fun info c' => K c'.log → Sync [] c' ∧ ∃ resp,
          link.server.reply (.allocateStatement c.dbHandle) c.requests = .ok resp ∧
            info.handle = ⟨resp.handle, c.requests⟩,
        fun _ c' => K c'.log →
          (∃ e, link.server.reply (.allocateStatement c.dbHandle) c.requests = .error e) ∧
            (c.send link false (.allocateStatement c.dbHandle)).log <:+ c'.log ∧
            Sync (link.server.packets (.prepareStatement tx sql) (c.requests + 1) c.turn) c' ∨
          (∃ resp, link.server.reply (.allocateStatement c.dbHandle) c.requests = .ok resp) ∧
            Sync [] c',
        fun c' => K c'.log → Fifo c'.log⟩ c := by
  simp only [allocateAndPrepare, Async.wp_bind, Async.wp_get, wp_send, wp_flush]
  have hs := ((Guarded.send hK h (.allocateStatement c.dbHandle)).send hK
    (.prepareStatement tx sql)).flush
  simp only [List.nil_append] at hs
  have hl : Readable (link.server.packets (.prepareStatement tx sql) (c.requests + 1) c.turn) := by
    simpa using readable_packets link.server (.prepareStatement tx sql) (c.requests + 1) c.turn []
  refine Async.wp_mono (with_history along_readResponse (readResponse_plain hK rfl hl hs)) ?_ ?_
    fun _ h => h.2
  · rintro resp c₁ ⟨-, h₁⟩
    have hprep : Guarded K (link.server.packets (.prepareStatement tx sql) (c.requests + 1) c.turn ++
        []) c₁ := fun hk => by simpa using (h₁ hk).2
    have h₂ := readResponse_plain hK rfl (Or.inl rfl) hprep
    simp only [Async.wp_bind]
    refine Async.wp_mono (with_history along_readResponse h₂) ?_ ?_ fun _ h => h.2
    · rintro prep c₂ ⟨hg, h₂⟩
      have hdone : ∀ info : PreparedStatementInfo, info.handle = ⟨resp.handle, c.requests⟩ →
          K c₂.log → Sync [] c₂ ∧ ∃ resp,
            link.server.reply (.allocateStatement c.dbHandle) c.requests = .ok resp ∧
              info.handle = ⟨resp.handle, c.requests⟩ := fun info hi hk =>
        ⟨(h₂ hk).2, resp, (h₁ (hK.of_suffix hg hk)).1, hi⟩
      have hlost : K c₂.log →
          (∃ resp, link.server.reply (.allocateStatement c.dbHandle) c.requests = .ok resp) ∧
            Sync [] c₂ := fun hk => ⟨⟨resp, (h₁ (hK.of_suffix hg hk)).1⟩, (h₂ hk).2⟩
      refine Async.wp_bind.mpr (Async.wp_lift (fun description _ => ?_) fun _ _ hk =>
        Or.inr (hlost hk))
      refine Async.wp_bind.mpr (Async.wp_lift (fun readers _ => ?_) fun _ _ hk =>
        Or.inr (hlost hk))
      exact Async.wp_bind.mpr (Async.wp_lift (fun blr _ => hdone _ rfl) fun _ _ hk =>
        Or.inr (hlost hk))
    · rintro e c₂ ⟨hg, h₂⟩ hk
      exact Or.inr ⟨⟨resp, (h₁ (hK.of_suffix hg hk)).1⟩, (h₂ hk).2⟩
  · rintro e c₁ ⟨hg, h₁⟩ hk
    rw [Conn.flush_log] at hg
    exact Or.inl ⟨⟨e, (h₁ hk).1⟩, (List.suffix_cons _ _).trans hg, (h₁ hk).2⟩

theorem along_readRow {r : Conn → Conn → Prop} [hr : Reads link r] (readers : List ColumnReader) :
    Async.Along r (readRow link readers) := by
  intro c
  have hc : r c (c.await link) := hr.await c
  unfold readRow
  dsimp only
  split
  · exact hc
  · split
    · split <;> exact hr.trans hc (hr.inbound _ _)
    · exact hc

/-- A row that does not decode leaves the cells behind the one that threw. -/
theorem readRow_sync {K : List Event → Prop} (hK : History link K) {c : Conn}
    {readers : List ColumnReader} {cells : RowAnswer} {n turn : Nat} {l : List Packet}
    (h : GuardedFront K (⟨n, turn, .row (rowCells readers.length cells)⟩ :: l) c) :
    Async.wp (readRow link readers)
      ⟨fun _ c' => K c'.log → decodes readers cells = true ∧ Front l c',
        fun _ c' => K c'.log → decodes readers cells = false ∧
          ∃ rest, replies rest = 0 ∧ Front (rest ++ l) c',
        fun c' => K c'.log → Fifo c'.log⟩ c := by
  have hf : GuardedFront K (⟨n, turn, .row (rowCells readers.length cells)⟩ :: l) (c.await link) :=
    fun hk => hK.front _ c (h (hK.of_suffix (Conn.await_extends c) hk)) rfl hk
  unfold Async.wp readRow
  dsimp only
  split
  · exact fun hk => (hf hk).2.2.2
  · rename_i p ps hin
    have hp : K (c.await link).log → p = ⟨n, turn, .row (rowCells readers.length cells)⟩ ∧
        Front l { c.await link with inbound := ps } := fun hk => by
      obtain ⟨hq, hd, ht, hfifo⟩ := hf hk
      rw [hin, List.cons_append] at hq
      obtain ⟨rfl, hps⟩ := List.cons.inj hq
      exact ⟨rfl, hps, hd, fun p hp => ht p (List.mem_cons_of_mem _ hp), hfifo⟩
    split
    · rename_i cs hb
      split
      · rename_i row hrow
        intro hk
        obtain ⟨rfl, hl⟩ := hp hk
        obtain rfl := Body.row.inj hb
        exact ⟨by simp [decodes, hrow], hl⟩
      · rename_i e rest hrow
        intro hk
        obtain ⟨rfl, hq, hd, ht, hfifo⟩ := hp hk
        obtain rfl := Body.row.inj hb
        refine ⟨by simp [decodes, hrow],
          Packet.rest ⟨n, turn, .row (rowCells readers.length cells)⟩ rest, ?_, ?_, hd, ?_, hfifo⟩
        · unfold Packet.rest
          split <;> rfl
        · simp only [List.append_assoc, hq]
        · intro p hp
          rcases List.mem_append.mp hp with hp | hp
          · unfold Packet.rest at hp
            split at hp
            · obtain rfl := List.mem_singleton.mp hp
              exact (hf hk).2.2.1 ⟨n, turn, .row (rowCells readers.length cells)⟩ List.mem_cons_self
            · exact absurd hp List.not_mem_nil
          · exact ht p hp
    · rename_i hb
      exact fun hk => absurd (congrArg Packet.body (hp hk).1) (hb _)

theorem packets_singleton {server : Server} {stmt : PreparedStatementInfo} {tx : Nat}
    {params : Option EncodedParams} (n turn : Nat) :
    server.packets (.execute2 stmt tx params) n turn =
      match server.singleton (.execute2 stmt tx params) n with
      | .plain r => stamp n turn ((server.volunteers n 0).map .volunteer) ++ [⟨n, turn, .response r⟩]
      | .row none final =>
        stamp n turn ((server.volunteers n 0).map .volunteer) ++ ⟨n, turn, .sqlResponse 0⟩ ::
          (stamp n turn ((server.volunteers n 1).map .volunteer) ++ [⟨n, turn, .response final⟩])
      | .row (some cells) final =>
        stamp n turn ((server.volunteers n 0).map .volunteer) ++ ⟨n, turn, .sqlResponse 1⟩ ::
          ⟨n, turn, .row (rowCells stmt.columnReaders.length cells)⟩ ::
          (stamp n turn ((server.volunteers n 1).map .volunteer) ++ [⟨n, turn, .response final⟩]) := by
  unfold Server.packets Server.answer
  simp only [Request.columns]
  split <;> simp [Answer.messages, interleave, stamp, *]

/-- What an execute's answer makes of the rest of the pipeline `l`. -/
structure ExecuteOutcome (readers : List ColumnReader) (answer : Answer)
    (l : List Packet) (refused : Bool) (c : Conn) : Prop where
  decodes : answer.decodes readers = true
  refused : answer.refused = refused
  sync : Sync l c

/-- The row of the answer threw: its `op_response` is left on the wire. -/
def Undecoded (readers : List ColumnReader) (answer : Answer) (l : List Packet) (c : Conn) : Prop :=
  answer.decodes readers = false ∧ ∃ junk, replies junk = 1 ∧ Sync (junk ++ l) c

/-- The closing response of an `op_execute2`. -/
theorem readFinal_sync {K : List Event → Prop} (hK : History link K) {c : Conn}
    (readers : List ColumnReader) (cells : Option RowAnswer) (row : Option Row) {n turn : Nat}
    {vs : List Volunteer} {final : Reply} {l : List Packet} (hl : Readable l)
    (h : Guarded K (stamp n turn (vs.map .volunteer) ++ ⟨n, turn, .response final⟩ :: l) c)
    (hd : K c.log → (Answer.singleton (.row cells final)).decodes readers = true) :
    Async.wp (do let _ ← readResponse link; pure row : M (Option Row))
      ⟨fun _ c' => K c'.log → ExecuteOutcome readers (.singleton (.row cells final)) l false c',
        fun _ c' => K c'.log → ExecuteOutcome readers (.singleton (.row cells final)) l true c',
        fun c' => K c'.log → Fifo c'.log⟩ c := by
  have hr := with_history along_readResponse (readResponse_sync hK stamp_volunteered hl h)
  refine Async.wp_bind.mpr (Async.wp_mono hr ?_ ?_ fun _ h => h.2)
  · rintro a c₁ ⟨hg, h₁⟩ hk
    exact ⟨hd (hK.of_suffix hg hk), by simp [(h₁ hk).1, Answer.refused, Reply.isOk], (h₁ hk).2⟩
  · rintro e c₁ ⟨hg, h₁⟩ hk
    exact ⟨hd (hK.of_suffix hg hk), by simp [(h₁ hk).1, Answer.refused, Reply.isOk], (h₁ hk).2⟩

theorem along_readProcRow {r : Conn → Conn → Prop} [Reads link r] (readers : List ColumnReader)
    (count : Nat) : Async.Along r (readProcRow link readers count) := by
  unfold readProcRow
  split
  · exact (along_readRow readers).bind fun row => .pure (some row)
  · exact .pure none

theorem along_readSqlResponse {r : Conn → Conn → Prop} [Reads link r]
    (stmt : PreparedStatementInfo) (p : Packet) : Async.Along r (readSqlResponse link stmt p) := by
  unfold readSqlResponse
  split
  · exact along_await.bind fun _ => (along_readProcRow _ _).bind fun row =>
      along_readResponse.bind fun _ => .pure row
  · exact (along_parseResponseBody _).bind fun _ => .pure none
  · exact @along_unexpectedOp link r _ _ p

/-- The rest of an `op_sql_response`, behind its count. -/
theorem readProcRow_sync {K : List Event → Prop} (hK : History link K) {c : Conn}
    {readers : List ColumnReader} {n turn : Nat} {vs : List Volunteer} {final : Reply}
    {cells : Option RowAnswer} {l : List Packet} (hl : Readable l)
    (h : GuardedFront K ((cells.map fun cells => ⟨n, turn, .row (rowCells readers.length cells)⟩).toList ++
      (stamp n turn (vs.map .volunteer) ++ ⟨n, turn, .response final⟩ :: l)) c) :
    Async.wp (do
        let row ← readProcRow link readers cells.toList.length
        let _ ← readResponse link
        pure row)
      ⟨fun _ c' => K c'.log → ExecuteOutcome readers (.singleton (.row cells final)) l false c',
        fun _ c' => K c'.log →
          ExecuteOutcome readers (.singleton (.row cells final)) l true c' ∨
          Undecoded readers (.singleton (.row cells final)) l c',
        fun c' => K c'.log → Fifo c'.log⟩ c := by
  rw [Async.wp_bind]
  cases cells with
  | none =>
    simp only [readProcRow, Option.toList_none, List.length_nil, Nat.lt_irrefl, ↓reduceIte,
      Async.wp_pure]
    refine Async.wp_mono (readFinal_sync hK readers none none hl h.guarded fun _ => rfl) ?_ ?_ ?_
    · exact fun _ _ h => h
    · exact fun _ _ h hk => Or.inl (h hk)
    · exact fun _ h => h
  | some cells =>
    have hr : Async.wp (readProcRow link readers 1)
        ⟨fun _ c' => K c'.log → decodes readers cells = true ∧
            Front (stamp n turn (vs.map .volunteer) ++ ⟨n, turn, .response final⟩ :: l) c',
          fun _ c' => K c'.log → Undecoded readers (.singleton (.row (some cells) final)) l c',
          fun c' => K c'.log → Fifo c'.log⟩ c := by
      refine Async.wp_bind.mpr (Async.wp_mono (readRow_sync hK h) ?_ ?_ fun _ h => h)
      · exact fun _ _ h => h
      · intro e c₁ h₁ hk
        obtain ⟨hd, rest, hrest, hf⟩ := h₁ hk
        refine ⟨hd, rest ++ stamp n turn (vs.map .volunteer) ++ [⟨n, turn, .response final⟩], ?_, ?_⟩
        · have hv : replies (stamp n turn (vs.map .volunteer)) = 0 :=
            drainable_replies (by
              rw [← List.append_nil (stamp n turn _), drainable_volunteered stamp_volunteered]
              rfl)
          simp only [replies_append, hrest, hv]
          rfl
        · simpa using hf.sync
    refine Async.wp_mono hr ?_ (fun _ _ h hk => Or.inr (h hk)) fun _ h => h
    intro row c₁ h₁
    have hs : Guarded K (stamp n turn (vs.map .volunteer) ++ ⟨n, turn, .response final⟩ :: l) c₁ :=
      fun hk => (h₁ hk).2.sync
    refine Async.wp_mono (readFinal_sync hK readers (some cells) row hl hs fun hk => (h₁ hk).1) ?_ ?_ ?_
    · exact fun _ _ h => h
    · exact fun _ _ h hk => Or.inl (h hk)
    · exact fun _ h => h

theorem readExecuteResponse_sync {K : List Event → Prop} (hK : History link K) {c : Conn}
    {stmt : PreparedStatementInfo} {tx : Nat} {params : Option EncodedParams} {n turn : Nat}
    {l : List Packet} (hl : Readable l)
    (h : Guarded K (link.server.packets (executeRequest stmt tx params) n turn ++ l) c) :
    Async.wp (readExecuteResponse link stmt)
      ⟨fun _ c' => K c'.log → ExecuteOutcome stmt.columnReaders
          (link.server.answer (executeRequest stmt tx params) n) l false c',
        fun _ c' => K c'.log → ExecuteOutcome stmt.columnReaders
            (link.server.answer (executeRequest stmt tx params) n) l true c' ∨
          Undecoded stmt.columnReaders (link.server.answer (executeRequest stmt tx params) n) l c',
        fun c' => K c'.log → Fifo c'.log⟩ c := by
  unfold readExecuteResponse
  by_cases hu : usesExecute2 stmt.description
  · simp only [executeRequest, hu, ↓reduceIte] at h ⊢
    rw [packets_singleton] at h
    refine Async.wp_bind.mpr ?_
    cases ha : link.server.singleton (.execute2 stmt tx params) n with
    | plain r =>
      simp only [ha, List.append_assoc, List.cons_append, List.nil_append] at h
      refine Async.wp_mono (readOp_sync hK stamp_volunteered (by simp [Packet.IsOp]) h) ?_
        (fun _ _ h hk => absurd hk h) fun _ h => h
      intro p c₁ h₁
      by_cases hk : K c₁.log
      · obtain ⟨rfl, hf⟩ := h₁ hk
        refine Async.wp_bind.mpr (Async.wp_mono (parseResponseBody_sync hK hl
          fun _ => hf.sync) ?_ ?_ fun _ h => h.elim)
        · rintro a c₂ ⟨rfl, h₂⟩ hk₂
          exact ⟨by simp [Server.answer, ha, Answer.decodes],
            by simp [Server.answer, ha, Answer.refused, Reply.isOk], h₂ hk₂⟩
        · rintro e c₂ ⟨rfl, h₂⟩ hk₂
          exact Or.inl ⟨by simp [Server.answer, ha, Answer.decodes],
            by simp [Server.answer, ha, Answer.refused, Reply.isOk], h₂ hk₂⟩
      · exact hK.wp_of_not (along_readSqlResponse stmt p) hk (fun _ _ hn hk => absurd hk hn)
          (fun _ _ hn hk => absurd hk hn) fun _ hn hk => absurd hk hn
    | row cells final =>
      have h' : Guarded K (stamp n turn ((link.server.volunteers n 0).map .volunteer) ++
          ⟨n, turn, .sqlResponse cells.toList.length⟩ ::
          ((cells.map fun cells => ⟨n, turn, .row (rowCells stmt.columnReaders.length cells)⟩).toList ++
          (stamp n turn ((link.server.volunteers n 1).map .volunteer) ++
            ⟨n, turn, .response final⟩ :: l))) c := by
        cases cells <;> simpa [ha] using h
      refine Async.wp_mono (readOp_sync hK stamp_volunteered (by simp [Packet.IsOp]) h') ?_
        (fun _ _ h hk => absurd hk h) fun _ h => h
      intro p c₁ h₁
      by_cases hk : K c₁.log
      · obtain ⟨rfl, hf⟩ := h₁ hk
        have hd : drainable 0
            ((cells.map fun cells => ⟨n, turn, .row (rowCells stmt.columnReaders.length cells)⟩).toList ++
              (stamp n turn ((link.server.volunteers n 1).map .volunteer) ++
                ⟨n, turn, .response final⟩ :: l)) = false := by
          cases cells with
          | none => exact not_drainable_zero_of_op stamp_volunteered (by simp [Packet.IsOp])
          | some cells => rfl
        have hrow := readProcRow_sync hK hl fun hk₂ => hK.front _ c₁ hf hd hk₂
        simp only [Server.answer, ha]
        exact hrow
      · exact hK.wp_of_not (along_readSqlResponse stmt p) hk (fun _ _ hn hk => absurd hk hn)
          (fun _ _ hn hk => absurd hk hn) fun _ hn hk => absurd hk hn
  · simp only [executeRequest, hu, Bool.false_eq_true, ↓reduceIte] at h ⊢
    refine Async.wp_bind.mpr (Async.wp_mono (readResponse_plain hK rfl hl h) ?_ ?_ fun _ h => h)
    · intro a c₁ h₁ hk
      exact ⟨rfl, by simp [Server.answer, (h₁ hk).1, Answer.refused, Reply.isOk], (h₁ hk).2⟩
    · intro e c₁ h₁ hk
      exact Or.inl ⟨rfl, by simp [Server.answer, (h₁ hk).1, Answer.refused, Reply.isOk], (h₁ hk).2⟩

/-- What rides behind an execute that is request `n`. -/
def aheadRequests (stmt : PreparedStatementInfo) (piggyback : ExecutePiggyback) (n : Nat) :
    List Request :=
  ((piggybackedFetch stmt piggyback).map fun count => .fetch stmt count (some n)).toList ++
    if piggyback.recordCounts then [.infoSql stmt.handle (some n)] else []

theorem wp_awaitExecute {stmt : PreparedStatementInfo} {fetchReq infoReq : Option Nat} {c : Conn}
    {Q : Async.Post Conn FirebirdError ExecuteResult} :
    Async.wp (awaitExecute link stmt fetchReq infoReq) Q c ↔
      Async.wp (readExecuteResponse link stmt)
        ⟨fun procRow => Q.ok ⟨procRow, fetchReq.isSome, infoReq.isSome⟩,
          fun e c' => Q.error e (c'.markAll (fetchReq.toList ++ infoReq.toList)), Q.pending⟩ c := by
  unfold awaitExecute
  rw [Async.wp_bind, Async.wp_handle]
  cases fetchReq <;> cases infoReq <;> exact Iff.rfl

/-- `executeStatement` once its parameters are encoded: the pipeline goes out in one
flush, and if the execute fails what rode behind it is marked deferred. -/
theorem wp_executeStatement {stmt : PreparedStatementInfo} {tx : Nat} {values : List ParamValue}
    {encodeText : EncodeText} {piggyback : ExecutePiggyback} {encoded : Option EncodedParams} {c : Conn}
    (he : encodeValues codec values encodeText = .ok encoded)
    {Q : Async.Post Conn FirebirdError ExecuteResult} :
    Async.wp (executeStatement link codec stmt tx values encodeText piggyback) Q c ↔
      Async.wp (readExecuteResponse link stmt)
        ⟨fun procRow => Q.ok ⟨procRow, (piggybackedFetch stmt piggyback).isSome,
            piggyback.recordCounts⟩,
          fun e c' => Q.error e (c'.markAll
            (List.range' (c.requests + 1) (aheadRequests stmt piggyback c.requests).length)),
          Q.pending⟩
        (((c.send link false (executeRequest stmt tx encoded)).sendAll link
          (aheadRequests stmt piggyback c.requests)).flush) := by
  unfold executeStatement
  rw [he]
  obtain ⟨fetchSize, _ | _⟩ := piggyback <;>
    cases hf : piggybackedFetch stmt ⟨fetchSize, _⟩ <;>
      simp only [hf, aheadRequests, Bool.false_eq_true, ↓reduceIte] <;> exact wp_awaitExecute

/-- The answer to a fetch is never a successful response. -/
theorem fetch_blocks {server : Server} {stmt : PreparedStatementInfo} {count : Nat}
    {behind : Option Nat} (n turn : Nat) :
    ∃ p ∈ server.packets (.fetch stmt count behind) n turn, p.blocks := by
  have hfinish : ∃ body, (server.fetch (.fetch stmt count behind) n).finish.message = [body] ∧
      (⟨n, turn, body⟩ : Packet).blocks := by
    cases (server.fetch (.fetch stmt count behind) n).finish <;>
      exact ⟨_, rfl, by simp, by simp⟩
  obtain ⟨body, hm, hb⟩ := hfinish
  refine ⟨⟨n, turn, body⟩, List.mem_map.mpr ⟨body, ?_, rfl⟩, hb⟩
  refine mem_interleave (List.mem_append_right _ (List.mem_singleton.mpr rfl)) ?_
  simp [hm]

/-- What rode behind a refused execute can be left to the drain if, and only if,
there was no fetch, and the info request was not refused. -/
theorem drainable_ahead_iff {server : Server} {stmt : PreparedStatementInfo}
    {piggyback : ExecutePiggyback} {n turn : Nat} :
    drainable (aheadRequests stmt piggyback n).length
        (packetsFrom server turn (n + 1) (aheadRequests stmt piggyback n)) = true ↔
      piggybackedFetch stmt piggyback = none ∧
        (piggyback.recordCounts = true →
          (server.reply (.infoSql stmt.handle (some n)) (n + 1)).isOk = true) := by
  unfold aheadRequests
  cases hf : piggybackedFetch stmt piggyback with
  | none =>
    cases hr : piggyback.recordCounts with
    | false => simp [packetsFrom, drainable]
    | true =>
      have hd := @drainable_packets_plain server (.infoSql stmt.handle (some n)) rfl (n + 1) turn
      simp [packetsFrom, hd]
  | some count =>
    obtain ⟨p, hp, hb⟩ := @fetch_blocks server stmt count (some n) (n + 1) turn
    refine ⟨fun h => ?_, fun h => absurd h.1 (by simp)⟩
    have hd := h.symm.trans (not_drainable_of_blocks (List.mem_append_left _ hp) hb _)
    exact absurd hd (by simp)

/-- The connection once the pipeline of an execute is on its way. -/
def Conn.pipeline (link : Link) (stmt : PreparedStatementInfo) (tx : Nat)
    (encoded : Option EncodedParams) (piggyback : ExecutePiggyback) (c : Conn) : Conn :=
  ((c.send link false (executeRequest stmt tx encoded)).sendAll link
    (aheadRequests stmt piggyback c.requests)).flush

theorem Guarded.pipeline {K : List Event → Prop} (hK : History link K) {c : Conn}
    (h : Guarded K [] c) (stmt : PreparedStatementInfo) (tx : Nat) (encoded : Option EncodedParams)
    (piggyback : ExecutePiggyback) :
    Guarded K (link.server.packets (executeRequest stmt tx encoded) c.requests c.turn ++
      packetsFrom link.server c.turn (c.requests + 1) (aheadRequests stmt piggyback c.requests))
      (c.pipeline link stmt tx encoded piggyback) :=
  ((h.send hK (executeRequest stmt tx encoded)).sendAll hK
    (aheadRequests stmt piggyback c.requests)).flush

theorem along_readExecuteResponse {r : Conn → Conn → Prop} [Reads link r]
    (stmt : PreparedStatementInfo) : Async.Along r (readExecuteResponse link stmt) := by
  unfold readExecuteResponse
  split
  · exact along_readOp.bind fun p => along_readSqlResponse stmt p
  · exact along_readResponse.bind fun _ => .pure none

theorem wp_executeStatement_error {stmt : PreparedStatementInfo} {tx : Nat} {values : List ParamValue}
    {encodeText : EncodeText} {piggyback : ExecutePiggyback} {e : FirebirdError} {c : Conn}
    (he : encodeValues codec values encodeText = .error e)
    {Q : Async.Post Conn FirebirdError ExecuteResult} :
    Async.wp (executeStatement link codec stmt tx values encodeText piggyback) Q c ↔ Q.error e c := by
  unfold executeStatement
  rw [he]
  exact Iff.rfl

/-- An execute that was accepted hands over what rode behind it; one that failed
has marked it deferred. -/
theorem executeStatement_sync {K : List Event → Prop} (hK : History link K)
    {r : Conn → Conn → Prop} [Reads link r] {c : Conn} (h : Guarded K [] c)
    {stmt : PreparedStatementInfo} {tx : Nat} {values : List ParamValue} {encodeText : EncodeText}
    {piggyback : ExecutePiggyback} {encoded : Option EncodedParams}
    (he : encodeValues codec values encodeText = .ok encoded) :
    Async.wp (executeStatement link codec stmt tx values encodeText piggyback)
      ⟨fun a c' => a.pendingFetch = (piggybackedFetch stmt piggyback).isSome ∧
          a.pendingInfo = piggyback.recordCounts ∧
          r (c.pipeline link stmt tx encoded piggyback) c' ∧
          (K c'.log → ExecuteOutcome stmt.columnReaders
            (link.server.answer (executeRequest stmt tx encoded) c.requests)
            (packetsFrom link.server c.turn (c.requests + 1)
              (aheadRequests stmt piggyback c.requests)) false c'),
        fun _ c' => ∃ c₀, r (c.pipeline link stmt tx encoded piggyback) c₀ ∧
          c' = c₀.markAll (List.range' (c.requests + 1)
            (aheadRequests stmt piggyback c.requests).length) ∧
          (K c₀.log →
            ExecuteOutcome stmt.columnReaders
              (link.server.answer (executeRequest stmt tx encoded) c.requests)
              (packetsFrom link.server c.turn (c.requests + 1)
                (aheadRequests stmt piggyback c.requests)) true c₀ ∨
            Undecoded stmt.columnReaders
              (link.server.answer (executeRequest stmt tx encoded) c.requests)
              (packetsFrom link.server c.turn (c.requests + 1)
                (aheadRequests stmt piggyback c.requests)) c₀),
        fun c' => K c'.log → Fifo c'.log⟩ c := by
  rw [wp_executeStatement he]
  have hx : Async.Along r (readExecuteResponse link stmt) := along_readExecuteResponse stmt
  have hr := hx.with_wp (readExecuteResponse_sync hK (readable_packetsFrom _ _ _ _)
    (h.pipeline hK stmt tx encoded piggyback))
  refine Async.wp_mono hr ?_ ?_ fun _ h => h.2
  · rintro row c' ⟨hg, h'⟩
    exact ⟨rfl, rfl, hg, h'⟩
  · rintro e c₀ ⟨hg, h₀⟩
    exact ⟨c₀, hg, rfl, h₀⟩

end FastFirebird
