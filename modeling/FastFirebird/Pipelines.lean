import FastFirebird.Exact

/-! When the pipelined statement operations and the batch cycles leave the wire in
step. -/
namespace FastFirebird

variable {link : Link} {codec : Codec} {opts : Options}

/-- A server that answers as `reply` says: without rows, without volunteering. -/
def bareServer (reply : Request → Nat → Reply) : Server where
  reply := reply
  singleton := fun req n => .plain (reply req n)
  fetch := fun req n =>
    match reply req n with
    | .ok _ => ⟨[], .eof⟩
    | .error e => ⟨[], .error e⟩
  batchExec := fun req n =>
    match reply req n with
    | .ok _ => .completed ⟨1, [1], []⟩
    | .error e => .refused e
  volunteers := fun _ _ => []

/-- Client functions that never throw. -/
def plainCodec : Codec where
  parseDescribe := fun _ => .ok ⟨.select, [], []⟩
  makeColumnReader := fun _ => .ok fun data => .ok (.scalar data)
  textColumnReader := fun _ => .ok fun data => .ok (.scalar data)
  buildOutputBlr := fun _ => .ok []
  parseRecordCounts := fun _ => .ok 1
  encodeParams := fun _ _ => .ok ⟨[], []⟩
  blobDecoder := fun _ => .ok .ok
  blobEncoder := fun _ => .ok fun _ => .ok []
  textEncoder := fun _ => .ok fun _ => .ok []
  utf8 := fun _ => []
  coerceParam := fun _ v => .ok v
  lowerCase := id
  normalizeParams := fun sql _ => .ok (sql, [])
  expandStarSql := fun _ _ _ => .ok none
  rewriteNamedParams := fun sql => (sql, [])
  bindBatchRow := fun row _ _ =>
    match row with
    | .positional values => .ok values
    | .named values => .ok (values.map (·.2))
  buildBatchFormat := fun _ => .ok ⟨8, []⟩
  encodeBatchRow := fun _ _ _ => .ok []

/-- A connection to `bareServer reply` that the pool leaves alone. -/
def bareLink (reply : Request → Nat → Reply) : Link := ⟨bareServer reply, fun _ => false⟩

/-- A fresh connection. -/
def fresh : Conn := {}

theorem sync_fresh : Sync [] fresh :=
  ⟨[], rfl, rfl, by simp, by simp, trivial⟩

/-- However the call settles, it leaves the connection as `P` says. -/
def Settles {α : Type} (x : M α) (c : Conn) (P : Conn → Prop) : Prop :=
  Async.wp x ⟨fun _ => P, fun _ => P, fun _ => True⟩ c

theorem Settles.mono {α : Type} {x : M α} {c : Conn} {P Q : Conn → Prop} (h : Settles x c P)
    (hpq : ∀ c', P c' → Q c') : Settles x c Q :=
  Async.wp_mono h (fun _ c' h => hpq c' h) (fun _ c' h => hpq c' h) fun _ h => h

theorem allocateAndPrepare_settles (hu : link.Undisturbed) {c : Conn} (hs : Sync [] c) (tx : Nat)
    (sql : String) :
    Settles (allocateAndPrepare link codec tx sql) c fun c' =>
      Sync [] c' ↔ (link.server.reply (.allocateStatement c.dbHandle) c.requests).isOk = true := by
  refine Async.wp_mono (allocateAndPrepare_sync (history_undisturbed hu) (fun _ => hs) tx sql) ?_ ?_
    fun _ _ => trivial
  · intro info c' h
    obtain ⟨hs', resp, hr, -⟩ := h trivial
    exact iff_of_true hs' (by simp [hr, Reply.isOk])
  · intro e c' h
    rcases h trivial with ⟨⟨e', hr⟩, -, hs'⟩ | ⟨⟨resp, hr⟩, hs'⟩
    · refine iff_of_false (Off.not_sync (Off.of_replies hs' ?_)) (by simp [hr, Reply.isOk])
      rw [replies_packets_plain rfl]
      exact Nat.one_pos
    · exact iff_of_true hs' (by simp [hr, Reply.isOk])

theorem executeStatement_settles (hu : link.Undisturbed) {c : Conn} (hs : Sync [] c)
    (hc : Clean c.log) (stmt : PreparedStatementInfo) (tx : Nat) (values : List ParamValue)
    (encodeText : EncodeText) (piggyback : ExecutePiggyback) :
    Async.wp (executeStatement link codec stmt tx values encodeText piggyback)
      ⟨fun a c' => a.pendingFetch = (piggybackedFetch stmt piggyback).isSome ∧
          a.pendingInfo = piggyback.recordCounts ∧
          Sync (packetsFrom link.server c.turn (c.requests + 1)
            (aheadRequests stmt piggyback c.requests)) c',
        fun _ c' => Sync [] c' ↔ ∀ encoded, encodeValues codec values encodeText = .ok encoded →
          PipelineTolerated link.server stmt tx encoded piggyback c.requests,
        fun _ => True⟩ c := by
  have hx : Exact link 0 c := exact_zero.mpr ⟨hc, hs⟩
  cases he : encodeValues codec values encodeText with
  | error e => exact (wp_executeStatement_error he).mpr (iff_of_true hs (by simp))
  | ok encoded =>
    refine Async.wp_mono (exact_execute hu hx stmt tx piggyback he) ?_ ?_ fun _ _ => trivial
    · exact fun a c' h => ⟨h.1, h.2.1, h.2.2.1⟩
    · exact fun e c' ⟨h, ht⟩ => (sync_iff_clean h).trans (ht.trans (by simp))

/-- A fetch answer, piggybacked or not, is read to its end unless one of its rows throws. -/
theorem readFetchBatch_settles (hu : link.Undisturbed) {c : Conn} {stmt : PreparedStatementInfo}
    {count : Nat} {behind : Option Nat} {n turn : Nat}
    (hs : Sync (link.server.packets (.fetch stmt count behind) n turn) c) (fuel : Nat) :
    Settles (readFetchBatch link stmt fuel []) c fun c' => Sync [] c' ↔
      (link.server.answer (.fetch stmt count behind) n).decodes stmt.columnReaders = true := by
  have hr := readFetchBatch_sync (history_undisturbed hu) (Or.inl rfl) fuel [] _ _
    fun _ => (by simpa [packets_fetch] using hs)
  refine Async.wp_mono hr ?_ ?_ fun _ _ => trivial
  · exact fun b c' h => iff_of_true (h trivial).2.2 (h trivial).1
  · intro e c' h
    rcases h trivial with ⟨hd, -, hs'⟩ | ⟨hd, junk, ⟨p, hp, hb⟩, hs'⟩
    · exact iff_of_true hs' hd
    · refine iff_of_false (Off.not_sync (Off.of_blocks hs' (List.mem_append_left _ hp) hb)) ?_
      exact fun h' => absurd (hd.symm.trans h') (by simp)

theorem executePrepared_settles (hu : link.Undisturbed) {c : Conn} (hs : Sync [] c) (hc : Clean c.log)
    (fuel tx : Nat) (info : PreparedStatementInfo) (params : List ParamValue)
    (closeCursorAfter : Bool) (query : QueryOptions) :
    Settles (executePrepared link codec opts fuel tx info params closeCursorAfter query) c fun c' =>
      Sync [] c' ↔ Clean c'.log :=
  Async.wp_mono ((exact_statementDiscipline hu).executePrepared_triple fuel tx trivial params
      closeCursorAfter query c (exact_zero.mpr ⟨hc, hs⟩))
    (fun _ _ h => sync_iff_clean (exact_or_astray_of_settled h))
    (fun _ _ h => sync_iff_clean (exact_or_astray_of_settled h)) fun _ h => h

/-- Also while the pool clears caches, a clean history leaves the wire in step. -/
theorem allocateAndPrepare_clean {c : Conn} (hs : Sync [] c) (tx : Nat) (sql : String) :
    Settles (allocateAndPrepare link codec tx sql) c fun c' => Clean c'.log → Sync [] c' := by
  refine Async.wp_mono (allocateAndPrepare_sync (@history_clean link) (fun _ => hs) tx sql) ?_ ?_
    fun _ _ => trivial
  · exact fun info c' h hc => (h hc).1
  · intro e c' h hc
    rcases h hc with ⟨⟨e', hr⟩, hg, -⟩ | ⟨-, hs'⟩
    · have hh := hc.harmless_of_suffix hg
      simp [Event.harmless, Request.tolerates, Server.answer, Answer.refused, hr, Reply.isOk] at hh
    · exact hs'

theorem executeStatement_clean {c : Conn} (hs : Sync [] c) (stmt : PreparedStatementInfo) (tx : Nat)
    (values : List ParamValue) (encodeText : EncodeText) (piggyback : ExecutePiggyback) :
    Async.wp (executeStatement link codec stmt tx values encodeText piggyback)
      ⟨fun _ c' => Clean c'.log → Sync (packetsFrom link.server c.turn (c.requests + 1)
          (aheadRequests stmt piggyback c.requests)) c',
        fun _ c' => Clean c'.log → Sync [] c', fun _ => True⟩ c := by
  cases he : encodeValues codec values encodeText with
  | error e => exact (wp_executeStatement_error he).mpr fun _ => hs
  | ok encoded =>
    refine Async.wp_mono (executeStatement_sync (@history_clean link) (r := Extends) (fun _ => hs) he)
      ?_ ?_ fun _ _ => trivial
    · exact fun a c' h hc => (h.2.2.2 hc).sync
    · rintro e c' ⟨c₀, hg, rfl, h₀⟩ hc
      have hc₀ := (clean_markAll _ c₀).mp hc
      exact sync_of_executeFailed (hc₀.of_suffix hg) (h₀ hc₀)

theorem readFetchBatch_clean {c : Conn} {stmt : PreparedStatementInfo} {count : Nat}
    {behind : Option Nat} {n turn : Nat}
    (hs : Sync (link.server.packets (.fetch stmt count behind) n turn) c)
    (hd : (link.server.answer (.fetch stmt count behind) n).decodes stmt.columnReaders = true)
    (fuel : Nat) :
    Settles (readFetchBatch link stmt fuel []) c fun c' => Clean c'.log → Sync [] c' := by
  have hr := readFetchBatch_sync (@history_clean link) (Or.inl rfl) fuel [] _ _
    fun _ => (by simpa [packets_fetch] using hs)
  refine Async.wp_mono hr ?_ ?_ fun _ _ => trivial
  · exact fun b c' h hc => (h hc).2.2
  · intro e c' h hc
    rcases h hc with ⟨-, -, hs'⟩ | ⟨hd', -⟩
    · exact hs'
    · exact absurd (hd'.symm.trans hd) (by simp)

theorem executePrepared_clean {c : Conn} (hs : Sync [] c) (fuel tx : Nat)
    (info : PreparedStatementInfo) (params : List ParamValue) (closeCursorAfter : Bool)
    (query : QueryOptions) :
    Settles (executePrepared link codec opts fuel tx info params closeCursorAfter query) c fun c' =>
      Clean c'.log → Sync [] c' :=
  Async.wp_mono (guard_statementDiscipline.executePrepared_triple fuel tx trivial params
      closeCursorAfter query c (guard_zero.mpr fun _ => hs))
    (fun _ _ h => guard_zero.mp (guard_of_settled h)) (fun _ _ h => guard_zero.mp (guard_of_settled h))
    fun _ _ => trivial

/-- What each of the pipelined operations needs of the server's answers to leave the
wire in step: exactly, on a connection the pool leaves alone, and sufficiently on any. -/
theorem pipelines_in_step_iff {c : Conn} (hs : Sync [] c) (hc : Clean c.log) :
    (link.Undisturbed →
      (∀ tx sql, Settles (allocateAndPrepare link codec tx sql) c fun c' => Sync [] c' ↔
        (link.server.reply (.allocateStatement c.dbHandle) c.requests).isOk = true) ∧
      (∀ stmt tx values encodeText piggyback,
        Async.wp (executeStatement link codec stmt tx values encodeText piggyback)
          ⟨fun a c' => a.pendingFetch = (piggybackedFetch stmt piggyback).isSome ∧
              a.pendingInfo = piggyback.recordCounts ∧
              Sync (packetsFrom link.server c.turn (c.requests + 1)
                (aheadRequests stmt piggyback c.requests)) c',
            fun _ c' => Sync [] c' ↔ ∀ encoded, encodeValues codec values encodeText = .ok encoded →
              PipelineTolerated link.server stmt tx encoded piggyback c.requests,
            fun _ => True⟩ c) ∧
      (∀ stmt count behind n turn c₁ fuel,
        Sync (link.server.packets (.fetch stmt count behind) n turn) c₁ →
        Settles (readFetchBatch link stmt fuel []) c₁ fun c' => Sync [] c' ↔
          (link.server.answer (.fetch stmt count behind) n).decodes stmt.columnReaders = true) ∧
      (∀ fuel tx info params closeCursorAfter query,
        Settles (executePrepared link codec opts fuel tx info params closeCursorAfter query) c
          fun c' => Sync [] c' ↔ Clean c'.log)) ∧
    (∀ tx sql, Settles (allocateAndPrepare link codec tx sql) c fun c' => Clean c'.log → Sync [] c') ∧
    (∀ stmt tx values encodeText piggyback,
      Async.wp (executeStatement link codec stmt tx values encodeText piggyback)
        ⟨fun _ c' => Clean c'.log → Sync (packetsFrom link.server c.turn (c.requests + 1)
            (aheadRequests stmt piggyback c.requests)) c',
          fun _ c' => Clean c'.log → Sync [] c', fun _ => True⟩ c) ∧
    (∀ stmt count behind n turn c₁ fuel,
      Sync (link.server.packets (.fetch stmt count behind) n turn) c₁ →
      (link.server.answer (.fetch stmt count behind) n).decodes stmt.columnReaders = true →
      Settles (readFetchBatch link stmt fuel []) c₁ fun c' => Clean c'.log → Sync [] c') ∧
    (∀ fuel tx info params closeCursorAfter query,
      Settles (executePrepared link codec opts fuel tx info params closeCursorAfter query) c
        fun c' => Clean c'.log → Sync [] c') := by
  refine ⟨fun hu => ⟨?_, ?_, ?_, ?_⟩, ?_, ?_, ?_, ?_⟩
  · exact fun tx sql => allocateAndPrepare_settles hu hs tx sql
  · exact fun stmt tx values encodeText piggyback =>
      executeStatement_settles hu hs hc stmt tx values encodeText piggyback
  · exact fun _ _ _ _ _ _ fuel h => readFetchBatch_settles hu h fuel
  · exact fun fuel tx info params close query =>
      executePrepared_settles hu hs hc fuel tx info params close query
  · exact fun tx sql => allocateAndPrepare_clean hs tx sql
  · exact fun stmt tx values encodeText piggyback =>
      executeStatement_clean hs stmt tx values encodeText piggyback
  · exact fun _ _ _ _ _ _ fuel h hd => readFetchBatch_clean h hd fuel
  · exact fun fuel tx info params close query =>
      executePrepared_clean hs fuel tx info params close query

def accepting : Link := bareLink fun _ _ => .ok {}

theorem pipelines_in_step_fresh :
    Settles (allocateAndPrepare accepting plainCodec 1 "select 1 from t") fresh fun c' =>
      Sync [] c' ↔ (accepting.server.reply (.allocateStatement 0) 0).isOk = true :=
  ((@pipelines_in_step_iff accepting plainCodec {} _ sync_fresh trivial).1 fun _ => rfl).1 1 "select 1 from t"

/-- A server that refuses every request `req` picks out. -/
def refusing (req : Request → Bool) : Link :=
  bareLink fun r _ => if req r then .error { message := "refused", gdsCode := some 335544321 } else .ok {}

def selectInfo : PreparedStatementInfo :=
  { handle := ⟨5, 0⟩, description := ⟨.select, [], []⟩, outputBlr := [], columnReaders := [], rowWidth := 16 }

def Request.isExecute : Request → Bool
  | .execute _ _ _ | .execute2 _ _ _ | .fetch _ _ _ => true
  | _ => false

def Request.isAllocate : Request → Bool
  | .allocateStatement _ => true
  | _ => false

/-- A select whose execute is refused leaves the error answer of its fetch to the
drain, and a refused allocation leaves the response to the prepare to nobody. -/
theorem refused_pipeline_out_of_step :
    Sync [] fresh ∧ Clean fresh.log ∧
      ¬ Settles (executePrepared (refusing Request.isExecute) plainCodec {} 1 1 selectInfo [] true {})
          fresh (Sync []) ∧
      ¬ Settles (allocateAndPrepare (refusing Request.isAllocate) plainCodec 1 "select 1 from t")
          fresh (Sync []) := by
  refine ⟨sync_fresh, trivial, fun h => ?_, fun h => ?_⟩
  · have hd := sync_drainable (l := []) (Async.wp_eq_of_run h rfl)
    exact absurd hd (by decide)
  · have hd := sync_drainable (l := []) (Async.wp_eq_of_run h rfl)
    exact absurd hd (by decide)

theorem runBatch_settles (hu : link.Undisturbed) {c : Conn} (hs : Sync [] c) (hc : Clean c.log)
    (tx : Nat) (info : PreparedStatementInfo) (rows : BatchRows) (names : List String)
    (batch : BatchOptions) :
    Settles (runBatch link codec opts tx info rows names batch) c fun c' =>
      Sync [] c' ↔ Clean c'.log :=
  Async.wp_mono ((exact_statementDiscipline hu).runBatch_triple tx trivial rows names batch c
      (exact_zero.mpr ⟨hc, hs⟩))
    (fun _ _ h => sync_iff_clean (exact_or_astray_of_settled h))
    (fun _ _ h => sync_iff_clean (exact_or_astray_of_settled h)) fun _ h => h

theorem cycleWire_settles (hu : link.Undisturbed) {c : Conn} (hs : Sync [] c) (hc : Clean c.log)
    (stmt : StmtHandle) (tx : Nat) (st : BatchState) :
    Settles (cycleWire link stmt tx st) c fun c' =>
      Sync [] c' ↔ accepted link.server c.requests (cyclePrefix stmt st) = true := by
  have hx : Exact link 0 c := exact_zero.mpr ⟨hc, hs⟩
  have hr := reads_sameClean hu
  have hiff : ∀ c', (Exact link 0 c' ∨ Astray c') → SameClean (c.cycle link stmt tx st) c' →
      (Sync [] c' ↔ accepted link.server c.requests (cyclePrefix stmt st) = true) :=
    fun c' h hg => (sync_iff_clean h).trans (hg.trans (clean_cycle_iff.trans (by simp [hc])))
  refine Async.wp_mono (Async.wp_and (exact_cycle hu hx stmt tx st)
    (cycleWire_along (r := SameClean) fun c n => clean_markAll [n] c)) ?_ ?_ fun _ _ => trivial
  · exact fun a c' ⟨h, hg⟩ => hiff c' (Or.inl h) hg
  · exact fun e c' ⟨h, hg⟩ => hiff c' h hg

theorem runBatch_clean {c : Conn} (hs : Sync [] c) (tx : Nat) (info : PreparedStatementInfo)
    (rows : BatchRows) (names : List String) (batch : BatchOptions) :
    Settles (runBatch link codec opts tx info rows names batch) c fun c' => Clean c'.log → Sync [] c' :=
  Async.wp_mono (guard_statementDiscipline.runBatch_triple tx trivial rows names batch c
      (guard_zero.mpr fun _ => hs))
    (fun _ _ h => guard_zero.mp (guard_of_settled h)) (fun _ _ h => guard_zero.mp (guard_of_settled h))
    fun _ _ => trivial

/-- A cycle leaves the wire in step if, and only if, no request ahead of its exec is
refused; a whole batch, if its history is clean. -/
theorem batch_in_step_iff {c : Conn} (hs : Sync [] c) (hc : Clean c.log) :
    (link.Undisturbed →
      (∀ stmt tx st, Settles (cycleWire link stmt tx st) c fun c' =>
        Sync [] c' ↔ accepted link.server c.requests (cyclePrefix stmt st) = true) ∧
      (∀ tx info rows names batch,
        Settles (runBatch link codec opts tx info rows names batch) c fun c' =>
          Sync [] c' ↔ Clean c'.log)) ∧
    (∀ tx info rows names batch,
      Settles (runBatch link codec opts tx info rows names batch) c fun c' =>
        Clean c'.log → Sync [] c') := by
  refine ⟨fun hu => ⟨?_, ?_⟩, ?_⟩
  · exact fun stmt tx st => cycleWire_settles hu hs hc stmt tx st
  · exact fun tx info rows names batch => runBatch_settles hu hs hc tx info rows names batch
  · exact fun tx info rows names batch => runBatch_clean hs tx info rows names batch

def insertInfo : PreparedStatementInfo :=
  { handle := ⟨6, 0⟩
    description := ⟨.insert, [{ type := SqlType.long, nullable := true, subType := 0, scale := 0, length := 4 }], []⟩
    outputBlr := [], columnReaders := [], rowWidth := 16 }

theorem batch_in_step_fresh :
    Settles (cycleWire accepting insertInfo.handle 1 { rowBufs := [[]] }) fresh fun c' =>
      Sync [] c' ↔ accepted accepting.server 0 (cyclePrefix insertInfo.handle { rowBufs := [[]] }) = true :=
  ((@batch_in_step_iff accepting plainCodec {} _ sync_fresh trivial).1 fun _ => rfl).1
    insertInfo.handle 1 { rowBufs := [[]] }

def Request.isBatchMsg : Request → Bool
  | .batchMsg _ _ => true
  | _ => false

/-- A cycle whose message block is refused leaves the completion state of its exec to
the drain, which does not know it. -/
theorem refused_batch_out_of_step :
    Sync [] fresh ∧ Clean fresh.log ∧
      ¬ Settles (runBatch (refusing Request.isBatchMsg) plainCodec {} 1 insertInfo
        [.ok (.positional [.null])] [] {}) fresh (Sync []) := by
  refine ⟨sync_fresh, trivial, fun h => ?_⟩
  have hd := sync_drainable (l := []) (Async.wp_eq_of_run h rfl)
  exact absurd hd (by decide)

end FastFirebird
