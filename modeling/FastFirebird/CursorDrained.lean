import FastFirebird.BlobContents
import FastFirebird.CursorStore

/-! `executePrepared` fetches a result set batch by batch: what it returns are all of its rows, in
their order and each of them once, whatever the server puts into a batch. -/
namespace FastFirebird

variable {link : Link} {codec : Codec} {opts : Options} {results : Nat → List (List (Option Bytes))}
  {base : Nat} {c : Conn} {stmt : PreparedStatementInfo} {left : List (List (Option Bytes))}
  {s : CursorStore}

theorem nextFetchCount_pos {rowWidth maxRows prevCount : Nat} (h : 0 < maxRows) :
    0 < nextFetchCount rowWidth maxRows prevCount := by
  unfold nextFetchCount
  dsimp only
  split <;> omega

theorem decodeRows_drop {readers : List ColumnReader} {rows : List (List (Option Bytes))} {n : Nat}
    (h : decodeRows readers (rows.drop n) = none) : decodeRows readers rows = none := by
  rw [← List.take_append_drop n rows, decodeRows_append, h]
  cases decodeRows readers (rows.take n) <;> rfl

theorem decodeRows_split {readers : List ColumnReader} {rows : List (List (Option Bytes))} {n : Nat}
    {ds ds' : List Row} (h : decodeRows readers (rows.take n) = some ds)
    (h' : decodeRows readers (rows.drop n) = some ds') :
    decodeRows readers rows = some (ds ++ ds') := by
  rw [← List.take_append_drop n rows, decodeRows_append, h, h']
  rfl

/-- A further fetch. -/
theorem fetchRows_cursor (hu : link.Undisturbed) {count fuel : Nat}
    (hsync : Sync [] c) (hbegun : base ≤ c.log.length)
    (hs : CursorStore.since results base c.log = some s)
    (hleft : s.cursors stmt.handle = some left) (hfuel : left.length < fuel) :
    Async.wp (fetchRows link fuel stmt count)
      ⟨fun b c' => AsCursors results base c'.log → ∃ k, Fetched results base s stmt left count k b c',
        fun _ c' => AsCursors results base c'.log → Spoiled results base stmt left c',
        fun c' => ¬ AsCursors results base c'.log⟩ c := by
  have hK := @history_asCursors link results base hu
  simp only [fetchRows, writeFetchRequest, Async.wp_bind, wp_send, wp_flush]
  by_cases hk : AsCursors results base (c.send link false (.fetch stmt count none)).log
  · obtain ⟨s', htake, hcursors⟩ := Cursors.asked hsync hbegun hs hk
    refine Async.wp_mono (readFetchBatch_cursor hu hleft hfuel htake hcursors)
      (fun b c' hb _ => hb) (fun _ c' he _ => he) fun _ h => h.elim
  · have hsent : ¬ AsCursors results base (c.send link false (.fetch stmt count none)).flush.log := by
      rw [Conn.flush_log]
      exact hk
    exact hK.wp_of_not (along_readFetchBatch stmt fuel []) hsent (fun _ _ hn hk => absurd hk hn)
      (fun _ _ hn hk => absurd hk hn) fun _ hn => hn

/-- All that was left of the cursor has been read, and it stands at its end. -/
structure Drained (results : Nat → List (List (Option Bytes))) (base : Nat)
    (stmt : PreparedStatementInfo) (left : List (List (Option Bytes))) (before rows : List Row)
    (c : Conn) : Prop where
  rows : ∃ ds, decodeRows stmt.columnReaders left = some ds ∧ rows = before ++ ds
  account : ∃ s, Cursors results base s [] c ∧ s.cursors stmt.handle = some []

/-- A batch that is the last one. -/
theorem Fetched.drained {count n : Nat} {b : FetchBatch} (h : Fetched results base s stmt left count n b c)
    (heof : b.eof = true) (before : List Row) :
    Drained results base stmt left before (before ++ b.rows) c := by
  have hall : left.length ≤ n := h.complete heof
  refine ⟨⟨b.rows, ?_, rfl⟩, _, h.account, ?_⟩
  · rw [← h.rows, List.take_of_length_le hall]
  · dsimp only
    rw [Function.update_self, List.drop_of_length_le hall]

theorem Drained.behind {n : Nat} {ds before rows : List Row}
    (hds : decodeRows stmt.columnReaders (left.take n) = some ds)
    (h : Drained results base stmt (left.drop n) (before ++ ds) rows c) :
    Drained results base stmt left before rows c := by
  obtain ⟨⟨ds', hds', hrows⟩, haccount⟩ := h
  refine ⟨⟨ds ++ ds', decodeRows_split hds hds', ?_⟩, haccount⟩
  rw [hrows, List.append_assoc]

theorem Spoiled.behind {n : Nat} (h : Spoiled results base stmt (left.drop n) c) :
    Spoiled results base stmt left c := h.imp_left decodeRows_drop

/-- Fetch after fetch, each of which brings rows, up to the end of the cursor. -/
theorem fetchRest_drains (hu : link.Undisturbed) (codec : Codec) {maxRows fuel : Nat} (hmax : 0 < maxRows) :
    ∀ (n : Nat) {fetchCount : Nat} {rows : List Row} {left : List (List (Option Bytes))}
      {s : CursorStore} {c : Conn}, left.length < n → left.length < fuel →
      Cursors results base s [] c → s.cursors stmt.handle = some left →
      Async.wp (fetchRest link stmt maxRows fuel n fetchCount rows)
        ⟨fun rows' c' => AsCursors results base c'.log → Drained results base stmt left rows rows' c',
          fun _ c' => AsCursors results base c'.log → Spoiled results base stmt left c',
          fun c' => ¬ AsCursors results base c'.log⟩ c
  | 0, _, _, _, _, _, hn, _, _, _ => absurd hn (Nat.not_lt_zero _)
  | n + 1, fetchCount, rows, left, s, c, hn, hfuel, h, hleft => by
    have hK := @history_asCursors link results base hu
    unfold fetchRest
    rw [Async.wp_bind]
    refine Async.wp_mono (fetchRows_cursor hu h.wire.sync h.begun h.store hleft hfuel) ?_ (fun _ _ h => h) fun _ h => h
    intro b c₁ hb
    dsimp only
    split
    · rename_i heof
      intro hk
      obtain ⟨k, hfetched⟩ := hb hk
      exact hfetched.drained heof rows
    · rename_i hmore
      by_cases hk : AsCursors results base c₁.log
      · obtain ⟨k, hfetched⟩ := hb hk
        have hk₀ : 0 < k := hfetched.progress (Bool.eq_false_iff.mpr hmore) (nextFetchCount_pos hmax)
        have hwithin : k ≤ left.length := hfetched.within
        have hshorter : (left.drop k).length < n ∧ (left.drop k).length < fuel := by
          rw [List.length_drop]
          omega
        refine Async.wp_mono (fetchRest_drains hu codec hmax n hshorter.1 hshorter.2 hfetched.account
          (Function.update_self _ _ _)) ?_ ?_ fun _ h => h
        · exact fun rows' c' hdrained hk' => (hdrained hk').behind hfetched.rows
        · exact fun e c' hspoiled hk' => (hspoiled hk').behind
      · exact Async.wp_mono ((@statement_not link codec _ hK).fetchRest_triple trivial maxRows fuel n
          (nextFetchCount stmt.rowWidth maxRows fetchCount) (rows ++ b.rows) c₁ hk)
          (fun _ _ hn hk => absurd hk hn) (fun _ _ hn hk => absurd hk (hn.not hK)) fun _ hn => hn

/-- What an accepted execute leaves: a cursor on its result set, and the first fetch on its way. -/
structure Opened (link : Link) (results : Nat → List (List (Option Bytes))) (base : Nat)
    (stmt : PreparedStatementInfo) (count : Nat) (left : List (List (Option Bytes))) (c : Conn) :
    Prop where
  fetching : ∃ (s s' : CursorStore) (n turn : Nat) (behind : Option Nat),
    s.cursors stmt.handle = some left ∧
    s.take results (.fetch stmt count behind) (link.server.answer (.fetch stmt count behind) n) =
      some s' ∧
    Cursors results base s' (link.server.packets (.fetch stmt count behind) n turn) c

/-- The piggybacked fetch, and those behind it. -/
theorem drainFetches_drains (hu : link.Undisturbed) (codec : Codec) {maxRows fuel count : Nat}
    (hmax : 0 < maxRows) (hcount : 0 < count) (hfuel : left.length < fuel)
    (h : Opened link results base stmt count left c) :
    Async.wp (drainFetches link stmt maxRows fuel count)
      ⟨fun rows c' => AsCursors results base c'.log → Drained results base stmt left [] rows c',
        fun _ c' => AsCursors results base c'.log → Spoiled results base stmt left c',
        fun c' => ¬ AsCursors results base c'.log⟩ c := by
  obtain ⟨s, s', n, turn, behind, hleft, htake, hcursors⟩ := h.fetching
  unfold drainFetches
  rw [Async.wp_bind]
  refine Async.wp_mono (readFetchBatch_cursor hu hleft hfuel htake hcursors) ?_
    (fun _ _ h _ => h) fun _ h => h.elim
  rintro b c₁ ⟨k, hfetched⟩
  dsimp only
  split
  · rename_i heof
    exact fun _ => hfetched.drained heof []
  · rename_i hmore
    have hk₀ : 0 < k := hfetched.progress (Bool.eq_false_iff.mpr hmore) hcount
    have hwithin : k ≤ left.length := hfetched.within
    have hshorter : (left.drop k).length < fuel := by
      rw [List.length_drop]
      omega
    refine Async.wp_mono (fetchRest_drains hu codec hmax fuel hshorter hshorter hfetched.account
      (Function.update_self _ _ _)) ?_ ?_ fun _ h => h
    · intro rows' c' hdrained hk'
      exact @Drained.behind _ _ _ _ _ _ _ [] _ hfetched.rows (hdrained hk')
    · exact fun e c' hspoiled hk' => (hspoiled hk').behind

theorem usesExecute2_select (h : stmt.description.stmtType.isSelect = true) :
    usesExecute2 stmt.description = false := by
  unfold usesExecute2
  cases htype : stmt.description.stmtType with
  | select => exact Bool.and_false _
  | selectForUpd => exact Bool.and_false _
  | _ =>
    rw [htype] at h
    cases h

theorem wantsRecordCounts_select {stmtType : StmtType} (h : stmtType.isSelect = true) :
    stmtType.wantsRecordCounts = false := by
  cases stmtType <;> first | rfl | cases h

/-- An execute that is accepted opens a cursor on the next result set, from which the fetch behind it
is answered. -/
theorem executeStatement_opens (hu : link.Undisturbed) {tx count : Nat} {values : List ParamValue}
    {encodeText : EncodeText} (hselect : stmt.description.stmtType.isSelect = true)
    (hsync : Sync [] c) (hbegun : base ≤ c.log.length)
    (hs : CursorStore.since results base c.log = some s) :
    Async.wp (executeStatement link codec stmt tx values encodeText
        { fetchSize := some count, recordCounts := false })
      ⟨fun r c' => r.pendingFetch = true ∧ r.pendingInfo = false ∧
          (AsCursors results base c'.log →
            Opened link results base stmt count (results s.executes) c'),
        fun _ _ => True, fun c' => ¬ AsCursors results base c'.log⟩ c := by
  have hK := @history_asCursors link results base hu
  have hplain := usesExecute2_select hselect
  cases he : encodeValues codec values encodeText with
  | error e => exact (wp_executeStatement_error he).mpr trivial
  | ok encoded =>
    refine (wp_executeStatement he).mpr ?_
    have hpiggyback : piggybackedFetch stmt { fetchSize := some count, recordCounts := false } =
        some count := by
      rw [piggybackedFetch, hplain]
      rfl
    have hahead : aheadRequests stmt { fetchSize := some count, recordCounts := false } c.requests =
        [.fetch stmt count (some c.requests)] := by
      rw [aheadRequests, hpiggyback]
      rfl
    have hexec : executeRequest stmt tx encoded = .execute stmt tx encoded := by
      rw [executeRequest, hplain]
      rfl
    rw [hahead, hexec, hpiggyback]
    simp only [readExecuteResponse, hplain, Bool.false_eq_true, ↓reduceIte, Async.wp_bind,
      Option.isSome_some]
    generalize hc₁ : c.send link false (.execute stmt tx encoded) = c₁
    have hsend : c₁.sendAll link [.fetch stmt count (some c.requests)] =
        c₁.send link false (.fetch stmt count (some c.requests)) := rfl
    rw [hsend]
    have hrequests : c₁.requests = c.requests + 1 := by rw [← hc₁]; rfl
    by_cases hk : AsCursors results base
        (c₁.send link false (.fetch stmt count (some c.requests))).log
    · have hbegun₁ : base ≤ c₁.log.length := by
        rw [← hc₁]
        exact Nat.le_succ_of_le hbegun
      obtain ⟨s₁, s₂, hs₁, htake₂, hs₂⟩ := since_last hbegun₁ hk
      have hk₁ : AsCursors results base (c.send link false (.execute stmt tx encoded)).log := by
        rw [hc₁]
        exact since_earlier hk
      obtain ⟨s₀, s₁', hs₀, htake₁, hs₁'⟩ := since_last hbegun hk₁
      obtain rfl : s = s₀ := Option.some.inj (hs.symm.trans hs₀)
      obtain rfl : s₁ = s₁' := by
        have hlog : (c.send link false (.execute stmt tx encoded)).log = c₁.log := by rw [hc₁]
        rw [← Option.some_inj, ← hs₁, ← hs₁', ← hlog]
        rfl
      have hwire : Arriving (link.server.packets (.execute stmt tx encoded) c.requests c.turn ++
          link.server.packets (.fetch stmt count (some c.requests)) c₁.requests c₁.turn)
          (c₁.send link false (.fetch stmt count (some c.requests))).flush := by
        have hsync := @Sync.send link _ _ hsync false (.execute stmt tx encoded)
        rw [hc₁, List.nil_append] at hsync
        exact ⟨(hsync.send false _).flush, flush_unflushed _⟩
      have hl := readable_packets link.server (.fetch stmt count (some c.requests)) c₁.requests
        c₁.turn []
      rw [List.append_nil] at hl
      have := @reads_sameCursors link results base hu
      have halong : Async.Along (SameCursors results base) (readResponse link) := along_readResponse
      refine Async.wp_mono (halong.with_wp (readResponse_arriving hu rfl hl hwire)) ?_
        (fun _ _ _ => trivial) fun _ hpending => hpending.2.elim
      rintro a c' ⟨hsame, hreply, hleft⟩
      have hflushed : base ≤ (c₁.send link false
          (.fetch stmt count (some c.requests))).flush.log.length := by
        rw [Conn.flush_log]
        exact Nat.le_succ_of_le hbegun₁
      obtain ⟨hbase', hsince⟩ := hsame hflushed
      rw [Conn.flush_log] at hsince
      have htake : s.take results (.execute stmt tx encoded) (.reply (.ok a)) = some s₁ := by
        rw [← hreply]
        exact htake₁
      have hopened := Option.some.inj htake
      refine ⟨trivial, trivial, fun _ => ⟨s₁, s₂, c₁.requests, c₁.turn, some c.requests, ?_, htake₂, hleft,
        hbase', hsince.trans hs₂⟩⟩
      rw [← hopened]
      exact Function.update_self _ _ _
    · have hsent : ¬ AsCursors results base
          (c₁.send link false (.fetch stmt count (some c.requests))).flush.log := by
        rw [Conn.flush_log]
        exact hk
      exact hK.wp_of_not along_readResponse hsent (fun _ _ hn => ⟨trivial, trivial, fun hk => absurd hk hn⟩)
        (fun _ _ _ => trivial) fun _ hn => hn

/-! Parameters are uploaded first, and no cursor is touched -/

/-- So many responses are due, and the account is as it was. -/
def Uploading (link : Link) (results : Nat → List (List (Option Bytes))) (base : Nat)
    (s : CursorStore) (k : Nat) (c : Conn) : Prop :=
  (∃ l, Owed link.server k l ∧ Sync l c) ∧ base ≤ c.log.length ∧
    CursorStore.since results base c.log = some s

theorem take_blobOp {req : Request} (h : req.isBlobOp = true) (a : Answer) :
    s.take results req a = some s := by
  cases req <;> first | rfl | cases h

theorem uploading_discipline (hu : link.Undisturbed) :
    Discipline link (fun req => req.isBlobOp = true) (Uploading link results base s)
      fun _ => True where
  send := by
    rintro k c req hr ⟨⟨l, howed, hsync⟩, hbegun, hs⟩
    refine ⟨⟨_, howed.send (isPlain_of_isBlobOp hr) _ _, hsync.send false req⟩,
      Nat.le_succ_of_le hbegun, ?_⟩
    exact (since_skip hbegun fun s => take_blobOp hr _).trans hs
  flush := by
    rintro k c ⟨⟨l, howed, hsync⟩, hbegun, hs⟩
    rw [Uploading, Conn.flush_log]
    exact ⟨⟨l, howed, hsync.flush⟩, hbegun, hs⟩
  await := by
    rintro k c ⟨⟨l, howed, hsync⟩, hbegun, hs⟩
    obtain ⟨hbegun', hsame⟩ := (@reads_sameCursors link results base hu).await c hbegun
    exact ⟨⟨l, howed, await_sync_of_undisturbed hu hsync⟩, hbegun', hsame.trans hs⟩
  inline := by
    rintro k c inline ⟨⟨l, howed, hsync⟩, hbegun, hs⟩
    exact ⟨⟨l, howed, hsync.congr rfl rfl rfl rfl⟩, hbegun, hs⟩
  read := by
    rintro k c ⟨⟨_, ⟨req, n, turn, l, hreq, rfl, howed⟩, hsync⟩, hbegun, hs⟩
    have := @reads_sameCursors link results base hu
    have halong : Async.Along (SameCursors results base) (readResponse link) := along_readResponse
    refine Async.wp_mono (halong.with_wp (readResponse_plain (history_undisturbed hu) hreq
      howed.readable fun _ => hsync)) ?_ ?_ fun _ _ => trivial
    · rintro a c' ⟨hsame, hok⟩
      exact ⟨⟨l, howed, (hok trivial).2⟩, (hsame hbegun).1, (hsame hbegun).2.trans hs⟩
    · rintro e c' ⟨hsame, herror⟩
      exact ⟨⟨l, howed, (herror trivial).2⟩, (hsame hbegun).1, (hsame hbegun).2.trans hs⟩
  waiting _ _ _ := trivial
  closeBlob _ := rfl

/-- A discipline of requests about blobs, for programs that use no statement. -/
theorem Discipline.statementless {D : Request → Prop} {J : Nat → Conn → Prop} {R : Conn → Prop}
    (h : Discipline link D J R) :
    StatementDiscipline link codec (fun _ => False) D J (fun _ _ => True) (fun _ => True) R where
  toDiscipline := h
  cursor _ hno := hno.elim
  release _ hno := hno.elim
  broken _ _ _ _ := trivial
  sendFetch _ _ _ hno _ := hno.elim
  readFetch _ _ _ hno _ := hno.elim
  execute _ _ _ _ _ _ hno _ _ := hno.elim
  cycle _ _ _ _ hno _ := hno.elim

/-- `rows` is what `materialize` makes of `decoded` on the connection `c`: each eager BLOB cell holds
the content of its blob, if the server has kept it and the inline cache has it right. -/
structure Materialized (link : Link) (opts : Options) (fuel tx : Nat) (mapper : RowMapper) (base : Nat)
    (log : List Event) (c : Conn) (decoded rows : List Row) : Prop where
  run : ∃ c', mapper.materialize link opts fuel tx decoded c = (.ok rows, c')
  kept : ∀ segs content, HasContent segs content → AsStored segs base log →
    InlineKept content tx (c.await link) → mapper.RowsFilled content decoded rows

theorem materialized (hu : link.Undisturbed) {fuel tx : Nat} {mapper : RowMapper} {c' : Conn}
    {log : List Event} {decoded rows : List Row} (hsync : Sync [] c) (hbase : base ≤ c.log.length)
    (hrun : mapper.materialize link opts fuel tx decoded c = (.ok rows, c'))
    (hlog : c'.log <:+ log) : Materialized link opts fuel tx mapper base log c decoded rows where
  run := ⟨c', hrun⟩
  kept _ _ hcontent hstored hinline :=
    materialize_kept hu hcontent hsync hbase hrun ((history_asStored hu).of_suffix hlog hstored) hinline

theorem Materialized.later (hu : link.Undisturbed) {fuel tx : Nat} {mapper : RowMapper}
    {log log' : List Event} {decoded rows : List Row}
    (h : Materialized link opts fuel tx mapper base log c decoded rows) (hlog : log <:+ log') :
    Materialized link opts fuel tx mapper base log' c decoded rows where
  run := h.run
  kept segs content hcontent hstored hinline :=
    h.kept segs content hcontent ((history_asStored hu).of_suffix hlog hstored) hinline

section
variable (link : Link) (codec : Codec) (opts : Options) (fuel tx : Nat) (stmt : PreparedStatementInfo)
  (params : List ParamValue) (query : QueryOptions)

/-- `executePrepared` up to the rows, before `materialize`. -/
def fetchPrepared : M (List Row) := do
  let (prepared, encodeText) ← prepareParams link codec opts tx stmt params
  let stmtType := stmt.description.stmtType
  let maxRows := fetchCeiling opts query
  let fetchCount := if stmtType.isSelect then nextFetchCount stmt.rowWidth maxRows 0 else 0
  let exec ← executeStatement link codec stmt tx prepared encodeText
    { fetchSize := if stmtType.isSelect then some fetchCount else none
      recordCounts := stmtType.wantsRecordCounts }
  let rows ← drainRows link stmt maxRows fuel fetchCount exec
  let _ ← drainInfo link codec exec
  pure rows

/-- What a select returns between `c` and `c'` are the rows of its result set, all of them decoded,
with their blobs. -/
def Complete (left : List (List (Option Bytes))) (c c' : Conn) (r : QueryResult) : Prop :=
  ∃ mapper decoded c₁, rowMapper codec opts query stmt.description.outputs = .ok mapper ∧
    fetchPrepared link codec opts fuel tx stmt params query c = (.ok decoded, c₁) ∧
    decodeRows stmt.columnReaders left = some decoded ∧
    Materialized link opts fuel tx mapper c.log.length c'.log c₁ decoded r.rows

end

theorem closeCursor_extends {info : PreparedStatementInfo} {closeCursorAfter : Bool} {c' : Conn}
    (h : closeCursor link info closeCursorAfter c = (.ok (), c')) : c.log <:+ c'.log := by
  unfold closeCursor at h
  split at h
  · obtain ⟨-, rfl⟩ := Prod.mk.inj h
    exact (List.suffix_cons _ _).trans (List.suffix_cons _ _)
  · obtain ⟨-, rfl⟩ := Prod.mk.inj h
    exact List.suffix_refl _

/-- What comes behind the fetches leaves a history outside `K` outside it. -/
theorem not_behind (codec : Codec) {K : List Event → Prop} (hK : History link K) {info : PreparedStatementInfo}
    {mapper : RowMapper} {fuel tx : Nat} {rows rows' : List Row} {closeCursorAfter : Bool}
    {c₁ c₂ c₃ : Conn} (hmaterialize : mapper.materialize link opts fuel tx rows c₁ = (.ok rows', c₂))
    (hclose : closeCursor link info closeCursorAfter c₂ = (.ok (), c₃)) (hk : K c₃.log) : K c₁.log := by
  by_contra hn
  have hnot := @statement_not link codec K hK
  have hleft : Left link (fun _ => True) (fun _ c => ¬ K c.log) c₂ :=
    Async.wp_eq_of_run (hnot.materialize_triple mapper fuel tx rows c₁ hn) hmaterialize
  have hdone : Left link (fun _ => True) (fun _ c => ¬ K c.log) c₃ :=
    Async.wp_eq_of_run (hnot.closeCursor_triple trivial closeCursorAfter (E := fun _ => True) c₂ hleft) hclose
  exact hdone.not hK hk

/-- A prepared select that returns has fetched its whole result set. -/
theorem executePrepared_rows (hu : link.Undisturbed) {info : PreparedStatementInfo}
    {fuel tx : Nat} {params : List ParamValue} {closeCursorAfter : Bool} {query : QueryOptions}
    {r : QueryResult} {c' : Conn} (hselect : info.description.stmtType.isSelect = true)
    (hfetch : 0 < fetchCeiling opts query) (hsync : Sync [] c)
    (hfuel : (results 0).length < fuel)
    (hrun : executePrepared link codec opts fuel tx info params closeCursorAfter query c = (.ok r, c'))
    (hserved : AsCursors results c.log.length c'.log) :
    Complete link codec opts fuel tx info params query (results 0) c c' r := by
  have hK := @history_asCursors link results c.log.length hu
  unfold executePrepared at hrun
  obtain ⟨mapper, c₀, hmapper, hrun⟩ := Async.bind_ok hrun
  obtain ⟨hmapper, hc₀⟩ := Async.lift_ok hmapper
  obtain ⟨prepared, c₁, hprepare, hrun⟩ := Async.bind_ok hrun
  have hstart : Uploading link results c.log.length {} 0 c₀ := by
    rw [hc₀]
    exact ⟨⟨[], rfl, hsync⟩, Nat.le_refl _, since_start (Nat.le_refl _)⟩
  have huploads := @Discipline.statementless _ codec _ _ _
    (@uploading_discipline link results c.log.length {} hu)
  obtain ⟨⟨l, hl, hsync₁⟩, hbegun, hs⟩ := Async.wp_eq_of_run
    (huploads.prepareParams_triple tx info params c₀ hstart) hprepare
  obtain rfl : l = [] := hl
  obtain ⟨values, encodeText⟩ := prepared
  simp only [hselect, wantsRecordCounts_select hselect, ↓reduceIte] at hrun
  obtain ⟨exec, c₂, hexec, hrun⟩ := Async.bind_ok hrun
  obtain ⟨hfetching, hinfo, hopened⟩ :=
    Async.wp_eq_of_run (executeStatement_opens hu hselect hsync₁ hbegun hs) hexec
  obtain ⟨rows, c₃, hdrain, hrun⟩ := Async.bind_ok hrun
  obtain ⟨rowsAffected, c₄, hcounts, hrun⟩ := Async.bind_ok hrun
  obtain ⟨rows', c₅, hmaterialize, hrun⟩ := Async.bind_ok hrun
  obtain ⟨⟨⟩, c₆, hclose, hrun⟩ := Async.bind_ok hrun
  obtain ⟨hr, rfl⟩ := Prod.mk.inj hrun
  obtain rfl := Outcome.ok.inj hr
  have hfetched : fetchPrepared link codec opts fuel tx info params query c = (.ok rows, c₄) := by
    rw [← hc₀]
    unfold fetchPrepared
    simp only [hselect, wantsRecordCounts_select hselect, ↓reduceIte]
    exact Async.bind_run hprepare
      (Async.bind_run hexec (Async.bind_run hdrain (Async.bind_run hcounts rfl)))
  rw [drainRows, if_pos hfetching] at hdrain
  rw [drainInfo, hinfo] at hcounts
  obtain ⟨-, rfl⟩ := Prod.mk.inj hcounts
  have hk₃ : AsCursors results c.log.length c₃.log :=
    not_behind codec hK hmaterialize hclose hserved
  have hk₂ : AsCursors results c.log.length c₂.log := by
    by_contra hn
    exact Async.wp_eq_of_run ((@statement_not link codec _ hK).drainFetches_triple trivial
      (fetchCeiling opts query) fuel (nextFetchCount info.rowWidth (fetchCeiling opts query) 0) c₂ hn) hdrain hk₃
  have hdrained := Async.wp_eq_of_run (drainFetches_drains hu codec hfetch (nextFetchCount_pos hfetch)
    hfuel (hopened hk₂)) hdrain
  obtain ⟨ds, hds, hrows⟩ := (hdrained hk₃).rows
  rw [List.nil_append] at hrows
  rw [hrows] at hmaterialize
  rw [hrows] at hfetched
  obtain ⟨s, haccount, -⟩ := (hdrained hk₃).account
  exact ⟨mapper, ds, c₃, hmapper, hfetched, hds,
    materialized hu haccount.wire.sync haccount.begun hmaterialize (closeCursor_extends hclose)⟩

/-! Without blobs to write or to read there is nothing to wait for -/

theorem prepareParam_there {tx : Nat} {d : SqlVarDesc} (hd : d.type ≠ SqlType.blob) (v : ParamValue) :
    Async.wp (prepareParam link codec opts tx d v)
      ⟨fun _ c' => c' = c, fun _ _ => True, fun _ => False⟩ c := by
  have hlift (v : ParamValue) : Async.wp (Async.lift (codec.coerceParam d v) : M ParamValue)
      ⟨fun _ c' => c' = c, fun _ _ => True, fun _ => False⟩ c :=
    Async.wp_lift (fun _ _ => rfl) fun _ _ => trivial
  unfold prepareParam
  simp only [hd, ↓reduceIte]
  split
  · exact hlift _
  · exact hlift _
  · trivial
  · trivial
  · exact hlift _

theorem prepareEach_there {tx : Nat} {ds : List SqlVarDesc} (hds : ∀ d ∈ ds, d.type ≠ SqlType.blob)
    (vs : List ParamValue) :
    Async.wp (prepareEach link codec opts tx ds vs)
      ⟨fun _ c' => c' = c, fun _ _ => True, fun _ => False⟩ c := by
  induction ds generalizing vs with
  | nil => rfl
  | cons d ds ih =>
    cases vs with
    | nil => rfl
    | cons v vs =>
      unfold prepareEach
      rw [Async.wp_bind]
      refine Async.wp_mono (prepareParam_there (hds d List.mem_cons_self) v) ?_ (fun _ _ h => h)
        fun _ h => h
      rintro p c₁ rfl
      refine Async.wp_bind.mpr (Async.wp_lift (fun text _ => ?_) fun _ _ => trivial)
      refine Async.wp_bind.mpr (Async.wp_mono (ih (fun d hd => hds d (List.mem_cons_of_mem _ hd)) vs) ?_
        (fun _ _ h => h) fun _ h => h)
      exact fun _ _ h => h

theorem prepareParams_there (hu : link.Undisturbed) {tx : Nat} {info : PreparedStatementInfo}
    (hinputs : ∀ d ∈ info.description.inputs, d.type ≠ SqlType.blob) (params : List ParamValue)
    (hsync : Sync [] c) :
    Async.wp (prepareParams link codec opts tx info params)
      ⟨fun _ c' => Sync [] c' ∧ c'.log = c.log, fun _ _ => True, fun _ => False⟩ c := by
  unfold prepareParams
  split
  · trivial
  · rw [Async.wp_bind]
    refine Async.wp_mono (prepareEach_there hinputs params) ?_ (fun _ _ h => h) fun _ h => h
    rintro prepared c₁ rfl
    simp only [Async.wp_bind, Async.wp_modify, Async.wp_pure]
    refine ⟨await_sync_of_undisturbed hu hsync, ?_⟩
    rw [Conn.await, hu c₁.awaits]
    rfl

/-- A prepared select that writes no blobs and reads none is not left waiting. -/
theorem executePrepared_there (hu : link.Undisturbed) {info : PreparedStatementInfo}
    {fuel tx : Nat} {params : List ParamValue} {closeCursorAfter : Bool} {query : QueryOptions}
    {c' : Conn} (hselect : info.description.stmtType.isSelect = true)
    (hfetch : 0 < fetchCeiling opts query) (hsync : Sync [] c)
    (hfuel : (results 0).length < fuel)
    (hinputs : ∀ d ∈ info.description.inputs, d.type ≠ SqlType.blob)
    (hlazy : ∀ mapper, rowMapper codec opts query info.description.outputs = .ok mapper →
      mapper.hasKeptEagerBlobs = false)
    (hrun : executePrepared link codec opts fuel tx info params closeCursorAfter query c =
      (.pending, c')) : ¬ AsCursors results c.log.length c'.log := by
  have hsettles : Async.wp (executePrepared link codec opts fuel tx info params closeCursorAfter query)
      ⟨fun _ _ => True, fun _ _ => True, fun c' => ¬ AsCursors results c.log.length c'.log⟩ c := by
    unfold executePrepared
    refine Async.wp_bind.mpr (Async.wp_lift (fun mapper hmapper => ?_) fun _ _ => trivial)
    refine Async.wp_bind.mpr (Async.wp_mono (prepareParams_there hu hinputs params hsync) ?_
      (fun _ _ h => h) fun _ h => h.elim)
    rintro ⟨values, encodeText⟩ c₁ ⟨hsync₁, hlog⟩
    have hs : CursorStore.since results c.log.length c₁.log = some {} := by
      rw [hlog]
      exact since_start (Nat.le_refl _)
    simp only [hselect, wantsRecordCounts_select hselect, ↓reduceIte]
    have hbegun : c.log.length ≤ c₁.log.length := Nat.le_of_eq (by rw [hlog])
    refine Async.wp_bind.mpr (Async.wp_mono (executeStatement_opens hu hselect hsync₁ hbegun hs)
      ?_ (fun _ _ h => h) fun _ h => h)
    rintro exec c₂ ⟨hfetching, hinfo, hopened⟩
    have hdrain : Async.wp (drainFetches link info (fetchCeiling opts query) fuel
        (nextFetchCount info.rowWidth (fetchCeiling opts query) 0))
        ⟨fun _ _ => True, fun _ _ => True,
          fun c' => ¬ AsCursors results c.log.length c'.log⟩ c₂ := by
      by_cases hk : AsCursors results c.log.length c₂.log
      · exact Async.wp_mono (drainFetches_drains hu codec hfetch (nextFetchCount_pos hfetch) hfuel
          (hopened hk)) (fun _ _ _ => trivial) (fun _ _ _ => trivial) fun _ h => h
      · exact Async.wp_mono ((@statement_not link codec _ (history_asCursors hu)).drainFetches_triple trivial
          (fetchCeiling opts query) fuel (nextFetchCount info.rowWidth (fetchCeiling opts query) 0) c₂ hk)
          (fun _ _ _ => trivial) (fun _ _ _ => trivial) fun _ h => h
    refine Async.wp_bind.mpr ?_
    rw [drainRows, if_pos hfetching]
    refine Async.wp_mono hdrain ?_ (fun _ _ h => h) fun _ h => h
    intro rows c₃ _
    simp only [drainInfo, hinfo, RowMapper.materialize, hlazy mapper hmapper, Bool.false_eq_true, ↓reduceIte,
      Async.wp_bind, Async.wp_modify, Async.wp_pure, closeCursor, freeStatement]
    split <;> trivial
  exact Async.wp_eq_of_run hsettles hrun

theorem fetchCeiling_pos {query : QueryOptions} (h : 0 < opts.fetchSize) :
    0 < fetchCeiling opts query := by
  unfold fetchCeiling
  split
  · split
    · exact h
    · omega
  · exact h

/-- A prepared select fetches its whole result set: if it returns, then every row of it, once and in
order, with its blobs. Where there are no blobs, it does not wait for what does not come. -/
theorem executePrepared_complete (hu : link.Undisturbed) {info : PreparedStatementInfo}
    {fuel tx : Nat} {params : List ParamValue} {closeCursorAfter : Bool} {query : QueryOptions}
    {o : Outcome FirebirdError QueryResult} {c' : Conn}
    (hselect : info.description.stmtType.isSelect = true)
    (hfetch : 0 < opts.fetchSize) (hsync : Sync [] c)
    (hfuel : (results 0).length < fuel)
    (hrun : executePrepared link codec opts fuel tx info params closeCursorAfter query c = (o, c'))
    (hserved : AsCursors results c.log.length c'.log) :
    (∀ r, o = .ok r → Complete link codec opts fuel tx info params query (results 0) c c' r) ∧
      ((∀ d ∈ info.description.inputs, d.type ≠ SqlType.blob) →
        (∀ mapper, rowMapper codec opts query info.description.outputs = .ok mapper →
          mapper.hasKeptEagerBlobs = false) → o ≠ .pending) := by
  have hceiling : 0 < fetchCeiling opts query := fetchCeiling_pos hfetch
  constructor
  · rintro r rfl
    exact executePrepared_rows hu hselect hceiling hsync hfuel hrun hserved
  · rintro hinputs hlazy rfl
    exact executePrepared_there hu hselect hceiling hsync hfuel hinputs hlazy hrun hserved

/-- A select with an eager BLOB column: two blobs, and a null between them. -/
def shelvedSelect : PreparedStatementInfo where
  handle := ⟨7, 0⟩
  description := ⟨.select, [], [⟨SqlType.blob, true, 0, 0, 8, none, none, none, none, none⟩]⟩
  outputBlr := []
  columnReaders := [fun data => .ok (.blobRef data 0)]
  rowWidth := 16

def shelvedRows (_ : Nat) : List (List (Option Bytes)) := [[some [7]], [none], [some [8]]]

/-- A server with that table, of which it sends two rows at first; it keeps the blobs as `keeper` does. -/
def shelfKeeper : Link where
  server := { bareServer fun req n => keeper.server.reply req (n - 3) with
    fetch := fun _ n =>
      if n = 1 then ⟨[fun _ => some [7], fun _ => none], .more⟩ else ⟨[fun _ => some [8]], .eof⟩ }
  clearAt := fun _ => false

theorem shelfKeeper_asCursors :
    AsCursors shelvedRows fresh.log.length
      (executePrepared shelfKeeper plainCodec {} 72 1 shelvedSelect [] true {} fresh).2.log := by
  decide +kernel

theorem shelfKeeper_asStored :
    AsStored keptSegs fresh.log.length
      (executePrepared shelfKeeper plainCodec {} 72 1 shelvedSelect [] true {} fresh).2.log := by
  decide +kernel

theorem executePrepared_complete_three :
    ∃ c', (executePrepared shelfKeeper plainCodec {} 72 1 shelvedSelect [] true {} fresh).2 = c' ∧
      AsStored keptSegs fresh.log.length c'.log ∧
      (∀ r, (executePrepared shelfKeeper plainCodec {} 72 1 shelvedSelect [] true {} fresh).1 = .ok r →
        Complete shelfKeeper plainCodec {} 72 1 shelvedSelect [] {} (shelvedRows 0) fresh c' r) ∧
      ((∀ d ∈ shelvedSelect.description.inputs, d.type ≠ SqlType.blob) →
        (∀ mapper, rowMapper plainCodec {} {} shelvedSelect.description.outputs = .ok mapper →
          mapper.hasKeptEagerBlobs = false) →
        (executePrepared shelfKeeper plainCodec {} 72 1 shelvedSelect [] true {} fresh).1 ≠ .pending) := by
  have hundisturbed : shelfKeeper.Undisturbed := fun _ => rfl
  have hserved := shelfKeeper_asCursors
  have hstored := shelfKeeper_asStored
  generalize hrun : executePrepared shelfKeeper plainCodec {} 72 1 shelvedSelect [] true {} fresh = r
    at hserved hstored ⊢
  exact ⟨r.2, rfl, hstored,
    executePrepared_complete hundisturbed rfl (by decide) sync_fresh (by decide) hrun hserved⟩

end FastFirebird
