import FastFirebird.CursorDrained
import FastFirebird.SectionSync

/-! `streamRows` gives up the lock between two of its fetches. What it gives out are the rows of the
result set all the same, whatever other calls do meanwhile, as long as none of them uses the statement. -/
namespace FastFirebird

variable {link : Link} {codec : Codec} {opts : Options} {results : Nat → List (List (Option Bytes))}
  {base fuel tx : Nat} {query : QueryOptions} {c c' : Conn} {stmt : PreparedStatementInfo}
  {s s' : CursorStore}

/-! What other calls do -/

/-- The request opens, moves or closes the cursor of the statement. -/
def Request.uses (stmt : StmtHandle) : Request → Bool
  | .execute used _ _ => used.handle == stmt
  | .fetch used _ _ => used.handle == stmt
  | .freeStatement used _ => used == stmt
  | _ => false

def Event.uses (stmt : StmtHandle) : Event → Bool
  | .sent _ _ _ req _ => req.uses stmt
  | _ => false

/-- Between the two nothing has been sent about the statement. -/
def Unused (stmt : StmtHandle) (c c' : Conn) : Prop :=
  ∃ new, c'.log = new ++ c.log ∧ ∀ e ∈ new, e.uses stmt = false

theorem take_unused {stmt : StmtHandle} {req : Request} {a : Answer} (h : req.uses stmt = false)
    (htake : s.take results req a = some s') : s'.cursors stmt = s.cursors stmt := by
  unfold CursorStore.take at htake
  split at htake
  · rename_i used _ _ _
    have hother : stmt ≠ used.handle := fun he => by
      rw [he, Request.uses, beq_self_eq_true] at h
      cases h
    rw [← Option.some.inj htake]
    exact Function.update_of_ne hother _ _
  · rename_i used count behind a
    have hother : stmt ≠ used.handle := fun he => by
      rw [he, Request.uses, beq_self_eq_true] at h
      cases h
    split at htake
    · rw [Option.some.inj htake]
    · split at htake
      · rw [← Option.some.inj htake]
        exact Function.update_of_ne hother _ _
      · cases htake
  · rename_i used _
    have hother : stmt ≠ used := fun he => by
      rw [he, Request.uses, beq_self_eq_true] at h
      cases h
    rw [← Option.some.inj htake]
    exact Function.update_of_ne hother _ _
  · rw [Option.some.inj htake]

/-- A cursor nothing has been sent about stands where it stood. -/
theorem Unused.cursor {stmt : StmtHandle} (h : Unused stmt c c') (hbase : base ≤ c.log.length)
    (hs : CursorStore.since results base c.log = some s)
    (hs' : CursorStore.since results base c'.log = some s') : s'.cursors stmt = s.cursors stmt := by
  obtain ⟨new, hlog, hnew⟩ := h
  rw [hlog] at hs'
  refine since_stays (fun s => s.cursors stmt) hbase ?_ hs hs'
  intro e he s s' hsee
  have hunused := hnew e he
  cases e with
  | sent n turn deferred req answer => exact take_unused hunused hsee
  | _ =>
    cases hsee
    rfl

theorem Unused.extends {stmt : StmtHandle} (h : Unused stmt c c') : c.log <:+ c'.log := by
  obtain ⟨new, hlog, -⟩ := h
  exact ⟨new, hlog.symm⟩

/-! The system: a stream, and whatever else happens on its connection -/

section
variable (link : Link) (codec : Codec) (opts : Options) (fuel tx : Nat) (params : List ParamValue)
  (query : QueryOptions) (st : StreamState)

/-- The first section up to its batch, before `materialize`. -/
def fetchFirst : M FetchBatch := do
  let info ← orPrepare link codec tx st.sql st.info
  let (_, _, exec) ← streamStart link codec opts tx params query info
  firstBatch link fuel info exec

/-- A later section up to its batch. -/
def fetchNext : M FetchBatch :=
  match st.info with
  | some info =>
    fetchRows link fuel info (nextFetchCount info.rowWidth (fetchCeiling opts query) st.fetchCount)
  | none => pure ⟨[], true⟩

end

/-- A batch of a stream: its rows as they were decoded, the connection as it stood then, and the rows
that were given out. -/
structure StreamedBatch where
  decoded : List Row
  conn : Conn
  rows : List Row

/-- A stream of the statement `st.info` that has given out the rows of `out` in so many batches, and
the connection as it stands, which had `base` events when the stream took the lock for the first
time. -/
inductive Streaming (link : Link) (codec : Codec) (opts : Options) (fuel tx : Nat)
    (query : QueryOptions) : Nat → StreamState → List StreamedBatch → List Row → Conn → Prop
  | first {c c₁ c' : Conn} {params : List ParamValue} {st st' : StreamState} {b : FetchBatch}
      {rows : List Row} (h : Reached link codec opts true c)
      (hfetch : fetchFirst link codec opts fuel tx params query st c.nextTurn = (.ok b, c₁))
      (hrun : streamFirst link codec opts fuel tx params query st c.nextTurn =
        (.ok (.ok rows, st'), c')) :
      Streaming link codec opts fuel tx query c.log.length st' [⟨b.rows, c₁, rows⟩] rows c'
  | next {base : Nat} {c c₁ c' : Conn} {st st' : StreamState} {batches : List StreamedBatch}
      {b : FetchBatch} {out rows : List Row}
      (h : Streaming link codec opts fuel tx query base st batches out c) (hmore : st.eof = false)
      (hfetch : fetchNext link opts fuel query st c.nextTurn = (.ok b, c₁))
      (hrun : streamNext link opts fuel tx query st c.nextTurn = (.ok (.ok rows, st'), c')) :
      Streaming link codec opts fuel tx query base st' (batches ++ [⟨b.rows, c₁, rows⟩])
        (out ++ rows) c'
  | other {base n : Nat} {c : Conn} {st : StreamState} {batches : List StreamedBatch}
      {out : List Row} {s : Section}
      (h : Streaming link codec opts fuel tx query base st batches out c)
      (hs : (s.body link codec opts n c.nextTurn).1.settled = true)
      (hunused : ∀ info ∈ st.info, Unused info.handle c (s.body link codec opts n c.nextTurn).2) :
      Streaming link codec opts fuel tx query base st batches out
        (s.body link codec opts n c.nextTurn).2
  | cleared {base : Nat} {c : Conn} {st : StreamState} {batches : List StreamedBatch}
      {out : List Row} (h : Streaming link codec opts fuel tx query base st batches out c)
      (hunused : ∀ info ∈ st.info, Unused info.handle c (c.clearInUse link)) :
      Streaming link codec opts fuel tx query base st batches out (c.clearInUse link)

theorem discard_run {α : Type} {x : M α} {a : α} (h : x c = (.ok a, c')) :
    discard x c = (.ok (), c') := by
  change Async.bind x (fun _ => pure ()) c = _
  rw [Async.bind, h]
  rfl

theorem Streaming.reached {st : StreamState} {batches : List StreamedBatch} {out : List Row}
    (h : Streaming link codec opts fuel tx query base st batches out c) : Reached link codec opts true c := by
  induction h with
  | @first c c₁ c' params st st' b rows h _ hrun =>
    have hsection : (Section.streamFirst tx params query st).body link codec opts fuel c.nextTurn =
        (.ok (), c') := discard_run hrun
    have hreached := @Reached.settled _ _ _ _ fuel (.streamFirst tx params query st) h
      (congrArg (fun r => r.1.settled) hsection)
    rwa [hsection] at hreached
  | @next base c c₁ c' st st' batches b out rows _ _ _ hrun ih =>
    have hsection : (Section.streamNext tx query st).body link codec opts fuel c.nextTurn =
        (.ok (), c') := discard_run hrun
    have hreached := @Reached.settled _ _ _ _ fuel (.streamNext tx query st) ih
      (congrArg (fun r => r.1.settled) hsection)
    rwa [hsection] at hreached
  | other _ hs _ ih => exact ih.settled hs
  | cleared _ _ ih => exact ih.cleared

/-! What preparing the statement does to the account: nothing -/

theorem along_send {r : Conn → Conn → Prop} {req : Request}
    (h : ∀ c, r c (c.send link false req)) : Async.Along r (send link req) := h

section
variable {r : Conn → Conn → Prop} [hr : Reads link r]

theorem along_allocateAndPrepare (hsend : ∀ c req, (∀ stmt, req.uses stmt = false) →
    r c (c.send link false req)) (hflush : ∀ c, r c c.flush) (tx : Nat) (sql : String) :
    Async.Along r (allocateAndPrepare link codec tx sql) := by
  unfold allocateAndPrepare
  refine Async.Along.get.bind fun c => ?_
  refine (along_send fun c' => hsend c' _ fun _ => rfl).bind fun alloc => ?_
  refine (along_send fun c' => hsend c' _ fun _ => rfl).bind fun _ => ?_
  refine (Async.Along.update hflush).bind fun _ => ?_
  refine along_readResponse.bind fun allocResp => along_readResponse.bind fun prepResp => ?_
  refine (Async.Along.lift _).bind fun description => (Async.Along.lift _).bind fun readers => ?_
  exact (Async.Along.lift _).bind fun outputBlr => .pure _

theorem along_orPrepare (hsend : ∀ c req, (∀ stmt, req.uses stmt = false) →
    r c (c.send link false req)) (hflush : ∀ c, r c c.flush) (tx : Nat) (sql : String)
    (cached : Option PreparedStatementInfo) :
    Async.Along r (orPrepare link codec tx sql cached) := by
  cases cached with
  | some info => exact .pure info
  | none =>
    refine (along_allocateAndPrepare hsend hflush tx sql).bind fun info => ?_
    exact (Async.Along.lift _).bind fun readers => .pure _

end

theorem take_neutral {req : Request} (h : ∀ stmt, req.uses stmt = false) (a : Answer) :
    s.take results req a = some s := by
  cases req with
  | execute used _ _ =>
    have hused := h used.handle
    rw [Request.uses, beq_self_eq_true] at hused
    cases hused
  | fetch used _ _ =>
    have hused := h used.handle
    rw [Request.uses, beq_self_eq_true] at hused
    cases hused
  | freeStatement used _ =>
    have hused := h used
    rw [Request.uses, beq_self_eq_true] at hused
    cases hused
  | _ => rfl

theorem orPrepare_sameCursors (hu : link.Undisturbed) (sql : String)
    (cached : Option PreparedStatementInfo) :
    Async.Along (SameCursors results base) (orPrepare link codec tx sql cached) := by
  have := @reads_sameCursors link results base hu
  refine along_orPrepare ?_ ?_ tx sql cached
  · intro c req hreq hbase
    exact ⟨Nat.le_succ_of_le hbase, since_skip hbase fun s => take_neutral hreq _⟩
  · intro c hbase
    rw [Conn.flush_log]
    exact ⟨hbase, rfl⟩

theorem orPrepare_extends (sql : String) (cached : Option PreparedStatementInfo) :
    Async.Along Extends (orPrepare link codec tx sql cached) := by
  refine along_orPrepare (fun c req _ => List.suffix_cons _ _) ?_ tx sql cached
  intro c
  have hlog : c.flush.log = c.log := Conn.flush_log c
  exact ⟨[], hlog.symm⟩

/-- A statement at hand, and a wire in step. -/
theorem orPrepare_sync (hu : link.Undisturbed) {sql : String} {cached : Option PreparedStatementInfo}
    {info : PreparedStatementInfo} (hsync : Sync [] c)
    (h : orPrepare link codec tx sql cached c = (.ok info, c')) : Sync [] c' := by
  cases cached with
  | some info' =>
    obtain ⟨-, rfl⟩ := Prod.mk.inj h
    exact hsync
  | none =>
    obtain ⟨prepared, c₁, hprepare, hcodecs⟩ := Async.bind_ok h
    obtain ⟨readers, c₂, hlift, hpure⟩ := Async.bind_ok hcodecs
    obtain ⟨-, rfl⟩ := Async.lift_ok hlift
    obtain ⟨-, rfl⟩ := Prod.mk.inj hpure
    exact (Async.wp_eq_of_run (allocateAndPrepare_sync (history_undisturbed hu) (fun _ => hsync) tx sql)
      hprepare trivial).1

/-! What a section has run through -/

structure FirstRun (link : Link) (codec : Codec) (opts : Options) (fuel tx : Nat)
    (params : List ParamValue) (query : QueryOptions) (st st' : StreamState) (rows : List Row)
    (info : PreparedStatementInfo) (mapper : RowMapper) (exec : ExecuteResult) (c c₁ c₂ c' : Conn) :
    Prop where
  prepared : orPrepare link codec tx st.sql st.info c = (.ok info, c₁)
  started : ∃ count, streamStart link codec opts tx params query info c₁ = (.ok (mapper, count, exec), c₂)
  brought : streamBatch link opts fuel tx mapper (firstBatch link fuel info exec) c₂ =
    (.ok (rows, st'.eof), c')
  statement : st'.info = some info
  shaping : st'.mapper = some mapper

theorem streamFirst_ok {params : List ParamValue} {st st' : StreamState} {rows : List Row}
    (h : streamFirst link codec opts fuel tx params query st c = (.ok (.ok rows, st'), c')) :
    ∃ info mapper exec c₁ c₂, FirstRun link codec opts fuel tx params query st st' rows info mapper
      exec c c₁ c₂ c' := by
  unfold streamFirst at h
  obtain ⟨prepared, c₁, hprepare, h⟩ := Async.bind_ok h
  cases prepared with
  | error e => cases h
  | ok info =>
    have hprepared := Async.attempt_ok hprepare
    dsimp only at h
    unfold streamExecute at h
    obtain ⟨started, c₂, hstart, h⟩ := Async.bind_ok h
    cases started with
    | error e => cases h
    | ok started =>
      obtain ⟨mapper, count, exec⟩ := started
      have hstarted := Async.attempt_ok hstart
      obtain ⟨batch, c₃, hbatch, h⟩ := Async.bind_ok h
      cases batch with
      | error e => cases h
      | ok batch =>
        obtain ⟨rows', eof⟩ := batch
        have hbrought := Async.attempt_ok hbatch
        obtain ⟨hr, rfl⟩ := Prod.mk.inj h
        obtain ⟨hrows, rfl⟩ := Prod.mk.inj (Outcome.ok.inj hr)
        obtain rfl := Except.ok.inj hrows
        exact ⟨info, mapper, exec, c₁, c₂, hprepared, ⟨count, hstarted⟩, hbrought, rfl, rfl⟩

theorem streamNext_ok {st st' : StreamState} {rows : List Row} {info : PreparedStatementInfo}
    {mapper : RowMapper} (hinfo : st.info = some info) (hmapper : st.mapper = some mapper)
    (h : streamNext link opts fuel tx query st c = (.ok (.ok rows, st'), c')) :
    streamBatch link opts fuel tx mapper (fetchRows link fuel info
        (nextFetchCount info.rowWidth (fetchCeiling opts query) st.fetchCount)) c =
      (.ok (rows, st'.eof), c') ∧ st'.info = some info ∧ st'.mapper = some mapper := by
  unfold streamNext at h
  rw [hinfo, hmapper] at h
  obtain ⟨batch, c₁, hbatch, h⟩ := Async.bind_ok h
  cases batch with
  | error e => cases h
  | ok batch =>
    obtain ⟨rows', eof⟩ := batch
    have hbrought := Async.attempt_ok hbatch
    obtain ⟨hr, rfl⟩ := Prod.mk.inj h
    obtain ⟨hrows, rfl⟩ := Prod.mk.inj (Outcome.ok.inj hr)
    obtain rfl := Except.ok.inj hrows
    exact ⟨hbrought, rfl, rfl⟩

theorem streamBatch_ok {mapper : RowMapper} {fetch : M FetchBatch} {rows : List Row} {eof : Bool}
    (h : streamBatch link opts fuel tx mapper fetch c = (.ok (rows, eof), c')) :
    ∃ b c₁, fetch c = (.ok b, c₁) ∧ mapper.materialize link opts fuel tx b.rows c₁ = (.ok rows, c') ∧
      b.eof = eof := by
  obtain ⟨b, c₁, hfetch, h⟩ := Async.bind_ok h
  obtain ⟨rows', c₂, hmaterialize, h⟩ := Async.bind_ok h
  obtain ⟨hr, rfl⟩ := Prod.mk.inj h
  obtain ⟨rfl, rfl⟩ := Prod.mk.inj (Outcome.ok.inj hr)
  exact ⟨b, c₁, hfetch, hmaterialize, rfl⟩

/-! What a batch brings -/

/-- The cursor of the statement has still `left` to bring. -/
def Standing (results : Nat → List (List (Option Bytes))) (base : Nat) (stmt : PreparedStatementInfo)
    (left : List (List (Option Bytes))) (c : Conn) : Prop :=
  base ≤ c.log.length ∧
    ∃ s, CursorStore.since results base c.log = some s ∧ s.cursors stmt.handle = some left

/-- A batch has brought the first `n` rows of `left`, decoded and with their blobs. -/
structure Brought (link : Link) (opts : Options) (fuel tx : Nat) (stmt : PreparedStatementInfo)
    (mapper : RowMapper) (base : Nat) (log : List Event) (left : List (List (Option Bytes))) (n : Nat)
    (b : StreamedBatch) (eof : Bool) : Prop where
  within : n ≤ left.length
  decoded : decodeRows stmt.columnReaders (left.take n) = some b.decoded
  materialized : Materialized link opts fuel tx mapper base log b.conn b.decoded b.rows
  complete : eof = true → left.length ≤ n
  progress : eof = false → 0 < n

/-- Blobs are read between the fetches, and no cursor is touched. -/
theorem Left.standing {left : List (List (Option Bytes))} (hleft : s.cursors stmt.handle = some left)
    (h : Left link (fun req => req.isBlobOp = true) (Uploading link results base s) c) :
    Standing results base stmt left c := by
  obtain ⟨c₀, reqs, ⟨-, hbegun, hs⟩, hreqs, rfl⟩ := h
  rw [Conn.sendAllDeferred]
  induction reqs generalizing c₀ with
  | nil => exact ⟨hbegun, s, hs, hleft⟩
  | cons req reqs ih =>
    have hbegun' : base ≤ (c₀.sendDeferred link req).log.length :=
      Nat.le_succ_of_le (Nat.le_succ_of_le hbegun)
    have hblob : req.isBlobOp = true := hreqs req List.mem_cons_self
    refine ih (c₀.sendDeferred link req) hbegun' ?_ fun req' h => hreqs req' (List.mem_cons_of_mem _ h)
    have hmarked : CursorStore.since results base (c₀.sendDeferred link req).log =
        CursorStore.since results base (c₀.send link true req).log :=
      since_skip (Nat.le_succ_of_le hbegun) fun _ => rfl
    have hsent : CursorStore.since results base (c₀.send link true req).log =
        CursorStore.since results base c₀.log := since_skip hbegun fun _ => take_blobOp hblob _
    exact (hmarked.trans hsent).trans hs

/-- What comes behind a fetch leaves a history outside `K` outside it. -/
theorem materialize_earlier (codec : Codec) {K : List Event → Prop} (hK : History link K)
    {mapper : RowMapper} {rows rows' : List Row}
    (h : mapper.materialize link opts fuel tx rows c = (.ok rows', c')) (hk : K c'.log) : K c.log := by
  by_contra hn
  have hleft : Left link (fun _ => True) (fun _ c => ¬ K c.log) c' := Async.wp_eq_of_run
    ((@statement_not link codec K hK).materialize_triple mapper fuel tx rows c hn) h
  exact hleft.not hK hk

theorem readFetchBatch_earlier {K : List Event → Prop} (hK : History link K) {b : FetchBatch}
    (h : readFetchBatch link stmt fuel [] c = (.ok b, c')) (hk : K c'.log) : K c.log := by
  by_contra hn
  have hnot : Async.wp (readFetchBatch link stmt fuel [])
      ⟨fun _ c' => ¬ K c'.log, fun _ c' => ¬ K c'.log, fun c' => ¬ K c'.log⟩ c :=
    hK.wp_of_not (along_readFetchBatch stmt fuel []) hn (fun _ _ h => h) (fun _ _ h => h) fun _ h => h
  exact Async.wp_eq_of_run hnot h hk

theorem Fetched.brought (hu : link.Undisturbed) (codec : Codec) {left : List (List (Option Bytes))} {count n : Nat}
    {b : FetchBatch} {mapper : RowMapper} {rows : List Row} (hcount : 0 < count)
    (h : Fetched results base s stmt left count n b c)
    (hrun : mapper.materialize link opts fuel tx b.rows c = (.ok rows, c')) :
    Brought link opts fuel tx stmt mapper base c'.log left n ⟨b.rows, c, rows⟩ b.eof ∧
      Standing results base stmt (left.drop n) c' := by
  have haccount := h.account
  have hblobs := materialized hu haccount.wire.sync haccount.begun hrun (List.suffix_refl _)
  refine ⟨⟨h.within, h.rows, hblobs, h.complete, fun hmore => h.progress hmore hcount⟩, ?_⟩
  generalize hs : ({ s with cursors := Function.update s.cursors stmt.handle (some (left.drop n)) } :
    CursorStore) = s' at haccount
  have hcursor : s'.cursors stmt.handle = some (left.drop n) := by
    rw [← hs]
    exact Function.update_self _ _ _
  have hblobs := @Discipline.statementless _ codec _ _ _ (@uploading_discipline link results base s' hu)
  have hstart : Uploading link results base s' 0 c :=
    ⟨⟨[], rfl, haccount.wire.sync⟩, haccount.begun, haccount.store⟩
  have hleft := Async.wp_eq_of_run (hblobs.materialize_triple mapper fuel tx b.rows c hstart) hrun
  exact Left.standing hcursor hleft

/-! What a stream gives out -/

/-- What has been given out are the first `n` rows of `left`, batch by batch with their blobs. -/
structure Streamed (link : Link) (opts : Options) (fuel tx : Nat) (stmt : PreparedStatementInfo)
    (mapper : RowMapper) (base : Nat) (log : List Event) (left : List (List (Option Bytes))) (n : Nat)
    (batches : List StreamedBatch) (eof : Bool) (out : List Row) : Prop where
  within : n ≤ left.length
  decoded : decodeRows stmt.columnReaders (left.take n) = some (batches.map (·.decoded)).flatten
  materialized : ∀ b ∈ batches, Materialized link opts fuel tx mapper base log b.conn b.decoded b.rows
  given : out = (batches.map (·.rows)).flatten
  complete : eof = true → n = left.length
  sections : batches.length ≤ n + 1
  progress : eof = false → batches.length ≤ n

theorem Streamed.start {mapper : RowMapper} {log : List Event} {left : List (List (Option Bytes))}
    {n : Nat} {b : StreamedBatch} {eof : Bool}
    (h : Brought link opts fuel tx stmt mapper base log left n b eof) :
    Streamed link opts fuel tx stmt mapper base log left n [b] eof b.rows where
  within := h.within
  decoded := by
    rw [h.decoded]
    exact congrArg some (List.append_nil b.decoded).symm
  materialized := by
    intro b' hb
    rw [List.mem_singleton.mp hb]
    exact h.materialized
  given := (List.append_nil b.rows).symm
  complete heof := Nat.le_antisymm h.within (h.complete heof)
  sections := Nat.le_add_left 1 n
  progress hmore := h.progress hmore

/-- The history goes on. -/
theorem Streamed.later (hu : link.Undisturbed) {mapper : RowMapper} {log log' : List Event}
    {left : List (List (Option Bytes))} {n : Nat} {batches : List StreamedBatch} {eof : Bool}
    {out : List Row}
    (h : Streamed link opts fuel tx stmt mapper base log left n batches eof out)
    (hlog : log <:+ log') : Streamed link opts fuel tx stmt mapper base log' left n batches eof out :=
  { h with materialized := fun b hb => (h.materialized b hb).later hu hlog }

theorem Streamed.more {mapper : RowMapper} {log : List Event} {left : List (List (Option Bytes))}
    {n k : Nat} {batches : List StreamedBatch} {out : List Row} {b : StreamedBatch} {eof : Bool}
    (h : Streamed link opts fuel tx stmt mapper base log left n batches false out)
    (hb : Brought link opts fuel tx stmt mapper base log (left.drop n) k b eof) :
    Streamed link opts fuel tx stmt mapper base log left (n + k) (batches ++ [b]) eof
      (out ++ b.rows) := by
  have hwithin : k ≤ left.length - n := by
    rw [← List.length_drop]
    exact hb.within
  have hn : n ≤ left.length := h.within
  have hbatches : batches.length ≤ n := h.progress rfl
  constructor
  · omega
  · rw [List.take_add, decodeRows_append, h.decoded, hb.decoded, List.map_append, List.flatten_append]
    exact congrArg (fun ds => some ((batches.map (·.decoded)).flatten ++ ds))
      (List.append_nil b.decoded).symm
  · intro b' hmem
    rcases List.mem_append.mp hmem with hmem | hmem
    · exact h.materialized b' hmem
    · rw [List.mem_singleton.mp hmem]
      exact hb.materialized
  · rw [h.given, List.map_append, List.flatten_append]
    exact congrArg ((batches.map (·.rows)).flatten ++ ·) (List.append_nil b.rows).symm
  · intro heof
    have hall : (left.drop n).length ≤ k := hb.complete heof
    rw [List.length_drop] at hall
    omega
  · rw [List.length_append, List.length_singleton]
    omega
  · intro hmore
    have hk : 0 < k := hb.progress hmore
    rw [List.length_append, List.length_singleton]
    omega

/-! One row is given out for each row that has been fetched -/

theorem decodeRows_length {readers : List ColumnReader} {rows : List (List (Option Bytes))} :
    ∀ {ds : List Row}, decodeRows readers rows = some ds → ds.length = rows.length := by
  induction rows with
  | nil =>
    intro ds h
    rw [← Option.some.inj h]
    rfl
  | cons cells rows ih =>
    intro ds h
    cases hrow : decodeRow readers cells with
    | error e =>
      rw [decodeRows_stop hrow] at h
      cases h
    | ok row =>
      rw [decodeRows_cons hrow] at h
      obtain ⟨ds', hds', rfl⟩ := Option.map_eq_some_iff.mp h
      rw [List.length_cons, List.length_cons, ih hds']

theorem RowMapper.fillRows_length {mapper : RowMapper} {rows : List Row} :
    ∀ {datas : List Bytes} {rows' : List Row}, mapper.fillRows rows datas = .ok rows' →
      rows'.length = rows.length := by
  induction rows with
  | nil =>
    intro datas rows' h
    rw [← Except.ok.inj h]
  | cons row rows ih =>
    intro datas rows' h
    rw [RowMapper.fillRows] at h
    cases hrow : mapper.fillRow 0 row datas with
    | error e =>
      rw [hrow] at h
      cases h
    | ok filled =>
      rw [hrow] at h
      cases hrows : mapper.fillRows rows filled.2 with
      | error e =>
        change (mapper.fillRows rows filled.2 >>= fun rows => pure (filled.1 :: rows)) = _ at h
        rw [hrows] at h
        cases h
      | ok rows'' =>
        change (mapper.fillRows rows filled.2 >>= fun rows => pure (filled.1 :: rows)) = _ at h
        rw [hrows] at h
        rw [← Except.ok.inj h, List.length_cons, List.length_cons, ih hrows]

theorem materialize_length {mapper : RowMapper} {rows rows' : List Row}
    (h : mapper.materialize link opts fuel tx rows c = (.ok rows', c')) :
    rows'.length = rows.length := by
  by_cases heager : mapper.hasKeptEagerBlobs = true
  · obtain ⟨datas, hfilled⟩ := RowMapper.materialize_filled heager h
    exact RowMapper.fillRows_length hfilled.fills
  · rw [RowMapper.materialize_idle (Bool.eq_false_iff.mpr heager)] at h
    rw [Outcome.ok.inj (Prod.mk.inj h).1]

theorem Streamed.length {mapper : RowMapper} {log : List Event} {left : List (List (Option Bytes))}
    {n : Nat} {batches : List StreamedBatch} {eof : Bool} {out : List Row}
    (h : Streamed link opts fuel tx stmt mapper base log left n batches eof out) : out.length = n := by
  have hlengths : batches.map (fun b => b.rows.length) = batches.map (fun b => b.decoded.length) := by
    apply List.map_congr_left
    intro b hb
    obtain ⟨c', hrun⟩ := (h.materialized b hb).run
    exact materialize_length hrun
  calc out.length
      = (batches.map (fun b => b.rows.length)).sum := by
        rw [h.given, List.length_flatten, List.map_map]
        rfl
    _ = (batches.map (fun b => b.decoded.length)).sum := by rw [hlengths]
    _ = ((batches.map (·.decoded)).flatten).length := by
        rw [List.length_flatten, List.map_map]
        rfl
    _ = n := by
        rw [decodeRows_length h.decoded, List.length_take]
        exact Nat.min_eq_left h.within

/-! Every run of the system -/

/-- The first section leaves the cursor behind the first batch. -/
theorem FirstRun.opens (hu : link.Undisturbed) {params : List ParamValue} {st st' : StreamState}
    {rows : List Row} {info : PreparedStatementInfo} {mapper : RowMapper} {exec : ExecuteResult}
    {b : FetchBatch} {c₁ c₂ c₃ : Conn}
    (h : FirstRun link codec opts fuel tx params query st st' rows info mapper exec c c₁ c₂ c')
    (hfetched : fetchFirst link codec opts fuel tx params query st c = (.ok b, c₃))
    (hselect : info.description.stmtType.isSelect = true)
    (hfetch : 0 < fetchCeiling opts query) (hfuel : (results 0).length < fuel) (hsync : Sync [] c)
    (hserved : AsCursors results c.log.length c'.log) :
    rowMapper codec opts query info.description.outputs = .ok mapper ∧
      ∃ n, Brought link opts fuel tx info mapper c.log.length c'.log (results 0) n
          ⟨b.rows, c₃, rows⟩ st'.eof ∧
        Standing results c.log.length info ((results 0).drop n) c' := by
  have hK := @history_asCursors link results c.log.length hu
  -- the statement is prepared, and the parameters are uploaded
  have hsync₁ : Sync [] c₁ := orPrepare_sync hu hsync h.prepared
  have hsame : SameCursors results c.log.length c c₁ := by
    have halong := @orPrepare_sameCursors _ codec results c.log.length tx hu st.sql st.info c
    rwa [h.prepared] at halong
  obtain ⟨hbegun₁, hs₁⟩ := hsame (Nat.le_refl _)
  rw [since_start (Nat.le_refl _)] at hs₁
  obtain ⟨count, hstarted⟩ := h.started
  obtain ⟨b', c₆, hfirst, hmaterialize, heof⟩ := streamBatch_ok h.brought
  have hsame : (Outcome.ok b', c₆) = (Outcome.ok b, c₃) :=
    (Async.bind_run h.prepared (Async.bind_run hstarted hfirst)).symm.trans hfetched
  obtain ⟨hb, rfl⟩ := Prod.mk.inj hsame
  obtain rfl := Outcome.ok.inj hb
  unfold streamStart at hstarted
  obtain ⟨mapper', c₃, hmapper, huploaded⟩ := Async.bind_ok hstarted
  obtain ⟨hshaping, rfl⟩ := Async.lift_ok hmapper
  obtain ⟨prepared, c₄, hprepare, hexecuted⟩ := Async.bind_ok huploaded
  have hstart : Uploading link results c.log.length {} 0 c₃ := ⟨⟨[], rfl, hsync₁⟩, hbegun₁, hs₁⟩
  have huploads := @Discipline.statementless _ codec _ _ _
    (@uploading_discipline link results c.log.length {} hu)
  obtain ⟨⟨l, hl, hsync₄⟩, hbegun₄, hs₄⟩ := Async.wp_eq_of_run
    (huploads.prepareParams_triple tx info params c₃ hstart) hprepare
  obtain rfl : l = [] := hl
  obtain ⟨values, encodeText⟩ := prepared
  simp only [hselect, ↓reduceIte] at hexecuted
  obtain ⟨exec', c₅, hexec, hdone⟩ := Async.bind_ok hexecuted
  obtain ⟨hresult, rfl⟩ := Prod.mk.inj hdone
  obtain ⟨rfl, hrest⟩ := Prod.mk.inj (Outcome.ok.inj hresult)
  obtain ⟨rfl, rfl⟩ := Prod.mk.inj hrest
  -- the execute opens the cursor, and the fetch behind it brings the first batch
  obtain ⟨hfetching, -, hopened⟩ :=
    Async.wp_eq_of_run (executeStatement_opens hu hselect hsync₄ hbegun₄ hs₄) hexec
  rw [firstBatch, if_pos hfetching] at hfirst
  have hk₆ : AsCursors results c.log.length c₆.log :=
    materialize_earlier codec hK hmaterialize hserved
  have hk₅ : AsCursors results c.log.length c₅.log := readFetchBatch_earlier hK hfirst hk₆
  obtain ⟨s, s', n, turn, behind, hleft, htake, hcursors⟩ := (hopened hk₅).fetching
  obtain ⟨k, hfetched⟩ := Async.wp_eq_of_run (readFetchBatch_cursor hu hleft hfuel htake hcursors) hfirst
  obtain ⟨hbrought, hstanding⟩ := hfetched.brought hu codec (nextFetchCount_pos hfetch) hmaterialize
  rw [heof] at hbrought
  exact ⟨hshaping, k, hbrought, hstanding⟩

theorem streamFirst_earlier {K : List Event → Prop} (hK : History link K) {params : List ParamValue}
    {st st' : StreamState} {rows : List Row}
    (h : streamFirst link codec opts fuel tx params query st c = (.ok (.ok rows, st'), c'))
    (hk : K c'.log) : K c.log := by
  obtain ⟨prepared, c₁, hprepare, hexecute⟩ := Async.bind_ok h
  cases prepared with
  | error e => cases hexecute
  | ok info =>
    have hextends : c.log <:+ c₁.log := by
      have halong := @orPrepare_extends link codec tx st.sql st.info c
      rwa [Async.attempt_ok hprepare] at halong
    apply hK.of_suffix hextends
    by_contra hn
    have hsettled := Async.wp_eq_of_run ((@statement_not link codec K hK).streamExecute_triple
      fuel tx params query trivial st (E := fun _ => True) c₁ hn) hexecute
    exact hsettled.not hK hk

theorem streamNext_earlier (codec : Codec) {K : List Event → Prop} (hK : History link K)
    {st st' : StreamState} {rows : List Row}
    (h : streamNext link opts fuel tx query st c = (.ok (.ok rows, st'), c'))
    (hk : K c'.log) : K c.log := by
  by_contra hn
  have hsettled := Async.wp_eq_of_run ((@statement_not link codec K hK).streamNext_triple
    fuel tx query st (fun _ _ => trivial) (E := fun _ => True) c hn) h
  exact hsettled.not hK hk

/-- A section begins on a wire that is in step. -/
theorem Reached.sync (h : Reached link codec opts true c) (hclean : Clean c.log) : Sync [] c.nextTurn :=
  (guard_zero.mp ((reached_guard h).2 rfl) hclean).nextTurn

/-- The statement and the mapper are those of the first section. -/
theorem Streaming.shaped {st : StreamState} {batches : List StreamedBatch} {out : List Row}
    (h : Streaming link codec opts fuel tx query base st batches out c) :
    ∃ info mapper, st.info = some info ∧ st.mapper = some mapper := by
  induction h with
  | first _ _ hrun =>
    obtain ⟨info, mapper, exec, c₁, c₂, hfirst⟩ := streamFirst_ok hrun
    exact ⟨info, mapper, hfirst.statement, hfirst.shaping⟩
  | next _ _ _ hrun ih =>
    obtain ⟨info, mapper, hinfo, hmapper⟩ := ih
    obtain ⟨-, hinfo', hmapper'⟩ := streamNext_ok hinfo hmapper hrun
    exact ⟨info, mapper, hinfo', hmapper'⟩
  | other _ _ _ ih => exact ih
  | cleared _ _ ih => exact ih

/-- What has been given out, and where the cursor of the stream stands. -/
structure OnItsWay (link : Link) (codec : Codec) (opts : Options)
    (results : Nat → List (List (Option Bytes))) (fuel tx : Nat) (query : QueryOptions) (base : Nat)
    (st : StreamState) (info : PreparedStatementInfo) (mapper : RowMapper) (n : Nat)
    (batches : List StreamedBatch) (out : List Row) (c : Conn) : Prop where
  statement : st.info = some info
  shaping : st.mapper = some mapper
  mapped : rowMapper codec opts query info.description.outputs = .ok mapper
  streamed : Streamed link opts fuel tx info mapper base c.log (results 0) n batches st.eof out
  standing : Standing results base info ((results 0).drop n) c

theorem Standing.unused {left : List (List (Option Bytes))}
    (h : Standing results base stmt left c) (hunused : Unused stmt.handle c c')
    (hserved : AsCursors results base c'.log) : Standing results base stmt left c' := by
  obtain ⟨hbegun, s, hs, hleft⟩ := h
  obtain ⟨s', hs'⟩ := Option.isSome_iff_exists.mp hserved
  have hcursor : s'.cursors stmt.handle = s.cursors stmt.handle := hunused.cursor hbegun hs hs'
  exact ⟨Nat.le_trans hbegun hunused.extends.length_le, s', hs', hcursor.trans hleft⟩

theorem streamNext_extends {st st' : StreamState} {rows : List Row}
    (h : streamNext link opts fuel tx query st c = (.ok (.ok rows, st'), c')) : c.log <:+ c'.log := by
  have hstable := @stable_extends link c.log
  have hall := @Stable.statements link plainCodec _ _ hstable (fun _ => True) (fun _ _ => trivial)
    fun _ _ => ⟨fun _ _ _ _ => trivial, fun _ _ _ _ => trivial, fun _ _ _ _ => trivial,
      fun _ => trivial, trivial, trivial, fun _ => trivial, fun _ => trivial, fun _ => trivial, trivial⟩
  have hsettled := Async.wp_eq_of_run (hall.streamNext_triple fuel tx query st (fun _ _ => trivial)
    (E := fun _ => True) c (List.suffix_refl _)) h
  exact hstable.of_settled hsettled

/-- Nothing that others do on the connection changes that. -/
theorem OnItsWay.unused (hu : link.Undisturbed) {st : StreamState} {info : PreparedStatementInfo}
    {mapper : RowMapper} {n : Nat} {batches : List StreamedBatch} {out : List Row}
    (h : OnItsWay link codec opts results fuel tx query base st info mapper n batches out c)
    (hunused : ∀ info ∈ st.info, Unused info.handle c c') (hserved : AsCursors results base c'.log) :
    OnItsWay link codec opts results fuel tx query base st info mapper n batches out c' :=
  have hinfo := hunused info h.statement
  { h with
    streamed := h.streamed.later hu hinfo.extends
    standing := h.standing.unused hinfo hserved }

/-- A later section brings what comes next. -/
theorem OnItsWay.next (hu : link.Undisturbed) {st st' : StreamState} {info : PreparedStatementInfo}
    {mapper : RowMapper} {n : Nat} {batches : List StreamedBatch} {b : FetchBatch}
    {out rows : List Row} {c₁ : Conn}
    (h : OnItsWay link codec opts results fuel tx query base st info mapper n batches out c)
    (hmore : st.eof = false) (hfetch : 0 < fetchCeiling opts query)
    (hfuel : (results 0).length < fuel) (hsync : Sync [] c.nextTurn)
    (hfetched : fetchNext link opts fuel query st c.nextTurn = (.ok b, c₁))
    (hrun : streamNext link opts fuel tx query st c.nextTurn = (.ok (.ok rows, st'), c'))
    (hserved : AsCursors results base c'.log) :
    ∃ n', OnItsWay link codec opts results fuel tx query base st' info mapper n'
      (batches ++ [⟨b.rows, c₁, rows⟩]) (out ++ rows) c' := by
  obtain ⟨hbatch, hinfo', hmapper'⟩ := streamNext_ok h.statement h.shaping hrun
  rw [fetchNext, h.statement] at hfetched
  obtain ⟨b', c₂, hfetched', hmaterialize, heof⟩ := streamBatch_ok hbatch
  obtain ⟨hb, rfl⟩ := Prod.mk.inj (hfetched'.symm.trans hfetched)
  obtain rfl := Outcome.ok.inj hb
  have hk₁ : AsCursors results base c₂.log :=
    materialize_earlier codec (history_asCursors hu) hmaterialize hserved
  obtain ⟨hbegun, s, hs, hleft⟩ := h.standing
  have hshorter : ((results 0).drop n).length < fuel := by
    rw [List.length_drop]
    omega
  obtain ⟨k, hk⟩ :=
    Async.wp_eq_of_run (fetchRows_cursor hu hsync hbegun hs hleft hshorter) hfetched hk₁
  obtain ⟨hbrought, hstanding⟩ := hk.brought hu codec (nextFetchCount_pos hfetch) hmaterialize
  rw [heof] at hbrought
  rw [List.drop_drop] at hstanding
  have hextends : c.log <:+ c'.log := streamNext_extends (c := c.nextTurn) hrun
  have hstreamed := h.streamed.later hu hextends
  rw [hmore] at hstreamed
  exact ⟨n + k, hinfo', hmapper', h.mapped, hstreamed.more hbrought, hstanding⟩

theorem streaming_onItsWay (hu : link.Undisturbed) (hfetch : 0 < fetchCeiling opts query)
    (hfuel : (results 0).length < fuel) {st : StreamState} {batches : List StreamedBatch}
    {out : List Row} (h : Streaming link codec opts fuel tx query base st batches out c) :
    Clean c.log → AsCursors results base c.log →
      (∀ info ∈ st.info, info.description.stmtType.isSelect = true) →
      ∃ info mapper n,
        OnItsWay link codec opts results fuel tx query base st info mapper n batches out c := by
  have hclean := @history_clean link
  induction h with
  | @first c c₁ c' params st st' b rows h hfetched hrun =>
    intro hc hserved hselect
    obtain ⟨info, mapper, exec, c₁, c₂, hfirst⟩ := streamFirst_ok hrun
    have hsync : Sync [] c.nextTurn := h.sync (streamFirst_earlier (c := c.nextTurn) hclean hrun hc)
    obtain ⟨hmapped, n, hbrought, hstanding⟩ := hfirst.opens hu hfetched
      (hselect info hfirst.statement) hfetch hfuel hsync hserved
    exact ⟨info, mapper, n, hfirst.statement, hfirst.shaping, hmapped, .start hbrought, hstanding⟩
  | @next base c c₁ c' st st' batches b out rows h hmore hfetched hrun ih =>
    intro hc hserved hselect
    have hc₀ : Clean c.log := streamNext_earlier (c := c.nextTurn) codec hclean hrun hc
    have hserved₀ : AsCursors results base c.log :=
      streamNext_earlier (c := c.nextTurn) codec (history_asCursors hu) hrun hserved
    obtain ⟨info, mapper, hinfo, hmapper⟩ := h.shaped
    obtain ⟨-, hinfo', -⟩ := streamNext_ok hinfo hmapper hrun
    have hselect₀ : ∀ info ∈ st.info, info.description.stmtType.isSelect = true := by
      rw [hinfo, ← hinfo']
      exact hselect
    obtain ⟨info, mapper, n, hway⟩ := ih hc₀ hserved₀ hselect₀
    obtain ⟨n', hnext⟩ :=
      hway.next hu hmore hfetch hfuel (h.reached.sync hc₀) hfetched hrun hserved
    exact ⟨info, mapper, n', hnext⟩
  | other h hs hunused ih =>
    intro hc hserved hselect
    obtain ⟨info, mapper, hinfo, -⟩ := h.shaped
    have hsuffix := (hunused info hinfo).extends
    obtain ⟨info, mapper, n, hway⟩ := ih (hclean.of_suffix hsuffix hc)
      ((history_asCursors hu).of_suffix hsuffix hserved) hselect
    exact ⟨info, mapper, n, hway.unused hu hunused hserved⟩
  | cleared h hunused ih =>
    intro hc hserved hselect
    obtain ⟨info, mapper, hinfo, -⟩ := h.shaped
    have hsuffix := (hunused info hinfo).extends
    obtain ⟨info, mapper, n, hway⟩ := ih (hclean.of_suffix hsuffix hc)
      ((history_asCursors hu).of_suffix hsuffix hserved) hselect
    exact ⟨info, mapper, n, hway.unused hu hunused hserved⟩

/-- Whatever happens between the fetches of a stream: what has been given out are the first rows of
its result set, each of them once and with its blobs, and all of them when the stream has ended. -/
theorem streamRows_complete (hu : link.Undisturbed) {st : StreamState}
    {batches : List StreamedBatch} {out : List Row}
    (hfetch : 0 < opts.fetchSize) (hfuel : (results 0).length < fuel)
    (h : Streaming link codec opts fuel tx query base st batches out c) (hclean : Clean c.log)
    (hserved : AsCursors results base c.log)
    (hselect : ∀ info ∈ st.info, info.description.stmtType.isSelect = true) :
    ∃ info mapper, st.info = some info ∧
      rowMapper codec opts query info.description.outputs = .ok mapper ∧
      Streamed link opts fuel tx info mapper base c.log (results 0) out.length batches st.eof out := by
  obtain ⟨info, mapper, n, hway⟩ :=
    streaming_onItsWay hu (fetchCeiling_pos hfetch) hfuel h hclean hserved hselect
  have hlength : out.length = n := hway.streamed.length
  rw [hlength]
  exact ⟨info, mapper, hway.statement, hway.mapped, hway.streamed⟩

/-- A server with a table of three rows, of which it sends two at first, and two blobs in them. -/
def streamKeeper : Link where
  server := { bareServer fun req n =>
      match req with
      | .openBlob _ id => .ok { handle := if id = [7] then 11 else 12 }
      | .getSegment 11 _ =>
        if n = 3 then .ok { data := frame [1, 2] }
        else if n = 4 then .ok { handle := blobSegstrEofHandle, data := frame [3] }
        else .ok { handle := blobSegstrEofHandle }
      | .getSegment _ _ =>
        if n = 40 then .ok { handle := blobSegstrEofHandle, data := frame [4] }
        else .ok { handle := blobSegstrEofHandle }
      | _ => .ok {} with
    fetch := fun _ n =>
      if n = 1 then ⟨[fun _ => some [7], fun _ => none], .more⟩ else ⟨[fun _ => some [8]], .eof⟩ }
  clearAt := fun _ => false

/-- A stream of a statement from the cache. -/
def shelvedStream : StreamState :=
  { sql := "select b from t", cached := true, info := some shelvedSelect }

/-- The state of a stream behind a section. -/
def streamState : Outcome FirebirdError (Except FirebirdError (List Row) × StreamState) × Conn → StreamState
  | (.ok (_, st), _) => st
  | _ => shelvedStream

/-- The first section, a ping of somebody else, and the second section. -/
def shelvedFirst : Outcome FirebirdError (Except FirebirdError (List Row) × StreamState) × Conn :=
  streamFirst streamKeeper plainCodec {} 72 1 [] {} shelvedStream fresh.nextTurn

def shelvedPing : Outcome FirebirdError Unit × Conn :=
  Section.body streamKeeper plainCodec {} 72 (.control .ping) shelvedFirst.2.nextTurn

def shelvedNext : Outcome FirebirdError (Except FirebirdError (List Row) × StreamState) × Conn :=
  streamNext streamKeeper {} 72 1 {} (streamState shelvedFirst) shelvedPing.2.nextTurn

/-- The section has given out rows, and the stream is one of the statement from the cache. -/
def onShelf (r : Outcome FirebirdError (Except FirebirdError (List Row) × StreamState) × Conn) : Bool :=
  match r.1 with
  | .ok (.ok _, st) => (st.info.map fun info => (info.handle, info.description.stmtType.isSelect)) ==
      some (shelvedSelect.handle, true)
  | _ => false

theorem exists_of_onShelf
    {r : Outcome FirebirdError (Except FirebirdError (List Row) × StreamState) × Conn}
    (h : onShelf r = true) : (∃ rows, r = (.ok (.ok rows, streamState r), r.2)) ∧
      ∀ info ∈ (streamState r).info, info.handle = shelvedSelect.handle ∧
        info.description.stmtType.isSelect = true := by
  obtain ⟨o, c⟩ := r
  cases o with
  | ok a =>
    obtain ⟨res, st⟩ := a
    cases res with
    | error e => cases h
    | ok rows =>
      refine ⟨⟨rows, rfl⟩, fun info hinfo => ?_⟩
      have hmap : (st.info.map fun info => (info.handle, info.description.stmtType.isSelect)) =
          some (shelvedSelect.handle, true) := beq_iff_eq.mp h
      have hinfo' : st.info = some info := hinfo
      rw [hinfo'] at hmap
      exact Prod.mk.inj (Option.some.inj hmap)
  | error e => cases h
  | pending => cases h

theorem exists_of_isOk {α : Type} {r : Outcome FirebirdError α × Conn}
    (h : (match r.1 with | .ok _ => true | _ => false) = true) : ∃ a, r = (.ok a, r.2) := by
  obtain ⟨o, c⟩ := r
  cases o with
  | ok a => exact ⟨a, rfl⟩
  | error e => cases h
  | pending => cases h

theorem control_extends {op : Control} {n : Nat}
    (h : (Section.control op).body link codec opts n c = (.ok (), c')) : c.log <:+ c'.log := by
  have hstable := @stable_extends link c.log
  exact Async.wp_eq_of_run (hstable.aside (fun _ _ => trivial) codec opts n (s := .control op) rfl
    (fun _ => trivial) c (List.suffix_refl _)) h

theorem shelvedPing_unused : Unused shelvedSelect.handle shelvedFirst.2 shelvedPing.2 := by
  obtain ⟨_, hping⟩ := exists_of_isOk (r := shelvedPing) (by decide +kernel)
  obtain ⟨new, hnew⟩ := control_extends hping
  have hturn (c : Conn) : c.nextTurn.log = c.log := rfl
  rw [hturn] at hnew
  refine ⟨new, hnew.symm, ?_⟩
  have htake : new = shelvedPing.2.log.take (shelvedPing.2.log.length - shelvedFirst.2.log.length) := by
    rw [← hnew, List.length_append, Nat.add_sub_cancel, List.take_left]
  rw [htake]
  decide +kernel

/-- Two rows with a blob, a ping of somebody else, and a third row with another blob. -/
theorem streamRows_complete_three :
    ∃ batches out, Streaming streamKeeper plainCodec {} 72 1 {} 0 (streamState shelvedNext) batches out
        shelvedNext.2 ∧
      (streamState shelvedNext).eof = true ∧ AsStored keptSegs 0 shelvedNext.2.log ∧
      ∃ info mapper, (streamState shelvedNext).info = some info ∧
        rowMapper plainCodec {} {} info.description.outputs = .ok mapper ∧
        Streamed streamKeeper {} 72 1 info mapper 0 shelvedNext.2.log (shelvedRows 0) out.length batches
          (streamState shelvedNext).eof out := by
  have hundisturbed : streamKeeper.Undisturbed := fun _ => rfl
  have hstart : Reached streamKeeper plainCodec {} true fresh := .start ⟨rfl, rfl⟩ rfl rfl rfl
  obtain ⟨b₁, hfetch₁⟩ := exists_of_isOk
    (r := fetchFirst streamKeeper plainCodec {} 72 1 [] {} shelvedStream fresh.nextTurn) (by decide +kernel)
  obtain ⟨b₂, hfetch₂⟩ := exists_of_isOk
    (r := fetchNext streamKeeper {} 72 {} (streamState shelvedFirst) shelvedPing.2.nextTurn) (by decide +kernel)
  obtain ⟨⟨rows₁, hrun₁⟩, hinfo₁⟩ := exists_of_onShelf (r := shelvedFirst) (by decide +kernel)
  obtain ⟨⟨rows₂, hrun₂⟩, hinfo₂⟩ := exists_of_onShelf (r := shelvedNext) (by decide +kernel)
  have h₁ := Streaming.first hstart hfetch₁ hrun₁
  have h₂ := h₁.other (s := .control .ping) (n := 72) (by decide +kernel) fun info hinfo => by
    rw [(hinfo₁ info hinfo).1]
    exact shelvedPing_unused
  have h₃ := h₂.next (by decide +kernel) hfetch₂ hrun₂
  exact ⟨_, _, h₃, by decide +kernel, by decide +kernel, streamRows_complete hundisturbed (by decide)
    (by decide) h₃ (by decide +kernel) (by decide +kernel) fun info hinfo => (hinfo₂ info hinfo).2⟩

end FastFirebird
