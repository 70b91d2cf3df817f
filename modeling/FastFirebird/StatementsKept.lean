import FastFirebird.Stable
import FastFirebird.StatementLedger

/-! Preparing, running and batching: each call leaves the statements in the cache or with their owners,
and loses one at most when it fails. -/
namespace FastFirebird

variable {link : Link} {codec : Codec} {opts : Options} {held : List StmtHandle} {lost : Nat} {c c' : Conn}
  {sql : String} {info : PreparedStatementInfo} {out : List StmtHandle} {c₀ : Conn}

/-! Requests that neither gain nor drop a statement -/

/-- As `c₀` was, with the statements `out` on the server, but for requests that change nothing about them. -/
structure Shelf (out : List StmtHandle) (c₀ c : Conn) : Prop where
  cache : c.cache = c₀.cache
  later : c₀.requests ≤ c.requests
  grown : c₀.log <:+ c.log
  server : Clean c.log → ledger Event.deed c.log = some out

/-- The request is about no statement, or about one of `out`, which it does not drop. -/
def Request.Leaves (out : List StmtHandle) (req : Request) : Prop :=
  ∀ n answer, settle out (req.deed n answer) = some out

theorem stable_shelf (hu : link.Undisturbed) (out : List StmtHandle) (c₀ : Conn) :
    Stable link (Request.Leaves out) (Shelf out c₀) where
  send c deferred req hreq h := by
    refine ⟨h.cache, Nat.le_succ_of_le h.later, h.grown.trans (List.suffix_cons _ _), fun hclean => ?_⟩
    rw [Conn.send, ledger_cons, h.server hclean.2]
    exact hreq _ _
  mark c n h := by
    refine ⟨h.cache, h.later, h.grown.trans (List.suffix_cons _ _), fun hclean => ?_⟩
    exact (ledger_aside rfl).trans (h.server hclean.2)
  flush c h := by
    have hcache : c.flush.cache = c.cache := by
      unfold Conn.flush
      split <;> rfl
    refine ⟨hcache.trans h.cache, ?_, ?_, ?_⟩
    · rw [Conn.flush_requests]
      exact h.later
    · rw [Conn.flush_log]
      exact h.grown
    · rw [Conn.flush_log]
      exact h.server
  await c h := by
    rw [Conn.await, hu c.awaits]
    exact ⟨h.cache, h.later, h.grown, h.server⟩
  inbound c ps h := ⟨h.cache, h.later, h.grown, h.server⟩
  inline c inline h := ⟨h.cache, h.later, h.grown, h.server⟩
  drained c p h := by
    refine ⟨h.cache, h.later, h.grown.trans (List.suffix_cons _ _), fun hclean => ?_⟩
    exact (ledger_aside rfl).trans (h.server hclean.2)
  handedOver c p h := by
    refine ⟨h.cache, h.later, h.grown.trans (List.suffix_cons _ _), fun hclean => ?_⟩
    exact (ledger_aside rfl).trans (h.server hclean.2)

theorem leaves_blobOp {req : Request} (h : req.isBlobOp = true) : req.Leaves out := by
  intro n answer
  cases req with
  | openBlob | getSegment | closeBlob | createBlob | batchSegments | infoBlob => rfl
  | _ => cases h

theorem leaves_control (op : Control) : op.request.Leaves out := by
  intro n answer
  cases op <;> rfl

theorem covers_shelved {stmt : StmtHandle} (h : stmt ∈ out) : Stable.Covers (Request.Leaves out) stmt where
  execute _ _ _ hinfo _ _ := if_pos (hinfo ▸ h)
  execute2 _ _ _ hinfo _ _ := if_pos (hinfo ▸ h)
  fetch _ _ _ hinfo _ _ := if_pos (hinfo ▸ h)
  infoSql _ _ _ := if_pos h
  close _ _ := if_pos h
  batchCreate _ _ := if_pos h
  batchRegblob _ _ _ := if_pos h
  batchMsg _ _ _ := if_pos h
  batchExec _ _ _ := if_pos h
  batchRls _ _ := if_pos h

theorem shelf_statements (hu : link.Undisturbed) (out : List StmtHandle) (c₀ : Conn) :
    StatementDiscipline link codec (· ∈ out) (Request.Leaves out) (fun _ => Shelf out c₀)
      (fun _ => Shelf out c₀) (Shelf out c₀) (Shelf out c₀) :=
  (stable_shelf hu out c₀).statements (fun _ h => leaves_blobOp h) fun _ h => covers_shelved h

theorem Shelf.accountable (h : Shelf out c₀ c) : Accountable c := fun hclean => by
  rw [h.server hclean]
  rfl

/-- A program on statements that are there, whatever becomes of it. -/
theorem Keeping.stays {α : Type} {x : M α} (h : Keeping link held lost c) (hx : Keeps link x)
    (hstays : ∀ out, (∀ stmt ∈ c.shelved ++ held, stmt ∈ out) →
      Async.Triple (Shelf out c) (Shelf out c) x (Shelf out c) (Shelf out c)) :
    Async.wp x ⟨fun _ c' => Keeping link held lost c' ∧ c'.cache = c.cache,
      fun _ c' => Keeping link held lost c' ∧ c'.cache = c.cache, Accountable⟩ c := by
  obtain ⟨missing, hlost, hserver⟩ := h.server
  obtain ⟨out, hout, hperm⟩ : ∃ out, (Clean c.log → ledger Event.deed c.log = some out ∧ out.Nodup) ∧
      out.Perm (c.shelved ++ (held ++ missing)) := by
    by_cases hclean : Clean c.log
    · obtain ⟨out, hledger, hnodup, hperm⟩ := (hserver hclean).owns
      exact ⟨out, fun _ => ⟨hledger, hnodup⟩, hperm⟩
    · exact ⟨_, fun hc => absurd hc hclean, List.Perm.refl _⟩
  have hthere : ∀ stmt ∈ c.shelved ++ held, stmt ∈ out := by
    intro stmt hstmt
    apply hperm.mem_iff.mpr
    rw [← List.append_assoc]
    exact List.mem_append_left _ hstmt
  -- the wire is in step by `hx`, the statements are the same by `hstays`
  have hstart : Shelf out c c :=
    ⟨rfl, Nat.le_refl _, List.suffix_refl _, fun hclean => (hout hclean).1⟩
  have hdone : ∀ c', Guard link 0 c' → Shelf out c c' → Keeping link held lost c' ∧ c'.cache = c.cache := by
    intro c' hguard hshelf
    have hshelved : c'.shelved = c.shelved := by rw [Conn.shelved, hshelf.cache, Conn.shelved]
    refine ⟨⟨hguard, ?_, missing, hlost, fun hclean => ?_⟩, hshelf.cache⟩
    · rw [hshelf.cache]
      exact h.tidy
    · have hbefore := hclean.of_suffix hshelf.grown
      rw [hshelved]
      refine ⟨⟨out, hshelf.server hclean, (hout hbefore).2, hperm⟩, fun stmt hstmt => ?_⟩
      exact Nat.lt_of_lt_of_le ((hserver hbefore).earlier stmt hstmt) hshelf.later
  refine Async.wp_mono (Async.wp_and (hx c h.guard) (hstays out hthere c hstart)) ?_ ?_ ?_
  · exact fun _ c' hboth => hdone c' hboth.1 hboth.2
  · exact fun _ c' hboth => hdone c' hboth.1 hboth.2
  · exact fun c' hboth => hboth.2.accountable

/-- A run on a statement that is there. -/
theorem Keeping.executes (hu : link.Undisturbed) (h : Keeping link held lost c)
    (hs : info.handle ∈ c.shelved ++ held) (fuel tx : Nat) (params : List ParamValue) (close : Bool)
    (query : QueryOptions) :
    Async.wp (executePrepared link codec opts fuel tx info params close query)
      ⟨fun _ c' => Keeping link held lost c' ∧ c'.cache = c.cache,
        fun _ c' => Keeping link held lost c' ∧ c'.cache = c.cache, Accountable⟩ c := by
  apply h.stays (keeps_executePrepared fuel tx info params close query)
  intro out hthere
  have hrun : Async.Triple _ _ (executePrepared link codec opts fuel tx info params close query) _ _ :=
    (shelf_statements hu out c).executePrepared_triple fuel tx (hthere _ hs) params close query
  exact hrun.mono (fun _ h => h) (fun _ h => (stable_shelf hu out c).of_settled h)
    fun _ h => (stable_shelf hu out c).of_settled h

theorem Keeping.batches (hu : link.Undisturbed) (h : Keeping link held lost c)
    (hs : info.handle ∈ c.shelved ++ held) (tx : Nat) (rows : BatchRows) (names : List String)
    (batch : BatchOptions) :
    Async.wp (executeBatchPrepared link codec opts tx info rows names batch)
      ⟨fun _ c' => Keeping link held lost c' ∧ c'.cache = c.cache,
        fun _ c' => Keeping link held lost c' ∧ c'.cache = c.cache, Accountable⟩ c := by
  apply h.stays (keeps_executeBatchPrepared tx info rows names batch)
  intro out hthere
  have hrun : Async.Triple (Shelf out c) (Shelf out c) (runBatch link codec opts tx info rows names batch)
      (Shelf out c) (Shelf out c) :=
    ((shelf_statements hu out c).runBatch_triple tx (hthere _ hs) rows names batch).mono
      (fun _ h => h) (fun _ h => (stable_shelf hu out c).of_settled h)
      fun _ h => (stable_shelf hu out c).of_settled h
  unfold executeBatchPrepared
  refine Async.Triple.bind (Q := Shelf out c) (fun _ h => h) fun conn => ?_
  split
  · exact .throw _
  · split
    · exact .throw _
    · split
      · exact .throw _
      · split
        · exact .throw _
        · exact hrun

/-! Preparing a statement -/

theorem Accountable.shelf (h : Accountable c) : ∃ out, Shelf out c c := by
  cases hledger : ledger Event.deed c.log with
  | none =>
    refine ⟨[], rfl, Nat.le_refl _, List.suffix_refl _, fun hclean => ?_⟩
    have hsome := h hclean
    rw [hledger] at hsome
    cases hsome
  | some out => exact ⟨out, rfl, Nat.le_refl _, List.suffix_refl _, fun _ => hledger⟩

/-- Allocating fits any ledger. -/
theorem Accountable.allocate (h : Accountable c) (db : Nat) :
    Accountable (c.send link false (.allocateStatement db)) := by
  intro hclean
  obtain ⟨out, hout⟩ := Option.isSome_iff_exists.mp (h hclean.2)
  rw [Conn.send, ledger_cons, hout]
  change (settle out (Request.deed c.requests (.reply _) (.allocateStatement db))).isSome = true
  unfold Request.deed
  dsimp only
  split <;> rfl

theorem HoldsStatements.later {handles : List StmtHandle} (h : HoldsStatements handles c)
    (hledger : ledger Event.deed c'.log = ledger Event.deed c.log) (hle : c.requests ≤ c'.requests) :
    HoldsStatements handles c' := by
  obtain ⟨out, hout, hnodup, hperm⟩ := h.owns
  exact ⟨⟨out, hledger.trans hout, hnodup, hperm⟩, fun s hs => Nat.lt_of_lt_of_le (h.earlier s hs) hle⟩

theorem HoldsStatements.allocate {handles : List StmtHandle} {resp : Response} (h : HoldsStatements handles c)
    (hreply : link.server.reply (.allocateStatement c.dbHandle) c.requests = .ok resp) :
    HoldsStatements (⟨resp.handle, c.requests⟩ :: handles)
      (c.send link false (.allocateStatement c.dbHandle)) := by
  have hdeed : Event.deed (.sent c.requests c.turn false (.allocateStatement c.dbHandle)
      (link.server.answer (.allocateStatement c.dbHandle) c.requests)) = .gained ⟨resp.handle, c.requests⟩ := by
    change Request.deed c.requests (.reply (link.server.reply (.allocateStatement c.dbHandle) c.requests))
      (.allocateStatement c.dbHandle) = _
    rw [hreply]
    rfl
  refine ⟨h.owns.gained hdeed fun hmem => Nat.lt_irrefl _ (h.earlier _ hmem), fun s hs => ?_⟩
  rcases List.mem_cons.mp hs with rfl | hs
  · exact Nat.lt_succ_self _
  · exact Nat.lt_succ_of_lt (h.earlier s hs)

/-- Behind its allocation a prepare is about no statement. -/
theorem wp_allocateAndPrepare_shelf (hu : link.Undisturbed) (tx : Nat) (sql : String)
    (hstart : Shelf out (c.send link false (.allocateStatement c.dbHandle))
      (c.send link false (.allocateStatement c.dbHandle))) :
    Async.wp (allocateAndPrepare link codec tx sql)
      ⟨fun _ => Shelf out (c.send link false (.allocateStatement c.dbHandle)),
        fun _ => Shelf out (c.send link false (.allocateStatement c.dbHandle)),
        Shelf out (c.send link false (.allocateStatement c.dbHandle))⟩ c := by
  have hP := stable_shelf hu out (c.send link false (.allocateStatement c.dbHandle))
  have hsent := hP.flush _ (hP.send _ false (.prepareStatement tx sql) (fun _ _ => rfl) hstart)
  simp only [allocateAndPrepare, Async.wp_bind, Async.wp_get, wp_send, wp_flush]
  refine Async.wp_mono (hP.readResponse _ hsent) ?_ (fun _ _ h => h) fun _ h => h
  intro allocResp c₁ h₁
  refine Async.wp_bind.mpr (Async.wp_mono (hP.readResponse _ h₁) ?_ (fun _ _ h => h) fun _ h => h)
  intro prepResp c₂ h₂
  refine Async.wp_bind.mpr (Async.wp_lift (fun description _ => ?_) fun _ _ => h₂)
  refine Async.wp_bind.mpr (Async.wp_lift (fun readers _ => ?_) fun _ _ => h₂)
  exact Async.wp_bind.mpr (Async.wp_lift (fun _ _ => h₂) fun _ _ => h₂)

namespace Keeping

variable {stmt : StmtHandle}

theorem allocated (h : Keeping link held lost c) (hguard : Guard link 0 c')
    (hstart : Shelf out (c.send link false (.allocateStatement c.dbHandle))
      (c.send link false (.allocateStatement c.dbHandle)))
    (hdone : Shelf out (c.send link false (.allocateStatement c.dbHandle)) c')
    (hreply : Clean c'.log → ∃ resp, link.server.reply (.allocateStatement c.dbHandle) c.requests = .ok resp ∧
      stmt = ⟨resp.handle, c.requests⟩) : Keeping link (stmt :: held) lost c' := by
  obtain ⟨missing, hlost, hserver⟩ := h.server
  have hshelved : c'.shelved = c.shelved := by
    rw [Conn.shelved, hdone.cache]
    rfl
  refine ⟨hguard, ?_, missing, hlost, fun hclean => ?_⟩
  · rw [hdone.cache]
    exact h.tidy
  · obtain ⟨resp, hok, rfl⟩ := hreply hclean
    have hsent := hclean.of_suffix hdone.grown
    have hledger := (hdone.server hclean).trans (hstart.server hsent).symm
    have hgained := ((hserver hsent.2).allocate hok).later hledger hdone.later
    rw [hshelved]
    exact hgained.perm List.perm_middle.symm

theorem allocates (hu : link.Undisturbed) (h : Keeping link held lost c) (tx : Nat) (sql : String) :
    Async.wp (allocateAndPrepare link codec tx sql)
      ⟨fun info => Keeping link (info.handle :: held) lost, fun _ => Keeping link held (lost + 1),
        Accountable⟩ c := by
  obtain ⟨out, hstart⟩ := (@Accountable.allocate link c h.accountable c.dbHandle).shelf
  have hguard := @keeps_allocateAndPrepare link codec tx sql c h.guard
  have hsync := @allocateAndPrepare_sync link codec _ (@history_clean link) c (guard_zero.mp h.guard) tx sql
  refine Async.wp_mono (Async.wp_and (wp_allocateAndPrepare_shelf hu tx sql hstart)
    (Async.wp_and hguard hsync)) ?_ ?_ ?_
  · rintro info c' ⟨hdone, hguard, hsync⟩
    exact h.allocated hguard hstart hdone fun hclean => (hsync hclean).2
  · rintro e c' ⟨hdone, hguard, hsync⟩
    -- the statement is there only if its allocation was accepted
    cases hreply : link.server.reply (.allocateStatement c.dbHandle) c.requests with
    | ok resp =>
      -- nobody has the handle any more
      have hgained : Keeping link (⟨resp.handle, c.requests⟩ :: held) lost c' :=
        h.allocated hguard hstart hdone fun _ => ⟨resp, hreply, rfl⟩
      exact hgained.lose
    | error refusal =>
      -- such a history is not clean
      have hnone : Keeping link (⟨0, c.requests⟩ :: held) lost c' := by
        refine h.allocated hguard hstart hdone fun hclean => ?_
        have hharmless := hclean.harmless_of_suffix hdone.grown
        simp [Event.harmless, Request.tolerates, Server.answer, Answer.refused, hreply, Reply.isOk] at hharmless
      exact hnone.lose
  · exact fun c' hboth => hboth.1.accountable

theorem prepares (hu : link.Undisturbed) (h : Keeping link held lost c) (tx : Nat) (sql : String) :
    Async.wp (prepareInfo link codec tx sql)
      ⟨fun info => Keeping link (info.handle :: held) lost, fun _ => Keeping link held (lost + 1),
        Accountable⟩ c := by
  refine Async.wp_bind.mpr (Async.wp_mono (h.allocates hu tx sql) ?_ (fun _ _ h => h) fun _ h => h)
  intro info c' h'
  exact Async.wp_bind.mpr (Async.wp_lift (fun readers _ => h') fun _ _ => h'.lose)

end Keeping

/-! A statement of the cache, or a fresh one -/

theorem cacheFind_cacheGet (h : c.cacheFind sql = some info) : (c.cacheGet sql).cacheFind sql = some info := by
  obtain ⟨cache, hcache, hfind⟩ := Option.bind_eq_some_iff.mp h
  rw [cacheGet_cached hcache hfind]
  exact StatementCache.find_touch

theorem cacheFind_congr (h : c'.cache = c.cache) : c'.cacheFind sql = c.cacheFind sql := by
  rw [Conn.cacheFind, h, Conn.cacheFind]

namespace Keeping

theorem runsFresh (hu : link.Undisturbed) (h : Keeping link held lost c) (fuel tx : Nat) (sql : String)
    (params : List ParamValue) (query : QueryOptions) :
    Async.wp (runFresh link codec opts fuel tx sql params query)
      ⟨fun _ => Keeping link held lost, fun _ => Keeping link held (lost + 1), Accountable⟩ c := by
  refine Async.wp_bind.mpr (Async.wp_mono (h.prepares hu tx sql) ?_ (fun _ _ h => h) fun _ h => h)
  intro info c₁ h₁
  have hmem : info.handle ∈ c₁.shelved ++ info.handle :: held := List.mem_append_right _ List.mem_cons_self
  refine Async.wp_handle.mpr (Async.wp_bind.mpr
    (Async.wp_mono (h₁.executes hu hmem fuel tx params true query) ?_ ?_ fun _ h => h))
  · rintro result c₂ ⟨h₂, -⟩
    exact h₂.finishFresh sql
  · rintro e c₂ ⟨h₂, -⟩
    -- what was prepared for the run is dropped when the run fails
    exact h₂.drop.more (Nat.le_succ _)

/-- A stale statement is taken out of the cache. -/
theorem runsCached (hu : link.Undisturbed) (h : Keeping link held lost c) (hfind : c.cacheFind sql = some info)
    (fuel tx : Nat) (params : List ParamValue) (query : QueryOptions) :
    Async.wp (runCached link codec opts fuel tx sql info params query)
      ⟨fun _ => Keeping link held lost, fun _ => Keeping link held lost, Accountable⟩ c := by
  have hmem : info.handle ∈ c.shelved ++ held := List.mem_append_left _ (shelved_mem hfind)
  refine Async.wp_handle.mpr (Async.wp_bind.mpr
    (Async.wp_mono (h.executes hu hmem fuel tx params true query) ?_ ?_ fun _ h => h))
  · rintro result c₁ ⟨h₁, hcache⟩
    exact h₁.finishCached ((cacheFind_congr hcache).trans hfind)
  · rintro e c₁ ⟨h₁, -⟩
    dsimp only
    split
    · exact h₁.cacheRemove sql
    · exact h₁

theorem expandsStar (hu : link.Undisturbed) (h : Keeping link held lost c) (tx : Nat) (sql key : String)
    (query : QueryOptions) :
    Async.wp (expandStar link codec tx sql key query)
      ⟨fun _ => Keeping link held lost, fun _ => Keeping link held (lost + 1), Accountable⟩ c := by
  have hget := h.cacheGet sql
  simp only [expandStar, FastFirebird.cacheGet, Async.wp_bind, Async.wp_get, Async.wp_modify, Async.wp_pure]
  cases hfind : c.cacheFind sql with
  | some info =>
    refine (Async.wp_pure (a := info)).mpr (Async.wp_bind.mpr (Async.wp_lift (fun rewritten _ => ?_) fun _ _ => ?_))
    · exact hget.stars _
    · exact hget.more (Nat.le_succ _)
  | none =>
    refine Async.wp_mono (hget.prepares hu tx sql) ?_ (fun _ _ h => h) fun _ h => h
    intro info c₁ h₁
    refine Async.wp_bind.mpr (Async.wp_lift (fun rewritten _ => ?_) fun _ _ => ?_)
    · exact (h₁.finishFresh sql).stars _
    · exact h₁.lose

theorem resolves (hu : link.Undisturbed) (h : Keeping link held lost c) (tx : Nat) (sql : String)
    (query : QueryOptions) :
    Async.wp (resolveExpandStar link codec tx sql query)
      ⟨fun _ => Keeping link held lost, fun _ => Keeping link held (lost + 1), Accountable⟩ c := by
  unfold resolveExpandStar
  split
  · refine Async.wp_bind.mpr (Async.wp_get.mpr ?_)
    dsimp only
    split
    · exact h.more (Nat.le_refl _)
    · exact h.expandsStar hu tx sql _ query
  · exact h

/-- A call that fails loses at most the statement it was preparing. -/
theorem runs (hu : link.Undisturbed) (h : Keeping link held lost c) (fuel tx : Nat) (sql : String)
    (params : QueryParams) (query : QueryOptions) :
    Async.wp (runStatement link codec opts fuel tx sql params query)
      ⟨fun _ => Keeping link held lost, fun _ => Keeping link held (lost + 1), Accountable⟩ c := by
  refine Async.wp_bind.mpr (Async.wp_lift (fun p _ => ?_) fun _ _ => h.more (Nat.le_succ _))
  refine Async.wp_bind.mpr (Async.wp_mono (h.resolves hu tx p.1 query) ?_ (fun _ _ h => h) fun _ h => h)
  intro sql c₁ h₁
  have hget := h₁.cacheGet sql
  simp only [FastFirebird.cacheGet, Async.wp_bind, Async.wp_get, Async.wp_modify, Async.wp_pure]
  cases hfind : c₁.cacheFind sql with
  | none => exact hget.runsFresh hu fuel tx sql p.2 query
  | some info =>
    refine Async.wp_bind.mpr (Async.wp_mono
      (hget.runsCached hu (cacheFind_cacheGet hfind) fuel tx p.2 query) ?_ ?_ fun _ h => h)
    · intro result c₂ h₂
      cases result with
      | some result => exact h₂
      | none => exact h₂.runsFresh hu fuel tx sql p.2 query
    · exact fun _ _ h₂ => h₂.more (Nat.le_succ _)

theorem batchesStatement (hu : link.Undisturbed) (h : Keeping link held lost c) (tx : Nat) (sql : String)
    (rows : BatchRows) (batch : BatchOptions) :
    Async.wp (executeBatchStatement link codec opts tx sql rows batch)
      ⟨fun _ => Keeping link held lost, fun _ => Keeping link held (lost + 1), Accountable⟩ c := by
  refine Async.wp_bind.mpr (Async.wp_get.mpr ?_)
  dsimp only
  split
  · exact h.more (Nat.le_succ _)
  · have hget := h.cacheGet (codec.rewriteNamedParams sql).1
    simp only [FastFirebird.cacheGet, Async.wp_bind, Async.wp_get, Async.wp_modify, Async.wp_pure]
    cases hfind : c.cacheFind (codec.rewriteNamedParams sql).1 with
    | some info =>
      have hcached := cacheFind_cacheGet hfind
      refine Async.wp_handle.mpr (Async.wp_bind.mpr (Async.wp_mono
        (hget.batches hu (List.mem_append_left _ (shelved_mem hcached)) tx rows _ batch) ?_ ?_ fun _ h => h))
      · rintro result c₁ ⟨h₁, hcache⟩
        exact h₁.finishCached ((cacheFind_congr hcache).trans hcached)
      · rintro e c₁ ⟨h₁, -⟩
        exact (h₁.cacheRemove _).more (Nat.le_succ _)
    | none =>
      refine Async.wp_mono (hget.prepares hu tx _) ?_ (fun _ _ h => h) fun _ h => h
      intro info c₁ h₁
      have hmem : info.handle ∈ c₁.shelved ++ info.handle :: held := List.mem_append_right _ List.mem_cons_self
      refine Async.wp_handle.mpr (Async.wp_bind.mpr (Async.wp_mono
        (h₁.batches hu hmem tx rows _ batch) ?_ ?_ fun _ h => h))
      · rintro result c₂ ⟨h₂, -⟩
        exact h₂.finishFresh _
      · rintro e c₂ ⟨h₂, -⟩
        exact (h₂.cacheRemove _).drop.more (Nat.le_succ _)

end Keeping

end FastFirebird
