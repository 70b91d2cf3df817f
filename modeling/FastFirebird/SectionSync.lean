import FastFirebird.Pipelines
import FastFirebird.Sections

/-! Every lock section keeps the account of responses, and so does every sequence of
sections with cache clears in between. -/
namespace FastFirebird

variable {link : Link} {codec : Codec} {opts : Options}

/-- From a wire in step, while the history is clean, to a wire in step. -/
def Keeps (link : Link) {α : Type} (x : M α) : Prop :=
  Async.Triple GuardWaiting (Guard link 0) x (Guard link 0) (Guard link 0)

namespace Keeps

variable {α β : Type}

theorem pure (a : α) : Keeps link (Pure.pure a : M α) := Async.Triple.pure a

theorem throw (e : FirebirdError) : Keeps link (MonadExcept.throw e : M α) := Async.Triple.throw e

theorem lift (r : Except FirebirdError α) : Keeps link (Async.lift r : M α) := Async.Triple.lift r

theorem stall : Keeps link (Async.stall : M α) := 
  Async.Triple.stall fun c h => guard_discipline.waiting 0 c h

theorem bind {x : M α} {f : α → M β} (hx : Keeps link x) (hf : ∀ a, Keeps link (f a)) :
    Keeps link (x >>= f) := Async.Triple.bind hx hf

theorem handle {x : M α} {h : FirebirdError → M α} (hx : Keeps link x)
    (hh : ∀ e, Keeps link (h e)) : Keeps link (Async.handle x h) := Async.Triple.handle hx hh

theorem attempt {x : M α} (hx : Keeps link x) : Keeps link (Async.attempt x) :=
  Async.Triple.attempt hx

theorem ensure {x : M α} {y : M Unit} (hx : Keeps link x) (hy : Keeps link y) :
    Keeps link (Async.ensure x y) := Async.Triple.ensure hx hy hy

theorem discard {x : M α} (hx : Keeps link x) : Keeps link (discard x) := hx.bind fun _ => .pure _

/-- A program that keeps the account up to what it defers. -/
theorem of_left {x : M α}
    (h : Async.Triple GuardWaiting (Guard link 0) x
      (Left link (fun req => req.isPlain = true) (Guard link))
      (Left link (fun req => req.isPlain = true) (Guard link))) : Keeps link x :=
  h.mono (fun _ h => h) (fun _ h => guard_of_left h) fun _ h => guard_of_left h

theorem update {g : Conn → Conn} (hg : ∀ c, Guard link 0 c → Guard link 0 (g c)) :
    Keeps link (modify g : M PUnit) := Async.Triple.update hg

/-- What another section may have done to the caches does not matter. -/
theorem caches {g : Conn → Conn} (hq : ∀ c, (g c).inbound ++ (g c).unflushed = c.inbound ++ c.unflushed)
    (hd : ∀ c, (g c).deferredResponses = c.deferredResponses) (ht : ∀ c, (g c).turn = c.turn)
    (hl : ∀ c, (g c).log = c.log) : Keeps link (modify g : M PUnit) :=
  .update fun c h => guard_zero.mpr fun hc =>
    (guard_zero.mp h (by rwa [hl] at hc)).congr (hq c) (hd c) (ht c) (hl c)

end Keeps

theorem guard_freeAll {c : Conn} (h : Guard link 0 c) (infos : List PreparedStatementInfo) :
    Guard link 0 (c.freeAll link infos) :=
  guard_zero.mpr fun hc =>
    Sync.freeAll (guard_zero.mp h (hc.of_suffix (Conn.freeAll_extends infos c))) hc

theorem guard_sendDeferred {c : Conn} (h : Guard link 0 c) {req : Request}
    (hp : req.isPlain = true) : Guard link 0 (c.sendDeferred link req) :=
  guard_of_left ((Left.of_settled h).deferred hp)

theorem Guard.congr {c c' : Conn} (h : Guard link 0 c)
    (hq : c'.inbound ++ c'.unflushed = c.inbound ++ c.unflushed)
    (hd : c'.deferredResponses = c.deferredResponses) (ht : c'.turn = c.turn)
    (hl : c'.log = c.log) : Guard link 0 c' :=
  guard_zero.mpr fun hc => (guard_zero.mp h (hl ▸ hc)).congr hq hd ht hl

theorem guard_clearCache {c : Conn} (h : Guard link 0 c) : Guard link 0 (c.clearCache link) := by
  unfold Conn.clearCache
  split
  · exact h
  · exact (guard_freeAll h _).congr rfl rfl rfl rfl

theorem guard_cacheRemove {c : Conn} (h : Guard link 0 c) (sql : String) :
    Guard link 0 (c.cacheRemove link sql) := by
  unfold Conn.cacheRemove
  split
  · exact (guard_sendDeferred h rfl).congr rfl rfl rfl rfl
  · exact h

theorem guard_cachePut {c : Conn} (h : Guard link 0 c) (sql : String) (info : PreparedStatementInfo) :
    Guard link 0 (c.cachePut link sql info) := by
  unfold Conn.cachePut
  split
  · exact h
  · split
    · exact h
    · exact (guard_freeAll (guard_freeAll h _) _).congr rfl rfl rfl rfl

theorem guard_finishStatement {c : Conn} (h : Guard link 0 c) (sql : String)
    (info : PreparedStatementInfo) : Guard link 0 (c.finishStatement link sql info) := by
  have hc : Guard link 0 (c.forgetSchema link info.description.stmtType) := by
    unfold Conn.forgetSchema
    split
    · exact (guard_clearCache h).congr rfl rfl rfl rfl
    · exact h
  unfold Conn.finishStatement Conn.park
  split
  · exact guard_cachePut hc sql info
  · exact guard_sendDeferred hc rfl

theorem guard_streamFinish {c : Conn} (h : Guard link 0 c) (st : StreamState) :
    Guard link 0 (c.streamFinish link st) := by
  unfold Conn.streamFinish
  split
  · exact h
  · rename_i info _
    have hc : Guard link 0 (if st.cursorOpen then c.freeStatement link info.handle .close else c) := by
      split
      · exact guard_sendDeferred h rfl
      · exact h
    dsimp only
    split
    · have hr := guard_cacheRemove hc st.sql
      split
      · exact hr
      · exact guard_sendDeferred hr rfl
    · exact guard_finishStatement hc _ _

theorem keeps_roundTrip {req : Request} (hp : req.isPlain = true) :
    Keeps link (roundTrip link req) := by
  intro c h
  refine Async.wp_mono (roundTrip_sync (@history_clean link) hp (guard_zero.mp h)) ?_ ?_ fun _ h => h
  · exact fun a c' h' => guard_zero.mpr fun hc => (h' hc).2
  · exact fun e c' h' => guard_zero.mpr fun hc => (h' hc).2

theorem keeps_allocateAndPrepare (tx : Nat) (sql : String) :
    Keeps link (allocateAndPrepare link codec tx sql) := by
  intro c h
  refine Async.wp_mono (allocateAndPrepare_sync (@history_clean link) (guard_zero.mp h) tx sql) ?_ ?_
    fun _ h => h
  · exact fun info c' h' => guard_zero.mpr fun hc => (h' hc).1
  · intro e c' h'
    refine guard_zero.mpr fun hc => ?_
    rcases h' hc with ⟨⟨e', hr⟩, hg, -⟩ | ⟨-, hs'⟩
    · have hh := hc.harmless_of_suffix hg
      simp [Event.harmless, Request.tolerates, Server.answer, Answer.refused, hr, Reply.isOk] at hh
    · exact hs'

theorem keeps_prepareInfo (tx : Nat) (sql : String) : Keeps link (prepareInfo link codec tx sql) :=
  (keeps_allocateAndPrepare tx sql).bind fun _ => (Keeps.lift _).bind fun _ => .pure _

theorem keeps_executePrepared (fuel tx : Nat) (info : PreparedStatementInfo)
    (params : List ParamValue) (closeCursorAfter : Bool) (query : QueryOptions) :
    Keeps link (executePrepared link codec opts fuel tx info params closeCursorAfter query) :=
  (guard_statementDiscipline.executePrepared_triple fuel tx trivial params closeCursorAfter query).mono
    (fun _ h => h) (fun _ h => guard_of_settled h) fun _ h => guard_of_settled h

theorem keeps_runBatch (tx : Nat) (info : PreparedStatementInfo) (rows : BatchRows)
    (names : List String) (batch : BatchOptions) :
    Keeps link (runBatch link codec opts tx info rows names batch) :=
  (guard_statementDiscipline.runBatch_triple tx trivial rows names batch).mono
    (fun _ h => h) (fun _ h => guard_of_settled h) fun _ h => guard_of_settled h

theorem keeps_finishStatement (sql : String) (info : PreparedStatementInfo) :
    Keeps link (finishStatement link sql info) :=
  .update fun _ h => guard_finishStatement h sql info

theorem keeps_freeStatement (stmt : StmtHandle) (action : FreeStatement) :
    Keeps link (freeStatement link stmt action) := .update fun _ h => guard_sendDeferred h rfl

theorem keeps_get : Keeps link (get : M Conn) := fun _ h => h

theorem guard_cacheGet {c : Conn} (h : Guard link 0 c) (sql : String) :
    Guard link 0 (c.cacheGet sql) := by
  unfold Conn.cacheGet
  split
  · exact h.congr rfl rfl rfl rfl
  · exact h

theorem keeps_cacheGet (sql : String) : Keeps link (cacheGet sql) :=
  keeps_get.bind fun _ => Keeps.bind (.update fun _ h => guard_cacheGet h sql) fun _ => .pure _

theorem keeps_orPrepare (tx : Nat) (sql : String) (cached : Option PreparedStatementInfo) :
    Keeps link (orPrepare link codec tx sql cached) := by
  cases cached with
  | some info => exact .pure info
  | none => exact keeps_prepareInfo tx sql

theorem keeps_finishFresh (sql : String) (info : PreparedStatementInfo)
    (cached : Option PreparedStatementInfo) : Keeps link (finishFresh link sql info cached) := by
  cases cached with
  | some _ => exact .pure ()
  | none => exact keeps_finishStatement sql info

theorem keeps_resolveExpandStar (tx : Nat) (sql : String) (query : QueryOptions) :
    Keeps link (resolveExpandStar link codec tx sql query) := by
  unfold resolveExpandStar
  split
  · refine keeps_get.bind fun c => ?_
    split
    · exact .pure _
    · exact (keeps_cacheGet sql).bind fun cached => (keeps_orPrepare tx sql cached).bind fun info =>
        (Keeps.lift _).bind fun _ => (keeps_finishFresh sql info cached).bind fun _ =>
        Keeps.bind (.update fun _ h => h.congr rfl rfl rfl rfl) fun _ => .pure _
  · exact .pure _

theorem keeps_runFresh (fuel tx : Nat) (sql : String) (params : List ParamValue) (query : QueryOptions) :
    Keeps link (runFresh link codec opts fuel tx sql params query) :=
  (keeps_prepareInfo tx sql).bind fun info =>
    ((keeps_executePrepared fuel tx info params true query).bind fun _ =>
      (keeps_finishStatement sql info).bind fun _ => .pure _).handle fun e =>
    (keeps_freeStatement info.handle .drop).bind fun _ => .throw e

theorem keeps_runCached (fuel tx : Nat) (sql : String) (cached : PreparedStatementInfo)
    (params : List ParamValue) (query : QueryOptions) :
    Keeps link (runCached link codec opts fuel tx sql cached params query) := by
  refine ((keeps_executePrepared fuel tx cached params true query).bind fun _ =>
      (keeps_finishStatement sql cached).bind fun _ => .pure _).handle fun e => ?_
  split
  · exact Keeps.bind (.update fun _ h => guard_cacheRemove h sql) fun _ => .pure _
  · exact .throw e

theorem keeps_runStatement (fuel tx : Nat) (sql : String) (params : QueryParams)
    (query : QueryOptions) : Keeps link (runStatement link codec opts fuel tx sql params query) := by
  refine (Keeps.lift _).bind fun p => (keeps_resolveExpandStar tx p.1 query).bind fun sql =>
    (keeps_cacheGet sql).bind fun hit => ?_
  split
  · refine (keeps_runCached fuel tx sql _ p.2 query).bind fun r => ?_
    split
    · exact .pure _
    · exact keeps_runFresh fuel tx sql p.2 query
  · exact keeps_runFresh fuel tx sql p.2 query

theorem keeps_executeBatchPrepared (tx : Nat) (info : PreparedStatementInfo) (rows : BatchRows)
    (names : List String) (batch : BatchOptions) :
    Keeps link (executeBatchPrepared link codec opts tx info rows names batch) := by
  refine keeps_get.bind fun c => ?_
  split
  · exact .throw _
  · split
    · exact .throw _
    · split
      · exact .throw _
      · split
        · exact .throw _
        · exact keeps_runBatch tx info rows names batch

theorem keeps_executeBatchStatement (tx : Nat) (sql : String) (rows : BatchRows) (batch : BatchOptions) :
    Keeps link (executeBatchStatement link codec opts tx sql rows batch) := by
  refine keeps_get.bind fun c => ?_
  split
  · exact .throw _
  · refine (keeps_cacheGet _).bind fun cached => (keeps_orPrepare tx _ cached).bind fun info => ?_
    refine ((keeps_executeBatchPrepared tx info rows _ batch).bind fun _ =>
      (keeps_finishStatement _ info).bind fun _ => .pure _).handle fun e => ?_
    refine Keeps.bind (.update fun c h => ?_) fun _ => .throw e
    unfold Conn.abandonBatch
    have hr := guard_cacheRemove h (codec.rewriteNamedParams sql).1
    dsimp only
    split
    · exact hr
    · exact guard_sendDeferred hr rfl

theorem keeps_openBlob (tx : Nat) (id : Bytes) : Keeps link (openBlob link tx id) :=
  guard_discipline.openBlob_triple tx id

theorem keeps_readBlobWindow (blob chunkSize count : Nat) :
    Keeps link (readBlobWindow link blob chunkSize count) :=
  guard_discipline.readBlobWindow_triple blob chunkSize count

theorem keeps_closeBlobDeferred (blob : Nat) : Keeps link (closeBlobDeferred link blob) :=
  .update fun _ h => guard_sendDeferred h rfl

theorem keeps_closeBlobCursor (handle : Option Nat) : Keeps link (closeBlobCursor link handle) := by
  cases handle with
  | none => exact .pure ()
  | some blob => exact keeps_closeBlobDeferred blob

theorem keeps_readCursor (chunkSize : Nat) (enough : BlobCursor → Bool) (count : BlobCursor → Nat)
    (fuel : Nat) (cur : BlobCursor) : Keeps link (readCursor link chunkSize enough count fuel cur) := by
  induction fuel generalizing cur with
  | zero => exact .stall
  | succ fuel ih =>
    unfold readCursor
    split
    · exact .pure _
    · refine (keeps_readBlobWindow _ _ _).attempt.bind fun r => ?_
      rcases r with e | ⟨chunks, _ | _⟩
      · exact .pure _
      · exact ih _
      · exact Keeps.bind ((keeps_closeBlobCursor _).bind fun _ => .pure _) fun _ => .pure _

theorem keeps_openCursor (tx : Nat) (id : Bytes) (cur : BlobCursor) :
    Keeps link (openCursor link tx id cur) := by
  unfold openCursor
  split
  · exact .pure _
  · refine (keeps_openBlob tx id).attempt.bind fun r => ?_
    cases r <;> exact .pure _

theorem keeps_blobHead (fuel tx : Nat) (id : Bytes) (chunkSize n : Nat) (cur : BlobCursor) :
    Keeps link (blobHead link fuel tx id chunkSize n cur) := by
  unfold blobHead
  split
  · exact .pure _
  · refine (keeps_openCursor tx id cur).bind fun r => ?_
    rcases r with ⟨_ | _, cur⟩
    · exact .pure _
    · exact keeps_readCursor _ _ _ fuel cur

theorem keeps_readBlob (fuel tx : Nat) (id : Bytes) (chunkSize : Nat) :
    Keeps link (readBlob link fuel tx id chunkSize) :=
  .of_left (guard_discipline.readBlob_triple fuel tx id chunkSize)

theorem keeps_blobBuffer (fuel tx : Nat) (id : Bytes) (chunkSize : Nat) (cur : BlobCursor) :
    Keeps link (blobBuffer link fuel tx id chunkSize cur) := by
  unfold blobBuffer
  split
  · exact (keeps_readBlob fuel tx id chunkSize).bind fun _ => .pure _
  · exact (keeps_readCursor _ _ _ fuel cur).bind fun r => .lift r.1

theorem keeps_blobSize (tx : Nat) (id : Bytes) : Keeps link (blobSize link tx id) :=
  (keeps_openBlob tx id).bind fun blob =>
    Keeps.ensure (guard_discipline.blobTotalLength_triple blob) (keeps_closeBlobDeferred blob)

theorem keeps_orOpen (tx : Nat) (id : Bytes) (handle : Option Nat) :
    Keeps link (orOpen link tx id handle) := by
  cases handle with
  | some blob => exact .pure blob
  | none => exact keeps_openBlob tx id

theorem keeps_blobPull (tx : Nat) (id : Bytes) (chunkSize : Nat) (handle : Option Nat) :
    Keeps link (blobPull link tx id chunkSize handle) :=
  (keeps_orOpen tx id handle).bind fun blob =>
    guard_discipline.getBlobSegment_triple blob chunkSize

theorem keeps_prefetchSlice (tx : Nat) (id : Bytes) (chunkSize : Nat) (handle : Option Nat) :
    Keeps link (prefetchSlice link tx id chunkSize handle) := by
  unfold prefetchSlice
  refine (keeps_orOpen tx id handle).bind fun blob => Keeps.bind (keeps_readBlobWindow _ _ _) ?_
  intro r
  rcases r with ⟨_, _ | _⟩
  · exact .pure _
  · exact (keeps_closeBlobDeferred blob).bind fun _ => .pure _

namespace StatementDiscipline

variable {H : StmtHandle → Prop} {D : Request → Prop} {J : Nat → Conn → Prop}
  {F : PreparedStatementInfo → Conn → Prop} {B R : Conn → Prop}
  (hJ : StatementDiscipline link codec H D J F B R)

include hJ

theorem streamBatch_triple (mapper : RowMapper) (fuel tx : Nat) {P : Conn → Prop} {x : M FetchBatch}
    (hx : Async.Triple R P x (J 0) (Settled link D J B)) :
    Async.Triple R P (streamBatch link opts fuel tx mapper x) (Settled link D J B)
      (Settled link D J B) :=
  hx.bind fun batch => (hJ.materialize_triple mapper fuel tx batch.rows).bind fun _ _ h => Or.inl h

theorem streamExecute_triple (fuel tx : Nat) (params : List ParamValue) (query : QueryOptions)
    {info : PreparedStatementInfo} (hs : H info.handle) (st : StreamState) {E : Conn → Prop} :
    Async.Triple R (J 0) (streamExecute link codec opts fuel tx params query info st)
      (Settled link D J B) E := by
  intro c h
  have hstart : Async.wp (streamStart link codec opts tx params query info)
      ⟨fun p c' => if p.2.2.pendingFetch then F info c' else J 0 c',
        fun _ => Settled link D J B, R⟩ c := by
    refine Async.wp_bind.mpr (Async.wp_mono (lift_triple _ c h) ?_ (fun _ _ h => h) fun _ h => h)
    intro mapper c₁ h₁
    refine Async.wp_bind.mpr (Async.wp_mono (hJ.prepareParams_triple tx info params c₁ h₁) ?_
      (fun _ _ h => h) fun _ h => h)
    rintro ⟨prepared, encodeText⟩ c₂ h₂
    refine Async.wp_bind.mpr (Async.wp_mono (hJ.execute c₂ info tx prepared encodeText _ hs h₂
      fun hn => absurd hn (by simp)) ?_ (fun _ _ h => h) fun _ h => h)
    rintro exec c₃ ⟨hpi, h₃⟩
    change if exec.pendingFetch then F info c₃ else J 0 c₃
    rw [hpi] at h₃
    split at h₃
    · rw [if_pos ‹_›]
      exact h₃.2
    · rw [if_neg ‹_›]
      exact h₃
  refine Async.wp_bind.mpr (Async.wp_attempt.mpr (Async.wp_mono hstart ?_ (fun _ _ h => h) fun _ h => h))
  rintro ⟨mapper, fetchCount, exec⟩ c₁ h₁
  have hfirst : Async.wp (firstBatch link fuel info exec)
      ⟨fun _ => J 0, fun _ => Settled link D J B, R⟩ c₁ := by
    unfold firstBatch
    dsimp only at h₁
    split
    · rw [if_pos ‹_›] at h₁
      exact hJ.readFetch c₁ info fuel hs h₁
    · rw [if_neg ‹_›] at h₁
      exact h₁
  have hbatch : Async.Triple R (· = c₁) (firstBatch link fuel info exec) (J 0) (Settled link D J B) := by
    rintro _ rfl
    exact hfirst
  refine Async.wp_bind.mpr (Async.wp_attempt.mpr
    (Async.wp_mono (hJ.streamBatch_triple mapper fuel tx hbatch c₁ rfl) ?_ ?_ fun _ h => h))
  · exact fun _ _ h => h
  · exact fun _ _ h => h

theorem streamNext_triple (fuel tx : Nat) (query : QueryOptions) (st : StreamState)
    (hs : ∀ info, st.info = some info → H info.handle) {E : Conn → Prop} :
    Async.Triple R (J 0) (streamNext link opts fuel tx query st) (Settled link D J B) E := by
  unfold streamNext
  split
  · rename_i info mapper hinfo _
    exact (hJ.streamBatch_triple mapper fuel tx (hJ.fetchRows_triple fuel (hs info hinfo) _)).attempt.bind
      fun _ => .pure _
  · exact fun _ h => settled h

end StatementDiscipline

theorem keeps_streamExecute (fuel tx : Nat) (params : List ParamValue) (query : QueryOptions)
    (info : PreparedStatementInfo) (st : StreamState) :
    Keeps link (streamExecute link codec opts fuel tx params query info st) :=
  (guard_statementDiscipline.streamExecute_triple fuel tx params query trivial st).mono
    (fun _ h => h) (fun _ h => guard_of_settled h) fun _ h => h

theorem keeps_streamFirst (fuel tx : Nat) (params : List ParamValue) (query : QueryOptions)
    (st : StreamState) : Keeps link (streamFirst link codec opts fuel tx params query st) := by
  refine (keeps_orPrepare tx _ _).attempt.bind fun r => ?_
  cases r with
  | error e => exact .pure _
  | ok info => exact keeps_streamExecute fuel tx params query info st

theorem keeps_streamNext (codec : Codec) (fuel tx : Nat) (query : QueryOptions) (st : StreamState) :
    Keeps link (streamNext link opts fuel tx query st) :=
  ((@guard_statementDiscipline link codec).streamNext_triple fuel tx query st
    fun _ _ => trivial).mono (fun _ h => h) (fun _ h => guard_of_settled h) fun _ h => h

theorem keeps_clearStatementCache : Keeps link (clearStatementCache link) :=
  Keeps.bind (.update fun _ h => guard_clearCache h) fun _ =>
    (keeps_roundTrip rfl).bind fun _ => .pure _

/-- Whatever a section does, and whatever its requests are answered with. -/
theorem keeps_section (fuel : Nat) (s : Section) : Keeps link (s.body link codec opts fuel) := by
  cases s with
  | control op => exact (keeps_roundTrip (by cases op <;> rfl)).discard
  | clearStatementCache => exact keeps_clearStatementCache
  | runStatement tx sql params query => exact (keeps_runStatement fuel tx sql params query).discard
  | executeBatch tx sql rows batch => exact (keeps_executeBatchStatement tx sql rows batch).discard
  | prepare tx sql => exact (keeps_prepareInfo tx sql).discard
  | runPrepared tx info params query =>
    exact (keeps_executePrepared fuel tx info params true query).discard
  | batchPrepared tx info rows names batch =>
    exact (keeps_executeBatchPrepared tx info rows names batch).discard
  | closePrepared info => exact keeps_freeStatement _ _
  | streamExpand tx sql query => exact (keeps_resolveExpandStar tx sql query).discard
  | streamFirst tx params query st => exact (keeps_streamFirst fuel tx params query st).discard
  | streamNext tx query st => exact (keeps_streamNext codec fuel tx query st).discard
  | streamFinish st => exact .update fun _ h => guard_streamFinish h st
  | blobHead tx id chunkSize n cur => exact (keeps_blobHead fuel tx id chunkSize n cur).discard
  | blobBuffer tx id chunkSize cur => exact keeps_blobBuffer fuel tx id chunkSize cur
  | blobSize tx id => exact (keeps_blobSize tx id).discard
  | blobPull tx id chunkSize handle => exact (keeps_blobPull tx id chunkSize handle).discard
  | blobPrefetch tx ids chunkSize =>
    exact (Keeps.of_left ((guard_discipline.readBlobs_triple fuel tx ids chunkSize))).discard
  | prefetchSlice tx id chunkSize handle => exact (keeps_prefetchSlice tx id chunkSize handle).discard
  | closeBlob handle => exact keeps_closeBlobCursor handle

/-- A connection after any sequence of lock sections and cache clears: `idle` says that
the lock is free, otherwise a section is still waiting. -/
inductive Reached (link : Link) (codec : Codec) (opts : Options) : (idle : Bool) → Conn → Prop
  | start {c : Conn} (hq : c.inbound = [] ∧ c.unflushed = []) (hd : c.deferredResponses = 0)
      (hl : c.log = []) (hc : c.cachedStatements = 0) : Reached link codec opts true c
  | settled {c : Conn} {fuel : Nat} {s : Section} (h : Reached link codec opts true c)
      (hs : (s.body link codec opts fuel c.nextTurn).1.settled = true) :
      Reached link codec opts true (s.body link codec opts fuel c.nextTurn).2
  | waiting {c : Conn} {fuel : Nat} {s : Section} (h : Reached link codec opts true c)
      (hs : (s.body link codec opts fuel c.nextTurn).1.settled = false) :
      Reached link codec opts false (s.body link codec opts fuel c.nextTurn).2
  | cleared {idle : Bool} {c : Conn} (h : Reached link codec opts idle c) :
      Reached link codec opts idle (c.clearInUse link)

theorem Sync.nextTurn {c : Conn} (h : Sync [] c) : Sync [] c.nextTurn := by
  obtain ⟨pre, hs, hd, hm, -, hf⟩ := h
  exact ⟨pre, hs, hd, hm, by simp, hf⟩

theorem fifo_freeAll {infos : List PreparedStatementInfo} {c : Conn} (h : Fifo c.log) :
    Fifo (c.freeAll link infos).log := by
  unfold Conn.freeAll
  induction infos generalizing c with
  | nil => exact h
  | cons info infos ih => exact ih ⟨trivial, trivial, h⟩

theorem fifo_clearInUse {c : Conn} (h : Fifo c.log) : Fifo (c.clearInUse link).log := by
  unfold Conn.clearInUse Conn.clearCache
  split
  · exact h.cleared _ _ _
  · exact fifo_freeAll (h.cleared _ _ _)

/-- What holds at the end of every run whose history is clean. -/
theorem reached_guard {idle : Bool} {c : Conn} (h : Reached link codec opts idle c) :
    GuardWaiting c ∧ (idle = true → Guard link 0 c) := by
  induction h with
  | @start c hq hd hl _ =>
    have hs : Sync [] c := by
      refine ⟨[], by simp [hq.1, hq.2], by simp [hd, drainable], by simp, by simp, ?_⟩
      rw [hl]
      trivial
    exact ⟨fun _ => hs.fifo, fun _ => guard_zero.mpr fun _ => hs⟩
  | @settled c fuel s h hs ih =>
    have hg : Guard link 0 c.nextTurn := guard_zero.mpr fun hc => (guard_zero.mp (ih.2 rfl) hc).nextTurn
    have hk := Async.Triple.of_settled (keeps_section fuel s) hg hs
    exact ⟨fun hc => (guard_zero.mp hk hc).fifo, fun _ => hk⟩
  | @waiting c fuel s h hs ih =>
    have hg : Guard link 0 c.nextTurn := guard_zero.mpr fun hc => (guard_zero.mp (ih.2 rfl) hc).nextTurn
    exact ⟨Async.Triple.of_pending (keeps_section fuel s) hg hs, by simp⟩
  | @cleared idle c h ih =>
    refine ⟨fun hc => fifo_clearInUse (ih.1 (hc.of_suffix (Conn.clearInUse_extends c))), fun hi => ?_⟩
    exact guard_zero.mpr fun hc => Sync.clearInUse (guard_zero.mp (ih.2 hi)
      (hc.of_suffix (Conn.clearInUse_extends c))) (Or.inl rfl) hc

/-- Deferred responses are told from others rightly, in every run whose history is clean. -/
theorem reached_fifo {idle : Bool} {c : Conn} (h : Reached link codec opts idle c)
    (hc : Clean c.log) : Fifo c.log := (reached_guard h).1 hc

/-- The connection after a section. -/
def Conn.afterSection (link : Link) (s : Section) (c : Conn) : Conn :=
  (s.body link plainCodec {} 5 c.nextTurn).2

def selectOnce : Section := .runStatement 1 "select 1 from t" (.positional []) {}

/-- Without a cache the statement is closed and dropped behind its run, and the ping drains both. -/
theorem reached_fifo_drained :
    Fifo ((fresh.afterSection accepting selectOnce).afterSection accepting (.control .ping)).log := by
  have hfirst : Reached accepting plainCodec {} true (fresh.afterSection accepting selectOnce) :=
    .settled (.start ⟨rfl, rfl⟩ rfl rfl rfl) (by decide +kernel)
  exact @reached_fifo accepting plainCodec {} true _ (.settled hfirst (by decide +kernel))
    (by decide +kernel)

/-- The pool clears the cache while the second section waits for its response. -/
def clearedWhileAwaiting : Link := ⟨bareServer fun _ _ => .ok {}, (· == 11)⟩

/-- A connection with an empty cache. -/
def caching : Conn := { cache := some { capacity := 10 } }

/-- The frees that the pool writes are counted before the response to the ping is
read, which is then taken for one of theirs. -/
theorem cleared_while_awaiting_not_fifo :
    ∃ c, Reached clearedWhileAwaiting plainCodec {} false c ∧ ¬ Fifo c.log := by
  have hfirst : Reached clearedWhileAwaiting plainCodec {} true
      (caching.afterSection clearedWhileAwaiting selectOnce) :=
    .settled (.start ⟨rfl, rfl⟩ rfl rfl rfl) (by decide +kernel)
  refine ⟨(caching.afterSection clearedWhileAwaiting selectOnce).afterSection clearedWhileAwaiting
    (.control .ping), .waiting hfirst (by decide +kernel), ?_⟩
  decide +kernel

end FastFirebird
