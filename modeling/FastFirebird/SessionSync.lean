import FastFirebird.BlobSync
import FastFirebird.Batch

/-! One statement run, followed once for any account of the outstanding responses. -/
namespace FastFirebird

variable {link : Link} {codec : Codec} {opts : Options}

/-- How a call leaves the connection: with deferred responses at most, or broken. -/
def Settled (link : Link) (D : Request → Prop) (J : Nat → Conn → Prop) (B : Conn → Prop) (c : Conn) : Prop :=
  Left link D J c ∨ B c

/-- The account of a run on the statements of `H`: `F stmt` says that a fetch answer for `stmt` is
outstanding, `B` that the wire is broken. -/
structure StatementDiscipline (link : Link) (codec : Codec) (H : StmtHandle → Prop)
    (D : Request → Prop) (J : Nat → Conn → Prop) (F : PreparedStatementInfo → Conn → Prop)
    (B R : Conn → Prop) : Prop
    extends Discipline link D J R where
  cursor : ∀ stmt, H stmt → D (.freeStatement stmt .close)
  release : ∀ stmt, H stmt → D (.batchRls stmt)
  broken : ∀ c req, D req → B c → B (c.sendDeferred link req)
  sendFetch : ∀ c stmt count, H stmt.handle → J 0 c →
    F stmt (c.send link false (.fetch stmt count none)).flush
  readFetch : ∀ c stmt fuel, H stmt.handle → F stmt c →
    Async.wp (readFetchBatch link stmt fuel []) ⟨fun _ => J 0, fun _ => Settled link D J B, R⟩ c
  execute : ∀ c stmt tx values encodeText piggyback, H stmt.handle → J 0 c →
    (piggyback.recordCounts = true → piggybackedFetch stmt piggyback = none) →
    Async.wp (executeStatement link codec stmt tx values encodeText piggyback)
      ⟨fun r c' => r.pendingInfo = piggyback.recordCounts ∧
          (if r.pendingFetch then r.pendingInfo = false ∧ F stmt c'
          else J (if r.pendingInfo then 1 else 0) c'),
        fun _ => Settled link D J B, R⟩ c
  cycle : ∀ c stmt tx st, H stmt → J 0 c →
    Async.wp (cycleWire link stmt tx st) ⟨fun _ => J 0, fun _ => Settled link D J B, R⟩ c

/-- Record counts are never asked for behind a fetch. -/
theorem piggyback_exclusive {stmt : PreparedStatementInfo} (fetchCount : Nat) :
    stmt.description.stmtType.wantsRecordCounts = true →
      piggybackedFetch stmt
        { fetchSize := if stmt.description.stmtType.isSelect then some fetchCount else none
          recordCounts := stmt.description.stmtType.wantsRecordCounts } = none := by
  intro h
  unfold piggybackedFetch
  split
  · rfl
  · cases hs : stmt.description.stmtType <;> simp_all [StmtType.wantsRecordCounts, StmtType.isSelect]

variable {H : StmtHandle → Prop} {D : Request → Prop} {J : Nat → Conn → Prop} {F : PreparedStatementInfo → Conn → Prop} {B R : Conn → Prop}

namespace StatementDiscipline

variable (hJ : StatementDiscipline link codec H D J F B R)

include hJ

omit hJ in
theorem settled {c : Conn} (h : J 0 c) : Settled link D J B c := Or.inl (.of_settled h)

omit hJ in
theorem lift_triple {α : Type} (r : Except FirebirdError α) :
    Async.Triple R (J 0) (Async.lift r : M α) (J 0) (Settled link D J B) :=
  (Async.Triple.lift r).error fun _ h => settled h

theorem writeBlob_triple (tx : Nat) (data : Bytes) (chunkSize : Nat) :
    Async.Triple R (J 0) (writeBlob link tx data chunkSize) (J 0) (Settled link D J B) :=
  (hJ.toDiscipline.writeBlob_triple tx data chunkSize).error (fun _ h => Or.inl h)

theorem prepareParam_triple (tx : Nat) (d : SqlVarDesc) (v : ParamValue) :
    Async.Triple R (J 0) (prepareParam link codec opts tx d v) (J 0) (Settled link D J B) := by
  have hthrow : ∀ e : FirebirdError, Async.Triple R (J 0) (throw e : M ParamValue) (J 0) (Settled link D J B) :=
    fun e => (Async.Triple.throw e).error fun _ h => settled h
  unfold prepareParam
  split
  · split
    · exact (lift_triple _).bind fun _ => (lift_triple _).bind fun _ =>
        (hJ.writeBlob_triple _ _ _).bind fun _ => .pure _
    · exact lift_triple _
  · split
    · exact (hJ.writeBlob_triple _ _ _).bind fun _ => .pure _
    · exact lift_triple _
  · exact hthrow _
  · split
    · exact (lift_triple _).bind fun _ =>
        ((hJ.toDiscipline.writeBlobStream_triple _ _ _ _).error (fun _ h => Or.inl h)).bind fun _ => .pure _
    · exact hthrow _
  · exact lift_triple _

theorem prepareEach_triple (tx : Nat) (ds : List SqlVarDesc) (vs : List ParamValue) :
    Async.Triple R (J 0) (prepareEach link codec opts tx ds vs) (J 0) (Settled link D J B) := by
  induction ds generalizing vs with
  | nil => exact .pure _
  | cons d ds ih =>
    cases vs with
    | nil => exact .pure _
    | cons v vs =>
      exact (hJ.prepareParam_triple tx d v).bind fun _ => (lift_triple _).bind fun _ =>
        (ih vs).bind fun _ => .pure _

theorem prepareParams_triple (tx : Nat) (info : PreparedStatementInfo) (params : List ParamValue) :
    Async.Triple R (J 0) (prepareParams link codec opts tx info params) (J 0) (Settled link D J B) := by
  unfold prepareParams
  split
  · exact (Async.Triple.throw _).error fun _ h => settled h
  · exact (hJ.prepareEach_triple tx _ _).bind fun _ => hJ.await_triple.bind fun _ => .pure _

theorem fetchRows_triple (fuel : Nat) {stmt : PreparedStatementInfo} (hs : H stmt.handle)
    (count : Nat) :
    Async.Triple R (J 0) (fetchRows link fuel stmt count) (J 0) (Settled link D J B) := fun c h =>
  hJ.readFetch _ stmt fuel hs (hJ.sendFetch c stmt count hs h)

theorem fetchRest_triple {info : PreparedStatementInfo} (hs : H info.handle) (maxRows fuel n fetchCount : Nat)
    (rows : List Row) :
    Async.Triple R (J 0) (fetchRest link info maxRows fuel n fetchCount rows) (J 0) (Settled link D J B) := by
  induction n generalizing fetchCount rows with
  | zero => exact .stall fun _ h => hJ.waiting _ _ h
  | succ n ih =>
    refine (hJ.fetchRows_triple fuel hs _).bind fun batch => ?_
    split
    · exact .pure _
    · exact ih _ _

theorem drainFetches_triple {info : PreparedStatementInfo} (hs : H info.handle)
    (maxRows fuel fetchCount : Nat) :
    Async.Triple R (F info) (drainFetches link info maxRows fuel fetchCount) (J 0) (Settled link D J B) := by
  refine Async.Triple.bind (fun c h => hJ.readFetch c info fuel hs h) fun batch => ?_
  split
  · exact .pure _
  · exact hJ.fetchRest_triple hs maxRows fuel fuel fetchCount batch.rows

theorem readRecordCounts_triple :
    Async.Triple R (J 1) (readRecordCounts link codec) (J 0) (Settled link D J B) :=
  (hJ.readResponse_triple.error fun _ h => settled h).bind fun _ => lift_triple _

theorem inlineTake_triple (tx : Nat) (id : Bytes) {E : Conn → Prop} :
    Async.Triple R (J 0) (inlineTake tx id) (J 0) E := by
  intro c h
  simp only [inlineTake, Async.wp_bind, Async.wp_get]
  split
  · exact hJ.inline 0 c _ h
  · exact h

theorem claimCell_triple (mapper : RowMapper) (tx i : Nat) (v : Value) :
    Async.Triple R (J 0) (mapper.claimCell tx i v) (J 0) (Settled link D J B) := by
  unfold RowMapper.claimCell
  split
  · split
    · refine (hJ.inlineTake_triple tx _).bind fun r => ?_
      split
      · exact lift_triple _
      · exact .pure _
    · exact .pure _
  · exact .pure _

theorem claimRow_triple (mapper : RowMapper) (tx i : Nat) (row : Row) :
    Async.Triple R (J 0) (mapper.claimRow tx i row) (J 0) (Settled link D J B) := by
  induction row generalizing i with
  | nil => exact .pure _
  | cons cell cells ih =>
    exact (hJ.claimCell_triple mapper tx i cell).bind fun _ => (ih (i + 1)).bind fun _ => .pure _

theorem claimRows_triple (mapper : RowMapper) (tx : Nat) (rows : List Row) :
    Async.Triple R (J 0) (mapper.claimRows tx rows) (J 0) (Settled link D J B) := by
  induction rows with
  | nil => exact .pure _
  | cons row rows ih =>
    exact (hJ.claimRow_triple mapper tx 0 row).bind fun _ => ih.bind fun _ => .pure _

theorem materialize_triple (mapper : RowMapper) (fuel tx : Nat) (rows : List Row) :
    Async.Triple R (J 0) (mapper.materialize link opts fuel tx rows) (Left link D J) (Settled link D J B) := by
  refine hJ.await_triple.bind fun _ => ?_
  split
  · refine (hJ.claimRows_triple mapper tx rows).bind fun rows => ?_
    split
    · exact fun _ h => Left.of_settled h
    · refine ((hJ.toDiscipline.readBlobs_triple _ _ _ _).error (fun _ h => Or.inl h)).bind fun _ => ?_
      exact (Async.Triple.lift _).error (fun _ h => Or.inl h)
  · exact fun _ h => Left.of_settled h

/-- The responses that rode behind an execute, up to the record counts. -/
theorem drainRows_post {info : PreparedStatementInfo} (hs : H info.handle) (maxRows fuel fetchCount : Nat)
    (exec : ExecuteResult) {c : Conn}
    (h : if exec.pendingFetch then exec.pendingInfo = false ∧ F info c
      else J (if exec.pendingInfo then 1 else 0) c) :
    Async.wp (drainRows link info maxRows fuel fetchCount exec)
      ⟨fun _ => J (if exec.pendingInfo then 1 else 0), fun _ => Settled link D J B, R⟩ c := by
  unfold drainRows
  split
  · rename_i hf
    simp only [hf, ↓reduceIte] at h
    rw [h.1]
    exact hJ.drainFetches_triple hs maxRows fuel fetchCount c h.2
  · rename_i hf
    simpa [hf] using h

theorem drainInfo_triple (exec : ExecuteResult) :
    Async.Triple R (J (if exec.pendingInfo then 1 else 0)) (drainInfo link codec exec) (J 0) (Settled link D J B) := by
  unfold drainInfo
  split
  · exact hJ.readRecordCounts_triple
  · exact .pure _

theorem closeCursor_triple {info : PreparedStatementInfo} (hs : H info.handle)
    (closeCursorAfter : Bool) {E : Conn → Prop} :
    Async.Triple R (Left link D J) (closeCursor link info closeCursorAfter) (Left link D J) E := by
  unfold closeCursor
  split
  · exact .update fun _ h => h.deferred (hJ.cursor _ hs)
  · exact .pure ()

/-- A run settles with every response consumed or deferred. -/
theorem executePrepared_triple (fuel tx : Nat) {info : PreparedStatementInfo}
    (hs : H info.handle) (params : List ParamValue) (closeCursorAfter : Bool) (query : QueryOptions) :
    Async.Triple R (J 0) (executePrepared link codec opts fuel tx info params closeCursorAfter query)
      (Settled link D J B) (Settled link D J B) := by
  refine (lift_triple _).bind fun mapper => ?_
  refine (hJ.prepareParams_triple tx info params).bind fun p => ?_
  obtain ⟨prepared, encodeText⟩ := p
  intro c h
  refine Async.wp_bind.mpr (Async.wp_mono (hJ.execute c info tx prepared encodeText _ hs h ?_) ?_
    (fun _ _ h => h) fun _ h => h)
  · exact piggyback_exclusive _
  · intro exec c₁ h₁
    refine Async.wp_bind.mpr (Async.wp_mono (hJ.drainRows_post hs _ fuel _ exec h₁.2) ?_
      (fun _ _ h => h) fun _ h => h)
    intro rows c₂ h₂
    refine ((hJ.drainInfo_triple exec).bind fun rowsAffected => ?_) c₂ h₂
    refine (hJ.materialize_triple mapper fuel tx rows).bind fun rows => ?_
    exact (hJ.closeCursor_triple hs closeCursorAfter).bind fun _ =>
      (Async.Triple.pure _).mono (fun _ h => h) (fun _ h => Or.inl h) fun _ h => h

theorem deferred {c : Conn} (h : Settled link D J B c) {req : Request} (hp : D req) :
    Settled link D J B (c.sendDeferred link req) := by
  rcases h with h | h
  · exact Or.inl (h.deferred hp)
  · exact Or.inr (hJ.broken c req hp h)

theorem encodeRow_triple (tx : Nat) (info : PreparedStatementInfo) (format : BatchFormat)
    (names : List String) (index : Nat) (row : Except FirebirdError QueryParams) :
    Async.Triple R (J 0) (encodeRow link codec opts tx info format names index row) (J 0)
      (Settled link D J B) := by
  refine hJ.await_triple.bind fun _ => (lift_triple _).bind fun _ => (lift_triple _).bind fun _ => ?_
  exact (hJ.prepareParams_triple tx info _).bind fun _ => (lift_triple _).bind fun _ => .pure _

/-- The result of a step that reports its failure instead of throwing it. -/
def Reported (link : Link) (D : Request → Prop) (J : Nat → Conn → Prop) (B : Conn → Prop) :
    Except FirebirdError Unit → Conn → Prop
  | .ok _ => J 0
  | .error _ => Settled link D J B

theorem execCycle_post {stmt : StmtHandle} (hs : H stmt) (tx : Nat) (batch : BatchOptions) (st : BatchState)
    {E : Conn → Prop} {c : Conn} (h : J 0 c) :
    Async.wp (execCycle link stmt tx batch st)
      ⟨fun r => Reported link D J B r.1, fun _ => E, R⟩ c := by
  refine Async.wp_bind.mpr (Async.wp_attempt.mpr (Async.wp_mono (hJ.cycle c stmt tx st hs h) ?_
    (fun _ _ h => h) fun _ h => h))
  intro completion c' h'
  dsimp only
  split
  · split
    · exact h'
    · exact settled h'
  · exact h'

theorem runRows_post (tx : Nat) {info : PreparedStatementInfo} (hs : H info.handle)
    (format : BatchFormat) (names : List String) (batch : BatchOptions) (rows : BatchRows) (index : Nat)
    (st : BatchState) {E : Conn → Prop} {c : Conn} (h : J 0 c) :
    Async.wp (runRows link codec opts tx info format names batch rows index st)
      ⟨fun r => Reported link D J B r.1, fun _ => E, R⟩ c := by
  induction rows generalizing index st c with
  | nil =>
    refine Async.wp_bind.mpr ?_
    have ha := hJ.await 0 c h
    rw [Async.wp_modify]
    split
    · exact ha
    · exact hJ.execCycle_post hs _ _ _ ha
  | cons row rows ih =>
    refine Async.wp_bind.mpr (Async.wp_attempt.mpr (Async.wp_mono
      (hJ.encodeRow_triple tx info format names index row c h) ?_ (fun _ _ h => h) fun _ h => h))
    rintro ⟨blobIds, buf⟩ c₁ h₁
    dsimp only
    split
    · refine Async.wp_bind.mpr (Async.wp_mono (hJ.execCycle_post hs tx batch _ h₁) ?_
        (fun _ _ h => h) fun _ h => h)
      rintro ⟨_ | _, st'⟩ c₂ h₂
      · exact h₂
      · exact ih _ _ h₂
    · exact ih _ _ h₁

/-- Whatever becomes of its requests, a batch leaves deferred responses at most, or
has broken the wire in one of its cycles. -/
theorem runBatch_triple (tx : Nat) {info : PreparedStatementInfo} (hs : H info.handle) (rows : BatchRows)
    (names : List String) (batch : BatchOptions) :
    Async.Triple R (J 0) (runBatch link codec opts tx info rows names batch)
      (Settled link D J B) (Settled link D J B) := by
  refine (lift_triple _).bind fun format => ?_
  intro c h
  refine Async.wp_bind.mpr (Async.wp_mono (hJ.runRows_post tx hs format names batch rows 0 {} h) ?_
    (fun _ _ h => h) fun _ h => h)
  rintro ⟨r, st⟩ c₁ h₁
  have hset : Settled link D J B c₁ := by
    cases r with
    | ok _ => exact settled h₁
    | error _ => exact h₁
  have hrel : Async.Triple R (Settled link D J B) (writeBatchRelease link info.handle st.created)
      (Settled link D J B) (Settled link D J B) := by
    unfold writeBatchRelease
    split
    · exact .update fun _ h => hJ.deferred h (hJ.release _ hs)
    · exact .pure ()
  refine (hrel.bind fun _ => ?_) c₁ hset
  cases r with
  | ok _ => exact .pure _
  | error e => exact .throw e

end StatementDiscipline

end FastFirebird
