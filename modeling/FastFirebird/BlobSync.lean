import FastFirebird.Discipline

/-! Every blob transfer consumes the responses it caused, however its requests fail:
an upload ends with nothing outstanding, a download with deferred closes at most. -/
namespace FastFirebird

variable {link : Link} {D : Request → Prop} {J : Nat → Conn → Prop} {R : Conn → Prop}

namespace Discipline

variable (hJ : Discipline link D J R)

include hJ

theorem blobTotalLength_triple (blob : Nat) :
    Async.Triple R (J 0) (blobTotalLength link blob) (J 0) (J 0) := by
  refine (hJ.roundTrip_triple rfl).bind fun resp => ?_
  split
  · split <;> exact .pure _
  · exact .pure _

theorem readBlobLoop_triple (blob bufferLength fuel inFlight : Nat) (eof : Bool) (parts : Bytes) :
    Async.Triple R (J inFlight) (readBlobLoop link blob bufferLength fuel inFlight eof parts)
      (Left link D J) (Left link D J) := by
  induction fuel generalizing inFlight eof parts with
  | zero =>
    cases inFlight with
    | zero =>
      refine Async.Triple.bind ?_ fun _ => .pure _
      exact hJ.closeBlobDeferred_triple.mono (fun _ h => .of_settled h) (fun _ h => h) fun _ h => h
    | succ inFlight => exact .stall fun _ h => hJ.waiting _ _ h
  | succ fuel ih =>
    cases inFlight with
    | zero =>
      refine Async.Triple.bind ?_ fun _ => .pure _
      exact hJ.closeBlobDeferred_triple.mono (fun _ h => .of_settled h) (fun _ h => h) fun _ h => h
    | succ inFlight =>
      refine hJ.readSegmentResponse_triple.attempt.bind fun r => ?_
      cases r with
      | error e =>
        refine (hJ.drainResponses_triple inFlight).bind fun _ => ?_
        refine Async.Triple.bind (Q := Left link D J) ?_ fun _ => .throw e
        exact hJ.closeBlobDeferred_triple.mono (fun _ h => .of_settled h) (fun _ h => h) fun _ h => h
      | ok seg =>
        dsimp only
        split
        · exact ih _ _ _
        · split
          · exact ih _ _ _
          · exact (hJ.send_triple rfl).bind fun _ => hJ.flush_triple.bind fun _ => ih _ _ _

theorem readBlob_triple (fuel tx : Nat) (id : Bytes) (chunkSize : Nat) :
    Async.Triple R (J 0) (readBlob link fuel tx id chunkSize) (Left link D J) (Left link D J) := by
  refine ((hJ.openBlob_triple tx id).error fun _ h => .of_settled h).bind fun blob => ?_
  refine (hJ.sendTimes_triple rfl pipelineDepth 0).bind fun _ => hJ.flush_triple.bind fun _ => ?_
  rw [Nat.zero_add]
  exact hJ.readBlobLoop_triple _ _ _ _ _ _

theorem readWindowLoop_triple (remaining : Nat) (eof : Bool) (chunks : List Bytes) :
    Async.Triple R (J remaining) (readWindowLoop link remaining eof chunks) (J 0) (J 0) := by
  induction remaining generalizing eof chunks with
  | zero => exact .pure _
  | succ remaining ih =>
    refine hJ.readSegmentResponse_triple.attempt.bind fun r => ?_
    cases r with
    | error e => exact (hJ.drainResponses_triple remaining).bind fun _ => .throw e
    | ok seg =>
      dsimp only
      split
      · exact ih _ _
      · exact ih _ _

theorem readBlobWindow_triple (blob chunkSize count : Nat) :
    Async.Triple R (J 0) (readBlobWindow link blob chunkSize count) (J 0) (J 0) := by
  refine (hJ.sendTimes_triple rfl count 0).bind fun _ => hJ.flush_triple.bind fun _ => ?_
  rw [Nat.zero_add]
  exact hJ.readWindowLoop_triple _ _ _

end Discipline

/-- The reads that are outstanding. -/
def BlobReads.outstanding (st : BlobReads) : Nat := st.pending.length + st.unflushed.length

namespace Discipline

variable (hJ : Discipline link D J R)

include hJ

/-- The result's account holds of the connection the result comes with. -/
theorem flushNow_post (st : BlobReads) {E : Conn → Prop} {c : Conn}
    (h : J st.outstanding c) :
    Async.wp (flushNow st) ⟨fun st' c' => J st'.outstanding c' ∧ st'.unflushed = [] ∧
      st'.blobs = st.blobs, fun _ => E, R⟩ c := by
  unfold flushNow
  split
  · rename_i hu
    exact ⟨h, List.isEmpty_iff.mp hu, rfl⟩
  · rw [Async.wp_bind]
    have hf := hJ.flush _ _ h
    refine ⟨?_, rfl, rfl⟩
    simpa [BlobReads.outstanding] using hf

theorem pumpOpens_post (tx : Nat) (ids : List Bytes) (fuel : Nat) (st : BlobReads)
    {E : Conn → Prop} {c : Conn} (h : J st.outstanding c) :
    Async.wp (pumpOpens link tx ids fuel st) ⟨fun st' => J st'.outstanding, fun _ => E, R⟩ c := by
  induction fuel generalizing st c with
  | zero => exact h
  | succ fuel ih =>
    unfold pumpOpens
    split
    · rw [Async.wp_bind]
      refine ih _ ?_
      have hs := hJ.send _ _ (.openBlob tx (ids.getD st.nextToOpen [])) rfl h
      simpa [BlobReads.outstanding, Nat.add_assoc] using hs
    · exact h

theorem pumpBlob_post (bufferLength i : Nat) (st : BlobReads) {E : Conn → Prop} {c : Conn}
    (h : J st.outstanding c) :
    Async.wp (pumpBlob link bufferLength i st) ⟨fun st' => J st'.outstanding, fun _ => E, R⟩ c := by
  unfold pumpBlob
  split
  · split
    · exact h
    · refine Async.wp_bind.mpr (Async.wp_mono (hJ.sendTimes_triple (E := E) rfl _ _ c h) ?_
        (fun _ _ h => h) fun _ h => h)
      intro _ c' h'
      simpa [BlobReads.outstanding, Nat.add_assoc] using h'
  · exact h

theorem pumpSegments_post (bufferLength : Nat) (is : List Nat) (st : BlobReads) {E : Conn → Prop}
    {c : Conn} (h : J st.outstanding c) :
    Async.wp (pumpSegments link bufferLength is st)
      ⟨fun st' => J st'.outstanding, fun _ => E, R⟩ c := by
  induction is generalizing st c with
  | nil => exact h
  | cons i is ih =>
    unfold pumpSegments
    split
    · refine Async.wp_bind.mpr (Async.wp_mono (hJ.pumpBlob_post bufferLength i st h) ?_
        (fun _ _ h => h) fun _ h => h)
      exact fun st' c' h' => ih st' h'
    · exact h

theorem pump_post (tx bufferLength : Nat) (ids : List Bytes) (st : BlobReads)
    {E : Conn → Prop} {c : Conn} (h : J st.outstanding c) :
    Async.wp (pump link tx bufferLength ids st) ⟨fun st' => J st'.outstanding, fun _ => E, R⟩ c := by
  refine Async.wp_bind.mpr (Async.wp_mono (hJ.pumpOpens_post tx ids _ st h) ?_
    (fun _ _ h => h) fun _ h => h)
  exact fun st' c' h' => hJ.pumpSegments_post bufferLength _ st' h'

theorem receiveSegment_post (i : Nat) (seg : Segment) (st : BlobReads)
    {E : Conn → Prop} {c : Conn} (h : J st.outstanding c) :
    Async.wp (receiveSegment link i seg st) ⟨fun st' => J st'.outstanding, fun _ => E, R⟩ c := by
  unfold receiveSegment
  dsimp only
  split
  · exact h
  · split
    · rw [Async.wp_bind]
      have hs := hJ.send _ _ (.closeBlob ((st.blob i).handle.getD 0)) rfl h
      simpa [BlobReads.outstanding, BlobReads.setBlob, Nat.add_assoc] using hs
    · exact h

/-- A read that fails has consumed its response all the same. -/
theorem readPending_post (p : PendingRead) (st : BlobReads) {E : Conn → Prop}
    {c : Conn} (h : J (st.outstanding + 1) c) :
    Async.wp (readPending link p st)
      ⟨fun r c' => match r with
        | .ok st' => J st'.outstanding c'
        | .error _ => J st.outstanding c', fun _ => E, R⟩ c := by
  cases p with
  | «open» i =>
    refine Async.wp_bind.mpr (Async.wp_attempt.mpr (Async.wp_mono (hJ.read _ _ h) ?_ ?_ fun _ h => h))
    · exact fun _ _ h => h
    · exact fun _ _ h => h
  | close =>
    refine Async.wp_bind.mpr (Async.wp_attempt.mpr (Async.wp_mono (hJ.read _ _ h) ?_ ?_ fun _ h => h))
    · exact fun _ _ h => h
    · exact fun _ _ h => h
  | seg i =>
    refine Async.wp_bind.mpr (Async.wp_attempt.mpr (Async.wp_mono
      (hJ.readSegmentResponse_triple _ h) ?_ ?_ fun _ h => h))
    · intro seg c' h'
      refine Async.wp_bind.mpr (Async.wp_mono (hJ.receiveSegment_post i seg _ ?_) ?_
        (fun _ _ h => h) fun _ h => h)
      · exact h'
      · exact fun _ _ h => h
    · exact fun _ _ h => h

theorem closeUnfinished_triple {E : Conn → Prop} (b : BlobState) :
    Async.Triple R (Left link D J) (closeUnfinished link b) (Left link D J) E := by
  unfold closeUnfinished
  split
  · split
    · exact fun _ h => h
    · exact hJ.closeBlobDeferred_triple
  · exact fun _ h => h

theorem closeOpenBlobs_triple {E : Conn → Prop} (bs : List BlobState) :
    Async.Triple R (Left link D J) (closeOpenBlobs link bs) (Left link D J) E := by
  induction bs with
  | nil => exact fun _ h => h
  | cons b bs ih => exact (hJ.closeUnfinished_triple b).bind fun _ => ih

theorem abandonReads_post (e : FirebirdError) (st : BlobReads) {c : Conn}
    (h : J st.outstanding c) :
    Async.wp (abandonReads link e st) ⟨fun _ => Left link D J, fun _ => Left link D J, R⟩ c := by
  refine Async.wp_bind.mpr (Async.wp_mono (hJ.flushNow_post st h) ?_ (fun _ _ h => h) fun _ h => h)
  rintro st' c' ⟨h', hu, -⟩
  have hp : J st'.pending.length c' := by simpa [BlobReads.outstanding, hu] using h'
  refine ((hJ.drainResponses_triple _).bind fun _ => ?_) _ hp
  refine Async.Triple.bind (Q := Left link D J) ?_ fun _ => .throw e
  exact (hJ.closeOpenBlobs_triple st'.blobs).mono (fun _ h => .of_settled h) (fun _ h => h)
    fun _ h => h

theorem flushFull_post (st : BlobReads) {E : Conn → Prop} {c : Conn} (h : J st.outstanding c) :
    Async.wp (flushFull st) ⟨fun st' => J st'.outstanding, fun _ => E, R⟩ c := by
  unfold flushFull
  split
  · exact Async.wp_mono (hJ.flushNow_post st h) (fun _ _ h => h.1) (fun _ _ h => h) fun _ h => h
  · exact h

theorem flushIdle_post (st : BlobReads) {E : Conn → Prop} {c : Conn} (h : J st.outstanding c) :
    Async.wp (flushIdle st)
      ⟨fun st' c' => J st'.outstanding c' ∧ (st'.pending = [] → st'.outstanding = 0),
        fun _ => E, R⟩ c := by
  unfold flushIdle
  split
  · refine Async.wp_mono (hJ.flushNow_post st h) ?_ (fun _ _ h => h) fun _ h => h
    rintro st' c' ⟨h', hu, -⟩
    exact ⟨h', fun hp => by simp [BlobReads.outstanding, hu, hp]⟩
  · rename_i hp
    exact ⟨h, fun hp' => absurd (by simp [hp']) hp⟩

theorem readBlobsLoop_post (tx bufferLength : Nat) (ids : List Bytes) (fuel : Nat) (st : BlobReads)
    {c : Conn} (h : J st.outstanding c) :
    Async.wp (readBlobsLoop link tx bufferLength ids fuel st)
      ⟨fun _ => Left link D J, fun _ => Left link D J, R⟩ c := by
  induction fuel generalizing st c with
  | zero => exact hJ.waiting _ _ h
  | succ fuel ih =>
    refine Async.wp_bind.mpr (Async.wp_mono (hJ.pump_post tx bufferLength ids st h) ?_
      (fun _ _ h => h) fun _ h => h)
    intro st₁ c₁ h₁
    refine Async.wp_bind.mpr (Async.wp_mono (hJ.flushFull_post st₁ h₁) ?_
      (fun _ _ h => h) fun _ h => h)
    intro st₂ c₂ h₂
    refine Async.wp_bind.mpr (Async.wp_mono (hJ.flushIdle_post st₂ h₂) ?_
      (fun _ _ h => h) fun _ h => h)
    rintro st₃ c₃ ⟨h₃, hdone⟩
    dsimp only
    split
    · rename_i hp
      rw [hdone hp] at h₃
      exact .of_settled h₃
    · rename_i p pending hp
      have h₄ : J (({ st₃ with pending := pending } : BlobReads).outstanding + 1) c₃ := by
        simpa [BlobReads.outstanding, hp, Nat.add_right_comm] using h₃
      refine Async.wp_bind.mpr (Async.wp_mono (hJ.readPending_post p _ h₄) ?_
        (fun _ _ h => h) fun _ h => h)
      intro r c₄ h₄
      cases r with
      | ok st' => exact ih st' h₄
      | error e => exact hJ.abandonReads_post e _ h₄

theorem readBlobs_triple (fuel tx : Nat) (ids : List Bytes) (chunkSize : Nat) :
    Async.Triple R (J 0) (readBlobs link fuel tx ids chunkSize) (Left link D J) (Left link D J) := by
  unfold readBlobs
  split
  · exact fun _ h => .of_settled h
  · exact (hJ.readBlob_triple fuel tx _ chunkSize).bind fun _ => fun _ h => h
  · exact fun c h => hJ.readBlobsLoop_post tx _ ids fuel _ h

theorem sendSegment_post (blob inFlight : Nat) (chunk : Bytes) {E : Conn → Prop} {c : Conn}
    (h : J inFlight c) :
    Async.wp (sendSegment link blob inFlight chunk) ⟨fun r => J r.2, fun _ => E, R⟩ c := by
  have h₁ := hJ.send _ _ (.batchSegments blob (frame chunk)) rfl h
  simp only [sendSegment, Async.wp_bind, wp_send]
  split
  · refine Async.wp_bind.mpr (Async.wp_mono (hJ.flush_triple (E := E) _ h₁) ?_
      (fun _ _ h => h) fun _ h => h)
    intro _ c₂ h₂
    refine Async.wp_bind.mpr (Async.wp_attempt.mpr (Async.wp_mono (hJ.read _ _ h₂) ?_ ?_ fun _ h => h))
    · exact fun _ _ h => h
    · exact fun _ _ h => h
  · exact h₁

/-- What an upload does first when a response is an error. -/
def Recovers (R : Conn → Prop) (J : Nat → Conn → Prop) (recover : M Unit) : Prop :=
  ∀ k E, Async.Triple R (J k) recover (J k) E

omit hJ in
theorem recovers_pure : Recovers R J (pure ()) := fun _ _ _ h => h

theorem recovers_flush : Recovers R J FastFirebird.flush := fun _ _ => hJ.flush_triple

theorem readAllResponses_triple {recover : M Unit} (hr : Recovers R J recover) (n : Nat) :
    Async.Triple R (J n) (readAllResponses link recover n) (J 0) (J 0) := by
  induction n with
  | zero => exact .pure ()
  | succ n ih =>
    refine hJ.readResponse_triple.attempt.bind fun r => ?_
    cases r with
    | ok _ => exact ih
    | error e =>
      exact (hr n _).bind fun _ => (hJ.drainResponses_triple n).bind fun _ => .throw e

theorem abandonUpload_triple {recover : M Unit} (hr : Recovers R J recover) (blob inFlight : Nat)
    (e : FirebirdError) :
    Async.Triple R (J inFlight) (abandonUpload link recover blob inFlight e) (J 0)
      (Left link D J) := by
  refine (hr inFlight _).bind fun _ => (hJ.drainResponses_triple inFlight).bind fun _ => ?_
  refine Async.Triple.bind (Q := Left link D J) ?_ fun _ => .throw e
  exact hJ.closeBlobDeferred_triple.mono (fun _ h => .of_settled h) (fun _ h => h) fun _ h => h

theorem finishUpload_triple {recover : M Unit} (hr : Recovers R J recover) (blob inFlight : Nat) :
    Async.Triple R (J inFlight) (finishUpload link recover blob inFlight) (J 0) (Left link D J) :=
  (hJ.send_triple rfl).bind fun _ => hJ.flush_triple.bind fun _ =>
    (hJ.readAllResponses_triple hr (inFlight + 1)).error fun _ h => .of_settled h

theorem writeSegments_triple (blob : Nat) (segs : List Bytes) (inFlight : Nat) :
    Async.Triple R (J inFlight) (writeSegments link blob segs inFlight) (J 0) (Left link D J) := by
  induction segs generalizing inFlight with
  | nil => exact hJ.finishUpload_triple recovers_pure blob inFlight
  | cons seg segs ih =>
    intro c h
    refine Async.wp_bind.mpr (Async.wp_mono (hJ.sendSegment_post blob inFlight seg h) ?_
      (fun _ _ h => h) fun _ h => h)
    rintro ⟨_ | _, n⟩ c' h'
    · exact hJ.abandonUpload_triple recovers_pure blob n _ c' h'
    · exact ih n c' h'

theorem writeBlob_triple (tx : Nat) (data : Bytes) (chunkSize : Nat) :
    Async.Triple R (J 0) (writeBlob link tx data chunkSize) (J 0) (Left link D J) :=
  ((hJ.roundTrip_triple rfl).error fun _ h => .of_settled h).bind fun _ =>
    (hJ.writeSegments_triple _ _ 0).bind fun _ => .pure _

theorem sendFull_post (blob segSize fuel inFlight : Nat) (pending : Bytes) {E : Conn → Prop}
    {c : Conn} (h : J inFlight c) :
    Async.wp (sendFull link blob segSize fuel inFlight pending)
      ⟨fun r => J r.2, fun _ => E, R⟩ c := by
  induction fuel generalizing inFlight pending c with
  | zero => exact h
  | succ fuel ih =>
    unfold sendFull
    split
    · refine Async.wp_bind.mpr (Async.wp_mono (hJ.sendSegment_post blob inFlight _ h) ?_
        (fun _ _ h => h) fun _ h => h)
      rintro ⟨_ | _, n⟩ c' h'
      · exact h'
      · exact ih n _ h'
    · exact h

theorem writeChunks_triple (encodeText : String → Except FirebirdError Bytes) (blob segSize : Nat)
    (chunks : List (Except FirebirdError Chunk)) (inFlight : Nat) (pending : Bytes) :
    Async.Triple R (J inFlight) (writeChunks link encodeText blob segSize chunks inFlight pending)
      (J 0) (Left link D J) := by
  induction chunks generalizing inFlight pending with
  | nil =>
    refine hJ.await_triple.bind fun _ => ?_
    split
    · exact hJ.finishUpload_triple hJ.recovers_flush blob inFlight
    · intro c h
      refine Async.wp_bind.mpr (Async.wp_mono (hJ.sendSegment_post blob inFlight _ h) ?_
        (fun _ _ h => h) fun _ h => h)
      rintro ⟨_ | _, n⟩ c' h'
      · exact hJ.abandonUpload_triple hJ.recovers_flush blob n _ c' h'
      · exact hJ.finishUpload_triple hJ.recovers_flush blob n c' h'
  | cons chunk chunks ih =>
    refine hJ.await_triple.bind fun _ => ?_
    split
    · exact hJ.abandonUpload_triple hJ.recovers_flush blob inFlight _
    · intro c h
      refine Async.wp_bind.mpr (Async.wp_mono (hJ.sendFull_post blob segSize _ inFlight _ h) ?_
        (fun _ _ h => h) fun _ h => h)
      rintro ⟨_ | _, n⟩ c' h'
      · exact hJ.abandonUpload_triple hJ.recovers_flush blob n _ c' h'
      · exact ih n _ c' h'

theorem writeBlobStream_triple (encodeText : String → Except FirebirdError Bytes) (tx : Nat)
    (source : List (Except FirebirdError Chunk)) (chunkSize : Nat) :
    Async.Triple R (J 0) (writeBlobStream link encodeText tx source chunkSize) (J 0)
      (Left link D J) :=
  ((hJ.roundTrip_triple rfl).error fun _ h => .of_settled h).bind fun _ =>
    (hJ.writeChunks_triple _ _ _ _ 0 []).bind fun _ => .pure _

end Discipline

end FastFirebird
