import FastFirebird.SessionSync
import FastFirebird.BatchSync
import FastFirebird.Sections

/-! A property of the connection that reading leaves as it is, and the requests of `D` as well: what
blob transfers, statements and batches on requests of `D` leave as it is. -/
namespace FastFirebird

variable {link : Link} {codec : Codec} {opts : Options} {D : Request → Prop} {P : Conn → Prop}

/-- The section uses no statement, and not the statement cache. -/
def Section.aside : Section → Bool
  | .control _ | .blobHead _ _ _ _ _ | .blobBuffer _ _ _ _ | .blobSize _ _ | .blobPull _ _ _ _
  | .blobPrefetch _ _ _ | .prefetchSlice _ _ _ _ | .closeBlob _ => true
  | _ => false

structure Stable (link : Link) (D : Request → Prop) (P : Conn → Prop) : Prop where
  send : ∀ c deferred req, D req → P c → P (c.send link deferred req)
  mark : ∀ c n, P c → P (c.markDeferred n)
  flush : ∀ c, P c → P c.flush
  await : ∀ c, P c → P (c.await link)
  inbound : ∀ c ps, P c → P { c with inbound := ps }
  inline : ∀ c inline, P c → P { c with inline := inline }
  drained : ∀ c p, P c → P (c.drainOne p)
  handedOver : ∀ c p, P c → P (c.handOver p)

/-- The property is not lost. -/
def Carries (P : Conn → Prop) (c c' : Conn) : Prop := P c → P c'

namespace Stable

variable (hP : Stable link D P)

include hP

theorem reads : Reads link (Carries P) where
  refl _ h := h
  trans h h' hc := h' (h hc)
  await := hP.await
  inbound := hP.inbound
  inline := hP.inline
  drained := hP.drained
  handedOver := hP.handedOver

omit hP in
theorem of_along {α : Type} {x : M α} (hx : Async.Along (Carries P) x) :
    Async.Triple P P x P P := by
  intro c hc
  have hstays : P (x c).2 := hx c hc
  unfold Async.wp
  rcases hrun : x c with ⟨a | e | _, c'⟩ <;> rw [hrun] at hstays <;> exact hstays

theorem sendAll (reqs : List Request) {c : Conn} (hreqs : ∀ req ∈ reqs, D req) (hc : P c) :
    P (c.sendAll link reqs) := by
  unfold Conn.sendAll
  induction reqs generalizing c with
  | nil => exact hc
  | cons req reqs ih =>
    apply ih fun req' h => hreqs req' (List.mem_cons_of_mem _ h)
    exact hP.send c false req (hreqs req List.mem_cons_self) hc

theorem markAll (ns : List Nat) {c : Conn} (hc : P c) : P (c.markAll ns) := by
  unfold Conn.markAll
  induction ns generalizing c with
  | nil => exact hc
  | cons n ns ih => exact ih (hP.mark c n hc)

theorem sendDeferred {c : Conn} {req : Request} (hreq : D req) (hc : P c) :
    P (c.sendDeferred link req) := hP.mark _ _ (hP.send c true req hreq hc)

theorem of_left {c : Conn} (h : Left link D (fun _ => P) c) : P c := by
  obtain ⟨c₀, reqs, hc₀, hreqs, rfl⟩ := h
  unfold Conn.sendAllDeferred
  induction reqs generalizing c₀ with
  | nil => exact hc₀
  | cons req reqs ih =>
    apply ih _ _ fun req' h => hreqs req' (List.mem_cons_of_mem _ h)
    exact hP.sendDeferred (hreqs req List.mem_cons_self) hc₀

theorem of_settled {c : Conn} (h : Settled link D (fun _ => P) P c) : P c := h.elim hP.of_left id

theorem readResponse : Async.Triple P P (readResponse link) P P := by
  have := hP.reads
  exact of_along along_readResponse

theorem discipline (hblob : ∀ req, req.isBlobOp = true → D req) :
    Discipline link D (fun _ => P) P where
  send _ c req hr := hP.send c false req (hblob req hr)
  flush _ := hP.flush
  await _ := hP.await
  inline _ := hP.inline
  read _ c hc := hP.readResponse c hc
  waiting _ _ hc := hc
  closeBlob blob := hblob (.closeBlob blob) rfl

/-- The requests about a statement that leave it open. -/
structure Covers (D : Request → Prop) (stmt : StmtHandle) : Prop where
  execute : ∀ info tx params, info.handle = stmt → D (.execute info tx params)
  execute2 : ∀ info tx params, info.handle = stmt → D (.execute2 info tx params)
  fetch : ∀ info count behind, info.handle = stmt → D (.fetch info count behind)
  infoSql : ∀ behind, D (.infoSql stmt behind)
  close : D (.freeStatement stmt .close)
  batchCreate : D (.batchCreate stmt)
  batchRegblob : ∀ blobId, D (.batchRegblob stmt blobId)
  batchMsg : ∀ rows, D (.batchMsg stmt rows)
  batchExec : ∀ tx, D (.batchExec stmt tx)
  batchRls : D (.batchRls stmt)

theorem statements {H : StmtHandle → Prop} (hblob : ∀ req, req.isBlobOp = true → D req)
    (hcovers : ∀ stmt, H stmt → Covers D stmt) :
    StatementDiscipline link codec H D (fun _ => P) (fun _ => P) P P where
  toDiscipline := hP.discipline hblob
  cursor stmt hs := (hcovers stmt hs).close
  release stmt hs := (hcovers stmt hs).batchRls
  broken c req hreq hc := hP.sendDeferred hreq hc
  sendFetch c stmt count hs hc :=
    hP.flush _ (hP.send c false _ ((hcovers stmt.handle hs).fetch stmt count none rfl) hc)
  readFetch c stmt fuel _ hc := by
    have := hP.reads
    exact Async.wp_mono (of_along (along_readFetchBatch stmt fuel []) c hc) (fun _ _ h => h)
      (fun _ _ h => Or.inr h) fun _ h => h
  execute := by
    intro c stmt tx values encodeText piggyback hs hc hexclusive
    have := hP.reads
    have hcover := hcovers stmt.handle hs
    cases he : encodeValues codec values encodeText with
    | error e => exact (wp_executeStatement_error he).mpr (Or.inr hc)
    | ok encoded =>
      have hexecute : D (executeRequest stmt tx encoded) := by
        unfold executeRequest
        split
        · exact hcover.execute2 stmt tx encoded rfl
        · exact hcover.execute stmt tx encoded rfl
      have hahead : ∀ req ∈ aheadRequests stmt piggyback c.requests, D req := by
        intro req hreq
        unfold aheadRequests at hreq
        rcases List.mem_append.mp hreq with hreq | hreq
        · obtain ⟨count, -, rfl⟩ := Option.map_eq_some_iff.mp (Option.mem_toList.mp hreq)
          exact hcover.fetch stmt count _ rfl
        · split at hreq
          · rw [List.mem_singleton.mp hreq]
            exact hcover.infoSql _
          · cases hreq
      have hsent := hP.flush _ (hP.sendAll _ hahead (hP.send c false _ hexecute hc))
      refine (wp_executeStatement he).mpr ?_
      refine Async.wp_mono (of_along (along_readExecuteResponse stmt) _ hsent) ?_ ?_ fun _ h => h
      · intro procRow c' hc'
        refine ⟨rfl, ?_⟩
        dsimp only
        split
        · rename_i hfetch
          refine ⟨Bool.eq_false_iff.mpr fun hcounts => ?_, hc'⟩
          rw [hexclusive hcounts] at hfetch
          cases hfetch
        · exact hc'
      · exact fun e c' hc' => Or.inr (hP.markAll _ hc')
  cycle := by
    intro c stmt tx st hs hc
    have := hP.reads
    have hcover := hcovers stmt hs
    have hprefix : ∀ req ∈ cyclePrefix stmt st, D req := by
      intro req hreq
      unfold cyclePrefix at hreq
      rcases List.mem_append.mp hreq with hreq | hreq
      · rcases List.mem_append.mp hreq with hreq | hreq
        · split at hreq
          · cases hreq
          · rw [List.mem_singleton.mp hreq]
            exact hcover.batchCreate
        · obtain ⟨blobId, -, rfl⟩ := List.mem_map.mp hreq
          exact hcover.batchRegblob blobId
      · rw [List.mem_singleton.mp hreq]
        exact hcover.batchMsg _
    have hsent := hP.flush _ (hP.send _ false _ (hcover.batchExec tx) (hP.sendAll _ hprefix hc))
    simp only [cycleWire, Async.wp_bind, Async.wp_get, wp_sendEach, wp_send, wp_flush]
    refine Async.wp_mono (of_along (along_readCycle hP.mark _ _ _) _ hsent) (fun _ _ h => h)
      (fun _ _ h => Or.inr h) fun _ h => h

/-! Sections about no statement -/

variable (hblob : ∀ req, req.isBlobOp = true → D req)

theorem deferred {blob : Nat} (hclose : D (.closeBlob blob)) {E : Conn → Prop} :
    Async.Triple P P (closeBlobDeferred link blob) P E :=
  .update fun _ h => hP.sendDeferred hclose h

theorem roundTrip {req : Request} (hreq : D req) : Async.Triple P P (roundTrip link req) P P := by
  refine Async.Triple.bind (fun c h => hP.send c false req hreq h) fun _ => ?_
  exact Async.Triple.bind (fun c h => hP.flush c h) fun _ => hP.readResponse

include hblob

theorem readCursor (chunkSize : Nat) (enough : BlobCursor → Bool) (count : BlobCursor → Nat)
    (fuel : Nat) (cur : BlobCursor) :
    Async.Triple P P (readCursor link chunkSize enough count fuel cur) P P := by
  have hJ := hP.discipline hblob
  induction fuel generalizing cur with
  | zero => exact .stall fun _ h => h
  | succ fuel ih =>
    unfold FastFirebird.readCursor
    split
    · exact .pure _
    · apply (hJ.readBlobWindow_triple _ _ _).attempt.bind
      intro r
      rcases r with e | ⟨chunks, _ | _⟩
      · exact .pure _
      · exact ih _
      · -- the handle is closed at the end of the blob
        have hclose : Async.Triple P P (cur.cursorHandle.forM (closeBlobDeferred link)) P P := by
          cases cur.cursorHandle with
          | none => exact .pure ()
          | some blob => exact hP.deferred (hblob _ rfl)
        exact Async.Triple.bind (hclose.bind fun _ => .pure _) fun _ => .pure _

theorem openCursor (tx : Nat) (id : Bytes) (cur : BlobCursor) :
    Async.Triple P P (openCursor link tx id cur) P P := by
  unfold FastFirebird.openCursor
  split
  · exact .pure _
  · apply ((hP.discipline hblob).openBlob_triple tx id).attempt.bind
    intro r
    cases r with
    | ok handle => exact .pure _
    | error e => exact .pure _

theorem orOpen (tx : Nat) (id : Bytes) (handle : Option Nat) :
    Async.Triple P P (orOpen link tx id handle) P P := by
  cases handle with
  | some blob => exact .pure blob
  | none => exact (hP.discipline hblob).openBlob_triple tx id

theorem blobHead (fuel tx : Nat) (id : Bytes) (chunkSize n : Nat) (cur : BlobCursor) :
    Async.Triple P P (blobHead link fuel tx id chunkSize n cur) P P := by
  unfold FastFirebird.blobHead
  split
  · exact .pure _
  · apply (hP.openCursor hblob tx id cur).bind
    intro r
    rcases r with ⟨_ | _, cur⟩
    · exact .pure _
    · exact hP.readCursor hblob _ _ _ fuel cur

theorem blobBuffer (fuel tx : Nat) (id : Bytes) (chunkSize : Nat) (cur : BlobCursor) :
    Async.Triple P P (blobBuffer link fuel tx id chunkSize cur) P P := by
  have hJ := hP.discipline hblob
  unfold FastFirebird.blobBuffer
  split
  · have hread : Async.Triple P P (readBlob link fuel tx id chunkSize) P P :=
      (hJ.readBlob_triple fuel tx id chunkSize).mono (fun _ h => h) (fun _ h => hP.of_left h)
        fun _ h => hP.of_left h
    exact hread.bind fun _ => .pure _
  · exact (hP.readCursor hblob _ _ _ fuel cur).bind fun r => .lift r.1

theorem prefetchSlice (tx : Nat) (id : Bytes) (chunkSize : Nat) (handle : Option Nat) :
    Async.Triple P P (prefetchSlice link tx id chunkSize handle) P P := by
  have hJ := hP.discipline hblob
  unfold FastFirebird.prefetchSlice
  apply (hP.orOpen hblob tx id handle).bind
  intro blob
  have hwindow : Async.Triple P P (readBlobWindow link blob chunkSize 8) P P :=
    hJ.readBlobWindow_triple blob chunkSize 8
  refine Async.Triple.bind hwindow ?_
  intro r
  rcases r with ⟨_, _ | _⟩
  · exact .pure _
  · exact (hP.deferred (hblob _ rfl)).bind fun _ => .pure _

/-- A section that sends a control request, or moves blobs about. -/
theorem aside (codec : Codec) (opts : Options) (fuel : Nat) {s : Section} (hs : s.aside = true)
    (hcontrol : ∀ op : Control, D op.request) :
    Async.Triple P P (s.body link codec opts fuel) P P := by
  have hJ := hP.discipline hblob
  have hdiscard : ∀ {α : Type} {x : M α}, Async.Triple P P x P P →
      Async.Triple P P (discard x) P P := fun hx => hx.bind fun _ => .pure _
  cases s with
  | control op => exact hdiscard (hP.roundTrip (hcontrol op))
  | blobHead tx id chunkSize n cur => exact hdiscard (hP.blobHead hblob fuel tx id chunkSize n cur)
  | blobBuffer tx id chunkSize cur => exact hP.blobBuffer hblob fuel tx id chunkSize cur
  | blobSize tx id =>
    have hsize : Async.Triple P P (blobSize link tx id) P P :=
      (hJ.openBlob_triple tx id).bind fun blob =>
        (hJ.blobTotalLength_triple blob).ensure (hP.deferred (hblob _ rfl)) (hP.deferred (hblob _ rfl))
    exact hdiscard hsize
  | blobPull tx id chunkSize handle =>
    have hpull : Async.Triple P P (blobPull link tx id chunkSize handle) P P :=
      (hP.orOpen hblob tx id handle).bind fun blob => hJ.getBlobSegment_triple blob chunkSize
    exact hdiscard hpull
  | blobPrefetch tx ids chunkSize =>
    have hread : Async.Triple P P (readBlobs link fuel tx ids chunkSize) P P :=
      (hJ.readBlobs_triple fuel tx ids chunkSize).mono (fun _ h => h) (fun _ h => hP.of_left h)
        fun _ h => hP.of_left h
    exact hdiscard hread
  | prefetchSlice tx id chunkSize handle =>
    exact hdiscard (hP.prefetchSlice hblob tx id chunkSize handle)
  | closeBlob handle =>
    cases handle with
    | none => exact .pure ()
    | some blob => exact hP.deferred (hblob _ rfl)
  | _ => cases hs

end Stable
end FastFirebird
