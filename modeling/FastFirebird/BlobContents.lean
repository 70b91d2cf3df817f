import FastFirebird.BlobPipeline
import FastFirebird.Stable
import FastFirebird.Materialize

/-! What the cells of a batch hold behind `materialize`: the contents of their blobs, whether they
came inline or were read. -/
namespace FastFirebird

variable {link : Link} {segs : Nat → Bytes → List Bytes} {content : Bytes → Bytes} {c c' : Conn}

/-! A store that is watched from later on -/

/-- The blobs opened since then, among those that are open. -/
structure BlobStore.Later (before : Nat) (s t : BlobStore) : Prop where
  opens : s.opens = t.opens + before
  handles : ∀ handle b, t.handles handle = some b →
    s.handles handle = some { b with opened := b.opened + before }

theorem BlobStore.Later.free {before handle : Nat} {s t : BlobStore} (h : s.Later before t)
    (hs : s.handles handle = none) : t.handles handle = none := by
  cases ht : t.handles handle with
  | none => rfl
  | some b =>
    rw [h.handles handle b ht] at hs
    cases hs

theorem BlobStore.Later.update {before blob : Nat} {f g : Nat → Option OpenBlob} {o o' : Option OpenBlob}
    (h : ∀ handle b, g handle = some b → f handle = some { b with opened := b.opened + before })
    (ho : ∀ b, o' = some b → o = some { b with opened := b.opened + before }) (handle : Nat)
    (b : OpenBlob) (hb : Function.update g blob o' handle = some b) :
    Function.update f blob o handle = some { b with opened := b.opened + before } := by
  by_cases hblob : handle = blob
  · subst hblob
    rw [Function.update_self] at hb ⊢
    exact ho b hb
  · rw [Function.update_of_ne hblob] at hb ⊢
    exact h handle b hb

/-- What one store answers, the other does. -/
theorem BlobStore.Later.take {before : Nat} {s s' t : BlobStore} (h : s.Later before t) {req : Request}
    {r : Reply} (hs : s.take segs req r = some s') :
    ∃ t', t.take (fun k => segs (k + before)) req r = some t' ∧ s'.Later before t' := by
  cases req with
  | openBlob tx id =>
    obtain ⟨resp, rfl, hfree, rfl⟩ := BlobStore.take_openBlob hs
    have hopens : s.opens + 1 = t.opens + 1 + before :=
      (congrArg (· + 1) h.opens).trans (Nat.add_right_comm ..)
    refine ⟨_, if_pos (h.free hfree), hopens, BlobStore.Later.update h.handles fun b hb => ?_⟩
    rw [← Option.some.inj hb, h.opens]
  | getSegment blob len =>
    cases ht : t.handles blob with
    | none =>
      refine ⟨t, by simp only [BlobStore.take, ht], ?_⟩
      cases hb : s.handles blob with
      | none =>
        simp only [BlobStore.take, hb] at hs
        rwa [← Option.some.inj hs]
      | some b =>
        obtain ⟨resp, -, -, rfl⟩ := BlobStore.take_getSegment hb hs
        refine ⟨h.opens, fun handle b' hb' => ?_⟩
        have hne : handle ≠ blob := by
          rintro rfl
          rw [ht] at hb'
          cases hb'
        exact (Function.update_of_ne hne _ _).trans (h.handles handle b' hb')
    | some b =>
      obtain ⟨resp, rfl, hanswer, rfl⟩ := BlobStore.take_getSegment (h.handles blob b ht) hs
      have htake : t.take (fun k => segs (k + before)) (.getSegment blob len) (.ok resp) =
          some { t with
            handles := Function.update t.handles blob (some { b with served := b.served + 1 }) } := by
        simp only [BlobStore.take, ht]
        exact if_pos hanswer
      refine ⟨_, htake, h.opens, BlobStore.Later.update h.handles fun b' hb' => ?_⟩
      rw [← Option.some.inj hb']
  | closeBlob blob =>
    have hclosed : BlobStore.Later before { s with handles := Function.update s.handles blob none }
        { t with handles := Function.update t.handles blob none } :=
      ⟨h.opens, BlobStore.Later.update h.handles fun _ hb => by cases hb⟩
    cases ht : t.handles blob with
    | none =>
      refine ⟨{ t with handles := Function.update t.handles blob none },
        by simp only [BlobStore.take, ht], ?_⟩
      cases hb : s.handles blob with
      | none =>
        simp only [BlobStore.take, hb] at hs
        rwa [← Option.some.inj hs]
      | some b =>
        obtain ⟨-, rfl⟩ := BlobStore.take_closeBlob hb hs
        exact hclosed
    | some b =>
      obtain ⟨⟨resp, rfl⟩, rfl⟩ := BlobStore.take_closeBlob (h.handles blob b ht) hs
      exact ⟨{ t with handles := Function.update t.handles blob none },
        by simp only [BlobStore.take, ht], hclosed⟩
  | _ =>
    rw [← Option.some.inj hs]
    exact ⟨t, rfl, h⟩

/-- A server that keeps blobs has kept them from any moment on, whatever was open then. -/
theorem AsStored.later {base : Nat} {new log : List Event} (hbase : base ≤ log.length)
    (h : AsStored segs base (new ++ log)) :
    ∃ before, AsStored (fun k => segs (k + before)) log.length (new ++ log) := by
  have hstart : AsStored segs base log := by
    clear hbase
    induction new with
    | nil => exact h
    | cons e new ih => exact ih h.earlier
  obtain ⟨s₀, hs₀⟩ := Option.isSome_iff_exists.mp hstart
  refine ⟨s₀.opens, ?_⟩
  obtain ⟨s, hs⟩ := Option.isSome_iff_exists.mp h
  suffices hlater : ∃ t, BlobStore.since (fun k => segs (k + s₀.opens)) log.length (new ++ log) = some t ∧
      s.Later s₀.opens t by
    obtain ⟨t, ht, -⟩ := hlater
    exact Option.isSome_iff_exists.mpr ⟨t, ht⟩
  clear h
  induction new generalizing s with
  | nil =>
    obtain rfl := Option.some.inj (hs₀.symm.trans hs)
    exact ⟨{}, since_start (Nat.le_refl _), (Nat.zero_add _).symm, fun _ _ hb => by cases hb⟩
  | cons e new ih =>
    have hlen : log.length ≤ (new ++ log).length := by
      rw [List.length_append]
      exact Nat.le_add_left _ _
    obtain ⟨s₁, s₂, hs₁, hsee, hs₂⟩ :=
      since_last (Nat.le_trans hbase hlen) (Option.isSome_iff_exists.mpr ⟨s, hs⟩)
    obtain rfl := Option.some.inj (hs₂.symm.trans hs)
    obtain ⟨t₁, ht₁, hlater⟩ := ih s₁ hs₁
    have hcons : BlobStore.since (fun k => segs (k + s₀.opens)) log.length (e :: (new ++ log)) =
        (some t₁).bind (BlobStore.see (fun k => segs (k + s₀.opens)) · e) := by
      rw [← ht₁]
      exact since_cons hlen
    rw [List.cons_append, hcons]
    cases e with
    | sent n turn deferred req answer =>
      cases answer with
      | reply r =>
        obtain ⟨t₂, htake, hlater₂⟩ := hlater.take hsee
        exact ⟨t₂, htake, hlater₂⟩
      | _ =>
        rw [← Option.some.inj hsee]
        exact ⟨t₁, rfl, hlater⟩
    | _ =>
      rw [← Option.some.inj hsee]
      exact ⟨t₁, rfl, hlater⟩

/-! Fuel that was enough -/

theorem Async.bind_run {σ ε α β : Type} {x : Async σ ε α} {f : α → Async σ ε β} {a : α} {s s' : σ}
    {r : Outcome ε β × σ} (hx : x s = (.ok a, s')) (hf : f a s' = r) : (x >>= f) s = r := by
  change Async.bind x f s = _
  rw [Async.bind, hx]
  exact hf

theorem readBlobLoop_fuel {blob len fuel : Nat} : ∀ {inFlight : Nat} {eof : Bool} {parts data : Bytes}
    {c c' : Conn}, readBlobLoop link blob len fuel inFlight eof parts c = (.ok data, c') →
      readBlobLoop link blob len (fuel + 1) inFlight eof parts c = (.ok data, c') := by
  induction fuel with
  | zero =>
    intro inFlight eof parts data c c' h
    cases inFlight with
    | zero => exact h
    | succ inFlight => cases h
  | succ fuel ih =>
    intro inFlight eof parts data c c' h
    cases inFlight with
    | zero => exact h
    | succ inFlight =>
      rw [readBlobLoop] at h ⊢
      obtain ⟨r, c₁, hread, h⟩ := Async.bind_ok h
      refine Async.bind_run hread ?_
      cases r with
      | error e => exact h
      | ok seg =>
        dsimp only at h ⊢
        split_ifs at h ⊢
        · exact ih h
        · exact ih h
        · obtain ⟨_, c₂, hsent, h⟩ := Async.bind_ok h
          obtain ⟨_, c₃, hflushed, h⟩ := Async.bind_ok h
          exact Async.bind_run hsent (Async.bind_run hflushed (ih h))

theorem readBlob_fuel {fuel tx chunkSize : Nat} {id data : Bytes}
    (h : readBlob link fuel tx id chunkSize c = (.ok data, c')) :
    readBlob link (fuel + 1) tx id chunkSize c = (.ok data, c') := by
  unfold readBlob at h ⊢
  obtain ⟨blob, c₁, hopen, h⟩ := Async.bind_ok h
  obtain ⟨_, c₂, hsent, h⟩ := Async.bind_ok h
  obtain ⟨_, c₃, hflushed, h⟩ := Async.bind_ok h
  exact Async.bind_run hopen (Async.bind_run hsent (Async.bind_run hflushed (readBlobLoop_fuel h)))

theorem readBlobsLoop_fuel {tx len fuel : Nat} {ids datas : List Bytes} :
    ∀ {st : BlobReads} {c c' : Conn}, readBlobsLoop link tx len ids fuel st c = (.ok datas, c') →
      readBlobsLoop link tx len ids (fuel + 1) st c = (.ok datas, c') := by
  induction fuel with
  | zero =>
    intro st c c' h
    cases h
  | succ fuel ih =>
    intro st c c' h
    rw [readBlobsLoop] at h ⊢
    obtain ⟨st₁, c₁, hpump, h⟩ := Async.bind_ok h
    obtain ⟨st₂, c₂, hfull, h⟩ := Async.bind_ok h
    obtain ⟨st₃, c₃, hidle, h⟩ := Async.bind_ok h
    refine Async.bind_run hpump (Async.bind_run hfull (Async.bind_run hidle ?_))
    cases hpending : st₃.pending with
    | nil =>
      rw [hpending] at h
      exact h
    | cons p pending =>
      rw [hpending] at h
      obtain ⟨r, c₄, hread, h⟩ := Async.bind_ok h
      refine Async.bind_run hread ?_
      cases r with
      | ok st => exact ih h
      | error e => exact h

theorem readBlobs_fuel {fuel tx chunkSize : Nat} {ids datas : List Bytes} (more : Nat)
    (h : readBlobs link fuel tx ids chunkSize c = (.ok datas, c')) :
    readBlobs link (fuel + more) tx ids chunkSize c = (.ok datas, c') := by
  induction more with
  | zero => exact h
  | succ more ih =>
    rw [← Nat.add_assoc]
    unfold readBlobs at ih ⊢
    split at ih
    · exact ih
    · obtain ⟨data, c₁, hread, ih⟩ := Async.bind_ok ih
      exact Async.bind_run (readBlob_fuel hread) ih
    · exact readBlobsLoop_fuel ih

/-- The server keeps `content`: whenever a blob is opened, its segments make up that. -/
structure HasContent (segs : Nat → Bytes → List Bytes) (content : Bytes → Bytes) : Prop where
  segments : ∀ k id, segs k id ≠ []
  content : ∀ k id, (segs k id).flatten = content id

/-- What `readBlobs` returns is the contents of the blobs, since whenever the server keeps them. -/
theorem readBlobs_kept (hu : link.Undisturbed) (hcontent : HasContent segs content) {base fuel tx chunkSize : Nat}
    {ids datas : List Bytes} (hsync : Sync [] c) (hbase : base ≤ c.log.length)
    (hextends : c.log <:+ c'.log)
    (hrun : readBlobs link fuel tx ids chunkSize c = (.ok datas, c'))
    (hstored : AsStored segs base c'.log) : datas = ids.map content := by
  obtain ⟨new, hnew⟩ := hextends
  rw [← hnew] at hstored
  obtain ⟨before, hlater⟩ := hstored.later hbase
  rw [hnew] at hlater
  have hfull : ∀ k id, segs (k + before) id ≠ [] ∧ (segs (k + before) id).flatten = content id :=
    fun k id => ⟨hcontent.segments _ id, hcontent.content _ id⟩
  have hdone := readBlobs_reads hu hfull hsync (Nat.le_add_left _ fuel)
    (readBlobs_fuel (readsFor (fun k => segs (k + before)) ids) hrun) hlater
  exact Outcome.ok.inj hdone.1

/-! The inline cache -/

/-- What the inline cache has for the blobs of the transaction is what they hold. -/
def InlineKept (content : Bytes → Bytes) (tx : Nat) (c : Conn) : Prop :=
  ∀ cache ∈ c.inline, ∀ e ∈ cache.byTx, e.txId = tx → parseSegmentFrames e.data = content e.blobId

theorem InlineKept.take {tx : Nat} {id data : Bytes} {inline : InlineBlobCache}
    (h : InlineKept content tx c) (htake : c.inline.bind (·.take tx id) = some (data, inline)) :
    data = content id ∧ InlineKept content tx { c with inline := some inline } := by
  obtain ⟨cache, hcache, htake⟩ := Option.bind_eq_some_iff.mp htake
  obtain ⟨e, hfound, hclaim⟩ := Option.map_eq_some_iff.mp htake
  obtain ⟨rfl, rfl⟩ := Prod.mk.inj hclaim
  have he := List.mem_of_find?_eq_some hfound
  have hheld : e.txId = tx ∧ e.blobId = id := by
    have hholds := List.find?_some hfound
    rw [InlineBlobCache.holds, Bool.and_eq_true, beq_iff_eq, beq_iff_eq] at hholds
    exact hholds
  refine ⟨?_, fun cache' hcache' e' he' htx => ?_⟩
  · rw [← hheld.2]
    exact h cache hcache e he hheld.1
  · obtain rfl := Option.some.inj hcache'
    exact h cache hcache e' (List.mem_of_mem_filter he') htx

/-- Claimed or read, a blob gives its content. -/
theorem contents_kept {tx : Nat} (ids : List Bytes) : ∀ {c : Conn}, InlineKept content tx c →
    contents (inlineTakes tx ids c).1 ((missed ids (inlineTakes tx ids c).1).map content) =
      ids.map content := by
  induction ids with
  | nil => exact fun _ => rfl
  | cons id ids ih =>
    intro c h
    rw [inlineTakes]
    cases hclaim : c.inline.bind (·.take tx id) with
    | none => exact congrArg (content id :: ·) (ih h)
    | some found =>
      obtain ⟨data, inline⟩ := found
      obtain ⟨rfl, hkept⟩ := h.take hclaim
      exact congrArg (content id :: ·) (ih hkept)

theorem inlineTakes_conn (tx : Nat) (ids : List Bytes) : ∀ c : Conn,
    ∃ inline, (inlineTakes tx ids c).2 = { c with inline := inline } := by
  induction ids with
  | nil => exact fun c => ⟨c.inline, rfl⟩
  | cons id ids ih =>
    intro c
    rw [inlineTakes]
    split
    · exact ih _
    · exact ih c

/-! The cells -/

namespace RowMapper

variable {mapper : RowMapper}

/-- A cell of column `i` behind `materialize`, when the blobs hold `content`. -/
def CellFilled (mapper : RowMapper) (content : Bytes → Bytes) (i : Nat) (v v' : Value) : Prop :=
  match v with
  | .blobRef id subType =>
    if mapper.eager i then mapper.decodeCell i subType (content id) = .ok v' else v' = v
  | .null | .scalar _ => v' = v

/-- A row behind `materialize`, from column `i` on. -/
def RowFilled (mapper : RowMapper) (content : Bytes → Bytes) : Nat → Row → Row → Prop
  | _, [], row' => row' = []
  | i, v :: row, row' =>
    ∃ v' rest, row' = v' :: rest ∧ mapper.CellFilled content i v v' ∧ mapper.RowFilled content (i + 1) row rest

/-- The rows behind `materialize`. -/
def RowsFilled (mapper : RowMapper) (content : Bytes → Bytes) (rows rows' : List Row) : Prop :=
  if mapper.hasKeptEagerBlobs then List.Forall₂ (mapper.RowFilled content 0) rows rows' else rows' = rows

theorem CellFilled.stays {i : Nat} {v : Value} (h : mapper.takes i v = false) :
    mapper.CellFilled content i v v := by
  cases v with
  | blobRef id subType =>
    rw [takes] at h
    rw [CellFilled, h, if_neg Bool.false_ne_true]
  | null | scalar => rfl

theorem fillRow_filled (row : Row) : ∀ {i : Nat} {more rest : List Bytes} {row' : Row},
    mapper.fillRow i row ((mapper.wantedRow i row).map content ++ more) = .ok (row', rest) →
      rest = more ∧ mapper.RowFilled content i row row' := by
  induction row with
  | nil =>
    intro i more rest row' h
    obtain ⟨rfl, rfl⟩ := Prod.mk.inj (Except.ok.inj h)
    exact ⟨rfl, rfl⟩
  | cons v row ih =>
    intro i more rest row' h
    cases htakes : mapper.takes i v with
    | false =>
      rw [wantedRow_stays htakes, fillRow_stays htakes] at h
      cases hcells : mapper.fillRow (i + 1) row
        ((mapper.wantedRow (i + 1) row).map content ++ more) with
      | error e =>
        rw [hcells] at h
        cases h
      | ok filled =>
        rw [hcells] at h
        obtain ⟨rfl, rfl⟩ := Prod.mk.inj (Except.ok.inj h)
        have ⟨hrest, hrow⟩ := ih hcells
        exact ⟨hrest, _, _, rfl, .stays htakes, hrow⟩
    | true =>
      cases v with
      | null | scalar => cases htakes
      | blobRef id subType =>
        have heager : mapper.eager i = true := htakes
        rw [wantedRow_takes heager, List.map_cons, List.cons_append, fillRow_takes heager,
          List.headD_cons, List.tail_cons] at h
        cases hdecode : mapper.decodeCell i subType (content id) with
        | error e =>
          rw [hdecode] at h
          cases h
        | ok v' =>
          rw [hdecode] at h
          cases hcells : mapper.fillRow (i + 1) row
            ((mapper.wantedRow (i + 1) row).map content ++ more) with
          | error e =>
            rw [hcells] at h
            cases h
          | ok filled =>
            rw [hcells] at h
            obtain ⟨rfl, rfl⟩ := Prod.mk.inj (Except.ok.inj h)
            have ⟨hrest, hrow⟩ := ih hcells
            refine ⟨hrest, _, _, rfl, ?_, hrow⟩
            rw [CellFilled, heager, if_pos rfl]
            exact hdecode

theorem fillRows_filled (rows : List Row) : ∀ {rows' : List Row},
    mapper.fillRows rows ((mapper.wanted rows).map content) = .ok rows' →
      List.Forall₂ (mapper.RowFilled content 0) rows rows' := by
  induction rows with
  | nil =>
    intro rows' h
    obtain rfl := Except.ok.inj h
    exact .nil
  | cons row rows ih =>
    intro rows' h
    have hsplit : mapper.wanted (row :: rows) = mapper.wantedRow 0 row ++ mapper.wanted rows :=
      List.flatMap_cons
    rw [hsplit, List.map_append, fillRows] at h
    cases hrow : mapper.fillRow 0 row
      ((mapper.wantedRow 0 row).map content ++ (mapper.wanted rows).map content) with
    | error e =>
      rw [hrow] at h
      cases h
    | ok filled =>
      obtain ⟨row', rest⟩ := filled
      rw [hrow] at h
      obtain ⟨rfl, hfilled⟩ := fillRow_filled row hrow
      change (do let rows ← mapper.fillRows rows _; pure (row' :: rows)) = _ at h
      cases hrows : mapper.fillRows rows ((mapper.wanted rows).map content) with
      | error e =>
        rw [hrows] at h
        cases h
      | ok others =>
        rw [hrows] at h
        obtain rfl := Except.ok.inj h
        exact .cons hfilled (ih hrows)

end RowMapper

/-! `materialize` -/

theorem stable_extends (log : List Event) : Stable link (fun _ => True) fun c => log <:+ c.log where
  send _ _ _ _ h := h.trans (List.suffix_cons ..)
  mark _ _ h := h.trans (List.suffix_cons ..)
  flush c h := by rwa [Conn.flush_log]
  await c h := h.trans (Conn.await_extends c)
  inbound _ _ h := h
  inline _ _ h := h
  drained _ _ h := h.trans (List.suffix_cons ..)
  handedOver _ _ h := h.trans (List.suffix_cons ..)

theorem readBlobs_extends {fuel tx chunkSize : Nat} {ids datas : List Bytes}
    (h : readBlobs link fuel tx ids chunkSize c = (.ok datas, c')) : c.log <:+ c'.log := by
  have hstable := @stable_extends link c.log
  have hleft := Async.wp_eq_of_run ((hstable.discipline fun _ _ => trivial).readBlobs_triple fuel tx ids
    chunkSize c (List.suffix_refl _)) h
  exact hstable.of_left hleft

/-- `materialize` puts into the cells what their blobs hold, if the server keeps them and what it has
sent inline is true. -/
theorem materialize_kept (hu : link.Undisturbed) (hcontent : HasContent segs content) {opts : Options}
    {mapper : RowMapper} {base fuel tx : Nat} {rows rows' : List Row} (hsync : Sync [] c)
    (hbase : base ≤ c.log.length)
    (hrun : mapper.materialize link opts fuel tx rows c = (.ok rows', c'))
    (hstored : AsStored segs base c'.log) (hinline : InlineKept content tx (c.await link)) :
    mapper.RowsFilled content rows rows' := by
  unfold RowMapper.RowsFilled
  split
  · rename_i heager
    obtain ⟨datas, hfilled⟩ := RowMapper.materialize_filled heager hrun
    have hmissed : datas = (missed (mapper.wanted rows)
        (inlineTakes tx (mapper.wanted rows) (c.await link)).1).map content := by
      by_cases hnone : missed (mapper.wanted rows)
          (inlineTakes tx (mapper.wanted rows) (c.await link)).1 = []
      · have hcounts := hfilled.counts
        rw [hnone] at hcounts ⊢
        exact List.length_eq_zero_iff.mp hcounts
      · obtain ⟨inline, hconn⟩ := inlineTakes_conn tx (mapper.wanted rows) (c.await link)
        have hread := hfilled.reads hnone
        rw [hconn] at hread
        have hawait : Sync [] (c.await link) := by
          rw [Conn.await, hu c.awaits]
          exact hsync.congr rfl rfl rfl rfl
        have hclaimed : Sync [] { c.await link with inline := inline } := hawait.congr rfl rfl rfl rfl
        refine readBlobs_kept hu hcontent hclaimed ?_ (readBlobs_extends hread) hread hstored
        exact Nat.le_trans hbase (Conn.await_extends c).length_le
    apply RowMapper.fillRows_filled
    rw [← contents_kept (mapper.wanted rows) hinline, ← hmissed]
    exact hfilled.fills
  · rename_i hidle
    rw [RowMapper.materialize_idle (Bool.eq_false_iff.mpr hidle)] at hrun
    exact (Outcome.ok.inj (Prod.mk.inj hrun).1).symm

end FastFirebird
