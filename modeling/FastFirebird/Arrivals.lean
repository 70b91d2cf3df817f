import FastFirebird.UploadWire
import FastFirebird.Pipelines
import FastFirebird.Histories
import FastFirebird.Stable

/-! What is read on a wire that nobody else writes on: every answer that is due is there to be read,
and reading changes no account of the requests. -/
namespace FastFirebird

variable {link : Link}

/-- Exactly `l` is still to arrive, and all of it has been asked for. -/
structure Arriving (l : List Packet) (c : Conn) : Prop where
  sync : Sync l c
  flushed : c.unflushed = []

/-- The same, in the middle of an answer. -/
structure InHand (l : List Packet) (c : Conn) : Prop where
  front : Front l c
  flushed : c.unflushed = []

theorem InHand.arriving {l : List Packet} {c : Conn} (h : InHand l c) : Arriving l c :=
  ⟨h.front.sync, h.flushed⟩

theorem Arriving.send {c : Conn} (h : Sync [] c) (req : Request) :
    Arriving (link.server.packets req c.requests c.turn) (c.send link false req).flush := by
  have hsent := (@Sync.send link _ _ h false req).flush
  rw [List.nil_append] at hsent
  exact ⟨hsent, flush_unflushed _⟩

/-- Reading writes nothing. -/
def Unwritten (c c' : Conn) : Prop := c'.unflushed = c.unflushed

theorem reads_unwritten (hu : link.Undisturbed) : Reads link Unwritten where
  refl _ := rfl
  trans h h' := h'.trans h
  await c := by
    rw [Unwritten, Conn.await, hu c.awaits]
    rfl
  inbound _ _ := rfl
  inline _ _ := rfl
  drained _ _ := rfl
  handedOver _ _ := rfl

section
variable {σ : Type} (see : σ → Event → Option σ) (start : σ) (base : Nat)

/-- What is read is of no account. -/
structure OfRequests : Prop where
  drained : ∀ s n, see s (.drained n) = some s
  returned : ∀ s n turn reader, see s (.returned n turn reader) = some s

/-- The account of the requests stands as it stood. -/
def SameSince (c c' : Conn) : Prop :=
  base ≤ c.log.length → base ≤ c'.log.length ∧ since see start base c'.log = since see start base c.log

variable {see start base}

theorem reads_sameSince (hu : link.Undisturbed) (h : OfRequests see) :
    Reads link (SameSince see start base) where
  refl _ hbase := ⟨hbase, rfl⟩
  trans h h' hbase := by
    obtain ⟨hlen, hsame⟩ := h hbase
    obtain ⟨hlen', hsame'⟩ := h' hlen
    exact ⟨hlen', hsame'.trans hsame⟩
  await c hbase := by
    rw [Conn.await, hu c.awaits]
    exact ⟨hbase, rfl⟩
  inbound _ _ hbase := ⟨hbase, rfl⟩
  inline _ _ hbase := ⟨hbase, rfl⟩
  drained _ p hbase := ⟨Nat.le_succ_of_le hbase, since_skip hbase fun s => h.drained s p.request⟩
  handedOver c p hbase :=
    ⟨Nat.le_succ_of_le hbase, since_skip hbase fun s => h.returned s p.request p.turn c.turn⟩

theorem history_since (hu : link.Undisturbed) :
    History link fun log => (since see start base log).isSome where
  earlier _ _ h := since_earlier h
  await l c h hl _ := (history_undisturbed hu).await l c h hl trivial
  front l c h hl _ := (history_undisturbed hu).front l c h hl trivial

end

theorem InHand.await (hu : link.Undisturbed) {l : List Packet} {c : Conn} (h : InHand l c) :
    InHand l (c.await link) := by
  rw [Conn.await, hu c.awaits]
  exact ⟨h.front, h.flushed⟩

theorem Arriving.await (hu : link.Undisturbed) {l : List Packet} {c : Conn} (h : Arriving l c) :
    Arriving l (c.await link) := by
  rw [Conn.await, hu c.awaits]
  exact ⟨h.sync.congr rfl rfl rfl rfl, h.flushed⟩

/-- What has been asked for is not waited for. -/
theorem Arriving.no_wait {c c' : Conn} {vs l : List Packet} {p : Packet}
    (h : Arriving (vs ++ p :: l) c) (hsame : Unwritten c c')
    (hwait : (waitPost (fun _ => True) p l).pending c') : False := by
  obtain ⟨hempty, vs', -, pre, hqueue, -⟩ := hwait trivial
  have hnothing : c'.inbound ++ c'.unflushed = [] := by
    rw [hempty, hsame, h.flushed]
    rfl
  rw [hnothing] at hqueue
  have hlength := congrArg List.length hqueue
  simp only [List.length_nil, List.length_append, List.length_cons] at hlength
  omega

/-- The operation that is due is there. -/
theorem readOp_arriving (hu : link.Undisturbed) {c : Conn} {vs l : List Packet} {p : Packet}
    (hvs : ∀ v ∈ vs, v.Volunteered) (hp : p.IsOp) (h : Arriving (vs ++ p :: l) c) :
    Async.wp (readOp link)
      ⟨fun q c' => q = p ∧ InHand l c', fun _ _ => False, fun _ => False⟩ c := by
  have hreads := reads_unwritten hu
  have halong : Async.Along Unwritten (readOp link) := along_readOp
  have hwaits := readOp_waits (history_undisturbed hu) hvs hp fun _ => h.sync
  refine Async.wp_mono (halong.with_wp hwaits) ?_ ?_ ?_
  · rintro q c' ⟨hsame, hok⟩
    obtain ⟨rfl, hfront⟩ := hok trivial
    exact ⟨rfl, hfront, hsame.trans h.flushed⟩
  · exact fun _ _ herror => herror.2 trivial
  · exact fun c' hpending => h.no_wait hpending.1 hpending.2

/-- The reply that is due is there. -/
theorem readResponse_arriving (hu : link.Undisturbed) {c : Conn} {req : Request}
    (hreq : req.isPlain = true) {n turn : Nat} {l : List Packet} (hl : Readable l)
    (h : Arriving (link.server.packets req n turn ++ l) c) :
    Async.wp (readResponse link)
      ⟨fun a c' => link.server.reply req n = .ok a ∧ Arriving l c',
        fun e c' => link.server.reply req n = .error e ∧ Arriving l c', fun _ => False⟩ c := by
  have hreads := reads_unwritten hu
  have halong : Async.Along Unwritten (readResponse link) := along_readResponse
  have hdue : Arriving (stamp n turn ((link.server.volunteers n 0).map .volunteer) ++
      ⟨n, turn, .response (link.server.reply req n)⟩ :: l) c := by
    simpa [packets_plain hreq] using h
  have hwaits := readResponse_waits (history_undisturbed hu) stamp_volunteered hl fun _ => hdue.sync
  refine Async.wp_mono (halong.with_wp hwaits) ?_ ?_ ?_
  · rintro a c' ⟨hsame, hok⟩
    exact ⟨(hok trivial).1, (hok trivial).2, hsame.trans h.flushed⟩
  · rintro e c' ⟨hsame, herror⟩
    exact ⟨(herror trivial).1, (herror trivial).2, hsame.trans h.flushed⟩
  · exact fun c' hpending => hdue.no_wait hpending.1 hpending.2

/-- The row that is due is there, and it is decoded. -/
theorem readRow_inHand (hu : link.Undisturbed) {c : Conn} {readers : List ColumnReader}
    {cells : List (Option Bytes)} {n turn : Nat} {l : List Packet}
    (h : InHand (⟨n, turn, .row cells⟩ :: l) c) :
    Async.wp (readRow link readers)
      ⟨fun row c' => decodeRow readers cells = .ok row ∧ InHand l c',
        fun e _ => ∃ rest, decodeRow readers cells = .error (e, rest), fun _ => False⟩ c := by
  obtain ⟨⟨hqueue, hdeferred, hturn, hfifo⟩, hflushed⟩ := h.await hu
  rw [hflushed, List.append_nil] at hqueue
  unfold Async.wp readRow
  dsimp only
  rw [hqueue]
  dsimp only
  cases hrow : decodeRow readers cells with
  | ok row =>
    refine ⟨rfl, ⟨?_, hdeferred, fun p hp => hturn p (List.mem_cons_of_mem _ hp), hfifo⟩, hflushed⟩
    dsimp only
    rw [hflushed, List.append_nil]
  | error e => exact ⟨e.2, rfl⟩

/-! A whole fetch answer -/

/-- The rows of a result set, if every one of them can be decoded. -/
def decodeRows (readers : List ColumnReader) (rows : List (List (Option Bytes))) :
    Option (List Row) :=
  rows.mapM fun cells => (decodeRow readers cells).toOption

theorem decodeRows_append (readers : List ColumnReader) (rows rows' : List (List (Option Bytes))) :
    decodeRows readers (rows ++ rows') =
      (decodeRows readers rows).bind fun ds => (decodeRows readers rows').map (ds ++ ·) := by
  unfold decodeRows
  rw [List.mapM_append]
  cases rows.mapM fun cells => (decodeRow readers cells).toOption with
  | none => rfl
  | some ds => cases rows'.mapM fun cells => (decodeRow readers cells).toOption <;> rfl

theorem decodeRows_cons {readers : List ColumnReader} {cells : List (Option Bytes)} {row : Row}
    (h : decodeRow readers cells = .ok row) (rows : List (List (Option Bytes))) :
    decodeRows readers (cells :: rows) = (decodeRows readers rows).map (row :: ·) := by
  unfold decodeRows
  rw [List.mapM_cons, h]
  cases rows.mapM fun cells => (decodeRow readers cells).toOption <;> rfl

theorem decodeRows_stop {readers : List ColumnReader} {cells rest : List (Option Bytes)}
    {e : FirebirdError} (h : decodeRow readers cells = .error (e, rest))
    (rows : List (List (Option Bytes))) : decodeRows readers (cells :: rows) = none := by
  unfold decodeRows
  rw [List.mapM_cons, h]
  rfl

/-- The cells of the rows of an answer. -/
def FetchAnswer.cells (readers : List ColumnReader) (a : FetchAnswer) : List (List (Option Bytes)) :=
  a.rows.map (rowCells readers.length)

def FetchEnd.failed : FetchEnd → Bool
  | .error _ => true
  | _ => false

def FetchEnd.atEnd : FetchEnd → Bool
  | .eof => true
  | _ => false

/-- What a batch comes to: the rows of the answer behind those of before, or an error that the
answer is to blame for. -/
def batchPost (readers : List ColumnReader) (a : FetchAnswer) (acc : List Row) :
    Async.Post Conn FirebirdError FetchBatch where
  ok b c' := a.finish.failed = false ∧ b.eof = a.finish.atEnd ∧ Arriving [] c' ∧
    ∃ ds, decodeRows readers (a.cells readers) = some ds ∧ b.rows = acc ++ ds
  error _ _ := a.finish.failed = true ∨ decodeRows readers (a.cells readers) = none
  pending _ := False

theorem readFetchOp_last (hu : link.Undisturbed) {c : Conn} {stmt : PreparedStatementInfo}
    {acc : List Row} {next : List Row → M FetchBatch} {finish : FetchEnd} {p : Packet}
    (hp : finish.message = [p.body]) (h : InHand [] c) :
    Async.wp (readFetchOp link stmt acc next p) (batchPost stmt.columnReaders ⟨[], finish⟩ acc) c := by
  have hleft : Arriving [] (c.await link) := h.arriving.await hu
  cases finish with
  | eof =>
    obtain hbody : .fetchResponse 100 0 = p.body := List.singleton_inj.mp hp
    simp only [readFetchOp, ← hbody, ↓reduceIte, Async.wp_bind, Async.wp_modify, Async.wp_pure]
    exact ⟨rfl, rfl, hleft, [], rfl, (List.append_nil _).symm⟩
  | more =>
    obtain hbody : .fetchResponse 0 0 = p.body := List.singleton_inj.mp hp
    simp only [readFetchOp, ← hbody, show ¬(0 : Nat) = 100 by decide, ↓reduceIte, Async.wp_bind,
      Async.wp_modify, Async.wp_pure]
    exact ⟨rfl, rfl, hleft, [], rfl, (List.append_nil _).symm⟩
  | error e =>
    obtain hbody : .response (.error e) = p.body := List.singleton_inj.mp hp
    simp only [readFetchOp, ← hbody, parseResponseBody, Async.wp_bind, Async.wp_modify]
    exact Or.inl rfl

/-- The rows of an answer, one after the other, up to its end. -/
theorem readFetchBatch_arriving (hu : link.Undisturbed) {stmt : PreparedStatementInfo} {n turn : Nat}
    {finish : FetchEnd} (rows : List RowAnswer) {fuel : Nat} (hfuel : rows.length < fuel)
    (acc : List Row) (volunteers : Nat → List Volunteer) {c : Conn}
    (h : Arriving (stamp n turn (interleave volunteers
      (fetchMessages stmt.columnReaders rows finish))) c) :
    Async.wp (readFetchBatch link stmt fuel acc)
      (batchPost stmt.columnReaders ⟨rows, finish⟩ acc) c := by
  induction rows generalizing fuel acc volunteers c with
  | nil =>
    obtain ⟨fuel, rfl⟩ := Nat.exists_eq_succ_of_ne_zero (Nat.ne_of_gt hfuel)
    obtain ⟨body, hbody, hop⟩ :
        ∃ body, finish.message = [body] ∧ (⟨n, turn, body⟩ : Packet).IsOp := by
      cases finish <;> exact ⟨_, rfl, trivial⟩
    have hdue : Arriving (stamp n turn ((volunteers 0).map .volunteer) ++
        ⟨n, turn, body⟩ :: []) c := by
      simpa [fetchMessages, stamp_interleave_cons, hbody, interleave] using h
    unfold readFetchBatch
    rw [Async.wp_bind]
    refine Async.wp_mono (readOp_arriving hu stamp_volunteered hop hdue) ?_
      (fun _ _ h => h.elim) fun _ h => h
    rintro p c₁ ⟨rfl, hhand⟩
    exact readFetchOp_last hu hbody hhand
  | cons cells rows ih =>
    obtain ⟨fuel, rfl⟩ := Nat.exists_eq_succ_of_ne_zero (Nat.ne_of_gt (Nat.zero_lt_of_lt hfuel))
    have hfuel' : rows.length < fuel := Nat.lt_of_succ_lt_succ hfuel
    have hdue : Arriving (stamp n turn ((volunteers 0).map .volunteer) ++
        ⟨n, turn, .fetchResponse 0 1⟩ :: (⟨n, turn, .row (rowCells stmt.columnReaders.length cells)⟩ ::
          stamp n turn (interleave (fun k => volunteers (k + 1))
            (fetchMessages stmt.columnReaders rows finish)))) c := by
      simpa [fetchMessages_cons, stamp_interleave_cons] using h
    unfold readFetchBatch
    rw [Async.wp_bind]
    refine Async.wp_mono (readOp_arriving hu stamp_volunteered (by simp [Packet.IsOp]) hdue) ?_
      (fun _ _ h => h.elim) fun _ h => h
    rintro p c₁ ⟨rfl, hhand⟩
    simp only [readFetchOp, show ¬(0 : Nat) = 100 by decide, Nat.one_ne_zero, ↓reduceIte,
      Async.wp_bind, Async.wp_modify]
    refine Async.wp_mono (readRow_inHand hu (hhand.await hu)) ?_ ?_ fun _ h => h
    · rintro row c₂ ⟨hrow, hrest⟩
      have hdecoded := decodeRows_cons hrow (rows.map (rowCells stmt.columnReaders.length))
      refine Async.wp_mono (ih hfuel' (acc ++ [row]) _ hrest.arriving) ?_ ?_ fun _ h => h
      · rintro b c₃ ⟨hfine, heof, hleft, ds, hds, hb⟩
        refine ⟨hfine, heof, hleft, row :: ds, ?_, ?_⟩
        · change decodeRows stmt.columnReaders
            (rowCells stmt.columnReaders.length cells ::
              rows.map (rowCells stmt.columnReaders.length)) = _
          rw [hdecoded]
          exact congrArg (Option.map (row :: ·)) hds
        · rw [hb, List.append_assoc]
          rfl
      · rintro e c₃ (hfailed | hnone)
        · exact Or.inl hfailed
        · refine Or.inr ?_
          change decodeRows stmt.columnReaders
            (rowCells stmt.columnReaders.length cells ::
              rows.map (rowCells stmt.columnReaders.length)) = _
          rw [hdecoded]
          exact congrArg (Option.map (row :: ·)) hnone
    · rintro e c₂ ⟨rest, hrow⟩
      exact Or.inr (decodeRows_stop hrow _)

/-! Where the server has not answered as it should -/

/-- Outside `K` no more is claimed of a program than that it stays there. -/
theorem stable_not {K : List Event → Prop} (hK : History link K) :
    Stable link (fun _ => True) fun c => ¬ K c.log where
  send _ _ _ _ h hk := h (hK.earlier _ _ hk)
  mark _ _ h hk := h (hK.earlier _ _ hk)
  flush _ h := by
    rw [Conn.flush_log]
    exact h
  await _ h hk := h (hK.of_suffix (Conn.await_extends _) hk)
  inbound _ _ h := h
  inline _ _ h := h
  drained _ _ h hk := h (hK.earlier _ _ hk)
  handedOver _ _ h hk := h (hK.earlier _ _ hk)

theorem discipline_not {K : List Event → Prop} (hK : History link K) :
    Discipline link (fun _ => True) (fun _ c => ¬ K c.log) fun c => ¬ K c.log :=
  (stable_not hK).discipline fun _ _ => trivial

theorem Left.not {K : List Event → Prop} {c : Conn} (hK : History link K)
    (h : Left link (fun _ => True) (fun _ c => ¬ K c.log) c) : ¬ K c.log := (stable_not hK).of_left h

theorem Settled.not {K : List Event → Prop} {c : Conn} (hK : History link K)
    (h : Settled link (fun _ => True) (fun _ c => ¬ K c.log) (fun c => ¬ K c.log) c) : ¬ K c.log :=
  (stable_not hK).of_settled h

theorem statement_not {codec : Codec} {K : List Event → Prop} (hK : History link K) :
    StatementDiscipline link codec (fun _ => True) (fun _ => True) (fun _ c => ¬ K c.log)
      (fun _ c => ¬ K c.log) (fun c => ¬ K c.log) fun c => ¬ K c.log :=
  (stable_not hK).statements (fun _ _ => trivial) fun _ _ =>
    ⟨fun _ _ _ _ => trivial, fun _ _ _ _ => trivial, fun _ _ _ _ => trivial, fun _ => trivial, trivial,
      trivial, fun _ => trivial, fun _ => trivial, fun _ => trivial, trivial⟩

end FastFirebird
