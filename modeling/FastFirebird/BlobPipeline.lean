import FastFirebird.BlobBooks
import FastFirebird.BlobSync
import FastFirebird.Pipelines
import FastFirebird.Arrivals

/-! `readBlobs` keeps its window full and its books in order, whatever blobs there are and however the
server cuts them into segments: what it returns is their contents, and every blob is closed. -/
namespace FastFirebird

variable {link : Link} {segs : Nat → Bytes → List Bytes} {ids : List Bytes} {base bound : Nat}
  {st st' : BlobReads} {c : Conn}

/-- The books, with the flushed requests in front of those that are still in the buffer. -/
structure Progress (link : Link) (segs : Nat → Bytes → List Bytes) (ids : List Bytes) (base : Nat)
    (st : BlobReads) (front back : Owing) (s : BlobStore) (c : Conn) : Prop where
  pending : st.pending = front.map (·.1)
  unflushed : st.unflushed = back.map (·.1)
  line : Line link base (front.map (·.2)) (back.map (·.2)) c
  store : BlobStore.since segs base c.log = some s
  books : Books segs ids s st (front ++ back)

/-- So it stands, with fewer than `bound` responses to be read, if the server has answered as a store
does. -/
def Kept (link : Link) (segs : Nat → Bytes → List Bytes) (ids : List Bytes) (base bound : Nat)
    (st : BlobReads) (c : Conn) : Prop :=
  AsStored segs base c.log → ∃ front back s, Progress link segs ids base st front back s c ∧
    readsLeft segs ids st (front ++ back) < bound

/-- A request is sent, and its answer is the last that is due. -/
theorem Kept.send (h : Kept link segs ids base bound st c) {req : Request}
    (hreq : req.isPlain = true) {p : PendingRead}
    (hst : st'.pending = st.pending ∧ st'.unflushed = st.unflushed ++ [p])
    (hbooks : AsStored segs base c.log → ∀ q s s' r, Books segs ids s st q →
      s.take segs req r = some s' → Books segs ids s' st' (q ++ [(p, r)]) ∧
        readsLeft segs ids st' (q ++ [(p, r)]) = readsLeft segs ids st q) :
    Kept link segs ids base bound st' (c.send link false req) := by
  intro hk'
  have hk : AsStored segs base c.log := hk'.earlier
  obtain ⟨front, back, s, h, hbound⟩ := h hk
  obtain ⟨s', htake, hs', hline⟩ := h.line.asked hreq h.store hk'
  obtain ⟨hnow, hleft⟩ := hbooks hk (front ++ back) s s' _ h.books htake
  rw [List.append_assoc] at hnow hleft
  refine ⟨front, back ++ [(p, link.server.reply req c.requests)], s', ⟨?_, ?_, ?_, hs', hnow⟩, ?_⟩
  · rw [hst.1]
    exact h.pending
  · rw [hst.2, List.map_append, h.unflushed]
    rfl
  · rw [List.map_append]
    exact hline
  · rw [hleft]
    exact hbound

theorem Kept.flush (h : Kept link segs ids base bound st c) :
    Kept link segs ids base bound
      { st with pending := st.pending ++ st.unflushed, unflushed := [] } c.flush := by
  intro hk
  rw [Conn.flush_log] at hk
  obtain ⟨front, back, s, h, hbound⟩ := h hk
  refine ⟨front ++ back, [], s, ⟨?_, rfl, ?_, ?_, ?_⟩, ?_⟩
  · rw [List.map_append, h.pending, h.unflushed]
  · rw [List.map_append]
    exact h.line.flush
  · rw [Conn.flush_log]
    exact h.store
  · rw [List.append_nil]
    exact h.books.queued _ _
  · rw [List.append_nil]
    exact hbound

/-! The window is filled -/

/-- What filling the window leaves alone, and what it only adds to. -/
structure Fuller (st st' : BlobReads) : Prop where
  head : st'.head = st.head
  next : st'.nextToOpen = st.nextToOpen
  total : st.totalInFlight ≤ st'.totalInFlight
  length : st'.blobs.length = st.blobs.length
  handle : ∀ k, (st'.blob k).handle = (st.blob k).handle
  eof : ∀ k, (st'.blob k).eof = (st.blob k).eof
  cap : ∀ k, (st'.blob k).cap = (st.blob k).cap
  inFlight : ∀ k, (st.blob k).inFlight ≤ (st'.blob k).inFlight

theorem Fuller.refl (st : BlobReads) : Fuller st st :=
  ⟨rfl, rfl, Nat.le_refl _, rfl, fun _ => rfl, fun _ => rfl, fun _ => rfl, fun _ => Nat.le_refl _⟩

theorem Fuller.trans {st₁ st₂ st₃ : BlobReads} (h : Fuller st₁ st₂) (h' : Fuller st₂ st₃) :
    Fuller st₁ st₃ :=
  ⟨h'.head.trans h.head, h'.next.trans h.next, Nat.le_trans h.total h'.total,
    h'.length.trans h.length, fun k => (h'.handle k).trans (h.handle k),
    fun k => (h'.eof k).trans (h.eof k), fun k => (h'.cap k).trans (h.cap k),
    fun k => Nat.le_trans (h.inFlight k) (h'.inFlight k)⟩

theorem fuller_ask {i n : Nat} (hi : i < st.blobs.length) : Fuller st (st.ask i n) := by
  have hblob := @BlobReads.blob_set _ _ (st.ask i n) _ rfl hi
  have hsame {α : Type} (f : BlobState → α)
      (hf : f { st.blob i with inFlight := (st.blob i).inFlight + n } = f (st.blob i)) (k : Nat) :
      f ((st.ask i n).blob k) = f (st.blob k) := by
    rw [hblob]
    split
    · rename_i hk
      rw [hf, hk]
    · rfl
  refine ⟨rfl, rfl, Nat.le_add_right _ _, List.length_set, hsame BlobState.handle rfl,
    hsame BlobState.eof rfl, hsame BlobState.cap rfl, fun k => ?_⟩
  rw [hblob]
  split
  · rename_i hk
    rw [hk]
    exact Nat.le_add_right _ _
  · exact Nat.le_refl _

theorem ask_zero {i : Nat} (hi : i < st.blobs.length) : st.ask i 0 = st := by
  have hset : st.blobs.set i { st.blob i with inFlight := (st.blob i).inFlight + 0 } = st.blobs := by
    have hget : st.blob i = st.blobs[i] := by
      rw [BlobReads.blob, List.getD_eq_getElem?_getD, List.getElem?_eq_getElem hi]
      rfl
    rw [hget]
    exact List.set_getElem_self hi
  rw [BlobReads.ask, hset, List.replicate_zero, List.append_nil]
  rfl

theorem ask_succ {i n : Nat} (hi : i < st.blobs.length) :
    (st.ask i 1).ask i n = st.ask i (n + 1) := by
  have hblob := BlobReads.ask_blob hi 1
  have hlist : [PendingRead.seg i] ++ List.replicate n (.seg i) =
      List.replicate (n + 1) (.seg i) := rfl
  rw [BlobReads.ask, hblob]
  change BlobReads.mk _ _ _ _ _ _ = BlobReads.mk _ _ _ _ _ _
  congr 1
  · rw [Nat.add_assoc, Nat.add_comm 1]
    exact List.set_set _
  · rw [← hlist, ← List.append_assoc]
    rfl
  · change st.totalInFlight + 1 + n = st.totalInFlight + (n + 1)
    omega

/-- Segments of one blob are asked for, as many as its window has room for. -/
theorem sendTimes_kept {i n handle len : Nat} (h : Kept link segs ids base bound st c)
    (hi : i < st.blobs.length) (hhandle : (st.blob i).handle = some handle)
    (heof : (st.blob i).eof = false) (hroom : 0 < n → (st.blob i).inFlight + n ≤ (st.blob i).cap)
    {E : FirebirdError → Conn → Prop} {P : Conn → Prop} :
    Async.wp (sendTimes link (.getSegment handle len) n)
      ⟨fun _ => Kept link segs ids base bound (st.ask i n), E, P⟩ c := by
  induction n generalizing st c with
  | zero =>
    rw [ask_zero hi]
    exact h
  | succ n ih =>
    have hfuller := fuller_ask (n := 1) hi
    have hblob := BlobReads.ask_blob hi 1
    have hsent : Kept link segs ids base bound (st.ask i 1) (c.send link false (.getSegment handle len)) := by
      refine h.send rfl ⟨rfl, rfl⟩ fun _ q s s' r hbooks hs => ?_
      have hi' : i < ids.length := hbooks.blobs ▸ hi
      refine ⟨hbooks.asked hi' hhandle heof (by omega) hs, ?_⟩
      refine readsLeft_of_same ?_ fun j => ?_
      · rw [repliesTo_snoc, if_neg (by simp)]
      · by_cases hj : j = i
        · rw [hj, BlobState.readsLeft_reading hhandle heof, hblob]
          exact BlobState.readsLeft_reading hhandle heof
        · rw [@BlobReads.blob_set _ _ (st.ask i 1) _ rfl hi, if_neg hj]
    have hnext := ih hsent (by rw [hfuller.length]; exact hi) (by rw [hfuller.handle]; exact hhandle)
      (by rw [hfuller.eof]; exact heof) (by rw [hblob]; dsimp only; omega)
    rw [ask_succ hi] at hnext
    rw [sendTimes, Async.wp_bind]
    exact hnext

/-- A blob has all the requests that it may have, or the pipeline is full. -/
def Filled (i : Nat) (st : BlobReads) : Prop :=
  ∀ handle, (st.blob i).handle = some handle → (st.blob i).eof = false →
    pipelineDepth ≤ st.totalInFlight ∨ (st.blob i).cap ≤ (st.blob i).inFlight

theorem Filled.fuller {i : Nat} (h : Filled i st) (hfuller : Fuller st st') : Filled i st' := by
  intro handle hhandle heof
  rw [hfuller.handle] at hhandle
  rw [hfuller.eof] at heof
  rw [hfuller.cap]
  rcases h handle hhandle heof with htotal | hcap
  · exact .inl (Nat.le_trans htotal hfuller.total)
  · exact .inr (Nat.le_trans hcap (hfuller.inFlight i))

theorem filled_ask {i : Nat} (hi : i < st.blobs.length) :
    Filled i (st.ask i (min (st.blob i).cap
      ((st.blob i).inFlight + (pipelineDepth - st.totalInFlight)) - (st.blob i).inFlight)) := by
  intro handle _ _
  rw [BlobReads.ask_blob hi]
  dsimp only [BlobReads.ask]
  omega

theorem pumpBlob_kept {i bufferLength : Nat} (h : Kept link segs ids base bound st c)
    (hi : i < st.blobs.length) :
    Async.wp (pumpBlob link bufferLength i st)
      ⟨fun st' c' => Kept link segs ids base bound st' c' ∧ Fuller st st' ∧ Filled i st',
        fun _ _ => False, fun _ => False⟩ c := by
  rw [pumpBlob]
  cases hhandle : (st.blob i).handle with
  | none =>
    refine ⟨h, Fuller.refl st, fun handle hsome => ?_⟩
    rw [hhandle] at hsome
    cases hsome
  | some handle =>
    dsimp only
    by_cases heof : (st.blob i).eof = true
    · rw [if_pos heof]
      refine ⟨h, Fuller.refl st, fun handle _ hnot => ?_⟩
      rw [heof] at hnot
      cases hnot
    · rw [Bool.not_eq_true] at heof
      rw [if_neg (by simp [heof]), Async.wp_bind]
      refine Async.wp_mono (sendTimes_kept (E := fun _ _ => False) (P := fun _ => False) h hi hhandle
        heof (by omega)) (fun _ c' h' => ⟨h', fuller_ask hi, filled_ask hi⟩) (fun _ _ h => h) fun _ h => h

/-- The first of the blobs gets what it has room for; the others get what it leaves. -/
theorem pumpSegments_kept {bufferLength : Nat} (is : List Nat)
    (h : Kept link segs ids base bound st c) (his : ∀ i ∈ is, i < st.blobs.length) :
    Async.wp (pumpSegments link bufferLength is st)
      ⟨fun st' c' => Kept link segs ids base bound st' c' ∧ Fuller st st' ∧
          ∀ i, is.head? = some i → Filled i st',
        fun _ _ => False, fun _ => False⟩ c := by
  induction is generalizing st c with
  | nil => exact ⟨h, Fuller.refl st, fun i hi => by cases hi⟩
  | cons i is ih =>
    rw [pumpSegments]
    split
    · rw [Async.wp_bind]
      refine Async.wp_mono (pumpBlob_kept h (his i List.mem_cons_self)) ?_ (fun _ _ h => h) fun _ h => h
      intro st₁ c₁ hpumped
      obtain ⟨h₁, hfuller, hfilled⟩ := hpumped
      refine Async.wp_mono (ih h₁ fun j hj => ?_) ?_ (fun _ _ h => h) fun _ h => h
      · rw [hfuller.length]
        exact his j (List.mem_cons_of_mem _ hj)
      · intro st₂ c₂ hrest
        obtain ⟨h₂, hfuller', -⟩ := hrest
        refine ⟨h₂, hfuller.trans hfuller', fun j hj => ?_⟩
        obtain rfl := Option.some.inj hj
        exact hfilled.fuller hfuller'
    · rename_i hfull
      refine ⟨h, Fuller.refl st, fun j _ handle _ _ => .inl ?_⟩
      exact Nat.le_of_not_lt hfull

/-- Ten blobs are opened ahead of the first that is not read. -/
theorem pumpOpens_kept {tx : Nat} (fuel : Nat) (h : Kept link segs ids base bound st c)
    (hfuel : ids.length ≤ st.nextToOpen + fuel) :
    Async.wp (pumpOpens link tx ids fuel st)
      ⟨fun st' c' => Kept link segs ids base bound st' c' ∧ st'.head = st.head ∧
          st'.blobs = st.blobs ∧
          (ids.length ≤ st'.nextToOpen ∨ st'.head + openAhead ≤ st'.nextToOpen),
        fun _ _ => False, fun _ => False⟩ c := by
  induction fuel generalizing st c with
  | zero => exact ⟨h, rfl, rfl, .inl hfuel⟩
  | succ fuel ih =>
    rw [pumpOpens]
    split
    · rename_i hroom
      rw [Async.wp_bind]
      refine @ih { st with
        unflushed := st.unflushed ++ [.open st.nextToOpen], nextToOpen := st.nextToOpen + 1 } _ ?_ ?_
      · refine h.send rfl ⟨rfl, rfl⟩ fun _ q s s' r hbooks hs => ⟨hbooks.opened hroom.1 hs, ?_⟩
        refine readsLeft_of_same ?_ fun j => rfl
        rw [repliesTo_snoc, if_neg (by simp)]
      · dsimp only
        omega
    · rename_i hfull
      refine ⟨h, rfl, rfl, ?_⟩
      by_contra hnot
      omega

/-- If nothing is outstanding, everything is read. -/
def ReadOut (segs : Nat → Bytes → List Bytes) (ids : List Bytes) (st : BlobReads) : Prop :=
  ∀ s, Books segs ids s st [] → ids.length ≤ st.head

theorem pump_kept {tx bufferLength : Nat} (h : Kept link segs ids base bound st c) :
    Async.wp (pump link tx bufferLength ids st)
      ⟨fun st' c' => Kept link segs ids base bound st' c' ∧ ReadOut segs ids st',
        fun _ _ => False, fun _ => False⟩ c := by
  rw [pump, Async.wp_bind]
  refine Async.wp_mono (pumpOpens_kept ids.length h (Nat.le_add_left _ _)) ?_ (fun _ _ h => h) fun _ h => h
  intro st₁ c₁ hopened
  obtain ⟨h₁, hhead, hsame, hnext⟩ := hopened
  refine Async.wp_mono (pumpSegments_kept _ h₁ fun i hi => ?_) ?_ (fun _ _ h => h) fun _ h => h
  · have := List.mem_range'_1.mp hi
    omega
  · intro st₂ c₂ hfilled
    obtain ⟨h₂, hfuller, hfirst⟩ := hfilled
    refine ⟨h₂, fun s hbooks => ?_⟩
    by_contra hnot
    have hlt : st₂.head < ids.length := Nat.lt_of_not_le hnot
    have heof := hbooks.head.current hlt
    have hrange : (List.range' st₁.head (st₁.blobs.length - st₁.head)).head? = some st₂.head := by
      have hlength : st₁.blobs.length = ids.length := hfuller.length.symm.trans hbooks.blobs
      rw [hfuller.head] at hlt ⊢
      obtain ⟨n, hn⟩ := Nat.exists_eq_add_of_lt (Nat.sub_pos_of_lt (hlength ▸ hlt))
      rw [hn, Nat.zero_add, List.range'_succ]
      rfl
    have hstage := hbooks.stage _ hlt
    cases hstage with
    | unopened hle _ _ _ _ =>
      have hahead : openAhead = 10 := rfl
      rw [hfuller.next, hfuller.head] at hle
      rw [hfuller.head] at hlt
      omega
    | opening _ _ _ hopens _ _ => cases hopens
    | reading handle _ _ hread =>
      -- there is room for a request, and none is outstanding
      have hzero : (st₂.blob st₂.head).inFlight = 0 := hread.count
      have htotal : st₂.totalInFlight = 0 := hbooks.total
      have hroom := hread.room
      have hdepth : pipelineDepth = 32 := rfl
      rcases hfirst _ hrange handle hread.known heof with hfull | hcap
      · omega
      · omega
    | done _ _ hend _ _ _ _ =>
      rw [heof] at hend
      cases hend

theorem ReadOut.queued (h : ReadOut segs ids st) (pending unflushed : List PendingRead) :
    ReadOut segs ids { st with pending := pending, unflushed := unflushed } :=
  fun s hbooks => h s (hbooks.queued st.pending st.unflushed)

theorem flushNow_kept (h : Kept link segs ids base bound st c) (hout : ReadOut segs ids st) :
    Async.wp (flushNow st)
      ⟨fun st' c' => Kept link segs ids base bound st' c' ∧ ReadOut segs ids st' ∧ st'.unflushed = [],
        fun _ _ => False, fun _ => False⟩ c := by
  rw [flushNow]
  split
  · rename_i hnone
    exact ⟨h, hout, List.isEmpty_iff.mp hnone⟩
  · rw [Async.wp_bind]
    exact ⟨h.flush, hout.queued _ _, rfl⟩

theorem flushFull_kept (h : Kept link segs ids base bound st c) (hout : ReadOut segs ids st) :
    Async.wp (flushFull st)
      ⟨fun st' c' => Kept link segs ids base bound st' c' ∧ ReadOut segs ids st',
        fun _ _ => False, fun _ => False⟩ c := by
  rw [flushFull]
  split
  · exact Async.wp_mono (flushNow_kept h hout) (fun _ _ h => ⟨h.1, h.2.1⟩) (fun _ _ h => h) fun _ h => h
  · exact ⟨h, hout⟩

theorem flushIdle_kept (h : Kept link segs ids base bound st c) (hout : ReadOut segs ids st) :
    Async.wp (flushIdle st)
      ⟨fun st' c' => Kept link segs ids base bound st' c' ∧ ReadOut segs ids st' ∧
          (st'.pending = [] → st'.unflushed = []),
        fun _ _ => False, fun _ => False⟩ c := by
  rw [flushIdle]
  split
  · exact Async.wp_mono (flushNow_kept h hout) (fun _ _ h => ⟨h.1, h.2.1, fun _ => h.2.2⟩)
      (fun _ _ h => h) fun _ h => h
  · rename_i hsome
    exact ⟨h, hout, fun hnone => absurd (List.isEmpty_iff.mpr hnone) hsome⟩

/-! A response is read -/

/-- The next response is due, and `Books` is about the state before it is read. -/
structure Due (link : Link) (segs : Nat → Bytes → List Bytes) (ids : List Bytes) (base bound : Nat)
    (p : PendingRead) (r : Reply) (st : BlobReads) (front back : Owing) (s : BlobStore) : Prop where
  pending : st.pending = front.map (·.1)
  unflushed : st.unflushed = back.map (·.1)
  books : Books segs ids s st ((p, r) :: (front ++ back))
  left : readsLeft segs ids st ((p, r) :: (front ++ back)) ≤ bound

theorem Kept.due {p : PendingRead}
    (h : Kept link segs ids base (bound + 1) { st with pending := p :: st.pending } c)
    (hk : AsStored segs base c.log) : ∃ r front back s, Due link segs ids base bound p r st front back s ∧
      Line link base (r :: front.map (·.2)) (back.map (·.2)) c ∧
      BlobStore.since segs base c.log = some s := by
  obtain ⟨front, back, s, h, hbound⟩ := h hk
  have hpending : p :: st.pending = front.map (·.1) := h.pending
  cases front with
  | nil => cases hpending
  | cons x front =>
    obtain ⟨hp, hrest⟩ := List.cons.inj hpending
    obtain ⟨p', r⟩ := x
    obtain rfl : p = p' := hp
    exact ⟨r, front, back, s, ⟨hrest, h.unflushed, h.books.queued st.pending st.unflushed,
      Nat.le_of_lt_succ hbound⟩, h.line, h.store⟩

namespace Due

variable {p : PendingRead} {r : Reply} {front back : Owing} {s : BlobStore}

/-- Nothing is sent for the response. -/
theorem kept (h : Due link segs ids base bound p r st front back s)
    (hline : Line link base (front.map (·.2)) (back.map (·.2)) c)
    (hs : BlobStore.since segs base c.log = some s) (hpending : st'.pending = st.pending)
    (hunflushed : st'.unflushed = st.unflushed) (hbooks : Books segs ids s st' (front ++ back))
    (hleft : readsLeft segs ids st' (front ++ back) + 1 ≤
      readsLeft segs ids st ((p, r) :: (front ++ back))) :
    Kept link segs ids base bound st' c := fun _ =>
  ⟨front, back, s, ⟨hpending.trans h.pending, hunflushed.trans h.unflushed, hline, hs, hbooks⟩,
    Nat.lt_of_lt_of_le hleft h.left⟩

theorem receiveSegment_kept {i : Nat} {resp : Response}
    (h : Due link segs ids base bound (.seg i) (.ok resp) st front back s)
    (hline : Line link base (front.map (·.2)) (back.map (·.2)) c)
    (hs : BlobStore.since segs base c.log = some s) :
    Async.wp (receiveSegment link i (segmentOf resp) (st.settle i))
      ⟨Kept link segs ids base bound, fun _ _ => False, fun _ => False⟩ c := by
  obtain ⟨hi, hlt, -, -, -, -⟩ := h.books.nextSegment
  have hblob := BlobReads.settle_blob hlt
  have heof : ((st.settle i).blob i).eof = (st.blob i).eof := by
    rw [hblob]
    rfl
  have hhandle : ((st.settle i).blob i).handle = (st.blob i).handle := by
    rw [hblob]
    rfl
  rw [receiveSegment]
  dsimp only
  split
  · rename_i hend
    rw [heof] at hend
    obtain ⟨_, -, hbooks, hleft⟩ := h.books.gotRest hend
    exact h.kept hline hs rfl rfl hbooks hleft
  · rename_i hmore
    rw [heof, Bool.not_eq_true] at hmore
    split
    · rename_i hlast
      obtain ⟨_, handle, -, -, -, hread, -⟩ := h.books.gotSegment hmore
      have hget : ((st.settle i).blob i).handle.getD 0 = handle := by
        rw [hhandle, hread.known]
        rfl
      rw [Async.wp_bind]
      intro hk'
      obtain ⟨s', htake, hs', hline'⟩ := hline.asked rfl hs hk'
      have hclose : s.take segs (.closeBlob handle) (link.server.reply
          (.closeBlob (((st.settle i).blob i).handle.getD 0)) c.requests) = some s' := by
        rw [← htake, hget]
      obtain ⟨hbooks, hleft⟩ := h.books.finished hmore hlast hread.known hclose
      rw [List.append_assoc] at hbooks hleft
      refine ⟨front, back ++ [(PendingRead.close, link.server.reply
        (.closeBlob (((st.settle i).blob i).handle.getD 0)) c.requests)], s',
        ⟨h.pending, ?_, ?_, hs', hbooks⟩, Nat.lt_of_lt_of_le hleft h.left⟩
      · rw [List.map_append, ← h.unflushed]
        rfl
      · rw [List.map_append]
        exact hline'
    · rename_i hnot
      obtain ⟨hbooks, hleft⟩ := h.books.received hmore (Bool.eq_false_iff.mpr hnot)
      exact h.kept hline hs rfl rfl hbooks hleft

end Due

/-- A response that is due is read and accounted for, and none is an error. -/
theorem readPending_kept (hu : link.Undisturbed) (hfull : ∀ k id, segs k id ≠ []) {p : PendingRead}
    (h : Kept link segs ids base (bound + 1) { st with pending := p :: st.pending } c) :
    Async.wp (readPending link p st)
      ⟨fun res c' => (∀ st', res = .ok st' → Kept link segs ids base bound st' c') ∧
          ∀ e, res = .error e → ¬ AsStored segs base c'.log,
        fun _ _ => False, fun c' => ¬ AsStored segs base c'.log⟩ c := by
  have hK := @history_asStored segs base link hu
  by_cases hk : AsStored segs base c.log
  · obtain ⟨r, front, back, s, hdue, hline, hs⟩ := h.due hk
    have hread := @readResponse_line segs _ _ hu _ _ _ _ hline
    cases p with
    | «open» i =>
      obtain ⟨resp, rfl, hbooks, hleft⟩ := hdue.books.gotHandle hfull
      refine Async.wp_bind.mpr (Async.wp_attempt.mpr (Async.wp_mono hread ?_ ?_ fun _ h => h))
      · refine fun a c' hok => ⟨fun st' hst' => ?_, fun e he => by cases he⟩
        obtain rfl := Except.ok.inj hst'
        intro hk'
        obtain ⟨ha, hline', hs'⟩ := hok hk'
        obtain rfl := Except.ok.inj ha
        exact hdue.kept hline' (hs'.trans hs) rfl rfl hbooks hleft hk'
      · refine fun e c' herror => ⟨fun st' hst' => (by cases hst'), fun _ _ hk' => ?_⟩
        cases (herror hk').1
    | close =>
      obtain ⟨hbooks, hleft⟩ := hdue.books.gotClose
      refine Async.wp_bind.mpr (Async.wp_attempt.mpr (Async.wp_mono hread ?_ ?_ fun _ h => h))
      · refine fun a c' hok => ⟨fun st' hst' => ?_, fun e he => by cases he⟩
        obtain rfl := Except.ok.inj hst'
        intro hk'
        obtain ⟨-, hline', hs'⟩ := hok hk'
        exact hdue.kept hline' (hs'.trans hs) rfl rfl hbooks hleft hk'
      · refine fun a c' hok => ⟨fun st' hst' => ?_, fun e he => by cases he⟩
        obtain rfl := Except.ok.inj hst'
        intro hk'
        obtain ⟨-, hline', hs'⟩ := hok hk'
        exact hdue.kept hline' (hs'.trans hs) rfl rfl hbooks hleft hk'
    | seg i =>
      have hok : ∃ resp, r = .ok resp := by
        by_cases heof : (st.blob i).eof = true
        · obtain ⟨resp, hr, -, -⟩ := hdue.books.gotRest heof
          exact ⟨resp, hr⟩
        · obtain ⟨resp, -, hr, -⟩ := hdue.books.gotSegment (Bool.not_eq_true _ ▸ heof)
          exact ⟨resp, hr⟩
      obtain ⟨resp, rfl⟩ := hok
      have hsegment := @readSegmentResponse_line segs _ _ hu _ _ _ _ _ hline hs
      refine Async.wp_bind.mpr (Async.wp_attempt.mpr (Async.wp_mono hsegment ?_ ?_ fun _ h => h))
      · intro seg c' hok
        by_cases hk' : AsStored segs base c'.log
        · obtain ⟨rfl, hline', hs'⟩ := hok hk'
          refine Async.wp_bind.mpr (Async.wp_mono (hdue.receiveSegment_kept hline' hs') ?_
            (fun _ _ h => False.elim h) fun _ h => False.elim h)
          intro st' c'' hkept
          refine ⟨fun st'' hst'' => ?_, fun e he => (by cases he)⟩
          obtain rfl := Except.ok.inj hst''
          exact hkept
        · refine Async.wp_bind.mpr (Async.wp_mono ((discipline_not hK).receiveSegment_post
            (E := fun _ => False) i seg (st.settle i) hk') ?_ (fun _ _ h => h) fun _ h => h)
          intro st' c'' hnot
          exact ⟨fun st'' _ hk'' => absurd hk'' hnot, fun e he => (by cases he)⟩
      · exact fun e c' hnot => ⟨fun st' hst' => (by cases hst'), fun _ _ => hnot⟩
  · refine Async.wp_mono ((discipline_not hK).readPending_post (E := fun _ => False) p st hk) ?_ (fun _ _ h => h) fun _ h => h
    intro res c' hnot
    cases res with
    | ok st' =>
      refine ⟨fun st'' _ hk' => absurd hk' hnot, fun e he => ?_⟩
      cases he
    | error e =>
      refine ⟨fun st' hst' => ?_, fun _ _ => hnot⟩
      cases hst'

/-! A whole run -/

/-- Every blob is read: its parts are its segments, and the server has none of them open. -/
theorem Books.readOut {s : BlobStore} (h : Books segs ids s st []) (hhead : ids.length ≤ st.head) :
    st.blobs.map (·.parts) = ids.zipIdx.map (fun x => (segs x.2 x.1).flatten) ∧
      ∀ handle, s.handles handle = none := by
  have hdone (i : Nat) (hi : i < ids.length) : (st.blob i).parts = (segs i (ids.getD i [])).flatten ∧
      HoldsBlob s.handles i none := by
    have heof := h.head.finished i (Nat.lt_of_lt_of_le hi hhead)
    have hstage := h.stage i hi
    cases hstage with
    | unopened _ hblob _ _ _ =>
      rw [hblob] at heof
      cases heof
    | opening _ _ hblob _ _ _ =>
      rw [hblob] at heof
      cases heof
    | reading _ _ _ hread =>
      rw [hread.unfinished] at heof
      cases heof
    | done _ _ _ hparts _ _ hstore => exact ⟨hparts, hstore⟩
  constructor
  · refine List.ext_getElem ?_ fun i hi hi' => ?_
    · rw [List.length_map, List.length_map, List.length_zipIdx]
      exact h.blobs
    · have hlt : i < ids.length := by
        rw [List.length_map, h.blobs] at hi
        exact hi
      have hwithin : i < st.blobs.length := h.blobs.symm ▸ hlt
      have hblob : st.blobs[i] = st.blob i := by
        rw [BlobReads.blob, List.getD_eq_getElem?_getD, List.getElem?_eq_getElem hwithin]
        rfl
      rw [List.getElem_map, List.getElem_map, hblob, (hdone i hlt).1, List.getElem_zipIdx,
        List.getD_eq_getElem?_getD, List.getElem?_eq_getElem hlt, Nat.zero_add]
      rfl
  · intro handle
    cases hx : s.handles handle with
    | none => rfl
    | some x =>
      have hnone := (hdone x.opened (h.owned handle x hx)).2 handle x rfl
      exact (Option.some_ne_none _ (hnone.mp hx).symm).elim

/-- What `readBlobs` comes to, under a server that answers as a store: every blob, and all of them
closed. -/
def AllRead (segs : Nat → Bytes → List Bytes) (ids : List Bytes) (base : Nat) (o : List Bytes)
    (c : Conn) : Prop :=
  o = ids.zipIdx.map (fun x => (segs x.2 x.1).flatten) ∧
    ∃ s, BlobStore.since segs base c.log = some s ∧ ∀ handle, s.handles handle = none

theorem readBlobsLoop_kept (hu : link.Undisturbed) (hfull : ∀ k id, segs k id ≠ [])
    {tx bufferLength : Nat} (fuel : Nat) (h : Kept link segs ids base fuel st c) :
    Async.wp (readBlobsLoop link tx bufferLength ids fuel st)
      ⟨fun o c' => AsStored segs base c'.log → AllRead segs ids base o c' ∧ Sync [] c',
        fun _ c' => ¬ AsStored segs base c'.log, fun c' => ¬ AsStored segs base c'.log⟩ c := by
  have hK := @history_asStored segs base link hu
  induction fuel generalizing st c with
  | zero =>
    intro hk
    obtain ⟨_, _, _, _, hleft⟩ := h hk
    exact Nat.not_lt_zero _ hleft
  | succ fuel ih =>
    refine Async.wp_bind.mpr (Async.wp_mono (pump_kept h) ?_ (fun _ _ h => False.elim h)
      fun _ h => False.elim h)
    intro st₁ c₁ hpumped
    refine Async.wp_bind.mpr (Async.wp_mono (flushFull_kept hpumped.1 hpumped.2) ?_
      (fun _ _ h => False.elim h) fun _ h => False.elim h)
    intro st₂ c₂ hflushed
    refine Async.wp_bind.mpr (Async.wp_mono (flushIdle_kept hflushed.1 hflushed.2) ?_
      (fun _ _ h => False.elim h) fun _ h => False.elim h)
    intro st₃ c₃ hidle
    obtain ⟨h₃, hout, hnone⟩ := hidle
    dsimp only
    split
    · rename_i hpending
      -- nothing is outstanding: everything is read
      intro hk
      obtain ⟨front, back, s, hnow, -⟩ := h₃ hk
      obtain rfl : front = [] := List.map_eq_nil_iff.mp (hnow.pending.symm.trans hpending)
      obtain rfl : back = [] :=
        List.map_eq_nil_iff.mp (hnow.unflushed.symm.trans (hnone hpending))
      obtain ⟨hparts, hclosed⟩ := hnow.books.readOut (hout s hnow.books)
      exact ⟨⟨hparts, s, hnow.store, hclosed⟩, hnow.line.sync⟩
    · rename_i p pending hpending
      have hdue : Kept link segs ids base (fuel + 1)
          { { st₃ with pending := pending } with pending := p :: pending } c₃ := by
        rw [← hpending]
        exact h₃
      refine Async.wp_bind.mpr (Async.wp_mono (readPending_kept hu hfull hdue) ?_
        (fun _ _ h => False.elim h) fun _ h => h)
      intro res c₄ hread
      cases res with
      | ok st' => exact ih (hread.1 st' rfl)
      | error e =>
        refine Async.wp_mono ((discipline_not hK).abandonReads_post e _ (hread.2 e rfl)) ?_ ?_
          fun _ h => h
        · exact fun _ _ h hk => absurd hk (h.not hK)
        · exact fun _ _ h => h.not hK

/-! One blob alone, with the whole pipeline to itself -/

def OnlyOpen (handle : Nat) (s : BlobStore) : Prop :=
  (∃ x, s.handles handle = some x) ∧ ∀ k, k ≠ handle → s.handles k = none

theorem OnlyOpen.update {handle : Nat} {s : BlobStore} (h : OnlyOpen handle s) {opens : Nat}
    {x : OpenBlob} : OnlyOpen handle ⟨opens, Function.update s.handles handle (some x)⟩ :=
  ⟨⟨x, Function.update_self _ _ _⟩, fun k hk => (Function.update_of_ne hk _ _).trans (h.2 k hk)⟩

/-- It is closed with the next packet. -/
theorem closeAlone {handle : Nat} {s : BlobStore} (hline : Line link base [] [] c)
    (hs : BlobStore.since segs base c.log = some s) (halone : OnlyOpen handle s)
    (hk : AsStored segs base (c.sendDeferred link (.closeBlob handle)).log) :
    (∃ s', BlobStore.since segs base (c.sendDeferred link (.closeBlob handle)).log = some s' ∧
      ∀ k, s'.handles k = none) ∧ Sync [] (c.sendDeferred link (.closeBlob handle)) := by
  obtain ⟨⟨x, hx⟩, hother⟩ := halone
  have hsent : AsStored segs base (c.send link true (.closeBlob handle)).log := hk.earlier
  obtain ⟨s₁, s', hs₁, htake, hs'⟩ := asStored_send rfl hline.base hsent
  rw [hs] at hs₁
  obtain rfl := Option.some.inj hs₁
  obtain ⟨⟨resp, hok⟩, rfl⟩ := BlobStore.take_closeBlob hx htake
  refine ⟨⟨_, (since_skip (Nat.le_succ_of_le hline.base) fun _ => rfl).trans hs', fun k => ?_⟩, ?_⟩
  · by_cases hk : k = handle
    · rw [hk]
      exact Function.update_self _ _ _
    · exact (Function.update_of_ne hk _ _).trans (hother k hk)
  · refine hline.sync.sendDeferred rfl ?_
    rw [answer_plain rfl, hok]
    rfl

/-- What `readBlob` comes to: the handle is not held any longer. -/
def AloneRead (segs : Nat → Bytes → List Bytes) (base : Nat) (data o : Bytes) (c : Conn) : Prop :=
  o = data ∧ (∃ s, BlobStore.since segs base c.log = some s ∧ ∀ k, s.handles k = none) ∧ Sync [] c

/-- The state of `readBlobLoop` behind the end of the blob. -/
def Rest (link : Link) (segs : Nat → Bytes → List Bytes) (base handle inFlight fuel : Nat)
    (c : Conn) : Prop :=
  inFlight ≤ fuel ∧ ∃ replies s, replies.length = inFlight ∧ Line link base replies [] c ∧
    BlobStore.since segs base c.log = some s ∧ OnlyOpen handle s ∧
    ∀ r ∈ replies, ∃ resp, r = .ok resp

section
variable (hu : link.Undisturbed) {handle len : Nat} {parts data : Bytes}

include hu

theorem readBlobLoop_not {fuel inFlight : Nat} {eof : Bool} (hnot : ¬ AsStored segs base c.log) :
    Async.wp (readBlobLoop link handle len fuel inFlight eof parts)
      ⟨fun o c' => AsStored segs base c'.log → AloneRead segs base data o c',
        fun _ c' => ¬ AsStored segs base c'.log, fun c' => ¬ AsStored segs base c'.log⟩ c := by
  have hK := @history_asStored segs base link hu
  refine Async.wp_mono ((discipline_not hK).readBlobLoop_triple handle len fuel inFlight eof parts c hnot)
    ?_ ?_ fun _ h => h
  · exact fun _ _ h hk => absurd hk (h.not hK)
  · exact fun _ _ h => h.not hK

theorem readBlobLoop_failed {inFlight : Nat} (e : FirebirdError)
    (hnot : ¬ AsStored segs base c.log) {Q : Bytes → Conn → Prop} :
    Async.wp (do
        drainResponses link inFlight
        closeBlobDeferred link handle
        throw e)
      ⟨Q, fun _ c' => ¬ AsStored segs base c'.log, fun c' => ¬ AsStored segs base c'.log⟩ c := by
  have hK := @history_asStored segs base link hu
  refine Async.wp_bind.mpr (Async.wp_mono ((discipline_not hK).drainResponses_triple
    (E := fun _ => False) inFlight c hnot) ?_ (fun _ _ h => False.elim h) fun _ h => h)
  intro _ c' hnot'
  have hend : ¬ AsStored segs base (c'.sendDeferred link (.closeBlob handle)).log :=
    fun hk => hnot' hk.earlier.earlier
  exact hend

omit hu in
theorem readBlobLoop_close {eof : Bool}
    (h : AsStored segs base c.log → ∃ s, Line link base [] [] c ∧
      BlobStore.since segs base c.log = some s ∧ OnlyOpen handle s) (fuel : Nat) :
    Async.wp (readBlobLoop link handle len fuel 0 eof parts)
      ⟨fun o c' => AsStored segs base c'.log → AloneRead segs base parts o c',
        fun _ c' => ¬ AsStored segs base c'.log, fun c' => ¬ AsStored segs base c'.log⟩ c := by
  have hclose : Async.wp (closeBlobDeferred link handle >>= fun _ => (pure parts : M Bytes))
      ⟨fun o c' => AsStored segs base c'.log → AloneRead segs base parts o c',
        fun _ c' => ¬ AsStored segs base c'.log, fun c' => ¬ AsStored segs base c'.log⟩ c := by
    rw [Async.wp_bind]
    intro hk
    obtain ⟨s, hline, hs, halone⟩ := h hk.earlier.earlier
    obtain ⟨hclosed, hsync⟩ := closeAlone hline hs halone hk
    exact ⟨rfl, hclosed, hsync⟩
  cases fuel with
  | zero => exact hclose
  | succ fuel => exact hclose

/-- Behind the end of the blob: the rest of the window, then the close. -/
theorem readBlobLoop_rest (fuel inFlight : Nat)
    (h : AsStored segs base c.log → Rest link segs base handle inFlight fuel c) :
    Async.wp (readBlobLoop link handle len fuel inFlight true parts)
      ⟨fun o c' => AsStored segs base c'.log → AloneRead segs base parts o c',
        fun _ c' => ¬ AsStored segs base c'.log, fun c' => ¬ AsStored segs base c'.log⟩ c := by
  induction inFlight generalizing fuel c with
  | zero =>
    refine readBlobLoop_close (fun hk => ?_) fuel
    obtain ⟨-, replies, s, hlength, hline, hs, halone, -⟩ := h hk
    obtain rfl := List.eq_nil_of_length_eq_zero hlength
    exact ⟨s, hline, hs, halone⟩
  | succ inFlight ih =>
    by_cases hk : AsStored segs base c.log
    · obtain ⟨hle, replies, s, hlength, hline, hs, halone, hok⟩ := h hk
      cases fuel with
      | zero => exact absurd hle (Nat.not_succ_le_zero _)
      | succ fuel =>
        obtain ⟨r, replies, rfl⟩ := List.exists_cons_of_length_eq_add_one hlength
        obtain ⟨resp, rfl⟩ := hok r List.mem_cons_self
        have hread := @readSegmentResponse_line segs _ _ hu _ _ _ _ _ hline hs
        rw [readBlobLoop]
        refine Async.wp_bind.mpr (Async.wp_attempt.mpr (Async.wp_mono hread ?_ ?_ fun _ h => h))
        · intro seg c' hgot
          dsimp only
          rw [if_pos rfl]
          refine ih fuel fun hk' => ?_
          obtain ⟨-, hline', hs'⟩ := hgot hk'
          exact ⟨Nat.le_of_succ_le_succ hle, replies, s, Nat.succ.inj hlength, hline', hs', halone,
            fun r hr => hok r (List.mem_cons_of_mem _ hr)⟩
        · exact fun e c' hnot => readBlobLoop_failed hu e hnot
    · exact readBlobLoop_not hu hk

/-- The state of `readBlobLoop` before the end of the blob. -/
def Window (link : Link) (segs : Nat → Bytes → List Bytes) (base : Nat) (id : Bytes)
    (handle inFlight fuel : Nat) (parts : Bytes) (c : Conn) : Prop :=
  ∃ b replies s, BeingRead segs id 0 s.handles handle b replies ∧ b.parts = parts ∧
    0 < inFlight ∧ b.inFlight = inFlight ∧ (segs 0 id).length - b.dataSegs + inFlight ≤ fuel ∧
    Line link base replies [] c ∧ BlobStore.since segs base c.log = some s ∧ OnlyOpen handle s

theorem readBlobLoop_window {id : Bytes} (fuel : Nat) {inFlight : Nat}
    (h : AsStored segs base c.log → Window link segs base id handle inFlight fuel parts c) :
    Async.wp (readBlobLoop link handle len fuel inFlight false parts)
      ⟨fun o c' => AsStored segs base c'.log → AloneRead segs base (segs 0 id).flatten o c',
        fun _ c' => ¬ AsStored segs base c'.log, fun c' => ¬ AsStored segs base c'.log⟩ c := by
  induction fuel generalizing inFlight parts c with
  | zero =>
    by_cases hk : AsStored segs base c.log
    · obtain ⟨b, replies, s, -, -, hpos, -, hle, -⟩ := h hk
      omega
    · exact readBlobLoop_not hu hk
  | succ fuel ih =>
    by_cases hk : AsStored segs base c.log
    · obtain ⟨b, replies, s, hb, hparts, hpos, hcount, hle, hline, hs, halone⟩ := h hk
      obtain ⟨n, rfl⟩ := Nat.exists_eq_add_one_of_ne_zero (Nat.ne_of_gt hpos)
      obtain ⟨r, replies, rfl⟩ := List.exists_cons_of_length_eq_add_one (hb.count.symm.trans hcount)
      obtain ⟨resp, rfl, hanswer⟩ := hb.answers 0 r rfl
      have hread := @readSegmentResponse_line segs _ _ hu _ _ _ _ _ hline hs
      rw [readBlobLoop]
      refine Async.wp_bind.mpr (Async.wp_attempt.mpr (Async.wp_mono hread ?_ ?_ fun _ h => h))
      · intro seg c' hgot
        dsimp only
        rw [if_neg (by simp)]
        by_cases hk' : AsStored segs base c'.log
        · obtain ⟨rfl, hline', hs'⟩ := hgot hk'
          have hdata : b.parts ++ (segmentOf resp).data = (b.settle.grow (segmentOf resp)).parts := rfl
          have hcap := hb.cap_grow (segmentOf resp)
          have hwindow := hb.window
          split
          · -- the last segment: what is outstanding brings nothing more
            rename_i hlast
            have hall : parts ++ (segmentOf resp).data = (segs 0 id).flatten := by
              rw [← hparts]
              exact (hb.finish hanswer hlast).2
            rw [hall]
            refine readBlobLoop_rest hu fuel n fun _ => ⟨?_, replies, s, ?_, hline', hs', halone, ?_⟩
            · have hunread := hb.unread
              omega
            · have hlength := hb.count.symm.trans hcount
              exact Nat.succ.inj hlength
            · intro r hr
              obtain ⟨j, hj⟩ := List.getElem?_of_mem hr
              obtain ⟨resp', hr', -⟩ := hb.answers (j + 1) r hj
              exact ⟨resp', hr'⟩
          · rename_i hmore
            have hnext := hb.grow hanswer (Bool.eq_false_iff.mpr hmore)
            rw [Async.wp_bind]
            refine Async.wp_bind.mpr (ih fun hk'' => ?_)
            rw [Conn.flush_log] at hk''
            obtain ⟨s'', htake, hs'', hline''⟩ := hline'.asked rfl hs' hk''
            obtain ⟨resp', hr', hanswer', hafter⟩ := BlobStore.take_getSegment (hnext.store.get rfl) htake
            rw [hr'] at hline''
            have hsettled : (b.settle.grow (segmentOf resp)).inFlight + 1 = b.inFlight :=
              Nat.sub_add_cancel (hcount.symm ▸ Nat.succ_pos n)
            have hunread : b.dataSegs + 1 < (segs 0 id).length := hnext.unread
            refine ⟨{ b.settle.grow (segmentOf resp) with inFlight := b.inFlight }, _, s'',
              ?_, ?_, Nat.succ_pos n, hcount, ?_, hline''.flush, ?_, ?_⟩
            · rw [← hsettled, hafter]
              exact hnext.ask (by omega) hanswer'
            · rw [← hparts]
              rfl
            · change (segs 0 id).length - (b.dataSegs + 1) + (n + 1) ≤ fuel
              omega
            · rw [Conn.flush_log]
              exact hs''
            · rw [hafter]
              exact halone.update
        · split
          · exact readBlobLoop_not hu hk'
          · rw [Async.wp_bind]
            refine Async.wp_bind.mpr (readBlobLoop_not hu fun hk'' => hk' ?_)
            rw [Conn.flush_log] at hk''
            exact hk''.earlier
      · exact fun e c' hnot => readBlobLoop_failed hu e hnot
    · exact readBlobLoop_not hu hk

/-- The window of `readBlob`, while it is filled for the first time. -/
def Opening (link : Link) (segs : Nat → Bytes → List Bytes) (base : Nat) (id : Bytes)
    (handle n : Nat) (c : Conn) : Prop :=
  ∃ b replies s, BeingRead segs id 0 s.handles handle b replies ∧ b.parts = [] ∧ b.dataSegs = 0 ∧
    b.inFlight = n ∧ b.cap = pipelineDepth ∧ Line link base [] replies c ∧
    BlobStore.since segs base c.log = some s ∧ OnlyOpen handle s

omit hu in
theorem sendTimes_opening {id : Bytes} (n : Nat) {k : Nat} (hroom : k + n ≤ pipelineDepth)
    (h : AsStored segs base c.log → Opening link segs base id handle k c)
    {E : FirebirdError → Conn → Prop} {P : Conn → Prop} :
    Async.wp (sendTimes link (.getSegment handle len) n)
      ⟨fun _ c' => AsStored segs base c'.log → Opening link segs base id handle (k + n) c', E, P⟩ c := by
  induction n generalizing k c with
  | zero => exact h
  | succ n ih =>
    rw [sendTimes, Async.wp_bind]
    have hcount : k + (n + 1) = k + 1 + n := by omega
    rw [hcount] at hroom ⊢
    refine ih hroom fun hk => ?_
    obtain ⟨b, replies, s, hb, hparts, hsegs, hflight, hcap, hline, hs, halone⟩ := h hk.earlier
    obtain ⟨s', htake, hs', hline'⟩ := hline.asked rfl hs hk
    obtain ⟨resp, hr, hanswer, hafter⟩ := BlobStore.take_getSegment (hb.store.get rfl) htake
    rw [hr] at hline'
    refine ⟨{ b with inFlight := b.inFlight + 1 }, _, s', ?_, hparts, hsegs, congrArg (· + 1) hflight,
      hcap, hline', hs', ?_⟩
    · rw [hafter]
      exact hb.ask (by omega) hanswer
    · rw [hafter]
      exact halone.update

theorem openBlob_opening (hfull : ∀ k id, segs k id ≠ []) {tx : Nat} {id : Bytes} (hsync : Sync [] c) :
    Async.wp (openBlob link tx id)
      ⟨fun handle c' => AsStored segs c.log.length c'.log →
          Opening link segs c.log.length id handle 0 c',
        fun _ c' => ¬ AsStored segs c.log.length c'.log,
        fun c' => ¬ AsStored segs c.log.length c'.log⟩ c := by
  have hline := @Line.begins link c hsync
  have hstart : BlobStore.since segs c.log.length c.log = some {} := since_start (Nat.le_refl _)
  have hflushed := (@Line.send _ _ _ _ _ hline (.openBlob tx id) rfl).flush
  have hread := @readResponse_line segs _ _ hu _ _ _ _ hflushed
  simp only [openBlob, roundTrip, Async.wp_bind, wp_send, FastFirebird.flush, Async.wp_modify]
  refine Async.wp_mono hread (fun a c' hok hk => ?_) (fun e c' herror hk => ?_) fun _ h => h
  · obtain ⟨ha, hline', hs⟩ := hok hk
    rw [Conn.flush_log] at hs
    have hsent : AsStored segs c.log.length (c.send link false (.openBlob tx id)).log := by
      rw [AsStored, ← hs]
      exact hk
    obtain ⟨s, htake, hs', -⟩ := hline.asked rfl hstart hsent
    obtain ⟨resp, hr, hfree, rfl⟩ := BlobStore.take_openBlob htake
    rw [hr] at ha
    obtain rfl := Except.ok.inj ha
    have hnone : HoldsBlob (fun _ => none) 0 none := by
      intro handle x _
      constructor
      · intro h
        cases h
      · intro h
        cases h
    refine ⟨{ handle := some resp.handle, cap := pipelineDepth }, [], _, ⟨rfl, hnone.give, rfl,
      List.length_pos_of_ne_nil (hfull 0 id), rfl, fun j r hj => ?_, rfl, Nat.zero_le _, ?_⟩,
      rfl, rfl, rfl, rfl, hline', hs.trans hs', ?_⟩
    · cases hj
    · change 1 ≤ pipelineDepth ∧ pipelineDepth ≤ pipelineDepth
      decide
    · exact ⟨⟨_, Function.update_self _ _ _⟩, fun k hk => Function.update_of_ne hk _ _⟩
  · obtain ⟨hr, -, hs⟩ := herror hk
    rw [Conn.flush_log] at hs
    have hsent : AsStored segs c.log.length (c.send link false (.openBlob tx id)).log := by
      rw [AsStored, ← hs]
      exact hk
    obtain ⟨s, htake, -, -⟩ := hline.asked rfl hstart hsent
    obtain ⟨resp, hok, -, -⟩ := BlobStore.take_openBlob htake
    rw [hok] at hr
    cases hr

theorem readBlob_alone (hfull : ∀ k id, segs k id ≠ []) {fuel tx chunkSize : Nat} {id : Bytes}
    (hsync : Sync [] c) (hfuel : (segs 0 id).length + pipelineDepth ≤ fuel) :
    Async.wp (readBlob link fuel tx id chunkSize)
      ⟨fun o c' => AsStored segs c.log.length c'.log →
          AloneRead segs c.log.length (segs 0 id).flatten o c',
        fun _ c' => ¬ AsStored segs c.log.length c'.log,
        fun c' => ¬ AsStored segs c.log.length c'.log⟩ c := by
  refine Async.wp_bind.mpr (Async.wp_mono (openBlob_opening hu hfull hsync) ?_ (fun _ _ h => h) fun _ h => h)
  intro handle c₁ hopened
  refine Async.wp_bind.mpr (Async.wp_mono (sendTimes_opening (E := fun _ _ => False)
    (P := fun _ => False) pipelineDepth (Nat.le_of_eq (Nat.zero_add _)) hopened) ?_
    (fun _ _ h => False.elim h) fun _ h => False.elim h)
  intro _ c₂ hfilled
  refine Async.wp_bind.mpr (readBlobLoop_window hu fuel fun hk => ?_)
  rw [Conn.flush_log] at hk
  obtain ⟨b, replies, s, hb, hparts, hsegs, hflight, -, hline, hs, halone⟩ := hfilled hk
  refine ⟨b, replies, s, hb, hparts, by decide, hflight.trans (Nat.zero_add _), ?_, hline.flush, ?_,
    halone⟩
  · rw [hsegs]
    exact hfuel
  · rw [Conn.flush_log]
    exact hs

end

/-- How many responses `readBlobs` reads at most, and one more. -/
def readsFor (segs : Nat → Bytes → List Bytes) (ids : List Bytes) : Nat :=
  ∑ i ∈ Finset.range ids.length, ((segs i (ids.getD i [])).length + 34) + 1

/-- Reading blobs, one or many, each in as many segments as the server likes, yields their contents
in the order of the ids, closes every one of them and leaves the connection in step. -/
theorem readBlobs_reads (hu : link.Undisturbed) {content : Bytes → Bytes}
    (hfull : ∀ k id, segs k id ≠ [] ∧ (segs k id).flatten = content id) {fuel tx chunkSize : Nat}
    {o : Outcome FirebirdError (List Bytes)} {c' : Conn} (hsync : Sync [] c)
    (hfuel : readsFor segs ids ≤ fuel) (hrun : readBlobs link fuel tx ids chunkSize c = (o, c'))
    (hstored : AsStored segs c.log.length c'.log) :
    o = .ok (ids.map content) ∧ Sync [] c' ∧
      ∃ s, BlobStore.since segs c.log.length c'.log = some s ∧ ∀ handle, s.handles handle = none := by
  have hsegs : ∀ k id, segs k id ≠ [] := fun k id => (hfull k id).1
  have hcontent : ids.zipIdx.map (fun x => (segs x.2 x.1).flatten) = ids.map content := by
    calc ids.zipIdx.map (fun x => (segs x.2 x.1).flatten)
        = ids.zipIdx.map (fun x => content x.1) :=
          List.map_congr_left fun x _ => (hfull x.2 x.1).2
      _ = (ids.zipIdx.map Prod.fst).map content := List.map_map.symm
      _ = ids.map content := by rw [List.zipIdx_map_fst]
  have hread : Async.wp (readBlobs link fuel tx ids chunkSize)
      ⟨fun o c' => AsStored segs c.log.length c'.log →
          AllRead segs ids c.log.length o c' ∧ Sync [] c',
        fun _ c' => ¬ AsStored segs c.log.length c'.log,
        fun c' => ¬ AsStored segs c.log.length c'.log⟩ c := by
    unfold readBlobs
    split
    · intro hk
      have hstart : BlobStore.since segs c.log.length c.log = some {} := since_start (Nat.le_refl _)
      exact ⟨⟨rfl, _, hstart, fun _ => rfl⟩, hsync⟩
    · rename_i id
      have hbound : (segs 0 id).length + pipelineDepth ≤ fuel := by
        have hdepth : pipelineDepth = 32 := rfl
        rw [readsFor, List.length_singleton, Finset.sum_range_one] at hfuel
        change (segs 0 id).length + 34 + 1 ≤ fuel at hfuel
        omega
      refine Async.wp_bind.mpr (Async.wp_mono (readBlob_alone hu hsegs hsync hbound) ?_
        (fun _ _ h => h) fun _ h => h)
      intro data c₁ hdata hk
      obtain ⟨rfl, hclosed, hsync'⟩ := hdata hk
      exact ⟨⟨rfl, hclosed⟩, hsync'⟩
    · refine readBlobsLoop_kept hu hsegs fuel fun _ => ?_
      have hline := @Line.begins link c hsync
      have hstart : BlobStore.since segs c.log.length c.log = some {} := since_start (Nat.le_refl _)
      refine ⟨[], [], {}, ⟨rfl, rfl, hline, hstart, Books.start rfl rfl rfl rfl⟩, ?_⟩
      rw [List.nil_append, readsLeft_start (BlobReads.blob_start rfl)]
      exact hfuel
  have hdone := Async.wp_eq_of_run hread hrun
  cases o with
  | ok data =>
    obtain ⟨hall, hsync'⟩ := hdone hstored
    rw [hall.1, hcontent]
    exact ⟨rfl, hsync', hall.2⟩
  | error e => exact absurd hstored hdone
  | pending => exact absurd hstored hdone

/-- A server with two blobs; it serves the first in two segments. -/
def keeper : Link := bareLink fun req n =>
  match req with
  | .openBlob _ _ => .ok { handle := n + 5 }
  | .getSegment _ _ =>
    if n = 2 then .ok { data := frame [1, 2] }
    else if n = 3 then .ok { handle := blobSegstrEofHandle, data := frame [3] }
    else if n = 6 then .ok { handle := blobSegstrEofHandle, data := frame [4] }
    else .ok { handle := blobSegstrEofHandle }
  | _ => .ok {}

def keptSegs (_ : Nat) (id : Bytes) : List Bytes :=
  if id = [7] then [[1, 2], [3]] else if id = [8] then [[4]] else [[]]

def keptContent (id : Bytes) : Bytes :=
  if id = [7] then [1, 2, 3] else if id = [8] then [4] else []

theorem keptSegs_content (k : Nat) (id : Bytes) :
    keptSegs k id ≠ [] ∧ (keptSegs k id).flatten = keptContent id := by
  unfold keptSegs keptContent
  by_cases h : id = [7]
  · simp [h]
  · by_cases h' : id = [8] <;> simp [h, h']

theorem keeper_asStored :
    AsStored keptSegs fresh.log.length (readBlobs keeper 72 1 [[7], [8]] 100 fresh).2.log := by
  decide +kernel

theorem readBlobs_reads_two :
    (readBlobs keeper 72 1 [[7], [8]] 100 fresh).1 = .ok ([[7], [8]].map keptContent) ∧
      Sync [] (readBlobs keeper 72 1 [[7], [8]] 100 fresh).2 ∧
      ∃ s, BlobStore.since keptSegs fresh.log.length
          (readBlobs keeper 72 1 [[7], [8]] 100 fresh).2.log = some s ∧
        ∀ handle, s.handles handle = none := by
  have hfuel : readsFor keptSegs [[7], [8]] ≤ 72 := by decide +kernel
  have hundisturbed : keeper.Undisturbed := fun _ => rfl
  have hstored := keeper_asStored
  generalize hrun : readBlobs keeper 72 1 [[7], [8]] 100 fresh = r at hstored ⊢
  exact readBlobs_reads hundisturbed keptSegs_content sync_fresh hfuel hrun hstored

end FastFirebird
