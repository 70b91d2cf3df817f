import FastFirebird.Arrivals
import Mathlib.Logic.Function.Basic

/-! A server that keeps blobs: which handle it has given for which blob, and how far each has been
read. Its answers to blob requests are those of the store, in the order of the requests. -/
namespace FastFirebird

/-- A blob that is open at the server: the `opened`-th to be opened. -/
structure OpenBlob where
  id : Bytes
  opened : Nat
  served : Nat
  deriving Repr, DecidableEq

structure BlobStore where
  opens : Nat := 0
  handles : Nat → Option OpenBlob := fun _ => none

/-- What the client makes of a segment response. -/
def segmentOf (r : Response) : Segment :=
  ⟨parseSegmentFrames r.data, r.handle == blobSegstrEofHandle⟩

section
variable (segs : Nat → Bytes → List Bytes)

/-- The answer to a segment request: the next segment, or nothing behind the end of the blob. -/
def OpenBlob.answer (b : OpenBlob) : Segment :=
  ⟨(segs b.opened b.id).getD b.served [], decide ((segs b.opened b.id).length ≤ b.served + 1)⟩

/-- The store after a request that was answered so, if it gives such an answer. What it says to
requests on handles that it has not given is left open. -/
def BlobStore.take (s : BlobStore) : Request → Reply → Option BlobStore
  | .openBlob _ id, .ok r =>
    if s.handles r.handle = none then
      some { opens := s.opens + 1, handles := Function.update s.handles r.handle (some ⟨id, s.opens, 0⟩) }
    else none
  | .openBlob _ _, .error _ => none
  | .getSegment blob _, r =>
    match s.handles blob with
    | none => some s
    | some b =>
      match r with
      | .ok r =>
        if segmentOf r = b.answer segs then
          some { s with
            handles := Function.update s.handles blob (some { b with served := b.served + 1 }) }
        else none
      | .error _ => none
  | .closeBlob blob, r =>
    match s.handles blob, r with
    | some _, .error _ => none
    | _, _ => some { s with handles := Function.update s.handles blob none }
  | _, _ => some s

def BlobStore.see (s : BlobStore) : Event → Option BlobStore
  | .sent _ _ _ req (.reply r) => s.take segs req r
  | _ => some s

/-- The store by the requests since the history had `base` events, if its answers were these. -/
def BlobStore.since (base : Nat) (log : List Event) : Option BlobStore :=
  FastFirebird.since (BlobStore.see segs) {} base log

/-- The server has answered as a store does. -/
def AsStored (base : Nat) (log : List Event) : Prop := (BlobStore.since segs base log).isSome

instance (base : Nat) (log : List Event) : Decidable (AsStored segs base log) :=
  inferInstanceAs (Decidable (_ = true))

end

variable {segs : Nat → Bytes → List Bytes} {base : Nat} {link : Link}

namespace BlobStore

variable {s s' : BlobStore} {r : Reply}

/-- A blob that is opened gets a handle that no open blob has. -/
theorem take_openBlob {tx : Nat} {id : Bytes} (h : s.take segs (.openBlob tx id) r = some s') :
    ∃ resp, r = .ok resp ∧ s.handles resp.handle = none ∧
      s' = ⟨s.opens + 1, Function.update s.handles resp.handle (some ⟨id, s.opens, 0⟩)⟩ := by
  cases r with
  | error e => cases h
  | ok resp =>
    by_cases hfree : s.handles resp.handle = none
    · rw [take, if_pos hfree] at h
      exact ⟨resp, rfl, hfree, (Option.some.inj h).symm⟩
    · rw [take, if_neg hfree] at h
      cases h

theorem take_getSegment {handle len : Nat} {b : OpenBlob} (hb : s.handles handle = some b)
    (h : s.take segs (.getSegment handle len) r = some s') :
    ∃ resp, r = .ok resp ∧ segmentOf resp = b.answer segs ∧
      s' = ⟨s.opens, Function.update s.handles handle (some { b with served := b.served + 1 })⟩ := by
  cases r with
  | error e =>
    simp only [take, hb] at h
    cases h
  | ok resp =>
    simp only [take, hb] at h
    by_cases hanswer : segmentOf resp = b.answer segs
    · rw [if_pos hanswer] at h
      exact ⟨resp, rfl, hanswer, (Option.some.inj h).symm⟩
    · rw [if_neg hanswer] at h
      cases h

theorem take_closeBlob {handle : Nat} {b : OpenBlob} (hb : s.handles handle = some b)
    (h : s.take segs (.closeBlob handle) r = some s') :
    (∃ resp, r = .ok resp) ∧ s' = ⟨s.opens, Function.update s.handles handle none⟩ := by
  cases r with
  | error e =>
    simp only [take, hb] at h
    cases h
  | ok resp =>
    simp only [take, hb] at h
    exact ⟨⟨resp, rfl⟩, (Option.some.inj h).symm⟩

end BlobStore

theorem BlobStore.ofRequests : OfRequests (BlobStore.see segs) := ⟨fun _ _ => rfl, fun _ _ _ _ => rfl⟩

theorem AsStored.earlier {e : Event} {log : List Event} (h : AsStored segs base (e :: log)) :
    AsStored segs base log := since_earlier h

theorem history_asStored (hu : link.Undisturbed) : History link (AsStored segs base) :=
  history_since hu

/-- Reading changes nothing that the store has a say in. -/
abbrev SameStore (segs : Nat → Bytes → List Bytes) (base : Nat) : Conn → Conn → Prop :=
  SameSince (BlobStore.see segs) {} base

theorem reads_sameStore (hu : link.Undisturbed) : Reads link (SameStore segs base) :=
  reads_sameSince hu BlobStore.ofRequests

/-- A request that the store answers: the store before it, and the one after. -/
theorem asStored_send {c : Conn} {req : Request} (hreq : req.isPlain = true) {deferred : Bool}
    (hbase : base ≤ c.log.length) (h : AsStored segs base (c.send link deferred req).log) :
    ∃ s s', BlobStore.since segs base c.log = some s ∧
      s.take segs req (link.server.reply req c.requests) = some s' ∧
      BlobStore.since segs base (c.send link deferred req).log = some s' := by
  have hlog : (c.send link deferred req).log =
      .sent c.requests c.turn deferred req (.reply (link.server.reply req c.requests)) :: c.log := by
    rw [← answer_plain hreq]
    rfl
  rw [hlog] at h ⊢
  exact since_last hbase h

/-! The responses that are on their way, as the replies they will be read as -/

/-- The packets in which these replies arrive, one to each plain request. -/
def Replies (server : Server) : List Reply → List Packet → Prop
  | [], l => l = []
  | r :: rs, l => ∃ req n turn l', Request.isPlain req = true ∧ l = server.packets req n turn ++ l' ∧
      server.reply req n = r ∧ Replies server rs l'

theorem Replies.owed {server : Server} {rs : List Reply} {l : List Packet}
    (h : Replies server rs l) : Owed server rs.length l := by
  induction rs generalizing l with
  | nil => exact h
  | cons r rs ih =>
    obtain ⟨req, n, turn, l', hreq, hl, -, hrest⟩ := h
    exact ⟨req, n, turn, l', hreq, hl, ih hrest⟩

theorem Replies.append {server : Server} {rs rs' : List Reply} {l l' : List Packet}
    (h : Replies server rs l) (h' : Replies server rs' l') : Replies server (rs ++ rs') (l ++ l') := by
  induction rs generalizing l with
  | nil =>
    obtain rfl : l = [] := h
    exact h'
  | cons r rs ih =>
    obtain ⟨req, n, turn, l₁, hreq, rfl, hr, hrest⟩ := h
    exact ⟨req, n, turn, l₁ ++ l', hreq, List.append_assoc _ _ _, hr, ih hrest⟩

theorem Replies.one {server : Server} {req : Request} (hreq : req.isPlain = true) (n turn : Nat) :
    Replies server [server.reply req n] (server.packets req n turn) :=
  ⟨req, n, turn, [], hreq, (List.append_nil _).symm, rfl, rfl⟩

/-- The replies `front` are to flushed requests, the replies `back` to those still in the buffer. -/
structure Line (link : Link) (base : Nat) (front back : List Reply) (c : Conn) : Prop where
  wire : ∃ ahead behind sent, Replies link.server front ahead ∧ Replies link.server back behind ∧
    OnWire link ⟨sent, front.length + back.length, front.length, false⟩ c ahead behind
  base : base ≤ c.log.length

namespace Line

variable {front back : List Reply} {c : Conn}

theorem begins (h : Sync [] c) : Line link c.log.length [] [] c := by
  refine ⟨⟨[], [], [], rfl, rfl, rfl, rfl, h, fun hpos => ?_, fun p hp => ?_⟩, Nat.le_refl _⟩
  · exact absurd hpos (Nat.lt_irrefl 0)
  · exact absurd hp List.not_mem_nil

theorem sync (h : Line link base [] [] c) : Sync [] c := by
  obtain ⟨ahead, behind, sent, hahead, hbehind, hwire⟩ := h.wire
  obtain rfl : ahead = [] := hahead
  obtain rfl : behind = [] := hbehind
  exact hwire.sync

theorem send (h : Line link base front back c) {req : Request} (hreq : req.isPlain = true) :
    Line link base front (back ++ [link.server.reply req c.requests]) (c.send link false req) := by
  obtain ⟨ahead, behind, sent, hahead, hbehind, hwire⟩ := h.wire
  have hsent := hwire.send (Nat.le_add_right _ _) hreq
  refine ⟨⟨ahead, _, sent ++ [req], hahead, hbehind.append (Replies.one hreq _ c.turn), ?_⟩,
    Nat.le_succ_of_le h.base⟩
  rw [List.length_append, List.length_singleton, ← Nat.add_assoc]
  exact hsent

theorem flush (h : Line link base front back c) : Line link base (front ++ back) [] c.flush := by
  obtain ⟨ahead, behind, sent, hahead, hbehind, hwire⟩ := h.wire
  have hflushed := hwire.flush (Nat.le_add_right _ _)
  refine ⟨⟨ahead ++ behind, [], sent, hahead.append hbehind, rfl, ?_⟩, ?_⟩
  · rw [List.length_append, List.length_nil, Nat.add_zero]
    exact hflushed
  · rw [Conn.flush_log]
    exact h.base

end Line

/-- A request is sent, and its answer is the last that is due. -/
theorem Line.asked {front back : List Reply} {c : Conn} (h : Line link base front back c)
    {req : Request} (hreq : req.isPlain = true) {s : BlobStore}
    (hs : BlobStore.since segs base c.log = some s)
    (hk : AsStored segs base (c.send link false req).log) :
    ∃ s', s.take segs req (link.server.reply req c.requests) = some s' ∧
      BlobStore.since segs base (c.send link false req).log = some s' ∧
      Line link base front (back ++ [link.server.reply req c.requests]) (c.send link false req) := by
  obtain ⟨s₁, s', hs₁, htake, hs'⟩ := asStored_send hreq h.base hk
  rw [hs] at hs₁
  obtain rfl := Option.some.inj hs₁
  exact ⟨s', htake, hs', h.send hreq⟩

/-- The next response is read as the reply that was due, and it is there to be read. -/
theorem readResponse_line (hu : link.Undisturbed) {r : Reply} {front back : List Reply} {c : Conn}
    (h : Line link base (r :: front) back c) :
    Async.wp (readResponse link)
      ⟨fun a c' => AsStored segs base c'.log → r = .ok a ∧ Line link base front back c' ∧
          BlobStore.since segs base c'.log = BlobStore.since segs base c.log,
        fun e c' => AsStored segs base c'.log → r = .error e ∧ Line link base front back c' ∧
          BlobStore.since segs base c'.log = BlobStore.since segs base c.log,
        fun c' => ¬ AsStored segs base c'.log⟩ c := by
  obtain ⟨ahead, behind, sent, hahead, hbehind, hwire⟩ := h.wire
  obtain ⟨req, n, turn, ahead, hreq, rfl, rfl, hrest⟩ := hahead
  have hread := @readResponse_onWire link _ (@history_asStored segs base link hu)
    ⟨sent, front.length + 1 + back.length, front.length + 1, false⟩ c req n turn ahead behind hreq
    (Nat.succ_pos _) (Nat.le_add_right _ _) hrest.owed fun _ => hwire
  have := @reads_sameStore segs base link hu
  have halong : Async.Along (SameStore segs base) (readResponse link) := along_readResponse
  have hline {c' : Conn} (hsame : SameStore segs base c c')
      (hleft : OnWire link ⟨sent, front.length + 1 + back.length - 1, front.length, false⟩ c' ahead
        behind) : Line link base front back c' ∧
        BlobStore.since segs base c'.log = BlobStore.since segs base c.log := by
    obtain ⟨hbase, hsince⟩ := hsame h.base
    have hcount : front.length + 1 + back.length - 1 = front.length + back.length := by omega
    rw [hcount] at hleft
    exact ⟨⟨⟨ahead, behind, sent, hrest, hbehind, hleft⟩, hbase⟩, hsince⟩
  refine Async.wp_mono (halong.with_wp hread) ?_ ?_ ?_
  · rintro a c' ⟨hsame, hok⟩ hk'
    obtain ⟨hr, hleft⟩ := hok hk'
    exact ⟨hr, hline hsame hleft⟩
  · rintro e c' ⟨hsame, herror⟩ hk'
    obtain ⟨hr, hleft⟩ := herror hk'
    exact ⟨hr, hline hsame hleft⟩
  · exact fun c' h' => h'.2

theorem readSegmentResponse_line (hu : link.Undisturbed) {resp : Response} {front back : List Reply}
    {s : BlobStore} {c : Conn} (h : Line link base (.ok resp :: front) back c)
    (hs : BlobStore.since segs base c.log = some s) :
    Async.wp (readSegmentResponse link)
      ⟨fun seg c' => AsStored segs base c'.log → seg = segmentOf resp ∧ Line link base front back c' ∧
          BlobStore.since segs base c'.log = some s,
        fun _ c' => ¬ AsStored segs base c'.log, fun c' => ¬ AsStored segs base c'.log⟩ c := by
  rw [readSegmentResponse, Async.wp_bind]
  refine Async.wp_mono (@readResponse_line segs _ _ hu _ _ _ _ h) (fun a c' hok hk' => ?_)
    (fun e c' herror hk' => ?_) fun _ h => h
  · obtain ⟨ha, hline', hs'⟩ := hok hk'
    rw [← Except.ok.inj ha]
    exact ⟨rfl, hline', hs'.trans hs⟩
  · cases (herror hk').1

end FastFirebird
