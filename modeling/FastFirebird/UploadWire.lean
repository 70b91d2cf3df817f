import FastFirebird.UploadAccount
import FastFirebird.Exact

/-! Programs of requests on a connection: what their account says is outstanding is what is on its
way, whatever other code writes meanwhile. -/
namespace FastFirebird

variable {link : Link}

/-- In every state of a run: `P`, and `R` where a response is awaited. -/
def Talk.Always {α : Type} (link : Link) (P R : Conn → Prop) :
    Talk Request Reply FirebirdError α → Conn → Prop
  | .done _, c => P c
  | .fail _, c => P c
  | .write req next, c => P c ∧ next.Always link P R (c.send link false req)
  | .defer req next, c => P c ∧ next.Always link P R (c.sendDeferred link req)
  | .flush next, c => P c ∧ next.Always link P R c.flush
  | .pause next, c => P c ∧ next.Always link P R (c.await link)
  | .read next, c => P c ∧ R c ∧
      match readResponse link c with
      | (.ok r, c') => (next (.ok r)).Always link P R c'
      | (.error e, c') => (next (.error e)).Always link P R c'
      | (.pending, c') => P c'

/-! What was sent since -/

def Event.blobRequest : Event → Option Request
  | .sent _ _ _ req _ => if req.isBlobOp then some req else none
  | _ => none

/-- The blob requests sent from `c₀` to `c`, in order. -/
def blobRequests (c₀ c : Conn) : List Request :=
  ((c.log.take (c.log.length - c₀.log.length)).filterMap Event.blobRequest).reverse

theorem blobRequests_append {c₀ c : Conn} {new : List Event} (h : c.log = new ++ c₀.log) :
    blobRequests c₀ c = (new.filterMap Event.blobRequest).reverse := by
  have hlength : c.log.length - c₀.log.length = new.length := by
    rw [h, List.length_append]
    omega
  rw [blobRequests, hlength, h, List.take_left]

/-- Other code sends no blob request, and what it does send comes behind, with later numbers. -/
structure Grows (c c' : Conn) : Prop where
  log : ∃ new, c'.log = new ++ c.log ∧ new.filterMap Event.blobRequest = []
  unflushed : ∃ more, c'.unflushed = c.unflushed ++ more ∧ ∀ p ∈ more, c.requests ≤ p.request
  requests : c.requests ≤ c'.requests

theorem Grows.refl (c : Conn) : Grows c c :=
  ⟨⟨[], rfl, rfl⟩, ⟨[], (List.append_nil _).symm, fun _ hp => absurd hp List.not_mem_nil⟩,
    Nat.le_refl _⟩

theorem Grows.trans {c₁ c₂ c₃ : Conn} (h : Grows c₁ c₂) (h' : Grows c₂ c₃) : Grows c₁ c₃ := by
  obtain ⟨⟨new, hlog, hnew⟩, ⟨more, hunflushed, hmore⟩, hle⟩ := h
  obtain ⟨⟨new', hlog', hnew'⟩, ⟨more', hunflushed', hmore'⟩, hle'⟩ := h'
  refine ⟨⟨new' ++ new, ?_, ?_⟩, ⟨more ++ more', ?_, fun p hp => ?_⟩, Nat.le_trans hle hle'⟩
  · rw [hlog', hlog, List.append_assoc]
  · rw [List.filterMap_append, hnew, hnew', List.append_nil]
  · rw [hunflushed', hunflushed, List.append_assoc]
  · rcases List.mem_append.mp hp with hp | hp
    · exact hmore p hp
    · exact Nat.le_trans hle (hmore' p hp)

/-- A state that differs in nothing that counts. -/
theorem Grows.of_eq {c c' : Conn} {e : List Event} (hlog : c'.log = e ++ c.log)
    (he : e.filterMap Event.blobRequest = []) (hunflushed : c'.unflushed = c.unflushed)
    (hrequests : c'.requests = c.requests) : Grows c c' :=
  ⟨⟨e, hlog, he⟩, ⟨[], hunflushed.trans (List.append_nil _).symm, fun _ hp => absurd hp List.not_mem_nil⟩,
    Nat.le_of_eq hrequests.symm⟩

theorem grows_freeStatement (stmt : StmtHandle) (action : FreeStatement) (c : Conn) :
    Grows c (c.freeStatement link stmt action) := by
  refine ⟨⟨[.marked c.requests, .sent c.requests c.turn true (.freeStatement stmt action)
    (link.server.answer (.freeStatement stmt action) c.requests)], rfl, rfl⟩,
    ⟨link.server.packets (.freeStatement stmt action) c.requests c.turn, rfl, fun p hp => ?_⟩,
    Nat.le_succ _⟩
  exact Nat.le_of_eq (packets_request hp).symm

theorem grows_freeAll (infos : List PreparedStatementInfo) (c : Conn) :
    Grows c (c.freeAll link infos) := by
  unfold Conn.freeAll
  induction infos generalizing c with
  | nil => exact Grows.refl c
  | cons info infos ih => exact (grows_freeStatement info.handle .drop c).trans (ih _)

theorem grows_await (c : Conn) : Grows c (c.await link) := by
  have htick : Grows c c.tick := Grows.of_eq (List.nil_append _).symm rfl rfl rfl
  unfold Conn.await
  split
  · have hnote : Grows c.tick c.tick.noteClear := Grows.of_eq (e := [_]) rfl rfl rfl rfl
    have hclear : Grows c.tick.noteClear (c.tick.noteClear.clearCache link) := by
      unfold Conn.clearCache
      split
      · exact Grows.refl _
      · exact (grows_freeAll _ _).trans (Grows.of_eq (List.nil_append _).symm rfl rfl rfl)
    exact htick.trans (hnote.trans hclear)
  · exact htick

instance : Reads link Grows where
  refl := Grows.refl
  trans := Grows.trans
  await := grows_await
  inbound _ _ := Grows.of_eq (List.nil_append _).symm rfl rfl rfl
  inline _ _ := Grows.of_eq (List.nil_append _).symm rfl rfl rfl
  drained _ _ := Grows.of_eq (e := [_]) rfl rfl rfl rfl
  handedOver _ _ := Grows.of_eq (e := [_]) rfl rfl rfl rfl

/-- While something older is to arrive, nothing else is written: it would come last. -/
theorem Grows.unflushed_eq {c c' : Conn} (h : Grows c c') {pre l : List Packet}
    (hqueue : c'.inbound ++ c'.unflushed = pre ++ l) (hl : l ≠ [])
    (hearlier : ∀ p ∈ l, p.request < c.requests) : c'.unflushed = c.unflushed := by
  obtain ⟨more, hunflushed, hmore⟩ := h.unflushed
  rcases List.eq_nil_or_concat more with rfl | ⟨more, p, rfl⟩
  · rw [hunflushed, List.append_nil]
  · rcases List.eq_nil_or_concat l with rfl | ⟨l, q, rfl⟩
    · exact absurd rfl hl
    · rw [List.concat_eq_append] at hunflushed hmore
      rw [List.concat_eq_append] at hqueue hearlier
      rw [hunflushed, ← List.append_assoc, ← List.append_assoc, ← List.append_assoc] at hqueue
      have hlast : p = q := by
        have hends := List.append_inj_right' hqueue rfl
        exact (List.cons.inj hends).1
      have hlate := hmore p (List.mem_append_right _ List.mem_cons_self)
      have hearly := hearlier q (List.mem_append_right _ List.mem_cons_self)
      rw [hlast] at hlate
      omega

/-! Responses that are owed -/

theorem Owed.append {server : Server} {j k : Nat} {l l' : List Packet} (h : Owed server j l)
    (h' : Owed server k l') : Owed server (j + k) (l ++ l') := by
  induction j generalizing l with
  | zero =>
    obtain rfl : l = [] := h
    rw [Nat.zero_add]
    exact h'
  | succ j ih =>
    obtain ⟨req, n, turn, l₁, hreq, rfl, howed⟩ := h
    rw [Nat.succ_add]
    exact ⟨req, n, turn, l₁ ++ l', hreq, List.append_assoc _ _ _, ih howed⟩

theorem replies_owed {server : Server} {k : Nat} {l : List Packet} (h : Owed server k l) :
    replies l = k := by
  induction k generalizing l with
  | zero =>
    obtain rfl : l = [] := h
    rfl
  | succ k ih =>
    obtain ⟨req, n, turn, l', hreq, rfl, howed⟩ := h
    rw [replies_append, replies_packets_plain hreq, ih howed, Nat.add_comm]

theorem Owed.ne_nil {server : Server} {k : Nat} {l : List Packet} (h : Owed server k l)
    (hk : 0 < k) : l ≠ [] := by
  rintro rfl
  have hnone := replies_owed h
  rw [← hnone] at hk
  exact absurd hk (Nat.lt_irrefl 0)

/-- The responses to the flushed requests of an account, and to the others. -/
structure OnWire (link : Link) (s : Account Request) (c : Conn) (front back : List Packet) :
    Prop where
  flushed : Owed link.server s.flushed front
  rest : Owed link.server (s.owed - s.flushed) back
  sync : Sync (front ++ back) c
  buffered : 0 < s.flushed → c.unflushed <:+ back
  earlier : ∀ p ∈ front ++ back, p.request < c.requests

theorem flush_unflushed (c : Conn) : c.flush.unflushed = [] := by
  unfold Conn.flush
  split
  · exact List.isEmpty_iff.mp ‹_›
  · rfl

namespace OnWire

variable {s : Account Request} {c c' : Conn} {front back : List Packet}

theorem owed (h : OnWire link s c front back) (hle : s.flushed ≤ s.owed) :
    Owed link.server s.owed (front ++ back) := by
  have hcount : s.flushed + (s.owed - s.flushed) = s.owed := by omega
  rw [← hcount]
  exact h.flushed.append h.rest

theorem readable (h : OnWire link s c front back) : Readable (front ++ back) :=
  (h.flushed.append h.rest).readable

theorem send (h : OnWire link s c front back) (hle : s.flushed ≤ s.owed) {req : Request}
    (hreq : req.isPlain = true) : OnWire link { s with sent := s.sent ++ [req], owed := s.owed + 1 }
      (c.send link false req) front (back ++ link.server.packets req c.requests c.turn) := by
  refine ⟨h.flushed, ?_, ?_, fun hpos => ?_, fun p hp => ?_⟩
  · have hcount : s.owed + 1 - s.flushed = s.owed - s.flushed + 1 := by omega
    dsimp only
    rw [hcount]
    exact h.rest.send hreq _ _
  · rw [← List.append_assoc]
    exact h.sync.send false req
  · obtain ⟨pre, hpre⟩ := h.buffered hpos
    refine ⟨pre, ?_⟩
    change pre ++ (c.unflushed ++ _) = _
    rw [← List.append_assoc, hpre]
  · rw [← List.append_assoc] at hp
    rcases List.mem_append.mp hp with hp | hp
    · exact Nat.lt_succ_of_lt (h.earlier p hp)
    · exact Nat.lt_succ_of_le (Nat.le_of_eq (packets_request hp))

theorem flush (h : OnWire link s c front back) (hle : s.flushed ≤ s.owed) :
    OnWire link { s with flushed := s.owed } c.flush (front ++ back) [] := by
  refine ⟨h.owed hle, ?_, ?_, fun _ => ?_, ?_⟩
  · exact (congrArg (fun k => Owed link.server k []) (Nat.sub_self s.owed)).mpr rfl
  · rw [List.append_nil]
    exact h.sync.flush
  · exact (congrArg (· <:+ []) (flush_unflushed c)).mpr (List.suffix_refl [])
  · rw [List.append_nil, Conn.flush_requests]
    exact h.earlier

/-- Other code ran, and nothing that is owed has been touched. -/
theorem grown (h : OnWire link s c front back) (hgrows : Grows c c')
    (hsync : Sync (front ++ back) c') : OnWire link s c' front back := by
  refine ⟨h.flushed, h.rest, hsync, fun hpos => ?_, fun p hp => ?_⟩
  · have hfront := h.flushed.ne_nil hpos
    obtain ⟨pre, hqueue, _⟩ := hsync
    rw [hgrows.unflushed_eq hqueue (List.append_ne_nil_of_left_ne_nil hfront back) h.earlier]
    exact h.buffered hpos
  · exact Nat.lt_of_lt_of_le (h.earlier p hp) hgrows.requests

/-- What is on its way: the deferred responses, and those that are owed. -/
theorem replies_queue (h : OnWire link s c front back) (hle : s.flushed ≤ s.owed) :
    replies (c.inbound ++ c.unflushed) = c.deferredResponses + s.owed := by
  obtain ⟨pre, hqueue, hdrain, _⟩ := h.sync
  rw [hqueue, replies_append, drainable_replies hdrain, replies_owed (h.owed hle)]

/-- A response to a flushed request needs no further flush. -/
theorem replies_inbound (h : OnWire link s c front back) (hpos : 0 < s.flushed) :
    c.deferredResponses < replies c.inbound := by
  obtain ⟨pre, hqueue, hdrain, _⟩ := h.sync
  obtain ⟨rest, hrest⟩ := h.buffered hpos
  have hinbound : c.inbound = pre ++ front ++ rest := by
    have hsame : c.inbound ++ c.unflushed = pre ++ front ++ rest ++ c.unflushed := by
      rw [hqueue, ← hrest]
      simp only [List.append_assoc]
    exact List.append_cancel_right hsame
  rw [hinbound, replies_append, replies_append, drainable_replies hdrain, replies_owed h.flushed]
  omega

end OnWire

/-- A response to a flushed request arrives, and it is the one that was due. -/
theorem readResponse_onWire {K : List Event → Prop} (hK : History link K) {s : Account Request}
    {c : Conn} {req : Request} {n turn : Nat} {front back : List Packet}
    (hreq : req.isPlain = true) (hpos : 0 < s.flushed) (hle : s.flushed ≤ s.owed)
    (hfront : Owed link.server (s.flushed - 1) front)
    (h : K c.log → OnWire link s c (link.server.packets req n turn ++ front) back) :
    Async.wp (readResponse link)
      ⟨fun a c' => K c'.log → link.server.reply req n = .ok a ∧
          OnWire link { s with owed := s.owed - 1, flushed := s.flushed - 1 } c' front back,
        fun e c' => K c'.log → link.server.reply req n = .error e ∧
          OnWire link { s with owed := s.owed - 1, flushed := s.flushed - 1 } c' front back,
        fun c' => ¬ K c'.log⟩ c := by
  have hcount : s.owed - 1 - (s.flushed - 1) = s.owed - s.flushed := by omega
  by_cases hk : K c.log
  · have hwire := h hk
    have hmem (p : Packet) (hp : p ∈ front ++ back) :
        p ∈ link.server.packets req n turn ++ front ++ back := by
      rw [List.append_assoc]
      exact List.mem_append_right _ hp
    have hreadable : Readable (front ++ back) := (hfront.append hwire.rest).readable
    have hsync : Sync (stamp n turn ((link.server.volunteers n 0).map .volunteer) ++
        ⟨n, turn, .response (link.server.reply req n)⟩ :: (front ++ back)) c := by
      have hdue := hwire.sync
      rw [packets_plain hreq] at hdue
      simpa only [List.append_assoc, List.cons_append, List.nil_append] using hdue
    -- what is left after the response
    have hleft {c' : Conn} (hgrows : Grows c c') (hs : Sync (front ++ back) c') :
        OnWire link { s with owed := s.owed - 1, flushed := s.flushed - 1 } c' front back := by
      refine ⟨hfront, ?_, hs, fun hmore => ?_, fun p hp => ?_⟩
      · dsimp only
        rw [hcount]
        exact hwire.rest
      · obtain ⟨pre, hqueue, _⟩ := hs
        have hne := List.append_ne_nil_of_left_ne_nil (hfront.ne_nil hmore) back
        rw [hgrows.unflushed_eq hqueue hne fun p hp => hwire.earlier p (hmem p hp)]
        exact hwire.buffered hpos
      · exact Nat.lt_of_lt_of_le (hwire.earlier p (hmem p hp)) hgrows.requests
    have halong : Async.Along Grows (readResponse link) := along_readResponse
    refine Async.wp_mono (halong.with_wp
      (readResponse_waits hK stamp_volunteered hreadable fun _ => hsync)) ?_ ?_ ?_
    · rintro a c' ⟨hgrows, hreply⟩ hk'
      obtain ⟨hok, hs⟩ := hreply hk'
      exact ⟨hok, hleft hgrows hs⟩
    · rintro e c' ⟨hgrows, hreply⟩ hk'
      obtain ⟨herror, hs⟩ := hreply hk'
      exact ⟨herror, hleft hgrows hs⟩
    · -- all of the queue would be unflushed, and the response is not
      rintro c' ⟨hgrows, hwaits⟩ hk'
      obtain ⟨hinbound, vs, _, pre, hqueue, _⟩ := hwaits hk'
      rw [← List.append_assoc] at hqueue
      have hsame := hgrows.unflushed_eq hqueue (List.cons_ne_nil _ _) fun p hp => by
        apply hwire.earlier
        rcases List.mem_cons.mp hp with rfl | hp
        · rw [packets_plain hreq]
          simp
        · exact hmem p hp
      obtain ⟨pre', hpre'⟩ := hwire.buffered hpos
      have hlength := congrArg List.length hqueue
      have hlength' := congrArg List.length hpre'
      rw [hinbound, hsame, List.nil_append] at hlength
      simp only [List.length_append, List.length_cons] at hlength hlength'
      omega
  · have halong : Async.Along Extends (readResponse link) := along_readResponse
    refine Async.wp_mono (halong.with_wp Async.wp_trivial) ?_ ?_ ?_
    · exact fun a c' hext hk' => absurd (hK.of_suffix hext.1 hk') hk
    · exact fun e c' hext hk' => absurd (hK.of_suffix hext.1 hk') hk
    · exact fun c' hext hk' => absurd (hK.of_suffix hext.1 hk') hk

/-! A program and its account -/

/-- How a connection stands by an account, while its history is as `K` says. -/
structure Underway (link : Link) (K : List Event → Prop) (c₀ : Conn) (s : Account Request)
    (c : Conn) : Prop where
  sent : ∃ new, c.log = new ++ c₀.log ∧ (new.filterMap Event.blobRequest).reverse = s.sent
  flushed : s.flushed ≤ s.owed
  window : s.owed ≤ pipelineDepth
  wire : s.deferred = false → K c.log → ∃ front back, OnWire link s c front back
  settled : s.deferred = true → K c.log → s.owed = 0 ∧
    replies (c.inbound ++ c.unflushed) = c.deferredResponses

namespace Underway

variable {K : List Event → Prop} {c₀ c c' : Conn} {s : Account Request}

theorem begins (h : K c.log → Sync [] c) : Underway link K c {} c := by
  refine ⟨⟨[], rfl, rfl⟩, Nat.le_refl _, Nat.zero_le _, fun _ hk => ⟨[], [], rfl, rfl, h hk, ?_, ?_⟩,
    nofun⟩
  · exact fun hpos => absurd hpos (Nat.lt_irrefl 0)
  · exact fun p hp => absurd hp List.not_mem_nil

theorem replies_queue (h : Underway link K c₀ s c) (hk : K c.log) :
    replies (c.inbound ++ c.unflushed) = c.deferredResponses + s.owed := by
  cases hdeferred : s.deferred with
  | true =>
    obtain ⟨hnone, hcount⟩ := h.settled hdeferred hk
    rw [hnone]
    exact hcount
  | false =>
    obtain ⟨front, back, hwire⟩ := h.wire hdeferred hk
    exact hwire.replies_queue h.flushed

theorem sent_grows (h : Underway link K c₀ s c) (hgrows : Grows c c') :
    ∃ new, c'.log = new ++ c₀.log ∧ (new.filterMap Event.blobRequest).reverse = s.sent := by
  obtain ⟨new, hlog, hnew⟩ := h.sent
  obtain ⟨more, hmore, hnone⟩ := hgrows.log
  refine ⟨more ++ new, ?_, ?_⟩
  · rw [hmore, hlog, List.append_assoc]
  · rw [List.filterMap_append, hnone, List.nil_append]
    exact hnew

theorem blobRequests_eq (h : Underway link K c₀ s c) : blobRequests c₀ c = s.sent := by
  obtain ⟨new, hlog, hnew⟩ := h.sent
  rw [blobRequests_append hlog]
  exact hnew

theorem send (hK : History link K) (h : Underway link K c₀ s c) {req : Request}
    (hreq : req.isBlobOp = true) (hopen : s.deferred = false) (hroom : s.owed < pipelineDepth) :
    Underway link K c₀ { s with sent := s.sent ++ [req], owed := s.owed + 1 }
      (c.send link false req) := by
  refine ⟨?_, Nat.le_succ_of_le h.flushed, hroom, fun _ hk => ?_, fun hdeferred => ?_⟩
  · obtain ⟨new, hlog, hnew⟩ := h.sent
    refine ⟨.sent c.requests c.turn false req (link.server.answer req c.requests) :: new, ?_, ?_⟩
    · exact congrArg (_ :: ·) hlog
    · have hone : (Event.sent c.requests c.turn false req
          (link.server.answer req c.requests)).blobRequest = some req := if_pos hreq
      rw [List.filterMap_cons_some hone, List.reverse_cons, hnew]
  · obtain ⟨front, back, hwire⟩ := h.wire hopen (hK.earlier _ _ hk)
    exact ⟨_, _, hwire.send h.flushed (isPlain_of_isBlobOp hreq)⟩
  · rw [hopen] at hdeferred
    cases hdeferred

theorem flush (h : Underway link K c₀ s c) (hopen : s.deferred = false) :
    Underway link K c₀ { s with flushed := s.owed } c.flush := by
  refine ⟨?_, Nat.le_refl _, h.window, fun _ hk => ?_, fun hdeferred => ?_⟩
  · rw [Conn.flush_log]
    exact h.sent
  · rw [Conn.flush_log] at hk
    obtain ⟨front, back, hwire⟩ := h.wire hopen hk
    exact ⟨_, _, hwire.flush h.flushed⟩
  · rw [hopen] at hdeferred
    cases hdeferred

theorem await (hK : History link K) (h : Underway link K c₀ s c) (hopen : s.deferred = false) :
    Underway link K c₀ s (c.await link) := by
  have hgrows : Grows c (c.await link) := grows_await c
  refine ⟨h.sent_grows hgrows, h.flushed, h.window, fun _ hk => ?_, fun hdeferred => ?_⟩
  · obtain ⟨front, back, hwire⟩ := h.wire hopen (hK.of_suffix (Conn.await_extends c) hk)
    exact ⟨front, back, hwire.grown hgrows (hK.await _ c hwire.sync hwire.readable hk)⟩
  · rw [hopen] at hdeferred
    cases hdeferred

theorem defer (hK : History link K) (h : Underway link K c₀ s c) {req : Request}
    (hreq : req.isBlobOp = true) (howed : s.owed = 0) :
    Underway link K c₀ { s with sent := s.sent ++ [req], deferred := true }
      (c.sendDeferred link req) := by
  refine ⟨?_, h.flushed, h.window, nofun, fun _ hk => ⟨howed, ?_⟩⟩
  · obtain ⟨new, hlog, hnew⟩ := h.sent
    refine ⟨.marked c.requests :: .sent c.requests c.turn true req
      (link.server.answer req c.requests) :: new, ?_, ?_⟩
    · exact congrArg (_ :: _ :: ·) hlog
    · have hone : (Event.sent c.requests c.turn true req
          (link.server.answer req c.requests)).blobRequest = some req := if_pos hreq
      rw [List.filterMap_cons_none rfl, List.filterMap_cons_some hone, List.reverse_cons, hnew]
  · have hbefore := h.replies_queue (hK.earlier _ _ (hK.earlier _ _ hk))
    rw [howed] at hbefore
    change replies (c.inbound ++ (c.unflushed ++ _)) = c.deferredResponses + 1
    rw [← List.append_assoc, replies_append, hbefore,
      replies_packets_plain (isPlain_of_isBlobOp hreq)]

/-- One response is taken off. -/
theorem read (hK : History link K) (h : Underway link K c₀ s c) (hopen : s.deferred = false)
    (hpos : 0 < s.flushed) : Async.wp (readResponse link)
      ⟨fun _ c' => Underway link K c₀ { s with owed := s.owed - 1, flushed := s.flushed - 1 } c',
        fun _ c' => Underway link K c₀ { s with owed := s.owed - 1, flushed := s.flushed - 1 } c',
        fun c' => ¬ K c'.log⟩ c := by
  have hrest {c' : Conn} (hgrows : Grows c c') (hwire : K c'.log → ∃ front back,
      OnWire link { s with owed := s.owed - 1, flushed := s.flushed - 1 } c' front back) :
      Underway link K c₀ { s with owed := s.owed - 1, flushed := s.flushed - 1 } c' := by
    refine ⟨h.sent_grows hgrows, ?_, ?_, fun _ => hwire, fun hdeferred => ?_⟩
    · exact Nat.sub_le_sub_right h.flushed 1
    · exact Nat.le_trans (Nat.sub_le _ _) h.window
    · rw [hopen] at hdeferred
      cases hdeferred
  by_cases hk : K c.log
  · obtain ⟨front, back, hwire⟩ := h.wire hopen hk
    obtain ⟨k, hk'⟩ : ∃ k, s.flushed = k + 1 := ⟨s.flushed - 1, by omega⟩
    have hflushed := hwire.flushed
    rw [hk'] at hflushed
    obtain ⟨req, n, turn, front, hreq, rfl, howed⟩ := hflushed
    have hcount : k = s.flushed - 1 := by omega
    rw [hcount] at howed
    have halong : Async.Along Grows (readResponse link) := along_readResponse
    refine Async.wp_mono (halong.with_wp
      (readResponse_onWire hK hreq hpos h.flushed howed fun _ => hwire)) ?_ ?_ ?_
    · exact fun a c' h' => hrest h'.1 fun hk' => ⟨front, back, (h'.2 hk').2⟩
    · exact fun e c' h' => hrest h'.1 fun hk' => ⟨front, back, (h'.2 hk').2⟩
    · exact fun c' h' => h'.2
  · -- the history is not as `K` says already
    have halong : Async.Along Grows (readResponse link) := along_readResponse
    have hextends : Async.Along Extends (readResponse link) := along_readResponse
    refine Async.wp_mono (halong.with_wp (hextends.with_wp Async.wp_trivial)) ?_ ?_ ?_
    · exact fun a c' h' => hrest h'.1 fun hk' => absurd (hK.of_suffix h'.2.1 hk') hk
    · exact fun e c' h' => hrest h'.1 fun hk' => absurd (hK.of_suffix h'.2.1 hk') hk
    · exact fun c' h' hk' => absurd (hK.of_suffix h'.2.1 hk') hk

end Underway

/-- At most a window of responses is owed besides the deferred ones. -/
def Windowed (K : List Event → Prop) (c : Conn) : Prop :=
  K c.log → replies (c.inbound ++ c.unflushed) ≤ c.deferredResponses + pipelineDepth

/-- The next response that is not deferred is to a request that has been flushed. -/
def Flushed (K : List Event → Prop) (c : Conn) : Prop :=
  K c.log → c.deferredResponses < replies c.inbound

section
variable {K : List Event → Prop} {c₀ c c' : Conn} {s : Account Request} {α : Type}
  {Q : α → Account Request → Prop} {E : FirebirdError → Account Request → Prop}

theorem Underway.windowed (h : Underway link K c₀ s c) : Windowed K c := by
  intro hk
  rw [h.replies_queue hk]
  exact Nat.add_le_add_left h.window _

theorem Underway.ready (h : Underway link K c₀ s c) (hopen : s.deferred = false)
    (hpos : 0 < s.flushed) : Flushed K c := by
  intro hk
  obtain ⟨front, back, hwire⟩ := h.wire hopen hk
  exact hwire.replies_inbound hpos

/-- What holds of a program by its account holds of its run. -/
theorem Talk.Holds.run (hK : History link K) {t : Upload.Program α}
    (h : Upload.Meets t Q E s) (hc : Underway link K c₀ s c) :
    t.Always link (Windowed K) (Flushed K) c ∧
      Async.wp (t.run link) ⟨fun a c' => ∃ s', Q a s' ∧ Underway link K c₀ s' c',
        fun e c' => ∃ s', E e s' ∧ Underway link K c₀ s' c', fun c' => ¬ K c'.log⟩ c := by
  induction t generalizing s c with
  | done a => exact ⟨hc.windowed, s, h, hc⟩
  | fail e => exact ⟨hc.windowed, s, h, hc⟩
  | write req next ih =>
    obtain ⟨hreq, hopen, hroom, hnext⟩ := h
    obtain ⟨halways, hrun⟩ := ih hnext (hc.send hK hreq hopen hroom)
    exact ⟨⟨hc.windowed, halways⟩, hrun⟩
  | defer req next ih =>
    obtain ⟨hreq, _, howed, hnext⟩ := h
    obtain ⟨halways, hrun⟩ := ih hnext (hc.defer hK hreq howed)
    exact ⟨⟨hc.windowed, halways⟩, hrun⟩
  | flush next ih =>
    obtain ⟨hopen, hnext⟩ := h
    obtain ⟨halways, hrun⟩ := ih hnext (hc.flush hopen)
    exact ⟨⟨hc.windowed, halways⟩, hrun⟩
  | pause next ih =>
    obtain ⟨hopen, hnext⟩ := h
    obtain ⟨halways, hrun⟩ := ih hnext (hc.await hK hopen)
    exact ⟨⟨hc.windowed, halways⟩, hrun⟩
  | read next ih =>
    obtain ⟨hopen, hpos, hnext⟩ := h
    have hread := hc.read hK hopen hpos
    have hready := hc.ready hopen hpos
    rw [Talk.Always, Talk.run, Async.wp_bind, Async.wp_attempt]
    unfold Async.wp at hread ⊢
    rcases hr : readResponse link c with ⟨r | e | _, c'⟩
    · rw [hr] at hread
      obtain ⟨halways, hrun⟩ := ih (.ok r) (hnext (.ok r)) hread
      exact ⟨⟨hc.windowed, hready, halways⟩, hrun⟩
    · rw [hr] at hread
      obtain ⟨halways, hrun⟩ := ih (.error e) (hnext (.error e)) hread
      exact ⟨⟨hc.windowed, hready, halways⟩, hrun⟩
    · rw [hr] at hread
      exact ⟨⟨hc.windowed, hready, fun hk => absurd hk hread⟩, hread⟩

end

end FastFirebird
