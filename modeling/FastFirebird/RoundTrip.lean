import FastFirebird.Harmless

/-! Requests and the packets they are owed: sending, reading one response, and
giving responses up to the drain. -/
namespace FastFirebird

variable {link : Link}

@[simp] theorem wp_send {req : Request} {Q : Async.Post Conn FirebirdError Nat} {c : Conn} :
    Async.wp (send link req) Q c ↔ Q.ok c.requests (c.send link false req) := Iff.rfl

@[simp] theorem wp_flush {Q : Async.Post Conn FirebirdError Unit} {c : Conn} :
    Async.wp flush Q c ↔ Q.ok () c.flush := Iff.rfl

/-- In step, with `l` still to come, if the history satisfies `K`. -/
def Guarded (K : List Event → Prop) (l : List Packet) (c : Conn) : Prop := K c.log → Sync l c

theorem Guarded.send {K : List Event → Prop} (hK : History link K) {l : List Packet} {c : Conn}
    (h : Guarded K l c) (req : Request) :
    Guarded K (l ++ link.server.packets req c.requests c.turn) (c.send link false req) :=
  fun hk => (h (hK.earlier _ _ hk)).send false req

theorem Guarded.flush {K : List Event → Prop} {l : List Packet} {c : Conn} (h : Guarded K l c) :
    Guarded K l c.flush := fun hk => (h (by simpa using hk)).flush

theorem Guarded.of_extends {K : List Event → Prop} (hK : History link K) {l : List Packet}
    {c c' : Conn} (h : Guarded K l c) (hl : c.log <:+ c'.log) (hk : K c'.log) : Sync l c :=
  h (hK.of_suffix hl hk)

/-- The packets of a pipeline of requests, the first of them number `n`. -/
def packetsFrom (server : Server) (turn : Nat) : Nat → List Request → List Packet
  | _, [] => []
  | n, req :: reqs => server.packets req n turn ++ packetsFrom server turn (n + 1) reqs

theorem packetsFrom_turn {server : Server} {turn n : Nat} {reqs : List Request} :
    ∀ p ∈ packetsFrom server turn n reqs, p.turn = turn := by
  induction reqs generalizing n with
  | nil => simp [packetsFrom]
  | cons req reqs ih =>
    intro p hp
    rcases List.mem_append.mp hp with hp | hp
    · obtain ⟨body, -, rfl⟩ := List.mem_map.mp hp
      rfl
    · exact ih p hp

/-- Every message opens with an operation. -/
theorem message_head {columns : Nat} {answer : Answer} {m : List Body}
    (hm : m ∈ answer.messages columns) :
    ∃ body rest, m = body :: rest ∧ ∀ n turn, (⟨n, turn, body⟩ : Packet).IsOp := by
  unfold Answer.messages at hm
  split at hm
  case h_5 a =>
    rcases List.mem_append.mp hm with hm | hm
    · obtain ⟨cells, -, rfl⟩ := List.mem_map.mp hm
      exact ⟨_, _, rfl, fun _ _ => trivial⟩
    · obtain rfl := List.mem_singleton.mp hm
      cases a.finish <;> exact ⟨_, _, rfl, fun _ _ => trivial⟩
  all_goals
    simp only [List.mem_cons, List.not_mem_nil, or_false] at hm
    rcases hm with rfl | rfl <;> exact ⟨_, _, rfl, fun _ _ => trivial⟩

theorem messages_ne_nil (columns : Nat) (answer : Answer) : answer.messages columns ≠ [] := by
  unfold Answer.messages
  split <;> simp

/-- An answer starts, behind what is volunteered, with an operation. -/
theorem packets_head (server : Server) (req : Request) (n turn : Nat) :
    ∃ vs p l, server.packets req n turn = vs ++ p :: l ∧ (∀ v ∈ vs, v.Volunteered) ∧ p.IsOp := by
  obtain ⟨m, ms, hms⟩ := List.exists_cons_of_ne_nil
    (messages_ne_nil req.columns (server.answer req n))
  obtain ⟨body, rest, rfl, hb⟩ := message_head (hms ▸ List.mem_cons_self)
  refine ⟨stamp n turn ((server.volunteers n 0).map .volunteer), ⟨n, turn, body⟩,
    stamp n turn (rest ++ interleave (fun k => server.volunteers n (k + 1)) ms), ?_,
    stamp_volunteered, hb n turn⟩
  simp [Server.packets, hms, interleave, stamp]

theorem readable_packets (server : Server) (req : Request) (n turn : Nat) (l : List Packet) :
    Readable (server.packets req n turn ++ l) := by
  obtain ⟨vs, p, l', h, hvs, hp⟩ := packets_head server req n turn
  refine Or.inr ?_
  rw [h, List.append_assoc, List.cons_append]
  exact not_drainable_zero_of_op hvs hp

theorem readable_packetsFrom (server : Server) (turn n : Nat) (reqs : List Request) :
    Readable (packetsFrom server turn n reqs) := by
  cases reqs with
  | nil => exact Or.inl rfl
  | cons req reqs => exact readable_packets server req n turn _

/-- Reading the response to a plain request. -/
theorem readResponse_plain {K : List Event → Prop} (hK : History link K) {c : Conn}
    {req : Request} (hp : req.isPlain = true) {n turn : Nat} {l : List Packet} (hl : Readable l)
    (h : Guarded K (link.server.packets req n turn ++ l) c) :
    Async.wp (readResponse link)
      ⟨fun a c' => K c'.log → link.server.reply req n = .ok a ∧ Sync l c',
        fun e c' => K c'.log → link.server.reply req n = .error e ∧ Sync l c',
        fun c' => K c'.log → Fifo c'.log⟩ c := by
  have hs : K c.log → Sync (stamp n turn ((link.server.volunteers n 0).map .volunteer) ++
      ⟨n, turn, .response (link.server.reply req n)⟩ :: l) c := fun hk => by
    simpa [packets_plain hp] using h hk
  exact readResponse_sync hK stamp_volunteered hl hs

/-- One request and its response. -/
theorem roundTrip_sync {K : List Event → Prop} (hK : History link K) {c : Conn} {req : Request}
    (hp : req.isPlain = true) (h : Guarded K [] c) :
    Async.wp (roundTrip link req)
      ⟨fun a c' => K c'.log → link.server.reply req c.requests = .ok a ∧ Sync [] c',
        fun e c' => K c'.log → link.server.reply req c.requests = .error e ∧ Sync [] c',
        fun c' => K c'.log → Fifo c'.log⟩ c := by
  simp only [roundTrip, Async.wp_bind, wp_send, wp_flush]
  have hs : Guarded K (link.server.packets req c.requests c.turn ++ []) (c.send link false req).flush := by
    simpa using (Guarded.send hK h req).flush
  exact readResponse_plain hK hp (Or.inl rfl) hs

/-- How many of the packets are responses. -/
def replies (ps : List Packet) : Nat := ps.countP Packet.isResponse

@[simp] theorem replies_append (ps qs : List Packet) : replies (ps ++ qs) = replies ps + replies qs :=
  List.countP_append

theorem drainable_replies {d : Nat} {ps : List Packet} (h : drainable d ps = true) :
    replies ps = d := by
  induction ps generalizing d with
  | nil =>
    obtain rfl : d = 0 := by simpa [drainable] using h
    rfl
  | cons p ps ih =>
    simp only [drainable] at h
    split at h
    · rename_i v hv
      rw [replies, List.countP_cons_of_neg (by simp [Packet.isResponse, hv])]
      exact ih h
    · rename_i r hr
      simp only [Bool.and_eq_true, decide_eq_true_eq] at h
      rw [replies, List.countP_cons_of_pos (by simp [Packet.isResponse, hr])]
      have := ih h.2
      unfold replies at this
      omega
    · exact absurd h (by simp)

/-- In the middle of an answer, with `l` still to come, if the history satisfies `K`. -/
def GuardedFront (K : List Event → Prop) (l : List Packet) (c : Conn) : Prop :=
  K c.log → Front l c

theorem GuardedFront.guarded {K : List Event → Prop} {l : List Packet} {c : Conn}
    (h : GuardedFront K l c) : Guarded K l c := fun hk => (h hk).sync

/-- The body of a response whose op code has been read. -/
theorem parseResponseBody_sync {K : List Event → Prop} (hK : History link K) {c : Conn}
    {l : List Packet} (hl : Readable l) {r : Reply} (h : Guarded K l c) :
    Async.wp (parseResponseBody link r)
      ⟨fun a c' => r = .ok a ∧ Guarded K l c', fun e c' => r = .error e ∧ Guarded K l c',
        fun _ => False⟩ c := by
  have ha : Guarded K l (c.await link) := hK.await_sync hl h
  simp only [parseResponseBody, Async.wp_bind, Async.wp_modify]
  exact Async.wp_lift (fun _ hr => ⟨hr, ha⟩) fun _ hr => ⟨hr, ha⟩

/-- A program started outside `K` ends outside it. -/
theorem History.wp_of_not {α : Type} {K : List Event → Prop} (hK : History link K) {x : M α}
    (hx : Async.Along Extends x) {c : Conn} (hn : ¬ K c.log)
    {Q : Async.Post Conn FirebirdError α} (hok : ∀ a c', ¬ K c'.log → Q.ok a c')
    (herr : ∀ e c', ¬ K c'.log → Q.error e c') (hpend : ∀ c', ¬ K c'.log → Q.pending c') :
    Async.wp x Q c := by
  have hc : c.log <:+ (x c).2.log := hx c
  unfold Async.wp
  rcases hr : x c with ⟨_ | _ | _, c'⟩ <;> rw [hr] at hc
  · exact hok _ _ fun hk => hn (hK.of_suffix hc hk)
  · exact herr _ _ fun hk => hn (hK.of_suffix hc hk)
  · exact hpend _ fun hk => hn (hK.of_suffix hc hk)

def Conn.sendAll (link : Link) (reqs : List Request) (c : Conn) : Conn :=
  reqs.foldl (fun c req => c.send link false req) c

def Conn.markAll (ns : List Nat) (c : Conn) : Conn := ns.foldl (fun c n => c.markDeferred n) c

theorem Guarded.sendAll {K : List Event → Prop} (hK : History link K) {l : List Packet} {c : Conn}
    (h : Guarded K l c) (reqs : List Request) :
    Guarded K (l ++ packetsFrom link.server c.turn c.requests reqs) (c.sendAll link reqs) := by
  induction reqs generalizing l c with
  | nil => simpa [packetsFrom, Conn.sendAll] using h
  | cons req reqs ih =>
    have hs := ih (h.send hK req)
    simpa [packetsFrom, Conn.sendAll, Conn.send] using hs

theorem Conn.markAll_spec (ns : List Nat) (c : Conn) :
    (c.markAll ns).inbound ++ (c.markAll ns).unflushed = c.inbound ++ c.unflushed ∧
      (c.markAll ns).deferredResponses = c.deferredResponses + ns.length ∧
      (c.markAll ns).turn = c.turn ∧ (c.markAll ns).log = (ns.map Event.marked).reverse ++ c.log := by
  induction ns generalizing c with
  | nil => exact ⟨rfl, rfl, rfl, rfl⟩
  | cons n ns ih =>
    obtain ⟨hq, hd, ht, hl⟩ := ih (c.markDeferred n)
    refine ⟨hq, hd.trans ?_, ht, hl.trans ?_⟩
    · simp only [Conn.markDeferred, List.length_cons]
      omega
    · simp [Conn.markDeferred]

theorem Fifo.marked {log : List Event} (h : Fifo log) (ns : List Nat) :
    Fifo ((ns.map Event.marked).reverse ++ log) := by
  induction ns generalizing log with
  | nil => exact h
  | cons n ns ih =>
    simpa using ih (h.cons (e := .marked n) (by simp) (by simp))

/-- Marking is right exactly when as many successful responses are what is left. -/
theorem sync_markAll_iff {l : List Packet} {c : Conn} (h : Sync l c) {ns : List Nat}
    (hn : ∀ p ∈ l, p.request ∈ ns) :
    Sync [] (c.markAll ns) ↔ drainable ns.length l = true := by
  obtain ⟨pre, hs, hd, hm, ho, hf⟩ := h
  obtain ⟨hq, hd', ht, hl⟩ := Conn.markAll_spec ns c
  constructor
  · intro h'
    have h₀ := sync_drainable h'
    rw [hq, hs, hd', drainable_append hd] at h₀
    exact h₀
  · intro hdr
    refine ⟨pre ++ l, by rw [hq, hs, List.append_nil], ?_, ?_, by simp, ?_⟩
    · rw [hd', drainable_append hd]
      exact hdr
    · intro p hp hr
      rw [hl]
      rcases List.mem_append.mp hp with hp | hp
      · exact List.mem_append_right _ (hm p hp hr)
      · exact List.mem_append_left _ (by simpa using hn p hp)
    · rw [hl]
      exact hf.marked ns

theorem packetsFrom_request {server : Server} {turn n : Nat} {reqs : List Request} :
    ∀ p ∈ packetsFrom server turn n reqs, p.request ∈ List.range' n reqs.length := by
  induction reqs generalizing n with
  | nil => simp [packetsFrom]
  | cons req reqs ih =>
    intro p hp
    rcases List.mem_append.mp hp with hp | hp
    · rw [packets_request hp]
      simp
    · have := ih p hp
      simp only [List.mem_range'_1, List.length_cons] at this ⊢
      omega

theorem mem_interleave {volunteers : Nat → List Volunteer} {ms : List (List Body)} {m : List Body}
    {body : Body} (hm : m ∈ ms) (hb : body ∈ m) : body ∈ interleave volunteers ms := by
  induction ms generalizing volunteers with
  | nil => cases hm
  | cons m' ms ih =>
    simp only [interleave, List.mem_append]
    rcases List.mem_cons.mp hm with rfl | hm
    · exact Or.inl (Or.inr hb)
    · exact Or.inr (ih hm)

end FastFirebird
