import FastFirebird.EventMoves

/-! Event subscriptions are armed while they are open, in every run in which no listener is closed in
its own handler, none is added while the last one is closed and nothing is thrown. -/
namespace FastFirebird.Events

def lastRequest (rid : Nat) (requests : List Request) : Option Request :=
  (requests.filter (·.rid = rid)).getLast?

/-- A delivery of the listener is under way: its packet, `deliver` or the request that follows. -/
def Channel.Processing (s : Channel) (rid : Nat) : Prop :=
  (∃ epb, (rid, epb) ∈ s.packets) ∨ (∃ rest handling, s.loop = .delivering rid rest handling) ∨
    s.loop = .rearming rid

/-- What the handlers of an event have been called with. -/
def Listener.heard (l : Listener) (event : Text) : List (Option Text × Nat) :=
  l.emitted.filterMap fun e => if e.event = event then some e.args else none

/-- What a listener tells of each event by its name are the increases of what the server has told it:
the first count is silent, and each later increase is told once. -/
structure Reported (l : Listener) : Prop where
  latest : ∀ name ∈ l.counts.names, l.counts.get name = (valuesOf name l.delivered).getLastD 0
  rising : ∀ name, (valuesOf name l.delivered).Pairwise (· ≤ ·)
  heard : ∀ name, name ≠ postEvent →
    l.heard name = (increases (valuesOf name l.delivered)).map fun count => (none, count)
  strict : ∀ name, (increases (valuesOf name l.delivered)).Pairwise (· < ·)

/-- The handlers of `'post'` are told the same increases, each with its name. -/
structure Posted (l : Listener) : Prop where
  named : ∀ args ∈ l.heard postEvent, args.1 ≠ none
  heard : ∀ name, (l.heard postEvent).filter (·.1 = some name) =
    (increases (valuesOf name l.delivered)).map fun count => (some name, count)

/-- The last request of a closed listener is the cancel; an open one has one armed request, with its
latest counts, unless a delivery is under way; and each says what the server has said, by `'post'`
once the handlers of the name itself are done. -/
structure Armed (s : Channel) : Prop where
  cancelled : ∀ rid ∈ s.completed, lastRequest rid s.written = some (.cancelEvents rid)
  armed : ∀ rid l, s.listeners[rid]? = some l → rid ∈ s.returned → l.closed = false →
    ¬ s.Processing rid → ∃ epb, buildEpb l.counts = .ok epb ∧
      s.armed.filter (·.1 = rid) = [(rid, epb)]
  reported : ∀ l ∈ s.listeners, Reported l
  posted : ∀ rid l, s.listeners[rid]? = some l →
    (∀ rest name count, s.loop ≠ .delivering rid rest (.named name count)) → Posted l

/-! ### One request for each open listener -/

def Op.que : Op → Option (Nat × Bytes)
  | .arm rid epb => some (rid, epb)
  | .rearm rid epb => some (rid, epb)
  | .cancel _ => none

def Loop.deliveringRid : Loop → List Nat
  | .delivering rid _ _ => [rid]
  | _ => []

theorem delivering_of_mem {loop : Loop} {rid : Nat} (h : rid ∈ loop.deliveringRid) :
    ∃ rest handling, loop = .delivering rid rest handling := by
  cases loop with
  | delivering r rest handling =>
    obtain rfl := List.mem_singleton.mp h
    exact ⟨rest, handling, rfl⟩
  | reading => cases h
  | rearming _ => cases h
  | ended => cases h

theorem rearming_of_mem {loop : Loop} {rid : Nat} (h : rid ∈ loop.rearmRid) : loop = .rearming rid := by
  cases loop with
  | rearming r =>
    obtain rfl := List.mem_singleton.mp h
    rfl
  | reading => cases h
  | delivering _ _ _ => cases h
  | ended => cases h

/-- The read loop waits for its request. -/
theorem Flights.waits {s : Channel} {i rid : Nat} {epb : Bytes}
    (h : Flights s.returned s.inFlight s.listeners.length s.loop)
    (hop : s.answered[i]? = some (.rearm rid epb)) : s.loop = .rearming rid := by
  have hmem : rid ∈ s.inFlight.filterMap Op.rearmRid :=
    List.mem_filterMap.mpr ⟨_, List.mem_append.mpr (.inl (List.mem_of_getElem? hop)), rfl⟩
  rw [h.rearms] at hmem
  exact rearming_of_mem hmem

/-- The requests that are armed or will be. -/
def Channel.requests (s : Channel) : List (Nat × Bytes) := s.waiting.filterMap Op.que ++ s.armed

/-- Whose request is on its way: to the server, at the server, back from it, or in `deliver`. -/
def Channel.tokens (s : Channel) : List Nat :=
  (s.requests ++ s.packets).map Prod.fst ++ s.loop.deliveringRid

/-- The request of an open listener is in one place. -/
structure Tokens (s : Channel) : Prop where
  known : ∀ rid ∈ s.tokens, rid < s.listeners.length
  one : ∀ rid ∈ s.subs, s.tokens.count rid = 1
  delivering : ∀ rid rest handling, s.loop = .delivering rid rest handling → rid ∈ s.subs

section Tokens

variable {s s' : Channel}

/-- Only the requests of open listeners are counted. -/
theorem Tokens.same (h : Tokens s) (hlisteners : s'.listeners.length = s.listeners.length)
    (hsubs : s'.subs = s.subs) (htokens : ∀ rid ∈ s'.tokens, rid ∈ s.tokens)
    (hcount : ∀ rid ∈ s.subs, s'.tokens.count rid = s.tokens.count rid)
    (hdelivering : ∀ rid rest handling, s'.loop = .delivering rid rest handling → rid ∈ s.subs) :
    Tokens s' := by
  refine ⟨fun rid hrid => ?_, fun rid hrid => ?_, fun rid rest handling hloop => ?_⟩
  · rw [hlisteners]
    exact h.known rid (htokens rid hrid)
  · rw [hsubs] at hrid
    rw [hcount rid hrid]
    exact h.one rid hrid
  · rw [hsubs]
    exact hdelivering rid rest handling hloop

theorem Tokens.perm (h : Tokens s) (hlisteners : s'.listeners.length = s.listeners.length)
    (hsubs : s'.subs = s.subs) (hperm : s'.tokens.Perm s.tokens)
    (hdelivering : ∀ rid rest handling, s'.loop = .delivering rid rest handling → rid ∈ s.subs) :
    Tokens s' :=
  h.same hlisteners hsubs (fun _ hrid => hperm.mem_iff.mp hrid) (fun rid _ => hperm.count_eq rid)
    hdelivering

theorem mem_requests {op : Op} {r : Nat × Bytes} (h : r ∈ s'.requests)
    (hwaiting : s'.waiting = s.waiting ++ [op]) (harmed : s'.armed = s.armed) :
    op.que = some r ∨ r ∈ s.requests := by
  rw [Channel.requests, hwaiting, harmed, List.filterMap_append] at h
  rcases List.mem_append.mp h with h | h
  · rcases List.mem_append.mp h with h | h
    · exact .inr (List.mem_append.mpr (.inl h))
    · obtain ⟨other, hother, hque⟩ := List.mem_filterMap.mp h
      rw [List.mem_singleton.mp hother] at hque
      exact .inl hque
  · exact .inr (List.mem_append.mpr (.inr h))

/-- The server has a request that waited for the lock. -/
theorem requests_armed {op : Op} {waiting : List Op} {request : Nat × Bytes}
    (hwaiting : s.waiting = op :: waiting) (hop : op.que = some request) (hrest : s'.waiting = waiting)
    (harmed : s'.armed = s.armed ++ [request]) : s'.requests.Perm s.requests := by
  rw [Channel.requests, Channel.requests, hwaiting, hrest, harmed, List.filterMap_cons_some hop,
    ← List.append_assoc]
  exact List.perm_append_singleton _ _

theorem count_tokens (s : Channel) (rid : Nat) : s.tokens.count rid =
    ((s.waiting.filterMap Op.que).map Prod.fst).count rid + (s.armed.map Prod.fst).count rid +
      (s.packets.map Prod.fst).count rid + s.loop.deliveringRid.count rid := by
  simp only [Channel.tokens, Channel.requests, List.map_append, List.count_append]

/-- A new listener has its first request. -/
theorem Tokens.arm (h : Tokens s) (hopened : Opened s) {epb : Bytes}
    (hlisteners : s'.listeners.length = s.listeners.length + 1)
    (hsubs : s'.subs = s.subs ++ [s.listeners.length])
    (hwaiting : s'.waiting = s.waiting ++ [.arm s.listeners.length epb]) (harmed : s'.armed = s.armed)
    (hpackets : s'.packets = s.packets) (hloop : s'.loop = s.loop) : Tokens s' := by
  have hnew : s.listeners.length ∉ s.tokens := fun hmem => Nat.lt_irrefl _ (h.known _ hmem)
  have hperm : s'.tokens.Perm (s.listeners.length :: s.tokens) := by
    apply List.perm_iff_count.mpr
    intro rid
    rw [List.count_cons, count_tokens, count_tokens, hwaiting, harmed, hpackets, hloop]
    simp [List.count_cons, Op.que]
    omega
  refine ⟨fun rid hrid => ?_, fun rid hrid => ?_, fun rid rest handling heq => ?_⟩
  · rw [hlisteners]
    rcases List.mem_cons.mp (hperm.mem_iff.mp hrid) with rfl | hrid
    · exact Nat.lt_succ_self _
    · exact Nat.lt_succ_of_lt (h.known rid hrid)
  · rw [hperm.count_eq]
    rw [hsubs] at hrid
    rcases List.mem_append.mp hrid with hrid | hrid
    · have hne : s.listeners.length ≠ rid := Nat.ne_of_gt (hopened.known rid hrid)
      rw [List.count_cons_of_ne hne]
      exact h.one rid hrid
    · rw [List.mem_singleton.mp hrid, List.count_cons_self, List.count_eq_zero.mpr hnew]
  · rw [hsubs]
    rw [hloop] at heq
    exact List.mem_append.mpr (.inl (h.delivering rid rest handling heq))

/-- A listener is closed outside its own delivery. -/
theorem Tokens.cancel (h : Tokens s) (hopened : Opened s) {rid : Nat}
    (houtside : ∀ rest handling, s.loop ≠ .delivering rid rest handling)
    (hlisteners : s'.listeners.length = s.listeners.length) (hsubs : s'.subs = s.subs.erase rid)
    (hwaiting : s'.waiting = s.waiting ++ [.cancel rid]) (harmed : s'.armed = s.armed)
    (hpackets : s'.packets = s.packets) (hloop : s'.loop = s.loop) : Tokens s' := by
  have hsame : s'.tokens = s.tokens := by
    rw [Channel.tokens, Channel.tokens, Channel.requests, Channel.requests, hwaiting, harmed, hpackets,
      hloop, List.filterMap_append]
    simp [Op.que]
  refine ⟨fun other hother => ?_, fun other hother => ?_, fun other rest handling heq => ?_⟩
  · rw [hsame] at hother
    rw [hlisteners]
    exact h.known other hother
  · rw [hsubs] at hother
    rw [hsame]
    exact h.one other (List.mem_of_mem_erase hother)
  · rw [hsubs]
    rw [hloop] at heq
    apply hopened.nodup.mem_erase_iff.mpr
    refine ⟨?_, h.delivering other rest handling heq⟩
    rintro rfl
    exact houtside rest handling heq

/-- The server forgets the requests of a listener that is closed. -/
theorem count_cancelled {armed : List (Nat × Bytes)} {rid other : Nat} (h : other ≠ rid) :
    ((armed.filter fun a => a.1 ≠ rid).map Prod.fst).count other = (armed.map Prod.fst).count other := by
  induction armed with
  | nil => rfl
  | cons a armed ih =>
    rw [List.filter_cons, List.map_cons, List.count_cons]
    by_cases ha : a.1 = rid
    · have hne : a.1 ≠ other := fun heq => h (heq.symm.trans ha)
      rw [if_neg (by simpa using ha), ih, if_neg (by simpa using hne)]
      rfl
    · rw [if_pos (by simpa using ha), List.map_cons, List.count_cons, ih]

theorem Tokens.moves (h : Tokens s) (hopened : Opened s)
    (hflights : Flights s.returned s.inFlight s.listeners.length s.loop) (hrequests : Requests s)
    (hm : Moves s s') : Tokens s' := by
  cases hm with
  | subscribe _ _ => exact h.perm rfl rfl (.refl _) h.delivering
  | registered _ _ _ => exact h.arm hopened List.length_append rfl rfl rfl rfl rfl
  | again _ => exact h.perm rfl rfl (.refl _) h.delivering
  | close _ _ hloop => exact h.cancel hopened hloop (List.length_modify _ _ _) rfl rfl rfl rfl rfl
  | @write op waiting hrunning hwaiting =>
    have hperm : ∀ {s' : Channel} {request : Nat × Bytes}, op.que = some request → s'.waiting = waiting →
        s'.armed = s.armed ++ [request] → s'.packets = s.packets → s'.loop = s.loop →
          s'.tokens.Perm s.tokens := by
      intro s' request hop hrest harmed hpackets hloop
      rw [Channel.tokens, Channel.tokens, hpackets, hloop]
      exact (((requests_armed hwaiting hop hrest harmed).append_right _).map Prod.fst).append_right _
    cases op with
    | arm rid epb => exact h.perm rfl rfl (hperm rfl rfl rfl rfl rfl) h.delivering
    | rearm rid epb => exact h.perm rfl rfl (hperm rfl rfl rfl rfl rfl) h.delivering
    | cancel rid =>
      have hcancel : .cancelEvents rid ∈ s.history := by
        rw [Channel.history, hwaiting]
        exact List.mem_append.mpr (.inr List.mem_cons_self)
      have hclosed : rid ∉ s.subs := fun hrid => hrequests.opened rid hrid hcancel
      refine h.same rfl rfl (fun other hother => ?_) (fun other hother => ?_) h.delivering
      · have hsub : ((waiting.filterMap Op.que ++ (s.armed.filter fun a => a.1 ≠ rid) ++ s.packets).map Prod.fst ++
            s.loop.deliveringRid).Sublist s.tokens := by
          rw [Channel.tokens, Channel.requests, hwaiting]
          exact (((List.filter_sublist.append_left _).append_right _).map Prod.fst).append_right _
        exact hsub.mem hother
      · have hne : other ≠ rid := fun heq => hclosed (heq ▸ hother)
        rw [count_tokens, count_tokens, hwaiting]
        show _ + ((s.armed.filter fun a => a.1 ≠ rid).map Prod.fst).count other + _ + _ = _
        rw [count_cancelled hne]
        rfl
  | answer _ => exact h.perm rfl rfl (.refl _) h.delivering
  | @resume i op hop _ =>
    cases op with
    | arm rid epb => exact h.perm rfl rfl (.refl _) h.delivering
    | cancel rid => exact h.perm rfl rfl (.refl _) h.delivering
    | rearm rid epb =>
      have hold : s.loop.deliveringRid = [] := by
        rw [hflights.waits hop]
        rfl
      have hnew : Loop.deliveringRid (if s.closed then .ended else .reading) = [] := by
        split
        · rfl
        · rfl
      refine h.perm rfl rfl (.of_eq ?_) fun other rest handling hloop => ?_
      · rw [Channel.tokens, Channel.tokens, hold]
        show _ ++ Loop.deliveringRid (if s.closed then .ended else .reading) = _
        rw [hnew]
        rfl
      · have hother : other ∈ Loop.deliveringRid (if s.closed then .ended else .reading) := by
          rw [show (if s.closed then Loop.ended else .reading) = .delivering other rest handling from hloop]
          exact List.mem_cons_self
        rw [hnew] at hother
        cases hother
  | post _ => exact h.perm rfl rfl (.refl _) h.delivering
  | @fire i rid epb packet hi _ =>
    obtain ⟨front, back, hsplit, herase⟩ := eraseIdx_split hi
    refine h.perm rfl rfl (List.perm_iff_count.mpr fun other => ?_) h.delivering
    rw [count_tokens, count_tokens, herase, hsplit]
    simp [List.count_cons]
    omega
  | ended hloop =>
    refine h.perm rfl rfl (.of_eq ?_) fun _ _ _ heq => by cases heq
    rw [Channel.tokens, Channel.tokens, hloop]
    rfl
  | @received rid epb packets counts hloop hpackets hrid _ =>
    refine h.perm rfl rfl (List.perm_iff_count.mpr fun other => ?_) ?_
    · rw [count_tokens, count_tokens, hpackets, hloop]
      simp [List.count_cons, Loop.deliveringRid]
      omega
    · intro other rest handling heq
      cases heq
      exact hrid
  | @ignored rid epb packets hloop hpackets hrid =>
    refine h.same rfl rfl (fun other hother => ?_) (fun other hother => ?_) h.delivering
    · have hsub : ((s.requests ++ packets).map Prod.fst ++ s.loop.deliveringRid).Sublist s.tokens := by
        rw [Channel.tokens, hpackets]
        exact (((List.sublist_cons_self _ _).append_left _).map Prod.fst).append_right _
      exact hsub.mem hother
    · have hne : rid ≠ other := fun heq => hrid (heq ▸ hother)
      rw [count_tokens, count_tokens, hpackets, List.map_cons, List.count_cons_of_ne hne]
  | @deliver rid count name rest l handling hloop hl _ =>
    refine h.perm (List.length_modify _ _ _) rfl (.of_eq ?_) ?_
    · rw [Channel.tokens, Channel.tokens, hloop]
      rfl
    · intro other rest' handling heq
      cases heq
      exact h.delivering _ _ _ hloop
  | handleError => exact h.perm (List.length_modify _ _ _) rfl (.refl _) h.delivering
  | @posts rid count name rest hloop =>
    refine h.perm (List.length_modify _ _ _) rfl (.of_eq ?_) ?_
    · rw [Channel.tokens, Channel.tokens, hloop]
      rfl
    · intro other rest' handling heq
      cases heq
      exact h.delivering _ _ _ hloop
  | @handled rid rest hloop =>
    refine h.perm rfl rfl (.of_eq ?_) ?_
    · rw [Channel.tokens, Channel.tokens, hloop]
      rfl
    · intro other rest' handling heq
      cases heq
      exact h.delivering _ _ _ hloop
  | @rearm rid l epb hloop hl _ =>
    refine h.perm rfl rfl (List.perm_iff_count.mpr fun other => ?_) fun _ _ _ heq => by cases heq
    rw [count_tokens, count_tokens, hloop]
    simp [List.count_cons, Loop.deliveringRid, Op.que]
    omega

end Tokens

/-! ### What the requests and the packets say -/

/-- What a packet still has to tell a listener: counts of its events, which do not fall, and which the
server has got to. -/
structure Told (own posted counts : Counts) : Prop where
  nodup : counts.names.Nodup
  names : ∀ entry ∈ counts, entry.1 ∈ own.names
  rising : ∀ entry ∈ counts, own.get entry.1 ≤ entry.2
  reached : ∀ entry ∈ counts, entry.2 ≤ posted.get entry.1

theorem Told.mono {own posted posted' counts : Counts} (h : Told own posted counts)
    (hposted : ∀ name, posted.get name ≤ posted'.get name) : Told own posted' counts :=
  ⟨h.nodup, h.names, h.rising, fun entry hentry => Nat.le_trans (h.reached entry hentry) (hposted entry.1)⟩

/-- The counts of an open request are the latest of its listener, and the counts of a packet are
later ones. -/
structure Latest (s : Channel) : Prop where
  bounded : ∀ name, Counts.get s.posted name < 2 ^ 32
  sound : ∀ (rid : Nat) (l : Listener), s.listeners[rid]? = some l → l.Sound ∧
    ∀ name ∈ l.counts.names, l.counts.get name ≤ Counts.get s.posted name
  requests : ∀ rid epb (l : Listener), (rid, epb) ∈ s.requests → s.listeners[rid]? = some l →
    buildEpb l.counts = .ok epb
  packets : ∀ rid epb (l : Listener), (rid, epb) ∈ s.packets → s.listeners[rid]? = some l →
    ∃ counts, parseEpb epb = .ok counts ∧ Told l.counts s.posted counts
  delivering : ∀ rid rest handling (l : Listener), s.loop = .delivering rid rest handling →
    s.listeners[rid]? = some l → Told l.counts s.posted rest

section Latest

variable {s s' : Channel}

/-- Nothing has been added. -/
theorem Latest.same (h : Latest s) (hlisteners : s'.listeners = s.listeners) (hposted : s'.posted = s.posted)
    (hrequests : ∀ r ∈ s'.requests, r ∈ s.requests) (hpackets : ∀ p ∈ s'.packets, p ∈ s.packets)
    (hloop : ∀ rid rest handling, s'.loop = .delivering rid rest handling →
      ∃ handling', s.loop = .delivering rid rest handling') : Latest s' := by
  refine ⟨?_, ?_, ?_, ?_, ?_⟩
  · rw [hposted]
    exact h.bounded
  · rw [hposted, hlisteners]
    exact h.sound
  · rw [hlisteners]
    exact fun rid epb l hr => h.requests rid epb l (hrequests _ hr)
  · rw [hposted, hlisteners]
    exact fun rid epb l hp => h.packets rid epb l (hpackets _ hp)
  · rw [hposted, hlisteners]
    intro rid rest handling l heq hl
    obtain ⟨handling', hold⟩ := hloop rid rest handling heq
    exact h.delivering rid rest handling' l hold hl

theorem Listener.Sound.same {l l' : Listener} (h : l.Sound) (hcounts : l'.counts = l.counts)
    (hbaselined : l'.baselined = l.baselined) (hdelivered : l'.delivered = l.delivered)
    (hnamed : namedOf l'.emitted = namedOf l.emitted) : l'.Sound := by
  refine ⟨?_, ?_, ?_, ?_, ?_, ?_⟩
  · rw [hcounts]
    exact h.valid
  · rw [hbaselined, hdelivered]
    exact h.baselined
  · rw [hcounts, hdelivered]
    exact h.latest
  · rw [hdelivered]
    exact h.rising
  · rw [hnamed, hdelivered]
    exact h.emitted
  · rw [hnamed, hcounts]
    exact h.known

theorem Listener.Sound.post {l : Listener} {name : Text} {count : Nat} (h : l.Sound) :
    (l.post name count).Sound := by
  have hnamed : namedOf (l.emitted ++ [.post name count]) = namedOf l.emitted := by
    rw [namedOf_append]
    exact List.append_nil _
  exact @Listener.Sound.same l (l.post name count) h rfl rfl rfl hnamed

theorem posted_le (posted : Counts) (name other : Text) : Counts.get posted other ≤
    Counts.get (Counts.set name (Counts.get posted name + 1) posted) other := by
  by_cases heq : other = name
  · rw [heq, Counts.get_set_self]
    exact Nat.le_succ _
  · rw [Counts.get_set_of_ne heq]

/-- The server answers an armed request with the counts that it has. -/
theorem packet_told {own : Counts} {epb packet : Bytes} (hbuild : buildEpb own = .ok epb)
    (hvalid : Valid own) (hbounded : ∀ name, Counts.get s.posted name < 2 ^ 32)
    (hown : ∀ name ∈ own.names, own.get name ≤ Counts.get s.posted name)
    (hpacket : s.packet epb = .ok packet) :
    ∃ counts, parseEpb packet = .ok counts ∧ Told own s.posted counts := by
  have hparse := parseEpb_buildEpb hbuild hvalid
  rw [Channel.packet, hparse] at hpacket
  have hnames : Counts.names (own.map fun entry => (entry.1, Counts.get s.posted entry.1)) = own.names := by
    rw [Counts.names, List.map_map]
    rfl
  have hentries : ∀ entry ∈ own.map fun entry => (entry.1, Counts.get s.posted entry.1),
      entry.1 ∈ own.names ∧ entry.2 = Counts.get s.posted entry.1 := by
    intro entry hentry
    obtain ⟨old, hold, rfl⟩ := List.mem_map.mp hentry
    exact ⟨List.mem_map.mpr ⟨old, hold, rfl⟩, rfl⟩
  refine ⟨_, parseEpb_buildEpb hpacket ⟨?_, ?_, fun entry hentry => ?_⟩, ?_, fun entry hentry => ?_,
    fun entry hentry => ?_, fun entry hentry => ?_⟩
  · rw [hnames]
    exact hvalid.nodup
  · rw [hnames]
    exact hvalid.plain
  · rw [(hentries entry hentry).2]
    exact hbounded entry.1
  · rw [hnames]
    exact hvalid.nodup
  · exact (hentries entry hentry).1
  · rw [(hentries entry hentry).2]
    exact hown entry.1 (hentries entry hentry).1
  · exact Nat.le_of_eq (hentries entry hentry).2

/-- One more count is delivered. -/
theorem Told.deliver {own posted rest : Counts} {name : Text} {count : Nat}
    (h : Told own posted ((name, count) :: rest)) : Told (own.set name count) posted rest := by
  obtain ⟨hnot, hnodup⟩ := List.nodup_cons.mp h.nodup
  have hname : name ∈ own.names := h.names _ List.mem_cons_self
  refine ⟨hnodup, fun entry hentry => ?_, fun entry hentry => ?_, fun entry hentry => ?_⟩
  · rw [Counts.names_set hname]
    exact h.names entry (List.mem_cons_of_mem _ hentry)
  · have hne : entry.1 ≠ name := fun heq => hnot (heq ▸ List.mem_map.mpr ⟨entry, hentry, rfl⟩)
    rw [Counts.get_set_of_ne hne]
    exact h.rising entry (List.mem_cons_of_mem _ hentry)
  · exact h.reached entry (List.mem_cons_of_mem _ hentry)

theorem Tokens.known_request (h : Tokens s) {r : Nat × Bytes} (hr : r ∈ s.requests ++ s.packets) :
    r.1 < s.listeners.length :=
  h.known r.1 (List.mem_append.mpr (.inl (List.mem_map.mpr ⟨r, hr, rfl⟩)))

/-- A new listener asks for the first time. -/
theorem Latest.arm (h : Latest s) (htokens : Tokens s) {l : Listener} {epb : Bytes} (hsound : l.Sound)
    (hnew : l.delivered = []) (hbuild : buildEpb l.counts = .ok epb)
    (hlisteners : s'.listeners = s.listeners ++ [l])
    (hrequests : ∀ r ∈ s'.requests, r ∈ s.requests ∨ r = (s.listeners.length, epb))
    (hpackets : s'.packets = s.packets) (hloop : s'.loop = s.loop) (hposted : s'.posted = s.posted)
    (hdelivering : ∀ rid rest handling, s.loop = .delivering rid rest handling → rid < s.listeners.length) :
    Latest s' := by
  have hold : ∀ {rid : Nat}, rid < s.listeners.length → s'.listeners[rid]? = s.listeners[rid]? := by
    intro rid hlt
    rw [hlisteners, List.getElem?_append_left hlt]
  have hlast : ∀ {rid : Nat} {x : Listener}, s.listeners.length ≤ rid → s'.listeners[rid]? = some x →
      x = l := by
    intro rid x hge hx
    rw [hlisteners, List.getElem?_append_right hge] at hx
    exact List.mem_singleton.mp (List.mem_of_getElem? hx)
  refine ⟨?_, fun rid x hx => ?_, fun rid epb' x hr hx => ?_, fun rid epb' x hp hx => ?_,
    fun rid rest handling x heq hx => ?_⟩
  · rw [hposted]
    exact h.bounded
  · rw [hposted]
    rcases Nat.lt_or_ge rid s.listeners.length with hlt | hge
    · exact h.sound rid x (hold hlt ▸ hx)
    · obtain rfl := hlast hge hx
      refine ⟨hsound, fun name hname => ?_⟩
      rw [hsound.latest name hname, hnew]
      exact Nat.zero_le _
  · rcases hrequests _ hr with hr | hr
    · have hlt : rid < s.listeners.length := htokens.known_request (List.mem_append.mpr (.inl hr))
      exact h.requests rid epb' x hr (hold hlt ▸ hx)
    · obtain ⟨rfl, rfl⟩ := Prod.mk.inj hr
      obtain rfl := hlast (Nat.le_refl _) hx
      exact hbuild
  · rw [hpackets] at hp
    rw [hposted]
    have hlt : rid < s.listeners.length := htokens.known_request (List.mem_append.mpr (.inr hp))
    exact h.packets rid epb' x hp (hold hlt ▸ hx)
  · rw [hloop] at heq
    rw [hposted]
    exact h.delivering rid rest handling x heq (hold (hdelivering rid rest handling heq) ▸ hx)

/-- A listener changes, but not its counts. -/
theorem Latest.touch (h : Latest s) {rid : Nat} {f : Listener → Listener}
    (hf : ∀ l, (f l).counts = l.counts ∧ (l.Sound → (f l).Sound))
    (hlisteners : s'.listeners = s.listeners.modify rid f)
    (hrequests : ∀ r ∈ s'.requests, r ∈ s.requests) (hpackets : s'.packets = s.packets)
    (hloop : ∀ rid rest handling, s'.loop = .delivering rid rest handling →
      ∃ handling', s.loop = .delivering rid rest handling') (hposted : s'.posted = s.posted) :
    Latest s' := by
  have hold : ∀ {r : Nat} {x : Listener}, s'.listeners[r]? = some x →
      ∃ y, s.listeners[r]? = some y ∧ x.counts = y.counts ∧ (y.Sound → x.Sound) := by
    intro r x hx
    rw [hlisteners] at hx
    obtain ⟨y, hy, rfl⟩ := get_modify hx
    refine ⟨y, hy, ?_⟩
    split
    · exact hf y
    · exact ⟨rfl, id⟩
  refine ⟨?_, fun r x hx => ?_, fun r epb x hr hx => ?_, fun r epb x hp hx => ?_,
    fun r rest handling x heq hx => ?_⟩
  · rw [hposted]
    exact h.bounded
  all_goals obtain ⟨y, hy, hcounts, hsound⟩ := hold hx
  · rw [hposted, hcounts]
    exact (h.sound r y hy).imp_left hsound
  · rw [hcounts]
    exact h.requests r epb y (hrequests _ hr) hy
  · rw [hpackets] at hp
    rw [hposted, hcounts]
    exact h.packets r epb y hp hy
  · obtain ⟨handling', hold⟩ := hloop r rest handling heq
    rw [hposted, hcounts]
    exact h.delivering r rest handling' y hold hy

/-- One more count is delivered: the listener has no request and no other packet. -/
theorem Latest.deliver (h : Latest s) (htokens : Tokens s) {rid count : Nat} {name : Text} {rest : Counts}
    {l : Listener} {handling : Handling} (hloop : s.loop = .delivering rid ((name, count) :: rest) .idle)
    (hl : s.listeners[rid]? = some l) (hdeliver : (l.deliver name count).2 = some handling)
    (hlisteners : s'.listeners = s.listeners.modify rid fun l => (l.deliver name count).1)
    (hrequests : s'.requests = s.requests) (hpackets : s'.packets = s.packets)
    (hdelivering : s'.loop = .delivering rid rest handling) (hposted : s'.posted = s.posted) : Latest s' := by
  have htold := h.delivering rid _ .idle l hloop hl
  obtain ⟨hsound, hown⟩ := h.sound rid l hl
  have hname : name ∈ l.counts.names := htold.names (name, count) List.mem_cons_self
  have hreached : count ≤ Counts.get s.posted name := htold.reached (name, count) List.mem_cons_self
  have hnone : ∀ r ∈ s.requests ++ s.packets, r.1 ≠ rid := by
    intro r hr heq
    have hone := htokens.one rid (htokens.delivering rid _ .idle hloop)
    have hmem : rid ∈ (s.requests ++ s.packets).map Prod.fst := List.mem_map.mpr ⟨r, hr, heq⟩
    have hpos := List.count_pos_iff.mpr hmem
    rw [Channel.tokens, List.count_append, hloop, Loop.deliveringRid, List.count_cons_self] at hone
    omega
  have hother : ∀ {r : Nat} {x : Listener}, r ≠ rid → s'.listeners[r]? = some x →
      s.listeners[r]? = some x := by
    intro r x hne hx
    rw [hlisteners, List.getElem?_modify_ne _ _ (Ne.symm hne)] at hx
    exact hx
  have hthis : ∀ {x : Listener}, s'.listeners[rid]? = some x → x = (l.deliver name count).1 := by
    intro x hx
    rw [hlisteners] at hx
    obtain ⟨y, hy, rfl⟩ := get_modify hx
    rw [if_pos rfl, Option.some.inj (hy.symm.trans hl)]
  have hcounts := (Listener.deliver_counts l name count).1
  refine ⟨?_, fun r x hx => ?_, fun r epb x hr hx => ?_, fun r epb x hp hx => ?_,
    fun r rest' handling' x heq hx => ?_⟩
  · rw [hposted]
    exact h.bounded
  · rw [hposted]
    by_cases hr : r = rid
    · subst hr
      rw [hthis hx, hcounts, Counts.names_set hname]
      refine ⟨hsound.deliver hname (htold.rising (name, count) List.mem_cons_self)
        (Nat.lt_of_le_of_lt hreached (h.bounded name)) hdeliver, fun other hmem => ?_⟩
      by_cases heq : other = name
      · rw [heq, Counts.get_set_self]
        exact hreached
      · rw [Counts.get_set_of_ne heq]
        exact hown other hmem
    · exact h.sound r x (hother hr hx)
  · rw [hrequests] at hr
    have hne : r ≠ rid := hnone _ (List.mem_append.mpr (.inl hr))
    exact h.requests r epb x hr (hother hne hx)
  · rw [hpackets] at hp
    rw [hposted]
    have hne : r ≠ rid := hnone _ (List.mem_append.mpr (.inr hp))
    exact h.packets r epb x hp (hother hne hx)
  · rw [hdelivering] at heq
    obtain ⟨rfl, rfl, -⟩ := Loop.delivering.inj heq
    rw [hposted, hthis hx, hcounts]
    exact htold.deliver

theorem Latest.moves (h : Latest s) (hopened : Opened s) (htokens : Tokens s) (hplain : ∀ names ∈ s.starting,
    ∀ name ∈ names, Plain name) (hm : Moves s s') : Latest s' := by
  have hsame : ∀ rid rest handling, s.loop = .delivering rid rest handling →
      ∃ handling', s.loop = .delivering rid rest handling' := fun rid rest handling heq => ⟨handling, heq⟩
  cases hm with
  | subscribe _ _ => exact h.same rfl rfl (fun _ hr => hr) (fun _ hp => hp) hsame
  | @registered i names epb hi hbuild _ =>
    have hsound : (Channel.newListener names).Sound :=
      newListener_sound (hplain names (List.mem_of_getElem? hi))
    refine h.arm htokens hsound rfl hbuild rfl (fun r hr => ?_) rfl rfl rfl fun rid rest handling heq =>
      hopened.known rid (htokens.delivering rid rest handling heq)
    rcases @mem_requests s _ (.arm s.listeners.length epb) r hr rfl rfl with hr | hr
    · exact .inr (Option.some.inj hr).symm
    · exact .inl hr
  | again _ => exact h.same rfl rfl (fun _ hr => hr) (fun _ hp => hp) hsame
  | @close rid l _ hrid hloop =>
    refine @Latest.touch s _ h rid (fun l => { l with closed := true })
      (fun l => ⟨rfl, fun hsound => hsound.same rfl rfl rfl rfl⟩) rfl (fun r hr => ?_) rfl hsame rfl
    exact (@mem_requests s _ (.cancel rid) r hr rfl rfl).resolve_left nofun
  | @write op waiting hrunning hwaiting =>
    cases op with
    | arm rid epb =>
      exact h.same rfl rfl (fun r hr => (requests_armed hwaiting rfl rfl rfl).mem_iff.mp hr) (fun _ hp => hp)
        hsame
    | rearm rid epb =>
      exact h.same rfl rfl (fun r hr => (requests_armed hwaiting rfl rfl rfl).mem_iff.mp hr) (fun _ hp => hp)
        hsame
    | cancel rid =>
      refine h.same rfl rfl (fun r hr => ?_) (fun _ hp => hp) hsame
      rw [Channel.requests, hwaiting]
      rcases List.mem_append.mp hr with hr | hr
      · exact List.mem_append.mpr (.inl hr)
      · exact List.mem_append.mpr (.inr (List.mem_filter.mp hr).1)
  | answer _ => exact h.same rfl rfl (fun _ hr => hr) (fun _ hp => hp) hsame
  | @resume i op hop _ =>
    cases op with
    | arm rid epb => exact h.same rfl rfl (fun _ hr => hr) (fun _ hp => hp) hsame
    | cancel rid => exact h.same rfl rfl (fun _ hr => hr) (fun _ hp => hp) hsame
    | rearm rid epb =>
      refine h.same rfl rfl (fun _ hr => hr) (fun _ hp => hp) fun other rest handling heq => ?_
      have hnot : (if s.closed then Loop.ended else .reading) ≠ .delivering other rest handling := by
        split
        · exact nofun
        · exact nofun
      exact absurd heq hnot
  | @post name hpost =>
    have hle := posted_le s.posted name
    refine ⟨fun other => ?_, fun rid l hl => ?_, h.requests, fun rid epb l hp hl => ?_,
      fun rid rest handling l hloop hl => ?_⟩
    · by_cases heq : other = name
      · rw [heq, Counts.get_set_self]
        exact hpost
      · rw [Counts.get_set_of_ne heq]
        exact h.bounded other
    · obtain ⟨hsound, hown⟩ := h.sound rid l hl
      exact ⟨hsound, fun other hother => Nat.le_trans (hown other hother) (hle other)⟩
    · obtain ⟨counts, hparse, htold⟩ := h.packets rid epb l hp hl
      exact ⟨counts, hparse, htold.mono hle⟩
    · exact (h.delivering rid rest handling l hloop hl).mono hle
  | @fire i rid epb packet hi hpacket =>
    have hmem : (rid, epb) ∈ s.requests := List.mem_append.mpr (.inr (List.mem_of_getElem? hi))
    refine ⟨h.bounded, h.sound, fun r epb' l hr hl => ?_, fun r epb' l hp hl => ?_, h.delivering⟩
    · apply h.requests r epb' l _ hl
      rcases List.mem_append.mp hr with hr | hr
      · exact List.mem_append.mpr (.inl hr)
      · exact List.mem_append.mpr (.inr (List.mem_of_mem_eraseIdx hr))
    · rcases List.mem_append.mp hp with hp | hp
      · exact h.packets r epb' l hp hl
      · obtain ⟨rfl, rfl⟩ := Prod.mk.inj (List.mem_singleton.mp hp)
        obtain ⟨hsound, hown⟩ := h.sound r l hl
        exact packet_told (h.requests r epb l hmem hl) hsound.valid h.bounded hown hpacket
  | ended hloop => exact h.same rfl rfl (fun _ hr => hr) (fun _ hp => hp) nofun
  | @received rid epb packets counts hloop hpackets hrid hparse =>
    refine ⟨h.bounded, h.sound, h.requests, fun r epb' l hp hl => ?_, fun r rest handling l heq hl => ?_⟩
    · exact h.packets r epb' l (hpackets ▸ List.mem_cons_of_mem _ hp) hl
    · obtain ⟨rfl, rfl, -⟩ := Loop.delivering.inj heq
      obtain ⟨counts', hparse', htold⟩ := h.packets rid epb l (hpackets ▸ List.mem_cons_self) hl
      obtain rfl := Except.ok.inj (hparse.symm.trans hparse')
      exact htold
  | @ignored rid epb packets hloop hpackets hrid =>
    exact h.same rfl rfl (fun _ hr => hr) (fun _ hp => hpackets ▸ List.mem_cons_of_mem _ hp) hsame
  | @deliver rid count name rest l handling hloop hl hdeliver =>
    exact h.deliver htokens hloop hl hdeliver rfl rfl rfl rfl rfl
  | @handleError rid handled =>
    exact @Latest.touch s _ h rid (fun l => { l with errorHandled := handled })
      (fun l => ⟨rfl, fun hsound => hsound.same rfl rfl rfl rfl⟩) rfl (fun _ hr => hr) rfl hsame rfl
  | @posts rid count name rest hloop =>
    refine @Latest.touch s _ h rid (Listener.post name count) (fun l => ⟨rfl, Listener.Sound.post⟩) rfl
      (fun _ hr => hr) rfl (fun other rest' handling heq => ?_) rfl
    obtain ⟨rfl, rfl, -⟩ := Loop.delivering.inj heq
    exact ⟨_, hloop⟩
  | @handled rid rest hloop =>
    refine h.same rfl rfl (fun _ hr => hr) (fun _ hp => hp) fun other rest' handling heq => ?_
    obtain ⟨rfl, rfl, -⟩ := Loop.delivering.inj heq
    exact ⟨.post, hloop⟩
  | @rearm rid l epb hloop hl hbuild =>
    refine ⟨h.bounded, h.sound, fun r epb' x hr hx => ?_, h.packets, nofun⟩
    rcases @mem_requests s _ (.rearm rid epb) _ hr rfl rfl with hr | hr
    · obtain ⟨rfl, rfl⟩ := Prod.mk.inj (Option.some.inj hr)
      obtain rfl := Option.some.inj (hl.symm.trans hx)
      exact hbuild
    · exact h.requests r epb' x hr hx

end Latest

/-! ### What the handlers are told -/

/-- The report whose `'post'` is still to come. -/
def Loop.unposted (rid : Nat) : Loop → List (Text × Nat)
  | .delivering r _ (.named name count) => if r = rid then [(name, count)] else []
  | _ => []

/-- `'post'` follows each report, and is not the name of one. -/
structure Telling (s : Channel) : Prop where
  starting : ∀ names ∈ s.starting, postEvent ∉ names
  names : ∀ (rid : Nat) (l : Listener), s.listeners[rid]? = some l → postEvent ∉ l.counts.names
  posts : ∀ (rid : Nat) (l : Listener), s.listeners[rid]? = some l →
    postsOf l.emitted ++ s.loop.unposted rid = namedOf l.emitted

section Telling

variable {s s' : Channel}

theorem Telling.same (h : Telling s) (hstarting : ∀ names ∈ s'.starting, names ∈ s.starting)
    (hlisteners : s'.listeners = s.listeners)
    (hloop : ∀ rid, s'.loop.unposted rid = s.loop.unposted rid) : Telling s' := by
  refine ⟨fun names hnames => h.starting names (hstarting names hnames), ?_, fun rid l hl => ?_⟩
  · rw [hlisteners]
    exact h.names
  · rw [hloop]
    exact h.posts rid l (hlisteners ▸ hl)

/-- A listener changes, and the read loop with it. -/
theorem Telling.touch (h : Telling s) {rid : Nat} {f : Listener → Listener}
    (hlisteners : s'.listeners = s.listeners.modify rid f) (hstarting : s'.starting = s.starting)
    (hnames : ∀ l, s.listeners[rid]? = some l → Counts.names (f l).counts = l.counts.names)
    (hposts : ∀ l, s.listeners[rid]? = some l → postsOf (f l).emitted ++ s'.loop.unposted rid =
      namedOf (f l).emitted)
    (hother : ∀ r, r ≠ rid → s'.loop.unposted r = s.loop.unposted r) : Telling s' := by
  refine ⟨hstarting ▸ h.starting, fun r x hx => ?_, fun r x hx => ?_⟩
  all_goals
    rw [hlisteners] at hx
    obtain ⟨y, hy, rfl⟩ := get_modify hx
    by_cases hr : rid = r
    · subst hr
      rw [if_pos rfl]
      first
        | rw [hnames y hy]
          exact h.names rid y hy
        | exact hposts y hy
    · rw [if_neg hr]
      first
        | exact h.names r y hy
        | rw [hother r (Ne.symm hr)]
          exact h.posts r y hy

theorem unposted_other {loop : Loop} {rid r : Nat} {rest : Counts} {handling : Handling}
    (h : loop = .delivering rid rest handling) (hne : r ≠ rid) : loop.unposted r = [] := by
  rw [h]
  cases handling with
  | idle => rfl
  | named name count => exact if_neg (Ne.symm hne)
  | post => rfl

theorem Telling.moves (h : Telling s) (hopened : Opened s)
    (hflights : Flights s.returned s.inFlight s.listeners.length s.loop) (htokens : Tokens s)
    (hlatest : Latest s) (hm : Moves s s') : Telling s' := by
  cases hm with
  | @subscribe names _ hplain =>
    refine ⟨fun other hother => ?_, h.names, h.posts⟩
    rcases List.mem_append.mp hother with hother | hother
    · exact h.starting other hother
    · rw [List.mem_singleton.mp hother]
      exact fun hpost => (hplain postEvent hpost).2 rfl
  | @registered i names epb hi _ _ =>
    have hnew : ∀ {rid : Nat} {x : Listener}, (s.listeners ++ [Channel.newListener names])[rid]? = some x →
        s.listeners[rid]? = some x ∨ rid = s.listeners.length ∧ x = Channel.newListener names := by
      intro rid x hx
      rcases Nat.lt_trichotomy rid s.listeners.length with hlt | heq | hgt
      · rw [List.getElem?_append_left hlt] at hx
        exact .inl hx
      · rw [heq, List.getElem?_concat_length] at hx
        exact .inr ⟨heq, (Option.some.inj hx).symm⟩
      · have hlength := (List.getElem?_eq_some_iff.mp hx).1
        rw [List.length_append, List.length_singleton] at hlength
        omega
    refine ⟨fun other hother => h.starting other (List.mem_of_mem_eraseIdx hother), fun rid x hx => ?_,
      fun rid x hx => ?_⟩
    · rcases hnew hx with hx | ⟨-, rfl⟩
      · exact h.names rid x hx
      · exact fun hpost => h.starting names (List.mem_of_getElem? hi) (newListener_names _ hpost)
    · rcases hnew hx with hx | ⟨rfl, rfl⟩
      · exact h.posts rid x hx
      · have hnone : s.loop.unposted s.listeners.length = [] := by
          cases hloop : s.loop with
          | delivering rid rest handling =>
            have hlt := hopened.known rid (htokens.delivering rid rest handling hloop)
            exact unposted_other rfl (Nat.ne_of_gt hlt)
          | reading => rfl
          | rearming _ => rfl
          | ended => rfl
        show [] ++ s.loop.unposted s.listeners.length = []
        rw [hnone]
        rfl
  | again _ => exact h.same (fun _ hnames => hnames) rfl fun _ => rfl
  | @close rid l hl _ _ =>
    exact @Telling.touch s _ h rid (fun l => { l with closed := true }) rfl rfl (fun _ _ => rfl)
      (fun l hl => h.posts rid l hl) fun _ _ => rfl
  | @write op waiting _ _ =>
    cases op with
    | arm rid epb => exact h.same (fun _ hnames => hnames) rfl fun _ => rfl
    | rearm rid epb => exact h.same (fun _ hnames => hnames) rfl fun _ => rfl
    | cancel rid => exact h.same (fun _ hnames => hnames) rfl fun _ => rfl
  | answer _ => exact h.same (fun _ hnames => hnames) rfl fun _ => rfl
  | @resume i op hop _ =>
    cases op with
    | arm rid epb => exact h.same (fun _ hnames => hnames) rfl fun _ => rfl
    | cancel rid => exact h.same (fun _ hnames => hnames) rfl fun _ => rfl
    | rearm rid epb =>
      refine h.same (fun _ hnames => hnames) rfl fun _ => ?_
      rw [hflights.waits hop]
      show Loop.unposted _ (if s.closed then .ended else .reading) = _
      split
      · rfl
      · rfl
  | post _ => exact h.same (fun _ hnames => hnames) rfl fun _ => rfl
  | fire _ _ => exact h.same (fun _ hnames => hnames) rfl fun _ => rfl
  | ended hloop => exact h.same (fun _ hnames => hnames) rfl fun _ => by rw [hloop]; rfl
  | received hloop _ _ _ => exact h.same (fun _ hnames => hnames) rfl fun _ => by rw [hloop]; rfl
  | ignored _ _ _ => exact h.same (fun _ hnames => hnames) rfl fun _ => rfl
  | @deliver rid count name rest l handling hloop hl hdeliver =>
    have hname : name ∈ l.counts.names :=
      (hlatest.delivering rid _ .idle l hloop hl).names (name, count) List.mem_cons_self
    refine @Telling.touch s _ h rid (fun l => (l.deliver name count).1) rfl rfl (fun y hy => ?_)
      (fun y hy => ?_) fun r hr => ?_
    · obtain rfl := Option.some.inj (hl.symm.trans hy)
      rw [(Listener.deliver_counts l name count).1, Counts.names_set hname]
    · obtain rfl := Option.some.inj (hl.symm.trans hy)
      have hposts := h.posts rid l hl
      rw [hloop] at hposts
      have hall : postsOf l.emitted = namedOf l.emitted := (List.append_nil _).symm.trans hposts
      rcases Listener.deliver_emitted hdeliver with ⟨rfl, hemitted⟩ | ⟨rfl, hemitted⟩
      · rw [hemitted]
        exact hposts
      · rw [hemitted, postsOf_append, namedOf_append, hall]
        show namedOf l.emitted ++ [] ++ (if rid = rid then [(name, count)] else []) = _
        rw [if_pos rfl, List.append_nil]
        rfl
    · rw [unposted_other hloop hr]
      exact unposted_other rfl hr
  | @handleError rid handled =>
    exact @Telling.touch s _ h rid (fun l => { l with errorHandled := handled }) rfl rfl (fun _ _ => rfl)
      (fun l hl => h.posts rid l hl) fun _ _ => rfl
  | @posts rid count name rest hloop =>
    refine @Telling.touch s _ h rid (Listener.post name count) rfl rfl (fun _ _ => rfl) (fun l hl => ?_)
      fun r hr => ?_
    · have hposts := h.posts rid l hl
      rw [hloop] at hposts
      replace hposts : postsOf l.emitted ++ (if rid = rid then [(name, count)] else []) = _ := hposts
      rw [if_pos rfl] at hposts
      show postsOf (l.emitted ++ [.post name count]) ++ [] = namedOf (l.emitted ++ [.post name count])
      rw [postsOf_append, namedOf_append, ← hposts, List.append_nil]
      exact (List.append_nil _).symm
    · rw [unposted_other hloop hr]
      exact unposted_other rfl hr
  | handled hloop => exact h.same (fun _ hnames => hnames) rfl fun _ => by rw [hloop]; rfl
  | rearm hloop _ _ => exact h.same (fun _ hnames => hnames) rfl fun _ => by rw [hloop]; rfl

theorem heard_named {name : Text} (hname : name ≠ postEvent) (emitted : List Emission) :
    (emitted.filterMap fun e => if e.event = name then some e.args else none) =
      (valuesOf name (namedOf emitted)).map fun count => (none, count) := by
  induction emitted with
  | nil => rfl
  | cons e emitted ih =>
    rw [List.filterMap_cons, ih]
    cases e with
    | named other count =>
      have hhead : namedOf (.named other count :: emitted) = (other, count) :: namedOf emitted := rfl
      rw [hhead, valuesOf, valuesOf, List.filterMap_cons]
      by_cases heq : other = name
      · simp [Emission.event, Emission.args, heq]
      · simp [Emission.event, heq]
    | post other count =>
      have hhead : namedOf (.post other count :: emitted) = namedOf emitted := rfl
      rw [hhead]
      simp [Emission.event, Ne.symm hname]

theorem heard_post {emitted : List Emission} (h : ∀ entry ∈ namedOf emitted, entry.1 ≠ postEvent) :
    (emitted.filterMap fun e => if e.event = postEvent then some e.args else none) =
      (postsOf emitted).map fun entry => (some entry.1, entry.2) := by
  induction emitted with
  | nil => rfl
  | cons e emitted ih =>
    rw [List.filterMap_cons]
    cases e with
    | named other count =>
      have hother : other ≠ postEvent := h (other, count) List.mem_cons_self
      have hrest := ih fun entry hentry => h entry (List.mem_cons_of_mem _ hentry)
      have hhead : postsOf (.named other count :: emitted) = postsOf emitted := rfl
      rw [hrest, hhead]
      simp [Emission.event, hother]
    | post other count =>
      have hhead : postsOf (.post other count :: emitted) = (other, count) :: postsOf emitted := rfl
      rw [ih h, hhead]
      simp [Emission.event, Emission.args]

theorem named_of_values (name : Text) (told : List (Text × Nat)) :
    (told.map fun entry => (some entry.1, entry.2)).filter (·.1 = some name) =
      (valuesOf name told).map fun count => (some name, count) := by
  induction told with
  | nil => rfl
  | cons entry told ih =>
    rw [List.map_cons, List.filter_cons, ih, valuesOf, valuesOf, List.filterMap_cons]
    by_cases heq : entry.1 = name
    · simp [heq]
    · simp [heq]

theorem Listener.Sound.reports {l : Listener} (h : l.Sound) : Reported l where
  latest := h.latest
  rising := h.rising
  heard name hname := by
    rw [← h.emitted name]
    exact heard_named hname l.emitted
  strict name := increases_strict (h.rising name)

theorem Telling.posted {rid : Nat} {l : Listener} (h : Telling s) (hsound : l.Sound)
    (hl : s.listeners[rid]? = some l)
    (hidle : ∀ rest name count, s.loop ≠ .delivering rid rest (.named name count)) : Posted l := by
  have hnone : s.loop.unposted rid = [] := by
    cases hloop : s.loop with
    | delivering r rest handling =>
      cases handling with
      | named name count =>
        refine if_neg fun heq => hidle rest name count ?_
        rw [hloop, heq]
      | idle => rfl
      | post => rfl
    | reading => rfl
    | rearming _ => rfl
    | ended => rfl
  have hposts := h.posts rid l hl
  rw [hnone, List.append_nil] at hposts
  have hheard : l.heard postEvent = (namedOf l.emitted).map fun entry => (some entry.1, entry.2) := by
    rw [← hposts]
    exact heard_post fun entry hentry heq => h.names rid l hl (heq ▸ hsound.known entry hentry)
  refine ⟨fun args hargs => ?_, fun name => ?_⟩
  · rw [hheard] at hargs
    obtain ⟨entry, -, rfl⟩ := List.mem_map.mp hargs
    exact Option.some_ne_none _
  · rw [hheard, named_of_values, hsound.emitted]

end Telling

/-! ### Runs -/

/-- What runs keep. -/
structure Inv (s : Channel) : Prop where
  opened : Opened s
  flights : Flights s.returned s.inFlight s.listeners.length s.loop
  requests : Requests s
  tokens : Tokens s
  latest : Latest s
  telling : Telling s

section Runs

variable {s s' : Channel}

theorem Inv.moves (h : Inv s) (hm : Moves s s') : Inv s' where
  opened := h.opened.moves hm
  flights := h.flights.moves hm
  requests := h.requests.moves h.opened h.tokens.delivering hm
  tokens := h.tokens.moves h.opened h.flights h.requests hm
  latest := h.latest.moves h.opened h.tokens h.opened.plain hm
  telling := h.telling.moves h.opened h.flights h.tokens h.latest hm

theorem Inv.init (h : machine.init s) : Inv s := by
  obtain ⟨posted, hposted, rfl⟩ := h
  have hbounded : ∀ name, Counts.get posted name < 2 ^ 32 := by
    intro name
    rw [Counts.get]
    cases hlookup : posted.lookup name with
    | none => exact Nat.two_pow_pos 32
    | some count =>
      obtain ⟨front, back, rfl, -⟩ := List.lookup_eq_some_iff.mp hlookup
      exact hposted (name, count) (List.mem_append.mpr (.inr List.mem_cons_self))
  have hflight : ({ posted := posted } : Channel).inFlight = [] := rfl
  have hhistory : ({ posted := posted } : Channel).history = [] := rfl
  have htokens : ({ posted := posted } : Channel).tokens = [] := rfl
  refine ⟨⟨List.nodup_nil, by simp, by simp, by simp, by simp⟩,
    ⟨List.nodup_nil, by simp [hflight], rfl⟩,
    ⟨by simp [hhistory], by simp, by simp, ?_⟩, ⟨by simp [htokens], by simp [htokens], by simp⟩,
    ⟨hbounded, by simp, by simp, by simp, by simp⟩, ⟨by simp, by simp, by simp⟩⟩
  rintro rid (hrid | hrid | hrid)
  · cases hrid
  · cases hrid
  · cases hrid

/-- A listener that is still registered can always be armed. -/
theorem Inv.builds (h : Inv s) {rid : Nat} {l : Listener} (hl : s.listeners[rid]? = some l) :
    ∃ epb, buildEpb l.counts = .ok epb :=
  buildEpb_ok (h.latest.sound rid l hl).1.valid.plain

theorem Opened.not_closed (h : Opened s) (hne : s.subs ≠ [] ∨ s.starting ≠ []) : s.closed = false := by
  cases hclosed : s.closed with
  | false => rfl
  | true =>
    obtain ⟨hsubs, hstarting⟩ := h.closed hclosed
    rcases hne with hne | hne
    · exact absurd hsubs hne
    · exact absurd hstarting hne

theorem moves_of_step {e : Event} (h : Inv s) (hgood : Good s e) (hstep : s.step e = some s') :
    Moves s s' := by
  cases e with
  | subscribe names =>
    rw [Channel.step] at hstep
    split at hstep
    · rename_i hcond
      obtain rfl := Option.some.inj hstep
      simp only [Bool.and_eq_true, Bool.not_eq_true'] at hcond
      exact .subscribe hcond.1.2 hgood
    · cases hstep
  | registered i =>
    rw [Channel.step] at hstep
    split at hstep
    · obtain ⟨names, hi, rfl⟩ := Option.map_eq_some_iff.mp hstep
      have hmem : names ∈ s.starting := List.mem_of_getElem? hi
      have hopen : s.closed = false := h.opened.not_closed (.inr (List.ne_nil_of_mem hmem))
      have hsound : (Channel.newListener names).Sound := newListener_sound (h.opened.plain names hmem)
      obtain ⟨epb, hbuild⟩ := buildEpb_ok hsound.valid.plain
      have hmoves := Moves.registered hi hbuild hopen
      simp only [Channel.registered, Channel.queEvents, hopen, hbuild]
      rw [hopen] at hmoves
      exact hmoves
    · cases hstep
  | close rid =>
    rw [Channel.step] at hstep
    split at hstep
    · obtain ⟨l, hl, rfl⟩ := Option.map_eq_some_iff.mp hstep
      rw [Channel.close]
      split
      · rename_i hclosed
        exact .again (hgood.2 l hl hclosed)
      · rename_i hopen
        have hsub : rid ∈ s.subs := (h.opened.open_iff rid l hl).mp (Bool.not_eq_true _ ▸ hopen)
        have hmoves := Moves.close hl hsub hgood.1
        dsimp only [Channel.update]
        rw [if_pos hsub]
        exact hmoves
    · cases hstep
  | write =>
    rw [Channel.step] at hstep
    split at hstep
    · rename_i op waiting _ hrunning hwaiting
      obtain rfl := Option.some.inj hstep
      exact .write hrunning hwaiting
    · cases hstep
  | answer =>
    rw [Channel.step] at hstep
    split at hstep
    · rename_i op _ hrunning
      obtain rfl := Option.some.inj hstep
      exact .answer hrunning
    · cases hstep
  | resume i =>
    rw [Channel.step] at hstep
    split at hstep
    · obtain ⟨op, hop, rfl⟩ := Option.map_eq_some_iff.mp hstep
      refine .resume hop fun rid hcancel => ?_
      subst hcancel
      exact hgood rid hop
    · cases hstep
  | post name =>
    obtain rfl := Option.some.inj hstep
    rw [Nat.mod_eq_of_lt hgood]
    exact .post hgood
  | fire i =>
    rw [Channel.step] at hstep
    obtain ⟨⟨rid, epb⟩, hi, hstep⟩ := Option.bind_eq_some_iff.mp hstep
    split at hstep
    · rename_i packet hpacket
      obtain rfl := Option.some.inj hstep
      exact .fire hi hpacket
    · cases hstep
  | receive =>
    rw [Channel.step] at hstep
    split at hstep
    · rename_i packets hloop
      split at hstep
      · obtain rfl := Option.some.inj hstep
        exact .ended hloop
      · split at hstep
        · rename_i rid epb packets hpackets
          obtain rfl := Option.some.inj hstep
          rw [Channel.received]
          split
          · rename_i hsub
            have hlt : rid < s.listeners.length := h.opened.known rid hsub
            have hmem : (rid, epb) ∈ s.packets := hpackets ▸ List.mem_cons_self
            obtain ⟨counts, hparse, -⟩ :=
              h.latest.packets rid epb _ hmem (List.getElem?_eq_getElem hlt)
            rw [hparse]
            exact .received hloop hpackets hsub hparse
          · rename_i hnot
            exact .ignored hloop hpackets hnot
        · cases hstep
    · cases hstep
  | deliver =>
    rw [Channel.step] at hstep
    split at hstep
    · rename_i rid name count rest hloop
      obtain ⟨l, hl, rfl⟩ := Option.map_eq_some_iff.mp hstep
      have herror : name = errorEvent → name ∈ l.baselined → l.counts.get name < count →
          l.errorHandled = true := by
        rintro rfl
        exact hgood rid count rest l hloop hl
      obtain ⟨handling, hdeliver⟩ := Listener.deliver_handled herror
      rw [hdeliver]
      exact .deliver hloop hl hdeliver
    · cases hstep
  | handleError rid handled =>
    rw [Channel.step] at hstep
    split at hstep
    · obtain rfl := Option.some.inj hstep
      exact .handleError
    · cases hstep
  | handled =>
    rw [Channel.step] at hstep
    split at hstep
    · rename_i rid rest name count hloop
      obtain rfl := Option.some.inj hstep
      exact .posts hloop
    · rename_i rid rest hloop
      obtain rfl := Option.some.inj hstep
      exact .handled hloop
    · cases hstep
  | thrown => exact hgood.elim
  | rearm =>
    rw [Channel.step] at hstep
    split at hstep
    · rename_i rid hloop
      obtain ⟨l, hl, rfl⟩ := Option.map_eq_some_iff.mp hstep
      have hsub : rid ∈ s.subs := h.tokens.delivering rid [] .idle hloop
      have hopen : s.closed = false := h.opened.not_closed (.inl (List.ne_nil_of_mem hsub))
      obtain ⟨epb, hbuild⟩ := h.builds hl
      have hmoves := Moves.rearm hloop hl hbuild
      simp only [Channel.rearmed, Channel.queEvents, hopen, hbuild]
      rw [hopen] at hmoves
      exact hmoves
    · cases hstep

theorem only_request {armed : List (Nat × Bytes)} {rid : Nat} (h : (armed.map Prod.fst).count rid = 1) :
    ∃ epb, armed.filter (·.1 = rid) = [(rid, epb)] := by
  have hlength : (armed.filter (·.1 = rid)).length = 1 := by
    rw [← List.countP_eq_length_filter, ← h, List.count, List.countP_map]
    apply List.countP_congr
    intro a _
    simp
  obtain ⟨⟨r, epb⟩, hone⟩ := List.length_eq_one_iff.mp hlength
  have hmem : (r, epb) ∈ armed.filter (·.1 = rid) := hone ▸ List.mem_cons_self
  have hrid : r = rid := of_decide_eq_true (List.mem_filter.mp hmem).2
  exact ⟨epb, hrid ▸ hone⟩

theorem Inv.armed (h : Inv s) : Armed s := by
  refine ⟨fun rid hrid => ?_, fun rid l hl hreturned hopen hidle => ?_, fun l hl => ?_,
    fun rid l hl hidle => h.telling.posted (h.latest.sound rid l hl).1 hl hidle⟩
  · obtain ⟨hlt, hnot, hwait⟩ := h.requests.done rid (.inl hrid)
    obtain ⟨before, hbefore, -⟩ := h.requests.closed rid hlt hnot
    have hnone : (s.waiting.map Op.request).filter (·.rid = rid) = [] := by
      apply List.filter_eq_nil_iff.mpr
      intro r hr heq
      obtain ⟨op, hop, rfl⟩ := List.mem_map.mp hr
      exact hwait op hop (of_decide_eq_true heq)
    rw [Channel.history, List.filter_append, hnone, List.append_nil] at hbefore
    rw [lastRequest, hbefore, List.getLast?_concat]
  · have hsub : rid ∈ s.subs := (h.opened.open_iff rid l hl).mp hopen
    have hone := h.tokens.one rid hsub
    -- no packet, no delivery and no request that waits
    have hpackets : (s.packets.map Prod.fst).count rid = 0 := by
      apply List.count_eq_zero.mpr
      intro hmem
      obtain ⟨⟨r, epb⟩, hp, rfl⟩ := List.mem_map.mp hmem
      exact hidle (.inl ⟨epb, hp⟩)
    have hloop : s.loop.deliveringRid.count rid = 0 := by
      apply List.count_eq_zero.mpr
      intro hmem
      obtain ⟨rest, handling, hdelivering⟩ := delivering_of_mem hmem
      exact hidle (.inr (.inl ⟨rest, handling, hdelivering⟩))
    have hwaiting : ((s.waiting.filterMap Op.que).map Prod.fst).count rid = 0 := by
      apply List.count_eq_zero.mpr
      intro hmem
      obtain ⟨⟨r, epb⟩, hp, rfl⟩ := List.mem_map.mp hmem
      obtain ⟨op, hop, hque⟩ := List.mem_filterMap.mp hp
      have hflight : op ∈ s.inFlight :=
        List.mem_append.mpr (.inr (List.mem_append.mpr (.inr hop)))
      cases op with
      | arm r' epb' =>
        obtain ⟨rfl, rfl⟩ := Prod.mk.inj (Option.some.inj hque)
        have hmem : r' ∈ s.inFlight.filterMap Op.armRid := List.mem_filterMap.mpr ⟨_, hflight, rfl⟩
        exact (List.nodup_append.mp h.flights.arms).2.2 r' hreturned r' hmem rfl
      | rearm r' epb' =>
        obtain ⟨rfl, rfl⟩ := Prod.mk.inj (Option.some.inj hque)
        have hmem : r' ∈ s.inFlight.filterMap Op.rearmRid := List.mem_filterMap.mpr ⟨_, hflight, rfl⟩
        rw [h.flights.rearms] at hmem
        exact hidle (.inr (.inr (rearming_of_mem hmem)))
      | cancel r' => cases hque
    rw [count_tokens, hpackets, hloop, hwaiting] at hone
    obtain ⟨epb, hepb⟩ := only_request (show (s.armed.map Prod.fst).count rid = 1 by omega)
    have hmem : (rid, epb) ∈ s.armed.filter (·.1 = rid) := hepb ▸ List.mem_cons_self
    have hrequest : (rid, epb) ∈ s.requests := List.mem_append.mpr (.inr (List.mem_filter.mp hmem).1)
    exact ⟨epb, h.latest.requests rid epb l hrequest hl, hepb⟩
  · obtain ⟨rid, hrid⟩ := List.mem_iff_getElem?.mp hl
    exact (h.latest.sound rid l hrid).1.reports

theorem Inv.reachable (h : machine.Reachable Good s) : Inv s :=
  h.invariant Inv (fun _ => Inv.init) fun _ _ _ hinv hgood hstep => hinv.moves (moves_of_step hinv hgood hstep)

end Runs

/-- Subscriptions are armed while they are open. -/
theorem reachable_armed (s : Channel) (h : machine.Reachable Good s) : Armed s :=
  (Inv.reachable h).armed

/-- A listener is told of two events, one of them called `error`, and closed behind that. -/
theorem reachable_armed_closed : ∃ s, machine.Reachable Good s ∧ s.completed = [0] ∧
    (∃ l, s.listeners[0]? = some l ∧ l.emitted = [.named errorEvent 1, .post errorEvent 1]) ∧ Armed s := by
  have hplain : ∀ name ∈ [['a'], errorEvent], Plain name ∧ name ≠ postEvent := by
    have hlatin1 : ∀ name ∈ [['a'], errorEvent], (name.all fun c => decide (c.toNat < 256)) = true := by
      decide
    have hshort : ∀ name ∈ [['a'], errorEvent], name.length ≤ maxEventName ∧ name ≠ postEvent := by decide
    exact fun name hname => ⟨⟨fun c hc => of_decide_eq_true (List.all_eq_true.mp (hlatin1 name hname) c hc),
      (hshort name hname).1⟩, (hshort name hname).2⟩
  have hquiet : ∀ {s : Channel}, (∀ l ∈ s.listeners, l.errorHandled = true) → Good s .deliver :=
    fun h _ _ _ l _ hl _ _ => h l (List.mem_of_getElem? hl)
  have hinit : machine.Reachable Good {} := .init ⟨[], nofun, rfl⟩
  have hopened := ((((hinit.step (e := Event.subscribe [['a'], errorEvent]) hplain rfl).step
    (e := Event.registered 0) trivial rfl).step (e := Event.write) trivial rfl).step (e := Event.answer) trivial
    rfl).step (e := Event.resume 0) nofun rfl
  have hhandled := hopened.step (e := Event.handleError 0 true) trivial rfl
  have hfired := (hhandled.step (e := Event.fire 0) trivial rfl).step (e := Event.receive) trivial rfl
  have hsilent := (hfired.step (e := Event.deliver) (hquiet (by decide)) rfl).step (e := Event.deliver)
    (hquiet (by decide)) rfl
  have hrearmed := (((hsilent.step (e := Event.rearm) trivial rfl).step (e := Event.write) trivial rfl).step
    (e := Event.answer) trivial rfl).step (e := Event.resume 0) nofun rfl
  have hposted := ((hrearmed.step (e := Event.post errorEvent) (show 0 + 1 < 2 ^ 32 by decide) rfl).step
    (e := Event.fire 0) trivial rfl).step (e := Event.receive) trivial rfl
  have htold := (((hposted.step (e := Event.deliver) (hquiet (by decide)) rfl).step (e := Event.deliver)
    (hquiet (by decide)) rfl).step (e := Event.handled) trivial rfl).step (e := Event.handled) trivial rfl
  have hagain := (((htold.step (e := Event.rearm) trivial rfl).step (e := Event.write) trivial rfl).step
    (e := Event.answer) trivial rfl).step (e := Event.resume 0) nofun rfl
  have hclosing := ((hagain.step (e := Event.close 0) ⟨nofun, nofun⟩ rfl).step (e := Event.write) trivial
    rfl).step (e := Event.answer) trivial rfl
  have hclosed := hclosing.step (e := Event.resume 0) (fun _ _ _ => rfl) rfl
  exact ⟨_, hclosed, rfl, ⟨_, rfl, rfl⟩, reachable_armed _ hclosed⟩

/-- A listener that is closed in its handler is armed again after its cancel. -/
theorem armed_after_cancel : ¬ ∀ s, machine.Reachable (fun _ _ => True) s → Armed s := by
  intro hall
  have hinit : machine.Reachable (fun _ _ => True) {} := .init ⟨[], nofun, rfl⟩
  have hreachable := hinit.run (show machine.run {} [.subscribe [['a']], .registered 0, .write, .answer,
    .resume 0, .fire 0, .receive, .deliver, .rearm, .write, .answer, .resume 0, .post ['a'], .fire 0,
    .receive, .deliver, .close 0, .handled, .handled, .rearm, .write, .answer, .resume 0, .write] =
      some _ from rfl)
  have hcancelled := (hall _ hreachable).cancelled 0 List.mem_cons_self
  exact absurd hcancelled (by decide)

/-- An open listener for `error` that is told of it and not armed again, as nobody handles `'error'`. -/
theorem unarmed_after_error : ∃ s l, machine.Reachable (fun _ _ => True) s ∧ s.listeners[0]? = some l ∧
    l.closed = false ∧ s.returned = [0] ∧ ¬ s.Processing 0 ∧ s.armed = [] ∧ l.emitted = [] := by
  have hinit : machine.Reachable (fun _ _ => True) {} := .init ⟨[], nofun, rfl⟩
  have hreachable := hinit.run (show machine.run {} [.subscribe [errorEvent], .registered 0, .write, .answer,
    .resume 0, .fire 0, .receive, .deliver, .rearm, .write, .answer, .resume 0, .post errorEvent, .fire 0,
    .receive, .deliver] = some _ from rfl)
  refine ⟨_, _, hreachable, rfl, rfl, rfl, ?_, rfl, rfl⟩
  rintro (⟨epb, hpacket⟩ | ⟨rest, handling, hloop⟩ | hloop)
  · cases hpacket
  · cases hloop
  · cases hloop

end FastFirebird.Events
