import FastFirebird.WireRead
import FastFirebird.Statement

/-! The answers and the cache clears that a connection stays in step through. -/
namespace FastFirebird

def Answer.refused : Answer → Bool
  | .reply r => !r.isOk
  | .singleton (.plain r) => !r.isOk
  | .singleton (.row _ final) => !final.isOk
  | .rows _ => false
  | .batch (.completed _) => false
  | .batch (.refused _) => true

def decodes (readers : List ColumnReader) (cells : RowAnswer) : Bool :=
  match decodeRow readers (rowCells readers.length cells) with
  | .ok _ => true
  | .error _ => false

/-- No row of the answer makes a column reader throw. -/
def Answer.decodes (readers : List ColumnReader) : Answer → Bool
  | .rows a => a.rows.all (FastFirebird.decodes readers)
  | .singleton (.row (some cells) _) => FastFirebird.decodes readers cells
  | _ => true

/-- Request `n` was answered with an error. -/
def refusedIn (n : Nat) : List Event → Bool
  | [] => false
  | .sent m _ _ _ answer :: log => if m = n then answer.refused else refusedIn n log
  | _ :: log => refusedIn n log

/-- What the client makes no provision for, in the answer to one request. -/
def Request.tolerates (req : Request) (answer : Answer) (log : List Event) : Bool :=
  match req with
  | .allocateStatement _ => !answer.refused
  | .execute2 stmt _ _ => answer.decodes stmt.columnReaders
  | .fetch stmt _ behind =>
    answer.decodes stmt.columnReaders && behind.all fun n => !refusedIn n log
  | .infoSql _ behind => behind.all fun n => !refusedIn n log || !answer.refused
  | .batchCreate _ | .batchRegblob _ _ | .batchMsg _ _ => !answer.refused
  | _ => true

/-- Against the history before it. A deferred request must succeed, a clear from
outside the op-lock must find nothing to free or nothing to wait for. -/
def Event.harmless (log : List Event) : Event → Bool
  | .sent _ _ deferred req answer =>
    (!deferred || !answer.refused) && req.tolerates answer log
  | .cleared entries deferredResponses owed => entries == 0 || drainable deferredResponses owed
  | _ => true

def Clean : List Event → Prop
  | [] => True
  | e :: log => e.harmless log ∧ Clean log

instance decidableClean : (log : List Event) → Decidable (Clean log)
  | [] => isTrue trivial
  | e :: log =>
    have := decidableClean log
    inferInstanceAs (Decidable (e.harmless log = true ∧ Clean log))

theorem Clean.of_suffix {log log' : List Event} (h : log <:+ log') (hc : Clean log') :
    Clean log := by
  obtain ⟨new, rfl⟩ := h
  induction new with
  | nil => exact hc
  | cons e new ih => exact ih hc.2

theorem Clean.harmless_of_suffix {e : Event} {log log' : List Event} (h : e :: log <:+ log')
    (hc : Clean log') : e.harmless log = true := (hc.of_suffix h).1

/-- An answer of one `op_response`. -/
def Request.isPlain : Request → Bool
  | .execute2 _ _ _ | .fetch _ _ _ | .batchExec _ _ => false
  | _ => true

variable {link : Link}

theorem answer_plain {server : Server} {req : Request} (h : req.isPlain = true) (n : Nat) :
    server.answer req n = .reply (server.reply req n) := by
  cases req <;> first | rfl | simp [Request.isPlain] at h

/-- Numbered and stamped, as the reader sees them. -/
def stamp (n turn : Nat) (bodies : List Body) : List Packet := bodies.map fun body => ⟨n, turn, body⟩

@[simp] theorem stamp_nil (n turn : Nat) : stamp n turn [] = [] := rfl

@[simp] theorem stamp_cons (n turn : Nat) (body : Body) (bodies : List Body) :
    stamp n turn (body :: bodies) = ⟨n, turn, body⟩ :: stamp n turn bodies := rfl

@[simp] theorem stamp_append (n turn : Nat) (bodies bodies' : List Body) :
    stamp n turn (bodies ++ bodies') = stamp n turn bodies ++ stamp n turn bodies' :=
  List.map_append

theorem packets_plain {server : Server} {req : Request} (h : req.isPlain = true) (n turn : Nat) :
    server.packets req n turn =
      stamp n turn ((server.volunteers n 0).map .volunteer) ++
        [⟨n, turn, .response (server.reply req n)⟩] := by
  simp [Server.packets, answer_plain h, Answer.messages, interleave, stamp]

theorem stamp_volunteered {n turn : Nat} {vs : List Volunteer} :
    ∀ v ∈ stamp n turn (vs.map .volunteer), v.Volunteered := by
  intro p hp
  simp only [stamp, List.map_map, List.mem_map, Function.comp] at hp
  obtain ⟨v, -, rfl⟩ := hp
  exact ⟨v, rfl⟩

theorem packets_request {server : Server} {req : Request} {n turn : Nat} {p : Packet}
    (hp : p ∈ server.packets req n turn) : p.request = n := by
  obtain ⟨body, _, rfl⟩ := List.mem_map.mp hp
  rfl

theorem drainable_volunteered {vs : List Packet} (hvs : ∀ v ∈ vs, v.Volunteered) (d : Nat)
    (l : List Packet) : drainable d (vs ++ l) = drainable d l := by
  induction vs with
  | nil => rfl
  | cons v vs ih =>
    obtain ⟨w, hw⟩ := hvs v List.mem_cons_self
    simp only [List.cons_append, drainable, hw]
    exact ih fun v hv => hvs v (List.mem_cons_of_mem _ hv)

/-- A plain answer can be left to the drain if, and only if, it is not an error. -/
theorem drainable_packets_plain {server : Server} {req : Request} (h : req.isPlain = true)
    (n turn : Nat) :
    drainable 1 (server.packets req n turn) = (server.reply req n).isOk := by
  rw [packets_plain h, drainable_volunteered stamp_volunteered]
  cases server.reply req n <;> rfl

theorem Sync.sendDeferred {c : Conn} (h : Sync [] c) {req : Request} (hp : req.isPlain = true)
    (hok : (link.server.answer req c.requests).refused = false) :
    Sync [] (c.sendDeferred link req) := by
  have hs : Sync (link.server.packets req c.requests c.turn ++ []) (c.send link true req) := by
    simpa using @Sync.send link _ _ h true req
  refine hs.markDeferred ?_ fun p hp => packets_request hp
  rw [drainable_packets_plain hp]
  simpa [answer_plain hp, Answer.refused] using hok

theorem Sync.freeAll {infos : List PreparedStatementInfo} {c : Conn} (h : Sync [] c)
    (hc : Clean (c.freeAll link infos).log) : Sync [] (c.freeAll link infos) := by
  unfold Conn.freeAll at hc ⊢
  induction infos generalizing c with
  | nil => exact h
  | cons info infos ih =>
    refine ih (h.sendDeferred rfl ?_) hc
    have hc' : Clean (c.freeStatement link info.handle .drop).log :=
      hc.of_suffix (Conn.freeAll_extends infos _)
    have hh := hc'.2.1
    simpa [Event.harmless, Request.tolerates] using hh

theorem clearCache_of_empty {c : Conn} (h : c.cachedStatements = 0) :
    (c.clearCache link).inbound = c.inbound ∧ (c.clearCache link).unflushed = c.unflushed ∧
      (c.clearCache link).deferredResponses = c.deferredResponses ∧
      (c.clearCache link).turn = c.turn ∧ (c.clearCache link).log = c.log := by
  unfold Conn.clearCache
  cases hc : c.cache with
  | none => simp
  | some cache =>
    have hm : cache.map = [] := by
      simpa [Conn.cachedStatements, hc] using h
    simp [hm, Conn.freeAll]

theorem Fifo.cleared {log : List Event} (h : Fifo log) (e d : Nat) (owed : List Packet) :
    Fifo (.cleared e d owed :: log) := h.cons (by simp) (by simp)

/-- A clear from outside the op-lock, when the history stays clean. -/
theorem Sync.clearInUse {l : List Packet} {c : Conn} (h : Sync l c) (hl : Readable l)
    (hc : Clean (c.clearInUse link).log) : Sync l (c.clearInUse link) := by
  have hn : Sync l c.noteClear := by
    obtain ⟨pre, hs, hd, hm, ho, hf⟩ := h
    exact ⟨pre, hs, hd, fun p hp hr => List.mem_cons_of_mem _ (hm p hp hr), ho, hf.cleared _ _ _⟩
  have hh := hc.harmless_of_suffix (Conn.clearCache_extends c.noteClear)
  simp only [Event.harmless, Bool.or_eq_true, beq_iff_eq] at hh
  rcases hh with he | hd
  · obtain ⟨hi, hu, hd, ht, hlog⟩ := @clearCache_of_empty link c.noteClear he
    exact hn.congr (by rw [Conn.clearInUse, hi, hu]) hd ht hlog
  · rw [sync_drainable h] at hd
    obtain rfl : l = [] := by
      rcases hl with rfl | hl
      · rfl
      · rw [hl] at hd
        exact absurd hd (by simp)
    unfold Conn.clearInUse Conn.clearCache at hc ⊢
    split
    · exact hn
    · rename_i cache hcache
      simp only [hcache] at hc
      exact (hn.freeAll hc).congr rfl rfl rfl rfl

theorem Front.clearInUse {l : List Packet} {c : Conn} (h : Front l c)
    (hl : drainable 0 l = false) (hc : Clean (c.clearInUse link).log) :
    Front l (c.clearInUse link) := by
  have hh := hc.harmless_of_suffix (Conn.clearCache_extends c.noteClear)
  simp only [Event.harmless, Bool.or_eq_true, beq_iff_eq] at hh
  rcases hh with he | hd
  · obtain ⟨hi, hu, hd, ht, hlog⟩ := @clearCache_of_empty link c.noteClear he
    refine ⟨?_, ?_, fun p hp => ?_, ?_⟩
    · rw [Conn.clearInUse, hi, hu]
      exact h.1
    · exact hd.trans h.2.1
    · exact (h.2.2.1 p hp).trans ht.symm
    · rw [Conn.clearInUse, hlog]
      exact h.2.2.2.cleared _ _ _
  · rw [sync_drainable h.sync, hl] at hd
    exact absurd hd (by simp)

/-- The wire stays in step through every clean history. -/
theorem history_clean : History link Clean where
  earlier := fun _ _ h => h.2
  await := by
    intro l c h hl hc
    have ht : Sync l c.tick := h.congr rfl rfl rfl rfl
    unfold Conn.await at hc ⊢
    split
    · rw [if_pos ‹_›] at hc
      exact ht.clearInUse hl hc
    · exact ht
  front := by
    intro l c h hl hc
    have ht : Front l c.tick := h
    unfold Conn.await at hc ⊢
    split
    · rw [if_pos ‹_›] at hc
      exact ht.clearInUse hl hc
    · exact ht

/-- A connection that the pool leaves alone while it is borrowed. -/
def Link.Undisturbed (link : Link) : Prop := ∀ k, link.clearAt k = false

theorem history_undisturbed (hu : link.Undisturbed) : History link fun _ => True where
  earlier := fun _ _ h => h
  await := by
    intro l c h _ _
    have ht : Sync l c.tick := h.congr rfl rfl rfl rfl
    simpa [Conn.await, hu c.awaits] using ht
  front := by
    intro l c h _ _
    have ht : Front l c.tick := h
    simpa [Conn.await, hu c.awaits] using ht

end FastFirebird
