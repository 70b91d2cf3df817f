import FastFirebird.Attachment

/-! Handles stay on the connection they were obtained on, whatever reconnects in between. -/
namespace FastFirebird.Attachment

/-- Every handle in the request belongs to the connection it is written on. -/
structure Request.AtHome (r : Request) : Prop where
  db : ∀ c, r.db = some c → c = r.conn
  tx : ∀ h, r.tx = some h → h.conn = r.conn
  stmt : ∀ c, r.stmt = some c → c = r.conn

def Scope.AtHome (scope : Scope) : Prop := scope.wire = scope.txHandle.conn

/-- The objects that a section finds when it begins are of the attachment's generation, and so
is the statement when `prepare` makes its object. -/
def Unmoved (s : Attachment) : Event → Prop
  | .begin => ∀ job queue, s.queue = job :: queue →
    (∀ i t, job.tx = some i → s.txs[i]? = some t → t.attGeneration = s.generation) ∧
    ∀ i p, job.stmt = some i → s.stmts[i]? = some p → p.attGeneration = s.generation
  | .resume k => ∀ conn generation,
    s.continuations[k]? = some (.construct conn generation) → generation = s.generation
  | _ => True

def reconnecting (s : Attachment) : Prop := ∃ r, s.running = some r ∧ r.job = .reconnect

/-- What is of the attachment's generation is on its connection. -/
def Tied (s : Attachment) (attGeneration conn : Nat) : Prop :=
  attGeneration ≤ s.generation ∧
    (attGeneration = s.generation → conn = s.conn ∧ ¬s.reconnecting)

structure Bound (s : Attachment) : Prop where
  txs : ∀ t ∈ s.txs, s.Tied t.attGeneration t.currentHandle.conn
  stmts : ∀ p ∈ s.stmts, s.Tied p.attGeneration p.conn
  constructs : ∀ c g, Continuation.construct c g ∈ s.continuations → s.Tied g c
  streams : ∀ scope ∈ s.streams, scope.AtHome
  blobs : ∀ b ∈ s.blobs, b.scope.AtHome
  queue : ∀ job ∈ s.queue, ∀ scope, job.captured = some scope → scope.AtHome
  scope : ∀ r, s.running = some r → ∀ scope, r.scope = some scope → scope.AtHome
  conn : ∀ r, s.running = some r → r.job.captured = none → r.request.conn = s.conn
  trace : ∀ r, Entry.wrote r ∈ s.trace → r.AtHome

variable {s s' : Attachment}

theorem Bound.enqueue (h : Bound s) {job : Job}
    (hjob : ∀ scope, job.captured = some scope → scope.AtHome) : Bound (s.enqueue job) := by
  refine ⟨h.txs, h.stmts, h.constructs, h.streams, h.blobs, fun j hj => ?_, h.scope, h.conn,
    h.trace⟩
  rcases List.mem_append.mp hj with hj | hj
  · exact h.queue j hj
  · rw [List.mem_singleton.mp hj]
    exact hjob

theorem mem_modify {α : Type} {l : List α} {i : Nat} {f : α → α} {a : α} (h : a ∈ l.modify i f) :
    a ∈ l ∨ ∃ b ∈ l, a = f b := by
  obtain ⟨k, hk⟩ := List.mem_iff_getElem?.mp h
  rw [List.getElem?_modify] at hk
  split at hk
  · obtain ⟨b, hb, rfl⟩ := Option.map_eq_some_iff.mp hk
    exact .inr ⟨b, List.mem_of_getElem? hb, rfl⟩
  · exact .inl (List.mem_of_getElem? (by simpa using hk))

/-- The objects of transactions may change in all but their handle and their generation. -/
theorem Bound.modifyTx (h : Bound s) {i : Nat} {f : Tx → Tx}
    (hf : ∀ t, s.Tied t.attGeneration t.currentHandle.conn →
      s.Tied (f t).attGeneration (f t).currentHandle.conn) : Bound (s.modifyTx i f) := by
  refine ⟨fun t ht => ?_, h.stmts, h.constructs, h.streams, h.blobs, h.queue, h.scope, h.conn,
    h.trace⟩
  rcases mem_modify ht with ht | ⟨t₀, ht₀, rfl⟩
  · exact h.txs t ht
  · exact hf t₀ (h.txs t₀ ht₀)

theorem tied_now (h : ¬s.reconnecting) : s.Tied s.generation s.conn :=
  ⟨Nat.le_refl _, fun _ => ⟨rfl, h⟩⟩

theorem Bound.at_conn (h : Bound s) {i : Nat} {t : Tx} (ht : s.txs[i]? = some t)
    (hg : t.attGeneration = s.generation) : t.currentHandle.conn = s.conn :=
  ((h.txs t (List.mem_of_getElem? ht)).2 hg).1

theorem Bound.scope_at_home (h : Bound s) {i : Nat} {t : Tx} (ht : s.txs[i]? = some t)
    (hg : t.attGeneration = s.generation) (txAlive : TxAlive) :
    (s.scope t txAlive).AtHome := (h.at_conn ht hg).symm

theorem Bound.request_at_home (h : Bound s) {job : Job}
    (hcap : ∀ scope, job.captured = some scope → scope.AtHome)
    (htx : ∀ i t, job.tx = some i → s.txs[i]? = some t → t.attGeneration = s.generation)
    (hstmt : ∀ i p, job.stmt = some i → s.stmts[i]? = some p → p.attGeneration = s.generation) :
    (s.request job).AtHome := by
  unfold request
  split
  · rename_i scope hscope
    refine ⟨fun c hc => ?_, fun t ht => ?_, fun c hc => ?_⟩
    · dsimp only at hc
      split at hc
      · exact (Option.some.inj hc).symm
      · cases hc
    · rw [← Option.some.inj ht]
      exact (hcap scope hscope).symm
    · dsimp only at hc
      split at hc
      · exact (Option.some.inj hc).symm
      · cases hc
  · refine ⟨fun c hc => ?_, fun hd hhd => ?_, fun c hc => ?_⟩
    · dsimp only at hc
      split at hc
      · exact (Option.some.inj hc).symm
      · cases hc
    · obtain ⟨i, hi, hhd⟩ := Option.bind_eq_some_iff.mp hhd
      obtain ⟨t, ht, rfl⟩ := Option.map_eq_some_iff.mp hhd
      exact h.at_conn ht (htx i t hi ht)
    · dsimp only at hc
      split at hc
      · exact (Option.some.inj hc).symm
      obtain ⟨i, hi, hc⟩ := Option.bind_eq_some_iff.mp hc
      obtain ⟨p, hp, rfl⟩ := Option.map_eq_some_iff.mp hc
      exact ((h.stmts p (List.mem_of_getElem? hp)).2 (hstmt i p hi hp)).1

/-! What leaves the handles alone -/

theorem Bound.modifyFinished (h : Bound s) (i : Nat) (finished : Bool) :
    Bound (s.modifyTx i fun t => { t with finished := finished }) :=
  h.modifyTx fun _ ht => ht

theorem Bound.finish (h : Bound s) (i : Nat) (rollback : Bool) : Bound (s.finish i rollback) := by
  apply (h.modifyFinished i true).enqueue
  intro scope hscope
  cases hscope

theorem Bound.restart (h : Bound s) (i : Nat) (t : Tx) (rollback : Bool)
    (strategy : Option TxOptions) (upgrade : Bool) :
    Bound (s.restart i t rollback strategy upgrade) := by
  unfold Attachment.restart
  split
  · exact h
  · split
    · apply (h.modifyTx (f := fun t => { t with options := strategy.getD t.options })
        fun _ ht => ht).enqueue
      intro scope hscope
      cases hscope
    · apply h.enqueue
      intro scope hscope
      cases hscope

/-- The section that held the lock is over. -/
theorem Bound.idle (h : Bound s) : Bound { s with running := none } := by
  have htied (g c : Nat) (htied : s.Tied g c) : Tied { s with running := none } g c := by
    refine ⟨htied.1, fun hg => ⟨(htied.2 hg).1, ?_⟩⟩
    rintro ⟨r, hr, -⟩
    cases hr
  refine ⟨fun t ht => htied _ _ (h.txs t ht), fun p hp => htied _ _ (h.stmts p hp),
    fun c g hc => htied _ _ (h.constructs c g hc), h.streams, h.blobs, h.queue, ?_, ?_, h.trace⟩
  · intro r hr
    cases hr
  · intro r hr
    cases hr

theorem idle_still : ¬reconnecting { s with running := none } := by
  rintro ⟨r, hr, -⟩
  cases hr

theorem mem_trace_ended {α : Type} {l : List Entry} {ended : List α} {serial : α → Nat}
    {r : Request} (h : Entry.wrote r ∈ l ++ ended.map fun x => .ended (serial x)) :
    Entry.wrote r ∈ l := by
  rcases List.mem_append.mp h with h | h
  · exact h
  · obtain ⟨x, -, hx⟩ := List.mem_map.mp h
    cases hx

theorem Bound.ended (h : Bound s) (request : Request) : Bound (s.ended request) := by
  unfold Attachment.ended
  split
  · rename_i handle _
    exact ⟨h.txs, h.stmts, h.constructs, h.streams, h.blobs, h.queue, h.scope, h.conn,
      fun r hr => h.trace r (@mem_trace_ended TxHandle _ [handle] TxHandle.serial r hr)⟩
  · exact h

theorem Bound.clearTx (h : Bound s) (i : Nat) : Bound (s.clearTx i) := by
  unfold Attachment.clearTx
  split
  · exact ⟨h.txs, h.stmts, h.constructs, h.streams, h.blobs, h.queue, h.scope, h.conn, h.trace⟩
  · exact h

theorem Bound.addBlobs (h : Bound s) {scope : Option Scope}
    (hscope : ∀ scope', scope = some scope' → scope'.AtHome) (blobs : List (Nat × Bool)) :
    Bound (s.addBlobs scope blobs) := by
  unfold Attachment.addBlobs
  split
  · rename_i scope'
    refine ⟨h.txs, h.stmts, h.constructs, h.streams, fun b hb => ?_, h.queue, h.scope, h.conn,
      h.trace⟩
    rcases List.mem_append.mp hb with hb | hb
    · exact h.blobs b hb
    · obtain ⟨x, -, rfl⟩ := List.mem_map.mp hb
      exact hscope scope' rfl
  · exact h

/-! Transactions that get their handles -/

theorem Bound.continue (h : Bound s) {k : Continuation}
    (hk : ∀ c g, k = .construct c g → s.Tied g c) :
    Bound { s with continuations := s.continuations ++ [k] } := by
  refine ⟨h.txs, h.stmts, fun c g hc => ?_, h.streams, h.blobs, h.queue, h.scope, h.conn, h.trace⟩
  rcases List.mem_append.mp hc with hc | hc
  · exact h.constructs c g hc
  · exact hk c g (List.mem_singleton.mp hc).symm

theorem Bound.stream (h : Bound s) {scope : Scope} (hscope : scope.AtHome) :
    Bound { s with streams := s.streams ++ [scope] } := by
  refine ⟨h.txs, h.stmts, h.constructs, fun k hk => ?_, h.blobs, h.queue, h.scope, h.conn, h.trace⟩
  rcases List.mem_append.mp hk with hk | hk
  · exact h.streams k hk
  · rw [List.mem_singleton.mp hk]
    exact hscope

theorem Bound.started (h : Bound s) (id owner : Nat) : Bound (s.started id owner).2 :=
  ⟨h.txs, h.stmts, h.constructs, h.streams, h.blobs, h.queue, h.scope, h.conn, h.trace⟩

theorem Bound.addTx (h : Bound s) {t : Tx} (ht : s.Tied t.attGeneration t.currentHandle.conn) :
    Bound { s with txs := s.txs ++ [t] } := by
  refine ⟨fun u hu => ?_, h.stmts, h.constructs, h.streams, h.blobs, h.queue, h.scope, h.conn,
    h.trace⟩
  rcases List.mem_append.mp hu with hu | hu
  · exact h.txs u hu
  · rw [List.mem_singleton.mp hu]
    exact ht

theorem Bound.newTransaction (h : Bound s) (hstill : ¬s.reconnecting) (options : TxOptions)
    (after : After) (id : Nat) : Bound (s.newTransaction options after id) := by
  have hnew : Bound { (s.started id s.txs.length).2 with
      txs := s.txs ++ [{
        currentHandle := (s.started id s.txs.length).1
        options := options
        attGeneration := s.generation }] } :=
    (h.started id s.txs.length).addTx (tied_now hstill)
  cases after with
  | nothing => exact hnew
  | stream => exact hnew.stream rfl
  | use prepares =>
    apply hnew.continue
    intro c g hc
    cases hc
  | exec stmt =>
    apply hnew.continue
    intro c g hc
    cases hc

theorem Bound.restarted (h : Bound s) (hstill : ¬s.reconnecting) (i : Nat) (upgrade : Bool)
    (id : Nat) : Bound (s.restarted i upgrade id) := by
  have hnew := (h.started id i).modifyTx (i := i) (f := fun t => { t with
      currentHandle := (s.started id i).1
      generation := t.generation + 1
      finished := false
      reopening := false }) fun t ht => ⟨ht.1, fun _ => ⟨rfl, hstill⟩⟩
  unfold Attachment.restarted
  cases upgrade with
  | false => exact hnew
  | true =>
    apply hnew.continue
    intro c g hc
    cases hc

/-! The lock -/

/-- A section that is not a reconnect leaves the objects bound as they were. -/
theorem Tied.keep {g c : Nat} (h : s.Tied g c) (hgen : s'.generation = s.generation)
    (hconn : s'.conn = s.conn) (hstill : ¬s'.reconnecting) : s'.Tied g c := by
  refine ⟨hgen ▸ h.1, fun hg => ⟨?_, hstill⟩⟩
  rw [hconn]
  exact (h.2 (hg.trans hgen)).1

/-- Behind a new generation nothing is bound to the connection. -/
theorem Tied.outdated {g c : Nat} (h : s.Tied g c) (hgen : s'.generation = s.generation + 1) :
    s'.Tied g c := by
  have hle := h.1
  refine ⟨by omega, fun hg => ?_⟩
  omega

theorem Bound.section_scope (h : Bound s) {job : Job}
    (hcap : ∀ scope, job.captured = some scope → scope.AtHome)
    (htx : ∀ i t, job.tx = some i → s.txs[i]? = some t → t.attGeneration = s.generation)
    {scope : Scope} (hscope : s.sectionScope job = some scope) : scope.AtHome := by
  cases job with
  | run tx replay =>
    obtain ⟨t, ht, rfl⟩ := Option.map_eq_some_iff.mp hscope
    exact h.scope_at_home ht (htx tx t rfl ht) _
  | prepared stmt tx own =>
    cases own with
    | false =>
      obtain ⟨t, ht, rfl⟩ := Option.map_eq_some_iff.mp hscope
      exact h.scope_at_home ht (htx tx t rfl ht) _
    | true => cases hscope
  | stream scope' => exact hcap scope hscope
  | _ => cases hscope

/-- A section begins with a request, all of whose handles are at home. -/
theorem Bound.write (h : Bound s) {job : Job} {queue : List Job} {scope : Option Scope}
    (hjob : job ≠ .reconnect) (hqueue : s.queue = job :: queue) (hu : Unmoved s .begin)
    (hscope : ∀ scope', scope = some scope' → s.sectionScope job = some scope') :
    Bound { s with
      queue := queue
      running := some ⟨job, s.request job, scope⟩
      trace := s.trace ++ [.wrote (s.request job)] } := by
  obtain ⟨htx, hstmt⟩ := hu job queue hqueue
  have hcap : ∀ scope, job.captured = some scope → scope.AtHome :=
    h.queue job (hqueue ▸ List.mem_cons_self)
  have hstill : ¬reconnecting { s with
      queue := queue
      running := some ⟨job, s.request job, scope⟩
      trace := s.trace ++ [.wrote (s.request job)] } := by
    rintro ⟨r, hr, hrec⟩
    obtain rfl := Option.some.inj hr
    exact hjob hrec
  refine ⟨fun t ht => (h.txs t ht).keep rfl rfl hstill, fun p hp => (h.stmts p hp).keep rfl rfl hstill,
    fun c g hc => (h.constructs c g hc).keep rfl rfl hstill, h.streams, h.blobs, fun j hj => ?_, ?_, ?_,
    fun r hr => ?_⟩
  · exact h.queue j (hqueue ▸ List.mem_cons_of_mem _ hj)
  · intro r hr scope' hscope'
    obtain rfl := Option.some.inj hr
    exact h.section_scope hcap htx (hscope scope' hscope')
  · intro r hr hnone
    obtain rfl := Option.some.inj hr
    have hreq : (s.request job).conn = s.conn := by
      unfold request
      rw [show job.captured = none from hnone]
    exact hreq
  · rcases List.mem_append.mp hr with hr | hr
    · exact h.trace r hr
    · obtain rfl := Entry.wrote.inj (List.mem_singleton.mp hr)
      exact h.request_at_home hcap htx hstmt

/-- A reconnect begins: everything made before it is outdated. -/
theorem Bound.depart (h : Bound s) {queue : List Job} (hqueue : s.queue = .reconnect :: queue) :
    Bound { s with
      queue := queue
      generation := s.generation + 1
      inline := s.inline.filter (·.1 ≠ s.conn)
      running := some ⟨.reconnect, ⟨s.conn, none, none, none⟩, none⟩ } := by
  refine ⟨fun t ht => (h.txs t ht).outdated rfl, fun p hp => (h.stmts p hp).outdated rfl,
    fun c g hc => (h.constructs c g hc).outdated rfl, h.streams, h.blobs, fun j hj => ?_, ?_, ?_,
    h.trace⟩
  · exact h.queue j (hqueue ▸ List.mem_cons_of_mem _ hj)
  · intro r hr scope hscope
    obtain rfl := Option.some.inj hr
    cases hscope
  · intro r hr _
    obtain rfl := Option.some.inj hr
    rfl

theorem Bound.begin (h : Bound s) (hu : Unmoved s .begin) (hs : s.begin = some s') : Bound s' := by
  unfold Attachment.begin at hs
  split at hs
  · rename_i queue _ hqueue
    obtain rfl := Option.some.inj hs
    exact h.depart hqueue
  · rename_i scope targets queue _ hqueue
    split at hs
    · obtain rfl := Option.some.inj hs
      apply h.write (by simp) hqueue hu
      intro scope' hscope'
      cases hscope'
    · obtain rfl := Option.some.inj hs
      exact ⟨h.txs, h.stmts, h.constructs, h.streams, h.blobs,
        fun j hj => h.queue j (hqueue ▸ List.mem_cons_of_mem _ hj), h.scope, h.conn, h.trace⟩
  · rename_i job queue hreconnect _ _ hqueue
    obtain rfl := Option.some.inj hs
    apply h.write _ hqueue hu
    · exact fun _ h => h
    · rintro rfl
      exact hreconnect rfl
  · cases hs

theorem Bound.disconnected (h : Bound s) (hs : s.disconnected = some s') : Bound s' := by
  unfold Attachment.disconnected at hs
  split at hs
  · obtain rfl := Option.some.inj hs
    refine ⟨h.txs, h.stmts, h.constructs, h.streams, h.blobs, h.queue, h.scope, h.conn, fun r hr => ?_⟩
    exact h.trace r (mem_trace_ended hr)
  · cases hs

/-- With the new connection the lock is let go of; all that was bound to the old one is outdated. -/
theorem Bound.arrive (h : Bound s) (hrec : s.reconnecting) :
    Bound { s with running := none, conn := s.conn + 1, isAlive := true } := by
  have htied (g c : Nat) (htied : s.Tied g c) :
      Tied { s with running := none, conn := s.conn + 1, isAlive := true } g c :=
    ⟨htied.1, fun hg => absurd hrec (htied.2 hg).2⟩
  refine ⟨fun t ht => htied _ _ (h.txs t ht), fun p hp => htied _ _ (h.stmts p hp),
    fun c g hc => htied _ _ (h.constructs c g hc), h.streams, h.blobs, h.queue, ?_, ?_, h.trace⟩
  · intro r hr
    cases hr
  · intro r hr
    cases hr

theorem Bound.mapBlobs (h : Bound s) {blobs : List LazyBlob}
    (hblobs : ∀ b ∈ blobs, ∃ b' ∈ s.blobs, b.scope = b'.scope) (inline : List (Nat × Nat × Nat)) :
    Bound { s with blobs := blobs, inline := inline } := by
  refine ⟨h.txs, h.stmts, h.constructs, h.streams, fun b hb => ?_, h.queue, h.scope, h.conn, h.trace⟩
  obtain ⟨b', hb', hscope⟩ := hblobs b hb
  rw [hscope]
  exact h.blobs b' hb'

theorem Bound.ok (h : Bound s) {reply : Reply} (hs : s.ok reply = some s') : Bound s' := by
  unfold Attachment.ok at hs
  obtain ⟨r, hr, hs⟩ := Option.bind_eq_some_iff.mp hs
  have hidle := h.idle
  have hscope := h.scope r hr
  rcases hjob : r.job with ⟨options, after⟩ | ⟨tx, replay⟩ | tx | ⟨tx, rollback⟩ | ⟨tx, rollback⟩ |
    ⟨tx, rollback, strategy, upgrade⟩ | ⟨tx, upgrade⟩ | ⟨tx, prepares⟩ | ⟨stmt, tx, own⟩ | stmt |
    scope | ⟨scope, targets, checks⟩ | _ <;> simp only [hjob] at hs
  case reconnect =>
    split at hs
    · cases hs
    · obtain rfl := Option.some.inj hs
      exact h.arrive ⟨r, hr, hjob⟩
  all_goals obtain rfl := Option.some.inj hs
  case start => exact hidle.newTransaction idle_still options after reply.txId
  case run => exact hidle.addBlobs hscope reply.blobs
  case executeBatch => exact hidle
  case retaining => exact hidle
  case finish => exact (hidle.ended r.request).clearTx tx
  case restartFinish =>
    apply ((hidle.ended r.request).modifyTx (f := fun t => { t with
      options := strategy.getD t.options
      reopening := true }) fun _ ht => ht).enqueue
    intro scope hscope
    cases hscope
  case restartStart => exact hidle.restarted idle_still tx upgrade reply.txId
  case use =>
    split
    · apply hidle.continue
      intro c g hc
      obtain ⟨rfl, rfl⟩ := Continuation.construct.inj hc
      have hconn : r.request.conn = s.conn := by
        apply h.conn r hr
        rw [hjob]
        rfl
      rw [hconn]
      exact tied_now idle_still
    · exact hidle
  case prepared => exact hidle.addBlobs hscope reply.blobs
  case closePrepared => exact hidle
  case stream => exact hidle.addBlobs hscope reply.blobs
  case blob =>
    split
    · apply hidle.mapBlobs
      intro b hb
      obtain ⟨k, hk, rfl⟩ := List.mem_mapIdx.mp hb
      refine ⟨s.blobs[k], List.getElem_mem hk, ?_⟩
      split <;> rfl
    · exact hidle

theorem Bound.refused (h : Bound s) {readOnly : Bool} (hs : s.refused readOnly = some s') :
    Bound s' := by
  unfold Attachment.refused at hs
  obtain ⟨r, hr, hs⟩ := Option.bind_eq_some_iff.mp hs
  have hidle := h.idle
  split at hs
  · dsimp only at hs
    split at hs
    · obtain rfl := Option.some.inj hs
      split
      · exact hidle.restart _ _ _ _ _
      · exact hidle
    · obtain rfl := Option.some.inj hs
      exact hidle
  · obtain rfl := Option.some.inj hs
    exact hidle.modifyFinished _ false
  · dsimp only at hs
    split at hs
    · cases hs
    · obtain rfl := Option.some.inj hs
      exact hidle
  · obtain rfl := Option.some.inj hs
    exact hidle

/-! Lazy blobs -/

theorem Bound.claim (h : Bound s) (k : Nat) (b : LazyBlob) : Bound (s.claim k b) := by
  apply h.mapBlobs
  intro b' hb'
  rcases mem_modify hb' with hb' | ⟨b₀, hb₀, rfl⟩
  · exact ⟨b', hb', rfl⟩
  · exact ⟨b₀, hb₀, rfl⟩

theorem Bound.readBlob (h : Bound s) {k : Nat} {b : LazyBlob} (hb : b ∈ s.blobs) :
    Bound (s.readBlob k b).2 := by
  unfold Attachment.readBlob
  split
  · exact h
  · split
    · exact h
    · split
      · exact h.claim k b
      · apply h.enqueue
        intro scope hscope
        rw [← Option.some.inj hscope]
        exact h.blobs b hb

/-- What a prefetch leaves to ask for is among what it was given. -/
theorem Bound.prefetchClaims {group : List (Nat × LazyBlob)} (h : Bound s) :
    Bound (s.prefetchClaims group).2 ∧ ∀ x ∈ (s.prefetchClaims group).1, x ∈ group := by
  induction group generalizing s with
  | nil => exact ⟨h, fun x hx => hx⟩
  | cons x rest ih =>
    obtain ⟨k, b⟩ := x
    unfold Attachment.prefetchClaims
    split
    · exact ⟨(ih h).1, fun x hx => List.mem_cons_of_mem _ ((ih h).2 x hx)⟩
    · split
      · have hclaim := ih (h.claim k b)
        exact ⟨hclaim.1, fun x hx => List.mem_cons_of_mem _ (hclaim.2 x hx)⟩
      · refine ⟨(ih h).1, fun x hx => ?_⟩
        rcases List.mem_cons.mp hx with rfl | hx
        · exact List.mem_cons_self
        · exact List.mem_cons_of_mem _ ((ih h).2 x hx)

theorem Bound.prefetch (h : Bound s) {group : List (Nat × LazyBlob)}
    (hgroup : ∀ x ∈ group, x.2 ∈ s.blobs) : Bound (s.prefetch group).2 := by
  obtain ⟨hclaims, hmem⟩ := @Bound.prefetchClaims s group h
  unfold Attachment.prefetch
  split
  · rename_i s₁ heq
    rw [heq] at hclaims
    exact hclaims
  · rename_i k b rest s₁ heq
    rw [heq] at hclaims hmem
    split
    · apply hclaims.enqueue
      intro scope hscope
      rw [← Option.some.inj hscope]
      exact h.blobs b (hgroup (k, b) (hmem _ List.mem_cons_self))
    · exact hclaims

/-! Calls that go on, and calls that are made -/

theorem Bound.resume (h : Bound s) {k : Nat} (hu : Unmoved s (.resume k))
    (hs : s.resume k = some s') : Bound s' := by
  obtain ⟨c, hc, rfl⟩ := Option.map_eq_some_iff.mp hs
  have hleft : Bound { s with continuations := s.continuations.eraseIdx k } :=
    ⟨h.txs, h.stmts, fun c g hc => h.constructs c g (List.mem_of_mem_eraseIdx hc), h.streams,
      h.blobs, h.queue, h.scope, h.conn, h.trace⟩
  cases c with
  | replay tx =>
    apply hleft.enqueue
    intro scope hscope
    cases hscope
  | use tx prepares =>
    apply hleft.enqueue
    intro scope hscope
    cases hscope
  | exec stmt tx =>
    apply hleft.enqueue
    intro scope hscope
    cases hscope
  | construct conn generation =>
    refine ⟨hleft.txs, fun p hp => ?_, hleft.constructs, h.streams, h.blobs, h.queue, h.scope, h.conn,
      h.trace⟩
    rcases List.mem_append.mp hp with hp | hp
    · exact h.stmts p hp
    · have hgen : generation = s.generation := hu conn generation hc
      have htied : s.Tied generation conn := h.constructs conn generation (List.mem_of_getElem? hc)
      rw [List.mem_singleton.mp hp]
      rw [hgen] at htied
      exact htied

theorem Bound.closeObject (h : Bound s) (i : Nat) :
    Bound { s with stmts := s.stmts.modify i fun p => { p with closed := true } } := by
  refine ⟨h.txs, fun p hp => ?_, h.constructs, h.streams, h.blobs, h.queue, h.scope, h.conn, h.trace⟩
  rcases mem_modify hp with hp | ⟨p₀, hp₀, rfl⟩
  · exact h.stmts p hp
  · exact h.stmts p₀ hp₀

/-- Every event keeps what is bound where it is bound. -/
theorem Bound.step (h : Bound s) {e : Event} (hu : Unmoved s e) (hs : s.step e = some s') :
    Bound s' := by
  have hqueue {job : Job} (hjob : job.captured = none) : Bound (s.enqueue job) := by
    apply h.enqueue
    intro scope hscope
    rw [hjob] at hscope
    cases hscope
  cases e with
  | startTransaction options after =>
    cases after <;> cases hs <;> exact hqueue rfl
  | run tx =>
    obtain ⟨t, -, rfl⟩ := Option.map_eq_some_iff.mp hs
    split
    · exact hqueue rfl
    · exact h
  | executeBatch tx =>
    obtain ⟨t, -, rfl⟩ := Option.map_eq_some_iff.mp hs
    split
    · exact hqueue rfl
    · exact h
  | queryStream tx =>
    obtain ⟨t, ht, rfl⟩ := Option.map_eq_some_iff.mp hs
    split
    · rename_i hactive
      have hgen : t.attGeneration = s.generation := by
        have := (Bool.and_eq_true_iff.mp hactive).1
        exact beq_iff_eq.mp this
      exact h.stream (h.scope_at_home ht hgen _)
    · exact h
  | finish tx rollback =>
    obtain ⟨t, -, rfl⟩ := Option.map_eq_some_iff.mp hs
    split
    · exact h.finish tx rollback
    · exact h
  | dispose tx =>
    obtain ⟨t, -, rfl⟩ := Option.map_eq_some_iff.mp hs
    split
    · exact h.finish tx true
    · exact h
  | retaining tx rollback =>
    obtain ⟨t, -, rfl⟩ := Option.map_eq_some_iff.mp hs
    split
    · exact hqueue rfl
    · exact h
  | restart tx rollback strategy =>
    obtain ⟨t, -, rfl⟩ := Option.map_eq_some_iff.mp hs
    exact h.restart tx t rollback strategy false
  | preparedRun stmt tx =>
    unfold Attachment.step at hs
    dsimp only at hs
    split at hs
    · obtain ⟨p, -, rfl⟩ := Option.map_eq_some_iff.mp hs
      split
      · exact hqueue rfl
      · exact h
    · cases hs
  | preparedRunOwn stmt options =>
    obtain ⟨p, -, rfl⟩ := Option.map_eq_some_iff.mp hs
    split
    · exact hqueue rfl
    · exact h
  | closePrepared stmt =>
    obtain ⟨p, -, rfl⟩ := Option.map_eq_some_iff.mp hs
    split
    · exact h
    · dsimp only
      split
      · apply (h.closeObject stmt).enqueue
        intro scope hscope
        cases hscope
      · exact h.closeObject stmt
  | streamNext k =>
    obtain ⟨scope, hscope, rfl⟩ := Option.map_eq_some_iff.mp hs
    apply h.enqueue
    intro scope' hscope'
    rw [← Option.some.inj hscope']
    exact h.streams scope (List.mem_of_getElem? hscope)
  | readBlob k =>
    obtain ⟨b, hb, rfl⟩ := Option.map_eq_some_iff.mp hs
    exact h.readBlob (List.mem_of_getElem? hb)
  | pullBlob k =>
    obtain ⟨b, hb, rfl⟩ := Option.map_eq_some_iff.mp hs
    apply h.enqueue
    intro scope hscope
    rw [← Option.some.inj hscope]
    exact h.blobs b (List.mem_of_getElem? hb)
  | prefetchSlice k =>
    obtain ⟨b, hb, rfl⟩ := Option.map_eq_some_iff.mp hs
    apply h.enqueue
    intro scope hscope
    rw [← Option.some.inj hscope]
    exact h.blobs b (List.mem_of_getElem? hb)
  | prefetch ks =>
    unfold Attachment.step at hs
    dsimp only at hs
    split at hs
    · obtain rfl := Option.some.inj hs
      apply h.prefetch
      intro x hx
      obtain ⟨k, -, hk⟩ := List.mem_filterMap.mp hx
      obtain ⟨b, hb, rfl⟩ := Option.map_eq_some_iff.mp hk
      exact List.mem_of_getElem? hb
    · cases hs
  | reconnect =>
    obtain rfl := Option.some.inj hs
    exact hqueue rfl
  | begin => exact h.begin hu hs
  | disconnected => exact h.disconnected hs
  | ok reply => exact h.ok hs
  | refused readOnly => exact h.refused hs
  | resume k => exact h.resume hu hs

theorem bound_init : Bound {} := by
  constructor <;> simp

theorem unmoved_begin {job : Job} {queue : List Job} (hqueue : s.queue = job :: queue)
    (htx : ∀ i ∈ job.tx, ∀ t ∈ s.txs[i]?, t.attGeneration = s.generation)
    (hstmt : ∀ i ∈ job.stmt, ∀ p ∈ s.stmts[i]?, p.attGeneration = s.generation) :
    Unmoved s .begin := by
  intro job' queue' hqueue'
  obtain ⟨rfl, rfl⟩ := List.cons.inj (hqueue.symm.trans hqueue')
  exact ⟨fun i t hi ht => htx i hi t ht, fun i p hi hp => hstmt i hi p hp⟩

-- A call made while the reconnect waits for the lock passes its check and begins behind it.
example :
    (machine.run {} [.startTransaction ⟨false, false⟩ .nothing, .begin, .ok { txId := 7 }, .reconnect,
      .run 0, .begin, .disconnected, .ok {}, .begin]).map (·.trace.getLast?) =
    some (some (.wrote ⟨1, some 1, some ⟨0, 0, 7⟩, some 1⟩)) := by decide +kernel

end FastFirebird.Attachment
