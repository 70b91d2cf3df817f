import FastFirebird.StatementsKept

/-! A session and its callers, over any run of its lock sections: whose the server's statements are. -/
namespace FastFirebird

variable {link : Link} {codec : Codec} {opts : Options} {held : List StmtHandle} {lost : Nat} {c c' : Conn}
  {info : PreparedStatementInfo}

/-! Streams -/

/-- The statement a stream has to see to by itself. -/
def StreamState.own (st : StreamState) : List StmtHandle :=
  if st.cached then [] else st.info.toList.map (·.handle)

theorem StreamState.own_none {st : StreamState} (hinfo : st.info = none) : st.own = [] := by
  rw [StreamState.own, hinfo]
  split <;> rfl

theorem StreamState.own_cached {st : StreamState} (hcached : st.cached = true) : st.own = [] := if_pos hcached

theorem StreamState.own_fresh {st : StreamState} (hfresh : st.cached = false) (hinfo : st.info = some info) :
    st.own = [info.handle] := by
  rw [StreamState.own, hfresh, hinfo]
  rfl

/-- What a stream does not change behind its first section. -/
structure StreamState.Same (st st' : StreamState) : Prop where
  info : st'.info = st.info
  sql : st'.sql = st.sql
  cached : st'.cached = st.cached

theorem StreamState.Same.own {st st' : StreamState} (h : st.Same st') : st'.own = st.own := by
  rw [StreamState.own, h.info, h.cached, StreamState.own]

theorem streamExecute_same (fuel tx : Nat) (params : List ParamValue) (query : QueryOptions)
    (info : PreparedStatementInfo) (st : StreamState) (c : Conn) :
    Async.wp (streamExecute link codec opts fuel tx params query info st)
      ⟨fun r _ => { st with info := some info }.Same r.2, fun _ _ => False, fun _ => True⟩ c := by
  refine Async.wp_bind.mpr (Async.wp_attempt.mpr (Async.wp_mono Async.wp_trivial ?_ ?_ fun _ _ => trivial))
  · rintro ⟨mapper, fetchCount, exec⟩ c₁ -
    refine Async.wp_bind.mpr (Async.wp_attempt.mpr (Async.wp_mono Async.wp_trivial ?_ ?_ fun _ _ => trivial))
    · rintro ⟨rows, eof⟩ c₂ -
      exact ⟨rfl, rfl, rfl⟩
    · intro e c₂ _
      exact ⟨rfl, rfl, rfl⟩
  · intro e c₁ _
    exact ⟨rfl, rfl, rfl⟩

theorem streamNext_same (fuel tx : Nat) (query : QueryOptions) (st : StreamState) (c : Conn) :
    Async.wp (streamNext link opts fuel tx query st)
      ⟨fun r _ => st.Same r.2, fun _ _ => False, fun _ => True⟩ c := by
  unfold streamNext
  split
  · refine Async.wp_bind.mpr (Async.wp_attempt.mpr (Async.wp_mono Async.wp_trivial ?_ ?_ fun _ _ => trivial))
    · rintro ⟨rows, eof⟩ c₁ -
      exact ⟨rfl, rfl, rfl⟩
    · intro e c₁ _
      exact ⟨rfl, rfl, rfl⟩
  · exact ⟨rfl, rfl, rfl⟩

namespace Keeping

variable {st : StreamState}

theorem streams (hu : link.Undisturbed) (h : Keeping link held lost c) (hs : info.handle ∈ c.shelved ++ held)
    (fuel tx : Nat) (params : List ParamValue) (query : QueryOptions) :
    Async.wp (streamExecute link codec opts fuel tx params query info st)
      ⟨fun r c' => Keeping link held lost c' ∧ { st with info := some info }.Same r.2, fun _ _ => False,
        Accountable⟩ c := by
  have hstays : Async.wp (streamExecute link codec opts fuel tx params query info st) _ c :=
    h.stays (keeps_streamExecute fuel tx params query info st) fun out hthere =>
      ((shelf_statements hu out c).streamExecute_triple fuel tx params query (hthere _ hs) st).mono
        (fun _ h => h) (fun _ h => (stable_shelf hu out c).of_settled h) fun _ h => h
  refine Async.wp_mono (Async.wp_and hstays (streamExecute_same fuel tx params query info st c)) ?_ ?_ ?_
  · exact fun r c' hboth => ⟨hboth.1.1, hboth.2⟩
  · exact fun _ _ hboth => hboth.2
  · exact fun _ hboth => hboth.1

end Keeping

/-- What a failed call may cost. -/
def lostBy {α : Type} : Except FirebirdError α → Nat
  | .ok _ => 0
  | .error _ => 1

namespace Keeping

variable {st : StreamState}

theorem counted (h : Keeping link held lost c) {α : Type} (r : Except FirebirdError α) :
    Keeping link held (lost + lostBy r) c := h.more (Nat.le_add_right _ _)

theorem startsStream (hu : link.Undisturbed) (h : Keeping link held lost c)
    (hnew : st.cached = st.info.isSome) (hfind : ∀ info ∈ st.info, c.cacheFind st.sql = some info)
    (fuel tx : Nat) (params : List ParamValue) (query : QueryOptions) :
    Async.wp (streamFirst link codec opts fuel tx params query st)
      ⟨fun r c' => Keeping link (r.2.own ++ held) (lost + lostBy r.1) c', fun _ _ => False,
        Accountable⟩ c := by
  -- a stream has its statement from the cache, or prepares one in its first section
  cases hinfo : st.info with
  | some info =>
    have hcached : st.cached = true := by rw [hnew, hinfo, Option.isSome_some]
    have hs : info.handle ∈ c.shelved ++ held := List.mem_append_left _ (shelved_mem (hfind info hinfo))
    unfold streamFirst
    rw [hinfo]
    refine Async.wp_bind.mpr (Async.wp_attempt.mpr ((Async.wp_pure (a := info)).mpr ?_))
    refine Async.wp_mono (h.streams hu hs fuel tx params query) ?_ (fun _ _ h => h) fun _ h => h
    rintro r c' ⟨h', hsame⟩
    dsimp only
    rw [StreamState.own_cached (hsame.cached.trans hcached)]
    exact h'.counted _
  | none =>
    have hfresh : st.cached = false := by rw [hnew, hinfo, Option.isSome_none]
    unfold streamFirst
    rw [hinfo]
    refine Async.wp_bind.mpr (Async.wp_attempt.mpr (Async.wp_mono (h.prepares hu tx st.sql) ?_ ?_ fun _ h => h))
    · intro info c₁ h₁
      have hs : info.handle ∈ c₁.shelved ++ info.handle :: held := List.mem_append_right _ List.mem_cons_self
      refine Async.wp_mono (h₁.streams hu hs fuel tx params query) ?_ (fun _ _ h => h) fun _ h => h
      rintro r c' ⟨h', hsame⟩
      dsimp only
      rw [StreamState.own_fresh (hsame.cached.trans hfresh) hsame.info]
      exact h'.counted _
    · intro e c₁ h₁
      have hfailed : Keeping link (({ st with info := none, failed := true } : StreamState).own ++ held)
          (lost + 1) c₁ := by
        rw [StreamState.own_none rfl]
        exact h₁
      exact hfailed

/-- The statement of a stream, while it is its own or in the cache. -/
theorem stream_mem (hfind : st.cached = true → ∀ info ∈ st.info, c.cacheFind st.sql = some info)
    (hinfo : st.info = some info) : info.handle ∈ c.shelved ++ (st.own ++ held) := by
  cases hcached : st.cached with
  | true => exact List.mem_append_left _ (shelved_mem (hfind hcached info hinfo))
  | false =>
    rw [StreamState.own_fresh hcached hinfo]
    exact List.mem_append_right _ List.mem_cons_self

theorem nextStream (hu : link.Undisturbed) (h : Keeping link (st.own ++ held) lost c)
    (hfind : st.cached = true → ∀ info ∈ st.info, c.cacheFind st.sql = some info)
    (fuel tx : Nat) (query : QueryOptions) :
    Async.wp (streamNext link opts fuel tx query st)
      ⟨fun r c' => Keeping link (r.2.own ++ held) lost c', fun _ _ => False, Accountable⟩ c := by
  have hstays : Async.wp (streamNext link opts fuel tx query st) _ c :=
    h.stays (keeps_streamNext plainCodec fuel tx query st) fun out hthere =>
      ((@shelf_statements link plainCodec hu out c).streamNext_triple fuel tx query st
        fun info hinfo => hthere _ (stream_mem hfind hinfo)).mono
        (fun _ h => h) (fun _ h => (stable_shelf hu out c).of_settled h) fun _ h => h
  refine Async.wp_mono (Async.wp_and hstays (streamNext_same fuel tx query st c)) ?_ ?_ ?_
  · rintro r c' ⟨⟨h', -⟩, hsame⟩
    dsimp only
    rw [hsame.own]
    exact h'
  · exact fun _ _ hboth => hboth.2
  · exact fun _ hboth => hboth.1

theorem finishesStream (h : Keeping link (st.own ++ held) lost c)
    (hfind : st.cached = true → ∀ info ∈ st.info, c.cacheFind st.sql = some info) :
    Keeping link held lost (c.streamFinish link st) := by
  unfold Conn.streamFinish
  split
  · rename_i hinfo
    rw [StreamState.own_none hinfo] at h
    exact h
  · rename_i info hinfo
    have hclosed : Keeping link (st.own ++ held) lost
        (if st.cursorOpen then c.freeStatement link info.handle .close else c) := by
      split
      · exact h.close (stream_mem hfind hinfo)
      · exact h
    have hcache : (if st.cursorOpen then c.freeStatement link info.handle .close else c).cache = c.cache := by
      split <;> rfl
    dsimp only
    cases hcached : st.cached with
    | true =>
      rw [StreamState.own_cached hcached] at hclosed
      split
      · exact hclosed.cacheRemove st.sql
      · exact hclosed.finishCached ((cacheFind_congr hcache).trans (hfind hcached info hinfo))
    | false =>
      rw [StreamState.own_fresh hcached hinfo] at hclosed
      split
      · exact (hclosed.cacheRemove st.sql).drop
      · exact hclosed.finishFresh st.sql

end Keeping

/-! Every other section -/

/-- A section that gives no statement to its caller and takes none back; `infos` are the callers'. -/
def Section.IsCall (infos : List PreparedStatementInfo) : Section → Prop
  | .clearStatementCache | .runStatement _ _ _ _ | .executeBatch _ _ _ _ | .streamExpand _ _ _ => True
  | .runPrepared _ info _ _ | .batchPrepared _ info _ _ _ => info ∈ infos
  | s => s.aside = true

namespace Keeping

theorem calls (hu : link.Undisturbed) (h : Keeping link held lost c) {infos : List PreparedStatementInfo}
    (hinfos : ∀ info ∈ infos, info.handle ∈ held) (fuel : Nat) {s : Section} (hs : s.IsCall infos) :
    Async.wp (s.body link codec opts fuel)
      ⟨fun _ => Keeping link held lost, fun _ => Keeping link held (lost + 1), Accountable⟩ c := by
  have haside : s.aside = true → Async.wp (s.body link codec opts fuel)
      ⟨fun _ => Keeping link held lost, fun _ => Keeping link held (lost + 1), Accountable⟩ c := by
    intro hs
    refine Async.wp_mono (h.stays (keeps_section fuel s) fun out _ => ?_) ?_ ?_ fun _ h => h
    · exact (stable_shelf hu out c).aside (fun _ h => leaves_blobOp h) codec opts fuel hs leaves_control
    · exact fun _ _ h' => h'.1
    · exact fun _ _ h' => h'.1.more (Nat.le_succ _)
  cases s with
  | clearStatementCache =>
    have hping := h.clearCache.stays (keeps_roundTrip rfl) fun out _ =>
      (stable_shelf hu out (c.clearCache link)).roundTrip (leaves_control .ping)
    refine Async.wp_bind.mpr (Async.wp_modify.mpr (Async.wp_bind.mpr (Async.wp_mono hping ?_ ?_ fun _ h => h)))
    · exact fun _ _ h' => h'.1
    · exact fun _ _ h' => h'.1.more (Nat.le_succ _)
  | runStatement tx sql params query => exact Async.wp_bind.mpr (h.runs hu fuel tx sql params query)
  | executeBatch tx sql rows batch => exact Async.wp_bind.mpr (h.batchesStatement hu tx sql rows batch)
  | streamExpand tx sql query => exact Async.wp_bind.mpr (h.resolves hu tx sql query)
  | runPrepared tx info params query =>
    refine Async.wp_bind.mpr (Async.wp_mono
      (h.executes hu (List.mem_append_right _ (hinfos info hs)) fuel tx params true query) ?_ ?_ fun _ h => h)
    · exact fun _ _ h' => h'.1
    · exact fun _ _ h' => h'.1.more (Nat.le_succ _)
  | batchPrepared tx info rows names batch =>
    refine Async.wp_bind.mpr (Async.wp_mono
      (h.batches hu (List.mem_append_right _ (hinfos info hs)) tx rows names batch) ?_ ?_ fun _ h => h)
    · exact fun _ _ h' => h'.1
    · exact fun _ _ h' => h'.1.more (Nat.le_succ _)
  | prepare tx sql => cases hs
  | closePrepared info => cases hs
  | streamFirst tx params query st => cases hs
  | streamNext tx query st => cases hs
  | streamFinish st => cases hs
  | _ => exact haside hs

theorem nextTurn (h : Keeping link held lost c) : Keeping link held lost c.nextTurn := by
  have hguard : Guard link 0 c.nextTurn := guard_zero.mpr fun hc => (guard_zero.mp h.guard hc).nextTurn
  exact h.move hguard h.tidy (List.suffix_refl _) fun missing hserver => hserver.congr rfl rfl

theorem clearInUse (h : Keeping link held lost c) : Keeping link held lost (c.clearInUse link) := by
  have hnoted : ∀ e, Event.deed e = .aside → ∀ missing,
      HoldsStatements (c.shelved ++ (held ++ missing)) c →
      HoldsStatements (c.shelved ++ (held ++ missing)) { c with log := e :: c.log } :=
    fun e he missing hserver => ⟨hserver.owns.aside he, hserver.earlier⟩
  apply h.move ?_ ?_ (Conn.clearInUse_extends c)
  · intro missing hserver
    exact HoldsStatements.clearCache (hnoted _ rfl missing hserver)
  · exact guard_zero.mpr fun hc => Sync.clearInUse (guard_zero.mp h.guard
      (hc.of_suffix (Conn.clearInUse_extends c))) (Or.inl rfl) hc
  · exact @tidy_clearCache link c.noteClear h.tidy

end Keeping

/-! The system: the callers of a session, and its connection -/

/-- The statements the callers have to give back: those of `PreparedStatement`s and of streams. -/
def callers (infos : List PreparedStatementInfo) (streams : List StreamState) : List StmtHandle :=
  infos.map (·.handle) ++ streams.flatMap (·.own)

section
variable {infos before after : List PreparedStatementInfo} {streams earlier later : List StreamState}
  {st : StreamState}

theorem callers_prepared :
    (callers (before ++ info :: after) streams).Perm (info.handle :: callers (before ++ after) streams) := by
  unfold callers
  rw [List.map_append, List.map_cons, List.append_assoc, List.cons_append, List.map_append, List.append_assoc]
  exact List.perm_middle

theorem callers_stream :
    (callers infos (earlier ++ st :: later)).Perm (st.own ++ callers infos (earlier ++ later)) := by
  unfold callers
  rw [List.flatMap_append, List.flatMap_cons, List.flatMap_append]
  have hfront : (earlier.flatMap (·.own) ++ (st.own ++ later.flatMap (·.own))).Perm
      (st.own ++ (earlier.flatMap (·.own) ++ later.flatMap (·.own))) := List.perm_append_comm_assoc _ _ _
  exact (hfront.append_left _).trans (List.perm_append_comm_assoc _ _ _)

theorem callers_mem : ∀ info ∈ infos, info.handle ∈ callers infos streams := fun _ h =>
  List.mem_append_left _ (List.mem_map_of_mem h)

end

/-- A session whose callers hold the statements of `infos` and run the streams `streams`, after calls of
which `failures` failed. A stream whose statement is the cache's goes on only while it is there. -/
inductive Serving (link : Link) (codec : Codec) (opts : Options) :
    List PreparedStatementInfo → List StreamState → Nat → Conn → Prop
  | start {c : Conn} (hq : c.inbound = [] ∧ c.unflushed = []) (hd : c.deferredResponses = 0)
      (hl : c.log = []) (hempty : ∀ cache ∈ c.cache, cache.map = []) : Serving link codec opts [] [] 0 c
  | called {infos : List PreparedStatementInfo} {streams : List StreamState} {failures fuel : Nat}
      {c c' : Conn} {s : Section} {r : Except FirebirdError Unit}
      (h : Serving link codec opts infos streams failures c) (hs : s.IsCall infos)
      (hrun : Async.attempt (s.body link codec opts fuel) c.nextTurn = (.ok r, c')) :
      Serving link codec opts infos streams (failures + lostBy r) c'
  | prepared {infos : List PreparedStatementInfo} {streams : List StreamState} {failures tx : Nat}
      {c c' : Conn} {sql : String} {r : Except FirebirdError PreparedStatementInfo}
      (h : Serving link codec opts infos streams failures c)
      (hrun : Async.attempt (prepareInfo link codec tx sql) c.nextTurn = (.ok r, c')) :
      Serving link codec opts (r.toOption.toList ++ infos) streams (failures + lostBy r) c'
  | closed {before after : List PreparedStatementInfo} {info : PreparedStatementInfo}
      {streams : List StreamState} {failures : Nat} {c : Conn}
      (h : Serving link codec opts (before ++ info :: after) streams failures c) :
      Serving link codec opts (before ++ after) streams failures (c.nextTurn.freeStatement link info.handle .drop)
  | looked {infos : List PreparedStatementInfo} {streams : List StreamState} {failures : Nat} {c : Conn}
      (h : Serving link codec opts infos streams failures c) (sql : String) :
      Serving link codec opts infos streams failures (c.cacheGet sql)
  | streamStarted {infos : List PreparedStatementInfo} {streams : List StreamState} {failures fuel tx : Nat}
      {c c' : Conn} {params : List ParamValue} {query : QueryOptions} {st st' : StreamState}
      {r : Except FirebirdError (List Row)} (h : Serving link codec opts infos streams failures c)
      (hnew : st.cached = st.info.isSome) (hfind : ∀ info ∈ st.info, c.cacheFind st.sql = some info)
      (hrun : streamFirst link codec opts fuel tx params query st c.nextTurn = (.ok (r, st'), c')) :
      Serving link codec opts infos (st' :: streams) (failures + lostBy r) c'
  | streamNext {infos : List PreparedStatementInfo} {earlier later : List StreamState} {failures fuel tx : Nat}
      {c c' : Conn} {query : QueryOptions} {st st' : StreamState} {r : Except FirebirdError (List Row)}
      (h : Serving link codec opts infos (earlier ++ st :: later) failures c)
      (hfind : st.cached = true → ∀ info ∈ st.info, c.cacheFind st.sql = some info)
      (hrun : FastFirebird.streamNext link opts fuel tx query st c.nextTurn = (.ok (r, st'), c')) :
      Serving link codec opts infos (earlier ++ st' :: later) failures c'
  | streamFinished {infos : List PreparedStatementInfo} {earlier later : List StreamState} {failures : Nat}
      {c : Conn} {st : StreamState}
      (h : Serving link codec opts infos (earlier ++ st :: later) failures c)
      (hfind : st.cached = true → ∀ info ∈ st.info, c.cacheFind st.sql = some info) :
      Serving link codec opts infos (earlier ++ later) failures (c.nextTurn.streamFinish link st)
  | cleared {infos : List PreparedStatementInfo} {streams : List StreamState} {failures : Nat} {c : Conn}
      (h : Serving link codec opts infos streams failures c) :
      Serving link codec opts infos streams failures (c.clearInUse link)

theorem keeping_start (hq : c.inbound = [] ∧ c.unflushed = []) (hd : c.deferredResponses = 0) (hl : c.log = [])
    (hempty : ∀ cache ∈ c.cache, cache.map = []) : Keeping link (callers [] []) 0 c := by
  have hsync : Sync [] c := by
    refine ⟨[], by simp [hq.1, hq.2], by simp [hd, drainable], by simp, by simp, ?_⟩
    rw [hl]
    trivial
  have hshelved : c.shelved = [] := by
    cases hcache : c.cache with
    | none => rw [Conn.shelved, hcache]; rfl
    | some cache =>
      rw [shelved_some hcache, StatementCache.handles, hempty cache hcache]
      rfl
  refine ⟨guard_zero.mpr fun _ => hsync, fun cache hcache => ?_, [], Nat.le_refl _, fun _ => ?_⟩
  · have hmap := hempty cache hcache
    refine ⟨?_, ?_, ?_⟩ <;> rw [hmap]
    · exact List.nodup_nil
    · exact Nat.zero_le _
    · exact fun _ he => absurd he List.not_mem_nil
  · rw [hshelved]
    refine ⟨⟨[], ?_, List.nodup_nil, List.Perm.refl _⟩, fun _ h => absurd h List.not_mem_nil⟩
    rw [hl]
    rfl

/-- Every step of the session accounts for every statement. -/
theorem Serving.keeping (hu : link.Undisturbed) {infos : List PreparedStatementInfo}
    {streams : List StreamState} {failures : Nat} (h : Serving link codec opts infos streams failures c) :
    Keeping link (callers infos streams) failures c := by
  induction h with
  | start hq hd hl hempty => exact keeping_start hq hd hl hempty
  | @called infos streams failures fuel c c' s r _ hs hrun ih =>
    have hcall : Async.wp (Async.attempt (s.body link codec opts fuel))
        ⟨fun r => Keeping link (callers infos streams) (failures + lostBy r), fun _ _ => False, Accountable⟩
        c.nextTurn := Async.wp_attempt.mpr (ih.nextTurn.calls hu callers_mem fuel hs)
    exact Async.wp_eq_of_run hcall hrun
  | @prepared infos streams failures tx c c' sql r _ hrun ih =>
    have hprepare : Async.wp (Async.attempt (prepareInfo link codec tx sql))
        ⟨fun r => Keeping link (callers (r.toOption.toList ++ infos) streams) (failures + lostBy r),
          fun _ _ => False, Accountable⟩ c.nextTurn := Async.wp_attempt.mpr (ih.nextTurn.prepares hu tx sql)
    exact Async.wp_eq_of_run hprepare hrun
  | closed _ ih => exact (ih.perm callers_prepared).nextTurn.drop
  | looked _ sql ih => exact ih.cacheGet sql
  | @streamStarted infos streams failures fuel tx c c' params query st st' r _ hnew hfind hrun ih =>
    have hdone := Async.wp_eq_of_run (ih.nextTurn.startsStream hu hnew hfind fuel tx params query) hrun
    have hperm : (callers infos ([] ++ st' :: streams)).Perm (st'.own ++ callers infos ([] ++ streams)) :=
      callers_stream
    exact Keeping.perm hdone hperm.symm
  | @streamNext infos earlier later failures fuel tx c c' query st st' r _ hfind hrun ih =>
    have hdone := Async.wp_eq_of_run
      ((ih.perm callers_stream).nextTurn.nextStream hu hfind fuel tx query) hrun
    exact Keeping.perm hdone callers_stream.symm
  | streamFinished _ hfind ih => exact (ih.perm callers_stream).nextTurn.finishesStream hfind
  | cleared _ ih => exact ih.clearInUse

/-- A call that waits has been about statements that were there, too. -/
theorem Serving.waiting (hu : link.Undisturbed) {infos : List PreparedStatementInfo}
    {streams : List StreamState} {failures fuel : Nat} {s : Section}
    (h : Serving link codec opts infos streams failures c) (hs : s.IsCall infos)
    (hrun : s.body link codec opts fuel c.nextTurn = (.pending, c')) : Accountable c' :=
  Async.wp_eq_of_run ((h.keeping hu).nextTurn.calls hu callers_mem fuel hs) hrun

/-- In every run whose history is clean the server's statements are those of the cache, those of the
callers, and at most one more for each call that failed; none is in two hands, none is used or dropped
when it is not there, and the cache is within its bounds. -/
theorem serving_statements (hu : link.Undisturbed) {infos : List PreparedStatementInfo}
    {streams : List StreamState} {failures : Nat} (h : Serving link codec opts infos streams failures c)
    (hclean : Clean c.log) :
    ∃ out missing, ledger Event.deed c.log = some out ∧ out.Nodup ∧
      out.Perm (c.shelved ++ (callers infos streams ++ missing)) ∧ missing.length ≤ failures ∧
      ∀ cache ∈ c.cache, cache.Tidy := by
  have hkeeping := h.keeping hu
  obtain ⟨missing, hlost, hserver⟩ := hkeeping.server
  obtain ⟨out, hout, hnodup, hperm⟩ := (hserver hclean).owns
  exact ⟨out, missing, hout, hnodup, hperm, hlost, hkeeping.tidy⟩

/-- A connection whose cache has room for one statement. -/
def oneShelf : Conn := { cache := some { capacity := 1 } }

/-- The connection behind a run of `sql`, and behind a prepare. -/
def Conn.afterRun (sql : String) (c : Conn) : Conn :=
  (Section.body accepting plainCodec {} 9 (.runStatement 1 sql (.positional []) {}) c.nextTurn).2

def Conn.afterPrepare (sql : String) (c : Conn) : Conn :=
  (prepareInfo accepting plainCodec 1 sql c.nextTurn).2

/-- A statement is run and kept, another one is prepared, the first one is streamed, and a third one
takes its place in the cache; the prepared one is closed. -/
theorem serving_statements_evicted :
    ∃ c, Serving accepting plainCodec {} [] [] 0 c ∧
      ∃ out missing, ledger Event.deed c.log = some out ∧ out.Nodup ∧
        out.Perm (c.shelved ++ (callers [] [] ++ missing)) ∧ missing.length ≤ 0 ∧
        ∀ cache ∈ c.cache, cache.Tidy := by
  have hundisturbed : accepting.Undisturbed := fun _ => rfl
  have hstart : Serving accepting plainCodec {} [] [] 0 oneShelf := by
    refine .start ⟨rfl, rfl⟩ rfl rfl fun cache hcache => ?_
    rw [← Option.some.inj hcache]
  have hrun := @Serving.called accepting plainCodec {} _ _ _ 9 _ (oneShelf.afterRun "select 1 from t")
    (.runStatement 1 "select 1 from t" (.positional []) {}) _ hstart trivial rfl
  have hprepared := @Serving.prepared accepting plainCodec {} _ _ _ 1 _
    ((oneShelf.afterRun "select 1 from t").afterPrepare "select 2 from t") "select 2 from t" _ hrun rfl
  have hstream := @Serving.streamStarted accepting plainCodec {} _ _ _ 9 1 _ _ [] {}
    { sql := "select 1 from t"
      cached := true
      info := (oneShelf.afterRun "select 1 from t").cacheFind "select 1 from t" }
    _ _ hprepared rfl (fun _ hinfo => hinfo) rfl
  have hfinished := @Serving.streamFinished accepting plainCodec {} _ [] [] _ _ _ hstream
    fun _ _ hinfo => (rfl : Conn.cacheFind _ _ = _).trans hinfo
  have hevicted := @Serving.called accepting plainCodec {} _ _ _ 9 _ _
    (.runStatement 1 "select 3 from t" (.positional []) {}) _ hfinished trivial rfl
  have hclosed := @Serving.closed accepting plainCodec {} [] [] _ _ _ _ hevicted
  exact ⟨_, hclosed, serving_statements hundisturbed hclosed (by decide +kernel)⟩

end FastFirebird
