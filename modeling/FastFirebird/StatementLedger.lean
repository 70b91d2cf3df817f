import FastFirebird.Ledger
import FastFirebird.SectionSync

/-! The statements a session has on the server: each of them is in the statement cache or with the caller
it was prepared for, and what is freed is not used again. -/
namespace FastFirebird

variable {link : Link} {codec : Codec} {opts : Options} {held : List StmtHandle} {lost : Nat} {c c' : Conn}
  {sql : String} {info : PreparedStatementInfo}

/-! The ledger of statements -/

/-- What a request is to the statements of the server. -/
def Request.deed (n : Nat) (answer : Answer) : Request → Deed StmtHandle
  | .allocateStatement _ =>
    match answer with
    | .reply (.ok resp) => .gained ⟨resp.handle, n⟩
    | _ => .aside
  | .execute stmt _ _ | .execute2 stmt _ _ | .fetch stmt _ _ => .used stmt.handle
  | .infoSql stmt _ | .batchCreate stmt | .batchRegblob stmt _ | .batchMsg stmt _ | .batchExec stmt _
  | .batchRls stmt | .freeStatement stmt .close => .used stmt
  | .freeStatement stmt .drop => .dropped stmt
  | _ => .aside

def Event.deed : Event → Deed StmtHandle
  | .sent n _ _ req answer => req.deed n answer
  | _ => .aside

/-- The server's statements are these, and all of them have been allocated by now. -/
structure HoldsStatements (handles : List StmtHandle) (c : Conn) : Prop where
  owns : Owns Event.deed c.log handles
  earlier : ∀ h ∈ handles, h.alloc < c.requests

namespace HoldsStatements

variable {handles handles' : List StmtHandle} {stmt : StmtHandle}

theorem perm (h : HoldsStatements handles c) (hp : handles.Perm handles') : HoldsStatements handles' c :=
  ⟨h.owns.perm hp, fun s hs => h.earlier s (hp.mem_iff.mpr hs)⟩

theorem congr (h : HoldsStatements handles c) (hlog : c'.log = c.log) (hreq : c'.requests = c.requests) :
    HoldsStatements handles c' :=
  ⟨hlog ▸ h.owns, fun s hs => hreq ▸ h.earlier s hs⟩

theorem drop (h : HoldsStatements (stmt :: handles) c) :
    HoldsStatements handles (c.freeStatement link stmt .drop) := by
  have hsent : Owns Event.deed (c.send link true (.freeStatement stmt .drop)).log handles :=
    h.owns.dropped rfl
  refine ⟨hsent.aside rfl, fun s hs => ?_⟩
  exact Nat.lt_succ_of_lt (h.earlier s (List.mem_cons_of_mem _ hs))

theorem close (h : HoldsStatements handles c) (hs : stmt ∈ handles) :
    HoldsStatements handles (c.freeStatement link stmt .close) := by
  have hsent : Owns Event.deed (c.send link true (.freeStatement stmt .close)).log handles :=
    h.owns.used rfl hs
  exact ⟨hsent.aside rfl, fun s hs => Nat.lt_succ_of_lt (h.earlier s hs)⟩

theorem freeAll {infos : List PreparedStatementInfo} (h : HoldsStatements (infos.map (·.handle) ++ handles) c) :
    HoldsStatements handles (c.freeAll link infos) := by
  unfold Conn.freeAll
  induction infos generalizing c with
  | nil => exact h
  | cons info infos ih => exact ih h.drop

end HoldsStatements

/-! The statement cache -/

namespace StatementCache

variable {cache : StatementCache}

def handles (cache : StatementCache) : List StmtHandle := cache.map.map (·.2.handle)

/-- What `get`, `put` and `remove` keep. -/
structure Tidy (cache : StatementCache) : Prop where
  keys : (cache.map.map (·.1)).Nodup
  size : cache.map.length ≤ cache.capacity
  cacheable : ∀ e ∈ cache.map, e.2.description.stmtType.isCacheable = true

/-- A key that is there once is taken out whole. -/
theorem perm_filter_key {β : Type} {k : String} {entry : String × β} : ∀ {l : List (String × β)},
    (l.map (·.1)).Nodup → l.find? (·.1 == k) = some entry → l.Perm (entry :: l.filter (·.1 != k))
  | [], _, hfind => by cases hfind
  | a :: l, hnodup, hfind => by
    rw [List.map_cons, List.nodup_cons] at hnodup
    by_cases ha : a.1 = k
    · have hrest : l.filter (·.1 != k) = l := by
        apply List.filter_eq_self.mpr
        intro e he
        have hne : e.1 ≠ k := fun hk => hnodup.1 (ha.trans hk.symm ▸ List.mem_map_of_mem he)
        simpa using hne
      rw [List.find?_cons_of_pos (by simpa using ha)] at hfind
      rw [List.filter_cons_of_neg (by simpa using ha), hrest, Option.some.inj hfind]
    · rw [List.find?_cons_of_neg (by simpa using ha)] at hfind
      rw [List.filter_cons_of_pos (by simpa using ha)]
      exact ((perm_filter_key hnodup.2 hfind).cons a).trans (List.Perm.swap _ _ _)

theorem find_entry (h : cache.find sql = some info) : cache.map.find? (·.1 == sql) = some (sql, info) := by
  obtain ⟨entry, hentry, rfl⟩ := Option.map_eq_some_iff.mp h
  have hkey : entry.1 = sql := by simpa using List.find?_some hentry
  rw [hentry, ← hkey]

theorem find_mem (h : cache.find sql = some info) : (sql, info) ∈ cache.map :=
  List.mem_of_find?_eq_some (find_entry h)

theorem erase_absent (h : cache.find sql = none) : (cache.erase sql).map = cache.map := by
  have hnone := List.find?_eq_none.mp (Option.map_eq_none_iff.mp h)
  apply List.filter_eq_self.mpr
  intro e he
  simpa using hnone e he

theorem Tidy.erase_perm (h : cache.Tidy) (hfind : cache.find sql = some info) :
    cache.map.Perm ((sql, info) :: (cache.erase sql).map) :=
  perm_filter_key h.keys (find_entry hfind)

theorem Tidy.handles_perm (h : cache.Tidy) (hfind : cache.find sql = some info) :
    cache.handles.Perm (info.handle :: (cache.erase sql).handles) :=
  (h.erase_perm hfind).map fun e : String × PreparedStatementInfo => e.2.handle

theorem Tidy.erase (h : cache.Tidy) (sql : String) : (cache.erase sql).Tidy where
  keys := h.keys.sublist (List.filter_sublist.map _)
  size := Nat.le_trans (List.length_filter_le _ _) h.size
  cacheable e he := h.cacheable e (List.mem_of_mem_filter he)

theorem touch_handles : (cache.touch sql info).handles = (cache.erase sql).handles ++ [info.handle] :=
  List.map_append

theorem find_touch : (cache.touch sql info).find sql = some info := by
  have hrest : (cache.erase sql).map.find? (·.1 == sql) = none := by
    apply List.find?_eq_none.mpr
    intro e he
    simpa using (List.mem_filter.mp he).2
  unfold find touch
  rw [List.find?_append, hrest]
  simp

theorem Tidy.touch_keys (h : cache.Tidy) : ((cache.touch sql info).map.map (·.1)).Nodup := by
  have hrest := (h.erase sql).keys
  have hnew : sql ∉ (cache.erase sql).map.map (·.1) := by
    intro hmem
    obtain ⟨e, he, hkey⟩ := List.mem_map.mp hmem
    have hne : e.1 ≠ sql := by simpa using (List.mem_filter.mp he).2
    exact hne hkey
  unfold StatementCache.touch
  rw [List.map_append]
  exact hrest.append (List.nodup_singleton _) (by simpa using hnew)

theorem Tidy.touch_cacheable (h : cache.Tidy) (hinfo : info.description.stmtType.isCacheable = true) :
    ∀ e ∈ (cache.touch sql info).map, e.2.description.stmtType.isCacheable = true := by
  intro e he
  rcases List.mem_append.mp he with he | he
  · exact (h.erase sql).cacheable e he
  · rw [List.mem_singleton.mp he]
    exact hinfo

/-- Refreshing the position of an entry that is there. -/
theorem Tidy.touch_length (h : cache.Tidy) (hfind : cache.find sql = some info) :
    (cache.touch sql info).map.length = cache.map.length := by
  rw [(h.erase_perm hfind).length_eq]
  exact List.length_append

theorem Tidy.refreshed (h : cache.Tidy) (hfind : cache.find sql = some info) :
    (cache.touch sql info).Tidy where
  keys := h.touch_keys
  size := by
    rw [h.touch_length hfind]
    exact h.size
  cacheable := h.touch_cacheable (h.cacheable _ (find_mem hfind))

theorem Tidy.evict (h : cache.Tidy) (hinfo : info.description.stmtType.isCacheable = true) :
    (cache.touch sql info).evict.Tidy where
  keys := h.touch_keys.sublist ((List.drop_sublist _ _).map _)
  size := by
    change (List.drop _ _).length ≤ cache.capacity
    rw [List.length_drop]
    change _ - (_ - cache.capacity) ≤ cache.capacity
    omega
  cacheable e he := h.touch_cacheable hinfo e (List.mem_of_mem_drop he)

/-- What is evicted, and what stays. -/
theorem overflow_handles : (cache.overflow.map (·.2)).map (·.handle) ++ cache.evict.handles = cache.handles := by
  have hparts : cache.overflow.map (·.2.handle) ++ cache.evict.map.map (·.2.handle) = cache.handles := by
    rw [← List.map_append]
    exact congrArg _ (List.take_append_drop _ _)
  rw [List.map_map]
  exact hparts

theorem tidy_forget : ({ cache with map := [] } : StatementCache).Tidy :=
  ⟨List.nodup_nil, Nat.zero_le _, fun _ he => absurd he (List.not_mem_nil)⟩

end StatementCache

/-- The statements in the cache of the connection. -/
def Conn.shelved (c : Conn) : List StmtHandle := (c.cache.map (·.handles)).getD []

theorem shelved_some {cache : StatementCache} (h : c.cache = some cache) : c.shelved = cache.handles := by
  rw [Conn.shelved, h]
  rfl

theorem cacheFind_some {cache : StatementCache} (h : c.cache = some cache) : c.cacheFind sql = cache.find sql := by
  rw [Conn.cacheFind, h]
  rfl

theorem cacheGet_cached {cache : StatementCache} (hcache : c.cache = some cache)
    (hfind : cache.find sql = some info) :
    c.cacheGet sql = { c with cache := some (cache.touch sql info) } := by
  unfold Conn.cacheGet
  rw [cacheFind_some hcache, hcache, hfind]

theorem tidy_clearCache (h : ∀ cache ∈ c.cache, cache.Tidy) :
    ∀ cache ∈ (c.clearCache link).cache, cache.Tidy := by
  intro cache hcache
  unfold Conn.clearCache at hcache
  split at hcache
  · exact h cache hcache
  · obtain rfl := Option.some.inj hcache
    exact StatementCache.tidy_forget

theorem shelved_mem (h : c.cacheFind sql = some info) : info.handle ∈ c.shelved := by
  obtain ⟨cache, hcache, hfind⟩ := Option.bind_eq_some_iff.mp h
  rw [shelved_some hcache]
  exact List.mem_map.mpr ⟨_, StatementCache.find_mem hfind, rfl⟩

/-! What the operations on the cache do to the statements -/

section
variable {handles : List StmtHandle}

/-- The displaced entry and the ones beyond the capacity are dropped, the new one is in. -/
theorem HoldsStatements.cachePut {cache : StatementCache} (hcache : c.cache = some cache) (htidy : cache.Tidy)
    (hcapacity : cache.capacity ≠ 0) (h : HoldsStatements (c.shelved ++ info.handle :: handles) c) :
    HoldsStatements ((c.cachePut link sql info).shelved ++ handles) (c.cachePut link sql info) := by
  rw [shelved_some hcache] at h
  unfold Conn.cachePut
  rw [hcache]
  simp only [hcapacity, if_false]
  -- the statement that stood under the same text is another one, and gives way
  have hdisplaced : HoldsStatements ((cache.erase sql).handles ++ info.handle :: handles)
      (c.freeAll link ((cache.find sql).filter fun existing => existing.handle != info.handle).toList) := by
    cases hfind : cache.find sql with
    | none =>
      unfold StatementCache.handles
      rw [StatementCache.erase_absent hfind]
      exact h
    | some existing =>
      have hperm := (htidy.handles_perm hfind).append_right (info.handle :: handles)
      have hdistinct := (h.perm hperm).owns.nodup
      have hother : existing.handle ≠ info.handle := by
        intro heq
        rw [List.cons_append, List.nodup_cons, heq] at hdistinct
        exact hdistinct.1 (List.mem_append_right _ List.mem_cons_self)
      have hkeep : (existing.handle != info.handle) = true := by simpa using hother
      rw [Option.filter_some, hkeep]
      exact (h.perm hperm).drop
  have htouched : HoldsStatements ((cache.touch sql info).handles ++ handles)
      (c.freeAll link ((cache.find sql).filter fun existing => existing.handle != info.handle).toList) := by
    rw [StatementCache.touch_handles, List.append_assoc]
    exact hdisplaced
  rw [← StatementCache.overflow_handles, List.append_assoc] at htouched
  exact htouched.freeAll.congr rfl rfl

theorem cachePut_cached {cache : StatementCache} (hcache : c.cache = some cache) (htidy : cache.Tidy)
    (hfind : cache.find sql = some info) :
    c.cachePut link sql info = { c with cache := some (cache.touch sql info) } := by
  have hsize : (cache.touch sql info).map.length - cache.capacity = 0 := by
    rw [htidy.touch_length hfind]
    exact Nat.sub_eq_zero_of_le htidy.size
  have hpositive : cache.capacity ≠ 0 := by
    intro hzero
    have hlen := htidy.size
    have hmem := List.length_pos_of_mem (StatementCache.find_mem hfind)
    omega
  have hsame : (info.handle != info.handle) = false := by simp
  have hevict : (cache.touch sql info).evict = cache.touch sql info := by
    unfold StatementCache.evict
    rw [show (cache.touch sql info).capacity = cache.capacity from rfl, hsize, List.drop_zero]
    rfl
  have hoverflow : (cache.touch sql info).overflow = [] := by
    unfold StatementCache.overflow
    rw [show (cache.touch sql info).capacity = cache.capacity from rfl, hsize, List.take_zero]
  unfold Conn.cachePut
  rw [hcache]
  simp only [hpositive, if_false]
  rw [hfind, Option.filter_some, hsame, hevict, hoverflow]
  rfl

theorem HoldsStatements.cacheRemove (htidy : ∀ cache ∈ c.cache, cache.Tidy)
    (h : HoldsStatements (c.shelved ++ handles) c) :
    HoldsStatements ((c.cacheRemove link sql).shelved ++ handles) (c.cacheRemove link sql) := by
  unfold Conn.cacheRemove
  split
  · rename_i cache info hcache hfind
    have hentry : cache.find sql = some info := (cacheFind_some hcache).symm.trans hfind
    rw [shelved_some hcache] at h
    have hperm := ((htidy cache hcache).handles_perm hentry).append_right handles
    exact (h.perm hperm).drop.congr rfl rfl
  · exact h

theorem HoldsStatements.clearCache (h : HoldsStatements (c.shelved ++ handles) c) :
    HoldsStatements ((c.clearCache link).shelved ++ handles) (c.clearCache link) := by
  unfold Conn.clearCache
  split
  · exact h
  · rename_i cache hcache
    rw [shelved_some hcache] at h
    have hall : HoldsStatements ((cache.map.map (·.2)).map (·.handle) ++ handles) c := by
      rw [List.map_map]
      exact h
    exact hall.freeAll.congr rfl rfl

end

/-! What a session keeps -/

/-- The statements on the server are those in the cache, those of `held`, and at most `lost` more that
nobody can free. -/
structure Keeping (link : Link) (held : List StmtHandle) (lost : Nat) (c : Conn) : Prop where
  guard : Guard link 0 c
  tidy : ∀ cache ∈ c.cache, cache.Tidy
  server : ∃ missing : List StmtHandle, missing.length ≤ lost ∧
    (Clean c.log → HoldsStatements (c.shelved ++ (held ++ missing)) c)

/-- Every statement that a request was about was on the server. -/
def Accountable (c : Conn) : Prop := Clean c.log → (ledger Event.deed c.log).isSome

namespace Keeping

variable {held' : List StmtHandle} {stmt : StmtHandle}

theorem accountable (h : Keeping link held lost c) : Accountable c := by
  obtain ⟨missing, -, hserver⟩ := h.server
  exact fun hclean => (hserver hclean).owns.isSome

theorem move (h : Keeping link held lost c) (hguard : Guard link 0 c')
    (htidy : ∀ cache ∈ c'.cache, cache.Tidy) (hext : c.log <:+ c'.log)
    (hmove : ∀ missing, HoldsStatements (c.shelved ++ (held ++ missing)) c →
      HoldsStatements (c'.shelved ++ (held' ++ missing)) c') : Keeping link held' lost c' := by
  obtain ⟨missing, hlost, hserver⟩ := h.server
  exact ⟨hguard, htidy, missing, hlost, fun hclean => hmove missing (hserver (hclean.of_suffix hext))⟩

theorem perm (h : Keeping link held lost c) (hp : held.Perm held') : Keeping link held' lost c :=
  h.move h.guard h.tidy (List.suffix_refl _) fun missing hserver =>
    hserver.perm ((hp.append_right missing).append_left c.shelved)

theorem more {lost' : Nat} (h : Keeping link held lost c) (hle : lost ≤ lost') :
    Keeping link held lost' c := by
  obtain ⟨missing, hlost, hserver⟩ := h.server
  exact ⟨h.guard, h.tidy, missing, Nat.le_trans hlost hle, hserver⟩

/-- A statement is lost when its caller fails before it has it. -/
theorem lose (h : Keeping link (stmt :: held) lost c) : Keeping link held (lost + 1) c := by
  obtain ⟨missing, hlost, hserver⟩ := h.server
  refine ⟨h.guard, h.tidy, stmt :: missing, Nat.succ_le_succ hlost, fun hclean => ?_⟩
  have hmiddle : (stmt :: held ++ missing).Perm (held ++ stmt :: missing) := List.perm_middle.symm
  exact (hserver hclean).perm (hmiddle.append_left c.shelved)

theorem drop (h : Keeping link (stmt :: held) lost c) :
    Keeping link held lost (c.freeStatement link stmt .drop) := by
  apply h.move (guard_sendDeferred h.guard rfl) h.tidy (Conn.freeStatement_extends _ _ _)
  intro missing hserver
  have hfront := hserver.perm (@List.perm_middle _ stmt c.shelved (held ++ missing))
  exact hfront.drop

theorem close (h : Keeping link held lost c) (hs : stmt ∈ c.shelved ++ held) :
    Keeping link held lost (c.freeStatement link stmt .close) := by
  apply h.move (guard_sendDeferred h.guard rfl) h.tidy (Conn.freeStatement_extends _ _ _)
  intro missing hserver
  apply hserver.close
  rw [← List.append_assoc]
  exact List.mem_append_left _ hs

theorem cacheGet (h : Keeping link held lost c) (sql : String) :
    Keeping link held lost (c.cacheGet sql) := by
  have hguard := guard_cacheGet h.guard sql
  unfold Conn.cacheGet at hguard ⊢
  split
  · rename_i cache info hcache hfind
    have hentry : cache.find sql = some info := (cacheFind_some hcache).symm.trans hfind
    have htidy := h.tidy cache hcache
    rw [hcache, hfind] at hguard
    apply h.move hguard
    · intro cache' hcache'
      obtain rfl : cache.touch sql info = cache' := Option.some.inj hcache'
      exact htidy.refreshed hentry
    · exact List.suffix_refl _
    · intro missing hserver
      have hback : (cache.touch sql info).handles.Perm cache.handles := by
        rw [StatementCache.touch_handles]
        exact List.perm_append_comm.trans (htidy.handles_perm hentry).symm
      rw [shelved_some hcache] at hserver
      exact (hserver.perm (hback.symm.append_right _)).congr rfl rfl
  · exact h

theorem clearCache (h : Keeping link held lost c) : Keeping link held lost (c.clearCache link) := by
  exact h.move (guard_clearCache h.guard) (tidy_clearCache h.tidy) (Conn.clearCache_extends c)
    fun _ hserver => hserver.clearCache

theorem cacheRemove (h : Keeping link held lost c) (sql : String) :
    Keeping link held lost (c.cacheRemove link sql) := by
  apply h.move (guard_cacheRemove h.guard sql) ?_ ?_ fun _ hserver => hserver.cacheRemove h.tidy
  · intro cache hcache
    unfold Conn.cacheRemove at hcache
    split at hcache
    · rename_i found _ hfound _
      obtain rfl := Option.some.inj hcache
      exact (h.tidy found hfound).erase sql
    · exact h.tidy cache hcache
  · unfold Conn.cacheRemove
    split
    · exact Conn.freeStatement_extends _ _ _
    · exact List.suffix_refl _

theorem stars (h : Keeping link held lost c) (stars : List (String × String)) :
    Keeping link held lost { c with starCache := stars } :=
  h.move (h.guard.congr rfl rfl rfl rfl) h.tidy (List.suffix_refl _) fun _ hserver =>
    hserver.congr rfl rfl

theorem forgetSchema (h : Keeping link held lost c) (stmtType : StmtType) :
    Keeping link held lost (c.forgetSchema link stmtType) := by
  unfold Conn.forgetSchema
  split
  · exact h.clearCache.stars []
  · exact h

/-- A statement prepared for this run goes to the cache, or is dropped. -/
theorem park (h : Keeping link (info.handle :: held) lost c) (sql : String) :
    Keeping link held lost (c.park link sql info) := by
  unfold Conn.park
  split
  · rename_i hcached
    have hcacheable : info.description.stmtType.isCacheable = true := (Bool.and_eq_true_iff.mp hcached).2
    obtain ⟨cache, hcache, hpositive⟩ : ∃ cache, c.cache = some cache ∧ cache.capacity ≠ 0 := by
      cases hcache : c.cache with
      | none =>
        rw [hcache] at hcached
        cases hcached
      | some cache =>
        rw [hcache] at hcached
        have hpos := (Bool.and_eq_true_iff.mp hcached).1
        exact ⟨cache, rfl, Nat.pos_iff_ne_zero.mp (by simpa using hpos)⟩
    have htidy := h.tidy cache hcache
    apply h.move (guard_cachePut h.guard sql info) ?_ ?_ fun _ hserver =>
      HoldsStatements.cachePut hcache htidy hpositive hserver
    · intro cache' hcache'
      unfold Conn.cachePut at hcache'
      rw [hcache] at hcache'
      simp only [hpositive, if_false] at hcache'
      obtain rfl := Option.some.inj hcache'
      exact htidy.evict hcacheable
    · unfold Conn.cachePut
      rw [hcache]
      simp only [hpositive, if_false]
      exact (Conn.freeAll_extends _ _).trans (Conn.freeAll_extends _ _)
  · exact h.drop

theorem finishFresh (h : Keeping link (info.handle :: held) lost c) (sql : String) :
    Keeping link held lost (c.finishStatement link sql info) :=
  (h.forgetSchema info.description.stmtType).park sql

/-- A statement of the cache stays there. -/
theorem finishCached (h : Keeping link held lost c) (hfind : c.cacheFind sql = some info) :
    Keeping link held lost (c.finishStatement link sql info) := by
  obtain ⟨cache, hcache, hentry⟩ := Option.bind_eq_some_iff.mp hfind
  have htidy := h.tidy cache hcache
  have hmem := StatementCache.find_mem hentry
  have hcacheable := htidy.cacheable _ hmem
  have hno : info.description.stmtType ≠ .ddl := by
    intro hddl
    rw [hddl] at hcacheable
    cases hcacheable
  have hpositive : 0 < cache.capacity := Nat.lt_of_lt_of_le (List.length_pos_of_mem hmem) htidy.size
  have hput : c.finishStatement link sql info = { c with cache := some (cache.touch sql info) } := by
    rw [Conn.finishStatement, Conn.forgetSchema, if_neg hno, Conn.park, hcache, Option.any_some,
      decide_eq_true hpositive, hcacheable, Bool.and_self, if_pos rfl]
    exact cachePut_cached hcache htidy hentry
  -- putting it back only refreshes its position, as a hit does
  rw [hput, ← cacheGet_cached hcache hentry]
  exact h.cacheGet sql

end Keeping

end FastFirebird
