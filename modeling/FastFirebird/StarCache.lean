import FastFirebird.Machine
import FastFirebird.StarRewrite
import FastFirebird.Statement

/-! `resolveExpandStar` of `api/session.ts`, query after query on one connection: the rewrite of a
text is looked up by the text and the joined filters. -/
namespace FastFirebird.StarCache

/-- The filters of a query. -/
def filters (query : QueryOptions) : StarQuery :=
  { only := query.only.map (·.map String.toList)
    exclude := query.exclude.map (·.map String.toList) }

/-- A query that has been resolved. `answer` is what a prepare would have been answered. -/
structure Asked where
  sql : Text
  query : QueryOptions
  answer : Except FirebirdError (List SqlVarDesc)
  outcome : Except FirebirdError Text

/-- The prepared statements of the connection with the outputs described for each, and the rewrites.
`keeps` are the texts whose statements the cache takes. -/
structure Context where
  keeps : Text → Bool
  statements : List (Text × List SqlVarDesc) := []
  starCache : List (Text × Text) := []
  asked : List Asked := []

inductive Event where
  | query (sql : Text) (query : QueryOptions) (answer : Except FirebirdError (List SqlVarDesc))
  /-- Some other call leaves a statement in the cache. -/
  | prepared (sql : Text) (outputs : List SqlVarDesc)
  /-- A statement is evicted, or turns out stale. -/
  | dropped (sql : Text)

section

variable (maps : CaseMaps)

/-- `(names ?? []).join(',').toLowerCase()` -/
def joined (names : Option (List Text)) : Text :=
  maps.lower ((names.getD []).intersperse [',']).flatten

def starKey (sql : Text) (query : QueryOptions) : Text :=
  sql ++ '\x00' :: (joined maps (filters query).only ++
    '\x00' :: joined maps (filters query).exclude)

/-- `map.set(key, value)` -/
def set {α : Type} (key : Text) (value : α) (entries : List (Text × α)) : List (Text × α) :=
  (key, value) :: entries.filter (·.1 ≠ key)

/-- What a statement that is prepared leaves behind. -/
def finishStatement (sql : Text) (outputs : List SqlVarDesc) (ctx : Context) : Context :=
  if ctx.keeps sql then { ctx with statements := set sql outputs ctx.statements } else ctx

/-- The rewrite, once the outputs are known. -/
def rewriteStar (sql : Text) (query : QueryOptions) (outputs : List SqlVarDesc) :
    Except FirebirdError Text :=
  (·.getD sql) <$> expandStarSql maps sql outputs (filters query)

def resolveExpandStar (sql : Text) (query : QueryOptions)
    (answer : Except FirebirdError (List SqlVarDesc)) (ctx : Context) :
    Except FirebirdError Text × Context :=
  if query.expandStar then
    match ctx.starCache.lookup (starKey maps sql query) with
    | some hit => (.ok hit, ctx)
    | none =>
      let info := ctx.statements.lookup sql
      match info.elim answer .ok with
      | .error err => (.error err, ctx)
      | .ok outputs =>
        match rewriteStar maps sql query outputs with
        | .error err => (.error err, ctx)
        | .ok rewritten =>
          let ctx := if info.isNone then finishStatement sql outputs ctx else ctx
          (.ok rewritten,
            { ctx with starCache := set (starKey maps sql query) rewritten ctx.starCache })
  else (.ok sql, ctx)

def step (ctx : Context) : Event → Option Context
  | .query sql query answer =>
    let (outcome, ctx) := resolveExpandStar maps sql query answer ctx
    some { ctx with asked := ctx.asked ++ [⟨sql, query, answer, outcome⟩] }
  | .prepared sql outputs => some { ctx with statements := set sql outputs ctx.statements }
  | .dropped sql => some { ctx with statements := ctx.statements.filter (·.1 ≠ sql) }

def machine : Machine Context Event :=
  ⟨fun ctx => ctx.statements = [] ∧ ctx.starCache = [] ∧ ctx.asked = [], step maps⟩

/-! ### What the filters mean -/

/-- Filters that let the same columns pass: both with `only` or both without, and the same entries
but for upper and lower case. -/
structure SameFilters (a b : StarQuery) : Prop where
  only : a.only.isSome = b.only.isSome
  onlyNames : ∀ name, name ∈ (a.only.getD []).map maps.upper ↔ name ∈ (b.only.getD []).map maps.upper
  excludeNames : ∀ name,
    name ∈ (a.exclude.getD []).map maps.upper ↔ name ∈ (b.exclude.getD []).map maps.upper

variable {maps}

theorem contains_congr {a b : List Text} (h : ∀ name, name ∈ a ↔ name ∈ b) (name : Text) :
    a.contains name = b.contains name := by
  rw [Bool.eq_iff_iff, List.contains_iff_mem, List.contains_iff_mem]
  exact h name

theorem starKept_congr {a b : StarQuery} (h : SameFilters maps a b) (d : SqlVarDesc)
    (qualKey : Option Text) : starKept maps a d qualKey = starKept maps b d qualKey := by
  have hexclude := contains_congr h.excludeNames
  unfold starKept
  dsimp only
  rw [hexclude, hexclude]
  congr 2
  cases ha : a.only with
  | none =>
    cases hb : b.only with
    | none => rfl
    | some names =>
      have honly := h.only
      rw [ha, hb] at honly
      cases honly
  | some names =>
    cases hb : b.only with
    | none =>
      have honly := h.only
      rw [ha, hb] at honly
      cases honly
    | some names' =>
      have hnames := h.onlyNames
      rw [ha, hb] at hnames
      have hcontains := contains_congr hnames
      simp only [Option.getD_some] at hcontains
      simp only [Option.map_some, Option.all_some, hcontains]

theorem replacement_congr {a b : StarQuery} (h : SameFilters maps a b) :
    replacement maps a = replacement maps b := by
  funext star outputs
  have hcolumns : keptColumns maps a star outputs = keptColumns maps b star outputs :=
    List.filter_congr fun d _ => starKept_congr h d _
  unfold replacement
  rw [hcolumns]

theorem expandStarSql_congr {a b : StarQuery} (h : SameFilters maps a b) (sql : Text)
    (outputs : List SqlVarDesc) : expandStarSql maps sql outputs a = expandStarSql maps sql outputs b := by
  unfold expandStarSql replaceStars
  rw [replacement_congr h]

/-! ### Runs -/

variable (maps)

/-- Outputs are described as the schema has them. -/
def Event.Tells (describe : Text → List SqlVarDesc) : Event → Prop
  | .query sql _ answer => ∀ outputs, answer = .ok outputs → outputs = describe sql
  | .prepared sql outputs => outputs = describe sql
  | .dropped _ => True

/-- A query that shares its key with an earlier one shares its text, and the meaning of its filters. -/
def Event.Separate (ctx : Context) : Event → Prop
  | .query sql opts _ => opts.expandStar = true → ∀ a ∈ ctx.asked, a.query.expandStar = true →
    starKey maps a.sql a.query = starKey maps sql opts →
      a.sql = sql ∧ SameFilters maps (filters a.query) (filters opts)
  | .prepared .. | .dropped _ => True

/-- What a query comes to by itself. -/
def expected (describe : Text → List SqlVarDesc) (a : Asked) : Except FirebirdError Text :=
  if a.query.expandStar then rewriteStar maps a.sql a.query (describe a.sql) else .ok a.sql

/-- A query comes to what it comes to by itself, unless its prepare is refused. -/
def Asked.Right (describe : Text → List SqlVarDesc) (a : Asked) : Prop :=
  a.outcome = expected maps describe a ∨ ∃ err, a.answer = .error err ∧ a.outcome = .error err

structure Context.Sound (describe : Text → List SqlVarDesc) (ctx : Context) : Prop where
  statements : ∀ entry ∈ ctx.statements, entry.2 = describe entry.1
  starCache : ∀ entry ∈ ctx.starCache, ∃ a ∈ ctx.asked, a.query.expandStar = true ∧
    starKey maps a.sql a.query = entry.1 ∧ expected maps describe a = .ok entry.2
  asked : ∀ a ∈ ctx.asked, a.Right maps describe

variable {maps} {describe : Text → List SqlVarDesc} {ctx : Context}

theorem mem_of_lookup {α : Type} {key : Text} {value : α} {entries : List (Text × α)}
    (h : entries.lookup key = some value) : (key, value) ∈ entries := by
  obtain ⟨before, behind, rfl, -⟩ := List.lookup_eq_some_iff.mp h
  exact List.mem_append_right _ List.mem_cons_self

theorem mem_set {α : Type} {key : Text} {value : α} {entries : List (Text × α)} {entry : Text × α}
    (h : entry ∈ set key value entries) : entry = (key, value) ∨ entry ∈ entries :=
  (List.mem_cons.mp h).imp_right fun hmem => (List.mem_filter.mp hmem).1

theorem mem_finishStatement {sql : Text} {outputs : List SqlVarDesc} {entry : Text × List SqlVarDesc}
    (h : entry ∈ (finishStatement sql outputs ctx).statements) :
    entry = (sql, outputs) ∨ entry ∈ ctx.statements := by
  unfold finishStatement at h
  split at h
  · exact mem_set h
  · exact .inr h

theorem finishStatement_keeps (sql : Text) (outputs : List SqlVarDesc) (ctx : Context) :
    (finishStatement sql outputs ctx).starCache = ctx.starCache ∧
      (finishStatement sql outputs ctx).asked = ctx.asked := by
  unfold finishStatement
  split <;> exact ⟨rfl, rfl⟩

theorem resolveExpandStar_asked (sql : Text) (query : QueryOptions)
    (answer : Except FirebirdError (List SqlVarDesc)) (ctx : Context) :
    (resolveExpandStar maps sql query answer ctx).2.asked = ctx.asked := by
  unfold resolveExpandStar
  dsimp only
  split
  · split
    · rfl
    · split
      · rfl
      · split
        · rfl
        · dsimp only
          split
          · exact (finishStatement_keeps _ _ _).2
          · rfl
  · rfl

/-- One query more, with its own rewrite in the cache or with none. -/
theorem Context.Sound.add {ctx' : Context} {a : Asked} (h : ctx.Sound maps describe)
    (hstatements : ∀ entry ∈ ctx'.statements, entry ∈ ctx.statements ∨ entry.2 = describe entry.1)
    (hasked : ctx'.asked = ctx.asked ++ [a]) (hright : a.Right maps describe)
    (hcache : ∀ entry ∈ ctx'.starCache, entry ∈ ctx.starCache ∨ (a.query.expandStar = true ∧
      starKey maps a.sql a.query = entry.1 ∧ expected maps describe a = .ok entry.2)) :
    ctx'.Sound maps describe := by
  refine ⟨?_, ?_, ?_⟩
  · intro entry hentry
    rcases hstatements entry hentry with hold | hnew
    · exact h.statements entry hold
    · exact hnew
  · intro entry hentry
    rw [hasked]
    rcases hcache entry hentry with hold | hnew
    · obtain ⟨b, hb, hfacts⟩ := h.starCache entry hold
      exact ⟨b, List.mem_append_left _ hb, hfacts⟩
    · exact ⟨a, List.mem_append_right _ (List.mem_singleton.mpr rfl), hnew⟩
  · intro b hb
    rw [hasked] at hb
    rcases List.mem_append.mp hb with hb | hb
    · exact h.asked b hb
    · rw [List.mem_singleton.mp hb]
      exact hright

/-- A cached rewrite is what the query comes to by itself. -/
theorem Context.Sound.hit (h : ctx.Sound maps describe) {sql : Text} {query : QueryOptions}
    {answer : Except FirebirdError (List SqlVarDesc)} {hit : Text}
    (hexpand : query.expandStar = true) (hseparate : (Event.query sql query answer).Separate maps ctx)
    (hhit : ctx.starCache.lookup (starKey maps sql query) = some hit) :
    rewriteStar maps sql query (describe sql) = .ok hit := by
  obtain ⟨a, ha, hstar, hkey, hexpected⟩ := h.starCache _ (mem_of_lookup hhit)
  obtain ⟨rfl, hfilters⟩ := hseparate hexpand a ha hstar hkey
  rw [expected, if_pos hstar] at hexpected
  rw [rewriteStar, ← expandStarSql_congr hfilters]
  exact hexpected

theorem sound_query (h : ctx.Sound maps describe) {sql : Text} {query : QueryOptions}
    {answer : Except FirebirdError (List SqlVarDesc)}
    (htells : (Event.query sql query answer).Tells describe)
    (hseparate : (Event.query sql query answer).Separate maps ctx) :
    ({ (resolveExpandStar maps sql query answer ctx).2 with
      asked := (resolveExpandStar maps sql query answer ctx).2.asked ++
        [⟨sql, query, answer, (resolveExpandStar maps sql query answer ctx).1⟩] } :
      Context).Sound maps describe := by
  by_cases hexpand : query.expandStar = true
  · have hexpected (outcome : Except FirebirdError Text) :
        expected maps describe ⟨sql, query, answer, outcome⟩ =
          rewriteStar maps sql query (describe sql) := if_pos hexpand
    unfold resolveExpandStar
    rw [if_pos hexpand]
    cases hlookup : ctx.starCache.lookup (starKey maps sql query) with
    | some hit =>
      have hown := h.hit hexpand hseparate hlookup
      exact h.add (fun _ hmem => .inl hmem) rfl (.inl ((hexpected _).trans hown).symm)
        fun _ hmem => .inl hmem
    | none =>
      dsimp only
      cases hinfo : (ctx.statements.lookup sql).elim answer .ok with
      | error err =>
        -- the prepare is refused, for want of a cached statement
        have hrefused : answer = .error err := by
          cases hcached : ctx.statements.lookup sql with
          | none =>
            rw [hcached] at hinfo
            exact hinfo
          | some outputs =>
            rw [hcached] at hinfo
            cases hinfo
        exact h.add (fun _ hmem => .inl hmem) rfl (.inr ⟨err, hrefused, rfl⟩) fun _ hmem => .inl hmem
      | ok outputs =>
        have houtputs : outputs = describe sql := by
          cases hcached : ctx.statements.lookup sql with
          | none =>
            rw [hcached] at hinfo
            exact htells outputs hinfo
          | some outputs' =>
            rw [hcached] at hinfo
            obtain rfl := Except.ok.inj hinfo
            exact h.statements _ (mem_of_lookup hcached)
        subst houtputs
        dsimp only
        cases hrewrite : rewriteStar maps sql query (describe sql) with
        | error err =>
          exact h.add (fun _ hmem => .inl hmem) rfl (.inl ((hexpected _).trans hrewrite).symm)
            fun _ hmem => .inl hmem
        | ok rewritten =>
          dsimp only
          have hown := (hexpected (.ok rewritten)).trans hrewrite
          obtain ⟨hcache, hasked⟩ := finishStatement_keeps sql (describe sql) ctx
          have hright : (⟨sql, query, answer, .ok rewritten⟩ : Asked).Right maps describe :=
            .inl hown.symm
          refine h.add ?_ ?_ hright ?_
          · intro entry hentry
            dsimp only at hentry
            split at hentry
            · rcases mem_finishStatement hentry with rfl | hold
              · exact .inr rfl
              · exact .inl hold
            · exact .inl hentry
          · dsimp only
            split
            · rw [hasked]
            · rfl
          · intro entry hentry
            rcases mem_set hentry with rfl | hold
            · exact .inr ⟨hexpand, rfl, hown⟩
            · left
              split at hold
              · exact hcache ▸ hold
              · exact hold
  · have hown : expected maps describe ⟨sql, query, answer, .ok sql⟩ = .ok sql := if_neg hexpand
    unfold resolveExpandStar
    rw [if_neg hexpand]
    exact h.add (fun _ hmem => .inl hmem) rfl (.inl hown.symm) fun _ hmem => .inl hmem

theorem Context.Sound.step {ctx' : Context} {e : Event} (h : ctx.Sound maps describe)
    (htells : e.Tells describe) (hseparate : e.Separate maps ctx) (hstep : step maps ctx e = some ctx') :
    ctx'.Sound maps describe := by
  cases e with
  | query sql query answer =>
    obtain rfl := Option.some.inj hstep
    exact sound_query h htells hseparate
  | prepared sql outputs =>
    obtain rfl := Option.some.inj hstep
    refine ⟨fun entry hentry => ?_, h.starCache, h.asked⟩
    rcases mem_set hentry with rfl | hold
    · exact htells
    · exact h.statements entry hold
  | dropped sql =>
    obtain rfl := Option.some.inj hstep
    exact ⟨fun entry hentry => h.statements entry (List.mem_filter.mp hentry).1, h.starCache, h.asked⟩

/-- In a run in which queries of one key have one text, and filters of one meaning, every query
comes to what it comes to by itself. -/
theorem star_rewrites_transparent (maps : CaseMaps) (describe : Text → List SqlVarDesc) {ctx : Context}
    (h : (machine maps).Reachable (fun ctx e => e.Tells describe ∧ e.Separate maps ctx) ctx) :
    ∀ a ∈ ctx.asked, a.Right maps describe := by
  have hsound : ctx.Sound maps describe := by
    apply h.invariant (Context.Sound maps describe)
    · rintro ctx ⟨hstatements, hcache, hasked⟩
      refine ⟨?_, ?_, ?_⟩
      · rw [hstatements]
        exact fun _ hmem => absurd hmem List.not_mem_nil
      · rw [hcache]
        exact fun _ hmem => absurd hmem List.not_mem_nil
      · rw [hasked]
        exact fun _ hmem => absurd hmem List.not_mem_nil
    · exact fun ctx e ctx' hctx hok hstep => hctx.step hok.1 hok.2 hstep
  exact hsound.asked

/-- A table of one column. -/
def idOutputs : List SqlVarDesc :=
  [{ type := 496, nullable := false, subType := 0, scale := 0, length := 4, field := some "ID",
     relation := some "T", relationAlias := some "T" }]

def selectStar : Text := "select * from t".toList

theorem tells_idOutputs (query : QueryOptions) :
    (Event.query selectStar query (.ok idOutputs)).Tells fun _ => idOutputs :=
  fun _ h => (Except.ok.inj h).symm

theorem asked_query {sql : Text} {query : QueryOptions} {answer : Except FirebirdError (List SqlVarDesc)}
    {ctx' : Context} (h : (machine maps).step ctx (.query sql query answer) = some ctx') :
    ∀ a ∈ ctx'.asked, a ∈ ctx.asked ∨ a.sql = sql ∧ a.query = query := by
  have hasked : (resolveExpandStar maps sql query answer ctx).2.asked ++
      [⟨sql, query, answer, (resolveExpandStar maps sql query answer ctx).1⟩] = ctx'.asked :=
    congrArg Context.asked (Option.some.inj h)
  intro a ha
  rw [← hasked, resolveExpandStar_asked] at ha
  rcases List.mem_append.mp ha with hold | hnew
  · exact .inl hold
  · rw [List.mem_singleton.mp hnew]
    exact .inr ⟨rfl, rfl⟩

/-- The second query is answered from the cache, the third has a filter and its own entry. -/
theorem star_rewrites_transparent_three : ∃ ctx, (machine asciiCase).Reachable (fun _ _ => True) ctx ∧
    ctx.asked.length = 3 ∧ ctx.starCache.length = 2 ∧
    ∀ a ∈ ctx.asked, a.Right asciiCase fun _ => idOutputs := by
  have hinit : (machine asciiCase).Reachable
      (fun ctx e => e.Tells (fun _ => idOutputs) ∧ e.Separate asciiCase ctx)
      { keeps := fun _ => true } := .init ⟨rfl, rfl, rfl⟩
  obtain ⟨ctx₁, hstep₁⟩ : ∃ ctx, (machine asciiCase).step { keeps := fun _ => true }
      (.query selectStar { expandStar := true } (.ok idOutputs)) = some ctx := ⟨_, rfl⟩
  obtain ⟨ctx₂, hstep₂⟩ : ∃ ctx, (machine asciiCase).step ctx₁
      (.query selectStar { expandStar := true } (.ok idOutputs)) = some ctx := ⟨_, rfl⟩
  obtain ⟨ctx₃, hstep₃⟩ : ∃ ctx, (machine asciiCase).step ctx₂
      (.query selectStar { expandStar := true, only := some ["id"] } (.ok idOutputs)) = some ctx :=
    ⟨_, rfl⟩
  have hfirst := hinit.step ⟨tells_idOutputs _, fun _ a ha => absurd ha List.not_mem_nil⟩ hstep₁
  have hasked₁ : ∀ a ∈ ctx₁.asked, a.sql = selectStar ∧ a.query = { expandStar := true } := fun a ha =>
    (asked_query hstep₁ a ha).resolve_left List.not_mem_nil
  have hsecond := hfirst.step ⟨tells_idOutputs _, fun _ a ha _ _ => by
    rw [(hasked₁ a ha).1, (hasked₁ a ha).2]
    exact ⟨rfl, rfl, fun _ => Iff.rfl, fun _ => Iff.rfl⟩⟩ hstep₂
  have hkeys : starKey asciiCase selectStar { expandStar := true } ≠
      starKey asciiCase selectStar { expandStar := true, only := some ["id"] } := by decide
  have hthird := hsecond.step ⟨tells_idOutputs _, fun _ a ha _ hkey => by
    obtain ⟨hsql, hquery⟩ := (asked_query hstep₂ a ha).elim (hasked₁ a) id
    rw [hsql, hquery] at hkey
    exact absurd hkey hkeys⟩ hstep₃
  have hlengths : ctx₃.asked.length = 3 ∧ ctx₃.starCache.length = 2 := by
    obtain rfl := Option.some.inj hstep₁
    obtain rfl := Option.some.inj hstep₂
    obtain rfl := Option.some.inj hstep₃
    decide +kernel
  exact ⟨_, hthird.mono fun _ _ _ => trivial, hlengths.1, hlengths.2,
    star_rewrites_transparent asciiCase (fun _ => idOutputs) hthird⟩

/-- An empty `only` lets no column pass, and gets the rewrite of a query without one. -/
theorem empty_only_gets_all : ¬ ∀ ctx, (machine asciiCase).Reachable
    (fun _ e => e.Tells fun _ => idOutputs) ctx →
      ∀ a ∈ ctx.asked, a.Right asciiCase fun _ => idOutputs := by
  intro hall
  have hinit : (machine asciiCase).Reachable (fun _ e => e.Tells fun _ => idOutputs)
      { keeps := fun _ => true } := .init ⟨rfl, rfl, rfl⟩
  have hwrong : ((machine asciiCase).run { keeps := fun _ => true }
      [.query selectStar { expandStar := true } (.ok idOutputs),
        .query selectStar { expandStar := true, only := some [] } (.ok idOutputs)]).any (fun ctx =>
      ctx.asked.any fun a => a.outcome.isOk && a.answer.isOk &&
        !(expected asciiCase (fun _ => idOutputs) a).isOk) = true := by decide +kernel
  obtain ⟨ctx, hrun, hany⟩ := (Option.any_eq_true _ _).mp hwrong
  obtain ⟨a, ha, hfacts⟩ := List.any_eq_true.mp hany
  rw [Bool.and_eq_true, Bool.and_eq_true, Bool.not_eq_true'] at hfacts
  obtain ⟨⟨hgot, hanswer⟩, hown⟩ := hfacts
  have hreachable := hinit.run_of (fun e he ctx => by
    rcases List.mem_cons.mp he with rfl | he
    · exact tells_idOutputs _
    · rw [List.mem_singleton.mp he]
      exact tells_idOutputs _) hrun
  rcases hall ctx hreachable a ha with hright | ⟨err, herr, -⟩
  · rw [hright, hown] at hgot
    cases hgot
  · rw [herr] at hanswer
    cases hanswer

end

end FastFirebird.StarCache
