import FastFirebird.NamedParams
import FastFirebird.Packet

/-! `api/named-params.ts`: the values of an object, bound to the markers of a text. -/
namespace FastFirebird.Named

/-! ### Objects and their values -/

/-- A parameter object: under a name it has a value of its own, or inherits one, or has none.
A value that is `none` is `undefined`. -/
structure NamedParams (α : Type) where
  own : Text → Option (Option α)
  inherited : Text → Option (Option α)

inductive QueryParams (α : Type) where
  | positional (values : List (Option α))
  | named (params : NamedParams α)

section

variable {α : Type}

/-- `name in params` -/
def NamedParams.has (params : NamedParams α) (name : Text) : Bool :=
  (params.own name).isSome || (params.inherited name).isSome

/-- `params[name]` -/
def NamedParams.get (params : NamedParams α) (name : Text) : Option α :=
  ((params.own name).or (params.inherited name)).join

/-- What every object inherits that is written out in braces. -/
def objectPrototype : List Text :=
  ["constructor", "__defineGetter__", "__defineSetter__", "hasOwnProperty", "__lookupGetter__",
    "__lookupSetter__", "isPrototypeOf", "propertyIsEnumerable", "toString", "valueOf", "__proto__",
    "toLocaleString"].map String.toList

/-- `{ … }`, with what is inherited under a name. -/
def plainObject (properties : List (Text × Option α)) (builtin : Text → α) : NamedParams α where
  own name := properties.lookup name
  inherited name := if objectPrototype.contains name then some (some (builtin name)) else none

def paramError (message : Text) : FirebirdError := { message := String.ofList message }

/-- The names that are not found, each once. -/
def missingNames (params : NamedParams α) (names : List Text) : List Text :=
  names.foldl
    (fun missing name =>
      if params.has name || missing.contains name then missing else missing ++ [name])
    []

def missingMessage (missing : List Text) : Text :=
  "named parameter".toList ++ (if 1 < missing.length then ['s'] else []) ++
    " missing from params object: ".toList ++
      ((missing.map ('@' :: ·)).intersperse ", ".toList).flatten

def bindNamedParams (names : List Text) (params : NamedParams α) :
    Except FirebirdError (List (Option α)) :=
  let missing := missingNames params names
  if 0 < missing.length then .error (paramError (missingMessage missing))
  else .ok (names.map params.get)

def noMarkersMessage : Text :=
  "a named-parameter object was passed but the SQL has no @name markers — use a positional array for `?` parameters, or add @name markers".toList

def normalizeParams (sql : Text) (params : Option (QueryParams α)) :
    Except FirebirdError (Text × List (Option α)) :=
  match params with
  | none => .ok (sql, [])
  | some (.positional values) => .ok (sql, values)
  | some (.named params) =>
    let rewritten := rewriteNamedParams sql
    if rewritten.hasNamed then do
      let values ← bindNamedParams rewritten.names params
      pure (rewritten.sql, values)
    else .error (paramError noMarkersMessage)

/-! ### Which names are missing -/

theorem missingNames_nil_iff {params : NamedParams α} {names : List Text} :
    missingNames params names = [] ↔ ∀ name ∈ names, params.has name = true := by
  have hfold : ∀ (names missing : List Text),
      names.foldl (fun missing name =>
        if params.has name || missing.contains name then missing else missing ++ [name]) missing = [] ↔
        missing = [] ∧ ∀ name ∈ names, params.has name = true := by
    intro names
    induction names with
    | nil => simp
    | cons name names ih =>
      intro missing
      rw [List.foldl_cons, ih]
      by_cases hhas : params.has name = true
      · simp [hhas]
      · cases missing with
        | nil => simp [hhas]
        | cons first missing =>
          split <;> simp
  rw [missingNames, hfold]
  simp

theorem bindNamedParams_ok {params : NamedParams α} {names : List Text}
    (h : ∀ name ∈ names, params.has name = true) :
    bindNamedParams names params = .ok (names.map params.get) := by
  rw [bindNamedParams, missingNames_nil_iff.mpr h]
  rfl

theorem bindNamedParams_error {params : NamedParams α} {names : List Text} {name : Text}
    (hname : name ∈ names) (h : params.has name = false) :
    ∃ err, bindNamedParams names params = .error err := by
  have hne : missingNames params names ≠ [] := fun hnil =>
    Bool.false_ne_true (h.symm.trans (missingNames_nil_iff.mp hnil name hname))
  rw [bindNamedParams, if_pos (List.length_pos_iff.mpr hne)]
  exact ⟨_, rfl⟩

theorem rewriteNamedParams_hasNamed (sql : Text) :
    (rewriteNamedParams sql).hasNamed = true ↔ (rewriteNamedParams sql).names ≠ [] := by
  rw [← List.length_pos_iff]
  exact decide_eq_true_iff

theorem normalizeParams_named {sql : Text} {params : NamedParams α}
    (h : (rewriteNamedParams sql).names ≠ []) :
    normalizeParams sql (some (.named params)) = (do
      let values ← bindNamedParams (rewriteNamedParams sql).names params
      pure ((rewriteNamedParams sql).sql, values)) :=
  if_pos ((rewriteNamedParams_hasNamed sql).mpr h)

end

/-! ### Where a text takes values -/

/-- A positional parameter, or a marker. -/
inductive Place where
  | question
  | marker (name : Text)
  deriving Repr, DecidableEq

/-- The places outside of comments, literals and quoted identifiers, in order. -/
def placesFrom : Nat → Text → List Place
  | 0, _ => []
  | _ + 1, [] => []
  | fuel + 1, c :: rest =>
    match regionAt (c :: rest) with
    | some r => placesFrom fuel ((c :: rest).drop r.length)
    | none =>
      match markerHere (c :: rest) with
      | some (name, behind) => .marker name :: placesFrom fuel behind
      | none => (if c = '?' then [.question] else []) ++ placesFrom fuel rest

def places (text : Text) : List Place := placesFrom text.length text

def Place.name? : Place → Option Text
  | .question => none
  | .marker name => some name

/-- The names of the markers, one for each marker. -/
def markerNames (text : Text) : List Text := (places text).filterMap Place.name?

theorem placesFrom_fuel : ∀ {m n : Nat} {text : Text}, text.length ≤ m → text.length ≤ n →
    placesFrom m text = placesFrom n text := by
  intro m
  induction m with
  | zero =>
    intro n text hm _
    obtain rfl : text = [] := List.eq_nil_of_length_eq_zero (by omega)
    cases n <;> rfl
  | succ m ih =>
    intro n text hm hn
    cases text with
    | nil => cases n <;> rfl
    | cons c rest =>
      obtain _ | n := n
      · simp at hn
      simp only [List.length_cons] at hm hn
      rw [placesFrom, placesFrom]
      split
      · rename_i r hr
        have hpos := (regionAt_length hr).1
        have hdrop : ((c :: rest).drop r.length).length ≤ rest.length := by
          rw [List.length_drop, List.length_cons]
          omega
        exact ih (by omega) (by omega)
      · split
        · rename_i name behind hhere
          have hle := markerHere_length hhere
          simp only [List.length_cons] at hle
          have hbehind : placesFrom m behind = placesFrom n behind := ih (by omega) (by omega)
          rw [hbehind]
        · have hrest : placesFrom m rest = placesFrom n rest := ih (by omega) (by omega)
          rw [hrest]

section Places

variable {text : Text}

theorem places_region {r : Region} (h : regionAt text = some r) :
    places text = places (text.drop r.length) := by
  cases text with
  | nil => cases h
  | cons c rest =>
    have hpos := (regionAt_length h).1
    have hdrop : ((c :: rest).drop r.length).length ≤ rest.length := by
      rw [List.length_drop, List.length_cons]
      omega
    rw [places, List.length_cons, placesFrom, h]
    exact placesFrom_fuel hdrop le_rfl

theorem places_marker {name behind : Text} (h : regionAt text = none)
    (hhere : markerHere text = some (name, behind)) : places text = .marker name :: places behind := by
  cases text with
  | nil => cases hhere
  | cons c rest =>
    have hle := markerHere_length hhere
    rw [List.length_cons] at hle
    have hbehind : placesFrom rest.length behind = places behind :=
      placesFrom_fuel (by omega) le_rfl
    rw [places, List.length_cons, placesFrom, h, hhere]
    exact congrArg (Place.marker name :: ·) hbehind

theorem places_char {c : Char} (h : regionAt (c :: text) = none)
    (hhere : markerHere (c :: text) = none) :
    places (c :: text) = (if c = '?' then [.question] else []) ++ places text := by
  rw [places, List.length_cons, placesFrom, h, hhere]
  rfl

end Places

/-! ### What the loop writes -/

/-- A text, what it is rewritten to, and the names of its markers. -/
inductive Rewrites : Text → Text → List Text → Prop
  | done : Rewrites [] [] []
  | region {text left : Text} {r : Region} {names : List Text} (hr : regionAt text = some r)
      (hrest : Rewrites (text.drop r.length) left names) :
      Rewrites text (text.take r.length ++ left) names
  | marker {text name behind left : Text} {names : List Text} (hnone : regionAt text = none)
      (hhere : markerHere text = some (name, behind)) (hrest : Rewrites behind left names) :
      Rewrites text ('?' :: left) (name :: names)
  | char {c : Char} {rest left : Text} {names : List Text} (hnone : regionAt (c :: rest) = none)
      (hhere : markerHere (c :: rest) = none) (hrest : Rewrites rest left names) :
      Rewrites (c :: rest) (c :: left) names

theorem rewriteLoop_rewrites : ∀ {fuel : Nat} {text : Text}, text.length ≤ fuel →
    ∀ out run names, ∃ left found, Rewrites text left found ∧
      rewriteLoop fuel out run names text = (out ++ (run ++ left), names ++ found) := by
  intro fuel
  induction fuel with
  | zero =>
    intro text hlen out run names
    obtain rfl : text = [] := List.eq_nil_of_length_eq_zero (by omega)
    exact ⟨[], [], .done, by simp [rewriteLoop]⟩
  | succ fuel ih =>
    intro text hlen out run names
    cases text with
    | nil => exact ⟨[], [], .done, by simp [rewriteLoop]⟩
    | cons c rest =>
      simp only [List.length_cons] at hlen
      cases hr : regionAt (c :: rest) with
      | some r =>
        obtain ⟨k, hk, hmin⟩ := passOver_region hr
        have hbound := regionAt_length hr
        have hdrop : (c :: rest).drop k = (c :: rest).drop r.length := by
          rw [← hmin]
          rcases Nat.le_total k (c :: rest).length with hle | hle
          · rw [Nat.min_eq_left hle]
          · rw [Nat.min_eq_right hle, List.drop_length, List.drop_of_length_le hle]
        have htake : (c :: rest).take k = (c :: rest).take r.length := by
          rw [← hmin, ← List.take_eq_take_min]
        have hshort : ((c :: rest).drop r.length).length ≤ fuel := by
          rw [List.length_drop, List.length_cons]
          omega
        obtain ⟨left, found, hrest, hloop⟩ := ih hshort out (run ++ (c :: rest).take r.length) names
        refine ⟨_, found, .region hr hrest, ?_⟩
        rw [rewriteLoop, hk]
        simp only
        rw [hdrop, htake, hloop, List.append_assoc]
      | none =>
        have hpass := passOver_none hr
        cases hhere : markerHere (c :: rest) with
        | some found =>
          obtain ⟨name, behind⟩ := found
          have hle := markerHere_length hhere
          rw [List.length_cons] at hle
          obtain ⟨left, found, hrest, hloop⟩ :=
            @ih behind (by omega) (out ++ run ++ ['?']) [] (names ++ [name])
          refine ⟨_, _, .marker hr hhere hrest, ?_⟩
          rw [rewriteLoop, hpass, hhere]
          simp only
          rw [hloop]
          simp
        | none =>
          obtain ⟨left, found, hrest, hloop⟩ :=
            ih (Nat.le_of_succ_le_succ hlen) out (run ++ [c]) names
          refine ⟨_, found, .char hr hhere hrest, ?_⟩
          rw [rewriteLoop, hpass, hhere]
          simp only
          rw [hloop, List.append_assoc]
          rfl

theorem rewriteNamedParams_rewrites (sql : Text) :
    Rewrites sql (rewriteNamedParams sql).sql (rewriteNamedParams sql).names := by
  obtain ⟨left, found, hrewrites, hloop⟩ := @rewriteLoop_rewrites _ sql le_rfl [] [] []
  rw [rewriteNamedParams, hloop]
  exact hrewrites

section Rewrites

variable {text left : Text} {names : List Text}

/-- The first character stays, unless it is that of a marker. -/
theorem Rewrites.head (h : Rewrites text left names) :
    left.head? = text.head? ∨ (text.head? = some '@' ∧ left.head? = some '?') := by
  cases h with
  | done => exact .inl rfl
  | @region _ left r names hr hrest =>
    left
    obtain ⟨hpos, hle⟩ := regionAt_length hr
    cases text with
    | nil => cases hr
    | cons c rest =>
      obtain ⟨n, hn⟩ : ∃ n, r.length = n + 1 := ⟨r.length - 1, by omega⟩
      rw [hn]
      rfl
  | marker hnone hhere =>
    right
    unfold markerHere at hhere
    split at hhere
    · split at hhere
      · rename_i hmark
        rw [hmark.1]
        exact ⟨rfl, rfl⟩
      · cases hhere
    · cases hhere
  | char => exact .inl rfl

theorem Rewrites.nil (h : Rewrites [] left names) : left = [] := by
  cases h with
  | done => rfl
  | region hr => cases hr
  | marker _ hhere => cases hhere

/-- A line comment goes on until the end of its line. -/
theorem lineComment_stops {r : Region} (h : Opens text r) (hline : r.type = .lineComment) :
    (text.drop r.length).head?.any (!isEol ·) = false := by
  cases h with
  | lineComment rest =>
    have hdrop : ('-' :: '-' :: rest).drop (2 + (rest.takeWhile (!isEol ·)).length) =
        rest.dropWhile (!isEol ·) := by
      rw [Nat.add_comm]
      calc rest.drop (rest.takeWhile (!isEol ·)).length
        _ = (rest.takeWhile (!isEol ·) ++ rest.dropWhile (!isEol ·)).drop
            (rest.takeWhile (!isEol ·)).length := by rw [List.takeWhile_append_dropWhile]
        _ = rest.dropWhile (!isEol ·) := List.drop_left
    rw [hdrop]
    exact dropWhile_head _ _
  | _ => cases hline

/-- A region is where it was. -/
theorem Rewrites.region_kept {r : Region} (hr : regionAt text = some r)
    (h : Rewrites (text.drop r.length) left names) :
    regionAt (text.take r.length ++ left) = some r := by
  obtain ⟨hpos, hle⟩ := regionAt_length hr
  by_cases ht : r.terminated = true
  · have hopens := Opens.of_regionAt hr ht
    have hlen : (text.take r.length).length = r.length := List.length_take_of_le hle
    have hnext : MayFollow r (text.drop r.length) left := by
      rcases h.head with hsame | ⟨hat, hmark⟩
      · exact .inl hsame
      · right
        intro c hc
        obtain rfl := Option.some.inj (hmark.symm.trans hc)
        refine ⟨by decide, by decide, fun hline => ?_⟩
        have hstop := lineComment_stops hopens hline
        rw [hat] at hstop
        exact absurd hstop (by decide)
    rw [← List.take_append_drop r.length text] at hopens
    exact (hopens.retail hlen hnext).regionAt.1
  · have hend := regionAt_unterminated hr ht
    have hnil : text.drop r.length = [] := List.drop_of_length_le (Nat.le_of_eq hend.symm)
    rw [hnil] at h
    rw [h.nil, List.append_nil, List.take_of_length_le (Nat.le_of_eq hend.symm)]
    exact hr

/-- What is no region stays none. -/
theorem Rewrites.none_kept {c : Char} (hnone : regionAt (c :: text) = none)
    (h : Rewrites text left names) : regionAt (c :: left) = none := by
  obtain ⟨h₁, h₂, h₃, h₄, h₅⟩ := regionAt_eq_none.mp hnone
  have hhead : ∀ d, left.head? = some d → d = '?' ∨ text.head? = some d := by
    intro d hd
    rcases h.head with hsame | hmark
    · exact .inr (hsame ▸ hd)
    · exact .inl (Option.some.inj (hd.symm.trans hmark.2))
  rw [regionAt_eq_none]
  refine ⟨?_, ?_, ?_, h₄, h₅⟩
  · rintro ⟨hc, hd⟩
    exact h₁ ⟨hc, (hhead _ hd).resolve_left (by decide)⟩
  · rintro ⟨hc, hd⟩
    exact h₂ ⟨hc, (hhead _ hd).resolve_left (by decide)⟩
  · rintro ⟨hc, hd⟩
    exact h₃ ⟨hc, (hhead _ hd).resolve_left (by decide)⟩

theorem markerHere_none_iff {c : Char} :
    markerHere (c :: text) = none ↔ ¬ (c = '@' ∧ text.head?.any isIdentStart = true) := by
  cases text with
  | nil => simp [markerHere]
  | cons d part => simp [markerHere]

/-- In the rewritten text every place is a question mark. -/
theorem Rewrites.places_eq (h : Rewrites text left names) :
    places left = (places text).map fun _ => .question := by
  induction h with
  | done => rfl
  | @region text left r names hr hrest ih =>
    have hlen : (text.take r.length).length = r.length := List.length_take_of_le (regionAt_length hr).2
    have hdrop : (text.take r.length ++ left).drop r.length = left := List.drop_left' hlen
    rw [places_region hr, places_region (hrest.region_kept hr), hdrop, ih]
  | @marker text name behind left names hnone hhere hrest ih =>
    have hmark : regionAt ('?' :: left) = none := by
      rw [regionAt_eq_none]
      simp
    have hnot : markerHere ('?' :: left) = none := by
      rw [markerHere_none_iff]
      exact fun hno => absurd hno.1 (by decide)
    rw [places_char hmark hnot, places_marker hnone hhere, ih]
    rfl
  | @char c rest left names hnone hhere hrest ih =>
    have hnot : markerHere (c :: left) = none := by
      rw [markerHere_none_iff] at hhere ⊢
      rintro ⟨hc, hstart⟩
      rcases hrest.head with hsame | ⟨-, hmark⟩
      · exact hhere ⟨hc, hsame ▸ hstart⟩
      · rw [hmark] at hstart
        exact absurd hstart (by decide)
    rw [places_char (hrest.none_kept hnone) hnot, places_char hnone hhere, ih, List.map_append]
    split <;> rfl

theorem Rewrites.names_eq (h : Rewrites text left names) : names = markerNames text := by
  unfold markerNames
  induction h with
  | done => rfl
  | region hr _ ih =>
    rw [places_region hr]
    exact ih
  | marker hnone hhere _ ih =>
    rw [places_marker hnone hhere, ih]
    rfl
  | char hnone hhere _ ih =>
    rw [places_char hnone hhere, List.filterMap_append, ih]
    split <;> rfl

end Rewrites

/-- The markers of a text are its places, unless some of these are question marks already. -/
theorem length_markerNames (text : Text) :
    (markerNames text).length = (places text).length ↔ Place.question ∉ places text := by
  rw [markerNames, List.filterMap_length_eq_length]
  constructor
  · exact fun h hmem => absurd (h _ hmem) (by decide)
  · intro h place hmem
    cases place with
    | question => exact absurd hmem h
    | marker name => rfl

/-! ### Binding -/

section

variable {α : Type}

/-- Binding is exact: it throws for a text without markers and for a marker whose name is no key
of the object's own, and else each positional parameter gets the object's own value under the name
of its marker. -/
def BindsExactly (sql : Text) (params : NamedParams α) : Prop :=
  ((∃ err, normalizeParams sql (some (.named params)) = .error err) ↔
    markerNames sql = [] ∨ ∃ name ∈ markerNames sql, params.own name = none) ∧
  ∀ text values, normalizeParams sql (some (.named params)) = .ok (text, values) →
    (places text).length = values.length ∧ values.map some = (markerNames sql).map params.own

theorem get_own {params : NamedParams α} {name : Text} (h : params.own name ≠ none) :
    some (params.get name) = params.own name := by
  obtain ⟨value, hvalue⟩ := Option.ne_none_iff_exists'.mp h
  rw [NamedParams.get, hvalue]
  rfl

theorem has_of_own {params : NamedParams α} {name : Text} (h : params.own name ≠ none) :
    params.has name = true := by
  rw [NamedParams.has, Option.isSome_iff_ne_none.mpr h]
  rfl

theorem own_of_not_has {params : NamedParams α} {name : Text} (h : params.has name = false) :
    params.own name = none := by
  by_contra hown
  exact Bool.false_ne_true (h.symm.trans (has_of_own hown))

/-- What is bound, when every marker finds something. -/
theorem normalizeParams_found {sql : Text} {params : NamedParams α} (hmarkers : markerNames sql ≠ [])
    (h : ∀ name ∈ markerNames sql, params.has name = true) :
    normalizeParams sql (some (.named params)) =
      .ok ((rewriteNamedParams sql).sql, (markerNames sql).map params.get) := by
  have hnames := (rewriteNamedParams_rewrites sql).names_eq
  rw [normalizeParams_named (by rw [hnames]; exact hmarkers), hnames, bindNamedParams_ok h]
  rfl

/-- It throws for a text without markers, and if some marker finds nothing. -/
theorem normalizeParams_throws {sql : Text} {params : NamedParams α}
    (h : markerNames sql = [] ∨ ∃ name ∈ markerNames sql, params.has name = false) :
    ∃ err, normalizeParams sql (some (.named params)) = .error err := by
  have hnames := (rewriteNamedParams_rewrites sql).names_eq
  by_cases hmarkers : markerNames sql = []
  · have hnot : ¬ (rewriteNamedParams sql).hasNamed = true := by
      rw [rewriteNamedParams_hasNamed, hnames]
      exact not_not.mpr hmarkers
    exact ⟨_, if_neg hnot⟩
  · obtain ⟨name, hname, hmissing⟩ := h.resolve_left hmarkers
    obtain ⟨err, herr⟩ := bindNamedParams_error hname hmissing
    rw [normalizeParams_named (by rw [hnames]; exact hmarkers), hnames, herr]
    exact ⟨err, rfl⟩

/-- Binding is exact for a text without markers, for an object in which some marker finds nothing,
and for a text without question marks all of whose markers find a value of the object's own. -/
theorem bindsExactly_iff (sql : Text) (params : NamedParams α) :
    BindsExactly sql params ↔
      markerNames sql = [] ∨ (∃ name ∈ markerNames sql, params.has name = false) ∨
        (Place.question ∉ places sql ∧ ∀ name ∈ markerNames sql, params.own name ≠ none) := by
  by_cases hthrows : markerNames sql = [] ∨ ∃ name ∈ markerNames sql, params.has name = false
  · -- an error, and rightly so
    refine iff_of_true ⟨iff_of_true (normalizeParams_throws hthrows) ?_, ?_⟩ (or_assoc.mp (.inl hthrows))
    · exact hthrows.imp_right fun ⟨name, hname, hmissing⟩ => ⟨name, hname, own_of_not_has hmissing⟩
    · intro text values hok
      obtain ⟨err, herr⟩ := normalizeParams_throws hthrows
      rw [herr] at hok
      cases hok
  rw [not_or] at hthrows
  obtain ⟨hmarkers, hnone⟩ := hthrows
  have hfound : ∀ name ∈ markerNames sql, params.has name = true := by
    intro name hname
    by_contra hmissing
    exact hnone ⟨name, hname, Bool.not_eq_true _ ▸ hmissing⟩
  have hok := normalizeParams_found hmarkers hfound
  have hplaces : (places (rewriteNamedParams sql).sql).length = (places sql).length := by
    rw [(rewriteNamedParams_rewrites sql).places_eq, List.length_map]
  constructor
  · rintro ⟨hiff, hvalues⟩
    refine .inr (.inr ⟨?_, fun name hname hown => ?_⟩)
    · obtain ⟨hcount, -⟩ := hvalues _ _ hok
      rw [hplaces, List.length_map] at hcount
      exact (length_markerNames sql).mp hcount.symm
    · -- an inherited value, and no error
      obtain ⟨err, herr⟩ := hiff.mpr (.inr ⟨name, hname, hown⟩)
      rw [hok] at herr
      cases herr
  · intro h
    obtain ⟨hquestion, hown⟩ := (h.resolve_left hmarkers).resolve_left hnone
    refine ⟨iff_of_false ?_ ?_, ?_⟩
    · rintro ⟨err, herr⟩
      rw [hok] at herr
      cases herr
    · rintro (hnil | ⟨name, hname, hmissing⟩)
      · exact hmarkers hnil
      · exact hown name hname hmissing
    · intro text values hbound
      rw [hok] at hbound
      obtain ⟨rfl, rfl⟩ := Prod.mk.inj (Except.ok.inj hbound)
      refine ⟨?_, ?_⟩
      · rw [hplaces, List.length_map]
        exact ((length_markerNames sql).mpr hquestion).symm
      · rw [List.map_map]
        exact List.map_congr_left fun name hname => get_own (hown name hname)

/-- `{}` has no `constructor` of its own, and one is bound. -/
theorem constructor_bound : ¬ BindsExactly "values (@constructor)".toList
    (plainObject [] fun name => "function ".toList ++ name) := by
  rintro ⟨hiff, -⟩
  obtain ⟨err, herr⟩ := hiff.mpr (.inr ⟨"constructor".toList, by decide +kernel, rfl⟩)
  have hok : (normalizeParams "values (@constructor)".toList (some (.named
      (plainObject [] fun name => "function ".toList ++ name)))).isOk = true := by decide +kernel
  rw [herr] at hok
  cases hok

end

end FastFirebird.Named
