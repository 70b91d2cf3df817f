import FastFirebird.StarRegions

/-! When the lexer of `api/expand-star.ts` and the scanner of scripts see the same in a text. -/
namespace FastFirebird

open Cut (total chop chop_cons Cuts)

/-! What they are to agree on -/

/-- Comments, strings and q-literals. -/
def RegionType.isHidden : RegionType → Bool
  | .lineComment | .blockComment | .string | .qLiteral => true
  | .quotedIdentifier => false

def hides (label : Option Region) : Bool := label.any (·.type.isHidden)

def isQuoted (label : Option Region) : Bool := label.any (·.type == .quotedIdentifier)

/-- From where to where the tokens go. -/
def tokenPlaces (maps : CaseMaps) (sql : Text) : List (Cut.Placed Bool) :=
  (tokenize maps sql).map fun t =>
    ⟨true, sql.length - t.start.length, sql.length - t.stop.length⟩

def regionPlaces (sql : Text) : List (Cut.Placed (Option Region)) := Cut.places 0 (walk sql)

structure StarAgrees (maps : CaseMaps) (sql : Text) : Prop where
  /-- No token starts in a comment, a string or a q-literal. -/
  hidden : ∀ r ∈ regionPlaces sql, hides r.label = true →
    ∀ t ∈ tokenPlaces maps sql, r.covers t.start = false
  /-- A quoted identifier is one token. -/
  quoted : ∀ r ∈ regionPlaces sql, isQuoted r.label = true →
    (tokenPlaces maps sql).filter (·.meets r) = [⟨true, r.start, r.stop⟩]
  /-- What is no white space and not hidden is in one token. -/
  plain : ∀ i c, sql[i]? = some c → isSpace c = false →
    (∀ r ∈ regionPlaces sql, hides r.label = true → r.covers i = false) →
    ∃ t, (tokenPlaces maps sql).filter (·.covers i) = [t]

/-! The texts on which they do -/

def isQuote (c : Char) : Bool := c == '\'' || c == '"'

/-- An identifier or a number starts with it. -/
def startsWord (c : Char) : Bool := !isSpace c && (isIdStart c || ('0' ≤ c && c ≤ '9'))

/-- A region, a word or a character, and whether it is a word with a quote behind it. -/
def wordStep (text : Text) : Bool × Nat :=
  match regionAt text with
  | some r => (false, r.length)
  | none =>
    (text.head?.any startsWord && (text.drop (wordLength text)).head?.any isQuote, wordLength text)

/-- No identifier and no number has a quote right behind it. -/
def wordsApart (sql : Text) : Bool := (chop wordStep sql).all (!·.1)

inductive LineEnd where
  | agrees
  | misses
  | straddles
  deriving Repr, DecidableEq

/-- What the scanner sees in the next `n` characters: only what is hidden or white space, something
else, or something hidden that goes on behind them. -/
def lineEnd : Nat → Text → List (Option Region × Nat) → LineEnd
  | _, _, [] => .agrees
  | n, text, (label, m) :: pieces =>
    if n = 0 then .agrees
    else if hides label = false ∧ text.head?.any isSpace = false then .misses
    else if n < m then .straddles
    else lineEnd (n - m) (text.drop m) pieces

/-- A line comment is read up to a line feed, everything else as the scanner reads it. -/
def lineStep (text : Text) : LineEnd × Nat :=
  match regionAt text with
  | none => (.agrees, wordLength text)
  | some r =>
    if r.type = .lineComment then
      (lineEnd (1 + lineLength (text.drop 1)) text (walk text), 1 + lineLength (text.drop 1))
    else if r.type = .qLiteral ∧ (text.drop 1).length = 1 then (.misses, 1)
    else (.agrees, r.length)

/-- What comes of the first line comment that matters. -/
def lineEnds (sql : Text) : LineEnd :=
  (((chop lineStep sql).map Prod.fst).find? (· ≠ .agrees)).getD .agrees

theorem wordLength_bounds (c : Char) (rest : Text) :
    1 ≤ wordLength (c :: rest) ∧ wordLength (c :: rest) ≤ rest.length + 1 := by
  have hid := (List.takeWhile_prefix (l := rest) isIdPart).length_le
  have hnum := (List.takeWhile_prefix (l := rest) isNumPart).length_le
  simp only [wordLength]
  split
  · omega
  split
  · omega
  split
  · omega
  · omega

theorem wordStep_cuts : Cuts wordStep := by
  intro c rest
  cases h : regionAt (c :: rest) with
  | none =>
    rw [wordStep, h]
    exact wordLength_bounds c rest
  | some r =>
    rw [wordStep, h]
    exact regionAt_length h

theorem lineStep_region {c : Char} {rest : Text} {r : Region}
    (h : regionAt (c :: rest) = some r) : lineStep (c :: rest) =
      if r.type = .lineComment then
        (lineEnd (1 + lineLength rest) (c :: rest) (walk (c :: rest)), 1 + lineLength rest)
      else if r.type = .qLiteral ∧ rest.length = 1 then (.misses, 1)
      else (.agrees, r.length) := by
  rw [lineStep, h]
  rfl

/-- The lexer takes what `lineStep` takes. -/
theorem lineStep_length (c : Char) (rest : Text) :
    (lineStep (c :: rest)).2 = (lexStep (c :: rest)).length := by
  cases h : regionAt (c :: rest) with
  | none =>
    rw [lineStep, h, lexStep_char h]
    by_cases hspace : isSpace c = true
    · rw [if_pos hspace]
      simp only [wordLength, if_pos hspace, LexStep.length]
    · rw [if_neg hspace]
      rfl
  | some r =>
    rw [lineStep_region h, lexStep_region h]
    by_cases hline : r.type = .lineComment
    · rw [if_pos hline, if_pos hline]
      rfl
    rw [if_neg hline, if_neg hline]
    by_cases hend : r.type = .qLiteral ∧ rest.length = 1
    · rw [if_pos hend, if_pos hend]
      rfl
    rw [if_neg hend, if_neg hend]
    split <;> rfl

theorem lineStep_cuts : Cuts lineStep := by
  intro c rest
  rw [lineStep_length]
  exact lexStep_bounds c rest

theorem wordsApart_cons {c : Char} {rest : Text} (h : wordsApart (c :: rest) = true) :
    (wordStep (c :: rest)).1 = false ∧
      wordsApart ((c :: rest).drop (wordStep (c :: rest)).2) = true := by
  rw [wordsApart, chop_cons wordStep_cuts, List.all_cons, Bool.and_eq_true] at h
  exact ⟨by simpa using h.1, h.2⟩

theorem wordsApart_region {text : Text} {r : Region} (h : wordsApart text = true)
    (hregion : regionAt text = some r) : wordsApart (text.drop r.length) = true := by
  cases text with
  | nil => cases hregion
  | cons c rest =>
    have hbehind := (wordsApart_cons h).2
    rw [wordStep, hregion] at hbehind
    exact hbehind

theorem wordsApart_word {c : Char} {rest : Text} (h : wordsApart (c :: rest) = true)
    (hregion : regionAt (c :: rest) = none) :
    wordsApart ((c :: rest).drop (wordLength (c :: rest))) = true := by
  have hbehind := (wordsApart_cons h).2
  rw [wordStep, hregion] at hbehind
  exact hbehind

theorem wordsApart_space {c : Char} {rest : Text} (h : wordsApart (c :: rest) = true)
    (hspace : isSpace c = true) : wordsApart rest = true := by
  have hbehind := wordsApart_word h (isSpace_opensNothing hspace rest)
  simp only [wordLength, if_pos hspace] at hbehind
  exact hbehind

theorem lineEnds_cons (c : Char) (rest : Text) : lineEnds (c :: rest) =
    if (lineStep (c :: rest)).1 = .agrees then
      lineEnds ((c :: rest).drop (lexStep (c :: rest)).length)
    else (lineStep (c :: rest)).1 := by
  rw [lineEnds, chop_cons lineStep_cuts, List.map_cons, List.find?_cons, lineStep_length]
  by_cases h : (lineStep (c :: rest)).1 = .agrees
  · rw [if_pos h, h]
    rfl
  · rw [if_neg h, decide_eq_true h]
    rfl

/-! Steps of the lexer and regions that go together -/

def isBlank (sql : Text) (i : Nat) : Bool := sql[i]?.any isSpace

/-- The lexer skips only what is blank or hidden, starts no token in what is hidden, and takes a
quoted identifier for a token. -/
structure Synced (sql : Text) (steps : List (Cut.Placed Bool))
    (regions : List (Cut.Placed (Option Region))) : Prop where
  skipped : ∀ p ∈ steps, p.label = false → ∀ i, p.covers i = true →
    isBlank sql i = true ∨ ∃ r ∈ regions, hides r.label = true ∧ r.covers i = true
  quoted : ∀ r ∈ regions, isQuoted r.label = true → ⟨true, r.start, r.stop⟩ ∈ steps
  hidden : ∀ r ∈ regions, hides r.label = true → ∀ p ∈ steps, p.label = true →
    r.covers p.start = false

/-- The lexer starts a token in what is hidden, or skips what is neither hidden nor blank. -/
inductive Unsynced (sql : Text) (steps : List (Cut.Placed Bool))
    (regions : List (Cut.Placed (Option Region))) : Prop where
  | inside {p : Cut.Placed Bool} {r : Cut.Placed (Option Region)} (hp : p ∈ steps) (htoken : p.label = true)
    (hr : r ∈ regions) (hhides : hides r.label = true) (hcovers : r.covers p.start = true)
  | missed {p : Cut.Placed Bool} {r : Cut.Placed (Option Region)} {i : Nat} (hp : p ∈ steps)
    (hskip : p.label = false) (hpi : p.covers i = true) (hr : r ∈ regions)
    (hseen : hides r.label = false) (hri : r.covers i = true) (hblank : isBlank sql i = false)

theorem Synced.append {sql : Text} {m : Nat} {steps more : List (Cut.Placed Bool)}
    {regions others : List (Cut.Placed (Option Region))} (h : Synced sql steps regions)
    (h' : Synced sql more others) (hsteps : ∀ p ∈ steps, p.start < m)
    (hregions : ∀ r ∈ regions, r.stop ≤ m) (hmore : ∀ p ∈ more, m ≤ p.start)
    (hothers : ∀ r ∈ others, m ≤ r.start) : Synced sql (steps ++ more) (regions ++ others) where
  skipped p hp hskip i hi := by
    rcases List.mem_append.mp hp with hp | hp
    · apply (h.skipped p hp hskip i hi).imp_right
      exact fun ⟨r, hr, hcovers⟩ => ⟨r, List.mem_append_left _ hr, hcovers⟩
    · apply (h'.skipped p hp hskip i hi).imp_right
      exact fun ⟨r, hr, hcovers⟩ => ⟨r, List.mem_append_right _ hr, hcovers⟩
  quoted r hr hquoted := by
    rcases List.mem_append.mp hr with hr | hr
    · exact List.mem_append_left _ (h.quoted r hr hquoted)
    · exact List.mem_append_right _ (h'.quoted r hr hquoted)
  hidden r hr hhides p hp htoken := by
    rcases List.mem_append.mp hr with hr | hr <;> rcases List.mem_append.mp hp with hp | hp
    · exact h.hidden r hr hhides p hp htoken
    · have hstop := hregions r hr
      have hstart := hmore p hp
      rw [← Bool.not_eq_true, Cut.Placed.covers_iff]
      omega
    · have hstart := hsteps p hp
      have hbehind := hothers r hr
      rw [← Bool.not_eq_true, Cut.Placed.covers_iff]
      omega
    · exact h'.hidden r hr hhides p hp htoken

theorem Unsynced.behind {sql : Text} {steps more : List (Cut.Placed Bool)}
    {regions others : List (Cut.Placed (Option Region))} (h : Unsynced sql more others) :
    Unsynced sql (steps ++ more) (regions ++ others) := by
  cases h with
  | inside hp htoken hr hhides hcovers =>
    exact .inside (List.mem_append_right _ hp) htoken (List.mem_append_right _ hr) hhides hcovers
  | missed hp hskip hpi hr hseen hri hblank =>
    exact .missed (List.mem_append_right _ hp) hskip hpi (List.mem_append_right _ hr) hseen hri
      hblank

/-- Hidden, or blank from end to end. -/
def Silent (sql : Text) (r : Cut.Placed (Option Region)) : Prop :=
  hides r.label = true ∨ r.label = none ∧ ∀ i, r.covers i = true → isBlank sql i = true

theorem hides_not_quoted {label : Option Region} (h : hides label = true) :
    isQuoted label = false := by
  cases label with
  | none => rfl
  | some r =>
    obtain ⟨type, length, terminated⟩ := r
    cases type with
    | quotedIdentifier => cases h
    | lineComment | blockComment | string | qLiteral => rfl

theorem Silent.not_quoted {sql : Text} {r : Cut.Placed (Option Region)} (h : Silent sql r) :
    isQuoted r.label = false := by
  rcases h with h | ⟨h, -⟩
  · exact hides_not_quoted h
  · rw [h]
    rfl

theorem synced_skip {sql : Text} {k n : Nat} {pieces : List (Option Region × Nat)}
    (htotal : total pieces = n) (hsilent : ∀ r ∈ Cut.places k pieces, Silent sql r) :
    Synced sql (Cut.places k [(false, n)]) (Cut.places k pieces) where
  skipped p hp _ i hi := by
    obtain rfl := List.mem_singleton.mp hp
    have hbounds := Cut.Placed.covers_iff.mp hi
    dsimp only at hbounds
    obtain ⟨r, hr, hcovers⟩ := @Cut.exists_covers _ pieces k i hbounds.1 (by omega)
    rcases hsilent r hr with hhides | ⟨-, hblank⟩
    · exact .inr ⟨r, hr, hhides, hcovers⟩
    · exact .inl (hblank i hcovers)
  quoted r hr hquoted := by
    rw [(hsilent r hr).not_quoted] at hquoted
    cases hquoted
  hidden r hr hhides p hp htoken := by
    obtain rfl := List.mem_singleton.mp hp
    cases htoken

theorem synced_token {sql : Text} {k n : Nat} {pieces : List (Option Region × Nat)}
    (hseen : ∀ r ∈ Cut.places k pieces, hides r.label = false)
    (hquoted : ∀ r ∈ Cut.places k pieces, isQuoted r.label = true → r.start = k ∧ r.stop = k + n) :
    Synced sql (Cut.places k [(true, n)]) (Cut.places k pieces) where
  skipped p hp hskip := by
    obtain rfl := List.mem_singleton.mp hp
    cases hskip
  quoted r hr h := by
    obtain ⟨hstart, hstop⟩ := hquoted r hr h
    rw [hstart, hstop]
    exact List.mem_singleton.mpr rfl
  hidden r hr hhides := by
    rw [hseen r hr] at hhides
    cases hhides

/-! What the lexer takes with a line comment -/

theorem isSpace_of_region {c : Char} {rest : Text} {r : Region}
    (h : regionAt (c :: rest) = some r) : isSpace c = false := by
  apply Bool.eq_false_iff.mpr
  intro hspace
  rw [isSpace_opensNothing hspace] at h
  cases h

theorem lineEnd_char {c : Char} {rest : Text} (h : regionAt (c :: rest) = none) (n : Nat) :
    lineEnd (n + 1) (c :: rest) (walk (c :: rest)) =
      if isSpace c then lineEnd n rest (walk rest) else .misses := by
  rw [walk_char h, lineEnd, if_neg (Nat.succ_ne_zero n)]
  cases hspace : isSpace c with
  | true => simp [hspace]
  | false => simp [hspace, hides]

theorem lineEnd_region {c : Char} {rest : Text} {r : Region} (h : regionAt (c :: rest) = some r)
    (n : Nat) : lineEnd (n + 1) (c :: rest) (walk (c :: rest)) =
      if hides (some r) = false then .misses
      else if n + 1 < r.length then .straddles
      else lineEnd (n + 1 - r.length) ((c :: rest).drop r.length)
        (walk ((c :: rest).drop r.length)) := by
  have hhead : (c :: rest).head?.any isSpace = false := isSpace_of_region h
  rw [walk_region h, lineEnd, if_neg (Nat.succ_ne_zero n)]
  simp only [hhead, and_true]

theorem isBlank_head {sql rest : Text} {c : Char} {k : Nat} (h : sql.drop k = c :: rest) :
    isBlank sql k = isSpace c := by
  have hget : (sql.drop k)[0]? = some c := by
    rw [h]
    rfl
  rw [List.getElem?_drop, Nat.add_zero] at hget
  rw [isBlank, hget]
  rfl

theorem drop_behind {sql text : Text} {k : Nat} (h : sql.drop k = text) (n : Nat) :
    sql.drop (k + n) = text.drop n := by
  rw [← h, List.drop_drop]

theorem silent_space {sql rest : Text} {c : Char} {k : Nat} (h : sql.drop k = c :: rest)
    (hspace : isSpace c = true) : Silent sql ⟨none, k, k + 1⟩ := by
  refine .inr ⟨rfl, fun i hi => ?_⟩
  have hbounds := Cut.Placed.covers_iff.mp hi
  dsimp only at hbounds
  obtain rfl : i = k := by omega
  rw [isBlank_head h, hspace]

theorem lineEnd_agrees {sql : Text} (text : Text) : ∀ {n k : Nat}, sql.drop k = text →
    n ≤ text.length → wordsApart text = true → lineEnd n text (walk text) = .agrees →
    ∃ pieces, walk text = pieces ++ walk (text.drop n) ∧ total pieces = n ∧
      (∀ r ∈ Cut.places k pieces, Silent sql r) ∧ wordsApart (text.drop n) = true := by
  induction text using Cut.chop_induction regionStep_cuts with
  | nil =>
    intro n k _ hlen hapart _
    obtain rfl : n = 0 := Nat.le_zero.mp hlen
    exact ⟨[], rfl, rfl, fun r hr => absurd hr List.not_mem_nil, hapart⟩
  | cons c rest ih =>
    intro n k hdrop hlen hapart hend
    cases n with
    | zero => exact ⟨[], rfl, rfl, fun r hr => absurd hr List.not_mem_nil, hapart⟩
    | succ n =>
      cases hregion : regionAt (c :: rest) with
      | none =>
        rw [lineEnd_char hregion] at hend
        rw [regionStep, hregion] at ih
        cases hspace : isSpace c with
        | false =>
          rw [hspace] at hend
          cases hend
        | true =>
          rw [hspace] at hend
          have hrest := wordsApart_space hapart hspace
          rw [List.length_cons] at hlen
          obtain ⟨pieces, hwalk, htotal, hsilent, hbehind⟩ :=
            ih (drop_behind hdrop 1) (Nat.le_of_succ_le_succ hlen) hrest hend
          refine ⟨(none, 1) :: pieces, ?_, ?_, ?_, hbehind⟩
          · rw [walk_char hregion]
            exact congrArg _ hwalk
          · rw [total, List.map_cons, List.sum_cons, ← total, htotal, Nat.add_comm]
          · intro r hr
            rcases List.mem_cons.mp hr with rfl | hr
            · exact silent_space hdrop hspace
            · exact hsilent r hr
      | some found =>
        rw [lineEnd_region hregion] at hend
        rw [regionStep, hregion] at ih
        split at hend
        · cases hend
        rename_i hseen
        split at hend
        · cases hend
        rename_i hfits
        have hshort : n + 1 - found.length ≤ ((c :: rest).drop found.length).length := by
          rw [List.length_drop]
          omega
        obtain ⟨pieces, hwalk, htotal, hsilent, hbehind⟩ :=
          ih (drop_behind hdrop found.length) hshort (wordsApart_region hapart hregion) hend
        have htwice : ((c :: rest).drop found.length).drop (n + 1 - found.length) =
            (c :: rest).drop (n + 1) := by
          rw [List.drop_drop]
          congr 1
          omega
        rw [htwice] at hwalk hbehind
        refine ⟨(some found, found.length) :: pieces, ?_, ?_, ?_, hbehind⟩
        · rw [walk_region hregion]
          exact congrArg _ hwalk
        · rw [total, List.map_cons, List.sum_cons, ← total, htotal]
          omega
        · intro r hr
          rcases List.mem_cons.mp hr with rfl | hr
          · exact .inl (Bool.not_eq_false _ ▸ hseen)
          · exact hsilent r hr

/-- What the scanner sees ahead of the line feed is skipped with the comment. -/
theorem lineEnd_misses {sql : Text} (text : Text) : ∀ {n k : Nat}, sql.drop k = text →
    lineEnd n text (walk text) = .misses →
    ∃ r ∈ Cut.places k (walk text), hides r.label = false ∧
      ∃ i, i < k + n ∧ r.covers i = true ∧ isBlank sql i = false := by
  induction text using Cut.chop_induction regionStep_cuts with
  | nil =>
    intro n k _ hend
    cases hend
  | cons c rest ih =>
    intro n k hdrop hend
    cases n with
    | zero =>
      have hzero : lineEnd 0 (c :: rest) (walk (c :: rest)) = .agrees := by
        cases walk (c :: rest) with
        | nil => rfl
        | cons piece pieces => rfl
      rw [hzero] at hend
      cases hend
    | succ n =>
      cases hregion : regionAt (c :: rest) with
      | none =>
        rw [lineEnd_char hregion] at hend
        rw [regionStep, hregion] at ih
        rw [walk_char hregion, Cut.places]
        cases hspace : isSpace c with
        | false =>
          refine ⟨⟨none, k, k + 1⟩, List.mem_cons_self, rfl, k, by omega, ?_, ?_⟩
          · exact Cut.Placed.covers_iff.mpr ⟨le_rfl, Nat.lt_succ_self k⟩
          · rw [isBlank_head hdrop, hspace]
        | true =>
          rw [hspace] at hend
          obtain ⟨r, hr, hseen, i, hi, hcovers, hblank⟩ := ih (drop_behind hdrop 1) hend
          exact ⟨r, List.mem_cons_of_mem _ hr, hseen, i, by omega, hcovers, hblank⟩
      | some found =>
        have hbounds := regionAt_length hregion
        rw [lineEnd_region hregion] at hend
        rw [regionStep, hregion] at ih
        rw [walk_region hregion, Cut.places]
        split at hend
        · rename_i hseen
          refine ⟨⟨some found, k, k + found.length⟩, List.mem_cons_self, hseen, k, by omega, ?_, ?_⟩
          · exact Cut.Placed.covers_iff.mpr ⟨le_rfl, by dsimp only; omega⟩
          · rw [isBlank_head hdrop, isSpace_of_region hregion]
        split at hend
        · cases hend
        obtain ⟨r, hr, hseen, i, hi, hcovers, hblank⟩ :=
          ih (drop_behind hdrop found.length) hend
        exact ⟨r, List.mem_cons_of_mem _ hr, hseen, i, by omega, hcovers, hblank⟩

/-! A word for the scanner -/

/-- No region starts with it, unless it is a `q` and a quote follows. -/
def OpensNone (c : Char) : Prop := c ≠ '-' ∧ c ≠ '/' ∧ c ≠ '\'' ∧ c ≠ '"'

theorem isIdPart_opensNone {c : Char} (h : isIdPart c = true) : OpensNone c := by
  refine ⟨?_, ?_, ?_, ?_⟩ <;> rintro rfl <;> exact absurd h (by decide)

theorem isNumPart_opensNone {c : Char} (h : isNumPart c = true) : OpensNone c := by
  refine ⟨?_, ?_, ?_, ?_⟩ <;> rintro rfl <;> exact absurd h (by decide)

theorem walk_plain {x : Text} (hx : x.head? ≠ some '\'') : ∀ {w : Text},
    (∀ c ∈ w, OpensNone c) → walk (w ++ x) = List.replicate w.length (none, 1) ++ walk x
  | [], _ => rfl
  | c :: w, hw => by
    obtain ⟨hdash, hslash, happos, hquote⟩ := hw c List.mem_cons_self
    have hnext : (w ++ x).head? ≠ some '\'' := by
      cases w with
      | nil => exact hx
      | cons d w =>
        have hd := (hw d (List.mem_cons_of_mem _ List.mem_cons_self)).2.2.1
        exact fun he => hd (Option.some.inj he)
    have hnone : regionAt (c :: (w ++ x)) = none :=
      regionAt_eq_none.mpr ⟨fun h => hdash h.1, fun h => hslash h.1, fun h => hnext h.2, happos,
        hquote⟩
    have hrest := walk_plain hx fun d hd => hw d (List.mem_cons_of_mem _ hd)
    rw [List.cons_append, walk_char hnone, hrest]
    rfl

/-- The characters of a word that `p` describes, but for the first. -/
theorem walk_takeWhile {c : Char} {rest : Text} {p : Char → Bool}
    (hregion : regionAt (c :: rest) = none) (hp : ∀ d, p d = true → OpensNone d)
    (hbehind : ((c :: rest).drop (1 + (rest.takeWhile p).length)).head?.any isQuote = false) :
    walk (c :: rest) = List.replicate (1 + (rest.takeWhile p).length) (none, 1) ++
      walk ((c :: rest).drop (1 + (rest.takeWhile p).length)) := by
  have hdrop : (c :: rest).drop (1 + (rest.takeWhile p).length) = rest.dropWhile p := by
    have hsplit := congrArg (List.drop (rest.takeWhile p).length)
      (List.takeWhile_append_dropWhile (p := p) (l := rest))
    rw [List.drop_left] at hsplit
    rw [Nat.add_comm, List.drop_succ_cons]
    exact hsplit.symm
  rw [hdrop] at hbehind ⊢
  have hhead : (rest.dropWhile p).head? ≠ some '\'' := by
    intro h
    rw [h] at hbehind
    cases hbehind
  have hword := @walk_plain _ hhead (rest.takeWhile p) fun d hd => hp d (List.mem_takeWhile_imp hd)
  rw [List.takeWhile_append_dropWhile] at hword
  rw [walk_char hregion, hword, Nat.add_comm]
  rfl

theorem walk_word {c : Char} {rest : Text} (hregion : regionAt (c :: rest) = none)
    (hword : (wordStep (c :: rest)).1 = false) (hspace : isSpace c = false) :
    walk (c :: rest) = List.replicate (wordLength (c :: rest)) (none, 1) ++
      walk ((c :: rest).drop (wordLength (c :: rest))) := by
  rw [wordStep, hregion] at hword
  have hbehind (hstarts : startsWord c = true) :
      ((c :: rest).drop (wordLength (c :: rest))).head?.any isQuote = false := by
    dsimp only [List.head?_cons, Option.any_some] at hword
    rwa [hstarts, Bool.true_and] at hword
  by_cases hid : isIdStart c = true
  · have hlen : wordLength (c :: rest) = 1 + (rest.takeWhile isIdPart).length := by
      simp [wordLength, hspace, hid]
    have hquote := hbehind (by simp [startsWord, hspace, hid])
    rw [hlen] at hquote ⊢
    exact walk_takeWhile hregion (fun d => isIdPart_opensNone) hquote
  by_cases hnum : '0' ≤ c ∧ c ≤ '9'
  · have hlen : wordLength (c :: rest) = 1 + (rest.takeWhile isNumPart).length := by
      simp only [wordLength, hspace, if_neg hid, if_pos hnum, Bool.false_eq_true, ↓reduceIte]
    have hquote := hbehind (by simp [startsWord, hspace, hnum.1, hnum.2])
    rw [hlen] at hquote ⊢
    exact walk_takeWhile hregion (fun d => isNumPart_opensNone) hquote
  · have hlen : wordLength (c :: rest) = 1 := by
      simp only [wordLength, hspace, if_neg hid, if_neg hnum, Bool.false_eq_true, ↓reduceIte]
    rw [hlen]
    exact walk_char hregion

theorem mem_places_replicate {α : Type} {a : α} {m : Nat} : ∀ {n k : Nat} {p : Cut.Placed α},
    p ∈ Cut.places k (List.replicate n (a, m)) → p.label = a
  | 0, _, _, h => absurd h List.not_mem_nil
  | n + 1, k, p, h => by
    rcases List.mem_cons.mp h with rfl | h
    · rfl
    · exact mem_places_replicate h

/-! A step, and a run -/

/-- Where nothing goes wrong, a step of the lexer stands beside some of the regions. -/
theorem step_synced {sql rest : Text} {c : Char} {k : Nat} (hdrop : sql.drop k = c :: rest)
    (hapart : wordsApart (c :: rest) = true) (hline : (lineStep (c :: rest)).1 = .agrees) :
    let step := lexStep (c :: rest)
    ∃ pieces, walk (c :: rest) = pieces ++ walk ((c :: rest).drop step.length) ∧
      total pieces = step.length ∧
      Synced sql (Cut.places k [(step.isToken, step.length)]) (Cut.places k pieces) ∧
      wordsApart ((c :: rest).drop step.length) = true := by
  intro step
  cases hregion : regionAt (c :: rest) with
  | none =>
    have hstep : step = _ := lexStep_char hregion
    have hword := wordsApart_word hapart hregion
    by_cases hspace : isSpace c = true
    · rw [hstep, if_pos hspace]
      refine ⟨[(none, 1)], walk_char hregion, rfl, synced_skip rfl ?_, wordsApart_space hapart hspace⟩
      intro r hr
      obtain rfl := List.mem_singleton.mp hr
      exact silent_space hdrop hspace
    · rw [hstep, if_neg hspace]
      refine ⟨List.replicate (wordLength (c :: rest)) (none, 1),
        walk_word hregion (wordsApart_cons hapart).1 (Bool.eq_false_iff.mpr hspace), ?_,
        synced_token ?_ ?_, hword⟩
      · simp [total, LexStep.length]
      · intro r hr
        rw [mem_places_replicate hr]
        rfl
      · intro r hr hquoted
        rw [mem_places_replicate hr] at hquoted
        cases hquoted
  | some found =>
    have hstep : step = _ := lexStep_region hregion
    have hbehind := wordsApart_region hapart hregion
    rw [lineStep_region hregion] at hline
    by_cases hcomment : found.type = .lineComment
    · rw [if_pos hcomment] at hline
      rw [hstep, if_pos hcomment]
      have hfits := lineLength_le rest
      obtain ⟨pieces, hwalk, htotal, hsilent, hapart⟩ :=
        lineEnd_agrees _ hdrop (by rw [List.length_cons]; omega) hapart hline
      exact ⟨pieces, hwalk, htotal, synced_skip htotal hsilent, hapart⟩
    rw [if_neg hcomment] at hline
    by_cases hend : found.type = .qLiteral ∧ rest.length = 1
    · rw [if_pos hend] at hline
      cases hline
    rw [if_neg hcomment, if_neg hend] at hstep
    have hone : total [(some found, found.length)] = found.length := rfl
    by_cases hquoted : found.type = .quotedIdentifier
    · rw [hstep, if_pos hquoted]
      refine ⟨[(some found, found.length)], walk_region hregion, hone, synced_token ?_ ?_, hbehind⟩
      · intro r hr
        obtain rfl := List.mem_singleton.mp hr
        simp [hides, hquoted, RegionType.isHidden]
      · intro r hr _
        obtain rfl := List.mem_singleton.mp hr
        exact ⟨rfl, rfl⟩
    · rw [hstep, if_neg hquoted]
      refine ⟨[(some found, found.length)], walk_region hregion, hone, synced_skip hone ?_, hbehind⟩
      intro r hr
      obtain rfl := List.mem_singleton.mp hr
      refine .inl ?_
      cases htype : found.type with
      | quotedIdentifier => exact absurd htype hquoted
      | lineComment | blockComment | string | qLiteral => simp [hides, htype, RegionType.isHidden]

/-- Where something goes wrong, the step is out of step. -/
theorem step_unsynced {sql rest : Text} {c : Char} {k : Nat} (hdrop : sql.drop k = c :: rest)
    (hline : (lineStep (c :: rest)).1 = .misses) :
    Unsynced sql (Cut.places k (lexed (c :: rest))) (Cut.places k (walk (c :: rest))) := by
  cases hregion : regionAt (c :: rest) with
  | none =>
    rw [lineStep, hregion] at hline
    cases hline
  | some found =>
    have hstep := lexStep_region hregion
    rw [lineStep_region hregion] at hline
    rw [lexed_cons, Cut.places]
    by_cases hcomment : found.type = .lineComment
    · rw [if_pos hcomment] at hline hstep
      obtain ⟨r, hr, hseen, i, hi, hcovers, hblank⟩ := lineEnd_misses _ hdrop hline
      have hbounds := Cut.Placed.covers_iff.mp hcovers
      have hstart := (Cut.places_bounds hr).1
      rw [hstep]
      refine .missed List.mem_cons_self rfl ?_ hr hseen hcovers hblank
      exact Cut.Placed.covers_iff.mpr ⟨by dsimp only; omega, hi⟩
    rw [if_neg hcomment] at hline hstep
    by_cases hend : found.type = .qLiteral ∧ rest.length = 1
    · rw [if_pos hend] at hstep
      rw [hstep, walk_region hregion, Cut.places]
      refine .inside List.mem_cons_self rfl List.mem_cons_self ?_ ?_
      · simp [hides, hend.1, RegionType.isHidden]
      · have hpos := (regionAt_length hregion).1
        exact Cut.Placed.covers_iff.mpr ⟨le_rfl, by dsimp only; omega⟩
    · rw [if_neg hend] at hline
      cases hline

theorem run_synced {sql : Text} (text : Text) : ∀ {k : Nat}, sql.drop k = text →
    wordsApart text = true →
    (lineEnds text = .agrees → Synced sql (Cut.places k (lexed text)) (Cut.places k (walk text))) ∧
      (lineEnds text = .misses → Unsynced sql (Cut.places k (lexed text)) (Cut.places k (walk text))) := by
  induction text using Cut.chop_induction lexStep_cuts with
  | nil =>
    intro k _ _
    refine ⟨fun _ => ⟨?_, ?_, ?_⟩, fun h => by cases h⟩
    · exact fun p hp => absurd hp List.not_mem_nil
    · exact fun r hr => absurd hr List.not_mem_nil
    · exact fun r hr => absurd hr List.not_mem_nil
  | cons c rest ih =>
    intro k hdrop hapart
    rw [lineEnds_cons]
    by_cases hline : (lineStep (c :: rest)).1 = .agrees
    · obtain ⟨pieces, hwalk, htotal, hsynced, hbehind⟩ := step_synced hdrop hapart hline
      obtain ⟨hagrees, hmisses⟩ := ih (drop_behind hdrop _) hbehind
      have hpos := (lexStep_bounds c rest).1
      rw [if_pos hline, lexed_cons, hwalk, Cut.places_append, htotal]
      constructor
      · intro h
        refine @Synced.append _ (k + (lexStep (c :: rest)).length) _ _ _ _ hsynced (hagrees h) ?_ ?_ ?_ ?_
        · intro p hp
          obtain rfl := List.mem_singleton.mp hp
          exact Nat.lt_add_of_pos_right hpos
        · intro r hr
          have hbounds := Cut.places_bounds hr
          omega
        · exact fun p hp => (Cut.places_bounds hp).1
        · exact fun r hr => (Cut.places_bounds hr).1
      · intro h
        exact @Unsynced.behind _ [_] _ _ _ (hmisses h)
    · rw [if_neg hline]
      exact ⟨fun h => absurd h hline, step_unsynced hdrop⟩

/-! What that says of the tokens -/

theorem tokenizeFrom_places (maps : CaseMaps) (n : Nat) : ∀ {fuel : Nat} {text gap : Text}
    {depth : Int}, text.length ≤ fuel → text.length ≤ n →
    (tokenizeFrom maps fuel gap depth text).map
        (fun t => (⟨true, n - t.start.length, n - t.stop.length⟩ : Cut.Placed Bool)) =
      (Cut.places (n - text.length) (lexed text)).filter (·.label) := by
  intro fuel
  induction fuel with
  | zero =>
    intro text gap depth hfuel _
    rw [List.eq_nil_of_length_eq_zero (Nat.le_zero.mp hfuel)]
    rfl
  | succ fuel ih =>
    intro text gap depth hfuel hn
    cases text with
    | nil =>
      rw [tokenizeFrom_nil]
      rfl
    | cons c rest =>
      obtain ⟨hpos, hle⟩ := lexStep_bounds c rest
      rw [List.length_cons] at hfuel hn
      rw [tokenizeFrom, lexed_cons, Cut.places]
      have hdrop (m : Nat) (hm : 1 ≤ m ∧ m ≤ rest.length + 1) :
          ((c :: rest).drop m).length ≤ fuel ∧ ((c :: rest).drop m).length ≤ n ∧
            n - ((c :: rest).drop m).length = n - (c :: rest).length + m := by
        rw [List.length_drop, List.length_cons]
        omega
      cases hstep : lexStep (c :: rest) with
      | skip m =>
        rw [hstep] at hpos hle
        obtain ⟨hshort, hin, hplace⟩ := hdrop m ⟨hpos, hle⟩
        have hrest := @ih _ (gap ++ (c :: rest).take m) depth hshort hin
        rw [hplace] at hrest
        simpa [LexStep.isToken, LexStep.length] using hrest
      | token m =>
        rw [hstep] at hpos hle
        obtain ⟨hshort, hin, hplace⟩ := hdrop m ⟨hpos, hle⟩
        dsimp only
        rw [List.map_cons, ih hshort hin, List.filter_cons_of_pos rfl, hplace]
        rfl

theorem tokenPlaces_eq (maps : CaseMaps) (sql : Text) :
    tokenPlaces maps sql = (Cut.places 0 (lexed sql)).filter (·.label) := by
  have h := @tokenizeFrom_places maps sql.length _ sql [] 0 (Nat.le_refl _) (Nat.le_refl _)
  rw [Nat.sub_self] at h
  exact h

theorem filter_tokenPlaces (maps : CaseMaps) {sql : Text} {f : Cut.Placed Bool → Bool} {p : Cut.Placed Bool}
    (h : (Cut.places 0 (lexed sql)).filter f = [p]) (hp : p.label = true) :
    (tokenPlaces maps sql).filter f = [p] := by
  have hswap : ((Cut.places 0 (lexed sql)).filter (·.label)).filter f =
      ((Cut.places 0 (lexed sql)).filter f).filter (·.label) := by
    rw [List.filter_filter, List.filter_filter]
    exact List.filter_congr fun q _ => Bool.and_comm _ _
  rw [tokenPlaces_eq, hswap, h, List.filter_cons_of_pos hp]
  rfl

theorem mem_tokenPlaces {maps : CaseMaps} {sql : Text} {p : Cut.Placed Bool} :
    p ∈ tokenPlaces maps sql ↔ p ∈ Cut.places 0 (lexed sql) ∧ p.label = true := by
  rw [tokenPlaces_eq, List.mem_filter]

theorem walk_nonempty : ∀ {text : Text} {k : Nat} {r : Cut.Placed (Option Region)},
    r ∈ Cut.places k (walk text) → r.start < r.stop := by
  intro text
  induction text using Cut.chop_induction regionStep_cuts with
  | nil => exact fun h => absurd h List.not_mem_nil
  | cons c rest ih =>
    intro k r hr
    have hpos := (regionStep_cuts c rest).1
    rw [walk, chop_cons regionStep_cuts, Cut.places] at hr
    rcases List.mem_cons.mp hr with rfl | hr
    · exact Nat.lt_add_of_pos_right hpos
    · exact ih hr

theorem Synced.agrees {maps : CaseMaps} {sql : Text}
    (h : Synced sql (Cut.places 0 (lexed sql)) (regionPlaces sql)) : StarAgrees maps sql where
  hidden r hr hhides t ht := by
    obtain ⟨ht, htoken⟩ := mem_tokenPlaces.mp ht
    exact h.hidden r hr hhides t ht htoken
  quoted r hr hquoted := by
    apply filter_tokenPlaces maps _ rfl
    exact Cut.filter_meets (h.quoted r hr hquoted) rfl rfl (walk_nonempty hr)
  plain i c hi hspace hseen := by
    have hlen : i < 0 + total (lexed sql) := by
      rw [total_lexed, Nat.zero_add]
      exact (List.getElem?_eq_some_iff.mp hi).1
    obtain ⟨p, hp, hcovers⟩ := Cut.exists_covers (Nat.zero_le i) hlen
    have htoken : p.label = true := by
      by_contra hskip
      rcases h.skipped p hp (Bool.eq_false_iff.mpr hskip) i hcovers with hblank | ⟨r, hr, hhides, hri⟩
      · rw [isBlank, hi, Option.any_some, hspace] at hblank
        cases hblank
      · rw [hseen r hr hhides] at hri
        cases hri
    exact ⟨p, filter_tokenPlaces maps (Cut.filter_covers hp hcovers) htoken⟩

theorem Unsynced.not_agrees {maps : CaseMaps} {sql : Text}
    (h : Unsynced sql (Cut.places 0 (lexed sql)) (regionPlaces sql)) : ¬ StarAgrees maps sql := by
  intro hagrees
  cases h with
  | inside hp htoken hr hhides hcovers =>
    rw [hagrees.hidden _ hr hhides _ (mem_tokenPlaces.mpr ⟨hp, htoken⟩)] at hcovers
    cases hcovers
  | @missed p r i hp hskip hpi hr hseen hri hblank =>
    -- the place that is skipped is the only one to hold the character
    obtain ⟨c, hc⟩ : ∃ c, sql[i]? = some c := by
      have hstop := (Cut.places_bounds hp).2.2
      have hin := (Cut.Placed.covers_iff.mp hpi).2
      rw [total_lexed] at hstop
      exact ⟨_, List.getElem?_eq_getElem (by omega)⟩
    have hspace : isSpace c = false := by
      rw [isBlank, hc] at hblank
      exact hblank
    obtain ⟨t, ht⟩ := hagrees.plain i c hc hspace fun r' hr' hhides => by
      by_contra hcovers
      obtain rfl := Cut.covers_unique hr hr' hri (Bool.not_eq_false _ ▸ hcovers)
      rw [hseen] at hhides
      cases hhides
    obtain ⟨ht, hti⟩ := List.mem_filter.mp (ht ▸ List.mem_singleton.mpr rfl)
    obtain ⟨ht, htoken⟩ := mem_tokenPlaces.mp ht
    obtain rfl := Cut.covers_unique hp ht hpi hti
    rw [hskip] at htoken
    cases htoken

/-- Where no word has a quote behind it, the lexer and the scanner agree on a text in which nothing
but white space, comments, strings and q-literals stands between the end of a line comment for the
scanner and the line feed at which it ends for the lexer, and which does not end in `q'`; they do
not agree on a text in which something else stands there, or which ends so. -/
theorem tokenize_regionAt (maps : CaseMaps) (sql : Text) (hapart : wordsApart sql = true) :
    (lineEnds sql = .agrees → StarAgrees maps sql) ∧
      (lineEnds sql = .misses → ¬ StarAgrees maps sql) := by
  obtain ⟨hagrees, hmisses⟩ := @run_synced sql sql 0 rfl hapart
  exact ⟨fun h => (hagrees h).agrees, fun h => (hmisses h).not_agrees⟩

def asciiMaps : CaseMaps := ⟨List.map Char.toLower, List.map Char.toUpper⟩

theorem tokenize_regionAt_line :
    StarAgrees asciiMaps "select * --a\r--b\nfrom t".toList ∧
      ¬ StarAgrees asciiMaps "select * --a\rfrom t".toList :=
  ⟨(tokenize_regionAt asciiMaps _ (by decide +kernel)).1 (by decide +kernel),
    (tokenize_regionAt asciiMaps _ (by decide +kernel)).2 (by decide +kernel)⟩

/-- For the lexer the comment goes on behind the carriage return. -/
theorem comment_beyond_return :
    wordsApart "--a\rb".toList = true ∧ ¬ StarAgrees asciiMaps "--a\rb".toList := by
  refine ⟨by decide +kernel, fun h => ?_⟩
  have hseen : ∀ r ∈ regionPlaces "--a\rb".toList, hides r.label = true → r.covers 4 = false := by
    rw [show regionPlaces "--a\rb".toList =
      [⟨some ⟨.lineComment, 3, true⟩, 0, 3⟩, ⟨none, 3, 4⟩, ⟨none, 4, 5⟩] by decide +kernel]
    simp [hides, Cut.Placed.covers]
  obtain ⟨t, ht⟩ := h.plain 4 'b' (by decide) (by decide) hseen
  rw [show tokenPlaces asciiMaps "--a\rb".toList = [] by decide +kernel] at ht
  cases ht

end FastFirebird
