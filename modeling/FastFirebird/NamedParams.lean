import FastFirebird.Regions
import Mathlib.Data.List.Infix

/-! `api/named-params.ts`: `@name` markers, and that they are told from the text of comments and
literals as the scanner tells them. -/
namespace FastFirebird

/-- `[A-Za-z_]` -/
def isIdentStart (c : Char) : Bool :=
  ('A' ≤ c && c ≤ 'Z') || ('a' ≤ c && c ≤ 'z') || c == '_'

/-- `[A-Za-z0-9_$]` -/
def isIdentPart (c : Char) : Bool := isIdentStart c || isDigit c || c == '$'

structure RewrittenSql where
  sql : Text
  names : List Text
  hasNamed : Bool
  deriving Repr, DecidableEq

/-- How far `a` followed by `b` is away, or the end. -/
def untilPair (a b : Char) : Text → Nat
  | [] => 0
  | c :: rest => if c = a ∧ rest.head? = some b then 0 else untilPair a b rest + 1

/-- The loop of `skipQuoted`: how far it goes behind the opening quote. -/
def skipQuotedFrom (quote : Char) : Text → Nat
  | [] => 0
  | c :: rest =>
    if c = quote then
      match rest with
      | d :: rest => if d = quote then skipQuotedFrom quote rest + 2 else 1
      | [] => 1
    else skipQuotedFrom quote rest + 1

def skipQuoted (quote : Char) (text : Text) : Nat := skipQuotedFrom quote (text.drop 1) + 1

/-- `skipQLiteral`; what is not closed is passed by two characters beyond the end. -/
def skipQLiteral (text : Text) : Nat :=
  match text.drop 2 with
  | [] => 2
  | opener :: body => untilPair (qCloser opener) '\'' body + 5

/-- How far the branches for comments, quotes and q-literals go on, if one of them is taken. -/
def passOver (text : Text) : Option Nat :=
  match text with
  | [] => none
  | c :: rest =>
    if c = '-' ∧ rest.head? = some '-' then
      some (2 + ((rest.drop 1).takeWhile (!isEol ·)).length)
    else if c = '/' ∧ rest.head? = some '*' then some (untilPair '*' '/' (rest.drop 1) + 4)
    else if c = '\'' ∨ c = '"' then some (skipQuoted c text)
    else if (c = 'q' ∨ c = 'Q') ∧ rest.head? = some '\'' then some (skipQLiteral text)
    else none

/-- The name of the marker that starts here, if one does, and what is behind it. -/
def markerHere : Text → Option (Text × Text)
  | c :: d :: part =>
    if c = '@' ∧ isIdentStart d = true then
      some (d :: part.takeWhile isIdentPart, part.dropWhile isIdentPart)
    else none
  | _ => none

/-- The loop of `rewriteNamedParams`: what is written so far, the verbatim run behind it, and the
names. Every round takes a character. -/
def rewriteLoop : Nat → Text → Text → List Text → Text → Text × List Text
  | 0, out, run, names, _ => (out ++ run, names)
  | _ + 1, out, run, names, [] => (out ++ run, names)
  | fuel + 1, out, run, names, c :: rest =>
    match passOver (c :: rest) with
    | some k =>
      rewriteLoop fuel out (run ++ (c :: rest).take k) names ((c :: rest).drop k)
    | none =>
      match markerHere (c :: rest) with
      | some (name, behind) => rewriteLoop fuel (out ++ run ++ ['?']) [] (names ++ [name]) behind
      | none => rewriteLoop fuel out (run ++ [c]) names rest

def rewriteNamedParams (sql : Text) : RewrittenSql :=
  let (out, names) := rewriteLoop sql.length [] [] [] sql
  ⟨out, names, 0 < names.length⟩

/-! ### The branches pass over the regions of the scanner -/

theorem untilPair_some {a b : Char} : ∀ {text : Text} {k : Nat}, pairAt a b text = some k →
    untilPair a b text = k
  | [], k, h => by cases h
  | [c], k, h => by cases h
  | c :: d :: text, k, h => by
    rw [pairAt] at h
    split at h
    · rename_i heq
      obtain rfl := Option.some.inj h
      rw [untilPair, if_pos ⟨heq.1, congrArg some heq.2⟩]
    · rename_i heq
      obtain ⟨j, hj, rfl⟩ := Option.map_eq_some_iff.mp h
      have hne : ¬ (c = a ∧ (d :: text).head? = some b) :=
        fun hc => heq ⟨hc.1, Option.some.inj hc.2⟩
      rw [untilPair, if_neg hne, untilPair_some hj]

theorem untilPair_none {a b : Char} : ∀ {text : Text}, pairAt a b text = none →
    untilPair a b text = text.length
  | [], _ => rfl
  | [c], _ => by simp [untilPair]
  | c :: d :: text, h => by
    rw [pairAt] at h
    split at h
    · cases h
    · rename_i heq
      have hrest : pairAt a b (d :: text) = none := Option.map_eq_none_iff.mp h
      have hne : ¬ (c = a ∧ (d :: text).head? = some b) :=
        fun hc => heq ⟨hc.1, Option.some.inj hc.2⟩
      rw [untilPair, if_neg hne, untilPair_none hrest]
      rfl

theorem skipQuotedFrom_eq {q : Char} : ∀ {text : Text},
    skipQuotedFrom q text = (quotedLength q text).getD text.length
  | [] => rfl
  | [c] => by
    rw [skipQuotedFrom, quotedLength]
    split
    · rfl
    · rfl
  | c :: d :: text => by
    rw [skipQuotedFrom, quotedLength]
    split
    · split
      · rw [@skipQuotedFrom_eq _ text]
        cases quotedLength q text <;> rfl
      · rfl
    · rw [@skipQuotedFrom_eq _ (d :: text)]
      cases quotedLength q (d :: text) <;> rfl

/-- A branch that passes over a pair: to behind it, or beyond the end. -/
theorem untilPair_cut {a b : Char} (text : Text) {m : Nat} {type : RegionType} {body : Text}
    (hbody : text.length = m + body.length) :
    min (untilPair a b body + (m + 2)) text.length =
      (region type text ((pairAt a b body).map (· + (m + 2)))).length := by
  cases h : pairAt a b body with
  | none =>
    rw [untilPair_none h, hbody]
    show min (body.length + (m + 2)) (m + body.length) = text.length
    omega
  | some k =>
    have hbound := (pairAt_bound h).1
    rw [untilPair_some h, hbody]
    show min (k + (m + 2)) (m + body.length) = k + (m + 2)
    omega

theorem skipQuoted_cut {q : Char} {type : RegionType} {rest : Text} :
    min (skipQuoted q (q :: rest)) (q :: rest).length =
      (region type (q :: rest) ((quotedLength q rest).map (· + 1))).length := by
  rw [skipQuoted, List.drop_succ_cons, List.drop_zero, skipQuotedFrom_eq]
  cases h : quotedLength q rest with
  | none =>
    show min (rest.length + 1) (rest.length + 1) = rest.length + 1
    omega
  | some k =>
    have hbound := quotedLength_bound h
    show min (k + 1) (rest.length + 1) = k + 1
    omega

/-- A branch is taken where a region starts, and goes on where the region ends. -/
theorem passOver_region {text : Text} {r : Region} (h : regionAt text = some r) :
    ∃ k, passOver text = some k ∧ min k text.length = r.length := by
  cases text with
  | nil => cases h
  | cons c rest =>
    rw [regionAt] at h
    rw [passOver]
    split at h
    · rename_i hc
      cases h
      have hlen := (List.takeWhile_sublist (!isEol ·) (l := rest.drop 1)).length_le
      have hrest := congrArg List.length (head_cons hc.2)
      simp only [List.length_cons] at hrest
      refine ⟨_, if_pos hc, Nat.min_eq_left ?_⟩
      simp only [List.length_cons]
      omega
    · rename_i hline
      rw [if_neg hline]
      split at h
      · rename_i hc
        have hrest := congrArg List.length (head_cons hc.2)
        simp only [List.length_cons] at hrest
        refine ⟨_, if_pos hc, ?_⟩
        rw [← Option.some.inj h]
        exact untilPair_cut (c :: rest) (m := 2) (by simp only [List.length_cons]; omega)
      · rename_i hblock
        rw [if_neg hblock]
        split at h
        · rename_i hq
          have hquote : ¬ (c = '\'' ∨ c = '"') := by
            rcases hq.1 with rfl | rfl <;> decide
          rw [if_neg hquote, if_pos hq]
          have hrest := congrArg List.length (head_cons hq.2)
          simp only [List.length_cons] at hrest
          refine ⟨_, rfl, ?_⟩
          have hdrop : (c :: rest).drop 2 = rest.drop 1 := rfl
          rw [skipQLiteral, hdrop]
          cases hbody : rest.drop 1 with
          | nil =>
            rw [hbody] at h hrest
            rw [← Option.some.inj h]
            show min 2 (rest.length + 1) = rest.length + 1
            simp only [List.length_nil] at hrest
            omega
          | cons opener body =>
            rw [hbody] at h hrest
            rw [← Option.some.inj h]
            simp only [List.length_cons] at hrest
            exact untilPair_cut (c :: rest) (m := 3) (by simp only [List.length_cons]; omega)
        · split at h
          · rename_i hc
            subst hc
            rw [if_pos (.inl rfl), ← Option.some.inj h]
            exact ⟨_, rfl, skipQuoted_cut⟩
          · split at h
            · rename_i hc
              subst hc
              rw [if_pos (.inr rfl), ← Option.some.inj h]
              exact ⟨_, rfl, skipQuoted_cut⟩
            · cases h

theorem passOver_none {text : Text} (h : regionAt text = none) : passOver text = none := by
  cases text with
  | nil => rfl
  | cons c rest =>
    obtain ⟨h₁, h₂, h₃, h₄, h₅⟩ := regionAt_eq_none.mp h
    rw [passOver, if_neg h₁, if_neg h₂, if_neg fun hc => hc.elim h₄ h₅, if_neg h₃]

/-! ### The markers of a text -/

def inRegion (text : Text) : List Bool := mask (fun _ => true) text

/-- An `@` outside every region, with an identifier behind it. -/
def isMarker (text : Text) (inside : List Bool) (i : Nat) : Bool :=
  inside[i]? == some false && text[i]? == some '@' && text[i + 1]?.any isIdentStart

def markers (text : Text) : List Nat :=
  (List.range text.length).filter (isMarker text (inRegion text))

/-- The identifier behind an `@`. -/
def identifierAt (text : Text) (i : Nat) : Text := (text.drop (i + 1)).takeWhile isIdentPart

/-- No `@identifier` of the text has a quote right behind it. -/
def NoQuotedMarker (text : Text) : Prop :=
  ∀ rest ∈ text.tails, ∀ marker ∈ markerHere rest,
    marker.2.head? ≠ some '\'' ∧ marker.2.head? ≠ some '"'

instance (text : Text) : Decidable (NoQuotedMarker text) :=
  inferInstanceAs (Decidable (∀ rest ∈ text.tails, ∀ marker ∈ markerHere rest,
    marker.2.head? ≠ some '\'' ∧ marker.2.head? ≠ some '"'))

theorem NoQuotedMarker.suffix {taken rest : Text} (h : NoQuotedMarker (taken ++ rest)) :
    NoQuotedMarker rest := by
  intro suffix hsuffix
  have hrest : suffix <:+ rest := (List.mem_tails _ _).mp hsuffix
  exact h suffix ((List.mem_tails _ _).mpr (hrest.trans (List.suffix_append taken rest)))

/-- A marker, and the verbatim text in front of it. -/
structure Part where
  verbatim : Text
  name : Text
  deriving Repr, DecidableEq

def Part.source (p : Part) : Text := p.verbatim ++ '@' :: p.name

def Part.target (p : Part) : Text := p.verbatim ++ ['?']

/-- Where the `@` of each part stands, in a text that has the parts from `i` on. -/
def partOffsets : Nat → List Part → List Nat
  | _, [] => []
  | i, p :: parts => (i + p.verbatim.length) :: partOffsets (i + p.source.length) parts

/-- The parts of a text and what is behind them, as the rewriting takes them: with the markers of
the text, and no others. -/
structure Splits (text : Text) (parts : List Part) (tail : Text) : Prop where
  source : text = parts.flatMap Part.source ++ tail
  offsets : partOffsets 0 parts = markers text
  names : parts.map Part.name = (markers text).map (identifierAt text)

theorem partOffsets_shift (k : Nat) (parts : List Part) : ∀ i,
    partOffsets (k + i) parts = (partOffsets i parts).map (k + ·) := by
  induction parts with
  | nil => exact fun _ => rfl
  | cons p parts ih =>
    intro i
    rw [partOffsets, partOffsets, Nat.add_assoc, Nat.add_assoc, ih]
    rfl

theorem markers_append {taken rest : Text} {inside : List Bool}
    (hmask : inRegion (taken ++ rest) = inside ++ inRegion rest)
    (hlen : inside.length = taken.length) :
    markers (taken ++ rest) =
      (List.range taken.length).filter (isMarker (taken ++ rest) (inRegion (taken ++ rest))) ++
        (markers rest).map (taken.length + ·) := by
  have hshift : ∀ i, isMarker (taken ++ rest) (inRegion (taken ++ rest)) (taken.length + i) =
      isMarker rest (inRegion rest) i := by
    intro i
    rw [isMarker, isMarker, hmask, List.getElem?_append_right (by omega),
      List.getElem?_append_right (by omega), List.getElem?_append_right (by omega), hlen,
      Nat.add_sub_cancel_left, Nat.add_assoc, Nat.add_sub_cancel_left]
  rw [markers, List.length_append, List.range_add, List.filter_append, List.filter_map, markers]
  congr 2
  apply List.filter_congr
  intro i _
  exact hshift i

theorem identifierAt_append (taken rest : Text) (i : Nat) :
    identifierAt (taken ++ rest) (taken.length + i) = identifierAt rest i := by
  rw [identifierAt, identifierAt, Nat.add_assoc, List.drop_append,
    List.drop_of_length_le (Nat.le_add_right _ _), Nat.add_sub_cancel_left]
  rfl

/-- Text without a marker goes to the verbatim text of the first part. -/
theorem Splits.verbatim {taken rest : Text} {parts : List Part} {tail : Text}
    (h : Splits rest parts tail)
    (hmarkers : markers (taken ++ rest) = (markers rest).map (taken.length + ·)) :
    ∃ parts' tail', Splits (taken ++ rest) parts' tail' ∧
      parts'.flatMap Part.target ++ tail' = taken ++ (parts.flatMap Part.target ++ tail) ∧
      parts'.map Part.name = parts.map Part.name := by
  have hnames : (markers (taken ++ rest)).map (identifierAt (taken ++ rest)) =
      parts.map Part.name := by
    rw [hmarkers, List.map_map, h.names]
    exact List.map_congr_left fun i _ => identifierAt_append taken rest i
  cases parts with
  | nil =>
    refine ⟨[], taken ++ tail, ⟨?_, ?_, hnames.symm⟩, rfl, rfl⟩
    · rw [h.source]
      rfl
    · rw [hmarkers, ← h.offsets]
      rfl
  | cons p parts =>
    refine ⟨⟨taken ++ p.verbatim, p.name⟩ :: parts, tail, ⟨?_, ?_, hnames.symm⟩, ?_, rfl⟩
    · rw [h.source]
      simp [Part.source]
    · rw [hmarkers, ← h.offsets, partOffsets, partOffsets, List.map_cons,
        ← partOffsets_shift]
      simp [Part.source]
    · simp [Part.target]

/-! ### One round of the loop -/

theorem isIdentPart_ordinary {c : Char} (h : isIdentPart c = true) :
    c ≠ '-' ∧ c ≠ '/' ∧ c ≠ '\'' ∧ c ≠ '"' ∧ c ≠ '@' := by
  refine ⟨?_, ?_, ?_, ?_, ?_⟩ <;> rintro rfl <;> exact absurd h (by decide)

/-- The scanner finds no region in an identifier without a quote behind it. -/
theorem inRegion_identifier {name rest : Text} (hname : ∀ c ∈ name, isIdentPart c = true)
    (hrest : rest.head? ≠ some '\'') :
    inRegion (name ++ rest) = List.replicate name.length false ++ inRegion rest := by
  induction name with
  | nil => rfl
  | cons c name ih =>
    obtain ⟨hdash, hslash, hquote, hdouble, -⟩ := isIdentPart_ordinary (hname c (by simp))
    have hhead : (name ++ rest).head? ≠ some '\'' := by
      cases name with
      | nil => exact hrest
      | cons d name =>
        intro hd
        exact (isIdentPart_ordinary (hname d (by simp))).2.2.1 (Option.some.inj hd)
    have hnone : regionAt (c :: (name ++ rest)) = none :=
      regionAt_eq_none.mpr ⟨fun hc => hdash hc.1, fun hc => hslash hc.1, fun hc => hhead hc.2,
        hquote, hdouble⟩
    have ih := ih fun d hd => hname d (by simp [hd])
    rw [inRegion] at ih ⊢
    rw [List.cons_append, mask_char hnone, ih]
    rfl

/-- No `@` outside a region, no marker. -/
theorem markers_none {taken rest : Text} {inside : List Bool}
    (hmask : inRegion (taken ++ rest) = inside ++ inRegion rest)
    (hlen : inside.length = taken.length)
    (hnone : ∀ i, i < taken.length → isMarker (taken ++ rest) (inRegion (taken ++ rest)) i = false) :
    markers (taken ++ rest) = (markers rest).map (taken.length + ·) := by
  rw [markers_append hmask hlen, List.filter_eq_nil_iff.mpr, List.nil_append]
  intro i hi
  rw [hnone i (List.mem_range.mp hi)]
  exact Bool.false_ne_true

/-- A region holds no marker. -/
theorem markers_region {text : Text} {r : Region} (h : regionAt text = some r) :
    markers (text.take r.length ++ text.drop r.length) =
      (markers (text.drop r.length)).map ((text.take r.length).length + ·) := by
  have hbound := regionAt_length h
  have htaken : (text.take r.length).length = r.length := by
    rw [List.length_take]
    omega
  have hmask : inRegion (text.take r.length ++ text.drop r.length) =
      List.replicate r.length true ++ inRegion (text.drop r.length) := by
    rw [List.take_append_drop]
    exact mask_region h
  apply markers_none hmask (by rw [List.length_replicate, htaken])
  intro i hi
  have hinside : (inRegion (text.take r.length ++ text.drop r.length))[i]? = some true := by
    rw [hmask, List.getElem?_append_left (by rw [List.length_replicate]; omega),
      List.getElem?_replicate, if_pos (by omega)]
  rw [isMarker, hinside]
  rfl

/-- A character that opens no region, and no marker. -/
theorem markers_char {c : Char} {rest : Text} (h : regionAt (c :: rest) = none)
    (hc : ¬ (c = '@' ∧ rest.head?.any isIdentStart = true)) :
    markers ([c] ++ rest) = (markers rest).map ([c].length + ·) := by
  have hmask : inRegion ([c] ++ rest) = [false] ++ inRegion rest := mask_char h
  apply markers_none hmask rfl
  intro i hi
  obtain rfl : i = 0 := by simpa using hi
  rw [Bool.eq_false_iff]
  intro hmarker
  simp only [isMarker, Bool.and_eq_true, beq_iff_eq, List.singleton_append,
    List.getElem?_cons_zero, Option.some.injEq, List.getElem?_cons_succ] at hmarker
  apply hc ⟨hmarker.1.2, ?_⟩
  rw [List.head?_eq_getElem?]
  exact hmarker.2

/-- The marker that starts a text. -/
theorem markers_marker {d : Char} {name rest : Text} (hd : isIdentStart d = true)
    (hname : ∀ c ∈ name, isIdentPart c = true) (hrest : rest.head? ≠ some '\'') :
    markers (('@' :: d :: name) ++ rest) =
      0 :: (markers rest).map (('@' :: d :: name).length + ·) := by
  have hident : ∀ c ∈ d :: name, isIdentPart c = true := by
    intro c hc
    rcases List.mem_cons.mp hc with rfl | hc
    · rw [isIdentPart, hd]
      rfl
    · exact hname c hc
  have hat : regionAt ('@' :: (d :: name ++ rest)) = none :=
    regionAt_eq_none.mpr (by simp)
  have hmask : inRegion (('@' :: d :: name) ++ rest) =
      (false :: List.replicate (d :: name).length false) ++ inRegion rest := by
    have hrun := inRegion_identifier hident hrest
    rw [@List.cons_append _ _ (List.replicate _ _) _, ← hrun]
    exact mask_char hat
  have hfirst : isMarker (('@' :: d :: name) ++ rest) (inRegion (('@' :: d :: name) ++ rest)) 0 =
      true := by
    rw [isMarker, hmask]
    simp [hd]
  have hothers : (List.range (d :: name).length).filter
      (isMarker (('@' :: d :: name) ++ rest) (inRegion (('@' :: d :: name) ++ rest)) ∘ Nat.succ) =
      [] := by
    apply List.filter_eq_nil_iff.mpr
    intro i hi hmarker
    have hlt := List.mem_range.mp hi
    simp only [Function.comp_apply, isMarker, Bool.and_eq_true, beq_iff_eq] at hmarker
    have hchar : ((d :: name) ++ rest)[i]? = some '@' := hmarker.1.2
    rw [List.getElem?_append_left hlt] at hchar
    exact (isIdentPart_ordinary (hident '@' (List.mem_of_getElem? hchar))).2.2.2.2 rfl
  rw [markers_append hmask (by simp), List.length_cons, List.range_succ_eq_map,
    List.filter_cons_of_pos hfirst, List.filter_map, hothers]
  rfl

theorem identifierAt_marker {d : Char} {name rest : Text} (hd : isIdentStart d = true)
    (hname : ∀ c ∈ name, isIdentPart c = true) (hrest : rest.head?.any isIdentPart = false) :
    identifierAt (('@' :: d :: name) ++ rest) 0 = d :: name := by
  have hpart : isIdentPart d = true := by
    rw [isIdentPart, hd]
    rfl
  have hend : rest.takeWhile isIdentPart = [] := by
    cases rest with
    | nil => rfl
    | cons c rest => exact List.takeWhile_cons_of_neg (by simpa using hrest)
  rw [identifierAt, Nat.zero_add, List.cons_append, List.drop_succ_cons, List.drop_zero,
    List.cons_append, List.takeWhile_cons_of_pos hpart, List.takeWhile_append_of_pos hname, hend,
    List.append_nil]

/-- A marker is a part of its own. -/
theorem Splits.marker {d : Char} {name rest : Text} {parts : List Part} {tail : Text}
    (h : Splits rest parts tail) (hd : isIdentStart d = true)
    (hname : ∀ c ∈ name, isIdentPart c = true) (hquote : rest.head? ≠ some '\'')
    (hrest : rest.head?.any isIdentPart = false) :
    Splits (('@' :: d :: name) ++ rest) (⟨[], d :: name⟩ :: parts) tail := by
  have hmarkers := markers_marker hd hname hquote
  refine ⟨?_, ?_, ?_⟩
  · rw [h.source]
    simp [Part.source]
  · have hlength : (Part.source ⟨[], d :: name⟩).length = ('@' :: d :: name).length := rfl
    rw [hmarkers, ← h.offsets, ← partOffsets_shift, partOffsets, hlength, Nat.zero_add,
      Nat.zero_add, Nat.add_zero]
    rfl
  · rw [hmarkers, List.map_cons, List.map_cons, identifierAt_marker hd hname hrest, List.map_map,
      h.names]
    congr 1
    exact List.map_congr_left fun i _ => (identifierAt_append ('@' :: d :: name) rest i).symm

/-- The loop takes the rest of a text apart as its markers say. -/
theorem rewriteLoop_splits : ∀ {fuel : Nat} {text : Text}, text.length ≤ fuel →
    NoQuotedMarker text → ∀ out run names, ∃ parts tail, Splits text parts tail ∧
      rewriteLoop fuel out run names text =
        (out ++ (run ++ (parts.flatMap Part.target ++ tail)), names ++ parts.map Part.name) := by
  intro fuel
  induction fuel with
  | zero =>
    intro text hlen _ out run names
    obtain rfl : text = [] := List.eq_nil_of_length_eq_zero (by omega)
    exact ⟨[], [], ⟨rfl, rfl, rfl⟩, by simp [rewriteLoop]⟩
  | succ fuel ih =>
    intro text hlen hquoted out run names
    cases text with
    | nil => exact ⟨[], [], ⟨rfl, rfl, rfl⟩, by simp [rewriteLoop]⟩
    | cons c rest =>
      simp only [List.length_cons] at hlen
      cases hr : regionAt (c :: rest) with
      | some r =>
        -- a region: verbatim, as far as the scanner says
        obtain ⟨k, hk, hmin⟩ := passOver_region hr
        have hbound := regionAt_length hr
        have hdrop : (c :: rest).drop k = (c :: rest).drop r.length := by
          rw [← hmin]
          rcases Nat.le_total k (c :: rest).length with hle | hle
          · rw [Nat.min_eq_left hle]
          · rw [Nat.min_eq_right hle, List.drop_length, List.drop_of_length_le hle]
        have htake : (c :: rest).take k = (c :: rest).take r.length := by
          rw [← hmin]
          rcases Nat.le_total k (c :: rest).length with hle | hle
          · rw [Nat.min_eq_left hle]
          · rw [Nat.min_eq_right hle, List.take_length, List.take_of_length_le hle]
        have hshort : ((c :: rest).drop r.length).length ≤ fuel := by
          rw [List.length_drop, List.length_cons]
          omega
        have hsuffix : NoQuotedMarker ((c :: rest).drop r.length) := by
          apply @NoQuotedMarker.suffix ((c :: rest).take r.length) _
          rwa [List.take_append_drop]
        obtain ⟨parts, tail, hsplits, hloop⟩ :=
          ih hshort hsuffix out (run ++ (c :: rest).take r.length) names
        obtain ⟨parts', tail', hsplits', htarget, hnames⟩ := hsplits.verbatim (markers_region hr)
        refine ⟨parts', tail', ?_, ?_⟩
        · rwa [List.take_append_drop] at hsplits'
        · rw [rewriteLoop, hk]
          simp only
          rw [hdrop, htake, hloop, htarget, hnames, List.append_assoc]
      | none =>
        have hpass := passOver_none hr
        by_cases hmarker : c = '@' ∧ rest.head?.any isIdentStart = true
        · -- a marker: the identifier goes to the names
          obtain ⟨rfl, hstart⟩ := hmarker
          obtain ⟨d, part, rfl⟩ : ∃ d part, rest = d :: part := by
            cases rest with
            | nil => cases hstart
            | cons d part => exact ⟨d, part, rfl⟩
          have hd : isIdentStart d = true := hstart
          have hname : ∀ x ∈ part.takeWhile isIdentPart, isIdentPart x = true :=
            fun x hx => List.mem_takeWhile_imp hx
          have hhere : markerHere ('@' :: d :: part) =
              some (d :: part.takeWhile isIdentPart, part.dropWhile isIdentPart) :=
            if_pos ⟨rfl, hd⟩
          have hquote := (hquoted _ ((List.mem_tails _ _).mpr List.suffix_rfl) _ hhere).1
          have hshort : (part.dropWhile isIdentPart).length ≤ fuel := by
            have hle := (List.dropWhile_sublist isIdentPart (l := part)).length_le
            simp only [List.length_cons] at hlen
            omega
          have hwhole : ('@' :: d :: part.takeWhile isIdentPart) ++ part.dropWhile isIdentPart =
              '@' :: d :: part := by
            simp
          have hsuffix : NoQuotedMarker (part.dropWhile isIdentPart) := by
            apply @NoQuotedMarker.suffix ('@' :: d :: part.takeWhile isIdentPart) _
            rwa [hwhole]
          obtain ⟨parts, tail, hsplits, hloop⟩ := ih hshort hsuffix (out ++ run ++ ['?']) []
            (names ++ [d :: part.takeWhile isIdentPart])
          refine ⟨⟨[], d :: part.takeWhile isIdentPart⟩ :: parts, tail, ?_, ?_⟩
          · rw [← hwhole]
            exact hsplits.marker hd hname hquote (dropWhile_head _ _)
          · rw [rewriteLoop, hpass, hhere]
            simp only
            rw [hloop]
            simp [Part.target]
        · -- any other character
          have hsuffix : NoQuotedMarker rest := @NoQuotedMarker.suffix [c] _ hquoted
          obtain ⟨parts, tail, hsplits, hloop⟩ :=
            ih (Nat.le_of_succ_le_succ hlen) hsuffix out (run ++ [c]) names
          obtain ⟨parts', tail', hsplits', htarget, hnames⟩ :=
            hsplits.verbatim (markers_char hr hmarker)
          have hhere : markerHere (c :: rest) = none := by
            cases rest with
            | nil => rfl
            | cons d part => exact if_neg hmarker
          refine ⟨parts', tail', hsplits', ?_⟩
          rw [rewriteLoop, hpass, hhere]
          simp only
          rw [hloop, htarget, hnames, List.append_assoc]

theorem markerHere_length {text name behind : Text} (h : markerHere text = some (name, behind)) :
    behind.length < text.length := by
  unfold markerHere at h
  split at h
  · rename_i c d part
    split at h
    · cases h
      have hle := (List.dropWhile_sublist isIdentPart (l := part)).length_le
      simp only [List.length_cons]
      omega
    · cases h
  · cases h

/-- Enough fuel is enough: the loop comes to the end of every text. -/
theorem rewriteLoop_fuel : ∀ {m n : Nat} {text : Text}, text.length ≤ m → text.length ≤ n →
    ∀ out run names, rewriteLoop m out run names text = rewriteLoop n out run names text := by
  intro m
  induction m with
  | zero =>
    intro n text hm _ out run names
    obtain rfl : text = [] := List.eq_nil_of_length_eq_zero (by omega)
    cases n <;> rfl
  | succ m ih =>
    intro n text hm hn out run names
    cases text with
    | nil => cases n <;> rfl
    | cons c rest =>
      obtain _ | n := n
      · simp at hn
      simp only [List.length_cons] at hm hn
      rw [rewriteLoop, rewriteLoop]
      split
      · rename_i k hk
        have hpos : 1 ≤ k := by
          cases hr : regionAt (c :: rest) with
          | none => rw [passOver_none hr] at hk; cases hk
          | some r =>
            obtain ⟨k', hk', hmin⟩ := passOver_region hr
            have hbound := regionAt_length hr
            rw [hk] at hk'
            obtain rfl := Option.some.inj hk'
            omega
        have hdrop : ((c :: rest).drop k).length ≤ rest.length := by
          rw [List.length_drop, List.length_cons]
          omega
        exact ih (by omega) (by omega) _ _ _
      · split
        · rename_i name behind hhere
          have hle := markerHere_length hhere
          simp only [List.length_cons] at hle
          exact ih (by omega) (by omega) _ _ _
        · exact ih (by omega) (by omega) _ _ _

/-- What is replaced are the markers outside the regions of the scanner, in their order; every
other character is copied. The loop comes to an end on every text. -/
theorem rewriteNamedParams_agrees {sql : Text} (h : NoQuotedMarker sql) :
    (∃ parts tail, Splits sql parts tail ∧
      (rewriteNamedParams sql).sql = parts.flatMap Part.target ++ tail ∧
      (rewriteNamedParams sql).names = parts.map Part.name ∧
      (rewriteNamedParams sql).hasNamed = decide (markers sql ≠ [])) ∧
    ∀ fuel, sql.length ≤ fuel → rewriteLoop fuel [] [] [] sql =
      ((rewriteNamedParams sql).sql, (rewriteNamedParams sql).names) := by
  refine ⟨?_, fun fuel hfuel => rewriteLoop_fuel hfuel le_rfl [] [] []⟩
  obtain ⟨parts, tail, hsplits, hloop⟩ := rewriteLoop_splits le_rfl h [] [] []
  simp only [List.nil_append] at hloop
  refine ⟨parts, tail, hsplits, ?_, ?_, ?_⟩
  · rw [rewriteNamedParams, hloop]
  · rw [rewriteNamedParams, hloop]
  · have hlen : (parts.map Part.name).length = (markers sql).length := by
      rw [hsplits.names, List.length_map]
    rw [rewriteNamedParams, hloop]
    simp only [hlen, List.length_pos_iff]

/-- Two markers, one of them behind a comment that holds a third; the last string is not closed. -/
theorem rewriteNamedParams_agrees_two : ∃ parts tail,
    Splits "x=@a--@b \n+@q$ 'it''s @c ".toList parts tail ∧
      (rewriteNamedParams "x=@a--@b \n+@q$ 'it''s @c ".toList).names = parts.map Part.name := by
  have hnone : NoQuotedMarker "x=@a--@b \n+@q$ 'it''s @c ".toList := by decide
  obtain ⟨⟨parts, tail, hsplits, -, hnames, -⟩, -⟩ := rewriteNamedParams_agrees hnone
  exact ⟨parts, tail, hsplits, hnames⟩

end FastFirebird
