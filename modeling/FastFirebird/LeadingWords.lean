import FastFirebird.ScriptParser

/-! The leading keywords of a statement, read off its own text, and that the classifier sees the
same ones in what `stripComments` has left of it. -/
namespace FastFirebird

/-- What is behind a comment that starts here. -/
def afterComment : Text → Option Text
  | '-' :: '-' :: rest => some (rest.dropWhile (!isEol ·))
  | '/' :: '*' :: rest => (pairAt '*' '/' rest).map fun k => rest.drop (k + 2)
  | _ => none

/-- The words a text in lower case starts with, white space and comments aside. Every round takes
a character. -/
def leadingFrom : Nat → Text → List Text
  | 0, _ => []
  | _ + 1, [] => []
  | fuel + 1, c :: rest =>
    match afterComment (c :: rest) with
    | some behind => leadingFrom fuel behind
    | none =>
      if isSpace c then leadingFrom fuel rest
      else if isWordStart c then
        (c :: rest.takeWhile isNameChar) :: leadingFrom fuel (rest.dropWhile isNameChar)
      else []

def leadingWords (text : Text) : List Text := leadingFrom text.length text

/-- `COMMIT`, `ROLLBACK` not followed by `[WORK] TO`, or `SET TRANSACTION`. -/
def controlsTransaction : List Text → Bool
  | w :: rest =>
    if w = "commit".toList then true
    else if w = "rollback".toList then
      let rest := if rest.head? = some "work".toList then rest.tail else rest
      rest.head? ≠ some "to".toList
    else w = "set".toList && rest.head? = some "transaction".toList
  | [] => false

/-- What must not reach the server from a script. -/
def TransactionControl (cases : CaseMap) (sql : Text) : Prop :=
  controlsTransaction (leadingWords (toLowerCase cases sql)) = true

/-! ### Regions of a slice -/

theorem bind_ok {ε α β : Type} {m : Except ε α} {f : α → Except ε β} {b : β}
    (h : (m >>= f) = .ok b) : ∃ a, m = .ok a ∧ f a = .ok b := by
  cases m with
  | error e => cases h
  | ok a => exact ⟨a, rfl, h⟩

theorem pairAt_slice {a b : Char} : ∀ {text rest : Text} {k : Nat},
    pairAt a b (text ++ rest) = some k → k + 2 ≤ text.length → pairAt a b text = some k
  | [], rest, k, h, hk => by simp at hk
  | [c], rest, k, h, hk => by simp at hk
  | c :: d :: text, rest, k, h, hk => by
    rw [List.cons_append, List.cons_append, pairAt] at h
    rw [pairAt]
    split at h
    · rename_i heq
      rw [if_pos heq, h]
    · rename_i heq
      rw [if_neg heq]
      obtain ⟨j, hj, rfl⟩ := Option.map_eq_some_iff.mp h
      have hlen : j + 2 ≤ (d :: text).length := by
        simp only [List.length_cons] at hk ⊢
        omega
      rw [@pairAt_slice _ _ (d :: text) _ _ hj hlen]
      rfl

theorem pairAt_extend {a b : Char} (x : Text) : ∀ {w : Text} {k : Nat},
    pairAt a b w = some k → pairAt a b (w ++ x) = some k
  | [], k, h => by simp [pairAt] at h
  | [c], k, h => by simp [pairAt] at h
  | c :: d :: w, k, h => by
    rw [pairAt] at h
    rw [List.cons_append, List.cons_append, pairAt]
    split at h
    · rename_i hc
      rw [if_pos hc, h]
    · rename_i hc
      obtain ⟨j, hj, rfl⟩ := Option.map_eq_some_iff.mp h
      have hi := pairAt_extend x hj
      rw [List.cons_append] at hi
      rw [if_neg hc, hi]
      rfl

theorem pairAt_bound {a b : Char} : ∀ {text : Text} {k : Nat},
    pairAt a b text = some k → k + 2 ≤ text.length ∧ text[k + 1]? = some b
  | [], k, h => by simp [pairAt] at h
  | [c], k, h => by simp [pairAt] at h
  | c :: d :: text, k, h => by
    rw [pairAt] at h
    split at h
    · rename_i heq
      cases h
      exact ⟨by simp, by simp [heq.2]⟩
    · obtain ⟨j, hj, rfl⟩ := Option.map_eq_some_iff.mp h
      have ih := pairAt_bound hj
      refine ⟨?_, ?_⟩
      · have := ih.1
        simp only [List.length_cons] at this ⊢
        omega
      · simpa using ih.2

theorem quotedLength_bound {q : Char} : ∀ {text : Text} {k : Nat}, quotedLength q text = some k →
    1 ≤ k ∧ k ≤ text.length ∧ text[k - 1]? = some q
  | [], k, h => by simp [quotedLength] at h
  | [c], k, h => by
    rw [quotedLength] at h
    split at h
    · rename_i heq
      cases h
      exact ⟨by omega, by simp, by simp [heq]⟩
    · simp [quotedLength] at h
  | c :: d :: text, k, h => by
    rw [quotedLength] at h
    split at h
    · rename_i heq
      split at h
      · obtain ⟨j, hj, rfl⟩ := Option.map_eq_some_iff.mp h
        obtain ⟨hpos, hlen, hlast⟩ := quotedLength_bound hj
        refine ⟨by omega, by simp only [List.length_cons]; omega, ?_⟩
        rw [show j + 2 - 1 = (j - 1) + 1 + 1 by omega]
        simpa using hlast
      · cases h
        exact ⟨by omega, by simp, by simp [heq]⟩
    · obtain ⟨j, hj, rfl⟩ := Option.map_eq_some_iff.mp h
      obtain ⟨hpos, hlen, hlast⟩ := quotedLength_bound hj
      refine ⟨by omega, by simp only [List.length_cons] at hlen ⊢; omega, ?_⟩
      rw [show j + 1 - 1 = (j - 1) + 1 by omega]
      simpa using hlast

theorem quotedLength_slice {q : Char} : ∀ {text rest : Text} {k : Nat},
    quotedLength q (text ++ rest) = some k → k ≤ text.length → quotedLength q text = some k
  | [], rest, k, h, hk => by
    have hpos := (quotedLength_bound h).1
    simp at hk
    omega
  | [c], rest, k, h, hk => by
    simp only [List.length_cons, List.length_nil] at hk
    cases rest with
    | nil => exact h
    | cons d rest =>
      rw [List.singleton_append, quotedLength] at h
      rw [quotedLength]
      split at h
      · rename_i heq
        rw [if_pos heq]
        split at h
        · obtain ⟨j, hj, rfl⟩ := Option.map_eq_some_iff.mp h
          omega
        · exact h
      · obtain ⟨j, hj, rfl⟩ := Option.map_eq_some_iff.mp h
        have hpos := (quotedLength_bound hj).1
        omega
  | c :: d :: text, rest, k, h, hk => by
    simp only [List.length_cons] at hk
    rw [List.cons_append, List.cons_append, quotedLength] at h
    rw [quotedLength]
    split at h
    · rename_i heq
      rw [if_pos heq]
      split at h
      · rename_i heq'
        obtain ⟨j, hj, rfl⟩ := Option.map_eq_some_iff.mp h
        have hlen : j ≤ text.length := by omega
        rw [if_pos heq', quotedLength_slice hj hlen]
        rfl
      · rename_i heq'
        rw [if_neg heq', h]
    · rename_i heq
      obtain ⟨j, hj, rfl⟩ := Option.map_eq_some_iff.mp h
      have hlen : j ≤ (d :: text).length := by
        simp only [List.length_cons]
        omega
      rw [if_neg heq, @quotedLength_slice _ (d :: text) _ _ hj hlen]
      rfl

/-- A region that starts a text and is closed in it. -/
inductive Opens : Text → Region → Prop where
  | lineComment (rest : Text) :
    Opens ('-' :: '-' :: rest) ⟨.lineComment, 2 + (rest.takeWhile (!isEol ·)).length, true⟩
  | blockComment {rest : Text} {k : Nat} : pairAt '*' '/' rest = some k →
    Opens ('/' :: '*' :: rest) ⟨.blockComment, k + 4, true⟩
  | qLiteral {c opener : Char} {rest : Text} {k : Nat} : c = 'q' ∨ c = 'Q' →
    pairAt (qCloser opener) '\'' rest = some k →
    Opens (c :: '\'' :: opener :: rest) ⟨.qLiteral, k + 5, true⟩
  | string {rest : Text} {k : Nat} : quotedLength '\'' rest = some k →
    Opens ('\'' :: rest) ⟨.string, k + 1, true⟩
  | quotedIdentifier {rest : Text} {k : Nat} : quotedLength '"' rest = some k →
    Opens ('"' :: rest) ⟨.quotedIdentifier, k + 1, true⟩

theorem region_terminated {type : RegionType} {text : Text} {length : Option Nat}
    (h : (region type text length).terminated = true) :
    ∃ n, length = some n ∧ region type text length = ⟨type, n, true⟩ := by
  cases length with
  | none => simp [region] at h
  | some n => exact ⟨n, rfl, rfl⟩

theorem head_cons {text : Text} {c : Char} (h : text.head? = some c) :
    text = c :: text.drop 1 := by
  cases text with
  | nil => simp at h
  | cons d rest => simpa using h

theorem Opens.of_regionAt {text : Text} {r : Region} (h : regionAt text = some r)
    (ht : r.terminated = true) : Opens text r := by
  cases text with
  | nil => simp [regionAt] at h
  | cons c rest =>
    rw [regionAt] at h
    split at h
    · rename_i hc
      cases h
      rw [hc.1, head_cons hc.2]
      exact .lineComment _
    split at h
    · rename_i hc
      cases h
      obtain ⟨n, hn, hr⟩ := region_terminated ht
      obtain ⟨k, hk, rfl⟩ := Option.map_eq_some_iff.mp hn
      rw [hr, hc.1, head_cons hc.2]
      exact .blockComment hk
    split at h
    · rename_i hc
      split at h
      · cases h
        simp [region] at ht
      · rename_i opener body hbody
        cases h
        obtain ⟨n, hn, hr⟩ := region_terminated ht
        obtain ⟨k, hk, rfl⟩ := Option.map_eq_some_iff.mp hn
        rw [hr, head_cons hc.2, hbody]
        exact .qLiteral hc.1 hk
    split at h
    · rename_i hc
      cases h
      obtain ⟨n, hn, hr⟩ := region_terminated ht
      obtain ⟨k, hk, rfl⟩ := Option.map_eq_some_iff.mp hn
      rw [hr]
      subst hc
      exact .string hk
    split at h
    · rename_i hc
      cases h
      obtain ⟨n, hn, hr⟩ := region_terminated ht
      obtain ⟨k, hk, rfl⟩ := Option.map_eq_some_iff.mp hn
      rw [hr]
      subst hc
      exact .quotedIdentifier hk
    · cases h

theorem Opens.regionAt {text : Text} {r : Region} (h : Opens text r) :
    regionAt text = some r ∧ r.terminated = true := by
  cases h with
  | lineComment rest => simp [FastFirebird.regionAt]
  | blockComment hk => simp [FastFirebird.regionAt, hk, region]
  | qLiteral hc hk =>
    rcases hc with rfl | rfl <;> simp [FastFirebird.regionAt, hk, region]
  | string hk => simp [FastFirebird.regionAt, hk, region]
  | quotedIdentifier hk => simp [FastFirebird.regionAt, hk, region]

theorem Opens.length_pos {text : Text} {r : Region} (h : Opens text r) :
    2 ≤ r.length ∧ r.length ≤ text.length := by
  cases h with
  | lineComment rest =>
    have hlen := (List.takeWhile_sublist (!isEol ·) (l := rest)).length_le
    simp only [List.length_cons]
    omega
  | blockComment hk =>
    have hlen := (pairAt_bound hk).1
    simp only [List.length_cons]
    omega
  | qLiteral hc hk =>
    have hlen := (pairAt_bound hk).1
    simp only [List.length_cons]
    omega
  | string hk =>
    have hlen := quotedLength_bound hk
    simp only [List.length_cons]
    omega
  | quotedIdentifier hk =>
    have hlen := quotedLength_bound hk
    simp only [List.length_cons]
    omega

/-- Every region but a line comment is closed by a character that is not white space. -/
theorem Opens.last {text : Text} {r : Region} (h : Opens text r) (ht : r.type ≠ .lineComment) :
    ∃ d, text[r.length - 1]? = some d ∧ isSpace d = false := by
  cases h with
  | lineComment rest => exact absurd rfl ht
  | @blockComment rest k hk =>
    have hlast := (pairAt_bound hk).2
    refine ⟨'/', ?_, by decide⟩
    rw [show k + 4 - 1 = (k + 1) + 1 + 1 by omega]
    simpa using hlast
  | @qLiteral c opener rest k hc hk =>
    have hlast := (pairAt_bound hk).2
    refine ⟨'\'', ?_, by decide⟩
    rw [show k + 5 - 1 = (k + 1) + 1 + 1 + 1 by omega]
    simpa using hlast
  | @string rest k hk =>
    obtain ⟨hpos, -, hlast⟩ := quotedLength_bound hk
    refine ⟨'\'', ?_, by decide⟩
    rw [show k + 1 - 1 = (k - 1) + 1 by omega]
    simpa using hlast
  | @quotedIdentifier rest k hk =>
    obtain ⟨hpos, -, hlast⟩ := quotedLength_bound hk
    refine ⟨'"', ?_, by decide⟩
    rw [show k + 1 - 1 = (k - 1) + 1 by omega]
    simpa using hlast

theorem regionAt_eq_none {c : Char} {rest : Text} : regionAt (c :: rest) = none ↔
    ¬ (c = '-' ∧ rest.head? = some '-') ∧ ¬ (c = '/' ∧ rest.head? = some '*') ∧
      ¬ ((c = 'q' ∨ c = 'Q') ∧ rest.head? = some '\'') ∧ c ≠ '\'' ∧ c ≠ '"' := by
  constructor
  · intro h
    rw [regionAt] at h
    split at h
    · cases h
    · split at h
      · cases h
      · split at h
        · split at h <;> cases h
        · split at h
          · cases h
          · split at h
            · cases h
            · exact ⟨‹_›, ‹_›, ‹_›, ‹_›, ‹_›⟩
  · rintro ⟨h₁, h₂, h₃, h₄, h₅⟩
    rw [regionAt, if_neg h₁, if_neg h₂, if_neg h₃, if_neg h₄, if_neg h₅]

theorem regionAt_none_slice {text rest : Text} (h : regionAt (text ++ rest) = none) :
    regionAt text = none := by
  cases text with
  | nil => rfl
  | cons c text =>
    have hhead : ∀ d, text.head? = some d → (text ++ rest).head? = some d := by
      intro d hd
      rw [head_cons hd]
      rfl
    obtain ⟨h₁, h₂, h₃, h₄, h₅⟩ := regionAt_eq_none.mp h
    apply regionAt_eq_none.mpr
    exact ⟨fun hc => h₁ ⟨hc.1, hhead _ hc.2⟩, fun hc => h₂ ⟨hc.1, hhead _ hc.2⟩,
      fun hc => h₃ ⟨hc.1, hhead _ hc.2⟩, h₄, h₅⟩

theorem takeWhile_slice {p : Char → Bool} {text rest : Text}
    (h : ((text ++ rest).takeWhile p).length ≤ text.length) :
    (text ++ rest).takeWhile p = text.takeWhile p := by
  rw [List.takeWhile_append] at h ⊢
  split
  · rename_i hall
    rw [if_pos hall] at h
    have hnil : rest.takeWhile p = [] := by
      apply List.eq_nil_of_length_eq_zero
      rw [List.length_append] at h
      omega
    have htext : text.takeWhile p = text := by
      exact (List.takeWhile_sublist p).eq_of_length hall
    rw [hnil, htext, List.append_nil]
  · rfl

theorem Opens.slice {text rest : Text} {r : Region} (h : Opens (text ++ rest) r)
    (hr : r.length ≤ text.length) : Opens text r := by
  have hpos := h.length_pos.1
  -- the opening delimiters are in the slice, as the region is
  match text, hr with
  | [], hr => simp at hr; omega
  | [c], hr => simp at hr; omega
  | c :: d :: text, hr =>
    simp only [List.length_cons] at hr
    generalize hfull : c :: d :: text ++ rest = full at h
    cases h with
    | lineComment body =>
      simp only [List.cons_append, List.cons.injEq] at hfull
      obtain ⟨rfl, rfl, rfl⟩ := hfull
      rw [takeWhile_slice (by dsimp only at hr; omega)]
      exact .lineComment text
    | blockComment hk =>
      simp only [List.cons_append, List.cons.injEq] at hfull
      obtain ⟨rfl, rfl, rfl⟩ := hfull
      exact .blockComment (pairAt_slice hk (by dsimp only at hr; omega))
    | qLiteral hc hk =>
      cases text with
      | nil => simp at hr
      | cons opener text =>
        simp only [List.cons_append, List.cons.injEq] at hfull
        obtain ⟨rfl, rfl, rfl, rfl⟩ := hfull
        simp only [List.length_cons] at hr
        exact .qLiteral hc (pairAt_slice hk (by omega))
    | string hk =>
      simp only [List.cons_append, List.cons.injEq] at hfull
      obtain ⟨rfl, rfl⟩ := hfull
      exact .string (@quotedLength_slice _ (d :: text) _ _ hk
        (by simp only [List.length_cons]; dsimp only at hr; omega))
    | quotedIdentifier hk =>
      simp only [List.cons_append, List.cons.injEq] at hfull
      obtain ⟨rfl, rfl⟩ := hfull
      exact .quotedIdentifier (@quotedLength_slice _ (d :: text) _ _ hk
        (by simp only [List.length_cons]; dsimp only at hr; omega))

/-! ### Texts in which every region is closed -/

inductive Lexes : Text → Prop where
  | nil : Lexes []
  | char {c : Char} {rest : Text} : regionAt (c :: rest) = none → Lexes rest → Lexes (c :: rest)
  | region {text : Text} {r : Region} : Opens text r → Lexes (text.drop r.length) → Lexes text

/-- A line comment that goes on behind a slice is one in the slice. -/
theorem Opens.cutComment {text blanks : Text} {r : Region} (h : Opens (text ++ blanks) r)
    (ht : r.type = .lineComment) (hb : ∀ c ∈ blanks, isSpace c = true) (hne : text ≠ [])
    (hr : text.length < r.length) : Opens text ⟨.lineComment, text.length, true⟩ := by
  have hdash : ∀ rest, blanks ≠ '-' :: rest := by
    rintro rest rfl
    have hspace := hb '-' (by simp)
    exact absurd hspace (by decide)
  generalize hfull : text ++ blanks = full at h
  cases h with
  | lineComment rest =>
    match text with
    | [] => exact absurd rfl hne
    | [c] =>
      simp only [List.singleton_append, List.cons.injEq] at hfull
      exact absurd hfull.2 (hdash rest)
    | c :: d :: text =>
      simp only [List.cons_append, List.cons.injEq] at hfull
      obtain ⟨rfl, rfl, rfl⟩ := hfull
      simp only [List.length_cons] at hr
      -- the comment goes on behind the slice, so that no line ends in it
      have hall : (text.takeWhile (!isEol ·)).length = text.length := by
        rw [List.takeWhile_append] at hr
        split at hr
        · assumption
        · have hlen := (List.takeWhile_sublist (!isEol ·) (l := text)).length_le
          omega
      have hopens := Opens.lineComment text
      rw [hall, Nat.add_comm] at hopens
      exact hopens
  | blockComment hk => cases ht
  | qLiteral hc hk => cases ht
  | string hk => cases ht
  | quotedIdentifier hk => cases ht

/-- Blanks cut off at the end leave every region closed: only a line comment can lose some. -/
theorem Lexes.trimmed {text blanks : Text} (hb : ∀ c ∈ blanks, isSpace c = true)
    (h : Lexes (text ++ blanks)) : Lexes text := by
  generalize hfull : text ++ blanks = full at h
  induction h generalizing text with
  | nil =>
    rw [List.append_eq_nil_iff] at hfull
    rw [hfull.1]
    exact .nil
  | @char c rest hnone hrest ih =>
    cases text with
    | nil => exact .nil
    | cons d text =>
      simp only [List.cons_append, List.cons.injEq] at hfull
      obtain ⟨rfl, rfl⟩ := hfull
      apply Lexes.char
      · exact @regionAt_none_slice (d :: text) _ hnone
      · exact ih rfl
  | @region full r hopens hrest ih =>
    subst hfull
    by_cases hr : r.length ≤ text.length
    · apply Lexes.region (hopens.slice hr)
      apply ih
      rw [List.drop_append_of_le_length hr]
    · have hlast : r.type = .lineComment := by
        by_cases ht : r.type = .lineComment
        · exact ht
        · obtain ⟨d, hd, hspace⟩ := hopens.last ht
          rw [List.getElem?_append_right (by omega)] at hd
          rw [hb d (List.mem_of_getElem? hd)] at hspace
          cases hspace
      by_cases hne : text = []
      · rw [hne]
        exact .nil
      · apply Lexes.region (hopens.cutComment hlast hb hne (by omega))
        rw [List.drop_of_length_le (Nat.le_refl _)]
        exact .nil

theorem Lexes.spaces_dropped {text : Text} (h : Lexes text) : Lexes (text.dropWhile isSpace) := by
  induction h with
  | nil => exact .nil
  | @char c rest hnone hrest ih =>
    rw [List.dropWhile_cons]
    split
    · exact ih
    · exact .char hnone hrest
  | @region text r hopens hrest ih =>
    have hhead : text.dropWhile isSpace = text := by
      cases hopens with
      | lineComment rest => rfl
      | blockComment hk => rfl
      | qLiteral hc hk => rcases hc with rfl | rfl <;> rfl
      | string hk => rfl
      | quotedIdentifier hk => rfl
    rw [hhead]
    exact .region hopens hrest

theorem Lexes.trim {text : Text} (h : Lexes text) : Lexes (trim text) := by
  have hsplit : FastFirebird.trim text ++
      ((text.dropWhile isSpace).reverse.takeWhile isSpace).reverse = text.dropWhile isSpace := by
    rw [FastFirebird.trim, trimEnd, ← List.reverse_append, List.takeWhile_append_dropWhile,
      List.reverse_reverse]
  apply @Lexes.trimmed _ ((text.dropWhile isSpace).reverse.takeWhile isSpace).reverse
  · intro c hc
    rw [List.mem_reverse] at hc
    exact List.mem_takeWhile_imp hc
  · rw [hsplit]
    exact h.spaces_dropped

theorem map_ok {ε α β : Type} {m : Except ε α} {f : α → β} {b : β} (h : m.map f = .ok b) :
    ∃ a, m = .ok a ∧ f a = b := by
  cases m with
  | error e => cases h
  | ok a => exact ⟨a, rfl, by cases h; rfl⟩

/-- The text of a statement body is a slice of the script that ends between two regions. -/
theorem scanBody_slice {terminator : Text} : ∀ {fuel : Nat} {p : Position} {text : Text} {b : StatementBody},
    text.length ≤ fuel → scanBody terminator fuel p text = .ok b →
      Lexes b.text ∧ ∃ rest, text = b.text ++ rest := by
  intro fuel
  induction fuel with
  | zero =>
    intro p text b hlen h
    rw [scanBody] at h
    cases h
    exact ⟨.nil, text, rfl⟩
  | succ fuel ih =>
    intro p text b hlen h
    cases text with
    | nil =>
      rw [scanBody] at h
      cases h
      exact ⟨.nil, [], rfl⟩
    | cons c rest =>
      rw [scanBody] at h
      split at h
      · rename_i r hr
        split at h
        · rename_i ht
          have hopens := Opens.of_regionAt hr ht
          have hpos := hopens.length_pos
          obtain ⟨b', hb', rfl⟩ := map_ok h
          have hdrop : ((c :: rest).drop r.length).length ≤ fuel := by
            rw [List.length_drop]
            omega
          obtain ⟨hlexes, rest', hrest⟩ := ih hdrop hb'
          have hsplit : c :: rest = ((c :: rest).take r.length ++ b'.text) ++ rest' := by
            rw [List.append_assoc, ← hrest, List.take_append_drop]
          refine ⟨?_, rest', hsplit⟩
          have htaken : ((c :: rest).take r.length).length = r.length := by
            rw [List.length_take]
            omega
          apply Lexes.region (r := r)
          · apply @Opens.slice _ rest' _
            · rw [StatementBody.prepend, ← hsplit]
              exact hopens
            · rw [StatementBody.prepend, List.length_append]
              omega
          · rw [StatementBody.prepend, List.drop_append_of_le_length (by omega),
              List.drop_of_length_le (by omega), List.nil_append]
            exact hlexes
        · cases h
      · rename_i hnone
        split at h
        · cases h
          exact ⟨.nil, c :: rest, rfl⟩
        · obtain ⟨b', hb', rfl⟩ := map_ok h
          have hdrop : rest.length ≤ fuel := by
            simp only [List.length_cons] at hlen
            omega
          obtain ⟨hlexes, rest', hrest⟩ := ih hdrop hb'
          refine ⟨?_, rest', by rw [hrest]; rfl⟩
          apply Lexes.char
          · apply @regionAt_none_slice _ rest'
            have hsame : c :: b'.text ++ rest' = c :: rest := by rw [hrest]; rfl
            exact hsame ▸ hnone
          · exact hlexes

/-! ### Lower case -/

theorem isNameChar_toNat {c : Char} (h : isNameChar c = true) :
    c.toNat = 36 ∨ 48 ≤ c.toNat ∧ c.toNat ≤ 122 := by
  simp only [isNameChar, isWordChar, isDigit, Bool.or_eq_true, Bool.and_eq_true, decide_eq_true_eq,
    beq_iff_eq, Char.le_def, UInt32.le_iff_toNat_le] at h
  rcases h with (((h | h) | h) | rfl) | rfl
  · have h₁ : 97 ≤ c.toNat := h.1
    have h₂ : c.toNat ≤ 122 := h.2
    omega
  · have h₁ : 65 ≤ c.toNat := h.1
    have h₂ : c.toNat ≤ 90 := h.2
    omega
  · have h₁ : 48 ≤ c.toNat := h.1
    have h₂ : c.toNat ≤ 57 := h.2
    omega
  · exact .inr (by decide)
  · exact .inl (by decide)

theorem isSpace_not_name {c : Char} (h : isSpace c = true) : isNameChar c = false := by
  have hc := isSpace_toNat h
  cases hn : isNameChar c with
  | false => rfl
  | true =>
    have hn := isNameChar_toNat hn
    omega

theorem isWordStart_name {c : Char} (h : isWordStart c = true) : isNameChar c = true := by
  simp only [isWordStart, isNameChar, isWordChar, Bool.or_eq_true] at h ⊢
  rcases h with (h | h) | h
  · exact .inl (.inl (.inl (.inl h)))
  · exact .inr h
  · exact .inl (.inr h)

theorem toLower_eq {c x : Char} (hx : x.toNat < 97) (h : c.toLower = x) : c = x := by
  by_cases hupper : 65 ≤ c.toNat ∧ c.toNat ≤ 90
  · have hlower := toLower_upper hupper.1 hupper.2
    rw [h] at hlower
    omega
  · rw [← h, toLower_self hupper]

variable {cases : CaseMap}

theorem lower_eq {c x : Char} (hx : x.toNat < 97) (h : x ∈ cases.lower c) :
    c = x ∧ cases.lower c = [x] := by
  by_cases hc : c.toNat < 128
  · have hlower := cases.lower_ascii c hc
    rw [hlower, List.mem_singleton] at h
    exact ⟨toLower_eq hx h.symm, by rw [hlower, h]⟩
  · rcases cases.lower_other c (by omega) x h (by omega) with rfl | rfl
    · exact absurd hx (by decide)
    · exact absurd hx (by decide)

theorem lower_head {text : Text} {x : Char} (hx : x.toNat < 97)
    (h : (toLowerCase cases text).head? = some x) : text.head? = some x := by
  cases text with
  | nil => simp [toLowerCase] at h
  | cons c rest =>
    rw [toLowerCase, List.flatMap_cons] at h
    cases hc : cases.lower c with
    | nil => exact absurd hc (cases.lower_ne_nil c)
    | cons d ds =>
      have hd : d = x := by simpa [hc] using h
      have hmem : x ∈ cases.lower c := by simp [hc, hd]
      rw [(lower_eq hx hmem).1]
      rfl

theorem toLowerCase_cons (c : Char) (rest : Text) :
    toLowerCase cases (c :: rest) = cases.lower c ++ toLowerCase cases rest := rfl

theorem toLowerCase_append (a b : Text) :
    toLowerCase cases (a ++ b) = toLowerCase cases a ++ toLowerCase cases b :=
  List.flatMap_append

theorem toLowerCase_spaces {blanks : Text} (h : ∀ c ∈ blanks, isSpace c = true) :
    toLowerCase cases blanks = blanks := by
  induction blanks with
  | nil => rfl
  | cons c blanks ih =>
    rw [toLowerCase_cons, cases.lower_space c (h c (by simp)), ih fun d hd => h d (by simp [hd])]
    rfl

theorem pairAt_cons {a b c : Char} {rest : Text} (h : ¬ (c = a ∧ rest.head? = some b)) :
    pairAt a b (c :: rest) = (pairAt a b rest).map (· + 1) := by
  cases rest with
  | nil => rfl
  | cons d rest =>
    rw [pairAt, if_neg]
    intro hc
    exact h ⟨hc.1, by rw [hc.2]; rfl⟩

theorem pairAt_append {a b : Char} {rest : Text} : ∀ {text : Text}, (∀ d ∈ text, d ≠ a) →
    pairAt a b (text ++ rest) = (pairAt a b rest).map (· + text.length)
  | [], _ => by simp
  | c :: text, h => by
    have hc : c ≠ a := h c (by simp)
    have ih := @pairAt_append _ b rest text fun d hd => h d (by simp [hd])
    rw [List.cons_append, pairAt_cons (fun hca => hc hca.1), ih, Option.map_map]
    congr 1

/-- The end of a block comment stays where it was, in lower case. -/
theorem lower_pairAt : ∀ {text : Text} {k : Nat}, pairAt '*' '/' text = some k →
    ∃ n, pairAt '*' '/' (toLowerCase cases text) = some n ∧
      (toLowerCase cases text).drop (n + 2) = toLowerCase cases (text.drop (k + 2))
  | [], k, h => by simp [pairAt] at h
  | c :: rest, k, h => by
    by_cases hpair : c = '*' ∧ rest.head? = some '/'
    · obtain ⟨rfl, hhead⟩ := hpair
      have hk : k = 0 := by
        rw [head_cons hhead, pairAt, if_pos ⟨rfl, rfl⟩] at h
        exact (Option.some.inj h).symm
      refine ⟨0, ?_, ?_⟩
      · rw [head_cons hhead, toLowerCase_cons, toLowerCase_cons,
          cases.lower_ascii '*' (by decide), cases.lower_ascii '/' (by decide)]
        rfl
      · rw [hk, head_cons hhead, toLowerCase_cons, toLowerCase_cons,
          cases.lower_ascii '*' (by decide), cases.lower_ascii '/' (by decide)]
        rfl
    · rw [pairAt_cons hpair] at h
      obtain ⟨j, hj, rfl⟩ := Option.map_eq_some_iff.mp h
      obtain ⟨n, hn, hdrop⟩ := lower_pairAt hj
      refine ⟨n + (cases.lower c).length, ?_, ?_⟩
      · rw [toLowerCase_cons]
        by_cases hstar : '*' ∈ cases.lower c
        · obtain ⟨rfl, hlower⟩ := lower_eq (by decide) hstar
          rw [hlower, List.singleton_append, pairAt_cons, hn]
          · rfl
          · intro hhead
            exact hpair ⟨rfl, lower_head (by decide) hhead.2⟩
        · rw [pairAt_append (by rintro d hd rfl; exact hstar hd), hn]
          rfl
      · rw [toLowerCase_cons, show n + (cases.lower c).length + 2
          = (cases.lower c).length + (n + 2) by omega, List.drop_length_add_append]
        exact hdrop

theorem lower_line {text : Text} : (toLowerCase cases text).dropWhile (!isEol ·)
    = toLowerCase cases (text.dropWhile (!isEol ·)) := by
  induction text with
  | nil => rfl
  | cons c rest ih =>
    rw [List.dropWhile_cons]
    by_cases hc : isEol c = true
    · have hspace : isSpace c = true := by
        simp only [isEol, Bool.or_eq_true, beq_iff_eq] at hc
        rcases hc with rfl | rfl <;> decide
      rw [if_neg (by simp [hc]), toLowerCase_cons, cases.lower_space c hspace,
        List.singleton_append, List.dropWhile_cons, if_neg (by simp [hc])]
    · rw [if_pos (by simpa using hc), toLowerCase_cons, List.dropWhile_append_of_pos, ih]
      intro d hd
      by_cases hd' : isEol d = true
      · have hsmall : d.toNat < 97 := by
          simp only [isEol, Bool.or_eq_true, beq_iff_eq] at hd'
          rcases hd' with rfl | rfl <;> decide
        rw [(lower_eq hsmall hd).1] at hc
        exact absurd hd' hc
      · simpa using hd'

/-! ### What `stripComments` leaves -/

/-- The text on the left is the one on the right with its comments blanked out, up to the first
quote at least. -/
inductive Alike : Text → Text → Prop where
  | nil : Alike [] []
  | char {c : Char} {left right : Text} :
    afterComment (c :: right) = none → Alike left right → Alike (c :: left) (c :: right)
  | comment {blanks left right behind : Text} : blanks ≠ [] → (∀ c ∈ blanks, isSpace c = true) →
    afterComment right = some behind → Alike left behind → Alike (blanks ++ left) right
  | quote {c : Char} {left right : Text} : c = '\'' ∨ c = '"' → Alike (c :: left) (c :: right)

theorem afterComment_none {c : Char} {rest : Text} (h₁ : ¬ (c = '-' ∧ rest.head? = some '-'))
    (h₂ : ¬ (c = '/' ∧ rest.head? = some '*')) : afterComment (c :: rest) = none := by
  cases rest with
  | nil => simp [afterComment]
  | cons d rest =>
    rw [afterComment]
    · intro rest' hd
      cases hd
      exact h₁ ⟨rfl, rfl⟩
    · intro rest' hd
      cases hd
      exact h₂ ⟨rfl, rfl⟩

theorem Alike.chars {text left right : Text} (h : ∀ c ∈ text, c ≠ '-' ∧ c ≠ '/')
    (ha : Alike left right) : Alike (text ++ left) (text ++ right) := by
  induction text with
  | nil => exact ha
  | cons c text ih =>
    have hc := h c (by simp)
    apply Alike.char
    · exact afterComment_none (fun h' => hc.1 h'.1) (fun h' => hc.2 h'.1)
    · exact ih fun d hd => h d (by simp [hd])

theorem Alike.lower {c : Char} {rest left : Text} (h : regionAt (c :: rest) = none)
    (ha : Alike left (toLowerCase cases rest)) :
    Alike (cases.lower c ++ left) (cases.lower c ++ toLowerCase cases rest) := by
  obtain ⟨h₁, h₂, -⟩ := regionAt_eq_none.mp h
  by_cases hdash : '-' ∈ cases.lower c
  · obtain ⟨rfl, hlower⟩ := lower_eq (by decide) hdash
    rw [hlower]
    apply Alike.char (afterComment_none _ _) ha
    · exact fun h' => h₁ ⟨rfl, lower_head (by decide) h'.2⟩
    · exact fun h' => absurd h'.1 (by decide)
  by_cases hslash : '/' ∈ cases.lower c
  · obtain ⟨rfl, hlower⟩ := lower_eq (by decide) hslash
    rw [hlower]
    apply Alike.char (afterComment_none _ _) ha
    · exact fun h' => absurd h'.1 (by decide)
    · exact fun h' => h₂ ⟨rfl, lower_head (by decide) h'.2⟩
  · apply Alike.chars _ ha
    intro d hd
    constructor
    · rintro rfl
      exact hdash hd
    · rintro rfl
      exact hslash hd

theorem blank_spaces {text : Text} : ∀ c ∈ blank text, isSpace c = true := by
  intro c hc
  obtain ⟨d, -, rfl⟩ := List.mem_map.mp hc
  split
  · rename_i hd
    simp only [isEol, Bool.or_eq_true, beq_iff_eq] at hd
    rcases hd with rfl | rfl <;> decide
  · decide

theorem blank_ne_nil {text : Text} {r : Region} (h : Opens text r) :
    blank (text.take r.length) ≠ [] := by
  intro hnil
  have hlen := congrArg List.length hnil
  have hpos := h.length_pos
  rw [blank, List.length_map, List.length_take, List.length_nil] at hlen
  omega

theorem drop_takeWhile (p : Char → Bool) (text : Text) :
    text.drop (text.takeWhile p).length = text.dropWhile p := by
  calc text.drop (text.takeWhile p).length
      = (text.takeWhile p ++ text.dropWhile p).drop (text.takeWhile p).length := by
        rw [List.takeWhile_append_dropWhile]
    _ = text.dropWhile p := List.drop_left

/-- The words go on behind a comment as they do behind the region. -/
theorem Opens.afterComment {text : Text} {r : Region} (h : Opens text r)
    (hr : r.type.isComment = true) : FastFirebird.afterComment (toLowerCase cases text)
      = some (toLowerCase cases (text.drop r.length)) := by
  cases h with
  | lineComment rest =>
    rw [toLowerCase_cons, toLowerCase_cons, cases.lower_ascii '-' (by decide)]
    have hdrop : ('-' :: '-' :: rest).drop (2 + (rest.takeWhile (!isEol ·)).length)
        = rest.dropWhile (!isEol ·) := by
      rw [Nat.add_comm]
      exact drop_takeWhile _ rest
    rw [hdrop, ← lower_line]
    rfl
  | @blockComment rest k hk =>
    obtain ⟨n, hn, hdrop⟩ := @lower_pairAt cases _ _ hk
    rw [toLowerCase_cons, toLowerCase_cons, cases.lower_ascii '/' (by decide),
      cases.lower_ascii '*' (by decide)]
    have hbehind : ('/' :: '*' :: rest).drop (k + 4) = rest.drop (k + 2) := rfl
    rw [hbehind, ← hdrop]
    show (pairAt '*' '/' (toLowerCase cases rest)).map _ = _
    rw [hn]
    rfl
  | qLiteral hc hk => cases hr
  | string hk => cases hr
  | quotedIdentifier hk => cases hr

/-- What is put in for a region reads like the region. -/
theorem Alike.region {text left : Text} {r : Region} (h : Opens text r)
    (ha : Alike (toLowerCase cases left) (toLowerCase cases (text.drop r.length))) :
    Alike (toLowerCase cases
      ((if r.type.isComment then blank (text.take r.length) else text.take r.length) ++ left))
      (toLowerCase cases text) := by
  by_cases hr : r.type.isComment = true
  · rw [if_pos hr, toLowerCase_append, toLowerCase_spaces blank_spaces]
    exact .comment (blank_ne_nil h) blank_spaces (h.afterComment hr) ha
  rw [if_neg hr]
  cases h with
  | lineComment rest => exact absurd rfl hr
  | blockComment hk => exact absurd rfl hr
  | @qLiteral c opener rest k hc hk =>
    have hlower : cases.lower c = ['q'] := by
      rcases hc with rfl | rfl
      · exact cases.lower_ascii 'q' (by decide)
      · exact cases.lower_ascii 'Q' (by decide)
    rw [List.take_succ_cons, List.take_succ_cons, List.cons_append, List.cons_append,
      toLowerCase_cons, toLowerCase_cons, toLowerCase_cons, toLowerCase_cons, hlower,
      cases.lower_ascii '\'' (by decide)]
    apply Alike.char rfl
    exact .quote (.inl rfl)
  | string hk =>
    rw [List.take_succ_cons, List.cons_append, toLowerCase_cons, toLowerCase_cons,
      cases.lower_ascii '\'' (by decide)]
    exact .quote (.inl rfl)
  | quotedIdentifier hk =>
    rw [List.take_succ_cons, List.cons_append, toLowerCase_cons, toLowerCase_cons,
      cases.lower_ascii '"' (by decide)]
    exact .quote (.inr rfl)

theorem Lexes.stripped {text : Text} (h : Lexes text) : ∃ left,
    (∀ fuel p, text.length ≤ fuel → stripFrom fuel p text = .ok left) ∧
      Alike (toLowerCase cases left) (toLowerCase cases text) := by
  induction h with
  | nil =>
    refine ⟨[], ?_, .nil⟩
    intro fuel p _
    cases fuel <;> rfl
  | @char c rest hnone hrest ih =>
    obtain ⟨left, hstrip, halike⟩ := ih
    refine ⟨c :: left, ?_, Alike.lower hnone halike⟩
    intro fuel p hfuel
    cases fuel with
    | zero => simp at hfuel
    | succ fuel =>
      simp only [List.length_cons] at hfuel
      rw [stripFrom, hnone]
      dsimp only
      rw [hstrip fuel _ (by omega)]
      rfl
  | @region text r hopens hrest ih =>
    obtain ⟨left, hstrip, halike⟩ := ih
    refine ⟨_, ?_, Alike.region hopens halike⟩
    intro fuel p hfuel
    have hpos := hopens.length_pos
    obtain ⟨hat, hterm⟩ := hopens.regionAt
    match text, fuel, hfuel, hpos with
    | [], _, _, hpos => simp at hpos; omega
    | c :: rest, 0, hfuel, _ => simp at hfuel
    | c :: rest, fuel + 1, hfuel, hpos =>
      simp only [List.length_cons] at hfuel
      rw [stripFrom, hat]
      dsimp only
      rw [if_pos hterm, hstrip fuel _ (by simp only [List.length_drop, List.length_cons]; omega)]
      rfl

/-! ### Tokens -/

theorem tokensFrom_fuel : ∀ {m n : Nat} {text : Text}, text.length ≤ m → text.length ≤ n →
    tokensFrom m text = tokensFrom n text
  | 0, n, text, hm, hn => by
    have hnil : text = [] := List.eq_nil_of_length_eq_zero (by omega)
    subst hnil
    cases n <;> rfl
  | m + 1, 0, text, hm, hn => by
    have hnil : text = [] := List.eq_nil_of_length_eq_zero (by omega)
    subst hnil
    rfl
  | m + 1, n + 1, [], hm, hn => rfl
  | m + 1, n + 1, c :: rest, hm, hn => by
    simp only [List.length_cons] at hm hn
    have hname := (List.dropWhile_sublist isNameChar (l := rest)).length_le
    have hdigit := (List.dropWhile_sublist isDigit (l := rest)).length_le
    rw [tokensFrom, tokensFrom, @tokensFrom_fuel m n rest (by omega) (by omega),
      @tokensFrom_fuel m n (rest.dropWhile isNameChar) (by omega) (by omega),
      @tokensFrom_fuel m n (rest.dropWhile isDigit) (by omega) (by omega)]

theorem afterComment_length {text behind : Text} (h : afterComment text = some behind) :
    behind.length < text.length ∧ (text.head? = some '-' ∨ text.head? = some '/') := by
  rw [afterComment.eq_def] at h
  split at h
  · rename_i rest
    cases h
    have hlen := (List.dropWhile_sublist (!isEol ·) (l := rest)).length_le
    simp only [List.length_cons]
    exact ⟨by omega, .inl rfl⟩
  · obtain ⟨k, -, rfl⟩ := Option.map_eq_some_iff.mp h
    simp only [List.length_cons, List.length_drop]
    exact ⟨by omega, .inr rfl⟩
  · cases h

theorem leadingFrom_fuel : ∀ {m n : Nat} {text : Text}, text.length ≤ m → text.length ≤ n →
    leadingFrom m text = leadingFrom n text
  | 0, n, text, hm, hn => by
    have hnil : text = [] := List.eq_nil_of_length_eq_zero (by omega)
    subst hnil
    cases n <;> rfl
  | m + 1, 0, text, hm, hn => by
    have hnil : text = [] := List.eq_nil_of_length_eq_zero (by omega)
    subst hnil
    rfl
  | m + 1, n + 1, [], hm, hn => rfl
  | m + 1, n + 1, c :: rest, hm, hn => by
    simp only [List.length_cons] at hm hn
    have hname := (List.dropWhile_sublist isNameChar (l := rest)).length_le
    rw [leadingFrom, leadingFrom]
    split
    · rename_i behind hbehind
      have hlen := afterComment_length hbehind
      simp only [List.length_cons] at hlen
      exact leadingFrom_fuel (by omega) (by omega)
    · rw [@leadingFrom_fuel m n rest (by omega) (by omega),
        @leadingFrom_fuel m n (rest.dropWhile isNameChar) (by omega) (by omega)]

theorem tokens_cons (c : Char) (rest : Text) : tokens (c :: rest) =
    if isSpace c then tokens rest
    else if isWordStart c then
      (c :: rest.takeWhile isNameChar) :: tokens (rest.dropWhile isNameChar)
    else if isDigit c then (c :: rest.takeWhile isDigit) :: tokens (rest.dropWhile isDigit)
    else [c] :: tokens rest := by
  have hname := (List.dropWhile_sublist isNameChar (l := rest)).length_le
  have hdigit := (List.dropWhile_sublist isDigit (l := rest)).length_le
  rw [tokens, List.length_cons, tokensFrom,
    @tokensFrom_fuel _ ((rest.dropWhile isNameChar).length) _ hname le_rfl,
    @tokensFrom_fuel _ ((rest.dropWhile isDigit).length) _ hdigit le_rfl]
  rfl

theorem leadingWords_cons {c : Char} {rest : Text} (h : afterComment (c :: rest) = none) :
    leadingWords (c :: rest) =
      if isSpace c then leadingWords rest
      else if isWordStart c then
        (c :: rest.takeWhile isNameChar) :: leadingWords (rest.dropWhile isNameChar)
      else [] := by
  have hname := (List.dropWhile_sublist isNameChar (l := rest)).length_le
  rw [leadingWords, List.length_cons, leadingFrom, h]
  dsimp only
  rw [@leadingFrom_fuel _ ((rest.dropWhile isNameChar).length) _ hname le_rfl]
  rfl

theorem leadingWords_comment {text behind : Text} (h : afterComment text = some behind) :
    leadingWords text = leadingWords behind := by
  cases text with
  | nil => simp [afterComment] at h
  | cons c rest =>
    have hlen := (afterComment_length h).1
    simp only [List.length_cons] at hlen
    rw [leadingWords, List.length_cons, leadingFrom, h]
    exact leadingFrom_fuel (by omega) le_rfl

/-- The words a token list starts with. -/
def firstWords (tokens : List Text) : List Text := tokens.takeWhile (·.head?.any isWordStart)

theorem firstWords_cons (c : Char) (rest : Text) : firstWords (tokens (c :: rest)) =
    if isSpace c then firstWords (tokens rest)
    else if isWordStart c then
      (c :: rest.takeWhile isNameChar) :: firstWords (tokens (rest.dropWhile isNameChar))
    else [] := by
  rw [tokens_cons]
  split
  · rfl
  · split
    · rename_i hstart
      rw [firstWords, List.takeWhile_cons, if_pos (by simpa using hstart)]
      rfl
    · rename_i hstart
      split
      · rw [firstWords, List.takeWhile_cons, if_neg (by simpa using hstart)]
      · rw [firstWords, List.takeWhile_cons, if_neg (by simpa using hstart)]

theorem firstWords_spaces {blanks text : Text} (h : ∀ c ∈ blanks, isSpace c = true) :
    firstWords (tokens (blanks ++ text)) = firstWords (tokens text) := by
  induction blanks with
  | nil => rfl
  | cons c blanks ih =>
    rw [List.cons_append, firstWords_cons, if_pos (h c (by simp)),
      ih fun d hd => h d (by simp [hd])]

/-- A run of name characters is the same on both sides. -/
theorem Alike.run {left right : Text} (h : Alike left right) :
    left.takeWhile isNameChar = right.takeWhile isNameChar ∧
      Alike (left.dropWhile isNameChar) (right.dropWhile isNameChar) := by
  induction h with
  | nil => exact ⟨rfl, .nil⟩
  | @char c left right hnone hrest ih =>
    rw [List.takeWhile_cons, List.takeWhile_cons, List.dropWhile_cons, List.dropWhile_cons]
    split
    · exact ⟨by rw [ih.1], ih.2⟩
    · exact ⟨rfl, .char hnone hrest⟩
  | @comment blanks left right behind hne hblanks hafter hrest ih =>
    have hleft : isNameChar (blanks.head hne) = false :=
      isSpace_not_name (hblanks _ (List.head_mem hne))
    obtain ⟨b, blanks, rfl⟩ := List.exists_cons_of_ne_nil hne
    have hright : ∃ d rest, right = d :: rest ∧ isNameChar d = false := by
      rcases (afterComment_length hafter).2 with hhead | hhead
      · exact ⟨_, _, head_cons hhead, by decide⟩
      · exact ⟨_, _, head_cons hhead, by decide⟩
    obtain ⟨d, rest, rfl, hd⟩ := hright
    rw [List.cons_append, List.takeWhile_cons, List.takeWhile_cons, List.dropWhile_cons,
      List.dropWhile_cons, if_neg (by simpa using hleft), if_neg (by simpa using hd),
      if_neg (by simpa using hleft), if_neg (by simpa using hd)]
    exact ⟨rfl, .comment hne hblanks hafter hrest⟩
  | @quote c left right hc =>
    have hname : isNameChar c = false := by
      rcases hc with rfl | rfl <;> decide
    rw [List.takeWhile_cons, List.takeWhile_cons, List.dropWhile_cons, List.dropWhile_cons,
      if_neg (by simp [hname]), if_neg (by simp [hname]), if_neg (by simp [hname]),
      if_neg (by simp [hname])]
    exact ⟨rfl, .quote hc⟩

theorem Alike.words {n : Nat} : ∀ {left right : Text}, right.length ≤ n → Alike left right →
    firstWords (tokens left) = leadingWords right := by
  induction n with
  | zero =>
    intro left right hlen h
    have hnil : right = [] := List.eq_nil_of_length_eq_zero (by omega)
    subst hnil
    cases h with
    | nil => rfl
    | comment _ _ hafter _ => simp [afterComment] at hafter
  | succ n ih =>
    intro left right hlen h
    cases h with
    | nil => rfl
    | @char c left right hnone hrest =>
      simp only [List.length_cons] at hlen
      rw [firstWords_cons, leadingWords_cons hnone]
      obtain ⟨hsame, hbehind⟩ := hrest.run
      have hname := (List.dropWhile_sublist isNameChar (l := right)).length_le
      rw [ih (by omega) hrest, ih (by omega) hbehind, hsame]
    | @comment blanks left right behind hne hblanks hafter hrest =>
      have hshort := (afterComment_length hafter).1
      rw [firstWords_spaces hblanks, leadingWords_comment hafter]
      exact ih (by omega) hrest
    | @quote c left right hc =>
      have hnone : afterComment (c :: right) = none := by
        apply afterComment_none
        · intro h
          rcases hc with rfl | rfl <;> exact absurd h.1 (by decide)
        · intro h
          rcases hc with rfl | rfl <;> exact absurd h.1 (by decide)
      rw [firstWords_cons, leadingWords_cons hnone]
      rcases hc with rfl | rfl <;> rfl

/-- A word does not reach into a terminator, nor does anything behind it. -/
theorem firstWords_cut {behind : Text} : ∀ {n : Nat} {text : Text}, text.length ≤ n →
    firstWords (tokens (text ++ ';' :: behind)) = firstWords (tokens text) := by
  intro n
  induction n with
  | zero =>
    intro text hlen
    have hnil : text = [] := List.eq_nil_of_length_eq_zero (by omega)
    subst hnil
    rw [List.nil_append, firstWords_cons]
    rfl
  | succ n ih =>
    intro text hlen
    cases text with
    | nil =>
      rw [List.nil_append, firstWords_cons]
      rfl
    | cons c rest =>
      simp only [List.length_cons] at hlen
      have hname := (List.dropWhile_sublist isNameChar (l := rest)).length_le
      have htake : (rest ++ ';' :: behind).takeWhile isNameChar = rest.takeWhile isNameChar := by
        rw [List.takeWhile_append]
        split
        · rename_i hall
          rw [(List.takeWhile_sublist isNameChar).eq_of_length hall]
          exact List.append_nil _
        · rfl
      have hdrop : (rest ++ ';' :: behind).dropWhile isNameChar
          = rest.dropWhile isNameChar ++ ';' :: behind := by
        rw [List.dropWhile_append]
        split
        · rename_i hall
          rw [List.isEmpty_iff.mp hall]
          rfl
        · rfl
      rw [List.cons_append, firstWords_cons, firstWords_cons, htake, hdrop, ih (by omega),
        ih (by omega)]

theorem dropTerminators_split (text : Text) : dropTerminators text = text ∨
    ∃ behind, text = dropTerminators text ++ ';' :: behind := by
  rw [dropTerminators]
  split
  · rename_i rest hrest
    right
    have hsemis : rest.takeWhile (· == ';') =
        List.replicate (rest.takeWhile (· == ';')).length ';' := by
      apply List.eq_replicate_of_mem
      intro c hc
      simpa using List.mem_takeWhile_imp hc
    have hsplit : text.reverse = text.reverse.takeWhile isSpace ++ ';' ::
        (List.replicate (rest.takeWhile (· == ';')).length ';' ++ rest.dropWhile (· == ';')) := by
      rw [← hsemis, List.takeWhile_append_dropWhile, ← hrest, List.takeWhile_append_dropWhile]
    have hback : ∀ (blanks before : Text) (n : Nat),
        (blanks ++ ';' :: (List.replicate n ';' ++ before)).reverse
          = before.reverse ++ ';' :: (List.replicate n ';' ++ blanks.reverse) := by
      intro blanks before n
      have hswap : List.replicate n ';' ++ [';'] = ';' :: List.replicate n ';' := by
        rw [← List.replicate_succ', List.replicate_succ]
      rw [List.reverse_append, List.reverse_cons, List.reverse_append, List.reverse_replicate,
        List.append_assoc before.reverse, hswap, List.append_assoc]
      rfl
    refine ⟨List.replicate (rest.takeWhile (· == ';')).length ';' ++
      (text.reverse.takeWhile isSpace).reverse, ?_⟩
    rw [← hback, ← hsplit, List.reverse_reverse]
  · exact .inl rfl

theorem firstWords_stripped {left : Text} :
    firstWords (tokens (toLowerCase cases (dropTerminators left)))
      = firstWords (tokens (toLowerCase cases left)) := by
  rcases dropTerminators_split left with hsame | ⟨behind, hbehind⟩
  · rw [hsame]
  · calc firstWords (tokens (toLowerCase cases (dropTerminators left)))
        = firstWords (tokens (toLowerCase cases (dropTerminators left ++ ';' :: behind))) := by
          rw [toLowerCase_append, toLowerCase_cons, cases.lower_ascii ';' (by decide)]
          exact (firstWords_cut le_rfl).symm
      _ = firstWords (tokens (toLowerCase cases left)) := by rw [← hbehind]

/-! ### The classifier -/

theorem firstWords_head {ts : List Text} {w : Text} (hw : w.head?.any isWordStart = true) :
    (firstWords ts).head? = some w ↔ ts.head? = some w := by
  cases ts with
  | nil => rfl
  | cons t ts =>
    rw [firstWords, List.takeWhile_cons]
    constructor
    · intro h
      split at h
      · exact h
      · cases h
    · intro h
      cases h
      rw [if_pos hw]
      rfl

theorem parseFinish_none {w : Text} {ts : List Text} (h : parseFinish cases w ts = none) :
    w = "rollback".toList ∧ (if ts.head? = some "work".toList then ts.tail else ts).head?
      = some "to".toList := by
  by_cases hto : w = "rollback".toList ∧ (if ts.head? = some "work".toList then ts.tail else ts).head?
      = some "to".toList
  · exact hto
  · rw [parseFinish] at h
    dsimp only at h
    rw [if_neg hto] at h
    split at h
    · cases h
    · cases h

theorem firstWords_tail {w : Text} {ts : List Text} (hw : w.head?.any isWordStart = true)
    (h : ts.head? = some w) : (firstWords ts).tail = firstWords ts.tail := by
  obtain ⟨ts, rfl⟩ : ∃ rest, ts = w :: rest := by
    cases ts with
    | nil => cases h
    | cons t ts =>
      cases h
      exact ⟨ts, rfl⟩
  rw [firstWords, List.takeWhile_cons, if_pos hw]
  rfl

theorem controlsTransaction_none {sql : Text} {ts : List Text}
    (h : classifyTokens cases sql ts = none) : controlsTransaction (firstWords ts) = false := by
  cases ts with
  | nil => rfl
  | cons w ts =>
    rw [firstWords, List.takeWhile_cons]
    split
    · rw [← firstWords, controlsTransaction]
      rw [classifyTokens] at h
      by_cases hcommit : w = "commit".toList
      · subst hcommit
        rw [if_neg (by decide), if_pos (.inl rfl)] at h
        exact absurd (parseFinish_none h).1 (by decide)
      by_cases hrollback : w = "rollback".toList
      · subst hrollback
        rw [if_neg (by decide), if_pos (.inr rfl)] at h
        have hto := (parseFinish_none h).2
        rw [if_neg (by decide), if_pos rfl]
        have hwork := @firstWords_head ts ("work".toList) (by decide)
        by_cases hw : ts.head? = some "work".toList
        · rw [if_pos hw] at hto
          have hhead : (firstWords ts).tail.head? = some "to".toList := by
            rw [firstWords_tail (by decide) hw]
            exact (firstWords_head (by decide)).mpr hto
          apply decide_eq_false
          rw [if_pos (hwork.mpr hw)]
          exact fun hne => hne hhead
        · rw [if_neg hw] at hto
          have hhead : (firstWords ts).head? = some "to".toList :=
            (firstWords_head (by decide)).mpr hto
          have hnot : (firstWords ts).head? ≠ some "work".toList := fun h' => hw (hwork.mp h')
          apply decide_eq_false
          rw [if_neg hnot]
          exact fun hne => hne hhead
      rw [if_neg hcommit, if_neg hrollback]
      by_cases hset : w = "set".toList
      · subst hset
        rw [if_neg (by decide), if_neg (by decide), if_pos rfl] at h
        have htransaction : ts.head? ≠ some "transaction".toList := by
          intro hhead
          rw [if_pos hhead] at h
          cases h
        have hnot : (firstWords ts).head? ≠ some "transaction".toList :=
          fun h' => htransaction ((firstWords_head (by decide)).mp h')
        exact Bool.and_eq_false_iff.mpr (.inr (decide_eq_false hnot))
      · exact Bool.and_eq_false_iff.mpr (.inl (decide_eq_false hset))
    · rfl

theorem classifyClientCommand_none {sql : Text} (hlex : Lexes sql)
    (h : classifyClientCommand cases sql = none) : ¬ TransactionControl cases sql := by
  obtain ⟨left, hstrip, halike⟩ := @Lexes.stripped cases _ hlex
  have hleft : stripComments sql = .ok left := hstrip _ _ le_rfl
  rw [classifyClientCommand, hleft] at h
  rw [TransactionControl, ← halike.words le_rfl, ← firstWords_stripped,
    controlsTransaction_none h]
  exact Bool.false_ne_true

end FastFirebird
