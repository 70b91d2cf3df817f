import FastFirebird.ScriptPlaces
import FastFirebird.StatementHeads

/-! The statements of a script and those of the script with its comments blanked out. -/
namespace FastFirebird

/-! ### A statement and its blanks -/

section Trim

variable {text rest left blanks : Text}

theorem Stripped.length_eq (h : Stripped text left) : left.length = text.length := by
  have hcut : ∀ (text : Text) (n : Nat), (text.take n).length + (text.drop n).length = text.length := by
    intro text n
    rw [List.length_take, List.length_drop]
    omega
  induction h with
  | nil => rfl
  | char _ _ ih => rw [List.length_cons, List.length_cons, ih]
  | comment _ _ _ ih => rw [List.length_append, ih, blank, List.length_map, hcut]
  | literal _ _ _ ih => rw [List.length_append, ih, hcut]

/-- White space is left as it is. -/
theorem Stripped.spaces (h : Stripped blanks left) (hblanks : ∀ c ∈ blanks, isSpace c = true) :
    left = blanks := by
  rw [← List.append_nil blanks] at h
  have hplain : ∀ c ∈ blanks, ∀ rest, regionAt (c :: rest) = none :=
    fun c hc => isSpace_opensNothing (hblanks c hc)
  obtain ⟨left', rfl, hnil⟩ := h.behind_plain hplain
  cases hnil with
  | nil => exact List.append_nil _
  | comment hopens _ _ => cases hopens
  | literal hopens _ _ => cases hopens

theorem blank_append (a b : Text) : blank (a ++ b) = blank a ++ blank b := List.map_append

/-- Blanks cut off at the end are blanks of the stripped text. -/
theorem Stripped.trimmed (h : Stripped (text ++ blanks) left) (hblanks : ∀ c ∈ blanks, isSpace c = true) :
    ∃ kept cut, Stripped text kept ∧ left = kept ++ cut ∧ ∀ c ∈ cut, isSpace c = true := by
  generalize hfull : text ++ blanks = full at h
  induction h generalizing text with
  | nil =>
    obtain ⟨rfl, -⟩ := List.append_eq_nil_iff.mp hfull
    exact ⟨[], [], .nil, rfl, nofun⟩
  | @char c rest left hnone hrest ih =>
    cases text with
    | nil =>
      rw [List.nil_append] at hfull
      rw [hfull] at hblanks
      refine ⟨[], c :: left, .nil, rfl, ?_⟩
      rw [(Stripped.char hnone hrest).spaces hblanks]
      exact hblanks
    | cons d text =>
      obtain ⟨rfl, hbehind⟩ := List.cons.inj hfull
      obtain ⟨kept, cut, hkept, rfl, hcut⟩ := ih hbehind
      subst hbehind
      exact ⟨d :: kept, cut, .char (@regionAt_none_slice (d :: text) _ hnone) hkept, rfl, hcut⟩
  | @comment full left r hopens hcomment hrest ih =>
    subst hfull
    by_cases hr : r.length ≤ text.length
    · obtain ⟨kept, cut, hkept, rfl, hcut⟩ := ih (List.drop_append_of_le_length hr).symm
      refine ⟨_, cut, .comment (hopens.slice hr) hcomment hkept, ?_, hcut⟩
      rw [List.take_append_of_le_length hr, List.append_assoc]
    · -- a line comment that goes on behind the text
      have hline : r.type = .lineComment := by
        by_contra ht
        obtain ⟨d, hd, hspace⟩ := hopens.last ht
        rw [List.getElem?_append_right (by omega)] at hd
        rw [hblanks d (List.mem_of_getElem? hd)] at hspace
        cases hspace
      have hbehind : (text ++ blanks).drop r.length = blanks.drop (r.length - text.length) := by
        rw [List.drop_append, List.drop_of_length_le (by omega), List.nil_append]
      rw [hbehind] at hrest
      have hleft := hrest.spaces fun c hc => hblanks c (List.mem_of_mem_drop hc)
      have htaken : blank ((text ++ blanks).take r.length) =
          blank text ++ blank (blanks.take (r.length - text.length)) := by
        rw [List.take_append, List.take_of_length_le (by omega), blank_append]
      have hcut : ∀ c ∈ blank (blanks.take (r.length - text.length)) ++ left, isSpace c = true := by
        intro c hc
        rcases List.mem_append.mp hc with hc | hc
        · exact blank_spaces c hc
        · rw [hleft] at hc
          exact hblanks c (List.mem_of_mem_drop hc)
      by_cases hne : text = []
      · subst hne
        exact ⟨[], _, .nil, by rw [htaken, List.append_assoc]; rfl, hcut⟩
      · have hkept : Stripped text (blank (text.take text.length) ++ []) := by
          apply Stripped.comment (hopens.cutComment hline hblanks hne (by omega)) rfl
          rw [List.drop_of_length_le (Nat.le_refl _)]
          exact .nil
        rw [List.take_of_length_le (Nat.le_refl _), List.append_nil] at hkept
        exact ⟨_, _, hkept, by rw [htaken, List.append_assoc], hcut⟩
  | @literal full left r hopens hliteral hrest ih =>
    subst hfull
    have hr : r.length ≤ text.length := by
      by_contra hr
      obtain ⟨d, hd, hspace⟩ := hopens.last fun ht => by
        rw [ht] at hliteral
        cases hliteral
      rw [List.getElem?_append_right (by omega)] at hd
      rw [hblanks d (List.mem_of_getElem? hd)] at hspace
      cases hspace
    obtain ⟨kept, cut, hkept, rfl, hcut⟩ := ih (List.drop_append_of_le_length hr).symm
    refine ⟨_, cut, .literal (hopens.slice hr) hliteral hkept, ?_, hcut⟩
    rw [List.take_append_of_le_length hr, List.append_assoc]

/-- A stripped text has no comments. -/
theorem Stripped.again (h : Stripped text left) : Stripped left left := by
  have hspaces : ∀ {blanks left : Text}, (∀ c ∈ blanks, isSpace c = true) → Stripped left left →
      Stripped (blanks ++ left) (blanks ++ left) := by
    intro blanks left hblanks hleft
    induction blanks with
    | nil => exact hleft
    | cons c blanks ih =>
      exact .char (isSpace_opensNothing (hblanks c List.mem_cons_self) _)
        (ih fun d hd => hblanks d (List.mem_cons_of_mem _ hd))
  induction h with
  | nil => exact .nil
  | char hnone hrest ih => exact .char (hrest.regionAt_none hnone) ih
  | comment _ _ _ ih => exact hspaces blank_spaces ih
  | @literal text left r hopens hliteral hrest ih =>
    have hpos := hopens.length_pos
    have hlength : (text.take r.length).length = r.length := by
      rw [List.length_take]
      omega
    have hagain := @Stripped.literal (text.take r.length ++ left) left r (hrest.opens hopens hliteral)
      hliteral
    rw [List.take_left' hlength, List.drop_left' hlength] at hagain
    exact hagain ih

theorem trimEnd_append (hblanks : ∀ c ∈ blanks, isSpace c = true) :
    trimEnd (text ++ blanks) = trimEnd text := by
  rw [trimEnd, List.reverse_append, List.dropWhile_append_of_pos]
  · rfl
  · exact fun c hc => hblanks c (List.mem_reverse.mp hc)

theorem trim_append (hblanks : ∀ c ∈ blanks, isSpace c = true) : trim (text ++ blanks) = trim text := by
  induction text with
  | nil =>
    rw [List.nil_append, trim, ← List.append_nil blanks, List.dropWhile_append_of_pos hblanks]
    rfl
  | cons c text ih =>
    rw [trim, trim, List.cons_append, List.dropWhile_cons, List.dropWhile_cons]
    split
    · exact ih
    · rw [← List.cons_append, trimEnd_append hblanks]

end Trim

/-! ### The text of a body -/

theorem BodyScan.stripped_text {terminator text closing rest : Text} {pieces : List Piece}
    (h : BodyScan terminator text pieces closing rest) :
    Stripped (piecesText pieces) (piecesText (strippedPieces pieces)) := by
  induction h with
  | done => exact .nil
  | closed _ _ => exact .nil
  | @region text closing rest r pieces hopens hbody ih =>
    have hpos := hopens.length_pos
    have hlength : (text.take r.length).length = r.length := by
      rw [List.length_take]
      omega
    have htext : text = text.take r.length ++ piecesText pieces ++ (closing ++ rest) := by
      rw [List.append_assoc, ← List.append_assoc (piecesText pieces), ← hbody.text_eq,
        List.take_append_drop]
    rw [htext] at hopens
    have hslice := hopens.slice (by rw [List.length_append]; omega)
    have hdrop : Stripped ((text.take r.length ++ piecesText pieces).drop r.length)
        (piecesText (strippedPieces pieces)) := by
      rw [List.drop_left' hlength]
      exact ih
    rw [piecesText_cons, strippedPieces_cons, piecesText_append, Piece.stripped]
    cases hcomment : r.type.isComment with
    | true =>
      have hstripped := Stripped.comment hslice hcomment hdrop
      rw [List.take_left' hlength] at hstripped
      rw [if_pos rfl, piecesText_chars]
      exact hstripped
    | false =>
      have hstripped := Stripped.literal hslice hcomment hdrop
      rw [List.take_left' hlength] at hstripped
      rw [if_neg Bool.false_ne_true]
      simpa [piecesText, Piece.text] using hstripped
  | @char c text closing rest pieces hnone _ hbody ih =>
    rw [hbody.text_eq, List.append_assoc, ← List.cons_append] at hnone
    exact .char (regionAt_none_slice hnone) ih

theorem advance_blank (p : Position) (text : Text) : p.advance (blank text) = p.advance text := by
  induction text generalizing p with
  | nil => rfl
  | cons c text ih =>
    have hline : ((if isEol c then c else ' ') = '\n') ↔ c = '\n' := by
      by_cases hc : isEol c = true
      · rw [if_pos hc]
      · rw [if_neg hc]
        constructor
        · intro hspace
          exact absurd hspace (by decide)
        · rintro rfl
          exact absurd rfl hc
    show Position.advance (if (if isEol c then c else ' ') = '\n' then _ else _) (blank text) = _
    rw [ih]
    by_cases hc : c = '\n'
    · rw [if_pos (hline.mpr hc), Position.advance, if_pos hc]
    · rw [if_neg fun h => hc (hline.mp h), Position.advance, if_neg hc]

theorem advance_stripped (p : Position) (pieces : List Piece) :
    p.advance (piecesText (strippedPieces pieces)) = p.advance (piecesText pieces) := by
  induction pieces generalizing p with
  | nil => rfl
  | cons piece pieces ih =>
    rw [strippedPieces_cons, piecesText_append, piecesText_cons, Position.advance_append,
      Position.advance_append, ih]
    congr 1
    cases piece with
    | char c => rfl
    | region type text =>
      rw [Piece.stripped]
      split
      · rw [piecesText_chars, advance_blank]
        rfl
      · rw [piecesText_cons]
        simp [Piece.text, piecesText]

/-! ### Blanks behind a statement do not change its kind -/

section Kinds

variable {cases : CaseMap} {blanks : Text}

theorem takeWhile_blanks {p : Char → Bool} (hp : ∀ c, isSpace c = true → p c = false)
    (hblanks : ∀ c ∈ blanks, isSpace c = true) (text : Text) :
    (text ++ blanks).takeWhile p = text.takeWhile p ∧
      (text ++ blanks).dropWhile p = text.dropWhile p ++ blanks := by
  induction text with
  | nil =>
    cases blanks with
    | nil => exact ⟨rfl, rfl⟩
    | cons c blanks =>
      have hc : ¬ p c = true := by
        rw [hp c (hblanks c List.mem_cons_self)]
        exact Bool.false_ne_true
      exact ⟨List.takeWhile_cons_of_neg hc, List.dropWhile_cons_of_neg hc⟩
  | cons c text ih =>
    rw [List.cons_append, List.takeWhile_cons, List.takeWhile_cons, List.dropWhile_cons,
      List.dropWhile_cons]
    split
    · exact ⟨by rw [ih.1], ih.2⟩
    · exact ⟨rfl, rfl⟩

theorem tokens_blanks (hblanks : ∀ c ∈ blanks, isSpace c = true) : ∀ {n : Nat} {text : Text},
    text.length ≤ n → tokens (text ++ blanks) = tokens text := by
  have hnil : tokens blanks = [] := by
    induction blanks with
    | nil => rfl
    | cons c blanks ih =>
      rw [tokens_cons, if_pos (hblanks c List.mem_cons_self)]
      exact ih fun d hd => hblanks d (List.mem_cons_of_mem _ hd)
  have hdigit : ∀ c, isSpace c = true → isDigit c = false := by
    intro c hc
    have hname := isSpace_not_name hc
    simp only [isNameChar, isWordChar, Bool.or_eq_false_iff] at hname
    exact hname.1.1.2
  intro n
  induction n with
  | zero =>
    intro text hn
    obtain rfl : text = [] := List.eq_nil_of_length_eq_zero (by omega)
    exact hnil
  | succ n ih =>
    intro text hn
    cases text with
    | nil => exact hnil
    | cons c rest =>
      rw [List.length_cons] at hn
      have hnames := takeWhile_blanks (fun _ => isSpace_not_name) hblanks rest
      have hdigits := takeWhile_blanks hdigit hblanks rest
      have hname := (List.dropWhile_sublist isNameChar (l := rest)).length_le
      have hnumber := (List.dropWhile_sublist isDigit (l := rest)).length_le
      rw [List.cons_append, tokens_cons, tokens_cons, hnames.1, hnames.2, hdigits.1, hdigits.2,
        ih (Nat.le_of_succ_le_succ hn), ih (Nat.le_trans hname (by omega)),
        ih (Nat.le_trans hnumber (by omega))]

theorem dropTerminators_blanks (hblanks : ∀ c ∈ blanks, isSpace c = true) (text : Text) :
    dropTerminators (text ++ blanks) = dropTerminators text ∨
      dropTerminators (text ++ blanks) = text ++ blanks ∧ dropTerminators text = text := by
  have hreverse : (text ++ blanks).reverse.dropWhile isSpace = text.reverse.dropWhile isSpace := by
    rw [List.reverse_append, List.dropWhile_append_of_pos]
    exact fun c hc => hblanks c (List.mem_reverse.mp hc)
  rw [dropTerminators, dropTerminators, hreverse]
  split
  · exact .inl rfl
  · exact .inr ⟨rfl, rfl⟩

theorem classifyTokens_isSome (sql sql' : Text) (words : List Text) :
    (classifyTokens cases sql words).isSome = (classifyTokens cases sql' words).isSome := by
  unfold classifyTokens
  split
  · rfl
  · split
    · rfl
    split
    · rfl
    split
    · split
      · rfl
      · rfl
    · rfl

/-- Comments do not make a client command of a statement, nor hide one. -/
theorem classifyClientCommand_stripped {sql left kept : Text} (h : Stripped sql left)
    (hkept : Stripped kept kept) (hleft : left = kept ++ blanks)
    (hblanks : ∀ c ∈ blanks, isSpace c = true) :
    (classifyClientCommand cases kept).isSome = (classifyClientCommand cases sql).isSome := by
  have htokens : tokens (toLowerCase cases (dropTerminators left)) =
      tokens (toLowerCase cases (dropTerminators kept)) := by
    rw [hleft]
    rcases dropTerminators_blanks hblanks kept with hsame | ⟨hwhole, hnone⟩
    · rw [hsame]
    · rw [hwhole, hnone, toLowerCase_append, toLowerCase_spaces hblanks,
        tokens_blanks hblanks (Nat.le_refl _)]
  rw [classifyClientCommand, classifyClientCommand, h.stripComments, hkept.stripComments]
  dsimp only
  rw [htokens]
  exact classifyTokens_isSome _ _ _

theorem pairAt_blanks {a b : Char} (hb : isSpace b = false) (hblanks : ∀ c ∈ blanks, isSpace c = true) :
    ∀ {text : Text}, pairAt a b text = none → pairAt a b (text ++ blanks) = none := by
  have hnil : ∀ {blanks : Text}, (∀ c ∈ blanks, isSpace c = true) → ∀ c, pairAt a b (c :: blanks) = none := by
    intro blanks
    induction blanks with
    | nil => exact fun _ _ => rfl
    | cons d blanks ih =>
      intro hall c
      have hd : d ≠ b := by
        rintro rfl
        rw [hall d List.mem_cons_self] at hb
        cases hb
      rw [pairAt, if_neg fun h => hd h.2, ih fun e he => hall e (List.mem_cons_of_mem _ he)]
      rfl
  intro text
  induction text with
  | nil =>
    intro _
    cases blanks with
    | nil => rfl
    | cons c blanks => exact hnil (fun d hd => hblanks d (List.mem_cons_of_mem _ hd)) c
  | cons c text ih =>
    intro h
    cases text with
    | nil => exact hnil hblanks c
    | cons d text =>
      rw [pairAt] at h
      split at h
      · cases h
      · rename_i hne
        have hrest : pairAt a b (d :: text) = none := Option.map_eq_none_iff.mp h
        rw [List.cons_append, List.cons_append, pairAt, if_neg hne, ← List.cons_append, ih hrest]
        rfl

theorem blanked_blanks (hblanks : ∀ c ∈ blanks, isSpace c = true) : ∀ {n : Nat} {text : Text},
    text.length ≤ n → ∃ cut, blanked (text ++ blanks) = blanked text ++ cut ∧
      ∀ c ∈ cut, isSpace c = true := by
  have hspaces : ∀ {blanks : Text}, (∀ c ∈ blanks, isSpace c = true) → blanked blanks = blanks := by
    intro blanks hall
    have h := blanked_spaces (w := []) hall
    rw [List.append_nil] at h
    exact h.trans (List.append_nil _)
  intro n
  induction n with
  | zero =>
    intro text hn
    obtain rfl : text = [] := List.eq_nil_of_length_eq_zero (by omega)
    exact ⟨blanks, hspaces hblanks, hblanks⟩
  | succ n ih =>
    intro text hn
    cases text with
    | nil => exact ⟨blanks, hspaces hblanks, hblanks⟩
    | cons c rest =>
      rw [List.length_cons] at hn
      by_cases hline : c = '-' ∧ rest.head? = some '-'
      · obtain ⟨rfl, hhead⟩ := hline
        obtain ⟨body, rfl⟩ : ∃ body, rest = '-' :: body := ⟨_, head_cons hhead⟩
        rw [List.length_cons] at hn
        rw [List.cons_append, List.cons_append, blanked_line, blanked_line, List.dropWhile_append]
        split
        · rename_i hempty
          have hspace : ∀ c ∈ blanks.dropWhile (· ≠ '\n'), isSpace c = true :=
            fun c hc => hblanks c ((List.dropWhile_sublist _).mem hc)
          rw [List.isEmpty_iff.mp hempty, hspaces hspace]
          exact ⟨_, rfl, hspace⟩
        · have hlength := (List.dropWhile_sublist (· ≠ '\n') (l := body)).length_le
          obtain ⟨cut, hcut, hspace⟩ := ih (Nat.le_trans hlength (by omega))
          rw [hcut]
          exact ⟨cut, rfl, hspace⟩
      by_cases hblock : c = '/' ∧ rest.head? = some '*'
      · obtain ⟨rfl, hhead⟩ := hblock
        obtain ⟨body, rfl⟩ : ∃ body, rest = '*' :: body := ⟨_, head_cons hhead⟩
        rw [List.length_cons] at hn
        rw [List.cons_append, List.cons_append]
        cases hpair : pairAt '*' '/' body with
        | none =>
          rw [blanked_open hpair, blanked_open (pairAt_blanks (by decide) hblanks hpair)]
          exact ⟨[], rfl, nofun⟩
        | some k =>
          have hbound := (pairAt_bound hpair).1
          rw [blanked_block hpair, blanked_block (pairAt_extend blanks hpair),
            List.drop_append_of_le_length hbound]
          obtain ⟨cut, hcut, hspace⟩ := ih (show (body.drop (k + 2)).length ≤ n by
            rw [List.length_drop]
            omega)
          rw [hcut]
          exact ⟨cut, rfl, hspace⟩
      · have hhead : ∀ d, isSpace d = false → (rest ++ blanks).head? = some d → rest.head? = some d := by
          intro d hd hsome
          cases rest with
          | nil =>
            rw [List.nil_append] at hsome
            rw [hblanks d (List.mem_of_mem_head? hsome)] at hd
            cases hd
          | cons e rest => exact hsome
        obtain ⟨cut, hcut, hspace⟩ := ih (Nat.le_of_succ_le_succ hn)
        rw [List.cons_append, blanked_char hline hblock,
          blanked_char (fun h => hline ⟨h.1, hhead _ (by decide) h.2⟩)
            fun h => hblock ⟨h.1, hhead _ (by decide) h.2⟩, hcut]
        exact ⟨cut, rfl, hspace⟩

theorem words_blanks {text : Text} (hblanks : ∀ c ∈ blanks, isSpace c = true) :
    words (text ++ blanks) = words text := by
  have hgap : ∀ {blanks : Text}, (∀ c ∈ blanks, isSpace c = true) → words blanks = [] := by
    intro blanks hall
    have h := @words_gap blanks [] fun c hc => isSpace_not_name (hall c hc)
    rw [List.append_nil] at h
    exact h
  cases blanks with
  | nil => rw [List.append_nil]
  | cons c blanks =>
    rw [words_split (isSpace_not_name (hblanks c List.mem_cons_self)) (Nat.le_refl _),
      hgap fun d hd => hblanks d (List.mem_cons_of_mem _ hd), List.append_nil]

theorem classifyServerStatement_blanks {text : Text} (hblanks : ∀ c ∈ blanks, isSpace c = true) :
    classifyServerStatement cases (text ++ blanks) = classifyServerStatement cases text := by
  have htaken : ∀ c ∈ blanks.take (400 - text.length), isSpace c = true :=
    fun c hc => hblanks c (List.mem_of_mem_take hc)
  obtain ⟨cut, hcut, hspace⟩ := blanked_blanks htaken (Nat.le_refl (text.take 400).length)
  rw [classifyServerStatement_words, classifyServerStatement_words, headWords, headWords,
    List.take_append, hcut, toLowerCase_append, toLowerCase_spaces hspace, words_blanks hspace]

end Kinds

/-! ### The statements -/

section Statements

variable (cases : CaseMap)

/-- A statement of a script, and what it is in the script without comments. -/
structure Remains (s s' : ParsedStatement) : Prop where
  position : s'.position = s.position
  sql : ∃ left, stripComments s.sql = .ok left ∧ s'.sql = trim left
  client : s'.kind = .client ↔ s.kind = .client
  kind : PlainHead cases s.sql → s'.kind = s.kind

theorem classifyServerStatement_ne (sql : Text) : classifyServerStatement cases sql ≠ .client := by
  rw [classifyServerStatement_words, kindOfWords]
  split
  · exact nofun
  split
  · split
    · exact nofun
    · exact nofun
  split
  · exact nofun
  split
  · split
    · exact nofun
    · exact nofun
  · exact nofun

theorem statement_kind (sql : Text) (p : Position) : (statement cases sql p).kind =
    if (classifyClientCommand cases sql).isSome then .client else classifyServerStatement cases sql := by
  rw [statement]
  cases classifyClientCommand cases sql with
  | none => rfl
  | some client => rfl

variable {cases}

/-- The text of a body, and what is left of it. -/
theorem remains {body stripped : Text} {p : Position} (h : Stripped body stripped)
    (hbody : ∃ blanks, body = trim body ++ blanks ∧ ∀ c ∈ blanks, isSpace c = true)
    (hstripped : ∃ blanks, stripped = trim stripped ++ blanks ∧ ∀ c ∈ blanks, isSpace c = true) :
    Remains cases (statement cases (trim body) p) (statement cases (trim stripped) p) := by
  obtain ⟨blanks, htext, hblanks⟩ := hbody
  obtain ⟨blanks', htext', hblanks'⟩ := hstripped
  have hwhole : Stripped (trim body ++ blanks) stripped := htext ▸ h
  obtain ⟨left, cut, hleft, hsplit, hcut⟩ := hwhole.trimmed hblanks
  have htrim : trim left = trim stripped := by rw [hsplit, trim_append hcut]
  -- the trimmed text is stripped already
  have hagain : Stripped (trim stripped ++ blanks') stripped := htext' ▸ h.again
  obtain ⟨kept, cut', hkept, hsplit', -⟩ := hagain.trimmed hblanks'
  have hsame : kept = trim stripped := by
    rw [htext'] at hsplit'
    exact (List.append_inj hsplit' hkept.length_eq.symm).1.symm
  rw [hsame] at hkept
  -- what is left of the statement has only blanks behind it
  obtain ⟨z, hz, hspace⟩ : ∃ z, left = trim stripped ++ z ∧ ∀ c ∈ z, isSpace c = true := by
    have hlength : (trim stripped).length ≤ left.length := by
      rw [← htrim, trim, trimEnd, List.length_reverse]
      have hback := (List.dropWhile_sublist isSpace (l := (left.dropWhile isSpace).reverse)).length_le
      have hfront := (List.dropWhile_sublist isSpace (l := left)).length_le
      rw [List.length_reverse] at hback
      omega
    have hstarts : trim stripped <+: left :=
      List.prefix_of_prefix_length_le ⟨blanks', htext'.symm⟩ ⟨cut, hsplit.symm⟩ hlength
    obtain ⟨z, hz⟩ := hstarts
    refine ⟨z, hz.symm, fun c hc => hblanks' c ?_⟩
    have hbehind : trim stripped ++ (z ++ cut) = trim stripped ++ blanks' := by
      rw [← List.append_assoc, hz, ← hsplit, ← htext']
    rw [← List.append_cancel_left hbehind]
    exact List.mem_append.mpr (.inl hc)
  have hclient := @classifyClientCommand_stripped cases z _ _ _ hleft hkept hz hspace
  have hkind : PlainHead cases (trim body) →
      classifyServerStatement cases (trim stripped) = classifyServerStatement cases (trim body) := by
    intro hplain
    rw [← classifyServerStatement_stripped hleft hleft.length_eq hplain, hz,
      classifyServerStatement_blanks hspace]
  have hsql : ∀ sql, (statement cases sql p).sql = sql := fun sql => (statement_sql cases sql p).1
  refine ⟨?_, ⟨left, ?_, ?_⟩, ?_, fun hplain => ?_⟩
  · rw [(statement_sql cases _ p).2, (statement_sql cases _ p).2]
  · rw [hsql]
    exact hleft.stripComments
  · rw [hsql, htrim]
  · rw [statement_kind, statement_kind, hclient]
    cases (classifyClientCommand cases (trim body)).isSome with
    | true => exact Iff.rfl
    | false =>
      exact ⟨fun h => absurd h (classifyServerStatement_ne cases _),
        fun h => absurd h (classifyServerStatement_ne cases _)⟩
  · rw [hsql] at hplain
    rw [statement_kind, statement_kind, hclient, hkind hplain]

theorem assemble_body (p : Position) (trivia pieces : List Piece) (closing : Text) (items : List Item) :
    assemble cases p (.trivia trivia :: .body pieces closing :: items) =
      if pieces.any Piece.content ∧ trim (piecesText pieces) ≠ [] then
        statement cases (trim (piecesText pieces)) (p.advance (piecesText trivia)) ::
          assemble cases ((p.advance (piecesText trivia)).advance (piecesText pieces ++ closing)) items
      else assemble cases ((p.advance (piecesText trivia)).advance (piecesText pieces ++ closing)) items :=
  rfl

/-- The statements of the stripped script, one for one. -/
theorem assemble_stripped {terminator text : Text} {items : List Item} (h : Layout terminator text items) :
    ∀ {terminator' left : Text}, Layout terminator' left (items.map Item.stripped) → ∀ p : Position,
      List.Forall₂ (Remains cases) (assemble cases p items) (assemble cases p (items.map Item.stripped)) := by
  induction h with
  | done _ => exact fun _ _ => .nil
  | @setTerm terminator text behind command rest trivia items _ _ _ _ _ _ ih =>
    intro terminator' left h' p
    generalize hitems : (Item.trivia trivia :: .setTerm command terminator (newTerminator command) ::
      items).map Item.stripped = items' at h'
    cases h' with
    | done _ => cases hitems
    | body _ _ _ _ _ => cases hitems
    | @setTerm _ _ _ command' _ trivia' _ _ _ _ _ _ hrest =>
      obtain ⟨htriv, hitems⟩ := List.cons.inj hitems
      obtain ⟨hcommand, rfl⟩ := List.cons.inj hitems
      obtain ⟨rfl, rfl, -⟩ := Item.setTerm.inj hcommand
      obtain rfl := Item.trivia.inj htriv
      show List.Forall₂ _ (assemble cases ((p.advance (piecesText trivia)).advance _) items)
        (assemble cases ((p.advance (piecesText (strippedPieces trivia))).advance _) _)
      rw [advance_stripped]
      exact ih hrest _
  | @body terminator text behind closing rest trivia pieces items htrivia hne _ hbody _ ih =>
    intro terminator' left h' p
    generalize hitems : (Item.trivia trivia :: .body pieces closing :: items).map Item.stripped = items' at h'
    cases h' with
    | done _ => cases hitems
    | setTerm _ _ _ _ _ _ => cases hitems
    | @body _ _ behind' closing' rest' trivia' pieces' items'' htrivia' hne' _ hbody' hrest =>
      obtain ⟨htriv, hitems⟩ := List.cons.inj hitems
      obtain ⟨hitem, rfl⟩ := List.cons.inj hitems
      obtain ⟨rfl, rfl⟩ := Item.body.inj hitem
      obtain rfl := Item.trivia.inj htriv
      have hposition : (p.advance (piecesText trivia)).advance (piecesText (strippedPieces pieces) ++ closing) =
          (p.advance (piecesText trivia)).advance (piecesText pieces ++ closing) := by
        rw [Position.advance_append, Position.advance_append, advance_stripped]
      have hrests := ih hrest ((p.advance (piecesText trivia)).advance (piecesText pieces ++ closing))
      have hstripped := hbody.stripped_text
      rw [assemble_body, assemble_body, advance_stripped, hposition]
      by_cases hpieces : pieces = []
      · subst hpieces
        exact hrests
      · have hcontent := not_not.mp fun hnot => hpieces (hbody.no_content htrivia.startsCode hnot)
        have hpieces' : strippedPieces pieces ≠ [] := by
          intro hnil
          have hlength := hstripped.length_eq
          rw [hnil] at hlength
          have hempty : piecesText pieces = [] := List.eq_nil_of_length_eq_zero hlength.symm
          exact hcontent.2 (by rw [hempty]; rfl)
        have hcontent' := not_not.mp fun hnot => hpieces' (hbody'.no_content htrivia'.startsCode hnot)
        rw [if_pos hcontent, if_pos hcontent']
        exact .cons (remains hstripped (hbody.trimmed htrivia.startsCode)
          (hbody'.trimmed htrivia'.startsCode)) hrests

end Statements

/-! ### Stripping and parsing -/

/-- What removing the comments of a script leaves: the same statements, without their comments. -/
def StripCommutes (cases : CaseMap) (script : Text) : Prop :=
  ∀ statements, parseScript cases script [';'] = .ok statements → ∃ left statements',
    stripComments script = .ok left ∧ parseScript cases left [';'] = .ok statements' ∧
      List.Forall₂ (fun s s' => s'.position = s.position ∧ s'.kind = s.kind ∧
        ∃ sql, stripComments s.sql = .ok sql ∧ s'.sql = trim sql) statements statements'

/-- A line comment that ends with a carriage return is the rest of the line to the classifier. -/
theorem carriageReturn_reclassifies :
    ¬ StripCommutes basicCase "set --c\r generator g to 1".toList := by
  intro hcommutes
  have hparse : parseScript basicCase "set --c\r generator g to 1".toList [';'] =
      .ok [⟨"set --c\r generator g to 1".toList, ⟨1, 1⟩, .other, none⟩] := by decide +kernel
  have hstrip : stripComments "set --c\r generator g to 1".toList =
      .ok "set    \r generator g to 1".toList := by decide +kernel
  have hagain : parseScript basicCase "set    \r generator g to 1".toList [';'] =
      .ok [⟨"set    \r generator g to 1".toList, ⟨1, 1⟩, .ddl, none⟩] := by decide +kernel
  obtain ⟨left, statements', hleft, hparsed, hsame⟩ := hcommutes _ hparse
  obtain rfl := Except.ok.inj (hstrip.symm.trans hleft)
  obtain rfl := Except.ok.inj (hagain.symm.trans hparsed)
  cases hsame with
  | cons hfirst _ => exact absurd hfirst.2.1 (by decide)

end FastFirebird
