import FastFirebird.ScriptStripped

/-! The keywords that `classifyServerStatement` sees: it looks for comments with a pattern of its own,
which is not `regionAt`. -/
namespace FastFirebird

/-! ### Words -/

def words (text : Text) : List Text := wordsFrom text.length text

theorem wordsFrom_fuel : ∀ {m n : Nat} {text : Text}, text.length ≤ m → text.length ≤ n →
    wordsFrom m text = wordsFrom n text
  | 0, n, text, hm, hn => by
    obtain rfl : text = [] := List.eq_nil_of_length_eq_zero (by omega)
    cases n with
    | zero => rfl
    | succ n => rfl
  | m + 1, 0, text, hm, hn => by
    obtain rfl : text = [] := List.eq_nil_of_length_eq_zero (by omega)
    rfl
  | m + 1, n + 1, [], hm, hn => rfl
  | m + 1, n + 1, c :: rest, hm, hn => by
    simp only [List.length_cons] at hm hn
    have hname := (List.dropWhile_sublist isNameChar (l := rest)).length_le
    have hbehind := @wordsFrom_fuel m n (rest.dropWhile isNameChar) (by omega) (by omega)
    have hrest := @wordsFrom_fuel m n rest (by omega) (by omega)
    rw [wordsFrom, wordsFrom, hbehind, hrest]

theorem words_cons (c : Char) (rest : Text) : words (c :: rest) =
    if isWordStart c then (c :: rest.takeWhile isNameChar) :: words (rest.dropWhile isNameChar)
    else words rest := by
  have hname := (List.dropWhile_sublist isNameChar (l := rest)).length_le
  have hbehind : wordsFrom rest.length (rest.dropWhile isNameChar) = words (rest.dropWhile isNameChar) :=
    wordsFrom_fuel hname (Nat.le_refl _)
  rw [words, List.length_cons, wordsFrom, hbehind]
  rfl

theorem words_gap {gap rest : Text} (h : ∀ c ∈ gap, isNameChar c = false) :
    words (gap ++ rest) = words rest := by
  induction gap with
  | nil => rfl
  | cons c gap ih =>
    have hstart : isWordStart c = false := by
      cases hc : isWordStart c with
      | false => rfl
      | true => rw [← h c List.mem_cons_self, isWordStart_name hc]
    rw [List.cons_append, words_cons, hstart, if_neg Bool.false_ne_true,
      ih fun d hd => h d (List.mem_cons_of_mem _ hd)]

/-- Where a character ends every word, the words in front of it and behind it are those of the text. -/
theorem words_split {d : Char} {rest : Text} (hd : isNameChar d = false) : ∀ {n : Nat} {front : Text},
    front.length ≤ n → words (front ++ d :: rest) = words front ++ words rest := by
  have hgap : words ([d] ++ rest) = words rest := by
    apply words_gap
    intro c hc
    rw [List.mem_singleton.mp hc]
    exact hd
  intro n
  induction n with
  | zero =>
    intro front hn
    obtain rfl : front = [] := List.eq_nil_of_length_eq_zero (by omega)
    exact hgap
  | succ n ih =>
    intro front hn
    cases front with
    | nil => exact hgap
    | cons c front =>
      rw [List.length_cons] at hn
      rw [List.cons_append, words_cons, words_cons]
      split
      · have htake : (front ++ d :: rest).takeWhile isNameChar = front.takeWhile isNameChar := by
          rw [List.takeWhile_append]
          split
          · rename_i hall
            rw [List.takeWhile_cons_of_neg (by rw [hd]; exact Bool.false_ne_true), List.append_nil]
            exact ((List.takeWhile_sublist _).eq_of_length hall).symm
          · rfl
        have hdrop : (front ++ d :: rest).dropWhile isNameChar =
            front.dropWhile isNameChar ++ d :: rest := by
          rw [List.dropWhile_append]
          split
          · rename_i hall
            rw [List.isEmpty_iff.mp hall,
              List.dropWhile_cons_of_neg (by rw [hd]; exact Bool.false_ne_true)]
            rfl
          · rfl
        have hlength := (List.dropWhile_sublist isNameChar (l := front)).length_le
        rw [htake, hdrop, ih (Nat.le_trans hlength (by omega))]
        rfl
      · exact ih (by omega)

/-! ### Texts that differ in their gaps -/

/-- Neither is part of a word: white space, and what a comment that is cut off may begin with. -/
def Gap (c : Char) : Prop := isSpace c = true ∨ c = '-' ∨ c = '/'

theorem Gap.not_name {c : Char} (h : Gap c) : isNameChar c = false := by
  rcases h with h | rfl | rfl
  · exact isSpace_not_name h
  · decide
  · decide

theorem Gap.lower (cases : CaseMap) {c : Char} (h : Gap c) : cases.lower c = [c] := by
  rcases h with h | rfl | rfl
  · exact cases.lower_space c h
  · exact cases.lower_ascii '-' (by decide)
  · exact cases.lower_ascii '/' (by decide)

/-- The same text, but for what stands between its words. -/
inductive SameWords : Text → Text → Prop where
  | nil : SameWords [] []
  | char {c : Char} {x y : Text} : SameWords x y → SameWords (c :: x) (c :: y)
  | gap {a b x y : Text} : a ≠ [] → b ≠ [] → (∀ c ∈ a, Gap c) → (∀ c ∈ b, Gap c) → SameWords x y →
    SameWords (a ++ x) (b ++ y)

section SameWords

variable {x y : Text}

theorem SameWords.gaps (hx : x ≠ []) (hy : y ≠ []) (hgapx : ∀ c ∈ x, Gap c) (hgapy : ∀ c ∈ y, Gap c) :
    SameWords x y := by
  have h := SameWords.gap hx hy hgapx hgapy .nil
  rw [List.append_nil, List.append_nil] at h
  exact h

theorem SameWords.append (front : Text) (h : SameWords x y) : SameWords (front ++ x) (front ++ y) := by
  induction front with
  | nil => exact h
  | cons c front ih => exact .char ih

theorem SameWords.refl (x : Text) : SameWords x x := by
  have h := SameWords.append x .nil
  rw [List.append_nil] at h
  exact h

theorem SameWords.lower (cases : CaseMap) (h : SameWords x y) :
    SameWords (toLowerCase cases x) (toLowerCase cases y) := by
  have hgap : ∀ {a : Text}, (∀ c ∈ a, Gap c) → toLowerCase cases a = a := by
    intro a ha
    induction a with
    | nil => rfl
    | cons c a ih =>
      rw [toLowerCase_cons, (ha c List.mem_cons_self).lower, ih fun d hd => ha d (List.mem_cons_of_mem _ hd)]
      rfl
  induction h with
  | nil => exact .nil
  | char _ ih =>
    rw [toLowerCase_cons, toLowerCase_cons]
    exact ih.append _
  | gap ha hb hgapa hgapb _ ih =>
    rw [toLowerCase_append, toLowerCase_append, hgap hgapa, hgap hgapb]
    exact .gap ha hb hgapa hgapb ih

/-- A word goes on alike in both. -/
theorem SameWords.run (h : SameWords x y) : x.takeWhile isNameChar = y.takeWhile isNameChar ∧
    SameWords (x.dropWhile isNameChar) (y.dropWhile isNameChar) := by
  induction h with
  | nil => exact ⟨rfl, .nil⟩
  | @char c x y h ih =>
    rw [List.takeWhile_cons, List.takeWhile_cons, List.dropWhile_cons, List.dropWhile_cons]
    split
    · exact ⟨by rw [ih.1], ih.2⟩
    · exact ⟨rfl, .char h⟩
  | @gap a b x y ha hb hgapa hgapb h _ =>
    obtain ⟨c, a, rfl⟩ := List.exists_cons_of_ne_nil ha
    obtain ⟨d, b, rfl⟩ := List.exists_cons_of_ne_nil hb
    have hc : ¬ isNameChar c = true := by
      rw [(hgapa c List.mem_cons_self).not_name]
      exact Bool.false_ne_true
    have hd : ¬ isNameChar d = true := by
      rw [(hgapb d List.mem_cons_self).not_name]
      exact Bool.false_ne_true
    rw [List.cons_append, List.cons_append, List.takeWhile_cons_of_neg hc, List.takeWhile_cons_of_neg hd,
      List.dropWhile_cons_of_neg hc, List.dropWhile_cons_of_neg hd]
    exact ⟨rfl, SameWords.gap ha hb hgapa hgapb h⟩

theorem SameWords.words : ∀ {n : Nat} {x y : Text}, x.length ≤ n → SameWords x y →
    FastFirebird.words x = FastFirebird.words y := by
  intro n
  induction n with
  | zero =>
    intro x y hn h
    obtain rfl : x = [] := List.eq_nil_of_length_eq_zero (by omega)
    generalize hx : ([] : Text) = x at h
    cases h with
    | nil => rfl
    | char _ => cases hx
    | gap ha _ _ _ _ => exact absurd (List.append_eq_nil_iff.mp hx.symm).1 ha
  | succ n ih =>
    intro x y hn h
    cases h with
    | nil => rfl
    | @char c x y h =>
      rw [List.length_cons] at hn
      rw [words_cons, words_cons]
      split
      · obtain ⟨htake, hdrop⟩ := h.run
        have hlength := (List.dropWhile_sublist isNameChar (l := x)).length_le
        rw [htake, ih (Nat.le_trans hlength (by omega)) hdrop]
      · exact ih (by omega) h
    | @gap a b x y ha hb hgapa hgapb h =>
      have hpos := List.length_pos_iff.mpr ha
      rw [List.length_append] at hn
      rw [words_gap fun c hc => (hgapa c hc).not_name, words_gap fun c hc => (hgapb c hc).not_name]
      exact ih (by omega) h

/-- Where one ends between words, the other does. -/
theorem SameWords.ends (h : SameWords x y) : ∀ {front : Text} {d : Char}, x = front ++ [d] →
    isNameChar d = false → ∃ front' d', y = front' ++ [d'] ∧ isNameChar d' = false := by
  induction h with
  | nil =>
    intro front d hx _
    cases front with
    | nil => cases hx
    | cons c front => cases hx
  | @char c x y h ih =>
    intro front d hx hd
    cases front with
    | nil =>
      obtain ⟨rfl, rfl⟩ := List.cons.inj hx
      generalize hnil : ([] : Text) = x at h
      cases h with
      | nil => exact ⟨[], c, rfl, hd⟩
      | char _ => cases hnil
      | gap ha _ _ _ _ => exact absurd (List.append_eq_nil_iff.mp hnil.symm).1 ha
    | cons e front =>
      obtain ⟨front', d', rfl, hd'⟩ := ih (List.cons.inj hx).2 hd
      exact ⟨c :: front', d', rfl, hd'⟩
  | @gap a b x y ha hb hgapa hgapb h ih =>
    intro front d hx hd
    rcases List.eq_nil_or_concat x with rfl | ⟨x', last, hlast⟩
    · generalize hnil : ([] : Text) = x at h
      cases h with
      | nil =>
        rcases List.eq_nil_or_concat b with rfl | ⟨b', last, hlast⟩
        · exact absurd rfl hb
        · rw [List.concat_eq_append] at hlast
          subst hlast
          refine ⟨b', last, List.append_nil _, (hgapb last ?_).not_name⟩
          exact List.mem_append.mpr (.inr List.mem_cons_self)
      | char _ => cases hnil
      | gap ha _ _ _ _ => exact absurd (List.append_eq_nil_iff.mp hnil.symm).1 ha
    · rw [List.concat_eq_append] at hlast
      subst hlast
      rw [← List.append_assoc] at hx
      obtain ⟨-, heq⟩ := List.append_inj' hx rfl
      obtain ⟨front', d', rfl, hd'⟩ := ih rfl (List.singleton_inj.mp heq ▸ hd)
      exact ⟨b ++ front', d', (List.append_assoc _ _ _).symm, hd'⟩

end SameWords

/-! ### Comments, as the classifier finds them -/

/-- The text with a blank for each comment that the classifier finds. -/
def blanked (text : Text) : Text := blankComments text.length text

theorem blankComments_fuel : ∀ {m n : Nat} {text : Text}, text.length ≤ m → text.length ≤ n →
    blankComments m text = blankComments n text
  | 0, n, text, hm, hn => by
    obtain rfl : text = [] := List.eq_nil_of_length_eq_zero (by omega)
    cases n with
    | zero => rfl
    | succ n => rfl
  | m + 1, 0, text, hm, hn => by
    obtain rfl : text = [] := List.eq_nil_of_length_eq_zero (by omega)
    rfl
  | m + 1, n + 1, [], hm, hn => rfl
  | m + 1, n + 1, c :: rest, hm, hn => by
    simp only [List.length_cons] at hm hn
    have hline := (List.dropWhile_sublist (· ≠ '\n') (l := rest.drop 1)).length_le
    rw [List.length_drop] at hline
    have hblock : ∀ k, (rest.drop (k + 3)).length ≤ rest.length := by
      intro k
      rw [List.length_drop]
      omega
    rw [blankComments, blankComments]
    split
    · rw [@blankComments_fuel m n _ (by omega) (by omega)]
    split
    · split
      · rename_i k _
        have hk := hblock k
        rw [@blankComments_fuel m n _ (by omega) (by omega)]
      · rfl
    · rw [@blankComments_fuel m n rest (by omega) (by omega)]

theorem blanked_char {c : Char} {rest : Text} (h₁ : ¬ (c = '-' ∧ rest.head? = some '-'))
    (h₂ : ¬ (c = '/' ∧ rest.head? = some '*')) : blanked (c :: rest) = c :: blanked rest := by
  rw [blanked, List.length_cons, blankComments, if_neg h₁, if_neg h₂]
  rfl

theorem blanked_line (body : Text) :
    blanked ('-' :: '-' :: body) = ' ' :: blanked (body.dropWhile (· ≠ '\n')) := by
  have hlength := (List.dropWhile_sublist (· ≠ '\n') (l := body)).length_le
  rw [blanked, List.length_cons, blankComments, if_pos ⟨rfl, rfl⟩]
  exact congrArg (' ' :: ·) (blankComments_fuel (Nat.le_succ_of_le hlength) (Nat.le_refl _))

theorem blanked_block {body : Text} {k : Nat} (h : pairAt '*' '/' body = some k) :
    blanked ('/' :: '*' :: body) = ' ' :: blanked (body.drop (k + 2)) := by
  have hlength : (body.drop (k + 2)).length ≤ body.length := by
    rw [List.length_drop]
    omega
  have hpair : pairAt '*' '/' (('*' :: body).drop 1) = some k := h
  rw [blanked, List.length_cons, blankComments, if_neg (by simp), if_pos ⟨rfl, rfl⟩, hpair]
  exact congrArg (' ' :: ·) (blankComments_fuel (Nat.le_succ_of_le hlength) (Nat.le_refl _))

theorem blanked_open {body : Text} (h : pairAt '*' '/' body = none) :
    blanked ('/' :: '*' :: body) = [' '] := by
  have hpair : pairAt '*' '/' (('*' :: body).drop 1) = none := h
  rw [blanked, List.length_cons, blankComments, if_neg (by simp), if_pos ⟨rfl, rfl⟩, hpair]

/-- No comment starts in a literal, as far as the classifier can tell. -/
def OpensNoComment (text : Text) : Prop := ¬ ['-', '-'] <:+: text ∧ ¬ ['/', '*'] <:+: text

/-- Up to `behind`, the classifier finds the comments that `regionAt` finds: line comments end with
a line feed, or with the text, and literals do not look like comments. -/
inductive ToldApart (behind : Text) : Text → Prop where
  | stop : ToldApart behind behind
  | char {c : Char} {rest : Text} : regionAt (c :: rest) = none → ToldApart behind rest →
    ToldApart behind (c :: rest)
  | lineComment {text : Text} {r : Region} : Opens text r → r.type = .lineComment →
    (∀ c, (text.drop r.length).head? = some c → c = '\n') → ToldApart behind (text.drop r.length) →
    ToldApart behind text
  | blockComment {text : Text} {r : Region} : Opens text r → r.type = .blockComment →
    ToldApart behind (text.drop r.length) → ToldApart behind text
  | literal {text : Text} {r : Region} : Opens text r → r.type.isComment = false →
    OpensNoComment (text.take r.length) → ToldApart behind (text.drop r.length) → ToldApart behind text

theorem OpensNoComment.tail {c : Char} {text : Text} (h : OpensNoComment (c :: text)) :
    OpensNoComment text :=
  ⟨fun hin => h.1 (hin.trans (List.infix_cons (List.infix_refl _))),
    fun hin => h.2 (hin.trans (List.infix_cons (List.infix_refl _)))⟩

/-- A literal is not changed: it ends with a quote. -/
theorem blanked_literal {front rest : Text} {q : Char} (hq : q = '\'' ∨ q = '"')
    (h : OpensNoComment (front ++ [q])) : blanked (front ++ q :: rest) = front ++ q :: blanked rest := by
  have hquote : q ≠ '-' ∧ q ≠ '/' ∧ q ≠ '*' := by
    rcases hq with rfl | rfl
    · decide
    · decide
  induction front with
  | nil => exact blanked_char (fun hc => hquote.1 hc.1) fun hc => hquote.2.1 hc.1
  | cons c front ih =>
    have hhead : ∀ d, d ≠ q → (front ++ q :: rest).head? = some d → (front ++ [q]).head? = some d := by
      intro d hd hsome
      cases front with
      | nil => exact absurd (Option.some.inj hsome).symm hd
      | cons e front => exact hsome
    have hwithin : ∀ d, (front ++ [q]).head? = some d → [c, d] <:+: c :: (front ++ [q]) := by
      intro d hd
      rw [head_cons hd]
      exact List.IsPrefix.isInfix ⟨_, rfl⟩
    rw [List.cons_append, blanked_char, ih h.tail]
    · rfl
    · rintro ⟨rfl, hd⟩
      exact h.1 (hwithin '-' (hhead '-' (Ne.symm hquote.1) hd))
    · rintro ⟨rfl, hd⟩
      exact h.2 (hwithin '*' (hhead '*' (Ne.symm hquote.2.2) hd))

theorem blanked_spaces {a w : Text} (h : ∀ c ∈ a, isSpace c = true) : blanked (a ++ w) = a ++ blanked w := by
  induction a with
  | nil => rfl
  | cons c a ih =>
    have hc := h c List.mem_cons_self
    rw [List.cons_append, blanked_char, ih fun d hd => h d (List.mem_cons_of_mem _ hd)]
    · rfl
    · rintro ⟨rfl, -⟩
      exact absurd hc (by decide)
    · rintro ⟨rfl, -⟩
      exact absurd hc (by decide)

theorem blanked_lineComment {line w : Text} (hline : ∀ c ∈ line, isEol c = false)
    (hw : ∀ c, w.head? = some c → c = '\n') : blanked ('-' :: '-' :: (line ++ w)) = ' ' :: blanked w := by
  have hnoline : ∀ c ∈ line, decide (c ≠ '\n') = true := by
    intro c hc
    have heol := hline c hc
    apply decide_eq_true
    rintro rfl
    exact absurd heol (by decide)
  have hstop : w.dropWhile (· ≠ '\n') = w := by
    cases w with
    | nil => rfl
    | cons c w =>
      rw [hw c rfl]
      exact List.dropWhile_cons_of_neg (by decide)
  rw [blanked_line, List.dropWhile_append_of_pos hnoline, hstop]

section Regions

variable {taken rest w : Text} {r : Region}

theorem Opens.literal_ends (h : Opens (taken ++ rest) r) (hlen : taken.length = r.length)
    (hliteral : r.type.isComment = false) : ∃ front q, taken = front ++ [q] ∧ (q = '\'' ∨ q = '"') := by
  have hslice := h.slice (Nat.le_of_eq hlen.symm)
  have hlast : ∃ q, taken[r.length - 1]? = some q ∧ (q = '\'' ∨ q = '"') := by
    generalize htaken : taken = text at hslice
    cases hslice with
    | lineComment _ => cases hliteral
    | blockComment _ => cases hliteral
    | @qLiteral c opener body k hc hk =>
      refine ⟨'\'', ?_, .inl rfl⟩
      rw [show k + 5 - 1 = (k + 1) + 1 + 1 + 1 by omega]
      simpa using (pairAt_bound hk).2
    | @string body k hk =>
      obtain ⟨hpos, -, hlast⟩ := quotedLength_bound hk
      refine ⟨'\'', ?_, .inl rfl⟩
      rw [show k + 1 - 1 = (k - 1) + 1 by omega]
      simpa using hlast
    | @quotedIdentifier body k hk =>
      obtain ⟨hpos, -, hlast⟩ := quotedLength_bound hk
      refine ⟨'"', ?_, .inr rfl⟩
      rw [show k + 1 - 1 = (k - 1) + 1 by omega]
      simpa using hlast
  obtain ⟨q, hq, hquote⟩ := hlast
  have hpos := h.length_pos
  refine ⟨taken.take (r.length - 1), q, ?_, hquote⟩
  calc taken = taken.take (r.length - 1 + 1) := by rw [List.take_of_length_le (by omega)]
    _ = taken.take (r.length - 1) ++ [q] := by rw [List.take_add_one, hq]; rfl

/-- A region in front of what is told apart. -/
theorem blanked_region (h : Opens (taken ++ rest) r) (hlen : taken.length = r.length)
    (hline : r.type = .lineComment → ∀ c, rest.head? = some c → c = '\n')
    (hliteral : r.type.isComment = false → OpensNoComment taken) (hw : w <+: rest) :
    blanked (taken ++ w) = (if r.type.isComment then [' '] else taken) ++ blanked w := by
  by_cases hcomment : r.type.isComment = true
  · rw [if_pos hcomment]
    have hslice := h.slice (Nat.le_of_eq hlen.symm)
    generalize htaken : taken = text at hslice
    cases hslice with
    | lineComment line =>
      subst htaken
      simp only [List.length_cons] at hlen
      have hbody : (line.takeWhile (!isEol ·)).length = line.length := by omega
      have hall : line.takeWhile (!isEol ·) = line := (List.takeWhile_sublist _).eq_of_length hbody
      have hnoeol : ∀ c ∈ line, isEol c = false := by
        intro c hc
        rw [← hall] at hc
        simpa using List.mem_takeWhile_imp hc
      have hhead : ∀ c, w.head? = some c → c = '\n' := by
        intro c hc
        apply hline rfl
        obtain ⟨z, rfl⟩ := hw
        rw [head_cons hc]
        rfl
      exact blanked_lineComment hnoeol hhead
    | @blockComment body k hk =>
      subst htaken
      simp only [List.length_cons] at hlen
      have hbody : body.length = k + 2 := by omega
      have hpair := pairAt_extend w hk
      show blanked ('/' :: '*' :: (body ++ w)) = _
      rw [blanked_block hpair, ← hbody, List.drop_left]
      rfl
    | qLiteral _ _ => cases hcomment
    | string _ => cases hcomment
    | quotedIdentifier _ => cases hcomment
  · have hcomment : r.type.isComment = false := Bool.not_eq_true _ ▸ hcomment
    rw [if_neg (by rw [hcomment]; exact Bool.false_ne_true)]
    obtain ⟨front, q, rfl, hq⟩ := h.literal_ends hlen hcomment
    rw [List.append_assoc, List.singleton_append, blanked_literal hq (hliteral hcomment),
      List.append_assoc]
    rfl

/-- Of a comment that is cut off, nothing is left that is part of a word. -/
theorem blanked_cut (h : Opens (taken ++ rest) r) (hlen : taken.length = r.length)
    (hcomment : r.type.isComment = true) {k : Nat} (hpos : 0 < k) (hk : k < r.length) :
    blanked (taken.take k) ≠ [] ∧ ∀ c ∈ blanked (taken.take k), Gap c := by
  have hspace : ([' '] : Text) ≠ [] ∧ ∀ c ∈ ([' '] : Text), Gap c := by
    refine ⟨List.cons_ne_nil _ _, fun c hc => ?_⟩
    rw [List.mem_singleton.mp hc]
    exact .inl (by decide)
  have hslice := h.slice (Nat.le_of_eq hlen.symm)
  generalize htaken : taken = text at hslice
  cases hslice with
  | lineComment line =>
    subst htaken
    simp only [List.length_cons] at hlen
    have hbody : (line.takeWhile (!isEol ·)).length = line.length := by omega
    have hall : line.takeWhile (!isEol ·) = line := (List.takeWhile_sublist _).eq_of_length hbody
    obtain _ | _ | k := k
    · omega
    · refine ⟨List.cons_ne_nil _ _, fun c hc => ?_⟩
      exact .inr (.inl (List.mem_singleton.mp hc))
    · have hnoeol : ∀ c ∈ line.take k, isEol c = false := by
        intro c hc
        have hc := List.mem_of_mem_take hc
        rw [← hall] at hc
        simpa using List.mem_takeWhile_imp hc
      have hblanked := @blanked_lineComment (line.take k) [] hnoeol nofun
      rw [List.append_nil] at hblanked
      rw [List.take_succ_cons, List.take_succ_cons, hblanked]
      exact hspace
  | @blockComment body j hj =>
    subst htaken
    dsimp only at hk
    obtain _ | _ | k := k
    · omega
    · refine ⟨List.cons_ne_nil _ _, fun c hc => ?_⟩
      exact .inr (.inr (List.mem_singleton.mp hc))
    · have hopen : pairAt '*' '/' (body.take k) = none := by
        cases hpair : pairAt '*' '/' (body.take k) with
        | none => rfl
        | some i =>
          have hwhole := pairAt_extend (body.drop k) hpair
          rw [List.take_append_drop, hj] at hwhole
          obtain rfl := Option.some.inj hwhole
          have hbound := (pairAt_bound hpair).1
          rw [List.length_take] at hbound
          omega
      rw [List.take_succ_cons, List.take_succ_cons, blanked_open hopen]
      exact hspace
  | qLiteral _ _ => cases hcomment
  | string _ => cases hcomment
  | quotedIdentifier _ => cases hcomment

end Regions

/-! ### A statement and what is left of it -/

section ToldApart

variable {text behind left : Text}

theorem take_region {r : Region} (h : Opens text r) : (text.take r.length).length = r.length := by
  have hpos := h.length_pos
  rw [List.length_take]
  omega

theorem take_behind {a b : Text} {n j : Nat} (h : a.length = n) : (a ++ b).take (n + j) = a ++ b.take j := by
  rw [← h]
  exact List.take_length_add_append j

/-- What is told apart, in front of the rest of it. -/
theorem ToldApart.append (h : ToldApart behind text) : ∃ front, text = front ++ behind ∧
    ∀ u, u <+: behind → blanked (front ++ u) = blanked front ++ blanked u := by
  have hregion : ∀ {text : Text} {r : Region}, Opens text r →
      (r.type = .lineComment → ∀ c, (text.drop r.length).head? = some c → c = '\n') →
      (r.type.isComment = false → OpensNoComment (text.take r.length)) →
      (∃ front, text.drop r.length = front ++ behind ∧
        ∀ u, u <+: behind → blanked (front ++ u) = blanked front ++ blanked u) →
      ∃ front, text = front ++ behind ∧
        ∀ u, u <+: behind → blanked (front ++ u) = blanked front ++ blanked u := by
    intro text r hopens hline hliteral ⟨front, hfront, happend⟩
    have hlen := take_region hopens
    have hsplit : text = text.take r.length ++ (front ++ behind) := by
      rw [← hfront, List.take_append_drop]
    rw [hfront] at hline
    have hopens' : Opens (text.take r.length ++ (front ++ behind)) r := hsplit ▸ hopens
    refine ⟨text.take r.length ++ front, by rw [List.append_assoc]; exact hsplit, fun u hu => ?_⟩
    have hu' : front ++ u <+: front ++ behind := (List.prefix_append_right_inj front).mpr hu
    rw [List.append_assoc, blanked_region hopens' hlen hline hliteral hu',
      blanked_region hopens' hlen hline hliteral (List.prefix_append front behind), happend u hu,
      List.append_assoc]
  induction h with
  | stop => exact ⟨[], rfl, fun u _ => rfl⟩
  | @char c rest hnone _ ih =>
    obtain ⟨front, rfl, happend⟩ := ih
    refine ⟨c :: front, rfl, fun u hu => ?_⟩
    have hchar : ∀ w, w <+: front ++ behind → blanked (c :: w) = c :: blanked w := by
      rintro w ⟨z, hz⟩
      rw [← hz, ← List.cons_append] at hnone
      obtain ⟨h₁, h₂, -⟩ := regionAt_eq_none.mp (regionAt_none_slice hnone)
      exact blanked_char h₁ h₂
    rw [List.cons_append, hchar _ ((List.prefix_append_right_inj front).mpr hu),
      hchar _ (List.prefix_append front behind), happend u hu]
    rfl
  | lineComment hopens htype hline _ ih =>
    apply hregion hopens (fun _ => hline) _ ih
    intro hliteral
    rw [htype] at hliteral
    cases hliteral
  | blockComment hopens htype _ ih =>
    apply hregion hopens _ _ ih
    · intro hline
      rw [htype] at hline
      cases hline
    · intro hliteral
      rw [htype] at hliteral
      cases hliteral
  | literal hopens hliteral hplain _ ih =>
    apply hregion hopens _ (fun _ => hplain) ih
    intro hline
    rw [hline] at hliteral
    cases hliteral

/-- However much of it the classifier looks at, it sees the words that it sees in what is left. -/
theorem ToldApart.same (h : ToldApart behind text) : ∀ {left : Text} {k : Nat}, Stripped text left →
    k + behind.length ≤ text.length → SameWords (blanked (text.take k)) (blanked (left.take k)) := by
  have hcomment : ∀ {text left : Text} {r : Region} {k : Nat}, Opens text r → r.type.isComment = true →
      (r.type = .lineComment → ∀ c, (text.drop r.length).head? = some c → c = '\n') →
      Stripped text left → k + behind.length ≤ text.length →
      (∀ {left : Text} {k : Nat}, Stripped (text.drop r.length) left →
        k + behind.length ≤ (text.drop r.length).length →
          SameWords (blanked ((text.drop r.length).take k)) (blanked (left.take k))) →
      SameWords (blanked (text.take k)) (blanked (left.take k)) := by
    intro text left r k hopens hcomment hline hleft hk ih
    obtain ⟨left, rfl, hrest⟩ := hleft.behind_region hopens
    rw [if_pos hcomment]
    have hlen := take_region hopens
    have hblank : (blank (text.take r.length)).length = r.length := by rw [blank, List.length_map, hlen]
    have hopens' : Opens (text.take r.length ++ text.drop r.length) r := by
      rw [List.take_append_drop]
      exact hopens
    have hgaps : ∀ c ∈ blank (text.take r.length), Gap c := fun c hc => .inl (blank_spaces c hc)
    by_cases hcut : r.length ≤ k
    · obtain ⟨j, rfl⟩ := Nat.exists_eq_add_of_le hcut
      have htake : text.take (r.length + j) = text.take r.length ++ (text.drop r.length).take j :=
        List.take_add
      have hj : j + behind.length ≤ (text.drop r.length).length := by
        rw [List.length_drop]
        omega
      have hliteral : r.type.isComment = false → OpensNoComment (text.take r.length) := by
        intro hliteral
        rw [hcomment] at hliteral
        cases hliteral
      rw [htake, take_behind hblank, blanked_region hopens' hlen hline hliteral (List.take_prefix _ _),
        if_pos hcomment, blanked_spaces blank_spaces]
      refine .gap (List.cons_ne_nil _ _) (blank_ne_nil hopens) (fun c hc => ?_) hgaps (ih hrest hj)
      rw [List.mem_singleton.mp hc]
      exact .inl (by decide)
    · cases k with
      | zero => exact .nil
      | succ k =>
        have hk' : k + 1 < r.length := by omega
        have htake : text.take (k + 1) = (text.take r.length).take (k + 1) := by
          rw [List.take_take, Nat.min_eq_left (by omega)]
        have hblanks : (blank (text.take r.length) ++ left).take (k + 1) =
            (blank (text.take r.length)).take (k + 1) := List.take_append_of_le_length (by omega)
        obtain ⟨hne, hgap⟩ := blanked_cut hopens' hlen hcomment (Nat.succ_pos k) hk'
        have hspaces : ∀ c ∈ (blank (text.take r.length)).take (k + 1), isSpace c = true :=
          fun c hc => blank_spaces c (List.mem_of_mem_take hc)
        have hsame := blanked_spaces (w := []) hspaces
        rw [List.append_nil, show blanked [] = [] from rfl, List.append_nil] at hsame
        rw [htake, hblanks, hsame]
        refine .gaps hne ?_ hgap fun c hc => .inl (hspaces c hc)
        intro hnil
        have hlength := congrArg List.length hnil
        rw [List.length_take, hblank, List.length_nil] at hlength
        omega
  induction h with
  | stop =>
    intro left k _ hk
    obtain rfl : k = 0 := by omega
    exact .nil
  | @char c rest hnone _ ih =>
    intro left k hleft hk
    obtain ⟨left, rfl, hrest⟩ := hleft.behind_char hnone
    cases k with
    | zero => exact .nil
    | succ k =>
      have hk : k + behind.length ≤ rest.length := by
        rw [List.length_cons] at hk
        omega
      have hchar : ∀ {w : Text}, regionAt (c :: w) = none → blanked (c :: w.take k) = c :: blanked (w.take k) := by
        intro w hw
        rw [← List.take_append_drop k w, ← List.cons_append] at hw
        obtain ⟨h₁, h₂, -⟩ := regionAt_eq_none.mp (regionAt_none_slice hw)
        exact blanked_char h₁ h₂
      rw [List.take_succ_cons, List.take_succ_cons, hchar hnone, hchar (hrest.regionAt_none hnone)]
      exact .char (ih hrest hk)
  | lineComment hopens htype hline _ ih =>
    intro left k hleft hk
    exact hcomment hopens (by rw [htype]; rfl) (fun _ => hline) hleft hk ih
  | blockComment hopens htype _ ih =>
    intro left k hleft hk
    refine hcomment hopens (by rw [htype]; rfl) (fun hline => ?_) hleft hk ih
    rw [htype] at hline
    cases hline
  | @literal text r hopens hliteral hplain _ ih =>
    intro left k hleft hk
    obtain ⟨left, rfl, hrest⟩ := hleft.behind_region hopens
    rw [if_neg (by rw [hliteral]; exact Bool.false_ne_true)]
    have hlen := take_region hopens
    have hopens' : Opens (text.take r.length ++ text.drop r.length) r := by
      rw [List.take_append_drop]
      exact hopens
    by_cases hcut : r.length ≤ k
    · obtain ⟨j, rfl⟩ := Nat.exists_eq_add_of_le hcut
      have htake : text.take (r.length + j) = text.take r.length ++ (text.drop r.length).take j :=
        List.take_add
      have hj : j + behind.length ≤ (text.drop r.length).length := by
        rw [List.length_drop]
        omega
      obtain ⟨front, q, hfront, hq⟩ := hopens'.literal_ends hlen hliteral
      have hsame : ∀ w, blanked (text.take r.length ++ w) = text.take r.length ++ blanked w := by
        intro w
        rw [hfront] at hplain ⊢
        rw [List.append_assoc, List.singleton_append, blanked_literal hq hplain, List.append_assoc]
        rfl
      rw [htake, take_behind hlen, hsame, hsame]
      exact (ih hrest hj).append _
    · have htake : text.take k = (text.take r.length ++ left).take k := by
        rw [List.take_append_of_le_length (by omega), List.take_take, Nat.min_eq_left (by omega)]
      rw [htake]
      exact .refl _

end ToldApart

/-! ### The classifier -/

/-- What the classifier makes of its words. -/
def kindOfWords (heads : List Text) : StatementKind :=
  let w₁ := heads.head?.getD []
  let w₂ := heads.tail.head?.getD []
  if w₁ ∈ ddlHeads then .ddl
  else if w₁ = "set".toList then if w₂ = "generator".toList then .ddl else .other
  else if w₁ ∈ dmlHeads then .dml
  else if w₁ = "execute".toList then if w₂ = "procedure".toList then .dml else .other
  else .other

variable (cases : CaseMap)

/-- The words of a text that the classifier looks at. -/
def headWords (text : Text) : List Text := words (toLowerCase cases (blanked text))

/-- At least two words, of which the second is at its end. -/
def TwoWords (text : Text) : Prop := ∃ front d, toLowerCase cases (blanked text) = front ++ [d] ∧
  isNameChar d = false ∧ 2 ≤ (words front).length

/-- Up to the end of its second word, as far as the classifier looks, the comments of a statement are
what it takes them for. -/
def PlainHead (sql : Text) : Prop := ∃ front behind, sql = front ++ behind ∧ ToldApart behind sql ∧
  (behind = [] ∨ 400 ≤ front.length ∨ TwoWords cases front)

theorem classifyServerStatement_words (sql : Text) :
    classifyServerStatement cases sql = kindOfWords (headWords cases (sql.take 400)) := rfl

theorem kindOfWords_take (heads : List Text) : kindOfWords (heads.take 2) = kindOfWords heads := by
  match heads with
  | [] => rfl
  | [w] => rfl
  | w₁ :: w₂ :: rest => rfl

variable {cases}

/-- What follows two words is not looked at. -/
theorem TwoWords.take {x y : Text} {front : Text} {d : Char} (hx : x = front ++ [d])
    (hd : isNameChar d = false) (htwo : 2 ≤ (words front).length) :
    (words (x ++ y)).take 2 = (words front).take 2 := by
  rw [hx, List.append_assoc, List.singleton_append, words_split hd (Nat.le_refl _)]
  exact List.take_append_of_le_length htwo

theorem ToldApart.front {a text behind : Text} (ha : ∀ c ∈ a, ∀ rest, regionAt (c :: rest) = none)
    (h : ToldApart behind text) : ToldApart behind (a ++ text) := by
  induction a with
  | nil => exact h
  | cons c a ih =>
    exact .char (ha c List.mem_cons_self _) (ih fun d hd => ha d (List.mem_cons_of_mem _ hd))

/-- What is left of a text that is told apart, is told apart. -/
theorem ToldApart.stripped {text behind : Text} (h : ToldApart behind text) : ∀ {left : Text},
    Stripped text left → ∃ left₁ left₂, left = left₁ ++ left₂ ∧ ToldApart left₂ left ∧
      left₁.length + behind.length = text.length := by
  have hcomment : ∀ {text left : Text} {r : Region}, Opens text r → r.type.isComment = true →
      Stripped text left → (∀ {left : Text}, Stripped (text.drop r.length) left → ∃ left₁ left₂,
        left = left₁ ++ left₂ ∧ ToldApart left₂ left ∧
          left₁.length + behind.length = (text.drop r.length).length) →
      ∃ left₁ left₂, left = left₁ ++ left₂ ∧ ToldApart left₂ left ∧
        left₁.length + behind.length = text.length := by
    intro text left r hopens hcomment hleft ih
    obtain ⟨left, rfl, hrest⟩ := hleft.behind_region hopens
    obtain ⟨left₁, left₂, rfl, htold, hlength⟩ := ih hrest
    rw [if_pos hcomment]
    refine ⟨blank (text.take r.length) ++ left₁, left₂, (List.append_assoc _ _ _).symm,
      htold.front fun c hc => isSpace_opensNothing (blank_spaces c hc), ?_⟩
    have hpos := hopens.length_pos
    rw [List.length_drop] at hlength
    rw [List.length_append, blank, List.length_map, take_region hopens]
    omega
  induction h with
  | stop => exact fun {left} _ => ⟨[], left, rfl, .stop, by rw [List.length_nil, Nat.zero_add]⟩
  | char hnone _ ih =>
    intro left hleft
    obtain ⟨left, rfl, hrest⟩ := hleft.behind_char hnone
    obtain ⟨left₁, left₂, rfl, htold, hlength⟩ := ih hrest
    refine ⟨_ :: left₁, left₂, rfl, .char (hrest.regionAt_none hnone) htold, ?_⟩
    rw [List.length_cons, List.length_cons]
    omega
  | lineComment hopens htype _ _ ih =>
    intro left hleft
    exact hcomment hopens (by rw [htype]; rfl) hleft ih
  | blockComment hopens htype _ ih =>
    intro left hleft
    exact hcomment hopens (by rw [htype]; rfl) hleft ih
  | @literal text r hopens hliteral hplain _ ih =>
    intro left hleft
    obtain ⟨left, rfl, hrest⟩ := hleft.behind_region hopens
    obtain ⟨left₁, left₂, rfl, htold, hlength⟩ := ih hrest
    rw [if_neg (by rw [hliteral]; exact Bool.false_ne_true)]
    have hlen := take_region hopens
    have hpos := hopens.length_pos
    have hkept : ToldApart left₂ (text.take r.length ++ (left₁ ++ left₂)) := by
      apply ToldApart.literal (hrest.opens hopens hliteral) hliteral
      · rw [List.take_left' hlen]
        exact hplain
      · rw [List.drop_left' hlen]
        exact htold
    refine ⟨text.take r.length ++ left₁, left₂, (List.append_assoc _ _ _).symm, hkept, ?_⟩
    rw [List.length_drop] at hlength
    rw [List.length_append, hlen]
    omega

theorem classifyServerStatement_stripped {sql left : Text} (h : Stripped sql left)
    (hlength : left.length = sql.length) (hplain : PlainHead cases sql) :
    classifyServerStatement cases left = classifyServerStatement cases sql := by
  obtain ⟨front, behind, rfl, htold, hcovers⟩ := hplain
  rw [classifyServerStatement_words, classifyServerStatement_words, ← kindOfWords_take,
    ← kindOfWords_take (headWords cases ((front ++ behind).take 400))]
  congr 1
  have hsame : ∀ {k : Nat}, k + behind.length ≤ (front ++ behind).length →
      SameWords (toLowerCase cases (blanked ((front ++ behind).take k)))
        (toLowerCase cases (blanked (left.take k))) := fun hk => (htold.same h hk).lower cases
  by_cases hlong : behind = [] ∨ 400 ≤ front.length
  · -- all that the classifier looks at is told apart
    have hall : min 400 (front ++ behind).length + behind.length ≤ (front ++ behind).length := by
      rw [List.length_append]
      rcases hlong with rfl | hlong
      · rw [List.length_nil]
        omega
      · omega
    have hwords := (hsame hall).words (Nat.le_refl _)
    rw [← List.take_eq_take_min, ← hlength, ← List.take_eq_take_min] at hwords
    rw [headWords, headWords, hwords]
  · obtain ⟨f, d, hfront, hd, htwo⟩ : TwoWords cases front := by
      rcases hcovers with hnil | hlen | htwo
      · exact absurd (.inl hnil) hlong
      · exact absurd (.inr hlen) hlong
      · exact htwo
    have hshort : front.length < 400 := Nat.lt_of_not_le fun hle => hlong (.inr hle)
    obtain ⟨left₁, left₂, rfl, htold', hlen⟩ := htold.stripped h
    rw [List.length_append] at hlen
    have hlen₁ : left₁.length = front.length := by omega
    obtain ⟨m, hm⟩ := Nat.exists_eq_add_of_lt hshort
    rw [Nat.add_assoc] at hm
    obtain ⟨front', hfront', happend⟩ := htold.append
    obtain rfl := List.append_cancel_right hfront'
    obtain ⟨left', hleft', happend'⟩ := htold'.append
    obtain rfl := List.append_cancel_right hleft'
    have hwords := hsame (k := front.length) (by rw [List.length_append])
    rw [List.take_left, ← hlen₁, List.take_left, hfront] at hwords
    obtain ⟨f', d', hleft₁, hd'⟩ := hwords.ends rfl hd
    have hequal := hwords.words (Nat.le_refl _)
    rw [hleft₁, words_split hd (Nat.le_refl _), words_split hd' (Nat.le_refl _)] at hequal
    have hequal : words f = words f' := List.append_cancel_right hequal
    rw [hm, headWords, headWords, take_behind rfl, take_behind hlen₁, happend _ (List.take_prefix _ _),
      happend' _ (List.take_prefix _ _), toLowerCase_append, toLowerCase_append,
      TwoWords.take hfront hd htwo, TwoWords.take hleft₁ hd' (hequal ▸ htwo), hequal]

end FastFirebird
