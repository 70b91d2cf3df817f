import FastFirebird.StarLexing

/-! A text as a row of lexemes, each behind what the lexer skips ahead of it. A star can
be respelled as a row of columns, and all the other lexemes are read as before. -/
namespace FastFirebird
attribute [local irreducible] lexStep

structure Lexeme where
  gap : Text
  text : Text
  deriving Repr, DecidableEq

/-- What is behind the last lexeme has none in it. -/
def renderLexemes : List Lexeme → Text → Text
  | [], tail => tail
  | l :: ls, tail => l.gap ++ (l.text ++ renderLexemes ls tail)

/-- The lexer skips `g` when `x` is behind it. -/
inductive Skips : Text → Text → Prop where
  | nil (x : Text) : Skips [] x
  | step {c : Char} {w g x : Text} (h : lexStep (c :: (w ++ (g ++ x))) = .skip (w.length + 1))
      (hg : Skips g x) : Skips (c :: (w ++ g)) x

structure Lexeme.Read (l : Lexeme) (rest : Text) : Prop where
  gap : Skips l.gap (l.text ++ rest)
  text : ∃ c w, l.text = c :: w ∧ lexStep (c :: (w ++ rest)) = .token (w.length + 1)

def ReadAs : List Lexeme → Text → Prop
  | [], tail => Skips tail []
  | l :: ls, tail => l.Read (renderLexemes ls tail) ∧ ReadAs ls tail

theorem lexStep_bounds (c : Char) (rest : Text) :
    1 ≤ (lexStep (c :: rest)).length ∧ (lexStep (c :: rest)).length ≤ rest.length + 1 := by
  have hstep := lexStep_stepsAs c rest
  generalize lexStep (c :: rest) = s at hstep ⊢
  cases hstep with
  | space => exact ⟨Nat.le_refl 1, Nat.le_add_left 1 _⟩
  | line =>
    have hle := lineLength_le rest
    exact ⟨Nat.le_add_right 1 _, by simp only [LexStep.length]; omega⟩
  | block hc hr =>
    cases hp : pairAt '*' '/' (rest.drop 1) with
    | none => simp [LexStep.length]
    | some k =>
      have hb := (pairAt_bound hp).1
      simp only [LexStep.length, Option.map_some, Option.getD_some, List.length_drop] at hb ⊢
      omega
  | string hc =>
    cases hp : quotedLength '\'' rest with
    | none => simp [LexStep.length]
    | some k =>
      have hb := quotedLength_bound hp
      simp only [LexStep.length, Option.map_some, Option.getD_some]
      omega
  | qLiteral hc hr hlen =>
    cases hp : pairAt (qCloser (rest.getD 1 c)) '\'' (rest.drop 2) with
    | none => simp [LexStep.length]
    | some k =>
      have hb := (pairAt_bound hp).1
      simp only [LexStep.length, Option.map_some, Option.getD_some, List.length_drop] at hb ⊢
      omega
  | quoted hc =>
    cases hp : quotedLength '"' rest with
    | none => simp [LexStep.length]
    | some k =>
      have hb := quotedLength_bound hp
      simp only [LexStep.length, Option.map_some, Option.getD_some]
      omega
  | word =>
    have hle := (List.takeWhile_prefix (l := rest) isIdPart).length_le
    simp only [LexStep.length]
    omega
  | number =>
    have hle := (List.takeWhile_prefix (l := rest) isNumPart).length_le
    simp only [LexStep.length]
    omega
  | other => exact ⟨Nat.le_refl 1, Nat.le_add_left 1 _⟩

/-- A first character with the rest of what the step takes. -/
theorem take_step (c : Char) (rest : Text) {n : Nat} (h1 : 1 ≤ n) (hn : n ≤ rest.length + 1) :
    ∃ w x, rest = w ++ x ∧ n = w.length + 1 ∧ (c :: rest).take n = c :: w ∧ (c :: rest).drop n = x := by
  obtain ⟨k, rfl⟩ : ∃ k, n = k + 1 := ⟨n - 1, by omega⟩
  refine ⟨rest.take k, rest.drop k, (List.take_append_drop k rest).symm, ?_, rfl, rfl⟩
  rw [List.length_take]
  omega

/-- Every text is a row of lexemes. -/
theorem exists_lexemes (sql : Text) : ∃ ls tail, renderLexemes ls tail = sql ∧ ReadAs ls tail := by
  induction hn : sql.length using Nat.strong_induction_on generalizing sql with
  | _ n ih =>
    cases sql with
    | nil => exact ⟨[], [], rfl, .nil []⟩
    | cons c rest =>
      obtain ⟨h1, hle⟩ := lexStep_bounds c rest
      obtain ⟨w, x, rfl, hlen, -, -⟩ := take_step c rest h1 hle
      have hx : x.length < n := by
        rw [← hn]
        simp only [List.length_cons, List.length_append]
        omega
      obtain ⟨ls, tail, rfl, hread⟩ := ih x.length hx x rfl
      cases hs : lexStep (c :: (w ++ renderLexemes ls tail)) with
      | skip k =>
        have hk : k = w.length + 1 := by
          rw [hs] at hlen
          exact hlen
        subst hk
        cases ls with
        | nil => exact ⟨[], c :: (w ++ tail), rfl, .step (by rwa [List.append_nil]) hread⟩
        | cons l ls =>
          refine ⟨⟨c :: (w ++ l.gap), l.text⟩ :: ls, tail, ?_, ⟨?_, hread.1.text⟩, hread.2⟩
          · simp [renderLexemes]
          · exact .step hs hread.1.gap
      | token k =>
        have hk : k = w.length + 1 := by
          rw [hs] at hlen
          exact hlen
        subst hk
        exact ⟨⟨[], c :: w⟩ :: ls, tail, rfl, ⟨.nil _, c, w, rfl, hs⟩, hread⟩

section Layout

variable (maps : CaseMaps)

/-- The depth of a token, and the depth behind it. -/
def Lexeme.depthAt (depth : Int) (l : Lexeme) : Int :=
  if l.text = [')'] then depth - 1 else depth

def Lexeme.depthBehind (depth : Int) (l : Lexeme) : Int :=
  if l.text = ['('] then l.depthAt depth + 1 else l.depthAt depth

def depthAfter (depth : Int) (ls : List Lexeme) : Int := ls.foldl Lexeme.depthBehind depth

/-- The token that a lexeme is read as. -/
def Lexeme.tok (l : Lexeme) (depth : Int) (behind : Text) : Tok :=
  ⟨l.gap, l.text, tokLower maps l.text, l.text ++ behind, behind, l.depthAt depth⟩

/-- The tokens of a row of lexemes that starts at this depth. -/
def layout : Int → List Lexeme → Text → List Tok
  | _, [], _ => []
  | depth, l :: ls, tail =>
    l.tok maps depth (renderLexemes ls tail) :: layout (l.depthBehind depth) ls tail

variable {maps}

theorem tokenizeFrom_skips {g x : Text} (h : Skips g x) (gap : Text) (depth : Int) {fuel : Nat}
    (hf : (g ++ x).length ≤ fuel) : ∃ fuel', x.length ≤ fuel' ∧
      tokenizeFrom maps fuel gap depth (g ++ x) = tokenizeFrom maps fuel' (gap ++ g) depth x := by
  induction h generalizing gap fuel with
  | nil x =>
    refine ⟨fuel, hf, ?_⟩
    rw [List.nil_append, List.append_nil]
  | @step c w g x h hg ih =>
    simp only [List.cons_append, List.append_assoc, List.length_cons, List.length_append] at hf
    obtain ⟨fuel, rfl⟩ : ∃ k, fuel = k + 1 := ⟨fuel - 1, by omega⟩
    have hf' : (g ++ x).length ≤ fuel := by
      rw [List.length_append]
      omega
    obtain ⟨fuel', hle, heq⟩ := ih (gap ++ c :: w) hf'
    refine ⟨fuel', hle, ?_⟩
    rw [List.cons_append, List.append_assoc, tokenizeFrom, h]
    simp only [List.isEmpty_cons, Bool.false_eq_true, ↓reduceIte, List.take_succ_cons,
      List.take_left, List.drop_succ_cons, List.drop_left]
    rw [heq, List.append_assoc, List.cons_append]

theorem tokenizeFrom_nil (fuel : Nat) (gap : Text) (depth : Int) :
    tokenizeFrom maps fuel gap depth [] = [] := by
  cases fuel with
  | zero => rfl
  | succ fuel =>
    have hs : lexStep [] = .skip 0 := by
      unfold lexStep
      rfl
    rw [tokenizeFrom, hs]
    rfl

theorem tokenizeFrom_layout {ls : List Lexeme} {tail : Text} (h : ReadAs ls tail) (depth : Int)
    {fuel : Nat} (hf : (renderLexemes ls tail).length ≤ fuel) :
    tokenizeFrom maps fuel [] depth (renderLexemes ls tail) = layout maps depth ls tail := by
  induction ls generalizing depth fuel with
  | nil =>
    rw [renderLexemes] at hf ⊢
    have hskip : Skips tail [] := h
    have hlen : (tail ++ []).length ≤ fuel := by rwa [List.append_nil]
    obtain ⟨fuel', -, heq⟩ := @tokenizeFrom_skips maps _ _ hskip [] depth _ hlen
    rw [List.append_nil] at heq
    rw [heq, tokenizeFrom_nil, layout]
  | cons l ls ih =>
    obtain ⟨hl, hrest⟩ := h
    have hgap := hl.gap
    obtain ⟨c, w, htext, hstep⟩ := hl.text
    rw [renderLexemes] at hf ⊢
    obtain ⟨fuel', hle, heq⟩ := @tokenizeFrom_skips maps _ _ hgap [] depth _ hf
    rw [heq, layout, Lexeme.tok, Lexeme.depthBehind, Lexeme.depthAt]
    rw [htext] at hle ⊢
    simp only [List.cons_append, List.length_cons, List.length_append] at hle
    obtain ⟨k, rfl⟩ : ∃ k, fuel' = k + 1 := ⟨fuel' - 1, by omega⟩
    rw [List.cons_append, tokenizeFrom, hstep]
    simp only [List.take_succ_cons, List.take_left, List.drop_succ_cons, List.drop_left,
      List.nil_append]
    rw [ih hrest _ (by omega)]

theorem tokenize_layout {ls : List Lexeme} {tail : Text} (h : ReadAs ls tail) :
    tokenize maps (renderLexemes ls tail) = layout maps 0 ls tail :=
  tokenizeFrom_layout h 0 (Nat.le_refl _)

end Layout

/-! ### Columns in the place of a star -/

/-- An identifier, bare or quoted. -/
inductive IsName : Text → Prop where
  | word {c : Char} {w : Text} (hs : isSpace c = false) (hc : isIdStart c = true)
    (hw : ∀ d ∈ w, isIdPart d = true) : IsName (c :: w)
  | quoted {w : Text} (hw : quotedLength '"' w = some w.length) : IsName ('"' :: w)

theorem IsName.ne_nil {q : Text} (h : IsName q) : q ≠ [] := by
  cases h <;> simp

theorem IsName.head {q : Text} (h : IsName q) : ∀ c ∈ q.head?, ¬ isDigitChar c ∧ c ≠ '\'' := by
  cases h with
  | word hs hc hw =>
    intro d hd
    obtain rfl := Option.some.inj hd
    refine ⟨fun hn => ?_, (isIdStart_cases hc).2.2.1⟩
    rw [isDigitChar_not_idStart hn] at hc
    exact absurd hc (by simp)
  | quoted hw =>
    intro d hd
    obtain rfl := Option.some.inj hd
    exact ⟨fun hn => (isDigitChar_cases hn).2.2.2.1 rfl, by simp⟩

/-- A name is one token with a point behind it. -/
theorem IsName.step {q x : Text} (h : IsName q) :
    ∃ c w, q = c :: w ∧ lexStep (c :: (w ++ '.' :: x)) = .token (w.length + 1) := by
  have hdot : ∀ d ∈ ('.' :: x).head?, isIdPart d = false := by
    intro d hd
    obtain rfl := Option.some.inj hd
    decide
  cases h with
  | @word c w hs hc hw =>
    refine ⟨c, w, rfl, ?_⟩
    have hstep : StepsAs c (w ++ '.' :: x) _ := .word hs hc ?_
    · rw [takeWhile_of hw hdot, Nat.add_comm] at hstep
      exact hstep.eq
    · intro _ hr
      cases w with
      | nil => exact absurd hr (by simp)
      | cons d w =>
        have hd : d = '\'' := by simpa using hr
        have hpart := hw d List.mem_cons_self
        rw [hd] at hpart
        exact absurd hpart (by decide)
  | @quoted w hw =>
    refine ⟨'"', w, rfl, ?_⟩
    have hout := quotedLength_extend (x := '.' :: x) (by simp) hw
    have hstep : StepsAs '"' (w ++ '.' :: x) _ := .quoted rfl
    rw [hout] at hstep
    exact hstep.eq

theorem quotedLength_double (field : Text) :
    quotedLength '"' (double field ++ ['"']) = some (double field ++ ['"']).length := by
  induction field with
  | nil => rfl
  | cons c field ih =>
    by_cases hc : c = '"'
    · have hd : double (c :: field) = '"' :: '"' :: double field := by simp [double, hc]
      rw [hd, List.cons_append, List.cons_append, quotedLength, if_pos rfl, if_pos rfl, ih]
      rfl
    · have hd : double (c :: field) = c :: double field := by simp [double, hc]
      rw [hd, List.cons_append]
      cases hrest : double field ++ ['"'] with
      | nil => simp at hrest
      | cons e rest =>
        rw [quotedLength, if_neg hc, ← hrest, ih]
        rfl

theorem quoteIdent_isName (field : Text) : IsName (quoteIdent field) := by
  have hlen := quotedLength_double field
  exact .quoted hlen

theorem quoteIdent_step (field : Text) {x : Text} (hx : x.head? ≠ some '"') :
    ∃ c w, quoteIdent field = c :: w ∧ lexStep (c :: (w ++ x)) = .token (w.length + 1) := by
  refine ⟨'"', double field ++ ['"'], rfl, ?_⟩
  have hout := quotedLength_extend hx (quotedLength_double field)
  have hstep : StepsAs '"' (double field ++ ['"'] ++ x) _ := .quoted rfl
  rw [hout] at hstep
  exact hstep.eq

/-- The name of a column in a text, with its qualifier if it has one. -/
def columnLexemes (gap : Text) : Option Text × Text → List Lexeme
  | (some q, field) => [⟨gap, q⟩, ⟨[], ['.']⟩, ⟨[], quoteIdent field⟩]
  | (none, field) => [⟨gap, quoteIdent field⟩]

def columnsLexemes : Text → List (Option Text × Text) → List Lexeme
  | _, [] => []
  | gap, [col] => columnLexemes gap col
  | gap, col :: cols => columnLexemes gap col ++ ⟨[], [',']⟩ :: columnsLexemes [' '] cols

theorem renderLexemes_append (a b : List Lexeme) (tail : Text) :
    renderLexemes (a ++ b) tail = renderLexemes a (renderLexemes b tail) := by
  induction a with
  | nil => rfl
  | cons l a ih => rw [List.cons_append, renderLexemes, renderLexemes, ih]

theorem readAs_cons {l : Lexeme} {ls : List Lexeme} {tail : Text} :
    ReadAs (l :: ls) tail ↔ l.Read (renderLexemes ls tail) ∧ ReadAs ls tail := Iff.rfl

theorem punctuation_read {c : Char} (hs : isSpace c = false) (hc : isIdStart c = false)
    (hn : ¬ isDigitChar c) (hp : c ≠ '-' ∧ c ≠ '/' ∧ c ≠ '\'' ∧ c ≠ '"') (x : Text) :
    (⟨[], [c]⟩ : Lexeme).Read x where
  gap := .nil _
  text := ⟨c, [], rfl, (StepsAs.other hs (fun h => absurd h hp.1) (fun h => absurd h hp.2.1) hp.2.2.1
    hp.2.2.2 hc hn).eq⟩

theorem dot_read (x : Text) : (⟨[], ['.']⟩ : Lexeme).Read x :=
  punctuation_read (by decide) (by decide) (by unfold isDigitChar; decide) (by decide) x

theorem comma_read (x : Text) : (⟨[], [',']⟩ : Lexeme).Read x :=
  punctuation_read (by decide) (by decide) (by unfold isDigitChar; decide) (by decide) x

theorem quoteIdent_head (field x : Text) : (quoteIdent field ++ x).head? = some '"' := rfl

/-- What a column is named by, and what the lexer can skip ahead of it. -/
structure ColumnOk (gap : Text) (col : Option Text × Text) : Prop where
  name : ∀ q ∈ col.1, IsName q
  gap : ∀ x, Skips gap ((col.1.getD (quoteIdent col.2)) ++ x)

theorem columnLexemes_read {gap : Text} {col : Option Text × Text} (h : ColumnOk gap col)
    {b : List Lexeme} {tail : Text} (hb : ReadAs b tail)
    (hx : (renderLexemes b tail).head? ≠ some '"') :
    ReadAs (columnLexemes gap col ++ b) tail := by
  obtain ⟨q, field⟩ := col
  have hfield (g : Text) (hg : Skips g (quoteIdent field ++ renderLexemes b tail)) :
      ReadAs (⟨g, quoteIdent field⟩ :: b) tail := ⟨⟨hg, quoteIdent_step field hx⟩, hb⟩
  cases q with
  | none => exact hfield gap (h.gap _)
  | some q => exact ⟨⟨h.gap _, (h.name q rfl).step⟩, dot_read _, hfield [] (.nil _)⟩

theorem space_skips (x : Text) : Skips [' '] x :=
  .step (w := []) (StepsAs.space (by decide)).eq (.nil x)

theorem columnsLexemes_read {b : List Lexeme} {tail : Text} (hb : ReadAs b tail)
    (hx : (renderLexemes b tail).head? ≠ some '"')
    {gap : Text} {cols : List (Option Text × Text)} (hne : cols ≠ [])
    (hfirst : ∀ col ∈ cols.head?, ColumnOk gap col)
    (hnames : ∀ col ∈ cols, ∀ q ∈ col.1, IsName q) :
    ReadAs (columnsLexemes gap cols ++ b) tail := by
  induction cols generalizing gap with
  | nil => exact absurd rfl hne
  | cons col cols ih =>
    cases cols with
    | nil => exact columnLexemes_read (hfirst col rfl) hb hx
    | cons col' cols =>
      have hnext : ReadAs (columnsLexemes [' '] (col' :: cols) ++ b) tail := by
        refine ih (by simp) ?_ fun c hc => hnames c (List.mem_cons_of_mem _ hc)
        intro c hc
        obtain rfl := Option.some.inj hc
        exact ⟨hnames _ (List.mem_cons_of_mem _ List.mem_cons_self), fun x => space_skips _⟩
      have hcomma : ReadAs (⟨[], [',']⟩ :: (columnsLexemes [' '] (col' :: cols) ++ b)) tail :=
        ⟨comma_read _, hnext⟩
      rw [columnsLexemes, List.append_assoc, List.cons_append]
      · exact columnLexemes_read (hfirst col rfl) hcomma (by simp [renderLexemes])
      · simp

theorem skip_head {c : Char} {rest : Text} {n : Nat} (h : lexStep (c :: rest) = .skip n) : c ≠ '"' := by
  rintro rfl
  have hstep : StepsAs '"' rest _ := .quoted rfl
  rw [hstep.eq] at h
  exact absurd h (by simp)

theorem token_head {c : Char} {rest : Text} {n : Nat} (h : lexStep (c :: rest) = .token n) :
    c ≠ '\'' := by
  rintro rfl
  have hstep : StepsAs '\'' rest _ := .string rfl
  rw [hstep.eq] at h
  exact absurd h (by simp)

/-- What the lexer skips does not depend on the text behind it, but for its first character. -/
theorem Skips.follow {g x x' : Text} (h : Skips g x)
    (hf : ∀ w : Text, w.head? ≠ some '"' → FollowOk w x x') : Skips g x' := by
  induction h with
  | nil x => exact .nil x'
  | @step c w g x h hg ih =>
    refine .step ?_ (ih hf)
    rw [← h]
    refine lexStep_follow (x := g ++ x) ?_ (by rw [h]; rfl)
    cases g with
    | nil => exact hf (c :: w) fun hc => skip_head h (Option.some.inj hc)
    | cons d g =>
      refine .same (by simp) rfl fun _ => ?_
      have hx := List.length_pos_iff.mpr (hf [] (by simp)).was
      simp only [List.cons_append, List.length_cons, List.length_append]
      omega

theorem Lexeme.Read.head {l : Lexeme} {rest : Text} (h : l.Read rest) :
    ∃ c w, l.text = c :: w ∧ c ≠ '\'' := by
  obtain ⟨c, w, htext, hstep⟩ := h.text
  exact ⟨c, w, htext, token_head hstep⟩

/-- A token is read from the same text whatever comes behind it in the same way. -/
theorem Lexeme.Read.follow {l : Lexeme} {x x' : Text} (h : l.Read x)
    (hf : x = x' ∨ FollowOk l.text x x') : l.Read x' := by
  obtain ⟨c, w, htext, hstep⟩ := h.text
  have hc := token_head hstep
  rcases hf with rfl | hf
  · exact h
  rw [htext] at hf
  refine ⟨?_, c, w, htext, ?_⟩
  · have hgap := h.gap
    rw [htext] at hgap ⊢
    refine hgap.follow fun v _ => .same (by simp) rfl ?_
    intro hq
    exact absurd (Option.some.inj hq) hc
  · rw [← hstep]
    exact lexStep_follow hf (by rw [hstep]; rfl)

/-- A text in whose place another may stand behind any token, or any but a quoted one. -/
def SameStart (x x' : Text) : Prop :=
  x = x' ∨ ∀ w : Text, (w.head? = some '"' → x'.head? = x.head?) → FollowOk w x x'

/-- The same row of lexemes, but for stars in whose place columns stand. -/
inductive Respell : List Lexeme → List Lexeme → Prop where
  | nil : Respell [] []
  | keep {a b : List Lexeme} (l : Lexeme) (h : l.text.head? = some '"' → a.head? = b.head?)
    (hab : Respell a b) : Respell (l :: a) (l :: b)
  | qualified {a b : List Lexeme} {q dot star l : Lexeme} {fields : List Text}
    (hq : IsName q.text) (hd : dot.text = ['.']) (hs : star.text = ['*'])
    (hl : l.text.head? ≠ some '"') (hne : fields ≠ []) (hab : Respell (l :: a) (l :: b)) :
    Respell (q :: dot :: star :: l :: a)
      (columnsLexemes q.gap (fields.map fun f => (some q.text, f)) ++ l :: b)
  | bare {a b : List Lexeme} {star l : Lexeme} {cols : List (Option Text × Text)}
    (hs : star.text = ['*']) (hl : l.text.head? ≠ some '"') (hne : cols ≠ [])
    (hcols : ∀ col ∈ cols, ∀ q ∈ col.1, ∃ a, q = quoteIdent a) (hab : Respell (l :: a) (l :: b)) :
    Respell (star :: l :: a) (columnsLexemes star.gap cols ++ l :: b)

theorem renderLexemes_head {l : Lexeme} {ls : List Lexeme} {tail rest : Text} (h : l.Read rest) :
    (renderLexemes (l :: ls) tail).head? = (l.gap ++ l.text).head? := by
  obtain ⟨c, w, htext, -⟩ := h.text
  rw [renderLexemes, ← List.append_assoc, head_append _ (by simp [htext])]

theorem Skips.head {g x : Text} (h : Skips g x) : g.head? ≠ some '"' := by
  cases h with
  | nil => simp
  | step h hg => exact fun hc => skip_head h (Option.some.inj hc)

/-- Two texts that start with the same skipped text, or with tokens of the same start. -/
theorem sameStart_gap {g t t' : Text} (x x' : Text) (ht : t ≠ []) (ht' : t' ≠ [])
    (ha : t.head? ≠ some '\'') (h : g ≠ [] ∨ t'.head? = t.head?) :
    SameStart (g ++ (t ++ x)) (g ++ (t' ++ x')) := by
  refine Or.inr fun w _ => .same (by simp [ht]) ?_ ?_
  · cases g with
    | nil =>
      rcases h with h | h
      · exact absurd rfl h
      · rw [List.nil_append, List.nil_append, head_append _ ht, head_append _ ht']
        exact h
    | cons c g => rfl
  · intro hq
    cases g with
    | nil =>
      rw [List.nil_append, head_append _ ht] at hq
      exact absurd hq ha
    | cons c g =>
      have hlen := List.length_pos_iff.mpr ht
      simp only [List.cons_append, List.length_cons, List.length_append]
      omega

theorem Lexeme.Read.sameStart {l : Lexeme} {rest : Text} (h : l.Read rest) (x x' : Text) :
    SameStart (l.gap ++ (l.text ++ x)) (l.gap ++ (l.text ++ x')) := by
  obtain ⟨c, w, htext, hc⟩ := h.head
  refine sameStart_gap x x' (by simp [htext]) (by simp [htext]) ?_ (Or.inr rfl)
  rw [htext]
  exact fun he => hc (Option.some.inj he)

theorem SameStart.followOk {w x x' : Text} (h : SameStart x x')
    (hw : w.head? = some '"' → x'.head? = x.head?) : x = x' ∨ FollowOk w x x' :=
  h.imp_right fun hf => hf w hw

theorem renderLexemes_not_quoted {l : Lexeme} {ls : List Lexeme} {tail : Text}
    (h : ReadAs (l :: ls) tail) (hl : l.text.head? ≠ some '"') :
    (renderLexemes (l :: ls) tail).head? ≠ some '"' := by
  rw [renderLexemes_head h.1]
  cases hg : l.gap with
  | nil => exact hl
  | cons c g =>
    have hskip := h.1.gap.head
    rw [hg] at hskip
    exact hskip

theorem columnsLexemes_render {gap : Text} {cols : List (Option Text × Text)} (hne : cols ≠ [])
    (b : List Lexeme) (tail : Text) :
    ∃ col ∈ cols.head?, ∃ x, renderLexemes (columnsLexemes gap cols ++ b) tail =
      gap ++ (col.1.getD (quoteIdent col.2) ++ x) := by
  obtain ⟨⟨q, field⟩, cols, rfl⟩ := List.exists_cons_of_ne_nil hne
  refine ⟨(q, field), rfl, ?_⟩
  cases cols with
  | nil => cases q <;> exact ⟨_, rfl⟩
  | cons col cols => cases q <;> exact ⟨_, rfl⟩

/-- The new row is read as it is written. -/
theorem Respell.read {a b : List Lexeme} (h : Respell a b) {tail : Text} (ha : ReadAs a tail) :
    ReadAs b tail ∧ SameStart (renderLexemes a tail) (renderLexemes b tail) := by
  induction h with
  | nil => exact ⟨ha, Or.inl rfl⟩
  | @keep a b l hglue hab ih =>
    obtain ⟨hl, hrest⟩ := ha
    obtain ⟨hb, hstart⟩ := ih hrest
    have hhead : l.text.head? = some '"' →
        (renderLexemes b tail).head? = (renderLexemes a tail).head? := by
      intro hq
      have heads := hglue hq
      cases a with
      | nil =>
        obtain rfl : b = [] := List.head?_eq_none_iff.mp heads.symm
        rfl
      | cons m a =>
        cases b with
        | nil => exact absurd heads (by simp)
        | cons m' b =>
          obtain rfl := Option.some.inj heads
          rw [renderLexemes_head hb.1, renderLexemes_head hrest.1]
    exact ⟨⟨hl.follow (hstart.followOk hhead), hb⟩, hl.sameStart _ _⟩
  | @qualified a b q dot star l fields hq hd hs hl hne hab ih =>
    obtain ⟨hqr, -, -, hrest⟩ := ha
    have hb := (ih hrest).1
    obtain ⟨c, w, htext, hc⟩ := hqr.head
    have hgap : ∀ x, Skips q.gap (q.text ++ x) := by
      intro x
      refine hqr.gap.follow fun v _ => .same (by simp [htext]) (by simp [htext]) ?_
      rw [htext]
      exact fun he => absurd (Option.some.inj he) hc
    have hcols : (fields.map fun f => (some q.text, f)) ≠ [] := by simpa using hne
    refine ⟨columnsLexemes_read hb (renderLexemes_not_quoted hb hl) hcols ?_ ?_, ?_⟩
    · intro col hcol
      obtain ⟨f, -, rfl⟩ := List.mem_map.mp (List.mem_of_mem_head? hcol)
      exact ⟨fun q' hq' => by rw [← Option.some.inj hq']; exact hq, hgap⟩
    · intro col hcol q' hq'
      obtain ⟨f, -, rfl⟩ := List.mem_map.mp hcol
      rw [← Option.some.inj hq']
      exact hq
    · obtain ⟨col, hcol, x, hx⟩ := @columnsLexemes_render q.gap _ hcols (l :: b) tail
      obtain ⟨f, -, rfl⟩ := List.mem_map.mp (List.mem_of_mem_head? hcol)
      rw [hx]
      exact hqr.sameStart _ _
  | @bare a b star l cols hs hl hne hcols hab ih =>
    obtain ⟨hsr, hrest⟩ := ha
    have hb := (ih hrest).1
    have hquoted : ∀ col ∈ cols, ∃ y, col.1.getD (quoteIdent col.2) = '"' :: y := by
      intro col hcol
      cases hq : col.1 with
      | none => exact ⟨_, rfl⟩
      | some q =>
        obtain ⟨a', rfl⟩ := hcols col hcol q hq
        exact ⟨_, rfl⟩
    have hgap : ∀ col ∈ cols, ∀ x, Skips star.gap (col.1.getD (quoteIdent col.2) ++ x) := by
      intro col hcol x
      obtain ⟨y, hy⟩ := hquoted col hcol
      rw [hy]
      exact hsr.gap.follow fun w hw => .quote_of (by simp [hs]) hw
    have hnames : ∀ col ∈ cols, ∀ q ∈ col.1, IsName q := by
      intro col hcol q hq
      obtain ⟨a', rfl⟩ := hcols col hcol q hq
      exact quoteIdent_isName a'
    refine ⟨columnsLexemes_read hb (renderLexemes_not_quoted hb hl) hne ?_ hnames, ?_⟩
    · intro col hcol
      exact ⟨hnames col (List.mem_of_mem_head? hcol), hgap col (List.mem_of_mem_head? hcol)⟩
    · obtain ⟨col, hcol, x, hx⟩ := @columnsLexemes_render star.gap _ hne (l :: b) tail
      obtain ⟨y, hy⟩ := hquoted col (List.mem_of_mem_head? hcol)
      rw [hx, renderLexemes, hy, hs]
      cases hg : star.gap with
      | nil =>
        refine Or.inr fun w hw => .quote_of (by simp) ?_
        exact fun hwq => absurd (hw hwq) (by simp)
      | cons c g => exact sameStart_gap _ _ (by simp) (by simp) (by simp) (Or.inl (by simp))

end FastFirebird
