import FastFirebird.ExpandStar
import FastFirebird.LeadingWords

/-! The lexer of `expand-star.ts` read the other way: which rows of lexemes a text is made of,
and that some of them can be replaced without the others being read differently. -/
namespace FastFirebird

/-! ### What a step takes -/

theorem lineLength_le (text : Text) : lineLength text ≤ text.length := by
  induction text with
  | nil => exact Nat.le_refl 0
  | cons c rest ih =>
    rw [lineLength]
    split
    · exact Nat.le_add_left 1 _
    · exact Nat.succ_le_succ ih

theorem lineLength_pos {text : Text} (h : text ≠ []) : 1 ≤ lineLength text := by
  cases text with
  | nil => exact absurd rfl h
  | cons c rest =>
    rw [lineLength]
    split
    · exact Nat.le_refl 1
    · exact Nat.le_add_left 1 _

/-- A line that ends in a text ends there whatever comes behind. -/
theorem lineLength_extend {w x : Text} (x' : Text) (hx : x ≠ [])
    (h : lineLength (w ++ x) = w.length) : lineLength (w ++ x') = w.length := by
  induction w with
  | nil =>
    have hpos := lineLength_pos hx
    rw [List.nil_append] at h
    rw [h] at hpos
    exact absurd hpos (by simp)
  | cons c w ih =>
    rw [List.cons_append, lineLength] at h ⊢
    split at h
    · rename_i hc
      rw [if_pos hc]
      exact h
    · rename_i hc
      rw [if_neg hc, ih (Nat.succ.inj h)]
      rfl

theorem quotedLength_extend {q : Char} {x : Text} (hx : x.head? ≠ some q) :
    ∀ {w : Text} {k : Nat}, quotedLength q w = some k → quotedLength q (w ++ x) = some k
  | [], k, h => by simp [quotedLength] at h
  | [c], k, h => by
    cases x with
    | nil => exact h
    | cons d x =>
      have hd : d ≠ q := fun he => hx (by rw [he]; rfl)
      rw [quotedLength] at h
      rw [List.singleton_append, quotedLength, if_neg hd]
      split at h
      · rename_i hc
        rw [if_pos hc, h]
      · simp [quotedLength] at h
  | c :: d :: w, k, h => by
    rw [quotedLength] at h
    rw [List.cons_append, List.cons_append, quotedLength]
    split at h
    · rename_i hc
      rw [if_pos hc]
      split at h
      · rename_i hd
        obtain ⟨j, hj, rfl⟩ := Option.map_eq_some_iff.mp h
        rw [if_pos hd, quotedLength_extend hx hj]
        rfl
      · rename_i hd
        rw [if_neg hd, h]
    · rename_i hc
      obtain ⟨j, hj, rfl⟩ := Option.map_eq_some_iff.mp h
      have hi := quotedLength_extend hx hj
      rw [List.cons_append] at hi
      rw [if_neg hc, hi]
      rfl

/-- A closing quote has no second one behind it. -/
theorem quotedLength_doubled {q : Char} {x : Text} : ∀ {w : Text},
    quotedLength q (w ++ q :: x) ≠ some w.length
  | [] => fun h => by
    have hpos := (quotedLength_bound h).1
    simp at hpos
  | [c] => fun h => by
    rw [List.singleton_append, quotedLength] at h
    split at h
    · rw [if_pos rfl] at h
      obtain ⟨j, -, hj⟩ := Option.map_eq_some_iff.mp h
      simp at hj
    · obtain ⟨j, hj, hlen⟩ := Option.map_eq_some_iff.mp h
      have hpos := (quotedLength_bound hj).1
      simp at hlen
      omega
  | c :: d :: w => fun h => by
    rw [List.cons_append, List.cons_append, quotedLength] at h
    split at h
    · split at h
      · obtain ⟨j, hj, hlen⟩ := Option.map_eq_some_iff.mp h
        simp only [List.length_cons] at hlen
        obtain rfl : j = w.length := by omega
        exact quotedLength_doubled hj
      · simp at h
    · obtain ⟨j, hj, hlen⟩ := Option.map_eq_some_iff.mp h
      simp only [List.length_cons] at hlen
      obtain rfl : j = (d :: w).length := by
        simp only [List.length_cons]
        omega
      exact quotedLength_doubled (w := d :: w) hj

theorem quotedLength_follow {q : Char} {w x : Text}
    (h : quotedLength q (w ++ x) = some w.length) : x.head? ≠ some q := by
  intro hx
  rw [head_cons hx] at h
  exact quotedLength_doubled h

theorem takeWhile_exact {p : Char → Bool} {w x : Text}
    (h : ((w ++ x).takeWhile p).length = w.length) :
    (∀ c ∈ w, p c = true) ∧ ∀ d ∈ x.head?, p d = false := by
  induction w with
  | nil =>
    refine ⟨by simp, ?_⟩
    cases x with
    | nil => simp
    | cons d x =>
      rw [List.nil_append, List.takeWhile_cons] at h
      intro e he
      obtain rfl := Option.some.inj he
      split at h
      · simp at h
      · exact Bool.eq_false_iff.mpr ‹_›
  | cons c w ih =>
    rw [List.cons_append, List.takeWhile_cons] at h
    split at h
    · rename_i hc
      obtain ⟨hw, hx⟩ := ih (by simpa using h)
      refine ⟨fun d hd => ?_, hx⟩
      rcases List.mem_cons.mp hd with rfl | hd
      · exact hc
      · exact hw d hd
    · simp at h

theorem takeWhile_of {p : Char → Bool} {w x : Text} (hw : ∀ c ∈ w, p c = true)
    (hx : ∀ d ∈ x.head?, p d = false) : (w ++ x).takeWhile p = w := by
  rw [List.takeWhile_append_of_pos hw]
  cases x with
  | nil => simp
  | cons d x =>
    rw [List.takeWhile_cons, hx d rfl]
    simp

/-- A text in whose place another may stand behind `w`. -/
structure FollowOk (w x x' : Text) : Prop where
  was : x ≠ []
  now : x' ≠ []
  dash : x'.head? = some '-' → x.head? = some '-'
  star : x'.head? = some '*' → x.head? = some '*'
  apostrophe : x'.head? = some '\'' → x.head? = some '\'' ∧ 2 ≤ x.length
  quote : w.head? = some '"' → x'.head? = some '"' → x.head? = some '"'
  word : (∀ d ∈ x.head?, isIdPart d = false) → ∀ d ∈ x'.head?, isIdPart d = false
  number : (∀ c ∈ w.head?, '0' ≤ c ∧ c ≤ '9') → (∀ d ∈ x.head?, isNumPart d = false) →
    ∀ d ∈ x'.head?, isNumPart d = false

def isDigitChar (c : Char) : Prop := '0' ≤ c ∧ c ≤ '9'

/-- The step from a first character and what is behind it, by its cases. -/
inductive StepsAs (c : Char) (rest : Text) : LexStep → Prop where
  | space (hs : isSpace c = true) : StepsAs c rest (.skip 1)
  | line (hc : c = '-') (hr : rest.head? = some '-') : StepsAs c rest (.skip (1 + lineLength rest))
  | block (hc : c = '/') (hr : rest.head? = some '*') :
    StepsAs c rest
      (.skip (((pairAt '*' '/' (rest.drop 1)).map (· + 4)).getD (rest.length + 1)))
  | string (hc : c = '\'') :
    StepsAs c rest (.skip (((quotedLength '\'' rest).map (· + 1)).getD (rest.length + 1)))
  | qLiteral (hc : c = 'q' ∨ c = 'Q') (hr : rest.head? = some '\'') (hlen : 2 ≤ rest.length) :
    StepsAs c rest (.skip (((pairAt (qCloser (rest.getD 1 c)) '\'' (rest.drop 2)).map (· + 5)).getD
      (rest.length + 1)))
  | quoted (hc : c = '"') :
    StepsAs c rest (.token (((quotedLength '"' rest).map (· + 1)).getD (rest.length + 1)))
  | word (hs : isSpace c = false) (hc : isIdStart c = true)
      (hq : (c = 'q' ∨ c = 'Q') → rest.head? = some '\'' → rest.length < 2) :
    StepsAs c rest (.token (1 + (rest.takeWhile isIdPart).length))
  | number (hs : isSpace c = false) (hc : isDigitChar c) :
    StepsAs c rest (.token (1 + (rest.takeWhile isNumPart).length))
  | other (hs : isSpace c = false) (hd : c = '-' → rest.head? ≠ some '-')
      (hb : c = '/' → rest.head? ≠ some '*') (ha : c ≠ '\'') (hq : c ≠ '"')
      (hi : isIdStart c = false) (hn : ¬ isDigitChar c) : StepsAs c rest (.token 1)

theorem lexStep_stepsAs (c : Char) (rest : Text) : StepsAs c rest (lexStep (c :: rest)) := by
  unfold lexStep
  dsimp only
  split
  · exact .space ‹_›
  rename_i hs
  have hspace := Bool.eq_false_iff.mpr hs
  split
  · rename_i hc
    exact .line hc.1 hc.2
  rename_i hdash
  split
  · rename_i hc
    exact .block hc.1 hc.2
  rename_i hslash
  split
  · rename_i hc
    subst hc
    exact .string rfl
  rename_i happos
  split
  · rename_i hc
    exact .qLiteral hc.1 hc.2.1 (by have := hc.2.2; simp only [List.length_cons] at this; omega)
  rename_i hqlit
  split
  · rename_i hc
    subst hc
    exact .quoted rfl
  rename_i hquote
  split
  · rename_i hc
    refine .word hspace hc fun hq hr => ?_
    by_contra hlen
    exact hqlit ⟨hq, hr, by simp only [List.length_cons]; omega⟩
  rename_i hword
  split
  · exact .number hspace ‹_›
  · rename_i hnum
    exact .other hspace (fun h h' => hdash ⟨h, h'⟩) (fun h h' => hslash ⟨h, h'⟩) happos hquote
      (Bool.eq_false_iff.mpr hword) hnum

theorem isIdStart_cases {c : Char} (h : isIdStart c = true) :
    c ≠ '-' ∧ c ≠ '/' ∧ c ≠ '\'' ∧ c ≠ '"' := by
  refine ⟨?_, ?_, ?_, ?_⟩ <;> rintro rfl <;> exact absurd h (by decide)

theorem isDigitChar_cases {c : Char} (h : isDigitChar c) :
    c ≠ '-' ∧ c ≠ '/' ∧ c ≠ '\'' ∧ c ≠ '"' ∧ c ≠ 'q' ∧ c ≠ 'Q' := by
  refine ⟨?_, ?_, ?_, ?_, ?_, ?_⟩ <;> rintro rfl <;> exact absurd h (by unfold isDigitChar; decide)

theorem isDigitChar_not_idStart {c : Char} (h : isDigitChar c) : isIdStart c = false := by
  have h₁ : 48 ≤ c.toNat := h.1
  have h₂ : c.toNat ≤ 57 := h.2
  apply Bool.eq_false_iff.mpr
  intro hi
  simp only [isIdStart, Bool.or_eq_true, Bool.and_eq_true, decide_eq_true_eq, beq_iff_eq] at hi
  rcases hi with (((⟨hi, -⟩ | ⟨hi, -⟩) | rfl) | rfl) | hi
  · have : 65 ≤ c.toNat := hi
    omega
  · have : 97 ≤ c.toNat := hi
    omega
  · exact absurd h₂ (by decide)
  · exact absurd h₁ (by decide)
  · omega

theorem StepsAs.eq {c : Char} {rest : Text} {s : LexStep} (h : StepsAs c rest s) :
    lexStep (c :: rest) = s := by
  unfold lexStep
  cases h with
  | space hs => simp only [hs, ↓reduceIte]
  | line hc hr =>
    subst hc
    simp [hr, show isSpace '-' = false by decide]
  | block hc hr =>
    subst hc
    simp [hr, show isSpace '/' = false by decide]
  | string hc =>
    subst hc
    simp [show isSpace '\'' = false by decide]
  | qLiteral hc hr hlen =>
    have hlen' : 2 < (c :: rest).length := by
      simp only [List.length_cons]
      omega
    rcases hc with rfl | rfl
    · simp [hr, show isSpace 'q' = false by decide]
      omega
    · simp [hr, show isSpace 'Q' = false by decide]
      omega
  | quoted hc =>
    subst hc
    simp [show isSpace '"' = false by decide]
  | word hs hc hq =>
    obtain ⟨h₁, h₂, h₃, h₄⟩ := isIdStart_cases hc
    have hq' : ¬ ((c = 'q' ∨ c = 'Q') ∧ rest.head? = some '\'' ∧ 2 < (c :: rest).length) := by
      rintro ⟨ha, hb, hl⟩
      have := hq ha hb
      simp only [List.length_cons] at hl
      omega
    simp only [hs, h₁, h₂, h₃, h₄, hq', hc, false_and, Bool.false_eq_true, ↓reduceIte]
  | number hs hc =>
    obtain ⟨h₁, h₂, h₃, h₄, h₅, h₆⟩ := isDigitChar_cases hc
    have hi := isDigitChar_not_idStart hc
    have hd : '0' ≤ c ∧ c ≤ '9' := hc
    simp only [hs, h₁, h₂, h₃, h₄, h₅, h₆, hi, hd, false_and, or_self, Bool.false_eq_true, and_self,
      ↓reduceIte]
  | other hs hd hb ha hq hi hn =>
    have hd' : ¬ (c = '-' ∧ rest.head? = some '-') := fun h => hd h.1 h.2
    have hb' : ¬ (c = '/' ∧ rest.head? = some '*') := fun h => hb h.1 h.2
    have hn' : ¬ ('0' ≤ c ∧ c ≤ '9') := hn
    have hql : ¬ ((c = 'q' ∨ c = 'Q') ∧ rest.head? = some '\'' ∧ 2 < (c :: rest).length) := by
      rintro ⟨rfl | rfl, -⟩ <;> exact absurd hi (by decide)
    simp only [hs, hd', hb', ha, hq, hi, hn', hql, Bool.false_eq_true, ↓reduceIte]

/-- A search that ends inside of `w`; one that fails takes the text to its end. -/
theorem search_exact {o : Option Nat} {x : Text} {k m n : Nat} (hx : x ≠ [])
    (h : (o.map (· + k)).getD (n + x.length + 1) = m) (hm : m ≤ n + 1) : o.map (· + k) = some m := by
  cases o with
  | none =>
    have hlen := List.length_pos_iff.mpr hx
    simp only [Option.map_none, Option.getD_none] at h
    omega
  | some j =>
    simp only [Option.map_some, Option.getD_some] at h
    simp [h]

theorem head_append {w : Text} (x : Text) (hw : w ≠ []) : (w ++ x).head? = w.head? := by
  cases w with
  | nil => exact absurd rfl hw
  | cons c w => rfl

section Follow

variable {c : Char} {w x x' : Text}

/-- Only the first character behind it has a say in how far a step goes. -/
theorem lexStep_follow (hf : FollowOk (c :: w) x x')
    (h : (lexStep (c :: (w ++ x))).length = w.length + 1) :
    lexStep (c :: (w ++ x')) = lexStep (c :: (w ++ x)) := by
  have hstep := lexStep_stepsAs c (w ++ x)
  have hx := hf.was
  apply StepsAs.eq
  generalize hs : lexStep (c :: (w ++ x)) = s at h hstep
  cases hstep with
  | space hc => exact .space hc
  | line hc hr =>
    have hlen : lineLength (w ++ x) = w.length := by
      simp only [LexStep.length] at h
      omega
    have hw : w ≠ [] := by
      rintro rfl
      have hpos := lineLength_pos hx
      rw [List.nil_append] at hlen
      rw [hlen] at hpos
      simp at hpos
    rw [hlen, ← lineLength_extend x' hx hlen]
    refine .line hc ?_
    rw [head_append x' hw, ← head_append x hw]
    exact hr
  | block hc hr =>
    simp only [LexStep.length, List.length_append] at h
    have hfound := search_exact hx h (Nat.le_refl _)
    obtain ⟨j, hj, hlen⟩ := Option.map_eq_some_iff.mp hfound
    have hw : w ≠ [] := by
      rintro rfl
      simp at hlen
    obtain ⟨d, w, rfl⟩ := List.exists_cons_of_ne_nil hw
    simp only [List.cons_append, List.drop_succ_cons, List.drop_zero, List.length_cons] at hj hlen
    have hin := pairAt_slice hj (by omega)
    have hout := pairAt_extend x' hin
    have hb := @StepsAs.block c (d :: w ++ x') hc hr
    simp only [List.cons_append, List.drop_succ_cons, List.drop_zero, hout, hj, Option.map_some,
      Option.getD_some] at hb ⊢
    exact hb
  | string hc =>
    simp only [LexStep.length, List.length_append] at h
    have hfound := search_exact hx h (Nat.le_refl _)
    obtain ⟨j, hj, hlen⟩ := Option.map_eq_some_iff.mp hfound
    obtain rfl : j = w.length := by omega
    have hne := quotedLength_follow hj
    have hne' : x'.head? ≠ some '\'' := fun he => hne (hf.apostrophe he).1
    have hout := quotedLength_extend hne' (quotedLength_slice hj (Nat.le_refl _))
    have hb := @StepsAs.string c (w ++ x') hc
    simp only [hout, hj, Option.map_some, Option.getD_some] at hb ⊢
    exact hb
  | qLiteral hc hr hlen2 =>
    simp only [LexStep.length, List.length_append] at h
    have hfound := search_exact hx h (Nat.le_refl _)
    obtain ⟨j, hj, hlen⟩ := Option.map_eq_some_iff.mp hfound
    match w, hlen with
    | d :: e :: w, hlen =>
      simp only [List.cons_append, List.drop_succ_cons, List.drop_zero, List.length_cons,
        List.getD_cons_succ, List.getD_cons_zero] at hj hlen
      have hin := pairAt_slice hj (by omega)
      have hout := pairAt_extend x' hin
      have hb := @StepsAs.qLiteral c (d :: e :: w ++ x') hc hr (by simp)
      simp only [List.cons_append, List.drop_succ_cons, List.drop_zero, List.getD_cons_succ,
        List.getD_cons_zero, hout, hj, Option.map_some, Option.getD_some] at hb ⊢
      exact hb
  | quoted hc =>
    simp only [LexStep.length, List.length_append] at h
    have hfound := search_exact hx h (Nat.le_refl _)
    obtain ⟨j, hj, hlen⟩ := Option.map_eq_some_iff.mp hfound
    obtain rfl : j = w.length := by omega
    have hne := quotedLength_follow hj
    have hne' : x'.head? ≠ some '"' := fun he => hne (hf.quote (by rw [hc]; rfl) he)
    have hout := quotedLength_extend hne' (quotedLength_slice hj (Nat.le_refl _))
    have hb := @StepsAs.quoted c (w ++ x') hc
    simp only [hout, hj, Option.map_some, Option.getD_some] at hb ⊢
    exact hb
  | word hspace hc hq =>
    simp only [LexStep.length] at h
    have hlen : ((w ++ x).takeWhile isIdPart).length = w.length := by omega
    obtain ⟨hw, hx₁⟩ := takeWhile_exact hlen
    have htake := takeWhile_of hw (hf.word hx₁)
    have hb : StepsAs c (w ++ x') _ := .word hspace hc ?_
    · rw [htake] at hb
      rw [hlen]
      exact hb
    · intro hcq hr
      cases w with
      | nil =>
        obtain ⟨hx', h2⟩ := hf.apostrophe hr
        have := hq hcq hx'
        rw [List.nil_append] at this
        omega
      | cons d w =>
        have hd : d = '\'' := by simpa using hr
        have := hw d List.mem_cons_self
        rw [hd] at this
        exact absurd this (by decide)
  | number hspace hc =>
    simp only [LexStep.length] at h
    have hlen : ((w ++ x).takeWhile isNumPart).length = w.length := by omega
    obtain ⟨hw, hx₁⟩ := takeWhile_exact hlen
    have hfirst : ∀ d ∈ (c :: w).head?, '0' ≤ d ∧ d ≤ '9' := by
      intro d hd
      obtain rfl := Option.some.inj hd
      exact hc
    have htake := takeWhile_of hw (hf.number hfirst hx₁)
    have hb : StepsAs c (w ++ x') _ := .number hspace hc
    rw [htake] at hb
    rw [hlen]
    exact hb
  | other hspace hd hb ha hq hi hn =>
    have hw : w = [] := by
      simp only [LexStep.length] at h
      exact List.length_eq_zero_iff.mp (by omega)
    subst hw
    exact .other hspace (fun hc he => hd hc (hf.dash he)) (fun hc he => hb hc (hf.star he)) ha hq hi hn

end Follow

/-- The same first character, or one that no step reads on from. -/
theorem FollowOk.same {w x x' : Text} (hx : x ≠ []) (h : x'.head? = x.head?)
    (h2 : x.head? = some '\'' → 2 ≤ x.length) : FollowOk w x x' where
  was := hx
  now := by
    rintro rfl
    exact hx (List.head?_eq_none_iff.mp h.symm)
  dash := fun he => h ▸ he
  star := fun he => h ▸ he
  apostrophe := fun he => ⟨h ▸ he, h2 (h ▸ he)⟩
  quote := fun _ he => h ▸ he
  word := fun hw => h ▸ hw
  number := fun _ hn => h ▸ hn

theorem FollowOk.quote_of {w x : Text} {y : Text} (hx : x ≠ []) (hw : w.head? ≠ some '"') :
    FollowOk w x ('"' :: y) where
  was := hx
  now := by simp
  dash := by simp
  star := by simp
  apostrophe := by simp
  quote := fun h => absurd h hw
  word := by simp [isIdPart, isIdStart]
  number := by simp [isNumPart]

end FastFirebird
