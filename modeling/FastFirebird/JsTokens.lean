import FastFirebird.JsLiterals

/-! The tokens of a JavaScript module, as far as it is made of names, numbers, strings and
punctuators. -/
namespace FastFirebird.Js

open Utf16 (units charUnits)

inductive Token where
  | ident (name : Text)
  | string (value : List UInt16)
  | number (text : Text)
  | arrow
  | punct (c : Char)
  deriving Repr, DecidableEq

/-- In the code or in a comment; `opening` and `closing` are inside the marks of a comment. -/
inductive Mode where
  | code
  | line
  | opening
  | block
  | closing

/-- Behind white space and comments; `none` in a comment that is not closed. -/
def skip : Mode → Text → Option Text
  | .code, [] => some []
  | .code, c :: rest =>
    if c = '/' ∧ rest.head? = some '/' then skip .line rest
    else if c = '/' ∧ rest.head? = some '*' then skip .opening rest
    else if isWhite c then skip .code rest else some (c :: rest)
  | .line, [] => some []
  | .line, c :: rest => if isLineEnd c then skip .code rest else skip .line rest
  | .block, c :: rest =>
    if c = '*' ∧ rest.head? = some '/' then skip .closing rest else skip .block rest
  | .opening, _ :: rest => skip .block rest
  | .closing, _ :: rest => skip .code rest
  | _, [] => none

section
variable (ids : IdChars)

/-- The next token, and the text behind it. -/
def next (text : Text) : Option (Token × Text) :=
  match skip .code text with
  | some (c :: rest) =>
    if c = '\'' ∨ c = '"' then
      (readLiteral (c :: rest)).map fun (value, rest) => (.string value, rest)
    else if isIdStart ids c then
      some (.ident (c :: rest.takeWhile (isIdPart ids)), rest.dropWhile (isIdPart ids))
    else if c.isDigit then
      some (.number (c :: rest.takeWhile (isIdPart ids)), rest.dropWhile (isIdPart ids))
    else if c = '=' ∧ rest.head? = some '>' then some (.arrow, rest.drop 1)
    else some (.punct c, rest)
  | _ => none

/-- From one text to the other these are the tokens, white space and comments apart. -/
inductive Run : Text → List Token → Text → Prop where
  | done {text rest : Text} (h : skip .code text = skip .code rest) : Run text [] rest
  | step {text behind rest : Text} {token : Token} {tokens : List Token}
    (h : next ids text = some (token, behind)) (hrun : Run behind tokens rest) :
    Run text (token :: tokens) rest

end

/-- The property that a token names in an object literal. -/
def Token.property : Token → Option (List UInt16)
  | .ident name => some (units name)
  | .string value => some value
  | _ => none

variable {ids : IdChars}

theorem next_congr {text text' : Text} (h : skip .code text = skip .code text') :
    next ids text = next ids text' := by
  rw [next, next, h]

theorem Run.of_skip {text text' rest : Text} {tokens : List Token} (h : Run ids text' tokens rest)
    (hskip : skip .code text = skip .code text') : Run ids text tokens rest := by
  cases h with
  | done hrest => exact .done (hskip.trans hrest)
  | step hnext hrun => exact .step ((next_congr hskip).trans hnext) hrun

theorem Run.append {text mid rest : Text} {a b : List Token} (h : Run ids text a mid)
    (h' : Run ids mid b rest) : Run ids text (a ++ b) rest := by
  induction h with
  | done hskip => exact h'.of_skip hskip
  | step hnext _ ih => exact .step hnext (ih h')

theorem Run.cons_iff {text rest : Text} {token : Token} {tokens : List Token} :
    Run ids text (token :: tokens) rest ↔
      ∃ behind, next ids text = some (token, behind) ∧ Run ids behind tokens rest := by
  constructor
  · rintro (_ | ⟨hnext, hrun⟩)
    exact ⟨_, hnext, hrun⟩
  · rintro ⟨behind, hnext, hrun⟩
    exact .step hnext hrun

/-- Where the tokens are known, they are the ones. -/
theorem Run.cancel {text mid rest : Text} {a a' b : List Token} (h : Run ids text a mid)
    (h' : Run ids text (a' ++ b) rest) (hlength : a'.length = a.length) :
    a' = a ∧ Run ids mid b rest := by
  induction h generalizing a' with
  | done hskip =>
    obtain rfl := List.length_eq_zero_iff.mp hlength
    exact ⟨rfl, h'.of_skip hskip.symm⟩
  | @step text behind mid token tokens hnext hrun ih =>
    obtain ⟨token', a', rfl⟩ : ∃ t ts, a' = t :: ts := by
      cases a' with
      | nil => cases hlength
      | cons t ts => exact ⟨t, ts, rfl⟩
    obtain ⟨behind', hnext', hrun'⟩ := Run.cons_iff.mp h'
    obtain ⟨rfl, rfl⟩ := Prod.mk.inj (Option.some.inj (hnext.symm.trans hnext'))
    obtain ⟨rfl, hrest⟩ := ih hrun' (Nat.succ.inj hlength)
    exact ⟨rfl, hrest⟩

/-- Where the tokens are known, the text goes on behind them. -/
theorem Run.strip {text mid : Text} {a b : List Token} (h : Run ids text a mid)
    (h' : Run ids text b []) : ∃ c, b = a ++ c ∧ Run ids mid c [] := by
  induction h generalizing b with
  | done hskip => exact ⟨b, rfl, h'.of_skip hskip.symm⟩
  | @step text behind mid token tokens hnext hrun ih =>
    cases h' with
    | done hskip =>
      rw [next_congr hskip] at hnext
      cases hnext
    | step hnext' hrun' =>
      obtain ⟨rfl, rfl⟩ := Prod.mk.inj (Option.some.inj (hnext.symm.trans hnext'))
      obtain ⟨c, rfl, hrest⟩ := ih hrun'
      exact ⟨c, rfl, hrest⟩

/-! Up to a comma -/

/-- The depth behind a token; `none` for what ends an expression. -/
def depthBehind (depth : Nat) : Token → Option Nat
  | .punct c =>
    if c = '(' ∨ c = '[' ∨ c = '\x7b' then some (depth + 1)
    else if c = ')' ∨ c = ']' ∨ c = '\x7d' then (if depth = 0 then none else some (depth - 1))
    else if c = ',' ∧ depth = 0 then none
    else some depth
  | _ => some depth

/-- The tokens close what is open, and have no comma outside of that. -/
def Closes (depth : Nat) (tokens : List Token) : Prop := tokens.foldlM depthBehind depth = some 0

instance (depth : Nat) (tokens : List Token) : Decidable (Closes depth tokens) :=
  inferInstanceAs (Decidable (_ = _))

theorem closes_cons {depth : Nat} {token : Token} {tokens : List Token} :
    Closes depth (token :: tokens) ↔ ∃ d, depthBehind depth token = some d ∧ Closes d tokens := by
  rw [Closes, List.foldlM_cons]
  exact Option.bind_eq_some_iff

theorem Closes.append {tokens more : List Token} {depth : Nat} (h : Closes depth tokens)
    (h' : Closes 0 more) : Closes depth (tokens ++ more) := by
  rw [Closes, List.foldlM_append, h]
  exact h'

/-- The first comma outside ends them. -/
theorem Run.closes {text mid rest : Text} {a a' b : List Token} {depth : Nat} (ha : Closes depth a)
    (ha' : Closes depth a') (h : Run ids text (a ++ [.punct ',']) mid)
    (h' : Run ids text (a' ++ .punct ',' :: b) rest) : a' = a ∧ Run ids mid b rest := by
  induction a generalizing text a' depth with
  | nil =>
    obtain rfl : depth = 0 := Option.some.inj ha
    obtain ⟨behind, hnext, hskip⟩ := Run.cons_iff.mp h
    cases a' with
    | nil =>
      obtain ⟨behind', hnext', hrun⟩ := Run.cons_iff.mp h'
      obtain ⟨-, rfl⟩ := Prod.mk.inj (Option.some.inj (hnext.symm.trans hnext'))
      refine ⟨rfl, ?_⟩
      cases hskip with
      | done hskip => exact hrun.of_skip hskip.symm
    | cons t a' =>
      obtain ⟨behind', hnext', -⟩ := Run.cons_iff.mp h'
      obtain ⟨rfl, -⟩ := Prod.mk.inj (Option.some.inj (hnext.symm.trans hnext'))
      obtain ⟨d, hd, -⟩ := closes_cons.mp ha'
      cases hd
  | cons t a ih =>
    obtain ⟨behind, hnext, hrun⟩ := Run.cons_iff.mp h
    obtain ⟨d, hd, hclose⟩ := closes_cons.mp ha
    cases a' with
    | nil =>
      obtain rfl : depth = 0 := Option.some.inj ha'
      obtain ⟨behind', hnext', -⟩ := Run.cons_iff.mp h'
      obtain ⟨rfl, -⟩ := Prod.mk.inj (Option.some.inj (hnext.symm.trans hnext'))
      cases hd
    | cons t' a' =>
      obtain ⟨behind', hnext', hrun'⟩ := Run.cons_iff.mp h'
      obtain ⟨rfl, rfl⟩ := Prod.mk.inj (Option.some.inj (hnext.symm.trans hnext'))
      obtain ⟨d', hd', hclose'⟩ := closes_cons.mp ha'
      obtain rfl := Option.some.inj (hd.symm.trans hd')
      obtain ⟨rfl, hrest⟩ := ih hclose hclose' hrun hrun'
      exact ⟨rfl, hrest⟩

/-! Texts that are read as they are written -/

/-- The text is these tokens, whatever comes behind it. -/
def Renders (ids : IdChars) (text : Text) (tokens : List Token) : Prop :=
  ∀ rest, Run ids (text ++ rest) tokens rest

/-- The text is these tokens, if no character of a name comes behind it. -/
def RendersName (ids : IdChars) (text : Text) (tokens : List Token) : Prop :=
  ∀ rest, (∀ c ∈ rest.head?, isIdPart ids c = false) → Run ids (text ++ rest) tokens rest

theorem Renders.append {a b : Text} {x y : List Token} (ha : Renders ids a x) (hb : Renders ids b y) :
    Renders ids (a ++ b) (x ++ y) := by
  intro rest
  rw [List.append_assoc]
  exact (ha _).append (hb rest)

theorem Renders.read {text x rest : Text} {a b : List Token} (h : Renders ids text a)
    (hrun : Run ids (text ++ x) (a ++ b) rest) : Run ids x b rest :=
  ((h x).cancel hrun rfl).2

/-- A character that ends a name comes first. -/
def endsName (ids : IdChars) (text : Text) : Bool := text.head?.any fun c => !isIdPart ids c

theorem RendersName.append {a b : Text} {x y : List Token} (ha : RendersName ids a x)
    (hb : Renders ids b y) (hends : endsName ids b = true) : Renders ids (a ++ b) (x ++ y) := by
  intro rest
  rw [List.append_assoc]
  refine (ha _ fun d hd => ?_).append (hb rest)
  cases b with
  | nil => cases hends
  | cons c b =>
    obtain rfl := Option.some.inj hd
    have hc : (!isIdPart ids c) = true := hends
    rwa [Bool.not_eq_true'] at hc

theorem RendersName.after {a b : Text} {x y : List Token} (hb : RendersName ids b y)
    (ha : Renders ids a x) : RendersName ids (a ++ b) (x ++ y) := by
  intro rest hrest
  rw [List.append_assoc]
  exact (ha _).append (hb rest hrest)

theorem Renders.name {a : Text} {x : List Token} (h : Renders ids a x) : RendersName ids a x :=
  fun rest _ => h rest

theorem isIdStart_white {c : Char} (h : isWhite c = true) : isIdStart ids c = false := by
  rw [isIdStart]
  split
  · rename_i hascii
    have htable : ∀ n < 128, isWhite (Char.ofNat n) = true →
        ((Char.ofNat n).isAlpha || Char.ofNat n == '$' || Char.ofNat n == '_') = false := by
      decide +kernel
    have hc := htable c.toNat hascii
    rw [Char.ofNat_toNat] at hc
    exact hc h
  · exact ids.white c h

theorem skip_code {c : Char} {rest : Text} (hc : isWhite c = false) (hslash : c ≠ '/') :
    skip .code (c :: rest) = some (c :: rest) := by
  rw [skip, if_neg (fun h => hslash h.1), if_neg (fun h => hslash h.1), hc]
  rfl

/-- A comment up to the end of its line. -/
theorem skip_line {text : Text} (h : ∀ c ∈ text, isLineEnd c = false) (rest : Text) :
    skip .line (text ++ '\n' :: rest) = skip .code rest := by
  induction text with
  | nil => rfl
  | cons c text ih =>
    obtain ⟨hc, htext⟩ := List.forall_mem_cons.mp h
    rw [List.cons_append, skip, hc]
    exact ih htext

/-- A comment without a star. -/
theorem skip_block {text : Text} (h : '*' ∉ text) (rest : Text) :
    skip .block (text ++ '*' :: '/' :: rest) = skip .code rest := by
  induction text with
  | nil => rfl
  | cons c text ih =>
    obtain ⟨hc, htext⟩ := not_or.mp (mt List.mem_cons.mpr h)
    rw [List.cons_append, skip, if_neg fun hstar => hc hstar.1.symm]
    exact ih htext

/-- Nothing but white space and comments. -/
def Trivial (text : Text) : Prop := ∀ rest, skip .code (text ++ rest) = skip .code rest

theorem Trivial.renders {text : Text} (h : Trivial text) : Renders ids text [] :=
  fun rest => .done (h rest)

theorem takeWhile_name {name rest : Text} (hname : name.all (isIdPart ids) = true)
    (hrest : ∀ c ∈ rest.head?, isIdPart ids c = false) :
    (name ++ rest).takeWhile (isIdPart ids) = name ∧ (name ++ rest).dropWhile (isIdPart ids) = rest := by
  have hall := List.all_eq_true.mp hname
  rw [List.takeWhile_append_of_pos hall, List.dropWhile_append_of_pos hall]
  cases rest with
  | nil => exact ⟨List.append_nil _, rfl⟩
  | cons c rest =>
    rw [List.takeWhile_cons, List.dropWhile_cons, hrest c rfl]
    exact ⟨List.append_nil _, rfl⟩

theorem renders_identifier {name : Text} (h : isIdentifierName ids name = true) :
    RendersName ids name [.ident name] := by
  intro rest hrest
  cases name with
  | nil => cases h
  | cons c name =>
    obtain ⟨hc, hname⟩ := Bool.and_eq_true_iff.mp h
    have hwhite : isWhite c = false := by
      apply Bool.eq_false_iff.mpr
      intro hw
      rw [isIdStart_white hw] at hc
      cases hc
    have hne (d : Char) (hd : isIdStart ids d = false) : c ≠ d := by
      rintro rfl
      rw [hd] at hc
      cases hc
    obtain ⟨htake, hdrop⟩ := takeWhile_name hname hrest
    refine .step ?_ (.done rfl)
    rw [List.cons_append, next, skip_code hwhite (hne '/' rfl)]
    dsimp only
    rw [if_neg (not_or.mpr ⟨hne '\'' rfl, hne '"' rfl⟩), if_pos hc, htake, hdrop]

theorem digit_not {c : Char} (h : c.isDigit = true) : isWhite c = false ∧ isIdStart ids c = false ∧
    c ≠ '/' ∧ c ≠ '\'' ∧ c ≠ '"' := by
  have htable : ∀ n < 128, (Char.ofNat n).isDigit = true → isWhite (Char.ofNat n) = false ∧
      ((Char.ofNat n).isAlpha || Char.ofNat n == '$' || Char.ofNat n == '_') = false ∧
      Char.ofNat n ≠ '/' ∧ Char.ofNat n ≠ '\'' ∧ Char.ofNat n ≠ '"' := by
    decide +kernel
  have hascii : c.toNat < 128 := by
    have hle : c.toNat ≤ 57 := (of_decide_eq_true (Bool.and_eq_true_iff.mp h).2)
    omega
  have hc := htable c.toNat hascii
  rw [Char.ofNat_toNat] at hc
  obtain ⟨hwhite, hstart, hne⟩ := hc h
  exact ⟨hwhite, by rw [isIdStart, if_pos hascii]; exact hstart, hne⟩

theorem renders_digits {text : Text} (hne : text ≠ []) (h : text.all Char.isDigit = true) :
    RendersName ids text [.number text] := by
  intro rest hrest
  obtain ⟨c, text, rfl⟩ := List.exists_cons_of_ne_nil hne
  obtain ⟨hc, htext⟩ := Bool.and_eq_true_iff.mp h
  obtain ⟨hwhite, hstart, hslash, hsingle, hdouble⟩ := @digit_not ids c hc
  have hparts : text.all (isIdPart ids) = true := by
    rw [List.all_eq_true] at htext ⊢
    intro d hd
    have hdigit := htext d hd
    have hle : d.toNat ≤ 57 := of_decide_eq_true (Bool.and_eq_true_iff.mp hdigit).2
    rw [isIdPart, if_pos (by omega), hdigit, Bool.or_true]
    rfl
  obtain ⟨htake, hdrop⟩ := takeWhile_name hparts hrest
  refine .step ?_ (.done rfl)
  rw [List.cons_append, next, skip_code hwhite hslash]
  dsimp only
  rw [if_neg (not_or.mpr ⟨hsingle, hdouble⟩), hstart, if_neg (by simp), if_pos hc, htake, hdrop]

theorem next_literal {quote : Char} (hquote : quote = '\'' ∨ quote = '"') (text : Text) :
    next ids (quote :: text) =
      (readLiteral (quote :: text)).map fun (value, rest) => (.string value, rest) := by
  have hskip : skip .code (quote :: text) = some (quote :: text) := by
    rcases hquote with rfl | rfl <;> exact skip_code (by decide) (by decide)
  rw [next, hskip]
  dsimp only
  rw [if_pos hquote]

theorem renders_literal {quote : Char} (hquote : quote = '\'' ∨ quote = '"') {body text : Text}
    (h : Denotes (quote :: body) text) : Renders ids (quote :: body) [.string (units text)] := by
  intro rest
  have hread := h rest
  rw [List.cons_append] at hread ⊢
  refine .step ?_ (.done rfl)
  rw [next_literal hquote, hread]
  rfl

/-! A literal that is read by itself is read with more text behind it -/

theorem readHex_extend {k : Nat} {text after : Text} {u : List UInt16} (x : Text)
    (h : readHex k text = some (u, after)) : readHex k (text ++ x) = some (u, after ++ x) := by
  unfold readHex at h ⊢
  split at h
  · rename_i hle
    obtain ⟨n, hn, heq⟩ := Option.map_eq_some_iff.mp h
    obtain ⟨rfl, rfl⟩ := Prod.mk.inj heq
    rw [if_pos (by rw [List.length_append]; omega), List.take_append_of_le_length hle, hn,
      List.drop_append_of_le_length hle]
    rfl
  · cases h

theorem readCodePoint_extend {text after : Text} {u : List UInt16} (x : Text)
    (h : readCodePoint text = some (u, after)) : readCodePoint (text ++ x) = some (u, after ++ x) := by
  unfold readCodePoint at h ⊢
  dsimp only at h ⊢
  split at h
  · cases h
  rename_i hdigits
  obtain ⟨hne, hlt⟩ := not_or.mp hdigits
  have hshort : (text.takeWhile (· ≠ '\x7d')).length ≠ text.length := by omega
  have htake : (text ++ x).takeWhile (· ≠ '\x7d') = text.takeWhile (· ≠ '\x7d') := by
    rw [List.takeWhile_append, if_neg hshort]
  obtain ⟨n, hn, hpoint⟩ := Option.bind_eq_some_iff.mp h
  split at hpoint
  · rename_i hrange
    obtain ⟨rfl, rfl⟩ := Prod.mk.inj (Option.some.inj hpoint)
    rw [htake, if_neg (not_or.mpr ⟨hne, by rw [List.length_append]; omega⟩), hn, Option.bind_some,
      if_pos hrange, List.drop_append_of_le_length (by omega)]
  · cases hpoint

theorem readEscape_extend {text after : Text} {u : List UInt16} (x : Text) (hne : after ≠ [])
    (h : readEscape text = some (u, after)) : readEscape (text ++ x) = some (u, after ++ x) := by
  cases text with
  | nil => cases h
  | cons c text =>
    rw [List.cons_append]
    rw [readEscape] at h ⊢
    split at h
    · rename_i hline
      obtain ⟨rfl, rfl⟩ := Prod.mk.inj (Option.some.inj h)
      rw [if_pos hline]
      cases text with
      | nil => exact absurd (by split <;> rfl) hne
      | cons d text =>
        rw [List.cons_append, List.head?_cons, List.head?_cons]
        split <;> rfl
    rename_i hline
    rw [if_neg hline]
    split at h
    · rename_i hx
      rw [if_pos hx]
      exact readHex_extend x h
    rename_i hx
    rw [if_neg hx]
    split at h
    · rename_i hu
      rw [if_pos hu]
      cases text with
      | nil => cases h
      | cons d text =>
        rw [List.head?_cons] at h
        rw [List.cons_append, List.head?_cons]
        split at h
        · rename_i hbrace
          rw [if_pos hbrace]
          exact readCodePoint_extend x h
        · rename_i hbrace
          rw [if_neg hbrace]
          exact readHex_extend x h
    rename_i hu
    rw [if_neg hu]
    split at h
    · rename_i hdigit
      rw [if_pos hdigit]
      split at h
      · rename_i hzero
        obtain ⟨rfl, rfl⟩ := Prod.mk.inj (Option.some.inj h)
        obtain ⟨d, text, rfl⟩ := List.exists_cons_of_ne_nil hne
        rw [List.head?_cons] at hzero
        rw [List.cons_append, List.head?_cons, if_pos hzero]
      · cases h
    · rename_i hdigit
      rw [if_neg hdigit]
      obtain ⟨rfl, rfl⟩ := Prod.mk.inj (Option.some.inj h)
      rfl

theorem readBody_extend {quote : Char} (x : Text) : ∀ {fuel more : Nat} {text after : Text}
    {v : List UInt16}, readBody quote fuel text = some (v, after) →
      readBody quote (fuel + more) (text ++ x) = some (v, after ++ x) := by
  intro fuel
  induction fuel with
  | zero => exact fun h => nomatch h
  | succ fuel ih =>
    intro more text after v h
    rw [Nat.succ_add]
    cases text with
    | nil => cases h
    | cons c text =>
      rw [List.cons_append]
      rw [readBody] at h ⊢
      split at h
      · rename_i hc
        obtain ⟨rfl, rfl⟩ := Prod.mk.inj (Option.some.inj h)
        rw [if_pos hc]
      rename_i hc
      rw [if_neg hc]
      split at h
      · rename_i hslash
        obtain ⟨⟨u, mid⟩, hescape, h⟩ := Option.bind_eq_some_iff.mp h
        obtain ⟨⟨w, last⟩, hbody, h⟩ := Option.map_eq_some_iff.mp h
        obtain ⟨rfl, rfl⟩ := Prod.mk.inj h
        -- the literal is closed behind the escape, so the escape does not end the text
        have hne : mid ≠ [] := by
          rintro rfl
          cases fuel <;> cases hbody
        rw [if_pos hslash, readEscape_extend x hne hescape, Option.bind_some]
        dsimp only
        rw [ih hbody]
        rfl
      rename_i hslash
      rw [if_neg hslash]
      split at h
      · cases h
      · rename_i hline
        obtain ⟨⟨w, last⟩, hbody, h⟩ := Option.map_eq_some_iff.mp h
        obtain ⟨rfl, rfl⟩ := Prod.mk.inj h
        rw [if_neg hline, ih hbody]
        rfl

theorem readLiteral_extend {text after : Text} {v : List UInt16} (x : Text)
    (h : readLiteral text = some (v, after)) : readLiteral (text ++ x) = some (v, after ++ x) := by
  cases text with
  | nil => cases h
  | cons c text =>
    rw [List.cons_append]
    rw [readLiteral] at h ⊢
    split at h
    · rename_i hquote
      rw [if_pos hquote]
      have hfuel : (text ++ x).length + 1 = (text.length + 1) + x.length := by
        rw [List.length_append]
        omega
      rw [hfuel]
      exact readBody_extend x h
    · cases h

/-- The token of a property name. -/
def keyToken (ids : IdChars) (key : Text) : Token :=
  if isIdentifierName ids key then .ident key else .string ((keyValue ids key).getD [])

theorem keyToken_property {key : Text} {value : List UInt16} (h : keyValue ids key = some value) :
    (keyToken ids key).property = some value := by
  unfold keyToken
  split
  · rename_i hname
    exact (keyValue_identifier hname).symm.trans h
  · rw [h]
    rfl

theorem keyValue_literal {key : Text} {value : List UInt16} (h : keyValue ids key = some value)
    (hname : ¬ isIdentifierName ids key = true) : readLiteral key = some (value, []) := by
  unfold keyValue at h
  rw [if_neg hname] at h
  split at h
  · rename_i v hread
    rw [← Option.some.inj h]
    exact hread
  · cases h

theorem renders_key {key : Text} {value : List UInt16} (h : keyValue ids key = some value) :
    RendersName ids key [keyToken ids key] := by
  by_cases hname : isIdentifierName ids key = true
  · rw [keyToken, if_pos hname]
    exact renders_identifier hname
  · have hread := keyValue_literal h hname
    rw [keyToken, if_neg hname, h]
    intro rest _
    have hextend := readLiteral_extend rest hread
    cases key with
    | nil => cases hread
    | cons c key =>
      have hquote : c = '\'' ∨ c = '"' := by
        by_contra hno
        rw [readLiteral, if_neg hno] at hread
        cases hread
      rw [List.cons_append] at hextend ⊢
      refine .step ?_ (.done rfl)
      rw [next_literal hquote, hextend]
      rfl

/-! Code that is no property name -/

/-- No white space, and nothing that begins a comment or a literal. -/
def Solid (text : Text) : Prop := ∀ c ∈ text, isWhite c = false ∧ c ≠ '/' ∧ c ≠ '\'' ∧ c ≠ '"'

instance (text : Text) : Decidable (Solid text) :=
  decidable_of_iff
    (text.all fun c => decide (isWhite c = false ∧ c ≠ '/' ∧ c ≠ '\'' ∧ c ≠ '"') = true) (by
      simp only [List.all_eq_true, decide_eq_true_eq, Solid])

/-- A token that begins with a solid character and names a property is a name. -/
theorem next_solid {c : Char} {rest behind : Text} {token : Token} (hc : Solid [c])
    (h : next ids (c :: rest) = some (token, behind)) :
    (∃ name, token = .ident (c :: name) ∧ isIdStart ids c = true ∧
        behind = rest.dropWhile (isIdPart ids)) ∨
      token.property = none ∧ ∀ p, token = .punct p → c = p ∧ behind = rest := by
  obtain ⟨hwhite, hslash, hsingle, hdouble⟩ := hc c List.mem_cons_self
  rw [next, skip_code hwhite hslash] at h
  dsimp only at h
  rw [if_neg (not_or.mpr ⟨hsingle, hdouble⟩)] at h
  split at h
  · rename_i hstart
    obtain ⟨rfl, rfl⟩ := Prod.mk.inj (Option.some.inj h)
    exact Or.inl ⟨_, rfl, hstart, rfl⟩
  right
  split at h
  · obtain ⟨rfl, rfl⟩ := Prod.mk.inj (Option.some.inj h)
    exact ⟨rfl, fun p hp => nomatch hp⟩
  split at h
  · obtain ⟨rfl, rfl⟩ := Prod.mk.inj (Option.some.inj h)
    exact ⟨rfl, fun p hp => nomatch hp⟩
  · obtain ⟨rfl, rfl⟩ := Prod.mk.inj (Option.some.inj h)
    exact ⟨rfl, fun p hp => ⟨Token.punct.inj hp, rfl⟩⟩

/-- Where a name stops inside of a text, the text is no name. -/
theorem dropWhile_name {c : Char} {text x : Text} (hc : isIdStart ids c = true)
    (hname : ¬ isIdentifierName ids (c :: text) = true) : ∃ d rest, (d :: rest) <:+ text ∧
      (text ++ x).dropWhile (isIdPart ids) = d :: (rest ++ x) := by
  have hall : ¬ text.all (isIdPart ids) = true := by
    rw [isIdentifierName, hc, Bool.true_and] at hname
    exact hname
  induction text with
  | nil => exact absurd rfl hall
  | cons d text ih =>
    rw [List.cons_append, List.dropWhile_cons]
    cases hd : isIdPart ids d with
    | false => exact ⟨d, text, List.suffix_refl _, rfl⟩
    | true =>
      rw [List.all_cons, hd, Bool.true_and] at hall
      have hrest : ¬ isIdentifierName ids (c :: text) = true := by
        rw [isIdentifierName, hc, Bool.true_and]
        exact hall
      obtain ⟨e, rest, hsuffix, hdrop⟩ := ih hrest hall
      exact ⟨e, rest, hsuffix.trans (List.suffix_cons d text), hdrop⟩

/-- A text that is no name, and has no small letters and digits, does not stand where a name
should. -/
theorem Run.not_solid {text x name : Text} {key : Token} {p : Char} {tokens : List Token}
    (hsolid : Solid text) (hbare : Bare text) (hname : ¬ isIdentifierName ids text = true)
    (hx : ∀ token behind, next ids x = some (token, behind) → token.property = none)
    (hkey : key.property ≠ none) (hlow : name.head?.any isLowerAlnum = true) :
    ¬ Run ids (text ++ x) (key :: .punct p :: .ident name :: tokens) [] := by
  intro hrun
  have hsingle {c : Char} (hc : c ∈ text) : Solid [c] := by
    intro d hd
    obtain rfl := List.mem_singleton.mp hd
    exact hsolid d hc
  obtain ⟨behind, hfirst, hrun⟩ := Run.cons_iff.mp hrun
  cases text with
  | nil => exact hkey (hx _ _ hfirst)
  | cons c text =>
    rw [List.cons_append] at hfirst
    rcases next_solid (hsingle List.mem_cons_self) hfirst with
      ⟨word, -, hstart, rfl⟩ | ⟨hnone, -⟩
    · -- the name stops inside the text, so that the second and the third token begin in it
      obtain ⟨d, rest, hsuffix, hdrop⟩ := @dropWhile_name ids c text x hstart hname
      have hmem {e : Char} (he : e ∈ d :: rest) : e ∈ c :: text :=
        List.mem_cons_of_mem _ (hsuffix.subset he)
      rw [hdrop] at hrun
      obtain ⟨behind, hsecond, hrun⟩ := Run.cons_iff.mp hrun
      obtain ⟨behind', hthird, -⟩ := Run.cons_iff.mp hrun
      -- only a mark can be second, and no name can begin where it ends
      rcases next_solid (hsingle (hmem List.mem_cons_self)) hsecond with
        ⟨word, hword, -⟩ | ⟨-, hpunct⟩
      · cases hword
      · obtain ⟨-, rfl⟩ := hpunct p rfl
        cases rest with
        | nil => exact absurd (hx _ _ hthird) (Option.some_ne_none _)
        | cons e rest =>
          have he : e ∈ c :: text := hmem (List.mem_cons_of_mem _ List.mem_cons_self)
          rcases next_solid (hsingle he) hthird with ⟨word, hword, -⟩ | ⟨hnone, -⟩
          · rw [Token.ident.inj hword] at hlow
            exact Bool.noConfusion (hlow.symm.trans (hbare e he))
          · cases hnone
    · exact hkey hnone

end FastFirebird.Js
