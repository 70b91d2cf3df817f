import FastFirebird.Utf16

/-! Identifiers, string literals and property names of JavaScript, in the code of a module. -/
namespace FastFirebird.Js

open Utf16 (units charUnits)

/-- White space and line terminators, between the tokens of a module. -/
def isWhite (c : Char) : Bool :=
  c == ' ' || (9 ≤ c.toNat && c.toNat ≤ 13) || c.toNat == 0xA0 || c.toNat == 0x1680 ||
    (0x2000 ≤ c.toNat && c.toNat ≤ 0x200A) || c.toNat == 0x2028 || c.toNat == 0x2029 ||
    c.toNat == 0x202F || c.toNat == 0x205F || c.toNat == 0x3000 || c.toNat == 0xFEFF

/-- What the characters beyond ASCII may do in an identifier: `ID_Start` and `ID_Continue`. -/
structure IdChars where
  start : Char → Bool
  part : Char → Bool
  white : ∀ c, isWhite c = true → start c = false

section
variable (ids : IdChars)

def isIdStart (c : Char) : Bool :=
  if c.toNat < 128 then c.isAlpha || c == '$' || c == '_' else ids.start c

def isIdPart (c : Char) : Bool :=
  if c.toNat < 128 then c.isAlpha || c.isDigit || c == '$' || c == '_' else ids.part c

/-- Escapes apart. -/
def isIdentifierName : Text → Bool
  | [] => false
  | c :: rest => isIdStart ids c && rest.all (isIdPart ids)

/-- The words that name no binding of a module. -/
def reserved : List Text :=
  ["arguments", "await", "break", "case", "catch", "class", "const", "continue", "debugger",
    "default", "delete", "do", "else", "enum", "eval", "export", "extends", "false", "finally",
    "for", "function", "if", "implements", "import", "in", "instanceof", "interface", "let", "new",
    "null", "package", "private", "protected", "public", "return", "static", "super", "switch",
    "this", "throw", "true", "try", "typeof", "var", "void", "while", "with", "yield"].map
      String.toList

def isBinding (text : Text) : Bool := isIdentifierName ids text && !reserved.contains text

end

/-! String literals -/

def hexDigit (c : Char) : Option Nat :=
  if c.isDigit then some (c.toNat - 48)
  else if 'a' ≤ c ∧ c ≤ 'f' then some (c.toNat - 87)
  else if 'A' ≤ c ∧ c ≤ 'F' then some (c.toNat - 55)
  else none

def hexNumber (text : Text) : Option Nat :=
  text.foldlM (fun n c => (hexDigit c).map (16 * n + ·)) 0

def readHex (k : Nat) (text : Text) : Option (List UInt16 × Text) :=
  if k ≤ text.length then
    (hexNumber (text.take k)).map fun n => ([UInt16.ofNat n], text.drop k)
  else none

def codePoint (n : Nat) : List UInt16 :=
  if n < 0x10000 then [UInt16.ofNat n]
  else [UInt16.ofNat (0xD800 + (n - 0x10000) / 0x400), UInt16.ofNat (0xDC00 + (n - 0x10000) % 0x400)]

/-- Behind the opening brace of an escape. -/
def readCodePoint (text : Text) : Option (List UInt16 × Text) :=
  let digits := text.takeWhile (· ≠ '}')
  if digits = [] ∨ text.length ≤ digits.length then none
  else (hexNumber digits).bind fun n =>
    if n ≤ 0x10FFFF then some (codePoint n, text.drop (digits.length + 1)) else none

def isLineEnd (c : Char) : Bool := c == '\n' || c == '\r' || c == '\u2028' || c == '\u2029'

/-- The character that an escape of one character stands for. -/
def single (c : Char) : Char :=
  if c = 'b' then '\x08' else if c = 't' then '\t' else if c = 'n' then '\n'
  else if c = 'v' then '\x0b' else if c = 'f' then '\x0c' else if c = 'r' then '\r' else c

/-- What an escape denotes, and what comes behind it; a module has no octal escapes. -/
def readEscape : Text → Option (List UInt16 × Text)
  | [] => none
  | c :: rest =>
    if isLineEnd c then
      some ([], if c = '\r' ∧ rest.head? = some '\n' then rest.drop 1 else rest)
    else if c = 'x' then readHex 2 rest
    else if c = 'u' then
      if rest.head? = some '{' then readCodePoint (rest.drop 1) else readHex 4 rest
    else if c.isDigit then
      if c = '0' ∧ ¬ rest.head?.any Char.isDigit then some ([0], rest) else none
    else some (charUnits (single c), rest)

/-- A literal behind its opening quote. -/
def readBody (quote : Char) : Nat → Text → Option (List UInt16 × Text)
  | 0, _ => none
  | _ + 1, [] => none
  | fuel + 1, c :: rest =>
    if c = quote then some ([], rest)
    else if c = '\\' then
      (readEscape rest).bind fun (u, rest) =>
        (readBody quote fuel rest).map fun (v, rest) => (u ++ v, rest)
    else if c = '\n' ∨ c = '\r' then none
    else (readBody quote fuel rest).map fun (v, rest) => (charUnits c ++ v, rest)

/-- The literal at the beginning of a text, and what comes behind it. Every step takes a character
of the text. -/
def readLiteral : Text → Option (List UInt16 × Text)
  | [] => none
  | c :: rest => if c = '\'' ∨ c = '"' then readBody c (rest.length + 1) rest else none

/-- The literal stands for the text, whatever comes behind it. -/
def Denotes (literal text : Text) : Prop :=
  ∀ rest, readLiteral (literal ++ rest) = some (units text, rest)

/-- The name of a property, as the key of an object literal has it. -/
def keyValue (ids : IdChars) (key : Text) : Option (List UInt16) :=
  if isIdentifierName ids key then some (units key)
  else match readLiteral key with
    | some (v, []) => some v
    | _ => none

/-! `JSON.stringify` of a string -/

def hexChar (d : Nat) : Char := if d < 10 then Char.ofNat (48 + d) else Char.ofNat (87 + d)

def stringifyChar (c : Char) : Text :=
  if c = '"' then ['\\', '"'] else if c = '\\' then ['\\', '\\']
  else if c = '\x08' then ['\\', 'b'] else if c = '\x0c' then ['\\', 'f']
  else if c = '\n' then ['\\', 'n'] else if c = '\r' then ['\\', 'r']
  else if c = '\t' then ['\\', 't']
  else if c.toNat < 32 then ['\\', 'u', '0', '0', hexChar (c.toNat / 16), hexChar (c.toNat % 16)]
  else [c]

def stringify (text : Text) : Text := '"' :: (text.flatMap stringifyChar ++ ['"'])

/-! How much a literal takes -/

def size (text : Text) : Nat := (units text).length

theorem units_append (a b : Text) : units (a ++ b) = units a ++ units b := List.flatMap_append

theorem units_cons (c : Char) (text : Text) : units (c :: text) = charUnits c ++ units text :=
  List.flatMap_cons

theorem units_injective {a b : Text} (h : units a = units b) : a = b := by
  rw [← Utf16.scalars_units a, h, Utf16.scalars_units]

theorem size_cons (c : Char) (text : Text) : size (c :: text) = (charUnits c).length + size text := by
  rw [size, units_cons, List.length_append, size]

theorem charUnits_length (c : Char) : 0 < (charUnits c).length := by
  unfold charUnits
  split <;> exact Nat.succ_pos _

theorem charUnits_ascii {c : Char} (h : c.toNat < 128) : (charUnits c).length = 1 := by
  rw [charUnits, if_pos (by omega), List.length_singleton]

theorem length_le_size (text : Text) : text.length ≤ size text := by
  induction text with
  | nil => exact Nat.le_refl _
  | cons c text ih =>
    have hpos := charUnits_length c
    rw [size_cons, List.length_cons]
    omega

theorem size_drop (k : Nat) (text : Text) : size (text.drop k) + min k text.length ≤ size text := by
  have hsplit : size text = size (text.take k) + size (text.drop k) := by
    rw [size, size, size, ← List.length_append, ← units_append, List.take_append_drop]
  have htake := length_le_size (text.take k)
  rw [List.length_take] at htake
  omega

theorem codePoint_length (n : Nat) : (codePoint n).length ≤ 2 := by
  unfold codePoint
  split
  · exact Nat.le_succ 1
  · exact Nat.le_refl 2

theorem single_length (c : Char) : (charUnits (single c)).length ≤ (charUnits c).length := by
  have hpos := charUnits_length c
  have hone (d : Char) (hd : d.toNat < 128) : (charUnits d).length ≤ (charUnits c).length := by
    rw [charUnits_ascii hd]
    exact hpos
  unfold single
  split_ifs <;> first | exact hone _ (by decide) | exact Nat.le_refl _

/-- What may stand in a literal as it is. -/
def Clean (quote : Char) (text : Text) : Prop :=
  ∀ c ∈ text, c ≠ quote ∧ c ≠ '\\' ∧ c ≠ '\n' ∧ c ≠ '\r'

instance (quote : Char) (text : Text) : Decidable (Clean quote text) :=
  decidable_of_iff
    (text.all fun c => decide (c ≠ quote ∧ c ≠ '\\' ∧ c ≠ '\n' ∧ c ≠ '\r')) (by
      simp only [List.all_eq_true, decide_eq_true_eq, Clean])

theorem readBody_clean {quote : Char} (rest : Text) : ∀ {text : Text} {fuel : Nat},
    Clean quote text → text.length < fuel →
      readBody quote fuel (text ++ quote :: rest) = some (units text, rest) := by
  intro text
  induction text with
  | nil =>
    intro fuel _ hfuel
    obtain ⟨fuel, rfl⟩ := Nat.exists_eq_add_one_of_ne_zero (Nat.ne_zero_of_lt hfuel)
    rw [List.nil_append, readBody, if_pos rfl]
    rfl
  | cons c text ih =>
    intro fuel hclean hfuel
    obtain ⟨fuel, rfl⟩ := Nat.exists_eq_add_one_of_ne_zero (Nat.ne_zero_of_lt hfuel)
    have ⟨hquote, hslash, hn, hr⟩ := hclean c List.mem_cons_self
    have hline : ¬ (c = '\n' ∨ c = '\r') := fun h => h.elim hn hr
    have hrest : Clean quote text := fun d hd => hclean d (List.mem_cons_of_mem _ hd)
    rw [List.cons_append, readBody, if_neg hquote, if_neg hslash, if_neg hline,
      ih hrest (by rw [List.length_cons] at hfuel; omega), units_cons]
    rfl

/-- A text between quotes denotes itself if it has neither the quote nor a backslash, and no line
break. -/
theorem denotes_quoted {quote : Char} (hquote : quote = '\'' ∨ quote = '"') {text : Text}
    (h : Clean quote text) : Denotes (quote :: (text ++ [quote])) text := by
  intro rest
  rw [List.cons_append, List.append_assoc, List.singleton_append, readLiteral, if_pos hquote]
  refine readBody_clean rest h ?_
  rw [List.length_append]
  omega

/-! A literal with more text behind it -/

theorem hexNumber_quote {a b : Text} : hexNumber (a ++ '\'' :: b) = none := by
  have hstep (n : Nat) : (a ++ '\'' :: b).foldlM (fun n c => (hexDigit c).map (16 * n + ·)) n = none := by
    induction a generalizing n with
    | nil => rfl
    | cons c a ih =>
      rw [List.cons_append, List.foldlM_cons]
      cases hexDigit c with
      | none => rfl
      | some d => exact ih (16 * n + d)
  exact hstep 0

/-- What is left of `text`, ahead of a quote. -/
def LeftOf (text rest : Text) (u : List UInt16) (after : Text) : Prop :=
  ∃ left, after = left ++ '\'' :: rest ∧ '\'' ∉ left ∧ u.length + size left ≤ size text

theorem leftOf_drop {k : Nat} {text rest : Text} {u : List UInt16} (htext : '\'' ∉ text)
    (hk : k ≤ text.length) (hu : u.length ≤ k) : LeftOf text rest u ((text ++ '\'' :: rest).drop k) := by
  have hdrop := size_drop k text
  refine ⟨text.drop k, List.drop_append_of_le_length hk, fun h => htext (List.mem_of_mem_drop h), ?_⟩
  omega

theorem readHex_ahead {k : Nat} (hk : 0 < k) {text rest after : Text} {u : List UInt16}
    (htext : '\'' ∉ text) (h : readHex k (text ++ '\'' :: rest) = some (u, after)) :
    LeftOf text rest u after := by
  unfold readHex at h
  split at h
  · obtain ⟨n, hn, heq⟩ := Option.map_eq_some_iff.mp h
    obtain ⟨rfl, rfl⟩ := Prod.mk.inj heq
    by_cases hle : k ≤ text.length
    · exact leftOf_drop htext hle hk
    · obtain ⟨m, hm⟩ : ∃ m, k = text.length + (m + 1) := ⟨k - text.length - 1, by omega⟩
      rw [hm, List.take_length_add_append, List.take_succ_cons, hexNumber_quote] at hn
      cases hn
  · cases h

theorem readCodePoint_ahead {text rest after : Text} {u : List UInt16} (htext : '\'' ∉ text)
    (h : readCodePoint (text ++ '\'' :: rest) = some (u, after)) : LeftOf text rest u after := by
  unfold readCodePoint at h
  dsimp only at h
  split at h
  · cases h
  rename_i hdigits
  obtain ⟨n, hn, hpoint⟩ := Option.bind_eq_some_iff.mp h
  split at hpoint
  · obtain ⟨rfl, rfl⟩ := Prod.mk.inj (Option.some.inj hpoint)
    by_cases hbrace : ∀ c ∈ text, decide (c ≠ '\x7d') = true
    · rw [List.takeWhile_append_of_pos hbrace, List.takeWhile_cons, if_pos (by decide),
        hexNumber_quote] at hn
      cases hn
    · have hshort : (text.takeWhile (· ≠ '\x7d')).length ≠ text.length := by
        intro hlen
        have hall := (List.takeWhile_prefix (· ≠ '\x7d') (l := text)).eq_of_length hlen
        exact hbrace fun c hc => List.mem_takeWhile_imp (p := (· ≠ '\x7d')) (hall ▸ hc)
      have htake : (text ++ '\'' :: rest).takeWhile (· ≠ '\x7d') = text.takeWhile (· ≠ '\x7d') := by
        rw [List.takeWhile_append, if_neg hshort]
      have hle := (List.takeWhile_prefix (· ≠ '\x7d') (l := text)).length_le
      have hpos : 0 < (text.takeWhile (· ≠ '\x7d')).length := by
        rw [← htake]
        exact List.length_pos_iff.mpr fun hnil => hdigits (Or.inl hnil)
      have hpoint := codePoint_length n
      rw [htake]
      exact leftOf_drop htext (by omega) (by omega)
  · cases hpoint

/-- Ahead of a quote an escape takes text without a quote, or the quote alone. -/
theorem readEscape_ahead {text rest after : Text} {u : List UInt16} (htext : '\'' ∉ text)
    (h : readEscape (text ++ '\'' :: rest) = some (u, after)) :
    LeftOf text rest u after ∨ text = [] ∧ u = [39] ∧ after = rest := by
  cases text with
  | nil =>
    right
    obtain ⟨rfl, rfl⟩ := Prod.mk.inj (Option.some.inj h)
    exact ⟨rfl, rfl, rfl⟩
  | cons c text =>
    left
    have hrest : '\'' ∉ text := fun hc => htext (List.mem_cons_of_mem _ hc)
    have hpos := charUnits_length c
    have hmore {u : List UInt16} {after : Text} (h : LeftOf text rest u after) :
        LeftOf (c :: text) rest u after := by
      obtain ⟨left, hafter, hquote, hsize⟩ := h
      exact ⟨left, hafter, hquote, by rw [size_cons]; omega⟩
    rw [List.cons_append, readEscape] at h
    split at h
    · obtain ⟨rfl, rfl⟩ := Prod.mk.inj (Option.some.inj h)
      apply hmore
      split
      · rename_i hline
        cases text with
        | nil => exact absurd (Option.some.inj hline.2) (by decide)
        | cons d text => exact leftOf_drop hrest (by simp) (Nat.zero_le 1)
      · exact leftOf_drop (k := 0) hrest (Nat.zero_le _) (Nat.le_refl 0)
    split at h
    · exact hmore (readHex_ahead (by decide) hrest h)
    split at h
    · split at h
      · cases text with
        | nil =>
          rename_i hbrace
          exact absurd (Option.some.inj hbrace) (by decide)
        | cons d text =>
          have hlater := readCodePoint_ahead (fun hc => hrest (List.mem_cons_of_mem _ hc)) h
          obtain ⟨left, hafter, hquote, hsize⟩ := hlater
          exact hmore ⟨left, hafter, hquote, by rw [size_cons]; omega⟩
      · exact hmore (readHex_ahead (by decide) hrest h)
    split at h
    · split at h
      · obtain ⟨rfl, rfl⟩ := Prod.mk.inj (Option.some.inj h)
        refine ⟨text, rfl, hrest, ?_⟩
        rw [size_cons, List.length_singleton]
        omega
      · cases h
    · obtain ⟨rfl, rfl⟩ := Prod.mk.inj (Option.some.inj h)
      have hle := single_length c
      refine ⟨text, rfl, hrest, ?_⟩
      rw [size_cons]
      omega

/-- A literal ends with the first quote, or an escaped quote gives it a quote too early. -/
theorem readBody_ahead {rest after : Text} : ∀ {fuel : Nat} {text : Text} {v : List UInt16},
    '\'' ∉ text → readBody '\'' fuel (text ++ '\'' :: rest) = some (v, after) →
      (after = rest ∧ v.length ≤ size text ∧ (size text ≤ v.length → Clean '\'' text)) ∨
        ∃ front back, v = front ++ 39 :: back ∧ front.length < size text := by
  intro fuel
  induction fuel with
  | zero => exact fun _ h => nomatch h
  | succ fuel ih =>
    intro text v htext h
    cases text with
    | nil =>
      rw [List.nil_append, readBody, if_pos rfl] at h
      obtain ⟨rfl, rfl⟩ := Prod.mk.inj (Option.some.inj h)
      exact Or.inl ⟨rfl, Nat.zero_le _, fun _ _ hc => absurd hc List.not_mem_nil⟩
    | cons c text =>
      have hrest : '\'' ∉ text := fun hc => htext (List.mem_cons_of_mem _ hc)
      have hquote : c ≠ '\'' := by
        rintro rfl
        exact htext List.mem_cons_self
      have hpos := charUnits_length c
      rw [List.cons_append, readBody, if_neg hquote] at h
      rw [size_cons]
      split at h
      · obtain ⟨⟨u, mid⟩, hescape, h⟩ := Option.bind_eq_some_iff.mp h
        obtain ⟨⟨w, last⟩, hbody, h⟩ := Option.map_eq_some_iff.mp h
        obtain ⟨rfl, rfl⟩ := Prod.mk.inj h
        rcases readEscape_ahead hrest hescape with ⟨left, rfl, hleft, hsize⟩ | ⟨rfl, rfl, rfl⟩
        · rcases ih hleft hbody with ⟨rfl, hle, -⟩ | ⟨front, back, rfl, hfront⟩
          · left
            rw [List.length_append]
            exact ⟨rfl, by omega, fun hge => by omega⟩
          · right
            refine ⟨u ++ front, back, (List.append_assoc _ _ _).symm, ?_⟩
            rw [List.length_append]
            omega
        · exact Or.inr ⟨[], w, rfl, by rw [List.length_nil]; omega⟩
      rename_i hslash
      split at h
      · cases h
      · rename_i hline
        obtain ⟨⟨w, last⟩, hbody, h⟩ := Option.map_eq_some_iff.mp h
        obtain ⟨rfl, rfl⟩ := Prod.mk.inj h
        rcases ih hrest hbody with ⟨rfl, hle, hclean⟩ | ⟨front, back, rfl, hfront⟩
        · left
          rw [List.length_append]
          refine ⟨rfl, by omega, fun hge => ?_⟩
          intro d hd
          rcases List.mem_cons.mp hd with rfl | hd
          · exact ⟨hquote, hslash, fun hn => hline (Or.inl hn), fun hr => hline (Or.inr hr)⟩
          · exact hclean (by omega) d hd
        · right
          refine ⟨charUnits c ++ front, back, (List.append_assoc _ _ _).symm, ?_⟩
          rw [List.length_append]
          omega

theorem units_no_quote {text : Text} (h : '\'' ∉ text) : (39 : UInt16) ∉ units text := by
  intro hmem
  obtain ⟨c, hc, hunit⟩ := List.mem_flatMap.mp hmem
  have hvalid := Utf8.char_bounds c
  have hnat (n : Nat) (hn : UInt16.ofNat n = 39) : n % 65536 = 39 := congrArg UInt16.toNat hn
  unfold charUnits at hunit
  split at hunit
  · have hcode := hnat _ (List.mem_singleton.mp hunit).symm
    have hquote : c.toNat = 39 := by omega
    obtain rfl : c = '\'' := Char.ext (UInt32.toNat_inj.mp hquote)
    exact h hc
  · rcases List.mem_cons.mp hunit with hhigh | hlow
    · have hcode := hnat _ hhigh.symm
      omega
    · have hcode := hnat _ (List.mem_singleton.mp hlow).symm
      omega

/-- A name between single quotes is read as itself only if it is clean. -/
theorem readLiteral_quoted {name rest after : Text}
    (h : readLiteral ('\'' :: (name ++ '\'' :: rest)) = some (units name, after)) :
    Clean '\'' name ∧ after = rest := by
  rw [readLiteral, if_pos (Or.inl rfl)] at h
  by_cases hquote : '\'' ∈ name
  · obtain ⟨front, back, rfl, hfront⟩ := List.eq_append_cons_of_mem hquote
    rw [List.append_assoc, List.cons_append, units_append, units_cons] at h
    have hsize : (units front).length = size front := rfl
    rcases readBody_ahead hfront h with ⟨-, hle, -⟩ | ⟨early, late, hvalue, hlt⟩
    · rw [List.length_append, List.length_append, hsize] at hle
      have hpos := charUnits_length '\''
      omega
    · -- the quote would stand where the name has none
      rcases List.append_eq_append_iff.mp hvalue with ⟨more, hmore, -⟩ | ⟨more, hmore, hlate⟩
      · have hlen := congrArg List.length hmore
        rw [List.length_append, hsize] at hlen
        omega
      · cases more with
        | nil =>
          have hlen := congrArg List.length hmore
          rw [List.append_nil, hsize] at hlen
          omega
        | cons u more =>
          obtain ⟨rfl, -⟩ := List.cons.inj hlate
          exact absurd (hmore ▸ List.mem_append_right _ List.mem_cons_self) (units_no_quote hfront)
  · rcases readBody_ahead hquote h with ⟨rfl, -, hclean⟩ | ⟨front, back, hvalue, -⟩
    · exact ⟨hclean (Nat.le_refl _), rfl⟩
    · exact absurd (hvalue ▸ List.mem_append_right _ List.mem_cons_self) (units_no_quote hquote)

/-! Strings as JSON are literals -/

theorem hexNumber_low : ∀ n < 32,
    hexNumber ['0', '0', hexChar (n / 16), hexChar (n % 16)] = some n := by decide +kernel

theorem readEscape_low {n : Nat} (h : n < 32) (rest : Text) :
    readEscape ('u' :: '0' :: '0' :: hexChar (n / 16) :: hexChar (n % 16) :: rest) =
      some ([UInt16.ofNat n], rest) := by
  have hnumber := hexNumber_low n h
  have hfour : 4 ≤ ('0' :: '0' :: hexChar (n / 16) :: hexChar (n % 16) :: rest).length := by
    simp only [List.length_cons]
    omega
  have hhex : readHex 4 ('0' :: '0' :: hexChar (n / 16) :: hexChar (n % 16) :: rest) =
      some ([UInt16.ofNat n], rest) := by
    rw [readHex, if_pos hfour]
    simp only [List.take_succ_cons, List.take_zero, List.drop_succ_cons, List.drop_zero, hnumber,
      Option.map_some]
  rw [readEscape, if_neg (by decide), if_neg (by decide), if_pos rfl]
  exact hhex

/-- One step reads what stands for one character. -/
theorem readBody_stringifyChar (c : Char) (fuel : Nat) (rest : Text) :
    readBody '"' (fuel + 1) (stringifyChar c ++ rest) =
      (readBody '"' fuel rest).map fun (v, rest) => (charUnits c ++ v, rest) := by
  have hslash (tail after : Text) (u : List UInt16) (h : readEscape tail = some (u, after)) :
      readBody '"' (fuel + 1) ('\\' :: tail) =
        (readBody '"' fuel after).map fun (v, rest) => (u ++ v, rest) := by
    rw [readBody, if_neg (by decide), if_pos rfl, h]
    rfl
  unfold stringifyChar
  split_ifs with h1 h2 h3 h4 h5 h6 h7 h8
  · exact hslash _ _ _ (by rw [h1]; rfl)
  · exact hslash _ _ _ (by rw [h2]; rfl)
  · exact hslash _ _ _ (by rw [h3]; rfl)
  · exact hslash _ _ _ (by rw [h4]; rfl)
  · exact hslash _ _ _ (by rw [h5]; rfl)
  · exact hslash _ _ _ (by rw [h6]; rfl)
  · exact hslash _ _ _ (by rw [h7]; rfl)
  · apply hslash
    rw [charUnits, if_pos (by omega)]
    exact readEscape_low h8 rest
  · rw [List.singleton_append, readBody, if_neg h1, if_neg h2, if_neg (fun h => h.elim h5 h6)]

theorem stringifyChar_ne_nil (c : Char) : 0 < (stringifyChar c).length := by
  unfold stringifyChar
  split_ifs <;> exact Nat.succ_pos _

theorem readBody_stringify (rest : Text) : ∀ {text : Text} {fuel : Nat},
    (text.flatMap stringifyChar).length < fuel →
      readBody '"' fuel (text.flatMap stringifyChar ++ '"' :: rest) = some (units text, rest) := by
  intro text
  induction text with
  | nil =>
    intro fuel hfuel
    obtain ⟨fuel, rfl⟩ := Nat.exists_eq_add_one_of_ne_zero (Nat.ne_zero_of_lt hfuel)
    rfl
  | cons c text ih =>
    intro fuel hfuel
    obtain ⟨fuel, rfl⟩ := Nat.exists_eq_add_one_of_ne_zero (Nat.ne_zero_of_lt hfuel)
    have hpos := stringifyChar_ne_nil c
    rw [List.flatMap_cons, List.length_append] at hfuel
    rw [List.flatMap_cons, List.append_assoc, readBody_stringifyChar, ih (by omega), units_cons]
    rfl

theorem denotes_stringify (text : Text) : Denotes (stringify text) text := by
  intro rest
  have hread : readLiteral (stringify text ++ rest) =
      readBody '"' ((text.flatMap stringifyChar ++ '"' :: rest).length + 1)
        (text.flatMap stringifyChar ++ '"' :: rest) := by
    rw [stringify, List.cons_append, List.append_assoc, List.singleton_append, readLiteral,
      if_pos (Or.inr rfl)]
  rw [hread]
  apply readBody_stringify
  rw [List.length_append]
  omega

/-! Property names -/

theorem keyValue_identifier {ids : IdChars} {key : Text} (h : isIdentifierName ids key = true) :
    keyValue ids key = some (units key) := by
  rw [keyValue, if_pos h]

theorem stringify_not_identifier (ids : IdChars) (text : Text) :
    isIdentifierName ids (stringify text) = false := rfl

theorem keyValue_stringify (ids : IdChars) (text : Text) :
    keyValue ids (stringify text) = some (units text) := by
  have hread := denotes_stringify text []
  rw [List.append_nil] at hread
  rw [keyValue, stringify_not_identifier, if_neg Bool.false_ne_true, hread]

/-! Letters and digits of a literal -/

def isLowerAlnum (c : Char) : Bool := ('a' ≤ c && c ≤ 'z') || c.isDigit

/-- A text without small letters and digits. -/
def Bare (text : Text) : Prop := ∀ c ∈ text, isLowerAlnum c = false

theorem readEscape_bare {text rest : Text} {u : List UInt16} (hbare : Bare text)
    (h : readEscape text = some (u, rest)) : ∃ body, u = units body ∧ Bare body ∧ Bare rest := by
  cases text with
  | nil => cases h
  | cons c text =>
    have hc := hbare c List.mem_cons_self
    have htext : Bare text := fun d hd => hbare d (List.mem_cons_of_mem _ hd)
    -- an escape that is named by a letter or a digit does not occur
    have hne (d : Char) (hd : isLowerAlnum d = true) : c ≠ d := by
      rintro rfl
      exact Bool.noConfusion (hc.symm.trans hd)
    have hdigit : ¬ c.isDigit = true := by
      intro hd
      rw [isLowerAlnum, hd, Bool.or_true] at hc
      cases hc
    rw [readEscape] at h
    split at h
    · obtain ⟨rfl, rfl⟩ := Prod.mk.inj (Option.some.inj h)
      refine ⟨[], rfl, fun _ hd => absurd hd List.not_mem_nil, ?_⟩
      split
      · exact fun d hd => htext d (List.mem_of_mem_drop hd)
      · exact htext
    · rw [if_neg (hne 'x' (by decide)), if_neg (hne 'u' (by decide))] at h
      obtain ⟨rfl, rfl⟩ := Prod.mk.inj (Option.some.inj h)
      have hsingle : single c = c := by
        rw [single, if_neg (hne 'b' (by decide)), if_neg (hne 't' (by decide)),
          if_neg (hne 'n' (by decide)), if_neg (hne 'v' (by decide)), if_neg (hne 'f' (by decide)),
          if_neg (hne 'r' (by decide))]
      refine ⟨[c], ?_, fun d hd => List.mem_singleton.mp hd ▸ hc, htext⟩
      rw [hsingle, units_cons]
      exact (List.append_nil _).symm

theorem readBody_bare {quote : Char} : ∀ {fuel : Nat} {text rest : Text} {v : List UInt16},
    Bare text → readBody quote fuel text = some (v, rest) → ∃ body, v = units body ∧ Bare body := by
  intro fuel
  induction fuel with
  | zero => exact fun _ h => nomatch h
  | succ fuel ih =>
    intro text rest v hbare h
    cases text with
    | nil => cases h
    | cons c text =>
      have hc := hbare c List.mem_cons_self
      have htext : Bare text := fun d hd => hbare d (List.mem_cons_of_mem _ hd)
      rw [readBody] at h
      split at h
      · obtain ⟨rfl, rfl⟩ := Prod.mk.inj (Option.some.inj h)
        exact ⟨[], rfl, fun _ hd => absurd hd List.not_mem_nil⟩
      split at h
      · obtain ⟨⟨u, after⟩, hescape, h⟩ := Option.bind_eq_some_iff.mp h
        obtain ⟨⟨w, last⟩, hbody, h⟩ := Option.map_eq_some_iff.mp h
        obtain ⟨rfl, rfl⟩ := Prod.mk.inj h
        obtain ⟨front, rfl, hfront, hafter⟩ := readEscape_bare htext hescape
        obtain ⟨back, rfl, hback⟩ := ih hafter hbody
        refine ⟨front ++ back, (units_append front back).symm, fun d hd => ?_⟩
        exact (List.mem_append.mp hd).elim (hfront d) (hback d)
      split at h
      · cases h
      · obtain ⟨⟨w, last⟩, hbody, h⟩ := Option.map_eq_some_iff.mp h
        obtain ⟨rfl, rfl⟩ := Prod.mk.inj h
        obtain ⟨back, rfl, hback⟩ := ih htext hbody
        refine ⟨c :: back, (units_cons c back).symm, fun d hd => ?_⟩
        rcases List.mem_cons.mp hd with rfl | hd
        · exact hc
        · exact hback d hd

/-- A property name without small letters and digits has none in its value. -/
theorem keyValue_bare {ids : IdChars} {key : Text} {v : List UInt16} (hbare : Bare key)
    (h : keyValue ids key = some v) : ∃ body, v = units body ∧ Bare body := by
  unfold keyValue at h
  split at h
  · obtain rfl := Option.some.inj h
    exact ⟨key, rfl, hbare⟩
  · split at h
    · rename_i w hread
      obtain rfl := Option.some.inj h
      cases key with
      | nil => cases hread
      | cons c key =>
        rw [readLiteral] at hread
        split at hread
        · exact readBody_bare (fun d hd => hbare d (List.mem_cons_of_mem _ hd)) hread
        · cases hread
    · cases h

end FastFirebird.Js
