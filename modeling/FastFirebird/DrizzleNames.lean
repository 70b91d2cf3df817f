import FastFirebird.JsLiterals

/-! `introspect.ts`: how the name of a table or of a column becomes a name of the code. -/
namespace FastFirebird.Drizzle

open Utf16 (units)
open Js (isLowerAlnum Bare IdChars keyValue stringify isIdentifierName)

/-- `toLowerCase`; what it does beyond ASCII is left to it. -/
structure LowerCase where
  lower : Text → Text
  ascii : ∀ text : Text, (∀ c ∈ text, c.toNat < 128) → lower text = text.map Char.toLower

/-- `split(/[^a-z0-9]+/).filter(Boolean)` -/
def parts (text : Text) : List Text :=
  (text.splitOnP fun c => !isLowerAlnum c).filter fun part => !part.isEmpty

def capitalize : Text → Text
  | [] => []
  | c :: rest => c.toUpper :: rest

/-- `/^[a-z_$][\w$]*$/i` -/
def isPlain : Text → Bool
  | [] => false
  | c :: rest => (c.isAlpha || c == '_' || c == '$') &&
    rest.all fun d => d.isAlpha || d.isDigit || d == '_' || d == '$'

section
variable (cases : LowerCase)

def camel (name : Text) : Text :=
  match parts (cases.lower name) with
  | [] => cases.lower name
  | first :: more =>
    let out := first ++ (more.map capitalize).flatten
    if isPlain out then out else stringify name

end

/-! The words of a name -/

def startsWithDigit (word : Text) : Bool := word.head?.any Char.isDigit

/-- A word that starts with a digit cannot be told from the end of the word before it. -/
def merge : Text → List Text → List Text
  | word, [] => [word]
  | word, next :: more =>
    if startsWithDigit next then merge (word ++ next) more else word :: merge next more

def humps : List Text → Text
  | [] => []
  | first :: more => first ++ (more.map capitalize).flatten

/-- What tells the names apart that do not become the same: the words of most of them, else the
name of the property that they become. -/
inductive Form where
  | words (words : List Text)
  | value (value : Option (List UInt16))
  deriving Repr, DecidableEq

section
variable (ids : IdChars) (cases : LowerCase)

def form (name : Text) : Form :=
  match parts (cases.lower name) with
  | [] => .value (keyValue ids (cases.lower name))
  | first :: more =>
    if startsWithDigit first then .value (some (units name)) else .words (merge first more)

end

/-! Letters -/

theorem alnum_toNat {c : Char} (h : isLowerAlnum c = true) : c.toNat < 128 := by
  simp only [isLowerAlnum, Char.isDigit, Bool.or_eq_true, Bool.and_eq_true, decide_eq_true_eq] at h
  rcases h with ⟨_, hhigh⟩ | ⟨_, hhigh⟩
  · have hle : c.toNat ≤ 122 := hhigh
    omega
  · have hle : c.toNat ≤ 57 := hhigh
    omega

theorem digit_table : ∀ n < 128, (Char.ofNat n).isDigit = true →
    (Char.ofNat n).toUpper = Char.ofNat n ∧ (Char.ofNat n).toLower = Char.ofNat n ∧
      ((Char.ofNat n).isAlpha || Char.ofNat n == '_' || Char.ofNat n == '$') = false := by
  decide +kernel

theorem letter_table : ∀ n < 128, isLowerAlnum (Char.ofNat n) = true →
    (Char.ofNat n).isDigit = false →
      (Char.ofNat n).isAlpha = true ∧ (Char.ofNat n).toLower = Char.ofNat n ∧
        (Char.ofNat n).toUpper.isAlpha = true ∧ (Char.ofNat n).toUpper.toNat + 32 = n ∧
        isLowerAlnum (Char.ofNat n).toUpper = false ∧
        (Char.ofNat n).toUpper.toLower = Char.ofNat n := by
  decide +kernel

theorem digit_facts {c : Char} (hc : isLowerAlnum c = true) (h : c.isDigit = true) :
    c.toUpper = c ∧ c.toLower = c ∧ (c.isAlpha || c == '_' || c == '$') = false := by
  have hn := alnum_toNat hc
  have hfacts := digit_table c.toNat hn
  rw [Char.ofNat_toNat] at hfacts
  exact hfacts h

/-- A letter of a word, and its capital. -/
structure Letter (c : Char) : Prop where
  alnum : isLowerAlnum c = true
  digit : c.isDigit = false
  alpha : c.isAlpha = true
  lower : c.toLower = c
  capital : c.toUpper.isAlpha = true
  shift : c.toUpper.toNat + 32 = c.toNat
  upper : isLowerAlnum c.toUpper = false
  back : c.toUpper.toLower = c

theorem letter {c : Char} (hc : isLowerAlnum c = true) (h : c.isDigit = false) : Letter c := by
  have hfacts := letter_table c.toNat (alnum_toNat hc)
  rw [Char.ofNat_toNat] at hfacts
  have ⟨halpha, hlower, hcapital, hshift, hupper, hback⟩ := hfacts hc h
  exact ⟨hc, h, halpha, hlower, hcapital, hshift, hupper, hback⟩

theorem alnum_toLower {c : Char} (hc : isLowerAlnum c = true) : c.toLower = c := by
  cases h : c.isDigit with
  | true => exact (digit_facts hc h).2.1
  | false => exact (letter hc h).lower

theorem toUpper_injective {c d : Char} (hc : Letter c) (hd : Letter d)
    (h : c.toUpper = d.toUpper) : c = d := by
  have hnat : c.toNat = d.toNat := by
    rw [← hc.shift, ← hd.shift, h]
  rw [← Char.ofNat_toNat c, hnat, Char.ofNat_toNat]

/-! Parts -/

def Alnum (text : Text) : Prop := ∀ c ∈ text, isLowerAlnum c = true

theorem mem_splitOnP {p : Char → Bool} {text : Text} :
    ∀ piece ∈ text.splitOnP p, ∀ c ∈ piece, p c = false := by
  induction text with
  | nil =>
    intro piece hpiece
    rw [List.splitOnP_nil, List.mem_singleton] at hpiece
    rw [hpiece]
    exact fun _ h => absurd h List.not_mem_nil
  | cons d text ih =>
    intro piece hpiece
    rw [List.splitOnP_cons_eq_if_modifyHead] at hpiece
    split at hpiece
    · rcases List.mem_cons.mp hpiece with rfl | hpiece
      · exact fun _ h => absurd h List.not_mem_nil
      · exact ih piece hpiece
    · rename_i hd
      obtain ⟨head, tail, hsplit⟩ := List.exists_cons_of_ne_nil (List.splitOnP_ne_nil p text)
      rw [hsplit] at hpiece ih
      rcases List.mem_cons.mp hpiece with rfl | hpiece
      · intro c hc
        rcases List.mem_cons.mp hc with rfl | hc
        · exact Bool.eq_false_iff.mpr hd
        · exact ih head List.mem_cons_self c hc
      · exact ih piece (List.mem_cons_of_mem _ hpiece)

theorem splitOnP_empty {p : Char → Bool} {text : Text}
    (h : ∀ piece ∈ text.splitOnP p, piece = []) : ∀ c ∈ text, p c = true := by
  induction text with
  | nil => exact fun _ h => absurd h List.not_mem_nil
  | cons d text ih =>
    rw [List.splitOnP_cons_eq_if_modifyHead] at h
    split at h
    · rename_i hd
      have hrest := ih fun piece hpiece => h piece (List.mem_cons_of_mem _ hpiece)
      intro c hc
      rcases List.mem_cons.mp hc with rfl | hc
      · exact hd
      · exact hrest c hc
    · obtain ⟨head, tail, hsplit⟩ := List.exists_cons_of_ne_nil (List.splitOnP_ne_nil p text)
      rw [hsplit] at h
      exact absurd (h _ List.mem_cons_self) (List.cons_ne_nil _ _)

theorem mem_parts {text part : Text} (h : part ∈ parts text) : part ≠ [] ∧ Alnum part := by
  have ⟨hsplit, hne⟩ := List.mem_filter.mp h
  refine ⟨fun hnil => ?_, fun c hc => ?_⟩
  · rw [hnil] at hne
    cases hne
  · have hc := mem_splitOnP part hsplit c hc
    rwa [Bool.not_eq_false'] at hc

theorem parts_nil {text : Text} (h : parts text = []) : Bare text := by
  have hempty : ∀ piece ∈ text.splitOnP fun c => !isLowerAlnum c, piece = [] := by
    intro piece hpiece
    have hnot := List.filter_eq_nil_iff.mp h piece hpiece
    rwa [Bool.not_eq_true, Bool.not_eq_false', List.isEmpty_iff] at hnot
  intro c hc
  have hbare := splitOnP_empty hempty c hc
  rwa [Bool.not_eq_true'] at hbare

theorem parts_alnum {text : Text} (hne : text ≠ []) (h : Alnum text) : parts text = [text] := by
  have hsplit : (text.splitOnP fun c => !isLowerAlnum c) = [text] := by
    apply List.splitOnP_eq_singleton
    intro c hc
    rw [h c hc]
    rfl
  have hkeep : (!text.isEmpty) = true := by
    rw [Bool.not_eq_true', List.isEmpty_eq_false_iff]
    exact hne
  rw [parts, hsplit]
  exact List.filter_cons_of_pos hkeep

/-! Words -/

/-- A letter, then letters and digits. -/
def Word (word : Text) : Prop := ∃ c rest, word = c :: rest ∧ Letter c ∧ Alnum rest

/-- The words that `merge` gives for a name that does not start with a digit. -/
def Words (words : List Text) : Prop := words ≠ [] ∧ ∀ word ∈ words, Word word

theorem Word.alnum {word : Text} (h : Word word) : Alnum word := by
  obtain ⟨c, rest, rfl, hc, hrest⟩ := h
  intro d hd
  rcases List.mem_cons.mp hd with rfl | hd
  · exact hc.alnum
  · exact hrest d hd

theorem Word.append {word more : Text} (h : Word word) (hmore : Alnum more) :
    Word (word ++ more) := by
  obtain ⟨c, rest, rfl, hc, hrest⟩ := h
  refine ⟨c, rest ++ more, rfl, hc, fun d hd => ?_⟩
  exact (List.mem_append.mp hd).elim (hrest d) (hmore d)

theorem word_of_part {part : Text} (hne : part ≠ []) (hpart : Alnum part)
    (h : startsWithDigit part = false) : Word part := by
  obtain ⟨c, rest, rfl⟩ := List.exists_cons_of_ne_nil hne
  have hc := hpart c List.mem_cons_self
  exact ⟨c, rest, rfl, letter hc h, fun d hd => hpart d (List.mem_cons_of_mem _ hd)⟩

theorem capitalize_digit {part : Text} (hpart : Alnum part) (h : startsWithDigit part = true) :
    capitalize part = part := by
  cases part with
  | nil => cases h
  | cons c rest => rw [capitalize, (digit_facts (hpart c List.mem_cons_self) h).1]

theorem capitalize_append {word : Text} (hne : word ≠ []) (more : Text) :
    capitalize (word ++ more) = capitalize word ++ more := by
  obtain ⟨c, rest, rfl⟩ := List.exists_cons_of_ne_nil hne
  rfl

theorem flatten_capitalize {first : Text} (hne : first ≠ []) (more : List Text) :
    ((first :: more).map capitalize).flatten = capitalize (humps (first :: more)) := by
  rw [humps, capitalize_append hne, List.map_cons, List.flatten_cons]

/-- Merging gives words, the first of which goes on from the given one, and does not show in the
name that they make. -/
theorem merge_words : ∀ {more : List Text} {word : Text}, Word word →
    (∀ part ∈ more, part ≠ [] ∧ Alnum part) →
      Words (merge word more) ∧ humps (merge word more) = humps (word :: more) := by
  intro more
  induction more with
  | nil =>
    intro word hword _
    refine ⟨⟨List.cons_ne_nil _ _, fun w hw => ?_⟩, rfl⟩
    rw [List.mem_singleton.mp hw]
    exact hword
  | cons next more ih =>
    intro word hword hparts
    have ⟨hne, hnext⟩ := hparts next List.mem_cons_self
    have hmore : ∀ part ∈ more, part ≠ [] ∧ Alnum part :=
      fun part hpart => hparts part (List.mem_cons_of_mem _ hpart)
    rw [merge]
    cases hdigit : startsWithDigit next with
    | true =>
      have ⟨hwords, hhumps⟩ := ih (hword.append hnext) hmore
      rw [if_pos rfl]
      refine ⟨hwords, ?_⟩
      rw [hhumps, humps, humps, List.map_cons, List.flatten_cons, capitalize_digit hnext hdigit,
        List.append_assoc]
    | false =>
      have hstart := word_of_part hne hnext hdigit
      have ⟨⟨hnil, hwords⟩, hhumps⟩ := ih hstart hmore
      obtain ⟨first, rest, hmerge⟩ := List.exists_cons_of_ne_nil hnil
      have hfirst : first ≠ [] := by
        obtain ⟨c, tail, rfl, _⟩ := hwords first (hmerge ▸ List.mem_cons_self)
        exact List.cons_ne_nil _ _
      rw [if_neg Bool.false_ne_true]
      refine ⟨⟨List.cons_ne_nil _ _, fun w hw => ?_⟩, ?_⟩
      · rcases List.mem_cons.mp hw with rfl | hw
        · exact hword
        · exact hwords w hw
      · rw [humps, humps, flatten_capitalize hne, ← hhumps, hmerge, flatten_capitalize hfirst]

/-! The words can be told from the name that they make -/

theorem takeWhile_alnum {word rest : Text} (hword : Alnum word)
    (hrest : ∀ c ∈ rest.head?, isLowerAlnum c = false) :
    (word ++ rest).takeWhile isLowerAlnum = word := by
  rw [List.takeWhile_append_of_pos hword]
  cases rest with
  | nil => exact List.append_nil _
  | cons c rest =>
    rw [List.takeWhile_cons, hrest c rfl, if_neg Bool.false_ne_true, List.append_nil]

theorem Word.capital_head {word : Text} (h : Word word) (rest : Text) :
    ∀ c ∈ (capitalize word ++ rest).head?, isLowerAlnum c = false := by
  obtain ⟨d, tail, rfl, hd, _⟩ := h
  intro c hc
  obtain rfl : d.toUpper = c := Option.some.inj hc
  exact hd.upper

theorem flatten_head {words : List Text} (h : ∀ word ∈ words, Word word) :
    ∀ c ∈ (words.map capitalize).flatten.head?, isLowerAlnum c = false := by
  cases words with
  | nil => exact fun _ hc => nomatch hc
  | cons word words => exact (h word List.mem_cons_self).capital_head _

/-- Capitals are where a word begins. -/
theorem capitals_injective : ∀ {words words' : List Text} {first first' : Text},
    Alnum first → Alnum first' → (∀ word ∈ words, Word word) → (∀ word ∈ words', Word word) →
      first ++ (words.map capitalize).flatten = first' ++ (words'.map capitalize).flatten →
        first = first' ∧ words = words' := by
  intro words
  induction words with
  | nil =>
    intro words' first first' hfirst hfirst' hwords hwords' h
    have hsame : first = first' := by
      rw [← takeWhile_alnum hfirst (flatten_head hwords), h,
        takeWhile_alnum hfirst' (flatten_head hwords')]
    subst hsame
    have hrest := List.append_cancel_left h
    cases words' with
    | nil => exact ⟨rfl, rfl⟩
    | cons word words' =>
      obtain ⟨d, tail, rfl, _⟩ := hwords' word List.mem_cons_self
      cases hrest
  | cons word words ih =>
    intro words' first first' hfirst hfirst' hwords hwords' h
    have hsame : first = first' := by
      rw [← takeWhile_alnum hfirst (flatten_head hwords), h,
        takeWhile_alnum hfirst' (flatten_head hwords')]
    subst hsame
    have hrest := List.append_cancel_left h
    obtain ⟨d, tail, rfl, hd, htail⟩ := hwords word List.mem_cons_self
    cases words' with
    | nil => cases hrest
    | cons word' words' =>
      obtain ⟨d', tail', rfl, hd', htail'⟩ := hwords' word' List.mem_cons_self
      rw [List.map_cons, List.map_cons, List.flatten_cons, List.flatten_cons, capitalize, capitalize,
        List.cons_append, List.cons_append] at hrest
      have ⟨hcapital, hafter⟩ := List.cons.inj hrest
      obtain rfl := toUpper_injective hd hd' hcapital
      have ⟨htails, hothers⟩ := ih htail htail'
        (fun w hw => hwords w (List.mem_cons_of_mem _ hw))
        (fun w hw => hwords' w (List.mem_cons_of_mem _ hw)) hafter
      rw [htails, hothers]
      exact ⟨rfl, rfl⟩

theorem humps_injective {words words' : List Text} (h : Words words) (h' : Words words')
    (heq : humps words = humps words') : words = words' := by
  obtain ⟨first, more, rfl⟩ := List.exists_cons_of_ne_nil h.1
  obtain ⟨first', more', rfl⟩ := List.exists_cons_of_ne_nil h'.1
  have ⟨hfirst, hmore⟩ := capitals_injective (h.2 first List.mem_cons_self).alnum
    (h'.2 first' List.mem_cons_self).alnum (fun w hw => h.2 w (List.mem_cons_of_mem _ hw))
    (fun w hw => h'.2 w (List.mem_cons_of_mem _ hw)) heq
  rw [hfirst, hmore]

/-- The letters and digits of ASCII. -/
def AsciiName (text : Text) : Prop :=
  ∀ c ∈ text, c.toNat < 128 ∧ (c.isAlpha = true ∨ c.isDigit = true) ∧ isLowerAlnum c.toLower = true

theorem alpha_toNat {c : Char} (h : c.isAlpha = true) : c.toNat < 128 := by
  rcases Bool.or_eq_true_iff.mp h with hupper | hlower
  · have hle : c.toNat ≤ 90 := (of_decide_eq_true hupper).2
    omega
  · have hle : c.toNat ≤ 122 := of_decide_eq_true (Bool.and_eq_true_iff.mp hlower).2
    omega

theorem asciiName_alnum {word : Text} (h : Alnum word) : AsciiName word := by
  intro c hc
  have hlow := h c hc
  refine ⟨alnum_toNat hlow, ?_, by rw [alnum_toLower hlow]; exact hlow⟩
  cases hdigit : c.isDigit with
  | true => exact Or.inr rfl
  | false => exact Or.inl (letter hlow hdigit).alpha

theorem Word.asciiName_capitalize {word : Text} (h : Word word) : AsciiName (capitalize word) := by
  obtain ⟨d, tail, rfl, hd, htail⟩ := h
  intro c hc
  rcases List.mem_cons.mp hc with rfl | hc
  · exact ⟨alpha_toNat hd.capital, Or.inl hd.capital, by rw [hd.back]; exact hd.alnum⟩
  · exact asciiName_alnum htail c hc

theorem Words.asciiName {words : List Text} (h : Words words) : AsciiName (humps words) := by
  obtain ⟨first, more, rfl⟩ := List.exists_cons_of_ne_nil h.1
  intro c hc
  rcases List.mem_append.mp hc with hc | hc
  · exact asciiName_alnum (h.2 first List.mem_cons_self).alnum c hc
  · obtain ⟨text, htext, hc⟩ := List.mem_flatten.mp hc
    obtain ⟨word, hword, rfl⟩ := List.mem_map.mp htext
    exact (h.2 word (List.mem_cons_of_mem _ hword)).asciiName_capitalize c hc

theorem Words.head {words : List Text} (h : Words words) :
    ∃ c rest, humps words = c :: rest ∧ Letter c := by
  obtain ⟨first, more, rfl⟩ := List.exists_cons_of_ne_nil h.1
  obtain ⟨c, rest, rfl, hc, _⟩ := h.2 first List.mem_cons_self
  exact ⟨c, _, rfl, hc⟩

theorem Words.isIdentifierName {words : List Text} (h : Words words) (ids : IdChars) :
    isIdentifierName ids (humps words) = true := by
  obtain ⟨c, rest, hhumps, hc⟩ := h.head
  have hascii := h.asciiName
  rw [hhumps] at hascii ⊢
  have hstart : Js.isIdStart ids c = true := by
    rw [Js.isIdStart, if_pos (alpha_toNat hc.alpha), hc.alpha]
    rfl
  have hrest : rest.all (Js.isIdPart ids) = true := by
    rw [List.all_eq_true]
    intro d hd
    have ⟨hlow, hname, _⟩ := hascii d (List.mem_cons_of_mem _ hd)
    rw [Js.isIdPart, if_pos hlow]
    rcases hname with halpha | hdigit
    · rw [halpha]
      rfl
    · rw [hdigit, Bool.or_true]
      rfl
  rw [Js.isIdentifierName, hstart, hrest]
  rfl

theorem Words.isPlain {words : List Text} (h : Words words) : isPlain (humps words) = true := by
  obtain ⟨c, rest, hhumps, hc⟩ := h.head
  have hascii := h.asciiName
  rw [hhumps] at hascii ⊢
  have hrest : (rest.all fun d => d.isAlpha || d.isDigit || d == '_' || d == '$') = true := by
    rw [List.all_eq_true]
    intro d hd
    rcases (hascii d (List.mem_cons_of_mem _ hd)).2.1 with halpha | hdigit
    · rw [halpha]
      rfl
    · rw [hdigit, Bool.or_true]
      rfl
  rw [Drizzle.isPlain, hc.alpha, hrest]
  rfl

theorem reserved_alnum : (Js.reserved.all fun word => word.all isLowerAlnum) = true := by
  decide +kernel

/-- A reserved word is one word. -/
theorem Words.reserved {words : List Text} (h : Words words) :
    humps words ∈ Js.reserved ↔ ∃ word ∈ Js.reserved, words = [word] := by
  constructor
  · intro hmem
    obtain ⟨first, more, rfl⟩ := List.exists_cons_of_ne_nil h.1
    cases more with
    | nil =>
      have hfirst : humps [first] = first := List.append_nil _
      rw [hfirst] at hmem
      exact ⟨first, hmem, rfl⟩
    | cons word more =>
      obtain ⟨c, tail, rfl, hc, _⟩ := h.2 word (List.mem_cons_of_mem _ List.mem_cons_self)
      have hcapital : c.toUpper ∈ humps (first :: (c :: tail) :: more) :=
        List.mem_append_right _ List.mem_cons_self
      have hall := List.all_eq_true.mp reserved_alnum _ hmem
      have hlow := List.all_eq_true.mp hall _ hcapital
      exact Bool.noConfusion (hlow.symm.trans hc.upper)
  · rintro ⟨word, hmem, rfl⟩
    have hword : humps [word] = word := List.append_nil _
    rw [hword]
    exact hmem

/-! The three ways of a name -/

section
variable (ids : IdChars) (cases : LowerCase)

/-- What `camel` makes of a name, and what tells it apart. -/
inductive Named (name : Text) : Text → Form → Prop where
  | raw (hparts : parts (cases.lower name) = []) :
    Named name (cases.lower name) (.value (keyValue ids (cases.lower name)))
  | quoted (first : Text) (more : List Text) (hparts : parts (cases.lower name) = first :: more)
      (hdigit : startsWithDigit first = true) :
    Named name (stringify name) (.value (some (units name)))
  | words (first : Text) (more : List Text) (hparts : parts (cases.lower name) = first :: more)
      (hdigit : startsWithDigit first = false) (hwords : Words (merge first more)) :
    Named name (humps (merge first more)) (.words (merge first more))

theorem named (name : Text) : Named ids cases name (camel cases name) (form ids cases name) := by
  unfold camel form
  cases hparts : parts (cases.lower name) with
  | nil => exact .raw hparts
  | cons first more =>
    dsimp only
    have hmem : ∀ part ∈ first :: more, part ≠ [] ∧ Alnum part := by
      rw [← hparts]
      exact fun _ h => mem_parts h
    have ⟨hne, hfirst⟩ := hmem first List.mem_cons_self
    cases hdigit : startsWithDigit first with
    | true =>
      have hplain : ¬ isPlain (first ++ (more.map capitalize).flatten) = true := by
        obtain ⟨c, rest, rfl⟩ := List.exists_cons_of_ne_nil hne
        have hstart := (digit_facts (hfirst c List.mem_cons_self) hdigit).2.2
        rw [List.cons_append, isPlain, hstart, Bool.false_and]
        exact Bool.false_ne_true
      rw [if_neg hplain, if_pos rfl]
      exact .quoted first more hparts hdigit
    | false =>
      have ⟨hwords, hhumps⟩ := merge_words (word_of_part hne hfirst hdigit)
        fun part hpart => hmem part (List.mem_cons_of_mem _ hpart)
      have hout : first ++ (more.map capitalize).flatten = humps (merge first more) := hhumps.symm
      rw [hout, if_pos hwords.isPlain, if_neg Bool.false_ne_true]
      exact .words first more hparts hdigit hwords

/-- The property that a name becomes. -/
def Form.key : Form → Option (List UInt16)
  | .words list => some (units (humps list))
  | .value name => name

variable {ids cases} {name name' key key' : Text} {f f' : Form}

theorem Named.keyValue (h : Named ids cases name key f) : keyValue ids key = f.key := by
  cases h with
  | raw hparts => rfl
  | quoted first more hparts hdigit => exact Js.keyValue_stringify ids name
  | words first more hparts hdigit hwords =>
    exact Js.keyValue_identifier (hwords.isIdentifierName ids)

/-- A name that becomes the property of words has words itself. -/
theorem Named.words_ne_value {words : List Text} {value : Option (List UInt16)}
    (hwords : Words words) (h : Named ids cases name key (.value value)) :
    value ≠ some (units (humps words)) := by
  intro hvalue
  obtain ⟨c, rest, hhumps, hc⟩ := hwords.head
  cases h with
  | raw hparts =>
    obtain ⟨body, hbody, hbare⟩ := Js.keyValue_bare (parts_nil hparts) hvalue
    have hsame := Js.units_injective hbody
    rw [hhumps] at hsame
    have hlow := hbare c (hsame ▸ List.mem_cons_self)
    exact Bool.noConfusion (hc.alnum.symm.trans hlow)
  | quoted first more hparts hdigit =>
    have hsame := Js.units_injective (Option.some.inj hvalue)
    have hascii : AsciiName name := hsame ▸ hwords.asciiName
    have hlower : cases.lower name = name.map Char.toLower :=
      cases.ascii name fun d hd => (hascii d hd).1
    have halnum : Alnum (name.map Char.toLower) := by
      intro d hd
      obtain ⟨e, he, rfl⟩ := List.mem_map.mp hd
      exact (hascii e he).2.2
    have hlist : name.map Char.toLower = c :: rest.map Char.toLower := by
      rw [hsame, hhumps, List.map_cons, hc.lower]
    -- the name is one part, which starts with a letter
    rw [hlower, parts_alnum (by rw [hlist]; exact List.cons_ne_nil _ _) halnum] at hparts
    rw [← (List.cons.inj hparts).1, hlist] at hdigit
    exact Bool.noConfusion (hdigit.symm.trans hc.digit)

/-- Names that become one property are not told apart. -/
theorem Named.form_eq (h : Named ids cases name key f) (h' : Named ids cases name' key' f')
    (heq : f.key = f'.key) : f = f' := by
  cases f with
  | words words =>
    cases f' with
    | words words' =>
      cases h with
      | words _ _ _ _ hwords =>
        cases h' with
        | words _ _ _ _ hwords' =>
          have hhumps := Js.units_injective (Option.some.inj heq)
          rw [humps_injective hwords hwords' hhumps]
    | value value =>
      cases h with
      | words _ _ _ _ hwords => exact absurd heq.symm (h'.words_ne_value hwords)
  | value value =>
    cases f' with
    | words words' =>
      cases h' with
      | words _ _ _ _ hwords' => exact absurd heq (h.words_ne_value hwords')
    | value value' => exact congrArg Form.value heq

/-! Identifiers -/

section
variable (ids cases)

/-- The name becomes an identifier. -/
def Identifies (name : Text) : Prop :=
  match parts (cases.lower name) with
  | [] => isIdentifierName ids (cases.lower name) = true
  | first :: _ => startsWithDigit first = false

/-- The name becomes a word that names no binding. -/
def IsReserved (name : Text) : Prop := ∃ word ∈ Js.reserved, form ids cases name = .words [word]

end

theorem camel_identifier_iff (name : Text) :
    isIdentifierName ids (camel cases name) = true ↔ Identifies ids cases name := by
  have hnamed := named ids cases name
  generalize camel cases name = key at hnamed ⊢
  generalize form ids cases name = f at hnamed
  cases hnamed with
  | raw hparts => rw [Identifies, hparts]
  | quoted first more hparts hdigit =>
    rw [Identifies, hparts, Js.stringify_not_identifier]
    dsimp only
    rw [hdigit]
    exact ⟨fun h => h.symm, fun h => h.symm⟩
  | words first more hparts hdigit hwords =>
    rw [Identifies, hparts, hwords.isIdentifierName ids]
    exact ⟨fun _ => hdigit, fun _ => rfl⟩

instance (name : Text) : Decidable (Identifies ids cases name) :=
  decidable_of_iff _ (camel_identifier_iff name)

instance (name : Text) : Decidable (IsReserved ids cases name) :=
  inferInstanceAs (Decidable (∃ word ∈ Js.reserved, _))

theorem camel_binding_iff (name : Text) :
    Js.isBinding ids (camel cases name) = true ↔
      Identifies ids cases name ∧ ¬ IsReserved ids cases name := by
  rw [← camel_identifier_iff, Js.isBinding, Bool.and_eq_true, Bool.not_eq_true',
    List.contains_eq_mem, decide_eq_false_iff_not]
  refine and_congr_right fun hidentifier => not_congr ?_
  have hnamed := named ids cases name
  rw [IsReserved]
  generalize camel cases name = key at hnamed hidentifier ⊢
  generalize form ids cases name = f at hnamed ⊢
  cases hnamed with
  | raw hparts =>
    constructor
    · intro hmem
      have hbare := parts_nil hparts
      generalize cases.lower name = key at hmem hbare hidentifier
      cases key with
      | nil => cases hidentifier
      | cons c rest =>
        have hall := List.all_eq_true.mp reserved_alnum _ hmem
        have hlow := List.all_eq_true.mp hall c List.mem_cons_self
        exact Bool.noConfusion (hlow.symm.trans (hbare c List.mem_cons_self))
    · rintro ⟨word, _, hform⟩
      cases hform
  | quoted first more hparts hdigit =>
    rw [Js.stringify_not_identifier] at hidentifier
    cases hidentifier
  | words first more hparts hdigit hwords =>
    rw [hwords.reserved]
    constructor
    · rintro ⟨word, hmem, hword⟩
      exact ⟨word, hmem, congrArg Form.words hword⟩
    · rintro ⟨word, hmem, hword⟩
      exact ⟨word, hmem, Form.words.inj hword⟩

end

end FastFirebird.Drizzle
