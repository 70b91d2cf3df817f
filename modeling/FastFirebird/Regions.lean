import FastFirebird.LeadingWords

/-! A text as the walk with `regionAt` sees it: which of its characters lie in a region. -/
namespace FastFirebird

/-- For each character, whether a region of a kind that counts holds it. Every round takes a
character. -/
def maskFrom (counts : RegionType → Bool) : Nat → Text → List Bool
  | 0, _ => []
  | _ + 1, [] => []
  | fuel + 1, c :: rest =>
    match regionAt (c :: rest) with
    | none => false :: maskFrom counts fuel rest
    | some r =>
      List.replicate r.length (counts r.type) ++ maskFrom counts fuel ((c :: rest).drop r.length)

def mask (counts : RegionType → Bool) (text : Text) : List Bool :=
  maskFrom counts text.length text

/-- A region that is not closed ends with the text. -/
theorem regionAt_unterminated {text : Text} {r : Region} (h : regionAt text = some r)
    (ht : ¬ r.terminated = true) : r.length = text.length := by
  have hopen : ∀ {type : RegionType} {length : Option Nat}, region type text length = r →
      r.length = text.length := by
    intro type length hr
    cases length with
    | none => rw [← hr]; rfl
    | some n => rw [← hr] at ht; exact absurd rfl ht
  cases text with
  | nil => cases h
  | cons c rest =>
    rw [regionAt] at h
    split at h
    · cases h
      exact absurd rfl ht
    split at h
    · exact hopen (Option.some.inj h)
    split at h
    · split at h
      · exact hopen (Option.some.inj h)
      · exact hopen (Option.some.inj h)
    split at h
    · exact hopen (Option.some.inj h)
    split at h
    · exact hopen (Option.some.inj h)
    · cases h

/-- A region, closed or not, holds a character and ends in the text. -/
theorem regionAt_length {text : Text} {r : Region} (h : regionAt text = some r) :
    1 ≤ r.length ∧ r.length ≤ text.length := by
  by_cases ht : r.terminated = true
  · have hbound := (Opens.of_regionAt h ht).length_pos
    omega
  · have hend := regionAt_unterminated h ht
    cases text with
    | nil => cases h
    | cons c rest =>
      rw [hend]
      exact ⟨Nat.succ_pos _, le_rfl⟩

theorem Lexes.behind_char {c : Char} {rest : Text} (h : Lexes (c :: rest))
    (hnone : regionAt (c :: rest) = none) : Lexes rest := by
  cases h with
  | char _ hrest => exact hrest
  | region hopens _ =>
    rw [hopens.regionAt.1] at hnone
    cases hnone

theorem Lexes.behind_region {text : Text} {r : Region} (h : Lexes text) (hopens : Opens text r) :
    Lexes (text.drop r.length) := by
  have hr := hopens.regionAt.1
  cases h with
  | nil => cases hopens
  | char hnone _ =>
    rw [hr] at hnone
    cases hnone
  | region hopens' hrest =>
    rw [hopens'.regionAt.1] at hr
    obtain rfl := Option.some.inj hr
    exact hrest

theorem dropWhile_head (p : Char → Bool) (text : Text) :
    (text.dropWhile p).head?.any p = false := by
  induction text with
  | nil => rfl
  | cons c text ih =>
    rw [List.dropWhile_cons]
    split
    · exact ih
    · simpa using ‹¬ p c = true›

theorem isSpace_opensNothing {c : Char} (h : isSpace c = true) (rest : Text) :
    regionAt (c :: rest) = none := by
  have hne : ∀ d : Char, isSpace d = false → c ≠ d := by
    rintro d hd rfl
    rw [h] at hd
    cases hd
  apply regionAt_eq_none.mpr
  refine ⟨fun hc => hne '-' (by decide) hc.1, fun hc => hne '/' (by decide) hc.1, ?_,
    hne '\'' (by decide), hne '"' (by decide)⟩
  rintro ⟨hc | hc, -⟩
  · exact hne 'q' (by decide) hc
  · exact hne 'Q' (by decide) hc

section Mask

variable {counts : RegionType → Bool}

theorem maskFrom_fuel : ∀ {m n : Nat} {text : Text}, text.length ≤ m → text.length ≤ n →
    maskFrom counts m text = maskFrom counts n text := by
  intro m
  induction m with
  | zero =>
    intro n text hm _
    obtain rfl : text = [] := List.eq_nil_of_length_eq_zero (by omega)
    cases n <;> rfl
  | succ m ih =>
    intro n text hm hn
    cases text with
    | nil => cases n <;> rfl
    | cons c rest =>
      obtain _ | n := n
      · simp at hn
      simp only [List.length_cons] at hm hn
      rw [maskFrom, maskFrom]
      split
      · rw [ih (n := n) (by omega) (by omega)]
      · rename_i r hr
        have hpos := (regionAt_length hr).1
        have hdrop : ((c :: rest).drop r.length).length ≤ rest.length := by
          rw [List.length_drop, List.length_cons]
          omega
        rw [ih (n := n) (by omega) (by omega)]

theorem mask_char {c : Char} {rest : Text} (h : regionAt (c :: rest) = none) :
    mask counts (c :: rest) = false :: mask counts rest := by
  rw [mask, List.length_cons, maskFrom, h]
  rfl

theorem mask_region {text : Text} {r : Region} (h : regionAt text = some r) :
    mask counts text =
      List.replicate r.length (counts r.type) ++ mask counts (text.drop r.length) := by
  cases text with
  | nil => cases h
  | cons c rest =>
    have hpos := (regionAt_length h).1
    have hdrop : ((c :: rest).drop r.length).length ≤ rest.length := by
      rw [List.length_drop, List.length_cons]
      omega
    rw [mask, List.length_cons, maskFrom, h]
    simp only
    rw [mask, maskFrom_fuel hdrop le_rfl]

theorem mask_length : ∀ {n : Nat} {text : Text}, text.length ≤ n →
    (mask counts text).length = text.length := by
  intro n
  induction n with
  | zero =>
    intro text hlen
    obtain rfl : text = [] := List.eq_nil_of_length_eq_zero (by omega)
    rfl
  | succ n ih =>
    intro text hlen
    cases text with
    | nil => rfl
    | cons c rest =>
      simp only [List.length_cons] at hlen
      cases hr : regionAt (c :: rest) with
      | none =>
        rw [mask_char hr, List.length_cons, ih (by omega)]
        rfl
      | some r =>
        have hbound := regionAt_length hr
        have hdrop : ((c :: rest).drop r.length).length ≤ n := by
          rw [List.length_drop, List.length_cons]
          omega
        rw [mask_region hr, List.length_append, List.length_replicate, ih hdrop, List.length_drop]
        omega

end Mask

/-! ### A region in another text -/

/-- What is quoted ends where no quote follows. -/
theorem quotedLength_retail {q : Char} : ∀ {text rest : Text},
    quotedLength q text = some text.length →
      (quotedLength q (text ++ rest) = some text.length ↔ rest.head? ≠ some q)
  | [], rest, h => by cases h
  | [c], rest, h => by
    rw [quotedLength] at h
    split at h
    · rename_i heq
      cases rest with
      | nil => simp [quotedLength, heq]
      | cons d rest =>
        rw [List.singleton_append, quotedLength, if_pos heq]
        by_cases hd : d = q
        · rw [if_pos hd]
          simp only [List.length_singleton, List.head?_cons, hd, ne_eq, not_true_eq_false,
            iff_false]
          intro hlen
          obtain ⟨j, hj, heq⟩ := Option.map_eq_some_iff.mp hlen
          omega
        · rw [if_neg hd]
          simp [hd]
    · cases h
  | c :: d :: text, rest, h => by
    rw [quotedLength] at h
    rw [List.cons_append, List.cons_append, quotedLength]
    split at h
    · rename_i heq
      rw [if_pos heq]
      split at h
      · rename_i heq'
        obtain ⟨j, hj, hlen⟩ := Option.map_eq_some_iff.mp h
        have hj' : quotedLength q text = some text.length := by
          rw [hj]
          simp only [List.length_cons] at hlen
          congr 1
          omega
        rw [if_pos heq', ← quotedLength_retail hj']
        simp only [List.length_cons]
        constructor
        · intro hsome
          obtain ⟨i, hi, hilen⟩ := Option.map_eq_some_iff.mp hsome
          rw [hi]
          congr 1
          omega
        · intro hsome
          rw [hsome]
          rfl
      · simp only [List.length_cons, Option.some.injEq] at h
        omega
    · rename_i heq
      obtain ⟨j, hj, hlen⟩ := Option.map_eq_some_iff.mp h
      have hj' : quotedLength q (d :: text) = some (d :: text).length := by
        rw [hj]
        simp only [List.length_cons] at hlen ⊢
        congr 1
        omega
      have ih := @quotedLength_retail _ _ rest hj'
      rw [List.cons_append] at ih
      rw [if_neg heq, ← ih]
      simp only [List.length_cons]
      constructor
      · intro hsome
        obtain ⟨i, hi, hilen⟩ := Option.map_eq_some_iff.mp hsome
        rw [hi]
        congr 1
        omega
      · intro hsome
        rw [hsome]
        rfl

/-- What may follow a region that has been followed by `rest`, so that it is still a region. -/
def MayFollow (r : Region) (rest rest' : Text) : Prop :=
  rest'.head? = rest.head? ∨
    ∀ c, rest'.head? = some c → c ≠ '\'' ∧ c ≠ '"' ∧ (r.type = .lineComment → isEol c = true)

theorem MayFollow.quote {r : Region} {rest rest' : Text} {q : Char} (h : MayFollow r rest rest')
    (hq : q = '\'' ∨ q = '"') (hrest : rest.head? ≠ some q) : rest'.head? ≠ some q := by
  rcases h with h | h
  · rw [h]
    exact hrest
  · intro hhead
    obtain ⟨h₁, h₂, -⟩ := h q hhead
    exact hq.elim h₁ h₂

/-- A region does not depend on the text behind it, but for the next character. -/
theorem Opens.retail {taken rest rest' : Text} {r : Region} (h : Opens (taken ++ rest) r)
    (hlen : taken.length = r.length) (hnext : MayFollow r rest rest') :
    Opens (taken ++ rest') r := by
  have hslice := h.slice (Nat.le_of_eq hlen.symm)
  generalize htaken : taken = text at hslice
  cases hslice with
  | lineComment body =>
    subst htaken
    have hbody : (body.takeWhile (!isEol ·)).length = body.length := by
      simp only [List.length_cons] at hlen
      omega
    have hall : body.takeWhile (!isEol ·) = body := (List.takeWhile_sublist _).eq_of_length hbody
    have hstop : rest'.takeWhile (!isEol ·) = [] := by
      cases rest' with
      | nil => rfl
      | cons c rest' =>
        apply List.takeWhile_cons_of_neg
        have heol : isEol c = true := by
          rcases hnext with hsame | hnext
          · -- the comment ended here before, at an end of line
            have hold := h.regionAt.1
            rw [List.cons_append, List.cons_append, FastFirebird.regionAt, if_pos ⟨rfl, rfl⟩] at hold
            have hcount := congrArg Region.length (Option.some.inj hold)
            simp only [List.drop_succ_cons, List.drop_zero] at hcount
            cases rest with
            | nil => cases hsame
            | cons d rest =>
              obtain rfl : c = d := Option.some.inj hsame
              by_contra hne
              rw [List.takeWhile_append, if_pos hbody, List.takeWhile_cons_of_pos (by simpa using hne)]
                at hcount
              simp only [List.length_append, List.length_cons] at hcount
              omega
          · exact (hnext c rfl).2.2 rfl
        simp [heol]
    have hwhole : (body ++ rest').takeWhile (!isEol ·) = body := by
      rw [List.takeWhile_append, if_pos hbody, hstop, List.append_nil]
    have hopens := Opens.lineComment (body ++ rest')
    rw [hwhole] at hopens
    rw [hall]
    exact hopens
  | blockComment hk =>
    subst htaken
    exact .blockComment (pairAt_extend rest' hk)
  | qLiteral hc hk =>
    subst htaken
    exact .qLiteral hc (pairAt_extend rest' hk)
  | @string body k hk =>
    subst htaken
    have hlength : k = body.length := by simpa using hlen.symm
    subst hlength
    generalize hold : '\'' :: body ++ rest = old at h
    cases h with
    | string hk' =>
      simp only [List.cons_append, List.cons.injEq, true_and] at hold
      subst hold
      exact .string ((quotedLength_retail hk).mpr
        (hnext.quote (.inl rfl) ((quotedLength_retail hk).mp hk')))
  | @quotedIdentifier body k hk =>
    subst htaken
    have hlength : k = body.length := by simpa using hlen.symm
    subst hlength
    generalize hold : '"' :: body ++ rest = old at h
    cases h with
    | quotedIdentifier hk' =>
      simp only [List.cons_append, List.cons.injEq, true_and] at hold
      subst hold
      exact .quotedIdentifier ((quotedLength_retail hk).mpr
        (hnext.quote (.inr rfl) ((quotedLength_retail hk).mp hk')))

end FastFirebird
