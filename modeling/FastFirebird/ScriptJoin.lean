import FastFirebird.ScriptPlaces
import Mathlib.Data.Bool.AllAny

/-! Statements written one after the other, each with the terminator behind it, are taken apart
again. -/
namespace FastFirebird

/-- A terminator of ordinary characters. -/
structure PlainTerminator (terminator : Text) : Prop where
  ne_nil : terminator ≠ []
  chars : ∀ c ∈ terminator, isSpace c = false ∧ c ∉ ['\'', '"', '-', '/', '*', 'q', 'Q']

/-- Each statement, a newline, the terminator and a newline. -/
def joinStatements (terminator : Text) (sqls : List Text) : Text :=
  sqls.flatMap fun sql => sql ++ '\n' :: (terminator ++ ['\n'])

/-- What is behind the terminator starts the next line. -/
def NextLine (tail : Text) : Prop := tail = [] ∨ ∃ rest, tail = '\n' :: rest

/-! ### The scan of a body, cut short -/

/-- Rounds of the scan of a body. -/
inductive BodySteps (terminator : Text) : Text → List Piece → Text → Prop where
  | stop {text : Text} : BodySteps terminator text [] text
  | region {text behind : Text} {r : Region} {pieces : List Piece} : Opens text r →
    BodySteps terminator (text.drop r.length) pieces behind →
    BodySteps terminator text (.region r.type (text.take r.length) :: pieces) behind
  | char {c : Char} {text behind : Text} {pieces : List Piece} :
    regionAt (c :: text) = none → ¬ (terminator ≠ [] ∧ terminator <+: c :: text) →
    BodySteps terminator text pieces behind →
    BodySteps terminator (c :: text) (.char c :: pieces) behind

section Steps

variable {terminator : Text}

theorem BodySteps.scan {text behind closing rest : Text} {pieces pieces' : List Piece}
    (h : BodySteps terminator text pieces behind)
    (h' : BodyScan terminator behind pieces' closing rest) :
    BodyScan terminator text (pieces ++ pieces') closing rest := by
  induction h with
  | stop => exact h'
  | region hopens _ ih => exact .region hopens (ih h')
  | char hnone hmatch _ ih => exact .char hnone hmatch (ih h')

theorem BodySteps.text_eq {text behind : Text} {pieces : List Piece}
    (h : BodySteps terminator text pieces behind) : text = piecesText pieces ++ behind := by
  induction h with
  | stop => rfl
  | @region text behind r pieces _ _ ih =>
    rw [piecesText_cons, List.append_assoc, ← ih]
    exact (List.take_append_drop _ _).symm
  | char _ _ _ ih =>
    rw [ih]
    rfl

/-- A scan that starts at code has content. -/
theorem BodySteps.content {text behind : Text} {pieces : List Piece}
    (h : BodySteps terminator text pieces behind) (hstart : StartsCode text)
    (hne : piecesText pieces ≠ []) : pieces.any Piece.content = true := by
  cases h with
  | stop => exact absurd rfl hne
  | @region text behind r pieces hopens _ =>
    cases text with
    | nil => cases hopens
    | cons c rest =>
      rw [List.any_cons, Piece.content, hstart.2 r hopens.regionAt.1]
      rfl
  | char _ _ _ =>
    rw [List.any_cons, Piece.content, hstart.1]
    rfl

theorem NextLine.head {tail : Text} (h : NextLine tail) {c : Char} (hc : tail.head? = some c) :
    c = '\n' := by
  rcases h with rfl | ⟨rest, rfl⟩
  · cases hc
  · exact (Option.some.inj hc).symm

/-- A terminator in a text that goes on with the next line is in the text itself. -/
theorem PlainTerminator.prefix_of (h : PlainTerminator terminator) {text tail : Text}
    (htail : NextLine tail) (hstarts : terminator <+: text ++ tail) : terminator <+: text := by
  rcases htail with rfl | ⟨rest, rfl⟩
  · rwa [List.append_nil] at hstarts
  rcases Nat.lt_or_ge text.length terminator.length with hlt | hge
  · -- the newline would be in the terminator
    obtain ⟨behind, hbehind⟩ := hstarts
    have hchar := congrArg (fun l => l[text.length]?) hbehind
    simp only [List.getElem?_append_left hlt, List.getElem?_append_right (Nat.le_refl _),
      Nat.sub_self, List.getElem?_cons_zero] at hchar
    have hspace := (h.chars '\n' (List.mem_of_getElem? hchar)).1
    exact absurd hspace (by decide)
  · exact List.prefix_of_prefix_length_le hstarts (List.prefix_append text _) hge

/-- A character that opens nothing still opens nothing when the line ends early. -/
theorem regionAt_none_cut {c : Char} {kept behind tail : Text}
    (h : regionAt (c :: (kept ++ behind)) = none) (htail : NextLine tail) :
    regionAt (c :: (kept ++ tail)) = none := by
  have hhead : ∀ d, (kept ++ tail).head? = some d → (kept ++ behind).head? = some d ∨ d = '\n' := by
    intro d hd
    cases kept with
    | nil => exact .inr (htail.head hd)
    | cons e kept => exact .inl hd
  obtain ⟨h₁, h₂, h₃, h₄, h₅⟩ := regionAt_eq_none.mp h
  apply regionAt_eq_none.mpr
  refine ⟨fun hc => ?_, fun hc => ?_, fun hc => ?_, h₄, h₅⟩
  · rcases hhead _ hc.2 with hd | hd
    · exact h₁ ⟨hc.1, hd⟩
    · exact absurd hd (by decide)
  · rcases hhead _ hc.2 with hd | hd
    · exact h₂ ⟨hc.1, hd⟩
    · exact absurd hd (by decide)
  · rcases hhead _ hc.2 with hd | hd
    · exact h₃ ⟨hc.1, hd⟩
    · exact absurd hd (by decide)

/-- The same of a region. -/
theorem mayFollow_cut {r : Region} {kept behind tail : Text} (htail : NextLine tail) :
    MayFollow r (kept ++ behind) (kept ++ tail) := by
  cases kept with
  | nil =>
    right
    intro c hc
    obtain rfl := htail.head hc
    exact ⟨by decide, by decide, fun _ => by decide⟩
  | cons d kept => exact .inl rfl

/-- A line comment that loses its last blanks. -/
theorem Opens.cutLine {kept blanks behind tail : Text} {r : Region}
    (h : Opens (kept ++ (blanks ++ behind)) r) (htype : r.type = .lineComment)
    (hblanks : ∀ c ∈ blanks, isSpace c = true) (hlong : kept.length < r.length)
    (hshort : r.length ≤ kept.length + blanks.length) (htail : NextLine tail) :
    kept = [] ∨ ∃ r', Opens (kept ++ tail) r' ∧ r'.length = kept.length := by
  have hdash : ∀ rest, blanks ++ behind ≠ '-' :: rest ∨ blanks = [] := by
    intro rest
    cases blanks with
    | nil => exact .inr rfl
    | cons c blanks =>
      left
      rw [List.cons_append]
      rintro heq
      have hc := hblanks c (by simp)
      rw [(List.cons.inj heq).1] at hc
      exact absurd hc (by decide)
  have hsome : blanks ≠ [] := by
    rintro rfl
    simp only [List.length_nil] at hshort
    omega
  generalize hfull : kept ++ (blanks ++ behind) = full at h
  cases h with
  | lineComment body =>
    match kept with
    | [] => exact .inl rfl
    | [c] =>
      simp only [List.singleton_append, List.cons.injEq] at hfull
      exact absurd hfull.2 ((hdash body).resolve_right hsome)
    | c :: d :: kept =>
      right
      simp only [List.cons_append, List.cons.injEq] at hfull
      obtain ⟨rfl, rfl, rfl⟩ := hfull
      simp only [List.length_cons] at hlong
      have hall : (kept.takeWhile (!isEol ·)).length = kept.length := by
        rw [List.takeWhile_append] at hlong
        split at hlong
        · assumption
        · have hlen := (List.takeWhile_sublist (!isEol ·) (l := kept)).length_le
          omega
      have hstop : tail.takeWhile (!isEol ·) = [] := by
        rcases htail with rfl | ⟨rest, rfl⟩
        · rfl
        · rfl
      refine ⟨_, .lineComment (kept ++ tail), ?_⟩
      rw [List.takeWhile_append, if_pos hall, hstop, List.append_nil]
      simp only [List.length_cons]
      omega
  | blockComment _ => cases htype
  | qLiteral _ _ => cases htype
  | string _ => cases htype
  | quotedIdentifier _ => cases htype

/-- The scan of a body goes over the part of it that is kept when blanks at its end are cut, in
whatever text goes on with the next line. -/
theorem BodyScan.cut {text closing rest : Text} {pieces : List Piece}
    (h : BodyScan terminator text pieces closing rest) (hplain : PlainTerminator terminator)
    {tail : Text} (htail : NextLine tail) : ∀ {kept blanks : Text},
      piecesText pieces = kept ++ blanks → (∀ c ∈ blanks, isSpace c = true) →
        ∃ pieces', BodySteps terminator (kept ++ tail) pieces' tail := by
  induction h with
  | done =>
    intro kept blanks hkept _
    rw [(List.append_eq_nil_iff.mp hkept.symm).1]
    exact ⟨[], .stop⟩
  | closed _ _ =>
    intro kept blanks hkept _
    rw [(List.append_eq_nil_iff.mp hkept.symm).1]
    exact ⟨[], .stop⟩
  | @region text closing rest r pieces hopens hbody ih =>
    intro kept blanks hkept hblanks
    have hpos := hopens.length_pos
    have htaken : (text.take r.length).length = r.length := by
      rw [List.length_take]
      omega
    rw [piecesText_cons, Piece.text] at hkept
    have htext : text = kept ++ (blanks ++ (closing ++ rest)) := by
      have hwhole := hbody.text_eq
      calc text = text.take r.length ++ text.drop r.length := (List.take_append_drop _ _).symm
        _ = text.take r.length ++ piecesText pieces ++ (closing ++ rest) := by
          rw [hwhole, List.append_assoc, List.append_assoc]
        _ = kept ++ (blanks ++ (closing ++ rest)) := by rw [hkept, List.append_assoc]
    rcases Nat.lt_or_ge kept.length r.length with hlt | hge
    · -- the cut is in the region, so that this is a line comment
      have hlength := congrArg List.length hkept
      simp only [List.length_append, htaken] at hlength
      have hline : r.type = .lineComment := by
        by_contra htype
        obtain ⟨d, hd, hspace⟩ := hopens.last htype
        rw [htext, List.getElem?_append_right (by omega)] at hd
        have hin : r.length - 1 - kept.length < blanks.length := by omega
        rw [List.getElem?_append_left hin] at hd
        rw [hblanks d (List.mem_of_getElem? hd)] at hspace
        cases hspace
      rw [htext] at hopens
      rcases hopens.cutLine hline hblanks hlt (by omega) htail with rfl | ⟨r', hopens', hr'⟩
      · exact ⟨[], .stop⟩
      · have hstop : BodySteps terminator ((kept ++ tail).drop r'.length) [] tail := by
          rw [hr', List.drop_left]
          exact .stop
        exact ⟨_, .region hopens' hstop⟩
    · -- the region is kept as it is
      obtain ⟨kept', rfl⟩ : ∃ kept', kept = text.take r.length ++ kept' := by
        have hstarts : text.take r.length <+: kept := by
          apply @List.prefix_of_prefix_length_le _ _ _ (kept ++ blanks)
          · rw [← hkept]
            exact List.prefix_append _ _
          · exact List.prefix_append _ _
          · rw [htaken]
            exact hge
        obtain ⟨kept', hkept'⟩ := hstarts
        exact ⟨kept', hkept'.symm⟩
      rw [List.append_assoc] at hkept
      have hrest := List.append_cancel_left hkept
      obtain ⟨pieces', hsteps⟩ := ih hrest hblanks
      have hopens' : Opens (text.take r.length ++ (kept' ++ tail)) r := by
        apply @Opens.retail _ (kept' ++ (blanks ++ (closing ++ rest))) _ _ _ htaken
        · exact mayFollow_cut htail
        · rw [← List.append_assoc, ← htext]
          exact hopens
      have hbehind : BodySteps terminator
          ((text.take r.length ++ (kept' ++ tail)).drop r.length) pieces' tail := by
        rw [List.drop_left' htaken]
        exact hsteps
      rw [List.append_assoc]
      exact ⟨_, .region hopens' hbehind⟩
  | @char c text closing rest pieces hnone hmatch hbody ih =>
    intro kept blanks hkept hblanks
    cases kept with
    | nil => exact ⟨[], .stop⟩
    | cons d kept =>
      rw [piecesText_cons, Piece.text, List.singleton_append, List.cons_append] at hkept
      obtain ⟨rfl, hrest⟩ := List.cons.inj hkept
      obtain ⟨pieces', hsteps⟩ := ih hrest hblanks
      have htext : text = kept ++ (blanks ++ (closing ++ rest)) := by
        rw [hbody.text_eq, hrest, List.append_assoc, List.append_assoc]
      refine ⟨_, .char ?_ ?_ hsteps⟩
      · rw [htext] at hnone
        exact regionAt_none_cut hnone htail
      · rintro ⟨hne, hstarts⟩
        apply hmatch ⟨hne, ?_⟩
        have hkeep : terminator <+: c :: kept := hplain.prefix_of htail hstarts
        rw [htext]
        exact hkeep.trans ⟨blanks ++ (closing ++ rest), rfl⟩

end Steps

/-! ### Where SET TERM starts -/

theorem sameLetters_length {a b : Text} (h : sameLetters a b = true) : a.length = b.length := by
  have hmap : a.map Char.toLower = b.map Char.toLower := eq_of_beq h
  have hlength := congrArg List.length hmap
  rwa [List.length_map, List.length_map] at hlength

theorem sameLetters_newline {a b : Text} (h : sameLetters a b = true)
    (hb : ∀ c ∈ b, c.toLower ≠ '\n') : '\n' ∉ a := by
  intro hmem
  have hmap : a.map Char.toLower = b.map Char.toLower := eq_of_beq h
  have hlower : Char.toLower '\n' ∈ b.map Char.toLower := by
    rw [← hmap]
    exact List.mem_map_of_mem hmem
  obtain ⟨c, hc, heq⟩ := List.mem_map.mp hlower
  exact hb c hc (heq.trans (by decide))

/-- `SET`, a gap and `TERM` at the start of a text, with what is behind them. -/
structure SetTermHead (text a gap b behind : Text) : Prop where
  text_eq : text = a ++ (gap ++ (b ++ behind))
  set : sameLetters a "set".toList = true
  gap_ne : gap ≠ []
  spaces : ∀ c ∈ gap, isSpace c = true
  term : sameLetters b "term".toList = true

/-- No word goes on behind. -/
def WordEnds (behind : Text) : Prop := behind.head?.any isWordChar = false

theorem afterSetTerm_head {text : Text} (h : (afterSetTerm text).isSome = true) :
    ∃ a gap b behind, SetTermHead text a gap b behind ∧ WordEnds behind := by
  unfold afterSetTerm at h
  split at h
  · rename_i hset
    dsimp only at h
    split at h
    · rename_i hterm
      obtain ⟨hgap, hword, hbehind⟩ := hterm
      refine ⟨_, _, _, ((text.drop 3).dropWhile isSpace).drop 4,
        ⟨?_, hset, hgap, fun c hc => List.mem_takeWhile_imp hc, hword⟩, ?_⟩
      · rw [List.take_append_drop, List.takeWhile_append_dropWhile, List.take_append_drop]
      · simpa [WordEnds] using hbehind
    · cases h
  · cases h

theorem SetTermHead.after {text a gap b behind : Text} (h : SetTermHead text a gap b behind)
    (hword : WordEnds behind) : afterSetTerm text = some behind := by
  have ha : a.length = 3 := sameLetters_length h.set
  have hb : b.length = 4 := sameLetters_length h.term
  have htext := h.text_eq
  have hfirst : text.take 3 = a := by rw [htext]; exact List.take_left' ha
  have hrest : text.drop 3 = gap ++ (b ++ behind) := by rw [htext]; exact List.drop_left' ha
  have hhead : (b ++ behind).takeWhile isSpace = [] ∧
      (b ++ behind).dropWhile isSpace = b ++ behind := by
    cases b with
    | nil => cases hb
    | cons c b =>
      have hc : isSpace c = false := by
        have hlower : c.toLower = 't' := (List.cons.inj (eq_of_beq h.term)).1
        by_contra hspace
        have hc : isSpace c = true := Bool.not_eq_false _ |>.mp hspace
        rw [isSpace_toLower hc] at hlower
        rw [hlower] at hc
        exact absurd hc (by decide)
      rw [List.cons_append]
      exact ⟨List.takeWhile_cons_of_neg (by simp [hc]), List.dropWhile_cons_of_neg (by simp [hc])⟩
  have hgap : (text.drop 3).takeWhile isSpace = gap := by
    rw [hrest, List.takeWhile_append_of_pos h.spaces, hhead.1, List.append_nil]
  have hbehind : (text.drop 3).dropWhile isSpace = b ++ behind := by
    rw [hrest, List.dropWhile_append_of_pos h.spaces, hhead.2]
  unfold afterSetTerm
  rw [if_pos (by rw [hfirst]; exact h.set)]
  dsimp only
  rw [hgap, hbehind, List.take_left' hb, List.drop_left' hb,
    if_pos ⟨h.gap_ne, h.term, by rw [hword]; rfl⟩]

/-- The word `TERM` starts the terminator. -/
def BeginsTerm (terminator : Text) : Prop :=
  sameLetters (terminator.take 4) "term".toList = true ∧ WordEnds (terminator.drop 4)

/-- A statement is no `SET TERM` command by itself, and not the `SET` of a terminator that begins
with `TERM`. -/
def NoSetTerm (terminator sql : Text) : Prop :=
  startsSetTerm sql = false ∧ ¬ (sameLetters sql "set".toList = true ∧ BeginsTerm terminator)

/-- What is trimmed ends with a character that is not white space. -/
def EndsCode (text : Text) : Prop := ∃ front d, text = front ++ [d] ∧ isSpace d = false

theorem EndsCode.suffix {text front behind : Text} (h : EndsCode text) (htext : text = front ++ behind)
    (hne : behind ≠ []) : ∃ c ∈ behind, isSpace c = false := by
  obtain ⟨init, d, heq, hd⟩ := h
  obtain ⟨body, e, rfl⟩ := List.eq_nil_or_concat behind |>.resolve_left hne
  rw [heq, List.concat_eq_append, ← List.append_assoc] at htext
  have hlast := (List.append_inj' htext rfl).2
  obtain rfl := (List.cons.inj hlast).1
  exact ⟨d, by simp, hd⟩

theorem SetTermHead.letters {text a gap b behind : Text} (h : SetTermHead text a gap b behind) :
    '\n' ∉ a ∧ '\n' ∉ b :=
  ⟨sameLetters_newline h.set (List.all_iff_forall_prop.mp (by decide)),
    sameLetters_newline h.term (List.all_iff_forall_prop.mp (by decide))⟩

/-- `SET TERM` in a statement with a line behind it is in the statement, or the line is the rest of
the command. -/
theorem SetTermHead.cut {sql z a gap b tail : Text} (h : SetTermHead (sql ++ '\n' :: z) a gap b tail)
    (hword : WordEnds tail) (hends : EndsCode sql) :
    (afterSetTerm sql).isSome = true ∨ (a = sql ∧ '\n' :: z = gap ++ (b ++ tail)) := by
  obtain ⟨hnewa, hnewb⟩ := h.letters
  rcases List.append_eq_append_iff.mp h.text_eq with ⟨as, ha, hrest⟩ | ⟨s, hsql, hrest⟩
  · cases as with
    | nil =>
      rw [List.append_nil] at ha
      exact .inr ⟨ha, hrest⟩
    | cons c as =>
      rw [List.cons_append] at hrest
      obtain ⟨rfl, -⟩ := List.cons.inj hrest
      exact absurd (by rw [ha]; simp) hnewa
  · cases hs : s with
    | nil =>
      rw [hs, List.append_nil] at hsql
      rw [hs, List.nil_append] at hrest
      exact .inr ⟨hsql.symm, hrest.symm⟩
    | cons c s' =>
      left
      -- the gap ends in the statement, as the statement does not end with white space
      obtain ⟨d, hd, hspace⟩ := hends.suffix hsql (by rw [hs]; exact List.cons_ne_nil _ _)
      rcases List.append_eq_append_iff.mp hrest with ⟨s₂, hgap, hterm⟩ | ⟨g, hgap, -⟩
      · rcases List.append_eq_append_iff.mp hterm with ⟨s₃, hb, htail⟩ | ⟨b', hb, htail⟩
        · -- and so does the word
          have hhead : SetTermHead sql a gap b s₃ :=
            ⟨by rw [hsql, hgap, hb], h.set, h.gap_ne, h.spaces, h.term⟩
          have hends : WordEnds s₃ := by
            cases s₃ with
            | nil => rfl
            | cons e s₃ =>
              rw [htail] at hword
              exact hword
          rw [hhead.after hends]
          rfl
        · cases b' with
          | nil =>
            rw [List.append_nil] at hb
            have hhead : SetTermHead sql a gap b [] :=
              ⟨by rw [hsql, hgap, hb, List.append_nil], h.set, h.gap_ne, h.spaces, h.term⟩
            rw [hhead.after rfl]
            rfl
          | cons e b' =>
            rw [List.cons_append] at htail
            obtain ⟨rfl, -⟩ := List.cons.inj htail
            exact absurd (by rw [hb]; simp) hnewb
      · rw [h.spaces d (by rw [hgap]; exact List.mem_append_left _ hd)] at hspace
        cases hspace

theorem PlainTerminator.head (h : PlainTerminator terminator) : ∃ c rest, terminator = c :: rest ∧
    isSpace c = false ∧ ∀ behind, regionAt (c :: behind) = none := by
  obtain ⟨c, rest, rfl⟩ := List.exists_cons_of_ne_nil h.ne_nil
  obtain ⟨hspace, hchars⟩ := h.chars c (by simp)
  simp only [List.mem_cons, List.not_mem_nil, or_false, not_or] at hchars
  obtain ⟨h₁, h₂, h₃, h₄, -, h₅, h₆⟩ := hchars
  refine ⟨c, rest, rfl, hspace, fun behind => regionAt_eq_none.mpr ?_⟩
  exact ⟨fun hc => h₃ hc.1, fun hc => h₄ hc.1, fun hc => hc.1.elim h₅ h₆, h₁, h₂⟩

/-- No `SET TERM` starts at a statement that is followed by the terminator. -/
theorem NoSetTerm.joined {terminator sql : Text} (h : NoSetTerm terminator sql)
    (hplain : PlainTerminator terminator) (hends : EndsCode sql) (rest : Text) :
    startsSetTerm (sql ++ '\n' :: (terminator ++ '\n' :: rest)) = false := by
  by_contra hstarts
  have hsome := Bool.not_eq_false _ |>.mp hstarts
  rw [startsSetTerm] at hsome
  rcases Nat.lt_or_ge sql.length 12 with hshort | hlong
  · obtain ⟨k, hk⟩ := Nat.exists_eq_add_of_lt hshort
    have htake : (sql ++ '\n' :: (terminator ++ '\n' :: rest)).take 12 =
        sql ++ '\n' :: (terminator ++ '\n' :: rest).take k := by
      rw [List.take_append, List.take_of_length_le (by omega), hk]
      congr 1
      rw [Nat.add_assoc, Nat.add_sub_cancel_left]
      rfl
    rw [htake] at hsome
    obtain ⟨a, gap, b, tail, hhead, hword⟩ := afterSetTerm_head hsome
    rcases hhead.cut hword hends with hin | ⟨rfl, hline⟩
    · have hself : startsSetTerm sql = true := by
        rw [startsSetTerm, List.take_of_length_le (by omega)]
        exact hin
      rw [h.1] at hself
      cases hself
    · -- the terminator starts with TERM
      apply h.2
      refine ⟨hhead.set, ?_⟩
      have ha : a.length = 3 := sameLetters_length hhead.set
      obtain rfl : k = 8 := by omega
      obtain ⟨c, more, hterminator, hspace, -⟩ := hplain.head
      have hgap : gap = ['\n'] := by
        cases hg : gap with
        | nil => exact absurd hg hhead.gap_ne
        | cons d gap' =>
          rw [hg, List.cons_append] at hline
          obtain ⟨rfl, hbehind⟩ := List.cons.inj hline
          cases gap' with
          | nil => rfl
          | cons e gap' =>
            rw [hterminator, List.cons_append, List.take_succ_cons, List.cons_append] at hbehind
            have hce : c = e := (List.cons.inj hbehind).1
            rw [hce, hhead.spaces e (by rw [hg]; simp)] at hspace
            cases hspace
      rw [hgap, List.singleton_append] at hline
      have hwords := (List.cons.inj hline).2
      have hb : b.length = 4 := sameLetters_length hhead.term
      have hnewb := hhead.letters.2
      have hlong : 4 ≤ terminator.length := by
        by_contra hshort
        have hchar : ((terminator ++ '\n' :: rest).take 8)[terminator.length]? =
            (b ++ tail)[terminator.length]? := by rw [hwords]
        rw [List.getElem?_take_of_lt (by omega), List.getElem?_append_right (Nat.le_refl _),
          Nat.sub_self, List.getElem?_cons_zero, List.getElem?_append_left (by omega)] at hchar
        exact hnewb (List.mem_of_getElem? hchar.symm)
      have hfirst : terminator.take 4 = b := by
        have htake := congrArg (List.take 4) hwords
        rw [List.take_take, List.take_left' hb, Nat.min_eq_left (by decide),
          List.take_append_of_le_length hlong] at htake
        exact htake
      refine ⟨by rw [hfirst]; exact hhead.term, ?_⟩
      have htail : tail = (terminator.drop 4 ++ '\n' :: rest).take 4 := by
        have hdrop := congrArg (List.drop 4) hwords
        rw [List.drop_left' hb, List.drop_take, List.drop_append_of_le_length hlong] at hdrop
        exact hdrop.symm
      cases hbehind : terminator.drop 4 with
      | nil => rfl
      | cons d behind =>
        rw [htail, hbehind] at hword
        exact hword
  · rw [List.take_append_of_le_length hlong] at hsome
    rw [NoSetTerm, startsSetTerm, hsome] at h
    exact absurd h.1 (by simp)

/-! ### A statement in another script -/

/-- A comment that starts here, by its first two characters. -/
theorem regionAt_comment {c : Char} {rest : Text} {r : Region} (h : regionAt (c :: rest) = some r) :
    r.type.isComment = true ↔
      (c = '-' ∧ rest.head? = some '-') ∨ (c = '/' ∧ rest.head? = some '*') := by
  have htype : ∀ {type : RegionType} {text : Text} {length : Option Nat},
      region type text length = r → r.type = type := by
    intro type text length hr
    rw [← hr]
    cases length <;> rfl
  rw [regionAt] at h
  split at h
  · rename_i hc
    cases h
    exact ⟨fun _ => .inl hc, fun _ => rfl⟩
  split at h
  · rename_i hc
    rw [htype (Option.some.inj h)]
    exact ⟨fun _ => .inr hc, fun _ => rfl⟩
  rename_i hline hblock
  have hno : r.type.isComment = false := by
    split at h
    · split at h
      · rw [htype (Option.some.inj h)]
        rfl
      · rw [htype (Option.some.inj h)]
        rfl
    split at h
    · rw [htype (Option.some.inj h)]
      rfl
    split at h
    · rw [htype (Option.some.inj h)]
      rfl
    · cases h
  rw [hno]
  constructor
  · intro hfalse
    cases hfalse
  · intro hc
    exact (hc.elim (fun h => hline h) (fun h => hblock h)).elim

/-- Code still starts where the line ends early. -/
theorem startsCode_cut {c : Char} {kept behind tail : Text}
    (h : StartsCode (c :: (kept ++ behind))) (htail : NextLine tail) :
    StartsCode (c :: (kept ++ tail)) := by
  refine ⟨h.1, fun r hr => ?_⟩
  by_contra hcomment
  have hopening := (regionAt_comment hr).mp (Bool.not_eq_false _ |>.mp hcomment)
  have hhead : ∀ d, d ≠ '\n' → (kept ++ tail).head? = some d → (kept ++ behind).head? = some d := by
    intro d hd hhead
    cases kept with
    | nil => exact absurd (htail.head hhead) hd
    | cons e kept => exact hhead
  have hopening' : (c = '-' ∧ (kept ++ behind).head? = some '-') ∨
      (c = '/' ∧ (kept ++ behind).head? = some '*') :=
    hopening.imp (fun hc => ⟨hc.1, hhead _ (by decide) hc.2⟩)
      fun hc => ⟨hc.1, hhead _ (by decide) hc.2⟩
  cases hold : regionAt (c :: (kept ++ behind)) with
  | none =>
    obtain ⟨h₁, h₂, -⟩ := regionAt_eq_none.mp hold
    exact hopening'.elim h₁ h₂
  | some r' =>
    have hno := h.2 r' hold
    rw [(regionAt_comment hold).mpr hopening'] at hno
    cases hno

/-- A statement that is scanned in the same way in every script, up to the end of its line. -/
structure Restates (terminator sql : Text) : Prop where
  ends : EndsCode sql
  trimmed : trim (sql ++ ['\n']) = sql
  starts : ∀ tail, NextLine tail → StartsCode (sql ++ tail)
  steps : ∀ tail, NextLine tail → ∃ pieces, BodySteps terminator (sql ++ tail) pieces tail

theorem trimEnd_newline (text : Text) : trimEnd (text ++ ['\n']) = trimEnd text := by
  have hspace : isSpace '\n' = true := by decide
  rw [trimEnd, List.reverse_append, List.reverse_singleton, List.singleton_append,
    List.dropWhile_cons_of_pos hspace]
  rfl

theorem trimEnd_ends (text : Text) (hne : trimEnd text ≠ []) :
    EndsCode (trimEnd text) ∧ trimEnd (trimEnd text) = trimEnd text := by
  obtain ⟨d, rest, hdrop⟩ : ∃ d rest, text.reverse.dropWhile isSpace = d :: rest := by
    apply List.exists_cons_of_ne_nil
    intro hnil
    apply hne
    rw [trimEnd, hnil]
    rfl
  have hd : isSpace d = false := by
    have hhead := dropWhile_head isSpace text.reverse
    rw [hdrop] at hhead
    exact hhead
  have htrim : trimEnd text = rest.reverse ++ [d] := by rw [trimEnd, hdrop, List.reverse_cons]
  refine ⟨⟨rest.reverse, d, htrim, hd⟩, ?_⟩
  rw [htrim, trimEnd, List.reverse_append, List.reverse_reverse, List.reverse_singleton,
    List.singleton_append, List.dropWhile_cons_of_neg (by rw [hd]; exact Bool.false_ne_true),
    List.reverse_cons]

theorem BodyScan.restates {terminator text closing rest : Text} {pieces : List Piece}
    (h : BodyScan terminator text pieces closing rest) (hstart : StartsCode text)
    (hplain : PlainTerminator terminator) (hne : trim (piecesText pieces) ≠ []) :
    Restates terminator (trim (piecesText pieces)) := by
  obtain ⟨blanks, htext, hblanks⟩ := h.trimmed hstart
  have hwhole := h.text_eq
  cases hsql : trim (piecesText pieces) with
  | nil => exact absurd hsql hne
  | cons c sql =>
    rw [hsql] at htext
    have hbody : text = c :: (sql ++ (blanks ++ (closing ++ rest))) := by
      rw [hwhole, htext]
      simp
    have hc : isSpace c = false := by
      rw [hbody] at hstart
      exact hstart.1
    have htrim : trimEnd (piecesText pieces) = c :: sql := by
      rw [← hsql, htext, List.cons_append, trim_eq_trimEnd hc]
    obtain ⟨hends, hagain⟩ := trimEnd_ends (piecesText pieces) (by rw [htrim]; exact List.cons_ne_nil _ _)
    rw [htrim] at hends hagain
    refine ⟨hends, ?_, fun tail htail => ?_, fun tail htail => ?_⟩
    · rw [List.cons_append, trim_eq_trimEnd hc, ← List.cons_append, trimEnd_newline, hagain]
    · rw [hbody] at hstart
      exact startsCode_cut hstart htail
    · exact h.cut hplain htail htext hblanks

section Join

variable {cases : CaseMap} {terminator : Text}

/-- What a statement is, but for its place. -/
def ParsedStatement.meaning (s : ParsedStatement) : Text × StatementKind × Option ClientCommand :=
  (s.sql, s.kind, s.client)

theorem statement_meaning (sql : Text) (p q : Position) :
    (statement cases sql p).meaning = (statement cases sql q).meaning := by
  unfold statement
  split <;> rfl

/-- The statements of a script without `SET TERM` commands. -/
theorem Layout.restates {text : Text} {items : List Item} (h : Layout terminator text items)
    (hplain : PlainTerminator terminator)
    (hset : ∀ command t new, Item.setTerm command t new ∉ items) (p : Position) :
    ∀ s ∈ assemble cases p items,
      Restates terminator s.sql ∧ ∃ q, s = statement cases s.sql q := by
  induction h generalizing p with
  | done _ =>
    intro s hs
    cases hs
  | setTerm _ _ _ _ _ _ _ =>
    exact absurd (List.mem_cons_of_mem _ List.mem_cons_self) (hset _ _ _)
  | @body terminator text behind closing rest trivia pieces items htrivia _ _ hbody _ ih =>
    intro s hs
    have hrest : ∀ q, ∀ s ∈ assemble cases q items,
        Restates terminator s.sql ∧ ∃ q, s = statement cases s.sql q :=
      fun q => ih hplain (fun command t new hmem => hset command t new (by simp [hmem])) q
    rw [assemble] at hs
    · rw [assemble] at hs
      split at hs
      · rename_i hcontent
        rcases List.mem_cons.mp hs with rfl | hs
        · rw [(statement_sql cases _ _).1]
          exact ⟨hbody.restates htrivia.startsCode hplain hcontent.2, _, rfl⟩
        · exact hrest _ s hs
      · exact hrest _ s hs
    · intro pieces closing heq
      cases heq

theorem trivia_blanks {lead behind : Text} (hlead : ∀ c ∈ lead, isSpace c = true)
    (hstart : StartsCode behind) : Trivia (lead ++ behind) (lead.map .char) behind := by
  induction lead with
  | nil => exact .stop hstart
  | cons c lead ih =>
    exact .space (hlead c (by simp)) (ih fun d hd => hlead d (by simp [hd]))

/-- One statement with the terminator behind it. -/
theorem Restates.scan {sql : Text} (h : Restates terminator sql) (hplain : PlainTerminator terminator)
    (rest : Text) : ∃ pieces, BodyScan terminator (sql ++ '\n' :: (terminator ++ rest)) pieces
      terminator rest ∧ piecesText pieces = sql ++ ['\n'] ∧ pieces.any Piece.content = true := by
  have htail : NextLine ('\n' :: (terminator ++ rest)) := .inr ⟨_, rfl⟩
  obtain ⟨pieces, hsteps⟩ := h.steps _ htail
  have hpieces : piecesText pieces = sql := List.append_cancel_right hsteps.text_eq.symm
  obtain ⟨c, more, hterminator, hspace, hnone⟩ := hplain.head
  have hclosed : BodyScan terminator (terminator ++ rest) [] terminator rest := by
    apply BodyScan.closed hplain.ne_nil
    rw [hterminator]
    exact hnone _
  have hline : BodyScan terminator ('\n' :: (terminator ++ rest)) [.char '\n'] terminator rest := by
    refine .char (isSpace_opensNothing (by decide) _) ?_ hclosed
    rintro ⟨-, behind, hbehind⟩
    rw [hterminator, List.cons_append] at hbehind
    rw [(List.cons.inj hbehind).1] at hspace
    exact absurd hspace (by decide)
  refine ⟨_, hsteps.scan hline, ?_, ?_⟩
  · rw [piecesText, List.flatMap_append]
    show piecesText pieces ++ ['\n'] = sql ++ ['\n']
    rw [hpieces]
  · have hne : piecesText pieces ≠ [] := by
      obtain ⟨front, d, hsql, -⟩ := h.ends
      rw [hpieces, hsql]
      simp
    rw [List.any_append, hsteps.content (h.starts _ htail) hne]
    rfl

theorem Restates.ne_nil {sql : Text} (h : Restates terminator sql) : sql ≠ [] := by
  obtain ⟨front, d, hsql, -⟩ := h.ends
  rw [hsql]
  simp

/-- The joined statements, behind some white space. -/
theorem layout_join (hplain : PlainTerminator terminator) : ∀ {sqls : List Text},
    (∀ sql ∈ sqls, Restates terminator sql ∧ NoSetTerm terminator sql) → ∀ {lead : Text},
      (∀ c ∈ lead, isSpace c = true) →
        ∃ items, Layout terminator (lead ++ joinStatements terminator sqls) items ∧
          ∀ p, (assemble cases p items).map ParsedStatement.meaning =
            sqls.map fun sql => (statement cases sql ⟨1, 1⟩).meaning
  | [], _, lead, hlead => ⟨_, .done (trivia_blanks hlead trivial), fun _ => rfl⟩
  | sql :: sqls, hsqls, lead, hlead => by
    obtain ⟨hsql, hset⟩ := hsqls sql (by simp)
    obtain ⟨items, hlayout, hmeaning⟩ := @layout_join hplain
      sqls (fun s hs => hsqls s (by simp [hs])) ['\n'] (List.forall_mem_singleton.mpr (by decide))
    have htail : NextLine ('\n' :: (terminator ++ '\n' :: joinStatements terminator sqls)) :=
      .inr ⟨_, rfl⟩
    have hjoin : joinStatements terminator (sql :: sqls) =
        sql ++ '\n' :: (terminator ++ '\n' :: joinStatements terminator sqls) := by
      simp [joinStatements]
    obtain ⟨pieces, hscan, hpieces, hcontent⟩ :=
      hsql.scan hplain ('\n' :: joinStatements terminator sqls)
    have hne : sql ++ '\n' :: (terminator ++ '\n' :: joinStatements terminator sqls) ≠ [] := by simp
    refine ⟨.trivia (lead.map .char) :: .body pieces terminator :: items, ?_, fun p => ?_⟩
    · rw [hjoin]
      exact .body (trivia_blanks hlead (hsql.starts _ htail)) hne
        (hset.joined hplain hsql.ends _) hscan hlayout
    · have htrim : trim (piecesText pieces) = sql := by rw [hpieces, hsql.trimmed]
      have hstatement : pieces.any Piece.content = true ∧ trim (piecesText pieces) ≠ [] := by
        rw [htrim]
        exact ⟨hcontent, hsql.ne_nil⟩
      have hassemble : ∀ q, assemble cases q (.body pieces terminator :: items) =
          statement cases sql q ::
            assemble cases (q.advance (piecesText pieces ++ terminator)) items := by
        intro q
        rw [assemble, if_pos hstatement, htrim]
      show (assemble cases (p.advance (piecesText (lead.map .char)))
        (.body pieces terminator :: items)).map _ = _
      rw [hassemble, List.map_cons, List.map_cons, hmeaning, statement_meaning sql _ ⟨1, 1⟩]

/-- A statement by itself. -/
theorem Restates.alone {sql : Text} (h : Restates terminator sql)
    (hset : startsSetTerm sql = false) :
    parseScript cases sql terminator = .ok [statement cases sql ⟨1, 1⟩] := by
  obtain ⟨pieces, hsteps⟩ := h.steps [] (.inl rfl)
  rw [List.append_nil] at hsteps
  have hpieces : piecesText pieces = sql := by
    have htext := hsteps.text_eq
    rw [List.append_nil] at htext
    exact htext.symm
  have hstart : StartsCode sql := by
    have hstart := h.starts [] (.inl rfl)
    rwa [List.append_nil] at hstart
  have hcontent := hsteps.content hstart (by rw [hpieces]; exact h.ne_nil)
  have hscan := hsteps.scan .done
  rw [List.append_nil] at hscan
  have htrim : trim (piecesText pieces) = sql := by
    obtain ⟨c, rest, rfl⟩ := List.exists_cons_of_ne_nil h.ne_nil
    have htrimmed := h.trimmed
    rw [List.cons_append, trim_eq_trimEnd hstart.1, ← List.cons_append, trimEnd_newline] at htrimmed
    rw [hpieces, trim_eq_trimEnd hstart.1, htrimmed]
  apply (parseScript_ok cases).mpr
  refine ⟨_, .body (.stop hstart) h.ne_nil hset hscan (.done (.stop trivial)), ?_⟩
  show _ = assemble cases ⟨1, 1⟩ [.body pieces [], .trivia []]
  rw [assemble, if_pos ⟨hcontent, by rw [htrim]; exact h.ne_nil⟩, htrim]
  rfl

end Join

/-- Splitting undoes joining, and leaves a single statement as it is, where no statement is read
as `SET TERM`, by itself or with the terminator. -/
theorem parseScript_join {cases : CaseMap} {script terminator : Text}
    {statements : List ParsedStatement} (hplain : PlainTerminator terminator)
    (h : parseScript cases script terminator = .ok statements)
    (hset : ∀ items, Layout terminator script items →
      ∀ command t new, Item.setTerm command t new ∉ items)
    (hhead : ∀ s ∈ statements, NoSetTerm terminator s.sql) :
    (∃ again, parseScript cases (joinStatements terminator (statements.map (·.sql))) terminator =
        .ok again ∧
      again.map ParsedStatement.meaning = statements.map ParsedStatement.meaning) ∧
    ∀ s ∈ statements, ∃ s', parseScript cases s.sql terminator = .ok [s'] ∧
      s'.meaning = s.meaning := by
  obtain ⟨items, hlayout, rfl⟩ := (parseScript_ok cases).mp h
  have hrestates := @Layout.restates cases _ _ _ hlayout hplain (hset items hlayout) ⟨1, 1⟩
  have hmeaning : ∀ s ∈ assemble cases ⟨1, 1⟩ items,
      (statement cases s.sql ⟨1, 1⟩).meaning = s.meaning := by
    intro s hs
    obtain ⟨-, q, hq⟩ := hrestates s hs
    rw [statement_meaning s.sql ⟨1, 1⟩ q, ← hq]
  constructor
  · have hsqls : ∀ sql ∈ (assemble cases ⟨1, 1⟩ items).map (·.sql),
        Restates terminator sql ∧ NoSetTerm terminator sql := by
      intro sql hsql
      obtain ⟨s, hs, rfl⟩ := List.mem_map.mp hsql
      exact ⟨(hrestates s hs).1, hhead s hs⟩
    obtain ⟨items', hlayout', hagain⟩ :=
      @layout_join cases _ hplain _ hsqls [] (by simp)
    refine ⟨_, (parseScript_ok cases).mpr ⟨items', hlayout', rfl⟩, ?_⟩
    rw [hagain, List.map_map]
    exact List.map_congr_left hmeaning
  · intro s hs
    exact ⟨_, (hrestates s hs).1.alone (hhead s hs).1, hmeaning s hs⟩

theorem parseScript_join_two :
    (∃ again, parseScript basicCase "a\n;\nb--c\n;\n".toList [';'] = .ok again ∧
      again.map ParsedStatement.meaning =
        [(['a'], .other, none), ("b--c".toList, .other, none)]) ∧
    ∀ s ∈ [(⟨['a'], ⟨1, 1⟩, .other, none⟩ : ParsedStatement), ⟨"b--c".toList, ⟨1, 3⟩, .other, none⟩],
      ∃ s', parseScript basicCase s.sql [';'] = .ok [s'] ∧ s'.meaning = s.meaning := by
  have hplain : PlainTerminator [';'] := ⟨by decide, List.forall_mem_singleton.mpr (by decide)⟩
  have hparse : parseScript basicCase "a;b--c\n;".toList [';'] =
      .ok [⟨['a'], ⟨1, 1⟩, .other, none⟩, ⟨"b--c".toList, ⟨1, 3⟩, .other, none⟩] := by decide +kernel
  have hend : Layout [';'] [] [.trivia []] := .done (.stop trivial)
  have hline : BodyScan [';'] "b--c\n;".toList [.char 'b', .region .lineComment "--c".toList,
      .char '\n'] [';'] [] :=
    .char (by decide) (by decide) (.region (.lineComment "c\n;".toList)
      (.char (by decide) (by decide) (.closed (by decide) (by decide))))
  have hb : StartsCode "b--c\n;".toList := ⟨by decide, fun r hr => by cases hr⟩
  have ha : StartsCode "a;b--c\n;".toList := ⟨by decide, fun r hr => by cases hr⟩
  have hletter : BodyScan [';'] "a;b--c\n;".toList [.char 'a'] [';'] "b--c\n;".toList :=
    .char (by decide) (by decide) (.closed (by decide) (by decide))
  have hlayout := Layout.body (.stop ha) (by decide) (by decide) hletter
    (Layout.body (.stop hb) (by decide) (by decide) hline hend)
  have hjoin := parseScript_join hplain hparse
    (fun items h => by
      obtain rfl := h.unique hlayout
      simp) (by
      intro s hs
      rcases List.mem_cons.mp hs with rfl | hs
      · exact ⟨by decide, fun h => absurd h.1 (by decide)⟩
      · obtain rfl := List.mem_singleton.mp hs
        exact ⟨by decide, fun h => absurd h.1 (by decide)⟩)
  exact hjoin

/-- `SET TERM` in front of a terminator that goes on with the word is a statement, which by itself
is the command. -/
theorem setTerm_statement_alone :
    PlainTerminator "foo".toList ∧
    parseScript basicCase "set termfoo".toList "foo".toList =
      .ok [⟨"set term".toList, ⟨1, 1⟩, .other, none⟩] ∧
    (∀ items, Layout "foo".toList "set termfoo".toList items →
      ∀ command t new, Item.setTerm command t new ∉ items) ∧
    parseScript basicCase "set term".toList "foo".toList =
      .error ⟨"SET TERM without a terminator", ⟨1, 1⟩⟩ := by
  have hstart : StartsCode "set termfoo".toList := ⟨by decide, fun r hr => by cases hr⟩
  have hscan : BodyScan "foo".toList "set termfoo".toList ("set term".toList.map .char)
      "foo".toList [] := by
    refine .char (by decide) (by decide) (.char (by decide) (by decide) (.char (by decide)
      (by decide) (.char (by decide) (by decide) (.char (by decide) (by decide) (.char (by decide)
      (by decide) (.char (by decide) (by decide) (.char (by decide) (by decide) ?_)))))))
    exact .closed (by decide) (by decide)
  have hlayout := Layout.body (.stop hstart) (by decide) (by decide) hscan (.done (.stop trivial))
  have hplain : PlainTerminator "foo".toList :=
    ⟨by decide, List.all_iff_forall_prop.mp (by decide)⟩
  refine ⟨hplain, by decide +kernel, fun items h command t new => ?_,
    by decide +kernel⟩
  obtain rfl := h.unique hlayout
  simp

end FastFirebird
