import FastFirebird.ScriptComments
import FastFirebird.ScriptJoin

/-! A script with its comments blanked out, and what `parseScript` makes of it. -/
namespace FastFirebird

/-! ### What `stripComments` leaves -/

/-- A text and what `stripComments` makes of it. -/
inductive Stripped : Text → Text → Prop where
  | nil : Stripped [] []
  | char {c : Char} {rest left : Text} : regionAt (c :: rest) = none → Stripped rest left →
    Stripped (c :: rest) (c :: left)
  | comment {text left : Text} {r : Region} : Opens text r → r.type.isComment = true →
    Stripped (text.drop r.length) left → Stripped text (blank (text.take r.length) ++ left)
  | literal {text left : Text} {r : Region} : Opens text r → r.type.isComment = false →
    Stripped (text.drop r.length) left → Stripped text (text.take r.length ++ left)

theorem Lexes.strip {text : Text} (h : Lexes text) : ∃ left, Stripped text left := by
  induction h with
  | nil => exact ⟨[], .nil⟩
  | char hnone _ ih =>
    obtain ⟨left, hleft⟩ := ih
    exact ⟨_, .char hnone hleft⟩
  | @region text r hopens _ ih =>
    obtain ⟨left, hleft⟩ := ih
    cases hcomment : r.type.isComment with
    | true => exact ⟨_, .comment hopens hcomment hleft⟩
    | false => exact ⟨_, .literal hopens hcomment hleft⟩

section Stripped

variable {text rest left : Text}

theorem Stripped.strips (h : Stripped text left) : ∀ {fuel : Nat} {p : Position}, text.length ≤ fuel →
    stripFrom fuel p text = .ok left := by
  have hregion : ∀ {text left : Text} {r : Region} {fuel : Nat} {p : Position}, Opens text r →
      text.length ≤ fuel → (∀ {fuel : Nat} {p : Position}, (text.drop r.length).length ≤ fuel →
        stripFrom fuel p (text.drop r.length) = .ok left) →
      stripFrom fuel p text =
        .ok ((if r.type.isComment then blank (text.take r.length) else text.take r.length) ++ left) := by
    intro text left r fuel p hopens hfuel ih
    have hpos := hopens.length_pos
    obtain ⟨hat, hterminated⟩ := hopens.regionAt
    obtain _ | fuel := fuel
    · omega
    cases text with
    | nil => cases hopens
    | cons c rest =>
      have hdrop : ((c :: rest).drop r.length).length ≤ fuel := by
        rw [List.length_drop]
        omega
      rw [stripFrom, hat]
      dsimp only
      rw [if_pos hterminated, ih hdrop]
      rfl
  induction h with
  | nil =>
    intro fuel p _
    cases fuel with
    | zero => rfl
    | succ fuel => rfl
  | @char c rest left hnone _ ih =>
    intro fuel p hfuel
    obtain _ | fuel := fuel
    · simp at hfuel
    rw [stripFrom, hnone]
    dsimp only
    rw [ih (Nat.le_of_succ_le_succ hfuel)]
    rfl
  | comment hopens hcomment _ ih =>
    intro fuel p hfuel
    rw [hregion hopens hfuel ih, if_pos hcomment]
  | literal hopens hcomment _ ih =>
    intro fuel p hfuel
    rw [hregion hopens hfuel ih, if_neg (by rw [hcomment]; exact Bool.false_ne_true)]

theorem Stripped.stripComments (h : Stripped text left) :
    FastFirebird.stripComments text = .ok left :=
  h.strips (Nat.le_refl _)

theorem Stripped.behind_char {c : Char} (h : Stripped (c :: rest) left)
    (hnone : regionAt (c :: rest) = none) : ∃ left', left = c :: left' ∧ Stripped rest left' := by
  generalize htext : c :: rest = text at h
  cases h with
  | nil => cases htext
  | char _ hrest =>
    cases htext
    exact ⟨_, rfl, hrest⟩
  | comment hopens _ _ =>
    subst htext
    rw [hopens.regionAt.1] at hnone
    cases hnone
  | literal hopens _ _ =>
    subst htext
    rw [hopens.regionAt.1] at hnone
    cases hnone

theorem Stripped.behind_region {r : Region} (h : Stripped text left) (hopens : Opens text r) :
    ∃ left', left = (if r.type.isComment then blank (text.take r.length) else text.take r.length) ++ left' ∧
      Stripped (text.drop r.length) left' := by
  have hat := hopens.regionAt.1
  cases h with
  | nil => cases hopens
  | char hnone _ =>
    rw [hat] at hnone
    cases hnone
  | @comment _ left' r' hopens' hcomment hrest =>
    obtain rfl : r = r' := Option.some.inj (hat.symm.trans hopens'.regionAt.1)
    exact ⟨left', by rw [if_pos hcomment], hrest⟩
  | @literal _ left' r' hopens' hcomment hrest =>
    obtain rfl : r = r' := Option.some.inj (hat.symm.trans hopens'.regionAt.1)
    exact ⟨left', by rw [if_neg (by rw [hcomment]; exact Bool.false_ne_true)], hrest⟩

/-- The first character is that of the text, or a blank in the place of a comment. -/
theorem Stripped.head (h : Stripped text left) :
    left.head? = text.head? ∨ ∃ c, left.head? = some c ∧ isSpace c = true := by
  cases h with
  | nil => exact .inl rfl
  | char _ _ => exact .inl rfl
  | comment hopens _ _ =>
    obtain ⟨c, blanks, hblank⟩ := List.exists_cons_of_ne_nil (blank_ne_nil hopens)
    have hmem : c ∈ blank _ := hblank ▸ List.mem_cons_self
    right
    refine ⟨c, ?_, blank_spaces c hmem⟩
    rw [hblank]
    rfl
  | @literal _ _ r hopens _ _ =>
    have hpos := hopens.length_pos
    left
    cases text with
    | nil => cases hopens
    | cons c text =>
      obtain ⟨n, hn⟩ := Nat.exists_eq_add_of_le' (show 1 ≤ r.length by omega)
      rw [hn]
      rfl

theorem Stripped.head_of (h : Stripped text left) {c : Char} (hc : left.head? = some c)
    (hspace : isSpace c = false) : text.head? = some c := by
  rcases h.head with heq | ⟨d, hd, hblank⟩
  · rw [← heq]
    exact hc
  · rw [hc] at hd
    rw [Option.some.inj hd, hblank] at hspace
    cases hspace

/-- No region starts where none did. -/
theorem Stripped.regionAt_none {c : Char} (h : Stripped rest left) (hnone : regionAt (c :: rest) = none) :
    regionAt (c :: left) = none := by
  obtain ⟨h₁, h₂, h₃, h₄, h₅⟩ := regionAt_eq_none.mp hnone
  apply regionAt_eq_none.mpr
  exact ⟨fun hc => h₁ ⟨hc.1, h.head_of hc.2 (by decide)⟩, fun hc => h₂ ⟨hc.1, h.head_of hc.2 (by decide)⟩,
    fun hc => h₃ ⟨hc.1, h.head_of hc.2 (by decide)⟩, h₄, h₅⟩

/-- A literal is one in front of what is left behind it. -/
theorem Stripped.opens {r : Region} (h : Stripped (text.drop r.length) left) (hopens : Opens text r)
    (hliteral : r.type.isComment = false) : Opens (text.take r.length ++ left) r := by
  have hpos := hopens.length_pos
  have hlen : (text.take r.length).length = r.length := by
    rw [List.length_take]
    omega
  have hold : Opens (text.take r.length ++ text.drop r.length) r := by
    rw [List.take_append_drop]
    exact hopens
  apply hold.retail hlen
  rcases h.head with heq | ⟨c, hc, hspace⟩
  · exact .inl heq
  · right
    intro d hd
    obtain rfl : c = d := Option.some.inj (hc.symm.trans hd)
    refine ⟨?_, ?_, fun hline => ?_⟩
    · rintro rfl
      exact absurd hspace (by decide)
    · rintro rfl
      exact absurd hspace (by decide)
    · rw [hline] at hliteral
      cases hliteral

/-- What starts in the stripped text without white space, starts in the text. -/
theorem Stripped.prefix_of (h : Stripped text left) : ∀ {t : Text}, (∀ c ∈ t, isSpace c = false) →
    t <+: left → t <+: text := by
  induction h with
  | nil => exact fun _ hstarts => hstarts
  | @char c rest left _ _ ih =>
    intro t ht hstarts
    cases t with
    | nil => exact List.nil_prefix
    | cons d t =>
      obtain ⟨rfl, hbehind⟩ := List.cons_prefix_cons.mp hstarts
      have hrest := ih (fun e he => ht e (List.mem_cons_of_mem _ he)) hbehind
      exact List.cons_prefix_cons.mpr ⟨rfl, hrest⟩
  | @comment text left r hopens _ _ _ =>
    intro t ht hstarts
    cases t with
    | nil => exact List.nil_prefix
    | cons d t =>
      obtain ⟨c, blanks, hblank⟩ := List.exists_cons_of_ne_nil (blank_ne_nil hopens)
      rw [hblank] at hstarts
      obtain ⟨rfl, -⟩ := List.cons_prefix_cons.mp hstarts
      have hspace : isSpace d = true := blank_spaces d (hblank ▸ List.mem_cons_self)
      rw [ht d List.mem_cons_self] at hspace
      cases hspace
  | @literal text left r _ _ _ ih =>
    intro t ht hstarts
    rcases List.prefix_or_prefix_of_prefix hstarts (List.prefix_append _ _) with hshort | ⟨t', rfl⟩
    · exact hshort.trans (List.take_prefix _ _)
    · have hbehind : t' <+: left := (List.prefix_append_right_inj _).mp hstarts
      obtain ⟨z, hz⟩ := ih (fun c hc => ht c (List.mem_append.mpr (.inr hc))) hbehind
      refine ⟨z, ?_⟩
      rw [List.append_assoc, hz, List.take_append_drop]

end Stripped

/-! ### The layout of the stripped script -/

/-- What is left of a piece. -/
def Piece.stripped : Piece → List Piece
  | char c => [char c]
  | region type text => if type.isComment then (blank text).map char else [region type text]

def strippedPieces (pieces : List Piece) : List Piece := pieces.flatMap Piece.stripped

def Item.stripped : Item → Item
  | trivia pieces => trivia (strippedPieces pieces)
  | setTerm command terminator new => setTerm command terminator new
  | body pieces closing => body (strippedPieces pieces) closing

/-- The terminator starts nowhere in the pieces of a body, but for their literals. -/
def NoTerminator (terminator : Text) : List Piece → Text → Prop
  | [], _ => True
  | .char c :: pieces, behind =>
    ¬ (terminator ≠ [] ∧ terminator <+: c :: (piecesText pieces ++ behind)) ∧
      NoTerminator terminator pieces behind
  | .region _ _ :: pieces, behind => NoTerminator terminator pieces behind

/-- The blanks in the place of comments make up no terminator. -/
def HidesNoTerminator : Text → List Item → Prop
  | _, [] => True
  | _, .setTerm _ _ new :: items => HidesNoTerminator new items
  | terminator, .body pieces closing :: items =>
    NoTerminator terminator (strippedPieces pieces) (closing ++ itemsText (items.map Item.stripped)) ∧
      HidesNoTerminator terminator items
  | terminator, .trivia _ :: items => HidesNoTerminator terminator items

/-- No terminator that a script sets has white space in it. -/
def Unspaced (items : List Item) : Prop :=
  ∀ command terminator new, .setTerm command terminator new ∈ items → ∀ c ∈ new, isSpace c = false

/-- No statement starts like a SET TERM command when its comments are left out. -/
def HidesNoSetTerm : List Item → Prop
  | [] => True
  | .body pieces closing :: items =>
    startsSetTerm (itemsText ((.body pieces closing :: items).map Item.stripped)) = false ∧
      HidesNoSetTerm items
  | _ :: items => HidesNoSetTerm items

theorem piecesText_append (pieces pieces' : List Piece) :
    piecesText (pieces ++ pieces') = piecesText pieces ++ piecesText pieces' :=
  List.flatMap_append

theorem piecesText_chars (text : Text) : piecesText (text.map .char) = text := by
  induction text with
  | nil => rfl
  | cons c text ih =>
    rw [List.map_cons, piecesText_cons, ih]
    rfl

theorem strippedPieces_cons (piece : Piece) (pieces : List Piece) :
    strippedPieces (piece :: pieces) = piece.stripped ++ strippedPieces pieces := rfl

/-- Blanks in front of trivia. -/
theorem Trivia.blanks {lead text behind : Text} {pieces : List Piece} (h : Trivia text pieces behind)
    (hlead : ∀ c ∈ lead, isSpace c = true) :
    Trivia (lead ++ text) (lead.map .char ++ pieces) behind := by
  induction lead with
  | nil => exact h
  | cons c lead ih =>
    exact .space (hlead c List.mem_cons_self) (ih fun d hd => hlead d (List.mem_cons_of_mem _ hd))

section Layout

variable {terminator text rest behind left : Text} {pieces : List Piece}

/-- Of code, the first character is left. -/
theorem StartsCode.stripped (h : StartsCode text) (hleft : Stripped text left) : StartsCode left := by
  cases hleft with
  | nil => exact h
  | @char c rest left hnone hrest =>
    refine ⟨h.1, fun r hr => ?_⟩
    rw [hrest.regionAt_none hnone] at hr
    cases hr
  | comment hopens hcomment _ =>
    cases text with
    | nil => cases hopens
    | cons c rest =>
      rw [h.2 _ hopens.regionAt.1] at hcomment
      cases hcomment
  | @literal _ left r hopens hliteral hrest =>
    have hpos := hopens.length_pos
    have hopens' := hrest.opens hopens hliteral
    cases text with
    | nil => cases hopens
    | cons c rest =>
      obtain ⟨n, hn⟩ := Nat.exists_eq_add_of_le' (show 1 ≤ r.length by omega)
      rw [hn, List.take_succ_cons, List.cons_append] at hopens' ⊢
      refine ⟨h.1, fun r' hr' => ?_⟩
      rw [hopens'.regionAt.1] at hr'
      obtain rfl := Option.some.inj hr'
      exact hliteral

theorem Trivia.stripped (h : Trivia text pieces behind) : ∀ {left : Text}, Stripped text left →
    ∃ left', Stripped behind left' ∧ Trivia left (strippedPieces pieces) left' := by
  induction h with
  | stop hstop => exact fun {left} hleft => ⟨left, hleft, .stop (hstop.stripped hleft)⟩
  | @space c rest behind pieces hspace _ ih =>
    intro left hleft
    obtain ⟨left, rfl, hrest⟩ := hleft.behind_char (isSpace_opensNothing hspace _)
    obtain ⟨left', hbehind, htrivia⟩ := ih hrest
    exact ⟨left', hbehind, .space hspace htrivia⟩
  | @comment text behind r pieces hopens hcomment _ ih =>
    intro left hleft
    obtain ⟨left, rfl, hrest⟩ := hleft.behind_region hopens
    obtain ⟨left', hbehind, htrivia⟩ := ih hrest
    refine ⟨left', hbehind, ?_⟩
    rw [strippedPieces_cons, Piece.stripped, if_pos hcomment, if_pos hcomment]
    exact htrivia.blanks blank_spaces

theorem Walk.stripped (h : Walk text pieces behind) : ∀ {left : Text}, Stripped text left →
    ∃ left', Stripped behind left' ∧ left = piecesText (strippedPieces pieces) ++ left' := by
  induction h with
  | stop => exact fun {left} hleft => ⟨left, hleft, rfl⟩
  | @char c rest behind pieces hnone _ ih =>
    intro left hleft
    obtain ⟨left, rfl, hrest⟩ := hleft.behind_char hnone
    obtain ⟨left', hbehind, rfl⟩ := ih hrest
    exact ⟨left', hbehind, rfl⟩
  | @region text behind r pieces hopens _ ih =>
    intro left hleft
    obtain ⟨left, rfl, hrest⟩ := hleft.behind_region hopens
    obtain ⟨left', hbehind, rfl⟩ := ih hrest
    refine ⟨left', hbehind, ?_⟩
    rw [strippedPieces_cons, Piece.stripped, piecesText_append, List.append_assoc]
    split
    · rw [piecesText_chars]
    · rw [piecesText_cons]
      simp [Piece.text, piecesText]

theorem NoComments.stripped (h : NoComments pieces) : strippedPieces pieces = pieces := by
  induction pieces with
  | nil => rfl
  | cons piece pieces ih =>
    have hpiece : piece.stripped = [piece] := by
      cases piece with
      | char c => rfl
      | region type text =>
        have hliteral : type.isComment = false := h _ List.mem_cons_self
        rw [Piece.stripped, if_neg (by rw [hliteral]; exact Bool.false_ne_true)]
    rw [strippedPieces_cons, hpiece, ih fun q hq => h q (List.mem_cons_of_mem _ hq)]
    rfl

/-- What is walked plainly stays. -/
theorem Plainly.stripped (h : Plainly (text ++ rest) text.length) (hleft : Stripped (text ++ rest) left) :
    ∃ left', Stripped rest left' ∧ left = text ++ left' := by
  obtain ⟨pieces, behind, hwalk, hplain, hlength⟩ := h
  have hwhole := hwalk.text_eq
  obtain ⟨htext, hrest⟩ := List.append_inj hwhole hlength.symm
  obtain ⟨left', hbehind, hleft'⟩ := hwalk.stripped hleft
  rw [hplain.stripped, ← htext] at hleft'
  exact ⟨left', hrest ▸ hbehind, hleft'⟩

theorem NoTerminator.tail {lead behind : Text}
    (h : NoTerminator terminator (lead.map .char ++ pieces) behind) :
    NoTerminator terminator pieces behind := by
  induction lead with
  | nil => exact h
  | cons c lead ih => exact ih h.2

/-- A terminator without white space does not start in it. -/
theorem NoTerminator.blanks {lead behind : Text} (h : NoTerminator terminator pieces behind)
    (hlead : ∀ c ∈ lead, isSpace c = true) (hplain : ∀ c ∈ terminator, isSpace c = false) :
    NoTerminator terminator (lead.map .char ++ pieces) behind := by
  induction lead with
  | nil => exact h
  | cons c lead ih =>
    refine ⟨?_, ih fun d hd => hlead d (List.mem_cons_of_mem _ hd)⟩
    rintro ⟨hne, hstarts⟩
    have hspace : isSpace c = true := hlead c List.mem_cons_self
    obtain ⟨d, t, rfl⟩ := List.exists_cons_of_ne_nil hne
    obtain ⟨rfl, -⟩ := List.cons_prefix_cons.mp hstarts
    rw [hplain d List.mem_cons_self] at hspace
    cases hspace

/-- Characters that open nothing in front of a body. -/
theorem BodyScan.chars {lead closing : Text} (h : BodyScan terminator text pieces closing rest)
    (hlead : ∀ c ∈ lead, ∀ rest, regionAt (c :: rest) = none)
    (hnone : NoTerminator terminator (lead.map .char ++ pieces) (closing ++ rest)) :
    BodyScan terminator (lead ++ text) (lead.map .char ++ pieces) closing rest := by
  induction lead with
  | nil => exact h
  | cons c lead ih =>
    have hbody := ih (fun d hd => hlead d (List.mem_cons_of_mem _ hd)) hnone.2
    have htext : lead ++ text = piecesText (lead.map .char ++ pieces) ++ (closing ++ rest) := by
      rw [hbody.text_eq, List.append_assoc]
    have hstart : ¬ (terminator ≠ [] ∧ terminator <+: c :: (lead ++ text)) := htext ▸ hnone.1
    exact .char (hlead c List.mem_cons_self _) hstart hbody

/-- What is left of a body is a body, if no terminator comes up in it. -/
theorem BodyScan.stripped {closing : Text} (h : BodyScan terminator text pieces closing rest)
    (hclosing : Plainly (closing ++ rest) closing.length) :
    ∀ {left : Text}, Stripped text left → ∃ left', Stripped rest left' ∧
      (NoTerminator terminator (strippedPieces pieces) (closing ++ left') →
        BodyScan terminator left (strippedPieces pieces) closing left') ∧
      ((∀ c ∈ terminator, isSpace c = false) →
        NoTerminator terminator (strippedPieces pieces) (closing ++ left')) ∧
      left = piecesText (strippedPieces pieces) ++ (closing ++ left') := by
  induction h with
  | done =>
    intro left hleft
    cases hleft with
    | nil => exact ⟨[], .nil, fun _ => .done, fun _ => trivial, rfl⟩
    | comment hopens _ _ => cases hopens
    | literal hopens _ _ => cases hopens
  | @closed rest hne hnone =>
    intro left hleft
    obtain ⟨left', hrest, rfl⟩ := hclosing.stripped hleft
    refine ⟨left', hrest, fun _ => .closed hne ?_, fun _ => trivial, rfl⟩
    obtain ⟨c, t, rfl⟩ := List.exists_cons_of_ne_nil hne
    obtain ⟨left, hsame, hbehind⟩ := hleft.behind_char hnone
    rw [hsame]
    exact hbehind.regionAt_none hnone
  | @region text closing rest r pieces hopens _ ih =>
    intro left hleft
    obtain ⟨left, rfl, hbehind⟩ := hleft.behind_region hopens
    obtain ⟨left', hrest, hbody, hunspaced, htext⟩ := ih hclosing hbehind
    refine ⟨left', hrest, ?_⟩
    rw [strippedPieces_cons, Piece.stripped, piecesText_append]
    cases hcomment : r.type.isComment with
    | true =>
      have hspaces : ∀ c ∈ blank (text.take r.length), ∀ rest, regionAt (c :: rest) = none :=
        fun c hc => isSpace_opensNothing (blank_spaces c hc)
      rw [if_pos rfl, if_pos rfl, piecesText_chars]
      refine ⟨fun hnone => (hbody hnone.tail).chars hspaces hnone,
        fun hplain => (hunspaced hplain).blanks blank_spaces hplain, ?_⟩
      rw [htext, List.append_assoc]
    | false =>
      have hopens' := hbehind.opens hopens hcomment
      have hpos := hopens.length_pos
      have hlength : (text.take r.length).length = r.length := by
        rw [List.length_take]
        omega
      have hregion := @BodyScan.region terminator _ closing left' r (strippedPieces pieces) hopens'
      rw [List.take_left' hlength, List.drop_left' hlength] at hregion
      rw [if_neg Bool.false_ne_true, if_neg Bool.false_ne_true]
      refine ⟨fun hnone => hregion (hbody hnone), hunspaced, ?_⟩
      rw [htext]
      simp [piecesText, Piece.text]
  | @char c text closing rest pieces hnone hmatch _ ih =>
    intro left hleft
    obtain ⟨left, rfl, hbehind⟩ := hleft.behind_char hnone
    obtain ⟨left', hrest, hbody, hunspaced, htext⟩ := ih hclosing hbehind
    refine ⟨left', hrest, fun hfree => .char (hbehind.regionAt_none hnone) ?_ (hbody hfree.2),
      fun hplain => ⟨?_, hunspaced hplain⟩, ?_⟩
    · rw [htext]
      exact hfree.1
    · rintro ⟨hne, hstarts⟩
      have hstarts : terminator <+: c :: left := htext ▸ hstarts
      exact hmatch ⟨hne, (Stripped.char hnone hbehind).prefix_of hplain hstarts⟩
    · rw [htext]
      rfl

end Layout

/-! ### SET TERM commands -/

theorem splitAtTerminator_retail {terminator rest rest' : Text} (hne : terminator ≠ []) :
    ∀ {command : Text}, splitAtTerminator terminator (command ++ (terminator ++ rest)) =
        some (command, terminator ++ rest) →
      splitAtTerminator terminator (command ++ (terminator ++ rest')) =
        some (command, terminator ++ rest') := by
  obtain ⟨d, more, rfl⟩ := List.exists_cons_of_ne_nil hne
  intro command
  induction command with
  | nil =>
    intro _
    have hstarts : (d :: more).isPrefixOf (d :: (more ++ rest')) = true :=
      List.isPrefixOf_iff_prefix.mpr ⟨rest', rfl⟩
    rw [List.nil_append, List.cons_append, splitAtTerminator, if_pos hstarts]
  | cons c command ih =>
    intro h
    rw [List.cons_append, splitAtTerminator] at h ⊢
    split at h
    · cases Option.some.inj h
    · rename_i hnot
      obtain ⟨⟨before, behind⟩, hsplit, heq⟩ := Option.map_eq_some_iff.mp h
      cases heq
      have hnot' : ¬ (d :: more).isPrefixOf (c :: (command ++ (d :: more ++ rest'))) = true := by
        intro hstarts
        apply hnot
        -- the terminator would end in the command or in the one behind it
        have hlong := List.isPrefixOf_iff_prefix.mp hstarts
        rw [← List.append_assoc, ← List.cons_append] at hlong
        have hshort : d :: more <+: c :: (command ++ d :: more) :=
          List.prefix_of_prefix_length_le hlong (List.prefix_append _ _) (by simp; omega)
        apply List.isPrefixOf_iff_prefix.mpr
        rw [← List.append_assoc, ← List.cons_append]
        exact hshort.trans (List.prefix_append _ _)
      rw [if_neg hnot', ih hsplit]
      rfl

section SetTerm

variable {text rest left : Text}

/-- Characters that open nothing are left. -/
theorem Stripped.behind_plain {front : Text} (hplain : ∀ c ∈ front, ∀ rest, regionAt (c :: rest) = none) :
    ∀ {left : Text}, Stripped (front ++ rest) left → ∃ left', left = front ++ left' ∧ Stripped rest left' := by
  induction front with
  | nil => exact fun {left} hleft => ⟨left, rfl, hleft⟩
  | cons c front ih =>
    intro left hleft
    obtain ⟨left, rfl, hbehind⟩ := hleft.behind_char (hplain c List.mem_cons_self _)
    obtain ⟨left', rfl, hrest⟩ := ih (fun d hd => hplain d (List.mem_cons_of_mem _ hd)) hbehind
    exact ⟨left', rfl, hrest⟩

theorem letter_opensNothing {a word : Text} (h : sameLetters a word = true)
    (hword : ∀ d ∈ word, d.toLower ∉ ['-', '/', 'q', '\'', '"']) :
    ∀ c ∈ a, ∀ rest, regionAt (c :: rest) = none := by
  intro c hc rest
  have hmap : a.map Char.toLower = word.map Char.toLower := eq_of_beq h
  have hmem : c.toLower ∈ word.map Char.toLower := hmap ▸ List.mem_map_of_mem hc
  have hne : ∀ x, x.toLower ∈ ['-', '/', 'q', '\'', '"'] → c ≠ x := by
    rintro x hx rfl
    obtain ⟨d, hd, heq⟩ := List.mem_map.mp hmem
    exact hword d hd (heq ▸ hx)
  apply regionAt_eq_none.mpr
  exact ⟨fun h => hne '-' (by decide) h.1, fun h => hne '/' (by decide) h.1,
    fun h => h.1.elim (hne 'q' (by decide)) (hne 'Q' (by decide)), hne '\'' (by decide), hne '"' (by decide)⟩

/-- No word goes on behind a comment, and none behind the blanks in its place. -/
theorem WordEnds.stripped {k : Nat} (h : Stripped text left) (hword : WordEnds (text.take k)) :
    WordEnds (left.take k) := by
  cases k with
  | zero => rfl
  | succ k =>
    rw [WordEnds, List.head?_take, if_neg (Nat.succ_ne_zero k)] at hword ⊢
    rcases h.head with heq | ⟨c, hc, hspace⟩
    · rw [heq]
      exact hword
    · rw [hc]
      have hname := isSpace_not_name hspace
      rw [isNameChar, Bool.or_eq_false_iff] at hname
      exact hname.1

theorem startsSetTerm_stripped (h : Stripped text left) (hset : startsSetTerm text = true) :
    startsSetTerm left = true := by
  obtain ⟨a, gap, b, behind, hhead, hword⟩ := afterSetTerm_head hset
  have hplain : ∀ c ∈ a ++ (gap ++ b), ∀ rest, regionAt (c :: rest) = none := by
    intro c hc rest
    rcases List.mem_append.mp hc with hc | hc
    · exact letter_opensNothing hhead.set (List.all_iff_forall_prop.mp (by decide)) c hc rest
    rcases List.mem_append.mp hc with hc | hc
    · exact isSpace_opensNothing (hhead.spaces c hc) rest
    · exact letter_opensNothing hhead.term (List.all_iff_forall_prop.mp (by decide)) c hc rest
  have htake : text.take 12 = a ++ (gap ++ b) ++ behind := by
    rw [hhead.text_eq]
    simp
  have hlength : (a ++ (gap ++ b)).length ≤ 12 := by
    have hle := List.length_take_le 12 text
    rw [htake, List.length_append] at hle
    omega
  have htext : text = a ++ (gap ++ b) ++ text.drop (a ++ (gap ++ b)).length := by
    have hstarts : a ++ (gap ++ b) <+: text :=
      (htake ▸ List.prefix_append _ _ : a ++ (gap ++ b) <+: text.take 12).trans (List.take_prefix _ _)
    obtain ⟨z, hz⟩ := hstarts
    rw [← hz, List.drop_left]
  have hbehind : behind = (text.drop (a ++ (gap ++ b)).length).take (12 - (a ++ (gap ++ b)).length) := by
    rw [htext, List.take_append, List.take_of_length_le hlength] at htake
    exact (List.append_cancel_left htake).symm
  rw [htext] at h
  obtain ⟨left', rfl, hrest⟩ := Stripped.behind_plain hplain h
  have hhead' : SetTermHead ((a ++ (gap ++ b) ++ left').take 12) a gap b
      (left'.take (12 - (a ++ (gap ++ b)).length)) := by
    refine ⟨?_, hhead.set, hhead.gap_ne, hhead.spaces, hhead.term⟩
    rw [List.take_append, List.take_of_length_le hlength]
    simp
  rw [startsSetTerm, hhead'.after (WordEnds.stripped hrest (hbehind ▸ hword))]
  rfl

end SetTerm

theorem Layout.stripped {terminator text : Text} {items : List Item} (h : Layout terminator text items)
    (hne : terminator ≠ []) (hstep : InStep items) (hterminators : HidesNoTerminator terminator items)
    (hhides : HidesNoSetTerm items) : ∀ {left : Text}, Stripped text left →
      Layout terminator left (items.map Item.stripped) := by
  induction h with
  | done htrivia =>
    intro left hleft
    obtain ⟨left', hbehind, htrivia'⟩ := htrivia.stripped hleft
    cases hbehind with
    | nil => exact .done htrivia'
    | comment hopens _ _ => cases hopens
    | literal hopens _ _ => cases hopens
  | @setTerm terminator text behind command rest trivia items htrivia hbehind hset hsplit hnew hrest ih =>
    intro left hleft
    obtain ⟨-, hbare, hstep⟩ := hstep
    obtain ⟨left', hleft', htrivia'⟩ := htrivia.stripped hleft
    have hset' := startsSetTerm_stripped hleft' hset
    obtain rfl := (splitAtTerminator_eq hsplit).1
    rw [hrest.text_eq] at hbare
    have hbare : Plainly (command ++ terminator ++ rest) (command ++ terminator).length := hbare
    rw [← List.append_assoc] at hleft'
    obtain ⟨left'', hrest', rfl⟩ := hbare.stripped hleft'
    rw [List.append_assoc] at htrivia' hset'
    have hlayout := ih hnew hstep hterminators hhides hrest'
    refine .setTerm htrivia' ?_ hset' (splitAtTerminator_retail hne hsplit) hnew hlayout
    simp [hne]
  | @body terminator text behind closing rest trivia pieces items htrivia hbehind hset hbody hrest ih =>
    intro left hleft
    obtain ⟨-, hbare, hstep⟩ := hstep
    obtain ⟨left', hleft', htrivia'⟩ := htrivia.stripped hleft
    rw [hrest.text_eq] at hbare
    obtain ⟨left'', hrest', hscan, -, htext'⟩ := hbody.stripped hbare hleft'
    have hlayout := ih hne hstep hterminators.2 hhides.2 hrest'
    have hbody' := hscan (hlayout.text_eq ▸ hterminators.1)
    have htext : itemsText ((Item.body pieces closing :: items).map Item.stripped) = left' := by
      rw [List.map_cons, itemsText_cons, hlayout.text_eq, htext', ← List.append_assoc]
      rfl
    refine .body htrivia' ?_ (htext ▸ hhides.1) hbody' hlayout
    intro hnil
    subst hnil
    rcases hleft'.head with hhead | ⟨c, hc, -⟩
    · exact hbehind (List.head?_eq_none_iff.mp hhead.symm)
    · cases hc

/-- Terminators without white space never come up. -/
theorem Layout.hidesNoTerminator {terminator text : Text} {items : List Item}
    (h : Layout terminator text items) (hplain : ∀ c ∈ terminator, isSpace c = false)
    (hstep : InStep items) (hunspaced : Unspaced items) : ∀ {left : Text}, Stripped text left →
      HidesNoTerminator terminator items ∧ itemsText (items.map Item.stripped) = left := by
  induction h with
  | @done terminator text trivia htrivia =>
    intro left hleft
    obtain ⟨left', hbehind, htrivia'⟩ := htrivia.stripped hleft
    refine ⟨trivial, ?_⟩
    cases hbehind with
    | nil => exact (@Layout.done terminator _ _ htrivia').text_eq
    | comment hopens _ _ => cases hopens
    | literal hopens _ _ => cases hopens
  | @setTerm terminator text behind command rest trivia items htrivia _ _ hsplit _ hrest ih =>
    intro left hleft
    obtain ⟨-, hbare, hstep⟩ := hstep
    obtain ⟨left', hleft', htrivia'⟩ := htrivia.stripped hleft
    obtain rfl := (splitAtTerminator_eq hsplit).1
    rw [hrest.text_eq] at hbare
    have hbare : Plainly (command ++ terminator ++ rest) (command ++ terminator).length := hbare
    rw [← List.append_assoc] at hleft'
    obtain ⟨left'', hrest', rfl⟩ := hbare.stripped hleft'
    have hnewPlain : ∀ c ∈ newTerminator command, isSpace c = false :=
      hunspaced _ _ _ (List.mem_cons_of_mem _ List.mem_cons_self)
    have hrestUnspaced : Unspaced items := fun c t n hmem =>
      hunspaced c t n (List.mem_cons_of_mem _ (List.mem_cons_of_mem _ hmem))
    obtain ⟨hhides, htext⟩ := ih hnewPlain hstep hrestUnspaced hrest'
    refine ⟨hhides, ?_⟩
    rw [htrivia'.text_eq, List.map_cons, List.map_cons, itemsText_cons, itemsText_cons, htext]
    simp [Item.text, Item.stripped]
  | @body terminator text behind closing rest trivia pieces items htrivia _ _ hbody hrest ih =>
    intro left hleft
    obtain ⟨-, hbare, hstep⟩ := hstep
    obtain ⟨left', hleft', htrivia'⟩ := htrivia.stripped hleft
    rw [hrest.text_eq] at hbare
    obtain ⟨left'', hrest', -, hfree, rfl⟩ := hbody.stripped hbare hleft'
    have hrestUnspaced : Unspaced items := fun c t n hmem =>
      hunspaced c t n (List.mem_cons_of_mem _ (List.mem_cons_of_mem _ hmem))
    obtain ⟨hhides, htext⟩ := ih hplain hstep hrestUnspaced hrest'
    refine ⟨⟨htext ▸ hfree hplain, hhides⟩, ?_⟩
    rw [htrivia'.text_eq, List.map_cons, List.map_cons, itemsText_cons, itemsText_cons, htext]
    simp [Item.text, Item.stripped]

end FastFirebird
