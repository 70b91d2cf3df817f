import FastFirebird.Regions
import FastFirebird.ScriptLayout

/-! `commentRanges`, and when its verdict is that of `parseScript`: the walk with `regionAt` has to
go through what the parser takes without looking, the `SET TERM` commands and the terminators. -/
namespace FastFirebird

/-- The loop of `commentRanges`, at offset `i` and position `p`. Every round takes a character. -/
def commentRangesFrom : Nat → Nat → Position → Text → Except ScriptParseError (List (Nat × Nat))
  | 0, _, _, _ => .ok []
  | _ + 1, _, _, [] => .ok []
  | fuel + 1, i, p, c :: rest =>
    match regionAt (c :: rest) with
    | none => commentRangesFrom fuel (i + 1) (p.advance [c]) rest
    | some r =>
      if r.terminated then
        (commentRangesFrom fuel (i + r.length) (p.advance ((c :: rest).take r.length))
          ((c :: rest).drop r.length)).map
          fun ranges => if r.type.isComment then (i, i + r.length) :: ranges else ranges
      else .error (unterminated r.type p)

def commentRanges (sql : Text) : Except ScriptParseError (List (Nat × Nat)) :=
  commentRangesFrom sql.length 0 ⟨1, 1⟩ sql

def InRanges (ranges : List (Nat × Nat)) (i : Nat) : Prop := ∃ r ∈ ranges, r.1 ≤ i ∧ i < r.2

/-! ### The ranges and the walk -/

def commentMask (text : Text) : List Bool := mask RegionType.isComment text

theorem commentRangesFrom_lexes {fuel i : Nat} {p : Position} {text : Text}
    {ranges : List (Nat × Nat)} (hlen : text.length ≤ fuel)
    (h : commentRangesFrom fuel i p text = .ok ranges) : Lexes text := by
  induction fuel generalizing i p text ranges with
  | zero =>
    obtain rfl : text = [] := List.eq_nil_of_length_eq_zero (by omega)
    exact .nil
  | succ fuel ih =>
    cases text with
    | nil => exact .nil
    | cons c rest =>
      simp only [List.length_cons] at hlen
      rw [commentRangesFrom] at h
      split at h
      · rename_i hnone
        exact .char hnone (ih (Nat.le_of_succ_le_succ hlen) h)
      · rename_i r hr
        split at h
        · rename_i ht
          have hopens := Opens.of_regionAt hr ht
          have hpos := hopens.length_pos
          obtain ⟨behind, hbehind, -⟩ := map_ok h
          have hdrop : ((c :: rest).drop r.length).length ≤ fuel := by
            rw [List.length_drop, List.length_cons]
            omega
          exact .region hopens (ih hdrop hbehind)
        · cases h

/-- Where every region is closed, the ranges are the comments of the walk. -/
theorem Lexes.commentRanges {text : Text} (h : Lexes text) :
    ∀ {fuel k : Nat} {p : Position}, text.length ≤ fuel →
      ∃ ranges, commentRangesFrom fuel k p text = .ok ranges ∧ (∀ r ∈ ranges, k ≤ r.1) ∧
        ∀ i, InRanges ranges (k + i) ↔ (commentMask text)[i]? = some true := by
  induction h with
  | nil =>
    intro fuel k p _
    refine ⟨[], by cases fuel <;> rfl, by simp, fun i => ?_⟩
    simp [InRanges, commentMask, mask, maskFrom]
  | @char c rest hnone _ ih =>
    intro fuel k p hlen
    obtain _ | fuel := fuel
    · simp at hlen
    obtain ⟨ranges, hranges, hlow, hmask⟩ :=
      ih (k := k + 1) (p := p.advance [c]) (Nat.le_of_succ_le_succ hlen)
    refine ⟨ranges, ?_, fun r hr => Nat.le_of_succ_le (hlow r hr), fun i => ?_⟩
    · rw [commentRangesFrom, hnone]
      exact hranges
    · have hfirst : commentMask (c :: rest) = false :: commentMask rest := mask_char hnone
      rw [hfirst]
      cases i with
      | zero =>
        rw [List.getElem?_cons_zero]
        constructor
        · rintro ⟨r, hr, hle, -⟩
          have hr := hlow r hr
          omega
        · intro hfalse
          cases hfalse
      | succ i =>
        rw [List.getElem?_cons_succ, ← hmask i]
        have hi : k + (i + 1) = k + 1 + i := by omega
        rw [hi]
  | @region text r hopens _ ih =>
    intro fuel k p hlen
    have hpos := hopens.length_pos
    obtain ⟨hr, ht⟩ := hopens.regionAt
    obtain _ | fuel := fuel
    · omega
    cases text with
    | nil => cases hopens
    | cons c rest =>
      have hdrop : ((c :: rest).drop r.length).length ≤ fuel := by
        rw [List.length_drop]
        omega
      obtain ⟨ranges, hranges, hlow, hmask⟩ :=
        ih (k := k + r.length) (p := p.advance ((c :: rest).take r.length)) hdrop
      have hregion : commentMask (c :: rest) = List.replicate r.length r.type.isComment ++
          commentMask ((c :: rest).drop r.length) := mask_region hr
      have hbehind : ∀ j, InRanges ranges (k + (r.length + j)) ↔
          (commentMask (c :: rest))[r.length + j]? = some true := by
        intro j
        rw [hregion, List.getElem?_append_right (by rw [List.length_replicate]; omega),
          List.length_replicate, Nat.add_sub_cancel_left, ← hmask j, Nat.add_assoc]
      have hbefore : ∀ i, i < r.length → ¬ InRanges ranges (k + i) := by
        rintro i hi ⟨range, hrange, hle, -⟩
        have hge := hlow range hrange
        omega
      have hin : ∀ i, i < r.length →
          (commentMask (c :: rest))[i]? = some r.type.isComment := by
        intro i hi
        rw [hregion, List.getElem?_append_left (by rw [List.length_replicate]; omega),
          List.getElem?_replicate, if_pos hi]
      refine ⟨if r.type.isComment then (k, k + r.length) :: ranges else ranges, ?_, ?_, ?_⟩
      · rw [commentRangesFrom, hr]
        simp only [ht, if_true]
        rw [hranges]
        rfl
      · intro range hrange
        split at hrange
        · rcases List.mem_cons.mp hrange with rfl | hrange
          · exact Nat.le_refl k
          · have hge := hlow range hrange
            omega
        · have hge := hlow range hrange
          omega
      · intro i
        by_cases hi : i < r.length
        · rw [hin i hi]
          cases hcomment : r.type.isComment with
          | true =>
            refine ⟨fun _ => rfl, fun _ => ⟨_, List.mem_cons_self, ?_, ?_⟩⟩
            · exact Nat.le_add_right k i
            · exact Nat.add_lt_add_left hi k
          | false => exact ⟨fun h => absurd h (hbefore i hi), fun h => by cases h⟩
        · obtain ⟨j, rfl⟩ := Nat.exists_eq_add_of_le (Nat.le_of_not_lt hi)
          rw [← hbehind j]
          split
          · constructor
            · rintro ⟨range, hrange, hle, hlt⟩
              rcases List.mem_cons.mp hrange with rfl | hrange
              · dsimp only at hlt
                omega
              · exact ⟨range, hrange, hle, hlt⟩
            · rintro ⟨range, hrange, hle, hlt⟩
              exact ⟨range, List.mem_cons_of_mem _ hrange, hle, hlt⟩
          · rfl

/-! ### The comments of a layout -/

def Piece.inComment (piece : Piece) : List Bool :=
  List.replicate piece.text.length piece.isComment

/-- What the parser takes without looking for regions. -/
def Item.bare : Item → Text
  | trivia _ => []
  | setTerm command terminator _ => command ++ terminator
  | body _ closing => closing

def Item.inComment : Item → List Bool
  | trivia pieces => pieces.flatMap Piece.inComment
  | setTerm command terminator _ => List.replicate (command ++ terminator).length false
  | body pieces closing => pieces.flatMap Piece.inComment ++ List.replicate closing.length false

/-- For each character of a script, whether the parser has taken it as part of a comment. -/
def takenAsComment (items : List Item) : List Bool := items.flatMap Item.inComment

/-- `commentRanges` succeeds, and says of every character what the parser says. -/
def RangesAgree (script : Text) (items : List Item) : Prop :=
  ∃ ranges, commentRanges script = .ok ranges ∧
    ∀ i, InRanges ranges i ↔ (takenAsComment items)[i]? = some true

/-- Steps of the walk: characters at which no region starts, and closed regions. -/
inductive Walk : Text → List Piece → Text → Prop where
  | stop {text : Text} : Walk text [] text
  | char {c : Char} {rest behind : Text} {pieces : List Piece} : regionAt (c :: rest) = none →
    Walk rest pieces behind → Walk (c :: rest) (.char c :: pieces) behind
  | region {text behind : Text} {r : Region} {pieces : List Piece} : Opens text r →
    Walk (text.drop r.length) pieces behind →
    Walk text (.region r.type (text.take r.length) :: pieces) behind

def NoComments (pieces : List Piece) : Prop := ∀ piece ∈ pieces, piece.isComment = false

/-- Walking `k` characters of a text meets no comment and nothing unclosed, and whatever literal
starts in them ends in them. -/
def Plainly (text : Text) (k : Nat) : Prop :=
  ∃ pieces behind, Walk text pieces behind ∧ NoComments pieces ∧ (piecesText pieces).length = k

/-- A literal that starts in the first `k` characters of a text ends behind them. -/
def Crosses (text : Text) (k : Nat) : Prop :=
  ∃ pieces behind r, Walk text pieces behind ∧ NoComments pieces ∧ Opens behind r ∧
    r.type.isComment = false ∧ (piecesText pieces).length < k ∧
    k < (piecesText pieces).length + r.length

/-- The walk goes plainly through everything the parser takes without looking. -/
def InStep : List Item → Prop
  | [] => True
  | item :: items => Plainly (item.bare ++ itemsText items) item.bare.length ∧ InStep items

def NoneCrosses : List Item → Prop
  | [] => True
  | item :: items => ¬ Crosses (item.bare ++ itemsText items) item.bare.length ∧ NoneCrosses items

/-! ### In step, the two agree -/

theorem commentMask_region {text : Text} {r : Region} (h : Opens text r) :
    commentMask text = (Piece.region r.type (text.take r.length)).inComment ++
      commentMask (text.drop r.length) := by
  have hlen : (text.take r.length).length = r.length := by
    have hpos := h.length_pos
    rw [List.length_take]
    omega
  rw [Piece.inComment, Piece.text, hlen]
  exact mask_region h.regionAt.1

theorem Walk.text_eq {text behind : Text} {pieces : List Piece} (h : Walk text pieces behind) :
    text = piecesText pieces ++ behind := by
  induction h with
  | stop => rfl
  | char _ _ ih =>
    rw [ih]
    rfl
  | @region text behind r pieces _ _ ih =>
    rw [piecesText_cons, List.append_assoc, ← ih]
    exact (List.take_append_drop _ _).symm

theorem Walk.commentMask {text behind : Text} {pieces : List Piece} (h : Walk text pieces behind) :
    FastFirebird.commentMask text =
      pieces.flatMap Piece.inComment ++ FastFirebird.commentMask behind := by
  induction h with
  | stop => rfl
  | @char c rest behind pieces hnone _ ih =>
    have hfirst : FastFirebird.commentMask (c :: rest) = false :: FastFirebird.commentMask rest :=
      mask_char hnone
    rw [hfirst, ih]
    rfl
  | region hopens _ ih => rw [commentMask_region hopens, ih, List.flatMap_cons, List.append_assoc]

theorem Walk.lexes {text behind : Text} {pieces : List Piece} (h : Walk text pieces behind) :
    Lexes text ↔ Lexes behind := by
  induction h with
  | stop => rfl
  | char hnone _ ih =>
    rw [← ih]
    exact ⟨fun hlexes => hlexes.behind_char hnone, .char hnone⟩
  | region hopens _ ih =>
    rw [← ih]
    exact ⟨fun hlexes => hlexes.behind_region hopens, .region hopens⟩

theorem Trivia.walk {text behind : Text} {pieces : List Piece} (h : Trivia text pieces behind) :
    Walk text pieces behind := by
  induction h with
  | stop _ => exact .stop
  | space hspace _ ih => exact .char (isSpace_opensNothing hspace _) ih
  | comment hopens _ _ ih => exact .region hopens ih

theorem BodyScan.walk {terminator text closing rest : Text} {pieces : List Piece}
    (h : BodyScan terminator text pieces closing rest) : Walk text pieces (closing ++ rest) := by
  induction h with
  | done => exact .stop
  | closed _ _ => exact .stop
  | region hopens _ ih => exact .region hopens ih
  | char hnone _ _ ih => exact .char hnone ih

/-- Pieces without a comment, character by character. -/
theorem NoComments.inComment {pieces : List Piece} (h : NoComments pieces) :
    pieces.flatMap Piece.inComment = List.replicate (piecesText pieces).length false := by
  induction pieces with
  | nil => rfl
  | cons piece pieces ih =>
    have hpiece := h piece (by simp)
    rw [List.flatMap_cons, ih fun q hq => h q (by simp [hq]), Piece.inComment, hpiece,
      List.replicate_append_replicate, piecesText_cons, List.length_append]

theorem Plainly.walk {text rest : Text} (h : Plainly (text ++ rest) text.length) :
    FastFirebird.commentMask (text ++ rest) =
      List.replicate text.length false ++ FastFirebird.commentMask rest ∧
        (Lexes (text ++ rest) ↔ Lexes rest) := by
  obtain ⟨pieces, behind, hwalk, hplain, hlen⟩ := h
  have hbehind : behind = rest := by
    have hcut := congrArg (List.drop text.length) hwalk.text_eq
    rwa [List.drop_left, ← hlen, List.drop_left, eq_comm] at hcut
  subst hbehind
  exact ⟨by rw [hwalk.commentMask, hplain.inComment, hlen], hwalk.lexes⟩

/-- In step, every region of the script is closed, and its comments are those of the layout. -/
theorem Layout.inStep {terminator text : Text} {items : List Item}
    (h : Layout terminator text items) (hstep : InStep items) :
    Lexes text ∧ commentMask text = takenAsComment items := by
  induction h with
  | done htrivia =>
    refine ⟨htrivia.walk.lexes.mpr .nil, ?_⟩
    rw [htrivia.walk.commentMask]
    rfl
  | setTerm htrivia _ _ hsplit _ hrest ih =>
    obtain ⟨-, hbare, hstep⟩ := hstep
    obtain ⟨hlexes, hmask⟩ := ih hstep
    rw [hrest.text_eq] at hbare
    obtain ⟨hcommand, hclosed⟩ := hbare.walk
    have hbehind := (splitAtTerminator_eq hsplit).1
    rw [← List.append_assoc] at hbehind
    rw [hbehind] at htrivia
    refine ⟨htrivia.walk.lexes.mpr (hclosed.mpr hlexes), ?_⟩
    rw [htrivia.walk.commentMask]
    exact congrArg _ (hcommand.trans (congrArg _ hmask))
  | @body terminator text behind closing rest trivia pieces items htrivia _ _ hbody hrest ih =>
    obtain ⟨-, hbare, hstep⟩ := hstep
    obtain ⟨hlexes, hmask⟩ := ih hstep
    rw [hrest.text_eq] at hbare
    obtain ⟨hclosing, hclosed⟩ := hbare.walk
    have hclosing : commentMask (closing ++ rest) =
        List.replicate closing.length false ++ commentMask rest := hclosing
    refine ⟨htrivia.walk.lexes.mpr (hbody.walk.lexes.mpr (hclosed.mpr hlexes)), ?_⟩
    rw [htrivia.walk.commentMask, hbody.walk.commentMask, hclosing, hmask]
    simp [takenAsComment, Item.inComment]

/-! ### Out of step, they disagree -/

/-- Where the walk meets no comment for a while, it goes plainly, or a literal crosses the end. -/
theorem Lexes.plainly_or_crosses {text : Text} (h : Lexes text) : ∀ {k : Nat}, k ≤ text.length →
    (∀ i, i < k → (FastFirebird.commentMask text)[i]? = some false) →
      Plainly text k ∨ Crosses text k := by
  induction h with
  | nil =>
    intro k hk _
    obtain rfl : k = 0 := Nat.le_zero.mp hk
    exact .inl ⟨[], [], .stop, by simp [NoComments], rfl⟩
  | @char c rest hnone _ ih =>
    intro k hk hfalse
    obtain _ | k := k
    · exact .inl ⟨[], c :: rest, .stop, by simp [NoComments], rfl⟩
    have hfirst : FastFirebird.commentMask (c :: rest) = false :: FastFirebird.commentMask rest :=
      mask_char hnone
    have hrest : ∀ i, i < k → (FastFirebird.commentMask rest)[i]? = some false := by
      intro i hi
      have hnext := hfalse (i + 1) (Nat.succ_lt_succ hi)
      rwa [hfirst] at hnext
    have hcons : ∀ pieces : List Piece, NoComments pieces → NoComments (.char c :: pieces) := by
      intro pieces hplain piece hpiece
      rcases List.mem_cons.mp hpiece with rfl | hpiece
      · rfl
      · exact hplain piece hpiece
    rcases ih (Nat.le_of_succ_le_succ hk) hrest with hplainly | hcrosses
    · obtain ⟨pieces, behind, hwalk, hplain, hlen⟩ := hplainly
      refine .inl ⟨.char c :: pieces, behind, .char hnone hwalk, hcons _ hplain, ?_⟩
      rw [piecesText_cons, List.length_append, hlen, Nat.add_comm]
      rfl
    · obtain ⟨pieces, behind, r, hwalk, hplain, hopens, hliteral, hlow, hhigh⟩ := hcrosses
      refine .inr ⟨.char c :: pieces, behind, r, .char hnone hwalk, hcons _ hplain, hopens,
        hliteral, ?_, ?_⟩
      · rw [piecesText_cons, List.length_append, Piece.text, List.length_singleton]
        omega
      · rw [piecesText_cons, List.length_append, Piece.text, List.length_singleton]
        omega
  | @region text r hopens _ ih =>
    intro k hk hfalse
    have hpos := hopens.length_pos
    obtain rfl | hk₀ := Nat.eq_zero_or_pos k
    · exact .inl ⟨[], text, .stop, by simp [NoComments], rfl⟩
    have htaken : (text.take r.length).length = r.length := by
      rw [List.length_take]
      omega
    have hregion := commentMask_region hopens
    rw [Piece.inComment, Piece.text, htaken, Piece.isComment] at hregion
    -- the region is no comment, as its first character is not
    have hliteral : r.type.isComment = false := by
      have hfirst := hfalse 0 hk₀
      rw [hregion, List.getElem?_append_left (by rw [List.length_replicate]; omega),
        List.getElem?_replicate, if_pos (by omega)] at hfirst
      exact Option.some.inj hfirst
    by_cases hcross : k < r.length
    · exact .inr ⟨[], text, r, .stop, by simp [NoComments], hopens, hliteral, hk₀,
        by simpa [piecesText] using hcross⟩
    obtain ⟨j, rfl⟩ := Nat.exists_eq_add_of_le (Nat.le_of_not_lt hcross)
    have hrest : ∀ i, i < j →
        (FastFirebird.commentMask (text.drop r.length))[i]? = some false := by
      intro i hi
      have hnext := hfalse (r.length + i) (Nat.add_lt_add_left hi _)
      rwa [hregion, List.getElem?_append_right (by rw [List.length_replicate]; omega),
        List.length_replicate, Nat.add_sub_cancel_left] at hnext
    have hcons : ∀ pieces : List Piece, NoComments pieces →
        NoComments (.region r.type (text.take r.length) :: pieces) := by
      intro pieces hplain piece hpiece
      rcases List.mem_cons.mp hpiece with rfl | hpiece
      · exact hliteral
      · exact hplain piece hpiece
    rcases ih (by rw [List.length_drop]; omega) hrest with hplainly | hcrosses
    · obtain ⟨pieces, behind, hwalk, hplain, hlen⟩ := hplainly
      refine .inl ⟨_, behind, .region hopens hwalk, hcons _ hplain, ?_⟩
      rw [piecesText_cons, List.length_append, hlen, Piece.text, htaken]
    · obtain ⟨pieces, behind, r', hwalk, hplain, hopens', hliteral', hlow, hhigh⟩ := hcrosses
      refine .inr ⟨_, behind, r', .region hopens hwalk, hcons _ hplain, hopens', hliteral', ?_, ?_⟩
      · rw [piecesText_cons, List.length_append, Piece.text, htaken]
        omega
      · rw [piecesText_cons, List.length_append, Piece.text, htaken]
        omega

theorem Layout.inStep_of_mask {terminator text : Text} {items : List Item}
    (h : Layout terminator text items) (hcross : NoneCrosses items) (hlexes : Lexes text)
    (hmask : commentMask text = takenAsComment items) : InStep items := by
  -- one stretch that is taken without looking
  have hstretch : ∀ {bare rest : Text} {taken : List Bool}, ¬ Crosses (bare ++ rest) bare.length →
      Lexes (bare ++ rest) →
      commentMask (bare ++ rest) = List.replicate bare.length false ++ taken →
        Plainly (bare ++ rest) bare.length ∧ Lexes rest ∧ commentMask rest = taken := by
    intro bare rest taken hcross hlexes hmask
    have hfalse : ∀ i, i < bare.length → (commentMask (bare ++ rest))[i]? = some false := by
      intro i hi
      rw [hmask, List.getElem?_append_left (by rw [List.length_replicate]; omega),
        List.getElem?_replicate, if_pos hi]
    have hplainly : Plainly (bare ++ rest) bare.length := by
      have hlen : bare.length ≤ (bare ++ rest).length := by simp
      exact (hlexes.plainly_or_crosses hlen hfalse).resolve_right hcross
    obtain ⟨hwalk, hiff⟩ := hplainly.walk
    exact ⟨hplainly, hiff.mp hlexes, List.append_cancel_left (hwalk.symm.trans hmask)⟩
  have htrivial : ∀ text, Plainly text 0 := fun text => ⟨[], text, .stop, by simp [NoComments], rfl⟩
  induction h with
  | done _ => exact ⟨htrivial _, trivial⟩
  | @setTerm terminator text behind command rest trivia items htrivia _ _ hsplit _ hrest ih =>
    obtain ⟨-, hcross, hcrosses⟩ := hcross
    rw [hrest.text_eq] at hcross
    have hbehind := (splitAtTerminator_eq hsplit).1
    rw [← List.append_assoc] at hbehind
    subst hbehind
    have htaken : commentMask (command ++ terminator ++ rest) =
        List.replicate (command ++ terminator).length false ++ takenAsComment items := by
      rw [htrivia.walk.commentMask] at hmask
      exact List.append_cancel_left hmask
    obtain ⟨hplainly, hlexes, hmask⟩ := hstretch hcross (htrivia.walk.lexes.mp hlexes) htaken
    refine ⟨htrivial _, ?_, ih hcrosses hlexes hmask⟩
    rw [hrest.text_eq]
    exact hplainly
  | @body terminator text behind closing rest trivia pieces items htrivia _ _ hbody hrest ih =>
    obtain ⟨-, hcross, hcrosses⟩ := hcross
    rw [hrest.text_eq] at hcross
    have htaken : commentMask (closing ++ rest) =
        List.replicate closing.length false ++ takenAsComment items := by
      rw [htrivia.walk.commentMask, hbody.walk.commentMask] at hmask
      have hitem : pieces.flatMap Piece.inComment ++ commentMask (closing ++ rest) =
          Item.inComment (.body pieces closing) ++ takenAsComment items :=
        List.append_cancel_left hmask
      rw [Item.inComment, List.append_assoc] at hitem
      exact List.append_cancel_left hitem
    obtain ⟨hplainly, hlexes, hmask⟩ :=
      hstretch hcross (hbody.walk.lexes.mp (htrivia.walk.lexes.mp hlexes)) htaken
    refine ⟨htrivial _, ?_, ih hcrosses hlexes hmask⟩
    rw [hrest.text_eq]
    exact hplainly

theorem pieces_inComment_length (pieces : List Piece) :
    (pieces.flatMap Piece.inComment).length = (piecesText pieces).length := by
  induction pieces with
  | nil => rfl
  | cons piece pieces ih =>
    rw [List.flatMap_cons, List.length_append, ih, Piece.inComment, List.length_replicate,
      piecesText_cons, List.length_append]

theorem takenAsComment_length (items : List Item) :
    (takenAsComment items).length = (itemsText items).length := by
  induction items with
  | nil => rfl
  | cons item items ih =>
    have hitem : item.inComment.length = item.text.length := by
      cases item with
      | trivia pieces => exact pieces_inComment_length pieces
      | setTerm command terminator new => exact List.length_replicate
      | body pieces closing =>
        rw [Item.inComment, Item.text, List.length_append, List.length_append,
          pieces_inComment_length, List.length_replicate]
    rw [takenAsComment, List.flatMap_cons, List.length_append, hitem, itemsText_cons,
      List.length_append, ← ih]
    rfl

/-- Agreement is that every region is closed, and the comments are the same. -/
theorem rangesAgree_iff {terminator script : Text} {items : List Item}
    (h : Layout terminator script items) : RangesAgree script items ↔
      Lexes script ∧ commentMask script = takenAsComment items := by
  constructor
  · rintro ⟨ranges, hranges, hagree⟩
    have hlexes := commentRangesFrom_lexes le_rfl hranges
    obtain ⟨ranges', hranges', -, hmask⟩ :=
      hlexes.commentRanges (k := 0) (p := ⟨1, 1⟩) (Nat.le_refl script.length)
    have hsame : commentRanges script = .ok ranges' := hranges'
    rw [hranges] at hsame
    cases hsame
    refine ⟨hlexes, ?_⟩
    have hlength : (commentMask script).length = (takenAsComment items).length := by
      rw [commentMask, mask_length le_rfl, takenAsComment_length, h.text_eq]
    apply List.ext_getElem hlength
    intro i hi hi'
    have hin := hmask i
    rw [Nat.zero_add] at hin
    have hiff := hin.symm.trans (hagree i)
    rw [List.getElem?_eq_getElem hi, List.getElem?_eq_getElem hi', Option.some.injEq,
      Option.some.injEq] at hiff
    exact Bool.eq_iff_iff.mpr hiff
  · rintro ⟨hlexes, hmask⟩
    obtain ⟨ranges, hranges, -, hin⟩ :=
      hlexes.commentRanges (k := 0) (p := ⟨1, 1⟩) (Nat.le_refl script.length)
    refine ⟨ranges, hranges, fun i => ?_⟩
    rw [← hmask, ← hin i, Nat.zero_add]

/-! ### There is one layout -/

theorem Trivia.unique {text behind behind' : Text} {pieces pieces' : List Piece}
    (h : Trivia text pieces behind) (h' : Trivia text pieces' behind') :
    pieces = pieces' ∧ behind = behind' := by
  induction h generalizing pieces' behind' with
  | @stop text hstop =>
    cases h' with
    | stop _ => exact ⟨rfl, rfl⟩
    | space hspace _ =>
      rw [hstop.1] at hspace
      cases hspace
    | comment hopens hcomment _ =>
      cases text with
      | nil => cases hopens
      | cons c rest =>
        rw [hstop.2 _ hopens.regionAt.1] at hcomment
        cases hcomment
  | space hspace _ ih =>
    cases h' with
    | stop hstop =>
      rw [hstop.1] at hspace
      cases hspace
    | space _ hrest =>
      obtain ⟨rfl, rfl⟩ := ih hrest
      exact ⟨rfl, rfl⟩
    | comment hopens _ _ =>
      have hr := hopens.regionAt.1
      rw [isSpace_opensNothing hspace] at hr
      cases hr
  | @comment text behind r pieces hopens hcomment _ ih =>
    cases h' with
    | stop hstop =>
      cases text with
      | nil => cases hopens
      | cons c rest =>
        rw [hstop.2 _ hopens.regionAt.1] at hcomment
        cases hcomment
    | space hspace _ =>
      have hr := hopens.regionAt.1
      rw [isSpace_opensNothing hspace] at hr
      cases hr
    | comment hopens' _ hrest =>
      have hr := hopens.regionAt.1
      rw [hopens'.regionAt.1] at hr
      obtain rfl := Option.some.inj hr
      obtain ⟨rfl, rfl⟩ := ih hrest
      exact ⟨rfl, rfl⟩

theorem BodyScan.unique {terminator text closing closing' rest rest' : Text}
    {pieces pieces' : List Piece} (h : BodyScan terminator text pieces closing rest)
    (h' : BodyScan terminator text pieces' closing' rest') :
    pieces = pieces' ∧ closing = closing' ∧ rest = rest' := by
  induction h generalizing pieces' closing' rest' with
  | done =>
    generalize hnil : ([] : Text) = text at h'
    cases h' with
    | done => exact ⟨rfl, rfl, rfl⟩
    | closed hne _ => exact absurd (List.append_eq_nil_iff.mp hnil.symm).1 hne
    | region hopens _ => subst hnil; cases hopens
    | char _ _ _ => cases hnil
  | @closed rest hne hnone =>
    generalize htext : terminator ++ rest = text at h' hnone
    cases h' with
    | done => exact absurd (List.append_eq_nil_iff.mp htext).1 hne
    | closed _ _ => exact ⟨rfl, rfl, List.append_cancel_left htext⟩
    | region hopens _ =>
      rw [hopens.regionAt.1] at hnone
      cases hnone
    | char _ hmatch _ => exact absurd ⟨hne, rest, htext⟩ hmatch
  | @region text closing rest r pieces hopens _ ih =>
    cases h' with
    | done => cases hopens
    | closed _ hnone =>
      rw [hopens.regionAt.1] at hnone
      cases hnone
    | region hopens' hrest =>
      have hr := hopens.regionAt.1
      rw [hopens'.regionAt.1] at hr
      obtain rfl := Option.some.inj hr
      obtain ⟨rfl, rfl, rfl⟩ := ih hrest
      exact ⟨rfl, rfl, rfl⟩
    | char hnone _ _ =>
      rw [hopens.regionAt.1] at hnone
      cases hnone
  | @char c text closing rest pieces hnone hmatch _ ih =>
    generalize htext : c :: text = whole at h'
    cases h' with
    | done => cases htext
    | closed hne _ => exact absurd ⟨hne, _, htext.symm⟩ hmatch
    | region hopens' _ =>
      subst htext
      rw [hopens'.regionAt.1] at hnone
      cases hnone
    | char _ _ hrest =>
      cases htext
      obtain ⟨rfl, rfl, rfl⟩ := ih hrest
      exact ⟨rfl, rfl, rfl⟩

theorem Layout.unique {terminator text : Text} {items items' : List Item}
    (h : Layout terminator text items) (h' : Layout terminator text items') : items = items' := by
  induction h generalizing items' with
  | done htrivia =>
    cases h' with
    | done htrivia' => rw [(htrivia.unique htrivia').1]
    | setTerm htrivia' hne _ _ _ _ => exact absurd (htrivia.unique htrivia').2.symm hne
    | body htrivia' hne _ _ _ => exact absurd (htrivia.unique htrivia').2.symm hne
  | setTerm htrivia hne hset hsplit _ _ ih =>
    cases h' with
    | done htrivia' => exact absurd (htrivia.unique htrivia').2 hne
    | setTerm htrivia' _ _ hsplit' _ hrest' =>
      obtain ⟨rfl, rfl⟩ := htrivia.unique htrivia'
      rw [hsplit] at hsplit'
      obtain ⟨rfl, hrest⟩ := Prod.mk.inj (Option.some.inj hsplit')
      obtain rfl := List.append_cancel_left hrest
      rw [ih hrest']
    | body htrivia' _ hset' _ _ =>
      obtain ⟨rfl, rfl⟩ := htrivia.unique htrivia'
      rw [hset] at hset'
      cases hset'
  | body htrivia hne hset hbody _ ih =>
    cases h' with
    | done htrivia' => exact absurd (htrivia.unique htrivia').2 hne
    | setTerm htrivia' _ hset' _ _ _ =>
      obtain ⟨rfl, rfl⟩ := htrivia.unique htrivia'
      rw [hset] at hset'
      cases hset'
    | body htrivia' _ _ hbody' hrest' =>
      obtain ⟨rfl, rfl⟩ := htrivia.unique htrivia'
      obtain ⟨rfl, rfl, rfl⟩ := hbody.unique hbody'
      rw [ih hrest']

/-- A script that is accepted has one layout. `commentRanges` agrees with it where the walk goes
plainly through the `SET TERM` commands and the terminators, and nowhere else, but for literals
that cross the end of one of these. -/
theorem commentRanges_agree {cases : CaseMap} {script terminator : Text}
    {statements : List ParsedStatement}
    (h : parseScript cases script terminator = .ok statements) :
    ∃ items, Layout terminator script items ∧
      (∀ items', Layout terminator script items' → items' = items) ∧
      (InStep items → RangesAgree script items) ∧
      (NoneCrosses items → RangesAgree script items → InStep items) := by
  obtain ⟨items, hlayout, -⟩ := (parseScript_ok cases).mp h
  refine ⟨items, hlayout, fun items' h' => h'.unique hlayout, ?_, ?_⟩
  · intro hstep
    exact (rangesAgree_iff hlayout).mpr (hlayout.inStep hstep)
  · intro hcross hagree
    obtain ⟨hlexes, hmask⟩ := (rangesAgree_iff hlayout).mp hagree
    exact hlayout.inStep_of_mask hcross hlexes hmask

/-! ### Plain characters -/

/-- Whatever follows it, no region starts at the character. -/
def opensNothing (c : Char) : Bool := c ∉ ['-', '/', 'q', 'Q', '\'', '"']

theorem opensNothing_regionAt {c : Char} (h : opensNothing c = true) (rest : Text) :
    regionAt (c :: rest) = none := by
  have hne : ∀ d ∈ ['-', '/', 'q', 'Q', '\'', '"'], c ≠ d := by
    rintro d hd rfl
    exact of_decide_eq_true h hd
  apply regionAt_eq_none.mpr
  exact ⟨fun h => hne '-' (by decide) h.1, fun h => hne '/' (by decide) h.1,
    fun h => h.1.elim (hne 'q' (by decide)) (hne 'Q' (by decide)), hne '\'' (by decide),
    hne '"' (by decide)⟩

/-- Plain characters in front of a body, none of which starts the terminator. -/
theorem BodyScan.front {terminator lead text closing rest : Text} {pieces : List Piece}
    (h : BodyScan terminator text pieces closing rest)
    (hlead : (lead.all fun c => decide (opensNothing c = true ∧ terminator.head? ≠ some c)) = true) :
    BodyScan terminator (lead ++ text) (lead.map .char ++ pieces) closing rest := by
  induction lead with
  | nil => exact h
  | cons c lead ih =>
    rw [List.all_cons, Bool.and_eq_true, decide_eq_true_eq] at hlead
    obtain ⟨⟨hplain, hother⟩, hrest⟩ := hlead
    refine .char (opensNothing_regionAt hplain _) ?_ (ih hrest)
    rintro ⟨hne, hstarts⟩
    obtain ⟨d, t, rfl⟩ := List.exists_cons_of_ne_nil hne
    obtain ⟨rfl, -⟩ := List.cons_prefix_cons.mp hstarts
    exact hother rfl

theorem Plainly.front {lead rest : Text} (hlead : lead.all opensNothing = true) :
    Plainly (lead ++ rest) lead.length := by
  induction lead with
  | nil => exact ⟨[], rest, .stop, nofun, rfl⟩
  | cons c lead ih =>
    rw [List.all_cons, Bool.and_eq_true] at hlead
    obtain ⟨pieces, behind, hwalk, hplain, hlength⟩ := ih hlead.2
    refine ⟨.char c :: pieces, behind, .char (opensNothing_regionAt hlead.1 _) hwalk,
      List.forall_mem_cons.mpr ⟨rfl, hplain⟩, ?_⟩
    rw [piecesText_cons, List.length_append, hlength, List.length_cons, Nat.add_comm]
    rfl

/-- Comments of both kinds, around a `SET TERM` command. -/
theorem commentRanges_agree_plain : ∃ items,
    Layout [';'] "a--b\n; set term ^ ;/*c*/d^".toList items ∧
      RangesAgree "a--b\n; set term ^ ;/*c*/d^".toList items := by
  have hbody : BodyScan [';'] "a--b\n; set term ^ ;/*c*/d^".toList
      [.char 'a', .region .lineComment "--b".toList, .char '\n'] [';'] " set term ^ ;/*c*/d^".toList :=
    .char (opensNothing_regionAt (by decide) _) (by decide) (.region (.lineComment _)
      (.char (opensNothing_regionAt (by decide) _) (by decide) (.closed (by decide) (by decide))))
  have hbody' : BodyScan ['^'] "d^".toList [.char 'd'] ['^'] [] :=
    .char (opensNothing_regionAt (by decide) _) (by decide) (.closed (by decide) (by decide))
  have hcode : ∀ {c : Char} {rest : Text}, isSpace c = false → opensNothing c = true →
      StartsCode (c :: rest) := by
    intro c rest hspace hplain
    refine ⟨hspace, fun r hr => ?_⟩
    rw [opensNothing_regionAt hplain] at hr
    cases hr
  have hnew : newTerminator "set term ^ ".toList = ['^'] := by decide +kernel
  have hsplit : splitAtTerminator [';'] "set term ^ ;/*c*/d^".toList =
      some ("set term ^ ".toList, [';'] ++ "/*c*/d^".toList) := by decide +kernel
  have hlayout : Layout [';'] "a--b\n; set term ^ ;/*c*/d^".toList
      [.trivia [], .body [.char 'a', .region .lineComment "--b".toList, .char '\n'] [';'],
        .trivia [.char ' '], .setTerm "set term ^ ".toList [';'] (newTerminator "set term ^ ".toList),
        .trivia [.region .blockComment "/*c*/".toList], .body [.char 'd'] ['^'], .trivia []] := by
    refine .body (.stop (hcode (by decide) (by decide))) (by decide) (by decide +kernel) hbody ?_
    refine .setTerm (.space (by decide) (.stop (hcode (by decide) (by decide)))) (by decide)
      (by decide +kernel) hsplit (by decide +kernel) ?_
    rw [hnew]
    have hcomment : Trivia "/*c*/d^".toList [.region .blockComment "/*c*/".toList] "d^".toList :=
      .comment (@Opens.blockComment "c*/d^".toList 1 (by decide)) rfl
        (.stop (hcode (c := 'd') (by decide) (by decide)))
    exact .body hcomment (by decide) (by decide +kernel) hbody' (.done (.stop trivial))
  have hstep : InStep [.trivia [], .body [.char 'a', .region .lineComment "--b".toList, .char '\n'] [';'],
      .trivia [.char ' '], .setTerm "set term ^ ".toList [';'] (newTerminator "set term ^ ".toList),
      .trivia [.region .blockComment "/*c*/".toList], .body [.char 'd'] ['^'], .trivia []] :=
    ⟨.front rfl, .front (by decide), .front rfl, .front (by decide +kernel), .front rfl, .front (by decide),
      .front rfl, trivial⟩
  have hparse : parseScript basicCase "a--b\n; set term ^ ;/*c*/d^".toList [';'] =
      .ok [⟨"a--b".toList, ⟨1, 1⟩, .other, none⟩, ⟨"d".toList, ⟨2, 20⟩, .other, none⟩] := by
    decide +kernel
  obtain ⟨items, -, hunique, hagree, -⟩ := commentRanges_agree hparse
  have hitems := hunique _ hlayout
  rw [← hitems] at hagree
  exact ⟨_, hlayout, hagree hstep⟩

/-- `SET TERM '` opens a string that is never closed, and the command of `SET TERM --` is read as a
comment. -/
theorem setTerm_argument_diverges :
    (parseScript basicCase "set term ';".toList [';'] = .ok [] ∧
      commentRanges "set term ';".toList =
        .error ⟨"Unterminated string", ⟨1, 10⟩⟩) ∧
    (parseScript basicCase "set term --;".toList [';'] = .ok [] ∧
      commentRanges "set term --;".toList = .ok [(9, 12)] ∧
      ∀ items, Layout [';'] "set term --;".toList items →
        ¬ RangesAgree "set term --;".toList items) := by
  have hranges : commentRanges "set term --;".toList = .ok [(9, 12)] := by decide
  refine ⟨⟨by decide, by decide +kernel⟩, by decide, hranges, fun items hlayout => ?_⟩
  have hstart : Trivia "set term --;".toList [] "set term --;".toList := by
    refine .stop ⟨by decide, fun r hr => ?_⟩
    cases hr
  have hsplit : splitAtTerminator [';'] "set term --;".toList =
      some ("set term --".toList, [';'] ++ []) := by decide
  have hnew : newTerminator "set term --".toList = ['-', '-'] := by decide
  have hlayout' : Layout [';'] "set term --;".toList
      [.trivia [], .setTerm "set term --".toList [';'] (newTerminator "set term --".toList),
        .trivia []] :=
    .setTerm hstart (by decide) (by decide) hsplit (by rw [hnew]; decide) (.done (.stop trivial))
  obtain rfl := hlayout.unique hlayout'
  rintro ⟨ranges, hok, hagree⟩
  rw [hranges] at hok
  cases hok
  have htaken := (hagree 9).mp ⟨(9, 12), by simp, by decide, by decide⟩
  exact absurd htaken (by decide)

end FastFirebird
