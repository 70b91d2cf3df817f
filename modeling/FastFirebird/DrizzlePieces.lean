import FastFirebird.DrizzleModule
import Mathlib.Data.List.TakeWhile

/-! The pieces of a schema module, token by token. -/
namespace FastFirebird.Drizzle

open Utf16 (units)
open Js (IdChars Token Renders RendersName Trivial Closes depthBehind)

variable {ids : IdChars}

/-! Numbers and options -/

theorem toString_digits (n : Nat) : (toString n).toList.all Char.isDigit = true := by
  rw [Nat.toString_eq_repr, Nat.toList_repr, List.all_eq_true]
  exact fun _ => Nat.isDigit_of_mem_toDigits (by decide) (by decide)

theorem toString_ne_nil (n : Nat) : (toString n).toList ≠ [] := by
  rw [Nat.toString_eq_repr, Nat.toList_repr]
  exact Nat.toDigits_ne_nil

theorem number_negSucc (n : Nat) : number (.negSucc n) = '-' :: (toString (n + 1)).toList := by
  change ("-" ++ toString (n + 1)).toList = _
  rw [String.toList_append]
  rfl

theorem renders_number (n : Int) : RendersName ids (number n) (OptionValue.int n).tokens := by
  cases n with
  | ofNat n => exact Js.renders_digits (toString_ne_nil n) (toString_digits n)
  | negSucc n =>
    rw [number_negSucc]
    intro rest hrest
    exact .step rfl (Js.renders_digits (toString_ne_nil (n + 1)) (toString_digits (n + 1)) rest hrest)

theorem star_not_number (n : Int) : '*' ∉ number n := by
  have hdigits (n : Nat) : '*' ∉ (toString n).toList :=
    fun h => Bool.noConfusion (List.all_eq_true.mp (toString_digits n) _ h)
  cases n with
  | ofNat n => exact hdigits n
  | negSucc n =>
    rw [number_negSucc]
    exact List.not_mem_cons_of_ne_of_not_mem (by decide) (hdigits (n + 1))

/-- What comes behind the name in a builder is options, and the end of the call. -/
def Optional (ids : IdChars) (text : Text) : Prop :=
  ∃ options, Renders ids text (optionTokens options ++ [.punct ')'])

theorem optional_none {text : Text} (h : Renders ids text [.punct ')']) : Optional ids text := ⟨[], h⟩

theorem optional_numeric (c : RawColumn) (bits : String) (col : Text) :
    Optional ids ((numeric c bits).builder col).options := by
  have hclose : Renders ids ")".toList [.punct ')'] := fun _ => .step rfl (.done rfl)
  unfold numeric
  dsimp only
  split
  · refine ⟨[("precision".toList, .int (precision c)), ("scale".toList, .int (scale c))], ?_⟩
    have hopen : Renders ids ", \x7b precision: ".toList
        [.punct ',', .punct '\x7b', word "precision", .punct ':'] :=
      fun _ => .step rfl (.step rfl (.step rfl (.step rfl (.done rfl))))
    have hscale : Renders ids ", scale: ".toList [.punct ',', word "scale", .punct ':'] :=
      fun _ => .step rfl (.step rfl (.step rfl (.done rfl)))
    have hend : Renders ids " \x7d)".toList [.punct '\x7d', .punct ')'] :=
      fun _ => .step rfl (.step rfl (.done rfl))
    have hprecision := ((renders_number (precision c)).after hopen).append hscale rfl
    have hall := ((renders_number (scale c)).after hprecision).append hend rfl
    simpa only [optionTokens, commas, word, List.map_cons, List.map_nil,
      List.intercalate_cons_cons, List.intercalate_singleton, List.append_assoc, List.cons_append,
      List.nil_append] using hall
  split
  · exact optional_none hclose
  split
  · exact optional_none hclose
  · exact ⟨[("mode".toList, .string (units "bigint".toList))], fun _ => .step rfl (.step rfl
      (.step rfl (.step rfl (.step rfl (.step rfl (.step rfl (.done rfl)))))))⟩

theorem optional_characters (c : RawColumn) (sqlType fn : String) (col : Text) :
    Optional ids ((characters c sqlType fn).builder col).options := by
  unfold characters
  dsimp only
  refine ⟨[("length".toList, .int (c.fchars.getD 1))], ?_⟩
  have hopen : Renders ids ", \x7b length: ".toList
      [.punct ',', .punct '\x7b', word "length", .punct ':'] :=
    fun _ => .step rfl (.step rfl (.step rfl (.step rfl (.done rfl))))
  have hend : Renders ids " \x7d)".toList [.punct '\x7d', .punct ')'] :=
    fun _ => .step rfl (.step rfl (.done rfl))
  have hall := ((renders_number (c.fchars.getD 1)).after hopen).append hend rfl
  simpa only [optionTokens, commas, word, List.map_cons, List.map_nil, List.intercalate_singleton,
    List.append_assoc, List.cons_append, List.nil_append] using hall

theorem optional_unmapped (n : Int) :
    Optional ids (") /* unmapped RDB$FIELD_TYPE ".toList ++ number n ++ " */".toList) := by
  apply optional_none
  intro rest
  have htext : '*' ∉ " unmapped RDB$FIELD_TYPE ".toList ++ number n ++ " ".toList := by
    rw [List.mem_append, List.mem_append]
    rintro ((hfront | hnumber) | hback)
    · exact absurd hfront (by decide)
    · exact star_not_number n hnumber
    · exact absurd hback (by decide)
  have hskip := Js.skip_block htext rest
  rw [List.append_assoc, List.append_assoc] at hskip ⊢
  exact .step rfl (.done hskip)

theorem optional_mapType (c : RawColumn) (col : Text) :
    Optional ids ((mapType c).builder col).options := by
  unfold mapType
  split
  iterate 4 exact optional_numeric c _ col
  iterate 7 exact optional_none fun _ => .step rfl (.done rfl)
  iterate 2 exact optional_characters c _ _ col
  iterate 3 exact optional_none fun _ => .step rfl (.done rfl)
  · split
    · exact optional_none fun _ => .step rfl (.done rfl)
    · exact optional_none fun _ => .step rfl (.done rfl)
  · exact optional_unmapped c.ftype

/-! The functions of the builders -/

/-- What `mapType` calls. -/
def builders : List Text :=
  ["bigint", "blob", "blobText", "boolean", "char", "date", "decimal", "doublePrecision", "integer",
    "numeric", "real", "smallint", "time", "timestamp", "varchar"].map String.toList

theorem mapType_fn (c : RawColumn) (col : Text) : ((mapType c).builder col).fn ∈ builders := by
  have hbuilder (fn : String) (h : builders.contains fn.toList = true) : fn.toList ∈ builders :=
    List.contains_iff_mem.mp h
  have hnumeric (bits : String) : ((numeric c bits).builder col).fn ∈ builders := by
    unfold numeric
    dsimp only
    split
    · dsimp only
      split
      · exact hbuilder "decimal" rfl
      · exact hbuilder "numeric" rfl
    split
    · exact hbuilder "smallint" rfl
    split
    · exact hbuilder "integer" rfl
    · exact hbuilder "bigint" rfl
  unfold mapType
  split
  iterate 4 exact hnumeric _
  iterate 12 exact hbuilder _ rfl
  · split
    · exact hbuilder "blobText" rfl
    · exact hbuilder "blob" rfl
  · exact hbuilder "varchar" rfl

/-- The names that may be imported. -/
def imported : List Text := "firebirdTable".toList :: "primaryKey".toList :: builders

theorem imported_binding : (imported.all (Js.isBinding ids)) = true := rfl

/-! Lists with commas -/

theorem intercalate_cons {α : Type} (sep head : List α) (rest : List (List α)) :
    List.intercalate sep (head :: rest) =
      head ++ ((if rest = [] then [] else sep) ++ List.intercalate sep rest) := by
  cases rest with
  | nil => rw [List.intercalate_singleton, if_pos rfl]; exact (List.append_nil _).symm
  | cons next rest =>
    rw [List.intercalate_cons_cons, if_neg (List.cons_ne_nil _ _), List.append_assoc]

/-! The tail of a column closes the call -/

/-- The tokens leave the depth as it is. -/
def Level (depth : Nat) (tokens : List Token) : Prop :=
  tokens.foldlM depthBehind depth = some depth

theorem Level.append {depth : Nat} {a b : List Token} (ha : Level depth a) (hb : Level depth b) :
    Level depth (a ++ b) := by
  rw [Level, List.foldlM_append, ha]
  exact hb

theorem level_commas {depth : Nat} {items : List (List Token)}
    (h : ∀ item ∈ items, Level (depth + 1) item) : Level (depth + 1) (commas items) := by
  induction items with
  | nil => rfl
  | cons item items ih =>
    obtain ⟨hitem, hitems⟩ := List.forall_mem_cons.mp h
    rw [commas, intercalate_cons]
    refine hitem.append (Level.append ?_ (ih hitems))
    split <;> rfl

theorem level_option (depth : Nat) (name : Text) (value : OptionValue) :
    Level (depth + 1) (.ident name :: .punct ':' :: value.tokens) := by
  rcases value with (n | n) | v <;> rfl

theorem closes_tail (options : List (Text × OptionValue)) (calls : List Text) :
    Closes 1 (optionTokens options ++ .punct ')' :: calls.flatMap callTokens) := by
  have hcalls : Level 0 (calls.flatMap callTokens) := by
    induction calls with
    | nil => rfl
    | cons name calls ih => exact Level.append rfl ih
  have hoptions : Level 1 (optionTokens options) := by
    cases options with
    | nil => rfl
    | cons option options =>
      have hlist : Level 2 (commas ((option :: options).map fun option =>
          .ident option.1 :: .punct ':' :: option.2.tokens)) := by
        apply level_commas
        intro item hitem
        obtain ⟨⟨name, value⟩, -, rfl⟩ := List.mem_map.mp hitem
        exact level_option 1 name value
      rw [Level, optionTokens, List.foldlM_append, List.foldlM_append]
      · exact congrArg (Option.bind · _) hlist
      · exact List.cons_ne_nil _ _
  rw [Closes, List.foldlM_append, hoptions]
  exact hcalls

end FastFirebird.Drizzle
