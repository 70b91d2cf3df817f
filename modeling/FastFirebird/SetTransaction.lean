import FastFirebird.LeadingWords
import FastFirebird.Transactions
import Mathlib.Data.List.Nodup

/-! The clauses of `SET TRANSACTION`, in whatever order they are written. -/
namespace FastFirebird

/-- A number as a script writes it. -/
structure Digits where
  text : Text
  ne_nil : text ≠ []
  all_digits : text.all isDigit = true
  deriving Repr, DecidableEq

def Digits.value (d : Digits) : Nat := digitsValue d.text

/-- `[NO] VERSION`, or `[NO] RECORD_VERSION` in the classic spelling. -/
inductive VersionMode where
  | unstated
  | version (classic : Bool)
  | noVersion (classic : Bool)
  deriving Repr, DecidableEq

inductive IsolationMode where
  | snapshot
  | snapshotTable (stability : Bool)
  | read (committed : Bool) (version : VersionMode)
  deriving Repr, DecidableEq

/-- The clauses a script can write; `level` is whether `ISOLATION LEVEL` stands in front. -/
inductive Clause where
  | access (readOnly : Bool)
  | isolation (level : Bool) (mode : IsolationMode)
  | wait
  | noWait
  | lockTimeout (seconds : Digits)
  | autoCommit
  deriving Repr, DecidableEq

inductive ClauseKind where
  | access
  | isolation
  | lockWait
  | lockTimeout
  | autoCommit
  deriving Repr, DecidableEq

def Clause.kind : Clause → ClauseKind
  | access _ => .access
  | isolation _ _ => .isolation
  | wait | noWait => .lockWait
  | lockTimeout _ => .lockTimeout
  | autoCommit => .autoCommit

def versionWord (classic : Bool) : Text :=
  if classic then "record_version".toList else "version".toList

def VersionMode.words : VersionMode → List Text
  | unstated => []
  | version classic => [versionWord classic]
  | noVersion classic => ["no".toList, versionWord classic]

def IsolationMode.words : IsolationMode → List Text
  | snapshot => ["snapshot".toList]
  | snapshotTable stability =>
    "snapshot".toList :: "table".toList :: if stability then ["stability".toList] else []
  | read committed version =>
    "read".toList :: (if committed then "committed".toList else "uncommitted".toList) ::
      version.words

def Clause.words : Clause → List Text
  | access readOnly => ["read".toList, if readOnly then "only".toList else "write".toList]
  | isolation level mode =>
    (if level then ["isolation".toList, "level".toList] else []) ++ mode.words
  | wait => ["wait".toList]
  | noWait => ["no".toList, "wait".toList]
  | lockTimeout seconds => ["lock".toList, "timeout".toList, seconds.text]
  | autoCommit => ["auto".toList, "commit".toList]

/-- A text is a `SET TRANSACTION` command of these clauses: any spacing, case and comments, with
or without a terminator. -/
def Spells (cases : CaseMap) (sql : Text) (clauses : List Clause) : Prop :=
  ∃ stripped, stripComments sql = .ok stripped ∧
    tokens (toLowerCase cases (dropTerminators stripped)) =
      "set".toList :: "transaction".toList :: clauses.flatMap Clause.words

/-! ### What a clause sets -/

/-- READ COMMITTED and READ UNCOMMITTED have no record version unless it is asked for. -/
def IsolationMode.level : IsolationMode → Isolation
  | snapshot => .snapshot
  | snapshotTable _ => .serializable
  | read _ (.version _) => .readCommitted
  | read _ _ => .readCommittedNoRecVersion

def Clause.apply (o : TransactionOptions) : Clause → TransactionOptions
  | access readOnly => { o with readOnly := some readOnly }
  | isolation _ mode => { o with isolation := some mode.level }
  | wait => { o with wait := some .forever }
  | noWait => { o with wait := some .never }
  | lockTimeout seconds => { o with wait := some (.seconds seconds.value) }
  | autoCommit => { o with autoCommit := some true }

/-! ### The loop of `parseSetTransaction` over whole clauses -/

/-- The rounds of the loop that take a clause. -/
def VersionMode.rounds : VersionMode → Nat
  | unstated => 0
  | version _ | noVersion _ => 1

def IsolationMode.rounds : IsolationMode → Nat
  | snapshot | snapshotTable _ => 1
  | read _ version => version.rounds + 1

def Clause.rounds : Clause → Nat
  | isolation level mode => mode.rounds + if level then 1 else 0
  | access _ | wait | noWait | lockTimeout _ | autoCommit => 1

/-- What may follow a clause: the end, or the first word of a clause. -/
def ClauseEnd (rest : List Text) : Prop :=
  ∀ w, rest.head? = some w → w ∈ ["read", "isolation", "snapshot", "wait", "no", "lock", "auto"].map
    String.toList

variable (cases : CaseMap) (raw : Text)

theorem ClauseEnd.head_ne {rest : List Text} (h : ClauseEnd rest) {w : String}
    (hw : w ∉ ["read", "isolation", "snapshot", "wait", "no", "lock", "auto"]) :
    rest.head? ≠ some w.toList := by
  intro heq
  obtain ⟨v, hv, hvw⟩ := List.mem_map.mp (h _ heq)
  exact hw (String.toList_inj.mp hvw ▸ hv)

theorem clauseEnd_words (c : Clause) (rest : List Text) : ClauseEnd (c.words ++ rest) := by
  intro w hw
  rcases c with readOnly | ⟨level, mode⟩ | _ | _ | d | _
  all_goals try (cases hw; simp)
  cases level with
  | true => cases hw; simp
  | false => cases mode <;> (cases hw; simp)

theorem clauseEnd_flatMap (clauses : List Clause) : ClauseEnd (clauses.flatMap Clause.words) := by
  cases clauses with
  | nil => exact fun w hw => by cases hw
  | cons c clauses => exact clauseEnd_words c _

theorem setTransactionFrom_version (committed : Bool) (m : VersionMode) (fuel : Nat)
    (rest : List Text) (o : TransactionOptions) :
    setTransactionFrom cases raw (fuel + m.rounds) (m.words ++ rest)
        { o with isolation := some .readCommittedNoRecVersion } =
      setTransactionFrom cases raw fuel rest
        { o with isolation := some (IsolationMode.level (.read committed m)) } := by
  rcases m with _ | classic | classic
  · rfl
  · cases classic <;> rfl
  · cases classic <;> rfl

theorem setTransactionFrom_mode (m : IsolationMode) (fuel : Nat) {rest : List Text}
    (hrest : ClauseEnd rest) (o : TransactionOptions) :
    setTransactionFrom cases raw (fuel + m.rounds) (m.words ++ rest) o =
      setTransactionFrom cases raw fuel rest { o with isolation := some m.level } := by
  have htable : rest.head? ≠ some "table".toList := hrest.head_ne (by decide)
  have hat : rest.head? ≠ some "at".toList := hrest.head_ne (by decide)
  have hstability : rest.head? ≠ some "stability".toList := hrest.head_ne (by decide)
  rcases m with _ | stability | ⟨committed, version⟩
  · have hround : setTransactionFrom cases raw (fuel + 1) ("snapshot".toList :: rest) o =
        if rest.head? = some "table".toList then _
        else if rest.head? = some "at".toList then _
        else setTransactionFrom cases raw fuel rest { o with isolation := some .snapshot } := rfl
    exact hround.trans ((if_neg htable).trans (if_neg hat))
  · cases stability with
    | true => rfl
    | false =>
      have hround : setTransactionFrom cases raw (fuel + 1)
          ("snapshot".toList :: "table".toList :: rest) o =
          setTransactionFrom cases raw fuel
            (if rest.head? = some "stability".toList then rest.tail else rest)
            { o with isolation := some .serializable } := rfl
      rw [if_neg hstability] at hround
      exact hround
  · have hversion := setTransactionFrom_version cases raw committed version fuel rest o
    cases committed <;> exact hversion

/-- A round, or a few of them, take a clause and set what it stands for. -/
theorem setTransactionFrom_clause (c : Clause) (fuel : Nat) {rest : List Text}
    (hrest : ClauseEnd rest) (o : TransactionOptions) :
    setTransactionFrom cases raw (fuel + c.rounds) (c.words ++ rest) o =
      setTransactionFrom cases raw fuel rest (c.apply o) := by
  rcases c with readOnly | ⟨level, mode⟩ | _ | _ | d | _
  · cases readOnly <;> rfl
  · have hmode := setTransactionFrom_mode cases raw mode fuel hrest o
    cases level with
    | true => exact hmode
    | false => exact hmode
  · rfl
  · rfl
  · have hround : setTransactionFrom cases raw (fuel + 1)
        ("lock".toList :: "timeout".toList :: d.text :: rest) o =
        if some "timeout".toList = some "timeout".toList ∧
            (some d.text).any (fun d => d ≠ [] ∧ d.all isDigit) then
          setTransactionFrom cases raw fuel rest { o with wait := some (.seconds d.value) }
        else unsupportedClause "LOCK (expected LOCK TIMEOUT <seconds>)".toList := rfl
    have hdigits : (some d.text).any (fun d => d ≠ [] ∧ d.all isDigit) = true := by
      simp only [Option.any_some, decide_eq_true_eq]
      exact ⟨d.ne_nil, d.all_digits⟩
    exact hround.trans (if_pos ⟨rfl, hdigits⟩)
  · rfl

theorem setTransactionFrom_clauses (fuel : Nat) (clauses : List Clause) (o : TransactionOptions) :
    setTransactionFrom cases raw (fuel + (clauses.map Clause.rounds).sum)
        (clauses.flatMap Clause.words) o =
      .setTransaction (clauses.foldl Clause.apply o) raw := by
  induction clauses generalizing o with
  | nil => cases fuel <;> rfl
  | cons c clauses ih =>
    have hfuel : fuel + ((c :: clauses).map Clause.rounds).sum =
        fuel + (clauses.map Clause.rounds).sum + c.rounds := by
      rw [List.map_cons, List.sum_cons]
      omega
    rw [hfuel, List.flatMap_cons,
      setTransactionFrom_clause cases raw c _ (clauseEnd_flatMap clauses), ih]
    rfl

theorem Clause.rounds_le_words (c : Clause) : c.rounds ≤ c.words.length := by
  rcases c with _ | ⟨level, mode⟩ | _ | _ | _ | _
  all_goals try decide
  · exact Nat.le_succ 1
  · have hmode : mode.rounds ≤ mode.words.length := by
      rcases mode with _ | stability | ⟨committed, version⟩
      · decide
      · cases stability <;> decide
      · cases version with
        | unstated => exact Nat.le_succ 1
        | version _ => exact Nat.le_succ 2
        | noVersion _ => exact Nat.le_add_right 2 2
    cases level with
    | true => exact Nat.le_succ_of_le (Nat.succ_le_succ hmode)
    | false => exact hmode
  · exact Nat.le_add_left 1 2

theorem rounds_le_words (clauses : List Clause) :
    (clauses.map Clause.rounds).sum ≤ (clauses.flatMap Clause.words).length := by
  induction clauses with
  | nil => exact le_rfl
  | cons c clauses ih =>
    have hc := c.rounds_le_words
    rw [List.map_cons, List.sum_cons, List.flatMap_cons, List.length_append]
    omega

/-- The options a list of clauses stands for, each clause in its turn. -/
def clauseOptions (clauses : List Clause) : TransactionOptions := clauses.foldl Clause.apply {}

theorem parseSetTransaction_clauses (clauses : List Clause) :
    parseSetTransaction cases (clauses.flatMap Clause.words) raw =
      .setTransaction (clauseOptions clauses) raw := by
  obtain ⟨fuel, hfuel⟩ := Nat.exists_eq_add_of_le' (rounds_le_words clauses)
  rw [parseSetTransaction, hfuel]
  exact setTransactionFrom_clauses cases raw fuel clauses {}

/-- A text of clauses is accepted. -/
theorem Spells.classified {sql : Text} {clauses : List Clause} (h : Spells cases sql clauses) :
    classifyClientCommand cases sql = some (.setTransaction (clauseOptions clauses) sql) := by
  obtain ⟨stripped, hstripped, htokens⟩ := h
  have hset : classifyTokens cases sql
      ("set".toList :: "transaction".toList :: clauses.flatMap Clause.words) =
      some (parseSetTransaction cases (clauses.flatMap Clause.words) sql) := rfl
  rw [classifyClientCommand, hstripped]
  simp only [htokens]
  rw [hset, parseSetTransaction_clauses]

/-! ### Clauses commute -/

/-- The clauses that set the lock wait. -/
def Clause.setsWait : Clause → Bool
  | wait | noWait | lockTimeout _ => true
  | access _ | isolation _ _ | autoCommit => false

theorem Clause.apply_comm {c d : Clause} (hkind : c.kind ≠ d.kind)
    (hwait : ¬ (c.setsWait = true ∧ d.setsWait = true)) (o : TransactionOptions) :
    d.apply (c.apply o) = c.apply (d.apply o) := by
  cases c <;> cases d <;>
    first
    | rfl
    | exact absurd rfl hkind
    | exact absurd ⟨rfl, rfl⟩ hwait

/-- At most one clause of the list sets the lock wait. -/
def OneWait (clauses : List Clause) : Prop :=
  ∀ c ∈ clauses, ∀ d ∈ clauses, c.setsWait = true → d.setsWait = true → c = d

theorem clauseOptions_perm {clauses clauses' : List Clause} (hperm : clauses.Perm clauses')
    (hkinds : (clauses.map Clause.kind).Nodup) (hone : OneWait clauses) :
    clauseOptions clauses = clauseOptions clauses' := by
  apply hperm.foldl_eq'
  intro c hc d hd o
  by_cases heq : c = d
  · rw [heq]
  · have hkind : c.kind ≠ d.kind := fun h => heq (List.inj_on_of_nodup_map hkinds hc hd h)
    apply Clause.apply_comm hkind
    rintro ⟨hcw, hdw⟩
    exact heq (hone c hc d hd hcw hdw)

/-- A clause of the list may be taken for the last one. -/
theorem clauseOptions_last {clauses : List Clause} {c : Clause} (hc : c ∈ clauses)
    (hkinds : (clauses.map Clause.kind).Nodup) (hone : OneWait clauses) :
    ∃ o, clauseOptions clauses = c.apply o := by
  have hperm : clauses.Perm (clauses.erase c ++ [c]) :=
    (List.perm_cons_erase hc).trans (List.perm_append_singleton c _).symm
  refine ⟨clauseOptions (clauses.erase c), ?_⟩
  rw [clauseOptions_perm hperm hkinds hone, clauseOptions, List.foldl_append]
  rfl

/-! ### Clauses in the buffer -/

/-- The items a clause asks for. -/
def Clause.items : Clause → List TpbItem
  | access true => [⟨Tpb.read, none⟩]
  | access false => [⟨Tpb.write, none⟩]
  | isolation _ .snapshot => [⟨Tpb.concurrency, none⟩]
  | isolation _ (.snapshotTable _) => [⟨Tpb.consistency, none⟩]
  | isolation _ (.read _ (.version _)) =>
    [⟨Tpb.read_committed, none⟩, ⟨Tpb.rec_version, none⟩]
  | isolation _ (.read _ _) => [⟨Tpb.read_committed, none⟩, ⟨Tpb.no_rec_version, none⟩]
  | wait => [⟨Tpb.wait, none⟩]
  | noWait => [⟨Tpb.nowait, none⟩]
  | lockTimeout seconds => [⟨Tpb.wait, none⟩, ⟨Tpb.lock_timeout, some seconds.value⟩]
  | autoCommit => [⟨Tpb.autocommit, none⟩]

/-- Every clause is found in the buffer, and a WAIT is not cut short by a timeout that no clause
asks for. -/
def Reflected (clauses : List Clause) (tpb : List UInt8) : Prop :=
  ∃ items, readTpb tpb = some items ∧ (∀ c ∈ clauses, ∀ i ∈ c.items, i ∈ items) ∧
    (Clause.wait ∈ clauses → ∀ n, ⟨Tpb.lock_timeout, some n⟩ ∈ items →
      ∃ d, Clause.lockTimeout d ∈ clauses ∧ (d.value : Int) = n)

/-- The items of the options a clause has been applied to. -/
def tpbItems (opts : TransactionOptions) : List TpbItem :=
  isolationItems opts ++ accessItems opts ++ waitItems opts ++ autoCommitItems opts

theorem int32_value {n : Nat} (h : n < 2 ^ 31) : (n : Int).bmod (2 ^ 32) = n := by
  apply Int.bmod_eq_of_le <;> omega

theorem int32_bound (n : Nat) : (n : Int).bmod (2 ^ 32) < 2 ^ 31 := by
  have h := Int.bmod_lt (x := (n : Int)) (m := 2 ^ 32) (by decide)
  omega

theorem Clause.items_apply {c : Clause} {o : TransactionOptions}
    (hsmall : ∀ d, c = .lockTimeout d → d.value < 2 ^ 31) :
    ∀ i ∈ c.items, i ∈ tpbItems (c.apply o) := by
  intro i hi
  rcases c with readOnly | ⟨level, mode⟩ | _ | _ | d | _
  · have hmem : i ∈ accessItems (Clause.apply o (.access readOnly)) := by
      cases readOnly <;> exact hi
    simp [tpbItems, hmem]
  · have hmem : i ∈ isolationItems (Clause.apply o (.isolation level mode)) := by
      rcases mode with _ | stability | ⟨committed, version⟩
      · exact hi
      · exact hi
      · cases version <;> exact hi
    simp [tpbItems, hmem]
  · have hmem : i ∈ waitItems (Clause.apply o .wait) := hi
    simp [tpbItems, hmem]
  · have hmem : i ∈ waitItems (Clause.apply o .noWait) := hi
    simp [tpbItems, hmem]
  · have hmem : i ∈ waitItems (Clause.apply o (.lockTimeout d)) := by
      have hitems : waitItems (Clause.apply o (.lockTimeout d)) =
          [⟨Tpb.wait, none⟩, ⟨Tpb.lock_timeout, some ((d.value : Int).bmod (2 ^ 32))⟩] := rfl
      rw [hitems, int32_value (hsmall d rfl)]
      exact hi
    simp [tpbItems, hmem]
  · have hmem : i ∈ autoCommitItems (Clause.apply o .autoCommit) := hi
    simp [tpbItems, hmem]

/-- The timeout of a buffer is the one of the options. -/
theorem timeout_item {opts : TransactionOptions} {n : Int}
    (h : ⟨Tpb.lock_timeout, some n⟩ ∈ tpbItems opts) :
    ∃ m : Nat, opts.wait.getD (.seconds DEFAULT_LOCK_TIMEOUT_SECONDS) = .seconds m ∧
      n = (m : Int).bmod (2 ^ 32) := by
  simp only [tpbItems, isolationItems, accessItems, autoCommitItems, List.mem_append,
    List.mem_map, TpbItem.mk.injEq, reduceCtorEq, and_false, exists_false, false_or,
    or_false] at h
  unfold waitItems at h
  split at h
  · simp at h
  · simp at h
  · rename_i m hm
    refine ⟨m, hm, ?_⟩
    simpa using h

/-! ### Every list of clauses has a text -/

def plain (c : Char) : Bool := ('a' ≤ c && c ≤ 'z') || c == '_' || isDigit c

/-- A word or a number of plain characters. -/
structure PlainToken (w : Text) : Prop where
  chars : ∀ c ∈ w, plain c = true
  whole : (∃ c t, w = c :: t ∧ isWordStart c = true) ∨ (w ≠ [] ∧ w.all isDigit = true)

/-- Tokens, each with a blank behind it. -/
def spell (words : List Text) : Text := words.flatMap (· ++ [' '])

theorem plain_toNat {c : Char} (h : plain c = true) :
    (97 ≤ c.toNat ∧ c.toNat ≤ 122) ∨ c.toNat = 95 ∨ (48 ≤ c.toNat ∧ c.toNat ≤ 57) := by
  simp only [plain, isDigit, Bool.or_eq_true, Bool.and_eq_true, decide_eq_true_eq,
    beq_iff_eq] at h
  rcases h with (⟨h₁, h₂⟩ | rfl) | ⟨h₁, h₂⟩
  · exact .inl ⟨h₁, h₂⟩
  · exact .inr (.inl rfl)
  · exact .inr (.inr ⟨h₁, h₂⟩)

theorem plain_name {c : Char} (h : plain c = true) : isNameChar c = true := by
  simp only [plain, isNameChar, isWordChar, Bool.or_eq_true] at h ⊢
  tauto

theorem plain_lower {c : Char} (h : plain c = true) : cases.lower c = [c] := by
  have hrange := plain_toNat h
  rw [cases.lower_ascii c (by omega), toLower_self (by omega)]

theorem spell_chars {words : List Text} (hwords : ∀ w ∈ words, PlainToken w) :
    ∀ c ∈ spell words, plain c = true ∨ c = ' ' := by
  intro c hc
  obtain ⟨w, hw, hcw⟩ := List.mem_flatMap.mp hc
  rcases List.mem_append.mp hcw with hcw | hcw
  · exact .inl ((hwords w hw).chars c hcw)
  · exact .inr (List.mem_singleton.mp hcw)

/-- Nothing in a text of plain characters opens a region. -/
theorem stripFrom_plain {text : Text} (h : ∀ c ∈ text, plain c = true ∨ c = ' ') :
    ∀ {fuel : Nat} {p : Position}, text.length ≤ fuel → stripFrom fuel p text = .ok text := by
  induction text with
  | nil =>
    intro fuel p _
    cases fuel <;> rfl
  | cons c rest ih =>
    intro fuel p hfuel
    obtain _ | fuel := fuel
    · simp at hfuel
    have hne : ∀ d : Char, d.toNat < 48 → d ≠ ' ' → c ≠ d := by
      rintro d hd hblank rfl
      rcases h c (by simp) with hc | hc
      · have hrange := plain_toNat hc
        omega
      · exact hblank hc
    have hquote : rest.head? ≠ some '\'' := by
      intro hhead
      rcases h '\'' (by simp [List.mem_of_head? hhead]) with hc | hc
      · exact absurd hc (by decide)
      · exact absurd hc (by decide)
    have hnone : regionAt (c :: rest) = none := by
      apply regionAt_eq_none.mpr
      refine ⟨fun hc => hne '-' (by decide) (by decide) hc.1,
        fun hc => hne '/' (by decide) (by decide) hc.1, fun hc => hquote hc.2,
        hne '\'' (by decide) (by decide), hne '"' (by decide) (by decide)⟩
    have hrest := ih (fun d hd => h d (by simp [hd])) (p := p.advance [c])
      (Nat.le_of_succ_le_succ hfuel)
    rw [stripFrom, hnone]
    simp only [hrest]
    rfl

theorem lower_plain {text : Text} (h : ∀ c ∈ text, plain c = true ∨ c = ' ') :
    toLowerCase cases text = text := by
  induction text with
  | nil => rfl
  | cons c rest ih =>
    have hc : cases.lower c = [c] := by
      rcases h c (by simp) with hc | rfl
      · exact plain_lower cases hc
      · exact cases.lower_space ' ' rfl
    rw [toLowerCase_cons, hc, ih fun d hd => h d (by simp [hd])]
    rfl

theorem takeWhile_blank {p : Char → Bool} {w : Text} (hw : ∀ c ∈ w, p c = true)
    (hblank : p ' ' = false) (rest : Text) :
    (w ++ ' ' :: rest).takeWhile p = w ∧ (w ++ ' ' :: rest).dropWhile p = ' ' :: rest := by
  constructor
  · rw [List.takeWhile_append_of_pos hw, List.takeWhile_cons_of_neg (by simp [hblank]),
      List.append_nil]
  · rw [List.dropWhile_append_of_pos hw, List.dropWhile_cons_of_neg (by simp [hblank])]

theorem PlainToken.tokens_blank {w : Text} (hw : PlainToken w) (rest : Text) :
    tokens (w ++ ' ' :: rest) = w :: tokens rest := by
  have hspace : tokens (' ' :: rest) = tokens rest := by
    rw [tokens_cons, if_pos (by decide)]
  have hnospace : ∀ c ∈ w, isSpace c = false := by
    intro c hc
    cases hs : isSpace c with
    | false => rfl
    | true => exact absurd (plain_name (hw.chars c hc)) (by rw [isSpace_not_name hs]; decide)
  rcases hw.whole with ⟨c, t, rfl, hstart⟩ | ⟨hne, hdigits⟩
  · have hname : ∀ d ∈ t, isNameChar d = true := fun d hd => plain_name (hw.chars d (by simp [hd]))
    obtain ⟨htake, hdrop⟩ := takeWhile_blank hname (by decide) rest
    rw [List.cons_append, tokens_cons, hnospace c (by simp), if_neg Bool.false_ne_true,
      if_pos hstart, htake, hdrop, hspace]
  · obtain ⟨c, t, rfl⟩ := List.exists_cons_of_ne_nil hne
    have hall := List.all_eq_true.mp hdigits
    have hc := hall c (by simp)
    have hstart : isWordStart c = false := by
      simp only [isDigit, Bool.and_eq_true, decide_eq_true_eq] at hc
      have h₁ : 48 ≤ c.toNat := hc.1
      have h₂ : c.toNat ≤ 57 := hc.2
      simp only [isWordStart, Bool.or_eq_false_iff, Bool.and_eq_false_iff, decide_eq_false_iff_not,
        beq_eq_false_iff_ne]
      refine ⟨⟨.inl fun ha => ?_, ?_⟩, ?_⟩
      · have h₃ : 97 ≤ c.toNat := ha
        omega
      · rintro rfl
        exact absurd h₁ (by decide)
      · rintro rfl
        exact absurd h₂ (by decide)
    obtain ⟨htake, hdrop⟩ := takeWhile_blank (w := t) (fun d hd => hall d (by simp [hd])) (by decide) rest
    rw [List.cons_append, tokens_cons, hnospace c (by simp), if_neg Bool.false_ne_true, hstart,
      if_neg Bool.false_ne_true, if_pos hc, htake, hdrop, hspace]

theorem tokens_spell {words : List Text} (hwords : ∀ w ∈ words, PlainToken w) :
    tokens (spell words) = words := by
  induction words with
  | nil => rfl
  | cons w words ih =>
    have hrest := ih fun v hv => hwords v (by simp [hv])
    have hcons : spell (w :: words) = w ++ ' ' :: spell words := by simp [spell]
    rw [hcons, (hwords w (by simp)).tokens_blank, hrest]

theorem dropTerminators_plain {text : Text} (h : ∀ c ∈ text, plain c = true ∨ c = ' ') :
    dropTerminators text = text := by
  unfold dropTerminators
  split
  · rename_i rest heq
    have hmem : ';' ∈ text := by
      have hdrop : ';' ∈ text.reverse.dropWhile isSpace := by simp [heq]
      exact List.mem_reverse.mp ((List.dropWhile_sublist _).subset hdrop)
    rcases h ';' hmem with hc | hc
    · exact absurd hc (by decide)
    · exact absurd hc (by decide)
  · rfl

theorem Digits.plainToken (d : Digits) : PlainToken d.text where
  chars c hc := by
    have hdigit := List.all_eq_true.mp d.all_digits c hc
    simp [plain, hdigit]
  whole := .inr ⟨d.ne_nil, d.all_digits⟩

theorem plainToken_word {w : Text} (h : w.all plain = true ∧ w.head?.any isWordStart = true) :
    PlainToken w where
  chars := List.all_eq_true.mp h.1
  whole := by
    cases w with
    | nil => simp at h
    | cons c t => exact .inl ⟨c, t, rfl, h.2⟩

theorem versionWord_plain (classic : Bool) : PlainToken (versionWord classic) := by
  cases classic <;> exact plainToken_word (by decide)

theorem Clause.words_plain (c : Clause) : ∀ w ∈ c.words, PlainToken w := by
  rcases c with readOnly | ⟨level, mode⟩ | _ | _ | d | _
  · cases readOnly <;> simp [Clause.words] <;>
      exact ⟨plainToken_word (by decide), plainToken_word (by decide)⟩
  · intro w hw
    rcases List.mem_append.mp hw with hw | hw
    · cases level with
      | true =>
        simp only [if_true, List.mem_cons, List.not_mem_nil, or_false] at hw
        rcases hw with rfl | rfl <;> exact plainToken_word (by decide)
      | false => simp at hw
    · rcases mode with _ | stability | ⟨committed, version⟩
      · rw [List.mem_singleton.mp hw]
        exact plainToken_word (by decide)
      · cases stability <;> simp [IsolationMode.words] at hw <;>
          rcases hw with rfl | rfl | rfl <;> exact plainToken_word (by decide)
      · have hread : w = "read".toList ∨ w = "committed".toList ∨ w = "uncommitted".toList ∨
            w ∈ version.words := by
          cases committed <;> simp [IsolationMode.words] at hw ⊢ <;> tauto
        rcases hread with rfl | rfl | rfl | hw
        · exact plainToken_word (by decide)
        · exact plainToken_word (by decide)
        · exact plainToken_word (by decide)
        · cases version with
          | unstated => cases hw
          | version classic =>
            rw [List.mem_singleton.mp hw]
            exact versionWord_plain classic
          | noVersion classic =>
            rcases List.mem_cons.mp hw with rfl | hw
            · exact plainToken_word (by decide)
            · rw [List.mem_singleton.mp hw]
              exact versionWord_plain classic
  · intro w hw
    rw [List.mem_singleton.mp hw]
    exact plainToken_word (by decide)
  · intro w hw
    simp only [Clause.words, List.mem_cons, List.not_mem_nil, or_false] at hw
    rcases hw with rfl | rfl <;> exact plainToken_word (by decide)
  · intro w hw
    simp only [Clause.words, List.mem_cons, List.not_mem_nil, or_false] at hw
    rcases hw with rfl | rfl | rfl
    · exact plainToken_word (by decide)
    · exact plainToken_word (by decide)
    · exact d.plainToken
  · intro w hw
    simp only [Clause.words, List.mem_cons, List.not_mem_nil, or_false] at hw
    rcases hw with rfl | rfl <;> exact plainToken_word (by decide)

/-- `SET TRANSACTION` and the clauses, word by word. -/
def clausesText (clauses : List Clause) : Text :=
  spell ("set".toList :: "transaction".toList :: clauses.flatMap Clause.words)

theorem spells_clausesText (clauses : List Clause) :
    Spells cases (clausesText clauses) clauses := by
  have hwords : ∀ w ∈ "set".toList :: "transaction".toList :: clauses.flatMap Clause.words,
      PlainToken w := by
    intro w hw
    rcases List.mem_cons.mp hw with rfl | hw
    · exact plainToken_word (by decide)
    rcases List.mem_cons.mp hw with rfl | hw
    · exact plainToken_word (by decide)
    obtain ⟨c, _, hwc⟩ := List.mem_flatMap.mp hw
    exact c.words_plain w hwc
  have hchars := spell_chars hwords
  refine ⟨clausesText clauses, stripFrom_plain hchars le_rfl, ?_⟩
  rw [clausesText, dropTerminators_plain hchars, lower_plain cases hchars, tokens_spell hwords]

/-! ### The order of the clauses -/

/-- Whatever the order, the clauses are accepted with the same options, and each is found in the
buffer of these. -/
def ClausesCommute (clauses : List Clause) : Prop :=
  ∃ options, Reflected clauses (buildTpb options) ∧
    ∀ clauses', clauses'.Perm clauses → ∀ sql, Spells cases sql clauses' →
      classifyClientCommand cases sql = some (.setTransaction options sql)

section Order

variable {cases} {clauses : List Clause}

theorem oneWait_of (hkinds : (clauses.map Clause.kind).Nodup)
    (hwait : ¬ (Clause.wait ∈ clauses ∧ ∃ d, Clause.lockTimeout d ∈ clauses))
    (hnowait : ¬ (Clause.noWait ∈ clauses ∧ ∃ d, Clause.lockTimeout d ∈ clauses)) :
    OneWait clauses := by
  have hforever : ∀ d, Clause.wait ∈ clauses → Clause.lockTimeout d ∈ clauses → False :=
    fun d hmem hd => hwait ⟨hmem, d, hd⟩
  have hnever : ∀ d, Clause.noWait ∈ clauses → Clause.lockTimeout d ∈ clauses → False :=
    fun d hmem hd => hnowait ⟨hmem, d, hd⟩
  intro c hc d hd hcw hdw
  apply List.inj_on_of_nodup_map hkinds hc hd
  cases c <;> cases d <;>
    first
    | rfl
    | exact absurd hcw Bool.false_ne_true
    | exact absurd hdw Bool.false_ne_true
    | exact (hforever _ hc hd).elim
    | exact (hforever _ hd hc).elim
    | exact (hnever _ hc hd).elim
    | exact (hnever _ hd hc).elim

/-- With one clause for the lock wait, and its timeout an int32, no clause is lost. -/
theorem reflected_clauseOptions (hkinds : (clauses.map Clause.kind).Nodup)
    (hone : OneWait clauses)
    (hsmall : ∀ d, Clause.lockTimeout d ∈ clauses → d.value < 2 ^ 31) :
    Reflected clauses (buildTpb (clauseOptions clauses)) := by
  refine ⟨_, readTpb_buildTpb _, ?_, ?_⟩
  · intro c hc
    obtain ⟨o, ho⟩ := clauseOptions_last hc hkinds hone
    rw [ho]
    exact Clause.items_apply fun d hd => hsmall d (hd ▸ hc)
  · intro hmem n hn
    obtain ⟨o, ho⟩ := clauseOptions_last hmem hkinds hone
    obtain ⟨m, hm, -⟩ := timeout_item hn
    rw [ho] at hm
    cases hm

/-- A timeout behind the other clauses is the one the options have. -/
theorem timeout_behind (others : List Clause) (d : Digits) :
    (clauseOptions (others ++ [.lockTimeout d])).wait = some (.seconds d.value) := by
  rw [clauseOptions, List.foldl_append]
  rfl

theorem wait_behind (others : List Clause) :
    (clauseOptions (others ++ [.wait])).wait = some .forever := by
  rw [clauseOptions, List.foldl_append]
  rfl

/-- WAIT and LOCK TIMEOUT both set the lock wait, so that the last of them is what counts. -/
theorem wait_or_timeout (hcommute : ClausesCommute cases clauses) (hwait : Clause.wait ∈ clauses)
    {d : Digits} (hd : Clause.lockTimeout d ∈ clauses) : False := by
  obtain ⟨options, -, hsame⟩ := hcommute
  have hlast : ∀ c ∈ clauses, clauseOptions (clauses.erase c ++ [c]) = options := by
    intro c hc
    have hperm : (clauses.erase c ++ [c]).Perm clauses :=
      (List.perm_append_singleton c _).trans (List.perm_cons_erase hc).symm
    have hspelled := spells_clausesText cases (clauses.erase c ++ [c])
    have hoptions := (hspelled.classified cases).symm.trans (hsame _ hperm _ hspelled)
    injection hoptions with hoptions
    injection hoptions
  have htimeout := timeout_behind (clauses.erase (.lockTimeout d)) d
  have hforever := wait_behind (clauses.erase .wait)
  rw [hlast _ hd] at htimeout
  rw [hlast _ hwait, htimeout] at hforever
  cases hforever

theorem timeout_small (hkinds : (clauses.map Clause.kind).Nodup) (hone : OneWait clauses)
    (hcommute : ClausesCommute cases clauses) {d : Digits}
    (hd : Clause.lockTimeout d ∈ clauses) : d.value < 2 ^ 31 := by
  obtain ⟨options, ⟨items, hread, hitems, -⟩, hsame⟩ := hcommute
  have hspelled := spells_clausesText cases clauses
  have hoptions := (hspelled.classified cases).symm.trans (hsame _ (.refl _) _ hspelled)
  injection hoptions with hoptions
  injection hoptions with hoptions
  have hitem := hitems _ hd ⟨Tpb.lock_timeout, some d.value⟩ (by simp [Clause.items])
  rw [readTpb_buildTpb] at hread
  injection hread with hread
  obtain ⟨o, ho⟩ := clauseOptions_last hd hkinds hone
  rw [← hread, ← hoptions] at hitem
  obtain ⟨m, hm, hvalue⟩ := timeout_item hitem
  rw [ho] at hm
  injection hm with hm
  have hbound := int32_bound m
  rw [← hvalue] at hbound
  exact_mod_cast hbound

/-- The clauses of `SET TRANSACTION`, each kind at most once and no timeout with NO WAIT, commute
and none is dropped exactly when WAIT does not meet a LOCK TIMEOUT and the timeout is an int32. -/
theorem setTransaction_clauses_commute_iff (hkinds : (clauses.map Clause.kind).Nodup)
    (hnowait : ¬ (Clause.noWait ∈ clauses ∧ ∃ d, Clause.lockTimeout d ∈ clauses)) :
    ClausesCommute cases clauses ↔
      ¬ (Clause.wait ∈ clauses ∧ ∃ d, Clause.lockTimeout d ∈ clauses) ∧
        ∀ d, Clause.lockTimeout d ∈ clauses → d.value < 2 ^ 31 := by
  constructor
  · intro hcommute
    have hwait : ¬ (Clause.wait ∈ clauses ∧ ∃ d, Clause.lockTimeout d ∈ clauses) :=
      fun ⟨hmem, _, hd⟩ => wait_or_timeout hcommute hmem hd
    exact ⟨hwait, fun d hd =>
      timeout_small hkinds (oneWait_of hkinds hwait hnowait) hcommute hd⟩
  · rintro ⟨hwait, hsmall⟩
    have hone := oneWait_of hkinds hwait hnowait
    refine ⟨clauseOptions clauses, reflected_clauseOptions hkinds hone hsmall, ?_⟩
    intro clauses' hperm sql hspelled
    rw [hspelled.classified, clauseOptions_perm hperm.symm hkinds hone]

end Order

/-- The number 5. -/
def fiveSeconds : Digits := ⟨['5'], by decide, by decide⟩

theorem setTransaction_clauses_commute_four : ClausesCommute basicCase
    [.access true, .isolation true (.read true (.version false)), .lockTimeout fiveSeconds,
      .autoCommit] := by
  apply (setTransaction_clauses_commute_iff (by decide) (by simp)).mpr
  refine ⟨by simp, fun d hd => ?_⟩
  simp only [List.mem_cons, reduceCtorEq, Clause.lockTimeout.injEq, false_or,
    List.not_mem_nil, or_false] at hd
  rw [hd]
  decide

/-- `LOCK TIMEOUT 5 WAIT` waits forever, `WAIT LOCK TIMEOUT 5` does not. -/
theorem wait_drops_timeout :
    (∃ raw, classifyClientCommand basicCase "SET TRANSACTION WAIT LOCK TIMEOUT 5".toList =
      some (.setTransaction { wait := some (.seconds 5) } raw)) ∧
    (∃ raw, classifyClientCommand basicCase "SET TRANSACTION LOCK TIMEOUT 5 WAIT".toList =
      some (.setTransaction { wait := some .forever } raw)) ∧
    ¬ ClausesCommute basicCase [.lockTimeout fiveSeconds, .wait] := by
  refine ⟨⟨_, by rfl⟩, ⟨_, by rfl⟩, fun hcommute => ?_⟩
  exact wait_or_timeout (d := fiveSeconds) hcommute (by simp) (by simp)

end FastFirebird
