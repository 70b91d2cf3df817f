import FastFirebird.ScriptParser
import FastFirebird.Octets

/-! `protocol/transaction.ts`: the options of a transaction, and the parameter buffer they are
sent in. -/
namespace FastFirebird

namespace Tpb

def version3 : UInt8 := 3
def consistency : UInt8 := 1
def concurrency : UInt8 := 2
def wait : UInt8 := 6
def nowait : UInt8 := 7
def read : UInt8 := 8
def write : UInt8 := 9
def read_committed : UInt8 := 15
def autocommit : UInt8 := 16
def rec_version : UInt8 := 17
def no_rec_version : UInt8 := 18
def lock_timeout : UInt8 := 21

end Tpb

def DEFAULT_LOCK_TIMEOUT_SECONDS : Nat := 10

/-- `ParamBuffer.int32`: tag, length, and four octets with the low one first. -/
def paramInt32 (tag : UInt8) (value : Nat) : List UInt8 := tag :: 4 :: (bigEndian 4 value).reverse

/-- The fields a caller sets win, everything else falls back to the defaults. -/
def mergeTransactionOptions (defaults : TransactionOptions)
    (overrides : Option TransactionOptions) : TransactionOptions :=
  match overrides with
  | none => defaults
  | some o =>
    { isolation := o.isolation <|> defaults.isolation
      readOnly := o.readOnly <|> defaults.readOnly
      wait := o.wait <|> defaults.wait
      autoCommit := o.autoCommit <|> defaults.autoCommit
      autoUpgradeReadOnly := o.autoUpgradeReadOnly <|> defaults.autoUpgradeReadOnly }

/-! ### The parts of the buffer, in the order `buildTpb` writes them -/

def tpbIsolation (opts : TransactionOptions) : List UInt8 :=
  match opts.isolation.getD .snapshot with
  | .snapshot => [Tpb.concurrency]
  | .serializable => [Tpb.consistency]
  | .readCommitted => [Tpb.read_committed, Tpb.rec_version]
  | .readCommittedNoRecVersion => [Tpb.read_committed, Tpb.no_rec_version]

def tpbAccess (opts : TransactionOptions) : List UInt8 :=
  if opts.readOnly.getD false then [Tpb.read] else [Tpb.write]

def tpbWait (opts : TransactionOptions) : List UInt8 :=
  match opts.wait.getD (.seconds DEFAULT_LOCK_TIMEOUT_SECONDS) with
  | .never => [Tpb.nowait]
  | .forever => [Tpb.wait]
  | .seconds n => Tpb.wait :: paramInt32 Tpb.lock_timeout n

def tpbAutoCommit (opts : TransactionOptions) : List UInt8 :=
  if opts.autoCommit.getD false then [Tpb.autocommit] else []

def buildTpb (opts : TransactionOptions) : List UInt8 :=
  Tpb.version3 :: (tpbIsolation opts ++ tpbAccess opts ++ tpbWait opts ++ tpbAutoCommit opts)

/-! ### The buffer as its receiver reads it -/

/-- A tag, and the number behind it where it takes one. -/
structure TpbItem where
  tag : UInt8
  value : Option Int := none
  deriving Repr, DecidableEq

/-- Items one after the other: of the tags above only `lock_timeout` takes an argument. -/
def readTpbItems : List UInt8 → Option (List TpbItem)
  | [] => some []
  | tag :: rest =>
    if tag = Tpb.lock_timeout then
      match rest with
      | length :: b₀ :: b₁ :: b₂ :: b₃ :: rest =>
        if length = 4 then
          (readTpbItems rest).map
            (⟨tag, some ((ofBigEndian [b₃, b₂, b₁, b₀] : Int).bmod (2 ^ 32))⟩ :: ·)
        else none
      | _ => none
    else (readTpbItems rest).map (⟨tag, none⟩ :: ·)

def readTpb : List UInt8 → Option (List TpbItem)
  | [] => none
  | version :: items => if version = Tpb.version3 then readTpbItems items else none

def isolationItems (opts : TransactionOptions) : List TpbItem :=
  (tpbIsolation opts).map (⟨·, none⟩)

def accessItems (opts : TransactionOptions) : List TpbItem := (tpbAccess opts).map (⟨·, none⟩)

/-- The lock wait; the timeout is an int32. -/
def waitItems (opts : TransactionOptions) : List TpbItem :=
  match opts.wait.getD (.seconds DEFAULT_LOCK_TIMEOUT_SECONDS) with
  | .never => [⟨Tpb.nowait, none⟩]
  | .forever => [⟨Tpb.wait, none⟩]
  | .seconds n => [⟨Tpb.wait, none⟩, ⟨Tpb.lock_timeout, some ((n : Int).bmod (2 ^ 32))⟩]

def autoCommitItems (opts : TransactionOptions) : List TpbItem :=
  (tpbAutoCommit opts).map (⟨·, none⟩)

theorem readTpbItems_bare {tags : List UInt8} (h : Tpb.lock_timeout ∉ tags) (rest : List UInt8) :
    readTpbItems (tags ++ rest) = (readTpbItems rest).map (tags.map (⟨·, none⟩) ++ ·) := by
  induction tags with
  | nil => simp
  | cons tag tags ih =>
    have htag : tag ≠ Tpb.lock_timeout := fun heq => h (by simp [heq])
    have htags : Tpb.lock_timeout ∉ tags := fun hmem => h (by simp [hmem])
    have hfirst : readTpbItems (tag :: (tags ++ rest)) =
        (readTpbItems (tags ++ rest)).map (⟨tag, none⟩ :: ·) := by
      rw [readTpbItems.eq_def]
      simp only [if_neg htag]
    rw [List.cons_append, hfirst, ih htags, Option.map_map]
    rfl

theorem readTpbItems_int32 (n : Nat) (rest : List UInt8) :
    readTpbItems (paramInt32 Tpb.lock_timeout n ++ rest) =
      (readTpbItems rest).map (⟨Tpb.lock_timeout, some ((n : Int).bmod (2 ^ 32))⟩ :: ·) := by
  have hvalue : (ofBigEndian (bigEndian 4 n) : Int).bmod (2 ^ 32) = (n : Int).bmod (2 ^ 32) := by
    rw [ofBigEndian_bigEndian, Int.natCast_mod]
    exact Int.emod_bmod _ (2 ^ 32)
  rw [← hvalue]
  rfl

/-- A reader finds the isolation, the access mode, the lock wait and the commit mode. -/
theorem readTpb_buildTpb (opts : TransactionOptions) : readTpb (buildTpb opts) =
    some (isolationItems opts ++ accessItems opts ++ waitItems opts ++ autoCommitItems opts) := by
  have hisolation : Tpb.lock_timeout ∉ tpbIsolation opts := by
    unfold tpbIsolation
    split <;> decide
  have haccess : Tpb.lock_timeout ∉ tpbAccess opts := by
    unfold tpbAccess
    split <;> decide
  have hauto : Tpb.lock_timeout ∉ tpbAutoCommit opts := by
    unfold tpbAutoCommit
    split <;> decide
  have hend : readTpbItems (tpbAutoCommit opts) = some (autoCommitItems opts) := by
    have hread := readTpbItems_bare hauto []
    simpa [readTpbItems, autoCommitItems] using hread
  have hwait : readTpbItems (tpbWait opts ++ tpbAutoCommit opts) =
      some (waitItems opts ++ autoCommitItems opts) := by
    unfold tpbWait waitItems
    split
    · rw [readTpbItems_bare (by decide), hend]
      rfl
    · rw [readTpbItems_bare (by decide), hend]
      rfl
    · rw [← List.singleton_append, List.append_assoc, readTpbItems_bare (by decide),
        readTpbItems_int32, hend]
      rfl
  rw [buildTpb, readTpb, if_pos rfl, List.append_assoc, List.append_assoc,
    readTpbItems_bare hisolation, readTpbItems_bare haccess, hwait]
  simp [isolationItems, accessItems]

example : readTpb (buildTpb { isolation := some .readCommitted, wait := some .never }) =
    some [⟨Tpb.read_committed, none⟩, ⟨Tpb.rec_version, none⟩, ⟨Tpb.write, none⟩,
      ⟨Tpb.nowait, none⟩] := by decide

end FastFirebird
