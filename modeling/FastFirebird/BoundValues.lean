import FastFirebird.BatchFields

/-! What the server makes of a bound value: the message of an execute and that of a batch, read and
coerced to the type of the column. -/
namespace FastFirebird.Msgcodec

/-! The server -/

/-- The time zone of a session. The ids up to 2878 are those of the offsets. -/
structure SessionZone where
  tzId : Nat
  zone : Zone
  offset_zone : tzId ≤ 2878 → ∀ w, zone.toUtc w = w - (tzId - 1439) * 60000

/-- A value of a column; numbers with the fraction digits of the column. -/
inductive SqlValue where
  | null
  | numeric (n : Int)
  | boolean (b : Bool)
  | date (days : Int)
  | time (fractions : Nat)
  | timestamp (days : Int) (fractions : Nat)
  | timestamp_tz (days : Int) (fractions : Nat) (tzId : Number)
  | time_tz (fractions : Nat) (tzId : Number)
  | blob (id : Bytes)
  | decimal (bytes : Bytes)
  deriving Repr, DecidableEq

/-- What a field of a message carries. -/
inductive Carried where
  | integer (n : Int) (fracDigits : Nat)
  | double (v : Double)
  | text (bytes : Bytes)
  | boolean (b : Bool)
  | timestamp (days : Int) (fractions : Nat)
  | timestamp_tz (days : Int) (fractions : Nat) (tzId : Number)
  | time_tz (fractions : Nat) (tzId : Number)
  | blob (id : Bytes)
  | decimal (bytes : Bytes)
  deriving Repr, DecidableEq

/-- A number that the column has room for. -/
def fits (min max n : Int) : Option SqlValue :=
  if min ≤ n ∧ n ≤ max then some (.numeric n) else none

/-- To a number with the fraction digits of the column. -/
def coerceNumeric (min max : Int) (fracDigits : Nat) : Carried → Option SqlValue
  | .integer n digits =>
    if digits ≤ fracDigits then fits min max (n * 10 ^ (fracDigits - digits)) else none
  | .double v => v.integer.bind fun n => fits min max (n * 10 ^ fracDigits)
  | _ => none

theorem coerceNumeric_integer {min max n : Int} {fracDigits digits : Nat}
    (h : digits ≤ fracDigits) : coerceNumeric min max fracDigits (.integer n digits) =
      fits min max (n * 10 ^ (fracDigits - digits)) := if_pos h

/-- A naive timestamp by the session zone, and its instant in universal time. -/
def atSession (session : SessionZone) (days : Int) (fractions : Nat) : Int × Nat × Number :=
  let utc := session.zone.toUtc (midnight days + (fractions / 10 : Nat))
  (utc / 86400000 + 40587, (utc % 86400000).toNat * 10 + fractions % 10, .int session.tzId)

def coerce (session : SessionZone) (column : SqlColumn) (c : Carried) : Option SqlValue :=
  match column with
  | .short fracDigits => coerceNumeric (-2 ^ 15) (2 ^ 15 - 1) fracDigits c
  | .long fracDigits => coerceNumeric INT32_MIN INT32_MAX fracDigits c
  | .int64 fracDigits => coerceNumeric INT64_MIN INT64_MAX fracDigits c
  | .int128 fracDigits => coerceNumeric INT128_MIN INT128_MAX fracDigits c
  | .type_date =>
    match c with
    | .timestamp days _ => some (.date days)
    | _ => none
  | .type_time =>
    match c with
    | .timestamp _ fractions => some (.time fractions)
    | _ => none
  | .timestamp =>
    match c with
    | .timestamp days fractions => some (.timestamp days fractions)
    | _ => none
  | .timestamp_tz =>
    match c with
    | .timestamp days fractions =>
      let (days, fractions, tzId) := atSession session days fractions
      some (.timestamp_tz days fractions tzId)
    | .timestamp_tz days fractions tzId => some (.timestamp_tz days fractions tzId)
    | _ => none
  | .time_tz =>
    match c with
    | .timestamp days fractions =>
      let (_, fractions, tzId) := atSession session days fractions
      some (.time_tz fractions tzId)
    | .timestamp_tz _ fractions tzId => some (.time_tz fractions tzId)
    | .time_tz fractions tzId => some (.time_tz fractions tzId)
    | _ => none
  | .blob =>
    match c with
    | .blob id => some (.blob id)
    | _ => none
  | .dec16 | .dec34 =>
    match c with
    | .decimal bytes => some (.decimal bytes)
    | _ => none
  | .boolean =>
    -- text has a conversion, a number has none
    match c with
    | .boolean b => some (.boolean b)
    | .text bytes =>
      if bytes = [116, 114, 117, 101] then some (.boolean true)
      else if bytes = [102, 97, 108, 115, 101] then some (.boolean false)
      else none
    | _ => none

/-! The message of an execute -/

def executeCarried : WireValue → Carried
  | .text bytes => .text bytes
  | .long n => .integer n 0
  | .int64 n => .integer n 0
  | .int128 n => .integer n 0
  | .double v => .double v
  | .timestamp days fractions => .timestamp days fractions
  | .timestamp_tz days fractions tzId => .timestamp_tz days fractions tzId
  | .quad id => .blob id
  | .decimal bytes => .decimal bytes

/-- What the server gets for the one parameter of a statement, none if the message is not read;
a value that it refuses is none too. -/
def executed (session : SessionZone) (column : SqlColumn) (e : EncodedParams) :
    Option (Option SqlValue) := do
  let (_, fields) ← parseBlr e.blr
  let (row, _) ← readRow fields e.message
  let cell ← row.head?
  return cell.elim (some .null) fun v => coerce session column (executeCarried v)

/-! The message of a batch -/

/-- The types of the message format. -/
inductive BatchType where
  | long (fracDigits : Nat)
  | int64 (fracDigits : Nat)
  | int128 (fracDigits : Nat)
  | timestamp
  | timestamp_tz
  | sql_time_tz
  | blob2
  | dec64
  | dec128
  | bool
  deriving Repr, DecidableEq

/-- The type that `buildBatchFormat` gives a column. -/
def batchType : SqlColumn → BatchType
  | .short fracDigits | .long fracDigits => .long fracDigits
  | .int64 fracDigits => .int64 fracDigits
  | .int128 fracDigits => .int128 fracDigits
  | .type_date | .type_time | .timestamp => .timestamp
  | .timestamp_tz => .timestamp_tz
  | .time_tz => .sql_time_tz
  | .blob => .blob2
  | .dec16 => .dec64
  | .dec34 => .dec128
  | .boolean => .bool

def readBatchField (type : BatchType) (bytes : Bytes) : Option (Carried × Bytes) :=
  match type with
  | .long fracDigits => (readInt32 bytes).map fun (n, rest) => (.integer n fracDigits, rest)
  | .int64 fracDigits => (readInt64 bytes).map fun (n, rest) => (.integer n fracDigits, rest)
  | .int128 fracDigits => (readInt128 bytes).map fun (n, rest) => (.integer n fracDigits, rest)
  | .timestamp => do
    let (days, bytes) ← readInt32 bytes
    let (frac, bytes) ← readUint32 bytes
    return (.timestamp days frac, bytes)
  | .timestamp_tz => do
    let (days, bytes) ← readInt32 bytes
    let (frac, bytes) ← readUint32 bytes
    let (tzId, bytes) ← readUint32 bytes
    return (.timestamp_tz days frac (.int ((tzId &&& 0xffff : Nat) : Int)), bytes)
  | .sql_time_tz => do
    let (frac, bytes) ← readUint32 bytes
    let (tzId, bytes) ← readUint32 bytes
    return (.time_tz frac (.int ((tzId &&& 0xffff : Nat) : Int)), bytes)
  | .blob2 => (readBytes 8 bytes).map fun (id, rest) => (.blob id, rest)
  | .dec64 => (readBytes 8 bytes).map fun (data, rest) => (.decimal data, rest)
  | .dec128 => (readBytes 16 bytes).map fun (data, rest) => (.decimal data, rest)
  | .bool => (readPadded 1 bytes).map fun (data, rest) => (.boolean (data != [0]), rest)

def readBatchCells (bitmap : Bytes) : Nat → List BatchType → Bytes →
    Option (List (Option Carried) × Bytes)
  | _, [], bytes => some ([], bytes)
  | i, type :: types, bytes =>
    if isNullBit bitmap i then
      (readBatchCells bitmap (i + 1) types bytes).map fun (row, rest) => (none :: row, rest)
    else do
      let (v, bytes) ← readBatchField type bytes
      let (row, rest) ← readBatchCells bitmap (i + 1) types bytes
      return (some v :: row, rest)

def readBatchRow (types : List BatchType) (bytes : Bytes) :
    Option (List (Option Carried) × Bytes) := do
  let (bitmap, bytes) ← readPadded ((types.length + 7) >>> 3) bytes
  readBatchCells bitmap 0 types bytes

/-- What the server gets for the one column of a row. -/
def batched (session : SessionZone) (column : SqlColumn) (row : Bytes) :
    Option (Option SqlValue) := do
  let (cells, _) ← readBatchRow [batchType column] row
  let cell ← cells.head?
  return cell.elim (some .null) (coerce session column)

/-! Doubles that are whole -/

theorem roundSignificand_shift {m : Nat} (hm : m < 2 ^ 53) (k : Nat) :
    roundSignificand (m * 2 ^ k) = m * 2 ^ k := by
  by_cases hzero : m * 2 ^ k = 0
  · rw [hzero]
    exact roundSignificand_of_lt (by decide)
  · have hlt : m * 2 ^ k < 2 ^ (53 + k) := by
      rw [Nat.pow_add]
      exact Nat.mul_lt_mul_of_pos_right hm (Nat.two_pow_pos k)
    have hlog : (m * 2 ^ k).log2 < 53 + k := (Nat.log2_lt hzero).mpr hlt
    obtain ⟨shift, hshift⟩ : ∃ shift, shift = (m * 2 ^ k).log2 + 1 - 53 := ⟨_, rfl⟩
    have hdvd : 2 ^ shift ∣ m * 2 ^ k :=
      (Nat.pow_dvd_pow 2 (by omega)).trans (Nat.dvd_mul_left _ _)
    have hrest : m * 2 ^ k % 2 ^ shift = 0 := Nat.mod_eq_zero_of_dvd hdvd
    have hpos : 0 < 2 ^ shift := Nat.two_pow_pos shift
    unfold roundSignificand
    dsimp only
    rw [← hshift, hrest, if_neg (by omega), Nat.div_mul_cancel hdvd]

theorem Double.digitCount_integer {v : Double} {n : Int} (h : v.integer = some n) :
    digitCount n.natAbs ≤ 2101 := by
  unfold Double.integer at h
  dsimp only at h
  have hexp : v.bits.toNat >>> 52 % 2048 < 2048 := Nat.mod_lt _ (by decide)
  generalize v.bits.toNat >>> 52 % 2048 = exponent at h hexp
  have hfraction : v.bits.toNat % 2 ^ 52 < 2 ^ 52 := Nat.mod_lt _ (by decide)
  generalize v.bits.toNat % 2 ^ 52 = fraction at h hfraction
  have hsmall : (if exponent = 0 then fraction else fraction + 2 ^ 52) < 2 ^ 53 := by
    split <;> omega
  have hscale : (if exponent = 0 then 1 else exponent) - 1075 < 2048 := by
    split <;> omega
  generalize (if exponent = 0 then fraction else fraction + 2 ^ 52) = significand at h hsmall
  generalize (if exponent = 0 then 1 else exponent) = scale at h hscale
  obtain ⟨i, hi, rfl⟩ := Option.map_eq_some_iff.mp h
  obtain ⟨m, hm, hcast⟩ := Option.bind_eq_some_iff.mp hi
  obtain rfl : (m : Int) = i := Option.some.inj hcast
  have habs : (if v.bits.toNat >>> 63 = 1 then -(m : Int) else m).natAbs = m := by
    split <;> omega
  -- the significand, shifted left by less than 2048
  have hm' : m < 2 ^ (53 + 2048) := by
    have hgrow (k : Nat) : 2 ^ 53 ≤ 2 ^ (53 + k) :=
      Nat.pow_le_pow_right (by decide) (Nat.le_add_right 53 k)
    have hshift (e k : Nat) (hk : e ≤ k) : significand * 2 ^ e < 2 ^ (53 + k) := by
      rw [Nat.pow_add]
      exact Nat.mul_lt_mul_of_lt_of_le hsmall (Nat.pow_le_pow_right (by decide) hk)
        (Nat.two_pow_pos _)
    split at hm
    · cases hm
    · split at hm
      · rw [← Option.some.inj hm, Nat.shiftLeft_eq]
        exact hshift _ 2048 hscale.le
      · split at hm
        · rw [← Option.some.inj hm, Nat.shiftRight_eq_div_pow]
          exact ((Nat.div_le_self _ _).trans_lt hsmall).trans_le (hgrow 2048)
        · cases hm
  have hdigits (k : Nat) (hk : m < 2 ^ (53 + k)) : digitCount m ≤ 53 + k :=
    (Nat.length_toDigits_le_iff (by decide) (by omega)).mpr
      (hk.trans_le (Nat.pow_le_pow_left (by decide) _))
  rw [habs]
  exact hdigits 2048 hm'

theorem Double.integer_rounds {v : Double} {n : Int} (h : v.integer = some n) :
    roundSignificand n.natAbs = n.natAbs := by
  unfold Double.integer at h
  dsimp only at h
  generalize hfraction : v.bits.toNat % 2 ^ 52 = fraction at h
  have hlt : fraction < 2 ^ 52 := by
    rw [← hfraction]
    exact Nat.mod_lt _ (by decide)
  generalize hsig : (if v.bits.toNat >>> 52 % 2048 = 0 then fraction else fraction + 2 ^ 52) =
    significand at h
  have hsmall : significand < 2 ^ 53 := by
    rw [← hsig]
    split <;> omega
  generalize (if v.bits.toNat >>> 52 % 2048 = 0 then 1 else v.bits.toNat >>> 52 % 2048) = scale
    at h
  obtain ⟨i, hi, rfl⟩ := Option.map_eq_some_iff.mp h
  obtain ⟨m, hm, hcast⟩ := Option.bind_eq_some_iff.mp hi
  obtain rfl : (m : Int) = i := Option.some.inj hcast
  have habs : (if v.bits.toNat >>> 63 = 1 then -(m : Int) else m).natAbs = m := by
    split <;> omega
  rw [habs]
  split at hm
  · cases hm
  · split at hm
    · rw [← Option.some.inj hm, Nat.shiftLeft_eq]
      exact roundSignificand_shift hsmall _
    · split at hm
      · rw [← Option.some.inj hm, Nat.shiftRight_eq_div_pow]
        exact roundSignificand_of_lt ((Nat.div_le_self _ _).trans_lt hsmall)
      · cases hm

/-! What is read -/

section Executed
variable {host : EncodeHost} {session : SessionZone} {column : SqlColumn}

theorem executed_row {e : EncodedParams} {k : Nat} {fields : List FieldType}
    {cell : Option WireValue} (hparse : parseBlr e.blr = some (k, fields))
    (hrow : readRow fields e.message = some ([cell], [])) :
    executed session column e =
      some (cell.elim (some .null) fun w => coerce session column (executeCarried w)) := by
  unfold executed
  rw [hparse]
  simp only [Option.bind_eq_bind, Option.bind_some]
  rw [hrow]
  rfl

theorem executed_value {v : ParamValue} {e : EncodedParams}
    (he : encodeParams host [v] = .ok e) (hsize : WellSized host v) :
    executed session column e = some ((wireValue host 0 v).elim (some .null) fun w =>
      coerce session column (executeCarried w)) := by
  obtain ⟨fields, hparse, -, hback, -⟩ := encodeParams_spec he
  apply executed_row hparse
  apply hback
  intro u hu
  obtain rfl := List.mem_singleton.mp hu
  exact hsize

theorem executed_zoned {date : JsDate} {zone : Text} {tzId : Number} {e : EncodedParams}
    (he : encodeParams host [.zonedDate date zone] = .ok e)
    (h : zoneToTzId host zone = .ok tzId) :
    executed session column e = some (coerce session column (.timestamp_tz
      (encodeTimestampUtc date).1.toInt32.toInt (encodeTimestampUtc date).2.toUint32
      (.int ((tzId.toUint32 % 65536 : Nat) : Int)))) := by
  obtain ⟨e', he', hparse, hrow⟩ := encodeParams_zoned h (Prod.mk.eta (p := encodeTimestampUtc date)).symm
  rw [he] at he'
  obtain rfl := Except.ok.inj he'
  exact executed_row hparse hrow

end Executed

section Batched
variable {host : BatchHost} {session : SessionZone} {column : SqlColumn} {v : ParamValue}

/-- The writer appends a field that is read as `c`. -/
def Carries (host : BatchHost) (column : SqlColumn) (v : ParamValue) (c : Carried) : Prop :=
  ∀ w w', batchWriter host 0 column v w = .ok w' →
    ∃ bytes, w'.buf = w.buf ++ bytes ∧
      ∀ rest, readBatchField (batchType column) (bytes ++ rest) = some (c, rest)

theorem encodeBatchRow_field {row : Bytes} (hv : isNullish v = false)
    (hrow : encodeBatchRow host [column] [v] = .ok row) :
    ∃ w', batchWriter host 0 column v ⟨[0, 0, 0, 0]⟩ = .ok w' ∧ w'.buf = row := by
  have hrun : encodeBatchRow host [column] [v] =
      (batchWriter host 0 column v ⟨[0, 0, 0, 0]⟩).map XdrWriter.buf := by
    unfold encodeBatchRow
    have hbitmap : XdrWriter.opaqueFixed {}
        (List.replicate (([column].length + 7) >>> 3) 0) = ⟨[0, 0, 0, 0]⟩ := by
      rw [List.length_singleton]
      decide
    simp only [nullBits, writeFields, hv, Bool.false_eq_true, if_false, hbitmap]
    cases batchWriter host 0 column v ⟨[0, 0, 0, 0]⟩ <;> rfl
  rw [hrun] at hrow
  cases hwrite : batchWriter host 0 column v ⟨[0, 0, 0, 0]⟩ with
  | error err =>
    rw [hwrite] at hrow
    cases hrow
  | ok w' =>
    rw [hwrite] at hrow
    exact ⟨w', rfl, Except.ok.inj hrow⟩

theorem batched_field {row : Bytes} {c : Carried} (hv : isNullish v = false)
    (hrow : encodeBatchRow host [column] [v] = .ok row) (h : Carries host column v c) :
    batched session column row = some (coerce session column c) := by
  obtain ⟨w', hwrite, rfl⟩ := encodeBatchRow_field hv hrow
  obtain ⟨bytes, hbytes, hread⟩ := h _ _ hwrite
  have hfield := hread []
  rw [List.append_nil] at hfield
  have hfront := @readPadded_append [0] [0, 0, 0] (by decide) bytes
  have hcells : readBatchRow [batchType column] w'.buf = some ([some c], []) := by
    rw [hbytes]
    unfold readBatchRow
    simp only [List.length_singleton, Nat.reduceAdd, Nat.reduceShiftRight] at hfront ⊢
    rw [show ([0, 0, 0, 0] : Bytes) = [0] ++ [0, 0, 0] from rfl, hfront]
    simp only [Option.bind_eq_bind, Option.bind_some]
    unfold readBatchCells
    rw [if_neg (by decide), hfield]
    rfl
  unfold batched
  rw [hcells]
  rfl

theorem batched_null {row : Bytes} (hv : isNullish v = true)
    (hrow : encodeBatchRow host [column] [v] = .ok row) :
    batched session column row = some (some .null) := by
  have hrun : encodeBatchRow host [column] [v] = .ok [1, 0, 0, 0] := by
    unfold encodeBatchRow
    have hbitmap : XdrWriter.opaqueFixed {}
        (setBit (List.replicate (([column].length + 7) >>> 3) 0) 0) = ⟨[1, 0, 0, 0]⟩ := by
      rw [List.length_singleton]
      decide
    simp only [nullBits, writeFields, hv, if_true, hbitmap]
    rfl
  rw [hrun] at hrow
  obtain rfl := Except.ok.inj hrow
  have hcells : readBatchRow [batchType column] [1, 0, 0, 0] = some ([none], []) := by
    unfold readBatchRow
    have hfront := @readPadded_append [1] [0, 0, 0] (by decide) []
    simp only [List.length_singleton, Nat.reduceAdd, Nat.reduceShiftRight] at hfront ⊢
    rw [show ([1, 0, 0, 0] : Bytes) = [1] ++ [0, 0, 0] ++ [] from rfl, hfront]
    rfl
  unfold batched
  rw [hcells]
  rfl

/-! What the writers of the columns append -/

/-- The bounds of a numeric column, those of its field in the message, and its fraction digits. -/
structure NumericColumn (column : SqlColumn) (min max : Int) (fracDigits : Nat) : Prop where
  coerced : ∀ session c, coerce session column c = coerceNumeric min max fracDigits c
  written : ∀ {host : BatchHost} {v : ParamValue} {w w' : XdrWriter},
    batchWriter host 0 column v w = .ok w' → ∃ n, toScaledBigInt host v fracDigits
      "Batch parameter 1" = .ok n ∧ Carries host column v (.integer n fracDigits) ∧
      ((min ≤ n ∧ n ≤ max) ∨ (INT32_MIN ≤ n ∧ n ≤ INT32_MAX))
  bounded : INT128_MIN ≤ min ∧ max ≤ INT128_MAX

theorem numeric_int32 {column : SqlColumn} {fracDigits : Nat} {min max : Int}
    (hcoerce : ∀ session c, coerce session column c = coerceNumeric min max fracDigits c)
    (htype : batchType column = .long fracDigits) (hbounded : INT128_MIN ≤ min ∧ max ≤ INT128_MAX)
    (hwriter : ∀ (host : BatchHost) (v : ParamValue) (w : XdrWriter),
      batchWriter host 0 column v w = (do
        let n ← toScaledBigInt host v fracDigits "Batch parameter 1"
        let n ← checkRange n INT32_MIN INT32_MAX "Batch parameter 1"
        return w.int32 (.int n))) : NumericColumn column min max fracDigits := by
  refine ⟨hcoerce, fun {host v w w'} hwrite => ?_, hbounded⟩
  rw [hwriter] at hwrite
  obtain ⟨n, hn, hscaled⟩ := bind_ok hwrite
  obtain ⟨m, hm, -⟩ := bind_ok hscaled
  obtain ⟨hmn, hlow, hhigh⟩ := checkRange_ok hm
  refine ⟨n, hn, ?_, Or.inr ⟨hlow, hhigh⟩⟩
  intro u u' hu
  rw [hwriter] at hu
  obtain ⟨n', hn', hscaled'⟩ := bind_ok hu
  obtain rfl : n = n' := Except.ok.inj (hn.symm.trans hn')
  obtain ⟨m', hm', hput⟩ := bind_ok hscaled'
  obtain ⟨rfl, -, -⟩ := checkRange_ok hm'
  cases hput
  refine ⟨bigEndian 4 (Number.int m').toUint32, rfl, fun rest => ?_⟩
  rw [htype]
  unfold readBatchField
  rw [int32_field hlow hhigh]
  rfl

theorem numeric_short (fracDigits : Nat) :
    NumericColumn (.short fracDigits) (-2 ^ 15) (2 ^ 15 - 1) fracDigits :=
  numeric_int32 (fun _ _ => rfl) rfl (by decide) fun _ _ _ => rfl

theorem numeric_long (fracDigits : Nat) :
    NumericColumn (.long fracDigits) INT32_MIN INT32_MAX fracDigits :=
  numeric_int32 (fun _ _ => rfl) rfl (by decide) fun _ _ _ => rfl

theorem numeric_int64 (fracDigits : Nat) :
    NumericColumn (.int64 fracDigits) INT64_MIN INT64_MAX fracDigits := by
  refine ⟨fun _ _ => rfl, fun {host v w w'} hwrite => ?_, by decide⟩
  obtain ⟨n, hn, hscaled⟩ := bind_ok hwrite
  obtain ⟨m, hm, -⟩ := bind_ok hscaled
  obtain ⟨hmn, hlow, hhigh⟩ := checkRange_ok hm
  refine ⟨n, hn, ?_, Or.inl ⟨hlow, hhigh⟩⟩
  intro u u' hu
  obtain ⟨n', hn', hscaled'⟩ := bind_ok hu
  obtain rfl : n = n' := Except.ok.inj (hn.symm.trans hn')
  obtain ⟨m', hm', hput⟩ := bind_ok hscaled'
  obtain ⟨rfl, -, -⟩ := checkRange_ok hm'
  unfold XdrWriter.bigInt64 at hput
  cases hoctets : int64Octets m' with
  | error e =>
    rw [hoctets] at hput
    cases hput
  | ok octets =>
    rw [hoctets] at hput
    cases hput
    obtain ⟨hlen, hvalue⟩ := int64Octets_read hoctets
    refine ⟨octets, rfl, fun rest => ?_⟩
    have hread : readInt64 (octets ++ rest) = some (m', rest) := by
      simp only [readInt64, readBytes_append hlen, Option.map_some, hvalue]
    show (readInt64 (octets ++ rest)).map (fun read =>
      (Carried.integer read.1 fracDigits, read.2)) = _
    rw [hread]
    rfl

theorem numeric_int128 (fracDigits : Nat) :
    NumericColumn (.int128 fracDigits) INT128_MIN INT128_MAX fracDigits := by
  refine ⟨fun _ _ => rfl, fun {host v w w'} hwrite => ?_, by decide⟩
  obtain ⟨n, hn, hscaled⟩ := bind_ok hwrite
  obtain ⟨m, hm, -⟩ := bind_ok hscaled
  obtain ⟨hmn, hlow, hhigh⟩ := checkRange_ok hm
  refine ⟨n, hn, ?_, Or.inl ⟨hlow, hhigh⟩⟩
  intro u u' hu
  obtain ⟨n', hn', hscaled'⟩ := bind_ok hu
  obtain rfl : n = n' := Except.ok.inj (hn.symm.trans hn')
  obtain ⟨m', hm', hput⟩ := bind_ok hscaled'
  obtain ⟨rfl, -, -⟩ := checkRange_ok hm'
  obtain ⟨high, hoctets, hraw⟩ := bind_ok hput
  cases hraw
  refine ⟨_, rfl, fun rest => ?_⟩
  have hread := reads_int128 hoctets rest
  unfold readField at hread
  unfold batchType readBatchField
  cases hvalue : readInt128 (high ++ bigEndian 8 (BitVec.ofInt 64 m').toNat ++ rest) with
  | none =>
    rw [hvalue] at hread
    cases hread
  | some read =>
    rw [hvalue] at hread
    cases hread
    rfl

theorem reads_naive (days fractions : Number) (rest : Bytes) :
    readBatchField .timestamp (bigEndian 4 days.toUint32 ++ bigEndian 4 fractions.toUint32 ++
      rest) = some (.timestamp days.toInt32.toInt fractions.toUint32, rest) := by
  simp only [readBatchField, List.append_assoc, readInt32_append, readUint32_append,
    Option.bind_eq_bind, Option.bind_some]
  rfl

theorem mask_zone (tzId : Number) : tzId.toUint32 &&& 0xffff = tzId.toUint32 % 65536 :=
  Nat.and_two_pow_sub_one_eq_mod _ 16

theorem reads_instant (days fractions tzId : Number) (rest : Bytes) :
    readBatchField .timestamp_tz (bigEndian 4 days.toUint32 ++ bigEndian 4 fractions.toUint32 ++
      bigEndian 4 tzId.toUint32 ++ rest) =
      some (.timestamp_tz days.toInt32.toInt fractions.toUint32
        (.int ((tzId.toUint32 % 65536 : Nat) : Int)), rest) := by
  simp only [readBatchField, List.append_assoc, readInt32_append, readUint32_append,
    Option.bind_eq_bind, Option.bind_some, mask_zone]
  rfl

theorem reads_time (fractions tzId : Number) (rest : Bytes) :
    readBatchField .sql_time_tz (bigEndian 4 fractions.toUint32 ++ bigEndian 4 tzId.toUint32 ++
      rest) = some (.time_tz fractions.toUint32
        (.int ((tzId.toUint32 % 65536 : Nat) : Int)), rest) := by
  simp only [readBatchField, List.append_assoc, readUint32_append,
    Option.bind_eq_bind, Option.bind_some, mask_zone]
  rfl

/-- A writer that always appends the same bytes. -/
theorem carries_of_bytes (bytes : Bytes) {c : Carried}
    (hwrite : ∀ w, batchWriter host 0 column v w = .ok (w.raw bytes))
    (hread : ∀ rest, readBatchField (batchType column) (bytes ++ rest) = some (c, rest)) :
    Carries host column v c := by
  intro w w' h
  rw [hwrite] at h
  cases h
  exact ⟨bytes, rfl, hread⟩

theorem carries_naive (d : JsDate) (hwrite : ∀ w, batchWriter host 0 column (.date d) w =
      .ok ((w.int32 (encodeTimestamp host.toEncodeHost d).1).uint32
        (encodeTimestamp host.toEncodeHost d).2)) (htype : batchType column = .timestamp) :
    Carries host column (.date d)
      (.timestamp (encodeTimestamp host.toEncodeHost d).1.toInt32.toInt
        (encodeTimestamp host.toEncodeHost d).2.toUint32) := by
  apply carries_of_bytes (bigEndian 4 (encodeTimestamp host.toEncodeHost d).1.toUint32 ++
    bigEndian 4 (encodeTimestamp host.toEncodeHost d).2.toUint32)
  · intro w
    rw [hwrite]
    simp [XdrWriter.int32, XdrWriter.uint32, XdrWriter.raw]
  · intro rest
    rw [htype]
    exact reads_naive _ _ rest

theorem carries_instant {date : JsDate} {tzId : Number}
    (hwrite : ∀ w, batchWriter host 0 .timestamp_tz v w =
      .ok (((w.int32 (encodeTimestampUtc date).1).uint32 (encodeTimestampUtc date).2).uint32
        tzId)) :
    Carries host .timestamp_tz v (.timestamp_tz (encodeTimestampUtc date).1.toInt32.toInt
      (encodeTimestampUtc date).2.toUint32 (.int ((tzId.toUint32 % 65536 : Nat) : Int))) := by
  apply carries_of_bytes (bigEndian 4 (encodeTimestampUtc date).1.toUint32 ++
    bigEndian 4 (encodeTimestampUtc date).2.toUint32 ++ bigEndian 4 tzId.toUint32)
  · intro w
    rw [hwrite]
    simp [XdrWriter.int32, XdrWriter.uint32, XdrWriter.raw]
  · intro rest
    exact reads_instant _ _ _ rest

theorem carries_time {date : JsDate} {tzId : Number}
    (hwrite : ∀ w, batchWriter host 0 .time_tz v w =
      .ok ((w.uint32 (timeFractions date)).uint32 tzId)) :
    Carries host .time_tz v (.time_tz (timeFractions date).toUint32
      (.int ((tzId.toUint32 % 65536 : Nat) : Int))) := by
  apply carries_of_bytes (bigEndian 4 (timeFractions date).toUint32 ++
    bigEndian 4 tzId.toUint32)
  · intro w
    rw [hwrite]
    simp [XdrWriter.uint32, XdrWriter.raw]
  · intro rest
    exact reads_time _ _ rest

/-- The time of the day is the same in both messages. -/
theorem timeFractions_eq (date : JsDate) : timeFractions date = (encodeTimestampUtc date).2 := by
  unfold timeFractions msOfDay encodeTimestampUtc
  cases htime : date.time with
  | none => rfl
  | some t =>
    simp only [MS_PER_DAY]
    have hms : (t.tmod 86400000 + 86400000).tmod 86400000 = t - t / 86400000 * 86400000 := by
      rcases Int.le_total 0 t with hpos | hneg
      · rw [Int.tmod_eq_emod_of_nonneg hpos, Int.tmod_eq_emod_of_nonneg (by omega)]
        omega
      · have hrest := Int.tmod_eq_emod (a := t) (b := 86400000)
        have hlow := Int.lt_tmod_of_pos t (show (0 : Int) < 86400000 by decide)
        rw [Int.tmod_eq_emod_of_nonneg (by omega)]
        split at hrest <;> omega
    rw [hms]

end Batched

/-! Naive timestamps at the session -/

/-- The years 0 to 99. -/
def TwoDigitYear (t : Int) : Prop := -719528 ≤ t / 86400000 ∧ t / 86400000 < -683003

instance (t : Int) : Decidable (TwoDigitYear t) := inferInstanceAs (Decidable (_ ∧ _))

theorem dayTaken_own {t : Int} (h : ¬ TwoDigitYear t) : dayTaken t = t / 86400000 := by
  by_cases hlate : -683003 ≤ t / 86400000
  · exact dayTaken_late hlate
  · have hyear : ¬ 0 ≤ (clockFields t).fullYear := by
      have hzero : daysOfMonth 0 0 = -719528 := by decide
      rw [clockFields_year, le_yearFromDay_iff]
      unfold TwoDigitYear at h
      omega
    have hsame : fullYear (clockFields t).fullYear = (clockFields t).fullYear := by
      unfold fullYear
      rw [if_neg (by omega)]
    rw [dayTaken, hsame, clockFields_day]

/-- The day and the time of the day that a date is sent with as a naive timestamp. -/
theorem encodeTimestamp_naive {host : EncodeHost} {client : Zone} {d : JsDate} {t : Int}
    (ht : d.time = some t) :
    (encodeTimestamp (host.within client) d).1.toInt32.toInt =
        (if (dayTaken (client.wall t) * 86400000).natAbs ≤ 8640000000000000
          then dayTaken (client.wall t) + 40587 else 0) ∧
      (encodeTimestamp (host.within client) d).2.toUint32 =
        (client.wall t % 86400000).toNat * 10 := by
  have hfractions : (Number.int (client.wall t % 86400000 * 10)).toUint32 =
      (client.wall t % 86400000).toNat * 10 := by
    have hcast : client.wall t % 86400000 * 10 =
        (((client.wall t % 86400000).toNat * 10 : Nat) : Int) := by omega
    rw [hcast]
    exact toUint32_natCast (by omega)
  by_cases hrange : (dayTaken (client.wall t) * 86400000).natAbs ≤ 8640000000000000
  · rw [encodeTimestamp_wall ht hrange, if_pos hrange]
    exact ⟨toInt32_toInt (by omega) (by omega), hfractions⟩
  · have hnone : encodeTimestamp (host.within client) d =
        (.nan, .int (client.wall t % 86400000 * 10)) := by
      have hclock : (host.within client).localTime t = clockFields (client.wall t) := rfl
      have hday : dateToDays (clockFields (client.wall t)).fullYear
          ((clockFields (client.wall t)).month + 1) (clockFields (client.wall t)).date = .nan := by
        have hutc : dateUTC (clockFields (client.wall t)).fullYear
            ((clockFields (client.wall t)).month + 1 - 1) (clockFields (client.wall t)).date =
            .nan := by
          rw [Int.add_sub_cancel]
          unfold dateUTC
          exact if_neg hrange
        unfold dateToDays
        rw [hutc]
      unfold encodeTimestamp
      rw [ht]
      simp only [hclock, clockFields_time, timeMsToFractions]
      rw [hday]
    rw [hnone, if_neg hrange]
    exact ⟨rfl, hfractions⟩

/-- What the clock of the client shows, as the milliseconds of a naive timestamp. -/
def naiveMs (client : Zone) (t : Int) : Int :=
  midnight (if (dayTaken (client.wall t) * 86400000).natAbs ≤ 8640000000000000
    then dayTaken (client.wall t) + 40587 else 0) + client.wall t % 86400000

theorem naiveMs_time (client : Zone) (t : Int) :
    naiveMs client t % 86400000 = client.wall t % 86400000 := by
  unfold naiveMs midnight
  omega

/-- The naive timestamp of a date is its instant where the client has no offset, but for the years
of two digits. -/
theorem naiveMs_eq_iff (client : Zone) {t : Int} (ht : t.natAbs ≤ 8640000000000000) :
    naiveMs client t = t ↔ client.offset t = 0 ∧ ¬ TwoDigitYear t := by
  have hnear := client.wall_near t
  have hwall : client.wall t = t + client.offset t := rfl
  constructor
  · intro h
    by_cases hyear : TwoDigitYear (client.wall t)
    · have hearly := dayTaken_early hyear.1 hyear.2
      unfold TwoDigitYear at hyear
      unfold naiveMs midnight at h
      rw [if_pos (by omega)] at h
      omega
    · have hown := dayTaken_own hyear
      unfold naiveMs midnight at h
      rw [hown] at h
      split at h
      · have hsame : client.wall t = t := by omega
        refine ⟨by omega, ?_⟩
        rw [hsame] at hyear
        exact hyear
      · omega
  · rintro ⟨hzero, hyear⟩
    have hsame : client.wall t = t := by omega
    unfold naiveMs midnight
    rw [hsame, dayTaken_own hyear, if_pos (by omega)]
    omega

/-! Both ways -/

/-- Integer numbers, bigints, booleans, dates and nulls. -/
def Bindable : ParamValue → Prop
  | .null | .undefined | .boolean _ | .bigint _ | .date _ | .zonedDate _ _ => True
  | .number v => ∃ n, v.integer = some n
  | _ => False

/-- Where the two messages say the same: a number is safe or spelled exactly and its column no
`BOOLEAN`, and a date for a column with a time zone finds both the session and the client in
universal time. -/
def Agrees (client : Zone) (session : SessionZone) (column : SqlColumn) : ParamValue → Prop
  | .number v =>
    match column with
    | .boolean => False
    | .dec16 | .dec34 => True
    | _ => ∀ n ∈ v.integer, SafeInteger n ∨ spelledValue n = n
  | .date d =>
    match column with
    | .timestamp_tz => session.tzId = 1439 ∧ ∀ t ∈ d.time, client.offset t = 0 ∧ ¬ TwoDigitYear t
    | .time_tz => session.tzId = 1439 ∧ ∀ t ∈ d.time, client.offset t = 0
    | _ => True
  | _ => True

theorem Double.isFinite_of_integer {v : Double} {n : Int} (h : v.integer = some n) :
    v.isFinite = true := by
  unfold Double.isFinite
  rw [bne_iff_ne]
  intro hexp
  unfold Double.integer at h
  dsimp only at h
  rw [if_pos hexp] at h
  cases h

theorem toScaledBigInt_number {host : BatchHost} {v : Double} {n : Int} (h : v.integer = some n)
    (f : Nat) {ctx : String} {scaled : Int}
    (hok : toScaledBigInt host (.number v) f ctx = .ok scaled) :
    scaled = (if SafeInteger n then n else spelledValue n) * 10 ^ f ∨ 2 ^ 127 < scaled.natAbs := by
  have htext : jsString host v = numberText n := by
    unfold jsString
    rw [h]
  unfold toScaledBigInt at hok
  simp only [Double.isFinite_of_integer h, Bool.not_true, Bool.false_eq_true, if_false, h, htext]
    at hok
  split
  · rename_i hsafe
    rw [if_pos hsafe] at hok
    exact Or.inl (Except.ok.inj hok).symm
  · rename_i hunsafe
    rw [if_neg hunsafe] at hok
    have hlarge : 2 ^ 53 ≤ (spelledValue n).natAbs := by
      apply spelledValue_large (Double.integer_rounds h)
      unfold SafeInteger MAX_SAFE_INTEGER at hunsafe
      omega
    exact decimalToScaled_numberText ((Double.digitCount_integer h).trans (by decide)) (by omega) f hok

theorem fits_eq_iff {min max m n : Int} (h : min ≤ m ∧ m ≤ max) :
    fits min max n = fits min max m ↔ n = m := by
  unfold fits
  rw [if_pos h]
  constructor
  · intro heq
    split at heq
    · exact SqlValue.numeric.inj (Option.some.inj heq)
    · cases heq
  · rintro rfl
    rw [if_pos h]

/-- What the two messages carry for a whole number is the same where it is sent as it is. -/
theorem numeric_agrees {session : SessionZone} {column : SqlColumn} {min max : Int} {f : Nat}
    (hcol : NumericColumn column min max f) {c : Carried} {n m : Int}
    (hc : coerceNumeric min max f c = fits min max (n * 10 ^ f))
    (hm : (min ≤ m * 10 ^ f ∧ m * 10 ^ f ≤ max) ∨
      (INT32_MIN ≤ m * 10 ^ f ∧ m * 10 ^ f ≤ INT32_MAX))
    (hsame : n = m ∨ (2 ^ 53 ≤ m.natAbs)) :
    coerce session column c = coerce session column (.integer (m * 10 ^ f) f) ↔ n = m := by
  have hpos : (0 : Int) < 10 ^ f := by positivity
  have hinteger : coerceNumeric min max f (.integer (m * 10 ^ f) f) =
      fits min max (m * 10 ^ f) := by
    rw [coerceNumeric_integer le_rfl, Nat.sub_self, Int.pow_zero, Int.mul_one]
  rw [hcol.coerced, hcol.coerced, hc, hinteger]
  rcases hsame with rfl | hlarge
  · simp
  · have hscaled : 2 ^ 53 ≤ (m * 10 ^ f).natAbs := by
      rw [Int.natAbs_mul]
      have hone : 1 ≤ ((10 : Int) ^ f).natAbs := by omega
      calc 2 ^ 53 ≤ m.natAbs := hlarge
        _ = m.natAbs * 1 := (Nat.mul_one _).symm
        _ ≤ m.natAbs * ((10 : Int) ^ f).natAbs := Nat.mul_le_mul_left _ hone
    have hin : min ≤ m * 10 ^ f ∧ m * 10 ^ f ≤ max := by
      rcases hm with hm | hm
      · exact hm
      · unfold INT32_MIN INT32_MAX at hm
        omega
    rw [fits_eq_iff hin]
    constructor
    · intro heq
      exact Int.eq_of_mul_eq_mul_right (by omega) heq
    · rintro rfl
      rfl

theorem wireValue_number {host : EncodeHost} {v : Double} {n : Int} (h : v.integer = some n) :
    ∃ w, wireValue host 0 (.number v) = some w ∧
      (executeCarried w = .integer n 0 ∨ executeCarried w = .double v) := by
  unfold wireValue
  simp only [h]
  split
  · exact ⟨_, rfl, Or.inl rfl⟩
  · split
    · exact ⟨_, rfl, Or.inl rfl⟩
    · exact ⟨_, rfl, Or.inr rfl⟩

theorem wireValue_bigint {host : EncodeHost} (n : Int) :
    ∃ w, wireValue host 0 (.bigint n) = some w ∧ executeCarried w = .integer n 0 := by
  by_cases h : INT64_MIN ≤ n ∧ n ≤ INT64_MAX
  · exact ⟨.int64 n, if_pos h, rfl⟩
  · exact ⟨.int128 n, if_neg h, rfl⟩

theorem coerceNumeric_whole {min max n : Int} {f : Nat} {c : Carried}
    (h : c = .integer n 0 ∨ ∃ v : Double, v.integer = some n ∧ c = .double v) :
    coerceNumeric min max f c = fits min max (n * 10 ^ f) := by
  rcases h with rfl | ⟨v, hv, rfl⟩
  · rw [coerceNumeric_integer (Nat.zero_le f), Nat.sub_zero]
  · show v.integer.bind _ = _
    rw [hv]
    rfl

theorem carries_boolean {host : BatchHost} {v : ParamValue} {bit : UInt8}
    (hwrite : ∀ w : XdrWriter, batchWriter host 0 .boolean v w = .ok (w.opaqueFixed [bit])) :
    Carries host .boolean v (.boolean ([bit] != [0])) := by
  apply carries_of_bytes ([bit] ++ [0, 0, 0])
  · intro w
    have hfill : List.replicate (padded [bit].length - [bit].length) (0 : UInt8) = [0, 0, 0] := by
      rw [List.length_singleton]
      decide
    rw [hwrite, XdrWriter.opaqueFixed, hfill]
  · intro rest
    have hread := @readPadded_append [bit] [0, 0, 0] (by rw [List.length_singleton]; decide) rest
    rw [List.length_singleton] at hread
    have hfield : readBatchField .bool ([bit] ++ [0, 0, 0] ++ rest) =
        some (.boolean ([bit] != [0]), rest) := by
      unfold readBatchField
      rw [hread]
      rfl
    exact hfield

theorem carries_decimal {host : BatchHost} {column : SqlColumn} {d : DecFloatVal} {row : Bytes}
    (hcol : column = .dec16 ∨ column = .dec34)
    (hrow : encodeBatchRow host [column] [.decFloat d] = .ok row) :
    Carries host column (.decFloat d) (.decimal d.bytes) := by
  obtain ⟨w', hwrite, -⟩ := encodeBatchRow_field rfl hrow
  rcases hcol with rfl | rfl
  · by_cases hsize : d.bytes.length = 8
    · apply carries_of_bytes d.bytes
      · intro w
        exact if_neg (not_not.mpr hsize)
      · intro rest
        show (readBytes 8 (d.bytes ++ rest)).map _ = _
        rw [readBytes_append hsize]
        rfl
    · have herr : batchWriter host 0 .dec16 (.decFloat d) ⟨[0, 0, 0, 0]⟩ = .error _ := if_pos hsize
      rw [herr] at hwrite
      cases hwrite
  · by_cases hsize : d.bytes.length = 16
    · apply carries_of_bytes d.bytes
      · intro w
        exact if_neg (not_not.mpr hsize)
      · intro rest
        show (readBytes 16 (d.bytes ++ rest)).map _ = _
        rw [readBytes_append hsize]
        rfl
    · have herr : batchWriter host 0 .dec34 (.decFloat d) ⟨[0, 0, 0, 0]⟩ = .error _ := if_pos hsize
      rw [herr] at hwrite
      cases hwrite

section Agreement
variable {host : BatchHost} {client : Zone} {session : SessionZone} {column : SqlColumn}
  {prepared : ParamValue} {e : EncodedParams} {row : Bytes}

/-- The server gets a value both ways, and the same one as far as they agree. -/
def BothWays (client : Zone) (session : SessionZone) (column : SqlColumn) (v : ParamValue)
    (e : EncodedParams) (row : Bytes) : Prop :=
  ∃ x y, executed session column e = some x ∧ batched session column row = some y ∧
    (x = y ↔ Agrees client session column v)

theorem bothWays_of_carried {v : ParamValue} {x : Option SqlValue} {c : Carried}
    (hexec : executed session column e = some x) (hsome : isNullish prepared = false)
    (hrow : encodeBatchRow host [column] [prepared] = .ok row)
    (hcarries : Carries host column prepared c)
    (h : x = coerce session column c ↔ Agrees client session column v) :
    BothWays client session column v e row :=
  ⟨x, coerce session column c, hexec, batched_field hsome hrow hcarries, h⟩

/-- A writer that throws writes no row. -/
theorem rejected {P : Prop} (hsome : isNullish prepared = false)
    (hrow : encodeBatchRow host [column] [prepared] = .ok row) {err : FirebirdError}
    (h : batchWriter host 0 column prepared ⟨[0, 0, 0, 0]⟩ = .error err) : P := by
  obtain ⟨w', hwrite, -⟩ := encodeBatchRow_field hsome hrow
  rw [h] at hwrite
  cases hwrite

theorem bothWays_decFloat {v : ParamValue} {d : DecFloatVal}
    (hcol : column = .dec16 ∨ column = .dec34) (hagrees : Agrees client session column v)
    (he : encodeParams host.toEncodeHost [.decFloat d] = .ok e)
    (hrow : encodeBatchRow host [column] [.decFloat d] = .ok row) :
    BothWays client session column v e row := by
  apply bothWays_of_carried (executed_value he trivial) rfl hrow (carries_decimal hcol hrow)
  refine iff_of_true ?_ hagrees
  rcases hcol with rfl | rfl <;> rfl

/-- A whole number in a numeric column, scaled from what both messages say of it. -/
theorem bothWays_numeric {v : ParamValue} {min max n m : Int} {f : Nat} {w : WireValue}
    (hcol : NumericColumn column min max f) (hsome : isNullish prepared = false)
    (hsize : WellSized host.toEncodeHost prepared)
    (hwire : wireValue host.toEncodeHost 0 prepared = some w)
    (hcarried : executeCarried w = .integer n 0 ∨
      ∃ d : Double, d.integer = some n ∧ executeCarried w = .double d)
    (hscaled : ∀ {ctx k}, toScaledBigInt host prepared f ctx = .ok k →
      k = m * 10 ^ f ∨ 2 ^ 127 < k.natAbs)
    (hsame : n = m ∨ 2 ^ 53 ≤ m.natAbs) (hagrees : n = m ↔ Agrees client session column v)
    (he : encodeParams host.toEncodeHost [prepared] = .ok e)
    (hrow : encodeBatchRow host [column] [prepared] = .ok row) :
    BothWays client session column v e row := by
  obtain ⟨w', hwrite, -⟩ := encodeBatchRow_field hsome hrow
  obtain ⟨k, hk, hcarries, hrange⟩ := hcol.written hwrite
  obtain rfl : k = m * 10 ^ f := by
    apply (hscaled hk).resolve_right
    have hbounded := hcol.bounded
    unfold INT32_MIN INT32_MAX at hrange
    unfold INT128_MIN INT128_MAX at hbounded
    omega
  have hexec := @executed_value host.toEncodeHost session column prepared e he hsize
  rw [hwire, Option.elim_some] at hexec
  apply bothWays_of_carried hexec hsome hrow hcarries
  rw [← hagrees]
  exact numeric_agrees hcol (coerceNumeric_whole hcarried) hrange hsame

theorem toDecFloat_ok {text : Text} {width : ByteWidth} (h : toDecFloat text width = .ok prepared) :
    ∃ d, prepared = .decFloat d := by
  unfold toDecFloat at h
  split at h
  · cases h
  · split at h
    · cases h
      exact ⟨_, rfl⟩
    · cases h

/-! Numbers -/

theorem bothWays_bigint {n : Int} (hp : prepareParam host column (.bigint n) = .ok prepared)
    (he : encodeParams host.toEncodeHost [prepared] = .ok e)
    (hrow : encodeBatchRow host [column] [prepared] = .ok row) :
    BothWays client session column (.bigint n) e row := by
  obtain ⟨w, hwire, hcarried⟩ := @wireValue_bigint host.toEncodeHost n
  have hnumeric {min max : Int} {f : Nat} (hcol : NumericColumn column min max f)
      (hp : prepareParam host column (.bigint n) = .ok (.bigint n))
      (hsame : .ok prepared = prepareParam host column (.bigint n)) :
      BothWays client session column (.bigint n) e row := by
    obtain rfl : prepared = .bigint n := Except.ok.inj (hsame.trans hp)
    have hsize : WellSized host.toEncodeHost (.bigint n) := trivial
    refine bothWays_numeric (n := n) (m := n) hcol rfl hsize hwire (Or.inl hcarried)
      (fun hok => Or.inl (Except.ok.inj hok).symm) (Or.inl rfl) (iff_of_true rfl ?_) he hrow
    unfold Agrees
    trivial
  cases column with
  | short f => exact hnumeric (numeric_short f) rfl hp.symm
  | long f => exact hnumeric (numeric_long f) rfl hp.symm
  | int64 f => exact hnumeric (numeric_int64 f) rfl hp.symm
  | int128 f => exact hnumeric (numeric_int128 f) rfl hp.symm
  | dec16 =>
    obtain ⟨d, rfl⟩ := toDecFloat_ok hp
    exact bothWays_decFloat (Or.inl rfl) trivial he hrow
  | dec34 =>
    obtain ⟨d, rfl⟩ := toDecFloat_ok hp
    exact bothWays_decFloat (Or.inr rfl) trivial he hrow
  | _ =>
    obtain rfl := Except.ok.inj hp
    exact rejected rfl hrow rfl

theorem bothWays_number {v : Double} {n : Int} (hv : v.integer = some n)
    (hp : prepareParam host column (.number v) = .ok prepared)
    (he : encodeParams host.toEncodeHost [prepared] = .ok e)
    (hrow : encodeBatchRow host [column] [prepared] = .ok row) :
    BothWays client session column (.number v) e row := by
  obtain ⟨w, hwire, hcarried⟩ := @wireValue_number host.toEncodeHost v n hv
  have hwhole : executeCarried w = .integer n 0 ∨
      ∃ d : Double, d.integer = some n ∧ executeCarried w = .double d := by
    rcases hcarried with h | h
    · exact Or.inl h
    · exact Or.inr ⟨v, hv, h⟩
  have hspelled : n = (if SafeInteger n then n else spelledValue n) ↔
      SafeInteger n ∨ spelledValue n = n := by
    split
    · rename_i hsafe
      exact iff_of_true rfl (Or.inl hsafe)
    · rename_i hunsafe
      constructor
      · intro h
        exact Or.inr h.symm
      · intro h
        exact (h.resolve_left hunsafe).symm
  have hlarge : n = (if SafeInteger n then n else spelledValue n) ∨
      2 ^ 53 ≤ (if SafeInteger n then n else spelledValue n).natAbs := by
    split
    · exact Or.inl rfl
    · rename_i hunsafe
      apply Or.inr
      apply spelledValue_large (Double.integer_rounds hv)
      unfold SafeInteger MAX_SAFE_INTEGER at hunsafe
      omega
  have hnumeric {min max : Int} {f : Nat} (hcol : NumericColumn column min max f)
      (hp : prepareParam host column (.number v) = .ok (.number v))
      (hsame : .ok prepared = prepareParam host column (.number v))
      (hagrees : Agrees client session column (.number v) ↔
        ∀ n ∈ v.integer, SafeInteger n ∨ spelledValue n = n) :
      BothWays client session column (.number v) e row := by
    obtain rfl : prepared = .number v := Except.ok.inj (hsame.trans hp)
    have hsize : WellSized host.toEncodeHost (.number v) := trivial
    refine bothWays_numeric (n := n) (m := if SafeInteger n then n else spelledValue n) hcol rfl
      hsize hwire hwhole (toScaledBigInt_number hv f) hlarge ?_ he hrow
    rw [hspelled, hagrees, hv]
    simp
  cases column with
  | short f => exact hnumeric (numeric_short f) rfl hp.symm Iff.rfl
  | long f => exact hnumeric (numeric_long f) rfl hp.symm Iff.rfl
  | int64 f => exact hnumeric (numeric_int64 f) rfl hp.symm Iff.rfl
  | int128 f => exact hnumeric (numeric_int128 f) rfl hp.symm Iff.rfl
  | dec16 =>
    obtain ⟨d, rfl⟩ := toDecFloat_ok hp
    exact bothWays_decFloat (Or.inl rfl) trivial he hrow
  | dec34 =>
    obtain ⟨d, rfl⟩ := toDecFloat_ok hp
    exact bothWays_decFloat (Or.inr rfl) trivial he hrow
  | boolean =>
    obtain rfl := Except.ok.inj hp
    have hexec := @executed_value host.toEncodeHost session .boolean _ e he trivial
    rw [hwire, Option.elim_some] at hexec
    apply bothWays_of_carried hexec rfl hrow (carries_boolean fun _ => rfl)
    refine iff_of_false ?_ id
    rcases hwhole with h | ⟨d, -, h⟩
    · rw [h]
      exact Option.some_ne_none _ ∘ Eq.symm
    · rw [h]
      exact Option.some_ne_none _ ∘ Eq.symm
  | _ =>
    obtain rfl := Except.ok.inj hp
    exact rejected rfl hrow rfl

/-! The others -/

theorem bothWays_null {v : ParamValue} (hv : isNullish v = true)
    (he : encodeParams host.toEncodeHost [v] = .ok e)
    (hrow : encodeBatchRow host [column] [v] = .ok row) :
    BothWays client session column v e row := by
  have hwire : wireValue host.toEncodeHost 0 v = none ∧ WellSized host.toEncodeHost v ∧
      Agrees client session column v := by
    cases v with
    | null => exact ⟨rfl, trivial, trivial⟩
    | undefined => exact ⟨rfl, trivial, trivial⟩
    | _ => cases hv
  have hexec := @executed_value host.toEncodeHost session column v e he hwire.2.1
  rw [hwire.1] at hexec
  exact ⟨_, _, hexec, batched_null hv hrow, iff_of_true rfl hwire.2.2⟩

theorem bothWays_boolean {b : Bool} (he : encodeParams host.toEncodeHost [.boolean b] = .ok e)
    (hrow : encodeBatchRow host [column] [.boolean b] = .ok row) :
    BothWays client session column (.boolean b) e row := by
  cases column with
  | boolean =>
    apply bothWays_of_carried (executed_value he trivial) rfl hrow (carries_boolean fun _ => rfl)
    refine iff_of_true ?_ trivial
    cases b <;> rfl
  | _ => exact rejected rfl hrow rfl

theorem bothWays_zoned {date : JsDate} {zone : Text}
    (he : encodeParams host.toEncodeHost [.zonedDate date zone] = .ok e)
    (hrow : encodeBatchRow host [column] [.zonedDate date zone] = .ok row) :
    BothWays client session column (.zonedDate date zone) e row := by
  cases column with
  | timestamp_tz =>
    obtain ⟨w', hwrite, -⟩ := encodeBatchRow_field rfl hrow
    obtain ⟨tzId, hzone, -⟩ := bind_ok hwrite
    have hcarries := @carries_instant host (.zonedDate date zone) date tzId (by
      intro w
      show (zoneToTzId host.toEncodeHost zone >>= fun tzId => _) = _
      rw [hzone]
      rfl)
    exact bothWays_of_carried (executed_zoned he hzone) rfl hrow hcarries (iff_of_true rfl trivial)
  | time_tz =>
    obtain ⟨w', hwrite, -⟩ := encodeBatchRow_field rfl hrow
    obtain ⟨tzId, hzone, -⟩ := bind_ok hwrite
    have hcarries := @carries_time host (.zonedDate date zone) date tzId (by
      intro w
      show (zoneToTzId host.toEncodeHost zone >>= fun tzId => _) = _
      rw [hzone]
      rfl)
    apply bothWays_of_carried (executed_zoned he hzone) rfl hrow hcarries
    refine iff_of_true ?_ trivial
    rw [timeFractions_eq]
    rfl
  | _ => exact rejected rfl hrow rfl

/-! Dates -/

/-- A naive timestamp at a session in universal time. -/
theorem atSession_utc (h : session.tzId = 1439) (days : Int) (fractions : Nat) :
    atSession session days fractions =
      ((midnight days + (fractions / 10 : Nat)) / 86400000 + 40587,
        ((midnight days + (fractions / 10 : Nat)) % 86400000).toNat * 10 + fractions % 10,
        .int 1439) := by
  have hutc : session.zone.toUtc (midnight days + (fractions / 10 : Nat)) =
      midnight days + (fractions / 10 : Nat) := by
    rw [session.offset_zone (by omega), h]
    omega
  unfold atSession
  dsimp only
  rw [hutc, h]
  rfl

/-- The instant of a date as the batch sends it. -/
theorem encodeTimestampUtc_read {d : JsDate} {t : Int} (ht : d.time = some t) :
    (encodeTimestampUtc d).1.toInt32.toInt = t / 86400000 + 40587 ∧
      (encodeTimestampUtc d).2.toUint32 = (t % 86400000).toNat * 10 := by
  have hclipped := d.clipped t ht
  rw [encodeTimestampUtc_time ht]
  exact ⟨toInt32_toInt (by omega) (by omega), toUint32_natCast (by omega)⟩

/-- The naive timestamp of a date, at a session in universal time, is `naiveMs`. -/
theorem atSession_naive {d : JsDate} {t : Int} (h : session.tzId = 1439) (ht : d.time = some t) :
    atSession session (encodeTimestamp (host.toEncodeHost.within client) d).1.toInt32.toInt
        (encodeTimestamp (host.toEncodeHost.within client) d).2.toUint32 =
      (naiveMs client t / 86400000 + 40587, (naiveMs client t % 86400000).toNat * 10,
        .int 1439) := by
  obtain ⟨hdays, hfractions⟩ := @encodeTimestamp_naive host.toEncodeHost client d t ht
  have hms : midnight (encodeTimestamp (host.toEncodeHost.within client) d).1.toInt32.toInt +
      (((encodeTimestamp (host.toEncodeHost.within client) d).2.toUint32 / 10 : Nat) : Int) =
      naiveMs client t := by
    rw [hdays, hfractions]
    unfold naiveMs
    omega
  rw [atSession_utc h, hms, hfractions]
  simp

theorem zone_utc_bits : (Number.int TZ_ID_UTC_OFFSET).toUint32 % 65536 = 1439 := by decide

theorem coerce_date_tz {d : JsDate} :
    coerce session .timestamp_tz
        (.timestamp (encodeTimestamp (host.toEncodeHost.within client) d).1.toInt32.toInt
          (encodeTimestamp (host.toEncodeHost.within client) d).2.toUint32) =
      coerce session .timestamp_tz (.timestamp_tz (encodeTimestampUtc d).1.toInt32.toInt
        (encodeTimestampUtc d).2.toUint32 (.int (1439 : Nat))) ↔
      session.tzId = 1439 ∧ ∀ t ∈ d.time, client.offset t = 0 ∧ ¬ TwoDigitYear t := by
  obtain ⟨days, hdays⟩ : ∃ days, days =
    (encodeTimestamp (host.toEncodeHost.within client) d).1.toInt32.toInt := ⟨_, rfl⟩
  obtain ⟨fractions, hfractions⟩ : ∃ fractions, fractions =
    (encodeTimestamp (host.toEncodeHost.within client) d).2.toUint32 := ⟨_, rfl⟩
  have hnaive : coerce session .timestamp_tz (.timestamp days fractions) =
      some (.timestamp_tz (atSession session days fractions).1
        (atSession session days fractions).2.1 (atSession session days fractions).2.2) := rfl
  have hinstant (days : Int) (fractions : Nat) (tzId : Number) :
      coerce session .timestamp_tz (.timestamp_tz days fractions tzId) =
        some (.timestamp_tz days fractions tzId) := rfl
  rw [← hdays, ← hfractions, hnaive, hinstant, Option.some_inj, SqlValue.timestamp_tz.injEq, hdays,
    hfractions]
  clear hnaive hinstant hdays hfractions
  by_cases hzone : session.tzId = 1439
  · cases ht : d.time with
    | none =>
      have hnaive : encodeTimestamp (host.toEncodeHost.within client) d = (.nan, .nan) := by
        unfold encodeTimestamp
        rw [ht]
      have hutc : encodeTimestampUtc d = (.nan, .nan) := by
        unfold encodeTimestampUtc
        rw [ht]
      rw [hnaive, hutc, atSession_utc hzone]
      refine iff_of_true ⟨by decide, by decide, rfl⟩ ⟨hzone, ?_⟩
      intro t hmem
      cases hmem
    | some t =>
      have hclipped := d.clipped t ht
      obtain ⟨hdays, hfractions⟩ := encodeTimestampUtc_read ht
      rw [atSession_naive hzone ht, hdays, hfractions]
      have hsame : (naiveMs client t / 86400000 + 40587 = t / 86400000 + 40587 ∧
          (naiveMs client t % 86400000).toNat * 10 = (t % 86400000).toNat * 10 ∧
          Number.int 1439 = Number.int (1439 : Nat)) ↔ naiveMs client t = t := by
        constructor
        · rintro ⟨h1, h2, -⟩
          omega
        · intro h
          rw [h]
          exact ⟨rfl, rfl, rfl⟩
      rw [hsame, naiveMs_eq_iff client hclipped]
      simp [hzone]
  · refine iff_of_false ?_ fun h => hzone h.1
    rintro ⟨-, -, htz⟩
    apply hzone
    have hint := Number.int.inj htz
    omega

theorem coerce_date_time {d : JsDate} :
    coerce session .time_tz
        (.timestamp (encodeTimestamp (host.toEncodeHost.within client) d).1.toInt32.toInt
          (encodeTimestamp (host.toEncodeHost.within client) d).2.toUint32) =
      coerce session .time_tz (.time_tz (encodeTimestampUtc d).2.toUint32 (.int (1439 : Nat))) ↔
      session.tzId = 1439 ∧ ∀ t ∈ d.time, client.offset t = 0 := by
  obtain ⟨days, hdays⟩ : ∃ days, days =
    (encodeTimestamp (host.toEncodeHost.within client) d).1.toInt32.toInt := ⟨_, rfl⟩
  obtain ⟨fractions, hfractions⟩ : ∃ fractions, fractions =
    (encodeTimestamp (host.toEncodeHost.within client) d).2.toUint32 := ⟨_, rfl⟩
  have hnaive : coerce session .time_tz (.timestamp days fractions) =
      some (.time_tz (atSession session days fractions).2.1
        (atSession session days fractions).2.2) := rfl
  have hinstant (fractions : Nat) (tzId : Number) :
      coerce session .time_tz (.time_tz fractions tzId) = some (.time_tz fractions tzId) := rfl
  rw [← hdays, ← hfractions, hnaive, hinstant, Option.some_inj, SqlValue.time_tz.injEq, hdays,
    hfractions]
  clear hnaive hinstant hdays hfractions
  by_cases hzone : session.tzId = 1439
  · cases ht : d.time with
    | none =>
      have hnaive : encodeTimestamp (host.toEncodeHost.within client) d = (.nan, .nan) := by
        unfold encodeTimestamp
        rw [ht]
      have hutc : encodeTimestampUtc d = (.nan, .nan) := by
        unfold encodeTimestampUtc
        rw [ht]
      rw [hnaive, hutc, atSession_utc hzone]
      refine iff_of_true ⟨by decide, rfl⟩ ⟨hzone, ?_⟩
      intro t hmem
      cases hmem
    | some t =>
      obtain ⟨-, hfractions⟩ := encodeTimestampUtc_read ht
      rw [atSession_naive hzone ht, hfractions, naiveMs_time]
      have hoffset := client.offset_lt t
      have hwall : client.wall t = t + client.offset t := rfl
      have hsame : ((client.wall t % 86400000).toNat * 10 = (t % 86400000).toNat * 10 ∧
          Number.int 1439 = Number.int (1439 : Nat)) ↔ client.offset t = 0 := by
        constructor
        · rintro ⟨h, -⟩
          omega
        · intro h
          rw [hwall, h, Int.add_zero]
          exact ⟨rfl, rfl⟩
      rw [hsame]
      simp [hzone]
  · refine iff_of_false ?_ fun h => hzone h.1
    rintro ⟨-, htz⟩
    apply hzone
    have hint := Number.int.inj htz
    omega

theorem bothWays_date {d : JsDate}
    (he : encodeParams (host.within client).toEncodeHost [.date d] = .ok e)
    (hrow : encodeBatchRow (host.within client) [column] [.date d] = .ok row) :
    BothWays client session column (.date d) e row := by
  cases column with
  | type_date =>
    exact bothWays_of_carried (executed_value he trivial) rfl hrow
      (carries_naive d (fun _ => rfl) rfl) (iff_of_true rfl trivial)
  | type_time =>
    exact bothWays_of_carried (executed_value he trivial) rfl hrow
      (carries_naive d (fun _ => rfl) rfl) (iff_of_true rfl trivial)
  | timestamp =>
    exact bothWays_of_carried (executed_value he trivial) rfl hrow
      (carries_naive d (fun _ => rfl) rfl) (iff_of_true rfl trivial)
  | timestamp_tz =>
    have hcarries := @carries_instant (host.within client) (.date d) d (.int TZ_ID_UTC_OFFSET)
      fun _ => rfl
    rw [zone_utc_bits] at hcarries
    exact bothWays_of_carried (executed_value he trivial) rfl hrow hcarries coerce_date_tz
  | time_tz =>
    have hcarries := @carries_time (host.within client) (.date d) d (.int TZ_ID_UTC_OFFSET)
      fun _ => rfl
    rw [zone_utc_bits, timeFractions_eq] at hcarries
    exact bothWays_of_carried (executed_value he trivial) rfl hrow hcarries coerce_date_time
  | _ => exact rejected rfl hrow rfl

end Agreement

/-- A value bound through an execute and through a batch is the same value of its column exactly
where the two messages agree. -/
theorem bound_value_agrees_iff (host : BatchHost) (client : Zone) (session : SessionZone)
    (column : SqlColumn) (v : ParamValue) (hv : Bindable v) {prepared : ParamValue}
    (hp : prepareParam (host.within client) column v = .ok prepared) {e : EncodedParams}
    (he : encodeParams (host.within client).toEncodeHost [prepared] = .ok e) {row : Bytes}
    (hrow : encodeBatchRow (host.within client) [column] [prepared] = .ok row) :
    ∃ x y, executed session column e = some x ∧ batched session column row = some y ∧
      (x = y ↔ Agrees client session column v) := by
  have hsame (h : prepareParam (host.within client) column v = .ok v) : prepared = v :=
    Except.ok.inj (hp.symm.trans h)
  cases v with
  | null =>
    obtain rfl := hsame (by cases column <;> rfl)
    exact bothWays_null rfl he hrow
  | undefined =>
    obtain rfl := hsame (by cases column <;> rfl)
    exact bothWays_null rfl he hrow
  | boolean b =>
    obtain rfl := hsame (by cases column <;> rfl)
    exact bothWays_boolean he hrow
  | bigint n => exact bothWays_bigint hp he hrow
  | number d =>
    obtain ⟨n, hn⟩ := hv
    exact bothWays_number hn hp he hrow
  | date d =>
    obtain rfl := hsame (by cases column <;> rfl)
    exact bothWays_date he hrow
  | zonedDate date zone =>
    obtain rfl := hsame (by cases column <;> rfl)
    exact bothWays_zoned he hrow
  | string text => cases hv
  | blobRef id => cases hv
  | decFloat d => cases hv
  | buffer b => cases hv
  | other typeof => cases hv

def asciiBatchHost : BatchHost := { asciiHost with fractionText := fun _ => [] }

/-- A session at Greenwich. -/
def sessionUtc : SessionZone where
  tzId := 1439
  zone := Zone.fixed 0 (by decide)
  offset_zone _ w := by
    show w - 0 = w - ((1439 : Nat) - 1439) * 60000
    omega

/-- Noon of the first day of 2000 in universal time. -/
def noon2000 : JsDate := ⟨some 946728000000, by decide⟩

theorem bound_value_agrees_noon :
    ∃ e row, encodeParams (asciiBatchHost.within (Zone.fixed 0 (by decide))).toEncodeHost
        [.date noon2000] = .ok e ∧
      encodeBatchRow (asciiBatchHost.within (Zone.fixed 0 (by decide))) [.timestamp_tz]
        [.date noon2000] = .ok row ∧
      executed sessionUtc .timestamp_tz e = batched sessionUtc .timestamp_tz row := by
  have he : ∃ e, encodeParams (asciiBatchHost.within (Zone.fixed 0 (by decide))).toEncodeHost
      [.date noon2000] = .ok e := ⟨_, rfl⟩
  have hrow : ∃ row, encodeBatchRow (asciiBatchHost.within (Zone.fixed 0 (by decide)))
      [.timestamp_tz] [.date noon2000] = .ok row := ⟨_, rfl⟩
  obtain ⟨e, he⟩ := he
  obtain ⟨row, hrow⟩ := hrow
  obtain ⟨x, y, hx, hy, hsame⟩ := bound_value_agrees_iff asciiBatchHost (Zone.fixed 0 (by decide))
    sessionUtc .timestamp_tz (.date noon2000) trivial rfl he hrow
  have hequal : x = y := by
    apply hsame.mpr
    refine ⟨rfl, ?_⟩
    intro t ht
    obtain rfl := Option.mem_some.mp ht
    exact ⟨rfl, by decide⟩
  refine ⟨e, row, he, hrow, ?_⟩
  rw [hx, hy, hequal]

/-- A client one hour ahead sends noon as one o'clock by an execute. -/
theorem bound_date_moves_hour :
    ¬ ∀ (client : Zone) (session : SessionZone) (d : JsDate) (e : EncodedParams) (row : Bytes),
      encodeParams (asciiBatchHost.within client).toEncodeHost [.date d] = .ok e →
      encodeBatchRow (asciiBatchHost.within client) [.timestamp_tz] [.date d] = .ok row →
      executed session .timestamp_tz e = batched session .timestamp_tz row := by
  intro hall
  have he : ∃ e, encodeParams (asciiBatchHost.within hourAhead).toEncodeHost [.date noon2000] =
      .ok e := ⟨_, rfl⟩
  have hrow : ∃ row, encodeBatchRow (asciiBatchHost.within hourAhead) [.timestamp_tz]
      [.date noon2000] = .ok row := ⟨_, rfl⟩
  obtain ⟨e, he⟩ := he
  obtain ⟨row, hrow⟩ := hrow
  obtain ⟨x, y, hx, hy, hsame⟩ := @bothWays_date asciiBatchHost hourAhead sessionUtc .timestamp_tz
    e row noon2000 he hrow
  have hequal := hall hourAhead sessionUtc noon2000 e row he hrow
  rw [hx, hy, Option.some_inj] at hequal
  have hoffset := ((hsame.mp hequal).2 _ rfl).1
  exact absurd hoffset (by decide)

end FastFirebird.Msgcodec
