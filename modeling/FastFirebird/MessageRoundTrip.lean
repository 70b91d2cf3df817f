import FastFirebird.MessageCodec
import Mathlib.Data.List.TakeDrop

/-! A parameter message, parsed by the BLR that goes with it. -/
namespace FastFirebird.Msgcodec

/-! What a server makes of the BLR -/

/-- A type and what follows it; types with a scale have none here. -/
def parseType (bytes : Bytes) : Option (FieldType × Bytes) :=
  let scaled (type : FieldType) (bytes : Bytes) : Option (FieldType × Bytes) :=
    match bytes with
    | scale :: rest => if scale = 0 then some (type, rest) else none
    | [] => none
  match bytes with
  | [] => none
  | code :: rest =>
    if code = Blr.text then
      match rest with
      | low :: high :: rest => some (.text (low.toNat + 256 * high.toNat), rest)
      | _ => none
    else if code = Blr.long then scaled .long rest
    else if code = Blr.int64 then scaled .int64 rest
    else if code = Blr.int128 then scaled .int128 rest
    else if code = Blr.quad then scaled .quad rest
    else if code = Blr.double then some (.double, rest)
    else if code = Blr.timestamp then some (.timestamp, rest)
    else if code = Blr.timestamp_tz then some (.timestamp_tz, rest)
    else if code = Blr.dec64 then some (.dec64, rest)
    else if code = Blr.dec128 then some (.dec128, rest)
    else none

/-- The null indicator that follows every type. -/
def parseNullSlot : Bytes → Option Bytes
  | code :: scale :: rest => if code = Blr.short ∧ scale = 0 then some rest else none
  | _ => none

/-- Descriptors up to the footer; every one of them takes bytes. -/
def parseFields : Nat → Bytes → Option (List FieldType)
  | 0, _ => none
  | fuel + 1, bytes =>
    if bytes = [Blr.end_, Blr.eoc] then some []
    else do
      let (type, rest) ← parseType bytes
      let rest ← parseNullSlot rest
      let types ← parseFields fuel rest
      return type :: types

/-- The count word of the message, and its fields. -/
def parseBlr : Bytes → Option (Nat × List FieldType)
  | a :: b :: c :: d :: low :: high :: rest =>
    if a = Blr.version5 ∧ b = Blr.begin_ ∧ c = Blr.message ∧ d = 0 then
      (parseFields rest.length rest).map fun types => (low.toNat + 256 * high.toNat, types)
    else none
  | _ => none

/-! What is sent -/

/-- The value a parameter puts on the wire, none for a null. -/
def wireValue (host : EncodeHost) (i : Nat) : ParamValue → Option WireValue
  | .null | .undefined | .other _ => none
  | .string text =>
    match host.encodeText i text with
    | .ok bytes => some (.text bytes)
    | .error _ => none
  | .boolean b => some (.text (if b then [116, 114, 117, 101] else [102, 97, 108, 115, 101]))
  | .number v =>
    match v.integer with
    | some n =>
      if INT32_MIN ≤ n ∧ n ≤ INT32_MAX then some (.long n)
      else if -MAX_SAFE_INTEGER ≤ n ∧ n ≤ MAX_SAFE_INTEGER then some (.int64 n)
      else some (.double v)
    | none => some (.double v)
  | .bigint v => if INT64_MIN ≤ v ∧ v ≤ INT64_MAX then some (.int64 v) else some (.int128 v)
  | .zonedDate date zone =>
    let (days, fractions) := encodeTimestampUtc date
    match zoneToTzId host zone with
    | .ok tzId => some (.timestamp_tz days.toInt32.toInt fractions.toUint32 tzId)
    | .error _ => none
  | .date d =>
    let (days, fractions) := encodeTimestamp host d
    some (.timestamp days.toInt32.toInt fractions.toUint32)
  | .blobRef id => some (.quad id)
  | .decFloat v => some (.decimal v.bytes)
  | .buffer b => some (.text b)

def wireValues (host : EncodeHost) : Nat → List ParamValue → List (Option WireValue)
  | _, [] => []
  | i, v :: values => wireValue host i v :: wireValues host (i + 1) values

/-- The message holds what was sent, field by field, and nothing else; the BLR counts two
descriptors for every parameter. -/
def ParsesBack (host : EncodeHost) (values : List ParamValue) (e : EncodedParams) : Prop :=
  ∃ fields, parseBlr e.blr = some (2 * values.length, fields) ∧ fields.length = values.length ∧
    readRow fields e.message = some (wireValues host 0 values, [])

/-- A blob id has eight bytes, a zone sixteen bits. -/
def WellSized (host : EncodeHost) : ParamValue → Prop
  | .blobRef id => id.length = 8
  | .zonedDate _ zone =>
    ∀ tzId, zoneToTzId host zone = .ok tzId → ∃ id : Nat, id < 65536 ∧ tzId = .int id
  | _ => True

/-! The BLR -/

namespace FieldType

/-- What describes a field, its null indicator with it. -/
def descriptor : FieldType → Bytes
  | text length =>
    [Blr.text, UInt8.ofNat length, UInt8.ofNat (length >>> 8), Blr.short, 0]
  | long => [Blr.long, 0, Blr.short, 0]
  | int64 => [Blr.int64, 0, Blr.short, 0]
  | int128 => [Blr.int128, 0, Blr.short, 0]
  | double => [Blr.double, Blr.short, 0]
  | timestamp => [Blr.timestamp, Blr.short, 0]
  | timestamp_tz => [Blr.timestamp_tz, Blr.short, 0]
  | quad => [Blr.quad, 0, Blr.short, 0]
  | dec64 => [Blr.dec64, Blr.short, 0]
  | dec128 => [Blr.dec128, Blr.short, 0]

/-- The length goes into its word. -/
def Short : FieldType → Prop
  | text length => length < 65536
  | _ => True

end FieldType

theorem word_value {n : Nat} :
    (UInt8.ofNat n).toNat + 256 * (UInt8.ofNat (n >>> 8)).toNat = n % 65536 := by
  have hlow : (UInt8.ofNat n).toNat = n % 256 := rfl
  have hhigh : (UInt8.ofNat (n >>> 8)).toNat = n >>> 8 % 256 := rfl
  rw [hlow, hhigh, Nat.shiftRight_eq_div_pow]
  omega

theorem parse_descriptor {f : FieldType} (h : f.Short) (rest : Bytes) :
    ∃ middle, parseType (f.descriptor ++ rest) = some (f, middle) ∧
      parseNullSlot middle = some rest ∧ f.descriptor ++ rest ≠ [Blr.end_, Blr.eoc] := by
  have hslot : parseNullSlot (Blr.short :: 0 :: rest) = some rest := rfl
  refine ⟨Blr.short :: 0 :: rest, ?_, hslot, ?_⟩
  · cases f with
    | text length =>
      have hword : (UInt8.ofNat length).toNat + 256 * (UInt8.ofNat (length >>> 8)).toNat =
          length := by
        rw [word_value]
        exact Nat.mod_eq_of_lt h
      show some (FieldType.text ((UInt8.ofNat length).toNat +
        256 * (UInt8.ofNat (length >>> 8)).toNat), _) = _
      rw [hword]
      rfl
    | long => rfl
    | int64 => rfl
    | int128 => rfl
    | double => rfl
    | timestamp => rfl
    | timestamp_tz => rfl
    | quad => rfl
    | dec64 => rfl
    | dec128 => rfl
  · intro heq
    cases f <;> exact absurd (List.cons.inj heq).1 (by decide)

theorem parseFields_descriptors {fields : List FieldType} (h : ∀ f ∈ fields, f.Short) :
    ∀ fuel, fields.length < fuel →
      parseFields fuel (fields.flatMap FieldType.descriptor ++ [Blr.end_, Blr.eoc]) =
        some fields := by
  induction fields with
  | nil =>
    intro fuel hfuel
    obtain ⟨k, rfl⟩ := Nat.exists_eq_succ_of_ne_zero (by omega : fuel ≠ 0)
    rfl
  | cons f fields ih =>
    intro fuel hfuel
    rw [List.length_cons] at hfuel
    obtain ⟨k, rfl⟩ := Nat.exists_eq_succ_of_ne_zero (by omega : fuel ≠ 0)
    have hrest := ih (fun g hg => h g (List.mem_cons_of_mem f hg)) k (by omega)
    obtain ⟨middle, htype, hslot, hfooter⟩ := parse_descriptor (h f List.mem_cons_self)
      (fields.flatMap FieldType.descriptor ++ [Blr.end_, Blr.eoc])
    rw [List.flatMap_cons, List.append_assoc, parseFields, if_neg hfooter, htype]
    simp only [Option.bind_eq_bind, Option.bind_some, hslot, hrest]
    rfl

theorem length_descriptors (fields : List FieldType) :
    fields.length ≤ (fields.flatMap FieldType.descriptor).length := by
  induction fields with
  | nil => exact le_rfl
  | cons f fields ih =>
    have hpos : 1 ≤ f.descriptor.length := by
      cases f <;> exact Nat.succ_le_succ (Nat.zero_le _)
    rw [List.flatMap_cons, List.length_append, List.length_cons]
    omega

/-! The null bitmap -/

theorem isNullBit_eq (bitmap : Bytes) (i : Nat) :
    isNullBit bitmap i = ((bitmap.getD (i / 8) 0).toNat).testBit (i % 8) := by
  have hmask : i &&& 7 = i % 8 := Nat.and_two_pow_sub_one_eq_mod i 3
  have hindex : i >>> 3 = i / 8 := Nat.shiftRight_eq_div_pow i 3
  rw [isNullBit, hmask, hindex, Nat.one_shiftLeft, Nat.and_two_pow]
  cases (bitmap.getD (i / 8) 0).toNat.testBit (i % 8)
  · simp
  · simp

@[simp] theorem length_setBit (bitmap : Bytes) (i : Nat) :
    (setBit bitmap i).length = bitmap.length := by
  rw [setBit, List.length_set]

theorem isNullBit_setBit {bitmap : Bytes} {i : Nat} (h : i / 8 < bitmap.length) (j : Nat) :
    isNullBit (setBit bitmap i) j = (decide (j = i) || isNullBit bitmap j) := by
  have hmask : i &&& 7 = i % 8 := Nat.and_two_pow_sub_one_eq_mod i 3
  have hindex : i >>> 3 = i / 8 := Nat.shiftRight_eq_div_pow i 3
  simp only [isNullBit_eq, setBit, hmask, hindex, Nat.one_shiftLeft]
  by_cases hbyte : j / 8 = i / 8
  · rw [hbyte, List.getD_eq_getElem?_getD, List.getElem?_set_self h, Option.getD_some]
    have hsmall : (bitmap.getD (i / 8) 0).toNat ||| 2 ^ (i % 8) < 2 ^ 8 := by
      apply Nat.or_lt_two_pow (UInt8.toNat_lt _)
      exact Nat.pow_lt_pow_right (by decide) (Nat.mod_lt _ (by decide))
    have hnat : (UInt8.ofNat ((bitmap.getD (i / 8) 0).toNat ||| 2 ^ (i % 8))).toNat =
        (bitmap.getD (i / 8) 0).toNat ||| 2 ^ (i % 8) := by
      show _ % 2 ^ 8 = _
      exact Nat.mod_eq_of_lt hsmall
    rw [hnat, Nat.testBit_or, Nat.testBit_two_pow, Bool.or_comm]
    congr 1
    rw [decide_eq_decide]
    omega
  · have hne : j ≠ i := fun heq => hbyte (by rw [heq])
    rw [List.getD_eq_getElem?_getD, List.getElem?_set_ne (Ne.symm hbyte),
      ← List.getD_eq_getElem?_getD, decide_eq_false hne, Bool.false_or]

theorem isNullBit_zeros (n i : Nat) : isNullBit (List.replicate n 0) i = false := by
  have hbyte : (List.replicate n (0 : UInt8)).getD (i / 8) 0 = 0 := by
    rw [List.getD_eq_getElem?_getD, List.getElem?_replicate]
    split <;> rfl
  rw [isNullBit_eq, hbyte]
  exact Nat.zero_testBit _

/-! One parameter -/

/-- The bytes are read as `w`, and only of a parameter that has its size. -/
structure Reads (host : EncodeHost) (v : ParamValue) (f : FieldType) (w : WireValue)
    (bytes : Bytes) : Prop where
  back : WellSized host v → ∀ rest, readField f (bytes ++ rest) = some (w, rest)
  only : ∀ rest rest', readField f (bytes ++ rest) = some (w, rest') → WellSized host v

theorem Reads.plain {host : EncodeHost} {v : ParamValue} {f : FieldType} {w : WireValue}
    {bytes : Bytes} (hv : WellSized host v)
    (h : ∀ rest, readField f (bytes ++ rest) = some (w, rest)) : Reads host v f w bytes :=
  ⟨fun _ => h, fun _ _ _ => hv⟩

/-- What a writer appends is read as `w`. -/
def Writes (host : EncodeHost) (v : ParamValue) (f : FieldType) (w : WireValue)
    (write : ParamWriter) : Prop :=
  ∀ data data', write data = .ok data' →
    ∃ bytes, data'.buf = data.buf ++ bytes ∧ Reads host v f w bytes

/-- What one round of the loop does. -/
inductive Encoded (host : EncodeHost) (i : Nat) (v : ParamValue) (s s' : ParamState) : Prop where
  | null {f : FieldType} (hshort : f.Short) (hblr : s'.blr.bytes = s.blr.bytes ++ f.descriptor)
      (hwire : wireValue host i v = none) (hbitmap : s'.bitmap = setBit s.bitmap i)
      (hwriters : s'.values2 = s.values2)
  | value {f : FieldType} {w : WireValue} {write : ParamWriter} (hshort : f.Short)
      (hblr : s'.blr.bytes = s.blr.bytes ++ f.descriptor) (hwire : wireValue host i v = some w)
      (hbitmap : s'.bitmap = s.bitmap) (hwriters : s'.values2 = s.values2 ++ [write])
      (hwrite : Writes host v f w write)

theorem padded_filler (n : Nat) : n + (padded n - n) = padded n := by
  have := le_padded n
  omega

theorem reads_text (bytes rest : Bytes) :
    readField (.text bytes.length)
      (bytes ++ List.replicate (padded bytes.length - bytes.length) 0 ++ rest) =
      some (.text bytes, rest) := by
  have hread := @readPadded_append bytes
    (List.replicate (padded bytes.length - bytes.length) 0)
    (by rw [List.length_replicate, padded_filler]) rest
  simp only [readField, hread, Option.map_some]

theorem reads_int64 {v : Int} {octets : Bytes} (h : int64Octets v = .ok octets) (rest : Bytes) :
    readField .int64 (octets ++ rest) = some (.int64 v, rest) := by
  obtain ⟨hlen, hvalue⟩ := int64Octets_read h
  simp only [readField, readInt64, readBytes_append hlen, Option.map_some, hvalue]

/-- The halves of a number of 128 bits. -/
theorem int128_halves (v : Int) : (v >>> (64 : Nat)) * 2 ^ 64 + (BitVec.ofInt 64 v).toNat = v := by
  have hlow : ((BitVec.ofInt 64 v).toNat : Int) = v % 2 ^ 64 := by
    rw [BitVec.toNat_ofInt, Int.toNat_of_nonneg (Int.emod_nonneg _ (by decide))]
    rfl
  rw [hlow, Int.shiftRight_eq_div_pow]
  exact Int.ediv_mul_add_emod v _

theorem reads_int128 {v : Int} {high : Bytes} (h : int64Octets (v >>> (64 : Nat)) = .ok high)
    (rest : Bytes) :
    readField .int128 (high ++ bigEndian 8 (BitVec.ofInt 64 v).toNat ++ rest) =
      some (.int128 v, rest) := by
  obtain ⟨hlen, hvalue⟩ := int64Octets_read h
  have hsum : (high ++ bigEndian 8 (BitVec.ofInt 64 v).toNat).length = 16 := by
    rw [List.length_append, hlen, length_bigEndian]
  have hlow : ofBigEndian (bigEndian 8 (BitVec.ofInt 64 v).toNat) = (BitVec.ofInt 64 v).toNat :=
    ofBigEndian_bigEndian_of_lt (BitVec.isLt _)
  simp only [readField, readInt128, readBytes_append hsum, Option.map_some,
    List.take_left' hlen, List.drop_left' hlen, hvalue, hlow, int128_halves]

theorem reads_double (v : Double) (rest : Bytes) :
    readField .double (bigEndian 8 v.bits.toNat ++ rest) = some (.double v, rest) := by
  have hvalue : ofBigEndian (bigEndian 8 v.bits.toNat) = v.bits.toNat :=
    ofBigEndian_bigEndian_of_lt v.bits.toNat_lt
  simp only [readField, readBytes_append (length_bigEndian 8 _), Option.map_some, hvalue,
    UInt64.ofNat_toNat]

theorem reads_timestamp (days fractions : Number) (rest : Bytes) :
    readField .timestamp (bigEndian 4 days.toUint32 ++ bigEndian 4 fractions.toUint32 ++ rest) =
      some (.timestamp days.toInt32.toInt fractions.toUint32, rest) := by
  simp only [readField, List.append_assoc, readInt32_append, readUint32_append,
    Option.bind_eq_bind, Option.bind_some]
  rfl

theorem reads_timestamp_tz (days fractions tzId : Number) (rest : Bytes) :
    readField .timestamp_tz (bigEndian 4 days.toUint32 ++ bigEndian 4 fractions.toUint32 ++
      bigEndian 4 tzId.toUint32 ++ rest) =
      some (.timestamp_tz days.toInt32.toInt fractions.toUint32
        (.int ((tzId.toUint32 % 65536 : Nat) : Int)), rest) := by
  have hmask : tzId.toUint32 &&& 0xffff = tzId.toUint32 % 65536 :=
    Nat.and_two_pow_sub_one_eq_mod _ 16
  simp only [readField, List.append_assoc, readInt32_append, readUint32_append,
    Option.bind_eq_bind, Option.bind_some, hmask]
  rfl

/-- Sixteen bits of a zone are enough for its id, if that has no more. -/
theorem zone_bits {id : Nat} (h : id < 65536) : (Number.int id).toUint32 % 65536 = id := by
  have hbits : (Number.int id).toUint32 = id := by
    show (BitVec.ofInt 32 (id : Int)).toNat = id
    rw [BitVec.ofInt_natCast, BitVec.toNat_ofNat, Nat.mod_eq_of_lt]
    omega
  rw [hbits, Nat.mod_eq_of_lt h]

theorem reads_zoned {host : EncodeHost} {date : JsDate} {zone : Text} {tzId : Number}
    (h : zoneToTzId host zone = .ok tzId) (days fractions : Number) :
    Reads host (.zonedDate date zone) .timestamp_tz
      (.timestamp_tz days.toInt32.toInt fractions.toUint32 tzId)
      (bigEndian 4 days.toUint32 ++ bigEndian 4 fractions.toUint32 ++
        bigEndian 4 tzId.toUint32) := by
  constructor
  · intro hsize rest
    obtain ⟨id, hid, rfl⟩ := hsize tzId h
    rw [reads_timestamp_tz, zone_bits hid]
  · intro rest rest' hread tzId' h'
    rw [reads_timestamp_tz] at hread
    injection hread with hread
    have hzone : Number.int ((tzId.toUint32 % 65536 : Nat) : Int) = tzId := by
      injection (Prod.mk.inj hread).1
    have hsame : tzId' = tzId := by
      rw [h] at h'
      exact (Except.ok.inj h').symm
    rw [hsame]
    exact ⟨tzId.toUint32 % 65536, Nat.mod_lt _ (by decide), hzone.symm⟩

theorem reads_blob {host : EncodeHost} (id : Bytes) :
    Reads host (.blobRef id) .quad (.quad id) id := by
  constructor
  · intro hsize rest
    simp only [readField, readBytes_append (show id.length = 8 from hsize), Option.map_some]
  · intro rest rest' hread
    simp only [readField] at hread
    cases hbytes : readBytes 8 (id ++ rest) with
    | none =>
      rw [hbytes] at hread
      cases hread
    | some read =>
      rw [hbytes] at hread
      obtain ⟨data, rest''⟩ := read
      have hlen := readBytes_length hbytes
      simp only [Option.map_some, Option.some.injEq, Prod.mk.injEq, WireValue.quad.injEq] at hread
      rw [hread.1] at hlen
      exact hlen

theorem reads_decimal {host : EncodeHost} (v : DecFloatVal) :
    Reads host (.decFloat v) (if v.bytes.length = 8 then .dec64 else .dec128) (.decimal v.bytes)
      v.bytes := by
  have hsize : WellSized host (.decFloat v) := trivial
  apply Reads.plain hsize
  intro rest
  by_cases hlen : v.bytes.length = 8
  · rw [if_pos hlen]
    simp only [readField, readBytes_append hlen, Option.map_some]
  · rw [if_neg hlen]
    have hlen : v.bytes.length = 16 := v.width.resolve_left hlen
    simp only [readField, readBytes_append hlen, Option.map_some]

section Field
variable {host : EncodeHost} {i : Nat} {v : ParamValue} {s : ParamState} {f : FieldType}
  {w : WireValue}

/-- A field whose writer appends `bytes`. -/
theorem Encoded.field {describe : BlrBuilder → BlrBuilder} {write : ParamWriter}
    (hshort : f.Short)
    (hblr : (nullSlot (describe s.blr)).bytes = s.blr.bytes ++ f.descriptor)
    (hwire : wireValue host i v = some w) (hwrite : Writes host v f w write) :
    Encoded host i v s (s.field describe write) :=
  .value hshort hblr hwire rfl rfl hwrite

theorem Writes.raw {bytes : Bytes} {write : ParamWriter}
    (hwrite : ∀ data, write data = .ok (data.raw bytes)) (h : Reads host v f w bytes) :
    Writes host v f w write := by
  intro data data' heq
  rw [hwrite] at heq
  injection heq with heq
  exact ⟨bytes, by rw [← heq]; rfl, h⟩

theorem Writes.bigInt64 {n : Int} (hv : WellSized host v) :
    Writes host v .int64 (.int64 n) fun data => data.bigInt64 n := by
  intro data data' heq
  simp only [XdrWriter.bigInt64] at heq
  cases hoctets : int64Octets n with
  | error e =>
    rw [hoctets] at heq
    cases heq
  | ok octets =>
    rw [hoctets] at heq
    cases heq
    exact ⟨octets, rfl, Reads.plain hv (reads_int64 hoctets)⟩

/-- Text goes out with its length in the BLR. -/
theorem Encoded.text {bytes : Bytes} (hlen : bytes.length ≤ 0xffff) (hv : WellSized host v)
    (hwire : wireValue host i v = some (.text bytes)) : Encoded host i v s (s.text bytes) := by
  apply Encoded.field (f := .text bytes.length) (w := .text bytes)
  · exact Nat.lt_succ_of_le hlen
  · simp [nullSlot, BlrBuilder.byte, BlrBuilder.word, FieldType.descriptor]
  · exact hwire
  · exact Writes.raw (fun _ => rfl) (Reads.plain hv (reads_text bytes))

end Field

theorem described {f : FieldType} {describe : Bytes} {blr blr' : BlrBuilder}
    (hf : f.descriptor = describe ++ [Blr.short, 0]) (h : blr'.bytes = blr.bytes ++ describe) :
    (nullSlot blr').bytes = blr.bytes ++ f.descriptor := by
  rw [hf, ← List.append_assoc, ← h]
  exact List.append_assoc _ [Blr.short] [0]

/-- A type without a scale. -/
theorem described_byte {f : FieldType} {code : UInt8} {blr : BlrBuilder}
    (hf : f.descriptor = [code] ++ [Blr.short, 0]) :
    (nullSlot (blr.byte code)).bytes = blr.bytes ++ f.descriptor := described hf rfl

/-- A type with a scale of nothing. -/
theorem described_scale {f : FieldType} {code : UInt8} {blr : BlrBuilder}
    (hf : f.descriptor = [code, 0] ++ [Blr.short, 0]) :
    (nullSlot ((blr.byte code).byte 0)).bytes = blr.bytes ++ f.descriptor :=
  described hf (List.append_assoc _ [code] [0])

theorem number_encoded {host : EncodeHost} {i : Nat} {v : Double} {s s' : ParamState}
    (h : encodeParam host i (.number v) s = .ok s') : Encoded host i (.number v) s s' := by
  have hdouble (hwire : wireValue host i (.number v) = some (.double v)) :
      Encoded host i (.number v) s (s.field (fun blr => blr.byte Blr.double) fun w =>
        .ok (w.raw (bigEndian 8 v.bits.toNat))) :=
    .field (f := .double) trivial (described_byte rfl) hwire
      (.raw (fun _ => rfl) (.plain trivial (reads_double v)))
  cases hwhole : v.integer with
  | none =>
    simp only [encodeParam, hwhole] at h
    cases h
    exact hdouble (by simp only [wireValue, hwhole])
  | some n =>
    simp only [encodeParam, hwhole] at h
    by_cases hint32 : INT32_MIN ≤ n ∧ n ≤ INT32_MAX
    · rw [if_pos hint32] at h
      cases h
      have hvalue : (Number.int n).toInt32.toInt = n := by
        show (BitVec.ofInt 32 n).toInt = n
        exact BitVec.toInt_ofInt_eq_self (by decide) hint32.1 (Int.lt_of_le_sub_one hint32.2)
      apply Encoded.field (f := .long) (w := .long n) trivial (described_scale rfl)
        (by simp only [wireValue, hwhole, if_pos hint32])
      apply Writes.raw (fun _ => rfl)
      apply Reads.plain (by trivial)
      intro rest
      simp only [readField, readInt32_append, Option.map_some, hvalue]
    · rw [if_neg hint32] at h
      by_cases hsafe : -MAX_SAFE_INTEGER ≤ n ∧ n ≤ MAX_SAFE_INTEGER
      · rw [if_pos hsafe] at h
        cases h
        exact .field (f := .int64) trivial (described_scale rfl)
          (by simp only [wireValue, hwhole, if_neg hint32, if_pos hsafe])
          (.bigInt64 (by trivial))
      · rw [if_neg hsafe] at h
        cases h
        exact hdouble (by simp only [wireValue, hwhole, if_neg hint32, if_neg hsafe])

theorem bigint_encoded {host : EncodeHost} {i : Nat} {n : Int} {s s' : ParamState}
    (h : encodeParam host i (.bigint n) s = .ok s') : Encoded host i (.bigint n) s s' := by
  simp only [encodeParam] at h
  by_cases hint64 : INT64_MIN ≤ n ∧ n ≤ INT64_MAX
  · rw [if_pos hint64] at h
    cases h
    exact .field (f := .int64) trivial (described_scale rfl)
      (by rw [wireValue, if_pos hint64]) (.bigInt64 (by trivial))
  · rw [if_neg hint64] at h
    cases h
    apply Encoded.field (f := .int128) trivial (described_scale rfl)
      (by rw [wireValue, if_neg hint64])
    intro data data' heq
    cases hhigh : int64Octets (n >>> (64 : Nat)) with
    | error e =>
      rw [hhigh] at heq
      cases heq
    | ok high =>
      rw [hhigh] at heq
      cases heq
      exact ⟨_, rfl, .plain (by trivial) (reads_int128 hhigh)⟩

theorem encodeParam_encoded {host : EncodeHost} {i : Nat} {v : ParamValue} {s s' : ParamState}
    (h : encodeParam host i v s = .ok s') : Encoded host i v s s' := by
  have hnull (v : ParamValue) (hwire : wireValue host i v = none) : Encoded host i v s
      ⟨nullSlot ((s.blr.byte Blr.text).word 1), setBit s.bitmap i, s.values2⟩ := by
    refine Encoded.null (f := .text 1) (show 1 < 65536 by decide) ?_ hwire rfl rfl
    exact @described _ [Blr.text, 1, 0] _ _ rfl (List.append_assoc _ [Blr.text] [1, 0])
  cases v with
  | null =>
    cases h
    exact hnull .null rfl
  | undefined =>
    cases h
    exact hnull .undefined rfl
  | string text =>
    simp only [encodeParam] at h
    cases hencoded : host.encodeText i text with
    | error e =>
      rw [hencoded] at h
      cases h
    | ok bytes =>
      simp only [hencoded] at h
      by_cases hlong : 0xffff < bytes.length
      · rw [if_pos hlong] at h
        cases h
      · rw [if_neg hlong] at h
        cases h
        exact .text (by omega) (by trivial) (by rw [wireValue, hencoded])
  | boolean b =>
    cases h
    exact .text (by cases b <;> decide) (by trivial) rfl
  | number v => exact number_encoded h
  | bigint n => exact bigint_encoded h
  | zonedDate date zone =>
    simp only [encodeParam] at h
    cases hzone : zoneToTzId host zone with
    | error e =>
      rw [hzone] at h
      cases h
    | ok tzId =>
      rw [hzone] at h
      cases h
      have hreads := @reads_zoned host date zone tzId hzone (encodeTimestampUtc date).1
        (encodeTimestampUtc date).2
      exact .field (f := .timestamp_tz) trivial (described_byte rfl)
        (by simp only [wireValue, hzone])
        (.raw (fun _ => by simp [XdrWriter.int32, XdrWriter.uint32, XdrWriter.raw]) hreads)
  | date d =>
    cases h
    exact .field (f := .timestamp) trivial (described_byte rfl) rfl
      (.raw (fun _ => by simp [XdrWriter.int32, XdrWriter.uint32, XdrWriter.raw])
        (.plain (by trivial) (reads_timestamp _ _)))
  | blobRef id =>
    cases h
    exact .field (f := .quad) trivial (described_scale rfl) rfl
      (.raw (fun _ => rfl) (reads_blob id))
  | decFloat v =>
    cases h
    apply Encoded.field (f := if v.bytes.length = 8 then .dec64 else .dec128) (w := .decimal v.bytes)
    · split <;> trivial
    · split <;> exact described_byte rfl
    · rfl
    · exact .raw (fun _ => rfl) (reads_decimal v)
  | buffer b =>
    simp only [encodeParam] at h
    by_cases hlong : 0xffff < b.length
    · rw [if_pos hlong] at h
      cases h
    · rw [if_neg hlong] at h
      cases h
      exact .text (by omega) (by trivial) rfl
  | other typeof => cases h

/-! All parameters -/

/-- The fields and the writers that the parameters from the `i`-th on have become. -/
inductive Fields (host : EncodeHost) :
    Nat → List ParamValue → List FieldType → List ParamWriter → Prop where
  | nil {i : Nat} : Fields host i [] [] []
  | null {i : Nat} {v : ParamValue} {values : List ParamValue} {f : FieldType}
      {fields : List FieldType} {writers : List ParamWriter} (hshort : f.Short)
      (hwire : wireValue host i v = none) (hrest : Fields host (i + 1) values fields writers) :
      Fields host i (v :: values) (f :: fields) writers
  | value {i : Nat} {v : ParamValue} {values : List ParamValue} {f : FieldType} {w : WireValue}
      {write : ParamWriter} {fields : List FieldType} {writers : List ParamWriter}
      (hshort : f.Short) (hwire : wireValue host i v = some w) (hwrite : Writes host v f w write)
      (hrest : Fields host (i + 1) values fields writers) :
      Fields host i (v :: values) (f :: fields) (write :: writers)

section Fields
variable {host : EncodeHost} {i : Nat} {values : List ParamValue} {fields : List FieldType}
  {writers : List ParamWriter}

theorem Fields.length (h : Fields host i values fields writers) :
    fields.length = values.length := by
  induction h with
  | nil => rfl
  | null _ _ _ ih => rw [List.length_cons, List.length_cons, ih]
  | value _ _ _ _ ih => rw [List.length_cons, List.length_cons, ih]

theorem Fields.short (h : Fields host i values fields writers) : ∀ f ∈ fields, f.Short := by
  induction h with
  | nil => simp
  | null hshort _ _ ih => exact List.forall_mem_cons.mpr ⟨hshort, ih⟩
  | value hshort _ _ _ ih => exact List.forall_mem_cons.mpr ⟨hshort, ih⟩

/-- The bitmap marks the nulls among the parameters from the `i`-th on. -/
def Marks (host : EncodeHost) (bitmap : Bytes) (i : Nat) (values : List ParamValue) : Prop :=
  ∀ j v, values[j]? = some v → isNullBit bitmap (i + j) = (wireValue host (i + j) v).isNone

theorem Marks.head {bitmap : Bytes} {v : ParamValue} (h : Marks host bitmap i (v :: values)) :
    isNullBit bitmap i = (wireValue host i v).isNone := h 0 v rfl

theorem Marks.tail {bitmap : Bytes} {v : ParamValue} (h : Marks host bitmap i (v :: values)) :
    Marks host bitmap (i + 1) values := by
  intro j u hu
  have hindex : i + 1 + j = i + (j + 1) := by omega
  rw [hindex]
  exact h (j + 1) u hu

/-- What the writers append is read as the row of the parameters, if these have their size, and
only then. -/
theorem Fields.reads (h : Fields host i values fields writers) :
    ∀ {data data' : XdrWriter}, runWriters writers data = .ok data' →
      ∃ bytes, data'.buf = data.buf ++ bytes ∧ ∀ bitmap, Marks host bitmap i values →
        ((∀ v ∈ values, WellSized host v) →
          readCells bitmap i fields bytes = some (wireValues host i values, [])) ∧
        ∀ rest, readCells bitmap i fields bytes = some (wireValues host i values, rest) →
          ∀ v ∈ values, WellSized host v := by
  induction h with
  | nil =>
    intro data data' hrun
    cases hrun
    exact ⟨[], by rw [List.append_nil], fun _ _ => ⟨fun _ => rfl, by simp⟩⟩
  | @null i v values f fields writers _ hwire _ ih =>
    intro data data' hrun
    obtain ⟨bytes, hbytes, hread⟩ := ih hrun
    refine ⟨bytes, hbytes, fun bitmap hmarks => ?_⟩
    obtain ⟨hback, honly⟩ := hread bitmap hmarks.tail
    have hset : isNullBit bitmap i = true := by
      rw [hmarks.head, hwire]
      rfl
    have hsize : WellSized host v := by
      cases v with
      | blobRef id => cases hwire
      | zonedDate date zone =>
        intro tzId hzone
        simp only [wireValue, hzone] at hwire
        cases hwire
      | _ => trivial
    rw [readCells, if_pos hset, wireValues, hwire]
    constructor
    · intro hall
      rw [hback fun u hu => hall u (List.mem_cons_of_mem v hu)]
      rfl
    · intro rest hcells
      cases hrest : readCells bitmap (i + 1) fields bytes with
      | none =>
        rw [hrest] at hcells
        cases hcells
      | some read =>
        rw [hrest] at hcells
        simp only [Option.map_some, Option.some.injEq, Prod.mk.injEq, List.cons.injEq,
          true_and] at hcells
        have htail := honly read.2 (by rw [hrest, ← hcells.1])
        exact List.forall_mem_cons.mpr ⟨hsize, htail⟩
  | @value i v values f w write fields writers _ hwire hwrite _ ih =>
    intro data data' hrun
    simp only [runWriters] at hrun
    cases hfirst : write data with
    | error e =>
      rw [hfirst] at hrun
      cases hrun
    | ok data₁ =>
    rw [hfirst] at hrun
    obtain ⟨bytes₁, hbytes₁, hreads⟩ := hwrite data data₁ hfirst
    obtain ⟨bytes, hbytes, hread⟩ := ih hrun
    refine ⟨bytes₁ ++ bytes, by rw [hbytes, hbytes₁, List.append_assoc], fun bitmap hmarks => ?_⟩
    obtain ⟨hback, honly⟩ := hread bitmap hmarks.tail
    have hclear : ¬ isNullBit bitmap i = true := by
      rw [hmarks.head, hwire]
      exact Bool.false_ne_true
    rw [readCells, if_neg hclear, wireValues, hwire]
    constructor
    · intro hall
      obtain ⟨hv, hvs⟩ := List.forall_mem_cons.mp hall
      rw [hreads.back hv bytes]
      simp only [Option.bind_eq_bind, Option.bind_some, hback hvs]
      rfl
    · intro rest hcells
      cases hfield : readField f (bytes₁ ++ bytes) with
      | none =>
        rw [hfield] at hcells
        cases hcells
      | some read =>
        obtain ⟨w', middle⟩ := read
        rw [hfield] at hcells
        simp only [Option.bind_eq_bind, Option.bind_some] at hcells
        cases hrest : readCells bitmap (i + 1) fields middle with
        | none =>
          rw [hrest] at hcells
          cases hcells
        | some row =>
          rw [hrest] at hcells
          simp only [Option.bind_some, Option.pure_def, Option.some.injEq, Prod.mk.injEq,
            List.cons.injEq] at hcells
          obtain ⟨⟨rfl, hrow⟩, -⟩ := hcells
          have hv := hreads.only bytes middle hfield
          -- then the field took its own bytes, and the rest of the row is read behind them
          have hmiddle : middle = bytes := by
            rw [hreads.back hv bytes] at hfield
            exact (Prod.mk.inj (Option.some.inj hfield)).2.symm
          rw [hmiddle] at hrest
          have htail := honly row.2 (by rw [hrest, ← hrow])
          exact List.forall_mem_cons.mpr ⟨hv, htail⟩

end Fields

/-- The loop over the values. -/
theorem encodeValues_fields {host : EncodeHost} {values : List ParamValue} :
    ∀ {i : Nat} {s s' : ParamState}, encodeValues host i values s = .ok s' →
      i + values.length ≤ 8 * s.bitmap.length → (∀ j, i ≤ j → isNullBit s.bitmap j = false) →
      ∃ fields writers, Fields host i values fields writers ∧
        s'.blr.bytes = s.blr.bytes ++ fields.flatMap FieldType.descriptor ∧
        s'.values2 = s.values2 ++ writers ∧ s'.bitmap.length = s.bitmap.length ∧
        (∀ j, j < i → isNullBit s'.bitmap j = isNullBit s.bitmap j) ∧
        Marks host s'.bitmap i values := by
  induction values with
  | nil =>
    intro i s s' h _ _
    cases h
    exact ⟨[], [], .nil, by simp, by simp, rfl, fun _ _ => rfl, by simp [Marks]⟩
  | cons v values ih =>
    intro i s s' h hroom hclear
    simp only [encodeValues] at h
    cases hfirst : encodeParam host i v s with
    | error e =>
      rw [hfirst] at h
      cases h
    | ok s₁ =>
    rw [hfirst] at h
    rw [List.length_cons] at hroom
    -- the bit of the first value, and the bits that are still to come
    have hstep : ∃ f : FieldType, ∃ written : List ParamWriter,
        s₁.blr.bytes = s.blr.bytes ++ f.descriptor ∧ s₁.values2 = s.values2 ++ written ∧
        s₁.bitmap.length = s.bitmap.length ∧
        isNullBit s₁.bitmap i = (wireValue host i v).isNone ∧
        (∀ j, j ≠ i → isNullBit s₁.bitmap j = isNullBit s.bitmap j) ∧
        ∀ fields writers, Fields host (i + 1) values fields writers →
          Fields host i (v :: values) (f :: fields) (written ++ writers) := by
      cases encodeParam_encoded hfirst with
      | @null f hshort hblr hwire hbitmap hwriters =>
        have hbit := @isNullBit_setBit s.bitmap i (by omega)
        refine ⟨f, [], hblr, by rw [hwriters, List.append_nil], by rw [hbitmap, length_setBit],
          ?_, ?_, fun _ _ hrest => .null hshort hwire hrest⟩
        · rw [hbitmap, hbit, hwire]
          simp
        · intro j hj
          rw [hbitmap, hbit, decide_eq_false hj, Bool.false_or]
      | @value f w write hshort hblr hwire hbitmap hwriters hwrite =>
        refine ⟨f, [write], hblr, hwriters, by rw [hbitmap], ?_, fun j _ => by rw [hbitmap],
          fun _ _ hrest => .value hshort hwire hwrite hrest⟩
        rw [hbitmap, hclear i le_rfl, hwire]
        rfl
    obtain ⟨f, written, hblr, hwritten, hlength, hbit, hothers, hcons⟩ := hstep
    have hlater (j : Nat) (hj : i + 1 ≤ j) : isNullBit s₁.bitmap j = false := by
      rw [hothers j (by omega)]
      exact hclear j (by omega)
    obtain ⟨fields, writers, hfields, hblr', hwriters', hlength', hearlier, hmarks⟩ :=
      ih h (by omega) hlater
    refine ⟨f :: fields, written ++ writers, hcons _ _ hfields, ?_, ?_, by omega, ?_, ?_⟩
    · rw [hblr', hblr, List.flatMap_cons, List.append_assoc]
    · rw [hwriters', hwritten, List.append_assoc]
    · intro j hj
      rw [hearlier j (by omega), hothers j (by omega)]
    · intro j u hu
      cases j with
      | zero =>
        cases hu
        rw [Nat.add_zero, hearlier i (by omega), hbit]
      | succ j =>
        have hindex : i + (j + 1) = i + 1 + j := by omega
        rw [hindex]
        exact hmarks j u hu

/-- What comes out for the parameters that are accepted. -/
theorem encodeParams_spec {host : EncodeHost} {values : List ParamValue} {e : EncodedParams}
    (h : encodeParams host values = .ok e) :
    ∃ fields, parseBlr e.blr = some (2 * values.length % 65536, fields) ∧
      fields.length = values.length ∧
      ((∀ v ∈ values, WellSized host v) →
        readRow fields e.message = some (wireValues host 0 values, [])) ∧
      ∀ rest, readRow fields e.message = some (wireValues host 0 values, rest) →
        ∀ v ∈ values, WellSized host v := by
  simp only [encodeParams] at h
  cases hloop : encodeValues host 0 values
      ⟨blrHeader {} values.length, List.replicate ((values.length + 7) >>> 3) 0, []⟩ with
  | error e =>
    rw [hloop] at h
    cases h
  | ok s =>
  rw [hloop] at h
  have hbytes : (values.length + 7) >>> 3 = (values.length + 7) / 8 :=
    Nat.shiftRight_eq_div_pow _ 3
  obtain ⟨fields, writers, hfields, hblr, hwriters, hlength, -, hmarks⟩ :=
    encodeValues_fields hloop (by rw [List.length_replicate, hbytes]; omega)
      fun j _ => isNullBit_zeros _ j
  simp only [List.nil_append] at hwriters
  rw [List.length_replicate] at hlength
  have hcount := hfields.length
  have hpad : (values.length + 7) >>> 3 + (padded ((values.length + 7) >>> 3) -
      (values.length + 7) >>> 3) = padded ((values.length + 7) >>> 3) := padded_filler _
  generalize hbitmapLen : (values.length + 7) >>> 3 = bitmapLen at *
  change (runWriters s.values2 _ >>= fun data =>
    pure (⟨blrFooter s.blr, data.buf⟩ : EncodedParams)) = .ok e at h
  rw [hwriters] at h
  cases hrun : runWriters writers ((XdrWriter.raw {} s.bitmap).raw
      (List.replicate (padded bitmapLen - bitmapLen) 0xff)) with
  | error e =>
    rw [hrun] at h
    cases h
  | ok data =>
  rw [hrun] at h
  cases h
  obtain ⟨bytes, hdata, hread⟩ := hfields.reads hrun
  obtain ⟨hback, honly⟩ := hread s.bitmap hmarks
  -- the bitmap and its filler stand in front of what the writers appended
  have hrow : readRow fields data.buf = readCells s.bitmap 0 fields bytes := by
    have hmessage : data.buf = s.bitmap ++
        List.replicate (padded bitmapLen - bitmapLen) 0xff ++ bytes := hdata
    have hfront := @readPadded_append s.bitmap
      (List.replicate (padded bitmapLen - bitmapLen) 0xff)
      (by rw [List.length_replicate, hlength, hpad]) bytes
    rw [hlength] at hfront
    rw [readRow, hcount, hbitmapLen, hmessage, hfront]
    rfl
  refine ⟨fields, ?_, hcount, ?_, ?_⟩
  · have hparse := parseFields_descriptors hfields.short
      (fields.flatMap FieldType.descriptor ++ [Blr.end_, Blr.eoc]).length (by
        have := length_descriptors fields
        rw [List.length_append]
        show fields.length < _ + 2
        omega)
    have hbody : blrFooter s.blr = Blr.version5 :: Blr.begin_ :: Blr.message :: 0 ::
        UInt8.ofNat (values.length * 2) :: UInt8.ofNat ((values.length * 2) >>> 8) ::
          (fields.flatMap FieldType.descriptor ++ [Blr.end_, Blr.eoc]) := by
      simp [blrFooter, BlrBuilder.byte, hblr, blrHeader, BlrBuilder.word]
    have hword := @word_value (values.length * 2)
    rw [hbody, parseBlr, if_pos ⟨rfl, rfl, rfl, rfl⟩, hparse, Option.map_some, hword,
      Nat.mul_comm]
  · rw [hrow]
    exact hback
  · intro rest
    rw [hrow]
    exact honly rest

theorem parsesBack_short {host : EncodeHost} {values : List ParamValue} {e : EncodedParams}
    (h : encodeParams host values = .ok e) (hback : ParsesBack host values e) :
    values.length < 2 ^ 15 := by
  obtain ⟨fields, hparse, -, -⟩ := encodeParams_spec h
  obtain ⟨fields', hparse', -, -⟩ := hback
  rw [hparse] at hparse'
  have hword := (Prod.mk.inj (Option.some.inj hparse')).1
  omega

/-- A message parses back exactly when its fields can be counted and its values have their
size. -/
theorem encodeParams_parses_back_iff (host : EncodeHost) (values : List ParamValue)
    (e : EncodedParams) (h : encodeParams host values = .ok e) :
    ParsesBack host values e ↔
      values.length < 2 ^ 15 ∧ ∀ v ∈ values, WellSized host v := by
  obtain ⟨fields, hparse, hcount, hback, honly⟩ := encodeParams_spec h
  constructor
  · intro hparses
    refine ⟨parsesBack_short h hparses, ?_⟩
    obtain ⟨fields', hparse', -, hrow⟩ := hparses
    rw [hparse] at hparse'
    rw [← (Prod.mk.inj (Option.some.inj hparse')).2] at hrow
    exact honly [] hrow
  · rintro ⟨hshort, hsized⟩
    have hword : 2 * values.length % 65536 = 2 * values.length := Nat.mod_eq_of_lt (by omega)
    rw [hword] at hparse
    exact ⟨fields, hparse, hcount, hback hsized⟩

/-- Text of ASCII letters at Greenwich. -/
def asciiHost : EncodeHost where
  encodeText _ text := .ok (text.map fun c => UInt8.ofNat c.toNat)
  localTime _ := ⟨1970, 0, 1, 0, 0, 0, 0⟩
  cases := basicCase
  tzNames := ["GMT".toList]

theorem encodeParams_parses_back_mixed :
    ParsesBack asciiHost [.string "ab".toList, .null, .bigint 7]
      ⟨[5, 2, 4, 0, 6, 0, 14, 2, 0, 7, 0, 14, 1, 0, 7, 0, 16, 0, 7, 0, 255, 76],
        [2, 255, 255, 255, 97, 98, 0, 0, 0, 0, 0, 0, 0, 0, 0, 7]⟩ := by
  apply (encodeParams_parses_back_iff asciiHost _ _ (by rfl)).mpr
  refine ⟨by decide, ?_⟩
  intro v hv
  simp only [List.mem_cons, List.not_mem_nil, or_false] at hv
  rcases hv with rfl | rfl | rfl <;> trivial

theorem encodeValues_nulls (host : EncodeHost) (n : Nat) :
    ∀ (i : Nat) (s : ParamState), ∃ s',
      encodeValues host i (List.replicate n .null) s = .ok s' ∧ s'.values2 = s.values2 := by
  induction n with
  | zero => exact fun _ s => ⟨s, rfl, rfl⟩
  | succ n ih =>
    intro i s
    obtain ⟨s', hs', hwriters⟩ :=
      ih (i + 1) ⟨nullSlot ((s.blr.byte Blr.text).word 1), setBit s.bitmap i, s.values2⟩
    exact ⟨s', hs', hwriters⟩

/-- The count word of 32768 parameters is zero. -/
theorem count_word_wraps :
    ¬ ∀ (values : List ParamValue) (e : EncodedParams), encodeParams asciiHost values = .ok e →
      ParsesBack asciiHost values e := by
  intro hall
  obtain ⟨s, hloop, hwriters⟩ := encodeValues_nulls asciiHost (2 ^ 15) 0
    ⟨blrHeader {} (2 ^ 15), List.replicate ((2 ^ 15 + 7) >>> 3) 0, []⟩
  have haccepted : ∃ e, encodeParams asciiHost (List.replicate (2 ^ 15) .null) = .ok e := by
    simp only [encodeParams, List.length_replicate, hloop]
    change ∃ e, (runWriters s.values2 _ >>= fun data =>
      pure (⟨blrFooter s.blr, data.buf⟩ : EncodedParams)) = .ok e
    rw [hwriters]
    exact ⟨_, rfl⟩
  obtain ⟨e, he⟩ := haccepted
  have hshort := parsesBack_short he (hall _ e he)
  rw [List.length_replicate] at hshort
  exact absurd hshort (lt_irrefl _)

end FastFirebird.Msgcodec
